import Std.Data.HashSet

/-! # Fresh names

A supply of names for temporaries: a name that has been used, or handed out, is
not handed out again.
-/

namespace MembershipLowering

/-- The greatest number that is put behind a name to make it fresh. -/
def maxSuffix : Nat := 10000

/-- The names in use, and those among them that were handed out, in order. -/
structure NameSupply where
  used : Std.HashSet String
  claimed : List String

namespace NameSupply

/-- A supply that avoids the given names. -/
def avoiding (names : List String) : NameSupply :=
  ⟨Std.HashSet.ofList names, []⟩

def isUsed (s : NameSupply) (name : String) : Bool :=
  s.used.contains name

/-- The names made from `base`, in order: itself, then numbered from one. -/
def candidate (base : String) : Nat → String
  | 0 => base
  | n + 1 => base ++ toString (n + 1)

/-- The first unused name made from `base`. -/
def fresh? (s : NameSupply) (base : String) : Option String :=
  ((List.range (maxSuffix + 1)).find? fun i => !s.isUsed (candidate base i)).map (candidate base)

/-- Hand out the first unused name made from `base`, if there is one. -/
def claim? (s : NameSupply) (base : String) : Option (String × NameSupply) :=
  (s.fresh? base).map fun name => (name, ⟨s.used.insert name, s.claimed ++ [name]⟩)

end NameSupply

end MembershipLowering
