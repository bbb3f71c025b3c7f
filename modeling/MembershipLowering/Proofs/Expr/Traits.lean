import MembershipLowering.Arena.Layout
import MembershipLowering.Membership.Adaptation

/-! # Traits of expressions

What lowering asks about the nodes of a table, told of trees: their parts, freedom from
effects, the form as a receiver, and how many temporaries are needed. The height of a tree bounds
how far down such questions go.
-/

namespace MembershipLowering.Expr

/-- The parts of an expression. -/
def parts : Expr → List Expr
  | .atom _ _ => []
  | .array _ es => es
  | .call _ f es => f :: es
  | .member _ e _ | .not _ _ e => [e]
  | .index _ l r | .binary _ l _ r | .membership _ l r _ | .assign _ l r => [l, r]

theorem countBelow_eq (e : Expr) : e.countBelow = countAll e.parts := by
  cases e <;> simp [countBelow, parts, countAll]

mutual

/-- Whether no part is a call or an assignment. -/
def isPure : Expr → Bool
  | .atom _ _ => true
  | .array _ es => isPureAll es
  | .call _ _ _ | .assign _ _ _ => false
  | .member _ o _ => o.isPure
  | .index _ o k => o.isPure && k.isPure
  | .not _ _ e => e.isPure
  | .binary _ l _ r | .membership _ l r _ => l.isPure && r.isPure

def isPureAll : List Expr → Bool
  | [] => true
  | e :: es => e.isPure && isPureAll es

end

mutual

/-- How many temporaries are needed: one for each membership test with an effect in an
    operand. -/
def temporaries : Expr → Nat
  | .atom _ _ => 0
  | .array _ es => temporariesAll es
  | .call _ f es => f.temporaries + temporariesAll es
  | .member _ o _ => o.temporaries
  | .index _ o k => o.temporaries + k.temporaries
  | .not _ _ e => e.temporaries
  | .binary _ l _ r | .assign _ l r => l.temporaries + r.temporaries
  | .membership _ l r _ =>
    (if l.isPure && r.isPure then 0 else 1) + l.temporaries + r.temporaries

def temporariesAll : List Expr → Nat
  | [] => 0
  | e :: es => e.temporaries + temporariesAll es

end

mutual

/-- Whether some part is a membership test. -/
def hasMembership : Expr → Bool
  | .atom _ _ => false
  | .array _ es => hasMembershipAll es
  | .call _ f es => f.hasMembership || hasMembershipAll es
  | .member _ o _ => o.hasMembership
  | .index _ o k => o.hasMembership || k.hasMembership
  | .not _ _ e => e.hasMembership
  | .binary _ l _ r | .assign _ l r => l.hasMembership || r.hasMembership
  | .membership _ _ _ _ => true

def hasMembershipAll : List Expr → Bool
  | [] => false
  | e :: es => e.hasMembership || hasMembershipAll es

end

mutual

/-- Number of nodes on the longest way down. -/
def height : Expr → Nat
  | .atom _ _ => 1
  | .array _ es => heightAll es + 1
  | .call _ f es => max f.height (heightAll es) + 1
  | .member _ o _ => o.height + 1
  | .not _ _ e => e.height + 1
  | .index _ l r | .binary _ l _ r | .membership _ l r _ | .assign _ l r =>
    max l.height r.height + 1

/-- The greatest height in a list. -/
def heightAll : List Expr → Nat
  | [] => 0
  | e :: es => max e.height (heightAll es)

end

/-- The form as a receiver. -/
def form : Expr → ReceiverForm
  | .atom _ .identifier => .identifier
  | .atom _ .string => .stringLiteral
  | .member _ _ _ => .member
  | .index _ _ _ => .index
  | .call _ _ _ => .call
  | .array _ _ => .arrayLiteral
  | _ => .other

def isMembership : Expr → Bool
  | .membership _ _ _ _ => true
  | _ => false

mutual

/-- What has no effects needs no temporaries. -/
theorem temporaries_of_isPure {e : Expr} (h : e.isPure = true) : e.temporaries = 0 := by
  cases e with
  | atom => rfl
  | array x es => exact temporariesAll_of_isPure h
  | call => cases h
  | assign => cases h
  | member x o name => exact temporaries_of_isPure (e := o) h
  | index x l r | binary x l op r =>
      simp only [isPure, Bool.and_eq_true] at h
      simp only [temporaries, temporaries_of_isPure h.1, temporaries_of_isPure h.2]
  | not x sign e => exact temporaries_of_isPure (e := e) h
  | membership x l r negated =>
      simp only [isPure] at h
      simp only [temporaries, h, if_true]
      rw [Bool.and_eq_true] at h
      simp only [temporaries_of_isPure h.1, temporaries_of_isPure h.2]

theorem temporariesAll_of_isPure {es : List Expr} (h : isPureAll es = true) :
    temporariesAll es = 0 := by
  cases es with
  | nil => rfl
  | cons e es =>
      simp only [isPureAll, Bool.and_eq_true] at h
      simp only [temporariesAll, temporaries_of_isPure h.1, temporariesAll_of_isPure h.2]

end

mutual

/-- Only membership tests need temporaries. -/
theorem temporaries_of_plain {e : Expr} (h : e.hasMembership = false) : e.temporaries = 0 := by
  cases e with
  | atom => rfl
  | membership => cases h
  | array x es => exact temporariesAll_of_plain h
  | member x o name => exact temporaries_of_plain (e := o) h
  | not x sign e => exact temporaries_of_plain (e := e) h
  | call x f es =>
      simp only [hasMembership, Bool.or_eq_false_iff] at h
      simp only [temporaries, temporaries_of_plain h.1, temporariesAll_of_plain h.2]
  | index x l r | binary x l op r | assign x l r =>
      simp only [hasMembership, Bool.or_eq_false_iff] at h
      simp only [temporaries, temporaries_of_plain h.1, temporaries_of_plain h.2]

theorem temporariesAll_of_plain {es : List Expr} (h : hasMembershipAll es = false) :
    temporariesAll es = 0 := by
  cases es with
  | nil => rfl
  | cons e es =>
      simp only [hasMembershipAll, Bool.or_eq_false_iff] at h
      simp only [temporariesAll, temporaries_of_plain h.1, temporariesAll_of_plain h.2]

end

theorem temporariesAll_append (es es' : List Expr) :
    temporariesAll (es ++ es') = temporariesAll es + temporariesAll es' := by
  induction es with
  | nil => exact (Nat.zero_add _).symm
  | cons e es ih => rw [List.cons_append, temporariesAll, ih, temporariesAll, Nat.add_assoc]

theorem height_le_heightAll {es : List Expr} {e : Expr} (h : e ∈ es) :
    e.height ≤ heightAll es := by
  induction es with
  | nil => cases h
  | cons c es ih =>
      rw [heightAll]
      cases List.mem_cons.1 h with
      | inl same => exact same ▸ Nat.le_max_left _ _
      | inr later => exact Nat.le_trans (ih later) (Nat.le_max_right _ _)

mutual

/-- A way down meets each node at most once. -/
theorem height_le_countBelow (e : Expr) : e.height ≤ e.countBelow + 1 := by
  cases e with
  | atom => exact Nat.le_refl 1
  | array x es =>
      have := heightAll_le_countAll es
      simp only [height, countBelow]
      omega
  | call x f es =>
      have := height_le_countBelow f
      have := heightAll_le_countAll es
      simp only [height, countBelow]
      omega
  | member x e name | not x sign e =>
      have := height_le_countBelow e
      simp only [height, countBelow]
      omega
  | index x l r | binary x l op r | membership x l r negated | assign x l r =>
      have := height_le_countBelow l
      have := height_le_countBelow r
      simp only [height, countBelow]
      omega

theorem heightAll_le_countAll (es : List Expr) : heightAll es ≤ countAll es := by
  cases es with
  | nil => exact Nat.le_refl 0
  | cons e es =>
      have := height_le_countBelow e
      have := heightAll_le_countAll es
      simp only [heightAll, countAll]
      omega

end

end MembershipLowering.Expr
