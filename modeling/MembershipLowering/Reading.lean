/-! # Readings

What a reader takes off the front of a list, with the rest of the list. A
reading takes at least one element, so that loops over readings end.
-/

namespace MembershipLowering

/-- A value read off the front of `source`, and the elements behind it. -/
structure Reading {τ : Type} (α : Type) (source : List τ) where
  value : α
  rest : List τ
  shorter : rest.length < source.length

namespace Reading

variable {τ α β : Type} {source : List τ}

/-- A reading of later elements, seen from the earlier ones. -/
def since {later : List τ} (r : Reading α later) (h : later.length < source.length) :
    Reading α source :=
  ⟨r.value, r.rest, Nat.lt_trans r.shorter h⟩

/-- A first reading and then one of what follows, as one reading of the second
    value. -/
def andThen (first : Reading α source) (second : Reading β first.rest) : Reading β source :=
  second.since first.shorter

/-- The same reading with another value. -/
def map (f : α → β) (r : Reading α source) : Reading β source :=
  ⟨f r.value, r.rest, r.shorter⟩

end Reading

end MembershipLowering
