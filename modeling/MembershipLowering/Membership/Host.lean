import MembershipLowering.Failure
import MembershipLowering.Membership.Adaptation

/-! # Hosts of lowering rules

A rule sees nodes by index only. It asks its host about them, has the host lower
parts, and sends the host its own edits. A host is any state machine that
answers these calls. One more call, for the token of the operator, is left out:
it can neither fail nor change anything, and what it gives only goes to the log.
-/

namespace MembershipLowering

/-- A call that may fail and may change the host's state, also when it fails. -/
abbrev Action (σ : Type) (α : Type) : Type :=
  EStateM Failure σ α

/-- The calls that a rule may make. -/
structure Host (σ : Type) where
  /-- Whether the option to trust receivers is on. -/
  loose : σ → Bool
  form : σ → NodeId → ReceiverForm
  /-- Whether a node may be moved past another. -/
  isPure : NodeId → Bool
  extent : NodeId → Action σ Extent
  /-- Lower a node where it stands. -/
  lower : NodeId → Action σ Unit
  /-- Lower a node and read its lowered text. -/
  lowerToCode : NodeId → Action σ String
  /-- Lower a node so that its value can be named again, and give the name. The
      name is made from `base`; a pure node gets one only if `force` is set. -/
  lowerToName : NodeId → (base : String) → (force : Bool) → Action σ String
  insert : (offset : Nat) → (text : String) → Action σ Unit
  remove : (start stop : Nat) → Action σ Unit

end MembershipLowering
