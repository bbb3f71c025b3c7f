/-! # Options

The settings of a lowering.
-/

namespace MembershipLowering

structure Options where
  /-- Trust the right operand of every membership test to be an array. -/
  looseIncludes : Bool
  deriving DecidableEq, Repr

namespace Options

/-- The settings when nothing is said. -/
def standard : Options :=
  ⟨false⟩

/-- The options as a JSON object. -/
def toJson (o : Options) : String :=
  "\x7b\"looseIncludes\":" ++ (if o.looseIncludes then "true" else "false") ++ "\x7d"

end Options

end MembershipLowering
