import MembershipLowering.Options.Reader

/-! # Options files

Options read from the bytes of a file.
-/

namespace MembershipLowering.Options

/-- Why a file gives no options. -/
inductive FileError where
  /-- There is no such file, or it is no UTF-8 text. -/
  | unreadable
  | invalid (error : Error)
  deriving DecidableEq, Repr

/-- What is said about the file at a path. -/
def FileError.message (path : String) : FileError → String
  | unreadable => "failed to read options file " ++ path
  | invalid _ => "failed to parse options file " ++ path

/-- The options in a file, given its bytes if it exists. -/
def load (file : Option ByteArray) : Except FileError Options :=
  match file.bind String.fromUTF8? with
  | none => .error .unreadable
  | some text =>
    match ofJson text with
    | .error e => .error (.invalid e)
    | .ok o => .ok o

end MembershipLowering.Options
