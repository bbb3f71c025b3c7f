/-! # Reading records out of JSON

What a program sees of a library that reads JSON: ways to read one value, which are put together
out of simpler ones, and records with a field that is read in one of these ways.
-/

namespace MembershipLowering.Json

/-- A library that reads JSON. -/
structure Library where
  /-- Why a text is not what it is read as. -/
  Error : Type
  /-- A way to read a value. -/
  Reader : Type → Type
  /-- An error about the data, with a message. -/
  custom : String → Error
  /-- The message of an error about the data, apart from the place in the text. -/
  data? : Error → Option String
  bool : Reader Bool
  string : Reader String
  /-- Read a value and look at what it is. -/
  andThen {α β : Type} : Reader α → (α → Except Error β) → Reader β
  /-- The first way that is possible. The type that is read has a name. -/
  firstOf {α : Type} (type : String) : List (Reader α) → Reader α
  /-- Read a text. -/
  run {α : Type} : Reader α → String → Except Error α
  /-- Read the one field of a record. The record's type and the field have names, and the field has
  a value where it is absent. -/
  record {α : Type} (type field : String) (absent : α) : Reader α → String → Except Error α

end MembershipLowering.Json
