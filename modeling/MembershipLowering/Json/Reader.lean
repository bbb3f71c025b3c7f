import MembershipLowering.Json.Library
import MembershipLowering.Json.Wording

/-! # A reader of records

The library that runs. A record is an object of which only the member with the field's name counts,
or an array with the field's value as the only element. Other members are skipped, whatever they
hold. A value is held as a whole before it is looked at.
-/

namespace MembershipLowering.Json

/-- Why a text is not what it is read as. -/
inductive Error where
  /-- The text is no JSON. -/
  | fault (fault : Fault)
  /-- The value is of another type. -/
  | invalidType (value : Value) (expected : String)
  /-- A field comes a second time. -/
  | repeatedField (field : String)
  /-- The value cannot be read in any of the ways there are for the type. -/
  | noVariant (type : String)
  | custom (message : String)
  deriving DecidableEq, Repr

/-- What is said about a text that is JSON but of another form. About one that is no JSON only the
kind of fault is known. -/
def Error.message? : Error → Option String
  | fault _ => none
  | invalidType v expected => some ("invalid type: " ++ v.describe ++ ", expected " ++ expected)
  | repeatedField field => some ("duplicate field `" ++ field ++ "`")
  | noVariant type => some ("data did not match any variant of untagged enum " ++ type)
  | custom message => some message

/-- How many brackets may be open at once, apart from skipped values. -/
def maxOpen : Nat := 128

/-- The limit for values behind the first bracket. -/
def innerLimit : Limit := some (maxOpen - 1)

def readBool : Value → Except Error Bool
  | .bool b => .ok b
  | v => .error (.invalidType v "a boolean")

def readString : Value → Except Error String
  | .string cs => .ok (String.ofList cs)
  | v => .error (.invalidType v "a string")

/-- The first way to read a value that is possible. -/
def firstOf {α : Type} (type : String) : List (Value → Except Error α) → Value → Except Error α
  | [], _ => .error (.noVariant type)
  | read :: readers, v =>
    match read v with
    | .ok a => .ok a
    | .error _ => firstOf type readers v

/-- What was read, if only spaces are left. -/
def whole {α : Type} {source : List Char} (r : Reading α source) : Except Error α :=
  match first? r.rest with
  | some _ => .error (.fault .malformed)
  | none => .ok r.value

/-! ## Records -/

namespace Record

/-- What follows the colon, which has to come next. -/
def colon (cs : List Char) : Except Error (Reading Unit cs) :=
  match first? cs with
  | none => .error (.fault .incomplete)
  | some c => if c.value = ':' then .ok (c.map fun _ => ()) else .error (.fault .malformed)

variable {α : Type} (type field : String) (read : Value → Except Error α)

/-- A value that counts. -/
def held (limit : Limit) (cs : List Char) : Except Error (Reading α cs) :=
  match value limit cs with
  | .error e => .error (.fault e)
  | .ok v => (read v.value).map fun a => v.map fun _ => a

/-- One member, given what the field has been so far. -/
def member (seen : Option α) (cs : List Char) : Except Error (Reading (Option α) cs) :=
  match first? cs with
  | none => .error (.fault .incomplete)
  | some quote =>
    if quote.value ≠ '"' then .error (.fault .malformed)
    else
      match quoted .use quote.rest with
      | .error e => .error (.fault e)
      | .ok name =>
        let known := name.value = field.toList
        if known ∧ seen.isSome then .error (.repeatedField field)
        else
          match colon name.rest with
          | .error e => .error e
          | .ok sign =>
            let before := quote.andThen (name.andThen sign)
            if known then
              match held read innerLimit sign.rest with
              | .error e => .error e
              | .ok v => .ok (before.andThen (v.map some))
            else
              match value none sign.rest with
              | .error e => .error (.fault e)
              | .ok v => .ok (before.andThen (v.map fun _ => seen))

/-- The members of an object, of which there is at least one, and its closing
    brace. -/
def members (seen : Option α) (cs : List Char) : Except Error (Reading (Option α) cs) :=
  match member field read seen cs with
  | .error e => .error e
  | .ok m =>
    match first? m.rest with
    | none => .error (.fault .incomplete)
    | some c =>
      have := m.shorter
      have := c.shorter
      match c.value with
      | '\x7d' => .ok ((m.andThen c).map fun _ => m.value)
      | ',' => (members m.value c.rest).map (m.andThen c).andThen
      | _ => .error (.fault .malformed)
termination_by cs.length

/-- An object from behind its opening brace on. -/
def object (cs : List Char) : Except Error (Reading (Option α) cs) :=
  match first? cs with
  | none => .error (.fault .incomplete)
  | some c => if c.value = '\x7d' then .ok (c.map fun _ => none) else members field read none cs

/-- An array from behind its opening bracket on. It has one element at most. -/
def array (cs : List Char) : Except Error (Reading (Option α) cs) :=
  match first? cs with
  | none => .error (.fault .incomplete)
  | some c =>
    if c.value = ']' then .ok (c.map fun _ => none)
    else
      match held read innerLimit cs with
      | .error e => .error e
      | .ok v =>
        match first? v.rest with
        | none => .error (.fault .incomplete)
        | some close =>
          if close.value = ']' then .ok ((v.andThen close).map fun _ => some v.value)
          else .error (.fault .malformed)

/-- The record at the front of a text. -/
def front (cs : List Char) : Except Error (Reading (Option α) cs) :=
  match first? cs with
  | none => .error (.fault .incomplete)
  | some c =>
    match c.value with
    | '\x7b' => (object field read c.rest).map c.andThen
    | '[' => (array read c.rest).map c.andThen
    | _ =>
      match value innerLimit cs with
      | .error e => .error (.fault e)
      | .ok v => .error (.invalidType v.value ("struct " ++ type))

end Record

/-- The one field of a record. -/
def record {α : Type} (type field : String) (absent : α) (read : Value → Except Error α)
    (text : String) : Except Error α :=
  match Record.front type field read text.toList with
  | .error e => .error e
  | .ok r => (whole r).map fun seen => seen.getD absent

/-- Read a text that is one value. -/
def run {α : Type} (read : Value → Except Error α) (text : String) : Except Error α :=
  match Record.held read (some maxOpen) text.toList with
  | .error e => .error e
  | .ok r => whole r

/-- The library that runs takes a value off the text first and looks at it then. -/
def library : Library where
  Error := Error
  Reader α := Value → Except Error α
  custom := .custom
  data? := Error.message?
  bool := readBool
  string := readString
  andThen read next v := read v >>= next
  firstOf := firstOf
  run := run
  record := record

end MembershipLowering.Json
