import MembershipLowering.Json.Library
import MembershipLowering.Proofs.Json.Grammar

/-! # What a library is relied on for

The laws that reading records rests on. They are asked only about truth values, about quoted texts
that stand for characters, and about objects that hold one of these in the field: a library may
hold a value before it is looked at, and refuse one that is nested too deep or a numeral that is
too great.
-/

namespace MembershipLowering.Json

/-- A value that a field may have. -/
inductive Choice where
  | bool (b : Bool)
  | word (cs : List Char)
  deriving DecidableEq, Repr

/-- The text of a value that makes a choice. -/
inductive Chooses : List Char → Choice → Prop where
  | true : Chooses ['t', 'r', 'u', 'e'] (.bool true)
  | false : Chooses ['f', 'a', 'l', 's', 'e'] (.bool false)
  | word {body cs : List Char} (quotes : Quotes body cs) :
      Chooses ('"' :: (body ++ ['"'])) (.word cs)

/-- What the members of an object choose, of which one at most has the name of the field. -/
inductive Sets (field : String) : List Member → Option Choice → Prop where
  | none {ms : List Member} (others : ∀ m ∈ ms, m.key ≠ field.toList) : Sets field ms .none
  | some {before after : List Member} {value : List Char} {choice : Choice}
      (chooses : Chooses value choice) (others : ∀ m ∈ before ++ after, m.key ≠ field.toList) :
      Sets field (before ++ ⟨field.toList, value⟩ :: after) (.some choice)

theorem Sets.first {field : String} {after : List Member} {value : List Char} {choice : Choice}
    (chooses : Chooses value choice) (others : ∀ m ∈ after, m.key ≠ field.toList) :
    Sets field (⟨field.toList, value⟩ :: after) (.some choice) :=
  List.nil_append (⟨field.toList, value⟩ :: after) ▸ Sets.some chooses others

namespace Library

variable (lib : Library)

/-- What comes out of reading, with errors told by what they say. -/
def outcome {α : Type} (result : Except lib.Error α) : Except (Option String) α :=
  result.mapError lib.data?

@[simp] theorem outcome_eq_ok_iff {α : Type} {result : Except lib.Error α} {a : α} :
    lib.outcome result = .ok a ↔ result = .ok a := by
  cases result with
  | ok b =>
      have same : lib.outcome (.ok b) = .ok b := rfl
      rw [same, Except.ok.injEq, Except.ok.injEq]
  | error e => exact ⟨nofun, nofun⟩

theorem outcome_eq_error_iff {α : Type} {result : Except lib.Error α} {message : Option String} :
    lib.outcome result = .error message ↔
      ∃ e, result = .error e ∧ lib.data? e = message := by
  cases result with
  | ok b => exact ⟨nofun, nofun⟩
  | error e =>
      have same : lib.outcome (.error e : Except lib.Error α) = .error (lib.data? e) := rfl
      simp [same]

/-- The documented behaviour that is relied on. -/
structure Lawful : Prop where
  /-- A message is kept, but a number at its end may be taken for a place in the text. -/
  data?_custom (message : String) (noPlace : ∀ c ∈ message.toList.getLast?, c.isDigit = false) :
    lib.data? (lib.custom message) = some message
  bool {text : List Char} {b : Bool} (chooses : Chooses text (.bool b)) :
    lib.run lib.bool (String.ofList text) = .ok b
  bool_word {text cs : List Char} (chooses : Chooses text (.word cs)) :
    ∃ e, lib.run lib.bool (String.ofList text) = .error e
  string {text cs : List Char} (chooses : Chooses text (.word cs)) :
    lib.run lib.string (String.ofList text) = .ok (String.ofList cs)
  andThen {α β : Type} {text : List Char} {choice : Choice} (chooses : Chooses text choice)
    (reader : lib.Reader α) (next : α → Except lib.Error β) :
    lib.outcome (lib.run (lib.andThen reader next) (String.ofList text)) =
      lib.outcome (lib.run reader (String.ofList text) >>= next)
  /-- A way that is possible is taken. -/
  firstOf_ok {α : Type} {text : List Char} {choice : Choice} (chooses : Chooses text choice)
    (type : String) {reader : lib.Reader α} (readers : List (lib.Reader α)) {a : α}
    (possible : lib.run reader (String.ofList text) = .ok a) :
    lib.run (lib.firstOf type (reader :: readers)) (String.ofList text) = .ok a
  /-- After one that is not, the others are tried. -/
  firstOf_error {α : Type} {text : List Char} {choice : Choice} (chooses : Chooses text choice)
    (type : String) {reader : lib.Reader α} (readers : List (lib.Reader α)) {e : lib.Error}
    (impossible : lib.run reader (String.ofList text) = .error e) :
    lib.run (lib.firstOf type (reader :: readers)) (String.ofList text) =
      lib.run (lib.firstOf type readers) (String.ofList text)
  /-- The field of an empty object is absent. -/
  record_empty {α : Type} (type field : String) (absent : α) (reader : lib.Reader α)
    {text : String} (writes : WritesObject text.toList []) :
    lib.record type field absent reader text = .ok absent
  /-- The field of an object with no other members is what its value is read as. -/
  record_field {α : Type} (type field : String) (absent : α) (reader : lib.Reader α)
    {text : String} {value : List Char} {choice : Choice} (chooses : Chooses value choice)
    (writes : WritesObject text.toList [⟨field.toList, value⟩]) :
    lib.outcome (lib.record type field absent reader text) =
      lib.outcome (lib.run reader (String.ofList value))
  /-- A member with an unknown name may as well be left out. -/
  record_unknown {α : Type} (type field : String) (absent : α) (reader : lib.Reader α)
    {text text' : String} (before after : List Member) {m : Member} {choice : Option Choice}
    (unknown : m.key ≠ field.toList) (sets : Sets field (before ++ m :: after) choice)
    (writes : WritesObject text.toList (before ++ m :: after))
    (sets' : Sets field (before ++ after) choice)
    (writes' : WritesObject text'.toList (before ++ after)) :
    lib.outcome (lib.record type field absent reader text) =
      lib.outcome (lib.record type field absent reader text')

namespace Lawful

variable {lib : Library} (lawful : lib.Lawful) {α β : Type}

/-! ### Values -/

section Values

variable {text : List Char} {choice : Choice} (chooses : Chooses text choice)
  {reader : lib.Reader α}
include lawful chooses

theorem andThen_ok (next : α → Except lib.Error β) {a : α} {b : β}
    (first : lib.run reader (String.ofList text) = .ok a) (then_ok : next a = .ok b) :
    lib.run (lib.andThen reader next) (String.ofList text) = .ok b := by
  have both := lawful.andThen chooses reader next
  rw [first] at both
  exact lib.outcome_eq_ok_iff.1 (both.trans (congrArg lib.outcome then_ok))

theorem andThen_error (next : α → Except lib.Error β) {e : lib.Error}
    (first : lib.run reader (String.ofList text) = .error e) :
    ∃ e', lib.run (lib.andThen reader next) (String.ofList text) = .error e' := by
  have both := lawful.andThen chooses reader next
  rw [first] at both
  obtain ⟨e', refused, -⟩ := lib.outcome_eq_error_iff.1 both
  exact ⟨e', refused⟩

end Values

/-! ### Records

Unknown members are left out one by one, those in front of the field first.
-/

section Records

variable {type field : String} {absent : α} {reader : lib.Reader α} {ms : List Member}
include lawful

theorem record_absent {text : String} (writes : WritesObject text.toList ms)
    (others : ∀ m ∈ ms, m.key ≠ field.toList) :
    lib.record type field absent reader text = .ok absent := by
  induction ms generalizing text with
  | nil => exact lawful.record_empty type field absent reader writes
  | cons m ms ih =>
      have later : ∀ n ∈ ms, n.key ≠ field.toList :=
        fun n mem => others n (List.mem_cons_of_mem _ mem)
      obtain ⟨text', writes'⟩ := writes.select (List.subset_cons_self m ms)
      have same := lawful.record_unknown type field absent reader [] ms
        (others m List.mem_cons_self) (.none others) writes (.none later) writes'
      rw [ih writes' later] at same
      exact lib.outcome_eq_ok_iff.1 same

variable {before after : List Member} {value : List Char} {choice : Choice}

theorem record_first {text : String} (chooses : Chooses value choice)
    (writes : WritesObject text.toList (⟨field.toList, value⟩ :: after))
    (others : ∀ m ∈ after, m.key ≠ field.toList) :
    lib.outcome (lib.record type field absent reader text) =
      lib.outcome (lib.run reader (String.ofList value)) := by
  induction after generalizing text with
  | nil => exact lawful.record_field type field absent reader chooses writes
  | cons m after ih =>
      have later : ∀ n ∈ after, n.key ≠ field.toList :=
        fun n mem => others n (List.mem_cons_of_mem _ mem)
      obtain ⟨text', writes'⟩ := writes.select
        (List.cons_subset_cons ⟨field.toList, value⟩ (List.subset_cons_self m after))
      have same := lawful.record_unknown type field absent reader [⟨field.toList, value⟩] after
        (others m List.mem_cons_self) (.first chooses others) writes (.first chooses later) writes'
      exact same.trans (ih writes' later)

theorem record_present {text : String} (chooses : Chooses value choice)
    (writes : WritesObject text.toList (before ++ ⟨field.toList, value⟩ :: after))
    (others : ∀ m ∈ before ++ after, m.key ≠ field.toList) :
    lib.outcome (lib.record type field absent reader text) =
      lib.outcome (lib.run reader (String.ofList value)) := by
  induction before generalizing text with
  | nil => exact lawful.record_first chooses writes others
  | cons m before ih =>
      have later : ∀ n ∈ before ++ after, n.key ≠ field.toList :=
        fun n mem => others n (List.mem_cons_of_mem _ mem)
      obtain ⟨text', writes'⟩ := writes.select
        (List.subset_cons_self m (before ++ ⟨field.toList, value⟩ :: after))
      have same := lawful.record_unknown type field absent reader []
        (before ++ ⟨field.toList, value⟩ :: after) (others m List.mem_cons_self)
        (.some chooses others) writes (.some chooses later) writes'
      exact same.trans (ih writes' later)

end Records

end Lawful

end Library

end MembershipLowering.Json
