import MembershipLowering.Options.Reader
import MembershipLowering.Proofs.Json.Records

/-! # What options depend on

Of a JSON object only the value of the member `looseIncludes` counts, with any library that keeps
the laws (`read_eq_answer`): the other members are skipped, whatever they are called and however
deep they are nested.
-/

namespace MembershipLowering.Options

open Json

variable {lower : List Char → List Char}

/-! ## What is asked for -/

/-- What lower-casing a text does, as far as ASCII goes: it is known there, and a character beyond
leaves a trace beyond, the Kelvin sign excepted, which becomes a `k`. -/
structure LowerCasing (lower : List Char → List Char) : Prop where
  ascii : ∀ cs : List Char, (∀ c ∈ cs, c.toNat < 128) → lower cs = cs.map Char.toLower
  beyond : ∀ cs : List Char, (∃ c ∈ cs, 128 ≤ c.toNat) →
    ∃ c ∈ lower cs, 128 ≤ c.toNat ∨ c = 'k'

/-- The truth value of a choice, or what is said about one that has none. -/
def switchAnswer (lower : List Char → List Char) : Choice → Except String Bool
  | .bool b => .ok b
  | .word cs =>
    if String.ofList (lower (Text.trim cs)) ∈ ["true", "1", "yes", "on"] then .ok true
    else if String.ofList (lower (Text.trim cs)) ∈ ["false", "0", "no", "off"] then .ok false
    else
      .error ("invalid boolean value: '" ++ String.ofList cs ++
        "'. Expected true, false, 'true', or 'false'")

/-- What the choice of an object comes to. -/
def answer (lower : List Char → List Char) : Option Choice → Except String Options
  | none => .ok ⟨false⟩
  | some choice => (switchAnswer lower choice).map fun b => ⟨b⟩

/-! ## Words -/

theorem toLower_of_beyond {c : Char} (beyond : 128 ≤ c.toNat) : c.toLower = c := by
  have noUpper : ¬(c.val ≥ 'A'.val ∧ c.val ≤ 'Z'.val) := by
    rintro ⟨-, high⟩
    have bound : c.toNat ≤ 90 := UInt32.le_iff_toNat_le.1 high
    omega
  exact dif_neg noUpper

theorem lower_eq_iff (lowerCasing : LowerCasing lower) {word : List Char}
    (plain : ∀ c ∈ word, c.toNat < 128 ∧ c ≠ 'k') (cs : List Char) :
    lower cs = word ↔ cs.map Char.toLower = word := by
  by_cases ascii : ∀ c ∈ cs, c.toNat < 128
  · rw [lowerCasing.ascii cs ascii]
  · have beyond : ∃ c ∈ cs, 128 ≤ c.toNat := by simpa using ascii
    refine ⟨fun eq => ?_, fun eq => ?_⟩
    · obtain ⟨d, mem, trace⟩ := lowerCasing.beyond cs beyond
      obtain ⟨low, noK⟩ := plain d (eq ▸ mem)
      exact trace.elim (fun high => absurd low (Nat.not_lt.2 high)) (absurd · noK)
    · obtain ⟨c, mem, high⟩ := beyond
      have mem' : c ∈ word := by
        rw [← eq, ← toLower_of_beyond high]
        exact List.mem_map_of_mem mem
      exact absurd (plain c mem').1 (Nat.not_lt.2 high)

theorem any_spells_iff (lowerCasing : LowerCasing lower) (words : List String)
    (plain : words.all (fun w => w.toList.all fun c => c.toNat < 128 && c ≠ 'k') = true)
    (cs : List Char) :
    words.any (Text.spells · cs) = true ↔ String.ofList (lower (Text.trim cs)) ∈ words := by
  simp only [List.all_eq_true, Bool.and_eq_true, decide_eq_true_eq] at plain
  simp only [List.any_eq_true, Text.spells, decide_eq_true_eq]
  constructor
  · rintro ⟨w, mem, eq⟩
    rwa [(lower_eq_iff lowerCasing (plain w mem) _).2 eq, String.ofList_toList]
  · intro mem
    exact ⟨_, mem, (lower_eq_iff lowerCasing (plain _ mem) _).1 String.toList_ofList.symm⟩

/-! ## The value -/

section Value

variable {lib : Library}

theorem getLast?_toList_append (a : String) {b : String} {c : Char}
    (last : b.toList.getLast? = some c) : (a ++ b).toList.getLast? = some c := by
  rw [String.toList_append, List.getLast?_append, last]
  rfl

/-- What is said about a word does not end in a number. -/
theorem noPlace_unknownWord (text : String) :
    ∀ c ∈ (unknownWord text).toList.getLast?, c.isDigit = false := by
  have ending : "'. Expected true, false, 'true', or 'false'".toList.getLast?.any
      (fun c => !c.isDigit) = true := by decide +kernel
  obtain ⟨d, last, noDigit⟩ := (Option.any_eq_true _ _).1 ending
  have whole : (unknownWord text).toList.getLast? = some d := getLast?_toList_append _ last
  intro c mem
  obtain rfl := Option.some.inj (whole.symm.trans mem)
  simpa using noDigit

theorem switch_string (lawful : lib.Lawful) (lowerCasing : LowerCasing lower) (cs : List Char) :
    lib.outcome (BoolOrString.switch lib (.string (String.ofList cs))) =
      (switchAnswer lower (.word cs)).mapError some := by
  have yes := any_spells_iff lowerCasing ["true", "1", "yes", "on"] (by decide) cs
  have no := any_spells_iff lowerCasing ["false", "0", "no", "off"] (by decide) cs
  simp only [BoolOrString.switch, String.toList_ofList, switch?, yes, no, switchAnswer]
  by_cases isYes : String.ofList (lower (Text.trim cs)) ∈ ["true", "1", "yes", "on"]
  · rw [if_pos isYes, if_pos isYes]
    rfl
  · rw [if_neg isYes, if_neg isYes]
    by_cases isNo : String.ofList (lower (Text.trim cs)) ∈ ["false", "0", "no", "off"]
    · rw [if_pos isNo, if_pos isNo]
      rfl
    · rw [if_neg isNo, if_neg isNo]
      exact congrArg Except.error (lawful.data?_custom _ (noPlace_unknownWord _))

/-- The reader knows what the value is. -/
theorem run_reader (lawful : lib.Lawful) {text : List Char} {choice : Choice}
    (chooses : Chooses text choice) :
    lib.run (BoolOrString.reader lib) (String.ofList text) =
      match choice with
      | .bool b => .ok (.bool b)
      | .word cs => .ok (.string (String.ofList cs)) := by
  cases choice with
  | bool b =>
      have first := lawful.andThen_ok chooses (fun b => .ok (BoolOrString.bool b))
        (lawful.bool chooses) rfl
      exact lawful.firstOf_ok chooses _ _ first
  | word cs =>
      obtain ⟨e, noBool⟩ := lawful.bool_word chooses
      obtain ⟨e', first⟩ := lawful.andThen_error chooses (fun b => .ok (BoolOrString.bool b)) noBool
      have second := lawful.andThen_ok chooses (fun text => .ok (BoolOrString.string text))
        (lawful.string chooses) rfl
      refine (lawful.firstOf_error chooses _ _ first).trans ?_
      exact lawful.firstOf_ok chooses _ _ second

/-- The value of the field, as it is read and understood. -/
theorem outcome_run_switch (lawful : lib.Lawful) (lowerCasing : LowerCasing lower)
    {text : List Char} {choice : Choice} (chooses : Chooses text choice) :
    lib.outcome (lib.run (lib.andThen (BoolOrString.reader lib) (BoolOrString.switch lib))
        (String.ofList text)) =
      (switchAnswer lower choice).mapError some := by
  rw [lawful.andThen chooses, run_reader lawful chooses]
  cases choice with
  | bool b => rfl
  | word cs => exact switch_string lawful lowerCasing cs

end Value

/-! ## The object -/

theorem outcome_read (lib : Library) (text : String) :
    lib.outcome (read lib text) =
      (lib.outcome <| lib.record "PatchOptions" key standard.looseIncludes
        (lib.andThen (BoolOrString.reader lib) (BoolOrString.switch lib)) text).map Options.mk := by
  rw [read]
  cases lib.record "PatchOptions" key standard.looseIncludes _ text <;> rfl

/-- Of an object only the member `looseIncludes` counts, with any library that keeps the laws. A
word is taken without the blanks around it and apart from case, and refused as it is written. -/
theorem read_eq_answer {lib : Library} (lawful : lib.Lawful) (lowerCasing : LowerCasing lower)
    {text : String} {ms : List Member} (writes : WritesObject text.toList ms)
    {choice : Option Choice} (sets : Sets key ms choice) :
    lib.outcome (read lib text) = (answer lower choice).mapError some := by
  rw [outcome_read]
  cases sets with
  | none others =>
      rw [lawful.record_absent writes others]
      rfl
  | @some before after value choice chooses others =>
      rw [lawful.record_present chooses writes others,
        outcome_run_switch lawful lowerCasing chooses, answer]
      cases switchAnswer lower choice <;> rfl

theorem lowerCasing_map_toLower : LowerCasing (List.map Char.toLower) where
  ascii _ _ := rfl
  beyond cs high := by
    obtain ⟨c, mem, high⟩ := high
    exact ⟨c, List.mem_map.2 ⟨c, mem, toLower_of_beyond high⟩, .inl high⟩

theorem read_eq_answer_skipping :
    Json.library.Lawful ∧ LowerCasing (List.map Char.toLower) ∧
      (∃ ms, WritesObject
        "\x7b\"x\":[\x7b\x7d,\"\\ud800\"]\n,\"\\u006cooseIncludes\": \"\\u2003oN\"\x7d".toList ms ∧
        Sets key ms (some (.word "\u2003oN".toList))) ∧
      Json.library.outcome
        (read Json.library
          "\x7b\"x\":[\x7b\x7d,\"\\ud800\"]\n,\"\\u006cooseIncludes\": \"\\u2003oN\"\x7d") =
        .ok ⟨true⟩ := by
  have noSpaces : IsSpaces [] := by simp [IsSpaces]
  have newline : IsSpaces ['\n'] := by simp [IsSpaces, isSpace]
  have space : IsSpaces [' '] := by simp [IsSpaces, isSpace]
  have high : IsHexUnit ['d', '8', '0', '0'] 0xd800 :=
    @IsHexUnit.mk 'd' '8' '0' '0' 13 8 0 0 rfl rfl rfl rfl
  have isL : IsHexUnit ['0', '0', '6', 'c'] 0x6c :=
    @IsHexUnit.mk '0' '0' '6' 'c' 0 0 6 12 rfl rfl rfl rfl
  have blank : IsHexUnit ['2', '0', '0', '3'] 0x2003 :=
    @IsHexUnit.mk '2' '0' '0' '3' 2 0 0 3 rfl rfl rfl rfl
  have lone : IsQuoted "\\ud800".toList := @IsQuoted.unit ['d', '8', '0', '0'] [] _ high .nil
  have skipped : IsValue "[\x7b\x7d,\"\\ud800\"]".toList :=
    @IsValue.array "\x7b\x7d,\"\\ud800\"".toList
      (@IsElements.more [] ['\x7b', '\x7d'] [] _ noSpaces (@IsValue.emptyObject [] noSpaces)
        noSpaces (@IsElements.last [] ('"' :: ("\\ud800".toList ++ ['"'])) [] noSpaces
          (.string lone) noSpaces))
  have name : Quotes "\\u006cooseIncludes".toList key.toList :=
    @Quotes.unit ['0', '0', '6', 'c'] _ _ _ isL rfl rfl
      (@Quotes.of_plain "ooseIncludes".toList (by decide))
  have word : Quotes "\\u2003oN".toList "\u2003oN".toList :=
    @Quotes.unit ['2', '0', '0', '3'] _ _ _ blank rfl rfl (@Quotes.of_plain ['o', 'N'] (by decide))
  have x : Quotes ['x'] ['x'] := .of_plain (by decide)
  have others : ∀ m ∈ [(⟨['x'], "[\x7b\x7d,\"\\ud800\"]".toList⟩ : Member)] ++ [],
      m.key ≠ key.toList := by simp [key]
  have sets := Sets.some (.word word) others
  have object := WritesObject.some noSpaces
    (.more (.mk noSpaces x noSpaces noSpaces skipped newline)
      (.last (.mk noSpaces name noSpaces space (.string word.isQuoted) noSpaces))) noSpaces
  refine ⟨Json.library_lawful, lowerCasing_map_toLower, ⟨_, object, sets⟩, ?_⟩
  refine (read_eq_answer Json.library_lawful lowerCasing_map_toLower ?_ sets).trans rfl
  exact object

end MembershipLowering.Options
