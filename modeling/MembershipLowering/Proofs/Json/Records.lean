import MembershipLowering.Json.Reader
import MembershipLowering.Proofs.Json.Laws
import MembershipLowering.Proofs.Json.Skipping

/-! # The laws of the library that runs

A record is read off its members one by one, of which those with other names are skipped, however
deep they are nested (`record_of_writes`). With this the library that runs keeps all the laws
(`library_lawful`).
-/

namespace MembershipLowering

/-- The call gives a value with `rest` behind it, or the error. -/
def Gives {τ ε α : Type} {source : List τ} (result : Except ε (Reading α source))
    (answer : Except ε α) (rest : List τ) : Prop :=
  match answer with
  | .ok v => Takes result v rest
  | .error e => result = .error e

theorem gives_of_eq_map {τ ε α : Type} {source : List τ} {result : Except ε (Reading α source)}
    {answer : Except ε α} {rest : List τ} {shorter : rest.length < source.length}
    (eq : result = answer.map fun v => ⟨v, rest, shorter⟩) : Gives result answer rest := by
  cases answer with
  | ok v => exact ⟨shorter, eq⟩
  | error e => exact eq

namespace Json

variable {rest : List Char}

/-- The value that a choice is held as. -/
def Choice.value : Choice → Value
  | bool b => .bool b
  | word cs => .string cs

theorem takes_choice {value : List Char} {choice : Choice} (chooses : Chooses value choice)
    (limit : Limit) (used : limit.purpose = .use) {gap : List Char} (spaces : IsSpaces gap)
    (rest : List Char) : Takes (Json.value limit (gap ++ (value ++ rest))) choice.value rest := by
  cases chooses with
  | true => exact takes_value_word (by simp [words, Choice.value]) spaces rest
  | false => exact takes_value_word (by simp [words, Choice.value]) spaces rest
  | word quotes =>
      rw [List.cons_append, List.append_assoc]
      refine takes_value_string spaces ?_
      rw [used]
      exact takes_quoted quotes rest

namespace Record

variable {α : Type} {type field : String} {read : Value → Except Error α}

/-! ## One member -/

theorem gives_held (read : Value → Except Error α) {value : List Char} {choice : Choice}
    (chooses : Chooses value choice) (limit : Limit) (used : limit.purpose = .use)
    {gap : List Char} (spaces : IsSpaces gap) (rest : List Char) :
    Gives (held read limit (gap ++ (value ++ rest))) (read choice.value) rest := by
  obtain ⟨shorter, taken⟩ := takes_choice chooses limit used spaces rest
  apply gives_of_eq_map
  simp only [held, taken]
  rfl

theorem takes_colon {gap : List Char} (spaces : IsSpaces gap) (rest : List Char) :
    Takes (colon (gap ++ ':' :: rest)) () rest := by
  obtain ⟨shorter, sign⟩ := first?_of_spaces spaces (c := ':') (by decide) rest
  refine ⟨shorter, ?_⟩
  simp only [colon, sign, if_true]
  rfl

theorem takes_member_other {seen : Option α} {gap ks name vs : List Char} {v : Value}
    (spaces : IsSpaces gap) (other : name ≠ field.toList) {gap₁ : List Char}
    (quotes : Takes (quoted .use ks) name (gap₁ ++ ':' :: vs)) (spaces₁ : IsSpaces gap₁)
    (part : Takes (value none vs) v rest) :
    Takes (member field read seen (gap ++ '"' :: ks)) seen rest := by
  obtain ⟨shorter, quote⟩ := first?_of_spaces spaces (c := '"') (by decide) ks
  obtain ⟨shorter₁, quotes⟩ := quotes
  obtain ⟨shorter₂, sign⟩ := takes_colon spaces₁ vs
  obtain ⟨shorter₃, taken⟩ := part
  refine ⟨Nat.lt_trans shorter₃ (Nat.lt_trans shorter₂ (Nat.lt_trans shorter₁ shorter)), ?_⟩
  simp only [member, quote, quotes, sign, taken, other, ne_eq, not_true_eq_false, if_false,
    false_and]
  rfl

theorem gives_member_field {answer : Except Error α} {gap ks vs : List Char}
    (spaces : IsSpaces gap) {gap₁ : List Char}
    (quotes : Takes (quoted .use ks) field.toList (gap₁ ++ ':' :: vs)) (spaces₁ : IsSpaces gap₁)
    (part : Gives (held read innerLimit vs) answer rest) :
    Gives (member field read none (gap ++ '"' :: ks)) (answer.map some) rest := by
  obtain ⟨shorter, quote⟩ := first?_of_spaces spaces (c := '"') (by decide) ks
  obtain ⟨shorter₁, quotes⟩ := quotes
  obtain ⟨shorter₂, sign⟩ := takes_colon spaces₁ vs
  cases answer with
  | ok a =>
      obtain ⟨shorter₃, taken⟩ := part
      refine ⟨Nat.lt_trans shorter₃ (Nat.lt_trans shorter₂ (Nat.lt_trans shorter₁ shorter)), ?_⟩
      simp only [member, quote, quotes, sign, taken]
      rfl
  | error e =>
      change held read innerLimit vs = .error e at part
      change member field read none (gap ++ '"' :: ks) = .error e
      simp only [member, quote, quotes, sign, part]
      rfl

theorem takes_other {cs : List Char} {m : Member} (writes : Writes cs m)
    (other : m.key ≠ field.toList) (seen : Option α) {c : Char} (delimits : isDelimiter c = true)
    (rest : List Char) :
    ∃ gap, IsSpaces gap ∧
      Takes (member field read seen (cs ++ c :: rest)) seen (gap ++ c :: rest) := by
  obtain @⟨gap, body, name, gap₁, gap₂, vs, gap₃, spaces, quotes, spaces₁, spaces₂, isValue,
    spaces₃⟩ := writes
  obtain ⟨v, part⟩ := takes_value isValue spaces₂ (ends_of_spaces spaces₃ delimits rest)
  refine ⟨gap₃, spaces₃, ?_⟩
  rw [member_append]
  exact takes_member_other spaces other (takes_quoted quotes _) spaces₁ part

theorem gives_chosen (read : Value → Except Error α) {cs value : List Char} {choice : Choice}
    (writes : Writes cs ⟨field.toList, value⟩) (chooses : Chooses value choice) (c : Char)
    (rest : List Char) :
    ∃ gap, IsSpaces gap ∧
      Gives (member field read none (cs ++ c :: rest)) ((read choice.value).map some)
        (gap ++ c :: rest) := by
  cases writes with
  | @mk gap body name gap₁ gap₂ vs gap₃ spaces quotes spaces₁ spaces₂ isValue spaces₃ =>
      have part := gives_held read chooses innerLimit rfl spaces₂ (gap₃ ++ c :: rest)
      refine ⟨gap₃, spaces₃, ?_⟩
      rw [member_append]
      exact gives_member_field spaces (takes_quoted quotes _) spaces₁ part

/-! ## All members -/

section Members

variable {seen : Option α} {answer : Except Error (Option α)} {cs ds gap : List Char}

theorem members_error {e : Error} (first : member field read seen cs = .error e) :
    members field read seen cs = .error e := by
  rw [members]
  simp only [first]

theorem gives_members_last (last : Gives (member field read seen cs) answer (gap ++ '\x7d' :: rest))
    (spaces : IsSpaces gap) : Gives (members field read seen cs) answer rest := by
  cases answer with
  | ok now =>
      obtain ⟨shorter, taken⟩ := last
      obtain ⟨shorter', close⟩ := first?_of_spaces spaces (c := '\x7d') (by decide) rest
      refine ⟨Nat.lt_trans shorter' shorter, ?_⟩
      rw [members]
      simp only [taken, close]
      rfl
  | error e => exact members_error last

theorem gives_members_more {now : Option α}
    (first : Takes (member field read seen cs) now (gap ++ ',' :: ds)) (spaces : IsSpaces gap)
    (later : Gives (members field read now ds) answer rest) :
    Gives (members field read seen cs) answer rest := by
  obtain ⟨shorter, taken⟩ := first
  obtain ⟨shorter', comma⟩ := first?_of_spaces spaces (c := ',') (by decide) ds
  cases answer with
  | ok _ =>
      obtain ⟨shorter'', taken'⟩ := later
      refine ⟨Nat.lt_trans shorter'' (Nat.lt_trans shorter' shorter), ?_⟩
      rw [members]
      simp only [taken, comma, taken']
      rfl
  | error e =>
      change members field read now ds = .error e at later
      change members field read seen cs = .error e
      rw [members]
      simp only [taken, comma, later]
      rfl

end Members

/-- Members with other names leave what is known as it is. -/
theorem takes_others {cs : List Char} {ms : List Member} (writes : WritesAll cs ms)
    (others : ∀ m ∈ ms, m.key ≠ field.toList) (seen : Option α) (rest : List Char) :
    Takes (members field read seen (cs ++ '\x7d' :: rest)) seen rest := by
  induction writes with
  | last one =>
      obtain ⟨gap, spaces, last⟩ :=
        takes_other one (others _ List.mem_cons_self) seen brace_delimits rest
      have kept : Gives (member field read seen _) (.ok seen) _ := last
      exact gives_members_last kept spaces
  | @more cs ds m ms member _ ih =>
      obtain ⟨gap, spaces, first⟩ := takes_other member (others _ List.mem_cons_self) seen
        comma_delimits (ds ++ '\x7d' :: rest)
      have later : Gives (members field read seen _) (.ok seen) rest :=
        ih fun m mem => others m (List.mem_cons_of_mem _ mem)
      rw [List.append_assoc, List.cons_append]
      exact gives_members_more first spaces later

/-- Among others, one member decides. -/
theorem gives_members {cs : List Char} {ms : List Member} (writes : WritesAll cs ms)
    {before after : List Member} {value : List Char} {choice : Choice}
    (eq : ms = before ++ ⟨field.toList, value⟩ :: after) (chooses : Chooses value choice)
    (others : ∀ m ∈ before ++ after, m.key ≠ field.toList) (rest : List Char) :
    Gives (members field read none (cs ++ '\x7d' :: rest)) ((read choice.value).map some)
      rest := by
  induction writes generalizing before with
  | @last cs m member =>
      obtain ⟨rfl, rfl⟩ : before = [] ∧ m = ⟨field.toList, value⟩ := by
        cases before with
        | nil => exact ⟨rfl, (List.cons.inj eq).1⟩
        | cons b before => cases before <;> cases (List.cons.inj eq).2
      obtain ⟨gap, spaces, last⟩ := gives_chosen read member chooses '\x7d' rest
      exact gives_members_last last spaces
  | @more cs ds m ms member later ih =>
      rw [List.append_assoc, List.cons_append]
      cases before with
      | nil =>
          obtain ⟨rfl, rfl⟩ := List.cons.inj eq
          obtain ⟨gap, spaces, first⟩ :=
            gives_chosen read member chooses ',' (ds ++ '\x7d' :: rest)
          cases verdict : read choice.value with
          | ok a =>
              rw [verdict] at first
              exact gives_members_more first spaces (takes_others later others (some a) rest)
          | error e =>
              rw [verdict] at first
              exact members_error first
      | cons b before =>
          obtain ⟨rfl, rfl⟩ := List.cons.inj eq
          obtain ⟨gap, spaces, first⟩ := takes_other member (others m List.mem_cons_self) none
            comma_delimits (ds ++ '\x7d' :: rest)
          exact gives_members_more first spaces
            (ih rfl fun m mem => others m (List.mem_cons_of_mem _ mem))

/-! ## Whole objects -/

/-- What is known of the field behind all members. -/
def found (read : Value → Except Error α) : Option Choice → Except Error (Option α)
  | none => .ok none
  | some choice => (read choice.value).map some

theorem gives_members_of_sets (read : Value → Except Error α) {cs : List Char}
    {ms : List Member} (writes : WritesAll cs ms) {choice : Option Choice}
    (sets : Sets field ms choice) (rest : List Char) :
    Gives (members field read none (cs ++ '\x7d' :: rest)) (found read choice) rest := by
  cases sets with
  | none others => exact takes_others writes others none rest
  | some chooses others => exact gives_members writes rfl chooses others rest

theorem first?_of_writes {cs : List Char} {m : Member} (writes : Writes cs m) (rest : List Char) :
    ∃ c, first? (cs ++ rest) = some c ∧ c.value = '"' := by
  obtain @⟨gap, body, name, gap₁, gap₂, vs, gap₃, spaces, quotes, spaces₁, spaces₂, isValue,
    spaces₃⟩ := writes
  rw [member_append]
  obtain ⟨_, first⟩ := first?_of_spaces spaces (c := '"') (by decide) _
  exact ⟨_, first, rfl⟩

theorem first?_of_writesAll {cs : List Char} {ms : List Member} (writes : WritesAll cs ms)
    (rest : List Char) : ∃ c, first? (cs ++ rest) = some c ∧ c.value = '"' := by
  cases writes with
  | last one => exact first?_of_writes one rest
  | more one _ =>
      rw [List.append_assoc]
      exact first?_of_writes one _

theorem takes_object_empty {gap : List Char} (spaces : IsSpaces gap) (rest : List Char) :
    Takes (object field read (gap ++ '\x7d' :: rest)) none rest := by
  obtain ⟨shorter, close⟩ := first?_of_spaces spaces (c := '\x7d') (by decide) rest
  refine ⟨shorter, ?_⟩
  simp only [object, close, if_true]
  rfl

theorem gives_object {answer : Except Error (Option α)} {cs : List Char} {ms : List Member}
    (writes : WritesAll cs ms)
    (gives : Gives (members field read none (cs ++ '\x7d' :: rest)) answer rest) :
    Gives (object field read (cs ++ '\x7d' :: rest)) answer rest := by
  obtain ⟨c, first, isQuote⟩ := first?_of_writesAll writes ('\x7d' :: rest)
  have eq : object field read (cs ++ '\x7d' :: rest) =
      members field read none (cs ++ '\x7d' :: rest) := by
    have noClose : c.value ≠ '\x7d' := by simp [isQuote]
    simp only [object, first, if_neg noClose]
  rw [eq]
  exact gives

theorem gives_front_of_object {answer : Except Error (Option α)} {gap cs : List Char}
    (spaces : IsSpaces gap) (gives : Gives (object field read cs) answer rest) :
    Gives (front type field read (gap ++ '\x7b' :: cs)) answer rest := by
  obtain ⟨shorter, brace⟩ := first?_of_spaces spaces (c := '\x7b') (by decide) cs
  cases answer with
  | ok now =>
      obtain ⟨shorter', taken⟩ := gives
      refine ⟨Nat.lt_trans shorter' shorter, ?_⟩
      simp only [front, brace, taken]
      rfl
  | error e =>
      change object field read cs = .error e at gives
      change front type field read (gap ++ '\x7b' :: cs) = .error e
      simp only [front, brace, gives]
      rfl

theorem eq_none_of_sets {choice : Option Choice} (sets : Sets field [] choice) : choice = none := by
  generalize eq : ([] : List Member) = ms at sets
  cases sets with
  | none => rfl
  | some => simp at eq

theorem gives_front (type : String) (read : Value → Except Error α) {cs : List Char}
    {ms : List Member} (object : WritesObject cs ms) {choice : Option Choice}
    (sets : Sets field ms choice) :
    ∃ gap, IsSpaces gap ∧ Gives (front type field read cs) (found read choice) gap := by
  cases object with
  | @empty gap gap₁ gap₂ spaces spaces₁ spaces₂ =>
      obtain rfl := eq_none_of_sets sets
      exact ⟨gap₂, spaces₂, gives_front_of_object spaces (takes_object_empty spaces₁ gap₂)⟩
  | @some gap cs gap' ms spaces writes spaces' =>
      have gives := gives_members_of_sets read writes sets gap'
      exact ⟨gap', spaces', gives_front_of_object spaces (gives_object writes gives)⟩

end Record

variable {α : Type} {type field : String} {read : Value → Except Error α}

/-- A record is what the choice of its members is read as. -/
theorem record_of_writes (type : String) (read : Value → Except Error α) {text : String}
    {ms : List Member} (writes : WritesObject text.toList ms) {choice : Option Choice}
    (sets : Sets field ms choice) (absent : α) :
    record type field absent read text =
      (Record.found read choice).map fun seen => seen.getD absent := by
  obtain ⟨gap, spaces, gives⟩ := Record.gives_front type read writes sets
  cases known : Record.found read choice with
  | ok seen =>
      rw [known] at gives
      obtain ⟨shorter, taken⟩ := gives
      simp only [record, taken, whole, first?_of_only_spaces spaces]
  | error e =>
      rw [known] at gives
      change Record.front type field read text.toList = .error e at gives
      simp only [record, gives]
      rfl

theorem map_getD_found (read : Value → Except Error α) (choice : Choice) (absent : α) :
    ((Record.found read (some choice)).map fun seen => seen.getD absent) = read choice.value := by
  simp only [Record.found]
  cases read choice.value <;> rfl

/-! ## The laws -/

/-- A text that makes a choice is read as the value of the choice. -/
theorem run_of_chooses {text : List Char} {choice : Choice} (chooses : Chooses text choice)
    (read : Value → Except Error α) : run read (String.ofList text) = read choice.value := by
  have gives :=
    Record.gives_held read chooses (some maxOpen) rfl (List.forall_mem_nil _) []
  rw [List.nil_append, List.append_nil, ← String.toList_ofList (l := text)] at gives
  cases verdict : read choice.value with
  | ok a =>
      rw [verdict] at gives
      obtain ⟨shorter, taken⟩ := gives
      simp only [run, taken, whole]
      rfl
  | error e =>
      rw [verdict] at gives
      change Record.held read (some maxOpen) _ = .error e at gives
      simp only [run, gives]

theorem firstOf_of_ok (type : String) (readers : List (Value → Except Error α)) {v : Value} {a : α}
    (possible : read v = .ok a) : firstOf type (read :: readers) v = .ok a := by
  simp only [firstOf, possible]

theorem firstOf_of_error (type : String) (readers : List (Value → Except Error α)) {v : Value}
    {e : Error} (impossible : read v = .error e) :
    firstOf type (read :: readers) v = firstOf type readers v := by
  simp only [firstOf, impossible]

/-- The library that runs keeps the laws. -/
theorem library_lawful : library.Lawful where
  data?_custom _ _ := rfl
  bool chooses := run_of_chooses chooses readBool
  bool_word chooses := ⟨_, run_of_chooses chooses readBool⟩
  string chooses := run_of_chooses chooses readString
  andThen {_ _ _ choice} chooses read next := by
    have first := run_of_chooses chooses read
    have both := run_of_chooses chooses fun v => read v >>= next
    exact congrArg library.outcome (both.trans (congrArg (· >>= next) first.symm))
  firstOf_ok chooses type read readers a possible := by
    have value := (run_of_chooses chooses read).symm.trans possible
    have first := firstOf_of_ok type readers value
    exact (run_of_chooses chooses (firstOf type (read :: readers))).trans first
  firstOf_error chooses type read readers e impossible := by
    have value := (run_of_chooses chooses read).symm.trans impossible
    have others := firstOf_of_error type readers value
    have all := run_of_chooses chooses (firstOf type (read :: readers))
    exact (all.trans others).trans (run_of_chooses chooses (firstOf type readers)).symm
  record_empty type field absent read _ writes :=
    record_of_writes type read writes (.none (by simp)) absent
  record_field type field absent read text value choice chooses writes := by
    have sets : Sets field ([] ++ ⟨field.toList, value⟩ :: []) (some choice) :=
      .some chooses (by simp)
    have whole := record_of_writes type read writes sets absent
    have alone := (run_of_chooses chooses read).symm
    exact congrArg library.outcome
      (whole.trans ((map_getD_found read choice absent).trans alone))
  record_unknown type field absent read text text' _ _ _ choice _ sets writes sets' writes' :=
    congrArg library.outcome
      ((record_of_writes type read writes sets absent).trans
        (record_of_writes type read writes' sets' absent).symm)

end Json

end MembershipLowering
