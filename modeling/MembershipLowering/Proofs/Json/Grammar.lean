import MembershipLowering.Json.Value

/-! # The grammar of JSON

Which texts are JSON values, told without a reader. A value is skipped for its form alone, so
that its quoted texts may hold any escapes (`IsQuoted`). A text that is going to be used has
characters that it stands for, which surrogates only have in pairs (`Quotes`).
-/

namespace MembershipLowering.Json

/-- What may stand around values and signs. -/
def IsSpaces (cs : List Char) : Prop :=
  ∀ c ∈ cs, isSpace c = true

/-! ## Numerals -/

def IsDigits (cs : List Char) : Prop :=
  cs ≠ [] ∧ ∀ c ∈ cs, c.isDigit = true

/-- The digits in front of the point. A zero stands alone. -/
def IsWhole (cs : List Char) : Prop :=
  IsDigits cs ∧ (cs.head? = some '0' → cs = ['0'])

inductive IsFraction : List Char → Prop where
  | none : IsFraction []
  | some {ds : List Char} (digits : IsDigits ds) : IsFraction ('.' :: ds)

inductive IsExponent : List Char → Prop where
  | none : IsExponent []
  | some {e : Char} {sign ds : List Char} (isE : e = 'e' ∨ e = 'E')
      (signed : sign ∈ [[], ['+'], ['-']]) (digits : IsDigits ds) :
      IsExponent (e :: (sign ++ ds))

/-- A numeral from behind its sign on. -/
inductive IsUnsigned : List Char → Prop where
  | mk {whole fraction exponent : List Char} (isWhole : IsWhole whole)
      (isFraction : IsFraction fraction) (isExponent : IsExponent exponent) :
      IsUnsigned (whole ++ (fraction ++ exponent))

/-! ## Quoted texts -/

/-- A character that stands for itself between quotes. -/
structure IsPlain (c : Char) : Prop where
  noQuote : c ≠ '"'
  noBackslash : c ≠ '\\'
  noControl : ' ' ≤ c

instance (c : Char) : Decidable (IsPlain c) :=
  decidable_of_iff (c ≠ '"' ∧ c ≠ '\\' ∧ ' ' ≤ c)
    ⟨fun ⟨noQuote, noBackslash, noControl⟩ => ⟨noQuote, noBackslash, noControl⟩,
      fun h => ⟨h.noQuote, h.noBackslash, h.noControl⟩⟩

/-- Four hexadecimal digits and the number they stand for. -/
inductive IsHexUnit : List Char → Nat → Prop where
  | mk {a b c d : Char} {w x y z : Nat} (first : hexDigit? a = some w)
      (second : hexDigit? b = some x) (third : hexDigit? c = some y)
      (fourth : hexDigit? d = some z) :
      IsHexUnit [a, b, c, d] (((w * 16 + x) * 16 + y) * 16 + z)

/-- What may stand between quotes. -/
inductive IsQuoted : List Char → Prop where
  | nil : IsQuoted []
  | plain {c : Char} {body : List Char} (isPlain : IsPlain c) (later : IsQuoted body) :
      IsQuoted (c :: body)
  | letter {c d : Char} {body : List Char} (known : letterEscape? c = some d)
      (later : IsQuoted body) : IsQuoted ('\\' :: c :: body)
  | unit {digits body : List Char} {n : Nat} (isUnit : IsHexUnit digits n) (later : IsQuoted body) :
      IsQuoted ('\\' :: 'u' :: (digits ++ body))

/-- What stands between quotes, and the characters that it stands for. -/
inductive Quotes : (body chars : List Char) → Prop where
  | nil : Quotes [] []
  | plain {c : Char} {body chars : List Char} (isPlain : IsPlain c) (later : Quotes body chars) :
      Quotes (c :: body) (c :: chars)
  | letter {c d : Char} {body chars : List Char} (known : letterEscape? c = some d)
      (later : Quotes body chars) : Quotes ('\\' :: c :: body) (d :: chars)
  | unit {digits body chars : List Char} {n : Nat} (isUnit : IsHexUnit digits n)
      (noHigh : isHigh n = false) (noLow : isLow n = false) (later : Quotes body chars) :
      Quotes ('\\' :: 'u' :: (digits ++ body)) (Char.ofNat n :: chars)
  /-- The two halves of a surrogate pair. -/
  | pair {digits digits' body chars : List Char} {high low : Nat} (isUnit : IsHexUnit digits high)
      (high_isHigh : isHigh high = true) (isUnit' : IsHexUnit digits' low)
      (low_isLow : isLow low = true) (later : Quotes body chars) :
      Quotes ('\\' :: 'u' :: (digits ++ '\\' :: 'u' :: (digits' ++ body)))
        (Char.ofNat (0x10000 + (high - 0xd800) * 0x400 + (low - 0xdc00)) :: chars)

theorem Quotes.of_plain {cs : List Char} (plain : cs.all (fun c => decide (IsPlain c)) = true) :
    Quotes cs cs := by
  induction cs with
  | nil => exact .nil
  | cons c cs ih =>
      rw [List.all_cons, Bool.and_eq_true, decide_eq_true_eq] at plain
      exact .plain plain.1 (ih plain.2)

theorem Quotes.isQuoted {body chars : List Char} (h : Quotes body chars) : IsQuoted body := by
  induction h with
  | nil => exact .nil
  | plain isPlain _ ih => exact .plain isPlain ih
  | letter known _ ih => exact .letter known ih
  | unit isUnit _ _ _ ih => exact .unit isUnit ih
  | pair isUnit _ isUnit' _ _ ih => exact .unit isUnit (.unit isUnit' ih)

/-! ## Values -/

mutual

/-- A value, without spaces around it. -/
inductive IsValue : List Char → Prop where
  | null : IsValue ['n', 'u', 'l', 'l']
  | true : IsValue ['t', 'r', 'u', 'e']
  | false : IsValue ['f', 'a', 'l', 's', 'e']
  | positive {cs : List Char} (unsigned : IsUnsigned cs) : IsValue cs
  | negative {cs : List Char} (unsigned : IsUnsigned cs) : IsValue ('-' :: cs)
  | string {body : List Char} (quoted : IsQuoted body) : IsValue ('"' :: (body ++ ['"']))
  | emptyArray {gap : List Char} (spaces : IsSpaces gap) : IsValue ('[' :: (gap ++ [']']))
  | array {cs : List Char} (elements : IsElements cs) : IsValue ('[' :: (cs ++ [']']))
  | emptyObject {gap : List Char} (spaces : IsSpaces gap) : IsValue ('\x7b' :: (gap ++ ['\x7d']))
  | object {cs : List Char} (members : IsMembers cs) : IsValue ('\x7b' :: (cs ++ ['\x7d']))

/-- One value or more, with commas between them and spaces around each. -/
inductive IsElements : List Char → Prop where
  | last {gap cs gap' : List Char} (spaces : IsSpaces gap) (value : IsValue cs)
      (spaces' : IsSpaces gap') : IsElements (gap ++ (cs ++ gap'))
  | more {gap cs gap' ds : List Char} (spaces : IsSpaces gap) (value : IsValue cs)
      (spaces' : IsSpaces gap') (later : IsElements ds) :
      IsElements (gap ++ (cs ++ (gap' ++ ',' :: ds)))

/-- One member or more, with commas between them. -/
inductive IsMembers : List Char → Prop where
  | last {cs : List Char} (member : IsMember cs) : IsMembers cs
  | more {cs ds : List Char} (member : IsMember cs) (later : IsMembers ds) :
      IsMembers (cs ++ ',' :: ds)

/-- A key, a colon and a value, with spaces around each. -/
inductive IsMember : List Char → Prop where
  | mk {gap key gap₁ gap₂ cs gap₃ : List Char} (spaces : IsSpaces gap) (quoted : IsQuoted key)
      (spaces₁ : IsSpaces gap₁) (spaces₂ : IsSpaces gap₂) (value : IsValue cs)
      (spaces₃ : IsSpaces gap₃) :
      IsMember (gap ++ '"' :: (key ++ '"' :: (gap₁ ++ ':' :: (gap₂ ++ (cs ++ gap₃)))))

end

/-! ## Objects whose members are told apart -/

/-- A member: what its key stands for, and its value as it is written. -/
structure Member where
  key : List Char
  value : List Char
  deriving DecidableEq, Repr

/-- A text that is one member, of which the key is used. -/
inductive Writes : List Char → Member → Prop where
  | mk {gap body key gap₁ gap₂ cs gap₃ : List Char} (spaces : IsSpaces gap)
      (quotes : Quotes body key) (spaces₁ : IsSpaces gap₁) (spaces₂ : IsSpaces gap₂)
      (value : IsValue cs) (spaces₃ : IsSpaces gap₃) :
      Writes (gap ++ '"' :: (body ++ '"' :: (gap₁ ++ ':' :: (gap₂ ++ (cs ++ gap₃))))) ⟨key, cs⟩

/-- A text that is one member or more, with commas between them. -/
inductive WritesAll : List Char → List Member → Prop where
  | last {cs : List Char} {m : Member} (member : Writes cs m) : WritesAll cs [m]
  | more {cs ds : List Char} {m : Member} {ms : List Member} (member : Writes cs m)
      (later : WritesAll ds ms) : WritesAll (cs ++ ',' :: ds) (m :: ms)

/-- A text that is an object with these members. -/
inductive WritesObject : List Char → List Member → Prop where
  | empty {gap gap₁ gap₂ : List Char} (spaces : IsSpaces gap) (spaces₁ : IsSpaces gap₁)
      (spaces₂ : IsSpaces gap₂) : WritesObject (gap ++ '\x7b' :: (gap₁ ++ '\x7d' :: gap₂)) []
  | some {gap cs gap' : List Char} {ms : List Member} (spaces : IsSpaces gap)
      (members : WritesAll cs ms) (spaces' : IsSpaces gap') :
      WritesObject (gap ++ '\x7b' :: (cs ++ '\x7d' :: gap')) ms

theorem WritesAll.member {cs : List Char} {ms : List Member} (h : WritesAll cs ms) :
    ∀ m ∈ ms, ∃ ds, Writes ds m := by
  induction h with
  | last member =>
      intro m mem
      obtain rfl := List.mem_singleton.1 mem
      exact ⟨_, member⟩
  | more member _ ih =>
      intro m mem
      rcases List.mem_cons.1 mem with rfl | mem
      · exact ⟨_, member⟩
      · exact ih m mem

theorem WritesObject.member {cs : List Char} {ms : List Member} (h : WritesObject cs ms) :
    ∀ m ∈ ms, ∃ ds, Writes ds m := by
  cases h with
  | empty => exact List.forall_mem_nil _
  | some _ members _ => exact members.member

theorem exists_writesAll (m : Member) (ms : List Member)
    (members : ∀ n ∈ m :: ms, ∃ ds, Writes ds n) : ∃ cs, WritesAll cs (m :: ms) := by
  induction ms generalizing m with
  | nil =>
      obtain ⟨ds, first⟩ := members m List.mem_cons_self
      exact ⟨ds, .last first⟩
  | cons n ms ih =>
      obtain ⟨ds, first⟩ := members m List.mem_cons_self
      obtain ⟨cs, later⟩ := ih n fun n mem => members n (List.mem_cons_of_mem _ mem)
      exact ⟨_, .more first later⟩

/-- Members may be taken out of an object, and written as an object again. -/
theorem WritesObject.select {cs : List Char} {ms ns : List Member} (h : WritesObject cs ms)
    (sub : ns ⊆ ms) : ∃ text : String, WritesObject text.toList ns := by
  suffices ∃ ds, WritesObject ds ns by
    obtain ⟨ds, writes⟩ := this
    exact ⟨String.ofList ds, by rwa [String.toList_ofList]⟩
  have noSpaces : IsSpaces [] := List.forall_mem_nil _
  cases ns with
  | nil => exact ⟨_, .empty noSpaces noSpaces noSpaces⟩
  | cons n ns =>
      obtain ⟨cs, members⟩ := exists_writesAll n ns fun n mem => h.member n (sub mem)
      exact ⟨_, .some noSpaces members noSpaces⟩

end MembershipLowering.Json
