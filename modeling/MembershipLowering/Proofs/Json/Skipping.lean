import Mathlib.Data.Nat.Init
import MembershipLowering.Proofs.Json.Grammar
import MembershipLowering.Proofs.Token.Continuation

/-! # Reading what is well formed

Readers take exactly what the grammar derives, whatever comes behind it, as long as that cannot
go on with it (`Takes`). A value is skipped however deep it is nested (`takes_value`).
-/

namespace MembershipLowering

/-- The call takes a value off the front and leaves `rest`. -/
def Takes {τ ε α : Type} {source : List τ} (result : Except ε (Reading α source)) (value : α)
    (rest : List τ) : Prop :=
  ∃ shorter, result = .ok ⟨value, rest, shorter⟩

namespace Json

open Lexeme (takeWhile_append_of_stop)

variable {rest : List Char}

/-! ## Spaces -/

theorem first?_of_spaces {gap : List Char} (spaces : IsSpaces gap) {c : Char}
    (solid : isSpace c = false) (rest : List Char) :
    ∃ shorter, first? (gap ++ c :: rest) = some ⟨c, rest, shorter⟩ := by
  induction gap with
  | nil => exact ⟨by simp, by simp [first?, solid]⟩
  | cons d gap ih =>
      obtain ⟨shorter, found⟩ := ih fun e he => spaces e (List.mem_cons_of_mem _ he)
      refine ⟨Nat.lt_succ_of_lt shorter, ?_⟩
      simp only [List.cons_append, first?, spaces d List.mem_cons_self, if_true, found]
      rfl

theorem first?_of_only_spaces {gap : List Char} (spaces : IsSpaces gap) : first? gap = none := by
  induction gap with
  | nil => rfl
  | cons d gap ih =>
      rw [first?, if_pos (spaces d List.mem_cons_self),
        ih fun e he => spaces e (List.mem_cons_of_mem _ he)]
      rfl

/-! ## Quoted texts -/

theorem hexUnit_of_isHexUnit {digits : List Char} {n : Nat} (h : IsHexUnit digits n)
    (rest : List Char) : Takes (hexUnit (digits ++ rest)) n rest := by
  obtain ⟨first, second, third, fourth⟩ := h
  refine ⟨by simp only [List.length_append, List.length_cons, List.length_nil]; omega, ?_⟩
  simp only [List.cons_append, List.nil_append, hexUnit, first, second, third, fourth]

/-- Behind a backslash. -/
theorem escape_letter {c d : Char} (known : letterEscape? c = some d) (purpose : Purpose)
    (rest : List Char) : Takes (escape purpose (c :: rest)) [d] rest := by
  have noUnit : c ≠ 'u' := by
    rintro rfl
    cases known
  refine ⟨by simp, ?_⟩
  simp only [escape, if_neg noUnit, known]

theorem escape_unit {digits : List Char} {n : Nat} (isUnit : IsHexUnit digits n)
    (noHigh : isHigh n = false) (noLow : isLow n = false) (purpose : Purpose) (rest : List Char) :
    Takes (escape purpose ('u' :: (digits ++ rest))) [Char.ofNat n] rest := by
  obtain ⟨shorter, read⟩ := hexUnit_of_isHexUnit isUnit rest
  refine ⟨Nat.lt_succ_of_lt shorter, ?_⟩
  simp only [escape, if_true, numberedEscape, read, noHigh, noLow, Bool.not_false, Bool.and_self]
  rfl

/-- Where a text is skipped, every unit is. -/
theorem escape_skip {digits : List Char} {n : Nat} (isUnit : IsHexUnit digits n)
    (rest : List Char) : ∃ chars, Takes (escape .skip ('u' :: (digits ++ rest))) chars rest := by
  by_cases surrogate : isHigh n = false ∧ isLow n = false
  · exact ⟨_, escape_unit isUnit surrogate.1 surrogate.2 .skip rest⟩
  · obtain ⟨shorter, read⟩ := hexUnit_of_isHexUnit isUnit rest
    refine ⟨[], Nat.lt_succ_of_lt shorter, ?_⟩
    have some : ¬(!isHigh n && !isLow n) = true := by simpa using surrogate
    simp only [escape, if_true, numberedEscape, read, if_neg some]
    rfl

theorem escape_pair {digits digits' : List Char} {high low : Nat} (isUnit : IsHexUnit digits high)
    (high_isHigh : isHigh high = true) (isUnit' : IsHexUnit digits' low)
    (low_isLow : isLow low = true) (rest : List Char) :
    Takes (escape .use ('u' :: (digits ++ '\\' :: 'u' :: (digits' ++ rest))))
      [Char.ofNat (0x10000 + (high - 0xd800) * 0x400 + (low - 0xdc00))] rest := by
  obtain ⟨shorter, read⟩ := hexUnit_of_isHexUnit isUnit ('\\' :: 'u' :: (digits' ++ rest))
  obtain ⟨shorter', read'⟩ := hexUnit_of_isHexUnit isUnit' rest
  have noLow : isLow high = false := by
    simp only [isHigh, isLow, Bool.and_eq_true, decide_eq_true_eq, Bool.and_eq_false_iff,
      decide_eq_false_iff_not] at *
    omega
  refine ⟨?_, ?_⟩
  · simp only [List.length_append, List.length_cons] at *
    omega
  · simp only [escape, if_true, numberedEscape, read, high_isHigh, noLow, lowEscape, read',
      low_isLow]
    rfl

theorem quoted_close (purpose : Purpose) (rest : List Char) :
    Takes (quoted purpose ('"' :: rest)) [] rest :=
  ⟨by simp, by rw [quoted, if_pos rfl]⟩

theorem quoted_plain {purpose : Purpose} {c : Char} {cs chars : List Char} (isPlain : IsPlain c)
    (later : Takes (quoted purpose cs) chars rest) :
    Takes (quoted purpose (c :: cs)) (c :: chars) rest := by
  obtain ⟨shorter, read⟩ := later
  refine ⟨Nat.lt_succ_of_lt shorter, ?_⟩
  have noControl : ¬c < ' ' := Char.not_lt.2 isPlain.noControl
  rw [quoted, if_neg isPlain.noQuote, if_neg isPlain.noBackslash, if_neg noControl, read]
  rfl

theorem quoted_escape {purpose : Purpose} {cs cs' chars chars' : List Char}
    (first : Takes (escape purpose cs) chars cs') (later : Takes (quoted purpose cs') chars' rest) :
    Takes (quoted purpose ('\\' :: cs)) (chars ++ chars') rest := by
  obtain ⟨shorter, read⟩ := first
  obtain ⟨shorter', read'⟩ := later
  refine ⟨by simp only [List.length_cons]; omega, ?_⟩
  rw [quoted, if_neg (by decide), if_pos rfl]
  simp only [read, read']

theorem takes_quoted {body chars : List Char} (h : Quotes body chars) (rest : List Char) :
    Takes (quoted .use (body ++ '"' :: rest)) chars rest := by
  induction h with
  | nil => exact quoted_close _ _
  | plain isPlain _ ih => exact quoted_plain isPlain ih
  | letter known _ ih => exact quoted_escape (escape_letter known _ _) ih
  | @unit _ body _ _ isUnit noHigh noLow _ ih =>
      have first := escape_unit isUnit noHigh noLow .use (body ++ '"' :: rest)
      rw [List.cons_append, List.cons_append, List.append_assoc]
      exact quoted_escape first ih
  | @pair _ _ body _ _ _ isUnit high isUnit' low _ ih =>
      have first := escape_pair isUnit high isUnit' low (body ++ '"' :: rest)
      rw [List.cons_append, List.cons_append, List.append_assoc, List.cons_append, List.cons_append,
        List.append_assoc]
      exact quoted_escape first ih

theorem takes_quoted_skip {body : List Char} (h : IsQuoted body) (rest : List Char) :
    ∃ chars, Takes (quoted .skip (body ++ '"' :: rest)) chars rest := by
  induction h with
  | nil => exact ⟨_, quoted_close _ _⟩
  | plain isPlain _ ih => exact ih.imp' _ fun _ => quoted_plain isPlain
  | letter known _ ih => exact ih.imp' _ fun _ => quoted_escape (escape_letter known _ _)
  | @unit _ body _ isUnit _ ih =>
      obtain ⟨chars, later⟩ := ih
      obtain ⟨chars', first⟩ := escape_skip isUnit (body ++ '"' :: rest)
      rw [List.cons_append, List.cons_append, List.append_assoc]
      exact ⟨chars' ++ chars, quoted_escape first later⟩

/-! ## Numerals -/

/-- What may come behind a value. -/
def isDelimiter (c : Char) : Bool :=
  isSpace c || c == ',' || c == ']' || c == '\x7d'

theorem comma_delimits : isDelimiter ',' = true := by decide

theorem bracket_delimits : isDelimiter ']' = true := by decide

theorem brace_delimits : isDelimiter '\x7d' = true := by decide

/-- Nothing, or something that delimits a value. -/
def Ends (rest : List Char) : Prop :=
  ∀ c ∈ rest.head?, isDelimiter c = true

theorem ends_of_spaces {gap : List Char} (spaces : IsSpaces gap) {c : Char}
    (delimits : isDelimiter c = true) (rest : List Char) : Ends (gap ++ c :: rest) := by
  cases gap with
  | nil => simpa [Ends] using delimits
  | cons d gap =>
      have space := spaces d List.mem_cons_self
      simp [Ends, isDelimiter, space]

theorem isDelimiter_cases {c : Char} (h : isDelimiter c = true) :
    c ∈ [' ', '\n', '\t', '\r', ',', ']', '\x7d'] := by
  simpa [isDelimiter, isSpace, or_assoc] using h

/-- A numeral does not go on behind its end. -/
theorem Ends.head {p : Char → Bool} (h : Ends rest)
    (none : [' ', '\n', '\t', '\r', ',', ']', '\x7d'].all (! p ·) = true) :
    rest.head?.any p = false := by
  cases rest with
  | nil => rfl
  | cons c rest =>
      have no := List.all_eq_true.1 none c (isDelimiter_cases (h c rfl))
      simpa using no

/-- Nor does its exponent begin with what could belong to the digits in front. -/
theorem head_of_isExponent {p : Char → Bool} {cs : List Char} (h : IsExponent cs) (ends : Ends rest)
    (noE : p 'e' = false ∧ p 'E' = false)
    (none : [' ', '\n', '\t', '\r', ',', ']', '\x7d'].all (! p ·) = true) :
    (cs ++ rest).head?.any p = false := by
  cases h with
  | none => exact ends.head none
  | some isE signed digits =>
      rcases isE with rfl | rfl
      · exact noE.1
      · exact noE.2

theorem head_of_isFraction {p : Char → Bool} {cs : List Char} (h : IsFraction cs)
    (noPoint : p '.' = false) (stop : rest.head?.any p = false) :
    (cs ++ rest).head?.any p = false := by
  cases h with
  | none => exact stop
  | some digits => exact noPoint

theorem IsDigits.append_ne {ds cs : List Char} (h : IsDigits ds) {c : Char}
    (noDigit : c.isDigit = false) : ds ++ rest ≠ c :: cs := by
  obtain ⟨some, isDigit⟩ := h
  cases ds with
  | nil => exact absurd rfl some
  | cons d ds =>
      intro eq
      have digit := isDigit d List.mem_cons_self
      rw [(List.cons.inj eq).1, noDigit] at digit
      cases digit

theorem IsUnsigned.cons {cs : List Char} (h : IsUnsigned cs) :
    ∃ d ds, cs = d :: ds ∧ d.isDigit = true := by
  cases h with
  | @mk whole _ _ isWhole =>
      cases whole with
      | nil => exact absurd rfl isWhole.1.1
      | cons d ds => exact ⟨d, _, rfl, isWhole.1.2 d List.mem_cons_self⟩

namespace Numeral

theorem takes_digits {ds : List Char} (h : IsDigits ds) (stop : rest.head?.any Char.isDigit = false)
    (purpose : Purpose) :
    Takes (digits purpose (ds ++ rest)) (ds.map fun d => d.toNat - '0'.toNat) rest := by
  obtain ⟨some, isDigit⟩ := h
  cases ds with
  | nil => exact absurd rfl some
  | cons d ds =>
      obtain ⟨take, drop⟩ := takeWhile_append_of_stop ds rest
        (fun e he => isDigit e (List.mem_cons_of_mem _ he)) stop
      refine ⟨by simp only [List.length_append, List.length_cons]; omega, ?_⟩
      simp only [List.cons_append, digits, isDigit d List.mem_cons_self, if_true, take, drop]

theorem eq_zero_of_isDigit {d : Char} (isDigit : d.isDigit = true)
    (zero : d.toNat - '0'.toNat = 0) : d = '0' := by
  simp only [Char.isDigit, ge_iff_le, Bool.and_eq_true, decide_eq_true_eq] at isDigit
  have lower : '0'.toNat ≤ d.toNat := UInt32.le_iff_toNat_le.1 isDigit.1
  exact Char.toNat_inj.1 (Nat.le_antisymm (Nat.sub_eq_zero_iff_le.1 zero) lower)

theorem takes_wholePart {ds : List Char} (h : IsWhole ds)
    (stop : rest.head?.any Char.isDigit = false) (purpose : Purpose) :
    ∃ value, Takes (wholePart purpose (ds ++ rest)) value rest := by
  obtain ⟨isDigits, zero⟩ := h
  obtain ⟨shorter, read⟩ := takes_digits isDigits stop purpose
  refine ⟨ds.map fun d => d.toNat - '0'.toNat, shorter, ?_⟩
  simp only [wholePart, read]
  rw [if_neg]
  rintro ⟨first, long⟩
  cases ds with
  | nil => cases first
  | cons d ds =>
      have isZero := eq_zero_of_isDigit (isDigits.2 d List.mem_cons_self) (Option.some.inj first)
      have alone := zero (by rw [isZero]; rfl)
      rw [alone] at long
      exact absurd long (by decide)

theorem takes_fractionPart {source cs : List Char} (h : IsFraction cs)
    (noDigit : rest.head?.any Char.isDigit = false) (noPoint : rest.head?.any (· == '.') = false)
    (purpose : Purpose) (n : Reading Numeral source) (rest_eq : n.rest = cs ++ rest) :
    ∃ value, Takes (fractionPart purpose n) value rest := by
  obtain ⟨value, _, shorter⟩ := n
  subst rest_eq
  cases h with
  | none =>
      refine ⟨value, shorter, ?_⟩
      cases rest with
      | nil => rfl
      | cons c rest =>
          have noPoint : c ≠ '.' := by simpa using noPoint
          simp only [fractionPart]
          split
          · rename_i eq
            exact absurd (List.cons.inj eq).1 noPoint
          · rfl
  | @some ds digits =>
      obtain ⟨shorter', read⟩ := takes_digits digits noDigit purpose
      refine ⟨⟨value.negative, value.whole, ds.map fun d => d.toNat - '0'.toNat, value.exponent⟩,
        Nat.lt_trans shorter' (Nat.lt_of_succ_lt shorter), ?_⟩
      simp only [fractionPart, List.cons_append, read]
      rfl

theorem takes_exponentPart {source cs : List Char} (h : IsExponent cs) (ends : Ends rest)
    (purpose : Purpose) (n : Reading Numeral source) (rest_eq : n.rest = cs ++ rest) :
    ∃ value, Takes (exponentPart purpose n) value rest := by
  obtain ⟨value, _, shorter⟩ := n
  subst rest_eq
  have noDigit : rest.head?.any Char.isDigit = false := ends.head (by decide)
  cases h with
  | none =>
      refine ⟨value, shorter, ?_⟩
      cases rest with
      | nil => rfl
      | cons c rest =>
          have noE : ¬(c = 'e' ∨ c = 'E') := by
            simpa using ends.head (p := fun c => c == 'e' || c == 'E') (by decide)
          simp only [exponentPart, List.nil_append, if_neg noE]
  | @some e sign ds isE signed digits =>
      obtain ⟨shorter', read⟩ := takes_digits digits noDigit purpose
      have shorter'' : rest.length < source.length := by
        have bound := shorter
        simp only [List.length_append, List.length_cons] at bound
        omega
      let number (negative : Bool) : Numeral :=
        { value with exponent := some (negative, ds.map fun d => d.toNat - '0'.toNat) }
      simp only [List.mem_cons, List.not_mem_nil, or_false] at signed
      rcases signed with rfl | rfl | rfl
      · refine ⟨number false, shorter'', ?_⟩
        simp only [exponentPart, List.cons_append, List.nil_append, if_pos isE]
        split
        · rename_i sign _ _
          exact absurd sign (digits.append_ne (by decide))
        · rename_i sign _ _
          exact absurd sign (digits.append_ne (by decide))
        · rw [read]
          rfl
      · refine ⟨number false, shorter'', ?_⟩
        simp only [exponentPart, List.cons_append, List.nil_append, read, if_pos isE]
        rfl
      · refine ⟨number true, shorter'', ?_⟩
        simp only [exponentPart, List.cons_append, List.nil_append, read, if_pos isE]
        rfl

theorem takes_unsigned {cs : List Char} (h : IsUnsigned cs) (ends : Ends rest) (purpose : Purpose)
    (negative : Bool) : ∃ value, Takes (unsigned purpose negative (cs ++ rest)) value rest := by
  cases h with
  | @mk whole fraction exponent isWhole isFraction isExponent =>
      have noDigit : (exponent ++ rest).head?.any Char.isDigit = false :=
        head_of_isExponent isExponent ends (by decide) (by decide)
      have noPoint : (exponent ++ rest).head?.any (· == '.') = false :=
        head_of_isExponent isExponent ends (by decide) (by decide)
      obtain ⟨ds, shorter, read⟩ := takes_wholePart isWhole
        (head_of_isFraction isFraction (by decide) noDigit) purpose
      obtain ⟨n, shorter₁, read₁⟩ := takes_fractionPart isFraction noDigit noPoint purpose
        (Reading.map (fun ds => ⟨negative, ds, [], none⟩) ⟨ds, _, shorter⟩) rfl
      obtain ⟨m, shorter₂, read₂⟩ := takes_exponentPart isExponent ends purpose ⟨n, _, shorter₁⟩ rfl
      refine ⟨m, ?_⟩
      rw [List.append_assoc, List.append_assoc]
      exact ⟨shorter₂, by simp only [unsigned, read, read₁, read₂]⟩

end Numeral

/-! ## Values -/

/-- The values that are words. -/
def words : List (List Char × Value) :=
  [(['n', 'u', 'l', 'l'], .null), (['t', 'r', 'u', 'e'], .bool true),
    (['f', 'a', 'l', 's', 'e'], .bool false)]

section Value

variable {limit : Limit} {gap : List Char}

theorem takes_value_word {word : List Char} {v : Value} (h : (word, v) ∈ words)
    (spaces : IsSpaces gap) (rest : List Char) :
    Takes (value limit (gap ++ (word ++ rest))) v rest := by
  simp only [words, List.mem_cons, Prod.mk.injEq, List.not_mem_nil, or_false] at h
  rcases h with ⟨rfl, rfl⟩ | ⟨rfl, rfl⟩ | ⟨rfl, rfl⟩
  · obtain ⟨_, first⟩ := first?_of_spaces spaces (c := 'n') (by decide) ('u' :: 'l' :: 'l' :: rest)
    refine ⟨by simp; omega, ?_⟩
    rw [value]
    simp only [List.cons_append, List.nil_append, first]
    rfl
  · obtain ⟨_, first⟩ := first?_of_spaces spaces (c := 't') (by decide) ('r' :: 'u' :: 'e' :: rest)
    refine ⟨by simp; omega, ?_⟩
    rw [value]
    simp only [List.cons_append, List.nil_append, first]
    rfl
  · obtain ⟨_, first⟩ :=
      first?_of_spaces spaces (c := 'f') (by decide) ('a' :: 'l' :: 's' :: 'e' :: rest)
    refine ⟨by simp; omega, ?_⟩
    rw [value]
    simp only [List.cons_append, List.nil_append, first]
    rfl

theorem takes_value_string (spaces : IsSpaces gap) {cs chars : List Char}
    (quotes : Takes (quoted limit.purpose cs) chars rest) :
    Takes (value limit (gap ++ '"' :: cs)) (.string chars) rest := by
  obtain ⟨shorter, first⟩ := first?_of_spaces spaces (c := '"') (by decide) cs
  obtain ⟨shorter', read⟩ := quotes
  refine ⟨Nat.lt_trans shorter' shorter, ?_⟩
  rw [value]
  simp only [first, read]
  rfl

theorem takes_numeral_skip {cs : List Char} (unsigned : IsUnsigned cs) (ends : Ends rest)
    (negative : Bool) : ∃ v, Takes (numeral .skip negative (cs ++ rest)) v rest := by
  obtain ⟨n, shorter, read⟩ := Numeral.takes_unsigned unsigned ends .skip negative
  refine ⟨.number n, shorter, ?_⟩
  simp only [numeral, read]
  rfl

theorem takes_value_negative (spaces : IsSpaces gap) {cs : List Char} {v : Value}
    (numeral : Takes (numeral limit.purpose true cs) v rest) :
    Takes (value limit (gap ++ '-' :: cs)) v rest := by
  obtain ⟨shorter, first⟩ := first?_of_spaces spaces (c := '-') (by decide) cs
  obtain ⟨shorter', read⟩ := numeral
  refine ⟨Nat.lt_trans shorter' shorter, ?_⟩
  rw [value]
  simp only [first, read]
  rfl

theorem takes_value_positive (spaces : IsSpaces gap) {d : Char} (digit : d.isDigit = true)
    {cs : List Char} {v : Value} (numeral : Takes (numeral limit.purpose false (d :: cs)) v rest) :
    Takes (value limit (gap ++ d :: cs)) v rest := by
  have solid : isSpace d = false := by
    rw [Bool.eq_false_iff]
    intro space
    simp only [isSpace, Bool.or_eq_true, beq_iff_eq] at space
    rcases space with ((rfl | rfl) | rfl) | rfl <;> cases digit
  obtain ⟨shorter, first⟩ := first?_of_spaces spaces solid cs
  obtain ⟨shorter', read⟩ := numeral
  refine ⟨Nat.lt_of_lt_of_le shorter' shorter, ?_⟩
  rw [value]
  simp only [first]
  -- Digits are told apart last.
  split
  case h_8 =>
      simp only [if_pos digit, read]
      rfl
  all_goals cases digit

/-! ## Brackets -/

theorem takes_elements_last {cs gap : List Char} {v : Value}
    (first : Takes (value limit cs) v (gap ++ ']' :: rest)) (spaces : IsSpaces gap) :
    Takes (elements limit cs) () rest := by
  obtain ⟨shorter, read⟩ := first
  obtain ⟨shorter', close⟩ := first?_of_spaces spaces (c := ']') (by decide) rest
  refine ⟨Nat.lt_trans shorter' shorter, ?_⟩
  rw [elements]
  simp only [read, close]
  rfl

theorem takes_elements_more {cs ds gap : List Char} {v : Value}
    (first : Takes (value limit cs) v (gap ++ ',' :: ds)) (spaces : IsSpaces gap)
    (later : Takes (elements limit ds) () rest) : Takes (elements limit cs) () rest := by
  obtain ⟨shorter, read⟩ := first
  obtain ⟨shorter', comma⟩ := first?_of_spaces spaces (c := ',') (by decide) ds
  obtain ⟨shorter'', read'⟩ := later
  refine ⟨Nat.lt_trans shorter'' (Nat.lt_trans shorter' shorter), ?_⟩
  rw [elements]
  simp only [read, comma, read']
  rfl

theorem members_eq {ks chars vs after gap₁ : List Char} {v : Value} (spaces : IsSpaces gap)
    (key : Takes (quoted limit.purpose ks) chars (gap₁ ++ ':' :: vs)) (spaces₁ : IsSpaces gap₁)
    (part : Takes (value limit vs) v after) :
    ∃ shorter : after.length < (gap ++ '"' :: ks).length,
      members limit (gap ++ '"' :: ks) =
        match first? after with
        | none => .error .incomplete
        | some c =>
          match c.value with
          | '\x7d' => .ok ⟨(), c.rest, Nat.lt_trans c.shorter shorter⟩
          | ',' => (members limit c.rest).map fun r => r.since (Nat.lt_trans c.shorter shorter)
          | _ => .error .malformed := by
  obtain ⟨shorter, quote⟩ := first?_of_spaces spaces (c := '"') (by decide) ks
  obtain ⟨shorter₁, key⟩ := key
  obtain ⟨shorter₂, colon⟩ := first?_of_spaces spaces₁ (c := ':') (by decide) vs
  obtain ⟨shorter₃, read⟩ := part
  refine ⟨Nat.lt_trans shorter₃ (Nat.lt_trans shorter₂ (Nat.lt_trans shorter₁ shorter)), ?_⟩
  rw [members]
  simp only [quote, key, colon, read, ne_eq, not_true_eq_false, if_false]
  cases first? after with
  | none => rfl
  | some c => rfl

theorem takes_members_last {ks chars vs gap₁ gap₂ : List Char} {v : Value} (spaces : IsSpaces gap)
    (key : Takes (quoted limit.purpose ks) chars (gap₁ ++ ':' :: vs)) (spaces₁ : IsSpaces gap₁)
    (part : Takes (value limit vs) v (gap₂ ++ '\x7d' :: rest)) (spaces₂ : IsSpaces gap₂) :
    Takes (members limit (gap ++ '"' :: ks)) () rest := by
  obtain ⟨shorter, eq⟩ := members_eq spaces key spaces₁ part
  obtain ⟨shorter', close⟩ := first?_of_spaces spaces₂ (c := '\x7d') (by decide) rest
  refine ⟨Nat.lt_trans shorter' shorter, ?_⟩
  simp only [eq, close]

theorem takes_members_more {ks chars vs ds gap₁ gap₂ : List Char} {v : Value}
    (spaces : IsSpaces gap) (key : Takes (quoted limit.purpose ks) chars (gap₁ ++ ':' :: vs))
    (spaces₁ : IsSpaces gap₁) (part : Takes (value limit vs) v (gap₂ ++ ',' :: ds))
    (spaces₂ : IsSpaces gap₂) (later : Takes (members limit ds) () rest) :
    Takes (members limit (gap ++ '"' :: ks)) () rest := by
  obtain ⟨shorter, eq⟩ := members_eq spaces key spaces₁ part
  obtain ⟨shorter', comma⟩ := first?_of_spaces spaces₂ (c := ',') (by decide) ds
  obtain ⟨shorter'', read⟩ := later
  refine ⟨Nat.lt_trans shorter'' (Nat.lt_trans shorter' shorter), ?_⟩
  simp only [eq, comma, read]
  rfl

/-- Elements that are taken do not begin with the closing bracket. -/
theorem first?_of_takes_elements {cs : List Char} (h : Takes (elements limit cs) () rest) :
    ∃ c, first? cs = some c ∧ c.value ≠ ']' := by
  obtain ⟨_, read⟩ := h
  rw [elements, value] at read
  cases first : first? cs with
  | none =>
      rw [first] at read
      cases read
  | some c =>
      refine ⟨c, rfl, ?_⟩
      rintro close
      obtain ⟨_, later, shorter⟩ := c
      subst close
      rw [first] at read
      cases read

theorem first?_of_takes_members {cs : List Char} (h : Takes (members limit cs) () rest) :
    ∃ c, first? cs = some c ∧ c.value ≠ '\x7d' := by
  obtain ⟨_, read⟩ := h
  rw [members] at read
  cases first : first? cs with
  | none =>
      rw [first] at read
      cases read
  | some c =>
      refine ⟨c, rfl, ?_⟩
      rintro close
      obtain ⟨_, later, shorter⟩ := c
      subst close
      rw [first] at read
      cases read

end Value

section Brackets

variable {gap : List Char}

theorem takes_value_emptyArray (spaces : IsSpaces gap) {gap' : List Char} (spaces' : IsSpaces gap')
    (rest : List Char) : Takes (value none (gap ++ '[' :: (gap' ++ ']' :: rest))) .array rest := by
  obtain ⟨shorter, bracket⟩ := first?_of_spaces spaces (c := '[') (by decide) (gap' ++ ']' :: rest)
  obtain ⟨shorter', close⟩ := first?_of_spaces spaces' (c := ']') (by decide) rest
  refine ⟨Nat.lt_trans shorter' shorter, ?_⟩
  rw [value]
  simp only [bracket, Limit.enter?, close, if_true]
  rfl

theorem takes_value_array (spaces : IsSpaces gap) {cs : List Char}
    (h : Takes (elements none cs) () rest) : Takes (value none (gap ++ '[' :: cs)) .array rest := by
  obtain ⟨shorter, bracket⟩ := first?_of_spaces spaces (c := '[') (by decide) cs
  obtain ⟨c, first, noClose⟩ := first?_of_takes_elements h
  obtain ⟨shorter', read⟩ := h
  refine ⟨Nat.lt_trans shorter' shorter, ?_⟩
  rw [value]
  simp only [bracket, Limit.enter?, first, if_neg noClose, read]
  rfl

theorem takes_value_emptyObject (spaces : IsSpaces gap) {gap' : List Char}
    (spaces' : IsSpaces gap') (rest : List Char) :
    Takes (value none (gap ++ '\x7b' :: (gap' ++ '\x7d' :: rest))) .object rest := by
  obtain ⟨shorter, brace⟩ :=
    first?_of_spaces spaces (c := '\x7b') (by decide) (gap' ++ '\x7d' :: rest)
  obtain ⟨shorter', close⟩ := first?_of_spaces spaces' (c := '\x7d') (by decide) rest
  refine ⟨Nat.lt_trans shorter' shorter, ?_⟩
  rw [value]
  simp only [brace, Limit.enter?, close, if_true]
  rfl

theorem takes_value_object (spaces : IsSpaces gap) {cs : List Char}
    (h : Takes (members none cs) () rest) :
    Takes (value none (gap ++ '\x7b' :: cs)) .object rest := by
  obtain ⟨shorter, brace⟩ := first?_of_spaces spaces (c := '\x7b') (by decide) cs
  obtain ⟨c, first, noClose⟩ := first?_of_takes_members h
  obtain ⟨shorter', read⟩ := h
  refine ⟨Nat.lt_trans shorter' shorter, ?_⟩
  rw [value]
  simp only [brace, Limit.enter?, first, if_neg noClose, read]
  rfl

end Brackets

/-! ## Values that are skipped

One induction over a value, its elements and its members.
-/

/-- What comes behind a member comes behind the spaces at its end. -/
theorem member_append (gap key gap₁ gap₂ vs gap₃ cs : List Char) :
    gap ++ '"' :: (key ++ '"' :: (gap₁ ++ ':' :: (gap₂ ++ (vs ++ gap₃)))) ++ cs =
      gap ++ '"' :: (key ++ '"' :: (gap₁ ++ ':' :: (gap₂ ++ (vs ++ (gap₃ ++ cs))))) := by
  simp only [List.append_assoc, List.cons_append]

mutual

theorem takes_value {cs : List Char} (h : IsValue cs) {gap : List Char} (spaces : IsSpaces gap)
    {rest : List Char} (ends : Ends rest) : ∃ v, Takes (value none (gap ++ (cs ++ rest))) v rest :=
  match h with
  | .null => ⟨.null, takes_value_word (by simp [words]) spaces rest⟩
  | .true => ⟨.bool true, takes_value_word (by simp [words]) spaces rest⟩
  | .false => ⟨.bool false, takes_value_word (by simp [words]) spaces rest⟩
  | .positive unsigned => by
      obtain ⟨v, numeral⟩ := takes_numeral_skip unsigned ends false
      obtain ⟨d, ds, rfl, digit⟩ := unsigned.cons
      exact ⟨v, takes_value_positive spaces digit numeral⟩
  | .negative unsigned => by
      obtain ⟨v, numeral⟩ := takes_numeral_skip unsigned ends true
      exact ⟨v, takes_value_negative spaces numeral⟩
  | .string isQuoted => by
      obtain ⟨chars, quotes⟩ := takes_quoted_skip isQuoted rest
      refine ⟨.string chars, ?_⟩
      rw [List.cons_append, List.append_assoc]
      exact takes_value_string spaces quotes
  | .emptyArray spaces' => by
      refine ⟨.array, ?_⟩
      rw [List.cons_append, List.append_assoc]
      exact takes_value_emptyArray spaces spaces' rest
  | .array elements => by
      refine ⟨.array, ?_⟩
      rw [List.cons_append, List.append_assoc]
      exact takes_value_array spaces (takes_elements elements rest)
  | .emptyObject spaces' => by
      refine ⟨.object, ?_⟩
      rw [List.cons_append, List.append_assoc]
      exact takes_value_emptyObject spaces spaces' rest
  | .object members => by
      refine ⟨.object, ?_⟩
      rw [List.cons_append, List.append_assoc]
      exact takes_value_object spaces (takes_members members rest)

theorem takes_elements {cs : List Char} (h : IsElements cs) (rest : List Char) :
    Takes (elements none (cs ++ ']' :: rest)) () rest :=
  match h with
  | .last spaces isValue spaces' => by
      obtain ⟨v, first⟩ := takes_value isValue spaces (ends_of_spaces spaces' bracket_delimits rest)
      rw [List.append_assoc, List.append_assoc]
      exact takes_elements_last first spaces'
  | .more spaces isValue spaces' later => by
      obtain ⟨v, first⟩ := takes_value isValue spaces (ends_of_spaces spaces' comma_delimits _)
      rw [List.append_assoc, List.append_assoc, List.append_assoc, List.cons_append]
      exact takes_elements_more first spaces' (takes_elements later rest)

theorem takes_members {cs : List Char} (h : IsMembers cs) (rest : List Char) :
    Takes (members none (cs ++ '\x7d' :: rest)) () rest :=
  match h with
  | .last member => (takes_member member).1 rest
  | .more member later => by
      rw [List.append_assoc, List.cons_append]
      exact (takes_member member).2 _ _ (takes_members later rest)

theorem takes_member {cs : List Char} (h : IsMember cs) :
    (∀ rest, Takes (members none (cs ++ '\x7d' :: rest)) () rest) ∧
      ∀ ds rest, Takes (members none ds) () rest →
        Takes (members none (cs ++ ',' :: ds)) () rest :=
  match h with
  | @IsMember.mk gap key gap₁ gap₂ vs gap₃ spaces isQuoted spaces₁ spaces₂ isValue spaces₃ => by
      refine ⟨fun rest => ?_, fun ds rest later => ?_⟩
      · obtain ⟨v, part⟩ := takes_value isValue spaces₂ (ends_of_spaces spaces₃ brace_delimits rest)
        obtain ⟨chars, quotes⟩ := takes_quoted_skip isQuoted (gap₁ ++ ':' :: _)
        rw [member_append]
        exact takes_members_last spaces quotes spaces₁ part spaces₃
      · obtain ⟨v, part⟩ := takes_value isValue spaces₂ (ends_of_spaces spaces₃ comma_delimits ds)
        obtain ⟨chars, quotes⟩ := takes_quoted_skip isQuoted (gap₁ ++ ':' :: _)
        rw [member_append]
        exact takes_members_more spaces quotes spaces₁ part spaces₃ later

end

end Json

end MembershipLowering
