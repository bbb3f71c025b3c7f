import MembershipLowering.Proofs.Token.Spelling

/-! # What can continue a token

Whether a token stops in front of other text than that of the source depends on the next
character only, or on the next two behind a number (`stops_of_not_continues`). The word
`not` is left out: it might become part of a relation further behind.
-/

namespace MembershipLowering.Lexeme

/-- Whether a number would go on with the text: with a digit, or a point and a digit. -/
def continuesNumber (rest : List Char) : Bool :=
  rest.head?.any Char.isDigit || rest.head? = some '.' && rest.tail.head?.any Char.isDigit

/-- Whether the characters of a token may go on with the text behind them. -/
def continues (chars rest : List Char) : Bool :=
  match chars with
  | [] => true
  | c :: cs =>
    if isWordStart c then rest.head?.any isWordPart
    else if c.isDigit then continuesNumber rest
    else cs.isEmpty && (rest.head?.bind (pairKind c)).isSome

section Stops

variable {p : Char → Bool} {chars rest : List Char}

theorem head?_dropWhile (p : Char → Bool) (cs : List Char) :
    (cs.dropWhile p).head?.any p = false := by
  have stop := List.head?_dropWhile_not p cs
  cases first : (cs.dropWhile p).head? with
  | none => rfl
  | some c => simpa [first] using stop

/-- What is taken off the front, with something behind it that is not taken. -/
theorem takeWhile_append_of_stop (chars rest : List Char) (all : ∀ c ∈ chars, p c = true)
    (stop : rest.head?.any p = false) :
    (chars ++ rest).takeWhile p = chars ∧ (chars ++ rest).dropWhile p = rest := by
  rw [List.takeWhile_append_of_pos all, List.dropWhile_append_of_pos all]
  cases rest with
  | nil => exact ⟨List.append_nil _, rfl⟩
  | cons c rest =>
      have none : p c = false := stop
      rw [List.takeWhile_cons_of_neg (by simp [none]), List.dropWhile_cons_of_neg (by simp [none])]
      exact ⟨List.append_nil _, rfl⟩

theorem ofChars_word {c : Char} {cs : List Char} (start : isWordStart c = true)
    (part : ∀ d ∈ c :: cs, isWordPart d = true) (notNot : c :: cs ≠ ['n', 'o', 't'])
    (stop : rest.head?.any isWordPart = false) :
    ofChars (c :: cs ++ rest) = .token (wordKind (String.ofList (c :: cs))) (c :: cs) rest := by
  obtain ⟨take, drop⟩ := takeWhile_append_of_stop _ _ part stop
  rw [List.cons_append, ofChars, if_pos start, ← List.cons_append, word, take, drop,
    if_neg (fun all => notNot all.1)]

theorem stops_word {c : Char} {cs : List Char} (start : isWordStart c = true)
    (part : ∀ d ∈ c :: cs, isWordPart d = true) (notNot : c :: cs ≠ ['n', 'o', 't'])
    (stop : rest.head?.any isWordPart = false) : Stops (c :: cs) rest :=
  ⟨_, ofChars_word start part notNot stop⟩

theorem ofChars_notIn {blanks : List Char} (some : blanks ≠ [])
    (blank : ∀ c ∈ blanks, isBlank c = true) (stop : rest.head?.any isWordPart = false) :
    ofChars (['n', 'o', 't'] ++ blanks ++ ['i', 'n'] ++ rest) =
      .token .relation (['n', 'o', 't'] ++ blanks ++ ['i', 'n']) rest := by
  have noPart : (blanks ++ (['i', 'n'] ++ rest)).head?.any isWordPart = false := by
    cases blanks with
    | nil => exact absurd rfl some
    | cons b blanks =>
        have isBlank := blank b (List.mem_cons_self ..)
        simp only [Lexeme.isBlank, Bool.or_eq_true, beq_iff_eq] at isBlank
        rcases isBlank with rfl | rfl <;> rfl
  have allNot : ['n', 'o', 't'].all isWordPart = true := by decide
  have allIn : ['i', 'n'].all isWordPart = true := by decide
  obtain ⟨take, drop⟩ :=
    takeWhile_append_of_stop ['n', 'o', 't'] _ (List.all_eq_true.1 allNot) noPart
  obtain ⟨takeBlanks, dropBlanks⟩ := takeWhile_append_of_stop blanks (['i', 'n'] ++ rest) blank rfl
  obtain ⟨takeIn, dropIn⟩ :=
    takeWhile_append_of_stop ['i', 'n'] rest (List.all_eq_true.1 allIn) stop
  show word (['n', 'o', 't'] ++ blanks ++ ['i', 'n'] ++ rest) = _
  have assoc : ['n', 'o', 't'] ++ blanks ++ ['i', 'n'] ++ rest =
      ['n', 'o', 't'] ++ (blanks ++ (['i', 'n'] ++ rest)) := by
    simp only [List.append_assoc]
  rw [assoc, word]
  simp only [take, drop, takeBlanks, dropBlanks, takeIn, dropIn]
  rw [if_pos ⟨trivial, some, trivial⟩]

theorem stops_notIn {blanks : List Char} (some : blanks ≠ [])
    (blank : ∀ c ∈ blanks, isBlank c = true) (stop : rest.head?.any isWordPart = false) :
    Stops (['n', 'o', 't'] ++ blanks ++ ['i', 'n']) rest :=
  ⟨_, ofChars_notIn some blank stop⟩

theorem quotedTail_cons {quote c : Char} (notNewline : c ≠ '\n') (notEscape : c ≠ '\\')
    (cs : List Char) : quotedTail quote (c :: cs) =
      if c = quote then .token .string [c] cs else (quotedTail quote cs).extend [c] := by
  rw [quotedTail]
  · exact fun same => notNewline same
  · exact fun same _ => notEscape same
  · exact fun _ _ same _ => notEscape same

/-- A quoted literal ends with its quote, whatever follows. -/
theorem quotedTail_of_append {quote : Char} {cs tail rest : List Char} {kind : TokenKind}
    (h : quotedTail quote cs = .token kind tail rest) (rest' : List Char) :
    quotedTail quote (tail ++ rest') = .token kind tail rest' := by
  fun_induction quotedTail quote cs generalizing tail with
  | case1 => cases h
  | case2 => cases h
  | case3 => cases h
  | case4 c cs ih =>
      obtain ⟨later, read, rfl⟩ := extend_eq_token_iff.1 h
      show (quotedTail quote (later ++ rest')).extend _ = _
      rw [ih read]
      rfl
  | case5 cs notNewline notLast notEscape =>
      cases h
      rw [List.singleton_append, quotedTail_cons (fun same => notNewline same), if_pos rfl]
      cases rest with
      | nil => exact fun same => notLast same rfl
      | cons d cs => exact fun same => notEscape d cs same rfl
  | case6 c cs notNewline notLast notEscape other ih =>
      obtain ⟨later, read, rfl⟩ := extend_eq_token_iff.1 h
      rw [List.singleton_append, List.cons_append, quotedTail_cons (fun same => notNewline same),
        if_neg other, ih read]
      · rfl
      · cases cs with
        | nil => exact fun same => notLast same rfl
        | cons d cs => exact fun same => notEscape d cs same rfl

theorem stops_string {c : Char} {cs : List Char} (quote : c = '"' ∨ c = '\'')
    (h : Stops (c :: cs) rest) (rest' : List Char) : Stops (c :: cs) rest' := by
  have plain : ∀ ds, ofChars (c :: ds) = (quotedTail c ds).extend [c] := by
    intro ds
    rcases quote with rfl | rfl <;> rfl
  obtain ⟨kind, read⟩ := h
  rw [List.cons_append, plain] at read
  obtain ⟨tail, read, same⟩ := extend_eq_token_iff.1 read
  obtain rfl : cs = tail := (List.cons.inj same).2
  refine ⟨kind, ?_⟩
  rw [List.cons_append, plain, quotedTail_of_append read rest']
  rfl

/-- Digits and what does not go on with them. -/
theorem number_of_digits (all : ∀ c ∈ chars, c.isDigit = true)
    (stop : continuesNumber rest = false) : number (chars ++ rest) = .token .number chars rest := by
  rw [continuesNumber, Bool.or_eq_false_iff] at stop
  obtain ⟨take, drop⟩ := takeWhile_append_of_stop _ _ all stop.1
  simp only [number, take, drop]
  split
  · rw [if_neg (by simpa using stop.2)]
  · rfl

theorem number_of_fraction {digits : List Char} {d : Char}
    (all : ∀ c ∈ digits, c.isDigit = true) (fraction : ∀ c ∈ d :: chars, c.isDigit = true)
    (stop : rest.head?.any Char.isDigit = false) :
    number (digits ++ '.' :: d :: chars ++ rest) =
      .token .number (digits ++ '.' :: d :: chars) rest := by
  obtain ⟨take, drop⟩ := takeWhile_append_of_stop digits ('.' :: d :: chars ++ rest) all rfl
  obtain ⟨takeFraction, dropFraction⟩ := takeWhile_append_of_stop _ _ fraction stop
  rw [List.append_assoc, number]
  simp only [take, drop]
  simp only [List.cons_append] at takeFraction dropFraction ⊢
  rw [if_pos (fraction d (List.mem_cons_self ..)), takeFraction, dropFraction]

theorem not_isDigit_of_not_continuesNumber (h : continuesNumber rest = false) :
    rest.head?.any Char.isDigit = false :=
  (Bool.or_eq_false_iff.1 h).1

/-- A number is digits, perhaps with a fraction, and it ends where none of it goes on. -/
theorem digits_of_number {cs : List Char} {kind : TokenKind}
    (h : number cs = .token kind chars rest) :
    ((∀ c ∈ chars, c.isDigit = true) ∧ continuesNumber rest = false) ∨
      ∃ digits d fraction, chars = digits ++ '.' :: d :: fraction ∧
        (∀ c ∈ digits, c.isDigit = true) ∧ (∀ c ∈ d :: fraction, c.isDigit = true) ∧
          rest.head?.any Char.isDigit = false := by
  have digits : ∀ c ∈ cs.takeWhile Char.isDigit, c.isDigit = true :=
    fun _ => List.mem_takeWhile_imp
  have stop := head?_dropWhile Char.isDigit cs
  simp only [number] at h
  split at h
  · rename_i d after hafter
    split at h
    · rename_i isDigit
      cases h
      refine .inr ⟨_, d, after.takeWhile Char.isDigit, ?_, digits, ?_, head?_dropWhile _ _⟩
      · rw [List.takeWhile_cons_of_pos isDigit]
      · rw [← List.takeWhile_cons_of_pos isDigit]
        exact fun _ => List.mem_takeWhile_imp
    · rename_i noDigit
      cases h
      refine .inl ⟨digits, ?_⟩
      simp [continuesNumber, noDigit]
  · rename_i noFraction
    cases h
    refine .inl ⟨digits, ?_⟩
    rw [continuesNumber, stop, Bool.false_or, Bool.eq_false_iff]
    intro point
    cases behind : cs.dropWhile Char.isDigit with
    | nil => simp [behind] at point
    | cons c later =>
        cases later with
        | nil => simp [behind] at point
        | cons d later =>
            have same : c = '.' := by simpa [behind] using (Bool.and_eq_true_iff.1 point).1
            exact noFraction d later (same ▸ behind)

theorem ofChars_of_isDigit {c : Char} (digit : c.isDigit = true) (cs : List Char) :
    ofChars (c :: cs) = number (c :: cs) := by
  have noWord := Shape.not_isWordStart_of_isDigit digit
  rw [ofChars, if_neg (by simp [noWord]), if_pos digit]

theorem stops_number {c : Char} {cs : List Char} (digit : c.isDigit = true)
    (h : Stops (c :: cs) rest) {rest' : List Char} (stop : continuesNumber rest' = false) :
    Stops (c :: cs) rest' := by
  obtain ⟨kind, read⟩ := h
  refine ⟨.number, ?_⟩
  rw [List.cons_append, ofChars_of_isDigit digit, ← List.cons_append] at read ⊢
  cases digits_of_number read with
  | inl all => exact number_of_digits all.1 stop
  | inr split =>
      obtain ⟨digits, d, fraction, same, all, later, -⟩ := split
      rw [same]
      exact number_of_fraction all later (not_isDigit_of_not_continuesNumber stop)

theorem ofChars_of_sign {c : Char} (noWord : isWordStart c = false) (noDigit : c.isDigit = false)
    (noQuote : ¬(c = '"' ∨ c = '\'')) (cs : List Char) : ofChars (c :: cs) = sign c cs := by
  rw [ofChars, if_neg (by simp [noWord]), if_neg (by simp [noDigit]), if_neg noQuote]

theorem ofChars_pair {c d : Char} {kind : TokenKind} (known : pairKind c d = some kind)
    (rest : List Char) : ofChars (c :: d :: rest) = .token kind [c, d] rest := by
  obtain ⟨noWord, noDigit, noQuote⟩ := Shape.plain_of_pairKind known
  rw [ofChars_of_sign noWord noDigit noQuote, sign]
  simp only [List.head?_cons, Option.bind_some, known]
  rfl

theorem stops_pair {c d : Char} {kind : TokenKind} (known : pairKind c d = some kind)
    (rest : List Char) : Stops [c, d] rest :=
  ⟨kind, ofChars_pair known rest⟩

theorem ofChars_sign {c : Char} {kind : TokenKind} (known : signKind c = some kind)
    (stop : rest.head?.bind (pairKind c) = none) : ofChars (c :: rest) = .token kind [c] rest := by
  obtain ⟨noWord, noDigit, noQuote⟩ := Shape.plain_of_signKind known
  rw [ofChars_of_sign noWord noDigit noQuote, sign, stop]
  simp only [known]

theorem stops_sign {c : Char} {kind : TokenKind} (known : signKind c = some kind)
    (stop : rest.head?.bind (pairKind c) = none) : Stops [c] rest :=
  ⟨kind, ofChars_sign known stop⟩

/-- A token that stops somewhere stops in front of any text that does not continue it. -/
theorem stops_of_not_continues {rest' : List Char} (h : Stops chars rest)
    (notNot : chars ≠ ['n', 'o', 't']) (stop : continues chars rest' = false) :
    Stops chars rest' := by
  obtain ⟨kind, shape⟩ := h.shape
  cases shape with
  | word start part =>
      rw [continues, if_pos start] at stop
      exact stops_word start part notNot stop
  | notIn some blank => exact stops_notIn some blank stop
  | @number c cs digit =>
      have noWord := Shape.not_isWordStart_of_isDigit digit
      rw [continues, if_neg (by simp [noWord]), if_pos digit] at stop
      exact stops_number digit h stop
  | string quote => exact stops_string quote h rest'
  | pair known => exact stops_pair known rest'
  | @sign c _ known =>
      obtain ⟨noWord, noDigit, -⟩ := Shape.plain_of_signKind known
      rw [continues, if_neg (by simp [noWord]), if_neg (by simp [noDigit])] at stop
      exact stops_sign known (by simpa using stop)

end Stops

end MembershipLowering.Lexeme
