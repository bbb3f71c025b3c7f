import MembershipLowering.Proofs.Token.Joining
import MembershipLowering.Proofs.Token.Layout

/-! # Cutting a text in front of a token

A text that ends where a token began is read as the tokens in front of that token, and what
was cut off as the token and those behind it (`Scanned.cut`). So a newline may be put in front
of a token without a change to any other, except that a carriage return in front of it becomes
part of the same newline (`Scanned.insert_newline`).
-/

namespace MembershipLowering

namespace Lexeme

variable {kind : TokenKind} {cs chars rest tail : List Char}

theorem head?_append_left {p : Char → Bool} (h : (cs ++ tail).head?.any p = false) :
    cs.head?.any p = false := by
  cases cs with
  | nil => rfl
  | cons c cs => exact h

theorem not_continuesNumber_append_left (h : continuesNumber (cs ++ tail) = false) :
    continuesNumber cs = false := by
  match cs with
  | [] => rfl
  | [c] =>
    rw [continuesNumber, Bool.or_eq_false_iff] at h
    simpa [continuesNumber] using h.1
  | c :: d :: cs => exact h

/-- The text in front does not end with the word `in` as the beginning of a longer word. -/
def EndsWhole (cs tail : List Char) : Prop :=
  ∀ blanks, (∀ c ∈ blanks, isBlank c = true) → cs = blanks ++ ['i', 'n'] →
    tail.head?.any isWordPart = false

theorem stops_of_word (h : word cs = .token kind chars rest) :
    rest.head?.any isWordPart = false := by
  simp only [word] at h
  split at h <;> cases h <;> exact head?_dropWhile ..

/-- The word `not` stands alone in front of a shorter text if it did in front of the longer
    one. -/
theorem word_not_cut
    (h : word (['n', 'o', 't'] ++ (rest ++ tail)) = .token kind ['n', 'o', 't'] (rest ++ tail))
    (whole : EndsWhole rest tail) :
    word (['n', 'o', 't'] ++ rest) = .token kind ['n', 'o', 't'] rest := by
  have all : ∀ c ∈ ['n', 'o', 't'], isWordPart c = true := List.all_eq_true.1 rfl
  have stop := stops_of_word h
  obtain ⟨take, drop⟩ := takeWhile_append_of_stop _ _ all stop
  obtain ⟨take', drop'⟩ := takeWhile_append_of_stop _ _ all (head?_append_left stop)
  simp only [word, take, drop] at h
  simp only [word, take', drop']
  split at h
  · rename_i notIn
    have length := congrArg List.length (Lexeme.token.inj h).2.1
    simp at length
  · rename_i alone
    cases h
    rw [if_neg]
    rintro ⟨-, some, isIn⟩
    apply alone
    have blank : ∀ c ∈ rest.takeWhile isBlank, isBlank c = true := fun _ => List.mem_takeWhile_imp
    have partIn : ∀ c ∈ ['i', 'n'], isWordPart c = true := List.all_eq_true.1 rfl
    have split := (List.takeWhile_append_dropWhile (p := isBlank) (l := rest)).symm
    have splitIn :=
      (List.takeWhile_append_dropWhile (p := isWordPart) (l := rest.dropWhile isBlank)).symm
    rw [isIn] at splitIn
    rw [splitIn] at split
    have stopIn := head?_dropWhile isWordPart (rest.dropWhile isBlank)
    generalize rest.takeWhile isBlank = blanks at *
    generalize (rest.dropWhile isBlank).dropWhile isWordPart = behind at *
    subst split
    have blanks' : (blanks ++ (['i', 'n'] ++ behind) ++ tail).takeWhile isBlank = blanks ∧
        (blanks ++ (['i', 'n'] ++ behind) ++ tail).dropWhile isBlank =
          ['i', 'n'] ++ (behind ++ tail) := by
      rw [List.append_assoc, List.append_assoc]
      exact takeWhile_append_of_stop _ _ blank rfl
    have stopWhole : (behind ++ tail).head?.any isWordPart = false := by
      cases behind with
      | nil => exact whole blanks blank (by simp)
      | cons c behind => exact stopIn
    rw [blanks'.1, blanks'.2]
    exact ⟨trivial, some, (takeWhile_append_of_stop _ _ partIn stopWhole).1⟩

/-- A token is read in front of a shorter text as in front of the longer one. -/
theorem ofChars_cut (h : ofChars (chars ++ (rest ++ tail)) = .token kind chars (rest ++ tail))
    (whole : EndsWhole rest tail) : ofChars (chars ++ rest) = .token kind chars rest := by
  have shape := shape_of_ofChars h
  cases shape with
  | @word c cs start part =>
      by_cases isNot : c :: cs = ['n', 'o', 't']
      · rw [isNot] at h ⊢
        exact word_not_cut h whole
      · rw [List.cons_append, ofChars, if_pos start, ← List.cons_append] at h
        exact ofChars_word start part isNot (head?_append_left (stops_of_word h))
  | notIn some blank => exact ofChars_notIn some blank (head?_append_left (stops_of_word h))
  | @number c cs digit =>
      rw [List.cons_append, ofChars_of_isDigit digit, ← List.cons_append] at h ⊢
      rcases digits_of_number h with ⟨all, stop⟩ | ⟨digits, d, fraction, same, all, later, stop⟩
      · exact number_of_digits all (not_continuesNumber_append_left stop)
      · rw [same]
        exact number_of_fraction all later (head?_append_left stop)
  | @string c cs quote =>
      obtain ⟨kind', read⟩ := stops_string quote ⟨_, h⟩ rest
      rwa [(shape_of_ofChars h).unique (shape_of_ofChars read)]
  | pair known => exact ofChars_pair known rest
  | @sign c _ known =>
      refine ofChars_sign known ?_
      cases rest with
      | nil => rfl
      | cons d rest =>
          cases pair : pairKind c d with
          | none => exact pair
          | some kind' =>
              have read := (ofChars_pair pair (rest ++ tail)).symm.trans h
              simp at read

theorem trivia_of_blanks {blanks : List Char} (blank : ∀ c ∈ blanks, isBlank c = true)
    (cs : List Char) : trivia (blanks ++ ['i', 'n'] ++ cs) = (blanks, ['i', 'n'] ++ cs) := by
  rw [List.append_assoc]
  induction blanks with
  | nil => rfl
  | cons c blanks ih =>
      have here := blank c List.mem_cons_self
      have later := ih fun d hd => blank d (List.mem_cons_of_mem _ hd)
      simp only [isBlank, Bool.or_eq_true, beq_iff_eq] at here
      rcases here with rfl | rfl <;> rw [List.cons_append, trivia, later]

end Lexeme

namespace Token

open Lexeme

variable {kind : TokenKind} {gap chars front back : List Char}

theorem endsWhole_of_leads (leads : Leads gap back) : EndsWhole gap back := by
  rintro blanks blank rfl
  rw [Leads, trivia_of_blanks blank] at leads
  have length := congrArg List.length (Prod.mk.inj leads).1
  simp at length

theorem endsWhole_of_ofChars (leads : Leads gap (chars ++ (front ++ back)))
    (read : ofChars (chars ++ (front ++ back)) = .token kind chars (front ++ back)) :
    EndsWhole (gap ++ (chars ++ front)) back := by
  intro blanks blank same
  have split : gap ++ (chars ++ (front ++ back)) = blanks ++ ['i', 'n'] ++ back := by
    rw [← same]
    simp
  rw [Leads, split, trivia_of_blanks blank] at leads
  obtain ⟨rfl, behind⟩ := Prod.mk.inj leads
  have short := List.append_cancel_left same
  rw [← behind] at read
  have isWord : ofChars (['i', 'n'] ++ back) = word (['i', 'n'] ++ back) := rfl
  have stop := stops_of_word (isWord.symm.trans read)
  rcases chars with _ | ⟨c, _ | ⟨d, _ | ⟨_, _⟩⟩⟩
  · exact absurd rfl (ne_nil_of_ofChars read)
  · -- The word would stop in its middle.
    obtain rfl : front = ['n'] := (List.cons.inj short).2
    cases stop
  · obtain rfl : front = [] := (List.cons.inj (List.cons.inj short).2).2
    exact stop
  · cases (List.cons.inj (List.cons.inj short).2).2

/-- A text that is cut in front of a token. -/
theorem Scanned.cut {position : Nat} {cs : List Char} {ts us : List Token} {t : Token}
    (h : Scanned position cs (ts ++ t :: us)) :
    ∃ front back, cs = front ++ back ∧ position + Text.byteLength front = t.span.start ∧
      Scanned position front ts ∧ Scanned t.span.start back (t :: us) ∧
      EndsWhole front back := by
  induction ts generalizing position cs with
  | nil =>
      cases h with
      | @token _ start stop _ chars rest kind _ read starts stops later =>
          obtain ⟨gap, text, leads, rfl⟩ : ∃ gap text, Leads gap text ∧ gap ++ text = cs :=
            ⟨_, _, leads_trivia cs, trivia_append cs⟩
          simp only [leads.trivia_eq] at read starts
          have plain : Leads [] text := by
            rw [← ofChars_append read]
            exact leads_nil_of_shape (shape_of_ofChars read) (ne_nil_of_ofChars read) _
          have alone : Leads gap [] := leads.replace rfl fun _ => rfl
          have here : Scanned start ([] ++ text) (⟨kind, start, stop⟩ :: us) :=
            .of_leads plain read rfl stops later
          refine ⟨gap, text, rfl, starts.symm, .nothing ?_, here, endsWhole_of_leads leads⟩
          rw [← List.append_nil gap, alone.trivia_eq]
          rfl
  | cons v ts ih =>
      cases h with
      | @token _ start stop _ chars rest kind _ read starts stops later =>
          obtain ⟨front, back, rfl, length, scanned, scanned', whole⟩ := ih later
          obtain ⟨gap, text, leads, rfl⟩ : ∃ gap text, Leads gap text ∧ gap ++ text = cs :=
            ⟨_, _, leads_trivia cs, trivia_append cs⟩
          simp only [leads.trivia_eq] at read starts
          obtain rfl := ofChars_append read
          have nonempty := ne_nil_of_ofChars read
          have leads' : Leads gap (chars ++ front) := by
            refine leads.replace (leads_nil_of_shape (shape_of_ofChars read) nonempty _) ?_
            obtain ⟨c, chars, rfl⟩ := List.exists_cons_of_ne_nil nonempty
            exact id
          refine ⟨gap ++ (chars ++ front), back, by simp, ?_,
            .of_leads leads' (ofChars_cut read whole) starts stops scanned, scanned',
            endsWhole_of_ofChars leads read⟩
          simp only [Text.byteLength_append]
          omega

/-- A newline in front of a token. A carriage return that the token stood behind becomes part
    of it. -/
theorem Scanned.insert_newline {position : Nat} {cs : List Char} {ts us : List Token} {t : Token}
    (h : Scanned position cs (ts ++ t :: us)) :
    ∃ front back, cs = front ++ back ∧ position + Text.byteLength front = t.span.start ∧
      (Scanned position (front ++ '\n' :: back)
          (ts ++ ⟨.newline, t.span.start, t.span.start + 1⟩ :: (t :: us).map (·.shift 1)) ∨
        ∃ before start, ts = before ++ [⟨.newline, start, t.span.start⟩] ∧
          Scanned position (front ++ '\n' :: back)
            (before ++ ⟨.newline, start, t.span.start + 1⟩ :: (t :: us).map (·.shift 1))) := by
  obtain ⟨front, back, split, length, scanned, scanned', -⟩ := h.cut
  exact ⟨front, back, split, length, scanned.join length (scanned'.shift 1)⟩

end Token

end MembershipLowering
