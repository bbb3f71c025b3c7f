import MembershipLowering.Proofs.Token.Shape

/-! # Texts of tokens

A text that can be read has the texts of its tokens, whatever their places
(`Spelt`). Put together from pieces, each one a gap and the text of a token behind it,
a text is read back into its pieces exactly if every piece stops where the next one
begins (`spelt_weave_iff`).
-/

namespace MembershipLowering

namespace Lexeme

/-- In front of `rest` the characters are read as one token, which takes nothing more. -/
def Stops (chars rest : List Char) : Prop :=
  ∃ kind, ofChars (chars ++ rest) = .token kind chars rest

/-- The gap is all that is skipped in front of the characters. -/
def Leads (gap cs : List Char) : Prop :=
  trivia (gap ++ cs) = (gap, cs)

/-- What begins a blank, a line continuation or a comment. -/
def isSkipped (c : Char) : Bool :=
  c == ' ' || c == '\t' || c == '\\' || c == '#'

/-- No token begins with what is skipped. -/
theorem Shape.not_isSkipped {kind : TokenKind} {c : Char} {cs : List Char}
    (h : Shape kind (c :: cs)) : isSkipped c = false := by
  have cases_of_skipped : isSkipped c = true → c = ' ' ∨ c = '\t' ∨ c = '\\' ∨ c = '#' := by
    simp [isSkipped, or_assoc]
  rw [Bool.eq_false_iff]
  intro skipped
  generalize same : c :: cs = chars at h
  cases h with
  | word start =>
      cases same
      rcases cases_of_skipped skipped with rfl | rfl | rfl | rfl <;> cases start
  | notIn =>
      cases same
      cases skipped
  | number digit =>
      cases same
      rcases cases_of_skipped skipped with rfl | rfl | rfl | rfl <;> cases digit
  | string quote =>
      cases same
      rcases quote with rfl | rfl <;> cases skipped
  | pair known =>
      cases same
      rcases cases_of_skipped skipped with rfl | rfl | rfl | rfl <;> simp [pairKind] at known
  | sign known =>
      cases same
      rcases cases_of_skipped skipped with rfl | rfl | rfl | rfl <;> cases known

theorem Stops.shape {chars rest : List Char} (h : Stops chars rest) :
    ∃ kind, Shape kind chars := by
  obtain ⟨kind, read⟩ := h
  exact ⟨kind, shape_of_ofChars read⟩

theorem Stops.ne_nil {chars rest : List Char} (h : Stops chars rest) : chars ≠ [] := by
  obtain ⟨kind, read⟩ := h
  exact ne_nil_of_ofChars read

theorem trivia_of_not_isSkipped {c : Char} (cs : List Char) (h : isSkipped c = false) :
    trivia (c :: cs) = ([], c :: cs) := by
  unfold trivia
  split <;> first | rfl | (rename_i same; cases same; cases h)

theorem leads_trivia (cs : List Char) : Leads (trivia cs).1 (trivia cs).2 := by
  rw [Leads, trivia_append]

theorem leads_nil_of_shape {kind : TokenKind} {chars : List Char} (h : Shape kind chars)
    (nonempty : chars ≠ []) (rest : List Char) : Leads [] (chars ++ rest) := by
  cases chars with
  | nil => exact absurd rfl nonempty
  | cons c cs => exact trivia_of_not_isSkipped _ h.not_isSkipped

/-- What a gap begins with is skipped. -/
theorem Leads.head {gap cs : List Char} (h : Leads gap cs) : gap.head?.all isSkipped = true := by
  cases gap with
  | nil => rfl
  | cons c gap =>
      by_cases skipped : isSkipped c = true
      · exact skipped
      · have none := trivia_of_not_isSkipped (gap ++ cs) (Bool.eq_false_iff.2 skipped)
        rw [Leads, List.cons_append, none] at h
        cases h

theorem eq_nothing_of_extend {l : Lexeme} {front : List Char} (h : l.extend front = .nothing) :
    l = .nothing := by
  cases l with
  | nothing => rfl
  | token => cases h
  | broken => cases h

theorem quotedTail_ne_nothing (quote : Char) (cs : List Char) : quotedTail quote cs ≠ .nothing := by
  fun_induction quotedTail quote cs with
  | case1 => exact Lexeme.noConfusion
  | case2 => exact Lexeme.noConfusion
  | case3 => exact Lexeme.noConfusion
  | case4 c rest ih => exact fun h => ih (eq_nothing_of_extend h)
  | case5 => exact Lexeme.noConfusion
  | case6 c rest _ _ _ _ ih => exact fun h => ih (eq_nothing_of_extend h)

/-- Nothing is read only where nothing is left. -/
theorem eq_nil_of_ofChars {cs : List Char} (h : ofChars cs = .nothing) : cs = [] := by
  cases cs with
  | nil => rfl
  | cons c cs =>
      simp only [ofChars] at h
      split at h
      · simp only [word] at h
        split at h <;> cases h
      · split at h
        · simp only [number] at h
          split at h
          · split at h <;> cases h
          · cases h
        · split at h
          · exact absurd (eq_nothing_of_extend h) (quotedTail_ne_nothing c cs)
          · simp only [sign] at h
            split at h
            · cases h
            · split at h <;> cases h

/-- Whether a comment may end in front of the text. -/
def endsComment (cs : List Char) : Bool :=
  cs.head?.all (· = '\n')

theorem endsComment_dropWhile (cs : List Char) :
    endsComment (cs.dropWhile (· ≠ '\n')) = true := by
  induction cs with
  | nil => rfl
  | cons c cs ih =>
      rw [List.dropWhile_cons]
      split
      · exact ih
      · rename_i newline
        simpa [endsComment] using newline

/-- What is skipped in front of a text is skipped in front of another one as well, unless a
    comment would run into it. -/
theorem Leads.replace {gap cs cs' : List Char} (h : Leads gap cs) (plain : Leads [] cs')
    (ends : endsComment cs = true → endsComment cs' = true) : Leads gap cs' := by
  unfold Leads at *
  fun_induction trivia gap with
  | case1 gap r ih | case2 gap r ih =>
      rw [List.cons_append, trivia] at h ⊢
      obtain ⟨h₁, h₂⟩ := Prod.mk.inj h
      rw [ih (Prod.ext (List.cons.inj h₁).2 h₂)]
  | case3 gap r ih =>
      rw [List.cons_append, List.cons_append, trivia] at h ⊢
      obtain ⟨h₁, h₂⟩ := Prod.mk.inj h
      rw [ih (Prod.ext (List.cons.inj (List.cons.inj h₁).2).2 h₂)]
  | case4 gap =>
      rw [List.cons_append, trivia] at h ⊢
      obtain ⟨h₁, h₂⟩ := Prod.mk.inj h
      have comment := (List.cons.inj h₁).2
      have all : ∀ c ∈ gap, (decide (c ≠ '\n')) = true := by
        rw [← comment]
        exact fun _ => List.mem_takeWhile_imp
      have ended : endsComment cs' = true := ends (h₂ ▸ endsComment_dropWhile _)
      have stop : cs'.takeWhile (· ≠ '\n') = [] ∧ cs'.dropWhile (· ≠ '\n') = cs' := by
        cases cs' with
        | nil => exact ⟨rfl, rfl⟩
        | cons c cs' =>
            have newline : c = '\n' := by simpa [endsComment] using ended
            subst newline
            exact ⟨rfl, rfl⟩
      rw [List.takeWhile_append_of_pos all, List.dropWhile_append_of_pos all, stop.1, stop.2,
        List.append_nil]
  | case5 gap noBlank noTab noContinuation noComment =>
      match gap with
      | [] => exact plain
      | c :: gap =>
        -- Only a backslash is left, and what it continues must be part of the gap.
        exfalso
        rw [List.cons_append] at h
        unfold trivia at h
        split at h
        · exact noBlank gap (by rename_i same; rw [(List.cons.inj same).1])
        · exact noTab gap (by rename_i same; rw [(List.cons.inj same).1])
        · rename_i rest same
          obtain ⟨rfl, behind⟩ := List.cons.inj same
          cases gap with
          | nil => cases h
          | cons d gap => exact noContinuation gap (by rw [(List.cons.inj behind).1])
        · exact noComment gap (by rename_i same; rw [(List.cons.inj same).1])
        · cases h

end Lexeme

open Lexeme

/-- The characters read as tokens with the given texts. -/
inductive Spelt : List Char → List (List Char) → Prop where
  | nothing {cs : List Char} (front : ofChars (trivia cs).2 = .nothing) : Spelt cs []
  | token {cs chars rest : List Char} {kind : TokenKind} {xs : List (List Char)}
      (front : ofChars (trivia cs).2 = .token kind chars rest) (later : Spelt rest xs) :
      Spelt cs (chars :: xs)

namespace Token

theorem Scanned.spelt {source : String} {position : Nat} {cs before : List Char}
    {ts : List Token} (h : Scanned position cs ts) (split : source.toList = before ++ cs)
    (length : Text.byteLength before = position) :
    Spelt cs (ts.map fun t => (t.text source).toList) := by
  induction h generalizing before with
  | nothing front => exact .nothing front
  | @token position start stop cs chars rest kind ts read starts stops later ih =>
      have here := stands_of_front split length read starts stops
      rw [List.map_cons, here.toList_text]
      exact .token read (ih here.split (by rw [Text.byteLength_append]; exact here.stop))

theorem Scanned.exists_of_spelt {cs : List Char} {xs : List (List Char)} (h : Spelt cs xs)
    (position : Nat) : ∃ ts, Scanned position cs ts := by
  induction h generalizing position with
  | nothing front => exact ⟨[], .nothing front⟩
  | token front later ih =>
      obtain ⟨ts, scanned⟩ := ih _
      exact ⟨_, .token front rfl rfl scanned⟩

end Token

theorem Spelt.unique {cs : List Char} {xs ys : List (List Char)} (h : Spelt cs xs)
    (h' : Spelt cs ys) : xs = ys := by
  induction h generalizing ys with
  | nothing front =>
      cases h' with
      | nothing => rfl
      | token front' => rw [front] at front'; cases front'
  | token front later ih =>
      cases h' with
      | nothing front' => rw [front] at front'; cases front'
      | token front' later' =>
          rw [front] at front'
          cases front'
          rw [ih later']

/-- A source reads as certain texts exactly if they are the texts of its tokens. -/
theorem spelt_toList_iff {source : String} {xs : List String} :
    Spelt source.toList (xs.map String.toList) ↔
      ∃ ts, Token.readAll source = .ok ts ∧ ts.map (·.text source) = xs := by
  constructor
  · intro h
    obtain ⟨ts, scanned⟩ := Token.Scanned.exists_of_spelt h 0
    refine ⟨ts, Token.readAll_eq_ok_iff.2 scanned, ?_⟩
    have same := (scanned.spelt (List.nil_append _).symm rfl).unique h
    rw [← List.map_inj_right fun _ _ => String.toList_injective, List.map_map]
    exact same
  · rintro ⟨ts, read, rfl⟩
    have scanned := Token.readAll_eq_ok_iff.1 read
    have spelt := scanned.spelt (List.nil_append _).symm rfl
    rw [List.map_map]
    exact spelt

namespace Token

/-- The source from an offset on. -/
def remaining (source : String) (position : Nat) : List Char :=
  Text.excerpt position (Text.byteLength source.toList) source.toList

/-- The token is what is read where it begins. -/
def IsRead (source : String) (t : Token) : Prop :=
  ofChars ((t.text source).toList ++ remaining source t.span.stop) =
    .token t.kind (t.text source).toList (remaining source t.span.stop)

theorem IsRead.shape {source : String} {t : Token} (h : t.IsRead source) :
    Shape t.kind (t.text source).toList :=
  shape_of_ofChars h

theorem IsRead.stops {source : String} {t : Token} (h : t.IsRead source) :
    Stops (t.text source).toList (remaining source t.span.stop) :=
  ⟨_, h⟩

/-- The tokens are what can be read from an offset on. -/
inductive Laid (source : String) : (position : Nat) → List Token → Prop where
  | nil {position : Nat} (leads : Leads (remaining source position) []) : Laid source position []
  | cons {position : Nat} {t : Token} {ts : List Token}
      (leads : Leads (Text.excerpt position t.span.start source.toList)
        ((t.text source).toList ++ remaining source t.span.stop))
      (split : remaining source position = Text.excerpt position t.span.start source.toList ++
        ((t.text source).toList ++ remaining source t.span.stop))
      (touches : Text.excerpt position t.span.start source.toList = [] → position = t.span.start)
      (read : t.IsRead source) (later : Laid source t.span.stop ts) : Laid source position (t :: ts)

theorem remaining_of_split {source : String} {position : Nat} {before cs : List Char}
    (split : source.toList = before ++ cs) (length : Text.byteLength before = position) :
    remaining source position = cs := by
  have whole := Text.excerpt_append_append before cs []
  rw [List.append_nil, length, ← length, ← Text.byteLength_append, ← split, length] at whole
  exact whole

theorem Scanned.laid {source : String} {position : Nat} {cs before : List Char} {ts : List Token}
    (h : Scanned position cs ts) (split : source.toList = before ++ cs)
    (length : Text.byteLength before = position) : Laid source position ts := by
  induction h generalizing before with
  | @nothing position cs front =>
      have leads := leads_trivia cs
      have none := eq_nil_of_ofChars front
      have all := trivia_append cs
      rw [none] at leads all
      rw [List.append_nil] at all
      refine .nil ?_
      rw [remaining_of_split split length]
      exact all ▸ leads
  | @token position start stop cs chars rest kind ts read starts stops later ih =>
      have here := stands_of_front split length read starts stops
      have gap : Text.excerpt position start source.toList = (trivia cs).1 := by
        have middle := Text.excerpt_append_append before (trivia cs).1 (trivia cs).2
        rw [List.append_assoc, trivia_append, ← split, length, ← starts] at middle
        exact middle
      have behind : remaining source stop = rest := remaining_of_split here.split (by
        rw [Text.byteLength_append]
        exact here.stop)
      have text := ofChars_append read
      refine .cons ?_ ?_ ?_ ?_ (ih here.split (by rw [Text.byteLength_append]; exact here.stop))
      · rw [here.toList_text, gap, behind, text]
        exact leads_trivia cs
      · rw [here.toList_text, gap, behind, text, trivia_append]
        exact remaining_of_split split length
      · intro none
        rw [gap] at none
        simp [starts, none]
      · rw [IsRead, here.toList_text, behind, text]
        exact read

end Token

/-- A gap and the text of a token behind it. -/
structure Piece where
  gap : List Char
  text : String

namespace Piece

/-- The characters of a piece. -/
def chars (p : Piece) : List Char :=
  p.gap ++ p.text.toList

/-- The characters of pieces, one after the other, with something behind them. -/
def weave (ps : List Piece) (rest : List Char) : List Char :=
  ps.flatMap chars ++ rest

variable {p : Piece} {ps : List Piece} {rest : List Char}

@[simp] theorem weave_nil (rest : List Char) : weave [] rest = rest := rfl

@[simp] theorem weave_cons (p : Piece) (ps : List Piece) (rest : List Char) :
    weave (p :: ps) rest = p.gap ++ (p.text.toList ++ weave ps rest) := by
  simp [weave, chars]

@[simp] theorem weave_append (ps qs : List Piece) (rest : List Char) :
    weave (ps ++ qs) rest = weave ps (weave qs rest) := by
  simp [weave]

/-- The gaps are what is skipped in front of the pieces, and at the end. -/
inductive Spaced : List Piece → List Char → Prop where
  | nil {rest : List Char} (last : Leads rest []) : Spaced [] rest
  | cons {p : Piece} {ps : List Piece} {rest : List Char}
      (leads : Leads p.gap (p.text.toList ++ weave ps rest)) (later : Spaced ps rest) :
      Spaced (p :: ps) rest

/-- Every piece stops where the next one begins. -/
inductive Apart : List Piece → List Char → Prop where
  | nil {rest : List Char} : Apart [] rest
  | cons {p : Piece} {ps : List Piece} {rest : List Char}
      (stops : Stops p.text.toList (weave ps rest)) (later : Apart ps rest) : Apart (p :: ps) rest

/-- Pieces are read back from the text that they make exactly if each of them stops where the
    next one begins. -/
theorem spelt_weave_iff (spaced : Spaced ps rest) :
    Spelt (weave ps rest) (ps.map (·.text.toList)) ↔ Apart ps rest := by
  induction spaced with
  | nil last =>
      refine iff_of_true (.nothing ?_) .nil
      have skipped : trivia _ = _ := last
      rw [List.append_nil] at skipped
      rw [weave_nil, skipped]
      rfl
  | @cons p ps rest leads later ih =>
      have skipped : trivia (weave (p :: ps) rest) = (p.gap, p.text.toList ++ weave ps rest) := by
        rw [weave_cons]
        exact leads
      constructor
      · intro h
        rw [List.map_cons] at h
        cases h with
        | token front spelt =>
            rw [skipped] at front
            have split := List.append_cancel_left (ofChars_append front)
            subst split
            exact .cons ⟨_, front⟩ (ih.1 spelt)
      · intro h
        cases h with
        | cons stops apart =>
            obtain ⟨kind, read⟩ := stops
            exact .token (by rw [skipped]; exact read) (ih.2 apart)

end Piece

end MembershipLowering
