import MembershipLowering.Document
import MembershipLowering.Proofs.Expr.Covering
import MembershipLowering.Proofs.Token.Breaking

/-! # Rejections

What the readers refuse a list of tokens for. Every complaint is about one of the tokens they
were given, or about the end of the source (`blames_of_statements`). Among the causes are neither
those of the scanner nor an operator without a meaning: a token is taken for an operator only
once its level is known, and then it has a meaning (`combine_ne_error`).

So the span of an error is that of a token, or empty at the end of the source, or empty where the
scanner breaks off (`Document.span_of_parse_eq_error`).
-/

namespace MembershipLowering

namespace Parser

/-- A complaint about a token among `ts`, or about the end of the source. Each cause names what
    it is about. -/
inductive Blames (source : String) (ts : List Token) : ParseError → Prop where
  | found {t : Token} (what : Expectation) (among : t ∈ ts) :
      Blames source ts ⟨.expected what (some (t.text source)), t.span⟩
  | ended (what : Expectation) : Blames source ts ⟨.expected what none, endSpan source⟩
  | unexpected {t : Token} (among : t ∈ ts) : Blames source ts ⟨.unexpected (t.text source), t.span⟩
  | invalidTarget {t : Token} (among : t ∈ ts) (isAssign : t.kind = .assign) :
      Blames source ts ⟨.invalidTarget, t.span⟩
  | tooDeep {t : Token} (among : t ∈ ts) : Blames source ts ⟨.tooDeep, t.span⟩
  | tooDeepAtEnd : Blames source ts ⟨.tooDeep, endSpan source⟩

variable {source : String} {inner : Nested} {inside : Bool} {ts : List Token} {e : ParseError}

theorem Blames.mono {us : List Token} (h : Blames source ts e) (part : ts ⊆ us) :
    Blames source us e := by
  cases h with
  | found what among => exact .found what (part among)
  | ended what => exact .ended what
  | unexpected among => exact .unexpected (part among)
  | invalidTarget among isAssign => exact .invalidTarget (part among) isAssign
  | tooDeep among => exact .tooDeep (part among)
  | tooDeepAtEnd => exact .tooDeepAtEnd

/-- Where a complaint points to. -/
theorem Blames.span_cases (h : Blames source ts e) :
    (∃ t ∈ ts, e.span = t.span) ∨ e.span = endSpan source := by
  cases h with
  | found _ among | unexpected among | invalidTarget among _ | tooDeep among =>
      exact .inl ⟨_, among, rfl⟩
  | ended | tooDeepAtEnd => exact .inr rfl

theorem error_of_map {ε α β : Type} {f : α → β} {x : Except ε α} {e : ε}
    (h : x.map f = .error e) : x = .error e := by
  cases x with
  | error e' => exact congrArg Except.error (Except.error.inj h)
  | ok a => cases h

theorem subset_of_split {seg rest : List Token} (split : ts = seg ++ rest) :
    seg ⊆ ts ∧ rest ⊆ ts := by
  subst split
  exact ⟨List.subset_append_left _ _, List.subset_append_right _ _⟩

/-- The next token is one of those given, and so are the tokens behind it. -/
theorem mem_of_next? {r : Reading Token ts} (h : next? inside ts = some r) :
    r.value ∈ ts ∧ r.rest ⊆ ts := by
  obtain ⟨seg, split, reaches⟩ := reaches_of_next? h
  obtain ⟨front, behind⟩ := subset_of_split split
  exact ⟨front reaches.mem, behind⟩

theorem rest_subset_of_expect {kind : TokenKind} {what : Expectation} {r : Reading Token ts}
    (h : expect source kind what inside ts = .ok r) : r.rest ⊆ ts := by
  obtain ⟨⟨seg, split, -⟩, -⟩ := reaches_of_expect h
  exact (subset_of_split split).2

theorem Reads.rest_subset {level : Nat} {r : Reading Expr ts} (h : Reads source inside level r) :
    r.rest ⊆ ts := by
  obtain ⟨seg, -, split, -⟩ := h
  exact (subset_of_split split).2

theorem rest_subset_of_enclosed (sound : inner.Sound source) {close : TokenKind}
    {what : Expectation} {r : Reading (Expr × Token) ts}
    (h : enclosed source inner close what ts = .ok r) : r.rest ⊆ ts := by
  obtain ⟨-, seg, segClose, split, -⟩ := derives_of_enclosed sound h
  exact (subset_of_split split).2

theorem rest_subset_of_items (sound : inner.Sound source) {close : TokenKind}
    {what : Expectation} {r : Reading (List Expr × Token) ts}
    (h : items source inner close what ts = .ok r) : r.rest ⊆ ts := by
  obtain ⟨seg, split, -⟩ := derives_of_items sound h
  exact (subset_of_split split).2

theorem blames_unmet (what : Expectation) (inside : Bool) (ts : List Token) :
    Blames source ts (unmet source what inside ts) := by
  unfold unmet
  split
  · rename_i t next
    exact .found what (mem_of_next? next).1
  · exact .ended what

theorem blames_of_expect {kind : TokenKind} {what : Expectation}
    (h : expect source kind what inside ts = .error e) : Blames source ts e := by
  unfold expect at h
  split at h
  · split at h
    · cases h
    · cases h
      exact blames_unmet ..
  · cases h
    exact blames_unmet ..

/-- Readers that refuse only what they can point at. -/
structure Nested.Accountable (source : String) (inner : Nested) : Prop where
  assignment : ∀ {inside : Bool} {ts : List Token} {e : ParseError},
    inner.assignment inside ts = .error e → Blames source ts e
  operand : ∀ {level : Nat} {inside : Bool} {ts : List Token} {e : ParseError},
    inner.operand level inside ts = .error e → Blames source ts e
  unary : ∀ {inside : Bool} {ts : List Token} {e : ParseError},
    inner.unary inside ts = .error e → Blames source ts e

theorem blames_of_enclosed (sound : inner.Sound source) (blames : inner.Accountable source)
    {close : TokenKind} {what : Expectation} (h : enclosed source inner close what ts = .error e) :
    Blames source ts e := by
  unfold enclosed at h
  split at h
  · rename_i refused
    cases h
    exact blames.assignment refused
  · rename_i read
    exact (blames_of_expect (error_of_map h)).mono (sound.assignment read).rest_subset

theorem blames_of_items (sound : inner.Sound source) (blames : inner.Accountable source)
    {close : TokenKind} {what : Expectation} {ts : List Token}
    (h : items source inner close what ts = .error e) : Blames source ts e := by
  unfold items at h
  extract_lets more at h
  have of_more : more = .error e → Blames source ts e := by
    intro read
    simp only [more] at read
    split at read
    · rename_i refused
      cases read
      exact blames.assignment refused
    · rename_i item readItem
      have behind := (sound.assignment readItem).rest_subset
      have of_closed : (expect source close what true item.rest).map (fun t =>
            item.andThen (t.map fun t => ([item.value], t))) = .error e → Blames source ts e :=
        fun readClose => (blames_of_expect (error_of_map readClose)).mono behind
      split at read
      · exact of_closed read
      · rename_i comma next
        split at read
        · have shorter := Nat.lt_trans comma.shorter item.shorter
          have later := blames_of_items sound blames (error_of_map read)
          exact later.mono (List.Subset.trans (mem_of_next? next).2 behind)
        · exact of_closed read
  split at h
  · split at h
    · cases h
    · exact of_more h
  · exact of_more h
termination_by ts.length

theorem blames_of_primary (sound : inner.Sound source) (blames : inner.Accountable source)
    (h : primary source inner inside ts = .error e) : Blames source ts e := by
  unfold primary at h
  split at h
  · cases h
    exact blames_unmet ..
  · rename_i t next
    have behind := (mem_of_next? next).2
    split at h
    · cases h
    · split at h
      · exact (blames_of_items sound blames (error_of_map h)).mono behind
      · exact (blames_of_enclosed sound blames (error_of_map h)).mono behind
      · cases h
        exact blames_unmet ..

/-- What follows an expression is among the tokens it was read from. -/
theorem blames_of_postfixes (sound : inner.Sound source) (blames : inner.Accountable source)
    {object : Reading Expr ts} (behind : object.rest ⊆ ts)
    (h : postfixes source inner inside object = .error e) : Blames source ts e := by
  unfold postfixes at h
  split at h
  · cases h
  · rename_i t next
    have behindSign := List.Subset.trans (mem_of_next? next).2 behind
    extract_lets outer at h
    split at h
    · split at h
      · rename_i refused
        cases h
        exact (blames_of_expect refused).mono behindSign
      · rename_i name readName
        have shorter := Nat.lt_trans name.shorter t.shorter
        exact blames_of_postfixes sound blames
          (List.Subset.trans (rest_subset_of_expect readName) behindSign) h
    · split at h
      · split at h
        · rename_i refused
          cases h
          exact (blames_of_enclosed sound blames refused).mono behindSign
        · rename_i key readKey
          have shorter := Nat.lt_trans key.shorter t.shorter
          exact blames_of_postfixes sound blames
            (List.Subset.trans (rest_subset_of_enclosed sound readKey) behindSign) h
      · split at h
        · split at h
          · rename_i refused
            cases h
            exact (blames_of_items sound blames refused).mono behindSign
          · rename_i arguments readArguments
            have shorter := Nat.lt_trans arguments.shorter t.shorter
            exact blames_of_postfixes sound blames
              (List.Subset.trans (rest_subset_of_items sound readArguments) behindSign) h
        · cases h
termination_by object.rest.length

theorem blames_of_unary (sound : inner.Sound source) (blames : inner.Accountable source)
    (h : unary source inner inside ts = .error e) : Blames source ts e := by
  unfold unary at h
  extract_lets unsigned at h
  have of_unsigned : unsigned = .error e → Blames source ts e := by
    intro read
    simp only [unsigned] at read
    split at read
    · rename_i refused
      cases read
      exact blames_of_primary sound blames refused
    · rename_i p readPrimary
      exact blames_of_postfixes sound blames (derives_of_primary sound readPrimary).rest_subset read
  split at h
  · exact of_unsigned h
  · rename_i t next
    split at h
    · exact (blames.unary (error_of_map h)).mono (mem_of_next? next).2
    · exact of_unsigned h

/-- A token whose level is known has a meaning. -/
theorem combine_ne_error {t : Token} {own : Nat} (leveled : level? source t = some own)
    (l r : Expr) : combine source t l r ≠ .error e := by
  intro h
  unfold combine at h
  extract_lets extent text at h
  split at h
  · cases h
  · rename_i noMembership
    split at h
    · cases h
    · rename_i meaningless
      unfold level? at leveled
      split at leveled
      · rename_i isRelation
        have isInstanceOf : text = "instanceof" :=
          Classical.not_not.1 fun other => noMembership ⟨isRelation, other⟩
        rw [isInstanceOf] at meaningless
        cases meaningless
      · rw [show BinaryOperator.ofText? (t.text source) = none from meaningless] at leveled
        cases leveled
      · cases leveled

theorem blames_of_operators (sound : inner.Sound source) (blames : inner.Accountable source)
    {level : Nat} {left : Reading Expr ts} (behind : left.rest ⊆ ts)
    (h : operators source inner level inside left = .error e) : Blames source ts e := by
  unfold operators at h
  split at h
  · cases h
  · rename_i t next
    have behindSign := List.Subset.trans (mem_of_next? next).2 behind
    split at h
    · cases h
    · rename_i own leveled
      split at h
      · cases h
      · split at h
        · rename_i refused
          cases h
          exact (blames.operand refused).mono behindSign
        · rename_i right readRight
          split at h
          · rename_i refused
            exact absurd refused (combine_ne_error leveled _ _)
          · have shorter := Nat.lt_trans right.shorter t.shorter
            have behindRight := (sound.operand (level?_lt leveled) readRight).1.rest_subset
            exact blames_of_operators sound blames (List.Subset.trans behindRight behindSign) h
termination_by left.rest.length

theorem blames_of_operand (sound : inner.Sound source) (blames : inner.Accountable source)
    {level : Nat} (h : operand source inner level inside ts = .error e) : Blames source ts e := by
  unfold operand at h
  split at h
  · rename_i refused
    cases h
    exact blames_of_unary sound blames refused
  · rename_i left readLeft
    exact blames_of_operators sound blames (reads_of_unary sound readLeft).rest_subset h

theorem blames_of_assignment (sound : inner.Sound source) (blames : inner.Accountable source)
    (h : assignment source inner inside ts = .error e) : Blames source ts e := by
  unfold assignment at h
  split at h
  · rename_i refused
    cases h
    exact blames_of_operand sound blames refused
  · rename_i target readTarget
    have behind := (reads_of_operand sound (by decide) readTarget).1.rest_subset
    split at h
    · cases h
    · rename_i t next
      obtain ⟨among, behindSign⟩ := mem_of_next? next
      split at h
      · cases h
      · rename_i isAssign
        split at h
        · cases h
          exact .invalidTarget (behind among) (Classical.not_not.1 isAssign)
        · exact (blames.assignment (error_of_map h)).mono (List.Subset.trans behindSign behind)

/-- With no level left the readers point at what comes next. -/
theorem blames_of_refusal (inside : Bool) (ts : List Token) :
    Blames source ts
      ⟨.tooDeep, ((next? inside ts).map (·.value.span)).getD (endSpan source)⟩ := by
  cases next : next? inside ts with
  | none => exact .tooDeepAtEnd
  | some t => exact .tooDeep (mem_of_next? next).1

/-- The readers of every depth refuse only what they can point at. -/
theorem nested_accountable (source : String) (depth : Nat) :
    (nested source depth).Accountable source := by
  induction depth with
  | zero =>
      constructor
      · intro inside ts e h
        cases h
        exact blames_of_refusal inside ts
      · intro level inside ts e h
        cases h
        exact blames_of_refusal inside ts
      · intro inside ts e h
        cases h
        exact blames_of_refusal inside ts
  | succ depth ih =>
      have sound := nested_sound source depth
      exact ⟨fun h => blames_of_assignment sound ih h, fun h => blames_of_operand sound ih h,
        fun h => blames_of_unary sound ih h⟩

/-- A list of tokens is refused for one of them, or for where it ends. -/
theorem blames_of_statements {ts : List Token} (h : statements source ts = .error e) :
    Blames source ts e := by
  fun_induction statements source ts with
  | case1 => cases h
  | case2 t rest separates ih => exact (ih h).mono (List.subset_cons_self _ _)
  | case3 t rest _ e' refused =>
      cases h
      exact (nested_accountable source maxDepth).assignment refused
  | case4 => cases h
  | case5 t rest _ r read u later ahead separates ih =>
      have behind := ((nested_sound source maxDepth).assignment read).rest_subset
      rw [ahead] at behind
      exact (ih (error_of_map h)).mono (List.Subset.trans (List.subset_cons_self _ _) behind)
  | case6 t rest _ r read u later ahead =>
      have behind := ((nested_sound source maxDepth).assignment read).rest_subset
      rw [ahead] at behind
      cases h
      exact .unexpected (behind List.mem_cons_self)

end Parser

/-- The span begins and ends between characters of the source. -/
structure Span.Fits (s : Span) (source : String) : Prop where
  start_le_stop : s.start ≤ s.stop
  stop_le : s.stop ≤ Text.byteLength source.toList
  isBoundary_start : Text.isBoundary s.start source.toList = true
  isBoundary_stop : Text.isBoundary s.stop source.toList = true

theorem Span.fits_point {source : String} {front back : List Char}
    (split : source.toList = front ++ back) :
    (Span.point (Text.byteLength front)).Fits source := by
  have boundary : Text.isBoundary (Text.byteLength front) source.toList = true :=
    Text.isBoundary_iff.2 ⟨front, back, split, rfl⟩
  refine ⟨Nat.le_refl _, ?_, boundary, boundary⟩
  rw [split, Text.byteLength_append]
  exact Nat.le_add_right _ _

theorem Token.Stream.fits {source : String} {tokens : List Token} {t : Token}
    (h : Stream source tokens) (ht : t ∈ tokens) : t.span.Fits source :=
  ⟨Nat.le_of_lt (h.start_lt_stop ht), h.stop_le ht, h.isBoundary_start ht, h.isBoundary_stop ht⟩

/-- Whether a call fails in a certain way can be decided without comparing results. -/
instance decidableEqError {ε α : Type} [DecidableEq ε] (x : Except ε α) (e : ε) :
    Decidable (x = .error e) :=
  match x with
  | .error e' => decidable_of_iff (e' = e) (by simp)
  | .ok _ => isFalse (by simp)

namespace Document

variable {source : String} {e : ParseError}

/-- A rejected source either cannot be read as tokens, or its tokens are refused. -/
theorem cases_of_parse_eq_error (h : parse source = .error e) :
    (∃ broken, Token.readAll source = .error broken ∧
        e = ⟨.lexical broken.cause, .point broken.position⟩) ∨
      ∃ tokens, Token.readAll source = .ok tokens ∧ Parser.Blames source tokens e := by
  unfold parse at h
  split at h
  · rename_i broken read
    cases h
    exact .inl ⟨broken, read, rfl⟩
  · rename_i tokens read
    exact .inr ⟨tokens, read, Parser.blames_of_statements (Parser.error_of_map h)⟩

/-- The error of a rejected source points into it: at a token, which it names, at the end, or
    at the place where the scanner breaks off. -/
theorem span_of_parse_eq_error (h : parse source = .error e) :
    e.span.Fits source ∧
      ((∃ tokens, Token.readAll source = .ok tokens ∧ Parser.Blames source tokens e ∧
          ((∃ t ∈ tokens, e.span = t.span) ∨
            e.span = .point (Text.byteLength source.toList))) ∨
        ∃ broken front back read, Token.readAll source = .error broken ∧
          e = ⟨.lexical broken.cause, .point broken.position⟩ ∧
          Token.BrokenOff source broken front back read) := by
  rcases cases_of_parse_eq_error h with ⟨broken, failed, rfl⟩ | ⟨tokens, read, blames⟩
  · obtain ⟨front, back, read, brokenOff⟩ := Token.breaksOff_of_readAll failed
    have fits := Span.fits_point brokenOff.split
    rw [brokenOff.position] at fits
    exact ⟨fits, .inr ⟨broken, front, back, read, failed, rfl, brokenOff⟩⟩
  · have pointed := blames.span_cases
    refine ⟨?_, .inl ⟨tokens, read, blames, pointed⟩⟩
    rcases pointed with ⟨t, among, same⟩ | same
    · rw [same]
      exact (Token.stream_of_readAll read).fits among
    · rw [same]
      exact Span.fits_point (List.append_nil _).symm

/-- A token behind newlines that are passed over. -/
theorem span_of_parse_eq_error_bracket :
    parse "a[\"é\"\n\nb" = .error ⟨.expected .closingBracket (some "b"), ⟨8, 9⟩⟩ ∧
      (Span.mk 8 9).Fits "a[\"é\"\n\nb" ∧
      ∃ tokens, Token.readAll "a[\"é\"\n\nb" = .ok tokens ∧
        Parser.Blames "a[\"é\"\n\nb" tokens
          ⟨.expected .closingBracket (some "b"), ⟨8, 9⟩⟩ := by
  have refused : parse "a[\"é\"\n\nb" =
      .error ⟨.expected .closingBracket (some "b"), ⟨8, 9⟩⟩ := by decide +kernel
  obtain ⟨fits, ⟨tokens, read, blames, -⟩ | ⟨_, _, _, _, _, lexical, _⟩⟩ :=
    span_of_parse_eq_error refused
  · exact ⟨refused, fits, tokens, read, blames⟩
  · cases lexical

/-- A literal that does not end, behind blanks and a token with a blank in it. -/
example : Document.parse "\"é\"\nnot  in 'a\\" =
    .error ⟨.lexical .unterminatedString, .point 13⟩ := by decide +kernel

end Document

end MembershipLowering
