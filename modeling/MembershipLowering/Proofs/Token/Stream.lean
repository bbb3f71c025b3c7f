import MembershipLowering.Proofs.Text.Excerpt
import MembershipLowering.Token.Lexer

/-! # Streams of tokens

A text that can be read to its end is trivia and tokens in turns. `Scanned` says so
with everything behind a token still present, because only that shows where a token
ends. It is a second description of `Lexer.tokens`, not another lexer.

Of a source that has been read two facts are used everywhere: each token is what
stands at its place, and tokens do not overlap (`Stream`).
-/

namespace MembershipLowering.Token

/-- The tokens of a text that begins at byte `position`. -/
inductive Scanned : (position : Nat) → List Char → List Token → Prop where
  | nothing {position : Nat} {cs : List Char}
      (front : Lexeme.ofChars (Lexeme.trivia cs).2 = .nothing) : Scanned position cs []
  | token {position start stop : Nat} {cs chars rest : List Char} {kind : TokenKind}
      {ts : List Token} (front : Lexeme.ofChars (Lexeme.trivia cs).2 = .token kind chars rest)
      (starts : start = position + Text.byteLength (Lexeme.trivia cs).1)
      (stops : stop = start + Text.byteLength chars) (later : Scanned stop rest ts) :
      Scanned position cs (⟨kind, start, stop⟩ :: ts)

theorem scanned_of_tokens {s : Lexer} {ts : List Token} (h : s.tokens = .ok ts) :
    Scanned s.position s.rest ts := by
  fun_induction Lexer.tokens s generalizing ts with
  | case1 => cases h
  | case2 s after step =>
      cases h
      simp only [Lexer.next] at step
      split at step
      · rename_i front
        exact .nothing front
      · cases step
      · cases step
  | case3 s t after step ih =>
      cases read : after.tokens with
      | error e => rw [read] at h; cases h
      | ok us =>
          rw [read] at h
          cases h
          simp only [Lexer.next] at step
          split at step
          · cases step
          · rename_i front
            cases step
            exact .token front rfl rfl (ih read)
          · cases step

theorem tokens_of_scanned {position : Nat} {cs : List Char} {ts : List Token}
    (h : Scanned position cs ts) : Lexer.tokens ⟨position, cs⟩ = .ok ts := by
  induction h with
  | @nothing position cs front =>
      have step : (⟨position, cs⟩ : Lexer).next =
          (.ok none, ⟨position + Text.byteLength (Lexeme.trivia cs).1, []⟩) := by
        simp only [Lexer.next, front]
      rw [Lexer.tokens]
      split <;> rename_i again <;> rw [step] at again <;> cases again
  | @token position start stop cs chars rest kind ts front starts stops _ ih =>
      have step : (⟨position, cs⟩ : Lexer).next =
          (.ok (some ⟨kind, start, stop⟩), ⟨stop, rest⟩) := by
        simp only [Lexer.next, front, starts, stops]
      rw [Lexer.tokens]
      split <;> rename_i again <;> rw [step] at again <;> cases again
      rw [ih]
      rfl

/-- A source can be read exactly when it is trivia and tokens in turns. -/
theorem readAll_eq_ok_iff {source : String} {ts : List Token} :
    readAll source = .ok ts ↔ Scanned 0 source.toList ts :=
  ⟨scanned_of_tokens, tokens_of_scanned⟩

/-- The token is what can be read at its place in the source. -/
structure Stands (source : String) (t : Token) (before chars after : List Char) : Prop where
  split : source.toList = before ++ chars ++ after
  start : Text.byteLength before = t.span.start
  stop : Text.byteLength before + Text.byteLength chars = t.span.stop
  read : Lexeme.ofChars (chars ++ after) = .token t.kind chars after

namespace Stands

variable {source : String} {t : Token} {before chars after : List Char}

theorem start_lt_stop (h : t.Stands source before chars after) : t.span.start < t.span.stop := by
  have some := Text.byteLength_pos (Lexeme.ne_nil_of_ofChars h.read)
  rw [← h.start, ← h.stop]
  omega

theorem isBoundary_start (h : t.Stands source before chars after) :
    Text.isBoundary t.span.start source.toList = true :=
  Text.isBoundary_iff.2 ⟨before, chars ++ after, by rw [h.split, List.append_assoc], h.start⟩

theorem isBoundary_stop (h : t.Stands source before chars after) :
    Text.isBoundary t.span.stop source.toList = true :=
  Text.isBoundary_iff.2 ⟨before ++ chars, after, h.split, by
    rw [Text.byteLength_append, h.stop]⟩

theorem stop_le (h : t.Stands source before chars after) :
    t.span.stop ≤ Text.byteLength source.toList := by
  rw [h.split, Text.byteLength_append, Text.byteLength_append, h.stop]
  exact Nat.le_add_right _ _

/-- The characters that were read are the token's text. -/
theorem toList_text (h : t.Stands source before chars after) : (t.text source).toList = chars := by
  rw [Token.text, Span.toList_text h.isBoundary_start h.isBoundary_stop
    (Nat.le_of_lt h.start_lt_stop), h.split, ← h.start, ← h.stop, Text.excerpt_append_append]

end Stands

/-- What is read behind a part of the source stands there. -/
theorem stands_of_front {source : String} {position start stop : Nat}
    {before cs chars rest : List Char} {kind : TokenKind} (split : source.toList = before ++ cs)
    (length : Text.byteLength before = position)
    (front : Lexeme.ofChars (Lexeme.trivia cs).2 = .token kind chars rest)
    (starts : start = position + Text.byteLength (Lexeme.trivia cs).1)
    (stops : stop = start + Text.byteLength chars) :
    Stands source ⟨kind, start, stop⟩ (before ++ (Lexeme.trivia cs).1) chars rest := by
  have trivia := Lexeme.trivia_append cs
  have lexeme := Lexeme.ofChars_append front
  refine ⟨?_, ?_, ?_, by rw [lexeme]; exact front⟩
  · rw [split, List.append_assoc, List.append_assoc, lexeme, trivia]
  · rw [Text.byteLength_append, length, starts]
  · rw [Text.byteLength_append, length, stops, starts]

/-- The tokens of a source that has been read. -/
structure Stream (source : String) (tokens : List Token) : Prop where
  stands : ∀ t ∈ tokens, ∃ before chars after, t.Stands source before chars after
  ordered : tokens.Pairwise fun t u => t.span.stop ≤ u.span.start

/-- What is scanned behind a part of the source stands behind it, in order. -/
theorem Scanned.stream {source : String} {position : Nat} {cs front : List Char}
    {ts : List Token} (h : Scanned position cs ts) (split : source.toList = front ++ cs)
    (length : Text.byteLength front = position) :
    Stream source ts ∧ ∀ t ∈ ts, position ≤ t.span.start := by
  induction h generalizing front with
  | nothing => exact ⟨⟨by simp, .nil⟩, by simp⟩
  | @token position start stop cs chars rest kind ts read starts stops later ih =>
      have here := stands_of_front split length read starts stops
      obtain ⟨stream, behind⟩ := ih here.split (by
        rw [Text.byteLength_append]
        exact here.stop)
      refine ⟨⟨?_, List.pairwise_cons.2 ⟨behind, stream.ordered⟩⟩, ?_⟩
      · intro t ht
        cases List.mem_cons.1 ht with
        | inl same => exact same ▸ ⟨_, _, _, here⟩
        | inr later => exact stream.stands t later
      · intro t ht
        have hlt := here.start_lt_stop
        simp only at hlt
        cases List.mem_cons.1 ht with
        | inl same => subst same; simp only; omega
        | inr later => have := behind t later; omega

/-- The tokens of a source stand in it, in order. -/
theorem stream_of_readAll {source : String} {tokens : List Token}
    (h : readAll source = .ok tokens) : Stream source tokens :=
  ((readAll_eq_ok_iff.1 h).stream (List.nil_append _).symm rfl).1

namespace Stream

variable {source : String} {tokens : List Token} {t u : Token}

theorem start_lt_stop (h : Stream source tokens) (ht : t ∈ tokens) :
    t.span.start < t.span.stop := by
  obtain ⟨before, chars, after, stands⟩ := h.stands t ht
  exact stands.start_lt_stop

theorem isBoundary_start (h : Stream source tokens) (ht : t ∈ tokens) :
    Text.isBoundary t.span.start source.toList = true := by
  obtain ⟨before, chars, after, stands⟩ := h.stands t ht
  exact stands.isBoundary_start

theorem isBoundary_stop (h : Stream source tokens) (ht : t ∈ tokens) :
    Text.isBoundary t.span.stop source.toList = true := by
  obtain ⟨before, chars, after, stands⟩ := h.stands t ht
  exact stands.isBoundary_stop

theorem stop_le (h : Stream source tokens) (ht : t ∈ tokens) :
    t.span.stop ≤ Text.byteLength source.toList := by
  obtain ⟨before, chars, after, stands⟩ := h.stands t ht
  exact stands.stop_le

/-- A part of a stream. -/
theorem sublist {ts : List Token} (h : Stream source tokens) (part : ts.Sublist tokens) :
    Stream source ts :=
  ⟨fun t ht => h.stands t (part.subset ht), h.ordered.sublist part⟩

theorem left {ts us : List Token} (h : Stream source (ts ++ us)) : Stream source ts :=
  h.sublist (List.sublist_append_left ts us)

theorem right {ts us : List Token} (h : Stream source (ts ++ us)) : Stream source us :=
  h.sublist (List.sublist_append_right ts us)

/-- Tokens of a first part end before those of a second part begin. -/
theorem le_of_append {ts us : List Token} (h : Stream source (ts ++ us)) (ht : t ∈ ts)
    (hu : u ∈ us) : t.span.stop ≤ u.span.start :=
  (List.pairwise_append.1 h.ordered).2.2 t ht u hu

/-- Where one token starts no other does. -/
theorem eq_of_start (h : Stream source tokens) (ht : t ∈ tokens) (hu : u ∈ tokens)
    (same : t.span.start = u.span.start) : t = u := by
  have positive := h.start_lt_stop ht
  have positive' := h.start_lt_stop hu
  obtain ⟨ts, us, rfl⟩ := List.append_of_mem hu
  rcases List.mem_append.1 ht with earlier | later
  · have := h.le_of_append earlier List.mem_cons_self
    omega
  · refine (List.mem_cons.1 later).resolve_right fun later => ?_
    have := (List.pairwise_cons.1 h.right.ordered).1 t later
    omega

end Stream

end MembershipLowering.Token
