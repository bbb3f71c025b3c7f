import MembershipLowering.Proofs.Token.Operand

/-! # Text that flows, read again

The tokens of a text that flows are settled (`Settles`), and nothing is to be written for them
but what stands there (`written_eq_remaining`), provided that they follow each other as the
grammar allows and that there are semicolons where statements end.
-/

namespace MembershipLowering.Token

open Lexeme

/-- The token as an entry, without the gap in front of it. -/
def entry (source : String) (t : Token) : Entry :=
  ⟨[], t.kind, t.text source⟩

/-- Tokens that would be left as they are, of which all brackets and all statements are closed. -/
structure Settles (source : String) (tokens : List Token) : Prop where
  settled : ∀ t ∈ tokens, (t.entry source).Settled
  complete : Entry.Complete (tokens.map (entry source))
  follows : TokenKind.followAll? 0 false (tokens.map (·.kind)) = some (0, false)

/-- There is a semicolon behind each token with which a statement ends. -/
def Terminated (ends : List Nat) : List Token → Prop
  | [] => True
  | t :: ts => (t.span.stop ∈ ends → ∃ u ∈ ts.head?, u.kind = .semicolon) ∧ Terminated ends ts

variable {source : String} {tokens ts : List Token} {t : Token} {last : Option Token}
  {ends : List Nat} {position : Nat}

/-- The entries that are read are the tokens. -/
theorem map_entry_eq {ms : List Entry} (isRead : ∀ t ∈ tokens, t.IsRead source)
    (settled : ∀ m ∈ ms, m.Settled) (bare : ∀ m ∈ ms, m.gap = [])
    (texts : tokens.map (·.text source) = ms.map (·.text)) : tokens.map (entry source) = ms := by
  induction tokens generalizing ms with
  | nil => exact (List.map_eq_nil_iff.1 texts.symm).symm
  | cons t ts ih =>
      cases ms with
      | nil => cases texts
      | cons m ms =>
          obtain ⟨readHead, readTail⟩ := List.forall_mem_cons.1 isRead
          obtain ⟨settledHead, settledTail⟩ := List.forall_mem_cons.1 settled
          obtain ⟨bareHead, bareTail⟩ := List.forall_mem_cons.1 bare
          simp only [List.map_cons, List.cons.injEq] at texts
          have kind : t.kind = m.kind :=
            readHead.shape.unique (texts.1 ▸ settledHead.shape)
          rw [List.map_cons, ih readTail settledTail bareTail texts.2, entry, kind, texts.1,
            ← bareHead]

/-- The tokens of a text that flows from one statement to another. -/
theorem settles_of_flows {p p' : Entry} {text gap : List Char}
    (h : Flows ⟨p, 0, false⟩ text ⟨p', 0, false⟩) (whole : p'.isHalf = false) (isGap : Gap [] gap)
    (written : source.toList = text ++ gap) (read : readAll source = .ok tokens) :
    Settles source tokens := by
  obtain ⟨es, rfl, flow⟩ := h
  obtain ⟨ms, reads⟩ := flow.exists_reads whole isGap
  have texts : tokens.map (·.text source) = ms.map (·.text) := by
    have spelt := reads.spelt
    have chars : ms.map (·.text.toList) = (ms.map (·.text)).map String.toList := by
      rw [List.map_map]
      rfl
    rw [Entry.weave_eq_append, ← written, chars, spelt_toList_iff] at spelt
    obtain ⟨ts, readAgain, same⟩ := spelt
    cases read.symm.trans readAgain
    exact same
  have laid : Laid source 0 tokens := (readAll_eq_ok_iff.1 read).laid (List.nil_append _).symm rfl
  have same := map_entry_eq (fun t ht => laid.isRead ht) reads.settled reads.bare texts
  have kinds : tokens.map (·.kind) = ms.map (·.kind) := by
    rw [← same, List.map_map]
    rfl
  exact ⟨fun t ht => reads.settled _ (same ▸ List.mem_map_of_mem ht), same ▸ reads.complete,
    kinds ▸ reads.follows⟩

/-- What is settled and no half of an operator is spelt as it is. -/
theorem spelling_of_settled (settled : (t.entry source).Settled)
    (whole : (t.entry source).isHalf = false) (plain : last.any (isShorthand source · t) = false) :
    spelling source last t = [t.text source] := by
  have other : ∀ text, t.text source = text → isSpelt text = false ∧ text ≠ "@" ∧
      text ≠ "==" ∧ text ≠ "!=" := by
    rintro _ rfl
    have notHalf := Bool.or_eq_false_iff.1 whole
    exact ⟨settled.unspelt, settled.notAt, of_decide_eq_false notHalf.1,
      of_decide_eq_false notHalf.2⟩
  unfold spelling
  split
  case h_9 => rw [plain, if_neg Bool.false_ne_true]
  all_goals exact absurd (other _ ‹_›) (by decide)

theorem not_any_not (settled : ∀ s ∈ last, (s.entry source).Settled) :
    last.any (·.text source = "not") = false := by
  cases last with
  | none => rfl
  | some s =>
      refine decide_eq_false fun same => ?_
      have unspelt : isSpelt (s.text source) = false := (settled s rfl).unspelt
      rw [same] at unspelt
      cases unspelt

theorem not_any_isShorthand (settled : ∀ s ∈ last, (s.entry source).Settled) (t : Token) :
    last.any (isShorthand source · t) = false := by
  cases last with
  | none => rfl
  | some s =>
      have notAt : s.text source ≠ "@" := (settled s rfl).notAt
      simp [isShorthand, notAt]

/-- Between settled tokens none is passed over. -/
theorem Orderly.settled_cons (h : Orderly source ends last position (t :: ts))
    (settled : ∀ s ∈ last, (s.entry source).Settled) :
    Follows source ends last t ∧ Orderly source ends (some t) t.span.stop ts :=
  h.cons (by rw [passesOver, not_any_not settled, Bool.false_and])

/-- No half of an operator can stand in an order that the grammar allows. -/
theorem Orderly.not_isHalf (h : Orderly source ends (some t) position ts)
    (settled : (t.entry source).Settled)
    (complete : Entry.Complete ((t :: ts).map (entry source))) :
    (t.entry source).isHalf = false := by
  have settledLast : ∀ s ∈ some t, (s.entry source).Settled := by
    rintro _ ⟨⟩
    exact settled
  cases ts with
  | nil =>
      rw [Bool.eq_false_iff]
      intro half
      obtain ⟨u, none, -⟩ := complete.1 half
      cases none
  | cons u ts =>
      by_cases isOperator : t.kind = .operator
      · rw [Bool.eq_false_iff]
        intro half
        obtain ⟨_, ⟨⟩, assign⟩ := complete.1 half
        rcases (h.settled_cons settledLast).1.admitted t rfl with admitted | shorthand
        · rw [isOperator, show u.kind = .assign from assign] at admitted
          cases admitted
        · exact absurd shorthand (Bool.eq_false_iff.1 (not_any_isShorthand settledLast u))
      · exact Entry.isHalf_eq_false isOperator settled

/-- No statement ends with the tokens in front. -/
theorem Terminated.append (inner : ∀ t ∈ tokens, t.span.stop ∉ ends) (h : Terminated ends ts) :
    Terminated ends (tokens ++ ts) := by
  induction tokens with
  | nil => exact h
  | cons t tokens ih =>
      obtain ⟨head, tail⟩ := List.forall_mem_cons.1 inner
      exact ⟨fun isEnd => absurd isEnd head, ih tail⟩

theorem Terminated.closing_eq (h : Terminated ends (last.toList ++ ts)) :
    closing ends last ts.head? = [] := by
  cases last with
  | none => rfl
  | some s =>
      unfold closing
      by_cases isEnd : s.span.stop ∈ ends
      · obtain ⟨u, isNext, semicolon⟩ : ∃ u ∈ ts.head?, u.kind = .semicolon := h.1 isEnd
        rw [isNext]
        simp [semicolon]
      · simp [isEnd]

/-- Where nothing is to be changed, what is written is the source. -/
theorem written_eq_remaining (h : Orderly source ends last position ts)
    (settled : ∀ s ∈ last, (s.entry source).Settled)
    (settledAll : ∀ t ∈ ts, (t.entry source).Settled)
    (complete : Entry.Complete (ts.map (entry source)))
    (terminated : Terminated ends (last.toList ++ ts)) :
    written source ends last ts = remaining source position := by
  have notNot := not_any_not settled
  have closed := terminated.closing_eq
  induction ts generalizing last position with
  | nil =>
      rw [written_nil, show closing ends last none = [] from closed, h.gap_eq notNot]
      rfl
  | cons t ts ih =>
      obtain ⟨settledHead, settledTail⟩ := List.forall_mem_cons.1 settledAll
      have settledLast : ∀ s ∈ some t, (s.entry source).Settled := by
        rintro _ ⟨⟩
        exact settledHead
      have passed : passesOver source last t = false := by rw [passesOver, notNot, Bool.false_and]
      obtain ⟨-, later⟩ := h.cons passed
      have terminatedTail : Terminated ends ((some t).toList ++ ts) := by
        cases last with
        | none => exact terminated
        | some s => exact terminated.2
      have spelt := spelling_of_settled settledHead (later.not_isHalf settledHead complete)
        (not_any_isShorthand settled t)
      rw [written_cons passed, show closing ends last (some t) = [] from closed, h.gap_eq notNot,
        spelt, ih later settledLast settledTail complete.2 terminatedTail
          (not_any_not settledLast) terminatedTail.closing_eq]
      cases h.laid with
      | cons leads split =>
          rw [split]
          simp

end MembershipLowering.Token
