import MembershipLowering.Token.Basic

/-! # Brackets among tokens

Tokens are balanced if every bracket among them belongs to another one of its own sort
(`Balanced`). Two brackets belong together if the tokens between them are balanced, and then
they are a pair (`Brackets`). Counting the open brackets gives the same account:
behind balanced tokens as many are open as in front of them, and not fewer in between
(`Balanced.le_nesting`).
-/

namespace MembershipLowering

namespace TokenKind

/-- The bracket that closes this one. -/
def closer? : TokenKind → Option TokenKind
  | lparen => some rparen
  | lbracket => some rbracket
  | _ => none

/-- The number of open brackets behind a token, of which `depth` were open in front of it. -/
def nesting : TokenKind → (depth : Nat) → Nat
  | lparen, depth | lbracket, depth => depth + 1
  | rparen, depth | rbracket, depth => depth - 1
  | _, depth => depth

/-- The tokens that open or close something. -/
def isBracket : TokenKind → Bool
  | lparen | rparen | lbracket | rbracket => true
  | _ => false

theorem nesting_of_plain {kind : TokenKind} (h : kind.isBracket = false) (depth : Nat) :
    kind.nesting depth = depth := by
  cases kind <;> first | rfl | cases h

theorem nesting_of_separator {kind : TokenKind} (h : kind.isSeparator = true) (depth : Nat) :
    kind.nesting depth = depth := by
  cases kind <;> first | rfl | cases h

theorem nesting_of_closer? {kind closer : TokenKind} (h : kind.closer? = some closer)
    (depth : Nat) : kind.nesting depth = depth + 1 ∧ closer.nesting (depth + 1) = depth := by
  cases kind <;> cases h <;> exact ⟨rfl, rfl⟩

/-- Brackets separate no statements. -/
theorem not_isSeparator_of_closer? {kind closer : TokenKind} (h : kind.closer? = some closer) :
    kind.isSeparator = false ∧ closer.isSeparator = false := by
  cases kind <;> cases h <;> exact ⟨rfl, rfl⟩

end TokenKind

namespace Token

/-- The number of open brackets behind several tokens. -/
def nesting (depth : Nat) (ts : List Token) : Nat :=
  ts.foldl (fun depth t => t.kind.nesting depth) depth

@[simp] theorem nesting_nil (depth : Nat) : nesting depth [] = depth := rfl

@[simp] theorem nesting_cons (depth : Nat) (t : Token) (ts : List Token) :
    nesting depth (t :: ts) = nesting (t.kind.nesting depth) ts := rfl

@[simp] theorem nesting_append (depth : Nat) (ts us : List Token) :
    nesting depth (ts ++ us) = nesting (nesting depth ts) us :=
  List.foldl_append ..

/-- Each bracket is closed by another one of its sort. -/
inductive Balanced : List Token → Prop where
  | nil : Balanced []
  | plain {t : Token} {ts : List Token} (other : t.kind.isBracket = false)
      (later : Balanced ts) : Balanced (t :: ts)
  | pair {opening closing : Token} {inner ts : List Token}
      (matched : opening.kind.closer? = some closing.kind) (inside : Balanced inner)
      (later : Balanced ts) : Balanced (opening :: (inner ++ closing :: ts))

namespace Balanced

variable {ts us : List Token}

theorem append (h : Balanced ts) (h' : Balanced us) : Balanced (ts ++ us) := by
  induction h with
  | nil => exact h'
  | plain other _ ih => exact .plain other ih
  | pair matched inside _ _ ih =>
      rw [List.cons_append, List.append_assoc, List.cons_append]
      exact .pair matched inside ih

theorem of_plain (h : ∀ t ∈ ts, t.kind.isBracket = false) : Balanced ts := by
  induction ts with
  | nil => exact .nil
  | cons t ts ih =>
      exact .plain (h t List.mem_cons_self) (ih fun u hu => h u (List.mem_cons_of_mem _ hu))

/-- What is opened is closed again. -/
theorem nesting_eq (h : Balanced ts) (depth : Nat) : nesting depth ts = depth := by
  induction h generalizing depth with
  | nil => rfl
  | plain other _ ih => rw [nesting_cons, TokenKind.nesting_of_plain other, ih]
  | pair matched _ _ ih ih' =>
      have counts := TokenKind.nesting_of_closer? matched depth
      rw [nesting_cons, counts.1, nesting_append, ih, nesting_cons, counts.2, ih']

/-- Nothing is closed that was opened in front. -/
theorem le_nesting (h : Balanced (ts ++ us)) (depth : Nat) : depth ≤ nesting depth ts := by
  generalize whole : ts ++ us = all at h
  induction h generalizing ts us depth with
  | nil =>
      rw [(List.append_eq_nil_iff.1 whole).1]
      exact Nat.le_refl depth
  | @plain t rest other _ ih =>
      cases ts with
      | nil => exact Nat.le_refl depth
      | cons u ts =>
          obtain ⟨rfl, same⟩ := List.cons.inj whole
          rw [nesting_cons, TokenKind.nesting_of_plain other]
          exact ih depth same
  | @pair opening closing inner rest matched inside _ ih ih' =>
      have counts := TokenKind.nesting_of_closer? matched depth
      cases ts with
      | nil => exact Nat.le_refl depth
      | cons u ts =>
          obtain ⟨rfl, same⟩ := List.cons.inj whole
          rw [nesting_cons, counts.1]
          rcases List.append_eq_append_iff.1 same with ⟨more, part, -⟩ | ⟨more, rfl, behind⟩
          · exact Nat.le_of_succ_le (ih (depth + 1) part.symm)
          · rw [nesting_append, inside.nesting_eq]
            cases more with
            | nil => exact Nat.le_succ depth
            | cons v more =>
                obtain ⟨rfl, later⟩ := List.cons.inj behind
                rw [nesting_cons, counts.2]
                exact ih' depth later.symm

end Balanced

/-- The two tokens are brackets that belong together, and `inner` is what stands between
    them. -/
structure Brackets (tokens : List Token) (opening : Token) (inner : List Token)
    (closing : Token) : Prop where
  matched : opening.kind.closer? = some closing.kind
  balanced : Balanced inner
  consecutive : opening :: (inner ++ [closing]) <:+: tokens

namespace Brackets

variable {tokens us inner : List Token} {opening closing t : Token}

theorem mono (h : Brackets tokens opening inner closing) (part : tokens <:+: us) :
    Brackets us opening inner closing :=
  ⟨h.matched, h.balanced, h.consecutive.trans part⟩

theorem ne_newline (h : Brackets tokens opening inner closing) :
    opening.kind ≠ .newline ∧ closing.kind ≠ .newline := by
  obtain ⟨plain, plain'⟩ := TokenKind.not_isSeparator_of_closer? h.matched
  constructor
  · intro newline
    rw [newline] at plain
    cases plain
  · intro newline
    rw [newline] at plain'
    cases plain'

/-- In front of what is enclosed, or of the closing bracket, a bracket is open. -/
theorem exists_nesting (h : Brackets tokens opening inner closing)
    (inside : t ∈ inner ++ [closing]) :
    ∃ front back, tokens = front ++ t :: back ∧ 0 < nesting 0 front := by
  obtain ⟨before, after, rfl⟩ := h.consecutive
  obtain ⟨first, second, same⟩ := List.append_of_mem inside
  have counts := (TokenKind.nesting_of_closer? h.matched (nesting 0 before)).1
  refine ⟨before ++ opening :: first, second ++ after, by simp [same], ?_⟩
  rw [nesting_append, nesting_cons, counts]
  have part : ∃ rest, first ++ rest = inner := by
    rcases List.append_eq_append_iff.1 same with ⟨more, rfl, last⟩ | ⟨more, rfl, -⟩
    · have length := congrArg List.length last
      simp only [List.length_append, List.length_cons, List.length_nil] at length
      obtain rfl : more = [] := List.eq_nil_of_length_eq_zero (by omega)
      exact ⟨[], by simp⟩
    · exact ⟨more, rfl⟩
  obtain ⟨rest, rfl⟩ := part
  exact Nat.lt_of_lt_of_le (Nat.succ_pos _) (h.balanced.le_nesting _)

end Brackets

end Token

end MembershipLowering
