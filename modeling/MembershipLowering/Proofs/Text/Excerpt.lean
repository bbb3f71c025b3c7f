import MembershipLowering.Span

/-! # Excerpts

The characters of a text that begin at certain byte offsets. Unlike a slice, an
excerpt exists for all offsets, and neighbouring excerpts always join. Between
boundaries of the text both are the same (`slice?_eq_excerpt`).
-/

namespace MembershipLowering.Text

/-- The characters that begin in `[start, stop)`, of a text that itself begins at
    byte `offset`. -/
def excerptFrom (start stop : Nat) : (offset : Nat) → List Char → List Char
  | _, [] => []
  | offset, c :: cs =>
    (if start ≤ offset ∧ offset < stop then [c] else []) ++
      excerptFrom start stop (offset + c.utf8Size) cs

/-- The characters of a text that begin in `[start, stop)`. -/
def excerpt (start stop : Nat) (cs : List Char) : List Char :=
  excerptFrom start stop 0 cs

theorem excerptFrom_cons (start stop offset : Nat) (c : Char) (cs : List Char) :
    excerptFrom start stop offset (c :: cs) =
      (if start ≤ offset ∧ offset < stop then [c] else []) ++
        excerptFrom start stop (offset + c.utf8Size) cs := rfl

theorem excerptFrom_append (start stop offset : Nat) (xs ys : List Char) :
    excerptFrom start stop offset (xs ++ ys) =
      excerptFrom start stop offset xs ++ excerptFrom start stop (offset + byteLength xs) ys := by
  induction xs generalizing offset with
  | nil => rfl
  | cons c cs ih =>
      simp only [List.cons_append, excerptFrom_cons, ih, byteLength_cons, Nat.add_assoc,
        List.append_assoc]

/-- Nothing begins in a range that ends before the text does begin. -/
theorem excerptFrom_of_stop_le {start stop offset : Nat} (h : stop ≤ offset) (cs : List Char) :
    excerptFrom start stop offset cs = [] := by
  induction cs generalizing offset with
  | nil => rfl
  | cons c cs ih =>
      rw [excerptFrom_cons, if_neg (by omega), ih (by omega)]
      rfl

/-- Nothing begins in a range behind the text. -/
theorem excerptFrom_of_le_start {start stop offset : Nat} {cs : List Char}
    (h : offset + byteLength cs ≤ start) : excerptFrom start stop offset cs = [] := by
  induction cs generalizing offset with
  | nil => rfl
  | cons c cs ih =>
      have hpos := c.utf8Size_pos
      rw [byteLength_cons] at h
      rw [excerptFrom_cons, if_neg (by omega), ih (by omega)]
      rfl

/-- A range around the text takes in all of it. -/
theorem excerptFrom_of_within {start stop offset : Nat} {cs : List Char}
    (hstart : start ≤ offset) (hstop : offset + byteLength cs ≤ stop) :
    excerptFrom start stop offset cs = cs := by
  induction cs generalizing offset with
  | nil => rfl
  | cons c cs ih =>
      have hpos := c.utf8Size_pos
      rw [byteLength_cons] at hstop
      rw [excerptFrom_cons, if_pos (by omega), ih (by omega) (by omega)]
      rfl

/-- Of a text in three parts, the excerpt from the first seam to the second is the
    middle part. -/
theorem excerpt_append_append (before mid after : List Char) :
    excerpt (byteLength before) (byteLength before + byteLength mid) (before ++ mid ++ after) =
      mid := by
  rw [excerpt, excerptFrom_append, excerptFrom_append, byteLength_append,
    excerptFrom_of_le_start (by omega), excerptFrom_of_within (by omega) (by omega),
    excerptFrom_of_stop_le (by omega), List.nil_append, List.append_nil]

@[simp] theorem excerpt_self (start : Nat) (cs : List Char) : excerpt start start cs = [] := by
  have empty : ∀ offset, excerptFrom start start offset cs = [] := by
    induction cs with
    | nil => intro offset; rfl
    | cons c cs ih =>
        intro offset
        rw [excerptFrom_cons, if_neg (by omega), ih]
        rfl
  exact empty 0

/-- Neighbouring excerpts join. -/
theorem excerpt_append_excerpt {start mid stop : Nat} (h₁ : start ≤ mid) (h₂ : mid ≤ stop)
    (cs : List Char) : excerpt start mid cs ++ excerpt mid stop cs = excerpt start stop cs := by
  have joined : ∀ offset, excerptFrom start mid offset cs ++ excerptFrom mid stop offset cs =
      excerptFrom start stop offset cs := by
    induction cs with
    | nil => intro offset; rfl
    | cons c cs ih =>
        intro offset
        by_cases before : offset < mid
        · have first : (start ≤ offset ∧ offset < mid) ↔ (start ≤ offset ∧ offset < stop) := by
            omega
          have second : ¬(mid ≤ offset ∧ offset < stop) := by omega
          simp only [excerptFrom_cons, first, if_neg second, List.nil_append, List.append_assoc, ih]
        · have second : (mid ≤ offset ∧ offset < stop) ↔ (start ≤ offset ∧ offset < stop) := by
            omega
          rw [excerptFrom_of_stop_le (by omega), List.nil_append]
          simp only [excerptFrom_cons, second]
          have none : excerptFrom start mid (offset + c.utf8Size) cs = [] :=
            excerptFrom_of_stop_le (by omega) cs
          rw [← ih, none, List.nil_append]
  exact joined 0

/-- Of two ways to split a text, the one with the shorter front splits the other front. -/
theorem exists_of_append_eq_append {xs ys xs' ys' : List Char} (h : xs ++ ys = xs' ++ ys')
    (hle : byteLength xs ≤ byteLength xs') : ∃ mid, xs' = xs ++ mid ∧ ys = mid ++ ys' := by
  rcases List.append_eq_append_iff.1 h with ⟨mid, front, back⟩ | ⟨mid, front, back⟩
  · exact ⟨mid, front, back⟩
  · rw [front, byteLength_append] at hle
    cases mid with
    | nil => exact ⟨[], by simpa using front.symm, by simpa using back.symm⟩
    | cons c cs =>
        have hpos := c.utf8Size_pos
        rw [byteLength_cons] at hle
        omega

/-- Between two boundaries a slice is the excerpt. -/
theorem slice?_eq_excerpt {start stop : Nat} {cs : List Char} (hstart : isBoundary start cs = true)
    (hstop : isBoundary stop cs = true) (hle : start ≤ stop) :
    slice? start stop cs = some (excerpt start stop cs) := by
  obtain ⟨before, rest, hsplit, rfl⟩ := isBoundary_iff.1 hstart
  obtain ⟨upto, after, hsplit', rfl⟩ := isBoundary_iff.1 hstop
  obtain ⟨mid, rfl, -⟩ := exists_of_append_eq_append (hsplit.symm.trans hsplit') hle
  rw [hsplit', byteLength_append, excerpt_append_append]
  exact slice?_eq_some_iff.2 ⟨before, after, rfl, rfl, rfl⟩

theorem isBoundary_zero (cs : List Char) : isBoundary 0 cs = true :=
  isBoundary_iff.2 ⟨[], cs, rfl, rfl⟩

theorem isBoundary_byteLength (cs : List Char) : isBoundary (byteLength cs) cs = true :=
  isBoundary_iff.2 ⟨cs, [], by simp, rfl⟩

theorem le_byteLength_of_isBoundary {n : Nat} {cs : List Char} (h : isBoundary n cs = true) :
    n ≤ byteLength cs := by
  obtain ⟨front, rest, rfl, rfl⟩ := isBoundary_iff.1 h
  rw [byteLength_append]
  exact Nat.le_add_right _ _

end MembershipLowering.Text

namespace MembershipLowering.Span

/-- Between two boundaries the text of a span is the excerpt. -/
theorem toList_text {s : Span} {source : String}
    (hstart : Text.isBoundary s.start source.toList = true)
    (hstop : Text.isBoundary s.stop source.toList = true) (hle : s.start ≤ s.stop) :
    (s.text source).toList = Text.excerpt s.start s.stop source.toList := by
  rw [text, Text.slice?_eq_excerpt hstart hstop hle, Option.getD_some, String.toList_ofList]

end MembershipLowering.Span
