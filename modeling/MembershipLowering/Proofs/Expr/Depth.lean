import MembershipLowering.Proofs.Expr.Derivation
import MembershipLowering.Proofs.Expr.Height

/-! # How deep accepted expressions are

Readers with `n` levels below them accept no expression that is deeper than `n`
(`depth_of_nested`). Loops over operators and over what follows an expression put what was
read before in front of a new part, so they go on at one depth.
-/

namespace MembershipLowering

@[simp] theorem Expr.depth_parenthesize (start stop : Nat) (e : Expr) :
    (e.parenthesize start stop).depth = e.depth := by
  cases e <;> rfl

namespace Parser

/-- Readers that accept only what is at most `n` deep. -/
structure Nested.Within (inner : Nested) (n : Nat) : Prop where
  assignment : ∀ {inside : Bool} {ts : List Token} {r : Reading Expr ts},
    inner.assignment inside ts = .ok r → r.value.depth ≤ n
  operand : ∀ {level : Nat} {inside : Bool} {ts : List Token} {r : Reading Expr ts},
    inner.operand level inside ts = .ok r → r.value.depth ≤ n
  unary : ∀ {inside : Bool} {ts : List Token} {r : Reading Expr ts},
    inner.unary inside ts = .ok r → r.value.depth ≤ n

variable {source : String} {inner : Nested} {n : Nat} {inside : Bool} {ts : List Token}

theorem depth_of_enclosed (within : inner.Within n) {close : TokenKind} {what : Expectation}
    {r : Reading (Expr × Token) ts} (h : enclosed source inner close what ts = .ok r) :
    r.value.1.depth ≤ n := by
  unfold enclosed at h
  split at h
  · cases h
  · rename_i e read
    obtain ⟨t, -, rfl⟩ := ok_of_map h
    exact within.assignment read

theorem depth_of_items (within : inner.Within n) {close : TokenKind} {what : Expectation}
    {ts : List Token} {r : Reading (List Expr × Token) ts}
    (h : items source inner close what ts = .ok r) : Expr.depthAll r.value.1 ≤ n := by
  unfold items at h
  extract_lets more at h
  have of_more : more = .ok r → Expr.depthAll r.value.1 ≤ n := by
    intro read
    simp only [more] at read
    split at read
    · cases read
    · rename_i item readItem
      have head := within.assignment readItem
      have of_closed : (expect source close what true item.rest).map (fun t =>
            item.andThen (t.map fun t => ([item.value], t))) = .ok r →
          Expr.depthAll r.value.1 ≤ n := by
        intro readClose
        obtain ⟨t, -, rfl⟩ := ok_of_map readClose
        exact Nat.max_le.2 ⟨head, Nat.zero_le _⟩
      split at read
      · exact of_closed read
      · rename_i comma next
        split at read
        · have shorter := Nat.lt_trans comma.shorter item.shorter
          obtain ⟨tail, readTail, rfl⟩ := ok_of_map read
          exact Nat.max_le.2 ⟨head, depth_of_items within readTail⟩
        · exact of_closed read
  split at h
  · split at h
    · cases h
      exact Nat.zero_le _
    · exact of_more h
  · exact of_more h
termination_by ts.length

/-- Brackets go one step deeper. -/
theorem depth_of_primary (within : inner.Within n) {r : Reading Expr ts}
    (h : primary source inner inside ts = .ok r) : r.value.depth ≤ n + 1 := by
  unfold primary at h
  split at h
  · cases h
  · rename_i t next
    split at h
    · cases h
      have shallow : 1 ≤ n + 1 := Nat.le_add_left 1 n
      unfold atom
      split
      · split
        · split <;> exact shallow
        · exact shallow
      · exact shallow
    · split at h
      · obtain ⟨p, read, rfl⟩ := ok_of_map h
        exact Nat.succ_le_succ (depth_of_items within read)
      · obtain ⟨p, read, rfl⟩ := ok_of_map h
        have inner := depth_of_enclosed within read
        show (p.value.1.parenthesize _ _).depth ≤ n + 1
        rw [Expr.depth_parenthesize]
        exact Nat.le_succ_of_le inner
      · cases h

theorem depth_of_postfixes (within : inner.Within n) {object r : Reading Expr ts}
    (h : postfixes source inner inside object = .ok r) (first : object.value.depth ≤ n + 1) :
    r.value.depth ≤ n + 1 := by
  unfold postfixes at h
  split at h
  · cases h
    exact first
  · rename_i t next
    extract_lets outer at h
    split at h
    · split at h
      · cases h
      · rename_i name readName
        have shorter := Nat.lt_trans name.shorter t.shorter
        exact depth_of_postfixes within h first
    · split at h
      · split at h
        · cases h
        · rename_i key readKey
          have shorter := Nat.lt_trans key.shorter t.shorter
          have second := depth_of_enclosed within readKey
          exact depth_of_postfixes within h (Nat.max_le.2 ⟨first, Nat.succ_le_succ second⟩)
      · split at h
        · split at h
          · cases h
          · rename_i arguments readArguments
            have shorter := Nat.lt_trans arguments.shorter t.shorter
            have others := depth_of_items within readArguments
            exact depth_of_postfixes within h (Nat.max_le.2 ⟨first, Nat.succ_le_succ others⟩)
        · cases h
          exact first
termination_by object.rest.length

theorem depth_of_unary (within : inner.Within n) {r : Reading Expr ts}
    (h : unary source inner inside ts = .ok r) : r.value.depth ≤ n + 1 := by
  unfold unary at h
  extract_lets unsigned at h
  have of_unsigned : unsigned = .ok r → r.value.depth ≤ n + 1 := by
    intro read
    simp only [unsigned] at read
    split at read
    · cases read
    · rename_i p readPrimary
      exact depth_of_postfixes within read (depth_of_primary within readPrimary)
  split at h
  · exact of_unsigned h
  · split at h
    · obtain ⟨operand, read, rfl⟩ := ok_of_map h
      exact Nat.succ_le_succ (within.unary read)
    · exact of_unsigned h

theorem depth_of_combine {t : Token} {l r e : Expr} (h : combine source t l r = .ok e) :
    e.depth = max l.depth (r.depth + 1) := by
  unfold combine at h
  extract_lets extent text at h
  split at h
  · cases h
    rfl
  · split at h
    · cases h
      rfl
    · cases h

theorem depth_of_operators (within : inner.Within n) {level : Nat} {left r : Reading Expr ts}
    (h : operators source inner level inside left = .ok r) (first : left.value.depth ≤ n + 1) :
    r.value.depth ≤ n + 1 := by
  unfold operators at h
  split at h
  · cases h
    exact first
  · rename_i t next
    split at h
    · cases h
      exact first
    · split at h
      · cases h
        exact first
      · split at h
        · cases h
        · rename_i right readRight
          split at h
          · cases h
          · rename_i e combined
            have shorter := Nat.lt_trans right.shorter t.shorter
            refine depth_of_operators within h ?_
            show e.depth ≤ n + 1
            rw [depth_of_combine combined]
            exact Nat.max_le.2 ⟨first, Nat.succ_le_succ (within.operand readRight)⟩
termination_by left.rest.length

theorem depth_of_operand (within : inner.Within n) {level : Nat} {r : Reading Expr ts}
    (h : operand source inner level inside ts = .ok r) : r.value.depth ≤ n + 1 := by
  unfold operand at h
  split at h
  · cases h
  · rename_i left readLeft
    exact depth_of_operators within h (depth_of_unary within readLeft)

theorem depth_of_assignment (within : inner.Within n) {r : Reading Expr ts}
    (h : assignment source inner inside ts = .ok r) : r.value.depth ≤ n + 1 := by
  unfold assignment at h
  split at h
  · cases h
  · rename_i target readTarget
    have first := depth_of_operand within readTarget
    split at h
    · cases h
      exact first
    · split at h
      · cases h
        exact first
      · split at h
        · cases h
        · obtain ⟨value, readValue, rfl⟩ := ok_of_map h
          exact Nat.max_le.2 ⟨first, Nat.succ_le_succ (within.assignment readValue)⟩

/-- Readers with `n` levels below them accept nothing deeper. -/
theorem depth_of_nested (source : String) (n : Nat) : (nested source n).Within n := by
  induction n with
  | zero =>
      constructor
      · intro inside ts r h
        cases h
      · intro level inside ts r h
        cases h
      · intro inside ts r h
        cases h
  | succ n ih =>
      exact ⟨depth_of_assignment ih, depth_of_operand ih, depth_of_unary ih⟩

/-- No statement of an accepted source is deeper than the limit. -/
theorem depth_of_statements {ts : List Token} {es : List Expr}
    (h : statements source ts = .ok es) : Expr.depthAll es ≤ maxDepth := by
  fun_induction statements source ts generalizing es with
  | case1 =>
      cases h
      exact Nat.zero_le _
  | case2 t rest separates ih => exact ih h
  | case3 => cases h
  | case4 t rest _ e read ended =>
      cases h
      exact Nat.max_le.2 ⟨(depth_of_nested source maxDepth).assignment read, Nat.zero_le _⟩
  | case5 t rest _ e read u later ahead separates ih =>
      obtain ⟨es, readLater, rfl⟩ := ok_of_map h
      exact Nat.max_le.2 ⟨(depth_of_nested source maxDepth).assignment read, ih readLater⟩
  | case6 => cases h

end Parser

end MembershipLowering
