/-! # Byte offsets in a text

A text is a list of characters. Positions in it count the bytes of its UTF-8
form, so not every number is a position: some fall inside a character. Cutting
is therefore partial, and `slice?_eq_some_iff` says exactly which cuts succeed.
-/

namespace MembershipLowering.Text

/-- Length of a text in UTF-8 bytes. -/
def byteLength : List Char → Nat
  | [] => 0
  | c :: cs => c.utf8Size + byteLength cs

@[simp] theorem byteLength_nil : byteLength [] = 0 := rfl

@[simp] theorem byteLength_cons (c : Char) (cs : List Char) :
    byteLength (c :: cs) = c.utf8Size + byteLength cs := rfl

@[simp] theorem byteLength_append (xs ys : List Char) :
    byteLength (xs ++ ys) = byteLength xs + byteLength ys := by
  induction xs with
  | nil => simp
  | cons c cs ih => simp [ih, Nat.add_assoc]

/-- A character takes at least one byte. -/
theorem length_le_byteLength (cs : List Char) : cs.length ≤ byteLength cs := by
  induction cs with
  | nil => exact Nat.le_refl _
  | cons c cs ih =>
    have := c.utf8Size_pos
    rw [List.length_cons, byteLength_cons]
    omega

theorem byteLength_pos {cs : List Char} (h : cs ≠ []) : 0 < byteLength cs :=
  Nat.lt_of_lt_of_le (List.length_pos_iff.2 h) (length_le_byteLength cs)

/-- What follows the first `n` bytes, if those end between two characters. -/
def dropBytes? : Nat → List Char → Option (List Char)
  | 0, cs => some cs
  | _ + 1, [] => none
  | n + 1, c :: cs =>
    if c.utf8Size ≤ n + 1 then dropBytes? (n + 1 - c.utf8Size) cs else none

/-- The first `n` bytes, if those end between two characters. -/
def takeBytes? : Nat → List Char → Option (List Char)
  | 0, _ => some []
  | _ + 1, [] => none
  | n + 1, c :: cs =>
    if c.utf8Size ≤ n + 1 then (takeBytes? (n + 1 - c.utf8Size) cs).map (c :: ·) else none

/-- The text from byte `start` up to byte `stop`. Fails when the bounds are the
    wrong way round, past the end, or inside a character. -/
def slice? (start stop : Nat) (cs : List Char) : Option (List Char) :=
  if start ≤ stop then (dropBytes? start cs).bind (takeBytes? (stop - start)) else none

/-- Dropping `n` bytes succeeds exactly by splitting off a part of `n` bytes. -/
theorem dropBytes?_eq_some_iff {n : Nat} {cs rest : List Char} :
    dropBytes? n cs = some rest ↔ ∃ front, cs = front ++ rest ∧ byteLength front = n := by
  fun_induction dropBytes? n cs with
  | case1 cs =>
    constructor
    · rintro ⟨⟩
      exact ⟨[], rfl, rfl⟩
    · rintro ⟨front, rfl, hfront⟩
      cases front with
      | nil => rfl
      | cons c _ => have := c.utf8Size_pos; simp at hfront; omega
  | case2 n =>
    constructor
    · simp
    · rintro ⟨front, hsplit, hfront⟩
      obtain ⟨rfl, -⟩ := List.append_eq_nil_iff.1 hsplit.symm
      simp at hfront
  | case3 n c cs hle ih =>
    rw [ih]
    clear ih
    constructor
    · rintro ⟨front, rfl, hfront⟩
      exact ⟨c :: front, rfl, by simp [hfront]; omega⟩
    · rintro ⟨front, hsplit, hfront⟩
      cases front with
      | nil => simp at hfront
      | cons d front =>
        obtain ⟨rfl, rfl⟩ := List.cons.inj hsplit
        exact ⟨front, rfl, by simp at hfront; omega⟩
  | case4 n c cs hle =>
    constructor
    · simp
    · rintro ⟨front, hsplit, hfront⟩
      cases front with
      | nil => simp at hfront
      | cons d front =>
        obtain ⟨rfl, rfl⟩ := List.cons.inj hsplit
        simp at hfront
        omega

/-- Taking `n` bytes succeeds exactly by splitting off a part of `n` bytes. -/
theorem takeBytes?_eq_some_iff {n : Nat} {cs front : List Char} :
    takeBytes? n cs = some front ↔ ∃ rest, cs = front ++ rest ∧ byteLength front = n := by
  fun_induction takeBytes? n cs generalizing front with
  | case1 cs =>
    constructor
    · rintro ⟨⟩
      exact ⟨cs, rfl, rfl⟩
    · rintro ⟨rest, rfl, hfront⟩
      cases front with
      | nil => rfl
      | cons c _ => have := c.utf8Size_pos; simp at hfront; omega
  | case2 n =>
    constructor
    · simp
    · rintro ⟨rest, hsplit, hfront⟩
      obtain ⟨rfl, -⟩ := List.append_eq_nil_iff.1 hsplit.symm
      simp at hfront
  | case3 n c cs hle ih =>
    simp only [Option.map_eq_some_iff, ih]
    clear ih
    constructor
    · rintro ⟨front, ⟨rest, rfl, hfront⟩, rfl⟩
      exact ⟨rest, rfl, by simp [hfront]; omega⟩
    · rintro ⟨rest, hsplit, hfront⟩
      cases front with
      | nil => simp at hfront
      | cons d front =>
        obtain ⟨rfl, rfl⟩ := List.cons.inj hsplit
        exact ⟨front, ⟨rest, rfl, by simp at hfront; omega⟩, rfl⟩
  | case4 n c cs hle =>
    constructor
    · simp
    · rintro ⟨rest, hsplit, hfront⟩
      cases front with
      | nil => simp at hfront
      | cons d front =>
        obtain ⟨rfl, rfl⟩ := List.cons.inj hsplit
        simp at hfront
        omega

/-- A slice is the middle of a split of the text whose parts have the right
    numbers of bytes. -/
theorem slice?_eq_some_iff {start stop : Nat} {cs mid : List Char} :
    slice? start stop cs = some mid ↔
      ∃ before after, cs = before ++ mid ++ after ∧
        byteLength before = start ∧ byteLength before + byteLength mid = stop := by
  unfold slice?
  split
  · rename_i hle
    simp only [Option.bind_eq_some_iff, dropBytes?_eq_some_iff, takeBytes?_eq_some_iff]
    constructor
    · rintro ⟨rest, ⟨before, rfl, hbefore⟩, after, rfl, hmid⟩
      exact ⟨before, after, by simp, hbefore, by omega⟩
    · rintro ⟨before, after, rfl, hbefore, hmid⟩
      exact ⟨mid ++ after, ⟨before, by simp, hbefore⟩, after, rfl, by omega⟩
  · rename_i hle
    constructor
    · simp
    · rintro ⟨before, after, -, hbefore, hmid⟩
      omega

/-- Whether byte offset `n` of the text lies between two characters or at one of
    its ends. -/
def isBoundary (n : Nat) (cs : List Char) : Bool :=
  (dropBytes? n cs).isSome

/-- A boundary splits the text. -/
theorem isBoundary_iff {n : Nat} {cs : List Char} :
    isBoundary n cs = true ↔ ∃ front rest, cs = front ++ rest ∧ byteLength front = n := by
  rw [isBoundary, Option.isSome_iff_exists]
  constructor
  · rintro ⟨rest, h⟩
    obtain ⟨front, hsplit, hfront⟩ := dropBytes?_eq_some_iff.1 h
    exact ⟨front, rest, hsplit, hfront⟩
  · rintro ⟨front, rest, hsplit, hfront⟩
    exact ⟨rest, dropBytes?_eq_some_iff.2 ⟨front, hsplit, hfront⟩⟩

end MembershipLowering.Text
