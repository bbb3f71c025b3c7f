import MembershipLowering.Proofs.Text.Excerpt

/-! # The bytes of a text

A text in UTF-8, byte by byte. The bytes of one character stay together: no boundary falls
between them (`not_isBoundary_of_inside`), so what is decided by boundaries is decided for
whole characters (`Uniform`).
-/

namespace MembershipLowering.Text

/-- The UTF-8 form of a text. -/
def bytes (cs : List Char) : List UInt8 :=
  cs.flatMap String.utf8EncodeChar

@[simp] theorem bytes_nil : bytes [] = [] := rfl

@[simp] theorem bytes_cons (c : Char) (cs : List Char) :
    bytes (c :: cs) = String.utf8EncodeChar c ++ bytes cs := rfl

@[simp] theorem bytes_append (xs ys : List Char) : bytes (xs ++ ys) = bytes xs ++ bytes ys :=
  List.flatMap_append

theorem length_bytes (cs : List Char) : (bytes cs).length = byteLength cs := by
  induction cs with
  | nil => rfl
  | cons c cs ih =>
      rw [bytes_cons, List.length_append, String.length_utf8EncodeChar, ih, byteLength_cons]

/-- A character of ASCII is its own byte. -/
theorem exists_byte {c : Char} (ascii : c.toNat < 128) :
    ∃ b, String.utf8EncodeChar c = [b] ∧ Char.ofUInt8 b = c := by
  have small : c.val.toNat ≤ 127 := Nat.le_of_lt_succ ascii
  refine ⟨.ofNat c.toNat, by simp only [String.utf8EncodeChar, if_pos small]; rfl, ?_⟩
  apply Char.toNat_inj.1
  exact Nat.mod_eq_of_lt (Nat.lt_of_lt_of_le ascii (by decide))

/-- The bytes of any other character are not ASCII. -/
theorem le_of_mem_utf8EncodeChar {c : Char} {b : UInt8} (other : 128 ≤ c.toNat)
    (mem : b ∈ String.utf8EncodeChar c) : 128 ≤ (Char.ofUInt8 b).toNat := by
  have large : ¬c.val.toNat ≤ 127 := Nat.not_le.2 other
  have marked (n mark : Nat) (fits : n % 256 + mark < 256) (high : 128 ≤ mark) :
      128 ≤ (Char.ofUInt8 (UInt8.ofNat (n + mark))).toNat := by
    show 128 ≤ (n + mark) % 256
    omega
  simp only [String.utf8EncodeChar, if_neg large] at mem
  split at mem
  · simp only [List.mem_cons, List.not_mem_nil, or_false] at mem
    rcases mem with rfl | rfl <;> exact marked _ _ (by omega) (by omega)
  · split at mem
    · simp only [List.mem_cons, List.not_mem_nil, or_false] at mem
      rcases mem with rfl | rfl | rfl <;> exact marked _ _ (by omega) (by omega)
    · simp only [List.mem_cons, List.not_mem_nil, or_false] at mem
      rcases mem with rfl | rfl | rfl | rfl <;> exact marked _ _ (by omega) (by omega)

/-- Offset by offset the bytes make up a stretch of the text. -/
theorem flatMap_getElem?_range' (bs : List UInt8) (start count : Nat) :
    (List.range' start count).flatMap (fun o => bs[o]?.toList) = (bs.drop start).take count := by
  induction count generalizing start with
  | zero => simp
  | succ count ih =>
      rw [List.range'_succ, List.flatMap_cons, ih]
      cases at_ : bs[start]? with
      | none =>
          rw [List.getElem?_eq_none_iff] at at_
          simp [List.drop_eq_nil_of_le at_, List.drop_eq_nil_of_le (Nat.le_succ_of_le at_)]
      | some b =>
          obtain ⟨inside, same⟩ := List.getElem?_eq_some_iff.1 at_
          rw [List.drop_eq_getElem_cons inside, same]
          rfl

/-- No boundary falls between the bytes of a character. -/
theorem not_isBoundary_of_inside {front rest : List Char} {c : Char} {o : Nat}
    (hstart : byteLength front < o) (hstop : o < byteLength front + c.utf8Size) :
    ¬isBoundary o (front ++ c :: rest) = true := by
  intro boundary
  obtain ⟨upto, after, split, rfl⟩ := isBoundary_iff.1 boundary
  rcases List.append_eq_append_iff.1 split with ⟨mid, same, behind⟩ | ⟨mid, same, -⟩
  · cases mid with
    | nil =>
        rw [same, List.append_nil] at hstart
        exact Nat.lt_irrefl _ hstart
    | cons d mid =>
        obtain ⟨rfl, -⟩ := List.cons.inj behind
        rw [same, byteLength_append, byteLength_cons] at hstop
        omega
  · rw [same, byteLength_append] at hstart
    omega

/-- Every byte of a text belongs to a character. -/
theorem exists_char_of_lt {i : Nat} {cs : List Char} (inside : i < byteLength cs) :
    ∃ front c rest, cs = front ++ c :: rest ∧ byteLength front ≤ i ∧
      i < byteLength front + c.utf8Size := by
  induction cs generalizing i with
  | nil => exact absurd inside (Nat.not_lt_zero i)
  | cons c cs ih =>
      by_cases first : i < c.utf8Size
      · exact ⟨[], c, cs, rfl, Nat.zero_le i, by simpa using first⟩
      · rw [byteLength_cons] at inside
        obtain ⟨front, d, rest, rfl, lower, upper⟩ := ih (i := i - c.utf8Size) (by omega)
        exact ⟨c :: front, d, rest, rfl, by rw [byteLength_cons]; omega,
          by rw [byteLength_cons]; omega⟩

/-- What is decided for the offsets of bytes, and alike for all bytes of one character. -/
def Uniform (cs : List Char) (p : Nat → Bool) : Prop :=
  ∀ front c rest, cs = front ++ c :: rest → ∀ o, byteLength front ≤ o →
    o < byteLength front + c.utf8Size → p o = p (byteLength front)

/-- The range between two boundaries takes in whole characters. -/
theorem uniform_range {start stop : Nat} {cs : List Char} (hstart : isBoundary start cs = true)
    (hstop : isBoundary stop cs = true) :
    Uniform cs fun o => decide (start ≤ o) && decide (o < stop) := by
  rintro front c rest rfl o lower upper
  have same : (start ≤ o ∧ o < stop) ↔ start ≤ byteLength front ∧ byteLength front < stop := by
    have noStart : ¬(byteLength front < start ∧ start < byteLength front + c.utf8Size) :=
      fun h => not_isBoundary_of_inside h.1 h.2 hstart
    have noStop : ¬(byteLength front < stop ∧ stop < byteLength front + c.utf8Size) :=
      fun h => not_isBoundary_of_inside h.1 h.2 hstop
    omega
  simp only [← Bool.decide_and, same]

theorem Uniform.or {cs : List Char} {p q : Nat → Bool} (hp : Uniform cs p) (hq : Uniform cs q) :
    Uniform cs fun o => p o || q o := by
  intro front c rest split o lower upper
  simp only [hp front c rest split o lower upper, hq front c rest split o lower upper]

/-- Where the decision changes a character ends. -/
theorem Uniform.isBoundary_succ {cs : List Char} {p : Nat → Bool} (hp : Uniform cs p) {i : Nat}
    (inside : i < byteLength cs) (changes : p i ≠ p (i + 1)) : isBoundary (i + 1) cs = true := by
  obtain ⟨front, c, rest, split, lower, upper⟩ := exists_char_of_lt inside
  by_cases last : i + 1 = byteLength front + c.utf8Size
  · exact isBoundary_iff.2 ⟨front ++ [c], rest, by simp [split], by simp [last]⟩
  · refine absurd ?_ changes
    rw [hp front c rest split i lower upper, hp front c rest split (i + 1) (by omega) (by omega)]

end MembershipLowering.Text
