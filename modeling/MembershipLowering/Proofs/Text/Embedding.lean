import MembershipLowering.Proofs.Text.Excerpt

/-! # Texts within texts

A text that stands in a larger one is found there unchanged, with all offsets greater by the
same number of bytes: slices, the texts of spans and excerpts stay what they are
(`slice?_shift`, `text_shift`, `excerpt_shift`).
-/

namespace MembershipLowering

namespace Span

/-- The span `n` bytes further behind. -/
def shift (n : Nat) (s : Span) : Span :=
  ⟨s.start + n, s.stop + n⟩

@[simp] theorem shift_start (n : Nat) (s : Span) : (s.shift n).start = s.start + n := rfl

@[simp] theorem shift_stop (n : Nat) (s : Span) : (s.shift n).stop = s.stop + n := rfl

end Span

namespace Text

/-- The text `part` stands in the text `whole`, from byte `n` on. -/
def Embeds (n : Nat) (part whole : List Char) : Prop :=
  ∃ before after, whole = before ++ part ++ after ∧ byteLength before = n

variable {n start stop : Nat} {part whole : List Char}

theorem slice?_shift (h : Embeds n part whole) (hstop : stop ≤ byteLength part) :
    slice? (start + n) (stop + n) whole = slice? start stop part := by
  obtain ⟨front, back, rfl, rfl⟩ := h
  apply Option.ext
  intro mid
  rw [slice?_eq_some_iff, slice?_eq_some_iff]
  constructor
  · rintro ⟨before, after, split, hbefore, hmid⟩
    rw [List.append_assoc, List.append_assoc] at split
    obtain ⟨before', rfl, split'⟩ := exists_of_append_eq_append split (by omega)
    rw [byteLength_append] at hbefore hmid
    rw [← List.append_assoc] at split'
    obtain ⟨after', rfl, -⟩ := exists_of_append_eq_append split'.symm (by
      rw [byteLength_append]
      omega)
    exact ⟨before', after', rfl, by omega, by omega⟩
  · rintro ⟨before, after, rfl, hbefore, hmid⟩
    refine ⟨front ++ before, after ++ back, by simp only [List.append_assoc], ?_, ?_⟩ <;>
      rw [byteLength_append] <;> omega

theorem Embeds.le (h : Embeds n part whole) : byteLength part + n ≤ byteLength whole := by
  obtain ⟨front, back, rfl, rfl⟩ := h
  rw [byteLength_append, byteLength_append]
  omega

theorem excerptFrom_shift (n start stop offset : Nat) (cs : List Char) :
    excerptFrom (start + n) (stop + n) (offset + n) cs = excerptFrom start stop offset cs := by
  induction cs generalizing offset with
  | nil => rfl
  | cons c cs ih =>
      have same : start + n ≤ offset + n ∧ offset + n < stop + n ↔
          start ≤ offset ∧ offset < stop := by omega
      rw [excerptFrom, excerptFrom, Nat.add_right_comm, ih]
      simp only [same]

theorem excerpt_shift (h : Embeds n part whole) (hstop : stop ≤ byteLength part) :
    excerpt (start + n) (stop + n) whole = excerpt start stop part := by
  obtain ⟨front, back, rfl, rfl⟩ := h
  have first : excerptFrom (start + byteLength front) (stop + byteLength front) 0 front = [] :=
    excerptFrom_of_le_start (by omega)
  have last : excerptFrom (start + byteLength front) (stop + byteLength front)
      (byteLength front + byteLength part) back = [] :=
    excerptFrom_of_stop_le (by omega) back
  have middle := excerptFrom_shift (byteLength front) start stop 0 part
  rw [Nat.zero_add] at middle
  simp only [excerpt, excerptFrom_append, byteLength_append, Nat.zero_add, first, middle, last,
    List.nil_append, List.append_nil]

end Text

/-- A span of the part has the same text as the shifted span of the whole. -/
theorem Span.text_shift {n : Nat} {source whole : String} {s : Span}
    (h : Text.Embeds n source.toList whole.toList)
    (hstop : s.stop ≤ Text.byteLength source.toList) :
    (s.shift n).text whole = s.text source := by
  rw [text, text, shift_start, shift_stop, Text.slice?_shift h hstop]

end MembershipLowering
