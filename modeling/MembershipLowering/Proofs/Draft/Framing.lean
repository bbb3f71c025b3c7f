import MembershipLowering.Proofs.Draft.History

/-! # Edits inside a range

Edits with all their offsets in one range of the source change nothing outside of it
(`Marks.Frames`). The two ends of the range differ: texts can be inserted at both, but a removal
deletes those at its end and not those at its start. So the texts at the start of the range stay,
and new ones come behind them.
-/

namespace MembershipLowering

namespace Draft

/-- The texts that are inserted at an offset. -/
def insertedAt (d : Draft) (offset : Nat) : List String :=
  ((d.slots.find? (·.offset = offset)).map (·.inserted)).getD []

/-- Whether a byte of the source belongs to a character that has been removed. -/
def isRemovedAt (d : Draft) (byte : Nat) : Bool :=
  d.slots.any fun s =>
    s.removed && s.char.any fun c => s.offset ≤ byte && byte < s.offset + c.utf8Size

end Draft

namespace Marks

/-- Between the two marks nothing has been done outside of `x`, and nothing in front of its
    start has been deleted. -/
structure Frames (x : Span) (m m' : Marks) : Prop where
  inserted : ∀ o, o < x.start ∨ x.stop < o → m'.inserted o = m.inserted o
  start : m.inserted x.start <+: m'.inserted x.start
  removed : ∀ o, o < x.start ∨ x.stop ≤ o → m'.removed o = m.removed o

variable {m m' m'' : Marks} {x y : Span} {source : String} {offset start stop : Nat}

namespace Frames

theorem refl (x : Span) (m : Marks) : Frames x m m :=
  ⟨fun _ _ => rfl, List.prefix_rfl, fun _ _ => rfl⟩

theorem trans (h : Frames x m m') (h' : Frames x m' m'') : Frames x m m'' where
  inserted o outside := (h'.inserted o outside).trans (h.inserted o outside)
  start := h.start.trans h'.start
  removed o outside := (h'.removed o outside).trans (h.removed o outside)

/-- What is done inside a range is done inside every wider one. -/
theorem widen (h : Frames x m m') (starts : y.start ≤ x.start) (stops : x.stop ≤ y.stop) :
    Frames y m m' where
  inserted o outside := h.inserted o (by omega)
  start := by
    rcases Nat.eq_or_lt_of_le starts with same | before
    · exact same ▸ h.start
    · have untouched : m'.inserted y.start = m.inserted y.start :=
        h.inserted y.start (.inl before)
      exact untouched ▸ List.prefix_rfl
  removed o outside := h.removed o (by omega)

theorem insert (m : Marks) (text : String) (starts : x.start ≤ offset) (stops : offset ≤ x.stop) :
    Frames x m (m.insert offset text) where
  inserted o outside := if_neg fun here => by omega
  start := by
    simp only [Marks.insert]
    split
    · exact List.prefix_append _ _
    · exact List.prefix_rfl
  removed _ _ := rfl

theorem remove (m : Marks) (starts : x.start ≤ start) (stops : stop ≤ x.stop) :
    Frames x m (m.remove start stop) where
  inserted o outside := m.inserted_remove_of_outside (by omega)
  start :=
    have untouched : (m.remove start stop).inserted x.start = m.inserted x.start :=
      m.inserted_remove_of_outside (.inl starts)
    untouched ▸ List.prefix_rfl
  removed o outside := m.removed_remove_of_outside (by omega)

end Frames

theorem insertedAt_draft (m : Marks) (source : String) (offset : Nat) :
    (m.draft source).insertedAt offset =
      if Text.isBoundary offset source.toList then m.inserted offset else [] := by
  rw [Draft.insertedAt]
  cases found : (m.draft source).slots.find? (·.offset = offset) with
  | none =>
      have absent : ¬Text.isBoundary offset source.toList = true := fun boundary => by
        obtain ⟨s, among, here⟩ := List.any_eq_true.1 (slot_iff_isBoundary.2 boundary)
        exact List.find?_eq_none.1 found s among here
      rw [if_neg absent]
      rfl
  | some s =>
      have here : s.offset = offset := by simpa using List.find?_some found
      obtain ⟨front, rest, split, rfl⟩ := mem_slots_iff.1 (List.mem_of_find?_eq_some found)
      simp only [Nat.zero_add] at here
      rw [if_pos (Text.isBoundary_iff.2 ⟨front, rest, split, here⟩)]
      simp [here]

theorem isRemovedAt_draft_iff (m : Marks) (source : String) (byte : Nat) :
    (m.draft source).isRemovedAt byte = true ↔ ∃ front c rest, source.toList = front ++ c :: rest ∧
      Text.byteLength front ≤ byte ∧ byte < Text.byteLength front + c.utf8Size ∧
      m.removed (Text.byteLength front) = true := by
  rw [Draft.isRemovedAt, any_slots_iff]
  constructor
  · rintro ⟨front, rest, split, holds⟩
    cases rest with
    | nil => simp at holds
    | cons c rest =>
        simp only [List.head?_cons, Option.any_some, Bool.and_eq_true, decide_eq_true_eq] at holds
        exact ⟨front, c, rest, split, holds.2.1, holds.2.2, holds.1⟩
  · rintro ⟨front, c, rest, split, lower, upper, removed⟩
    exact ⟨front, c :: rest, split, by simp [lower, upper, removed]⟩

/-- What a frame says about drafts, if its range ends on boundaries. -/
theorem Frames.draft (h : Frames x m m')
    (hstart : Text.isBoundary x.start source.toList = true)
    (hstop : Text.isBoundary x.stop source.toList = true) :
    (∀ byte, byte < x.start ∨ x.stop ≤ byte →
        (m'.draft source).isRemovedAt byte = (m.draft source).isRemovedAt byte) ∧
      (∀ offset, offset < x.start ∨ x.stop < offset →
        (m'.draft source).insertedAt offset = (m.draft source).insertedAt offset) ∧
      (m.draft source).insertedAt x.start <+: (m'.draft source).insertedAt x.start := by
  refine ⟨fun byte outside => ?_, fun offset outside => ?_, ?_⟩
  · rw [Bool.eq_iff_iff, isRemovedAt_draft_iff, isRemovedAt_draft_iff]
    -- The character of the byte starts on the same side, since no end of the range cuts it.
    have same : ∀ front c rest, source.toList = front ++ c :: rest →
        Text.byteLength front ≤ byte → byte < Text.byteLength front + c.utf8Size →
        m'.removed (Text.byteLength front) = m.removed (Text.byteLength front) := by
      intro front c rest split lower upper
      refine h.removed _ ?_
      by_cases before : byte < x.start
      · exact .inl (by omega)
      · refine .inr (Nat.not_lt.1 fun cut => ?_)
        exact Text.not_isBoundary_of_inside cut (by omega) (split ▸ hstop)
    constructor
    · rintro ⟨front, c, rest, split, lower, upper, removed⟩
      exact ⟨front, c, rest, split, lower, upper, same front c rest split lower upper ▸ removed⟩
    · rintro ⟨front, c, rest, split, lower, upper, removed⟩
      exact ⟨front, c, rest, split, lower, upper,
        (same front c rest split lower upper).trans removed⟩
  · rw [insertedAt_draft, insertedAt_draft, h.inserted offset outside]
  · rw [insertedAt_draft, insertedAt_draft, if_pos hstart, if_pos hstart]
    exact h.start

end Marks

end MembershipLowering
