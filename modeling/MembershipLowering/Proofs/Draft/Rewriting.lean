import MembershipLowering.Proofs.Draft.Marks

/-! # Text written in place of source text

`Rewrites keep source m m' start stop text` says that the edits from `m` to `m'` put
`text` where the source has `[start, stop)`, behind what was inserted at `start`
before, touch nothing else, and remove no offset that `keep` holds of. Steps from
left to right join (`Rewrites.trans`). The one step that does not go from left to
right is a removal in front of which something is written later
(`Rewrites.before_removal`).
-/

namespace MembershipLowering.Marks

/-- The edits from `m` to `m'` write `text` in place of the source from `start` to
    `stop`. -/
structure Rewrites (keep : Nat → Prop) (source : String) (m m' : Marks) (start stop : Nat)
    (text : List Char) : Prop where
  le : start ≤ stop
  boundary : Text.isBoundary start source.toList = true
  inserted_outside : ∀ o, o < start ∨ stop < o → m'.inserted o = m.inserted o
  removed_outside : ∀ o, o < start ∨ stop ≤ o → m'.removed o = m.removed o
  kept : ∀ o, start ≤ o → o < stop → keep o → m'.removed o = false
  text_eq : ∃ new, m'.inserted start = m.inserted start ++ new ∧
    new.flatMap String.toList ++ m'.region source start stop = text

variable {keep : Nat → Prop} {source : String} {m m₁ m₂ : Marks} {start mid stop : Nat}
variable {text text₁ text₂ : List Char}

/-- Source text that nothing happens to. -/
theorem Fresh.rewrites (h : m.Fresh start stop) (hle : start ≤ stop)
    (hstart : Text.isBoundary start source.toList = true) :
    Rewrites keep source m m start stop (Text.excerpt start stop source.toList) where
  le := hle
  boundary := hstart
  inserted_outside _ _ := rfl
  removed_outside _ _ := rfl
  kept o h₁ h₂ _ := h.removed o h₁ h₂
  text_eq := ⟨[], by simp, by rw [h.region_eq]; rfl⟩

/-- An insertion writes its text in place of nothing. -/
theorem rewrites_insert (m : Marks) {offset : Nat} (text : String)
    (hoffset : Text.isBoundary offset source.toList = true) :
    Rewrites keep source m (m.insert offset text) offset offset text.toList where
  le := Nat.le_refl _
  boundary := hoffset
  inserted_outside o h := by simp [insert, show o ≠ offset by omega]
  removed_outside _ _ := rfl
  kept o h₁ h₂ _ := absurd h₁ (by omega)
  text_eq := by
    by_cases empty : text = ""
    · exact ⟨[], by simp [insert, empty], by simp [empty]⟩
    · exact ⟨[text], by simp [insert, empty], by simp⟩

/-- A removal writes nothing in place of its range. -/
theorem rewrites_remove (hle : start ≤ stop)
    (hstart : Text.isBoundary start source.toList = true)
    (hkeep : ∀ o, start ≤ o → o < stop → ¬keep o) :
    Rewrites keep source m (m.remove start stop) start stop [] where
  le := hle
  boundary := hstart
  inserted_outside o h := m.inserted_remove_of_outside (by omega)
  removed_outside o h := m.removed_remove_of_outside h
  kept o h₁ h₂ hk := absurd hk (hkeep o h₁ h₂)
  text_eq := by
    refine ⟨[], by rw [m.inserted_remove_of_outside (by omega), List.append_nil], ?_⟩
    exact region_eq_nil (fun o h₁ h₂ => m.inserted_remove_of_inside h₁ h₂)
      (fun o h₁ h₂ => m.removed_remove_of_inside h₁ h₂)

/-- What lies beside the range that is rewritten stays fresh. -/
theorem Rewrites.fresh {start' stop' : Nat} (h : Rewrites keep source m m₁ start stop text)
    (fresh : m.Fresh start' stop') (apart : stop' < start ∨ stop ≤ start') :
    m₁.Fresh start' stop' where
  inserted o h₁ h₂ := (h.inserted_outside o (by omega)).trans (fresh.inserted o h₁ h₂)
  removed o h₁ h₂ := (h.removed_outside o (by omega)).trans (fresh.removed o h₁ h₂)

/-- Two steps from left to right. -/
theorem Rewrites.trans (h₁ : Rewrites keep source m m₁ start mid text₁)
    (h₂ : Rewrites keep source m₁ m₂ mid stop text₂) :
    Rewrites keep source m m₂ start stop (text₁ ++ text₂) where
  le := Nat.le_trans h₁.le h₂.le
  boundary := h₁.boundary
  inserted_outside o h := by
    have := h₁.le
    have := h₂.le
    exact (h₂.inserted_outside o (by omega)).trans (h₁.inserted_outside o (by omega))
  removed_outside o h := by
    have := h₁.le
    have := h₂.le
    exact (h₂.removed_outside o (by omega)).trans (h₁.removed_outside o (by omega))
  kept o hstart hstop hk := by
    by_cases before : o < mid
    · exact (h₂.removed_outside o (.inl before)).trans (h₁.kept o hstart before hk)
    · exact h₂.kept o (by omega) hstop hk
  text_eq := by
    obtain ⟨new₁, hnew₁, htext₁⟩ := h₁.text_eq
    obtain ⟨new₂, hnew₂, htext₂⟩ := h₂.text_eq
    rcases Nat.lt_or_eq_of_le h₁.le with less | same
    · -- The new texts at the seam belong to the first region.
      have seam : m₂.region source start mid =
          m₁.region source start mid ++ new₂.flatMap String.toList := by
        rw [region_eq_append_insertedText h₂.boundary less,
          region_eq_append_insertedText h₂.boundary less, insertedText, insertedText, hnew₂,
          List.flatMap_append, List.append_assoc]
        congr 1
        apply gather_congr
        · intro o _
          by_cases inside : o < mid
          · simp [insertedText, h₂.inserted_outside o (.inl inside)]
          · simp [inside]
        · intro o _
          by_cases inside : o < mid
          · simp [h₂.removed_outside o (.inl inside)]
          · simp [inside]
      refine ⟨new₁, (h₂.inserted_outside start (.inl less)).trans hnew₁, ?_⟩
      rw [← region_append_region h₁.le h₂.le, seam, ← htext₁, ← htext₂]
      simp only [List.append_assoc]
    · subst same
      refine ⟨new₁ ++ new₂, by rw [hnew₂, hnew₁, List.append_assoc], ?_⟩
      rw [← htext₁, ← htext₂, region_self]
      simp

/-- A removal takes everything with it that was written inside its range. -/
theorem Rewrites.remove_eq {front : Nat} (h : Rewrites keep source m m₁ start stop text)
    (hlt : front < start) : m₁.remove front stop = m.remove front stop := by
  have inserted : ∀ o, (m₁.remove front stop).inserted o = (m.remove front stop).inserted o := by
    intro o
    by_cases outside : o ≤ front ∨ stop < o
    · rw [inserted_remove_of_outside _ outside, inserted_remove_of_outside _ outside,
        h.inserted_outside o (by omega)]
    · rw [inserted_remove_of_inside _ (by omega) (by omega),
        inserted_remove_of_inside _ (by omega) (by omega)]
  have removed : ∀ o, (m₁.remove front stop).removed o = (m.remove front stop).removed o := by
    intro o
    by_cases outside : o < front ∨ stop ≤ o
    · rw [removed_remove_of_outside _ outside, removed_remove_of_outside _ outside,
        h.removed_outside o (by omega)]
    · rw [removed_remove_of_inside _ (by omega) (by omega),
        removed_remove_of_inside _ (by omega) (by omega)]
  exact Marks.ext (funext inserted) (funext removed)

/-- Text written in front of a range that was removed before stands in place of that
    range too. -/
theorem Rewrites.before_removal (h : Rewrites keep source (m.remove mid stop) m₁ start mid text)
    (hle : mid ≤ stop) (hkeep : ∀ o, mid ≤ o → o < stop → ¬keep o) :
    Rewrites keep source m m₁ start stop text where
  le := Nat.le_trans h.le hle
  boundary := h.boundary
  inserted_outside o ho := by
    have := h.le
    rw [h.inserted_outside o (by omega), m.inserted_remove_of_outside (by omega)]
  removed_outside o ho := by
    have := h.le
    rw [h.removed_outside o (by omega), m.removed_remove_of_outside (by omega)]
  kept o h₁ h₂ hk := by
    by_cases before : o < mid
    · exact h.kept o h₁ before hk
    · exact absurd hk (hkeep o (by omega) h₂)
  text_eq := by
    obtain ⟨new, hnew, htext⟩ := h.text_eq
    have := h.le
    have gone : m₁.region source mid stop = [] := by
      apply region_eq_nil
      · intro o h₁ h₂
        rw [h.inserted_outside o (.inr h₁), m.inserted_remove_of_inside h₁ h₂]
      · intro o h₁ h₂
        rw [h.removed_outside o (.inr h₁), m.removed_remove_of_inside h₁ h₂]
    rw [m.inserted_remove_of_outside (by omega)] at hnew
    refine ⟨new, hnew, ?_⟩
    rw [← region_append_region h.le hle, gone, List.append_nil, htext]

end MembershipLowering.Marks
