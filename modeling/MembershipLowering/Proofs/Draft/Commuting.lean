import MembershipLowering.Proofs.Draft.History

/-! # Calls in another order

Edits go by the offsets of the source as it was, and so two of them can nearly always be made
in either order. Two insertions at one offset cannot, and neither can an insertion and a removal
that deletes texts at its offset (`Draft.Edit.Clashes`). Where a removal begins texts stay, and
so the two ends of a removal differ in this. Calls that clash do make a difference, unless their
texts happen to agree (`Draft.apply_comm`).
-/

namespace MembershipLowering

namespace Draft.Edit

/-- The order of the two calls matters: both insert at one offset, or one inserts at an offset
    whose texts the other deletes. -/
def Clashes : Edit → Edit → Prop
  | .insert offset _, .insert offset' _ => offset = offset'
  | .insert offset _, .remove start stop | .remove start stop, .insert offset _ =>
    start < offset ∧ offset ≤ stop
  | _, _ => False

/-- What two calls that clash say is the same in either order. -/
def Agrees : Edit → Edit → Prop
  | .insert _ text, .insert _ text' => text ++ text' = text' ++ text
  | .insert _ text, .remove _ _ | .remove _ _, .insert _ text => text = ""
  | _, _ => True

end Draft.Edit

namespace Marks

open Draft (Edit)

variable {m m' : Marks} {source : String} {e e' : Edit} {offset offset' start stop : Nat}

theorem insert_comm (m : Marks) (text text' : String) (apart : offset ≠ offset') :
    (m.insert offset text).insert offset' text' = (m.insert offset' text').insert offset text := by
  refine Marks.ext (funext fun o => ?_) rfl
  by_cases here : o = offset
  · simp [insert, here, apart]
  · simp [insert, here]

theorem remove_comm (m : Marks) (start stop start' stop' : Nat) :
    (m.remove start stop).remove start' stop' = (m.remove start' stop').remove start stop := by
  refine Marks.ext (funext fun o => ?_) (funext fun o => ?_)
  · by_cases inside : start < o ∧ o ≤ stop <;> by_cases inside' : start' < o ∧ o ≤ stop' <;>
      simp [remove, inside, inside']
  · simp only [remove, Bool.or_right_comm]

theorem remove_remove_self (m : Marks) (start stop : Nat) :
    (m.remove start stop).remove start stop = m.remove start stop := by
  refine Marks.ext (funext fun o => ?_) (funext fun o => ?_)
  · by_cases inside : start < o ∧ o ≤ stop <;> simp [remove, inside]
  · simp only [remove, Bool.or_assoc, Bool.or_self]

theorem remove_insert (m : Marks) (text : String) (outside : ¬(start < offset ∧ offset ≤ stop)) :
    (m.insert offset text).remove start stop = (m.remove start stop).insert offset text := by
  refine Marks.ext (funext fun o => ?_) rfl
  by_cases here : o = offset
  · simp [insert, remove, here, outside]
  · simp [insert, remove, here]

/-- Calls that do not clash leave the same marks in either order. -/
theorem mark_comm (m : Marks) (apart : ¬e.Clashes e') :
    (m.mark e).mark e' = (m.mark e').mark e := by
  cases e with
  | insert offset text =>
      cases e' with
      | insert offset' text' => exact m.insert_comm text text' apart
      | remove start stop => exact m.remove_insert text apart
      | slice => rfl
  | remove start stop =>
      cases e' with
      | insert offset text => exact (m.remove_insert text apart).symm
      | remove start' stop' => exact m.remove_comm start stop start' stop'
      | slice => rfl
  | slice => cases e' <;> rfl

theorem insertedText_insert (m : Marks) (offset : Nat) (text : String) (o : Nat) :
    (m.insert offset text).insertedText o =
      m.insertedText o ++ if o = offset then text.toList else [] := by
  by_cases here : o = offset
  · by_cases empty : text = "" <;> simp [insertedText, insert, here, empty]
  · simp [insertedText, insert, here]

theorem insertedText_remove_of_inside (m : Marks) (h₁ : start < offset) (h₂ : offset ≤ stop) :
    (m.remove start stop).insertedText offset = [] := by
  rw [insertedText, m.inserted_remove_of_inside h₁ h₂, List.flatMap_nil]

theorem insertedText_remove_of_outside (m : Marks) (h : offset ≤ start ∨ stop < offset) :
    (m.remove start stop).insertedText offset = m.insertedText offset := by
  rw [insertedText, m.inserted_remove_of_outside h, insertedText]

/-- What is inserted at a boundary can be read there. -/
theorem slice_point (m : Marks) (boundary : Text.isBoundary offset source.toList = true) :
    (m.draft source).slice offset offset = .ok (String.ofList (m.insertedText offset)) := by
  have legal := (rangeError?_eq_none_iff (m := m)).2 ⟨Nat.le_refl offset, boundary, boundary⟩
  have read : (m.draft source).slice offset offset =
      .ok ((m.draft source).textBetween offset offset) := by
    rw [Draft.slice, legal]
  have text := slice_draft read
  rw [region_self, List.append_nil] at text
  rw [read, ← text, String.ofList_toList]

/-- Marks that differ at most in the texts at one offset read alike exactly if those texts are the
    same. -/
theorem slice_eq_iff (removed : m.removed = m'.removed)
    (elsewhere : ∀ o, o ≠ offset → m.insertedText o = m'.insertedText o)
    (boundary : Text.isBoundary offset source.toList = true) :
    (∀ start stop, (m.draft source).slice start stop = (m'.draft source).slice start stop) ↔
      m.insertedText offset = m'.insertedText offset := by
  constructor
  · intro same
    have point := same offset offset
    rw [m.slice_point boundary, m'.slice_point boundary] at point
    exact String.ofList_injective (Except.ok.inj point)
  · intro here start stop
    have texts : m.insertedText = m'.insertedText := by
      funext o
      by_cases at_ : o = offset
      · exact at_ ▸ here
      · exact elsewhere o at_
    have read : (m.draft source).textBetween start stop =
        (m'.draft source).textBetween start stop := by
      apply String.toList_inj.1
      rw [textBetween_draft, textBetween_draft]
      exact gather_congr (fun o _ => by rw [texts]) (fun o _ => by rw [removed])
    rw [Draft.slice, Draft.slice, rangeError?_draft m m', read]

theorem slice_insert_comm_iff (m : Marks) (text text' : String)
    (boundary : Text.isBoundary offset source.toList = true) :
    (∀ start stop, (((m.insert offset text).insert offset text').draft source).slice start stop =
        (((m.insert offset text').insert offset text).draft source).slice start stop) ↔
      text ++ text' = text' ++ text := by
  have removed : ((m.insert offset text).insert offset text').removed =
      ((m.insert offset text').insert offset text).removed := rfl
  refine (slice_eq_iff removed (fun o elsewhere => ?_) boundary).trans ?_
  · simp only [insertedText_insert, if_neg elsewhere]
  · simp only [insertedText_insert, if_true, List.append_assoc, List.append_cancel_left_eq,
      ← String.toList_append, String.toList_inj]

/-- A removal deletes a text only if that has been inserted before. -/
theorem slice_remove_insert_iff (m : Marks) (text : String)
    (inside : start < offset ∧ offset ≤ stop)
    (boundary : Text.isBoundary offset source.toList = true) :
    (∀ a b, (((m.insert offset text).remove start stop).draft source).slice a b =
        (((m.remove start stop).insert offset text).draft source).slice a b) ↔ text = "" := by
  have removed : ((m.insert offset text).remove start stop).removed =
      ((m.remove start stop).insert offset text).removed := rfl
  refine (slice_eq_iff removed (fun o elsewhere => ?_) boundary).trans ?_
  · by_cases deleted : start < o ∧ o ≤ stop
    · simp only [insertedText_insert, insertedText_remove_of_inside _ deleted.1 deleted.2,
        if_neg elsewhere, List.append_nil]
    · simp only [insertedText_insert, if_neg elsewhere, List.append_nil,
        insertedText_remove_of_outside _ (show o ≤ start ∨ stop < o by omega)]
  · simp only [insertedText_insert, insertedText_remove_of_inside _ inside.1 inside.2, if_true,
      List.nil_append]
    rw [eq_comm, ← String.toList_empty, String.toList_inj]

/-- Two orders of calls that fit the source read alike exactly if the calls do not clash or their
    texts agree. -/
theorem slice_mark_comm_iff (m : Marks) (fits : e.Fits source) (fits' : e'.Fits source) :
    (∀ start stop, (((m.mark e).mark e').draft source).slice start stop =
        (((m.mark e').mark e).draft source).slice start stop) ↔ (e.Clashes e' → e.Agrees e') := by
  by_cases clash : e.Clashes e'
  · rw [imp_iff_right clash]
    cases e with
    | insert offset text =>
        cases e' with
        | insert offset' text' =>
            cases clash
            exact m.slice_insert_comm_iff text text' fits
        | remove start stop => exact m.slice_remove_insert_iff text clash fits
        | slice => cases clash
    | remove start stop =>
        cases e' with
        | insert offset text =>
            have other := m.slice_remove_insert_iff text clash fits'
            exact ⟨fun same => other.1 fun a b => (same a b).symm,
              fun agree a b => (other.2 agree a b).symm⟩
        | remove => cases clash
        | slice => cases clash
    | slice => cases clash
  · exact iff_of_true (fun _ _ => by rw [m.mark_comm clash]) fun h => absurd h clash

/-- A removal that deletes texts has removed the source in front of them. -/
theorem isChanged_remove_insert (m : Marks) (text : String)
    (inside : start < offset ∧ offset ≤ stop)
    (boundary : Text.isBoundary start source.toList = true) :
    (((m.insert offset text).remove start stop).draft source).isChanged =
      (((m.remove start stop).insert offset text).draft source).isChanged := by
  have removed : (m.remove start stop).removed start = true :=
    m.removed_remove_of_inside (Nat.le_refl _) (by omega)
  have changed : ((m.insert offset text).remove start stop |>.draft source).isChanged = true :=
    isChanged_draft.2 ⟨start, boundary, .inr removed⟩
  have changed' : ((m.remove start stop).insert offset text |>.draft source).isChanged = true :=
    isChanged_draft.2 ⟨start, boundary, .inr removed⟩
  rw [changed, changed']

/-- Whether anything has been done does not depend on the order, not even of calls that clash. -/
theorem isChanged_mark_comm (m : Marks) (fits : e.Fits source) (fits' : e'.Fits source) :
    (((m.mark e).mark e').draft source).isChanged =
      (((m.mark e').mark e).draft source).isChanged := by
  by_cases clash : e.Clashes e'
  · cases e with
    | insert offset text =>
        cases e' with
        | insert offset' text' =>
            cases clash
            have texts : ∀ o, ((m.insert offset text).insert offset text').inserted o ≠ [] ↔
                ((m.insert offset text').insert offset text).inserted o ≠ [] := by
              intro o
              by_cases here : o = offset <;> by_cases empty : text = "" <;>
                by_cases empty' : text' = "" <;> simp [insert, here, empty, empty']
            rw [Bool.eq_iff_iff, isChanged_draft, isChanged_draft]
            exact exists_congr fun o => and_congr_right fun _ => or_congr (texts o) Iff.rfl
        | remove start stop => exact m.isChanged_remove_insert text clash fits'.2.1
        | slice => cases clash
    | remove start stop =>
        cases e' with
        | insert offset text => exact (m.isChanged_remove_insert text clash fits.2.1).symm
        | remove => cases clash
        | slice => cases clash
    | slice => cases clash
  · rw [m.mark_comm clash]

end Marks

namespace Draft

variable {source : String} {calls : List Edit} {e e' : Edit} {d₁ d₂ : Draft}

/-- Two calls that are both accepted can be made in either order. What can then be read is the
    same exactly if they do not clash, or if what they say agrees. A removal that is made a second
    time changes nothing. -/
theorem apply_comm (h₁ : ((ofSource source).replay calls).apply e = .ok d₁)
    (h₂ : ((ofSource source).replay calls).apply e' = .ok d₂) :
    ∃ d₁₂ d₂₁, d₁.apply e' = .ok d₁₂ ∧ d₂.apply e = .ok d₂₁ ∧
      ((∀ start stop, d₁₂.slice start stop = d₂₁.slice start stop) ↔
        (e.Clashes e' → e.Agrees e')) ∧
      d₁₂.isChanged = d₂₁.isChanged ∧
      (∀ start stop, e = .remove start stop → d₁.apply e = .ok d₁) := by
  rw [← Marks.clean_draft, (Marks.replay_draft ..).1] at h₁ h₂
  generalize Marks.clean.after _ = m at h₁ h₂
  obtain ⟨fits, rfl⟩ := Marks.apply_draft h₁
  obtain ⟨fits', rfl⟩ := Marks.apply_draft h₂
  refine ⟨_, _, Marks.apply_of_fits _ fits', Marks.apply_of_fits _ fits,
    m.slice_mark_comm_iff fits fits', m.isChanged_mark_comm fits fits', ?_⟩
  rintro start stop rfl
  rw [Marks.apply_of_fits _ fits, Marks.mark, Marks.mark, Marks.remove_remove_self]

/-- Where a removal ends a text is deleted, or not yet there; "é" takes two bytes. -/
theorem apply_comm_at_stop :
    ∃ d₁ d₂ d₁₂ d₂₁,
      ((ofSource "aé").replay [.insert 1 "x"]).apply (.insert 3 "y") = .ok d₁ ∧
      ((ofSource "aé").replay [.insert 1 "x"]).apply (.remove 1 3) = .ok d₂ ∧
      d₁.apply (.remove 1 3) = .ok d₁₂ ∧ d₂.apply (.insert 3 "y") = .ok d₂₁ ∧
      ¬ ∀ start stop, d₁₂.slice start stop = d₂₁.slice start stop := by
  have inserted : ((ofSource "aé").replay [.insert 1 "x"]).apply (.insert 3 "y") = .ok _ := rfl
  have removed : ((ofSource "aé").replay [.insert 1 "x"]).apply (.remove 1 3) = .ok _ := rfl
  have clash : Edit.Clashes (.insert 3 "y") (.remove 1 3) := ⟨by decide, by decide⟩
  have disagree : ¬Edit.Agrees (.insert 3 "y") (.remove 1 3) := show "y" ≠ "" by decide
  obtain ⟨d₁₂, d₂₁, first, second, same, -⟩ := apply_comm inserted removed
  exact ⟨_, _, d₁₂, d₂₁, inserted, removed, first, second,
    fun all => disagree (same.1 all clash)⟩

end Draft

end MembershipLowering
