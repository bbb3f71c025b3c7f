import MembershipLowering.Proofs.Draft.Marks
import MembershipLowering.Proofs.Text.Bytes

/-! # Drafts and the calls made on them

A draft is what its accepted calls say, and nothing else (`Draft.Means`): a text that was
inserted is still there unless a later removal reached over its offset, a byte of the source is
still there unless some removal, earlier or later, took it away. The history is read forwards
here, call by call; the draft itself keeps only what is left of it.
-/

namespace MembershipLowering

namespace Draft

/-- The draft after some calls. A call that is refused changes nothing. -/
def replay (d : Draft) : List Edit → Draft
  | [] => d
  | e :: calls =>
    match d.apply e with
    | .ok later => later.replay calls
    | .error _ => d.replay calls

/-- Those of some calls that are accepted when they are made one after the other. -/
def accepted (d : Draft) : List Edit → List Edit
  | [] => []
  | e :: calls =>
    match d.apply e with
    | .ok later => e :: later.accepted calls
    | .error _ => d.accepted calls

namespace Edit

/-- Whether the call deletes texts that were inserted at an offset before. -/
def drops (offset : Nat) : Edit → Bool
  | .remove start stop => start < offset && offset ≤ stop
  | _ => false

/-- Whether the call removes the byte of the source at an offset. -/
def strikes (offset : Nat) : Edit → Bool
  | .remove start stop => start ≤ offset && offset < stop
  | _ => false

/-- Whether the call inserts or removes anything. -/
def hasEffect : Edit → Bool
  | .insert _ text => text ≠ ""
  | .remove start stop => start < stop
  | .slice _ _ => false

/-- The texts at an offset, in the order of their calls, that no later call of the history
    has deleted. -/
def live (offset : Nat) : List Edit → List String
  | [] => []
  | .insert at_ text :: later =>
    if at_ = offset ∧ text ≠ "" ∧ later.any (drops offset) = false then
      text :: live offset later
    else live offset later
  | _ :: later => live offset later

/-- What a history says at one offset when it is read up to `stop`: the texts that are live
    there, and the byte of the source behind them unless it has been removed. -/
def bytesAt (source : String) (history : List Edit) (stop offset : Nat) : List UInt8 :=
  (live offset history).flatMap (Text.bytes ·.toList) ++
    if offset < stop ∧ history.any (strikes offset) = false then
      (Text.bytes source.toList)[offset]?.toList
    else []

end Edit

/-- The draft says what the source and a history of calls say together. -/
structure Means (source : String) (history : List Edit) (d : Draft) : Prop where
  /-- What can be read lies between two boundaries. -/
  readable : ∀ start stop, (∃ text, d.slice start stop = .ok text) ↔ start ≤ stop ∧
    Text.isBoundary start source.toList = true ∧ Text.isBoundary stop source.toList = true
  /-- Reading goes through the history offset by offset. -/
  slice : ∀ start stop text, d.slice start stop = .ok text → Text.bytes text.toList =
    (List.range' start (stop + 1 - start)).flatMap (Edit.bytesAt source history stop)
  /-- The whole text is read from one end of the source to the other. -/
  render : d.slice 0 (Text.byteLength source.toList) = .ok d.render
  /-- The draft has changed exactly if some call had an effect. -/
  isChanged : d.isChanged = true ↔ ∃ e ∈ history, e.hasEffect = true

end Draft

namespace Marks

open Draft (Edit)

variable {m : Marks} {source : String} {history : List Edit}

/-- The marks after an accepted call. -/
def mark (m : Marks) : Edit → Marks
  | .insert offset text => m.insert offset text
  | .remove start stop => m.remove start stop
  | .slice _ _ => m

/-- The marks that a history leaves. -/
def after (m : Marks) (history : List Edit) : Marks :=
  history.foldl mark m

/-- Inserted texts are those that were there and have not been deleted, and the live ones. -/
theorem inserted_after (m : Marks) (history : List Edit) (offset : Nat) :
    (m.after history).inserted offset =
      (if history.any (Edit.drops offset) then [] else m.inserted offset) ++
        Edit.live offset history := by
  induction history generalizing m with
  | nil => simp [after, Edit.live]
  | cons e later ih =>
      rw [after, List.foldl_cons, ← after, ih]
      cases e with
      | insert at_ text =>
          by_cases dropped : later.any (Edit.drops offset) = true
          · simp [Edit.live, Edit.drops, dropped]
          · by_cases here : at_ = offset ∧ text ≠ ""
            · simp [Edit.live, Edit.drops, mark, insert, dropped, here]
            · have other : ¬(offset = at_ ∧ text ≠ "") := fun h => here ⟨h.1.symm, h.2⟩
              have absent : ¬(at_ = offset ∧ text ≠ "" ∧ later.any (Edit.drops offset) = false) :=
                fun h => here ⟨h.1, h.2.1⟩
              rw [Edit.live, if_neg absent]
              simp [Edit.drops, mark, insert, dropped, other]
      | remove start stop =>
          by_cases inside : start < offset ∧ offset ≤ stop
          · simp [Edit.live, Edit.drops, mark, remove, inside]
          · have outside : (decide (start < offset) && decide (offset ≤ stop)) = false := by
              rw [← Bool.decide_and, decide_eq_false inside]
            simp [Edit.live, Edit.drops, mark, remove, inside, outside]
      | slice start stop => simp [Edit.live, Edit.drops, mark]

theorem removed_after (m : Marks) (history : List Edit) (offset : Nat) :
    (m.after history).removed offset =
      (m.removed offset || history.any (Edit.strikes offset)) := by
  induction history generalizing m with
  | nil => simp [after]
  | cons e later ih =>
      rw [after, List.foldl_cons, ← after, ih]
      cases e <;> simp [mark, insert, remove, Edit.strikes, Bool.or_assoc]

end Marks

/-- The offsets of a call lie on boundaries of the source, in order. -/
def Draft.Edit.Fits (source : String) : Draft.Edit → Prop
  | .insert offset _ => Text.isBoundary offset source.toList = true
  | .remove start stop | .slice start stop => start ≤ stop ∧
      Text.isBoundary start source.toList = true ∧ Text.isBoundary stop source.toList = true

namespace Marks

open Draft (Edit)

variable {m : Marks} {source : String} {history : List Edit}

/-- An accepted call fits the source and leaves its mark. -/
theorem apply_draft {e : Edit} {d : Draft} (h : (m.draft source).apply e = .ok d) :
    e.Fits source ∧ d = (m.mark e).draft source := by
  cases e with
  | insert offset text =>
      refine ⟨?_, eq_draft_of_insert h⟩
      simp only [Draft.apply, Draft.insert] at h
      split at h
      · cases h
      · rename_i legal
        exact offsetError?_eq_none_iff.1 legal
  | remove start stop =>
      refine ⟨?_, eq_draft_of_remove h⟩
      simp only [Draft.apply, Draft.remove] at h
      split at h
      · cases h
      · rename_i legal
        exact rangeError?_eq_none_iff.1 legal
  | slice start stop =>
      simp only [Draft.apply, Draft.slice] at h
      split at h
      · cases h
      · rename_i legal
        cases h
        exact ⟨rangeError?_eq_none_iff.1 legal, rfl⟩

/-- A call that fits the source is accepted. -/
theorem apply_of_fits (m : Marks) {e : Edit} (fits : e.Fits source) :
    (m.draft source).apply e = .ok ((m.mark e).draft source) := by
  have accepted : ∃ d, (m.draft source).apply e = .ok d := by
    cases e with
    | insert offset text =>
        simp only [Draft.apply, Draft.insert, offsetError?_eq_none_iff.2 fits]
        split <;> exact ⟨_, rfl⟩
    | remove start stop =>
        simp only [Draft.apply, Draft.remove, rangeError?_eq_none_iff.2 fits]
        exact ⟨_, rfl⟩
    | slice start stop =>
        simp only [Draft.apply, Draft.slice, rangeError?_eq_none_iff.2 fits]
        exact ⟨_, rfl⟩
  obtain ⟨d, applied⟩ := accepted
  rw [applied, (apply_draft applied).2]

/-- A draft is marked by its accepted calls, all of which fit the source. -/
theorem replay_draft (m : Marks) (source : String) (calls : List Edit) :
    (m.draft source).replay calls =
        (m.after ((m.draft source).accepted calls)).draft source ∧
      ∀ e ∈ (m.draft source).accepted calls, e.Fits source := by
  induction calls generalizing m with
  | nil => exact ⟨rfl, fun e he => by cases he⟩
  | cons e calls ih =>
      simp only [Draft.replay, Draft.accepted]
      cases applied : (m.draft source).apply e with
      | error => exact ih m
      | ok d =>
          obtain ⟨fits, rfl⟩ := apply_draft applied
          obtain ⟨same, fit⟩ := ih (m.mark e)
          exact ⟨same, List.forall_mem_cons.2 ⟨fits, fit⟩⟩

/-- The marks cut no character of the source. -/
structure Whole (source : String) (m : Marks) : Prop where
  inserted : ∀ offset, m.inserted offset ≠ [] → Text.isBoundary offset source.toList = true
  removed : Text.Uniform source.toList m.removed

theorem whole_clean (source : String) : Whole source clean :=
  ⟨fun _ some => absurd rfl some, fun _ _ _ _ _ _ _ => rfl⟩

theorem Whole.mark {e : Edit} (h : Whole source m) (fits : e.Fits source) :
    Whole source (m.mark e) := by
  cases e with
  | insert offset text =>
      refine ⟨fun o some => ?_, h.removed⟩
      by_cases here : o = offset
      · exact here ▸ fits
      · exact h.inserted o (by simpa [Marks.mark, insert, here] using some)
  | remove start stop =>
      refine ⟨fun o some => h.inserted o fun none => some ?_,
        h.removed.or (Text.uniform_range fits.2.1 fits.2.2)⟩
      simp [Marks.mark, remove, none]
  | slice => exact h

theorem Whole.after (h : Whole source m) (fits : ∀ e ∈ history, e.Fits source) :
    Whole source (m.after history) := by
  induction history generalizing m with
  | nil => exact h
  | cons e later ih =>
      obtain ⟨head, tail⟩ := List.forall_mem_cons.1 fits
      exact ih (h.mark head) tail

/-- What one offset contributes: the texts inserted there, and the byte behind them. -/
def bytesAt (m : Marks) (bs : List UInt8) (texts chars : Nat → Bool) (offset : Nat) : List UInt8 :=
  (if texts offset then Text.bytes (m.insertedText offset) else []) ++
    if chars offset && !m.removed offset then bs[offset]?.toList else []

/-- A character of the source with the texts inserted in front of it. -/
theorem flatMap_bytesAt_char {front rest : List Char} {c : Char} {texts chars : Nat → Bool}
    (h : Whole source m) (uniform : Text.Uniform source.toList chars)
    (split : source.toList = front ++ c :: rest) :
    (List.range' (Text.byteLength front) c.utf8Size).flatMap
        (m.bytesAt (Text.bytes source.toList) texts chars) =
      (if texts (Text.byteLength front) then
          Text.bytes (m.insertedText (Text.byteLength front)) else []) ++
        if chars (Text.byteLength front) && !m.removed (Text.byteLength front) then
          String.utf8EncodeChar c else [] := by
  have alone : ∀ o, Text.byteLength front < o → o < Text.byteLength front + c.utf8Size →
      m.insertedText o = [] := by
    intro o lower upper
    have none : m.inserted o = [] := Classical.not_not.1 fun some =>
      Text.not_isBoundary_of_inside lower upper (split ▸ h.inserted o some)
    rw [insertedText, none, List.flatMap_nil]
  have encoded : (List.range' (Text.byteLength front) c.utf8Size).flatMap
      (fun o => (Text.bytes source.toList)[o]?.toList) = String.utf8EncodeChar c := by
    rw [Text.flatMap_getElem?_range', split, Text.bytes_append, Text.bytes_cons,
      ← Text.length_bytes, List.drop_left, ← String.length_utf8EncodeChar, List.take_left]
  have kept : ∀ o ∈ List.range' (Text.byteLength front) c.utf8Size,
      (chars o && !m.removed o) =
        (chars (Text.byteLength front) && !m.removed (Text.byteLength front)) := by
    intro o ho
    rw [List.mem_range'_1] at ho
    rw [uniform front c rest split o ho.1 ho.2, h.removed front c rest split o ho.1 ho.2]
  obtain ⟨n, size⟩ : ∃ n, c.utf8Size = n + 1 :=
    ⟨c.utf8Size - 1, by have := c.utf8Size_pos; omega⟩
  -- Only the first offset of the character has texts; the bytes then follow from all of them.
  have texted : (List.range' (Text.byteLength front) c.utf8Size).flatMap
        (m.bytesAt (Text.bytes source.toList) texts chars) =
      (if texts (Text.byteLength front) then
          Text.bytes (m.insertedText (Text.byteLength front)) else []) ++
        (List.range' (Text.byteLength front) c.utf8Size).flatMap fun o =>
          if chars (Text.byteLength front) && !m.removed (Text.byteLength front) then
            (Text.bytes source.toList)[o]?.toList else [] := by
    have later : ∀ o ∈ List.range' (Text.byteLength front + 1) n,
        m.bytesAt (Text.bytes source.toList) texts chars o =
          if chars (Text.byteLength front) && !m.removed (Text.byteLength front) then
            (Text.bytes source.toList)[o]?.toList else [] := by
      intro o ho
      rw [List.mem_range'_1] at ho
      rw [bytesAt, alone o (by omega) (by omega), Text.bytes_nil, ite_self, List.nil_append,
        kept o (by rw [List.mem_range'_1]; omega)]
    rw [size, List.range'_succ, List.flatMap_cons, List.flatMap_cons, List.flatMap_def,
      List.map_congr_left later, ← List.flatMap_def, bytesAt, List.append_assoc]
  rw [texted]
  congr 1
  split
  · exact encoded
  · exact List.flatMap_eq_nil_iff.2 fun _ _ => rfl

/-- What a marked source says, byte by byte. -/
theorem bytes_gather {texts chars : Nat → Bool} (h : Whole source m)
    (uniform : Text.Uniform source.toList chars) {front cs : List Char}
    (split : source.toList = front ++ cs) :
    Text.bytes (m.gather texts chars (Text.byteLength front) cs) =
      (List.range' (Text.byteLength front) (Text.byteLength cs + 1)).flatMap
        (m.bytesAt (Text.bytes source.toList) texts chars) := by
  induction cs generalizing front with
  | nil =>
      have past : (Text.bytes source.toList)[Text.byteLength front]? = none := by
        refine List.getElem?_eq_none (Nat.le_of_eq ?_)
        rw [Text.length_bytes, split, List.append_nil]
      simp only [gather, bytesAt, past, Text.byteLength_nil, Nat.zero_add, List.range'_one,
        List.flatMap_singleton, Option.toList_none, ite_self, List.append_nil, apply_ite Text.bytes,
        Text.bytes_nil]
  | cons c cs ih =>
      have next := ih (show source.toList = front ++ [c] ++ cs by
        rw [split, List.append_assoc]
        rfl)
      rw [Text.byteLength_append, Text.byteLength_cons, Text.byteLength_nil, Nat.add_zero] at next
      rw [gather, Text.byteLength_cons, Nat.add_assoc, ← List.range'_append_1, List.flatMap_append,
        flatMap_bytesAt_char h uniform split, ← next, Text.bytes_append, Text.bytes_append,
        List.append_assoc, apply_ite Text.bytes, apply_ite Text.bytes, Text.bytes_nil,
        Text.bytes_cons, Text.bytes_nil, List.append_nil]

/-- Offsets that contribute nothing can be left out on both sides. -/
theorem flatMap_range'_within {f : Nat → List UInt8} {start stop last : Nat}
    (outside : ∀ o, o < start ∨ stop < o → f o = []) (ordered : start ≤ stop)
    (inside : stop ≤ last) :
    (List.range' 0 (last + 1)).flatMap f = (List.range' start (stop + 1 - start)).flatMap f := by
  have parts : List.range' 0 (last + 1) = List.range' 0 start ++
      (List.range' start (stop + 1 - start) ++ List.range' (stop + 1) (last - stop)) := by
    have back := List.range'_append_1 (s := start) (m := stop + 1 - start) (n := last - stop)
    rw [show start + (stop + 1 - start) = stop + 1 by omega] at back
    have front := List.range'_append_1 (s := 0) (m := start)
      (n := stop + 1 - start + (last - stop))
    rw [Nat.zero_add, show start + (stop + 1 - start + (last - stop)) = last + 1 by omega] at front
    rw [back, front]
  have before : (List.range' 0 start).flatMap f = [] := by
    refine List.flatMap_eq_nil_iff.2 fun o ho => outside o (.inl ?_)
    rw [List.mem_range'_1] at ho
    omega
  have behind : (List.range' (stop + 1) (last - stop)).flatMap f = [] := by
    refine List.flatMap_eq_nil_iff.2 fun o ho => outside o (.inr ?_)
    rw [List.mem_range'_1] at ho
    omega
  rw [parts, List.flatMap_append, List.flatMap_append, before, behind, List.nil_append,
    List.append_nil]

/-- What can be read of a marked source, byte by byte. -/
theorem bytes_slice {start stop : Nat} {text : String} (h : Whole source m)
    (read : (m.draft source).slice start stop = .ok text) :
    Text.bytes text.toList = (List.range' start (stop + 1 - start)).flatMap
      (m.bytesAt (Text.bytes source.toList) (fun _ => true) fun o => decide (o < stop)) := by
  unfold Draft.slice at read
  split at read
  · cases read
  · rename_i legal
    cases read
    obtain ⟨ordered, hstart, hstop⟩ := rangeError?_eq_none_iff.1 legal
    have inside := Text.le_byteLength_of_isBoundary hstop
    have all : source.toList = [] ++ source.toList := rfl
    rw [textBetween_draft]
    refine (bytes_gather h (Text.uniform_range hstart hstop) all).trans ?_
    rw [Text.byteLength_nil, flatMap_range'_within _ ordered inside]
    · rw [List.flatMap_def, List.flatMap_def]
      congr 1
      refine List.map_congr_left fun o ho => ?_
      rw [List.mem_range'_1] at ho
      simp [bytesAt, ho.1, show o ≤ stop by omega]
    · intro o beside
      have noText : (decide (start ≤ o) && decide (o ≤ stop)) = false := by
        rw [← Bool.decide_and]
        exact decide_eq_false (by omega)
      have noChar : (decide (start ≤ o) && decide (o < stop)) = false := by
        rw [← Bool.decide_and]
        exact decide_eq_false (by omega)
      simp [bytesAt, noText, noChar]

/-- The marks of a history contribute what the history says. -/
theorem bytesAt_after (source : String) (history : List Edit) (stop offset : Nat) :
    (clean.after history).bytesAt (Text.bytes source.toList) (fun _ => true)
      (fun o => decide (o < stop)) offset = Edit.bytesAt source history stop offset := by
  have texts : Text.bytes ((clean.after history).insertedText offset) =
      (Edit.live offset history).flatMap (Text.bytes ·.toList) := by
    rw [insertedText, inserted_after, Text.bytes, List.flatMap_assoc]
    simp only [clean, ite_self, List.nil_append]
    rfl
  rw [bytesAt, Edit.bytesAt, texts, removed_after]
  simp [clean]

/-- Something is live only if it has been inserted. -/
theorem exists_of_live {offset : Nat} (some : Edit.live offset history ≠ []) :
    ∃ e ∈ history, e.hasEffect = true := by
  induction history with
  | nil => exact absurd rfl some
  | cons e later ih =>
      have later_or : Edit.live offset later ≠ [] → ∃ e' ∈ e :: later, e'.hasEffect = true := by
        intro some
        obtain ⟨e', he', effect⟩ := ih some
        exact ⟨e', List.mem_cons_of_mem _ he', effect⟩
      cases e with
      | insert at_ text =>
          by_cases nonempty : text = ""
          · exact later_or (by simpa [Edit.live, nonempty] using some)
          · exact ⟨_, List.mem_cons_self .., by simpa [Edit.hasEffect] using nonempty⟩
      | remove => exact later_or some
      | slice => exact later_or some

/-- A text that has been inserted is still live or has been deleted. -/
theorem live_or_drops {offset : Nat} {text : String} (inserted : .insert offset text ∈ history)
    (nonempty : text ≠ "") :
    Edit.live offset history ≠ [] ∨ history.any (Edit.drops offset) = true := by
  induction history with
  | nil => cases inserted
  | cons e later ih =>
      cases List.mem_cons.1 inserted with
      | inl same =>
          subst same
          by_cases dropped : later.any (Edit.drops offset) = true
          · exact .inr (by simp [dropped])
          · exact .inl (by simp [Edit.live, nonempty, dropped])
      | inr among =>
          refine (ih among).imp (fun some => ?_) (fun dropped => by simp [dropped])
          cases e with
          | insert at_ text =>
              rw [Edit.live]
              split
              · exact List.cons_ne_nil _ _
              · exact some
          | remove => exact some
          | slice => exact some

theorem isChanged_draft : (m.draft source).isChanged = true ↔
    ∃ offset, Text.isBoundary offset source.toList = true ∧
      (m.inserted offset ≠ [] ∨ m.removed offset = true) := by
  rw [Draft.isChanged, any_slots_iff]
  simp only [Bool.or_eq_true, Bool.not_eq_true', List.isEmpty_eq_false_iff]
  constructor
  · rintro ⟨front, rest, split, changed⟩
    exact ⟨_, Text.isBoundary_iff.2 ⟨front, rest, split, rfl⟩, changed⟩
  · rintro ⟨offset, boundary, changed⟩
    obtain ⟨front, rest, split, rfl⟩ := Text.isBoundary_iff.1 boundary
    exact ⟨front, rest, split, changed⟩

/-- The marks of a history show whether some call had an effect. -/
theorem isChanged_after (fits : ∀ e ∈ history, e.Fits source) :
    ((clean.after history).draft source).isChanged = true ↔
      ∃ e ∈ history, e.hasEffect = true := by
  rw [isChanged_draft]
  simp only [inserted_after, removed_after, clean, ite_self, List.nil_append, Bool.false_or]
  have of_struck : ∀ {start stop}, .remove start stop ∈ history → start < stop →
      ∃ offset, Text.isBoundary offset source.toList = true ∧
        (Edit.live offset history ≠ [] ∨ history.any (Edit.strikes offset) = true) := by
    intro start stop among nonempty
    exact ⟨start, (fits _ among).2.1, .inr (List.any_eq_true.2 ⟨_, among, by
      simp [Edit.strikes, nonempty]⟩)⟩
  constructor
  · rintro ⟨offset, -, some | struck⟩
    · exact exists_of_live some
    · obtain ⟨e, he, strikes⟩ := List.any_eq_true.1 struck
      refine ⟨e, he, ?_⟩
      cases e with
      | remove start stop =>
          simp only [Edit.strikes, Bool.and_eq_true, decide_eq_true_eq] at strikes
          simp only [Edit.hasEffect, decide_eq_true_eq]
          omega
      | _ => cases strikes
  · rintro ⟨e, he, effect⟩
    cases e with
    | insert offset text =>
        have nonempty : text ≠ "" := by simpa [Edit.hasEffect] using effect
        rcases live_or_drops he nonempty with some | dropped
        · exact ⟨offset, fits _ he, .inl some⟩
        · -- What deleted the text has removed a part of the source in front of it.
          obtain ⟨e, among, drops⟩ := List.any_eq_true.1 dropped
          cases e with
          | remove start stop =>
              simp only [Edit.drops, Bool.and_eq_true, decide_eq_true_eq] at drops
              exact of_struck among (by omega)
          | _ => cases drops
    | remove start stop => exact of_struck he (by simpa [Edit.hasEffect] using effect)
    | slice => cases effect

end Marks

/-- A draft means its accepted calls. -/
theorem Draft.means_replay (source : String) (calls : List Edit) :
    ((ofSource source).replay calls).Means source ((ofSource source).accepted calls) := by
  rw [← Marks.clean_draft]
  obtain ⟨same, fits⟩ := Marks.replay_draft .clean source calls
  rw [same]
  generalize (Marks.clean.draft source).accepted calls = history at fits
  have whole := (Marks.whole_clean source).after fits
  constructor
  · intro start stop
    rw [← Marks.rangeError?_eq_none_iff (m := Marks.clean.after history), slice]
    split
    · rename_i refused
      exact iff_of_false (by simp) (by simp [refused])
    · rename_i legal
      exact iff_of_true ⟨_, rfl⟩ legal
  · intro start stop text read
    rw [Marks.bytes_slice whole read, funext (Marks.bytesAt_after source history stop)]
  · have legal := (Marks.rangeError?_eq_none_iff (m := Marks.clean.after history)).2
      ⟨Nat.zero_le _, Text.isBoundary_zero _, Text.isBoundary_byteLength source.toList⟩
    rw [slice, legal]
    rfl
  · exact Marks.isChanged_after fits

/-- A removal drops the texts that were inserted where it ends, but not those where it begins. -/
example : ((Draft.ofSource "abc").replay [.insert 0 "x", .insert 1 "y", .remove 0 1]).render =
    "xbc" := by decide

end MembershipLowering
