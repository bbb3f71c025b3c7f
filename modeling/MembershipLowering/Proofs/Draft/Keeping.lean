import MembershipLowering.Proofs.Draft.Ledger

/-! # Calls that are refused, and calls that never crash

A call is refused for its offsets alone: an offset may lie past the end of the source or inside
a character, a range may end before it starts (`Draft.Edit.Refused`). A ledger that has gone
through any calls refuses just those, stays as it is when it does, and answers all the others as
the draft does (`Ledger.keeps_replay`). For that the runs it reads have to begin and end on
boundaries (`Ledger.Sound.kept?_eq`), which they do since its flags agree on every character.
-/

namespace MembershipLowering

namespace Draft

/-- What is wrong with an offset: it lies past the end, or else inside a character. -/
inductive Misplaced (source : String) (offset : Nat) : Error → Prop
  | past (behind : Text.byteLength source.toList < offset) :
    Misplaced source offset (.offsetOutOfBounds offset (Text.byteLength source.toList))
  | inside (within : offset ≤ Text.byteLength source.toList)
    (cut : ¬Text.isBoundary offset source.toList = true) :
    Misplaced source offset (.notBoundary offset)

/-- What is wrong with a range: it ends before it starts, or else its start is misplaced, or else
    its end. -/
inductive Unfit (source : String) (start stop : Nat) : Error → Prop
  | inverted (turned : stop < start) : Unfit source start stop (.inverted start stop)
  | start {e : Error} (ordered : start ≤ stop) (misplaced : Misplaced source start e) :
    Unfit source start stop e
  | stop {e : Error} (ordered : start ≤ stop) (placed : ∀ e, ¬Misplaced source start e)
    (misplaced : Misplaced source stop e) : Unfit source start stop e

/-- Why a call is refused. -/
def Edit.Refused (source : String) : Edit → Error → Prop
  | .insert offset _ => Misplaced source offset
  | .remove start stop | .slice start stop => Unfit source start stop

end Draft

namespace Marks

open Draft (Edit Misplaced Unfit)

variable {m : Marks} {source : String} {offset start stop : Nat} {e : Edit} {error : Draft.Error}

theorem offsetError?_eq_some_iff :
    (m.draft source).offsetError? offset = some error ↔ Misplaced source offset error := by
  rw [offsetError?_draft]
  constructor
  · intro found
    split at found
    · rename_i behind
      cases found
      exact .past behind
    · rename_i within
      split at found
      · cases found
      · rename_i cut
        cases found
        exact .inside (Nat.not_lt.1 within) cut
  · intro misplaced
    cases misplaced with
    | past behind => exact if_pos behind
    | inside within cut => rw [if_neg (Nat.not_lt.2 within), if_neg cut]

theorem rangeError?_eq_some_iff :
    (m.draft source).rangeError? start stop = some error ↔ Unfit source start stop error := by
  rw [Draft.rangeError?]
  constructor
  · intro found
    split at found
    · rename_i turned
      cases found
      exact .inverted turned
    · rename_i ordered
      rw [Nat.not_lt] at ordered
      rcases Option.or_eq_some_iff.1 found with first | ⟨none, second⟩
      · exact .start ordered (offsetError?_eq_some_iff.1 first)
      · refine .stop ordered (fun e misplaced => ?_) (offsetError?_eq_some_iff.1 second)
        rw [offsetError?_eq_some_iff.2 misplaced] at none
        cases none
  · intro unfit
    cases unfit with
    | inverted turned => exact if_pos turned
    | start ordered misplaced =>
        rw [if_neg (Nat.not_lt.2 ordered), offsetError?_eq_some_iff.2 misplaced]
        rfl
    | stop ordered placed misplaced =>
        have first : (m.draft source).offsetError? start = none :=
          Option.eq_none_iff_forall_ne_some.2 fun e found =>
            placed e (offsetError?_eq_some_iff.1 found)
        rw [if_neg (Nat.not_lt.2 ordered), first, offsetError?_eq_some_iff.2 misplaced]
        rfl

theorem apply_eq_error_iff :
    (m.draft source).apply e = .error error ↔ e.Refused source error := by
  cases e with
  | insert offset text =>
      rw [Edit.Refused, ← offsetError?_eq_some_iff (m := m), Draft.apply, Draft.insert]
      cases (m.draft source).offsetError? offset with
      | some => simp
      | none => simp only [reduceCtorEq, iff_false]; split <;> simp
  | remove start stop =>
      rw [Edit.Refused, ← rangeError?_eq_some_iff (m := m), Draft.apply, Draft.remove]
      cases (m.draft source).rangeError? start stop <;> simp
  | slice start stop =>
      rw [Edit.Refused, ← rangeError?_eq_some_iff (m := m), Draft.apply, Draft.slice]
      cases (m.draft source).rangeError? start stop <;> simp [Except.map]

/-- A draft in which nothing has been done still says what its source says. -/
theorem Whole.render_of_not_isChanged (whole : m.Whole source)
    (same : ¬(m.draft source).isChanged = true) : (m.draft source).render = source := by
  rw [isChanged_draft] at same
  have none : ∀ o, m.inserted o = [] := fun o => Classical.not_not.1 fun some =>
    same ⟨o, whole.inserted o some, .inl some⟩
  have fresh : m.Fresh 0 (Text.byteLength source.toList) := by
    refine ⟨fun o _ _ => none o, fun o _ inside => eq_false_of_ne_true fun gone => ?_⟩
    obtain ⟨front, c, rest, split, lower, upper⟩ := Text.exists_char_of_lt inside
    rw [whole.removed front c rest split o lower upper] at gone
    exact same ⟨_, Text.isBoundary_iff.2 ⟨front, c :: rest, split, rfl⟩, .inr gone⟩
  rw [← String.toList_inj, render_draft, fresh.region_eq, insertedText, none, List.flatMap_nil,
    List.nil_append]
  exact Text.excerptFrom_of_within (Nat.le_refl 0) (Nat.le_of_eq (Nat.zero_add _))

end Marks

namespace Ledger

open Draft (Edit)

variable {l : Ledger} {offset start stop : Nat} {text : String}

theorem runEnd_le (l : Ledger) {i : Nat} (h : i ≤ stop) : l.runEnd stop i ≤ stop := by
  fun_induction runEnd with
  | case1 i here ih => exact ih here.1
  | case2 => exact h

theorem isRemoved_of_lt_runEnd {i j : Nat} (h₁ : i ≤ j) (h₂ : j < l.runEnd stop i) :
    l.isRemoved j = false := by
  fun_induction runEnd with
  | case1 i here ih =>
      rcases Nat.eq_or_lt_of_le h₁ with rfl | behind
      · exact here.2
      · exact ih behind h₂
  | case2 => omega

theorem isRemoved_runEnd {i : Nat} (h : l.runEnd stop i < stop) :
    l.isRemoved (l.runEnd stop i) = true := by
  fun_induction runEnd with
  | case1 i here ih => exact ih h
  | case2 i beyond =>
      exact eq_true_of_ne_false fun kept => beyond ⟨h, kept⟩

theorem lt_runEnd {i : Nat} (inside : i < stop) (kept : l.isRemoved i = false) :
    i < l.runEnd stop i := by
  rw [runEnd, if_pos ⟨inside, kept⟩]
  exact l.le_runEnd stop (i + 1)

/-- A run that begins on a boundary ends on one. -/
theorem Sound.isBoundary_runEnd (sound : l.Sound) {i : Nat}
    (hstop : Text.isBoundary stop l.source.toList = true) (inside : i < stop)
    (kept : l.isRemoved i = false) :
    Text.isBoundary (l.runEnd stop i) l.source.toList = true := by
  rcases Nat.eq_or_lt_of_le (l.runEnd_le (Nat.le_of_lt inside)) with same | before
  · rwa [same]
  · have begun := lt_runEnd inside kept
    have last : l.runEnd stop i - 1 + 1 = l.runEnd stop i := by omega
    have inRun : l.runEnd stop i - 1 < l.runEnd stop i := by omega
    have changes : l.isRemoved (l.runEnd stop i - 1) ≠ l.isRemoved (l.runEnd stop i - 1 + 1) := by
      rw [last, isRemoved_runEnd before, isRemoved_of_lt_runEnd (by omega) inRun]
      exact Bool.false_ne_true
    have boundary := sound.whole.removed.isBoundary_succ
      (by have := Text.le_byteLength_of_isBoundary hstop; omega) changes
    rwa [last] at boundary

/-- The runs are cut out on boundaries, and say what a draft without texts says. -/
theorem Sound.kept?_eq (sound : l.Sound) {i : Nat}
    (hstop : Text.isBoundary stop l.source.toList = true)
    (hstart : i < stop → l.isRemoved i = false → Text.isBoundary i l.source.toList = true)
    (ordered : i ≤ stop) :
    l.kept? stop i = some (l.marks.bare.region l.source i stop) := by
  fun_induction kept? l stop i with
  | case1 i inside kept ih =>
      have begun := lt_runEnd inside kept
      have within := l.runEnd_le (Nat.le_of_lt inside)
      have fresh : l.marks.bare.Fresh i (l.runEnd stop i) :=
        ⟨fun _ _ _ => rfl, fun _ h₁ h₂ => isRemoved_of_lt_runEnd h₁ h₂⟩
      have beyond : l.runEnd stop i < stop → l.isRemoved (l.runEnd stop i) = false →
          Text.isBoundary (l.runEnd stop i) l.source.toList = true := fun before kept' =>
        absurd kept' (by rw [isRemoved_runEnd before]; exact Bool.noConfusion)
      rw [Text.slice?_eq_excerpt (hstart inside kept) (sound.isBoundary_runEnd hstop inside kept)
          (Nat.le_of_lt begun), ih beyond within, ← fresh.region_eq]
      exact congrArg some (Marks.region_append_region (Nat.le_of_lt begun) within)
  | case2 i inside removed ih =>
      have gone : l.isRemoved i = true := by simpa using removed
      have next : i + 1 < stop → l.isRemoved (i + 1) = false →
          Text.isBoundary (i + 1) l.source.toList = true := fun _ kept =>
        sound.whole.removed.isBoundary_succ
          (by have := Text.le_byteLength_of_isBoundary hstop; omega)
          (show l.isRemoved i ≠ l.isRemoved (i + 1) by rw [gone, kept]; exact Bool.noConfusion)
      have empty : l.marks.bare.region l.source i (i + 1) = [] :=
        Marks.region_eq_nil (fun _ _ _ => rfl) fun o h₁ h₂ => by
          rw [show o = i by omega]
          exact gone
      rw [ih next inside, ← Marks.region_append_region (Nat.le_succ i) inside, empty,
        List.nil_append]
  | case3 i beyond =>
      rw [show i = stop by omega, Marks.region_self]

theorem Sound.isBoundary_of_mem (sound : l.Sound) {entry : Nat × List String}
    (among : entry ∈ l.texts) : Text.isBoundary entry.1 l.source.toList = true := by
  refine sound.whole.inserted entry.1 fun none => sound.nonempty entry among ?_
  have empty := List.flatMap_eq_nil_iff.1 none entry among
  rwa [if_pos rfl] at empty

/-- The entries of a stretch are woven into it at their offsets. -/
theorem Sound.weave?_eq (sound : l.Sound) (hstop : Text.isBoundary stop l.source.toList = true)
    {entries : List (Nat × List String)} {i : Nat}
    (hstart : Text.isBoundary i l.source.toList = true) (ordered : i ≤ stop)
    (sorted : entries.Pairwise (·.1 < ·.1))
    (within : ∀ entry ∈ entries, i ≤ entry.1 ∧ entry.1 ≤ stop ∧
      Text.isBoundary entry.1 l.source.toList = true)
    (all : ∀ o, i < o → o ≤ stop → l.marks.inserted o = textsAt o entries) :
    l.weave? stop i entries = some ((textsAt i entries).flatMap String.toList ++
      l.marks.region l.source i stop) := by
  induction entries generalizing i with
  | nil =>
      rw [weave?, sound.kept?_eq hstop (fun _ _ => hstart) ordered]
      refine congrArg some (Marks.region_congr (fun o h₁ h₂ => ?_) fun _ _ _ => rfl)
      exact (all o h₁ h₂).symm
  | cons entry rest ih =>
      obtain ⟨o, texts⟩ := entry
      obtain ⟨⟨lower, upper, boundary⟩, within⟩ := List.forall_mem_cons.1 within
      obtain ⟨first, behind⟩ := List.pairwise_cons.1 sorted
      have here : textsAt o rest = [] :=
        textsAt_eq_nil fun entry among => Nat.ne_of_gt (first entry among)
      have later := ih boundary upper behind (fun entry among =>
        ⟨Nat.le_of_lt (first entry among), (within entry among).2⟩) fun o' h₁ h₂ => by
          rw [all o' (by omega) h₂, textsAt_cons_of_sorted sorted, if_neg (Nat.ne_of_lt h₁)]
      rw [weave?, sound.kept?_eq boundary (fun _ _ => hstart) lower, later, here,
        textsAt_cons_of_sorted sorted]
      refine congrArg some ?_
      by_cases start : o = i
      · subst start
        rw [if_pos rfl, Marks.region_self]
        rfl
      · have alone : ∀ o', i < o' → o' < o → l.marks.inserted o' = [] := by
          intro o' h₁ h₂
          rw [all o' h₁ (by omega)]
          refine textsAt_eq_nil fun entry among same => ?_
          rcases List.mem_cons.1 among with rfl | among
          · exact Nat.ne_of_gt h₂ same
          · exact Nat.lt_irrefl _ (Nat.lt_trans h₂ (same ▸ first entry among))
        have noText : textsAt i rest = [] := textsAt_eq_nil fun entry among =>
          Nat.ne_of_gt (Nat.lt_of_le_of_lt lower (first entry among))
        have texts' : l.marks.insertedText o = texts.flatMap String.toList := by
          rw [Marks.insertedText, all o (by omega) upper, textsAt_cons_of_sorted sorted, if_pos rfl]
        rw [if_neg start, noText, ← Marks.region_append_region lower upper,
          Marks.region_eq_bare alone boundary (by omega), texts']
        simp

/-- A ledger says what its draft says. -/
theorem Sound.textBetween?_eq (sound : l.Sound) (legal : l.draft.rangeError? start stop = none) :
    l.textBetween? start stop = some (l.draft.textBetween start stop) := by
  obtain ⟨ordered, hstart, hstop⟩ := Marks.rangeError?_eq_none_iff.1 legal
  have read : l.draft.slice start stop = .ok (l.draft.textBetween start stop) := by
    rw [Draft.slice, legal]
  let entries := l.texts.filter fun entry =>
    (start < entry.1 || true && entry.1 = start) && entry.1 ≤ stop
  have ranged : range? true start stop l.texts = some entries := if_neg (Nat.not_lt.2 ordered)
  have among_iff : ∀ o, ((decide (start < o) || true && decide (o = start)) && decide (o ≤ stop)) =
      decide (start ≤ o ∧ o ≤ stop) := fun o => by rw [Bool.eq_iff_iff]; simp; omega
  have texts : ∀ o, start ≤ o → o ≤ stop → textsAt o entries = l.marks.inserted o := by
    intro o h₁ h₂
    rw [textsAt_filter (fun o => (start < o || true && o = start) && o ≤ stop), among_iff,
      if_pos (by simp [h₁, h₂])]
    rfl
  have within : ∀ entry ∈ entries, start ≤ entry.1 ∧ entry.1 ≤ stop ∧
      Text.isBoundary entry.1 l.source.toList = true := by
    intro entry among
    obtain ⟨among, inside⟩ := List.mem_filter.1 among
    rw [among_iff, decide_eq_true_eq] at inside
    exact ⟨inside.1, inside.2, sound.isBoundary_of_mem among⟩
  have woven := sound.weave?_eq hstop hstart ordered (sound.sorted.filter _) within
    fun o h₁ h₂ => (texts o (Nat.le_of_lt h₁) h₂).symm
  rw [texts start (Nat.le_refl _) ordered] at woven
  rw [textBetween?, ranged]
  show (l.weave? stop start entries).bind _ = _
  rw [woven]
  refine congrArg some ?_
  rw [← Marks.insertedText, ← Marks.slice_draft read, String.ofList_toList]

/-- A ledger has changed if its draft has. -/
theorem Sound.isChanged_eq (sound : l.Sound) : l.isChanged = l.draft.isChanged := by
  rw [Bool.eq_iff_iff, draft, Marks.isChanged_draft, isChanged, Bool.or_eq_true, List.any_eq_true]
  constructor
  · rintro (some | ⟨flag, among, set⟩)
    · obtain ⟨entry, among⟩ := List.exists_mem_of_ne_nil l.texts (by simpa using some)
      refine ⟨entry.1, sound.isBoundary_of_mem among, .inl fun none => ?_⟩
      have empty := List.flatMap_eq_nil_iff.1 none entry among
      rw [if_pos rfl] at empty
      exact sound.nonempty entry among empty
    · obtain ⟨i, inside, rfl⟩ := List.getElem_of_mem among
      have within : i < Text.byteLength l.source.toList := by
        have length := sound.length_flags
        rw [Ledger.length] at length
        omega
      obtain ⟨front, c, rest, split, lower, upper⟩ := Text.exists_char_of_lt within
      refine ⟨_, Text.isBoundary_iff.2 ⟨front, c :: rest, split, rfl⟩, .inr ?_⟩
      rw [← sound.whole.removed front c rest split i lower upper]
      show (l.flags[i]?).getD false = true
      rw [List.getElem?_eq_getElem inside]
      exact set
  · rintro ⟨offset, -, some | gone⟩
    · refine .inl ?_
      rw [Bool.not_eq_true', List.isEmpty_eq_false_iff]
      intro none
      exact some (by rw [marks, none]; rfl)
    · refine .inr ⟨true, ?_, rfl⟩
      have found : (l.flags[offset]?).getD false = true := gone
      cases at_ : l.flags[offset]? with
      | none => rw [at_] at found; cases found
      | some flag =>
          rw [at_] at found
          obtain rfl : flag = true := found
          exact List.mem_of_getElem? at_

theorem bind_refused {α β : Type} {act : Call α} {stop : Stop} (h : act.run l = .error stop l)
    (f : α → Call β) : (act >>= f).run l = .error stop l := by
  simp only [bind, EStateM.bind, EStateM.run] at h ⊢
  rw [h]

theorem Sound.run_slice (sound : l.Sound) (start stop : Nat) :
    (slice start stop).run l =
      match l.draft.slice start stop with
      | .ok text => .ok text l
      | .error e => .error (.refused e) l := by
  have checked := run_checkRange l start stop
  simp only [slice, bind, EStateM.bind, EStateM.run]
  rw [show checkRange start stop l = _ from checked, Draft.slice]
  cases legal : l.draft.rangeError? start stop with
  | some e => rfl
  | none => exact run_orCrash (sound.textBetween?_eq legal) l

theorem Sound.run_render (sound : l.Sound) : render.run l = .ok l.draft.render l := by
  have legal : l.draft.rangeError? 0 l.length = none := Marks.rangeError?_eq_none_iff.2
    ⟨Nat.zero_le _, Text.isBoundary_zero _, Text.isBoundary_byteLength l.source.toList⟩
  have run : render.run l =
      (if l.isChanged then orCrash (l.textBetween? 0 l.length)
        else pure l.source : Call String) l := rfl
  rw [run]
  split
  · exact run_orCrash (sound.textBetween?_eq legal) l
  · rename_i same
    rw [sound.isChanged_eq] at same
    exact congrArg (EStateM.Result.ok · l) (sound.whole.render_of_not_isChanged same).symm

/-- A call is refused and leaves the ledger as it was, or both the ledger and its draft accept it
    and still say the same. -/
theorem Sound.run_perform (sound : l.Sound) (e : Edit) :
    (∃ error, l.draft.apply e = .error error ∧ (perform e).run l = .error (.refused error) l) ∨
      ∃ later, l.draft.apply e = .ok later.draft ∧ (perform e).run l = .ok () later ∧
        later.Sound ∧ later.source = l.source := by
  cases applied : l.draft.apply e with
  | error error =>
      refine .inl ⟨error, rfl, ?_⟩
      have refused := Marks.apply_eq_error_iff.1 applied
      cases e with
      | insert offset text =>
          refine bind_refused ((run_checkOffset l offset).trans ?_) _
          rw [draft, Marks.offsetError?_eq_some_iff.2 refused, verdict]
      | remove start stop =>
          refine bind_refused ((run_checkRange l start stop).trans ?_) _
          rw [draft, Marks.rangeError?_eq_some_iff.2 refused, verdict]
      | slice start stop =>
          refine bind_refused (bind_refused ((run_checkRange l start stop).trans ?_) _) _
          rw [draft, Marks.rangeError?_eq_some_iff.2 refused, verdict]
  | ok d =>
      obtain ⟨fits, rfl⟩ := Marks.apply_draft applied
      cases e with
      | insert offset text =>
          obtain ⟨later, run, sound', source, marks⟩ :=
            sound.run_insert text (Marks.offsetError?_eq_none_iff.2 fits)
          exact .inr ⟨later, by rw [draft, source, marks]; rfl, run, sound', source⟩
      | remove start stop =>
          obtain ⟨later, run, sound', source, marks⟩ :=
            sound.run_remove (Marks.rangeError?_eq_none_iff.2 fits)
          exact .inr ⟨later, by rw [draft, source, marks]; rfl, run, sound', source⟩
      | slice start stop =>
          have read := sound.run_slice start stop
          have accepted : l.draft.slice start stop = .ok (l.draft.textBetween start stop) := by
            rw [Draft.slice, draft, Marks.rangeError?_eq_none_iff.2 fits]
          rw [accepted] at read
          have run : (perform (.slice start stop)).run l = .ok () l := by
            simp only [perform, bind, EStateM.bind, EStateM.run]
            rw [show slice start stop l = _ from read]
            rfl
          exact .inr ⟨l, rfl, run, sound, rfl⟩

theorem marks_ofSource (source : String) : (ofSource source).marks = .clean := by
  refine Marks.ext rfl (funext fun i => ?_)
  simp [marks, isRemoved, ofSource, Marks.clean, List.getElem?_replicate,
    apply_ite (Option.getD · false)]

theorem sound_ofSource (source : String) : (ofSource source).Sound where
  length_flags := List.length_replicate
  sorted := List.Pairwise.nil
  nonempty := fun _ none => by cases none
  whole := marks_ofSource source ▸ Marks.whole_clean source

theorem draft_ofSource (source : String) : (ofSource source).draft = Draft.ofSource source := by
  rw [draft, marks_ofSource]
  exact Marks.clean_draft source

/-- A ledger goes through any calls, and stays in step with its draft. -/
theorem Sound.replay? (sound : l.Sound) (calls : List Edit) :
    ∃ later, l.replay? calls = some later ∧ later.Sound ∧ later.source = l.source ∧
      later.draft = l.draft.replay calls := by
  induction calls generalizing l with
  | nil => exact ⟨l, rfl, sound, rfl, rfl⟩
  | cons e calls ih =>
      rcases sound.run_perform e with ⟨error, applied, run⟩ | ⟨next, applied, run, sound', source⟩
      · rw [Ledger.replay?, run, Draft.replay, applied]
        exact ih sound
      · rw [Ledger.replay?, run, Draft.replay, applied, ← source]
        exact ih sound'

/-- What a ledger keeps to that has gone through some calls, and its draft with it. -/
structure Keeps (source : String) (l : Ledger) (d : Draft) : Prop where
  /-- No call crashes. -/
  total : ∀ e later, (perform e).run l ≠ .error .crash later
  /-- What is wrong with its offsets decides whether a call is refused. -/
  refused : ∀ e error, (∃ later, (perform e).run l = .error (.refused error) later) ↔
    e.Refused source error
  refused_draft : ∀ e error, d.apply e = .error error ↔ e.Refused source error
  /-- A call that is refused changes nothing. -/
  unchanged : ∀ e error later, (perform e).run l = .error (.refused error) later → later = l
  /-- Reading does not crash either. -/
  slice : ∀ start stop, (slice start stop).run l =
    match d.slice start stop with
    | .ok text => .ok text l
    | .error e => .error (.refused e) l
  render : render.run l = .ok d.render l
  isChanged : l.isChanged = d.isChanged
  /-- A character is removed as a whole or not at all. -/
  removed : Text.Uniform source.toList l.isRemoved
  /-- No text stands inside a character. -/
  texts : ∀ entry ∈ l.texts, Text.isBoundary entry.1 source.toList = true

theorem Sound.keeps (sound : l.Sound) : l.Keeps l.source l.draft where
  total e later crashed := by
    rcases sound.run_perform e with ⟨error, -, run⟩ | ⟨next, -, run, -⟩ <;>
      · rw [run] at crashed
        cases crashed
  refused e error := by
    rw [← Marks.apply_eq_error_iff (m := l.marks), ← draft]
    rcases sound.run_perform e with ⟨error', applied, run⟩ | ⟨next, applied, run, -⟩
    · rw [run, applied]
      constructor
      · rintro ⟨_, ⟨⟩⟩
        rfl
      · rintro ⟨⟩
        exact ⟨l, rfl⟩
    · rw [run, applied]
      constructor
      · rintro ⟨_, ⟨⟩⟩
      · rintro ⟨⟩
  refused_draft e error := Marks.apply_eq_error_iff
  unchanged e error later stopped := by
    rcases sound.run_perform e with ⟨error', -, run⟩ | ⟨next, -, run, -⟩
    · rw [run] at stopped
      cases stopped
      rfl
    · rw [run] at stopped
      cases stopped
  slice := sound.run_slice
  render := sound.run_render
  isChanged := sound.isChanged_eq
  removed := sound.whole.removed
  texts _ := sound.isBoundary_of_mem

/-- After any calls on a source its ledger can be used without harm. -/
theorem keeps_replay (source : String) (calls : List Edit) :
    ∃ l, (ofSource source).replay? calls = some l ∧
      l.Keeps source ((Draft.ofSource source).replay calls) := by
  obtain ⟨l, run, sound, kept, same⟩ := (sound_ofSource source).replay? calls
  obtain rfl : l.source = source := kept
  rw [draft_ofSource] at same
  exact ⟨l, run, same ▸ sound.keeps⟩

/-- "é" takes two bytes. -/
example : (perform (.remove 0 1)).run (ofSource "é") =
    .error (.refused (.notBoundary 1)) (ofSource "é") := rfl

end Ledger

end MembershipLowering
