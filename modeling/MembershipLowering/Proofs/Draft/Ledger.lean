import MembershipLowering.Proofs.Draft.History

/-! # Drafts kept byte by byte

A draft can be kept in less room: as the source with one flag for every byte, and a table of
the texts by their offsets. Kept like this it can break. A run of bytes can be cut out of the
source in the middle of a character, flags can be set behind its end, the table can be asked for
a range that ends before it starts. The calls of a `Ledger` crash where this happens.

The calls are checked before they change anything. Those that pass leave a ledger in order
(`Ledger.Sound`): its flags agree on every character, and its texts stand on boundaries. Such a
ledger never crashes, and is as good as the draft with the same marks.
-/

namespace MembershipLowering

/-- A source under edit, kept byte by byte. -/
structure Ledger where
  source : String
  /-- For every byte of the source, whether it has been removed. -/
  flags : List Bool
  /-- The inserted texts by their offsets, in order. -/
  texts : List (Nat × List String)
  deriving DecidableEq, Repr

namespace Ledger

open Draft (Edit)

/-- Why a call stops. -/
inductive Stop where
  | refused (e : Draft.Error)
  | crash
  deriving DecidableEq, Repr

/-- A call on a ledger, which leaves a ledger behind also when it stops. -/
abbrev Call (α : Type) := EStateM Stop Ledger α

def orCrash {α : Type} : Option α → Call α
  | some a => pure a
  | none => throw .crash

def ofSource (source : String) : Ledger :=
  ⟨source, List.replicate (Text.byteLength source.toList) false, []⟩

def length (l : Ledger) : Nat :=
  Text.byteLength l.source.toList

def isRemoved (l : Ledger) (i : Nat) : Bool :=
  l.flags[i]?.getD false

/-- Whether anything has been done to the source. -/
def isChanged (l : Ledger) : Bool :=
  !l.texts.isEmpty || l.flags.any id

/-- The table with one more text. -/
def enter (offset : Nat) (text : String) :
    List (Nat × List String) → List (Nat × List String)
  | [] => [(offset, [text])]
  | (o, texts) :: rest =>
    if o < offset then (o, texts) :: enter offset text rest
    else if o = offset then (o, texts ++ [text]) :: rest
    else (offset, [text]) :: (o, texts) :: rest

/-- The entries of the table from `start` to `stop`, those at `start` only if asked for. -/
def range? (withStart : Bool) (start stop : Nat) (texts : List (Nat × List String)) :
    Option (List (Nat × List String)) :=
  if stop < start then none
  else some (texts.filter fun entry =>
    (start < entry.1 || withStart && entry.1 = start) && entry.1 ≤ stop)

/-- Flag the bytes from `start` to `stop`. -/
def flag? (start stop : Nat) (flags : List Bool) : Option (List Bool) :=
  if start ≤ stop ∧ stop ≤ flags.length then
    some (flags.mapIdx fun i flag => flag || (start ≤ i && i < stop))
  else none

def checkOffset (offset : Nat) : Call Unit := do
  let l ← get
  if l.length < offset then throw (.refused (.offsetOutOfBounds offset l.length))
  else if Text.isBoundary offset l.source.toList then pure ()
  else throw (.refused (.notBoundary offset))

def checkRange (start stop : Nat) : Call Unit := do
  if stop < start then throw (.refused (.inverted start stop))
  else
    checkOffset start
    checkOffset stop

def insert (offset : Nat) (text : String) : Call Unit := do
  checkOffset offset
  if text = "" then pure ()
  else modify fun l => { l with texts := enter offset text l.texts }

def remove (start stop : Nat) : Call Unit := do
  checkRange start stop
  if start = stop then pure ()
  else
    let flags ← orCrash (flag? start stop (← get).flags)
    modify fun l => { l with flags }
    let dropped ← orCrash (range? false start stop (← get).texts)
    modify fun l => { l with texts := l.texts.filter fun entry => entry ∉ dropped }

/-- Where the run of kept bytes from `i` on ends. -/
def runEnd (l : Ledger) (stop i : Nat) : Nat :=
  if i < stop ∧ l.isRemoved i = false then l.runEnd stop (i + 1) else i
termination_by stop - i

theorem le_runEnd (l : Ledger) (stop i : Nat) : i ≤ l.runEnd stop i := by
  fun_induction runEnd with
  | case1 i _ ih => omega
  | case2 => exact Nat.le_refl _

/-- What is kept of the source up to `stop`, cut out run by run. -/
def kept? (l : Ledger) (stop i : Nat) : Option (List Char) :=
  if inside : i < stop then
    if kept : l.isRemoved i = false then do
      let run ← Text.slice? i (l.runEnd stop i) l.source.toList
      let rest ← l.kept? stop (l.runEnd stop i)
      some (run ++ rest)
    else l.kept? stop (i + 1)
  else some []
termination_by stop - i
decreasing_by
  · have := l.le_runEnd stop (i + 1)
    rw [runEnd, if_pos ⟨inside, kept⟩]
    omega
  · omega

/-- What is kept up to `stop`, with the texts of some entries in between. -/
def weave? (l : Ledger) (stop : Nat) : (i : Nat) → List (Nat × List String) → Option (List Char)
  | i, [] => l.kept? stop i
  | i, (offset, texts) :: entries => do
    let front ← l.kept? offset i
    let rest ← l.weave? stop offset entries
    some (front ++ (texts.flatMap String.toList ++ rest))

def textBetween? (l : Ledger) (start stop : Nat) : Option String := do
  let entries ← range? true start stop l.texts
  let cs ← l.weave? stop start entries
  some (String.ofList cs)

def slice (start stop : Nat) : Call String := do
  checkRange start stop
  orCrash ((← get).textBetween? start stop)

/-- The whole edited text. -/
def render : Call String := do
  let l ← get
  if l.isChanged then orCrash (l.textBetween? 0 l.length) else pure l.source

def perform : Edit → Call Unit
  | .insert offset text => insert offset text
  | .remove start stop => remove start stop
  | .slice start stop => do
    let _ ← slice start stop

/-- The ledger that some calls leave, unless one of them crashes. -/
def replay? (l : Ledger) : List Edit → Option Ledger
  | [] => some l
  | e :: calls =>
    match (perform e).run l with
    | .ok _ later | .error (.refused _) later => later.replay? calls
    | .error .crash _ => none

/-- The texts that a table has at an offset. -/
def textsAt (offset : Nat) (texts : List (Nat × List String)) : List String :=
  texts.flatMap fun entry => if entry.1 = offset then entry.2 else []

/-- What has been done to the source of the ledger. -/
def marks (l : Ledger) : Marks :=
  ⟨fun offset => textsAt offset l.texts, l.isRemoved⟩

def draft (l : Ledger) : Draft :=
  l.marks.draft l.source

/-- A ledger in order. -/
structure Sound (l : Ledger) : Prop where
  length_flags : l.flags.length = l.length
  sorted : l.texts.Pairwise (·.1 < ·.1)
  nonempty : ∀ entry ∈ l.texts, entry.2 ≠ []
  whole : l.marks.Whole l.source

variable {l : Ledger} {offset start stop : Nat} {text : String}

/-- How a check ends that finds an error, or none. -/
def verdict (l : Ledger) : Option Draft.Error → EStateM.Result Stop Ledger Unit
  | some e => .error (.refused e) l
  | none => .ok () l

theorem run_checkOffset (l : Ledger) (offset : Nat) :
    (checkOffset offset).run l = l.verdict (l.draft.offsetError? offset) := by
  rw [draft, Marks.offsetError?_draft, ← length]
  have read : EStateM.get l = (.ok l l : EStateM.Result Stop Ledger Ledger) := rfl
  simp only [checkOffset, bind, EStateM.bind, EStateM.run, get, getThe, MonadStateOf.get, read]
  by_cases past : l.length < offset
  · rw [if_pos past, if_pos past]
    rfl
  · rw [if_neg past, if_neg past]
    by_cases boundary : Text.isBoundary offset l.source.toList = true
    · rw [if_pos boundary, if_pos boundary]
      rfl
    · rw [if_neg boundary, if_neg boundary]
      rfl

theorem run_checkRange (l : Ledger) (start stop : Nat) :
    (checkRange start stop).run l = l.verdict (l.draft.rangeError? start stop) := by
  unfold checkRange Draft.rangeError?
  split
  · rfl
  · simp only [bind, EStateM.bind, EStateM.run]
    rw [show checkOffset start l = _ from run_checkOffset l start]
    cases l.draft.offsetError? start with
    | some => rfl
    | none => exact run_checkOffset l stop

/-! ## The table of texts -/

theorem textsAt_eq_nil {texts : List (Nat × List String)}
    (other : ∀ entry ∈ texts, entry.1 ≠ offset) : textsAt offset texts = [] :=
  List.flatMap_eq_nil_iff.2 fun entry among => if_neg (other entry among)

theorem textsAt_cons (offset : Nat) (entry : Nat × List String)
    (texts : List (Nat × List String)) : textsAt offset (entry :: texts) =
      (if entry.1 = offset then entry.2 else []) ++ textsAt offset texts := rfl

/-- The first entry of a table in order is alone at its offset. -/
theorem textsAt_cons_of_sorted {entry : Nat × List String} {texts : List (Nat × List String)}
    (sorted : (entry :: texts).Pairwise (·.1 < ·.1)) (offset : Nat) :
    textsAt offset (entry :: texts) =
      if entry.1 = offset then entry.2 else textsAt offset texts := by
  rw [textsAt_cons]
  split
  · rename_i here
    have behind : textsAt offset texts = [] := textsAt_eq_nil fun entry' among same =>
      absurd (List.rel_of_pairwise_cons sorted among) (by omega)
    rw [behind, List.append_nil]
  · rfl

theorem textsAt_filter (p : Nat → Bool) (offset : Nat) (texts : List (Nat × List String)) :
    textsAt offset (texts.filter fun entry => p entry.1) =
      if p offset then textsAt offset texts else [] := by
  induction texts with
  | nil => exact (ite_self _).symm
  | cons entry texts ih =>
      by_cases kept : p entry.1 = true
      · rw [List.filter_cons_of_pos (by exact kept), textsAt_cons, textsAt_cons, ih]
        by_cases here : entry.1 = offset
        · subst here
          rw [if_pos rfl, if_pos kept, if_pos kept]
        · simp only [if_neg here, List.nil_append]
      · rw [List.filter_cons_of_neg (by exact kept), textsAt_cons, ih]
        by_cases here : entry.1 = offset
        · rw [if_neg (here ▸ kept), if_neg (here ▸ kept)]
        · rw [if_neg here, List.nil_append]

theorem fst_of_mem_enter {texts : List (Nat × List String)} {entry : Nat × List String}
    (among : entry ∈ enter offset text texts) :
    entry.1 = offset ∨ ∃ entry' ∈ texts, entry'.1 = entry.1 := by
  fun_induction enter offset text texts with
  | case1 => exact .inl (by rw [List.mem_singleton.1 among])
  | case2 o texts rest before ih =>
      rcases List.mem_cons.1 among with rfl | among
      · exact .inr ⟨_, List.mem_cons_self .., rfl⟩
      · refine (ih among).imp_right fun ⟨entry', among', same⟩ => ?_
        exact ⟨entry', List.mem_cons_of_mem _ among', same⟩
  | case3 texts rest =>
      rcases List.mem_cons.1 among with rfl | among
      · exact .inl rfl
      · exact .inr ⟨entry, List.mem_cons_of_mem _ among, rfl⟩
  | case4 o texts rest =>
      rcases List.mem_cons.1 among with rfl | among
      · exact .inl rfl
      · exact .inr ⟨entry, among, rfl⟩

theorem sorted_enter {texts : List (Nat × List String)} (sorted : texts.Pairwise (·.1 < ·.1)) :
    (enter offset text texts).Pairwise (·.1 < ·.1) := by
  fun_induction enter offset text texts with
  | case1 => exact List.pairwise_singleton ..
  | case2 o texts rest before ih =>
      obtain ⟨first, behind⟩ := List.pairwise_cons.1 sorted
      refine List.pairwise_cons.2 ⟨fun entry among => ?_, ih behind⟩
      rcases fst_of_mem_enter among with here | ⟨entry', among', same⟩
      · exact here ▸ before
      · exact same ▸ first entry' among'
  | case3 texts rest =>
      obtain ⟨first, behind⟩ := List.pairwise_cons.1 sorted
      exact List.pairwise_cons.2 ⟨first, behind⟩
  | case4 o texts rest before other =>
      refine List.pairwise_cons.2 ⟨fun entry among => ?_, sorted⟩
      rcases List.mem_cons.1 among with rfl | among
      · exact Nat.lt_of_le_of_ne (Nat.not_lt.1 before) (Ne.symm other)
      · have := (List.pairwise_cons.1 sorted).1 entry among
        show offset < entry.1
        omega

theorem nonempty_enter {texts : List (Nat × List String)}
    (nonempty : ∀ entry ∈ texts, entry.2 ≠ []) :
    ∀ entry ∈ enter offset text texts, entry.2 ≠ [] := by
  fun_induction enter offset text texts with
  | case1 => simp
  | case2 o texts rest before ih =>
      obtain ⟨first, behind⟩ := List.forall_mem_cons.1 nonempty
      exact List.forall_mem_cons.2 ⟨first, ih behind⟩
  | case3 texts rest =>
      obtain ⟨-, behind⟩ := List.forall_mem_cons.1 nonempty
      exact List.forall_mem_cons.2 ⟨by simp, behind⟩
  | case4 => exact List.forall_mem_cons.2 ⟨by simp, nonempty⟩

theorem textsAt_enter {texts : List (Nat × List String)} (sorted : texts.Pairwise (·.1 < ·.1))
    (o : Nat) : textsAt o (enter offset text texts) =
      if o = offset then textsAt o texts ++ [text] else textsAt o texts := by
  have entered : (enter offset text texts).Pairwise (·.1 < ·.1) := sorted_enter sorted
  fun_induction enter offset text texts with
  | case1 => simp [textsAt, eq_comm]
  | case2 o' texts rest before ih =>
      rw [textsAt_cons_of_sorted entered, textsAt_cons_of_sorted sorted,
        ih (List.pairwise_cons.1 sorted).2 (List.pairwise_cons.1 entered).2]
      by_cases first : o' = o
      · simp [first, show o ≠ offset by omega]
      · simp [first]
  | case3 texts rest =>
      rw [textsAt_cons_of_sorted entered, textsAt_cons_of_sorted sorted]
      by_cases here : offset = o
      · simp [here]
      · simp [here, Ne.symm here]
  | case4 o' texts rest before other =>
      rw [textsAt_cons_of_sorted entered]
      by_cases here : offset = o
      · have none : textsAt o ((o', texts) :: rest) = [] := by
          refine textsAt_eq_nil fun entry among same => ?_
          rcases List.mem_cons.1 among with rfl | among
          · exact other (same.trans here.symm)
          · have := (List.pairwise_cons.1 sorted).1 entry among
            simp only at this
            omega
        simp [here, none]
      · simp [here, Ne.symm here]

/-! ## Edits -/

/-- What an accepted insertion does. -/
theorem Sound.run_insert (sound : l.Sound) (text : String)
    (legal : l.draft.offsetError? offset = none) :
    ∃ later, (insert offset text).run l = .ok () later ∧ later.Sound ∧
      later.source = l.source ∧ later.marks = l.marks.insert offset text := by
  have checked := run_checkOffset l offset
  rw [legal] at checked
  have boundary := Marks.offsetError?_eq_none_iff.1 legal
  simp only [insert, bind, EStateM.bind, EStateM.run]
  rw [show checkOffset offset l = _ from checked]
  by_cases empty : text = ""
  · refine ⟨l, by rw [if_pos empty]; rfl, sound, rfl, ?_⟩
    simp [Marks.insert, empty]
  · refine ⟨{ l with texts := enter offset text l.texts }, by rw [if_neg empty]; rfl, ?_⟩
    have marks : Ledger.marks { l with texts := enter offset text l.texts } =
        l.marks.insert offset text := by
      refine Marks.ext (funext fun o => ?_) rfl
      simp only [Ledger.marks, Marks.insert, textsAt_enter sound.sorted, ne_eq, empty,
        not_false_eq_true, and_true]
    refine ⟨⟨sound.length_flags, sorted_enter sound.sorted, nonempty_enter sound.nonempty, ?_⟩,
      rfl, marks⟩
    rw [marks]
    exact sound.whole.mark (e := .insert offset text) boundary

theorem getElem?_flag {flags : List Bool} (inside : stop ≤ flags.length) (i : Nat) :
    ((flags.mapIdx fun i flag => flag || (start ≤ i && i < stop))[i]?).getD false =
      (flags[i]?.getD false || (start ≤ i && i < stop)) := by
  rw [List.getElem?_mapIdx]
  cases found : flags[i]? with
  | some => rfl
  | none =>
      rw [List.getElem?_eq_none_iff] at found
      simp [show ¬i < stop by omega]

theorem run_orCrash {α : Type} {x : Option α} {a : α} (found : x = some a) (l : Ledger) :
    orCrash x l = .ok a l := by
  subst found
  rfl

theorem bind_orCrash {α β : Type} {x : Option α} {a : α} (found : x = some a) (f : α → Call β)
    (l : Ledger) : (orCrash x >>= f) l = f a l := by
  subst found
  rfl

/-- What an accepted removal does. -/
theorem Sound.run_remove (sound : l.Sound) (legal : l.draft.rangeError? start stop = none) :
    ∃ later, (remove start stop).run l = .ok () later ∧ later.Sound ∧
      later.source = l.source ∧ later.marks = l.marks.remove start stop := by
  have checked := run_checkRange l start stop
  rw [legal] at checked
  have fits := Marks.rangeError?_eq_none_iff.1 legal
  simp only [remove, bind, EStateM.bind, EStateM.run]
  rw [show checkRange start stop l = _ from checked]
  by_cases empty : start = stop
  · subst empty
    refine ⟨l, by rw [if_pos rfl]; rfl, sound, rfl, ?_⟩
    rw [Marks.remove_self]
  · have inside : stop ≤ l.flags.length :=
      sound.length_flags ▸ Text.le_byteLength_of_isBoundary fits.2.2
    let dropped := l.texts.filter fun entry =>
      (start < entry.1 || false && entry.1 = start) && entry.1 ≤ stop
    let later : Ledger := { l with
      flags := l.flags.mapIdx fun i flag => flag || (start ≤ i && i < stop)
      texts := l.texts.filter fun entry => entry ∉ dropped }
    have left : later.texts = l.texts.filter fun entry =>
        decide ¬(start < entry.1 ∧ entry.1 ≤ stop) :=
      List.filter_congr fun entry among => by simp [dropped, among]
    have marks : later.marks = l.marks.remove start stop := by
      refine Marks.ext (funext fun o => ?_) (funext fun i => getElem?_flag inside i)
      show textsAt o later.texts = _
      rw [left, textsAt_filter fun o => decide ¬(start < o ∧ o ≤ stop)]
      by_cases within : start < o ∧ o ≤ stop <;> simp [Marks.remove, Ledger.marks, within]
    refine ⟨later, ?_, ⟨?_, ?_, ?_, ?_⟩, rfl, marks⟩
    · have flagged : flag? start stop l.flags =
          some (l.flags.mapIdx fun i flag => flag || (start ≤ i && i < stop)) :=
        if_pos ⟨fits.1, inside⟩
      have ranged : range? false start stop l.texts = some dropped :=
        if_neg (Nat.not_lt.2 fits.1)
      rw [if_neg empty]
      exact (bind_orCrash flagged _ l).trans (bind_orCrash ranged _ _)
    · exact (List.length_mapIdx ..).trans sound.length_flags
    · exact sound.sorted.filter _
    · exact fun entry among => sound.nonempty entry (List.mem_filter.1 among).1
    · rw [marks]
      exact sound.whole.mark (e := .remove start stop) fits

end Ledger

end MembershipLowering
