import MembershipLowering.Draft
import MembershipLowering.Proofs.Text.Excerpt

/-! # Drafts offset by offset

The slots of a draft always have the offsets and characters of its source; only
what has been done to them changes. `Marks` keeps just that, as two functions of
the offset, and `Marks.draft` puts it back onto the source. Edits of the draft are
edits of the marks (`eq_draft_of_insert`, `eq_draft_of_remove`).

What a draft says is read off in regions. The region from `start` to `stop` has the
characters in `[start, stop)` and the inserted texts in `(start, stop]`, which is
just what a removal takes away. So regions that meet in an offset join without
counting anything twice.
-/

namespace MembershipLowering

/-- What has been done to a source, for every byte offset. -/
@[ext]
structure Marks where
  inserted : Nat → List String
  removed : Nat → Bool

namespace Marks

/-- Nothing has been done. -/
def clean : Marks :=
  ⟨fun _ => [], fun _ => false⟩

/-- The marks after a text has been inserted. -/
def insert (m : Marks) (offset : Nat) (text : String) : Marks :=
  { m with
    inserted := fun o =>
      if o = offset ∧ text ≠ "" then m.inserted o ++ [text] else m.inserted o }

/-- The marks after the source from `start` to `stop` has been removed. -/
def remove (m : Marks) (start stop : Nat) : Marks where
  inserted o := if start < o ∧ o ≤ stop then [] else m.inserted o
  removed o := m.removed o || (decide (start ≤ o) && decide (o < stop))

theorem inserted_remove_of_outside (m : Marks) {start stop o : Nat} (h : o ≤ start ∨ stop < o) :
    (m.remove start stop).inserted o = m.inserted o :=
  if_neg (by omega)

theorem inserted_remove_of_inside (m : Marks) {start stop o : Nat} (h₁ : start < o)
    (h₂ : o ≤ stop) : (m.remove start stop).inserted o = [] :=
  if_pos ⟨h₁, h₂⟩

theorem removed_remove_of_outside (m : Marks) {start stop o : Nat} (h : o < start ∨ stop ≤ o) :
    (m.remove start stop).removed o = m.removed o := by
  have outside : (decide (start ≤ o) && decide (o < stop)) = false := by simp; omega
  simp only [remove, outside, Bool.or_false]

theorem removed_remove_of_inside (m : Marks) {start stop o : Nat} (h₁ : start ≤ o)
    (h₂ : o < stop) : (m.remove start stop).removed o = true := by
  simp [remove, h₁, h₂]

/-- Removing nothing changes nothing. -/
theorem remove_self (m : Marks) (offset : Nat) : m.remove offset offset = m := by
  refine Marks.ext (funext fun o => m.inserted_remove_of_outside (by omega))
    (funext fun o => m.removed_remove_of_outside (by omega))

/-- The marks without the texts. -/
def bare (m : Marks) : Marks :=
  { m with inserted := fun _ => [] }

/-- The slots of a text that begins at byte `offset`, marked. -/
def slots (m : Marks) (offset : Nat) : List Char → List Slot
  | [] => [⟨offset, none, m.inserted offset, m.removed offset⟩]
  | c :: cs =>
    ⟨offset, some c, m.inserted offset, m.removed offset⟩ :: slots m (offset + c.utf8Size) cs

theorem slots_nil (m : Marks) (offset : Nat) :
    m.slots offset [] = [⟨offset, none, m.inserted offset, m.removed offset⟩] := rfl

theorem slots_cons (m : Marks) (offset : Nat) (c : Char) (cs : List Char) :
    m.slots offset (c :: cs) = ⟨offset, some c, m.inserted offset, m.removed offset⟩ ::
      m.slots (offset + c.utf8Size) cs := rfl

/-- The source with its marks. -/
def draft (m : Marks) (source : String) : Draft :=
  ⟨m.slots 0 source.toList, Text.byteLength source.toList⟩

theorem clean_draft (source : String) : clean.draft source = Draft.ofSource source := by
  have slots_clean : ∀ cs offset, clean.slots offset cs = Draft.slotsFrom offset cs := by
    intro cs
    induction cs with
    | nil => intro offset; rfl
    | cons c cs ih => intro offset; rw [slots_cons, ih]; rfl
  simp only [draft, Draft.ofSource, slots_clean]

theorem map_insert_slots (m : Marks) (at_ : Nat) {text : String} (h : text ≠ "")
    (offset : Nat) (cs : List Char) :
    (m.slots offset cs).map (Slot.insert at_ text) = (m.insert at_ text).slots offset cs := by
  have one : ∀ offset char, Slot.insert at_ text ⟨offset, char, m.inserted offset,
      m.removed offset⟩ = ⟨offset, char, (m.insert at_ text).inserted offset,
      (m.insert at_ text).removed offset⟩ := by
    intro offset char
    by_cases same : offset = at_ <;> simp [Slot.insert, insert, same, h]
  induction cs generalizing offset with
  | nil => rw [slots_nil, slots_nil, List.map_cons, List.map_nil, one]
  | cons c cs ih => rw [slots_cons, slots_cons, List.map_cons, one, ih]

theorem map_strike_slots (m : Marks) (start stop : Nat) (offset : Nat) (cs : List Char) :
    (m.slots offset cs).map (Slot.strike start stop) = (m.remove start stop).slots offset cs := by
  induction cs generalizing offset with
  | nil => rfl
  | cons c cs ih => rw [slots_cons, List.map_cons, ih]; rfl

/-- An insertion into a marked source marks it further. -/
theorem eq_draft_of_insert {m : Marks} {source : String} {offset : Nat} {text : String}
    {d : Draft} (h : (m.draft source).insert offset text = .ok d) :
    d = (m.insert offset text).draft source := by
  unfold Draft.insert at h
  split at h
  · cases h
  · split at h
    · rename_i empty
      have same : m.insert offset text = m := by simp [insert, empty]
      cases h
      rw [same]
    · rename_i nonempty
      cases h
      simp only [draft, map_insert_slots m offset nonempty]

/-- A removal from a marked source marks it further. -/
theorem eq_draft_of_remove {m : Marks} {source : String} {start stop : Nat} {d : Draft}
    (h : (m.draft source).remove start stop = .ok d) :
    d = (m.remove start stop).draft source := by
  unfold Draft.remove at h
  split at h
  · cases h
  · cases h
    simp only [draft, map_strike_slots]

/-- All the text inserted at an offset. -/
def insertedText (m : Marks) (offset : Nat) : List Char :=
  (m.inserted offset).flatMap String.toList

/-- What a marked text, which begins at byte `offset`, says: the inserted texts where
    `texts` holds, and the remaining characters where `chars` holds. -/
def gather (m : Marks) (texts chars : Nat → Bool) : (offset : Nat) → List Char → List Char
  | offset, [] => if texts offset then m.insertedText offset else []
  | offset, c :: cs =>
    (if texts offset then m.insertedText offset else []) ++
      ((if chars offset && !m.removed offset then [c] else []) ++
        gather m texts chars (offset + c.utf8Size) cs)

theorem gather_nil (m : Marks) (texts chars : Nat → Bool) (offset : Nat) :
    m.gather texts chars offset [] = if texts offset then m.insertedText offset else [] := rfl

theorem gather_cons (m : Marks) (texts chars : Nat → Bool) (offset : Nat) (c : Char)
    (cs : List Char) :
    m.gather texts chars offset (c :: cs) =
      (if texts offset then m.insertedText offset else []) ++
        ((if chars offset && !m.removed offset then [c] else []) ++
          m.gather texts chars (offset + c.utf8Size) cs) := rfl

/-- What the marked source says from `start` to `stop`. -/
def region (m : Marks) (source : String) (start stop : Nat) : List Char :=
  m.gather (fun o => start < o && o ≤ stop) (fun o => start ≤ o && o < stop) 0 source.toList

variable {m m' : Marks} {texts texts' chars chars' : Nat → Bool} {source : String}
variable {start mid stop : Nat}

/-- Only the marks that are gathered matter. -/
theorem gather_congr {cs : List Char} {offset : Nat}
    (htexts : ∀ o, offset ≤ o → (if texts o then m.insertedText o else []) =
      if texts' o then m'.insertedText o else [])
    (hchars : ∀ o, offset ≤ o → (chars o && !m.removed o) = (chars' o && !m'.removed o)) :
    m.gather texts chars offset cs = m'.gather texts' chars' offset cs := by
  induction cs generalizing offset with
  | nil => exact htexts offset (Nat.le_refl _)
  | cons c cs ih =>
      rw [gather_cons, gather_cons, htexts offset (Nat.le_refl _), hchars offset (Nat.le_refl _),
        ih (fun o h => htexts o (by omega)) (fun o h => hchars o (by omega))]

theorem gather_eq_nil {cs : List Char} {offset : Nat}
    (htexts : ∀ o, offset ≤ o → texts o = true → m.insertedText o = [])
    (hchars : ∀ o, offset ≤ o → chars o = true → m.removed o = true) :
    m.gather texts chars offset cs = [] := by
  induction cs generalizing offset with
  | nil => simpa [gather_nil] using htexts offset (Nat.le_refl _)
  | cons c cs ih =>
      have now := htexts offset (Nat.le_refl _)
      have char := hchars offset (Nat.le_refl _)
      rw [gather_cons, ih (fun o h => htexts o (by omega)) (fun o h => hchars o (by omega))]
      simpa using And.intro now char

/-- A gathering can be cut in two behind the texts inserted at any offset. -/
theorem gather_append_gather (texts chars : Nat → Bool) (cut : Nat) (cs : List Char)
    (offset : Nat) :
    m.gather (fun o => texts o && decide (o ≤ cut)) (fun o => chars o && decide (o < cut))
        offset cs ++
      m.gather (fun o => texts o && decide (cut < o)) (fun o => chars o && decide (cut ≤ o))
        offset cs =
      m.gather texts chars offset cs := by
  have past : ∀ cs offset, cut < offset →
      m.gather (fun o => texts o && decide (o ≤ cut)) (fun o => chars o && decide (o < cut))
        offset cs = [] := by
    intro cs offset behind
    apply gather_eq_nil
    · intro o h
      simp [show ¬o ≤ cut by omega]
    · intro o h
      simp [show ¬o < cut by omega]
  induction cs generalizing offset with
  | nil =>
      by_cases before : offset ≤ cut
      · simp [gather_nil, before, show ¬cut < offset by omega]
      · simp [gather_nil, before, show cut < offset by omega]
  | cons c cs ih =>
      have hpos := c.utf8Size_pos
      rcases Nat.lt_trichotomy offset cut with before | same | behind
      · simp [gather_cons, ← ih, before, Nat.le_of_lt before, show ¬cut < offset by omega,
          show ¬cut ≤ offset by omega]
      · subst same
        have rest := ih (offset + c.utf8Size)
        rw [past cs (offset + c.utf8Size) (by omega), List.nil_append] at rest
        simp [gather_cons, rest, past cs (offset + c.utf8Size) (by omega)]
      · have rest := ih (offset + c.utf8Size)
        rw [past cs (offset + c.utf8Size) (by omega), List.nil_append] at rest
        rw [past (c :: cs) offset behind, List.nil_append]
        simp [gather_cons, rest, behind, Nat.le_of_lt behind]

/-- Regions that meet in an offset join. -/
theorem region_append_region (h₁ : start ≤ mid) (h₂ : mid ≤ stop) :
    m.region source start mid ++ m.region source mid stop = m.region source start stop := by
  refine .trans ?_ (gather_append_gather _ _ mid _ _)
  unfold region
  congr 2 <;> funext o <;> rw [Bool.eq_iff_iff] <;> simp <;> omega

/-- A region depends on its own marks only. -/
theorem region_congr (hinserted : ∀ o, start < o → o ≤ stop → m.inserted o = m'.inserted o)
    (hremoved : ∀ o, start ≤ o → o < stop → m.removed o = m'.removed o) :
    m.region source start stop = m'.region source start stop := by
  apply gather_congr
  · intro o _
    by_cases inside : start < o ∧ o ≤ stop
    · simp [insertedText, hinserted o inside.1 inside.2]
    · simp [show (decide (start < o) && decide (o ≤ stop)) = false by simpa using inside]
  · intro o _
    by_cases inside : start ≤ o ∧ o < stop
    · simp [hremoved o inside.1 inside.2]
    · simp [show (decide (start ≤ o) && decide (o < stop)) = false by simpa using inside]

/-- A region that has been taken away is empty. -/
theorem region_eq_nil (hinserted : ∀ o, start < o → o ≤ stop → m.inserted o = [])
    (hremoved : ∀ o, start ≤ o → o < stop → m.removed o = true) :
    m.region source start stop = [] := by
  apply gather_eq_nil
  · intro o _ inside
    simp only [Bool.and_eq_true, decide_eq_true_eq] at inside
    simp [insertedText, hinserted o inside.1 inside.2]
  · intro o _ inside
    simp only [Bool.and_eq_true, decide_eq_true_eq] at inside
    exact hremoved o inside.1 inside.2

/-- An empty region says nothing. -/
@[simp] theorem region_self (m : Marks) (source : String) (start : Nat) :
    m.region source start start = [] :=
  region_eq_nil (fun o h₁ h₂ => absurd h₁ (by omega)) (fun o h₁ h₂ => absurd h₁ (by omega))

/-- Nothing has been done between two offsets. -/
structure Fresh (m : Marks) (start stop : Nat) : Prop where
  inserted : ∀ o, start < o → o ≤ stop → m.inserted o = []
  removed : ∀ o, start ≤ o → o < stop → m.removed o = false

theorem clean_fresh (start stop : Nat) : clean.Fresh start stop :=
  ⟨fun _ _ _ => rfl, fun _ _ _ => rfl⟩

theorem Fresh.within {start' stop' : Nat} (h : m.Fresh start stop) (hstart : start ≤ start')
    (hstop : stop' ≤ stop) : m.Fresh start' stop' :=
  ⟨fun o h₁ h₂ => h.inserted o (by omega) (by omega),
    fun o h₁ h₂ => h.removed o (by omega) (by omega)⟩

/-- A removal behind it leaves a range fresh. -/
theorem Fresh.remove {start' stop' : Nat} (h : m.Fresh start stop) (behind : stop ≤ start') :
    (m.remove start' stop').Fresh start stop where
  inserted o h₁ h₂ := by rw [m.inserted_remove_of_outside (by omega), h.inserted o h₁ h₂]
  removed o h₁ h₂ := by rw [m.removed_remove_of_outside (by omega), h.removed o h₁ h₂]

theorem clean_gather (texts : Nat → Bool) (offset : Nat) (cs : List Char) :
    clean.gather texts (fun o => start ≤ o && o < stop) offset cs =
      Text.excerptFrom start stop offset cs := by
  induction cs generalizing offset with
  | nil => simp [gather_nil, Text.excerptFrom, insertedText, clean]
  | cons c cs ih => rw [gather_cons, ih, Text.excerptFrom_cons]; simp [insertedText, clean]

/-- Where nothing has been done the source stands as it was. -/
theorem Fresh.region_eq (h : m.Fresh start stop) :
    m.region source start stop = Text.excerpt start stop source.toList := by
  rw [show m.region source start stop = clean.region source start stop from
    region_congr h.inserted h.removed]
  exact clean_gather _ 0 _

/-- A draft gathers the texts at both ends of what is read. -/
theorem textBetween_draft (m : Marks) (source : String) (start stop : Nat) :
    ((m.draft source).textBetween start stop).toList =
      m.gather (fun o => start ≤ o && o ≤ stop) (fun o => start ≤ o && o < stop) 0
        source.toList := by
  have one : ∀ offset char (rest : List Slot),
      ((⟨offset, char, m.inserted offset, m.removed offset⟩ :: rest).filter
          fun s => start ≤ s.offset && s.offset ≤ stop).flatMap
          (fun s => s.insertedChars ++ if s.offset < stop then s.kept else []) =
        (if start ≤ offset && offset ≤ stop then m.insertedText offset else []) ++
          ((if (start ≤ offset && offset < stop) && !m.removed offset then char.toList else []) ++
            (rest.filter fun s => start ≤ s.offset && s.offset ≤ stop).flatMap
              (fun s => s.insertedChars ++ if s.offset < stop then s.kept else [])) := by
    intro offset char rest
    by_cases lower : start ≤ offset
    · by_cases upper : offset < stop
      · cases m.removed offset <;>
          simp [lower, upper, Nat.le_of_lt upper, Slot.insertedChars, Slot.kept, insertedText]
      · by_cases last : offset ≤ stop <;>
          simp [lower, upper, last, Slot.insertedChars, insertedText]
    · simp [lower]
  have slots_gather : ∀ cs offset,
      ((m.slots offset cs).filter fun s => start ≤ s.offset && s.offset ≤ stop).flatMap
          (fun s => s.insertedChars ++ if s.offset < stop then s.kept else []) =
        m.gather (fun o => start ≤ o && o ≤ stop) (fun o => start ≤ o && o < stop) offset cs := by
    intro cs
    induction cs with
    | nil => intro offset; rw [slots_nil, one]; simp [gather_nil]
    | cons c cs ih => intro offset; rw [slots_cons, one, ih]; rfl
  rw [Draft.textBetween, String.toList_ofList]
  exact slots_gather _ 0

/-- A slot in front of a region says what is inserted there. -/
theorem gather_at_start (hstart : (m.slots 0 source.toList).any (·.offset = start) = true)
    (hle : start ≤ stop) :
    m.gather (fun o => start ≤ o && o ≤ stop) (fun o => start ≤ o && o < stop) 0 source.toList =
      m.insertedText start ++ m.region source start stop := by
  have beyond : ∀ cs offset, start < offset →
      m.gather (fun o => decide (o = start)) (fun _ => false) offset cs = [] := by
    intro cs offset behind
    apply gather_eq_nil
    · intro o h
      simp [show o ≠ start by omega]
    · simp
  have alone : ∀ cs offset, (m.slots offset cs).any (·.offset = start) = true →
      m.gather (fun o => decide (o = start)) (fun _ => false) offset cs = m.insertedText start := by
    intro cs
    induction cs with
    | nil => intro offset there; simp_all [slots_nil, gather_nil]
    | cons c cs ih =>
        intro offset there
        have hpos := c.utf8Size_pos
        by_cases same : offset = start
        · rw [gather_cons, beyond cs (offset + c.utf8Size) (by omega)]
          simp [same]
        · simp only [slots_cons, List.any_cons, same, decide_false, Bool.false_or] at there
          simp [gather_cons, same, ih _ there]
  rw [← gather_append_gather _ _ start, ← alone source.toList 0 hstart]
  congr 2 <;> funext o <;> rw [Bool.eq_iff_iff] <;> simp <;> omega

/-- The slots of a text are those in front of its parts. -/
theorem mem_slots_iff {s : Slot} {offset : Nat} {cs : List Char} :
    s ∈ m.slots offset cs ↔ ∃ front rest, cs = front ++ rest ∧
      s = ⟨offset + Text.byteLength front, rest.head?, m.inserted (offset + Text.byteLength front),
        m.removed (offset + Text.byteLength front)⟩ := by
  induction cs generalizing offset with
  | nil =>
      rw [slots_nil, List.mem_singleton]
      constructor
      · rintro rfl
        exact ⟨[], [], rfl, rfl⟩
      · rintro ⟨front, rest, split, rfl⟩
        obtain ⟨rfl, rfl⟩ := List.append_eq_nil_iff.1 split.symm
        rfl
  | cons c cs ih =>
      rw [slots_cons, List.mem_cons, ih]
      constructor
      · rintro (rfl | ⟨front, rest, rfl, rfl⟩)
        · exact ⟨[], c :: cs, rfl, rfl⟩
        · exact ⟨c :: front, rest, rfl, by rw [Text.byteLength_cons, Nat.add_assoc]⟩
      · rintro ⟨front, rest, split, rfl⟩
        cases front with
        | nil =>
            obtain rfl : c :: cs = rest := split
            exact .inl rfl
        | cons d front =>
            obtain ⟨rfl, rfl⟩ := List.cons.inj split
            exact .inr ⟨front, rest, rfl, by rw [Text.byteLength_cons, Nat.add_assoc]⟩

/-- Whether some slot of a marked source has a property. -/
theorem any_slots_iff {p : Slot → Bool} : (m.draft source).slots.any p = true ↔
    ∃ front rest, source.toList = front ++ rest ∧ p ⟨Text.byteLength front, rest.head?,
      m.inserted (Text.byteLength front), m.removed (Text.byteLength front)⟩ = true := by
  simp only [List.any_eq_true, draft, mem_slots_iff, Nat.zero_add]
  constructor
  · rintro ⟨_, ⟨front, rest, split, rfl⟩, holds⟩
    exact ⟨front, rest, split, holds⟩
  · rintro ⟨front, rest, split, holds⟩
    exact ⟨_, ⟨front, rest, split, rfl⟩, holds⟩

/-- There are slots at the boundaries of the source and nowhere else. -/
theorem slot_iff_isBoundary {offset : Nat} :
    (m.slots 0 source.toList).any (·.offset = offset) = true ↔
      Text.isBoundary offset source.toList = true := by
  rw [Text.isBoundary_iff]
  refine any_slots_iff.trans ?_
  simp only [decide_eq_true_eq]

/-- The slot in front of a character. -/
theorem mem_slots (front : List Char) (c : Char) (rest : List Char) (offset : Nat) :
    ⟨offset + Text.byteLength front, some c, m.inserted (offset + Text.byteLength front),
      m.removed (offset + Text.byteLength front)⟩ ∈ m.slots offset (front ++ c :: rest) :=
  mem_slots_iff.2 ⟨front, c :: rest, rfl, rfl⟩

/-- Offsets are refused by the source alone, whatever has been done to it. -/
theorem offsetError?_draft (m : Marks) (source : String) (offset : Nat) :
    (m.draft source).offsetError? offset =
      if Text.byteLength source.toList < offset then
        some (.offsetOutOfBounds offset (Text.byteLength source.toList))
      else if Text.isBoundary offset source.toList then none else some (.notBoundary offset) := by
  have slot : (m.draft source).slots.any (·.offset = offset) =
      Text.isBoundary offset source.toList := Bool.eq_iff_iff.2 slot_iff_isBoundary
  rw [Draft.offsetError?, slot]
  rfl

theorem rangeError?_draft (m m' : Marks) (source : String) :
    (m.draft source).rangeError? = (m'.draft source).rangeError? := by
  funext start stop
  simp only [Draft.rangeError?, offsetError?_draft]

theorem offsetError?_eq_none_iff {offset : Nat} :
    (m.draft source).offsetError? offset = none ↔
      Text.isBoundary offset source.toList = true := by
  rw [offsetError?_draft]
  split
  · rename_i past
    refine iff_of_false (by simp) fun there => ?_
    obtain ⟨front, rest, split, rfl⟩ := Text.isBoundary_iff.1 there
    rw [split, Text.byteLength_append] at past
    omega
  · split
    · rename_i there
      exact iff_of_true rfl there
    · rename_i absent
      exact iff_of_false (by simp) absent

theorem rangeError?_eq_none_iff {start stop : Nat} :
    (m.draft source).rangeError? start stop = none ↔ start ≤ stop ∧
      Text.isBoundary start source.toList = true ∧ Text.isBoundary stop source.toList = true := by
  rw [Draft.rangeError?]
  split
  · rename_i inverted
    exact iff_of_false (by simp) fun h => Nat.not_le.2 inverted h.1
  · rename_i ordered
    rw [Option.or_eq_none_iff, offsetError?_eq_none_iff, offsetError?_eq_none_iff]
    exact (and_iff_right (Nat.not_lt.1 ordered)).symm

/-- A region ends with the texts inserted at its end. -/
theorem region_eq_append_insertedText (hstop : Text.isBoundary stop source.toList = true)
    (hlt : start < stop) :
    m.region source start stop =
      m.gather (fun o => start < o && o < stop) (fun o => start ≤ o && o < stop) 0 source.toList ++
        m.insertedText stop := by
  have last : ∀ cs offset, (m.slots offset cs).any (·.offset = stop) = true →
      m.gather (fun o => start < o && o ≤ stop) (fun o => start ≤ o && o < stop) offset cs =
        m.gather (fun o => start < o && o < stop) (fun o => start ≤ o && o < stop) offset cs ++
          m.insertedText stop := by
    intro cs
    induction cs with
    | nil => intro offset there; simp_all [slots_nil, gather_nil]
    | cons c cs ih =>
        intro offset there
        have hpos := c.utf8Size_pos
        by_cases same : offset = stop
        · have done : ∀ texts : Nat → Bool, (∀ o, texts o = true → o ≤ stop) →
              m.gather texts (fun o => start ≤ o && o < stop) (offset + c.utf8Size) cs = [] := by
            intro texts before
            apply gather_eq_nil
            · intro o h inside
              have := before o inside
              omega
            · intro o h inside
              simp only [Bool.and_eq_true, decide_eq_true_eq] at inside
              omega
          rw [gather_cons, gather_cons, done _ (by simp), done _ (by simp; omega)]
          simp [same, hlt]
        · simp only [slots_cons, List.any_cons, same, decide_false, Bool.false_or] at there
          have upTo : decide (offset ≤ stop) = decide (offset < stop) := by
            rw [Bool.eq_iff_iff]; simp; omega
          simp only [gather_cons, ih _ there, upTo, List.append_assoc]
  exact last _ 0 (slot_iff_isBoundary.2 hstop)

/-- A region whose texts are all at its end. -/
theorem region_eq_bare (alone : ∀ o, start < o → o < stop → m.inserted o = [])
    (hstop : Text.isBoundary stop source.toList = true) (hlt : start < stop) :
    m.region source start stop = m.bare.region source start stop ++ m.insertedText stop := by
  rw [region_eq_append_insertedText hstop hlt]
  congr 1
  refine gather_congr (fun o _ => ?_) fun _ _ => rfl
  by_cases inside : start < o ∧ o < stop
  · simp [insertedText, bare, alone o inside.1 inside.2]
  · simp [insertedText, bare]
    omega

/-- What can be read of a draft from `start` on. -/
theorem slice_draft {text : String} (h : (m.draft source).slice start stop = .ok text) :
    text.toList = m.insertedText start ++ m.region source start stop := by
  unfold Draft.slice Draft.rangeError? Draft.offsetError? at h
  split at h
  · cases h
  · rename_i noError
    cases h
    split at noError
    · cases noError
    · rename_i ordered
      rw [textBetween_draft]
      apply gather_at_start _ (by omega)
      rw [Option.or_eq_none_iff] at noError
      have inside := noError.1
      split at inside
      · cases inside
      · split at inside
        · assumption
        · cases inside

/-- The whole draft. -/
theorem render_draft (m : Marks) (source : String) :
    (m.draft source).render.toList =
      m.insertedText 0 ++ m.region source 0 (Text.byteLength source.toList) := by
  have first : (m.slots 0 source.toList).any (·.offset = 0) = true := by
    cases source.toList <;> simp [slots_nil, slots_cons]
  rw [Draft.render, textBetween_draft]
  exact gather_at_start first (Nat.zero_le _)

end Marks

end MembershipLowering
