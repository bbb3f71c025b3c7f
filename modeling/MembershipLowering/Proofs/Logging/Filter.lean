import MembershipLowering.Logging

/-! # Filters

Expanding a filter is a homomorphism from texts with commas to lists of directives: what one
entry stands for does not depend on the entries beside it. What it writes are directives only
(`IsDirective`), so that expanding again finds the same entries and no shortcut among them.
-/

namespace MembershipLowering

namespace Text

theorem head?_dropWhile_isBlank (cs : List Char) :
    ∀ c ∈ (cs.dropWhile isBlank).head?, isBlank c = false := by
  intro c first
  have stop := List.head?_dropWhile_not isBlank cs
  rw [first] at stop
  simpa using stop

/-- No blank is left at an end. -/
theorem ends_trim (cs : List Char) :
    (∀ c ∈ (trim cs).head?, isBlank c = false) ∧ ∀ c ∈ (trim cs).getLast?, isBlank c = false := by
  have first := head?_dropWhile_isBlank cs
  unfold trim
  generalize cs.dropWhile isBlank = front at first
  constructor
  · intro c head
    -- What is left is a beginning of what was there.
    obtain ⟨behind, split⟩ := List.dropWhile_suffix (l := front.reverse) isBlank
    have whole := congrArg List.reverse split
    rw [List.reverse_append, List.reverse_reverse] at whole
    apply first
    rw [← whole, List.head?_append, head]
    rfl
  · rw [List.getLast?_reverse]
    exact head?_dropWhile_isBlank _

theorem mem_of_mem_trim {c : Char} {cs : List Char} (h : c ∈ trim cs) : c ∈ cs := by
  have within := (List.dropWhile_suffix isBlank).subset (List.mem_reverse.1 h)
  exact (List.dropWhile_suffix isBlank).subset (List.mem_reverse.1 within)

theorem dropWhile_isBlank_of_head {cs : List Char} (first : ∀ c ∈ cs.head?, isBlank c = false) :
    cs.dropWhile isBlank = cs := by
  cases cs with
  | nil => rfl
  | cons c cs => rw [List.dropWhile_cons_of_neg (by simp [first c rfl])]

/-- A text without blanks at its ends is left as it is. -/
theorem trim_of_ends {cs : List Char} (first : ∀ c ∈ cs.head?, isBlank c = false)
    (last : ∀ c ∈ cs.getLast?, isBlank c = false) : trim cs = cs := by
  rw [trim, dropWhile_isBlank_of_head first, dropWhile_isBlank_of_head, List.reverse_reverse]
  rwa [List.head?_reverse]

end Text

namespace Logging

/-- The words that stand for directives. -/
def shortcuts : List (List Char) :=
  ["rules".toList, "edits".toList, "parse".toList]

/-- An entry that stands for itself. -/
structure IsDirective (entry : List Char) : Prop where
  nonempty : entry ≠ []
  noComma : ',' ∉ entry
  first : ∀ c ∈ entry.head?, Text.isBlank c = false
  last : ∀ c ∈ entry.getLast?, Text.isBlank c = false
  noShortcut : entry ∉ shortcuts

instance (entry : List Char) : Decidable (IsDirective entry) :=
  decidable_of_iff
    (entry ≠ [] ∧ ',' ∉ entry ∧ entry.head?.any Text.isBlank = false ∧
      entry.getLast?.any Text.isBlank = false ∧ entry ∉ shortcuts)
    ⟨fun ⟨nonempty, noComma, first, last, noShortcut⟩ =>
      ⟨nonempty, noComma, (Option.any_eq_false _ _).1 first, (Option.any_eq_false _ _).1 last,
        noShortcut⟩,
    fun ⟨nonempty, noComma, first, last, noShortcut⟩ =>
      ⟨nonempty, noComma, (Option.any_eq_false _ _).2 first, (Option.any_eq_false _ _).2 last,
        noShortcut⟩⟩

/-- The directives that an entry stands for, one by one. -/
def directives (entry : List Char) : List (List Char) :=
  (expandEntry entry).splitOn ','

/-- The directives that a filter stands for. -/
def expansion (filter : List Char) : List (List Char) :=
  (entries filter).flatMap directives

/-! ## Entries -/

theorem entries_append (v w : List Char) : entries (v ++ ',' :: w) = entries v ++ entries w := by
  rw [entries, List.splitOn_append_cons_self, List.map_append, List.filter_append]
  rfl

theorem expansion_append (v w : List Char) :
    expansion (v ++ ',' :: w) = expansion v ++ expansion w := by
  rw [expansion, entries_append, List.flatMap_append]
  rfl

theorem not_mem_of_mem_splitOn {filter part : List Char} (h : part ∈ filter.splitOn ',') :
    ',' ∉ part := by
  induction filter generalizing part with
  | nil =>
      rw [List.splitOn_nil, List.mem_singleton] at h
      rw [h]
      exact List.not_mem_nil
  | cons c filter ih =>
      rw [List.splitOn_cons_eq_if_modifyHead] at h
      split at h
      · rcases List.mem_cons.1 h with rfl | later
        · exact List.not_mem_nil
        · exact ih later
      · rename_i noComma
        cases shown : filter.splitOn ',' with
        | nil => exact absurd shown (List.splitOn_ne_nil ',' filter)
        | cons first rest =>
            rw [shown] at h ih
            rcases List.mem_cons.1 h with rfl | later
            · have other : ',' ≠ c := fun same => noComma (beq_iff_eq.2 same.symm)
              exact List.not_mem_cons_of_ne_of_not_mem other (ih List.mem_cons_self)
            · exact ih (List.mem_cons_of_mem _ later)

/-- Entries are directives, or words that stand for some. -/
theorem isDirective_of_mem_entries {filter entry : List Char} (h : entry ∈ entries filter)
    (noShortcut : entry ∉ shortcuts) : IsDirective entry := by
  obtain ⟨trimmed, nonempty⟩ := List.mem_filter.1 h
  obtain ⟨part, isPart, rfl⟩ := List.mem_map.1 trimmed
  obtain ⟨first, last⟩ := Text.ends_trim part
  refine ⟨of_decide_eq_true nonempty, fun comma => ?_, first, last, noShortcut⟩
  exact not_mem_of_mem_splitOn isPart (Text.mem_of_mem_trim comma)

/-- Directives with commas between them are read as they are. -/
theorem entries_intercalate {ds : List (List Char)} (h : ∀ d ∈ ds, IsDirective d) :
    entries ([','].intercalate ds) = ds := by
  by_cases empty : ds = []
  · rw [empty]
    rfl
  · have trimmed : ds.map Text.trim = ds :=
      (List.map_congr_left fun d hd => Text.trim_of_ends (h d hd).first (h d hd).last).trans
        (List.map_id ds)
    rw [entries, List.splitOn_intercalate ',' (fun d hd => (h d hd).noComma) empty, trimmed,
      List.filter_eq_self]
    exact fun d hd => decide_eq_true (h d hd).nonempty

/-! ## Directives -/

theorem directives_of_noShortcut {entry : List Char} (noComma : ',' ∉ entry)
    (noShortcut : entry ∉ shortcuts) : directives entry = [entry] := by
  simp only [shortcuts, List.mem_cons, List.not_mem_nil, or_false, not_or] at noShortcut
  rw [directives, expandEntry, if_neg noShortcut.1, if_neg noShortcut.2.1, if_neg noShortcut.2.2,
    List.splitOn_eq_singleton noComma]

theorem isDirective_of_mem_expansion {filter d : List Char} (h : d ∈ expansion filter) :
    IsDirective d := by
  obtain ⟨entry, isEntry, isPart⟩ := List.mem_flatMap.1 h
  by_cases noShortcut : entry ∈ shortcuts
  · have all : ∀ entry ∈ shortcuts, ∀ d ∈ directives entry, IsDirective d := by decide
    exact all entry noShortcut d isPart
  · have entryIs := isDirective_of_mem_entries isEntry noShortcut
    rw [directives_of_noShortcut entryIs.noComma noShortcut] at isPart
    obtain rfl := List.mem_singleton.1 isPart
    exact entryIs

/-- Directives stand for themselves. -/
theorem expansion_intercalate {ds : List (List Char)} (h : ∀ d ∈ ds, IsDirective d) :
    expansion ([','].intercalate ds) = ds := by
  rw [expansion, entries_intercalate h]
  induction ds with
  | nil => rfl
  | cons d ds ih =>
      have here := h d List.mem_cons_self
      rw [List.flatMap_cons, directives_of_noShortcut here.noComma here.noShortcut,
        ih fun d hd => h d (List.mem_cons_of_mem _ hd)]
      rfl

/-! ## Writing directives -/

theorem intercalate_append {xs ys : List (List Char)} (hx : xs ≠ []) (hy : ys ≠ []) :
    [','].intercalate (xs ++ ys) = [','].intercalate xs ++ [','] ++ [','].intercalate ys := by
  induction xs with
  | nil => exact absurd rfl hx
  | cons x xs ih =>
      by_cases last : xs = []
      · subst last
        rw [List.singleton_append, List.intercalate_cons_of_ne_nil hy, List.intercalate_singleton]
      · have both : xs ++ ys ≠ [] := List.append_ne_nil_of_left_ne_nil last ys
        rw [List.cons_append, List.intercalate_cons_of_ne_nil both,
          List.intercalate_cons_of_ne_nil last, ih last]
        simp only [List.append_assoc]

theorem intercalate_flatten {xss : List (List (List Char))} (h : ∀ xs ∈ xss, xs ≠ []) :
    [','].intercalate (xss.map [','].intercalate) = [','].intercalate xss.flatten := by
  induction xss with
  | nil => rfl
  | cons xs xss ih =>
      have later := ih fun xs hxs => h xs (List.mem_cons_of_mem _ hxs)
      by_cases last : xss = []
      · subst last
        simp
      · have nonempty : xss.flatten ≠ [] := by
          obtain ⟨ys, yss, rfl⟩ := List.exists_cons_of_ne_nil last
          exact List.append_ne_nil_of_left_ne_nil (h ys (by simp)) _
        rw [List.map_cons, List.intercalate_cons_of_ne_nil (by simpa using last), later,
          List.flatten_cons, intercalate_append (h xs List.mem_cons_self) nonempty]

/-- An expanded filter is its directives with commas between them. -/
theorem toList_expandFilter (filter : String) :
    (expandFilter filter).toList = [','].intercalate (expansion filter.toList) := by
  have each : (entries filter.toList).map expandEntry =
      ((entries filter.toList).map directives).map [','].intercalate := by
    rw [List.map_map]
    exact List.map_congr_left fun entry _ => (List.intercalate_splitOn ',').symm
  rw [expandFilter, String.toList_ofList, each, intercalate_flatten, expansion,
    List.flatMap_def]
  intro xs hxs
  obtain ⟨entry, -, rfl⟩ := List.mem_map.1 hxs
  exact List.splitOn_ne_nil ',' (expandEntry entry)

/-- Only a filter without directives is expanded to nothing. -/
theorem expandFilter_eq_empty_iff {filter : String} :
    expandFilter filter = "" ↔ expansion filter.toList = [] := by
  rw [← String.toList_inj, toList_expandFilter]
  constructor
  · intro empty
    have directives : ∀ d ∈ expansion filter.toList, IsDirective d :=
      fun d hd => isDirective_of_mem_expansion hd
    have read := entries_intercalate directives
    rw [empty] at read
    exact read.symm
  · intro none
    rw [none]
    rfl

/-- The directives of an expanded filter can be told apart again. -/
theorem splitOn_expandFilter {filter : String} (some : expandFilter filter ≠ "") :
    (expandFilter filter).toList.splitOn ',' = expansion filter.toList := by
  rw [toList_expandFilter]
  refine List.splitOn_intercalate ',' (fun d hd => (isDirective_of_mem_expansion hd).noComma) ?_
  exact fun none => some (expandFilter_eq_empty_iff.2 none)

/-- What a text without commas stands for. -/
theorem expandFilter_of_noComma {entry : String} (noComma : ',' ∉ entry.toList) :
    expandFilter entry = String.ofList (expandEntry (Text.trim entry.toList)) := by
  rw [expandFilter, entries, List.splitOn_eq_singleton noComma, List.map_singleton]
  by_cases blank : Text.trim entry.toList = []
  · rw [blank]
    rfl
  · have kept : [Text.trim entry.toList].filter (· ≠ []) = [Text.trim entry.toList] := by
      simp [blank]
    rw [kept, List.map_singleton, List.intercalate_singleton]

theorem expandFilter_append (v w : String) :
    expandFilter (v ++ "," ++ w) =
      if expandFilter v = "" then expandFilter w
      else if expandFilter w = "" then expandFilter v
      else expandFilter v ++ "," ++ expandFilter w := by
  have both : expansion (v ++ "," ++ w).toList = expansion v.toList ++ expansion w.toList := by
    rw [← expansion_append]
    simp
  apply String.toList_injective
  rw [toList_expandFilter, both]
  split
  · rename_i none
    rw [expandFilter_eq_empty_iff.1 none, List.nil_append, toList_expandFilter]
  · rename_i some
    split
    · rename_i none
      rw [expandFilter_eq_empty_iff.1 none, List.append_nil, toList_expandFilter]
    · rename_i some'
      rw [intercalate_append (mt expandFilter_eq_empty_iff.2 some)
        (mt expandFilter_eq_empty_iff.2 some')]
      simp [toList_expandFilter]

/-- Expanding is stable, goes entry by entry, and leaves directives only. On a single entry it
    writes what the entry stands for. -/
theorem expandFilter_homomorphism (v w : String) :
    expandFilter (expandFilter v) = expandFilter v ∧
      expandFilter (v ++ "," ++ w) =
        (if expandFilter v = "" then expandFilter w
        else if expandFilter w = "" then expandFilter v
        else expandFilter v ++ "," ++ expandFilter w) ∧
      (expandFilter v ≠ "" →
        ∀ entry ∈ (expandFilter v).toList.splitOn ',', IsDirective entry) ∧
      (',' ∉ v.toList → expandFilter v = String.ofList (expandEntry (Text.trim v.toList))) := by
  refine ⟨?_, expandFilter_append v w, fun some entry isEntry => ?_, expandFilter_of_noComma⟩
  · apply String.toList_injective
    rw [toList_expandFilter, toList_expandFilter,
      expansion_intercalate fun d hd => isDirective_of_mem_expansion hd]
  · rw [splitOn_expandFilter some] at isEntry
    exact isDirective_of_mem_expansion isEntry

theorem expandFilter_homomorphism_blank :
    expandFilter "\u3000edits\t" = "dcf_patcher::main_stage=trace" ∧
      expandFilter "\u3000edits\t, ,é=off " = "dcf_patcher::main_stage=trace,é=off" ∧
      ∀ entry ∈ (expandFilter "\u3000edits\t").toList.splitOn ',', IsDirective entry := by
  have noComma : ',' ∉ "\u3000edits\t".toList := by decide
  have other : expandFilter " ,é=off " = "é=off" := by decide +kernel
  obtain ⟨-, append, directives, single⟩ :=
    expandFilter_homomorphism "\u3000edits\t" " ,é=off "
  have first : expandFilter "\u3000edits\t" = "dcf_patcher::main_stage=trace" :=
    (single noComma).trans (by decide +kernel)
  rw [first, other] at append
  exact ⟨first, append, directives (by rw [first]; decide)⟩

end Logging

end MembershipLowering
