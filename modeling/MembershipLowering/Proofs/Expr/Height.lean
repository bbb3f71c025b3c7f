import MembershipLowering.Proofs.Expr.Subterms
import MembershipLowering.Proofs.Lowering.Printer

/-! # Heights of trees

Three ways to measure how deep a tree goes. `height` counts nodes. `levels` counts the levels
that lowering goes down, which are those of the tree but for the sign `@` of a shorthand: it is
replaced along with its name. `depth` counts as reading does: a part with which an expression
begins is read in a loop, at the depth of the expression itself.

    a.b.c + d + e      height 5, depth 2

A first part of a first part and so on makes the tree higher without making it deeper
(`height_le`).
-/

namespace MembershipLowering.Expr

mutual

/-- Number of levels that lowering goes down. -/
def levels (source : String) : Expr → Nat
  | .atom _ _ => 1
  | .array _ es => levelsAll source es + 1
  | .call _ f es => max (f.levels source) (levelsAll source es) + 1
  | .member _ o name => if o.isShorthand source name then 1 else o.levels source + 1
  | .not _ _ e => e.levels source + 1
  | .index _ l r | .binary _ l _ r | .membership _ l r _ | .assign _ l r =>
    max (l.levels source) (r.levels source) + 1

/-- The greatest number of levels in a list. -/
def levelsAll (source : String) : List Expr → Nat
  | [] => 0
  | e :: es => max (e.levels source) (levelsAll source es)

end

mutual

/-- How deeply the expression is nested: its first part stands no deeper than itself, every
    other part one step deeper. -/
def depth : Expr → Nat
  | .atom _ _ => 1
  | .array _ es => depthAll es + 1
  | .call _ f es => max f.depth (depthAll es + 1)
  | .member _ o _ => o.depth
  | .not _ _ e => e.depth + 1
  | .index _ l r | .binary _ l _ r | .membership _ l r _ | .assign _ l r =>
    max l.depth (r.depth + 1)

/-- The greatest depth in a list. -/
def depthAll : List Expr → Nat
  | [] => 0
  | e :: es => max e.depth (depthAll es)

end

mutual

/-- The greatest number of steps to a first part on a way down. -/
def leads : Expr → Nat
  | .atom _ _ => 0
  | .array _ es => leadsAll es
  | .call _ f es => max (f.leads + 1) (leadsAll es)
  | .member _ o _ => o.leads + 1
  | .not _ _ e => e.leads
  | .index _ l r | .binary _ l _ r | .membership _ l r _ | .assign _ l r =>
    max (l.leads + 1) r.leads

def leadsAll : List Expr → Nat
  | [] => 0
  | e :: es => max e.leads (leadsAll es)

end

theorem levels_pos (source : String) (e : Expr) : 0 < e.levels source := by
  cases e with
  | atom => exact Nat.one_pos
  | member x o name => rw [levels]; split <;> omega
  | _ => exact Nat.succ_pos _

mutual

/-- Every step down goes to a first part or one step deeper. -/
theorem height_le (e : Expr) : e.height ≤ e.depth + e.leads := by
  cases e with
  | atom => exact Nat.le_refl 1
  | array x es =>
      have := heightAll_le es
      simp only [height, depth, leads]
      omega
  | call x f es =>
      have := height_le f
      have := heightAll_le es
      simp only [height, depth, leads]
      omega
  | member x o name =>
      have := height_le o
      simp only [height, depth, leads]
      omega
  | not x sign e =>
      have := height_le e
      simp only [height, depth, leads]
      omega
  | index x l r | binary x l op r | membership x l r negated | assign x l r =>
      have := height_le l
      have := height_le r
      simp only [height, depth, leads]
      omega

theorem heightAll_le (es : List Expr) : heightAll es ≤ depthAll es + leadsAll es := by
  cases es with
  | nil => exact Nat.le_refl 0
  | cons e es =>
      have := height_le e
      have := heightAll_le es
      simp only [heightAll, depthAll, leadsAll]
      omega

end

mutual

/-- Lowering goes no further down than the tree does, and stops at most one level above. -/
theorem levels_le_height (source : String) (e : Expr) :
    e.levels source ≤ e.height ∧ e.height ≤ e.levels source + 1 := by
  cases e with
  | atom => exact ⟨Nat.le_refl 1, Nat.le_succ 1⟩
  | array x es =>
      have := levelsAll_le_heightAll source es
      simp only [height, levels]
      omega
  | call x f es =>
      have := levels_le_height source f
      have := levelsAll_le_heightAll source es
      simp only [height, levels]
      omega
  | member x o name =>
      have := levels_le_height source o
      simp only [height, levels]
      split
      · rename_i shorthand
        obtain ⟨y, rfl, -⟩ := exists_of_isShorthand shorthand
        exact ⟨Nat.le_succ 1, Nat.le_refl 2⟩
      · omega
  | not x sign e =>
      have := levels_le_height source e
      simp only [height, levels]
      omega
  | index x l r | binary x l op r | membership x l r negated | assign x l r =>
      have := levels_le_height source l
      have := levels_le_height source r
      simp only [height, levels]
      omega

theorem levelsAll_le_heightAll (source : String) (es : List Expr) :
    levelsAll source es ≤ heightAll es ∧ heightAll es ≤ levelsAll source es + 1 := by
  cases es with
  | nil => exact ⟨Nat.le_refl 0, Nat.le_succ 0⟩
  | cons e es =>
      have := levels_le_height source e
      have := levelsAll_le_heightAll source es
      simp only [heightAll, levelsAll]
      omega

end

theorem levelsAll_append (source : String) (es es' : List Expr) :
    levelsAll source (es ++ es') = max (levelsAll source es) (levelsAll source es') := by
  induction es with
  | nil => exact (Nat.zero_max _).symm
  | cons e es ih => rw [List.cons_append, levelsAll, ih, levelsAll, Nat.max_assoc]

theorem levels_le_levelsAll (source : String) {es : List Expr} {e : Expr} (h : e ∈ es) :
    e.levels source ≤ levelsAll source es := by
  induction es with
  | nil => cases h
  | cons c es ih =>
      rw [levelsAll]
      cases List.mem_cons.1 h with
      | inl same => exact same ▸ Nat.le_max_left _ _
      | inr later => exact Nat.le_trans (ih later) (Nat.le_max_right _ _)

theorem depth_le_depthAll {es : List Expr} {e : Expr} (h : e ∈ es) : e.depth ≤ depthAll es := by
  induction es with
  | nil => cases h
  | cons c es ih =>
      rw [depthAll]
      cases List.mem_cons.1 h with
      | inl same => exact same ▸ Nat.le_max_left _ _
      | inr later => exact Nat.le_trans (ih later) (Nat.le_max_right _ _)

theorem heightAll_le_of_forall {n : Nat} {es : List Expr} (h : ∀ e ∈ es, e.height ≤ n) :
    heightAll es ≤ n := by
  induction es with
  | nil => exact Nat.zero_le n
  | cons e es ih =>
      exact Nat.max_le.2 ⟨h e List.mem_cons_self, ih fun c hc => h c (List.mem_cons_of_mem _ hc)⟩

/-- A part is lower than the whole. -/
theorem height_lt_of_part {e c : Expr} (h : c ∈ e.parts) : c.height < e.height := by
  cases e with
  | atom => cases h
  | array x es => exact Nat.lt_succ_of_le (height_le_heightAll h)
  | call x f es =>
      rw [height]
      cases List.mem_cons.1 h with
      | inl same => subst same; omega
      | inr later => have := height_le_heightAll later; omega
  | member x o name | not x sign o =>
      exact Nat.lt_succ_of_le (List.mem_singleton.1 h ▸ Nat.le_refl _)
  | index x l r | binary x l op r | membership x l r negated | assign x l r =>
      simp only [parts, List.mem_cons, List.not_mem_nil, or_false] at h
      rw [height]
      rcases h with rfl | rfl <;> omega

theorem Within.height_le {e c : Expr} (h : Within e c) : c.height ≤ e.height := by
  induction h with
  | self => exact Nat.le_refl _
  | part isPart _ ih => exact Nat.le_trans ih (Nat.le_of_lt (height_lt_of_part isPart))

end MembershipLowering.Expr
