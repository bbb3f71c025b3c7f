import MembershipLowering.Lowering.Run
import MembershipLowering.Proofs.Arena.Tree
import MembershipLowering.Proofs.Expr.Subterms
import MembershipLowering.Proofs.Lowering.Site

/-! # Texts that are read off the draft

Lowering reads text off the draft to write it down in another place, but it does so at
pure nodes only. A run in which any other reading does something else, or fails, is
therefore the same run (`lowerReading_eq`). In a document that was read from a source, no
effect has its token at a pure node (`clear_of_isPure`).
-/

namespace MembershipLowering

namespace Lowering

/-- How the lowered text of a node is read, given how nodes are lowered. -/
abbrev Reader :=
  (visit : NodeId → Action State Unit) → NodeId → Action State String

section Reading

variable (d : Document) (o : Options) (read : Reader)

/-- The host that reads as it is told. -/
def hostReading (visit : NodeId → Action State Unit) : Host State :=
  { host d o visit with
    lowerToCode := read visit
    lowerToName := fun n base force =>
      if !force && d.arena.isPure n then read visit n else name d visit n base force }

/-- Lowering a membership test with that host. -/
def membershipReading (visit : NodeId → Action State Unit) (n : NodeId) : Action State Unit := do
  match (← get).rule? n with
  | none => throw (.alreadyLowered n)
  | some rule =>
    modify (·.drop n)
    rule.lower (hostReading d o read visit)

/-- Lowering with that host at every membership test. -/
def lowerReading : (depth : Nat) → NodeId → Action State Unit
  | 0, n => throw (.tooDeep n)
  | depth + 1, n =>
    if d.arena.isMembership n then membershipReading d o read (lowerReading depth) n
    else lowerNode d o (lowerReading depth) n

/-- Lowering all statements with that host. -/
def runReading : Action State Output := do
  (d.statements?.getD []).forM (lowerStatement d (lowerReading d o read maxDepth))
  let s ← get
  return ⟨s.draft.render, s.names.claimed⟩

variable {d o read}

theorem lower_hostReading {visit : NodeId → Action State Unit} (rule : Rule)
    (agrees : ∀ n, d.arena.isPure n = true → read visit n = code d visit n) :
    rule.lower (hostReading d o read visit) = rule.lower (host d o visit) := by
  change (if (d.arena.isPure rule.left && d.arena.isPure rule.right) = true then
      rule.lowerMoving (hostReading d o read visit)
    else rule.lowerStoring (hostReading d o read visit)) =
      if (d.arena.isPure rule.left && d.arena.isPure rule.right) = true then
        rule.lowerMoving (host d o visit)
      else rule.lowerStoring (host d o visit)
  by_cases pure : (d.arena.isPure rule.left && d.arena.isPure rule.right) = true
  · have both := pure
    rw [Bool.and_eq_true] at both
    have same : (hostReading d o read visit).lowerToCode rule.right =
        (host d o visit).lowerToCode rule.right :=
      agrees rule.right both.2
    rw [if_pos pure, if_pos pure]
    unfold Rule.lowerMoving
    rw [same]
    rfl
  · rw [if_neg pure, if_neg pure]
    rfl

theorem node_of_get? {n : NodeId} {node : Node} (found : d.arena.get? n = some node) :
    Lowering.node d n = pure node := by
  rw [Lowering.node, found]

theorem lowerNode_of_isMembership {σ : Type} [MonadLiftT (Action State) (Action σ)]
    [LawfulMonadLiftT (Action State) (Action σ)] {visit : NodeId → Action σ Unit} {n : NodeId}
    (h : d.arena.isMembership n = true) : lowerNode d o visit n = lowerMembership d o visit n := by
  unfold Arena.isMembership at h
  split at h
  · rename_i found
    rw [lowerNode, node_of_get? found, liftM, monadLift_pure, pure_bind]
  · cases h

/-- Only pure nodes are read. -/
theorem lowerReading_eq
    (agrees : ∀ visit n, d.arena.isPure n = true → read visit n = code d visit n) (depth : Nat) :
    lowerReading d o read depth = lower d o depth := by
  funext n
  induction depth generalizing n with
  | zero => rfl
  | succ depth ih =>
      have same : lowerReading d o read depth = lower d o depth := funext ih
      rw [lowerReading, lower, same]
      by_cases test : d.arena.isMembership n = true
      · rw [if_pos test, lowerNode_of_isMembership test, membershipReading, lowerMembership]
        refine bind_congr fun s => ?_
        cases s.rule? n with
        | none => rfl
        | some rule =>
            exact bind_congr fun _ => lower_hostReading rule (agrees (lower d o depth))
      · rw [if_neg test]

theorem runReading_eq
    (agrees : ∀ visit n, d.arena.isPure n = true → read visit n = code d visit n) :
    runReading d o read = run d o := by
  rw [runReading, lowerReading_eq agrees]
  rfl

end Reading

end Lowering

section Arena

variable {a : Arena} {n : Nat}

mutual

/-- Every node in the stretch of an expression belongs to an expression in it. -/
theorem Arena.Holds.exists_within {e : Expr} {base : Nat} (h : a.Holds base (e.layout base))
    (lower : base ≤ n) (upper : n ≤ base + e.countBelow) :
    ∃ c place, Expr.Within e c ∧ n = c.place place ∧ a.Holds place (c.layout place) := by
  by_cases own : n = base + e.countBelow
  · exact ⟨e, base, .self, own, h⟩
  · rw [Expr.countBelow_eq] at upper own
    rw [Expr.layout_eq] at h
    obtain ⟨c, isPart, d, place, within, found⟩ := h.left.exists_withinAll lower
      (Nat.lt_of_le_of_ne upper own)
    exact ⟨d, place, .part isPart within, found⟩
termination_by 2 * e.countBelow + 1
decreasing_by rw [Expr.countBelow_eq]; omega

theorem Arena.Holds.exists_withinAll {es : List Expr} {base : Nat}
    (h : a.Holds base (Expr.layoutAll base es)) (lower : base ≤ n)
    (upper : n < base + Expr.countAll es) :
    ∃ e ∈ es, ∃ c place, Expr.Within e c ∧ n = c.place place ∧ a.Holds place (c.layout place) := by
  cases es with
  | nil => rw [Expr.countAll] at upper; omega
  | cons e es =>
      rw [Expr.countAll] at upper
      rw [Expr.layoutAll] at h
      by_cases inside : n ≤ base + e.countBelow
      · exact ⟨e, List.mem_cons_self, h.left.exists_within lower inside⟩
      · obtain ⟨e', he', found⟩ := h.next.exists_withinAll
          (show base + e.countBelow + 1 ≤ n by omega)
          (show n < base + e.countBelow + 1 + Expr.countAll es by omega)
        exact ⟨e', List.mem_cons_of_mem _ he', found⟩
termination_by 2 * Expr.countAll es
decreasing_by
  all_goals
    subst_vars
    simp only [Expr.countAll]
    omega

end

end Arena

namespace Document

variable {source : String} {tokens : List Token} {es : List Expr}

theorem size_ofStatements (source : String) (tokens : List Token) (es : List Expr) :
    (ofStatements source tokens es).arena.size = Expr.countAll es + 1 := by
  simp only [Arena.size, ofStatements, List.size_toArray, layout, List.length_append,
    Expr.length_layoutAll, List.length_singleton]

/-- A node of a document is the program or belongs to an expression in a statement. -/
theorem cases_of_get? {n : Nat} {node : Node}
    (found : (ofStatements source tokens es).arena.get? n = some node) :
    n = Expr.countAll es ∧
        node = ⟨.program (Expr.places 0 es), .bare ⟨0, Text.byteLength source.toList⟩⟩ ∨
      n < Expr.countAll es ∧ ∃ e ∈ es, ∃ c place, Expr.Within e c ∧ n = c.place place ∧
        node = c.node place ∧
        (ofStatements source tokens es).arena.Holds place (c.layout place) := by
  have inside : n < Expr.countAll es + 1 :=
    size_ofStatements source tokens es ▸ (Array.getElem?_eq_some_iff.1 found).1
  by_cases own : n = Expr.countAll es
  · rw [own, get?_root_ofStatements] at found
    exact .inl ⟨own, (Option.some.inj found).symm⟩
  · obtain ⟨e, he, c, place, within, rfl, holds⟩ :=
      (siteAll_ofStatements source tokens es).holds.exists_withinAll (Nat.zero_le n)
        (show n < 0 + Expr.countAll es by omega)
    exact .inr ⟨by omega, e, he, c, place, within, rfl,
      Option.some.inj (found.symm.trans holds.get?_place), holds⟩

end Document

/-- A pure node exists and is no program. -/
theorem Arena.exists_of_isPure {a : Arena} {n : NodeId} (h : a.isPure n = true) :
    ∃ node, a.get? n = some node ∧ ∀ statements, node.kind ≠ .program statements := by
  unfold Arena.isPure at h
  cases size : a.size with
  | zero => rw [size] at h; cases h
  | succ fuel =>
      rw [size, Arena.isPureWithin] at h
      cases found : a.get? n with
      | none => rw [found] at h; cases h
      | some node =>
          refine ⟨node, rfl, fun statements same => ?_⟩
          rw [found] at h
          simp only [same] at h
          cases h

/-- No effect has its token where a pure node stands. -/
theorem Document.clear_of_isPure {source : String} {tokens : List Token} {es : List Expr}
    {n : NodeId} (read : Token.readAll source = .ok tokens)
    (parsed : Parser.statements source tokens = .ok es)
    (pure : (ofStatements source tokens es).arena.isPure n = true) :
    ∃ node, (ofStatements source tokens es).arena.get? n = some node ∧
      ∀ t ∈ Expr.effectsAll tokens es, ¬node.extent.outer.contains t.span.start := by
  have stream := Token.stream_of_readAll read
  have nested := Parser.nested_of_statements read parsed
  obtain ⟨node, found, plain⟩ := Arena.exists_of_isPure pure
  rcases cases_of_get? found with ⟨-, rfl⟩ | ⟨-, e, he, c, base, within, rfl, rfl, holds⟩
  · exact absurd rfl (plain _)
  refine ⟨_, found, fun t ht inside => ?_⟩
  let keep (i : Nat) : Prop := ∃ t ∈ Expr.effectsAll tokens es, t.span.start = i
  have whole : Expr.Confined keep 0 (Text.byteLength source.toList) (Expr.effectsAll tokens es) :=
    fun i _ _ kept => kept
  have here := (whole.mem nested stream (Nat.le_refl _) (Nat.le_refl _) he).within
    (nested.nested he) stream within
  rw [Expr.extent_node, Span.contains, Bool.and_eq_true, decide_eq_true_eq,
    decide_eq_true_eq] at inside
  obtain ⟨u, hu, -⟩ := here t.span.start inside.1 inside.2 ⟨t, ht, rfl⟩
  rw [Expr.effects_of_isPure tokens (holds.isPure.symm.trans pure)] at hu
  cases hu

end MembershipLowering
