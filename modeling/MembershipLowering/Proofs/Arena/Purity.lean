import Mathlib.Data.List.Perm.Subperm
import MembershipLowering.Arena.Purity

/-! # Purity and what a node leads to

A node is pure if nothing that its fields lead to, over any number of steps, is missing or has
an effect. The steps are read off the fields of each kind of node (`NodeKind.Refers`), and any
table will do, as long as no way from the node leads in a circle: a way that meets no index twice
is no longer than the table, so the test does not run out of steps.
-/

namespace MembershipLowering

/-- A node of this kind has `n` in one of its fields. -/
inductive NodeKind.Refers : NodeKind → NodeId → Prop where
  | statement {statements : List NodeId} {n : NodeId} : n ∈ statements →
      Refers (.program statements) n
  | element {elements : List NodeId} {n : NodeId} : n ∈ elements → Refers (.array elements) n
  | callee {callee : NodeId} {arguments : List NodeId} : Refers (.call callee arguments) callee
  | argument {callee : NodeId} {arguments : List NodeId} {n : NodeId} : n ∈ arguments →
      Refers (.call callee arguments) n
  | object {object : NodeId} {name : Span} : Refers (.member object name) object
  | indexed {object key : NodeId} : Refers (.index object key) object
  | key {object key : NodeId} : Refers (.index object key) key
  | negated {sign : Span} {operand : NodeId} : Refers (.not sign operand) operand
  | first {left right : NodeId} {operator : BinaryOperator} :
      Refers (.binary left operator right) left
  | second {left right : NodeId} {operator : BinaryOperator} :
      Refers (.binary left operator right) right
  | member {left right : NodeId} {negated : Bool} : Refers (.membership left right negated) left
  | container {left right : NodeId} {negated : Bool} :
      Refers (.membership left right negated) right
  | target {target value : NodeId} : Refers (.assign target value) target
  | value {target value : NodeId} : Refers (.assign target value) value

/-- Calls and assignments have an effect, and a program is no expression. -/
def NodeKind.isEffect : NodeKind → Bool
  | .program _ | .call .. | .assign .. => true
  | _ => false

/-- The list of the parts leaves nothing out. -/
theorem NodeKind.refers_iff {kind : NodeKind} {c : NodeId} :
    kind.Refers c ↔ c ∈ kind.children := by
  constructor
  · intro refers
    cases refers <;> simp [children, *]
  · cases kind with
    | program statements => exact .statement
    | atom a => exact nofun
    | array elements => exact .element
    | call callee arguments =>
        intro isPart
        rcases List.mem_cons.1 isPart with rfl | among
        · exact .callee
        · exact .argument among
    | member object name =>
        intro isPart
        exact List.mem_singleton.1 isPart ▸ .object
    | index object key =>
        intro isPart
        rcases List.mem_pair.1 isPart with rfl | rfl
        · exact .indexed
        · exact .key
    | not sign operand =>
        intro isPart
        exact List.mem_singleton.1 isPart ▸ .negated
    | binary left operator right =>
        intro isPart
        rcases List.mem_pair.1 isPart with rfl | rfl
        · exact .first
        · exact .second
    | membership left right negated =>
        intro isPart
        rcases List.mem_pair.1 isPart with rfl | rfl
        · exact .member
        · exact .container
    | assign target value =>
        intro isPart
        rcases List.mem_pair.1 isPart with rfl | rfl
        · exact .target
        · exact .value

namespace Arena

/-- Index `m` is `n`, or a field leads from `n` to an index from which `m` is reached. -/
inductive Reaches (a : Arena) : NodeId → NodeId → Prop where
  | refl (n : NodeId) : Reaches a n n
  | step {n c m : NodeId} {node : Node} : a.get? n = some node → node.kind.Refers c →
      Reaches a c m → Reaches a n m

/-- No way that begins at `n` comes back to where it has been. -/
def AcyclicFrom (a : Arena) (n : NodeId) : Prop :=
  ∀ m, a.Reaches n m → ∀ node c, a.get? m = some node → node.kind.Refers c → ¬a.Reaches c m

variable {a : Arena} {n m c : NodeId} {node : Node} {fuel : Nat}

theorem Reaches.trans {k : NodeId} (h : a.Reaches n m) (h' : a.Reaches m k) : a.Reaches n k := by
  induction h with
  | refl => exact h'
  | step found refers _ ih => exact .step found refers (ih h')

theorem AcyclicFrom.part (h : a.AcyclicFrom n) (found : a.get? n = some node)
    (refers : node.kind.Refers c) : a.AcyclicFrom c :=
  fun m reaches => h m (.step found refers reaches)

theorem isPureWithin_succ_iff : a.isPureWithin (fuel + 1) n = true ↔
    ∃ node, a.get? n = some node ∧ node.kind.isEffect = false ∧
      ∀ c, node.kind.Refers c → a.isPureWithin fuel c = true := by
  simp only [NodeKind.refers_iff]
  rw [isPureWithin]
  cases a.get? n with
  | none => simp
  | some node =>
      obtain ⟨kind, extent⟩ := node
      cases kind <;> simp [NodeKind.isEffect]

/-- What is pure at some depth is pure at every greater depth. -/
theorem isPureWithin_mono {fuel' : Nat} (h : a.isPureWithin fuel n = true) (le : fuel ≤ fuel') :
    a.isPureWithin fuel' n = true := by
  induction fuel generalizing n fuel' with
  | zero => cases h
  | succ fuel ih =>
      obtain ⟨node, found, none, parts⟩ := isPureWithin_succ_iff.1 h
      have positive : 1 ≤ fuel' := Nat.le_trans (Nat.succ_le_succ (Nat.zero_le _)) le
      obtain ⟨more, rfl⟩ := Nat.exists_eq_add_of_le' positive
      exact isPureWithin_succ_iff.2 ⟨node, found, none, fun c refers =>
        ih (parts c refers) (Nat.le_of_succ_le_succ le)⟩

theorem isPureWithin_of_reaches (h : a.isPureWithin fuel n = true) (reaches : a.Reaches n m) :
    a.isPureWithin fuel m = true := by
  induction reaches generalizing fuel with
  | refl => exact h
  | step found refers _ ih =>
      cases fuel with
      | zero => cases h
      | succ fuel =>
          obtain ⟨node, found', -, parts⟩ := isPureWithin_succ_iff.1 h
          cases found.symm.trans found'
          exact isPureWithin_mono (ih (parts _ refers)) (Nat.le_succ fuel)

/-- What a pure node leads to is pure. -/
theorem isPure_of_reaches (h : a.isPure n = true) (reaches : a.Reaches n m) : a.isPure m = true :=
  isPureWithin_of_reaches h reaches

/-- A pure node is there and has no effect. -/
theorem exists_of_isPure_node (h : a.isPure n = true) :
    ∃ node, a.get? n = some node ∧ node.kind.isEffect = false := by
  unfold isPure at h
  cases size : a.size with
  | zero => rw [size] at h; cases h
  | succ fuel =>
      rw [size] at h
      obtain ⟨node, found, none, -⟩ := isPureWithin_succ_iff.1 h
      exact ⟨node, found, none⟩

/-- A path that meets no index twice and has not met this one is not yet as long as the table. -/
theorem length_lt_size {path : List NodeId} (nodup : path.Nodup) (inside : ∀ p ∈ path, p < a.size)
    (new : n ∉ path) (found : a.get? n = some node) : path.length < a.size := by
  have within : ∀ p ∈ n :: path, p ∈ List.range a.size := by
    intro p among
    rcases List.mem_cons.1 among with rfl | earlier
    · exact List.mem_range.2 (Array.getElem?_eq_some_iff.1 found).1
    · exact List.mem_range.2 (inside p earlier)
  have few := (List.subperm_of_subset (List.nodup_cons.2 ⟨new, nodup⟩) within).length_le
  rwa [List.length_cons, List.length_range] at few

/-- The induction is on the steps left, and the path is what has been passed on the way to `n`.
    There is no way back to it, so it grows as the steps get fewer. -/
theorem isPureWithin_of_path (path : List NodeId) (enough : a.size ≤ fuel + path.length)
    (nodup : path.Nodup) (inside : ∀ p ∈ path, p < a.size) (passed : ∀ p ∈ path, ¬a.Reaches n p)
    (acyclic : a.AcyclicFrom n)
    (free : ∀ m, a.Reaches n m → ∃ node, a.get? m = some node ∧ node.kind.isEffect = false) :
    a.isPureWithin fuel n = true := by
  induction fuel generalizing n path with
  | zero =>
      obtain ⟨node, found, -⟩ := free n (.refl n)
      have shorter := length_lt_size nodup inside (fun among => passed n among (.refl n)) found
      omega
  | succ fuel ih =>
      obtain ⟨node, found, none⟩ := free n (.refl n)
      refine isPureWithin_succ_iff.2 ⟨node, found, none, fun c refers => ?_⟩
      refine ih (n :: path) (by rw [List.length_cons]; omega)
        (List.nodup_cons.2 ⟨fun among => passed n among (.refl n), nodup⟩)
        (List.forall_mem_cons.2 ⟨(Array.getElem?_eq_some_iff.1 found).1, inside⟩)
        (fun p among reaches => ?_) (acyclic.part found refers)
        (fun m reaches => free m (.step found refers reaches))
      rcases List.mem_cons.1 among with rfl | earlier
      · exact acyclic p (.refl p) node c found refers reaches
      · exact passed p earlier (.step found refers reaches)

/-- A node is pure if all that it leads to is there and has no effect. -/
theorem isPure_iff_of_acyclicFrom (acyclic : a.AcyclicFrom n) : a.isPure n = true ↔
    ∀ m, a.Reaches n m → ∃ node, a.get? m = some node ∧ node.kind.isEffect = false :=
  ⟨fun pure _ reaches => exists_of_isPure_node (isPure_of_reaches pure reaches),
    isPureWithin_of_path [] (Nat.le_refl _) .nil nofun nofun acyclic⟩

/-- Where indices go down, there are no circles. -/
theorem acyclicFrom_of_descends
    (descends : ∀ n node, a.get? n = some node → ∀ c ∈ node.kind.children, c < n) (n : NodeId) :
    a.AcyclicFrom n := by
  have le : ∀ {n m : NodeId}, a.Reaches n m → m ≤ n := by
    intro n m reaches
    induction reaches with
    | refl => exact Nat.le_refl _
    | step found refers _ ih =>
        have down := descends _ _ found _ (NodeKind.refers_iff.1 refers)
        exact Nat.le_trans ih (Nat.le_of_lt down)
  intro m _ node c found refers back
  have down := descends m node found c (NodeKind.refers_iff.1 refers)
  exact absurd (le back) (Nat.not_le.2 down)

end Arena

end MembershipLowering
