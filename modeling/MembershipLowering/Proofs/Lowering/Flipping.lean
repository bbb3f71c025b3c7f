import MembershipLowering.Proofs.Lowering.Mirroring

/-! # The opposite test

`Document.flip` turns one membership test of a document into its opposite and leaves everything
else as it is. The traversal does not look at what a test says itself (`lower_flip`), only at the
rules made from it beforehand. So lowering a document and lowering the flipped one are two runs
of one program, from states that differ in one rule, and such runs go the same way
(`Lowering.mirrors_run`).
-/

namespace MembershipLowering

/-- The opposite test; no other node changes. -/
def Node.flip (node : Node) : Node :=
  match node.kind with
  | .membership left right negated => ⟨.membership left right (!negated), node.extent⟩
  | _ => node

/-- The table with the opposite test at index `n`. -/
def Arena.flip (a : Arena) (n : NodeId) : Arena :=
  ⟨a.nodes.modify n Node.flip⟩

/-- The document with the opposite test at node `n`: the same source, tokens and extents. -/
def Document.flip (d : Document) (n : NodeId) : Document :=
  { d with arena := d.arena.flip n }

namespace Node

@[simp] theorem extent_flip (node : Node) : node.flip.extent = node.extent := by
  unfold flip
  split <;> rfl

@[simp] theorem children_flip (node : Node) :
    node.flip.kind.children = node.kind.children := by
  obtain ⟨kind, extent⟩ := node
  cases kind <;> rfl

@[simp] theorem negates_flip (n : NodeId) (node : Node) :
    node.flip.negates n = node.negates n := by
  obtain ⟨kind, extent⟩ := node
  cases kind <;> rfl

@[simp] theorem ofKind_flip (node : Node) :
    ReceiverForm.ofKind node.flip.kind = ReceiverForm.ofKind node.kind := by
  obtain ⟨kind, extent⟩ := node
  cases kind <;> rfl

theorem ofNode?_flip (n : NodeId) (node : Node) :
    Rule.ofNode? n node.flip = (Rule.ofNode? n node).map Rule.flip := by
  obtain ⟨kind, extent⟩ := node
  cases kind <;> rfl

end Node

namespace Arena

variable (a : Arena) (n m : NodeId)

theorem get?_flip :
    (a.flip n).get? m = (a.get? m).map fun node => if n = m then node.flip else node := by
  simp only [flip, get?, Array.getElem?_modify]
  split <;> simp

/-- What does not tell a test from its opposite does not tell the tables apart. -/
theorem map_nodes_flip {β : Type} {f : Node → β} (h : ∀ node, f node.flip = f node) :
    (a.flip n).nodes.toList.map f = a.nodes.toList.map f := by
  apply List.ext_getElem?
  intro m
  have get := a.get?_flip n m
  simp only [get?] at get
  simp only [List.getElem?_map, Array.getElem?_toList, get, Option.map_map]
  congr 1
  funext node
  by_cases same : n = m <;> simp [same, h]

theorem filterMap_nodes_flip {β : Type} {f : Node → Option β}
    (h : ∀ node, f node.flip = f node) :
    (a.flip n).nodes.toList.filterMap f = a.nodes.toList.filterMap f := by
  have same := congrArg (List.filterMap id) (a.map_nodes_flip n h)
  rwa [List.filterMap_map, List.filterMap_map] at same

theorem signs_flip : (a.flip n).signs m = a.signs m := by
  have same := a.map_nodes_flip n (f := (·.negates m)) fun node => node.negates_flip m
  have count := congrArg (List.countP id) same
  rwa [List.countP_map, List.countP_map] at count

theorem isMembership_flip : (a.flip n).isMembership m = a.isMembership m := by
  unfold isMembership
  rw [get?_flip]
  cases a.get? m with
  | none => rfl
  | some node =>
      obtain ⟨kind, extent⟩ := node
      by_cases same : n = m <;> cases kind <;> simp [same, Node.flip]

theorem isPureWithin_flip (fuel : Nat) :
    (a.flip n).isPureWithin fuel = a.isPureWithin fuel := by
  induction fuel with
  | zero => rfl
  | succ fuel ih =>
      funext m
      simp only [isPureWithin, get?_flip, ih]
      cases a.get? m with
      | none => rfl
      | some node =>
          obtain ⟨kind, extent⟩ := node
          by_cases same : n = m <;> cases kind <;> simp [same, Node.flip, NodeKind.children]

theorem isPure_flip : (a.flip n).isPure = a.isPure := by
  funext m
  have size : (a.flip n).size = a.size := Array.size_modify
  rw [isPure, isPure, size, isPureWithin_flip]

/-- The rule of the flipped test is flipped, and no other. -/
theorem rules_flip_find? :
    (a.flip n).rules.find? (·.node = m) =
      (a.rules.find? (·.node = m)).map (Rule.flipIf (n = m)) := by
  rw [rules_find?, rules_find?, signs_flip, get?_flip]
  cases a.get? m with
  | none => rfl
  | some node =>
      by_cases same : n = m
      · subst same
        simp only [Option.map_some, Option.bind_some, if_true, Node.ofNode?_flip, Option.map_map]
        congr 1
        funext r
        simp [Rule.flipIf, Rule.flip, Bool.xor_comm]
      · simp [same]

end Arena

namespace Lowering

variable {d : Document} {o : Options} {n : NodeId}

theorem extent_flip : extent (d.flip n) = extent d := by
  funext m
  simp only [extent, node, Document.flip, Arena.get?_flip]
  cases d.arena.get? m with
  | none => rfl
  | some node => by_cases same : n = m <;> simp [same]

theorem form_flip : form (d.flip n) = form d := by
  funext m
  simp only [form, Document.flip, Arena.get?_flip]
  cases d.arena.get? m with
  | none => rfl
  | some node => by_cases same : n = m <;> simp [same]

theorem isPure_flip : (d.flip n).arena.isPure = d.arena.isPure :=
  d.arena.isPure_flip n

section Visit

variable (visit : NodeId → Action State Unit)

theorem code_flip : code (d.flip n) visit = code d visit := by
  funext m
  rw [code, extent_flip, code]

theorem name_flip : name (d.flip n) visit = name d visit := by
  funext m base force
  rw [name, name, extent_flip, code_flip, isPure_flip]

theorem host_flip : host (d.flip n) o visit = host d o visit := by
  rw [host, host, extent_flip, form_flip, code_flip, name_flip, isPure_flip]

theorem lowerStatement_flip : lowerStatement (d.flip n) visit = lowerStatement d visit := by
  funext m
  rw [lowerStatement, extent_flip]
  rfl

theorem lowerMember_flip : lowerMember (d.flip n) visit = lowerMember d visit := by
  funext object name
  simp only [lowerMember, node, Document.flip, Arena.get?_flip]
  cases d.arena.get? object with
  | none => rfl
  | some node =>
      obtain ⟨kind, extent⟩ := node
      by_cases same : n = object <;> cases kind <;> simp [same, Node.flip]

theorem lowerNot_flip : lowerNot (d.flip n) visit = lowerNot d visit := by
  funext sign operand
  have test : (d.flip n).arena.isMembership operand = d.arena.isMembership operand :=
    d.arena.isMembership_flip n operand
  rw [lowerNot, extent_flip, test]
  rfl

theorem operatorToken?_flip (m : NodeId) (kind : TokenKind) :
    (d.flip n).operatorToken? m kind = d.operatorToken? m kind := by
  have parts : ∀ children : List NodeId,
      (children.filterMap (d.arena.flip n).get?).map (·.extent.outer) =
        (children.filterMap d.arena.get?).map (·.extent.outer) := by
    intro children
    rw [List.map_filterMap, List.map_filterMap]
    congr 1
    funext c
    rw [Arena.get?_flip, Option.map_map]
    congr 1
    funext node
    by_cases same : n = c <;> simp [same]
  simp only [Document.operatorToken?, Document.flip]
  rw [Arena.get?_flip]
  cases d.arena.get? m with
  | none => rfl
  | some node =>
      by_cases same : n = m
      · simp only [Option.map_some, if_pos same, Node.extent_flip, Node.children_flip, parts]
      · simp only [Option.map_some, if_neg same, parts]

theorem lowerBinary_flip : lowerBinary (d.flip n) visit = lowerBinary d visit := by
  funext m left operator right
  rw [lowerBinary, operatorToken?_flip]
  rfl

theorem lowerMembership_flip : lowerMembership (d.flip n) o visit = lowerMembership d o visit := by
  funext m
  rw [lowerMembership, host_flip]
  rfl

theorem lowerNode_flip : lowerNode (d.flip n) o visit = lowerNode d o visit := by
  funext m
  unfold lowerNode
  rw [lowerStatement_flip, lowerMember_flip, lowerNot_flip, lowerBinary_flip,
    lowerMembership_flip]
  simp only [node, Document.flip, Arena.get?_flip]
  cases d.arena.get? m with
  | none => rfl
  | some node =>
      obtain ⟨kind, extent⟩ := node
      by_cases same : n = m
      · simp only [Option.map_some, if_pos same]
        cases kind <;> rfl
      · simp only [Option.map_some, if_neg same]
        rfl

end Visit

/-- The traversal does not look at what a membership test says. -/
theorem lower_flip (depth : Nat) : lower (d.flip n) o depth = lower d o depth := by
  induction depth with
  | zero => rfl
  | succ depth ih =>
      funext m
      rw [lower, lower, ih, lowerNode_flip]

theorem Opposite.initial (d : Document) (n : NodeId) :
    Opposite n (.initial d) (.initial (d.flip n)) where
  offsets := rfl
  length := rfl
  names := congrArg NameSupply.avoiding (d.arena.filterMap_nodes_flip n fun node => by
    obtain ⟨kind, extent⟩ := node
    cases kind <;> rfl)
  rule? m := d.arena.rules_flip_find? n m

theorem statements?_flip (d : Document) (n : NodeId) :
    (d.flip n).statements? = d.statements? := by
  simp only [Document.statements?, Document.flip, Arena.get?_flip]
  cases d.arena.get? d.root with
  | none => rfl
  | some node =>
      obtain ⟨kind, extent⟩ := node
      by_cases same : n = d.root
      · simp only [Option.map_some, if_pos same]
        cases kind <;> rfl
      · simp only [Option.map_some, if_neg same]

theorem run_flip (d : Document) (o : Options) (n : NodeId) : run (d.flip n) o = run d o := by
  rw [run, statements?_flip, lowerStatement_flip, lower_flip]
  rfl

end Lowering

/-- A document and the flipped one fail alike, or they are both lowered and the same names are
    handed out. -/
theorem Document.lower_flip_cases (d : Document) (o : Options) (n : NodeId) :
    (∃ e, d.lower o = .error e ∧ (d.flip n).lower o = .error e) ∨
      ∃ out out', d.lower o = .ok out ∧ (d.flip n).lower o = .ok out' ∧
        out'.bindings = out.bindings :=
  Document.lower_cases
    (by rw [Lowering.run_flip]; exact Lowering.mirrors_run d o o n _ _ (.initial d n))

end MembershipLowering
