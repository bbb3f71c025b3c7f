import MembershipLowering.Proofs.Arena.Tree

/-! # The rules of a table

Every membership test of a table starts with one rule. It is negated if the test says
`not in`, once more for every `not` of the table that stands in front of the test.
In a tree at most one does: the parent.
-/

namespace MembershipLowering

/-- Whether the node is a `not` in front of node `n`. -/
def Node.negates (n : NodeId) (node : Node) : Bool :=
  match node.kind with
  | .not _ operand => operand = n
  | _ => false

namespace Rule

/-- The rule that node `n` starts with, before anything is folded into it. -/
def ofNode? (n : NodeId) (node : Node) : Option Rule :=
  match node.kind with
  | .membership left right negated => some ⟨n, left, right, negated⟩
  | _ => none

/-- Of the rules of some nodes those of the nodes that are kept are found. -/
theorem find?_filter_node (rules : List Rule) (keep : NodeId → Bool) (n : NodeId) :
    (rules.filter (keep ·.node)).find? (·.node = n) =
      if keep n then rules.find? (·.node = n) else none := by
  rw [List.find?_filter]
  split
  · rename_i kept
    congr 1
    funext r
    by_cases same : r.node = n
    · simp [same, kept]
    · simp [same]
  · rename_i dropped
    refine List.find?_eq_none.2 fun r _ both => dropped ?_
    rw [decide_eq_true_eq, decide_eq_true_eq] at both
    exact both.2 ▸ both.1

/-- The rule of the opposite test if `odd` is set. -/
def flipIf (odd : Bool) (r : Rule) : Rule :=
  { r with negated := r.negated ^^ odd }

@[simp] theorem flipIf_false : flipIf false = id := by
  funext r
  simp [flipIf]

theorem ofNodes_cons (n : NodeId) (node : Node) (nodes : List Node) :
    ofNodes n (node :: nodes) = (ofNode? n node).toList ++ ofNodes (n + 1) nodes := by
  obtain ⟨kind, extent⟩ := node
  cases kind <;> rfl

theorem node_of_ofNode? {n : NodeId} {node : Node} {r : Rule} (h : ofNode? n node = some r) :
    r.node = n := by
  unfold ofNode? at h
  split at h <;> cases h
  rfl

/-- No rule is made for a node in front of those that are looked at. -/
theorem find?_ofNodes_of_lt {base n : Nat} (nodes : List Node) (h : n < base) :
    (ofNodes base nodes).find? (·.node = n) = none := by
  induction nodes generalizing base with
  | nil => rfl
  | cons node nodes ih =>
      rw [ofNodes_cons, List.find?_append, ih (by omega), Option.or_none]
      cases own : ofNode? base node with
      | none => rfl
      | some r =>
          have other : ¬r.node = n := by
            rw [node_of_ofNode? own]
            exact Nat.ne_of_gt h
          rw [Option.toList_some, List.find?_cons_of_neg (by simpa using other), List.find?_nil]

theorem find?_ofNodes (base i : Nat) (nodes : List Node) :
    (ofNodes base nodes).find? (·.node = base + i) = nodes[i]?.bind (ofNode? (base + i)) := by
  induction nodes generalizing base i with
  | nil => rfl
  | cons node nodes ih =>
      rw [ofNodes_cons, List.find?_append]
      cases i with
      | zero =>
          rw [Nat.add_zero, find?_ofNodes_of_lt nodes (Nat.lt_succ_self base), Option.or_none]
          cases own : ofNode? base node with
          | none => simp [own]
          | some r => simp [own, node_of_ofNode? own]
      | succ i =>
          have later := ih (base + 1) i
          rw [Nat.add_assoc, Nat.add_comm 1 i] at later
          rw [later, List.getElem?_cons_succ]
          cases own : ofNode? base node with
          | none => rfl
          | some r =>
              have other : ¬r.node = base + (i + 1) := by
                rw [node_of_ofNode? own]
                exact Nat.ne_of_lt (by omega)
              rw [Option.toList_some, List.find?_cons_of_neg (by simpa using other),
                List.find?_nil]
              rfl

/-- Folding in one node. -/
theorem find?_fold (rules : List Rule) (node : Node) (n : NodeId) :
    (fold rules node).find? (·.node = n) =
      (rules.find? (·.node = n)).map (flipIf (node.negates n)) := by
  obtain ⟨kind, extent⟩ := node
  cases kind with
  | not sign operand =>
      simp only [fold, Node.negates]
      induction rules with
      | nil => rfl
      | cons r rules ih =>
          have node_flip : (if r.node = operand then r.flip else r).node = r.node := by
            split <;> rfl
          by_cases found : r.node = n
          · rw [List.map_cons, List.find?_cons_of_pos (by rw [node_flip]; simpa using found),
              List.find?_cons_of_pos (by simpa using found), Option.map_some]
            by_cases same : operand = n
            · simp [same, found, flipIf, flip]
            · simp [same, found, Ne.symm same]
          · rw [List.map_cons, List.find?_cons_of_neg (by rw [node_flip]; simpa using found),
              List.find?_cons_of_neg (by simpa using found), ih]
  | _ => simp [fold, Node.negates]

/-- Folding in all nodes. -/
theorem find?_foldl_fold (nodes : List Node) (rules : List Rule) (n : NodeId) :
    (nodes.foldl fold rules).find? (·.node = n) =
      (rules.find? (·.node = n)).map (flipIf (nodes.countP (·.negates n) % 2 = 1)) := by
  induction nodes generalizing rules with
  | nil => simp
  | cons node nodes ih =>
      rw [List.foldl_cons, ih, find?_fold, Option.map_map, List.countP_cons]
      congr 1
      funext r
      simp only [Function.comp, flipIf, Bool.xor_assoc]
      congr 2
      generalize nodes.countP (·.negates n) = count
      cases node.negates n <;> by_cases odd : count % 2 = 1 <;> simp [odd] <;> omega

end Rule

namespace Arena

/-- How many `not` nodes of the table stand in front of node `n`. -/
def signs (a : Arena) (n : NodeId) : Nat :=
  a.nodes.toList.countP (·.negates n)

/-- The rule of a node. -/
theorem rules_find? (a : Arena) (n : NodeId) :
    a.rules.find? (·.node = n) =
      ((a.get? n).bind (Rule.ofNode? n)).map (Rule.flipIf (a.signs n % 2 = 1)) := by
  have first := Rule.find?_ofNodes 0 n a.nodes.toList
  rw [Nat.zero_add, Array.getElem?_toList] at first
  rw [rules, Rule.find?_foldl_fold, first]
  rfl

end Arena

end MembershipLowering
