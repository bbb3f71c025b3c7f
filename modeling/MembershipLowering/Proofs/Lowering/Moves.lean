import MembershipLowering.Proofs.Arena.Purity
import MembershipLowering.Proofs.Lowering.Locality

/-! # Small moves

Whatever the traversal is called for, it changes the state in small moves: an edit of the draft, a
rule that is used up, or a name that is handed out. A name is handed out for a node, and goes into
the draft with the same move where the content of the node starts (`Move.store`); only if the
source has no such place, it does not (`Move.waste`). Below a node, names are handed out for the
left operands of tests that cannot be moved, and for no other nodes (`made_lower`).
-/

namespace MembershipLowering

/-- The content of the node starts somewhere in the source. -/
def Document.Locates (d : Document) (n : NodeId) : Prop :=
  ∃ node, d.arena.get? n = some node ∧
    Text.isBoundary node.extent.content.start d.source.toList = true

/-- Node `k` is the left operand of a test at or below `n`, and one of the operands of the test
    is not pure. -/
def Arena.Stores (a : Arena) (n k : NodeId) : Prop :=
  ∃ t right negated x, a.Reaches n t ∧ a.get? t = some ⟨.membership k right negated, x⟩ ∧
    (a.isPure k && a.isPure right) = false

theorem Arena.Stores.of_part {a : Arena} {n c k : NodeId} {node : Node}
    (found : a.get? n = some node) (isPart : c ∈ node.kind.children) (h : a.Stores c k) :
    a.Stores n k := by
  obtain ⟨t, right, negated, x, reaches, test⟩ := h
  exact ⟨t, right, negated, x, .step found (NodeKind.refers_iff.2 isPart) reaches, test⟩

/-- Below a pure node nothing is stored. -/
theorem Arena.Stores.not_isPure {a : Arena} {n k : NodeId} (h : a.Stores n k) :
    ¬a.isPure n = true := by
  obtain ⟨t, right, negated, x, reaches, found, effect⟩ := h
  intro pure
  have operand : ∀ c, NodeKind.Refers (.membership k right negated) c → a.isPure c = true :=
    fun c refers => Arena.isPure_of_reaches pure (reaches.trans (.step found refers (.refl c)))
  rw [operand k .member, operand right .container] at effect
  cases effect

theorem NameSupply.claimed_of_claim? {s names : NameSupply} {base name : String}
    (h : s.claim? base = some (name, names)) : names.claimed = s.claimed ++ [name] := by
  obtain ⟨_, -, same⟩ := Option.map_eq_some_iff.1 h
  cases same
  rfl

namespace Lowering

/-- A small change of the state. -/
inductive Move where
  | edit (e : Draft.Edit)
  /-- The rule of a node is used up. -/
  | use (n : NodeId)
  /-- A name is handed out for a node and assigned to where the content of the node starts. -/
  | store (n : NodeId) (name : String)
  /-- A name is handed out for a node, but there is no place for the assignment. -/
  | waste (n : NodeId) (name : String)

namespace Move

/-- The name that is handed out, if the move does so. -/
def name? : Move → Option String
  | store _ name | waste _ name => some name
  | _ => none

/-- The node that the name is for. -/
def node? : Move → Option NodeId
  | store n _ | waste n _ => some n
  | _ => none

/-- A move and the states before and behind it. -/
inductive Leads (d : Document) : State → Move → State → Prop where
  | edit {s : State} {e : Draft.Edit} {draft : Draft} : s.draft.apply e = .ok draft →
      Leads d s (.edit e) { s with draft := draft }
  | use (s : State) (n : NodeId) : Leads d s (.use n) (s.drop n)
  | store {s : State} {n : NodeId} {node : Node} {base name : String} {names : NameSupply}
      {draft : Draft} : d.arena.get? n = some node → s.names.claim? base = some (name, names) →
      s.draft.insert node.extent.content.start (name ++ " = ") = .ok draft →
      Leads d s (.store n name) { s with draft := draft, names := names }
  | waste {s : State} {n : NodeId} {base name : String} {names : NameSupply} :
      s.names.claim? base = some (name, names) → ¬d.Locates n →
      Leads d s (.waste n name) { s with names := names }

end Move

/-- Moves one after the other. -/
inductive Moves (d : Document) : State → List Move → State → Prop where
  | nil (s : State) : Moves d s [] s
  | cons {s s₁ s₂ : State} {move : Move} {log : List Move} : move.Leads d s s₁ →
      Moves d s₁ log s₂ → Moves d s (move :: log) s₂

/-- A state that moves lead to from the start. -/
def Reached (d : Document) (s : State) : Prop :=
  ∃ log, Moves d (.initial d) log s

variable {d : Document} {o : Options} {s s' s'' : State} {log log' : List Move} {n k : NodeId}
variable {α β : Type}

namespace Moves

theorem append (h : Moves d s log s') (h' : Moves d s' log' s'') : Moves d s (log ++ log') s'' := by
  induction h with
  | nil => exact h'
  | cons leads _ ih => exact .cons leads (ih h')

theorem single {move : Move} (h : move.Leads d s s') : Moves d s [move] s' :=
  .cons h (.nil s')

/-- The names that are handed out are those of the moves. -/
theorem claimed (h : Moves d s log s') :
    s'.names.claimed = s.names.claimed ++ log.filterMap Move.name? := by
  have one : ∀ {s s' : State} {move : Move}, move.Leads d s s' →
      s'.names.claimed = s.names.claimed ++ move.name?.toList := by
    intro s s' move leads
    cases leads with
    | edit | use => exact (List.append_nil _).symm
    | store _ claimed | waste claimed => exact NameSupply.claimed_of_claim? claimed
  induction h with
  | nil => exact (List.append_nil _).symm
  | @cons s s₁ s₂ move log leads _ ih =>
      rw [ih, one leads, List.append_assoc, List.filterMap_cons]
      cases move.name? <;> rfl

/-- Moves without names leave the supply as it is. -/
theorem names_eq (h : Moves d s log s') (unnamed : ∀ move ∈ log, move.node? = none) :
    s'.names = s.names := by
  induction h with
  | nil => rfl
  | cons leads _ ih =>
      obtain ⟨first, later⟩ := List.forall_mem_cons.1 unnamed
      rw [ih later]
      cases leads <;> first | rfl | cases first

/-- The draft stays a draft of the source, and rules come from the table. -/
theorem exists_tied (h : Moves d s log s') {m : Marks} (tied : Tied d m s) :
    ∃ m', Tied d m' s' := by
  induction h generalizing m with
  | nil => exact ⟨m, tied⟩
  | cons leads _ ih =>
      cases leads with
      | edit edited =>
          rw [tied.draft] at edited
          exact ih ⟨(Marks.apply_draft edited).2, tied.known⟩
      | use n => exact ih (tied.drop n)
      | store _ _ inserted =>
          rw [tied.draft] at inserted
          exact ih ⟨Marks.eq_draft_of_insert inserted, tied.known⟩
      | waste => exact ih ⟨tied.draft, tied.known⟩

end Moves

theorem Reached.exists_tied (h : Reached d s) : ∃ m, Tied d m s := by
  obtain ⟨log, moves⟩ := h
  exact moves.exists_tied (tied_initial d)

theorem Reached.later (h : Reached d s) (moves : Moves d s log s') : Reached d s' := by
  obtain ⟨before, first⟩ := h
  exact ⟨before ++ log, first.append moves⟩

/-- What a call for a stored name does itself: its result and state, if it does not go on, and the
    name and the state with which it goes on to the node. -/
inductive Opens (d : Document) (s : State) (n : NodeId) (base : String) :
    Except Failure String → State → Prop where
  | exhausted : s.names.claim? base = none → Opens d s n base (.error (.namesExhausted base)) s
  | missing {name : String} {names : NameSupply} : s.names.claim? base = some (name, names) →
      d.arena.get? n = none → Opens d s n base (.error (.missingNode n)) { s with names := names }
  | outside {name : String} {names : NameSupply} {node : Node} {e : Draft.Error} :
      s.names.claim? base = some (name, names) → d.arena.get? n = some node →
      s.draft.insert node.extent.content.start (name ++ " = ") = .error e →
      Opens d s n base (.error (.edit e)) { s with names := names }
  | spliced {name : String} {names : NameSupply} {node : Node} {draft : Draft} :
      s.names.claim? base = some (name, names) → d.arena.get? n = some node →
      s.draft.insert node.extent.content.start (name ++ " = ") = .ok draft →
      Opens d s n base (.ok name) { s with draft := draft, names := names }

theorem outcome_insert (offset : Nat) (text : String) (s : State) :
    outcome (insert offset text) s =
      match s.draft.insert offset text with
      | .ok draft => (.ok (), { s with draft := draft })
      | .error e => (.error (.edit e), s) := by
  unfold insert
  rw [outcome_bind, show outcome get s = (.ok s, s) from rfl]
  dsimp only
  cases s.draft.insert offset text <;> rfl

theorem outcome_remove (start stop : Nat) (s : State) :
    outcome (remove start stop) s =
      match s.draft.remove start stop with
      | .ok draft => (.ok (), { s with draft := draft })
      | .error e => (.error (.edit e), s) := by
  unfold remove
  rw [outcome_bind, show outcome get s = (.ok s, s) from rfl]
  dsimp only
  cases s.draft.remove start stop <;> rfl

theorem outcome_extent (d : Document) (n : NodeId) (s : State) :
    outcome (extent d n) s =
      match d.arena.get? n with
      | some node => (.ok node.extent, s)
      | none => (.error (.missingNode n), s) := by
  unfold extent node
  cases d.arena.get? n <;> rfl

/-- A call for a name that is not repeated code does its own part, and then lowers the node. -/
theorem exists_opens (d : Document) (s : State) (n : NodeId) (base : String) :
    ∃ result s₁, Opens d s n base result s₁ ∧ ∀ (visit : NodeId → Action State Unit) (force : Bool),
      (!force && d.arena.isPure n) = false →
      outcome (name d visit n base force) s =
        match result with
        | .ok name => outcome (do visit n; return name) s₁
        | .error e => (.error e, s₁) := by
  have opened : ∀ (visit : NodeId → Action State Unit) (force : Bool),
      (!force && d.arena.isPure n) = false → outcome (name d visit n base force) s =
        match s.names.claim? base with
        | none => (.error (.namesExhausted base), s)
        | some (name, names) => outcome (do
            let x ← extent d n
            insert x.content.start (name ++ " = ")
            visit n
            return name) { s with names := names } := by
    intro visit force stores
    simp only [name, liftM, monadLift_self]
    rw [if_neg (by rw [stores]; decide), outcome_bind, show outcome current s = (.ok s, s) from rfl]
    dsimp only
    cases s.names.claim? base with
    | none => rfl
    | some claimed => rfl
  cases claimed : s.names.claim? base with
  | none =>
      refine ⟨_, _, .exhausted claimed, fun visit force stores => ?_⟩
      rw [opened visit force stores, claimed]
  | some both =>
      obtain ⟨name, names⟩ := both
      simp only [claimed, outcome_bind _ _ { s with names := names }, outcome_extent] at opened
      cases found : d.arena.get? n with
      | none =>
          refine ⟨_, _, .missing claimed found, fun visit force stores => ?_⟩
          rw [opened visit force stores, found]
      | some part =>
          simp only [found] at opened
          cases inserted : s.draft.insert part.extent.content.start (name ++ " = ") with
          | error e =>
              refine ⟨_, _, .outside claimed found inserted, fun visit force stores => ?_⟩
              rw [opened visit force stores, outcome_bind, outcome_insert, inserted]
          | ok draft =>
              refine ⟨_, _, .spliced claimed found inserted, fun visit force stores => ?_⟩
              rw [opened visit force stores, outcome_bind, outcome_insert, inserted]

/-- A text can be inserted wherever the source has a boundary, and nowhere else. -/
theorem Tied.exists_insert_iff {m : Marks} (tied : Tied d m s) {offset : Nat} {text : String} :
    (∃ draft, s.draft.insert offset text = .ok draft) ↔
      Text.isBoundary offset d.source.toList = true := by
  rw [tied.draft]
  constructor
  · rintro ⟨draft, inserted⟩
    exact (Marks.apply_draft (e := .insert offset text) inserted).1
  · exact fun boundary => ⟨_, m.apply_of_fits (e := .insert offset text) boundary⟩

/-- Its own part is at most one move. -/
theorem Opens.exists_moves {result : Except Failure String} {base : String}
    (h : Opens d s n base result s') {m : Marks} (tied : Tied d m s) :
    ∃ log, Moves d s log s' ∧ ∀ move ∈ log, ∀ k, move.node? = some k → k = n := by
  have alone : ∀ k, some n = some k → k = n := fun k same => (Option.some.inj same).symm
  cases h with
  | exhausted => exact ⟨[], .nil s, nofun⟩
  | missing claimed missing =>
      have nowhere : ¬d.Locates n := fun ⟨node, found, _⟩ => by
        rw [missing] at found
        cases found
      exact ⟨[_], .single (.waste claimed nowhere), List.forall_mem_singleton.2 alone⟩
  | outside claimed found refused =>
      have nowhere : ¬d.Locates n := fun ⟨node, found', boundary⟩ => by
        cases found.symm.trans found'
        obtain ⟨draft, inserted⟩ := tied.exists_insert_iff.2 boundary
        cases inserted.symm.trans refused
      exact ⟨[_], .single (.waste claimed nowhere), List.forall_mem_singleton.2 alone⟩
  | spliced claimed found inserted =>
      exact ⟨[_], .single (.store found claimed inserted), List.forall_mem_singleton.2 alone⟩

/-- However it ends, the action is made of moves, and names are handed out for the nodes in `P`
    only. -/
def Made (d : Document) (P : NodeId → Prop) (act : Action State α) : Prop :=
  ∀ s, Reached d s → ∃ log, Moves d s log (outcome act s).2 ∧
    ∀ move ∈ log, ∀ k, move.node? = some k → P k

namespace Made

variable {P Q : NodeId → Prop}

theorem mono {act : Action State α} (h : Made d P act) (le : ∀ k, P k → Q k) : Made d Q act := by
  intro s reached
  obtain ⟨log, moves, named⟩ := h s reached
  exact ⟨log, moves, fun move among k same => le k (named move among k same)⟩

/-- The action does not change the state. -/
theorem still {act : Action State α} (h : ∀ s, (outcome act s).2 = s) : Made d P act := by
  intro s _
  rw [h s]
  exact ⟨[], .nil s, nofun⟩

theorem bind {act : Action State α} {f : α → Action State β} (h : Made d P act)
    (next : ∀ a, Made d P (f a)) : Made d P (act >>= f) := by
  intro s reached
  obtain ⟨log, moves, named⟩ := h s reached
  rw [outcome_bind]
  generalize outcome act s = r at moves
  obtain ⟨_ | a, later⟩ := r
  · exact ⟨log, moves, named⟩
  · obtain ⟨log', moves', named'⟩ := next a later (reached.later moves)
    refine ⟨log ++ log', moves.append moves', fun move among => ?_⟩
    exact (List.mem_append.1 among).elim (named move) (named' move)

theorem pure (a : α) : Made d P (Pure.pure a) := still fun _ => rfl

theorem throw (e : Failure) : Made d P (MonadExcept.throw e : Action State α) := still fun _ => rfl

theorem get : Made d P MonadState.get := still fun _ => rfl

theorem extent (d : Document) (n : NodeId) : Made d P (extent d n) := by
  refine still fun s => ?_
  rw [outcome_extent]
  cases d.arena.get? n <;> rfl

theorem node_bind {f : Node → Action State β}
    (next : ∀ node, d.arena.get? n = some node → Made d P (f node)) :
    Made d P (node d n >>= f) := by
  unfold Lowering.node
  cases found : d.arena.get? n with
  | none => exact throw _
  | some node => exact next node found

theorem insert (offset : Nat) (text : String) : Made d P (insert offset text) := by
  intro s _
  rw [outcome_insert]
  cases inserted : s.draft.insert offset text with
  | error e => exact ⟨[], .nil s, nofun⟩
  | ok draft =>
      exact ⟨[_], .single (.edit (e := .insert offset text) inserted),
        List.forall_mem_singleton.2 nofun⟩

theorem remove (start stop : Nat) : Made d P (remove start stop) := by
  intro s _
  rw [outcome_remove]
  cases removed : s.draft.remove start stop with
  | error e => exact ⟨[], .nil s, nofun⟩
  | ok draft =>
      exact ⟨[_], .single (.edit (e := .remove start stop) removed),
        List.forall_mem_singleton.2 nofun⟩

theorem replace (span : Span) (text : String) : Made d P (replace span text) :=
  (remove _ _).bind fun _ => insert _ _

theorem forM {xs : List α} {f : α → Action State Unit} (h : ∀ a ∈ xs, Made d P (f a)) :
    Made d P (xs.forM f) := by
  induction xs with
  | nil => exact pure _
  | cons a xs ih =>
      obtain ⟨first, later⟩ := List.forall_mem_cons.1 h
      exact first.bind fun _ => ih later

theorem sometimes {c : Prop} [Decidable c] {act : Action State Unit} {f : Unit → Action State β}
    (h : Made d P act) (next : ∀ u, Made d P (f u)) :
    Made d P (if c then act >>= f else f ()) := by
  split
  · exact h.bind next
  · exact next ()

section Traversal

variable {visit : NodeId → Action State Unit}

theorem code (visits : Made d P (visit n)) : Made d P (code d visit n) := by
  refine visits.bind fun _ => (extent d n).bind fun x => get.bind fun s => ?_
  cases s.draft.slice x.outer.start x.outer.stop with
  | ok text => exact pure text
  | error e => exact throw _

theorem name (visits : Made d P (visit n)) (own : P n) (base : String) (force : Bool) :
    Made d P (name d visit n base force) := by
  cases repeated : !force && d.arena.isPure n with
  | true =>
      unfold Lowering.name
      rw [if_pos repeated]
      exact code visits
  | false =>
      intro s reached
      obtain ⟨m, tied⟩ := reached.exists_tied
      obtain ⟨result, s₁, opens, whole⟩ := exists_opens d s n base
      obtain ⟨log, moves, named⟩ := opens.exists_moves tied
      have first : ∀ move ∈ log, ∀ k, move.node? = some k → P k :=
        fun move among k same => named move among k same ▸ own
      rw [whole visit force repeated]
      cases result with
      | error e => exact ⟨log, moves, first⟩
      | ok name =>
          obtain ⟨log', moves', named'⟩ :=
            (visits.bind fun _ => pure name) s₁ (reached.later moves)
          refine ⟨log ++ log', moves.append moves', fun move among => ?_⟩
          exact (List.mem_append.1 among).elim (first move) (named' move)

/-- The rule of a test, of which the left operand is stored unless both operands are pure. -/
theorem lowerRule {r : Rule} (left : Made d P (visit r.left)) (right : Made d P (visit r.right))
    (stored : (d.arena.isPure r.left && d.arena.isPure r.right) = false → P r.left) :
    Made d P (r.lower (host d o visit)) := by
  unfold Rule.lower
  cases pure : d.arena.isPure r.left && d.arena.isPure r.right with
  | true =>
      rw [if_pos (show ((host d o visit).isPure r.left && (host d o visit).isPure r.right) = true
        from pure)]
      refine (extent d _).bind fun x => (extent d _).bind fun y => get.bind fun s => ?_
      refine (code right).bind fun code => (remove _ _).bind fun _ => ?_
      refine sometimes (insert _ _) fun _ => (insert _ _).bind fun _ => ?_
      exact left.bind fun _ => insert _ _
  | false =>
      rw [if_neg (show ¬((host d o visit).isPure r.left && (host d o visit).isPure r.right) = true
        from fun both => Bool.noConfusion (pure.symm.trans both))]
      refine (extent d _).bind fun whole => (extent d _).bind fun x => (extent d _).bind fun y => ?_
      refine get.bind fun s => (insert _ _).bind fun _ => ?_
      refine (name left (stored pure) Rule.needle true).bind fun name => ?_
      refine (insert _ _).bind fun _ => (remove _ _).bind fun _ => ?_
      refine sometimes (insert _ _) fun _ => sometimes (insert _ _) fun _ => ?_
      refine sometimes (insert _ _) fun _ => right.bind fun _ => ?_
      exact sometimes (insert _ _) fun _ => insert _ _

theorem lowerStatement (visits : Made d P (visit n)) : Made d P (lowerStatement d visit n) := by
  refine (extent d n).bind fun x => get.bind fun s => ?_
  have closed : Made d P (do
      if !d.isTerminatedAt x.outer.stop then Lowering.insert x.outer.stop ";") := by
    split
    · exact insert _ _
    · exact pure _
  cases s.needsParens n with
  | true =>
      refine (insert _ _).bind fun _ => visits.bind fun _ => ?_
      exact (insert _ _).bind fun _ => closed
  | false => exact visits.bind fun _ => closed

theorem lowerThis (content : Span) : Made d P (lowerThis d content) := by
  unfold Lowering.lowerThis
  split
  · exact replace _ _
  · exact pure _

theorem lowerMember {object : NodeId} (name : Span) (visits : Made d P (visit object)) :
    Made d P (lowerMember d visit object name) := by
  refine node_bind fun part found => ?_
  dsimp only
  split
  · exact replace _ _
  · exact visits

theorem lowerNot (sign : Span) {operand : NodeId} (visits : Made d P (visit operand)) :
    Made d P (lowerNot d visit sign operand) := by
  refine (extent d operand).bind fun x => ?_
  cases d.arena.isMembership operand with
  | true => exact (remove _ _).bind fun _ => visits
  | false => exact sometimes (replace _ _) fun _ => visits

theorem lowerBinary {left right : NodeId} (operator : BinaryOperator)
    (first : Made d P (visit left)) (second : Made d P (visit right)) :
    Made d P (lowerBinary d visit n left operator right) := by
  refine first.bind fun _ => ?_
  cases d.operatorToken? n operator.tokenKind with
  | none => exact second
  | some t => exact sometimes (replace _ _) fun _ => second

variable (visits : ∀ n, Made d (d.arena.Stores n) (visit n)) {node : Node}
  (found : d.arena.get? n = some node)
include visits found

theorem visit_part {c : NodeId} (isPart : c ∈ node.kind.children) :
    Made d (d.arena.Stores n) (visit c) :=
  (visits c).mono fun _ => Arena.Stores.of_part found isPart

theorem lowerMembership {left right : NodeId} {negated : Bool}
    (kind : node.kind = .membership left right negated) :
    Made d (d.arena.Stores n) (lowerMembership d o visit n) := by
  intro s reached
  obtain ⟨m, tied⟩ := reached.exists_tied
  cases waiting : s.rule? n with
  | none =>
      rw [(outcome_of_used visit (Watched.lower d o 0) waiting).1]
      exact ⟨[], .nil s, nofun⟩
  | some r =>
      rw [(outcome_of_waiting visit (Watched.lower d o 0) waiting).1]
      have rule := tied.known n r waiting
      have first := visit_part visits found (c := left) (by rw [kind]; exact List.mem_cons_self ..)
      have second := visit_part visits found (c := right)
        (by rw [kind]; exact List.mem_cons_of_mem _ (List.mem_cons_self ..))
      obtain ⟨_, x⟩ := node
      subst kind
      rw [Arena.rules_find?, found] at rule
      obtain ⟨r', own, rfl⟩ := Option.map_eq_some_iff.1 rule
      obtain rfl : ⟨n, left, right, negated⟩ = r' := Option.some.inj own
      have used : Moves d s [.use n] (s.drop n) := .single (.use s n)
      have rest : Made d (d.arena.Stores n)
          ((Rule.flipIf (d.arena.signs n % 2 = 1) ⟨n, left, right, negated⟩).lower
            (host d o visit)) :=
        lowerRule first second fun effect => ⟨n, right, negated, x, .refl n, found, effect⟩
      obtain ⟨log, moves, named⟩ := rest (s.drop n) (reached.later used)
      exact ⟨_, used.append moves, List.forall_mem_cons.2 ⟨nofun, named⟩⟩

theorem lowerNode : Made d (d.arena.Stores n) (lowerNode d o visit n) := by
  unfold Lowering.lowerNode
  refine node_bind fun node' found' => ?_
  obtain rfl : node' = node := Option.some.inj (found'.symm.trans found)
  have part : ∀ c ∈ node'.kind.children, Made d (d.arena.Stores n) (visit c) :=
    fun c isPart => visit_part visits found isPart
  cases kind : node'.kind with
  | program statements =>
      exact forM fun c among => lowerStatement (part c (by rw [kind]; exact among))
  | atom a =>
      cases a with
      | this => exact lowerThis _
      | _ => exact pure _
  | array elements => exact forM fun c among => part c (by rw [kind]; exact among)
  | call callee arguments =>
      refine (part callee (by rw [kind]; exact List.mem_cons_self ..)).bind fun _ => ?_
      exact forM fun c among => part c (by rw [kind]; exact List.mem_cons_of_mem _ among)
  | member object name =>
      exact lowerMember name (part object (by rw [kind]; exact List.mem_singleton.2 rfl))
  | index object key =>
      refine (part object (by rw [kind]; exact List.mem_cons_self ..)).bind fun _ => ?_
      exact part key (by rw [kind]; exact List.mem_cons_of_mem _ (List.mem_cons_self ..))
  | not sign operand =>
      exact lowerNot sign (part operand (by rw [kind]; exact List.mem_singleton.2 rfl))
  | binary left operator right =>
      exact lowerBinary operator (part left (by rw [kind]; exact List.mem_cons_self ..))
        (part right (by rw [kind]; exact List.mem_cons_of_mem _ (List.mem_cons_self ..)))
  | membership left right negated => exact lowerMembership visits found kind
  | assign target value =>
      refine (part target (by rw [kind]; exact List.mem_cons_self ..)).bind fun _ => ?_
      exact part value (by rw [kind]; exact List.mem_cons_of_mem _ (List.mem_cons_self ..))

end Traversal

end Made

/-- Lowering a node is made of moves, and names are handed out for the stored operands at and
    below the node only. -/
theorem made_lower (d : Document) (o : Options) (depth : Nat) (n : NodeId) :
    Made d (d.arena.Stores n) (lower d o depth n) := by
  induction depth generalizing n with
  | zero => exact .throw _
  | succ depth ih =>
      rw [lower]
      cases found : d.arena.get? n with
      | some node => exact .lowerNode ih found
      | none =>
          unfold lowerNode
          refine .node_bind fun node found' => ?_
          rw [found] at found'
          cases found'

theorem made_perform (o : Options) (call : Rehearsal.Call) :
    Made d (fun _ => True) (perform (host d o (lower d o maxDepth)) call) := by
  have visits : ∀ n, Made d (fun _ => True) (lower d o maxDepth n) :=
    fun n => (made_lower d o maxDepth n).mono fun _ _ => trivial
  cases call with
  | lower n => exact visits n
  | lowerToCode n => exact (Made.code (visits n)).bind fun _ => .pure _
  | lowerToName n base force =>
      exact (Made.name (visits n) trivial base force).bind fun _ => .pure _
  | insert offset text => exact .insert offset text
  | remove start stop => exact .remove start stop

/-- Every state that calls lead to is reached by moves. -/
theorem reached_afterCalls (o : Options) (calls : List Rehearsal.Call) (h : Reached d s) :
    Reached d (afterCalls (host d o (lower d o maxDepth)) calls s) := by
  induction calls generalizing s with
  | nil => exact h
  | cons call calls ih =>
      obtain ⟨log, moves, -⟩ := made_perform o call s h
      exact ih (h.later moves)

end Lowering

end MembershipLowering
