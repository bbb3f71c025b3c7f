import MembershipLowering.Proofs.Arena.Operators
import MembershipLowering.Proofs.Draft.Framing
import MembershipLowering.Proofs.Lowering.Visits

/-! # Lowering stays inside

Lowering a node edits the draft inside the node's outer range only, whatever has been done to the
draft before and whether it succeeds or fails. The offsets that the edits go by come from the
node itself, its parts and its operator token, and in an accepted source all of those stand in
its content (`Document.Fenced`). So each edit of a node frames its range (`Stays`), the visits of
its parts do so one level further down, and frames add up.
-/

namespace MembershipLowering

/-- What the edits of a node go by stands in its range. -/
structure Document.Fenced (d : Document) : Prop where
  content : ∀ n node, d.arena.get? n = some node →
    node.extent.outer.start ≤ node.extent.content.start ∧
      node.extent.content.start ≤ node.extent.content.stop ∧
      node.extent.content.stop ≤ node.extent.outer.stop
  parts : ∀ n node, d.arena.get? n = some node → ∀ c ∈ node.kind.children, ∀ part,
    d.arena.get? c = some part → node.extent.content.start ≤ part.extent.outer.start ∧
      part.extent.outer.stop ≤ node.extent.content.stop
  sign : ∀ n x sign operand, d.arena.get? n = some ⟨.not sign operand, x⟩ →
    sign.start = x.content.start
  operator : ∀ n x left op right t, d.arena.get? n = some ⟨.binary left op right, x⟩ →
    d.operatorToken? n op.tokenKind = some t →
      x.content.start ≤ t.span.start ∧ t.span.start ≤ t.span.stop ∧ t.span.stop ≤ x.content.stop

namespace Document

variable {source : String} {tokens : List Token} {es : List Expr}

theorem fenced_ofStatements (read : Token.readAll source = .ok tokens)
    (parsed : Parser.statements source tokens = .ok es) :
    (ofStatements source tokens es).Fenced := by
  have rooted := rooted_ofStatements read parsed
  have nestedAll := Parser.nested_of_statements read parsed
  have stream := Token.stream_of_readAll read
  constructor
  · intro n node found
    rcases cases_of_get? found with ⟨-, rfl⟩ | ⟨inside, -⟩
    · exact ⟨Nat.le_refl _, Nat.zero_le _, Nat.le_refl _⟩
    · have proper := (rooted.enclosed n node inside found).1
      exact ⟨proper.opens, Nat.le_of_lt proper.nonempty, proper.closes⟩
  · intro n node found c isPart part foundPart
    obtain ⟨spans, parts, bounds, -⟩ := rooted.parts n node found
    have among : some part.extent.outer ∈ spans.map some := by
      rw [← parts]
      exact List.mem_map.2 ⟨c, isPart, by rw [Arena.outer?, foundPart]; rfl⟩
    obtain ⟨s, among, same⟩ := List.mem_map.1 among
    cases same
    exact bounds _ among
  · intro n x sign operand found
    rcases cases_of_get? found with ⟨-, same⟩ | ⟨-, e, he, c, place, within, -, same, -⟩
    · cases same
    · have nested := (nestedAll.nested he).within within
      cases nested with
      | not proper starts nonempty apart operand stops =>
          cases same
          exact starts.symm
      | _ => cases same
  · intro n x left op right t found operator
    rcases cases_of_get? found with ⟨-, same⟩ | ⟨-, e, he, c, place, within, rfl, same, holds⟩
    · cases same
    · have nested := (nestedAll.nested he).within within
      cases nested with
      | @binary _ l r _ u proper left right joins kind spelt =>
          cases same
          have operates := operates_of_joins stream rfl holds rfl left right joins kind
            (by cases op <;> decide)
          rw [operates.found] at operator
          cases operator
          obtain ⟨isToken, behind, before⟩ := joins.bounds
          have starts := joins.starts
          have stops := joins.stops
          have apart := joins.apart
          have nonempty := stream.start_lt_stop isToken
          have nonempty' := left.start_lt_stop
          have nonempty'' := right.start_lt_stop
          change x.content.start = _ at starts
          change x.content.stop = _ at stops
          omega
      | _ => cases same

/-- Nodes begin and end on boundaries. -/
theorem boundaries_ofStatements (read : Token.readAll source = .ok tokens)
    (parsed : Parser.statements source tokens = .ok es) {n : NodeId} {node : Node}
    (found : (ofStatements source tokens es).arena.get? n = some node) :
    Text.isBoundary node.extent.outer.start source.toList = true ∧
      Text.isBoundary node.extent.outer.stop source.toList = true := by
  rcases cases_of_get? found with ⟨-, rfl⟩ | ⟨inside, -⟩
  · exact ⟨Text.isBoundary_zero _, Text.isBoundary_byteLength _⟩
  · have proper := ((rooted_ofStatements read parsed).enclosed n node inside found).1
    exact ⟨proper.outerStart, proper.outerStop⟩

end Document

namespace Lowering

/-- The state has these marks, and its rules are those that the table started with. -/
structure Tied (d : Document) (m : Marks) (s : State) : Prop where
  draft : s.draft = m.draft d.source
  known : ∀ n r, s.rule? n = some r → d.arena.rules.find? (·.node = n) = some r

/-- However it ends, the action edits the draft in the range only. -/
def Stays (d : Document) (x : Span) {α : Type} (act : Action State α) : Prop :=
  ∀ s m, Tied d m s → ∃ m', Tied d m' (outcome act s).2 ∧ m.Frames x m'

variable {d : Document} {o : Options} {x y : Span} {α β : Type}

theorem tied_initial (d : Document) : Tied d .clean (.initial d) :=
  ⟨(Marks.clean_draft d.source).symm, fun _ _ found => found⟩

/-- A rule that has been used up is not known any more. -/
theorem Tied.drop {m : Marks} {s : State} (tied : Tied d m s) (n : NodeId) :
    Tied d m (s.drop n) where
  draft := tied.draft
  known k r found := by
    rw [State.rule?, State.drop] at found
    have kept := (Rule.find?_filter_node s.pending (· ≠ n) k).symm.trans found
    split at kept
    · exact tied.known k r kept
    · cases kept

namespace Stays

theorem bind {act : Action State α} {f : α → Action State β} (h : Stays d x act)
    (next : ∀ a, Stays d x (f a)) : Stays d x (act >>= f) := by
  intro s m tied
  obtain ⟨m₁, tied₁, frames₁⟩ := h s m tied
  rw [outcome_bind]
  generalize outcome act s = r at tied₁
  obtain ⟨_ | a, later⟩ := r
  · exact ⟨m₁, tied₁, frames₁⟩
  · obtain ⟨m₂, tied₂, frames₂⟩ := next a later m₁ tied₁
    exact ⟨m₂, tied₂, frames₁.trans frames₂⟩

theorem pure (a : α) : Stays d x (Pure.pure a) := fun _ m tied => ⟨m, tied, .refl x m⟩

theorem throw (e : Failure) : Stays d x (MonadExcept.throw e : Action State α) :=
  fun _ m tied => ⟨m, tied, .refl x m⟩

theorem get : Stays d x MonadState.get := fun _ m tied => ⟨m, tied, .refl x m⟩

theorem widen {act : Action State α} (h : Stays d x act) (starts : y.start ≤ x.start)
    (stops : x.stop ≤ y.stop) : Stays d y act := by
  intro s m tied
  obtain ⟨m', tied', frames⟩ := h s m tied
  exact ⟨m', tied', frames.widen starts stops⟩

theorem claim (names : NameSupply) :
    Stays d x (modify fun s => { s with names := names } : Action State Unit) :=
  fun _ m tied => ⟨m, ⟨tied.draft, tied.known⟩, .refl x m⟩

theorem insert {offset : Nat} (text : String) (starts : x.start ≤ offset)
    (stops : offset ≤ x.stop) : Stays d x (insert offset text) := by
  intro s m tied
  unfold Lowering.insert
  rw [outcome_bind, show outcome MonadState.get s = (.ok s, s) from rfl]
  dsimp only
  cases inserted : s.draft.insert offset text with
  | error e => exact ⟨m, tied, .refl x m⟩
  | ok draft =>
      rw [tied.draft] at inserted
      exact ⟨_, ⟨Marks.eq_draft_of_insert inserted, tied.known⟩, .insert m text starts stops⟩

theorem remove {start stop : Nat} (starts : x.start ≤ start) (stops : stop ≤ x.stop) :
    Stays d x (remove start stop) := by
  intro s m tied
  unfold Lowering.remove
  rw [outcome_bind, show outcome MonadState.get s = (.ok s, s) from rfl]
  dsimp only
  cases removed : s.draft.remove start stop with
  | error e => exact ⟨m, tied, .refl x m⟩
  | ok draft =>
      rw [tied.draft] at removed
      exact ⟨_, ⟨Marks.eq_draft_of_remove removed, tied.known⟩, .remove m starts stops⟩

theorem replace {span : Span} (text : String) (starts : x.start ≤ span.start)
    (ordered : span.start ≤ span.stop) (stops : span.stop ≤ x.stop) :
    Stays d x (replace span text) :=
  (remove starts stops).bind fun _ => insert text starts (Nat.le_trans ordered stops)

theorem node_bind {n : NodeId} {f : Node → Action State β}
    (next : ∀ node, d.arena.get? n = some node → Stays d x (f node)) :
    Stays d x (node d n >>= f) := by
  unfold Lowering.node
  cases found : d.arena.get? n with
  | none => exact throw _
  | some node => exact next node found

theorem extent_bind {n : NodeId} {f : Extent → Action State β}
    (next : ∀ node, d.arena.get? n = some node → Stays d x (f node.extent)) :
    Stays d x (extent d n >>= f) := by
  unfold Lowering.extent
  rw [bind_assoc]
  exact node_bind next

theorem forM {xs : List α} {f : α → Action State Unit} (h : ∀ a ∈ xs, Stays d x (f a)) :
    Stays d x (xs.forM f) := by
  induction xs with
  | nil => exact pure _
  | cons a xs ih =>
      obtain ⟨first, later⟩ := List.forall_mem_cons.1 h
      exact first.bind fun _ => ih later

theorem sometimes {c : Prop} [Decidable c] {act : Action State Unit} {f : Unit → Action State β}
    (h : Stays d x act) (next : ∀ u, Stays d x (f u)) :
    Stays d x (if c then act >>= f else f ()) := by
  split
  · exact h.bind next
  · exact next ()

end Stays

/-- What is said about all visits: the node of each, if it exists, stands in the range. -/
def Visits (d : Document) (visit : NodeId → Action State Unit) : Prop :=
  ∀ x n, (∀ node, d.arena.get? n = some node →
    x.start ≤ node.extent.outer.start ∧ node.extent.outer.stop ≤ x.stop) → Stays d x (visit n)

namespace Stays

variable {visit : NodeId → Action State Unit} {n : NodeId}

theorem code (visits : Stays d x (visit n)) : Stays d x (code d visit n) := by
  refine visits.bind fun _ => extent_bind fun node _ => get.bind fun s => ?_
  cases s.draft.slice node.extent.outer.start node.extent.outer.stop with
  | ok text => exact pure text
  | error e => exact throw _

theorem name (visits : Stays d x (visit n)) (inside : ∀ node, d.arena.get? n = some node →
      x.start ≤ node.extent.content.start ∧ node.extent.content.start ≤ x.stop)
    (base : String) (force : Bool) : Stays d x (name d visit n base force) := by
  unfold Lowering.name
  split
  · exact code visits
  · refine get.bind fun s => ?_
    cases s.names.claim? base with
    | none => exact throw _
    | some claimed =>
        obtain ⟨name, names⟩ := claimed
        refine (claim names).bind fun _ => extent_bind fun node found => ?_
        obtain ⟨starts, stops⟩ := inside node found
        exact (insert _ starts stops).bind fun _ => visits.bind fun _ => pure _

section Node

variable (fenced : d.Fenced) (visits : Visits d visit) {node : Node}
  (found : d.arena.get? n = some node)
include fenced found

/-- A part stands in the node. -/
theorem part_within {c : NodeId} {part : Node} (isPart : c ∈ node.kind.children)
    (foundPart : d.arena.get? c = some part) :
    node.extent.outer.start ≤ part.extent.outer.start ∧
      part.extent.outer.start ≤ part.extent.content.start ∧
      part.extent.content.start ≤ part.extent.content.stop ∧
      part.extent.content.stop ≤ part.extent.outer.stop ∧
      part.extent.outer.stop ≤ node.extent.outer.stop := by
  have own := fenced.content n node found
  have partOwn := fenced.content c part foundPart
  have parts := fenced.parts n node found c isPart part foundPart
  omega

include visits

theorem visit_part {c : NodeId} (isPart : c ∈ node.kind.children) :
    Stays d node.extent.outer (visit c) := by
  refine visits _ c fun part foundPart => ?_
  have := part_within fenced found isPart foundPart
  omega

omit visits in
theorem lowerThis : Stays d node.extent.outer (lowerThis d node.extent.content) := by
  have own := fenced.content n node found
  unfold Lowering.lowerThis
  split
  · exact replace _ (by omega) (by omega) (by omega)
  · exact pure _

theorem lowerStatement {c : NodeId} (isPart : c ∈ node.kind.children) :
    Stays d node.extent.outer (lowerStatement d visit c) := by
  refine extent_bind fun part foundPart => get.bind fun s => ?_
  have within := part_within fenced found isPart foundPart
  have visited := visit_part fenced visits found isPart
  have closed : Stays d node.extent.outer (do
      if !d.isTerminatedAt part.extent.outer.stop then
        Lowering.insert part.extent.outer.stop ";") := by
    split
    · exact insert _ (by omega) (by omega)
    · exact pure _
  cases s.needsParens c with
  | true =>
      refine (insert _ (by omega) (by omega)).bind fun _ => visited.bind fun _ => ?_
      exact (insert _ (by omega) (by omega)).bind fun _ => closed
  | false => exact visited.bind fun _ => closed

theorem lowerMember {object : NodeId} (name : Span) (isPart : object ∈ node.kind.children) :
    Stays d node.extent.outer (lowerMember d visit object name) := by
  refine node_bind fun part foundPart => ?_
  have within := part_within fenced found isPart foundPart
  dsimp only
  split
  · exact replace _ (by omega) (by omega) (by omega)
  · exact visit_part fenced visits found isPart

theorem lowerNot {sign : Span} {operand : NodeId} (kind : node.kind = .not sign operand) :
    Stays d node.extent.outer (lowerNot d visit sign operand) := by
  have isPart : operand ∈ node.kind.children := by rw [kind]; exact List.mem_singleton.2 rfl
  obtain ⟨_, extent⟩ := node
  subst kind
  have starts := fenced.sign n extent sign operand found
  have own := fenced.content n _ found
  refine extent_bind fun part foundPart => ?_
  have parts := fenced.parts n _ found operand isPart part foundPart
  have within := part_within fenced found isPart foundPart
  have visited := visit_part fenced visits found isPart
  simp only at own parts within visited ⊢
  cases d.arena.isMembership operand with
  | true => exact (remove (by omega) (by omega)).bind fun _ => visited
  | false =>
      exact sometimes (replace _ (by simp only; omega) (by simp only; omega) (by simp only; omega))
        fun _ => visited

theorem lowerBinary {left right : NodeId} {operator : BinaryOperator}
    (kind : node.kind = .binary left operator right) :
    Stays d node.extent.outer (lowerBinary d visit n left operator right) := by
  have first : left ∈ node.kind.children := by rw [kind]; exact List.mem_cons_self ..
  have second : right ∈ node.kind.children := by
    rw [kind]
    exact List.mem_cons_of_mem _ (List.mem_cons_self ..)
  have visitedLeft := visit_part fenced visits found first
  have visitedRight := visit_part fenced visits found second
  obtain ⟨_, extent⟩ := node
  subst kind
  have own := fenced.content n _ found
  refine visitedLeft.bind fun _ => ?_
  cases token : d.operatorToken? n operator.tokenKind with
  | none => exact visitedRight
  | some t =>
      have inside := fenced.operator n extent left operator right t found token
      simp only at own
      exact sometimes (replace _ (by simp only; omega) (by omega) (by simp only; omega))
        fun _ => visitedRight

theorem lowerMoving {r : Rule} (isLeft : r.left ∈ node.kind.children)
    (isRight : r.right ∈ node.kind.children) :
    Stays d node.extent.outer (r.lowerMoving (host d o visit)) := by
  have visitedLeft := visit_part fenced visits found isLeft
  have visitedRight := visit_part fenced visits found isRight
  refine extent_bind fun left foundLeft => extent_bind fun right foundRight => ?_
  refine get.bind fun s => ?_
  have leftWithin := part_within fenced found isLeft foundLeft
  have rightWithin := part_within fenced found isRight foundRight
  refine (code visitedRight).bind fun code => (remove (by omega) (by omega)).bind fun _ => ?_
  refine sometimes (insert _ (by omega) (by omega)) fun _ => ?_
  refine (insert _ (by omega) (by omega)).bind fun _ => visitedLeft.bind fun _ => ?_
  exact insert _ (by omega) (by omega)

theorem lowerStoring {r : Rule} (isNode : r.node = n) (isLeft : r.left ∈ node.kind.children)
    (isRight : r.right ∈ node.kind.children) :
    Stays d node.extent.outer (r.lowerStoring (host d o visit)) := by
  have visitedLeft := visit_part fenced visits found isLeft
  have visitedRight := visit_part fenced visits found isRight
  have own := fenced.content n node found
  refine extent_bind fun whole foundWhole => extent_bind fun left foundLeft => ?_
  refine extent_bind fun right foundRight => get.bind fun s => ?_
  obtain rfl : whole = node := Option.some.inj ((isNode ▸ foundWhole).symm.trans found)
  have leftWithin := part_within fenced found isLeft foundLeft
  have rightWithin := part_within fenced found isRight foundRight
  have inLeft : ∀ part, d.arena.get? r.left = some part →
      whole.extent.outer.start ≤ part.extent.content.start ∧
        part.extent.content.start ≤ whole.extent.outer.stop := by
    intro part foundPart
    have within := part_within fenced found isLeft foundPart
    omega
  refine (insert _ (by omega) (by omega)).bind fun _ => ?_
  refine (name visitedLeft inLeft Rule.needle true).bind fun name => ?_
  refine (insert _ (by omega) (by omega)).bind fun _ => ?_
  refine (remove (by omega) (by omega)).bind fun _ => ?_
  -- The sign, the function and the parenthesis may each be inserted.
  refine sometimes (insert _ (by omega) (by omega)) fun _ => ?_
  refine sometimes (insert _ (by omega) (by omega)) fun _ => ?_
  refine sometimes (insert _ (by omega) (by omega)) fun _ => visitedRight.bind fun _ => ?_
  exact sometimes (insert _ (by omega) (by omega)) fun _ => insert _ (by omega) (by omega)

theorem lowerRule {r : Rule} (isNode : r.node = n) (isLeft : r.left ∈ node.kind.children)
    (isRight : r.right ∈ node.kind.children) :
    Stays d node.extent.outer (r.lower (host d o visit)) := by
  have either : ∀ pure : Bool, Stays d node.extent.outer
      (if pure then r.lowerMoving (host d o visit) else r.lowerStoring (host d o visit)) := by
    intro pure
    cases pure with
    | true => exact lowerMoving fenced visits found isLeft isRight
    | false => exact lowerStoring fenced visits found isNode isLeft isRight
  exact either (d.arena.isPure r.left && d.arena.isPure r.right)

theorem lowerMembership {left right : NodeId} {negated : Bool}
    (kind : node.kind = .membership left right negated) :
    Stays d node.extent.outer (lowerMembership d o visit n) := by
  intro s m tied
  cases waiting : s.rule? n with
  | none =>
      rw [(outcome_of_used visit (Watched.lower d o 0) waiting).1]
      exact ⟨m, tied, .refl _ m⟩
  | some r =>
      rw [(outcome_of_waiting visit (Watched.lower d o 0) waiting).1]
      have rule := tied.known n r waiting
      obtain ⟨_, extent⟩ := node
      subst kind
      rw [Arena.rules_find?, found] at rule
      obtain ⟨r', own, rfl⟩ := Option.map_eq_some_iff.1 rule
      obtain rfl : ⟨n, left, right, negated⟩ = r' := Option.some.inj own
      exact lowerRule fenced visits found rfl (List.mem_cons_self ..)
        (List.mem_cons_of_mem _ (List.mem_cons_self ..)) (s.drop n) m (tied.drop n)

/-- A node is lowered in its range if all others are. -/
theorem lowerNode : Stays d node.extent.outer (lowerNode d o visit n) := by
  unfold Lowering.lowerNode
  refine node_bind fun node' found' => ?_
  obtain rfl : node' = node := Option.some.inj (found'.symm.trans found)
  have part : ∀ c ∈ node'.kind.children, Stays d node'.extent.outer (visit c) :=
    fun c isPart => visit_part fenced visits found isPart
  cases kind : node'.kind with
  | program statements =>
      exact forM fun c among => lowerStatement fenced visits found (by rw [kind]; exact among)
  | atom a =>
      cases a with
      | this => exact lowerThis fenced found
      | _ => exact pure _
  | array elements => exact forM fun c among => part c (by rw [kind]; exact among)
  | call callee arguments =>
      refine (part callee (by rw [kind]; exact List.mem_cons_self ..)).bind fun _ => ?_
      exact forM fun c among => part c (by rw [kind]; exact List.mem_cons_of_mem _ among)
  | member object name =>
      exact lowerMember fenced visits found name (by rw [kind]; exact List.mem_singleton.2 rfl)
  | index object key =>
      refine (part object (by rw [kind]; exact List.mem_cons_self ..)).bind fun _ => ?_
      exact part key (by rw [kind]; exact List.mem_cons_of_mem _ (List.mem_cons_self ..))
  | not sign operand => exact lowerNot fenced visits found kind
  | binary left operator right => exact lowerBinary fenced visits found kind
  | membership left right negated => exact lowerMembership fenced visits found kind
  | assign target value =>
      refine (part target (by rw [kind]; exact List.mem_cons_self ..)).bind fun _ => ?_
      exact part value (by rw [kind]; exact List.mem_cons_of_mem _ (List.mem_cons_self ..))

end Node

end Stays

/-- Every visit edits the draft in the range of its node only. -/
theorem visits_lower (fenced : d.Fenced) (o : Options) (depth : Nat) :
    Visits d (lower d o depth) := by
  induction depth with
  | zero => exact fun x n _ => .throw _
  | succ depth ih =>
      intro x n inside
      rw [lower]
      cases found : d.arena.get? n with
      | none =>
          unfold lowerNode
          refine .node_bind fun node found' => ?_
          rw [found] at found'
          cases found'
      | some node =>
          obtain ⟨starts, stops⟩ := inside node found
          exact (Stays.lowerNode fenced ih found).widen starts stops

/-- Every call stays in some range. -/
theorem exists_stays_perform (fenced : d.Fenced) (o : Options) (call : Rehearsal.Call) :
    ∃ x, Stays d x (perform (host d o (lower d o maxDepth)) call) := by
  have visits := visits_lower fenced o maxDepth
  have visited : ∀ n, ∃ x, Stays d x (lower d o maxDepth n) ∧
      ∀ node, d.arena.get? n = some node → x = node.extent.outer := by
    intro n
    cases found : d.arena.get? n with
    | none =>
        refine ⟨⟨0, 0⟩, visits _ n fun node found' => ?_, fun node found' => ?_⟩
        · cases found.symm.trans found'
        · cases found'
    | some node =>
        refine ⟨node.extent.outer, visits _ n fun node' found' => ?_, fun node' found' => ?_⟩
        · cases found.symm.trans found'
          exact ⟨Nat.le_refl _, Nat.le_refl _⟩
        · cases found'
          rfl
  cases call with
  | lower n =>
      obtain ⟨x, stays, -⟩ := visited n
      exact ⟨x, stays⟩
  | lowerToCode n =>
      obtain ⟨x, stays, -⟩ := visited n
      exact ⟨x, (Stays.code stays).bind fun _ => .pure _⟩
  | lowerToName n base force =>
      obtain ⟨x, stays, own⟩ := visited n
      refine ⟨x, (Stays.name stays (fun node found => ?_) base force).bind fun _ => .pure _⟩
      have content := fenced.content n node found
      rw [own node found]
      omega
  | insert offset text => exact ⟨⟨0, offset⟩, .insert text (Nat.zero_le _) (Nat.le_refl _)⟩
  | remove start stop => exact ⟨⟨0, stop⟩, .remove (Nat.zero_le _) (Nat.le_refl _)⟩

theorem tied_afterCalls (fenced : d.Fenced) (o : Options) (calls : List Rehearsal.Call) {s : State}
    {m : Marks} (tied : Tied d m s) :
    ∃ m', Tied d m' (afterCalls (host d o (lower d o maxDepth)) calls s) := by
  induction calls generalizing s m with
  | nil => exact ⟨m, tied⟩
  | cons call calls ih =>
      obtain ⟨x, stays⟩ := exists_stays_perform fenced o call
      obtain ⟨m', tied', -⟩ := stays s m tied
      exact ih tied'

/-- In an accepted source, whatever calls have been made before: lowering a node touches nothing
    outside of the node's outer range, and what has been inserted at its start stays in front of
    what is inserted there now. -/
theorem lower_inside {source : String} (parsed : Document.parse source = .ok d) (o : Options)
    (calls : List Rehearsal.Call) {n : NodeId} {node : Node}
    (found : d.arena.get? n = some node) :
    let s := afterCalls (host d o (lower d o maxDepth)) calls (.initial d)
    let later := (outcome (lower d o maxDepth n) s).2
    let outer := node.extent.outer
    (∀ byte, byte < outer.start ∨ outer.stop ≤ byte →
        later.draft.isRemovedAt byte = s.draft.isRemovedAt byte) ∧
      (∀ offset, offset < outer.start ∨ outer.stop < offset →
        later.draft.insertedAt offset = s.draft.insertedAt offset) ∧
      s.draft.insertedAt outer.start <+: later.draft.insertedAt outer.start := by
  obtain ⟨tokens, es, read, accepted, rfl⟩ := Document.exists_of_parse parsed
  have fenced := Document.fenced_ofStatements read accepted
  intro s later outer
  obtain ⟨m, tied⟩ := tied_afterCalls fenced o calls (tied_initial _)
  obtain ⟨m', tied', frames⟩ := (visits_lower fenced o maxDepth) outer n (fun node' found' => by
    cases found.symm.trans found'
    exact ⟨Nat.le_refl _, Nat.le_refl _⟩) s m tied
  rw [show s.draft = _ from tied.draft, show later.draft = _ from tied'.draft]
  have boundaries := Document.boundaries_ofStatements read accepted found
  exact frames.draft boundaries.1 boundaries.2

/-- A text in front of the test, put there before, stays in front of the lowered test. -/
theorem lower_inside_argument :
    ∃ d, Document.parse "f(a in b, c)" = .ok d ∧
      let s := afterCalls (host d .standard (lower d .standard maxDepth))
        [.insert 2 "1, ", .insert 8 ", 2", .lower 4] (.initial d)
      let later := (outcome (lower d .standard maxDepth 3) s).2
      later.draft.isRemovedAt 8 = s.draft.isRemovedAt 8 ∧
        later.draft.insertedAt 1 = s.draft.insertedAt 1 ∧
        s.draft.insertedAt 2 <+: later.draft.insertedAt 2 := by
  obtain ⟨d, parsed, range⟩ : ∃ d, Document.parse "f(a in b, c)" = .ok d ∧
      (d.arena.get? 3).map (·.extent.outer) = some ⟨2, 8⟩ := by
    decide +kernel
  obtain ⟨node, found, outer⟩ := Option.map_eq_some_iff.1 range
  obtain ⟨removed, inserted, start⟩ := lower_inside parsed .standard
    [.insert 2 "1, ", .insert 8 ", 2", .lower 4] found
  rw [outer] at removed inserted start
  exact ⟨d, parsed, removed 8 (.inr (Nat.le_refl _)), inserted 1 (.inl (by decide)), start⟩

end Lowering

end MembershipLowering
