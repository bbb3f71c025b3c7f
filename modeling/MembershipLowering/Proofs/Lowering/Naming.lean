import MembershipLowering.Proofs.Lowering.Moves
import MembershipLowering.Proofs.Names.History

/-! # Names that are handed out

A call for a name first hands it out, then looks for the place where it is assigned to. So a name
goes into the draft as soon as it is handed out if the node is in the table and its content starts
somewhere in the source, and is lost otherwise (`claims_iff_queues_iff`): it is reported with the
others, but nothing is ever assigned to it (`claims_unqueued`). Lowering a pure node hands out
nothing (`isPure_iff_and_names_eq`).
-/

namespace MembershipLowering.Lowering

/-- The second state has handed out one more name. -/
def Claims (s s' : State) (name : String) : Prop :=
  s'.names.claimed = s.names.claimed ++ [name]

/-- The second draft has one more text: an assignment to the name, where the content of the node
    starts. -/
def Queues (d : Document) (n : NodeId) (s s' : State) (name : String) : Prop :=
  ∃ node, d.arena.get? n = some node ∧
    s.draft.insert node.extent.content.start (name ++ " = ") = .ok s'.draft

/-- What a call for a name does itself: the state after the call if lowering the node does
    nothing. -/
def own (d : Document) (n : NodeId) (base : String) (force : Bool) (s : State) : State :=
  (outcome (name d (fun _ => pure ()) n base force) s).2

variable {d : Document} {s s' : State} {n : NodeId}

/-- Texts are counted as they are inserted. -/
theorem Tied.insertedAt_of_insert {m : Marks} {offset : Nat} {text : String} {draft : Draft}
    (tied : Tied d m s) (inserted : s.draft.insert offset text = .ok draft) (some : text ≠ "") :
    draft.insertedAt offset = s.draft.insertedAt offset ++ [text] := by
  have boundary := tied.exists_insert_iff.1 ⟨draft, inserted⟩
  rw [tied.draft] at inserted
  rw [Marks.eq_draft_of_insert inserted, tied.draft, Marks.insertedAt_draft, Marks.insertedAt_draft,
    if_pos boundary, if_pos boundary]
  exact if_pos ⟨rfl, some⟩

theorem assignment_ne_empty (name : String) : name ++ " = " ≠ "" := by
  intro empty
  have length := congrArg String.length empty
  simp [String.length_append] at length

theorem assignment_injective {name name' : String} (h : name ++ " = " = name' ++ " = ") :
    name = name' := by
  have same := congrArg String.toList h
  rw [String.toList_append, String.toList_append] at same
  exact String.toList_injective (List.append_cancel_right same)

/-- If the draft has not changed, nothing has been queued. -/
theorem Queues.draft_ne {m : Marks} {name : String} (tied : Tied d m s)
    (h : Queues d n s s' name) : s'.draft ≠ s.draft := by
  obtain ⟨node, -, inserted⟩ := h
  intro same
  have more := tied.insertedAt_of_insert inserted (assignment_ne_empty name)
  rw [same] at more
  exact absurd (congrArg List.length more) (by simp)

/-- At most one assignment has been queued. -/
theorem Queues.unique {m : Marks} {name name' : String} (tied : Tied d m s)
    (h : Queues d n s s' name) (h' : Queues d n s s' name') : name = name' := by
  obtain ⟨node, found, inserted⟩ := h
  obtain ⟨node', found', inserted'⟩ := h'
  cases found.symm.trans found'
  have first := tied.insertedAt_of_insert inserted (assignment_ne_empty name)
  have second := tied.insertedAt_of_insert inserted' (assignment_ne_empty name')
  have same := List.append_cancel_left (first.symm.trans second)
  exact assignment_injective (List.head_eq_of_cons_eq same)

theorem Claims.names_ne {name : String} (h : Claims s s' name) : s'.names ≠ s.names := by
  intro same
  rw [Claims, same] at h
  exact absurd (congrArg List.length h) (by simp)

theorem Claims.unique {name name' : String} (h : Claims s s' name) (h' : Claims s s' name') :
    name = name' :=
  List.head_eq_of_cons_eq (List.append_cancel_left (h.symm.trans h'))

/-- A name is handed out and queued at once, if it is handed out at all and there is a place for
    it. -/
theorem Opens.accounted {result : Except Failure String} {base : String} {m : Marks}
    (h : Opens d s n base result s') (tied : Tied d m s) :
    (s'.names = s.names ∨ ∃ name, Claims s s' name) ∧
      ((∀ name, Claims s s' name ↔ Queues d n s s' name) ↔
        s.names.claim? base = none ∨ d.Locates n) := by
  cases h with
  | exhausted none =>
      refine ⟨.inl rfl, fun _ => .inl none, fun _ name => ⟨fun claims => ?_, fun queues => ?_⟩⟩
      · exact absurd rfl claims.names_ne
      · exact absurd rfl (queues.draft_ne tied)
  | @missing name names claimed missing =>
      have claims : Claims s { s with names := names } name := NameSupply.claimed_of_claim? claimed
      refine ⟨.inr ⟨name, claims⟩, fun law => ?_, ?_⟩
      · exact absurd rfl (((law name).1 claims).draft_ne tied)
      · rintro (none | ⟨node, found, -⟩)
        · cases claimed.symm.trans none
        · cases missing.symm.trans found
  | @outside name names node e claimed found refused =>
      have claims : Claims s { s with names := names } name := NameSupply.claimed_of_claim? claimed
      refine ⟨.inr ⟨name, claims⟩, fun law => ?_, ?_⟩
      · exact absurd rfl (((law name).1 claims).draft_ne tied)
      · rintro (none | ⟨node', found', boundary⟩)
        · cases claimed.symm.trans none
        · cases found.symm.trans found'
          obtain ⟨draft, inserted⟩ := tied.exists_insert_iff.2 boundary
          cases inserted.symm.trans refused
  | @spliced name names node draft claimed found inserted =>
      have claims : Claims s { s with draft := draft, names := names } name :=
        NameSupply.claimed_of_claim? claimed
      have queues : Queues d n s { s with draft := draft, names := names } name :=
        ⟨node, found, inserted⟩
      refine ⟨.inr ⟨name, claims⟩, fun _ => ?_,
        fun _ name' => ⟨fun claims' => ?_, fun queues' => ?_⟩⟩
      · exact .inr ⟨node, found, tied.exists_insert_iff.1 ⟨draft, inserted⟩⟩
      · exact claims.unique claims' ▸ queues
      · exact queues.unique tied queues' ▸ claims

/-- Reading code back that is to be repeated does nothing by itself. -/
theorem outcome_code (visit : NodeId → Action State Unit) (n : NodeId) (s : State) :
    (outcome (code d visit n) s).2 = (outcome (visit n) s).2 := by
  simp only [code, liftM, monadLift_self]
  rw [outcome_bind]
  generalize outcome (visit n) s = r
  obtain ⟨_ | _, later⟩ := r
  · rfl
  · dsimp only
    rw [outcome_bind, outcome_extent]
    cases d.arena.get? n with
    | none => rfl
    | some node =>
        dsimp only
        rw [outcome_bind, show outcome current later = (.ok later, later) from rfl]
        dsimp only
        cases later.draft.slice node.extent.outer.start node.extent.outer.stop <;> rfl

/-- Repeated code: the call does nothing but lower the node. -/
theorem outcome_name_of_isPure (visit : NodeId → Action State Unit) (base : String) {force : Bool}
    (repeats : (!force && d.arena.isPure n) = true) (s : State) :
    (outcome (name d visit n base force) s).2 = (outcome (visit n) s).2 := by
  unfold name
  rw [if_pos repeats]
  exact outcome_code visit n s

/-- A call for a name that is not repeated code does its own part, and then lowers the node. -/
theorem exists_opens_own (base : String) {force : Bool}
    (stores : (!force && d.arena.isPure n) = false) (s : State) :
    ∃ result, Opens d s n base result (own d n base force s) ∧
      ∀ visit, outcome (name d visit n base force) s =
        match result with
        | .ok name => outcome (do visit n; return name) (own d n base force s)
        | .error e => (.error e, own d n base force s) := by
  obtain ⟨result, s', opens, whole⟩ := exists_opens d s n base
  have same : own d n base force s = s' := by
    unfold own
    rw [whole _ force stores]
    cases result <;> rfl
  rw [same]
  exact ⟨result, opens, fun visit => whole visit force stores⟩

/-- A node is pure exactly if nothing that it leads to is missing or has an effect, and then it
    hands out no names, whether it is lowered, read back or repeated, and whether this succeeds or
    fails. In an accepted source no way leads in a circle. -/
theorem isPure_iff_and_names_eq (d : Document) (o : Options) (n : NodeId) :
    (d.arena.AcyclicFrom n → (d.arena.isPure n = true ↔
      ∀ m, d.arena.Reaches n m →
        ∃ node, d.arena.get? m = some node ∧ node.kind.isEffect = false)) ∧
    (∀ source, Document.parse source = .ok d → d.arena.AcyclicFrom n) ∧
    (∀ calls, Reached d (afterCalls (host d o (lower d o maxDepth)) calls (.initial d))) ∧
    (d.arena.isPure n = true → ∀ s, Reached d s → ∀ depth base,
      (outcome (lower d o depth n) s).2.names = s.names ∧
      (outcome (code d (lower d o depth) n) s).2.names = s.names ∧
      (outcome (name d (lower d o depth) n base false) s).2.names = s.names) := by
  refine ⟨Arena.isPure_iff_of_acyclicFrom, fun source parsed => ?_, fun calls => ?_, ?_⟩
  · obtain ⟨-, rooted⟩ := Document.rooted_of_parse parsed
    exact Arena.acyclicFrom_of_descends rooted.descends n
  · exact reached_afterCalls o calls ⟨[], .nil (.initial d)⟩
  · intro pure s reached depth base
    have lowered : (outcome (lower d o depth n) s).2.names = s.names := by
      obtain ⟨log, moves, named⟩ := made_lower d o depth n s reached
      refine moves.names_eq fun move among => Option.eq_none_iff_forall_not_mem.2 ?_
      exact fun k same => (named move among k same).not_isPure pure
    refine ⟨lowered, ?_, ?_⟩
    · rwa [outcome_code]
    · rwa [outcome_name_of_isPure _ base (by rw [pure]; rfl)]

/-- A test that is pure, in an assignment that is not. -/
theorem isPure_iff_and_names_eq_assignment :
    ∃ d, Document.parse "x = a in [b, not c]" = .ok d ∧
      let s := afterCalls (host d .standard (lower d .standard maxDepth))
        [.lowerToName 7 "saved" false] (.initial d)
      (∀ m, d.arena.Reaches 6 m →
        ∃ node, d.arena.get? m = some node ∧ node.kind.isEffect = false) ∧
      (¬∀ m, d.arena.Reaches 7 m →
        ∃ node, d.arena.get? m = some node ∧ node.kind.isEffect = false) ∧
      (outcome (lower d .standard maxDepth 6) s).2.names = s.names := by
  obtain ⟨d, parsed, test, assignment⟩ : ∃ d, Document.parse "x = a in [b, not c]" = .ok d ∧
      d.arena.isPure 6 = true ∧ d.arena.isPure 7 = false := by
    decide +kernel
  obtain ⟨iff, acyclic, reached, kept⟩ := isPure_iff_and_names_eq d .standard 6
  obtain ⟨iff', acyclic', -⟩ := isPure_iff_and_names_eq d .standard 7
  refine ⟨d, parsed, (iff (acyclic _ parsed)).1 test, fun free => ?_, ?_⟩
  · cases assignment.symm.trans ((iff' (acyclic' _ parsed)).2 free)
  · exact (kept test _ (reached _) maxDepth "").1

/-- However names have been handed out before, and whoever calls for one more: it is handed out by
    the call itself exactly if the call itself queues an assignment to it where the content of the
    node starts, unless the node is not in the table or its content does not start in the source;
    then, and if any name is left to hand out, it is lost. -/
theorem claims_iff_queues_iff (d : Document) (o : Options) :
    (∀ calls, ∃ log,
      let s := afterCalls (host d o (lower d o maxDepth)) calls (.initial d)
      Moves d (.initial d) log s ∧ s.names.claimed = log.filterMap Move.name?) ∧
    ∀ s, Reached d s → ∀ n base force,
      let s₁ := own d n base force s
      (∀ visit, (outcome (name d visit n base force) s).2 = s₁ ∨
        (outcome (name d visit n base force) s).2 = (outcome (visit n) s₁).2) ∧
      (s₁.names = s.names ∨ ∃ name, Claims s s₁ name) ∧
      ((∀ name, Claims s s₁ name ↔ Queues d n s s₁ name) ↔
        (force = false ∧ d.arena.isPure n = true) ∨ s.names.claim? base = none ∨ d.Locates n) := by
  constructor
  · intro calls
    obtain ⟨log, moves⟩ := reached_afterCalls o calls ⟨[], .nil (.initial d)⟩
    exact ⟨log, moves, moves.claimed⟩
  · intro s reached n base force s₁
    obtain ⟨m, tied⟩ := reached.exists_tied
    cases repeats : !force && d.arena.isPure n with
    | true =>
        have same : s₁ = s := outcome_name_of_isPure _ base repeats s
        have both : force = false ∧ d.arena.isPure n = true := by simpa using repeats
        refine ⟨fun visit => .inr ?_, .inl (by rw [same]), fun _ => .inl both, fun _ name => ?_⟩
        · rw [same]
          exact outcome_name_of_isPure visit base repeats s
        · rw [same]
          exact ⟨fun claims => absurd rfl claims.names_ne,
            fun queues => absurd rfl (queues.draft_ne tied)⟩
    | false =>
        have stores : ¬(force = false ∧ d.arena.isPure n = true) := by
          rintro ⟨rfl, pure⟩
          rw [pure] at repeats
          cases repeats
        obtain ⟨result, opens, whole⟩ := exists_opens_own base repeats s
        rw [or_iff_right stores]
        refine ⟨fun visit => ?_, opens.accounted tied⟩
        rw [whole visit]
        cases result with
        | error e => exact .inl rfl
        | ok name =>
            refine .inr ?_
            dsimp only
            rw [outcome_bind]
            generalize outcome (visit n) s₁ = r
            obtain ⟨_ | _, later⟩ := r <;> rfl

/-- A source of one letter, and a test of which the left operand is said to stand behind its end. -/
def outlying : Document where
  source := "a"
  tokens := #[]
  arena := ⟨#[⟨.atom .identifier, .bare ⟨0, 1⟩⟩, ⟨.call 0 [], .bare ⟨5, 6⟩⟩,
    ⟨.membership 1 0 false, .bare ⟨0, 1⟩⟩, ⟨.program [0], .bare ⟨0, 1⟩⟩]⟩
  root := 3

theorem claim?_outlying : ∃ names,
    (State.initial outlying).names.claim? "needle" = some ("needle", names) ∧
      names.claimed = ["needle"] := by
  have unused : (State.initial outlying).names.isUsed "needle" = false := by
    have identifiers : outlying.identifiers = ["a"] := by decide +kernel
    simp [State.initial, identifiers, NameSupply.isUsed, NameSupply.avoiding]
  exact ⟨_, NameSupply.claim?_of_unused unused, rfl⟩

/-- Its indices go down. -/
theorem acyclicFrom_outlying (n : NodeId) : outlying.arena.AcyclicFrom n := by
  refine Arena.acyclicFrom_of_descends (fun n node found => ?_) n
  have descends : ∀ i (inside : i < outlying.arena.nodes.size),
      ∀ c ∈ outlying.arena.nodes[i].kind.children, c < i := by decide
  obtain ⟨inside, same⟩ := Array.getElem?_eq_some_iff.1 found
  exact same ▸ descends n inside

/-- After another call, a name is handed out for the letter and queued, and one for the left
    operand of the test is lost. -/
theorem claims_iff_queues_iff_outlying :
    let s := afterCalls (host outlying .standard (lower outlying .standard maxDepth))
      [.insert 0 "("] (.initial outlying)
    Reached outlying s ∧
      (∀ name, Claims s (own outlying 0 "needle" true s) name ↔
        Queues outlying 0 s (own outlying 0 "needle" true s) name) ∧
      ¬∀ name, Claims s (own outlying 1 "needle" false s) name ↔
        Queues outlying 1 s (own outlying 1 "needle" false s) name := by
  intro s
  have reached : Reached outlying s := reached_afterCalls .standard _ ⟨[], .nil _⟩
  obtain ⟨names, claimed, -⟩ := claim?_outlying
  have same : s.names.claim? "needle" = some ("needle", names) := claimed
  have law := (claims_iff_queues_iff outlying .standard).2 s reached
  refine ⟨reached, (law 0 "needle" true).2.2.2 (.inr (.inr ⟨_, rfl, by decide +kernel⟩)), ?_⟩
  intro accounted
  rcases (law 1 "needle" false).2.2.1 accounted with ⟨-, pure⟩ | none | ⟨node, found, boundary⟩
  · cases pure
  · cases same.symm.trans none
  · cases found
    exact absurd boundary (by decide +kernel)

/-- A name is handed out for a node that is not in the table, and reported, but is not in the
    code. -/
theorem claims_unqueued :
    let s := State.initial outlying
    let call := outcome (name outlying (lower outlying .standard maxDepth) 4 "needle" true) s
    (∀ n, outlying.arena.AcyclicFrom n) ∧ call.1 = .error (.missingNode 4) ∧
      Claims s call.2 "needle" ∧ ¬Queues outlying 4 s call.2 "needle" ∧
      (outcome (run outlying .standard) call.2).1 = .ok ⟨"a;", ["needle"]⟩ := by
  intro s call
  obtain ⟨names, claimed, reported⟩ := claim?_outlying
  have missing : outlying.arena.get? 4 = none := rfl
  have failed : call = (.error (.missingNode 4), { s with names := names }) := by
    obtain ⟨result, s₁, opens, whole⟩ := exists_opens outlying s 4 "needle"
    cases opens with
    | exhausted none => cases claimed.symm.trans none
    | missing claimed' =>
        cases claimed.symm.trans claimed'
        exact whole _ true rfl
    | outside _ found => cases missing.symm.trans found
    | spliced _ found => cases missing.symm.trans found
  have rendered : ∀ names, (outcome (run outlying .standard) { s with names := names }).1 =
      .ok ⟨"a;", names.claimed⟩ := fun _ => rfl
  rw [failed]
  refine ⟨acyclicFrom_outlying, rfl, reported, ?_, ?_⟩
  · rintro ⟨node, found, -⟩
    cases missing.symm.trans found
  · rw [rendered, reported]

end MembershipLowering.Lowering
