import MembershipLowering.Membership.Rehearsal
import MembershipLowering.Proofs.Lowering.Reading
import MembershipLowering.Proofs.Lowering.Rules

/-! # Visits

Every membership test has one rule, made beforehand and used up when the traversal first
comes to the test, whether its edits then succeed or fail. This holds of every table and
however the traversal is called, so the calls are watched: `Watched.lower` is the traversal
with a log of the nodes it enters and leaves. Without the log it is the traversal itself
(`follows_lower`), and the rules that are left are those of the tests that have never been
entered (`Sound`).
-/

namespace MembershipLowering

/-- What the traversal does at a node: it enters it, and it leaves it, perhaps with a failure. -/
inductive Visit where
  | enter (node : NodeId)
  | leave (node : NodeId) (failure : Option Failure)
  deriving DecidableEq, Repr

namespace Lowering

/-- What an action gives and the state that it leaves behind. -/
def outcome {σ α : Type} (act : Action σ α) (s : σ) : Except Failure α × σ :=
  match act s with
  | .ok a later => (.ok a, later)
  | .error e later => (.error e, later)

section Calls

variable {σ : Type}

/-- Make a call of a host and forget about its answer. -/
def perform (h : Host σ) : Rehearsal.Call → Action σ Unit
  | .lower n => h.lower n
  | .lowerToCode n => do let _ ← h.lowerToCode n
  | .lowerToName n base force => do let _ ← h.lowerToName n base force
  | .insert offset text => h.insert offset text
  | .remove start stop => h.remove start stop

/-- The state after some calls, whether they succeed or fail. -/
def afterCalls (h : Host σ) (calls : List Rehearsal.Call) (s : σ) : σ :=
  calls.foldl (fun s call => (outcome (perform h call) s).2) s

end Calls

/-- A state with the visits so far, in order. -/
structure Watched where
  state : State
  log : List Visit

namespace Watched

/-- An action during which nothing is visited. -/
def quietly {α : Type} (act : Action State α) : Action Watched α := fun s =>
  match act s.state with
  | .ok a state => .ok a { s with state := state }
  | .error e state => .error e { s with state := state }

/-- An action that is the visit of a node. -/
def visiting (n : NodeId) (act : Action Watched Unit) : Action Watched Unit := fun s =>
  match act { s with log := s.log ++ [.enter n] } with
  | .ok _ later => .ok () { later with log := later.log ++ [.leave n none] }
  | .error e later => .error e { later with log := later.log ++ [.leave n (some e)] }

instance : MonadLift (Action State) (Action Watched) :=
  ⟨quietly⟩

instance : LawfulMonadLift (Action State) (Action Watched) where
  monadLift_pure _ := rfl
  monadLift_bind act f := by
    funext s
    change quietly (act >>= f) s = (quietly act >>= fun a => quietly (f a)) s
    simp only [quietly, bind, EStateM.bind]
    cases act s.state <;> rfl

variable (d : Document) (o : Options)

/-- Lower a node with `depth` levels to go. It is visited if there are any. -/
def lower : (depth : Nat) → NodeId → Action Watched Unit
  | 0, n => throw (.tooDeep n)
  | depth + 1, n => visiting n (lowerNode d o (lower depth) n)

/-- The calls are made from the start on, and watched. -/
def afterCalls (calls : List Rehearsal.Call) : Watched :=
  Lowering.afterCalls (host d o (lower d o maxDepth)) calls ⟨.initial d, []⟩

end Watched

open Watched (quietly visiting)

/-! ## Rules and visits -/

/-- Whether node `n`, if it is a membership test, is going to be negated: by what it says itself
    and by the `not` nodes in front of it. -/
def isNegatedIn? (a : Arena) (n : NodeId) : Option Bool :=
  match a.get? n with
  | some ⟨.membership _ _ negated, _⟩ => some (negated ^^ decide (a.signs n % 2 = 1))
  | _ => none

theorem negated_find? (a : Arena) (n : NodeId) :
    (a.rules.find? (·.node = n)).map (·.negated) = isNegatedIn? a n := by
  rw [Arena.rules_find?, isNegatedIn?]
  cases a.get? n with
  | none => rfl
  | some node =>
      obtain ⟨kind, extent⟩ := node
      cases kind <;> rfl

/-- The rules that are left are those of the tests that have not been entered, and a test that
    is entered again is left at once, with a failure. -/
structure Sound (d : Document) (s : Watched) : Prop where
  pending : s.state.pending = d.arena.rules.filter fun r => Visit.enter r.node ∉ s.log
  again : ∀ n before later, d.arena.isMembership n = true →
    s.log = before ++ .enter n :: later → Visit.enter n ∈ before →
      later.head? = some (.leave n (some (.alreadyLowered n)))

/-- The watched action does what the other one does, and keeps what is said about rules. -/
def Follows (d : Document) {α : Type} (act : Action State α) (act' : Action Watched α) : Prop :=
  ∀ s, Sound d s →
    outcome act s.state = ((outcome act' s).1, (outcome act' s).2.state) ∧
      Sound d (outcome act' s).2

/-- The action does not touch the rules. -/
def Spares {α : Type} (act : Action State α) : Prop :=
  ∀ s, (outcome act s).2.pending = s.pending

section

variable {σ α β : Type} {d : Document} {o : Options} {s : Watched} {n : NodeId}

theorem outcome_bind (act : Action σ α) (f : α → Action σ β) (s : σ) :
    outcome (act >>= f) s =
      match outcome act s with
      | (.ok a, later) => outcome (f a) later
      | (.error e, later) => (.error e, later) := by
  simp only [outcome, bind, EStateM.bind]
  cases act s <;> rfl

theorem outcome_quietly (act : Action State α) (s : Watched) :
    outcome (quietly act) s =
      ((outcome act s.state).1, { s with state := (outcome act s.state).2 }) := by
  simp only [outcome, quietly]
  cases act s.state <;> rfl

namespace Spares

theorem bind {act : Action State α} {f : α → Action State β} (h : Spares act)
    (next : ∀ a, Spares (f a)) : Spares (act >>= f) := by
  intro s
  have first := h s
  rw [outcome_bind]
  generalize outcome act s = r at first
  obtain ⟨_ | a, later⟩ := r
  · exact first
  · exact (next a later).trans first

theorem pure (a : α) : Spares (Pure.pure a) := fun _ => rfl

theorem throw (e : Failure) : Spares (MonadExcept.throw e : Action State α) := fun _ => rfl

theorem get : Spares MonadState.get := fun _ => rfl

theorem modify {f : State → State} (h : ∀ s, (f s).pending = s.pending) :
    Spares (modify f : Action State Unit) := h

theorem insert (offset : Nat) (text : String) : Spares (insert offset text) := by
  apply get.bind
  intro s
  split
  · exact modify fun _ => rfl
  · exact throw _

theorem remove (start stop : Nat) : Spares (remove start stop) := by
  apply get.bind
  intro s
  split
  · exact modify fun _ => rfl
  · exact throw _

theorem replace (span : Span) (text : String) : Spares (replace span text) :=
  (remove _ _).bind fun _ => insert _ _

theorem node (d : Document) (n : NodeId) : Spares (node d n) := by
  unfold Lowering.node
  split
  · exact pure _
  · exact throw _

theorem extent (d : Document) (n : NodeId) : Spares (extent d n) :=
  (node d n).bind fun _ => pure _

theorem lowerThis (d : Document) (content : Span) : Spares (lowerThis d content) := by
  unfold Lowering.lowerThis
  split
  · exact replace _ _
  · exact pure _

end Spares

/-- Rules are made for membership tests only. -/
theorem isMembership_of_mem_rules {r : Rule} (h : r ∈ d.arena.rules) :
    d.arena.isMembership r.node = true := by
  have found : (d.arena.rules.find? (·.node = r.node)).isSome = true :=
    List.find?_isSome.2 ⟨r, h, by simp⟩
  rw [Arena.rules_find?, Option.isSome_map] at found
  unfold Arena.isMembership
  cases get : d.arena.get? r.node with
  | none => simp [get] at found
  | some node =>
      obtain ⟨kind, extent⟩ := node
      cases kind with
      | membership => rfl
      | _ => simp [get, Rule.ofNode?] at found

theorem exists_rule (h : d.arena.isMembership n = true) :
    ∃ r, d.arena.rules.find? (·.node = n) = some r := by
  unfold Arena.isMembership at h
  rw [Arena.rules_find?]
  split at h
  · rename_i get
    exact ⟨_, by rw [get]; rfl⟩
  · cases h

namespace Sound

theorem initial (d : Document) : Sound d ⟨.initial d, []⟩ where
  pending := (List.filter_eq_self.2 (by simp)).symm
  again n before later _ log := by simp at log

theorem rule? (sound : Sound d s) (n : NodeId) :
    s.state.rule? n =
      if Visit.enter n ∈ s.log then none else d.arena.rules.find? (·.node = n) := by
  rw [State.rule?, sound.pending, Rule.find?_filter_node _ (Visit.enter · ∉ s.log)]
  by_cases entered : Visit.enter n ∈ s.log <;> simp [entered]

/-- Where a visit is in a log with one more visit at its end. -/
theorem cases_of_append {log before later : List Visit} {e x : Visit}
    (h : log ++ [e] = before ++ x :: later) :
    (before = log ∧ x = e ∧ later = []) ∨
      ∃ front, later = front ++ [e] ∧ log = before ++ x :: front := by
  rcases List.eq_nil_or_concat later with rfl | ⟨front, last, rfl⟩
  · obtain ⟨rfl, same⟩ := List.append_inj' h rfl
    exact .inl ⟨rfl, (List.cons.inj same).1.symm, rfl⟩
  · rw [List.concat_eq_append, ← List.cons_append, ← List.append_assoc] at h
    obtain ⟨rfl, same⟩ := List.append_inj' h rfl
    cases same
    exact .inr ⟨front, List.concat_eq_append, rfl⟩

/-- The last visit enters no test for a second time. -/
theorem again_append {log : List Visit} {e : Visit}
    (again : ∀ n before later, d.arena.isMembership n = true →
      log = before ++ .enter n :: later → Visit.enter n ∈ before →
        later.head? = some (.leave n (some (.alreadyLowered n))))
    (first : ∀ n, d.arena.isMembership n = true → e = .enter n → e ∉ log) :
    ∀ n before later, d.arena.isMembership n = true →
      log ++ [e] = before ++ .enter n :: later → Visit.enter n ∈ before →
        later.head? = some (.leave n (some (.alreadyLowered n))) := by
  intro n before later isTest split entered
  rcases cases_of_append split with ⟨rfl, rfl, -⟩ | ⟨front, rfl, inner⟩
  · exact absurd entered (first n isTest rfl)
  · rw [List.head?_append, again n before front isTest inner entered]
    rfl

/-- A node that is no test is entered, or any node is left. -/
theorem note {e : Visit} (sound : Sound d s)
    (other : ∀ n, e = .enter n → d.arena.isMembership n = false) :
    Sound d { s with log := s.log ++ [e] } where
  pending := by
    rw [sound.pending]
    apply List.filter_congr
    intro r hr
    have apart : Visit.enter r.node ≠ e := fun same =>
      Bool.noConfusion ((isMembership_of_mem_rules hr).symm.trans (other r.node same.symm))
    simp [apart]
  again := again_append sound.again fun n isTest same =>
    Bool.noConfusion (isTest.symm.trans (other n same))

/-- A test is entered for the first time, and its rule is used up. -/
theorem first (sound : Sound d s) (fresh : Visit.enter n ∉ s.log) :
    Sound d ⟨s.state.drop n, s.log ++ [.enter n]⟩ where
  pending := by
    simp only [State.drop, sound.pending, List.filter_filter]
    apply List.filter_congr
    intro r _
    by_cases same : r.node = n <;> simp [same]
  again := again_append sound.again fun _ _ same => by cases same; exact fresh

/-- A test is entered once more. -/
theorem twice (sound : Sound d s) (entered : Visit.enter n ∈ s.log) :
    Sound d ⟨s.state, s.log ++ [.enter n] ++ [.leave n (some (.alreadyLowered n))]⟩ where
  pending := by
    rw [sound.pending]
    apply List.filter_congr
    intro r _
    by_cases same : r.node = n
    · simp [same, entered]
    · simp [same]
  again m before later isTest split earlier := by
    rcases cases_of_append split with ⟨-, same, -⟩ | ⟨front, rfl, inner⟩
    · cases same
    · rcases cases_of_append inner with ⟨-, same, rfl⟩ | ⟨front, rfl, innermost⟩
      · cases same
        rfl
      · rw [List.head?_append, List.head?_append,
          sound.again m before front isTest innermost earlier]
        rfl

end Sound

theorem outcome_visiting (n : NodeId) (act : Action Watched Unit) (s : Watched) :
    outcome (visiting n act) s =
      match outcome act { s with log := s.log ++ [.enter n] } with
      | (.ok (), later) => (.ok (), { later with log := later.log ++ [.leave n none] })
      | (.error e, later) =>
        (.error e, { later with log := later.log ++ [.leave n (some e)] }) := by
  simp only [outcome, visiting]
  cases act { s with log := s.log ++ [.enter n] } <;> rfl

namespace Follows

theorem bind {act : Action State α} {act' : Action Watched α} {f : α → Action State β}
    {f' : α → Action Watched β} (h : Follows d act act') (next : ∀ a, Follows d (f a) (f' a)) :
    Follows d (act >>= f) (act' >>= f') := by
  intro s sound
  obtain ⟨same, sound⟩ := h s sound
  simp only [outcome_bind, same]
  generalize outcome act' s = r at sound
  obtain ⟨_ | a, later⟩ := r
  · exact ⟨rfl, sound⟩
  · exact next a later sound

theorem pure (a : α) : Follows d (Pure.pure a) (Pure.pure a) := fun _ sound => ⟨rfl, sound⟩

theorem throw (e : Failure) :
    Follows d (MonadExcept.throw e : Action State α) (MonadExcept.throw e) :=
  fun _ sound => ⟨rfl, sound⟩

theorem quietly {act : Action State α} (h : Spares act) : Follows d act (quietly act) := by
  intro s sound
  rw [outcome_quietly]
  exact ⟨rfl, ⟨(h s.state).trans sound.pending, sound.again⟩⟩

theorem forM {xs : List α} {f : α → Action State Unit} {f' : α → Action Watched Unit}
    (h : ∀ a, Follows d (f a) (f' a)) : Follows d (xs.forM f) (xs.forM f') := by
  induction xs with
  | nil => exact pure _
  | cons x xs ih => exact (h x).bind fun _ => ih

/-- What is read is known beforehand. -/
theorem known {a : α} {f : α → Action State β} {f' : α → Action Watched β}
    (h : Follows d (f a) (f' a)) :
    Follows d (Pure.pure a >>= f) (Watched.quietly (Pure.pure a) >>= f') :=
  h

/-- A step that is only taken sometimes. -/
theorem sometimes {c : Prop} [Decidable c] {act : Action State Unit} {act' : Action Watched Unit}
    {f : Unit → Action State β} {f' : Unit → Action Watched β} (h : Follows d act act')
    (next : ∀ u, Follows d (f u) (f' u)) :
    Follows d (if c then act >>= f else f ()) (if c then act' >>= f' else f' ()) := by
  split
  · exact h.bind next
  · exact next ()

section Traversal

variable {visit : NodeId → Action State Unit} {visit' : NodeId → Action Watched Unit}
variable (visits : ∀ n, Follows d (visit n) (visit' n))
include visits

theorem code (n : NodeId) : Follows d (code d visit n) (code d visit' n) := by
  refine (visits n).bind fun _ => (quietly (.extent d n)).bind fun x => ?_
  refine (quietly .get).bind fun s => ?_
  cases s.draft.slice x.outer.start x.outer.stop with
  | ok text => exact pure text
  | error e => exact throw _

theorem name (n : NodeId) (base : String) (force : Bool) :
    Follows d (name d visit n base force) (name d visit' n base force) := by
  unfold Lowering.name
  split
  · exact code visits n
  · refine (quietly .get).bind fun s => ?_
    cases s.names.claim? base with
    | none => exact throw _
    | some claimed =>
        obtain ⟨name, names⟩ := claimed
        have named : Spares (setNames names) := .modify fun _ => rfl
        refine (quietly named).bind fun _ => (quietly (.extent d n)).bind fun x => ?_
        exact (quietly (.insert _ _)).bind fun _ => (visits n).bind fun _ => pure _

omit visits in
theorem adaptation (r : Rule) :
    Follows d (r.adaptation (Lowering.host d o visit))
      (r.adaptation (host d o visit')) :=
  fun _ sound => ⟨rfl, sound⟩

theorem lowerMoving (r : Rule) :
    Follows d (r.lowerMoving (host d o visit)) (r.lowerMoving (host d o visit')) := by
  refine (quietly (.extent d _)).bind fun left => (quietly (.extent d _)).bind fun right => ?_
  refine (adaptation r).bind fun adaptation => (code visits _).bind fun code => ?_
  refine (quietly (.remove _ _)).bind fun _ => ?_
  refine sometimes (quietly (.insert _ _)) fun _ => (quietly (.insert _ _)).bind fun _ => ?_
  exact (visits _).bind fun _ => quietly (.insert _ _)

theorem lowerStoring (r : Rule) :
    Follows d (r.lowerStoring (host d o visit)) (r.lowerStoring (host d o visit')) := by
  refine (quietly (.extent d _)).bind fun whole => (quietly (.extent d _)).bind fun left => ?_
  refine (quietly (.extent d _)).bind fun right => (adaptation r).bind fun adaptation => ?_
  refine (quietly (.insert _ _)).bind fun _ => ?_
  refine (name visits r.left Rule.needle true).bind fun name => ?_
  refine (quietly (.insert _ _)).bind fun _ => (quietly (.remove _ _)).bind fun _ => ?_
  refine sometimes (quietly (.insert _ _)) fun _ => sometimes (quietly (.insert _ _)) fun _ => ?_
  refine sometimes (quietly (.insert _ _)) fun _ => (visits _).bind fun _ => ?_
  exact sometimes (quietly (.insert _ _)) fun _ => quietly (.insert _ _)

theorem lowerRule (r : Rule) :
    Follows d (r.lower (host d o visit)) (r.lower (host d o visit')) := by
  have either : ∀ moving : Bool, Follows d
      (if moving then r.lowerMoving (host d o visit) else r.lowerStoring (host d o visit))
      (if moving then r.lowerMoving (host d o visit')
        else r.lowerStoring (host d o visit')) := by
    intro moving
    cases moving with
    | true => exact lowerMoving visits r
    | false => exact lowerStoring visits r
  exact either (d.arena.isPure r.left && d.arena.isPure r.right)

theorem lowerStatement (n : NodeId) :
    Follows d (lowerStatement d visit n) (lowerStatement d visit' n) := by
  refine (quietly (.extent d n)).bind fun x => (quietly .get).bind fun s => ?_
  have closed : Follows d
      (do if !d.isTerminatedAt x.outer.stop then insert x.outer.stop ";")
      (do if !d.isTerminatedAt x.outer.stop then Watched.quietly (insert x.outer.stop ";")) := by
    split
    · exact quietly (.insert _ _)
    · exact pure _
  cases s.needsParens n with
  | true =>
      refine (quietly (.insert _ _)).bind fun _ => (visits n).bind fun _ => ?_
      exact (quietly (.insert _ _)).bind fun _ => closed
  | false => exact (visits n).bind fun _ => closed

theorem lowerMember (object : NodeId) (name : Span) :
    Follows d (lowerMember d visit object name) (lowerMember d visit' object name) := by
  refine (quietly (.node d object)).bind fun part => ?_
  dsimp only
  split
  · exact quietly (.replace _ _)
  · exact visits object

theorem lowerNot (sign : Span) (operand : NodeId) :
    Follows d (lowerNot d visit sign operand) (lowerNot d visit' sign operand) := by
  refine (quietly (.extent d operand)).bind fun x => ?_
  cases d.arena.isMembership operand with
  | true => exact (quietly (.remove _ _)).bind fun _ => visits operand
  | false => exact sometimes (quietly (.replace _ _)) fun _ => visits operand

theorem lowerBinary (n left : NodeId) (operator : BinaryOperator) (right : NodeId) :
    Follows d (lowerBinary d visit n left operator right)
      (lowerBinary d visit' n left operator right) := by
  refine (visits left).bind fun _ => ?_
  cases d.operatorToken? n operator.tokenKind with
  | none => exact visits right
  | some t => exact sometimes (quietly (.replace _ _)) fun _ => visits right

/-- Nodes that are no membership tests. -/
theorem lowerNode (n : NodeId) (plain : d.arena.isMembership n = false) :
    Follows d (lowerNode d o visit n) (lowerNode d o visit' n) := by
  unfold Lowering.lowerNode Lowering.node
  cases found : d.arena.get? n with
  | none => exact fun _ sound => ⟨rfl, sound⟩
  | some node =>
      obtain ⟨kind, extent⟩ := node
      apply known
      cases kind with
      | program statements => exact forM fun n => lowerStatement visits n
      | atom a =>
          cases a with
          | this => exact quietly (.lowerThis d _)
          | _ => exact pure _
      | array elements => exact forM visits
      | call callee arguments => exact (visits callee).bind fun _ => forM visits
      | member object name => exact lowerMember visits object name
      | index object key => exact (visits object).bind fun _ => visits key
      | not sign operand => exact lowerNot visits sign operand
      | binary left operator right => exact lowerBinary visits n left operator right
      | membership left right negated =>
          rw [Arena.isMembership, found] at plain
          cases plain
      | assign target value => exact (visits target).bind fun _ => visits value

/-- The visit of a node that is no membership test. -/
theorem visitingPlain (n : NodeId) (plain : d.arena.isMembership n = false) :
    Follows d (Lowering.lowerNode d o visit n) (visiting n (Lowering.lowerNode d o visit' n)) := by
  intro s sound
  have inside : Sound d { s with log := s.log ++ [.enter n] } :=
    sound.note fun m same => by cases same; exact plain
  obtain ⟨same, after⟩ := lowerNode visits n plain _ inside
  rw [outcome_visiting]
  generalize outcome (Lowering.lowerNode d o visit' n) _ = r at same after
  obtain ⟨_ | _, later⟩ := r
  · exact ⟨same, after.note nofun⟩
  · exact ⟨same, after.note nofun⟩

end Traversal

end Follows

section Tests

variable (visit : NodeId → Action State Unit) (visit' : NodeId → Action Watched Unit)

/-- What a membership test does is up to its rule, in any state that holds one of a lowering. -/
theorem outcome_lowerMembership [MonadLiftT (Action State) (Action σ)]
    {visit : NodeId → Action σ Unit} {s : σ} {now : State}
    (read : outcome (liftM current : Action σ State) s = (.ok now, s)) :
    outcome (lowerMembership d o visit n) s =
      match now.rule? n with
      | none => (.error (.alreadyLowered n), s)
      | some r => outcome (liftM (drop n) >>= fun _ => r.lower (host d o visit)) s := by
  rw [lowerMembership, outcome_bind, read]
  dsimp only
  cases now.rule? n <;> rfl

/-- A test whose rule is gone is not touched. -/
theorem outcome_of_used {s : State} (used : s.rule? n = none) :
    outcome (lowerMembership d o visit n) s = (.error (.alreadyLowered n), s) ∧
      ∀ log, outcome (lowerMembership d o visit' n) ⟨s, log⟩ =
        (.error (.alreadyLowered n), ⟨s, log⟩) := by
  refine ⟨(outcome_lowerMembership rfl).trans ?_, fun log => (outcome_lowerMembership rfl).trans ?_⟩
  · rw [used]
  · simp only [used]

/-- A rule that waits is used up before it is applied. -/
theorem outcome_of_waiting {s : State} {r : Rule} (waiting : s.rule? n = some r) :
    outcome (lowerMembership d o visit n) s = outcome (r.lower (host d o visit)) (s.drop n) ∧
      ∀ log, outcome (lowerMembership d o visit' n) ⟨s, log⟩ =
        outcome (r.lower (host d o visit')) ⟨s.drop n, log⟩ := by
  refine ⟨(outcome_lowerMembership rfl).trans ?_, fun log => (outcome_lowerMembership rfl).trans ?_⟩
  · simp only [waiting]
    rfl
  · simp only [waiting]
    rfl

variable {visit visit'} (visits : ∀ n, Follows d (visit n) (visit' n))
include visits

/-- The visit of a membership test. -/
theorem Follows.visitingMembership (isTest : d.arena.isMembership n = true) :
    Follows d (lowerMembership d o visit n)
      (visiting n (lowerMembership d o visit' n)) := by
  intro s sound
  have rule := sound.rule? n
  rw [outcome_visiting]
  by_cases entered : Visit.enter n ∈ s.log
  · rw [if_pos entered] at rule
    obtain ⟨plain, watched⟩ := outcome_of_used visit visit' rule
    rw [plain, watched]
    exact ⟨rfl, sound.twice entered⟩
  · rw [if_neg entered] at rule
    obtain ⟨r, found⟩ := exists_rule isTest
    obtain ⟨plain, watched⟩ := outcome_of_waiting visit visit' (rule.trans found)
    obtain ⟨same, after⟩ := lowerRule visits r _ (sound.first entered)
    rw [plain, watched, same]
    generalize outcome (r.lower (host d o visit')) _ = result at after
    obtain ⟨_ | _, later⟩ := result
    · exact ⟨rfl, after.note nofun⟩
    · exact ⟨rfl, after.note nofun⟩

end Tests

/-- Watched or not, the traversal does the same, whatever happens to the rules. -/
theorem follows_lower (d : Document) (o : Options) (depth : Nat) (n : NodeId) :
    Follows d (lower d o depth n) (Watched.lower d o depth n) := by
  induction depth generalizing n with
  | zero => exact .quietly (.throw _)
  | succ depth ih =>
      simp only [lower, Watched.lower]
      cases isTest : d.arena.isMembership n with
      | false => exact .visitingPlain ih n isTest
      | true =>
          rw [lowerNode_of_isMembership isTest, lowerNode_of_isMembership isTest]
          exact .visitingMembership ih isTest

theorem follows_perform (o : Options) (call : Rehearsal.Call) :
    Follows d (perform (host d o (lower d o maxDepth)) call)
      (perform (host d o (Watched.lower d o maxDepth)) call) := by
  have visits := follows_lower d o maxDepth
  cases call with
  | lower n => exact visits n
  | lowerToCode n => exact (Follows.code visits n).bind fun _ => .pure _
  | lowerToName n base force => exact (Follows.name visits n base force).bind fun _ => .pure _
  | insert offset text => exact .quietly (.insert _ _)
  | remove start stop => exact .quietly (.remove _ _)

theorem sound_afterCalls (o : Options) (calls : List Rehearsal.Call) (s : Watched)
    (sound : Sound d s) :
    (afterCalls (host d o (Watched.lower d o maxDepth)) calls s).state =
        afterCalls (host d o (lower d o maxDepth)) calls s.state ∧
      Sound d (afterCalls (host d o (Watched.lower d o maxDepth)) calls s) := by
  induction calls generalizing s with
  | nil => exact ⟨rfl, sound⟩
  | cons call calls ih =>
      obtain ⟨same, after⟩ := follows_perform o call s sound
      simp only [afterCalls, List.foldl_cons, same]
      exact ih _ after

end

/-- Whatever table there is and whatever calls have been made: a membership test that has not been
    entered tells whether it will be negated; one that has been entered tells nothing, and fails
    when it is entered again. -/
theorem rules_afterCalls (d : Document) (o : Options) (calls : List Rehearsal.Call) :
    let s := afterCalls (host d o (lower d o maxDepth)) calls (.initial d)
    let log := (Watched.afterCalls d o calls).log
    (Watched.afterCalls d o calls).state = s ∧
      (∀ n, s.isNegated? n = if Visit.enter n ∈ log then none else isNegatedIn? d.arena n) ∧
      (∀ n, d.arena.isMembership n = true →
        (∀ before later, log = before ++ .enter n :: later → Visit.enter n ∈ before →
          later.head? = some (.leave n (some (.alreadyLowered n)))) ∧
        (Visit.enter n ∈ log → ∀ depth,
          outcome (lower d o (depth + 1) n) s = (.error (.alreadyLowered n), s))) ∧
      ∀ n, s.needsParens n = false := by
  intro s log
  obtain ⟨same, sound⟩ := sound_afterCalls o calls ⟨.initial d, []⟩ (.initial d)
  have rule : ∀ n, s.rule? n =
      if Visit.enter n ∈ log then none else d.arena.rules.find? (·.node = n) := by
    intro n
    have rule := sound.rule? n
    rwa [same] at rule
  refine ⟨same, fun n => ?_, fun n isTest => ⟨fun before later => sound.again n before later isTest,
    fun entered depth => ?_⟩, fun n => ?_⟩
  · rw [State.isNegated?, rule n, ← negated_find?]
    split <;> rfl
  · rw [lower, lowerNode_of_isMembership isTest]
    exact (outcome_of_used _ (Watched.lower d o depth) ((rule n).trans (if_pos entered))).1
  · rw [State.needsParens]
    cases s.rule? n <;> rfl

/-- Three `not` nodes in front of one test, and an array of two of them and a missing node. -/
def sharedTest : Document where
  source := "not a in b"
  tokens := #[]
  arena := ⟨#[⟨.atom .identifier, .bare ⟨4, 5⟩⟩, ⟨.atom .identifier, .bare ⟨9, 10⟩⟩,
    ⟨.membership 0 1 false, .bare ⟨4, 10⟩⟩, ⟨.not ⟨0, 3⟩ 2, .bare ⟨0, 10⟩⟩,
    ⟨.not ⟨0, 3⟩ 2, .bare ⟨0, 10⟩⟩, ⟨.not ⟨0, 3⟩ 2, .bare ⟨0, 10⟩⟩,
    ⟨.array [3, 9, 4], .bare ⟨0, 10⟩⟩]⟩
  root := 6

theorem rules_afterCalls_shared :
    (Watched.afterCalls sharedTest .standard [.lower 6, .lowerToCode 4]).log =
        [.enter 6, .enter 3, .enter 2, .enter 1, .leave 1 none, .enter 0, .leave 0 none,
          .leave 2 none, .leave 3 none, .enter 9, .leave 9 (some (.missingNode 9)),
          .leave 6 (some (.missingNode 9)), .enter 4, .enter 2, .leave 2 (some (.alreadyLowered 2)),
          .leave 4 (some (.alreadyLowered 2))] ∧
      (State.initial sharedTest).isNegated? 2 = some true ∧
      (afterCalls (host sharedTest .standard (lower sharedTest .standard maxDepth))
        [.lower 6, .lowerToCode 4] (.initial sharedTest)).isNegated? 2 = none := by
  have log : (Watched.afterCalls sharedTest .standard [.lower 6, .lowerToCode 4]).log =
      [.enter 6, .enter 3, .enter 2, .enter 1, .leave 1 none, .enter 0, .leave 0 none,
        .leave 2 none, .leave 3 none, .enter 9, .leave 9 (some (.missingNode 9)),
        .leave 6 (some (.missingNode 9)), .enter 4, .enter 2, .leave 2 (some (.alreadyLowered 2)),
        .leave 4 (some (.alreadyLowered 2))] := by
    decide +kernel
  refine ⟨log, (rules_afterCalls sharedTest .standard []).2.1 2, ?_⟩
  rw [(rules_afterCalls sharedTest .standard [.lower 6, .lowerToCode 4]).2.1 2, log]
  rfl

end Lowering

end MembershipLowering
