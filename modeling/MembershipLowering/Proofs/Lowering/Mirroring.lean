import MembershipLowering.Proofs.Lowering.Ending

/-! # Two runs of one document

Lowering a document twice, with other options, or from a state in which one rule says the
opposite, goes the same way, step by step (`Mirrors`): the same offsets are edited, with other
texts perhaps, the same names are handed out, and where one run fails the other fails alike.

An offset is refused or not whatever texts have been inserted. That is why a `!` or an adaptation
more does not let an edit fail that succeeds without it.
-/

namespace MembershipLowering

namespace Lowering

variable {d : Document} {o o' : Options} {n : NodeId}

/-- The two states differ in texts, and in the rule of node `n`, which is flipped. -/
structure Opposite (n : NodeId) (s s' : State) : Prop where
  offsets : s'.draft.slots.map (·.offset) = s.draft.slots.map (·.offset)
  length : s'.draft.length = s.draft.length
  names : s'.names = s.names
  rule? : ∀ m, s'.rule? m = (s.rule? m).map (Rule.flipIf (n = m))

/-- The second state differs from the first one in texts. -/
structure Edited (s t : State) : Prop where
  offsets : t.draft.slots.map (·.offset) = s.draft.slots.map (·.offset)
  length : t.draft.length = s.draft.length
  names : t.names = s.names
  pending : t.pending = s.pending

/-- What two runs end in: answers that are related, or the same failure. -/
inductive Alike (n : NodeId) {α β : Type} (R : α → β → Prop) :
    EStateM.Result Failure State α → EStateM.Result Failure State β → Prop where
  | ok {a : α} {b : β} {s s' : State} (answers : R a b) (states : Opposite n s s') :
      Alike n R (.ok a s) (.ok b s')
  | error {e : Failure} {s s' : State} : Alike n R (.error e s) (.error e s')

/-- From states that differ as they may, the two actions end alike. -/
def Mirrors (n : NodeId) {α β : Type} (R : α → β → Prop) (act : Action State α)
    (act' : Action State β) : Prop :=
  ∀ s s', Opposite n s s' → Alike n R (act s) (act' s')

theorem Edited.refl (s : State) : Edited s s :=
  ⟨rfl, rfl, rfl, rfl⟩

theorem Edited.trans {s t u : State} (h : Edited s t) (h' : Edited t u) : Edited s u :=
  ⟨h'.offsets.trans h.offsets, h'.length.trans h.length, h'.names.trans h.names,
    h'.pending.trans h.pending⟩

theorem Opposite.edited {s s' t t' : State} (h : Opposite n s s') (first : Edited s t)
    (second : Edited s' t') : Opposite n t t' where
  offsets := by rw [second.offsets, h.offsets, first.offsets]
  length := by rw [second.length, h.length, first.length]
  names := by rw [second.names, h.names, first.names]
  rule? m := by
    rw [State.rule?, second.pending, State.rule?, first.pending]
    exact h.rule? m

theorem rule?_drop (s : State) (m k : NodeId) :
    (s.drop m).rule? k = if m = k then none else s.rule? k := by
  rw [State.rule?, State.drop, Rule.find?_filter_node _ (· ≠ m), State.rule?]
  by_cases same : m = k
  · simp [same]
  · simp [same, Ne.symm same]

theorem Opposite.drop {s s' : State} (h : Opposite n s s') (m : NodeId) :
    Opposite n (s.drop m) (s'.drop m) where
  offsets := h.offsets
  length := h.length
  names := h.names
  rule? k := by
    rw [rule?_drop, rule?_drop, h.rule?]
    split <;> rfl

/-- Whether an offset is refused does not depend on the texts. -/
theorem offsetError?_eq {d d' : Draft} (offsets : d'.slots.map (·.offset) = d.slots.map (·.offset))
    (length : d'.length = d.length) : d'.offsetError? = d.offsetError? := by
  funext offset
  have any : d'.slots.any (·.offset = offset) = d.slots.any (·.offset = offset) := by
    have same := congrArg (List.any · (· = offset)) offsets
    rwa [List.any_map, List.any_map] at same
  rw [Draft.offsetError?, Draft.offsetError?, length, any]

theorem Edited.offsetError? {s t : State} (h : Edited s t) :
    t.draft.offsetError? = s.draft.offsetError? :=
  offsetError?_eq h.offsets h.length

theorem Opposite.offsetError? {s s' : State} (h : Opposite n s s') :
    s'.draft.offsetError? = s.draft.offsetError? :=
  offsetError?_eq h.offsets h.length

theorem Opposite.rangeError? {s s' : State} (h : Opposite n s s') (start stop : Nat) :
    s'.draft.rangeError? start stop = s.draft.rangeError? start stop := by
  rw [Draft.rangeError?, Draft.rangeError?, h.offsetError?]

/-- The action edits the draft unless the check refuses. -/
def Checked (check : Draft → Option Draft.Error) (act : Action State Unit) : Prop :=
  ∀ s, (∃ e, check s.draft = some e ∧ act s = .error (.edit e) s) ∨
    check s.draft = none ∧ ∃ t, act s = .ok () t ∧ Edited s t

theorem checked_insert (offset : Nat) (text : String) :
    Checked (·.offsetError? offset) (insert offset text) := by
  intro s
  unfold insert
  rw [bind_of_ok (x := get) (s := s) rfl, Draft.insert]
  cases refused : s.draft.offsetError? offset with
  | some e => exact .inl ⟨e, refused, rfl⟩
  | none =>
      refine .inr ⟨refused, ?_⟩
      by_cases empty : text = ""
      · simp only [if_pos empty]
        exact ⟨_, rfl, .refl s⟩
      · simp only [if_neg empty]
        exact ⟨_, rfl, by simp [Function.comp_def], rfl, rfl, rfl⟩

theorem checked_remove (start stop : Nat) :
    Checked (·.rangeError? start stop) (remove start stop) := by
  intro s
  unfold remove
  rw [bind_of_ok (x := get) (s := s) rfl, Draft.remove]
  cases refused : s.draft.rangeError? start stop with
  | some e => exact .inl ⟨e, refused, rfl⟩
  | none => exact .inr ⟨refused, _, rfl, by simp [Function.comp_def], rfl, rfl, rfl⟩

/-- A text with or without another one in front of it. -/
theorem checked_marked (c : Bool) (offset : Nat) (mark text : String) :
    Checked (·.offsetError? offset)
      (if c then insert offset mark >>= fun _ => insert offset text else insert offset text) := by
  cases c with
  | false => exact checked_insert offset text
  | true =>
      intro s
      rcases checked_insert offset mark s with ⟨e, refused, ran⟩ | ⟨fine, t, ran, edited⟩
      · refine .inl ⟨e, refused, ?_⟩
        change EStateM.bind (insert offset mark) _ s = _
        unfold EStateM.bind
        rw [ran]
      · refine .inr ⟨fine, ?_⟩
        rw [if_pos rfl, bind_of_ok ran]
        rcases checked_insert offset text t with ⟨e, refused, -⟩ | ⟨-, u, ran', edited'⟩
        · cases refused.symm.trans ((congrFun edited.offsetError? offset).trans fine)
        · exact ⟨u, ran', edited.trans edited'⟩

/-- Where an offset is fine, insertions at it cannot fail. -/
def MirrorsAt (n : NodeId) (offset : Nat) {α β : Type} (R : α → β → Prop) (act : Action State α)
    (act' : Action State β) : Prop :=
  ∀ s s', Opposite n s s' → s.draft.offsetError? offset = none → Alike n R (act s) (act' s')

namespace MirrorsAt

variable {α β : Type} {R : α → β → Prop} {offset : Nat} {c : Prop} [Decidable c] {text : String}

theorem of {act : Action State α} {act' : Action State β} (h : Mirrors n R act act') :
    MirrorsAt n offset R act act' :=
  fun s s' states _ => h s s' states

/-- The first run may insert something more. -/
theorem left {f : Unit → Action State α} {act' : Action State β}
    (h : MirrorsAt n offset R (f ()) act') :
    MirrorsAt n offset R (if c then insert offset text >>= f else f ()) act' := by
  intro s s' states fine
  split
  · rcases checked_insert offset text s with ⟨e, refused, -⟩ | ⟨-, t, ran, edited⟩
    · cases refused.symm.trans fine
    · rw [bind_of_ok ran]
      exact h t s' (states.edited edited (.refl s'))
        ((congrFun edited.offsetError? offset).trans fine)
  · exact h s s' states fine

/-- The second run may insert something more. -/
theorem right {act : Action State α} {f : Unit → Action State β}
    (h : MirrorsAt n offset R act (f ())) :
    MirrorsAt n offset R act (if c then insert offset text >>= f else f ()) := by
  intro s s' states fine
  split
  · rcases checked_insert offset text s' with ⟨e, refused, -⟩ | ⟨-, t, ran, edited⟩
    · cases refused.symm.trans ((congrFun states.offsetError? offset).trans fine)
    · rw [bind_of_ok ran]
      exact h s t (states.edited (.refl s) edited) fine
  · exact h s s' states fine

end MirrorsAt

namespace Mirrors

variable {α β γ δ : Type} {R : α → β → Prop} {S : γ → δ → Prop}

theorem bind {act : Action State α} {act' : Action State β} {f : α → Action State γ}
    {f' : β → Action State δ} (h : Mirrors n R act act')
    (next : ∀ a b, R a b → Mirrors n S (f a) (f' b)) :
    Mirrors n S (act >>= f) (act' >>= f') := by
  intro s s' states
  have first := h s s' states
  change Alike n S (EStateM.bind act f s) (EStateM.bind act' f' s')
  unfold EStateM.bind
  generalize act s = r at first
  generalize act' s' = r' at first
  cases first with
  | ok answers states => exact next _ _ answers _ _ states
  | error => exact .error

theorem pure {a : α} {b : β} (h : R a b) :
    Mirrors n R (Pure.pure a : Action State α) (Pure.pure b) :=
  fun _ _ states => .ok h states

theorem throw (e : Failure) :
    Mirrors n R (MonadExcept.throw e : Action State α) (MonadExcept.throw e : Action State β) :=
  fun _ _ _ => .error

/-- An action and then another one, with the same answers on both sides. -/
theorem andThen {act : Action State α} {f f' : α → Action State γ}
    {act' : Action State α} {S : γ → γ → Prop} (h : Mirrors n Eq act act')
    (next : ∀ a, Mirrors n S (f a) (f' a)) : Mirrors n S (act >>= f) (act' >>= f') :=
  h.bind fun a b same => by subst same; exact next a

theorem get : Mirrors n (Opposite n) MonadState.get MonadState.get :=
  fun _ _ states => .ok states states

/-- Edits under one check, which does not look at the texts. -/
theorem edit {check : Draft → Option Draft.Error} {act act' : Action State Unit}
    (h : Checked check act) (h' : Checked check act')
    (same : ∀ s s', Opposite n s s' → check s'.draft = check s.draft) :
    Mirrors n Eq act act' := by
  intro s s' states
  have same := same s s' states
  rcases h s with ⟨e, refused, ran⟩ | ⟨fine, t, ran, edited⟩ <;>
    rcases h' s' with ⟨e', refused', ran'⟩ | ⟨fine', t', ran', edited'⟩
  · obtain rfl : e' = e := Option.some.inj (refused'.symm.trans (same.trans refused))
    rw [ran, ran']
    exact .error
  · cases refused.symm.trans (same.symm.trans fine')
  · cases fine.symm.trans (same.symm.trans refused')
  · rw [ran, ran']
    exact .ok rfl (states.edited edited edited')

theorem insert (offset : Nat) (text text' : String) :
    Mirrors n Eq (insert offset text) (insert offset text') :=
  edit (checked_insert offset text) (checked_insert offset text') fun _ _ states =>
    congrFun states.offsetError? offset

theorem remove (start stop : Nat) : Mirrors n Eq (remove start stop) (remove start stop) :=
  edit (checked_remove start stop) (checked_remove start stop) fun _ _ states =>
    states.rangeError? start stop

theorem replace (span : Span) (text : String) :
    Mirrors n Eq (replace span text) (replace span text) :=
  (remove _ _).andThen fun _ => insert _ _ _

/-- Each of the runs may put a mark in front of its text. -/
theorem marked {S : γ → δ → Prop} {f : Unit → Action State γ} {f' : Unit → Action State δ}
    (c c' : Bool) (offset : Nat) (mark text text' : String) (next : Mirrors n S (f ()) (f' ())) :
    Mirrors n S
      (if c then Lowering.insert offset mark >>= fun _ => Lowering.insert offset text >>= f
        else Lowering.insert offset text >>= f)
      (if c' then Lowering.insert offset mark >>= fun _ => Lowering.insert offset text' >>= f'
        else Lowering.insert offset text' >>= f') := by
  have edits : Mirrors n Eq _ _ := edit (checked_marked c offset mark text)
    (checked_marked c' offset mark text') fun _ _ states => congrFun states.offsetError? offset
  have whole : Mirrors n S (_ >>= f) (_ >>= f') := edits.bind fun _ _ _ => next
  cases c <;> cases c' <;> simpa using whole

/-- What has been removed up to an offset leaves the offset fine. -/
theorem removeAnd {S : γ → δ → Prop} {f : Unit → Action State γ} {f' : Unit → Action State δ}
    (start stop : Nat) (next : MirrorsAt n stop S (f ()) (f' ())) :
    Mirrors n S (Lowering.remove start stop >>= f) (Lowering.remove start stop >>= f') := by
  intro s s' states
  have first := remove start stop s s' states
  rcases checked_remove start stop s with ⟨e, refused, ran⟩ | ⟨fine, t, ran, edited⟩
  · change Alike n S (EStateM.bind _ f s) (EStateM.bind _ f' s')
    unfold EStateM.bind
    rw [ran] at first ⊢
    generalize Lowering.remove start stop s' = r' at first
    cases first
    exact .error
  · rw [ran] at first
    generalize ran' : Lowering.remove start stop s' = r' at first
    cases first with
    | ok same states =>
        rw [bind_of_ok ran, bind_of_ok ran']
        refine next t _ states ?_
        rw [edited.offsetError?]
        unfold Draft.rangeError? at fine
        split at fine
        · cases fine
        · exact (Option.or_eq_none_iff.1 fine).2

theorem forM {γ : Type} {xs : List γ} {f f' : γ → Action State Unit}
    (h : ∀ x, Mirrors n Eq (f x) (f' x)) : Mirrors n Eq (xs.forM f) (xs.forM f') := by
  induction xs with
  | nil => exact pure rfl
  | cons x xs ih => exact (h x).andThen fun _ => ih

/-- A step that is only taken sometimes. -/
theorem sometimes {S : γ → δ → Prop} {c : Prop} [Decidable c] {act act' : Action State Unit}
    {f : Unit → Action State γ} {f' : Unit → Action State δ} (h : Mirrors n Eq act act')
    (next : ∀ u, Mirrors n S (f u) (f' u)) :
    Mirrors n S (if c then act >>= f else f ()) (if c then act' >>= f' else f' ()) := by
  split
  · exact h.bind fun u _ _ => next u
  · exact next ()

theorem node (m : NodeId) : Mirrors n Eq (node d m) (node d m) := by
  unfold Lowering.node
  split
  · exact pure rfl
  · exact throw _

theorem extent (m : NodeId) : Mirrors n Eq (extent d m) (extent d m) :=
  (node m).andThen fun _ => pure rfl

section Traversal

variable {visit visit' : NodeId → Action State Unit}
  (visits : ∀ m, Mirrors n Eq (visit m) (visit' m))
include visits

/-- The codes may differ. -/
theorem code (m : NodeId) :
    Mirrors n (fun _ _ => True) (code d visit m) (code d visit' m) := by
  refine (visits m).bind fun _ _ _ => (extent m).bind fun x _ same => ?_
  subst same
  refine get.bind fun s s' states => ?_
  rw [Draft.slice, Draft.slice, states.rangeError?]
  cases s.draft.rangeError? x.outer.start x.outer.stop with
  | some e => exact throw _
  | none => exact pure trivial

theorem name (m : NodeId) (base : String) :
    Mirrors n Eq (name d visit m base true) (name d visit' m base true) := by
  unfold Lowering.name
  refine get.bind fun s s' states => ?_
  rw [states.names]
  cases s.names.claim? base with
  | none => exact throw _
  | some claimed =>
      obtain ⟨name, names⟩ := claimed
      have named : Mirrors n Eq (modify fun s => { s with names := names } : Action State Unit)
          (modify fun s => { s with names := names }) := fun _ _ states =>
        .ok rfl ⟨states.offsets, states.length, rfl, states.rule?⟩
      refine named.andThen fun _ => (extent m).andThen fun x => ?_
      exact (insert _ _ _).andThen fun _ => (visits m).andThen fun _ => pure rfl

omit visits in
/-- The adaptations may differ. -/
theorem adaptation (r r' : Rule) : Mirrors n (fun _ _ => True) (r.adaptation (host d o visit))
    (r'.adaptation (host d o' visit')) :=
  fun _ _ states => .ok trivial states

theorem lowerMoving (r : Rule) (odd : Bool) :
    Mirrors n Eq (r.lowerMoving (host d o visit))
      ((r.flipIf odd).lowerMoving (host d o' visit')) := by
  refine (extent _).andThen fun left => (extent _).andThen fun right => ?_
  refine (adaptation r _).bind fun adaptation adaptation' _ => ?_
  refine (code (d := d) visits r.right).bind fun text text' _ => ?_
  refine (remove _ _).andThen fun _ => marked _ _ _ _ _ _ ?_
  exact (visits _).andThen fun _ => insert _ _ _

theorem lowerStoring (r : Rule) (odd : Bool) :
    Mirrors n Eq (r.lowerStoring (host d o visit))
      ((r.flipIf odd).lowerStoring (host d o' visit')) := by
  refine (extent _).andThen fun whole => (extent _).andThen fun left => ?_
  refine (extent _).andThen fun right => ?_
  refine (adaptation r _).bind fun adaptation adaptation' _ => ?_
  refine (insert _ _ _).andThen fun _ => ?_
  have stored : Mirrors n Eq ((host d o visit).lowerToName r.left Rule.needle true)
      ((host d o' visit').lowerToName r.left Rule.needle true) := by
    change Mirrors n Eq (Lowering.name d visit r.left Rule.needle true)
      (Lowering.name d visit' r.left Rule.needle true)
    exact name visits r.left Rule.needle
  refine stored.andThen fun name => (insert _ _ _).andThen fun _ => removeAnd _ _ ?_
  -- The sign, the function and the parenthesis may each be inserted on one side only.
  refine .left (.left (.left (.right (.right (.right (.of ?_))))))
  refine (visits _).andThen fun _ => ?_
  exact edit (checked_marked _ _ _ _) (checked_marked _ _ _ _) fun _ _ states =>
    congrFun states.offsetError? _

/-- The rule of a test and the one of the same or the opposite test. -/
theorem lowerRule (r : Rule) (odd : Bool) :
    Mirrors n Eq (r.lower (host d o visit)) ((r.flipIf odd).lower (host d o' visit')) := by
  have either : ∀ moving : Bool, Mirrors n Eq
      (if moving then r.lowerMoving (host d o visit) else r.lowerStoring (host d o visit))
      (if moving then (r.flipIf odd).lowerMoving (host d o' visit')
        else (r.flipIf odd).lowerStoring (host d o' visit')) := by
    intro moving
    cases moving with
    | true => exact lowerMoving visits r odd
    | false => exact lowerStoring visits r odd
  exact either (d.arena.isPure r.left && d.arena.isPure r.right)

theorem lowerStatement (m : NodeId) :
    Mirrors n Eq (lowerStatement d visit m) (lowerStatement d visit' m) := by
  refine (extent m).andThen fun x => get.bind fun s s' states => ?_
  have closed : Mirrors n Eq
      (do if !d.isTerminatedAt x.outer.stop then Lowering.insert x.outer.stop ";")
      (do if !d.isTerminatedAt x.outer.stop then Lowering.insert x.outer.stop ";") := by
    split
    · exact insert _ _ _
    · exact pure rfl
  have parens : s'.needsParens m = s.needsParens m := by
    rw [State.needsParens, states.rule?, State.needsParens]
    cases s.rule? m <;> rfl
  rw [parens]
  cases s.needsParens m with
  | true =>
      refine (insert _ _ _).andThen fun _ => (visits m).andThen fun _ => ?_
      exact (insert _ _ _).andThen fun _ => closed
  | false => exact (visits m).andThen fun _ => closed

omit visits in
theorem lowerThis (content : Span) :
    Mirrors n Eq (lowerThis d content) (lowerThis d content) := by
  unfold Lowering.lowerThis
  split
  · exact replace _ _
  · exact pure rfl

theorem lowerMember (object : NodeId) (name : Span) :
    Mirrors n Eq (lowerMember d visit object name) (lowerMember d visit' object name) := by
  refine (node object).andThen fun part => ?_
  dsimp only
  split
  · exact replace _ _
  · exact visits object

theorem lowerNot (sign : Span) (operand : NodeId) :
    Mirrors n Eq (lowerNot d visit sign operand) (lowerNot d visit' sign operand) := by
  refine (extent operand).andThen fun x => ?_
  cases d.arena.isMembership operand with
  | true => exact (remove _ _).andThen fun _ => visits operand
  | false => exact sometimes (replace _ _) fun _ => visits operand

theorem lowerBinary (m left : NodeId) (operator : BinaryOperator) (right : NodeId) :
    Mirrors n Eq (lowerBinary d visit m left operator right)
      (lowerBinary d visit' m left operator right) := by
  refine (visits left).andThen fun _ => ?_
  cases d.operatorToken? m operator.tokenKind with
  | none => exact visits right
  | some t => exact sometimes (replace _ _) fun _ => visits right

/-- The rule that is used up may be the one that is flipped. -/
theorem lowerMembership (m : NodeId) :
    Mirrors n Eq (lowerMembership d o visit m) (lowerMembership d o' visit' m) := by
  refine get.bind fun s s' states => ?_
  rw [states.rule?]
  cases s.rule? m with
  | none => exact throw _
  | some r =>
      have dropped : Mirrors n Eq (modify (·.drop m) : Action State Unit) (modify (·.drop m)) :=
        fun _ _ states => .ok rfl (states.drop m)
      exact dropped.andThen fun _ => lowerRule visits r _

theorem lowerNode (m : NodeId) :
    Mirrors n Eq (lowerNode d o visit m) (lowerNode d o' visit' m) := by
  refine (node m).andThen fun node => ?_
  obtain ⟨kind, extent⟩ := node
  cases kind with
  | program statements => exact forM fun m => lowerStatement visits m
  | atom a =>
      cases a with
      | this => exact lowerThis _
      | _ => exact pure rfl
  | array elements => exact forM visits
  | call callee arguments => exact (visits callee).andThen fun _ => forM visits
  | member object name => exact lowerMember visits object name
  | index object key => exact (visits object).andThen fun _ => visits key
  | not sign operand => exact lowerNot visits sign operand
  | binary left operator right => exact lowerBinary visits m left operator right
  | membership => exact lowerMembership visits m
  | assign target value => exact (visits target).andThen fun _ => visits value

end Traversal

end Mirrors

theorem mirrors_lower (n : NodeId) (depth : Nat) (m : NodeId) :
    Mirrors n Eq (lower d o depth m) (lower d o' depth m) := by
  induction depth generalizing m with
  | zero => exact .throw _
  | succ depth ih => exact .lowerNode ih m

theorem mirrors_run (d : Document) (o o' : Options) (n : NodeId) :
    Mirrors n (fun out out' => out'.bindings = out.bindings) (run d o) (run d o') := by
  refine Mirrors.bind (.forM fun m => .lowerStatement (mirrors_lower n maxDepth) m)
    fun _ _ _ => Mirrors.get.bind fun s s' states => .pure ?_
  rw [states.names]

/-- The same rules all along: no rule is flipped at an index without a node. -/
theorem Opposite.refl_initial (d : Document) :
    Opposite d.arena.size (.initial d) (.initial d) where
  offsets := rfl
  length := rfl
  names := rfl
  rule? m := by
    by_cases past : d.arena.size = m
    · have absent : d.arena.get? m = none := Array.getElem?_eq_none (Nat.le_of_eq past)
      have found : (State.initial d).rule? m = none := by
        change d.arena.rules.find? (·.node = m) = none
        rw [Arena.rules_find?, absent]
        rfl
      rw [found]
      rfl
    · simp [past]

end Lowering

/-- How the lowered documents compare if the runs do. -/
theorem Document.lower_cases {d d' : Document} {o o' : Options} {n : NodeId}
    (runs : Lowering.Alike n (fun out out' : Output => out'.bindings = out.bindings)
      (Lowering.run d o (.initial d)) (Lowering.run d' o' (.initial d'))) :
    (∃ e, d.lower o = .error e ∧ d'.lower o' = .error e) ∨
      ∃ out out', d.lower o = .ok out ∧ d'.lower o' = .ok out' ∧
        out'.bindings = out.bindings := by
  unfold Document.lower EStateM.run
  generalize Lowering.run d o (.initial d) = r at runs
  generalize Lowering.run d' o' (.initial d') = r' at runs
  cases runs with
  | ok bindings => exact .inr ⟨_, _, rfl, rfl, bindings⟩
  | error => exact .inl ⟨_, rfl, rfl⟩

/-- With any two options a document fails alike, or it is lowered with the same names. -/
theorem Document.lower_options_cases (d : Document) (o o' : Options) :
    (∃ e, d.lower o = .error e ∧ d.lower o' = .error e) ∨
      ∃ out out', d.lower o = .ok out ∧ d.lower o' = .ok out' ∧ out'.bindings = out.bindings :=
  Document.lower_cases (Lowering.mirrors_run d o o' d.arena.size _ _ (.refl_initial d))

end MembershipLowering
