import MembershipLowering.Proofs.Expr.Height
import MembershipLowering.Proofs.Lowering.Rendering
import MembershipLowering.Proofs.Names.Supply

/-! # How lowering ends

Lowering an expression that sits in a node table ends in one of three ways (`Ends`): it is
done, it went too deep, or no name was left for a temporary. No edit is refused, no node is
missing and no membership test is met twice. Which of the three it is depends on two things
only, the number of levels of the tree and the number of its temporaries.

All that a state has to fulfil is that the rules of the tests still wait (`View.Awaits`);
what has been edited before does not matter.
-/

namespace MembershipLowering

namespace Lowering

/-- The rules of the tests from node `first` up to node `next` still wait. -/
def View.Awaits (v : View) (a : Arena) (first next : Nat) : Prop :=
  ∀ n : Nat, first ≤ n → n < next → v.rule? n = a.rules.find? (·.node = n)

/-- The ways to end for an action that starts at the view `v`, uses up no rules but those from
    node `first` up to node `next`, needs `count` names and goes too deep if `tall` holds. -/
inductive Ends (source : String) (first next : Nat) (v : View) (count : Nat) (tall : Prop)
    {α : Type} : EStateM.Result Failure State α → Prop where
  | done {a : α} {v' : View} (shallow : ¬tall)
      (names : v.names.advance? Rule.needle count = some v'.names)
      (pending : ∀ n : Nat, n < first ∨ next ≤ n → v'.rule? n = v.rule? n) :
      Ends source first next v count tall (.ok a (v'.state source))
  | tooDeep {n : NodeId} {s : State} (deep : tall) :
      Ends source first next v count tall (.error (.tooDeep n) s)
  | exhausted {s : State} (none : v.names.advance? Rule.needle count = none) :
      Ends source first next v count tall (.error (.namesExhausted Rule.needle) s)

variable {source : String} {a : Arena} {v v₁ v' : View} {offset start stop : Nat}
variable {first next first' next' count count' : Nat} {tall tall' : Prop} {α β : Type}

theorem View.Awaits.within (h : v.Awaits a first next) (hfirst : first ≤ first')
    (hnext : next' ≤ next) : v.Awaits a first' next' :=
  fun n lower upper => h n (by omega) (by omega)

/-- Rules that lie elsewhere wait on. -/
theorem View.Awaits.later (h : v.Awaits a first' next')
    (pending : ∀ n : Nat, n < first ∨ next ≤ n → v'.rule? n = v.rule? n)
    (apart : next' ≤ first ∨ next ≤ first') : v'.Awaits a first' next' :=
  fun n lower upper => (pending n (by omega)).trans (h n lower upper)

namespace Ends

theorem congr {r : EStateM.Result Failure State α} (h : Ends source first next v count tall r)
    (hcount : count = count') (htall : tall ↔ tall') : Ends source first next v count' tall' r := by
  subst hcount
  cases h with
  | done shallow names pending => exact .done (fun tall => shallow (htall.2 tall)) names pending
  | tooDeep deep => exact .tooDeep (htall.1 deep)
  | exhausted none => exact .exhausted none

/-- An action that starts from other marks on the source. -/
theorem of_marks {marks : Marks} {r : EStateM.Result Failure State α}
    (h : Ends source first next { v with marks := marks } count tall r) :
    Ends source first next v count tall r := by
  cases h with
  | done shallow names pending => exact .done shallow names pending
  | tooDeep deep => exact .tooDeep deep
  | exhausted none => exact .exhausted none

/-- Nothing has been done but edits. -/
theorem edited {marks : Marks} {x : α} :
    Ends source first next v 0 False (.ok x ({ v with marks := marks }.state source)) :=
  .done id rfl fun _ _ => rfl

/-- What goes on within a smaller range of nodes. -/
theorem widen {r : EStateM.Result Failure State α} (h : Ends source first next v count tall r)
    (hfirst : first' ≤ first) (hnext : next ≤ next') :
    Ends source first' next' v count tall r := by
  cases h with
  | done shallow names pending => exact .done shallow names fun n outside => pending n (by omega)
  | tooDeep deep => exact .tooDeep deep
  | exhausted none => exact .exhausted none

/-- One action and then another one. -/
theorem bind {x : Action State α} {f : α → Action State β}
    (h : Ends source first' next' v count tall (x (v.state source)))
    (hfirst : first ≤ first') (hnext : next' ≤ next)
    (rest : ∀ a v₁, x (v.state source) = .ok a (v₁.state source) →
      (∀ n : Nat, n < first' ∨ next' ≤ n → v₁.rule? n = v.rule? n) →
      Ends source first next v₁ count' tall' (f a (v₁.state source))) :
    Ends source first next v (count + count') (tall ∨ tall') ((x >>= f) (v.state source)) := by
  have advanced := v.names.advance?_add Rule.needle count count'
  change Ends _ _ _ _ _ _ (EStateM.bind x f (v.state source))
  unfold EStateM.bind
  cases ran : x (v.state source) with
  | error e s =>
      rw [ran] at h
      cases h with
      | tooDeep deep => exact .tooDeep (.inl deep)
      | exhausted none =>
          rw [none] at advanced
          exact .exhausted advanced
  | ok a s =>
      rw [ran] at h
      cases h with
      | @done _ v₁ shallow names pending =>
          rw [names] at advanced
          have later := rest a v₁ ran pending
          show Ends _ _ _ _ _ _ (f a (v₁.state source))
          generalize f a (v₁.state source) = r at later
          cases later with
          | done shallow' names' pending' =>
              refine .done (fun either => either.elim shallow shallow') (advanced.trans names')
                fun n outside => (pending' n outside).trans (pending n (by omega))
          | tooDeep deep => exact .tooDeep (.inr deep)
          | exhausted none => exact .exhausted (advanced.trans none)

end Ends

/-- An action that succeeds, and what follows it. -/
theorem bind_of_ok {σ : Type} {x : Action σ α} {f : α → Action σ β} {s s' : σ} {a : α}
    (h : x s = .ok a s') : (x >>= f) s = f a s' := by
  change EStateM.bind x f s = _
  unfold EStateM.bind
  rw [h]

theorem lift_bind_of_ok {x : Action State α} {f : α → Action State β} {s s' : State} {a : α}
    (h : x s = .ok a s') : (liftM x >>= f) s = f a s' :=
  bind_of_ok h

/-- An insertion between two characters succeeds. -/
theorem insert_state (v : View) (text : String)
    (hoffset : Text.isBoundary offset source.toList = true) :
    Lowering.insert offset text (v.state source) =
      .ok () ({ v with marks := v.marks.insert offset text }.state source) := by
  have inserted : ∃ draft, (v.state source).draft.insert offset text = .ok draft := by
    change ∃ draft, (v.marks.draft source).insert offset text = .ok draft
    unfold Draft.insert
    rw [Marks.offsetError?_eq_none_iff.2 hoffset]
    by_cases empty : text = ""
    · exact ⟨_, if_pos empty⟩
    · exact ⟨_, if_neg empty⟩
  obtain ⟨draft, inserted⟩ := inserted
  have ran : Lowering.insert offset text (v.state source) =
      .ok () { v.state source with draft := draft } := by
    refine (bind_of_ok (x := get) (s := v.state source) rfl).trans ?_
    simp only [inserted]
    rfl
  rw [ran, ← eq_of_insert ran]

/-- A removal from one place between two characters to a later one succeeds. -/
theorem remove_state (v : View) (hle : start ≤ stop)
    (hstart : Text.isBoundary start source.toList = true)
    (hstop : Text.isBoundary stop source.toList = true) :
    Lowering.remove start stop (v.state source) =
      .ok () ({ v with marks := v.marks.remove start stop }.state source) := by
  have removed : ∃ draft, (v.state source).draft.remove start stop = .ok draft := by
    change ∃ draft, (v.marks.draft source).remove start stop = .ok draft
    unfold Draft.remove
    rw [Marks.rangeError?_eq_none_iff.2 ⟨hle, hstart, hstop⟩]
    exact ⟨_, rfl⟩
  obtain ⟨draft, removed⟩ := removed
  have ran : Lowering.remove start stop (v.state source) =
      .ok () { v.state source with draft := draft } := by
    refine (bind_of_ok (x := get) (s := v.state source) rfl).trans ?_
    simp only [removed]
    rfl
  rw [ran, ← eq_of_remove ran]

theorem replace_state (v : View) (span : Span) (text : String) (hle : span.start ≤ span.stop)
    (hstart : Text.isBoundary span.start source.toList = true)
    (hstop : Text.isBoundary span.stop source.toList = true) :
    Lowering.replace span text (v.state source) =
      .ok () ({ v with marks := (v.marks.remove span.start span.stop).insert span.start text }.state
        source) := by
  rw [Lowering.replace, bind_of_ok (remove_state v hle hstart hstop)]
  exact insert_state _ text hstart

section Visit

variable {d : Document} {o : Options} {visit : NodeId → Action State Unit} {tokens : List Token}
variable {depth base : Nat} {signed : Bool}

/-- Visiting the expression, whose stretch begins at `base`, comes to an end, `depth` levels
    down or before. -/
def Finishes (d : Document) (visit : NodeId → Action State Unit) (depth base : Nat) (e : Expr) :
    Prop :=
  ∀ v : View, v.Awaits d.arena base (base + e.countBelow + 1) →
    Ends d.source base (base + e.countBelow + 1) v e.temporaries (depth < e.levels d.source)
      (visit (e.place base) (v.state d.source))

/-- Visiting the expressions one after the other comes to an end. -/
def FinishesAll (d : Document) (visit : NodeId → Action State Unit) (depth base : Nat)
    (es : List Expr) : Prop :=
  ∀ v : View, v.Awaits d.arena base (base + Expr.countAll es) →
    Ends d.source base (base + Expr.countAll es) v (Expr.temporariesAll es)
      (depth < Expr.levelsAll d.source es) ((Expr.places base es).forM visit (v.state d.source))

theorem FinishesAll.nil : FinishesAll d visit depth base [] :=
  fun _ _ => Ends.edited.congr rfl (iff_of_false id (Nat.not_lt_zero depth))

theorem FinishesAll.cons {e : Expr} {es : List Expr} (head : Finishes d visit depth base e)
    (tail : FinishesAll d visit depth (base + e.countBelow + 1) es) :
    FinishesAll d visit depth base (e :: es) := by
  intro v awaits
  have count : Expr.countAll (e :: es) = e.countBelow + 1 + Expr.countAll es := rfl
  have whole := Ends.bind (head v (awaits.within (Nat.le_refl _) (by omega))) (Nat.le_refl base)
    (show _ ≤ base + Expr.countAll (e :: es) by omega) fun _ v₁ _ pending =>
      (tail v₁ ((awaits.within (by omega) (by omega)).later pending (.inr (Nat.le_refl _)))).widen
        (by omega) (by omega)
  exact whole.congr rfl (by rw [Expr.levelsAll]; omega)

/-- Two parts, one after the other. -/
theorem Finishes.andThen {l r : Expr} {v : View} (left : Finishes d visit depth base l)
    (right : Finishes d visit depth (base + l.countBelow + 1) r)
    (awaits : v.Awaits d.arena base (base + l.countBelow + 1 + (r.countBelow + 1))) :
    Ends d.source base (base + l.countBelow + 1 + (r.countBelow + 1)) v
      (l.temporaries + r.temporaries) (depth < l.levels d.source ∨ depth < r.levels d.source)
      ((visit (l.place base) >>= fun _ => visit (r.place (l.place base + 1)))
        (v.state d.source)) :=
  .bind (left v (awaits.within (Nat.le_refl _) (by omega))) (Nat.le_refl _) (by omega)
    fun _ v₁ _ pending =>
      (right v₁ ((awaits.within (by omega) (by omega)).later pending
        (.inr (Nat.le_refl _)))).widen (by omega) (by omega)

theorem node_place {e : Expr} (holds : d.arena.Holds base (e.layout base)) (s : State) :
    node d (e.place base) s = .ok (e.node base) s := by
  rw [node, holds.get?_place]
  rfl

theorem extent_place {e : Expr} (holds : d.arena.Holds base (e.layout base)) (s : State) :
    extent d (e.place base) s = .ok e.extent s :=
  (bind_of_ok (node_place holds s)).trans (congrArg (EStateM.Result.ok · s) (e.extent_node base))

theorem finishes_atom {x : Extent} {a : Atom} (site : Site d.arena base signed (.atom x a))
    (nested : (Expr.atom x a).Nested d.source tokens) :
    Finishes d (lowerNode d o visit) (depth + 1) base (.atom x a) := by
  intro v _
  have proper : x.Proper d.source := nested.proper
  rw [lowerNode, lift_bind_of_ok (node_place site.holds _)]
  have low : False ↔ depth + 1 < (Expr.atom x a).levels d.source :=
    iff_of_false id (by rw [Expr.levels]; omega)
  cases a with
  | this =>
      change Ends _ _ _ _ _ _ (lowerThis d x.content (v.state d.source))
      unfold lowerThis
      by_cases sign : x.content.text d.source = "@"
      · rw [if_pos sign, replace_state v _ "this" (Nat.le_of_lt proper.nonempty)
          proper.contentStart proper.contentStop]
        exact Ends.edited.congr rfl low
      · rw [if_neg sign]
        exact Ends.edited.congr rfl low
  | _ => exact Ends.edited.congr rfl low

theorem finishes_array {x : Extent} {es : List Expr}
    (site : Site d.arena base signed (.array x es))
    (elements : FinishesAll d visit depth base es) :
    Finishes d (lowerNode d o visit) (depth + 1) base (.array x es) := by
  intro v awaits
  have count : (Expr.array x es).countBelow = Expr.countAll es := rfl
  rw [lowerNode, lift_bind_of_ok (node_place site.holds _)]
  exact ((elements v (awaits.within (Nat.le_refl _) (by omega))).widen (Nat.le_refl _)
    (by omega)).congr rfl (by rw [Expr.levels]; omega)

theorem finishes_call {x : Extent} {f : Expr} {es : List Expr}
    (site : Site d.arena base signed (.call x f es)) (callee : Finishes d visit depth base f)
    (arguments : FinishesAll d visit depth (base + f.countBelow + 1) es) :
    Finishes d (lowerNode d o visit) (depth + 1) base (.call x f es) := by
  intro v awaits
  have count : (Expr.call x f es).countBelow = f.countBelow + 1 + Expr.countAll es := rfl
  rw [lowerNode, lift_bind_of_ok (node_place site.holds _)]
  have whole := (callee v (awaits.within (Nat.le_refl _) (by omega))).bind (Nat.le_refl base)
    (show _ ≤ base + (Expr.call x f es).countBelow + 1 by omega) fun _ v₁ _ pending =>
      (arguments v₁ ((awaits.within (by omega) (by omega)).later pending
        (.inr (Nat.le_refl _)))).widen (by omega) (by omega)
  exact whole.congr rfl (by rw [Expr.levels]; omega)

theorem finishes_member {x : Extent} {e : Expr} {name : Span}
    (site : Site d.arena base signed (.member x e name))
    (nested : (Expr.member x e name).Nested d.source tokens)
    (object : Finishes d visit depth base e) :
    Finishes d (lowerNode d o visit) (depth + 1) base (.member x e name) := by
  intro v awaits
  have count : (Expr.member x e name).countBelow = e.countBelow + 1 := rfl
  have inner : e.Nested d.source tokens := by cases nested; assumption
  rw [lowerNode, lift_bind_of_ok (node_place site.holds _)]
  change Ends _ _ _ _ _ _ (lowerMember d visit (e.place base) name (v.state d.source))
  rw [lowerMember, lift_bind_of_ok (node_place site.member.holds _)]
  simp only [isShorthand_iff, Expr.levels]
  by_cases shorthand : e.isShorthand d.source name = true
  · rw [if_pos shorthand, if_pos shorthand, e.extent_node base, liftM, monadLift_self,
      replace_state v _ "this." (Nat.le_of_lt inner.proper.nonempty) inner.proper.contentStart
        inner.proper.contentStop]
    obtain ⟨y, rfl, -⟩ := Expr.exists_of_isShorthand shorthand
    exact Ends.edited.congr rfl (iff_of_false id (by omega))
  · rw [if_neg shorthand, if_neg shorthand]
    exact ((object v (awaits.within (Nat.le_refl _) (by omega))).widen (Nat.le_refl _)
      (by omega)).congr rfl (by omega)

/-- A node that only visits its two parts. -/
theorem finishes_index {x : Extent} {e k : Expr} (site : Site d.arena base signed (.index x e k))
    (object : Finishes d visit depth base e)
    (key : Finishes d visit depth (base + e.countBelow + 1) k) :
    Finishes d (lowerNode d o visit) (depth + 1) base (.index x e k) := by
  intro v awaits
  have count : (Expr.index x e k).countBelow = e.countBelow + 1 + (k.countBelow + 1) := rfl
  rw [lowerNode, lift_bind_of_ok (node_place site.holds _)]
  have whole := object.andThen key (awaits.within (Nat.le_refl _) (by omega))
  exact (whole.widen (Nat.le_refl _) (by omega)).congr rfl (by rw [Expr.levels]; omega)

theorem finishes_assign {x : Extent} {t e : Expr}
    (site : Site d.arena base signed (.assign x t e)) (target : Finishes d visit depth base t)
    (value : Finishes d visit depth (base + t.countBelow + 1) e) :
    Finishes d (lowerNode d o visit) (depth + 1) base (.assign x t e) := by
  intro v awaits
  have count : (Expr.assign x t e).countBelow = t.countBelow + 1 + (e.countBelow + 1) := rfl
  rw [lowerNode, lift_bind_of_ok (node_place site.holds _)]
  have whole := target.andThen value (awaits.within (Nat.le_refl _) (by omega))
  exact (whole.widen (Nat.le_refl _) (by omega)).congr rfl (by rw [Expr.levels]; omega)

theorem finishes_not {x : Extent} {sign : Span} {e : Expr}
    (site : Site d.arena base signed (.not x sign e))
    (nested : (Expr.not x sign e).Nested d.source tokens)
    (operand : Finishes d visit depth base e) :
    Finishes d (lowerNode d o visit) (depth + 1) base (.not x sign e) := by
  intro v awaits
  have count : (Expr.not x sign e).countBelow = e.countBelow + 1 := rfl
  rw [lowerNode, lift_bind_of_ok (node_place site.holds _)]
  change Ends _ _ _ _ _ _ (lowerNot d visit sign (e.place base) (v.state d.source))
  rw [lowerNot, lift_bind_of_ok (extent_place site.not.holds _)]
  cases nested with
  | not proper starts nonempty apart nestedOperand stops =>
      have signStart := starts ▸ proper.contentStart
      have operandStart := nestedOperand.proper.outerStart
      have hle : sign.start ≤ e.extent.outer.start :=
        Nat.le_trans (Nat.le_of_lt nonempty) apart
      have rest : ∀ marks, Ends d.source base (base + (Expr.not x sign e).countBelow + 1) v
          (Expr.not x sign e).temporaries (depth + 1 < (Expr.not x sign e).levels d.source)
          (visit (e.place base) ({ v with marks := marks }.state d.source)) := fun marks =>
        (operand { v with marks := marks } (awaits.within (Nat.le_refl _) (by omega))).of_marks
          |>.widen (Nat.le_refl _) (by omega) |>.congr rfl (by rw [Expr.levels]; omega)
      by_cases test : d.arena.isMembership (e.place base) = true
      · rw [if_pos test, lift_bind_of_ok (remove_state v hle signStart operandStart)]
        exact rest _
      · rw [if_neg test]
        by_cases written : sign.text d.source = "!"
        · rw [if_neg (by simpa using written)]
          exact rest v.marks
        · rw [if_pos written, lift_bind_of_ok (replace_state v ⟨sign.start, e.extent.outer.start⟩
            "!" hle signStart operandStart)]
          exact rest _

theorem finishes_binary {x : Extent} {l r : Expr} {op : BinaryOperator}
    (site : Site d.arena base signed (.binary x l op r))
    (nested : (Expr.binary x l op r).Nested d.source tokens) (tokenized : d.Tokenized tokens)
    (left : Finishes d visit depth base l)
    (right : Finishes d visit depth (base + l.countBelow + 1) r) :
    Finishes d (lowerNode d o visit) (depth + 1) base (.binary x l op r) := by
  intro v awaits
  have count : (Expr.binary x l op r).countBelow = l.countBelow + 1 + (r.countBelow + 1) := rfl
  rw [lowerNode, lift_bind_of_ok (node_place site.holds _)]
  change Ends _ _ _ _ _ _ (lowerBinary d visit _ (l.place base) op
    (r.place (l.place base + 1)) (v.state d.source))
  cases nested with
  | @binary _ _ _ _ t proper nestedLeft nestedRight joins isOperator spelt =>
      have isToken := joins.bounds.1
      rw [lowerBinary_of_token
        (operatorToken?_place site tokenized nestedLeft nestedRight joins isOperator)]
      have behind : ∀ v₁ : View, (∀ n : Nat, n < base ∨ base + l.countBelow + 1 ≤ n →
          v₁.rule? n = v.rule? n) →
          Ends d.source base (base + (Expr.binary x l op r).countBelow + 1) v₁ r.temporaries
            (depth < r.levels d.source) ((do
              if t.text d.source ≠ op.javaScript then replace t.span op.javaScript
              visit (r.place (l.place base + 1))) (v₁.state d.source)) := by
        intro v₁ pending
        have rest := fun marks => right { v₁ with marks := marks }
          ((awaits.within (by omega) (by omega)).later pending (.inr (Nat.le_refl _)))
        by_cases spelling : t.text d.source = op.javaScript
        · rw [if_neg (by simpa using spelling)]
          exact (rest v₁.marks).widen (by omega) (by omega)
        · rw [if_pos spelling, bind_of_ok (replace_state v₁ t.span op.javaScript
            (Nat.le_of_lt (tokenized.stream.start_lt_stop isToken))
            (tokenized.stream.isBoundary_start isToken)
            (tokenized.stream.isBoundary_stop isToken))]
          exact (rest _).of_marks.widen (by omega) (by omega)
      have whole := (left v (awaits.within (Nat.le_refl _) (by omega))).bind (Nat.le_refl base)
        (show _ ≤ base + (Expr.binary x l op r).countBelow + 1 by omega)
        fun _ v₁ _ pending => behind v₁ pending
      exact whole.congr rfl (by rw [Expr.levels]; omega)

end Visit

end Lowering

end MembershipLowering
