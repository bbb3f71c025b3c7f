import MembershipLowering.Proofs.Arena.Rooted
import MembershipLowering.Proofs.Lowering.Ending
import MembershipLowering.Proofs.Lowering.Refinement

/-! # The outcome of a lowering

Membership tests come to an end like all other nodes: the rule of a test waits until the test
is reached, which happens once, and a test that is made on a stored operand needs one more
name than its operands do. From there the endings make an induction over the tree, and the
run as a whole ends in one of the three ways (`ends_run`).
-/

namespace MembershipLowering

namespace Lowering

variable {d : Document} {o : Options} {visit : NodeId → Action State Unit} {tokens : List Token}
variable {depth base : Nat} {signed : Bool} {v : View} {source : String}
variable {first next count : Nat} {tall : Prop} {α β : Type}

/-- A name is handed out first. -/
theorem Ends.of_claim {marks : Marks} {supply : NameSupply} {name : String}
    {r : EStateM.Result Failure State α}
    (claimed : v.names.claim? Rule.needle = some (name, supply))
    (h : Ends source first next ⟨marks, supply, v.pending⟩ count tall r) :
    Ends source first next v (1 + count) tall r := by
  have advanced : v.names.advance? Rule.needle (1 + count) =
      supply.advance? Rule.needle count := by
    rw [Nat.add_comm, NameSupply.advance?, claimed]
    rfl
  cases h with
  | done shallow names pending => exact .done shallow (advanced.trans names) pending
  | tooDeep deep => exact .tooDeep deep
  | exhausted none => exact .exhausted (advanced.trans none)

/-- A rule is used up first. -/
theorem Ends.of_drop {n : Nat} {r : EStateM.Result Failure State α} (hfirst : first ≤ n)
    (hnext : n < next) (h : Ends source first next (v.drop n) count tall r) :
    Ends source first next v count tall r := by
  cases h with
  | done shallow names pending =>
      exact .done shallow names fun m outside =>
        (pending m outside).trans (v.rule?_drop (show m ≠ n by omega))
  | tooDeep deep => exact .tooDeep deep
  | exhausted none => exact .exhausted none

/-- A text that is inserted only if `c` holds. -/
theorem insertIf_state {offset : Nat} (v : View) (c : Bool) (text : String)
    (f : Unit → Action State β) (hoffset : Text.isBoundary offset source.toList = true) :
    ∃ marks, (if c = true then Lowering.insert offset text >>= f else f ()) (v.state source) =
      f () ({ v with marks := marks }.state source) := by
  cases c with
  | false => exact ⟨v.marks, rfl⟩
  | true => exact ⟨_, bind_of_ok (insert_state v text hoffset)⟩

namespace Ends

/-- An action that succeeds and changes nothing comes first. -/
theorem after {x : Action State α} {f : α → Action State β} {a : α} {s s' : State}
    (ran : x s = .ok a s') (h : Ends source first next v count tall (f a s')) :
    Ends source first next v count tall ((x >>= f) s) := by
  rw [bind_of_ok ran]
  exact h

/-- An edit comes first. -/
theorem afterEdit {x : Action State Unit} {f : Unit → Action State β} {marks : Marks}
    (ran : x (v.state source) = .ok () ({ v with marks := marks }.state source))
    (h : Ends source first next { v with marks := marks } count tall
      (f () ({ v with marks := marks }.state source))) :
    Ends source first next v count tall ((x >>= f) (v.state source)) :=
  .after ran h.of_marks

/-- A text is inserted first, but only if `c` holds. -/
theorem afterInsertIf {offset : Nat} {c : Bool} {text : String} {f : Unit → Action State β}
    (hoffset : Text.isBoundary offset source.toList = true)
    (h : ∀ marks, Ends source first next { v with marks := marks } count tall
      (f () ({ v with marks := marks }.state source))) :
    Ends source first next v count tall
      ((if c = true then Lowering.insert offset text >>= f else f ()) (v.state source)) := by
  obtain ⟨marks, ran⟩ := insertIf_state v c text f hoffset
  rw [ran]
  exact (h marks).of_marks

/-- All that comes last are edits. -/
theorem andEdits {x : Action State α} {f : α → Action State β}
    (h : Ends source first next v count tall (x (v.state source)))
    (edits : ∀ a (v₁ : View), ∃ b marks,
      f a (v₁.state source) = .ok b ({ v₁ with marks := marks }.state source)) :
    Ends source first next v count tall ((x >>= f) (v.state source)) := by
  refine (h.bind (Nat.le_refl _) (Nat.le_refl _) fun a v₁ _ _ => ?_).congr (Nat.add_zero count)
    (or_iff_left id)
  obtain ⟨b, marks, ran⟩ := edits a v₁
  rw [ran]
  exact .edited

end Ends

/-- Reading back the text of an expression that is visited. -/
theorem Finishes.code {e : Expr} (h : Finishes d visit depth base e)
    (nested : e.Nested d.source tokens) (holds : d.arena.Holds base (e.layout base))
    (awaits : v.Awaits d.arena base (base + e.countBelow + 1)) :
    Ends d.source base (base + e.countBelow + 1) v e.temporaries (depth < e.levels d.source)
      (Lowering.code d visit (e.place base) (v.state d.source)) := by
  refine (h v awaits).andEdits fun _ v₁ => ?_
  let text := (v₁.state d.source).draft.textBetween e.extent.outer.start e.extent.outer.stop
  have legal : (v₁.marks.draft d.source).rangeError? e.extent.outer.start e.extent.outer.stop =
      none :=
    Marks.rangeError?_eq_none_iff.2 ⟨Nat.le_of_lt nested.start_lt_stop, nested.proper.outerStart,
      nested.proper.outerStop⟩
  have read : (v₁.state d.source).draft.slice e.extent.outer.start e.extent.outer.stop =
      .ok text := by
    unfold Draft.slice
    rw [show (v₁.state d.source).draft = v₁.marks.draft d.source from rfl, legal]
    rfl
  refine ⟨text, v₁.marks, ?_⟩
  rw [lift_bind_of_ok (extent_place holds _), lift_bind_of_ok (x := current) rfl]
  simp only [read]
  rfl

/-- Storing the value of an expression in a temporary. -/
theorem Finishes.name {e : Expr} (h : Finishes d visit depth base e)
    (nested : e.Nested d.source tokens) (holds : d.arena.Holds base (e.layout base))
    (awaits : v.Awaits d.arena base (base + e.countBelow + 1)) :
    Ends d.source base (base + e.countBelow + 1) v (1 + e.temporaries)
      (depth < e.levels d.source)
      (Lowering.name d visit (e.place base) Rule.needle true (v.state d.source)) := by
  cases claimed : v.names.claim? Rule.needle with
  | none =>
      rw [Lowering.name, if_neg (by simp), lift_bind_of_ok (x := current) rfl]
      simp only [show (v.state d.source).names.claim? Rule.needle = none from claimed]
      refine .exhausted ?_
      rw [Nat.add_comm, NameSupply.advance?, claimed]
      rfl
  | some fresh =>
      obtain ⟨name, supply⟩ := fresh
      let w : View := ⟨v.marks.insert e.extent.content.start (name ++ " = "), supply, v.pending⟩
      have whole := (h w awaits).andEdits (f := fun _ => (return name : Action State String))
        fun _ v₁ => ⟨name, v₁.marks, rfl⟩
      rw [Lowering.name, if_neg (by simp), lift_bind_of_ok (x := current) rfl]
      simp only [show (v.state d.source).names.claim? Rule.needle = some (name, supply) from
        claimed]
      exact Ends.of_claim claimed (.after (x := modify _) rfl (.after (extent_place holds _)
        (.afterEdit (insert_state ⟨v.marks, supply, v.pending⟩ _ nested.proper.contentStart)
          whole)))

section Operands

variable {x : Extent} {l r : Expr} {sign negated : Bool}

/-- A test on pure operands. -/
theorem Finishes.moving (o : Options) (negate : Bool)
    (site : Site d.arena base sign (.membership x l r negated))
    (nestedLeft : l.Nested d.source tokens) (nestedRight : r.Nested d.source tokens)
    (apart : l.outer.stop < r.outer.start) (left : Finishes d visit depth base l)
    (right : Finishes d visit depth (base + l.countBelow + 1) r)
    (awaits : v.Awaits d.arena base (base + l.countBelow + 1 + (r.countBelow + 1))) :
    Ends d.source base (base + l.countBelow + 1 + (r.countBelow + 1)) v
      (r.temporaries + l.temporaries) (depth < r.levels d.source ∨ depth < l.levels d.source)
      ((Rule.mk ((Expr.membership x l r negated).place base) (l.place base)
        (r.place (l.place base + 1)) negate).lowerMoving (host d o visit)
          (v.state d.source)) := by
  have holdsLeft := site.membership.1.holds
  have holdsRight := site.membership.2.holds
  have leftStart := nestedLeft.proper.outerStart
  have leftStop := nestedLeft.proper.outerStop
  have rightStop := nestedRight.proper.outerStop
  have nonempty := nestedRight.start_lt_stop
  refine .after (extent_place holdsLeft _) (.after (extent_place holdsRight _)
    (.after (x := Rule.adaptation _ _) rfl ?_))
  refine (right.code nestedRight holdsRight (awaits.within (by omega) (Nat.le_refl _))).bind
    (by omega) (Nat.le_refl _) fun code v₁ _ pending => ?_
  have still : v.Awaits d.arena base (base + l.countBelow + 1) :=
    awaits.within (Nat.le_refl _) (by omega)
  have visited : ∀ marks, Ends d.source base (base + l.countBelow + 1 + (r.countBelow + 1))
      ⟨marks, v₁.names, v₁.pending⟩ l.temporaries (depth < l.levels d.source)
      (visit (l.place base) (View.state d.source ⟨marks, v₁.names, v₁.pending⟩)) := fun marks =>
    (left ⟨marks, v₁.names, v₁.pending⟩ (still.later pending (.inl (Nat.le_refl _)))).widen
      (Nat.le_refl _) (by omega)
  refine .afterEdit (remove_state v₁ (show l.outer.stop ≤ r.outer.stop by omega) leftStop
    rightStop) (.afterInsertIf leftStart fun marks => .afterEdit (insert_state _ _ leftStart) ?_)
  exact .andEdits (visited _) fun _ v₂ => ⟨(), _, insert_state v₂ ")" leftStop⟩

/-- A test on a stored operand. -/
theorem Finishes.storing (o : Options) (negate : Bool)
    (site : Site d.arena base sign (.membership x l r negated))
    (nestedLeft : l.Nested d.source tokens) (nestedRight : r.Nested d.source tokens)
    (starts : x.content.start = l.outer.start) (apart : l.outer.stop < r.outer.start)
    (left : Finishes d visit depth base l)
    (right : Finishes d visit depth (base + l.countBelow + 1) r)
    (awaits : v.Awaits d.arena base (base + l.countBelow + 1 + (r.countBelow + 1))) :
    Ends d.source base (base + l.countBelow + 1 + (r.countBelow + 1)) v
      (1 + l.temporaries + r.temporaries)
      (depth < l.levels d.source ∨ depth < r.levels d.source)
      ((Rule.mk ((Expr.membership x l r negated).place base) (l.place base)
        (r.place (l.place base + 1)) negate).lowerStoring (host d o visit)
          (v.state d.source)) := by
  have holdsLeft := site.membership.1.holds
  have holdsRight := site.membership.2.holds
  have leftStart := nestedLeft.proper.outerStart
  have leftStop := nestedLeft.proper.outerStop
  have rightStart := nestedRight.proper.outerStart
  have rightStop := nestedRight.proper.outerStop
  have contentStart : Text.isBoundary x.content.start d.source.toList = true := starts ▸ leftStart
  refine .after (extent_place site.holds _) (.after (extent_place holdsLeft _)
    (.after (extent_place holdsRight _) (.after (x := Rule.adaptation _ _) rfl
      (.afterEdit (insert_state v "(" contentStart) ?_))))
  have stored : Ends d.source base (base + l.countBelow + 1)
      ⟨v.marks.insert x.content.start "(", v.names, v.pending⟩ (1 + l.temporaries)
      (depth < l.levels d.source) (Lowering.name d visit (l.place base) Rule.needle true
        (View.state d.source ⟨v.marks.insert x.content.start "(", v.names, v.pending⟩)) :=
    left.name nestedLeft holdsLeft (awaits.within (Nat.le_refl _) (by omega))
  have still : v.Awaits d.arena (base + l.countBelow + 1)
      (base + l.countBelow + 1 + r.countBelow + 1) :=
    awaits.within (by omega) (by omega)
  refine Ends.bind (x := (host d o visit).lowerToName (l.place base) Rule.needle true) stored
    (Nat.le_refl _) (by omega) fun name v₁ _ pending => ?_
  have visited : ∀ marks, Ends d.source base (base + l.countBelow + 1 + (r.countBelow + 1))
      ⟨marks, v₁.names, v₁.pending⟩ r.temporaries (depth < r.levels d.source)
      (visit (r.place (l.place base + 1))
        (View.state d.source ⟨marks, v₁.names, v₁.pending⟩)) := fun marks =>
    (right ⟨marks, v₁.names, v₁.pending⟩ (still.later pending (.inr (Nat.le_refl _)))).widen
      (by omega) (by omega)
  refine .afterEdit (insert_state v₁ ", " leftStop) (.afterEdit (remove_state _ (Nat.le_of_lt apart)
    leftStop rightStart) (.afterInsertIf rightStart fun marks => .afterInsertIf rightStart
      fun marks' => .afterInsertIf rightStart fun marks'' => ?_))
  refine .andEdits (visited _) fun _ v₂ => ?_
  obtain ⟨marks, ran⟩ := insertIf_state v₂ _ ")" (fun _ =>
    Lowering.insert r.outer.stop (".includes(" ++ name ++ "))")) rightStop
  exact ⟨(), _, ran.trans (insert_state _ _ rightStop)⟩

/-- The rule of a test waits, and is used up. -/
theorem finishes_membership (site : Site d.arena base sign (.membership x l r negated))
    (nested : (Expr.membership x l r negated).Nested d.source tokens)
    (left : Finishes d visit depth base l)
    (right : Finishes d visit depth (base + l.countBelow + 1) r) :
    Finishes d (lowerNode d o visit) (depth + 1) base (.membership x l r negated) := by
  intro v awaits
  have count : (Expr.membership x l r negated).countBelow =
      l.countBelow + 1 + (r.countBelow + 1) := rfl
  cases nested with
  | membership proper nestedLeft nestedRight joins isRelation =>
      have bounds := joins.bounds
      obtain ⟨n, own, place⟩ : ∃ n : Nat, (Expr.membership x l r negated).place base = n ∧
          n = base + (l.countBelow + 1 + (r.countBelow + 1)) := ⟨_, rfl, rfl⟩
      have rule : (v.state d.source).rule? n =
          some ⟨n, l.place base, r.place (l.place base + 1), negated ^^ sign⟩ :=
        (awaits n (by omega) (by omega)).trans (own ▸ site.rules_find?)
      have parts : (v.drop n).Awaits d.arena base
          (base + l.countBelow + 1 + (r.countBelow + 1)) := fun m lower upper =>
        (v.rule?_drop (show m ≠ n by omega)).trans (awaits m lower (by omega))
      refine .after (node_place site.holds _) ?_
      rw [own]
      change Ends _ _ _ _ _ _ (lowerMembership d o visit n (v.state d.source))
      rw [lowerMembership, lift_bind_of_ok (x := current) rfl]
      simp only [rule]
      refine .after (x := modify _) rfl ?_
      refine .of_drop (show base ≤ n by omega) (show n < base + _ + 1 by omega) ?_
      change Ends _ _ _ (v.drop n) _ _ (Rule.lower _ (host d o visit) ((v.drop n).state d.source))
      unfold Rule.lower
      rw [show (host d o visit).isPure (l.place base) = l.isPure from
          site.membership.1.holds.isPure,
        show (host d o visit).isPure (r.place (l.place base + 1)) = r.isPure from
          site.membership.2.holds.isPure]
      simp only [Expr.temporaries, Expr.levels]
      by_cases pure : (l.isPure && r.isPure) = true
      · rw [if_pos pure, if_pos pure]
        have whole := Finishes.moving o (negated ^^ sign) site nestedLeft nestedRight (by omega)
          left right parts
        rw [own] at whole
        refine (whole.widen (Nat.le_refl _) ?_).congr ?_ ?_
        all_goals omega
      · rw [if_neg pure, if_neg pure]
        have whole := Finishes.storing o (negated ^^ sign) site nestedLeft nestedRight
          joins.starts (by omega) left right parts
        rw [own] at whole
        refine (whole.widen (Nat.le_refl _) ?_).congr rfl ?_
        all_goals omega

end Operands

mutual

/-- Lowering an expression comes to an end, whatever has been done before. -/
theorem finishes_lower (tokenized : d.Tokenized tokens) {depth base : Nat} {signed : Bool}
    {e : Expr} (site : Site d.arena base signed e) (nested : e.Nested d.source tokens) :
    Finishes d (lower d o depth) depth base e := by
  cases depth with
  | zero => exact fun v _ => .tooDeep (e.levels_pos d.source)
  | succ depth =>
      cases e with
      | atom x a => exact finishes_atom site nested
      | array x es =>
          have elements := nested.elements
          exact finishes_array site (finishesAll_lower tokenized site.array elements)
      | call x f es =>
          cases nested with
          | call _ callee _ _ arguments =>
              exact finishes_call site (finishes_lower tokenized site.call.1 callee)
                (finishesAll_lower tokenized site.call.2 arguments)
      | member x e name =>
          have inner : e.Nested d.source tokens := by cases nested; assumption
          exact finishes_member site nested (finishes_lower tokenized site.member inner)
      | index x e k =>
          have inner : e.Nested d.source tokens ∧ k.Nested d.source tokens := by
            cases nested; exact ⟨‹_›, ‹_›⟩
          exact finishes_index site (finishes_lower tokenized site.index.1 inner.1)
            (finishes_lower tokenized site.index.2 inner.2)
      | not x sign e =>
          have inner : e.Nested d.source tokens := by cases nested; assumption
          exact finishes_not site nested (finishes_lower tokenized site.not inner)
      | binary x l op r =>
          have inner : l.Nested d.source tokens ∧ r.Nested d.source tokens := by
            cases nested; exact ⟨‹_›, ‹_›⟩
          exact finishes_binary site nested tokenized
            (finishes_lower tokenized site.binary.1 inner.1)
            (finishes_lower tokenized site.binary.2 inner.2)
      | membership x l r negated =>
          have inner : l.Nested d.source tokens ∧ r.Nested d.source tokens := by
            cases nested; exact ⟨‹_›, ‹_›⟩
          exact finishes_membership site nested
            (finishes_lower tokenized site.membership.1 inner.1)
            (finishes_lower tokenized site.membership.2 inner.2)
      | assign x t e =>
          have inner : t.Nested d.source tokens ∧ e.Nested d.source tokens := by
            cases nested; exact ⟨‹_›, ‹_›⟩
          exact finishes_assign site (finishes_lower tokenized site.assign.1 inner.1)
            (finishes_lower tokenized site.assign.2 inner.2)

theorem finishesAll_lower (tokenized : d.Tokenized tokens) {depth base start stop : Nat}
    {es : List Expr} (site : SiteAll d.arena base es)
    (nested : Expr.NestedAll d.source tokens start stop es) :
    FinishesAll d (lower d o depth) depth base es := by
  cases es with
  | nil => exact .nil
  | cons e es =>
      cases nested with
      | cons head starts stops tail =>
          exact .cons (finishes_lower tokenized site.cons.1 head)
            (finishesAll_lower tokenized site.cons.2 tail)

end

/-- A statement is lowered and closed. -/
theorem Finishes.statement {e : Expr} (h : Finishes d visit depth base e)
    (nested : e.Nested d.source tokens) (holds : d.arena.Holds base (e.layout base)) :
    Finishes d (lowerStatement d visit) depth base e := by
  intro v awaits
  have plain : (v.state d.source).needsParens (e.place base) = false := by
    cases found : (v.state d.source).rule? (e.place base) <;>
      simp [State.needsParens, found, Rule.needsParens]
  refine .after (extent_place holds _) (.after (x := get) rfl ?_)
  rw [plain, if_neg (by simp)]
  refine .andEdits (h v awaits) fun _ v₁ => ?_
  by_cases closed : d.isTerminatedAt e.extent.outer.stop = true
  · rw [closed, if_neg (by simp)]
    exact ⟨(), v₁.marks, rfl⟩
  · rw [if_pos (by simpa using closed)]
    exact ⟨(), _, insert_state v₁ ";" nested.proper.outerStop⟩

theorem finishesAll_statements (tokenized : d.Tokenized tokens) {depth base start stop : Nat}
    {es : List Expr} (site : SiteAll d.arena base es)
    (nested : Expr.NestedAll d.source tokens start stop es) :
    FinishesAll d (lowerStatement d (lower d o depth)) depth base es := by
  induction es generalizing base start with
  | nil => exact .nil
  | cons e es ih =>
      cases nested with
      | cons head starts stops tail =>
          exact .cons ((finishes_lower tokenized site.cons.1 head).statement head
            site.cons.1.holds) (ih site.cons.2 tail)

/-- The view before a document is lowered. -/
def View.initial (d : Document) : View :=
  ⟨.clean, .avoiding d.identifiers, d.arena.rules⟩

theorem View.state_initial (d : Document) : (View.initial d).state d.source = .initial d := by
  rw [View.state, State.initial]
  congr 1
  exact Marks.clean_draft d.source

/-- How lowering the statements of a source ends. -/
theorem ends_run (o : Options) {tokens : List Token} {es : List Expr}
    (read : Token.readAll source = .ok tokens)
    (parsed : Parser.statements source tokens = .ok es) :
    Ends source 0 (Expr.countAll es) (View.initial (.ofStatements source tokens es))
      (Expr.temporariesAll es) (maxDepth < Expr.levelsAll source es)
      (run (.ofStatements source tokens es) o (.initial (.ofStatements source tokens es))) := by
  let d := Document.ofStatements source tokens es
  have finishes : FinishesAll d (lowerStatement d (lower d o maxDepth)) maxDepth 0 es :=
    finishesAll_statements (tokenized_ofStatements read es)
      (Document.siteAll_ofStatements source tokens es) (Parser.nested_of_statements read parsed)
  have visited := finishes (View.initial d) fun _ _ _ => rfl
  rw [← View.state_initial]
  refine .andEdits ?_ fun _ v₁ => ⟨_, v₁.marks, rfl⟩
  rw [statements?_ofStatements]
  rw [Nat.zero_add] at visited
  exact visited

end Lowering

/-- How lowering a source text ends once it has been read, `count` names being needed:
    with the names handed out, or too deep, or for want of a name. -/
inductive Document.Ends (d : Document) (count : Nat) (tall : Prop) : Except Failure Output → Prop
    where
  | done {out : Output} {supply : NameSupply} (shallow : ¬tall)
      (names : (NameSupply.avoiding d.identifiers).advance? Rule.needle count = some supply)
      (bindings : supply.claimed = out.bindings) : d.Ends count tall (.ok out)
  | tooDeep {n : NodeId} (deep : tall) : d.Ends count tall (.error (.tooDeep n))
  | exhausted
      (none : (NameSupply.avoiding d.identifiers).advance? Rule.needle count = none) :
      d.Ends count tall (.error (.namesExhausted Rule.needle))

/-- How a source that can be read is lowered. -/
theorem Document.ends_lower {source : String} (o : Options) {tokens : List Token}
    {es : List Expr} (read : Token.readAll source = .ok tokens)
    (parsed : Parser.statements source tokens = .ok es) :
    (Document.ofStatements source tokens es).Ends (Expr.temporariesAll es)
      (maxDepth < Expr.levelsAll source es) ((Document.ofStatements source tokens es).lower o) := by
  have ends := Lowering.ends_run o read parsed
  unfold Document.lower EStateM.run
  cases ran : Lowering.run (Document.ofStatements source tokens es) o
      (.initial (Document.ofStatements source tokens es)) with
  | error e s =>
      rw [ran] at ends
      cases ends with
      | tooDeep deep => exact .tooDeep deep
      | exhausted none => exact .exhausted none
  | ok out s =>
      have guarded : Expr.GuardedAll (fun _ => False) es :=
        Expr.guardedAll_of_confined (fun _ _ _ kept => kept.elim)
          (Parser.nested_of_statements read parsed) (Token.stream_of_readAll read)
          (Nat.le_refl _) (Nat.le_refl _)
      have lowered : (Document.ofStatements source tokens es).lower o = .ok out := by
        unfold Document.lower EStateM.run
        rw [ran]
      obtain ⟨v, ran', rfl, -⟩ := Lowering.exists_step_of_lower read parsed guarded lowered
      cases ran.symm.trans ran'
      rw [ran] at ends
      generalize same : v.state source = s at ends
      cases ends with
      | @done _ v' shallow names pending =>
          exact .done shallow names (congrArg (·.names.claimed) same.symm)

theorem lowerSource_of_statements {source : String} (o : Options) {tokens : List Token}
    {es : List Expr} (read : Token.readAll source = .ok tokens)
    (parsed : Parser.statements source tokens = .ok es) :
    lowerSource source o = (Document.ofStatements source tokens es).lower o := by
  unfold lowerSource Document.parse
  simp only [read, parsed, Except.map]

/-- Trees within the limit are not too deep. -/
theorem lowerSource_ne_tooDeep {source : String} (o : Options) {tokens : List Token}
    {es : List Expr} (read : Token.readAll source = .ok tokens)
    (parsed : Parser.statements source tokens = .ok es)
    (shallow : Expr.levelsAll source es ≤ maxDepth) (n : NodeId) :
    lowerSource source o ≠ .error (.tooDeep n) := by
  intro tooDeep
  have ends := Document.ends_lower o read parsed
  rw [← lowerSource_of_statements o read parsed, tooDeep] at ends
  cases ends with
  | tooDeep deep => exact absurd deep (Nat.not_lt.2 shallow)

/-- With as many free names as there are temporaries a source is lowered, and the first of these
    names are handed out. -/
theorem lowerSource_of_enough {source : String} {o : Options} {tokens : List Token}
    {es : List Expr} (read : Token.readAll source = .ok tokens)
    (parsed : Parser.statements source tokens = .ok es)
    (shallow : ∀ n, lowerSource source o ≠ .error (.tooDeep n))
    (enough : Expr.temporariesAll es ≤ ((NameSupply.candidates Rule.needle).filter
      (· ∉ (Document.ofStatements source tokens es).identifiers)).length) :
    ∃ out, lowerSource source o = .ok out ∧
      out.bindings = ((NameSupply.candidates Rule.needle).filter
        (· ∉ (Document.ofStatements source tokens es).identifiers)).take
          (Expr.temporariesAll es) ∧
      out.code.toList =
        (Printer.plain source tokens o.looseIncludes (out.bindings.getD · "")).program 0 0 es := by
  rw [← NameSupply.free_avoiding] at enough ⊢
  obtain ⟨supply, advanced, claimed⟩ := NameSupply.exists_advance? enough
  have lowered := lowerSource_of_statements o read parsed
  have ends := Document.ends_lower o read parsed
  rw [← lowered] at ends
  generalize ran : lowerSource source o = result at ends
  cases ends with
  | done _ advanced' bindings =>
      cases advanced.symm.trans advanced'
      exact ⟨_, rfl, bindings.symm.trans claimed,
        (Lowering.toList_code read parsed (lowered.symm.trans ran)).1⟩
  | tooDeep deep => exact absurd ran (shallow _)
  | exhausted none => exact absurd (advanced.symm.trans none) (by simp)

/-- A source is either refused by the reader or lowered as a document. -/
theorem lowerSource_cases (source : String) (o : Options) :
    (∃ e, lowerSource source o = .error (.parse e)) ∨
      ∃ tokens es, Token.readAll source = .ok tokens ∧
        Parser.statements source tokens = .ok es := by
  unfold lowerSource Document.parse
  cases Token.readAll source with
  | error e => exact .inl ⟨_, rfl⟩
  | ok tokens =>
      cases parsed : Parser.statements source tokens with
      | error e =>
          simp only [parsed, Except.map]
          exact .inl ⟨e, rfl⟩
      | ok es => exact .inr ⟨tokens, es, rfl, parsed⟩

/-- No source makes lowering edit outside the source or between the bytes of a character,
    follow an index to no node, or reach a membership test twice. All indices in the table of
    a source lead to nodes, also those that are only looked up. -/
theorem lowerSource_ne_internal (source : String) (o : Options) :
    (∀ e, lowerSource source o ≠ .error (.edit e)) ∧
      (∀ n, lowerSource source o ≠ .error (.missingNode n)) ∧
      (∀ n, lowerSource source o ≠ .error (.alreadyLowered n)) ∧
      ∀ d, Document.parse source = .ok d → ∀ n node, d.arena.get? n = some node →
        ∀ c ∈ node.kind.children, ∃ part, d.arena.get? c = some part := by
  have parts : ∀ d, Document.parse source = .ok d → ∀ n node, d.arena.get? n = some node →
      ∀ c ∈ node.kind.children, ∃ part, d.arena.get? c = some part := by
    intro d accepted n node found c isPart
    obtain ⟨tokens, es, read, parsed, rfl⟩ := Document.exists_of_parse accepted
    exact (Document.rooted_ofStatements read parsed).exists_child found isPart
  obtain ⟨e, refused⟩ | ⟨tokens, es, read, parsed⟩ := lowerSource_cases source o
  · rw [refused]
    refine ⟨?_, ?_, ?_, parts⟩ <;> intro _ h <;> cases h
  · have ends := Document.ends_lower o read parsed
    rw [← lowerSource_of_statements o read parsed] at ends
    generalize lowerSource source o = result at ends
    cases ends <;> refine ⟨?_, ?_, ?_, parts⟩ <;> intro _ h <;> cases h

theorem lowerSource_ne_internal_nested :
    ∃ d, Document.parse "not (f(x) in [@b])" = .ok d ∧
      (∃ node, d.arena.get? 6 = some node ∧ node.kind.children = [2, 5] ∧
        ∀ c ∈ node.kind.children, ∃ part, d.arena.get? c = some part) ∧
      ∀ n, lowerSource "not (f(x) in [@b])" .standard ≠ .error (.alreadyLowered n) := by
  obtain ⟨d, parsed, test⟩ : ∃ d, Document.parse "not (f(x) in [@b])" = .ok d ∧
      (d.arena.get? 6).map (·.kind.children) = some [2, 5] := by
    decide +kernel
  obtain ⟨node, found, children⟩ := Option.map_eq_some_iff.1 test
  obtain ⟨-, -, once, parts⟩ := lowerSource_ne_internal "not (f(x) in [@b])" .standard
  exact ⟨d, parsed, ⟨node, found, children, parts d parsed 6 node found⟩, once⟩

end MembershipLowering
