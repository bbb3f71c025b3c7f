import MembershipLowering.Lowering.Run
import MembershipLowering.Proofs.Expr.Effects
import MembershipLowering.Proofs.Lowering.Printer
import MembershipLowering.Proofs.Lowering.Site
import MembershipLowering.Proofs.Lowering.Step
import MembershipLowering.Proofs.Token.Search

/-! # Lowering prints the tree

Lowering a node writes the printed text in place of its content and touches nothing
outside (`Lowers`). There is one lemma for each kind of node, about any way of visiting
the parts that does so. Texts go from left to right everywhere but in a membership test
that moves its right operand to the front: there the text of the right operand is read
off the draft and its place is removed before the left operand is lowered.
-/

namespace MembershipLowering

/-- The printer for a document, given the names of the temporaries. -/
def Document.printer (d : Document) (o : Options) (tokens : List Token) (names : Nat → String) :
    Printer Char :=
  .plain d.source tokens o.looseIncludes names

/-- The document has the tokens of its source. -/
structure Document.Tokenized (d : Document) (tokens : List Token) : Prop where
  stream : Token.Stream d.source tokens
  same : d.tokens = tokens.toArray

namespace Lowering

/-- Visiting the expression, whose stretch begins at `base`, prints its content. -/
def Lowers (d : Document) (o : Options) (tokens : List Token) (keep : Nat → Prop)
    (visit : NodeId → Action State Unit) (base : Nat) (signed : Bool) (e : Expr) : Prop :=
  ∀ (v : View) (u : Unit) (s : State),
    Ready d.arena v base (base + e.countBelow + 1) e.extent.content.start
      e.extent.content.stop →
    visit (e.place base) (v.state d.source) = .ok u s →
    ∃ v', s = v'.state d.source ∧
      Step d.source keep base (base + e.countBelow + 1) v v' e.extent.content.start
        e.extent.content.stop e.temporaries
        fun names => (d.printer o tokens names).body v.names.claimed.length signed e

/-- Visiting the expressions one after the other prints them in the source around them. -/
def LowersAll (d : Document) (o : Options) (tokens : List Token) (keep : Nat → Prop)
    (visit : NodeId → Action State Unit) (base : Nat) (es : List Expr) : Prop :=
  ∀ (v : View) (u : Unit) (s : State) (start first stop : Nat),
    Expr.NestedAll d.source tokens first stop es → start ≤ first → start ≤ stop →
    Text.isBoundary start d.source.toList = true →
    Ready d.arena v base (base + Expr.countAll es) start stop →
    (Expr.places base es).forM visit (v.state d.source) = .ok u s →
    ∃ v', s = v'.state d.source ∧
      Step d.source keep base (base + Expr.countAll es) v v' start stop (Expr.temporariesAll es)
        fun names => (d.printer o tokens names).bodyAll v.names.claimed.length start stop es

variable {d : Document} {o : Options} {tokens : List Token} {keep : Nat → Prop}
variable {visit : NodeId → Action State Unit} {base : Nat} {signed : Bool}

/-- Together with the parentheses around it. -/
theorem Lowers.outer {e : Expr} (h : Lowers d o tokens keep visit base signed e)
    (nested : e.Nested d.source tokens) {v : View} {u : Unit} {s : State}
    (ready : Ready d.arena v base (base + e.countBelow + 1) e.outer.start e.outer.stop)
    (ran : visit (e.place base) (v.state d.source) = .ok u s) :
    ∃ v', s = v'.state d.source ∧
      Step d.source keep base (base + e.countBelow + 1) v v' e.outer.start e.outer.stop
        e.temporaries fun names => (d.printer o tokens names).around e.extent
          ((d.printer o tokens names).body v.names.claimed.length signed e) := by
  have proper := nested.proper
  obtain ⟨v', rfl, step⟩ := h v u s
    (ready.within (Nat.le_refl _) (Nat.le_refl _) proper.opens proper.closes) ran
  exact ⟨v', rfl, step.around proper ready.fresh⟩

theorem LowersAll.nil : LowersAll d o tokens keep visit base [] := by
  intro v u s start first stop _ _ hle hstart ready ran
  cases ran
  exact ⟨v, rfl, .skip ready.fresh hle hstart⟩

theorem LowersAll.cons {e : Expr} {es : List Expr}
    (head : Lowers d o tokens keep visit base false e)
    (tail : LowersAll d o tokens keep visit (base + e.countBelow + 1) es) :
    LowersAll d o tokens keep visit base (e :: es) := by
  intro v u s start first stop nested hfirst hle hstart ready ran
  cases nested with
  | cons nestedHead starts stops nestedTail =>
      have proper := nestedHead.proper
      have nonempty := nestedHead.start_lt_stop
      have count : Expr.countAll (e :: es) = e.countBelow + 1 + Expr.countAll es := rfl
      obtain ⟨u₁, s₁, ran₁, ran₂⟩ := exists_of_bind ran
      obtain ⟨v₁, rfl, step₁⟩ := head.outer nestedHead
        (ready.within (Nat.le_refl _) (by omega) (by omega) stops) ran₁
      have readyTail : Ready d.arena v₁ (base + e.countBelow + 1)
          (base + e.countBelow + 1 + Expr.countAll es) e.outer.stop stop :=
        step₁.ready (ready.within (by omega) (by omega) (by omega) (Nat.le_refl _))
          (.inr (Nat.le_refl _)) (.inr (Nat.le_refl _))
      obtain ⟨v', rfl, step₂⟩ := tail v₁ u s e.outer.stop (e.outer.stop + 1) stop nestedTail
        (Nat.le_succ _) stops proper.outerStop readyTail ran₂
      have first := (step₁.behind (ready.fresh.within (Nat.le_refl _) (by omega)) (by omega)
        hstart).widen (Nat.le_refl base) (show _ ≤ base + Expr.countAll (e :: es) by omega)
      have whole := first.trans (step₂.widen (by omega) (Nat.le_of_eq (by omega)))
      refine ⟨v', rfl, whole.congr (fun names => ?_) rfl⟩
      rw [step₁.claimed_length]
      rfl

/-- Looking up the node of an expression changes nothing. -/
theorem eq_of_node {e : Expr} (holds : d.arena.Holds base (e.layout base)) {s s' : State}
    {n : Node} (ran : node d (e.place base) s = .ok n s') : n = e.node base ∧ s' = s := by
  rw [node, holds.get?_place] at ran
  cases ran
  exact ⟨rfl, rfl⟩

theorem eq_of_extent {e : Expr} (holds : d.arena.Holds base (e.layout base)) {s s' : State}
    {x : Extent} (ran : extent d (e.place base) s = .ok x s') : x = e.extent ∧ s' = s := by
  obtain ⟨n, s₁, got, rest⟩ := exists_of_bind ran
  obtain ⟨rfl, rfl⟩ := eq_of_node holds got
  cases rest
  exact ⟨e.extent_node base, rfl⟩

theorem lowers_atom {x : Extent} {a : Atom} (site : Site d.arena base signed (.atom x a))
    (nested : (Expr.atom x a).Nested d.source tokens) (guarded : (Expr.atom x a).Guarded keep) :
    Lowers d o tokens keep (lowerNode d o visit) base signed (.atom x a) := by
  intro v u s ready ran
  have proper := nested.proper
  have hle := Nat.le_of_lt proper.nonempty
  obtain ⟨n, s₁, got, rest⟩ := exists_of_bind ran
  obtain ⟨rfl, rfl⟩ := eq_of_node site.holds got
  have copied : ∀ first next, Step d.source keep first next v v x.content.start x.content.stop 0
      fun _ => Text.excerpt x.content.start x.content.stop d.source.toList := fun _ _ =>
    .skip ready.fresh hle proper.contentStart
  cases a with
  | this =>
      change lowerThis d x.content (v.state d.source) = .ok u s at rest
      unfold lowerThis at rest
      by_cases sign : x.content.text d.source = "@"
      · rw [if_pos sign] at rest
        refine ⟨_, eq_of_replace rest, ?_⟩
        refine (Step.replace v "this" hle proper.contentStart guarded).congr (fun names => ?_) rfl
        simp only [Printer.body, Document.printer, Printer.plain, Printer.adapting, sign, if_true]
      · rw [if_neg sign] at rest
        cases rest
        refine ⟨v, rfl, (copied _ _).congr (fun names => ?_) rfl⟩
        simp only [Printer.body, Document.printer, Printer.plain, Printer.adapting, sign, if_false]
  | _ =>
      cases rest
      exact ⟨v, rfl, (copied _ _).congr (fun _ => rfl) rfl⟩

theorem lowers_array {x : Extent} {es : List Expr} (site : Site d.arena base signed (.array x es))
    (nested : (Expr.array x es).Nested d.source tokens)
    (elements : LowersAll d o tokens keep visit base es) :
    Lowers d o tokens keep (lowerNode d o visit) base signed (.array x es) := by
  intro v u s ready ran
  obtain ⟨n, s₁, got, rest⟩ := exists_of_bind ran
  obtain ⟨rfl, rfl⟩ := eq_of_node site.holds got
  cases nested with
  | array proper nestedElements =>
      have count : (Expr.array x es).countBelow = Expr.countAll es := rfl
      obtain ⟨v', rfl, step⟩ := elements v u s x.content.start (x.content.start + 1)
        x.content.stop nestedElements (Nat.le_succ _) (Nat.le_of_lt proper.nonempty)
        proper.contentStart
        (ready.within (Nat.le_refl _) (by omega) (Nat.le_refl _) (Nat.le_refl _)) rest
      exact ⟨v', rfl, (step.widen (Nat.le_refl _) (by omega)).congr (fun _ => rfl) rfl⟩

/-- A part, when all that comes before it has been dealt with. -/
theorem Lowers.after {first mid : Nat} {e : Expr} {v v₁ : View} {u : Unit} {s : State}
    {start count : Nat} {text : (Nat → String) → List Char}
    (h : Lowers d o tokens keep visit mid signed e) (nested : e.Nested d.source tokens)
    (front : Step d.source keep first mid v v₁ start e.outer.start count text)
    (hle : first ≤ mid) (ready : Ready d.arena v mid (mid + e.countBelow + 1) start e.outer.stop)
    (ran : visit (e.place mid) (v₁.state d.source) = .ok u s) :
    ∃ v', s = v'.state d.source ∧
      Step d.source keep first (mid + e.countBelow + 1) v v' start e.outer.stop
        (count + e.temporaries) fun names => text names ++
          (d.printer o tokens names).around e.extent
            ((d.printer o tokens names).body (v.names.claimed.length + count) signed e) := by
  obtain ⟨written, rewrites⟩ := front.exists_rewrites
  have readyPart : Ready d.arena v₁ mid (mid + e.countBelow + 1) e.outer.start e.outer.stop :=
    front.ready (ready.within (Nat.le_refl _) (Nat.le_refl _) rewrites.le (Nat.le_refl _))
      (.inr (Nat.le_refl _)) (.inr (Nat.le_refl _))
  obtain ⟨v', rfl, step⟩ := h.outer nested readyPart ran
  have whole := (front.widen (Nat.le_refl first) (by omega)).trans
    (step.widen hle (Nat.le_refl _))
  refine ⟨v', rfl, whole.congr (fun names => ?_) rfl⟩
  rw [front.claimed_length]

theorem lowers_call {x : Extent} {f : Expr} {es : List Expr}
    (site : Site d.arena base signed (.call x f es))
    (nested : (Expr.call x f es).Nested d.source tokens) (stream : Token.Stream d.source tokens)
    (callee : Lowers d o tokens keep visit base false f)
    (arguments : LowersAll d o tokens keep visit (base + f.countBelow + 1) es) :
    Lowers d o tokens keep (lowerNode d o visit) base signed (.call x f es) := by
  intro v u s ready ran
  obtain ⟨n, s₁, got, rest⟩ := exists_of_bind ran
  obtain ⟨rfl, rfl⟩ := eq_of_node site.holds got
  obtain ⟨u₁, s₁, ran₁, ran₂⟩ := exists_of_bind rest
  cases nested with
  | @call _ _ _ close proper nestedCallee starts apart nestedArguments closing =>
      obtain ⟨isToken, stops⟩ := Expr.mem_of_endingAt closing
      have positive := stream.start_lt_stop isToken
      have nonempty := nestedCallee.start_lt_stop
      have count : (Expr.call x f es).countBelow = f.countBelow + 1 + Expr.countAll es := rfl
      have extent : (Expr.call x f es).extent = x := rfl
      rw [extent, starts, count] at ready
      rw [extent, starts, count]
      obtain ⟨v₁, rfl, step₁⟩ := callee.outer nestedCallee
        (ready.within (Nat.le_refl _) (by omega) (Nat.le_refl _) (by omega)) ran₁
      have readyArguments : Ready d.arena v₁ (base + f.countBelow + 1)
          (base + f.countBelow + 1 + Expr.countAll es) f.outer.stop x.content.stop :=
        step₁.ready (ready.within (by omega) (by omega) (by omega) (Nat.le_refl _))
          (.inr (Nat.le_refl _)) (.inr (Nat.le_refl _))
      obtain ⟨v', rfl, step₂⟩ := arguments v₁ u s f.outer.stop (f.outer.stop + 1) x.content.stop
        (nestedArguments.widen (by omega)) (Nat.le_succ _) (by omega)
        nestedCallee.proper.outerStop readyArguments ran₂
      have whole := (step₁.widen (Nat.le_refl base)
        (show _ ≤ base + (f.countBelow + 1 + Expr.countAll es) + 1 by omega)).trans
          (step₂.widen (by omega) (by omega))
      refine ⟨v', rfl, whole.congr (fun names => ?_) rfl⟩
      rw [step₁.claimed_length]
      rfl

theorem lowers_index {x : Extent} {e k : Expr} (site : Site d.arena base signed (.index x e k))
    (nested : (Expr.index x e k).Nested d.source tokens)
    (object : Lowers d o tokens keep visit base false e)
    (key : Lowers d o tokens keep visit (base + e.countBelow + 1) false k) :
    Lowers d o tokens keep (lowerNode d o visit) base signed (.index x e k) := by
  intro v u s ready ran
  obtain ⟨n, s₁, got, rest⟩ := exists_of_bind ran
  obtain ⟨rfl, rfl⟩ := eq_of_node site.holds got
  obtain ⟨u₁, s₁, ran₁, ran₂⟩ := exists_of_bind rest
  cases nested with
  | index proper nestedObject starts apart nestedKey stops =>
      have nonempty := nestedObject.start_lt_stop
      have nonempty' := nestedKey.start_lt_stop
      have count : (Expr.index x e k).countBelow = e.countBelow + 1 + (k.countBelow + 1) := rfl
      have extent : (Expr.index x e k).extent = x := rfl
      rw [extent, starts, count] at ready
      rw [extent, starts, count]
      obtain ⟨v₁, rfl, step₁⟩ := object.outer nestedObject
        (ready.within (Nat.le_refl _) (by omega) (Nat.le_refl _) (by omega)) ran₁
      have front := step₁.before (ready.fresh.within (by omega) (by omega)) (Nat.le_of_lt apart)
        nestedObject.proper.outerStop
      obtain ⟨v', rfl, step⟩ := key.after nestedKey front (by omega)
        (ready.within (by omega) (by omega) (Nat.le_refl _) (by omega)) ran₂
      have whole := step.before (ready.fresh.within (by omega) (Nat.le_refl _))
        (Nat.le_of_lt stops) nestedKey.proper.outerStop
      exact ⟨v', rfl, (whole.widen (Nat.le_refl _) (by omega)).congr (fun _ => rfl) rfl⟩

/-- The test for a shorthand that lowering makes on the table. -/
theorem isShorthand_iff (source : String) (name : Span) (base : Nat) (e : Expr) :
    (e.node base).kind = .atom .this ∧ (e.node base).extent.content.text source = "@" ∧
        (e.node base).extent.content.stop = name.start ↔
      e.isShorthand source name = true := by
  cases e with
  | atom x a => cases a <;> simp [Expr.node, Expr.isShorthand]
  | _ => simp [Expr.node, Expr.isShorthand]

theorem lowers_member {x : Extent} {e : Expr} {name : Span}
    (site : Site d.arena base signed (.member x e name))
    (nested : (Expr.member x e name).Nested d.source tokens)
    (guarded : (Expr.member x e name).Guarded keep)
    (object : Lowers d o tokens keep visit base false e) :
    Lowers d o tokens keep (lowerNode d o visit) base signed (.member x e name) := by
  intro v u s ready ran
  obtain ⟨n, s₁, got, rest⟩ := exists_of_bind ran
  obtain ⟨rfl, rfl⟩ := eq_of_node site.holds got
  obtain ⟨part, s₂, got, rest⟩ := exists_of_bind rest
  obtain ⟨rfl, rfl⟩ := eq_of_node site.member.holds got
  cases nested with
  | member proper nestedObject starts apart nonempty nameStart stops =>
      have count : (Expr.member x e name).countBelow = e.countBelow + 1 := rfl
      have extent : (Expr.member x e name).extent = x := rfl
      rw [extent, starts, stops, count] at ready
      rw [extent, starts, stops, count]
      simp only [isShorthand_iff] at rest
      by_cases shorthand : e.isShorthand d.source name = true
      · rw [if_pos shorthand] at rest
        obtain ⟨y, rfl, sign, touches⟩ := Expr.exists_of_isShorthand shorthand
        have inner := nestedObject.proper
        have closes : y.content.stop ≤ y.outer.stop := inner.closes
        -- The name would be behind the parentheses, but it touches the sign.
        have bare : y.outer.start = y.content.start := inner.paired.2
          (show y.outer.stop = y.content.stop by
            have : y.outer.stop ≤ name.start := apart
            omega)
        have hle : y.content.start ≤ y.content.stop := Nat.le_of_lt inner.nonempty
        have written : Step d.source keep base (base + (0 + 1) + 1) v _ y.content.start
            y.content.stop 0 _ :=
          .replace v "this." hle inner.contentStart guarded
        have step := written.before
          (ready.fresh.within (show y.outer.start ≤ y.content.stop by omega) (Nat.le_refl _))
          (show y.content.stop ≤ name.stop by omega) inner.contentStop
        refine ⟨_, eq_of_replace rest, ?_⟩
        rw [Expr.outer, Expr.extent, bare]
        refine step.congr (fun names => ?_) rfl
        rw [Printer.body, if_pos (show Expr.isShorthand
          (d.printer o tokens names).source name (.atom y .this) = true from shorthand), ← touches]
        rfl
      · rw [if_neg shorthand] at rest
        obtain ⟨v', rfl, step⟩ := object.outer nestedObject
          (ready.within (Nat.le_refl _) (by omega) (Nat.le_refl _) (by omega)) rest
        have whole := step.before (ready.fresh.within (Nat.le_of_lt nestedObject.start_lt_stop)
          (Nat.le_refl _)) (by omega) nestedObject.proper.outerStop
        refine ⟨v', rfl, (whole.widen (Nat.le_refl _) (by omega)).congr (fun names => ?_) rfl⟩
        rw [Printer.body, if_neg (show ¬Expr.isShorthand
          (d.printer o tokens names).source name e = true from shorthand)]
        rfl

/-- The sign in front matters to a membership test only. -/
theorem body_of_not_isMembership {α : Type} (p : Printer α) (k : Nat) (signed : Bool) {e : Expr}
    (h : e.isMembership = false) : p.body k signed e = p.body k false e := by
  cases e with
  | atom x a => cases a <;> rfl
  | membership => cases h
  | _ => rfl

theorem lowers_not {x : Extent} {sign : Span} {e : Expr}
    (site : Site d.arena base signed (.not x sign e))
    (nested : (Expr.not x sign e).Nested d.source tokens)
    (guarded : (Expr.not x sign e).Guarded keep)
    (operand : Lowers d o tokens keep visit base true e) :
    Lowers d o tokens keep (lowerNode d o visit) base signed (.not x sign e) := by
  intro v u s ready ran
  obtain ⟨n, s₁, got, rest⟩ := exists_of_bind ran
  obtain ⟨rfl, rfl⟩ := eq_of_node site.holds got
  obtain ⟨y, s₂, got, rest⟩ := exists_of_bind rest
  obtain ⟨rfl, rfl⟩ := eq_of_extent site.not.holds got
  cases nested with
  | not proper starts nonempty apart nestedOperand stops =>
      have count : (Expr.not x sign e).countBelow = e.countBelow + 1 := rfl
      have extent : (Expr.not x sign e).extent = x := rfl
      have contentStart := proper.contentStart
      rw [extent, starts, stops, count] at ready
      rw [starts] at contentStart
      rw [extent, starts, stops, count]
      have hle : sign.start ≤ e.outer.start := by omega
      have inner := nestedOperand.start_lt_stop
      have readyOperand : Ready d.arena v base (base + e.countBelow + 1) sign.start e.outer.stop :=
        ready.within (Nat.le_refl _) (by omega) (Nat.le_refl _) (Nat.le_refl _)
      by_cases test : e.isMembership = true
      · rw [show d.arena.isMembership (e.place base) = true from
          site.not.holds.isMembership.trans test, if_pos rfl] at rest
        obtain ⟨u₁, s₁, removed, ran⟩ := exists_of_bind rest
        rw [eq_of_remove removed] at ran
        have front : Step d.source keep base base v _ sign.start e.outer.start 0 _ :=
          .remove v hle contentStart guarded.1
        obtain ⟨v', rfl, step⟩ := operand.after nestedOperand front (Nat.le_refl _) readyOperand ran
        refine ⟨v', rfl, (step.widen (Nat.le_refl _) (by omega)).congr (fun names => ?_)
          (Nat.zero_add _)⟩
        rw [Printer.body, if_pos test]
        rfl
      · rw [show d.arena.isMembership (e.place base) = false from
          site.not.holds.isMembership.trans (by simpa using test), if_neg (by simp)] at rest
        by_cases written : sign.text d.source = "!"
        · rw [if_neg (by simpa using written)] at rest
          have front : Step d.source keep base base v v sign.start e.outer.start 0 _ :=
            .skip (ready.fresh.within (Nat.le_refl _) (Nat.le_of_lt inner)) hle contentStart
          obtain ⟨v', rfl, step⟩ := operand.after nestedOperand front (Nat.le_refl _) readyOperand
            rest
          refine ⟨v', rfl, (step.widen (Nat.le_refl _) (by omega)).congr (fun names => ?_)
            (Nat.zero_add _)⟩
          rw [Printer.body, if_neg test, if_pos (show sign.text
            (d.printer o tokens names).source = "!" from written),
            body_of_not_isMembership _ _ _ (by simpa using test)]
          rfl
        · rw [if_pos written] at rest
          obtain ⟨u₁, s₁, replaced, ran⟩ := exists_of_bind rest
          rw [eq_of_replace replaced] at ran
          have front : Step d.source keep base base v _ sign.start e.outer.start 0 _ :=
            .replace v "!" hle contentStart guarded.1
          obtain ⟨v', rfl, step⟩ := operand.after nestedOperand front (Nat.le_refl _) readyOperand
            ran
          refine ⟨v', rfl, (step.widen (Nat.le_refl _) (by omega)).congr (fun names => ?_)
            (Nat.zero_add _)⟩
          rw [Printer.body, if_neg test, if_neg (show ¬sign.text
            (d.printer o tokens names).source = "!" from written),
            body_of_not_isMembership _ _ _ (by simpa using test)]
          rfl

theorem lowers_assign {x : Extent} {t e : Expr} (site : Site d.arena base signed (.assign x t e))
    (nested : (Expr.assign x t e).Nested d.source tokens)
    (target : Lowers d o tokens keep visit base false t)
    (value : Lowers d o tokens keep visit (base + t.countBelow + 1) false e) :
    Lowers d o tokens keep (lowerNode d o visit) base signed (.assign x t e) := by
  intro v u s ready ran
  obtain ⟨n, s₁, got, rest⟩ := exists_of_bind ran
  obtain ⟨rfl, rfl⟩ := eq_of_node site.holds got
  obtain ⟨u₁, s₁, ran₁, ran₂⟩ := exists_of_bind rest
  cases nested with
  | assign proper nestedTarget nestedValue joins isAssign =>
      have bounds := joins.bounds
      have nonempty := nestedTarget.start_lt_stop
      have nonempty' := nestedValue.start_lt_stop
      have count : (Expr.assign x t e).countBelow = t.countBelow + 1 + (e.countBelow + 1) := rfl
      have extent : (Expr.assign x t e).extent = x := rfl
      rw [extent, joins.starts, joins.stops, count] at ready
      rw [extent, joins.starts, joins.stops, count]
      obtain ⟨v₁, rfl, step₁⟩ := target.outer nestedTarget
        (ready.within (Nat.le_refl _) (by omega) (Nat.le_refl _) (by omega)) ran₁
      have front := step₁.before (ready.fresh.within (by omega) (by omega))
        (show t.outer.stop ≤ e.outer.start by omega) nestedTarget.proper.outerStop
      obtain ⟨v', rfl, step⟩ := value.after nestedValue front (by omega)
        (ready.within (by omega) (by omega) (Nat.le_refl _) (Nat.le_refl _)) ran₂
      exact ⟨v', rfl, (step.widen (Nat.le_refl _) (by omega)).congr (fun _ => rfl) rfl⟩

/-- What is written between two operands when the token between them is the operator. -/
theorem operatorGap_eq {x : Extent} {l r : Expr} {t : Token} (names : Nat → String)
    (op : BinaryOperator) (joins : Expr.Joins tokens x l r t) :
    (d.printer o tokens names).operatorGap l.outer.stop r.outer.start op =
      Text.excerpt l.outer.stop t.span.start d.source.toList ++ op.javaScript.toList ++
        Text.excerpt t.span.stop r.outer.start d.source.toList := by
  rw [Printer.operatorGap, show Token.within (d.printer o tokens names).tokens l.outer.stop
    r.outer.start = [t] from joins.alone]
  rfl

/-- The token between two operands is found again. -/
theorem operatorToken?_place {x : Extent} {l r : Expr} {op : BinaryOperator} {t : Token}
    (site : Site d.arena base signed (.binary x l op r)) (tokenized : d.Tokenized tokens)
    (left : l.Nested d.source tokens) (right : r.Nested d.source tokens)
    (joins : Expr.Joins tokens x l r t) (isOperator : t.kind = op.tokenKind) :
    d.operatorToken? ((Expr.binary x l op r).place base) op.tokenKind = some t := by
  rw [← isOperator]
  exact Document.operatorToken?_eq tokenized.stream tokenized.same site.holds.get?_place
    rfl site.binary.1.holds.get?_place site.binary.2.holds.get?_place
    (congrArg Extent.outer (l.extent_node _)) (congrArg Extent.outer (r.extent_node _))
    joins (Nat.le_of_lt left.start_lt_stop) (Nat.le_of_lt right.start_lt_stop)
    (by rw [isOperator]; cases op <;> decide)

theorem lowerBinary_of_token {n i j : NodeId} {op : BinaryOperator} {t : Token}
    (found : d.operatorToken? n op.tokenKind = some t) :
    lowerBinary d visit n i op j = (do
      visit i
      if t.text d.source ≠ op.javaScript then replace t.span op.javaScript
      visit j) := by
  rw [lowerBinary, found]
  rfl

theorem lowers_binary {x : Extent} {l r : Expr} {op : BinaryOperator}
    (site : Site d.arena base signed (.binary x l op r))
    (nested : (Expr.binary x l op r).Nested d.source tokens)
    (guarded : (Expr.binary x l op r).Guarded keep) (tokenized : d.Tokenized tokens)
    (left : Lowers d o tokens keep visit base false l)
    (right : Lowers d o tokens keep visit (base + l.countBelow + 1) false r) :
    Lowers d o tokens keep (lowerNode d o visit) base signed (.binary x l op r) := by
  intro v u s ready ran
  obtain ⟨n, s₁, got, rest⟩ := exists_of_bind ran
  obtain ⟨rfl, rfl⟩ := eq_of_node site.holds got
  cases nested with
  | @binary _ _ _ _ t proper nestedLeft nestedRight joins isOperator spelt =>
      have bounds := joins.bounds
      have nonempty := nestedLeft.start_lt_stop
      have nonempty' := nestedRight.start_lt_stop
      have count : (Expr.binary x l op r).countBelow = l.countBelow + 1 + (r.countBelow + 1) := rfl
      have extent : (Expr.binary x l op r).extent = x := rfl
      change lowerBinary d visit ((Expr.binary x l op r).place base) (l.place base) op
        (r.place (base + l.countBelow + 1)) (v.state d.source) = _ at rest
      rw [lowerBinary_of_token
        (operatorToken?_place site tokenized nestedLeft nestedRight joins isOperator)] at rest
      obtain ⟨u₁, s₁, ran₁, rest⟩ := exists_of_bind rest
      rw [extent, joins.starts, joins.stops, count] at ready
      rw [extent, joins.starts, joins.stops, count]
      obtain ⟨v₁, rfl, step₁⟩ := left.outer nestedLeft
        (ready.within (Nat.le_refl _) (by omega) (Nat.le_refl _) (by omega)) ran₁
      have fresh₁ : v₁.marks.Fresh l.outer.stop r.outer.start := by
        obtain ⟨written, rewrites⟩ := step₁.exists_rewrites
        exact rewrites.fresh (ready.fresh.within (by omega) (by omega)) (.inr (Nat.le_refl _))
      have positive := tokenized.stream.start_lt_stop bounds.1
      have apart := joins.apart
      have tokenStart := tokenized.stream.isBoundary_start bounds.1
      have tokenStop := tokenized.stream.isBoundary_stop bounds.1
      have leftStop := nestedLeft.proper.outerStop
      -- What is done to the operator, and then the right operand.
      obtain ⟨v₂, gap, ran⟩ : ∃ v₂, Step d.source keep base (base + l.countBelow + 1) v₁ v₂
          l.outer.stop r.outer.start 0 (fun names =>
            (d.printer o tokens names).operatorGap l.outer.stop r.outer.start op) ∧
          visit (r.place (base + l.countBelow + 1)) (v₂.state d.source) = .ok u s := by
        simp only [operatorGap_eq _ _ joins]
        by_cases spelling : t.text d.source = op.javaScript
        · rw [if_neg (by simpa using spelling)] at rest
          refine ⟨v₁, (Step.skip fresh₁ (by omega) leftStop).congr (fun names => ?_) rfl, rest⟩
          have text := Span.toList_text tokenStart tokenStop (Nat.le_of_lt positive)
          rw [← spelling, Token.text, text,
            Text.excerpt_append_excerpt (by omega) (Nat.le_of_lt positive),
            Text.excerpt_append_excerpt (by omega) (by omega)]
        · rw [if_pos spelling] at rest
          obtain ⟨u₁, s₁, replaced, ran⟩ := exists_of_bind rest
          rw [eq_of_replace replaced] at ran
          have written : Step d.source keep base (base + l.countBelow + 1) v₁ _ t.span.start
              t.span.stop 0 _ :=
            .replace v₁ op.javaScript (Nat.le_of_lt positive) tokenStart
              fun i lower upper => guarded.2.1 i (by omega) (by omega)
          exact ⟨_, (written.behind (fresh₁.within (Nat.le_refl _) (by omega)) (by omega)
            leftStop).before (fresh₁.within (by omega) (Nat.le_refl _)) apart tokenStop, ran⟩
      obtain ⟨v', rfl, step⟩ := right.after nestedRight (step₁.trans gap) (by omega)
        (ready.within (by omega) (by omega) (Nat.le_refl _) (Nat.le_refl _)) ran
      exact ⟨v', rfl, (step.widen (Nat.le_refl _) (by omega)).congr (fun _ => rfl) rfl⟩

end Lowering

end MembershipLowering
