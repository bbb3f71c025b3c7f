import MembershipLowering.Proofs.Lowering.Rendering

/-! # Lowering prints membership tests

The two ways of lowering a test. If both operands are pure, the right one is lowered
first, its text is read off the draft, and then it is removed, so that all that is
written for the test stands where the left operand was. Else everything stays where it
is, and the texts go from left to right.
-/

namespace MembershipLowering.Lowering

variable {d : Document} {o : Options} {tokens : List Token} {keep : Nat → Prop}
variable {visit : NodeId → Action State Unit} {base : Nat} {signed : Bool}

/-- What is put around the right operand. -/
theorem eq_of_adaptation {r : Expr} {rule : Rule} {place : Nat}
    (holds : d.arena.Holds place (r.layout place)) (right : rule.right = r.place place)
    {s s' : State} {a : Adaptation}
    (ran : rule.adaptation (host d o visit) s = .ok a s') :
    a = .decide r.form o.looseIncludes ∧ s' = s := by
  obtain ⟨s₀, s₁, got, rest⟩ := exists_of_bind ran
  cases got
  cases rest
  refine ⟨?_, rfl⟩
  change Adaptation.decide (form d rule.right) o.looseIncludes = _
  rw [form, right, holds.get?_place]
  simp only [Expr.ofKind_node]

/-- Lowering an expression and reading its text gives what is printed. -/
theorem Lowers.code {e : Expr} (h : Lowers d o tokens keep visit base signed e)
    (nested : e.Nested d.source tokens) (holds : d.arena.Holds base (e.layout base))
    {v : View} {text : String} {s : State}
    (ready : Ready d.arena v base (base + e.countBelow + 1) e.outer.start e.outer.stop)
    (nothing : v.marks.inserted e.outer.start = [])
    (ran : Lowering.code d visit (e.place base) (v.state d.source) = .ok text s) :
    ∃ v', s = v'.state d.source ∧
      Step d.source keep base (base + e.countBelow + 1) v v' e.outer.start e.outer.stop
        e.temporaries (fun names => (d.printer o tokens names).around e.extent
          ((d.printer o tokens names).body v.names.claimed.length signed e)) ∧
      ∀ names, Agrees names v'.names.claimed → text.toList =
        (d.printer o tokens names).around e.extent
          ((d.printer o tokens names).body v.names.claimed.length signed e) := by
  obtain ⟨u₁, s₁, ran₁, rest⟩ := exists_of_bind ran
  obtain ⟨v', rfl, step⟩ := h.outer nested ready ran₁
  obtain ⟨y, s₂, got, rest⟩ := exists_of_bind rest
  obtain ⟨rfl, rfl⟩ := eq_of_extent holds got
  obtain ⟨s₀, s₁, got, rest⟩ := exists_of_bind rest
  cases got
  cases read : (v'.state d.source).draft.slice e.extent.outer.start e.extent.outer.stop with
  | error f => simp only [read] at rest; cases rest
  | ok found =>
      simp only [read] at rest
      cases rest
      refine ⟨v', rfl, step, fun names agrees => ?_⟩
      obtain ⟨new, inserted, written⟩ := (step.rewrites names agrees).text_eq
      rw [nothing, List.nil_append] at inserted
      rw [Marks.slice_draft read, ← written, Marks.insertedText, ← inserted]
      rfl

/-- Storing an expression in a temporary prints an assignment to it. -/
theorem Lowers.name {e : Expr} (h : Lowers d o tokens keep visit base signed e)
    (nested : e.Nested d.source tokens) (holds : d.arena.Holds base (e.layout base))
    {v : View} {stem name : String} {s : State}
    (ready : Ready d.arena v base (base + e.countBelow + 1) e.outer.start e.outer.stop)
    (ran : Lowering.name d visit (e.place base) stem true (v.state d.source) = .ok name s) :
    ∃ v', s = v'.state d.source ∧
      (∀ names, Agrees names v'.names.claimed → names v.names.claimed.length = name) ∧
      Step d.source keep base (base + e.countBelow + 1) v v' e.outer.start e.outer.stop
        (1 + e.temporaries) fun names => (d.printer o tokens names).around e.extent
          ((names v.names.claimed.length).toList ++ " = ".toList ++
            (d.printer o tokens names).body (v.names.claimed.length + 1) signed e) := by
  have proper := nested.proper
  have := proper.opens
  have := proper.nonempty
  have := proper.closes
  rw [Lowering.name, if_neg (by simp)] at ran
  obtain ⟨s₀, s₁, got, rest⟩ := exists_of_bind ran
  cases got
  cases claimed : v.names.claim? stem with
  | none => simp only [View.state, claimed] at rest; cases rest
  | some fresh =>
      obtain ⟨found, supply⟩ := fresh
      simp only [View.state, claimed] at rest
      obtain ⟨u₁, s₁, set, rest⟩ := exists_of_bind rest
      cases set
      obtain ⟨y, s₂, got, rest⟩ := exists_of_bind rest
      obtain ⟨rfl, rfl⟩ := eq_of_extent holds got
      obtain ⟨u₂, s₂, ran₁, rest⟩ := exists_of_bind rest
      rw [eq_of_insert (v := ⟨v.marks, supply, v.pending⟩) ran₁] at rest
      obtain ⟨u₃, s₃, ran₂, rest⟩ := exists_of_bind rest
      cases rest
      have front : Step d.source keep base base v _ e.extent.content.start
          e.extent.content.start 1 _ :=
        .claim v claimed proper.contentStart
      have readyPart := front.ready (ready.within (Nat.le_refl _) (Nat.le_refl _) proper.opens
        proper.closes) (.inr (Nat.le_refl _)) (.inr (Nat.le_refl _))
      obtain ⟨v', rfl, step⟩ := h _ _ _ readyPart ran₂
      have whole := ((front.widen (Nat.le_refl base) (by omega)).trans step).around proper
        ready.fresh
      refine ⟨v', rfl, fun names agrees => ?_, whole.congr (fun names => ?_) rfl⟩
      · obtain ⟨new, later, -⟩ := step.claimed
        obtain ⟨fresh, -, same⟩ := Option.map_eq_some_iff.1 claimed
        cases same
        exact (later ▸ agrees).left v.names.claimed.length name (by simp)
      · rw [front.claimed_length]
        rfl

/-- The printer puts around a receiver what the adaptation does. -/
theorem wrap_eq_adapt (names : Nat → String) (receiver : Expr) (code : String) :
    ((Adaptation.decide receiver.form o.looseIncludes).wrap code).toList =
      (d.printer o tokens names).adapt receiver code.toList :=
  Adaptation.wrap_eq _ code

/-- The same in three parts. -/
theorem adapt_eq (names : Nat → String) (receiver : Expr) (text : List Char) :
    (d.printer o tokens names).adapt receiver text =
      let a := Adaptation.decide receiver.form o.looseIncludes
      (if a.arrayFrom = true then Adaptation.arrayFromText.toList else []) ++
        (if a.parens = true then "(".toList else []) ++ text ++
        (if a.parens = true then ")".toList else []) := by
  have implied : (Adaptation.decide receiver.form o.looseIncludes).arrayFrom = true →
      (Adaptation.decide receiver.form o.looseIncludes).parens = true := by
    intro h
    exact Bool.or_eq_true_iff.2 (.inl h)
  simp only [Printer.adapt, Document.printer, Printer.plain, Printer.adapting, Adaptation.front,
    Adaptation.back]
  by_cases arrayFrom : (Adaptation.decide receiver.form o.looseIncludes).arrayFrom = true
  · simp [arrayFrom, implied arrayFrom]
  · by_cases parens : (Adaptation.decide receiver.form o.looseIncludes).parens = true <;>
      simp [arrayFrom, parens]

section Operands

variable {x : Extent} {l r : Expr} {sign negated : Bool} {v : View} {u : Unit} {s : State}

/-- Both operands are pure. -/
theorem lowers_moving (site : Site d.arena base sign (.membership x l r negated))
    (nestedLeft : l.Nested d.source tokens) (nestedRight : r.Nested d.source tokens)
    (apart : l.outer.stop < r.outer.start) (clear : Expr.Clear keep l.outer.stop r.outer.stop)
    (left : Lowers d o tokens keep visit base false l)
    (right : Lowers d o tokens keep visit (base + l.countBelow + 1) false r)
    (pureLeft : l.isPure = true) (pureRight : r.isPure = true)
    (ready : Ready d.arena v base (base + l.countBelow + 1 + (r.countBelow + 1)) l.outer.start
      r.outer.stop)
    (ran : (Rule.mk ((Expr.membership x l r negated).place base) (l.place base)
      (r.place (l.place base + 1)) signed).lowerMoving (host d o visit) (v.state d.source) =
        .ok u s) :
    ∃ v', s = v'.state d.source ∧
      Step d.source keep base (base + l.countBelow + 1 + (r.countBelow + 1)) v v' l.outer.start
        r.outer.stop 0 fun names =>
          let p := d.printer o tokens names
          let k := v.names.claimed.length
          (if signed then "!".toList else []) ++
            p.adapt r (p.around r.extent (p.body k false r)) ++ ".includes(".toList ++
            p.around l.extent (p.body k false l) ++ ")".toList := by
  have holdsLeft := site.membership.1.holds
  have holdsRight := site.membership.2.holds
  obtain ⟨y, s₁, got, rest⟩ := exists_of_bind ran
  obtain ⟨rfl, rfl⟩ := eq_of_extent holdsLeft got
  obtain ⟨z, s₁, got, rest⟩ := exists_of_bind rest
  obtain ⟨rfl, rfl⟩ := eq_of_extent holdsRight got
  obtain ⟨a, s₁, got, rest⟩ := exists_of_bind rest
  obtain ⟨rfl, rfl⟩ := eq_of_adaptation holdsRight rfl got
  obtain ⟨code, s₁, read, rest⟩ := exists_of_bind rest
  have nonempty := nestedLeft.start_lt_stop
  have nonempty' := nestedRight.start_lt_stop
  obtain ⟨v₁, rfl, part, text⟩ := right.code nestedRight holdsRight
    (ready.within (by omega) (by omega) (by omega) (Nat.le_refl _))
    (ready.fresh.inserted _ (by omega) (by omega)) read
  obtain ⟨u₁, s₁, removed, rest⟩ := exists_of_bind rest
  rw [eq_of_remove removed] at rest
  -- What is left to do starts from the removal, as if the right operand had never been lowered.
  let w : View := { v₁ with marks := v₁.marks.remove l.outer.stop r.outer.stop }
  have readyLeft : Ready d.arena w base (base + l.countBelow + 1) l.outer.start l.outer.stop := by
    have still : Ready d.arena v₁ base (base + l.countBelow + 1) l.outer.start l.outer.stop :=
      part.ready (ready.within (Nat.le_refl _) (by omega) (Nat.le_refl _) (by omega)) (.inl apart)
        (.inl (Nat.le_refl _))
    exact ⟨still.fresh.remove (Nat.le_refl _), still.pending⟩
  have leftStart := nestedLeft.proper.outerStart
  obtain ⟨s₁, ran₁, rest⟩ := exists_of_if rest
  obtain ⟨v₂, rfl, negation⟩ : ∃ v', s₁ = v'.state d.source ∧ Step d.source keep base base w v'
      l.outer.start l.outer.start 0 fun _ => if signed = true then "!".toList else [] :=
    Step.insertIf leftStart ran₁
  obtain ⟨u₂, s₂, ran₂, rest⟩ := exists_of_bind rest
  rw [eq_of_insert ran₂] at rest
  obtain ⟨u₃, s₃, ran₃, ran₄⟩ := exists_of_bind rest
  obtain ⟨v₃, rfl, front⟩ := left.after nestedLeft (negation.andInsert _ leftStart)
    (Nat.le_refl _) readyLeft ran₃
  refine ⟨_, eq_of_insert ran₄, ?_⟩
  have whole := front.andInsert ")" nestedLeft.proper.outerStop
  have moved := (part.widen (show base ≤ _ by omega) (Nat.le_refl _)).ahead
    (whole.widen (Nat.le_refl base) (by omega)) apart clear
  have noneLeft := Expr.temporaries_of_isPure pureLeft
  have noneRight := Expr.temporaries_of_isPure pureRight
  refine moved.congr_of_agrees (fun names agrees => ?_) (by omega)
  obtain ⟨new, claimed, -⟩ := whole.claimed
  have same : w.names.claimed.length = v.names.claimed.length := by
    have := part.claimed_length
    rw [noneRight] at this
    exact this
  have written := text names (claimed ▸ agrees).left
  dsimp only
  rw [same, ← written, ← wrap_eq_adapt, String.toList_append]
  simp only [List.append_assoc, Nat.add_zero]

/-- Some operand has an effect. -/
theorem lowers_storing (site : Site d.arena base sign (.membership x l r negated))
    (nestedLeft : l.Nested d.source tokens) (nestedRight : r.Nested d.source tokens)
    (starts : x.content.start = l.outer.start) (apart : l.outer.stop < r.outer.start)
    (clear : Expr.Clear keep l.outer.stop r.outer.start)
    (left : Lowers d o tokens keep visit base false l)
    (right : Lowers d o tokens keep visit (base + l.countBelow + 1) false r)
    (ready : Ready d.arena v base (base + l.countBelow + 1 + (r.countBelow + 1)) l.outer.start
      r.outer.stop)
    (ran : (Rule.mk ((Expr.membership x l r negated).place base) (l.place base)
      (r.place (l.place base + 1)) signed).lowerStoring (host d o visit) (v.state d.source) =
        .ok u s) :
    ∃ v', s = v'.state d.source ∧
      Step d.source keep base (base + l.countBelow + 1 + (r.countBelow + 1)) v v' l.outer.start
        r.outer.stop (1 + l.temporaries + r.temporaries) fun names =>
          let p := d.printer o tokens names
          let k := v.names.claimed.length
          let name := (names k).toList
          "(".toList ++ p.around l.extent (name ++ " = ".toList ++ p.body (k + 1) false l) ++
            ", ".toList ++ (if signed then "!".toList else []) ++
            p.adapt r (p.around r.extent (p.body (k + 1 + l.temporaries) false r)) ++
            ".includes(".toList ++ name ++ "))".toList := by
  have holdsLeft := site.membership.1.holds
  have holdsRight := site.membership.2.holds
  obtain ⟨w, s₁, got, rest⟩ := exists_of_bind ran
  obtain ⟨rfl, rfl⟩ := eq_of_extent site.holds got
  obtain ⟨y, s₁, got, rest⟩ := exists_of_bind rest
  obtain ⟨rfl, rfl⟩ := eq_of_extent holdsLeft got
  obtain ⟨z, s₁, got, rest⟩ := exists_of_bind rest
  obtain ⟨rfl, rfl⟩ := eq_of_extent holdsRight got
  obtain ⟨a, s₁, got, rest⟩ := exists_of_bind rest
  obtain ⟨rfl, rfl⟩ := eq_of_adaptation holdsRight rfl got
  have nonempty := nestedLeft.start_lt_stop
  have nonempty' := nestedRight.start_lt_stop
  have leftStart := nestedLeft.proper.outerStart
  have leftStop := nestedLeft.proper.outerStop
  have rightStart := nestedRight.proper.outerStart
  have rightStop := nestedRight.proper.outerStop
  rw [starts] at rest
  obtain ⟨u₁, s₁, ran₁, rest⟩ := exists_of_bind rest
  rw [eq_of_insert ran₁] at rest
  have front : Step d.source keep base base v _ l.outer.start l.outer.start 0 _ :=
    .insert v "(" leftStart
  obtain ⟨name, s₂, ran₂, rest⟩ := exists_of_bind rest
  have readyLeft := front.ready (ready.within (Nat.le_refl base)
    (show base + l.countBelow + 1 ≤ _ by omega) (Nat.le_refl _)
    (show l.outer.stop ≤ r.outer.stop by omega)) (.inr (Nat.le_refl _)) (.inr (Nat.le_refl _))
  rw [show (host d o visit).lowerToName = Lowering.name d visit from rfl] at ran₂
  obtain ⟨v₂, rfl, isName, stored⟩ := left.name nestedLeft holdsLeft readyLeft ran₂
  obtain ⟨u₃, s₃, ran₃, rest⟩ := exists_of_bind rest
  rw [eq_of_insert ran₃] at rest
  obtain ⟨u₄, s₄, ran₄, rest⟩ := exists_of_bind rest
  rw [eq_of_remove ran₄] at rest
  have whole := (front.widen (Nat.le_refl base)
    (show base ≤ base + l.countBelow + 1 by omega)).trans stored
  -- Behind the left operand one text comes after the other.
  have back₄ : Step d.source keep (base + l.countBelow + 1) (base + l.countBelow + 1) v₂ _
      l.outer.stop r.outer.start 0 _ :=
    (Step.insert v₂ ", " leftStop).trans (.remove _ (Nat.le_of_lt apart) leftStop clear)
  obtain ⟨s₅, ran₅, rest⟩ := exists_of_if rest
  obtain ⟨v₅, rfl, step₅⟩ := Step.insertIf rightStart ran₅
  have back₅ := back₄.trans step₅
  obtain ⟨s₆, ran₆, rest⟩ := exists_of_if rest
  obtain ⟨v₆, rfl, step₆⟩ := Step.insertIf rightStart ran₆
  have back₆ := back₅.trans step₆
  obtain ⟨s₇, ran₇, rest⟩ := exists_of_if rest
  obtain ⟨v₇, rfl, step₇⟩ := Step.insertIf rightStart ran₇
  have back₇ := back₆.trans step₇
  obtain ⟨u₈, s₈, ran₈, rest⟩ := exists_of_bind rest
  have readyRight := whole.ready (ready.within (show base ≤ base + l.countBelow + 1 by omega)
    (Nat.le_refl _) (show l.outer.start ≤ l.outer.stop by omega) (Nat.le_refl _))
    (.inr (Nat.le_refl _)) (.inr (Nat.le_refl _))
  obtain ⟨v₈, rfl, step₈⟩ := right.after nestedRight back₇ (Nat.le_refl _) readyRight ran₈
  obtain ⟨s₉, ran₉, rest⟩ := exists_of_if rest
  obtain ⟨v₉, rfl, step₉⟩ := Step.insertIf rightStop ran₉
  have back := (step₈.trans step₉).andInsert (".includes(" ++ name ++ "))") rightStop
  refine ⟨_, eq_of_insert rest, ((whole.widen (Nat.le_refl base) (by omega)).trans
    (back.widen (by omega) (by omega))).congr_of_agrees (fun names agrees => ?_) (by omega)⟩
  have called : (names v.names.claimed.length).toList = name.toList := by
    obtain ⟨new, claimed, -⟩ := back.claimed
    exact congrArg String.toList (isName names (claimed ▸ agrees).left)
  have count : v₂.names.claimed.length = v.names.claimed.length + (1 + l.temporaries) := by
    rw [stored.claimed_length]
  dsimp only
  rw [adapt_eq, called, count, String.toList_append, String.toList_append]
  simp only [List.append_assoc, Nat.add_zero, List.append_nil, ← Nat.add_assoc]

/-- One of the two ways is taken, and either prints the test. -/
theorem lowers_rule {t : Token} (site : Site d.arena base sign (.membership x l r negated))
    (nestedLeft : l.Nested d.source tokens) (nestedRight : r.Nested d.source tokens)
    (joins : Expr.Joins tokens x l r t)
    (guarded : (Expr.membership x l r negated).Guarded keep)
    (left : Lowers d o tokens keep visit base false l)
    (right : Lowers d o tokens keep visit (base + l.countBelow + 1) false r)
    (ready : Ready d.arena v base (base + l.countBelow + 1 + (r.countBelow + 1)) l.outer.start
      r.outer.stop)
    (ran : (Rule.mk ((Expr.membership x l r negated).place base) (l.place base)
      (r.place (l.place base + 1)) (negated ^^ sign)).lower (host d o visit) (v.state d.source) =
        .ok u s) :
    ∃ v', s = v'.state d.source ∧
      Step d.source keep base (base + l.countBelow + 1 + (r.countBelow + 1)) v v' l.outer.start
        r.outer.stop (Expr.membership x l r negated).temporaries fun names =>
          (d.printer o tokens names).body v.names.claimed.length sign
            (.membership x l r negated) := by
  have bounds := joins.bounds
  have positive := nestedRight.start_lt_stop
  obtain ⟨-, clear, -, clearRight⟩ := guarded
  unfold Rule.lower at ran
  rw [show (host d o visit).isPure (l.place base) = l.isPure from site.membership.1.holds.isPure,
    show (host d o visit).isPure (r.place (l.place base + 1)) = r.isPure from
      site.membership.2.holds.isPure] at ran
  by_cases pure : (l.isPure && r.isPure) = true
  · rw [if_pos pure] at ran
    have both := pure
    rw [Bool.and_eq_true] at both
    have clearAll : Expr.Clear keep l.outer.stop r.outer.stop := by
      intro i lower upper
      by_cases gap : i < r.outer.start
      · exact clear i lower gap
      · exact clearRight both.2 i (by omega) upper
    obtain ⟨v', rfl, step⟩ := lowers_moving site nestedLeft nestedRight (by omega) clearAll left
      right both.1 both.2 ready ran
    refine ⟨v', rfl, step.congr (fun names => ?_) ?_⟩
    · simp only [Printer.body, pure, if_true]
      rfl
    · rw [Expr.temporaries, if_pos pure, Expr.temporaries_of_isPure both.1,
        Expr.temporaries_of_isPure both.2]
  · rw [if_neg pure] at ran
    obtain ⟨v', rfl, step⟩ := lowers_storing site nestedLeft nestedRight joins.starts
      (by omega) clear left right ready ran
    refine ⟨v', rfl, step.congr (fun names => ?_) ?_⟩
    · simp only [Printer.body, pure]
      rfl
    · rw [Expr.temporaries, if_neg pure]

/-- The rule is used up and then carried out. -/
theorem lowers_membership (site : Site d.arena base sign (.membership x l r negated))
    (nested : (Expr.membership x l r negated).Nested d.source tokens)
    (guarded : (Expr.membership x l r negated).Guarded keep)
    (left : Lowers d o tokens keep visit base false l)
    (right : Lowers d o tokens keep visit (base + l.countBelow + 1) false r) :
    Lowers d o tokens keep (lowerNode d o visit) base sign (.membership x l r negated) := by
  intro v u s ready ran
  obtain ⟨n, s₁, got, rest⟩ := exists_of_bind ran
  obtain ⟨rfl, rfl⟩ := eq_of_node site.holds got
  cases nested with
  | membership proper nestedLeft nestedRight joins isRelation =>
      have count : (Expr.membership x l r negated).countBelow =
          l.countBelow + 1 + (r.countBelow + 1) := rfl
      have extent : (Expr.membership x l r negated).extent = x := rfl
      rw [extent, joins.starts, joins.stops, count] at ready
      rw [extent, joins.starts, joins.stops, count]
      have rule : (v.state d.source).rule? ((Expr.membership x l r negated).place base) =
          some ⟨(Expr.membership x l r negated).place base, l.place base,
            r.place (l.place base + 1), negated ^^ sign⟩ :=
        (ready.pending (base + (l.countBelow + 1 + (r.countBelow + 1))) (by omega)
          (by omega)).trans site.rules_find?
      obtain ⟨s₀, s₁, got, rest⟩ := exists_of_bind rest
      cases got
      simp only [rule] at rest
      obtain ⟨u₁, s₁, dropped, rest⟩ := exists_of_bind rest
      cases dropped
      let w := v.drop (base + (l.countBelow + 1 + (r.countBelow + 1)))
      have front : Step d.source keep (base + (l.countBelow + 1 + (r.countBelow + 1)))
          (base + (l.countBelow + 1 + (r.countBelow + 1)) + 1) v w l.outer.start l.outer.start 0
            _ :=
        .drop v (Nat.le_refl _) (Nat.lt_succ_self _) nestedLeft.proper.outerStart
      have readyParts : Ready d.arena w base (base + l.countBelow + 1 + (r.countBelow + 1))
          l.outer.start r.outer.stop :=
        front.ready (ready.within (Nat.le_refl _) (by omega) (Nat.le_refl _) (Nat.le_refl _))
          (.inr (Nat.le_refl _)) (.inl (by omega))
      obtain ⟨v', rfl, step⟩ := lowers_rule site nestedLeft nestedRight joins guarded left right
        readyParts rest
      exact ⟨v', rfl, ((front.widen (show base ≤ _ by omega) (Nat.le_refl _)).trans
        (step.widen (Nat.le_refl base) (by omega))).congr (fun names => rfl) (Nat.zero_add _)⟩

end Operands

end MembershipLowering.Lowering
