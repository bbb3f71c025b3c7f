import MembershipLowering.Proofs.Lowering.Membership

/-! # In-place lowering is printing

The lemmas about the kinds of nodes make an induction over the tree, at every depth that
suffices. From there the lowered code of a source is what the printer prints
(`lowerSource_eq_program`): no edit is lost, doubled or put in another place.
-/

namespace MembershipLowering

namespace Lowering

variable {d : Document} {o : Options} {tokens : List Token} {keep : Nat → Prop}

mutual

/-- Lowering an expression prints it. -/
theorem lowers_lower (tokenized : d.Tokenized tokens) {depth base : Nat} {signed : Bool} {e : Expr}
    (site : Site d.arena base signed e) (nested : e.Nested d.source tokens)
    (guarded : e.Guarded keep) : Lowers d o tokens keep (lower d o depth) base signed e := by
  cases depth with
  | zero => intro v u s _ ran; cases ran
  | succ depth =>
      cases e with
      | atom x a => exact lowers_atom site nested guarded
      | array x es =>
          have elements := nested.elements
          exact lowers_array site nested (lowersAll_lower tokenized site.array elements guarded)
      | call x f es =>
          cases nested with
          | call proper callee starts apart arguments closes isClosing =>
              exact lowers_call site
                (.call proper callee starts apart arguments closes isClosing) tokenized.stream
                (lowers_lower tokenized site.call.1 callee guarded.1)
                (lowersAll_lower tokenized site.call.2 arguments guarded.2)
      | member x e name =>
          have inner : e.Nested d.source tokens := by cases nested; assumption
          exact lowers_member site nested guarded
            (lowers_lower tokenized site.member inner guarded)
      | index x e k =>
          have inner : e.Nested d.source tokens ∧ k.Nested d.source tokens := by
            cases nested; exact ⟨‹_›, ‹_›⟩
          exact lowers_index site nested (lowers_lower tokenized site.index.1 inner.1 guarded.1)
            (lowers_lower tokenized site.index.2 inner.2 guarded.2)
      | not x sign e =>
          have inner : e.Nested d.source tokens := by cases nested; assumption
          exact lowers_not site nested guarded (lowers_lower tokenized site.not inner guarded.2)
      | binary x l op r =>
          have inner : l.Nested d.source tokens ∧ r.Nested d.source tokens := by
            cases nested; exact ⟨‹_›, ‹_›⟩
          exact lowers_binary site nested guarded tokenized
            (lowers_lower tokenized site.binary.1 inner.1 guarded.1)
            (lowers_lower tokenized site.binary.2 inner.2 guarded.2.2)
      | membership x l r negated =>
          have inner : l.Nested d.source tokens ∧ r.Nested d.source tokens := by
            cases nested; exact ⟨‹_›, ‹_›⟩
          exact lowers_membership site nested guarded
            (lowers_lower tokenized site.membership.1 inner.1 guarded.1)
            (lowers_lower tokenized site.membership.2 inner.2 guarded.2.2.1)
      | assign x t e =>
          have inner : t.Nested d.source tokens ∧ e.Nested d.source tokens := by
            cases nested; exact ⟨‹_›, ‹_›⟩
          exact lowers_assign site nested
            (lowers_lower tokenized site.assign.1 inner.1 guarded.1)
            (lowers_lower tokenized site.assign.2 inner.2 guarded.2)

theorem lowersAll_lower (tokenized : d.Tokenized tokens) {depth base start stop : Nat}
    {es : List Expr} (site : SiteAll d.arena base es)
    (nested : Expr.NestedAll d.source tokens start stop es) (guarded : Expr.GuardedAll keep es) :
    LowersAll d o tokens keep (lower d o depth) base es := by
  cases es with
  | nil => exact .nil
  | cons e es =>
      cases nested with
      | cons head starts stops tail =>
          exact .cons (lowers_lower tokenized site.cons.1 head guarded.1)
            (lowersAll_lower tokenized site.cons.2 tail guarded.2)

end

/-- The printer closes the statements that lowering closes. -/
theorem semicolon_eq (tokenized : d.Tokenized tokens) (names : Nat → String) (offset : Nat) :
    (d.printer o tokens names).semicolon offset =
      if d.isTerminatedAt offset = true then [] else ";".toList := by
  rw [d.isTerminatedAt_eq tokenized.stream tokenized.same]
  rfl

/-- A statement is printed in its parentheses and closed. -/
theorem exists_step_of_lowerStatement {visit : NodeId → Action State Unit} {base : Nat}
    {e : Expr} {v : View} {u : Unit} {s : State} (tokenized : d.Tokenized tokens)
    (h : Lowers d o tokens keep visit base false e) (nested : e.Nested d.source tokens)
    (holds : d.arena.Holds base (e.layout base))
    (ready : Ready d.arena v base (base + e.countBelow + 1) e.outer.start e.outer.stop)
    (ran : lowerStatement d visit (e.place base) (v.state d.source) = .ok u s) :
    ∃ v', s = v'.state d.source ∧
      Step d.source keep base (base + e.countBelow + 1) v v' e.outer.start e.outer.stop
        e.temporaries fun names => (d.printer o tokens names).around e.extent
          ((d.printer o tokens names).body v.names.claimed.length false e) ++
            (d.printer o tokens names).semicolon e.outer.stop := by
  obtain ⟨x, s₁, got, rest⟩ := exists_of_bind ran
  obtain ⟨rfl, rfl⟩ := eq_of_extent holds got
  obtain ⟨s₀, s₁, got, rest⟩ := exists_of_bind rest
  cases got
  have plain : (v.state d.source).needsParens (e.place base) = false := by
    cases found : (v.state d.source).rule? (e.place base) <;>
      simp [State.needsParens, found, Rule.needsParens]
  rw [plain, if_neg (by simp)] at rest
  obtain ⟨u₁, s₁, ran₁, rest⟩ := exists_of_bind rest
  obtain ⟨v₁, rfl, step⟩ := h.outer nested ready ran₁
  by_cases closed : d.isTerminatedAt e.extent.outer.stop = true
  · rw [closed, if_neg (by simp)] at rest
    cases rest
    refine ⟨v₁, rfl, step.congr (fun names => ?_) rfl⟩
    rw [semicolon_eq tokenized, if_pos (show d.isTerminatedAt e.outer.stop = true from closed),
      List.append_nil]
  · rw [if_pos (by simpa using closed)] at rest
    refine ⟨_, eq_of_insert rest, (step.andInsert ";" nested.proper.outerStop).congr
      (fun names => ?_) rfl⟩
    rw [semicolon_eq tokenized, if_neg (show ¬d.isTerminatedAt e.outer.stop = true from closed)]

/-- Statements are printed one after the other. -/
theorem exists_step_of_statements {depth base start first : Nat} {es : List Expr} {v : View}
    {u : Unit} {s : State} (tokenized : d.Tokenized tokens) (site : SiteAll d.arena base es)
    (nested : Expr.NestedAll d.source tokens first (Text.byteLength d.source.toList) es)
    (guarded : Expr.GuardedAll keep es) (hle : start ≤ first)
    (hstop : start ≤ Text.byteLength d.source.toList)
    (hstart : Text.isBoundary start d.source.toList = true)
    (ready : Ready d.arena v base (base + Expr.countAll es) start
      (Text.byteLength d.source.toList))
    (ran : (Expr.places base es).forM (lowerStatement d (lower d o depth)) (v.state d.source) =
      .ok u s) :
    ∃ v', s = v'.state d.source ∧
      Step d.source keep base (base + Expr.countAll es) v v' start
        (Text.byteLength d.source.toList) (Expr.temporariesAll es)
        fun names => (d.printer o tokens names).program v.names.claimed.length start es := by
  cases es with
  | nil =>
      cases ran
      exact ⟨v, rfl, .skip ready.fresh hstop hstart⟩
  | cons e es =>
      cases nested with
      | cons head starts stops tail =>
          have nonempty := head.start_lt_stop
          have count : Expr.countAll (e :: es) = e.countBelow + 1 + Expr.countAll es := rfl
          obtain ⟨u₁, s₁, ran₁, ran₂⟩ := exists_of_bind ran
          obtain ⟨v₁, rfl, step₁⟩ := exists_step_of_lowerStatement tokenized
            (lowers_lower tokenized site.cons.1 head guarded.1) head site.cons.1.holds
            (ready.within (Nat.le_refl _) (by omega) (by omega) stops) ran₁
          have readyTail : Ready d.arena v₁ (base + e.countBelow + 1)
              (base + e.countBelow + 1 + Expr.countAll es) e.outer.stop
              (Text.byteLength d.source.toList) :=
            step₁.ready (ready.within (by omega) (by omega) (by omega) (Nat.le_refl _))
              (.inr (Nat.le_refl _)) (.inr (Nat.le_refl _))
          obtain ⟨v', rfl, step₂⟩ := exists_step_of_statements tokenized site.cons.2 tail
            guarded.2 (Nat.le_succ _) stops head.proper.outerStop readyTail ran₂
          have front := (step₁.behind (ready.fresh.within (Nat.le_refl _) (by omega))
            (show start ≤ e.outer.start by omega) hstart).widen (Nat.le_refl base)
            (show _ ≤ base + Expr.countAll (e :: es) by omega)
          have whole := front.trans (step₂.widen (by omega) (Nat.le_of_eq (by omega)))
          refine ⟨v', rfl, whole.congr (fun names => ?_) rfl⟩
          rw [step₁.claimed_length]
          simp only [Printer.program, List.append_assoc]
          rfl

end Lowering

/-- Whether a call gives a certain result can be decided without comparing errors. -/
instance decidableEqOk {ε α : Type} [DecidableEq α] (x : Except ε α) (a : α) :
    Decidable (x = .ok a) :=
  match x with
  | .ok b => decidable_of_iff (b = a) (by simp)
  | .error _ => isFalse (by simp)

/-- Whether every result of a call has a property can be decided. -/
instance decidableForallOk {ε α : Type} (p : α → Prop) [DecidablePred p] (x : Except ε α) :
    Decidable (∀ a, x = .ok a → p a) :=
  match x with
  | .ok b => decidable_of_iff (p b) (by simp)
  | .error _ => isTrue fun _ none => by cases none

/-- Whether a call has a result with a property can be decided. -/
instance decidableExistsOk {ε α : Type} (p : α → Prop) [DecidablePred p] (x : Except ε α) :
    Decidable (∃ a, x = .ok a ∧ p a) :=
  match x with
  | .ok b => decidable_of_iff (p b) (by simp)
  | .error _ => isFalse fun ⟨_, found, _⟩ => by cases found

/-- A source that can be lowered has been read. -/
theorem exists_of_lowerSource {source : String} {o : Options} {out : Output}
    (h : lowerSource source o = .ok out) :
    ∃ tokens es, Token.readAll source = .ok tokens ∧ Parser.statements source tokens = .ok es ∧
      (Document.ofStatements source tokens es).lower o = .ok out := by
  unfold lowerSource Document.parse at h
  cases read : Token.readAll source with
  | error e => simp only [read] at h; cases h
  | ok tokens =>
      cases parsed : Parser.statements source tokens with
      | error e => simp only [read, parsed, Except.map] at h; cases h
      | ok es =>
          simp only [read, parsed, Except.map] at h
          exact ⟨tokens, es, rfl, parsed, h⟩

/-- A source is lowered by lowering its statements. -/
theorem lower_of_lowerSource {source : String} {o : Options} {out : Output} {tokens : List Token}
    {es : List Expr} (h : lowerSource source o = .ok out)
    (read : Token.readAll source = .ok tokens)
    (parsed : Parser.statements source tokens = .ok es) :
    (Document.ofStatements source tokens es).lower o = .ok out := by
  obtain ⟨tokens', es', read', parsed', lowered⟩ := exists_of_lowerSource h
  cases read.symm.trans read'
  cases parsed.symm.trans parsed'
  exact lowered

namespace Lowering

/-- A document that was read from a source has the tokens of that source. -/
theorem tokenized_ofStatements {source : String} {tokens : List Token}
    (read : Token.readAll source = .ok tokens) (es : List Expr) :
    (Document.ofStatements source tokens es).Tokenized tokens :=
  ⟨Token.stream_of_readAll read, rfl⟩

/-- What was written in place of a whole source is the text of the draft, whatever the names
    of further temporaries would be. -/
theorem toList_render_of_agrees {source : String} {keep : Nat → Prop} {next count : Nat}
    {v v' : View} {text : (Nat → String) → List Char} {names : Nat → String}
    (nothing : v.marks.inserted 0 = [])
    (step : Step source keep 0 next v v' 0 (Text.byteLength source.toList) count text)
    (agrees : Agrees names v'.names.claimed) :
    (v'.marks.draft source).render.toList = text names := by
  obtain ⟨new, inserted, written⟩ := (step.rewrites names agrees).text_eq
  rw [nothing, List.nil_append] at inserted
  rw [Marks.render_draft, ← written, Marks.insertedText, inserted]

theorem toList_render {source : String} {keep : Nat → Prop} {next count : Nat} {v v' : View}
    {text : (Nat → String) → List Char} (nothing : v.marks.inserted 0 = [])
    (step : Step source keep 0 next v v' 0 (Text.byteLength source.toList) count text) :
    (v'.marks.draft source).render.toList = text (v'.names.claimed.getD · "") :=
  toList_render_of_agrees nothing step (agrees_getD v'.names.claimed "")

theorem statements?_ofStatements (source : String) (tokens : List Token) (es : List Expr) :
    (Document.ofStatements source tokens es).statements? = some (Expr.places 0 es) := by
  rw [Document.statements?]
  change ((Document.ofStatements source tokens es).arena.get? (Expr.countAll es)).map _ = _
  rw [Document.get?_root_ofStatements]
  rfl

/-- A run from the initial state prints the program, be it read from the source or only nested
    in it. Nothing of the source is removed that has to be kept, if what has to be kept is nowhere
    where lowering removes something. -/
theorem exists_step_of_nested {source : String} {o : Options} {tokens : List Token}
    {es : List Expr} {out : Output} {keep : Nat → Prop}
    (read : Token.readAll source = .ok tokens)
    (nested : Expr.NestedAll source tokens 0 (Text.byteLength source.toList) es)
    (guarded : Expr.GuardedAll keep es)
    (h : (Document.ofStatements source tokens es).lower o = .ok out) :
    ∃ v : View, (run (Document.ofStatements source tokens es) o).run
          (.initial (Document.ofStatements source tokens es)) = .ok out (v.state source) ∧
      out = ⟨(v.marks.draft source).render, v.names.claimed⟩ ∧
      Step source keep 0 (Expr.countAll es)
        ⟨.clean, (State.initial (Document.ofStatements source tokens es)).names,
          (Document.ofStatements source tokens es).arena.rules⟩ v 0
        (Text.byteLength source.toList) (Expr.temporariesAll es)
        fun names => (Printer.plain source tokens o.looseIncludes names).program 0 0 es := by
  let d := Document.ofStatements source tokens es
  let v₀ : View := ⟨.clean, (State.initial d).names, d.arena.rules⟩
  have initial : State.initial d = v₀.state source := by
    rw [View.state, Marks.clean_draft]
    rfl
  have ready : Ready d.arena v₀ 0 (0 + Expr.countAll es) 0 (Text.byteLength source.toList) :=
    ⟨Marks.clean_fresh _ _, fun _ _ _ => rfl⟩
  unfold Document.lower at h
  split at h
  · rename_i output s ran
    cases h
    obtain ⟨u₁, s₁, ran₁, rest⟩ := exists_of_bind ran
    obtain ⟨s₂, s₃, got, rest⟩ := exists_of_bind rest
    cases got
    cases rest
    rw [statements?_ofStatements, Option.getD_some, initial] at ran₁
    obtain ⟨v, rfl, step⟩ := exists_step_of_statements (tokenized_ofStatements read es)
      (Document.siteAll_ofStatements source tokens es) nested guarded (Nat.le_refl 0)
      (Nat.zero_le _) (Text.isBoundary_zero _) ready ran₁
    exact ⟨v, ran, rfl, (step.widen (Nat.le_refl 0) (Nat.le_of_eq (Nat.zero_add _))).congr
      (fun _ => rfl) rfl⟩
  · cases h

theorem exists_step_of_lower {source : String} {o : Options} {tokens : List Token}
    {es : List Expr} {out : Output} {keep : Nat → Prop}
    (read : Token.readAll source = .ok tokens)
    (parsed : Parser.statements source tokens = .ok es) (guarded : Expr.GuardedAll keep es)
    (h : (Document.ofStatements source tokens es).lower o = .ok out) :
    ∃ v : View, (run (Document.ofStatements source tokens es) o).run
          (.initial (Document.ofStatements source tokens es)) = .ok out (v.state source) ∧
      out = ⟨(v.marks.draft source).render, v.names.claimed⟩ ∧
      Step source keep 0 (Expr.countAll es)
        ⟨.clean, (State.initial (Document.ofStatements source tokens es)).names,
          (Document.ofStatements source tokens es).arena.rules⟩ v 0
        (Text.byteLength source.toList) (Expr.temporariesAll es)
        fun names => (Printer.plain source tokens o.looseIncludes names).program 0 0 es :=
  exists_step_of_nested read (Parser.nested_of_statements read parsed) guarded h

/-- What lowering writes for statements that are nested in a source. -/
theorem toList_code_of_nested {source : String} {o : Options} {tokens : List Token}
    {es : List Expr} {out : Output} {names : Nat → String}
    (read : Token.readAll source = .ok tokens)
    (nested : Expr.NestedAll source tokens 0 (Text.byteLength source.toList) es)
    (h : (Document.ofStatements source tokens es).lower o = .ok out)
    (agrees : Agrees names out.bindings) :
    out.code.toList = (Printer.plain source tokens o.looseIncludes names).program 0 0 es ∧
      out.bindings.length = Expr.temporariesAll es := by
  have guarded : Expr.GuardedAll (fun _ => False) es :=
    Expr.guardedAll_of_confined (fun _ _ _ kept => kept.elim) nested
      (Token.stream_of_readAll read) (Nat.le_refl _) (Nat.le_refl _)
  obtain ⟨v, -, rfl, step⟩ := exists_step_of_nested read nested guarded h
  have length := step.claimed_length
  exact ⟨toList_render_of_agrees rfl step agrees, length.trans (Nat.zero_add _)⟩

/-- What lowering writes for the statements of a source. -/
theorem toList_code_of_agrees {source : String} {o : Options} {tokens : List Token}
    {es : List Expr} {out : Output} {names : Nat → String}
    (read : Token.readAll source = .ok tokens) (parsed : Parser.statements source tokens = .ok es)
    (h : (Document.ofStatements source tokens es).lower o = .ok out)
    (agrees : Agrees names out.bindings) :
    out.code.toList = (Printer.plain source tokens o.looseIncludes names).program 0 0 es ∧
      out.bindings.length = Expr.temporariesAll es :=
  toList_code_of_nested read (Parser.nested_of_statements read parsed) h agrees

theorem toList_code {source : String} {o : Options} {tokens : List Token} {es : List Expr}
    {out : Output} (read : Token.readAll source = .ok tokens)
    (parsed : Parser.statements source tokens = .ok es)
    (h : (Document.ofStatements source tokens es).lower o = .ok out) :
    out.code.toList =
        (Printer.plain source tokens o.looseIncludes (out.bindings.getD · "")).program 0 0 es ∧
      out.bindings.length = Expr.temporariesAll es :=
  toList_code_of_agrees read parsed h (agrees_getD out.bindings "")

end Lowering

/-- The lowered code is what the printer prints, and the names handed out are those of the
    temporaries. -/
theorem lowerSource_eq_program {source : String} {o : Options} {out : Output}
    (h : lowerSource source o = .ok out) :
    ∃ tokens es, Token.readAll source = .ok tokens ∧ Parser.statements source tokens = .ok es ∧
      out.code.toList =
        (Printer.plain source tokens o.looseIncludes (out.bindings.getD · "")).program 0 0 es ∧
      out.bindings.length = Expr.temporariesAll es := by
  obtain ⟨tokens, es, read, parsed, lowered⟩ := exists_of_lowerSource h
  exact ⟨tokens, es, read, parsed, Lowering.toList_code read parsed lowered⟩

theorem lowerSource_eq_program_folded :
    lowerSource "not (a in @b) or c isnt d" .standard =
        .ok ⟨"(!Array.from(this.b).includes(a)) || c !== d;", []⟩ ∧
      ∃ tokens es, Token.readAll "not (a in @b) or c isnt d" = .ok tokens ∧
        Parser.statements "not (a in @b) or c isnt d" tokens = .ok es ∧
        "(!Array.from(this.b).includes(a)) || c !== d;".toList =
          (Printer.plain "not (a in @b) or c isnt d" tokens false ([].getD · "")).program 0 0 es ∧
        0 = Expr.temporariesAll es := by
  have ran : lowerSource "not (a in @b) or c isnt d" .standard =
      .ok ⟨"(!Array.from(this.b).includes(a)) || c !== d;", []⟩ := by
    decide +kernel
  exact ⟨ran, lowerSource_eq_program ran⟩

end MembershipLowering
