import MembershipLowering.Proofs.Lowering.Outcome
import MembershipLowering.Proofs.Lowering.Provenance
import MembershipLowering.Proofs.Lowering.Reading

/-! # Effects stay where they are

A membership test is lowered to a call that puts the right operand first. Still no call and
no assignment of the source is lost, doubled or moved past another: the token at which it
happens stays where it is to the end, no text with such a token in it is read off the draft
to be written in another place, and so it is copied once (`lowerSource_keepsEffects`).
-/

namespace MembershipLowering

open Lowering

/-- What a run on a source leaves of its calls and assignments. -/
structure KeepsEffects (source : String) (o : Options) (tokens : List Token) (es : List Expr)
    (out : Output) (s : State) : Prop where
  /-- The closing parenthesis of every call is among the effects. -/
  calls : ∀ e ∈ es, ∀ x f arguments, e.Within (.call x f arguments) →
    ∃ t ∈ Expr.effectsAll tokens es, Token.endingAt tokens x.content.stop = [t] ∧
      t.kind = .rparen
  /-- So is the sign between the parts of every assignment. -/
  assignments : ∀ e ∈ es, ∀ x target value, e.Within (.assign x target value) →
    ∃ t ∈ Expr.effectsAll tokens es,
      Token.within tokens target.outer.stop value.outer.start = [t] ∧ t.kind = .assign
  /-- In the end each of these tokens stands in the draft, and none of it is removed. -/
  standing : ∀ t ∈ Expr.effectsAll tokens es, ∃ slot ∈ s.draft.slots,
    slot.offset = t.span.start ∧ slot.removed = false ∧
      slot.char.toList = (t.text source).toList
  /-- Only texts without such a token are read: whatever reading another text does instead,
      the run is the same. -/
  reading : ∀ read : Reader,
    (∀ visit n node, (Document.ofStatements source tokens es).arena.get? n = some node →
      (∀ t ∈ Expr.effectsAll tokens es, ¬node.extent.outer.contains t.span.start) →
      read visit n = code (Document.ofStatements source tokens es) visit n) →
    (runReading (Document.ofStatements source tokens es) o read).run
      (.initial (Document.ofStatements source tokens es)) = .ok out s
  /-- Following every copied character to its place in the source, each of these tokens is
      found in the code once, in the order of the source. -/
  once : ∃ printed : List Printed, printed.map (·.char) = out.code.toList ∧
    printed = (Printer.tracing source tokens o.looseIncludes (out.bindings.getD · "")).program
      0 0 es ∧
    Printer.origins (fun i => (Expr.effectsAll tokens es).any (·.span.start = i)) printed =
      (Expr.effectsAll tokens es).map (·.span.start)
  ordered : (Expr.effectsAll tokens es).Pairwise fun t u => t.span.start < u.span.start
  /-- The effects of a left operand come before those of the right one. -/
  operands : ∀ e ∈ es, ∀ x l r negated, e.Within (.membership x l r negated) →
    ∀ t ∈ l.effects tokens, ∀ u ∈ r.effects tokens, t.span.start < u.span.start

/-- No effect is dropped, doubled or reordered. -/
theorem lowerSource_keepsEffects {source : String} {o : Options} {out : Output}
    (h : lowerSource source o = .ok out) :
    ∃ tokens es s, Token.readAll source = .ok tokens ∧
      Parser.statements source tokens = .ok es ∧
      (run (Document.ofStatements source tokens es) o).run
        (.initial (Document.ofStatements source tokens es)) = .ok out s ∧
      KeepsEffects source o tokens es out s := by
  obtain ⟨tokens, es, read, parsed, lowered⟩ := exists_of_lowerSource h
  have stream := Token.stream_of_readAll read
  have nested := Parser.nested_of_statements read parsed
  let keep (i : Nat) : Bool := (Expr.effectsAll tokens es).any (·.span.start = i)
  have kept : ∀ t ∈ Expr.effectsAll tokens es, keep t.span.start = true := by
    intro t ht
    exact List.any_eq_true.2 ⟨t, ht, decide_eq_true rfl⟩
  have confined : Expr.Confined (keep · = true) 0 (Text.byteLength source.toList)
      (Expr.effectsAll tokens es) := by
    intro i _ _ isKept
    obtain ⟨t, ht, same⟩ := List.any_eq_true.1 isKept
    exact ⟨t, ht, of_decide_eq_true same⟩
  have guarded := Expr.guardedAll_of_confined confined nested stream (Nat.le_refl _)
    (Nat.le_refl _)
  obtain ⟨v, ran, rfl, step⟩ := exists_step_of_lower read parsed guarded lowered
  have sublist : ∀ e ∈ es, ∀ c, e.Within c →
      (c.effects tokens).Sublist (Expr.effectsAll tokens es) := fun e he c hc =>
    hc.effects_sublist.trans (Expr.effects_sublist_effectsAll he)
  have ordered := Expr.effectsAll_ordered nested stream
  refine ⟨tokens, es, _, read, parsed, ran, ?_, ?_, ?_, ?_, ?_, ordered, ?_⟩
  · intro e he x f arguments hc
    cases (nested.nested he).within hc with
    | @call _ _ _ close _ _ _ _ _ closing isClosing =>
        refine ⟨close, (sublist e he _ hc).subset ?_, closing, isClosing⟩
        rw [Expr.effects, closing]
        exact List.mem_append_right _ (List.mem_singleton.2 rfl)
  · intro e he x target value hc
    cases (nested.nested he).within hc with
    | @assign _ _ _ sign _ _ _ joins isAssign =>
        refine ⟨sign, (sublist e he _ hc).subset ?_, joins.alone, isAssign⟩
        rw [Expr.effects, joins.alone]
        exact List.mem_append_left _ (List.mem_append_right _ (List.mem_singleton.2 rfl))
  · intro t ht
    obtain ⟨isToken, kind⟩ := Expr.token_of_mem_effectsAll nested ht
    have shape := stream.shape isToken
    obtain ⟨before, chars, after, stands⟩ := stream.stands t isToken
    rw [stands.toList_text] at shape ⊢
    obtain ⟨c, rfl⟩ := List.length_eq_one_iff.1 (shape.length_eq_one kind)
    have slot := v.marks.mem_slots before c after 0
    rw [Nat.zero_add, stands.start, ← List.singleton_append, ← List.append_assoc,
      ← stands.split] at slot
    have here := (step.rewrites _ (agrees_getD _ "")).kept t.span.start (Nat.zero_le _)
      (Nat.lt_of_lt_of_le stands.start_lt_stop stands.stop_le) (kept t ht)
    exact ⟨_, slot, rfl, here, rfl⟩
  · intro other agrees
    rw [runReading_eq fun visit n pure => ?_]
    · exact ran
    · obtain ⟨node, found, clear⟩ := Document.clear_of_isPure read parsed pure
      exact agrees visit n node found clear
  · refine ⟨_, ?_, rfl, Printer.origins_program stream confined kept nested (Nat.le_refl _)⟩
    rw [Printer.map_program_tracing]
    exact (toList_render rfl step).symm
  · intro e he x l r negated hc t ht u hu
    have both := ordered.sublist (sublist e he _ hc)
    rw [Expr.effects] at both
    exact (List.pairwise_append.1 both).2.2 t ht u hu

/-- A left operand with three effects goes into a variable, and stays in front of the right one
    with its one. -/
theorem lowerSource_keepsEffects_nested :
    lowerSource "f(x = g()) in h(y)" .standard =
        .ok ⟨"(needle = f(x = g()), Array.from(h(y)).includes(needle));", ["needle"]⟩ ∧
      ∃ tokens es s, Token.readAll "f(x = g()) in h(y)" = .ok tokens ∧
        Parser.statements "f(x = g()) in h(y)" tokens = .ok es ∧
        (run (Document.ofStatements "f(x = g()) in h(y)" tokens es) .standard).run
          (.initial (Document.ofStatements "f(x = g()) in h(y)" tokens es)) =
            .ok ⟨"(needle = f(x = g()), Array.from(h(y)).includes(needle));", ["needle"]⟩ s ∧
        KeepsEffects "f(x = g()) in h(y)" .standard tokens es
          ⟨"(needle = f(x = g()), Array.from(h(y)).includes(needle));", ["needle"]⟩ s ∧
        (∀ i ∈ [4, 8, 9, 17], ∃ slot ∈ s.draft.slots, slot.offset = i ∧ slot.removed = false) ∧
        (∃ printed : List Printed,
          printed.map (·.char) =
            "(needle = f(x = g()), Array.from(h(y)).includes(needle));".toList ∧
          Printer.origins (· ∈ [4, 8, 9, 17]) printed = [4, 8, 9, 17]) ∧
        ∃ x l r negated, es = [.membership x l r negated] ∧
          (l.effects tokens).map (·.span.start) = [4, 8, 9] ∧
          (r.effects tokens).map (·.span.start) = [17] ∧
          ∀ t ∈ l.effects tokens, ∀ u ∈ r.effects tokens, t.span.start < u.span.start := by
  obtain ⟨tokens, read, es, parsed, low, one, free, code, effects, isTest, parts⟩ :
      ∃ tokens, Token.readAll "f(x = g()) in h(y)" = .ok tokens ∧
        ∃ es, Parser.statements "f(x = g()) in h(y)" tokens = .ok es ∧
          Expr.levelsAll "f(x = g()) in h(y)" es ≤ maxDepth ∧
          Expr.temporariesAll es = 1 ∧
          ((NameSupply.candidates Rule.needle).filter
            (· ∉ (Document.ofStatements "f(x = g()) in h(y)" tokens es).identifiers)).take 1 =
              ["needle"] ∧
          (Printer.plain "f(x = g()) in h(y)" tokens false (["needle"].getD · "")).program 0 0 es =
            "(needle = f(x = g()), Array.from(h(y)).includes(needle));".toList ∧
          (Expr.effectsAll tokens es).map (·.span.start) = [4, 8, 9, 17] ∧
          es.map Expr.isMembership = [true] ∧
          (es.flatMap Expr.parts).map (fun e => (e.effects tokens).map (·.span.start)) =
            [[4, 8, 9], [17]] := by
    decide +kernel
  have enough := congrArg List.length free
  rw [List.length_take] at enough
  obtain ⟨out, lowered, bindings, printed⟩ := lowerSource_of_enough read parsed
    (lowerSource_ne_tooDeep .standard read parsed low) (by
      rw [one]
      exact Nat.le_trans (Nat.le_of_eq enough.symm) (Nat.min_le_right _ _))
  rw [one, free] at bindings
  have same : out = ⟨"(needle = f(x = g()), Array.from(h(y)).includes(needle));", ["needle"]⟩ := by
    obtain ⟨text, names⟩ := out
    obtain rfl : names = ["needle"] := bindings
    exact congrArg (Output.mk · ["needle"]) (String.toList_injective (printed.trans code))
  rw [same] at lowered
  obtain ⟨tokens', es', s, read', parsed', ran, keeps⟩ := lowerSource_keepsEffects lowered
  cases read.symm.trans read'
  cases parsed.symm.trans parsed'
  refine ⟨lowered, tokens, es, s, read, parsed, ran, keeps, ?_, ?_, ?_⟩
  · intro i mem
    rw [← effects] at mem
    obtain ⟨t, isEffect, rfl⟩ := List.mem_map.1 mem
    obtain ⟨slot, isSlot, offset, kept, -⟩ := keeps.standing t isEffect
    exact ⟨slot, isSlot, offset, kept⟩
  · obtain ⟨printed, chars, -, origins⟩ := keeps.once
    have places : (fun i => (Expr.effectsAll tokens es).any (·.span.start = i)) =
        (· ∈ [4, 8, 9, 17]) := by
      funext i
      rw [← effects, Bool.eq_iff_iff]
      simp
    rw [places, effects] at origins
    exact ⟨printed, chars, origins⟩
  · obtain ⟨e, rfl, isTest⟩ := List.map_eq_singleton_iff.1 isTest
    cases e with
    | membership x l r negated =>
        obtain ⟨left, rest⟩ := List.cons.inj parts
        exact ⟨x, l, r, negated, rfl, left, List.head_eq_of_cons_eq rest,
          keeps.operands _ (List.mem_singleton.2 rfl) x l r negated .self⟩
    | _ => cases isTest

end MembershipLowering
