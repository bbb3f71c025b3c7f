import MembershipLowering.Proofs.Expr.Depth
import MembershipLowering.Proofs.Lowering.Outcome
import MembershipLowering.Proofs.Lowering.Reading

/-! # One limit, two measures

Reading and lowering have the same limit, but they do not measure the same thing. Reading
counts how deeply its readers are nested, lowering counts the levels of the tree. The two
differ by the first parts of expressions, which reading takes up in a loop: a sum of many
operands is read at depth two, but its tree has as many levels as it has operands.

So a source that has been read may still be too deep to be lowered, though only by its first
parts (`lowerSource_limit`).
-/

namespace MembershipLowering

/-- In a document that was read from a source, as many steps as the highest statement is high
    tell whether a node is pure. -/
theorem Document.isPureWithin_eq {source : String} {tokens : List Token} {es : List Expr}
    {fuel : Nat} (enough : Expr.heightAll es ≤ fuel) (positive : 0 < fuel) (n : NodeId) :
    (ofStatements source tokens es).arena.isPureWithin fuel n =
      (ofStatements source tokens es).arena.isPure n := by
  obtain ⟨fuel, rfl⟩ := Nat.exists_eq_succ_of_ne_zero (Nat.ne_of_gt positive)
  rw [Arena.isPure, size_ofStatements]
  cases found : (ofStatements source tokens es).arena.get? n with
  | none => simp only [Arena.isPureWithin, found]
  | some node =>
      rcases cases_of_get? found with ⟨-, rfl⟩ | ⟨-, e, he, c, place, within, rfl, -, holds⟩
      · simp only [Arena.isPureWithin, found]
      · have high := Nat.le_trans within.height_le (Expr.height_le_heightAll he)
        have whole := holds.isPure
        rw [Arena.isPure, size_ofStatements] at whole
        rw [whole, holds.isPureWithin (Nat.le_trans high enough)]

/-- Every statement that is read stays within the limit but for its first parts. If none is
    higher than the limit, it is not too deep for lowering, and no test for purity goes further
    down. If one has more levels than the limit, it is not lowered. -/
theorem lowerSource_limit {source : String} (o : Options) {tokens : List Token} {es : List Expr}
    (read : Token.readAll source = .ok tokens)
    (parsed : Parser.statements source tokens = .ok es) :
    (∀ e ∈ es, e.depth ≤ maxDepth ∧ e.height ≤ maxDepth + e.leads) ∧
      ((∀ e ∈ es, e.height ≤ maxDepth) →
        (∀ n, lowerSource source o ≠ .error (.tooDeep n)) ∧
          ∀ n, (Document.ofStatements source tokens es).arena.isPureWithin maxDepth n =
            (Document.ofStatements source tokens es).arena.isPure n) ∧
      ((∃ e ∈ es, maxDepth < e.levels source) →
        (∃ n, lowerSource source o = .error (.tooDeep n)) ∨
          lowerSource source o = .error (.namesExhausted Rule.needle)) := by
  have ends := Document.ends_lower o read parsed
  rw [← lowerSource_of_statements o read parsed] at ends
  refine ⟨fun e he => ?_, fun low => ⟨?_, ?_⟩, fun ⟨e, he, high⟩ => ?_⟩
  · have shallow := Nat.le_trans (Expr.depth_le_depthAll he) (Parser.depth_of_statements parsed)
    exact ⟨shallow, Nat.le_trans e.height_le (Nat.add_le_add_right shallow _)⟩
  · exact lowerSource_ne_tooDeep o read parsed
      (Nat.le_trans (Expr.levelsAll_le_heightAll source es).1 (Expr.heightAll_le_of_forall low))
  · exact Document.isPureWithin_eq (Expr.heightAll_le_of_forall low) (by decide)
  · have deep := Nat.lt_of_lt_of_le high (Expr.levels_le_levelsAll source he)
    generalize lowerSource source o = result at ends
    cases ends with
    | done shallow => exact absurd deep shallow
    | tooDeep => exact .inl ⟨_, rfl⟩
    | exhausted => exact .inr rfl

theorem lowerSource_limit_leads :
    ∃ tokens es, Token.readAll "a.b + c + d[e]" = .ok tokens ∧
      Parser.statements "a.b + c + d[e]" tokens = .ok es ∧
      (∀ e ∈ es, e.height ≤ maxDepth ∧ e.depth = 3 ∧ e.leads = 3) ∧
      (∀ e ∈ es, e.depth ≤ maxDepth ∧ e.height ≤ maxDepth + e.leads) ∧
      ∀ n, lowerSource "a.b + c + d[e]" .standard ≠ .error (.tooDeep n) := by
  obtain ⟨tokens, read, es, parsed, measures⟩ :
      ∃ tokens, Token.readAll "a.b + c + d[e]" = .ok tokens ∧
        ∃ es, Parser.statements "a.b + c + d[e]" tokens = .ok es ∧
          ∀ e ∈ es, e.height ≤ maxDepth ∧ e.depth = 3 ∧ e.leads = 3 := by
    decide +kernel
  obtain ⟨bounds, low, -⟩ := lowerSource_limit .standard read parsed
  exact ⟨tokens, es, read, parsed, measures, bounds, (low fun e he => (measures e he).1).1⟩

/-- Two hundred levels of signs and one of a member. -/
def tallText : String :=
  String.join (List.replicate 199 "!" ++ ["a.b"])

/-- A source that is read, but higher than the limit and too deep for lowering. -/
theorem tooDeep_tallText :
    ∃ tokens es, Token.readAll tallText = .ok tokens ∧
      Parser.statements tallText tokens = .ok es ∧ (∃ e ∈ es, maxDepth < e.height) ∧
      ∀ o, ∃ n, lowerSource tallText o = .error (.tooDeep n) := by
  obtain ⟨tokens, read, es, parsed, high, tall, none⟩ :
      ∃ tokens, Token.readAll tallText = .ok tokens ∧
        ∃ es, Parser.statements tallText tokens = .ok es ∧
          maxDepth < Expr.levelsAll tallText es ∧ (∃ e ∈ es, maxDepth < e.height) ∧
          Expr.temporariesAll es = 0 := by
    decide +kernel
  refine ⟨tokens, es, read, parsed, tall, fun o => ?_⟩
  have ends := Document.ends_lower o read parsed
  rw [← lowerSource_of_statements o read parsed, none] at ends
  generalize lowerSource tallText o = result at ends
  cases ends with
  | done shallow => exact absurd high shallow
  | tooDeep => exact ⟨_, rfl⟩
  | exhausted none => cases none

end MembershipLowering
