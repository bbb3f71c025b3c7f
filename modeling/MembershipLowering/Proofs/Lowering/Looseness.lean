import MembershipLowering.Proofs.Arena.Rooted
import MembershipLowering.Proofs.Lowering.Mirroring

/-! # Trusting receivers

The option to trust receivers only leaves adaptations out. Lowered with the option and without
it, a source gives two readings of one sketch (`lowerSource_sketch`): the lowered code with a pair
of marks around the receiver of every membership test in place of what adapts it. Without the
option the marks read `Array.from(` and `)`, with it `(` and `)` around a receiver that no call
can be put behind, and nothing around any other. Around an array literal they read nothing
either way.

    x in [y] and z in (a or b)     [y].includes(x) && Array.from((a || b)).includes(z);
                                   [y].includes(x) && ((a || b)).includes(z);
-/

namespace MembershipLowering

/-- A character of lowered code, or an end of what adapts a receiver of some form. -/
inductive Stroke where
  | char (c : Char)
  | opens (form : ReceiverForm)
  | closes (form : ReceiverForm)
  deriving DecidableEq, Repr

/-- How a stroke is read. -/
def Stroke.chars (loose : Bool) : Stroke → List Char
  | .char c => [c]
  | .opens form =>
    if form = .arrayLiteral then []
    else if loose then (if form = .other then "(".toList else [])
    else "Array.from(".toList
  | .closes form =>
    if form = .arrayLiteral then []
    else if loose then (if form = .other then ")".toList else [])
    else ")".toList

namespace Printer

/-- The printer of strokes, which only marks receivers. -/
def strokes (source : String) (tokens : List Token) (names : Nat → String) : Printer Stroke :=
  ⟨source, tokens, names, fun start stop => (Text.excerpt start stop source.toList).map .char,
    fun text => text.toList.map .char, fun form => [.opens form], fun form => [.closes form]⟩

theorem flatMap_chars_char (loose : Bool) (cs : List Char) :
    (cs.map Stroke.char).flatMap (Stroke.chars loose) = cs := by
  rw [List.flatMap_map]
  exact List.flatMap_singleton' cs

/-- The marks are read as what adapts the receiver. -/
theorem chars_opens (loose : Bool) (form : ReceiverForm) :
    Stroke.chars loose (.opens form) = (Adaptation.decide form loose).front String.toList := by
  cases loose <;> cases form <;> rfl

theorem chars_closes (loose : Bool) (form : ReceiverForm) :
    Stroke.chars loose (.closes form) = (Adaptation.decide form loose).back String.toList := by
  cases loose <;> cases form <;> rfl

/-- The strokes one behind the other are the plain text. -/
theorem flatMap_strokes (source : String) (tokens : List Token) (loose : Bool)
    (names : Nat → String) :
    (strokes source tokens names).flatMap (Stroke.chars loose) =
      plain source tokens loose names := by
  simp only [flatMap, strokes, flatMap_chars_char, List.flatMap_singleton, chars_opens,
    chars_closes]
  rfl

end Printer

/-- With the option to trust receivers and without it a source is refused alike, or it is lowered
    with the same names to two readings of one sketch. -/
theorem lowerSource_sketch (source : String) :
    (∃ e, lowerSource source ⟨false⟩ = .error e ∧ lowerSource source ⟨true⟩ = .error e) ∨
      ∃ strict loose tokens es,
        lowerSource source ⟨false⟩ = .ok strict ∧ lowerSource source ⟨true⟩ = .ok loose ∧
        loose.bindings = strict.bindings ∧
        Token.readAll source = .ok tokens ∧ Parser.statements source tokens = .ok es ∧
        let sketch :=
          (Printer.strokes source tokens (strict.bindings.getD · "")).program 0 0 es
        strict.code.toList = sketch.flatMap (Stroke.chars false) ∧
          loose.code.toList = sketch.flatMap (Stroke.chars true) := by
  have both : ∀ d, Document.parse source = .ok d →
      ∀ o, lowerSource source o = d.lower o := by
    intro d parsed o
    rw [lowerSource, parsed]
  cases parsed : Document.parse source with
  | error e => exact .inl ⟨.parse e, by rw [lowerSource, parsed], by rw [lowerSource, parsed]⟩
  | ok d =>
      rw [both d parsed, both d parsed]
      refine (d.lower_options_cases ⟨false⟩ ⟨true⟩).imp id ?_
      rintro ⟨strict, loose, ran, ran', bindings⟩
      obtain ⟨tokens, es, read, accepted, rfl⟩ := Document.exists_of_parse parsed
      have agrees := Lowering.agrees_getD strict.bindings ""
      refine ⟨strict, loose, tokens, es, ran, ran', bindings, read, accepted, ?_, ?_⟩
      · rw [← Printer.flatMap_program, Printer.flatMap_strokes]
        exact (Lowering.toList_code_of_agrees read accepted ran agrees).1
      · rw [← Printer.flatMap_program, Printer.flatMap_strokes]
        exact (Lowering.toList_code_of_agrees read accepted ran' (bindings ▸ agrees)).1

/-- A receiver that no call can be put behind keeps its parentheses, an array literal has none. -/
example : lowerSource "x in [y] and z in (a or b)" ⟨false⟩ =
      .ok ⟨"[y].includes(x) && Array.from((a || b)).includes(z);", []⟩ ∧
    lowerSource "x in [y] and z in (a or b)" ⟨true⟩ =
      .ok ⟨"[y].includes(x) && ((a || b)).includes(z);", []⟩ := by decide +kernel

end MembershipLowering
