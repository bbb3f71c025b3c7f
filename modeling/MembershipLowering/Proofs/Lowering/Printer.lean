import MembershipLowering.Proofs.Expr.Nesting
import MembershipLowering.Proofs.Expr.Traits

/-! # Printing trees

What lowering is to write, as plain recursion over the tree: no draft, no offsets that
edits might move, no rules that wait. A `Printer` copies the source between the parts of
an expression and prints the parts one after the other.

    x in list        Array.from(list).includes(x)
    f() in [g()]     (needle = f(), [g()].includes(needle))

Temporaries are numbered in the order in which the tests that need them are met: the test
itself, then its left operand, then its right one. `names` gives the name of each.
-/

namespace MembershipLowering

/-- `@` in front of a name that touches it. -/
def Expr.isShorthand (source : String) (name : Span) : Expr → Bool
  | .atom x .this => x.content.text source = "@" && x.content.stop = name.start
  | _ => false

/-- A shorthand is a bare `@` right in front of the name. -/
theorem Expr.exists_of_isShorthand {source : String} {name : Span} {e : Expr}
    (h : e.isShorthand source name = true) :
    ∃ x, e = .atom x .this ∧ x.content.text source = "@" ∧ x.content.stop = name.start := by
  cases e with
  | atom x a =>
      cases a <;> simp only [Expr.isShorthand, Bool.and_eq_true, decide_eq_true_eq] at h
      · cases h
      · exact ⟨x, rfl, h.1, h.2⟩
      all_goals cases h
  | _ => cases h

/-- With room in front of the name there is no shorthand. -/
theorem Expr.not_isShorthand {source : String} {name : Span} {e : Expr}
    (proper : e.extent.Proper source) (apart : e.outer.stop < name.start) :
    ¬e.isShorthand source name = true := by
  intro short
  obtain ⟨x, rfl, -, stops⟩ := exists_of_isShorthand short
  have closes : x.content.stop ≤ x.outer.stop := proper.closes
  have apart : x.outer.stop < name.start := apart
  omega

namespace Adaptation

variable {α : Type} (a : Adaptation) (write : String → List α)

/-- What is put in front of the receiver. -/
def front : List α :=
  if a.arrayFrom then write (arrayFromText ++ "(") else if a.parens then write "(" else []

/-- What is put behind it. -/
def back : List α :=
  if a.arrayFrom || a.parens then write ")" else []

/-- All that is ever written around receivers. -/
def texts : List String :=
  [arrayFromText ++ "(", "(", ")"]

theorem front_cases : a.front write = [] ∨ ∃ text ∈ texts, a.front write = write text := by
  unfold front
  split
  · exact .inr ⟨_, by simp [texts], rfl⟩
  · split
    · exact .inr ⟨_, by simp [texts], rfl⟩
    · exact .inl rfl

theorem back_cases : a.back write = [] ∨ ∃ text ∈ texts, a.back write = write text := by
  unfold back
  split
  · exact .inr ⟨_, by simp [texts], rfl⟩
  · exact .inl rfl

theorem wrap_eq (code : String) :
    (a.wrap code).toList = a.front String.toList ++ code.toList ++ a.back String.toList := by
  obtain ⟨arrayFrom, parens⟩ := a
  cases arrayFrom <;> cases parens <;> simp [wrap, front, back]

theorem flatMap_front {β : Type} (f : α → List β) :
    (a.front write).flatMap f = a.front fun text => (write text).flatMap f := by
  simp only [front, apply_ite (List.flatMap f)]
  rfl

theorem flatMap_back {β : Type} (f : α → List β) :
    (a.back write).flatMap f = a.back fun text => (write text).flatMap f := by
  simp only [back, apply_ite (List.flatMap f)]
  rfl

end Adaptation

/-- What printing needs to know besides the tree. The text is a list of any items. -/
structure Printer (α : Type) where
  source : String
  tokens : List Token
  /-- The names of the temporaries. -/
  names : Nat → String
  /-- The source from `start` to `stop`. -/
  copy : (start stop : Nat) → List α
  /-- A text that is not in the source. -/
  write : String → List α
  /-- What is put in front of a receiver, by its form. -/
  front : ReceiverForm → List α
  /-- What is put behind it. -/
  back : ReceiverForm → List α

namespace Printer

/-- The printer that writes what adapts a receiver, which is trusted to be an array with `loose`. -/
def adapting {α : Type} (source : String) (tokens : List Token) (loose : Bool)
    (names : Nat → String) (copy : (start stop : Nat) → List α) (write : String → List α) :
    Printer α :=
  ⟨source, tokens, names, copy, write, fun form => (Adaptation.decide form loose).front write,
    fun form => (Adaptation.decide form loose).back write⟩

/-- The printer of characters. -/
def plain (source : String) (tokens : List Token) (loose : Bool) (names : Nat → String) :
    Printer Char :=
  adapting source tokens loose names (fun start stop => Text.excerpt start stop source.toList)
    String.toList

variable {α : Type} (p : Printer α)

/-- A text in place of the content, in the parentheses of the source. -/
def around (x : Extent) (text : List α) : List α :=
  p.copy x.outer.start x.content.start ++ text ++ p.copy x.content.stop x.outer.stop

/-- What stands between two operands, with the operator written the JavaScript way. -/
def operatorGap (start stop : Nat) (op : BinaryOperator) : List α :=
  match Token.within p.tokens start stop with
  | [t] => p.copy start t.span.start ++ p.write op.javaScript ++ p.copy t.span.stop stop
  | _ => p.copy start stop

/-- The text of a receiver with what has to be put around it. -/
def adapt (receiver : Expr) (text : List α) : List α :=
  p.front receiver.form ++ text ++ p.back receiver.form

mutual

/-- The content of an expression, `k` temporaries having been named before. A membership
    test is negated once more if `signed` is set. -/
def body (k : Nat) (signed : Bool) : Expr → List α
  | .atom x .this =>
    if x.content.text p.source = "@" then p.write "this" else p.copy x.content.start x.content.stop
  | .atom x _ => p.copy x.content.start x.content.stop
  | .array x es => bodyAll k x.content.start x.content.stop es
  | .call x f es =>
    p.around f.extent (body k false f) ++
      bodyAll (k + f.temporaries) f.outer.stop x.content.stop es
  | .member _ o name =>
    if o.isShorthand p.source name then p.write "this." ++ p.copy name.start name.stop
    else p.around o.extent (body k false o) ++ p.copy o.outer.stop name.stop
  | .index x o i =>
    p.around o.extent (body k false o) ++ p.copy o.outer.stop i.outer.start ++
      p.around i.extent (body (k + o.temporaries) false i) ++ p.copy i.outer.stop x.content.stop
  | .not _ sign e =>
    if e.isMembership then p.around e.extent (body k true e)
    else if sign.text p.source = "!" then
      p.copy sign.start e.outer.start ++ p.around e.extent (body k false e)
    else p.write "!" ++ p.around e.extent (body k false e)
  | .binary _ l op r =>
    p.around l.extent (body k false l) ++ p.operatorGap l.outer.stop r.outer.start op ++
      p.around r.extent (body (k + l.temporaries) false r)
  | .assign _ t v =>
    p.around t.extent (body k false t) ++ p.copy t.outer.stop v.outer.start ++
      p.around v.extent (body (k + t.temporaries) false v)
  | .membership _ l r negated =>
    let sign := if negated ^^ signed then p.write "!" else []
    if l.isPure && r.isPure then
      sign ++ p.adapt r (p.around r.extent (body k false r)) ++ p.write ".includes(" ++
        p.around l.extent (body k false l) ++ p.write ")"
    else
      let name := p.write (p.names k)
      p.write "(" ++ p.around l.extent (name ++ p.write " = " ++ body (k + 1) false l) ++
        p.write ", " ++ sign ++
        p.adapt r (p.around r.extent (body (k + 1 + l.temporaries) false r)) ++
        p.write ".includes(" ++ name ++ p.write "))"

/-- Expressions in the source from `start` to `stop`. -/
def bodyAll (k : Nat) (start stop : Nat) : List Expr → List α
  | [] => p.copy start stop
  | e :: es =>
    p.copy start e.outer.start ++ p.around e.extent (body k false e) ++
      bodyAll (k + e.temporaries) e.outer.stop stop es

end

/-- What closes a statement that ends at an offset, unless the first token behind it is a
    semicolon. -/
def semicolon (offset : Nat) : List α :=
  if (p.tokens.find? (offset ≤ ·.span.start)).any (·.kind = .semicolon) then []
  else p.write ";"

/-- Statements in the source from `start` on. -/
def program (k : Nat) (start : Nat) : List Expr → List α
  | [] => p.copy start (Text.byteLength p.source.toList)
  | e :: es =>
    p.copy start e.outer.start ++ p.around e.extent (p.body k false e) ++
      p.semicolon e.outer.stop ++ program (k + e.temporaries) e.outer.stop es

/-- Source in front of statements is copied along with what stands before the first of them. -/
theorem copy_program {source : String} {tokens : List Token} {loose : Bool}
    {names : Nat → String} {start mid : Nat} {es : List Expr} (k : Nat) (h₁ : start ≤ mid)
    (h₂ : ∀ e ∈ es.head?, mid ≤ e.outer.start)
    (h₃ : es = [] → mid ≤ Text.byteLength source.toList) :
    Text.excerpt start mid source.toList ++ (plain source tokens loose names).program k mid es =
      (plain source tokens loose names).program k start es := by
  cases es with
  | nil => exact Text.excerpt_append_excerpt h₁ (h₃ rfl) _
  | cons e es =>
      simp only [program, ← List.append_assoc]
      congr 3
      exact Text.excerpt_append_excerpt h₁ (h₂ e rfl) _

section FlatMap

variable {β : Type} (f : α → List β)

/-- The printer that prints some items in place of every item. -/
def flatMap : Printer β :=
  ⟨p.source, p.tokens, p.names, fun start stop => (p.copy start stop).flatMap f,
    fun text => (p.write text).flatMap f, fun form => (p.front form).flatMap f,
    fun form => (p.back form).flatMap f⟩

theorem flatMap_adapting (source : String) (tokens : List Token) (loose : Bool)
    (names : Nat → String) (copy : (start stop : Nat) → List α) (write : String → List α) :
    (adapting source tokens loose names copy write).flatMap f =
      adapting source tokens loose names (fun start stop => (copy start stop).flatMap f)
        fun text => (write text).flatMap f := by
  simp only [flatMap, adapting, Adaptation.flatMap_front, Adaptation.flatMap_back]

@[simp] theorem flatMap_names (k : Nat) : (p.flatMap f).names k = p.names k := rfl

@[simp] theorem flatMap_copy (start stop : Nat) :
    (p.flatMap f).copy start stop = (p.copy start stop).flatMap f := rfl

@[simp] theorem flatMap_write (text : String) :
    (p.flatMap f).write text = (p.write text).flatMap f := rfl

theorem flatMap_around (x : Extent) (text : List α) :
    (p.flatMap f).around x (text.flatMap f) = (p.around x text).flatMap f := by
  simp only [around, flatMap, List.flatMap_append]

theorem flatMap_operatorGap (start stop : Nat) (op : BinaryOperator) :
    (p.flatMap f).operatorGap start stop op = (p.operatorGap start stop op).flatMap f := by
  simp only [operatorGap, flatMap]
  split <;> simp only [List.flatMap_append]

theorem flatMap_adapt (receiver : Expr) (text : List α) :
    (p.flatMap f).adapt receiver (text.flatMap f) = (p.adapt receiver text).flatMap f := by
  simp only [adapt, flatMap, List.flatMap_append]

mutual

theorem flatMap_body (k : Nat) (signed : Bool) (e : Expr) :
    (p.flatMap f).body k signed e = (p.body k signed e).flatMap f := by
  cases e with
  | atom x a =>
      cases a with
      | this =>
          simp only [body, flatMap, apply_ite (List.flatMap f)]
          rfl
      | _ => rfl
  | array x es => exact flatMap_bodyAll k _ _ es
  | call x g es =>
      simp only [body, flatMap_body, flatMap_bodyAll, flatMap_around, List.flatMap_append]
  | member x o name | not x sign e =>
      simp only [body, flatMap_body, flatMap_around, apply_ite (List.flatMap f),
        List.flatMap_append]
      rfl
  | index x l r | assign x l r =>
      simp only [body, flatMap_body, flatMap_around, List.flatMap_append]
      rfl
  | binary x l op r =>
      simp only [body, flatMap_body, flatMap_around, flatMap_operatorGap, List.flatMap_append]
  | membership x l r negated =>
      have sign : (if (negated ^^ signed) = true then (p.write "!").flatMap f else []) =
          (if (negated ^^ signed) = true then p.write "!" else []).flatMap f := by
        split <;> rfl
      by_cases pure : (l.isPure && r.isPure) = true
      · simp only [body, if_pos pure, sign, flatMap_body, flatMap_write, flatMap_around,
          flatMap_adapt, List.flatMap_append]
      · simp only [body, if_neg pure, sign, flatMap_body, flatMap_write, flatMap_names,
          flatMap_around, flatMap_adapt, ← List.flatMap_append]

theorem flatMap_bodyAll (k start stop : Nat) (es : List Expr) :
    (p.flatMap f).bodyAll k start stop es = (p.bodyAll k start stop es).flatMap f := by
  cases es with
  | nil => rfl
  | cons e es =>
      simp only [bodyAll, flatMap_body, flatMap_bodyAll, flatMap_around, List.flatMap_append]
      rfl

end

theorem flatMap_program (k start : Nat) (es : List Expr) :
    (p.flatMap f).program k start es = (p.program k start es).flatMap f := by
  induction es generalizing k start with
  | nil => rfl
  | cons e es ih =>
      have semicolon : (p.flatMap f).semicolon e.outer.stop =
          (p.semicolon e.outer.stop).flatMap f := by
        simp only [Printer.semicolon, apply_ite (List.flatMap f)]
        rfl
      simp only [program, ih, semicolon, flatMap_body, flatMap_around, flatMap_copy,
        List.flatMap_append]

end FlatMap

end Printer

end MembershipLowering
