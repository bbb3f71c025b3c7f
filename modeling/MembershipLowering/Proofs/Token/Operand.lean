import MembershipLowering.Proofs.Token.Beside

/-! # Operands that flow

A text that may be written wherever an operand is expected, whatever is in front of it
(`Operand`), and how such texts are put together: with a sign or an assignment in front, in
parentheses, and with calls behind.
-/

namespace MembershipLowering

open Lexeme

/-- The text is written from one place to another. -/
def Flows (c : Place) (text : List Char) (c' : Place) : Prop :=
  ∃ es, Entry.weave es [] = text ∧ Flow c es c'

namespace TokenKind

/-- The classes of tokens behind which an item between brackets may stand. -/
def opensItem : TokenKind → Bool
  | lparen | lbracket | comma => true
  | _ => false

/-- The classes of brackets with which items end. -/
def closesItems : TokenKind → Bool
  | rparen | rbracket => true
  | _ => false

theorem of_opensItem {a : TokenKind} (h : a.opensItem = true) :
    a.isFixed = true ∧ a.opensOperand = true ∧ ∀ b, a.admits b = true := by
  cases a <;> first | exact ⟨rfl, rfl, fun _ => rfl⟩ | cases h

theorem of_closesItems {a : TokenKind} (h : a.closesItems = true) :
    a.isMark = true ∧ a.endsOperand = true ∧ a ≠ newline ∧
      ∀ depth, a.follow? (depth + 1) true = some (depth, true) := by
  cases a <;> first | exact ⟨rfl, rfl, by decide, fun _ => rfl⟩ | cases h

theorem of_isSeparator {a : TokenKind} (h : a.isSeparator = true) :
    a.isFixed = true ∧ a ≠ this ∧ a.opensOperand = true ∧ ∀ b, a.admits b = true := by
  cases a <;> first | exact ⟨rfl, by decide, rfl, fun _ => rfl⟩ | cases h

end TokenKind

namespace Entry

variable {p e : Entry} {text : String} {gap : List Char}

theorem weave_append (es es' : List Entry) (rest : List Char) :
    weave (es ++ es') rest = weave es (weave es' rest) := by
  induction es with
  | nil => rfl
  | cons e es ih => simp only [List.cons_append, weave, ih]

theorem weave_eq_append (es : List Entry) (rest : List Char) :
    weave es rest = weave es [] ++ rest := by
  induction es with
  | nil => rfl
  | cons e es ih => simp only [weave, ih, List.append_assoc]

/-- An entry behind which an operand may be written. -/
structure Opens (e : Entry) : Prop where
  opens : e.kind.opensOperand = true
  whole : e.isHalf = false

/-- An entry with which an operand ends. -/
structure Closes (e : Entry) : Prop where
  ends : e.kind.endsOperand = true
  settled : e.Settled

theorem Settled.ne_feed (h : e.Settled) (inline : e.kind ≠ .newline) : e.text ≠ "\n" := by
  intro same
  have shape := h.shape
  rw [same] at shape
  exact inline (shape.unique (.sign rfl))

theorem Settled.ne_return (h : e.Settled) (inline : e.kind ≠ .newline) : e.text ≠ "\r" := by
  intro same
  have shape := h.shape
  rw [same] at shape
  exact inline (shape.unique (.sign rfl))

theorem Settled.ne_instanceof (h : e.Settled) (other : e.kind ≠ .relation) :
    e.text ≠ "instanceof" := by
  intro same
  have shape := h.shape
  rw [same] at shape
  exact other shape.kind_of_instanceof

/-- What is no operator is no half of one either, nor the word `instanceof`. -/
theorem Settled.fixed (h : e.Settled) (fixed : e.kind.isFixed = true) :
    e.isHalf = false ∧ e.text ≠ "instanceof" := by
  refine ⟨isHalf_eq_false (fun kind => ?_) h, h.ne_instanceof fun kind => ?_⟩ <;>
    (rw [kind] at fixed; cases fixed)

theorem Settled.opens (h : e.Settled) (fixed : e.kind.isFixed = true)
    (opens : e.kind.opensOperand = true) : e.Opens ∧ e.text ≠ "instanceof" :=
  ⟨⟨opens, (h.fixed fixed).1⟩, (h.fixed fixed).2⟩

theorem Closes.whole (h : e.Closes) : e.isHalf = false := by
  refine isHalf_eq_false (fun kind => ?_) h.settled
  have ends := h.ends
  rw [kind] at ends
  cases ends

theorem Closes.text_ne (h : e.Closes) : e.text ≠ "\r" ∧ e.text ≠ "instanceof" := by
  have ends := h.ends
  refine ⟨h.settled.ne_return fun kind => ?_, h.settled.ne_instanceof fun kind => ?_⟩ <;>
    (rw [kind] at ends; cases ends)

/-- An operand begins behind what opens it. -/
theorem Opens.joins (h : p.Opens) (settled : e.Settled) (begins : e.kind.beginsOperand = true)
    (layout : Layout e.gap) (bare : e.gap = [] → p.text = "instanceof" → e.kind ≠ .number) :
    p.Joins e where
  settled := settled
  gap := layout.toGap _
  whole half := absurd half (Bool.eq_false_iff.1 h.whole)
  admitted _ := TokenKind.admits_of_opens h.opens begins
  apart touches := by
    refine ⟨fun same => settled.ne_feed (fun kind => ?_) same.2,
      fun same => bare touches same.1 same.2⟩
    rw [kind] at begins
    cases begins

/-- Behind an operand there is something that begins none, or a bracket. -/
theorem Closes.joins (h : p.Closes) (settled : e.Settled)
    (other : e.kind.beginsOperand = false ∨ e.kind = .lparen ∨ e.kind = .lbracket)
    (gap : Gap e.text.toList e.gap) : p.Joins e where
  settled := settled
  gap := gap
  whole half := absurd half (Bool.eq_false_iff.1 h.whole)
  admitted _ := TokenKind.admits_of_ends h.ends other
  apart _ := ⟨fun same => h.text_ne.1 same.1, fun same => h.text_ne.2 same.1⟩

/-- Two entries that touch, the first of which is a bracket, a point, a comma or `=`. -/
theorem joins_mark (mark : p.kind.isMark = true) (settled : p.Settled) (settled' : e.Settled)
    (layout : Layout e.gap) (admitted : p.kind.admits e.kind = true) : p.Joins e where
  settled := settled'
  gap := layout.toGap _
  whole half := by
    refine absurd half (Bool.eq_false_iff.1 (isHalf_eq_false (fun kind => ?_) settled))
    rw [kind] at mark
    cases mark
  admitted _ := admitted
  apart _ := by
    refine ⟨fun same => settled.ne_return (fun kind => ?_) same.1,
      fun same => settled.ne_instanceof (fun kind => ?_) same.1⟩ <;>
      (rw [kind] at mark; cases mark)

end Entry

open Entry

theorem Flow.append {c c' c'' : Place} {es es' : List Entry} (h : Flow c es c')
    (h' : Flow c' es' c'') : Flow c (es ++ es') c'' := by
  induction h with
  | nil => exact h'
  | cons joins follows _ ih => exact .cons joins follows (ih h')

namespace Flows

variable {c c' c'' : Place} {text text' : List Char}

theorem refl (c : Place) : Flows c [] c :=
  ⟨[], rfl, .nil⟩

theorem trans (h : Flows c text c') (h' : Flows c' text' c'') : Flows c (text ++ text') c'' := by
  obtain ⟨es, rfl, flow⟩ := h
  obtain ⟨es', rfl, flow'⟩ := h'
  refine ⟨es ++ es', ?_, flow.append flow'⟩
  rw [weave_append, weave_eq_append]

theorem congr (h : Flows c text c') (same : text = text') : Flows c text' c' :=
  same ▸ h

theorem single {gap : List Char} {kind : TokenKind} {text : String} {depth : Nat} {opened : Bool}
    (joins : c.last.Joins ⟨gap, kind, text⟩)
    (follows : kind.follow? c.depth c.opened = some (depth, opened)) :
    Flows c (gap ++ text.toList) ⟨⟨gap, kind, text⟩, depth, opened⟩ := by
  refine ⟨[⟨gap, kind, text⟩], ?_, .cons joins follows .nil⟩
  rw [weave, weave, List.append_nil]

end Flows

/-- What begins an operand, without its gap. -/
theorem Entry.Opens.flows {c : Place} (opens : c.last.Opens) {gap : List Char} {kind : TokenKind}
    {text : String} (settled : Settled ⟨[], kind, text⟩) (layout : Layout gap)
    (begins : kind.beginsOperand = true) (notNumber : kind ≠ .number) {depth : Nat} {opened : Bool}
    (follows : kind.follow? c.depth c.opened = some (depth, opened)) :
    Flows c (gap ++ text.toList) ⟨⟨gap, kind, text⟩, depth, opened⟩ :=
  .single (opens.joins (settled.regap gap) begins layout fun _ _ => notNumber) follows

/-- What begins and ends an operand begins a statement and opens no bracket. -/
theorem TokenKind.follow?_of_operand {kind : TokenKind} (begins : kind.beginsOperand = true)
    (ends : kind.endsOperand = true) (depth : Nat) (opened : Bool) :
    kind.follow? depth opened = some (depth, true) := by
  cases kind <;> first | rfl | exact absurd begins (by decide) | exact absurd ends (by decide)

/-- The text can be written wherever an operand is expected, right behind the word `instanceof`
    only if it is `bare`. It ends with an operand, and opens no brackets. -/
def Operand (inside : Bool) (bare : Prop) (text : List Char) : Prop :=
  ∀ (c : Place) (gap : List Char), c.last.Opens → (inside = true → 0 < c.depth) → Layout gap →
    (gap = [] → c.last.text = "instanceof" → bare) →
      ∃ z : Entry, Flows c (gap ++ text) ⟨z, c.depth, true⟩ ∧ z.Closes

namespace Operand

variable {inside : Bool} {bare bare' : Prop} {text text' : List Char}

theorem mono (h : Operand inside bare text) (imp : bare' → bare) : Operand inside bare' text :=
  fun c gap opens depth layout touches =>
    h c gap opens depth layout fun none same => imp (touches none same)

theorem congr (h : Operand inside bare text) (same : text = text') : Operand inside bare text' :=
  same ▸ h

/-- A name or a literal. -/
theorem entry {kind : TokenKind} {text : String} (settled : Settled ⟨[], kind, text⟩)
    (begins : kind.beginsOperand = true) (ends : kind.endsOperand = true) :
    Operand inside (kind ≠ .number) text.toList := by
  intro c gap opens _ layout bare
  have settled' : Settled ⟨gap, kind, text⟩ := settled.regap gap
  have joins : c.last.Joins ⟨gap, kind, text⟩ := opens.joins settled' begins layout bare
  exact ⟨⟨gap, kind, text⟩, .single joins (TokenKind.follow?_of_operand begins ends _ _), ends,
    settled'⟩

/-- An operand behind an entry that is written as it is. -/
theorem behind (h : Operand inside bare text) {p : Entry} (settled : p.Settled)
    (fixed : p.kind.isFixed = true) (opens : p.kind.opensOperand = true) {gap : List Char}
    (layout : Layout gap) {depth : Nat} (positive : inside = true → 0 < depth) (opened : Bool) :
    ∃ z : Entry, Flows ⟨p, depth, opened⟩ (gap ++ text) ⟨z, depth, true⟩ ∧ z.Closes := by
  obtain ⟨isOpening, notRelation⟩ := settled.opens fixed opens
  exact h ⟨p, depth, opened⟩ gap isOpening positive layout fun _ same => absurd same notRelation

/-- An operand and what ends an operand too. -/
theorem followed (h : Operand inside bare text)
    (later : ∀ (z : Entry) (depth : Nat), z.Closes → (inside = true → 0 < depth) →
      ∃ z' : Entry, Flows ⟨z, depth, true⟩ text' ⟨z', depth, true⟩ ∧ z'.Closes) :
    Operand inside bare (text ++ text') := by
  intro c gap opens depth layout touches
  obtain ⟨z, flows, closes⟩ := h c gap opens depth layout touches
  obtain ⟨z', flows', closes'⟩ := later z c.depth closes depth
  exact ⟨z', (flows.trans flows').congr (List.append_assoc ..), closes'⟩

theorem settled_not : Settled ⟨[], .not, "!"⟩ :=
  ⟨rfl, rfl, by decide, nofun⟩

theorem settled_assign : Settled ⟨[], .assign, "="⟩ :=
  ⟨rfl, rfl, by decide, nofun⟩

theorem settled_lparen : Settled ⟨[], .lparen, "("⟩ :=
  ⟨rfl, rfl, by decide, nofun⟩

theorem settled_comma : Settled ⟨[], .comma, ","⟩ :=
  ⟨rfl, rfl, by decide, nofun⟩

theorem settled_dot : Settled ⟨[], .dot, "."⟩ :=
  ⟨rfl, rfl, by decide, nofun⟩

theorem closes_rparen : Closes ⟨[], .rparen, ")"⟩ :=
  ⟨rfl, rfl, rfl, by decide, nofun⟩

theorem layout_blank : Layout [' '] :=
  .blank rfl .nil

/-- A sign in front of an operand. -/
theorem sign (h : Operand inside bare text) : Operand inside bare' ("!".toList ++ text) := by
  intro c gap opens depth layout _
  have front : Flows c (gap ++ "!".toList) ⟨⟨gap, .not, "!"⟩, c.depth, true⟩ :=
    opens.flows settled_not layout rfl nofun rfl
  obtain ⟨z, flows, closes⟩ := h ⟨⟨gap, .not, "!"⟩, c.depth, true⟩ [] ⟨rfl, rfl⟩ depth .nil
    fun _ same => absurd same (show "!" ≠ "instanceof" by decide)
  exact ⟨z, (front.trans flows).congr (by simp), closes⟩

/-- An operand that is given a name. -/
theorem named (h : Operand inside bare text) {name : String}
    (isName : Settled ⟨[], .identifier, name⟩) :
    Operand inside bare' (name.toList ++ " = ".toList ++ text) := by
  intro c gap opens depth layout _
  have closes : Closes ⟨gap, .identifier, name⟩ := ⟨rfl, isName.regap gap⟩
  have front : Flows c (gap ++ name.toList) ⟨⟨gap, .identifier, name⟩, c.depth, true⟩ :=
    opens.flows isName layout rfl nofun rfl
  have middle : Flows ⟨⟨gap, .identifier, name⟩, c.depth, true⟩ ([' '] ++ "=".toList)
      ⟨⟨[' '], .assign, "="⟩, c.depth, true⟩ :=
    .single (closes.joins (settled_assign.regap _) (.inl rfl) (layout_blank.toGap _)) rfl
  obtain ⟨z, flows, closes⟩ := h.behind (settled_assign.regap [' ']) rfl rfl layout_blank depth true
  exact ⟨z, ((front.trans middle).trans flows).congr (by simp), closes⟩

/-- An operand in parentheses. -/
theorem enclosed (h : Operand inside bare text) {c : Place} {gap : List Char}
    (joins : c.last.Joins ⟨gap, .lparen, "("⟩) :
    Flows c (gap ++ ("(".toList ++ text ++ ")".toList)) ⟨⟨[], .rparen, ")"⟩, c.depth, true⟩ := by
  have front : Flows c (gap ++ "(".toList) ⟨⟨gap, .lparen, "("⟩, c.depth + 1, true⟩ :=
    .single joins rfl
  obtain ⟨z, flows, closes⟩ := h.behind (settled_lparen.regap gap) rfl rfl .nil
    (fun _ => Nat.succ_pos c.depth) true
  have back : Flows ⟨z, c.depth + 1, true⟩ ([] ++ ")".toList)
      ⟨⟨[], .rparen, ")"⟩, c.depth, true⟩ :=
    .single (closes.joins closes_rparen.settled (.inl rfl) .nil) rfl
  exact ((front.trans flows).trans back).congr (by simp)

theorem parens (h : Operand inside bare text) :
    Operand inside bare' ("(".toList ++ text ++ ")".toList) := by
  intro c gap opens _ layout _
  exact ⟨_, h.enclosed (opens.joins (settled_lparen.regap gap) rfl layout fun _ _ => nofun),
    closes_rparen⟩

/-- A method call with one argument behind an operand. -/
theorem call (h : Operand inside bare text) (arg : Operand inside bare' text') {method : String}
    (isName : Settled ⟨[], .identifier, method⟩) :
    Operand inside bare
      (text ++ (".".toList ++ method.toList ++ ("(".toList ++ text' ++ ")".toList))) := by
  refine h.followed fun z depth closes _ => ⟨_, ?_, closes_rparen⟩
  have closesName : Closes ⟨[], .identifier, method⟩ := ⟨rfl, isName⟩
  have point : Flows ⟨z, depth, true⟩ ([] ++ ".".toList) ⟨⟨[], .dot, "."⟩, depth, true⟩ :=
    .single (closes.joins settled_dot (.inl rfl) .nil) rfl
  have name : Flows ⟨⟨[], .dot, "."⟩, depth, true⟩ ([] ++ method.toList)
      ⟨⟨[], .identifier, method⟩, depth, true⟩ :=
    .single (joins_mark rfl settled_dot isName .nil rfl) rfl
  have argument : Flows ⟨⟨[], .identifier, method⟩, depth, true⟩
      ([] ++ ("(".toList ++ text' ++ ")".toList)) ⟨⟨[], .rparen, ")"⟩, depth, true⟩ :=
    arg.enclosed (closesName.joins settled_lparen (.inr (.inl rfl)) .nil)
  exact ((point.trans name).trans argument).congr (by simp)

/-- Two operands in parentheses, with a comma between them. -/
theorem sequence (h : Operand inside bare text) (h' : Operand inside bare' text') {bare'' : Prop} :
    Operand inside bare'' ("(".toList ++ text ++ ", ".toList ++ text' ++ ")".toList) := by
  intro c gap opens _ layout _
  have front : Flows c (gap ++ "(".toList) ⟨⟨gap, .lparen, "("⟩, c.depth + 1, true⟩ :=
    opens.flows settled_lparen layout rfl nofun rfl
  obtain ⟨y, flows, closes⟩ := h.behind (settled_lparen.regap gap) rfl rfl .nil
    (fun _ => Nat.succ_pos c.depth) true
  have middle : Flows ⟨y, c.depth + 1, true⟩ ([] ++ ",".toList)
      ⟨⟨[], .comma, ","⟩, c.depth + 1, true⟩ :=
    .single (closes.joins settled_comma (.inl rfl) .nil) rfl
  obtain ⟨z, flows', closes'⟩ := h'.behind settled_comma rfl rfl layout_blank
    (fun _ => Nat.succ_pos c.depth) true
  have back : Flows ⟨z, c.depth + 1, true⟩ ([] ++ ")".toList)
      ⟨⟨[], .rparen, ")"⟩, c.depth, true⟩ :=
    .single (closes'.joins closes_rparen.settled (.inl rfl) .nil) rfl
  exact ⟨_, ((((front.trans flows).trans middle).trans flows').trans back).congr (by simp),
    closes_rparen⟩

end Operand

end MembershipLowering
