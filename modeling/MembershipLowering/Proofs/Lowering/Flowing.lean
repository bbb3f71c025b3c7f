import MembershipLowering.Proofs.Lowering.Approach

/-! # Printed code flows

What the printer prints for an expression, membership tests included, is an operand that flows
(`Derives.flowing`).
-/

namespace MembershipLowering

open Token Lexeme

namespace Printer

/-- An expression in its parentheses, with a name in front of it that it is assigned to. -/
def lead {α : Type} (p : Printer α) (k : Nat) (signed : Bool) (name? : Option String) (e : Expr) :
    List α :=
  p.around e.extent (name?.elim [] (fun name => p.write name ++ p.write " = ") ++ p.body k signed e)

variable {source : String} {tokens : List Token} {loose : Bool} {names : Nat → String}

theorem lead_parenthesize {start stop : Nat} {e : Expr} (k : Nat) (signed : Bool)
    (name? : Option String) (proper : e.extent.Proper source) (h₁ : start ≤ e.outer.start)
    (h₂ : e.outer.stop ≤ stop) :
    (plain source tokens loose names).lead k signed name? (e.parenthesize start stop) =
      Text.excerpt start e.outer.start source.toList ++
        (plain source tokens loose names).lead k signed name? e ++
          Text.excerpt e.outer.stop stop source.toList := by
  rw [lead, lead, body_parenthesize, around_parenthesize _ proper h₁ h₂]

end Printer

namespace Parser

variable {source : String} {inside : Bool} {tokens seg seg' : List Token} {t w : Token}
  {level stop : Nat} {e : Expr} {es : List Expr} {loose : Bool} {names : Nat → String}

/-- Whatever name is put in front of it, the expression is printed as an operand. -/
def Flowing (source : String) (tokens : List Token) (loose : Bool) (names : Nat → String)
    (inside : Bool) (level : Nat) (seg : List Token) (e : Expr) : Prop :=
  ∀ (k : Nat) (signed : Bool) (name? : Option String),
    (∀ name ∈ name?, Entry.Settled ⟨[], .identifier, name⟩) →
      Operand inside (Bare level seg)
        ((Printer.plain source tokens loose names).lead k signed name? e)

/-- Items behind a bracket or a comma are printed up to the bracket that closes them. -/
def FlowingItems (source : String) (tokens : List Token) (loose : Bool) (names : Nat → String)
    (seg : List Token) (es : List Expr) (close : Token) : Prop :=
  ∀ (k stop : Nat) (p : Entry) (depth : Nat), p.kind.opensItem = true → p.Settled →
    (∀ u ∈ seg.head?, Beside source p.text stop u) →
      ∃ z : Entry, Flows ⟨p, depth + 1, true⟩
        ((Printer.plain source tokens loose names).bodyAll k stop close.span.stop es)
        ⟨z, depth, true⟩ ∧ z.Closes

/-- An expression with which another one begins. -/
theorem Flowing.first {level' : Nat}
    (h : Flowing source tokens loose names inside level' seg' e) (front : seg' <+: seg)
    (hle : level ≤ level') (k : Nat) :
    Operand inside (Bare level seg) ((Printer.plain source tokens loose names).whole k e) :=
  (h k false none nofun).mono fun bare => bare.first front hle

/-- Without parentheses it is enough to look at the content. -/
theorem flowing_of_body {s : Span} (bare : e.extent = .bare s)
    (h : ∀ k signed, Operand inside (Bare level seg)
      ((Printer.plain source tokens loose names).body k signed e)) :
    Flowing source tokens loose names inside level seg e := by
  intro k signed name? isName
  rw [Printer.lead, bare, Printer.around_bare]
  cases name? with
  | none => exact h k signed
  | some name => exact (h k signed).named (isName name rfl)

theorem head_significant (reaches : Reaches inside t seg) (inline : t.kind ≠ .newline)
    (back : List Token) : (significant (seg ++ back)).head? = some t := by
  rw [significant_append, reaches.significant_eq inline]
  rfl

theorem settled_this : Entry.Settled ⟨[], .this, "this"⟩ :=
  ⟨rfl, rfl, by decide, nofun⟩

theorem isFixed_of_atom? {kind : TokenKind} {a : Atom} (h : atom? kind = some a) :
    kind.isFixed = true := by
  cases kind <;> first | rfl | cases h

/-- A part without parts. -/
theorem operand_atom {a : Atom} (laced : Laced source tokens) (part : seg <:+: tokens)
    (reaches : Reaches inside t seg) (known : atom? t.kind = some a) (k : Nat) (signed : Bool) :
    Operand inside (Bare level seg)
      ((Printer.plain source tokens loose names).body k signed (.atom (.bare t.span) a)) := by
  have among : t ∈ tokens := part.subset reaches.mem
  obtain ⟨begins, ends, -, -, -, isThis⟩ := kind_of_atom? known
  have text := laced.stream.toList_text among
  have first := head_significant reaches (ne_newline_of_atom? known) []
  rw [List.append_nil] at first
  have notNumber : Bare level seg → t.kind ≠ .number := fun bare => bare.2 t first
  have copied : (t.kind = .this → t.text source ≠ "@") →
      Operand inside (Bare level seg) (Text.excerpt t.span.start t.span.stop source.toList) := by
    intro notAt
    have settled := (laced.read t among).settled_fixed rfl (isFixed_of_atom? known) notAt []
    exact text ▸ (Operand.entry settled begins ends).mono notNumber
  by_cases isAt : t.text source = "@"
  · have kind : t.kind = .this := by
      have shape := (laced.read t among).shape
      rw [isAt] at shape
      exact shape.kind_of_at
    rw [isThis kind, Printer.body]
    have this : Operand inside (Bare level seg) "this".toList :=
      (Operand.entry settled_this rfl rfl).mono fun _ => TokenKind.noConfusion
    exact this.congr (if_pos isAt).symm
  · have copy := copied fun _ => isAt
    cases a with
    | this =>
        rw [Printer.body]
        exact copy.congr (if_neg isAt).symm
    | _ => exact copy

/-- A name that touches `@`. -/
theorem operand_shorthand {name : Token} {a : Atom} (laced : Laced source tokens)
    (part : seg ++ [name] <:+: tokens) (reaches : Reaches inside t seg)
    (known : atom? t.kind = some a) (sign : t.text source = "@") (isName : name.kind = .identifier)
    (touches : name.span.start = t.span.stop) (k : Nat) (signed : Bool) :
    Operand inside (Bare level (seg ++ [name]))
      ((Printer.plain source tokens loose names).body k signed
        (.member (.bare ⟨t.span.start, name.span.stop⟩) (.atom (.bare t.span) a) name.span)) := by
  have among : t ∈ tokens := part.subset (List.mem_append_left _ reaches.mem)
  have amongName : name ∈ tokens := part.subset (List.mem_append_right _ (List.mem_singleton.2 rfl))
  have kind : t.kind = .this := by
    have shape := (laced.read t among).shape
    rw [sign] at shape
    exact shape.kind_of_at
  obtain rfl : a = .this := (kind_of_atom? known).2.2.2.2.2 kind
  have isShort : Expr.isShorthand source name.span (.atom (.bare t.span) .this) = true := by
    rw [Expr.isShorthand, Bool.and_eq_true]
    exact ⟨decide_eq_true sign, decide_eq_true touches.symm⟩
  have settled : Entry.Settled ⟨[], .identifier, name.text source⟩ :=
    (laced.read name amongName).settled_fixed isName rfl (fun same => by cases same) []
  have this : Operand inside (Bare level (seg ++ [name])) "this".toList :=
    (Operand.entry settled_this rfl rfl).mono fun _ => TokenKind.noConfusion
  have member : Operand inside (Bare level (seg ++ [name]))
      ("this".toList ++ (".".toList ++ (name.text source).toList)) := by
    refine this.followed fun z depth closes _ =>
      ⟨⟨[], .identifier, name.text source⟩, ?_, rfl, settled⟩
    have point : Flows ⟨z, depth, true⟩ ([] ++ ".".toList) ⟨⟨[], .dot, "."⟩, depth, true⟩ :=
      .single (closes.joins Operand.settled_dot (.inl rfl) .nil) rfl
    have named : Flows ⟨⟨[], .dot, "."⟩, depth, true⟩ ([] ++ (name.text source).toList)
        ⟨⟨[], .identifier, name.text source⟩, depth, true⟩ :=
      .single (Entry.joins_mark rfl Operand.settled_dot settled .nil rfl) rfl
    exact point.trans named
  refine member.congr ?_
  rw [Printer.body, laced.stream.toList_text amongName]
  exact (if_pos isShort).symm

section Cases

variable {segInner segObject segItems segClose : List Token} {close : Token} {o : Expr}

/-- An expression behind a bracket or a comma, and what stands behind it. -/
theorem Derives.flows_item (item : Derives source true level segInner e)
    (laced : Laced source tokens) (part : segInner ++ seg <:+: tokens) {text : List Char}
    (operand : Operand true (Bare level segInner) text) {p : Entry}
    (bracket : p.kind.opensItem = true) (settled : p.Settled)
    (next : ∀ u ∈ segInner.head?, Beside source p.text stop u) (reaches : Reaches true t seg)
    {kind : TokenKind} (isKind : t.kind = kind) (mark : kind.isMark = true) {depth depth' : Nat}
    (follows : kind.follow? (depth + 1) true = some (depth', true)) :
    ∃ gap, Flows ⟨p, depth + 1, true⟩ (Text.excerpt stop e.outer.start source.toList ++ text ++
        Text.excerpt e.outer.stop t.span.stop source.toList)
          ⟨⟨gap, kind, t.text source⟩, depth', true⟩ ∧
      Entry.Settled ⟨gap, kind, t.text source⟩ := by
  obtain ⟨fixed, isOpening, -⟩ := TokenKind.of_opensItem bracket
  obtain ⟨opens, notRelation⟩ := settled.opens fixed isOpening
  obtain ⟨z, front, closes⟩ := item.enter (c := ⟨p, depth + 1, true⟩) laced
    (List.infix_append_left.trans part) next opens (fun _ => Nat.succ_pos _)
    (fun same => absurd same notRelation) operand
  obtain ⟨gap, back, settledBack⟩ := item.flows_mark laced part closes reaches isKind mark
    (fun _ => Nat.succ_pos depth) follows
  exact ⟨gap, front.trans back, settledBack⟩

/-- What stands in front of items is printed along with them, in the order of the stretch. -/
theorem copy_bracket {kind : TokenKind} (laced : Laced source tokens)
    (part : seg ++ segItems <:+: tokens) (opening : Reaches inside t seg)
    (items : DerivesItems source kind segItems es close) {start : Nat} (hle : start ≤ t.span.stop)
    (k : Nat) :
    Text.excerpt start t.span.stop source.toList ++
        (Printer.plain source tokens loose names).bodyAll k t.span.stop close.span.stop es =
      (Printer.plain source tokens loose names).bodyAll k start close.span.stop es := by
  have stream : Stream source (t :: segItems) := by
    have stream := laced.stream.sublist part.sublist
    obtain ⟨front, rfl⟩ := opening.exists_concat
    rw [List.append_assoc] at stream
    exact stream.right
  exact copy_items items stream hle k

theorem flowing_array (laced : Laced source tokens) (part : seg ++ segItems <:+: tokens)
    (opening : Reaches inside t seg) (isOpening : t.kind = .lbracket)
    (items : DerivesItems source .rbracket segItems es close)
    (flowing : FlowingItems source tokens loose names segItems es close) :
    Flowing source tokens loose names inside level (seg ++ segItems)
      (.array (.bare ⟨t.span.start, close.span.stop⟩) es) := by
  refine flowing_of_body rfl fun k signed c gap opens depth layout _ => ?_
  have among : t ∈ tokens := part.subset (List.mem_append_left _ opening.mem)
  have settled := (laced.read t among).settled_mark isOpening rfl []
  have front : Flows c (gap ++ (t.text source).toList)
      ⟨⟨gap, .lbracket, t.text source⟩, c.depth + 1, true⟩ :=
    opens.flows settled layout rfl nofun rfl
  obtain ⟨z, back, closes⟩ := flowing k t.span.stop ⟨gap, .lbracket, t.text source⟩ c.depth rfl
    (settled.regap gap) (opening.beside laced part)
  refine ⟨z, (front.trans back).congr ?_, closes⟩
  rw [List.append_assoc, laced.stream.toList_text among, copy_bracket laced part opening items
    (Nat.le_of_lt (laced.stream.start_lt_stop among)), Printer.body]
  rfl

theorem flowing_parenthesized {level' : Nat} (laced : Laced source tokens)
    (part : seg ++ segInner ++ segClose <:+: tokens)
    (opening : Reaches inside t seg) (isOpening : t.kind = .lparen)
    (inner : Derives source true level' segInner e) (proper : e.extent.Proper source)
    (flowing : Flowing source tokens loose names true level' segInner e)
    (closing : Reaches true close segClose) (isClosing : close.kind = .rparen) :
    Flowing source tokens loose names inside level (seg ++ segInner ++ segClose)
      (e.parenthesize t.span.start close.span.stop) := by
  intro k signed name? isName c gap opens depth layout _
  have partFront : seg ++ segInner <:+: tokens := List.infix_append_left.trans part
  have partBack : segInner ++ segClose <:+: tokens := infix_behind part
  have stream := laced.stream.sublist part.sublist
  have among : t ∈ tokens := partFront.subset (List.mem_append_left _ opening.mem)
  have amongClose : close ∈ tokens := partBack.subset (List.mem_append_right _ closing.mem)
  have settled := (laced.read t among).settled_mark isOpening rfl []
  have front : Flows c (gap ++ (t.text source).toList)
      ⟨⟨gap, .lparen, t.text source⟩, c.depth + 1, true⟩ :=
    opens.flows settled layout rfl nofun rfl
  obtain ⟨gap', back, settledClose⟩ := inner.flows_item laced partBack
    (flowing k signed name? isName) rfl (settled.regap gap) (opening.beside laced partFront) closing
    isClosing rfl rfl
  refine ⟨_, (front.trans back).congr ?_, rfl, settledClose⟩
  have coversInner := inner.covers stream.left.right
  have hstart :=
    (opening.covers (ne_newline_of_kind isOpening rfl)).le_of_append coversInner stream.left
  have hstop :=
    coversInner.le_of_append (closing.covers (ne_newline_of_kind isClosing rfl)) stream.back
  have positive := laced.stream.start_lt_stop among
  have positiveClose := laced.stream.start_lt_stop amongClose
  rw [Printer.lead_parenthesize k signed name? proper (by omega) (by omega),
    laced.stream.toList_text among, ← Text.excerpt_append_excerpt (Nat.le_of_lt positive) hstart]
  simp only [List.append_assoc]

theorem flowing_member {dot name : Token} {segDot segName : List Token}
    (laced : Laced source tokens) (part : segObject ++ segDot ++ segName <:+: tokens)
    (object : Derives source inside 8 segObject o) (proper : o.extent.Proper source)
    (flowing : Flowing source tokens loose names inside 8 segObject o)
    (reachesDot : Reaches inside dot segDot) (isDot : dot.kind = .dot)
    (reachesName : Reaches inside name segName) (isName : name.kind = .identifier) :
    Flowing source tokens loose names inside 8 (segObject ++ segDot ++ segName)
      (.member (.bare ⟨o.outer.start, name.span.stop⟩) o name.span) := by
  refine flowing_of_body rfl fun k signed => ?_
  have partFront : segObject ++ segDot <:+: tokens := List.infix_append_left.trans part
  have partBack : segDot ++ segName <:+: tokens := infix_behind part
  have amongDot : dot ∈ tokens := partFront.subset (List.mem_append_right _ reachesDot.mem)
  have among : name ∈ tokens := partBack.subset (List.mem_append_right _ reachesName.mem)
  have inline : name.kind ≠ .newline := ne_newline_of_kind isName rfl
  have stream := laced.stream.sublist part.sublist
  have hdot := (object.covers stream.left.left).le_of_append
    (reachesDot.covers (ne_newline_of_kind isDot rfl)) stream.left
  have positive := laced.stream.start_lt_stop amongDot
  have hname := stream.le_of_append (List.mem_append_right _ reachesDot.mem) reachesName.mem
  have positiveName := laced.stream.start_lt_stop among
  have notShort : ¬o.isShorthand source name.span = true :=
    Expr.not_isShorthand proper (by omega)
  have first : Operand inside (Bare 8 (segObject ++ segDot ++ segName))
      ((Printer.plain source tokens loose names).whole k o) :=
    flowing.first ((List.prefix_append ..).trans (List.prefix_append ..)) (Nat.le_refl 8) k
  have whole : Operand inside (Bare 8 (segObject ++ segDot ++ segName))
      ((Printer.plain source tokens loose names).whole k o ++
        Text.excerpt o.outer.stop name.span.stop source.toList) := by
    refine first.followed fun z depth closes positiveDepth => ?_
    obtain ⟨gap, point, settledDot⟩ := object.flows_mark laced partFront closes reachesDot isDot rfl
      positiveDepth rfl
    obtain ⟨gap', last, approach⟩ := reachesName.approach
      (c := ⟨⟨gap, .dot, dot.text source⟩, depth, true⟩) laced
      (List.infix_append_right.trans partBack) inline (settledDot.fixed rfl).1
      (reachesDot.beside laced partBack) positiveDepth
    have settled := (laced.read name among).settled_fixed isName rfl nofun gap'
    have named := approach.copied isName settled nofun rfl rfl
    refine ⟨_, (point.trans named).congr ?_, rfl, settled⟩
    rw [laced.stream.toList_text among, Text.excerpt_append_excerpt hname
      (Nat.le_of_lt positiveName), Text.excerpt_append_excerpt (by omega) (by omega)]
  refine whole.congr ?_
  rw [Printer.body]
  exact (if_neg notShort).symm

theorem flowing_index {level' : Nat} {key : Expr} {segKey : List Token}
    (laced : Laced source tokens) (part : segObject ++ seg ++ segKey ++ segClose <:+: tokens)
    (object : Derives source inside 8 segObject o)
    (flowing : Flowing source tokens loose names inside 8 segObject o)
    (opening : Reaches inside t seg) (isOpening : t.kind = .lbracket)
    (derives : Derives source true level' segKey key)
    (flowingKey : Flowing source tokens loose names true level' segKey key)
    (closing : Reaches true close segClose) (isClosing : close.kind = .rbracket) :
    Flowing source tokens loose names inside 8 (segObject ++ seg ++ segKey ++ segClose)
      (.index (.bare ⟨o.outer.start, close.span.stop⟩) o key) := by
  refine flowing_of_body rfl fun k signed => ?_
  have partFront : segObject ++ seg <:+: tokens :=
    List.infix_append_left.trans (List.infix_append_left.trans part)
  have partMiddle : seg ++ segKey <:+: tokens := infix_behind (List.infix_append_left.trans part)
  have partBack : segKey ++ segClose <:+: tokens := infix_behind part
  have among : t ∈ tokens := partFront.subset (List.mem_append_right _ opening.mem)
  have stream := laced.stream.sublist part.sublist
  have hopen := (object.covers stream.left.left.left).le_of_append
    (opening.covers (ne_newline_of_kind isOpening rfl)) stream.left.left
  have hkey := (opening.covers (ne_newline_of_kind isOpening rfl)).le_of_append
    (derives.covers stream.left.right) (laced.stream.sublist partMiddle.sublist)
  have positive := laced.stream.start_lt_stop among
  have first : Operand inside (Bare 8 (segObject ++ seg ++ segKey ++ segClose))
      ((Printer.plain source tokens loose names).whole k o) :=
    flowing.first (((List.prefix_append ..).trans (List.prefix_append ..)).trans
      (List.prefix_append ..)) (Nat.le_refl 8) k
  have whole : Operand inside (Bare 8 (segObject ++ seg ++ segKey ++ segClose))
      ((Printer.plain source tokens loose names).whole k o ++
        (Text.excerpt o.outer.stop t.span.stop source.toList ++
          (Text.excerpt t.span.stop key.outer.start source.toList ++
            (Printer.plain source tokens loose names).whole (k + o.temporaries) key ++
              Text.excerpt key.outer.stop close.span.stop source.toList))) := by
    refine first.followed fun z depth closes positiveDepth => ?_
    obtain ⟨gap, front, settled⟩ := object.flows_mark laced partFront closes opening isOpening rfl
      positiveDepth rfl
    obtain ⟨gap', back, settledClose⟩ := derives.flows_item laced partBack
      (flowingKey (k + o.temporaries) false none nofun) rfl settled
      (opening.beside laced partMiddle) closing isClosing rfl rfl
    exact ⟨_, front.trans back, rfl, settledClose⟩
  refine whole.congr ?_
  rw [Printer.body, ← List.append_assoc (Text.excerpt o.outer.stop ..),
    ← List.append_assoc (Text.excerpt o.outer.stop ..),
    Text.excerpt_append_excerpt (by omega) hkey]
  simp only [List.append_assoc]
  rfl

theorem flowing_call (laced : Laced source tokens) (part : segObject ++ seg ++ segItems <:+: tokens)
    (callee : Derives source inside 8 segObject o)
    (flowing : Flowing source tokens loose names inside 8 segObject o)
    (opening : Reaches inside t seg) (isOpening : t.kind = .lparen)
    (touches : t.span.start = o.outer.stop)
    (items : DerivesItems source .rparen segItems es close)
    (flowingItems : FlowingItems source tokens loose names segItems es close) :
    Flowing source tokens loose names inside 8 (segObject ++ seg ++ segItems)
      (.call (.bare ⟨o.outer.start, close.span.stop⟩) o es) := by
  refine flowing_of_body rfl fun k signed => ?_
  have partFront : segObject ++ seg <:+: tokens := List.infix_append_left.trans part
  have partBack : seg ++ segItems <:+: tokens := infix_behind part
  have among : t ∈ tokens := partFront.subset (List.mem_append_right _ opening.mem)
  have positive := laced.stream.start_lt_stop among
  have first : Operand inside (Bare 8 (segObject ++ seg ++ segItems))
      ((Printer.plain source tokens loose names).whole k o) :=
    flowing.first ((List.prefix_append ..).trans (List.prefix_append ..)) (Nat.le_refl 8) k
  have whole : Operand inside (Bare 8 (segObject ++ seg ++ segItems))
      ((Printer.plain source tokens loose names).whole k o ++
        (Text.excerpt o.outer.stop t.span.stop source.toList ++
          (Printer.plain source tokens loose names).bodyAll (k + o.temporaries) t.span.stop
            close.span.stop es)) := by
    refine first.followed fun z depth closes positiveDepth => ?_
    obtain ⟨gap, front, settled⟩ := callee.flows_mark laced partFront closes opening isOpening rfl
      positiveDepth rfl
    obtain ⟨z', back, closes'⟩ := flowingItems (k + o.temporaries) t.span.stop
      ⟨gap, .lparen, t.text source⟩ depth rfl settled (opening.beside laced partBack)
    exact ⟨z', front.trans back, closes'⟩
  refine whole.congr ?_
  rw [copy_bracket laced partBack opening items (by omega), Printer.body]
  rfl

theorem flowingItems_nil (laced : Laced source tokens) (part : seg <:+: tokens)
    (closing : Reaches true close seg) {kind : TokenKind} (isClosing : close.kind = kind)
    (closes : kind.closesItems = true) : FlowingItems source tokens loose names seg [] close := by
  intro k stop p depth bracket settled next
  obtain ⟨fixed, -, admits⟩ := TokenKind.of_opensItem bracket
  obtain ⟨mark, ends, inline, follows⟩ := TokenKind.of_closesItems closes
  have among : close ∈ tokens := part.subset closing.mem
  obtain ⟨gap, last, approach⟩ := closing.approach (c := ⟨p, depth + 1, true⟩) laced part
    (isClosing ▸ inline) (settled.fixed fixed).1 next (fun _ => Nat.succ_pos _)
  have settledClose := (laced.read close among).settled_mark isClosing mark gap
  have flows := approach.copied isClosing settledClose inline (admits kind) (follows depth)
  refine ⟨_, flows.congr ?_, ends, settledClose⟩
  rw [laced.stream.toList_text among, Text.excerpt_append_excerpt approach.le
    (Nat.le_of_lt (laced.stream.start_lt_stop among)), Printer.bodyAll]
  rfl

theorem flowingItems_last (laced : Laced source tokens) (part : segInner ++ seg <:+: tokens)
    (item : Derives source true level segInner e)
    (flowing : Flowing source tokens loose names true level segInner e)
    (closing : Reaches true close seg) {kind : TokenKind} (isClosing : close.kind = kind)
    (closes : kind.closesItems = true) :
    FlowingItems source tokens loose names (segInner ++ seg) [e] close := by
  intro k stop p depth bracket settled next
  obtain ⟨mark, ends, -, follows⟩ := TokenKind.of_closesItems closes
  obtain ⟨gap, flows, settledClose⟩ := item.flows_item laced part (flowing k false none nofun)
    bracket settled (forall_head?_left next) closing isClosing mark (follows depth)
  refine ⟨_, flows.congr ?_, ends, settledClose⟩
  rw [Printer.bodyAll, Printer.bodyAll]
  rfl

theorem flowingItems_more {comma : Token} {segComma : List Token} (laced : Laced source tokens)
    (part : segInner ++ segComma ++ segItems <:+: tokens)
    (item : Derives source true level segInner e)
    (flowing : Flowing source tokens loose names true level segInner e)
    (reaches : Reaches true comma segComma) (isComma : comma.kind = .comma) {kind : TokenKind}
    (items : DerivesItems source kind segItems es close)
    (flowingItems : FlowingItems source tokens loose names segItems es close) :
    FlowingItems source tokens loose names (segInner ++ segComma ++ segItems) (e :: es) close := by
  intro k stop p depth bracket settled next
  have partFront : segInner ++ segComma <:+: tokens := List.infix_append_left.trans part
  have partBack : segComma ++ segItems <:+: tokens := infix_behind part
  have stream := laced.stream.sublist partFront.sublist
  have among : comma ∈ tokens := partFront.subset (List.mem_append_right _ reaches.mem)
  rw [List.append_assoc] at next
  obtain ⟨gap, front, settledComma⟩ := item.flows_item laced partFront (flowing k false none nofun)
    bracket settled (forall_head?_left next) reaches isComma rfl rfl
  obtain ⟨z, back, closes⟩ := flowingItems (k + e.temporaries) comma.span.stop
    ⟨gap, .comma, comma.text source⟩ depth rfl settledComma (reaches.beside laced partBack)
  refine ⟨z, (front.trans back).congr ?_, closes⟩
  have hle := (item.covers stream.left).le_of_append
    (reaches.covers (ne_newline_of_kind isComma rfl)) stream
  have positive := laced.stream.start_lt_stop among
  rw [Printer.bodyAll, List.append_assoc, copy_bracket laced partBack reaches items (by omega)]
  rfl

/-- A membership test that is as tight as an operand of `not` is in parentheses. -/
theorem Derives.bare_of_membership (h : Derives source inside level seg e)
    (isMembership : e.isMembership = true) (tighter : 7 ≤ level) : Bare level seg := by
  cases h with
  | parenthesized opening isOpening =>
      refine ⟨by decide, fun u isFirst => ?_⟩
      rw [List.append_assoc, head_significant opening (ne_newline_of_kind isOpening rfl)] at isFirst
      cases isFirst
      rw [isOpening]
      exact TokenKind.noConfusion
  | membership => exact absurd tighter (by decide)
  | _ => cases isMembership

theorem flowing_not {level' : Nat} (laced : Laced source tokens)
    (part : seg ++ segInner <:+: tokens) (reaches : Reaches inside t seg) (isNot : t.kind = .not)
    (operand : Derives source inside level' segInner e) (tighter : 7 ≤ level')
    (flowing : Flowing source tokens loose names inside level' segInner e) :
    Flowing source tokens loose names inside level (seg ++ segInner)
      (.not (.bare (t.span.cover e.outer)) t.span e) := by
  refine flowing_of_body rfl fun k signed => ?_
  by_cases isMembership : e.isMembership = true
  · refine ((flowing k true none nofun).mono fun _ =>
      operand.bare_of_membership isMembership tighter).congr ?_
    rw [Printer.body, if_pos isMembership]
    rfl
  · by_cases isSign : t.text source = "!"
    · intro c gap opens depth layout _
      have among : t ∈ tokens := part.subset (List.mem_append_left _ reaches.mem)
      have front : Flows c (gap ++ "!".toList) ⟨⟨gap, .not, "!"⟩, c.depth, true⟩ :=
        opens.flows Operand.settled_not layout rfl nofun rfl
      have next := reaches.beside laced part
      rw [isSign] at next
      obtain ⟨z, back, closes⟩ := operand.enter (c := ⟨⟨gap, .not, "!"⟩, c.depth, true⟩) laced
        (List.infix_append_right.trans part) next ⟨rfl, rfl⟩ depth
        (fun same => absurd same (show "!" ≠ "instanceof" by decide)) (flowing k false none nofun)
      refine ⟨z, (front.trans back).congr ?_, closes⟩
      have stream := laced.stream.sublist part.sublist
      have hle := (reaches.covers (ne_newline_of_kind isNot rfl)).le_of_append
        (operand.covers stream.right) stream
      have positive := laced.stream.start_lt_stop among
      have text := laced.stream.toList_text among
      rw [isSign] at text
      rw [Printer.body, if_neg isMembership, text, List.append_assoc,
        ← List.append_assoc (Text.excerpt ..),
        Text.excerpt_append_excerpt (Nat.le_of_lt positive) hle]
      exact congrArg _ (if_pos isSign).symm
    · refine (flowing.first (List.prefix_refl _) (Nat.le_refl level') k).sign.congr ?_
      rw [Printer.body, if_neg isMembership]
      exact (if_neg isSign).symm

section Operands

variable {i j : Nat} {l r : Expr} {segLeft segRight : List Token}

theorem text_of_instanceOf {text : String}
    (spelt : BinaryOperator.ofText? text = some .instanceOf) : text = "instanceof" := by
  unfold BinaryOperator.ofText? at spelt
  split at spelt <;> first | rfl | cases spelt

theorem flowing_binary {op : BinaryOperator} (laced : Laced source tokens)
    (part : segLeft ++ seg ++ segRight <:+: tokens)
    (left : Derives source inside i segLeft l) (leftLevel : op.level ≤ i)
    (flowingLeft : Flowing source tokens loose names inside i segLeft l)
    (reaches : Reaches inside t seg) (leveled : level? source t = some op.level)
    (spelt : BinaryOperator.ofText? (t.text source) = some op)
    (right : Derives source inside j segRight r) (rightLevel : op.level < j)
    (flowingRight : Flowing source tokens loose names inside j segRight r) :
    Flowing source tokens loose names inside op.level (segLeft ++ seg ++ segRight)
      (.binary (.bare (l.outer.cover r.outer)) l op r) := by
  refine flowing_of_body rfl fun k signed => ?_
  have partFront : segLeft ++ seg <:+: tokens := List.infix_append_left.trans part
  have partBack : seg ++ segRight <:+: tokens := infix_behind part
  have partOperator : seg <:+: tokens := List.infix_append_right.trans partFront
  have stream := laced.stream.sublist part.sublist
  have joins := joins_of_operands (left.covers stream.left.left) (right.covers stream.right)
    reaches (ne_newline_of_level? leveled) laced.stream part
  have first : Operand inside (Bare op.level (segLeft ++ seg ++ segRight))
      ((Printer.plain source tokens loose names).whole k l) :=
    flowingLeft.first ((List.prefix_append ..).trans (List.prefix_append ..)) leftLevel k
  have whole : Operand inside (Bare op.level (segLeft ++ seg ++ segRight))
      ((Printer.plain source tokens loose names).whole k l ++
        (Text.excerpt l.outer.stop t.span.start source.toList ++ op.javaScript.toList ++
          (Text.excerpt t.span.stop r.outer.start source.toList ++
            (Printer.plain source tokens loose names).whole (k + l.temporaries) r))) := by
    refine first.followed fun z depth closes positive => ?_
    obtain ⟨gap, last, approach⟩ := reaches.approach (c := ⟨z, depth, true⟩) laced partOperator
      (ne_newline_of_level? leveled) closes.whole (left.beside laced partFront closes) positive
    obtain ⟨p, front, opens, noReturn, isInstanceOf⟩ := approach.operator closes op
    -- behind `instanceof` stands what stood there before
    have next : ∀ u ∈ segRight.head?, Beside source p.text t.span.stop u := by
      intro u isNext
      have beside := reaches.beside laced partBack u isNext
      by_cases same : p.text = "instanceof"
      · obtain rfl := isInstanceOf same
        rw [same, ← text_of_instanceOf spelt]
        exact beside
      · exact beside.other noReturn same
    have tight : p.text = "instanceof" → BinaryOperator.relationLevel < j := by
      intro same
      obtain rfl := isInstanceOf same
      exact rightLevel
    obtain ⟨z', back, closes'⟩ := right.enter (c := ⟨p, depth, true⟩) laced
      (List.infix_append_right.trans part) next opens positive tight
      (flowingRight _ false none nofun)
    exact ⟨z', front.trans back, closes'⟩
  refine whole.congr ?_
  have printed : (Printer.plain source tokens loose names).whole k
      (.binary (.bare (l.outer.cover r.outer)) l op r) = _ := Printer.whole_binary k _ joins.alone
  rw [Printer.whole, Expr.extent, Printer.around_bare, Printer.body] at printed
  rw [Printer.body, printed]
  simp only [List.append_assoc]

theorem flowing_assign (laced : Laced source tokens)
    (part : segLeft ++ seg ++ segRight <:+: tokens)
    (left : Derives source inside i segLeft l)
    (flowingLeft : Flowing source tokens loose names inside i segLeft l)
    (reaches : Reaches inside t seg) (isAssign : t.kind = .assign)
    (right : Derives source inside j segRight r)
    (flowingRight : Flowing source tokens loose names inside j segRight r) :
    Flowing source tokens loose names inside 0 (segLeft ++ seg ++ segRight)
      (.assign (.bare (l.outer.cover r.outer)) l r) := by
  refine flowing_of_body rfl fun k signed => ?_
  have partFront : segLeft ++ seg <:+: tokens := List.infix_append_left.trans part
  have partBack : seg ++ segRight <:+: tokens := infix_behind part
  have among : t ∈ tokens := partFront.subset (List.mem_append_right _ reaches.mem)
  have inline : t.kind ≠ .newline := ne_newline_of_kind isAssign rfl
  have stream := laced.stream.sublist part.sublist
  have hassign := (left.covers stream.left.left).le_of_append (reaches.covers inline) stream.left
  have hvalue := (reaches.covers inline).le_of_append (right.covers stream.right)
    (laced.stream.sublist partBack.sublist)
  have positive := laced.stream.start_lt_stop among
  have first : Operand inside (Bare 0 (segLeft ++ seg ++ segRight))
      ((Printer.plain source tokens loose names).whole k l) :=
    flowingLeft.first ((List.prefix_append ..).trans (List.prefix_append ..)) (Nat.zero_le i) k
  have whole : Operand inside (Bare 0 (segLeft ++ seg ++ segRight))
      ((Printer.plain source tokens loose names).whole k l ++
        (Text.excerpt l.outer.stop t.span.stop source.toList ++
          (Text.excerpt t.span.stop r.outer.start source.toList ++
            (Printer.plain source tokens loose names).whole (k + l.temporaries) r))) := by
    refine first.followed fun z depth closes positiveDepth => ?_
    obtain ⟨gap, front, settled⟩ := left.flows_mark laced partFront closes reaches isAssign rfl
      positiveDepth rfl
    obtain ⟨opens, notRelation⟩ := settled.opens rfl rfl
    obtain ⟨z', back, closes'⟩ := right.enter
      (c := ⟨⟨gap, .assign, t.text source⟩, depth, true⟩) laced
      (List.infix_append_right.trans part) (reaches.beside laced partBack) opens positiveDepth
      (fun same => absurd same notRelation) (flowingRight _ false none nofun)
    exact ⟨z', front.trans back, closes'⟩
  refine whole.congr ?_
  rw [Printer.body, ← List.append_assoc (Text.excerpt ..),
    Text.excerpt_append_excerpt (by omega) hvalue, ← List.append_assoc]
  rfl

theorem settled_includes : Entry.Settled ⟨[], .identifier, "includes"⟩ :=
  ⟨rfl, rfl, by decide, nofun⟩

/-- A receiver with what is put around it. -/
theorem operand_adapt {bare : Prop} {text : List Char} (h : Operand inside bare text)
    (a : Adaptation) :
    Operand inside bare (a.front String.toList ++ text ++ a.back String.toList) := by
  have array : Operand inside (TokenKind.identifier ≠ .number) "Array".toList :=
    Operand.entry ⟨rfl, rfl, by decide, nofun⟩ rfl rfl
  have method : Entry.Settled ⟨[], .identifier, "from"⟩ := ⟨rfl, rfl, by decide, nofun⟩
  have converted := array.call h method
  obtain ⟨arrayFrom, parens⟩ := a
  cases arrayFrom with
  | true =>
      refine (converted.mono fun _ => TokenKind.noConfusion).congr ?_
      show _ = "Array.from(".toList ++ text ++ ")".toList
      simp
  | false =>
      cases parens with
      | true => exact h.parens
      | false => exact h.congr (List.append_nil text).symm

/-- A call of `includes` on a receiver. -/
theorem operand_includes {bare bare' bare'' : Prop} {text text' : List Char}
    (h : Operand inside bare text) (arg : Operand inside bare' text') (a : Adaptation)
    (loosens : bare'' → bare) (sign : Bool) :
    Operand inside bare'' ((if sign then "!".toList else []) ++
      (a.front String.toList ++ text ++ a.back String.toList) ++
      ".includes(".toList ++ text' ++ ")".toList) := by
  have call := (operand_adapt h a).call arg settled_includes
  cases sign with
  | false =>
      refine (call.mono loosens).congr ?_
      simp
  | true =>
      refine call.sign.congr ?_
      simp

theorem flowing_membership {negated : Bool}
    (names_settled : ∀ k, Entry.Settled ⟨[], .identifier, names k⟩)
    (flowingLeft : Flowing source tokens loose names inside i segLeft l)
    (flowingRight : Flowing source tokens loose names inside j segRight r) :
    Flowing source tokens loose names inside BinaryOperator.relationLevel
      (segLeft ++ seg ++ segRight) (.membership (.bare (l.outer.cover r.outer)) l r negated) := by
  refine flowing_of_body rfl fun k signed => ?_
  -- a test never stands right behind `instanceof`
  have never : ∀ {bare : Prop},
      Bare BinaryOperator.relationLevel (segLeft ++ seg ++ segRight) → bare :=
    fun bare => absurd bare.1 (Nat.lt_irrefl _)
  rw [Printer.body]
  extract_lets name
  split
  · exact operand_includes (flowingRight k false none nofun) (flowingLeft k false none nofun)
      (.decide r.form loose) never (negated ^^ signed)
  · have named := flowingLeft (k + 1) false (some (names k)) fun x hx => by
      cases hx
      exact names_settled k
    have argument : Operand inside (TokenKind.identifier ≠ .number) (names k).toList :=
      Operand.entry (names_settled k) rfl rfl
    have test := operand_includes
      (flowingRight (k + 1 + l.temporaries) false none nofun) argument (.decide r.form loose) id
      (negated ^^ signed)
    refine (named.sequence test).congr ?_
    have closing : "))".toList = ")".toList ++ ")".toList := rfl
    show _ = "(".toList ++ (Printer.plain source tokens loose names).lead (k + 1) false
      (some (names k)) l ++ ", ".toList ++
      (if (negated ^^ signed) = true then "!".toList else []) ++
      (Printer.plain source tokens loose names).adapt r
      ((Printer.plain source tokens loose names).whole (k + 1 + l.temporaries) r) ++
      ".includes(".toList ++ (names k).toList ++ "))".toList
    rw [closing]
    simp only [Printer.adapt, List.append_assoc]
    rfl

end Operands

end Cases

mutual

/-- What is printed for an expression is an operand that flows. -/
theorem Derives.flowing {inside : Bool} {level : Nat} {seg : List Token} {e : Expr}
    (h : Derives source inside level seg e) (loose : Bool)
    (isName : ∀ k, Entry.Settled ⟨[], .identifier, names k⟩) (laced : Laced source tokens)
    (part : seg <:+: tokens) : Flowing source tokens loose names inside level seg e := by
  match h with
  | .atom reaches known =>
    exact flowing_of_body rfl (operand_atom laced part reaches known)
  | .shorthand reaches known sign isName touches =>
    exact flowing_of_body rfl (operand_shorthand laced part reaches known sign isName touches)
  | .array opening isOpening items =>
    exact flowing_array laced part opening isOpening items
      (items.flowing loose isName laced (List.infix_append_right.trans part) rfl)
  | .parenthesized opening isOpening inner closing isClosing =>
    have partInner := (List.infix_append_right.trans List.infix_append_left).trans part
    exact flowing_parenthesized laced part opening isOpening inner
      (inner.nested laced.stream partInner).proper (inner.flowing loose isName laced partInner)
      closing isClosing
  | .member object reachesDot isDot reachesName kind =>
    have partObject := (List.infix_append_left.trans List.infix_append_left).trans part
    exact flowing_member laced part object (object.nested laced.stream partObject).proper
      (object.flowing loose isName laced partObject) reachesDot isDot reachesName kind
  | .index object opening isOpening key closing isClosing =>
    have partObject := (List.infix_append_left.trans
      (List.infix_append_left.trans List.infix_append_left)).trans part
    have partKey := (List.infix_append_right.trans List.infix_append_left).trans part
    exact flowing_index laced part object (object.flowing loose isName laced partObject) opening
      isOpening key (key.flowing loose isName laced partKey) closing isClosing
  | .call callee opening isOpening touches items =>
    have partCallee := (List.infix_append_left.trans List.infix_append_left).trans part
    exact flowing_call laced part callee (callee.flowing loose isName laced partCallee) opening
      isOpening touches items
      (items.flowing loose isName laced (List.infix_append_right.trans part) rfl)
  | .not reaches isNot operand tighter =>
    exact flowing_not laced part reaches isNot operand tighter
      (operand.flowing loose isName laced (List.infix_append_right.trans part))
  | .binary left leftLevel reaches leveled spelt right rightLevel =>
    have partLeft := (List.infix_append_left.trans List.infix_append_left).trans part
    exact flowing_binary laced part left leftLevel (left.flowing loose isName laced partLeft)
      reaches leveled spelt right rightLevel
      (right.flowing loose isName laced (List.infix_append_right.trans part))
  | .membership left _ _ _ _ right _ =>
    have partLeft := (List.infix_append_left.trans List.infix_append_left).trans part
    exact flowing_membership isName (left.flowing loose isName laced partLeft)
      (right.flowing loose isName laced (List.infix_append_right.trans part))
  | .assign left _ _ reaches isAssign right =>
    have partLeft := (List.infix_append_left.trans List.infix_append_left).trans part
    exact flowing_assign laced part left (left.flowing loose isName laced partLeft) reaches isAssign
      right (right.flowing loose isName laced (List.infix_append_right.trans part))

theorem DerivesItems.flowing {kind : TokenKind} {seg : List Token} {es : List Expr} {close : Token}
    (h : DerivesItems source kind seg es close) (loose : Bool)
    (isName : ∀ k, Entry.Settled ⟨[], .identifier, names k⟩) (laced : Laced source tokens)
    (part : seg <:+: tokens) (closes : kind.closesItems = true) :
    FlowingItems source tokens loose names seg es close := by
  match h with
  | .done closing isClosing =>
    exact flowingItems_nil laced part closing isClosing closes
  | .last item closing isClosing =>
    exact flowingItems_last laced part item
      (item.flowing loose isName laced (List.infix_append_left.trans part)) closing isClosing closes
  | .more item reaches isComma items =>
    have partItem := (List.infix_append_left.trans List.infix_append_left).trans part
    exact flowingItems_more laced part item (item.flowing loose isName laced partItem) reaches
      isComma items (items.flowing loose isName laced (List.infix_append_right.trans part) closes)

end

end Parser

end MembershipLowering
