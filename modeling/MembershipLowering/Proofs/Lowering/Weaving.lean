import MembershipLowering.Proofs.Lowering.Printer
import MembershipLowering.Proofs.Token.Writing

/-! # Printing token by token

What the printer prints for an expression without membership tests, told of the tokens that
it was read from: the text that stands for each of them, one after the other
(`Derives.weaves`). With it goes what the grammar guarantees of neighbouring tokens.
-/

namespace MembershipLowering

open Token

namespace Parser

variable {source : String} {inside : Bool} {last : Option Token} {t : Token} {seg : List Token}

/-- A token behind newlines that are passed over by the parser. -/
theorem Reaches.writes (h : Reaches inside t seg) (stream : Stream source (last.toList ++ seg))
    (kind : t.kind ≠ .newline) (admitted : ∀ s ∈ last, s.kind.admits t.kind = true)
    (plain : last.any (isShorthand source · t) = false)
    (relation : t.kind = .relation → t.text source = "instanceof") :
    Writes source last seg (some t)
      (gap source last t.span.start ++ (spelling source none t).flatMap String.toList) := by
  induction h generalizing last with
  | here =>
      have passed : passesOver source last t = false := by simp [passesOver, kind]
      refine (writes_token passed ⟨relation, fun s hs => .inl (admitted s hs), ?_⟩).congr ?_
      · exact fun _ _ none => by cases none
      · rw [spelling_none plain]
  | @later u seg bracketed newline reaches ih =>
      have shape := stream.shape (List.mem_append_right _ (List.mem_cons_self ..))
      have notAt : u.text source ≠ "@" := shape.ne_at (by rw [newline]; decide)
      by_cases passed : passesOver source last u = true
      · exact (ih (stream.sublist ((List.sublist_cons_self u seg).append_left _)) admitted
          plain).pass passed
      · have notNot : last.any (·.text source = "not") = false := by
          simpa [passesOver, newline] using passed
        rw [Bool.not_eq_true] at passed
        have follows : Follows source [] last u :=
          ⟨fun kind => by (rw [newline] at kind; cases kind),
            fun s _ => .inl (newline ▸ s.kind.admits_newline), fun _ _ none => by cases none⟩
        have front := writes_token passed follows
        have back : Writes source (some u) seg (some t) _ := ih stream.right
          (fun s same => by cases same; rw [newline]; rfl) (by simp [isShorthand, notAt])
        refine (front.append back).congr ?_
        rw [spelling_plain shape (by rw [newline]; exact ⟨by decide, by decide, notAt⟩)
          (by cases last <;> simp [isShorthand, newline]),
          gap_of_kind shape (by rw [newline]; decide), List.flatMap_singleton,
          ← List.append_assoc]
        have hle := (List.pairwise_cons.1 stream.right.ordered).1 t reaches.mem
        exact congrArg (· ++ _) (gap_append stream notNot t.span.start hle)

theorem spelling_mark (shape : Lexeme.Shape t.kind (t.text source).toList)
    (mark : t.kind.isMark = true) : spelling source none t = [t.text source] := by
  have ne : ∀ {kind : TokenKind}, kind.isMark = false → t.kind ≠ kind := by
    intro kind noMark same
    rw [← same, mark] at noMark
    cases noMark
  exact spelling_plain shape ⟨ne rfl, ne rfl, shape.ne_at (ne rfl)⟩ rfl

/-- The stretch is written as the text and ends with an operand that ends at the offset. -/
def WritesOperand (source : String) (last : Option Token) (seg : List Token) (stop : Nat)
    (text : List Char) : Prop :=
  ∃ z, Writes source last seg (some z) text ∧ z.kind.endsOperand = true ∧ z.span.stop = stop

section Operands

variable {stop : Nat} {text text' : List Char} {seg' : List Token}

theorem WritesOperand.congr (h : WritesOperand source last seg stop text) (same : text = text') :
    WritesOperand source last seg stop text' :=
  same ▸ h

theorem WritesOperand.behind (h : WritesOperand source (some t) seg' stop text')
    (front : Writes source last seg (some t) text) :
    WritesOperand source last (seg ++ seg') stop (text ++ text') := by
  obtain ⟨z, writes, ends, stops⟩ := h
  exact ⟨z, front.append writes, ends, stops⟩

/-- An operand and a token behind it that begins none. -/
theorem WritesOperand.token (h : WritesOperand source last seg stop text)
    (stream : Stream source (last.toList ++ (seg ++ seg'))) (reaches : Reaches inside t seg')
    (kind : t.kind ≠ .newline)
    (other : t.kind.beginsOperand = false ∨ t.kind = .lparen ∨ t.kind = .lbracket)
    (relation : t.kind = .relation → t.text source = "instanceof") :
    Writes source last (seg ++ seg') (some t) (text ++
      (Text.excerpt stop t.span.start source.toList ++
        (spelling source none t).flatMap String.toList)) := by
  obtain ⟨z, writes, ends, rfl⟩ := h
  have behind := stream.behind writes.final
  have notName : t.kind ≠ .identifier := by
    rintro kind
    rw [kind] at other
    rcases other with other | other | other <;> cases other
  have back := reaches.writes behind kind
    (fun s same => by cases same; exact TokenKind.admits_of_ends ends other)
    (by simp [isShorthand, notName]) relation
  refine (writes.append back).congr ?_
  rw [gap_of_kind (behind.shape (List.mem_cons_self ..))
    (fun isNot => by rw [isNot] at ends; cases ends)]

/-- An operand and a bracket, comma, point or `=` behind it. -/
theorem WritesOperand.mark (h : WritesOperand source last seg stop text)
    (stream : Stream source (last.toList ++ (seg ++ seg'))) (reaches : Reaches inside t seg')
    (mark : t.kind.isMark = true) (hle : stop ≤ t.span.start) :
    Writes source last (seg ++ seg') (some t)
      (text ++ Text.excerpt stop t.span.stop source.toList) := by
  have among : t ∈ seg' := reaches.mem
  have streamBack := stream.right.right
  refine (h.token stream reaches (fun kind => by rw [kind] at mark; cases mark)
    (TokenKind.cases_of_isMark mark) (fun kind => by rw [kind] at mark; cases mark)).congr ?_
  rw [spelling_mark (streamBack.shape among) mark, List.flatMap_singleton,
    streamBack.toList_text among, Text.excerpt_append_excerpt hle
      (Nat.le_of_lt (streamBack.start_lt_stop among))]

/-- An opening bracket in front of an expression. -/
theorem Reaches.writes_bracket (h : Reaches inside t seg)
    (stream : Stream source (last.toList ++ seg)) (opens : ∀ s ∈ last, s.kind.opensOperand = true)
    (bracket : t.kind = .lparen ∨ t.kind = .lbracket) :
    Writes source last seg (some t) (gap source last t.span.start ++
      Text.excerpt t.span.start t.span.stop source.toList) := by
  have mark : t.kind.isMark = true := by rcases bracket with kind | kind <;> rw [kind] <;> rfl
  have begins : t.kind.beginsOperand = true := by
    rcases bracket with kind | kind <;> rw [kind] <;> rfl
  have streamBack := stream.right
  refine (h.writes stream (fun kind => by rw [kind] at mark; cases mark)
    (fun s hs => TokenKind.admits_of_opens (opens s hs) begins) ?_
    (fun kind => by rw [kind] at mark; cases mark)).congr ?_
  · cases last with
    | none => rfl
    | some s => rcases bracket with kind | kind <;> simp [isShorthand, kind]
  · rw [spelling_mark (streamBack.shape h.mem) mark, List.flatMap_singleton,
      streamBack.toList_text h.mem]

end Operands

end Parser

namespace Printer

/-- An expression in its parentheses. -/
def whole {α : Type} (p : Printer α) (k : Nat) (e : Expr) : List α :=
  p.around e.extent (p.body k false e)

theorem hasMembership_parenthesize (start stop : Nat) (e : Expr) :
    (e.parenthesize start stop).hasMembership = e.hasMembership := by
  cases e <;> rfl

theorem body_parenthesize {α : Type} (p : Printer α) (k : Nat) (signed : Bool) (start stop : Nat)
    (e : Expr) : p.body k signed (e.parenthesize start stop) = p.body k signed e := by
  cases e with
  | atom x a => cases a <;> rfl
  | _ => rfl

/-- Without parentheses nothing is printed around the content. -/
theorem around_bare {source : String} {tokens : List Token} {loose : Bool} {names : Nat → String}
    (s : Span) (text : List Char) :
    (plain source tokens loose names).around (.bare s) text = text := by
  show Text.excerpt s.start s.start source.toList ++ text ++
    Text.excerpt s.stop s.stop source.toList = text
  rw [Text.excerpt_self, Text.excerpt_self, List.nil_append, List.append_nil]

/-- Parentheses are copied with what stands between them and the expression. -/
theorem around_parenthesize {source : String} {tokens : List Token} {loose : Bool}
    {names : Nat → String} {start stop : Nat} {e : Expr} (text : List Char)
    (proper : e.extent.Proper source) (h₁ : start ≤ e.outer.start) (h₂ : e.outer.stop ≤ stop) :
    (plain source tokens loose names).around (e.parenthesize start stop).extent text =
      Text.excerpt start e.outer.start source.toList ++
        (plain source tokens loose names).around e.extent text ++
          Text.excerpt e.outer.stop stop source.toList := by
  have outer : (e.parenthesize start stop).extent = ⟨⟨start, stop⟩, e.extent.content⟩ := by
    rw [Expr.extent_parenthesize, Extent.wrap]
    congr 1
    exact Span.cover_of_within h₁ h₂
  have opens := Text.excerpt_append_excerpt h₁ proper.opens source.toList
  have closes := Text.excerpt_append_excerpt proper.closes h₂ source.toList
  rw [outer]
  show Text.excerpt start e.extent.content.start source.toList ++ _ ++
    Text.excerpt e.extent.content.stop stop source.toList = _
  rw [← opens, ← closes]
  simp only [around, List.append_assoc]
  rfl

theorem whole_parenthesize {source : String} {tokens : List Token} {loose : Bool}
    {names : Nat → String} {start stop : Nat} {e : Expr} (k : Nat) (proper : e.extent.Proper source)
    (h₁ : start ≤ e.outer.start) (h₂ : e.outer.stop ≤ stop) :
    (plain source tokens loose names).whole k (e.parenthesize start stop) =
      Text.excerpt start e.outer.start source.toList ++
        (plain source tokens loose names).whole k e ++
          Text.excerpt e.outer.stop stop source.toList := by
  rw [whole, whole, body_parenthesize, around_parenthesize _ proper h₁ h₂]

section Whole

variable {source : String} {tokens : List Token} {loose : Bool} {names : Nat → String} (k : Nat)
  (s : Span)

theorem whole_array (es : List Expr) :
    (plain source tokens loose names).whole k (.array (.bare s) es) =
    (plain source tokens loose names).bodyAll k s.start s.stop es := by
  rw [whole, Expr.extent, around_bare, body]
  rfl

theorem whole_call (f : Expr) (es : List Expr) :
    (plain source tokens loose names).whole k (.call (.bare s) f es) =
      (plain source tokens loose names).whole k f ++
        (plain source tokens loose names).bodyAll (k + f.temporaries) f.outer.stop s.stop es := by
  rw [whole, Expr.extent, around_bare, body]
  rfl

theorem whole_member {o : Expr} {name : Span} (h : ¬o.isShorthand source name = true) :
    (plain source tokens loose names).whole k (.member (.bare s) o name) =
      (plain source tokens loose names).whole k o ++
        Text.excerpt o.outer.stop name.stop source.toList := by
  rw [whole, Expr.extent, around_bare, body]
  exact if_neg h

theorem whole_index (o i : Expr) :
    (plain source tokens loose names).whole k (.index (.bare s) o i) =
      (plain source tokens loose names).whole k o ++
        Text.excerpt o.outer.stop i.outer.start source.toList ++
          (plain source tokens loose names).whole (k + o.temporaries) i ++
            Text.excerpt i.outer.stop s.stop source.toList := by
  rw [whole, Expr.extent, around_bare, body]
  rfl

theorem whole_not_sign {sign : Span} {e : Expr} (h : e.isMembership = false)
    (isSign : sign.text source = "!") :
    (plain source tokens loose names).whole k (.not (.bare s) sign e) =
      Text.excerpt sign.start e.outer.start source.toList ++
        (plain source tokens loose names).whole k e := by
  rw [whole, Expr.extent, around_bare, body, h, if_neg Bool.false_ne_true]
  exact if_pos isSign

theorem whole_not_word {sign : Span} {e : Expr} (h : e.isMembership = false)
    (isWord : sign.text source ≠ "!") :
    (plain source tokens loose names).whole k (.not (.bare s) sign e) =
      "!".toList ++ (plain source tokens loose names).whole k e := by
  rw [whole, Expr.extent, around_bare, body, h, if_neg Bool.false_ne_true]
  exact if_neg isWord

theorem whole_binary {l r : Expr} {op : BinaryOperator} {t : Token}
    (alone : Token.within tokens l.outer.stop r.outer.start = [t]) :
    (plain source tokens loose names).whole k (.binary (.bare s) l op r) =
      (plain source tokens loose names).whole k l ++
        (Text.excerpt l.outer.stop t.span.start source.toList ++ op.javaScript.toList ++
          Text.excerpt t.span.stop r.outer.start source.toList) ++
            (plain source tokens loose names).whole (k + l.temporaries) r := by
  have gap : (plain source tokens loose names).operatorGap l.outer.stop r.outer.start op =
      Text.excerpt l.outer.stop t.span.start source.toList ++ op.javaScript.toList ++
        Text.excerpt t.span.stop r.outer.start source.toList := by
    rw [operatorGap, show Token.within (plain source tokens loose names).tokens l.outer.stop
      r.outer.start = [t] from alone]
    rfl
  rw [whole, Expr.extent, around_bare, body, gap]
  rfl

theorem whole_assign (target value : Expr) :
    (plain source tokens loose names).whole k (.assign (.bare s) target value) =
      (plain source tokens loose names).whole k target ++
        Text.excerpt target.outer.stop value.outer.start source.toList ++
          (plain source tokens loose names).whole (k + target.temporaries) value := by
  rw [whole, Expr.extent, around_bare, body]
  rfl

end Whole

/-- Source in front of expressions is copied along with what stands before the first of them. -/
theorem copy_bodyAll {source : String} {tokens : List Token} {loose : Bool}
    {names : Nat → String} {start mid stop : Nat} {es : List Expr} (k : Nat) (h₁ : start ≤ mid)
    (h₂ : ∀ e ∈ es.head?, mid ≤ e.outer.start) (h₃ : es = [] → mid ≤ stop) :
    Text.excerpt start mid source.toList ++
        (plain source tokens loose names).bodyAll k mid stop es =
      (plain source tokens loose names).bodyAll k start stop es := by
  cases es with
  | nil => exact Text.excerpt_append_excerpt h₁ (h₃ rfl) _
  | cons e es =>
      simp only [bodyAll, ← List.append_assoc]
      congr 2
      exact Text.excerpt_append_excerpt h₁ (h₂ e rfl) _

end Printer

namespace Parser

variable {source : String} {loose : Bool} {names : Nat → String}

variable {inside : Bool} {last : Option Token} {t : Token} {seg tokens : List Token}

theorem not_shorthand_of_opens (stream : Stream source (last.toList ++ seg))
    (opens : ∀ s ∈ last, s.kind.opensOperand = true) (t : Token) :
    last.any (isShorthand source · t) = false := by
  cases last with
  | none => rfl
  | some s =>
      have shape := stream.shape (List.mem_cons_self ..)
      have notAt : s.text source ≠ "@" := shape.ne_at fun kind => by
        have opens := opens s rfl
        rw [kind] at opens
        cases opens
      simp [isShorthand, notAt]

theorem kind_of_atom? {a : Atom} (known : atom? t.kind = some a) :
    t.kind.beginsOperand = true ∧ t.kind.endsOperand = true ∧ t.kind ≠ .operator ∧
      t.kind ≠ .not ∧ t.kind ≠ .relation ∧ (t.kind = .this → a = .this) := by
  revert known
  cases t.kind <;> intro known <;> cases known <;> decide

/-- A part without parts is written the way it is printed. -/
theorem writes_atom {a : Atom} (reaches : Reaches inside t seg) (known : atom? t.kind = some a)
    (stream : Stream source (last.toList ++ seg))
    (opens : ∀ s ∈ last, s.kind.opensOperand = true) (k : Nat) :
    Writes source last seg (some t) (gap source last t.span.start ++
      (Printer.plain source tokens loose names).body k false (.atom (.bare t.span) a)) := by
  obtain ⟨begins, -, notOperator, notNot, notRelation, isThis⟩ := kind_of_atom? known
  have shape := stream.right.shape reaches.mem
  refine (reaches.writes stream (ne_newline_of_atom? known)
    (fun s hs => TokenKind.admits_of_opens (opens s hs) begins)
    (not_shorthand_of_opens stream opens t) (fun kind => absurd kind notRelation)).congr ?_
  congr 1
  by_cases isAt : t.text source = "@"
  · have kind : t.kind = .this := by
      rw [isAt] at shape
      exact shape.kind_of_at
    rw [spelling_of_at isAt, isThis kind, Printer.body]
    exact (if_pos isAt).symm
  · rw [spelling_plain shape ⟨notOperator, notNot, isAt⟩ rfl, List.flatMap_singleton,
      stream.right.toList_text reaches.mem]
    cases a with
    | this =>
        rw [Printer.body]
        exact (if_neg isAt).symm
    | _ =>
        rw [Printer.body]
        · rfl
        · exact Atom.noConfusion

/-- A name that touches `@` is written behind a point. -/
theorem writes_shorthand {name : Token} {a : Atom} (reaches : Reaches inside t seg)
    (known : atom? t.kind = some a) (sign : t.text source = "@") (isName : name.kind = .identifier)
    (touches : name.span.start = t.span.stop)
    (stream : Stream source (last.toList ++ (seg ++ [name])))
    (opens : ∀ s ∈ last, s.kind.opensOperand = true) (k : Nat) :
    Writes source last (seg ++ [name]) (some name) (gap source last t.span.start ++
      (Printer.plain source tokens loose names).body k false
        (.member (.bare ⟨t.span.start, name.span.stop⟩) (.atom (.bare t.span) a) name.span)) := by
  have front : Writes source last seg (some t) (gap source last t.span.start ++
      (Printer.plain source tokens loose names).body k false (.atom (.bare t.span) a)) :=
    writes_atom reaches known stream.front opens k
  have shape := stream.right.right.shape (List.mem_singleton.2 rfl)
  have shapeSign := stream.right.shape (List.mem_append_left _ reaches.mem)
  have isThis : a = .this := by
    refine (kind_of_atom? known).2.2.2.2.2 ?_
    rw [sign] at shapeSign
    exact shapeSign.kind_of_at
  have short : isShorthand source t name = true := by
    simp [isShorthand, sign, touches, isName]
  have back : Writes source (some t) [name] (some name) _ := writes_token
    (by simp [passesOver, isName])
    ⟨fun kind => (by rw [isName] at kind; cases kind),
      fun s same => .inr (by cases same; exact short), fun _ _ none => by cases none⟩
  refine (front.append back).congr ?_
  have notNot : t.kind ≠ .not := (kind_of_atom? known).2.2.2.1
  have notAt : name.text source ≠ "@" := by
    intro same
    rw [same, isName] at shape
    cases shape.kind_of_at
  have spelt : spelling source (some t) name = [".", name.text source] := by
    rw [spelling_of_kind shape (by rw [isName]; exact ⟨by decide, by decide, notAt⟩)]
    exact if_pos short
  subst isThis
  rw [gap_of_kind shapeSign notNot, touches, Text.excerpt_self, List.nil_append, spelt,
    List.append_assoc]
  congr 1
  have isShort : Expr.isShorthand source name.span (.atom (.bare t.span) .this) = true := by
    rw [Expr.isShorthand, Bool.and_eq_true]
    exact ⟨decide_eq_true sign, decide_eq_true touches.symm⟩
  have printedThis : (Printer.plain source tokens loose names).body k false
      (.atom (.bare t.span) .this) = "this".toList := by
    rw [Printer.body]
    exact if_pos sign
  have printed : (Printer.plain source tokens loose names).body k false
      (.member (.bare ⟨t.span.start, name.span.stop⟩) (.atom (.bare t.span) .this) name.span) =
        "this.".toList ++ Text.excerpt name.span.start name.span.stop source.toList := by
    rw [Printer.body]
    exact if_pos isShort
  rw [printedThis, printed, List.flatMap_cons, List.flatMap_singleton,
    stream.right.right.toList_text (List.mem_singleton.2 rfl)]
  rfl

/-- What stands in front of items is printed along with them. -/
theorem copy_items {kind : TokenKind} {es : List Expr} {s close : Token}
    (items : DerivesItems source kind seg es close) (stream : Stream source (s :: seg))
    {start : Nat} (hle : start ≤ s.span.stop) (k : Nat) :
    Text.excerpt start s.span.stop source.toList ++
        (Printer.plain source tokens loose names).bodyAll k s.span.stop close.span.stop es =
      (Printer.plain source tokens loose names).bodyAll k start close.span.stop es := by
  have ahead := (List.pairwise_cons.1 stream.ordered).1
  have of_item : ∀ {inside : Bool} {level : Nat} {segItem : List Token} {e : Expr},
      Derives source inside level segItem e → segItem <+: seg → s.span.stop ≤ e.outer.start := by
    intro inside level segItem e item front
    obtain ⟨first, isFirst, -, starts⟩ :=
      (item.covers ((stream.sublist (List.sublist_cons_self ..)).sublist front.sublist)).exists_first
    exact starts ▸ ahead first (front.subset isFirst)
  refine Printer.copy_bodyAll k hle ?_ ?_
  · cases items with
    | done closing isClosing => intro e none; cases none
    | last item closing isClosing =>
        intro e same
        cases same
        exact of_item item (List.prefix_append ..)
    | more item reaches isComma items =>
        intro e same
        cases same
        exact of_item item (by rw [List.append_assoc]; exact List.prefix_append ..)
  · rintro rfl
    cases items with
    | done closing isClosing =>
        have := ahead close closing.mem
        have := stream.start_lt_stop (List.mem_cons_of_mem _ closing.mem)
        omega

/-- Source up to a token and the gap behind it. -/
theorem copy_gap (shape : Lexeme.Shape t.kind (t.text source).toList) (kind : t.kind ≠ .not)
    {start stop : Nat} (h₁ : start ≤ t.span.stop) (h₂ : t.span.stop ≤ stop) :
    Text.excerpt start t.span.stop source.toList ++ gap source (some t) stop =
      Text.excerpt start stop source.toList := by
  rw [gap_of_kind shape kind, Text.excerpt_append_excerpt h₁ h₂]

/-- Behind any token that opens an operand, the stretch is written the way the expression is
    printed. -/
def Weaves (source : String) (tokens : List Token) (loose : Bool) (names : Nat → String)
    (seg : List Token) (e : Expr) : Prop :=
  ∀ (k : Nat) (last : Option Token), Stream source (last.toList ++ seg) →
    (∀ s ∈ last, s.kind.opensOperand = true) →
      WritesOperand source last seg e.outer.stop (gap source last e.outer.start ++
        (Printer.plain source tokens loose names).whole k e)

/-- Items behind a bracket or a comma are written the way they are printed. -/
def WeavesItems (source : String) (tokens : List Token) (loose : Bool) (names : Nat → String)
    (seg : List Token) (es : List Expr) (close : Token) : Prop :=
  ∀ (k : Nat) (s : Token), Stream source (s :: seg) →
    (s.kind = .lparen ∨ s.kind = .lbracket ∨ s.kind = .comma) →
      Writes source (some s) seg (some close)
        ((Printer.plain source tokens loose names).bodyAll k s.span.stop close.span.stop es)

section Cases

variable {level : Nat} {kind : TokenKind} {close : Token} {e o : Expr} {es : List Expr}
  {segInner segObject segItems segClose : List Token}

/-- An operand behind a token that stays. -/
theorem Weaves.behind {text : List Char} {start : Nat}
    (h : Weaves source tokens loose names segInner e) (covers : Covers segInner e.outer)
    (front : Writes source last seg (some t) (text ++ Text.excerpt start t.span.stop source.toList))
    (stream : Stream source (last.toList ++ (seg ++ segInner))) (hle : start ≤ t.span.stop)
    (opens : t.kind.opensOperand = true) (kind : t.kind ≠ .not) (k : Nat) :
    WritesOperand source last (seg ++ segInner) e.outer.stop (text ++
      (Text.excerpt start e.outer.start source.toList ++
        (Printer.plain source tokens loose names).whole k e)) := by
  have behind := stream.behind front.final
  obtain ⟨first, isFirst, -, starts⟩ := covers.exists_first
  have ahead : t.span.stop ≤ e.outer.start :=
    starts ▸ (List.pairwise_cons.1 behind.ordered).1 first isFirst
  refine ((h k (some t) behind fun s same => by cases same; exact opens).behind front).congr ?_
  rw [← copy_gap (behind.shape (List.mem_cons_self ..)) kind hle ahead]
  simp only [List.append_assoc]

theorem weaves_array (opening : Reaches inside t seg) (isOpening : t.kind = .lbracket)
    (items : DerivesItems source .rbracket segItems es close)
    (weaves : WeavesItems source tokens loose names segItems es close) :
    Weaves source tokens loose names (seg ++ segItems)
      (.array (.bare ⟨t.span.start, close.span.stop⟩) es) := by
  intro k last stream opens
  have front := opening.writes_bracket stream.front opens (.inr isOpening)
  have behind := stream.behind front.final
  have positive := behind.start_lt_stop (List.mem_cons_self ..)
  refine ⟨close, (front.append (weaves k t behind (.inr (.inl isOpening)))).congr ?_,
    by rw [items.close_kind]; rfl, rfl⟩
  rw [Printer.whole_array, List.append_assoc, copy_items items behind (Nat.le_of_lt positive)]
  rfl

theorem weaves_parenthesized (opening : Reaches inside t seg) (isOpening : t.kind = .lparen)
    (covers : Covers segInner e.outer) (proper : e.extent.Proper source)
    (weaves : Weaves source tokens loose names segInner e)
    (closing : Reaches true close segClose) (isClosing : close.kind = .rparen) :
    Weaves source tokens loose names (seg ++ segInner ++ segClose)
      (e.parenthesize t.span.start close.span.stop) := by
  intro k last stream opens
  have streamSeg := stream.right
  have front := opening.writes_bracket stream.front.front opens (.inl isOpening)
  have positive := streamSeg.left.left.start_lt_stop opening.mem
  have positiveClose := streamSeg.right.start_lt_stop closing.mem
  have hstart :=
    (opening.covers (ne_newline_of_kind isOpening rfl)).le_of_append covers streamSeg.left
  have hstop :=
    covers.le_of_append (closing.covers (ne_newline_of_kind isClosing rfl)) streamSeg.back
  have operand := weaves.behind covers front stream.front (Nat.le_of_lt positive)
    (by rw [isOpening]; rfl) (by rw [isOpening]; decide) k
  have outer : (e.parenthesize t.span.start close.span.stop).outer =
      ⟨t.span.start, close.span.stop⟩ := by
    rw [Expr.outer_parenthesize]
    exact Span.cover_of_within (by simp only; omega) (by simp only; omega)
  refine ⟨close, (operand.mark stream closing (by rw [isClosing]; rfl) hstop).congr ?_,
    by rw [isClosing]; rfl, by rw [outer]⟩
  rw [outer, Printer.whole_parenthesize k proper (by omega) (by omega)]
  simp only [List.append_assoc]

theorem weaves_member {dot name : Token} {segDot segName : List Token}
    (covers : Covers segObject o.outer) (proper : o.extent.Proper source)
    (weaves : Weaves source tokens loose names segObject o)
    (reachesDot : Reaches inside dot segDot) (isDot : dot.kind = .dot)
    (reachesName : Reaches inside name segName) (isName : name.kind = .identifier) :
    Weaves source tokens loose names (segObject ++ segDot ++ segName)
      (.member (.bare ⟨o.outer.start, name.span.stop⟩) o name.span) := by
  intro k last stream opens
  have streamSeg := stream.right
  have hdot := covers.le_of_append (reachesDot.covers (ne_newline_of_kind isDot rfl)) streamSeg.left
  have positive := streamSeg.left.right.start_lt_stop reachesDot.mem
  have hname := streamSeg.le_of_append (List.mem_append_right _ reachesDot.mem) reachesName.mem
  have front := (weaves k last stream.front.front opens).mark stream.front reachesDot
    (by rw [isDot]; rfl) hdot
  have behind := stream.behind front.final
  have shape := behind.shape (List.mem_cons_self ..)
  have shapeName := streamSeg.shape (List.mem_append_right _ reachesName.mem)
  have back := reachesName.writes behind (ne_newline_of_kind isName rfl)
    (fun s same => by cases same; rw [isDot, isName]; rfl)
    (by simp [isShorthand, shape.ne_at (by rw [isDot]; decide)])
    (fun kind => by rw [isName] at kind; cases kind)
  refine ⟨name, (front.append back).congr ?_, by rw [isName]; rfl, rfl⟩
  have notShort : ¬o.isShorthand source name.span = true :=
    Expr.not_isShorthand proper (by omega)
  rw [spelling_plain shapeName (by rw [isName]; exact ⟨by decide, by decide,
      shapeName.ne_at (by rw [isName]; decide)⟩) rfl, List.flatMap_singleton,
    streamSeg.right.toList_text reachesName.mem, List.append_assoc,
    ← List.append_assoc (Text.excerpt ..),
    copy_gap shape (by rw [isDot]; decide) (by omega) hname,
    Text.excerpt_append_excerpt (by omega)
      (Nat.le_of_lt (streamSeg.right.start_lt_stop reachesName.mem)),
    Printer.whole_member k _ notShort, List.append_assoc]
  rfl

theorem weaves_index {key : Expr} {segKey : List Token} (covers : Covers segObject o.outer)
    (weaves : Weaves source tokens loose names segObject o)
    (opening : Reaches inside t seg) (isOpening : t.kind = .lbracket)
    (coversKey : Covers segKey key.outer) (weavesKey : Weaves source tokens loose names segKey key)
    (closing : Reaches true close segClose) (isClosing : close.kind = .rbracket) :
    Weaves source tokens loose names (segObject ++ seg ++ segKey ++ segClose)
      (.index (.bare ⟨o.outer.start, close.span.stop⟩) o key) := by
  intro k last stream opens
  have streamSeg := stream.right
  have hopen :=
    covers.le_of_append (opening.covers (ne_newline_of_kind isOpening rfl)) streamSeg.left.left
  have positive := streamSeg.left.left.right.start_lt_stop opening.mem
  have hclose :=
    coversKey.le_of_append (closing.covers (ne_newline_of_kind isClosing rfl)) streamSeg.back
  have front := (weaves k last stream.front.front.front opens).mark stream.front.front opening
    (by rw [isOpening]; rfl) hopen
  have operand := weavesKey.behind coversKey front stream.front (by omega) (by rw [isOpening]; rfl)
    (by rw [isOpening]; decide) (k + o.temporaries)
  refine ⟨close, (operand.mark stream closing (by rw [isClosing]; rfl) hclose).congr ?_,
    by rw [isClosing]; rfl, rfl⟩
  rw [Printer.whole_index]
  simp only [List.append_assoc]
  rfl

theorem weaves_call (weaves : Weaves source tokens loose names segObject o)
    (opening : Reaches inside t seg) (isOpening : t.kind = .lparen)
    (touches : t.span.start = o.outer.stop)
    (items : DerivesItems source .rparen segItems es close)
    (weavesItems : WeavesItems source tokens loose names segItems es close) :
    Weaves source tokens loose names (segObject ++ seg ++ segItems)
      (.call (.bare ⟨o.outer.start, close.span.stop⟩) o es) := by
  intro k last stream opens
  have front := (weaves k last stream.front.front opens).mark stream.front opening
    (by rw [isOpening]; rfl) (Nat.le_of_eq touches.symm)
  have behind := stream.behind front.final
  have positive := behind.start_lt_stop (List.mem_cons_self ..)
  refine ⟨close, (front.append (weavesItems (k + o.temporaries) t behind (.inl isOpening))).congr ?_,
    by rw [items.close_kind]; rfl, rfl⟩
  rw [Printer.whole_call, List.append_assoc, copy_items items behind (by omega), List.append_assoc]
  rfl

theorem weaves_not (reaches : Reaches inside t seg) (isNot : t.kind = .not)
    (coversInner : Covers segInner e.outer) (plain : e.isMembership = false)
    (weaves : Weaves source tokens loose names segInner e) :
    Weaves source tokens loose names (seg ++ segInner)
      (.not (.bare (t.span.cover e.outer)) t.span e) := by
  intro k last stream opens
  have streamSeg := stream.right
  have shape := streamSeg.shape (List.mem_append_left _ reaches.mem)
  have covers := reaches.covers (ne_newline_of_kind isNot rfl)
  have front := reaches.writes stream.front (ne_newline_of_kind isNot rfl)
    (fun s hs => TokenKind.admits_of_opens (opens s hs) (by rw [isNot]; rfl))
    (not_shorthand_of_opens stream opens t) (fun kind => by rw [isNot] at kind; cases kind)
  have operand := weaves k (some t) (stream.behind front.final)
    (fun s same => by cases same; rw [isNot]; rfl)
  have hle := covers.le_of_append coversInner streamSeg
  have positive := covers.start_lt_stop streamSeg.left
  have positive' := coversInner.start_lt_stop streamSeg.right
  have outer := Span.cover_of_le (s := t.span) (t := e.outer) (by omega) (by omega)
  rw [outer]
  refine (operand.behind front).congr ?_
  rcases text_of_not shape isNot with isWord | isSign
  · have none : gap source (some t) e.outer.start = [] := if_pos (by simp [isWord])
    have spelt : spelling source Option.none t = ["!"] := by simp only [spelling, isWord]
    rw [Printer.whole_not_word k _ plain (show t.text source ≠ "!" by rw [isWord]; decide), none,
      spelt, List.nil_append, List.append_assoc]
    rfl
  · have spelt : spelling source none t = [t.text source] := by simp [spelling, isSign]
    have notNot : t.text source ≠ "not" := by rw [isSign]; decide
    have gap : gap source (some t) e.outer.start =
        Text.excerpt t.span.stop e.outer.start source.toList := if_neg (by simp [notNot])
    rw [Printer.whole_not_sign k _ plain (show t.text source = "!" from isSign), spelt, gap,
      List.flatMap_singleton, streamSeg.toList_text (List.mem_append_left _ reaches.mem),
      List.append_assoc, ← List.append_assoc (Text.excerpt ..),
      Text.excerpt_append_excerpt (Nat.le_of_lt positive) hle]
    rfl

/-- Two operands with an operator between them. -/
theorem weaves_operands {x : Expr} {l r : Expr} {op : List Char} {segLeft segRight : List Token}
    (weavesLeft : Weaves source tokens loose names segLeft l)
    (weavesRight : Weaves source tokens loose names segRight r)
    (reaches : Reaches inside t seg) (begins : t.kind.beginsOperand = false)
    (opens : t.kind.opensOperand = true) (notNewline : t.kind ≠ .newline)
    (relation : t.kind = .relation → t.text source = "instanceof")
    (spelt : (spelling source none t).flatMap String.toList = op)
    (outer : x.outer = ⟨l.outer.start, r.outer.stop⟩)
    (whole : ∀ k, (Printer.plain source tokens loose names).whole k x =
      (Printer.plain source tokens loose names).whole k l ++
        (Text.excerpt l.outer.stop t.span.start source.toList ++ op ++
          Text.excerpt t.span.stop r.outer.start source.toList) ++
            (Printer.plain source tokens loose names).whole (k + l.temporaries) r) :
    Weaves source tokens loose names (segLeft ++ seg ++ segRight) x := by
  intro k last stream opensLast
  have front := (weavesLeft k last stream.front.front opensLast).token stream.front reaches
    notNewline (.inl begins) relation
  have behind := stream.behind front.final
  have operand := weavesRight (k + l.temporaries) (some t) behind
    (fun s same => by cases same; exact opens)
  rw [outer]
  refine (operand.behind front).congr ?_
  rw [whole, gap_of_kind (behind.shape (List.mem_cons_self ..)) (fun isNot => by
    rw [isNot] at begins; cases begins), spelt]
  simp only [List.append_assoc]

theorem weavesItems_nil (closing : Reaches true close seg)
    (isClosing : close.kind = .rparen ∨ close.kind = .rbracket) :
    WeavesItems source tokens loose names seg [] close := by
  intro k s stream opens
  have mark : close.kind.isMark = true := by rcases isClosing with kind | kind <;> rw [kind] <;> rfl
  have notNot : s.kind ≠ .not := by rcases opens with kind | kind | kind <;> rw [kind] <;> decide
  have streamSeg := stream.sublist (List.sublist_cons_self ..)
  have hle := (List.pairwise_cons.1 stream.ordered).1 close closing.mem
  have streamAll : Stream source ((some s).toList ++ seg) := stream
  refine (closing.writes streamAll (fun kind => by rw [kind] at mark; cases mark)
    (fun s' same => ?_) ?_ (fun kind => by rw [kind] at mark; cases mark)).congr ?_
  · cases same
    rcases opens with kind | kind | kind <;> rw [kind] <;> rfl
  · rcases isClosing with kind | kind <;> simp [isShorthand, kind]
  · rw [spelling_mark (streamSeg.shape closing.mem) mark, List.flatMap_singleton,
      streamSeg.toList_text closing.mem, gap_of_kind (stream.shape (List.mem_cons_self ..)) notNot,
      Text.excerpt_append_excerpt hle (Nat.le_of_lt (streamSeg.start_lt_stop closing.mem)),
      Printer.bodyAll]
    rfl

/-- An item and the comma or bracket behind it. -/
theorem writes_item {s comma : Token} {segItem segComma : List Token} (k : Nat)
    (covers : Covers segItem e.outer) (weaves : Weaves source tokens loose names segItem e)
    (reaches : Reaches true comma segComma) (mark : comma.kind.isMark = true)
    (stream : Stream source (s :: (segItem ++ segComma)))
    (opens : s.kind = .lparen ∨ s.kind = .lbracket ∨ s.kind = .comma) :
    Writes source (some s) (segItem ++ segComma) (some comma)
      (Text.excerpt s.span.stop e.outer.start source.toList ++
        (Printer.plain source tokens loose names).whole k e ++
          Text.excerpt e.outer.stop comma.span.stop source.toList) := by
  have notNot : s.kind ≠ .not := by rcases opens with kind | kind | kind <;> rw [kind] <;> decide
  have streamSeg := stream.sublist (List.sublist_cons_self ..)
  have operand := weaves k (some s) (Stream.front stream) (fun s' same => by
    cases same
    rcases opens with kind | kind | kind <;> rw [kind] <;> rfl)
  have notNewline : comma.kind ≠ .newline := fun kind => by rw [kind] at mark; cases mark
  have hle := covers.le_of_append (reaches.covers notNewline) streamSeg
  have streamAll : Stream source ((some s).toList ++ (segItem ++ segComma)) := stream
  refine (operand.mark streamAll reaches mark hle).congr ?_
  rw [gap_of_kind (stream.shape (List.mem_cons_self ..)) notNot]

end Cases

/-- The token of an operator other than a membership test is spelt the JavaScript way. -/
theorem spelling_of_operator {op : BinaryOperator}
    (spelt : BinaryOperator.ofText? (t.text source) = some op) :
    (spelling source none t).flatMap String.toList = op.javaScript.toList := by
  unfold BinaryOperator.ofText? at spelt
  split at spelt
  all_goals try cases spelt
  all_goals rename_i same; simp [spelling, same, BinaryOperator.javaScript]

theorem kind_of_operator {op : BinaryOperator} (kind : t.kind = op.tokenKind)
    (spelt : BinaryOperator.ofText? (t.text source) = some op) :
    (t.kind = .operator ∨ t.kind = .relation) ∧
      (t.kind = .relation → t.text source = "instanceof") := by
  rw [kind]
  refine ⟨by cases op <;> first | exact .inl rfl | exact .inr rfl, fun relation => ?_⟩
  unfold BinaryOperator.ofText? at spelt
  split at spelt <;> first | assumption | (cases spelt <;> cases relation)

mutual

/-- An expression without membership tests is written the way it is printed. -/
theorem Derives.weaves {inside : Bool} {level : Nat} {seg tokens : List Token} {e : Expr}
    (h : Derives source inside level seg e) (all : Stream source tokens)
    (part : seg <:+: tokens) (plain : e.hasMembership = false) :
    Weaves source tokens loose names seg e := by
  have streamSeg := all.sublist part.sublist
  match h with
  | .atom reaches known =>
    intro k last stream opens
    have ends := (kind_of_atom? known).2.1
    rw [Printer.whole, Expr.extent, Printer.around_bare]
    exact ⟨_, writes_atom reaches known stream opens k, ends, rfl⟩
  | .shorthand reaches known sign isName touches =>
    intro k last stream opens
    rw [Printer.whole, Expr.extent, Printer.around_bare]
    exact ⟨_, writes_shorthand reaches known sign isName touches stream opens k,
      by rw [isName]; rfl, rfl⟩
  | .array opening isOpening items =>
    exact weaves_array opening isOpening items
      (items.weaves all (List.infix_append_right.trans part) (.inr rfl) plain)
  | .parenthesized opening isOpening inner closing isClosing =>
    have partInner := (List.infix_append_right.trans List.infix_append_left).trans part
    exact weaves_parenthesized opening isOpening (inner.covers streamSeg.left.right)
      (inner.nested all partInner).proper
      (inner.weaves all partInner (by rwa [Printer.hasMembership_parenthesize] at plain))
      closing isClosing
  | .member object reachesDot isDot reachesName isName =>
    have partObject := (List.infix_append_left.trans List.infix_append_left).trans part
    exact weaves_member (object.covers streamSeg.left.left) (object.nested all partObject).proper
      (object.weaves all partObject plain) reachesDot isDot reachesName isName
  | .index object opening isOpening key closing isClosing =>
    have plains : _ ∧ _ := Bool.or_eq_false_iff.1 plain
    exact weaves_index (object.covers streamSeg.left.left.left)
      (object.weaves all ((List.infix_append_left.trans
        (List.infix_append_left.trans List.infix_append_left)).trans part) plains.1)
      opening isOpening (key.covers streamSeg.left.right)
      (key.weaves all ((List.infix_append_right.trans List.infix_append_left).trans part) plains.2)
      closing isClosing
  | .call callee opening isOpening touches items =>
    have plains : _ ∧ _ := Bool.or_eq_false_iff.1 plain
    exact weaves_call (callee.weaves all
      ((List.infix_append_left.trans List.infix_append_left).trans part) plains.1)
      opening isOpening touches items
      (items.weaves all (List.infix_append_right.trans part) (.inl rfl) plains.2)
  | @Derives.not _ _ _ _ _ _ e reaches isNot operand _ =>
    have notMembership : e.isMembership = false := by
      cases e <;> first | rfl | cases plain
    exact weaves_not reaches isNot (operand.covers streamSeg.right) notMembership
      (operand.weaves all (List.infix_append_right.trans part) plain)
  | @Derives.binary _ _ _ _ segLeft segOp segRight t l r op left leftLevel reaches leveled spelt
      right rightLevel =>
    have plains : _ ∧ _ := Bool.or_eq_false_iff.1 plain
    have shape := streamSeg.left.right.shape reaches.mem
    obtain ⟨kinds, relation⟩ := kind_of_operator (kind_of_level? shape leveled spelt) spelt
    have joins := joins_of_operands (left.covers streamSeg.left.left) (right.covers streamSeg.right)
      reaches (ne_newline_of_level? leveled) all part
    refine weaves_operands
      (left.weaves all ((List.infix_append_left.trans List.infix_append_left).trans part) plains.1)
      (right.weaves all (List.infix_append_right.trans part) plains.2) reaches
      (by rcases kinds with kind | kind <;> rw [kind] <;> rfl)
      (by rcases kinds with kind | kind <;> rw [kind] <;> rfl) (ne_newline_of_level? leveled)
      relation (spelling_of_operator spelt) ?_
      (fun k => Printer.whole_binary k _ joins.alone)
    exact congr (congrArg Span.mk joins.starts) joins.stops
  | @Derives.assign _ _ _ _ segLeft segOp segRight t target value left _ _ reaches isAssign right =>
    have plains : _ ∧ _ := Bool.or_eq_false_iff.1 plain
    have shape := streamSeg.left.right.shape reaches.mem
    have covers := left.covers streamSeg.left.left
    have notNewline : t.kind ≠ .newline := by rw [isAssign]; decide
    have joins := joins_of_operands covers (right.covers streamSeg.right) reaches notNewline all part
    have hle := covers.le_of_append (reaches.covers notNewline) streamSeg.left
    have positive := streamSeg.left.right.start_lt_stop reaches.mem
    refine weaves_operands
      (left.weaves all ((List.infix_append_left.trans List.infix_append_left).trans part) plains.1)
      (right.weaves all (List.infix_append_right.trans part) plains.2) reaches
      (by rw [isAssign]; rfl) (by rw [isAssign]; rfl) notNewline
      (fun kind => by rw [isAssign] at kind; cases kind)
      (by rw [spelling_mark shape (by rw [isAssign]; rfl), List.flatMap_singleton])
      (congr (congrArg Span.mk joins.starts) joins.stops) (fun k => ?_)
    rw [Printer.whole_assign, streamSeg.left.right.toList_text reaches.mem,
      Text.excerpt_append_excerpt hle (Nat.le_of_lt positive),
      Text.excerpt_append_excerpt (by omega) joins.apart]

theorem DerivesItems.weaves {kind : TokenKind} {seg tokens : List Token} {es : List Expr}
    {close : Token} (h : DerivesItems source kind seg es close) (all : Stream source tokens)
    (part : seg <:+: tokens) (closes : kind = .rparen ∨ kind = .rbracket)
    (plain : Expr.hasMembershipAll es = false) :
    WeavesItems source tokens loose names seg es close := by
  have streamSeg := all.sublist part.sublist
  match h with
  | .done closing isClosing => exact weavesItems_nil closing (by rw [isClosing]; exact closes)
  | .last item closing isClosing =>
    intro k s stream opens
    have plains : _ ∧ _ := Bool.or_eq_false_iff.1 plain
    have mark : close.kind.isMark = true := by
      rcases closes with kind | kind <;> rw [isClosing, kind] <;> rfl
    exact writes_item k (item.covers streamSeg.left)
      (item.weaves all (List.infix_append_left.trans part) plains.1) closing mark stream opens
  | @DerivesItems.more _ kind level segItem segComma segItems comma close e es item reaches isComma
      items =>
    intro k s stream opens
    have plains : _ ∧ _ := Bool.or_eq_false_iff.1 plain
    have streamAll : Stream source ([s] ++ (segItem ++ segComma ++ segItems)) := stream
    have front := writes_item k (item.covers streamSeg.left.left)
      (item.weaves all ((List.infix_append_left.trans List.infix_append_left).trans part) plains.1)
      reaches (by rw [isComma]; rfl) streamAll.front opens
    have behind : Stream source ([comma] ++ segItems) := streamAll.behind front.final
    have back := items.weaves all (List.infix_append_right.trans part) closes plains.2
      (k + e.temporaries) comma behind (.inr (.inr isComma))
    refine (front.append back).congr ?_
    have hle := (item.covers streamSeg.left.left).le_of_append
      (reaches.covers (ne_newline_of_kind isComma rfl)) streamSeg.left
    have positive := streamSeg.left.right.start_lt_stop reaches.mem
    rw [Printer.bodyAll, List.append_assoc, copy_items items behind (by omega)]
    rfl

end

end Parser

end MembershipLowering
