import MembershipLowering.Proofs.Expr.Shifting
import MembershipLowering.Proofs.Lowering.Outcome

/-! # Lowering sources one behind the other

Two sources whose code needs no temporaries may be joined by a newline: the code of the whole
is that of the first, a newline, and that of the second (`lowerSource_join`). What carries
this is that printing a tree needs nothing of the source outside of the tree, so that in a
larger source the same is printed for it (`Printer.body_shift`). Only the semicolon behind a
statement depends on what comes next, and there a newline stands for the end of the text.
-/

namespace MembershipLowering

namespace Printer

/-- The second printer prints from a larger source what the first one prints `n` bytes further
    in front. -/
structure Shifts {α : Type} (n : Nat) (p q : Printer α) : Prop where
  embeds : Text.Embeds n p.source.toList q.source.toList
  copy : ∀ {start stop : Nat}, stop ≤ Text.byteLength p.source.toList →
    q.copy (start + n) (stop + n) = p.copy start stop
  within : ∀ {start stop : Nat}, stop ≤ Text.byteLength p.source.toList →
    Token.within q.tokens (start + n) (stop + n) =
      (Token.within p.tokens start stop).map (·.shift n)
  names : q.names = p.names
  write : q.write = p.write
  front : q.front = p.front
  back : q.back = p.back

/-- A source among others. -/
theorem shifts_plain {source whole : String} {n : Nat} {f : Token → Token}
    {before tokens after : List Token}
    (h : Token.Embedding source whole n f before tokens after) (loose : Bool)
    (names : Nat → String) : Shifts n (plain source tokens loose names)
      (plain whole (before ++ tokens.map f ++ after) loose names) where
  embeds := h.embeds
  copy := Text.excerpt_shift h.embeds
  within := h.within_shift
  names := rfl
  write := rfl
  front := rfl
  back := rfl

section Shifts

variable {α : Type} {n : Nat} {p q : Printer α}

theorem around_shift (h : Shifts n p q) {x : Extent} (proper : x.Proper p.source)
    (text : List α) : q.around (x.shift n) text = p.around x text := by
  have closes := proper.closes
  have hstop := proper.outerStop_le
  have before : q.copy (x.outer.start + n) (x.content.start + n) =
      p.copy x.outer.start x.content.start :=
    h.copy (by have := proper.nonempty; omega)
  have behind : q.copy (x.content.stop + n) (x.outer.stop + n) =
      p.copy x.content.stop x.outer.stop := h.copy hstop
  simp only [around, Extent.shift, Span.shift_start, Span.shift_stop, before, behind]

theorem operatorGap_shift (h : Shifts n p q) {x : Extent} {l r : Expr} {t : Token}
    (joins : Expr.Joins p.tokens x l r t)
    (hstop : r.outer.start ≤ Text.byteLength p.source.toList) (op : BinaryOperator) :
    q.operatorGap (l.outer.stop + n) (r.outer.start + n) op =
      p.operatorGap l.outer.stop r.outer.start op := by
  have isWithin : t ∈ Token.within p.tokens l.outer.stop r.outer.start := by
    rw [joins.alone]
    exact List.mem_cons_self
  have hstart := (of_decide_eq_true (List.mem_filter.1 isWithin).2).2.2
  simp only [operatorGap, h.within hstop, joins.alone, List.map_cons, List.map_nil, Token.shift,
    Span.shift_start, Span.shift_stop, h.write]
  rw [h.copy (by omega), h.copy hstop]

theorem adapt_shift (h : Shifts n p q) (receiver : Expr) (text : List α) :
    q.adapt (receiver.shift n) text = p.adapt receiver text := by
  simp only [adapt, Expr.form_shift, h.front, h.back]

mutual

/-- Printing an expression needs nothing of the source outside of it. -/
theorem body_shift (h : Shifts n p q) {e : Expr} (nested : e.Nested p.source p.tokens) (k : Nat)
    (signed : Bool) : q.body k signed (e.shift n) = p.body k signed e := by
  cases nested with
  | @atom x a proper =>
      have text := Span.text_shift h.embeds proper.contentStop_le
      have copied : q.copy (x.content.start + n) (x.content.stop + n) = _ :=
        h.copy proper.contentStop_le
      cases a <;> simp only [Expr.shift, body, Extent.shift, Span.shift_start, Span.shift_stop,
        text, copied, h.write]
  | array proper elements => exact bodyAll_shift h elements proper.contentStop_le k _
  | @call x f es close proper callee starts apart arguments closes isClosing =>
      have items := bodyAll_shift h arguments proper.contentStop_le (k + f.temporaries)
        f.outer.stop
      simp only [Expr.shift, body, Expr.extent_shift, Expr.outer_shift, Expr.temporaries_shift,
        Span.shift_stop, around_shift h callee.proper, body_shift h callee]
      exact congrArg _ items
  | @member x o name proper object starts apart nonempty nameStart stops =>
      have hname : name.stop ≤ Text.byteLength p.source.toList := stops ▸ proper.contentStop_le
      have copied : q.copy (name.start + n) (name.stop + n) = _ := h.copy hname
      have copied' : q.copy (o.outer.stop + n) (name.stop + n) = _ := h.copy hname
      simp only [Expr.shift, body, Expr.extent_shift, Expr.outer_shift,
        Expr.isShorthand_shift h.embeds object, Span.shift_start, Span.shift_stop, h.write, copied,
        copied', around_shift h object.proper, body_shift h object]
  | @index x o i proper object starts apart key stops =>
      have copied : q.copy (o.outer.stop + n) (i.outer.start + n) = _ :=
        h.copy key.proper.outerStart_le
      have copied' : q.copy (i.outer.stop + n) (x.content.stop + n) = _ :=
        h.copy proper.contentStop_le
      simp only [Expr.shift, body, Expr.extent_shift, Expr.outer_shift, Expr.temporaries_shift,
        Extent.shift_content, Span.shift_start, Span.shift_stop, copied, copied',
        around_shift h object.proper, body_shift h object, around_shift h key.proper,
        body_shift h key]
  | @not x sign e proper starts nonempty apart operand stops =>
      have hstop : e.outer.start ≤ Text.byteLength p.source.toList := operand.proper.outerStart_le
      have text := Span.text_shift h.embeds (Nat.le_trans apart hstop)
      have copied : q.copy (sign.start + n) (e.outer.start + n) = _ := h.copy hstop
      simp only [Expr.shift, body, Expr.extent_shift, Expr.outer_shift, Expr.isMembership_shift,
        Span.shift_start, h.write, text, copied, around_shift h operand.proper,
        body_shift h operand]
  | @binary x l r op t proper left right joins kind spelt =>
      have gap := operatorGap_shift h joins right.proper.outerStart_le op
      simp only [Expr.shift, body, Expr.extent_shift, Expr.outer_shift, Expr.temporaries_shift,
        Span.shift_start, Span.shift_stop, gap, around_shift h left.proper, body_shift h left,
        around_shift h right.proper, body_shift h right]
  | membership proper left right joins kind =>
      simp only [Expr.shift, body, Expr.extent_shift, Expr.temporaries_shift, Expr.isPure_shift,
        h.write, h.names, adapt_shift h, around_shift h left.proper, body_shift h left,
        around_shift h right.proper, body_shift h right]
  | @assign x l r t proper left right joins kind =>
      have copied : q.copy (l.outer.stop + n) (r.outer.start + n) = _ :=
        h.copy right.proper.outerStart_le
      simp only [Expr.shift, body, Expr.extent_shift, Expr.outer_shift, Expr.temporaries_shift,
        Span.shift_start, Span.shift_stop, copied, around_shift h left.proper, body_shift h left,
        around_shift h right.proper, body_shift h right]

theorem bodyAll_shift (h : Shifts n p q) {es : List Expr} {first last stop : Nat}
    (nested : Expr.NestedAll p.source p.tokens first last es)
    (hstop : stop ≤ Text.byteLength p.source.toList) (k start : Nat) :
    q.bodyAll k (start + n) (stop + n) (Expr.shiftAll n es) = p.bodyAll k start stop es := by
  cases nested with
  | nil => exact h.copy hstop
  | @cons _ _ e es head _ _ tail =>
      have copied : q.copy (start + n) (e.outer.start + n) = _ :=
        h.copy head.proper.outerStart_le
      simp only [Expr.shiftAll, bodyAll, Expr.extent_shift, Expr.outer_shift,
        Expr.temporaries_shift, Span.shift_start, Span.shift_stop, copied,
        around_shift h head.proper, body_shift h head,
        bodyAll_shift h tail hstop (k + e.temporaries) e.outer.stop]

end

/-- The statements of the source are printed as in it, and then those behind them. -/
theorem program_shift (h : Shifts n p q) {es : List Expr} (later : List Expr) {first last : Nat}
    (nested : Expr.NestedAll p.source p.tokens first last es)
    (closed : ∀ e ∈ es, q.semicolon (e.outer.stop + n) = p.semicolon e.outer.stop)
    (behind : ∀ k start, start ≤ Text.byteLength p.source.toList →
      q.program k (start + n) later =
        q.copy (start + n) (Text.byteLength p.source.toList + n) ++
          q.program k (Text.byteLength p.source.toList + n) later)
    (k : Nat) {start : Nat} (hstart : start ≤ Text.byteLength p.source.toList) :
    q.program k (start + n) (Expr.shiftAll n es ++ later) =
      p.program k start es ++ q.program (k + Expr.temporariesAll es)
        (Text.byteLength p.source.toList + n) later := by
  induction es generalizing first k start with
  | nil =>
      refine (behind k start hstart).trans ?_
      rw [h.copy (Nat.le_refl _)]
      rfl
  | cons e es ih =>
      cases nested with
      | cons head _ _ tail =>
          have copied : q.copy (start + n) (e.outer.start + n) = _ :=
            h.copy head.proper.outerStart_le
          have rest : q.program (k + e.temporaries) (e.outer.stop + n) _ = _ :=
            ih tail (fun c hc => closed c (List.mem_cons_of_mem _ hc)) _ head.proper.outerStop_le
          simp only [Expr.shiftAll, List.cons_append, program, Expr.extent_shift,
            Expr.outer_shift, Expr.temporaries_shift, Span.shift_start, Span.shift_stop, copied,
            around_shift h head.proper, body_shift h head, closed e List.mem_cons_self, rest,
            List.append_assoc, Expr.temporariesAll, Nat.add_assoc]

end Shifts

/-- The statements of a source among others are printed as in the source alone. -/
theorem program_embedding {source whole : String} {n : Nat} {f : Token → Token}
    {before tokens after : List Token} {es : List Expr} (later : List Expr)
    (h : Token.Embedding source whole n f before tokens after)
    (read : Token.readAll source = .ok tokens)
    (parsed : Parser.statements source tokens = .ok es)
    (starts : ∀ e ∈ later.head?, Text.byteLength source.toList + n ≤ e.outer.start)
    (loose : Bool) (names : Nat → String) (k : Nat) :
    (plain whole (before ++ tokens.map f ++ after) loose names).program k n
        (Expr.shiftAll n es ++ later) =
      (plain source tokens loose names).program k 0 es ++
        (plain whole (before ++ tokens.map f ++ after) loose names).program
          (k + Expr.temporariesAll es) (Text.byteLength source.toList + n) later := by
  have stream := Token.stream_of_readAll read
  have printed := program_shift (shifts_plain h loose names) later
    (Parser.nested_of_statements read parsed) (fun e he => ?_) (fun k start hstart =>
      (copy_program k (Nat.add_le_add_right hstart n) starts fun _ => h.embeds.le).symm) k
    (Nat.zero_le _)
  · rw [Nat.zero_add] at printed
    exact printed
  · obtain ⟨t, ht, other, stops⟩ := (Parser.statements_sound parsed).exists_last stream e he
    simp only [semicolon, plain, adapting, ← stops, h.semicolon_shift stream ht other]

/-- The statements of two sources with a newline between them. -/
theorem program_join {a b : String} {n : Nat} {f : Token → Token}
    {tokens between later : List Token} {es es' : List Expr}
    (front : Token.Embedding a (a ++ "\n" ++ b) 0 f [] tokens
      (between ++ later.map (·.shift n)))
    (back : Token.Embedding b (a ++ "\n" ++ b) n (·.shift n) (tokens.map f ++ between) later [])
    (length : n = Text.byteLength a.toList + 1) (read : Token.readAll a = .ok tokens)
    (parsed : Parser.statements a tokens = .ok es) (read' : Token.readAll b = .ok later)
    (parsed' : Parser.statements b later = .ok es') (loose : Bool) (names : Nat → String)
    (k : Nat) :
    (plain (a ++ "\n" ++ b) (tokens.map f ++ (between ++ later.map (·.shift n))) loose
        names).program k 0 (Expr.shiftAll 0 es ++ Expr.shiftAll n es') =
      (plain a tokens loose names).program k 0 es ++
        '\n' :: (plain b later loose names).program (k + Expr.temporariesAll es) 0 es' := by
  have starts : ∀ e ∈ (Expr.shiftAll n es').head?, n ≤ e.outer.start := by
    intro e he
    cases es' with
    | nil => cases he
    | cons c es' =>
        cases he
        rw [Expr.outer_shift]
        exact Nat.le_add_left _ _
  have total : Text.byteLength b.toList + n = Text.byteLength (a ++ "\n" ++ b).toList := by
    have newline : '\n'.utf8Size = 1 := rfl
    rw [Token.toList_join, Text.byteLength_append, Text.byteLength_cons, length, newline]
    omega
  have line : Text.excerpt (Text.byteLength a.toList) n (a ++ "\n" ++ b).toList = ['\n'] := by
    rw [Token.toList_join, length, List.append_cons]
    exact Text.excerpt_append_append a.toList ['\n'] b.toList
  let whole := plain (a ++ "\n" ++ b) (tokens.map f ++ (between ++ later.map (·.shift n))) loose
    names
  let count := k + Expr.temporariesAll es
  have first : whole.program k 0 (Expr.shiftAll 0 es ++ Expr.shiftAll n es') =
      (plain a tokens loose names).program k 0 es ++
        whole.program count (Text.byteLength a.toList) (Expr.shiftAll n es') :=
    program_embedding _ front read parsed (fun e he => Nat.le_trans (by omega) (starts e he)) loose
      names k
  have seam : whole.program count (Text.byteLength a.toList) (Expr.shiftAll n es') =
      '\n' :: whole.program count n (Expr.shiftAll n es') := by
    rw [← copy_program count (show Text.byteLength a.toList ≤ n by omega) starts
      fun _ => by omega, line]
    rfl
  have second : whole.program count n (Expr.shiftAll n es') =
      (plain b later loose names).program count 0 es' := by
    have embedded := program_embedding [] back read' parsed' nofun loose names count
    rw [total, List.append_nil, List.append_nil, List.append_assoc] at embedded
    refine embedded.trans ((congrArg (_ ++ ·) ?_).trans (List.append_nil _))
    exact Text.excerpt_self ..
  exact first.trans (congrArg (_ ++ ·) (seam.trans (congrArg _ second)))

end Printer

/-- The sources that are lowered without temporaries, and their code. -/
theorem lowerSource_eq_ok_iff {source code : String} {o : Options} :
    lowerSource source o = .ok ⟨code, []⟩ ↔
      ∃ tokens es, Token.readAll source = .ok tokens ∧ Parser.statements source tokens = .ok es ∧
        Expr.temporariesAll es = 0 ∧ Expr.levelsAll source es ≤ maxDepth ∧
        code.toList = (Printer.plain source tokens o.looseIncludes fun _ => "").program 0 0 es := by
  constructor
  · intro h
    obtain ⟨tokens, es, read, parsed, lowered⟩ := exists_of_lowerSource h
    obtain ⟨code, count⟩ := Lowering.toList_code read parsed lowered
    have ends := Document.ends_lower o read parsed
    rw [lowered] at ends
    cases ends with
    | done shallow => exact ⟨tokens, es, read, parsed, count.symm, Nat.le_of_not_lt shallow, code⟩
  · rintro ⟨tokens, es, read, parsed, none, shallow, printed⟩
    have ends := Document.ends_lower o read parsed
    rw [none] at ends
    rw [lowerSource_of_statements o read parsed]
    cases lowered : (Document.ofStatements source tokens es).lower o with
    | error e =>
        rw [lowered] at ends
        cases ends with
        | tooDeep deep => exact absurd deep (Nat.not_lt.2 shallow)
        | exhausted none => cases none
    | ok out =>
        obtain ⟨code', bindings⟩ := out
        obtain ⟨printed', count⟩ := Lowering.toList_code read parsed lowered
        obtain rfl := List.length_eq_zero_iff.1 (count.trans none)
        have same : code'.toList = code.toList := printed'.trans printed.symm
        rw [String.toList_inj.1 same]

/-- Where no temporaries are needed, statements are lowered independently of those on other
    lines, however the two sources end and begin. -/
theorem lowerSource_join {a b code code' : String} {o : Options}
    (h : lowerSource a o = .ok ⟨code, []⟩) (h' : lowerSource b o = .ok ⟨code', []⟩) :
    lowerSource (a ++ "\n" ++ b) o = .ok ⟨code ++ "\n" ++ code', []⟩ := by
  obtain ⟨ts, es, read, parsed, none, shallow, printed⟩ := lowerSource_eq_ok_iff.1 h
  obtain ⟨ts', es', read', parsed', none', shallow', printed'⟩ := lowerSource_eq_ok_iff.1 h'
  obtain ⟨n, length⟩ : ∃ n, n = Text.byteLength a.toList + 1 := ⟨_, rfl⟩
  obtain ⟨f, between, readWhole, newline, embedding, embedding'⟩ :=
    Token.exists_of_readAll read read' length
  have nested := Parser.nested_of_statements read parsed
  have nested' := Parser.nested_of_statements read' parsed'
  have parsedBehind : Parser.statements (a ++ "\n" ++ b) (ts'.map (·.shift n)) =
      .ok (Expr.shiftAll n es') := by
    have behind := Parser.statements_shift embedding' parsed'
    rw [List.append_nil] at behind
    rw [behind, Parser.statements, Except.map, List.append_nil]
  have parsedWhole : Parser.statements (a ++ "\n" ++ b)
      (ts.map f ++ (between ++ ts'.map (·.shift n))) =
        .ok (Expr.shiftAll 0 es ++ Expr.shiftAll n es') := by
    rw [Parser.statements_shift embedding parsed, Parser.statements_append_newlines newline,
      parsedBehind]
    rfl
  refine lowerSource_eq_ok_iff.2 ⟨_, _, readWhole, parsedWhole, ?_, ?_, ?_⟩
  · rw [Expr.temporariesAll_append, Expr.temporariesAll_shift, Expr.temporariesAll_shift, none,
      none']
  · rw [Expr.levelsAll_append, Expr.levelsAll_shift embedding.embeds nested,
      Expr.levelsAll_shift embedding'.embeds nested']
    exact Nat.max_le.2 ⟨shallow, shallow'⟩
  · rw [Printer.program_join embedding embedding' length read parsed read' parsed', none, ← printed,
      ← printed', Token.toList_join]

theorem lowerSource_join_carriageReturn :
    lowerSource "a in @b\r" .standard = .ok ⟨"Array.from(this.b).includes(a);\r", []⟩ ∧
      lowerSource "; c isnt d # last" .standard = .ok ⟨"; c !== d; # last", []⟩ ∧
      lowerSource ("a in @b\r" ++ "\n" ++ "; c isnt d # last") .standard =
        .ok ⟨"Array.from(this.b).includes(a);\r" ++ "\n" ++ "; c !== d; # last", []⟩ := by
  have front : lowerSource "a in @b\r" .standard =
      .ok ⟨"Array.from(this.b).includes(a);\r", []⟩ := by
    decide +kernel
  have back : lowerSource "; c isnt d # last" .standard = .ok ⟨"; c !== d; # last", []⟩ := by
    decide +kernel
  exact ⟨front, back, lowerSource_join front back⟩

end MembershipLowering
