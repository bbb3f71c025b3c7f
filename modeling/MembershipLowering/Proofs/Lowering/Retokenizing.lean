import MembershipLowering.Proofs.Lowering.Refinement
import MembershipLowering.Proofs.Lowering.Weaving

/-! # Reading lowered code again

The lowered code of a source without membership tests, read once more: its tokens are
those of the source, each spelt the JavaScript way, and a semicolon behind each statement
that has none, unless two tokens of the source fuse (`lowerSource_tokens`).
-/

namespace MembershipLowering

open Token

namespace Token

variable {source : String} {ends : List Nat} {last : Option Token} {z : Token}
  {ts us : List Token}

/-- In a stretch each token stops before the next one does, up to the final one. -/
theorem stop_lt_of_mem_trail (stream : Stream source (last.toList ++ ts))
    (isFinal : final source last ts = some z) {step : Option Token × Token}
    (among : step ∈ trail source last ts) {p : Token} (isPrevious : p ∈ step.1) :
    p ∈ last.toList ++ ts ∧ p.span.stop < z.span.stop := by
  induction ts generalizing last with
  | nil => cases among
  | cons t ts ih =>
      rw [trail] at among
      rw [final] at isFinal
      split at among
      · rename_i passed
        rw [if_pos passed] at isFinal
        obtain ⟨mem, hlt⟩ := ih (stream.sublist ((List.sublist_cons_self t ts).append_left _))
          isFinal among
        refine ⟨?_, hlt⟩
        rw [List.mem_append] at mem ⊢
        exact mem.imp id (List.mem_cons_of_mem _)
      · rename_i passed
        rw [if_neg passed] at isFinal
        rcases List.mem_cons.1 among with rfl | later
        · have first : p.span.stop ≤ t.span.start :=
            stream.le_of_append (by simpa using isPrevious) (List.mem_cons_self ..)
          have positive := stream.right.start_lt_stop (List.mem_cons_self ..)
          refine ⟨List.mem_append_left _ (by simpa using isPrevious), ?_⟩
          rcases List.mem_cons.1 (mem_of_final isFinal) with rfl | behind
          · omega
          · have := (List.pairwise_cons.1 stream.right.ordered).1 z behind
            have := stream.right.start_lt_stop (List.mem_cons_of_mem _ behind)
            omega
        · have streamTail : Stream source ((some t).toList ++ ts) := stream.right
          obtain ⟨mem, hlt⟩ := ih streamTail isFinal later
          exact ⟨List.mem_append_right _ mem, hlt⟩

/-- Within a stretch no statement is closed if none ends there. -/
theorem pieces_eq_of_open (h : ∀ step ∈ trail source last ts, ∀ p ∈ step.1, p.span.stop ∉ ends) :
    pieces source ends last ts = pieces source [] last ts := by
  have closed : ∀ step ∈ trail source last ts,
      closing ends step.1 (some step.2) = closing [] step.1 (some step.2) := by
    intro step among
    have isOpen := h step among
    cases previous : step.1 with
    | none => rfl
    | some p => simp [closing, isOpen p (by rw [previous]; rfl)]
  rw [pieces, pieces, List.flatMap_def, List.flatMap_def]
  refine congrArg List.flatten (List.map_congr_left fun step among => ?_)
  rw [closed step among]

/-- A stretch ends with the final token, unless that is the word `not`. -/
theorem exists_of_final (isFinal : final source last ts = some z) (nonempty : ts ≠ [])
    (notNot : z.text source ≠ "not") : ∃ front, ts = front ++ [z] := by
  obtain ⟨front, t, rfl⟩ := (List.eq_nil_or_concat ts).resolve_left nonempty
  rw [List.concat_eq_append, final_append, final] at isFinal
  split at isFinal
  · rename_i passed
    rw [final] at isFinal
    obtain ⟨-, s, same, isNot⟩ := text_of_passesOver passed
    rw [isFinal] at same
    cases same
    exact absurd isNot notNot
  · cases isFinal
    exact ⟨front, List.concat_eq_append⟩

/-- The first token that starts where another one has stopped is the next one. -/
theorem find?_behind {front back : List Token} (stream : Stream source (front ++ z :: back)) :
    (front ++ z :: back).find? (z.span.stop ≤ ·.span.start) = back.head? := by
  have positive := stream.right.start_lt_stop (List.mem_cons_self ..)
  have none : front.find? (z.span.stop ≤ ·.span.start) = none := by
    rw [List.find?_eq_none]
    intro t ht behind
    have := stream.le_of_append ht (List.mem_cons_self ..)
    have := stream.left.start_lt_stop ht
    simp only [decide_eq_true_eq] at behind
    omega
  rw [List.find?_append, none, Option.none_or, List.find?_cons_of_neg (by simp; omega)]
  cases back with
  | nil => rfl
  | cons t back =>
      have hle := (List.pairwise_cons.1 stream.right.ordered).1 t (List.mem_cons_self ..)
      rw [List.find?_cons_of_pos (by simpa using hle)]
      rfl

theorem written_append (last : Option Token) (ts us : List Token) :
    written source ends last (ts ++ us) =
      Piece.weave (pieces source ends last ts) (written source ends (final source last ts) us) := by
  simp only [written, pieces_append, final_append, List.append_assoc, Piece.weave_append]

end Token

namespace Parser

variable {source : String} {tokens : List Token} {ends : List Nat} {ts : List Token}
  {es : List Expr} {e : Expr}

/-- A statement stands where some of the tokens do. -/
theorem DerivesProgram.exists_of_mem (h : DerivesProgram source ts es)
    (stream : Stream source ts) (he : e ∈ es) :
    (∃ t ∈ ts, t.span.start = e.outer.start) ∧ ∃ t ∈ ts, t.span.stop = e.outer.stop := by
  induction h with
  | nil => cases he
  | separator separates later ih =>
      obtain ⟨⟨t, ht, starts⟩, u, hu, stops⟩ := ih (stream.sublist (List.sublist_cons_self ..)) he
      exact ⟨⟨t, List.mem_cons_of_mem _ ht, starts⟩, u, List.mem_cons_of_mem _ hu, stops⟩
  | last statement =>
      obtain rfl := List.mem_singleton.1 he
      have covers := statement.covers stream
      obtain ⟨t, ht, -, starts⟩ := covers.exists_first
      obtain ⟨u, hu, -, stops⟩ := covers.exists_last
      exact ⟨⟨t, ht, starts⟩, u, hu, stops⟩
  | statement statement separates later ih =>
      rcases List.mem_cons.1 he with rfl | he
      · have covers := statement.covers stream.left
        obtain ⟨t, ht, -, starts⟩ := covers.exists_first
        obtain ⟨u, hu, -, stops⟩ := covers.exists_last
        exact ⟨⟨t, List.mem_append_left _ ht, starts⟩, u, List.mem_append_left _ hu, stops⟩
      · obtain ⟨⟨t, ht, starts⟩, u, hu, stops⟩ :=
          ih (stream.right.sublist (List.sublist_cons_self ..)) he
        exact ⟨⟨t, List.mem_append_right _ (List.mem_cons_of_mem _ ht), starts⟩, u,
          List.mem_append_right _ (List.mem_cons_of_mem _ hu), stops⟩

/-- Statements end where the list says, and no other tokens end there. -/
structure Ends (ends : List Nat) (ts : List Token) (es : List Expr) : Prop where
  isEnd : ∀ e ∈ es, e.outer.stop ∈ ends
  isStop : ∀ t ∈ ts, t.span.stop ∈ ends → ∃ e ∈ es, e.outer.stop = t.span.stop

theorem Ends.tail {t : Token} (h : Ends ends (t :: ts) es) : Ends ends ts es :=
  ⟨h.isEnd, fun u hu => h.isStop u (List.mem_cons_of_mem _ hu)⟩

/-- If one statement is left, an end among the tokens is its end. -/
theorem Ends.last {seg : List Token} (h : Ends ends seg [e]) :
    ∀ t ∈ seg, t.span.stop ∈ ends → t.span.stop = e.outer.stop := by
  intro t ht isEnd
  obtain ⟨e', he', stops⟩ := h.isStop t ht isEnd
  rw [← stops, List.mem_singleton.1 he']

/-- The first statement ends with its tokens, and the others with those behind it. -/
theorem Ends.statement {level : Nat} {seg : List Token} {t : Token}
    (h : Ends ends (seg ++ t :: ts) (e :: es)) (statement : Derives source false level seg e)
    (later : DerivesProgram source ts es) (stream : Stream source (seg ++ t :: ts)) :
    (∀ u ∈ seg, u.span.stop ∈ ends → u.span.stop = e.outer.stop) ∧ Ends ends (t :: ts) es := by
  obtain ⟨w, hw, -, stops⟩ := (statement.covers stream.left).exists_last
  refine ⟨fun u hu isEnd => ?_, fun e' he' => h.isEnd e' (List.mem_cons_of_mem _ he'),
    fun u hu isEnd => ?_⟩
  · obtain ⟨e', he', same⟩ := h.isStop u (List.mem_append_left _ hu) isEnd
    rcases List.mem_cons.1 he' with rfl | he'
    · exact same.symm
    · obtain ⟨-, v, hv, stops'⟩ :=
        later.exists_of_mem (stream.right.sublist (List.sublist_cons_self ..)) he'
      have := stream.le_of_append hu (List.mem_cons_of_mem t hv)
      have := stream.right.start_lt_stop (List.mem_cons_of_mem t hv)
      omega
  · obtain ⟨e', he', same⟩ := h.isStop u (List.mem_append_right _ hu) isEnd
    rcases List.mem_cons.1 he' with rfl | he'
    · have := stream.le_of_append hw hu
      have := stream.right.start_lt_stop hu
      omega
    · exact ⟨e', he', same⟩

/-- No statement has been begun: `last` is a separator and ends none. -/
def Between (ends : List Nat) (last : Option Token) : Prop :=
  ∀ s ∈ last, s.kind.isSeparator = true ∧ s.span.stop ∉ ends

namespace Between

variable {last : Option Token}

theorem kind_ne (h : Between ends last) : ∀ s ∈ last, s.kind ≠ .not ∧ s.kind.opensOperand = true ∧
    ∀ b, s.kind.admits b = true := by
  intro s hs
  have separates := (h s hs).1
  cases kind : s.kind <;> rw [kind] at separates <;>
    first | exact ⟨TokenKind.noConfusion, rfl, fun _ => rfl⟩ | cases separates

theorem closing_eq (h : Between ends last) (next : Option Token) : closing ends last next = [] := by
  cases last with
  | none => rfl
  | some s => simp [closing, (h s rfl).2]

theorem gap_eq (h : Between ends last) (stream : Stream source (last.toList ++ ts)) (stop : Nat) :
    gap source last stop = Text.excerpt (last.elim 0 (·.span.stop)) stop source.toList := by
  cases last with
  | none => rfl
  | some s => exact gap_of_kind (stream.shape (List.mem_cons_self ..)) (h.kind_ne s rfl).1 stop

end Between

variable (loose : Bool) (names : Nat → String)

/-- Nothing is closed within a statement. -/
theorem not_mem_ends_of_statement {seg : List Token} {last : Option Token} {z : Token}
    (stream : Stream source (last.toList ++ seg)) (isFinal : final source last seg = some z)
    (stops : z.span.stop = e.outer.stop) (between : Between ends last)
    (isStop : ∀ t ∈ seg, t.span.stop ∈ ends → t.span.stop = e.outer.stop) :
    ∀ step ∈ trail source last seg, ∀ p ∈ step.1, p.span.stop ∉ ends := by
  intro step among p isPrevious isEnd
  obtain ⟨mem, hlt⟩ := stop_lt_of_mem_trail stream isFinal among isPrevious
  rcases List.mem_append.1 mem with isLast | mem
  · exact (between p (by simpa using isLast)).2 isEnd
  · rw [isStop p mem isEnd, stops] at hlt
    exact absurd hlt (Nat.lt_irrefl _)

/-- A statement is written the way it is printed, up to what closes it. -/
theorem written_statement {level : Nat} {seg : List Token} {last : Option Token}
    (statement : Derives source false level seg e) (all : Stream source tokens)
    (part : seg <:+: tokens) (plain : e.hasMembership = false)
    (stream : Stream source (last.toList ++ seg)) (k : Nat)
    (between : Between ends last)
    (isStop : ∀ t ∈ seg, t.span.stop ∈ ends → t.span.stop = e.outer.stop) :
    ∃ z, final source last seg = some z ∧ z.kind.endsOperand = true ∧
      z.span.stop = e.outer.stop ∧
      (∀ step ∈ trail source last seg, Follows source ends step.1 step.2) ∧
      ∀ rest, Piece.weave (pieces source ends last seg) rest =
        gap source last e.outer.start ++
          ((Printer.plain source tokens loose names).whole k e ++ rest) := by
  obtain ⟨z, writes, endsOperand, stops⟩ :=
    (statement.weaves all part plain : Weaves source tokens loose names seg e) k last stream
      fun s hs => (between.kind_ne s hs).2.1
  have isOpen := not_mem_ends_of_statement stream writes.final stops between isStop
  refine ⟨z, writes.final, endsOperand, stops, fun step among => ?_, fun rest => ?_⟩
  · obtain ⟨relation, admitted, -⟩ := writes.follows step among
    exact ⟨relation, admitted, fun s hs isEnd => absurd isEnd (isOpen step among s hs)⟩
  · have text := writes.text
    rw [Piece.weave, List.append_nil] at text
    rw [pieces_eq_of_open isOpen, Piece.weave, text, List.append_assoc]

theorem any_text_eq_not {t : Token} {last : Option Token}
    (stream : Stream source (last.toList ++ t :: ts)) (notNot : ∀ s ∈ last, s.kind ≠ .not) :
    last.any (·.text source = "not") = false := by
  cases last with
  | none => rfl
  | some s => simpa using (stream.shape (List.mem_cons_self ..)).ne_not (notNot s rfl)

/-- A separator is spelt as it is. -/
theorem spelling_separator {t : Token} (shape : Lexeme.Shape t.kind (t.text source).toList)
    (separates : t.kind.isSeparator = true) (last : Option Token) :
    spelling source last t = [t.text source] := by
  have kinds := TokenKind.isSeparator_iff.1 separates
  have notAt : t.text source ≠ "@" :=
    shape.ne_at (by rcases kinds with kind | kind <;> rw [kind] <;> decide)
  refine spelling_plain shape ⟨?_, ?_, notAt⟩ ?_
  · rcases kinds with kind | kind <;> rw [kind] <;> decide
  · rcases kinds with kind | kind <;> rw [kind] <;> decide
  · rcases kinds with kind | kind <;> cases last <;> simp [isShorthand, kind]

/-- A separator is written as it is. -/
theorem written_separator {ends : List Nat} {last : Option Token} {t : Token}
    (stream : Stream source (last.toList ++ t :: ts)) (separates : t.kind.isSeparator = true)
    (hlast : ∀ s ∈ last, s.kind.admits t.kind = true ∧ s.kind ≠ .not) :
    (∀ step ∈ trail source (some t) ts, Follows source ends step.1 step.2) →
      (∀ step ∈ trail source last (t :: ts), Follows source ends step.1 step.2) ∧
        written source ends last (t :: ts) = (closing ends last (some t)).flatMap String.toList ++
          (Text.excerpt (last.elim 0 (·.span.stop)) t.span.stop source.toList ++
            written source ends (some t) ts) := by
  intro later
  have notNot := any_text_eq_not stream fun s hs => (hlast s hs).2
  have passed : passesOver source last t = false := by simp [passesOver, notNot]
  have spelt := spelling_separator (stream.right.shape (List.mem_cons_self ..)) separates last
  have joined := gap_append stream notNot t.span.stop (Nat.le_refl _)
  rw [Text.excerpt_self, List.append_nil] at joined
  constructor
  · rw [trail, if_neg (by simp [passed])]
    intro step among
    rcases List.mem_cons.1 among with rfl | among
    · refine ⟨fun kind => ?_, fun s hs => .inl (hlast s hs).1, fun _ _ _ => separates⟩
      rw [kind] at separates
      cases separates
    · exact later step among
  · rw [written_cons passed, spelt, List.flatMap_singleton, ← List.append_assoc (gap ..), joined,
      gap, if_neg (by simp [notNot])]

/-- What stands in front of statements is printed along with them. -/
theorem copy_statements {start : Nat} (h : DerivesProgram source ts es) {t : Token}
    (stream : Stream source (t :: ts)) (hle : start ≤ t.span.stop) (k : Nat) :
    Text.excerpt start t.span.stop source.toList ++
        (Printer.plain source tokens loose names).program k t.span.stop es =
      (Printer.plain source tokens loose names).program k start es := by
  refine Printer.copy_program k hle (fun e first => ?_)
    fun _ => stream.stop_le (List.mem_cons_self ..)
  obtain ⟨⟨u, hu, starts⟩, -⟩ := h.exists_of_mem (stream.sublist (List.sublist_cons_self ..))
    (List.mem_of_head? first)
  exact starts ▸ (List.pairwise_cons.1 stream.ordered).1 u hu

/-- A separator ends no statement. -/
theorem Ends.not_mem {t : Token} (h : DerivesProgram source ts es)
    (stream : Stream source (t :: ts)) (isStop : t.span.stop ∈ ends →
      ∃ e ∈ es, e.outer.stop = t.span.stop) : t.span.stop ∉ ends := by
  intro isEnd
  obtain ⟨e, he, stops⟩ := isStop isEnd
  obtain ⟨-, u, hu, same⟩ := h.exists_of_mem (stream.sublist (List.sublist_cons_self ..)) he
  have := (List.pairwise_cons.1 stream.ordered).1 u hu
  have := stream.start_lt_stop (List.mem_cons_of_mem _ hu)
  omega

/-- What closes a statement is told by the next token. -/
theorem closing_eq_semicolon {z : Token} {next : Option Token} {stop : Nat}
    (stops : z.span.stop = stop) (isEnd : stop ∈ ends)
    (first : tokens.find? (z.span.stop ≤ ·.span.start) = next) :
    (closing ends (some z) next).flatMap String.toList =
      (Printer.plain source tokens loose names).semicolon stop := by
  subst stops
  rw [Printer.semicolon, show (Printer.plain source tokens loose names).tokens.find? _ = next
    from first]
  by_cases closed : next.any (·.kind = .semicolon) = true
  · rw [if_pos closed]
    simp [closing, closed]
  · rw [if_neg closed]
    rw [Bool.not_eq_true] at closed
    simp [closing, closed, isEnd]
    rfl

/-- Statements are written the way they are printed, and the tokens follow each other as the
    grammar allows. -/
theorem DerivesProgram.written (h : DerivesProgram source ts es) {before : List Token}
    {last : Option Token} (all : Stream source tokens) (split : tokens = before ++ ts)
    (stream : Stream source (last.toList ++ ts))
    (plain : Expr.hasMembershipAll es = false) (atEnds : Ends ends ts es)
    (between : Between ends last) (k : Nat) :
    (∀ step ∈ trail source last ts, Follows source ends step.1 step.2) ∧
      Token.written source ends last ts =
        (Printer.plain source tokens loose names).program k (last.elim 0 (·.span.stop)) es := by
  induction h generalizing before last k with
  | nil =>
      refine ⟨fun step none => by (cases none), ?_⟩
      rw [written_nil, between.closing_eq, between.gap_eq stream]
      rfl
  | @separator t ts es separates later ih =>
      have streamTail := stream.right
      have notEnd := Ends.not_mem later streamTail (atEnds.isStop t (List.mem_cons_self ..))
      have hle := stream.elim_le (List.mem_cons_self ..)
      have positive := streamTail.start_lt_stop (List.mem_cons_self ..)
      have behind : Stream source ((some t).toList ++ ts) := streamTail
      have splitTail : tokens = before ++ [t] ++ ts := by rw [split]; simp
      obtain ⟨follows, written⟩ := ih splitTail behind plain atEnds.tail
        (fun s same => by cases same; exact ⟨separates, notEnd⟩) k
      obtain ⟨followsAll, writtenAll⟩ := written_separator stream separates
        (fun s hs => ⟨(between.kind_ne s hs).2.2 t.kind, (between.kind_ne s hs).1⟩) follows
      refine ⟨followsAll, ?_⟩
      rw [writtenAll, between.closing_eq, written, List.flatMap_nil, List.nil_append]
      exact copy_statements loose names later streamTail (by omega) k
  | @last level seg e statement =>
      obtain ⟨z, final, endsOperand, stops, follows, writes⟩ := written_statement loose names
        statement all (split ▸ List.infix_append_right) (Bool.or_eq_false_iff.1 plain).1 stream k
        between atEnds.last
      refine ⟨follows, ?_⟩
      have among := mem_of_final final
      have notNot : z.kind ≠ .not := fun kind => by rw [kind] at endsOperand; cases endsOperand
      have shape := stream.shape among
      obtain ⟨first, isFirst, -⟩ := (statement.covers stream.right).exists_first
      obtain ⟨front, rfl⟩ := exists_of_final final (List.ne_nil_of_mem isFirst)
        (shape.ne_not notNot)
      have next : tokens.find? (z.span.stop ≤ ·.span.start) = none := by
        rw [split, ← List.append_assoc] at all ⊢
        exact find?_behind all
      rw [Token.written, final, Piece.weave_append, writes, Piece.weave_bare,
        closing_eq_semicolon loose names stops (atEnds.isEnd e (List.mem_singleton.2 rfl)) next,
        between.gap_eq stream, gap_of_kind shape notNot, stops, Printer.program, Printer.program]
      simp only [List.append_assoc]
      rfl
  | @statement level seg ts t e es statement separates later ih =>
      have plains : _ ∧ _ := Bool.or_eq_false_iff.1 plain
      obtain ⟨isStop, endsTail⟩ := atEnds.statement statement later stream.right
      obtain ⟨z, final, endsOperand, stops, follows, writes⟩ := written_statement loose names
        statement all (split ▸ ⟨before, t :: ts, (List.append_assoc ..)⟩) plains.1 stream.front k
        between isStop
      have streamTail : Stream source ([z] ++ t :: ts) := stream.behind final
      have notEnd := Ends.not_mem later streamTail.right (endsTail.isStop t (List.mem_cons_self ..))
      have notNot : z.kind ≠ .not := fun kind => by rw [kind] at endsOperand; cases endsOperand
      have shape := streamTail.shape (List.mem_cons_self ..)
      have behind : Stream source ((some t).toList ++ ts) := streamTail.right
      have splitTail : tokens = before ++ seg ++ [t] ++ ts := by rw [split]; simp
      obtain ⟨followsLater, written⟩ := ih splitTail behind plains.2 endsTail.tail
        (fun s same => by cases same; exact ⟨separates, notEnd⟩) (k + e.temporaries)
      have admits : z.kind.admits t.kind = true := by
        refine TokenKind.admits_of_ends endsOperand (.inl ?_)
        cases kind : t.kind <;> rw [kind] at separates <;> first | rfl | cases separates
      have streamAll : Stream source ((some z).toList ++ t :: ts) := streamTail
      obtain ⟨followsTail, writtenTail⟩ := written_separator streamAll separates
        (fun s same => by cases same; exact ⟨admits, notNot⟩) followsLater
      obtain ⟨first, isFirst, -⟩ := (statement.covers stream.right.left).exists_first
      obtain ⟨front, rfl⟩ := exists_of_final final (List.ne_nil_of_mem isFirst)
        (shape.ne_not notNot)
      have next : tokens.find? (z.span.stop ≤ ·.span.start) = some t := by
        rw [split, List.append_assoc, ← List.append_assoc] at all ⊢
        exact find?_behind all
      have hle : z.span.stop ≤ t.span.start := streamAll.elim_le (List.mem_cons_self ..)
      have positive := streamTail.right.start_lt_stop (List.mem_cons_self ..)
      refine ⟨fun step among => ?_, ?_⟩
      · rw [trail_append, final] at among
        exact (List.mem_append.1 among).elim (follows step) (followsTail step)
      · rw [written_append, writes, final, writtenTail, written, Option.elim_some, Option.elim_some,
          copy_statements loose names later streamTail.right (by omega) (k + e.temporaries),
          closing_eq_semicolon loose names stops (atEnds.isEnd e (List.mem_cons_self ..)) next,
          between.gap_eq stream, stops, Printer.program]
        simp only [List.append_assoc]
        rfl

end Parser

/-- The lowered code of a source without membership tests is what is to be written for its
    tokens. -/
theorem Lowering.toList_code_eq_written {source : String} {o : Options} {out : Output}
    {tokens : List Token} {es : List Expr} (read : Token.readAll source = .ok tokens)
    (parsed : Parser.statements source tokens = .ok es)
    (lowered : (Document.ofStatements source tokens es).lower o = .ok out)
    (plain : Expr.hasMembershipAll es = false) :
    Token.Orderly source (es.map (·.outer.stop)) none 0 tokens ∧
      out.code.toList = Token.written source (es.map (·.outer.stop)) none tokens := by
  have stream := Token.stream_of_readAll read
  have atEnds : Parser.Ends (es.map (·.outer.stop)) tokens es :=
    ⟨fun e he => List.mem_map_of_mem he, fun t _ isEnd => List.mem_map.1 isEnd⟩
  obtain ⟨follows, written⟩ := (Parser.statements_sound parsed).written o.looseIncludes
    (out.bindings.getD · "") stream (List.nil_append _).symm
    (show Token.Stream source ((none : Option Token).toList ++ tokens) from stream) plain atEnds
    (fun s none => by cases none) 0
  refine ⟨⟨(Token.readAll_eq_ok_iff.1 read).laid (List.nil_append _).symm rfl, fun _ => rfl,
    follows⟩, ?_⟩
  rw [(Lowering.toList_code read parsed lowered).1, written]
  rfl

/-- The tokens of the lowered code of a source without membership tests are those of the source,
    each spelt the JavaScript way, exactly if no two of them are glued together. -/
theorem lowerSource_tokens {source : String} {o : Options} {out : Output} {tokens : List Token}
    {es : List Expr} (h : lowerSource source o = .ok out)
    (read : Token.readAll source = .ok tokens) (parsed : Parser.statements source tokens = .ok es)
    (plain : Expr.hasMembershipAll es = false) :
    (∃ ts, Token.readAll out.code = .ok ts ∧ ts.map (·.text out.code) =
        Token.respelled source (es.map (·.outer.stop)) none tokens) ↔
      Token.Separate source tokens := by
  obtain ⟨orderly, written⟩ := Lowering.toList_code_eq_written read parsed
    (lower_of_lowerSource h read parsed) plain
  rw [← spelt_toList_iff, written, Token.spelt_written_iff orderly]

theorem lowerSource_tokens_touching :
    lowerSource "not@x isnt(y)" .standard = .ok ⟨"!this.x !==(y);", []⟩ ∧
      ∃ tokens es, Token.readAll "not@x isnt(y)" = .ok tokens ∧
        Parser.statements "not@x isnt(y)" tokens = .ok es ∧ Expr.hasMembershipAll es = false ∧
        ((∃ ts, Token.readAll "!this.x !==(y);" = .ok ts ∧ ts.map (·.text "!this.x !==(y);") =
            Token.respelled "not@x isnt(y)" (es.map (·.outer.stop)) none tokens) ↔
          Token.Separate "not@x isnt(y)" tokens) ∧
        Token.respelled "not@x isnt(y)" (es.map (·.outer.stop)) none tokens =
          ["!", "this", ".", "x", "!=", "=", "(", "y", ")", ";"] ∧
        Token.Separate "not@x isnt(y)" tokens := by
  have ran : lowerSource "not@x isnt(y)" .standard = .ok ⟨"!this.x !==(y);", []⟩ := by
    decide +kernel
  obtain ⟨tokens, es, read, parsed, -⟩ := exists_of_lowerSource ran
  have results : ∀ tokens, Token.readAll "not@x isnt(y)" = .ok tokens →
      Token.Separate "not@x isnt(y)" tokens ∧
      ∀ es, Parser.statements "not@x isnt(y)" tokens = .ok es →
        Expr.hasMembershipAll es = false ∧
        Token.respelled "not@x isnt(y)" (es.map (·.outer.stop)) none tokens =
          ["!", "this", ".", "x", "!=", "=", "(", "y", ")", ";"] := by
    decide +kernel
  obtain ⟨separate, results⟩ := results tokens read
  obtain ⟨plain, texts⟩ := results es parsed
  exact ⟨ran, tokens, es, read, parsed, plain, lowerSource_tokens ran read parsed plain, texts,
    separate⟩

/-- Behind a sign that touches it, the word `instanceof` becomes the end of another word. -/
theorem lowerSource_tokens_glued :
    lowerSource "@instanceof B" .standard = .ok ⟨"thisinstanceof B;", []⟩ ∧
      ∃ tokens es, Token.readAll "@instanceof B" = .ok tokens ∧
        Parser.statements "@instanceof B" tokens = .ok es ∧ Expr.hasMembershipAll es = false ∧
        ¬∃ ts, Token.readAll "thisinstanceof B;" = .ok ts ∧ ts.map (·.text "thisinstanceof B;") =
          Token.respelled "@instanceof B" (es.map (·.outer.stop)) none tokens := by
  have ran : lowerSource "@instanceof B" .standard = .ok ⟨"thisinstanceof B;", []⟩ := by
    decide +kernel
  obtain ⟨tokens, es, read, parsed, -⟩ := exists_of_lowerSource ran
  have results : ∀ tokens, Token.readAll "@instanceof B" = .ok tokens →
      ∀ es, Parser.statements "@instanceof B" tokens = .ok es →
        Expr.hasMembershipAll es = false ∧
        Token.respelled "@instanceof B" (es.map (·.outer.stop)) none tokens =
          ["this", "instanceof", "B", ";"] := by
    decide +kernel
  obtain ⟨plain, texts⟩ := results tokens read es parsed
  have lowered : ∀ ts, Token.readAll "thisinstanceof B;" = .ok ts →
      ts.map (·.text "thisinstanceof B;") = ["thisinstanceof", "B", ";"] := by
    decide +kernel
  refine ⟨ran, tokens, es, read, parsed, plain, ?_⟩
  rintro ⟨ts, readAgain, same⟩
  rw [texts, lowered ts readAgain] at same
  exact absurd same (by decide)

end MembershipLowering
