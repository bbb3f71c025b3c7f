import MembershipLowering.Proofs.JavaScript.Translation
import MembershipLowering.Proofs.Lowering.Retokenizing

/-! # The grouping of lowered code

The lowered code of a source without membership tests, read as JavaScript: its statements are
those of the source, and their operators are grouped as in the source
(`lowerSource_grouping`), provided that no two tokens are glued together and no ordering relies
on levels that JavaScript does not have.
-/

namespace MembershipLowering

open Token JavaScript

namespace Token

variable {source : String} {ends : List Nat} {last : Option Token} {t : Token} {ts us : List Token}

theorem respelled_append :
    respelled source ends last (ts ++ us) = (pieces source ends last ts).map (·.text) ++
      respelled source ends (final source last ts) us := by
  rw [← map_text_pieces, ← map_text_pieces, pieces_append, final_append, List.map_append,
    List.append_assoc]

/-- Where nothing is closed, the signs are those of the tokens. -/
theorem signs_pieces (rest : List String) :
    signs ((pieces source [] last ts).map (·.text) ++ rest) =
      translated source last ts ++ signs rest := by
  rw [pieces, translated]
  induction trail source last ts with
  | nil => rfl
  | cons step steps ih =>
      have none : closing [] step.1 (some step.2) = [] := by simp [closing]
      rw [List.flatMap_cons, List.flatMap_cons, List.map_append, List.map_append,
        Piece.map_text_bare, Piece.map_text_behind, none, List.nil_append, List.append_assoc,
        List.append_assoc, signs_spelling, ih]

end Token

namespace Parser

variable {source : String} {ends : List Nat} {last : Option Token} {t : Token} {ts seg : List Token}
  {es : List Expr} {e : Expr}

/-- A separator leaves a semicolon, or nothing if no statement ends there. -/
theorem signs_respelled_separator (stream : Stream source (last.toList ++ t :: ts))
    (notNot : ∀ s ∈ last, s.kind ≠ .not) (separates : t.kind.isSeparator = true) :
    signs (respelled source ends last (t :: ts)) =
      (if last.any (·.span.stop ∈ ends) || t.kind = .semicolon then [";"] else []) ++
        signs (respelled source ends (some t) ts) := by
  have shape := stream.right.shape (List.mem_cons_self ..)
  have passed : passesOver source last t = false := by
    simp [passesOver, any_text_eq_not stream notNot]
  rw [respelled, if_neg (by simp [passed]), spelling_separator shape separates]
  cases kind : t.kind <;> rw [kind] at separates <;> try cases separates
  · have skipped : ∀ rest, signs (t.text source :: rest) = signs rest := by
      intro rest
      rw [signs_cons (shape.ne_comparison (by rw [kind]; decide)), if_pos (shape.isNewline kind)]
    by_cases isEnd : last.any (·.span.stop ∈ ends) = true
    · have closed : closing ends last (some t) = [";"] := by simp [closing, kind, isEnd]
      rw [closed, if_pos (by simp [isEnd])]
      exact congrArg (";" :: ·) (skipped _)
    · have closed : closing ends last (some t) = [] := by simp [closing, isEnd]
      rw [closed, if_neg (by simp [isEnd])]
      exact skipped _
  · have closed : closing ends last (some t) = [] := by simp [closing, kind]
    have text : t.text source = ";" := shape.eq_signText (by rw [kind]; rfl)
    rw [closed, text, if_pos (by simp)]
    rfl

/-- A statement and what comes behind it. -/
theorem signs_respelled_statement {level : Nat} (statement : Derives source false level seg e)
    (stream : Stream source (last.toList ++ (seg ++ ts))) (plain : e.hasMembership = false)
    (keeps : e.keepsGrouping = true) (between : Between ends last)
    (isStop : ∀ t ∈ seg, t.span.stop ∈ ends → t.span.stop = e.outer.stop) :
    ∃ z texts own, z.kind.endsOperand = true ∧ z.span.stop = e.outer.stop ∧
      Stream source ((some z).toList ++ ts) ∧ Groups own texts (e.term source) ∧
      signs (respelled source ends last (seg ++ ts)) =
        texts ++ signs (respelled source ends (some z) ts) := by
  obtain ⟨z, final, endsOperand, stops, -⟩ := written_statement false (fun _ => "") statement
    stream.right.left List.infix_rfl plain stream.front 0 between isStop
  obtain ⟨y, texts, own, translates, -, grouped, -⟩ := statement.regroups plain keeps last
    stream.front fun s hs => (between.kind_ne s hs).2.1
  refine ⟨z, texts, own, endsOperand, stops, stream.behind final, grouped, ?_⟩
  rw [respelled_append, pieces_eq_of_open
    (not_mem_ends_of_statement stream.front final stops between isStop), signs_pieces,
    translates.texts, final]

/-- JavaScript groups what stands for statements as the statements are grouped. -/
theorem DerivesProgram.regroups (h : DerivesProgram source ts es)
    (stream : Stream source (last.toList ++ ts)) (plain : Expr.hasMembershipAll es = false)
    (keeps : Expr.keepsGroupingAll es = true) (atEnds : Ends ends ts es)
    (between : Between ends last) :
    Program (signs (respelled source ends last ts)) (Expr.terms source es) := by
  induction h generalizing last with
  | nil =>
      rw [respelled, between.closing_eq]
      exact .nil
  | @separator t ts es separates later ih =>
      have notEnd := Ends.not_mem later stream.right (atEnds.isStop t (List.mem_cons_self ..))
      have rest : Program (signs (respelled source ends (some t) ts)) (Expr.terms source es) :=
        ih stream.right plain keeps atEnds.tail
          (fun s same => by cases same; exact ⟨separates, notEnd⟩)
      rw [signs_respelled_separator stream (fun s hs => (between.kind_ne s hs).1) separates]
      split
      · exact .empty rest
      · exact rest
  | @last level seg e statement =>
      have plains : _ ∧ _ := Bool.or_eq_false_iff.1 plain
      have both : _ ∧ _ := (Bool.and_eq_true ..).mp keeps
      have streamAll : Stream source (last.toList ++ (seg ++ [])) := by rwa [List.append_nil]
      obtain ⟨z, texts, own, -, stops, -, grouped, same⟩ :=
        signs_respelled_statement statement streamAll plains.1 both.1 between atEnds.last
      have closed : closing ends (some z) none = [";"] := by
        simp [closing, stops, atEnds.isEnd e (List.mem_singleton.2 rfl)]
      rw [List.append_nil] at same
      rw [same, respelled, closed]
      exact .statement grouped .nil
  | @statement level seg ts t e es statement separates later ih =>
      have plains : _ ∧ _ := Bool.or_eq_false_iff.1 plain
      have both : _ ∧ _ := (Bool.and_eq_true ..).mp keeps
      obtain ⟨isStop, endsTail⟩ := atEnds.statement statement later stream.right
      obtain ⟨z, texts, own, endsOperand, stops, behind, grouped, same⟩ :=
        signs_respelled_statement statement stream plains.1 both.1 between isStop
      have notEnd := Ends.not_mem later behind.right (endsTail.isStop t (List.mem_cons_self ..))
      have rest : Program (signs (respelled source ends (some t) ts)) (Expr.terms source es) :=
        ih behind.right plains.2 both.2 endsTail.tail
          (fun s same => by cases same; exact ⟨separates, notEnd⟩)
      have isEnd : (some z).any (·.span.stop ∈ ends) = true := by
        simp [stops, atEnds.isEnd e (List.mem_cons_self ..)]
      rw [same, signs_respelled_separator behind
        (fun s same kind => by cases same; rw [kind] at endsOperand; cases endsOperand) separates,
        if_pos (by simp [isEnd])]
      exact .statement grouped rest

end Parser

/-- The statements of the lowered code of a source without membership tests, read as JavaScript,
    are those of the source, with their operators grouped as in the source, and JavaScript has no
    other way to group them, exactly if no ordering has a bare equality to its left or a bare
    `instanceof` to its right. No two tokens may be glued together. -/
theorem lowerSource_grouping {source : String} {o : Options} {out : Output} {tokens : List Token}
    {es : List Expr} (h : lowerSource source o = .ok out)
    (read : Token.readAll source = .ok tokens) (parsed : Parser.statements source tokens = .ok es)
    (plain : Expr.hasMembershipAll es = false) (separate : Token.Separate source tokens) :
    (∃ ts, Token.readAll out.code = .ok ts ∧
      ∀ terms, Program (signs (ts.map (·.text out.code))) terms ↔ terms = Expr.terms source es) ↔
      Expr.keepsGroupingAll es = true := by
  obtain ⟨orderly, written⟩ := Lowering.toList_code_eq_written read parsed
    (lower_of_lowerSource h read parsed) plain
  have spelt := (Token.spelt_written_iff orderly).2 separate
  rw [← written, spelt_toList_iff] at spelt
  obtain ⟨ts, readAgain, texts⟩ := spelt
  constructor
  · rintro ⟨ts, -, grouped⟩
    exact Expr.keepsGroupingAll_of_fits plain ((grouped _).2 rfl).fits
  · intro keeps
    have program : Program (signs (ts.map (·.text out.code))) (Expr.terms source es) := by
      rw [texts]
      exact (Parser.statements_sound parsed).regroups (Token.stream_of_readAll read) plain keeps
        ⟨fun e he => List.mem_map_of_mem he, fun t _ isEnd => List.mem_map.1 isEnd⟩
        (fun s none => by cases none)
    refine ⟨ts, readAgain, fun terms => ⟨fun other => other.unique program, ?_⟩⟩
    rintro rfl
    exact program

theorem lowerSource_grouping_mixed :
    lowerSource "x = not a or (b is c) < d - 1 - @e and f(g)" .standard =
        .ok ⟨"x = !a || (b === c) < d - 1 - this.e && f(g);", []⟩ ∧
      ∃ ts, Token.readAll "x = !a || (b === c) < d - 1 - this.e && f(g);" = .ok ts ∧
        ∀ terms,
          Program (signs (ts.map (·.text "x = !a || (b === c) < d - 1 - this.e && f(g);"))) terms ↔
            terms = [.assign (.word "x") (.binary (.not (.word "a")) .or
              (.binary (.binary (.parens (.binary (.word "b") .equal (.word "c"))) .lessThan
                (.binary (.binary (.word "d") .subtract (.word "1")) .subtract
                  (.member (.word "this") "e"))) .and (.call (.word "f") [.word "g"])))] := by
  have ran : lowerSource "x = not a or (b is c) < d - 1 - @e and f(g)" .standard =
      .ok ⟨"x = !a || (b === c) < d - 1 - this.e && f(g);", []⟩ := by
    decide +kernel
  obtain ⟨tokens, read, separate, es, parsed, plain, keeps, terms⟩ :
      ∃ tokens, Token.readAll "x = not a or (b is c) < d - 1 - @e and f(g)" = .ok tokens ∧
        Token.Separate "x = not a or (b is c) < d - 1 - @e and f(g)" tokens ∧
        ∃ es, Parser.statements "x = not a or (b is c) < d - 1 - @e and f(g)" tokens = .ok es ∧
          Expr.hasMembershipAll es = false ∧ Expr.keepsGroupingAll es = true ∧
          Expr.terms "x = not a or (b is c) < d - 1 - @e and f(g)" es =
            [.assign (.word "x") (.binary (.not (.word "a")) .or
              (.binary (.binary (.parens (.binary (.word "b") .equal (.word "c"))) .lessThan
                (.binary (.binary (.word "d") .subtract (.word "1")) .subtract
                  (.member (.word "this") "e"))) .and (.call (.word "f") [.word "g"])))] := by
    decide +kernel
  have grouped := (lowerSource_grouping ran read parsed plain separate).2 keeps
  rw [terms] at grouped
  exact ⟨ran, grouped⟩

/-- JavaScript compares what is ordered, where the source orders what is compared. -/
theorem grouping_ordering :
    lowerSource "a is b < c" .standard = .ok ⟨"a === b < c;", []⟩ ∧
      ∃ tokens es ts, Token.readAll "a is b < c" = .ok tokens ∧
        Parser.statements "a is b < c" tokens = .ok es ∧ Expr.hasMembershipAll es = false ∧
        Token.Separate "a is b < c" tokens ∧ Token.readAll "a === b < c;" = .ok ts ∧
        Program (signs (ts.map (·.text "a === b < c;")))
          [.binary (.word "a") .equal (.binary (.word "b") .lessThan (.word "c"))] ∧
        Expr.terms "a is b < c" es =
          [.binary (.binary (.word "a") .equal (.word "b")) .lessThan (.word "c")] ∧
        ¬Program (signs (ts.map (·.text "a === b < c;"))) (Expr.terms "a is b < c" es) := by
  have ran : lowerSource "a is b < c" .standard = .ok ⟨"a === b < c;", []⟩ := by decide +kernel
  obtain ⟨tokens, read, separate, es, parsed, plain, terms⟩ :
      ∃ tokens, Token.readAll "a is b < c" = .ok tokens ∧ Token.Separate "a is b < c" tokens ∧
        ∃ es, Parser.statements "a is b < c" tokens = .ok es ∧
          Expr.hasMembershipAll es = false ∧
          Expr.terms "a is b < c" es =
            [.binary (.binary (.word "a") .equal (.word "b")) .lessThan (.word "c")] := by
    decide +kernel
  obtain ⟨ts, readAgain, texts⟩ : ∃ ts, Token.readAll "a === b < c;" = .ok ts ∧
      signs (ts.map (·.text "a === b < c;")) = ["a", "===", "b", "<", "c", ";"] := by
    decide +kernel
  have grouped : Program (signs (ts.map (·.text "a === b < c;")))
      [.binary (.word "a") .equal (.binary (.word "b") .lessThan (.word "c"))] := by
    have word : ∀ {text : String}, mark text = .word → Groups 8 [text] (.word text) := .word
    have ordered : Groups 4 ["b", "<", "c"] (.binary (.word "b") .lessThan (.word "c")) :=
      .binary (word rfl) (show BinaryOperator.lessThan.javaScriptLevel ≤ 8 by decide) (word rfl)
        (by decide)
    have compared : Groups 3 ["a", "===", "b", "<", "c"]
        (.binary (.word "a") .equal (.binary (.word "b") .lessThan (.word "c"))) :=
      .binary (word rfl) (show BinaryOperator.equal.javaScriptLevel ≤ 8 by decide) ordered
        (by decide)
    rw [texts]
    exact .statement compared .nil
  refine ⟨ran, tokens, es, ts, read, parsed, plain, separate, readAgain, grouped, terms, ?_⟩
  rw [terms]
  intro asRead
  cases grouped.unique asRead

end MembershipLowering
