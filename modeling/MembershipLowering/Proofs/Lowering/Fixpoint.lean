import MembershipLowering.Proofs.Lowering.Outcome
import MembershipLowering.Proofs.Lowering.Statements
import MembershipLowering.Proofs.Token.Rereading

/-! # Lowered code is left as it is

The tokens of lowered code are settled (`Lowering.settles_code`): no sign, word or operator
among them is spelt otherwise in JavaScript, and each statement is closed. If they can be read
as statements at all, there is nothing left to lower (`Lowering.eq_of_settles`).
-/

namespace MembershipLowering

open Token

namespace Parser

variable {source : String} {inside : Bool} {level depth depth' depth'' : Nat}
  {seg seg' ts : List Token} {t : Token} {e : Expr} {es : List Expr} {ends : List Nat}

/-! ## Brackets in a statement -/

/-- Behind the stretch a statement has been begun, and the number of open brackets is known. -/
def Counts (depth : Nat) (seg : List Token) (depth' : Nat) : Prop :=
  ∀ opened, TokenKind.followAll? depth opened (seg.map (·.kind)) = some (depth', true)

theorem followAll?_append (depth : Nat) (opened : Bool) (kinds kinds' : List TokenKind) :
    TokenKind.followAll? depth opened (kinds ++ kinds') =
      (TokenKind.followAll? depth opened kinds).bind fun s =>
        TokenKind.followAll? s.1 s.2 kinds' := by
  induction kinds generalizing depth opened with
  | nil => rfl
  | cons kind kinds ih =>
      rw [List.cons_append, TokenKind.followAll?, TokenKind.followAll?, Option.bind_assoc]
      exact congrArg _ (funext fun s => ih s.1 s.2)

theorem Counts.append (h : Counts depth seg depth') (h' : Counts depth' seg' depth'') :
    Counts depth (seg ++ seg') depth'' := by
  intro opened
  rw [List.map_append, followAll?_append, h opened]
  exact h' true

theorem Reaches.counts (h : Reaches inside t seg) (positive : inside = true → 0 < depth)
    (follows : ∀ opened, t.kind.follow? depth opened = some (depth', true)) :
    Counts depth seg depth' := by
  intro opened
  induction h with
  | here =>
      simp only [List.map_cons, List.map_nil, TokenKind.followAll?, follows]
      rfl
  | later bracketed newline _ ih =>
      obtain ⟨n, rfl⟩ := Nat.exists_eq_succ_of_ne_zero (Nat.ne_of_gt (positive bracketed))
      rw [List.map_cons, newline, TokenKind.followAll?]
      exact ih

theorem follow?_of_atom? {kind : TokenKind} {a : Atom} (h : atom? kind = some a) (opened : Bool) :
    kind.follow? depth opened = some (depth, true) := by
  cases kind <;> first | rfl | cases h

theorem follow?_of_level? {n : Nat} (h : level? source t = some n) (opened : Bool) :
    t.kind.follow? depth opened = some (depth, true) := by
  unfold level? at h
  split at h
  · rename_i kind
    rw [kind]
    rfl
  · rename_i kind
    rw [kind]
    rfl
  · cases h

mutual

/-- All brackets are closed behind an expression. -/
theorem Derives.counts {inside : Bool} {level depth : Nat} {seg : List Token} {e : Expr}
    (h : Derives source inside level seg e) (positive : inside = true → 0 < depth) :
    Counts depth seg depth := by
  have one : ∀ {inside : Bool} {t : Token} {seg : List Token} {kind : TokenKind}
      {depth depth' : Nat}, Reaches inside t seg → t.kind = kind → (inside = true → 0 < depth) →
      (∀ opened, kind.follow? depth opened = some (depth', true)) → Counts depth seg depth' := by
    rintro inside t seg _ depth depth' reaches rfl positive follows
    exact reaches.counts positive follows
  have within : true = true → 0 < depth + 1 := fun _ => Nat.succ_pos depth
  match h with
  | .atom reaches known => exact reaches.counts positive (follow?_of_atom? known)
  | .shorthand reaches known _ isName _ =>
    exact (reaches.counts positive (follow?_of_atom? known)).append
      (one (.here : Reaches false _ _) isName nofun fun _ => rfl)
  | .array opening isOpening items =>
    exact (one opening isOpening positive fun _ => rfl).append (items.counts (.inr rfl))
  | .parenthesized opening isOpening inner closing isClosing =>
    exact ((one opening isOpening positive fun _ => rfl).append (inner.counts within)).append
      (one closing isClosing within fun _ => rfl)
  | .member object reachesDot isDot reachesName isName =>
    exact ((object.counts positive).append (one reachesDot isDot positive fun _ => rfl)).append
      (one reachesName isName positive fun _ => rfl)
  | .index object opening isOpening key closing isClosing =>
    exact (((object.counts positive).append (one opening isOpening positive fun _ => rfl)).append
      (key.counts within)).append (one closing isClosing within fun _ => rfl)
  | .call callee opening isOpening _ items =>
    exact ((callee.counts positive).append (one opening isOpening positive fun _ => rfl)).append
      (items.counts (.inl rfl))
  | .not reaches isNot operand _ =>
    exact (one reaches isNot positive fun _ => rfl).append (operand.counts positive)
  | .binary left _ reaches leveled _ right _ =>
    exact ((left.counts positive).append
      (reaches.counts positive (follow?_of_level? leveled))).append (right.counts positive)
  | .membership left _ reaches isRelation _ right _ =>
    exact ((left.counts positive).append (one reaches isRelation positive fun _ => rfl)).append
      (right.counts positive)
  | .assign left _ _ reaches isAssign right =>
    exact ((left.counts positive).append (one reaches isAssign positive fun _ => rfl)).append
      (right.counts positive)

theorem DerivesItems.counts {kind : TokenKind} {seg : List Token} {es : List Expr} {close : Token}
    {depth : Nat}
    (h : DerivesItems source kind seg es close) (bracket : kind = .rparen ∨ kind = .rbracket) :
    Counts (depth + 1) seg depth := by
  have within : true = true → 0 < depth + 1 := fun _ => Nat.succ_pos depth
  have closes : ∀ {seg}, Reaches true close seg → close.kind = kind →
      Counts (depth + 1) seg depth := by
    intro seg closing isClosing
    refine closing.counts within fun _ => ?_
    rcases bracket with rfl | rfl <;> (rw [isClosing]; rfl)
  match h with
  | .done closing isClosing => exact closes closing isClosing
  | .last item closing isClosing => exact (item.counts within).append (closes closing isClosing)
  | .more item reaches isComma items =>
    exact ((item.counts within).append (reaches.counts within fun _ => by rw [isComma]; rfl)).append
      (items.counts bracket)

end

/-! ## What is left to lower -/

mutual

/-- A membership test is written with a relation other than `instanceof`. -/
theorem Derives.plain {inside : Bool} {level : Nat} {seg : List Token} {e : Expr}
    (h : Derives source inside level seg e)
    (relation : ∀ t ∈ seg, t.kind = .relation → t.text source = "instanceof") :
    e.hasMembership = false := by
  match h with
  | .atom .. | .shorthand .. => rfl
  | .array _ _ items => exact items.plain (List.forall_mem_append.1 relation).2
  | .parenthesized _ _ inner _ _ =>
    rw [Printer.hasMembership_parenthesize]
    exact inner.plain (List.forall_mem_append.1 (List.forall_mem_append.1 relation).1).2
  | .member object .. =>
    exact object.plain (List.forall_mem_append.1 (List.forall_mem_append.1 relation).1).1
  | .index object _ _ key _ _ =>
    obtain ⟨front, -⟩ := List.forall_mem_append.1 relation
    obtain ⟨front, inKey⟩ := List.forall_mem_append.1 front
    exact Bool.or_eq_false_iff.2
      ⟨object.plain (List.forall_mem_append.1 front).1, key.plain inKey⟩
  | .call callee _ _ _ items =>
    obtain ⟨front, inItems⟩ := List.forall_mem_append.1 relation
    exact Bool.or_eq_false_iff.2
      ⟨callee.plain (List.forall_mem_append.1 front).1, items.plain inItems⟩
  | .not _ _ operand _ => exact operand.plain (List.forall_mem_append.1 relation).2
  | .binary left _ _ _ _ right _ | .assign left _ _ _ _ right =>
    obtain ⟨front, inRight⟩ := List.forall_mem_append.1 relation
    exact Bool.or_eq_false_iff.2
      ⟨left.plain (List.forall_mem_append.1 front).1, right.plain inRight⟩
  | .membership _ _ reaches isRelation spelt _ _ =>
    obtain ⟨front, -⟩ := List.forall_mem_append.1 relation
    exact absurd ((List.forall_mem_append.1 front).2 _ reaches.mem isRelation) spelt

theorem DerivesItems.plain {kind : TokenKind} {seg : List Token} {es : List Expr} {close : Token}
    (h : DerivesItems source kind seg es close)
    (relation : ∀ t ∈ seg, t.kind = .relation → t.text source = "instanceof") :
    Expr.hasMembershipAll es = false := by
  match h with
  | .done .. => rfl
  | .last item _ _ =>
    exact Bool.or_eq_false_iff.2 ⟨item.plain (List.forall_mem_append.1 relation).1, rfl⟩
  | .more item _ _ items =>
    obtain ⟨front, inItems⟩ := List.forall_mem_append.1 relation
    exact Bool.or_eq_false_iff.2
      ⟨item.plain (List.forall_mem_append.1 front).1, items.plain inItems⟩

end

theorem DerivesProgram.plain (h : DerivesProgram source ts es)
    (relation : ∀ t ∈ ts, t.kind = .relation → t.text source = "instanceof") :
    Expr.hasMembershipAll es = false := by
  induction h with
  | nil => rfl
  | separator _ _ ih => exact ih fun t ht => relation t (List.mem_cons_of_mem _ ht)
  | last statement => exact Bool.or_eq_false_iff.2 ⟨statement.plain relation, rfl⟩
  | statement statement _ _ ih =>
      obtain ⟨front, back⟩ := List.forall_mem_append.1 relation
      exact Bool.or_eq_false_iff.2
        ⟨statement.plain front, ih fun t ht => back t (List.mem_cons_of_mem _ ht)⟩

/-- Where every statement is closed there is a semicolon behind it. -/
theorem DerivesProgram.terminated (h : DerivesProgram source ts es) (stream : Stream source ts)
    (atEnds : Ends ends ts es)
    (follows : TokenKind.followAll? 0 false (ts.map (·.kind)) = some (0, false)) :
    Terminated ends ts := by
  induction h with
  | nil => trivial
  | @separator t ts es separates later ih =>
      have notEnd := Ends.not_mem later stream (atEnds.isStop t (List.mem_cons_self ..))
      have here : t.kind.follow? 0 false = some (0, false) := by
        rcases TokenKind.isSeparator_iff.1 separates with kind | kind <;> rw [kind] <;> rfl
      rw [List.map_cons, TokenKind.followAll?, here] at follows
      exact ⟨fun isEnd => absurd isEnd notEnd,
        ih (stream.sublist (List.sublist_cons_self ..)) atEnds.tail follows⟩
  | last statement =>
      rw [statement.counts nofun false] at follows
      cases follows
  | @statement level seg ts t e es statement separates later ih =>
      obtain ⟨isStop, endsTail⟩ := atEnds.statement statement later stream
      have notEnd := Ends.not_mem later stream.right (endsTail.isStop t (List.mem_cons_self ..))
      rw [List.map_append, followAll?_append, statement.counts nofun false] at follows
      have closes : t.kind = .semicolon := by
        rcases TokenKind.isSeparator_iff.1 separates with kind | kind
        · simp [kind, TokenKind.followAll?, TokenKind.follow?] at follows
        · exact kind
      have followsTail : TokenKind.followAll? 0 false (ts.map (·.kind)) = some (0, false) := by
        simpa [closes, TokenKind.followAll?, TokenKind.follow?] using follows
      have tail := ih (stream.right.sublist (List.sublist_cons_self ..)) endsTail.tail followsTail
      obtain ⟨inner, w, rfl, stops⟩ := statement.exists_last stream.left
      rw [List.append_assoc] at stream ⊢
      refine Terminated.append (fun u hu isEnd => ?_)
        ⟨fun _ => ⟨t, rfl, closes⟩, fun isEnd => absurd isEnd notEnd, tail⟩
      have same := isStop u (List.mem_append_left _ hu) isEnd
      have := stream.le_of_append hu (List.mem_cons_self ..)
      have := stream.right.start_lt_stop (List.mem_cons_self ..)
      omega

end Parser

/-! ## Names of temporaries -/

/-- The names that are handed out are words that are left as they are. -/
theorem NameSupply.settled_of_mem_candidates {name : String} (h : name ∈ candidates Rule.needle) :
    Entry.Settled ⟨[], .identifier, name⟩ := by
  obtain ⟨digits, text, all⟩ := exists_of_mem_candidates h
  have front : name.toList.take 6 = Rule.needle.toList := by
    rw [text]
    rfl
  have part : ∀ c ∈ name.toList, Lexeme.isWordPart c = true := by
    rw [text, List.forall_mem_append]
    refine ⟨List.all_eq_true.1 (by decide), fun c hc => ?_⟩
    rw [Lexeme.isWordPart_eq, all c hc, Bool.or_true]
  have kind : Lexeme.wordKind name = .identifier := by
    unfold Lexeme.wordKind
    split <;> first | rfl | exact absurd front (by decide)
  have notNot : name.toList ≠ ['n', 'o', 't'] := by
    intro same
    rw [same] at front
    exact absurd front (by decide)
  refine ⟨?_, ?_, ?_, nofun⟩
  · have cons : name.toList = 'n' :: ("eedle".toList ++ digits) := text
    rw [cons] at part notNot
    have read := Lexeme.ofChars_word (show Lexeme.isWordStart 'n' = true by decide) part notNot
      (show ([] : List Char).head?.any Lexeme.isWordPart = false from rfl)
    rw [← cons, String.ofList_toList, kind, List.append_nil] at read
    exact read
  · rw [Bool.eq_false_iff]
    intro spelt
    simp only [isSpelt, Bool.or_eq_true, decide_eq_true_eq] at spelt
    rcases spelt with (((rfl | rfl) | rfl) | rfl) | rfl <;> exact absurd front (by decide)
  · rintro rfl
    exact absurd front (by decide)

namespace Lowering

variable {source : String} {o : Options} {out : Output} {tokens : List Token} {es : List Expr}

theorem mem_candidates_of_mem_bindings (read : Token.readAll source = .ok tokens)
    (parsed : Parser.statements source tokens = .ok es)
    (lowered : (Document.ofStatements source tokens es).lower o = .ok out) {name : String}
    (h : name ∈ out.bindings) : name ∈ NameSupply.candidates Rule.needle := by
  have ends := Document.ends_lower o read parsed
  rw [lowered] at ends
  cases ends with
  | done _ names bindings =>
      rw [← bindings, NameSupply.claimed_of_advance? names] at h
      have free := List.mem_of_mem_take (show name ∈ List.take _ _ from h)
      exact (List.mem_filter.1 free).1

/-- The tokens of lowered code are settled. -/
theorem settles_code (read : Token.readAll source = .ok tokens)
    (parsed : Parser.statements source tokens = .ok es)
    (lowered : (Document.ofStatements source tokens es).lower o = .ok out) {ts : List Token}
    (readCode : Token.readAll out.code = .ok ts) : Token.Settles out.code ts := by
  have isName : ∀ k, Entry.Settled ⟨[], .identifier, out.bindings.getD k Rule.needle⟩ := by
    intro k
    apply NameSupply.settled_of_mem_candidates
    rw [List.getD_eq_getElem?_getD]
    cases found : out.bindings[k]? with
    | none => exact List.mem_map.2 ⟨0, List.mem_range.2 (Nat.succ_pos _), rfl⟩
    | some name =>
        exact mem_candidates_of_mem_bindings read parsed lowered (List.mem_of_getElem? found)
  have laid : Laid source 0 tokens :=
    (Token.readAll_eq_ok_iff.1 read).laid (List.nil_append _).symm rfl
  have next : ∀ u ∈ tokens.head?, Beside source ";" 0 u := by
    intro u isFirst
    obtain ⟨back, rfl⟩ := List.head?_eq_some_iff.1 isFirst
    exact laid.beside (Nat.zero_le _) fun _ _ =>
      ⟨fun same => absurd same.1 (by decide), fun same => absurd same.1 (by decide)⟩
  obtain ⟨p', text, gap, printed, flows, between, settled, isGap⟩ :=
    (Parser.statements_sound parsed).flows o.looseIncludes
      (laid.laced (Token.stream_of_readAll read)) (List.nil_append _).symm isName laid rfl
      Parser.settled_semicolon next 0
  have whole := (settled.fixed (TokenKind.of_isSeparator between).1).1
  have written := (toList_code_of_agrees read parsed lowered (agrees_getD _ Rule.needle)).1
  exact Token.settles_of_flows flows whole isGap (written.trans printed) readCode

/-- A source whose tokens are settled is left as it is. -/
theorem eq_of_settles (read : Token.readAll source = .ok tokens)
    (parsed : Parser.statements source tokens = .ok es)
    (lowered : (Document.ofStatements source tokens es).lower o = .ok out)
    (settles : Token.Settles source tokens) : out = ⟨source, []⟩ := by
  have derived := Parser.statements_sound parsed
  have plain : Expr.hasMembershipAll es = false :=
    derived.plain fun t ht => (settles.settled t ht).relation
  have atEnds : Parser.Ends (es.map (·.outer.stop)) tokens es :=
    ⟨fun e he => List.mem_map_of_mem he, fun t _ isEnd => List.mem_map.1 isEnd⟩
  have terminated := derived.terminated (Token.stream_of_readAll read) atEnds settles.follows
  obtain ⟨orderly, written⟩ := toList_code_eq_written read parsed lowered plain
  have code : out.code.toList = source.toList := by
    rw [written, Token.written_eq_remaining orderly nofun settles.settled settles.complete
      terminated]
    exact Token.remaining_of_split (List.nil_append _).symm rfl
  have bindings : out.bindings = [] := by
    rw [← List.length_eq_zero_iff, (toList_code read parsed lowered).2,
      Expr.temporariesAll_of_plain plain]
  obtain ⟨code', bindings'⟩ := out
  rw [show code' = source from String.toList_injective code, show bindings' = [] from bindings]

end Lowering

/-- Lowered code that can itself be lowered is left as it is, and no names are handed out for
    it. -/
theorem lowerSource_fixpoint {source : String} {o o' : Options} {out again : Output}
    (h : lowerSource source o = .ok out) (h' : lowerSource out.code o' = .ok again) :
    again = ⟨out.code, []⟩ := by
  obtain ⟨tokens, es, read, parsed, lowered⟩ := exists_of_lowerSource h
  obtain ⟨ts, es', readCode, parsedCode, loweredCode⟩ := exists_of_lowerSource h'
  exact Lowering.eq_of_settles readCode parsedCode loweredCode
    (Lowering.settles_code read parsed lowered readCode)

theorem lowerSource_fixpoint_glued :
    lowerSource "not (a in @b) and @instanceof(c)" .standard =
        .ok ⟨"(!Array.from(this.b).includes(a)) && thisinstanceof(c);", []⟩ ∧
      lowerSource "(!Array.from(this.b).includes(a)) && thisinstanceof(c);" .standard =
        .ok ⟨"(!Array.from(this.b).includes(a)) && thisinstanceof(c);", []⟩ := by
  have ran : lowerSource "not (a in @b) and @instanceof(c)" .standard =
      .ok ⟨"(!Array.from(this.b).includes(a)) && thisinstanceof(c);", []⟩ := by
    decide +kernel
  obtain ⟨again, ranAgain, -⟩ : ∃ again, lowerSource
      "(!Array.from(this.b).includes(a)) && thisinstanceof(c);" .standard = .ok again ∧ True := by
    decide +kernel
  exact ⟨ran, lowerSource_fixpoint ran ranAgain ▸ ranAgain⟩

end MembershipLowering
