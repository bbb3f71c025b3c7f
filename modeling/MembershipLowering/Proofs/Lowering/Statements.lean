import MembershipLowering.Proofs.Lowering.Flowing
import MembershipLowering.Proofs.Lowering.Retokenizing

/-! # Lowered code flows

The statements of a source are printed one behind the other, each closed by a semicolon: by its
own one, or by one that is written behind it.
-/

namespace MembershipLowering

open Token Lexeme

namespace Parser

variable {source : String} {tokens seg : List Token} {t : Token} {level stop : Nat} {e : Expr}
  {es : List Expr} {loose : Bool} {names : Nat → String}

/-- A separator is copied where no statement has been begun, and a semicolon behind one too. -/
theorem flows_separator {c : Place} (laced : Laced source tokens) (among : t ∈ tokens)
    (separates : t.kind.isSeparator = true) (beside : Beside source c.last.text stop t)
    (whole : c.last.isHalf = false) (admitted : c.last.kind.admits t.kind = true)
    (depth : c.depth = 0) (closed : t.kind = .newline → c.opened = false) :
    ∃ p : Entry, Flows c (Text.excerpt stop t.span.stop source.toList) ⟨p, 0, false⟩ ∧
      p.Settled ∧ p.kind = t.kind ∧ p.text = t.text source := by
  obtain ⟨fixed, notThis, -⟩ := TokenKind.of_isSeparator separates
  have settled := (laced.read t among).settled_fixed rfl fixed (fun this => absurd this notThis)
    (Text.excerpt stop t.span.start source.toList)
  have follows : t.kind.follow? c.depth c.opened = some (0, false) := by
    rcases TokenKind.isSeparator_iff.1 separates with kind | kind
    · rw [closed kind, depth, kind]
      rfl
    · rw [depth, kind]
      rfl
  have flows : Flows c _ ⟨⟨_, t.kind, t.text source⟩, 0, false⟩ :=
    .single ⟨settled, beside.gap, fun half => absurd half (Bool.eq_false_iff.1 whole),
      fun _ => admitted, beside.apart⟩ follows
  refine ⟨_, flows.congr ?_, settled, rfl, rfl⟩
  rw [laced.stream.toList_text among, Text.excerpt_append_excerpt beside.le
    (Nat.le_of_lt (laced.stream.start_lt_stop among))]

theorem settled_semicolon : Entry.Settled ⟨[], .semicolon, ";"⟩ :=
  ⟨rfl, rfl, by decide, nofun⟩

/-- A statement is closed unless a semicolon comes next. -/
theorem semicolon_eq_ite {z : Token} {front back : List Token} (stream : Stream source tokens)
    (split : tokens = front ++ z :: back) (p : Printer Char) (isTokens : p.tokens = tokens)
    (writes : p.write = String.toList) :
    p.semicolon z.span.stop =
      if back.head?.any (·.kind = .semicolon) then [] else ";".toList := by
  subst split
  rw [Printer.semicolon, isTokens, find?_behind stream, writes]

/-- A statement is printed where none has been begun. -/
theorem flows_statement (loose : Bool) (statement : Derives source false level seg e)
    (laced : Laced source tokens) (isName : ∀ k, Entry.Settled ⟨[], .identifier, names k⟩)
    (part : seg <:+: tokens) {p : Entry} (between : p.kind.isSeparator = true)
    (settled : p.Settled) (next : ∀ u ∈ seg.head?, Beside source p.text stop u) (k : Nat) :
    ∃ z : Entry, Flows ⟨p, 0, false⟩ (Text.excerpt stop e.outer.start source.toList ++
        (Printer.plain source tokens loose names).whole k e) ⟨z, 0, true⟩ ∧ z.Closes := by
  obtain ⟨fixed, -, isOpening, -⟩ := TokenKind.of_isSeparator between
  obtain ⟨opens, notRelation⟩ := settled.opens fixed isOpening
  exact statement.enter (c := ⟨p, 0, false⟩) laced part next opens nofun
    (fun same => absurd same notRelation)
    ((statement.flowing loose isName laced part).first (List.prefix_refl _) (Nat.le_refl level) k)

/-- From a statement to the separator behind it there is one semicolon. -/
theorem flows_closing (laced : Laced source tokens) (among : t ∈ tokens)
    (separates : t.kind.isSeparator = true) {z : Entry} (closes : z.Closes)
    (beside : Beside source z.text stop t) {semicolon : List Char}
    (written : semicolon = if (some t).any (·.kind = .semicolon) then [] else ";".toList) :
    ∃ q : Entry, Flows ⟨z, 0, true⟩ (semicolon ++ Text.excerpt stop t.span.stop source.toList)
      ⟨q, 0, false⟩ ∧ q.Settled ∧ q.kind = t.kind ∧ q.text = t.text source := by
  by_cases closed : t.kind = .semicolon
  · rw [if_pos (by simpa using closed)] at written
    obtain ⟨q, flows, same⟩ := flows_separator (c := ⟨z, 0, true⟩) laced among separates beside
      closes.whole (TokenKind.admits_of_ends closes.ends (.inl (by rw [closed]; rfl))) rfl
      fun newline => by rw [closed] at newline; cases newline
    exact ⟨q, flows.congr (by rw [written, List.nil_append]), same⟩
  · rw [if_neg (by simpa using closed)] at written
    have front : Flows ⟨z, 0, true⟩ ([] ++ ";".toList) ⟨⟨[], .semicolon, ";"⟩, 0, false⟩ :=
      .single (closes.joins settled_semicolon (.inl rfl) .nil) rfl
    obtain ⟨q, flows, same⟩ := flows_separator (c := ⟨⟨[], .semicolon, ";"⟩, 0, false⟩) laced among
      separates (beside.other (show ";" ≠ "\r" by decide) (by decide)) rfl rfl rfl fun _ => rfl
    exact ⟨q, (front.trans flows).congr (by rw [written, List.nil_append]), same⟩

/-- What is printed for statements flows up to a last gap, and closes every statement. -/
theorem DerivesProgram.flows {ts : List Token} (h : DerivesProgram source ts es)
    {before : List Token} (loose : Bool) (laced : Laced source tokens)
    (split : tokens = before ++ ts) (isName : ∀ k, Entry.Settled ⟨[], .identifier, names k⟩)
    (laid : Laid source stop ts) {p : Entry} (between : p.kind.isSeparator = true)
    (settled : p.Settled) (next : ∀ u ∈ ts.head?, Beside source p.text stop u) (k : Nat) :
    ∃ p' text gap, (Printer.plain source tokens loose names).program k stop es = text ++ gap ∧
      Flows ⟨p, 0, false⟩ text ⟨p', 0, false⟩ ∧ p'.kind.isSeparator = true ∧ p'.Settled ∧
        Gap [] gap := by
  have last_gap : ∀ {stop : Nat}, Laid source stop [] → Gap [] (remaining source stop) := by
    intro stop laid
    cases laid with
    | nil leads => exact (leads_iff (show Leads [] [] from rfl)).1 leads
  induction h generalizing before stop p k with
  | nil => exact ⟨p, [], _, rfl, .refl _, between, settled, last_gap laid⟩
  | @separator t ts es separates later ih =>
      have among : t ∈ tokens := split ▸ List.mem_append_right _ (List.mem_cons_self ..)
      obtain ⟨fixed, -, -, admits⟩ := TokenKind.of_isSeparator between
      obtain ⟨q, front, settledQ, kind, textQ⟩ := flows_separator (c := ⟨p, 0, false⟩) laced among
        separates (next t rfl) (settled.fixed fixed).1 (admits t.kind) rfl fun _ => rfl
      have part : t :: ts <:+: tokens := split ▸ List.infix_append_right
      have nextTail : ∀ u ∈ ts.head?, Beside source q.text t.span.stop u :=
        textQ ▸ (Reaches.here : Reaches false t [t]).beside laced part
      have splitTail : tokens = (before ++ [t]) ++ ts := by rw [split]; simp
      have laidTail : Laid source stop ([] ++ t :: ts) := laid
      obtain ⟨p', text, gap, printed, back, between', settled', isGap⟩ :=
        ih splitTail laidTail.behind (kind ▸ separates) settledQ nextTail k
      refine ⟨p', _, gap, ?_, front.trans back, between', settled', isGap⟩
      have positive := laced.stream.start_lt_stop among
      have hle := (next t rfl).le
      rw [List.append_assoc, ← printed, copy_statements loose names later
        (laced.stream.sublist part.sublist) (by omega)]
  | @last level seg e statement =>
      have part : seg <:+: tokens := split ▸ List.infix_append_right
      obtain ⟨z, front, closes⟩ := flows_statement loose statement laced isName part between settled
        next k
      have semicolon : Flows ⟨z, 0, true⟩ ([] ++ ";".toList) ⟨⟨[], .semicolon, ";"⟩, 0, false⟩ :=
        .single (closes.joins settled_semicolon (.inl rfl) .nil) rfl
      obtain ⟨inner, w, rfl, stops⟩ := statement.exists_last (laced.stream.sublist part.sublist)
      refine ⟨_, _, _, ?_, front.trans semicolon, rfl, settled_semicolon, last_gap laid.behind⟩
      have written := semicolon_eq_ite laced.stream
        (show tokens = (before ++ inner) ++ w :: [] by rw [split]; simp)
        (.plain source tokens loose names) rfl rfl
      rw [Printer.program, Printer.program, ← stops, written]
      simp only [List.append_assoc]
      rfl
  | @statement level seg ts t e es statement separates later ih =>
      have part : seg ++ t :: ts <:+: tokens := split ▸ List.infix_append_right
      have among : t ∈ tokens := part.subset (List.mem_append_right _ (List.mem_cons_self ..))
      obtain ⟨z, front, closes⟩ := flows_statement loose statement laced isName
        (List.infix_append_left.trans part) between settled (forall_head?_left next) k
      obtain ⟨inner, w, rfl, stops⟩ :=
        statement.exists_last (laced.stream.sublist (List.infix_append_left.trans part).sublist)
      have beside := statement.beside laced part closes t rfl
      have written := semicolon_eq_ite laced.stream
        (show tokens = (before ++ inner) ++ w :: (t :: ts) by rw [split]; simp)
        (.plain source tokens loose names) rfl rfl
      rw [stops] at written
      obtain ⟨q, middle, settledQ, kind, textQ⟩ := flows_closing laced among separates closes beside
        written
      have nextTail : ∀ u ∈ ts.head?, Beside source q.text t.span.stop u :=
        textQ ▸ (Reaches.here : Reaches false t [t]).beside laced
          (List.infix_append_right.trans part)
      have splitTail : tokens = (before ++ (inner ++ [w]) ++ [t]) ++ ts := by rw [split]; simp
      obtain ⟨p', text, gap, printed, back, between', settled', isGap⟩ :=
        ih splitTail laid.behind (kind ▸ separates) settledQ nextTail (k + e.temporaries)
      refine ⟨p', _, gap, ?_, (front.trans middle).trans back, between', settled', isGap⟩
      have positive := laced.stream.start_lt_stop among
      have hle := beside.le
      rw [Printer.program, ← copy_statements loose names later (laced.stream.sublist
        (List.infix_append_right.trans part).sublist) (show e.outer.stop ≤ t.span.stop by omega),
        printed]
      simp only [List.append_assoc]
      rfl

end Parser

end MembershipLowering
