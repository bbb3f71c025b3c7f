import MembershipLowering.Proofs.Lowering.Reading
import MembershipLowering.Proofs.Phrase.Parsing

/-! # Printing and reading back

Statements that are printed are read back as the same trees, unless they are nested too
deeply (`Document.parse_print`).
-/

namespace MembershipLowering

namespace Document

mutual

/-- The node is the root of the tree. -/
def Shows (d : Document) : Phrase → NodeId → Prop
  | .atom a text, n =>
    ∃ x, d.arena.get? n = some ⟨.atom a, x⟩ ∧ x.content.text d.source = text
  | .array ps, n => ∃ ns x, d.arena.get? n = some ⟨.array ns, x⟩ ∧ d.ShowsAll ps ns
  | .call f ps, n =>
    ∃ m ns x, d.arena.get? n = some ⟨.call m ns, x⟩ ∧ d.Shows f m ∧ d.ShowsAll ps ns
  | .member o text, n =>
    ∃ m name x, d.arena.get? n = some ⟨.member m name, x⟩ ∧ d.Shows o m ∧
      name.text d.source = text
  | .index o k, n =>
    ∃ m i x, d.arena.get? n = some ⟨.index m i, x⟩ ∧ d.Shows o m ∧ d.Shows k i
  | .not p, n => ∃ sign m x, d.arena.get? n = some ⟨.not sign m, x⟩ ∧ d.Shows p m
  | .binary l op r, n =>
    ∃ i j x, d.arena.get? n = some ⟨.binary i op j, x⟩ ∧ d.Shows l i ∧ d.Shows r j
  | .membership l r negated, n =>
    ∃ i j x, d.arena.get? n = some ⟨.membership i j negated, x⟩ ∧ d.Shows l i ∧ d.Shows r j
  | .assign t v, n =>
    ∃ i j x, d.arena.get? n = some ⟨.assign i j, x⟩ ∧ d.Shows t i ∧ d.Shows v j

/-- The nodes are the roots of the trees, one for each. -/
def ShowsAll (d : Document) : List Phrase → List NodeId → Prop
  | [], ns => ns = []
  | p :: ps, ns => ∃ n ms, ns = n :: ms ∧ d.Shows p n ∧ d.ShowsAll ps ms

end

mutual

/-- A table that holds an expression shows its tree. -/
theorem shows_phrase {d : Document} {e : Expr} {base : NodeId}
    (h : d.arena.Holds base (e.layout base)) : d.Shows (e.phrase d.source) (e.place base) := by
  have found := h.get?_place
  match e with
  | .atom x a => exact ⟨x, found, rfl⟩
  | .array x es =>
    rw [Expr.layout] at h
    exact ⟨_, x, found, showsAll_phraseAll h.left⟩
  | .call x f es =>
    rw [Expr.layout, List.append_assoc] at h
    exact ⟨_, _, x, found, shows_phrase h.left, showsAll_phraseAll h.next.left⟩
  | .member x o name =>
    rw [Expr.layout] at h
    exact ⟨_, name, x, found, shows_phrase h.left, rfl⟩
  | .index x l r | .binary x l _ r | .membership x l r _ | .assign x l r =>
    rw [Expr.layout, List.append_assoc] at h
    exact ⟨_, _, x, found, shows_phrase h.left, shows_phrase h.next.left⟩
  | .not x sign e =>
    rw [Expr.layout] at h
    exact ⟨sign, _, x, found, shows_phrase h.left⟩

theorem showsAll_phraseAll {d : Document} {es : List Expr} {base : NodeId}
    (h : d.arena.Holds base (Expr.layoutAll base es)) :
    d.ShowsAll (Expr.phraseAll d.source es) (Expr.places base es) := by
  match es with
  | [] => exact rfl
  | e :: es =>
    rw [Expr.layoutAll] at h
    exact ⟨_, _, rfl, shows_phrase h.left, showsAll_phraseAll h.next⟩

end

end Document

namespace Word

theorem chars_intercalate (w : Word) (lines : List (List Word)) :
    chars (List.intercalate [w] lines) =
      List.intercalate (w.gap ++ w.text.toList) (lines.map chars) := by
  induction lines with
  | nil => rfl
  | cons line lines ih =>
      rw [List.map_cons, Phrase.intercalate_cons, Phrase.intercalate_cons, chars_append,
        List.isEmpty_map]
      split
      · rfl
      · rw [chars_append, ih, chars_cons, chars_nil, List.append_nil]

theorem Placed.of_flush {source : String} {stop : Nat} {ws : List Word} {ts : List Token}
    (h : Placed source stop (flush ws) ts) : ∃ stop, Placed source stop ws ts := by
  cases ws with
  | nil => exact ⟨stop, h⟩
  | cons w ws =>
      cases h with
      | cons kind text _ later => exact ⟨_, .cons kind text (fun _ => rfl) later⟩

end Word

namespace Phrase

open Word

variable (s : Spelling)

/-- The words of statements. -/
def sheet (ps : List Phrase) : List Word :=
  List.intercalate [newline] (ps.map fun p => flush (p.words s))

theorem toList_print (ps : List Phrase) : (print s ps).toList = chars (sheet s ps) := by
  rw [sheet, chars_intercalate, print, String.toList_ofList, List.map_map]
  rfl

theorem sheet_cons (p : Phrase) (ps : List Phrase) :
    sheet s (p :: ps) =
      flush (p.words s) ++ if ps.isEmpty then [] else newline :: sheet s ps := by
  rw [sheet, List.map_cons, intercalate_cons, List.isEmpty_map]
  rfl

theorem clear_sheet {ps : List Phrase} (proper : isProperAll ps = true) :
    Clear (sheet s ps) [] := by
  induction ps with
  | nil => exact trivial
  | cons p ps ih =>
      rw [isProperAll, Bool.and_eq_true] at proper
      rw [sheet_cons, clear_append, clear_flush]
      have readable := readable_words s proper.1
      split
      · exact ⟨readable.clear _ nofun, trivial⟩
      · refine ⟨readable.clear _ fun c hc => .inr (.inl (Option.some.inj hc).symm),
          Lexeme.ofChars_sign (c := '\n') rfl ?_, ih proper.2⟩
        cases chars (sheet s ps) ++ [] with
        | nil => rfl
        | cons c cs => simp [Lexeme.pairKind]

variable {s} {source : String} {stop : Nat} {ts : List Token}

/-- The tokens of statements are read as the statements. -/
theorem statements_of_placed {ps : List Phrase} (proper : isProperAll ps = true)
    (placed : Placed source stop (sheet s ps) ts) (stream : Token.Stream source ts) :
    (depthAll ps ≤ maxDepth →
        ∃ es, Parser.statements source ts = .ok es ∧ Expr.phraseAll source es = ps) ∧
      (maxDepth < depthAll ps →
        ∃ span, Parser.statements source ts = .error ⟨.tooDeep, span⟩) := by
  induction ps generalizing stop ts with
  | nil =>
      cases placed
      exact ⟨fun _ => ⟨[], by rw [Parser.statements], rfl⟩, fun few => absurd few (by decide)⟩
  | cons p ps ih =>
      rw [isProperAll, Bool.and_eq_true] at proper
      rw [sheet_cons] at placed
      obtain ⟨front, back, rfl, placedLine, placedBack⟩ := placed.split
      obtain ⟨stop, placedLine⟩ := placedLine.of_flush
      obtain ⟨e, level, nests, -, same⟩ :=
        isReadBack proper.1 false _ _ placedLine stream.left
      obtain ⟨separated, reads, refuses⟩ : (∀ t ∈ back.head?, t.kind.isSeparator = true) ∧
          (depthAll ps ≤ maxDepth → ∃ es, Parser.statements source back = .ok es ∧
            Expr.phraseAll source es = ps) ∧
          (maxDepth < depthAll ps →
            ∃ span, Parser.statements source back = .error ⟨.tooDeep, span⟩) := by
        cases ps with
        | nil =>
            have later := ih rfl (show Placed source _ (sheet s []) back from placedBack)
              stream.right
            cases placedBack
            exact ⟨fun t ht => absurd ht (by simp), later⟩
        | cons q ps =>
            cases placedBack with
            | @cons _ _ _ t back isNewline _ _ placedLater =>
                have separates : t.kind.isSeparator = true := by rw [isNewline]; rfl
                have skipped : Parser.statements source (t :: back) =
                    Parser.statements source back := by
                  rw [Parser.statements, if_pos separates]
                rw [skipped]
                exact ⟨fun u hu => by cases hu; exact separates,
                  ih proper.2 placedLater stream.right.tail⟩
      obtain ⟨enough, few⟩ := nests.statements separated
      rw [depthAll]
      constructor
      · intro shallow
        obtain ⟨es, read, sameLater⟩ := reads (by omega)
        refine ⟨e :: es, ?_, by rw [Expr.phraseAll, same, sameLater]⟩
        rw [enough (by omega), read]
        rfl
      · intro deep
        by_cases here : p.depth ≤ maxDepth
        · obtain ⟨span, refused⟩ := refuses (by omega)
          exact ⟨span, by rw [enough here, refused]; rfl⟩
        · exact few (by omega)

end Phrase

namespace Document

/-- What is printed is read back as the same trees, one statement for each, unless it is
    nested too deeply. -/
theorem parse_print (s : Spelling) (ps : List Phrase) (proper : Phrase.isProperAll ps = true) :
    (Phrase.depthAll ps ≤ maxDepth ∧ ∃ d ns, parse (Phrase.print s ps) = .ok d ∧
        d.source = Phrase.print s ps ∧ d.statements? = some ns ∧ d.ShowsAll ps ns) ∨
      (maxDepth < Phrase.depthAll ps ∧ ∃ e, parse (Phrase.print s ps) = .error e ∧
        e.cause.text = "expression nested too deeply") := by
  have text := Phrase.toList_print s ps
  obtain ⟨ts, scanned, placed⟩ :=
    Word.exists_scanned (Phrase.clear_sheet s proper) (text.trans (List.nil_append _).symm) rfl
  have read : Token.readAll (Phrase.print s ps) = .ok ts :=
    Token.readAll_eq_ok_iff.2 (text ▸ scanned)
  obtain ⟨reads, refuses⟩ :=
    Phrase.statements_of_placed proper placed (Token.stream_of_readAll read)
  have parsed : parse (Phrase.print s ps) = (Parser.statements (Phrase.print s ps) ts).map
      (ofStatements (Phrase.print s ps) ts) := by
    rw [parse, read]
  by_cases deep : maxDepth < Phrase.depthAll ps
  · obtain ⟨span, refused⟩ := refuses deep
    exact .inr ⟨deep, _, by rw [parsed, refused]; rfl, rfl⟩
  · obtain ⟨es, accepted, same⟩ := reads (Nat.not_lt.1 deep)
    refine .inl ⟨Nat.not_lt.1 deep, ofStatements (Phrase.print s ps) ts es, Expr.places 0 es,
      by rw [parsed, accepted]; rfl, rfl, ?_, ?_⟩
    · rw [statements?]
      exact congrArg _ (get?_root_ofStatements ..)
    · have shown := showsAll_phraseAll
        (siteAll_ofStatements (Phrase.print s ps) ts es).holds
      rwa [show Expr.phraseAll (ofStatements (Phrase.print s ps) ts es).source es = ps from same]
        at shown

/-- Two statements: `f( x = 1 ) [ k ] = not ( a - ( b - c ) )` and `d not in ( e in g )`. -/
def twoLines : List Phrase :=
  let name (text : String) : Phrase := .atom .identifier text
  [.assign (.index (.call (name "f") [.assign (name "x") (.atom .number "1")]) (name "k"))
      (.not (.binary (name "a") .subtract (.binary (name "b") .subtract (name "c")))),
    .membership (name "d") (.membership (name "e") (name "g") false) true]

theorem parse_print_twoLines :
    ∃ d ns, parse "f( x = 1 ) [ k ] = not ( a - ( b - c ) )\nd not in ( e in g )" = .ok d ∧
      d.statements? = some ns ∧ d.ShowsAll twoLines ns := by
  have printed : Phrase.print .inWords twoLines =
      "f( x = 1 ) [ k ] = not ( a - ( b - c ) )\nd not in ( e in g )" := by decide +kernel
  have shallow : Phrase.depthAll twoLines ≤ maxDepth := by decide +kernel
  rcases parse_print .inWords twoLines (by decide +kernel) with
    ⟨-, d, ns, parsed, -, statements, shown⟩ | ⟨deep, -⟩
  · exact ⟨d, ns, printed ▸ parsed, statements, shown⟩
  · exact absurd shallow (Nat.not_le.2 deep)

end Document

end MembershipLowering
