import Mathlib.Control.Monad.Basic
import MembershipLowering.Proofs.Token.Heads
import MembershipLowering.Proofs.Token.Joining

/-! # Layout

What may stand between two tokens, told without the scanner: blanks, tabs and line
continuations (`Layout`), and a comment that goes on to the end of its line (`Gap`).

A source that can be read is gaps and tokens in turns, and nothing else (`tiles_of_readAll`).
Where the gaps are is a matter of taste: the same texts with any other layout between them
are the same tokens (`readAll_spread`). Only the words `not` and `in` must not come together.
-/

namespace MembershipLowering

namespace Lexeme

/-- Blanks, tabs and line continuations. -/
inductive Layout : List Char → Prop where
  | nil : Layout []
  | blank {c : Char} {gap : List Char} (isBlank : isBlank c = true) (later : Layout gap) :
      Layout (c :: gap)
  | continuation {gap : List Char} (later : Layout gap) : Layout ('\\' :: '\n' :: gap)

/-- What is skipped in front of `rest`: layout, and a comment up to the end of the line. -/
inductive Gap (rest : List Char) : List Char → Prop where
  | nil : Gap rest []
  | blank {c : Char} {gap : List Char} (isBlank : isBlank c = true) (later : Gap rest gap) :
      Gap rest (c :: gap)
  | continuation {gap : List Char} (later : Gap rest gap) : Gap rest ('\\' :: '\n' :: gap)
  | comment {line : List Char} (inline : '\n' ∉ line) (ends : endsComment rest = true) :
      Gap rest ('#' :: line)

variable {kind kind' : TokenKind} {gap chars rest rest' : List Char}

theorem Layout.toGap (h : Layout gap) (rest : List Char) : Gap rest gap := by
  induction h with
  | nil => exact .nil
  | blank isBlank _ ih => exact .blank isBlank ih
  | continuation _ ih => exact .continuation ih

/-- There is no comment in front of a text on the same line. -/
theorem Gap.layout (h : Gap rest gap) (inline : endsComment rest = false) : Layout gap := by
  induction h with
  | nil => exact .nil
  | blank isBlank _ ih => exact .blank isBlank ih
  | continuation _ ih => exact .continuation ih
  | comment _ ends => simp [inline] at ends

/-- Only the beginning of the text behind a gap matters. -/
theorem Gap.congr (h : Gap rest gap) (same : endsComment rest = endsComment rest') :
    Gap rest' gap := by
  induction h with
  | nil => exact .nil
  | blank isBlank _ ih => exact .blank isBlank ih
  | continuation _ ih => exact .continuation ih
  | comment inline ends => exact .comment inline (same ▸ ends)

/-- What the scanner skips is a gap. -/
theorem gap_trivia (cs : List Char) : Gap (trivia cs).2 (trivia cs).1 := by
  fun_induction trivia cs with
  | case1 cs r ih => exact .blank rfl ih
  | case2 cs r ih => exact .blank rfl ih
  | case3 cs r ih => exact .continuation ih
  | case4 cs =>
      refine .comment (fun newline => ?_) (endsComment_dropWhile cs)
      simpa using List.mem_takeWhile_imp newline
  | case5 cs => exact .nil

/-- What the scanner skips in front of a text without leading trivia are the gaps. -/
theorem leads_iff (plain : Leads [] rest) : Leads gap rest ↔ Gap rest gap := by
  constructor
  · intro leads
    have skipped := gap_trivia (gap ++ rest)
    rwa [show trivia (gap ++ rest) = (gap, rest) from leads] at skipped
  · intro h
    induction h with
    | nil => exact plain
    | @blank c gap isBlank _ ih =>
        simp only [Lexeme.isBlank, Bool.or_eq_true, beq_iff_eq] at isBlank
        unfold Leads at ih ⊢
        rcases isBlank with rfl | rfl <;> simp only [List.cons_append, trivia, ih]
    | continuation _ ih =>
        unfold Leads at ih ⊢
        simp only [List.cons_append, trivia, ih]
    | @comment line inline ends =>
        have all : ∀ c ∈ line, decide (c ≠ '\n') = true := by
          intro c hc
          simpa using ne_of_mem_of_not_mem hc inline
        have stop : rest.head?.any (decide <| · ≠ '\n') = false := by
          cases rest <;> simp_all [endsComment]
        obtain ⟨take, drop⟩ := takeWhile_append_of_stop line rest all stop
        unfold Leads
        simp only [List.cons_append, trivia, take, drop]

/-- A gap begins with what is skipped. -/
theorem Gap.isSkipped_head (h : Gap rest gap) : ∀ c ∈ gap.head?, isSkipped c = true := by
  cases h with
  | nil => nofun
  | @blank c _ isBlank =>
      rintro _ ⟨⟩
      simp only [Lexeme.isBlank] at isBlank
      simp only [isSkipped, isBlank, Bool.true_or]
  | continuation | comment => rintro _ ⟨⟩; rfl

theorem Shape.kind_of_quote {c : Char} {cs : List Char} (h : Shape kind (c :: cs))
    (quote : c = '"' ∨ c = '\'') : kind = .string := by
  have plain : isWordStart c = false ∧ c.isDigit = false := by
    rcases quote with rfl | rfl <;> decide
  generalize same : c :: cs = chars at h
  cases h with
  | word start => cases same; simp [plain.1] at start
  | notIn => cases same; simp at quote
  | number digit => cases same; simp [plain.2] at digit
  | string => rfl
  | pair known => cases same; exact absurd quote (plain_of_pairKind known).2.2
  | sign known => cases same; exact absurd quote (plain_of_signKind known).2.2

/-- The characters of a token tell its class. -/
theorem Shape.unique (h : Shape kind chars) (h' : Shape kind' chars) : kind = kind' := by
  obtain _ | ⟨c, cs⟩ := chars
  · generalize same : [] = chars at h
    cases h <;> cases same
  · by_cases start : isWordStart c = true
    · by_cases part : (c :: cs).all isWordPart = true
      · rw [h.kind_eq_wordKind start part, h'.kind_eq_wordKind start part]
      · have relation : ∀ {k}, Shape k (c :: cs) → k = .relation := fun shape =>
          (shape.word_of_start start).resolve_left fun word => part (List.all_eq_true.2 word.1)
        rw [relation h, relation h']
    · by_cases digit : c.isDigit = true
      · rw [h.kind_of_digit digit, h'.kind_of_digit digit]
      · rw [Bool.not_eq_true] at start digit
        by_cases quote : c = '"' ∨ c = '\''
        · rw [h.kind_of_quote quote, h'.kind_of_quote quote]
        · rcases h.sign_of_plain start digit quote with ⟨d, rfl, known⟩ | ⟨rfl, known⟩ <;>
            rcases h'.sign_of_plain start digit quote with ⟨d', same, known'⟩ | ⟨same, known'⟩
          all_goals cases same
          all_goals exact Option.some.inj (known.symm.trans known')

/-- What is read as a token in front of one text is read as the same token in front of any
    other text that does not continue it. -/
theorem ofChars_of_not_continues (read : ofChars (chars ++ rest) = .token kind chars rest)
    (notNot : chars ≠ ['n', 'o', 't']) (stop : continues chars rest' = false) :
    ofChars (chars ++ rest') = .token kind chars rest' := by
  obtain ⟨kind', read'⟩ := stops_of_not_continues ⟨kind, read⟩ notNot stop
  rwa [(shape_of_ofChars read).unique (shape_of_ofChars read')]

/-- A gap continues no token. -/
theorem Gap.not_continues {cs : List Char} (h : Gap rest gap) (some : gap ≠ [])
    (shape : Shape kind chars) : continues chars (gap ++ cs) = false := by
  have skipped : ∀ c ∈ (gap ++ cs).head?, c = ';' ∨ isSkipped c = true := by
    obtain ⟨c, gap, rfl⟩ := List.exists_cons_of_ne_nil some
    exact fun d hd => .inr (h.isSkipped_head d hd)
  obtain ⟨noWord, noNumber, noFeed, noEquals⟩ := Token.plain_of_skipped skipped
  rw [Bool.eq_false_iff]
  intro continued
  rcases shape.cases_of_continues continued with word | number | feed | equals
  · exact Bool.noConfusion (noWord.symm.trans word.1)
  · exact Bool.noConfusion (noNumber.symm.trans number.2)
  · exact noFeed feed.2
  · exact noEquals equals.2

/-- Only the word `in` is read where the letters `in` stand alone. -/
theorem takeWhile_ne_of_ofChars {cs : List Char} (read : ofChars cs = .token kind chars rest)
    (other : chars ≠ ['i', 'n']) : cs.takeWhile isWordPart ≠ ['i', 'n'] := by
  intro isIn
  obtain _ | ⟨c, cs⟩ := cs
  · cases isIn
  · have first : isWordPart c = true ∧ c = 'i' := by
      rw [List.takeWhile_cons] at isIn
      split at isIn
      · exact ⟨‹_›, (List.cons.inj isIn).1⟩
      · cases isIn
    rw [ofChars, if_pos (by rw [first.2]; decide), word, isIn] at read
    simp only [List.cons.injEq, Char.reduceEq, false_and, if_false] at read
    exact other (Lexeme.token.inj read).2.1.symm

theorem not_isBlank_of_ofChars {cs : List Char} (read : ofChars cs = .token kind chars rest) :
    cs.head?.any isBlank = false := by
  have shape := shape_of_ofChars read
  have nonempty := ne_nil_of_ofChars read
  rw [← ofChars_append read]
  obtain ⟨c, chars, rfl⟩ := List.exists_cons_of_ne_nil nonempty
  have plain := shape.not_isSkipped
  simp only [isSkipped, Bool.or_eq_false_iff] at plain
  simpa [isBlank] using plain.1.1

/-- The word `not` stands alone in front of layout, unless the word `in` comes behind. -/
theorem ofChars_not_layout {cs : List Char} (layout : Layout gap) (some : gap ≠ [])
    (noBlank : cs.head?.any isBlank = false) (notIn : cs.takeWhile isWordPart ≠ ['i', 'n']) :
    ofChars (['n', 'o', 't'] ++ (gap ++ cs)) = .token .not ['n', 'o', 't'] (gap ++ cs) := by
  have behind : ((gap ++ cs).dropWhile isBlank).takeWhile isWordPart ≠ ['i', 'n'] := by
    clear some
    induction layout with
    | nil =>
        have none := takeWhile_append_of_stop [] cs (by simp) noBlank
        rwa [List.nil_append, show cs.dropWhile isBlank = cs from none.2]
    | blank isBlank _ ih => rwa [List.cons_append, List.dropWhile_cons_of_pos isBlank]
    | continuation => exact fun same => by cases same
  have stop : (gap ++ cs).head?.any isWordPart = false := by
    obtain ⟨c, gap, rfl⟩ := List.exists_cons_of_ne_nil some
    have skipped := (layout.toGap []).isSkipped_head c rfl
    simp only [isSkipped, Bool.or_eq_true, beq_iff_eq, or_assoc] at skipped
    rcases skipped with rfl | rfl | rfl | rfl <;> rfl
  have allNot : ['n', 'o', 't'].all isWordPart = true := rfl
  obtain ⟨take, drop⟩ :=
    takeWhile_append_of_stop ['n', 'o', 't'] _ (List.all_eq_true.1 allNot) stop
  show word (['n', 'o', 't'] ++ (gap ++ cs)) = _
  rw [word]
  simp only [take, drop]
  rw [if_neg fun all => behind all.2.2]
  rfl

end Lexeme

open Lexeme

namespace Token

variable {source : String} {tokens : List Token}

/-- The tokens and the gaps around them are the text `cs`, which begins at byte `position`. -/
inductive Tiles (source : String) : (position : Nat) → (cs : List Char) → List Token → Prop where
  | nil {position : Nat} {gap : List Char} (skipped : Gap [] gap) : Tiles source position gap []
  | cons {position : Nat} {gap chars rest : List Char} {t : Token} {ts : List Token}
      (skipped : Gap (chars ++ rest) gap) (nonempty : chars ≠ [])
      (text : (t.text source).toList = chars)
      (starts : t.span.start = position + Text.byteLength gap)
      (stops : t.span.stop = t.span.start + Text.byteLength chars)
      (later : Tiles source t.span.stop rest ts) :
      Tiles source position (gap ++ (chars ++ rest)) (t :: ts)

theorem Scanned.tiles {position : Nat} {cs before : List Char} {ts : List Token}
    (h : Scanned position cs ts) (split : source.toList = before ++ cs)
    (length : Text.byteLength before = position) : Tiles source position cs ts := by
  induction h generalizing before with
  | @nothing position cs front =>
      have skipped := gap_trivia cs
      have all := trivia_append cs
      rw [eq_nil_of_ofChars front] at skipped all
      rw [List.append_nil] at all
      exact .nil (all ▸ skipped)
  | @token position start stop cs chars rest kind ts read starts stops _ ih =>
      have here := stands_of_front split length read starts stops
      have tail := ih here.split (by rw [Text.byteLength_append]; exact here.stop)
      have skipped := gap_trivia cs
      have all := trivia_append cs
      rw [← ofChars_append read] at skipped all
      rw [← all]
      exact .cons skipped (ne_nil_of_ofChars read) here.toList_text starts stops tail

/-- The tokens of a source are disjoint, in order, and lie on boundaries of characters. With the
    gaps in front of them and at the end they are all of the source. -/
theorem tiles_of_readAll (h : readAll source = .ok tokens) :
    (∀ t ∈ tokens, t.span.start < t.span.stop ∧ t.span.stop ≤ Text.byteLength source.toList ∧
        Text.isBoundary t.span.start source.toList = true ∧
        Text.isBoundary t.span.stop source.toList = true) ∧
      tokens.Pairwise (fun t u => t.span.start < u.span.start ∧ t.span.stop ≤ u.span.start) ∧
      Tiles source 0 source.toList tokens := by
  have stream := stream_of_readAll h
  refine ⟨fun t ht => ⟨stream.start_lt_stop ht, stream.stop_le ht, stream.isBoundary_start ht,
    stream.isBoundary_stop ht⟩, ?_, (readAll_eq_ok_iff.1 h).tiles (List.nil_append _).symm rfl⟩
  apply stream.ordered.imp_of_mem
  intro t u ht _ apart
  exact ⟨Nat.lt_of_lt_of_le (stream.start_lt_stop ht) apart, apart⟩

theorem tiles_of_readAll_comment :
    ∃ tokens, readAll "not \tin'\\é' # é\\\n\\\n 1.. # in" = .ok tokens ∧
      tokens.map (·.span) =
        [⟨0, 7⟩, ⟨7, 12⟩, ⟨18, 19⟩, ⟨22, 23⟩, ⟨23, 24⟩, ⟨24, 25⟩] ∧
      Tiles "not \tin'\\é' # é\\\n\\\n 1.. # in" 0 "not \tin'\\é' # é\\\n\\\n 1.. # in".toList
        tokens := by
  have read : readAll "not \tin'\\é' # é\\\n\\\n 1.. # in" =
      .ok [⟨.relation, 0, 7⟩, ⟨.string, 7, 12⟩, ⟨.newline, 18, 19⟩, ⟨.number, 22, 23⟩,
        ⟨.dot, 23, 24⟩, ⟨.dot, 24, 25⟩] := by decide +kernel
  exact ⟨_, read, rfl, (tiles_of_readAll read).2.2⟩

/-- The texts one behind the other, with layout between them. -/
inductive Spread : (texts : List String) → (cs : List Char) → Prop where
  | nil : Spread [] []
  | single {x : String} : Spread [x] x.toList
  | cons {x y : String} {xs : List String} {gap cs : List Char} (layout : Layout gap)
      (some : gap ≠ []) (later : Spread (y :: xs) cs) :
      Spread (x :: y :: xs) (x.toList ++ (gap ++ cs))

variable {t : Token} {rest : List Char}

theorem Laid.isRead {position : Nat} {ts : List Token} (h : Laid source position ts)
    (ht : t ∈ ts) : t.IsRead source := by
  induction h with
  | nil => cases ht
  | cons _ _ _ read _ ih =>
      rcases List.mem_cons.1 ht with rfl | later
      · exact read
      · exact ih later

theorem IsRead.kind_of_not (read : t.IsRead source) (isNot : t.text source = "not") :
    t.kind = .not := by
  by_contra other
  exact read.shape.ne_not other isNot

/-- A token is read in front of layout as it is read in the source. -/
theorem IsRead.front {gap cs : List Char} (read : t.IsRead source) (layout : Layout gap)
    (some : gap ≠ []) (noBlank : cs.head?.any isBlank = false)
    (notIn : t.text source = "not" → cs.takeWhile isWordPart ≠ ['i', 'n']) :
    ofChars ((t.text source).toList ++ (gap ++ cs)) =
      .token t.kind (t.text source).toList (gap ++ cs) := by
  by_cases isNot : t.text source = "not"
  · rw [isNot, read.kind_of_not isNot]
    exact ofChars_not_layout layout some noBlank (notIn isNot)
  · exact ofChars_of_not_continues read (fun same => isNot (String.toList_injective same))
      ((layout.toGap []).not_continues some read.shape)

/-- At the end of a text too. -/
theorem IsRead.last (read : t.IsRead source) :
    ofChars ((t.text source).toList ++ []) = .token t.kind (t.text source).toList [] := by
  by_cases isNot : t.text source = "not"
  · rw [isNot, read.kind_of_not isNot]
    rfl
  · refine ofChars_of_not_continues read (fun same => isNot (String.toList_injective same)) ?_
    obtain ⟨c, cs, same⟩ := List.exists_cons_of_ne_nil read.stops.ne_nil
    rw [same]
    simp [continues, continuesNumber]

/-- No two tokens in a row are the words `not` and `in`. -/
def NoNotIn (source : String) (ts : List Token) : Prop :=
  ∀ p ∈ ts.zip ts.tail, ¬(p.1.text source = "not" ∧ p.2.text source = "in")

instance (source : String) (ts : List Token) : Decidable (NoNotIn source ts) :=
  inferInstanceAs (Decidable (∀ p ∈ ts.zip ts.tail, _))

/-- The text of a token is read as the same token behind layout in another text. -/
theorem IsRead.scanned {whole : String} {gap rest : List Char} {us : List Token}
    (h : t.IsRead source) (layout : Layout gap) (before : List Char)
    (split : whole.toList = before ++ (gap ++ ((t.text source).toList ++ rest)))
    (front : ofChars ((t.text source).toList ++ rest) = .token t.kind (t.text source).toList rest)
    (later : Scanned (Text.byteLength (before ++ gap ++ (t.text source).toList)) rest us) :
    ∃ u, Scanned (Text.byteLength before) (gap ++ ((t.text source).toList ++ rest)) (u :: us) ∧
      u.kind = t.kind ∧ u.text whole = t.text source := by
  have plain : Leads [] ((t.text source).toList ++ rest) :=
    leads_nil_of_shape h.shape h.stops.ne_nil rest
  have leads := (leads_iff plain).2 (layout.toGap _)
  simp only [Text.byteLength_append] at later
  have stands : Stands whole ⟨t.kind, Text.byteLength before + Text.byteLength gap,
      Text.byteLength before + Text.byteLength gap + Text.byteLength (t.text source).toList⟩
      (before ++ gap) (t.text source).toList rest :=
    ⟨by simp [split], by simp, by simp, front⟩
  exact ⟨_, .of_leads leads front rfl rfl later, rfl,
    String.toList_injective stands.toList_text⟩

/-- The tokens of a text that is spread out are those whose texts were spread. -/
theorem Spread.scanned {whole : String} {ts : List Token} {gap cs : List Char}
    (h : Spread (ts.map (·.text source)) cs) (read : ∀ t ∈ ts, t.IsRead source)
    (noNotIn : NoNotIn source ts) (layout : Layout gap) (before : List Char)
    (split : whole.toList = before ++ (gap ++ cs)) :
    (∃ us, Scanned (Text.byteLength before) (gap ++ cs) us ∧
      us.map (fun u => (u.kind, u.text whole)) = ts.map (fun t => (t.kind, t.text source))) ∧
    ∀ t ∈ ts.head?, ∃ rest, ofChars cs = .token t.kind (t.text source).toList rest := by
  induction ts generalizing gap cs before with
  | nil =>
      cases h
      have leads := (leads_iff (show Leads [] [] from rfl)).2 (layout.toGap [])
      exact ⟨⟨[], .nothing (by rw [leads.trivia_eq]; rfl), rfl⟩, nofun⟩
  | cons t ts ih =>
      have here := read t List.mem_cons_self
      cases ts with
      | nil =>
          generalize same : [t].map (·.text source) = texts at h
          cases h with
          | nil | cons => cases same
          | single =>
              cases same
              have front := here.last
              rw [← List.append_nil (t.text source).toList] at split ⊢
              obtain ⟨u, scanned, kind, text⟩ :=
                here.scanned layout before split front (.nothing rfl)
              refine ⟨⟨[u], scanned, by simp [kind, text]⟩, ?_⟩
              rintro _ ⟨⟩
              exact ⟨[], front⟩
      | cons v ts =>
          generalize same : (t :: v :: ts).map (·.text source) = texts at h
          cases h with
          | nil | single => cases same
          | @cons _ _ _ gap' cs' layout' some later =>
              cases same
              obtain ⟨⟨us, scanned, same⟩, front⟩ := ih later
                (fun v hv => read v (List.mem_cons_of_mem _ hv))
                (fun p hp => noNotIn p (List.mem_cons_of_mem _ hp)) layout'
                (before ++ gap ++ (t.text source).toList) (by simp [split])
              obtain ⟨rest, next⟩ := front v rfl
              have notIn : t.text source = "not" → cs'.takeWhile isWordPart ≠ ['i', 'n'] := by
                intro isNot
                apply takeWhile_ne_of_ofChars next
                intro isIn
                exact noNotIn (t, v) List.mem_cons_self ⟨isNot, String.toList_injective isIn⟩
              have front := here.front layout' some (not_isBlank_of_ofChars next) notIn
              obtain ⟨u, scanned, kind, text⟩ := here.scanned layout before split front scanned
              refine ⟨⟨u :: us, scanned, by rw [List.map_cons, List.map_cons, kind, text, same]⟩, ?_⟩
              rintro _ ⟨⟩
              exact ⟨_, front⟩

/-- Layout does not matter: the texts of the tokens of a source are read again as the same
    tokens, with whatever layout they are spread out. -/
theorem readAll_spread {respaced : String} (h : readAll source = .ok tokens)
    (noNotIn : NoNotIn source tokens)
    (spread : Spread (tokens.map (·.text source)) respaced.toList) :
    ∃ us, readAll respaced = .ok us ∧
      us.map (fun u => (u.kind, u.text respaced)) =
        tokens.map (fun t => (t.kind, t.text source)) := by
  have laid := (readAll_eq_ok_iff.1 h).laid (List.nil_append _).symm rfl
  obtain ⟨⟨us, scanned, same⟩, -⟩ := spread.scanned (fun t ht => laid.isRead ht) noNotIn .nil [] rfl
  exact ⟨us, readAll_eq_ok_iff.2 scanned, same⟩

theorem readAll_spread_touching :
    ∃ us, readAll "a ! \n\t= not\\\n'\\'é'\\\nnot  in 1 .  5" = .ok us ∧
      us.map (fun u => (u.kind, u.text "a ! \n\t= not\\\n'\\'é'\\\nnot  in 1 .  5")) =
        [(.identifier, "a"), (.not, "!"), (.newline, "\n"), (.assign, "="), (.not, "not"),
          (.string, "'\\'é'"), (.relation, "not  in"), (.number, "1"), (.dot, "."),
          (.number, "5")] := by
  have read : readAll "a!# not\n=not'\\'é'not  in 1. 5" =
      .ok [⟨.identifier, 0, 1⟩, ⟨.not, 1, 2⟩, ⟨.newline, 7, 8⟩, ⟨.assign, 8, 9⟩, ⟨.not, 9, 12⟩,
        ⟨.string, 12, 18⟩, ⟨.relation, 18, 25⟩, ⟨.number, 26, 27⟩, ⟨.dot, 27, 28⟩,
        ⟨.number, 29, 30⟩] := by decide +kernel
  have blank : Layout [' '] := .blank rfl .nil
  have tab : Layout [' ', '\t'] := .blank rfl (.blank rfl .nil)
  have fold : Layout ['\\', '\n'] := .continuation .nil
  have spread : Spread ["a", "!", "\n", "=", "not", "'\\'é'", "not  in", "1", ".", "5"]
      "a ! \n\t= not\\\n'\\'é'\\\nnot  in 1 .  5".toList :=
    .cons blank nofun <| .cons blank nofun <| .cons (.blank rfl .nil) nofun <|
      .cons blank nofun <| .cons fold nofun <| .cons fold nofun <| .cons blank nofun <|
      .cons blank nofun <| .cons (.blank rfl blank) nofun <| .single
  exact readAll_spread read (by decide +kernel) spread

end Token

end MembershipLowering
