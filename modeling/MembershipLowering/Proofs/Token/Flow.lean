import MembershipLowering.Proofs.Token.Layout

/-! # Text that flows

A text that is written entry by entry, each a gap and a token behind it (`Flow`). What may be
written next depends on the entry before (`Joins`), and on whether a statement has been begun
and how many brackets are open (`Place`). The order of the entries is as in JavaScript: no
word stands for a sign, and `==` and `!=` are only the beginnings of `===` and `!==`.

Read again such a text is these entries (`Flow.exists_reads`), apart from one thing: the word
`instanceof` becomes one with the words that it touches.
-/

namespace MembershipLowering

open Lexeme

namespace TokenKind

/-- The number of open brackets and whether a statement has been begun, behind a token. A newline
    must not end a statement. -/
def follow? : TokenKind → (depth : Nat) → (opened : Bool) → Option (Nat × Bool)
  | lparen, depth, _ | lbracket, depth, _ => some (depth + 1, true)
  | rparen, depth + 1, _ | rbracket, depth + 1, _ => some (depth, true)
  | rparen, 0, _ | rbracket, 0, _ => none
  | newline, 0, true => none
  | newline, depth, opened => some (depth, opened)
  | semicolon, depth, _ => some (depth, false)
  | _, depth, _ => some (depth, true)

/-- The same behind several tokens. -/
def followAll? (depth : Nat) (opened : Bool) : List TokenKind → Option (Nat × Bool)
  | [] => some (depth, opened)
  | kind :: kinds => (kind.follow? depth opened).bind fun s => followAll? s.1 s.2 kinds

end TokenKind

/-- A token as it is written, and the gap in front of it. -/
structure Entry where
  gap : List Char
  kind : TokenKind
  text : String

namespace Entry

/-- The texts of entries, with something behind them. -/
def weave : List Entry → (rest : List Char) → List Char
  | [], rest => rest
  | e :: es, rest => e.gap ++ (e.text.toList ++ weave es rest)

/-- The entry can be read, and would be left as it is. -/
structure Settled (e : Entry) : Prop where
  alone : ofChars e.text.toList = .token e.kind e.text.toList []
  unspelt : Token.isSpelt e.text = false
  notAt : e.text ≠ "@"
  relation : e.kind = .relation → e.text = "instanceof"

/-- The first half of `===` or `!==`. -/
def isHalf (e : Entry) : Bool :=
  e.text = "==" || e.text = "!="

/-- A word that is no operator in signs. -/
def isWord (e : Entry) : Bool :=
  e.kind.isName || e.kind = .relation

/-- The entry `e` may be written behind `p`. -/
structure Joins (p e : Entry) : Prop where
  settled : e.Settled
  gap : Gap e.text.toList e.gap
  whole : p.isHalf = true → e.kind = .assign
  admitted : p.isHalf = false → p.kind.admits e.kind = true
  apart : e.gap = [] →
    ¬(p.text = "\r" ∧ e.text = "\n") ∧ ¬(p.text = "instanceof" ∧ e.kind = .number)

/-- Behind the first half of an operator comes the second one. -/
def Complete : List Entry → Prop
  | [] => True
  | e :: es => (e.isHalf = true → ∃ u ∈ es.head?, u.kind = .assign) ∧ Complete es

end Entry

/-- A place in a text: the entry in front of it, the number of brackets that are open, and
    whether a statement has been begun. -/
structure Place where
  last : Entry
  depth : Nat
  opened : Bool

/-- Entries that are written from one place to another. -/
inductive Flow : Place → List Entry → Place → Prop where
  | nil {c : Place} : Flow c [] c
  | cons {c c' : Place} {e : Entry} {es : List Entry} {depth : Nat} {opened : Bool}
      (joins : c.last.Joins e) (follows : e.kind.follow? c.depth c.opened = some (depth, opened))
      (later : Flow ⟨e, depth, opened⟩ es c') : Flow c (e :: es) c'

/-! ## Reading entries -/

theorem isWordPart_instanceof : ∀ d ∈ "instanceof".toList, isWordPart d = true :=
  List.all_eq_true.1 (by decide)

namespace Entry

variable {p e u : Entry} {es : List Entry} {gap rest : List Char}

theorem Settled.shape (h : e.Settled) : Shape e.kind e.text.toList :=
  shape_of_ofChars h.alone

/-- What stands in front does not matter. -/
theorem Settled.regap (h : e.Settled) (gap : List Char) : Settled ⟨gap, e.kind, e.text⟩ :=
  ⟨h.alone, h.unspelt, h.notAt, h.relation⟩

theorem Settled.ne_nil (h : e.Settled) : e.text.toList ≠ [] :=
  ne_nil_of_ofChars h.alone

theorem Settled.ne_not (h : e.Settled) : e.text.toList ≠ ['n', 'o', 't'] := by
  intro same
  have isNot : e.text = "not" := String.toList_injective same
  have unspelt := h.unspelt
  rw [isNot] at unspelt
  cases unspelt

theorem isHalf_eq_false (h : e.kind ≠ .operator) (settled : e.Settled) : e.isHalf = false := by
  rw [Bool.eq_false_iff]
  intro half
  simp only [isHalf, Bool.or_eq_true, decide_eq_true_eq] at half
  apply h
  apply settled.shape.kind_of_comparison
  rcases half with same | same <;> rw [same] <;> decide

/-- A word that is left as it is. -/
theorem Settled.isWord_of_start (h : e.Settled) {c : Char} {cs : List Char}
    (text : e.text.toList = c :: cs) (start : isWordStart c = true) :
    e.isWord = true ∧ ∀ d ∈ e.text.toList, isWordPart d = true := by
  have shape := h.shape
  rw [text] at shape
  have relation : e.kind = .relation → e.isWord = true ∧
      ∀ d ∈ e.text.toList, isWordPart d = true := by
    intro kind
    rw [h.relation kind]
    exact ⟨by simp [isWord, kind], isWordPart_instanceof⟩
  rcases shape.word_of_start start with ⟨part, kind⟩ | kind
  · rw [← text, String.ofList_toList] at kind
    rcases Token.isName_of_wordKind h.unspelt with name | isRelation
    · exact ⟨by simp [isWord, kind, name], text ▸ part⟩
    · exact relation (kind.trans isRelation)
  · exact relation kind

/-- What begins with a letter is a word, and the other way round. -/
theorem Settled.word (h : e.Settled) (word : e.isWord = true) :
    ∃ c cs, e.text.toList = c :: cs ∧ isWordStart c = true ∧
      ∀ d ∈ c :: cs, isWordPart d = true := by
  simp only [isWord, Bool.or_eq_true, decide_eq_true_eq] at word
  rcases word with name | relation
  · apply h.shape.exists_word name
    exact fun same => h.notAt (String.toList_injective same)
  · rw [h.relation relation]
    exact ⟨'i', _, rfl, rfl, isWordPart_instanceof⟩

/-- A word that goes on touches another word, and one of them is `instanceof`. -/
theorem Joins.words (h : p.Joins u) (settled : p.Settled) (touches : u.gap = [])
    (isWord : p.isWord = true) (part : (u.text.toList ++ rest).head?.any isWordPart = true) :
    u.isWord = true ∧ (p.text = "instanceof" ∨ u.text = "instanceof") := by
  obtain ⟨c, cs, text⟩ := List.exists_cons_of_ne_nil h.settled.ne_nil
  have shape := h.settled.shape
  rw [text] at shape part
  have admitted := h.admitted (isHalf_eq_false (fun kind => by
    rw [Entry.isWord, kind] at isWord
    cases isWord) settled)
  simp only [Entry.isWord, Bool.or_eq_true, decide_eq_true_eq] at isWord
  have isPart : isWordPart c = true := part
  rw [isWordPart_eq, Bool.or_eq_true] at isPart
  have notNumber : u.kind ≠ .number := by
    intro number
    rcases isWord with name | relation
    · rw [TokenKind.not_admits name (.inr number)] at admitted
      cases admitted
    · exact (h.apart touches).2 ⟨settled.relation relation, number⟩
  rcases isPart with start | digit
  · have word := (h.settled.isWord_of_start text start).1
    refine ⟨word, ?_⟩
    rcases isWord with name | relation
    · simp only [Entry.isWord, Bool.or_eq_true, decide_eq_true_eq] at word
      rcases word with name' | relation'
      · rw [TokenKind.not_admits name (.inl name')] at admitted
        cases admitted
      · exact .inr (h.settled.relation relation')
    · exact .inl (settled.relation relation)
  · exact absurd (shape.kind_of_digit digit) notNumber

theorem head_of_gap {cs : List Char} (h : Gap rest gap) (some : gap ≠ []) :
    (gap ++ cs).head?.any Char.isDigit = false := by
  obtain ⟨c, gap, rfl⟩ := List.exists_cons_of_ne_nil some
  have skipped := h.isSkipped_head c rfl
  simp only [isSkipped, Bool.or_eq_true, beq_iff_eq, or_assoc] at skipped
  rcases skipped with rfl | rfl | rfl | rfl <;> rfl

/-- What begins with a digit is a number. -/
theorem Settled.kind_of_head (h : e.Settled)
    (digit : (e.text.toList ++ rest).head?.any Char.isDigit = true) : e.kind = .number := by
  obtain ⟨c, cs, text⟩ := List.exists_cons_of_ne_nil h.ne_nil
  have shape := h.shape
  rw [text] at shape digit
  exact shape.kind_of_digit digit

/-- Behind a point there is no number. -/
theorem head_of_dot (settled : u.Settled) (kind : u.kind = .dot) (next : ∀ v ∈ es.head?, u.Joins v)
    (last : Gap [] gap) : (weave es gap).head?.any Char.isDigit = false := by
  have head : ∀ {rest front : List Char}, Gap rest front → ∀ {cs : List Char},
      cs.head?.any Char.isDigit = false → (front ++ cs).head?.any Char.isDigit = false := by
    intro rest front isGap cs plain
    by_cases none : front = []
    · rw [none]
      exact plain
    · exact head_of_gap isGap none
  cases es with
  | nil =>
      have front := head last (show ([] : List Char).head?.any Char.isDigit = false from rfl)
      rwa [List.append_nil] at front
  | cons v es =>
      have joins := next v rfl
      apply head joins.gap
      rw [Bool.eq_false_iff]
      intro digit
      have admitted := joins.admitted (isHalf_eq_false (by rw [kind]; decide) settled)
      rw [kind, joins.settled.kind_of_head digit] at admitted
      cases admitted

/-- An entry that goes on is a word that touches another one. -/
theorem Joins.touches_of_continues (h : p.Joins u) (settled : p.Settled) (touches : u.gap = [])
    (next : ∀ v ∈ es.head?, u.Joins v) (last : Gap [] gap)
    (continued : continues p.text.toList (u.text.toList ++ weave es gap) = true) :
    p.isWord = true ∧ u.isWord = true ∧ (p.text = "instanceof" ∨ u.text = "instanceof") := by
  obtain ⟨c, cs, text⟩ := List.exists_cons_of_ne_nil h.settled.ne_nil
  have shape := h.settled.shape
  rw [text] at shape
  rcases settled.shape.cases_of_continues continued with word | number | feed | equals
  · have isWord : p.isWord = true := by
      rw [String.ofList_toList] at word
      rcases word.2 with kind | relation
      · rcases Token.isName_of_wordKind settled.unspelt with name | isRelation
        · simp [isWord, kind, name]
        · simp [isWord, kind, isRelation]
      · simp [isWord, relation]
    exact ⟨isWord, h.words settled touches isWord word.1⟩
  · exfalso
    have admitted := h.admitted (isHalf_eq_false (by rw [number.1]; decide) settled)
    have goes := number.2
    rw [continuesNumber, Bool.or_eq_true, Bool.and_eq_true, decide_eq_true_eq] at goes
    rcases goes with digit | ⟨point, digit⟩
    · rw [number.1, h.settled.kind_of_head digit] at admitted
      cases admitted
    · rw [text] at point
      obtain rfl : c = '.' := Option.some.inj point
      have dot := shape.kind_of_point
      have single := h.settled.shape.eq_point_of_dot dot
      rw [single, List.singleton_append, List.tail_cons,
        head_of_dot h.settled dot next last] at digit
      cases digit
  · exfalso
    have isFeed := feed.2
    rw [text] at isFeed
    obtain rfl : c = '\n' := Option.some.inj isFeed
    have none : cs = [] := by
      rcases shape.sign_of_plain rfl rfl (by decide) with ⟨d, -, known⟩ | ⟨none, -⟩
      · simp [pairKind] at known
      · exact none
    apply (h.apart touches).1
    exact ⟨String.toList_injective feed.1, String.toList_injective (by rw [text, none]; rfl)⟩
  · exfalso
    have isEquals := equals.2
    rw [text] at isEquals
    obtain rfl : c = '=' := Option.some.inj isEquals
    have notHalf : p.isHalf = false := by
      rw [Bool.eq_false_iff]
      intro half
      simp only [isHalf, Bool.or_eq_true, decide_eq_true_eq] at half
      rcases half with same | same <;> rw [same] at continued <;> cases continued
    have admitted := h.admitted notHalf
    rcases equals.1 with kind | kind | kind <;> rcases shape.kind_of_equals with kind' | kind' <;>
      rw [kind, kind'] at admitted <;> cases admitted

/-- Entries of which the first is read as the entry `m`: as it is, or as the beginning of a word. -/
def Extends (m e : Entry) : Prop :=
  m.kind = e.kind ∧ m.text = e.text ∨
    e.isWord = true ∧ m.isWord = true ∧ "instanceof".length < m.text.length

/-- A word and another one that it touches, one of them `instanceof` or longer. -/
def merge (e m : Entry) : Entry :=
  ⟨[], .identifier, e.text ++ m.text⟩

theorem wordKind_of_length {text : String} (long : "instanceof".length < text.length) :
    wordKind text = .identifier ∧ Token.isSpelt text = false := by
  constructor
  · unfold wordKind
    split <;> first | rfl | exact absurd long (by decide)
  · rw [Bool.eq_false_iff]
    intro spelt
    simp only [Token.isSpelt, Bool.or_eq_true, decide_eq_true_eq] at spelt
    rcases spelt with (((rfl | rfl) | rfl) | rfl) | rfl <;> exact absurd long (by decide)

theorem follow?_of_isWord (h : e.isWord = true) (depth : Nat) (opened : Bool) :
    e.kind.follow? depth opened = some (depth, true) := by
  simp only [isWord, Bool.or_eq_true, decide_eq_true_eq] at h
  cases kind : e.kind <;> simp only [kind] at h <;> first | rfl | simp [TokenKind.isName] at h

/-- Two words that touch are read as one. -/
theorem ofChars_merge {e m : Entry} {rest : List Char} (settled : e.Settled)
    (word : e.isWord = true) (settled' : m.Settled) (word' : m.isWord = true)
    (long : "instanceof".length < (e.text ++ m.text).length)
    (stop : rest.head?.any isWordPart = false) :
    ofChars ((merge e m).text.toList ++ rest) =
      .token .identifier (merge e m).text.toList rest := by
  obtain ⟨c, cs, text, start, part⟩ := settled.word word
  obtain ⟨d, ds, text', -, part'⟩ := settled'.word word'
  have joined : (merge e m).text.toList = c :: (cs ++ (d :: ds)) := by
    rw [merge, String.toList_append, text, text']
    rfl
  have notNot : c :: (cs ++ (d :: ds)) ≠ ['n', 'o', 't'] := by
    intro same
    rw [← joined] at same
    rw [show e.text ++ m.text = "not" from String.toList_injective same] at long
    exact absurd long (by decide)
  have all : ∀ x ∈ c :: (cs ++ (d :: ds)), isWordPart x = true := by
    intro x hx
    rw [← List.cons_append] at hx
    exact (List.mem_append.1 hx).elim (part x) (part' x)
  have read := ofChars_word start all notNot stop
  rw [← joined, String.ofList_toList] at read
  rw [read, merge, (wordKind_of_length long).1]

theorem settled_merge {e m : Entry} (settled : e.Settled) (word : e.isWord = true)
    (settled' : m.Settled) (word' : m.isWord = true)
    (long : "instanceof".length < (e.text ++ m.text).length) : (merge e m).Settled where
  alone := by
    have stop : ([] : List Char).head?.any isWordPart = false := rfl
    have read := ofChars_merge settled word settled' word' long stop
    rwa [List.append_nil] at read
  unspelt := (wordKind_of_length long).2
  notAt same := by
    rw [show e.text ++ m.text = "@" from same] at long
    exact absurd long (by decide)
  relation kind := by cases kind

theorem Extends.isWord {m e : Entry} (h : m.Extends e) (word : e.isWord = true) :
    m.isWord = true := by
  rcases h with ⟨kind, -⟩ | ⟨-, word', -⟩
  · rw [Entry.isWord, kind]
    exact word
  · exact word'

theorem Settled.length_pos (h : e.Settled) : 0 < e.text.length := by
  rw [← String.length_toList]
  exact List.length_pos_iff.2 h.ne_nil

/-- What is read of two words that touch is longer than one of them. -/
theorem Extends.long {m : Entry} (h : m.Extends u) (settled : e.Settled) (settled' : m.Settled)
    (relation : e.text = "instanceof" ∨ u.text = "instanceof") :
    "instanceof".length < (e.text ++ m.text).length := by
  have := settled.length_pos
  have := settled'.length_pos
  rw [String.length_append]
  rcases relation with same | same
  · rw [same]
    omega
  · rcases h with ⟨-, text⟩ | ⟨-, -, long⟩
    · rw [text, same]
      omega
    · omega

/-- A text in front of which a gap is skipped. -/
theorem spelt_gap {cs chars tail : List Char} {kind : TokenKind} {xs : List (List Char)}
    (isGap : Gap e.text.toList gap) (nonempty : e.text.toList ≠ [])
    (front : ofChars (e.text.toList ++ cs) = .token kind chars tail) (later : Spelt tail xs) :
    Spelt (gap ++ (e.text.toList ++ cs)) (chars :: xs) := by
  have ends : endsComment e.text.toList = endsComment (e.text.toList ++ cs) := by
    obtain ⟨c, text, same⟩ := List.exists_cons_of_ne_nil nonempty
    rw [same]
    rfl
  have isGap' : Gap (e.text.toList ++ cs) gap := isGap.congr ends
  have plain : Leads [] (e.text.toList ++ cs) := by
    rw [← ofChars_append front]
    exact leads_nil_of_shape (shape_of_ofChars front) (ne_nil_of_ofChars front) tail
  have skipped : ofChars (trivia (gap ++ (e.text.toList ++ cs))).2 = .token kind chars tail := by
    rw [((leads_iff plain).2 isGap').trivia_eq]
    exact front
  exact .token skipped later

end Entry

open Entry

theorem Flow.next {c c' : Place} {es : List Entry} (h : Flow c es c') :
    ∀ u ∈ es.head?, c.last.Joins u := by
  cases h with
  | nil => nofun
  | cons joins =>
      rintro _ ⟨⟩
      exact joins

/-- The entries `ms`, without gaps, are read where the entries `es` are written. -/
structure Flow.Reads (depth : Nat) (opened : Bool) (es : List Entry) (gap : List Char) (c' : Place)
    (ms : List Entry) : Prop where
  spelt : Spelt (weave es gap) (ms.map (·.text.toList))
  bare : ∀ m ∈ ms, m.gap = []
  settled : ∀ m ∈ ms, m.Settled
  complete : Complete ms
  follows : TokenKind.followAll? depth opened (ms.map (·.kind)) = some (c'.depth, c'.opened)
  front : ∀ e ∈ es.head?, ∃ m ∈ ms.head?, m.Extends e

namespace Flow.Reads

variable {c' : Place} {e : Entry} {es ms : List Entry} {gap : List Char} {depth depth' : Nat}
  {opened opened' : Bool}

theorem nil (last : Gap [] gap) : Flow.Reads c'.depth c'.opened [] gap c' [] := by
  refine ⟨.nothing ?_, nofun, nofun, trivial, rfl, nofun⟩
  have leads := (leads_iff (show Leads [] [] from rfl)).2 last
  rw [weave, ← List.append_nil gap, leads.trivia_eq]
  rfl

/-- An entry that does not go on is read alone. -/
theorem alone (settled : e.Settled) (isGap : Gap e.text.toList e.gap)
    (follows : e.kind.follow? depth opened = some (depth', opened'))
    (later : Flow ⟨e, depth', opened'⟩ es c') (whole : c'.last.isHalf = false)
    (read : Flow.Reads depth' opened' es gap c' ms)
    (stop : continues e.text.toList (weave es gap) = false) :
    Flow.Reads depth opened (e :: es) gap c' (⟨[], e.kind, e.text⟩ :: ms) := by
  have front : ofChars (e.text.toList ++ weave es gap) =
      .token e.kind e.text.toList (weave es gap) := by
    have read : ofChars (e.text.toList ++ []) = .token e.kind e.text.toList [] := by
      rw [List.append_nil]
      exact settled.alone
    exact ofChars_of_not_continues read settled.ne_not stop
  refine ⟨spelt_gap isGap settled.ne_nil front read.spelt,
    List.forall_mem_cons.2 ⟨rfl, read.bare⟩,
    List.forall_mem_cons.2 ⟨settled.regap [], read.settled⟩, ⟨fun half => ?_, read.complete⟩,
    ?_, ?_⟩
  · cases es with
    | nil =>
        cases later
        exact absurd half (Bool.eq_false_iff.1 whole)
    | cons u es =>
        obtain ⟨m, isHead, isExtended⟩ := read.front u rfl
        have assign : u.kind = .assign := (later.next u rfl).whole half
        refine ⟨m, isHead, ?_⟩
        rcases isExtended with ⟨kind, -⟩ | ⟨word, -⟩
        · exact kind.trans assign
        · rw [Entry.isWord, assign] at word
          cases word
  · simp only [List.map_cons, TokenKind.followAll?, follows, Option.bind_some]
    exact read.follows
  · rintro _ ⟨⟩
    exact ⟨_, rfl, .inl ⟨rfl, rfl⟩⟩

/-- A word is read with the word that it touches. -/
theorem merge {u m : Entry} (settled : e.Settled) (isGap : Gap e.text.toList e.gap)
    (follows : e.kind.follow? depth opened = some (depth', opened')) (settled' : u.Settled)
    (touches : u.gap = []) (word : e.isWord = true) (isExtended : m.Extends u)
    (word' : u.isWord = true) (relation : e.text = "instanceof" ∨ u.text = "instanceof")
    (read : Flow.Reads depth' opened' (u :: es) gap c' (m :: ms)) :
    Flow.Reads depth opened (e :: u :: es) gap c' (Entry.merge e m :: ms) := by
  obtain ⟨settledM, settledMs⟩ := List.forall_mem_cons.1 read.settled
  have wordM := isExtended.isWord word'
  have long := isExtended.long settled settledM relation
  have merged := settled_merge settled word settledM wordM long
  have notHalf : (Entry.merge e m).isHalf = false := isHalf_eq_false TokenKind.noConfusion merged
  have spelt := read.spelt
  rw [weave, touches, List.nil_append, List.map_cons] at spelt
  cases spelt with
  | @token _ _ tail kind _ front behind =>
      have plain : Leads [] (u.text.toList ++ weave es gap) :=
        leads_nil_of_shape settled'.shape settled'.ne_nil _
      have skipped : trivia (u.text.toList ++ weave es gap) =
          ([], u.text.toList ++ weave es gap) := plain
      rw [skipped] at front
      have split : m.text.toList ++ tail = u.text.toList ++ weave es gap := ofChars_append front
      obtain ⟨d, ds, text, start, part⟩ := settledM.word wordM
      have noPart : tail.head?.any isWordPart = false := by
        rw [← split, text] at front
        exact Stops.not_continues_word ⟨kind, front⟩ part start
      have joined : (Entry.merge e m).text.toList = e.text.toList ++ m.text.toList :=
        String.toList_append
      refine ⟨?_, List.forall_mem_cons.2 ⟨rfl, (List.forall_mem_cons.1 read.bare).2⟩,
        List.forall_mem_cons.2 ⟨merged, settledMs⟩,
        ⟨fun half => absurd half (Bool.eq_false_iff.1 notHalf), read.complete.2⟩, ?_, ?_⟩
      · have read := ofChars_merge settled word settledM wordM long noPart
        rw [joined, List.append_assoc] at read
        rw [weave, weave, touches, List.nil_append, ← split, List.map_cons, joined]
        exact spelt_gap isGap settled.ne_nil read behind
      · rw [follow?_of_isWord word, Option.some.injEq, Prod.mk.injEq] at follows
        obtain ⟨rfl, rfl⟩ := follows
        have later := read.follows
        rw [List.map_cons, TokenKind.followAll?, follow?_of_isWord wordM] at later
        exact later
      · rintro _ ⟨⟩
        exact ⟨_, rfl, .inr ⟨word, rfl, long⟩⟩

end Flow.Reads

/-- Settled entries are read where a text flows. -/
theorem Flow.exists_reads {c c' : Place} {es : List Entry} {gap : List Char} (h : Flow c es c')
    (whole : c'.last.isHalf = false) (last : Gap [] gap) :
    ∃ ms : List Entry, Flow.Reads c.depth c.opened es gap c' ms := by
  induction h with
  | nil => exact ⟨[], .nil last⟩
  | @cons c c' e es depth opened joins follows later ih =>
      obtain ⟨ms, read⟩ := ih whole
      have settled := joins.settled
      by_cases stop : continues e.text.toList (weave es gap) = false
      · exact ⟨_, .alone settled joins.gap follows later whole read stop⟩
      · rw [Bool.not_eq_false] at stop
        cases later with
        | nil =>
            -- a gap is no part of a token, and neither is the end
            exfalso
            rw [weave] at stop
            obtain ⟨x, xs, text⟩ := List.exists_cons_of_ne_nil settled.ne_nil
            by_cases none : gap = []
            · rw [none, text] at stop
              simp [continues, continuesNumber] at stop
            · have ends : continues e.text.toList (gap ++ []) = false :=
                last.not_continues none settled.shape
              rw [List.append_nil, stop] at ends
              cases ends
        | @cons _ _ u es _ _ joins' follows' later =>
            have touches : u.gap = [] := by
              apply Decidable.byContradiction
              intro some
              rw [weave, joins'.gap.not_continues some settled.shape] at stop
              cases stop
            rw [weave, touches, List.nil_append] at stop
            obtain ⟨word, word', relation⟩ :=
              joins'.touches_of_continues settled touches later.next last stop
            obtain ⟨m, isHead, isExtended⟩ := read.front u rfl
            obtain ⟨ms, rfl⟩ := List.head?_eq_some_iff.1 isHead
            exact ⟨_, read.merge settled joins.gap follows joins'.settled touches word isExtended
              word' relation⟩

end MembershipLowering
