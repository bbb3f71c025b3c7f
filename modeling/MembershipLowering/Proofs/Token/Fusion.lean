import MembershipLowering.Proofs.Token.Heads

/-! # Tokens that fuse

When tokens are spelt the JavaScript way and blanks go away behind `not`, which of them
would be read as one? In the order that the grammar allows (`Orderly`) only the word
`instanceof` and a sign `@` that touch, on either side (`Fuses`): every other text stops
where the next one begins (`apart_iff`).
-/

namespace MembershipLowering.Token

open Lexeme

variable {source : String} {last : Option Token} {t u : Token} {c : Char} {rest : List Char}

/-- What the grammar guarantees of a token behind another one. -/
structure Follows (source : String) (ends : List Nat) (last : Option Token) (t : Token) : Prop where
  /-- The only relation is `instanceof`. -/
  relation : t.kind = .relation → t.text source = "instanceof"
  admitted : ∀ s ∈ last, s.kind.admits t.kind = true ∨ isShorthand source s t = true
  /-- Statements are followed by separators. -/
  ended : ∀ s ∈ last, s.span.stop ∈ ends → t.kind.isSeparator = true

/-- The tokens stand in the source behind the token `last`, in an order that the grammar
    allows. If `last` is the word `not`, newlines may have been passed over since. -/
structure Orderly (source : String) (ends : List Nat) (last : Option Token) (position : Nat)
    (ts : List Token) : Prop where
  laid : Laid source position ts
  here : last.any (·.text source = "not") = false → position = last.elim 0 (·.span.stop)
  follows : ∀ step ∈ trail source last ts, Follows source ends step.1 step.2

/-- The tokens touch, and the texts that stand for them would make one word. -/
def Fuses (source : String) (t u : Token) : Prop :=
  t.span.stop = u.span.start ∧
    ((t.text source = "@" ∧ u.text source = "instanceof") ∨
      (t.text source = "instanceof" ∧ u.text source = "@"))

instance (source : String) (t u : Token) : Decidable (Fuses source t u) :=
  inferInstanceAs (Decidable (_ ∧ _))

namespace Orderly

variable {ends : List Nat} {position : Nat} {ts : List Token}

theorem pass (h : Orderly source ends last position (t :: ts))
    (passed : passesOver source last t = true) : Orderly source ends last t.span.stop ts := by
  cases h.laid with
  | cons leads split touches read later =>
      refine ⟨later, fun notNot => ?_, ?_⟩
      · rw [passesOver, notNot] at passed
        cases passed
      · have follows := h.follows
        rw [trail, if_pos passed] at follows
        exact follows

theorem cons (h : Orderly source ends last position (t :: ts))
    (passed : passesOver source last t = false) :
    Follows source ends last t ∧ Orderly source ends (some t) t.span.stop ts := by
  have follows := h.follows
  rw [trail, if_neg (by simp [passed])] at follows
  cases h.laid with
  | cons leads split touches read later =>
      exact ⟨follows _ (List.mem_cons_self ..), later, fun _ => rfl,
        fun step among => follows step (List.mem_cons_of_mem _ among)⟩

theorem gap_eq (h : Orderly source ends last position ts)
    (notNot : last.any (·.text source = "not") = false) (stop : Nat) :
    gap source last stop = Text.excerpt position stop source.toList := by
  rw [gap, if_neg (by simp [notNot]), h.here notNot]

/-- What is left of a gap begins with what is skipped. -/
theorem gap_skipped (h : Orderly source ends last position ts) {stop : Nat} {cs : List Char}
    (leads : Leads (Text.excerpt position stop source.toList) cs) :
    (gap source last stop).head?.all isSkipped = true := by
  cases notNot : last.any (·.text source = "not") with
  | true =>
      rw [gap, if_pos notNot]
      rfl
  | false =>
      rw [h.gap_eq notNot]
      exact leads.head

end Orderly

theorem closing_cases (ends : List Nat) (last next : Option Token) :
    closing ends last next = [] ∨ closing ends last next = [";"] := by
  unfold closing
  split
  · exact .inr rfl
  · exact .inl rfl

/-- What stands for the token `u` is written right behind `t`, and `us` are still to come. If
    `t` is not the word `not`, the two tokens touch in the source. -/
structure Touches (source : String) (ends : List Nat) (t : Token) (ts : List Token) (u : Token)
    (us : List Token) : Prop where
  follows : Follows source ends (some t) u
  later : Orderly source ends (some u) u.span.stop us
  read : u.IsRead source
  written : written source ends (some t) ts =
    (spelling source (some t) u).flatMap String.toList ++ written source ends (some u) us
  here : t.text source ≠ "not" → ts = u :: us ∧ t.span.stop = u.span.start ∧
    remaining source t.span.stop = (u.text source).toList ++ remaining source u.span.stop

/-- What stands behind a token begins with a semicolon or a gap, or with the text for the
    token that follows. -/
theorem head_written {ends : List Nat} {position : Nat} {ts : List Token}
    (h : Orderly source ends (some t) position ts) :
    (∀ c ∈ (written source ends (some t) ts).head?, c = ';' ∨ isSkipped c = true) ∨
      ∃ u us, Touches source ends t ts u us := by
  have of_skipped : ∀ {gap rest : List Char}, gap ≠ [] → gap.head?.all isSkipped = true →
      ∀ c ∈ (gap ++ rest).head?, c = ';' ∨ isSkipped c = true := by
    intro gap rest nonempty skipped c first
    cases gap with
    | nil => exact absurd rfl nonempty
    | cons d gap =>
        cases first
        exact .inr skipped
  induction ts generalizing position with
  | nil =>
      rw [written_nil]
      rcases closing_cases ends (some t) none with none | semicolon
      · rw [none, List.flatMap_nil, List.nil_append]
        by_cases empty : gap source (some t) (Text.byteLength source.toList) = []
        · rw [empty]
          exact .inl fun c first => by cases first
        · cases h.laid with
          | nil leads =>
              exact .inl (List.append_nil (gap ..) ▸ of_skipped empty (h.gap_skipped leads))
      · rw [semicolon]
        exact .inl fun c first => .inl (Option.some.inj first).symm
  | cons u us ih =>
      by_cases passed : passesOver source (some t) u = true
      · have isNot : t.text source = "not" := by
          rw [passesOver, Bool.and_eq_true] at passed
          simpa using passed.1
        refine (ih (h.pass passed)).imp (fun skipped => by rwa [written_pass passed]) ?_
        rintro ⟨v, vs, next⟩
        refine ⟨v, vs, next.follows, next.later, next.read, ?_, fun notNot => absurd isNot notNot⟩
        rw [← next.written, written_pass passed]
      · rw [Bool.not_eq_true] at passed
        obtain ⟨follows, orderly⟩ := h.cons passed
        rcases closing_cases ends (some t) (some u) with none | semicolon
        · cases h.laid with
          | cons leads split touches read later =>
              by_cases empty : gap source (some t) u.span.start = []
              · refine .inr ⟨u, us, follows, orderly, read, ?_, fun notNot => ?_⟩
                · rw [written_cons passed, none, empty]
                  rfl
                · have isNot : (some t).any (·.text source = "not") = false := by simpa using notNot
                  have position : _ = t.span.stop := h.here isNot
                  rw [h.gap_eq isNot] at empty
                  have touches := touches empty
                  rw [empty, List.nil_append, position] at split
                  exact ⟨rfl, position ▸ touches, split⟩
              · rw [written_cons passed, none, List.flatMap_nil, List.nil_append]
                exact .inl (of_skipped empty (h.gap_skipped leads))
        · rw [written_cons passed, semicolon]
          exact .inl fun c first => .inl (Option.some.inj first).symm

namespace Touches

variable {ends : List Nat} {ts us : List Token}

theorem head_eq (h : Touches source ends t ts u us) :
    (Token.written source ends (some t) ts).head? =
      ((spelling source (some t) u).flatMap String.toList).head? := by
  obtain ⟨c, first⟩ := exists_head_spelling (some t) h.read.stops.ne_nil
  rw [h.written, List.head?_append, first]
  rfl

theorem not_shorthand (_ : Touches source ends t ts u us) (read : t.IsRead source)
    (kind : t.kind ≠ .this) : ¬isShorthand source t u = true := by
  intro short
  simp only [isShorthand, Bool.and_eq_true, decide_eq_true_eq] at short
  exact read.shape.ne_at kind short.1.1

theorem admits (h : Touches source ends t ts u us) (read : t.IsRead source)
    (kind : t.kind ≠ .this) : t.kind.admits u.kind = true :=
  (h.follows.admitted t rfl).resolve_right (h.not_shorthand read kind)

theorem touching (h : Touches source ends t ts u us) (read : t.IsRead source)
    (kind : t.kind ≠ .not) : ts = u :: us ∧ t.span.stop = u.span.start ∧
      remaining source t.span.stop = (u.text source).toList ++ remaining source u.span.stop :=
  h.here (read.shape.ne_not kind)

/-- A sign is not continued with `=`, since no operand begins with it. -/
theorem not_equals (h : Touches source ends t ts u us) (read : t.IsRead source)
    (kind : t.kind = .operator ∨ t.kind = .assign ∨ t.kind = .not) :
    (Token.written source ends (some t) ts).head? ≠ some '=' := by
  intro equals
  have admits := h.admits read (by rcases kind with kind | kind | kind <;> rw [kind] <;> decide)
  rw [h.head_eq] at equals
  rcases kind with kind | kind | kind <;>
    rcases equals_of_head h.read.shape equals with next | next <;>
      rw [kind, next] at admits <;> cases admits

/-- A carriage return that stands alone in the source stands alone in what is written. -/
theorem not_feed (h : Touches source ends t ts u us) (read : t.IsRead source)
    (isReturn : (t.text source).toList = ['\r']) :
    (Token.written source ends (some t) ts).head? ≠ some '\n' := by
  intro feed
  rw [h.head_eq] at feed
  have kind : t.kind = .newline := by
    have shape := read.shape
    rw [isReturn] at shape
    rcases shape.sign_of_plain rfl rfl (by decide) with ⟨d, same, -⟩ | ⟨-, known⟩
    · cases same
    · exact (Option.some.inj known).symm
  obtain ⟨-, -, behind⟩ := h.touching read (by rw [kind]; decide)
  rcases head_spelling h.read.shape feed with ⟨first, -⟩ | ⟨same, -⟩ | ⟨same, -⟩ | among | ⟨same, -⟩
  · obtain ⟨cs, same⟩ := List.head?_eq_some_iff.1 first
    rw [IsRead, behind, same, isReturn] at read
    have chars := (Lexeme.token.inj (show Lexeme.token .newline ['\r', '\n'] _ = _ from read)).2.1
    cases chars
  · cases same
  · cases same
  · simp at among
  · cases same

/-- A number is not continued with a number, and behind a point comes a name. -/
theorem not_number (h : Touches source ends t ts u us) (read : t.IsRead source)
    (kind : t.kind = .number) : continuesNumber (Token.written source ends (some t) ts) = false := by
  have admits := h.admits read (by rw [kind]; decide)
  have noDigit : ∀ {s v : Token} {vs ws : List Token}, Touches source ends s vs v ws →
      v.kind ≠ .number → (Token.written source ends (some s) vs).head?.any Char.isDigit = false := by
    intro s v vs ws next notNumber
    obtain ⟨c, first⟩ := exists_head_spelling (some s) next.read.stops.ne_nil
    rw [next.head_eq, first]
    show c.isDigit = false
    rw [Bool.eq_false_iff]
    exact fun digit => notNumber (number_of_head next.read.shape first digit)
  rw [continuesNumber, Bool.or_eq_false_iff]
  refine ⟨noDigit h (fun next => ?_), ?_⟩
  · rw [kind, next] at admits
    cases admits
  · rw [Bool.and_eq_false_iff]
    by_cases dot : u.kind = .dot
    · right
      obtain ⟨text, spelt⟩ := spelling_of_dot (some t) h.read.shape dot
      rw [h.written, spelt]
      show (Token.written source ends (some u) us).head?.any Char.isDigit = false
      rcases head_written h.later with skipped | ⟨v, vs, next⟩
      · have noNumber := (plain_of_skipped skipped).2.1
        rw [continuesNumber, Bool.or_eq_false_iff] at noNumber
        exact noNumber.1
      · refine noDigit next fun number => ?_
        have admits := next.admits h.read (by rw [dot]; decide)
        rw [dot, number] at admits
        cases admits
    · left
      rw [h.head_eq, decide_eq_false_iff_not]
      intro point
      refine (point_of_head h.read.shape point).elim dot fun short => ?_
      exact h.not_shorthand read (by rw [kind]; decide) short

/-- A word is not continued with a word, unless the two are `instanceof` and `@`. -/
theorem not_word (h : Touches source ends t ts u us) (read : t.IsRead source)
    (relation : t.kind = .relation → t.text source = "instanceof")
    (apart : ∀ u ∈ ts.head?, ¬Fuses source t u)
    (kind : t.kind.isName = true ∨ t.kind = .relation) :
    (Token.written source ends (some t) ts).head?.any isWordPart = false := by
  obtain ⟨c, first⟩ := exists_head_spelling (some t) h.read.stops.ne_nil
  rw [h.head_eq, first]
  show isWordPart c = false
  rw [Bool.eq_false_iff]
  intro part
  obtain ⟨kindNext, plain, own⟩ := word_of_head h.read.shape first part
  have admits : t.kind.admits u.kind = true :=
    (h.follows.admitted t rfl).resolve_right (by simpa using plain)
  have notNot : t.kind ≠ .not := by
    intro isNot
    rw [isNot] at kind
    rcases kind with kind | kind <;> cases kind
  obtain ⟨rfl, here, behind⟩ := h.touching read notNot
  have apart := apart u rfl
  have ofNext : t.kind.isName = true → u.text source = "instanceof" := by
    intro isName
    refine h.follows.relation ((or_assoc.2 kindNext).resolve_left fun next => ?_)
    rw [TokenKind.not_admits isName next] at admits
    cases admits
  by_cases isAt : t.text source = "@"
  · have shape := read.shape
    rw [isAt] at shape
    exact apart ⟨here, .inl ⟨isAt, ofNext (by rw [shape.kind_of_at]; rfl)⟩⟩
  · obtain ⟨d, ds, word, start, all⟩ : ∃ d ds, (t.text source).toList = d :: ds ∧
        isWordStart d = true ∧ ∀ e ∈ d :: ds, isWordPart e = true := by
      rcases kind with isName | isRelation
      · exact read.shape.exists_word isName fun same => isAt (String.toList_injective same)
      · exact ⟨'i', "nstanceof".toList, by rw [relation isRelation]; rfl, rfl,
          List.all_eq_true.1 (by decide)⟩
    have stops := read.stops
    rw [word] at stops
    have noPart := stops.not_continues_word all start
    rcases own with isAt' | own
    · rcases kind with isName | isRelation
      · rw [ofNext isName] at isAt'
        exact absurd isAt' (by decide)
      · exact apart ⟨here, .inr ⟨relation isRelation, isAt'⟩⟩
    · rw [behind, List.head?_append, own] at noPart
      exact Bool.false_ne_true (noPart.symm.trans part)

end Touches

variable {ends : List Nat} {position : Nat} {ts : List Token}

/-- Nothing that is written behind a token continues it, unless the two fuse. -/
theorem not_continues_written {x : String} (read : t.IsRead source)
    (relation : t.kind = .relation → t.text source = "instanceof")
    (h : Orderly source ends (some t) position ts) (apart : ∀ u ∈ ts.head?, ¬Fuses source t u)
    (isLast : (spelling source last t).getLast? = some x) :
    continues x.toList (written source ends (some t) ts) = false := by
  rw [Bool.eq_false_iff]
  intro continued
  rcases head_written h with skipped | ⟨u, us, next⟩
  · obtain ⟨noWord, noNumber, noFeed, noEquals⟩ := plain_of_skipped skipped
    rcases continues_spelling read.shape isLast continued with ⟨word, -⟩ | ⟨-, number⟩ |
      ⟨-, -, feed⟩ | ⟨-, equals⟩
    · rw [noWord] at word
      cases word
    · rw [noNumber] at number
      cases number
    · exact noFeed feed
    · exact noEquals equals
  · rcases continues_spelling read.shape isLast continued with ⟨word, kind⟩ | ⟨kind, number⟩ |
      ⟨-, isReturn, feed⟩ | ⟨kind, equals⟩
    · have isWord : t.kind.isName = true ∨ t.kind = .relation :=
        kind.elim (·.2) fun isThis => .inl (by rw [isThis.2]; rfl)
      rw [next.not_word read relation apart isWord] at word
      cases word
    · rw [next.not_number read kind] at number
      cases number
    · exact next.not_feed read isReturn feed
    · exact next.not_equals read kind equals

/-- Every text that stands for a token can be read, and none is the word `not`. -/
theorem stops_of_mem_spelling {x : String} (read : t.IsRead source)
    (h : x ∈ spelling source last t) :
    (∃ rest, Stops x.toList rest) ∧ x.toList ≠ ['n', 'o', 't'] := by
  have of_known : x ∈ ["&&", "||", "==", "=", "!=", "!", "this", "."] →
      (∃ rest, Stops x.toList rest) ∧ x.toList ≠ ['n', 'o', 't'] := by
    intro known
    simp only [List.mem_cons, List.not_mem_nil, or_false] at known
    rcases known with rfl | rfl | rfl | rfl | rfl | rfl | rfl | rfl <;>
      exact ⟨⟨[], _, rfl⟩, by decide⟩
  unfold spelling at h
  split at h
  all_goals try exact of_known (List.Subset.trans (fun _ => id) (by decide) h)
  · rename_i text noAnd noOr noIs _ noIsnt _ noNot _
    have own : (∃ rest, Stops (t.text source).toList rest) ∧
        (t.text source).toList ≠ ['n', 'o', 't'] :=
      ⟨⟨_, read.stops⟩, fun same => noNot (String.toList_injective same)⟩
    split at h
    · simp only [List.mem_cons, List.not_mem_nil, or_false] at h
      rcases h with rfl | rfl
      · exact of_known (by decide)
      · exact own
    · rw [List.mem_singleton.1 h]
      exact own

theorem stops_point (rest : List Char) : Stops ['.'] rest := by
  refine stops_sign rfl ?_
  cases rest with
  | nil => rfl
  | cons d rest => simp [pairKind]

theorem stops_semicolon (rest : List Char) : Stops [';'] rest := by
  refine stops_sign rfl ?_
  cases rest with
  | nil => rfl
  | cons d rest => simp [pairKind]

/-- All texts but the last one for a token stop in front of whatever follows. -/
theorem stops_of_mem_dropLast {x : String} (h : x ∈ (spelling source last t).dropLast)
    (rest : List Char) : Stops x.toList rest := by
  have known : x ∈ ["==", "!=", "."] := by
    unfold spelling at h
    split at h
    all_goals try (split at h)
    all_goals simp at h
    all_goals simp [h]
  simp only [List.mem_cons, List.not_mem_nil, or_false] at known
  rcases known with rfl | rfl | rfl
  · exact stops_pair (c := '=') (d := '=') rfl rest
  · exact stops_pair (c := '!') (d := '=') rfl rest
  · exact stops_point rest

theorem apart_behind {gap : List Char} {xs : List String} {ps : List Piece}
    (front : ∀ x ∈ xs.dropLast, ∀ rest, Stops x.toList rest)
    (back : ∀ x, xs.getLast? = some x → Stops x.toList (Piece.weave ps rest))
    (later : Piece.Apart ps rest) : Piece.Apart (Piece.behind gap xs ++ ps) rest := by
  induction xs generalizing gap with
  | nil => exact later
  | cons x xs ih =>
      cases xs with
      | nil => exact .cons (back x rfl) later
      | cons y ys =>
          have tail : Piece.Apart (Piece.behind [] (y :: ys) ++ ps) rest := ih
            (fun z among => front z (List.mem_cons_of_mem _ among)) (fun z isLast => back z isLast)
          exact .cons (front x (List.mem_cons_self ..) _) tail

theorem apart_closing (ends : List Nat) (last next : Option Token) {ps : List Piece}
    (later : Piece.Apart ps rest) :
    Piece.Apart (Piece.bare (closing ends last next) ++ ps) rest := by
  rcases closing_cases ends last next with none | semicolon
  · rw [none]
    exact later
  · rw [semicolon]
    exact .cons (stops_semicolon _) later

/-- No two tokens in a row fuse. -/
def Separate (source : String) (ts : List Token) : Prop :=
  ∀ t u, [t, u] <:+: ts → ¬Fuses source t u

theorem Separate.tail (h : Separate source (t :: ts)) : Separate source ts :=
  fun s u part => h s u (part.trans (List.suffix_cons t ts).isInfix)

theorem separate_cons (head : ∀ u ∈ ts.head?, ¬Fuses source t u) (tail : Separate source ts) :
    Separate source (t :: ts) := by
  intro s u part
  rcases List.infix_cons_iff.1 part with front | later
  · obtain ⟨us, same⟩ := front
    cases same
    exact head u rfl
  · exact tail s u later

theorem Separate.head (h : Separate source (t :: ts)) : ∀ u ∈ ts.head?, ¬Fuses source t u := by
  intro u first
  cases ts with
  | nil => cases first
  | cons v ts =>
      cases first
      exact h t u ⟨[], ts, rfl⟩

instance decidableSeparate (source : String) : (ts : List Token) → Decidable (Separate source ts)
  | [] => isTrue fun _ _ part => by cases List.infix_nil.1 part
  | t :: ts =>
    have := decidableSeparate source ts
    decidable_of_iff ((∀ u ∈ ts.head?, ¬Fuses source t u) ∧ Separate source ts)
      ⟨fun h => separate_cons h.1 h.2, fun h => ⟨h.head, h.tail⟩⟩

/-- The word `not` fuses with nothing. -/
theorem not_fuses_of_not (h : t.text source = "not") (u : Token) : ¬Fuses source t u := by
  rintro ⟨-, ⟨same, -⟩ | ⟨same, -⟩⟩ <;> rw [h] at same <;> exact absurd same (by decide)

theorem text_of_passesOver (h : passesOver source last t = true) :
    t.kind = .newline ∧ ∃ s, last = some s ∧ s.text source = "not" := by
  rw [passesOver, Bool.and_eq_true] at h
  cases last with
  | none => cases h.1
  | some s => exact ⟨by simpa using h.2, s, rfl, by simpa using h.1⟩

/-- The pieces that are written stop where the next ones begin, unless two tokens fuse. -/
theorem apart_pieces (h : Orderly source ends last position ts)
    (separate : Separate source (last.toList ++ ts)) :
    Piece.Apart (pieces source ends last ts ++ Piece.bare (closing ends (final source last ts) none))
      (gap source (final source last ts) (Text.byteLength source.toList)) := by
  induction ts generalizing last position with
  | nil =>
      rw [pieces_nil, List.nil_append, ← List.append_nil (Piece.bare _)]
      exact apart_closing ends last none .nil
  | cons t ts ih =>
      by_cases passed : passesOver source last t = true
      · rw [pieces_pass passed, final, if_pos passed]
        obtain ⟨-, s, rfl, isNot⟩ := text_of_passesOver passed
        exact ih (h.pass passed) (separate_cons (fun u _ => not_fuses_of_not isNot u)
          separate.tail.tail)
      · rw [Bool.not_eq_true] at passed
        obtain ⟨follows, orderly⟩ := h.cons passed
        rw [pieces_cons passed, final, if_neg (by simp [passed]), List.append_assoc,
          List.append_assoc]
        have separateTail : Separate source (t :: ts) := by
          cases last with
          | none => exact separate
          | some s => exact separate.tail
        have read : t.IsRead source := by cases h.laid; assumption
        refine apart_closing ends last (some t) (apart_behind
          (fun x among rest => stops_of_mem_dropLast among rest) (fun x isLast => ?_)
          (ih orderly separateTail))
        obtain ⟨⟨rest, stops⟩, notNot⟩ :=
          stops_of_mem_spelling read (List.mem_of_getLast? isLast)
        exact stops_of_not_continues stops notNot
          (not_continues_written read follows.relation orderly separateTail.head isLast)

theorem spelling_of_at (h : t.text source = "@") : spelling source last t = ["this"] := by
  simp only [spelling, h]

theorem spelling_of_instanceof (last : Option Token) (read : t.IsRead source)
    (h : t.text source = "instanceof") :
    t.kind = .relation ∧ spelling source last t = ["instanceof"] := by
  have kind : t.kind = .relation := by
    have shape := read.shape
    rw [h] at shape
    exact shape.kind_of_instanceof
  refine ⟨kind, ?_⟩
  cases last <;> simp [spelling, h, isShorthand, kind]

theorem not_fuses_of_newline (read : t.IsRead source) (newline : t.kind = .newline) (u : Token) :
    ¬Fuses source t u := by
  have shape := read.shape
  rintro ⟨-, ⟨same, -⟩ | ⟨same, -⟩⟩
  · exact shape.ne_at (by rw [newline]; decide) same
  · rw [same, newline] at shape
    cases shape.kind_of_instanceof

/-- Where `instanceof` and `@` touch, the first text goes on into the second one. -/
theorem not_fuses_of_stops {x : String} (h : Orderly source ends (some t) position (u :: ts))
    (read : t.IsRead source) (isLast : (spelling source last t).getLast? = some x)
    (stops : Stops x.toList (written source ends (some t) (u :: ts))) : ¬Fuses source t u := by
  rintro ⟨here, fuses⟩
  have readNext : u.IsRead source := by cases h.laid; assumption
  have notNot : t.text source ≠ "not" := by
    intro isNot
    rcases fuses with ⟨isAt, -⟩ | ⟨isInstanceof, -⟩
    · rw [isNot] at isAt
      exact absurd isAt (by decide)
    · rw [isNot] at isInstanceof
      exact absurd isInstanceof (by decide)
  have notPassed : passesOver source (some t) u = false := by
    simp [passesOver, notNot]
  obtain ⟨follows, -⟩ := h.cons notPassed
  have notClosed : u.kind.isSeparator = false → closing ends (some t) (some u) = [] := by
    intro kind
    have notEnd : t.span.stop ∉ ends := by
      intro isEnd
      rw [follows.ended t rfl isEnd] at kind
      cases kind
    simp [closing, notEnd]
  have none : gap source (some t) u.span.start = [] := by
    rw [gap, if_neg (by simp [notNot]), Option.elim_some, here, Text.excerpt_self]
  have of_word : ∀ (c : Char) (cs : List Char) (d : Char), x.toList = c :: cs →
      isWordStart c = true → (c :: cs).all isWordPart = true → u.kind.isSeparator = false →
      ((spelling source (some t) u).flatMap String.toList).head? = some d →
        isWordPart d = false := by
    intro c cs d same start part kind first
    rw [same, written_cons notPassed, notClosed kind, none] at stops
    have noPart := stops.not_continues_word (List.all_eq_true.1 part) start
    rw [List.flatMap_nil, List.nil_append, List.nil_append, List.head?_append, first] at noPart
    exact noPart
  rcases fuses with ⟨isAt, isInstanceof⟩ | ⟨isInstanceof, isAt⟩
  · obtain ⟨kind, spelt⟩ := spelling_of_instanceof (some t) readNext isInstanceof
    rw [spelling_of_at isAt] at isLast
    cases isLast
    have noPart := of_word 't' ['h', 'i', 's'] 'i' rfl rfl (by decide)
      (by rw [kind]; rfl) (by rw [spelt]; rfl)
    cases noPart
  · have kind : u.kind = .this := by
      have shape := readNext.shape
      rw [isAt] at shape
      exact shape.kind_of_at
    rw [(spelling_of_instanceof last read isInstanceof).2] at isLast
    cases isLast
    have noPart := of_word 'i' "nstanceof".toList 't' rfl rfl (by decide)
      (by rw [kind]; rfl) (by rw [spelling_of_at isAt]; rfl)
    cases noPart

theorem Apart.of_append {ps qs : List Piece} (h : Piece.Apart (ps ++ qs) rest) :
    Piece.Apart qs rest := by
  induction ps with
  | nil => exact h
  | cons p ps ih =>
      cases h with
      | cons stops later => exact ih later

theorem Apart.stops_last {gap : List Char} {xs : List String} {ps : List Piece} {x : String}
    (h : Piece.Apart (Piece.behind gap xs ++ ps) rest) (isLast : xs.getLast? = some x) :
    Stops x.toList (Piece.weave ps rest) := by
  induction xs generalizing gap with
  | nil => cases isLast
  | cons y ys ih =>
      cases h with
      | cons stops later =>
          cases ys with
          | nil =>
              cases isLast
              exact stops
          | cons z zs => exact @ih [] later isLast

/-- If all pieces stop where the next ones begin, no two tokens fuse. -/
theorem separate_of_apart (h : Orderly source ends last position ts)
    (stops : ∀ s ∈ last, s.IsRead source ∧ ∃ before x,
      (spelling source before s).getLast? = some x ∧
        Stops x.toList (written source ends (some s) ts))
    (apart : Piece.Apart
      (pieces source ends last ts ++ Piece.bare (closing ends (final source last ts) none))
      (gap source (final source last ts) (Text.byteLength source.toList))) :
    Separate source (last.toList ++ ts) := by
  induction ts generalizing last position with
  | nil =>
      intro t u part
      cases last with
      | none => exact absurd part.length_le (by simp)
      | some s => exact absurd part.length_le (by simp)
  | cons t ts ih =>
      have read : t.IsRead source := by cases h.laid; assumption
      by_cases passed : passesOver source last t = true
      · rw [pieces_pass passed, final, if_pos passed] at apart
        obtain ⟨newline, s, rfl, isNot⟩ := text_of_passesOver passed
        have separate := ih (h.pass passed) (fun s' same => by
          cases same
          have stops := stops s rfl
          rwa [written_pass passed] at stops) apart
        refine separate_cons (fun u _ => not_fuses_of_not isNot u)
          (separate_cons (fun u _ => not_fuses_of_newline read newline u) separate.tail)
      · rw [Bool.not_eq_true] at passed
        rw [pieces_cons passed, final, if_neg (by simp [passed]), List.append_assoc,
          List.append_assoc] at apart
        have behind := Apart.of_append apart
        obtain ⟨-, orderly⟩ := h.cons passed
        have separate := ih orderly (fun s same => by
          cases same
          obtain ⟨x, isLast⟩ : ∃ x, (spelling source last t).getLast? = some x :=
            ⟨_, List.getLast?_eq_some_getLast (spelling_ne_nil source last t)⟩
          exact ⟨read, last, x, isLast, Apart.stops_last behind isLast⟩) (Apart.of_append behind)
        cases last with
        | none => exact separate
        | some s =>
            obtain ⟨readLast, before, x, isLast, stops⟩ := stops s rfl
            exact separate_cons (fun u first => by
              cases first
              exact not_fuses_of_stops h readLast isLast stops) separate

/-- The pieces that are written stop where the next ones begin exactly if no two tokens fuse. -/
theorem apart_iff (h : Orderly source ends none position ts) :
    Piece.Apart (pieces source ends none ts ++ Piece.bare (closing ends (final source none ts) none))
      (gap source (final source none ts) (Text.byteLength source.toList)) ↔ Separate source ts :=
  ⟨separate_of_apart h (fun _ none => by cases none), apart_pieces h⟩

/-- A newline is written as it is. -/
theorem endsComment_spelling (read : t.IsRead source)
    (h : endsComment ((t.text source).toList ++ remaining source t.span.stop) = true) :
    endsComment ((spelling source last t).flatMap String.toList ++ rest) = true := by
  obtain ⟨c, cs, same⟩ := List.exists_cons_of_ne_nil read.stops.ne_nil
  have shape := read.shape
  rw [same] at h shape
  obtain rfl : c = '\n' := by simpa [endsComment] using h
  rcases shape.sign_of_plain rfl rfl (by decide) with ⟨d, -, known⟩ | ⟨rfl, known⟩
  · simp [pairKind] at known
  · have text : t.text source = "\n" := String.toList_injective same
    have kind : t.kind = .newline := (Option.some.inj known).symm
    have spelt : spelling source last t = ["\n"] := by
      cases last <;> simp [spelling, text, isShorthand, kind]
    rw [spelt]
    rfl

theorem leads_nil_spelling (read : t.IsRead source) (rest : List Char) :
    Leads [] ((spelling source last t).flatMap String.toList ++ rest) := by
  obtain ⟨x, xs, same⟩ := List.exists_cons_of_ne_nil (spelling_ne_nil source last t)
  obtain ⟨⟨rest', stops⟩, -⟩ := stops_of_mem_spelling read (same ▸ List.mem_cons_self ..)
  obtain ⟨kind, shape⟩ := stops.shape
  rw [same, List.flatMap_cons, List.append_assoc]
  exact leads_nil_of_shape shape stops.ne_nil _

theorem spaced_behind {gap : List Char} {xs : List String} {ps : List Piece} (nonempty : xs ≠ [])
    (leads : Leads gap (xs.flatMap String.toList ++ Piece.weave ps rest))
    (read : ∀ x ∈ xs, ∃ rest, Stops x.toList rest) (later : Piece.Spaced ps rest) :
    Piece.Spaced (Piece.behind gap xs ++ ps) rest := by
  induction xs generalizing gap with
  | nil => exact absurd rfl nonempty
  | cons x xs ih =>
      rw [List.flatMap_cons, List.append_assoc] at leads
      cases xs with
      | nil => exact .cons leads later
      | cons y ys =>
          obtain ⟨rest', stops⟩ := read y (by simp)
          obtain ⟨kind, shape⟩ := stops.shape
          have tail : Piece.Spaced (Piece.behind [] (y :: ys) ++ ps) rest :=
            ih (List.cons_ne_nil y ys) (by
              rw [List.flatMap_cons, List.append_assoc]
              exact leads_nil_of_shape shape stops.ne_nil _)
            fun z among => read z (List.mem_cons_of_mem _ among)
          refine .cons ?_ tail
          show Leads gap (x.toList ++ Piece.weave (Piece.bare (y :: ys) ++ ps) rest)
          rw [Piece.weave_append, Piece.weave_bare]
          exact leads

theorem spaced_closing (ends : List Nat) (last next : Option Token) {ps : List Piece}
    (later : Piece.Spaced ps rest) :
    Piece.Spaced (Piece.bare (closing ends last next) ++ ps) rest := by
  rcases closing_cases ends last next with none | semicolon
  · rw [none]
    exact later
  · rw [semicolon]
    exact .cons rfl later

/-- The gaps in front of the pieces are what is skipped there. -/
theorem spaced_pieces (h : Orderly source ends last position ts) :
    Piece.Spaced (pieces source ends last ts ++ Piece.bare (closing ends (final source last ts) none))
      (gap source (final source last ts) (Text.byteLength source.toList)) := by
  induction ts generalizing last position with
  | nil =>
      rw [pieces_nil, List.nil_append, ← List.append_nil (Piece.bare _)]
      refine spaced_closing ends last none (.nil ?_)
      cases isNot : last.any (·.text source = "not") with
      | true =>
          rw [final, gap, if_pos isNot]
          rfl
      | false =>
          rw [final, h.gap_eq isNot]
          cases h.laid with
          | nil leads => exact leads
  | cons t ts ih =>
      by_cases passed : passesOver source last t = true
      · rw [pieces_pass passed, final, if_pos passed]
        exact ih (h.pass passed)
      · rw [Bool.not_eq_true] at passed
        obtain ⟨-, orderly⟩ := h.cons passed
        rw [pieces_cons passed, final, if_neg (by simp [passed]), List.append_assoc,
          List.append_assoc]
        cases h.laid with
        | cons leads split touches read later =>
            refine spaced_closing ends last (some t) (spaced_behind (spelling_ne_nil source last t) ?_
              (fun x among => (stops_of_mem_spelling read among).1) (ih orderly))
            cases isNot : last.any (·.text source = "not") with
            | true =>
                rw [gap, if_pos isNot]
                exact leads_nil_spelling read _
            | false =>
                rw [h.gap_eq isNot]
                exact leads.replace (leads_nil_spelling read _) (endsComment_spelling read)

/-- What is written is read as the texts that were to be written exactly if no two tokens fuse. -/
theorem spelt_written_iff (h : Orderly source ends none position ts) :
    Spelt (written source ends none ts) ((respelled source ends none ts).map String.toList) ↔
      Separate source ts := by
  have texts : (respelled source ends none ts).map String.toList =
      (pieces source ends none ts ++ Piece.bare (closing ends (final source none ts) none)).map
        (·.text.toList) := by
    rw [← map_text_pieces none ts, List.map_append, List.map_append, List.map_map]
    simp [Piece.bare, Function.comp_def]
  rw [texts, written, Piece.spelt_weave_iff (spaced_pieces h)]
  exact apart_iff h

end MembershipLowering.Token
