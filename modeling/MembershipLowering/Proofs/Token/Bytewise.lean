import MembershipLowering.Proofs.Token.Resuming
import MembershipLowering.Proofs.Token.Scanner

/-! # The bytes and the characters of a token

What a scanner reads byte by byte is what a lexer reads. From an offset on, the bytes are those
of the text that the lexer has left (`Scanner.Ahead`). A test that only ASCII passes gives the
same answer on a character and on its first byte (`Scanner.Seen.test`), so that runs end at the
same place. Only a quoted literal is entered in the middle of a character, behind a backslash;
the bytes left of the character stop no one, and its end is reached (`quotedTail_inside`).

With the places the crashes are settled: what is cut out of the source was split off its
characters.
-/

namespace MembershipLowering.Scanner

open Lexeme

/-- The bytes from an offset on are those of a text. -/
def Ahead (bs : List UInt8) (i : Nat) (cs : List Char) : Prop :=
  bs.drop i = Text.bytes cs

theorem Ahead.of_split {source front rest : List Char} (split : source = front ++ rest) :
    Ahead (Text.bytes source) (Text.byteLength front) rest := by
  rw [Ahead, split, Text.bytes_append, ← Text.length_bytes, List.drop_left]

section Ahead

variable {bs : List UInt8} {i : Nat} {c : Char} {cs : List Char}

theorem Ahead.skip (front : List Char) {rest : List Char} (h : Ahead bs i (front ++ rest)) :
    Ahead bs (i + Text.byteLength front) rest := by
  rw [Ahead, ← List.drop_drop, h, Text.bytes_append, ← Text.length_bytes, List.drop_left]

theorem Ahead.byte (h : Ahead bs i cs) (k : Nat) :
    charAt? bs (i + k) = (Text.bytes cs)[k]?.map Char.ofUInt8 := by
  rw [charAt?, ← h, List.getElem?_drop]

theorem Ahead.charAt?_nil (h : Ahead bs i []) : charAt? bs i = none :=
  h.byte 0

/-- A character of ASCII is read by one byte. -/
theorem Ahead.ascii (h : Ahead bs i (c :: cs)) (ascii : c.toNat < 128) :
    charAt? bs i = some c ∧ Ahead bs (i + 1) cs := by
  obtain ⟨b, byte, char⟩ := Text.exists_byte ascii
  constructor
  · have read := h.byte 0
    rwa [Text.bytes_cons, byte, List.singleton_append, List.getElem?_cons_zero, Option.map_some,
      char] at read
  · rw [Ahead, ← List.drop_drop, h, Text.bytes_cons, byte]
    rfl

theorem utf8Size_of_lt (ascii : c.toNat < 128) : c.utf8Size = 1 :=
  Char.utf8Size_eq_one_iff.2 (Nat.le_of_lt_succ ascii)

/-- Any other character is none of ASCII in each of its bytes. -/
theorem Ahead.other (h : Ahead bs i (c :: cs)) (other : 128 ≤ c.toNat) {k : Nat}
    (inside : k < c.utf8Size) : ∃ d, charAt? bs (i + k) = some d ∧ 128 ≤ d.toNat := by
  rw [← String.length_utf8EncodeChar] at inside
  refine ⟨_, ?_, Text.le_of_mem_utf8EncodeChar other (List.getElem_mem inside)⟩
  rw [h.byte, Text.bytes_cons, List.getElem?_append_left inside,
    List.getElem?_eq_getElem inside, Option.map_some]

/-- What the first byte of a character comes out as. -/
inductive Seen (c : Char) : Char → Prop where
  | ascii (low : c.toNat < 128) : Seen c c
  | other {d : Char} (high : 128 ≤ c.toNat) (higher : 128 ≤ d.toNat) : Seen c d

theorem Ahead.seen (h : Ahead bs i (c :: cs)) : ∃ d, charAt? bs i = some d ∧ Seen c d := by
  rcases Nat.lt_or_ge c.toNat 128 with low | high
  · exact ⟨c, (h.ascii low).1, .ascii low⟩
  · obtain ⟨d, read, higher⟩ := h.other high c.utf8Size_pos
    exact ⟨d, read, .other high higher⟩

end Ahead

/-- A test that only characters of ASCII pass. -/
def Ascii (test : Char → Bool) : Prop :=
  ∀ c, test c = true → c.toNat < 128

theorem Ascii.eq_false {test : Char → Bool} (ascii : Ascii test) {c : Char}
    (other : 128 ≤ c.toNat) : test c = false := by
  cases pass : test c with
  | false => rfl
  | true => exact absurd (ascii c pass) (Nat.not_lt.2 other)

theorem Seen.test {c d : Char} {test : Char → Bool} (h : Seen c d) (ascii : Ascii test) :
    test d = test c := by
  cases h with
  | ascii => rfl
  | other high higher => rw [ascii.eq_false high, ascii.eq_false higher]

theorem ascii_eq {d : Char} (low : d.toNat < 128) : Ascii (· = d) :=
  fun c same => by rwa [of_decide_eq_true same]

theorem ascii_isWordPart : Ascii isWordPart := by
  intro c part
  have below (last : Char) (low : last.toNat < 128) (le : c.val ≤ last.val) : c.toNat < 128 :=
    Nat.lt_of_le_of_lt (UInt32.le_iff_toNat_le.1 le) low
  simp only [isWordPart, Char.isAlphanum, Bool.or_eq_true, beq_iff_eq] at part
  rcases part with ((letter | digit) | rfl) | rfl
  · rcases Bool.or_eq_true_iff.1 letter with upper | lower
    · exact below 'Z' (by decide) (of_decide_eq_true upper).2
    · exact below 'z' (by decide) (of_decide_eq_true (Bool.and_eq_true_iff.1 lower).2)
  · exact below '9' (by decide) (of_decide_eq_true (Bool.and_eq_true_iff.1 digit).2)
  · decide
  · decide

theorem ascii_isWordStart : Ascii isWordStart :=
  fun c start => ascii_isWordPart c (isWordPart_of_isWordStart start)

theorem ascii_isDigit : Ascii Char.isDigit :=
  fun c digit => ascii_isWordPart c (by simp [isWordPart, Char.isAlphanum, digit])

theorem ascii_isBlank : Ascii isBlank := by
  intro c blank
  simp only [isBlank, Bool.or_eq_true, beq_iff_eq] at blank
  rcases blank with rfl | rfl <;> decide

section Loops

variable {bs : List UInt8} {i : Nat} {cs : List Char} {test : Char → Bool}

/-- A byte passes such a test if its character does. -/
theorem Ahead.any_charAt? (h : Ahead bs i cs) (ascii : Ascii test) :
    (charAt? bs i).any test = cs.head?.any test := by
  cases cs with
  | nil => rw [h.charAt?_nil]; rfl
  | cons c cs =>
      obtain ⟨d, read, seen⟩ := h.seen
      rw [read]
      exact seen.test ascii

theorem Ahead.charAt?_eq_some_iff (h : Ahead bs i cs) {d : Char} (ascii : d.toNat < 128) :
    charAt? bs i = some d ↔ cs.head? = some d := by
  have test : (charAt? bs i).any (· = d) = cs.head?.any (· = d) :=
    h.any_charAt? (ascii_eq ascii)
  cases read : charAt? bs i <;> cases head : cs.head? <;> simp_all

theorem runEnd_eq (h : Ahead bs i cs) (ascii : Ascii test) :
    runEnd test bs i = i + Text.byteLength (cs.takeWhile test) := by
  induction cs generalizing i with
  | nil => rw [runEnd, h.charAt?_nil]; rfl
  | cons c cs ih =>
      obtain ⟨d, read, seen⟩ := h.seen
      rw [runEnd_some read, seen.test ascii]
      cases pass : test c with
      | true =>
          rw [if_pos rfl, ih (h.ascii (ascii c pass)).2, List.takeWhile_cons_of_pos pass,
            Text.byteLength_cons, utf8Size_of_lt (ascii c pass), Nat.add_assoc]
      | false => simp [pass]

/-- The number of bytes up to a newline is that of the characters up to it. -/
theorem toNewline_bytes (cs : List Char) :
    toNewline (Text.bytes cs) = Text.byteLength (cs.takeWhile (· ≠ '\n')) := by
  induction cs with
  | nil => rfl
  | cons c cs ih =>
      rw [toNewline, Text.bytes_cons]
      rcases Nat.lt_or_ge c.toNat 128 with low | other
      · obtain ⟨b, byte, rfl⟩ := Text.exists_byte low
        rw [byte, List.singleton_append, List.findIdx_cons]
        by_cases newline : Char.ofUInt8 b = '\n'
        · simp [newline]
        · simp only [newline, decide_false, cond_false]
          rw [← toNewline, ih]
          simp [newline, utf8Size_of_lt low, Nat.add_comm]
      · have none : ∀ b ∈ String.utf8EncodeChar c, ¬Char.ofUInt8 b = '\n' := by
          rintro b mem same
          have high := Text.le_of_mem_utf8EncodeChar other mem
          rw [same] at high
          exact absurd high (by decide)
        have unlike : c ≠ '\n' := by
          rintro rfl
          exact absurd other (by decide)
        have past : (String.utf8EncodeChar c).findIdx (Char.ofUInt8 · = '\n') = c.utf8Size := by
          rw [← String.length_utf8EncodeChar]
          exact List.findIdx_eq_length_of_false (by simpa using none)
        rw [List.findIdx_append, past, String.length_utf8EncodeChar, if_neg (Nat.lt_irrefl _),
          ← toNewline, ih]
        simp [unlike, Nat.add_comm]

/-- Where no trivia begins nothing is skipped. -/
theorem skipTrivia?_of_nil (h : Ahead bs i cs) (none : (trivia cs).1 = []) :
    skipTrivia? bs i = some i := by
  have head {d : Char} (read : charAt? bs i = some d) (ascii : d.toNat < 128) :
      ∃ rest, cs = d :: rest ∧ Ahead bs (i + 1) rest := by
    obtain ⟨rest, rfl⟩ := List.head?_eq_some_iff.1 ((h.charAt?_eq_some_iff ascii).1 read)
    exact ⟨rest, rfl, (h.ascii ascii).2⟩
  cases read : charAt? bs i with
  | none => rw [skipTrivia?, read]
  | some d =>
      rw [skipTrivia?_some read, if_neg, if_neg, if_neg]
      · rintro rfl
        obtain ⟨rest, rfl, -⟩ := head read (by decide)
        simp [trivia] at none
      · rintro ⟨rfl, newline⟩
        obtain ⟨rest, rfl, behind⟩ := head read (by decide)
        have newline := (behind.charAt?_eq_some_iff (by decide)).1 newline
        obtain ⟨rest, rfl⟩ := List.head?_eq_some_iff.1 newline
        simp [trivia] at none
      · intro blank
        obtain ⟨rest, rfl, -⟩ := head read (ascii_isBlank d blank)
        simp only [isBlank, Bool.or_eq_true, beq_iff_eq] at blank
        rcases blank with rfl | rfl <;> simp [trivia] at none

/-- Trivia are the same bytes and characters. -/
theorem skipTrivia?_eq (h : Ahead bs i cs) :
    skipTrivia? bs i = some (i + Text.byteLength (trivia cs).1) := by
  induction cs using trivia.induct generalizing i with
  | case1 cs ih | case2 cs ih =>
      obtain ⟨read, behind⟩ := h.ascii (by decide)
      rw [skipTrivia?_some read, if_pos (by decide), ih behind]
      exact congrArg some (Nat.add_assoc _ _ _)
  | case3 cs ih =>
      obtain ⟨read, behind⟩ := h.ascii (by decide)
      obtain ⟨newline, behind⟩ := behind.ascii (by decide)
      rw [skipTrivia?_some read, if_neg (by decide), if_pos ⟨rfl, newline⟩, ih behind]
      simp only [trivia, Text.byteLength_cons, Nat.add_assoc]
      rfl
  | case4 cs =>
      have front : toNewline (bs.drop i) = Text.byteLength (trivia ('#' :: cs)).1 := by
        rw [h, toNewline_bytes, List.takeWhile_cons_of_pos (by decide)]
        rfl
      rw [← trivia_append ('#' :: cs)] at h
      have read : charAt? bs i = some '#' := (h.ascii (by decide)).1
      rw [skipTrivia?_some read, if_neg (by decide), if_neg (by simp), if_pos rfl, front]
      exact skipTrivia?_of_nil (h.skip _) (congrArg Prod.fst (trivia_trivia ('#' :: cs)))
  | case5 cs noBlank noTab noContinuation noComment =>
      have none : trivia cs = ([], cs) := by rw [trivia] <;> assumption
      rw [none]
      exact skipTrivia?_of_nil h (congrArg Prod.fst none)

end Loops

/-- The outcome is that of a lexeme which begins at `position`. -/
inductive Leaves (position : Nat) : Lexeme → Left → Prop where
  | token {kind : TokenKind} {chars rest : List Char} :
      Leaves position (.token kind chars rest) (.ok kind, position + Text.byteLength chars)
  | broken {cause : LexError.Cause} {bytes : Nat} {rest : List Char} :
      Leaves position (.broken cause bytes rest) (.error cause, position + bytes)

theorem Leaves.of_token {position stop : Nat} {kind : TokenKind} {chars rest : List Char}
    (ends : stop = position + Text.byteLength chars) :
    Leaves position (.token kind chars rest) (.ok kind, stop) := by
  subst ends
  exact .token

theorem Leaves.extend {position : Nat} {front : List Char} {l : Lexeme} {left : Left}
    (h : Leaves (position + Text.byteLength front) l left) :
    Leaves position (l.extend front) left := by
  cases h with
  | token => exact .of_token (by rw [Text.byteLength_append, Nat.add_assoc])
  | broken => rw [Nat.add_assoc]; exact .broken

section Quoted

variable {quote : Char} {bs : List UInt8} {i : Nat} {c : Char} {cs : List Char}

/-- From anywhere inside a character that is not of ASCII its end is reached. -/
theorem quotedTail_inside (ascii : quote.toNat < 128) (h : Ahead bs i (c :: cs))
    (other : 128 ≤ c.toNat) {k : Nat} (inside : k ≤ c.utf8Size) :
    quotedTail quote bs (i + k) = quotedTail quote bs (i + c.utf8Size) := by
  induction inside using Nat.decreasingInduction with
  | self => rfl
  | of_succ k inside ih =>
      obtain ⟨d, read, high⟩ := h.other other inside
      have unlike (e : Char) (low : e.toNat < 128) : d ≠ e := by
        rintro rfl
        omega
      rw [quotedTail_some read, if_neg (unlike _ (by decide)), if_neg (unlike _ (by decide)),
        if_neg (unlike _ ascii)]
      exact ih

/-- Nothing is lost when the byte behind a backslash is passed over. -/
theorem quotedTail_behind (ascii : quote.toNat < 128) (h : Ahead bs i (c :: cs)) :
    quotedTail quote bs (i + 1) = quotedTail quote bs (i + c.utf8Size) := by
  rcases Nat.lt_or_ge c.toNat 128 with low | other
  · rw [utf8Size_of_lt low]
  · exact quotedTail_inside ascii h other c.utf8Size_pos

/-- A character is no escape if neither reading of one applies. -/
theorem ne_backslash (noEnd : c = '\\' → cs = [] → False)
    (noEscape : ∀ d rest, c = '\\' → cs = d :: rest → False) : c ≠ '\\' := by
  rintro rfl
  cases cs with
  | nil => exact noEnd rfl rfl
  | cons d rest => exact noEscape d rest rfl rfl

theorem leaves_quotedTail (ascii : quote.toNat < 128) (h : Ahead bs i cs) :
    Leaves i (Lexeme.quotedTail quote cs) (quotedTail quote bs i) := by
  fun_induction Lexeme.quotedTail quote cs generalizing i with
  | case1 =>
      rw [quotedTail, h.charAt?_nil]
      exact .broken
  | case2 rest =>
      rw [quotedTail_some (h.ascii (by decide)).1]
      exact .broken
  | case3 =>
      obtain ⟨read, behind⟩ := h.ascii (by decide)
      rw [quotedTail_some read, if_neg (by decide), if_pos rfl, quotedTail, behind.byte 1]
      exact .broken
  | case4 c rest ih =>
      obtain ⟨read, behind⟩ := h.ascii (by decide)
      rw [quotedTail_some read, if_neg (by decide), if_pos rfl, quotedTail_behind ascii behind,
        Nat.add_assoc]
      exact (ih (Ahead.skip ['\\', c] h)).extend
  | case5 rest newline noEnd noEscape =>
      rw [quotedTail_some (h.ascii ascii).1, if_neg newline,
        if_neg (ne_backslash noEnd noEscape), if_pos rfl]
      exact .of_token (by rw [Text.byteLength_cons, utf8Size_of_lt ascii]; rfl)
  | case6 c rest newline noEnd noEscape other ih =>
      have passed : quotedTail quote bs i = quotedTail quote bs (i + c.utf8Size) := by
        rcases Nat.lt_or_ge c.toNat 128 with low | high
        · rw [quotedTail_some (h.ascii low).1, if_neg newline,
            if_neg (ne_backslash noEnd noEscape), if_neg other, utf8Size_of_lt low]
        · exact quotedTail_inside ascii h high (Nat.zero_le _)
      rw [passed]
      exact (ih (Ahead.skip [c] h)).extend

end Quoted

theorem leaves_number {bs : List UInt8} {i : Nat} {cs : List Char} (h : Ahead bs i cs) :
    Leaves i (Lexeme.number cs) (number bs i) := by
  have behind : Ahead bs (i + Text.byteLength (cs.takeWhile Char.isDigit))
      (cs.dropWhile Char.isDigit) :=
    .skip _ (by rwa [List.takeWhile_append_dropWhile])
  simp only [number, Lexeme.number, runEnd_eq h ascii_isDigit,
    behind.charAt?_eq_some_iff (d := '.') (by decide)]
  split
  · rename_i d after point
    rw [point] at behind ⊢
    have further := (behind.ascii (by decide)).2
    rw [further.any_charAt? ascii_isDigit, runEnd_eq further ascii_isDigit]
    cases digit : d.isDigit with
    | true =>
        rw [if_pos rfl, if_pos ⟨rfl, digit⟩]
        exact .of_token (by rw [Text.byteLength_append, Nat.add_assoc, Nat.add_assoc]; rfl)
    | false =>
        rw [if_neg (by simp), if_neg (by simp [digit])]
        exact .token
  · rename_i noFraction
    rw [if_neg]
    · exact .token
    · rintro ⟨point, digit⟩
      obtain ⟨after, point⟩ := List.head?_eq_some_iff.1 point
      rw [point] at behind
      rw [(behind.ascii (by decide)).2.any_charAt? ascii_isDigit] at digit
      cases after with
      | nil => cases digit
      | cons d after => exact noFraction d after point

/-- The word behind some blanks, of a text that was split there. -/
theorem nextWord?_eq {bs : List UInt8} {i : Nat} {cs blanks text : List Char} (h : Ahead bs i cs)
    (skipped : cs.takeWhile isBlank = blanks) (left : cs.dropWhile isBlank = text) :
    nextWord? bs i =
      if blanks ≠ [] ∧ text.head?.any isWordStart then
        some (i + Text.byteLength blanks,
          i + Text.byteLength blanks + Text.byteLength (text.takeWhile isWordPart))
      else none := by
  have split : cs = blanks ++ text := by
    rw [← skipped, ← left, List.takeWhile_append_dropWhile]
  have behind := (split ▸ h).skip
  have moved : i + Text.byteLength blanks ≠ i ↔ blanks ≠ [] := by
    constructor
    · rintro moved rfl
      exact moved rfl
    · intro nonempty
      have := Text.byteLength_pos nonempty
      omega
  simp only [nextWord?, runEnd_eq h ascii_isBlank, skipped, moved,
    behind.any_charAt? ascii_isWordStart, runEnd_eq behind ascii_isWordPart]

section Cutting

variable {source front cs : List Char}

theorem slice?_of_split {chars rest : List Char} (split : source = front ++ (chars ++ rest)) :
    Text.slice? (Text.byteLength front) (Text.byteLength front + Text.byteLength chars) source =
      some chars :=
  Text.slice?_eq_some_iff.2 ⟨front, rest, by simp [split], rfl, rfl⟩

/-- Both words that may be asked for are cut out between characters. -/
theorem leaves_word? (split : source = front ++ cs) :
    ∃ left, word? source (Text.byteLength front) = some left ∧
      Leaves (Text.byteLength front) (word cs) left := by
  have stop := runEnd_eq (Ahead.of_split split) ascii_isWordPart
  have first := List.takeWhile_append_dropWhile (p := isWordPart) (l := cs)
  have second := List.takeWhile_append_dropWhile (p := isBlank) (l := cs.dropWhile isWordPart)
  simp only [word]
  generalize cs.takeWhile isWordPart = chars at *
  generalize cs.dropWhile isWordPart = after at *
  generalize skipped : after.takeWhile isBlank = blanks at *
  generalize left : after.dropWhile isBlank = text at *
  subst first
  have cut := slice?_of_split split
  rw [← List.append_assoc] at split
  have next := nextWord?_eq (Ahead.of_split split) skipped left
  have third := List.takeWhile_append_dropWhile (p := isWordPart) (l := text)
  rw [← second, ← third, ← List.append_assoc] at split
  have cutNext := slice?_of_split split
  simp only [Text.byteLength_append] at next cutNext
  have begins (same : text.takeWhile isWordPart = ['i', 'n']) :
      text.head?.any isWordStart = true := by
    rw [← third, same]
    rfl
  rw [word?, stop]
  simp only [Option.bind_eq_bind, cut, Option.bind_some]
  by_cases isNot : chars = ['n', 'o', 't']
  · rw [if_pos isNot, next]
    by_cases follows : blanks ≠ [] ∧ text.head?.any isWordStart
    · simp only [if_pos follows, cutNext, Option.bind_some]
      by_cases same : text.takeWhile isWordPart = ['i', 'n']
      · rw [if_pos same, if_pos ⟨isNot, follows.1, same⟩]
        exact ⟨_, rfl, .of_token (by simp only [Text.byteLength_append, same, Nat.add_assoc])⟩
      · rw [if_neg same, if_neg fun all => same all.2.2, isNot]
        exact ⟨_, rfl, .token⟩
    · rw [if_neg follows, if_neg fun all => follows ⟨all.2.1, begins all.2.2⟩, isNot]
      exact ⟨_, rfl, .token⟩
  · rw [if_neg isNot, if_neg fun all => isNot all.1]
    exact ⟨_, rfl, .token⟩

theorem ascii_of_signKind {c : Char} {kind : TokenKind} (h : signKind c = some kind) :
    c.toNat < 128 := by
  unfold signKind at h
  split at h <;> first | decide | cases h

theorem ascii_of_pairKind {c d : Char} {kind : TokenKind} (h : pairKind c d = some kind) :
    c.toNat < 128 ∧ d.toNat < 128 := by
  unfold pairKind at h
  split at h
  · rename_i newline
    rw [newline.1, newline.2]
    decide
  · split at h
    · rename_i signs
      simp only [List.mem_cons, List.not_mem_nil, or_false] at signs
      rcases signs with ⟨rfl | rfl | rfl | rfl, rfl⟩ | ⟨rfl | rfl, rfl⟩ <;> decide
    · cases h

theorem signKind_of_le {c : Char} (other : 128 ≤ c.toNat) : signKind c = none :=
  Option.eq_none_iff_forall_ne_some.2 fun _ sign =>
    absurd (ascii_of_signKind sign) (Nat.not_lt.2 other)

theorem pairKind_of_le {c d : Char} (other : 128 ≤ c.toNat ∨ 128 ≤ d.toNat) :
    pairKind c d = none :=
  Option.eq_none_iff_forall_ne_some.2 fun _ signs => by
    have := ascii_of_pairKind signs
    omega

/-- The next byte decides whether there is a sign of two characters. -/
theorem Ahead.bind_pairKind {bs : List UInt8} {i : Nat} {c d : Char} (h : Ahead bs i (c :: cs))
    (seen : Seen c d) :
    (charAt? bs (i + 1)).bind (pairKind d) = cs.head?.bind (pairKind c) := by
  cases seen with
  | other high higher =>
      have none {e : Char} (other : 128 ≤ e.toNat) (next : Option Char) :
          next.bind (pairKind e) = none :=
        Option.bind_eq_none_iff.2 fun _ _ => pairKind_of_le (.inl other)
      rw [none high, none higher]
  | ascii low =>
      have behind := (h.ascii low).2
      cases cs with
      | nil => rw [behind.charAt?_nil]; rfl
      | cons e cs =>
          obtain ⟨f, read, seen⟩ := behind.seen
          rw [read, Option.bind_some, List.head?_cons, Option.bind_some]
          cases seen with
          | ascii => rfl
          | other high higher => rw [pairKind_of_le (.inr high), pairKind_of_le (.inr higher)]

/-- A character that begins no token is read off the source, from where it stands on. -/
theorem leaves_sign? {c d : Char} (split : source = front ++ c :: cs) (seen : Seen c d) :
    ∃ left, sign? source d (Text.byteLength front) = some left ∧
      Leaves (Text.byteLength front) (sign c cs) left := by
  have cut : Text.slice? (Text.byteLength front) (Text.byteLength source) source =
      some (c :: cs) := by
    rw [split, Text.byteLength_append]
    exact slice?_of_split (by rw [List.append_nil])
  have single : signKind d = signKind c := by
    cases seen with
    | ascii => rfl
    | other high higher => rw [signKind_of_le high, signKind_of_le higher]
  rw [sign?, (Ahead.of_split split).bind_pairKind seen, single, sign]
  cases pair : cs.head?.bind (pairKind c) with
  | some kind =>
      obtain ⟨e, head, signs⟩ := Option.bind_eq_some_iff.1 pair
      obtain ⟨cs, rfl⟩ := List.head?_eq_some_iff.1 head
      obtain ⟨low, lower⟩ := ascii_of_pairKind signs
      exact ⟨_, rfl, .of_token (by simp [utf8Size_of_lt low, utf8Size_of_lt lower])⟩
  | none =>
      cases single : signKind c with
      | some kind =>
          have low := ascii_of_signKind single
          exact ⟨_, rfl, .of_token (by simp [utf8Size_of_lt low])⟩
      | none =>
          simp only [cut]
          exact ⟨_, rfl, .broken⟩

theorem leaves_take? {c d : Char} (split : source = front ++ c :: cs) (seen : Seen c d) :
    ∃ left, take? source d (Text.byteLength front) = some left ∧
      Leaves (Text.byteLength front) (ofChars (c :: cs)) left := by
  have ahead := Ahead.of_split split
  have eq_iff (e : Char) (low : e.toNat < 128) : d = e ↔ c = e := by
    have same : decide (d = e) = decide (c = e) := seen.test (ascii_eq low)
    simpa using same
  simp only [take?, ofChars, seen.test ascii_isWordStart, seen.test ascii_isDigit,
    eq_iff '"' (by decide), eq_iff '\'' (by decide)]
  split_ifs with start digit quoted
  · exact leaves_word? split
  · exact ⟨_, rfl, leaves_number ahead⟩
  · have low : c.toNat < 128 := by rcases quoted with rfl | rfl <;> decide
    obtain rfl : d = c := (eq_iff c low).2 rfl
    refine ⟨_, rfl, .extend ?_⟩
    rw [Text.byteLength_cons, utf8Size_of_lt low]
    exact leaves_quotedTail low (ahead.ascii low).2
  · exact leaves_sign? split seen

end Cutting

/-- A scanner that has got as far as a lexer. -/
def ofLexer (source : String) (s : Lexer) : Scanner :=
  ⟨source, s.position⟩

theorem ahead_of_reached {source : String} {s : Lexer} (h : s.Reached source) :
    Ahead (Text.bytes source.toList) s.position s.rest := by
  cases h with
  | inside split => exact .of_split split
  | beyond =>
      rw [Ahead, ← Text.length_bytes]
      exact List.drop_eq_nil_of_le (Nat.le_succ _)

/-- One call neither crashes nor answers anything but what the lexer does. -/
theorem next?_of_reached {source : String} {s : Lexer} (h : s.Reached source) :
    (ofLexer source s).next? = some (s.next.1, ofLexer source s.next.2) := by
  have ahead := ahead_of_reached h
  have whole := trivia_append s.rest
  simp only [next?, ofLexer, skipTrivia?_eq ahead, Option.bind_eq_bind, Option.bind_some,
    Lexer.next]
  generalize trivia s.rest = parts at *
  obtain ⟨gap, text⟩ := parts
  have behind := (whole ▸ ahead).skip
  cases text with
  | nil =>
      rw [behind.charAt?_nil]
      rfl
  | cons c cs =>
      obtain ⟨front, split, place⟩ : ∃ front, source.toList = front ++ c :: cs ∧
          s.position + Text.byteLength gap = Text.byteLength front := by
        cases h with
        | beyond => simp at whole
        | @inside front _ split =>
            refine ⟨front ++ gap, ?_, (Text.byteLength_append _ _).symm⟩
            rw [split, List.append_assoc]
            exact congrArg (front ++ ·) whole.symm
      obtain ⟨d, read, seen⟩ := behind.seen
      obtain ⟨left, took, leaves⟩ := leaves_take? split seen
      rw [read]
      simp only [place, took, Option.bind_some]
      generalize ofChars (c :: cs) = lexeme at *
      cases leaves with
      | token => rfl
      | broken => rfl

theorem after?_ofLexer {source : String} {s : Lexer} (h : s.Reached source) (calls : Nat) :
    (ofLexer source s).after? calls = some (ofLexer source (s.after calls)) := by
  induction calls with
  | zero => rfl
  | succ calls ih =>
      simp only [after?, ih, next?_of_reached (h.after calls), Option.bind_eq_bind,
        Option.bind_some]
      rfl

/-- Call after call the scanner of a source gives the answers of its lexer. -/
theorem next?_after (source : String) (calls : Nat) :
    ((ofSource source).after? calls).bind next? =
      some ((Lexer.ofSource source).answer calls,
        ofLexer source ((Lexer.ofSource source).after (calls + 1))) := by
  have start : (Lexer.ofSource source).Reached source := .of_split [] rfl rfl
  have reached : (ofSource source).after? calls = _ := after?_ofLexer start calls
  rw [reached, Option.bind_some, next?_of_reached (start.after calls)]
  rfl

/-- Behind the backslash the scanner stands inside a character, and comes out behind it. -/
example : ((ofSource "'\\é' é").after? 1).bind next? =
    some (.error ⟨.unexpectedCharacter 'é', 6⟩, ⟨"'\\é' é", 6⟩) := by decide +kernel

end MembershipLowering.Scanner
