import MembershipLowering.Proofs.Token.Continuation

/-! # Spelling tokens the JavaScript way

The tokens of a source one by one, each with the one in front of it that is left
(`trail`), and the text that is to stand in place of each. Nothing here looks at the tree:
what the tree guarantees of neighbouring tokens is stated as `Follows`.
-/

namespace MembershipLowering

namespace TokenKind

/-- Whether an operand may end with a token of this class. -/
def endsOperand : TokenKind → Bool
  | identifier | this | number | string | bool | null | rparen | rbracket => true
  | _ => false

/-- Whether an operand may begin with a token of this class. -/
def beginsOperand : TokenKind → Bool
  | identifier | this | number | string | bool | null | not | lparen | lbracket => true
  | _ => false

/-- Which tokens may stand behind one of this class, shorthands apart. -/
def admits : TokenKind → TokenKind → Bool
  | identifier, u | this, u | number, u | string, u | bool, u | null, u | rparen, u
  | rbracket, u => !(u.beginsOperand && u ≠ lparen && u ≠ lbracket)
  | operator, u | relation, u | assign, u | not, u => u.beginsOperand || u = newline
  | dot, u => u = identifier || u = newline
  | lparen, _ | lbracket, _ | comma, _ | newline, _ | semicolon, _ => true

end TokenKind

namespace Token

/-- A name that touches the sign `@`. -/
def isShorthand (source : String) (sign name : Token) : Bool :=
  sign.text source = "@" && sign.span.stop = name.span.start && name.kind = .identifier

/-- The texts that stand for a token behind the token `last`. -/
def spelling (source : String) (last : Option Token) (t : Token) : List String :=
  match t.text source with
  | "and" => ["&&"]
  | "or" => ["||"]
  | "is" | "==" => ["==", "="]
  | "isnt" | "!=" => ["!=", "="]
  | "not" => ["!"]
  | "@" => ["this"]
  | text => if last.any (isShorthand source · t) then [".", text] else [text]

/-- Newlines behind the word `not` are passed over. -/
def passesOver (source : String) (last : Option Token) (t : Token) : Bool :=
  last.any (·.text source = "not") && t.kind = .newline

/-- What closes a statement between two tokens, when statements end at the given offsets. -/
def closing (ends : List Nat) (last next : Option Token) : List String :=
  if last.any (·.span.stop ∈ ends) && !next.any (·.kind = .semicolon) then [";"] else []

/-- The texts that are to be written for the tokens behind `last`. -/
def respelled (source : String) (ends : List Nat) (last : Option Token) : List Token → List String
  | [] => closing ends last none
  | t :: ts =>
    if passesOver source last t then respelled source ends last ts
    else closing ends last (some t) ++ spelling source last t ++ respelled source ends (some t) ts

/-- The tokens that are not passed over, each behind the token in front of it. -/
def trail (source : String) (last : Option Token) : List Token → List (Option Token × Token)
  | [] => []
  | t :: ts =>
    if passesOver source last t then trail source last ts else (last, t) :: trail source (some t) ts

/-- The last token that is not passed over. -/
def final (source : String) (last : Option Token) : List Token → Option Token
  | [] => last
  | t :: ts => if passesOver source last t then final source last ts else final source (some t) ts

/-- The source between a token and an offset. It goes away behind the word `not`. -/
def gap (source : String) (last : Option Token) (stop : Nat) : List Char :=
  if last.any (·.text source = "not") then []
  else Text.excerpt (last.elim 0 (·.span.stop)) stop source.toList

end Token

namespace Piece

/-- Texts without gaps. -/
def bare (xs : List String) : List Piece :=
  xs.map (⟨[], ·⟩)

/-- Texts, the first of them behind a gap. -/
def behind (gap : List Char) : List String → List Piece
  | [] => []
  | x :: xs => ⟨gap, x⟩ :: bare xs

@[simp] theorem weave_bare (xs : List String) (rest : List Char) :
    weave (bare xs) rest = xs.flatMap String.toList ++ rest := by
  simp [weave, bare, List.flatMap_map, chars]

theorem weave_behind {xs : List String} (nonempty : xs ≠ []) (gap rest : List Char) :
    weave (behind gap xs) rest = gap ++ (xs.flatMap String.toList ++ rest) := by
  cases xs with
  | nil => exact absurd rfl nonempty
  | cons x xs => simp [behind, weave_bare]

@[simp] theorem map_text_bare (xs : List String) : (bare xs).map (·.text) = xs := by
  simp [bare, Function.comp_def]

@[simp] theorem map_text_behind (gap : List Char) (xs : List String) :
    (behind gap xs).map (·.text) = xs := by
  cases xs with
  | nil => rfl
  | cons x xs => simp [behind]

end Piece

namespace Token

/-- The pieces that stand for the tokens behind `last`, without what may close the last
    statement. -/
def pieces (source : String) (ends : List Nat) (last : Option Token) (ts : List Token) :
    List Piece :=
  (trail source last ts).flatMap fun step =>
    Piece.bare (closing ends step.1 (some step.2)) ++
      Piece.behind (gap source step.1 step.2.span.start) (spelling source step.1 step.2)

/-- What is to be written behind the token `last`. -/
def written (source : String) (ends : List Nat) (last : Option Token) (ts : List Token) :
    List Char :=
  Piece.weave (pieces source ends last ts ++ Piece.bare (closing ends (final source last ts) none))
    (gap source (final source last ts) (Text.byteLength source.toList))

variable {source : String} {ends : List Nat} {last : Option Token} {t : Token} {ts us : List Token}

theorem spelling_ne_nil (source : String) (last : Option Token) (t : Token) :
    spelling source last t ≠ [] := by
  unfold spelling
  split
  all_goals try exact List.cons_ne_nil _ _
  split <;> exact List.cons_ne_nil _ _

theorem trail_pass (h : passesOver source last t = true) :
    trail source last (t :: ts) = trail source last ts :=
  if_pos h

theorem trail_cons (h : passesOver source last t = false) :
    trail source last (t :: ts) = (last, t) :: trail source (some t) ts :=
  if_neg (Bool.eq_false_iff.1 h)

@[simp] theorem final_nil : final source last [] = last := rfl

theorem final_pass (h : passesOver source last t = true) :
    final source last (t :: ts) = final source last ts :=
  if_pos h

theorem final_cons (h : passesOver source last t = false) :
    final source last (t :: ts) = final source (some t) ts :=
  if_neg (Bool.eq_false_iff.1 h)

@[simp] theorem pieces_nil : pieces source ends last [] = [] := rfl

theorem pieces_pass (h : passesOver source last t = true) :
    pieces source ends last (t :: ts) = pieces source ends last ts := by
  simp only [pieces, trail_pass h]

theorem pieces_cons (h : passesOver source last t = false) :
    pieces source ends last (t :: ts) = Piece.bare (closing ends last (some t)) ++
      Piece.behind (gap source last t.span.start) (spelling source last t) ++
        pieces source ends (some t) ts := by
  simp [pieces, trail_cons h]

theorem trail_append (last : Option Token) (ts us : List Token) :
    trail source last (ts ++ us) =
      trail source last ts ++ trail source (final source last ts) us := by
  induction ts generalizing last with
  | nil => rfl
  | cons t ts ih =>
      cases passed : passesOver source last t with
      | true => rw [List.cons_append, trail_pass passed, trail_pass passed, final_pass passed, ih]
      | false =>
          rw [List.cons_append, trail_cons passed, trail_cons passed, final_cons passed, ih]
          rfl

theorem final_append (last : Option Token) (ts us : List Token) :
    final source last (ts ++ us) = final source (final source last ts) us := by
  induction ts generalizing last with
  | nil => rfl
  | cons t ts ih =>
      cases passed : passesOver source last t with
      | true => rw [List.cons_append, final_pass passed, final_pass passed, ih]
      | false => rw [List.cons_append, final_cons passed, final_cons passed, ih]

theorem pieces_append (last : Option Token) (ts us : List Token) :
    pieces source ends last (ts ++ us) =
      pieces source ends last ts ++ pieces source ends (final source last ts) us := by
  simp only [pieces, trail_append, List.flatMap_append]

/-- The texts of the pieces are those that are to be written. -/
theorem map_text_pieces (last : Option Token) (ts : List Token) :
    (pieces source ends last ts).map (·.text) ++ closing ends (final source last ts) none =
      respelled source ends last ts := by
  induction ts generalizing last with
  | nil => rfl
  | cons t ts ih =>
      rw [respelled]
      cases passed : passesOver source last t with
      | true => rw [pieces_pass passed, final_pass passed, if_pos rfl, ih]
      | false =>
          rw [pieces_cons passed, final_cons passed, if_neg Bool.false_ne_true, ← ih (some t)]
          simp only [List.map_append, Piece.map_text_bare, Piece.map_text_behind,
            List.append_assoc]

theorem written_nil : written source ends last [] =
    (closing ends last none).flatMap String.toList ++
      gap source last (Text.byteLength source.toList) := by
  simp [written]

theorem written_pass (h : passesOver source last t = true) :
    written source ends last (t :: ts) = written source ends last ts := by
  simp only [written, pieces_pass h, final_pass h]

theorem written_cons (h : passesOver source last t = false) :
    written source ends last (t :: ts) = (closing ends last (some t)).flatMap String.toList ++
      (gap source last t.span.start ++ ((spelling source last t).flatMap String.toList ++
        written source ends (some t) ts)) := by
  simp [written, pieces_cons h, final_cons h, Piece.weave_behind (spelling_ne_nil source last t)]

end Token

end MembershipLowering
