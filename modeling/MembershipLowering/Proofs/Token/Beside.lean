import MembershipLowering.Proofs.Token.Flow
import MembershipLowering.Proofs.Token.Writing

/-! # Neighbours in a source

A token of a source is an entry that can be written again (`IsRead.settled`), and the gap in
front of it can be written with it. What two neighbours that touch cannot be is told once,
for all tokens of a source (`Laid.laced`).
-/

namespace MembershipLowering

/-- A number begins with a digit. -/
theorem Lexeme.Shape.isDigit_of_number {kind : TokenKind} {c : Char} {cs : List Char}
    (h : Shape kind (c :: cs)) (number : kind = .number) : c.isDigit = true := by
  generalize same : c :: cs = chars at h
  cases h with
  | word => exact absurd number (by unfold wordKind; split <;> exact TokenKind.noConfusion)
  | notIn | string => cases number
  | number digit =>
      cases same
      exact digit
  | pair known =>
      subst number
      unfold pairKind at known
      split at known
      · cases known
      · split at known <;> cases known
  | sign known =>
      subst number
      unfold signKind at known
      split at known <;> cases known

/-- The classes of tokens that are left as they are, the sign `@` apart. -/
def TokenKind.isFixed : TokenKind → Bool
  | operator | not | relation => false
  | _ => true

theorem TokenKind.isFixed_of_isMark {kind : TokenKind} (h : kind.isMark = true) :
    kind.isFixed = true ∧ kind ≠ .this := by
  cases kind <;> first | exact ⟨rfl, by decide⟩ | cases h

namespace Token

open Lexeme

variable {source text : String} {tokens ts : List Token} {t u : Token} {stop : Nat}

/-- A token that is left as it is. -/
theorem IsRead.settled (read : t.IsRead source)
    (plain : t.kind ≠ .operator ∧ t.kind ≠ .not ∧ t.text source ≠ "@")
    (relation : t.kind = .relation → t.text source = "instanceof") (gap : List Char) :
    Entry.Settled ⟨gap, t.kind, t.text source⟩ where
  alone := by
    have alone := read.last
    rwa [List.append_nil] at alone
  unspelt := by
    have shape := read.shape
    rw [Bool.eq_false_iff]
    intro spelt
    simp only [isSpelt, Bool.or_eq_true, decide_eq_true_eq] at spelt
    rcases spelt with (((same | same) | same) | same) | same <;> rw [same] at shape
    · exact plain.1 (shape.kind_eq_wordKind (by decide) (by decide))
    · exact plain.1 (shape.kind_eq_wordKind (by decide) (by decide))
    · exact plain.1 (shape.kind_eq_wordKind (by decide) (by decide))
    · exact plain.1 (shape.kind_eq_wordKind (by decide) (by decide))
    · exact plain.2.1 (shape.kind_eq_wordKind (by decide) (by decide))
  notAt := plain.2.2
  relation := relation

theorem IsRead.settled_fixed (read : t.IsRead source) {kind : TokenKind} (isKind : t.kind = kind)
    (fixed : kind.isFixed = true) (notAt : kind = .this → t.text source ≠ "@") (gap : List Char) :
    Entry.Settled ⟨gap, kind, t.text source⟩ := by
  subst isKind
  refine read.settled ⟨fun same => ?_, fun same => ?_, fun same => ?_⟩ (fun same => ?_) gap
  · rw [same] at fixed
    cases fixed
  · rw [same] at fixed
    cases fixed
  · have shape := read.shape
    rw [same] at shape
    exact notAt shape.kind_of_at same
  · rw [same] at fixed
    cases fixed

theorem IsRead.settled_mark (read : t.IsRead source) {kind : TokenKind} (isKind : t.kind = kind)
    (mark : kind.isMark = true) (gap : List Char) : Entry.Settled ⟨gap, kind, t.text source⟩ := by
  obtain ⟨fixed, notThis⟩ := TokenKind.isFixed_of_isMark mark
  exact read.settled_fixed isKind fixed (fun this => absurd this notThis) gap

/-- What stops at the offset with the text stands right in front of the token. -/
structure Beside (source text : String) (stop : Nat) (t : Token) : Prop where
  le : stop ≤ t.span.start
  gap : Gap (t.text source).toList (Text.excerpt stop t.span.start source.toList)
  apart : Text.excerpt stop t.span.start source.toList = [] →
    ¬(text = "\r" ∧ t.text source = "\n") ∧ ¬(text = "instanceof" ∧ t.kind = .number)

/-- Behind other texts than a carriage return and `instanceof` a token may touch. -/
theorem Beside.other {text' : String} (h : Beside source text stop t) (noReturn : text' ≠ "\r")
    (noRelation : text' ≠ "instanceof") : Beside source text' stop t :=
  ⟨h.le, h.gap, fun _ => ⟨fun same => noReturn same.1, fun same => noRelation same.1⟩⟩

/-- There is no comment in front of a token on the same line. -/
theorem Beside.layout (h : Beside source text stop t) (shape : Shape t.kind (t.text source).toList)
    (nonempty : (t.text source).toList ≠ []) (inline : t.kind ≠ .newline) :
    Layout (Text.excerpt stop t.span.start source.toList) := by
  apply h.gap.layout
  obtain ⟨c, cs, same⟩ := List.exists_cons_of_ne_nil nonempty
  rw [same] at shape ⊢
  refine decide_eq_false fun feed => inline ?_
  obtain rfl : c = '\n' := feed
  rcases shape.sign_of_plain rfl rfl (by decide) with ⟨d, -, known⟩ | ⟨-, known⟩
  · simp [pairKind] at known
  · exact (Option.some.inj known).symm

/-- The tokens of a source, each beside the one in front of it. -/
structure Laced (source : String) (tokens : List Token) : Prop where
  stream : Stream source tokens
  read : ∀ t ∈ tokens, t.IsRead source
  beside : ∀ t u, [t, u] <:+: tokens → Beside source (t.text source) t.span.stop u

theorem Laid.behind {front : List Token} (h : Laid source stop (front ++ t :: ts)) :
    Laid source t.span.stop ts := by
  induction front generalizing stop with
  | nil =>
      cases h with
      | cons _ _ _ _ later => exact later
  | cons u front ih =>
      cases h with
      | cons _ _ _ _ later => exact ih later

theorem Laid.beside (h : Laid source stop (t :: ts)) (le : stop ≤ t.span.start)
    (apart : Text.excerpt stop t.span.start source.toList = [] →
      remaining source stop = (t.text source).toList ++ remaining source t.span.stop →
        ¬(text = "\r" ∧ t.text source = "\n") ∧ ¬(text = "instanceof" ∧ t.kind = .number)) :
    Beside source text stop t := by
  cases h with
  | cons leads split _ read _ =>
      have plain : Leads [] ((t.text source).toList ++ remaining source t.span.stop) :=
        leads_nil_of_shape read.shape read.stops.ne_nil _
      refine ⟨le, ((leads_iff plain).1 leads).congr ?_, fun none => apart none ?_⟩
      · obtain ⟨c, cs, same⟩ := List.exists_cons_of_ne_nil read.stops.ne_nil
        rw [same]
        rfl
      · rwa [none, List.nil_append] at split

/-- A carriage return takes the line feed behind it, and a word the digits. -/
theorem IsRead.apart (read : t.IsRead source) (readNext : u.IsRead source)
    (split : remaining source t.span.stop =
      (u.text source).toList ++ remaining source u.span.stop) :
    ¬(t.text source = "\r" ∧ u.text source = "\n") ∧
      ¬(t.text source = "instanceof" ∧ u.kind = .number) := by
  constructor
  · rintro ⟨isReturn, isFeed⟩
    have front : ofChars ('\r' :: '\n' :: remaining source u.span.stop) =
        .token .newline ['\r', '\n'] (remaining source u.span.stop) := rfl
    rw [IsRead, split, isReturn, isFeed] at read
    have text := (Lexeme.token.inj (front.symm.trans read)).2.1
    exact absurd text (by decide)
  · rintro ⟨isRelation, isNumber⟩
    have stops := read.stops
    have shape := readNext.shape
    rw [isRelation, split] at stops
    obtain ⟨c, cs, same⟩ := List.exists_cons_of_ne_nil readNext.stops.ne_nil
    have part : isWordPart c = false := by
      rw [same] at stops
      exact stops.not_continues_word isWordPart_instanceof (by decide)
    rw [same] at shape
    rw [isWordPart_eq, shape.isDigit_of_number isNumber, Bool.or_true] at part
    cases part

theorem Laid.laced (h : Laid source stop tokens) (stream : Stream source tokens) :
    Laced source tokens := by
  refine ⟨stream, fun t ht => h.isRead ht, ?_⟩
  intro t u part
  induction h with
  | nil => exact absurd part (by simp)
  | @cons position first ts _ _ _ read later ih =>
      rcases List.infix_cons_iff.1 part with front | part
      · obtain ⟨rest, same⟩ := front
        cases same
        have le : t.span.stop ≤ u.span.start :=
          (List.pairwise_cons.1 stream.ordered).1 u (List.mem_cons_self ..)
        refine later.beside le fun _ split => ?_
        cases later with
        | cons _ _ _ readNext _ => exact read.apart readNext split
      · exact ih (stream.sublist (List.sublist_cons_self ..)) part

end Token

end MembershipLowering
