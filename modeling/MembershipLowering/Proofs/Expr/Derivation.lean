import MembershipLowering.Expr.Parser

/-! # Derivations

The grammar of expressions as a relation between stretches of tokens and trees, apart
from the loops and the depth of nesting of the readers. A derivation carries the level
of its outermost construct:

* 0 for an assignment, the operator's own level for a binary expression, 7 for `not`;
* 8 for everything that ends in itself: atoms, brackets, member accesses and calls.

A left operand has at least the level of its operator and a right operand a higher one,
which is how the binary levels group to the left. Everything that the readers accept
has a derivation (`statements_sound`).
-/

namespace MembershipLowering.Parser

/-- The stretch is the token `t` behind newlines that are passed over. -/
inductive Reaches (inside : Bool) (t : Token) : List Token → Prop where
  | here : Reaches inside t [t]
  | later {u : Token} {seg : List Token} (bracketed : inside = true) (newline : u.kind = .newline)
      (reaches : Reaches inside t seg) : Reaches inside t (u :: seg)

mutual

/-- The stretch `seg` reads as the expression `e`, whose outermost construct has the
    given level. -/
inductive Derives (source : String) : (inside : Bool) → (level : Nat) → (seg : List Token) →
    (e : Expr) → Prop where
  | atom {inside : Bool} {seg : List Token} {t : Token} {a : Atom} (reaches : Reaches inside t seg)
      (known : atom? t.kind = some a) : Derives source inside 8 seg (.atom (.bare t.span) a)
  | shorthand {inside : Bool} {seg : List Token} {t name : Token} {a : Atom}
      (reaches : Reaches inside t seg) (known : atom? t.kind = some a)
      (sign : t.text source = "@") (isName : name.kind = .identifier)
      (touches : name.span.start = t.span.stop) :
      Derives source inside 8 (seg ++ [name])
        (.member (.bare ⟨t.span.start, name.span.stop⟩) (.atom (.bare t.span) a) name.span)
  | array {inside : Bool} {seg segItems : List Token} {t close : Token} {es : List Expr}
      (opening : Reaches inside t seg) (isOpening : t.kind = .lbracket)
      (items : DerivesItems source .rbracket segItems es close) :
      Derives source inside 8 (seg ++ segItems)
        (.array (.bare ⟨t.span.start, close.span.stop⟩) es)
  | parenthesized {inside : Bool} {level : Nat} {seg segInner segClose : List Token}
      {t close : Token} {e : Expr}
      (opening : Reaches inside t seg) (isOpening : t.kind = .lparen)
      (inner : Derives source true level segInner e)
      (closing : Reaches true close segClose) (isClosing : close.kind = .rparen) :
      Derives source inside 8 (seg ++ segInner ++ segClose)
        (e.parenthesize t.span.start close.span.stop)
  | member {inside : Bool} {segObject segDot segName : List Token} {dot name : Token} {o : Expr}
      (object : Derives source inside 8 segObject o)
      (reachesDot : Reaches inside dot segDot) (isDot : dot.kind = .dot)
      (reachesName : Reaches inside name segName) (isName : name.kind = .identifier) :
      Derives source inside 8 (segObject ++ segDot ++ segName)
        (.member (.bare ⟨o.outer.start, name.span.stop⟩) o name.span)
  | index {inside : Bool} {level : Nat} {segObject seg segKey segClose : List Token}
      {t close : Token} {o k : Expr}
      (object : Derives source inside 8 segObject o)
      (opening : Reaches inside t seg) (isOpening : t.kind = .lbracket)
      (key : Derives source true level segKey k)
      (closing : Reaches true close segClose) (isClosing : close.kind = .rbracket) :
      Derives source inside 8 (segObject ++ seg ++ segKey ++ segClose)
        (.index (.bare ⟨o.outer.start, close.span.stop⟩) o k)
  | call {inside : Bool} {segCallee seg segItems : List Token} {t close : Token} {f : Expr}
      {es : List Expr}
      (callee : Derives source inside 8 segCallee f)
      (opening : Reaches inside t seg) (isOpening : t.kind = .lparen)
      (touches : t.span.start = f.outer.stop)
      (items : DerivesItems source .rparen segItems es close) :
      Derives source inside 8 (segCallee ++ seg ++ segItems)
        (.call (.bare ⟨f.outer.start, close.span.stop⟩) f es)
  | not {inside : Bool} {level : Nat} {seg segOperand : List Token} {t : Token} {e : Expr}
      (reaches : Reaches inside t seg) (isNot : t.kind = .not)
      (operand : Derives source inside level segOperand e) (tighter : 7 ≤ level) :
      Derives source inside 7 (seg ++ segOperand)
        (.not (.bare (t.span.cover e.outer)) t.span e)
  | binary {inside : Bool} {i j : Nat} {segLeft seg segRight : List Token} {t : Token}
      {l r : Expr} {op : BinaryOperator}
      (left : Derives source inside i segLeft l) (leftLevel : op.level ≤ i)
      (reaches : Reaches inside t seg) (leveled : level? source t = some op.level)
      (spelt : BinaryOperator.ofText? (t.text source) = some op)
      (right : Derives source inside j segRight r) (rightLevel : op.level < j) :
      Derives source inside op.level (segLeft ++ seg ++ segRight)
        (.binary (.bare (l.outer.cover r.outer)) l op r)
  | membership {inside : Bool} {i j : Nat} {segLeft seg segRight : List Token} {t : Token}
      {l r : Expr} (left : Derives source inside i segLeft l)
      (leftLevel : BinaryOperator.relationLevel ≤ i)
      (reaches : Reaches inside t seg) (isRelation : t.kind = .relation)
      (spelt : t.text source ≠ "instanceof")
      (right : Derives source inside j segRight r)
      (rightLevel : BinaryOperator.relationLevel < j) :
      Derives source inside BinaryOperator.relationLevel (segLeft ++ seg ++ segRight)
        (.membership (.bare (l.outer.cover r.outer)) l r (t.text source ≠ "in"))
  | assign {inside : Bool} {i j : Nat} {segTarget seg segValue : List Token} {t : Token}
      {target value : Expr}
      (left : Derives source inside i segTarget target) (leftLevel : 0 < i)
      (isTarget : target.isTarget = true)
      (reaches : Reaches inside t seg) (isAssign : t.kind = .assign)
      (right : Derives source inside j segValue value) :
      Derives source inside 0 (segTarget ++ seg ++ segValue)
        (.assign (.bare (target.outer.cover value.outer)) target value)

/-- The stretch reads as expressions with commas between them and ends with the token
    `close`. -/
inductive DerivesItems (source : String) : (kind : TokenKind) → (seg : List Token) →
    (es : List Expr) → (close : Token) → Prop where
  | done {kind : TokenKind} {seg : List Token} {close : Token}
      (closing : Reaches true close seg) (isClosing : close.kind = kind) :
      DerivesItems source kind seg [] close
  | last {kind : TokenKind} {level : Nat} {segItem seg : List Token} {close : Token} {e : Expr}
      (item : Derives source true level segItem e)
      (closing : Reaches true close seg) (isClosing : close.kind = kind) :
      DerivesItems source kind (segItem ++ seg) [e] close
  | more {kind : TokenKind} {level : Nat} {segItem seg segItems : List Token}
      {comma close : Token} {e : Expr} {es : List Expr}
      (item : Derives source true level segItem e)
      (reaches : Reaches true comma seg) (isComma : comma.kind = .comma)
      (items : DerivesItems source kind segItems es close) :
      DerivesItems source kind (segItem ++ seg ++ segItems) (e :: es) close

end

/-- The tokens read as statements with separators between them. -/
inductive DerivesProgram (source : String) : List Token → List Expr → Prop where
  | nil : DerivesProgram source [] []
  | separator {t : Token} {ts : List Token} {es : List Expr} (separates : t.kind.isSeparator = true)
      (later : DerivesProgram source ts es) : DerivesProgram source (t :: ts) es
  | last {level : Nat} {seg : List Token} {e : Expr}
      (statement : Derives source false level seg e) : DerivesProgram source seg [e]
  | statement {level : Nat} {seg ts : List Token} {t : Token} {e : Expr} {es : List Expr}
      (statement : Derives source false level seg e) (separates : t.kind.isSeparator = true)
      (later : DerivesProgram source ts es) :
      DerivesProgram source (seg ++ t :: ts) (e :: es)

variable {source : String} {inside : Bool} {ts : List Token}

theorem ok_of_map {ε α β : Type} {f : α → β} {x : Except ε α} {b : β}
    (h : x.map f = .ok b) : ∃ a, x = .ok a ∧ f a = b := by
  cases x with
  | error e => cases h
  | ok a => exact ⟨a, rfl, Except.ok.inj h⟩

/-- The next token, as a reading, stands behind newlines. -/
theorem reaches_of_next? {r : Reading Token ts} (h : next? inside ts = some r) :
    ∃ seg, ts = seg ++ r.rest ∧ Reaches inside r.value seg := by
  induction ts with
  | nil => cases h
  | cons t ts ih =>
      simp only [next?] at h
      split at h
      · rename_i passed
        obtain ⟨later, read, rfl⟩ := Option.map_eq_some_iff.1 h
        obtain ⟨seg, split, reaches⟩ := ih read
        rw [Bool.and_eq_true, decide_eq_true_eq] at passed
        exact ⟨t :: seg, congrArg (t :: ·) split, .later passed.1 passed.2 reaches⟩
      · cases h
        exact ⟨[t], rfl, .here⟩

theorem reaches_of_expect {kind : TokenKind} {what : Expectation} {r : Reading Token ts}
    (h : expect source kind what inside ts = .ok r) :
    (∃ seg, ts = seg ++ r.rest ∧ Reaches inside r.value seg) ∧ r.value.kind = kind := by
  unfold expect at h
  split at h
  · rename_i next
    split at h
    · rename_i isKind
      cases h
      exact ⟨reaches_of_next? next, isKind⟩
    · cases h
  · cases h

/-- What has been read has a derivation of at least the given level. -/
def Reads (source : String) (inside : Bool) (level : Nat) {ts : List Token}
    (r : Reading Expr ts) : Prop :=
  ∃ seg own, ts = seg ++ r.rest ∧ level ≤ own ∧ Derives source inside own seg r.value

/-- No operator tighter than `level` comes next. -/
def StopsAt (source : String) (inside : Bool) (level : Nat) (ts : List Token) : Prop :=
  ∀ t, next? inside ts = some t → ∀ own, level? source t.value = some own → own ≤ level

/-- Readers that accept only what can be derived. -/
structure Nested.Sound (source : String) (inner : Nested) : Prop where
  assignment : ∀ {inside : Bool} {ts : List Token} {r : Reading Expr ts},
    inner.assignment inside ts = .ok r → Reads source inside 0 r
  operand : ∀ {level : Nat} {inside : Bool} {ts : List Token} {r : Reading Expr ts},
    level < 7 → inner.operand level inside ts = .ok r →
      Reads source inside (level + 1) r ∧ StopsAt source inside level r.rest
  unary : ∀ {inside : Bool} {ts : List Token} {r : Reading Expr ts},
    inner.unary inside ts = .ok r → Reads source inside 7 r

variable {inner : Nested}

theorem derives_of_enclosed (sound : inner.Sound source) {close : TokenKind} {what : Expectation}
    {r : Reading (Expr × Token) ts} (h : enclosed source inner close what ts = .ok r) :
    ∃ level seg segClose, ts = seg ++ segClose ++ r.rest ∧
      Derives source true level seg r.value.1 ∧ Reaches true r.value.2 segClose ∧
      r.value.2.kind = close := by
  unfold enclosed at h
  split at h
  · cases h
  · rename_i e read
    obtain ⟨t, closing, rfl⟩ := ok_of_map h
    obtain ⟨seg, level, split, -, derives⟩ := sound.assignment read
    obtain ⟨⟨segClose, split', reaches⟩, isClosing⟩ := reaches_of_expect closing
    refine ⟨level, seg, segClose, ?_, derives, reaches, isClosing⟩
    calc
      ts = seg ++ e.rest := split
      _ = seg ++ (segClose ++ t.rest) := congrArg (seg ++ ·) split'
      _ = seg ++ segClose ++ t.rest := (List.append_assoc ..).symm

theorem derives_of_items (sound : inner.Sound source) {close : TokenKind} {what : Expectation}
    {ts : List Token} {r : Reading (List Expr × Token) ts}
    (h : items source inner close what ts = .ok r) :
    ∃ seg, ts = seg ++ r.rest ∧ DerivesItems source close seg r.value.1 r.value.2 := by
  unfold items at h
  extract_lets more at h
  have of_more : more = .ok r →
      ∃ seg, ts = seg ++ r.rest ∧ DerivesItems source close seg r.value.1 r.value.2 := by
    intro read
    simp only [more] at read
    split at read
    · cases read
    · rename_i item readItem
      obtain ⟨segItem, level, split, -, derives⟩ := sound.assignment readItem
      have of_closed : (expect source close what true item.rest).map (fun t =>
            item.andThen (t.map fun t => ([item.value], t))) = .ok r →
          ∃ seg, ts = seg ++ r.rest ∧ DerivesItems source close seg r.value.1 r.value.2 := by
        intro readClose
        obtain ⟨t, closing, rfl⟩ := ok_of_map readClose
        obtain ⟨⟨segClose, split', reaches⟩, isClosing⟩ := reaches_of_expect closing
        refine ⟨segItem ++ segClose, ?_, .last derives reaches isClosing⟩
        calc
          ts = segItem ++ item.rest := split
          _ = segItem ++ (segClose ++ t.rest) := congrArg (segItem ++ ·) split'
          _ = segItem ++ segClose ++ t.rest := (List.append_assoc ..).symm
      split at read
      · exact of_closed read
      · rename_i comma next
        split at read
        · rename_i isComma
          have shorter := Nat.lt_trans comma.shorter item.shorter
          obtain ⟨tail, readTail, rfl⟩ := ok_of_map read
          obtain ⟨segComma, split', reaches⟩ := reaches_of_next? next
          obtain ⟨segItems, split'', derivesItems⟩ := derives_of_items sound readTail
          refine ⟨segItem ++ segComma ++ segItems, ?_, .more derives reaches isComma derivesItems⟩
          calc
            ts = segItem ++ item.rest := split
            _ = segItem ++ (segComma ++ comma.rest) := congrArg (segItem ++ ·) split'
            _ = segItem ++ (segComma ++ (segItems ++ tail.rest)) :=
              congrArg (fun later => segItem ++ (segComma ++ later)) split''
            _ = segItem ++ segComma ++ segItems ++ tail.rest := by
              simp only [List.append_assoc]
        · exact of_closed read
  split at h
  · rename_i t next
    split at h
    · rename_i isClosing
      cases h
      obtain ⟨seg, split, reaches⟩ := reaches_of_next? next
      exact ⟨seg, split, .done reaches isClosing⟩
    · exact of_more h
  · exact of_more h
termination_by ts.length

theorem derives_of_primary (sound : inner.Sound source) {r : Reading Expr ts}
    (h : primary source inner inside ts = .ok r) : Reads source inside 8 r := by
  unfold primary at h
  split at h
  · cases h
  · rename_i t next
    obtain ⟨seg, split, reaches⟩ := reaches_of_next? next
    split at h
    · rename_i a known
      cases h
      unfold atom
      split
      · rename_i sign
        split
        · rename_i name rest behind
          split
          · rename_i touches
            refine ⟨seg ++ [name], 8, ?_, Nat.le_refl 8,
              .shorthand reaches known sign touches.1 touches.2⟩
            calc
              ts = seg ++ t.rest := split
              _ = seg ++ ([name] ++ rest) := congrArg (seg ++ ·) behind
              _ = seg ++ [name] ++ rest := (List.append_assoc ..).symm
          · exact ⟨seg, 8, split, Nat.le_refl 8, .atom reaches known⟩
        · exact ⟨seg, 8, split, Nat.le_refl 8, .atom reaches known⟩
      · exact ⟨seg, 8, split, Nat.le_refl 8, .atom reaches known⟩
    · split at h
      · rename_i isOpening
        obtain ⟨p, read, rfl⟩ := ok_of_map h
        obtain ⟨segItems, split', items⟩ := derives_of_items sound read
        refine ⟨seg ++ segItems, 8, ?_, Nat.le_refl 8, .array reaches isOpening items⟩
        calc
          ts = seg ++ t.rest := split
          _ = seg ++ (segItems ++ p.rest) := congrArg (seg ++ ·) split'
          _ = seg ++ segItems ++ p.rest := (List.append_assoc ..).symm
      · rename_i isOpening
        obtain ⟨p, read, rfl⟩ := ok_of_map h
        obtain ⟨level, segInner, segClose, split', derives, closing, isClosing⟩ :=
          derives_of_enclosed sound read
        refine ⟨seg ++ segInner ++ segClose, 8, ?_, Nat.le_refl 8,
          .parenthesized reaches isOpening derives closing isClosing⟩
        calc
          ts = seg ++ t.rest := split
          _ = seg ++ (segInner ++ segClose ++ p.rest) := congrArg (seg ++ ·) split'
          _ = seg ++ segInner ++ segClose ++ p.rest := by simp only [List.append_assoc]
      · cases h

theorem Derives.level_le {level : Nat} {seg : List Token} {e : Expr}
    (h : Derives source inside level seg e) : level ≤ 8 := by
  cases h with
  | binary left leftLevel reaches leveled spelt right rightLevel =>
      rename_i op
      cases op <;> decide
  | _ => decide

theorem Reads.derives {r : Reading Expr ts} (h : Reads source inside 8 r) :
    ∃ seg, ts = seg ++ r.rest ∧ Derives source inside 8 seg r.value := by
  obtain ⟨seg, own, split, tight, derives⟩ := h
  obtain rfl : own = 8 := Nat.le_antisymm derives.level_le tight
  exact ⟨seg, split, derives⟩

/-- What follows an expression leaves it at the tightest level. -/
theorem reads_of_postfixes (sound : inner.Sound source) {object r : Reading Expr ts}
    (h : postfixes source inner inside object = .ok r) (start : Reads source inside 8 object) :
    Reads source inside 8 r := by
  obtain ⟨segObject, split, derives⟩ := start.derives
  unfold postfixes at h
  split at h
  · cases h
    exact start
  · rename_i t next
    obtain ⟨seg, split', reaches⟩ := reaches_of_next? next
    extract_lets outer at h
    split at h
    · rename_i isDot
      split at h
      · cases h
      · rename_i name readName
        have shorter := Nat.lt_trans name.shorter t.shorter
        obtain ⟨⟨segName, split'', reachesName⟩, isName⟩ := reaches_of_expect readName
        refine reads_of_postfixes sound h ⟨segObject ++ seg ++ segName, 8, ?_, Nat.le_refl 8,
          .member derives reaches isDot reachesName isName⟩
        calc
          ts = segObject ++ object.rest := split
          _ = segObject ++ (seg ++ t.rest) := congrArg (segObject ++ ·) split'
          _ = segObject ++ (seg ++ (segName ++ name.rest)) :=
            congrArg (fun later => segObject ++ (seg ++ later)) split''
          _ = segObject ++ seg ++ segName ++ name.rest := by simp only [List.append_assoc]
    · split at h
      · rename_i isOpening
        split at h
        · cases h
        · rename_i key readKey
          have shorter := Nat.lt_trans key.shorter t.shorter
          obtain ⟨level, segKey, segClose, split'', derivesKey, closing, isClosing⟩ :=
            derives_of_enclosed sound readKey
          refine reads_of_postfixes sound h ⟨segObject ++ seg ++ segKey ++ segClose, 8, ?_,
            Nat.le_refl 8, .index derives reaches isOpening derivesKey closing isClosing⟩
          calc
            ts = segObject ++ object.rest := split
            _ = segObject ++ (seg ++ t.rest) := congrArg (segObject ++ ·) split'
            _ = segObject ++ (seg ++ (segKey ++ segClose ++ key.rest)) :=
              congrArg (fun later => segObject ++ (seg ++ later)) split''
            _ = segObject ++ seg ++ segKey ++ segClose ++ key.rest := by
              simp only [List.append_assoc]
      · split at h
        · rename_i touching
          split at h
          · cases h
          · rename_i arguments readArguments
            have shorter := Nat.lt_trans arguments.shorter t.shorter
            obtain ⟨segItems, split'', items⟩ := derives_of_items sound readArguments
            refine reads_of_postfixes sound h ⟨segObject ++ seg ++ segItems, 8, ?_,
              Nat.le_refl 8, .call derives reaches touching.1 touching.2 items⟩
            calc
              ts = segObject ++ object.rest := split
              _ = segObject ++ (seg ++ t.rest) := congrArg (segObject ++ ·) split'
              _ = segObject ++ (seg ++ (segItems ++ arguments.rest)) :=
                congrArg (fun later => segObject ++ (seg ++ later)) split''
              _ = segObject ++ seg ++ segItems ++ arguments.rest := by
                simp only [List.append_assoc]
        · cases h
          exact start
termination_by object.rest.length

theorem reads_of_unary (sound : inner.Sound source) {r : Reading Expr ts}
    (h : unary source inner inside ts = .ok r) : Reads source inside 7 r := by
  unfold unary at h
  extract_lets unsigned at h
  have of_unsigned : unsigned = .ok r → Reads source inside 7 r := by
    intro read
    simp only [unsigned] at read
    split at read
    · cases read
    · rename_i p readPrimary
      obtain ⟨seg, split, derives⟩ :=
        (reads_of_postfixes sound read (derives_of_primary sound readPrimary)).derives
      exact ⟨seg, 8, split, by decide, derives⟩
  split at h
  · exact of_unsigned h
  · rename_i t next
    split at h
    · rename_i isNot
      obtain ⟨operand, read, rfl⟩ := ok_of_map h
      obtain ⟨seg, split, reaches⟩ := reaches_of_next? next
      obtain ⟨segOperand, level, split', tighter, derives⟩ := sound.unary read
      refine ⟨seg ++ segOperand, 7, ?_, Nat.le_refl 7, .not reaches isNot derives tighter⟩
      calc
        ts = seg ++ t.rest := split
        _ = seg ++ (segOperand ++ operand.rest) := congrArg (seg ++ ·) split'
        _ = seg ++ segOperand ++ operand.rest := (List.append_assoc ..).symm
    · exact of_unsigned h

/-- No operator binds as tight as `not`. -/
theorem level?_lt {t : Token} {own : Nat} (h : level? source t = some own) : own < 7 := by
  unfold level? at h
  split at h
  · cases h
    decide
  · obtain ⟨op, -, rfl⟩ := Option.map_eq_some_iff.1 h
    cases op <;> decide
  · cases h

/-- A token that stands for an operator makes an expression of that operator's level. -/
theorem derives_of_combine {i j own : Nat} {segLeft seg segRight : List Token} {t : Token}
    {l r e : Expr} (h : combine source t l r = .ok e) (leveled : level? source t = some own)
    (left : Derives source inside i segLeft l) (leftLevel : own ≤ i)
    (reaches : Reaches inside t seg)
    (right : Derives source inside j segRight r) (rightLevel : own < j) :
    Derives source inside own (segLeft ++ seg ++ segRight) e := by
  unfold combine at h
  extract_lets extent text at h
  split at h
  · rename_i relation
    cases h
    simp only [level?, relation.1] at leveled
    cases leveled
    exact .membership left leftLevel reaches relation.1 relation.2 right rightLevel
  · rename_i noMembership
    split at h
    · rename_i op spelt
      cases h
      have same : own = op.level := by
        unfold level? at leveled
        split at leveled
        · rename_i isRelation
          cases leveled
          have isInstanceOf : text = "instanceof" :=
            Classical.not_not.1 fun other => noMembership ⟨isRelation, other⟩
          rw [isInstanceOf] at spelt
          cases spelt
          rfl
        · rw [show BinaryOperator.ofText? (t.text source) = some op from spelt] at leveled
          cases leveled
          rfl
        · cases leveled
      subst same
      exact .binary left leftLevel reaches leveled spelt right rightLevel
    · cases h

/-- Operators of one level are read from left to right. What carries the loop is that
    none of those ahead binds tighter than the expression read so far. -/
theorem reads_of_operators (sound : inner.Sound source) {level own : Nat} {seg : List Token}
    {left r : Reading Expr ts} (h : operators source inner level inside left = .ok r)
    (split : ts = seg ++ left.rest) (derives : Derives source inside own seg left.value)
    (tighter : level < own) (stops : StopsAt source inside own left.rest) :
    Reads source inside (level + 1) r ∧ StopsAt source inside level r.rest := by
  unfold operators at h
  split at h
  · rename_i none
    cases h
    exact ⟨⟨seg, own, split, tighter, derives⟩, fun t next => by rw [none] at next; cases next⟩
  · rename_i t next
    split at h
    · rename_i unleveled
      cases h
      refine ⟨⟨seg, own, split, tighter, derives⟩, fun u next' other leveled => ?_⟩
      cases next.symm.trans next'
      rw [unleveled] at leveled
      cases leveled
    · rename_i ahead leveled
      split at h
      · rename_i loose
        cases h
        refine ⟨⟨seg, own, split, tighter, derives⟩, fun u next' other leveled' => ?_⟩
        cases next.symm.trans next'
        cases leveled.symm.trans leveled'
        exact loose
      · rename_i tight
        split at h
        · cases h
        · rename_i right readRight
          split at h
          · cases h
          · rename_i e combined
            have shorter := Nat.lt_trans right.shorter t.shorter
            obtain ⟨segToken, split', reaches⟩ := reaches_of_next? next
            obtain ⟨⟨segRight, ownRight, split'', tighterRight, derivesRight⟩, stopsRight⟩ :=
              sound.operand (level?_lt leveled) readRight
            have whole : ts = seg ++ segToken ++ segRight ++ right.rest := by
              calc
                ts = seg ++ left.rest := split
                _ = seg ++ (segToken ++ t.rest) := congrArg (seg ++ ·) split'
                _ = seg ++ (segToken ++ (segRight ++ right.rest)) :=
                  congrArg (fun later => seg ++ (segToken ++ later)) split''
                _ = seg ++ segToken ++ segRight ++ right.rest := by simp only [List.append_assoc]
            exact reads_of_operators sound h whole
              (derives_of_combine combined leveled derives (stops t next ahead leveled) reaches
                derivesRight tighterRight)
              (Nat.lt_of_not_le tight) stopsRight
termination_by left.rest.length

theorem reads_of_operand (sound : inner.Sound source) {level : Nat} (low : level < 7)
    {r : Reading Expr ts} (h : operand source inner level inside ts = .ok r) :
    Reads source inside (level + 1) r ∧ StopsAt source inside level r.rest := by
  unfold operand at h
  split at h
  · cases h
  · rename_i left readLeft
    obtain ⟨seg, own, split, tight, derives⟩ := reads_of_unary sound readLeft
    exact reads_of_operators sound h split derives (by omega) fun t next other leveled => by
      have := level?_lt leveled
      omega

theorem reads_of_assignment (sound : inner.Sound source) {r : Reading Expr ts}
    (h : assignment source inner inside ts = .ok r) : Reads source inside 0 r := by
  unfold assignment at h
  split at h
  · cases h
  · rename_i target readTarget
    obtain ⟨⟨seg, own, split, tighter, derives⟩, -⟩ :=
      reads_of_operand sound (by decide) readTarget
    split at h
    · cases h
      exact ⟨seg, own, split, Nat.zero_le _, derives⟩
    · rename_i t next
      split at h
      · cases h
        exact ⟨seg, own, split, Nat.zero_le _, derives⟩
      · rename_i isAssign
        split at h
        · cases h
        · rename_i isTarget
          obtain ⟨value, readValue, rfl⟩ := ok_of_map h
          obtain ⟨segToken, split', reaches⟩ := reaches_of_next? next
          obtain ⟨segValue, ownValue, split'', -, derivesValue⟩ := sound.assignment readValue
          refine ⟨seg ++ segToken ++ segValue, 0, ?_, Nat.le_refl 0,
            .assign derives tighter (by simpa using isTarget) reaches
              (Classical.not_not.1 isAssign) derivesValue⟩
          calc
            ts = seg ++ target.rest := split
            _ = seg ++ (segToken ++ t.rest) := congrArg (seg ++ ·) split'
            _ = seg ++ (segToken ++ (segValue ++ value.rest)) :=
              congrArg (fun later => seg ++ (segToken ++ later)) split''
            _ = seg ++ segToken ++ segValue ++ value.rest := by simp only [List.append_assoc]

/-- The readers of every depth accept only what can be derived. -/
theorem nested_sound (source : String) (depth : Nat) : (nested source depth).Sound source := by
  induction depth with
  | zero =>
      -- With no level left the readers refuse.
      constructor
      · intro inside ts r h
        cases h
      · intro level inside ts r _ h
        cases h
      · intro inside ts r h
        cases h
  | succ depth ih =>
      exact ⟨fun h => reads_of_assignment ih h, fun low h => reads_of_operand ih low h,
        fun h => reads_of_unary ih h⟩

/-- Statements that are accepted can be derived. -/
theorem statements_sound {ts : List Token} {es : List Expr}
    (h : statements source ts = .ok es) : DerivesProgram source ts es := by
  fun_induction statements source ts generalizing es with
  | case1 =>
      cases h
      exact .nil
  | case2 t rest separates ih => exact .separator separates (ih h)
  | case3 => cases h
  | case4 t rest _ e read ended =>
      cases h
      obtain ⟨seg, level, split, -, derives⟩ := (nested_sound source maxDepth).assignment read
      rw [ended, List.append_nil] at split
      subst split
      exact .last derives
  | case5 t rest _ e read u later ahead separates ih =>
      obtain ⟨es, readLater, rfl⟩ := ok_of_map h
      obtain ⟨seg, level, split, -, derives⟩ := (nested_sound source maxDepth).assignment read
      have whole : t :: rest = seg ++ u :: later := split.trans (congrArg (seg ++ ·) ahead)
      generalize e.value = value at derives ⊢
      rw [whole]
      exact .statement derives separates (ih readLater)
  | case6 => cases h

end MembershipLowering.Parser
