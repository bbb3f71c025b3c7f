import MembershipLowering.Proofs.Expr.Continuing

/-! # Readers accept what can be derived

The other direction of `statements_sound`. A stretch of tokens that has a derivation is read
as the derived expression, provided that the readers have levels left to nest in and that
nothing behind the stretch goes on with it. For every constructor of the grammar there is a
lemma that says how many levels it takes, given those of its parts (`Nests`), and statements
are read one after the other (`Nests.statements`).
-/

namespace MembershipLowering.Parser

variable {source : String} {inside : Bool}

/-! ## Primary expressions -/

section Primary

variable {k : Nat} {seg front : List Token} {t : Token} {e : Expr}

/-- What is read without its accesses and calls. -/
def ReadsPrimary (source : String) (inside : Bool) (k : Nat) (seg : List Token) (e : Expr) : Prop :=
  ∀ n rest, (∀ t ∈ rest.head?, t.kind ≠ .identifier) →
    Takes (k ≤ n + 1) (primary source (nested source n) inside (seg ++ rest)) e rest

theorem ReadsPrimary.chain (h : ReadsPrimary source inside k (front ++ seg) e)
    (reaches : Reaches inside t front) (newline : t.kind ≠ .newline) (signed : t.kind ≠ .not) :
    ReadsChain source inside k (front ++ seg) e := by
  intro n rest unnamed
  obtain ⟨shorter, next⟩ := reaches.next?_of_split newline (List.append_assoc front seg rest)
  refine (h n rest unnamed).continues (fun shorter read => ⟨shorter, ?_⟩) (fun e refused => ?_)
  · rw [unary, next, read]
    exact if_neg signed
  · rw [unary, next, refused]
    exact if_neg signed

theorem atom_of_unnamed {a : Atom} {ts : List Token} {r : Reading Token ts}
    (unnamed : ∀ t ∈ r.rest.head?, t.kind ≠ .identifier) :
    atom source a r = ⟨.atom (.bare r.value.span) a, r.rest, r.shorter⟩ := by
  unfold atom
  split
  · split
    · rename_i name rest behind
      rw [if_neg fun h => unnamed name (by rw [behind]; rfl) h.1]
    · rfl
  · rfl

theorem atom_of_touches {a : Atom} {ts rest : List Token} {r : Reading Token ts} {name : Token}
    (behind : r.rest = name :: rest) (sign : r.value.text source = "@")
    (isName : name.kind = .identifier) (touches : name.span.start = r.value.span.stop) :
    ∃ shorter, atom source a r = ⟨.member (.bare ⟨r.value.span.start, name.span.stop⟩)
      (.atom (.bare r.value.span) a) name.span, rest, shorter⟩ := by
  refine ⟨by have := r.shorter; rw [behind, List.length_cons] at this; omega, ?_⟩
  unfold atom
  rw [if_pos sign]
  split
  · rename_i name' rest' behind'
    cases behind.symm.trans behind'
    rw [if_pos ⟨isName, touches⟩]
  · rename_i none
    cases behind.symm.trans none

theorem ReadsPrimary.atom {a : Atom} (reaches : Reaches inside t seg)
    (known : atom? t.kind = some a) :
    ReadsPrimary source inside 1 seg (.atom (.bare t.span) a) := by
  intro n rest unnamed
  obtain ⟨shorter, next⟩ := reaches.next? (ne_newline_of_atom? known) rest
  refine Takes.of_eq (by omega) shorter ?_
  rw [primary, next]
  simp only [known]
  rw [atom_of_unnamed unnamed]

theorem ReadsPrimary.shorthand {a : Atom} {name : Token} (reaches : Reaches inside t seg)
    (known : atom? t.kind = some a) (sign : t.text source = "@") (isName : name.kind = .identifier)
    (touches : name.span.start = t.span.stop) :
    ReadsPrimary source inside 1 (seg ++ [name])
      (.member (.bare ⟨t.span.start, name.span.stop⟩) (.atom (.bare t.span) a) name.span) := by
  intro n rest unnamed
  obtain ⟨shorter, next⟩ := reaches.next?_of_split (ne_newline_of_atom? known)
    (List.append_assoc seg [name] rest)
  obtain ⟨shorter', read⟩ := atom_of_touches (a := a) (r := ⟨t, name :: rest, shorter⟩) rfl sign
    isName touches
  refine Takes.of_eq (by omega) shorter' ?_
  rw [primary, next]
  simp only [known]
  exact congrArg Except.ok read

end Primary

/-! ## Brackets -/

section Brackets

variable {k k' level : Nat} {seg segItem segItems segClose : List Token} {t close comma : Token}
  {kind : TokenKind} {e : Expr} {es : List Expr}

theorem Reaches.expect (source : String) (what : Expectation) (h : Reaches inside t seg)
    (isKind : t.kind = kind) (other : kind ≠ .newline) (rest : List Token) :
    ∃ shorter, expect source kind what inside (seg ++ rest) = .ok ⟨t, rest, shorter⟩ := by
  obtain ⟨shorter, next⟩ := h.next? (isKind ▸ other) rest
  refine ⟨shorter, ?_⟩
  rw [Parser.expect, next]
  exact if_pos isKind

/-- Behind the last item stands the closing bracket. -/
theorem Reaches.leaves_closing (source : String) (h : Reaches inside close seg)
    (isClosing : close.kind = .rbracket ∨ close.kind = .rparen ∨ close.kind = .comma)
    (rest : List Token) :
    Leaves source inside 0 (seg ++ rest) ∧ Unassigned inside (seg ++ rest) := by
  have known : close.kind ∉ [.identifier, .newline, .dot, .lbracket, .lparen] ∧
      level? source close = none ∧ close.kind ≠ .assign := by
    unfold level?
    rcases isClosing with kind | kind | kind <;> simp [kind]
  refine ⟨h.leaves known.1 (fun own leveled => ?_) rest, fun u next => ?_⟩
  · rw [known.2.1] at leveled
    cases leveled
  · obtain ⟨shorter, next'⟩ := h.next? (fun kind => known.1 (by simp [kind])) rest
    cases next.symm.trans next'
    exact known.2.2

theorem items_of_begins {inner : Nested} {what : Expectation} {ts : List Token}
    (begins : ∃ t, next? true ts = some t ∧ t.value.kind.beginsOperand = true)
    (other : kind.beginsOperand = false) :
    items source inner kind what ts =
      match inner.assignment true ts with
      | .error e => .error e
      | .ok item =>
        match next? true item.rest with
        | none => (expect source kind what true item.rest).map fun t =>
          item.andThen (t.map fun t => ([item.value], t))
        | some comma =>
          if comma.value.kind = .comma then
            (items source inner kind what comma.rest).map fun tail =>
              (item.andThen comma).andThen (tail.map fun (es, t) => (item.value :: es, t))
          else (expect source kind what true item.rest).map fun t =>
            item.andThen (t.map fun t => ([item.value], t)) := by
  obtain ⟨t, next, begins⟩ := begins
  rw [items, next]
  exact if_neg fun same => by rw [same, other] at begins; cases begins

theorem NestsItems.done (closing : Reaches true close seg) (isClosing : close.kind = kind)
    (bracket : kind = .rbracket ∨ kind = .rparen) : NestsItems source kind 0 seg [] close where
  derives := .done closing isClosing
  reads what n rest := by
    have other : close.kind ≠ .newline := by
      rw [isClosing]
      rintro rfl
      rcases bracket with kind | kind <;> cases kind
    obtain ⟨shorter, next⟩ := closing.next? other rest
    refine Takes.of_eq (Nat.zero_le n) shorter ?_
    rw [items, next]
    exact if_pos isClosing

theorem NestsItems.last (item : Nests source true k level segItem e)
    (closing : Reaches true close seg) (isClosing : close.kind = kind)
    (bracket : kind = .rbracket ∨ kind = .rparen) :
    NestsItems source kind k (segItem ++ seg) [e] close where
  derives := .last item.derives closing isClosing
  reads what n rest := by
    subst isClosing
    have plain : close.kind.beginsOperand = false ∧ close.kind ≠ .newline ∧
        close.kind ≠ .comma := by
      rcases bracket with kind | kind <;> simp [kind, TokenKind.beginsOperand]
    obtain ⟨leaves, unassigned⟩ := closing.leaves_closing source (bracket.imp_right .inl) rest
    obtain ⟨shorterNext, next⟩ := closing.next? plain.2.1 rest
    obtain ⟨shorterClose, readClose⟩ := closing.expect source what rfl plain.2.1 rest
    rw [List.append_assoc, items_of_begins (item.derives.begins.next? _) plain.1]
    refine (item.nested_assignment n leaves unassigned).continues (fun shorter read =>
      ⟨Nat.lt_trans shorterNext shorter, ?_⟩) fun e refused => by rw [refused]
    simp only [read, next, if_neg plain.2.2, readClose]
    rfl

theorem NestsItems.more (item : Nests source true k level segItem e)
    (reaches : Reaches true comma seg) (isComma : comma.kind = .comma)
    (items : NestsItems source kind k' segItems es close)
    (bracket : kind = .rbracket ∨ kind = .rparen) :
    NestsItems source kind (max k k') (segItem ++ seg ++ segItems) (e :: es) close where
  derives := .more item.derives reaches isComma items.derives
  reads what n rest := by
    have plain : kind.beginsOperand = false := by rcases bracket with rfl | rfl <;> rfl
    obtain ⟨leaves, unassigned⟩ := reaches.leaves_closing source (.inr (.inr isComma))
      (segItems ++ rest)
    have split : segItem ++ seg ++ segItems ++ rest = segItem ++ (seg ++ (segItems ++ rest)) := by
      simp only [List.append_assoc]
    obtain ⟨shorterNext, next⟩ := reaches.next? (by rw [isComma]; decide) (segItems ++ rest)
    rw [split, items_of_begins (item.derives.begins.next? _) plain]
    refine ((item.nested_assignment n leaves unassigned).then (fun shorter read => ?_)
      fun e refused => by rw [refused]).congr Nat.max_le.symm
    simp only [read, next, if_pos isComma]
    exact (items.reads what n rest).map _ fun _ => ⟨_, rfl⟩

/-- An expression between brackets, the opening one of which has been read. -/
theorem Nests.enclosed (inner : Nests source true k level seg e)
    (closing : Reaches true close segClose) (isClosing : close.kind = kind)
    (bracket : kind = .rbracket ∨ kind = .rparen) (what : Expectation) (n : Nat)
    (rest : List Token) :
    Takes (k ≤ n) (enclosed source (nested source n) kind what (seg ++ segClose ++ rest))
      (e, close) rest := by
  subst isClosing
  rw [List.append_assoc]
  have other : close.kind ≠ .newline := by rcases bracket with kind | kind <;> simp [kind]
  obtain ⟨leaves, unassigned⟩ := closing.leaves_closing source (bracket.imp_right .inl) rest
  obtain ⟨shorterClose, readClose⟩ := closing.expect source what rfl other rest
  refine (inner.nested_assignment n leaves unassigned).continues (fun shorter read =>
    ⟨Nat.lt_trans shorterClose shorter, ?_⟩) fun e refused => by rw [Parser.enclosed, refused]
  rw [Parser.enclosed, read]
  simp only [readClose]
  rfl

theorem ReadsPrimary.array (opening : Reaches inside t seg) (isOpening : t.kind = .lbracket)
    (items : NestsItems source .rbracket k segItems es close) :
    ReadsPrimary source inside (k + 1) (seg ++ segItems)
      (.array (.bare ⟨t.span.start, close.span.stop⟩) es) := by
  intro n rest _
  obtain ⟨shorter, next⟩ := opening.next?_of_split (by rw [isOpening]; decide)
    (List.append_assoc seg segItems rest)
  rw [primary, next]
  simp only [isOpening, atom?]
  exact Continues.congr ((items.reads .closingBracket n rest).map _ fun _ => ⟨_, rfl⟩)
    (Nat.add_le_add_iff_right (n := 1)).symm

theorem ReadsPrimary.parenthesized (opening : Reaches inside t seg) (isOpening : t.kind = .lparen)
    (inner : Nests source true k level segItem e) (closing : Reaches true close segClose)
    (isClosing : close.kind = .rparen) :
    ReadsPrimary source inside (k + 1) (seg ++ segItem ++ segClose)
      (e.parenthesize t.span.start close.span.stop) := by
  intro n rest _
  have split : seg ++ segItem ++ segClose ++ rest = seg ++ (segItem ++ segClose ++ rest) := by
    simp only [List.append_assoc]
  obtain ⟨shorter, next⟩ := opening.next?_of_split (by rw [isOpening]; decide) split
  rw [primary, next]
  simp only [isOpening, atom?]
  exact Continues.congr ((inner.enclosed closing isClosing (.inr rfl) _ n rest).map _
    fun _ => ⟨_, rfl⟩) (Nat.add_le_add_iff_right (n := 1)).symm

end Brackets

/-! ## Accesses and calls -/

section Postfixes

variable {k k' level : Nat} {segObject seg segBehind segClose : List Token} {t name close : Token}
  {o e : Expr} {es : List Expr}

/-- An object that is read up to its first access or call goes on with it. -/
theorem ReadsChain.extend (object : ReadsChain source inside k segObject o)
    (reaches : Reaches inside t seg) (other : t.kind ≠ .identifier) (enough : Nat → Prop)
    (step : ∀ n rest (ts : List Token) shorter,
      Continues (enough n)
        (postfixes source (nested source n) inside
          (⟨o, seg ++ (segBehind ++ rest), shorter⟩ : Reading Expr ts))
        (postfixes source (nested source n) inside) e rest)
    (same : ∀ n, k ≤ n + 1 ∧ enough n ↔ k' ≤ n + 1) :
    ReadsChain source inside k' (segObject ++ (seg ++ segBehind)) e := by
  intro n rest _
  have split : segObject ++ (seg ++ segBehind) ++ rest =
      segObject ++ (seg ++ (segBehind ++ rest)) := by
    simp only [List.append_assoc]
  rw [split]
  exact ((object n _ (reaches.unnamed other _)).trans fun shorter =>
    step n rest _ shorter).congr (same n)

theorem ReadsChain.member (object : ReadsChain source inside k segObject o)
    (reachesDot : Reaches inside t seg) (isDot : t.kind = .dot)
    (reachesName : Reaches inside name segBehind) (isName : name.kind = .identifier) :
    ReadsChain source inside k (segObject ++ (seg ++ segBehind))
      (.member (.bare ⟨o.outer.start, name.span.stop⟩) o name.span) := by
  refine object.extend reachesDot (by rw [isDot]; decide) (fun _ => True)
    (fun n rest ts shorter => ?_) fun n => and_iff_left trivial
  obtain ⟨shorterNext, next⟩ := reachesDot.next? (by rw [isDot]; decide) (segBehind ++ rest)
  obtain ⟨shorterName, readName⟩ := reachesName.expect source .propertyName isName (by decide) rest
  refine ⟨fun _ => ⟨Nat.lt_trans shorterName (Nat.lt_trans shorterNext shorter), ?_⟩,
    fun few => absurd trivial few⟩
  rw [postfixes]
  simp only [next, if_pos isDot, readName]
  rfl

theorem ReadsChain.index (object : ReadsChain source inside k segObject o)
    (opening : Reaches inside t seg) (isOpening : t.kind = .lbracket)
    (key : Nests source true k' level segBehind e) (closing : Reaches true close segClose)
    (isClosing : close.kind = .rbracket) :
    ReadsChain source inside (max k (k' + 1)) (segObject ++ (seg ++ (segBehind ++ segClose)))
      (.index (.bare ⟨o.outer.start, close.span.stop⟩) o e) := by
  refine object.extend opening (by rw [isOpening]; decide) (k' ≤ ·)
    (fun n rest ts shorter => ?_) fun n => by omega
  have notDot : t.kind ≠ .dot := by rw [isOpening]; decide
  obtain ⟨shorterNext, next⟩ := opening.next? (by rw [isOpening]; decide)
    (segBehind ++ segClose ++ rest)
  rw [postfixes]
  simp only [next, if_neg notDot, if_pos isOpening]
  refine (key.enclosed closing isClosing (.inl rfl) _ n rest).continues (fun shorterKey read =>
    ⟨Nat.lt_trans shorterKey (Nat.lt_trans shorterNext shorter), ?_⟩) fun e refused => by
      rw [refused]
  rw [read]
  rfl

theorem ReadsChain.call (callee : ReadsChain source inside k segObject o)
    (opening : Reaches inside t seg) (isOpening : t.kind = .lparen)
    (touches : t.span.start = o.outer.stop)
    (items : NestsItems source .rparen k' segBehind es close) :
    ReadsChain source inside (max k (k' + 1)) (segObject ++ (seg ++ segBehind))
      (.call (.bare ⟨o.outer.start, close.span.stop⟩) o es) := by
  refine callee.extend opening (by rw [isOpening]; decide) (k' ≤ ·)
    (fun n rest ts shorter => ?_) fun n => by omega
  have other : t.kind ≠ .dot ∧ t.kind ≠ .lbracket := by rw [isOpening]; decide
  obtain ⟨shorterNext, next⟩ := opening.next? (by rw [isOpening]; decide) (segBehind ++ rest)
  rw [postfixes]
  simp only [next, if_neg other.1, if_neg other.2, if_pos (And.intro isOpening touches)]
  refine (items.reads _ n rest).continues (fun shorterItems read =>
    ⟨Nat.lt_trans shorterItems (Nat.lt_trans shorterNext shorter), ?_⟩) fun e refused => by
      rw [refused]
  rw [read]
  rfl

end Postfixes

/-! ## Operators -/

section Operators

variable {k k' i j own level : Nat} {segLeft seg segRight : List Token} {t : Token} {l r e : Expr}

theorem Nests.reads_not (operand : Nests source inside k level segRight e) (tight : 7 ≤ level)
    (reaches : Reaches inside t seg) (isNot : t.kind = .not) :
    ReadsUnary source inside (k + 1) (seg ++ segRight)
      (.not (.bare (t.span.cover e.outer)) t.span e) := by
  intro n rest leaves
  obtain ⟨shorter, next⟩ := reaches.next?_of_split (by rw [isNot]; decide)
    (List.append_assoc seg segRight rest)
  have read := nested_takes operand.positive (·.unary inside (segRight ++ rest)) ⟨_, rfl⟩
    (fun n => operand.unary tight n rest leaves) n
  rw [Parser.unary, next]
  simp only [if_pos isNot]
  exact Continues.congr (read.map _ fun _ => ⟨_, rfl⟩) (Nat.add_le_add_iff_right (n := 1)).symm

/-- A left operand that is read up to its first operator goes on with the right one. -/
theorem ReadsOperand.extend (left : ReadsOperand source inside k i segLeft l)
    (leftLevel : own ≤ i) (reaches : Reaches inside t seg)
    (leveled : level? source t = some own) (right : Nests source inside k' j segRight r)
    (rightLevel : own < j) (combined : combine source t l r = .ok e) :
    ReadsOperand source inside (max k (k' + 1)) own (segLeft ++ (seg ++ segRight)) e := by
  intro n least rest tighter leaves
  have split : segLeft ++ (seg ++ segRight) ++ rest = segLeft ++ (seg ++ (segRight ++ rest)) := by
    simp only [List.append_assoc]
  have isOperator : t.kind ∉ [.identifier, .newline, .dot, .lbracket, .lparen] ∧
      t.kind ≠ .newline := by
    unfold level? at leveled
    split at leveled <;> simp_all
  obtain ⟨shorterNext, next⟩ := reaches.next? isOperator.2 (segRight ++ rest)
  have front : Leaves source inside i (seg ++ (segRight ++ rest)) :=
    reaches.leaves isOperator.1 (fun own' leveled' => by
      cases leveled.symm.trans leveled'
      exact leftLevel) _
  have read := nested_takes right.positive (·.operand own inside (segRight ++ rest)) ⟨_, rfl⟩
    (fun n => (right.operand (Nat.zero_lt_of_lt rightLevel)).takes rightLevel n leaves) n
  rw [split]
  have started := left n least _ (Nat.lt_of_lt_of_le tighter leftLevel) front
  refine (started.trans fun shorter => ?_).congr
    (show k ≤ n + 1 ∧ k' ≤ n ↔ max k (k' + 1) ≤ n + 1 by omega)
  rw [operators]
  simp only [next, leveled, if_neg (Nat.not_le.2 tighter)]
  refine read.continues (fun shorterRight read => ⟨Nat.lt_trans shorterRight
    (Nat.lt_trans shorterNext shorter), ?_⟩) fun e refused => by rw [refused]
  simp only [read, combined]
  rfl

/-- An operator token that is looked up at the operator's own level is no membership test. -/
theorem combine_of_level? {op : BinaryOperator} (leveled : level? source t = some op.level)
    (spelt : BinaryOperator.ofText? (t.text source) = some op) :
    combine source t l r = .ok (.binary (.bare (l.outer.cover r.outer)) l op r) := by
  have isOperator : ¬(t.kind = .relation ∧ t.text source ≠ "instanceof") := by
    rintro ⟨isRelation, other⟩
    rw [level?, isRelation] at leveled
    unfold BinaryOperator.ofText? at spelt
    split at spelt <;> cases spelt <;>
      first | exact other ‹t.text source = "instanceof"› | cases leveled
  unfold combine
  simp only [if_neg isOperator, spelt]

theorem Nests.reads_assign (left : Nests source inside k i segLeft l) (leftLevel : 0 < i)
    (isTarget : l.isTarget = true) (reaches : Reaches inside t seg) (isAssign : t.kind = .assign)
    (right : Nests source inside k' j segRight r) :
    ReadsAssignment source inside (max k (k' + 1)) (segLeft ++ (seg ++ segRight))
      (.assign (.bare (l.outer.cover r.outer)) l r) := by
  intro n rest leaves unassigned
  have split : segLeft ++ (seg ++ segRight) ++ rest = segLeft ++ (seg ++ (segRight ++ rest)) := by
    simp only [List.append_assoc]
  have front : Leaves source inside 0 (seg ++ (segRight ++ rest)) :=
    reaches.leaves (by rw [isAssign]; decide) (fun own leveled => by
      simp only [level?, isAssign] at leveled
      cases leveled) _
  obtain ⟨shorterNext, next⟩ := reaches.next? (by rw [isAssign]; decide) (segRight ++ rest)
  rw [split]
  refine (((left.operand leftLevel).takes leftLevel n front).then (fun shorter read => ?_)
    fun e refused => by rw [Parser.assignment, refused]).congr
      (show k ≤ n + 1 ∧ k' ≤ n ↔ max k (k' + 1) ≤ n + 1 by omega)
  rw [Parser.assignment, read]
  simp only [next, isAssign, isTarget, ne_eq, not_true_eq_false, if_false, Bool.not_true,
    Bool.false_eq_true]
  exact (right.nested_assignment n leaves unassigned).map _ fun _ => ⟨_, rfl⟩

end Operators

/-! ## Derivations with their depth -/

namespace Nests

variable {k k' i j level own : Nat} {seg segInner segBehind segClose segRight : List Token}
  {t close name dot : Token} {a : Atom} {o e l r : Expr} {op : BinaryOperator} {es : List Expr}

theorem atom (reaches : Reaches inside t seg) (known : atom? t.kind = some a) :
    Nests source inside 1 8 seg (.atom (.bare t.span) a) := by
  refine of_chain (.atom reaches known) Nat.one_pos ?_
  have read : ReadsPrimary source inside 1 seg (.atom (.bare t.span) a) := .atom reaches known
  rw [← List.append_nil seg] at read ⊢
  exact read.chain reaches (ne_newline_of_atom? known) (beginsOperand_of_atom? known).2

theorem shorthand (reaches : Reaches inside t seg) (known : atom? t.kind = some a)
    (sign : t.text source = "@") (isName : name.kind = .identifier)
    (touches : name.span.start = t.span.stop) :
    Nests source inside 1 8 (seg ++ [name])
      (.member (.bare ⟨t.span.start, name.span.stop⟩) (.atom (.bare t.span) a) name.span) :=
  of_chain (.shorthand reaches known sign isName touches) Nat.one_pos
    ((ReadsPrimary.shorthand reaches known sign isName touches).chain reaches
      (ne_newline_of_atom? known) (beginsOperand_of_atom? known).2)

theorem array (opening : Reaches inside t seg) (isOpening : t.kind = .lbracket)
    (items : NestsItems source .rbracket k segInner es close) :
    Nests source inside (k + 1) 8 (seg ++ segInner)
      (.array (.bare ⟨t.span.start, close.span.stop⟩) es) :=
  of_chain (.array opening isOpening items.derives) (Nat.succ_pos k)
    ((ReadsPrimary.array opening isOpening items).chain opening (by rw [isOpening]; decide)
      (by rw [isOpening]; decide))

theorem parenthesized (opening : Reaches inside t seg) (isOpening : t.kind = .lparen)
    (inner : Nests source true k level segInner e) (closing : Reaches true close segClose)
    (isClosing : close.kind = .rparen) :
    Nests source inside (k + 1) 8 (seg ++ segInner ++ segClose)
      (e.parenthesize t.span.start close.span.stop) := by
  refine of_chain (.parenthesized opening isOpening inner.derives closing isClosing)
    (Nat.succ_pos k) ?_
  have read := ReadsPrimary.parenthesized opening isOpening inner closing isClosing
  rw [List.append_assoc] at read ⊢
  exact read.chain opening (by rw [isOpening]; decide) (by rw [isOpening]; decide)

theorem member (object : Nests source inside k 8 seg o) (reachesDot : Reaches inside dot segInner)
    (isDot : dot.kind = .dot) (reachesName : Reaches inside name segBehind)
    (isName : name.kind = .identifier) :
    Nests source inside k 8 (seg ++ segInner ++ segBehind)
      (.member (.bare ⟨o.outer.start, name.span.stop⟩) o name.span) := by
  refine of_chain (.member object.derives reachesDot isDot reachesName isName) object.positive ?_
  rw [List.append_assoc]
  exact (object.chain rfl).member reachesDot isDot reachesName isName

theorem index (object : Nests source inside k 8 seg o) (opening : Reaches inside t segInner)
    (isOpening : t.kind = .lbracket) (key : Nests source true k' level segBehind e)
    (closing : Reaches true close segClose) (isClosing : close.kind = .rbracket) :
    Nests source inside (max k (k' + 1)) 8 (seg ++ segInner ++ segBehind ++ segClose)
      (.index (.bare ⟨o.outer.start, close.span.stop⟩) o e) := by
  refine of_chain (.index object.derives opening isOpening key.derives closing isClosing)
    (by omega) ?_
  simp only [List.append_assoc]
  exact (object.chain rfl).index opening isOpening key closing isClosing

theorem call (callee : Nests source inside k 8 seg o) (opening : Reaches inside t segInner)
    (isOpening : t.kind = .lparen) (touches : t.span.start = o.outer.stop)
    (items : NestsItems source .rparen k' segBehind es close) :
    Nests source inside (max k (k' + 1)) 8 (seg ++ segInner ++ segBehind)
      (.call (.bare ⟨o.outer.start, close.span.stop⟩) o es) := by
  refine of_chain (.call callee.derives opening isOpening touches items.derives) (by omega) ?_
  rw [List.append_assoc]
  exact (callee.chain rfl).call opening isOpening touches items

theorem not (reaches : Reaches inside t seg) (isNot : t.kind = .not)
    (operand : Nests source inside k level segRight e) (tighter : 7 ≤ level) :
    Nests source inside (k + 1) 7 (seg ++ segRight)
      (.not (.bare (t.span.cover e.outer)) t.span e) :=
  of_unary (.not reaches isNot operand.derives tighter) (Nat.succ_pos k)
    (operand.reads_not tighter reaches isNot)

theorem binary (left : Nests source inside k i seg l) (leftLevel : op.level ≤ i)
    (reaches : Reaches inside t segInner) (leveled : level? source t = some op.level)
    (spelt : BinaryOperator.ofText? (t.text source) = some op)
    (right : Nests source inside k' j segRight r) (rightLevel : op.level < j) :
    Nests source inside (max k (k' + 1)) op.level (seg ++ segInner ++ segRight)
      (.binary (.bare (l.outer.cover r.outer)) l op r) := by
  have positive : 0 < op.level := by cases op <;> decide
  refine of_operand (.binary left.derives leftLevel reaches leveled spelt right.derives rightLevel)
    (by omega) (level?_lt leveled) positive ?_
  rw [List.append_assoc]
  exact (left.operand (Nat.lt_of_lt_of_le positive leftLevel)).extend leftLevel reaches leveled
    right rightLevel (combine_of_level? leveled spelt)

theorem membership (left : Nests source inside k i seg l)
    (leftLevel : BinaryOperator.relationLevel ≤ i) (reaches : Reaches inside t segInner)
    (isRelation : t.kind = .relation) (spelt : t.text source ≠ "instanceof")
    (right : Nests source inside k' j segRight r) (rightLevel : BinaryOperator.relationLevel < j) :
    Nests source inside (max k (k' + 1)) BinaryOperator.relationLevel (seg ++ segInner ++ segRight)
      (.membership (.bare (l.outer.cover r.outer)) l r (t.text source ≠ "in")) := by
  have leveled : level? source t = some BinaryOperator.relationLevel := by
    rw [level?, isRelation]
  refine of_operand (.membership left.derives leftLevel reaches isRelation spelt right.derives
    rightLevel) (by omega) (by decide) (by decide) ?_
  rw [List.append_assoc]
  exact (left.operand (Nat.lt_of_lt_of_le (by decide) leftLevel)).extend leftLevel reaches leveled
    right rightLevel (if_pos ⟨isRelation, spelt⟩)

theorem assign (left : Nests source inside k i seg l) (leftLevel : 0 < i)
    (isTarget : l.isTarget = true) (reaches : Reaches inside t segInner)
    (isAssign : t.kind = .assign) (right : Nests source inside k' j segRight r) :
    Nests source inside (max k (k' + 1)) 0 (seg ++ segInner ++ segRight)
      (.assign (.bare (l.outer.cover r.outer)) l r) := by
  refine of_assignment (.assign left.derives leftLevel isTarget reaches isAssign right.derives)
    (by omega) ?_
  rw [List.append_assoc]
  exact left.reads_assign leftLevel isTarget reaches isAssign right

end Nests

/-! ## Statements -/

/-- A separator or the end of the text goes on with no expression. -/
theorem leaves_of_separated (source : String) {ts : List Token}
    (separated : ∀ t ∈ ts.head?, t.kind.isSeparator = true) :
    Leaves source false 0 ts ∧ Unassigned false ts := by
  cases ts with
  | nil => exact ⟨⟨nofun, nofun, nofun⟩, nofun⟩
  | cons t ts =>
      have separates := separated t rfl
      have isSeparator : t.kind = .newline ∨ t.kind = .semicolon := by
        revert separates
        cases t.kind <;> simp [TokenKind.isSeparator]
      have next : ∀ u, next? false (t :: ts) = some u → u.value = t := by
        intro u read
        simp only [next?, Bool.false_and, Bool.false_eq_true, if_false, Option.some.injEq] at read
        rw [← read]
      refine ⟨⟨fun u hu => ?_, fun u hu => ?_, fun u hu own leveled => ?_⟩, fun u hu => ?_⟩
      · cases hu
        rcases isSeparator with kind | kind <;> simp [kind]
      · rw [next u hu]
        rcases isSeparator with kind | kind <;> simp [kind]
      · rw [next u hu] at leveled
        rcases isSeparator with kind | kind <;> simp [level?, kind] at leveled
      · rw [next u hu]
        rcases isSeparator with kind | kind <;> simp [kind]

theorem statements_cons {t : Token} {ts rest : List Token} {e : Expr}
    {shorter : rest.length < (t :: ts).length} (plain : t.kind.isSeparator = false)
    (read : (nested source maxDepth).assignment false (t :: ts) = .ok ⟨e, rest, shorter⟩)
    (separated : ∀ u ∈ rest.head?, u.kind.isSeparator = true) :
    statements source (t :: ts) = (statements source rest).map (e :: ·) := by
  rw [statements, if_neg (by simp [plain]), read]
  cases rest with
  | nil => simp [statements, Except.map]
  | cons u later =>
      have separates := separated u rfl
      rw [statements.eq_2 source u later, if_pos separates]
      simp only [separates, if_true]

/-- A statement in front of others. -/
theorem Nests.statements {k level : Nat} {seg rest : List Token} {e : Expr}
    (h : Nests source false k level seg e)
    (separated : ∀ t ∈ rest.head?, t.kind.isSeparator = true) :
    (k ≤ maxDepth →
        statements source (seg ++ rest) = (statements source rest).map (e :: ·)) ∧
      (maxDepth < k → ∃ span, statements source (seg ++ rest) = .error ⟨.tooDeep, span⟩) := by
  obtain ⟨leaves, unassigned⟩ := leaves_of_separated source separated
  have read := h.nested_assignment maxDepth leaves unassigned
  obtain ⟨t, front, back, rfl, reaches, begins⟩ := h.derives.begins
  obtain ⟨tail, rfl⟩ : ∃ tail, front = t :: tail := by
    cases reaches with
    | here => exact ⟨[], rfl⟩
    | later bracketed => cases bracketed
  have plain := not_isSeparator_of_beginsOperand begins
  constructor
  · intro enough
    obtain ⟨shorter, read⟩ := read.reads enough
    exact statements_cons plain read separated
  · intro few
    obtain ⟨span, refused⟩ := read.refuses (Nat.not_le.2 few)
    refine ⟨span, ?_⟩
    rw [List.append_assoc, List.cons_append] at refused ⊢
    rw [Parser.statements, if_neg (by simp [plain]), refused]

end MembershipLowering.Parser
