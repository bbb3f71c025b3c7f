import Mathlib.Order.MinMax
import MembershipLowering.Proofs.Expr.Bracketing
import MembershipLowering.Proofs.Expr.Completeness

/-! # Statements in another place

Tokens that are put elsewhere keep their order and their texts (`Relocation`), and inside
brackets newlines may come to stand between them (`Respaced`). Their statements are read again
as the same trees, elsewhere, unless something was put in front of a parenthesis that touches
its callee or of a name that touches its `@` (`DerivesProgram.statements_respaced`). For that a
derivation is carried over token by token, together with the number of levels it takes to read.
-/

namespace MembershipLowering

/-- Where the offsets of a source go. What stops at an offset may go to another place than what
    starts there, and there is room between them then. -/
structure Relocation where
  start : Nat → Nat
  stop : Nat → Nat
  start_mono : ∀ {x y}, x ≤ y → start x ≤ start y
  stop_mono : ∀ {x y}, x ≤ y → stop x ≤ stop y

namespace Relocation

/-- All offsets go `n` bytes further behind. -/
def shift (n : Nat) : Relocation where
  start := (· + n)
  stop := (· + n)
  start_mono h := Nat.add_le_add_right h n
  stop_mono h := Nat.add_le_add_right h n

end Relocation

namespace Span

def relocate (r : Relocation) (s : Span) : Span :=
  ⟨r.start s.start, r.stop s.stop⟩

theorem cover_relocate (r : Relocation) (s t : Span) :
    (s.cover t).relocate r = (s.relocate r).cover (t.relocate r) := by
  have start : Monotone r.start := fun _ _ => r.start_mono
  have stop : Monotone r.stop := fun _ _ => r.stop_mono
  show Span.mk (r.start (min _ _)) (r.stop (max _ _)) = _
  rw [start.map_min, stop.map_max]
  rfl

end Span

namespace Extent

def relocate (r : Relocation) (x : Extent) : Extent :=
  ⟨x.outer.relocate r, x.content.relocate r⟩

theorem wrap_relocate (r : Relocation) (x : Extent) (start stop : Nat) :
    (x.wrap start stop).relocate r = (x.relocate r).wrap (r.start start) (r.stop stop) := by
  simp only [relocate, wrap, Span.cover_relocate]
  rfl

end Extent

namespace Expr

mutual

/-- The same expression elsewhere. -/
def relocate (r : Relocation) : Expr → Expr
  | .atom x a => .atom (x.relocate r) a
  | .array x es => .array (x.relocate r) (relocateAll r es)
  | .call x f es => .call (x.relocate r) (f.relocate r) (relocateAll r es)
  | .member x o name => .member (x.relocate r) (o.relocate r) (name.relocate r)
  | .index x o k => .index (x.relocate r) (o.relocate r) (k.relocate r)
  | .not x sign e => .not (x.relocate r) (sign.relocate r) (e.relocate r)
  | .binary x l op k => .binary (x.relocate r) (l.relocate r) op (k.relocate r)
  | .membership x l k negated => .membership (x.relocate r) (l.relocate r) (k.relocate r) negated
  | .assign x t v => .assign (x.relocate r) (t.relocate r) (v.relocate r)

def relocateAll (r : Relocation) : List Expr → List Expr
  | [] => []
  | e :: es => e.relocate r :: relocateAll r es

end

variable (r : Relocation) (e : Expr)

@[simp] theorem outer_relocate : (e.relocate r).outer = e.outer.relocate r := by
  cases e <;> rfl

@[simp] theorem isTarget_relocate : (e.relocate r).isTarget = e.isTarget := by
  cases e with
  | atom x a => cases a <;> rfl
  | _ => rfl

theorem parenthesize_relocate (start stop : Nat) :
    (e.parenthesize start stop).relocate r =
      (e.relocate r).parenthesize (r.start start) (r.stop stop) := by
  cases e <;> simp only [parenthesize, relocate, Extent.wrap_relocate]

/-- The token is the parenthesis of the call and touches the callee, or it is the name and
    touches the sign `@`. -/
def Attaches (source : String) (t : Token) : Expr → Prop
  | .call _ f _ => t.kind = .lparen ∧ t.span.start = f.outer.stop
  | .member _ o name => t.kind = .identifier ∧ t.span = name ∧ o.outer.text source = "@" ∧
      name.start = o.outer.stop
  | _ => False

theorem attaches_parenthesize {source : String} {t : Token} {e : Expr} {start stop : Nat} :
    (e.parenthesize start stop).Attaches source t ↔ e.Attaches source t := by
  cases e <;> rfl

end Expr

/-- There is no room in front of the tokens that touch what they belong to. -/
def Relocation.Keeps (r : Relocation) (source : String) (ts : List Token) (e : Expr) : Prop :=
  ∀ t ∈ ts, ∀ c, e.Within c → c.Attaches source t → r.start t.span.start = r.stop t.span.start

namespace Relocation.Keeps

variable {r : Relocation} {source : String} {ts us : List Token} {e c : Expr}

theorem part (h : r.Keeps source ts e) (isPart : c ∈ e.parts) (sub : us ⊆ ts) :
    r.Keeps source us c :=
  fun t ht d within => h t (sub ht) d (.part isPart within)

theorem of_parenthesize {start stop : Nat} (h : r.Keeps source ts (e.parenthesize start stop))
    (sub : us ⊆ ts) : r.Keeps source us e := by
  intro t ht c within attaches
  cases within with
  | self => exact h t (sub ht) _ .self (Expr.attaches_parenthesize.2 attaches)
  | part isPart within =>
      exact h t (sub ht) c (.part (by rwa [Expr.parts_parenthesize]) within) attaches

end Relocation.Keeps

namespace Token

/-- The token `u` of the whole is the token `t` of the source. A newline may have become
    longer. -/
structure Relocated (source whole : String) (r : Relocation) (t u : Token) : Prop where
  kind : u.kind = t.kind
  span : t.kind ≠ .newline → u.span = t.span.relocate r
  text : t.kind ≠ .newline → u.text whole = t.text source

/-- The tokens of the source are found again in the whole. Behind open brackets newlines may
    have come in where there is room for them. -/
inductive Respaced (source whole : String) (r : Relocation) :
    (depth : Nat) → List Token → List Token → Prop where
  | nil {depth : Nat} : Respaced source whole r depth [] []
  | token {depth : Nat} {t u : Token} {ts us : List Token}
      (relocated : Relocated source whole r t u)
      (later : Respaced source whole r (t.kind.nesting depth) ts us) :
      Respaced source whole r depth (t :: ts) (u :: us)
  | newline {depth : Nat} {t u : Token} {ts us : List Token} (bracketed : 0 < depth)
      (newline : u.kind = .newline) (room : r.start t.span.start ≠ r.stop t.span.start)
      (later : Respaced source whole r depth (t :: ts) us) :
      Respaced source whole r depth (t :: ts) (u :: us)

namespace Respaced

variable {source whole : String} {r : Relocation} {depth depth' : Nat} {t : Token}
  {ts ts' us us' : List Token}

theorem eq_nil (h : Respaced source whole r depth [] us) : us = [] := by
  cases h
  rfl

theorem split (h : Respaced source whole r depth (ts ++ ts') us)
    (counts : nesting depth ts = depth') :
    ∃ us₁ us₂, us = us₁ ++ us₂ ∧ Respaced source whole r depth ts us₁ ∧
      Respaced source whole r depth' ts' us₂ := by
  subst counts
  generalize same : ts ++ ts' = all at h
  induction h generalizing ts with
  | nil =>
      obtain ⟨rfl, rfl⟩ := List.append_eq_nil_iff.1 same
      exact ⟨[], [], rfl, .nil, .nil⟩
  | @token depth t u rest us relocated later ih =>
      cases ts with
      | nil =>
          subst same
          exact ⟨[], u :: us, rfl, .nil, .token relocated later⟩
      | cons v ts =>
          obtain ⟨rfl, behind⟩ := List.cons.inj same
          obtain ⟨us₁, us₂, rfl, first, second⟩ := ih behind
          exact ⟨u :: us₁, us₂, rfl, .token relocated first, second⟩
  | @newline depth t u rest us bracketed newline room later ih =>
      cases ts with
      | nil =>
          subst same
          exact ⟨[], u :: us, rfl, .nil, .newline bracketed newline room later⟩
      | cons v ts =>
          obtain ⟨us₁, us₂, rfl, first, second⟩ := ih same
          obtain ⟨rfl, -⟩ := List.cons.inj same
          exact ⟨u :: us₁, us₂, rfl, .newline bracketed newline room first, second⟩

theorem split₃ {ts'' : List Token} {depth'' : Nat}
    (h : Respaced source whole r depth (ts ++ ts' ++ ts'') us)
    (counts : nesting depth ts = depth') (counts' : nesting depth' ts' = depth'') :
    ∃ us₁ us₂ us₃, us = us₁ ++ us₂ ++ us₃ ∧ Respaced source whole r depth ts us₁ ∧
      Respaced source whole r depth' ts' us₂ ∧ Respaced source whole r depth'' ts'' us₃ := by
  obtain ⟨us', us₃, rfl, front, third⟩ := h.split (by rw [nesting_append, counts, counts'])
  obtain ⟨us₁, us₂, rfl, first, second⟩ := front.split counts
  exact ⟨us₁, us₂, us₃, rfl, first, second, third⟩

theorem append (h : Respaced source whole r depth ts us)
    (h' : Respaced source whole r (nesting depth ts) ts' us') :
    Respaced source whole r depth (ts ++ ts') (us ++ us') := by
  induction h with
  | nil => exact h'
  | token relocated _ ih => exact .token relocated (ih h')
  | newline bracketed newline room _ ih => exact .newline bracketed newline room (ih h')

/-- Tokens that are found again with nothing between them. -/
theorem map {f : Token → Token} (h : ∀ t ∈ ts, Relocated source whole r t (f t)) :
    Respaced source whole r depth ts (ts.map f) := by
  induction ts generalizing depth with
  | nil => exact .nil
  | cons t ts ih =>
      exact .token (h t List.mem_cons_self) (ih fun u hu => h u (List.mem_cons_of_mem _ hu))

/-- Where no bracket is open no newlines have come in. -/
theorem cons_of_outside (h : Respaced source whole r 0 (t :: ts) us) :
    ∃ u later, us = u :: later ∧ Relocated source whole r t u ∧
      Respaced source whole r (t.kind.nesting 0) ts later := by
  cases h with
  | token relocated later => exact ⟨_, _, rfl, relocated, later⟩
  | newline bracketed => cases bracketed

/-- And none where there is no room. -/
theorem single (h : Respaced source whole r depth [t] us)
    (tight : r.start t.span.start = r.stop t.span.start) :
    ∃ u, us = [u] ∧ Relocated source whole r t u := by
  cases h with
  | token relocated later =>
      obtain rfl := later.eq_nil
      exact ⟨_, rfl, relocated⟩
  | newline _ _ room => exact absurd tight room

end Respaced

end Token

namespace Parser

open Token

variable {source whole : String} {r : Relocation} {inside : Bool} {depth depth' : Nat}
  {t u : Token} {seg us : List Token}

theorem level?_of_relocated (h : Relocated source whole r t u) :
    level? whole u = level? source t := by
  unfold level?
  rw [h.kind]
  split
  · rfl
  · rename_i isOperator
    rw [h.text (by rw [isOperator]; decide)]
  · rfl

/-- Newlines open and close nothing. -/
theorem Reaches.nesting_eq {kind : TokenKind} (h : Reaches inside t seg) (isKind : t.kind = kind)
    (counts : kind.nesting depth = depth') : nesting depth seg = depth' := by
  induction h with
  | here => rw [nesting_cons, isKind, counts, nesting_nil]
  | later _ newline _ ih =>
      rw [nesting_cons, newline, TokenKind.nesting_of_separator rfl]
      exact ih

theorem Derives.nesting_eq {level : Nat} {e : Expr} (h : Derives source inside level seg e) :
    nesting depth seg = depth :=
  h.bracketed.balanced.nesting_eq depth

/-- A token that is no newline, with newlines in front of it. -/
theorem Reaches.respaced (h : Reaches inside t seg) (bracketed : 0 < depth → inside = true)
    (spaced : Respaced source whole r depth seg us) (other : t.kind ≠ .newline) :
    ∃ u, Reaches inside u us ∧ Relocated source whole r t u ∧ u.kind = t.kind ∧
      u.span = t.span.relocate r ∧ u.text whole = t.text source := by
  induction spaced with
  | nil => cases h
  | @token depth v w ts us relocated later ih =>
      cases h with
      | here =>
          obtain rfl := later.eq_nil
          exact ⟨w, .here, relocated, relocated.kind, relocated.span other, relocated.text other⟩
      | later within newline reaches =>
          rw [newline] at later ih
          obtain ⟨u, reaches', kept⟩ := ih reaches bracketed
          exact ⟨u, .later within (relocated.kind.trans newline) reaches', kept⟩
  | newline open' newline _ _ ih =>
      obtain ⟨u, reaches', kept⟩ := ih h bracketed
      exact ⟨u, .later (bracketed open') newline reaches', kept⟩

mutual

/-- What is derived from tokens of the source is derived from what has become of them, and takes
    as many levels to read. -/
theorem Derives.respaced {inside : Bool} {level depth : Nat} {seg us : List Token} {e : Expr}
    (h : Derives source inside level seg e) (bracketed : 0 < depth → inside = true)
    (spaced : Respaced source whole r depth seg us) (keeps : r.Keeps source seg e) :
    ∃ k, Nests source inside k level seg e ∧ Nests whole inside k level us (e.relocate r) := by
  match h with
  | .atom reaches known =>
    obtain ⟨u, reaches', -, kind, span, -⟩ :=
      reaches.respaced bracketed spaced (ne_newline_of_atom? known)
    have respaced : Nests whole _ _ _ _ _ := .atom reaches' (kind ▸ known)
    rw [span] at respaced
    exact ⟨1, .atom reaches known, respaced⟩
  | @Derives.shorthand _ _ seg t name a reaches known sign isName touches =>
    obtain ⟨us₁, us₂, rfl, front, back⟩ :=
      spaced.split ((reaches.bracketed_atom known).balanced.nesting_eq depth)
    obtain ⟨u, reaches', -, kind, span, text⟩ :=
      reaches.respaced bracketed front (ne_newline_of_atom? known)
    have tight := keeps name (by simp) _ .self ⟨isName, rfl, sign, touches⟩
    obtain ⟨v, rfl, relocated⟩ := back.single tight
    have spanName := relocated.span (ne_newline_of_kind isName rfl)
    have respaced : Nests whole _ _ _ _ _ := .shorthand reaches' (kind ▸ known) (text.trans sign)
      (relocated.kind.trans isName) (by
        rw [span, spanName]
        exact tight.trans (congrArg r.stop touches))
    rw [span, spanName] at respaced
    exact ⟨1, .shorthand reaches known sign isName touches, respaced⟩
  | .array opening isOpening items =>
    obtain ⟨us₁, us₂, rfl, front, back⟩ :=
      spaced.split (opening.nesting_eq isOpening rfl)
    obtain ⟨u, opening', -, kind, span, -⟩ :=
      opening.respaced bracketed front (ne_newline_of_kind isOpening rfl)
    obtain ⟨k, close', nests, nests', spanClose⟩ := items.respaced (.inl rfl) back
      fun e he => keeps.part he (List.subset_append_right _ _)
    have respaced := Nests.array opening' (kind.trans isOpening) nests'
    rw [span, spanClose] at respaced
    exact ⟨k + 1, .array opening isOpening nests, respaced⟩
  | .parenthesized opening isOpening inner closing isClosing =>
    obtain ⟨us₁, us₂, us₃, rfl, front, middle, back⟩ :=
      spaced.split₃ (opening.nesting_eq isOpening rfl) inner.nesting_eq
    obtain ⟨u, opening', -, kind, span, -⟩ :=
      opening.respaced bracketed front (ne_newline_of_kind isOpening rfl)
    obtain ⟨k, nests, nests'⟩ := inner.respaced (fun _ => rfl) middle
      (keeps.of_parenthesize fun t ht => by simp [ht])
    obtain ⟨v, closing', -, kindClose, spanClose, -⟩ :=
      closing.respaced (fun _ => rfl) back (ne_newline_of_kind isClosing rfl)
    have respaced := Nests.parenthesized opening' (kind.trans isOpening) nests' closing'
      (kindClose.trans isClosing)
    rw [span, spanClose] at respaced
    rw [Expr.parenthesize_relocate]
    exact ⟨k + 1, .parenthesized opening isOpening nests closing isClosing, respaced⟩
  | .member object reachesDot isDot reachesName isName =>
    obtain ⟨us₁, us₂, us₃, rfl, front, middle, back⟩ :=
      spaced.split₃ object.nesting_eq (reachesDot.nesting_eq isDot rfl)
    obtain ⟨k, nests, nests'⟩ := object.respaced bracketed front
      (keeps.part (by simp [Expr.parts]) fun t ht => by simp [ht])
    obtain ⟨u, reachesDot', -, kind, -, -⟩ :=
      reachesDot.respaced bracketed middle (ne_newline_of_kind isDot rfl)
    obtain ⟨v, reachesName', -, kindName, spanName, -⟩ :=
      reachesName.respaced bracketed back (ne_newline_of_kind isName rfl)
    have respaced := nests'.member reachesDot' (kind.trans isDot) reachesName'
      (kindName.trans isName)
    rw [spanName, Expr.outer_relocate] at respaced
    exact ⟨k, nests.member reachesDot isDot reachesName isName, respaced⟩
  | .index object opening isOpening key closing isClosing =>
    have counts : nesting depth _ = depth + 1 := opening.nesting_eq isOpening rfl
    obtain ⟨us', us₄, rfl, spaced, back⟩ :=
      spaced.split (by
        rw [nesting_append, nesting_append, object.nesting_eq, counts, key.nesting_eq])
    obtain ⟨us₁, us₂, us₃, rfl, front, middle, inner⟩ := spaced.split₃ object.nesting_eq counts
    obtain ⟨k, nests, nests'⟩ := object.respaced bracketed front
      (keeps.part (by simp [Expr.parts]) fun t ht => by simp [ht])
    obtain ⟨u, opening', -, kind, -, -⟩ :=
      opening.respaced bracketed middle (ne_newline_of_kind isOpening rfl)
    obtain ⟨k', nestsKey, nestsKey'⟩ := key.respaced (fun _ => rfl) inner
      (keeps.part (by simp [Expr.parts]) fun t ht => by simp [ht])
    obtain ⟨v, closing', -, kindClose, spanClose, -⟩ :=
      closing.respaced (fun _ => rfl) back (ne_newline_of_kind isClosing rfl)
    have respaced := nests'.index opening' (kind.trans isOpening) nestsKey' closing'
      (kindClose.trans isClosing)
    rw [spanClose, Expr.outer_relocate] at respaced
    exact ⟨_, nests.index opening isOpening nestsKey closing isClosing, respaced⟩
  | .call callee opening isOpening touches items =>
    obtain ⟨us₁, us₂, us₃, rfl, front, middle, back⟩ :=
      spaced.split₃ callee.nesting_eq (opening.nesting_eq isOpening rfl)
    have tight := keeps _ (by simp [opening.mem]) _ .self ⟨isOpening, touches⟩
    obtain ⟨k, nests, nests'⟩ := callee.respaced bracketed front
      (keeps.part List.mem_cons_self fun t ht => by simp [ht])
    obtain ⟨u, opening', -, kind, span, -⟩ :=
      opening.respaced bracketed middle (ne_newline_of_kind isOpening rfl)
    obtain ⟨k', close', nestsItems, nestsItems', spanClose⟩ := items.respaced (.inr rfl) back
      fun e he => keeps.part (List.mem_cons_of_mem _ he) fun t ht => by simp [ht]
    have respaced := nests'.call opening' (kind.trans isOpening) (by
      rw [span, Expr.outer_relocate]
      exact tight.trans (congrArg r.stop touches)) nestsItems'
    rw [spanClose, Expr.outer_relocate] at respaced
    exact ⟨_, nests.call opening isOpening touches nestsItems, respaced⟩
  | .not reaches isNot operand tighter =>
    obtain ⟨us₁, us₂, rfl, front, back⟩ :=
      spaced.split (reaches.nesting_eq isNot rfl)
    obtain ⟨u, reaches', -, kind, span, -⟩ :=
      reaches.respaced bracketed front (ne_newline_of_kind isNot rfl)
    obtain ⟨k, nests, nests'⟩ := operand.respaced bracketed back
      (keeps.part (by simp [Expr.parts]) (List.subset_append_right _ _))
    have respaced := Nests.not reaches' (kind.trans isNot) nests' tighter
    rw [span, Expr.outer_relocate, ← Span.cover_relocate] at respaced
    exact ⟨_, .not reaches isNot nests tighter, respaced⟩
  | .binary left leftLevel reaches leveled spelt right rightLevel =>
    obtain ⟨us₁, us₂, us₃, rfl, front, middle, back⟩ := spaced.split₃ left.nesting_eq
      ((reaches.bracketed_operator leveled).balanced.nesting_eq depth)
    obtain ⟨k, nests, nests'⟩ := left.respaced bracketed front
      (keeps.part (by simp [Expr.parts]) fun t ht => by simp [ht])
    obtain ⟨u, reaches', relocated, -, -, text⟩ :=
      reaches.respaced bracketed middle (ne_newline_of_level? leveled)
    obtain ⟨k', nestsRight, nestsRight'⟩ := right.respaced bracketed back
      (keeps.part (by simp [Expr.parts]) fun t ht => by simp [ht])
    have respaced := nests'.binary leftLevel reaches'
      ((level?_of_relocated relocated).trans leveled) (text ▸ spelt) nestsRight' rightLevel
    rw [Expr.outer_relocate, Expr.outer_relocate, ← Span.cover_relocate] at respaced
    exact ⟨_, nests.binary leftLevel reaches leveled spelt nestsRight rightLevel, respaced⟩
  | .membership left leftLevel reaches isRelation spelt right rightLevel =>
    obtain ⟨us₁, us₂, us₃, rfl, front, middle, back⟩ := spaced.split₃ left.nesting_eq
      (reaches.nesting_eq isRelation rfl)
    obtain ⟨k, nests, nests'⟩ := left.respaced bracketed front
      (keeps.part (by simp [Expr.parts]) fun t ht => by simp [ht])
    obtain ⟨u, reaches', -, kind, -, text⟩ :=
      reaches.respaced bracketed middle (ne_newline_of_kind isRelation rfl)
    obtain ⟨k', nestsRight, nestsRight'⟩ := right.respaced bracketed back
      (keeps.part (by simp [Expr.parts]) fun t ht => by simp [ht])
    have respaced := nests'.membership leftLevel reaches' (kind.trans isRelation)
      (text.symm ▸ spelt) nestsRight' rightLevel
    rw [text, Expr.outer_relocate, Expr.outer_relocate, ← Span.cover_relocate] at respaced
    exact ⟨_, nests.membership leftLevel reaches isRelation spelt nestsRight rightLevel, respaced⟩
  | .assign left leftLevel isTarget reaches isAssign right =>
    obtain ⟨us₁, us₂, us₃, rfl, front, middle, back⟩ := spaced.split₃ left.nesting_eq
      (reaches.nesting_eq isAssign rfl)
    obtain ⟨k, nests, nests'⟩ := left.respaced bracketed front
      (keeps.part (by simp [Expr.parts]) fun t ht => by simp [ht])
    obtain ⟨u, reaches', -, kind, -, -⟩ :=
      reaches.respaced bracketed middle (ne_newline_of_kind isAssign rfl)
    obtain ⟨k', nestsRight, nestsRight'⟩ := right.respaced bracketed back
      (keeps.part (by simp [Expr.parts]) fun t ht => by simp [ht])
    have respaced := nests'.assign leftLevel ((Expr.isTarget_relocate ..).trans isTarget) reaches'
      (kind.trans isAssign) nestsRight'
    rw [Expr.outer_relocate, Expr.outer_relocate, ← Span.cover_relocate] at respaced
    exact ⟨_, nests.assign leftLevel isTarget reaches isAssign nestsRight, respaced⟩

theorem DerivesItems.respaced {kind : TokenKind} {seg us : List Token} {es : List Expr}
    {close : Token} {depth : Nat} (h : DerivesItems source kind seg es close)
    (bracket : kind = .rbracket ∨ kind = .rparen)
    (spaced : Respaced source whole r (depth + 1) seg us)
    (keeps : ∀ e ∈ es, r.Keeps source seg e) :
    ∃ k close', NestsItems source kind k seg es close ∧
      NestsItems whole kind k us (Expr.relocateAll r es) close' ∧
      close'.span = close.span.relocate r := by
  have other : decide (kind = .newline) = false := by rcases bracket with rfl | rfl <;> rfl
  match h with
  | .done closing isClosing =>
    obtain ⟨u, closing', -, kind, span, -⟩ :=
      closing.respaced (fun _ => rfl) spaced (ne_newline_of_kind isClosing other)
    exact ⟨0, u, .done closing isClosing bracket, .done closing' (kind.trans isClosing) bracket,
      span⟩
  | .last item closing isClosing =>
    obtain ⟨us₁, us₂, rfl, front, back⟩ := spaced.split item.nesting_eq
    obtain ⟨k, nests, nests'⟩ := item.respaced (fun _ => rfl) front
      fun t ht => keeps _ List.mem_cons_self t (List.mem_append_left _ ht)
    obtain ⟨u, closing', -, kind, span, -⟩ :=
      closing.respaced (fun _ => rfl) back (ne_newline_of_kind isClosing other)
    exact ⟨k, u, .last nests closing isClosing bracket,
      .last nests' closing' (kind.trans isClosing) bracket, span⟩
  | .more item reaches isComma items =>
    obtain ⟨us₁, us₂, us₃, rfl, front, middle, back⟩ :=
      spaced.split₃ item.nesting_eq (reaches.nesting_eq isComma rfl)
    obtain ⟨k, nests, nests'⟩ := item.respaced (fun _ => rfl) front
      fun t ht => keeps _ List.mem_cons_self t (by simp [ht])
    obtain ⟨u, reaches', -, kind, -, -⟩ :=
      reaches.respaced (fun _ => rfl) middle (ne_newline_of_kind isComma rfl)
    obtain ⟨k', close', nestsItems, nestsItems', span⟩ := items.respaced bracket back
      fun e he t ht => keeps e (List.mem_cons_of_mem _ he) t (by simp [ht])
    exact ⟨_, close', .more nests reaches isComma nestsItems bracket,
      .more nests' reaches' (kind.trans isComma) nestsItems' bracket, span⟩

end

/-- A statement that is read in front of others does not go too deep. -/
theorem Nests.le_maxDepth {k level : Nat} {seg rest : List Token} {e : Expr} {es : List Expr}
    (h : Nests source false k level seg e)
    (separated : ∀ t ∈ rest.head?, t.kind.isSeparator = true)
    (read : Parser.statements source (seg ++ rest) = .ok es) : k ≤ maxDepth := by
  refine Nat.le_of_not_lt fun deep => ?_
  obtain ⟨span, refused⟩ := (h.statements separated).2 deep
  rw [refused] at read
  cases read

/-- Statements of a source are read again from what has become of their tokens, and then those
    behind them. -/
theorem DerivesProgram.statements_respaced {ts tail : List Token} {es : List Expr}
    (h : DerivesProgram source ts es) (read : statements source ts = .ok es)
    (spaced : Respaced source whole r 0 ts us) (keeps : ∀ e ∈ es, r.Keeps source ts e)
    (seam : ∀ t ∈ ts.getLast?, t.kind.isSeparator = true ∨
      ∀ u ∈ tail.head?, u.kind.isSeparator = true) :
    statements whole (us ++ tail) =
      (statements whole tail).map (Expr.relocateAll r es ++ ·) := by
  induction h generalizing us with
  | nil =>
      rw [spaced.eq_nil, List.nil_append]
      cases statements whole tail <;> rfl
  | @separator t ts es separates later ih =>
      obtain ⟨u, us, rfl, relocated, spaced⟩ := spaced.cons_of_outside
      have separates' : u.kind.isSeparator = true := relocated.kind ▸ separates
      rw [statements, if_pos separates] at read
      rw [List.cons_append, statements, if_pos separates']
      rw [TokenKind.nesting_of_separator separates] at spaced
      refine ih read spaced (fun e he v hv => keeps e he v (List.mem_cons_of_mem _ hv))
        fun v hv => seam v ?_
      cases ts with
      | nil => cases hv
      | cons w ts => exact hv
  | @last level seg e statement =>
      obtain ⟨k, nests, nests'⟩ := statement.respaced
        (fun open' => absurd open' (Nat.lt_irrefl 0)) spaced (keeps e List.mem_cons_self)
      obtain ⟨front, t, same, plain⟩ := statement.exists_concat
      have separated : ∀ u ∈ tail.head?, u.kind.isSeparator = true := by
        refine (seam t (same ▸ List.getLast?_concat)).resolve_left fun separates => ?_
        rw [plain] at separates
        cases separates
      rw [← List.append_nil seg] at read
      exact (nests'.statements separated).1 (nests.le_maxDepth (by simp) read)
  | @statement level seg ts t e es statement separates later ih =>
      obtain ⟨us₁, us', rfl, front, spaced⟩ := spaced.split statement.nesting_eq
      obtain ⟨u, us, rfl, relocated, spaced⟩ := spaced.cons_of_outside
      rw [TokenKind.nesting_of_separator separates] at spaced
      obtain ⟨k, nests, nests'⟩ := statement.respaced
        (fun open' => absurd open' (Nat.lt_irrefl 0)) front
        fun v hv => keeps e List.mem_cons_self v (List.mem_append_left _ hv)
      have separates' : u.kind.isSeparator = true := relocated.kind ▸ separates
      have separated : ∀ v ∈ (t :: ts).head?, v.kind.isSeparator = true := by
        intro v hv
        cases hv
        exact separates
      have separated' : ∀ v ∈ (u :: us ++ tail).head?, v.kind.isSeparator = true := by
        intro v hv
        cases hv
        exact separates'
      have enough := nests.le_maxDepth separated read
      rw [(nests.statements separated).1 enough, statements, if_pos separates] at read
      obtain ⟨es, readLater, same⟩ := ok_of_map read
      cases same
      have later' := ih readLater spaced (fun e he v hv => keeps e (List.mem_cons_of_mem _ he) v
        (List.mem_append_right _ (List.mem_cons_of_mem _ hv))) fun v hv => by
          refine seam v ?_
          rw [List.getLast?_append, List.getLast?_cons, hv, Option.some_or]
          rfl
      rw [List.append_assoc, (nests'.statements separated').1 enough, List.cons_append, statements,
        if_pos separates', later']
      cases statements whole tail <;> rfl

/-- A list of statements is read again from what has become of its tokens. -/
theorem statements_of_respaced {ts : List Token} {es : List Expr}
    (read : statements source ts = .ok es) (spaced : Respaced source whole r 0 ts us)
    (keeps : ∀ e ∈ es, r.Keeps source ts e) :
    statements whole us = .ok (Expr.relocateAll r es) := by
  have nothing : ∀ u ∈ ([] : List Token).head?, u.kind.isSeparator = true := nofun
  have reads := (statements_sound read).statements_respaced read spaced keeps
    fun _ _ => .inr nothing
  rw [List.append_nil, statements] at reads
  exact reads.trans (congrArg Except.ok (List.append_nil _))

end Parser

end MembershipLowering
