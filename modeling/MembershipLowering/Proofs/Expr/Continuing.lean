import MembershipLowering.Proofs.Expr.Covering
import MembershipLowering.Proofs.Token.Respelling

/-! # How readers go on

The readers are loops that extend what has been read so far. So what a stretch of tokens reads
as is not what `unary` returns but where its loop is left standing, and likewise for the
operators; only the assignment has a result of its own (`ReadsChain`, `ReadsOperand`,
`ReadsAssignment`). Each reading says how many levels of nesting it takes, and that with one
less the readers find the nesting too deep (`Continues`). Nothing behind the stretch may go on
with it (`Leaves`).
-/

namespace MembershipLowering.Parser

/-- With enough levels the result is what `next` makes of the value and the tokens behind it;
    otherwise the nesting is too deep. -/
structure Continues {α β : Type} {ts : List Token} (enough : Prop)
    (result : Except ParseError β) (next : Reading α ts → Except ParseError β) (value : α)
    (rest : List Token) : Prop where
  reads : enough → ∃ shorter, result = next ⟨value, rest, shorter⟩
  refuses : ¬enough → ∃ span, result = .error ⟨.tooDeep, span⟩

/-- With enough levels the result is the value and the tokens behind it. -/
abbrev Takes {α : Type} {ts : List Token} (enough : Prop)
    (result : Except ParseError (Reading α ts)) (value : α) (rest : List Token) : Prop :=
  Continues enough result .ok value rest

section Continues

variable {α β γ : Type} {ts : List Token} {first second : Prop}

theorem Takes.of_eq {value : α} {rest : List Token} {result : Except ParseError (Reading α ts)}
    (always : first) (shorter : rest.length < ts.length)
    (same : result = .ok ⟨value, rest, shorter⟩) : Takes first result value rest :=
  ⟨fun _ => ⟨shorter, same⟩, fun few => absurd always few⟩

theorem Continues.congr {result : Except ParseError β} {next : Reading α ts → Except ParseError β}
    {value : α} {rest : List Token} (h : Continues first result next value rest)
    (same : first ↔ second) : Continues second result next value rest :=
  ⟨fun enough => h.reads (same.2 enough), fun few => h.refuses (mt same.1 few)⟩

/-- One stretch behind the other. -/
theorem Continues.trans {us : List Token} {result : Except ParseError γ}
    {next : Reading α ts → Except ParseError γ} {next' : Reading β us → Except ParseError γ}
    {value : α} {value' : β} {rest rest' : List Token}
    (h : Continues first result next value rest)
    (h' : ∀ shorter, Continues second (next ⟨value, rest, shorter⟩) next' value' rest') :
    Continues (first ∧ second) result next' value' rest' where
  reads enough := by
    obtain ⟨shorter, same⟩ := h.reads enough.1
    obtain ⟨shorter', same'⟩ := (h' shorter).reads enough.2
    exact ⟨shorter', same.trans same'⟩
  refuses few := by
    by_cases here : first
    · obtain ⟨shorter, same⟩ := h.reads here
      obtain ⟨span, refused⟩ := (h' shorter).refuses fun later => few ⟨here, later⟩
      exact ⟨span, same.trans refused⟩
    · exact h.refuses here

theorem Takes.map {us : List Token} {value : α} {value' : β} {rest rest' : List Token}
    {result : Except ParseError (Reading α ts)} (h : Takes first result value rest)
    (f : Reading α ts → Reading β us)
    (same : ∀ shorter, ∃ shorter', f ⟨value, rest, shorter⟩ = ⟨value', rest', shorter'⟩) :
    Takes first (result.map f) value' rest' where
  reads enough := by
    obtain ⟨shorter, read⟩ := h.reads enough
    obtain ⟨shorter', same⟩ := same shorter
    exact ⟨shorter', by rw [read]; exact congrArg Except.ok same⟩
  refuses few := by
    obtain ⟨span, refused⟩ := h.refuses few
    exact ⟨span, by rw [refused]; rfl⟩

/-- What goes on with a result and passes errors on. -/
theorem Takes.continues {us : List Token} {value : α} {value' : β} {rest rest' : List Token}
    {next : Reading β us → Except ParseError γ} {result : Except ParseError (Reading α ts)}
    {whole : Except ParseError γ} (h : Takes first result value rest)
    (ok : ∀ shorter, result = .ok ⟨value, rest, shorter⟩ →
      ∃ shorter', whole = next ⟨value', rest', shorter'⟩)
    (error : ∀ e, result = .error e → whole = .error e) :
    Continues first whole next value' rest' where
  reads enough := by
    obtain ⟨shorter, read⟩ := h.reads enough
    exact ok shorter read
  refuses few := by
    obtain ⟨span, refused⟩ := h.refuses few
    exact ⟨span, error _ refused⟩

/-- What takes a second stretch behind a first one and passes errors on. -/
theorem Takes.then {us : List Token} {value : α} {value' : β} {rest rest' : List Token}
    {next : Reading β us → Except ParseError γ} {result : Except ParseError (Reading α ts)}
    {whole : Except ParseError γ} (h : Takes first result value rest)
    (ok : ∀ shorter, result = .ok ⟨value, rest, shorter⟩ →
      Continues second whole next value' rest')
    (error : ∀ e, result = .error e → whole = .error e) :
    Continues (first ∧ second) whole next value' rest' where
  reads enough := by
    obtain ⟨shorter, read⟩ := h.reads enough.1
    exact (ok shorter read).reads enough.2
  refuses few := by
    by_cases here : first
    · obtain ⟨shorter, read⟩ := h.reads here
      exact (ok shorter read).refuses fun later => few ⟨here, later⟩
    · obtain ⟨span, refused⟩ := h.refuses here
      exact ⟨span, error _ refused⟩

/-- The last step changes nothing any more. -/
theorem Continues.takes {value : α} {rest : List Token}
    {next : Reading α ts → Except ParseError (Reading α ts)}
    {result : Except ParseError (Reading α ts)} (h : Continues first result next value rest)
    (last : ∀ shorter, next ⟨value, rest, shorter⟩ = .ok ⟨value, rest, shorter⟩) :
    Takes first result value rest where
  reads enough := by
    obtain ⟨shorter, same⟩ := h.reads enough
    exact ⟨shorter, same.trans (last shorter)⟩
  refuses := h.refuses

end Continues

/-- Tokens that go on with no expression of the given level. -/
structure Leaves (source : String) (inside : Bool) (level : Nat) (ts : List Token) : Prop where
  unnamed : ∀ t ∈ ts.head?, t.kind ≠ .identifier
  closed : ∀ t, next? inside ts = some t → t.value.kind ∉ [.dot, .lbracket, .lparen]
  stops : StopsAt source inside level ts

variable {source : String} {inside : Bool}

theorem Reaches.next? {t : Token} {seg : List Token} (h : Reaches inside t seg)
    (kind : t.kind ≠ .newline) (rest : List Token) :
    ∃ shorter, next? inside (seg ++ rest) = some ⟨t, rest, shorter⟩ := by
  induction h with
  | here =>
      refine ⟨by simp, ?_⟩
      simp only [List.singleton_append, Parser.next?, kind, decide_false, Bool.and_false]
      rfl
  | @later u seg bracketed newline reaches ih =>
      obtain ⟨shorter, read⟩ := ih
      refine ⟨by simp only [List.length_append, List.length_cons] at shorter ⊢; omega, ?_⟩
      simp only [List.cons_append, Parser.next?, bracketed, newline, decide_true, Bool.and_true,
        if_true]
      rw [← bracketed, read]
      rfl

theorem Reaches.next?_of_split {t : Token} {seg ts rest : List Token} (h : Reaches inside t seg)
    (kind : t.kind ≠ .newline) (split : ts = seg ++ rest) :
    ∃ shorter, Parser.next? inside ts = some ⟨t, rest, shorter⟩ := by
  subst split
  exact h.next? kind rest

theorem Reaches.unnamed {t : Token} {seg : List Token} (h : Reaches inside t seg)
    (kind : t.kind ≠ .identifier) (rest : List Token) :
    ∀ u ∈ (seg ++ rest).head?, u.kind ≠ .identifier := by
  intro u hu
  cases h with
  | here => cases hu; exact kind
  | later bracketed newline reaches => cases hu; simp [newline]

/-- A token that is neither a name nor opens anything goes on with nothing tighter. -/
theorem Reaches.leaves {t : Token} {seg : List Token} {level : Nat} (h : Reaches inside t seg)
    (kind : t.kind ∉ [.identifier, .newline, .dot, .lbracket, .lparen])
    (loose : ∀ own, level? source t = some own → own ≤ level) (rest : List Token) :
    Leaves source inside level (seg ++ rest) := by
  simp only [List.mem_cons, List.not_mem_nil, or_false, not_or] at kind
  obtain ⟨shorter, next⟩ := h.next? kind.2.1 rest
  refine ⟨h.unnamed kind.1 rest, fun u hu => ?_, fun u hu own leveled => ?_⟩
  · cases next.symm.trans hu
    simpa using kind.2.2
  · cases next.symm.trans hu
    exact loose own leveled

theorem Leaves.mono {level level' : Nat} {ts : List Token} (h : Leaves source inside level ts)
    (tighter : level ≤ level') : Leaves source inside level' ts :=
  ⟨h.unnamed, h.closed, fun t next own leveled => Nat.le_trans (h.stops t next own leveled) tighter⟩

section Readers

variable {k level : Nat} {seg : List Token} {e : Expr}

/-- No assignment comes next. -/
def Unassigned (inside : Bool) (ts : List Token) : Prop :=
  ∀ t, next? inside ts = some t → t.value.kind ≠ .assign

/-- The stretch is read up to where further accesses and calls may follow. -/
def ReadsChain (source : String) (inside : Bool) (k : Nat) (seg : List Token) (e : Expr) : Prop :=
  ∀ n rest, (∀ t ∈ rest.head?, t.kind ≠ .identifier) →
    Continues (k ≤ n + 1) (unary source (nested source n) inside (seg ++ rest))
      (postfixes source (nested source n) inside) e rest

def ReadsUnary (source : String) (inside : Bool) (k : Nat) (seg : List Token) (e : Expr) : Prop :=
  ∀ n rest, Leaves source inside 7 rest →
    Takes (k ≤ n + 1) (unary source (nested source n) inside (seg ++ rest)) e rest

/-- The stretch is read up to where further operators may follow. -/
def ReadsOperand (source : String) (inside : Bool) (k level : Nat) (seg : List Token) (e : Expr) :
    Prop :=
  ∀ n least rest, least < level → Leaves source inside level rest →
    Continues (k ≤ n + 1) (operand source (nested source n) least inside (seg ++ rest))
      (operators source (nested source n) least inside) e rest

def ReadsAssignment (source : String) (inside : Bool) (k : Nat) (seg : List Token) (e : Expr) :
    Prop :=
  ∀ n rest, Leaves source inside 0 rest → Unassigned inside rest →
    Takes (k ≤ n + 1) (assignment source (nested source n) inside (seg ++ rest)) e rest

theorem postfixes_of_leaves {inner : Nested} {ts : List Token} {object : Reading Expr ts}
    (h : Leaves source inside level object.rest) :
    postfixes source inner inside object = .ok object := by
  unfold postfixes
  split
  · rfl
  · rename_i t next
    have closed := h.closed t next
    simp only [List.mem_cons, List.not_mem_nil, or_false, not_or] at closed
    rw [if_neg closed.1, if_neg closed.2.1, if_neg (fun h => closed.2.2 h.1)]

theorem operators_of_stopsAt {inner : Nested} {ts : List Token} {left : Reading Expr ts}
    (h : StopsAt source inside level left.rest) :
    operators source inner level inside left = .ok left := by
  unfold operators
  split
  · rfl
  · rename_i t next
    split
    · rfl
    · rename_i own leveled
      rw [if_pos (h t next own leveled)]

theorem ReadsChain.unary (h : ReadsChain source inside k seg e) :
    ReadsUnary source inside k seg e := by
  intro n rest leaves
  exact (h n rest leaves.unnamed).takes fun _ => postfixes_of_leaves leaves

theorem ReadsUnary.operand (h : ReadsUnary source inside k seg e) :
    ReadsOperand source inside k level seg e := by
  intro n least rest _ leaves
  have stops : StopsAt source inside 7 rest := fun t _ own leveled =>
    Nat.le_of_lt (level?_lt leveled)
  exact (h n rest ⟨leaves.unnamed, leaves.closed, stops⟩).continues
    (fun shorter read => ⟨shorter, by rw [Parser.operand, read]⟩)
    (fun e refused => by rw [Parser.operand, refused])

/-- Behind an operand no operator of its level is left. -/
theorem ReadsOperand.takes (h : ReadsOperand source inside k level seg e) {least : Nat}
    (tighter : least < level) (n : Nat) {rest : List Token}
    (leaves : Leaves source inside least rest) :
    Takes (k ≤ n + 1) (operand source (nested source n) least inside (seg ++ rest)) e rest :=
  (h n least rest tighter (leaves.mono (Nat.le_of_lt tighter))).takes fun _ =>
    operators_of_stopsAt leaves.stops

theorem ReadsOperand.assignment (h : ReadsOperand source inside k level seg e)
    (positive : 0 < level) : ReadsAssignment source inside k seg e := by
  intro n rest leaves unassigned
  refine (h.takes positive n leaves).continues (fun shorter read => ⟨shorter, ?_⟩)
    (fun e refused => by rw [Parser.assignment, refused])
  rw [Parser.assignment, read]
  simp only
  split
  · rfl
  · rename_i t next
    rw [if_pos (unassigned t next)]

/-- One level further in. -/
theorem nested_takes {ts : List Token} {value : Expr} {rest : List Token} (positive : 0 < k)
    (get : (inner : Nested) → Except ParseError (Reading Expr ts))
    (refuses : ∃ span, get (nested source 0) = .error ⟨.tooDeep, span⟩)
    (reads : ∀ n, Takes (k ≤ n + 1) (get (nested source (n + 1))) value rest) (n : Nat) :
    Takes (k ≤ n) (get (nested source n)) value rest := by
  cases n with
  | zero => exact ⟨fun enough => by omega, fun _ => refuses⟩
  | succ n => exact reads n

end Readers

/-- A derivation that takes `k` levels of nesting to read. -/
structure Nests (source : String) (inside : Bool) (k level : Nat) (seg : List Token) (e : Expr) :
    Prop where
  derives : Derives source inside level seg e
  positive : 0 < k
  chain : level = 8 → ReadsChain source inside k seg e
  unary : 7 ≤ level → ReadsUnary source inside k seg e
  operand : 0 < level → ReadsOperand source inside k level seg e
  assignment : ReadsAssignment source inside k seg e

/-- Items that take `k` levels of nesting to read. -/
structure NestsItems (source : String) (kind : TokenKind) (k : Nat) (seg : List Token)
    (es : List Expr) (close : Token) : Prop where
  derives : DerivesItems source kind seg es close
  reads : ∀ what n rest,
    Takes (k ≤ n) (items source (nested source n) kind what (seg ++ rest)) (es, close) rest

namespace Nests

variable {k level : Nat} {seg : List Token} {e : Expr}

theorem of_chain (derives : Derives source inside 8 seg e) (positive : 0 < k)
    (h : ReadsChain source inside k seg e) : Nests source inside k 8 seg e :=
  have operand : ReadsOperand source inside k 8 seg e := h.unary.operand
  ⟨derives, positive, fun _ => h, fun _ => h.unary, fun _ => operand,
    operand.assignment (by decide)⟩

theorem of_unary (derives : Derives source inside 7 seg e) (positive : 0 < k)
    (h : ReadsUnary source inside k seg e) : Nests source inside k 7 seg e :=
  have operand : ReadsOperand source inside k 7 seg e := h.operand
  ⟨derives, positive, nofun, fun _ => h, fun _ => operand, operand.assignment (by decide)⟩

theorem of_operand (derives : Derives source inside level seg e) (positive : 0 < k)
    (loose : level < 7) (tight : 0 < level) (h : ReadsOperand source inside k level seg e) :
    Nests source inside k level seg e :=
  ⟨derives, positive, fun same => by omega, fun tighter => by omega, fun _ => h,
    h.assignment tight⟩

theorem of_assignment (derives : Derives source inside 0 seg e) (positive : 0 < k)
    (h : ReadsAssignment source inside k seg e) : Nests source inside k 0 seg e :=
  ⟨derives, positive, nofun, nofun, nofun, h⟩

/-- Reading an assignment one level further in. -/
theorem nested_assignment (h : Nests source inside k level seg e) (n : Nat) {rest : List Token}
    (leaves : Leaves source inside 0 rest) (unassigned : Unassigned inside rest) :
    Takes (k ≤ n) ((nested source n).assignment inside (seg ++ rest)) e rest :=
  nested_takes h.positive (·.assignment inside _) ⟨_, rfl⟩
    (fun n => h.assignment n rest leaves unassigned) n

end Nests

/-- The first token that is not passed over may begin an operand. -/
def Begins (inside : Bool) (seg : List Token) : Prop :=
  ∃ t front back, seg = front ++ back ∧ Reaches inside t front ∧ t.kind.beginsOperand = true

theorem Reaches.begins {t : Token} {seg : List Token} (h : Reaches inside t seg)
    (begins : t.kind.beginsOperand = true) : Begins inside seg :=
  ⟨t, seg, [], (List.append_nil _).symm, h, begins⟩

theorem Begins.append {seg : List Token} (h : Begins inside seg) (seg' : List Token) :
    Begins inside (seg ++ seg') := by
  obtain ⟨t, front, back, rfl, reaches, begins⟩ := h
  exact ⟨t, front, back ++ seg', List.append_assoc .., reaches, begins⟩

theorem Begins.next? {seg : List Token} (h : Begins inside seg) (rest : List Token) :
    ∃ t, Parser.next? inside (seg ++ rest) = some t ∧ t.value.kind.beginsOperand = true := by
  obtain ⟨t, front, back, rfl, reaches, begins⟩ := h
  have other : t.kind ≠ .newline := fun kind => by rw [kind] at begins; cases begins
  obtain ⟨shorter, next⟩ := reaches.next?_of_split other (List.append_assoc front back rest)
  exact ⟨_, next, begins⟩

theorem beginsOperand_of_atom? {kind : TokenKind} {a : Atom} (h : atom? kind = some a) :
    kind.beginsOperand = true ∧ kind ≠ .not := by
  cases kind <;> first | cases h; done | exact ⟨rfl, by decide⟩

theorem not_isSeparator_of_beginsOperand {kind : TokenKind} (h : kind.beginsOperand = true) :
    kind.isSeparator = false := by
  cases kind <;> first | rfl | cases h

theorem Derives.begins {inside : Bool} {level : Nat} {seg : List Token} {e : Expr}
    (h : Derives source inside level seg e) : Begins inside seg := by
  match h with
  | .atom reaches known => exact reaches.begins (beginsOperand_of_atom? known).1
  | .shorthand reaches known .. =>
    exact (reaches.begins (beginsOperand_of_atom? known).1).append _
  | .array opening isOpening _ => exact (opening.begins (by rw [isOpening]; rfl)).append _
  | .parenthesized opening isOpening .. =>
    exact ((opening.begins (by rw [isOpening]; rfl)).append _).append _
  | .not reaches isNot .. => exact (reaches.begins (by rw [isNot]; rfl)).append _
  | .member left .. | .call left .. | .binary left .. | .membership left .. | .assign left .. =>
    exact (left.begins.append _).append _
  | .index left .. => exact ((left.begins.append _).append _).append _

end MembershipLowering.Parser
