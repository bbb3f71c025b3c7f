import MembershipLowering.Proofs.Lowering.Outcome

/-! # Temporaries

Which membership tests store their left operand (`Expr.storing`), under which names, and
where the names end up. The printer of pieces tells what lowering writes itself from what it
copies from the source: a name of a temporary is written twice, both times by the test that
stores its operand under it.
-/

namespace MembershipLowering

namespace Expr

mutual

/-- The membership tests with an effect in an operand: a test stands in front of those in its
    operands, and those in the left operand in front of those in the right one. -/
def storing : Expr → List Expr
  | .atom _ _ => []
  | .array _ es => storingAll es
  | .call _ f es => f.storing ++ storingAll es
  | .member _ e _ | .not _ _ e => e.storing
  | .index _ l r | .binary _ l _ r | .assign _ l r => l.storing ++ r.storing
  | .membership x l r negated =>
    (if l.isPure && r.isPure then [] else [.membership x l r negated]) ++
      (l.storing ++ r.storing)

def storingAll : List Expr → List Expr
  | [] => []
  | e :: es => e.storing ++ storingAll es

end

mutual

/-- Each of them needs one temporary. -/
theorem length_storing (e : Expr) : e.storing.length = e.temporaries := by
  cases e with
  | atom => rfl
  | array x es => exact length_storingAll es
  | call x f es =>
      rw [storing, temporaries, List.length_append, length_storing f, length_storingAll es]
  | member x e name => exact length_storing e
  | not x sign e => exact length_storing e
  | index x l r | binary x l op r | assign x l r =>
      rw [storing, temporaries, List.length_append, length_storing l, length_storing r]
  | membership x l r negated =>
      rw [storing, temporaries, List.length_append, List.length_append, length_storing l,
        length_storing r, Nat.add_assoc]
      by_cases pure : (l.isPure && r.isPure) = true <;> simp [pure]

theorem length_storingAll (es : List Expr) : (storingAll es).length = temporariesAll es := by
  cases es with
  | nil => rfl
  | cons e es =>
      rw [storingAll, temporariesAll, List.length_append, length_storing e, length_storingAll es]

end

/-- Nothing is stored for pure operands. -/
theorem storing_of_isPure {e : Expr} (h : e.isPure = true) : e.storing = [] :=
  List.eq_nil_of_length_eq_zero ((length_storing e).trans (temporaries_of_isPure h))

mutual

/-- A test that stores an operand is a membership test with an effect in an operand. -/
theorem exists_of_mem_storing {e test : Expr} (h : test ∈ e.storing) :
    ∃ x l r negated, test = .membership x l r negated ∧ (l.isPure && r.isPure) = false := by
  cases e with
  | atom => cases h
  | array x es => exact exists_of_mem_storingAll (show test ∈ storingAll es from h)
  | call x f es =>
      cases List.mem_append.1 h with
      | inl h => exact exists_of_mem_storing h
      | inr h => exact exists_of_mem_storingAll h
  | member x e name => exact exists_of_mem_storing (e := e) h
  | not x sign e => exact exists_of_mem_storing (e := e) h
  | index x l r | binary x l op r | assign x l r =>
      cases List.mem_append.1 h with
      | inl h => exact exists_of_mem_storing h
      | inr h => exact exists_of_mem_storing h
  | membership x l r negated =>
      rw [storing] at h
      rcases List.mem_append.1 h with own | h
      · by_cases pure : (l.isPure && r.isPure) = true
        · rw [if_pos pure] at own
          cases own
        · rw [if_neg pure, List.mem_singleton] at own
          exact ⟨x, l, r, negated, own, by simpa using pure⟩
      · cases List.mem_append.1 h with
        | inl h => exact exists_of_mem_storing h
        | inr h => exact exists_of_mem_storing h

theorem exists_of_mem_storingAll {es : List Expr} {test : Expr} (h : test ∈ storingAll es) :
    ∃ x l r negated, test = .membership x l r negated ∧ (l.isPure && r.isPure) = false := by
  cases es with
  | nil => cases h
  | cons e es =>
      cases List.mem_append.1 h with
      | inl h => exact exists_of_mem_storing h
      | inr h => exact exists_of_mem_storingAll h

end

end Expr

namespace Printer

section Storing

open List (infix_append_of_infix_left infix_append_of_infix_right)

variable {α : Type} (p : Printer α)

/-- What a test that stores its left operand puts behind it: the receiver of the call. -/
def receiver (k : Nat) (signed : Bool) (l r : Expr) : List α :=
  p.write ", " ++ (if signed then p.write "!" else []) ++
    p.adapt r (p.around r.extent (p.body (k + 1 + l.temporaries) false r))

/-- A test with an effect in an operand stores its left operand, and is made on what it
    stored. -/
theorem body_storing {k : Nat} {signed : Bool} {x : Extent} {l r : Expr} {negated : Bool}
    (impure : (l.isPure && r.isPure) = false) :
    p.body k signed (.membership x l r negated) =
      p.write "(" ++
        p.around l.extent (p.write (p.names k) ++ p.write " = " ++ p.body (k + 1) false l) ++
        p.receiver k (negated ^^ signed) l r ++
        (p.write ".includes(" ++ p.write (p.names k) ++ p.write "))") := by
  rw [body, if_neg (by simp [impure])]
  simp only [receiver, List.append_assoc]

variable {part text : List α}

theorem infix_around {x : Extent} (h : part <:+: text) : part <:+: p.around x text :=
  infix_append_of_infix_left (infix_append_of_infix_right h)

theorem infix_adapt {receiver : Expr} (h : part <:+: text) : part <:+: p.adapt receiver text := by
  exact infix_append_of_infix_left (infix_append_of_infix_right h)

/-- A place in two lists, one behind the other. -/
theorem cases_of_getElem?_append {β : Type} {xs ys : List β} {i : Nat} {b : β}
    (h : (xs ++ ys)[i]? = some b) :
    xs[i]? = some b ∨ ∃ j, i = xs.length + j ∧ ys[j]? = some b := by
  by_cases front : i < xs.length
  · rw [List.getElem?_append_left front] at h
    exact .inl h
  · rw [List.getElem?_append_right (Nat.le_of_not_lt front)] at h
    exact .inr ⟨i - xs.length, by omega, h⟩

/-- Two operands, the right one printed when those of the left one have their names. -/
theorem infix_operands {k i : Nat} {l r test : Expr}
    (left : ∀ {i} k signed, l.storing[i]? = some test →
      ∃ sign, p.body (k + i) sign test <:+: p.body k signed l)
    (right : ∀ {i} k signed, r.storing[i]? = some test →
      ∃ sign, p.body (k + i) sign test <:+: p.body k signed r)
    (h : (l.storing ++ r.storing)[i]? = some test) :
    ∃ sign, p.body (k + i) sign test <:+: p.body k false l ∨
      p.body (k + i) sign test <:+: p.body (k + l.temporaries) false r := by
  rcases cases_of_getElem?_append h with inLeft | ⟨j, rfl, inRight⟩
  · obtain ⟨sign, found⟩ := left k false inLeft
    exact ⟨sign, .inl found⟩
  · obtain ⟨sign, found⟩ := right (k + l.temporaries) false inRight
    rw [Expr.length_storing, ← Nat.add_assoc]
    exact ⟨sign, .inr found⟩

mutual

/-- What is printed for a test that stores an operand stands in one piece in what is printed
    for the expression around it, with its own number. -/
theorem infix_body {i : Nat} {e test : Expr} (k : Nat) (signed : Bool)
    (h : e.storing[i]? = some test) :
    ∃ sign, p.body (k + i) sign test <:+: p.body k signed e := by
  cases e with
  | atom => cases h
  | array x es => exact infix_bodyAll k h
  | call x f es =>
      rw [Expr.storing] at h
      rw [body]
      rcases cases_of_getElem?_append h with first | ⟨j, rfl, later⟩
      · obtain ⟨sign, found⟩ := infix_body k false first
        exact ⟨sign, infix_append_of_infix_left (p.infix_around found)⟩
      · obtain ⟨sign, found⟩ := infix_bodyAll (k + f.temporaries) later
        rw [Expr.length_storing, ← Nat.add_assoc]
        exact ⟨sign, infix_append_of_infix_right found⟩
  | member x o name =>
      rw [Expr.storing] at h
      rw [body]
      split
      · rename_i shorthand
        obtain ⟨y, rfl, -, -⟩ := Expr.exists_of_isShorthand shorthand
        cases h
      · obtain ⟨sign, found⟩ := infix_body k false h
        exact ⟨sign, infix_append_of_infix_left (p.infix_around found)⟩
  | not x s e =>
      rw [Expr.storing] at h
      rw [body]
      split
      · obtain ⟨sign, found⟩ := infix_body k true h
        exact ⟨sign, p.infix_around found⟩
      · obtain ⟨sign, found⟩ := infix_body k false h
        split
        all_goals exact ⟨sign, infix_append_of_infix_right (p.infix_around found)⟩
  | index x l r =>
      rw [Expr.storing] at h
      rw [body]
      obtain ⟨sign, inLeft | inRight⟩ := p.infix_operands infix_body infix_body h
      · exact ⟨sign, infix_append_of_infix_left (infix_append_of_infix_left
          (infix_append_of_infix_left (p.infix_around inLeft)))⟩
      · exact ⟨sign, infix_append_of_infix_left
          (infix_append_of_infix_right (p.infix_around inRight))⟩
  | binary x l op r | assign x l r =>
      rw [Expr.storing] at h
      rw [body]
      obtain ⟨sign, inLeft | inRight⟩ := p.infix_operands infix_body infix_body h
      · exact ⟨sign, infix_append_of_infix_left
          (infix_append_of_infix_left (p.infix_around inLeft))⟩
      · exact ⟨sign, infix_append_of_infix_right (p.infix_around inRight)⟩
  | membership x l r negated =>
      rw [Expr.storing] at h
      by_cases pure : (l.isPure && r.isPure) = true
      · have both := pure
        rw [Bool.and_eq_true] at both
        rw [if_pos pure, Expr.storing_of_isPure both.1, Expr.storing_of_isPure both.2] at h
        cases h
      rw [if_neg pure] at h
      cases i with
      | zero =>
          cases h
          exact ⟨signed, List.infix_refl _⟩
      | succ i =>
          rw [p.body_storing (by simpa using pure), show k + (i + 1) = k + 1 + i by omega]
          obtain ⟨sign, inLeft | inRight⟩ := p.infix_operands infix_body infix_body h
          · exact ⟨sign, infix_append_of_infix_left (infix_append_of_infix_left
              (infix_append_of_infix_right
                (p.infix_around (infix_append_of_infix_right inLeft))))⟩
          · exact ⟨sign, infix_append_of_infix_left (infix_append_of_infix_right
              (infix_append_of_infix_right (p.infix_adapt (p.infix_around inRight))))⟩

theorem infix_bodyAll (k : Nat) {i start stop : Nat} {es : List Expr} {test : Expr}
    (h : (Expr.storingAll es)[i]? = some test) :
    ∃ sign, p.body (k + i) sign test <:+: p.bodyAll k start stop es := by
  cases es with
  | nil => cases h
  | cons e es =>
      rw [Expr.storingAll] at h
      rw [bodyAll]
      rcases cases_of_getElem?_append h with first | ⟨j, rfl, later⟩
      · obtain ⟨sign, found⟩ := infix_body k false first
        exact ⟨sign, infix_append_of_infix_left
          (infix_append_of_infix_right (p.infix_around found))⟩
      · obtain ⟨sign, found⟩ := infix_bodyAll (k + e.temporaries) later
        rw [Expr.length_storing, ← Nat.add_assoc]
        exact ⟨sign, infix_append_of_infix_right found⟩

end

theorem infix_program (k start : Nat) {i : Nat} {es : List Expr} {test : Expr}
    (h : (Expr.storingAll es)[i]? = some test) :
    ∃ sign, p.body (k + i) sign test <:+: p.program k start es := by
  induction es generalizing k i start with
  | nil => cases h
  | cons e es ih =>
      rw [Expr.storingAll] at h
      rw [program]
      rcases cases_of_getElem?_append h with first | ⟨j, rfl, later⟩
      · obtain ⟨sign, found⟩ := p.infix_body k false first
        exact ⟨sign, infix_append_of_infix_left (infix_append_of_infix_left
          (infix_append_of_infix_right (p.infix_around found)))⟩
      · obtain ⟨sign, found⟩ := ih (k + e.temporaries) e.outer.stop later
        rw [Expr.length_storing, ← Nat.add_assoc]
        exact ⟨sign, infix_append_of_infix_right found⟩

end Storing

/-- A stretch of a printed text: copied from the source, or written. -/
inductive Piece where
  | copied (start stop : Nat)
  | written (text : String)
  deriving DecidableEq

/-- The text of a piece. -/
def Piece.text (source : String) : Piece → List Char
  | .copied start stop => Text.excerpt start stop source.toList
  | .written text => text.toList

/-- The printer of pieces. -/
def pieces (source : String) (tokens : List Token) (loose : Bool) (names : Nat → String) :
    Printer Piece :=
  adapting source tokens loose names (fun start stop => [.copied start stop])
    fun text => [.written text]

/-- The pieces one behind the other are the plain text. -/
theorem flatMap_pieces (source : String) (tokens : List Token) (loose : Bool)
    (names : Nat → String) :
    (pieces source tokens loose names).flatMap (Piece.text source) =
      plain source tokens loose names := by
  simp only [pieces, flatMap_adapting, List.flatMap_singleton, Piece.text]
  rfl

section Count

variable {source : String} {tokens : List Token} {loose : Bool} {names : Nat → String}
variable {name : String}

/-- Whether a text begins as the names of temporaries do. -/
def beginsLikeName (text : String) : Bool :=
  text.toList.head? = Rule.needle.toList.head?

theorem beginsLikeName_of_mem_candidates (h : name ∈ NameSupply.candidates Rule.needle) :
    beginsLikeName name = true := by
  obtain ⟨n, -, rfl⟩ := List.mem_map.1 h
  cases n with
  | zero => rfl
  | succ n =>
      simp only [beginsLikeName, NameSupply.candidate, String.toList_append, List.head?_append]
      rfl

@[simp] theorem pieces_names (k : Nat) :
    (pieces source tokens loose names).names k = names k := rfl

theorem count_copy (start stop : Nat) :
    ((pieces source tokens loose names).copy start stop).count (.written name) = 0 := rfl

theorem count_write_name (text : String) :
    ((pieces source tokens loose names).write text).count (.written name) =
      if text = name then 1 else 0 := by
  simp [pieces, adapting, List.count_singleton]

/-- The names of temporaries begin with a letter that nothing else begins with that is
    written. -/
theorem count_write (like : beginsLikeName name = true) {text : String}
    (other : beginsLikeName text = false) :
    ((pieces source tokens loose names).write text).count (.written name) = 0 := by
  rw [count_write_name, if_neg]
  rintro rfl
  rw [like] at other
  cases other

/-- How often a name is to be written for the temporaries from number `k` on. -/
def uses (names : Nat → String) (name : String) (k count : Nat) : Nat :=
  2 * (List.range' k count).countP (names · = name)

theorem uses_add (k m n : Nat) :
    uses names name k (m + n) = uses names name k m + uses names name (k + m) n := by
  simp only [uses, ← List.range'_append_1, List.countP_append, Nat.mul_add]

theorem uses_one (k : Nat) : uses names name k 1 = 2 * if names k = name then 1 else 0 := by
  simp [uses, List.range'_one, List.countP_singleton]

theorem beginsLikeName_javaScript (op : BinaryOperator) : beginsLikeName op.javaScript = false := by
  cases op <;> decide

theorem count_around {x : Extent} {text : List Piece} :
    ((pieces source tokens loose names).around x text).count (.written name) =
      text.count (.written name) := by
  simp only [around, List.count_append, count_copy, Nat.zero_add, Nat.add_zero]

theorem count_operatorGap (like : beginsLikeName name = true) {start stop : Nat}
    {op : BinaryOperator} :
    ((pieces source tokens loose names).operatorGap start stop op).count (.written name) = 0 := by
  rw [operatorGap]
  split
  · simp only [List.count_append, count_copy, count_write like (beginsLikeName_javaScript op)]
  · exact count_copy _ _

theorem count_adapt (like : beginsLikeName name = true) {receiver : Expr} {text : List Piece} :
    ((pieces source tokens loose names).adapt receiver text).count (.written name) =
      text.count (.written name) := by
  have plain : ∀ text ∈ Adaptation.texts, beginsLikeName text = false := by decide
  have front :
      ((pieces source tokens loose names).front receiver.form).count (.written name) = 0 := by
    rcases Adaptation.front_cases (.decide receiver.form loose)
      (pieces source tokens loose names).write with nothing | ⟨text, isText, written⟩
    · exact congrArg (List.count _) nothing
    · exact (congrArg (List.count _) written).trans (count_write like (plain text isText))
  have back :
      ((pieces source tokens loose names).back receiver.form).count (.written name) = 0 := by
    rcases Adaptation.back_cases (.decide receiver.form loose)
      (pieces source tokens loose names).write with nothing | ⟨text, isText, written⟩
    · exact congrArg (List.count _) nothing
    · exact (congrArg (List.count _) written).trans (count_write like (plain text isText))
  rw [adapt, List.count_append, List.count_append, front, back, Nat.zero_add, Nat.add_zero]

theorem count_semicolon (like : beginsLikeName name = true) {offset : Nat} :
    ((pieces source tokens loose names).semicolon offset).count (.written name) = 0 := by
  rw [semicolon]
  split
  · rfl
  · exact count_write like (by decide)

theorem count_sign (like : beginsLikeName name = true) {signed : Bool} :
    (if signed = true then (pieces source tokens loose names).write "!" else []).count
      (.written name) = 0 := by
  split
  · exact count_write like (by decide)
  · rfl

mutual

/-- A name is written twice for each temporary that bears it. -/
theorem count_body (like : beginsLikeName name = true) {k : Nat} {signed : Bool} {e : Expr} :
    ((pieces source tokens loose names).body k signed e).count (.written name) =
      uses names name k e.temporaries := by
  cases e with
  | atom x a =>
      cases a with
      | this =>
          rw [body]
          split
          · exact count_write like (by decide)
          · exact count_copy _ _
      | _ => exact count_copy _ _
  | array x es => exact countAll_body like
  | call x f es =>
      simp only [body, Expr.temporaries, List.count_append, count_around, count_body like,
        countAll_body like, uses_add]
  | member x o n =>
      rw [body]
      split
      · rename_i shorthand
        obtain ⟨y, rfl, -, -⟩ := Expr.exists_of_isShorthand shorthand
        rw [List.count_append, count_write like (by decide), count_copy]
        rfl
      · rw [List.count_append, count_around, count_copy, Nat.add_zero]
        exact count_body like
  | not x s e =>
      rw [body, Expr.temporaries]
      split
      · rw [count_around, count_body like]
      · split
        · rw [List.count_append, count_copy, count_around, count_body like, Nat.zero_add]
        · rw [List.count_append, count_write like (by decide), count_around, count_body like,
            Nat.zero_add]
  | index x l r | assign x l r =>
      simp only [body, Expr.temporaries, List.count_append, count_around, count_body like,
        count_copy, uses_add, Nat.add_zero]
  | binary x l op r =>
      simp only [body, Expr.temporaries, List.count_append, count_around, count_body like,
        count_operatorGap like, uses_add, Nat.add_zero]
  | membership x l r negated =>
      have sign : (if (negated ^^ signed) = true then
          (pieces source tokens loose names).write "!" else []).count (.written name) = 0 :=
        count_sign like
      have text : ∀ {t : String}, beginsLikeName t = false →
          ((pieces source tokens loose names).write t).count (.written name) = 0 :=
        count_write like
      by_cases pure : (l.isPure && r.isPure) = true
      · have both := pure
        rw [Bool.and_eq_true] at both
        rw [body, if_pos pure]
        simp only [List.count_append, sign, count_adapt like, count_around, count_body like,
          text (t := ".includes(") (by decide), text (t := ")") (by decide)]
        simp [Expr.temporaries, pure, Expr.temporaries_of_isPure both.1,
          Expr.temporaries_of_isPure both.2, uses]
      · rw [body_storing _ (by simpa using pure), Expr.temporaries, if_neg pure, uses_add, uses_add,
          uses_one]
        simp only [receiver, pieces_names, Nat.add_assoc k 1, List.count_append, sign,
          count_adapt like, count_around, count_body like, count_write_name,
          text (t := "(") (by decide),
          text (t := " = ") (by decide), text (t := ", ") (by decide),
          text (t := ".includes(") (by decide), text (t := "))") (by decide)]
        omega

theorem countAll_body (like : beginsLikeName name = true) {k start stop : Nat}
    {es : List Expr} :
    ((pieces source tokens loose names).bodyAll k start stop es).count (.written name) =
      uses names name k (Expr.temporariesAll es) := by
  cases es with
  | nil => rfl
  | cons e es =>
      simp only [bodyAll, Expr.temporariesAll, List.count_append, count_around, count_body like,
        countAll_body like, count_copy, uses_add, Nat.zero_add]

end

theorem count_program (like : beginsLikeName name = true) {k start : Nat} {es : List Expr} :
    ((pieces source tokens loose names).program k start es).count (.written name) =
      uses names name k (Expr.temporariesAll es) := by
  induction es generalizing k start with
  | nil => rfl
  | cons e es ih =>
      simp only [program, Expr.temporariesAll, List.count_append, count_around,
        count_body like, count_semicolon like, ih, count_copy, uses_add, Nat.zero_add,
        Nat.add_zero]

/-- Different temporaries have different names. -/
theorem uses_of_nodup {bindings : List String} {i : Nat} (nodup : bindings.Nodup)
    (h : bindings[i]? = some name) :
    uses (bindings.getD · "") name 0 bindings.length = 2 := by
  have all : (List.range' 0 bindings.length).map (bindings.getD · "") = bindings := by
    refine List.ext_getElem (by simp) fun j _ inside => ?_
    simp [inside]
  have once : bindings.count name = 1 := nodup.count.trans (if_pos (List.mem_of_getElem? h))
  rw [← all, List.count_eq_countP, List.countP_map] at once
  rw [uses]
  exact congrArg (2 * ·) once

end Count

/-- A test that stores its left operand has been printed with the temporary number `i`: the
    name stands once in front of the left operand and once in the call, and nowhere else is
    it written. -/
inductive Stores (p : Printer Piece) (i : Nat) (text : List Piece) : Expr → Prop where
  | intro {front back : List Piece} {x : Extent} {l r : Expr} {negated signed : Bool}
      (placed : text = front ++ p.body i signed (.membership x l r negated) ++ back)
      (shape : p.body i signed (.membership x l r negated) =
        [.written "("] ++
          p.around l.extent ([.written (p.names i), .written " = "] ++ p.body (i + 1) false l) ++
          p.receiver i (negated ^^ signed) l r ++
          [.written ".includes(", .written (p.names i), .written "))"])
      (before : .written (p.names i) ∉ front)
      (stored : .written (p.names i) ∉ p.body (i + 1) false l)
      (between : .written (p.names i) ∉ p.receiver i (negated ^^ signed) l r)
      (behind : .written (p.names i) ∉ back) : Stores p i text (.membership x l r negated)

/-- A name that is written twice is written by its own test. -/
theorem stores_of_count {source : String} {tokens : List Token} {loose : Bool}
    {names : Nat → String} {i : Nat} {es : List Expr} {test : Expr}
    (found : (Expr.storingAll es)[i]? = some test) (like : beginsLikeName (names i) = true)
    (twice : ((pieces source tokens loose names).program 0 0 es).count (.written (names i)) = 2) :
    (pieces source tokens loose names).Stores i
      ((pieces source tokens loose names).program 0 0 es) test := by
  obtain ⟨x, l, r, negated, rfl, impure⟩ :=
    Expr.exists_of_mem_storingAll (List.mem_of_getElem? found)
  obtain ⟨signed, front, back, placed⟩ :=
    (pieces source tokens loose names).infix_program 0 0 found
  rw [Nat.zero_add] at placed
  have shape : (pieces source tokens loose names).body i signed (.membership x l r negated) = _ :=
    body_storing _ impure
  have counted := congrArg (List.count (.written (names i))) (placed.trans rfl)
  rw [twice, shape] at counted
  simp only [List.count_append, count_around, count_write_name, pieces_names,
    count_write like (show beginsLikeName "(" = false by decide),
    count_write like (show beginsLikeName " = " = false by decide),
    count_write like (show beginsLikeName ".includes(" = false by decide),
    count_write like (show beginsLikeName "))" = false by decide), if_true] at counted
  refine .intro placed.symm shape ?_ ?_ ?_ ?_
  all_goals
    rw [← List.count_eq_zero, pieces_names]
    omega

/-- With as many names as there are tests that store, all different, every test has its own. -/
theorem stores_program {source : String} {tokens : List Token} {loose : Bool} {es : List Expr}
    {bindings : List String} (length : bindings.length = Expr.temporariesAll es)
    (nodup : bindings.Nodup) (like : ∀ name ∈ bindings, beginsLikeName name = true) {i : Nat}
    {test : Expr} (found : (Expr.storingAll es)[i]? = some test) :
    (pieces source tokens loose (bindings.getD · "")).Stores i
      ((pieces source tokens loose (bindings.getD · "")).program 0 0 es) test := by
  have inside : i < bindings.length := by
    rw [length, ← Expr.length_storingAll]
    exact (List.getElem?_eq_some_iff.1 found).1
  have name : bindings[i]? = some (bindings.getD i "") := by simp [inside]
  have likeName := like _ (List.mem_of_getElem? name)
  refine stores_of_count found likeName ?_
  rw [count_program likeName, ← length]
  exact uses_of_nodup nodup name

end Printer

/-- The temporaries of a source that is not too deep: as many as there are tests with an
    effect in an operand, in the order of these tests, their names being the first ones that
    no identifier of the source bears. If these do not suffice, there is no output. -/
theorem lowerSource_temporaries {source : String} {o : Options} {tokens : List Token}
    {es : List Expr} (read : Token.readAll source = .ok tokens)
    (parsed : Parser.statements source tokens = .ok es)
    (shallow : ∀ n, lowerSource source o ≠ .error (.tooDeep n)) :
    let free := (NameSupply.candidates Rule.needle).filter
      (· ∉ (Document.ofStatements source tokens es).identifiers)
    let tests := Expr.storingAll es
    let names := free.take tests.length
    let p := Printer.pieces source tokens o.looseIncludes (names.getD · "")
    (tests.length ≤ free.length →
      (∃ code, lowerSource source o = .ok ⟨code, names⟩ ∧
        code.toList = (p.program 0 0 es).flatMap (Printer.Piece.text source)) ∧
      ∀ i test, tests[i]? = some test → p.Stores i (p.program 0 0 es) test) ∧
    (free.length < tests.length →
      lowerSource source o = .error (.namesExhausted Rule.needle)) := by
  intro free tests names p
  have count : tests.length = Expr.temporariesAll es := Expr.length_storingAll es
  constructor
  · intro enough
    have nodup : free.Nodup := (NameSupply.candidates_nodup Rule.needle).sublist
      List.filter_sublist
    have bound : names.length = tests.length := List.length_take_of_le enough
    constructor
    · obtain ⟨out, lowered, bindings, code⟩ :=
        lowerSource_of_enough read parsed shallow (count ▸ enough)
      have named : out.bindings = names := bindings.trans (congrArg free.take count.symm)
      refine ⟨out.code, by rw [lowered, ← named], ?_⟩
      rw [← Printer.flatMap_program, Printer.flatMap_pieces, ← named]
      exact code
    · intro i test found
      refine Printer.stores_program (bound.trans count) (nodup.sublist (List.take_sublist _ _))
        (fun name isName => ?_) found
      have isFree : name ∈ free := List.mem_of_mem_take isName
      exact Printer.beginsLikeName_of_mem_candidates (List.mem_filter.1 isFree).1
  · intro few
    have supplied : (NameSupply.avoiding
        (Document.ofStatements source tokens es).identifiers).free Rule.needle = free :=
      NameSupply.free_avoiding _ _
    have none := NameSupply.advance?_eq_none (supplied.symm ▸ few)
    have ends := Document.ends_lower o read parsed
    rw [← lowerSource_of_statements o read parsed, ← count] at ends
    generalize ran : lowerSource source o = result at ends
    cases ends with
    | done _ advanced _ => exact absurd (none.symm.trans advanced) (by simp)
    | tooDeep deep => exact absurd ran (shallow _)
    | exhausted => rfl

theorem lowerSource_temporaries_nested :
    ∃ tokens es p, Token.readAll "(f() in needle) in g()" = .ok tokens ∧
      Parser.statements "(f() in needle) in g()" tokens = .ok es ∧
      lowerSource "(f() in needle) in g()" .standard = .ok
        ⟨"((needle1 = (needle2 = f(), Array.from(needle).includes(needle2))), " ++
          "Array.from(g()).includes(needle1));", ["needle1", "needle2"]⟩ ∧
      p = Printer.pieces "(f() in needle) in g()" tokens false (["needle1", "needle2"].getD · "") ∧
      (Expr.storingAll es).length = 2 ∧
      ∀ i test, (Expr.storingAll es)[i]? = some test → p.Stores i (p.program 0 0 es) test := by
  obtain ⟨tokens, read, es, parsed, low, two, free, code⟩ :
      ∃ tokens, Token.readAll "(f() in needle) in g()" = .ok tokens ∧
        ∃ es, Parser.statements "(f() in needle) in g()" tokens = .ok es ∧
          Expr.levelsAll "(f() in needle) in g()" es ≤ maxDepth ∧
          (Expr.storingAll es).length = 2 ∧
          ((NameSupply.candidates Rule.needle).filter
            (· ∉ (Document.ofStatements "(f() in needle) in g()" tokens es).identifiers)).take 2 =
              ["needle1", "needle2"] ∧
          ((Printer.pieces "(f() in needle) in g()" tokens false
            (["needle1", "needle2"].getD · "")).program 0 0 es).flatMap
              (Printer.Piece.text "(f() in needle) in g()") =
              ("((needle1 = (needle2 = f(), Array.from(needle).includes(needle2))), " ++
                "Array.from(g()).includes(needle1));").toList := by
    decide +kernel
  have enough := congrArg List.length free
  rw [List.length_take] at enough
  obtain ⟨⟨text, lowered, printed⟩, stores⟩ := (lowerSource_temporaries read parsed
    (lowerSource_ne_tooDeep .standard read parsed low)).1 (by
      rw [two]
      exact Nat.le_trans (Nat.le_of_eq enough.symm) (Nat.min_le_right _ _))
  rw [two, free] at lowered printed stores
  refine ⟨tokens, es, _, read, parsed, ?_, rfl, two, stores⟩
  rw [lowered, String.toList_injective (printed.trans code)]

end MembershipLowering
