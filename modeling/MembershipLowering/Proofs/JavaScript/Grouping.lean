import MembershipLowering.Expr.Operator

/-! # How JavaScript groups operators

The part of JavaScript that lowered code without membership tests is written in, as a grammar
over the texts of its tokens (`Groups`). The levels are those of JavaScript, from loosest to
tightest: `=`; `||`; `&&`; `===` and `!==`; the orderings and `instanceof`; sums; products;
`!`; calls and member access. Binary levels group to the left. Parentheses are kept in the tree,
but only one pair where there are several.

What is grouped fits the levels (`Groups.fits`). The grammar is unambiguous: a machine that reads
the texts from left to right, with a stack of what has been begun, finds the tree of every
derivation (`Groups.yields`), so no text has two (`Groups.unique`, `Program.unique`).
-/

namespace MembershipLowering

/-- Binding strength in JavaScript, where orderings bind tighter than equality. -/
def BinaryOperator.javaScriptLevel : BinaryOperator → Nat
  | or => 1
  | and => 2
  | equal | notEqual => 3
  | lessThan | lessThanOrEqual | greaterThan | greaterThanOrEqual | instanceOf => 4
  | add | subtract => 5
  | multiply | divide | modulo => 6

namespace JavaScript

/-- Expressions of JavaScript, without their places. -/
inductive Term where
  /-- A name or a literal. -/
  | word (text : String)
  | parens (inner : Term)
  | array (items : List Term)
  | call (callee : Term) (arguments : List Term)
  | member (object : Term) (name : String)
  | index (object key : Term)
  | not (operand : Term)
  | binary (left : Term) (operator : BinaryOperator) (right : Term)
  | assign (target value : Term)
  deriving Repr

namespace Term

/-- A term in parentheses. More of them make no difference. -/
def enclose : Term → Term
  | parens e => parens e
  | e => parens e

/-- The level of the outermost construct. -/
def level : Term → Nat
  | not _ => 7
  | binary _ op _ => op.javaScriptLevel
  | assign _ _ => 0
  | _ => 8

mutual

/-- Whether all operands of operators are as tight as the levels ask for. -/
def fits : Term → Bool
  | word _ => true
  | parens e | member e _ | not e => e.fits
  | array es => fitsAll es
  | call f es => f.fits && fitsAll es
  | index l r | assign l r => l.fits && r.fits
  | binary l op r =>
    decide (op.javaScriptLevel ≤ l.level) && decide (op.javaScriptLevel < r.level) &&
      (l.fits && r.fits)

def fitsAll : List Term → Bool
  | [] => true
  | e :: es => e.fits && fitsAll es

end

mutual

/-- Whether two terms are the same. -/
def same : Term → Term → Bool
  | word a, word b => a == b
  | parens d, parens e | not d, not e => same d e
  | array ds, array es => sameAll ds es
  | call f ds, call g es => same f g && sameAll ds es
  | member d a, member e b => same d e && a == b
  | index d i, index e j | assign d i, assign e j => same d e && same i j
  | binary d o i, binary e p j => same d e && decide (o = p) && same i j
  | _, _ => false

def sameAll : List Term → List Term → Bool
  | [], [] => true
  | d :: ds, e :: es => same d e && sameAll ds es
  | _, _ => false

end

mutual

theorem same_iff (d e : Term) : same d e = true ↔ d = e := by
  cases d <;> cases e <;> simp [same, same_iff, sameAll_iff, and_assoc]

theorem sameAll_iff (ds es : List Term) : sameAll ds es = true ↔ ds = es := by
  cases ds <;> cases es <;> simp [sameAll, same_iff, sameAll_iff]

end

instance : DecidableEq Term := fun d e => decidable_of_iff _ (same_iff d e)

theorem level_enclose (e : Term) : e.enclose.level = 8 := by
  cases e <;> rfl

theorem fits_enclose (e : Term) : e.enclose.fits = e.fits := by
  cases e <;> rfl

end Term

/-- What the text of a token is in JavaScript. -/
inductive Mark where
  | word
  | lparen
  | rparen
  | lbracket
  | rbracket
  | comma
  | dot
  | semicolon
  | not
  | assign
  | operator (operator : BinaryOperator)
  /-- Signs that have no meaning here. -/
  | other
  deriving DecidableEq, Repr

/-- The mark of a text. -/
def mark : String → Mark
  | "(" => .lparen
  | ")" => .rparen
  | "[" => .lbracket
  | "]" => .rbracket
  | "," => .comma
  | "." => .dot
  | ";" => .semicolon
  | "!" => .not
  | "=" => .assign
  | "+" => .operator .add
  | "-" => .operator .subtract
  | "*" => .operator .multiply
  | "/" => .operator .divide
  | "%" => .operator .modulo
  | "<" => .operator .lessThan
  | "<=" => .operator .lessThanOrEqual
  | ">" => .operator .greaterThan
  | ">=" => .operator .greaterThanOrEqual
  | "===" => .operator .equal
  | "!==" => .operator .notEqual
  | "&&" => .operator .and
  | "||" => .operator .or
  | "instanceof" => .operator .instanceOf
  | "==" | "!=" => .other
  | _ => .word

theorem mark_javaScript (op : BinaryOperator) : mark op.javaScript = .operator op := by
  cases op <;> rfl

mutual

/-- The texts are grouped as the term, whose outermost construct has the given level. -/
inductive Groups : (level : Nat) → (texts : List String) → Term → Prop where
  | word {text : String} (isWord : mark text = .word) : Groups 8 [text] (.word text)
  | parens {level : Nat} {texts : List String} {e : Term} (inner : Groups level texts e) :
      Groups 8 ("(" :: (texts ++ [")"])) e.enclose
  | array {texts : List String} {es : List Term} (items : GroupsItems "]" texts es) :
      Groups 8 ("[" :: texts) (.array es)
  | call {front texts : List String} {f : Term} {es : List Term} (callee : Groups 8 front f)
      (arguments : GroupsItems ")" texts es) : Groups 8 (front ++ "(" :: texts) (.call f es)
  | member {front : List String} {o : Term} {name : String} (object : Groups 8 front o)
      (isWord : mark name = .word) : Groups 8 (front ++ [".", name]) (.member o name)
  | index {level : Nat} {front texts : List String} {o k : Term} (object : Groups 8 front o)
      (key : Groups level texts k) : Groups 8 (front ++ "[" :: (texts ++ ["]"])) (.index o k)
  | not {level : Nat} {texts : List String} {e : Term} (operand : Groups level texts e)
      (tighter : 7 ≤ level) : Groups 7 ("!" :: texts) (.not e)
  | binary {i j : Nat} {front texts : List String} {l r : Term} {op : BinaryOperator}
      (left : Groups i front l) (leftLevel : op.javaScriptLevel ≤ i)
      (right : Groups j texts r) (rightLevel : op.javaScriptLevel < j) :
      Groups op.javaScriptLevel (front ++ op.javaScript :: texts) (.binary l op r)
  | assign {level : Nat} {front texts : List String} {t v : Term} (target : Groups 8 front t)
      (value : Groups level texts v) : Groups 0 (front ++ "=" :: texts) (.assign t v)

/-- The texts are grouped as items with commas between them, up to the closing bracket. -/
inductive GroupsItems : (close : String) → (texts : List String) → List Term → Prop where
  | done {close : String} : GroupsItems close [close] []
  | last {close : String} {level : Nat} {texts : List String} {e : Term}
      (item : Groups level texts e) : GroupsItems close (texts ++ [close]) [e]
  | more {close : String} {level : Nat} {front texts : List String} {e : Term} {es : List Term}
      (item : Groups level front e) (items : GroupsItems close texts es) :
      GroupsItems close (front ++ "," :: texts) (e :: es)

end

/-- The texts are grouped as statements, each closed by a semicolon. -/
inductive Program : (texts : List String) → List Term → Prop where
  | nil : Program [] []
  | empty {texts : List String} {es : List Term} (later : Program texts es) :
      Program (";" :: texts) es
  | statement {level : Nat} {front texts : List String} {e : Term} {es : List Term}
      (first : Groups level front e) (later : Program texts es) :
      Program (front ++ ";" :: texts) (e :: es)

mutual

/-- What is grouped has the level of its outermost construct and fits the levels. -/
theorem Groups.fits {level : Nat} {texts : List String} {e : Term} (h : Groups level texts e) :
    e.level = level ∧ e.fits = true := by
  match h with
  | .word isWord => exact ⟨rfl, rfl⟩
  | .parens inner => exact ⟨Term.level_enclose _, (Term.fits_enclose _).trans inner.fits.2⟩
  | .array items => exact ⟨rfl, items.fits⟩
  | .call callee arguments =>
    exact ⟨rfl, (Bool.and_eq_true ..).mpr ⟨callee.fits.2, arguments.fits⟩⟩
  | .member object isWord => exact ⟨rfl, object.fits.2⟩
  | .index object key => exact ⟨rfl, (Bool.and_eq_true ..).mpr ⟨object.fits.2, key.fits.2⟩⟩
  | .not operand tighter => exact ⟨rfl, operand.fits.2⟩
  | .binary left leftLevel right rightLevel =>
    obtain ⟨rfl, leftFits⟩ := left.fits
    obtain ⟨rfl, rightFits⟩ := right.fits
    exact ⟨rfl, by simp only [Term.fits, leftLevel, rightLevel, leftFits, rightFits]; rfl⟩
  | .assign target value => exact ⟨rfl, (Bool.and_eq_true ..).mpr ⟨target.fits.2, value.fits.2⟩⟩

theorem GroupsItems.fits {close : String} {texts : List String} {es : List Term}
    (h : GroupsItems close texts es) : Term.fitsAll es = true := by
  match h with
  | .done => rfl
  | .last item => exact (Bool.and_eq_true ..).mpr ⟨item.fits.2, rfl⟩
  | .more item items => exact (Bool.and_eq_true ..).mpr ⟨item.fits.2, items.fits⟩

end

theorem Program.fits {texts : List String} {es : List Term} (h : Program texts es) :
    Term.fitsAll es = true := by
  induction h with
  | nil => rfl
  | empty _ ih => exact ih
  | statement first _ ih => exact (Bool.and_eq_true ..).mpr ⟨first.fits.2, ih⟩

/-- What has been begun and waits for an expression. -/
inductive Frame where
  | parens
  /-- A list of items, in brackets or behind a callee. -/
  | items (callee : Option Term) (items : List Term)
  | index (object : Term)
  | not
  | binary (left : Term) (operator : BinaryOperator)
  | assign (target : Term)

namespace Frame

/-- The term that an operator makes of its last operand, and its level. Brackets wait for
    more. -/
def close? : Frame → Term → Option (Nat × Term)
  | not, e => some (7, .not e)
  | binary l op, e => some (op.javaScriptLevel, .binary l op e)
  | assign t, e => some (0, .assign t e)
  | _, _ => none

/-- The list of items as a whole. -/
def finish : Option Term → List Term → Term
  | none, es => .array es
  | some f, es => .call f es

/-- What closes the list of items. -/
def closing : Option Term → String
  | none => "]"
  | some _ => ")"

end Frame

/-- Close all operators that are at least as tight as the level. -/
def reduce (level : Nat) : List Frame → Term → List Frame × Term
  | [], e => ([], e)
  | f :: stack, e =>
    match f.close? e with
    | some (own, e') => if level ≤ own then reduce level stack e' else (f :: stack, e)
    | none => (f :: stack, e)

/-- Where the machine is. -/
inductive State where
  /-- An operand comes next. -/
  | before (stack : List Frame)
  /-- An operand has been read. -/
  | behind (stack : List Frame) (operand : Term)
  /-- The name of a member comes next. -/
  | naming (stack : List Frame) (object : Term)

namespace State

/-- Read one text. -/
def step (text : String) : State → Option State
  | before stack =>
    match mark text, stack with
    | .word, stack => some (behind stack (.word text))
    | .lparen, stack => some (before (.parens :: stack))
    | .lbracket, stack => some (before (.items none [] :: stack))
    | .not, stack => some (before (.not :: stack))
    | .rparen, .items (some f) es :: stack => some (behind stack (.call f es))
    | .rbracket, .items none es :: stack => some (behind stack (.array es))
    | _, _ => none
  | behind stack e =>
    match mark text with
    | .operator op =>
      let (stack, e) := reduce op.javaScriptLevel stack e
      some (before (.binary e op :: stack))
    | .assign =>
      let (stack, e) := reduce 1 stack e
      some (before (.assign e :: stack))
    | .dot => some (naming stack e)
    | .lparen => some (before (.items (some e) [] :: stack))
    | .lbracket => some (before (.index e :: stack))
    | .comma =>
      match reduce 0 stack e with
      | (.items callee es :: stack, e) => some (before (.items callee (es ++ [e]) :: stack))
      | _ => none
    | .rparen =>
      match reduce 0 stack e with
      | (.parens :: stack, e) => some (behind stack e.enclose)
      | (.items (some f) es :: stack, e) => some (behind stack (.call f (es ++ [e])))
      | _ => none
    | .rbracket =>
      match reduce 0 stack e with
      | (.index o :: stack, e) => some (behind stack (.index o e))
      | (.items none es :: stack, e) => some (behind stack (.array (es ++ [e])))
      | _ => none
    | _ => none
  | naming stack o => if mark text = .word then some (behind stack (.member o text)) else none

/-- Read texts. -/
def run : List String → State → Option State
  | [], s => some s
  | text :: texts, s => (s.step text).bind (run texts)

theorem run_append (texts texts' : List String) (s : State) :
    run (texts ++ texts') s = (run texts s).bind (run texts') := by
  induction texts generalizing s with
  | nil => rfl
  | cons text texts ih =>
      rw [List.cons_append, run, run, Option.bind_assoc]
      exact congrArg _ (funext ih)

end State

/-- The stack stays as it is when an operator of the level comes next. -/
def Keeps (level : Nat) (stack : List Frame) : Prop :=
  ∀ f ∈ stack.head?, ∀ e own e', f.close? e = some (own, e') → own < level

theorem Keeps.mono {i j : Nat} {stack : List Frame} (h : Keeps i stack) (hle : i ≤ j) :
    Keeps j stack := by
  intro f top e own e' closes
  exact Nat.lt_of_lt_of_le (h f top e own e' closes) hle

/-- Nothing is tighter than calls and member access. -/
theorem keeps_eight (stack : List Frame) : Keeps 8 stack := by
  intro f _ e own e' closes
  cases f with
  | binary l op =>
      cases closes
      cases op <;> decide
  | not | assign => cases closes; decide
  | parens | items | index => cases closes

theorem keeps_bracket {f : Frame} (bracket : ∀ e, f.close? e = none) (level : Nat)
    (stack : List Frame) : Keeps level (f :: stack) := by
  intro f' top e own e' closes
  cases top
  rw [bracket] at closes
  cases closes

theorem keeps_binary {level : Nat} {op : BinaryOperator} (looser : op.javaScriptLevel < level)
    (l : Term) (stack : List Frame) : Keeps level (.binary l op :: stack) := by
  intro f top e own e' closes
  cases top
  cases closes
  exact looser

theorem reduce_of_keeps {level : Nat} {stack : List Frame} (h : Keeps level stack) (e : Term) :
    reduce level stack e = (stack, e) := by
  cases stack with
  | nil => rfl
  | cons f stack =>
      rw [reduce]
      split
      · rename_i own e' closes
        exact if_neg (Nat.not_le.2 (h f rfl e own e' closes))
      · rfl

theorem reduce_bracket {f : Frame} (bracket : ∀ e, f.close? e = none) (level : Nat)
    (stack : List Frame) (e : Term) : reduce level (f :: stack) e = (f :: stack, e) :=
  reduce_of_keeps (keeps_bracket bracket level stack) e

/-- Reading the texts behind the stack leads to the term, with what may still be closed left
    open. -/
def Yields (level : Nat) (texts : List String) (e : Term) (stack : List Frame) : Prop :=
  ∃ stack' e', State.run texts (.before stack) = some (.behind stack' e') ∧
    ∀ i ≤ level, reduce i stack' e' = reduce i stack e

namespace Yields

variable {level : Nat} {texts : List String} {e : Term} {stack : List Frame}

/-- Nothing of a tightest term is left open. -/
theorem run_tight (h : Yields 8 texts e stack) :
    State.run texts (.before stack) = some (.behind stack e) := by
  obtain ⟨stack', e', ran, same⟩ := h
  have tight := same 8 (Nat.le_refl 8)
  rw [reduce_of_keeps (keeps_eight _), reduce_of_keeps (keeps_eight _)] at tight
  cases tight
  exact ran

theorem of_tight (h : State.run texts (.before stack) = some (.behind stack e)) :
    Yields level texts e stack :=
  ⟨stack, e, h, fun _ _ => rfl⟩

/-- In a bracket everything is closed in the end. -/
theorem bracketed {f : Frame} (h : Yields level texts e (f :: stack))
    (bracket : ∀ e, f.close? e = none) :
    ∃ stack' e', State.run texts (.before (f :: stack)) = some (.behind stack' e') ∧
      reduce 0 stack' e' = (f :: stack, e) := by
  obtain ⟨stack', e', ran, same⟩ := h
  exact ⟨stack', e', ran, (same 0 (Nat.zero_le _)).trans (reduce_bracket bracket 0 stack e)⟩

end Yields

namespace State

variable {texts rest : List String} {s s' : State} {stack stack' : List Frame} {e e' : Term}

attribute [local simp] step

theorem run_append_of (h : run texts s = some s') : run (texts ++ rest) s = run rest s' := by
  rw [run_append, h]
  rfl

theorem run_cons_of {text : String} (h : s.step text = some s') :
    run (text :: rest) s = run rest s' := by
  rw [run, h]
  rfl

theorem step_rparen (closed : reduce 0 stack' e' = (.parens :: stack, e)) :
    step ")" (behind stack' e') = some (behind stack e.enclose) := by
  have known : mark ")" = .rparen := rfl
  simp [known, closed]

theorem step_rbracket {o : Term} (closed : reduce 0 stack' e' = (.index o :: stack, e)) :
    step "]" (behind stack' e') = some (behind stack (.index o e)) := by
  have known : mark "]" = .rbracket := rfl
  simp [known, closed]

theorem step_comma {callee : Option Term} {es : List Term}
    (closed : reduce 0 stack' e' = (.items callee es :: stack, e)) :
    step "," (behind stack' e') = some (before (.items callee (es ++ [e]) :: stack)) := by
  have known : mark "," = .comma := rfl
  simp [known, closed]

/-- Behind the last item, or behind a comma, the list of items may be closed. -/
theorem step_closing (callee : Option Term) (es : List Term) (stack : List Frame) :
    step (Frame.closing callee) (before (.items callee es :: stack)) =
      some (behind stack (Frame.finish callee es)) := by
  cases callee <;> rfl

theorem step_closing_behind {callee : Option Term} {es : List Term}
    (closed : reduce 0 stack' e' = (.items callee es :: stack, e)) :
    step (Frame.closing callee) (behind stack' e') =
      some (behind stack (Frame.finish callee (es ++ [e]))) := by
  cases callee with
  | none =>
      have known : mark "]" = .rbracket := rfl
      simp only [Frame.closing, step, known, closed]
      rfl
  | some f =>
      have known : mark ")" = .rparen := rfl
      simp only [Frame.closing, step, known, closed]
      rfl

/-- An operator comes behind what is closed by then. -/
theorem step_operator {op : BinaryOperator}
    (closed : reduce op.javaScriptLevel stack' e' = (stack, e)) :
    step op.javaScript (behind stack' e') = some (before (.binary e op :: stack)) := by
  simp [mark_javaScript, closed]

theorem step_word {text : String} (isWord : mark text = .word) (stack : List Frame) :
    step text (before stack) = some (behind stack (.word text)) := by
  simp [isWord]

theorem step_name {name : String} (isWord : mark name = .word) (stack : List Frame) (o : Term) :
    step name (naming stack o) = some (behind stack (.member o name)) :=
  if_pos isWord

theorem step_assign (keeps : Keeps 1 stack) (e : Term) :
    step "=" (behind stack e) = some (before (.assign e :: stack)) := by
  have known : mark "=" = .assign := rfl
  simp [known, reduce_of_keeps keeps e]

end State

open State

mutual

/-- The machine finds the tree of every derivation. -/
theorem Groups.yields {level : Nat} {texts : List String} {e : Term} (h : Groups level texts e)
    {stack : List Frame} (keeps : level ≤ 6 → Keeps (max level 1) stack) :
    Yields level texts e stack := by
  match h with
  | .word isWord => exact .of_tight (run_cons_of (step_word isWord stack))
  | .parens inner =>
    have begun : State.step "(" (.before stack) = some (.before (.parens :: stack)) := rfl
    have inside : Yields _ _ _ (.parens :: stack) :=
      inner.yields fun _ => keeps_bracket (fun _ => rfl) _ _
    obtain ⟨stack', e', ran, closed⟩ := inside.bracketed fun _ => rfl
    refine .of_tight ?_
    rw [run_cons_of begun, run_append_of ran, run_cons_of (step_rparen closed)]
    rfl
  | .array items =>
    have begun : State.step "[" (.before stack) = some (.before (.items none [] :: stack)) := rfl
    refine .of_tight ?_
    rw [run_cons_of begun]
    exact items.run (show "]" = Frame.closing none from rfl)
  | @Groups.call front texts f es callee arguments =>
    have front : Yields 8 _ _ stack := callee.yields fun low => absurd low (by decide)
    have begun : State.step "(" (.behind stack f) = some (.before (.items (some f) [] :: stack)) :=
      rfl
    refine .of_tight ?_
    rw [run_append_of front.run_tight, run_cons_of begun]
    exact arguments.run (show ")" = Frame.closing (some f) from rfl)
  | @Groups.member front o name object isWord =>
    have front : Yields 8 _ _ stack := object.yields fun low => absurd low (by decide)
    have begun : State.step "." (.behind stack o) = some (.naming stack o) := rfl
    refine .of_tight ?_
    rw [run_append_of front.run_tight, run_cons_of begun, run_cons_of (step_name isWord stack o)]
    rfl
  | @Groups.index level front texts o k object key =>
    have front : Yields 8 _ _ stack := object.yields fun low => absurd low (by decide)
    have begun : State.step "[" (.behind stack o) = some (.before (.index o :: stack)) := rfl
    have inside : Yields _ _ _ (.index o :: stack) :=
      key.yields fun _ => keeps_bracket (fun _ => rfl) _ _
    obtain ⟨stack', e', ran, closed⟩ := inside.bracketed fun _ => rfl
    refine .of_tight ?_
    rw [run_append_of front.run_tight, run_cons_of begun, run_append_of ran,
      run_cons_of (step_rbracket closed)]
    rfl
  | @Groups.not level texts e operand tighter =>
    have begun : State.step "!" (.before stack) = some (.before (.not :: stack)) := rfl
    obtain ⟨stack', e', ran, same⟩ : Yields level texts e (.not :: stack) :=
      operand.yields fun low => absurd (Nat.le_trans tighter low) (by decide)
    refine ⟨stack', e', (run_cons_of begun).trans ran, fun i low => ?_⟩
    · rw [same i (Nat.le_trans low tighter)]
      exact if_pos low
  | @Groups.binary i j front texts l r op left leftLevel right rightLevel =>
    have six : op.javaScriptLevel ≤ 6 := by cases op <;> decide
    have keepsOwn : Keeps (max op.javaScriptLevel 1) stack := keeps six
    have positive : max op.javaScriptLevel 1 = op.javaScriptLevel := by cases op <;> rfl
    obtain ⟨stack₁, e₁, ran₁, same₁⟩ : Yields i front l stack :=
      left.yields fun _ => keepsOwn.mono (by omega)
    have closed : reduce op.javaScriptLevel stack₁ e₁ = (stack, l) :=
      (same₁ _ leftLevel).trans (reduce_of_keeps (positive ▸ keepsOwn) l)
    obtain ⟨stack₂, e₂, ran₂, same₂⟩ : Yields j texts r (.binary l op :: stack) :=
      right.yields fun _ => keeps_binary (by omega) l stack
    refine ⟨stack₂, e₂, ?_, fun k low => ?_⟩
    · rw [run_append_of ran₁, run_cons_of (step_operator closed)]
      exact ran₂
    · rw [same₂ k (by omega)]
      exact if_pos low
  | @Groups.assign level front texts t v target value =>
    have front : Yields 8 _ _ stack := target.yields fun low => absurd low (by decide)
    have waits : Keeps (max level 1) (.assign t :: stack) := by
      intro f top e own e' closes
      cases top
      cases closes
      exact Nat.lt_of_lt_of_le Nat.zero_lt_one (Nat.le_max_right _ _)
    obtain ⟨stack', e', ran, same⟩ : Yields level texts v (.assign t :: stack) :=
      value.yields fun _ => waits
    refine ⟨stack', e', ?_, fun k low => ?_⟩
    · rw [run_append_of front.run_tight, run_cons_of (step_assign (keeps (by decide)) t)]
      exact ran
    · rw [same k (Nat.le_trans low (Nat.zero_le _))]
      exact if_pos low

theorem GroupsItems.run {close : String} {texts : List String} {es : List Term}
    (h : GroupsItems close texts es) {callee : Option Term} {done : List Term}
    {stack : List Frame} (isClose : close = Frame.closing callee) :
    State.run texts (.before (.items callee done :: stack)) =
      some (.behind stack (Frame.finish callee (done ++ es))) := by
  match h with
  | .done =>
    rw [isClose, run_cons_of (step_closing callee done stack), List.append_nil]
    rfl
  | .last item =>
    have inside : Yields _ _ _ (.items callee done :: stack) :=
      item.yields fun _ => keeps_bracket (fun _ => rfl) _ _
    obtain ⟨stack', e', ran, closed⟩ := inside.bracketed fun _ => rfl
    rw [run_append_of ran, isClose, run_cons_of (step_closing_behind closed)]
    rfl
  | .more item items =>
    have inside : Yields _ _ _ (.items callee done :: stack) :=
      item.yields fun _ => keeps_bracket (fun _ => rfl) _ _
    obtain ⟨stack', e', ran, closed⟩ := inside.bracketed fun _ => rfl
    rw [run_append_of ran, run_cons_of (step_comma closed), items.run isClose, List.append_assoc]
    rfl

end

section Unique

variable {i j : Nat} {texts : List String} {e e' : Term}

theorem Groups.exists_run (h : Groups i texts e) :
    ∃ stack e₀, State.run texts (.before []) = some (.behind stack e₀) ∧
      reduce 0 stack e₀ = ([], e) := by
  obtain ⟨stack, e₀, ran, same⟩ : Yields i texts e [] := h.yields fun _ f none => by cases none
  exact ⟨stack, e₀, ran, same 0 (Nat.zero_le i)⟩

/-- Texts are grouped in one way only. -/
theorem Groups.unique (h : Groups i texts e) (h' : Groups j texts e') : e = e' := by
  obtain ⟨stack, e₀, ran, closed⟩ := h.exists_run
  obtain ⟨stack', e₀', ran', closed'⟩ := h'.exists_run
  cases ran.symm.trans ran'
  cases closed.symm.trans closed'
  rfl

theorem Groups.ne_nil (h : Groups i texts e) : texts ≠ [] := by
  rintro rfl
  obtain ⟨stack, e₀, ran, -⟩ := h.exists_run
  cases ran

theorem State.step_semicolon (s : State) : s.step ";" = none := by
  cases s <;> rfl

/-- No expression goes beyond a semicolon. -/
theorem Groups.not_mem_semicolon (h : Groups i texts e) : ";" ∉ texts := by
  intro among
  obtain ⟨front, back, rfl⟩ := List.append_of_mem among
  obtain ⟨stack, e₀, ran, -⟩ := h.exists_run
  rw [State.run_append] at ran
  obtain ⟨s, -, rest⟩ := Option.bind_eq_some_iff.1 ran
  rw [State.run, State.step_semicolon] at rest
  cases rest

/-- Two lists that go on with the same item are the same up to its first occurrence. -/
theorem eq_of_append_cons {α : Type} {a : α} {xs ys us vs : List α} (hx : a ∉ xs) (hy : a ∉ ys)
    (same : xs ++ a :: us = ys ++ a :: vs) : xs = ys ∧ us = vs := by
  induction xs generalizing ys with
  | nil =>
      cases ys with
      | nil => exact ⟨rfl, (List.cons.inj same).2⟩
      | cons y ys => exact absurd (List.mem_cons.2 (.inl (List.cons.inj same).1)) hy
  | cons x xs ih =>
      cases ys with
      | nil => exact absurd (List.mem_cons.2 (.inl (List.cons.inj same).1.symm)) hx
      | cons y ys =>
          obtain ⟨rfl, later⟩ := List.cons.inj same
          obtain ⟨rfl, rfl⟩ := ih (List.not_mem_of_not_mem_cons hx)
            (List.not_mem_of_not_mem_cons hy) later
          exact ⟨rfl, rfl⟩

/-- A program is grouped in one way only. -/
theorem Program.unique {es es' : List Term} (h : Program texts es) (h' : Program texts es') :
    es = es' := by
  induction h generalizing es' with
  | nil =>
      generalize none : ([] : List String) = texts at h'
      cases h' with
      | nil => rfl
      | empty => cases none
      | statement => simp at none
  | @empty texts es later ih =>
      generalize same : ";" :: texts = texts' at h'
      cases h' with
      | nil => cases same
      | empty later' =>
          cases same
          exact ih later'
      | statement first later' =>
          obtain ⟨text, front, rfl⟩ := List.exists_cons_of_ne_nil first.ne_nil
          cases same
          exact absurd (List.mem_cons_self ..) first.not_mem_semicolon
  | @statement level front texts e es first later ih =>
      generalize same : front ++ ";" :: texts = texts' at h'
      cases h' with
      | nil => simp at same
      | empty later' =>
          obtain ⟨text, front, rfl⟩ := List.exists_cons_of_ne_nil first.ne_nil
          cases same
          exact absurd (List.mem_cons_self ..) first.not_mem_semicolon
      | statement first' later' =>
          obtain ⟨rfl, rfl⟩ :=
            eq_of_append_cons first.not_mem_semicolon first'.not_mem_semicolon same
          rw [first.unique first', ih later']

end Unique

end JavaScript

end MembershipLowering
