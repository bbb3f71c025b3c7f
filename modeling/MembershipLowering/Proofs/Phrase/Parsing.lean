import MembershipLowering.Proofs.Expr.Completeness
import MembershipLowering.Proofs.Phrase.Scanning

/-! # Reading phrases

The tokens of a phrase are read as an expression with the same tree, by readers that have as
many levels left as the phrase is deep (`Phrase.nests_words`).
-/

namespace MembershipLowering

namespace Expr

mutual

/-- The tree of the expression, with the texts that the source has in its places. -/
def phrase (source : String) : Expr → Phrase
  | atom x a => .atom a (x.content.text source)
  | array _ es => .array (phraseAll source es)
  | call _ f es => .call (f.phrase source) (phraseAll source es)
  | member _ o name => .member (o.phrase source) (name.text source)
  | index _ o k => .index (o.phrase source) (k.phrase source)
  | not _ _ e => .not (e.phrase source)
  | binary _ l op r => .binary (l.phrase source) op (r.phrase source)
  | membership _ l r negated => .membership (l.phrase source) (r.phrase source) negated
  | assign _ t v => .assign (t.phrase source) (v.phrase source)

def phraseAll (source : String) : List Expr → List Phrase
  | [] => []
  | e :: es => e.phrase source :: phraseAll source es

end

variable {source : String}

@[simp] theorem phrase_parenthesize (start stop : Nat) (e : Expr) :
    (e.parenthesize start stop).phrase source = e.phrase source := by
  cases e <;> rfl

theorem isTarget_phrase (e : Expr) : (e.phrase source).isTarget = e.isTarget := by
  cases e with
  | atom x a => cases a <;> rfl
  | _ => rfl

end Expr

theorem Token.Stream.tail {source : String} {t : Token} {ts : List Token}
    (h : Token.Stream source (t :: ts)) : Token.Stream source ts :=
  h.sublist (List.sublist_cons_self t ts)

namespace Phrase

open Word

/-- An assigned tree ends in itself. -/
theorem level_of_isTarget {p : Phrase} (h : p.isTarget = true) : p.level = 8 := by
  cases p <;> first | rfl | cases h

@[simp] theorem operatorLevel_eq (op : BinaryOperator) : operatorLevel op = op.level := by
  cases op <;> rfl

theorem atom?_tokenKind (a : Atom) : Parser.atom? a.tokenKind = some a := by
  cases a <;> rfl

/-- The tokens of a line are all significant. -/
theorem significant_of_placed {source : String} {stop : Nat} {ws : List Word} {ts : List Token}
    (placed : Placed source stop ws ts) (inline : ∀ w ∈ ws, w.kind ≠ .newline) :
    Token.significant ts = ts := by
  induction placed with
  | nil => rfl
  | cons kind _ _ _ ih =>
      obtain ⟨other, inline⟩ := List.forall_mem_cons.1 inline
      rw [← kind] at other
      have kept := ih inline
      rw [Token.significant] at kept ⊢
      rw [List.filter_cons_of_pos (by simpa using other), kept]

variable {source : String} {inside : Bool} {s : Spelling} {stop least : Nat} {ts : List Token}

/-- The tokens are read as an expression with the tree `p`. -/
def Reads (source : String) (inside : Bool) (k least : Nat) (ts : List Token) (p : Phrase) : Prop :=
  ∃ e level, Parser.Nests source inside k level ts e ∧ least ≤ level ∧ e.phrase source = p

/-- Wherever the words of the tree stand, their tokens are read as the tree. -/
def IsReadBack (source : String) (s : Spelling) (inside : Bool) (p : Phrase) : Prop :=
  ∀ stop ts, Placed source stop (p.words s) ts → Token.Stream source ts →
    Reads source inside p.depth p.level ts p

theorem Reads.wrap {p : Phrase} (h : ∀ inside, IsReadBack source s inside p) (low : least ≤ 8)
    (placed : Placed source stop (wrap least p (p.words s)) ts) (stream : Token.Stream source ts) :
    Reads source inside (deepen least p p.depth) least ts p := by
  unfold Phrase.wrap at placed
  unfold deepen
  split at placed
  · rename_i loose
    rw [if_pos loose]
    cases placed with
    | @cons _ _ _ t ts isOpening _ _ placed =>
        obtain ⟨inner, back, rfl, placedInner, placedClose⟩ := placed.split
        cases placedClose with
        | @cons _ _ _ close _ isClosing _ _ none =>
            cases none
            have streamInner : Token.Stream source inner := stream.tail.left
            obtain ⟨e, level, nests, -, same⟩ := h true _ _ placedInner streamInner
            exact ⟨_, 8, .parenthesized .here isOpening nests .here isClosing, low,
              (Expr.phrase_parenthesize t.span.start close.span.stop e).trans same⟩
  · rename_i tight
    rw [if_neg tight]
    obtain ⟨e, level, nests, tight', same⟩ := h inside _ _ placed stream
    exact ⟨e, level, nests, by omega, same⟩

/-- A tree at the tightest level. -/
theorem Reads.tightest {k : Nat} {p : Phrase} (h : Reads source inside k 8 ts p) :
    ∃ e, Parser.Nests source inside k 8 ts e ∧ e.phrase source = p := by
  obtain ⟨e, level, nests, tight, same⟩ := h
  obtain rfl : level = 8 := Nat.le_antisymm nests.derives.level_le tight
  exact ⟨e, nests, same⟩

/-- The tokens are read as items with the trees `ps`. -/
def ReadsItems (source : String) (kind : TokenKind) (k : Nat) (ts : List Token)
    (ps : List Phrase) : Prop :=
  ∃ es close, Parser.NestsItems source kind k ts es close ∧ Expr.phraseAll source es = ps

theorem ReadsItems.of_placed {kind : TokenKind} {text : String}
    (bracket : kind = .rbracket ∨ kind = .rparen) {ps : List Phrase}
    (h : ∀ p ∈ ps, IsReadBack source s true p)
    (placed : Placed source stop (separate (wordsAll s ps) ++ [.plain kind text]) ts)
    (stream : Token.Stream source ts) : ReadsItems source kind (depthAll ps) ts ps := by
  induction ps generalizing stop ts with
  | nil =>
      cases placed with
      | cons isClosing _ _ none =>
          cases none
          exact ⟨[], _, .done .here isClosing bracket, rfl⟩
  | cons p ps ih =>
      have tail : ∀ q ∈ ps, IsReadBack source s true q :=
        fun q hq => h q (List.mem_cons_of_mem _ hq)
      rw [wordsAll, separate_cons, List.append_assoc] at placed
      obtain ⟨front, back, rfl, placedItem, placedBack⟩ := placed.split
      obtain ⟨e, level, item, -, same⟩ :=
        h p (List.mem_cons_self ..) _ _ placedItem stream.left
      cases ps with
      | nil =>
          cases placedBack with
          | @cons _ _ _ t _ isClosing _ _ none =>
              cases none
              refine ⟨[e], t, ?_, by rw [Expr.phraseAll, same]; rfl⟩
              rw [depthAll, depthAll, Nat.max_zero]
              exact .last item .here isClosing bracket
      | cons q ps =>
          cases placedBack with
          | @cons _ _ _ t back isComma _ _ placedLater =>
              obtain ⟨es, close, items, sameLater⟩ := ih tail placedLater stream.right.tail
              refine ⟨e :: es, close, ?_, by rw [Expr.phraseAll, same, sameLater]⟩
              rw [List.append_cons, depthAll]
              exact .more item .here isComma items bracket

theorem level?_of_spelt {t : Token} {op : BinaryOperator} (kind : t.kind = op.tokenKind)
    (spelt : BinaryOperator.ofText? (t.text source) = some op) :
    Parser.level? source t = some op.level := by
  unfold Parser.level?
  rw [kind, spelt]
  cases op <;> rfl

mutual

/-- What a tree is written with is read back as the tree. -/
theorem isReadBack {p : Phrase} (proper : p.isProper = true) (inside : Bool) :
    IsReadBack source s inside p := by
  intro stop ts placed stream
  match p, placed with
  | .atom a name, .cons kind text _ .nil =>
    have known := (congrArg Parser.atom? kind).trans (atom?_tokenKind a)
    exact ⟨_, 8, .atom .here known, Nat.le_refl 8, congrArg (Phrase.atom a) text⟩
  | .array ps, .cons isOpening _ _ placed =>
    obtain ⟨es, close, items, same⟩ :=
      ReadsItems.of_placed (.inl rfl) (isReadBackAll proper) placed stream.tail
    exact ⟨_, 8, .array .here isOpening items, Nat.le_refl 8, congrArg Phrase.array same⟩
  | .call f ps, placed =>
    rw [isProper, Bool.and_eq_true] at proper
    obtain ⟨front, back, rfl, placedCallee, placedBack⟩ := placed.split
    obtain ⟨e, callee, same⟩ :=
      (Reads.wrap (isReadBack proper.1) (Nat.le_refl 8) placedCallee stream.left).tightest
    -- The callee ends where its last token does, which the parenthesis touches.
    obtain ⟨last, isLast, stops⟩ :=
      Option.map_eq_some_iff.1 (callee.derives.covers stream.left).last
    rw [significant_of_placed placedCallee (readable_wrap 8 f (readable_words s proper.1)).inline]
      at isLast
    match placedBack, stream.right with
    | .cons isOpening _ touches placedItems, streamBack =>
      obtain ⟨es, close, items, sameItems⟩ :=
        ReadsItems.of_placed (.inr rfl) (isReadBackAll proper.2) placedItems streamBack.tail
      have meets := (touches rfl).trans ((stopOf_of_getLast? stop isLast).trans stops)
      rw [List.append_cons]
      exact ⟨_, 8, .call callee .here isOpening meets items, Nat.le_refl 8,
        congr (congrArg Phrase.call same) sameItems⟩
  | .member o name, placed =>
    rw [isProper, Bool.and_eq_true] at proper
    obtain ⟨front, back, rfl, placedObject, placedBack⟩ := placed.split
    obtain ⟨e, object, same⟩ :=
      (Reads.wrap (isReadBack proper.1) (Nat.le_refl 8) placedObject stream.left).tightest
    match placedBack with
    | .cons isDot _ _ (.cons isName text _ .nil) =>
      rw [List.append_cons]
      exact ⟨_, 8, .member object .here isDot .here isName, Nat.le_refl 8,
        congr (congrArg Phrase.member same) text⟩
  | .index o k, placed =>
    rw [isProper, Bool.and_eq_true] at proper
    obtain ⟨front, back, rfl, placedObject, placedBack⟩ := placed.split
    obtain ⟨e, object, same⟩ :=
      (Reads.wrap (isReadBack proper.1) (Nat.le_refl 8) placedObject stream.left).tightest
    match placedBack, stream.right with
    | .cons isOpening _ _ placedBehind, streamBack =>
      obtain ⟨inner, behind, rfl, placedKey, placedClose⟩ := placedBehind.split
      obtain ⟨k', level, key, -, sameKey⟩ :=
        isReadBack proper.2 true _ _ placedKey streamBack.tail.left
      match placedClose with
      | .cons isClosing _ _ .nil =>
        rw [List.append_cons, ← List.append_assoc]
        exact ⟨_, 8, .index object .here isOpening key .here isClosing, Nat.le_refl 8,
          congr (congrArg Phrase.index same) sameKey⟩
  | .not q, .cons isNot _ _ placed =>
    obtain ⟨e, level, operand, tight, same⟩ :=
      Reads.wrap (isReadBack (p := q) proper) (by decide) placed stream.tail
    exact ⟨_, 7, .not .here isNot operand tight, Nat.le_refl 7, congrArg Phrase.not same⟩
  | .binary l op r, placed =>
    rw [isProper, Bool.and_eq_true] at proper
    rw [words, operatorLevel_eq] at placed
    rw [depth, level, operatorLevel_eq]
    obtain ⟨front, back, rfl, placedLeft, placedBack⟩ := placed.split
    have low : op.level + 1 ≤ 8 := by cases op <;> decide
    obtain ⟨e, i, left, leftLevel, same⟩ :=
      Reads.wrap (isReadBack proper.1) (Nat.le_of_lt low) placedLeft stream.left
    match placedBack, stream.right with
    | .cons kind text _ placedRight, streamBack =>
      obtain ⟨e', j, right, rightLevel, same'⟩ :=
        Reads.wrap (isReadBack proper.2) low placedRight streamBack.tail
      have spelt := (congrArg BinaryOperator.ofText? text).trans (s.spells op)
      rw [List.append_cons]
      exact ⟨_, op.level, .binary left leftLevel .here (level?_of_spelt kind spelt) spelt right
        rightLevel, Nat.le_refl _, congr (congrArg (Phrase.binary · op) same) same'⟩
  | .membership l r negated, placed =>
    rw [isProper, Bool.and_eq_true] at proper
    obtain ⟨front, back, rfl, placedLeft, placedBack⟩ := placed.split
    obtain ⟨e, i, left, leftLevel, same⟩ :=
      Reads.wrap (isReadBack proper.1) (by decide) placedLeft stream.left
    match placedBack, stream.right with
    | .cons (t := t) kind text _ placedRight, streamBack =>
      obtain ⟨e', j, right, rightLevel, same'⟩ :=
        Reads.wrap (isReadBack proper.2) (by decide) placedRight streamBack.tail
      have spelt : t.text source ≠ "instanceof" ∧ decide (t.text source ≠ "in") = negated := by
        rw [text]
        cases negated <;> decide
      rw [List.append_cons]
      refine ⟨_, BinaryOperator.relationLevel, .membership left leftLevel .here kind spelt.1 right
        rightLevel, Nat.le_refl _, ?_⟩
      rw [Expr.phrase, same, same', spelt.2]
  | .assign t v, placed =>
    rw [isProper, Bool.and_eq_true, Bool.and_eq_true] at proper
    obtain ⟨front, back, rfl, placedTarget, placedBack⟩ := placed.split
    have tight := level_of_isTarget proper.1.1
    obtain ⟨e, i, target, leftLevel, same⟩ :=
      isReadBack proper.1.2 inside _ _ placedTarget stream.left
    have isTarget : e.isTarget = true :=
      (Expr.isTarget_phrase e).symm.trans ((congrArg Phrase.isTarget same).trans proper.1.1)
    match placedBack, stream.right with
    | .cons isAssign _ _ placedValue, streamBack =>
      obtain ⟨e', j, value, -, same'⟩ :=
        isReadBack proper.2 inside _ _ placedValue streamBack.tail
      rw [List.append_cons]
      exact ⟨_, 0, .assign target (by omega) isTarget .here isAssign value, Nat.le_refl 0,
        congr (congrArg Phrase.assign same) same'⟩

theorem isReadBackAll {ps : List Phrase} (proper : isProperAll ps = true) :
    ∀ p ∈ ps, IsReadBack source s true p := by
  match ps with
  | [] => exact fun p hp => nomatch hp
  | p :: ps =>
    rw [isProperAll, Bool.and_eq_true] at proper
    intro q hq
    cases List.mem_cons.1 hq with
    | inl same => exact same ▸ isReadBack proper.1 true
    | inr later => exact isReadBackAll proper.2 q later

end

end Phrase

end MembershipLowering
