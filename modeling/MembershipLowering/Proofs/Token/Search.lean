import MembershipLowering.Document
import MembershipLowering.Proofs.Expr.Nesting

/-! # Looking up tokens

What the lookups of a document find among tokens that stand in order: the search by
halving agrees with looking from the front, and the token between two operands is found
by its class.
-/

namespace MembershipLowering

namespace Token

/-- The search keeps the answer between `base` and `base + count`. -/
theorem firstFromWithin_eq {tokens : Array Token} {offset answer base count : Nat}
    (before : ∀ i, tokens[i]?.any (·.span.start < offset) = true ↔ i < answer)
    (hbase : base ≤ answer) (hcount : answer ≤ base + count) :
    firstFromWithin tokens offset base count = answer := by
  fun_induction firstFromWithin tokens offset base count with
  | case1 base count startsBefore small here =>
      have := (before base).1 here
      omega
  | case2 base count startsBefore small notHere =>
      have : ¬base < answer := fun less => notHere ((before base).2 less)
      omega
  | case3 base count startsBefore large half ih =>
      by_cases ahead : startsBefore (base + half) = true
      · have := (before (base + half)).1 ahead
        rw [dif_pos ahead] at ih
        rw [if_pos ahead]
        exact ih (by omega) (by omega)
      · have : ¬base + half < answer := fun less => ahead ((before (base + half)).2 less)
        rw [dif_neg ahead] at ih
        rw [if_neg ahead]
        exact ih hbase (by omega)

theorem start_le_of_mem_cons {t u : Token} {ts : List Token}
    (first : ∀ u ∈ ts, t.span.start < u.span.start) (hu : u ∈ t :: ts) :
    t.span.start ≤ u.span.start := by
  rcases List.mem_cons.1 hu with rfl | later
  · exact Nat.le_refl _
  · exact Nat.le_of_lt (first u later)

section Ordered

variable {tokens : List Token} (ordered : tokens.Pairwise fun t u => t.span.start < u.span.start)
include ordered

/-- The tokens that start before an offset come first. -/
theorem takeWhile_start_lt (offset : Nat) :
    tokens.takeWhile (·.span.start < offset) = tokens.filter (·.span.start < offset) := by
  induction tokens with
  | nil => rfl
  | cons t ts ih =>
      obtain ⟨first, rest⟩ := List.pairwise_cons.1 ordered
      by_cases before : t.span.start < offset
      · rw [List.takeWhile_cons_of_pos (by simpa using before),
          List.filter_cons_of_pos (by simpa using before), ih rest]
      · rw [List.takeWhile_cons_of_neg (by simpa using before), eq_comm, List.filter_eq_nil_iff]
        intro u hu
        have := start_le_of_mem_cons first hu
        simp only [decide_eq_true_eq]
        omega

theorem dropWhile_start_lt (offset : Nat) :
    tokens.dropWhile (·.span.start < offset) = tokens.filter (offset ≤ ·.span.start) := by
  induction tokens with
  | nil => rfl
  | cons t ts ih =>
      obtain ⟨first, rest⟩ := List.pairwise_cons.1 ordered
      by_cases before : t.span.start < offset
      · rw [List.dropWhile_cons_of_pos (by simpa using before),
          List.filter_cons_of_neg (by simpa using before), ih rest]
      · rw [List.dropWhile_cons_of_neg (by simpa using before), eq_comm, List.filter_eq_self]
        intro u hu
        have := start_le_of_mem_cons first hu
        simp only [decide_eq_true_eq]
        omega

theorem firstFrom_eq (offset : Nat) :
    firstFrom tokens.toArray offset = (tokens.takeWhile (·.span.start < offset)).length := by
  have within := List.takeWhile_append_dropWhile (p := (·.span.start < offset)) (l := tokens)
  apply firstFromWithin_eq _ (Nat.zero_le _)
  · have := congrArg List.length within
    rw [List.length_append] at this
    simp only [List.size_toArray]
    omega
  · intro i
    rw [List.getElem?_toArray, ← within, List.getElem?_append]
    split
    · rename_i before
      rw [List.getElem?_eq_getElem before, within]
      simpa [before] using List.all_eq_true.1 List.all_takeWhile _ (List.getElem_mem before)
    · rename_i behind
      rw [within]
      refine iff_of_false ?_ behind
      rw [Option.any_eq_true]
      rintro ⟨t, found, before⟩
      have mem := List.mem_of_getElem? found
      rw [dropWhile_start_lt ordered] at mem
      have := (List.mem_filter.1 mem).2
      simp only [decide_eq_true_eq] at this before
      omega

theorem drop_firstFrom (offset : Nat) :
    tokens.drop (firstFrom tokens.toArray offset) = tokens.filter (offset ≤ ·.span.start) := by
  have within := List.takeWhile_append_dropWhile (p := (·.span.start < offset)) (l := tokens)
  rw [firstFrom_eq ordered, ← dropWhile_start_lt ordered]
  calc
    tokens.drop (tokens.takeWhile (·.span.start < offset)).length =
        (tokens.takeWhile (·.span.start < offset) ++
          tokens.dropWhile (·.span.start < offset)).drop
            (tokens.takeWhile (·.span.start < offset)).length := by rw [within]
    _ = tokens.dropWhile (·.span.start < offset) := List.drop_left

/-- The first token from an offset on, looked for from the front. -/
theorem getElem?_firstFrom (offset : Nat) :
    tokens[firstFrom tokens.toArray offset]? = tokens.find? (offset ≤ ·.span.start) := by
  rw [← List.head?_drop, drop_firstFrom ordered, List.head?_filter]

end Ordered

variable {source : String} {tokens : List Token}

theorem Stream.starts (h : Stream source tokens) :
    tokens.Pairwise fun t u => t.span.start < u.span.start := by
  refine List.Pairwise.imp_of_mem ?_ h.ordered
  intro t u ht _ hle
  have := h.start_lt_stop ht
  omega

end Token

namespace Document

variable {source : String} {tokens : List Token} {d : Document} {n : NodeId}

/-- A statement has its own semicolon when that is the first token behind it. -/
theorem isTerminatedAt_eq (stream : Token.Stream source tokens) (h : d.tokens = tokens.toArray)
    (offset : Nat) :
    d.isTerminatedAt offset =
      (tokens.find? (offset ≤ ·.span.start)).any (·.kind = .semicolon) := by
  rw [isTerminatedAt, h, List.getElem?_toArray, Token.getElem?_firstFrom stream.starts]

/-- The tokens other than newlines that start in the node's own text but in none of its
    parts. -/
def ownTokens (d : Document) (node : Node) : List Token :=
  d.tokens.toList.filter fun t => t.kind ≠ .newline ∧ node.extent.content.contains t.span.start ∧
    ¬((node.kind.children.filterMap d.arena.get?).map (·.extent.outer)).any
      (·.contains t.span.start)

/-- The search looks through the node's own tokens. -/
theorem operatorToken?_eq_find? (stream : Token.Stream source tokens)
    (h : d.tokens = tokens.toArray) {node : Node} {kind : TokenKind}
    (get : d.arena.get? n = some node) (other : kind ≠ .newline) :
    d.operatorToken? n kind = (d.ownTokens node).find? (·.kind = kind) := by
  have sorted := (stream.starts.sublist
    (List.filter_sublist (p := fun u => node.extent.content.start ≤ u.span.start)))
  simp only [operatorToken?, ownTokens, get, h, List.toList_toArray,
    Token.drop_firstFrom stream.starts, Token.takeWhile_start_lt sorted]
  rw [← List.head?_filter, ← List.head?_filter, List.filter_filter, List.filter_filter,
    List.filter_filter, List.filter_filter]
  congr 2
  funext u
  rw [Bool.eq_iff_iff]
  simp only [Span.contains, Bool.and_eq_true, decide_eq_true_eq, Bool.not_eq_true']
  constructor
  · rintro ⟨⟨⟨same, outside⟩, before⟩, behind⟩
    exact ⟨same, same ▸ other, ⟨behind, before⟩, by simpa using outside⟩
  · rintro ⟨same, -, ⟨behind, before⟩, outside⟩
    exact ⟨⟨⟨same, by simpa using outside⟩, before⟩, behind⟩

/-- Of its own a node with two operands has the token between them. -/
theorem ownTokens_eq (h : d.tokens = tokens.toArray) {node left right : Node} {l r : Expr}
    {i j : NodeId} {t : Token} (children : node.kind.children = [i, j])
    (getLeft : d.arena.get? i = some left) (getRight : d.arena.get? j = some right)
    (isLeft : left.extent.outer = l.outer) (isRight : right.extent.outer = r.outer)
    (joins : Expr.Joins tokens node.extent l r t) (hleft : l.outer.start ≤ l.outer.stop)
    (hright : r.outer.start ≤ r.outer.stop) : d.ownTokens node = [t] := by
  rw [← joins.alone, ownTokens, Token.within, h, children, List.toList_toArray]
  apply List.filter_congr
  intro u _
  simp only [List.filterMap_cons, getLeft, getRight, List.filterMap_nil, List.map_cons,
    List.map_nil, List.any_cons, List.any_nil, isLeft, isRight, Span.contains, joins.starts,
    joins.stops, Bool.or_false, Bool.and_eq_true, Bool.or_eq_true, decide_eq_true_eq,
    decide_eq_decide]
  constructor
  · rintro ⟨kind, content, outside⟩
    exact ⟨kind, by omega, by omega⟩
  · rintro ⟨kind, behind, before⟩
    exact ⟨kind, by omega, by omega⟩

/-- The token between two operands is found by its class. -/
theorem operatorToken?_eq (stream : Token.Stream source tokens) (h : d.tokens = tokens.toArray)
    {node left right : Node} {l r : Expr} {i j : NodeId} {t : Token}
    (get : d.arena.get? n = some node) (children : node.kind.children = [i, j])
    (getLeft : d.arena.get? i = some left) (getRight : d.arena.get? j = some right)
    (isLeft : left.extent.outer = l.outer) (isRight : right.extent.outer = r.outer)
    (joins : Expr.Joins tokens node.extent l r t) (hleft : l.outer.start ≤ l.outer.stop)
    (hright : r.outer.start ≤ r.outer.stop) (kind : t.kind ≠ .newline) :
    d.operatorToken? n t.kind = some t := by
  rw [operatorToken?_eq_find? stream h get kind, ownTokens_eq h children getLeft getRight isLeft
    isRight joins hleft hright]
  simp

end Document

end MembershipLowering
