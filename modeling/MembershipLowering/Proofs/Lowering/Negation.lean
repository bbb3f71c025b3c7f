import MembershipLowering.Proofs.Arena.Rooted
import MembershipLowering.Proofs.Lowering.Flipping

/-! # One sign more or less

The code of an accepted source and the code of the source's tree with one membership test turned
into its opposite differ in one `!` (`lower_flip_sign`). By `Document.lower_flip_cases` both are
lowered with the same names or not at all. What is written is then compared by recursion over the
tree: everything that is printed is printed once, so the sign of the flipped test gets into the
code once, wherever the test is moved, wrapped or stored (`Printer.signed_body`).
-/

namespace MembershipLowering

namespace Node

/-- The nodes, which begin at index `base`, with the opposite test at index `n`. -/
def flipFrom (n base : NodeId) (nodes : List Node) : List Node :=
  (nodes.zipIdx base).map fun (node, i) => if n = i then node.flip else node

def isTest (node : Node) : Bool :=
  match node.kind with
  | .membership .. => true
  | _ => false

/-- How many of the nodes, which begin at index `base`, are the test at index `n`. -/
def testsAt (n base : NodeId) (nodes : List Node) : Nat :=
  (nodes.zipIdx base).countP fun (node, i) => n = i && node.isTest

theorem flipFrom_append (n base : NodeId) (front back : List Node) :
    flipFrom n base (front ++ back) =
      flipFrom n base front ++ flipFrom n (base + front.length) back := by
  rw [flipFrom, List.zipIdx_append, List.map_append]
  rfl

theorem testsAt_append (n base : NodeId) (front back : List Node) :
    testsAt n base (front ++ back) =
      testsAt n base front + testsAt n (base + front.length) back := by
  rw [testsAt, List.zipIdx_append, List.countP_append]
  rfl

theorem flip_of_not_isTest {node : Node} (h : node.isTest = false) : node.flip = node := by
  obtain ⟨kind, extent⟩ := node
  cases kind <;> first | rfl | cases h

@[simp] theorem flipFrom_singleton (n base : NodeId) (node : Node) :
    flipFrom n base [node] = [if n = base then node.flip else node] := rfl

/-- A node that is no test stays. -/
theorem flipFrom_plain (n base : NodeId) {node : Node} (h : node.isTest = false) :
    flipFrom n base [node] = [node] := by
  rw [flipFrom_singleton, flip_of_not_isTest h, ite_self]

theorem testsAt_plain (n base : NodeId) {node : Node} (h : node.isTest = false) :
    testsAt n base [node] = 0 := by
  simp [testsAt, h]

theorem getElem?_flipFrom (n base i : NodeId) (nodes : List Node) :
    (flipFrom n base nodes)[i]? =
      nodes[i]?.map fun node => if n = base + i then node.flip else node := by
  rw [flipFrom, List.getElem?_map, List.getElem?_zipIdx, Option.map_map]
  rfl

theorem testsAt_eq_zero {n base : Nat} (nodes : List Node) (h : n < base) :
    testsAt n base nodes = 0 := by
  rw [testsAt, List.countP_eq_zero]
  rintro ⟨node, i⟩ mem
  have behind : base ≤ i := (List.mem_zipIdx mem).1
  have other : ¬n = i := by omega
  simp [other]

/-- There is one if the node at the index is a test. -/
theorem testsAt_eq (base i : Nat) (nodes : List Node) :
    testsAt (base + i) base nodes = if nodes[i]?.any isTest then 1 else 0 := by
  induction nodes generalizing base i with
  | nil => rfl
  | cons node nodes ih =>
      have split : testsAt (base + i) base (node :: nodes) =
          testsAt (base + i) base [node] + testsAt (base + i) (base + 1) nodes :=
        testsAt_append (base + i) base [node] nodes
      rw [split]
      cases i with
      | zero =>
          rw [Nat.add_zero, testsAt_eq_zero nodes (Nat.lt_succ_self base)]
          simp [testsAt]
      | succ i =>
          have later := ih (base + 1) i
          rw [Nat.add_assoc, Nat.add_comm 1 i] at later
          rw [later]
          simp [testsAt]

end Node

namespace Expr

mutual

/-- The expression, laid out from index `base` on, with the opposite test at index `n`. -/
def flipAt (n base : NodeId) : Expr → Expr
  | .atom x a => .atom x a
  | .array x es => .array x (flipAllAt n base es)
  | .call x f es => .call x (f.flipAt n base) (flipAllAt n (f.place base + 1) es)
  | .member x o name => .member x (o.flipAt n base) name
  | .index x o k => .index x (o.flipAt n base) (k.flipAt n (o.place base + 1))
  | .not x sign e => .not x sign (e.flipAt n base)
  | .binary x l op r => .binary x (l.flipAt n base) op (r.flipAt n (l.place base + 1))
  | .membership x l r negated =>
    .membership x (l.flipAt n base) (r.flipAt n (l.place base + 1))
      (negated ^^ decide (n = base + (l.countBelow + 1 + (r.countBelow + 1))))
  | .assign x t v => .assign x (t.flipAt n base) (v.flipAt n (t.place base + 1))

def flipAllAt (n base : NodeId) : List Expr → List Expr
  | [] => []
  | e :: es => e.flipAt n base :: flipAllAt n (e.place base + 1) es

end

variable {source : String} {tokens : List Token} {n base : NodeId}

@[simp] theorem extent_flipAt (n base : NodeId) (e : Expr) :
    (e.flipAt n base).extent = e.extent := by
  cases e <;> rfl

@[simp] theorem outer_flipAt (n base : NodeId) (e : Expr) :
    (e.flipAt n base).outer = e.outer := by
  rw [outer, extent_flipAt, outer]

@[simp] theorem form_flipAt (n base : NodeId) (e : Expr) : (e.flipAt n base).form = e.form := by
  cases e <;> rfl

@[simp] theorem isMembership_flipAt (n base : NodeId) (e : Expr) :
    (e.flipAt n base).isMembership = e.isMembership := by
  cases e <;> rfl

@[simp] theorem isShorthand_flipAt (n base : NodeId) (name : Span) (e : Expr) :
    (e.flipAt n base).isShorthand source name = e.isShorthand source name := by
  cases e <;> rfl

mutual

@[simp] theorem countBelow_flipAt (n base : NodeId) (e : Expr) :
    (e.flipAt n base).countBelow = e.countBelow := by
  cases e <;> simp [flipAt, countBelow, countBelow_flipAt, countAll_flipAllAt]

@[simp] theorem countAll_flipAllAt (n base : NodeId) (es : List Expr) :
    countAll (flipAllAt n base es) = countAll es := by
  cases es <;> simp [flipAllAt, countAll, countBelow_flipAt, countAll_flipAllAt]

end

mutual

@[simp] theorem isPure_flipAt (n base : NodeId) (e : Expr) :
    (e.flipAt n base).isPure = e.isPure := by
  cases e <;> simp [flipAt, isPure, isPure_flipAt, isPureAll_flipAllAt]

@[simp] theorem isPureAll_flipAllAt (n base : NodeId) (es : List Expr) :
    isPureAll (flipAllAt n base es) = isPureAll es := by
  cases es <;> simp [flipAllAt, isPureAll, isPure_flipAt, isPureAll_flipAllAt]

end

mutual

@[simp] theorem temporaries_flipAt (n base : NodeId) (e : Expr) :
    (e.flipAt n base).temporaries = e.temporaries := by
  cases e <;> simp [flipAt, temporaries, temporaries_flipAt, temporariesAll_flipAllAt]

@[simp] theorem temporariesAll_flipAllAt (n base : NodeId) (es : List Expr) :
    temporariesAll (flipAllAt n base es) = temporariesAll es := by
  cases es <;> simp [flipAllAt, temporariesAll, temporaries_flipAt, temporariesAll_flipAllAt]

end

@[simp] theorem place_flipAt (n base base' : NodeId) (e : Expr) :
    (e.flipAt n base).place base' = e.place base' := by
  rw [place, countBelow_flipAt, place]

@[simp] theorem places_flipAllAt (n base base' : NodeId) (es : List Expr) :
    places base' (flipAllAt n base es) = places base' es := by
  induction es generalizing base base' with
  | nil => rfl
  | cons e es ih => simp [flipAllAt, places, ih]

mutual

/-- The tree is flipped where its table is. -/
theorem layout_flipAt (n base : NodeId) (e : Expr) :
    (e.flipAt n base).layout base = Node.flipFrom n base (e.layout base) := by
  cases e with
  | membership x l r negated =>
      have last : base + (l.layout base ++ r.layout (l.place base + 1)).length =
          base + (l.countBelow + 1 + (r.countBelow + 1)) := by
        rw [List.length_append, length_layout, length_layout]
      simp only [flipAt, layout, Node.flipFrom_append, layout_flipAt n base l, layout_flipAt n _ r,
        place_flipAt, add_length_layout, Node.flipFrom_singleton, last]
      congr 2
      split <;> rename_i same <;> simp [same, Node.flip]
  | atom => exact (Node.flipFrom_plain n base rfl).symm
  | array x es =>
      simp only [flipAt, layout, Node.flipFrom_append, layoutAll_flipAllAt n base es,
        places_flipAllAt]
      rw [Node.flipFrom_plain n _ rfl]
  | call x f es =>
      simp only [flipAt, layout, Node.flipFrom_append, layout_flipAt n base f,
        layoutAll_flipAllAt n _ es, place_flipAt, places_flipAllAt, add_length_layout]
      rw [Node.flipFrom_plain n _ rfl]
  | member x o name | not x sign o =>
      simp only [flipAt, layout, Node.flipFrom_append, layout_flipAt n base o, place_flipAt]
      rw [Node.flipFrom_plain n _ rfl]
  | index x l r | binary x l op r | assign x l r =>
      simp only [flipAt, layout, Node.flipFrom_append, layout_flipAt n base l, layout_flipAt n _ r,
        place_flipAt, add_length_layout]
      rw [Node.flipFrom_plain n _ rfl]

theorem layoutAll_flipAllAt (n base : NodeId) (es : List Expr) :
    layoutAll base (flipAllAt n base es) = Node.flipFrom n base (layoutAll base es) := by
  cases es with
  | nil => rfl
  | cons e es =>
      simp only [flipAllAt, layoutAll, Node.flipFrom_append, layout_flipAt, place_flipAt,
        layoutAll_flipAllAt, add_length_layout]

end

theorem Joins.flipAt {x : Extent} {l r : Expr} {t : Token} (h : Joins tokens x l r t)
    (n i j : NodeId) : Joins tokens x (l.flipAt n i) (r.flipAt n j) t := by
  constructor
  · rw [outer_flipAt]
    exact h.starts
  · rw [outer_flipAt]
    exact h.stops
  · rw [outer_flipAt, outer_flipAt]
    exact h.alone
  · rw [outer_flipAt]
    exact h.apart

mutual

/-- Everything stands where it stood. -/
theorem Nested.flipAt {e : Expr} (h : e.Nested source tokens) (n base : NodeId) :
    (e.flipAt n base).Nested source tokens := by
  cases h with
  | atom proper => exact .atom proper
  | array proper elements => exact .array proper (elements.flipAllAt n base)
  | call proper callee starts apart arguments closes isClosing =>
      refine .call proper (callee.flipAt n base) ?_ ?_ ?_ closes isClosing
      · rwa [outer_flipAt]
      · rwa [outer_flipAt]
      · rw [outer_flipAt]
        exact arguments.flipAllAt n _
  | member proper object starts apart nonempty nameStart stops =>
      refine .member proper (object.flipAt n base) ?_ ?_ nonempty nameStart stops
      · rwa [outer_flipAt]
      · rwa [outer_flipAt]
  | index proper object starts apart key stops =>
      refine .index proper (object.flipAt n base) ?_ ?_ (key.flipAt n _) ?_
      · rwa [outer_flipAt]
      · rwa [outer_flipAt, outer_flipAt]
      · rwa [outer_flipAt]
  | not proper starts nonempty apart operand stops =>
      refine .not proper starts nonempty ?_ (operand.flipAt n base) ?_
      · rwa [outer_flipAt]
      · rwa [outer_flipAt]
  | binary proper left right joins kind spelt =>
      exact .binary proper (left.flipAt n base) (right.flipAt n _) (joins.flipAt n _ _) kind spelt
  | membership proper left right joins kind =>
      exact .membership proper (left.flipAt n base) (right.flipAt n _) (joins.flipAt n _ _) kind
  | assign proper left right joins kind =>
      exact .assign proper (left.flipAt n base) (right.flipAt n _) (joins.flipAt n _ _) kind

theorem NestedAll.flipAllAt {start stop : Nat} {es : List Expr}
    (h : NestedAll source tokens start stop es) (n base : NodeId) :
    NestedAll source tokens start stop (Expr.flipAllAt n base es) := by
  cases h with
  | nil => exact .nil
  | cons head starts stops tail =>
      refine .cons (head.flipAt n base) ?_ ?_ ?_
      · rwa [outer_flipAt]
      · rwa [outer_flipAt]
      · rw [outer_flipAt]
        exact tail.flipAllAt n _

end

end Expr

/-- The flipped document of some statements is the document of flipped statements. -/
theorem Document.ofStatements_flip (source : String) (tokens : List Token) (es : List Expr)
    (n : NodeId) : (ofStatements source tokens es).flip n =
      ofStatements source tokens (Expr.flipAllAt n 0 es) := by
  have nodes : layout source (Expr.flipAllAt n 0 es) = Node.flipFrom n 0 (layout source es) := by
    rw [layout, layout, Node.flipFrom_append, Expr.layoutAll_flipAllAt, Expr.places_flipAllAt,
      Node.flipFrom_plain n _ rfl]
  have table : (layout source es).toArray.modify n Node.flip =
      (layout source (Expr.flipAllAt n 0 es)).toArray := by
    apply Array.ext_getElem?
    intro i
    rw [nodes, Array.getElem?_modify, List.getElem?_toArray, List.getElem?_toArray,
      Node.getElem?_flipFrom, Nat.zero_add]
    split <;> simp
  rw [Document.flip, Arena.flip, ofStatements, table, ofStatements, Expr.countAll_flipAllAt]

/-! ## What is printed -/

/-- The second text is the first one with `count` signs `!` more or less. -/
inductive Signed : (count : Nat) → List Char → List Char → Prop where
  | nil : Signed 0 [] []
  | keep {count : Nat} {xs ys : List Char} (c : Char) (h : Signed count xs ys) :
      Signed count (c :: xs) (c :: ys)
  | more {count : Nat} {xs ys : List Char} (h : Signed count xs ys) :
      Signed (count + 1) xs ('!' :: ys)
  | less {count : Nat} {xs ys : List Char} (h : Signed count xs ys) :
      Signed (count + 1) ('!' :: xs) ys

namespace Signed

variable {count count' : Nat} {xs ys xs' ys' : List Char}

theorem refl (xs : List Char) : Signed 0 xs xs := by
  induction xs with
  | nil => exact .nil
  | cons c xs ih => exact .keep c ih

theorem append (h : Signed count xs ys) (h' : Signed count' xs' ys') :
    Signed (count + count') (xs ++ xs') (ys ++ ys') := by
  induction h with
  | nil => rwa [Nat.zero_add]
  | keep c _ ih => exact .keep c ih
  | more _ ih => rw [Nat.succ_add_eq_add_succ]; exact .more ih
  | less _ ih => rw [Nat.succ_add_eq_add_succ]; exact .less ih

/-- Between two texts that stay. -/
theorem between (front back : List Char) (h : Signed count xs ys) :
    Signed count (front ++ xs ++ back) (front ++ ys ++ back) := by
  have whole := ((refl front).append h).append (refl back)
  rwa [Nat.zero_add, Nat.add_zero] at whole

theorem behind (front : List Char) (h : Signed count xs ys) :
    Signed count (front ++ xs) (front ++ ys) := by
  have whole := (refl front).append h
  rwa [Nat.zero_add] at whole

theorem before (back : List Char) (h : Signed count xs ys) :
    Signed count (xs ++ back) (ys ++ back) :=
  h.append (refl back)

theorem eq_of_zero (h : Signed 0 xs ys) : xs = ys := by
  generalize none : 0 = count at h
  induction h with
  | nil => rfl
  | keep c _ ih => rw [ih none]
  | more => cases none
  | less => cases none

/-- One text is the other one with one sign put in. -/
theorem exists_of_one (h : Signed 1 xs ys) :
    ∃ front back, xs = front ++ back ∧ ys = front ++ '!' :: back ∨
      ys = front ++ back ∧ xs = front ++ '!' :: back := by
  generalize one : 1 = count at h
  induction h with
  | nil => cases one
  | keep c _ ih =>
      obtain ⟨front, back, ⟨rfl, rfl⟩ | ⟨rfl, rfl⟩⟩ := ih one
      · exact ⟨c :: front, back, .inl ⟨rfl, rfl⟩⟩
      · exact ⟨c :: front, back, .inr ⟨rfl, rfl⟩⟩
  | more h =>
      cases one
      exact ⟨[], _, .inl ⟨rfl, by rw [h.eq_of_zero]; rfl⟩⟩
  | less h =>
      cases one
      exact ⟨[], _, .inr ⟨rfl, by rw [h.eq_of_zero]; rfl⟩⟩

end Signed

namespace Printer

variable (p : Printer Char) {count : Nat} {text text' : List Char}

theorem signed_around (x : Extent) (h : Signed count text text') :
    Signed count (p.around x text) (p.around x text') :=
  h.between _ _

theorem signed_adapt (receiver : Expr) (n base : NodeId) (h : Signed count text text') :
    Signed count (p.adapt receiver text) (p.adapt (receiver.flipAt n base) text') := by
  rw [adapt, adapt, Expr.form_flipAt]
  exact h.between _ _

variable {p}

/-- The sign of the test itself. -/
theorem signed_sign (written : p.write "!" = ['!']) (negated signed here : Bool) :
    Signed (if here then 1 else 0) (if negated ^^ signed then p.write "!" else [])
      (if (negated ^^ here) ^^ signed then p.write "!" else []) := by
  rw [written]
  cases negated <;> cases signed <;> cases here
  all_goals first | exact .more .nil | exact .less .nil | exact .refl _

/-- A test has its own sign and those in its operands, in either order. -/
theorem signed_membership (written : p.write "!" = ['!']) (n base : NodeId) (k : Nat)
    (signed : Bool) (x : Extent) (l r : Expr) (negated : Bool)
    (left : ∀ k, Signed (Node.testsAt n base (l.layout base)) (p.body k false l)
      (p.body k false (l.flipAt n base)))
    (right : ∀ k, Signed (Node.testsAt n (l.place base + 1) (r.layout (l.place base + 1)))
      (p.body k false r) (p.body k false (r.flipAt n (l.place base + 1)))) :
    Signed (Node.testsAt n base ((Expr.membership x l r negated).layout base))
      (p.body k signed (.membership x l r negated))
      (p.body k signed ((Expr.membership x l r negated).flipAt n base)) := by
  have own : Node.testsAt n (base + (l.layout base ++ r.layout (l.place base + 1)).length)
      [⟨.membership (l.place base) (r.place (l.place base + 1)) negated, x⟩] =
        if decide (n = base + (l.countBelow + 1 + (r.countBelow + 1))) then 1 else 0 := by
    rw [List.length_append, Expr.length_layout, Expr.length_layout]
    simp [Node.testsAt, Node.isTest]
  rw [Expr.flipAt, Expr.layout, Node.testsAt_append, Node.testsAt_append,
    Expr.add_length_layout, own, body, body, Expr.isPure_flipAt, Expr.isPure_flipAt,
    Expr.extent_flipAt, Expr.extent_flipAt, Expr.temporaries_flipAt]
  have sign := signed_sign written negated signed
    (decide (n = base + (l.countBelow + 1 + (r.countBelow + 1))))
  generalize decide (n = base + (l.countBelow + 1 + (r.countBelow + 1))) = here at sign ⊢
  by_cases pure : (l.isPure && r.isPure) = true
  · rw [if_pos pure, if_pos pure]
    have moved := signed_adapt p r n (l.place base + 1) (signed_around p r.extent (right k))
    have kept := signed_around p l.extent (left k)
    rw [Nat.add_comm, Nat.add_comm (Node.testsAt n base (l.layout base)), ← Nat.add_assoc]
    exact (((sign.append moved).before _).append kept).before _
  · rw [if_neg pure, if_neg pure]
    have stored := (left (k + 1)).behind (p.write (p.names k) ++ p.write " = ")
    have kept := ((signed_around p l.extent stored).behind (p.write "(")).before (p.write ", ")
    have moved := signed_adapt p r n (l.place base + 1)
      (signed_around p r.extent (right (k + 1 + l.temporaries)))
    rw [Nat.add_right_comm]
    exact ((((kept.append sign).append moved).before _).before _).before _

mutual

/-- Flipping a test puts its sign in or leaves it out, and nothing else. -/
theorem signed_body (written : p.write "!" = ['!']) (n base : NodeId) (k : Nat) (signed : Bool)
    (e : Expr) :
    Signed (Node.testsAt n base (e.layout base)) (p.body k signed e)
      (p.body k signed (e.flipAt n base)) := by
  cases e with
  | atom x a =>
      rw [Expr.flipAt, Expr.layout, Node.testsAt_plain n _ rfl]
      exact .refl _
  | array x es =>
      rw [Expr.flipAt, Expr.layout, Node.testsAt_append, Node.testsAt_plain n _ rfl, body, body]
      exact signed_bodyAll written n base k _ _ es
  | call x f es =>
      rw [Expr.flipAt, Expr.layout, Node.testsAt_append, Node.testsAt_plain n _ rfl,
        Node.testsAt_append, Expr.add_length_layout, body, body, Expr.extent_flipAt,
        Expr.outer_flipAt, Expr.temporaries_flipAt]
      exact (signed_around p f.extent (signed_body written n base k false f)).append
        (signed_bodyAll written n (f.place base + 1) _ _ _ es)
  | member x o name =>
      rw [Expr.flipAt, Expr.layout, Node.testsAt_append, Node.testsAt_plain n _ rfl, body, body,
        Expr.isShorthand_flipAt, Expr.extent_flipAt, Expr.outer_flipAt]
      split
      · rename_i short
        obtain ⟨y, rfl, -⟩ := Expr.exists_of_isShorthand short
        rw [Expr.layout, Node.testsAt_plain n _ rfl]
        exact .refl _
      · exact (signed_around p o.extent (signed_body written n base k false o)).before _
  | not x sign o =>
      rw [Expr.flipAt, Expr.layout, Node.testsAt_append, Node.testsAt_plain n _ rfl, body, body,
        Expr.isMembership_flipAt, Expr.extent_flipAt, Expr.outer_flipAt]
      split
      · exact signed_around p o.extent (signed_body written n base k true o)
      · split
        · exact (signed_around p o.extent (signed_body written n base k false o)).behind _
        · exact (signed_around p o.extent (signed_body written n base k false o)).behind _
  | index x l r =>
      rw [Expr.flipAt, Expr.layout, Node.testsAt_append, Node.testsAt_plain n _ rfl,
        Node.testsAt_append, Expr.add_length_layout, body, body, Expr.extent_flipAt,
        Expr.extent_flipAt, Expr.outer_flipAt, Expr.outer_flipAt, Expr.temporaries_flipAt]
      have left := signed_around p l.extent (signed_body written n base k false l)
      have right := signed_around p r.extent
        (signed_body written n (l.place base + 1) (k + l.temporaries) false r)
      exact ((left.before _).append right).before _
  | binary x l op r | assign x l r =>
      rw [Expr.flipAt, Expr.layout, Node.testsAt_append, Node.testsAt_plain n _ rfl,
        Node.testsAt_append, Expr.add_length_layout, body, body, Expr.extent_flipAt,
        Expr.extent_flipAt, Expr.outer_flipAt, Expr.outer_flipAt, Expr.temporaries_flipAt]
      have left := signed_around p l.extent (signed_body written n base k false l)
      have right := signed_around p r.extent
        (signed_body written n (l.place base + 1) (k + l.temporaries) false r)
      exact (left.before _).append right
  | membership x l r negated =>
      exact signed_membership written n base k signed x l r negated
        (fun k => signed_body written n base k false l)
        (fun k => signed_body written n (l.place base + 1) k false r)

theorem signed_bodyAll (written : p.write "!" = ['!']) (n base : NodeId) (k start stop : Nat)
    (es : List Expr) :
    Signed (Node.testsAt n base (Expr.layoutAll base es)) (p.bodyAll k start stop es)
      (p.bodyAll k start stop (Expr.flipAllAt n base es)) := by
  cases es with
  | nil => exact .refl _
  | cons e es =>
      rw [Expr.flipAllAt, Expr.layoutAll, Node.testsAt_append, Expr.add_length_layout, bodyAll,
        bodyAll, Expr.extent_flipAt, Expr.outer_flipAt, Expr.temporaries_flipAt]
      have first := signed_around p e.extent (signed_body written n base k false e)
      exact (first.behind _).append (signed_bodyAll written n _ _ _ _ es)

end

/-- Flipping a test of a program. -/
theorem signed_program (written : p.write "!" = ['!']) (n base : NodeId) (k start : Nat)
    (es : List Expr) :
    Signed (Node.testsAt n base (Expr.layoutAll base es)) (p.program k start es)
      (p.program k start (Expr.flipAllAt n base es)) := by
  induction es generalizing k start base with
  | nil => exact .refl _
  | cons e es ih =>
      rw [Expr.flipAllAt, Expr.layoutAll, Node.testsAt_append, Expr.add_length_layout, program,
        program, Expr.extent_flipAt, Expr.outer_flipAt, Expr.temporaries_flipAt]
      have first := signed_around p e.extent (signed_body written n base k false e)
      exact ((first.behind _).before _).append (ih _ _ _)

end Printer

/-- The trees of a document and of the flipped one differ in the sign of one test. -/
theorem Document.testsAt_ofStatements {source : String} {tokens : List Token} {es : List Expr}
    {n : NodeId} (isTest : (ofStatements source tokens es).arena.isMembership n = true) :
    Node.testsAt n 0 (Expr.layoutAll 0 es) = 1 := by
  have count := Node.testsAt_eq 0 n (layout source es)
  rw [Nat.zero_add, layout, Node.testsAt_append, Node.testsAt_plain n _ rfl] at count
  rw [← Nat.add_zero (Node.testsAt _ _ _), count]
  unfold Arena.isMembership Arena.get? at isTest
  simp only [ofStatements, layout, List.getElem?_toArray] at isTest
  split at isTest
  · rename_i found
    rw [found]
    rfl
  · cases isTest

/-- A membership test of an accepted source is turned into its opposite: then lowering fails as
    before, or it hands out the same names and writes one `!` more or less. -/
theorem lower_flip_sign {source : String} {d : Document} (parsed : Document.parse source = .ok d)
    (o : Options) {n : NodeId} (isTest : d.arena.isMembership n = true) :
    (∃ e, d.lower o = .error e ∧ (d.flip n).lower o = .error e) ∨
      ∃ out out', d.lower o = .ok out ∧ (d.flip n).lower o = .ok out' ∧
        out'.bindings = out.bindings ∧
        ∃ front back, out.code = front ++ back ∧ out'.code = front ++ "!" ++ back ∨
          out'.code = front ++ back ∧ out.code = front ++ "!" ++ back := by
  rcases d.lower_flip_cases o n with failed | ⟨out, out', ran, ran', bindings⟩
  · exact .inl failed
  refine .inr ⟨out, out', ran, ran', bindings, ?_⟩
  obtain ⟨tokens, es, read, accepted, rfl⟩ := Document.exists_of_parse parsed
  have nested := Parser.nested_of_statements read accepted
  rw [Document.ofStatements_flip] at ran'
  let names (k : Nat) : String := out.bindings.getD k ""
  have agrees : Lowering.Agrees names out.bindings := Lowering.agrees_getD out.bindings ""
  have code := (Lowering.toList_code_of_nested read nested ran agrees).1
  have code' := (Lowering.toList_code_of_nested read (nested.flipAllAt n 0) ran'
    (bindings ▸ agrees)).1
  have signed := Printer.signed_program (p := .plain source tokens o.looseIncludes names) rfl n 0
    0 0 es
  rw [← code, ← code', Document.testsAt_ofStatements isTest] at signed
  obtain ⟨front, back, cases⟩ := signed.exists_of_one
  have without : ∀ {text : String}, text.toList = front ++ back →
      text = String.ofList front ++ String.ofList back := fun same => by
    rw [← String.ofList_append, ← same, String.ofList_toList]
  have withSign : ∀ {text : String}, text.toList = front ++ '!' :: back →
      text = String.ofList front ++ "!" ++ String.ofList back := fun same => by
    rw [String.append_assoc, ← String.ofList_toList (s := "!"), ← String.ofList_append,
      ← String.ofList_append]
    exact (String.ofList_toList).symm.trans (congrArg String.ofList same)
  refine ⟨String.ofList front, String.ofList back, ?_⟩
  rcases cases with ⟨plain, signed⟩ | ⟨plain, signed⟩
  · exact .inl ⟨without plain, withSign signed⟩
  · exact .inr ⟨without plain, withSign signed⟩

/-- A test in the argument of a call. -/
theorem lower_flip_sign_argument :
    ∃ d, Document.parse "f(a in @b) or c" = .ok d ∧ d.arena.isMembership 4 = true ∧
      d.lower .standard = .ok ⟨"f(Array.from(this.b).includes(a)) || c;", []⟩ ∧
      (d.flip 4).lower .standard = .ok ⟨"f(!Array.from(this.b).includes(a)) || c;", []⟩ ∧
      ((∃ e, d.lower .standard = .error e ∧ (d.flip 4).lower .standard = .error e) ∨
        ∃ out out', d.lower .standard = .ok out ∧ (d.flip 4).lower .standard = .ok out' ∧
          out'.bindings = out.bindings ∧
          ∃ front back, out.code = front ++ back ∧ out'.code = front ++ "!" ++ back ∨
            out'.code = front ++ back ∧ out.code = front ++ "!" ++ back) := by
  obtain ⟨d, parsed, isTest, lowered, lowered'⟩ : ∃ d, Document.parse "f(a in @b) or c" = .ok d ∧
      d.arena.isMembership 4 = true ∧
      d.lower .standard = .ok ⟨"f(Array.from(this.b).includes(a)) || c;", []⟩ ∧
      (d.flip 4).lower .standard = .ok ⟨"f(!Array.from(this.b).includes(a)) || c;", []⟩ := by
    decide +kernel
  exact ⟨d, parsed, isTest, lowered, lowered', lower_flip_sign parsed .standard isTest⟩

end MembershipLowering
