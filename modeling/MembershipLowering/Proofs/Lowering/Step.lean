import MembershipLowering.Lowering.Traversal
import MembershipLowering.Proofs.Draft.Rewriting
import MembershipLowering.Proofs.Expr.Nesting
import MembershipLowering.Proofs.Lowering.Rules

/-! # Steps of a lowering

A `View` is a state whose draft is given by its marks. Every call that succeeds leads
from view to view, and `Step` says all that is needed to put calls after each other:
which rules may have been used up, how many temporaries were named, and what is now
written in place of a part of the source.

What is written depends on names that are handed out on the way. It is therefore given
for every numbering of names that agrees with the list of names handed out in the end.
-/

namespace MembershipLowering

namespace Lowering

/-- A state, with marks in place of the draft. -/
structure View where
  marks : Marks
  names : NameSupply
  pending : List Rule

namespace View

def state (source : String) (v : View) : State :=
  ⟨v.marks.draft source, v.names, v.pending⟩

def rule? (v : View) (n : NodeId) : Option Rule :=
  v.pending.find? (·.node = n)

end View

/-- The view without the rule of node `n`. -/
def View.drop (v : View) (n : NodeId) : View :=
  { v with pending := v.pending.filter (·.node ≠ n) }

theorem View.rule?_drop (v : View) {m n : NodeId} (h : m ≠ n) :
    (v.drop n).rule? m = v.rule? m := by
  rw [rule?, drop, Rule.find?_filter_node _ (· ≠ n), if_pos (decide_eq_true h), rule?]

/-- The numbering gives the claimed names to the first numbers. -/
def Agrees (names : Nat → String) (claimed : List String) : Prop :=
  ∀ i name, claimed[i]? = some name → names i = name

theorem Agrees.left {names : Nat → String} {claimed new : List String}
    (h : Agrees names (claimed ++ new)) : Agrees names claimed := by
  intro i name found
  exact h i name (by rw [List.getElem?_append_left (List.getElem?_eq_some_iff.1 found).1, found])

theorem agrees_getD (claimed : List String) (other : String) :
    Agrees (claimed.getD · other) claimed := by
  intro i name found
  simp only [List.getD_eq_getElem?_getD, found, Option.getD_some]

/-- What the steps from `v` to `v'` have done. -/
structure Step (source : String) (keep : Nat → Prop) (first next : Nat) (v v' : View)
    (start stop count : Nat) (text : (Nat → String) → List Char) : Prop where
  claimed : ∃ new, v'.names.claimed = v.names.claimed ++ new ∧ new.length = count
  pending : ∀ n : Nat, n < first ∨ next ≤ n → v'.rule? n = v.rule? n
  rewrites : ∀ names, Agrees names v'.names.claimed →
    v.marks.Rewrites keep source v'.marks start stop (text names)

/-- Nothing has been done yet between two offsets, and all rules from node `first` up to
    node `next` still wait. -/
structure Ready (a : Arena) (v : View) (first next start stop : Nat) : Prop where
  fresh : v.marks.Fresh start stop
  pending : ∀ n : Nat, first ≤ n → n < next → v.rule? n = a.rules.find? (·.node = n)

variable {a : Arena} {source : String} {keep : Nat → Prop} {v v₁ v' : View}
variable {first next first' next' start mid stop start' stop' : Nat} {count count' : Nat}
variable {text text' : (Nat → String) → List Char}

theorem Ready.within (h : Ready a v first next start stop) (hfirst : first ≤ first')
    (hnext : next' ≤ next) (hstart : start ≤ start') (hstop : stop' ≤ stop) :
    Ready a v first' next' start' stop' where
  fresh := h.fresh.within hstart hstop
  pending n lower upper := h.pending n (by omega) (by omega)

namespace Step

/-- Steps that touch fewer rules. -/
theorem widen (h : Step source keep first next v v' start stop count text)
    (hfirst : first' ≤ first) (hnext : next ≤ next') :
    Step source keep first' next' v v' start stop count text where
  claimed := h.claimed
  pending n outside := h.pending n (by omega)
  rewrites := h.rewrites

theorem congr_of_agrees (h : Step source keep first next v v' start stop count text)
    (same : ∀ names, Agrees names v'.names.claimed → text names = text' names)
    (hcount : count = count') : Step source keep first next v v' start stop count' text' where
  claimed := hcount ▸ h.claimed
  pending := h.pending
  rewrites names agrees := same names agrees ▸ h.rewrites names agrees

theorem congr (h : Step source keep first next v v' start stop count text)
    (same : ∀ names, text names = text' names) (hcount : count = count') :
    Step source keep first next v v' start stop count' text' :=
  h.congr_of_agrees (fun names _ => same names) hcount

/-- Steps from left to right. -/
theorem trans (h : Step source keep first next v v₁ start mid count text)
    (h' : Step source keep first next v₁ v' mid stop count' text') :
    Step source keep first next v v' start stop (count + count')
      (fun names => text names ++ text' names) where
  claimed := by
    obtain ⟨new, claimed, length⟩ := h.claimed
    obtain ⟨new', claimed', length'⟩ := h'.claimed
    refine ⟨new ++ new', by rw [claimed', claimed, List.append_assoc], ?_⟩
    rw [List.length_append, length, length']
  pending n outside := (h'.pending n outside).trans (h.pending n outside)
  rewrites names agrees := by
    obtain ⟨new', claimed', -⟩ := h'.claimed
    exact (h.rewrites names (claimed' ▸ agrees).left).trans (h'.rewrites names agrees)

/-- There is some numbering of the names, so something has been written. -/
theorem exists_rewrites (h : Step source keep first next v v' start stop count text) :
    ∃ written, v.marks.Rewrites keep source v'.marks start stop written :=
  ⟨_, h.rewrites _ (agrees_getD _ "")⟩

theorem claimed_length (h : Step source keep first next v v' start stop count text) :
    v'.names.claimed.length = v.names.claimed.length + count := by
  obtain ⟨new, claimed, length⟩ := h.claimed
  rw [claimed, List.length_append, length]

/-- What is ready elsewhere stays ready. -/
theorem ready (h : Step source keep first next v v' start stop count text)
    (ready : Ready a v first' next' start' stop') (apart : stop' < start ∨ stop ≤ start')
    (others : next' ≤ first ∨ next ≤ first') : Ready a v' first' next' start' stop' where
  fresh := by
    obtain ⟨written, rewrites⟩ := h.exists_rewrites
    exact rewrites.fresh ready.fresh apart
  pending n lower upper := (h.pending n (by omega)).trans (ready.pending n lower upper)

/-- Source text that is left alone. -/
theorem skip (fresh : v.marks.Fresh start stop) (hle : start ≤ stop)
    (hstart : Text.isBoundary start source.toList = true) :
    Step source keep first next v v start stop 0
      (fun _ => Text.excerpt start stop source.toList) where
  claimed := ⟨[], (List.append_nil _).symm, rfl⟩
  pending _ _ := rfl
  rewrites _ _ := fresh.rewrites hle hstart

/-- No step at all. -/
theorem stay (v : View) (hstart : Text.isBoundary start source.toList = true) :
    Step source keep first next v v start start 0 (fun _ => []) := by
  have fresh : v.marks.Fresh start start :=
    ⟨fun o h₁ h₂ => absurd h₁ (by omega), fun o h₁ h₂ => absurd h₁ (by omega)⟩
  exact (skip fresh (Nat.le_refl _) hstart).congr (fun _ => Text.excerpt_self ..) rfl

/-- A rule is used up. -/
theorem drop (v : View) {n : Nat} (hfirst : first ≤ n) (hnext : n < next)
    (hstart : Text.isBoundary start source.toList = true) :
    Step source keep first next v (v.drop n) start start 0 (fun _ => []) where
  claimed := ⟨[], (List.append_nil _).symm, rfl⟩
  pending m outside := v.rule?_drop (show m ≠ n by omega)
  rewrites := have none : Step source keep first next v v start start 0 _ := stay v hstart
    none.rewrites

theorem insert (v : View) {offset : Nat} (text : String)
    (hoffset : Text.isBoundary offset source.toList = true) :
    Step source keep first next v { v with marks := v.marks.insert offset text } offset offset 0
      (fun _ => text.toList) where
  claimed := ⟨[], (List.append_nil _).symm, rfl⟩
  pending _ _ := rfl
  rewrites _ _ := Marks.rewrites_insert v.marks text hoffset

theorem remove (v : View) (hle : start ≤ stop)
    (hstart : Text.isBoundary start source.toList = true)
    (hkeep : ∀ o, start ≤ o → o < stop → ¬keep o) :
    Step source keep first next v { v with marks := v.marks.remove start stop } start stop 0
      (fun _ => []) where
  claimed := ⟨[], (List.append_nil _).symm, rfl⟩
  pending _ _ := rfl
  rewrites _ _ := Marks.rewrites_remove hle hstart hkeep

/-- A fresh name is handed out, and an assignment to it begins. -/
theorem claim (v : View) {offset : Nat} {base name : String} {supply : NameSupply}
    (claimed : v.names.claim? base = some (name, supply))
    (hoffset : Text.isBoundary offset source.toList = true) :
    Step source keep first next v ⟨v.marks.insert offset (name ++ " = "), supply, v.pending⟩
      offset offset 1 (fun names => (names v.names.claimed.length).toList ++ " = ".toList) := by
  obtain ⟨fresh, -, same⟩ := Option.map_eq_some_iff.1 claimed
  cases same
  refine ⟨⟨[name], rfl, rfl⟩, fun _ _ => rfl, fun names agrees => ?_⟩
  rw [agrees v.names.claimed.length name (by simp), ← String.toList_append]
  exact Marks.rewrites_insert v.marks _ hoffset

/-- A text in place of a part of the source. -/
theorem replace (v : View) (text : String) (hle : start ≤ stop)
    (hstart : Text.isBoundary start source.toList = true)
    (hkeep : ∀ o, start ≤ o → o < stop → ¬keep o) :
    Step source keep first next v
      { v with marks := (v.marks.remove start stop).insert start text } start stop 0
      (fun _ => text.toList) where
  claimed := ⟨[], (List.append_nil _).symm, rfl⟩
  pending _ _ := rfl
  rewrites _ _ := (Marks.rewrites_insert _ text hstart).before_removal hle hkeep

/-- Source text in front, which is left alone. -/
theorem behind (h : Step source keep first next v v' mid stop count text)
    (fresh : v.marks.Fresh start mid) (hle : start ≤ mid)
    (hstart : Text.isBoundary start source.toList = true) :
    Step source keep first next v v' start stop count
      (fun names => Text.excerpt start mid source.toList ++ text names) :=
  ((skip fresh hle hstart).trans h).congr (fun _ => rfl) (Nat.zero_add _)

/-- Source text behind, which is left alone. -/
theorem before (h : Step source keep first next v v' start mid count text)
    (fresh : v.marks.Fresh mid stop) (hle : mid ≤ stop)
    (hmid : Text.isBoundary mid source.toList = true) :
    Step source keep first next v v' start stop count
      (fun names => text names ++ Text.excerpt mid stop source.toList) := by
  obtain ⟨written, rewrites⟩ := h.exists_rewrites
  exact h.trans (skip (rewrites.fresh fresh (.inr (Nat.le_refl _))) hle hmid)

/-- A text inserted at the end. -/
theorem andInsert (h : Step source keep first next v v' start stop count text) (new : String)
    (hstop : Text.isBoundary stop source.toList = true) :
    Step source keep first next v { v' with marks := v'.marks.insert stop new } start stop count
      (fun names => text names ++ new.toList) :=
  h.trans (insert v' new hstop)

/-- Steps in front of a part that are taken when the part has been dealt with and then
    removed, together with all that is between. -/
theorem ahead (part : Step source keep first next v v₁ mid stop count text)
    (front : Step source keep first next { v₁ with marks := v₁.marks.remove start' stop } v' start
      start' count' text') (hlt : start' < mid)
    (hkeep : ∀ o, start' ≤ o → o < stop → ¬keep o) :
    Step source keep first next v v' start stop (count + count') text' where
  claimed := by
    obtain ⟨new, claimed, length⟩ := part.claimed
    obtain ⟨new', claimed', length'⟩ := front.claimed
    refine ⟨new ++ new', by rw [claimed', claimed, List.append_assoc], ?_⟩
    rw [List.length_append, length, length']
  pending n outside := (front.pending n outside).trans (part.pending n outside)
  rewrites names agrees := by
    obtain ⟨written, rewrites⟩ := part.exists_rewrites
    have rest := front.rewrites names agrees
    simp only [rewrites.remove_eq hlt] at rest
    exact rest.before_removal (Nat.le_of_lt (Nat.lt_of_lt_of_le hlt rewrites.le)) hkeep

/-- The source text of the parentheses around a content. -/
theorem around {x : Extent}
    (h : Step source keep first next v v' x.content.start x.content.stop count text)
    (proper : x.Proper source) (fresh : v.marks.Fresh x.outer.start x.outer.stop) :
    Step source keep first next v v' x.outer.start x.outer.stop count (fun names =>
      Text.excerpt x.outer.start x.content.start source.toList ++ text names ++
        Text.excerpt x.content.stop x.outer.stop source.toList) := by
  have := proper.opens
  have := proper.nonempty
  have := proper.closes
  exact (h.behind (fresh.within (Nat.le_refl _) (by omega)) proper.opens proper.outerStart).before
    (fresh.within (by omega) (Nat.le_refl _)) proper.closes proper.contentStop

end Step

/-- A sequence of two actions that succeeds. -/
theorem exists_of_bind {σ α β : Type} {x : Action σ α} {f : α → Action σ β} {s s' : σ} {b : β}
    (h : (x >>= f) s = .ok b s') : ∃ a s₁, x s = .ok a s₁ ∧ f a s₁ = .ok b s' := by
  change EStateM.bind x f s = .ok b s' at h
  unfold EStateM.bind at h
  cases ran : x s with
  | ok a s₁ => rw [ran] at h; exact ⟨a, s₁, rfl, h⟩
  | error e s₁ => rw [ran] at h; cases h

/-- An action that is left out unless `c` holds, and then another one. -/
theorem exists_of_if {σ β : Type} {c : Prop} [Decidable c] {x : Action σ Unit}
    {f : Unit → Action σ β} {s s' : σ} {b : β}
    (h : (if c then x >>= f else f ()) s = .ok b s') :
    ∃ s₁, (if c then x s = .ok () s₁ else s₁ = s) ∧ f () s₁ = .ok b s' := by
  by_cases holds : c
  · rw [if_pos holds] at h
    obtain ⟨u, s₁, ran, rest⟩ := exists_of_bind h
    exact ⟨s₁, by rw [if_pos holds]; exact ran, rest⟩
  · rw [if_neg holds] at h
    exact ⟨s, by rw [if_neg holds], h⟩

/-- An insertion that succeeds marks the source. -/
theorem eq_of_insert {offset : Nat} {text : String} {u : Unit} {s : State}
    (h : Lowering.insert offset text (v.state source) = .ok u s) :
    s = { v with marks := v.marks.insert offset text }.state source := by
  obtain ⟨s₀, s₁, got, h⟩ := exists_of_bind h
  cases got
  cases inserted : (v.state source).draft.insert offset text with
  | error e => simp only [inserted] at h; cases h
  | ok draft =>
      simp only [inserted] at h
      cases h
      rw [Marks.eq_draft_of_insert inserted]
      rfl

/-- A text that is inserted only if `c` holds. -/
theorem Step.insertIf {offset : Nat} {c : Bool} {new : String} {s : State}
    (hoffset : Text.isBoundary offset source.toList = true)
    (ran : if c = true then Lowering.insert offset new (v.state source) = .ok () s
      else s = v.state source) :
    ∃ v', s = v'.state source ∧ Step source keep first next v v' offset offset 0
      fun _ => if c = true then new.toList else [] := by
  cases c with
  | false => exact ⟨v, ran, .stay v hoffset⟩
  | true => exact ⟨_, eq_of_insert ran, .insert v new hoffset⟩

theorem eq_of_remove {u : Unit} {s : State}
    (h : Lowering.remove start stop (v.state source) = .ok u s) :
    s = { v with marks := v.marks.remove start stop }.state source := by
  obtain ⟨s₀, s₁, got, h⟩ := exists_of_bind h
  cases got
  cases removed : (v.state source).draft.remove start stop with
  | error e => simp only [removed] at h; cases h
  | ok draft =>
      simp only [removed] at h
      cases h
      rw [Marks.eq_draft_of_remove removed]
      rfl

theorem eq_of_replace {span : Span} {text : String} {u : Unit} {s : State}
    (h : Lowering.replace span text (v.state source) = .ok u s) :
    s = { v with marks := (v.marks.remove span.start span.stop).insert span.start text }.state
      source := by
  obtain ⟨u₁, s₁, removed, h⟩ := exists_of_bind h
  rw [eq_of_remove removed] at h
  exact eq_of_insert h

end Lowering

end MembershipLowering
