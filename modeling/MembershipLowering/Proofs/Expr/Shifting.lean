import MembershipLowering.Proofs.Expr.Height
import MembershipLowering.Proofs.Expr.Respacing
import MembershipLowering.Proofs.Token.Embedding

/-! # Trees of a source within a larger one

When the tokens of a source are found further behind in a larger one, its statements are
read there as the same trees further behind (`statements_shift`). Tokens that are moved are
tokens that are put elsewhere, with no newlines between them.
-/

namespace MembershipLowering

namespace Extent

/-- The extent `n` bytes further behind. -/
def shift (n : Nat) (x : Extent) : Extent :=
  ⟨x.outer.shift n, x.content.shift n⟩

@[simp] theorem shift_content (n : Nat) (x : Extent) :
    (x.shift n).content = x.content.shift n := rfl

end Extent

namespace Expr

mutual

/-- The expression `n` bytes further behind. -/
def shift (n : Nat) : Expr → Expr
  | .atom x a => .atom (x.shift n) a
  | .array x es => .array (x.shift n) (shiftAll n es)
  | .call x f es => .call (x.shift n) (f.shift n) (shiftAll n es)
  | .member x o name => .member (x.shift n) (o.shift n) (name.shift n)
  | .index x o k => .index (x.shift n) (o.shift n) (k.shift n)
  | .not x sign e => .not (x.shift n) (sign.shift n) (e.shift n)
  | .binary x l op r => .binary (x.shift n) (l.shift n) op (r.shift n)
  | .membership x l r negated => .membership (x.shift n) (l.shift n) (r.shift n) negated
  | .assign x t v => .assign (x.shift n) (t.shift n) (v.shift n)

def shiftAll (n : Nat) : List Expr → List Expr
  | [] => []
  | e :: es => e.shift n :: shiftAll n es

end

variable (n : Nat) (e : Expr)

@[simp] theorem extent_shift : (e.shift n).extent = e.extent.shift n := by
  cases e <;> rfl

@[simp] theorem outer_shift : (e.shift n).outer = e.outer.shift n := by
  cases e <;> rfl

@[simp] theorem form_shift : (e.shift n).form = e.form := by
  cases e with
  | atom x a => cases a <;> rfl
  | _ => rfl

@[simp] theorem isMembership_shift : (e.shift n).isMembership = e.isMembership := by
  cases e <;> rfl

mutual

theorem relocate_shift (n : Nat) (e : Expr) : e.relocate (.shift n) = e.shift n := by
  cases e with
  | atom => rfl
  | array x es => exact congrArg _ (relocateAll_shift n es)
  | call x f es =>
      simp only [relocate, shift, relocate_shift n f, relocateAll_shift n es]
      rfl
  | member x o name | not x sign o =>
      simp only [relocate, shift, relocate_shift n o]
      rfl
  | index x l r | binary x l op r | membership x l r negated | assign x l r =>
      simp only [relocate, shift, relocate_shift n l, relocate_shift n r]
      rfl

theorem relocateAll_shift (n : Nat) (es : List Expr) :
    relocateAll (.shift n) es = shiftAll n es := by
  cases es with
  | nil => rfl
  | cons e es => simp only [relocateAll, shiftAll, relocate_shift n e, relocateAll_shift n es]

end

mutual

@[simp] theorem isPure_shift (n : Nat) (e : Expr) : (e.shift n).isPure = e.isPure := by
  cases e with
  | array x es => exact isPureAll_shift n es
  | member x o name => exact isPure_shift n o
  | not x sign o => exact isPure_shift n o
  | index x l r | binary x l op r | membership x l r negated =>
      simp only [shift, isPure, isPure_shift n l, isPure_shift n r]
  | _ => rfl

@[simp] theorem isPureAll_shift (n : Nat) (es : List Expr) :
    isPureAll (shiftAll n es) = isPureAll es := by
  cases es with
  | nil => rfl
  | cons e es => simp only [shiftAll, isPureAll, isPure_shift n e, isPureAll_shift n es]

end

mutual

@[simp] theorem temporaries_shift (n : Nat) (e : Expr) :
    (e.shift n).temporaries = e.temporaries := by
  cases e with
  | atom => rfl
  | array x es => exact temporariesAll_shift n es
  | call x f es =>
      simp only [shift, temporaries, temporaries_shift n f, temporariesAll_shift n es]
  | member x o name => exact temporaries_shift n o
  | not x sign o => exact temporaries_shift n o
  | index x l r | binary x l op r | membership x l r negated | assign x l r =>
      simp only [shift, temporaries, isPure_shift, temporaries_shift n l, temporaries_shift n r]

@[simp] theorem temporariesAll_shift (n : Nat) (es : List Expr) :
    temporariesAll (shiftAll n es) = temporariesAll es := by
  cases es with
  | nil => rfl
  | cons e es =>
      simp only [shiftAll, temporariesAll, temporaries_shift n e, temporariesAll_shift n es]

end

end Expr

namespace Extent.Proper

variable {source : String} {x : Extent}

theorem outerStart_le (h : x.Proper source) : x.outer.start ≤ Text.byteLength source.toList :=
  Text.le_byteLength_of_isBoundary h.outerStart

theorem outerStop_le (h : x.Proper source) : x.outer.stop ≤ Text.byteLength source.toList :=
  Text.le_byteLength_of_isBoundary h.outerStop

theorem contentStop_le (h : x.Proper source) : x.content.stop ≤ Text.byteLength source.toList :=
  Text.le_byteLength_of_isBoundary h.contentStop

end Extent.Proper

namespace Expr

variable {source whole : String} {n : Nat} {tokens : List Token}

theorem isShorthand_shift (embeds : Text.Embeds n source.toList whole.toList) {o : Expr}
    (nested : o.Nested source tokens) (name : Span) :
    (o.shift n).isShorthand whole (name.shift n) = o.isShorthand source name := by
  cases o with
  | atom x a =>
      cases a with
      | this =>
          have same : (x.content.shift n).text whole = x.content.text source :=
            Span.text_shift embeds nested.proper.contentStop_le
          simp only [shift, isShorthand, Extent.shift, Span.shift_stop, Span.shift_start,
            Nat.add_right_cancel_iff, same]
      | _ => rfl
  | _ => rfl

mutual

/-- Lowering goes as far down as in the source alone. -/
theorem levels_shift (embeds : Text.Embeds n source.toList whole.toList) {e : Expr}
    (nested : e.Nested source tokens) : (e.shift n).levels whole = e.levels source := by
  cases nested with
  | atom => rfl
  | array _ elements => exact congrArg (· + 1) (levelsAll_shift embeds elements)
  | call _ callee _ _ arguments =>
      simp only [shift, levels, levels_shift embeds callee, levelsAll_shift embeds arguments]
  | member _ object =>
      simp only [shift, levels, isShorthand_shift embeds object, levels_shift embeds object]
  | not _ _ _ _ operand => exact congrArg (· + 1) (levels_shift embeds operand)
  | index _ left _ _ right | binary _ left right | membership _ left right
  | assign _ left right =>
      simp only [shift, levels, levels_shift embeds left, levels_shift embeds right]

theorem levelsAll_shift (embeds : Text.Embeds n source.toList whole.toList) {es : List Expr}
    {start stop : Nat} (nested : NestedAll source tokens start stop es) :
    levelsAll whole (shiftAll n es) = levelsAll source es := by
  cases nested with
  | nil => rfl
  | cons head _ _ tail =>
      simp only [shiftAll, levelsAll, levels_shift embeds head, levelsAll_shift embeds tail]

end

end Expr

theorem Token.Moved.relocated {source whole : String} {n : Nat} {t u : Token}
    (h : Moved source whole n t u) : Relocated source whole (.shift n) t u :=
  ⟨h.kind, h.span, h.text⟩

namespace Parser

open Token

variable {source whole : String} {n : Nat} {f : Token → Token}

/-- The statements of a source that is followed by a newline are read in the whole, and then
    what comes behind. -/
theorem statements_shift {before tokens after : List Token} {es : List Expr}
    (embedding : Embedding source whole n f before tokens after)
    (read : statements source tokens = .ok es) :
    statements whole (tokens.map f ++ after) =
      (statements whole after).map (Expr.shiftAll n es ++ ·) := by
  have seam : ∀ t ∈ tokens.getLast?, t.kind.isSeparator = true ∨
      ∀ u ∈ after.head?, u.kind.isSeparator = true := by
    intro t isLast
    rcases embedding.seam with newline | ⟨u, isLast', newline⟩
    · exact .inr fun u hu => by rw [newline u hu]; rfl
    · cases isLast.symm.trans isLast'
      exact .inl (by rw [newline]; rfl)
  have respaced := (statements_sound read).statements_respaced read
    (.map fun t ht => (embedding.moved t ht).relocated) (fun _ _ _ _ _ _ _ => rfl) seam
  rwa [Expr.relocateAll_shift] at respaced

/-- Newlines in front of statements are passed over. -/
theorem statements_append_newlines {source : String} {between : List Token}
    (newline : ∀ t ∈ between, t.kind = .newline) (ts : List Token) :
    statements source (between ++ ts) = statements source ts := by
  induction between with
  | nil => rfl
  | cons t between ih =>
      rw [List.cons_append, statements, if_pos (by rw [newline t List.mem_cons_self]; rfl)]
      exact ih fun u hu => newline u (List.mem_cons_of_mem _ hu)

end Parser

end MembershipLowering
