import MembershipLowering.Proofs.Expr.Effects
import MembershipLowering.Proofs.Lowering.Printer

/-! # Where printed characters come from

The printer copies some characters from the source and writes others itself. A printer of
located characters keeps track of that, and forgetting the places gives the plain text
(`map_program_tracing`). Followed through all copies, also those that a membership test moves to
the front, every effect is printed once, in the order of the source (`origins_body`).
-/

namespace MembershipLowering

/-- A printed character and, if it was copied, its offset in the source. -/
structure Printed where
  char : Char
  origin : Option Nat

namespace Printer

/-- The characters that begin in `[start, stop)`, of a text that begins at `offset`. -/
def located (start stop : Nat) : (offset : Nat) → List Char → List Printed
  | _, [] => []
  | offset, c :: cs =>
    (if start ≤ offset ∧ offset < stop then [⟨c, some offset⟩] else []) ++
      located start stop (offset + c.utf8Size) cs

/-- The printer of located characters. -/
def tracing (source : String) (tokens : List Token) (loose : Bool) (names : Nat → String) :
    Printer Printed :=
  adapting source tokens loose names (fun start stop => located start stop 0 source.toList)
    fun text => text.toList.map (⟨·, none⟩)

theorem map_located (start stop offset : Nat) (cs : List Char) :
    (located start stop offset cs).map (·.char) = Text.excerptFrom start stop offset cs := by
  induction cs generalizing offset with
  | nil => rfl
  | cons c cs ih =>
      rw [located, Text.excerptFrom, List.map_append, ih]
      split <;> rfl

theorem flatMap_tracing (source : String) (tokens : List Token) (loose : Bool)
    (names : Nat → String) :
    (tracing source tokens loose names).flatMap (fun item => [item.char]) =
      plain source tokens loose names := by
  have write (text : String) :
      (text.toList.map (Printed.mk · none)).map (·.char) = text.toList := by
    rw [List.map_map]
    exact List.map_id _
  simp only [tracing, flatMap_adapting, ← List.map_eq_flatMap, map_located, write]
  rfl

/-- Without the places there is only the text. -/
theorem map_program_tracing (source : String) (tokens : List Token) (loose : Bool)
    (names : Nat → String) (k start : Nat) (es : List Expr) :
    ((tracing source tokens loose names).program k start es).map (·.char) =
      (plain source tokens loose names).program k start es := by
  rw [List.map_eq_flatMap, ← flatMap_program, flatMap_tracing]

/-- The places of those copied characters that are to be kept. -/
def origins (keep : Nat → Bool) (text : List Printed) : List Nat :=
  (text.filterMap (·.origin)).filter keep

section Origins

variable {keep : Nat → Bool} {source : String} {tokens : List Token} {loose : Bool}
variable {names : Nat → String} {start mid stop : Nat}

@[simp] theorem origins_append (text text' : List Printed) :
    origins keep (text ++ text') = origins keep text ++ origins keep text' := by
  simp only [origins, List.filterMap_append, List.filter_append]

@[simp] theorem origins_write (text : String) :
    origins keep ((tracing source tokens loose names).write text) = [] := by
  have none : (text.toList.map (Printed.mk · none)).filterMap (·.origin) = [] := by
    rw [List.filterMap_eq_nil_iff]
    intro c hc
    obtain ⟨_, -, rfl⟩ := List.mem_map.1 hc
    rfl
  simp only [origins, tracing, adapting, none, List.filter_nil]

theorem mem_located {c : Printed} {offset : Nat} {cs : List Char}
    (h : c ∈ located start stop offset cs) :
    ∃ o, c.origin = some o ∧ start ≤ o ∧ offset ≤ o ∧ o < stop := by
  induction cs generalizing offset with
  | nil => cases h
  | cons d cs ih =>
      rw [located] at h
      cases List.mem_append.1 h with
      | inl here =>
          split at here
          · rename_i inside
            cases List.mem_singleton.1 here
            exact ⟨offset, rfl, inside.1, Nat.le_refl _, inside.2⟩
          · cases here
      | inr later =>
          obtain ⟨o, origin, lower, behind, upper⟩ := ih later
          exact ⟨o, origin, lower, by omega, upper⟩

theorem located_append_located (h₁ : start ≤ mid) (h₂ : mid ≤ stop) (offset : Nat)
    (cs : List Char) :
    located start mid offset cs ++ located mid stop offset cs = located start stop offset cs := by
  induction cs generalizing offset with
  | nil => rfl
  | cons c cs ih =>
      by_cases before : offset < mid
      · have same : (start ≤ offset ∧ offset < mid) ↔ (start ≤ offset ∧ offset < stop) := by omega
        simp only [located, same, if_neg (show ¬(mid ≤ offset ∧ offset < stop) by omega),
          List.nil_append, List.append_assoc, ih]
      · have none : located start mid offset (c :: cs) = [] := by
          rw [List.eq_nil_iff_forall_not_mem]
          intro d hd
          obtain ⟨o, -, -, behind, upper⟩ := mem_located hd
          omega
        have none' : located start mid (offset + c.utf8Size) cs = [] := by
          rw [List.eq_nil_iff_forall_not_mem]
          intro d hd
          obtain ⟨o, -, -, behind, upper⟩ := mem_located hd
          omega
        have same : (mid ≤ offset ∧ offset < stop) ↔ (start ≤ offset ∧ offset < stop) := by omega
        rw [none, List.nil_append, located, located, ← ih, none', List.nil_append]
        simp only [same]

/-- One character begins at the end of a front part. -/
theorem located_at (front : List Char) (c : Char) (rest : List Char) (offset : Nat) :
    located (offset + Text.byteLength front) (offset + Text.byteLength front + 1) offset
      (front ++ c :: rest) = [⟨c, some (offset + Text.byteLength front)⟩] := by
  induction front generalizing offset with
  | nil =>
      have positive := c.utf8Size_pos
      have none : located offset (offset + 1) (offset + c.utf8Size) rest = [] := by
        rw [List.eq_nil_iff_forall_not_mem]
        intro d hd
        obtain ⟨o, -, -, behind, upper⟩ := mem_located hd
        omega
      simp [located, none]
  | cons d front ih =>
      have positive := d.utf8Size_pos
      have later := ih (offset + d.utf8Size)
      rw [Nat.add_assoc] at later
      rw [List.cons_append, located, Text.byteLength_cons, later,
        if_neg (by omega), List.nil_append]

theorem copy_append_copy (h₁ : start ≤ mid) (h₂ : mid ≤ stop) :
    (tracing source tokens loose names).copy start mid ++
      (tracing source tokens loose names).copy mid stop =
        (tracing source tokens loose names).copy start stop :=
  located_append_located h₁ h₂ 0 source.toList

/-- Where nothing is to be kept, nothing is found. -/
theorem origins_copy_of_clear (h : Expr.Clear (keep · = true) start stop) :
    origins keep ((tracing source tokens loose names).copy start stop) = [] := by
  rw [origins, List.filter_eq_nil_iff]
  intro o ho
  obtain ⟨c, hc, origin⟩ := List.mem_filterMap.1 ho
  obtain ⟨o', origin', lower, -, upper⟩ := mem_located hc
  rw [origin] at origin'
  cases origin'
  exact h o lower upper

/-- A token that is to be kept is found where it starts. -/
theorem origins_copy_of_token {t : Token} (stream : Token.Stream source tokens) (ht : t ∈ tokens)
    (h : Expr.Confined (keep · = true) start stop [t]) (kept : keep t.span.start = true)
    (lower : start ≤ t.span.start) (upper : t.span.stop ≤ stop) :
    origins keep ((tracing source tokens loose names).copy start stop) = [t.span.start] := by
  have positive := stream.start_lt_stop ht
  have clear : ∀ {start' stop' : Nat}, start ≤ start' → stop' ≤ stop →
      stop' ≤ t.span.start ∨ t.span.start < start' → Expr.Clear (keep · = true) start' stop' := by
    intro start' stop' hstart hstop apart
    refine h.clear hstart hstop fun u hu lower' upper' => ?_
    cases List.mem_singleton.1 hu
    omega
  rw [← copy_append_copy lower (show t.span.start ≤ stop by omega), origins_append,
    origins_copy_of_clear (clear (Nat.le_refl _) (by omega) (.inl (Nat.le_refl _))),
    List.nil_append, ← copy_append_copy (Nat.le_succ t.span.start) (by omega), origins_append,
    origins_copy_of_clear (clear (by omega) (Nat.le_refl _) (.inr (Nat.lt_succ_self _))),
    List.append_nil]
  obtain ⟨before, chars, after, stands⟩ := stream.stands t ht
  have nonempty : chars ≠ [] := by
    rintro rfl
    have length := stands.stop
    rw [Text.byteLength_nil, stands.start] at length
    omega
  obtain ⟨c, rest, rfl⟩ := List.exists_cons_of_ne_nil nonempty
  have one := located_at before c (rest ++ after) 0
  rw [Nat.zero_add, stands.start, ← List.cons_append, ← List.append_assoc, ← stands.split] at one
  rw [origins, show (tracing source tokens loose names).copy t.span.start (t.span.start + 1) = _
    from one]
  exact List.filter_cons_of_pos kept

theorem origins_adapt {receiver : Expr} {text : List Printed} :
    origins keep ((tracing source tokens loose names).adapt receiver text) = origins keep text := by
  have front : origins keep ((tracing source tokens loose names).front receiver.form) = [] := by
    rcases Adaptation.front_cases (.decide receiver.form loose)
      (tracing source tokens loose names).write with nothing | ⟨text, -, written⟩
    · exact congrArg (origins keep) nothing
    · exact (congrArg (origins keep) written).trans (origins_write text)
  have back : origins keep ((tracing source tokens loose names).back receiver.form) = [] := by
    rcases Adaptation.back_cases (.decide receiver.form loose)
      (tracing source tokens loose names).write with nothing | ⟨text, -, written⟩
    · exact congrArg (origins keep) nothing
    · exact (congrArg (origins keep) written).trans (origins_write text)
  rw [adapt, origins_append, origins_append, front, back, List.nil_append, List.append_nil]

/-- A list of expressions is printed up to any place behind it, and then copied. -/
theorem bodyAll_append_copy {k start mid stop first last : Nat} {es : List Expr}
    (nested : Expr.NestedAll source tokens first last es) (hstart : start ≤ last)
    (hle : last ≤ mid) (hstop : mid ≤ stop) :
    (tracing source tokens loose names).bodyAll k start mid es ++
        (tracing source tokens loose names).copy mid stop =
      (tracing source tokens loose names).bodyAll k start stop es := by
  induction es generalizing k start first with
  | nil => exact copy_append_copy (by omega) hstop
  | cons e es ih =>
      cases nested with
      | cons head starts stops tail =>
          rw [bodyAll, bodyAll, List.append_assoc, ih tail stops]

section Parts

variable {k : Nat} {signed negated : Bool} {x : Extent} {first later : List Nat}

/-- Behind the arguments of a call the parenthesis is copied that closes it. -/
theorem origins_call {f : Expr} {es : List Expr} {close : Token}
    (stream : Token.Stream source tokens) (apart : f.outer.stop < close.span.start)
    (arguments : Expr.NestedAll source tokens (f.outer.stop + 1) close.span.start es)
    (closing : Token.endingAt tokens x.content.stop = [close])
    (confined : Expr.Confined (keep · = true) close.span.start x.content.stop [close])
    (kept : keep close.span.start = true)
    (callee : origins keep ((tracing source tokens loose names).around f.extent
      ((tracing source tokens loose names).body k false f)) = first)
    (others : origins keep ((tracing source tokens loose names).bodyAll (k + f.temporaries)
      f.outer.stop close.span.start es) = later) :
    origins keep ((tracing source tokens loose names).body k signed (.call x f es)) =
      first ++ (later ++ [close.span.start]) := by
  obtain ⟨isToken, stops⟩ := Expr.mem_of_endingAt closing
  have positive := stream.start_lt_stop isToken
  have whole : (tracing source tokens loose names).bodyAll (k + f.temporaries) f.outer.stop
      close.span.start es ++ (tracing source tokens loose names).copy close.span.start
        x.content.stop = (tracing source tokens loose names).bodyAll (k + f.temporaries)
          f.outer.stop x.content.stop es :=
    bodyAll_append_copy arguments (Nat.le_of_lt apart) (Nat.le_refl _) (by omega)
  rw [body, ← whole, origins_append, origins_append, callee, others,
    origins_copy_of_token stream isToken confined kept (Nat.le_refl _) (Nat.le_of_eq stops)]

/-- A sign in front is copied or written, or it is left to the operand. -/
theorem origins_not {sign : Span} {e : Expr}
    (clear : Expr.Clear (keep · = true) sign.start e.outer.start)
    (operand : ∀ signed, origins keep ((tracing source tokens loose names).around e.extent
      ((tracing source tokens loose names).body k signed e)) = first) :
    origins keep ((tracing source tokens loose names).body k signed (.not x sign e)) = first := by
  rw [body]
  split
  · exact operand true
  · split
    · rw [origins_append, origins_copy_of_clear clear]
      exact operand false
    · rw [origins_append, origins_write]
      exact operand false

/-- The right operand of a pure test comes first, but then there is nothing to be found. -/
theorem origins_membership {l r : Expr}
    (around : ∀ text, origins keep ((tracing source tokens loose names).around l.extent text) =
      origins keep text)
    (left : ∀ k, origins keep ((tracing source tokens loose names).body k false l) = first)
    (right : ∀ k, origins keep ((tracing source tokens loose names).around r.extent
      ((tracing source tokens loose names).body k false r)) = later)
    (nothing : l.isPure = true → r.isPure = true → first = [] ∧ later = []) :
    origins keep ((tracing source tokens loose names).body k signed (.membership x l r negated)) =
      first ++ later := by
  have sign : origins keep (if (negated ^^ signed) = true then
      (tracing source tokens loose names).write "!" else []) = [] := by
    split
    · exact origins_write _
    · rfl
  by_cases pure : (l.isPure && r.isPure) = true
  · have both := pure
    rw [Bool.and_eq_true] at both
    obtain ⟨rfl, rfl⟩ := nothing both.1 both.2
    simp only [body, if_pos pure, origins_append, origins_adapt, origins_write, sign, around,
      left, right]
    rfl
  · simp only [body, if_neg pure, origins_append, origins_adapt, origins_write, sign, around,
      left, right, List.append_nil, List.nil_append]

end Parts

section Body

variable (stream : Token.Stream source tokens)

include stream

/-- The parentheses around an expression hold nothing that is to be kept. -/
theorem origins_around {e : Expr} {text : List Printed}
    (h : Expr.Confined (keep · = true) e.outer.start e.outer.stop (e.effects tokens))
    (nested : e.Nested source tokens) :
    origins keep ((tracing source tokens loose names).around e.extent text) =
      origins keep text := by
  obtain ⟨front, -, back⟩ := h.content nested stream
  rw [around, origins_append, origins_append]
  rw [show e.extent.outer = e.outer from rfl, origins_copy_of_clear front,
    origins_copy_of_clear back, List.nil_append, List.append_nil]

theorem origins_operatorGap {op : BinaryOperator} {x : Extent} {l r : Expr} {t : Token}
    (joins : Expr.Joins tokens x l r t)
    (clear : Expr.Clear (keep · = true) l.outer.stop r.outer.start) :
    origins keep ((tracing source tokens loose names).operatorGap l.outer.stop r.outer.start op) =
      [] := by
  have bounds := joins.bounds
  have apart := joins.apart
  have positive := stream.start_lt_stop bounds.1
  rw [operatorGap, show Token.within (tracing source tokens loose names).tokens l.outer.stop
    r.outer.start = [t] from joins.alone]
  simp only [origins_append, origins_write, List.append_nil]
  rw [origins_copy_of_clear fun i lower upper => clear i lower (by omega),
    origins_copy_of_clear fun i lower upper => clear i (by omega) upper]
  rfl

mutual

/-- Printing an expression copies each of its effects once, in the order of the source. -/
theorem origins_body {k : Nat} {signed : Bool} {e : Expr}
    (h : Expr.Confined (keep · = true) e.outer.start e.outer.stop (e.effects tokens))
    (kept : ∀ t ∈ e.effects tokens, keep t.span.start = true) (nested : e.Nested source tokens) :
    origins keep ((tracing source tokens loose names).body k signed e) =
      (e.effects tokens).map (·.span.start) := by
  obtain ⟨-, inner, -⟩ := h.content nested stream
  cases nested with
  | @atom x a proper =>
      have clear := inner.clear (Nat.le_refl _) (Nat.le_refl _) fun t ht => by cases ht
      cases a with
      | this =>
          rw [body]
          split
          · exact origins_write _
          · exact origins_copy_of_clear clear
      | _ => exact origins_copy_of_clear clear
  | @array x es proper elements =>
      exact originsAll_body inner kept elements (Nat.le_succ _) (Nat.le_refl _)
  | @call x f es close proper callee starts apart arguments closing =>
      rw [Expr.effects, closing] at inner kept ⊢
      simp only [Expr.extent] at inner
      obtain ⟨hf, hes, hclose⟩ := inner.call callee starts apart arguments closing stream
      rw [origins_call stream apart arguments closing hclose (kept close (by simp))
        ((origins_around stream hf callee).trans
          (origins_body hf (fun t ht => kept t (by simp [ht])) callee))
        (originsAll_body hes (fun t ht => kept t (by simp [ht])) arguments (Nat.le_succ _)
          (Nat.le_refl _))]
      simp only [List.map_append, List.append_assoc, List.map_cons, List.map_nil]
  | @member x o name proper object starts apart nonempty nameStart stops =>
      simp only [Expr.extent] at inner
      have hleft : Expr.Confined (keep · = true) o.outer.start o.outer.stop (o.effects tokens) :=
        inner.narrow (by omega) (by omega)
      have clear : Expr.Clear (keep · = true) o.outer.stop name.stop := by
        refine inner.clear (by have := object.start_lt_stop; omega) (by omega) ?_
        intro t ht lower _
        have := Expr.outer_bounds_of_mem_effects (e := o) object stream ht
        omega
      rw [body]
      split
      · rename_i shorthand
        obtain ⟨y, rfl, -, -⟩ := Expr.exists_of_isShorthand shorthand
        rw [origins_append, origins_write, List.nil_append]
        exact origins_copy_of_clear fun i lower upper => clear i (by omega) upper
      · rw [origins_append, origins_around stream hleft object, origins_copy_of_clear clear,
          List.append_nil]
        exact origins_body (e := o) hleft kept object
  | @index x o i proper object starts apart key stops =>
      simp only [Expr.extent] at inner
      obtain ⟨ho, gap, hi, back⟩ := Expr.Confined.operands inner object key stream (by omega)
        (by omega) (by omega)
      rw [Expr.effects] at kept ⊢
      rw [body, origins_append, origins_append, origins_append, origins_around stream ho object,
        origins_around stream hi key, origins_copy_of_clear gap, origins_copy_of_clear back,
        List.append_nil, List.append_nil,
        origins_body ho (fun t ht => kept t (List.mem_append_left _ ht)) object,
        origins_body hi (fun t ht => kept t (List.mem_append_right _ ht)) key, List.map_append]
  | @not x sign e proper starts nonempty apart operand stops =>
      simp only [Expr.extent] at inner
      have := operand.start_lt_stop
      have he : Expr.Confined (keep · = true) e.outer.start e.outer.stop (e.effects tokens) :=
        inner.narrow (by omega) (by omega)
      have clear : Expr.Clear (keep · = true) sign.start e.outer.start := by
        refine inner.clear (by omega) (by omega) fun t ht _ upper => ?_
        have := Expr.outer_bounds_of_mem_effects (e := e) operand stream ht
        omega
      exact origins_not clear fun signed =>
        (origins_around stream he operand).trans (origins_body he kept operand)
  | @binary x l r op t proper left right joins kind spelt =>
      have bounds := joins.bounds
      obtain ⟨hl, gap, hr, -⟩ := Expr.Confined.operands inner left right stream
        (Nat.le_of_eq joins.starts) (by omega) (Nat.le_of_eq joins.stops.symm)
      rw [Expr.effects] at kept ⊢
      rw [body, origins_append, origins_append, origins_around stream hl left,
        origins_around stream hr right, origins_operatorGap stream joins gap, List.append_nil,
        origins_body hl (fun t ht => kept t (List.mem_append_left _ ht)) left,
        origins_body hr (fun t ht => kept t (List.mem_append_right _ ht)) right, List.map_append]
  | @membership x l r negated t proper left right joins kind =>
      have bounds := joins.bounds
      obtain ⟨hl, -, hr, -⟩ := Expr.Confined.operands inner left right stream
        (Nat.le_of_eq joins.starts) (by omega) (Nat.le_of_eq joins.stops.symm)
      rw [Expr.effects] at kept ⊢
      rw [List.map_append]
      refine origins_membership (fun text => origins_around stream hl left)
        (fun k => origins_body hl (fun t ht => kept t (List.mem_append_left _ ht)) left)
        (fun k => (origins_around stream hr right).trans
          (origins_body hr (fun t ht => kept t (List.mem_append_right _ ht)) right))
        fun pureLeft pureRight => ?_
      rw [Expr.effects_of_isPure tokens pureLeft, Expr.effects_of_isPure tokens pureRight]
      exact ⟨rfl, rfl⟩
  | @assign x t v sign proper left right joins kind =>
      have bounds := joins.bounds
      have apart := joins.apart
      rw [Expr.effects, joins.alone] at inner kept ⊢
      obtain ⟨ht, gap, hv⟩ := inner.assign left right joins stream
      rw [body, origins_append, origins_append, origins_around stream ht left,
        origins_around stream hv right,
        origins_copy_of_token stream bounds.1 gap (kept sign (by simp)) bounds.2.1 apart,
        origins_body ht (fun u hu => kept u (by simp [hu])) left,
        origins_body hv (fun u hu => kept u (by simp [hu])) right]
      simp only [List.map_append, List.append_assoc, List.map_cons, List.map_nil]

theorem originsAll_body {k start first stop last : Nat} {es : List Expr}
    (h : Expr.Confined (keep · = true) start stop (Expr.effectsAll tokens es))
    (kept : ∀ t ∈ Expr.effectsAll tokens es, keep t.span.start = true)
    (nested : Expr.NestedAll source tokens first last es) (hstart : start ≤ first)
    (hstop : last ≤ stop) :
    origins keep ((tracing source tokens loose names).bodyAll k start stop es) =
      (Expr.effectsAll tokens es).map (·.span.start) := by
  cases nested with
  | nil =>
      exact origins_copy_of_clear (h.clear (Nat.le_refl _) (Nat.le_refl _) fun t ht => by cases ht)
  | cons head starts stops tail =>
      obtain ⟨gap, hhead, htail⟩ := h.cons head (by omega) (by omega) tail stream
      rw [Expr.effectsAll] at kept ⊢
      rw [bodyAll, origins_append, origins_append, origins_copy_of_clear gap, List.nil_append,
        origins_around stream hhead head,
        origins_body hhead (fun t ht => kept t (List.mem_append_left _ ht)) head,
        originsAll_body htail (fun t ht => kept t (List.mem_append_right _ ht)) tail
          (Nat.le_succ _) hstop, List.map_append]

end

/-- The same for a program. -/
theorem origins_program {k start first : Nat} {es : List Expr}
    (h : Expr.Confined (keep · = true) start (Text.byteLength source.toList)
      (Expr.effectsAll tokens es))
    (kept : ∀ t ∈ Expr.effectsAll tokens es, keep t.span.start = true)
    (nested : Expr.NestedAll source tokens first (Text.byteLength source.toList) es)
    (hstart : start ≤ first) :
    origins keep ((tracing source tokens loose names).program k start es) =
      (Expr.effectsAll tokens es).map (·.span.start) := by
  induction es generalizing k start first with
  | nil =>
      exact origins_copy_of_clear (h.clear (Nat.le_refl _) (Nat.le_refl _) fun t ht => by cases ht)
  | cons e es ih =>
      cases nested with
      | cons head starts stops tail =>
          obtain ⟨gap, hhead, htail⟩ := h.cons head (by omega) (by omega) tail stream
          have semicolon : origins keep
              ((tracing source tokens loose names).semicolon e.outer.stop) = [] := by
            rw [Printer.semicolon]
            split
            · rfl
            · exact origins_write _
          rw [Expr.effectsAll] at kept ⊢
          rw [program, origins_append, origins_append, origins_append, origins_copy_of_clear gap,
            List.nil_append, origins_around stream hhead head, semicolon, List.append_nil,
            origins_body stream hhead (fun t ht => kept t (List.mem_append_left _ ht)) head,
            ih htail (fun t ht => kept t (List.mem_append_right _ ht)) tail (Nat.le_succ _),
            List.map_append]

end Body

end Origins

end Printer

end MembershipLowering
