import MembershipLowering.Proofs.Expr.Nesting
import MembershipLowering.Proofs.Token.Joining

/-! # Tokens of a source within a larger one

What the tokens of a source become when other text is put before or behind it
(`Embedding`), and that what is looked up among them stays the same: the tokens between two
places, and whether a semicolon comes next. Of two sources with a newline between them both
are embedded (`exists_of_readAll`).
-/

namespace MembershipLowering.Token

/-- The token `u` of the whole is the token `t` of the source, `n` bytes further behind. A
    newline may have become longer. -/
structure Moved (source whole : String) (n : Nat) (t u : Token) : Prop where
  kind : u.kind = t.kind
  start : u.span.start = t.span.start + n
  span : t.kind ≠ .newline → u.span = t.span.shift n
  text : t.kind ≠ .newline → u.text whole = t.text source

/-- A source stands in the whole from byte `n` on, and its tokens are among those of the whole,
    moved by `f`. Where it ends there is a newline, as its last token or as the next one. -/
structure Embedding (source whole : String) (n : Nat) (f : Token → Token)
    (before tokens after : List Token) : Prop where
  embeds : Text.Embeds n source.toList whole.toList
  moved : ∀ t ∈ tokens, Moved source whole n t (f t)
  front : ∀ t ∈ before, t.span.start < n
  back : ∀ t ∈ after, Text.byteLength source.toList + n ≤ t.span.start
  seam : (∀ t ∈ after.head?, t.kind = .newline) ∨
    ∃ t, tokens.getLast? = some t ∧ t.kind = .newline

theorem Moved.eq_shift {source whole : String} {n : Nat} {t u : Token}
    (h : Moved source whole n t u) (other : t.kind ≠ .newline) : u = t.shift n := by
  obtain ⟨kind, span⟩ := u
  rw [shift, ← h.kind, ← h.span other]

theorem moved_of_embeds {source whole : String} {n : Nat} {t u : Token} {tokens : List Token}
    (embeds : Text.Embeds n source.toList whole.toList) (stream : Stream source tokens)
    (ht : t ∈ tokens) (kind : u.kind = t.kind) (start : u.span.start = t.span.start + n)
    (span : t.kind ≠ .newline → u.span = t.span.shift n) : Moved source whole n t u where
  kind := kind
  start := start
  span := span
  text other := by
    rw [text, span other, Span.text_shift embeds (stream.stop_le ht), text]

namespace Embedding

variable {source whole : String} {n start stop : Nat} {f : Token → Token}
  {before tokens after : List Token}

/-- Between two places of the source stand the same tokens and no others. -/
theorem within_shift (h : Embedding source whole n f before tokens after)
    (hstop : stop ≤ Text.byteLength source.toList) :
    within (before ++ tokens.map f ++ after) (start + n) (stop + n) =
      (within tokens start stop).map (·.shift n) := by
  have first : within before (start + n) (stop + n) = [] := by
    rw [within, List.filter_eq_nil_iff]
    intro t ht isWithin
    have := h.front t ht
    simp only [decide_eq_true_eq] at isWithin
    omega
  have last : within after (start + n) (stop + n) = [] := by
    rw [within, List.filter_eq_nil_iff]
    intro t ht isWithin
    have := h.back t ht
    simp only [decide_eq_true_eq] at isWithin
    omega
  have middle : within (tokens.map f) (start + n) (stop + n) =
      (within tokens start stop).map f := by
    rw [within, within, List.filter_map]
    refine congrArg (List.map f) (List.filter_congr fun t ht => ?_)
    simp only [Function.comp_apply, (h.moved t ht).kind, (h.moved t ht).start,
      Nat.add_le_add_iff_right, Nat.add_lt_add_iff_right]
  rw [Parser.within_append, Parser.within_append, first, last, middle, List.nil_append,
    List.append_nil]
  refine List.map_congr_left fun t ht => ?_
  obtain ⟨among, isWithin⟩ := List.mem_filter.1 ht
  exact (h.moved t among).eq_shift (of_decide_eq_true isWithin).1

/-- Behind a token of the source that is no newline comes a semicolon in the whole exactly if
    one comes in the source. -/
theorem semicolon_shift (h : Embedding source whole n f before tokens after)
    (stream : Stream source tokens) {t : Token} (ht : t ∈ tokens) (other : t.kind ≠ .newline) :
    ((before ++ tokens.map f ++ after).find? (t.span.stop + n ≤ ·.span.start)).any
        (·.kind = .semicolon) =
      (tokens.find? (t.span.stop ≤ ·.span.start)).any (·.kind = .semicolon) := by
  have first : before.find? (fun u => decide (t.span.stop + n ≤ u.span.start)) = none := by
    rw [List.find?_eq_none]
    intro u hu isBehind
    have := h.front u hu
    simp only [decide_eq_true_eq] at isBehind
    omega
  have middle : (tokens.map f).find? (fun u => decide (t.span.stop + n ≤ u.span.start)) =
      (tokens.find? (t.span.stop ≤ ·.span.start)).map f := by
    rw [← List.head?_filter, ← List.head?_filter, List.filter_map, List.head?_map]
    refine congrArg (fun us => (List.head? us).map f) (List.filter_congr fun u hu => ?_)
    simp only [Function.comp_apply, (h.moved u hu).start, Nat.add_le_add_iff_right]
  rw [List.append_assoc, List.find?_append, first, Option.none_or, List.find?_append, middle]
  cases found : tokens.find? (t.span.stop ≤ ·.span.start) with
  | some u =>
      have moved := h.moved u (List.mem_of_find?_eq_some found)
      simp only [Option.map_some, Option.some_or, Option.any_some, moved.kind]
  | none =>
      simp only [Option.map_none, Option.none_or, Option.any_none]
      rcases h.seam with newline | ⟨u, isLast, newline⟩
      · cases after with
        | nil => rfl
        | cons u us =>
            have := h.back u List.mem_cons_self
            have := stream.stop_le ht
            rw [List.find?_cons_of_pos (by simp only [decide_eq_true_eq]; omega), Option.any_some,
              newline u rfl]
            rfl
      · obtain ⟨front, rfl⟩ := List.getLast?_eq_some_iff.1 isLast
        have isFront : t ∈ front := by
          cases List.mem_append.1 ht with
          | inl earlier => exact earlier
          | inr same => exact absurd newline (List.mem_singleton.1 same ▸ other)
        have behind := stream.le_of_append isFront List.mem_cons_self
        exact absurd (decide_eq_true behind)
          (List.find?_eq_none.1 found u (List.mem_append_right _ List.mem_cons_self))

end Embedding

section Join

variable {a b : String} {tokens later : List Token} {n : Nat}

theorem toList_join (a b : String) :
    (a ++ "\n" ++ b).toList = a.toList ++ '\n' :: b.toList := by
  simp

theorem embeds_front (a b : String) : Text.Embeds 0 a.toList (a ++ "\n" ++ b).toList :=
  ⟨[], '\n' :: b.toList, toList_join a b, rfl⟩

theorem embeds_back (a b : String) :
    Text.Embeds (Text.byteLength a.toList + 1) b.toList (a ++ "\n" ++ b).toList :=
  ⟨a.toList ++ ['\n'], [], by simp, by rw [Text.byteLength_append]; rfl⟩

/-- Two sources with a newline between them, which is one of `between` or has become part of
    the last token of the first source. -/
theorem embeddings_of_moved {f : Token → Token} {between : List Token}
    (read : readAll a = .ok tokens) (read' : readAll b = .ok later)
    (length : n = Text.byteLength a.toList + 1)
    (moved : ∀ t ∈ tokens, Moved a (a ++ "\n" ++ b) 0 t (f t))
    (newline : ∀ t ∈ between, t.kind = .newline ∧ t.span.start = Text.byteLength a.toList)
    (seam : between ≠ [] ∨ ∃ t, tokens.getLast? = some t ∧ t.kind = .newline) :
    Embedding a (a ++ "\n" ++ b) 0 f [] tokens (between ++ later.map (·.shift n)) ∧
      Embedding b (a ++ "\n" ++ b) n (·.shift n) (tokens.map f ++ between) later [] := by
  refine ⟨⟨embeds_front a b, moved, nofun, fun t ht => ?_, seam.imp_left fun some t ht => ?_⟩,
    ⟨length ▸ embeds_back a b, fun t ht => ?_, fun t ht => ?_, nofun, .inl nofun⟩⟩
  · rcases List.mem_append.1 ht with among | among
    · exact Nat.le_of_eq (newline t among).2.symm
    · obtain ⟨u, -, rfl⟩ := List.mem_map.1 among
      have : (u.shift n).span.start = u.span.start + n := rfl
      omega
  · cases between with
    | nil => exact absurd rfl some
    | cons u us => exact (newline t (List.mem_of_head? (by simpa using ht))).1
  · exact moved_of_embeds (length ▸ embeds_back a b) (stream_of_readAll read') ht rfl rfl
      fun _ => rfl
  · rcases List.mem_append.1 ht with among | among
    · obtain ⟨u, hu, rfl⟩ := List.mem_map.1 among
      have positive := (stream_of_readAll read).start_lt_stop hu
      have inside := (stream_of_readAll read).stop_le hu
      rw [(moved u hu).start]
      omega
    · have := (newline t among).2
      omega

/-- The tokens of two sources with a newline between them. -/
theorem exists_of_readAll (read : readAll a = .ok tokens) (read' : readAll b = .ok later)
    (length : n = Text.byteLength a.toList + 1) :
    ∃ f between, readAll (a ++ "\n" ++ b) =
        .ok (tokens.map f ++ (between ++ later.map (·.shift n))) ∧
      (∀ t ∈ between, t.kind = .newline) ∧
      Embedding a (a ++ "\n" ++ b) 0 f [] tokens (between ++ later.map (·.shift n)) ∧
      Embedding b (a ++ "\n" ++ b) n (·.shift n) (tokens.map f ++ between) later [] := by
  have stream := stream_of_readAll read
  have scanned := (readAll_eq_ok_iff.1 read').shift n
  rw [Nat.zero_add, length] at scanned
  have joined := (readAll_eq_ok_iff.1 read).join (Nat.zero_add _) scanned
  rw [← toList_join, ← length] at joined
  rcases joined with joined | ⟨front, start, rfl, joined⟩
  · refine ⟨id, [⟨.newline, Text.byteLength a.toList, n⟩], ?_, by simp,
      embeddings_of_moved read read' length (fun t ht => ?_) (by simp) (.inl (by simp))⟩
    · rw [List.map_id]
      exact readAll_eq_ok_iff.2 joined
    · exact moved_of_embeds (embeds_front a b) stream ht rfl rfl fun _ => rfl
  · let last : Token := ⟨.newline, start, Text.byteLength a.toList⟩
    let longer : Token := ⟨.newline, start, n⟩
    have other : ∀ t ∈ front, t ≠ last := by
      rintro t ht rfl
      have positive := stream.start_lt_stop (List.mem_append_left _ ht)
      exact Nat.not_le.2 positive (stream.le_of_append ht List.mem_cons_self)
    have same : front.map (fun t => if t = last then longer else t) = front := by
      rw [List.map_congr_left fun t ht => if_neg (other t ht), List.map_id']
    refine ⟨fun t => if t = last then longer else t, [], ?_, by simp,
      embeddings_of_moved read read' length (fun t ht => ?_) (by simp)
        (.inr ⟨last, List.getLast?_concat, rfl⟩)⟩
    · rw [List.map_append, same, List.map_singleton, if_pos rfl, List.append_assoc]
      exact readAll_eq_ok_iff.2 joined
    · by_cases isLast : t = last
      · subst isLast
        rw [if_pos rfl]
        exact moved_of_embeds (embeds_front a b) stream ht rfl rfl fun other => absurd rfl other
      · rw [if_neg isLast]
        exact moved_of_embeds (embeds_front a b) stream ht rfl rfl fun _ => rfl

end Join

end MembershipLowering.Token
