import MembershipLowering.Proofs.Expr.Respacing
import MembershipLowering.Proofs.Token.Cutting

/-! # A newline in front of a token

When a newline is put in front of a token, the tokens of the source are found again: those in
front where they were, and the others one byte further behind (`exists_respaced`). If a bracket
is open there, nothing else changes for reading statements.
-/

namespace MembershipLowering

/-- What `n` bytes that are put in at an offset move. What stops there stays. -/
def Relocation.insert (offset n : Nat) : Relocation where
  start x := if offset ≤ x then x + n else x
  stop x := if offset < x then x + n else x
  start_mono h := by split <;> split <;> omega
  stop_mono h := by split <;> split <;> omega

namespace Token

open Lexeme

variable {front back : List Char} {source whole : String} {ts us : List Token} {t : Token}

/-- Tokens in front of the offset stay. -/
theorem relocated_front (split : source.toList = front ++ back)
    (split' : whole.toList = front ++ '\n' :: back) (ends : t.span.stop ≤ Text.byteLength front)
    (positive : t.span.start < t.span.stop) :
    Relocated source whole (.insert (Text.byteLength front) 1) t t where
  kind := rfl
  span _ := by
    rw [Span.relocate]
    simp only [Relocation.insert]
    rw [if_neg (by omega), if_neg (by omega)]
  text _ := by
    have front' : Text.byteLength (String.ofList front).toList = Text.byteLength front := by
      rw [String.toList_ofList]
    have embeds : Text.Embeds 0 (String.ofList front).toList source.toList :=
      ⟨[], back, by simp [split], rfl⟩
    have embeds' : Text.Embeds 0 (String.ofList front).toList whole.toList :=
      ⟨[], '\n' :: back, by simp [split'], rfl⟩
    exact (Span.text_shift embeds' (front' ▸ ends)).trans
      (Span.text_shift embeds (front' ▸ ends)).symm

/-- Tokens behind it are moved. -/
theorem relocated_back (split : source.toList = front ++ back)
    (split' : whole.toList = front ++ '\n' :: back)
    (starts : Text.byteLength front ≤ t.span.start)
    (ends : t.span.stop ≤ Text.byteLength source.toList) (positive : t.span.start < t.span.stop) :
    Relocated source whole (.insert (Text.byteLength front) 1) t (t.shift 1) where
  kind := rfl
  span _ := by
    rw [Span.relocate]
    simp only [Relocation.insert]
    rw [if_pos starts, if_pos (by omega)]
    rfl
  text _ := by
    let n := Text.byteLength front
    let part : Span := ⟨t.span.start - n, t.span.stop - n⟩
    have embeds : Text.Embeds n (String.ofList back).toList source.toList :=
      ⟨front, [], by simp [split], rfl⟩
    have embeds' : Text.Embeds (n + 1) (String.ofList back).toList whole.toList :=
      ⟨front ++ ['\n'], [], by simp [split'], by rw [Text.byteLength_append]; rfl⟩
    have ends' : part.stop ≤ Text.byteLength (String.ofList back).toList := by
      rw [split, Text.byteLength_append] at ends
      rw [String.toList_ofList]
      show t.span.stop - n ≤ _
      omega
    have here : part.shift n = t.span := by
      show Span.mk (t.span.start - n + n) (t.span.stop - n + n) = _
      rw [Nat.sub_add_cancel starts, Nat.sub_add_cancel (by omega)]
    have there : part.shift (n + 1) = t.span.shift 1 := by
      show Span.mk (t.span.start - n + (n + 1)) (t.span.stop - n + (n + 1)) = _
      rw [← Nat.add_assoc, ← Nat.add_assoc, Nat.sub_add_cancel starts,
        Nat.sub_add_cancel (by omega)]
      rfl
    rw [text, text, ← here, Span.text_shift embeds ends']
    exact (congrArg (·.text whole) there).symm.trans (Span.text_shift embeds' ends')

/-- The tokens of a source with a newline in front of one of them. -/
theorem exists_respaced (read : readAll source = .ok (ts ++ t :: us))
    (bracketed : 0 < nesting 0 ts) :
    ∃ front back tokens, source = front ++ back ∧
      Text.byteLength front.toList = t.span.start ∧
      readAll (front ++ "\n" ++ back) = .ok tokens ∧
      Respaced source (front ++ "\n" ++ back) (.insert t.span.start 1) 0 (ts ++ t :: us)
        tokens := by
  have stream := stream_of_readAll read
  obtain ⟨front, back, split, length, scanned⟩ := (readAll_eq_ok_iff.1 read).insert_newline
  rw [Nat.zero_add] at length
  have whole : (String.ofList front ++ "\n" ++ String.ofList back).toList =
      front ++ '\n' :: back := by simp
  have back' : ∀ {depth}, Respaced source (String.ofList front ++ "\n" ++ String.ofList back)
      (.insert t.span.start 1) depth (t :: us) ((t :: us).map (·.shift 1)) := by
    intro depth
    refine Respaced.map fun u hu => ?_
    have starts : t.span.start ≤ u.span.start := by
      rcases List.mem_cons.1 hu with rfl | later
      · exact Nat.le_refl _
      · have := (List.pairwise_cons.1 stream.right.ordered).1 u later
        have := stream.right.start_lt_stop List.mem_cons_self
        omega
    exact length ▸ relocated_back split whole (length ▸ starts)
      (stream.right.stop_le hu) (stream.right.start_lt_stop hu)
  have front' : ∀ u ∈ ts, Relocated source
      (String.ofList front ++ "\n" ++ String.ofList back) (.insert t.span.start 1) u (id u) := by
    intro u hu
    exact length ▸ relocated_front split whole
      (length ▸ stream.le_of_append hu List.mem_cons_self) (stream.left.start_lt_stop hu)
  have room : (Relocation.insert t.span.start 1).start t.span.start ≠
      (Relocation.insert t.span.start 1).stop t.span.start := by
    simp only [Relocation.insert, Nat.le_refl, if_true, Nat.lt_irrefl, if_false]
    omega
  refine ⟨String.ofList front, String.ofList back, ?_⟩
  rcases scanned with scanned | ⟨before, start, rfl, scanned⟩
  · refine ⟨_, String.toList_injective (by simp [split]), by simpa using length,
      readAll_eq_ok_iff.2 (whole ▸ scanned), ?_⟩
    have first : Respaced _ _ _ 0 ts (ts.map id) := .map front'
    rw [List.map_id] at first
    exact first.append (.newline bracketed rfl room back')
  · refine ⟨_, String.toList_injective (by simp [split]), by simpa using length,
      readAll_eq_ok_iff.2 (whole ▸ scanned), ?_⟩
    have first : Respaced _ _ _ 0 before (before.map id) :=
      .map fun u hu => front' u (List.mem_append_left _ hu)
    rw [List.map_id] at first
    rw [List.append_assoc]
    exact first.append (.token ⟨rfl, fun other => absurd rfl other, fun other => absurd rfl other⟩
      back')

end Token

end MembershipLowering
