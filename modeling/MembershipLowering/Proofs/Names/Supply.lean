import MembershipLowering.NameSupply

/-! # What a supply of names hands out

The names that a supply can hand out are those of its candidates that are not in use, and it
hands them out in their order. No two candidates are the same, so a name that has been handed
out leaves all others free (`exists_advance?`).
-/

namespace MembershipLowering.NameSupply

variable {base : String} {s : NameSupply}

/-- The supply after `count` names made from `base` have been handed out, if there are as many. -/
def advance? (base : String) : (count : Nat) → NameSupply → Option NameSupply
  | 0, s => some s
  | count + 1, s => (s.claim? base).bind fun claimed => advance? base count claimed.2

theorem advance?_add (base : String) (m n : Nat) (s : NameSupply) :
    advance? base (m + n) s = (advance? base m s).bind (advance? base n) := by
  induction m generalizing s with
  | zero => rw [Nat.zero_add]; rfl
  | succ m ih =>
      rw [Nat.succ_add, advance?, advance?]
      cases s.claim? base with
      | none => rfl
      | some claimed => exact ih claimed.2

/-- All names that can be made from `base`, in order. -/
def candidates (base : String) : List String :=
  (List.range (maxSuffix + 1)).map (candidate base)

/-- The names made from `base` that are not in use. -/
def free (s : NameSupply) (base : String) : List String :=
  (candidates base).filter fun name => !s.isUsed name

theorem free_avoiding (names : List String) (base : String) :
    (avoiding names).free base = (candidates base).filter (· ∉ names) := by
  refine List.filter_congr fun name _ => ?_
  simp [isUsed, avoiding, Std.HashSet.contains_ofList]

theorem candidate_injective {i j : Nat} (h : candidate base i = candidate base j) : i = j := by
  have suffix : ∀ n, (candidate base n).toList =
      base.toList ++ if n = 0 then [] else Nat.toDigits 10 n := by
    intro n
    cases n with
    | zero => simp [candidate]
    | succ n => simp [candidate]
  have same := congrArg String.toList h
  rw [suffix, suffix] at same
  have digits := List.append_cancel_left same
  by_cases hi : i = 0 <;> by_cases hj : j = 0
  · rw [hi, hj]
  · rw [if_pos hi, if_neg hj] at digits
    exact absurd digits.symm Nat.toDigits_ne_nil
  · rw [if_neg hi, if_pos hj] at digits
    exact absurd digits Nat.toDigits_ne_nil
  · rw [if_neg hi, if_neg hj] at digits
    simpa using congrArg (Nat.ofDigitChars 10 · 0) digits

theorem candidates_nodup (base : String) : (candidates base).Nodup := by
  refine List.pairwise_map.2 (List.Pairwise.imp_of_mem ?_ List.nodup_range)
  intro i j _ _ apart same
  exact apart (candidate_injective same)

theorem free_nodup (s : NameSupply) (base : String) : (s.free base).Nodup :=
  List.Pairwise.sublist List.filter_sublist (candidates_nodup base)

/-- The next name that is handed out is the first free one. -/
theorem fresh?_eq (s : NameSupply) (base : String) : s.fresh? base = (s.free base).head? := by
  rw [free, List.head?_filter, candidates, List.find?_map]
  rfl

theorem claim?_of_free {name : String} {rest : List String} (h : s.free base = name :: rest) :
    s.claim? base = some (name, ⟨s.used.insert name, s.claimed ++ [name]⟩) := by
  rw [claim?, fresh?_eq, h]
  rfl

/-- A name that has been handed out is free no more, but all others still are. -/
theorem free_claim {name : String} {rest : List String} (h : s.free base = name :: rest)
    (claimed : List String) : NameSupply.free ⟨s.used.insert name, claimed⟩ base = rest := by
  have still : NameSupply.free ⟨s.used.insert name, claimed⟩ base =
      (s.free base).filter (· ≠ name) := by
    rw [free, free, List.filter_filter]
    refine List.filter_congr fun other _ => ?_
    simp only [isUsed, Std.HashSet.contains_insert, Bool.not_or, ne_eq, decide_not]
    by_cases same : other = name <;> simp [same, Ne.symm]
  have nodup := s.free_nodup base
  rw [h] at nodup still
  rw [still, List.filter_cons_of_neg (by simp), List.filter_eq_self]
  intro other later
  have := (List.pairwise_cons.1 nodup).1 other later
  simpa using Ne.symm this

/-- As many names as are free are handed out in order. -/
theorem exists_advance? {count : Nat} (h : count ≤ (s.free base).length) :
    ∃ supply, advance? base count s = some supply ∧
      supply.claimed = s.claimed ++ (s.free base).take count := by
  induction count generalizing s with
  | zero => exact ⟨s, rfl, by simp⟩
  | succ count ih =>
      cases names : s.free base with
      | nil => rw [names] at h; cases h
      | cons name rest =>
          rw [names] at h
          have later := free_claim names (s.claimed ++ [name])
          obtain ⟨supply, advanced, claimed⟩ := ih (s := ⟨s.used.insert name, s.claimed ++ [name]⟩)
            (by rw [later]; exact Nat.le_of_succ_le_succ h)
          refine ⟨supply, ?_, ?_⟩
          · rw [advance?, claim?_of_free names]
            exact advanced
          · rw [claimed, later, List.append_assoc]
            rfl

/-- And no more than these. -/
theorem advance?_eq_none {count : Nat} (h : (s.free base).length < count) :
    advance? base count s = none := by
  induction count generalizing s with
  | zero => exact absurd h (Nat.not_lt_zero _)
  | succ count ih =>
      cases names : s.free base with
      | nil =>
          rw [advance?, claim?, fresh?_eq, names]
          rfl
      | cons name rest =>
          rw [names] at h
          rw [advance?, claim?_of_free names]
          refine ih ?_
          rw [free_claim names]
          exact Nat.lt_of_succ_lt_succ h

/-- What has been handed out. -/
theorem claimed_of_advance? {count : Nat} {supply : NameSupply}
    (h : advance? base count s = some supply) :
    supply.claimed = s.claimed ++ (s.free base).take count := by
  rcases Nat.lt_or_ge (s.free base).length count with few | enough
  · rw [advance?_eq_none few] at h
    cases h
  · obtain ⟨supply', advanced, claimed⟩ := exists_advance? enough
    cases h.symm.trans advanced
    exact claimed

/-- The names made from `base` begin like it, and go on with digits. -/
theorem exists_of_mem_candidates {name : String} (h : name ∈ candidates base) :
    ∃ digits, name.toList = base.toList ++ digits ∧ ∀ c ∈ digits, c.isDigit = true := by
  obtain ⟨n, -, rfl⟩ := List.mem_map.1 h
  cases n with
  | zero => exact ⟨[], (List.append_nil _).symm, nofun⟩
  | succ n =>
      refine ⟨Nat.toDigits 10 (n + 1), by simp [candidate], fun c hc => ?_⟩
      exact Nat.isDigit_of_mem_toDigits (by decide) (by decide) hc

end MembershipLowering.NameSupply
