import MembershipLowering.Failure
import MembershipLowering.NameSupply

/-! # A history of claims

Names are claimed one after the other, made from any bases, and the names made from one base
may also be made from another (`a11` from `a` and from `a1`). What is taken is what was in use
at first and what has been handed out since (`Accounts`); a claim hands out the first name that
is not taken, or fails and changes nothing (`Accounts.claim_cases`).
-/

namespace MembershipLowering.NameSupply

/-- Claim a name. If none is left, the supply stays as it is. -/
def claim (s : NameSupply) (base : String) : Except Failure String × NameSupply :=
  match s.claim? base with
  | some (name, later) => (.ok name, later)
  | none => (.error (.namesExhausted base), s)

/-- The answers so far and the supply behind them, after one more claim. -/
def further (history : List (Except Failure String) × NameSupply) (base : String) :
    List (Except Failure String) × NameSupply :=
  (history.1 ++ [(history.2.claim base).1], (history.2.claim base).2)

/-- The answers to claims made one after the other, and the supply behind them. -/
def afterClaims (s : NameSupply) (bases : List String) :
    List (Except Failure String) × NameSupply :=
  bases.foldl further ([], s)

/-- The names among some answers. -/
def granted (answers : List (Except Failure String)) : List String :=
  answers.filterMap Except.toOption

/-- The first name made from `base` that is not taken. -/
def IsFirst (taken : String → Prop) (base name : String) : Prop :=
  ∃ n ≤ maxSuffix, candidate base n = name ∧ ¬taken name ∧ ∀ m < n, taken (candidate base m)

/-- Every name made from `base` is taken. -/
def Exhausted (taken : String → Prop) (base : String) : Prop :=
  ∀ n ≤ maxSuffix, taken (candidate base n)

/-- The name was in use at first, or has been handed out. -/
def Taken (names given : List String) (name : String) : Prop :=
  name ∈ names ∨ name ∈ given

/-- The supply avoids `names`, and has handed out `given` so far. -/
structure Accounts (names given : List String) (s : NameSupply) : Prop where
  claimed : s.claimed = given
  nodup : given.Nodup
  apart : ∀ name ∈ given, name ∉ names
  isUsed : ∀ name, s.isUsed name = true ↔ Taken names given name

variable {s : NameSupply} {base name : String} {taken : String → Prop} {names given : List String}

theorem granted_concat (answers : List (Except Failure String)) (answer : Except Failure String) :
    granted (answers ++ [answer]) = granted answers ++ answer.toOption.toList := by
  rw [granted, List.filterMap_append]
  cases answer <;> rfl

theorem fresh?_eq_some_iff (h : ∀ name, s.isUsed name = true ↔ taken name) :
    s.fresh? base = some name ↔ IsFirst taken base name := by
  simp only [fresh?, Option.map_eq_some_iff, List.find?_range_eq_some, IsFirst, ← h,
    List.mem_range, Nat.lt_succ_iff, Bool.not_eq_true', Bool.not_not, Bool.not_eq_true]
  constructor
  · rintro ⟨n, ⟨free, few, before⟩, rfl⟩
    exact ⟨n, few, rfl, free, before⟩
  · rintro ⟨n, few, rfl, free, before⟩
    exact ⟨n, ⟨free, few, before⟩, rfl⟩

theorem fresh?_eq_none_iff (h : ∀ name, s.isUsed name = true ↔ taken name) :
    s.fresh? base = none ↔ Exhausted taken base := by
  simp only [fresh?, Option.map_eq_none_iff, List.find?_eq_none, Exhausted, ← h, List.mem_range,
    Nat.lt_succ_iff, Bool.not_eq_true', Bool.not_eq_false]

/-- A base that is not in use is handed out itself. -/
theorem claim?_of_unused (h : s.isUsed base = false) :
    s.claim? base = some (base, ⟨s.used.insert base, s.claimed ++ [base]⟩) := by
  have fresh : s.fresh? base = some base :=
    (fresh?_eq_some_iff fun _ => Iff.rfl).2
      ⟨0, Nat.zero_le _, rfl, Bool.not_eq_true _ ▸ h, nofun⟩
  unfold claim?
  rw [fresh]
  rfl

theorem claim_of_some (fresh : s.fresh? base = some name) :
    s.claim base = (.ok name, ⟨s.used.insert name, s.claimed ++ [name]⟩) := by
  unfold claim claim?
  rw [fresh]
  rfl

theorem claim_of_none (fresh : s.fresh? base = none) :
    s.claim base = (.error (.namesExhausted base), s) := by
  unfold claim claim?
  rw [fresh]
  rfl

theorem IsFirst.free (h : IsFirst taken base name) : ¬taken name := by
  obtain ⟨n, -, rfl, free, -⟩ := h
  exact free

/-- There is a first name to hand out, unless all are taken. -/
theorem IsFirst.not_exhausted (h : IsFirst taken base name) : ¬Exhausted taken base := by
  obtain ⟨n, few, rfl, free, -⟩ := h
  exact fun all => free (all n few)

theorem IsFirst.unique {other : String} (h : IsFirst taken base name)
    (h' : IsFirst taken base other) : name = other := by
  obtain ⟨n, -, rfl, free, before⟩ := h
  obtain ⟨n', -, rfl, free', before'⟩ := h'
  rcases Nat.lt_trichotomy n n' with less | rfl | more
  · exact absurd (before' n less) free
  · rfl
  · exact absurd (before n' more) free'

namespace Accounts

theorem initial (names : List String) : Accounts names [] (avoiding names) where
  claimed := rfl
  nodup := .nil
  apart := nofun
  isUsed name := by simp [NameSupply.isUsed, avoiding, Taken, Std.HashSet.contains_ofList]

/-- One more name is handed out. -/
theorem hand (h : Accounts names given s) (free : ¬Taken names given name) :
    Accounts names (given ++ [name]) ⟨s.used.insert name, s.claimed ++ [name]⟩ where
  claimed := by rw [h.claimed]
  nodup := by
    refine List.nodup_append.2 ⟨h.nodup, List.pairwise_singleton _ _, fun a among b hb same => ?_⟩
    rw [List.mem_singleton.1 hb] at same
    exact free (.inr (same ▸ among))
  apart other among := by
    rcases List.mem_append.1 among with earlier | last
    · exact h.apart other earlier
    · rw [List.mem_singleton.1 last]
      exact fun avoided => free (.inl avoided)
  isUsed other := by
    have before := h.isUsed other
    simp only [NameSupply.isUsed, Std.HashSet.contains_insert, Bool.or_eq_true, beq_iff_eq,
      Taken, List.mem_append, List.mem_singleton] at before ⊢
    rw [before, or_comm, or_assoc, eq_comm]

/-- A claim hands out the first name that is not taken, or fails since all are. -/
theorem claim_cases (h : Accounts names given s) (base : String) :
    (∃ name, IsFirst (Taken names given) base name ∧
      (s.claim base).1 = .ok name ∧ Accounts names (given ++ [name]) (s.claim base).2) ∨
    (Exhausted (Taken names given) base ∧
      s.claim base = (.error (.namesExhausted base), s)) := by
  cases fresh : s.fresh? base with
  | none =>
      exact .inr ⟨(fresh?_eq_none_iff h.isUsed).1 fresh, claim_of_none fresh⟩
  | some name =>
      have first := (fresh?_eq_some_iff h.isUsed).1 fresh
      rw [claim_of_some fresh]
      exact .inl ⟨name, first, rfl, h.hand first.free⟩

/-- The account goes on over one claim. -/
theorem further {history : List (Except Failure String) × NameSupply}
    (h : Accounts names (granted history.1) history.2) (base : String) :
    Accounts names (granted (NameSupply.further history base).1)
      (NameSupply.further history base).2 := by
  simp only [NameSupply.further, granted_concat]
  rcases h.claim_cases base with ⟨name, -, handed, account⟩ | ⟨-, refused⟩
  · rw [handed]
    simpa only [Except.toOption, Option.toList_some] using account
  · rw [refused]
    simpa only [Except.toOption, Option.toList_none, List.append_nil] using h

/-- And so over any number of claims. -/
theorem foldl_further {history : List (Except Failure String) × NameSupply}
    (h : Accounts names (granted history.1) history.2) (bases : List String) :
    Accounts names (granted (bases.foldl NameSupply.further history).1)
      (bases.foldl NameSupply.further history).2 := by
  induction bases generalizing history with
  | nil => exact h
  | cons base bases ih => exact ih (h.further base)

theorem afterClaims (names bases : List String) :
    Accounts names (granted ((avoiding names).afterClaims bases).1)
      ((avoiding names).afterClaims bases).2 :=
  foldl_further (.initial names) bases

end Accounts

/-- Whatever has been claimed before: a claim hands out the first name made from its base that was
    not in use at first and has not been handed out since; it fails exactly if there is none, and
    then it changes nothing. -/
theorem claim_afterClaims (names bases : List String) (base : String) :
    match (avoiding names).afterClaims bases with
    | (answers, s) =>
      Accounts names (granted answers) s ∧
        (∀ name, (s.claim base).1 = .ok name ↔
          IsFirst (Taken names (granted answers)) base name) ∧
        (s.claim base = (.error (.namesExhausted base), s) ↔
          Exhausted (Taken names (granted answers)) base) := by
  have account := Accounts.afterClaims names bases
  generalize (avoiding names).afterClaims bases = history at account
  obtain ⟨answers, s⟩ := history
  refine ⟨account, ?_⟩
  rcases account.claim_cases base with ⟨first, isFirst, handed, -⟩ | ⟨all, refused⟩
  · refine ⟨fun name => ?_, fun refused => ?_, fun all => absurd all isFirst.not_exhausted⟩
    · rw [handed, Except.ok.injEq]
      exact ⟨fun same => same ▸ isFirst, isFirst.unique⟩
    · rw [refused] at handed
      cases handed
  · refine ⟨fun name => ?_, fun _ => all, fun _ => refused⟩
    rw [refused]
    exact ⟨nofun, fun isFirst => absurd all isFirst.not_exhausted⟩

end MembershipLowering.NameSupply
