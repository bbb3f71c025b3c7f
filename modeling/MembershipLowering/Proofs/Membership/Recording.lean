import Mathlib.Logic.Function.Iterate
import MembershipLowering.Proofs.Lowering.Rules
import MembershipLowering.Proofs.Lowering.Visits

/-! # What a rule asks of its host

A host answers as it likes, and each of its answers may be a failure. What a rule makes of the
answers is seen on the recorded host (`Host.recorded`), which acts like the host itself and writes
down every call that may fail or change anything, with its answer. A rule that succeeds has had one
of two conversations with its host (`Rule.movingLog`, `Rule.storingLog`), and one that fails has
passed on the first failure and asked for nothing more (`Rule.lower_recorded`).
-/

namespace MembershipLowering

open Lowering (outcome outcome_bind)

/-- A call of a host and its answer. -/
inductive Exchange where
  | extent (n : NodeId) (answer : Except Failure Extent)
  | lower (n : NodeId) (answer : Except Failure Unit)
  | lowerToCode (n : NodeId) (answer : Except Failure String)
  | lowerToName (n : NodeId) (base : String) (force : Bool) (answer : Except Failure String)
  | insert (offset : Nat) (text : String) (answer : Except Failure Unit)
  | remove (start stop : Nat) (answer : Except Failure Unit)

namespace Exchange

/-- The failure, if that is the answer. -/
def failure? : Exchange → Option Failure
  | extent _ (.error e) | lower _ (.error e) | lowerToCode _ (.error e)
  | lowerToName _ _ _ (.error e) | insert _ _ (.error e) | remove _ _ (.error e) => some e
  | _ => none

/-- The call, if it lowers a node. -/
def lowering? : Exchange → Option Rehearsal.Call
  | lower n _ => some (.lower n)
  | lowerToCode n _ => some (.lowerToCode n)
  | lowerToName n base force _ => some (.lowerToName n base force)
  | _ => none

/-- The node that is lowered. -/
def lowered? : Exchange → Option NodeId
  | lower n _ | lowerToCode n _ | lowerToName n _ _ _ => some n
  | _ => none

end Exchange

/-- The state of a host and the exchanges so far, in order. -/
structure Recorded (σ : Type) where
  state : σ
  log : List Exchange

variable {σ α β : Type}

/-- Make a call and write it down. -/
def Recorded.note (write : Except Failure α → Exchange) (act : Action σ α) :
    Action (Recorded σ) α := fun s =>
  match act s.state with
  | .ok a state => .ok a ⟨state, s.log ++ [write (.ok a)]⟩
  | .error e state => .error e ⟨state, s.log ++ [write (.error e)]⟩

/-- The host with a record of what it is asked to do. -/
def Host.recorded (h : Host σ) : Host (Recorded σ) where
  loose s := h.loose s.state
  form s := h.form s.state
  isPure := h.isPure
  extent n := Recorded.note (.extent n) (h.extent n)
  lower n := Recorded.note (.lower n) (h.lower n)
  lowerToCode n := Recorded.note (.lowerToCode n) (h.lowerToCode n)
  lowerToName n base force := Recorded.note (.lowerToName n base force) (h.lowerToName n base force)
  insert offset text := Recorded.note (.insert offset text) (h.insert offset text)
  remove start stop := Recorded.note (.remove start stop) (h.remove start stop)

/-- A log that ends with this result: only the last exchange may have failed, and the result is a
    failure exactly if it has. Of any other result and the log, `P` holds. -/
def Ends (P : α → List Exchange → Prop) : Except Failure α → List Exchange → Prop
  | .ok a, log => (∀ x ∈ log, x.failure? = none) ∧ P a log
  | .error e, log => ∃ before last, log = before ++ [last] ∧
      (∀ x ∈ before, x.failure? = none) ∧ last.failure? = some e

namespace Ends

variable {P : α → List Exchange → Prop} {result : Except Failure α} {log : List Exchange}

/-- A failure is the result, and nothing comes behind it. -/
theorem stops {before after : List Exchange} {x : Exchange} {e : Failure}
    (h : Ends P result (before ++ x :: after)) (failed : x.failure? = some e) :
    after = [] ∧ result = .error e := by
  cases result with
  | ok a =>
      have fine := h.1 x (List.mem_append_right _ (List.mem_cons_self ..))
      cases fine.symm.trans failed
  | error e' =>
      obtain ⟨before', last, same, fine, failed'⟩ := h
      rcases List.eq_nil_or_concat after with rfl | ⟨after, y, rfl⟩
      · obtain ⟨-, alone⟩ := List.append_inj' same rfl
        cases alone
        cases failed'.symm.trans failed
        exact ⟨rfl, rfl⟩
      · rw [List.concat_eq_append, ← List.cons_append, ← List.append_assoc] at same
        obtain ⟨rfl, -⟩ := List.append_inj' same rfl
        have fine := fine x (List.mem_append_right _ (List.mem_cons_self ..))
        cases fine.symm.trans failed

/-- A result that is a failure is the last answer. -/
theorem last_failure {e : Failure} (h : Ends P (.error e) log) :
    log.getLast?.bind Exchange.failure? = some e := by
  obtain ⟨before, last, rfl, -, failed⟩ := h
  rwa [List.getLast?_concat]

/-- Exchanges that have not failed may come before. -/
theorem append {before : List Exchange} (fine : ∀ x ∈ before, x.failure? = none)
    (h : Ends (fun a later => P a (before ++ later)) result log) :
    Ends P result (before ++ log) := by
  cases result with
  | ok a => exact ⟨List.forall_mem_append.2 ⟨fine, h.1⟩, h.2⟩
  | error e =>
      obtain ⟨earlier, last, rfl, fine', failed⟩ := h
      exact ⟨before ++ earlier, last, (List.append_assoc ..).symm,
        List.forall_mem_append.2 ⟨fine, fine'⟩, failed⟩

theorem mono {P' : α → List Exchange → Prop} (h : Ends P result log)
    (le : ∀ a, P a log → P' a log) : Ends P' result log := by
  cases result with
  | ok a => exact ⟨h.1, le a h.2⟩
  | error e => exact h

end Ends

/-- The second action does what the first one does, and keeps a log of it. -/
def Records (P : α → List Exchange → Prop) (act : Action σ α) (act' : Action (Recorded σ) α) :
    Prop :=
  ∀ s log, ∃ more,
    outcome act' ⟨s, log⟩ = ((outcome act s).1, ⟨(outcome act s).2, log ++ more⟩) ∧
      Ends P (outcome act s).1 more

namespace Records

variable {P : α → List Exchange → Prop} {Q : β → List Exchange → Prop}

theorem bind {act : Action σ α} {act' : Action (Recorded σ) α} {f : α → Action σ β}
    {f' : α → Action (Recorded σ) β} (h : Records P act act')
    (next : ∀ a log, P a log → Records (fun b more => Q b (log ++ more)) (f a) (f' a)) :
    Records Q (act >>= f) (act' >>= f') := by
  intro s log
  obtain ⟨first, same, ends⟩ := h s log
  rw [outcome_bind, outcome_bind, same]
  generalize outcome act s = r at ends
  obtain ⟨e | a, later⟩ := r
  · exact ⟨first, rfl, ends⟩
  · obtain ⟨fine, holds⟩ := ends
    obtain ⟨second, same', ends'⟩ := next a first holds later (log ++ first)
    refine ⟨first ++ second, ?_, ends'.append fine⟩
    dsimp only
    rw [same', List.append_assoc]

/-- A call that is written down as what it is. -/
theorem note {write : Except Failure α → Exchange} (fine : ∀ a, (write (.ok a)).failure? = none)
    (failed : ∀ e, (write (.error e)).failure? = some e) (act : Action σ α) :
    Records (fun a log => log = [write (.ok a)]) act (Recorded.note write act) := by
  intro s log
  unfold outcome Recorded.note
  cases act s with
  | ok a state => exact ⟨_, rfl, List.forall_mem_singleton.2 (fine a), rfl⟩
  | error e state => exact ⟨_, rfl, [], _, rfl, List.forall_mem_nil _, failed e⟩

theorem sometimes {c : Prop} [Decidable c] {write : Except Failure Unit → Exchange}
    {act : Action σ Unit} {act' : Action (Recorded σ) Unit} {f : Unit → Action σ β}
    {f' : Unit → Action (Recorded σ) β}
    (h : Records (fun a log => log = [write (.ok a)]) act act')
    (next : Records (fun b more => Q b ((if c then [write (.ok ())] else []) ++ more))
      (f ()) (f' ())) :
    Records Q (if c then act >>= f else f ()) (if c then act' >>= f' else f' ()) := by
  split
  · rw [if_pos ‹_›] at next
    exact h.bind fun _ _ same => same ▸ next
  · rwa [if_neg ‹_›] at next

theorem mono {P' : α → List Exchange → Prop} {act : Action σ α} {act' : Action (Recorded σ) α}
    (h : Records P act act') (le : ∀ a log, P a log → P' a log) : Records P' act act' := by
  intro s log
  obtain ⟨more, same, ends⟩ := h s log
  exact ⟨more, same, ends.mono fun a => le a more⟩

end Records

namespace Rule

variable {h : Host σ} {r : Rule}

/-- A conversation in which the right operand is moved: where the operands stand, and the code
    of the right one. -/
def movingLog (r : Rule) (left right : Extent) (adaptation : Adaptation) (code : String) :
    List Exchange :=
  .extent r.left (.ok left) :: .extent r.right (.ok right) :: .lowerToCode r.right (.ok code) ::
  .remove left.outer.stop right.outer.stop (.ok ()) ::
  ((if r.negated then [.insert left.outer.start "!" (.ok ())] else []) ++
  [.insert left.outer.start (adaptation.wrap code ++ ".includes(") (.ok ()),
    .lower r.left (.ok ()), .insert left.outer.stop ")" (.ok ())])

/-- A conversation in which the left operand is stored: where the test and its operands stand,
    and the name of the left one. -/
def storingLog (r : Rule) (whole left right : Extent) (adaptation : Adaptation) (name : String) :
    List Exchange :=
  .extent r.node (.ok whole) :: .extent r.left (.ok left) :: .extent r.right (.ok right) ::
  .insert whole.content.start "(" (.ok ()) :: .lowerToName r.left needle true (.ok name) ::
  .insert left.outer.stop ", " (.ok ()) :: .remove left.outer.stop right.outer.start (.ok ()) ::
  ((if r.negated then [.insert right.outer.start "!" (.ok ())] else []) ++
  ((if adaptation.arrayFrom then
      [.insert right.outer.start Adaptation.arrayFromText (.ok ())] else []) ++
  ((if adaptation.parens then [.insert right.outer.start "(" (.ok ())] else []) ++
  (.lower r.right (.ok ()) ::
  ((if adaptation.parens then [.insert right.outer.stop ")" (.ok ())] else []) ++
  [.insert right.outer.stop (".includes(" ++ name ++ "))") (.ok ())])))))

section Calls

variable (h)

theorem records_extent (n : NodeId) : Records (fun a log => log = [.extent n (.ok a)])
    (h.extent n) (h.recorded.extent n) :=
  .note (fun _ => rfl) (fun _ => rfl) _

theorem records_lower (n : NodeId) : Records (fun a log => log = [.lower n (.ok a)])
    (h.lower n) (h.recorded.lower n) :=
  .note (fun _ => rfl) (fun _ => rfl) _

theorem records_lowerToCode (n : NodeId) : Records (fun a log => log = [.lowerToCode n (.ok a)])
    (h.lowerToCode n) (h.recorded.lowerToCode n) :=
  .note (fun _ => rfl) (fun _ => rfl) _

theorem records_lowerToName (n : NodeId) (base : String) (force : Bool) :
    Records (fun a log => log = [.lowerToName n base force (.ok a)])
      (h.lowerToName n base force) (h.recorded.lowerToName n base force) :=
  .note (fun _ => rfl) (fun _ => rfl) _

theorem records_insert (offset : Nat) (text : String) :
    Records (fun a log => log = [.insert offset text (.ok a)])
      (h.insert offset text) (h.recorded.insert offset text) :=
  .note (fun _ => rfl) (fun _ => rfl) _

theorem records_remove (start stop : Nat) :
    Records (fun a log => log = [.remove start stop (.ok a)])
      (h.remove start stop) (h.recorded.remove start stop) :=
  .note (fun _ => rfl) (fun _ => rfl) _

/-- What is put around the right operand is no call that may fail. -/
theorem records_adaptation (r : Rule) :
    Records (fun _ log => log = []) (r.adaptation h) (r.adaptation h.recorded) := by
  intro s log
  exact ⟨[], by rw [List.append_nil]; rfl, List.forall_mem_nil _, rfl⟩

end Calls

theorem records_lowerMoving (h : Host σ) (r : Rule) :
    Records (fun _ log => ∃ left right adaptation code,
        log = r.movingLog left right adaptation code)
      (r.lowerMoving h) (r.lowerMoving h.recorded) := by
  refine (records_extent h _).bind ?_
  rintro left _ rfl
  refine (records_extent h _).bind ?_
  rintro right _ rfl
  refine (records_adaptation h r).bind ?_
  rintro adaptation _ rfl
  refine (records_lowerToCode h _).bind ?_
  rintro code _ rfl
  refine (records_remove h _ _).bind ?_
  rintro _ _ rfl
  refine .sometimes (records_insert h _ _) ?_
  refine (records_insert h _ _).bind ?_
  rintro _ _ rfl
  refine (records_lower h _).bind ?_
  rintro _ _ rfl
  refine (records_insert h _ _).mono ?_
  rintro _ _ rfl
  exact ⟨left, right, adaptation, code, rfl⟩

theorem records_lowerStoring (h : Host σ) (r : Rule) :
    Records (fun _ log => ∃ whole left right adaptation name,
        log = r.storingLog whole left right adaptation name)
      (r.lowerStoring h) (r.lowerStoring h.recorded) := by
  refine (records_extent h _).bind ?_
  rintro whole _ rfl
  refine (records_extent h _).bind ?_
  rintro left _ rfl
  refine (records_extent h _).bind ?_
  rintro right _ rfl
  refine (records_adaptation h r).bind ?_
  rintro adaptation _ rfl
  refine (records_insert h _ _).bind ?_
  rintro _ _ rfl
  refine (records_lowerToName h _ _ _).bind ?_
  rintro name _ rfl
  refine (records_insert h _ _).bind ?_
  rintro _ _ rfl
  refine (records_remove h _ _).bind ?_
  rintro _ _ rfl
  refine .sometimes (records_insert h _ _) ?_
  refine .sometimes (records_insert h _ _) ?_
  refine .sometimes (records_insert h _ _) ?_
  refine (records_lower h _).bind ?_
  rintro _ _ rfl
  refine .sometimes (records_insert h _ _) ?_
  refine (records_insert h _ _).mono ?_
  rintro _ _ rfl
  exact ⟨whole, left, right, adaptation, name, rfl⟩

/-- The conversations in which a rule succeeds, with both operands pure or not. -/
inductive Converses (r : Rule) : Bool → List Exchange → Prop where
  | moving (left right : Extent) (adaptation : Adaptation) (code : String) :
      Converses r true (r.movingLog left right adaptation code)
  | storing (whole left right : Extent) (adaptation : Adaptation) (name : String) :
      Converses r false (r.storingLog whole left right adaptation name)

theorem records_converses (h : Host σ) (r : Rule) :
    Records (fun _ log => r.Converses (h.isPure r.left && h.isPure r.right) log)
      (r.lower h) (r.lower h.recorded) := by
  have same : r.lower h.recorded = if h.isPure r.left && h.isPure r.right then
      r.lowerMoving h.recorded else r.lowerStoring h.recorded := rfl
  rw [same, lower]
  cases h.isPure r.left && h.isPure r.right with
  | true =>
      refine (records_lowerMoving h r).mono ?_
      rintro _ _ ⟨left, right, adaptation, code, rfl⟩
      exact .moving left right adaptation code
  | false =>
      refine (records_lowerStoring h r).mono ?_
      rintro _ _ ⟨whole, left, right, adaptation, name, rfl⟩
      exact .storing whole left right adaptation name

namespace Converses

variable {pure : Bool} {log : List Exchange}

/-- Nothing is lowered but the operands. -/
theorem lowerings (c : r.Converses pure log) : log.filterMap Exchange.lowering? =
    if pure then [.lowerToCode r.right, .lower r.left]
    else [.lowerToName r.left needle true, .lower r.right] := by
  obtain ⟨node, left, right, negated⟩ := r
  cases c with
  | moving => cases negated <;> rfl
  | storing _ _ _ adaptation =>
      obtain ⟨_ | _, _ | _⟩ := adaptation <;> cases negated <;> rfl

theorem lowered_perm (c : r.Converses pure log) :
    (log.filterMap Exchange.lowered?).Perm [r.left, r.right] := by
  obtain ⟨node, left, right, negated⟩ := r
  cases c with
  | moving =>
      refine .trans (.of_eq ?_) (.swap left right [])
      cases negated <;> rfl
  | storing _ _ _ adaptation =>
      refine .of_eq ?_
      obtain ⟨_ | _, _ | _⟩ := adaptation <;> cases negated <;> rfl

/-- A sign is written if the test is negated. -/
theorem exists_sign_iff (c : r.Converses pure log) :
    (∃ offset answer, .insert offset "!" answer ∈ log) ↔ r.negated = true := by
  have longer : ∀ before after : String, "!" ≠ before ++ ".includes(" ++ after := by
    intro before after short
    have length := congrArg String.length short
    rw [String.length_append, String.length_append, show ".includes(".length = 10 from rfl,
      show "!".length = 1 from rfl] at length
    omega
  cases c with
  | moving left right adaptation code =>
      have receiver : "!" ≠ adaptation.wrap code ++ ".includes(" := by
        simpa only [String.append_empty] using longer (adaptation.wrap code) ""
      simp [movingLog, receiver]
  | storing whole left right adaptation name =>
      have argument : "!" ≠ ".includes(" ++ name ++ "))" := by
        simpa only [String.empty_append, String.append_assoc] using longer "" (name ++ "))")
      have conversion : "!" ≠ Adaptation.arrayFromText := by decide
      simp [storingLog, argument, conversion]

/-- The name of the left operand is what is looked for in the end. -/
theorem name_used (c : r.Converses pure log) {n : NodeId} {base : String} {force : Bool}
    {answer : Except Failure String} (asked : .lowerToName n base force answer ∈ log) :
    ∃ name offset, answer = .ok name ∧
      log.getLast? = some (.insert offset (".includes(" ++ name ++ "))") (.ok ())) := by
  obtain ⟨node, left, right, negated⟩ := r
  cases c with
  | moving => simp [movingLog] at asked
  | storing whole x y adaptation name =>
      obtain ⟨-, -, -, same⟩ : n = left ∧ base = needle ∧ force = true ∧ answer = .ok name := by
        simpa [storingLog] using asked
      refine ⟨name, y.outer.stop, same, ?_⟩
      obtain ⟨_ | _, _ | _⟩ := adaptation <;> cases negated <;> rfl

end Converses

theorem flip_iterate (r : Rule) (n : Nat) : flip^[n] r = r.flipIf (n % 2 = 1) := by
  induction n with
  | zero => exact congrFun flipIf_false.symm r
  | succ n ih =>
      rw [Function.iterate_succ_apply', ih]
      have next : decide ((n + 1) % 2 = 1) = !decide (n % 2 = 1) := by
        rw [← decide_not, decide_eq_decide]
        omega
      rw [next]
      simp [flipIf, flip]

/-- On any host, a rule that has been flipped any number of times goes on until a call fails, and
    that failure is its result. If no call fails, each operand has been lowered once and the test
    itself never, a sign has been written if the flips have left the rule negated, and the name
    that was given for the left operand is the one that is looked for. -/
theorem lower_recorded (h : Host σ) (r : Rule) (distinct : [r.node, r.left, r.right].Nodup)
    (flips : Nat) (s : σ) :
    ∃ result later log,
      outcome ((flip^[flips] r).lower h.recorded) ⟨s, []⟩ = (result, ⟨later, log⟩) ∧
      outcome ((flip^[flips] r).lower h) s = (result, later) ∧
      outcome ((flip^[flips % 2] r).lower h.recorded) ⟨s, []⟩ = (result, ⟨later, log⟩) ∧
      (∀ before x after e, log = before ++ x :: after → x.failure? = some e →
        after = [] ∧ result = .error e) ∧
      (∀ e, result = .error e → log.getLast?.bind Exchange.failure? = some e) ∧
      (result = .ok () →
        log.filterMap Exchange.lowering? =
          (if h.isPure r.left && h.isPure r.right then [.lowerToCode r.right, .lower r.left]
          else [.lowerToName r.left needle true, .lower r.right]) ∧
        (∀ n, (log.filterMap Exchange.lowered?).count n =
          if n = r.left ∨ n = r.right then 1 else 0) ∧
        r.node ∉ log.filterMap Exchange.lowered? ∧
        ((∃ offset answer, .insert offset "!" answer ∈ log) ↔
          (r.negated ^^ decide (flips % 2 = 1)) = true) ∧
        ∀ n base force answer, .lowerToName n base force answer ∈ log →
          ∃ name offset, answer = .ok name ∧
            log.getLast? = some (.insert offset (".includes(" ++ name ++ "))") (.ok ()))) := by
  have parity : flip^[flips % 2] r = flip^[flips] r := by
    rw [flip_iterate, flip_iterate, Nat.mod_mod]
  rw [parity, flip_iterate]
  obtain ⟨log, same, ends⟩ := records_converses h (r.flipIf (flips % 2 = 1)) s []
  refine ⟨_, _, log, same, rfl, same, ?_, ?_, ?_⟩
  · rintro before x after e rfl failed
    exact ends.stops failed
  · intro e failed
    rw [failed] at ends
    exact ends.last_failure
  · intro fine
    rw [fine] at ends
    obtain ⟨-, converses⟩ := ends
    obtain ⟨outside, operands⟩ := List.nodup_cons.1 distinct
    have lowered : (log.filterMap Exchange.lowered?).Perm [r.left, r.right] :=
      converses.lowered_perm
    refine ⟨converses.lowerings, fun n => ?_, fun among => outside (lowered.mem_iff.1 among),
      converses.exists_sign_iff, fun _ _ _ _ => converses.name_used⟩
    rw [lowered.count_eq, operands.count]
    simp only [List.mem_cons, List.not_mem_nil, or_false]

/-- A host that lowers two calls, and names the left one otherwise than it was asked to. -/
def twoCalls : Script where
  left := ⟨some (.bare ⟨0, 3⟩), false, []⟩
  right := ⟨some (.bare ⟨7, 10⟩), false, [.insert 9 "a"]⟩
  whole := ⟨some (.bare ⟨0, 10⟩), false, []⟩
  form := .call
  loose := false
  name := some "saved"

theorem lower_recorded_twoCalls :
    [2, 0, 1].Nodup ∧ ∃ later log,
      outcome ((flip^[3] ⟨2, 0, 1, false⟩).lower twoCalls.host.recorded)
        ⟨⟨.ofSource "f() in g()", []⟩, []⟩ = (.ok (), ⟨later, log⟩) ∧
      (∃ offset answer, .insert offset "!" answer ∈ log) ∧
      ∃ name offset, .lowerToName 0 "needle" true (.ok name) ∈ log ∧
        log.getLast? = some (.insert offset (".includes(" ++ name ++ "))") (.ok ())) := by
  have distinct : [2, 0, 1].Nodup := by decide
  obtain ⟨result, later, log, ran, -, -, -, -, succeeds⟩ := lower_recorded twoCalls.host
    ⟨2, 0, 1, false⟩ distinct 3 ⟨.ofSource "f() in g()", []⟩
  have fine : result = .ok () := by
    have good : result.isOk = true :=
      (congrArg (fun ran => ran.1.isOk) ran).symm.trans (by decide +kernel)
    cases result with
    | ok => rfl
    | error e => cases good
  obtain ⟨lowerings, -, -, sign, used⟩ := succeeds fine
  have stored : .lowerToName 0 "needle" true ∈ log.filterMap Exchange.lowering? :=
    lowerings ▸ List.mem_cons_self ..
  obtain ⟨x, asked, same⟩ := List.mem_filterMap.1 stored
  cases x with
  | lowerToName n base force answer =>
      cases same
      obtain ⟨name, offset, rfl, last⟩ := used _ _ _ _ asked
      exact ⟨distinct, later, log, fine ▸ ran, sign.2 rfl, name, offset, asked, last⟩
  | _ => cases same

end Rule

end MembershipLowering
