import Finops.Base.Run
import Finops.Base.Significant

/-!
# The traffic generator

`run_traffic` creates a task for each planned call.  A task waits for the semaphore,
looks at the spend, and sends its call; the spend grows when a call comes back.  The
tasks and the producer run in any order, so a run is a list of events, and an event
that cannot happen changes nothing.

The ceiling is looked at before a call is sent and not after, so the calls in flight
may go over it.  `Ceiling` is what holds at every moment: with `k` calls in flight the
spend leaves room for them below `max_spend_usd + c * m` (`ceiling_moves`).  Each
addition may round up by half a unit in 28 digits, which the bound allows for.
`Accounted` says that no call is lost but by an abort.
-/

namespace Finops

open Numerics Runs

structure PlannedCall where
  model : String
  prompt : String
  team : Option String := none
  project : Option String := none
  agentId : Option String := none
  useCase : Option String := none
  deriving DecidableEq

/-- False for the deliberately unattributed share. -/
def PlannedCall.isTagged (call : PlannedCall) : Bool := call.team.isSome

structure TrafficOptions where
  maxSpendUsd : ℚ := 1
  concurrency : ℕ := 4

structure TrafficReport where
  sent : ℕ := 0
  failed : ℕ := 0
  untagged : ℕ := 0
  spendUsd : ℚ := 0
  abortedReason : Option String := none

/-- What a request comes back with: an HTTP error, or the cost in its header. -/
inductive Response
  | httpError
  | cost (usd : ℚ)

/-- What one call folds into the report. -/
def sendOne (num : Arith) (call : PlannedCall) (response : Response) (report : TrafficReport) :
    TrafficReport :=
  match response with
  | .httpError => { report with failed := report.failed + 1 }
  | .cost usd =>
    { report with
      sent := report.sent + 1
      spendUsd := num.dec (report.spendUsd + usd)
      untagged := if call.isTagged then report.untagged else report.untagged + 1 }

def overBudget (options : TrafficOptions) (report : TrafficReport) : Prop :=
  options.maxSpendUsd ≤ report.spendUsd

instance (options : TrafficOptions) (report : TrafficReport) :
    Decidable (overBudget options report) := by
  unfold overBudget; infer_instance

/-- A run under way: the calls the producer has not come to, the tasks that wait for
the semaphore, those that it has admitted, and those whose call is in flight. -/
structure Traffic where
  calls : List PlannedCall
  stopped : Bool := false
  waiting : List PlannedCall := []
  admitted : List PlannedCall := []
  inFlight : List PlannedCall := []
  report : TrafficReport := {}

/-- What happens next: the producer's next turn, or the next step of some task. -/
inductive TrafficEvent
  | produce
  | acquire (i : ℕ)
  | dispatch (i : ℕ)
  | respond (i : ℕ) (response : Response)

/-- A cost between zero and `m`, unless the call failed. -/
def TrafficEvent.AtMost (m : ℚ) : TrafficEvent → Prop
  | .respond _ (.cost usd) => 0 ≤ usd ∧ usd ≤ m
  | _ => True

namespace Traffic

def abort (report : TrafficReport) : TrafficReport :=
  { report with abortedReason := some "max_spend_reached" }

def produce (options : TrafficOptions) (s : Traffic) : Traffic :=
  match s.calls with
  | [] => s
  | call :: rest =>
    if s.stopped then s
    else if overBudget options s.report then { s with stopped := true, report := abort s.report }
    else { s with calls := rest, waiting := s.waiting ++ [call] }

def acquire (options : TrafficOptions) (i : ℕ) (s : Traffic) : Traffic :=
  match s.waiting[i]? with
  | none => s
  | some call =>
    if s.admitted.length + s.inFlight.length < options.concurrency then
      { s with waiting := s.waiting.eraseIdx i, admitted := s.admitted ++ [call] }
    else s

/-- The task looks at the spend, and sends its call. -/
def dispatch (options : TrafficOptions) (i : ℕ) (s : Traffic) : Traffic :=
  match s.admitted[i]? with
  | none => s
  | some call =>
    if overBudget options s.report then
      { s with admitted := s.admitted.eraseIdx i, report := abort s.report }
    else { s with admitted := s.admitted.eraseIdx i, inFlight := s.inFlight ++ [call] }

def respond (num : Arith) (i : ℕ) (response : Response) (s : Traffic) : Traffic :=
  match s.inFlight[i]? with
  | none => s
  | some call =>
    { s with
      inFlight := s.inFlight.eraseIdx i
      report := sendOne num call response s.report }

def step (num : Arith) (options : TrafficOptions) (s : Traffic) : TrafficEvent → Traffic
  | .produce => s.produce options
  | .acquire i => s.acquire options i
  | .dispatch i => s.dispatch options i
  | .respond i response => s.respond num i response

/-- The run is over: the producer's loop has ended, and every task. -/
def Done (s : Traffic) : Prop :=
  (s.calls = [] ∨ s.stopped = true) ∧ s.waiting = [] ∧ s.admitted = [] ∧ s.inFlight = []

instance (s : Traffic) : Decidable s.Done := by
  unfold Done; infer_instance

def start (calls : List PlannedCall) : Traffic := { calls := calls }

/-! ### What an event can do -/

/-- The seven things an event can do. -/
inductive Moves (num : Arith) (options : TrafficOptions) (m : ℚ) : Traffic → Traffic → Prop
  | stop {s call rest} (hcalls : s.calls = call :: rest) (hstopped : s.stopped = false)
      (hover : overBudget options s.report) :
      Moves num options m s { s with stopped := true, report := abort s.report }
  | create {s call rest} (hcalls : s.calls = call :: rest) (hstopped : s.stopped = false) :
      Moves num options m s { s with calls := rest, waiting := s.waiting ++ [call] }
  | acquire {s i call} (hcall : s.waiting[i]? = some call)
      (hroom : s.admitted.length + s.inFlight.length < options.concurrency) :
      Moves num options m s
        { s with waiting := s.waiting.eraseIdx i, admitted := s.admitted ++ [call] }
  | refuse {s i call} (hcall : s.admitted[i]? = some call)
      (hover : overBudget options s.report) :
      Moves num options m s
        { s with admitted := s.admitted.eraseIdx i, report := abort s.report }
  | send {s i call} (hcall : s.admitted[i]? = some call)
      (hunder : s.report.spendUsd < options.maxSpendUsd) :
      Moves num options m s
        { s with admitted := s.admitted.eraseIdx i, inFlight := s.inFlight ++ [call] }
  | fail {s i call} (hcall : s.inFlight[i]? = some call) :
      Moves num options m s
        { s with
          inFlight := s.inFlight.eraseIdx i
          report := sendOne num call .httpError s.report }
  | bill {s i call usd} (hcall : s.inFlight[i]? = some call) (hcost : 0 ≤ usd ∧ usd ≤ m) :
      Moves num options m s
        { s with
          inFlight := s.inFlight.eraseIdx i
          report := sendOne num call (.cost usd) s.report }

/-- **What an event does**: nothing, or one of these. -/
theorem step_cases {num : Arith} {options : TrafficOptions} {m : ℚ} {s : Traffic}
    {e : TrafficEvent} (he : e.AtMost m) :
    s.step num options e = s ∨ Moves num options m s (s.step num options e) := by
  cases e with
  | produce =>
    show s.produce options = s ∨ Moves num options m s (s.produce options)
    unfold produce
    split
    · exact .inl rfl
    rename_i call rest hcalls
    split
    · exact .inl rfl
    rename_i hstopped
    split
    · rename_i hover
      exact .inr (.stop hcalls (Bool.eq_false_iff.mpr hstopped) hover)
    · exact .inr (.create hcalls (Bool.eq_false_iff.mpr hstopped))
  | acquire i =>
    show s.acquire options i = s ∨ Moves num options m s (s.acquire options i)
    unfold acquire
    split
    · exact .inl rfl
    rename_i call hcall
    split
    · rename_i hroom
      exact .inr (.acquire hcall hroom)
    · exact .inl rfl
  | dispatch i =>
    show s.dispatch options i = s ∨ Moves num options m s (s.dispatch options i)
    unfold dispatch
    split
    · exact .inl rfl
    rename_i call hcall
    split
    · rename_i hover
      exact .inr (.refuse hcall hover)
    · rename_i hunder
      exact .inr (.send hcall (not_le.mp hunder))
  | respond i response =>
    show s.respond num i response = s ∨ Moves num options m s (s.respond num i response)
    unfold respond
    split
    · exact .inl rfl
    rename_i call hcall
    cases response with
    | httpError => exact .inr (.fail hcall)
    | cost usd => exact .inr (.bill hcall he)

/-! ### The ceiling -/

/-- An arithmetic that adds up amounts with a relative error of at most `ε`. -/
structure Adds (num : Arith) (ε : ℚ) : Prop where
  nonneg : 0 ≤ ε
  le : ∀ v, 0 ≤ v → num.dec v ≤ (1 + ε) * v
  dec_nonneg : ∀ v, 0 ≤ v → 0 ≤ num.dec v

theorem adds_exact : Adds .exact 0 :=
  ⟨le_rfl, fun v _ => by rw [exact_dec, add_zero, one_mul], fun v h => h⟩

theorem adds_decimal (flt str : ℚ → ℚ) : Adds (.decimal flt str) (5 / 10 ^ 28) := by
  refine ⟨by norm_num, fun v h => ?_, fun v h => roundSig_nonneg (by decide) 28 h⟩
  have herr := abs_decimal_sub_le flt str v
  rw [abs_of_nonneg h] at herr
  linarith [(abs_le.mp herr).2]

/-- The ceiling with room for `k` calls that cost `m` each. -/
def ceiling (options : TrafficOptions) (m ε : ℚ) (k : ℕ) : ℚ :=
  (options.maxSpendUsd + k * m) * (1 + ε) ^ k

/-- The spend leaves room for the calls in flight. -/
structure Ceiling (options : TrafficOptions) (m ε : ℚ) (s : Traffic) : Prop where
  permits : s.admitted.length + s.inFlight.length ≤ options.concurrency
  spend_nonneg : 0 ≤ s.report.spendUsd
  spend_lt : s.report.spendUsd < ceiling options m ε (options.concurrency - s.inFlight.length)

variable {num : Arith} {options : TrafficOptions} {m ε : ℚ}

theorem le_ceiling (hmax : 0 < options.maxSpendUsd) (hm : 0 ≤ m) (hε : 0 ≤ ε) (k : ℕ) :
    options.maxSpendUsd ≤ ceiling options m ε k := by
  have hpow : 1 ≤ (1 + ε) ^ k := one_le_pow₀ (by linarith)
  have hroom : 0 ≤ k * m := by positivity
  calc options.maxSpendUsd ≤ options.maxSpendUsd + k * m := by linarith
    _ ≤ ceiling options m ε k := le_mul_of_one_le_right (by linarith) hpow

theorem ceiling_mono (hmax : 0 < options.maxSpendUsd) (hm : 0 ≤ m) (hε : 0 ≤ ε) {j k : ℕ}
    (h : j ≤ k) : ceiling options m ε j ≤ ceiling options m ε k := by
  have hpow : (1 + ε) ^ j ≤ (1 + ε) ^ k := pow_le_pow_right₀ (by linarith) h
  have hj : (j : ℚ) ≤ k := by exact_mod_cast h
  have hroom : (j : ℚ) * m ≤ k * m := mul_le_mul_of_nonneg_right hj hm
  have hnn : 0 ≤ (j : ℚ) * m := by positivity
  exact mul_le_mul (by linarith) hpow (by positivity) (by linarith)

theorem lt_ceiling_succ (hm : 0 ≤ m) (hε : 0 ≤ ε) {k : ℕ} {v usd : ℚ}
    (hv : v < ceiling options m ε k) (husd : usd ≤ m) :
    (1 + ε) * (v + usd) < ceiling options m ε (k + 1) := by
  have hpow : 1 ≤ (1 + ε) ^ k := one_le_pow₀ (by linarith)
  have hroom : m ≤ m * (1 + ε) ^ k := le_mul_of_one_le_right hm hpow
  rw [ceiling] at hv
  calc (1 + ε) * (v + usd)
      < (1 + ε) * ((options.maxSpendUsd + k * m) * (1 + ε) ^ k + m * (1 + ε) ^ k) :=
        mul_lt_mul_of_pos_left (by linarith) (by linarith)
    _ = ceiling options m ε (k + 1) := by
        rw [ceiling]
        push_cast
        ring

theorem length_eraseIdx {l : List PlannedCall} {i : ℕ} {call : PlannedCall}
    (h : l[i]? = some call) : (l.eraseIdx i).length + 1 = l.length := by
  obtain ⟨hi, _⟩ := List.getElem?_eq_some_iff.mp h
  rw [List.length_eraseIdx_of_lt hi]
  omega

theorem ceiling_respond (hm : 0 ≤ m) (hε : 0 ≤ ε) {s : Traffic} {i : ℕ} {call : PlannedCall}
    (h : Ceiling options m ε s) (hcall : s.inFlight[i]? = some call) {report : TrafficReport}
    (hnn : 0 ≤ report.spendUsd) {usd : ℚ} (husd : usd ≤ m)
    (hle : report.spendUsd ≤ (1 + ε) * (s.report.spendUsd + usd)) :
    Ceiling options m ε { s with inFlight := s.inFlight.eraseIdx i, report := report } := by
  have hlen := length_eraseIdx hcall
  have hpermits := h.permits
  refine ⟨?_, hnn, ?_⟩
  · dsimp only
    omega
  · have hroom : options.concurrency - (s.inFlight.eraseIdx i).length =
        options.concurrency - s.inFlight.length + 1 := by omega
    dsimp only
    rw [hroom]
    exact hle.trans_lt (lt_ceiling_succ hm hε h.spend_lt husd)

/-- **Every step keeps the spend below the ceiling.** -/
theorem ceiling_moves (hnum : Adds num ε) (hmax : 0 < options.maxSpendUsd) (hm : 0 ≤ m)
    {s s' : Traffic} (h : Ceiling options m ε s) (hs : Moves num options m s s') :
    Ceiling options m ε s' := by
  have hε := hnum.nonneg
  have hpermits := h.permits
  have hnn := h.spend_nonneg
  cases hs with
  | stop hcalls hstopped hover => exact ⟨hpermits, hnn, h.spend_lt⟩
  | create hcalls hstopped => exact ⟨hpermits, hnn, h.spend_lt⟩
  | acquire hcall hroom =>
    refine ⟨?_, hnn, h.spend_lt⟩
    rw [List.length_append, List.length_singleton]
    dsimp only
    omega
  | refuse hcall hover =>
    have hlen := length_eraseIdx hcall
    refine ⟨?_, hnn, h.spend_lt⟩
    dsimp only
    omega
  | send hcall hunder =>
    have hlen := length_eraseIdx hcall
    refine ⟨?_, hnn, hunder.trans_le (le_ceiling hmax hm hε _)⟩
    rw [List.length_append, List.length_singleton]
    dsimp only
    omega
  | fail hcall =>
    refine ceiling_respond hm hε h hcall hnn hm ?_
    show s.report.spendUsd ≤ _
    nlinarith
  | bill hcall hcost =>
    have hsum := add_nonneg hnn hcost.1
    exact ceiling_respond hm hε h hcall (hnum.dec_nonneg _ hsum) hcost.2 (hnum.le _ hsum)

/-! ### No call is lost -/

def toCome (s : Traffic) : ℕ := if s.stopped then 0 else s.calls.length

/-- The calls that have been counted, or will be. -/
def accounted (s : Traffic) : ℕ :=
  s.toCome + s.waiting.length + s.admitted.length + s.inFlight.length + s.report.sent +
    s.report.failed

/-- All calls are accounted for, unless the run was aborted. -/
structure Accounted (n : ℕ) (s : Traffic) : Prop where
  le : s.accounted ≤ n
  eq_iff : s.accounted = n ↔ s.report.abortedReason = none

theorem Accounted.of_eq {n : ℕ} {s s' : Traffic} (h : Accounted n s)
    (heq : s'.accounted = s.accounted)
    (hreason : s'.report.abortedReason = s.report.abortedReason) : Accounted n s' :=
  ⟨heq ▸ h.le, by rw [heq, hreason]; exact h.eq_iff⟩

theorem Accounted.of_abort {n : ℕ} {s s' : Traffic} (h : Accounted n s)
    (hlt : s'.accounted < s.accounted) (hreason : s'.report.abortedReason ≠ none) :
    Accounted n s' := by
  have hle := h.le
  exact ⟨by omega, ⟨fun he => by omega, fun hr => absurd hr hreason⟩⟩

/-- **Every step keeps the account**, and an abort takes a call out of it. -/
theorem accounted_moves {n : ℕ} {s s' : Traffic} (h : Accounted n s)
    (hs : Moves num options m s s') : Accounted n s' := by
  cases hs with
  | stop hcalls hstopped hover =>
    refine h.of_abort ?_ (by simp [abort])
    simp [accounted, toCome, hcalls, hstopped, abort]
  | create hcalls hstopped =>
    refine h.of_eq ?_ rfl
    simp [accounted, toCome, hcalls, hstopped]
    omega
  | acquire hcall hroom =>
    have hlen := length_eraseIdx hcall
    refine h.of_eq ?_ rfl
    simp only [accounted, toCome, List.length_append, List.length_singleton]
    omega
  | refuse hcall hover =>
    have hlen := length_eraseIdx hcall
    refine h.of_abort ?_ (by simp [abort])
    simp only [accounted, toCome, abort]
    omega
  | send hcall hunder =>
    have hlen := length_eraseIdx hcall
    refine h.of_eq ?_ rfl
    simp only [accounted, toCome, List.length_append, List.length_singleton]
    omega
  | fail hcall =>
    have hlen := length_eraseIdx hcall
    refine h.of_eq ?_ rfl
    simp only [accounted, toCome, sendOne]
    omega
  | bill hcall hcost =>
    have hlen := length_eraseIdx hcall
    refine h.of_eq ?_ rfl
    simp only [accounted, toCome, sendOne]
    omega

/-! ### Runs -/

variable {calls : List PlannedCall} {events : List TrafficEvent}

/-- **What holds at every moment of a run.** -/
theorem run_bounded (hnum : Adds num ε) (hmax : 0 < options.maxSpendUsd) (hm : 0 ≤ m)
    (hevents : ∀ e ∈ events, e.AtMost m) :
    Ceiling options m ε (after (step num options) (start calls) events) ∧
      Accounted calls.length (after (step num options) (start calls) events) := by
  refine invariant_of_mem (I := fun s => Ceiling options m ε s ∧ Accounted calls.length s)
    (G := TrafficEvent.AtMost m) (fun s e h he => ?_) ⟨?_, ?_⟩ hevents
  · have hcases : s.step num options e = s ∨ Moves num options m s (s.step num options e) :=
      step_cases he
    rcases hcases with heq | hmoves
    · rw [heq]
      exact h
    · exact ⟨ceiling_moves hnum hmax hm h.1 hmoves, accounted_moves h.2 hmoves⟩
  · refine ⟨Nat.zero_le _, le_rfl, hmax.trans_le ?_⟩
    exact le_ceiling hmax hm hnum.nonneg _
  · exact ⟨le_rfl, ⟨fun _ => rfl, fun _ => rfl⟩⟩

structure Bounded (n : ℕ) (limit : ℚ) (s : Traffic) : Prop where
  spend : s.report.spendUsd < limit
  counted : s.report.sent + s.report.failed ≤ n
  aborted : s.Done → (s.report.sent + s.report.failed = n ↔ s.report.abortedReason = none)

theorem bounded_of_adds (hnum : Adds num ε) (hmax : 0 < options.maxSpendUsd) (hm : 0 ≤ m)
    (hevents : ∀ e ∈ events, e.AtMost m) :
    Bounded calls.length (ceiling options m ε options.concurrency)
      (after (step num options) (start calls) events) := by
  obtain ⟨hceiling, haccounted⟩ := @run_bounded _ _ _ _ calls _ hnum hmax hm hevents
  set s := after (step num options) (start calls) events
  have hle := haccounted.le
  refine ⟨?_, ?_, fun hdone => ?_⟩
  · exact hceiling.spend_lt.trans_le (ceiling_mono hmax hm hnum.nonneg (Nat.sub_le _ _))
  · unfold accounted at hle
    omega
  · obtain ⟨hproducer, hwaiting, hadmitted, hflight⟩ := hdone
    have hcome : s.toCome = 0 := by
      rcases hproducer with h | h
      · simp [toCome, h]
      · simp [toCome, h]
    rw [← haccounted.eq_iff, accounted, hcome, hwaiting, hadmitted, hflight]
    simp

/-- **The ceiling bounds what is spent**, in any order of events, and only an abort
leaves calls out. -/
theorem runTraffic_bounded (flt str : ℚ → ℚ) (options : TrafficOptions)
    (calls : List PlannedCall) (events : List TrafficEvent) (hmax : 0 < options.maxSpendUsd)
    (hm : 0 ≤ m) (hevents : ∀ e ∈ events, e.AtMost m) :
    Bounded calls.length
      ((options.maxSpendUsd + options.concurrency * m) *
        (1 + 5 / 10 ^ 28) ^ options.concurrency)
      (after (step (.decimal flt str) options) (start calls) events) :=
  bounded_of_adds (adds_decimal flt str) hmax hm hevents

/-- Where the additions need no rounding, the calls in flight are all that goes over. -/
theorem runTraffic_bounded_exact (options : TrafficOptions) (calls : List PlannedCall)
    (events : List TrafficEvent) (hmax : 0 < options.maxSpendUsd) (hm : 0 ≤ m)
    (hevents : ∀ e ∈ events, e.AtMost m) :
    Bounded calls.length (options.maxSpendUsd + options.concurrency * m)
      (after (step .exact options) (start calls) events) := by
  have h := @bounded_of_adds _ _ _ _ calls _ adds_exact hmax hm hevents
  rwa [ceiling, add_zero, one_pow, mul_one] at h

/-! Three calls under a ceiling of a dollar.  Two are in flight as one of them reaches it,
so the third is not sent, and the other goes over. -/

def twoAtATime : TrafficOptions where
  concurrency := 2

def twoCalls : List PlannedCall :=
  [{ model := "mock-gpt", prompt := "a" }, { model := "mock-gpt", prompt := "b" }]

def threeCalls : List PlannedCall := twoCalls ++ [{ model := "mock-gpt", prompt := "c" }]

def ceilingReached : List TrafficEvent :=
  [.produce, .acquire 0, .produce, .acquire 0, .produce, .dispatch 0, .dispatch 0,
    .respond 1 (.cost 1), .acquire 0, .dispatch 0, .respond 0 (.cost (1 / 2))]

theorem runTraffic_bounded_inFlight :
    let s := after (step (.decimal id id) twoAtATime) (start threeCalls) ceilingReached
    s.Done ∧ s.report.sent = 2 ∧ s.report.spendUsd = 3 / 2 ∧
      s.report.abortedReason = some "max_spend_reached" ∧
      Bounded threeCalls.length ((twoAtATime.maxSpendUsd + twoAtATime.concurrency * 1) *
        (1 + 5 / 10 ^ 28) ^ twoAtATime.concurrency) s := by
  have hevents : ∀ e ∈ ceilingReached, e.AtMost 1 := by
    norm_num [ceilingReached, TrafficEvent.AtMost]
  exact ⟨by decide +kernel, by decide +kernel, by decide +kernel, by decide +kernel,
    runTraffic_bounded id id twoAtATime threeCalls _ (by decide) zero_le_one hevents⟩

/-! Two calls, one after the other, under the same ceiling. -/

def oneAtATime : TrafficOptions where
  concurrency := 1

/-- The run in which they come back with these costs. -/
def oneByOne (first second : ℚ) : List TrafficEvent :=
  [.produce, .acquire 0, .dispatch 0, .respond 0 (.cost first), .produce, .acquire 0, .dispatch 0,
    .respond 0 (.cost second)]

theorem oneByOne_atMost {first second : ℚ} (h1 : 0 ≤ first ∧ first ≤ m)
    (h2 : 0 ≤ second ∧ second ≤ m) : ∀ e ∈ oneByOne first second, e.AtMost m := by
  simp [oneByOne, TrafficEvent.AtMost, h1, h2]

/-- The first call stays below the ceiling by its 28th digit, which the sum with the
second does not keep. -/
theorem spend_reaches_ceiling :
    (∀ e ∈ oneByOne (1 - 1 / 10 ^ 28) 9, e.AtMost 9) ∧
      (after (step (.decimal id id) oneAtATime) (start twoCalls)
        (oneByOne (1 - 1 / 10 ^ 28) 9)).Done ∧
      ¬ (after (step (.decimal id id) oneAtATime) (start twoCalls)
        (oneByOne (1 - 1 / 10 ^ 28) 9)).report.spendUsd <
          oneAtATime.maxSpendUsd + oneAtATime.concurrency * 9 := by
  refine ⟨oneByOne_atMost ⟨by norm_num, by norm_num⟩ ⟨by norm_num, le_rfl⟩, ?_, ?_⟩
  · decide +kernel
  · decide +kernel

end Traffic

end Finops
