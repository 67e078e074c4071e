import Finops.Base.Run
import Finops.Collectors.ExactlyOnce

/-!
# Every collector in one process

`run_collectors` starts one task a collector in a task group, and the task of a
collector is `run_forever`: one cycle after the other until it is told to stop.
A task that raises ends the group, which cancels the tasks that still run.

The tables and the counters are shared.  Others write the tables in between, and
what a collector's own transaction meets is part of its `Cycle`, so the cycles of
different collectors may overlap in any way.

A cycle raises when it has committed a batch with an amount that the counters
refuse (`runOnce_returns_iff`), and `stays_alive_iff` says that the group lives
through exactly the runs without one.
-/

namespace Finops

open Numerics Runs

/-- Where the task of a collector is. -/
inductive Task
  | running
  | stopped
  | raised (e : PyError)
  | cancelled
  deriving DecidableEq

/-- What the group does to a task when another one has raised. -/
def Task.cancel : Task → Task
  | .running => .cancelled
  | t => t

def Task.Alive : Task → Prop
  | .running => True
  | .stopped => True
  | .raised _ => False
  | .cancelled => False

structure TaskGroup (ι : Type*) where
  process : Process
  task : ι → Task

inductive GroupEvent (ι : Type*)
  | cycle (i : ι) (cycle : Cycle)
  | stop (i : ι)
  /-- others have written the tables -/
  | written (db : Database)

namespace TaskGroup

variable {ι : Type*}

def start (p : Process) : TaskGroup ι := ⟨p, fun _ => .running⟩

variable [DecidableEq ι]

def runForever (collectors : ι → Collector) (num : Arith) (g : TaskGroup ι) :
    GroupEvent ι → TaskGroup ι
  | .cycle i cycle =>
    match g.task i with
    | .running =>
      match (collectors i).runOnce num g.process cycle with
      | (p, .ok _) => ⟨p, g.task⟩
      | (p, .error e) => ⟨p, fun j => if j = i then .raised e else (g.task j).cancel⟩
    | _ => g
  | .stop i =>
    match g.task i with
    | .running => { g with task := fun j => if j = i then .stopped else g.task j }
    | _ => g
  | .written db => { g with process.db := db }

omit [DecidableEq ι] in
/-- The cycle that is run next returns an integer. -/
def Returns (collectors : ι → Collector) (num : Arith) (g : TaskGroup ι) : GroupEvent ι → Prop
  | .cycle i cycle => g.task i = .running →
      ∃ written, ((collectors i).runOnce num g.process cycle).2 = .ok written
  | _ => True

omit [DecidableEq ι] in
/-- The cycle that is run next commits no amount that a counter refuses. -/
def CountersAgree (collectors : ι → Collector) (num : Arith) (g : TaskGroup ι) :
    GroupEvent ι → Prop
  | .cycle i cycle => g.task i = .running → ∀ records, cycle.collected = .ok records →
      cycle.fault = none → (collectors i).Accepts g.process.db records →
        ∀ r ∈ records, 0 ≤ num.flt r.amountUsd
  | _ => True

omit [DecidableEq ι] in
def Alive (g : TaskGroup ι) : Prop := ∀ i, (g.task i).Alive

end TaskGroup

/-! ### One cycle -/

/-- **When a cycle returns**: it commits nothing that a counter refuses. -/
theorem Collector.runOnce_returns_iff {c : Collector} {num : Arith} {p : Process} {cycle : Cycle} :
    (∃ written, (c.runOnce num p cycle).2 = .ok written) ↔
      ∀ records, cycle.collected = .ok records → cycle.fault = none → c.Accepts p.db records →
        ∀ r ∈ records, 0 ≤ num.flt r.amountUsd := by
  cases ha : c.attempt p.db cycle with
  | error e =>
    rw [runOnce_of_error ha]
    refine iff_of_true ⟨0, rfl⟩ fun records hc hf hacc => ?_
    obtain ⟨db', n, hok⟩ := exists_attempt_eq_ok.mpr ⟨hc, hf, hacc⟩
    rw [ha] at hok
    cases hok
  | ok x =>
    obtain ⟨records, db', n⟩ := x
    obtain ⟨hc, hf, hacc⟩ := exists_attempt_eq_ok.mp ⟨db', n, ha⟩
    rcases runOnce_result num ha with ⟨hres, hnn⟩ | ⟨⟨e, hres⟩, hneg⟩
    · refine iff_of_true ⟨n, hres⟩ fun rs hc' _ _ => ?_
      rw [hc] at hc'
      cases hc'
      exact hnn
    · refine iff_of_false ?_ fun hall => hneg (hall records hc hf hacc)
      rintro ⟨written, hw⟩
      rw [hres] at hw
      cases hw

/-! ### One turn -/

namespace TaskGroup

variable {ι : Type*} [DecidableEq ι] {collectors : ι → Collector} {num : Arith} {g : TaskGroup ι}
  {event : GroupEvent ι}

omit [DecidableEq ι] in
theorem returns_iff : Returns collectors num g event ↔ CountersAgree collectors num g event := by
  cases event with
  | cycle i cycle => exact imp_congr_right fun _ => Collector.runOnce_returns_iff
  | stop i => exact Iff.rfl
  | written db => exact Iff.rfl

/-- **One turn** that returns ends no task. -/
theorem alive_runForever (h : g.Alive) (hr : Returns collectors num g event) :
    (runForever collectors num g event).Alive := by
  cases event with
  | cycle i cycle =>
    unfold runForever
    dsimp only
    split
    · rename_i hrun
      obtain ⟨n, hn⟩ := hr hrun
      split
      · exact h
      · rename_i p e he
        rw [he] at hn
        cases hn
    · exact h
  | stop i =>
    unfold runForever
    dsimp only
    split
    · intro j
      dsimp only
      split
      · trivial
      · exact h j
    · exact h
  | written db => exact h

/-- **The groups that live**: every cycle returns an integer, and no collector
ends or cancels another, in exactly the runs in which no cycle commits an amount
that the counters refuse. -/
theorem stays_alive_iff (collectors : ι → Collector) (num : Arith) (p : Process)
    (events : List (GroupEvent ι)) :
    (Along (runForever collectors num) (Returns collectors num) (.start p) events ∧
      ∀ pre, pre <+: events → (after (runForever collectors num) (.start p) pre).Alive) ↔
      Along (runForever collectors num) (CountersAgree collectors num) (.start p) events := by
  have halive : (start p : TaskGroup ι).Alive := fun _ => trivial
  rw [forall_prefix_iff, and_iff_right halive, along_and]
  refine along_congr (I := Alive) (fun g e h hr => alive_runForever h (returns_iff.mpr hr))
    (fun g e h => ?_) halive
  exact ⟨fun hq => returns_iff.mp hq.1, fun hr =>
    ⟨returns_iff.mpr hr, alive_runForever h (returns_iff.mpr hr)⟩⟩

end TaskGroup

/-! A credit of one collector cancels the other. -/

def creditEvents : List (GroupEvent Bool) := [.cycle true creditCycle]

def twoCollectors : Bool → Collector
  | true => llmCollector
  | false => { name := "vectordb", source := .vectordb }

theorem credit_ends_the_group :
    ¬ (Along (TaskGroup.runForever twoCollectors .exact) (TaskGroup.Returns twoCollectors .exact)
          (.start .fresh) creditEvents ∧
      ∀ pre, pre <+: creditEvents →
        (after (TaskGroup.runForever twoCollectors .exact) (.start .fresh) pre).Alive) := by
  rintro ⟨_, halive⟩
  have hcancelled : (after (TaskGroup.runForever twoCollectors .exact) (.start .fresh)
      creditEvents).task false = .cancelled := by
    decide +kernel
  have hall := halive creditEvents (List.prefix_refl _) false
  rw [hcancelled] at hall
  exact hall

end Finops
