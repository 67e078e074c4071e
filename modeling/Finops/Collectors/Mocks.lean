import Finops.Base.Floats
import Finops.Attribution.Forecast
import Finops.Collectors.Simulated

/-!
# The mock collectors of compute and of vector databases

Each builds its records from draws that the hour seeds, so an hour that is made again
is the same.  Their records are for a team and for an index, and no run of either
leaves an hour out or makes one twice (`simulated_no_gaps`).
-/

namespace Finops

open Numerics Calendar

/-- What the draws and the texts of a record come from: the arithmetic, the values of
`random()` that a seed gives, and `str(Decimal(str(x)))` of a float. -/
structure Simulator where
  num : Arith
  random : String → ℕ → ℚ
  text : ℚ → String

def roundFloat (num : Arith) (digits : ℤ) (x : ℚ) : ℚ := num.flt (toExp halfEven (-digits) x)

def DEFAULT_BACKFILL_DAYS : ℤ := 14

/-! ### Compute -/

structure ComputeProfile where
  team : String
  project : String
  useCase : String
  unit : String
  unitsPerHour : ℚ × ℚ
  usdPerUnit : Literal

def GPU_HOUR : String := "gpu-hour"
def VCPU_HOUR : String := "vcpu-hour"

def COMPUTE_PROFILES (num : Arith) : List ComputeProfile :=
  [{ team := "research"
     project := "model-lab"
     useCase := "fine-tuning"
     unit := GPU_HOUR
     unitsPerHour := (num.flt (6 / 10), num.flt (24 / 10))
     usdPerUnit := ⟨122400, -4⟩ },
   { team := "support-bot"
     project := "customer-support"
     useCase := "inference-serving"
     unit := VCPU_HOUR
     unitsPerHour := (6, 18)
     usdPerUnit := ⟨416, -4⟩ },
   { team := "search"
     project := "discovery"
     useCase := "inference-serving"
     unit := VCPU_HOUR
     unitsPerHour := (3, 11)
     usdPerUnit := ⟨416, -4⟩ }]

namespace MockComputeCollector

def name : String := "mock_compute"

def CENT : Literal := ⟨1, -8⟩

def buildRecord (sim : Simulator) (profile : ComputeProfile) (bucket : Instant) :
    Except PyError CostRecord := do
  let num := sim.num
  let rng := seededRng sim.random [name, profile.team, isoformat bucket]
  let units := num.str (roundFloat num 4
    (num.flt (uniform num (rng 0) profile.unitsPerHour * demandMultiplier num bucket)))
  let amount ← quantize num CENT.exp (num.dec (units * profile.usdPerUnit.value))
  return {
    source := .compute
    dedupKey := "mock-compute:" ++ profile.team ++ ":" ++ isoformat bucket
    occurredAt := bucket
    amountUsd := amount
    quantity := some units
    unit := some profile.unit
    team := profile.team
    project := profile.project
    agentId := "infrastructure"
    useCase := profile.useCase
    raw := [("simulated", .bool true), ("usd_per_unit", .str (decimalStr profile.usdPerUnit))] }

end MockComputeCollector

def MockComputeCollector (sim : Simulator) (backfillDays : ℤ) (profiles : List ComputeProfile) :
    MockCollector ComputeProfile where
  name := MockComputeCollector.name
  source := .compute
  keyPrefix := "mock-compute:"
  ident := ComputeProfile.team
  owner := fun record => some record.team
  backfillDays := backfillDays
  profiles := profiles
  buildRecord := MockComputeCollector.buildRecord sim
  built := by
    intro profile bucket record h
    obtain ⟨amount, _, h⟩ := Batch.bind_eq_ok.mp h
    cases h
    exact ⟨rfl, rfl, rfl, rfl⟩

/-! ### Vector databases -/

structure IndexProfile where
  index : String
  project : String
  team : String
  useCase : String
  readUnitsPerHour : ℚ × ℚ
  writeUnitsPerHour : ℚ × ℚ
  storedGb : ℚ

def READ_UNIT : String := "read-unit"
def USD_PER_MILLION_READ_UNITS : Literal := ⟨825, -2⟩
def USD_PER_MILLION_WRITE_UNITS : Literal := ⟨200, -2⟩
def USD_PER_GB_HOUR : Literal := ⟨45, -5⟩
def MILLION : ℚ := 1000000

def INDEX_PROFILES : List IndexProfile :=
  [{ index := "support-kb"
     project := "customer-support"
     team := "support-bot"
     useCase := "faq"
     readUnitsPerHour := (90000, 260000)
     writeUnitsPerHour := (1000, 6000)
     storedGb := 14 },
   { index := "discovery-docs"
     project := "discovery"
     team := "search"
     useCase := "rag"
     readUnitsPerHour := (140000, 420000)
     writeUnitsPerHour := (4000, 15000)
     storedGb := 52 },
   { index := "research-corpus"
     project := "model-lab"
     team := "research"
     useCase := "literature-review"
     readUnitsPerHour := (8000, 30000)
     writeUnitsPerHour := (12000, 40000)
     storedGb := 96 }]

namespace MockVectorDBCollector

def name : String := "mock_vectordb"

def CENT : Literal := ⟨1, -8⟩

/-- The cost of so many reads and writes, and of an hour of storage. -/
def usage (num : Arith) (reads writes storedGb : ℚ) : ℚ :=
  num.dec (num.dec (num.dec (num.dec (reads / MILLION) * USD_PER_MILLION_READ_UNITS.value)
      + num.dec (num.dec (writes / MILLION) * USD_PER_MILLION_WRITE_UNITS.value))
    + num.dec (num.str storedGb * USD_PER_GB_HOUR.value))

def buildRecord (sim : Simulator) (profile : IndexProfile) (bucket : Instant) :
    Except PyError CostRecord := do
  let num := sim.num
  let rng := seededRng sim.random [name, profile.index, isoformat bucket]
  let demand := demandMultiplier num bucket
  let reads := num.str (roundFloat num 2
    (num.flt (uniform num (rng 0) profile.readUnitsPerHour * demand)))
  let written := roundFloat num 2 (uniform num (rng 1) profile.writeUnitsPerHour)
  let amount ← quantize num CENT.exp (usage num reads (num.str written) profile.storedGb)
  return {
    source := .vectordb
    dedupKey := "mock-vectordb:" ++ profile.index ++ ":" ++ isoformat bucket
    occurredAt := bucket
    amountUsd := amount
    quantity := some reads
    unit := some READ_UNIT
    team := profile.team
    project := profile.project
    agentId := "vector-index"
    useCase := profile.useCase
    raw := [("simulated", .bool true), ("index", .str profile.index),
      ("write_units", .str (sim.text written)), ("stored_gb", .num profile.storedGb)] }

end MockVectorDBCollector

/-- The index that the `raw` of a record names. -/
def rawIndex (record : CostRecord) : Option String :=
  match record.raw.lookup "index" with
  | some (.str index) => some index
  | _ => none

/-- Generates simulated vector database spend per index per hour. -/
def MockVectorDBCollector (sim : Simulator) (backfillDays : ℤ) (profiles : List IndexProfile) :
    MockCollector IndexProfile where
  name := MockVectorDBCollector.name
  source := .vectordb
  keyPrefix := "mock-vectordb:"
  ident := IndexProfile.index
  owner := rawIndex
  backfillDays := backfillDays
  profiles := profiles
  buildRecord := MockVectorDBCollector.buildRecord sim
  built := by
    intro profile bucket record h
    obtain ⟨amount, _, h⟩ := Batch.bind_eq_ok.mp h
    cases h
    exact ⟨rfl, rfl, rfl, rfl⟩

/-! ### Every run -/

/-- **Simulated spend has no gaps and no duplicates.**  From empty tables, after any
cycles at any readings of the clock, some of which may fail: the hours that have a
record are a block of whole hours, each profile has one record for each, and the
position is the last of them. -/
theorem simulated_no_gaps (sim : Simulator) (backfillDays : ℤ) (metrics : Metrics)
    (ticks : List Tick) :
    (∀ profiles : List ComputeProfile, (profiles.map ComputeProfile.team).Nodup →
      let c := MockComputeCollector sim backfillDays profiles
      c.NoGaps (Runs.after (c.runOnce sim.num) ⟨Database.empty, metrics⟩ ticks).db) ∧
    ∀ profiles : List IndexProfile, (profiles.map IndexProfile.index).Nodup →
      let c := MockVectorDBCollector sim backfillDays profiles
      c.NoGaps (Runs.after (c.runOnce sim.num) ⟨Database.empty, metrics⟩ ticks).db :=
  ⟨fun _ hteams => MockCollector.noGaps_after hteams sim.num metrics ticks,
    fun _ hindexes => MockCollector.noGaps_after hindexes sim.num metrics ticks⟩

/-! The collectors as they are set up, over a cycle, a failed one, and one of a clock
that was set back. -/

def plainSimulator : Simulator := ⟨.cpython, fun _ _ => 1 / 2, fun _ => "1000.0"⟩

def atNoon : Reading := ⟨63922393800000000, by decide, by decide⟩

def afternoon : Reading := ⟨63922399500000000, by decide, by decide⟩

def monthBefore : Reading := ⟨63919670400000000, by decide, by decide⟩

def demoTicks : List Tick :=
  [{ now := atNoon }, { now := afternoon, fault := some .operationalError }, { now := monthBefore },
    { now := afternoon }]

theorem simulated_no_gaps_demo :
    (MockComputeCollector plainSimulator DEFAULT_BACKFILL_DAYS (COMPUTE_PROFILES .cpython)).NoGaps
      (Runs.after ((MockComputeCollector plainSimulator DEFAULT_BACKFILL_DAYS
        (COMPUTE_PROFILES .cpython)).runOnce plainSimulator.num) ⟨Database.empty, {}⟩
        demoTicks).db ∧
    (MockVectorDBCollector plainSimulator DEFAULT_BACKFILL_DAYS INDEX_PROFILES).NoGaps
      (Runs.after ((MockVectorDBCollector plainSimulator DEFAULT_BACKFILL_DAYS
        INDEX_PROFILES).runOnce plainSimulator.num) ⟨Database.empty, {}⟩ demoTicks).db :=
  ⟨(simulated_no_gaps plainSimulator DEFAULT_BACKFILL_DAYS {} demoTicks).1
      (COMPUTE_PROFILES .cpython) (by decide),
    (simulated_no_gaps plainSimulator DEFAULT_BACKFILL_DAYS {} demoTicks).2
      INDEX_PROFILES (by decide)⟩

end Finops
