import Finops.Base.Run
import Finops.Alerting.State
import Mathlib.Tactic.NormNum

/-!
# Budget requests

The budget table is driven by the three requests that write it.  A body has passed
its schema: what the schema checks is a field of `BudgetCreate` and
`BudgetUpdate`.  In a patch a field is omitted, null or a value (`Field`), and the
three go different ways: an omitted one keeps what is stored, a null is refused by
a `NOT NULL` column but stored by the JSON column of the thresholds.

The limit is rounded to its column's scale when it is stored.  The answer is built
after the commit, so a row that does not fit the response model is answered with a
server error and stays.  `Harmless` says which requests leave the table valid and
unchanged by errors; `budget_store_valid_iff` is that for every sequence of
requests.
-/

namespace Finops.Api

open Numerics Runs

/-- A field of a body. -/
inductive Field (α : Type*)
  | omitted
  | null
  | value (v : α)

structure BudgetCreate where
  team : String
  period : BudgetPeriod := .monthly
  limitUsd : ℚ
  alertThresholds : List ℤ := [80, 100]
  isActive : Bool := true
  team_length : 1 ≤ team.length ∧ team.length ≤ 128
  limit_pos : 0 < limitUsd

structure BudgetUpdate where
  limitUsd : Field ℚ := .omitted
  alertThresholds : Field (List ℤ) := .omitted
  isActive : Field Bool := .omitted
  limit_pos : ∀ v, limitUsd = .value v → 0 < v

structure BudgetModel where
  id : ℤ
  team : String
  period : BudgetPeriod
  limitUsd : ℚ
  alertThresholds : List ℤ
  isActive : Bool

inductive Response
  | created (budget : BudgetModel)
  | ok (budget : BudgetModel)
  | noContent
  | notFound (detail : String)
  | conflict (detail : String)
  | serverError

def Response.isError : Response → Bool
  | .notFound _ => true
  | .conflict _ => true
  | .serverError => true
  | _ => false

/-! ### The table -/

structure BudgetTable extends Budgets where
  nextId : ℤ
  ids : (rows.map Budget.id).Nodup
  ids_lt : ∀ b ∈ rows, b.id < nextId

structure BudgetValues where
  limitUsd : ℚ
  alertThresholds : Option (List ℤ)
  isActive : Bool

namespace BudgetTable

def empty : BudgetTable where
  rows := []
  nextId := 1
  ids := List.nodup_nil
  ids_lt := fun _ h => absurd h List.not_mem_nil
  unique := List.nodup_nil

def get (t : BudgetTable) (id : ℤ) : Option Budget := t.rows.find? fun b => b.id = id

def existing (t : BudgetTable) (team : String) (period : BudgetPeriod) : Option Budget :=
  t.rows.find? fun b => b.team = team && b.period = period

theorem existing_eq_none {t : BudgetTable} {team : String} {period : BudgetPeriod} :
    t.existing team period = none ↔ (team, period) ∉ t.rows.map fun b => (b.team, b.period) := by
  rw [existing, List.find?_eq_none, List.mem_map]
  simp only [Bool.and_eq_true, decide_eq_true_eq, Prod.mk.injEq]
  exact ⟨fun h ⟨b, hb, he⟩ => h b hb he, fun h b hb he => h ⟨b, hb, he⟩⟩

def newRow (t : BudgetTable) (payload : BudgetCreate) (limitUsd : ℚ) : Budget where
  id := t.nextId
  team := payload.team
  period := payload.period
  limitUsd := limitUsd
  alertThresholds := some payload.alertThresholds
  isActive := payload.isActive

def insert (t : BudgetTable) (payload : BudgetCreate) (limitUsd : ℚ)
    (h : t.existing payload.team payload.period = none) : BudgetTable where
  rows := t.rows ++ [t.newRow payload limitUsd]
  nextId := t.nextId + 1
  ids := by
    rw [List.map_append, List.nodup_append]
    refine ⟨t.ids, by simp, ?_⟩
    rintro a ha b hb rfl
    obtain ⟨q, hq, rfl⟩ := List.mem_map.mp ha
    exact (t.ids_lt q hq).ne (by simpa [newRow] using hb)
  ids_lt := by
    intro b hb
    rcases List.mem_append.mp hb with hb | hb
    · exact (t.ids_lt b hb).trans (lt_add_one _)
    · rw [List.mem_singleton.mp hb]
      exact lt_add_one t.nextId
  unique := by
    rw [List.map_append, List.nodup_append]
    refine ⟨t.unique, by simp, ?_⟩
    rintro a ha b hb rfl
    obtain rfl : a = (payload.team, payload.period) := by simpa [newRow] using hb
    exact existing_eq_none.mp h ha

def write (id : ℤ) (values : BudgetValues) (b : Budget) : Budget :=
  if b.id = id then { b with
    limitUsd := values.limitUsd
    alertThresholds := values.alertThresholds
    isActive := values.isActive } else b

theorem id_write (id : ℤ) (values : BudgetValues) (b : Budget) : (write id values b).id = b.id := by
  unfold write
  split <;> rfl

theorem owner_write (id : ℤ) (values : BudgetValues) (b : Budget) :
    ((write id values b).team, (write id values b).period) = (b.team, b.period) := by
  unfold write
  split <;> rfl

def update (t : BudgetTable) (id : ℤ) (values : BudgetValues) : BudgetTable where
  rows := t.rows.map (write id values)
  nextId := t.nextId
  ids := by
    have hmap : t.rows.map (Budget.id ∘ write id values) = t.rows.map Budget.id :=
      List.map_congr_left fun b _ => id_write id values b
    rw [List.map_map, hmap]
    exact t.ids
  ids_lt := by
    intro b hb
    obtain ⟨q, hq, rfl⟩ := List.mem_map.mp hb
    rw [id_write]
    exact t.ids_lt q hq
  unique := by
    have hmap : t.rows.map ((fun b : Budget => (b.team, b.period)) ∘ write id values) =
        t.rows.map fun b => (b.team, b.period) :=
      List.map_congr_left fun b _ => owner_write id values b
    rw [List.map_map, hmap]
    exact t.unique

def delete (t : BudgetTable) (id : ℤ) : BudgetTable where
  rows := t.rows.filter fun b => b.id ≠ id
  nextId := t.nextId
  ids := t.ids.sublist (List.filter_sublist.map _)
  ids_lt := fun b hb => t.ids_lt b (List.mem_of_mem_filter hb)
  unique := t.unique.sublist (List.filter_sublist.map _)

end BudgetTable

/-! ### The requests -/

/-- A value in a `Numeric(18, 8)` column: rounded, and refused with more than ten
digits before the point. -/
def moneyColumn (v : ℚ) : Except PyError ℚ :=
  if |toExp halfAway (-CostRecord.moneyScale) v| < 10 ^ 10 then
    .ok (toExp halfAway (-CostRecord.moneyScale) v)
  else .error .dataError

/-- A column that is `NOT NULL`. -/
def required {α : Type*} (store : α → Except PyError α) (old : α) : Field α → Except PyError α
  | .omitted => .ok old
  | .null => .error .integrityError
  | .value v => store v

/-- A JSON column: None is stored as a JSON null. -/
def jsonColumn {α : Type*} (old : Option α) : Field α → Option α
  | .omitted => old
  | .null => none
  | .value v => some v

def patched (budget : Budget) (payload : BudgetUpdate) : Except PyError BudgetValues := do
  let limitUsd ← required moneyColumn budget.limitUsd payload.limitUsd
  let isActive ← required .ok budget.isActive payload.isActive
  return ⟨limitUsd, jsonColumn budget.alertThresholds payload.alertThresholds, isActive⟩

def BudgetModel.ofRow (b : Budget) : Option BudgetModel :=
  b.alertThresholds.map fun alertThresholds =>
    ⟨b.id, b.team, b.period, b.limitUsd, alertThresholds, b.isActive⟩

def respond (answer : BudgetModel → Response) (b : Budget) : Response :=
  ((BudgetModel.ofRow b).map answer).getD .serverError

def createBudget (t : BudgetTable) (payload : BudgetCreate) : BudgetTable × Response :=
  match h : t.existing payload.team payload.period with
  | some _ => (t, .conflict ("a " ++ payload.period.str ++ " budget already exists for team "
      ++ quoted payload.team))
  | none =>
    match moneyColumn payload.limitUsd with
    | .error _ => (t, .serverError)
    | .ok limitUsd =>
      (t.insert payload limitUsd h, respond .created (t.newRow payload limitUsd))

/-- The answer of `_load` for an id that is not there. -/
def notFound (id : ℤ) : Response := .notFound ("budget " ++ toString id ++ " not found")

def updateBudget (t : BudgetTable) (id : ℤ) (payload : BudgetUpdate) : BudgetTable × Response :=
  match t.get id with
  | none => (t, notFound id)
  | some budget =>
    match patched budget payload with
    | .error _ => (t, .serverError)
    | .ok values => (t.update id values, respond .ok (BudgetTable.write id values budget))

def deleteBudget (t : BudgetTable) (id : ℤ) : BudgetTable × Response :=
  match t.get id with
  | none => (t, notFound id)
  | some _ => (t.delete id, .noContent)

inductive BudgetRequest
  | create (payload : BudgetCreate)
  | patch (id : ℤ) (payload : BudgetUpdate)
  | delete (id : ℤ)

def handle (t : BudgetTable) : BudgetRequest → BudgetTable × Response
  | .create payload => createBudget t payload
  | .patch id payload => updateBudget t id payload
  | .delete id => deleteBudget t id

/-! ### Valid rows -/

structure ValidRow (b : Budget) : Prop where
  limit_pos : 0 < b.limitUsd
  thresholds : b.alertThresholds.isSome = true

def BudgetTable.Valid (t : BudgetTable) : Prop := ∀ b ∈ t.rows, ValidRow b

/-- The least limit that is not rounded to zero. -/
def minLimit : ℚ := 1 / 2 * (10 : ℚ) ^ (-CostRecord.moneyScale)

/-- A limit with more than ten digits before the point. -/
def Overflows (v : ℚ) : Prop := 10 ^ 10 ≤ |toExp halfAway (-CostRecord.moneyScale) v|

/-- A patch that a column refuses. -/
def Refused (payload : BudgetUpdate) : Prop :=
  payload.limitUsd = .null ∨ payload.isActive = .null ∨
    ∃ v, payload.limitUsd = .value v ∧ Overflows v

/-- The requests that do no harm: a new limit is not rounded to zero and the
thresholds are not null, unless the request is answered without a write. -/
def Harmless (t : BudgetTable) : BudgetRequest → Prop
  | .create payload => (t.existing payload.team payload.period).isSome = true ∨
      minLimit ≤ payload.limitUsd
  | .patch id payload => t.get id = none ∨ Refused payload ∨
      payload.alertThresholds ≠ .null ∧ ∀ v, payload.limitUsd = .value v → minLimit ≤ v
  | .delete _ => True

theorem stored_pos_iff {v : ℚ} (hv : 0 < v) :
    0 < toExp halfAway (-CostRecord.moneyScale) v ↔ minLimit ≤ v := by
  have hstep : (0 : ℚ) < (10 : ℚ) ^ (-CostRecord.moneyScale) := by positivity
  have hnn : 0 ≤ v / (10 : ℚ) ^ (-CostRecord.moneyScale) := (div_pos hv hstep).le
  rw [toExp, mul_pos_iff_of_pos_right hstep, Int.cast_pos, halfAway, if_pos hnn, Int.floor_pos,
    minLimit, ← le_div_iff₀ hstep]
  constructor <;> intro h <;> linarith

theorem stored_pos_of_overflows {v : ℚ} (hv : 0 < v) (h : Overflows v) :
    0 < toExp halfAway (-CostRecord.moneyScale) v := by
  unfold Overflows at h
  rw [abs_of_nonneg (toExp_halfAway_nonneg _ hv.le)] at h
  exact lt_of_lt_of_le (by norm_num) h

theorem moneyColumn_cases (v : ℚ) :
    (Overflows v ∧ moneyColumn v = .error .dataError) ∨
      (¬ Overflows v ∧ moneyColumn v = .ok (toExp halfAway (-CostRecord.moneyScale) v)) := by
  unfold moneyColumn
  split
  · rename_i h
    exact .inr ⟨not_le.mpr h, rfl⟩
  · rename_i h
    exact .inl ⟨not_lt.mp h, rfl⟩

def patchedLimit (old : ℚ) : Field ℚ → ℚ
  | .value v => toExp halfAway (-CostRecord.moneyScale) v
  | _ => old

/-- **A patch** is refused, or it sends its values. -/
theorem patched_cases (budget : Budget) (payload : BudgetUpdate) :
    (Refused payload ∧ ∃ e, patched budget payload = .error e) ∨
    (¬ Refused payload ∧ ∃ isActive, patched budget payload =
      .ok ⟨patchedLimit budget.limitUsd payload.limitUsd,
        jsonColumn budget.alertThresholds payload.alertThresholds, isActive⟩) := by
  unfold patched Refused
  have hactive : (payload.isActive = .null ∧ required .ok budget.isActive payload.isActive =
        .error .integrityError) ∨
      (payload.isActive ≠ .null ∧ ∃ isActive, required .ok budget.isActive payload.isActive =
        .ok isActive) := by
    cases payload.isActive with
    | omitted => exact .inr ⟨nofun, _, rfl⟩
    | null => exact .inl ⟨rfl, rfl⟩
    | value v => exact .inr ⟨nofun, _, rfl⟩
  cases payload.limitUsd with
  | null => exact .inl ⟨.inl rfl, _, rfl⟩
  | omitted =>
    rcases hactive with ⟨hnull, ha⟩ | ⟨hnull, isActive, ha⟩
    · exact .inl ⟨.inr (.inl hnull), _, by rw [ha]; rfl⟩
    · refine .inr ⟨?_, isActive, by rw [ha]; rfl⟩
      rintro (h | h | ⟨v, h, _⟩)
      · cases h
      · exact hnull h
      · cases h
  | value v =>
    rcases moneyColumn_cases v with ⟨hover, hv⟩ | ⟨hover, hv⟩
    · have hlimit : required moneyColumn budget.limitUsd (.value v) = .error .dataError := hv
      exact .inl ⟨.inr (.inr ⟨v, rfl, hover⟩), _, by rw [hlimit]; rfl⟩
    · have hlimit : required moneyColumn budget.limitUsd (.value v) =
          .ok (toExp halfAway (-CostRecord.moneyScale) v) := hv
      rcases hactive with ⟨hnull, ha⟩ | ⟨hnull, isActive, ha⟩
      · exact .inl ⟨.inr (.inl hnull), _, by rw [hlimit, ha]; rfl⟩
      · refine .inr ⟨?_, isActive, by rw [hlimit, ha]; rfl⟩
        rintro (h | h | ⟨u, h, hu⟩)
        · cases h
        · exact hnull h
        · cases h
          exact hover hu

/-! ### One request -/

variable {t : BudgetTable}

theorem isError_respond {answer : BudgetModel → Response} {b : Budget}
    (h : ∀ m, (answer m).isError = false) :
    (respond answer b).isError = !b.alertThresholds.isSome := by
  unfold respond BudgetModel.ofRow
  cases b.alertThresholds with
  | none => rfl
  | some thresholds => exact h _

theorem valid_insert_iff (hvalid : t.Valid) (payload : BudgetCreate) (limitUsd : ℚ)
    (h : t.existing payload.team payload.period = none) :
    (t.insert payload limitUsd h).Valid ↔ 0 < limitUsd := by
  constructor
  · intro hv
    exact (hv (t.newRow payload limitUsd) (List.mem_append_right _ List.mem_cons_self)).limit_pos
  · intro hpos b hb
    rcases List.mem_append.mp hb with hb | hb
    · exact hvalid b hb
    · rw [List.mem_singleton.mp hb]
      exact ⟨hpos, rfl⟩

theorem mem_of_get {id : ℤ} {b : Budget} (h : t.get id = some b) : b ∈ t.rows ∧ b.id = id :=
  ⟨List.mem_of_find?_eq_some h, by simpa using List.find?_some h⟩

theorem valid_update_iff (hvalid : t.Valid) {id : ℤ} {b : Budget} (h : t.get id = some b)
    (values : BudgetValues) : (t.update id values).Valid ↔
      0 < values.limitUsd ∧ values.alertThresholds.isSome = true := by
  obtain ⟨hb, hid⟩ := mem_of_get h
  constructor
  · intro hv
    have hrow := hv (BudgetTable.write id values b) (List.mem_map_of_mem hb)
    rw [BudgetTable.write, if_pos hid] at hrow
    exact ⟨hrow.limit_pos, hrow.thresholds⟩
  · rintro ⟨hpos, hsome⟩ q hq
    obtain ⟨r, hr, rfl⟩ := List.mem_map.mp hq
    unfold BudgetTable.write
    split
    · exact ⟨hpos, hsome⟩
    · exact hvalid r hr

def storeStep (t : BudgetTable) (req : BudgetRequest) : BudgetTable := (handle t req).1

/-- An answer that is an error comes with the table as it was. -/
def ErrorUnchanged (t : BudgetTable) (req : BudgetRequest) : Prop :=
  (handle t req).2.isError = true → (handle t req).1 = t

theorem create_iff (hvalid : t.Valid) (payload : BudgetCreate) :
    ((storeStep t (.create payload)).Valid ∧ ErrorUnchanged t (.create payload)) ↔
      Harmless t (.create payload) := by
  unfold storeStep ErrorUnchanged handle Harmless createBudget
  dsimp only
  split
  · rename_i b hb
    rw [hb]
    exact iff_of_true ⟨hvalid, fun _ => rfl⟩ (.inl rfl)
  · rename_i hnone
    have hno : (t.existing payload.team payload.period).isSome = false := by rw [hnone]; rfl
    rw [hno]
    rcases moneyColumn_cases payload.limitUsd with ⟨hover, hv⟩ | ⟨_, hv⟩
    · rw [hv]
      refine iff_of_true ⟨hvalid, fun _ => rfl⟩ (.inr ?_)
      exact (stored_pos_iff payload.limit_pos).mp
        (stored_pos_of_overflows payload.limit_pos hover)
    · rw [hv]
      dsimp only
      rw [valid_insert_iff hvalid, stored_pos_iff payload.limit_pos,
        isError_respond fun _ => rfl]
      simp [BudgetTable.newRow]

theorem patch_iff (hvalid : t.Valid) (id : ℤ) (payload : BudgetUpdate) :
    ((storeStep t (.patch id payload)).Valid ∧ ErrorUnchanged t (.patch id payload)) ↔
      Harmless t (.patch id payload) := by
  unfold storeStep ErrorUnchanged handle Harmless updateBudget
  dsimp only
  cases hget : t.get id with
  | none => exact iff_of_true ⟨hvalid, fun _ => rfl⟩ (.inl rfl)
  | some b =>
    dsimp only
    obtain ⟨hb, hid⟩ := mem_of_get hget
    rcases patched_cases b payload with ⟨href, e, he⟩ | ⟨href, isActive, hv⟩
    · rw [he]
      exact iff_of_true ⟨hvalid, fun _ => rfl⟩ (.inr (.inl href))
    · rw [hv]
      dsimp only
      have hlimit : 0 < patchedLimit b.limitUsd payload.limitUsd ↔
          ∀ v, payload.limitUsd = .value v → minLimit ≤ v := by
        cases hl : payload.limitUsd with
        | omitted => exact iff_of_true (hvalid b hb).limit_pos nofun
        | null => exact absurd (.inl hl) href
        | value v =>
          rw [patchedLimit, stored_pos_iff (payload.limit_pos v hl)]
          simp
      have hthresholds : (jsonColumn b.alertThresholds payload.alertThresholds).isSome = true ↔
          payload.alertThresholds ≠ .null := by
        cases payload.alertThresholds with
        | omitted => exact iff_of_true (hvalid b hb).thresholds nofun
        | null => simp [jsonColumn]
        | value v => exact iff_of_true rfl nofun
      rw [valid_update_iff hvalid hget, hlimit, hthresholds]
      constructor
      · rintro ⟨⟨hmin, hnull⟩, _⟩
        exact .inr (.inr ⟨hnull, hmin⟩)
      · rintro (h | h | ⟨hnull, hmin⟩)
        · cases h
        · exact absurd h href
        · refine ⟨⟨hmin, hnull⟩, fun herr => ?_⟩
          rw [isError_respond fun _ => rfl, BudgetTable.write, if_pos hid] at herr
          dsimp only at herr
          rw [hthresholds.mpr hnull] at herr
          cases herr

theorem delete_valid (hvalid : t.Valid) (id : ℤ) :
    (storeStep t (.delete id)).Valid ∧ ErrorUnchanged t (.delete id) := by
  unfold storeStep ErrorUnchanged handle deleteBudget
  dsimp only
  cases t.get id with
  | none => exact ⟨hvalid, fun _ => rfl⟩
  | some b => exact ⟨fun q hq => hvalid q (List.mem_of_mem_filter hq), fun h => by cases h⟩

/-- **One request** to a valid table does what it should exactly when it is
harmless. -/
theorem request_iff (hvalid : t.Valid) (req : BudgetRequest) :
    ((storeStep t req).Valid ∧ ErrorUnchanged t req) ↔ Harmless t req := by
  cases req with
  | create payload => exact create_iff hvalid payload
  | patch id payload => exact patch_iff hvalid id payload
  | delete id => exact iff_of_true (delete_valid hvalid id) trivial

/-- **Budget store integrity.**  Over a sequence of requests to a valid table, every
stored budget stays valid and every error leaves the table as it was, exactly when
each request is harmless in the state it is made in. -/
theorem budget_store_valid_iff (hvalid : t.Valid) (reqs : List BudgetRequest) :
    ((∀ pre, pre <+: reqs → (after storeStep t pre).Valid) ∧
      Along storeStep ErrorUnchanged t reqs) ↔ Along storeStep Harmless t reqs := by
  rw [forall_prefix_iff, and_assoc, along_and, and_iff_right hvalid]
  exact along_congr (I := BudgetTable.Valid) (fun t req ht h => ((request_iff ht req).mpr h).1)
    (fun t req ht => request_iff ht req) hvalid

/-! A budget, a patch that raises its limit, and one that sends null for its thresholds. -/

def research : BudgetCreate where
  team := "research"
  limitUsd := 2000
  team_length := by decide
  limit_pos := by norm_num

def higherLimit : BudgetUpdate where
  limitUsd := .value 5000
  limit_pos := fun v h => by cases h; norm_num

def noThresholds : BudgetUpdate where
  alertThresholds := .null
  limit_pos := fun v h => by cases h

theorem budget_store_valid_raised :
    let t := after storeStep BudgetTable.empty [.create research, .patch 1 higherLimit]
    (t.get 1).map (fun b => b.limitUsd) = some 5000 ∧ t.Valid := by
  have hempty : BudgetTable.empty.Valid := fun b hb => absurd hb List.not_mem_nil
  have hcreate : minLimit ≤ research.limitUsd := by
    norm_num [research, minLimit, CostRecord.moneyScale]
  have hpatch : ∀ v, higherLimit.limitUsd = .value v → minLimit ≤ v := by
    intro v hv
    cases hv
    norm_num [minLimit, CostRecord.moneyScale]
  have hthresholds : higherLimit.alertThresholds ≠ .null := fun h => by cases h
  have hharmless : Along storeStep Harmless BudgetTable.empty
      [.create research, .patch 1 higherLimit] :=
    ⟨.inr hcreate, .inr (.inr ⟨hthresholds, hpatch⟩), trivial⟩
  exact ⟨by decide +kernel,
    ((budget_store_valid_iff hempty _).mpr hharmless).1 _ List.prefix_rfl⟩

/-- The patch is answered with a server error and stored. -/
theorem null_thresholds_stored :
    let t := after storeStep BudgetTable.empty [.create research]
    (handle t (.patch 1 noThresholds)).2.isError = true ∧
      ((handle t (.patch 1 noThresholds)).1.rows.map fun b => b.alertThresholds) = [none] ∧
      (t.rows.map fun b => b.alertThresholds) = [some [80, 100]] := by
  decide +kernel

end Finops.Api
