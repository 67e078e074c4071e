import Finops.Base.Numerics
import Mathlib.Data.List.Nodup

/-!
# The fact table

`CostRecord` is one unit of spend from one source, as a collector or an
allocation rule builds it, and `CostRow` is the same record once the database
has given it an `id`.

A `Session` is the table as one open transaction sees it, with its own pending
inserts and flag changes: ids are there, the unique constraint is not checked
yet.  `Session.flush` sends it to the database and gives back a `Warehouse`, in
which `uq_cost_record_source_dedup_key` holds, or the error that rolls the
transaction back.

Columns: a `Numeric` column rounds to its scale on store (`CostRecord.stored`).  It
rejects what has too many digits before the point, and a `String(n)` column what is
longer or has a NUL character in it (`CostRecord.fits`).
-/

namespace Finops

open Numerics

/-- An instant, in microseconds since 0001-01-01 UTC. -/
abbrev Instant := ℤ

inductive PyError
  | valueError (message : String)
  | unknownDimension (name : String)
  | typeError
  | keyError (key : String)
  | overflowError
  | recursionError
  | invalidOperation
  | integrityError
  | dataError
  | operationalError
  | interfaceError
  deriving DecidableEq, Repr

/-- The digits that a conversion between an integer and a text takes at most. -/
def MAX_STR_DIGITS : ℕ := 4300

/-- A character of a text as `repr` writes it, between quotes of one kind. -/
def escaped (quote c : Char) : List Char :=
  let backslash := Char.ofNat 92
  if c = quote || c = backslash then [backslash, c]
  else if c.toNat = 9 then [backslash, 't']
  else if c.toNat = 10 then [backslash, 'n']
  else if c.toNat = 13 then [backslash, 'r']
  else if c.toNat < 32 || c.toNat = 127 then
    [backslash, 'x', Nat.digitChar (c.toNat / 16), Nat.digitChar (c.toNat % 16)]
  else [c]

/-- `repr` of a text.  Above ASCII, every character counts as printable. -/
def quoted (s : String) : String :=
  let single := Char.ofNat 39
  let double := Char.ofNat 34
  let quote := if single ∈ s.toList && double ∉ s.toList then double else single
  String.ofList (quote :: s.toList.flatMap (escaped quote) ++ [quote])

inductive Json
  | null
  | bool (b : Bool)
  | num (v : ℚ)
  | str (s : String)
  | arr (items : List Json)
  | obj (fields : List (String × Json))

def UNATTRIBUTED : String := "unattributed"

inductive CostSource
  | llm
  | compute
  | vectordb
  | infra
  deriving DecidableEq, Repr

def CostSource.str : CostSource → String
  | llm => "llm"
  | compute => "compute"
  | vectordb => "vectordb"
  | infra => "infra"

theorem str_injective {a b : CostSource} (h : a.str = b.str) : a = b := by
  cases a <;> cases b <;> first | rfl | exact absurd h (by decide)

/-! ### Columns -/

/-- What a `String(n)` column holds: at most `n` characters, none of them NUL. -/
def textFits (n : ℕ) (s : String) : Bool := s.length ≤ n && s.toList.all fun c => c.toNat ≠ 0

/-- What a `Numeric` column holds: a value that has, rounded to the scale, at most so many
digits before the point. -/
def numericFits (digits : ℕ) (scale : ℤ) (v : ℚ) : Bool :=
  |toExp halfAway (-scale) v| < 10 ^ digits

theorem numericFits_toExp (digits : ℕ) (scale : ℤ) (v : ℚ) :
    numericFits digits scale (toExp halfAway (-scale) v) = numericFits digits scale v := by
  rw [numericFits, toExp_of_hasScale halfAway_intCast (hasScale_toExp halfAway scale v)]
  rfl

theorem textFits_iff {n : ℕ} {s : String} :
    textFits n s = true ↔ s.length ≤ n ∧ ∀ c ∈ s.toList, c.toNat ≠ 0 := by
  simp only [textFits, Bool.and_eq_true, decide_eq_true_eq, List.all_eq_true]

structure CostRecord where
  source : CostSource
  dedupKey : String
  occurredAt : Instant
  amountUsd : ℚ
  quantity : Option ℚ := none
  unit : Option String := none
  model : Option String := none
  team : String := UNATTRIBUTED
  project : String := UNATTRIBUTED
  agentId : String := UNATTRIBUTED
  useCase : String := UNATTRIBUTED
  raw : List (String × Json) := []
  allocated : Bool := false
  allocationParentId : Option ℕ := none
  allocationRule : Option String := none

structure CostRow extends CostRecord where
  id : ℕ

namespace CostRecord

/-- True when this record was produced by splitting a shared cost. -/
def isAllocationChild (r : CostRecord) : Bool := r.allocationParentId.isSome

/-- The columns of `uq_cost_record_source_dedup_key`. -/
def uniqueKey (r : CostRecord) : CostSource × String := (r.source, r.dedupKey)

/-- The scale of `MONEY = Numeric(18, 8)`. -/
def moneyScale : ℤ := 8

def quantityScale : ℤ := 4

/-- The record as its `Numeric` columns hold it. -/
def stored (r : CostRecord) : CostRecord :=
  { r with
    amountUsd := toExp halfAway (-moneyScale) r.amountUsd
    quantity := r.quantity.map (toExp halfAway (-quantityScale)) }

/-- The columns hold the record.  `MONEY` has ten digits before the point, `QUANTITY`
sixteen. -/
def fits (r : CostRecord) : Bool :=
  textFits 255 r.dedupKey && r.unit.all (textFits 32) && r.model.all (textFits 255)
    && textFits 128 r.team && textFits 128 r.project && textFits 128 r.agentId
    && textFits 128 r.useCase && r.allocationRule.all (textFits 64)
    && numericFits 10 moneyScale r.amountUsd && r.quantity.all (numericFits 16 quantityScale)

structure Fits (r : CostRecord) : Prop where
  dedupKey : textFits 255 r.dedupKey = true
  unit : r.unit.all (textFits 32) = true
  model : r.model.all (textFits 255) = true
  team : textFits 128 r.team = true
  project : textFits 128 r.project = true
  agentId : textFits 128 r.agentId = true
  useCase : textFits 128 r.useCase = true
  allocationRule : r.allocationRule.all (textFits 64) = true
  amountUsd : numericFits 10 moneyScale r.amountUsd = true
  quantity : r.quantity.all (numericFits 16 quantityScale) = true

theorem fits_iff {r : CostRecord} : r.fits = true ↔ r.Fits := by
  simp only [fits, Bool.and_eq_true]
  constructor
  · rintro ⟨⟨⟨⟨⟨⟨⟨⟨⟨h1, h2⟩, h3⟩, h4⟩, h5⟩, h6⟩, h7⟩, h8⟩, h9⟩, h10⟩
    exact ⟨h1, h2, h3, h4, h5, h6, h7, h8, h9, h10⟩
  · rintro ⟨h1, h2, h3, h4, h5, h6, h7, h8, h9, h10⟩
    exact ⟨⟨⟨⟨⟨⟨⟨⟨⟨h1, h2⟩, h3⟩, h4⟩, h5⟩, h6⟩, h7⟩, h8⟩, h9⟩, h10⟩

/-- What is rounded on store is within the same bounds. -/
@[simp] theorem fits_stored (r : CostRecord) : r.stored.fits = r.fits := by
  simp only [fits, stored, numericFits_toExp, Option.all_map]

end CostRecord

/-! ### A transaction's view of the table -/

/-- The rows a transaction sees, its own pending writes included. -/
structure Session where
  rows : List CostRow
  nextId : ℕ
  ids : (rows.map CostRow.id).Nodup
  ids_lt : ∀ r ∈ rows, r.id < nextId

/-- A committed table: the constraints of its columns hold. -/
structure Warehouse extends Session where
  unique : (rows.map fun r => r.uniqueKey).Nodup
  fit : ∀ r ∈ rows, r.fits = true

def Warehouse.empty : Warehouse where
  rows := []
  nextId := 0
  ids := List.nodup_nil
  ids_lt := fun _ h => absurd h List.not_mem_nil
  unique := List.nodup_nil
  fit := fun _ h => absurd h List.not_mem_nil

namespace Session

def add (s : Session) (r : CostRecord) : Session where
  rows := s.rows ++ [⟨r.stored, s.nextId⟩]
  nextId := s.nextId + 1
  ids := by
    rw [List.map_append, List.nodup_append]
    refine ⟨s.ids, by simp, ?_⟩
    rintro a ha b hb rfl
    obtain ⟨q, hq, rfl⟩ := List.mem_map.mp ha
    exact (s.ids_lt q hq).ne (by simpa using hb)
  ids_lt := by
    intro q hq
    rcases List.mem_append.mp hq with h | h
    · exact Nat.lt_succ_of_lt (s.ids_lt q h)
    · rw [List.mem_singleton.mp h]; exact Nat.lt_succ_self _

def addAll (s : Session) (rs : List CostRecord) : Session := rs.foldl add s

/-- `parent.allocated = True` and `parent.allocation_rule = rule.name`. -/
def markAllocated (s : Session) (id : ℕ) (ruleName : String) : Session where
  rows := s.rows.map fun r =>
    if r.id = id then { r with allocated := true, allocationRule := some ruleName } else r
  nextId := s.nextId
  ids := by
    rw [List.map_map, List.map_congr_left (g := CostRow.id)]
    · exact s.ids
    · intro r _; simp only [Function.comp]; split <;> rfl
  ids_lt := by
    intro q hq
    obtain ⟨r, hr, rfl⟩ := List.mem_map.mp hq
    have := s.ids_lt r hr
    split <;> exact this

/-- Send the pending writes: the constraints are checked here. -/
def flush (s : Session) : Except PyError Warehouse :=
  if hu : (s.rows.map fun r => r.uniqueKey).Nodup then
    if hf : ∀ r ∈ s.rows, r.fits = true then .ok ⟨s, hu, hf⟩ else .error .dataError
  else .error .integrityError

theorem toSession_of_flush {s : Session} {w : Warehouse} (h : s.flush = .ok w) :
    w.toSession = s := by
  unfold flush at h
  split at h
  · split at h
    · cases h; rfl
    · cases h
  · cases h

theorem exists_flush_eq_ok {s : Session} : (∃ w, s.flush = .ok w) ↔
    (s.rows.map fun r => r.uniqueKey).Nodup ∧ ∀ r ∈ s.rows, r.fits = true := by
  constructor
  · rintro ⟨w, h⟩
    rw [← toSession_of_flush h]
    exact ⟨w.unique, w.fit⟩
  · rintro ⟨hu, hf⟩
    exact ⟨⟨s, hu, hf⟩, by rw [flush, dif_pos hu, dif_pos hf]⟩

/-- The end of a transaction over `w`: the session is committed, or the database
rejects it and all of it is rolled back. -/
def commit (w : Warehouse) (s : Session) : Warehouse :=
  match s.flush with
  | .ok w' => w'
  | .error _ => w

theorem commit_cases (w : Warehouse) (s : Session) :
    commit w s = w ∨ (commit w s).toSession = s := by
  unfold commit
  cases hf : s.flush with
  | error e => exact .inl rfl
  | ok w' => exact .inr (toSession_of_flush hf)

@[simp] theorem rows_add (s : Session) (r : CostRecord) :
    (s.add r).rows = s.rows ++ [⟨r.stored, s.nextId⟩] := rfl

@[simp] theorem addAll_nil (s : Session) : s.addAll [] = s := rfl

@[simp] theorem addAll_cons (s : Session) (r : CostRecord) (rs : List CostRecord) :
    s.addAll (r :: rs) = (s.add r).addAll rs := rfl

theorem addAll_append (s : Session) (rs more : List CostRecord) :
    s.addAll (rs ++ more) = (s.addAll rs).addAll more := List.foldl_append ..

def numbered (n : ℕ) : List CostRecord → List CostRow
  | [] => []
  | r :: rs => ⟨r.stored, n⟩ :: numbered (n + 1) rs

theorem rows_addAll (rs : List CostRecord) :
    ∀ s : Session, (s.addAll rs).rows = s.rows ++ numbered s.nextId rs := by
  induction rs with
  | nil => intro s; simp [numbered]
  | cons r rs ih =>
    intro s
    rw [addAll_cons, ih, rows_add, List.append_assoc]; rfl

theorem nextId_addAll (rs : List CostRecord) :
    ∀ s : Session, (s.addAll rs).nextId = s.nextId + rs.length := by
  induction rs with
  | nil => intro s; rfl
  | cons r rs ih =>
    intro s
    rw [addAll_cons, ih, List.length_cons, add_comm rs.length, ← add_assoc]
    rfl

theorem numbered_append (rs more : List CostRecord) :
    ∀ n : ℕ, numbered n (rs ++ more) = numbered n rs ++ numbered (n + rs.length) more := by
  induction rs with
  | nil => intro n; rfl
  | cons r rs ih =>
    intro n
    rw [List.cons_append, numbered, ih, List.length_cons, add_right_comm]
    rfl

theorem le_id_of_mem_numbered {rs : List CostRecord} :
    ∀ {n : ℕ} {q : CostRow}, q ∈ numbered n rs → n ≤ q.id := by
  induction rs with
  | nil => intro n q h; exact absurd h List.not_mem_nil
  | cons r rs ih =>
    intro n q h
    rcases List.mem_cons.mp h with rfl | hq
    · exact le_refl n
    · exact (Nat.le_succ n).trans (ih hq)

theorem map_numbered {β : Type*} (f : CostRecord → β) (rs : List CostRecord) :
    ∀ n : ℕ, (numbered n rs).map (fun r => f r.toCostRecord) = rs.map fun r => f r.stored := by
  induction rs with
  | nil => intro n; rfl
  | cons r rs ih => intro n; simp only [numbered, List.map_cons, ih]

theorem mem_numbered {rs : List CostRecord} :
    ∀ {n : ℕ} {q : CostRow}, q ∈ numbered n rs → ∃ r ∈ rs, q.toCostRecord = r.stored := by
  induction rs with
  | nil => intro n q h; exact absurd h List.not_mem_nil
  | cons r rs ih =>
    intro n q h
    rcases List.mem_cons.mp h with rfl | hq
    · exact ⟨r, List.mem_cons_self, rfl⟩
    · obtain ⟨r', hr', he⟩ := ih hq
      exact ⟨r', List.mem_cons_of_mem r hr', he⟩

end Session

end Finops
