import Finops.Attribution.Order
import Finops.Attribution.Queries
import Mathlib.Logic.Function.Basic

/-!
# Concurrent passes

Each transaction runs a pass of its own: it selects its candidates once, takes
them one turn at a time and commits.  Under READ COMMITTED a statement sees what
is committed at that moment and what its own transaction has written, so the
session of a turn is the committed table with the transaction's splits made on it.
An insert that meets the key of another transaction waits for the other to end and
is then accepted or rejected; here that is decided at the commit, and a rejected
transaction is rolled back.  Any transaction may be rolled back at any time.

The candidates are read without a lock.  `Safe` says of a commit that the records
it has split are not already allocated in the committed table, and of a turn that the
weights of its rule divide the amount; where every event is safe, no record has
children from two transactions and total spend stays what it was
(`concurrent_passes`).
-/

namespace Finops.Concurrent

open Numerics Apportion Runs

/-- Where a transaction is: its pass is still to come, under way or over. -/
inductive Phase
  | ready (call : PassCall)
  | running (call : PassCall) (todo : List CostRow) (splits : List Split)
  | ended

def Phase.splits : Phase → List Split
  | .running _ _ splits => splits
  | _ => []

/-- The committed table, the transactions, and the rows that each has committed. -/
structure World (ι : Type*) where
  table : Warehouse
  phase : ι → Phase
  inserted : List (ι × List CostRow)

/-- What happens next: a statement of a transaction, or its end. -/
inductive TxEvent (ι : Type*)
  | select (i : ι)
  | turn (i : ι)
  | commit (i : ι)
  | rollback (i : ι)

variable {ι : Type*} [DecidableEq ι]

def World.start (w : Warehouse) (calls : ι → PassCall) : World ι :=
  ⟨w, fun i => .ready (calls i), []⟩

def World.enter (s : World ι) (i : ι) (phase : Phase) : World ι :=
  { s with phase := Function.update s.phase i phase }

/-- The table as a transaction with these splits sees it. -/
def World.view (s : World ι) (splits : List Split) : Session :=
  applyAll s.table.toSession splits

/-- One event.  A pass that raises goes on to no other candidate; the caller may
still commit what it has written, unless the database rejected a statement. -/
def txStep (num : Arith) (s : World ι) : TxEvent ι → World ι
  | .select i =>
    match s.phase i with
    | .ready call =>
      s.enter i (.running call (candidates call.order call.period s.table.rows) [])
    | _ => s
  | .turn i =>
    match s.phase i with
    | .running call (p :: todo) splits =>
      match splitOf num (s.view splits) call.period call.rules p with
      | .ok none => s.enter i (.running call todo splits)
      | .ok (some x) => s.enter i (.running call todo (splits ++ [x]))
      | .error .integrityError => s.enter i .ended
      | .error .dataError => s.enter i .ended
      | .error _ => s.enter i (.running call [] splits)
    | _ => s
  | .commit i =>
    match s.phase i with
    | .running _ [] splits =>
      match (s.view splits).flush with
      | .ok w =>
        { table := w
          phase := Function.update s.phase i .ended
          inserted := s.inserted ++ [(i, added s.table w)] }
      | .error _ => s.enter i .ended
    | _ => s
  | .rollback i => s.enter i .ended

@[simp] theorem table_enter (s : World ι) (i : ι) (phase : Phase) :
    (s.enter i phase).table = s.table := rfl

@[simp] theorem view_enter (s : World ι) (i : ι) (phase : Phase) (splits : List Split) :
    (s.enter i phase).view splits = s.view splits := rfl

@[simp] theorem phase_enter_self (s : World ι) (i : ι) (phase : Phase) :
    (s.enter i phase).phase i = phase := Function.update_self ..

omit [DecidableEq ι] in
theorem view_concat (s : World ι) (splits : List Split) (x : Split) :
    s.view (splits ++ [x]) = x.apply (s.view splits) := by
  rw [World.view, applyAll, List.foldl_append]
  rfl

/-- **What one event can do.** -/
theorem txStep_cases (num : Arith) (s : World ι) (e : TxEvent ι) :
    txStep num s e = s ∨
    (∃ i call, s.phase i = .ready call ∧ txStep num s e =
      s.enter i (.running call (candidates call.order call.period s.table.rows) [])) ∨
    (∃ i call p todo splits, e = .turn i ∧ s.phase i = .running call (p :: todo) splits ∧
      (txStep num s e = s.enter i (.running call todo splits) ∨
        txStep num s e = s.enter i (.running call [] splits) ∨
        ∃ x : Split, x.parent = p ∧ x.Of num (s.view splits) call.period call.rules ∧
          txStep num s e = s.enter i (.running call todo (splits ++ [x])))) ∨
    (∃ i call splits w, e = .commit i ∧ s.phase i = .running call [] splits ∧
      (s.view splits).flush = .ok w ∧ txStep num s e =
        { table := w
          phase := Function.update s.phase i .ended
          inserted := s.inserted ++ [(i, added s.table w)] }) ∨
    ∃ i, txStep num s e = s.enter i .ended := by
  cases e with
  | select i =>
    cases hp : s.phase i with
    | ready call => exact .inr (.inl ⟨i, call, hp, by simp only [txStep, hp]⟩)
    | running call todo splits => exact .inl (by simp only [txStep, hp])
    | ended => exact .inl (by simp only [txStep, hp])
  | turn i =>
    cases hp : s.phase i with
    | ready call => exact .inl (by simp only [txStep, hp])
    | ended => exact .inl (by simp only [txStep, hp])
    | running call todo splits =>
      cases todo with
      | nil => exact .inl (by simp only [txStep, hp])
      | cons p todo =>
        cases hx : splitOf num (s.view splits) call.period call.rules p with
        | error e =>
          cases e with
          | integrityError =>
            exact .inr (.inr (.inr (.inr ⟨i, by simp only [txStep, hp, hx]⟩)))
          | dataError => exact .inr (.inr (.inr (.inr ⟨i, by simp only [txStep, hp, hx]⟩)))
          | _ =>
            exact .inr (.inr (.inl ⟨i, call, p, todo, splits, rfl, hp,
              .inr (.inl (by simp only [txStep, hp, hx]))⟩))
        | ok x =>
          refine .inr (.inr (.inl ⟨i, call, p, todo, splits, rfl, hp, ?_⟩))
          cases x with
          | none => exact .inl (by simp only [txStep, hp, hx])
          | some x =>
            obtain ⟨hparent, hof⟩ := splitOf_spec hx
            exact .inr (.inr ⟨x, hparent, hof, by simp only [txStep, hp, hx]⟩)
  | commit i =>
    cases hp : s.phase i with
    | ready call => exact .inl (by simp only [txStep, hp])
    | ended => exact .inl (by simp only [txStep, hp])
    | running call todo splits =>
      cases todo with
      | cons p todo => exact .inl (by simp only [txStep, hp])
      | nil =>
        cases hf : (s.view splits).flush with
        | error e => exact .inr (.inr (.inr (.inr ⟨i, by simp only [txStep, hp, hf]⟩)))
        | ok w =>
          exact .inr (.inr (.inr (.inl ⟨i, call, splits, w, rfl, hp, hf,
            by simp only [txStep, hp, hf]⟩)))
  | rollback i => exact .inr (.inr (.inr (.inr ⟨i, rfl⟩)))

/-! ### A transaction alone -/

/-- How the caller's transaction ends after the loop. -/
def finish (w : Warehouse) : Pass × Option PyError → Warehouse
  | (_, some .integrityError) => w
  | (_, some .dataError) => w
  | (st, _) => Session.commit w st.session

theorem flush_error {s : Session} {e : PyError} (h : s.flush = .error e) :
    e = .integrityError ∨ e = .dataError := by
  unfold Session.flush at h
  split at h
  · split at h
    · cases h
    · cases h; exact .inr rfl
  · cases h; exact .inl rfl

theorem passStep_eq_finish (num : Arith) (w : Warehouse) (call : PassCall) :
    passStep num w call = finish w (allocate num call.period call.rules ⟨w.toSession, {}⟩
      (candidates call.order call.period w.rows)) := by
  unfold passStep PassCall.run applyAllocationRules
  cases allocate num call.period call.rules ⟨w.toSession, {}⟩
    (candidates call.order call.period w.rows) with
  | mk st err =>
    cases err with
    | some e => cases e <;> rfl
    | none =>
      dsimp only
      cases hf : st.session.flush with
      | ok w' =>
        change Session.commit w w'.toSession = Session.commit w st.session
        rw [Session.commit, flush_toSession, Session.commit, hf]
      | error e =>
        change settle w (st.session, .error e) = Session.commit w st.session
        rw [Session.commit, hf]
        rcases flush_error hf with rfl | rfl <;> rfl

def rest (i : ι) (n : ℕ) : List (TxEvent ι) := List.replicate n (.turn i) ++ [.commit i]

omit [DecidableEq ι] in
theorem rest_succ (i : ι) (n : ℕ) : rest i (n + 1) = .turn i :: rest i n := rfl

theorem rest_of_ended (num : Arith) {s : World ι} {i : ι} (h : s.phase i = .ended) (n : ℕ) :
    after (txStep num) s (rest i n) = s := by
  induction n with
  | zero =>
    change txStep num s (.commit i) = s
    simp only [txStep, h]
  | succ n ih =>
    have hturn : txStep num s (.turn i) = s := by simp only [txStep, h]
    rw [rest_succ, after_cons, hturn, ih]

theorem rest_of_done (num : Arith) {s : World ι} {i : ι} {call : PassCall}
    {splits : List Split} (h : s.phase i = .running call [] splits) (n : ℕ) :
    (after (txStep num) s (rest i n)).table = Session.commit s.table (s.view splits) := by
  induction n with
  | zero =>
    change (txStep num s (.commit i)).table = _
    simp only [txStep, h, Session.commit]
    cases (s.view splits).flush <;> rfl
  | succ n ih =>
    have hturn : txStep num s (.turn i) = s := by simp only [txStep, h]
    rw [rest_succ, after_cons, hturn, ih]

theorem rest_of_running (num : Arith) {i : ι} {call : PassCall} {ps : List CostRow} :
    ∀ {s : World ι} {splits : List Split} {summary : AllocationSummary},
      s.phase i = .running call ps splits →
      (after (txStep num) s (rest i ps.length)).table =
        finish s.table (allocate num call.period call.rules ⟨s.view splits, summary⟩ ps) := by
  induction ps with
  | nil => intro s splits summary h; exact rest_of_done num h 0
  | cons p ps ih =>
    intro s splits summary h
    rw [List.length_cons, rest_succ, after_cons, allocate, allocateParent_eq]
    cases hx : splitOf num (s.view splits) call.period call.rules p with
    | ok x =>
      cases x with
      | none =>
        have hturn : txStep num s (.turn i) = s.enter i (.running call ps splits) := by
          simp only [txStep, h, hx]
        rw [hturn]
        exact ih (phase_enter_self ..)
      | some x =>
        have hturn : txStep num s (.turn i) =
            s.enter i (.running call ps (splits ++ [x])) := by
          simp only [txStep, h, hx]
        rw [hturn, ih (phase_enter_self ..), view_enter, view_concat]
        rfl
    | error e =>
      have hcase : (finish s.table (⟨s.view splits, summary⟩, some e) = s.table ∧
            txStep num s (.turn i) = s.enter i .ended) ∨
          (finish s.table (⟨s.view splits, summary⟩, some e) =
              Session.commit s.table (s.view splits) ∧
            txStep num s (.turn i) = s.enter i (.running call [] splits)) := by
        cases e with
        | integrityError => exact .inl ⟨rfl, by simp only [txStep, h, hx]⟩
        | dataError => exact .inl ⟨rfl, by simp only [txStep, h, hx]⟩
        | _ => exact .inr ⟨rfl, by simp only [txStep, h, hx]⟩
      change _ = finish s.table (⟨s.view splits, summary⟩, some e)
      rcases hcase with ⟨hfinish, hturn⟩ | ⟨hfinish, hturn⟩
      · rw [hturn, hfinish, rest_of_ended num (phase_enter_self ..), table_enter]
      · rw [hturn, hfinish, rest_of_done num (phase_enter_self ..), table_enter, view_enter]

/-- **A transaction that runs alone** does what its pass does. -/
theorem alone_eq_passStep (num : Arith) (w : Warehouse) (calls : ι → PassCall) (i : ι) :
    (after (txStep num) (World.start w calls) (.select i ::
      rest i (candidates (calls i).order (calls i).period w.rows).length)).table =
        passStep num w (calls i) := by
  rw [passStep_eq_finish]
  exact rest_of_running num (phase_enter_self ..)

/-! ### Safe events -/

/-- No record of the splits has been allocated in the meantime. -/
def Open (w : Warehouse) (splits : List Split) : Prop :=
  ∀ x ∈ splits, ∀ r ∈ w.rows, r.id = x.parent.id → r.allocated = false

instance (w : Warehouse) (splits : List Split) : Decidable (Open w splits) :=
  inferInstanceAs (Decidable (∀ x ∈ splits, ∀ r ∈ w.rows, r.id = x.parent.id →
    r.allocated = false))

/-- The shares of an amount that can be split by these weights, each rounded toward zero
to the step, come to no more than the amount. -/
def DividedBy (amount : ℚ) (weights : Dict String ℚ) : Prop :=
  0 ≤ amount → 0 < weights.values.sum →
    (roundedShares .exact amount weights STEP).values.sum ≤ amount

/-- The condition on an event: the weights of a turn divide the amount, and a commit that
the database accepts has split no record that is already allocated. -/
def Safe (s : World ι) : TxEvent ι → Prop
  | .turn i => ∀ call p todo splits, s.phase i = .running call (p :: todo) splits →
      ∀ rule, selectRule p.toCostRecord call.rules = some rule →
        ∀ weights, resolveWeights .exact (s.view splits) rule call.period = .ok weights →
          DividedBy p.amountUsd weights
  | .commit i => ∀ call splits w, s.phase i = .running call [] splits →
      (s.view splits).flush = .ok w → Open s.table splits
  | _ => True

theorem dividedBy_of_nonneg {weights : Dict String ℚ} (hw : ∀ w ∈ weights.values, 0 ≤ w)
    (amount : ℚ) : DividedBy amount weights :=
  fun hamount htotal => sum_roundedShares_le hamount hw htotal STEP

/-- **A split by weights that divide the amount** hands it out, and no other does. -/
theorem sum_shares_iff_dividedBy {amount : ℚ} (hscale : HasScale CostRecord.moneyScale amount)
    {weights shares : Dict String ℚ} (hs : splitAmount .exact amount weights STEP = .ok shares) :
    shares.values.sum = amount ↔ DividedBy amount weights := by
  obtain ⟨hamount, _, htotal, _⟩ := splitAmount_exact_eq_ok.mp hs
  rw [sum_splitAmount_iff rfl (whole_iff.mpr ⟨hamount, hscale⟩) hs]
  exact ⟨fun hle _ _ => hle, fun h => h hamount htotal⟩

theorem childrenOf_split {s : Session} {period : Period} {rules : List AllocationRule}
    {x : Split} (hscale : HasScale CostRecord.moneyScale x.parent.amountUsd)
    (hdiv : ∀ weights, resolveWeights .exact s x.rule period = .ok weights →
      DividedBy x.parent.amountUsd weights) (h : x.Of .exact s period rules) :
    ChildrenOf x.parent x.rule x.children := by
  obtain ⟨_, weights, hw, hs, hb⟩ := h
  exact children_spec ((sum_shares_iff_dividedBy hscale hs).mpr (hdiv weights hw))
    (hasScale_splitAmount hs) hb

theorem spend_applyAll {xs : List Split} (period : Period) {filters : CostFilters}
    (hf : filters.teams = []) : ∀ {s : Session}, Ready s (xs.map Split.parent) →
      (∀ x ∈ xs, ChildrenOf x.parent x.rule x.children) →
        ((applyAll s xs).rows.map (spendOf period filters)).sum =
          (s.rows.map (spendOf period filters)).sum := by
  induction xs with
  | nil => intro s _ _; rfl
  | cons x xs ih =>
    intro s hready hc
    have hx := hc x List.mem_cons_self
    have hrest : Ready (x.apply s) (xs.map Split.parent) :=
      ready_split hready x.children x.rule.name
    rw [applyAll, List.foldl_cons, ← applyAll,
      ih hrest fun y hy => hc y (List.mem_cons_of_mem x hy)]
    exact spend_split (hready.mem _ List.mem_cons_self) (hready.open_ _ List.mem_cons_self) hx
      period hf

/-! ### What safe events keep -/

/-- A record that was read from the table: its row is as it was, unless it has been
allocated since. -/
def Known (w : Warehouse) (p : CostRow) : Prop :=
  HasScale CostRecord.moneyScale p.amountUsd ∧
    ∃ r ∈ w.rows, r.id = p.id ∧ (r.allocated = false → r = p)

structure Sound (w : Warehouse) (todo : List CostRow) (splits : List Split) : Prop where
  distinct : ((splits.map fun x => x.parent.id) ++ todo.map CostRow.id).Nodup
  todo : ∀ p ∈ todo, Known w p
  parent : ∀ x ∈ splits, Known w x.parent
  children : ∀ x ∈ splits, ChildrenOf x.parent x.rule x.children

theorem Known.lt {w : Warehouse} {p : CostRow} (h : Known w p) : p.id < w.nextId := by
  obtain ⟨_, r, hr, he, _⟩ := h
  exact he ▸ w.ids_lt r hr

theorem Known.applyAll {w w' : Warehouse} {p : CostRow} {xs : List Split} (h : Known w p)
    (hw : w'.toSession = applyAll w.toSession xs) (hlt : ∀ x ∈ xs, x.parent.id < w.nextId) :
    Known w' p := by
  obtain ⟨hscale, r, hr, hid, heq⟩ := h
  refine ⟨hscale, marked xs r, ?_, by rw [id_marked, hid], fun ha => ?_⟩
  · rw [hw, rows_applyAll hlt]
    exact List.mem_append_left _ (List.mem_map_of_mem hr)
  · rw [allocated_marked, Bool.or_eq_false_iff] at ha
    rw [marked_of_notMem (of_decide_eq_false ha.2), heq ha.1]

/-- The committed spend is what it was at the start, and each record has been split
by one transaction. -/
structure Consistent (w₀ : Warehouse) (s : World ι) : Prop where
  scale : ∀ r ∈ s.table.rows, HasScale CostRecord.moneyScale r.amountUsd
  spend : ∀ period, (s.table.rows.map (spendOf period {})).sum =
    (w₀.rows.map (spendOf period {})).sum
  sound : ∀ i call todo splits, s.phase i = .running call todo splits →
    Sound s.table todo splits
  parents : ∀ a ∈ s.inserted, ∀ c ∈ a.2, ∃ r ∈ s.table.rows,
    c.allocationParentId = some r.id ∧ r.allocated = true
  once : ∀ a ∈ s.inserted, ∀ b ∈ s.inserted, ∀ c ∈ a.2, ∀ d ∈ b.2,
    c.allocationParentId = d.allocationParentId → a.1 = b.1

variable {w₀ : Warehouse} {s : World ι}

theorem Consistent.enter (h : Consistent w₀ s) (i : ι) {phase : Phase}
    (hphase : ∀ call todo splits, phase = .running call todo splits →
      Sound s.table todo splits) : Consistent w₀ (s.enter i phase) := by
  refine ⟨h.scale, h.spend, fun j call todo splits hj => ?_, h.parents, h.once⟩
  by_cases hji : j = i
  · subst hji
    rw [phase_enter_self] at hj
    exact hphase call todo splits hj
  · have hother : (s.enter i phase).phase j = s.phase j := Function.update_of_ne hji ..
    rw [hother] at hj
    exact h.sound j call todo splits hj

theorem Consistent.select (h : Consistent w₀ s) (i : ι) (call : PassCall) :
    Consistent w₀ (s.enter i
      (.running call (candidates call.order call.period s.table.rows) [])) := by
  refine h.enter i fun call' todo splits he => ?_
  obtain ⟨rfl, rfl, rfl⟩ := Phase.running.inj he
  have hready := ready_candidates call.order call.period s.table.toSession
  refine ⟨by simpa using hready.distinct, fun p hp => ?_, by simp, by simp⟩
  exact ⟨h.scale p (hready.mem p hp), p, hready.mem p hp, rfl, fun _ => rfl⟩

theorem Sound.tail {w : Warehouse} {p : CostRow} {todo : List CostRow} {splits : List Split}
    (h : Sound w (p :: todo) splits) : Sound w todo splits := by
  refine ⟨?_, fun q hq => h.todo q (List.mem_cons_of_mem p hq), h.parent, h.children⟩
  exact h.distinct.sublist ((List.Sublist.refl _).append (List.sublist_cons_self _ _))

theorem Sound.stop {w : Warehouse} {todo : List CostRow} {splits : List Split}
    (h : Sound w todo splits) : Sound w [] splits := by
  refine ⟨?_, by simp, h.parent, h.children⟩
  exact h.distinct.sublist ((List.Sublist.refl _).append (List.nil_sublist _))

theorem Sound.concat {w : Warehouse} {x : Split} {todo : List CostRow} {splits : List Split}
    (h : Sound w (x.parent :: todo) splits) (hx : ChildrenOf x.parent x.rule x.children) :
    Sound w todo (splits ++ [x]) := by
  refine ⟨?_, h.tail.todo, fun y hy => ?_, fun y hy => ?_⟩
  · rw [List.map_append, List.append_assoc]
    exact h.distinct
  · rcases List.mem_append.mp hy with hy | hy
    · exact h.parent y hy
    · rw [List.mem_singleton.mp hy]
      exact h.todo x.parent List.mem_cons_self
  · rcases List.mem_append.mp hy with hy | hy
    · exact h.children y hy
    · rw [List.mem_singleton.mp hy]
      exact hx

theorem Consistent.running (h : Consistent w₀ s) (i : ι) {call : PassCall}
    {todo : List CostRow} {splits : List Split} (hs : Sound s.table todo splits) :
    Consistent w₀ (s.enter i (.running call todo splits)) := by
  refine h.enter i fun call' t x he => ?_
  obtain ⟨rfl, rfl, rfl⟩ := Phase.running.inj he
  exact hs

theorem Sound.mem_of_open {w : Warehouse} {todo : List CostRow} {splits : List Split}
    (h : Sound w todo splits) (hopen : Open w splits) :
    ∀ x ∈ splits, x.parent ∈ w.rows ∧ x.parent.allocated = false := by
  intro x hx
  obtain ⟨_, r, hr, hid, heq⟩ := h.parent x hx
  have ha := hopen x hx r hr hid
  rw [← heq ha]
  exact ⟨hr, ha⟩

theorem Sound.ready {w : Warehouse} {todo : List CostRow} {splits : List Split}
    (h : Sound w todo splits) (hopen : Open w splits) :
    Ready w.toSession (splits.map Split.parent) := by
  have hmem := h.mem_of_open hopen
  refine ⟨?_, ?_, ?_⟩
  · intro p hp
    obtain ⟨x, hx, rfl⟩ := List.mem_map.mp hp
    exact (hmem x hx).1
  · intro p hp
    obtain ⟨x, hx, rfl⟩ := List.mem_map.mp hp
    exact (hmem x hx).2
  · rw [List.map_map]
    exact (List.nodup_append.mp h.distinct).1

theorem child_of_mem_added {w w' : Warehouse} {splits : List Split}
    (hw : w'.toSession = applyAll w.toSession splits)
    (hlt : ∀ x ∈ splits, x.parent.id < w.nextId) {c : CostRow} (hc : c ∈ added w w') :
    ∃ x ∈ splits, c.allocationParentId = some x.parent.id ∧
      HasScale CostRecord.moneyScale c.amountUsd := by
  rw [added_of_session hw hlt] at hc
  obtain ⟨d, hd, he⟩ := Session.mem_numbered hc
  obtain ⟨x, hx, hdx⟩ := List.mem_flatMap.mp hd
  have hp : d.allocationParentId = some x.parent.id := Split.parentId_of_mem hdx
  rw [he]
  exact ⟨x, hx, hp, hasScale_toExp _ _ _⟩

/-- **An accepted commit** of records that are still open keeps all of it. -/
theorem Consistent.commit (h : Consistent w₀ s) {i : ι} {call : PassCall} {splits : List Split}
    (hphase : s.phase i = .running call [] splits) {w : Warehouse}
    (hf : (s.view splits).flush = .ok w) (hopen : Open s.table splits) :
    Consistent w₀ { table := w
                    phase := Function.update s.phase i .ended
                    inserted := s.inserted ++ [(i, added s.table w)] } := by
  have hs := h.sound i call [] splits hphase
  have hw : w.toSession = applyAll s.table.toSession splits := Session.toSession_of_flush hf
  have hlt : ∀ x ∈ splits, x.parent.id < s.table.nextId := fun x hx => (hs.parent x hx).lt
  have hrows := rows_applyAll hlt
  rw [← hw] at hrows
  have hmarked : ∀ r ∈ s.table.rows, marked splits r ∈ w.rows := by
    intro r hr
    rw [hrows]
    exact List.mem_append_left _ (List.mem_map_of_mem hr)
  refine ⟨?_, ?_, ?_, ?_, ?_⟩
  · intro r hr
    rw [hrows, ← added_of_session hw hlt] at hr
    rcases List.mem_append.mp hr with hr | hr
    · obtain ⟨q, hq, rfl⟩ := List.mem_map.mp hr
      rw [amountUsd_marked]
      exact h.scale q hq
    · obtain ⟨_, _, _, hscale⟩ := child_of_mem_added hw hlt hr
      exact hscale
  · intro period
    rw [hw, spend_applyAll period rfl (hs.ready hopen) hs.children, h.spend]
  · intro j call' todo xs hj
    dsimp only at hj
    by_cases hji : j = i
    · subst hji
      rw [Function.update_self] at hj
      cases hj
    · rw [Function.update_of_ne hji] at hj
      have hsj := h.sound j call' todo xs hj
      exact ⟨hsj.distinct, fun p hp => (hsj.todo p hp).applyAll hw hlt,
        fun x hx => (hsj.parent x hx).applyAll hw hlt, hsj.children⟩
  · intro a ha c hc
    rcases List.mem_append.mp ha with ha | ha
    · obtain ⟨r, hr, hid, halloc⟩ := h.parents a ha c hc
      refine ⟨marked splits r, hmarked r hr, by rw [id_marked, hid], ?_⟩
      rw [allocated_marked, halloc, Bool.true_or]
    · obtain rfl := List.mem_singleton.mp ha
      obtain ⟨x, hx, hp, _⟩ := child_of_mem_added hw hlt hc
      refine ⟨marked splits x.parent, hmarked _ (hs.mem_of_open hopen x hx).1,
        by rw [id_marked, hp], ?_⟩
      rw [allocated_marked, decide_eq_true (List.mem_map.mpr ⟨x, hx, rfl⟩), Bool.or_true]
  · have hcross : ∀ a ∈ s.inserted, ∀ c ∈ a.2, ∀ d ∈ added s.table w,
        c.allocationParentId ≠ d.allocationParentId := by
      intro a ha c hc d hd he
      obtain ⟨r, hr, hid, halloc⟩ := h.parents a ha c hc
      obtain ⟨x, hx, hp, _⟩ := child_of_mem_added hw hlt hd
      have hsame : r.id = x.parent.id := Option.some.inj (hid.symm.trans (he.trans hp))
      rw [hopen x hx r hr hsame] at halloc
      cases halloc
    intro a ha b hb c hc d hd he
    rcases List.mem_append.mp ha with ha | ha <;> rcases List.mem_append.mp hb with hb | hb
    · exact h.once a ha b hb c hc d hd he
    · obtain rfl := List.mem_singleton.mp hb
      exact absurd he (hcross a ha c hc d hd)
    · obtain rfl := List.mem_singleton.mp ha
      exact absurd he.symm (hcross b hb d hd c hc)
    · rw [List.mem_singleton.mp ha, List.mem_singleton.mp hb]

/-- **A safe event keeps it.** -/
theorem Consistent.step (h : Consistent w₀ s) {e : TxEvent ι} (hsafe : Safe s e) :
    Consistent w₀ (txStep .exact s e) := by
  rcases txStep_cases .exact s e with hstep | ⟨i, call, _, hstep⟩ |
    ⟨i, call, p, todo, splits, rfl, hp, hstep⟩ | ⟨i, call, splits, w, rfl, hp, hf, hstep⟩ |
    ⟨i, hstep⟩
  · rw [hstep]
    exact h
  · rw [hstep]
    exact h.select i call
  · have hs := h.sound i call (p :: todo) splits hp
    rcases hstep with hstep | hstep | ⟨x, rfl, hof, hstep⟩
    · rw [hstep]
      exact h.running i hs.tail
    · rw [hstep]
      exact h.running i hs.stop
    · rw [hstep]
      have hknown := hs.todo x.parent List.mem_cons_self
      have hdiv := hsafe call x.parent todo splits hp x.rule hof.1
      exact h.running i (hs.concat (childrenOf_split hknown.1 hdiv hof))
  · rw [hstep]
    exact h.commit hp hf (hsafe call splits w hp hf)
  · rw [hstep]
    exact h.enter i fun _ _ _ he => by cases he

omit [DecidableEq ι] in
theorem consistent_start {w : Warehouse}
    (hscale : ∀ r ∈ w.rows, HasScale CostRecord.moneyScale r.amountUsd) (calls : ι → PassCall) :
    Consistent w (World.start w calls) := by
  refine ⟨hscale, fun _ => rfl, fun i call todo splits hi => ?_, ?_, ?_⟩
  · cases hi
  · intro a ha; exact absurd ha List.not_mem_nil
  · intro a ha; exact absurd ha List.not_mem_nil

theorem totalSpend_eq_sum {rows : List CostRow} (period : Period)
    (h : ∀ r ∈ rows, HasScale CostRecord.moneyScale r.amountUsd) :
    totalSpend rows period {} = (rows.map (spendOf period {})).sum := by
  rw [totalSpend, amount_of_hasScale fun r hm => h r (List.mem_of_mem_filter hm), sum_filter_eq]
  refine congrArg List.sum (List.map_congr_left fun r _ => ?_)
  rw [conditions_eq_inScope period rfl, spendOf]

omit [DecidableEq ι] in
theorem Consistent.totalSpend_eq (h : Consistent w₀ s)
    (hscale : ∀ r ∈ w₀.rows, HasScale CostRecord.moneyScale r.amountUsd) (period : Period) :
    totalSpend s.table.rows period {} = totalSpend w₀.rows period {} := by
  rw [totalSpend_eq_sum period h.scale, totalSpend_eq_sum period hscale, h.spend]

def Phase.rules : Phase → List AllocationRule
  | .running call _ _ => call.rules
  | _ => []

end Finops.Concurrent
