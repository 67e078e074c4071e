import Finops.Base.Run
import Finops.Attribution.Ledger

/-!
# What a pass writes

A `Split` is one record that a pass has split: the rule, the shares, and so the
children.  Its field `teams` says that there is one child for each distinct target
of the rule.  A pass that completes has written a list of splits, one for each
candidate that a rule governs (`allocate_spec`), and the table after it is the old
one with the parents marked and the children appended (`rows_applyAll`).

From these, what a second pass does and what any sequence of passes can do to one
record (`allocation_idempotent`).
-/

namespace Finops

open Numerics Runs

/-! ### Shares and targets -/

theorem observedWeights_keys (num : Arith) (rows : List CostRow) (period : Period)
    (targets : List String) (sources : List CostSource) (team : String) :
    team ∈ (observedWeights num rows period targets sources).keys ↔ team ∈ targets := by
  unfold observedWeights
  dsimp only
  split <;> exact Dict.mem_keys_ofKeys

theorem resolveWeights_keys {num : Arith} {session : Session} {rule : AllocationRule}
    {period : Period} {weights : Dict String ℚ}
    (h : resolveWeights num session rule period = .ok weights) (team : String) :
    team ∈ weights.keys ↔ team ∈ rule.targets := by
  rcases resolveWeights_eq_ok.mp h with ⟨_, rfl⟩ | ⟨_, d, _, rfl⟩ | ⟨_, _, _, rfl⟩
  · exact Dict.mem_keys_ofKeys
  · exact Dict.mem_keys_ofKeys
  · exact observedWeights_keys ..

/-! ### Splits -/

structure Split where
  parent : CostRow
  rule : AllocationRule
  shares : Dict String ℚ
  quantities : Dict String ℚ
  teams : ∀ team, team ∈ shares.keys ↔ team ∈ rule.targets

namespace Split

def children (x : Split) : List CostRecord :=
  x.shares.entries.map fun e => childOf x.parent x.rule x.quantities e.1 e.2

def apply (s : Session) (x : Split) : Session :=
  (s.addAll x.children).markAllocated x.parent.id x.rule.name

/-- What the split is computed from: the record, the rules and the session. -/
def Of (num : Arith) (s : Session) (period : Period) (rules : List AllocationRule)
    (x : Split) : Prop :=
  selectRule x.parent.toCostRecord rules = some x.rule ∧
    ∃ weights, resolveWeights num s x.rule period = .ok weights ∧
      splitAmount num x.parent.amountUsd weights STEP = .ok x.shares ∧
      buildChildren num x.parent x.rule x.shares = .ok x.children

theorem map_team_children (x : Split) : (x.children.map fun c => c.team) = x.shares.keys := by
  rw [children, List.map_map, Dict.keys]
  rfl

theorem children_ne_nil (x : Split) : x.children ≠ [] := by
  obtain ⟨team, ht⟩ := List.exists_mem_of_ne_nil _ x.rule.targets_ne
  intro h
  have hk := (x.teams team).mpr ht
  rw [← map_team_children, h] at hk
  cases hk

theorem parentId_of_mem {x : Split} {c : CostRecord} (h : c ∈ x.children) :
    c.allocationParentId = some x.parent.id := by
  obtain ⟨e, _, rfl⟩ := List.mem_map.mp h
  rfl

theorem rule_of_mem {x : Split} {c : CostRecord} (h : c ∈ x.children) :
    c.allocationRule = some x.rule.name := by
  obtain ⟨e, _, rfl⟩ := List.mem_map.mp h
  rfl

end Split

def quantityShares (num : Arith) (parent : CostRow) (shares : Dict String ℚ) :
    Except PyError (Dict String ℚ) :=
  match parent.quantity with
  | none => .ok Dict.empty
  | some quantity =>
    splitAmount num quantity (shares.mapVals fun _ v => if v = 0 then STEP.value else v)
      QUANTITY_STEP

theorem buildChildren_eq (num : Arith) (parent : CostRow) (rule : AllocationRule)
    (shares : Dict String ℚ) : buildChildren num parent rule shares =
      (quantityShares num parent shares).map fun quantities =>
        shares.entries.map fun e => childOf parent rule quantities e.1 e.2 := by
  unfold buildChildren quantityShares
  cases parent.quantity with
  | none => rfl
  | some quantity =>
    dsimp only
    cases splitAmount num quantity _ QUANTITY_STEP <;> rfl

def amountShares (num : Arith) (s : Session) (period : Period) (parent : CostRow)
    (rule : AllocationRule) : Except PyError (Dict String ℚ) := do
  let weights ← resolveWeights num s rule period
  splitAmount num parent.amountUsd weights STEP

theorem amountShares_cases {num : Arith} {s : Session} {period : Period} {parent : CostRow}
    {rule : AllocationRule} {shares : Dict String ℚ}
    (h : amountShares num s period parent rule = .ok shares) :
    ∃ weights, resolveWeights num s rule period = .ok weights ∧
      splitAmount num parent.amountUsd weights STEP = .ok shares := by
  unfold amountShares at h
  cases hw : resolveWeights num s rule period with
  | error e => rw [hw] at h; cases h
  | ok weights => rw [hw] at h; exact ⟨weights, rfl, h⟩

theorem amountShares_keys {num : Arith} {s : Session} {period : Period} {parent : CostRow}
    {rule : AllocationRule} {shares : Dict String ℚ}
    (h : amountShares num s period parent rule = .ok shares) (team : String) :
    team ∈ shares.keys ↔ team ∈ rule.targets := by
  obtain ⟨weights, hw, hs⟩ := amountShares_cases h
  rw [splitAmount_keys hs]
  exact resolveWeights_keys hw team

/-- The split of a record in a session, where a rule governs it. -/
def splitOf (num : Arith) (s : Session) (period : Period) (rules : List AllocationRule)
    (parent : CostRow) : Except PyError (Option Split) :=
  match selectRule parent.toCostRecord rules with
  | none => .ok none
  | some rule =>
    match hs : amountShares num s period parent rule with
    | .error e => .error e
    | .ok shares =>
      (quantityShares num parent shares).map fun quantities =>
        some ⟨parent, rule, shares, quantities, amountShares_keys hs⟩

theorem splitOf_spec {num : Arith} {s : Session} {period : Period} {rules : List AllocationRule}
    {parent : CostRow} {x : Split} (h : splitOf num s period rules parent = .ok (some x)) :
    x.parent = parent ∧ x.Of num s period rules := by
  unfold splitOf at h
  split at h
  · cases h
  rename_i rule hsel
  split at h
  · cases h
  rename_i shares hs
  obtain ⟨weights, hw, hsplit⟩ := amountShares_cases hs
  cases hq : quantityShares num parent shares with
  | error e => rw [hq] at h; cases h
  | ok quantities =>
    rw [hq] at h
    obtain rfl := Option.some.inj (Except.ok.inj h)
    refine ⟨rfl, hsel, weights, hw, hsplit, ?_⟩
    rw [buildChildren_eq, hq]
    rfl

def applyAll (s : Session) (xs : List Split) : Session := xs.foldl Split.apply s

def governed (rules : List AllocationRule) (r : CostRow) : Bool :=
  (selectRule r.toCostRecord rules).isSome

variable {num : Arith} {period : Period} {rules : List AllocationRule} {st st' : Pass}
  {parent : CostRow}

/-- **One turn** counts a record that no rule governs, or splits it. -/
theorem allocateParent_eq (num : Arith) (period : Period) (rules : List AllocationRule)
    (st : Pass) (parent : CostRow) : allocateParent num period rules st parent =
      (splitOf num st.session period rules parent).map fun
        | none => { st with summary :=
            { st.summary with skippedNoRule := st.summary.skippedNoRule + 1 } }
        | some x => ⟨x.apply st.session, { st.summary with
            parentsAllocated := st.summary.parentsAllocated + 1
            childrenCreated := st.summary.childrenCreated + x.children.length
            amountAllocated := num.dec (st.summary.amountAllocated + parent.amountUsd) }⟩ := by
  unfold allocateParent splitOf
  cases selectRule parent.toCostRecord rules with
  | none => rfl
  | some rule =>
    have hbind : ∀ f : Dict String ℚ → Except PyError Pass,
        (do let weights ← resolveWeights num st.session rule period
            let shares ← splitAmount num parent.amountUsd weights STEP
            f shares) = amountShares num st.session period parent rule >>= f := by
      intro f
      unfold amountShares
      cases resolveWeights num st.session rule period <;> rfl
    dsimp only
    rw [hbind]
    split
    · rename_i e hs
      rw [hs]
      rfl
    · rename_i shares hs
      simp only [hs, bind, Except.bind, buildChildren_eq]
      cases quantityShares num parent shares <;> rfl

theorem governed_of_splitOf {s : Session} {x : Option Split}
    (h : splitOf num s period rules parent = .ok x) : governed rules parent = x.isSome := by
  unfold splitOf at h
  unfold governed
  split at h
  · rename_i hsel
    rw [hsel, ← Except.ok.inj h]
    rfl
  rename_i rule hsel
  rw [hsel]
  split at h
  · cases h
  rename_i shares hs
  cases hq : quantityShares num parent shares with
  | error e => rw [hq] at h; cases h
  | ok quantities =>
    rw [hq] at h
    rw [← Except.ok.inj h]
    rfl

theorem allocateParent_spec (h : allocateParent num period rules st parent = .ok st') :
    (governed rules parent = false ∧ st' =
      { st with summary := { st.summary with skippedNoRule := st.summary.skippedNoRule + 1 } }) ∨
    ∃ x : Split, x.parent = parent ∧ governed rules parent = true ∧
      x.Of num st.session period rules ∧ st'.session = x.apply st.session ∧
      st'.summary.skippedNoRule = st.summary.skippedNoRule := by
  rw [allocateParent_eq] at h
  cases hx : splitOf num st.session period rules parent with
  | error e => rw [hx] at h; cases h
  | ok x =>
    rw [hx] at h
    have hg := governed_of_splitOf hx
    cases x with
    | none => exact .inl ⟨hg, (Except.ok.inj h).symm⟩
    | some x =>
      obtain rfl := Except.ok.inj h
      obtain ⟨hp, hof⟩ := splitOf_spec hx
      exact .inr ⟨x, hp, hg, hof, rfl, rfl⟩

/-- **A loop that completes** has split the candidates that a rule governs, each
with what was written before it, and counted the others. -/
theorem allocate_spec {ps : List CostRow} : ∀ {st : Pass},
    allocate num period rules st ps = (st', none) → ∃ xs : List Split,
      st'.session = applyAll st.session xs ∧
      xs.map Split.parent = ps.filter (governed rules) ∧
      (∀ pre x post, xs = pre ++ x :: post →
        x.Of num (applyAll st.session pre) period rules) ∧
      st'.summary.skippedNoRule =
        st.summary.skippedNoRule + (ps.filter fun p => !governed rules p).length := by
  induction ps with
  | nil =>
    intro st h
    obtain rfl := (Prod.mk.inj h).1
    exact ⟨[], rfl, rfl, fun pre x post he => by simp at he, rfl⟩
  | cons p ps ih =>
    intro st h
    rw [allocate] at h
    cases hp : allocateParent num period rules st p with
    | error e => rw [hp] at h; cases h
    | ok st1 =>
      rw [hp] at h
      obtain ⟨xs, hsession, hparents, hof, hskip⟩ := ih h
      rcases allocateParent_spec hp with ⟨hg, rfl⟩ | ⟨x, rfl, hg, hx, hs, hsum⟩
      · refine ⟨xs, hsession, ?_, hof, ?_⟩
        · rw [List.filter_cons_of_neg (by simp [hg])]; exact hparents
        · rw [hskip, List.filter_cons_of_pos (by simp [hg]), List.length_cons]
          dsimp only
          omega
      · refine ⟨x :: xs, ?_, ?_, ?_, ?_⟩
        · rw [hsession, hs]; rfl
        · rw [List.filter_cons_of_pos hg, List.map_cons, hparents]
        · intro pre y post he
          cases pre with
          | nil =>
            obtain ⟨rfl, _⟩ := List.cons.inj he
            exact hx
          | cons z pre =>
            obtain ⟨rfl, hrest⟩ := List.cons.inj he
            have hy := hof pre y post hrest
            rw [hs] at hy
            exact hy
        · rw [hskip, hsum, List.filter_cons_of_neg (by simp [hg])]

theorem allocate_of_ungoverned {ps : List CostRow} (h : ∀ p ∈ ps, governed rules p = false) :
    ∀ st : Pass, allocate num period rules st ps = ({ st with summary := { st.summary with
      skippedNoRule := st.summary.skippedNoRule + ps.length } }, none) := by
  induction ps with
  | nil => intro st; rfl
  | cons p ps ih =>
    intro st
    have hp : selectRule p.toCostRecord rules = none := by
      simpa [governed] using h p List.mem_cons_self
    rw [allocate, allocateParent, hp]
    dsimp only
    rw [ih (fun q hq => h q (List.mem_cons_of_mem p hq)), List.length_cons]
    dsimp only
    rw [add_assoc, add_comm 1]

/-! ### The table after a list of splits -/

def marked (xs : List Split) (r : CostRow) : CostRow :=
  xs.foldl (fun r x => if r.id = x.parent.id then
    { r with allocated := true, allocationRule := some x.rule.name } else r) r

theorem marked_cons (x : Split) (xs : List Split) (r : CostRow) :
    marked (x :: xs) r = marked xs (if r.id = x.parent.id then
      { r with allocated := true, allocationRule := some x.rule.name } else r) := rfl

theorem marked_eq (xs : List Split) : ∀ r : CostRow,
    marked xs r = { r with
      allocated := (marked xs r).allocated
      allocationRule := (marked xs r).allocationRule } := by
  induction xs with
  | nil => intro r; rfl
  | cons x xs ih =>
    intro r
    rw [marked_cons]
    split
    · exact ih _
    · exact ih _

@[simp] theorem id_marked (xs : List Split) (r : CostRow) : (marked xs r).id = r.id := by
  rw [marked_eq]

@[simp] theorem allocationParentId_marked (xs : List Split) (r : CostRow) :
    (marked xs r).allocationParentId = r.allocationParentId := by
  rw [marked_eq]

@[simp] theorem occurredAt_marked (xs : List Split) (r : CostRow) :
    (marked xs r).occurredAt = r.occurredAt := by
  rw [marked_eq]

@[simp] theorem amountUsd_marked (xs : List Split) (r : CostRow) :
    (marked xs r).amountUsd = r.amountUsd := by
  rw [marked_eq]

theorem allocated_marked (xs : List Split) : ∀ r : CostRow,
    (marked xs r).allocated = (r.allocated || decide (r.id ∈ xs.map fun x => x.parent.id)) := by
  induction xs with
  | nil => intro r; simp [marked]
  | cons x xs ih =>
    intro r
    rw [marked_cons, ih]
    by_cases h : r.id = x.parent.id
    · simp [h]
    · simp [h]

theorem marked_of_notMem {xs : List Split} : ∀ {r : CostRow},
    r.id ∉ xs.map (fun x => x.parent.id) → marked xs r = r := by
  induction xs with
  | nil => intro r _; rfl
  | cons x xs ih =>
    intro r h
    rw [List.map_cons, List.mem_cons, not_or] at h
    rw [marked_cons, if_neg h.1, ih h.2]

theorem rows_apply {s : Session} {x : Split} (h : x.parent.id < s.nextId) :
    (x.apply s).rows = s.rows.map (marked [x]) ++ Session.numbered s.nextId x.children := by
  change (s.addAll x.children).rows.map (marked [x]) = _
  rw [Session.rows_addAll, List.map_append]
  congr 1
  refine (List.map_congr_left fun r hr => ?_).trans (List.map_id _)
  exact if_neg (h.trans_le (Session.le_id_of_mem_numbered hr)).ne'

theorem nextId_apply (s : Session) (x : Split) :
    (x.apply s).nextId = s.nextId + x.children.length := Session.nextId_addAll ..

/-- **The table after the splits**: the old rows marked, the children appended. -/
theorem rows_applyAll {xs : List Split} : ∀ {s : Session},
    (∀ x ∈ xs, x.parent.id < s.nextId) → (applyAll s xs).rows =
      s.rows.map (marked xs) ++ Session.numbered s.nextId (xs.flatMap Split.children) := by
  induction xs with
  | nil =>
    intro s _
    rw [applyAll, List.foldl_nil, List.flatMap_nil, Session.numbered, List.append_nil]
    exact (List.map_id _).symm
  | cons x xs ih =>
    intro s h
    have hx := h x List.mem_cons_self
    have hxs : ∀ y ∈ xs, y.parent.id < s.nextId := fun y hy => h y (List.mem_cons_of_mem x hy)
    have hnew : (Session.numbered s.nextId x.children).map (marked xs) =
        Session.numbered s.nextId x.children := by
      refine (List.map_congr_left fun r hr => marked_of_notMem fun hm => ?_).trans (List.map_id _)
      obtain ⟨y, hy, he⟩ := List.mem_map.mp hm
      exact ((hxs y hy).trans_le (Session.le_id_of_mem_numbered hr)).ne he
    rw [applyAll, List.foldl_cons, ← applyAll, ih, rows_apply hx, nextId_apply, List.map_append,
      List.map_map, hnew, List.flatMap_cons, Session.numbered_append, List.append_assoc]
    · rfl
    · intro y hy
      rw [nextId_apply]
      exact (hxs y hy).trans_le (Nat.le_add_right _ _)

/-! ### Completed passes -/

/-- The arguments of a pass, and the order in which its candidates come. -/
structure PassCall where
  order : ℕ → ℕ
  period : Period
  rules : List AllocationRule

def PassCall.run (num : Arith) (call : PassCall) (w : Warehouse) :
    Session × Except PyError AllocationSummary :=
  applyAllocationRules num call.order w call.period call.rules

/-- The pass returns its summary and leaves `w'`. -/
def Completes (num : Arith) (call : PassCall) (w w' : Warehouse) (summary : AllocationSummary) :
    Prop := call.run num w = (w'.toSession, .ok summary)

def passStep (num : Arith) (w : Warehouse) (call : PassCall) : Warehouse :=
  settle w (call.run num w)

def Completed (num : Arith) (w : Warehouse) (call : PassCall) : Prop :=
  ∃ w' summary, Completes num call w w' summary

def added (w w' : Warehouse) : List CostRow := w'.rows.filter fun r => w.nextId ≤ r.id

theorem flush_toSession (w : Warehouse) : w.toSession.flush = .ok w := by
  rw [Session.flush, dif_pos w.unique, dif_pos w.fit]

theorem completed_of_isOk {call : PassCall} {w : Warehouse}
    (h : (call.run num w).2.isOk = true) : Completed num w call := by
  unfold Completed Completes PassCall.run at *
  unfold applyAllocationRules at h ⊢
  split at h
  · cases h
  · rename_i st ha
    cases hf : st.session.flush with
    | error e => rw [hf] at h; cases h
    | ok w' => exact ⟨w', st.summary, rfl⟩

theorem passStep_of_completes {call : PassCall} {w w' : Warehouse} {summary : AllocationSummary}
    (h : Completes num call w w' summary) : passStep num w call = w' := by
  rw [passStep, h]
  change Session.commit w w'.toSession = w'
  rw [Session.commit, flush_toSession]

def PassCall.parents (call : PassCall) (w : Warehouse) : List CostRow :=
  (candidates call.order call.period w.rows).filter (governed call.rules)

theorem mem_parents {call : PassCall} {w : Warehouse} {p : CostRow} :
    p ∈ call.parents w ↔ p ∈ w.rows ∧ isCandidate call.period p.toCostRecord = true ∧
      governed call.rules p = true := by
  rw [PassCall.parents, candidates, List.mem_filter, List.mem_insertionSort, List.mem_filter,
    and_assoc]

theorem allocated_of_isCandidate {r : CostRecord} (h : isCandidate period r = true) :
    r.allocated = false := by
  simp only [isCandidate, Bool.and_eq_true, Bool.not_eq_true'] at h
  exact h.1.2

theorem noParent_of_isCandidate {r : CostRecord} (h : isCandidate period r = true) :
    r.allocationParentId = none := by
  simp only [isCandidate, Bool.and_eq_true, Option.isNone_iff_eq_none] at h
  exact h.2

theorem nodup_parents (call : PassCall) (w : Warehouse) :
    ((call.parents w).map CostRow.id).Nodup := by
  have hsorted : ((candidates call.order call.period w.rows).map CostRow.id).Nodup := by
    refine ((List.perm_insertionSort _ _).map CostRow.id).nodup_iff.mpr ?_
    exact w.ids.sublist (List.filter_sublist.map _)
  exact hsorted.sublist (List.filter_sublist.map _)

/-- **What a completed pass has done.** -/
structure Outcome (num : Arith) (call : PassCall) (w w' : Warehouse) (xs : List Split) :
    Prop where
  session : w'.toSession = applyAll w.toSession xs
  parents : xs.map Split.parent = call.parents w
  of : ∀ pre x post, xs = pre ++ x :: post →
    x.Of num (applyAll w.toSession pre) call.period call.rules

theorem completes_spec {call : PassCall} {w w' : Warehouse} {summary : AllocationSummary}
    (h : Completes num call w w' summary) : ∃ xs, Outcome num call w w' xs ∧
      summary.skippedNoRule = ((candidates call.order call.period w.rows).filter
        fun p => !governed call.rules p).length := by
  unfold Completes PassCall.run applyAllocationRules at h
  split at h
  · simp at h
  · rename_i st ha
    obtain ⟨xs, hsession, hparents, hof, hskip⟩ := allocate_spec ha
    cases hf : st.session.flush with
    | error e => rw [hf] at h; simp at h
    | ok w1 =>
      rw [hf] at h
      obtain ⟨hw, hsum⟩ := Prod.mk.inj h
      refine ⟨xs, ⟨?_, hparents, hof⟩, ?_⟩
      · rw [← hw, Session.toSession_of_flush hf, hsession]
      · rw [← Except.ok.inj hsum, hskip, Nat.zero_add]

theorem added_of_session {w w' : Warehouse} {xs : List Split}
    (h : w'.toSession = applyAll w.toSession xs) (hlt : ∀ x ∈ xs, x.parent.id < w.nextId) :
    added w w' = Session.numbered w.nextId (xs.flatMap Split.children) := by
  have hold : (w.rows.map (marked xs)).filter (fun r => w.nextId ≤ r.id) = [] := by
    refine List.filter_eq_nil_iff.mpr fun r hr => ?_
    obtain ⟨q, hq, rfl⟩ := List.mem_map.mp hr
    simpa using w.ids_lt q hq
  have hnew : (Session.numbered w.nextId (xs.flatMap Split.children)).filter
      (fun r => w.nextId ≤ r.id) = Session.numbered w.nextId (xs.flatMap Split.children) :=
    List.filter_eq_self.mpr fun r hr => by simpa using Session.le_id_of_mem_numbered hr
  rw [added, h, rows_applyAll hlt, List.filter_append, hold, hnew, List.nil_append]

namespace Outcome

variable {call : PassCall} {w w' : Warehouse} {xs : List Split}

theorem parent_mem (h : Outcome num call w w' xs) {x : Split} (hx : x ∈ xs) :
    x.parent ∈ call.parents w := h.parents ▸ List.mem_map_of_mem hx

theorem parent_lt (h : Outcome num call w w' xs) : ∀ x ∈ xs, x.parent.id < w.nextId :=
  fun x hx => w.ids_lt x.parent (mem_parents.mp (h.parent_mem hx)).1

theorem rows (h : Outcome num call w w' xs) : w'.rows =
    w.rows.map (marked xs) ++ Session.numbered w.nextId (xs.flatMap Split.children) := by
  rw [h.session, rows_applyAll h.parent_lt]

theorem added_eq (h : Outcome num call w w' xs) :
    added w w' = Session.numbered w.nextId (xs.flatMap Split.children) :=
  added_of_session h.session h.parent_lt

theorem nodup_ids (h : Outcome num call w w' xs) : (xs.map fun x => x.parent.id).Nodup := by
  have hn := nodup_parents call w
  rw [← h.parents, List.map_map] at hn
  exact hn

theorem split_iff (h : Outcome num call w w' xs) {r : CostRow} (hr : r ∈ w.rows) :
    r.id ∈ xs.map (fun x => x.parent.id) ↔
      isCandidate call.period r.toCostRecord = true ∧ governed call.rules r = true := by
  constructor
  · intro hm
    obtain ⟨x, hx, hid⟩ := List.mem_map.mp hm
    obtain ⟨hp, hc, hg⟩ := mem_parents.mp (h.parent_mem hx)
    obtain rfl : x.parent = r := List.inj_on_of_nodup_map w.ids hp hr hid
    exact ⟨hc, hg⟩
  · rintro ⟨hc, hg⟩
    have hp : r ∈ xs.map Split.parent := h.parents ▸ mem_parents.mpr ⟨hr, hc, hg⟩
    obtain ⟨x, hx, rfl⟩ := List.mem_map.mp hp
    exact List.mem_map_of_mem hx

theorem exists_child (h : Outcome num call w w' xs) {c : CostRow} (hc : c ∈ added w w') :
    ∃ x ∈ xs, ∃ d ∈ x.children, c.toCostRecord = d.stored := by
  rw [h.added_eq] at hc
  obtain ⟨d, hd, he⟩ := Session.mem_numbered hc
  obtain ⟨x, hx, hdx⟩ := List.mem_flatMap.mp hd
  exact ⟨x, hx, d, hdx, he⟩

theorem candidate_iff (h : Outcome num call w w' xs) {r : CostRow} (hr : r ∈ w.rows) :
    isCandidate call.period (marked xs r).toCostRecord =
      (isCandidate call.period r.toCostRecord && !governed call.rules r) := by
  rw [isCandidate, allocated_marked, occurredAt_marked, allocationParentId_marked]
  by_cases hm : r.id ∈ xs.map fun x => x.parent.id
  · rw [((h.split_iff hr).mp hm).2]
    simp [hm]
  · rw [decide_eq_false hm, Bool.or_false, ← isCandidate]
    cases hc : isCandidate call.period r.toCostRecord with
    | false => rfl
    | true =>
      cases hg : governed call.rules r with
      | false => rfl
      | true => exact absurd ((h.split_iff hr).mpr ⟨hc, hg⟩) hm

theorem candidates_after (h : Outcome num call w w' xs) :
    (w'.rows.filter fun r => isCandidate call.period r.toCostRecord) =
      w.rows.filter fun r => isCandidate call.period r.toCostRecord && !governed call.rules r := by
  have hnew : (Session.numbered w.nextId (xs.flatMap Split.children)).filter
      (fun r => isCandidate call.period r.toCostRecord) = [] := by
    refine List.filter_eq_nil_iff.mpr fun c hc hcand => ?_
    rw [← h.added_eq] at hc
    obtain ⟨x, _, d, hd, he⟩ := h.exists_child hc
    have hp : d.allocationParentId = some x.parent.id := Split.parentId_of_mem hd
    have hn := noParent_of_isCandidate hcand
    rw [he] at hn
    cases hp.symm.trans hn
  rw [h.rows, List.filter_append, hnew, List.append_nil, List.filter_map]
  have hpred : w.rows.filter
      ((fun r => isCandidate call.period r.toCostRecord) ∘ marked xs) = w.rows.filter
        fun r => isCandidate call.period r.toCostRecord && !governed call.rules r :=
    List.filter_congr fun r hr => h.candidate_iff hr
  rw [hpred]
  refine (List.map_congr_left fun r hr => marked_of_notMem fun hm => ?_).trans (List.map_id _)
  obtain ⟨hrows, hc⟩ := List.mem_filter.mp hr
  rw [((h.split_iff hrows).mp hm).2] at hc
  simp at hc

end Outcome

/-- **A second pass finds nothing to split.** -/
theorem completes_again {call : PassCall} {w w' : Warehouse} {summary : AllocationSummary}
    (h : Completes num call w w' summary) (order : ℕ → ℕ) :
    Completes num { call with order } w' w' { skippedNoRule := summary.skippedNoRule } := by
  obtain ⟨xs, hout, hskip⟩ := completes_spec h
  have hafter := hout.candidates_after
  have hnone : ∀ p ∈ candidates order call.period w'.rows, governed call.rules p = false := by
    intro p hp
    rw [candidates, List.mem_insertionSort, hafter] at hp
    exact (by simpa using (List.mem_filter.mp hp).2 : _ ∧ governed call.rules p = false).2
  have hcount : (candidates order call.period w'.rows).length = summary.skippedNoRule := by
    have hperm := (List.perm_insertionSort (fun a b : CostRow => call.order a.id ≤ call.order b.id)
      (w.rows.filter fun r => isCandidate call.period r.toCostRecord)).filter
        fun p => !governed call.rules p
    rw [candidates, List.length_insertionSort, hafter, hskip, candidates, hperm.length_eq,
      List.filter_filter]
    simp only [Bool.and_comm]
  unfold Completes PassCall.run applyAllocationRules
  rw [allocate_of_ungoverned hnone, hcount]
  dsimp only
  rw [flush_toSession, Nat.zero_add]

/-! ### Sequences of passes -/

def history (num : Arith) : Warehouse → List PassCall → List (PassCall × List CostRow)
  | _, [] => []
  | w, call :: calls =>
    (call, added w (passStep num w call)) :: history num (passStep num w call) calls

def childrenOf (id : ℕ) (rows : List CostRow) : List CostRow :=
  rows.filter fun c => c.allocationParentId = some id

/-- A collected record of the table that is not allocated. -/
def Open (w : Warehouse) (id : ℕ) : Prop :=
  ∃ p ∈ w.rows, p.id = id ∧ p.allocated = false ∧ p.allocationParentId = none

/-- A pass has split an open record: the children are of one rule, one for each
of its targets. -/
structure SplitOnce (w : Warehouse) (pass : PassCall × List CostRow) (id : ℕ) : Prop where
  isOpen : Open w id
  children : ∃ rule ∈ pass.1.rules,
    (∀ c ∈ childrenOf id pass.2, c.allocationRule = some rule.name) ∧
    ((childrenOf id pass.2).map fun c => c.team).Nodup ∧
    ∀ team, team ∈ (childrenOf id pass.2).map (fun c => c.team) ↔ team ∈ rule.targets

theorem filter_children {x : Split} {xs : List Split} (hx : x ∈ xs)
    (hn : (xs.map fun x => x.parent.id).Nodup) :
    (xs.flatMap Split.children).filter (fun c => c.allocationParentId = some x.parent.id) =
      x.children := by
  have hself : x.children.filter (fun c => c.allocationParentId = some x.parent.id) =
      x.children :=
    List.filter_eq_self.mpr fun c hc => decide_eq_true (Split.parentId_of_mem hc)
  have hother : ∀ ys : List Split, x.parent.id ∉ ys.map (fun y => y.parent.id) →
      (ys.flatMap Split.children).filter
        (fun c => c.allocationParentId = some x.parent.id) = [] := by
    intro ys hys
    refine List.filter_eq_nil_iff.mpr fun c hc hp => hys ?_
    obtain ⟨y, hy, hcy⟩ := List.mem_flatMap.mp hc
    have hid := (Split.parentId_of_mem hcy).symm.trans (of_decide_eq_true hp)
    exact List.mem_map.mpr ⟨y, hy, Option.some.inj hid⟩
  induction xs with
  | nil => exact absurd hx List.not_mem_nil
  | cons y xs ih =>
    obtain ⟨hy, hnd⟩ := List.nodup_cons.mp hn
    rw [List.flatMap_cons, List.filter_append]
    rcases List.mem_cons.mp hx with rfl | hx
    · rw [hself, hother xs hy, List.append_nil]
    · have hne : y.parent.id ≠ x.parent.id :=
        fun he => hy (List.mem_map.mpr ⟨x, hx, he.symm⟩)
      have hnil := hother [y] (by simpa using hne.symm)
      rw [List.flatMap_cons, List.flatMap_nil, List.append_nil] at hnil
      rw [hnil, List.nil_append, ih hx hnd]

theorem Outcome.splitOnce {call : PassCall} {w w' : Warehouse} {xs : List Split}
    (h : Outcome num call w w' xs) {x : Split} (hx : x ∈ xs) :
    SplitOnce w (call, added w w') x.parent.id := by
  obtain ⟨hp, hc, _⟩ := mem_parents.mp (h.parent_mem hx)
  have hrecords : (childrenOf x.parent.id (added w w')).map CostRow.toCostRecord =
      x.children.map CostRecord.stored := by
    have hall : (added w w').map CostRow.toCostRecord =
        (xs.flatMap Split.children).map CostRecord.stored := by
      rw [h.added_eq]
      exact Session.map_numbered id _ _
    have hfilter := congrArg
      (List.filter fun c : CostRecord => c.allocationParentId = some x.parent.id) hall
    rw [List.filter_map, List.filter_map] at hfilter
    refine hfilter.trans (congrArg _ ?_)
    exact filter_children hx h.nodup_ids
  have hteams : ((childrenOf x.parent.id (added w w')).map fun c => c.team) = x.shares.keys := by
    have hmap := congrArg (List.map fun c : CostRecord => c.team) hrecords
    rw [List.map_map, List.map_map] at hmap
    exact hmap.trans x.map_team_children
  refine ⟨⟨x.parent, hp, rfl, allocated_of_isCandidate hc, noParent_of_isCandidate hc⟩,
    x.rule, ?_, fun c hcm => ?_, ?_, fun team => ?_⟩
  · obtain ⟨pre, post, he⟩ := List.append_of_mem hx
    exact (selectRule_mem (h.of pre x post he).1).1
  · have hrec := List.mem_map_of_mem (f := CostRow.toCostRecord) hcm
    rw [hrecords] at hrec
    obtain ⟨d, hd, he⟩ := List.mem_map.mp hrec
    have hrule : d.allocationRule = some x.rule.name := Split.rule_of_mem hd
    rw [← he]
    exact hrule
  · rw [hteams]
    exact Dict.nodup_keys _
  · rw [hteams]
    exact x.teams team

theorem Outcome.open_before {call : PassCall} {w w' : Warehouse} {xs : List Split}
    (h : Outcome num call w w' xs) {id : ℕ} (ho : Open w' id) :
    Open w id ∧ id ∉ xs.map fun x => x.parent.id := by
  obtain ⟨p, hp, rfl, ha, hn⟩ := ho
  rw [h.rows] at hp
  rcases List.mem_append.mp hp with hp | hp
  · obtain ⟨r, hr, rfl⟩ := List.mem_map.mp hp
    rw [allocated_marked, Bool.or_eq_false_iff] at ha
    rw [allocationParentId_marked] at hn
    rw [id_marked]
    exact ⟨⟨r, hr, rfl, ha.1, hn⟩, of_decide_eq_false ha.2⟩
  · rw [← h.added_eq] at hp
    obtain ⟨x, _, d, hd, he⟩ := h.exists_child hp
    have hparent : d.allocationParentId = some x.parent.id := Split.parentId_of_mem hd
    rw [he] at hn
    cases hparent.symm.trans hn

/-- **The children of a sequence of passes**: each pass gives children only to
records that no pass before it has split. -/
theorem history_spec {calls : List PassCall} : ∀ {w : Warehouse},
    Along (passStep num) (Completed num) w calls →
      ((history num w calls).Pairwise fun p q =>
        ∀ c ∈ p.2, ∀ d ∈ q.2, c.allocationParentId ≠ d.allocationParentId) ∧
      ∀ pass ∈ history num w calls, ∀ c ∈ pass.2,
        ∃ id, c.allocationParentId = some id ∧ SplitOnce w pass id := by
  induction calls with
  | nil => intro w _; exact ⟨List.Pairwise.nil, fun pass hp => absurd hp List.not_mem_nil⟩
  | cons call calls ih =>
    rintro w ⟨⟨w', summary, hdone⟩, hrest⟩
    rw [passStep_of_completes hdone] at hrest
    obtain ⟨xs, hout, _⟩ := completes_spec hdone
    obtain ⟨hpair, hspec⟩ := ih hrest
    rw [history, passStep_of_completes hdone]
    have hparent : ∀ c ∈ added w w', ∃ x ∈ xs, c.allocationParentId = some x.parent.id := by
      intro c hc
      obtain ⟨x, hx, d, hd, he⟩ := hout.exists_child hc
      have hp : d.allocationParentId = some x.parent.id := Split.parentId_of_mem hd
      exact ⟨x, hx, by rw [he]; exact hp⟩
    refine ⟨List.pairwise_cons.mpr ⟨fun q hq c hc d hd he => ?_, hpair⟩, fun pass hp c hc => ?_⟩
    · obtain ⟨x, hx, hcx⟩ := hparent c hc
      obtain ⟨id, hid, honce⟩ := hspec q hq d hd
      have hsame : x.parent.id = id := Option.some.inj (hcx.symm.trans (he.trans hid))
      exact (hout.open_before honce.isOpen).2 (hsame ▸ List.mem_map_of_mem hx)
    · rcases List.mem_cons.mp hp with rfl | hp
      · obtain ⟨x, hx, hcx⟩ := hparent c hc
        exact ⟨x.parent.id, hcx, hout.splitOnce hx⟩
      · obtain ⟨id, hid, honce⟩ := hspec pass hp c hc
        exact ⟨id, hid, (hout.open_before honce.isOpen).1, honce.children⟩

/-- **Allocation is idempotent and splits each record at most once.**  After a
pass that completed, another with its arguments completes too, whatever the order
of the rows, changes nothing and finds nothing to split.  Over a sequence of
completed passes with any rules, each record has the children of one pass, which
are those of one rule, and only records that were collected have any. -/
theorem allocation_idempotent (num : Arith) :
    (∀ (call : PassCall) (w w' : Warehouse) (summary : AllocationSummary),
      Completes num call w w' summary → ∀ order,
        Completes num { call with order } w' w' { skippedNoRule := summary.skippedNoRule }) ∧
    ∀ (w : Warehouse) (calls : List PassCall), Along (passStep num) (Completed num) w calls →
      ((history num w calls).Pairwise fun p q =>
        ∀ c ∈ p.2, ∀ d ∈ q.2, c.allocationParentId ≠ d.allocationParentId) ∧
      ∀ pass ∈ history num w calls, ∀ c ∈ pass.2,
        ∃ id, c.allocationParentId = some id ∧ SplitOnce w pass id :=
  ⟨fun _ _ _ _ h order => completes_again h order, fun _ _ h => history_spec h⟩

/-! The shared GPU bill, and two passes over it. -/

def gpuBooks : Warehouse := Session.commit Warehouse.empty (Warehouse.empty.add gpuBill)

theorem hasScale_gpuBooks : ∀ r ∈ gpuBooks.rows, HasScale CostRecord.moneyScale r.amountUsd := by
  intro r hr
  have hamount : r.amountUsd = 10 :=
    (by decide +kernel : ∀ r ∈ gpuBooks.rows, r.amountUsd = 10) r hr
  exact ⟨1000000000, by rw [hamount]; norm_num [CostRecord.moneyScale]⟩

def gpuCall : PassCall := ⟨id, gpuDay, [gpuRule]⟩

theorem allocation_idempotent_gpu :
    (∃ w' summary, Completes .exact gpuCall gpuBooks w' summary ∧
      Completes .exact gpuCall w' w' { skippedNoRule := summary.skippedNoRule }) ∧
    (history .exact gpuBooks [gpuCall, gpuCall]).Pairwise fun p q =>
      ∀ c ∈ p.2, ∀ d ∈ q.2, c.allocationParentId ≠ d.allocationParentId := by
  have hfirst : Completed .exact gpuBooks gpuCall := completed_of_isOk (by decide +kernel)
  obtain ⟨w', summary, hdone⟩ := hfirst
  have hagain := (allocation_idempotent .exact).1 gpuCall gpuBooks w' summary hdone id
  refine ⟨⟨w', summary, hdone, hagain⟩, ?_⟩
  refine ((allocation_idempotent .exact).2 gpuBooks [gpuCall, gpuCall] ?_).1
  refine ⟨⟨w', summary, hdone⟩, ?_, trivial⟩
  rw [passStep_of_completes hdone]
  exact ⟨w', _, hagain⟩

end Finops
