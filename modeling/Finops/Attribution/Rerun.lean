import Finops.Attribution.Concurrency

/-!
# Concurrent passes whose keys meet

The key of a child is made of the name of the rule, the key of its parent and the
team.  Where the rules that two transactions have for one record have a name and a
target in common (`SharedKeys`), as they have where both run the same rules, the two
splits of that record have a key in common, and the database accepts only one of the
commits.

So no accepted commit splits a record that has been split before (`open_of_flush`),
and of what makes events safe only the sign of the weights is left (`Kept.safe`).  A
pass may be run again while it is under way (`rerun_safe`).
-/

namespace Finops.Concurrent

open Numerics Apportion Runs

variable {ι : Type*} [DecidableEq ι] {calls : ι → PassCall}

/-! ### Keys of children -/

/-- The rules of two transactions for one record have a name and a target in common. -/
def SharedKeys (calls : ι → PassCall) : Prop :=
  ∀ i j (p : CostRow) rule rule', selectRule p.toCostRecord (calls i).rules = some rule →
    selectRule p.toCostRecord (calls j).rules = some rule' →
      rule.name = rule'.name ∧ ∃ team ∈ rule.targets, team ∈ rule'.targets

omit [DecidableEq ι] in
theorem sharedKeys_of_rules {rules : List AllocationRule} (h : ∀ i, (calls i).rules = rules) :
    SharedKeys calls := by
  intro i j p rule rule' hi hj
  rw [h i] at hi
  rw [h j, hi] at hj
  obtain rfl := Option.some.inj hj
  obtain ⟨team, ht⟩ := List.exists_mem_of_ne_nil _ rule.targets_ne
  exact ⟨rfl, team, ht, ht⟩

def childKey (p : CostRow) (rule : AllocationRule) (team : String) : CostSource × String :=
  (childOf p rule Dict.empty team 0).uniqueKey

theorem childKey_of_name {rule rule' : AllocationRule} (h : rule.name = rule'.name) (p : CostRow)
    (team : String) : childKey p rule team = childKey p rule' team := by
  unfold childKey childOf CostRecord.uniqueKey
  rw [h]

theorem childKey_mem_children {x : Split} {team : String} (h : team ∈ x.rule.targets) :
    childKey x.parent x.rule team ∈ x.children.map fun c => c.stored.uniqueKey := by
  obtain ⟨e, he, rfl⟩ := List.mem_map.mp ((x.teams team).mpr h)
  rw [Split.children, List.map_map]
  exact List.mem_map.mpr ⟨e, he, rfl⟩

/-! ### What a transaction has read -/

/-- The children of some transaction for the record are in the table. -/
def Taken (calls : ι → PassCall) (w : Warehouse) (p : CostRow) : Prop :=
  ∃ i rule, selectRule p.toCostRecord (calls i).rules = some rule ∧
    ∀ team ∈ rule.targets, childKey p rule team ∈ w.rows.map fun r => r.uniqueKey

/-- A record that was read: its row is as it was, or the record is taken. -/
def Seen (calls : ι → PassCall) (w : Warehouse) (p : CostRow) : Prop :=
  ∃ r ∈ w.rows, r.id = p.id ∧ (r.allocated = false → r = p) ∧
    (r.allocated = true → Taken calls w p)

/-- What a transaction has split is its own rule's split of a record that it has read. -/
def SeenSplit (calls : ι → PassCall) (w : Warehouse) (i : ι) (x : Split) : Prop :=
  Seen calls w x.parent ∧ selectRule x.parent.toCostRecord (calls i).rules = some x.rule

omit [DecidableEq ι] in
theorem Seen.lt {w : Warehouse} {p : CostRow} (h : Seen calls w p) : p.id < w.nextId := by
  obtain ⟨r, hr, hid, _⟩ := h
  exact hid ▸ w.ids_lt r hr

omit [DecidableEq ι] in
/-- **An accepted commit** has split open records only: the children of a taken one
would repeat a key. -/
theorem open_of_flush (hshared : SharedKeys calls) {w w' : Warehouse} {i : ι}
    {splits : List Split} (hs : ∀ x ∈ splits, SeenSplit calls w i x)
    (hf : (applyAll w.toSession splits).flush = .ok w') : Open w splits := by
  have hlt : ∀ x ∈ splits, x.parent.id < w.nextId := fun x hx => (hs x hx).1.lt
  have hkeys := (Session.exists_flush_eq_ok.mp ⟨w', hf⟩).1
  rw [map_uniqueKey_applyAll hlt] at hkeys
  intro x hx r hr hid
  obtain ⟨⟨r', hr', hid', _, htaken⟩, hsel⟩ := hs x hx
  obtain rfl : r' = r := List.inj_on_of_nodup_map w.ids hr' hr (hid'.trans hid.symm)
  cases ha : r'.allocated with
  | false => rfl
  | true =>
    obtain ⟨j, rule, hrule, hold⟩ := htaken ha
    obtain ⟨hname, team, ht, ht'⟩ := hshared i j x.parent x.rule rule hsel hrule
    have hnew : childKey x.parent x.rule team ∈
        (splits.flatMap Split.children).map fun c => c.stored.uniqueKey := by
      obtain ⟨c, hc, hk⟩ := List.mem_map.mp (childKey_mem_children ht)
      exact List.mem_map.mpr ⟨c, List.mem_flatMap.mpr ⟨x, hx, hc⟩, hk⟩
    rw [childKey_of_name hname] at hnew
    exact absurd hnew ((List.nodup_append.mp hkeys).2.2 _ (hold team ht') _ · rfl)

/-! ### What a commit leaves of it -/

omit [DecidableEq ι] in
theorem Taken.applyAll {w w' : Warehouse} {splits : List Split} {p : CostRow}
    (h : Taken calls w p) (hw : w'.toSession = applyAll w.toSession splits)
    (hlt : ∀ x ∈ splits, x.parent.id < w.nextId) : Taken calls w' p := by
  obtain ⟨i, rule, hsel, hkeys⟩ := h
  refine ⟨i, rule, hsel, fun team ht => ?_⟩
  rw [hw, map_uniqueKey_applyAll hlt]
  exact List.mem_append_left _ (hkeys team ht)

omit [DecidableEq ι] in
theorem Seen.applyAll {w w' : Warehouse} {i : ι} {splits : List Split} {p : CostRow}
    (h : Seen calls w p) (hs : ∀ x ∈ splits, SeenSplit calls w i x) (hopen : Open w splits)
    (hw : w'.toSession = applyAll w.toSession splits) : Seen calls w' p := by
  have hlt : ∀ x ∈ splits, x.parent.id < w.nextId := fun x hx => (hs x hx).1.lt
  obtain ⟨r, hr, hid, hsame, htaken⟩ := h
  refine ⟨marked splits r, ?_, by rw [id_marked, hid], fun ha => ?_, fun ha => ?_⟩
  · rw [hw, rows_applyAll hlt]
    exact List.mem_append_left _ (List.mem_map_of_mem hr)
  · rw [allocated_marked, Bool.or_eq_false_iff] at ha
    rw [marked_of_notMem (of_decide_eq_false ha.2), hsame ha.1]
  · rw [allocated_marked, Bool.or_eq_true] at ha
    rcases ha with ha | ha
    · exact (htaken ha).applyAll hw hlt
    · obtain ⟨x, hx, hxid⟩ := List.mem_map.mp (of_decide_eq_true ha)
      obtain ⟨⟨r', hr', hid', hsame', _⟩, hsel⟩ := hs x hx
      obtain rfl : r' = r := List.inj_on_of_nodup_map w.ids hr' hr (hid'.trans hxid)
      have hfree := hopen x hx r' hr' hxid.symm
      obtain rfl : x.parent = p := (hsame' hfree).symm.trans (hsame hfree)
      refine ⟨i, x.rule, hsel, fun team ht => ?_⟩
      rw [hw, map_uniqueKey_applyAll hlt]
      refine List.mem_append_right _ ?_
      obtain ⟨c, hc, hk⟩ := List.mem_map.mp (childKey_mem_children ht)
      exact List.mem_map.mpr ⟨c, List.mem_flatMap.mpr ⟨x, hx, hc⟩, hk⟩

/-! ### Runs -/

/-- A transaction runs its own call, and has seen what it goes on with. -/
def Phase.Traced (calls : ι → PassCall) (w : Warehouse) (i : ι) : Phase → Prop
  | .ready call => call = calls i
  | .running call todo splits => call = calls i ∧ (∀ p ∈ todo, Seen calls w p) ∧
      ∀ x ∈ splits, SeenSplit calls w i x
  | .ended => True

def Traced (calls : ι → PassCall) (s : World ι) : Prop :=
  ∀ i, (s.phase i).Traced calls s.table i

variable {s : World ι}

omit [DecidableEq ι] in
theorem Traced.of_running (h : Traced calls s) {i : ι} {call : PassCall} {todo : List CostRow}
    {splits : List Split} (hp : s.phase i = .running call todo splits) :
    call = calls i ∧ (∀ p ∈ todo, Seen calls s.table p) ∧
      ∀ x ∈ splits, SeenSplit calls s.table i x := by
  have hi := h i
  rw [hp] at hi
  exact hi

theorem Traced.enter (h : Traced calls s) {i : ι} {phase : Phase}
    (hphase : phase.Traced calls s.table i) : Traced calls (s.enter i phase) := by
  intro j
  by_cases hj : j = i
  · subst hj
    rw [phase_enter_self]
    exact hphase
  · have hother : (s.enter i phase).phase j = s.phase j := Function.update_of_ne hj ..
    rw [hother]
    exact h j

theorem Traced.select (h : Traced calls s) (i : ι) :
    Traced calls (s.enter i
      (.running (calls i) (candidates (calls i).order (calls i).period s.table.rows) [])) := by
  have hready := ready_candidates (calls i).order (calls i).period s.table.toSession
  refine h.enter ⟨rfl, fun p hp => ?_, fun x hx => absurd hx List.not_mem_nil⟩
  refine ⟨p, hready.mem p hp, rfl, fun _ => rfl, fun ha => ?_⟩
  rw [hready.open_ p hp] at ha
  cases ha

theorem Traced.commit (h : Traced calls s) (hshared : SharedKeys calls) {i : ι} {call : PassCall}
    {splits : List Split} (hp : s.phase i = .running call [] splits) {w : Warehouse}
    (hf : (s.view splits).flush = .ok w) :
    Traced calls { table := w
                   phase := Function.update s.phase i .ended
                   inserted := s.inserted ++ [(i, added s.table w)] } := by
  obtain ⟨_, _, hs⟩ := h.of_running hp
  have hopen := open_of_flush hshared hs hf
  have hw : w.toSession = applyAll s.table.toSession splits :=
    Session.toSession_of_flush hf
  intro j
  dsimp only
  by_cases hj : j = i
  · subst hj
    rw [Function.update_self]
    trivial
  · rw [Function.update_of_ne hj]
    have hjs := h j
    cases hphase : s.phase j with
    | ready call =>
      rw [hphase] at hjs
      exact hjs
    | ended => trivial
    | running call todo xs =>
      obtain ⟨hcall, htodo, hxs⟩ := h.of_running hphase
      exact ⟨hcall, fun p hp => (htodo p hp).applyAll hs hopen hw,
        fun x hx => ⟨(hxs x hx).1.applyAll hs hopen hw, (hxs x hx).2⟩⟩

theorem Traced.step (h : Traced calls s) (hshared : SharedKeys calls) (num : Arith)
    (e : TxEvent ι) : Traced calls (txStep num s e) := by
  rcases txStep_cases num s e with hstep | ⟨i, call, hp, hstep⟩ |
    ⟨i, call, p, todo, splits, _, hp, hstep⟩ | ⟨i, call, splits, w, _, hp, hf, hstep⟩ |
    ⟨i, hstep⟩
  · rw [hstep]
    exact h
  · have hcall := h i
    rw [hp] at hcall
    rw [hstep, show call = calls i from hcall]
    exact h.select i
  · obtain ⟨rfl, htodo, hs⟩ := h.of_running hp
    have hrest : ∀ q ∈ todo, Seen calls s.table q := fun q hq =>
      htodo q (List.mem_cons_of_mem p hq)
    rcases hstep with hstep | hstep | ⟨x, rfl, hof, hstep⟩
    · rw [hstep]
      exact h.enter ⟨rfl, hrest, hs⟩
    · rw [hstep]
      exact h.enter ⟨rfl, fun q hq => absurd hq List.not_mem_nil, hs⟩
    · rw [hstep]
      refine h.enter ⟨rfl, hrest, fun y hy => ?_⟩
      rcases List.mem_append.mp hy with hy | hy
      · exact hs y hy
      · rw [List.mem_singleton.mp hy]
        exact ⟨htodo x.parent List.mem_cons_self, hof.1⟩
  · rw [hstep]
    exact h.commit hshared hp hf
  · rw [hstep]
    exact h.enter trivial

/-! ### Amounts that are not negative -/

def WholeSplit (x : Split) : Prop := ∀ c ∈ x.children, Whole STEP.value c.amountUsd

theorem whole_applyAll {w : Warehouse} {todo : List CostRow} {splits : List Split}
    (hw : ∀ r ∈ w.rows, Whole STEP.value r.amountUsd) (hs : Sound w todo splits)
    (hsplits : ∀ x ∈ splits, WholeSplit x) :
    ∀ r ∈ (applyAll w.toSession splits).rows, Whole STEP.value r.amountUsd := by
  have hlt : ∀ x ∈ splits, x.parent.id < w.nextId := fun x hx => (hs.parent x hx).lt
  intro r hr
  rw [rows_applyAll hlt] at hr
  rcases List.mem_append.mp hr with hr | hr
  · obtain ⟨q, hq, rfl⟩ := List.mem_map.mp hr
    rw [amountUsd_marked]
    exact hw q hq
  · obtain ⟨c, hc, he⟩ := Session.mem_numbered hr
    obtain ⟨x, hx, hcx⟩ := List.mem_flatMap.mp hc
    have hwhole := hsplits x hx c hcx
    have hstored : c.stored.amountUsd = c.amountUsd := toExp_money hwhole
    rw [he, hstored]
    exact hwhole

theorem wholeSplit_of {w : Warehouse} {s : Session} {period : Period}
    {rules : List AllocationRule} {x : Split} (hknown : Known w x.parent)
    (hrows : ∀ r ∈ s.rows, Whole STEP.value r.amountUsd)
    (hrules : ∀ rule ∈ rules, rule.NonnegWeights) (hof : x.Of .exact s period rules) :
    WholeSplit x := by
  obtain ⟨hsel, weights, hw, hs, hb⟩ := hof
  have hnn := resolveWeights_nonneg
    (nonnegWeighted_of_whole (hrules x.rule (selectRule_mem hsel).1) hrows period) hw
  have hamount : Whole STEP.value x.parent.amountUsd :=
    whole_iff.mpr ⟨(splitAmount_exact_eq_ok.mp hs).1, hknown.1⟩
  exact fun c hc => (split_spec rfl hamount hnn hs).2.2 _ (amountUsd_mem_shares hb c hc)

/-- What the transactions keep: where they are, the books, and amounts of whole steps. -/
structure Kept (calls : ι → PassCall) (w₀ : Warehouse) (s : World ι) : Prop where
  traced : Traced calls s
  consistent : Consistent w₀ s
  whole : ∀ r ∈ s.table.rows, Whole STEP.value r.amountUsd
  splits : ∀ i, ∀ x ∈ (s.phase i).splits, WholeSplit x

omit [DecidableEq ι] in
theorem Kept.view_whole {w₀ : Warehouse} (h : Kept calls w₀ s) {i : ι} {call : PassCall}
    {todo : List CostRow} {splits : List Split} (hp : s.phase i = .running call todo splits) :
    ∀ r ∈ (s.view splits).rows, Whole STEP.value r.amountUsd := by
  refine whole_applyAll h.whole (h.consistent.sound i call todo splits hp) ?_
  have hsplits := h.splits i
  rwa [hp] at hsplits

omit [DecidableEq ι] in
/-- **Every event is safe** where the keys meet and no rule has a negative weight. -/
theorem Kept.safe {w₀ : Warehouse} (h : Kept calls w₀ s) (hshared : SharedKeys calls)
    (hrules : ∀ i, ∀ rule ∈ (calls i).rules, rule.NonnegWeights) (e : TxEvent ι) : Safe s e := by
  cases e with
  | select i => trivial
  | rollback i => trivial
  | turn i =>
    intro call p todo splits hp rule hrule weights hw
    obtain ⟨rfl, _⟩ := h.traced.of_running hp
    have hnn := nonnegWeighted_of_whole (hrules i rule (selectRule_mem hrule).1)
      (h.view_whole hp) (calls i).period
    exact dividedBy_of_nonneg (resolveWeights_nonneg hnn hw) _
  | commit i =>
    intro call splits w hp hf
    exact open_of_flush hshared (h.traced.of_running hp).2.2 hf

theorem splits_enter {P : Split → Prop} (h : ∀ i, ∀ x ∈ (s.phase i).splits, P x) {i : ι}
    {phase : Phase} (hphase : ∀ x ∈ phase.splits, P x) :
    ∀ j, ∀ x ∈ ((s.enter i phase).phase j).splits, P x := by
  intro j
  by_cases hj : j = i
  · subst hj
    rw [phase_enter_self]
    exact hphase
  · have hother : (s.enter i phase).phase j = s.phase j := Function.update_of_ne hj ..
    rw [hother]
    exact h j

theorem Kept.splits_step {w₀ : Warehouse} (h : Kept calls w₀ s)
    (hrules : ∀ i, ∀ rule ∈ (calls i).rules, rule.NonnegWeights) (e : TxEvent ι) :
    ∀ i, ∀ x ∈ ((txStep .exact s e).phase i).splits, WholeSplit x := by
  have hnone : ∀ x ∈ Phase.ended.splits, WholeSplit x := fun x hx => absurd hx List.not_mem_nil
  rcases txStep_cases .exact s e with hstep | ⟨i, call, _, hstep⟩ |
    ⟨i, call, p, todo, splits, _, hp, hstep⟩ | ⟨i, call, splits, w, _, hp, hf, hstep⟩ |
    ⟨i, hstep⟩
  · rw [hstep]
    exact h.splits
  · rw [hstep]
    exact splits_enter h.splits fun x hx => absurd hx List.not_mem_nil
  · have hsplits := h.splits i
    rw [hp] at hsplits
    rcases hstep with hstep | hstep | ⟨x, rfl, hof, hstep⟩
    · rw [hstep]
      exact splits_enter h.splits hsplits
    · rw [hstep]
      exact splits_enter h.splits hsplits
    · rw [hstep]
      refine splits_enter h.splits fun y hy => ?_
      rcases List.mem_append.mp hy with hy | hy
      · exact hsplits y hy
      · rw [List.mem_singleton.mp hy]
        obtain ⟨rfl, _⟩ := h.traced.of_running hp
        have hknown := (h.consistent.sound i _ _ _ hp).todo x.parent List.mem_cons_self
        exact wholeSplit_of hknown (h.view_whole hp) (hrules i) hof
  · rw [hstep]
    exact splits_enter h.splits hnone
  · rw [hstep]
    exact splits_enter h.splits hnone

theorem Kept.step {w₀ : Warehouse} (h : Kept calls w₀ s) (hshared : SharedKeys calls)
    (hrules : ∀ i, ∀ rule ∈ (calls i).rules, rule.NonnegWeights) (e : TxEvent ι) :
    Kept calls w₀ (txStep .exact s e) := by
  refine ⟨h.traced.step hshared .exact e, h.consistent.step (h.safe hshared hrules e), ?_,
    h.splits_step hrules e⟩
  rcases txStep_cases .exact s e with hstep | ⟨i, call, _, hstep⟩ |
    ⟨i, call, p, todo, splits, _, _, hstep⟩ | ⟨i, call, splits, w, _, hp, hf, hstep⟩ |
    ⟨i, hstep⟩
  · rw [hstep]
    exact h.whole
  · rw [hstep]
    exact h.whole
  · rcases hstep with hstep | hstep | ⟨x, _, _, hstep⟩
    · rw [hstep]
      exact h.whole
    · rw [hstep]
      exact h.whole
    · rw [hstep]
      exact h.whole
  · have hw : w.toSession = applyAll s.table.toSession splits := Session.toSession_of_flush hf
    rw [hstep, hw]
    exact h.view_whole hp
  · rw [hstep]
    exact h.whole

/-- **Transactions whose keys meet**, interleaved in any way: what makes events safe is
kept from the start. -/
theorem kept_after {w : Warehouse} (hw : ∀ r ∈ w.rows, Whole STEP.value r.amountUsd)
    (hshared : SharedKeys calls)
    (hrules : ∀ i, ∀ rule ∈ (calls i).rules, rule.NonnegWeights) (events : List (TxEvent ι)) :
    Kept calls w (after (txStep .exact) (World.start w calls) events) := by
  have hstart : Kept calls w (World.start w calls) :=
    ⟨fun _ => rfl, consistent_start (fun r hr => (whole_iff.mp (hw r hr)).2) calls, hw,
      fun _ _ hx => absurd hx List.not_mem_nil⟩
  exact invariant (fun _ e h => h.step hshared hrules e) hstart

/-- **A pass may be run again while it is under way.**  Where all transactions have the
same rules, every record has the children of at most one of them, and total spend over
every window is what it was. -/
theorem rerun_safe {w : Warehouse} (hw : ∀ r ∈ w.rows, Whole STEP.value r.amountUsd)
    {rules : List AllocationRule} (hcalls : ∀ i, (calls i).rules = rules)
    (hrules : ∀ rule ∈ rules, rule.NonnegWeights) (events : List (TxEvent ι)) :
    let s := after (txStep .exact) (World.start w calls) events
    (∀ a ∈ s.inserted, ∀ b ∈ s.inserted, ∀ c ∈ a.2, ∀ d ∈ b.2,
      c.allocationParentId = d.allocationParentId → a.1 = b.1) ∧
    ∀ period, totalSpend s.table.rows period {} = totalSpend w.rows period {} := by
  have hall : ∀ i, ∀ rule ∈ (calls i).rules, rule.NonnegWeights := by
    intro i
    rw [hcalls i]
    exact hrules
  have hend := (kept_after hw (sharedKeys_of_rules hcalls) hall events).consistent
  exact ⟨hend.once, hend.totalSpend_eq fun r hr => (whole_iff.mp (hw r hr)).2⟩

end Finops.Concurrent
