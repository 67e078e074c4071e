import Finops.Base.Text
import Finops.Attribution.Passes

/-!
# The keys of children

The dedup key of a child is made of the rule's name, the parent's key and the team,
joined by colons that each of them may hold.  Two different children can have one
key exactly when the names of their rules are nested at a colon and their teams are
(`Text.exists_joined_eq`): then some two parents give the same key, and parents may
have any key.
-/

namespace Finops

open Numerics

/-! ### Nested names -/

/-- One name is the other, or one goes on from the other past a colon. -/
def NestedLeft (a b : String) : Prop :=
  a = b ∨ (∃ s, b = a ++ ":" ++ s) ∨ ∃ s, a = b ++ ":" ++ s

/-- One name is the other, or one ends in a colon and the other. -/
def NestedRight (a b : String) : Prop :=
  a = b ∨ (∃ s, b = s ++ ":" ++ a) ∨ ∃ s, a = s ++ ":" ++ b

theorem eq_append_colon_iff {a b s : String} :
    b = a ++ ":" ++ s ↔ b.toList = a.toList ++ ':' :: s.toList := by
  rw [← String.toList_inj, String.toList_append, String.toList_append, List.append_assoc]
  rfl

theorem exists_append_colon_iff {P : List Char → Prop} :
    (∃ s : String, P s.toList) ↔ ∃ l : List Char, P l :=
  ⟨fun ⟨s, h⟩ => ⟨s.toList, h⟩, fun ⟨l, h⟩ => ⟨String.ofList l, by rwa [String.toList_ofList]⟩⟩

theorem nestedLeft_iff {a b : String} : NestedLeft a b ↔
    a.toList = b.toList ∨ (∃ s, b.toList = a.toList ++ ':' :: s) ∨
      ∃ s, a.toList = b.toList ++ ':' :: s := by
  simp only [NestedLeft, eq_append_colon_iff, String.toList_inj]
  rw [exists_append_colon_iff (P := fun s => b.toList = a.toList ++ ':' :: s),
    exists_append_colon_iff (P := fun s => a.toList = b.toList ++ ':' :: s)]

theorem nestedRight_iff {a b : String} : NestedRight a b ↔
    a.toList = b.toList ∨ (∃ s, b.toList = s ++ ':' :: a.toList) ∨
      ∃ s, a.toList = s ++ ':' :: b.toList := by
  simp only [NestedRight, eq_append_colon_iff, String.toList_inj]
  rw [exists_append_colon_iff (P := fun s => b.toList = s ++ ':' :: a.toList),
    exists_append_colon_iff (P := fun s => a.toList = s ++ ':' :: b.toList)]

theorem eq_of_nestedLeft {a b : String} (ha : ':' ∉ a.toList) (hb : ':' ∉ b.toList)
    (h : NestedLeft a b) : a = b := by
  rcases nestedLeft_iff.mp h with h | ⟨s, h⟩ | ⟨s, h⟩
  · exact String.toList_inj.mp h
  · exact absurd (h ▸ List.mem_append_right _ List.mem_cons_self) hb
  · exact absurd (h ▸ List.mem_append_right _ List.mem_cons_self) ha

/-! ### The children that passes create -/

/-- A split that a pass of these rules makes of one of these records. -/
def Makes (rules : List AllocationRule) (parents : List CostRow) (x : Split) : Prop :=
  x.parent ∈ parents ∧ selectRule x.parent.toCostRecord rules = some x.rule ∧
    ∃ num, buildChildren num x.parent x.rule x.shares = .ok x.children

/-- Children of one key are of one rule, one parent and one team, whatever the records
that are split. -/
def KeysInjective (rules : List AllocationRule) : Prop :=
  ∀ parents : List CostRow, (parents.map fun p => p.uniqueKey).Nodup →
    ∀ x x', Makes rules parents x → Makes rules parents x' →
      ∀ c ∈ x.children, ∀ c' ∈ x'.children, c.uniqueKey = c'.uniqueKey →
        x.rule.name = x'.rule.name ∧ x.parent = x'.parent ∧ c.team = c'.team

/-- Rules that govern records of one source, and targets of theirs, are not nested
unless they have one name and are one team. -/
def Unambiguous (rules : List AllocationRule) : Prop :=
  ∀ (p p' : CostRecord) rule rule', p.source = p'.source →
    selectRule p rules = some rule → selectRule p' rules = some rule' →
    ∀ team ∈ rule.targets, ∀ team' ∈ rule'.targets,
      NestedLeft rule.name rule'.name → NestedRight team team' →
        rule.name = rule'.name ∧ team = team'

theorem toList_dedupKey (p : CostRow) (rule : AllocationRule) (quantities : Dict String ℚ)
    (team : String) (v : ℚ) : (childOf p rule quantities team v).dedupKey.toList =
      "alloc:".toList ++
        (rule.name.toList ++ ':' :: (p.dedupKey.toList ++ ':' :: team.toList)) := by
  show (s!"alloc:{rule.name}:{p.dedupKey}:{team}").toList = _
  simp only [toString, String.toList_append, List.append_assoc]
  rfl

/-- **Equal keys** come from nested names. -/
theorem nested_of_dedupKey_eq {p p' : CostRow} {rule rule' : AllocationRule}
    {qs qs' : Dict String ℚ} {team team' : String} {v v' : ℚ}
    (h : (childOf p rule qs team v).dedupKey = (childOf p' rule' qs' team' v').dedupKey) :
    NestedLeft rule.name rule'.name ∧ NestedRight team team' ∧
      (rule.name = rule'.name → team = team' → p.dedupKey = p'.dedupKey) := by
  have hl := congrArg String.toList h
  rw [toList_dedupKey, toList_dedupKey] at hl
  have hkey := List.append_cancel_left hl
  refine ⟨nestedLeft_iff.mpr (Text.eq_or_extends_of_append_cons hkey), ?_, ?_⟩
  · have hright : (rule.name.toList ++ ':' :: p.dedupKey.toList) ++ ':' :: team.toList =
        (rule'.name.toList ++ ':' :: p'.dedupKey.toList) ++ ':' :: team'.toList := by
      simpa using hkey
    exact nestedRight_iff.mpr (Text.eq_or_ends_of_append_cons hright)
  · intro hname hteam
    rw [hname, hteam] at hkey
    have hmid := (List.cons.inj (List.append_cancel_left hkey)).2
    exact String.toList_inj.mp (List.append_cancel_right hmid)

theorem exists_child {x : Split} {c : CostRecord} (h : c ∈ x.children) :
    ∃ v, c = childOf x.parent x.rule x.quantities c.team v ∧ c.team ∈ x.rule.targets := by
  obtain ⟨e, he, rfl⟩ := List.mem_map.mp h
  exact ⟨e.2, rfl, (x.teams e.1).mp (List.mem_map_of_mem he)⟩

/-- The split of a record without a quantity, all shares zero. -/
def zeroSplit (p : CostRow) (rule : AllocationRule) : Split where
  parent := p
  rule := rule
  shares := Dict.ofKeys (fun _ => 0) rule.targets
  quantities := Dict.empty
  teams := fun _ => Dict.mem_keys_ofKeys

theorem makes_zeroSplit {rules : List AllocationRule} {parents : List CostRow} {p : CostRow}
    {rule : AllocationRule} (hp : p ∈ parents) (hq : p.quantity = none)
    (hsel : selectRule p.toCostRecord rules = some rule) :
    Makes rules parents (zeroSplit p rule) := by
  refine ⟨hp, hsel, .exact, ?_⟩
  rw [buildChildren_eq]
  show (quantityShares .exact p _).map _ = _
  rw [quantityShares, hq]
  rfl

theorem exists_child_zeroSplit {p : CostRow} {rule : AllocationRule} {team : String}
    (h : team ∈ rule.targets) : ∃ c ∈ (zeroSplit p rule).children,
      c = childOf p rule Dict.empty team 0 := by
  have hget : (zeroSplit p rule).shares.get? team = some 0 := Dict.get?_ofKeys h
  exact ⟨_, List.mem_map.mpr ⟨(team, 0), Dict.get?_eq_some.mp hget, rfl⟩, rfl⟩

theorem KeysInjective.eq_of_childOf {rules : List AllocationRule} (h : KeysInjective rules)
    {q q' : CostRow} {rule rule' : AllocationRule} {team team' : String}
    (hne : q.uniqueKey ≠ q'.uniqueKey) (hq : q.quantity = none) (hq' : q'.quantity = none)
    (hsel : selectRule q.toCostRecord rules = some rule)
    (hsel' : selectRule q'.toCostRecord rules = some rule')
    (hteam : team ∈ rule.targets) (hteam' : team' ∈ rule'.targets)
    (hu : (childOf q rule Dict.empty team 0).uniqueKey =
      (childOf q' rule' Dict.empty team' 0).uniqueKey) :
    rule.name = rule'.name ∧ q = q' ∧ team = team' := by
  have hdistinct : ([q, q'].map fun r => r.uniqueKey).Nodup :=
    List.nodup_cons.mpr ⟨fun hm => hne (List.mem_singleton.mp hm), List.nodup_singleton _⟩
  obtain ⟨c, hc, hceq⟩ := exists_child_zeroSplit (p := q) hteam
  obtain ⟨c', hc', hceq'⟩ := exists_child_zeroSplit (p := q') hteam'
  have hinj := h [q, q'] hdistinct _ _ (makes_zeroSplit List.mem_cons_self hq hsel)
    (makes_zeroSplit (List.mem_cons_of_mem _ List.mem_cons_self) hq' hsel') c hc c' hc'
    (by rw [hceq, hceq', hu])
  rwa [hceq, hceq'] at hinj

/-- **Child keys are injective** exactly for rules whose names and targets are not
nested in one another. -/
theorem keysInjective_iff (rules : List AllocationRule) :
    KeysInjective rules ↔ Unambiguous rules := by
  constructor
  · intro h p p' rule rule' hsource hsel hsel' team hteam team' hteam' hname hnested
    by_contra hne
    have hne' : ¬ (rule.name.toList = rule'.name.toList ∧ team.toList = team'.toList) := by
      rwa [String.toList_inj, String.toList_inj]
    obtain ⟨k, k', hk, hkey⟩ := Text.exists_joined_eq (d := 'a') (by decide)
      (nestedLeft_iff.mp hname) (nestedRight_iff.mp hnested) hne'
    let q : CostRow := ⟨{ p with dedupKey := String.ofList k, quantity := none }, 0⟩
    let q' : CostRow := ⟨{ p' with dedupKey := String.ofList k', quantity := none }, 1⟩
    have hkeys : q.uniqueKey ≠ q'.uniqueKey := fun he =>
      hk (String.ofList_inj.mp (Prod.mk.inj he).2)
    have hu : (childOf q rule Dict.empty team 0).uniqueKey =
        (childOf q' rule' Dict.empty team' 0).uniqueKey := by
      refine Prod.ext hsource (String.toList_inj.mp ?_)
      show (childOf q rule Dict.empty team 0).dedupKey.toList =
        (childOf q' rule' Dict.empty team' 0).dedupKey.toList
      rw [toList_dedupKey, toList_dedupKey]
      show _ ++ (_ ++ ':' :: ((String.ofList k).toList ++ ':' :: _)) =
        _ ++ (_ ++ ':' :: ((String.ofList k').toList ++ ':' :: _))
      simp only [String.toList_ofList]
      exact congrArg _ hkey
    obtain ⟨hn, _, ht⟩ := h.eq_of_childOf hkeys rfl rfl hsel hsel' hteam hteam' hu
    exact hne ⟨hn, ht⟩
  · intro h parents hnd x x' hx hx' c hc c' hc' hu
    obtain ⟨v, hceq, hteam⟩ := exists_child hc
    obtain ⟨v', hceq', hteam'⟩ := exists_child hc'
    obtain ⟨hsource, hkey⟩ := Prod.mk.inj hu
    have hsource' : x.parent.source = x'.parent.source := by
      rw [hceq, hceq'] at hsource
      exact hsource
    rw [hceq, hceq'] at hkey
    obtain ⟨hname, hnested, hparent⟩ := nested_of_dedupKey_eq hkey
    obtain ⟨hn, ht⟩ := h _ _ _ _ hsource' hx.2.1 hx'.2.1 _ hteam _ hteam' hname hnested
    refine ⟨hn, ?_, ht⟩
    exact List.inj_on_of_nodup_map hnd hx.1 hx'.1 (Prod.ext hsource' (hparent hn ht))

theorem unambiguous_of_no_colon {rules : List AllocationRule}
    (hname : ∀ rule ∈ rules, ':' ∉ rule.name.toList)
    (hteam : ∀ rule ∈ rules, ∀ team ∈ rule.targets, ':' ∉ team.toList) : Unambiguous rules := by
  intro p p' rule rule' _ hsel hsel' team ht team' ht' hnl hnr
  have hr := (selectRule_mem hsel).1
  have hr' := (selectRule_mem hsel').1
  refine ⟨eq_of_nestedLeft (hname rule hr) (hname rule' hr') hnl, ?_⟩
  rcases nestedRight_iff.mp hnr with h | ⟨s, h⟩ | ⟨s, h⟩
  · exact String.toList_inj.mp h
  · exact absurd (h ▸ List.mem_append_right _ List.mem_cons_self) (hteam rule' hr' team' ht')
  · exact absurd (h ▸ List.mem_append_right _ List.mem_cons_self) (hteam rule hr team ht)

/-! A record of the job `job` and one of the job `job:x`: the child of the second for
`ml` has the key of the child of the first for `x:ml`. -/

def nestedRule : AllocationRule where
  name := "gpu"
  strategy := .evenSplit
  targets := ["ml", "x:ml"]
  targets_ne := by decide
  weighted := fun h => by cases h

theorem nestedTeams_collide : ¬ KeysInjective [nestedRule] := by
  let job : CostRow := ⟨{ gpuBill with dedupKey := "job" }, 0⟩
  let jobX : CostRow := ⟨{ gpuBill with dedupKey := "job:x" }, 1⟩
  intro h
  have hne : jobX.uniqueKey ≠ job.uniqueKey := by decide
  obtain ⟨_, hp, _⟩ := h.eq_of_childOf hne rfl rfl rfl rfl
    (show "ml" ∈ nestedRule.targets by decide) (show "x:ml" ∈ nestedRule.targets by decide) rfl
  exact absurd (congrArg CostRow.id hp) (by decide)

end Finops
