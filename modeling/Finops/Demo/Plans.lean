import Finops.Attribution.Models
import Finops.Base.Dict
import Finops.Base.Draws
import Finops.Base.Floats
import Finops.Base.Text
import Finops.Demo.Traffic

/-!
# The plan of the traffic

`plan_calls` plans its calls one after the other.  Each draws a prompt, and then goes to
the runaway agent, to nobody, or to one of the teams.  A draw is below one, so a share
of zero is never taken and a share of one always is.

`planCalls_spec` says which plans are refused, and what the calls of the others are:
`Planned` has a case for each of the three kinds of call, with what the shares allow.  The
loop raises nothing, since the teams are `Staffed` and weights stay positive when they are
rounded.
-/

namespace Finops

open Numerics Draws

def UNTAGGED_SHARE : ℚ := 10 / 100
def BURST_SHARE : ℚ := 6 / 10

def CHEAP_MODEL : String := "gpt-4o-mini"
def EXPENSIVE_MODEL : String := "claude-haiku-4-5"
def MOCK_MODEL : String := "mock-gpt"

structure TeamProfile where
  name : String
  project : String
  agents : List String
  useCases : List String
  modelWeights : Dict String ℚ
  volumeWeight : ℚ

def TEAMS : List TeamProfile := [
  { name := "support-bot"
    project := "customer-support"
    agents := ["triage", "faq-responder", "escalation", "summarizer"]
    useCases := ["ticket-triage", "faq", "summarization"]
    modelWeights := ⟨[(CHEAP_MODEL, 95 / 100), (EXPENSIVE_MODEL, 5 / 100)], by decide⟩
    volumeWeight := 60 / 100 },
  { name := "search"
    project := "discovery"
    agents := ["query-rewriter", "reranker", "answer-synth"]
    useCases := ["rag", "query-expansion", "reranking"]
    modelWeights := ⟨[(CHEAP_MODEL, 65 / 100), (EXPENSIVE_MODEL, 35 / 100)], by decide⟩
    volumeWeight := 30 / 100 },
  { name := "research"
    project := "model-lab"
    agents := ["paper-reader", "experiment-planner"]
    useCases := ["literature-review", "experiment-design"]
    modelWeights := ⟨[(CHEAP_MODEL, 15 / 100), (EXPENSIVE_MODEL, 85 / 100)], by decide⟩
    volumeWeight := 10 / 100 }]

def PROMPT_TEMPLATES : List String := [
  "Summarize the following support ticket in one sentence.",
  "Rewrite this search query to improve recall.",
  "Extract the key claim from this paragraph.",
  "Draft a two-line reply to this customer message.",
  "List the assumptions this experiment depends on."]

structure PlanOptions where
  untaggedShare : ℚ
  mockMode : Bool := true
  burstAgent : Option String := none
  burstShare : ℚ

def teamByName (name : String) : Option TeamProfile := TEAMS.find? fun team => team.name = name

/-- What stands before the first slash of a text, and what after it. -/
def partitionSlash (s : String) : String × String :=
  (String.ofList (s.toList.takeWhile (· ≠ '/')),
    String.ofList (s.toList.dropWhile (· ≠ '/')).tail)

/-- Resolve a `team/agent` reference, defaulting to that team's first agent. -/
def parseBurstAgent : Option String → Except DrawError (Option (TeamProfile × String))
  | none => .ok none
  | some burstAgent =>
    let teamName := (partitionSlash burstAgent).1
    let agent := (partitionSlash burstAgent).2
    match teamByName teamName with
    | none =>
      .error (.valueError ("unknown team " ++ quoted teamName ++ " in burst agent; known teams: "
        ++ ", ".intercalate (TEAMS.map TeamProfile.name)))
    | some team =>
      if agent ≠ "" ∧ agent ∉ team.agents then
        .error (.valueError ("unknown agent " ++ quoted agent ++ " for team " ++ quoted teamName
          ++ "; known: " ++ ", ".intercalate team.agents))
      else if agent = "" then
        match team.agents.head? with
        | some first => .ok (some (team, first))
        | none => .error .indexError
      else .ok (some (team, agent))

section

variable {σ : Type} (g : Generator σ) (num : Arith)

def weightedChoice (weights : Dict String ℚ) : Draw σ String :=
  g.choices num (weights.entries.map fun e => (e.1, num.flt e.2))

def pickTeam (teams : List TeamProfile) : Draw σ TeamProfile :=
  g.choices num (teams.map fun team => (team, num.flt team.volumeWeight))

def chooseModel (mockMode : Bool) (team : TeamProfile) : Draw σ String :=
  if mockMode then pure MOCK_MODEL else weightedChoice g num team.modelWeights

def chooseAgent (team : TeamProfile) (agent : Option String) : Draw σ String :=
  if agent.getD "" = "" then g.choice team.agents else pure (agent.getD "")

def buildCall (team : TeamProfile) (prompt : String) (mockMode : Bool) (agent : Option String) :
    Draw σ PlannedCall := do
  let model ← chooseModel g num mockMode team
  let agentId ← chooseAgent g team agent
  let useCase ← g.choice team.useCases
  return { model, prompt, team := some team.name, project := some team.project,
           agentId := some agentId, useCase := some useCase }

/-- A call that is not the runaway agent's. -/
def planOther (o : PlanOptions) (prompt : String) : Draw σ PlannedCall := do
  let r ← g.draw
  if r < o.untaggedShare then
    let team ← pickTeam g num TEAMS
    let model ← chooseModel g num o.mockMode team
    return { model, prompt }
  else
    let team ← pickTeam g num TEAMS
    buildCall g num team prompt o.mockMode none

def planCall (o : PlanOptions) (burst : Option (TeamProfile × String)) : Draw σ PlannedCall := do
  let prompt ← g.choice PROMPT_TEMPLATES
  match burst with
  | none => planOther g num o prompt
  | some (team, agent) =>
    let r ← g.draw
    if r < o.burstShare then buildCall g num team prompt o.mockMode (some agent)
    else planOther g num o prompt

def planCalls (count seed : ℤ) (o : PlanOptions) : Except DrawError (List PlannedCall) := do
  if count < 0 then throw (.valueError "count must not be negative")
  if ¬(0 ≤ o.untaggedShare ∧ o.untaggedShare ≤ 1) then
    throw (.valueError "untagged_share must be between 0 and 1")
  let burst ← parseBurstAgent o.burstAgent
  let (calls, _) ← repeated (planCall g num o burst) count.toNat (g.seed seed)
  return calls

end

/-! ### What a plan may hold -/

/-- What a `team/agent` reference refers to. -/
inductive Refers (reference : String) (team : TeamProfile) (agent : String) : Prop
  | team (hteam : team ∈ TEAMS) (h : reference = team.name ∨ reference = team.name ++ "/")
      (hagent : team.agents.head? = some agent)
  | agent (hteam : team ∈ TEAMS) (h : reference = team.name ++ "/" ++ agent)
      (hagent : agent ∈ team.agents)

def PlanOptions.models (o : PlanOptions) (team : TeamProfile) : List String :=
  if o.mockMode then [MOCK_MODEL] else team.modelWeights.keys

/-- A call of a team, of one of its agents and for one of its uses. -/
structure Owned (o : PlanOptions) (team : TeamProfile) (call : PlannedCall) : Prop where
  prompt : call.prompt ∈ PROMPT_TEMPLATES
  model : call.model ∈ o.models team
  team_eq : call.team = some team.name
  project_eq : call.project = some team.project
  agent : ∃ agent ∈ team.agents, call.agentId = some agent
  useCase : ∃ useCase ∈ team.useCases, call.useCase = some useCase

/-- The three kinds of call, each with what the shares say of it. -/
inductive Planned (o : PlanOptions) (call : PlannedCall) : Prop
  | burst {reference team agent} (href : o.burstAgent = some reference)
      (hrefers : Refers reference team agent) (hshare : 0 < o.burstShare)
      (howned : Owned o team call) (hagent : call.agentId = some agent)
  | untagged {team} (hburst : o.burstAgent = none ∨ o.burstShare < 1)
      (hshare : 0 < o.untaggedShare) (hteam : team ∈ TEAMS)
      (hprompt : call.prompt ∈ PROMPT_TEMPLATES) (hmodel : call.model ∈ o.models team)
      (hcall : call = { model := call.model, prompt := call.prompt })
  | tagged {team} (hburst : o.burstAgent = none ∨ o.burstShare < 1)
      (hshare : o.untaggedShare < 1) (hteam : team ∈ TEAMS) (howned : Owned o team call)

/-- The arguments that a plan can be made with. -/
structure Plannable (count : ℤ) (o : PlanOptions) : Prop where
  count_nonneg : 0 ≤ count
  share_nonneg : 0 ≤ o.untaggedShare
  share_le_one : o.untaggedShare ≤ 1
  refers : ∀ reference, o.burstAgent = some reference → ∃ team agent, Refers reference team agent

/-! ### References -/

theorem partitionSlash_of_notMem {s : String} (h : '/' ∉ s.toList) :
    partitionSlash s = (s, "") := by
  have hne : ∀ c ∈ s.toList, decide (c ≠ '/') = true := fun c hc =>
    decide_eq_true fun heq => h (heq ▸ hc)
  rw [partitionSlash, List.takeWhile_eq_self_iff.mpr hne, List.dropWhile_eq_nil_iff.mpr hne,
    String.ofList_toList]
  rfl

theorem toList_append_slash (s t : String) :
    (s ++ "/" ++ t).toList = s.toList ++ '/' :: t.toList := by
  rw [String.toList_append, String.toList_append, List.append_assoc]
  rfl

theorem partitionSlash_append {s : String} (h : '/' ∉ s.toList) (t : String) :
    partitionSlash (s ++ "/" ++ t) = (s, t) := by
  obtain ⟨htake, hdrop⟩ := Text.takeWhile_append_cons (m := t.toList) h
  rw [partitionSlash, toList_append_slash, htake, hdrop, String.ofList_toList, List.tail_cons,
    String.ofList_toList]

theorem eq_of_partitionSlash {s before after : String} (h : partitionSlash s = (before, after)) :
    (s = before ∧ after = "") ∨ s = before ++ "/" ++ after := by
  by_cases hs : '/' ∈ s.toList
  · obtain ⟨rfl, rfl⟩ := Prod.mk.inj h
    refine .inr (String.toList_inj.mp ?_)
    rw [toList_append_slash, String.toList_ofList, String.toList_ofList]
    exact (Text.exists_append_cons hs).1.symm
  · rw [partitionSlash_of_notMem hs] at h
    obtain ⟨rfl, rfl⟩ := Prod.mk.inj h
    exact .inl ⟨rfl, rfl⟩

theorem teamByName_eq_some {name : String} {team : TeamProfile} :
    teamByName name = some team ↔ team ∈ TEAMS ∧ team.name = name := by
  have hnames : (TEAMS.map TeamProfile.name).Nodup := by decide
  constructor
  · intro h
    refine ⟨List.mem_of_find?_eq_some h, ?_⟩
    simpa using @List.find?_some _ (fun team : TeamProfile => team.name = name) _ _ h
  · rintro ⟨hteam, hname⟩
    have hsome : (teamByName name).isSome := List.find?_isSome.mpr ⟨team, hteam, by simp [hname]⟩
    obtain ⟨found, hfound⟩ := Option.isSome_iff_exists.mp hsome
    have hsame : found.name = name := by
      simpa using @List.find?_some _ (fun team : TeamProfile => team.name = name) _ _ hfound
    rw [hfound, List.inj_on_of_nodup_map hnames (List.mem_of_find?_eq_some hfound) hteam
      (hsame.trans hname.symm)]

/-- What the plan relies on of a team. -/
structure Staffed (team : TeamProfile) : Prop where
  name : '/' ∉ team.name.toList ∧ team.name ≠ ""
  agents : team.agents ≠ [] ∧ "" ∉ team.agents
  useCases : team.useCases ≠ []
  models : team.modelWeights.entries ≠ [] ∧ ∀ e ∈ team.modelWeights.entries, 0 < e.2
  volume : 0 < team.volumeWeight

theorem staffed_of_mem_teams : ∀ team ∈ TEAMS, Staffed team := by
  have hteams : ∀ team ∈ TEAMS, ('/' ∉ team.name.toList ∧ team.name ≠ "") ∧
      (team.agents ≠ [] ∧ "" ∉ team.agents) ∧ team.useCases ≠ [] ∧
      (team.modelWeights.entries ≠ [] ∧ ∀ e ∈ team.modelWeights.entries, 0 < e.2) ∧
      0 < team.volumeWeight := by decide +kernel
  intro team h
  obtain ⟨hname, hagents, huses, hmodels, hvolume⟩ := hteams team h
  exact ⟨hname, hagents, huses, hmodels, hvolume⟩

/-- **A reference is read** as the team and the agent it refers to. -/
theorem parseBurstAgent_eq_ok {reference : String} {burst : Option (TeamProfile × String)} :
    parseBurstAgent (some reference) = .ok burst ↔
      ∃ team agent, burst = some (team, agent) ∧ Refers reference team agent := by
  constructor
  · intro h
    unfold parseBurstAgent at h
    obtain ⟨name, agent, hparts⟩ : ∃ name agent, partitionSlash reference = (name, agent) :=
      ⟨_, _, rfl⟩
    simp only [hparts] at h
    cases hteam : teamByName name with
    | none => rw [hteam] at h; cases h
    | some team =>
      obtain ⟨hmem, rfl⟩ := teamByName_eq_some.mp hteam
      simp only [hteam] at h
      split at h
      · cases h
      rename_i hknown
      split at h
      · rename_i hempty
        subst hempty
        cases hfirst : team.agents.head? with
        | none => rw [hfirst] at h; cases h
        | some first =>
          rw [hfirst] at h
          cases h
          refine ⟨team, first, rfl, .team hmem ?_ hfirst⟩
          rcases eq_of_partitionSlash hparts with ⟨heq, _⟩ | heq
          · exact .inl heq
          · exact .inr (by rw [heq, String.append_empty])
      · rename_i hne
        cases h
        have hagent : agent ∈ team.agents := by
          by_contra hout
          exact hknown ⟨hne, hout⟩
        refine ⟨team, agent, rfl, .agent hmem ?_ hagent⟩
        rcases eq_of_partitionSlash hparts with ⟨_, heq⟩ | heq
        · exact absurd heq hne
        · exact heq
  · rintro ⟨team, agent, rfl, hrefers⟩
    unfold parseBurstAgent
    cases hrefers with
    | team hteam h hagent =>
      have hslash := (staffed_of_mem_teams team hteam).name.1
      have hparts : partitionSlash reference = (team.name, "") := by
        rcases h with rfl | rfl
        · exact partitionSlash_of_notMem hslash
        · have happend := partitionSlash_append hslash ""
          rwa [String.append_empty] at happend
      simp only [hparts, teamByName_eq_some.mpr ⟨hteam, rfl⟩, hagent]
      rfl
    | agent hteam h hagent =>
      have hfit := staffed_of_mem_teams team hteam
      have hne : agent ≠ "" := fun heq => hfit.agents.2 (heq ▸ hagent)
      rw [h]
      simp only [partitionSlash_append hfit.name.1, teamByName_eq_some.mpr ⟨hteam, rfl⟩, hagent,
        hne, not_true_eq_false, and_false, if_false]

theorem valueError_of_parseBurstAgent {burstAgent : Option String} {e : DrawError}
    (h : parseBurstAgent burstAgent = .error e) : ∃ message, e = .valueError message := by
  cases burstAgent with
  | none => cases h
  | some reference =>
    unfold parseBurstAgent at h
    cases hteam : teamByName (partitionSlash reference).1 with
    | none =>
      simp only [hteam] at h
      cases h
      exact ⟨_, rfl⟩
    | some team =>
      simp only [hteam] at h
      split at h
      · cases h
        exact ⟨_, rfl⟩
      split at h
      · have hagents := (staffed_of_mem_teams team (teamByName_eq_some.mp hteam).1).agents.1
        rw [List.head?_eq_some_head hagents] at h
        cases h
      · cases h

/-! ### The loop -/

section

variable {σ : Type} {g : Generator σ} {num : Arith} {o : PlanOptions} {team : TeamProfile}
  {prompt : String}

theorem returns_weightedChoice (hnum : Positive num) (hteam : Staffed team) :
    Returns (weightedChoice g num team.modelWeights) (· ∈ team.modelWeights.keys) := by
  refine (returns_choices hnum g ?_ ?_).mono ?_
  · exact fun h => hteam.models.1 (List.map_eq_nil_iff.mp h)
  · intro option h
    obtain ⟨e, he, rfl⟩ := List.mem_map.mp h
    exact hnum _ (hteam.models.2 e he)
  · rintro model ⟨w, h⟩
    obtain ⟨e, he, heq⟩ := List.mem_map.mp h
    obtain ⟨rfl, _⟩ := Prod.mk.inj heq
    exact List.mem_map_of_mem he

theorem returns_pickTeam (hnum : Positive num) : Returns (pickTeam g num TEAMS) (· ∈ TEAMS) := by
  refine (returns_choices hnum g ?_ ?_).mono ?_
  · exact fun h => absurd (List.map_eq_nil_iff.mp h) (List.cons_ne_nil _ _)
  · intro option h
    obtain ⟨team, hteam, rfl⟩ := List.mem_map.mp h
    exact hnum _ (staffed_of_mem_teams team hteam).volume
  · rintro team ⟨w, h⟩
    obtain ⟨team', hteam, heq⟩ := List.mem_map.mp h
    obtain ⟨rfl, _⟩ := Prod.mk.inj heq
    exact hteam

theorem returns_chooseModel (hnum : Positive num) (hteam : Staffed team) :
    Returns (chooseModel g num o.mockMode team) (· ∈ o.models team) := by
  unfold chooseModel PlanOptions.models
  split
  · exact returns_pure List.mem_cons_self
  · exact returns_weightedChoice hnum hteam

theorem returns_chooseAgent (hteam : Staffed team) {agent : Option String}
    (hagent : ∀ name, agent = some name → name ∈ team.agents) :
    Returns (chooseAgent g team agent) fun name =>
      name ∈ team.agents ∧ ∀ name', agent = some name' → name = name' := by
  refine returns_ite (fun hempty => ?_) fun hne => ?_
  · refine (returns_choice g hteam.agents.1).mono fun name hname => ⟨hname, ?_⟩
    rintro name' rfl
    exact absurd (hempty ▸ hagent name' rfl) hteam.agents.2
  · cases agent with
    | none => exact absurd rfl hne
    | some name => exact returns_pure ⟨hagent name rfl, fun name' h => Option.some.inj h⟩

theorem returns_buildCall (hnum : Positive num) (hteam : Staffed team)
    (hprompt : prompt ∈ PROMPT_TEMPLATES) {agent : Option String}
    (hagent : ∀ name, agent = some name → name ∈ team.agents) :
    Returns (buildCall g num team prompt o.mockMode agent) fun call =>
      Owned o team call ∧ ∀ name, agent = some name → call.agentId = some name := by
  refine (returns_chooseModel hnum hteam).bind fun model hmodel => ?_
  refine (returns_chooseAgent hteam hagent).bind fun name hname => ?_
  refine (returns_choice g hteam.useCases).bind fun useCase huse => ?_
  refine returns_pure ⟨⟨hprompt, hmodel, rfl, rfl, ⟨name, hname.1, rfl⟩, useCase, huse, rfl⟩, ?_⟩
  intro name' h
  rw [hname.2 name' h]

theorem returns_planOther (hnum : Positive num) (hprompt : prompt ∈ PROMPT_TEMPLATES)
    (hburst : o.burstAgent = none ∨ o.burstShare < 1) :
    Returns (planOther g num o prompt) (Planned o) := by
  refine (returns_draw g).bind fun r hr => returns_ite (fun hlt => ?_) fun hge => ?_
  · refine (returns_pickTeam hnum).bind fun team hteam => ?_
    refine (returns_chooseModel hnum (staffed_of_mem_teams team hteam)).bind fun model hmodel => ?_
    exact returns_pure (.untagged hburst (hr.1.trans_lt hlt) hteam hprompt hmodel rfl)
  · refine (returns_pickTeam hnum).bind fun team hteam => ?_
    refine (returns_buildCall hnum (staffed_of_mem_teams team hteam) hprompt
      (fun name h => by cases h)).mono fun call hcall => ?_
    exact .tagged hburst ((not_lt.mp hge).trans_lt hr.2) hteam hcall.1

theorem Refers.mem_teams {reference agent : String} (h : Refers reference team agent) :
    team ∈ TEAMS := by
  cases h with
  | team hteam h hagent => exact hteam
  | agent hteam h hagent => exact hteam

theorem Refers.mem_agents {reference agent : String} (h : Refers reference team agent) :
    agent ∈ team.agents := by
  cases h with
  | team hteam h hagent => exact List.mem_of_mem_head? hagent
  | agent hteam h hagent => exact hagent

/-- **Each turn plans one of the three kinds of call.** -/
theorem returns_planCall (hnum : Positive num) {burst : Option (TeamProfile × String)}
    (hburst : parseBurstAgent o.burstAgent = .ok burst) :
    Returns (planCall g num o burst) (Planned o) := by
  refine (returns_choice g (by decide)).bind fun prompt hprompt => ?_
  cases hagent : o.burstAgent with
  | none =>
    rw [hagent] at hburst
    cases hburst
    exact returns_planOther hnum hprompt (.inl hagent)
  | some reference =>
    rw [hagent] at hburst
    obtain ⟨team, agent, rfl, hrefers⟩ := parseBurstAgent_eq_ok.mp hburst
    refine (returns_draw g).bind fun r hr => returns_ite (fun hlt => ?_) fun hge => ?_
    · refine (returns_buildCall hnum (staffed_of_mem_teams team hrefers.mem_teams) hprompt
        (fun name h => ?_)).mono fun call hcall => ?_
      · rw [← Option.some.inj h]
        exact hrefers.mem_agents
      · exact .burst hagent hrefers (hr.1.trans_lt hlt) hcall.1 (hcall.2 agent rfl)
    · exact returns_planOther hnum hprompt (.inr ((not_lt.mp hge).trans_lt hr.2))

theorem planCalls_of_plannable (hnum : Positive num) {count : ℤ} (h : Plannable count o)
    (seed : ℤ) : ∃ calls, planCalls g num count seed o = .ok calls ∧
      calls.length = count ∧ ∀ call ∈ calls, Planned o call := by
  obtain ⟨burst, hburst⟩ : ∃ burst, parseBurstAgent o.burstAgent = .ok burst := by
    cases hagent : o.burstAgent with
    | none => exact ⟨none, rfl⟩
    | some reference =>
      obtain ⟨team, agent, hrefers⟩ := h.refers reference hagent
      exact ⟨_, parseBurstAgent_eq_ok.mpr ⟨team, agent, rfl, hrefers⟩⟩
  obtain ⟨calls, s, hcalls, hlength, hplanned⟩ := returns_repeated
    (returns_planCall hnum hburst) count.toNat (g.seed seed)
  refine ⟨calls, ?_, by rw [hlength, Int.toNat_of_nonneg h.count_nonneg], hplanned⟩
  unfold planCalls
  rw [if_neg (not_lt.mpr h.count_nonneg), if_neg (not_not_intro ⟨h.share_nonneg, h.share_le_one⟩),
    hburst]
  show (repeated (planCall g num o burst) count.toNat (g.seed seed) >>= _) = _
  rw [hcalls]
  rfl

theorem plannable_of_planCalls {count seed : ℤ} {calls : List PlannedCall}
    (h : planCalls g num count seed o = .ok calls) : Plannable count o := by
  unfold planCalls at h
  by_cases hcount : count < 0
  · rw [if_pos hcount] at h
    cases h
  rw [if_neg hcount] at h
  by_cases hshare : 0 ≤ o.untaggedShare ∧ o.untaggedShare ≤ 1
  · refine ⟨not_lt.mp hcount, hshare.1, hshare.2, fun reference href => ?_⟩
    rw [if_neg (not_not_intro hshare), href] at h
    cases hburst : parseBurstAgent (some reference) with
    | error e => rw [hburst] at h; cases h
    | ok burst =>
      obtain ⟨team, agent, _, hrefers⟩ := parseBurstAgent_eq_ok.mp hburst
      exact ⟨team, agent, hrefers⟩
  · rw [if_pos hshare] at h
    cases h

theorem valueError_of_planCalls (hnum : Positive num) {count seed : ℤ} {e : DrawError}
    (h : planCalls g num count seed o = .error e) : ∃ message, e = .valueError message := by
  unfold planCalls at h
  by_cases hcount : count < 0
  · rw [if_pos hcount] at h
    cases h
    exact ⟨_, rfl⟩
  rw [if_neg hcount] at h
  by_cases hshare : 0 ≤ o.untaggedShare ∧ o.untaggedShare ≤ 1
  · rw [if_neg (not_not_intro hshare)] at h
    cases hburst : parseBurstAgent o.burstAgent with
    | error e' =>
      rw [hburst] at h
      cases h
      exact valueError_of_parseBurstAgent hburst
    | ok burst =>
      obtain ⟨calls, s, hcalls, _⟩ := returns_repeated (returns_planCall hnum hburst) count.toNat
        (g.seed seed)
      rw [hburst] at h
      change (repeated (planCall g num o burst) count.toNat (g.seed seed) >>= _) = _ at h
      rw [hcalls] at h
      cases h
  · rw [if_pos hshare] at h
    cases h
    exact ⟨_, rfl⟩

end

theorem positive_cpython : Positive .cpython := by
  intro v hv
  have herr := abs_binary64_sub_le v
  rw [abs_of_pos hv] at herr
  have hlow := (abs_le.mp herr).1
  rw [cpython_flt]
  linarith

/-- **Which plans are made, and what is in them.**  Whatever the generator draws, a plan is
refused exactly when its arguments are bad, with a `ValueError`, and otherwise it has `count`
calls, each of one of the three kinds. -/
theorem planCalls_spec {σ : Type} (g : Generator σ) (count seed : ℤ) (o : PlanOptions) :
    ((∃ calls, planCalls g .cpython count seed o = .ok calls) ↔ Plannable count o) ∧
      (∀ e, planCalls g .cpython count seed o = .error e → ∃ message, e = .valueError message) ∧
      ∀ calls, planCalls g .cpython count seed o = .ok calls →
        calls.length = count ∧ ∀ call ∈ calls, Planned o call := by
  refine ⟨⟨fun ⟨calls, h⟩ => plannable_of_planCalls h, fun h => ?_⟩,
    fun e h => valueError_of_planCalls positive_cpython h, fun calls h => ?_⟩
  · obtain ⟨calls, hcalls, _⟩ := @planCalls_of_plannable _ g _ _ positive_cpython _ h seed
    exact ⟨calls, hcalls⟩
  · obtain ⟨calls', hcalls, hplanned⟩ :=
      @planCalls_of_plannable _ g _ _ positive_cpython _ (plannable_of_planCalls h) seed
    rw [h] at hcalls
    cases hcalls
    exact hplanned

end Finops
