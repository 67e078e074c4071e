import Finops.Collectors.Mirror
import Finops.Demo.Plans
import Finops.Demo.Workloads

/-!
# From the plan to the warehouse

The demo sends its planned calls through the proxy, the proxy logs them, and the collector
brings the log to the warehouse.  All of it goes on at once: a `Demo` takes an event of the
traffic, a row that the proxy writes, the query of a cycle of the collector, or its commit.

Of the proxy we rely on two things only (`LoggedAs`): the row of a request has the tags of
its body, and the metadata of the key it was sent with.  A call that failed here may have
been logged there, and one that came back may never be.

A call of a team has its owners in its tags (`resolveAttribution_owned`), and one of nobody
goes out with the master key, whose metadata names nobody (`resolveAttribution_untagged`).
So each row has the owner of its call.  `Kept` is what each event keeps (`kept_step`), and
`demo_accounted` draws the sum: at most one row for each planned call, with the owner of the
call it was logged for, and no more unattributed rows than the report has untagged and failed
calls.
-/

namespace Finops

open Numerics Runs Draws

/-! ### Requests -/

structure DemoOptions extends TrafficOptions where
  masterKey : String
  count : ℤ := 200
  seed : ℤ := 42
  mockMode : Bool := true
  burstAgent : Option String := none
  maxTokens : ℕ := 64

/-- The plan that `run_traffic` asks for. -/
def DemoOptions.plan (o : DemoOptions) : PlanOptions where
  untaggedShare := Arith.cpython.flt UNTAGGED_SHARE
  mockMode := o.mockMode
  burstAgent := o.burstAgent
  burstShare := Arith.cpython.flt BURST_SHARE

/-- One virtual key per team: the one that was minted, or else the master key. -/
def ensureTeamKeys (o : DemoOptions) (minted : String → Option String) : Dict String String :=
  Dict.ofKeys (fun name => (minted name).getD o.masterKey) (TEAMS.map TeamProfile.name)

def apiKey (o : DemoOptions) (keys : Dict String String) (call : PlannedCall) : String :=
  keys.getD (call.team.getD "") o.masterKey

/-- One chat-completion body, with tags only when the call is tagged. -/
def buildRequestBody (call : PlannedCall) (maxTokens : ℕ) : Json :=
  .obj ([("model", .str call.model),
    ("messages", .arr [.obj [("role", .str "user"), ("content", .str call.prompt)]]),
    ("max_tokens", .num maxTokens)] ++
    if call.isTagged then [("metadata", .obj [("tags", .arr (call.tags.map .str))])] else [])

/-! ### The proxy -/

def Json.field (name : String) : Json → Option Json
  | .obj fields => fields.lookup name
  | _ => none

def requestTags (body : Json) : List String :=
  match (body.field "metadata").bind (Json.field "tags") with
  | some (.arr items) => stringItems items
  | _ => []

/-- The row that the proxy writes of a request: `stamp` is the metadata of a key. -/
structure LoggedAs (loads : JsonLoads) (stamp : String → Json) (body : Json) (key : String)
    (row : SpendLog) : Prop where
  tags : asTagList loads row.requestTags = .ok (requestTags body)
  metadata : row.metadata = stamp key

/-- Metadata that name no owner. -/
def Anonymous (loads : JsonLoads) (lower : String → String) (metadata : Json) : Prop :=
  ∃ fields, asMapping loads metadata = .ok fields ∧
    ∀ key ∈ DIMENSION_KEYS ++ TEAM_ALIAS_KEYS, fromMetadata lower fields key = none

theorem stringItems_map_str (tags : List String) : stringItems (tags.map .str) = tags := by
  induction tags with
  | nil => rfl
  | cons tag tags ih =>
    show tag :: stringItems (tags.map .str) = tag :: tags
    rw [ih]

/-- **The body carries the tags of its call.** -/
theorem requestTags_buildRequestBody (call : PlannedCall) (maxTokens : ℕ) :
    requestTags (buildRequestBody call maxTokens) = call.tags := by
  unfold buildRequestBody
  cases h : call.isTagged with
  | true => exact stringItems_map_str call.tags
  | false =>
    rw [PlannedCall.tags, h]
    rfl

/-! ### The owner of a call -/

def PlannedCall.owner (call : PlannedCall) : Attribution where
  team := call.team.getD UNATTRIBUTED
  project := call.project.getD UNATTRIBUTED
  agentId := call.agentId.getD UNATTRIBUTED
  useCase := call.useCase.getD UNATTRIBUTED

def CostRecord.attribution (r : CostRecord) : Attribution where
  team := r.team
  project := r.project
  agentId := r.agentId
  useCase := r.useCase

/-- Lower-casing as it is for texts in ASCII. -/
def AsciiCase (lower : String → String) : Prop :=
  ∀ s : String, (∀ c ∈ s.toList, c.toNat < 128) → lower s = asciiLower s

section

variable {loads : JsonLoads} {lower : String → String} {num : Arith}
  {metadata : Option (List (String × Json))}

theorem owner_of_ascii (h : AsciiCase lower) {value : String}
    (hascii : ((strip value).toList.all fun c => c.toNat < 128) = true)
    (hvalue : Owner asciiLower value) : Owner lower value := by
  rw [Owner, normalize] at hvalue ⊢
  rwa [h _ fun c hc => of_decide_eq_true (List.all_eq_true.mp hascii c hc)]

theorem owner_of_mem_teams (h : AsciiCase lower) {team : TeamProfile} (hteam : team ∈ TEAMS) :
    ∀ value ∈ [team.name, team.project] ++ team.agents ++ team.useCases, Owner lower value := by
  have hteams : ∀ team ∈ TEAMS,
      ∀ value ∈ [team.name, team.project] ++ team.agents ++ team.useCases,
        ((strip value).toList.all fun c => c.toNat < 128) = true ∧
          normalize asciiLower (.str value) = some value := by
    decide +kernel
  intro value hv
  obtain ⟨hascii, hnorm⟩ := hteams team hteam value hv
  exact owner_of_ascii h hascii hnorm

theorem Owned.eq_ofAttribution {o : PlanOptions} {team : TeamProfile} {call : PlannedCall}
    (h : Owned o team call) :
    call = PlannedCall.ofAttribution call.owner call.model call.prompt := by
  obtain ⟨agent, _, hagent⟩ := h.agent
  obtain ⟨useCase, _, huse⟩ := h.useCase
  obtain ⟨model, prompt, team', project, agentId, useCase'⟩ := call
  obtain rfl : team' = some team.name := h.team_eq
  obtain rfl : project = some team.project := h.project_eq
  obtain rfl : agentId = some agent := hagent
  obtain rfl : useCase' = some useCase := huse
  rfl

theorem Owned.owner {o : PlanOptions} {team : TeamProfile} {call : PlannedCall}
    (h : Owned o team call) (hascii : AsciiCase lower) (hteam : team ∈ TEAMS) :
    ∀ dimension ∈ DIMENSION_KEYS, Owner lower (call.owner.owner dimension) := by
  obtain ⟨agent, hagent, hagentId⟩ := h.agent
  obtain ⟨useCase, huse, huseCase⟩ := h.useCase
  have hall := owner_of_mem_teams hascii hteam
  have howner : call.owner = ⟨team.name, team.project, agent, useCase⟩ := by
    rw [PlannedCall.owner, h.team_eq, h.project_eq, hagentId, huseCase]
    rfl
  intro dimension hdim
  rw [howner]
  simp only [DIMENSION_KEYS, List.mem_cons, List.not_mem_nil, or_false] at hdim
  rcases hdim with rfl | rfl | rfl | rfl
  · exact hall team.name (by simp)
  · exact hall team.project (by simp)
  · exact hall agent (by simp [hagent])
  · exact hall useCase (by simp [huse])

/-- **A call of a team is its team's**, whatever the metadata of its key. -/
theorem resolveAttribution_owned (hlower : LowerCase lower) (hascii : AsciiCase lower)
    {o : PlanOptions} {team : TeamProfile} {call : PlannedCall} (hteam : team ∈ TEAMS)
    (h : Owned o team call) :
    resolveAttribution lower (call.tags.map .str) metadata = call.owner := by
  have howner := h.owner hascii hteam
  have hfound : ∀ key ∈ DIMENSION_KEYS,
      (parseTagList lower (call.tags.map .str)).get? key = some (call.owner.owner key) := by
    intro key hkey
    rw [get?_parseTagList, h.eq_ofAttribution, tags_ofAttribution, List.map_map]
    exact findSome?_tags hlower hkey fun k hk => ⟨hk, howner k hk⟩
  refine eq_of_owner_eq fun key hkey => ?_
  have hno : ¬(key = TEAM ∧ AliasOverrides lower (call.tags.map .str) metadata) := by
    rintro ⟨rfl, hassert, _⟩
    rw [asserted, hfound TEAM hkey] at hassert
    have hname : call.owner.owner TEAM = team.name := congrArg (Option.getD · _) h.team_eq
    have hne : ∀ team ∈ TEAMS, team.name ≠ UNATTRIBUTED := by decide
    exact hne team hteam (hname.symm.trans (Option.some.inj hassert))
  rw [(owner_eq_iff hkey).mpr hno, hfound key hkey, Option.getD_some]

/-- **A call of nobody is nobody's**, when the metadata of its key name nobody. -/
theorem resolveAttribution_untagged
    (h : ∀ key ∈ DIMENSION_KEYS ++ TEAM_ALIAS_KEYS, fromMetadata lower metadata key = none) :
    resolveAttribution lower [] metadata = {} := by
  have halias : teamFromKeyAlias lower metadata = none :=
    List.findSome?_eq_none_iff.mpr fun key hkey => h key (List.mem_append_right _ hkey)
  have hno : ∀ key ∈ DIMENSION_KEYS, asserted lower [] metadata key = none :=
    fun key hkey => h key (List.mem_append_left _ hkey)
  refine eq_of_owner_eq fun key hkey => ?_
  by_cases hteam : key = TEAM
  · subst hteam
    rw [team_resolveAttribution, hno TEAM hkey, halias]
    rfl
  · rw [owner_resolveAttribution hkey hteam, hno key hkey]
    simp only [DIMENSION_KEYS, List.mem_cons, List.not_mem_nil, or_false] at hkey
    rcases hkey with rfl | rfl | rfl | rfl <;> rfl

theorem attribution_of_toRecord {row : SpendLog} {now : Instant} {record : CostRecord}
    {tags : List String} (htags : asTagList loads row.requestTags = .ok tags)
    (h : toRecord loads lower num row now = .ok record) :
    ∃ fields, asMapping loads row.metadata = .ok fields ∧
      record.attribution = resolveAttribution lower (tags.map .str) fields := by
  unfold toRecord at h
  cases hm : asMapping loads row.metadata with
  | error e => rw [hm] at h; cases h
  | ok fields =>
    rw [hm, htags] at h
    cases h
    exact ⟨fields, rfl, rfl⟩

theorem apiKey_of_untagged (o : DemoOptions) (minted : String → Option String)
    {call : PlannedCall} (h : call.team = none) :
    apiKey o (ensureTeamKeys o minted) call = o.masterKey := by
  have hout : "" ∉ TEAMS.map TeamProfile.name := by decide
  have hnone : (ensureTeamKeys o minted).get? "" = none :=
    Dict.get?_eq_none.mpr fun hmem => hout (Dict.mem_keys_ofKeys.mp hmem)
  rw [apiKey, h, Option.getD_none, Dict.getD, hnone, Option.getD_none]

/-- **The row of a planned call has its owner.** -/
theorem attribution_of_loggedAs (hlower : LowerCase lower) (hascii : AsciiCase lower)
    {stamp : String → Json} {o : DemoOptions} {minted : String → Option String}
    (hmaster : Anonymous loads lower (stamp o.masterKey)) {p : PlanOptions} {call : PlannedCall}
    (hcall : Planned p call) {row : SpendLog}
    (hrow : LoggedAs loads stamp (buildRequestBody call o.maxTokens)
      (apiKey o (ensureTeamKeys o minted) call) row)
    {now : Instant} {record : CostRecord} (h : toRecord loads lower num row now = .ok record) :
    record.attribution = call.owner := by
  obtain ⟨fields, hfields, hrecord⟩ := attribution_of_toRecord hrow.tags h
  rw [requestTags_buildRequestBody] at hrecord
  rw [hrecord]
  cases hcall with
  | burst href hrefers hshare howned hagent =>
    exact resolveAttribution_owned hlower hascii hrefers.mem_teams howned
  | untagged hburst hshare hteam hprompt hmodel hcall =>
    have hnone : call.team = none := by rw [hcall]
    rw [hrow.metadata, apiKey_of_untagged o minted hnone] at hfields
    obtain ⟨fields', hfields', hnobody⟩ := hmaster
    obtain rfl : fields' = fields := Except.ok.inj (hfields'.symm.trans hfields)
    rw [hcall]
    exact resolveAttribution_untagged hnobody
  | tagged hburst hshare hteam howned =>
    exact resolveAttribution_owned hlower hascii hteam howned

end

/-! ### A run of the demo -/

/-- The traffic, the calls that are over with and not logged, the calls of the logged rows,
and the log with its collector. -/
structure Demo where
  traffic : Traffic
  unlogged : List PlannedCall := []
  logged : List PlannedCall := []
  feed : Feed := .start

/-- What happens next: to the traffic, a row for one of the calls that are over with, or the
query or the commit of a cycle of the collector. -/
inductive DemoEvent
  | traffic (e : TrafficEvent)
  | log (i : ℕ) (row : SpendLog)
  | select (poll : Poll)
  | commit

def Traffic.held (s : Traffic) : List PlannedCall :=
  s.calls ++ s.waiting ++ s.admitted ++ s.inFlight

def Traffic.ended (s : Traffic) : TrafficEvent → List PlannedCall
  | .respond i _ => s.inFlight[i]?.toList
  | _ => []

namespace Demo

section

variable (loads : JsonLoads) (lower : String → String) (num : Arith) (batchSize : ℕ)
  (o : DemoOptions)

/-- The proxy writes a row; an id that is taken is refused. -/
def log (i : ℕ) (row : SpendLog) (s : Demo) : Demo :=
  match s.unlogged[i]? with
  | none => s
  | some call =>
    if row.requestId ∈ s.feed.table.rows.map SpendLog.requestId then s
    else { s with
      unlogged := s.unlogged.eraseIdx i
      logged := s.logged ++ [call]
      feed := feedStep loads lower num batchSize s.feed (.insert row) }

def step (s : Demo) : DemoEvent → Demo
  | .traffic e => { s with
      traffic := s.traffic.step num o.toTrafficOptions e
      unlogged := s.unlogged ++ s.traffic.ended e }
  | .log i row => s.log loads lower num batchSize i row
  | .select poll => { s with feed := feedStep loads lower num batchSize s.feed (.select poll) }
  | .commit => { s with feed := feedStep loads lower num batchSize s.feed .commit }

/-- The row of a call is one that the proxy writes of it. -/
def Faithful (stamp : String → Json) (keys : Dict String String) (s : Demo) : DemoEvent → Prop
  | .log i row => ∀ call, s.unlogged[i]? = some call →
      LoggedAs loads stamp (buildRequestBody call o.maxTokens) (apiKey o keys call) row
  | _ => True

end

def start (calls : List PlannedCall) : Demo := { traffic := .start calls }

def owners (s : Demo) : List Attribution :=
  s.feed.process.db.warehouse.rows.map fun row => row.attribution

def unattributed (s : Demo) : ℕ := s.owners.countP (·.team = UNATTRIBUTED)

/-- What a run is to come to, for the calls that were planned. -/
structure Carried (calls : List PlannedCall) (s : Demo) : Prop where
  logged : s.logged.Subperm calls
  each : List.Forall₂ (fun row call => ∀ q ∈ s.feed.process.db.warehouse.rows,
    q.dedupKey = row.requestId → q.attribution = PlannedCall.owner call)
    s.feed.table.rows s.logged
  known : ∀ q ∈ s.feed.process.db.warehouse.rows, ∃ row ∈ s.feed.table.rows,
    q.dedupKey = row.requestId
  owners : s.owners.Subperm (calls.map PlannedCall.owner)
  rows : s.owners.length ≤ s.traffic.report.sent + s.traffic.report.failed
  unattributed : s.unattributed ≤ s.traffic.report.untagged + s.traffic.report.failed
  settled : s.traffic.report.failed = 0 → s.unlogged = [] →
    (∀ row ∈ s.feed.table.rows, Ingested s.feed.process.db row) →
      s.owners.length = s.traffic.report.sent ∧
      s.unattributed = s.traffic.report.untagged ∧
      (s.traffic.Done → s.traffic.report.abortedReason = none →
        s.owners.Perm (calls.map PlannedCall.owner))

/-! ### Where the calls are -/

/-- Nobody's call. -/
def untagged (call : PlannedCall) : Bool := !call.isTagged

/-- What each event keeps. -/
structure Kept (loads : JsonLoads) (lower : String → String) (num : Arith)
    (calls : List PlannedCall) (s : Demo) : Prop where
  held : ∀ p : PlannedCall → Bool,
    (s.traffic.held ++ s.unlogged ++ s.logged).countP p ≤ calls.countP p
  unaborted : s.traffic.report.abortedReason = none → s.traffic.stopped = false ∧
    ∀ p, (s.traffic.held ++ s.unlogged ++ s.logged).countP p = calls.countP p
  ended : (s.unlogged ++ s.logged).length = s.traffic.report.sent + s.traffic.report.failed
  least : s.traffic.report.untagged ≤ (s.unlogged ++ s.logged).countP untagged
  most : (s.unlogged ++ s.logged).countP untagged ≤
    s.traffic.report.untagged + s.traffic.report.failed
  rows : List.Forall₂ (fun row call => ∀ now record,
    toRecord loads lower num row now = .ok record → record.attribution = PlannedCall.owner call)
    s.feed.table.rows s.logged

theorem countP_eraseIdx {l : List PlannedCall} {i : ℕ} {call : PlannedCall}
    (h : l[i]? = some call) (p : PlannedCall → Bool) :
    (l.eraseIdx i).countP p + [call].countP p = l.countP p := by
  obtain ⟨hi, rfl⟩ := List.getElem?_eq_some_iff.mp h
  rw [← List.countP_append]
  exact ((List.perm_append_comm.trans (List.getElem_cons_eraseIdx_perm hi)).countP_eq p)

section

variable {num : Arith} {options : TrafficOptions} {s : Traffic} {e : TrafficEvent}

/-- **No call is held twice**, and none is dropped but by an abort. -/
theorem held_traffic_step :
    ((∀ p, (s.step num options e).held.countP p + (s.ended e).countP p = s.held.countP p) ∧
        (s.step num options e).report.abortedReason = s.report.abortedReason ∧
        (s.step num options e).stopped = s.stopped) ∨
      ((∀ p, (s.step num options e).held.countP p + (s.ended e).countP p ≤ s.held.countP p) ∧
        (s.step num options e).report.abortedReason ≠ none) := by
  cases e with
  | produce =>
    simp only [Traffic.step, Traffic.ended, Traffic.produce]
    split
    · exact .inl ⟨fun p => rfl, rfl, rfl⟩
    rename_i call rest hcalls
    split
    · exact .inl ⟨fun p => rfl, rfl, rfl⟩
    split
    · exact .inr ⟨fun p => le_rfl, Option.some_ne_none _⟩
    · refine .inl ⟨fun p => ?_, rfl, rfl⟩
      simp only [Traffic.held, hcalls, List.countP_append, List.countP_cons, List.countP_nil]
      omega
  | acquire i =>
    simp only [Traffic.step, Traffic.ended, Traffic.acquire]
    split
    · exact .inl ⟨fun p => rfl, rfl, rfl⟩
    rename_i call hcall
    split
    · refine .inl ⟨fun p => ?_, rfl, rfl⟩
      have herase := countP_eraseIdx hcall p
      simp only [Traffic.held, List.countP_append, List.countP_nil]
      omega
    · exact .inl ⟨fun p => rfl, rfl, rfl⟩
  | dispatch i =>
    simp only [Traffic.step, Traffic.ended, Traffic.dispatch]
    split
    · exact .inl ⟨fun p => rfl, rfl, rfl⟩
    rename_i call hcall
    split
    · refine .inr ⟨fun p => ?_, Option.some_ne_none _⟩
      have herase := countP_eraseIdx hcall p
      simp only [Traffic.held, List.countP_append, List.countP_nil]
      omega
    · refine .inl ⟨fun p => ?_, rfl, rfl⟩
      have herase := countP_eraseIdx hcall p
      simp only [Traffic.held, List.countP_append, List.countP_nil]
      omega
  | respond i response =>
    simp only [Traffic.step, Traffic.ended, Traffic.respond]
    cases hcall : s.inFlight[i]? with
    | none => exact .inl ⟨fun p => rfl, rfl, rfl⟩
    | some call =>
      refine .inl ⟨fun p => ?_, ?_, rfl⟩
      · have herase := countP_eraseIdx hcall p
        simp only [Traffic.held, List.countP_append, Option.toList_some]
        omega
      · cases response <;> rfl

theorem report_of_not_respond (h : ∀ i response, e ≠ .respond i response) :
    (s.step num options e).report = s.report ∨
      (s.step num options e).report = Traffic.abort s.report := by
  cases e with
  | produce =>
    show (s.produce options).report = s.report ∨
      (s.produce options).report = Traffic.abort s.report
    unfold Traffic.produce
    split
    · exact .inl rfl
    split
    · exact .inl rfl
    split
    · exact .inr rfl
    · exact .inl rfl
  | acquire i =>
    show (s.acquire options i).report = s.report ∨
      (s.acquire options i).report = Traffic.abort s.report
    unfold Traffic.acquire
    split
    · exact .inl rfl
    split
    · exact .inl rfl
    · exact .inl rfl
  | dispatch i =>
    show (s.dispatch options i).report = s.report ∨
      (s.dispatch options i).report = Traffic.abort s.report
    unfold Traffic.dispatch
    split
    · exact .inl rfl
    split
    · exact .inr rfl
    · exact .inl rfl
  | respond i response => exact absurd rfl (h i response)

/-- How a report changes when the calls of `ended` end. -/
structure Reported (ended : List PlannedCall) (before after : TrafficReport) : Prop where
  counted : after.sent + after.failed = before.sent + before.failed + ended.length
  least : after.untagged ≤ before.untagged + ended.countP untagged
  most : before.untagged + before.failed + ended.countP untagged ≤ after.untagged + after.failed

theorem reported_sendOne (call : PlannedCall) (response : Response) (report : TrafficReport) :
    Reported [call] report (sendOne num call response report) := by
  cases response with
  | httpError =>
    have hle := List.countP_le_length (p := untagged) (l := [call])
    exact ⟨by simp only [sendOne, List.length_singleton]; omega, Nat.le_add_right _ _,
      by simp only [sendOne, List.length_singleton] at hle ⊢; omega⟩
  | cost usd =>
    cases h : call.isTagged with
    | true =>
      have hzero : [call].countP untagged = 0 := by simp [untagged, h]
      refine ⟨?_, ?_, ?_⟩ <;>
      · simp only [sendOne, h, hzero, List.length_singleton, if_true]
        omega
    | false =>
      have hone : [call].countP untagged = 1 := by simp [untagged, h]
      refine ⟨?_, ?_, ?_⟩ <;>
      · simp only [sendOne, h, hone, List.length_singleton, Bool.false_eq_true, if_false]
        omega

/-- **Each call that ends is reported**, and an untagged one as such unless it failed. -/
theorem reported_step : Reported (s.ended e) s.report (s.step num options e).report := by
  have hquiet : (∀ i response, e ≠ .respond i response) → s.ended e = [] →
      Reported (s.ended e) s.report (s.step num options e).report := by
    intro hne hended
    rw [hended]
    rcases @report_of_not_respond num options s e hne with h | h
    · rw [h]
      exact ⟨rfl, le_rfl, le_rfl⟩
    · rw [h]
      exact ⟨rfl, le_rfl, le_rfl⟩
  cases e with
  | produce => exact hquiet (fun i response h => by cases h) rfl
  | acquire i => exact hquiet (fun i response h => by cases h) rfl
  | dispatch i => exact hquiet (fun i response h => by cases h) rfl
  | respond i response =>
    show Reported s.inFlight[i]?.toList s.report (s.respond num i response).report
    unfold Traffic.respond
    cases hcall : s.inFlight[i]? with
    | none => exact ⟨rfl, le_rfl, le_rfl⟩
    | some call => exact reported_sendOne call response s.report

end

/-! ### What an event does -/

variable {loads : JsonLoads} {lower : String → String} {num : Arith} {batchSize : ℕ}
  {o : DemoOptions} {stamp : String → Json} {keys : Dict String String}
  {calls : List PlannedCall} {s : Demo} {e : DemoEvent}

theorem Kept.mem_of_unlogged (h : Kept loads lower num calls s) {call : PlannedCall}
    (hcall : call ∈ s.unlogged) : call ∈ calls := by
  have hpos : 0 < (s.traffic.held ++ s.unlogged ++ s.logged).countP (· = call) :=
    List.countP_pos_iff.mpr ⟨call, List.mem_append_left _ (List.mem_append_right _ hcall),
      decide_eq_true rfl⟩
  obtain ⟨call', hmem, heq⟩ := List.countP_pos_iff.mp (hpos.trans_le (h.held _))
  rwa [of_decide_eq_true heq] at hmem

theorem table_feedStep {f : Feed} {step : FeedStep} (h : ∀ row, step ≠ .insert row) :
    (feedStep loads lower num batchSize f step).table = f.table := by
  cases step with
  | insert row => exact absurd rfl (h row)
  | select poll =>
    cases hr : f.pending with
    | none => rw [feedStep_select hr]
    | some r => rw [feedStep_select_busy hr]
  | commit =>
    cases hr : f.pending with
    | none => rw [feedStep_commit_idle hr]
    | some r => rw [feedStep_commit hr]

/-- **Each event keeps the account.** -/
theorem kept_step
    (hown : ∀ call ∈ calls, ∀ row, LoggedAs loads stamp (buildRequestBody call o.maxTokens)
      (apiKey o keys call) row → ∀ now record,
        toRecord loads lower num row now = .ok record → record.attribution = call.owner)
    (h : Kept loads lower num calls s) (he : s.Faithful loads o stamp keys e) :
    Kept loads lower num calls (s.step loads lower num batchSize o e) := by
  cases e with
  | traffic e =>
    obtain ⟨hcounted, hleast, hmost⟩ :=
      @reported_step num o.toTrafficOptions s.traffic e
    have hended := h.ended
    have hl := h.least
    have hm := h.most
    simp only [List.length_append, List.countP_append] at hended hl hm
    refine ⟨fun p => ?_, fun hreason => ?_, ?_, ?_, ?_, h.rows⟩
    · have hheld := h.held p
      simp only [step, List.countP_append] at hheld ⊢
      rcases @held_traffic_step num o.toTrafficOptions s.traffic e with ⟨hstep, _⟩ | ⟨hstep, _⟩
      · have hp := hstep p
        omega
      · have hp := hstep p
        omega
    · rcases @held_traffic_step num o.toTrafficOptions s.traffic e with
        ⟨hstep, hsame, hstopped⟩ | ⟨_, hne⟩
      · obtain ⟨hrunning, hall⟩ := h.unaborted (hsame.symm.trans hreason)
        refine ⟨hstopped.trans hrunning, fun p => ?_⟩
        have hp := hstep p
        have hheld := hall p
        simp only [step, List.countP_append] at hheld ⊢
        omega
      · exact absurd hreason hne
    · simp only [step, List.length_append]
      omega
    · simp only [step, List.countP_append]
      omega
    · simp only [step, List.countP_append]
      omega
  | log i row =>
    show Kept loads lower num calls (s.log loads lower num batchSize i row)
    unfold log
    split
    · exact h
    rename_i call hcall
    split
    · exact h
    rename_i hfresh
    have hmoved : ∀ p : PlannedCall → Bool, (s.unlogged.eraseIdx i).countP p +
        (s.logged ++ [call]).countP p = s.unlogged.countP p + s.logged.countP p := by
      intro p
      have herase := countP_eraseIdx hcall p
      rw [List.countP_append]
      omega
    have hended := h.ended
    have hl := h.least
    have hm := h.most
    have htrue := hmoved fun _ => true
    simp only [List.length_append, List.countP_append, List.countP_true] at hended hl hm htrue
    refine ⟨fun p => ?_, fun hreason => ⟨(h.unaborted hreason).1, fun p => ?_⟩, ?_, ?_, ?_, ?_⟩
    · have hheld := h.held p
      have hp := hmoved p
      simp only [List.countP_append] at hheld hp ⊢
      omega
    · have hheld := (h.unaborted hreason).2 p
      have hp := hmoved p
      simp only [List.countP_append] at hheld hp ⊢
      omega
    · simp only [List.length_append]
      omega
    · have hp := hmoved untagged
      simp only [List.countP_append] at hp ⊢
      omega
    · have hp := hmoved untagged
      simp only [List.countP_append] at hp ⊢
      omega
    · have hmem := h.mem_of_unlogged (List.mem_of_getElem? hcall)
      show List.Forall₂ _ (s.feed.table.insert row).rows (s.logged ++ [call])
      rw [rows_insert hfresh]
      exact List.rel_append h.rows (.cons (hown call hmem row (he call hcall)) .nil)
  | select poll =>
    refine ⟨h.held, h.unaborted, h.ended, h.least, h.most, ?_⟩
    show List.Forall₂ _ (feedStep loads lower num batchSize s.feed (.select poll)).table.rows _
    rw [table_feedStep fun row h => by cases h]
    exact h.rows
  | commit =>
    refine ⟨h.held, h.unaborted, h.ended, h.least, h.most, ?_⟩
    show List.Forall₂ _ (feedStep loads lower num batchSize s.feed .commit).table.rows _
    rw [table_feedStep fun row h => by cases h]
    exact h.rows

theorem kept_start : Kept loads lower num calls (start calls) where
  held p := by simp [start, Traffic.start, Traffic.held]
  unaborted _ := ⟨rfl, fun p => by simp [start, Traffic.start, Traffic.held]⟩
  ended := rfl
  least := le_rfl
  most := le_rfl
  rows := .nil

theorem exists_feed_steps (events : List DemoEvent) : ∃ steps : List FeedStep,
    (after (step loads lower num batchSize o) (start calls) events).feed =
      after (feedStep loads lower num batchSize) .start steps := by
  refine invariant (I := fun s : Demo => ∃ steps : List FeedStep,
    s.feed = after (feedStep loads lower num batchSize) .start steps) (fun s e h => ?_)
    ⟨[], rfl⟩
  obtain ⟨steps, hsteps⟩ := h
  have hmore : ∀ fs : FeedStep, ∃ steps' : List FeedStep,
      feedStep loads lower num batchSize s.feed fs =
        after (feedStep loads lower num batchSize) .start steps' := by
    intro fs
    refine ⟨steps ++ [fs], ?_⟩
    rw [after_append, ← hsteps]
    rfl
  cases e with
  | traffic e => exact ⟨steps, hsteps⟩
  | log i row =>
    show ∃ steps : List FeedStep, (s.log loads lower num batchSize i row).feed = _
    unfold log
    split
    · exact ⟨steps, hsteps⟩
    split
    · exact ⟨steps, hsteps⟩
    · exact hmore (.insert row)
  | select poll => exact hmore (.select poll)
  | commit => exact hmore .commit

/-! ### What the warehouse has -/

/-- The records that are made of some rows have owners among those of the rows' calls, and all
of them when every row has one. -/
theorem attributions_of_forall₂ {made : SpendLog → Option CostRecord} {rows : List SpendLog}
    {calls : List PlannedCall}
    (h : List.Forall₂ (fun row call => ∀ record, made row = some record →
      record.attribution = PlannedCall.owner call) rows calls) :
    ((rows.filterMap made).map CostRecord.attribution).Sublist (calls.map PlannedCall.owner) ∧
      ((∀ row ∈ rows, (made row).isSome) →
        (rows.filterMap made).map CostRecord.attribution = calls.map PlannedCall.owner) := by
  induction h with
  | nil => exact ⟨.slnil, fun _ => rfl⟩
  | @cons row call rows calls hrow _ ih =>
    rw [List.map_cons]
    cases hmade : made row with
    | none =>
      rw [List.filterMap_cons_none hmade]
      refine ⟨ih.1.cons _, fun hall => ?_⟩
      have hsome := hall row List.mem_cons_self
      rw [hmade] at hsome
      cases hsome
    | some record =>
      rw [List.filterMap_cons_some hmade, List.map_cons, hrow record hmade]
      refine ⟨ih.1.cons_cons _, fun hall => ?_⟩
      rw [ih.2 fun row' h => hall row' (List.mem_cons_of_mem _ h)]

/-- **A row of the warehouse has the owner of the call it was logged for.** -/
theorem attribution_of_kept (h : Kept loads lower num calls s) {steps : List FeedStep}
    (hcopies : Copies loads lower num steps s.feed) :
    List.Forall₂ (fun row call => ∀ q ∈ s.feed.process.db.warehouse.rows,
      q.dedupKey = row.requestId → q.attribution = PlannedCall.owner call)
      s.feed.table.rows s.logged := by
  have hmem := List.forall₂_iff_get.mp h.rows
  refine List.forall₂_iff_get.mpr ⟨hmem.1, fun i hi hi' q hq hkey => ?_⟩
  obtain ⟨row, hrow, poll, _, record, hmade, hstored⟩ := hcopies q hq
  have hid := dedupKey_of_made hmade hstored
  have heq := eq_of_requestId_eq hrow (List.get_mem _ _) (hid.symm.trans hkey)
  have hown := hmem.2 i hi hi' (poll.clock row.requestId) record (heq ▸ hmade)
  rw [← hown]
  exact (congrArg CostRecord.attribution hstored).trans rfl

/-- **The owners of the warehouse are those of logged calls**, of all of them when all rows
are ingested. -/
theorem owners_of_kept (h : Kept loads lower num calls s) {steps : List FeedStep}
    (hsteps : s.feed = after (feedStep loads lower num batchSize) .start steps) :
    ∃ found : List Attribution, s.owners.Perm found ∧
      found.Sublist (s.logged.map PlannedCall.owner) ∧
      ((∀ row ∈ s.feed.table.rows, Ingested s.feed.process.db row) →
        found = s.logged.map PlannedCall.owner) := by
  have hcopies : Copies loads lower num steps s.feed := hsteps ▸ copies_after steps
  obtain ⟨readAt, _, hread⟩ := exists_readAt hcopies
  have hperm := warehouse_perm_logged hcopies hread
  rw [loggedRecords, List.filterMap_filter] at hperm
  have hmade : List.Forall₂ (fun row call => ∀ record,
      (if decide (Ingested s.feed.process.db row) = true then
        loggedRecord loads lower num readAt row else none) = some record →
          record.attribution = PlannedCall.owner call)
      s.feed.table.rows s.logged := by
    refine h.rows.imp fun row call hrow record hrecord => ?_
    split at hrecord
    · unfold loggedRecord at hrecord
      split at hrecord
      · rename_i made hmade
        rw [← Option.some.inj hrecord]
        exact hrow _ made hmade
      · cases hrecord
    · cases hrecord
  obtain ⟨hsub, hall⟩ := attributions_of_forall₂ hmade
  refine ⟨_, ?_, hsub, fun hin => hall fun row hrow => ?_⟩
  · have hmap := hperm.map CostRecord.attribution
    rwa [List.map_map] at hmap
  · have hrow' := hin row hrow
    obtain ⟨q, hq, hkey⟩ := (ingested_iff_of_copies hcopies).mp hrow'
    rw [if_pos (decide_eq_true hrow'), hread row hrow q hq hkey]
    rfl

theorem unattributed_iff_of_owned {p : PlanOptions} {team : TeamProfile} {call : PlannedCall}
    (hteam : team ∈ TEAMS) (h : Owned p team call) :
    call.owner.team = UNATTRIBUTED ↔ untagged call = true := by
  have hne : ∀ team ∈ TEAMS, team.name ≠ UNATTRIBUTED := by decide
  have hname : call.owner.team = team.name := congrArg (Option.getD · _) h.team_eq
  have htagged : untagged call = false := by
    rw [untagged, PlannedCall.isTagged, h.team_eq]
    rfl
  rw [hname, htagged]
  exact iff_of_false (hne team hteam) Bool.false_ne_true

theorem unattributed_iff_untagged {p : PlanOptions} {call : PlannedCall} (h : Planned p call) :
    call.owner.team = UNATTRIBUTED ↔ untagged call = true := by
  cases h with
  | burst href hrefers hshare howned hagent =>
    exact unattributed_iff_of_owned hrefers.mem_teams howned
  | untagged hburst hshare hteam hprompt hmodel hcall =>
    rw [hcall]
    exact iff_of_true rfl rfl
  | tagged hburst hshare hteam howned => exact unattributed_iff_of_owned hteam howned

theorem carried_of_kept (h : Kept loads lower num calls s) {p : PlanOptions}
    (hplanned : ∀ call ∈ calls, Planned p call) {steps : List FeedStep}
    (hsteps : s.feed = after (feedStep loads lower num batchSize) .start steps) :
    Carried calls s := by
  obtain ⟨found, hperm, hsub, hall⟩ := owners_of_kept h hsteps
  have hcopies : Copies loads lower num steps s.feed := hsteps ▸ copies_after steps
  have hknown : ∀ q ∈ s.feed.process.db.warehouse.rows, ∃ row ∈ s.feed.table.rows,
      q.dedupKey = row.requestId := by
    intro q hq
    obtain ⟨row, hrow, _, _, _, hmade, hstored⟩ := hcopies q hq
    exact ⟨row, hrow, dedupKey_of_made hmade hstored⟩
  have hlogged : s.logged.Subperm calls := by
    refine List.subperm_ext_iff.mpr fun call _ => ?_
    have hheld := h.held (· == call)
    rw [List.countP_append] at hheld
    exact (Nat.le_add_left _ _).trans hheld
  have hcount : (s.logged.map PlannedCall.owner).countP (·.team = UNATTRIBUTED) =
      s.logged.countP untagged := by
    rw [List.countP_map]
    refine List.countP_congr fun call hcall => ?_
    simp only [Function.comp_apply, decide_eq_true_eq]
    exact unattributed_iff_untagged (hplanned call (hlogged.subset hcall))
  have hended := h.ended
  have hmost := h.most
  have hleast := h.least
  have hlength : s.owners.length ≤ s.logged.length := by
    rw [hperm.length_eq]
    have hle := hsub.length_le
    rwa [List.length_map] at hle
  have hnobody : s.unattributed ≤ s.logged.countP untagged := by
    rw [unattributed, hperm.countP_eq, ← hcount]
    exact hsub.countP_le
  rw [List.length_append] at hended
  rw [List.countP_append] at hmost hleast
  refine ⟨hlogged, attribution_of_kept h hcopies, hknown, ?_, by omega, by omega,
    fun hfailed hunlogged hin => ?_⟩
  · obtain ⟨some, hsome, hcalls⟩ := hlogged
    have hplanned : (s.logged.map PlannedCall.owner).Subperm (calls.map PlannedCall.owner) :=
      ⟨some.map PlannedCall.owner, hsome.map _, hcalls.map _⟩
    exact (hperm.subperm.trans hsub.subperm).trans hplanned
  · have hfound := hall hin
    rw [hunlogged, List.countP_nil, Nat.zero_add] at hmost hleast
    rw [hunlogged, List.length_nil, Nat.zero_add] at hended
    refine ⟨?_, ?_, fun hdone hreason => ?_⟩
    · rw [hperm.length_eq, hfound, List.length_map]
      omega
    · rw [unattributed, hperm.countP_eq, hfound, hcount]
      omega
    · obtain ⟨hproducer, hwaiting, hadmitted, hflight⟩ := hdone
      obtain ⟨hrunning, hcalls⟩ := h.unaborted hreason
      have hempty : s.traffic.calls = [] := hproducer.resolve_right (by rw [hrunning]; decide)
      have hlength : s.logged.length = calls.length := by
        have hall := hcalls fun _ => true
        rwa [Traffic.held, hempty, hwaiting, hadmitted, hflight, hunlogged,
          List.countP_true] at hall
      rw [hfound] at hperm
      exact hperm.trans ((hlogged.perm_of_length_le hlength.ge).map _)

/-- **What was planned is what the warehouse says.**  In any order of the traffic, the rows
of the proxy and the cycles of the collector, the warehouse has at most one row for each
planned call, with the owner it was planned for, and nobody owns more rows than the report
has untagged and failed calls.  Once nothing is under way the two agree. -/
theorem demo_accounted {σ : Type} (g : Generator σ) (loads : JsonLoads)
    (lower : String → String) (num : Arith) (batchSize : ℕ) (o : DemoOptions)
    (minted : String → Option String) (stamp : String → Json) (hlower : LowerCase lower)
    (hascii : AsciiCase lower) (hmaster : Anonymous loads lower (stamp o.masterKey))
    {calls : List PlannedCall} (hplan : planCalls g .cpython o.count o.seed o.plan = .ok calls)
    {events : List DemoEvent}
    (hlog : Along (step loads lower num batchSize o)
      (Faithful loads o stamp (ensureTeamKeys o minted)) (start calls) events) :
    Carried calls (after (step loads lower num batchSize o) (start calls) events) := by
  obtain ⟨calls', hplan', _, hplanned⟩ :=
    @planCalls_of_plannable _ g _ _ positive_cpython _ (plannable_of_planCalls hplan) o.seed
  obtain rfl : calls = calls' := Except.ok.inj (hplan.symm.trans hplan')
  have hkept : Kept loads lower num calls
      (after (step loads lower num batchSize o) (start calls) events) := by
    refine invariant_of_along (fun s e h he => kept_step (fun call hcall row hrow now record => ?_)
      h he) kept_start hlog
    exact attribution_of_loggedAs hlower hascii hmaster (hplanned call hcall) hrow
  obtain ⟨steps, hsteps⟩ := @exists_feed_steps loads lower num batchSize o calls events
  exact carried_of_kept hkept hplanned hsteps

/-! Two calls, the first of them nobody's. -/

/-- Draws a half at the third draw and zero at all others. -/
def thirdHalf : Generator ℕ where
  seed _ := 0
  random s := (if s = 2 then 1 / 2 else 0, s + 1)
  below _ s := (0, s)
  random_nonneg s := by dsimp only; split <;> norm_num
  random_lt_one s := by dsimp only; split <;> norm_num
  below_lt _ _ h := h

def twoPlanned : DemoOptions where
  masterKey := "sk-master"
  count := 2

/-- The metadata of a key: the master key has no alias. -/
def stampAlias (key : String) : Json :=
  .obj [("user_api_key_alias", if key = "sk-master" then .null else .str "team-support-bot"),
    ("user_api_key_team_alias", .null)]

def plannedPair : List PlannedCall := [
  { model := MOCK_MODEL, prompt := "Summarize the following support ticket in one sentence." },
  { model := MOCK_MODEL, prompt := "Summarize the following support ticket in one sentence."
    team := some "support-bot", project := some "customer-support", agentId := some "triage"
    useCase := some "ticket-triage" }]

/-- Both are sent and logged, the second first, and the first while a cycle is under way. -/
def bothLogged : List DemoEvent := [
  .traffic .produce, .traffic .produce, .traffic (.acquire 0), .traffic (.acquire 0),
  .traffic (.dispatch 0), .traffic (.dispatch 0), .traffic (.respond 1 (.cost 0)),
  .traffic (.respond 0 (.cost 0)),
  .log 1 { requestId := "req-1", startTime := some 1, metadata := stampAlias "sk-master" },
  .select {},
  .log 0 { requestId := "req-2", startTime := some 2
           requestTags := .arr [.str "team:support-bot", .str "project:customer-support",
             .str "agent_id:triage", .str "use_case:ticket-triage"]
           metadata := stampAlias "sk-team" },
  .commit, .select {}, .commit]

theorem demo_accounted_pair :
    planCalls thirdHalf .cpython twoPlanned.count twoPlanned.seed twoPlanned.plan =
        .ok plannedPair ∧
      Carried plannedPair (after (step plainLoads asciiLower .exact
        DEFAULT_BATCH_SIZE twoPlanned) (start plannedPair) bothLogged) := by
  have hplan : planCalls thirdHalf .cpython twoPlanned.count twoPlanned.seed twoPlanned.plan =
      .ok plannedPair := by decide +kernel
  refine ⟨hplan, demo_accounted thirdHalf plainLoads asciiLower .exact
    DEFAULT_BATCH_SIZE twoPlanned (fun _ => some "sk-team") stampAlias lowerCase_asciiLower
    (fun _ _ => rfl) ⟨_, rfl, by decide +kernel⟩ hplan ?_⟩
  refine ⟨trivial, trivial, trivial, trivial, trivial, trivial, trivial, trivial, ?_, trivial, ?_,
    trivial, trivial, trivial, trivial⟩
  · intro call h
    cases h
    exact ⟨rfl, rfl⟩
  · intro call h
    cases h
    exact ⟨rfl, rfl⟩

end Demo

end Finops
