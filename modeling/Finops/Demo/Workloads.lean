import Finops.Attribution.Engine
import Finops.Attribution.Resolution
import Finops.Demo.Traffic

/-!
# The tags of a planned call

A call that has a team is sent with its owners as `key:value` tags.  An owner that
`resolveAttribution` gives is trimmed and in lower case (`Owner`), so its tag names it
(`readTag_tag`), and the tags of a call with such owners resolve to these owners again
(`resolveAttribution_tags`).
-/

namespace Finops

def PlannedCall.tags (call : PlannedCall) : List String :=
  if call.isTagged then
    ["team:" ++ pyStr call.team, "project:" ++ pyStr call.project,
      "agent_id:" ++ pyStr call.agentId, "use_case:" ++ pyStr call.useCase]
  else []

section

variable {lower : String → String}

/-! ### Owners as texts -/

/-- Trimmed, in lower case and not empty. -/
def Owner (lower : String → String) (value : String) : Prop :=
  normalize lower (.str value) = some value

theorem owner_of_normalize (hlower : LowerCase lower) {value : Json} {cleaned : String}
    (h : normalize lower value = some cleaned) : Owner lower cleaned := by
  cases value with
  | str value =>
    simp only [normalize] at h
    split at h
    · cases h
    · rename_i hne
      cases h
      have hstrip := hlower.trimmed _ (strip_strip value)
      simp only [Owner, normalize, hstrip, hlower.idempotent, if_neg hne]
  | _ => cases h

theorem owner_of_kept (hlower : LowerCase lower) {value : String} (hs : strip value = value)
    (hc : (value.toList.all fun c => c.isLower || c = '_') = true) (hne : value ≠ "") :
    Owner lower value := by
  have hkept : lower value = value := by
    refine hlower.kept value fun c hmem => ?_
    simpa using List.all_eq_true.mp hc c hmem
  simp only [Owner, normalize, hs, hkept, if_neg hne]

theorem owner_unattributed (hlower : LowerCase lower) : Owner lower UNATTRIBUTED :=
  owner_of_kept hlower (by decide) (by decide) (by decide)

theorem owner_of_mem_dimensionKeys (hlower : LowerCase lower) :
    ∀ key ∈ DIMENSION_KEYS, Owner lower key := by
  have hkeys : ∀ key ∈ DIMENSION_KEYS, strip key = key ∧
      (key.toList.all fun c => c.isLower || c = '_') = true ∧ key ≠ "" := by decide
  intro key hk
  obtain ⟨hs, hc, hne⟩ := hkeys key hk
  exact owner_of_kept hlower hs hc hne

theorem owner_getD (hlower : LowerCase lower) {value : Option String}
    (h : ∀ v, value = some v → Owner lower v) : Owner lower (value.getD UNATTRIBUTED) := by
  cases value with
  | none => exact owner_unattributed hlower
  | some v => exact h v rfl

theorem owner_of_fromMetadata (hlower : LowerCase lower)
    {metadata : Option (List (String × Json))} {key value : String}
    (h : fromMetadata lower metadata key = some value) : Owner lower value := by
  cases metadata with
  | none => cases h
  | some fields =>
    obtain ⟨field, _, hn⟩ := Option.bind_eq_some_iff.mp h
    exact owner_of_normalize hlower hn

theorem owner_of_asserted (hlower : LowerCase lower) {tags : List Json}
    {metadata : Option (List (String × Json))} {dimension value : String}
    (h : asserted lower tags metadata dimension = some value) : Owner lower value := by
  unfold asserted at h
  cases hget : (parseTagList lower tags).get? dimension with
  | none =>
    rw [hget] at h
    exact owner_of_fromMetadata hlower h
  | some v =>
    rw [hget] at h
    cases h
    rw [get?_parseTagList] at hget
    obtain ⟨tag, _, hv⟩ := List.exists_of_findSome?_eq_some hget
    obtain ⟨_, _, _, _, _, hn⟩ := (valueOf_eq_some.mp hv).1
    exact owner_of_normalize hlower hn

theorem owner_owner (hlower : LowerCase lower) (tags : List Json)
    (metadata : Option (List (String × Json))) :
    ∀ dimension ∈ DIMENSION_KEYS,
      Owner lower ((resolveAttribution lower tags metadata).owner dimension) := by
  intro dimension hdim
  by_cases hteam : dimension = TEAM
  · subst hteam
    rw [team_resolveAttribution]
    split
    · refine owner_getD hlower fun name hname => ?_
      obtain ⟨key, _, hk⟩ := List.exists_of_findSome?_eq_some hname
      exact owner_of_fromMetadata hlower hk
    · exact owner_getD hlower fun v hv => owner_of_asserted hlower hv
  · rw [owner_resolveAttribution hdim hteam]
    exact owner_getD hlower fun v hv => owner_of_asserted hlower hv

/-! ### The tags read back -/

theorem notMem_colon_of_mem_dimensionKeys :
    ∀ key ∈ DIMENSION_KEYS, TAG_SEPARATOR ∉ key.toList := by decide

theorem readTag_tag (hlower : LowerCase lower) {key value : String} (hk : key ∈ DIMENSION_KEYS)
    (hv : Owner lower value) : readTag lower (.str (key ++ ":" ++ value)) = some (key, value) :=
  readTag_of_names ⟨key, value, rfl, notMem_colon_of_mem_dimensionKeys key hk,
    owner_of_mem_dimensionKeys hlower key hk, hv⟩ hk

def PlannedCall.ofAttribution (a : Attribution) (model prompt : String) : PlannedCall :=
  { model, prompt, team := some a.team, project := some a.project, agentId := some a.agentId,
    useCase := some a.useCase }

theorem tags_ofAttribution (a : Attribution) (model prompt : String) :
    (PlannedCall.ofAttribution a model prompt).tags =
      DIMENSION_KEYS.map fun key => key ++ ":" ++ a.owner key := rfl

theorem findSome?_tags (hlower : LowerCase lower) {owner : String → String} {dimension : String}
    {keys : List String} (hmem : dimension ∈ keys)
    (hkeys : ∀ key ∈ keys, key ∈ DIMENSION_KEYS ∧ Owner lower (owner key)) :
    (keys.map fun key => Json.str (key ++ ":" ++ owner key)).findSome? (valueOf lower dimension) =
      some (owner dimension) := by
  induction keys with
  | nil => exact absurd hmem List.not_mem_nil
  | cons key keys ih =>
    obtain ⟨hk, hv⟩ := hkeys key List.mem_cons_self
    rw [List.map_cons, List.findSome?_cons, valueOf, readTag_tag hlower hk hv, Option.bind_some]
    by_cases heq : key = dimension
    · rw [if_pos heq, heq]
    · rw [if_neg heq]
      exact ih ((List.mem_cons.mp hmem).resolve_left (Ne.symm heq))
        fun k h => hkeys k (List.mem_cons_of_mem key h)

theorem asserted_tags (hlower : LowerCase lower) {a : Attribution}
    (ha : ∀ dimension ∈ DIMENSION_KEYS, Owner lower (a.owner dimension)) (model prompt : String)
    {dimension : String} (hdim : dimension ∈ DIMENSION_KEYS) :
    asserted lower ((PlannedCall.ofAttribution a model prompt).tags.map .str) none dimension =
      some (a.owner dimension) := by
  have hfound := findSome?_tags hlower hdim fun key hk => ⟨hk, ha key hk⟩
  rw [asserted, get?_parseTagList, tags_ofAttribution, List.map_map]
  exact congrArg (Option.orElse · _) hfound

theorem eq_of_owner_eq {a b : Attribution} (h : ∀ key ∈ DIMENSION_KEYS, a.owner key = b.owner key) :
    a = b := by
  obtain ⟨team, project, agentId, useCase⟩ := a
  have hteam : team = b.team := h TEAM (by decide)
  have hproject : project = b.project := h PROJECT (by decide)
  have hagent : agentId = b.agentId := h AGENT_ID (by decide)
  have huse : useCase = b.useCase := h USE_CASE (by decide)
  rw [hteam, hproject, hagent, huse]

/-- **Owners survive being sent as tags.** -/
theorem resolveAttribution_tags (hlower : LowerCase lower) (tags : List Json)
    (metadata : Option (List (String × Json))) (model prompt : String) :
    resolveAttribution lower ((PlannedCall.ofAttribution
        (resolveAttribution lower tags metadata) model prompt).tags.map .str) none =
      resolveAttribution lower tags metadata := by
  have howner := owner_owner hlower tags metadata
  generalize resolveAttribution lower tags metadata = a at howner ⊢
  refine eq_of_owner_eq fun key hkey => ?_
  have hasserted := asserted_tags hlower howner model prompt hkey
  by_cases hteam : key = TEAM
  · subst hteam
    rw [team_resolveAttribution, hasserted, Option.getD_some]
    split
    · rename_i hun
      rw [hun]
      rfl
    · rfl
  · rw [owner_resolveAttribution hkey hteam, hasserted, Option.getD_some]

theorem resolveAttribution_tags_ascii :
    LowerCase asciiLower ∧ resolveAttribution asciiLower ((PlannedCall.ofAttribution
        (resolveAttribution asciiLower [.str " Team : Search: EU "] (some [("project", .str "X")]))
          "mock-gpt" "Draft a reply.").tags.map .str) none =
      { team := "search: eu", project := "x" } :=
  ⟨lowerCase_asciiLower, (resolveAttribution_tags lowerCase_asciiLower _ _ _ _).trans (by decide)⟩

end

end Finops
