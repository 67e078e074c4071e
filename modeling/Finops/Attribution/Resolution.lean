import Finops.Base.Text
import Finops.Attribution.Tags

/-!
# What tags and metadata resolve to

A tag names a value of a key when both stand around its first colon and neither is blank
(`Names`).  `parseTagList` is a loop with a state, and what it leaves under a key is what the
first usable tag of that key names (`get?_parseTagList`), so tags that are skipped may stand
anywhere and tags of different dimensions may change places (`parseTagList_first_usable`).

`resolveAttribution` asks the tags, then the metadata, and for the team the alias of the
virtual key.  It goes to the alias when the team so far is `unattributed`, and that text
may be what a tag or the metadata say: then the alias overrides them, and a tag does not
win over the metadata (`tagsWin_iff`).
-/

namespace Finops

section

variable (lower : String → String)

/-! ### What a tag names -/

/-- The tag names a value of a key, the key before its first colon. -/
def Names (tag : Json) (key value : String) : Prop :=
  ∃ before after, tag = .str (before ++ ":" ++ after) ∧ TAG_SEPARATOR ∉ before.toList ∧
    normalize lower (.str before) = some key ∧ normalize lower (.str after) = some value

/-- The tag is malformed, of an unknown key or without a value. -/
def Skipped (tag : Json) : Prop :=
  ∀ before after, tag = .str (before ++ ":" ++ after) → TAG_SEPARATOR ∉ before.toList →
    (∀ key ∈ DIMENSION_KEYS, normalize lower (.str before) ≠ some key) ∨
      normalize lower (.str after) = none

def dimensionOf (tag : Json) : Option String := (readTag lower tag).map Prod.fst

def valueOf (key : String) (tag : Json) : Option String :=
  (readTag lower tag).bind fun e => if e.1 = key then some e.2 else none

theorem toList_append_colon (before after : String) :
    (before ++ ":" ++ after).toList = before.toList ++ TAG_SEPARATOR :: after.toList := by
  rw [String.toList_append, String.toList_append, List.append_assoc]
  rfl

theorem splitTag_append {before : String} (after : String) (h : TAG_SEPARATOR ∉ before.toList) :
    splitTag (before ++ ":" ++ after) = some (before, after) := by
  obtain ⟨htake, hdrop⟩ := Text.takeWhile_append_cons (m := after.toList) h
  rw [splitTag, toList_append_colon, if_pos (by simp), htake, hdrop, List.tail_cons,
    String.ofList_toList, String.ofList_toList]

theorem splitTag_eq_some {tag before after : String} :
    splitTag tag = some (before, after) ↔
      tag = before ++ ":" ++ after ∧ TAG_SEPARATOR ∉ before.toList := by
  constructor
  · intro h
    rw [splitTag] at h
    split at h
    · rename_i hmem
      obtain ⟨hsplit, hnot⟩ := Text.exists_append_cons hmem
      cases h
      refine ⟨?_, by rwa [String.toList_ofList]⟩
      rw [← String.toList_inj, toList_append_colon, String.toList_ofList, String.toList_ofList]
      exact hsplit.symm
    · cases h
  · rintro ⟨rfl, h⟩
    exact splitTag_append after h

variable {lower}

theorem readTag_of_names {tag : Json} {key value : String} (h : Names lower tag key value)
    (hk : key ∈ DIMENSION_KEYS) : readTag lower tag = some (key, value) := by
  obtain ⟨before, after, rfl, hnot, hkey, hvalue⟩ := h
  simp only [readTag, splitTag_append after hnot, hkey, hvalue, if_pos hk]

theorem names_of_readTag {tag : Json} {key value : String}
    (h : readTag lower tag = some (key, value)) :
    Names lower tag key value ∧ key ∈ DIMENSION_KEYS := by
  unfold readTag at h
  split at h
  · split at h
    · cases h
    · rename_i hsplit
      obtain ⟨rfl, hnot⟩ := splitTag_eq_some.mp hsplit
      split at h
      · rename_i hkey hvalue
        split at h
        · rename_i hk
          cases h
          exact ⟨⟨_, _, rfl, hnot, hkey, hvalue⟩, hk⟩
        · cases h
      · cases h
  · cases h

theorem readTag_eq_some {tag : Json} {key value : String} :
    readTag lower tag = some (key, value) ↔
      Names lower tag key value ∧ key ∈ DIMENSION_KEYS :=
  ⟨names_of_readTag, fun h => readTag_of_names h.1 h.2⟩

theorem readTag_eq_none {tag : Json} : readTag lower tag = none ↔ Skipped lower tag := by
  constructor
  · rintro h before after rfl hnot
    by_contra hc
    push Not at hc
    obtain ⟨⟨key, hk, hkey⟩, hvalue⟩ := hc
    obtain ⟨value, hvalue⟩ := Option.ne_none_iff_exists'.mp hvalue
    rw [readTag_of_names ⟨before, after, rfl, hnot, hkey, hvalue⟩ hk] at h
    cases h
  · intro h
    rw [Option.eq_none_iff_forall_ne_some]
    rintro ⟨key, value⟩ hr
    obtain ⟨⟨before, after, rfl, hnot, hkey, hvalue⟩, hk⟩ := readTag_eq_some.mp hr
    rcases h before after rfl hnot with hkeys | hblank
    · exact hkeys key hk hkey
    · rw [hvalue] at hblank
      cases hblank

theorem valueOf_eq_some {tag : Json} {key value : String} :
    valueOf lower key tag = some value ↔ Names lower tag key value ∧ key ∈ DIMENSION_KEYS := by
  rw [← readTag_eq_some, valueOf]
  constructor
  · intro h
    obtain ⟨⟨k, v⟩, hr, he⟩ := Option.bind_eq_some_iff.mp h
    split at he
    · rename_i hk
      cases he
      rw [hr, ← hk]
    · cases he
  · intro h
    rw [h, Option.bind_some, if_pos rfl]

theorem valueOf_eq_none {tag : Json} {key : String} (h : dimensionOf lower tag ≠ some key) :
    valueOf lower key tag = none := by
  rw [valueOf]
  rw [dimensionOf] at h
  cases hr : readTag lower tag with
  | none => rfl
  | some e =>
    rw [hr] at h
    exact if_neg fun hk => h (congrArg some hk)

/-! ### The loop over the tags -/

variable (lower)

def takeTag (parsed : Dict String String) (tag : Json) : Dict String String :=
  match readTag lower tag with
  | some (key, value) => if key ∈ parsed.keys then parsed else parsed.set key value
  | none => parsed

theorem parseTagList_eq (tags : List Json) :
    parseTagList lower tags = tags.foldl (takeTag lower) Dict.empty := rfl

variable {lower}

theorem takeTag_of_skipped {tag : Json} (h : Skipped lower tag) (parsed : Dict String String) :
    takeTag lower parsed tag = parsed := by
  rw [takeTag, readTag_eq_none.mpr h]

theorem get?_takeTag (parsed : Dict String String) (tag : Json) (key : String) :
    (takeTag lower parsed tag).get? key = (parsed.get? key).or (valueOf lower key tag) := by
  unfold takeTag valueOf
  cases hr : readTag lower tag with
  | none => rw [Option.bind_none, Option.or_none]
  | some e =>
    obtain ⟨k, v⟩ := e
    show Dict.get? (if k ∈ parsed.keys then parsed else parsed.set k v) key =
      (parsed.get? key).or (if k = key then some v else none)
    by_cases hin : k ∈ parsed.keys
    · rw [if_pos hin]
      by_cases hk : k = key
      · obtain ⟨w, hw⟩ := Dict.mem_keys_iff.mp (hk ▸ hin)
        rw [hw, Option.some_or]
      · rw [if_neg hk, Option.or_none]
    · rw [if_neg hin]
      by_cases hk : k = key
      · subst hk
        rw [Dict.get?_set_self, Dict.get?_eq_none.mpr hin, Option.none_or, if_pos rfl]
      · rw [Dict.get?_set_of_ne _ (Ne.symm hk), if_neg hk, Option.or_none]

/-- **What the loop leaves.**  Under each key, what the first usable tag of it says. -/
theorem get?_parseTagList (tags : List Json) (key : String) :
    (parseTagList lower tags).get? key = tags.findSome? (valueOf lower key) := by
  rw [parseTagList_eq]
  induction tags using List.reverseRecOn with
  | nil => rfl
  | append_singleton tags tag ih =>
    rw [List.foldl_append, List.foldl_cons, List.foldl_nil, get?_takeTag, ih,
      List.findSome?_append, List.findSome?_cons, List.findSome?_nil]
    cases valueOf lower key tag <;> rfl

theorem foldl_takeTag_of_skipped {new : List Json} (h : ∀ tag ∈ new, Skipped lower tag)
    (parsed : Dict String String) : new.foldl (takeTag lower) parsed = parsed := by
  induction new generalizing parsed with
  | nil => rfl
  | cons tag new ih =>
    rw [List.foldl_cons, takeTag_of_skipped (h tag List.mem_cons_self),
      ih fun t ht => h t (List.mem_cons_of_mem tag ht)]

theorem findSome?_valueOf_filter (tags : List Json) (key : String) :
    (tags.filter fun tag => dimensionOf lower tag = some key).findSome? (valueOf lower key) =
      tags.findSome? (valueOf lower key) := by
  induction tags with
  | nil => rfl
  | cons tag tags ih =>
    rw [List.filter_cons]
    by_cases h : dimensionOf lower tag = some key
    · rw [if_pos (decide_eq_true h), List.findSome?_cons, List.findSome?_cons, ih]
    · rw [if_neg (by simpa using h), List.findSome?_cons, valueOf_eq_none h, ih]

theorem notMem_keys_of_notMem {tags : List Json} {key : String} (h : key ∉ DIMENSION_KEYS) :
    key ∉ (parseTagList lower tags).keys := by
  rw [← Dict.get?_eq_none, get?_parseTagList, List.findSome?_eq_none_iff]
  intro tag _
  rw [Option.eq_none_iff_forall_ne_some]
  exact fun value hv => h (valueOf_eq_some.mp hv).2

variable (lower)

/-- **The first usable tag of each dimension counts.**  Tags that are skipped may be put in
anywhere, and the tags may be reordered as long as those of one dimension keep their order. -/
theorem parseTagList_first_usable (tags : List Json) :
    (∀ dimension value, (parseTagList lower tags).get? dimension = some value ↔
      dimension ∈ DIMENSION_KEYS ∧ ∃ before tag after, tags = before ++ tag :: after ∧
        Names lower tag dimension value ∧
        ∀ earlier ∈ before, ∀ v, ¬Names lower earlier dimension v) ∧
    (∀ key ∈ (parseTagList lower tags).keys, key ∈ DIMENSION_KEYS) ∧
    (∀ before new after, tags = before ++ after → (∀ tag ∈ new, Skipped lower tag) →
      parseTagList lower (before ++ new ++ after) = parseTagList lower tags) ∧
    (∀ reordered : List Json, (∀ dimension ∈ DIMENSION_KEYS,
        (reordered.filter fun tag => dimensionOf lower tag = some dimension) =
          tags.filter fun tag => dimensionOf lower tag = some dimension) →
      (parseTagList lower reordered).entries.Perm (parseTagList lower tags).entries) := by
  refine ⟨fun dimension value => ?_, fun key hkey => ?_, ?_, fun reordered hsame => ?_⟩
  · rw [get?_parseTagList, List.findSome?_eq_some_iff]
    constructor
    · rintro ⟨before, tag, after, rfl, hv, hbefore⟩
      obtain ⟨hnames, hdim⟩ := valueOf_eq_some.mp hv
      refine ⟨hdim, before, tag, after, rfl, hnames, fun earlier hmem v hn => ?_⟩
      have hnone := hbefore earlier hmem
      rw [valueOf_eq_some.mpr ⟨hn, hdim⟩] at hnone
      cases hnone
    · rintro ⟨hdim, before, tag, after, rfl, hnames, hbefore⟩
      refine ⟨before, tag, after, rfl, valueOf_eq_some.mpr ⟨hnames, hdim⟩, fun earlier hmem => ?_⟩
      rw [Option.eq_none_iff_forall_ne_some]
      exact fun v hv => hbefore earlier hmem v (valueOf_eq_some.mp hv).1
  · by_contra hnot
    exact notMem_keys_of_notMem hnot hkey
  · rintro before new after rfl hskipped
    rw [parseTagList_eq, parseTagList_eq, List.foldl_append, List.foldl_append, List.foldl_append,
      foldl_takeTag_of_skipped hskipped]
  · rw [Dict.entries_perm_iff]
    intro key
    by_cases hkey : key ∈ DIMENSION_KEYS
    · rw [get?_parseTagList, get?_parseTagList, ← findSome?_valueOf_filter reordered,
        hsame key hkey, findSome?_valueOf_filter]
    · rw [Dict.get?_eq_none.mpr (notMem_keys_of_notMem hkey),
        Dict.get?_eq_none.mpr (notMem_keys_of_notMem hkey)]

/-! ### Tags, metadata, alias -/

variable (tags : List Json) (metadata : Option (List (String × Json)))

def Attribution.owner (a : Attribution) (dimension : String) : String :=
  if dimension = TEAM then a.team else if dimension = PROJECT then a.project
  else if dimension = AGENT_ID then a.agentId else a.useCase

def withoutTag (dimension : String) : String :=
  match fromMetadata lower metadata dimension with
  | some value => value
  | none =>
    if dimension = TEAM then (teamFromKeyAlias lower metadata).getD UNATTRIBUTED
    else UNATTRIBUTED

/-- Tags come before the metadata, whichever of two metadata come with them. -/
structure TagsWin (m m' : Option (List (String × Json))) : Prop where
  tagged : ∀ dimension ∈ DIMENSION_KEYS, ∀ value,
    (parseTagList lower tags).get? dimension = some value →
      (resolveAttribution lower tags m).owner dimension = value ∧
      (resolveAttribution lower tags m').owner dimension = value
  untagged : ∀ dimension ∈ DIMENSION_KEYS, (parseTagList lower tags).get? dimension = none →
    (resolveAttribution lower tags m).owner dimension = withoutTag lower m dimension ∧
    (resolveAttribution lower tags m').owner dimension = withoutTag lower m' dimension

/-- What tags and metadata say of a dimension, before the alias is asked. -/
def asserted (dimension : String) : Option String :=
  ((parseTagList lower tags).get? dimension).orElse fun _ =>
    fromMetadata lower metadata dimension

/-- A tag or the metadata say that the team is `unattributed`, and an alias says another. -/
def AliasOverrides : Prop :=
  asserted lower tags metadata TEAM = some UNATTRIBUTED ∧
    ∃ name, teamFromKeyAlias lower metadata = some name ∧ name ≠ UNATTRIBUTED

variable {lower tags metadata}

theorem owner_resolveAttribution {dimension : String} (h : dimension ∈ DIMENSION_KEYS)
    (hne : dimension ≠ TEAM) : (resolveAttribution lower tags metadata).owner dimension =
      (asserted lower tags metadata dimension).getD UNATTRIBUTED := by
  simp only [DIMENSION_KEYS, List.mem_cons, List.not_mem_nil, or_false] at h
  rcases h with rfl | rfl | rfl | rfl
  · exact absurd rfl hne
  · rfl
  · rfl
  · rfl

theorem team_resolveAttribution : (resolveAttribution lower tags metadata).owner TEAM =
    if (asserted lower tags metadata TEAM).getD UNATTRIBUTED = UNATTRIBUTED then
      (teamFromKeyAlias lower metadata).getD UNATTRIBUTED
    else (asserted lower tags metadata TEAM).getD UNATTRIBUTED := rfl

theorem owner_eq_iff {dimension : String} (h : dimension ∈ DIMENSION_KEYS) :
    (resolveAttribution lower tags metadata).owner dimension =
        ((parseTagList lower tags).get? dimension).getD (withoutTag lower metadata dimension) ↔
      ¬(dimension = TEAM ∧ AliasOverrides lower tags metadata) := by
  have hchain : ((parseTagList lower tags).get? dimension).getD
      (withoutTag lower metadata dimension) = (asserted lower tags metadata dimension).getD
        (if dimension = TEAM then (teamFromKeyAlias lower metadata).getD UNATTRIBUTED
          else UNATTRIBUTED) := by
    rw [asserted, withoutTag]
    cases (parseTagList lower tags).get? dimension with
    | some value => rfl
    | none => cases fromMetadata lower metadata dimension <;> rfl
  rw [hchain]
  by_cases hteam : dimension = TEAM
  · subst hteam
    rw [team_resolveAttribution, if_pos rfl]
    unfold AliasOverrides
    cases asserted lower tags metadata TEAM with
    | none => simp
    | some value =>
      rw [Option.getD_some, Option.getD_some]
      by_cases hvalue : value = UNATTRIBUTED
      · rw [if_pos hvalue, hvalue]
        cases teamFromKeyAlias lower metadata with
        | none => simp
        | some name => simp
      · rw [if_neg hvalue]
        simp [hvalue]
  · rw [if_neg hteam, owner_resolveAttribution h hteam]
    exact iff_of_true rfl fun hc => hteam hc.1

/-- **Where tags win over metadata.**  Unless a tag or the metadata call the team
`unattributed` while the virtual key has an alias. -/
theorem tagsWin_iff {m m' : Option (List (String × Json))} :
    TagsWin lower tags m m' ↔ ¬AliasOverrides lower tags m ∧ ¬AliasOverrides lower tags m' := by
  have hteam : TEAM ∈ DIMENSION_KEYS := List.mem_cons_self
  constructor
  · intro h
    have hboth : ∀ dimension ∈ DIMENSION_KEYS,
        (resolveAttribution lower tags m).owner dimension =
            ((parseTagList lower tags).get? dimension).getD (withoutTag lower m dimension) ∧
        (resolveAttribution lower tags m').owner dimension =
            ((parseTagList lower tags).get? dimension).getD (withoutTag lower m' dimension) := by
      intro dimension hdim
      cases hget : (parseTagList lower tags).get? dimension with
      | none => exact h.untagged dimension hdim hget
      | some value => exact h.tagged dimension hdim value hget
    obtain ⟨hm, hm'⟩ := hboth TEAM hteam
    rw [owner_eq_iff hteam] at hm hm'
    exact ⟨fun ha => hm ⟨rfl, ha⟩, fun ha => hm' ⟨rfl, ha⟩⟩
  · rintro ⟨hm, hm'⟩
    refine ⟨fun dimension hdim value hget => ?_, fun dimension hdim hget => ?_⟩
    · rw [(owner_eq_iff hdim).mpr fun h => hm h.2, (owner_eq_iff hdim).mpr fun h => hm' h.2, hget]
      exact ⟨rfl, rfl⟩
    · rw [(owner_eq_iff hdim).mpr fun h => hm h.2, (owner_eq_iff hdim).mpr fun h => hm' h.2, hget]
      exact ⟨rfl, rfl⟩

/-- A team tag that says `unattributed` gives way to the alias in the metadata. -/
theorem not_tagsWin_of_unattributed :
    ¬TagsWin id [.str "team:unattributed"] (some [("team_alias", .str "search")]) none := by
  intro h
  have hwin := (h.tagged TEAM (by decide) UNATTRIBUTED (by decide)).1
  exact absurd hwin (by decide)

end

end Finops
