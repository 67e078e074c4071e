import Finops.Base.Dict
import Finops.Attribution.Models
import Mathlib.Data.List.DropRight

/-!
# Tags and metadata into attribution dimensions

`resolveAttribution` reads the owner of a request from its `key:value` tags
first, then from its metadata, then, for the team, from the virtual key's alias.
Tags and metadata values are JSON values, since both come from JSON columns.

Lower-casing is the parameter `lower` (its tables are those of the Unicode
version the interpreter ships); trimming is `strip`, on the characters that
`str.isspace` accepts.
-/

namespace Finops

/-- The characters that `str.strip` removes. -/
def isSpace (c : Char) : Bool :=
  (9 ≤ c.toNat && c.toNat ≤ 13) || (28 ≤ c.toNat && c.toNat ≤ 32) || c.toNat == 0x85
    || c.toNat == 0xA0 || c.toNat == 0x1680 || (0x2000 ≤ c.toNat && c.toNat ≤ 0x200A)
    || c.toNat == 0x2028 || c.toNat == 0x2029 || c.toNat == 0x202F || c.toNat == 0x205F
    || c.toNat == 0x3000

def strip (s : String) : String :=
  String.ofList ((s.toList.dropWhile isSpace).reverse.dropWhile isSpace).reverse

def TEAM : String := "team"
def PROJECT : String := "project"
def AGENT_ID : String := "agent_id"
def USE_CASE : String := "use_case"

def DIMENSION_KEYS : List String := [TEAM, PROJECT, AGENT_ID, USE_CASE]

/-- The metadata keys that may hold the virtual key's team alias. -/
def TEAM_ALIAS_KEYS : List String := ["user_api_key_team_alias", "team_alias"]

def TAG_SEPARATOR : Char := ':'

structure Attribution where
  team : String := UNATTRIBUTED
  project : String := UNATTRIBUTED
  agentId : String := UNATTRIBUTED
  useCase : String := UNATTRIBUTED
  deriving DecidableEq, Repr

section

variable (lower : String → String)

/-- A trimmed lowercase string, or `none` when there is nothing usable. -/
def normalize : Json → Option String
  | .str value =>
    let cleaned := lower (strip value)
    if cleaned = "" then none else some cleaned
  | _ => none

/-- `tag.split(":", 1)`, when the separator occurs. -/
def splitTag (tag : String) : Option (String × String) :=
  if TAG_SEPARATOR ∈ tag.toList then
    some (String.ofList (tag.toList.takeWhile (· ≠ TAG_SEPARATOR)),
      String.ofList (tag.toList.dropWhile (· ≠ TAG_SEPARATOR)).tail)
  else none

/-- The dimension and the value a tag names, if both are usable. -/
def readTag : Json → Option (String × String)
  | .str tag =>
    match splitTag tag with
    | none => none
    | some (rawKey, rawValue) =>
      match normalize lower (.str rawKey), normalize lower (.str rawValue) with
      | some key, some value => if key ∈ DIMENSION_KEYS then some (key, value) else none
      | _, _ => none
  | _ => none

/-- `key:value` tags as a dimension mapping; the first occurrence of a key wins. -/
def parseTagList (tags : List Json) : Dict String String :=
  tags.foldl (fun parsed tag =>
    match readTag lower tag with
    | some (key, value) => if key ∈ parsed.keys then parsed else parsed.set key value
    | none => parsed) Dict.empty

def fromMetadata (metadata : Option (List (String × Json))) (key : String) : Option String :=
  match metadata with
  | none => none
  | some fields => (fields.lookup key).bind (normalize lower)

def teamFromKeyAlias (metadata : Option (List (String × Json))) : Option String :=
  TEAM_ALIAS_KEYS.findSome? (fromMetadata lower metadata)

/-- Owners from tags first, then metadata, then the team alias. -/
def resolveAttribution (tags : List Json) (metadata : Option (List (String × Json))) :
    Attribution :=
  let parsed := parseTagList lower tags
  let resolved (key : String) : String :=
    ((parsed.get? key).orElse fun _ => fromMetadata lower metadata key).getD UNATTRIBUTED
  { team :=
      if resolved TEAM = UNATTRIBUTED then
        (teamFromKeyAlias lower metadata).getD UNATTRIBUTED
      else resolved TEAM
    project := resolved PROJECT
    agentId := resolved AGENT_ID
    useCase := resolved USE_CASE }

end

/-! ### What is assumed of lower-casing -/

/-- What `str.lower` does with a text of any language. -/
structure LowerCase (lower : String → String) : Prop where
  idempotent : ∀ s, lower (lower s) = lower s
  trimmed : ∀ s, strip s = s → strip (lower s) = lower s
  kept : ∀ s, (∀ c ∈ s.toList, c.isLower = true ∨ c = '_') → lower s = s

def asciiLower (s : String) : String := String.ofList (s.toList.map Char.toLower)

theorem isUpper_iff {c : Char} : c.isUpper = true ↔ 65 ≤ c.toNat ∧ c.toNat ≤ 90 := by
  show decide (c.val ≥ 'A'.val ∧ c.val ≤ 'Z'.val) = true ↔ _
  rw [decide_eq_true_iff, ge_iff_le, UInt32.le_iff_toNat_le, UInt32.le_iff_toNat_le]
  rfl

theorem isLower_iff {c : Char} : c.isLower = true ↔ 97 ≤ c.toNat ∧ c.toNat ≤ 122 := by
  show (decide (c.val ≥ 'a'.val) && decide (c.val ≤ 'z'.val)) = true ↔ _
  rw [Bool.and_eq_true, decide_eq_true_iff, decide_eq_true_iff, ge_iff_le,
    UInt32.le_iff_toNat_le, UInt32.le_iff_toNat_le]
  rfl

theorem toLower_of_not_isUpper {c : Char} (h : ¬c.isUpper = true) : c.toLower = c :=
  dif_neg fun hc => h (decide_eq_true hc)

theorem toNat_toLower {c : Char} (h : c.isUpper = true) : c.toLower.toNat = c.toNat + 32 := by
  have hlow : c.toLower.toNat = (c.val + 32).toNat :=
    congrArg Char.toNat (dif_pos (of_decide_eq_true h))
  obtain ⟨_, hle⟩ := isUpper_iff.mp h
  rw [hlow, UInt32.toNat_add, Char.toNat_val]
  exact Nat.mod_eq_of_lt (by show c.toNat + 32 < 4294967296; omega)

theorem not_isUpper_toLower (c : Char) : ¬c.toLower.isUpper = true := by
  by_cases h : c.isUpper = true
  · obtain ⟨hle, _⟩ := isUpper_iff.mp h
    rw [isUpper_iff, toNat_toLower h]
    omega
  · rwa [toLower_of_not_isUpper h]

theorem isSpace_toLower (c : Char) : isSpace c.toLower = isSpace c := by
  by_cases h : c.isUpper = true
  · obtain ⟨hle, hge⟩ := isUpper_iff.mp h
    rw [Bool.eq_iff_iff]
    simp only [isSpace, toNat_toLower h, Bool.or_eq_true, Bool.and_eq_true, decide_eq_true_eq,
      beq_iff_eq]
    omega
  · rw [toLower_of_not_isUpper h]

theorem lowerCase_asciiLower : LowerCase asciiLower where
  idempotent s := by
    rw [asciiLower, asciiLower, String.toList_ofList, List.map_map]
    exact congrArg _ (List.map_congr_left fun c _ => toLower_of_not_isUpper (not_isUpper_toLower c))
  trimmed s h := by
    have hs : isSpace ∘ Char.toLower = isSpace := funext isSpace_toLower
    nth_rewrite 2 [← h]
    simp only [strip, asciiLower, String.toList_ofList, List.dropWhile_map, ← List.map_reverse,
      hs]
  kept s h := by
    nth_rewrite 2 [← String.ofList_toList (s := s)]
    refine congrArg String.ofList ((List.map_congr_left fun c hc => ?_).trans (List.map_id _))
    refine toLower_of_not_isUpper fun hu => ?_
    rcases h c hc with hl | rfl
    · rw [isUpper_iff] at hu
      rw [isLower_iff] at hl
      omega
    · exact absurd hu (by decide)

theorem toList_strip (s : String) :
    (strip s).toList = (s.toList.dropWhile isSpace).rdropWhile isSpace := by
  rw [strip, String.toList_ofList, List.rdropWhile]

theorem dropWhile_rdropWhile_dropWhile {α : Type*} (p : α → Bool) (l : List α) :
    ((l.dropWhile p).rdropWhile p).dropWhile p = (l.dropWhile p).rdropWhile p := by
  rw [List.dropWhile_eq_self_iff]
  intro hl
  have hpre := List.rdropWhile_prefix (l := l.dropWhile p) (p := p)
  have hlen := hl.trans_le hpre.length_le
  rw [hpre.getElem hl]
  exact List.dropWhile_get_zero_not p l hlen

@[simp] theorem strip_strip (s : String) : strip (strip s) = strip s := by
  rw [← String.toList_inj, toList_strip, toList_strip, dropWhile_rdropWhile_dropWhile,
    List.rdropWhile_idempotent]

end Finops
