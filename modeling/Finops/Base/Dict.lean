import Mathlib.Data.List.Nodup
import Mathlib.Data.List.Induction
import Mathlib.Algebra.BigOperators.Group.List.Basic
import Mathlib.Tactic.Abel

/-!
# Insertion-ordered dictionaries

A `Dict α β` is a list of entries with pairwise distinct keys, in the order the
keys were first written.  Writing an old key keeps its place, writing a new one
puts it at the end.

`ofKeys f ks` is the dictionary comprehension `{k: f k for k in ks}`, in which
a repeated key is written again and so appears once.  `mapVals` changes every
value and no key.  `adjust` is the in-place update `d[k] = g d[k]` of a key that
is there.
-/

universe u v

/-! ### Lists with distinct keys -/

/-- In a list whose keys are distinct, changing what one element counts for
changes the sum by as much. -/
theorem sum_ite_key {α κ β : Type*} [DecidableEq κ] [AddCommMonoid β] {key : α → κ} {l : List α}
    (hl : (l.map key).Nodup) {a : α} (ha : a ∈ l) (F G : α → β) :
    (l.map fun x => if key x = key a then F x else G x).sum + G a = (l.map G).sum + F a := by
  induction l with
  | nil => exact absurd ha List.not_mem_nil
  | cons x l ih =>
    rw [List.map_cons, List.nodup_cons] at hl
    rw [List.map_cons, List.sum_cons, List.map_cons, List.sum_cons]
    rcases List.mem_cons.mp ha with rfl | hr
    · have hrest : (l.map fun x => if key x = key a then F x else G x) = l.map G := by
        refine List.map_congr_left fun y hy => if_neg fun hk => hl.1 ?_
        exact List.mem_map.mpr ⟨y, hy, hk⟩
      rw [hrest, if_pos rfl]
      abel
    · have hne : key x ≠ key a := fun h => hl.1 (h ▸ List.mem_map.mpr ⟨a, hr, rfl⟩)
      rw [if_neg hne, add_assoc, ih hl.2 hr, add_assoc]

/-! ### Dictionaries -/

/-- Entries in the order their keys were first written, keys pairwise distinct. -/
structure Dict (α : Type u) (β : Type v) where
  entries : List (α × β)
  nodup : (entries.map Prod.fst).Nodup

namespace Dict

variable {α β γ : Type*}

@[ext] theorem ext {d e : Dict α β} (h : d.entries = e.entries) : d = e := by
  cases d; cases e; cases h; rfl

instance [DecidableEq α] [DecidableEq β] : DecidableEq (Dict α β) := fun d e =>
  decidable_of_iff (d.entries = e.entries) ⟨ext, congrArg entries⟩

def empty : Dict α β := ⟨[], List.nodup_nil⟩

def keys (d : Dict α β) : List α := d.entries.map Prod.fst

def values (d : Dict α β) : List β := d.entries.map Prod.snd

@[simp] theorem keys_empty : (empty : Dict α β).keys = [] := rfl

theorem nodup_keys (d : Dict α β) : d.keys.Nodup := d.nodup

theorem nodup_entries (d : Dict α β) : d.entries.Nodup := List.Nodup.of_map _ d.nodup

/-! ### Changing the values -/

def mapVals (f : α → β → γ) (d : Dict α β) : Dict α γ :=
  ⟨d.entries.map fun e => (e.1, f e.1 e.2), by
    rw [List.map_map]; exact d.nodup⟩

@[simp] theorem entries_mapVals (f : α → β → γ) (d : Dict α β) :
    (d.mapVals f).entries = d.entries.map fun e => (e.1, f e.1 e.2) := rfl

@[simp] theorem keys_mapVals (f : α → β → γ) (d : Dict α β) : (d.mapVals f).keys = d.keys := by
  simp only [keys, entries_mapVals, List.map_map]; rfl

theorem values_mapVals (f : α → β → γ) (d : Dict α β) :
    (d.mapVals f).values = d.entries.map fun e => f e.1 e.2 := by
  simp only [values, entries_mapVals, List.map_map]; rfl

/-! ### Reading and writing -/

variable [DecidableEq α]

def get? (d : Dict α β) (k : α) : Option β := (d.entries.find? fun e => e.1 = k).map Prod.snd

def getD (d : Dict α β) (k : α) (default : β) : β := (d.get? k).getD default

def adjust (d : Dict α β) (k : α) (g : β → β) : Dict α β :=
  d.mapVals fun j v => if j = k then g v else v

def set (d : Dict α β) (k : α) (v : β) : Dict α β :=
  if h : k ∈ d.keys then d.adjust k fun _ => v
  else ⟨d.entries ++ [(k, v)], by
    rw [List.map_append, List.nodup_append]
    refine ⟨d.nodup, by simp, ?_⟩
    rintro a ha b hb rfl
    obtain rfl : a = k := by simpa using hb
    exact h ha⟩

def erase (d : Dict α β) (k : α) : Dict α β :=
  ⟨d.entries.filter fun e => e.1 ≠ k, d.nodup.sublist (List.filter_sublist.map Prod.fst)⟩

/-- The comprehension `{k: f k for k in ks}`. -/
def ofKeys (f : α → β) (ks : List α) : Dict α β := ks.foldl (fun d k => d.set k (f k)) empty

theorem get?_eq_some {d : Dict α β} {k : α} {v : β} :
    d.get? k = some v ↔ (k, v) ∈ d.entries := by
  rw [get?, Option.map_eq_some_iff]
  constructor
  · rintro ⟨⟨j, w⟩, hf, rfl⟩
    obtain rfl : j = k := by simpa using List.find?_some hf
    exact List.mem_of_find?_eq_some hf
  · intro hm
    cases hf : d.entries.find? fun e => e.1 = k with
    | none => exact absurd (decide_eq_true rfl) (List.find?_eq_none.mp hf _ hm)
    | some e =>
      have hk : e.1 = k := by simpa using List.find?_some hf
      have he := List.inj_on_of_nodup_map d.nodup (List.mem_of_find?_eq_some hf) hm hk
      exact ⟨e, rfl, by rw [he]⟩

theorem get?_eq_none {d : Dict α β} {k : α} : d.get? k = none ↔ k ∉ d.keys := by
  rw [get?, Option.map_eq_none_iff, List.find?_eq_none, keys, List.mem_map]
  simp only [decide_eq_true_eq]
  exact ⟨fun h ⟨e, he, hk⟩ => h e he hk, fun h e he hk => h ⟨e, he, hk⟩⟩

theorem entries_perm_iff {d e : Dict α β} :
    d.entries.Perm e.entries ↔ ∀ k, d.get? k = e.get? k := by
  rw [List.perm_ext_iff_of_nodup d.nodup_entries e.nodup_entries]
  constructor
  · intro h k
    exact Option.ext fun v => by rw [get?_eq_some, get?_eq_some, h]
  · rintro h ⟨k, v⟩
    rw [← get?_eq_some, ← get?_eq_some, h]

theorem mem_keys_iff {d : Dict α β} {k : α} : k ∈ d.keys ↔ ∃ v, d.get? k = some v := by
  rw [← not_iff_not, ← get?_eq_none]
  cases d.get? k <;> simp

@[simp] theorem keys_adjust (d : Dict α β) (k : α) (g : β → β) : (d.adjust k g).keys = d.keys :=
  keys_mapVals _ d

theorem map_get?_keys (d : Dict α β) : d.keys.map d.get? = d.values.map some := by
  rw [keys, values, List.map_map, List.map_map]
  exact List.map_congr_left fun e he => get?_eq_some.mpr he

theorem get?_mapVals (d : Dict α β) (f : α → β → γ) (k : α) :
    (d.mapVals f).get? k = (d.get? k).map (f k) := by
  cases h : d.get? k with
  | none =>
    rw [get?_eq_none] at h
    rw [Option.map_none, get?_eq_none, keys_mapVals]
    exact h
  | some v =>
    rw [get?_eq_some] at h
    rw [Option.map_some, get?_eq_some, entries_mapVals]
    exact List.mem_map.mpr ⟨(k, v), h, rfl⟩

theorem get?_adjust_self (d : Dict α β) (k : α) (g : β → β) :
    (d.adjust k g).get? k = (d.get? k).map g := by
  rw [adjust, get?_mapVals]; simp

theorem get?_adjust_of_ne (d : Dict α β) {j k : α} (h : j ≠ k) (g : β → β) :
    (d.adjust k g).get? j = d.get? j := by
  rw [adjust, get?_mapVals]; simp [h]

theorem get?_foldl_adjust (g : β → β) {ks : List α} : ∀ {d : Dict α β}, ks.Nodup → ∀ k,
    (ks.foldl (fun d j => d.adjust j g) d).get? k =
      if k ∈ ks then (d.get? k).map g else d.get? k := by
  induction ks with
  | nil => intro d _ k; rw [List.foldl_nil, if_neg List.not_mem_nil]
  | cons j ks ih =>
    intro d hnd k
    obtain ⟨hj, hks⟩ := List.nodup_cons.mp hnd
    rw [List.foldl_cons, ih hks]
    rcases eq_or_ne k j with rfl | hne
    · rw [if_neg hj, if_pos List.mem_cons_self, get?_adjust_self]
    · rw [get?_adjust_of_ne d hne]
      simp only [List.mem_cons, hne, false_or]

theorem mem_keys_set {d : Dict α β} {j k : α} {v : β} :
    j ∈ (d.set k v).keys ↔ j ∈ d.keys ∨ j = k := by
  unfold set
  split
  · rename_i h
    rw [keys_adjust]
    exact ⟨Or.inl, fun hj => hj.elim id fun e => e ▸ h⟩
  · simp [keys, List.mem_append]

@[simp] theorem get?_set_self (d : Dict α β) (k : α) (v : β) : (d.set k v).get? k = some v := by
  unfold set
  split
  · rename_i h
    obtain ⟨w, hw⟩ := mem_keys_iff.mp h
    rw [get?_adjust_self, hw]; rfl
  · exact get?_eq_some.mpr (by simp)

theorem get?_set_of_ne (d : Dict α β) {j k : α} (h : j ≠ k) (v : β) :
    (d.set k v).get? j = d.get? j := by
  unfold set
  split
  · exact get?_adjust_of_ne d h _
  · simp [get?, List.find?_append, h.symm]

theorem mem_of_mem_erase {d : Dict α β} {j k : α} {v : β} (h : v ∈ (d.erase k).get? j) :
    v ∈ d.get? j := get?_eq_some.mpr (List.mem_filter.mp (get?_eq_some.mp h)).1

theorem mem_keys_foldl_set {ε : Type*} {key : ε → α} {val : Dict α β → ε → β} {j : α}
    {l : List ε} : ∀ {d : Dict α β}, j ∈ (l.foldl (fun d e => d.set (key e) (val d e)) d).keys ↔
      j ∈ d.keys ∨ ∃ e ∈ l, j = key e := by
  induction l with
  | nil => intro d; simp
  | cons e l ih =>
    intro d
    rw [List.foldl_cons, ih, mem_keys_set, or_assoc]
    simp only [List.mem_cons, exists_eq_or_imp]

theorem entries_foldl_set {ε : Type*} {key : ε → α} {val : ε → β} {l : List ε}
    (h : (l.map key).Nodup) :
    (l.foldl (fun d e => d.set (key e) (val e)) empty).entries = l.map fun e => (key e, val e) := by
  induction l using List.reverseRecOn with
  | nil => rfl
  | append_singleton l e ih =>
    rw [List.map_append, List.nodup_append] at h
    have hnew : key e ∉ (l.foldl (fun d e => d.set (key e) (val e)) empty).keys := by
      rw [mem_keys_foldl_set]
      rintro (hk | ⟨a, ha, hk⟩)
      · exact absurd hk List.not_mem_nil
      · exact h.2.2 _ (List.mem_map_of_mem ha) _ List.mem_cons_self hk.symm
    rw [List.foldl_append, List.foldl_cons, List.foldl_nil, set, dif_neg hnew, List.map_append,
      ← ih h.1]
    rfl

/-! ### Comprehensions -/

theorem ofKeys_concat (f : α → β) (ks : List α) (k : α) :
    ofKeys f (ks ++ [k]) = (ofKeys f ks).set k (f k) := by
  rw [ofKeys, List.foldl_append]; rfl

theorem ofKeys_congr {f g : α → β} {ks : List α} (h : ∀ k ∈ ks, f k = g k) :
    ofKeys f ks = ofKeys g ks := by
  induction ks using List.reverseRecOn with
  | nil => rfl
  | append_singleton ks k ih =>
    rw [ofKeys_concat, ofKeys_concat, h k (by simp), ih fun j hj => h j (by simp [hj])]

theorem mem_keys_ofKeys {f : α → β} {ks : List α} {j : α} : j ∈ (ofKeys f ks).keys ↔ j ∈ ks := by
  induction ks using List.reverseRecOn with
  | nil => simp [ofKeys]
  | append_singleton ks k ih => rw [ofKeys_concat, mem_keys_set, ih]; simp

theorem get?_ofKeys {f : α → β} {ks : List α} {j : α} (h : j ∈ ks) :
    (ofKeys f ks).get? j = some (f j) := by
  induction ks using List.reverseRecOn with
  | nil => simp at h
  | append_singleton ks k ih =>
    rw [ofKeys_concat]
    by_cases hk : j = k
    · subst hk; rw [get?_set_self]
    · rw [get?_set_of_ne _ hk]
      exact ih (by simpa [hk] using h)

theorem eq_of_mem_entries_ofKeys {f : α → β} {ks : List α} {e : α × β}
    (h : e ∈ (ofKeys f ks).entries) : e.1 ∈ ks ∧ e.2 = f e.1 := by
  have hk : e.1 ∈ ks := mem_keys_ofKeys.mp (List.mem_map.mpr ⟨e, h, rfl⟩)
  have hg : (ofKeys f ks).get? e.1 = some e.2 := get?_eq_some.mpr h
  rw [get?_ofKeys hk] at hg
  exact ⟨hk, (Option.some.inj hg).symm⟩

/-! ### Sums of values -/

theorem sum_values_adjust [AddCommMonoid β] {d : Dict α β} {k : α} {v : β} (g : β → β)
    (h : d.get? k = some v) : (d.adjust k g).values.sum + v = d.values.sum + g v := by
  rw [adjust, values_mapVals]
  exact sum_ite_key d.nodup (get?_eq_some.mp h) (fun e => g e.2) Prod.snd

theorem sum_values_set_getD [AddCommGroup β] (d : Dict α β) (k : α) (a : β) :
    (d.set k (d.getD k 0 + a)).values.sum = d.values.sum + a := by
  cases h : d.get? k with
  | none =>
    have hk := get?_eq_none.mp h
    rw [set, dif_neg hk, getD, h]
    simp [values, List.map_append]
  | some v =>
    have hk : k ∈ d.keys := mem_keys_iff.mpr ⟨v, h⟩
    have hs := sum_values_adjust (fun _ => v + a) h
    rw [set, dif_pos hk, getD, h, Option.getD_some]
    rw [← add_assoc, add_right_comm] at hs
    exact add_right_cancel hs

end Dict
