import Finops.Base.Dict
import Finops.Base.KeepFirst

/-!
# Grouping

`groupOn key l` is `GROUP BY key` over the rows `l`: each key that occurs, with
its rows.  The groups partition the rows, so a sum over groups is a sum over rows
(`sum_groups`), also when only some of the groups are taken.

Result rows are often gathered again under a coarser key, by a loop that writes
`d[k] = g(d.get(k, z), row)`.  `getD_gather` says what such a loop leaves under a
key and `sum_gather` what it leaves altogether; the keys stand in the order they first
occur (`keys_foldl_set`).
-/

namespace Grouping

open KeepFirst

variable {α κ β γ : Type*} [DecidableEq κ]

/-- The rows of each key that occurs. -/
def groupOn (key : α → κ) (l : List α) : Dict κ (List α) :=
  Dict.ofKeys (fun k => l.filter fun a => key a = k) (l.map key)

/-! ### The order of the keys -/

theorem keys_foldl_set {key : α → κ} {val : Dict κ β → α → β} {l : List α} :
    ∀ {d : Dict κ β}, (l.foldl (fun d e => d.set (key e) (val d e)) d).keys =
      d.keys ++ keepFirst id d.keys (l.map key) := by
  induction l with
  | nil => intro d; simp [keepFirst]
  | cons e l ih =>
    intro d
    rw [List.foldl_cons, ih, List.map_cons]
    by_cases h : key e ∈ d.keys
    · have hkeys : (d.set (key e) (val d e)).keys = d.keys := by
        rw [Dict.set, dif_pos h, Dict.keys_adjust]
      rw [hkeys, skip_of_mem h]
    · have hkeys : (d.set (key e) (val d e)).keys = d.keys ++ [key e] := by
        rw [Dict.set, dif_neg h, Dict.keys, List.map_append]
        rfl
      rw [hkeys, keep_of_notMem h, List.append_assoc]
      refine congrArg (d.keys ++ key e :: ·) (keepFirst_congr fun k _ => ?_)
      rw [List.mem_append, List.mem_singleton, List.mem_cons, or_comm]

theorem keys_groupOn (key : α → κ) (l : List α) : (groupOn key l).keys = distinct (l.map key) := by
  rw [groupOn, Dict.ofKeys, keys_foldl_set, List.map_id']
  rfl

/-! ### Sums over fibers -/

section Sums

variable [AddCommMonoid β]

theorem sum_ite_eq_of_nodup {ks : List κ} (h : ks.Nodup) (x : κ) (v : β) :
    (ks.map fun k => if x = k then v else 0).sum = if x ∈ ks then v else 0 := by
  induction ks with
  | nil => simp
  | cons k ks ih =>
    obtain ⟨hk, hks⟩ := List.nodup_cons.mp h
    rw [List.map_cons, List.sum_cons, ih hks]
    by_cases hx : x = k
    · subst hx
      rw [if_pos rfl, if_neg hk, if_pos List.mem_cons_self, add_zero]
    · rw [if_neg hx, zero_add]
      simp [hx]

theorem sum_fibers {ks : List κ} (h : ks.Nodup) (key : α → κ) (f : α → β) (l : List α) :
    (ks.map fun k => ((l.filter fun a => key a = k).map f).sum).sum =
      ((l.filter fun a => key a ∈ ks).map f).sum := by
  induction l with
  | nil => simp
  | cons a l ih =>
    have hcons : ∀ k, (((a :: l).filter fun a => key a = k).map f).sum =
        (if key a = k then f a else 0) + ((l.filter fun a => key a = k).map f).sum := by
      intro k
      by_cases hk : key a = k
      · rw [List.filter_cons_of_pos (by simpa using hk), if_pos hk, List.map_cons, List.sum_cons]
      · rw [List.filter_cons_of_neg (by simpa using hk), if_neg hk, zero_add]
    simp only [hcons]
    rw [List.sum_map_add, ih, sum_ite_eq_of_nodup h]
    by_cases hk : key a ∈ ks
    · rw [if_pos hk, List.filter_cons_of_pos (by simpa using hk), List.map_cons, List.sum_cons]
    · rw [if_neg hk, List.filter_cons_of_neg (by simpa using hk), zero_add]

theorem sum_fibers_filter {ks : List κ} (h : ks.Nodup) {key : α → κ} {l : List α}
    (hl : ∀ a ∈ l, key a ∈ ks) (p : κ → Bool) (f : α → β) :
    ((ks.filter p).map fun k => ((l.filter fun a => key a = k).map f).sum).sum =
      ((l.filter fun a => p (key a)).map f).sum := by
  rw [sum_fibers (h.filter p)]
  refine congrArg (fun l => (l.map f).sum) (List.filter_congr fun a ha => ?_)
  rw [Bool.eq_iff_iff, decide_eq_true_iff, List.mem_filter]
  exact and_iff_right (hl a ha)

/-- **The groups partition the rows.** -/
theorem sum_groups (key : α → κ) (p : κ → Bool) (f : α → β) (l : List α) :
    (((groupOn key l).entries.filter fun e => p e.1).map fun e => (e.2.map f).sum).sum =
      ((l.filter fun a => p (key a)).map f).sum := by
  have hvalues : (((groupOn key l).entries.filter fun e => p e.1).map fun e => (e.2.map f).sum) =
      ((groupOn key l).keys.filter p).map fun k => ((l.filter fun a => key a = k).map f).sum := by
    rw [Dict.keys, List.filter_map, List.map_map]
    refine List.map_congr_left fun e he => ?_
    rw [(Dict.eq_of_mem_entries_ofKeys (List.mem_of_mem_filter he)).2]
    rfl
  rw [hvalues]
  exact sum_fibers_filter (groupOn key l).nodup_keys
    (fun a ha => Dict.mem_keys_ofKeys.mpr (List.mem_map_of_mem ha)) p f

end Sums

/-! ### Gathering rows under a key -/

/-- The loop `d[key(e)] = g(d.get(key(e), z), e)`. -/
def gather (key : α → κ) (g : γ → α → γ) (z : γ) (l : List α) : Dict κ γ :=
  l.foldl (fun d e => d.set (key e) (g (d.getD (key e) z) e)) Dict.empty

variable {key : α → κ} {g : γ → α → γ} {z : γ}

theorem mem_keys_gather {l : List α} {k : κ} :
    k ∈ (gather key g z l).keys ↔ ∃ e ∈ l, k = key e := by
  rw [gather, Dict.mem_keys_foldl_set]
  simp

theorem keys_gather (key : α → κ) (g : γ → α → γ) (z : γ) (l : List α) :
    (gather key g z l).keys = distinct (l.map key) := by
  rw [gather, keys_foldl_set]
  rfl

/-- **What is gathered under a key**: its rows, in order. -/
theorem getD_gather (l : List α) (k : κ) :
    (gather key g z l).getD k z = (l.filter fun e => key e = k).foldl g z := by
  have hloop : ∀ (l : List α) (d : Dict κ γ),
      (l.foldl (fun d e => d.set (key e) (g (d.getD (key e) z) e)) d).getD k z =
        (l.filter fun e => key e = k).foldl g (d.getD k z) := by
    intro l
    induction l with
    | nil => intro d; rfl
    | cons e l ih =>
      intro d
      rw [List.foldl_cons, ih]
      by_cases hk : key e = k
      · rw [List.filter_cons_of_pos (by simpa using hk), List.foldl_cons, ← hk, Dict.getD,
          Dict.get?_set_self, Option.getD_some]
      · rw [List.filter_cons_of_neg (by simpa using hk), Dict.getD,
          Dict.get?_set_of_ne d fun h => hk h.symm]
        rfl
  exact hloop l Dict.empty

theorem sum_gather [AddCommMonoid β] {F : γ → β} {f : α → β}
    (hF : ∀ l : List α, F (l.foldl g z) = (l.map f).sum) (p : κ → Bool) (l : List α) :
    (((gather key g z l).entries.filter fun e => p e.1).map fun e => F e.2).sum =
      ((l.filter fun a => p (key a)).map f).sum := by
  have hvalues : (((gather key g z l).entries.filter fun e => p e.1).map fun e => F e.2) =
      ((gather key g z l).keys.filter p).map fun k =>
        ((l.filter fun a => key a = k).map f).sum := by
    rw [Dict.keys, List.filter_map, List.map_map]
    refine List.map_congr_left fun e he => ?_
    have hget : (gather key g z l).get? e.1 = some e.2 :=
      Dict.get?_eq_some.mpr (List.mem_of_mem_filter he)
    have hd : (gather key g z l).getD e.1 z = (l.filter fun a => key a = e.1).foldl g z :=
      getD_gather l e.1
    rw [Dict.getD, hget, Option.getD_some] at hd
    rw [hd, hF]
    rfl
  rw [hvalues]
  exact sum_fibers_filter (gather key g z l).nodup_keys
    (fun a ha => mem_keys_gather.mpr ⟨a, ha, rfl⟩) p f

end Grouping
