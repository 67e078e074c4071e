import Mathlib.Data.List.Sort

/-!
# Rankings

A ranking of `items` lists them in descending order of a value, equal values in any
order.  `descending val items` is the one in which equal values stand as they did.

A list heads a ranking when it may be its first `n` items (`Heads`): it is a part of the
items, in descending order, and where it leaves an item out it has all `n`, none of them
with a smaller value.  `exists_take_eq_iff` says that this is what it means to cut a
ranking at `n`.
-/

namespace Ranking

variable {α β : Type*} [LinearOrder β] {val : α → β} {items l m : List α} {n : ℕ}

def Descends (val : α → β) (l : List α) : Prop := l.Pairwise fun a b => val b ≤ val a

/-- All items, in descending order. -/
structure IsRanking (val : α → β) (items l : List α) : Prop where
  perm : l.Perm items
  descends : Descends val l

/-- In descending order, equal values as they were. -/
def descending (val : α → β) (items : List α) : List α :=
  items.insertionSort fun a b => val b ≤ val a

theorem isRanking_descending (val : α → β) (items : List α) :
    IsRanking val items (descending val items) := by
  refine ⟨List.perm_insertionSort _ items, ?_⟩
  have htotal : Std.Total fun a b : α => val b ≤ val a := ⟨fun a b => le_total (val b) (val a)⟩
  have htrans : IsTrans α fun a b => val b ≤ val a := ⟨fun _ _ _ hab hbc => hbc.trans hab⟩
  exact List.pairwise_insertionSort _ items

theorem map_descending {γ : Type*} {f : α → γ} {val' : γ → β}
    (h : ∀ a ∈ items, val' (f a) = val a) :
    (descending val items).map f = descending val' (items.map f) := by
  refine List.map_insertionSort _ _ f items fun a ha b hb => ?_
  rw [h a ha, h b hb]

/-- What may be the first `n` items of a ranking. -/
structure Heads (val : α → β) (n : ℕ) (items m : List α) : Prop where
  nodup : m.Nodup
  descends : Descends val m
  length_le : m.length ≤ n
  subset : m ⊆ items
  rest : ∀ a ∈ items, a ∉ m → m.length = n ∧ ∀ b ∈ m, val a ≤ val b

theorem IsRanking.heads (h : IsRanking val items l) (hnd : items.Nodup) :
    Heads val n items (l.take n) where
  nodup := (h.perm.nodup_iff.mpr hnd).sublist (List.take_sublist n l)
  descends := List.Pairwise.sublist (List.take_sublist n l) h.descends
  length_le := List.length_take_le n l
  subset := fun _ ha => h.perm.subset (List.mem_of_mem_take ha)
  rest := by
    intro a ha hcut
    have hdrop : a ∈ l.drop n := by
      have hmem := h.perm.mem_iff.mpr ha
      rw [← List.take_append_drop n l, List.mem_append] at hmem
      exact hmem.resolve_left hcut
    have hlong : n < l.length := by
      by_contra hle
      rw [List.drop_eq_nil_of_le (not_lt.mp hle)] at hdrop
      exact List.not_mem_nil hdrop
    have hsorted := h.descends
    rw [Descends, ← List.take_append_drop n l, List.pairwise_append] at hsorted
    exact ⟨List.length_take_of_le hlong.le, fun b hb => hsorted.2.2 b hb a hdrop⟩

/-- **Cutting a ranking**: what may be the first `n` items. -/
theorem exists_take_eq_iff [DecidableEq α] (hnd : items.Nodup) :
    (∃ l, IsRanking val items l ∧ m = l.take n) ↔ Heads val n items m := by
  constructor
  · rintro ⟨l, h, rfl⟩
    exact h.heads hnd
  · intro h
    have hrest := isRanking_descending val (items.filter fun a => a ∉ m)
    refine ⟨m ++ descending val (items.filter fun a => a ∉ m), ⟨?_, ?_⟩, ?_⟩
    · have hperm : m.Perm (items.filter fun a => a ∈ m) := by
        refine (List.perm_ext_iff_of_nodup h.nodup (hnd.filter _)).mpr fun a => ?_
        rw [List.mem_filter, decide_eq_true_iff]
        exact ⟨fun ha => ⟨h.subset ha, ha⟩, fun ha => ha.2⟩
      refine (hperm.append hrest.perm).trans ?_
      have hsplit := List.filter_append_perm (fun a => decide (a ∈ m)) items
      simpa only [← decide_not] using hsplit
    · refine List.pairwise_append.mpr ⟨h.descends, hrest.descends, fun b hb a ha => ?_⟩
      obtain ⟨hitem, hcut⟩ := List.mem_filter.mp (hrest.perm.subset ha)
      exact (h.rest a hitem (of_decide_eq_true hcut)).2 b hb
    · by_cases hall : ∃ a ∈ items, a ∉ m
      · obtain ⟨a, ha, hcut⟩ := hall
        rw [List.take_append_of_le_length (h.rest a ha hcut).1.ge,
          List.take_of_length_le h.length_le]
      · have hnil : items.filter (fun a => a ∉ m) = [] :=
          List.filter_eq_nil_iff.mpr fun a ha hcut => hall ⟨a, ha, of_decide_eq_true hcut⟩
        rw [hnil, descending, List.insertionSort_nil, List.append_nil,
          List.take_of_length_le h.length_le]

end Ranking
