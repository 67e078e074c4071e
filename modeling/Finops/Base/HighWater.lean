import Mathlib.Order.Lattice
import Mathlib.Data.Option.Basic
import Mathlib.Data.List.Basic

/-!
# High-water marks

A mark is the largest value seen, or nothing.  `Above mark t` says that `t` is
above it, and `raise mark t` keeps the larger of the two.

`strictMaxima l` are the values of `l` that are larger than all before them.
Where the mark is the largest value of `l` (`IsMax`), the next value is one of
them exactly when it is above the mark (`IsMax.above_iff`), and `raise` keeps
the mark in that relation (`IsMax.raise`).
-/

namespace HighWater

variable {α : Type*} [LinearOrder α]

/-- Above the mark.  Without a mark every value is. -/
def Above (mark : Option α) (t : α) : Prop := ∀ m ∈ mark, m < t

instance (mark : Option α) (t : α) : Decidable (Above mark t) := by
  unfold Above; infer_instance

/-- The mark once `t` is seen. -/
def raise (mark : Option α) (t : α) : Option α := if Above mark t then some t else mark

/-- The values that are larger than all before them and all of `seen`. -/
def maxima : List α → List α → List α
  | _, [] => []
  | seen, t :: l => if ∀ s ∈ seen, s < t then t :: maxima (t :: seen) l else maxima (t :: seen) l

def strictMaxima (l : List α) : List α := maxima [] l

variable {mark : Option α} {t m : α} {l : List α}

theorem raise_of_above (h : Above mark t) : raise mark t = some t := if_pos h

theorem raise_of_not_above (h : ¬ Above mark t) : raise mark t = mark := if_neg h

theorem not_above : ¬ Above mark t ↔ ∃ m ∈ mark, t ≤ m := by
  simp only [Above, not_forall, not_lt, exists_prop]

theorem exists_le_raise (mark : Option α) (t : α) : ∃ m ∈ raise mark t, t ≤ m := by
  by_cases h : Above mark t
  · exact ⟨t, raise_of_above h, le_refl t⟩
  · rw [raise_of_not_above h]; exact not_above.mp h

theorem le_of_mem_raise (h : m ∈ mark) : ∃ m' ∈ raise mark t, m ≤ m' := by
  by_cases ha : Above mark t
  · exact ⟨t, raise_of_above ha, (ha m h).le⟩
  · exact ⟨m, by rw [raise_of_not_above ha]; exact h, le_refl m⟩

theorem eq_or_mem_of_mem_raise (h : m ∈ raise mark t) : m = t ∨ m ∈ mark := by
  by_cases ha : Above mark t
  · rw [raise_of_above ha] at h; exact .inl (Option.some.inj h).symm
  · rw [raise_of_not_above ha] at h; exact .inr h

/-! ### The mark of a list -/

theorem maxima_append {l k : List α} :
    ∀ {seen : List α}, maxima seen (l ++ k) = maxima seen l ++ maxima (l.reverse ++ seen) k := by
  induction l with
  | nil => intro seen; rfl
  | cons t l ih =>
    intro seen
    rw [List.cons_append, List.reverse_cons, List.append_assoc, List.singleton_append]
    by_cases h : ∀ s ∈ seen, s < t
    · rw [maxima, maxima, if_pos h, if_pos h, ih, List.cons_append]
    · rw [maxima, maxima, if_neg h, if_neg h, ih]

theorem strictMaxima_concat (l : List α) (t : α) :
    strictMaxima (l ++ [t]) = strictMaxima l ++ if ∀ s ∈ l, s < t then [t] else [] := by
  rw [strictMaxima, maxima_append, strictMaxima, List.append_nil, maxima, maxima]
  simp only [List.mem_reverse]

/-- The mark is the largest value of `l`, and nothing where `l` is empty. -/
def IsMax (mark : Option α) (l : List α) : Prop :=
  (∀ s ∈ l, ∃ m ∈ mark, s ≤ m) ∧ ∀ m ∈ mark, m ∈ l

theorem IsMax.above_iff (h : IsMax mark l) : Above mark t ↔ ∀ s ∈ l, s < t := by
  constructor
  · intro ha s hs
    obtain ⟨m, hm, hle⟩ := h.1 s hs
    exact hle.trans_lt (ha m hm)
  · intro hl m hm
    exact hl m (h.2 m hm)

theorem IsMax.raise (h : IsMax mark l) : IsMax (raise mark t) (l ++ [t]) := by
  constructor
  · intro s hs
    rcases List.mem_append.mp hs with hs | hs
    · obtain ⟨m, hm, hle⟩ := h.1 s hs
      obtain ⟨m', hm', hle'⟩ := le_of_mem_raise (t := t) hm
      exact ⟨m', hm', hle.trans hle'⟩
    · rw [List.mem_singleton.mp hs]
      exact exists_le_raise mark t
  · intro m hm
    rcases eq_or_mem_of_mem_raise hm with rfl | hm
    · exact List.mem_append_right l (List.mem_singleton_self m)
    · exact List.mem_append_left [t] (h.2 m hm)

theorem IsMax.filter_iff {p q : α → Prop} [DecidablePred p] [DecidablePred q]
    (h : IsMax mark (l.filter fun s => p s)) (hp : ∀ s t, s ≤ t → p t → p s)
    (hq : ∀ s t, s ≤ t → q t → q s) :
    IsMax mark (l.filter fun s => q s) ↔ ∀ s ∈ l, p s ↔ q s := by
  have hmem : ∀ {r : α → Prop} [DecidablePred r] {s : α},
      s ∈ l.filter (fun s => r s) ↔ s ∈ l ∧ r s := by
    intro r _ s
    rw [List.mem_filter, decide_eq_true_iff]
  constructor
  · intro h' s hs
    constructor
    · intro hps
      obtain ⟨m, hm, hle⟩ := h.1 s (hmem.mpr ⟨hs, hps⟩)
      exact hq s m hle (hmem.mp (h'.2 m hm)).2
    · intro hqs
      obtain ⟨m, hm, hle⟩ := h'.1 s (hmem.mpr ⟨hs, hqs⟩)
      exact hp s m hle (hmem.mp (h.2 m hm)).2
  · intro hsame
    have hfilter : (l.filter fun s => q s) = l.filter fun s => p s :=
      List.filter_congr fun s hs => decide_eq_decide.mpr (hsame s hs).symm
    rw [hfilter]
    exact h

theorem isMax_getLast? (h : l.Pairwise (· ≤ ·)) : IsMax l.getLast? l := by
  refine ⟨fun s hs => ?_, fun m hm => List.mem_of_getLast? hm⟩
  have hne : l ≠ [] := List.ne_nil_of_mem hs
  refine ⟨l.getLast hne, List.getLast?_eq_some_getLast hne, ?_⟩
  have hsplit := List.dropLast_append_getLast hne
  rw [← hsplit, List.mem_append, List.mem_singleton] at hs
  rcases hs with hs | rfl
  · rw [← hsplit, List.pairwise_append] at h
    exact h.2.2 s hs _ (List.mem_singleton_self _)
  · exact le_refl _

end HighWater
