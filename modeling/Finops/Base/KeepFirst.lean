import Mathlib.Data.List.Nodup
import Mathlib.Algebra.BigOperators.Group.List.Basic
import Mathlib.Tactic.Abel

/-!
# The first of each key

`keepFirst key seen l` is the loop that walks over `l` with a set of keys
already seen: an element whose key is in the set is dropped, any other is kept
and its key added.  `repeats key seen l` is what the loop drops.

`mem_keepFirst_iff` says which elements are kept, `nodup_keepFirst` that no key
is kept twice, `keepFirst_append` that a list may be fed in pieces if the keys
of the first piece are remembered.  Only membership in the set matters
(`keepFirst_congr`).  A sum over `l` is the sum over what is kept plus the sum
over what is dropped (`sum_keepFirst_add_sum_repeats`).

`distinct l` are the values of `l` in the order they first occur.
-/

namespace KeepFirst

variable {α κ β : Type*} [DecidableEq κ]

/-- The elements whose key has not been seen before. -/
def keepFirst (key : α → κ) : List κ → List α → List α
  | _, [] => []
  | seen, a :: l =>
    if key a ∈ seen then keepFirst key seen l else a :: keepFirst key (key a :: seen) l

/-- The elements whose key has been seen before. -/
def repeats (key : α → κ) : List κ → List α → List α
  | _, [] => []
  | seen, a :: l =>
    if key a ∈ seen then a :: repeats key seen l else repeats key (key a :: seen) l

variable {key : α → κ} {seen : List κ} {a : α} {l : List α}

theorem keepFirst_cons_of_mem (h : key a ∈ seen) :
    keepFirst key seen (a :: l) = keepFirst key seen l := if_pos h

theorem keepFirst_cons_of_notMem (h : key a ∉ seen) :
    keepFirst key seen (a :: l) = a :: keepFirst key (key a :: seen) l := if_neg h

theorem repeats_cons_of_mem (h : key a ∈ seen) :
    repeats key seen (a :: l) = a :: repeats key seen l := if_pos h

theorem repeats_cons_of_notMem (h : key a ∉ seen) :
    repeats key seen (a :: l) = repeats key (key a :: seen) l := if_neg h

theorem keepFirst_congr {l : List α} :
    ∀ {seen other : List κ}, (∀ a ∈ l, key a ∈ seen ↔ key a ∈ other) →
      keepFirst key seen l = keepFirst key other l := by
  induction l with
  | nil => intro seen other _; rfl
  | cons a l ih =>
    intro seen other h
    have ha := h a List.mem_cons_self
    have hl : ∀ b ∈ l, key b ∈ seen ↔ key b ∈ other := fun b hb => h b (List.mem_cons_of_mem a hb)
    by_cases hs : key a ∈ seen
    · rw [keepFirst_cons_of_mem hs, keepFirst_cons_of_mem (ha.mp hs), ih hl]
    · rw [keepFirst_cons_of_notMem hs, keepFirst_cons_of_notMem fun ho => hs (ha.mpr ho)]
      congr 1
      refine ih fun b hb => ?_
      rw [List.mem_cons, List.mem_cons, hl b hb]

theorem keepFirst_append {l m : List α} :
    ∀ {seen : List κ}, keepFirst key seen (l ++ m) =
      keepFirst key seen l ++ keepFirst key (l.map key ++ seen) m := by
  induction l with
  | nil => intro seen; rfl
  | cons a l ih =>
    intro seen
    rw [List.cons_append]
    by_cases hs : key a ∈ seen
    · rw [keepFirst_cons_of_mem hs, keepFirst_cons_of_mem hs, ih]
      congr 1
      refine keepFirst_congr fun b _ => ?_
      simp only [List.map_cons, List.cons_append, List.mem_cons, List.mem_append]
      exact ⟨Or.inr, fun h => h.elim (fun e => .inr (e ▸ hs)) id⟩
    · rw [keepFirst_cons_of_notMem hs, keepFirst_cons_of_notMem hs, ih, List.cons_append]
      congr 2
      refine keepFirst_congr fun b _ => ?_
      simp only [List.map_cons, List.cons_append, List.mem_cons, List.mem_append]
      exact or_left_comm

theorem keepFirst_map {f : α → α} (hf : ∀ a, key (f a) = key a) {l : List α} :
    ∀ {seen : List κ}, keepFirst key seen (l.map f) = (keepFirst key seen l).map f := by
  induction l with
  | nil => intro seen; rfl
  | cons a l ih =>
    intro seen
    rw [List.map_cons]
    by_cases hs : key a ∈ seen
    · rw [keepFirst_cons_of_mem hs, keepFirst_cons_of_mem (by rwa [hf]), ih]
    · rw [keepFirst_cons_of_notMem hs, keepFirst_cons_of_notMem (by rwa [hf]), ih, hf,
        List.map_cons]

theorem keepFirst_sublist {l : List α} : ∀ {seen : List κ}, (keepFirst key seen l).Sublist l := by
  induction l with
  | nil => intro seen; exact List.Sublist.refl _
  | cons a l ih =>
    intro seen
    by_cases hs : key a ∈ seen
    · rw [keepFirst_cons_of_mem hs]; exact ih.cons a
    · rw [keepFirst_cons_of_notMem hs]; exact ih.cons_cons a

theorem mem_map_keepFirst {l : List α} {k : κ} :
    ∀ {seen : List κ}, k ∈ (keepFirst key seen l).map key ↔ k ∈ l.map key ∧ k ∉ seen := by
  induction l with
  | nil => intro seen; simp [keepFirst]
  | cons a l ih =>
    intro seen
    by_cases hs : key a ∈ seen
    · rw [keepFirst_cons_of_mem hs, ih, List.map_cons, List.mem_cons]
      constructor
      · rintro ⟨h, hn⟩; exact ⟨.inr h, hn⟩
      · rintro ⟨rfl | h, hn⟩
        · exact absurd hs hn
        · exact ⟨h, hn⟩
    · rw [keepFirst_cons_of_notMem hs, List.map_cons, List.mem_cons, ih, List.map_cons,
        List.mem_cons, List.mem_cons, not_or]
      constructor
      · rintro (rfl | ⟨h, _, hn⟩)
        · exact ⟨.inl rfl, hs⟩
        · exact ⟨.inr h, hn⟩
      · rintro ⟨h, hn⟩
        by_cases hk : k = key a
        · exact .inl hk
        · exact .inr ⟨h.resolve_left hk, hk, hn⟩

theorem keepFirst_eq_nil_iff : keepFirst key seen l = [] ↔ ∀ a ∈ l, key a ∈ seen := by
  rw [← List.map_eq_nil_iff (f := key), List.eq_nil_iff_forall_not_mem]
  constructor
  · intro h a ha
    by_contra hn
    exact h (key a) (mem_map_keepFirst.mpr ⟨List.mem_map_of_mem ha, hn⟩)
  · intro h k hk
    obtain ⟨hm, hn⟩ := mem_map_keepFirst.mp hk
    obtain ⟨a, ha, rfl⟩ := List.mem_map.mp hm
    exact hn (h a ha)

theorem nodup_keepFirst {l : List α} :
    ∀ {seen : List κ}, ((keepFirst key seen l).map key).Nodup := by
  induction l with
  | nil => intro seen; exact List.nodup_nil
  | cons a l ih =>
    intro seen
    by_cases hs : key a ∈ seen
    · rw [keepFirst_cons_of_mem hs]; exact ih
    · rw [keepFirst_cons_of_notMem hs, List.map_cons, List.nodup_cons]
      exact ⟨fun h => (mem_map_keepFirst.mp h).2 List.mem_cons_self, ih⟩

/-- **What is kept**: the elements whose key is new, each the first of its key. -/
theorem mem_keepFirst_iff {l : List α} {a : α} :
    ∀ {seen : List κ}, a ∈ keepFirst key seen l ↔
      key a ∉ seen ∧ (l.find? fun b => key b = key a) = some a := by
  induction l with
  | nil => intro seen; simp [keepFirst]
  | cons b l ih =>
    intro seen
    by_cases hs : key b ∈ seen
    · rw [keepFirst_cons_of_mem hs, ih]
      refine and_congr_right fun hn => ?_
      have hne : key b ≠ key a := fun h => hn (h ▸ hs)
      rw [List.find?_cons_of_neg (by simpa using hne)]
    · rw [keepFirst_cons_of_notMem hs, List.mem_cons, ih, List.mem_cons, not_or]
      by_cases hk : key b = key a
      · rw [List.find?_cons_of_pos (by simpa using hk)]
        constructor
        · rintro (rfl | ⟨⟨h, _⟩, _⟩)
          · exact ⟨hs, rfl⟩
          · exact absurd hk.symm h
        · rintro ⟨_, h⟩; exact .inl (Option.some.inj h).symm
      · rw [List.find?_cons_of_neg (by simpa using hk)]
        constructor
        · rintro (rfl | ⟨⟨_, hn⟩, h⟩)
          · exact absurd rfl hk
          · exact ⟨hn, h⟩
        · rintro ⟨hn, h⟩; exact .inr ⟨⟨fun e => hk e.symm, hn⟩, h⟩

theorem mem_keepFirst_of_nodup {l : List α} {a : α} :
    ∀ {seen : List κ}, (l.map key).Nodup → (a ∈ keepFirst key seen l ↔ a ∈ l ∧ key a ∉ seen) := by
  induction l with
  | nil => intro seen _; simp [keepFirst]
  | cons b l ih =>
    intro seen hl
    obtain ⟨hb, hl⟩ := List.nodup_cons.mp hl
    by_cases hs : key b ∈ seen
    · rw [keepFirst_cons_of_mem hs, ih hl, List.mem_cons]
      constructor
      · rintro ⟨h, hn⟩; exact ⟨.inr h, hn⟩
      · rintro ⟨rfl | h, hn⟩
        · exact absurd hs hn
        · exact ⟨h, hn⟩
    · rw [keepFirst_cons_of_notMem hs, List.mem_cons, ih hl, List.mem_cons, List.mem_cons, not_or]
      constructor
      · rintro (rfl | ⟨h, _, hn⟩)
        · exact ⟨.inl rfl, hs⟩
        · exact ⟨.inr h, hn⟩
      · rintro ⟨rfl | h, hn⟩
        · exact .inl rfl
        · exact .inr ⟨h, fun e => hb (e ▸ List.mem_map_of_mem h), hn⟩

theorem keepFirst_eq_self {l : List α} :
    ∀ {seen : List κ}, (l.map key).Nodup → (∀ a ∈ l, key a ∉ seen) → keepFirst key seen l = l := by
  induction l with
  | nil => intro seen _ _; rfl
  | cons a l ih =>
    intro seen hl hnew
    obtain ⟨ha, hl⟩ := List.nodup_cons.mp hl
    rw [keepFirst_cons_of_notMem (hnew a List.mem_cons_self), ih hl]
    intro b hb hmem
    rcases List.mem_cons.mp hmem with he | hseen
    · exact ha (he ▸ List.mem_map_of_mem hb)
    · exact hnew b (List.mem_cons_of_mem a hb) hseen

/-! ### Sums -/

theorem sum_keepFirst_add_sum_repeats [AddCommMonoid β] (f : α → β) {l : List α} :
    ∀ {seen : List κ}, ((keepFirst key seen l).map f).sum + ((repeats key seen l).map f).sum =
      (l.map f).sum := by
  induction l with
  | nil => intro seen; simp [keepFirst, repeats]
  | cons a l ih =>
    intro seen
    rw [List.map_cons, List.sum_cons]
    by_cases hs : key a ∈ seen
    · rw [keepFirst_cons_of_mem hs, repeats_cons_of_mem hs, List.map_cons, List.sum_cons,
        ← @ih seen]
      abel
    · rw [keepFirst_cons_of_notMem hs, repeats_cons_of_notMem hs, List.map_cons, List.sum_cons,
        add_assoc, ih]

/-- **What is dropped**: the elements whose key was seen or stands further left. -/
theorem mem_repeats_iff {l : List α} {a : α} :
    ∀ {seen : List κ}, a ∈ repeats key seen l ↔
      ∃ before after, l = before ++ a :: after ∧ (key a ∈ seen ∨ key a ∈ before.map key) := by
  induction l with
  | nil => intro seen; simp [repeats]
  | cons b l ih =>
    intro seen
    constructor
    · intro h
      by_cases hs : key b ∈ seen
      · rw [repeats_cons_of_mem hs] at h
        rcases List.mem_cons.mp h with rfl | h
        · exact ⟨[], l, rfl, .inl hs⟩
        · obtain ⟨before, after, rfl, hk⟩ := ih.mp h
          exact ⟨b :: before, after, rfl, hk.imp_right (List.mem_cons_of_mem _)⟩
      · rw [repeats_cons_of_notMem hs] at h
        obtain ⟨before, after, rfl, hk⟩ := ih.mp h
        refine ⟨b :: before, after, rfl, ?_⟩
        rw [List.mem_cons] at hk
        rw [List.map_cons, List.mem_cons]
        tauto
    · rintro ⟨before, after, he, hk⟩
      cases before with
      | nil =>
        obtain ⟨rfl, rfl⟩ := List.cons.inj he
        have hs : key b ∈ seen := hk.resolve_right List.not_mem_nil
        rw [repeats_cons_of_mem hs]
        exact List.mem_cons_self
      | cons c before =>
        obtain ⟨rfl, rfl⟩ := List.cons.inj he
        rw [List.map_cons, List.mem_cons] at hk
        by_cases hs : key b ∈ seen
        · rw [repeats_cons_of_mem hs]
          refine List.mem_cons_of_mem b (ih.mpr ⟨before, after, rfl, ?_⟩)
          rcases hk with h | h | h
          · exact .inl h
          · exact .inl (h ▸ hs)
          · exact .inr h
        · rw [repeats_cons_of_notMem hs]
          refine ih.mpr ⟨before, after, rfl, ?_⟩
          rw [List.mem_cons]
          tauto

/-! ### Distinct values -/

/-- Each value, where it first occurs. -/
def distinct (l : List κ) : List κ := keepFirst id [] l

theorem mem_distinct {l : List κ} {k : κ} : k ∈ distinct l ↔ k ∈ l := by
  have h : k ∈ (keepFirst id [] l).map id ↔ k ∈ l.map id ∧ k ∉ [] := mem_map_keepFirst
  simpa [distinct] using h

theorem nodup_distinct (l : List κ) : (distinct l).Nodup := by
  have h : ((keepFirst id [] l).map id).Nodup := nodup_keepFirst
  rwa [List.map_id] at h

theorem skip_of_mem {k : κ} {l seen : List κ} (h : k ∈ seen) :
    keepFirst id seen (k :: l) = keepFirst id seen l := if_pos h

theorem keep_of_notMem {k : κ} {l seen : List κ} (h : k ∉ seen) :
    keepFirst id seen (k :: l) = k :: keepFirst id (k :: seen) l := if_neg h

theorem distinct_map_of_injective {ν : Type*} [DecidableEq ν] {f : κ → ν}
    (hf : Function.Injective f) (l : List κ) : distinct (l.map f) = (distinct l).map f := by
  have h : ∀ (l seen : List κ),
      keepFirst id (seen.map f) (l.map f) = (keepFirst id seen l).map f := by
    intro l
    induction l with
    | nil => intro seen; rfl
    | cons a l ih =>
      intro seen
      have hmem : f a ∈ seen.map f ↔ a ∈ seen := List.mem_map_of_injective hf
      by_cases ha : a ∈ seen
      · rw [List.map_cons, skip_of_mem (hmem.mpr ha), ih, skip_of_mem ha]
      · rw [List.map_cons, keep_of_notMem fun hn => ha (hmem.mp hn), keep_of_notMem ha,
          List.map_cons]
        exact congrArg (f a :: ·) (ih (a :: seen))
  exact h l []

theorem distinct_map_distinct {ν : Type*} [DecidableEq ν] (g : κ → ν) (l : List κ) :
    distinct ((distinct l).map g) = distinct (l.map g) := by
  have h : ∀ (l seen : List κ) (other : List ν), (∀ s ∈ seen, g s ∈ other) →
      keepFirst id other ((keepFirst id seen l).map g) = keepFirst id other (l.map g) := by
    intro l
    induction l with
    | nil => intro seen other _; rfl
    | cons a l ih =>
      intro seen other hseen
      by_cases ha : a ∈ seen
      · rw [skip_of_mem ha, List.map_cons, skip_of_mem (hseen a ha)]
        exact ih seen other hseen
      · rw [keep_of_notMem ha, List.map_cons, List.map_cons]
        by_cases hg : g a ∈ other
        · rw [skip_of_mem hg, skip_of_mem hg]
          refine ih (a :: seen) other fun s hs => ?_
          rcases List.mem_cons.mp hs with rfl | hs
          · exact hg
          · exact hseen s hs
        · rw [keep_of_notMem hg, keep_of_notMem hg]
          refine congrArg (g a :: ·) (ih (a :: seen) (g a :: other) fun s hs => ?_)
          rcases List.mem_cons.mp hs with rfl | hs
          · exact List.mem_cons_self
          · exact List.mem_cons_of_mem _ (hseen s hs)
  exact h l [] [] fun s hs => absurd hs List.not_mem_nil

end KeepFirst
