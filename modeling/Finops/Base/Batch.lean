import Mathlib.Data.List.Sort
import Mathlib.Data.List.Perm.Subperm

/-!
# The first rows of an order

`firsts r n l` is the query `ORDER BY r LIMIT n` over the rows `l`.  Nothing that
is left out comes before something that is taken (`rel_of_notMem_firsts`), all
of a short list is taken (`mem_firsts_of_length_le`), and distinct rows that are
all taken are no more than the limit (`length_le_of_subset_firsts`).

Rows are mapped by a function that may fail: `mapM_eq_ok_iff` says when all of
them come out, and `exists_bind_eq_ok` when a computation in two steps does.
-/

namespace Batch

variable {α β : Type*} (r : α → α → Prop) [DecidableRel r]

/-- The first `n` elements of `l` in the order `r`. -/
def firsts (n : ℕ) (l : List α) : List α := (l.insertionSort r).take n

variable {r} {n : ℕ} {l : List α} {a b : α}

theorem mem_of_mem_firsts (h : a ∈ firsts r n l) : a ∈ l :=
  (List.mem_insertionSort r).mp (List.mem_of_mem_take h)

theorem length_firsts : (firsts r n l).length = min n l.length := by
  rw [firsts, List.length_take, List.length_insertionSort]

theorem mem_firsts_of_length_le (hl : l.length ≤ n) (ha : a ∈ l) : a ∈ firsts r n l := by
  rw [firsts, List.take_of_length_le (by rwa [List.length_insertionSort])]
  exact (List.mem_insertionSort r).mpr ha

/-- **What is left out** does not come before what is taken. -/
theorem rel_of_notMem_firsts [Std.Total r] [IsTrans α r] (ha : a ∈ firsts r n l) (hb : b ∈ l)
    (hn : b ∉ firsts r n l) : r a b := by
  have hsorted := List.pairwise_insertionSort r l
  rw [← List.take_append_drop n (l.insertionSort r), List.pairwise_append] at hsorted
  have hdrop : b ∈ (l.insertionSort r).drop n := by
    have hm := (List.mem_insertionSort r).mpr hb
    rw [← List.take_append_drop n (l.insertionSort r)] at hm
    exact (List.mem_append.mp hm).resolve_left hn
  exact hsorted.2.2 a ha b hdrop

/-- **What is taken first.**  A property that goes with coming before holds of all
that is taken, where enough of the list have it. -/
theorem of_mem_firsts [Std.Total r] [IsTrans α r] {p : α → Bool}
    (hp : ∀ a b, r a b → p b = true → p a = true) (hn : n ≤ l.countP p)
    (ha : a ∈ firsts r n l) : p a = true := by
  by_contra hpa
  have hsorted := List.pairwise_insertionSort r l
  have hcount := (List.perm_insertionSort r l).countP_eq p
  rw [← List.take_append_drop n (l.insertionSort r)] at hsorted hcount
  rw [List.pairwise_append] at hsorted
  have hdrop : ((l.insertionSort r).drop n).countP p = 0 :=
    List.countP_eq_zero.mpr fun b hb hpb => hpa (hp a b (hsorted.2.2 a ha b hb) hpb)
  have hlt : ((l.insertionSort r).take n).countP p < ((l.insertionSort r).take n).length := by
    refine lt_of_le_of_ne List.countP_le_length fun he => hpa ?_
    exact List.countP_eq_length.mp he a ha
  have htake := List.length_take_le n (l.insertionSort r)
  rw [List.countP_append, hdrop] at hcount
  omega

/-- **Where no two rows rank alike**, what is taken does not depend on how they came. -/
theorem firsts_perm [Std.Total r] [IsTrans α r] [Std.Antisymm r] {l' : List α}
    (h : l'.Perm l) : firsts r n l' = firsts r n l := by
  have hsorted : (l'.insertionSort r).Perm (l.insertionSort r) :=
    ((List.perm_insertionSort r l').trans h).trans (List.perm_insertionSort r l).symm
  have heq : l'.insertionSort r = l.insertionSort r :=
    hsorted.eq_of_pairwise (fun a b _ _ hab hba => Std.Antisymm.antisymm a b hab hba)
      (List.pairwise_insertionSort r l') (List.pairwise_insertionSort r l)
  rw [firsts, firsts, heq]

theorem nodup_map_firsts {f : α → β} (h : (l.map f).Nodup) : ((firsts r n l).map f).Nodup :=
  (((List.perm_insertionSort r l).map f).nodup_iff.mpr h).sublist ((List.take_sublist n _).map f)

theorem length_le_of_subset_firsts {m : List α} (hm : m.Nodup) (hsub : m ⊆ firsts r n l) :
    m.length ≤ n := by
  have h := (hm.subperm hsub).length_le
  rw [length_firsts] at h
  exact h.trans (Nat.min_le_left n l.length)

theorem countP_lt_countP {p q : α → Bool} {l : List α} (h : ∀ a ∈ l, p a = true → q a = true)
    {a : α} (ha : a ∈ l) (hq : q a = true) (hp : p a = false) : l.countP p < l.countP q := by
  induction l with
  | nil => cases ha
  | cons b l ih =>
    have hle := List.countP_mono_left fun c hc => h c (List.mem_cons_of_mem b hc)
    have hb := h b List.mem_cons_self
    rcases List.mem_cons.mp ha with rfl | ha
    · rw [List.countP_cons_of_neg (by simp [hp]), List.countP_cons_of_pos hq]
      omega
    · have hlt := ih (fun c hc => h c (List.mem_cons_of_mem b hc)) ha
      rw [List.countP_cons, List.countP_cons]
      cases hpb : p b with
      | true => simp only [hb hpb, if_true]; omega
      | false => simp only [Bool.false_eq_true, if_false]; omega

theorem map_firsts {s : β → β → Prop} [DecidableRel s] (f : α → β)
    (hf : ∀ a ∈ l, ∀ b ∈ l, r a b ↔ s (f a) (f b)) :
    (firsts r n l).map f = firsts s n (l.map f) := by
  rw [firsts, firsts, List.map_take, List.map_insertionSort r s f l hf]

/-! ### Mapping rows when one may fail -/

variable {ε : Type*} {f : α → Except ε β}

theorem exists_bind_eq_ok {ε α β : Type} {x : Except ε α} {f : α → Except ε β} :
    (∃ b, (x >>= f) = .ok b) ↔ ∃ a, x = .ok a ∧ ∃ b, f a = .ok b := by
  cases x with
  | error e => simp [bind, Except.bind]
  | ok a => simp [bind, Except.bind]

theorem bind_eq_ok {ε α β : Type} {x : Except ε α} {f : α → Except ε β} {b : β} :
    (x >>= f) = .ok b ↔ ∃ a, x = .ok a ∧ f a = .ok b := by
  cases x with
  | error e => simp [bind, Except.bind]
  | ok a => simp [bind, Except.bind]

theorem mapM_eq_ok_iff {l : List α} :
    ∀ {m : List β}, l.mapM f = .ok m ↔ List.Forall₂ (fun a b => f a = .ok b) l m := by
  induction l with
  | nil =>
    intro m
    rw [List.mapM_nil, List.forall₂_nil_left_iff]
    exact ⟨fun h => (Except.ok.inj h).symm, fun h => h ▸ rfl⟩
  | cons a l ih =>
    intro m
    rw [List.mapM_cons, List.forall₂_cons_left_iff]
    cases ha : f a with
    | error e =>
      constructor
      · intro h; cases h
      · rintro ⟨b, m', hb, _⟩; cases hb
    | ok b =>
      cases hl : l.mapM f with
      | error e =>
        constructor
        · intro h; cases h
        · rintro ⟨b', m', _, hm, _⟩; rw [ih.mpr hm] at hl; cases hl
      | ok m' =>
        simp only [bind, Except.bind, pure, Except.pure, Except.ok.injEq]
        constructor
        · rintro rfl; exact ⟨b, m', rfl, ih.mp hl, rfl⟩
        · rintro ⟨b', m'', rfl, hm, rfl⟩
          rw [ih.mpr hm] at hl
          cases hl
          rfl

theorem exists_left_of_forall₂ {R : α → β → Prop} {l : List α} {m : List β}
    (h : List.Forall₂ R l m) : ∀ b ∈ m, ∃ a ∈ l, R a b := by
  induction h with
  | nil => intro b hb; cases hb
  | cons hr _ ih =>
    intro b hb
    rcases List.mem_cons.mp hb with rfl | hb
    · exact ⟨_, List.mem_cons_self, hr⟩
    · obtain ⟨a, ha, hab⟩ := ih b hb
      exact ⟨a, List.mem_cons_of_mem _ ha, hab⟩

theorem exists_right_of_forall₂ {R : α → β → Prop} {l : List α} {m : List β}
    (h : List.Forall₂ R l m) : ∀ a ∈ l, ∃ b ∈ m, R a b :=
  exists_left_of_forall₂ h.flip

theorem exists_append_of_forall₂ {R : α → β → Prop} {l l' : List α} {m : List β}
    (h : List.Forall₂ R (l ++ l') m) :
    ∃ k k', m = k ++ k' ∧ List.Forall₂ R l k ∧ List.Forall₂ R l' k' :=
  ⟨m.take l.length, m.drop l.length, (List.take_append_drop _ m).symm,
    (List.forall₂_take_append m l l' h.flip).flip, (List.forall₂_drop_append m l l' h.flip).flip⟩

theorem map_eq_of_forall₂ {γ : Type*} {R : α → β → Prop} {f : α → γ} {g : β → γ}
    (hR : ∀ a b, R a b → f a = g b) {l : List α} {m : List β} (h : List.Forall₂ R l m) :
    l.map f = m.map g := by
  induction h with
  | nil => rfl
  | cons hr _ ih => rw [List.map_cons, List.map_cons, hR _ _ hr, ih]

theorem map_eq_map_of_forall₂ {γ δ : Type*} {R : α → β → Prop} {S : α → γ → Prop} {f : β → δ}
    {g : γ → δ} {l : List α} {m : List β} (h : List.Forall₂ R l m) :
    ∀ {m' : List γ}, List.Forall₂ S l m' → (∀ a ∈ l, ∀ b c, R a b → S a c → f b = g c) →
      m.map f = m'.map g := by
  induction h with
  | nil => intro m' h' _; cases h'; rfl
  | cons hr _ ih =>
    intro m' h' hRS
    cases h' with
    | cons hs h' =>
      rw [List.map_cons, List.map_cons, hRS _ List.mem_cons_self _ _ hr hs,
        ih h' fun a ha => hRS a (List.mem_cons_of_mem _ ha)]

theorem mapM_eq_ok_map {g : α → β} {l : List α} (h : ∀ a ∈ l, f a = .ok (g a)) :
    l.mapM f = .ok (l.map g) :=
  mapM_eq_ok_iff.mpr (List.forall₂_map_right_iff.mpr (List.forall₂_same.mpr h))

theorem exists_mapM_eq_ok {l : List α} (h : ∀ a ∈ l, ∃ b, f a = .ok b) :
    ∃ m, l.mapM f = .ok m := by
  induction l with
  | nil => exact ⟨[], rfl⟩
  | cons a l ih =>
    obtain ⟨b, hb⟩ := h a List.mem_cons_self
    obtain ⟨m, hm⟩ := ih fun a' ha' => h a' (List.mem_cons_of_mem a ha')
    exact ⟨b :: m, mapM_eq_ok_iff.mpr (.cons hb (mapM_eq_ok_iff.mp hm))⟩

theorem mapM_eq_ok_iff_self {f : α → Except ε α} (h : ∀ a b, f a = .ok b → b = a)
    {l m : List α} : l.mapM f = .ok m ↔ (∀ a ∈ l, f a = .ok a) ∧ m = l := by
  rw [mapM_eq_ok_iff]
  constructor
  · intro hm
    induction hm with
    | nil => exact ⟨fun _ ha => absurd ha List.not_mem_nil, rfl⟩
    | @cons a b l m hab _ ih =>
      obtain rfl := h a b hab
      exact ⟨List.forall_mem_cons.mpr ⟨hab, ih.1⟩, congrArg _ ih.2⟩
  · rintro ⟨hall, rfl⟩
    exact List.forall₂_same.mpr hall

end Batch
