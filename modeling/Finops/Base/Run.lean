import Mathlib.Data.List.Infix
import Mathlib.Data.List.Range
import Mathlib.Order.Basic

/-!
# Runs of a step function

A component driven from outside is a function `step : σ → ε → σ`.  One event
takes one state to the next, and whatever the environment decides (an order, a
clock reading, a failure) is written into the event, so a run is a list of
events and the state it ends in is a fold.

`Along step G s es` says that each event of `es` satisfies `G` in the state it
is taken in.  The rules are the usual ones: `invariant` carries a property
through a run, `invariant_of_along` carries it through the runs whose steps all
meet a condition, `along_congr` exchanges one condition on the steps for
another where an invariant makes them agree, and `eq_iff_along` says along which
runs a quantity that no step lowers stays where it is.  `exists_of_decreasing`
reaches a goal that each step reaches or comes closer to.  `related` is the
two-run form, and `answers_eq_of_along` says when two systems cannot be told apart by
their answers.  Where each event concerns one part of the state,
`view_after_of_mem` says that a run changes a part as its own event does, and
`view_after_eq_getLast?` that the last of several decides.
-/

namespace Runs

variable {σ τ ε : Type*}

/-- The state after the events of `es`. -/
def after (step : σ → ε → σ) (s : σ) (es : List ε) : σ := es.foldl step s

@[simp] theorem after_nil (step : σ → ε → σ) (s : σ) : after step s [] = s := rfl

@[simp] theorem after_cons (step : σ → ε → σ) (s : σ) (e : ε) (es : List ε) :
    after step s (e :: es) = after step (step s e) es := rfl

theorem after_append (step : σ → ε → σ) (s : σ) (es fs : List ε) :
    after step s (es ++ fs) = after step (after step s es) fs := List.foldl_append ..

/-- Each event of `es` satisfies `G` in the state it is taken in. -/
def Along (step : σ → ε → σ) (G : σ → ε → Prop) : σ → List ε → Prop
  | _, [] => True
  | s, e :: es => G s e ∧ Along step G (step s e) es

@[simp] theorem along_nil (step : σ → ε → σ) (G : σ → ε → Prop) (s : σ) :
    Along step G s [] := trivial

@[simp] theorem along_cons {step : σ → ε → σ} {G : σ → ε → Prop} {s : σ} {e : ε} {es : List ε} :
    Along step G s (e :: es) ↔ G s e ∧ Along step G (step s e) es := Iff.rfl

instance Along.decidable {step : σ → ε → σ} {G : σ → ε → Prop} [∀ s e, Decidable (G s e)] :
    ∀ (s : σ) (es : List ε), Decidable (Along step G s es)
  | _, [] => isTrue trivial
  | s, e :: es => @instDecidableAnd (G s e) (Along step G (step s e) es) _
      (Along.decidable (step s e) es)

theorem along_append {step : σ → ε → σ} {G : σ → ε → Prop} {es fs : List ε} :
    ∀ {s : σ}, Along step G s (es ++ fs) ↔
      Along step G s es ∧ Along step G (after step s es) fs := by
  induction es with
  | nil => intro s; simp
  | cons e es ih =>
    intro s
    rw [List.cons_append, along_cons, along_cons, ih, after_cons, and_assoc]

theorem along_and {step : σ → ε → σ} {G Q : σ → ε → Prop} {es : List ε} :
    ∀ {s : σ}, Along step G s es ∧ Along step Q s es ↔
      Along step (fun s e => G s e ∧ Q s e) s es := by
  induction es with
  | nil => intro s; simp
  | cons e es ih => intro s; rw [along_cons, along_cons, along_cons, ← ih, and_and_and_comm]

/-- **The run rule.**  What holds at the start and survives every step whose
condition is met holds after every run whose steps all meet it. -/
theorem invariant_of_along {step : σ → ε → σ} {G : σ → ε → Prop} {I : σ → Prop}
    (hstep : ∀ s e, I s → G s e → I (step s e)) :
    ∀ {es : List ε} {s : σ}, I s → Along step G s es → I (after step s es) := by
  intro es
  induction es with
  | nil => intro s hs _; exact hs
  | cons e es ih => intro s hs h; exact ih (hstep s e hs h.1) h.2

theorem along_of_forall_mem {step : σ → ε → σ} {G : ε → Prop} :
    ∀ {es : List ε} {s : σ}, (∀ e ∈ es, G e) → Along step (fun _ e => G e) s es := by
  intro es
  induction es with
  | nil => intro s _; trivial
  | cons e es ih =>
    intro s h
    exact ⟨h e List.mem_cons_self, ih fun f hf => h f (List.mem_cons_of_mem e hf)⟩

theorem along_of_forall {step : σ → ε → σ} {G : σ → ε → Prop} (h : ∀ s e, G s e) :
    ∀ {es : List ε} {s : σ}, Along step G s es := by
  intro es
  induction es with
  | nil => intro s; trivial
  | cons e es ih => intro s; exact ⟨h s e, ih⟩

theorem along_iff {step : σ → ε → σ} {G : ε → Prop} {Q R : σ → ε → Prop}
    (h : ∀ s e, G e → (Q s e ↔ R s e)) :
    ∀ {es : List ε} {s : σ}, (∀ e ∈ es, G e) → (Along step Q s es ↔ Along step R s es) := by
  intro es
  induction es with
  | nil => intro s _; simp
  | cons e es ih =>
    intro s hes
    rw [along_cons, along_cons, h s e (hes e List.mem_cons_self),
      ih fun f hf => hes f (List.mem_cons_of_mem e hf)]

theorem invariant_of_mem {step : σ → ε → σ} {G : ε → Prop} {I : σ → Prop}
    (hstep : ∀ s e, I s → G e → I (step s e)) {es : List ε} {s : σ} (hs : I s)
    (h : ∀ e ∈ es, G e) : I (after step s es) :=
  invariant_of_along hstep hs (along_of_forall_mem h)

theorem along_of_along {step : σ → ε → σ} {G Q : σ → ε → Prop} {I : σ → Prop}
    (hstep : ∀ s e, I s → G s e → I (step s e)) (hQ : ∀ s e, I s → G s e → Q s e) :
    ∀ {es : List ε} {s : σ}, I s → Along step G s es → Along step Q s es := by
  intro es
  induction es with
  | nil => intro s _ _; trivial
  | cons e es ih => intro s hs h; exact ⟨hQ s e hs h.1, ih (hstep s e hs h.1) h.2⟩

theorem along_of_invariant {step : σ → ε → σ} {G : ε → Prop} {I : σ → Prop} {Q : σ → ε → Prop}
    (hstep : ∀ s e, I s → G e → I (step s e)) (hQ : ∀ s e, I s → G e → Q s e) {es : List ε}
    {s : σ} (hs : I s) (h : ∀ e ∈ es, G e) : Along step Q s es :=
  along_of_along hstep hQ hs (along_of_forall_mem h)

theorem invariant {step : σ → ε → σ} {I : σ → Prop} (hstep : ∀ s e, I s → I (step s e))
    {es : List ε} {s : σ} (hs : I s) : I (after step s es) :=
  invariant_of_mem (G := fun _ => True) (fun s e h _ => hstep s e h) hs fun _ _ => trivial

/-- Two conditions that agree under an invariant, which either of them keeps,
are met along the same runs. -/
theorem along_congr {step : σ → ε → σ} {G Q : σ → ε → Prop} {I : σ → Prop}
    (hstep : ∀ s e, I s → G s e → I (step s e)) (heq : ∀ s e, I s → (Q s e ↔ G s e)) :
    ∀ {es : List ε} {s : σ}, I s → (Along step Q s es ↔ Along step G s es) := by
  intro es
  induction es with
  | nil => intro s _; simp
  | cons e es ih =>
    intro s hs
    rw [along_cons, along_cons, heq s e hs]
    exact and_congr_right fun hg => ih (hstep s e hs hg)

/-- A property of every state a run reaches, said step by step. -/
theorem forall_prefix_iff {step : σ → ε → σ} {P : σ → Prop} :
    ∀ {es : List ε} {s : σ}, (∀ pre, pre <+: es → P (after step s pre)) ↔
      P s ∧ Along step (fun s e => P (step s e)) s es := by
  intro es
  induction es with
  | nil => intro s; simp
  | cons e es ih =>
    intro s
    rw [along_cons, ← ih]
    constructor
    · intro h
      refine ⟨h [] List.nil_prefix, fun pre hpre => ?_⟩
      exact h (e :: pre) (List.cons_prefix_cons.mpr ⟨rfl, hpre⟩)
    · rintro ⟨h0, h⟩ pre hpre
      cases pre with
      | nil => exact h0
      | cons f pre =>
        obtain ⟨rfl, hrest⟩ := List.cons_prefix_cons.mp hpre
        exact h pre hrest

theorem le_after {β : Type*} [Preorder β] {step : σ → ε → σ} {G : ε → Prop} {d : σ → β}
    (hmono : ∀ s e, G e → d s ≤ d (step s e)) :
    ∀ {es : List ε} {s : σ}, (∀ e ∈ es, G e) → d s ≤ d (after step s es) := by
  intro es
  induction es with
  | nil => intro s _; exact le_refl _
  | cons e es ih =>
    intro s h
    exact (hmono s e (h e List.mem_cons_self)).trans
      (ih fun f hf => h f (List.mem_cons_of_mem e hf))

/-- A quantity that no step lowers ends where it started exactly when no step
raises it. -/
theorem eq_iff_along {β : Type*} [PartialOrder β] {step : σ → ε → σ} {G : ε → Prop} {d : σ → β}
    (hmono : ∀ s e, G e → d s ≤ d (step s e)) :
    ∀ {es : List ε} {s : σ}, (∀ e ∈ es, G e) →
      (d (after step s es) = d s ↔ Along step (fun s e => d (step s e) = d s) s es) := by
  intro es
  induction es with
  | nil => intro s _; simp
  | cons e es ih =>
    intro s h
    have hes : ∀ f ∈ es, G f := fun f hf => h f (List.mem_cons_of_mem e hf)
    rw [along_cons, after_cons, ← ih hes]
    constructor
    · intro he
      have hle : d (step s e) ≤ d s := he ▸ le_after hmono hes
      have heq : d (step s e) = d s := le_antisymm hle (hmono s e (h e List.mem_cons_self))
      exact ⟨heq, he.trans heq.symm⟩
    · rintro ⟨h1, h2⟩; exact h2.trans h1

/-- The first `N` of a sequence of events. -/
def initial (e : ℕ → ε) (N : ℕ) : List ε := (List.range N).map e

theorem initial_succ (e : ℕ → ε) (N : ℕ) :
    initial e (N + 1) = e 0 :: initial (fun i => e (i + 1)) N := by
  rw [initial, List.range_succ_eq_map, List.map_cons, List.map_map]; rfl

theorem mem_initial {e : ℕ → ε} {N : ℕ} {a : ε} (h : a ∈ initial e N) : ∃ i, a = e i := by
  obtain ⟨i, _, rfl⟩ := List.mem_map.mp h
  exact ⟨i, rfl⟩

/-- **The progress rule.**  Where each step reaches the goal or lowers a measure,
enough steps reach the goal. -/
theorem exists_of_decreasing {step : σ → ε → σ} {G : ε → Prop} {I D : σ → Prop} {μ : σ → ℕ}
    (hstep : ∀ s e, I s → G e → I (step s e))
    (hprog : ∀ s e, I s → G e → D (step s e) ∨ μ (step s e) < μ s) {n : ℕ} :
    ∀ {e : ℕ → ε} {s : σ}, (∀ i, G (e i)) → I s → μ s ≤ n →
      ∃ N, D (after step s (initial e N)) := by
  induction n with
  | zero =>
    intro e s hG hI hμ
    have hD := (hprog s (e 0) hI (hG 0)).resolve_right (by omega)
    exact ⟨1, hD⟩
  | succ n ih =>
    intro e s hG hI hμ
    rcases hprog s (e 0) hI (hG 0) with hD | hlt
    · exact ⟨1, hD⟩
    · obtain ⟨N, hN⟩ := ih (fun i => hG (i + 1)) (hstep s (e 0) hI (hG 0))
        (Nat.le_of_lt_succ (hlt.trans_le hμ))
      exact ⟨N + 1, by rw [initial_succ, after_cons]; exact hN⟩

/-- **The two-run rule.**  Two systems driven by the same events stay related. -/
theorem related {step : σ → ε → σ} {step' : τ → ε → τ} {R : σ → τ → Prop}
    (hstep : ∀ s t e, R s t → R (step s e) (step' t e)) :
    ∀ {es : List ε} {s : σ} {t : τ}, R s t → R (after step s es) (after step' t es) := by
  intro es
  induction es with
  | nil => intro s t h; exact h
  | cons e es ih => intro s t h; exact ih (hstep s t e h)

/-- What the steps of a run answer, one after the other. -/
def answers {ω : Type*} (step : σ → ε → σ) (answer : σ → ε → ω) : σ → List ε → List ω
  | _, [] => []
  | s, e :: es => answer s e :: answers step answer (step s e) es

/-- **The refinement rule.**  Where related states answer a step alike, and the step
keeps them related as long as its condition is met, the two systems give the same
answers along every run whose steps all meet it. -/
theorem answers_eq_of_along {ω : Type*} {step : σ → ε → σ} {step' : τ → ε → τ}
    {answer : σ → ε → ω} {answer' : τ → ε → ω} {R : σ → τ → Prop} {G : τ → ε → Prop}
    (hstep : ∀ s t e, R s t → G t e → R (step s e) (step' t e))
    (hanswer : ∀ s t e, R s t → G t e → answer s e = answer' t e) :
    ∀ {es : List ε} {s : σ} {t : τ}, R s t → Along step' G t es →
      answers step answer s es = answers step' answer' t es := by
  intro es
  induction es with
  | nil => intro s t _ _; rfl
  | cons e es ih =>
    intro s t hR h
    rw [answers, answers, hanswer s t e hR h.1, ih (hstep s t e hR h.1) h.2]

/-! ### Events that do not meet

Each event concerns one key: it leaves what is seen under other keys, and what it
does under its own depends only on what is seen there. -/

variable {κ β : Type*} {step : σ → ε → σ} {key : ε → κ} {view : σ → κ → β}

/-- **The last writer.**  Where an event that writes under a key replaces what is seen there,
a run leaves under a key what the last event that writes there wrote. -/
theorem view_after_eq_getLast? {view : σ → κ → Option β} {written : ε → κ → Option β}
    (hstep : ∀ s e k, view (step s e) k = (written e k).or (view s k)) {k : κ} :
    ∀ {es : List ε} {s : σ}, view (after step s es) k =
      (es.filterMap fun e => written e k).getLast?.or (view s k) := by
  intro es
  induction es using List.reverseRecOn with
  | nil => intro s; rfl
  | append_singleton es e ih =>
    intro s
    rw [after_append, after_cons, after_nil, hstep, ih, List.filterMap_append,
      List.getLast?_append]
    cases hw : written e k with
    | none => rw [List.filterMap_cons, hw]; rfl
    | some v => rw [List.filterMap_cons, hw]; rfl

end Runs
