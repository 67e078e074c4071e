import Finops.Base.Numerics

/-!
# Programs that draw at random

A `Generator` draws floats below one and integers below a bound, from a state that each
draw replaces.  A program that draws is a `Draw`: it takes the state along, and it may
raise.

`Returns m P` says that `m` raises nothing, in whatever state it starts, and that what it
returns satisfies `P`.  The rules follow the program: `returns_pure`, `Returns.bind`,
`returns_ite`, and `returns_repeated` for a loop of so many turns.

A weighted choice draws a point below the total of the weights and takes the option whose
part of the sums it falls into, or the last one (`returns_choices`).
-/

namespace Draws

open Numerics

/-- What a generator of random numbers draws, from its state. -/
structure Generator (σ : Type) where
  seed : ℤ → σ
  random : σ → ℚ × σ
  below : ℕ → σ → ℕ × σ
  random_nonneg : ∀ s, 0 ≤ (random s).1
  random_lt_one : ∀ s, (random s).1 < 1
  below_lt : ∀ n s, 0 < n → (below n s).1 < n

inductive DrawError
  | indexError
  | valueError (message : String)
  deriving DecidableEq, Repr

/-- A program that draws. -/
abbrev Draw (σ α : Type) := StateT σ (Except DrawError) α

variable {σ α β : Type}

/-- The program raises nothing, and what it returns satisfies `P`. -/
def Returns (m : Draw σ α) (P : α → Prop) : Prop := ∀ s, ∃ a s', m s = .ok (a, s') ∧ P a

def Generator.draw (g : Generator σ) : Draw σ ℚ := fun s => .ok (g.random s)

/-- `rng.choice(seq)`. -/
def Generator.choice (g : Generator σ) (options : List α) : Draw σ α := fun s =>
  match options[(g.below options.length s).1]? with
  | some a => .ok (a, (g.below options.length s).2)
  | none => .error .indexError

def repeated (m : Draw σ α) : ℕ → Draw σ (List α)
  | 0 => pure []
  | n + 1 => do
    let a ← m
    let rest ← repeated m n
    return a :: rest

/-! ### Weighted choices -/

/-- The sums that start at `total`, one addition at a time. -/
def sumsFrom (num : Arith) (total : ℚ) : List ℚ → List ℚ
  | [] => []
  | w :: ws => num.flt (total + w) :: sumsFrom num (num.flt (total + w)) ws

def accumulate (num : Arith) : List ℚ → List ℚ
  | [] => []
  | w :: ws => w :: sumsFrom num w ws

/-- Where `x` belongs among sums in their order, after those equal to it. -/
def bisectRight (sums : List ℚ) (x : ℚ) : ℕ := sums.findIdx fun sum => x < sum

/-- The option that the draw `r` falls to: the last one has no end. -/
def pick (num : Arith) (options : List (α × ℚ)) (total r : ℚ) : Option (α × ℚ) :=
  let sums := accumulate num (options.map Prod.snd)
  options[bisectRight (sums.take (options.length - 1)) (num.flt (r * total))]?

/-- `rng.choices(population, weights, k=1)[0]`, of options with their weights. -/
def Generator.choices (g : Generator σ) (num : Arith) (options : List (α × ℚ)) : Draw σ α := do
  match (accumulate num (options.map Prod.snd)).getLast? with
  | none => throw .indexError
  | some total =>
    if total ≤ 0 then throw (.valueError "Total of weights must be greater than zero")
    let r ← g.draw
    match pick num options total r with
    | some option => return option.1
    | none => throw .indexError

/-! ### Rules -/

theorem returns_pure {a : α} {P : α → Prop} (h : P a) : Returns (pure a : Draw σ α) P :=
  fun s => ⟨a, s, rfl, h⟩

theorem Returns.bind {m : Draw σ α} {f : α → Draw σ β} {P : α → Prop} {Q : β → Prop}
    (h : Returns m P) (hf : ∀ a, P a → Returns (f a) Q) : Returns (m >>= f) Q := by
  intro s
  obtain ⟨a, s', hm, ha⟩ := h s
  obtain ⟨b, s'', hb, hq⟩ := hf a ha s'
  refine ⟨b, s'', ?_, hq⟩
  show (m s >>= fun x => f x.1 x.2) = .ok (b, s'')
  rw [hm]
  exact hb

theorem Returns.mono {m : Draw σ α} {P Q : α → Prop} (h : Returns m P) (hpq : ∀ a, P a → Q a) :
    Returns m Q := by
  intro s
  obtain ⟨a, s', hm, ha⟩ := h s
  exact ⟨a, s', hm, hpq a ha⟩

theorem returns_ite {c : Prop} [Decidable c] {m m' : Draw σ α} {P : α → Prop}
    (h : c → Returns m P) (h' : ¬c → Returns m' P) : Returns (if c then m else m') P := by
  split
  · rename_i hc
    exact h hc
  · rename_i hc
    exact h' hc

/-- **So many turns** return so many values, each as one turn returns it. -/
theorem returns_repeated {m : Draw σ α} {P : α → Prop} (h : Returns m P) (n : ℕ) :
    Returns (repeated m n) fun values => values.length = n ∧ ∀ a ∈ values, P a := by
  induction n with
  | zero => exact returns_pure ⟨rfl, fun a ha => absurd ha List.not_mem_nil⟩
  | succ n ih =>
    refine h.bind fun a ha => ih.bind fun rest hrest => returns_pure ⟨?_, fun b hb => ?_⟩
    · rw [List.length_cons, hrest.1]
    · rcases List.mem_cons.mp hb with rfl | hb
      · exact ha
      · exact hrest.2 b hb

theorem returns_draw (g : Generator σ) : Returns g.draw fun r => 0 ≤ r ∧ r < 1 :=
  fun s => ⟨_, _, rfl, g.random_nonneg s, g.random_lt_one s⟩

theorem returns_choice (g : Generator σ) {options : List α} (h : options ≠ []) :
    Returns (g.choice options) (· ∈ options) := by
  intro s
  have hlt := g.below_lt options.length s (List.length_pos_iff.mpr h)
  refine ⟨options[(g.below options.length s).1], (g.below options.length s).2, ?_,
    List.getElem_mem hlt⟩
  rw [Generator.choice, List.getElem?_eq_getElem hlt]

/-! ### Weighted choices -/

theorem length_sumsFrom (num : Arith) (total : ℚ) (ws : List ℚ) :
    (sumsFrom num total ws).length = ws.length := by
  induction ws generalizing total with
  | nil => rfl
  | cons w ws ih => rw [sumsFrom, List.length_cons, ih, List.length_cons]

theorem length_accumulate (num : Arith) (ws : List ℚ) :
    (accumulate num ws).length = ws.length := by
  cases ws with
  | nil => rfl
  | cons w ws => rw [accumulate, List.length_cons, length_sumsFrom, List.length_cons]

theorem bisectRight_le (sums : List ℚ) (x : ℚ) : bisectRight sums x ≤ sums.length :=
  List.findIdx_le_length

theorem exists_pick (num : Arith) {options : List (α × ℚ)} (h : options ≠ []) (total r : ℚ) :
    ∃ option ∈ options, pick num options total r = some option := by
  have hlt : bisectRight ((accumulate num (options.map Prod.snd)).take (options.length - 1))
      (num.flt (r * total)) < options.length := by
    have hpos := List.length_pos_iff.mpr h
    have hle := (bisectRight_le ((accumulate num (options.map Prod.snd)).take
      (options.length - 1)) (num.flt (r * total))).trans (List.length_take_le _ _)
    omega
  exact ⟨_, List.getElem_mem hlt, List.getElem?_eq_getElem hlt⟩

/-- The roundings of an arithmetic keep positive values positive. -/
def Positive (num : Arith) : Prop := ∀ v, 0 < v → 0 < num.flt v

theorem sumsFrom_pos {num : Arith} (hnum : Positive num) {total : ℚ} (ht : 0 < total)
    {ws : List ℚ} (hws : ∀ w ∈ ws, 0 ≤ w) : ∀ sum ∈ sumsFrom num total ws, 0 < sum := by
  induction ws generalizing total with
  | nil => exact fun sum hs => absurd hs List.not_mem_nil
  | cons w ws ih =>
    have hw := hws w List.mem_cons_self
    have hnext : 0 < num.flt (total + w) := hnum _ (by linarith)
    intro sum hs
    rcases List.mem_cons.mp hs with rfl | hs
    · exact hnext
    · exact ih hnext (fun v hv => hws v (List.mem_cons_of_mem _ hv)) sum hs

theorem returns_choices {num : Arith} (hnum : Positive num) (g : Generator σ)
    {options : List (α × ℚ)} (h : options ≠ []) (hpos : ∀ option ∈ options, 0 < option.2) :
    Returns (g.choices num options) fun a => ∃ w, (a, w) ∈ options := by
  obtain ⟨total, htotal⟩ : ∃ total, (accumulate num (options.map Prod.snd)).getLast? =
      some total := by
    rw [← Option.isSome_iff_exists, List.getLast?_isSome, ← List.length_pos_iff,
      length_accumulate, List.length_map]
    exact List.length_pos_iff.mpr h
  have hsum : 0 < total := by
    cases options with
    | nil => exact absurd rfl h
    | cons first rest =>
      have hfirst := hpos first List.mem_cons_self
      have hmem : total ∈ first.2 :: sumsFrom num first.2 (rest.map Prod.snd) :=
        List.mem_of_getLast? htotal
      rcases List.mem_cons.mp hmem with rfl | hmem
      · exact hfirst
      · refine sumsFrom_pos hnum hfirst (fun w hw => ?_) total hmem
        obtain ⟨option, ho, rfl⟩ := List.mem_map.mp hw
        exact (hpos option (List.mem_cons_of_mem _ ho)).le
  unfold Generator.choices
  rw [htotal]
  dsimp only
  rw [if_neg (not_le.mpr hsum)]
  refine (returns_draw g).bind fun r _ => ?_
  obtain ⟨option, hmem, hpick⟩ := exists_pick num h total r
  rw [hpick]
  exact returns_pure ⟨option.2, hmem⟩

end Draws
