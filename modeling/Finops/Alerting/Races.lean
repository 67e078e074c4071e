import Finops.Alerting.Suppression

/-!
# Workers that announce twice

With a server that never fails, the workers should announce the thresholds of a
budget and a period in strictly increasing order, and the stored mark should never
fall.  Neither the decision to send nor the raise of the mark is atomic: another
worker may send or write between the read and what follows from it.

A `Turn` is a step of a worker on such a server.  It is `Undisturbed` when that
has not happened: a worker that sends finds the mark and every threshold in flight
still below, and one that writes finds the mark not above.  `announced_once_iff`
says that each is announced once in exactly the runs whose turns are all undisturbed.  On
the way there every announced threshold is at most the mark or still in flight
(`Seen.Ordered`), so that a new one above both is above all that came before.
-/

namespace Finops

open Numerics Calendar HighWater Runs

/-- A step of a worker, on a server that answers every call and with a notifier
that returns. -/
inductive Turn (ι : Type*)
  | start (i : ι) (rows : List CostRow) (budget : Budget) (now : Moment)
      (dashboardUrl : Option String)
  | get (i : ι)
  | send (i : ι) (answer : Bool)
  | set (i : ι)

def Turn.event {ι : Type*} : Turn ι → Event ι
  | .start i rows budget now dashboardUrl => .start i rows budget now dashboardUrl
  | .get i => .get i .served
  | .send i answer => .send i (.ok answer)
  | .set i => .set i true

variable {ι : Type*} [DecidableEq ι]

def turn (num : Arith) (w : World ι) (t : Turn ι) : World ι := advance num w t.event

/-- **No threshold is announced again**: those of each budget and period come in
strictly increasing order. -/
def Increasing (w : World ι) : Prop := ∀ id key, (w.announced id key).Pairwise (· < ·)

def MarksKept (w w' : World ι) : Prop :=
  ∀ id key, ∀ m ∈ w.mark id key, ∃ m' ∈ w'.mark id key, m ≤ m'

/-- Nobody came in between.  A worker that sends finds the mark, and what other
workers have in flight for the same budget and period, below its threshold.  A
worker that writes finds the mark not above. -/
def Undisturbed (w : World ι) : Turn ι → Prop
  | .send i _ => ∀ alert, w.phase i = .sending alert →
      Above (w.mark alert.budgetId alert.periodKey) alert.threshold ∧
      ∀ j, ∀ x ∈ (w.phase j).flight, x.budgetId = alert.budgetId →
        x.periodKey = alert.periodKey → x.threshold < alert.threshold
  | .set i => ∀ alert, w.phase i = .writing alert →
      ∀ m ∈ w.mark alert.budgetId alert.periodKey, m ≤ alert.threshold
  | _ => True

/-- Announcements increase, and each is at most the mark or in flight. -/
structure Seen.Ordered (s : Seen ι) : Prop where
  increasing : ∀ id key, (s.announced id key).Pairwise (· < ·)
  covered : ∀ id key, ∀ t ∈ s.announced id key,
    (∃ m ∈ s.mark id key, t ≤ m) ∨ ∃ j, (⟨id, key, t⟩ : Crossing) ∈ s.flight j

variable {num : Arith} {w : World ι} {t : Turn ι}

/-! ### One turn -/

theorem ordered_sends {i : ι} {alert : BudgetAlert} (h : w.seen.Ordered)
    (hp : w.phase i = .sending alert)
    (hm : Above (w.mark alert.budgetId alert.periodKey) alert.threshold)
    (hf : ∀ j, ∀ x ∈ (w.phase j).flight, x.budgetId = alert.budgetId →
      x.periodKey = alert.periodKey → x.threshold < alert.threshold) :
    ({ w.seen with sent := w.seen.sent ++ [alert.crossing] }.fly i
      (some alert.crossing)).Ordered := by
  have hnone : w.seen.flight i = none := by
    show (w.phase i).flight = none
    rw [hp]; rfl
  constructor
  · intro id key
    show (thresholdsFor id key (w.seen.sent ++ [alert.crossing])).Pairwise (· < ·)
    rw [thresholdsFor_concat]
    by_cases hk : alert.crossing.budgetId = id ∧ alert.crossing.periodKey = key
    · obtain ⟨rfl, rfl⟩ := hk
      rw [if_pos ⟨rfl, rfl⟩, List.pairwise_append]
      refine ⟨h.increasing _ _, List.pairwise_singleton _ _, fun a ha b hb => ?_⟩
      rw [List.mem_singleton.mp hb]
      rcases h.covered _ _ a ha with ⟨m, hmem, hle⟩ | ⟨j, hj⟩
      · exact hle.trans_lt (hm m hmem)
      · exact hf j _ hj rfl rfl
    · rw [if_neg hk, List.append_nil]
      exact h.increasing id key
  · intro id key a ha
    rcases mem_thresholdsFor_concat.mp ha with ha | ⟨hk, rfl⟩
    · rcases h.covered id key a ha with hmark | ⟨j, hj⟩
      · exact .inl hmark
      · have hne : j ≠ i := by
          rintro rfl
          rw [hnone] at hj
          cases hj
        exact .inr ⟨j, by rw [flight_fly_of_ne hne]; exact hj⟩
    · obtain ⟨rfl, rfl⟩ := Prod.mk.inj hk
      exact .inr ⟨i, by rw [flight_fly_self]; rfl⟩

theorem ordered_drops {i : ι} {alert : BudgetAlert} (h : w.seen.Ordered)
    (hp : w.phase i = .rereading alert)
    (hm : ¬ Above (w.mark alert.budgetId alert.periodKey) alert.threshold) :
    (w.seen.fly i none).Ordered := by
  refine ⟨h.increasing, fun id key a ha => ?_⟩
  rcases h.covered id key a ha with hmark | ⟨j, hj⟩
  · exact .inl hmark
  · by_cases hji : j = i
    · subst hji
      have hfly : (w.phase j).flight = some ⟨id, key, a⟩ := hj
      rw [hp] at hfly
      obtain ⟨rfl, rfl, rfl⟩ := Crossing.mk.inj (Option.some.inj hfly)
      exact .inl (not_above.mp hm)
    · exact .inr ⟨j, by rw [flight_fly_of_ne hji]; exact hj⟩

theorem ordered_writes {i : ι} {alert : BudgetAlert} (h : w.seen.Ordered)
    (hp : w.phase i = .writing alert)
    (hm : ∀ m ∈ w.mark alert.budgetId alert.periodKey, m ≤ alert.threshold) :
    ({ w.seen with
        server := w.server.set (redisKey alert.budgetId alert.periodKey) alert.threshold }.fly i
      none).Ordered := by
  refine ⟨h.increasing, fun id key a ha => ?_⟩
  rw [mark_write]
  by_cases hk : (id, key) = (alert.budgetId, alert.periodKey)
  · obtain ⟨rfl, rfl⟩ := Prod.mk.inj hk
    rw [if_pos rfl]
    rcases h.covered _ _ a ha with ⟨m, hmem, hle⟩ | ⟨j, hj⟩
    · exact .inl ⟨_, rfl, hle.trans (hm m hmem)⟩
    · by_cases hji : j = i
      · subst hji
        have hfly : (w.phase j).flight = some ⟨_, _, a⟩ := hj
        rw [hp] at hfly
        obtain ⟨_, _, rfl⟩ := Crossing.mk.inj (Option.some.inj hfly)
        exact .inl ⟨_, rfl, le_refl _⟩
      · exact .inr ⟨j, by rw [flight_fly_of_ne hji]; exact hj⟩
  · rw [if_neg hk]
    rcases h.covered id key a ha with hmark | ⟨j, hj⟩
    · exact .inl hmark
    · have hji : j ≠ i := by
        rintro rfl
        have hfly : (w.phase j).flight = some ⟨id, key, a⟩ := hj
        rw [hp] at hfly
        obtain ⟨rfl, rfl, rfl⟩ := Crossing.mk.inj (Option.some.inj hfly)
        exact hk rfl
      exact .inr ⟨j, by rw [flight_fly_of_ne hji]; exact hj⟩

/-- **One undisturbed turn** keeps the announcements in order and lowers no mark. -/
theorem ordered_turn (h : w.seen.Ordered) (hu : Undisturbed w t) :
    (turn num w t).seen.Ordered ∧ MarksKept w (turn num w t) := by
  have he := seen_advance num w t.event
  show (advance num w t.event).seen.Ordered ∧ ∀ id key, ∀ m ∈ w.mark id key,
    ∃ m' ∈ (advance num w t.event).seen.mark id key, m ≤ m'
  generalize (advance num w t.event).seen = s at he ⊢
  have hkept : ∀ id key, ∀ m ∈ w.mark id key, ∃ m' ∈ w.seen.mark id key, m ≤ m' :=
    fun id key m hm => ⟨m, hm, le_refl m⟩
  cases t with
  | start i rows budget now url =>
    cases he with
    | quiet => exact ⟨h, hkept⟩
  | get i =>
    cases he with
    | quiet => exact ⟨h, hkept⟩
    | drops i alert reply hp hm => exact ⟨ordered_drops h hp hm, hkept⟩
  | send i answer =>
    cases he with
    | quiet => exact ⟨h, hkept⟩
    | sends i alert answer hp =>
      obtain ⟨hm, hf⟩ := hu alert hp
      exact ⟨ordered_sends h hp hm hf, hkept⟩
  | set i =>
    cases he with
    | quiet => exact ⟨h, hkept⟩
    | writes i alert applied hp =>
      refine ⟨ordered_writes h hp (hu alert hp), fun id key m hm => ?_⟩
      simp only [if_true]
      rw [mark_write]
      by_cases hk : (id, key) = (alert.budgetId, alert.periodKey)
      · obtain ⟨rfl, rfl⟩ := Prod.mk.inj hk
        rw [if_pos rfl]
        exact ⟨_, rfl, hu alert hp m hm⟩
      · rw [if_neg hk]
        exact ⟨m, hm, le_refl m⟩

theorem undisturbed_of (hc : w.seen.Consistent) (hi : Increasing (turn num w t))
    (hk : MarksKept w (turn num w t)) : Undisturbed w t := by
  cases t with
  | start i rows budget now url => trivial
  | get i => trivial
  | send i answer =>
    intro alert hp
    have hann : (turn num w (.send i answer)).announced alert.budgetId alert.periodKey =
        w.announced alert.budgetId alert.periodKey ++ [alert.threshold] := by
      show (advance num w (.send i (.ok answer))).seen.announced _ _ = _
      rw [seen_send num hp, Seen.announced, Seen.fly]
      exact (thresholdsFor_concat _ _).trans (by rw [if_pos ⟨rfl, rfl⟩]; rfl)
    have hlast := hi alert.budgetId alert.periodKey
    rw [hann, List.pairwise_append] at hlast
    have hbelow : ∀ a ∈ w.announced alert.budgetId alert.periodKey, a < alert.threshold :=
      fun a ha => hlast.2.2 a ha _ (List.mem_singleton_self _)
    refine ⟨fun m hm => hbelow m (hc.mark_sent _ _ m hm), fun j x hx hid hkey => ?_⟩
    have hsent := hc.flight_sent j x hx
    rw [hid, hkey] at hsent
    exact hbelow _ hsent
  | set i =>
    intro alert hp m hm
    obtain ⟨m', hm', hle⟩ := hk _ _ m hm
    have hmark : (turn num w (.set i)).mark alert.budgetId alert.periodKey =
        some alert.threshold := by
      show (advance num w (.set i true)).seen.mark _ _ = _
      rw [seen_set num hp]
      exact mark_write.trans (if_pos rfl)
    rw [hmark] at hm'
    obtain rfl := Option.some.inj hm'
    exact hle

omit [DecidableEq ι] in
theorem ordered_init : (World.init : World ι).seen.Ordered where
  increasing := fun _ _ => List.Pairwise.nil
  covered := by intro id key t h; cases h

/-- **The runs that announce nothing again**: those in which nobody comes between
the read of a mark and the send or the write that follows from it. -/
theorem announced_once_iff (num : Arith) (ts : List (Turn ι)) :
    ((∀ pre, pre <+: ts → Increasing (after (turn num) .init pre)) ∧
      Along (turn num) (fun w t => MarksKept w (turn num w t)) .init ts) ↔
      Along (turn num) Undisturbed .init ts := by
  have hinit : Increasing (World.init : World ι) := (ordered_init (ι := ι)).increasing
  rw [forall_prefix_iff, and_iff_right hinit, along_and]
  refine along_congr (I := fun w : World ι => w.seen.Consistent ∧ w.seen.Ordered)
    (fun w t hI hu => ?_) (fun w t hI => ?_) ⟨consistent_init, ordered_init⟩
  · exact ⟨hI.1.effect (seen_advance num w t.event), (ordered_turn hI.2 hu).1⟩
  · constructor
    · intro hQ
      exact undisturbed_of hI.1 hQ.1 hQ.2
    · intro hu
      obtain ⟨ho, hk⟩ := ordered_turn hI.2 hu
      exact ⟨ho.increasing, hk⟩

/-! ### Two workers at once -/

/-- Both workers read before either has sent. -/
def twoAtOnce : List (Turn ℕ) :=
  [.start 0 [spent 0 85] (research 100 [80, 100]) august16 none,
    .start 1 [spent 0 85] (research 100 [80, 100]) august16 none,
    .get 0, .get 1, .send 0 true, .send 1 true]

/-- They both announce 80%. -/
theorem announced_twice : ¬ ((∀ pre, pre <+: twoAtOnce →
      Increasing (after (turn .exact) .init pre)) ∧
    Along (turn .exact) (fun w t => MarksKept w (turn .exact w t)) .init twoAtOnce) := by
  intro h
  have hannounced : (after (turn .exact) .init twoAtOnce).announced 1 "2026-08" = [80, 80] := by
    decide +kernel
  have hall := h.1 twoAtOnce (List.prefix_refl _) 1 "2026-08"
  rw [hannounced] at hall
  exact absurd hall (by decide)

end Finops
