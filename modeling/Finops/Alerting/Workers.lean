import Finops.Base.Run
import Finops.Alerting.Evaluator
import Mathlib.Logic.Function.Basic

/-!
# Evaluators that share a server

Any number of workers call `evaluate_budget` against one Redis server.  Between
two awaits a worker is in a `Phase`: about to read the mark, to send, to read the
mark again, or to write it.  An `Event` lets one worker take its next step, with
what the environment decides: the tables and the clock of a call, how the server
answers a read, what the notifier answers, whether a write arrives.  `expire` is a
key that reaches its time to live.  A step that is not the worker's next one does
nothing.

`World.history` holds every alert that was sent and every call that returned, in
order.  `World.seen` is what of a world matters to the others: the server, the
thresholds sent, and which of them are in flight, sent but not yet dealt with.
`seen_advance` is all that a step can do to it.  `solo_run` says that a call nobody
interrupts is `evaluateBudget`.
-/

namespace Finops

open Numerics Calendar HighWater Runs

structure Call where
  rows : List CostRow
  budget : Budget
  now : Moment
  dashboardUrl : Option String
  assessed : Assessment
  threshold : ℤ

def Call.crossing (call : Call) : Crossing :=
  ⟨call.budget.id, periodKey call.now call.budget.period.str, call.threshold⟩

inductive Phase
  | idle
  /-- `state.highest_fired` -/
  | reading (call : Call)
  /-- `notifier.send` -/
  | sending (alert : BudgetAlert)
  /-- `highest_fired` in `record_fired` -/
  | rereading (alert : BudgetAlert)
  /-- `client.set` in `record_fired` -/
  | writing (alert : BudgetAlert)

/-- The threshold a worker has sent and not yet dealt with. -/
def Phase.flight : Phase → Option Crossing
  | .rereading alert => some alert.crossing
  | .writing alert => some alert.crossing
  | _ => none

inductive Reply
  | served
  | failed
  /-- with a value that is no integer -/
  | corrupt
  deriving DecidableEq

/-- What has happened: an alert was sent, or a call came back.  With a call stands
the threshold that it found crossed. -/
inductive Note
  | sent (alert : BudgetAlert) (answer : Except PyError Bool)
  | returned (crossed : Option Crossing) (result : Except PyError (Option BudgetAlert))

structure World (ι : Type*) where
  server : Dict String ℤ
  phase : ι → Phase
  history : List Note

inductive Event (ι : Type*)
  | start (i : ι) (rows : List CostRow) (budget : Budget) (now : Moment)
      (dashboardUrl : Option String)
  | get (i : ι) (reply : Reply)
  | send (i : ι) (answer : Except PyError Bool)
  | set (i : ι) (applied : Bool)
  | expire (key : String)

namespace World

variable {ι : Type*} [DecidableEq ι]

def init : World ι := ⟨Dict.empty, fun _ => .idle, []⟩

def goto (w : World ι) (i : ι) (p : Phase) : World ι :=
  { w with phase := Function.update w.phase i p }

def finish (w : World ι) (i : ι) (crossed : Option Crossing)
    (result : Except PyError (Option BudgetAlert)) : World ι :=
  { w.goto i .idle with history := w.history ++ [.returned crossed result] }

def mark (w : World ι) (id : ℤ) (key : String) : Option ℤ :=
  RedisAlertState.highestFired w.server id key

/-- `highest_fired`: an outage and a corrupt value are nothing announced. -/
def highestFired (w : World ι) (id : ℤ) (key : String) : Reply → Option ℤ
  | .served => w.mark id key
  | .failed => none
  | .corrupt => none

def sent (w : World ι) : List (BudgetAlert × Except PyError Bool) :=
  w.history.filterMap fun
    | .sent alert answer => some (alert, answer)
    | .returned _ _ => none

def announced (w : World ι) (id : ℤ) (key : String) : List ℤ :=
  thresholdsFor id key (w.sent.map fun s => s.1.crossing)

end World

def advance {ι : Type*} [DecidableEq ι] (num : Arith) (w : World ι) : Event ι → World ι
  | .start i rows budget now dashboardUrl =>
    match w.phase i with
    | .idle =>
      match assess num rows budget now with
      | .error e => w.finish i none (.error e)
      | .ok a =>
        match a.threshold with
        | none => w.finish i none (.ok none)
        | some threshold => w.goto i (.reading ⟨rows, budget, now, dashboardUrl, a, threshold⟩)
    | _ => w
  | .get i reply =>
    match w.phase i with
    | .reading call =>
      let already := w.highestFired call.crossing.budgetId call.crossing.periodKey reply
      if Above already call.threshold then
        match buildAlert num call.rows call.budget call.now call.assessed call.threshold
            call.dashboardUrl with
        | .error e => w.finish i (some call.crossing) (.error e)
        | .ok alert => w.goto i (.sending alert)
      else w.finish i (some call.crossing) (.ok none)
    | .rereading alert =>
      let current := w.highestFired alert.budgetId alert.periodKey reply
      if Above current alert.threshold then w.goto i (.writing alert)
      else w.finish i (some alert.crossing) (.ok (some alert))
    | _ => w
  | .send i answer =>
    match w.phase i with
    | .sending alert =>
      let w := { w with history := w.history ++ [Note.sent alert answer] }
      match answer with
      | .error e => w.finish i (some alert.crossing) (.error e)
      | .ok _ => w.goto i (.rereading alert)
    | _ => w
  | .set i applied =>
    match w.phase i with
    | .writing alert =>
      let server := if applied
        then w.server.set (redisKey alert.budgetId alert.periodKey) alert.threshold else w.server
      { w with server := server }.finish i (some alert.crossing) (.ok (some alert))
    | _ => w
  | .expire key => { w with server := w.server.erase key }

/-! ### What the others see -/

/-- The server, the thresholds sent, and those in flight. -/
structure Seen (ι : Type*) where
  server : Dict String ℤ
  sent : List Crossing
  flight : ι → Option Crossing

variable {ι : Type*} [DecidableEq ι] {num : Arith} {w : World ι} {e : Event ι}

def World.seen (w : World ι) : Seen ι :=
  ⟨w.server, w.sent.map fun s => s.1.crossing, fun i => (w.phase i).flight⟩

def Seen.fly (s : Seen ι) (i : ι) (x : Option Crossing) : Seen ι :=
  { s with flight := Function.update s.flight i x }

/-- What a step can do to what is seen. -/
inductive Effect (w : World ι) : Event ι → Seen ι → Prop
  /-- nothing -/
  | quiet (e : Event ι) : Effect w e w.seen
  /-- a worker sends; unless the notifier raises, the threshold is in flight -/
  | sends (i : ι) (alert : BudgetAlert) (answer : Except PyError Bool)
      (h : w.phase i = .sending alert) :
      Effect w (.send i answer)
        ({ w.seen with sent := w.seen.sent ++ [alert.crossing] }.fly i
          (if answer.isOk then some alert.crossing else none))
  /-- a worker finds the mark high enough -/
  | drops (i : ι) (alert : BudgetAlert) (reply : Reply) (h : w.phase i = .rereading alert)
      (hm : ¬ Above (w.highestFired alert.budgetId alert.periodKey reply) alert.threshold) :
      Effect w (.get i reply) (w.seen.fly i none)
  /-- a worker writes the mark, and the write arrives or does not -/
  | writes (i : ι) (alert : BudgetAlert) (applied : Bool) (h : w.phase i = .writing alert) :
      Effect w (.set i applied) ({ w.seen with
        server := if applied then
          w.server.set (redisKey alert.budgetId alert.periodKey) alert.threshold
          else w.server }.fly i none)
  /-- a key expires -/
  | expires (key : String) :
      Effect w (.expire key) { w.seen with server := w.server.erase key }

theorem seen_goto (w : World ι) (i : ι) (p : Phase) :
    (w.goto i p).seen = w.seen.fly i p.flight := by
  show Seen.mk _ _ _ = Seen.mk _ _ _
  congr 1
  funext j
  by_cases h : j = i
  · subst h; simp [World.goto]
  · simp [World.goto, World.seen, h]

theorem seen_finish (w : World ι) (i : ι) (crossed : Option Crossing)
    (result : Except PyError (Option BudgetAlert)) :
    (w.finish i crossed result).seen = w.seen.fly i none := by
  rw [← show (w.goto i .idle).seen = w.seen.fly i none from seen_goto w i .idle]
  show Seen.mk _ _ _ = Seen.mk _ _ _
  congr 1
  rw [World.sent, World.finish, List.filterMap_append]
  simp [World.sent, World.goto]

omit [DecidableEq ι] in
theorem seen_sent (w : World ι) (alert : BudgetAlert) (answer : Except PyError Bool) :
    ({ w with history := w.history ++ [Note.sent alert answer] } : World ι).seen =
      { w.seen with sent := w.seen.sent ++ [alert.crossing] } := by
  simp [World.seen, World.sent]

theorem fly_self {i : ι} {x : Option Crossing} (h : (w.phase i).flight = x) :
    w.seen.fly i x = w.seen := by
  subst h
  exact congrArg (Seen.mk w.server _) (Function.update_eq_self i w.seen.flight)

theorem seen_send (num : Arith) {i : ι} {alert : BudgetAlert} (h : w.phase i = .sending alert)
    (answer : Except PyError Bool) : (advance num w (.send i answer)).seen =
      { w.seen with sent := w.seen.sent ++ [alert.crossing] }.fly i
        (if answer.isOk then some alert.crossing else none) := by
  rw [← seen_sent w alert answer]
  simp only [advance, h]
  cases answer with
  | error e => exact seen_finish _ i _ _
  | ok b => exact seen_goto _ i _

theorem seen_set (num : Arith) {i : ι} {alert : BudgetAlert} (h : w.phase i = .writing alert)
    (applied : Bool) : (advance num w (.set i applied)).seen =
      { w.seen with server := if applied then
          w.server.set (redisKey alert.budgetId alert.periodKey) alert.threshold
          else w.server }.fly i none := by
  simp only [advance, h]
  exact seen_finish _ i _ _

theorem Effect.of_eq {s s' : Seen ι} (h : Effect w e s) (hs : s' = s) : Effect w e s' := hs ▸ h

/-- **What one step can do.** -/
theorem seen_advance (num : Arith) (w : World ι) (e : Event ι) :
    Effect w e (advance num w e).seen := by
  cases e with
  | start i rows budget now url =>
    refine (Effect.quiet _).of_eq ?_
    simp only [advance]
    cases hp : w.phase i with
    | idle =>
      have hf : (w.phase i).flight = none := by rw [hp]; rfl
      cases assess num rows budget now with
      | error e => exact (seen_finish w i _ _).trans (fly_self hf)
      | ok a =>
        dsimp only
        split
        · exact (seen_finish w i _ _).trans (fly_self hf)
        · exact (seen_goto w i _).trans (fly_self (by rw [hp]; rfl))
    | _ => rfl
  | get i reply =>
    simp only [advance]
    cases hp : w.phase i with
    | reading call =>
      refine (Effect.quiet _).of_eq ?_
      have hf : (w.phase i).flight = none := by rw [hp]; rfl
      dsimp only
      split
      · split
        · exact (seen_finish w i _ _).trans (fly_self hf)
        · exact (seen_goto w i _).trans (fly_self (by rw [hp]; rfl))
      · exact (seen_finish w i _ _).trans (fly_self hf)
    | rereading alert =>
      dsimp only
      split
      · refine (Effect.quiet _).of_eq ((seen_goto w i _).trans (fly_self ?_))
        rw [hp]; rfl
      · rename_i hm
        exact (Effect.drops i alert reply hp hm).of_eq (seen_finish w i _ _)
    | _ => exact .quiet _
  | send i answer =>
    cases hp : w.phase i with
    | sending alert => exact (Effect.sends i alert answer hp).of_eq (seen_send num hp answer)
    | _ => simp only [advance, hp]; exact .quiet _
  | set i applied =>
    cases hp : w.phase i with
    | writing alert => exact (Effect.writes i alert applied hp).of_eq (seen_set num hp applied)
    | _ => simp only [advance, hp]; exact .quiet _
  | expire key => exact .expires key

/-! ### A call that nobody interrupts -/

def rest (i : ι) (answer : Except PyError Bool) : List (Event ι) :=
  [.get i .served, .send i answer, .get i .served, .set i true]

theorem after_rest_of_idle (num : Arith) {w : World ι} {i : ι} (h : w.phase i = .idle)
    (answer : Except PyError Bool) : after (advance num) w (rest i answer) = w := by
  simp only [rest, after_cons, after_nil, advance, h]

theorem phase_finish (w : World ι) (i : ι) (crossed : Option Crossing)
    (result : Except PyError (Option BudgetAlert)) : (w.finish i crossed result).phase i = .idle :=
  Function.update_self ..

theorem phase_goto (w : World ι) (i : ι) (p : Phase) : (w.goto i p).phase i = p :=
  Function.update_self ..

def World.Returned (w : World ι)
    (r : Evaluator (Dict String ℤ) × Except PyError (Option BudgetAlert)) : Prop :=
  w.server = r.1.state ∧ w.sent = r.1.sent ∧
    ∃ crossed, w.history.getLast? = some (.returned crossed r.2)

theorem returned_finish (w : World ι) (i : ι) (crossed : Option Crossing)
    (result : Except PyError (Option BudgetAlert)) :
    (w.finish i crossed result).Returned (⟨w.server, w.sent⟩, result) := by
  refine ⟨rfl, ?_, crossed, ?_⟩
  · simp [World.sent, World.finish]
  · simp [World.finish]

omit [DecidableEq ι] in
theorem sent_concat (w : World ι) (alert : BudgetAlert) (answer : Except PyError Bool) :
    ({ w with history := w.history ++ [Note.sent alert answer] } : World ι).sent =
      w.sent ++ [(alert, answer)] := by
  simp [World.sent]

theorem after_rereading (num : Arith) {w : World ι} {i : ι} {alert : BudgetAlert}
    (h : w.phase i = .rereading alert) :
    (after (advance num) w [.get i .served, .set i true]).Returned
      (⟨RedisAlertState.recordFired w.server alert.budgetId alert.periodKey alert.threshold,
        w.sent⟩, .ok (some alert)) := by
  have hrecord : RedisAlertState.recordFired w.server alert.budgetId alert.periodKey
      alert.threshold = if Above (w.mark alert.budgetId alert.periodKey) alert.threshold
        then w.server.set (redisKey alert.budgetId alert.periodKey) alert.threshold
        else w.server := rfl
  rw [hrecord, after_cons]
  by_cases hm : Above (w.mark alert.budgetId alert.periodKey) alert.threshold
  · have hget : advance num w (.get i .served) = w.goto i (.writing alert) := by
      simp only [advance, h]
      exact if_pos hm
    rw [hget, if_pos hm]
    simp only [after_cons, after_nil, advance, phase_goto, if_true]
    exact returned_finish ..
  · have hget : advance num w (.get i .served) =
        w.finish i (some alert.crossing) (.ok (some alert)) := by
      simp only [advance, h]
      exact if_neg hm
    rw [hget, if_neg hm]
    simp only [after_cons, after_nil, advance, phase_finish]
    exact returned_finish ..

theorem after_sending (num : Arith) {w : World ι} {i : ι} {alert : BudgetAlert}
    (h : w.phase i = .sending alert) (answer : Except PyError Bool) :
    (after (advance num) w [.send i answer, .get i .served, .set i true]).Returned
      (match answer with
        | .error e => (⟨w.server, w.sent ++ [(alert, answer)]⟩, .error e)
        | .ok _ => (⟨RedisAlertState.recordFired w.server alert.budgetId alert.periodKey
            alert.threshold, w.sent ++ [(alert, answer)]⟩, .ok (some alert))) := by
  rw [← sent_concat w alert answer, after_cons]
  cases answer with
  | error e =>
    simp only [after_cons, after_nil, advance, h, phase_finish]
    exact returned_finish ..
  | ok b =>
    have hsend : advance num w (.send i (.ok b)) =
        ({ w with history := w.history ++ [Note.sent alert (.ok b)] } : World ι).goto i
          (.rereading alert) := by
      simp only [advance, h]
    rw [hsend]
    exact after_rereading num (phase_goto ..)

theorem after_reading (num : Arith) {w : World ι} {i : ι} {call : Call}
    (h : w.phase i = .reading call) (answer : Except PyError Bool) :
    (after (advance num) w (rest i answer)).Returned
      (if Above (w.mark call.crossing.budgetId call.crossing.periodKey) call.threshold then
        match buildAlert num call.rows call.budget call.now call.assessed call.threshold
            call.dashboardUrl with
        | .error e => (⟨w.server, w.sent⟩, .error e)
        | .ok alert => match answer with
          | .error e => (⟨w.server, w.sent ++ [(alert, answer)]⟩, .error e)
          | .ok _ => (⟨RedisAlertState.recordFired w.server call.crossing.budgetId
              call.crossing.periodKey call.threshold, w.sent ++ [(alert, answer)]⟩,
              .ok (some alert))
      else (⟨w.server, w.sent⟩, .ok none)) := by
  rw [rest, after_cons]
  by_cases hm : Above (w.mark call.crossing.budgetId call.crossing.periodKey) call.threshold
  · rw [if_pos hm]
    have hget : advance num w (.get i .served) =
        match buildAlert num call.rows call.budget call.now call.assessed call.threshold
          call.dashboardUrl with
        | .error e => w.finish i (some call.crossing) (.error e)
        | .ok alert => w.goto i (.sending alert) := by
      simp only [advance, h]
      exact if_pos hm
    rw [hget]
    cases hb : buildAlert num call.rows call.budget call.now call.assessed call.threshold
        call.dashboardUrl with
    | error e =>
      simp only [after_cons, after_nil, advance, phase_finish]
      exact returned_finish ..
    | ok alert =>
      obtain ⟨hid, hkey, ht⟩ := buildAlert_eq_ok hb
      rw [Call.crossing, ← hid, ← hkey, ← ht]
      exact after_sending num (phase_goto ..) answer
  · rw [if_neg hm]
    have hget : advance num w (.get i .served) =
        w.finish i (some call.crossing) (.ok none) := by
      simp only [advance, h]
      exact if_neg hm
    rw [hget]
    simp only [after_cons, after_nil, advance, phase_finish]
    exact returned_finish ..

/-- **A call that nobody interrupts** is `evaluateBudget` over the Redis store. -/
theorem solo_run (num : Arith) (w : World ι) (i : ι) (rows : List CostRow) (budget : Budget)
    (now : Moment) (url : Option String) (answer : Except PyError Bool)
    (h : w.phase i = .idle) :
    (after (advance num) w (.start i rows budget now url :: rest i answer)).Returned
      (evaluateBudget num RedisAlertState rows budget (fun _ => answer) now url
        ⟨w.server, w.sent⟩) := by
  rw [after_cons]
  cases ha : assess num rows budget now with
  | error e =>
    simp only [advance, h, ha, evaluateBudget]
    rw [after_rest_of_idle num (phase_finish ..)]
    exact returned_finish ..
  | ok a =>
    cases ht : a.threshold with
    | none =>
      simp only [advance, h, ha, ht, evaluateBudget]
      rw [after_rest_of_idle num (phase_finish ..)]
      exact returned_finish ..
    | some t =>
      have hstart : advance num w (.start i rows budget now url) =
          w.goto i (.reading ⟨rows, budget, now, url, a, t⟩) := by
        simp only [advance, h, ha, ht]
      rw [hstart]
      simp only [evaluateBudget, ha, ht]
      exact after_reading num (phase_goto ..) answer

/-! ### What is always so -/

namespace Seen

def mark (s : Seen ι) (id : ℤ) (key : String) : Option ℤ :=
  RedisAlertState.highestFired s.server id key

def announced (s : Seen ι) (id : ℤ) (key : String) : List ℤ := thresholdsFor id key s.sent

/-- Marks and thresholds in flight were sent. -/
structure Consistent (s : Seen ι) : Prop where
  mark_sent : ∀ id key, ∀ m ∈ s.mark id key, m ∈ s.announced id key
  flight_sent : ∀ i, ∀ x ∈ s.flight i, x.threshold ∈ s.announced x.budgetId x.periodKey

end Seen

theorem mark_write {i : ι} {alert : BudgetAlert} {id : ℤ} {key : String} :
    ({ w.seen with
        server := w.server.set (redisKey alert.budgetId alert.periodKey) alert.threshold }.fly i
      none).mark id key =
      if (id, key) = (alert.budgetId, alert.periodKey) then some alert.threshold
      else w.mark id key := by
  show (w.server.set _ _).get? (redisKey id key) = _
  by_cases h : (id, key) = (alert.budgetId, alert.periodKey)
  · obtain ⟨rfl, rfl⟩ := Prod.mk.inj h
    rw [if_pos rfl, Dict.get?_set_self]
  · rw [if_neg h, Dict.get?_set_of_ne _ fun hk => h (redisKey_injective hk)]
    rfl

theorem flight_fly_self {s : Seen ι} {i : ι} {x : Option Crossing} :
    (s.fly i x).flight i = x := Function.update_self ..

theorem flight_fly_of_ne {s : Seen ι} {i j : ι} {x : Option Crossing} (h : j ≠ i) :
    (s.fly i x).flight j = s.flight j := Function.update_of_ne h ..

theorem mem_fly {s : Seen ι} {i j : ι} {x : Option Crossing} {c : Crossing}
    (h : c ∈ (s.fly i x).flight j) : c ∈ x ∨ c ∈ s.flight j := by
  by_cases hj : j = i
  · subst hj
    rw [flight_fly_self] at h
    exact .inl h
  · rw [flight_fly_of_ne hj] at h
    exact .inr h

/-- **One step** keeps marks and flights among what was sent. -/
theorem Seen.Consistent.effect {s : Seen ι} (h : w.seen.Consistent) (he : Effect w e s) :
    s.Consistent := by
  cases he with
  | quiet => exact h
  | sends i alert answer hp =>
    refine ⟨fun id key m hm => ?_, fun j x hx => ?_⟩
    · exact mem_thresholdsFor_concat.mpr (.inl (h.mark_sent id key m hm))
    · refine mem_thresholdsFor_concat.mpr ?_
      rcases mem_fly hx with hx | hx
      · split at hx
        · obtain rfl := Option.some.inj hx
          exact .inr ⟨rfl, rfl⟩
        · cases hx
      · exact .inl (h.flight_sent j x hx)
  | drops i alert reply hp hm =>
    refine ⟨h.mark_sent, fun j x hx => ?_⟩
    rcases mem_fly hx with hx | hx
    · cases hx
    · exact h.flight_sent j x hx
  | writes i alert applied hp =>
    have hfly : alert.crossing ∈ w.seen.flight i := by
      show (w.phase i).flight = some alert.crossing
      rw [hp]; rfl
    refine ⟨fun id key m hm => ?_, fun j x hx => ?_⟩
    · cases applied with
      | false => exact h.mark_sent id key m hm
      | true =>
        simp only [if_true] at hm
        rw [mark_write] at hm
        split at hm
        · rename_i hk
          obtain ⟨rfl, rfl⟩ := Prod.mk.inj hk
          obtain rfl := Option.some.inj hm
          exact h.flight_sent i _ hfly
        · exact h.mark_sent id key m hm
    · rcases mem_fly hx with hx | hx
      · cases hx
      · exact h.flight_sent j x hx
  | expires key =>
    exact ⟨fun id key' m hm => h.mark_sent id key' m (Dict.mem_of_mem_erase hm), h.flight_sent⟩

omit [DecidableEq ι] in
theorem consistent_init : (World.init : World ι).seen.Consistent where
  mark_sent := by intro id key m h; cases h
  flight_sent := by intro i x h; cases h

end Finops
