import Finops.Alerting.State
import Finops.Base.Run

/-!
# The alert state on a server

A Redis server keeps texts under text keys, each until its time to live is over.
`RedisAlertState` writes a mark as a numeral and reads it back with `int()`.  Neither a
key nor a value can be made of an integer of more than `MAX_STR_DIGITS` digits: a
threshold of more is not written, and no caller is told.

A server whose entries are all read in time holds the marks of any other store of
alert state (`Represents`), so what it answers about integers that can be rendered is
what `InMemoryAlertState` answers (`refines_memory`).
-/

namespace Finops.Redis

open HighWater Runs Text

/-- A text on the server, and the last millisecond in which it is there. -/
structure Entry where
  text : String
  expiresAt : ℕ

abbrev Server := Dict String Entry

/-- `GET key`. -/
def Server.lookup (server : Server) (now : ℕ) (key : String) : Option String :=
  match server.get? key with
  | some entry => if now ≤ entry.expiresAt then some entry.text else none
  | none => none

/-- `SET key value EX ex`, which the server refuses where `ex` is zero. -/
def Server.store (server : Server) (now : ℕ) (key value : String) (ex : ℕ) : Option Server :=
  if ex = 0 then none else some (server.set key ⟨value, now + 1000 * ex⟩)

/-- `TTL_SECONDS`: two months, so a key outlives the period it belongs to but does
not accumulate. -/
def TTL_SECONDS : ℕ := 60 * 60 * 24 * 62

/-- What an integer of too many digits raises as it is rendered. -/
def digitsError : PyError := .valueError ("Exceeds the limit (" ++ toString MAX_STR_DIGITS ++
  " digits) for integer string conversion; use sys.set_int_max_str_digits() to increase the limit")

def key (budgetId : ℤ) (period : String) : Except PyError String :=
  match str? MAX_STR_DIGITS budgetId with
  | some numeral => .ok (KEY_PREFIX ++ ":" ++ numeral ++ ":" ++ period)
  | none => .error digitsError

/-- Read the high-water mark.  Where the key cannot be made, the warning that says so has
the same integer to render, and raises in turn. -/
def highestFired (server : Server) (now : ℕ) (budgetId : ℤ) (period : String) :
    Except PyError (Option ℤ) := do
  let key ← key budgetId period
  match server.lookup now key with
  | none => return none
  | some raw => return intWithin? MAX_STR_DIGITS raw

/-- Raise the high-water mark, keeping the larger of the two values: the server after it.
An error leaves the server as it is, whether the caller sees it or not. -/
def recordFired (ttlSeconds : ℕ) (server : Server) (readAt writtenAt : ℕ) (budgetId : ℤ)
    (period : String) (threshold : ℤ) : Server :=
  match key budgetId period, highestFired server readAt budgetId period with
  | .ok key, .ok current =>
    if Above current threshold then
      match str? MAX_STR_DIGITS threshold with
      | some value => (server.store writtenAt key value ttlSeconds).getD server
      | none => server
    else server
  | _, _ => server

/-! ### Calls of one client -/

/-- A call, with the milliseconds in which the server executes its commands. -/
inductive Call
  | highestFired (now : ℕ) (budgetId : ℤ) (period : String)
  | recordFired (readAt writtenAt : ℕ) (budgetId : ℤ) (period : String) (threshold : ℤ)

def Call.reads : Call → ℕ × ℤ × String
  | .highestFired now budgetId period => (now, budgetId, period)
  | .recordFired readAt _ budgetId period _ => (readAt, budgetId, period)

def Server.call (ttlSeconds : ℕ) (server : Server) : Call → Server
  | .highestFired _ _ _ => server
  | .recordFired readAt writtenAt budgetId period threshold =>
    recordFired ttlSeconds server readAt writtenAt budgetId period threshold

def Server.answer (server : Server) : Call → Except PyError (Option ℤ)
  | .highestFired now budgetId period => highestFired server now budgetId period
  | .recordFired _ _ _ _ _ => .ok none

variable {σ : Type*} (store : AlertStateStore σ) (ttlSeconds : ℕ)

/-- The same call on another store, which has no clock. -/
def call (marks : σ) : Call → σ
  | .highestFired _ _ _ => marks
  | .recordFired _ _ budgetId period threshold => store.recordFired marks budgetId period threshold

def answer (marks : σ) : Call → Except PyError (Option ℤ)
  | .highestFired _ budgetId period => .ok (store.highestFired marks budgetId period)
  | .recordFired _ _ _ _ _ => .ok none

/-- The marks, and when each of them was last raised. -/
structure Noted (σ : Type*) where
  marks : σ
  raisedAt : Dict (ℤ × String) ℕ

def Noted.fresh : Noted σ := ⟨store.fresh, Dict.empty⟩

def Noted.call (s : Noted σ) (c : Call) : Noted σ where
  marks := Redis.call store s.marks c
  raisedAt :=
    match c with
    | .highestFired _ _ _ => s.raisedAt
    | .recordFired _ writtenAt budgetId period threshold =>
      if Above (store.highestFired s.marks budgetId period) threshold then
        s.raisedAt.set (budgetId, period) writtenAt
      else s.raisedAt

def Call.Renderable : Call → Prop
  | .highestFired _ budgetId _ => Short MAX_STR_DIGITS budgetId
  | .recordFired _ _ budgetId _ threshold =>
    Short MAX_STR_DIGITS budgetId ∧ Short MAX_STR_DIGITS threshold

instance (c : Call) : Decidable c.Renderable :=
  match c with
  | .highestFired _ _ _ => inferInstanceAs (Decidable (Short _ _))
  | .recordFired _ _ _ _ _ => inferInstanceAs (Decidable (_ ∧ _))

/-- A call reads its mark within the time to live after it was last raised. -/
def InTime (s : Noted σ) (c : Call) : Prop :=
  ∀ raised ∈ s.raisedAt.get? c.reads.2, c.reads.1 ≤ raised + 1000 * ttlSeconds

instance (s : Noted σ) (c : Call) : Decidable (InTime ttlSeconds s c) :=
  inferInstanceAs (Decidable (∀ raised ∈ s.raisedAt.get? c.reads.2,
    c.reads.1 ≤ raised + 1000 * ttlSeconds))

/-! ### The marks on the server -/

/-- The server holds each mark as a numeral, for the time to live after it was raised. -/
def Represents (server : Server) (s : Noted σ) : Prop :=
  ∀ budgetId period,
    match store.highestFired s.marks budgetId period with
    | none => server.get? (redisKey budgetId period) = none
    | some mark => Short MAX_STR_DIGITS mark ∧
        ∃ raised, s.raisedAt.get? (budgetId, period) = some raised ∧
          server.get? (redisKey budgetId period) =
            some ⟨toString mark, raised + 1000 * ttlSeconds⟩

variable {store ttlSeconds} {server : Server} {s : Noted σ} {budgetId : ℤ} {period : String}

theorem represents_fresh : Represents store ttlSeconds Dict.empty (Noted.fresh store) := by
  intro budgetId period
  rw [Noted.fresh, store.highestFired_fresh]
  rfl

theorem key_eq_ok (h : Short MAX_STR_DIGITS budgetId) (period : String) :
    key budgetId period = .ok (redisKey budgetId period) := by
  simp only [key, str?_of_short h]
  rfl

theorem highestFired_eq {now : ℕ} (h : Represents store ttlSeconds server s)
    (hid : Short MAX_STR_DIGITS budgetId)
    (htime : ∀ raised ∈ s.raisedAt.get? (budgetId, period), now ≤ raised + 1000 * ttlSeconds) :
    highestFired server now budgetId period =
      .ok (store.highestFired s.marks budgetId period) := by
  have hentry := h budgetId period
  rw [highestFired, key_eq_ok hid]
  show (match server.lookup now (redisKey budgetId period) with
    | none => _
    | some raw => _) = _
  rw [Server.lookup]
  cases hm : store.highestFired s.marks budgetId period with
  | none =>
    rw [hm] at hentry
    rw [hentry]
    rfl
  | some mark =>
    rw [hm] at hentry
    obtain ⟨hdigits, raised, hraised, hget⟩ := hentry
    rw [hget]
    dsimp only
    rw [if_pos (htime raised hraised)]
    dsimp only
    rw [intWithin?_toString (by decide) hdigits]
    rfl

theorem represents_of_not_above {threshold : ℤ} {writtenAt : ℕ}
    (h : Represents store ttlSeconds server s)
    (habove : ¬ Above (store.highestFired s.marks budgetId period) threshold) (readAt : ℕ) :
    Represents store ttlSeconds server
      (s.call store (.recordFired readAt writtenAt budgetId period threshold)) := by
  intro id p
  have hmark : store.highestFired (store.recordFired s.marks budgetId period threshold) id p =
      store.highestFired s.marks id p := by
    by_cases hk : (id, p) = (budgetId, period)
    · obtain ⟨rfl, rfl⟩ := Prod.mk.inj hk
      rw [store.highestFired_recordFired, raise_of_not_above habove]
    · exact store.highestFired_recordFired_of_ne _ _ _ _ _ _ hk
  rw [Noted.call]
  dsimp only [Redis.call]
  rw [hmark, if_neg habove]
  exact h id p

theorem represents_of_above {threshold : ℤ} {writtenAt : ℕ}
    (h : Represents store ttlSeconds server s)
    (habove : Above (store.highestFired s.marks budgetId period) threshold)
    (hdigits : Short MAX_STR_DIGITS threshold) (readAt : ℕ) :
    Represents store ttlSeconds
      (server.set (redisKey budgetId period)
        ⟨toString threshold, writtenAt + 1000 * ttlSeconds⟩)
      (s.call store (.recordFired readAt writtenAt budgetId period threshold)) := by
  intro id p
  rw [Noted.call]
  dsimp only [Redis.call]
  rw [if_pos habove]
  by_cases hk : (id, p) = (budgetId, period)
  · obtain ⟨rfl, rfl⟩ := Prod.mk.inj hk
    rw [store.highestFired_recordFired, raise_of_above habove]
    exact ⟨hdigits, writtenAt, Dict.get?_set_self _ _ _, Dict.get?_set_self _ _ _⟩
  · have hkey : redisKey id p ≠ redisKey budgetId period := fun he => hk (redisKey_injective he)
    rw [store.highestFired_recordFired_of_ne _ _ _ _ _ _ hk, Dict.get?_set_of_ne _ hkey,
      Dict.get?_set_of_ne _ hk]
    exact h id p

/-- **One call** keeps the marks on the server. -/
theorem represents_call (httl : 0 < ttlSeconds) {c : Call}
    (h : Represents store ttlSeconds server s) (htime : InTime ttlSeconds s c)
    (hdigits : c.Renderable) :
    Represents store ttlSeconds (server.call ttlSeconds c) (s.call store c) := by
  cases c with
  | highestFired now budgetId period => exact h
  | recordFired readAt writtenAt budgetId period threshold =>
    obtain ⟨hid, hthreshold⟩ := hdigits
    have hread : highestFired server readAt budgetId period =
        .ok (store.highestFired s.marks budgetId period) := highestFired_eq h hid htime
    rw [Server.call, recordFired, hread, key_eq_ok hid]
    dsimp only
    by_cases habove : Above (store.highestFired s.marks budgetId period) threshold
    · rw [if_pos habove, str?_of_short hthreshold]
      dsimp only
      rw [Server.store, if_neg httl.ne', Option.getD_some]
      exact represents_of_above h habove hthreshold readAt
    · rw [if_neg habove]
      exact represents_of_not_above h habove readAt

theorem answer_eq {c : Call} (h : Represents store ttlSeconds server s)
    (htime : InTime ttlSeconds s c) (hdigits : c.Renderable) :
    server.answer c = answer store s.marks c := by
  cases c with
  | highestFired now budgetId period => exact highestFired_eq h hdigits htime
  | recordFired readAt writtenAt budgetId period threshold => rfl

theorem answers_noted (calls : List Call) (s : Noted σ) :
    answers (Noted.call store) (fun s c => answer store s.marks c) s calls =
      answers (call store) (answer store) s.marks calls :=
  answers_eq_of_along (R := fun s marks => s.marks = marks) (G := fun _ _ => True)
    (fun s marks c h _ => by rw [← h]; rfl) (fun s marks c h _ => by rw [h]) rfl
    (along_of_forall fun _ _ => trivial)

/-! ### Refinement -/

theorem answers_eq (store : AlertStateStore σ) (httl : 0 < ttlSeconds) {calls : List Call}
    (hdigits : ∀ c ∈ calls, c.Renderable)
    (htime : Along (Noted.call store) (InTime ttlSeconds) (Noted.fresh store) calls) :
    answers (Server.call ttlSeconds) Server.answer Dict.empty calls =
      answers (call store) (answer store) store.fresh calls := by
  have hnoted : answers (Server.call ttlSeconds) Server.answer Dict.empty calls =
      answers (Noted.call store) (fun s c => answer store s.marks c) (Noted.fresh store)
        calls := by
    refine answers_eq_of_along (R := Represents store ttlSeconds) ?_ ?_ represents_fresh
      (along_and.mp ⟨htime, along_of_forall_mem hdigits⟩)
    · exact fun server s c h hc => represents_call httl h hc.1 hc.2
    · exact fun server s c h hc => answer_eq h hc.1 hc.2
  rw [hnoted]
  exact answers_noted calls (Noted.fresh store)

theorem answers_eq_table (httl : 0 < ttlSeconds) {calls : List Call}
    (hdigits : ∀ c ∈ calls, c.Renderable)
    (htime : Along (Noted.call RedisAlertState) (InTime ttlSeconds)
      (Noted.fresh RedisAlertState) calls) :
    answers (Server.call ttlSeconds) Server.answer Dict.empty calls =
      answers (call RedisAlertState) (answer RedisAlertState) RedisAlertState.fresh calls :=
  answers_eq RedisAlertState httl hdigits htime

/-- **`RedisAlertState` refines `InMemoryAlertState`.**  Whatever one client calls, for
whichever budgets, periods and thresholds that can be rendered, both stores answer alike,
as long as it reads each mark within the time to live after the mark was last raised. -/
theorem refines_memory {ttlSeconds : ℕ} (httl : 0 < ttlSeconds) {calls : List Call}
    (hdigits : ∀ c ∈ calls, c.Renderable)
    (htime : Along (Noted.call InMemoryAlertState) (InTime ttlSeconds)
      (Noted.fresh InMemoryAlertState) calls) :
    answers (Server.call ttlSeconds) Server.answer Dict.empty calls =
      answers (call InMemoryAlertState) (answer InMemoryAlertState) InMemoryAlertState.fresh
        calls :=
  answers_eq InMemoryAlertState httl hdigits htime

/-! Budget 7 crosses 80, and 100 a week later. -/

def julyCalls : List Call :=
  [.recordFired 0 1 7 "2026-07" 80, .highestFired 2 7 "2026-07", .recordFired 3 4 7 "2026-07" 50,
    .recordFired 604800000 604800001 7 "2026-07" 100, .highestFired 604800002 7 "2026-07"]

theorem refines_memory_july :
    answers (Server.call TTL_SECONDS) Server.answer Dict.empty julyCalls =
        [.ok none, .ok (some 80), .ok none, .ok none, .ok (some 100)] := by
  rw [refines_memory (by decide) (by decide +kernel) (by decide)]
  decide +kernel

/-! A threshold of 5001 digits. -/

def longThreshold : List Call :=
  [.recordFired 0 1 1 "2026-07" (10 ^ 5000), .highestFired 2 1 "2026-07"]

/-- It is remembered in memory and not on the server. -/
theorem long_threshold_lost :
    Along (Noted.call InMemoryAlertState) (InTime TTL_SECONDS) (Noted.fresh InMemoryAlertState)
        longThreshold ∧
      answers (Server.call TTL_SECONDS) Server.answer Dict.empty longThreshold =
        [.ok none, .ok none] ∧
      answers (call InMemoryAlertState) (answer InMemoryAlertState) InMemoryAlertState.fresh
        longThreshold = [.ok none, .ok (some (10 ^ 5000))] := by
  decide +kernel

end Finops.Redis
