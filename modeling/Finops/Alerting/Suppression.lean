import Finops.Alerting.Workers

/-!
# No crossing is swallowed

A call that returns None although a threshold was crossed has read a mark at
least as high.  Whatever fails, a mark is a threshold that some worker sent
(`Seen.Consistent`): only a write raises a mark, what a worker writes it has sent
before, and a lost write, a failed or corrupt read and an expired key leave less.
So the call that was suppressed had an alert sent before it (`none_swallowed`).
-/

namespace Finops

open Numerics Calendar HighWater Runs

variable {ι : Type*}

/-- **No crossing is silently swallowed**: before a call comes back with nothing
for a crossed threshold, an alert was sent for its budget and period with a
threshold at least as high. -/
def NoneSwallowed (history : List Note) : Prop :=
  ∀ before x, before ++ [.returned (some x) (.ok none)] <+: history →
    ∃ alert answer, .sent alert answer ∈ before ∧ alert.budgetId = x.budgetId ∧
      alert.periodKey = x.periodKey ∧ x.threshold ≤ alert.threshold

variable {num : Arith} {w : World ι}

theorem exists_note_of_announced {id : ℤ} {key : String} {t : ℤ} (h : t ∈ w.announced id key) :
    ∃ alert answer, Note.sent alert answer ∈ w.history ∧ alert.budgetId = id ∧
      alert.periodKey = key ∧ alert.threshold = t := by
  obtain ⟨⟨alert, answer⟩, hs, hx⟩ := List.mem_map.mp (mem_thresholdsFor.mp h)
  obtain ⟨n, hn, hsome⟩ := List.mem_filterMap.mp hs
  obtain ⟨hid, hkey, ht⟩ := Crossing.mk.inj hx
  cases n with
  | sent alert' answer' =>
    obtain ⟨rfl, rfl⟩ := Prod.mk.inj (Option.some.inj hsome)
    exact ⟨alert', answer', hn, hid, hkey, ht⟩
  | returned crossed result => cases hsome

theorem mem_mark_of_mem_highestFired {id m : ℤ} {key : String} {reply : Reply}
    (h : m ∈ w.highestFired id key reply) : m ∈ w.mark id key := by
  cases reply with
  | served => exact h
  | failed => cases h
  | corrupt => cases h

/-- What a step adds to the history.  A call that comes back with nothing for a
crossed threshold has read a mark that is not below it. -/
theorem history_advance [DecidableEq ι] (num : Arith) (w : World ι) (e : Event ι) :
    ∃ notes, (advance num w e).history = w.history ++ notes ∧
      ∀ x, .returned (some x) (.ok none) ∈ notes →
        ∃ m ∈ w.mark x.budgetId x.periodKey, x.threshold ≤ m := by
  have hnone : w.history = w.history ++ [] := (List.append_nil _).symm
  cases e with
  | start i rows budget now url =>
    simp only [advance]
    split
    · split
      · exact ⟨_, rfl, by simp⟩
      · split
        · exact ⟨_, rfl, by simp⟩
        · exact ⟨[], hnone, by simp⟩
    · exact ⟨[], hnone, by simp⟩
  | get i reply =>
    simp only [advance]
    split
    · rename_i call hp
      split
      · split
        · exact ⟨_, rfl, by simp⟩
        · exact ⟨[], hnone, by simp⟩
      · rename_i hm
        refine ⟨_, rfl, fun x hx => ?_⟩
        obtain rfl : x = call.crossing := by simpa using hx
        obtain ⟨m, hmem, hle⟩ := not_above.mp hm
        exact ⟨m, mem_mark_of_mem_highestFired hmem, hle⟩
    · split
      · exact ⟨[], hnone, by simp⟩
      · exact ⟨_, rfl, by simp⟩
    · exact ⟨[], hnone, by simp⟩
  | send i answer =>
    simp only [advance]
    split
    · rename_i alert hp
      cases answer with
      | error x => exact ⟨[.sent alert (.error x), _], List.append_assoc .., by simp⟩
      | ok b => exact ⟨_, rfl, by simp⟩
    · exact ⟨[], hnone, by simp⟩
  | set i applied =>
    simp only [advance]
    split
    · exact ⟨_, rfl, by simp⟩
    · exact ⟨[], hnone, by simp⟩
  | expire key => exact ⟨[], hnone, by simp⟩

theorem prefix_append_cases {α : Type*} {before l m : List α} {n : α}
    (h : before ++ [n] <+: l ++ m) : before ++ [n] <+: l ∨ l <+: before ∧ n ∈ m := by
  rcases List.prefix_or_prefix_of_prefix h (List.prefix_append l m) with hl | hl
  · exact .inl hl
  · rcases List.prefix_concat_iff.mp hl with rfl | ⟨k, rfl⟩
    · exact .inl (List.prefix_refl _)
    · rw [List.append_assoc, List.prefix_append_right_inj] at h
      exact .inr ⟨List.prefix_append l k, h.subset (List.mem_append_right k List.mem_cons_self)⟩

/-- **No crossing is silently swallowed**, whatever the workers do in between and
whatever fails. -/
theorem none_swallowed [DecidableEq ι] (num : Arith) (es : List (Event ι)) :
    NoneSwallowed (after (advance num) .init es).history := by
  refine (invariant (I := fun w : World ι => w.seen.Consistent ∧ NoneSwallowed w.history)
    (fun w e hI => ⟨hI.1.effect (seen_advance num w e), ?_⟩)
    ⟨consistent_init, fun before x h => ?_⟩).2
  · obtain ⟨notes, hnotes, hnone⟩ := history_advance num w e
    intro before x h
    rw [hnotes] at h
    rcases prefix_append_cases h with h | ⟨hpre, hmem⟩
    · exact hI.2 before x h
    · obtain ⟨m, hm, hle⟩ := hnone x hmem
      obtain ⟨alert, answer, hn, hid, hkey, rfl⟩ :=
        exists_note_of_announced (hI.1.mark_sent _ _ m hm)
      exact ⟨alert, answer, hpre.subset hn, hid, hkey, hle⟩
  · exact absurd (List.prefix_nil.mp h) (by simp)

end Finops
