import Finops.Base.Amount
import Finops.Base.Floats
import Finops.Alerting.Evaluator

/-!
# Slack delivery for budget alerts

The message answers three questions: how bad is it, what is driving it, and when does it
run out.  `buildBlocks` writes the answers into the texts of a few blocks, `buildPayload`
adds a line for notifications, and `SlackNotifier.posting` posts that.

A `Notice` is what such a message says in figures.  `readPayload?` reads it from the texts
alone: it takes them apart into lines and words, and reads nothing where the line for
notifications says something else than the blocks.  Whatever the name of the team is,
the message for an alert is read back as the figures of that alert
(`readPayload?_buildPayload`), which are rounded to cents and to whole percents.
-/

namespace Finops

open Numerics Calendar Text

def BudgetAlert.isExhausted (alert : BudgetAlert) : Bool := 100 ≤ alert.threshold

def BudgetAlert.remainingUsd (num : Arith) (alert : BudgetAlert) : ℚ :=
  max (num.dec (alert.budgetLimit - alert.spendToDate)) 0

namespace Slack

def BAR_WIDTH : ℕ := 20
def BAR_FILLED : Char := '█'
def BAR_EMPTY : Char := '░'
def MAX_DRIVERS : ℕ := 3

def WARNING_EMOJI : String := ":warning:"
def EXHAUSTED_EMOJI : String := ":rotating_light:"

/-- A block of a message: a header, a section of text, or a button. -/
inductive Block
  | header (text : String)
  | mrkdwn (text : String)
  | button (text url : String)
  deriving DecidableEq, Repr

structure Payload where
  text : String
  blocks : List Block
  deriving DecidableEq, Repr

def filled (num : Arith) (utilization : ℚ) (width : ℕ) : ℕ :=
  (halfEven (num.flt (max 0 (min utilization 1) * width))).toNat

/-- Utilisation as a text bar, clamped so overspend stays readable. -/
def utilizationBar (num : Arith) (utilization : ℚ) (width : ℕ := BAR_WIDTH) : String :=
  let filled := filled num utilization width
  String.ofList (List.replicate filled BAR_FILLED ++ List.replicate (width - filled) BAR_EMPTY)

/-- `f"{utilization:.0%}"`, where a value below zero keeps its sign when it is rounded to
zero. -/
def percentText (num : Arith) (utilization : ℚ) : String :=
  (if utilization < 0 then "-" else "") ++
    (halfEven (num.flt (utilization * 100))).natAbs.repr ++ "%"

def money (amount : ℚ) : String := "$" ++ fixed 2 amount

def monthName : ℕ → String
  | 1 => "Jan"
  | 2 => "Feb"
  | 3 => "Mar"
  | 4 => "Apr"
  | 5 => "May"
  | 6 => "Jun"
  | 7 => "Jul"
  | 8 => "Aug"
  | 9 => "Sep"
  | 10 => "Oct"
  | 11 => "Nov"
  | _ => "Dec"

def headerText (alert : BudgetAlert) : String :=
  let emoji := if alert.isExhausted then EXHAUSTED_EMOJI else WARNING_EMOJI
  let headline := if alert.isExhausted then "exhausted"
    else "at " ++ toString alert.threshold ++ "%"
  emoji ++ " " ++ alert.team ++ " budget " ++ headline

def statusText (num : Arith) (alert : BudgetAlert) : String :=
  "`" ++ utilizationBar num alert.utilization ++ "` *" ++ percentText num alert.utilization ++
    "*\n" ++ money alert.spendToDate ++ " of " ++ money alert.budgetLimit ++ " (" ++
    money (alert.remainingUsd num) ++ " left) - period " ++ alert.periodKey

def driversText (drivers : List CostDriver) : String :=
  "*Top cost drivers*\n" ++ "\n".intercalate (((drivers.take MAX_DRIVERS).zipIdx 1).map
    fun (driver, index) =>
      index.repr ++ ". *" ++ driver.label ++ "* - " ++ money driver.amountUsd)

def forecastText (alert : BudgetAlert) : String :=
  match alert.breachDate with
  | some breach =>
    "At the current run rate the budget is exhausted on *" ++ monthName breach.date.month ++
      " " ++ zeroPad 2 breach.date.day ++ "*, projecting " ++ money alert.projectedTotal ++
      " for the period."
  | none =>
    "At the current run rate the period ends at " ++ money alert.projectedTotal ++
      ", within budget."

def buildBlocks (num : Arith) (alert : BudgetAlert) : List Block :=
  [.header (headerText alert), .mrkdwn (statusText num alert)] ++
    (if alert.drivers ≠ [] then [.mrkdwn (driversText alert.drivers)] else []) ++
    [.mrkdwn (forecastText alert)] ++
    match alert.dashboardUrl with
    | some url => if url ≠ "" then [.button "Open dashboard" url] else []
    | none => []

/-- Full webhook body, including fallback text for notifications. -/
def buildPayload (num : Arith) (alert : BudgetAlert) : Payload where
  text := alert.team ++ " budget " ++ percentText num alert.utilization ++ " (" ++
    money alert.spendToDate ++ " of " ++ money alert.budgetLimit ++ ")"
  blocks := buildBlocks num alert

end Slack

/-- Posts alerts to a Slack incoming webhook, which answers a payload. -/
def SlackNotifier.posting (num : Arith) (post : Slack.Payload → Posted) (alert : BudgetAlert) :
    Except PyError Bool :=
  SlackNotifier.send (fun alert => post (Slack.buildPayload num alert)) alert

namespace Slack

/-! ### What a message says -/

/-- The day that a budget runs out on, as the name of the month and the day. -/
abbrev Day := String × ℤ

def dayOf (t : Moment) : Day := (monthName t.date.month, (t.date.day : ℤ))

/-- What a message says in figures.  The level is the percentage in the header, and
nothing when the header says exhausted. -/
structure Notice where
  team : String
  level : Option ℤ
  filled : ℕ
  percent : ℤ
  spent : ℚ
  limit : ℚ
  left : ℚ
  period : String
  projected : ℚ
  runsOut : Option Day
  deriving DecidableEq

def cents (v : ℚ) : ℚ := toExp halfEven (-2) v

def notice (num : Arith) (alert : BudgetAlert) : Notice where
  team := alert.team
  level := if alert.isExhausted then none else some alert.threshold
  filled := filled num alert.utilization BAR_WIDTH
  percent := halfEven (num.flt (alert.utilization * 100))
  spent := cents alert.spendToDate
  limit := cents alert.budgetLimit
  left := cents (alert.remainingUsd num)
  period := alert.periodKey
  projected := cents alert.projectedTotal
  runsOut := alert.breachDate.map dayOf

/-- A text without its first and its last character. -/
def inner (s : String) : String := String.ofList s.toList.tail.dropLast

def percent? (s : String) : Option ℤ :=
  match s.toList.getLast? with
  | some '%' => int? (String.ofList s.toList.dropLast)
  | _ => none

def money? (s : String) : Option ℚ :=
  match s.toList with
  | '$' :: l => amount? (String.ofList l)
  | _ => none

/-- The team and the level. -/
def readHeader? (text : String) : Option (String × Option ℤ) :=
  match parts ' ' text with
  | emoji :: words =>
    match words.reverse with
    | last :: "budget" :: team =>
      if emoji = EXHAUSTED_EMOJI ∧ last = "exhausted" then
        some (joined ' ' team.reverse, none)
      else none
    | last :: "at" :: "budget" :: team =>
      if emoji = WARNING_EMOJI then
        (percent? last).map fun level => (joined ' ' team.reverse, some level)
      else none
    | _ => none
  | [] => none

/-- The filled places, the percentage, the three amounts and the period. -/
def readStatus? (text : String) : Option (ℕ × ℤ × ℚ × ℚ × ℚ × String) :=
  match (parts '\n' text).map (parts ' ') with
  | [[bar, percent], [spent, "of", limit, left, "left)", "-", "period", period]] => do
    let percent ← percent? (inner percent)
    let spent ← money? spent
    let limit ← money? limit
    let left ← money? (String.ofList left.toList.tail)
    if (inner bar).length = BAR_WIDTH then
      some ((inner bar).toList.count BAR_FILLED, percent, spent, limit, left, period)
    else none
  | _ => none

/-- The projected total, and the day that the budget runs out on. -/
def readForecast? (text : String) : Option (ℚ × Option Day) :=
  match (parts ' ' text).drop 5 with
  | ["the", "budget", "is", "exhausted", "on", month, day, "projecting", total, "for", "the",
      "period."] => do
    let day ← int? (String.ofList day.toList.dropLast.dropLast)
    let total ← money? total
    some (total, some (String.ofList month.toList.tail, day))
  | ["the", "period", "ends", "at", total, "within", "budget."] => do
    let total ← money? (String.ofList total.toList.dropLast)
    some (total, none)
  | _ => none

/-- The team, the percentage and two amounts. -/
def readFallback? (text : String) : Option (String × ℤ × ℚ × ℚ) :=
  match (parts ' ' text).reverse with
  | limit :: "of" :: spent :: percent :: "budget" :: team => do
    let percent ← percent? percent
    let spent ← money? (String.ofList spent.toList.tail)
    let limit ← money? (String.ofList limit.toList.dropLast)
    some (joined ' ' team.reverse, percent, spent, limit)
  | _ => none

def Block.section? : Block → Option String
  | .mrkdwn text => some text
  | _ => none

/-- What a message says, where it says the same twice. -/
def readPayload? (payload : Payload) : Option Notice :=
  match payload.blocks with
  | .header header :: .mrkdwn status :: rest => do
    let (team, level) ← readHeader? header
    let (filled, percent, spent, limit, left, period) ← readStatus? status
    let forecast ← (rest.filterMap Block.section?).getLast?
    let (projected, runsOut) ← readForecast? forecast
    let said ← readFallback? payload.text
    if said = (team, percent, spent, limit) then
      some ⟨team, level, filled, percent, spent, limit, left, period, projected, runsOut⟩
    else none
  | _ => none

/-! ### The figures are read back -/

/-- A text with no blank and no end of a line. -/
def IsWord (s : String) : Prop := '\n' ∉ s.toList ∧ ' ' ∉ s.toList

instance (s : String) : Decidable (IsWord s) := by
  unfold IsWord
  infer_instance

theorem isWord_append {s t : String} : IsWord (s ++ t) ↔ IsWord s ∧ IsWord t := by
  unfold IsWord
  simp only [String.toList_append, List.mem_append, not_or]
  exact and_and_and_comm

theorem isWord_iff {s : String} : IsWord s ↔ ∀ c ∈ s.toList, c ≠ '\n' ∧ c ≠ ' ' :=
  ⟨fun h _ hc => ⟨fun he => h.1 (he ▸ hc), fun he => h.2 (he ▸ hc)⟩,
    fun h => ⟨fun hc => (h _ hc).1 rfl, fun hc => (h _ hc).2 rfl⟩⟩

theorem ne_of_isDigit {c : Char} (h : c.isDigit = true) : c ≠ '\n' ∧ c ≠ ' ' := by
  refine ⟨?_, ?_⟩ <;> rintro rfl <;> exact absurd h (by decide)

theorem isWord_repr (n : ℕ) : IsWord n.repr :=
  isWord_iff.mpr fun _ hc => ne_of_isDigit (isDigit_of_mem_repr hc)

theorem isWord_zeroPad (width n : ℕ) : IsWord (zeroPad width n) :=
  isWord_iff.mpr fun _ hc => ne_of_isDigit (isDigit_of_mem_zeroPad hc)

theorem isWord_toString (k : ℤ) : IsWord (toString k) :=
  ⟨notMem_toString (by decide) (by decide) k, notMem_toString (by decide) (by decide) k⟩

theorem isWord_money (v : ℚ) : IsWord (money v) := by
  have hmarks : ∀ c ∈ ['-', ',', '.'], c ≠ '\n' ∧ c ≠ ' ' := by
    intro c hc
    simp only [List.mem_cons, List.not_mem_nil, or_false] at hc
    rcases hc with rfl | rfl | rfl <;> decide
  refine isWord_append.mpr ⟨⟨by decide, by decide⟩, isWord_iff.mpr fun c hc => ?_⟩
  rcases mem_fixed hc with h | h
  · exact hmarks c h
  · exact ne_of_isDigit h

theorem isWord_percentText (num : Arith) (u : ℚ) : IsWord (percentText num u) := by
  refine isWord_append.mpr ⟨isWord_append.mpr ⟨?_, isWord_repr _⟩, ⟨by decide, by decide⟩⟩
  split <;> exact ⟨by decide, by decide⟩

theorem isWord_utilizationBar (num : Arith) (u : ℚ) (width : ℕ) :
    IsWord (utilizationBar num u width) := by
  refine isWord_iff.mpr fun c hc => ?_
  rw [utilizationBar, String.toList_ofList] at hc
  rcases List.mem_append.mp hc with h | h <;> rw [List.eq_of_mem_replicate h] <;> decide

theorem money?_money (v : ℚ) : money? (money v) = some (cents v) := by
  have hlist : (money v).toList = '$' :: (fixed 2 v).toList := by
    rw [money, String.toList_append]
    rfl
  rw [money?, hlist]
  change amount? (String.ofList (fixed 2 v).toList) = _
  rw [String.ofList_toList, amount?_fixed (by decide)]
  rfl

theorem percent?_append (s : String) : percent? (s ++ "%") = int? s := by
  have hlist : (s ++ "%").toList = s.toList ++ ['%'] := String.toList_append
  rw [percent?, hlist, List.getLast?_concat]
  change int? (String.ofList (s.toList ++ ['%']).dropLast) = _
  rw [List.dropLast_concat, String.ofList_toList]

theorem percent?_percentText (u : ℚ) :
    percent? (percentText .cpython u) = some (halfEven (binary64 (u * 100))) := by
  rw [percentText, percent?_append, cpython_flt]
  by_cases hu : u < 0
  · have hle : binary64 (u * 100) ≤ 0 := by
      rw [← binary64_zero]
      exact binary64_monotone (by linarith)
    have hneg : halfEven (binary64 (u * 100)) ≤ 0 := by
      have h := halfEven_mono hle
      rwa [← Int.cast_zero, halfEven_intCast] at h
    rw [if_pos hu, int?_neg, Int.ofNat_natAbs_of_nonpos hneg, neg_neg]
  · have hnonneg : 0 ≤ halfEven (binary64 (u * 100)) :=
      halfEven_nonneg (binary64_nonneg (by linarith [not_lt.mp hu]))
    rw [if_neg hu, String.empty_append, int?_repr, Int.natAbs_of_nonneg hnonneg]

/-! ### The texts are read back -/

theorem parts_around (l : List String) (s : String) {m : List String} (hl : ∀ w ∈ l, ' ' ∉ w.toList)
    (hm : ∀ w ∈ m, ' ' ∉ w.toList) :
    parts ' ' (joined ' ' (l ++ (parts ' ' s ++ m))) = l ++ (parts ' ' s ++ m) := by
  refine parts_joined (by simp [parts_ne_nil]) fun w hw => ?_
  rcases List.mem_append.mp hw with h | h
  · exact hl w h
  · exact (List.mem_append.mp h).elim notMem_of_mem_parts (hm w)

theorem joined_around (c : Char) {l : List String} (s : String) {m : List String} (hl : l ≠ [])
    (hm : m ≠ []) : joined c (l ++ (parts c s ++ m)) =
      joined c l ++ (String.ofList [c] ++ (s ++ (String.ofList [c] ++ joined c m))) := by
  rw [joined_append c hl (by simp [hm]), joined_append c (parts_ne_nil c s) hm, joined_parts]

theorem readHeader?_headerText (alert : BudgetAlert) : readHeader? (headerText alert) =
    some (alert.team, if alert.isExhausted then none else some alert.threshold) := by
  by_cases he : alert.isExhausted = true
  · have hwords : headerText alert = joined ' ' ([EXHAUSTED_EMOJI] ++
        (parts ' ' alert.team ++ ["budget", "exhausted"])) := by
      rw [joined_around ' ' _ (by simp) (by simp), joined_singleton, joined_cons _ _ (by simp),
        joined_singleton, headerText, if_pos he, if_pos he]
      simp only [String.append_assoc]
      rfl
    rw [hwords, readHeader?, parts_around _ _ (by decide) (by decide), if_pos he]
    simp [joined_parts]
  · have hlevel : IsWord (toString alert.threshold ++ "%") :=
      isWord_append.mpr ⟨isWord_toString _, ⟨by decide, by decide⟩⟩
    have hwords : headerText alert = joined ' ' ([WARNING_EMOJI] ++
        (parts ' ' alert.team ++ ["budget", "at", toString alert.threshold ++ "%"])) := by
      rw [joined_around ' ' _ (by simp) (by simp), joined_singleton, joined_cons _ _ (by simp),
        joined_cons _ _ (by simp), joined_singleton, headerText, if_neg he, if_neg he]
      simp only [String.append_assoc]
      rfl
    rw [hwords, readHeader?, parts_around _ _ (by decide) (by simpa using hlevel.2), if_neg he]
    simp [joined_parts, percent?_append, int?_toString, -Int.toString_eq_repr]

theorem inner_append (c d : Char) (s : String) :
    inner (String.ofList [c] ++ (s ++ String.ofList [d])) = s := by
  rw [inner, String.toList_append, String.toList_append, String.toList_ofList,
    String.toList_ofList, List.singleton_append, List.tail_cons, List.dropLast_concat,
    String.ofList_toList]

theorem tail_append (c : Char) (s : String) :
    String.ofList (String.ofList [c] ++ s).toList.tail = s := by
  rw [String.toList_append, String.toList_ofList, List.singleton_append, List.tail_cons,
    String.ofList_toList]

theorem dropLast_append (s : String) (c : Char) :
    String.ofList (s ++ String.ofList [c]).toList.dropLast = s := by
  rw [String.toList_append, String.toList_ofList, List.dropLast_concat, String.ofList_toList]

theorem dropLast_dropLast_append (s : String) (c d : Char) : String.ofList
    (s ++ (String.ofList [c] ++ String.ofList [d])).toList.dropLast.dropLast = s := by
  rw [String.toList_append, String.toList_append, String.toList_ofList, String.toList_ofList,
    ← List.append_assoc, List.dropLast_concat, List.dropLast_concat, String.ofList_toList]

theorem utilizationBar_spec (num : Arith) (u : ℚ) {width : ℕ} (h : filled num u width ≤ width) :
    (utilizationBar num u width).length = width ∧
      (utilizationBar num u width).toList.count BAR_FILLED = filled num u width := by
  constructor
  · rw [← String.length_toList, utilizationBar, String.toList_ofList, List.length_append,
      List.length_replicate, List.length_replicate, Nat.add_sub_cancel' h]
  · rw [utilizationBar, String.toList_ofList, List.count_append, List.count_replicate_self,
      List.count_replicate, if_neg (by decide), Nat.add_zero]

theorem readStatus?_statusText (alert : BudgetAlert) (hkey : IsWord alert.periodKey)
    (hfilled : filled .cpython alert.utilization BAR_WIDTH ≤ BAR_WIDTH) :
    readStatus? (statusText .cpython alert) =
      some (filled .cpython alert.utilization BAR_WIDTH,
        halfEven (binary64 (alert.utilization * 100)), cents alert.spendToDate,
        cents alert.budgetLimit, cents (alert.remainingUsd .cpython), alert.periodKey) := by
  have hmark : ∀ c : Char, c ≠ '\n' ∧ c ≠ ' ' → IsWord (String.ofList [c]) := by
    intro c hc
    refine isWord_iff.mpr fun d hd => ?_
    rw [String.toList_ofList, List.mem_singleton] at hd
    rw [hd]
    exact hc
  set bar := utilizationBar .cpython alert.utilization BAR_WIDTH with hbar
  set lines : List (List String) :=
    [[String.ofList ['`'] ++ (bar ++ String.ofList ['`']),
      String.ofList ['*'] ++ (percentText .cpython alert.utilization ++ String.ofList ['*'])],
    [money alert.spendToDate, "of", money alert.budgetLimit,
      String.ofList ['('] ++ money (alert.remainingUsd .cpython), "left)", "-", "period",
      alert.periodKey]] with hlines
  have htext : statusText .cpython alert = joined '\n' (lines.map (joined ' ')) := by
    rw [hlines, List.map_cons, List.map_cons, List.map_nil, joined_cons _ _ (by simp),
      joined_singleton]
    simp only [joined_cons, joined_singleton, ne_eq, reduceCtorEq, not_false_eq_true, statusText,
      String.append_assoc, ← hbar]
    rfl
  have hwords : ∀ line ∈ lines, line ≠ [] ∧
      ∀ word ∈ line, '\n' ∉ word.toList ∧ ' ' ∉ word.toList := by
    intro line hline
    simp only [hlines, List.mem_cons, List.not_mem_nil, or_false] at hline
    rcases hline with rfl | rfl
    · refine ⟨by simp, fun word hword => ?_⟩
      simp only [List.mem_cons, List.not_mem_nil, or_false] at hword
      rcases hword with rfl | rfl
      · have h := hmark '`' (by decide)
        exact isWord_append.mpr ⟨h, isWord_append.mpr ⟨isWord_utilizationBar _ _ _, h⟩⟩
      · have h := hmark '*' (by decide)
        exact isWord_append.mpr ⟨h, isWord_append.mpr ⟨isWord_percentText _ _, h⟩⟩
    · refine ⟨by simp, fun word hword => ?_⟩
      simp only [List.mem_cons, List.not_mem_nil, or_false] at hword
      rcases hword with rfl | rfl | rfl | rfl | rfl | rfl | rfl | rfl
      · exact isWord_money _
      · exact ⟨by decide, by decide⟩
      · exact isWord_money _
      · exact isWord_append.mpr ⟨hmark '(' (by decide), isWord_money _⟩
      · exact ⟨by decide, by decide⟩
      · exact ⟨by decide, by decide⟩
      · exact ⟨by decide, by decide⟩
      · exact hkey
  obtain ⟨hlength, hcount⟩ := utilizationBar_spec .cpython alert.utilization hfilled
  rw [htext, readStatus?, map_parts_joined (by decide) (by simp [hlines]) hwords, hlines]
  simp only [inner_append, percent?_percentText, money?_money, tail_append, Option.bind_eq_bind,
    Option.bind_some, hbar, hlength, if_pos, hcount]

theorem isWord_monthName (month : ℕ) : IsWord (monthName month) := by
  unfold monthName
  split <;> exact ⟨by decide, by decide⟩

theorem parts_words {l m k : List String} (hl : ∀ w ∈ l, IsWord w) (hm : ∀ w ∈ m, IsWord w)
    (hk : ∀ w ∈ k, IsWord w) (hne : m ≠ []) :
    parts ' ' (joined ' ' (l ++ (m ++ k))) = l ++ (m ++ k) := by
  refine parts_joined (by simp [hne]) fun w hw => ?_
  rcases List.mem_append.mp hw with h | h
  · exact (hl w h).2
  · exact (List.mem_append.mp h).elim (fun h => (hm w h).2) fun h => (hk w h).2

theorem readForecast?_forecastText (alert : BudgetAlert) :
    readForecast? (forecastText alert) =
      some (cents alert.projectedTotal, alert.breachDate.map dayOf) := by
  cases hb : alert.breachDate with
  | some breach =>
    set day := zeroPad 2 breach.date.day ++ (String.ofList ['*'] ++ String.ofList [',']) with hd
    set month := String.ofList ['*'] ++ monthName breach.date.month with hm
    have htext : forecastText alert = joined ' ' (["At", "the", "current", "run", "rate", "the",
        "budget", "is", "exhausted", "on"] ++ ([month, day, "projecting",
        money alert.projectedTotal] ++ ["for", "the", "period."])) := by
      rw [forecastText, hb]
      simp only [List.cons_append, List.nil_append, joined_cons, joined_singleton, ne_eq,
        reduceCtorEq, not_false_eq_true, String.append_assoc, hd, hm]
      rfl
    have hmiddle : ∀ w ∈ [month, day, "projecting", money alert.projectedTotal], IsWord w := by
      simp only [List.forall_mem_cons]
      exact ⟨isWord_append.mpr ⟨by decide, isWord_monthName _⟩,
        isWord_append.mpr ⟨isWord_zeroPad _ _, by decide⟩, by decide, isWord_money _,
        fun _ h => absurd h List.not_mem_nil⟩
    rw [htext, readForecast?, parts_words (by decide) hmiddle (by decide) (by simp)]
    simp only [List.cons_append, List.nil_append, List.drop_succ_cons, List.drop_zero, hd, hm,
      dropLast_dropLast_append, tail_append, money?_money, int?_zeroPad, Option.bind_eq_bind,
      Option.bind_some, Option.map_some, dayOf]
  | none =>
    set total := money alert.projectedTotal ++ String.ofList [','] with ht
    have htext : forecastText alert = joined ' ' (["At", "the", "current", "run", "rate", "the",
        "period", "ends", "at"] ++ ([total] ++ ["within", "budget."])) := by
      rw [forecastText, hb]
      simp only [List.cons_append, List.nil_append, joined_cons, joined_singleton, ne_eq,
        reduceCtorEq, not_false_eq_true, String.append_assoc, ht]
      rfl
    have hmiddle : ∀ w ∈ [total], IsWord w :=
      List.forall_mem_singleton.mpr (isWord_append.mpr ⟨isWord_money _, by decide⟩)
    rw [htext, readForecast?, parts_words (by decide) hmiddle (by decide) (by simp)]
    simp only [List.cons_append, List.nil_append, List.drop_succ_cons, List.drop_zero, ht,
      dropLast_append, money?_money, Option.bind_eq_bind, Option.bind_some, Option.map_none]

theorem readFallback?_text (alert : BudgetAlert) :
    readFallback? (buildPayload .cpython alert).text =
      some (alert.team, halfEven (binary64 (alert.utilization * 100)), cents alert.spendToDate,
        cents alert.budgetLimit) := by
  set spent := String.ofList ['('] ++ money alert.spendToDate with hs
  set limit := money alert.budgetLimit ++ String.ofList [')'] with hl
  have htext : (buildPayload .cpython alert).text = joined ' ' ([] ++ (parts ' ' alert.team ++
      ["budget", percentText .cpython alert.utilization, spent, "of", limit])) := by
    rw [List.nil_append, joined_append ' ' (parts_ne_nil _ _) (by simp), joined_parts]
    simp only [joined_cons, joined_singleton, ne_eq, reduceCtorEq, not_false_eq_true,
      buildPayload, String.append_assoc, hs, hl]
    rfl
  have hwords : ∀ w ∈ ["budget", percentText .cpython alert.utilization, spent, "of", limit],
      ' ' ∉ w.toList := by
    simp only [List.forall_mem_cons]
    exact ⟨by decide, (isWord_percentText _ _).2,
      (isWord_append.mpr ⟨by decide, isWord_money _⟩).2, by decide,
      (isWord_append.mpr ⟨isWord_money _, by decide⟩).2, fun _ h => absurd h List.not_mem_nil⟩
  rw [htext, readFallback?, parts_around _ _ (by simp) hwords, List.nil_append,
    List.reverse_append]
  simp only [List.reverse_cons, List.reverse_nil, List.nil_append, List.cons_append,
    List.reverse_reverse, joined_parts, percent?_percentText, hs, hl, tail_append,
    dropLast_append, money?_money, Option.bind_eq_bind, Option.bind_some]

/-! ### The message is read back -/

theorem filled_le (u : ℚ) {width : ℕ} (hw : width < 2 ^ 53) : filled .cpython u width ≤ width := by
  have hratio : max 0 (min u 1) ≤ 1 := max_le zero_le_one (min_le_right _ _)
  have hwidth : binary64 width = width := ordered_cpython.flt_natCast width hw
  have hle : binary64 (max 0 (min u 1) * width) ≤ width := by
    calc binary64 (max 0 (min u 1) * width) ≤ binary64 width :=
          binary64_monotone (mul_le_of_le_one_left (Nat.cast_nonneg width) hratio)
      _ = width := hwidth
  have h := halfEven_mono hle
  rw [← Int.cast_natCast, halfEven_intCast] at h
  exact Int.toNat_le.mpr h

theorem getLast?_sections (num : Arith) (alert : BudgetAlert) :
    ∃ rest, buildBlocks num alert =
      .header (headerText alert) :: .mrkdwn (statusText num alert) :: rest ∧
      (rest.filterMap Block.section?).getLast? = some (forecastText alert) := by
  unfold buildBlocks
  rw [List.append_assoc, List.append_assoc]
  refine ⟨(if alert.drivers ≠ [] then [.mrkdwn (driversText alert.drivers)] else []) ++
    ([.mrkdwn (forecastText alert)] ++ _), rfl, ?_⟩
  have hbutton : (match alert.dashboardUrl with
      | some url => if url ≠ "" then [Block.button "Open dashboard" url] else []
      | none => []).filterMap Block.section? = [] := by
    cases alert.dashboardUrl with
    | none => rfl
    | some url =>
      dsimp only
      split <;> rfl
  rw [List.filterMap_append, List.filterMap_append, hbutton, List.append_nil]
  exact List.getLast?_concat

/-- **The message for an alert is read back.** -/
theorem readPayload?_buildPayload (alert : BudgetAlert) (hkey : IsWord alert.periodKey) :
    readPayload? (buildPayload .cpython alert) = some (notice .cpython alert) := by
  obtain ⟨rest, hblocks, hforecast⟩ := getLast?_sections .cpython alert
  have hstatus := readStatus?_statusText alert hkey (filled_le _ (by decide))
  have hb : (buildPayload .cpython alert).blocks = buildBlocks .cpython alert := rfl
  rw [readPayload?, hb, hblocks]
  simp only [readHeader?_headerText, hstatus, hforecast, readForecast?_forecastText,
    readFallback?_text, Option.bind_eq_bind, Option.bind_some, if_true]
  rfl

end Slack

end Finops
