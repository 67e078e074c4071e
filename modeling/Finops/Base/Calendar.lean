import Mathlib.Algebra.Order.Group.Unbundled.Int

/-!
# The proleptic Gregorian calendar

A `Date` is a valid date of the years 1 to 9999.  `Date.toOrdinal` counts the
days from 0001-01-01, which is day 1, and `Date.ofOrdinal` takes a count back to
its date by the cycles of 400, 100, 4 and 1 years; `toOrdinal_ofOrdinal` says
that it is the right one.

A `Moment` is a date and a time of day on a clock with a fixed offset from UTC,
to the microsecond.  `Moment.utc` is where it is on the line of all moments, and
`Moment.ofClock?` and `Moment.add?` give nothing past either end of the range.
`Date.midnight` of the first of a month and of the next one are the bounds of
that month (`midnight_startOfMonth_le`, `lt_midnight_nextMonth`).
-/

namespace Calendar

/-! ### Counting days -/

def isLeap (year : ℕ) : Bool := year % 4 = 0 && (year % 100 ≠ 0 || year % 400 = 0)

def daysBeforeYear (year : ℕ) : ℕ :=
  (year - 1) * 365 + (year - 1) / 4 - (year - 1) / 100 + (year - 1) / 400

def daysInMonth (leap : Bool) : ℕ → ℕ
  | 2 => if leap then 29 else 28
  | 4 | 6 | 9 | 11 => 30
  | _ => 31

def daysBeforeMonth (leap : Bool) (month : ℕ) : ℕ :=
  [0, 0, 31, 59, 90, 120, 151, 181, 212, 243, 273, 304, 334].getD month 0
    + if 2 < month && leap then 1 else 0

/-- Month and day of the day that has `n` days of its year before it.  The first
guess of the month is right or one too far. -/
def monthDay (leap : Bool) (n : ℕ) : ℕ × ℕ :=
  let month := (n + 50) / 32
  let preceding := daysBeforeMonth leap month
  if n < preceding then (month - 1, n - (preceding - daysInMonth leap (month - 1)) + 1)
  else (month, n - preceding + 1)

/-- Year, month and day of the day that has `n` days before it. -/
def ord2ymd (n : ℕ) : ℕ × ℕ × ℕ :=
  let n400 := n / 146097
  let n100 := n % 146097 / 36524
  let n4 := n % 146097 % 36524 / 1461
  let n1 := n % 146097 % 36524 % 1461 / 365
  let year := n400 * 400 + n100 * 100 + n4 * 4 + n1 + 1
  if n1 = 4 ∨ n100 = 4 then (year - 1, 12, 31)
  else (year, monthDay (n1 = 3 && (n4 ≠ 24 || n100 = 3)) (n % 146097 % 36524 % 1461 % 365))

/-- The last day there is, 9999-12-31. -/
def maxOrdinal : ℕ := 3652059

theorem monthDay_spec : ∀ leap : Bool, ∀ n < 365 + leap.toNat,
    (1 ≤ (monthDay leap n).1 ∧ (monthDay leap n).1 ≤ 12) ∧
    (1 ≤ (monthDay leap n).2 ∧ (monthDay leap n).2 ≤ daysInMonth leap (monthDay leap n).1) ∧
    daysBeforeMonth leap (monthDay leap n).1 + (monthDay leap n).2 = n + 1 := by
  decide +kernel

theorem daysBeforeMonth_succ : ∀ leap : Bool, ∀ month < 12, 1 ≤ month →
    daysBeforeMonth leap (month + 1) = daysBeforeMonth leap month + daysInMonth leap month := by
  decide

theorem isLeap_eq (n400 : ℕ) {n100 n4 n1 : ℕ} (h100 : n100 < 4) (h4 : n4 < 25) (h1 : n1 < 4) :
    isLeap (n400 * 400 + n100 * 100 + n4 * 4 + n1 + 1) =
      (n1 = 3 && (n4 ≠ 24 || n100 = 3) : Bool) := by
  rw [isLeap, Bool.eq_iff_iff]
  simp only [Bool.and_eq_true, Bool.or_eq_true, decide_eq_true_eq]
  omega

theorem daysBeforeYear_eq (n400 : ℕ) {n100 n4 n1 : ℕ} (h100 : n100 < 4) (h4 : n4 < 25)
    (h1 : n1 < 4) :
    daysBeforeYear (n400 * 400 + n100 * 100 + n4 * 4 + n1 + 1) =
      n400 * 146097 + n100 * 36524 + n4 * 1461 + n1 * 365 := by
  unfold daysBeforeYear
  omega

theorem isLeap_toNat (year : ℕ) : (isLeap year).toNat =
    if year % 4 = 0 ∧ (year % 100 ≠ 0 ∨ year % 400 = 0) then 1 else 0 := by
  by_cases h : year % 4 = 0 ∧ (year % 100 ≠ 0 ∨ year % 400 = 0)
  · have hl : isLeap year = true := by simpa [isLeap] using h
    rw [hl, if_pos h]; rfl
  · have hl : isLeap year = false := by simpa [isLeap] using h
    rw [hl, if_neg h]; rfl

theorem daysBeforeYear_succ {year : ℕ} (h : 1 ≤ year) :
    daysBeforeYear (year + 1) = daysBeforeYear year + 365 + (isLeap year).toNat := by
  obtain ⟨y, rfl⟩ : ∃ y, year = y + 1 := ⟨year - 1, by omega⟩
  have hle : y / 100 ≤ y / 4 := Nat.div_le_div_left (by decide) (by decide)
  rw [isLeap_toNat, daysBeforeYear, daysBeforeYear, Nat.add_sub_cancel, Nat.add_sub_cancel]
  by_cases h4 : (y + 1) % 4 = 0
  · have e4 : (y + 1) / 4 = y / 4 + 1 := by omega
    by_cases h100 : (y + 1) % 100 = 0
    · have e100 : (y + 1) / 100 = y / 100 + 1 := by omega
      by_cases h400 : (y + 1) % 400 = 0
      · have e400 : (y + 1) / 400 = y / 400 + 1 := by omega
        rw [if_pos ⟨h4, .inr h400⟩, e4, e100, e400]
        omega
      · have e400 : (y + 1) / 400 = y / 400 := by omega
        rw [if_neg fun h => h.2.elim (· h100) h400, e4, e100, e400]
        omega
    · have e100 : (y + 1) / 100 = y / 100 := by omega
      have e400 : (y + 1) / 400 = y / 400 := by omega
      rw [if_pos ⟨h4, .inl h100⟩, e4, e100, e400]
      omega
  · have e4 : (y + 1) / 4 = y / 4 := by omega
    have e100 : (y + 1) / 100 = y / 100 := by omega
    have e400 : (y + 1) / 400 = y / 400 := by omega
    rw [if_neg fun h => h4 h.1, e4, e100, e400]
    omega

def IsDate (year month day : ℕ) : Prop :=
  (1 ≤ year ∧ year ≤ 9999) ∧ (1 ≤ month ∧ month ≤ 12) ∧
    1 ≤ day ∧ day ≤ daysInMonth (isLeap year) month

instance (year month day : ℕ) : Decidable (IsDate year month day) := by
  unfold IsDate; infer_instance

def ymd2ord (year month day : ℕ) : ℕ :=
  daysBeforeYear year + daysBeforeMonth (isLeap year) month + day

theorem ord2ymd_last (n400 : ℕ) {n100 n4 : ℕ} (h100 : n100 < 4) (h4 : n4 < 25)
    (hleap : n4 ≠ 24 ∨ n100 = 3) :
    isLeap (n400 * 400 + n100 * 100 + n4 * 4 + 3 + 1) = true ∧
      ymd2ord (n400 * 400 + n100 * 100 + n4 * 4 + 3 + 1) 12 31 =
        n400 * 146097 + n100 * 36524 + n4 * 1461 + 1461 := by
  have hl : isLeap (n400 * 400 + n100 * 100 + n4 * 4 + 3 + 1) = true := by
    rw [isLeap_eq n400 h100 h4 (by decide)]; simpa using hleap
  refine ⟨hl, ?_⟩
  rw [ymd2ord, hl, daysBeforeYear_eq n400 h100 h4 (by decide)]
  have : daysBeforeMonth true 12 = 335 := by decide
  omega

/-- The date that the cycles find is a date, and it is the right one. -/
theorem ord2ymd_spec {n : ℕ} (hn : n < maxOrdinal) :
    IsDate (ord2ymd n).1 (ord2ymd n).2.1 (ord2ymd n).2.2 ∧
      ymd2ord (ord2ymd n).1 (ord2ymd n).2.1 (ord2ymd n).2.2 = n + 1 := by
  unfold maxOrdinal at hn
  unfold ord2ymd
  dsimp only
  generalize h400 : n / 146097 = n400
  generalize hr400 : n % 146097 = r400
  generalize h100 : r400 / 36524 = n100
  generalize hr100 : r400 % 36524 = r100
  generalize h4 : r100 / 1461 = n4
  generalize hr4 : r100 % 1461 = r4
  generalize h1 : r4 / 365 = n1
  generalize hr1 : r4 % 365 = r1
  have hb : n4 < 25 := by omega
  by_cases hlast : n1 = 4 ∨ n100 = 4
  · rw [if_pos hlast]
    dsimp only
    have hday : ∀ year, isLeap year = true → 31 ≤ daysInMonth (isLeap year) 12 := by
      intro year h; rw [h]; decide
    rcases eq_or_ne n100 4 with h | h
    · obtain ⟨hl, ho⟩ := ord2ymd_last n400 (show 3 < 4 by decide) (show 24 < 25 by decide)
        (by decide)
      have hy : n400 * 400 + n100 * 100 + n4 * 4 + n1 + 1 - 1 =
          n400 * 400 + 3 * 100 + 24 * 4 + 3 + 1 := by omega
      rw [hy]
      exact ⟨⟨by omega, by decide, by decide, hday _ hl⟩, by omega⟩
    · obtain ⟨hl, ho⟩ := ord2ymd_last n400 (show n100 < 4 by omega) hb (by omega)
      have hy : n400 * 400 + n100 * 100 + n4 * 4 + n1 + 1 - 1 =
          n400 * 400 + n100 * 100 + n4 * 4 + 3 + 1 := by omega
      rw [hy]
      exact ⟨⟨by omega, by decide, by decide, hday _ hl⟩, by omega⟩
  · rw [if_neg hlast]
    dsimp only
    have h100' : n100 < 4 := by omega
    have h1' : n1 < 4 := by omega
    have hl := isLeap_eq n400 h100' hb h1'
    have hy := daysBeforeYear_eq n400 h100' hb h1'
    obtain ⟨hm, hd, ho⟩ := monthDay_spec
      (n1 = 3 && (n4 ≠ 24 || n100 = 3) : Bool) r1 (by omega)
    rw [← hl] at hm hd ho ⊢
    refine ⟨⟨by omega, hm, hd⟩, ?_⟩
    rw [ymd2ord, hy]
    omega

theorem daysBeforeYear_mono {year year' : ℕ} (hy : 1 ≤ year) (h : year ≤ year') :
    daysBeforeYear year ≤ daysBeforeYear year' := by
  induction h with
  | refl => exact le_refl _
  | step h ih =>
    have hs := daysBeforeYear_succ (hy.trans h)
    rw [Nat.succ_eq_add_one]
    omega

theorem daysBeforeYear_le {year : ℕ} (hy : 1 ≤ year) (h : year ≤ 9999) :
    daysBeforeYear year ≤ 3651694 := daysBeforeYear_mono hy h

/-! ### Dates -/

structure Date where
  year : ℕ
  month : ℕ
  day : ℕ
  valid : IsDate year month day
  deriving DecidableEq

namespace Date

def toOrdinal (d : Date) : ℕ := ymd2ord d.year d.month d.day

def ofOrdinal (n : ℕ) (h : n < maxOrdinal) : Date :=
  ⟨(ord2ymd n).1, (ord2ymd n).2.1, (ord2ymd n).2.2, (ord2ymd_spec h).1⟩

theorem toOrdinal_ofOrdinal (n : ℕ) (h : n < maxOrdinal) : (ofOrdinal n h).toOrdinal = n + 1 :=
  (ord2ymd_spec h).2

theorem toOrdinal_pos (d : Date) : 1 ≤ d.toOrdinal := by
  obtain ⟨_, _, hd, _⟩ := d.valid
  rw [toOrdinal, ymd2ord]
  omega

theorem daysBeforeMonth_add_le : ∀ leap : Bool, ∀ month < 13, 1 ≤ month →
    daysBeforeMonth leap month + daysInMonth leap month ≤ 365 + leap.toNat := by
  decide

theorem toOrdinal_le (d : Date) : d.toOrdinal ≤ maxOrdinal := by
  obtain ⟨⟨hy, hy'⟩, ⟨hm, hm'⟩, _, hd⟩ := d.valid
  have hmonth := daysBeforeMonth_add_le (isLeap d.year) d.month (by omega) hm
  rw [toOrdinal, ymd2ord, maxOrdinal]
  rcases Nat.lt_or_ge d.year 9999 with h | h
  · have hs := daysBeforeYear_succ hy
    have hle : daysBeforeYear (d.year + 1) ≤ 3651694 := daysBeforeYear_le (by omega) h
    omega
  · obtain h9 : d.year = 9999 := by omega
    have hleap : (isLeap d.year).toNat = 0 := by rw [h9]; decide
    have hle := daysBeforeYear_le hy hy'
    omega

def startOfMonth (d : Date) : Date where
  year := d.year
  month := d.month
  day := 1
  valid := by
    obtain ⟨hy, hm, hd, hd'⟩ := d.valid
    exact ⟨hy, hm, le_refl 1, hd.trans hd'⟩

/-- The first of the next month, unless that is past the last year. -/
def nextMonth? (d : Date) : Option Date :=
  if h12 : d.month = 12 then
    if h : d.year + 1 ≤ 9999 then
      some ⟨d.year + 1, 1, 1, ⟨⟨by omega, h⟩, by decide, le_refl 1, by simp [daysInMonth]⟩⟩
    else none
  else some ⟨d.year, d.month + 1, 1, by
    obtain ⟨hy, ⟨hm, hm'⟩, _⟩ := d.valid
    refine ⟨hy, ⟨by omega, by omega⟩, le_refl 1, ?_⟩
    generalize isLeap d.year = leap
    unfold daysInMonth
    split <;> (try split) <;> omega⟩

theorem toOrdinal_startOfMonth_le (d : Date) : d.startOfMonth.toOrdinal ≤ d.toOrdinal := by
  obtain ⟨_, _, hd, _⟩ := d.valid
  show ymd2ord d.year d.month 1 ≤ ymd2ord d.year d.month d.day
  rw [ymd2ord, ymd2ord]
  omega

theorem toOrdinal_lt_nextMonth {d e : Date} (h : d.nextMonth? = some e) :
    d.toOrdinal < e.toOrdinal := by
  obtain ⟨⟨hy, hy'⟩, ⟨hm, hm'⟩, _, hd⟩ := d.valid
  unfold nextMonth? at h
  split at h
  · rename_i h12
    split at h
    · obtain rfl := Option.some.inj h
      show ymd2ord d.year d.month d.day < ymd2ord (d.year + 1) 1 1
      have hmonth := daysBeforeMonth_add_le (isLeap d.year) d.month (by omega) hm
      have hs := daysBeforeYear_succ hy
      rw [ymd2ord, ymd2ord]
      omega
    · cases h
  · rename_i h12
    obtain rfl := Option.some.inj h
    show ymd2ord d.year d.month d.day < ymd2ord d.year (d.month + 1) 1
    have hs := daysBeforeMonth_succ (isLeap d.year) d.month (by omega) hm
    rw [ymd2ord, ymd2ord, hs]
    omega

theorem daysInMonth_bounds (leap : Bool) (month : ℕ) :
    28 ≤ daysInMonth leap month ∧ daysInMonth leap month ≤ 31 := by
  unfold daysInMonth
  split <;> (try split) <;> omega

theorem daysBeforeMonth_one : ∀ leap : Bool, daysBeforeMonth leap 1 = 0 := by decide

theorem daysBeforeMonth_twelve : ∀ leap : Bool, daysBeforeMonth leap 12 = 334 + leap.toNat := by
  decide

theorem toOrdinal_nextMonth {d e : Date} (h : d.nextMonth? = some e) :
    e.toOrdinal = d.startOfMonth.toOrdinal + daysInMonth (isLeap d.year) d.month := by
  obtain ⟨⟨hy, hy'⟩, ⟨hm, hm'⟩, _, _⟩ := d.valid
  unfold nextMonth? at h
  split at h
  · rename_i h12
    split at h
    · obtain rfl := Option.some.inj h
      show ymd2ord (d.year + 1) 1 1 = ymd2ord d.year d.month 1 + daysInMonth (isLeap d.year) d.month
      have hs := daysBeforeYear_succ hy
      have hdec : daysInMonth (isLeap d.year) 12 = 31 := rfl
      rw [ymd2ord, ymd2ord, h12, daysBeforeMonth_one, daysBeforeMonth_twelve, hdec]
      omega
    · cases h
  · rename_i h12
    obtain rfl := Option.some.inj h
    show ymd2ord d.year (d.month + 1) 1 =
      ymd2ord d.year d.month 1 + daysInMonth (isLeap d.year) d.month
    rw [ymd2ord, ymd2ord, daysBeforeMonth_succ (isLeap d.year) d.month (by omega) hm]
    omega

/-- The number of months before the month of a date, up to a constant. -/
def monthIndex (d : Date) : ℕ := 12 * d.year + d.month

theorem monthIndex_eq_iff {d e : Date} :
    d.monthIndex = e.monthIndex ↔ d.year = e.year ∧ d.month = e.month := by
  obtain ⟨_, ⟨hm, hm'⟩, _⟩ := d.valid
  obtain ⟨_, ⟨hn, hn'⟩, _⟩ := e.valid
  rw [monthIndex, monthIndex]
  omega

theorem startOfMonth_eq_iff {d e : Date} :
    d.startOfMonth = e.startOfMonth ↔ d.monthIndex = e.monthIndex := by
  rw [monthIndex_eq_iff, startOfMonth, startOfMonth, mk.injEq]
  exact ⟨fun h => ⟨h.1, h.2.1⟩, fun h => ⟨h.1, h.2, rfl⟩⟩

theorem nextMonth?_startOfMonth (d : Date) : d.startOfMonth.nextMonth? = d.nextMonth? := rfl

def monthLength (d : Date) : ℕ := daysInMonth (isLeap d.year) d.month

theorem toOrdinal_lt_startOfMonth_add (d : Date) :
    d.toOrdinal < d.startOfMonth.toOrdinal + d.monthLength := by
  obtain ⟨_, _, hd, hd'⟩ := d.valid
  show ymd2ord d.year d.month d.day < ymd2ord d.year d.month 1 + _
  rw [ymd2ord, ymd2ord, monthLength]
  omega

theorem daysBeforeMonth_add_le_of_lt : ∀ leap : Bool, ∀ later < 13, ∀ month < later, 1 ≤ month →
    daysBeforeMonth leap month + daysInMonth leap month ≤ daysBeforeMonth leap later := by
  decide

theorem startOfMonth_add_le {d e : Date} (h : d.monthIndex < e.monthIndex) :
    d.startOfMonth.toOrdinal + d.monthLength ≤ e.startOfMonth.toOrdinal := by
  obtain ⟨⟨hy, _⟩, ⟨hm, hm'⟩, _⟩ := d.valid
  obtain ⟨_, ⟨hn, hn'⟩, _⟩ := e.valid
  show ymd2ord d.year d.month 1 + _ ≤ ymd2ord e.year e.month 1
  rw [ymd2ord, ymd2ord, monthLength]
  rw [monthIndex, monthIndex] at h
  rcases Nat.lt_or_ge d.year e.year with hlt | hge
  · have hmonth := daysBeforeMonth_add_le (isLeap d.year) d.month (by omega) hm
    have hs := daysBeforeYear_succ hy
    have hle := daysBeforeYear_mono (by omega) (show d.year + 1 ≤ e.year from hlt)
    omega
  · obtain heq : d.year = e.year := by omega
    have hmonth := daysBeforeMonth_add_le_of_lt (isLeap d.year) e.month (by omega) d.month
      (by omega) hm
    rw [← heq]
    omega

theorem exists_nextMonth {d e : Date} (h : d.monthIndex < e.monthIndex) :
    ∃ f, d.nextMonth? = some f ∧ f.startOfMonth = f ∧ f.monthIndex = d.monthIndex + 1 := by
  obtain ⟨_, ⟨hm, hm'⟩, _⟩ := d.valid
  obtain ⟨⟨_, hy⟩, ⟨_, hn⟩, _⟩ := e.valid
  rw [monthIndex, monthIndex] at h
  unfold nextMonth?
  split
  · rename_i h12
    rw [dif_pos (by omega)]
    refine ⟨_, rfl, rfl, ?_⟩
    show 12 * (d.year + 1) + 1 = 12 * d.year + d.month + 1
    omega
  · exact ⟨_, rfl, rfl, rfl⟩

theorem monthIndex_eq_of_mem {d e : Date} (hle : e.startOfMonth.toOrdinal ≤ d.toOrdinal)
    (hlt : d.toOrdinal < e.startOfMonth.toOrdinal + e.monthLength) :
    d.monthIndex = e.monthIndex := by
  rcases Nat.lt_trichotomy d.monthIndex e.monthIndex with h | h | h
  · have hend := startOfMonth_add_le h
    have hd := d.toOrdinal_lt_startOfMonth_add
    omega
  · exact h
  · have hend := startOfMonth_add_le h
    have hd := d.toOrdinal_startOfMonth_le
    omega

theorem monthIndex_eq_succ {d e : Date}
    (hle : e.startOfMonth.toOrdinal + e.monthLength ≤ d.toOrdinal)
    (hlt : d.toOrdinal < e.startOfMonth.toOrdinal + e.monthLength + 28) :
    d.monthIndex = e.monthIndex + 1 := by
  have hafter : e.monthIndex < d.monthIndex := by
    by_contra hc
    have hd := d.toOrdinal_lt_startOfMonth_add
    rcases Nat.lt_or_eq_of_le (not_lt.mp hc) with h | h
    · have hend := startOfMonth_add_le h
      omega
    · have hlen : d.monthLength = e.monthLength := by
        obtain ⟨hy, hm⟩ := monthIndex_eq_iff.mp h
        rw [monthLength, monthLength, hy, hm]
      rw [startOfMonth_eq_iff.mpr h, hlen] at hd
      omega
  obtain ⟨f, hf, hfirst, hindex⟩ := exists_nextMonth hafter
  have hstart := toOrdinal_nextMonth hf
  rw [← hindex]
  refine monthIndex_eq_of_mem ?_ ?_
  · rw [hfirst, hstart]
    exact hle
  · have hlen : 28 ≤ f.monthLength := (daysInMonth_bounds _ _).1
    have heq : f.toOrdinal = e.startOfMonth.toOrdinal + e.monthLength := hstart
    rw [hfirst]
    omega

theorem succ_monthIndex_eq {d e : Date} (hlt : d.toOrdinal < e.startOfMonth.toOrdinal)
    (hle : e.startOfMonth.toOrdinal ≤ d.toOrdinal + 28) : d.monthIndex + 1 = e.monthIndex := by
  have hbefore : d.monthIndex < e.monthIndex := by
    by_contra hc
    have hd := d.toOrdinal_startOfMonth_le
    rcases Nat.lt_or_eq_of_le (not_lt.mp hc) with h | h
    · have hend := startOfMonth_add_le h
      omega
    · rw [← startOfMonth_eq_iff.mpr h] at hd
      omega
  obtain ⟨f, hf, hfirst, hindex⟩ := exists_nextMonth hbefore
  have hd := d.toOrdinal_lt_startOfMonth_add
  have hstart : f.toOrdinal = d.startOfMonth.toOrdinal + d.monthLength := toOrdinal_nextMonth hf
  rw [← hindex]
  by_contra hne
  have hend := startOfMonth_add_le (d := f) (e := e) (by omega)
  have hlen : 28 ≤ f.monthLength := (daysInMonth_bounds _ _).1
  rw [hfirst] at hend
  omega

/-- Monday of ISO week 1 of a year, as an ordinal: the week with the first Thursday. -/
def isoWeek1Monday (year : ℕ) : ℤ :=
  let firstday : ℤ := ymd2ord year 1 1
  let firstweekday := (firstday + 6) % 7
  if 3 < firstweekday then firstday - firstweekday + 7 else firstday - firstweekday

def isoCalendar (d : Date) : ℕ × ℕ :=
  let today : ℤ := d.toOrdinal
  let week := (today - isoWeek1Monday d.year) / 7
  if week < 0 then
    (d.year - 1, ((today - isoWeek1Monday (d.year - 1)) / 7 + 1).toNat)
  else if 52 ≤ week ∧ isoWeek1Monday (d.year + 1) ≤ today then (d.year + 1, 1)
  else (d.year, (week + 1).toNat)

end Date

/-! ### Moments -/

def microsPerDay : ℕ := 86400000000

theorem zero_offset_lt : |(0 : ℤ)| < microsPerDay := by decide

/-- A date and a time of day, on a clock with a fixed offset from UTC. -/
structure Moment where
  /-- microseconds since 0001-01-01 on that clock -/
  clock : ℕ
  /-- how far that clock is ahead of UTC, in microseconds -/
  offset : ℤ := 0
  clock_lt : clock < maxOrdinal * microsPerDay
  offset_lt : |offset| < microsPerDay
  deriving DecidableEq

namespace Moment

/-- Microseconds since 0001-01-01 UTC. -/
def utc (t : Moment) : ℤ := t.clock - t.offset

/-- The moment at `clock` on the clock of `t`, unless there is none. -/
def ofClock? (t : Moment) (clock : ℤ) : Option Moment :=
  if h : 0 ≤ clock ∧ clock < (maxOrdinal * microsPerDay : ℕ) then
    some ⟨clock.toNat, t.offset, by omega, t.offset_lt⟩
  else none

def add? (t : Moment) (micros : ℤ) : Option Moment := t.ofClock? (t.clock + micros)

/-- The same moment on the clock of UTC. -/
def toUtc? (t : Moment) : Option Moment :=
  if h : 0 ≤ t.utc ∧ t.utc < (maxOrdinal * microsPerDay : ℕ) then
    some ⟨t.utc.toNat, 0, by omega, zero_offset_lt⟩
  else none

def date (t : Moment) : Date :=
  Date.ofOrdinal (t.clock / microsPerDay)
    (Nat.div_lt_of_lt_mul (by rw [Nat.mul_comm]; exact t.clock_lt))

end Moment

def Date.midnight (d : Date) : Moment where
  clock := (d.toOrdinal - 1) * microsPerDay
  clock_lt := by
    have h1 := d.toOrdinal_pos
    have h2 := d.toOrdinal_le
    have : 0 < microsPerDay := by decide
    exact Nat.mul_lt_mul_of_pos_right (by omega) this
  offset_lt := zero_offset_lt

namespace Moment

theorem add?_zero (t : Moment) : t.add? 0 = some t := by
  have hclock : (0 : ℤ) ≤ t.clock + 0 ∧ (t.clock + 0 : ℤ) < (maxOrdinal * microsPerDay : ℕ) :=
    ⟨by omega, by exact_mod_cast t.clock_lt⟩
  rw [add?, ofClock?, dif_pos hclock]
  congr 1

theorem utc_of_toUtc? {t u : Moment} (h : t.toUtc? = some u) : u.utc = t.utc ∧ u.offset = 0 := by
  unfold toUtc? at h
  split at h
  · rename_i hr
    obtain rfl := Option.some.inj h
    exact ⟨by show ((t.utc.toNat : ℕ) : ℤ) - 0 = t.utc; omega, rfl⟩
  · cases h

theorem toOrdinal_date (t : Moment) : t.date.toOrdinal = t.clock / microsPerDay + 1 :=
  Date.toOrdinal_ofOrdinal _ _

theorem midnight_startOfMonth_le (t : Moment) : t.date.startOfMonth.midnight.clock ≤ t.clock := by
  have hle := t.date.toOrdinal_startOfMonth_le
  rw [toOrdinal_date] at hle
  show (t.date.startOfMonth.toOrdinal - 1) * microsPerDay ≤ t.clock
  exact (Nat.mul_le_mul_right _ (Nat.sub_le_iff_le_add.mpr hle)).trans (Nat.div_mul_le_self _ _)

theorem lt_midnight_nextMonth {t : Moment} {e : Date} (h : t.date.nextMonth? = some e) :
    t.clock < e.midnight.clock := by
  have hlt := Date.toOrdinal_lt_nextMonth h
  rw [toOrdinal_date] at hlt
  show t.clock < (e.toOrdinal - 1) * microsPerDay
  have hpos : 0 < microsPerDay := by decide
  have hdiv : t.clock < (t.clock / microsPerDay + 1) * microsPerDay := by
    rw [Nat.mul_comm]; exact Nat.lt_mul_div_succ t.clock hpos
  exact hdiv.trans_le (Nat.mul_le_mul_right _ (by omega))

theorem midnight_nextMonth {t : Moment} {e : Date} (h : t.date.nextMonth? = some e) :
    ∃ days : ℕ, (28 ≤ days ∧ days ≤ 31) ∧
      e.midnight.clock = t.date.startOfMonth.midnight.clock + days * microsPerDay := by
  refine ⟨_, Date.daysInMonth_bounds (isLeap t.date.year) t.date.month, ?_⟩
  have hnext := Date.toOrdinal_nextMonth h
  have hpos := t.date.startOfMonth.toOrdinal_pos
  show (e.toOrdinal - 1) * microsPerDay =
    (t.date.startOfMonth.toOrdinal - 1) * microsPerDay + _ * microsPerDay
  rw [← Nat.add_mul]
  congr 1
  omega

end Moment

end Calendar
