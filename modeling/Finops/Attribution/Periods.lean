import Finops.Attribution.Engine
import Finops.Attribution.Tags

/-!
# Relative periods

A query speaks in relative windows such as `30d`.  `parsePeriod` trims and lower-cases the
text, matches it against digits and a unit, and reads the digits as a number of at most
`MAX_UNITS`.

The digits of the pattern are those of every script, and so are those that `int()` reads;
beyond `MAX_STR_DIGITS` of them `int()` raises an error of its own.  These are the two ways
in which a text that is no period comes out otherwise than as `invalidPeriod`
(`followsGrammar_iff`), and the second is one that the unattributed report lets through
(`unattributedWindow_eq_uncaught_iff`).
-/

namespace Finops

/-! ### The pattern -/

/-- The decimal digits of Unicode: those of ASCII and others. -/
structure DecimalDigits where
  value : Char → Option ℕ
  ascii : ∀ c, c.toNat < 128 → value c = if c.isDigit then some (c.toNat - '0'.toNat) else none

inductive PeriodUnit
  | hour
  | day
  | week
  deriving DecidableEq

def PeriodUnit.letter : PeriodUnit → Char
  | hour => 'h'
  | day => 'd'
  | week => 'w'

def PeriodUnit.ofChar? : Char → Option PeriodUnit
  | 'h' => some hour
  | 'd' => some day
  | 'w' => some week
  | _ => none

def PeriodUnit.delta : PeriodUnit → ℤ
  | hour => 3600000000
  | day => 86400000000
  | week => 604800000000

def MAX_UNITS : ℕ := 3650

/-- What resolving a period can raise; `InvalidPeriodError` is a `ValueError` about a text. -/
inductive PeriodError
  | invalidPeriod (value : String)
  | valueError (message : String)
  | overflowError
  deriving DecidableEq

section

variable (digits : DecimalDigits)

def DecimalDigits.isDecimal (c : Char) : Bool := (digits.value c).isSome

def DecimalDigits.number (size : List Char) : ℕ :=
  size.foldl (fun n c => 10 * n + (digits.value c).getD 0) 0

def readInt (size : List Char) : Except PeriodError ℕ :=
  if MAX_STR_DIGITS < size.length then
    .error (.valueError ("Exceeds the limit (" ++ toString MAX_STR_DIGITS ++
      " digits) for integer string conversion: value has " ++ toString size.length ++
      " digits; use sys.set_int_max_str_digits() to increase the limit"))
  else .ok (digits.number size)

/-- `^(?P<size>\d+)(?P<unit>[hdw])$`, where `$` also matches before a last newline. -/
def PERIOD_PATTERN (text : List Char) : Option (List Char × PeriodUnit) :=
  match text.dropWhile digits.isDecimal with
  | [] => none
  | c :: rest =>
    if text.takeWhile digits.isDecimal ≠ [] ∧ (rest = [] ∨ rest = ['\n']) then
      (PeriodUnit.ofChar? c).map fun unit => (text.takeWhile digits.isDecimal, unit)
    else none

variable (lower : String → String)

def parsePeriod (value : String) : Except PeriodError ℤ :=
  match PERIOD_PATTERN digits (lower (strip value)).toList with
  | none => .error (.invalidPeriod value)
  | some (match_size, unit) => do
    let size ← readInt digits match_size
    if size = 0 ∨ MAX_UNITS < size then .error (.invalidPeriod value)
    else .ok (size * unit.delta)

/-- A window and the equally sized window immediately before it. -/
structure PeriodPair where
  current : Period
  previous : Period
  label : String

/-- `moment - duration`, from year 1 on. -/
def minusDuration (moment duration : ℤ) : Except PeriodError ℤ :=
  if 0 ≤ moment - duration then .ok (moment - duration) else .error .overflowError

def mkPeriod (start stop : ℤ) : Except PeriodError Period :=
  if h : start < stop then .ok ⟨start, stop, h⟩
  else .error (.valueError "period end must be after period start")

def resolvePeriod (value : String) (now : Instant) : Except PeriodError PeriodPair := do
  let duration ← parsePeriod digits lower value
  let start ← minusDuration now duration
  let current ← mkPeriod start now
  let before ← minusDuration start duration
  let previous ← mkPeriod before start
  return { current, previous, label := lower (strip value) }

/-- What a route makes of its period: a window, the answer 400, or an error it lets through. -/
inductive WindowAnswer
  | window (pair : PeriodPair)
  | badRequest (error : PeriodError)
  | uncaught (error : PeriodError)

/-- `get_unattributed`, which catches an `InvalidPeriodError`. -/
def unattributedWindow (period : String) (now : Instant) : WindowAnswer :=
  match resolvePeriod digits lower period now with
  | .ok pair => .window pair
  | .error (.invalidPeriod value) => .badRequest (.invalidPeriod value)
  | .error e => .uncaught e

/-- `get_costs` and `get_timeseries`, which catch every `ValueError`. -/
def costsWindow (period : String) (now : Instant) : WindowAnswer :=
  match resolvePeriod digits lower period now with
  | .ok pair => .window pair
  | .error .overflowError => .uncaught .overflowError
  | .error e => .badRequest e

/-! ### What a text denotes -/

/-- The text, trimmed and in lower case, is a numeral of `n` in ASCII and a unit. -/
def Denotes (value : String) (n : ℕ) (unit : PeriodUnit) : Prop :=
  ∃ numeral, (lower (strip value)).toList = numeral ++ [unit.letter] ∧ numeral ≠ [] ∧
    (∀ c ∈ numeral, c.isDigit = true) ∧ Nat.ofDigitChars 10 numeral 0 = n ∧
    1 ≤ n ∧ n ≤ MAX_UNITS

/-- The periods are the texts that denote one, and the others are rejected as such. -/
structure FollowsGrammar (value : String) : Prop where
  accepts : ∀ duration, parsePeriod digits lower value = .ok duration ↔
    ∃ n unit, Denotes lower value n unit ∧ duration = n * unit.delta
  rejects : (¬∃ n unit, Denotes lower value n unit) →
    parsePeriod digits lower value = .error (.invalidPeriod value)

/-- A numeral with more digits than `int()` reads, or one of another script whose number is
in range, and a unit. -/
def Mishandled (value : String) : Prop :=
  ∃ numeral unit, (lower (strip value)).toList = numeral ++ [PeriodUnit.letter unit] ∧
    numeral ≠ [] ∧ (∀ c ∈ numeral, digits.isDecimal c = true) ∧
    (MAX_STR_DIGITS < numeral.length ∨
      (∃ c ∈ numeral, c.isDigit = false) ∧
        1 ≤ digits.number numeral ∧ digits.number numeral ≤ MAX_UNITS)

variable {digits lower}

theorem isDecimal_of_isDigit {c : Char} (h : c.isDigit = true) : digits.isDecimal c = true := by
  have hascii : c.toNat < 128 := by
    rw [Char.isDigit, Bool.and_eq_true] at h
    have hle : c.toNat ≤ 57 := of_decide_eq_true h.2
    omega
  rw [DecimalDigits.isDecimal, digits.ascii c hascii, if_pos h]
  rfl

theorem isDecimal_letter (unit : PeriodUnit) : digits.isDecimal unit.letter = false := by
  have hascii : ∀ u : PeriodUnit, u.letter.toNat < 128 ∧ u.letter.isDigit = false := by
    rintro (_ | _ | _) <;> decide
  rw [DecimalDigits.isDecimal, digits.ascii _ (hascii unit).1, (hascii unit).2]
  rfl

theorem number_eq {numeral : List Char} (h : ∀ c ∈ numeral, c.isDigit = true) :
    digits.number numeral = Nat.ofDigitChars 10 numeral 0 := by
  have hfrom : ∀ n, numeral.foldl (fun n c => 10 * n + (digits.value c).getD 0) n =
      Nat.ofDigitChars 10 numeral n := by
    induction numeral with
    | nil => intro n; rfl
    | cons c numeral ih =>
      intro n
      have hc := h c List.mem_cons_self
      have hascii : c.toNat < 128 := by
        rw [Char.isDigit, Bool.and_eq_true] at hc
        have hle : c.toNat ≤ 57 := of_decide_eq_true hc.2
        omega
      rw [List.foldl_cons, ih fun d hd => h d (List.mem_cons_of_mem c hd), Nat.ofDigitChars_cons,
        digits.ascii c hascii, if_pos hc, Option.getD_some]
  exact hfrom 0

theorem ofChar?_eq_some {c : Char} {unit : PeriodUnit} :
    PeriodUnit.ofChar? c = some unit ↔ c = unit.letter := by
  constructor
  · intro h
    unfold PeriodUnit.ofChar? at h
    split at h
    · cases h; rfl
    · cases h; rfl
    · cases h; rfl
    · cases h
  · rintro rfl
    cases unit <;> rfl

theorem pattern_eq_some {text size : List Char} {unit : PeriodUnit} :
    PERIOD_PATTERN digits text = some (size, unit) ↔
      size ≠ [] ∧ (∀ c ∈ size, digits.isDecimal c = true) ∧
        (text = size ++ [unit.letter] ∨ text = size ++ [unit.letter, '\n']) := by
  constructor
  · intro h
    unfold PERIOD_PATTERN at h
    split at h
    · cases h
    · rename_i c rest hdrop
      split at h
      · rename_i hc
        obtain ⟨u, hu, he⟩ := Option.map_eq_some_iff.mp h
        cases he
        have hsplit := List.takeWhile_append_dropWhile (p := digits.isDecimal) (l := text)
        rw [hdrop, ofChar?_eq_some.mp hu] at hsplit
        refine ⟨hc.1, fun c hm => List.mem_takeWhile_imp hm, ?_⟩
        rcases hc.2 with rfl | rfl
        · exact .inl hsplit.symm
        · exact .inr hsplit.symm
      · cases h
  · rintro ⟨hne, hsize, htext⟩
    obtain ⟨rest, hrest, rfl⟩ : ∃ rest, (rest = [] ∨ rest = ['\n']) ∧
        text = size ++ unit.letter :: rest := by
      rcases htext with rfl | rfl
      · exact ⟨[], .inl rfl, rfl⟩
      · exact ⟨['\n'], .inr rfl, rfl⟩
    have hstop : ¬digits.isDecimal unit.letter = true := by
      rw [isDecimal_letter]
      decide
    rw [PERIOD_PATTERN, List.dropWhile_append_of_pos hsize, List.dropWhile_cons_of_neg hstop,
      List.takeWhile_append_of_pos hsize, List.takeWhile_cons_of_neg hstop, List.append_nil]
    show (if size ≠ [] ∧ (rest = [] ∨ rest = ['\n']) then _ else none) = some (size, unit)
    rw [if_pos ⟨hne, hrest⟩, ofChar?_eq_some.mpr rfl]
    rfl

theorem not_newline_of_strip {s : String} (h : strip s = s) (l : List Char) :
    s.toList ≠ l ++ ['\n'] := by
  intro he
  have hr : s.toList.rdropWhile isSpace = s.toList := by
    nth_rewrite 1 [← h]
    rw [toList_strip, List.rdropWhile_idempotent, ← toList_strip, h]
  rw [he, List.rdropWhile_concat_pos _ _ _ (by decide)] at hr
  have hlen := (List.rdropWhile_prefix (p := isSpace) (l := l)).length_le
  rw [hr, List.length_append, List.length_singleton] at hlen
  omega

theorem pattern_of_lowerCase (hlower : LowerCase lower) {value : String} {size : List Char}
    {unit : PeriodUnit} :
    PERIOD_PATTERN digits (lower (strip value)).toList = some (size, unit) ↔
      (lower (strip value)).toList = size ++ [unit.letter] ∧ size ≠ [] ∧
        ∀ c ∈ size, digits.isDecimal c = true := by
  have hstrip := hlower.trimmed _ (strip_strip value)
  rw [pattern_eq_some]
  constructor
  · rintro ⟨hne, hsize, htext | htext⟩
    · exact ⟨htext, hne, hsize⟩
    · refine absurd (htext.trans ?_) (not_newline_of_strip hstrip (size ++ [unit.letter]))
      rw [List.append_assoc]
      rfl
  · rintro ⟨htext, hne, hsize⟩
    exact ⟨hne, hsize, .inl htext⟩

theorem parsePeriod_of_none {value : String}
    (h : PERIOD_PATTERN digits (lower (strip value)).toList = none) :
    parsePeriod digits lower value = .error (.invalidPeriod value) := by
  rw [parsePeriod, h]

theorem parsePeriod_of_long {value : String} {size : List Char} {unit : PeriodUnit}
    (h : PERIOD_PATTERN digits (lower (strip value)).toList = some (size, unit))
    (hlong : MAX_STR_DIGITS < size.length) :
    ∃ message, parsePeriod digits lower value = .error (.valueError message) := by
  rw [parsePeriod, h]
  show ∃ message, (readInt digits size >>= _) = _
  rw [readInt, if_pos hlong]
  exact ⟨_, rfl⟩

theorem parsePeriod_of_read {value : String} {size : List Char} {unit : PeriodUnit}
    (h : PERIOD_PATTERN digits (lower (strip value)).toList = some (size, unit))
    (hread : ¬MAX_STR_DIGITS < size.length) :
    parsePeriod digits lower value =
      if 1 ≤ digits.number size ∧ digits.number size ≤ MAX_UNITS then
        .ok (digits.number size * unit.delta)
      else .error (.invalidPeriod value) := by
  rw [parsePeriod, h]
  show (readInt digits size >>= _) = _
  rw [readInt, if_neg hread]
  show (if digits.number size = 0 ∨ MAX_UNITS < digits.number size then _ else _) = _
  by_cases hrange : 1 ≤ digits.number size ∧ digits.number size ≤ MAX_UNITS
  · rw [if_pos hrange, if_neg (by omega)]
  · rw [if_neg hrange, if_pos (by omega)]

theorem exists_match_of_denotes (hlower : LowerCase lower) {value : String} {n : ℕ}
    {unit : PeriodUnit} (h : Denotes lower value n unit) : ∃ numeral,
      PERIOD_PATTERN digits (lower (strip value)).toList = some (numeral, unit) ∧
        (∀ c ∈ numeral, c.isDigit = true) ∧ digits.number numeral = n ∧ 1 ≤ n ∧ n ≤ MAX_UNITS := by
  obtain ⟨numeral, htext, hne, hdigits, hvalue, hrange⟩ := h
  exact ⟨numeral, (pattern_of_lowerCase hlower).mpr
    ⟨htext, hne, fun c hc => isDecimal_of_isDigit (hdigits c hc)⟩, hdigits,
    (number_eq hdigits).trans hvalue, hrange⟩

theorem denotes_iff (hlower : LowerCase lower) {value : String} {size : List Char}
    {unit : PeriodUnit}
    (h : PERIOD_PATTERN digits (lower (strip value)).toList = some (size, unit)) {n : ℕ}
    {u : PeriodUnit} : Denotes lower value n u ↔
      u = unit ∧ (∀ c ∈ size, c.isDigit = true) ∧ digits.number size = n ∧ 1 ≤ n ∧
        n ≤ MAX_UNITS := by
  obtain ⟨htext, hne, hdec⟩ := (pattern_of_lowerCase hlower).mp h
  constructor
  · intro hd
    obtain ⟨numeral, hmatch, hrest⟩ := @exists_match_of_denotes digits lower hlower value n u hd
    rw [h] at hmatch
    cases hmatch
    exact ⟨rfl, hrest⟩
  · rintro ⟨rfl, hdigits, hvalue, hrange⟩
    exact ⟨size, htext, hne, hdigits, (number_eq hdigits).symm.trans hvalue, hrange⟩

theorem followsGrammar_of_invalid {value : String} (hno : ¬∃ n unit, Denotes lower value n unit)
    (hparse : parsePeriod digits lower value = .error (.invalidPeriod value)) :
    FollowsGrammar digits lower value := by
  refine ⟨fun duration => iff_of_false ?_ ?_, fun _ => hparse⟩
  · intro h
    rw [hparse] at h
    cases h
  · rintro ⟨n, unit, hn, _⟩
    exact hno ⟨n, unit, hn⟩

theorem not_followsGrammar_of_valueError {value message : String}
    (hraise : parsePeriod digits lower value = .error (.valueError message)) :
    ¬FollowsGrammar digits lower value := by
  intro h
  by_cases hd : ∃ n unit, Denotes lower value n unit
  · obtain ⟨n, unit, hd⟩ := hd
    have hok := (h.accepts _).mpr ⟨n, unit, hd, rfl⟩
    rw [hraise] at hok
    cases hok
  · have herror := h.rejects hd
    rw [hraise] at herror
    cases herror

theorem followsGrammar_of_none (hlower : LowerCase lower) {value : String}
    (hmatch : PERIOD_PATTERN digits (lower (strip value)).toList = none) :
    FollowsGrammar digits lower value := by
  refine followsGrammar_of_invalid ?_ (parsePeriod_of_none hmatch)
  rintro ⟨n, unit, hd⟩
  obtain ⟨numeral, hsome, _⟩ := @exists_match_of_denotes digits lower hlower value n unit hd
  rw [hmatch] at hsome
  cases hsome

theorem followsGrammar_read_iff (hlower : LowerCase lower) {value : String} {size : List Char}
    {unit : PeriodUnit}
    (hmatch : PERIOD_PATTERN digits (lower (strip value)).toList = some (size, unit))
    (hread : ¬MAX_STR_DIGITS < size.length) :
    FollowsGrammar digits lower value ↔
      (1 ≤ digits.number size ∧ digits.number size ≤ MAX_UNITS →
        ∀ c ∈ size, c.isDigit = true) := by
  have hparse := parsePeriod_of_read hmatch hread
  constructor
  · intro h hrange
    rw [if_pos hrange] at hparse
    obtain ⟨n, u, hd, _⟩ := (h.accepts _).mp hparse
    exact ((denotes_iff hlower hmatch).mp hd).2.1
  · intro hdigits
    by_cases hrange : 1 ≤ digits.number size ∧ digits.number size ≤ MAX_UNITS
    · rw [if_pos hrange] at hparse
      have hd := (denotes_iff hlower hmatch).mpr ⟨rfl, hdigits hrange, rfl, hrange⟩
      refine ⟨fun duration => ?_, fun hno => absurd ⟨_, _, hd⟩ hno⟩
      rw [hparse]
      constructor
      · intro he
        cases he
        exact ⟨_, _, hd, rfl⟩
      · rintro ⟨n, u, hn, rfl⟩
        obtain ⟨rfl, _, rfl, _⟩ := (denotes_iff hlower hmatch).mp hn
        rfl
    · rw [if_neg hrange] at hparse
      refine followsGrammar_of_invalid ?_ hparse
      rintro ⟨n, u, hn⟩
      obtain ⟨_, _, rfl, hr⟩ := (denotes_iff hlower hmatch).mp hn
      exact hrange hr

theorem mishandled_iff (hlower : LowerCase lower) {value : String} {size : List Char}
    {unit : PeriodUnit}
    (hmatch : PERIOD_PATTERN digits (lower (strip value)).toList = some (size, unit)) :
    Mishandled digits lower value ↔ MAX_STR_DIGITS < size.length ∨
      (∃ c ∈ size, c.isDigit = false) ∧
        1 ≤ digits.number size ∧ digits.number size ≤ MAX_UNITS := by
  obtain ⟨htext, hne, hdec⟩ := (pattern_of_lowerCase hlower).mp hmatch
  constructor
  · rintro ⟨numeral, u, hnumeral, hne', hdec', hbad⟩
    have hsame := (pattern_of_lowerCase hlower).mpr ⟨hnumeral, hne', hdec'⟩
    rw [hmatch] at hsame
    cases hsame
    exact hbad
  · exact fun hbad => ⟨size, unit, htext, hne, hdec, hbad⟩

theorem not_mishandled_of_none (hlower : LowerCase lower) {value : String}
    (hmatch : PERIOD_PATTERN digits (lower (strip value)).toList = none) :
    ¬Mishandled digits lower value := by
  rintro ⟨numeral, unit, htext, hne, hdec, _⟩
  have hsome := (pattern_of_lowerCase hlower).mpr ⟨htext, hne, hdec⟩
  rw [hmatch] at hsome
  cases hsome

/-- **Where `parsePeriod` follows its grammar.**  On every text but long numerals and
numerals of other scripts. -/
theorem followsGrammar_iff (hlower : LowerCase lower) (value : String) :
    FollowsGrammar digits lower value ↔ ¬Mishandled digits lower value := by
  cases hmatch : PERIOD_PATTERN digits (lower (strip value)).toList with
  | none =>
    exact iff_of_true (followsGrammar_of_none hlower hmatch) (not_mishandled_of_none hlower hmatch)
  | some found =>
    obtain ⟨size, unit⟩ := found
    rw [mishandled_iff hlower hmatch]
    by_cases hlong : MAX_STR_DIGITS < size.length
    · obtain ⟨message, hraise⟩ := parsePeriod_of_long hmatch hlong
      exact iff_of_false (not_followsGrammar_of_valueError hraise) (not_not_intro (.inl hlong))
    · rw [followsGrammar_read_iff hlower hmatch hlong, or_iff_right hlong]
      constructor
      · rintro hdigits ⟨⟨c, hc, hnot⟩, hrange⟩
        rw [hdigits hrange c hc] at hnot
        cases hnot
      · intro hok hrange c hc
        by_contra hnot
        exact hok ⟨⟨c, hc, Bool.eq_false_iff.mpr hnot⟩, hrange⟩

/-! ### Inputs that are not handled -/

def decimalBlocks (starts : List ℕ) (h : ∀ start ∈ starts, 128 ≤ start) : DecimalDigits where
  value c :=
    if c.isDigit then some (c.toNat - '0'.toNat)
    else (starts.find? fun start => start ≤ c.toNat ∧ c.toNat < start + 10).map (c.toNat - ·)
  ascii c hc := by
    by_cases hdigit : c.isDigit = true
    · rw [if_pos hdigit, if_pos hdigit]
    · rw [if_neg hdigit, if_neg hdigit, Option.map_eq_none_iff, List.find?_eq_none]
      intro start hs hle
      have := h start hs
      simp only [decide_eq_true_eq] at hle
      omega

/-- The digits of ASCII, the Arabic ones and the Devanagari ones. -/
def someDigits : DecimalDigits := decimalBlocks [0x660, 0x6F0, 0x966] (by decide)

theorem strip_of_notSpace {s : String} (h : ∀ c ∈ s.toList, isSpace c = false) : strip s = s := by
  have hdrop : ∀ l : List Char, (∀ c ∈ l, isSpace c = false) → l.dropWhile isSpace = l := by
    intro l hl
    rw [List.dropWhile_eq_self_iff]
    intro hlen
    rw [hl _ (List.getElem_mem hlen)]
    decide
  rw [strip, hdrop _ h, hdrop _ fun c hc => h c (List.mem_reverse.mp hc), List.reverse_reverse,
    String.ofList_toList]

/-- Nines, more than `int()` reads, and a unit. -/
def manyNines : String := String.ofList (List.replicate (MAX_STR_DIGITS + 1) '9' ++ ['d'])

theorem toList_manyNines : (asciiLower (strip manyNines)).toList =
    List.replicate (MAX_STR_DIGITS + 1) '9' ++ [PeriodUnit.day.letter] := by
  have hspace : ∀ c ∈ manyNines.toList, isSpace c = false := by
    intro c hc
    rw [manyNines, String.toList_ofList, List.mem_append] at hc
    rcases hc with hc | hc
    · rw [List.eq_of_mem_replicate hc]
      decide
    · rw [List.mem_singleton.mp hc]
      decide
  rw [strip_of_notSpace hspace, asciiLower, manyNines, String.toList_ofList, String.toList_ofList,
    List.map_append, List.map_replicate]
  rfl

/-- Three days in Arabic digits are accepted, and a long numeral is rejected by another error. -/
theorem not_followsGrammar : ¬FollowsGrammar someDigits asciiLower "٣d" ∧
    ¬FollowsGrammar someDigits asciiLower manyNines := by
  constructor
  · intro h
    obtain ⟨n, unit, ⟨numeral, htext, _, hdigits, _⟩, _⟩ :=
      (h.accepts 259200000000).mp (by decide)
    have hlist : ['٣'] ++ ['d'] = numeral ++ [unit.letter] := htext
    obtain ⟨hnumeral, _⟩ := List.append_inj' hlist rfl
    exact absurd (hdigits '٣' (hnumeral ▸ List.mem_singleton_self _)) (by decide)
  · intro h
    have hdec : ∀ c ∈ List.replicate (MAX_STR_DIGITS + 1) '9',
        someDigits.isDecimal c = true := by
      intro c hc
      rw [List.eq_of_mem_replicate hc]
      decide
    have hmatch := (pattern_of_lowerCase lowerCase_asciiLower).mpr
      ⟨toList_manyNines, List.replicate_succ_ne_nil, hdec⟩
    have hlong : MAX_STR_DIGITS < (List.replicate (MAX_STR_DIGITS + 1) '9').length := by
      rw [List.length_replicate]
      exact Nat.lt_succ_self _
    obtain ⟨message, hraise⟩ := parsePeriod_of_long hmatch hlong
    by_cases hd : ∃ n unit, Denotes asciiLower manyNines n unit
    · obtain ⟨n, unit, hn⟩ := hd
      have hok := (h.accepts _).mpr ⟨n, unit, hn, rfl⟩
      rw [hraise] at hok
      cases hok
    · have herror := h.rejects hd
      rw [hraise] at herror
      cases herror

theorem followsGrammar_seven_days : LowerCase asciiLower ∧
    ¬Mishandled someDigits asciiLower " 7D " ∧ FollowsGrammar someDigits asciiLower " 7D " := by
  have hok : ¬Mishandled someDigits asciiLower " 7D " := by
    rintro ⟨numeral, unit, htext, _, _, hbad⟩
    have hlist : ['7'] ++ ['d'] = numeral ++ [unit.letter] := htext
    obtain ⟨rfl, _⟩ := List.append_inj' hlist rfl
    rcases hbad with hlong | ⟨⟨c, hc, hother⟩, _⟩
    · exact absurd hlong (by decide)
    · rw [List.mem_singleton.mp hc] at hother
      cases hother
  exact ⟨lowerCase_asciiLower, hok, (followsGrammar_iff lowerCase_asciiLower _).mpr hok⟩

/-! ### What a route answers -/

theorem parsePeriod_pos {value : String} {duration : ℤ}
    (h : parsePeriod digits lower value = .ok duration) : 0 < duration := by
  cases hmatch : PERIOD_PATTERN digits (lower (strip value)).toList with
  | none =>
    rw [parsePeriod_of_none hmatch] at h
    cases h
  | some found =>
    obtain ⟨size, unit⟩ := found
    by_cases hlong : MAX_STR_DIGITS < size.length
    · obtain ⟨message, hraise⟩ := parsePeriod_of_long hmatch hlong
      rw [hraise] at h
      cases h
    · rw [parsePeriod_of_read hmatch hlong] at h
      split at h
      · rename_i hrange
        cases h
        have hunit : 0 < unit.delta := by cases unit <;> decide
        exact mul_pos (by exact_mod_cast hrange.1) hunit
      · cases h

theorem resolvePeriod_of_ok {value : String} {duration : ℤ}
    (h : parsePeriod digits lower value = .ok duration) (now : ℤ) :
    (2 * duration ≤ now → ∃ pair, resolvePeriod digits lower value now = .ok pair ∧
      pair.current.stop = now ∧ pair.current.start = now - duration ∧
      pair.previous.stop = now - duration ∧ pair.previous.start = now - 2 * duration) ∧
    (now < 2 * duration → resolvePeriod digits lower value now = .error .overflowError) := by
  have hpos := parsePeriod_pos h
  rw [resolvePeriod, h]
  show (_ → ∃ pair, (minusDuration now duration >>= _) = _ ∧ _) ∧
    (_ → (minusDuration now duration >>= _) = _)
  constructor
  · intro hle
    rw [minusDuration, if_pos (by omega)]
    show ∃ pair, (mkPeriod (now - duration) now >>= _) = _ ∧ _
    rw [mkPeriod, dif_pos (by omega)]
    show ∃ pair, (minusDuration (now - duration) duration >>= _) = _ ∧ _
    rw [minusDuration, if_pos (by omega)]
    show ∃ pair, (mkPeriod (now - duration - duration) (now - duration) >>= _) = _ ∧ _
    rw [mkPeriod, dif_pos (by omega)]
    exact ⟨_, rfl, rfl, rfl, rfl, by show now - duration - duration = _; omega⟩
  · intro hlt
    by_cases hfirst : 0 ≤ now - duration
    · rw [minusDuration, if_pos hfirst]
      show (mkPeriod (now - duration) now >>= _) = _
      rw [mkPeriod, dif_pos (by omega)]
      show (minusDuration (now - duration) duration >>= _) = _
      rw [minusDuration, if_neg (by omega)]
      rfl
    · rw [minusDuration, if_neg hfirst]
      rfl

theorem resolvePeriod_of_error {value : String} {e : PeriodError}
    (h : parsePeriod digits lower value = .error e) (now : Instant) :
    resolvePeriod digits lower value now = .error e := by
  rw [resolvePeriod, h]
  rfl

/-- **What the unattributed report lets through.**  The error of a long numeral, which the
other routes answer, and a window that would begin before year 1. -/
theorem unattributedWindow_eq_uncaught_iff {value : String} {now : ℤ} :
    (∃ e, unattributedWindow digits lower value now = .uncaught e) ↔
      (∃ message, parsePeriod digits lower value = .error (.valueError message)) ∨
        ∃ e, costsWindow digits lower value now = .uncaught e := by
  rw [unattributedWindow, costsWindow]
  cases hparse : parsePeriod digits lower value with
  | error e =>
    rw [resolvePeriod_of_error hparse]
    cases e <;> simp
  | ok duration =>
    obtain ⟨hok, hover⟩ := resolvePeriod_of_ok hparse now
    rcases le_or_gt (2 * duration) now with hle | hlt
    · obtain ⟨pair, hpair, _⟩ := hok hle
      rw [hpair]
      simp
    · rw [hover hlt]
      simp

end

end Finops
