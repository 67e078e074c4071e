import Finops.Base.Significant
import Finops.Base.Text

/-!
# Amounts in text

`fixed places v` is `v` rounded to so many places, with a comma between each three digits
before the point: what a format such as `,.2f` makes of a decimal.  A value below zero
keeps its sign when it is rounded to zero.

`amount?` reads such a text.  The commas do not count (`filter_separated`), so what is
read back is the rounded value (`amount?_fixed`).
-/

namespace Text

open Numerics

/-- A comma between each three, from the last digit on. -/
def separated : List Char → List Char
  | a :: b :: c :: d :: l => a :: b :: c :: ',' :: separated (d :: l)
  | l => l

def grouped (n : ℕ) : String := String.ofList (separated n.repr.toList.reverse).reverse

def fixed (places : ℕ) (v : ℚ) : String :=
  let units := (halfEven (v / (10 : ℚ) ^ (-places : ℤ))).natAbs
  (if v < 0 then "-" else "") ++ grouped (units / 10 ^ places) ++ "." ++
    zeroPad places (units % 10 ^ places)

/-- Digits and commas, a point, and digits. -/
def unsigned? (l : List Char) : Option ℚ :=
  let frac := (l.dropWhile (· ≠ '.')).tail
  match digits? ((l.takeWhile (· ≠ '.')).filter (· ≠ ',')), digits? frac with
  | some m, some n => some (m + n / 10 ^ frac.length)
  | _, _ => none

def amount? (s : String) : Option ℚ :=
  match s.toList with
  | '-' :: l => (unsigned? l).map fun v => -v
  | l => unsigned? l

example : (fixed 2 (1234567891 / 1000), fixed 2 (-1 / 1000)) = ("1,234,567.89", "-0.00") := by
  decide +kernel

/-! ### The commas -/

theorem filter_separated {l : List Char} (h : ',' ∉ l) :
    (separated l).filter (· ≠ ',') = l := by
  induction l using separated.induct with
  | case1 a b c d l ih =>
    simp only [List.mem_cons, not_or] at h ih
    obtain ⟨ha, hb, hc, hd⟩ := h
    rw [separated, List.filter_cons_of_pos (by simpa using Ne.symm ha),
      List.filter_cons_of_pos (by simpa using Ne.symm hb),
      List.filter_cons_of_pos (by simpa using Ne.symm hc), List.filter_cons_of_neg (by simp), ih hd]
  | case2 l hl =>
    rw [separated.eq_2 _ hl]
    exact List.filter_eq_self.mpr fun c hc => decide_eq_true fun he => h (he ▸ hc)

theorem eq_comma_or_mem {c : Char} {l : List Char} (h : c ∈ separated l) : c = ',' ∨ c ∈ l := by
  induction l using separated.induct with
  | case1 a b d e l ih =>
    rw [separated] at h
    simp only [List.mem_cons] at h ih ⊢
    rcases h with h | h | h | h | h
    · exact .inr (.inl h)
    · exact .inr (.inr (.inl h))
    · exact .inr (.inr (.inr (.inl h)))
    · exact .inl h
    · exact (ih h).imp_right fun h => .inr (.inr (.inr h))
  | case2 l hl =>
    rw [separated.eq_2 _ hl] at h
    exact .inr h

theorem toList_grouped (n : ℕ) :
    (grouped n).toList = (separated n.repr.toList.reverse).reverse := String.toList_ofList

theorem mem_grouped {n : ℕ} {c : Char} (h : c ∈ (grouped n).toList) :
    c = ',' ∨ c.isDigit = true := by
  rw [toList_grouped, List.mem_reverse] at h
  refine (eq_comma_or_mem h).imp_right fun h => ?_
  exact isDigit_of_mem_repr (List.mem_reverse.mp h)

theorem filter_grouped (n : ℕ) : (grouped n).toList.filter (· ≠ ',') = n.repr.toList := by
  have hno : ',' ∉ n.repr.toList.reverse := fun h =>
    absurd (isDigit_of_mem_repr (List.mem_reverse.mp h)) (by decide)
  rw [toList_grouped, List.filter_reverse, filter_separated hno, List.reverse_reverse]

/-! ### Reading -/

theorem digits?_of_isDigit {l : List Char} (hne : l ≠ []) (h : ∀ c ∈ l, c.isDigit = true) :
    digits? l = some (Nat.ofDigitChars 10 l 0) := by
  cases l with
  | nil => exact absurd rfl hne
  | cons c l =>
    rw [digits?, if_pos (h c List.mem_cons_self),
      moreDigits?_eq fun d hd => h d (List.mem_cons_of_mem c hd), Nat.ofDigitChars_cons,
      Nat.mul_zero, Nat.zero_add]

theorem isDigit_of_mem_zeroPad {width n : ℕ} {c : Char} (h : c ∈ (zeroPad width n).toList) :
    c.isDigit = true := by
  rw [toList_zeroPad, List.mem_append] at h
  rcases h with h | h
  · rw [List.eq_of_mem_replicate h]
    decide
  · exact isDigit_of_mem_repr h

theorem digits?_zeroPad (width n : ℕ) : digits? (zeroPad width n).toList = some n := by
  have hne : (zeroPad width n).toList ≠ [] := by
    rw [toList_zeroPad, Nat.toList_repr]
    exact fun h => Nat.toDigits_ne_nil (List.append_eq_nil_iff.mp h).2
  rw [digits?_of_isDigit hne fun c hc => isDigit_of_mem_zeroPad hc, toList_zeroPad,
    Nat.ofDigitChars_append, Nat.ofDigitChars_replicate_zero, Nat.mul_zero, Nat.toList_repr,
    Nat.ofDigitChars_ten_toDigits]

theorem int?_zeroPad (width n : ℕ) : int? (zeroPad width n) = some (n : ℤ) := by
  have hsign : ∀ c l, c.isDigit = false → (zeroPad width n).toList ≠ c :: l := by
    intro c l hc he
    have hmem : c ∈ (zeroPad width n).toList := he ▸ List.mem_cons_self
    rw [isDigit_of_mem_zeroPad hmem] at hc
    cases hc
  rw [int?, strip_eq fun c hc => isBlank_of_isDigit (isDigit_of_mem_zeroPad hc), signed?,
    digits?_zeroPad, Option.map_some, Int.ofNat_eq_natCast]
  · exact fun l => hsign _ l (by decide)
  · exact fun l => hsign _ l (by decide)

theorem unsigned?_eq {places m n : ℕ} (hp : 0 < places) (hn : n < 10 ^ places) :
    unsigned? ((grouped m).toList ++ '.' :: (zeroPad places n).toList) =
      some ((m : ℚ) + (n : ℚ) / 10 ^ places) := by
  have hpoint : '.' ∉ (grouped m).toList := fun h =>
    (mem_grouped h).elim (by decide) (by decide)
  obtain ⟨htake, hdrop⟩ := takeWhile_append_cons (m := (zeroPad places n).toList) hpoint
  have hlength : (zeroPad places n).toList.length = places := by
    rw [String.length_toList, length_zeroPad hp hn]
  unfold unsigned?
  rw [htake, hdrop, List.tail_cons, filter_grouped, digits?_repr]
  dsimp only
  rw [digits?_zeroPad, hlength]

/-- **An amount is read back** as the rounded value. -/
theorem amount?_fixed {places : ℕ} (hp : 0 < places) (v : ℚ) :
    amount? (fixed places v) = some (toExp halfEven (-places) v) := by
  have hstep : (0 : ℚ) < (10 : ℚ) ^ (-places : ℤ) := by positivity
  have hpow : (0 : ℕ) < 10 ^ places := by positivity
  set k := halfEven (v / (10 : ℚ) ^ (-places : ℤ)) with hk
  have hread := unsigned?_eq (m := k.natAbs / 10 ^ places) hp (Nat.mod_lt k.natAbs hpow)
  have hvalue : ((k.natAbs / 10 ^ places : ℕ) : ℚ) + ((k.natAbs % 10 ^ places : ℕ) : ℚ) /
      10 ^ places = |k| * (10 : ℚ) ^ (-places : ℤ) := by
    have hsplit : (k.natAbs : ℚ) = 10 ^ places * (k.natAbs / 10 ^ places : ℕ) +
        (k.natAbs % 10 ^ places : ℕ) := by
      exact_mod_cast (Nat.div_add_mod k.natAbs (10 ^ places)).symm
    have habs : ((|k| : ℤ) : ℚ) = k.natAbs := by
      rw [Int.abs_eq_natAbs, Int.cast_natCast]
    rw [habs, zpow_neg, zpow_natCast, hsplit]
    field_simp
  rw [hvalue] at hread
  unfold amount? fixed
  dsimp only
  rw [← hk, toExp, ← hk]
  by_cases hv : v < 0
  · have hneg : k ≤ 0 := by
      have h := halfEven_mono (div_nonpos_of_nonpos_of_nonneg hv.le hstep.le)
      rw [← hk, ← Int.cast_zero, halfEven_intCast] at h
      exact h
    have hlist : (if v < 0 then "-" else "").toList = ['-'] := by
      rw [if_pos hv]
      rfl
    simp only [String.toList_append, hlist, List.append_assoc, List.cons_append, List.nil_append]
    change (unsigned? ((grouped _).toList ++ '.' :: (zeroPad _ _).toList)).map _ = _
    rw [hread, Option.map_some, abs_of_nonpos hneg]
    push_cast
    rw [neg_mul, neg_neg]
  · have hnonneg : 0 ≤ k := halfEven_nonneg (div_nonneg (not_lt.mp hv) hstep.le)
    have hlist : (if v < 0 then "-" else "").toList = [] := by
      rw [if_neg hv]
      rfl
    simp only [String.toList_append, hlist, List.append_assoc, List.nil_append]
    have hsign : ∀ l, (grouped (k.natAbs / 10 ^ places)).toList ++ ".".toList ++
        (zeroPad places (k.natAbs % 10 ^ places)).toList ≠ '-' :: l := by
      intro l he
      have hmem : '-' ∈ (grouped (k.natAbs / 10 ^ places)).toList ∨ '-' = '.' := by
        cases hg : (grouped (k.natAbs / 10 ^ places)).toList with
        | nil =>
          rw [hg] at he
          exact .inr (List.cons.inj he).1.symm
        | cons c l' =>
          rw [hg] at he
          exact .inl (List.mem_cons.mpr (.inl (List.cons.inj he).1.symm))
      rcases hmem with h | h
      · exact (mem_grouped h).elim (by decide) (by decide)
      · exact absurd h (by decide)
    split
    · rename_i l heq
      rw [← List.append_assoc] at heq
      exact absurd heq (hsign l)
    · change unsigned? ((grouped _).toList ++ '.' :: (zeroPad _ _).toList) = _
      rw [hread, abs_of_nonneg hnonneg]

theorem mem_fixed {places : ℕ} {v : ℚ} {c : Char} (h : c ∈ (fixed places v).toList) :
    c ∈ ['-', ',', '.'] ∨ c.isDigit = true := by
  simp only [fixed, String.toList_append, List.mem_append] at h
  rcases h with ((h | h) | h) | h
  · split at h
    · exact .inl (List.mem_cons.mpr (.inl (List.mem_singleton.mp h)))
    · exact absurd h List.not_mem_nil
  · refine (mem_grouped h).imp_left fun he => ?_
    rw [he]
    decide
  · rw [List.mem_singleton.mp h]
    exact .inl (by decide)
  · exact .inr (isDigit_of_mem_zeroPad h)

end Text
