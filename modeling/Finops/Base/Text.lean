import Mathlib.Data.String.Basic
import Mathlib.Data.Int.Notation
import Mathlib.Data.List.DropRight

/-!
# Numbers in text keys

A decimal numeral is digits and perhaps a minus sign, and different numbers have
different numerals.  Around a separator that none of the texts before it holds,
a text can be taken apart in one way only (`eq_of_append_cons_eq`), so a key made
of a number, a separator and a text stands for that number and that text.  Where the
texts may hold the separator themselves, two keys of three texts can only be equal when
the outer texts are nested, and then they can (`exists_joined_eq`).

`int?` reads a number from a text, and reads from a numeral the number it is of
(`int?_toString`).  `str?` and `intWithin?` are the conversions of an interpreter that
limits the digits of a number.  `parts` takes a text apart at a separator: none of the parts holds
it, and texts that do not are read back from what they are joined to (`parts_joined`).
-/

namespace Text

def zeroPad (width n : ℕ) : String := "".pushn '0' (width - (toString n).length) ++ toString n

theorem isDigit_of_mem_repr {n : ℕ} {c : Char} (h : c ∈ n.repr.toList) : c.isDigit = true := by
  rw [Nat.toList_repr] at h
  exact Nat.isDigit_of_mem_toDigits (by decide) (by decide) h

theorem natRepr_injective {m n : ℕ} (h : m.repr = n.repr) : m = n := by
  have hl := congrArg (fun s => Nat.ofDigitChars 10 s.toList 0) h
  simpa only [Nat.toList_repr, Nat.ofDigitChars_ten_toDigits] using hl

theorem toList_zeroPad (width n : ℕ) :
    (zeroPad width n).toList = List.replicate (width - n.repr.length) '0' ++ n.repr.toList := by
  have hzeros : ∀ k, ("".pushn '0' k).toList = List.replicate k '0' := by
    intro k
    rw [String.pushn_eq_repeat_push]
    induction k with
    | zero => rfl
    | succ k ih => rw [Nat.repeat, String.toList_push, ih, List.replicate_succ']
  rw [zeroPad, String.toList_append, hzeros]
  rfl

theorem length_zeroPad {width n : ℕ} (hw : 0 < width) (h : n < 10 ^ width) :
    (zeroPad width n).length = width := by
  have hle : n.repr.length ≤ width := (Nat.length_repr_le_iff hw).mpr h
  rw [← String.length_toList, toList_zeroPad, List.length_append, List.length_replicate,
    String.length_toList, Nat.sub_add_cancel hle]

theorem zeroPad_injective {width m n : ℕ} (h : zeroPad width m = zeroPad width n) : m = n := by
  have hvalue : ∀ k, Nat.ofDigitChars 10 (zeroPad width k).toList 0 = k := by
    intro k
    rw [toList_zeroPad, Nat.ofDigitChars_append, Nat.ofDigitChars_replicate_zero, Nat.mul_zero,
      Nat.toList_repr, Nat.ofDigitChars_ten_toDigits]
  rw [← hvalue m, h, hvalue]

theorem append_injective {s t u v : String} (hl : s.length = t.length ∨ u.length = v.length)
    (h : s ++ u = t ++ v) : s = t ∧ u = v := by
  have hlist := congrArg String.toList h
  rw [String.toList_append, String.toList_append] at hlist
  simp only [← String.length_toList] at hl
  obtain ⟨hs, hu⟩ : s.toList = t.toList ∧ u.toList = v.toList :=
    hl.elim (List.append_inj hlist) (List.append_inj' hlist)
  exact ⟨String.toList_injective hs, String.toList_injective hu⟩

theorem natRepr_ne_neg (m n : ℕ) : m.repr ≠ "-" ++ n.repr := by
  intro h
  have hm : '-' ∈ m.repr.toList := by
    rw [h, String.toList_append]
    exact List.mem_append_left _ (by decide)
  exact absurd (isDigit_of_mem_repr hm) (by decide)

theorem toString_injective {a b : ℤ} (h : toString a = toString b) : a = b := by
  rw [Int.toString_eq_repr, Int.toString_eq_repr, Int.repr_eq_if, Int.repr_eq_if] at h
  by_cases ha : 0 ≤ a
  · by_cases hb : 0 ≤ b
    · rw [if_pos ha, if_pos hb] at h
      have := natRepr_injective h
      omega
    · rw [if_pos ha, if_neg hb] at h
      exact absurd h (natRepr_ne_neg _ _)
  · by_cases hb : 0 ≤ b
    · rw [if_neg ha, if_pos hb] at h
      exact absurd h.symm (natRepr_ne_neg _ _)
    · rw [if_neg ha, if_neg hb] at h
      have hl := congrArg String.toList h
      rw [String.toList_append, String.toList_append] at hl
      have := natRepr_injective (String.toList_injective (List.append_cancel_left hl))
      omega

theorem notMem_toString {c : Char} (hd : c.isDigit = false) (hm : c ≠ '-') (n : ℤ) :
    c ∉ (toString n).toList := by
  have hnat : ∀ k : ℕ, c ∉ k.repr.toList := by
    intro k h
    rw [isDigit_of_mem_repr h] at hd
    cases hd
  rw [Int.toString_eq_repr, Int.repr_eq_if]
  split
  · exact hnat _
  · rw [String.toList_append, List.mem_append]
    rintro (h | h)
    · exact hm (List.mem_singleton.mp h)
    · exact hnat _ h

/-- What stands before the first separator, and what stands after it. -/
theorem eq_of_append_cons_eq {α : Type*} {c : α} {l l' m m' : List α} (hl : c ∉ l) (hl' : c ∉ l')
    (h : l ++ c :: m = l' ++ c :: m') : l = l' ∧ m = m' := by
  induction l generalizing l' with
  | nil =>
    cases l' with
    | nil => exact ⟨rfl, (List.cons.inj h).2⟩
    | cons a l' => exact absurd (List.mem_cons.mpr (.inl (List.cons.inj h).1)) hl'
  | cons a l ih =>
    cases l' with
    | nil => exact absurd (List.mem_cons.mpr (.inl (List.cons.inj h).1.symm)) hl
    | cons b l' =>
      obtain ⟨rfl, ht⟩ := List.cons.inj h
      obtain ⟨rfl, hm⟩ := ih (fun hc => hl (List.mem_cons_of_mem a hc))
        (fun hc => hl' (List.mem_cons_of_mem a hc)) ht
      exact ⟨rfl, hm⟩

theorem takeWhile_append_cons {α : Type*} [DecidableEq α] {c : α} {l m : List α} (h : c ∉ l) :
    (l ++ c :: m).takeWhile (· ≠ c) = l ∧ (l ++ c :: m).dropWhile (· ≠ c) = c :: m := by
  have hl : ∀ a ∈ l, decide (a ≠ c) = true :=
    fun a ha => decide_eq_true fun he => h (he ▸ ha)
  rw [List.takeWhile_append_of_pos hl, List.dropWhile_append_of_pos hl,
    List.takeWhile_cons_of_neg (by simp), List.dropWhile_cons_of_neg (by simp), List.append_nil]
  exact ⟨rfl, rfl⟩

theorem exists_append_cons {α : Type*} [DecidableEq α] {c : α} {l : List α} (h : c ∈ l) :
    l.takeWhile (· ≠ c) ++ c :: (l.dropWhile (· ≠ c)).tail = l ∧ c ∉ l.takeWhile (· ≠ c) := by
  obtain ⟨s, t, rfl, hs⟩ := List.eq_append_cons_of_mem h
  obtain ⟨htake, hdrop⟩ := takeWhile_append_cons (m := t) hs
  rw [htake, hdrop]
  exact ⟨rfl, hs⟩

/-- Where the texts may hold the separator, the first text is the other one or goes on
from it past a separator. -/
theorem eq_or_extends_of_append_cons {α : Type*} {c : α} {l l' m m' : List α}
    (h : l ++ c :: m = l' ++ c :: m') :
    l = l' ∨ (∃ s, l' = l ++ c :: s) ∨ ∃ s, l = l' ++ c :: s := by
  rcases List.append_eq_append_iff.mp h with ⟨s, rfl, hs⟩ | ⟨s, rfl, hs⟩
  · cases s with
    | nil => exact .inl (List.append_nil l).symm
    | cons a s =>
      obtain ⟨rfl, _⟩ := List.cons.inj hs
      exact .inr (.inl ⟨s, rfl⟩)
  · cases s with
    | nil => exact .inl (List.append_nil l')
    | cons a s =>
      obtain ⟨rfl, _⟩ := List.cons.inj hs
      exact .inr (.inr ⟨s, rfl⟩)

/-- The last text is the other one or ends in a separator and it. -/
theorem eq_or_ends_of_append_cons {α : Type*} {c : α} {l l' m m' : List α}
    (h : l ++ c :: m = l' ++ c :: m') :
    m = m' ∨ (∃ s, m' = s ++ c :: m) ∨ ∃ s, m = s ++ c :: m' := by
  have hr : m.reverse ++ c :: l.reverse = m'.reverse ++ c :: l'.reverse := by
    have := congrArg List.reverse h
    simpa using this
  rcases eq_or_extends_of_append_cons hr with he | ⟨s, he⟩ | ⟨s, he⟩
  · exact .inl (List.reverse_injective he)
  · refine .inr (.inl ⟨s.reverse, List.reverse_injective ?_⟩)
    rw [he]; simp
  · refine .inr (.inr ⟨s.reverse, List.reverse_injective ?_⟩)
    rw [he]; simp

/-- Three texts joined by a separator, where the outer ones of two such keys are nested:
some middles give the same key, and they are different unless the outer texts agree. -/
theorem exists_joined_eq {α : Type*} {c d : α} (hd : d ≠ c) {a a' b b' : List α}
    (ha : a = a' ∨ (∃ s, a' = a ++ c :: s) ∨ ∃ s, a = a' ++ c :: s)
    (hb : b = b' ∨ (∃ s, b' = s ++ c :: b) ∨ ∃ s, b = s ++ c :: b')
    (hne : ¬ (a = a' ∧ b = b')) :
    ∃ k k', k ≠ k' ∧ a ++ c :: (k ++ c :: b) = a' ++ c :: (k' ++ c :: b') := by
  -- one key has a longer first text, the other a longer last one
  have hcross : ∀ (a b s u : List α), ∃ k k', k ≠ k' ∧
      a ++ c :: (k ++ c :: (u ++ c :: b)) = (a ++ c :: s) ++ c :: (k' ++ c :: b) := by
    intro a b s u
    by_cases he : s ++ [c] = c :: u
    · refine ⟨s ++ c :: [d], [d] ++ c :: u, ?_, by simp⟩
      intro h
      have hs : s ++ c :: [d] = (c :: u) ++ [d] := by rw [← he]; simp
      rw [hs] at h
      exact hd (List.cons.inj h).1.symm
    · exact ⟨s ++ [c], c :: u, he, by simp⟩
  rcases ha with rfl | ⟨s, rfl⟩ | ⟨s, rfl⟩
  · rcases hb with rfl | ⟨u, rfl⟩ | ⟨u, rfl⟩
    · exact absurd ⟨rfl, rfl⟩ hne
    · exact ⟨c :: u, [], by simp, by simp⟩
    · exact ⟨[], c :: u, by simp, by simp⟩
  · rcases hb with rfl | ⟨u, rfl⟩ | ⟨u, rfl⟩
    · exact ⟨s ++ [c], [], by simp, by simp⟩
    · exact ⟨s ++ c :: c :: u, [], by simp, by simp⟩
    · exact hcross a b' s u
  · rcases hb with rfl | ⟨u, rfl⟩ | ⟨u, rfl⟩
    · exact ⟨[], s ++ [c], by simp, by simp⟩
    · obtain ⟨k, k', hk, h⟩ := hcross a' b s u
      exact ⟨k', k, hk.symm, h.symm⟩
    · exact ⟨[], s ++ c :: c :: u, by simp, by simp⟩

/-! ### Reading a number -/

/-- A blank of ASCII. -/
def isBlank (c : Char) : Bool := c = ' ' || (9 ≤ c.toNat && c.toNat ≤ 13)

/-- Digits after the first, where an underscore may stand before each of them. -/
def moreDigits? (n : ℕ) : List Char → Option ℕ
  | [] => some n
  | '_' :: c :: l => if c.isDigit then moreDigits? (10 * n + (c.toNat - '0'.toNat)) l else none
  | c :: l => if c.isDigit then moreDigits? (10 * n + (c.toNat - '0'.toNat)) l else none

def digits? : List Char → Option ℕ
  | [] => none
  | c :: l => if c.isDigit then moreDigits? (c.toNat - '0'.toNat) l else none

/-- A sign, which may be missing, and digits. -/
def signed? : List Char → Option ℤ
  | '-' :: l => (digits? l).map fun n => -Int.ofNat n
  | '+' :: l => (digits? l).map Int.ofNat
  | l => (digits? l).map Int.ofNat

/-- What `int()` reads in ASCII bytes: the blanks around a number do not count. -/
def int? (s : String) : Option ℤ := signed? ((s.toList.dropWhile isBlank).rdropWhile isBlank)

theorem moreDigits?_eq {l : List Char} (h : ∀ c ∈ l, c.isDigit = true) :
    ∀ n, moreDigits? n l = some (Nat.ofDigitChars 10 l n) := by
  induction l with
  | nil => intro n; rfl
  | cons c l ih =>
    intro n
    have hc := h c List.mem_cons_self
    rw [moreDigits?, if_pos hc, ih fun d hd => h d (List.mem_cons_of_mem c hd),
      Nat.ofDigitChars_cons]
    rintro d m rfl
    exact absurd hc (by decide)

theorem digits?_repr (n : ℕ) : digits? n.repr.toList = some n := by
  have hdigits : ∀ c ∈ n.repr.toList, c.isDigit = true := fun c hc => isDigit_of_mem_repr hc
  have hvalue : Nat.ofDigitChars 10 n.repr.toList 0 = n := by
    rw [Nat.toList_repr, Nat.ofDigitChars_ten_toDigits]
  cases hl : n.repr.toList with
  | nil =>
    rw [Nat.toList_repr] at hl
    exact absurd hl Nat.toDigits_ne_nil
  | cons c l =>
    rw [hl] at hdigits hvalue
    rw [digits?, if_pos (hdigits c List.mem_cons_self),
      moreDigits?_eq fun d hd => hdigits d (List.mem_cons_of_mem c hd), ← hvalue,
      Nat.ofDigitChars_cons, Nat.mul_zero, Nat.zero_add]

theorem strip_eq {l : List Char} (h : ∀ c ∈ l, isBlank c = false) :
    (l.dropWhile isBlank).rdropWhile isBlank = l := by
  have hhead : l.dropWhile isBlank = l := by
    rw [List.dropWhile_eq_self_iff]
    intro hl
    rw [h _ (List.getElem_mem hl)]
    decide
  rw [hhead, List.rdropWhile_eq_self_iff]
  intro hl
  rw [h _ (List.getLast_mem hl)]
  decide

theorem isBlank_of_isDigit {c : Char} (h : c.isDigit = true) : isBlank c = false := by
  have hrange : 48 ≤ c.toNat ∧ c.toNat ≤ 57 := by
    rw [Char.isDigit, Bool.and_eq_true] at h
    exact ⟨of_decide_eq_true h.1, of_decide_eq_true h.2⟩
  have hspace : c ≠ ' ' := by
    rintro rfl
    exact absurd h (by decide)
  rw [isBlank, decide_eq_false hspace, Bool.false_or, Bool.and_eq_false_iff]
  exact .inr (decide_eq_false (by omega))

/-- **A numeral is read back.** -/
theorem int?_toString (a : ℤ) : int? (toString a) = some a := by
  have hblank : ∀ n : ℕ, ∀ c ∈ n.repr.toList, isBlank c = false :=
    fun n c hc => isBlank_of_isDigit (isDigit_of_mem_repr hc)
  have hsign : ∀ (n : ℕ) (c : Char) (l : List Char), c.isDigit = false →
      n.repr.toList ≠ c :: l := by
    intro n c l hc he
    have hmem : c ∈ n.repr.toList := by rw [he]; exact List.mem_cons_self
    rw [isDigit_of_mem_repr hmem] at hc
    cases hc
  rw [int?, Int.toString_eq_repr, Int.repr_eq_if]
  by_cases ha : 0 ≤ a
  · rw [if_pos ha, strip_eq (hblank _), signed?, digits?_repr, Option.map_some,
      Int.ofNat_eq_natCast, Int.toNat_of_nonneg ha]
    · exact fun l => hsign _ _ l (by decide)
    · exact fun l => hsign _ _ l (by decide)
  · rw [if_neg ha, String.toList_append, strip_eq]
    · change signed? ('-' :: (-a).toNat.repr.toList) = _
      rw [signed?, digits?_repr, Option.map_some, Int.ofNat_eq_natCast]
      congr 1
      omega
    · intro c hc
      rcases List.mem_append.mp hc with hc | hc
      · rw [List.mem_singleton.mp hc]
        decide
      · exact hblank _ c hc

theorem int?_repr (n : ℕ) : int? n.repr = some (n : ℤ) := by
  rw [← int?_toString, Int.toString_eq_repr, Int.repr_eq_if, if_pos (Int.natCast_nonneg n),
    Int.toNat_natCast]

theorem int?_neg (n : ℕ) : int? ("-" ++ n.repr) = some (-(n : ℤ)) := by
  by_cases hn : n = 0
  · rw [hn]
    decide +kernel
  · have hneg : ¬ 0 ≤ -(n : ℤ) := by omega
    rw [← int?_toString, Int.toString_eq_repr, Int.repr_eq_if, if_neg hneg, Int.neg_neg,
      Int.toNat_natCast]

/-! ### A limit on the digits -/

def Short (limit : ℕ) (n : ℤ) : Prop := n.natAbs < 10 ^ limit

instance (limit : ℕ) (n : ℤ) : Decidable (Short limit n) := Nat.decLt _ _

def str? (limit : ℕ) (n : ℤ) : Option String :=
  if Short limit n then some (toString n) else none

/-- The number in a text of at most `limit` digits. -/
def intWithin? (limit : ℕ) (s : String) : Option ℤ :=
  if s.toList.countP Char.isDigit ≤ limit then int? s else none

theorem str?_of_short {limit : ℕ} {n : ℤ} (h : Short limit n) :
    str? limit n = some (toString n) := if_pos h

theorem countP_isDigit_toString (n : ℤ) :
    (toString n).toList.countP Char.isDigit = n.natAbs.repr.length := by
  have hall : ∀ k : ℕ, k.repr.toList.countP Char.isDigit = k.repr.length := fun k =>
    (List.countP_eq_length.mpr fun c hc => isDigit_of_mem_repr hc).trans String.length_toList
  rw [Int.toString_eq_repr, Int.repr_eq_if]
  by_cases hn : 0 ≤ n
  · rw [if_pos hn, hall]
    congr 2
    omega
  · rw [if_neg hn, String.toList_append, List.countP_append, hall]
    have hsign : "-".toList.countP Char.isDigit = 0 := by decide
    rw [hsign, Nat.zero_add]
    congr 2
    omega

/-- **A numeral within the limit is read back.** -/
theorem intWithin?_toString {limit : ℕ} (hlimit : 0 < limit) {n : ℤ} (h : Short limit n) :
    intWithin? limit (toString n) = some n := by
  have hle : n.natAbs.repr.length ≤ limit := (Nat.length_repr_le_iff hlimit).mpr h
  rw [intWithin?, countP_isDigit_toString, if_pos hle, int?_toString]

attribute [irreducible] Short str? intWithin?

/-! ### Texts around separators -/

def parts (c : Char) (s : String) : List String := (s.toList.splitOn c).map String.ofList

def joined (c : Char) (l : List String) : String :=
  String.ofList ([c].intercalate (l.map String.toList))

theorem notMem_of_mem_splitOn {α : Type*} [DecidableEq α] {c : α} {m : List α} :
    ∀ {l : List α}, m ∈ l.splitOn c → c ∉ m := by
  intro l
  induction l generalizing m with
  | nil =>
    intro h
    rw [List.splitOn_nil, List.mem_singleton] at h
    rw [h]
    exact List.not_mem_nil
  | cons a l ih =>
    intro h
    rw [List.splitOn_cons_eq_if_modifyHead] at h
    obtain ⟨head, tail, hl⟩ := List.exists_cons_of_ne_nil (List.splitOn_ne_nil c l)
    rw [hl] at ih h
    split at h
    · rcases List.mem_cons.mp h with rfl | h
      · exact List.not_mem_nil
      · exact ih h
    · rename_i hne
      rw [List.modifyHead_cons] at h
      rcases List.mem_cons.mp h with rfl | h
      · rw [List.mem_cons, not_or]
        exact ⟨fun he => hne (beq_iff_eq.mpr he.symm), ih List.mem_cons_self⟩
      · exact ih (List.mem_cons_of_mem head h)

theorem notMem_of_mem_parts {c : Char} {s part : String} (h : part ∈ parts c s) :
    c ∉ part.toList := by
  obtain ⟨l, hl, rfl⟩ := List.mem_map.mp h
  rw [String.toList_ofList]
  exact notMem_of_mem_splitOn hl

/-- **Texts without the separator are read back.** -/
theorem parts_joined {c : Char} {l : List String} (hne : l ≠ []) (h : ∀ s ∈ l, c ∉ s.toList) :
    parts c (joined c l) = l := by
  have hmap : ∀ m ∈ l.map String.toList, c ∉ m := by
    intro m hm
    obtain ⟨s, hs, rfl⟩ := List.mem_map.mp hm
    exact h s hs
  have hback : (l.map String.toList).map String.ofList = l := by
    rw [List.map_map]
    exact (List.map_congr_left fun s _ => String.ofList_toList).trans (List.map_id _)
  rw [parts, joined, String.toList_ofList,
    List.splitOn_intercalate c hmap (List.map_eq_nil_iff.not.mpr hne), hback]

theorem joined_singleton (c : Char) (s : String) : joined c [s] = s := by
  rw [joined, List.map_singleton, List.intercalate_singleton, String.ofList_toList]

theorem joined_cons (c : Char) (s : String) {l : List String} (h : l ≠ []) :
    joined c (s :: l) = s ++ (String.ofList [c] ++ joined c l) := by
  have hne : l.map String.toList ≠ [] := List.map_eq_nil_iff.not.mpr h
  rw [joined, List.map_cons, List.intercalate_cons_of_ne_nil hne, String.ofList_append,
    String.ofList_append, String.ofList_toList, joined, String.append_assoc]

theorem joined_append (c : Char) {l m : List String} (hl : l ≠ []) (hm : m ≠ []) :
    joined c (l ++ m) = joined c l ++ (String.ofList [c] ++ joined c m) := by
  induction l with
  | nil => exact absurd rfl hl
  | cons s l ih =>
    cases l with
    | nil => rw [List.singleton_append, joined_cons c s hm, joined_singleton]
    | cons t l =>
      rw [List.cons_append, joined_cons c s (by simp), ih (by simp), joined_cons c s (by simp),
        String.append_assoc, String.append_assoc]

theorem parts_ne_nil (c : Char) (s : String) : parts c s ≠ [] :=
  List.map_eq_nil_iff.not.mpr (List.splitOn_ne_nil c s.toList)

theorem joined_parts (c : Char) (s : String) : joined c (parts c s) = s := by
  have hlists : ((s.toList.splitOn c).map String.ofList).map String.toList =
      s.toList.splitOn c := by
    rw [List.map_map]
    exact (List.map_congr_left fun l _ => String.toList_ofList).trans (List.map_id _)
  rw [joined, parts, hlists, List.intercalate_splitOn, String.ofList_toList]

theorem mem_joined {c d : Char} {l : List String} (h : d ∈ (joined c l).toList) :
    d = c ∨ ∃ s ∈ l, d ∈ s.toList := by
  induction l with
  | nil => exact absurd h List.not_mem_nil
  | cons s l ih =>
    cases l with
    | nil =>
      rw [joined_singleton] at h
      exact .inr ⟨s, List.mem_cons_self, h⟩
    | cons t l =>
      rw [joined_cons c s (by simp), String.toList_append, String.toList_append, List.mem_append,
        List.mem_append, String.toList_ofList] at h
      rcases h with h | h | h
      · exact .inr ⟨s, List.mem_cons_self, h⟩
      · exact .inl (List.mem_singleton.mp h)
      · exact (ih h).imp_right fun ⟨u, hu, hd⟩ => ⟨u, List.mem_cons_of_mem s hu, hd⟩

theorem map_parts_joined {c d : Char} (hcd : c ≠ d) {l : List (List String)} (hne : l ≠ [])
    (h : ∀ line ∈ l, line ≠ [] ∧ ∀ word ∈ line, c ∉ word.toList ∧ d ∉ word.toList) :
    (parts c (joined c (l.map (joined d)))).map (parts d) = l := by
  have hlines : ∀ s ∈ l.map (joined d), c ∉ s.toList := by
    intro s hs hc
    obtain ⟨line, hline, rfl⟩ := List.mem_map.mp hs
    rcases mem_joined hc with he | ⟨word, hword, hc⟩
    · exact hcd he
    · exact ((h line hline).2 word hword).1 hc
  rw [parts_joined (List.map_eq_nil_iff.not.mpr hne) hlines, List.map_map]
  refine (List.map_congr_left fun line hline => ?_).trans (List.map_id l)
  exact parts_joined (h line hline).1 fun word hword => ((h line hline).2 word hword).2

end Text
