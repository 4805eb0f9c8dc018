import Mathlib.Tactic.LinearCombination
import MiniLox.Proofs.Numeric.Twice

/-!
# What is read as a number of 32 bits

The numbers that are rounded to 64 bits and then to 32 make up an interval around each number of
32 bits.  It ends near the middles to the next numbers: half of a step of the 64 bits beyond them
if the code is even, and as much before them if the code is odd.

The interval is symmetric unless the number is a power of two, since then the steps below the
number are finer than those above it.
-/

namespace MiniLox

namespace Numeric.Format

variable {f : Format} {c e m k : Nat} {y : ℚ}

/-! ## Middles as numbers of 64 bits -/

theorem isMultiple_of_le {exponent multiple : Nat} (hprecision : 0 < f.precision)
    (hle : 2 ^ (f.precision - 1) ≤ multiple) (hlt : multiple < 2 ^ f.precision) :
    IsMultiple f (exponent * 2 ^ (f.precision - 1) + multiple) exponent multiple :=
  ⟨rfl, units_of_multiple hprecision hle hlt, hlt, fun _ => hle⟩

theorem IsMultiple.middle_eq {exponent multiple : Nat} (hprecision : 0 < f.precision)
    (h : IsMultiple f c exponent multiple) :
    f.middle c = (2 * multiple + 1) * 2 ^ exponent / (2 * 2 ^ f.scale) := by
  rw [Format.middle_eq, h.units_succ hprecision, h.units_eq]
  push_cast
  ring

/-- The middle behind a code is a number of 64 bits with an even code, and the middles around it
are half of a step away. -/
theorem exists_double_middle (hk : 2 ^ k ≤ 2 * m + 1) (hk' : 2 * m + 1 < 2 ^ (k + 1))
    (hm : m < 2 ^ 24) (e : Nat) :
    ∃ w, w % 2 = 0 ∧ double.value w = (2 * m + 1) * 2 ^ e / 2 ^ 150 ∧
      double.middle w = (2 * m + 1 + 2 ^ k / 2 ^ 53) * 2 ^ e / 2 ^ 150 ∧
      (m ≠ 0 → ∃ before, w = before + 1 ∧
        double.middle before = (2 * m + 1 - 2 ^ k / 2 ^ 53) * 2 ^ e / 2 ^ 150) := by
  have hsmall : k < 25 := by
    apply (Nat.pow_lt_pow_iff_right (by decide : 1 < 2)).mp
    omega
  obtain ⟨s, hs⟩ : ∃ s, 2 ^ (52 - k) = 2 * s := by
    obtain ⟨j, hj⟩ : ∃ j, 52 - k = j + 1 := Nat.exists_eq_succ_of_ne_zero (by omega)
    exact ⟨2 ^ j, by rw [hj, Nat.pow_succ']⟩
  have hproduct : 2 ^ k * (2 * s) = 2 ^ 52 := by
    rw [← hs, ← Nat.pow_add]
    congr 1
    omega
  have hle : 2 ^ 52 ≤ (2 * m + 1) * (2 * s) := by
    rw [← hproduct]
    exact Nat.mul_le_mul_right _ hk
  have hlt : (2 * m + 1) * (2 * s) < 2 ^ 53 := by
    have hpositive : 0 < 2 * s := hs ▸ Nat.two_pow_pos _
    calc (2 * m + 1) * (2 * s) < 2 ^ (k + 1) * (2 * s) := Nat.mul_lt_mul_of_pos_right hk' hpositive
      _ = 2 ^ 53 := by rw [Nat.pow_succ', Nat.mul_assoc, hproduct]
  have hw : IsMultiple double ((e + 872 + k) * 2 ^ 52 + (2 * m + 1) * (2 * s)) (e + 872 + k)
      ((2 * m + 1) * (2 * s)) :=
    isMultiple_of_le (by decide) hle hlt
  have hcast : (2 ^ k * (2 * s) : ℚ) = 2 ^ 52 := by exact_mod_cast hproduct
  have hscale : (2 : ℚ) ^ double.scale = 2 ^ 52 * 2 ^ 872 * 2 ^ 150 := by
    rw [← pow_add, ← pow_add]
    rfl
  have hmiddle : ∀ {c multiple}, IsMultiple double c (e + 872 + k) multiple →
      double.middle c = (2 * multiple + 1) * 2 ^ k / 2 ^ 53 * 2 ^ e / 2 ^ 150 := by
    intro c multiple h
    rw [h.middle_eq (by decide), hscale, pow_add, pow_add]
    field_simp
  refine ⟨(e + 872 + k) * 2 ^ 52 + (2 * m + 1) * (2 * s), ?_, ?_, ?_, fun hm' => ?_⟩
  · rw [Nat.mul_left_comm]
    omega
  · have hne : (s : ℚ) ≠ 0 := by
      intro hzero
      norm_num [hzero] at hcast
    rw [hw.value_eq, hscale, pow_add, pow_add, ← hcast]
    push_cast
    field_simp
  · rw [hmiddle hw]
    congr 2
    push_cast
    linear_combination 2 * (2 * (m : ℚ) + 1) / 2 ^ 53 * hcast
  · have hodd : 2 ^ k < 2 * m + 1 := by
      refine lt_of_le_of_ne hk fun heq => ?_
      cases k with
      | zero => omega
      | succ k => rw [Nat.pow_succ'] at heq; omega
    have hle' : 2 ^ 52 ≤ (2 * m + 1) * (2 * s) - 1 := by
      have hless := Nat.mul_lt_mul_of_pos_right hodd (hs ▸ Nat.two_pow_pos _)
      rw [hproduct] at hless
      omega
    have hbefore : IsMultiple double ((e + 872 + k) * 2 ^ 52 + ((2 * m + 1) * (2 * s) - 1))
        (e + 872 + k) ((2 * m + 1) * (2 * s) - 1) :=
      isMultiple_of_le (by decide) hle' (lt_of_le_of_lt (Nat.sub_le _ _) hlt)
    refine ⟨(e + 872 + k) * 2 ^ 52 + ((2 * m + 1) * (2 * s) - 1), by omega, ?_⟩
    rw [hmiddle hbefore, Nat.cast_sub (by omega)]
    congr 2
    push_cast
    linear_combination 2 * (2 * (m : ℚ) + 1) / 2 ^ 53 * hcast

/-- What is rounded twice beyond a code. -/
theorem lt_twice_iff (h : IsMultiple single c e m) (hk : 2 ^ k ≤ 2 * m + 1)
    (hk' : 2 * m + 1 < 2 ^ (k + 1)) (hy : 0 ≤ y) :
    c < twice y ↔
      if c % 2 = 0 then (2 * m + 1 + 2 ^ k / 2 ^ 53) * 2 ^ e / 2 ^ 150 < y
      else (2 * m + 1 - 2 ^ k / 2 ^ 53) * 2 ^ e / 2 ^ 150 ≤ y := by
  obtain ⟨w, heven, hvalue, hmiddle, hbefore⟩ := exists_double_middle hk hk' h.multiple_lt e
  have hsame : single.middle c = double.value w := by
    rw [hvalue, h.middle_eq (by decide), ← pow_succ']
    rfl
  have hmono : StrictMono double.value := value_strictMono (by decide)
  rw [twice, lt_code_iff (by decide) (value_nonneg _ _), hsame, hmono.lt_iff_lt,
    hmono.injective.eq_iff]
  by_cases hc : c % 2 = 0
  · rw [if_pos hc, ← hmiddle]
    have hiff := lt_code_iff (f := double) (c := w) (by decide) hy
    simpa [hc, heven] using hiff
  · have hm : m ≠ 0 := by
      rintro rfl
      have hcode := h.code_eq
      by_cases hexponent : e = 0
      · rw [hexponent] at hcode
        omega
      · exact absurd (h.le_multiple hexponent) (by decide)
    obtain ⟨before, rfl, hbelow⟩ := hbefore hm
    have hodd : before % 2 = 1 := by omega
    have hiff := lt_code_iff (f := double) (c := before) (by decide) hy
    rw [if_neg hc, ← hbelow, le_iff_lt_or_eq]
    rw [hodd] at hiff
    simp only [and_true] at hiff
    rw [← hiff]
    omega

/-! ## Intervals -/

/-- What is rounded twice to the code is what is between `below` under its value and `above` over
it, the ends included if the code is even. -/
def ReadsWithin (c : Nat) (below above : ℚ) : Prop :=
  ∀ y, 0 ≤ y → (twice y = c ↔
    if c % 2 = 0 then single.value c - below ≤ y ∧ y ≤ single.value c + above
    else single.value c - below < y ∧ y < single.value c + above)

/-- The side of a middle on which the interval of a code ends: beyond it or before it. -/
def side (c : Nat) : ℚ := if c % 2 = 0 then 1 else -1

theorem readsWithin_of_isMultiple {b e' m' l : Nat} (hb : IsMultiple single b e' m')
    (hlow : 2 ^ l ≤ 2 * m' + 1 ∧ 2 * m' + 1 < 2 ^ (l + 1))
    (hc : IsMultiple single (b + 1) e m) (hhigh : 2 ^ k ≤ 2 * m + 1 ∧ 2 * m + 1 < 2 ^ (k + 1)) :
    ReadsWithin (b + 1)
      (single.value (b + 1) - (2 * m' + 1 - side (b + 1) * 2 ^ l / 2 ^ 53) * 2 ^ e' / 2 ^ 150)
      ((2 * m + 1 + side (b + 1) * 2 ^ k / 2 ^ 53) * 2 ^ e / 2 ^ 150 - single.value (b + 1)) := by
  intro y hy
  have hbetween : twice y = b + 1 ↔ b < twice y ∧ ¬b + 1 < twice y := by omega
  rw [hbetween, lt_twice_iff hb hlow.1 hlow.2 hy, lt_twice_iff hc hhigh.1 hhigh.2 hy,
    sub_sub_cancel, add_sub_cancel, side]
  by_cases hparity : (b + 1) % 2 = 0
  · have hodd : ¬b % 2 = 0 := by omega
    simp only [if_pos hparity, if_neg hodd, not_lt, one_mul]
  · have heven : b % 2 = 0 := by omega
    simp only [if_neg hparity, if_pos heven, not_le, neg_mul, one_mul, neg_div, sub_neg_eq_add,
      ← sub_eq_add_neg]

theorem isMultiple_of_lt (hprecision : 0 < f.precision) (hc : c < 2 ^ f.precision) :
    IsMultiple f c 0 c := by
  by_cases hle : 2 ^ (f.precision - 1) ≤ c
  · have hfull : IsMultiple f (0 * 2 ^ (f.precision - 1) + c) 0 c :=
      isMultiple_of_le hprecision hle hc
    rwa [Nat.zero_mul, Nat.zero_add] at hfull
  · refine ⟨by omega, ?_, hc, fun hne => absurd rfl hne⟩
    rw [units, if_pos (not_le.mp hle), Nat.pow_zero, Nat.mul_one]

/-- The code before one that is not the first of its binade. -/
theorem IsMultiple.pred {b : Nat} (hprecision : 0 < f.precision)
    (h : IsMultiple f (b + 1) e m) (hm : e ≠ 0 → m ≠ 2 ^ (f.precision - 1)) :
    IsMultiple f b e (m - 1) := by
  have hcode := h.code_eq
  have hlt : m - 1 < 2 ^ f.precision := lt_of_le_of_lt (Nat.sub_le _ _) h.multiple_lt
  by_cases he : e = 0
  · subst he
    rw [Nat.zero_mul, Nat.zero_add] at hcode
    subst hcode
    exact isMultiple_of_lt hprecision hlt
  · have hless : 2 ^ (f.precision - 1) < m := lt_of_le_of_ne (h.le_multiple he) (hm he).symm
    have hpositive : 0 < m := Nat.zero_lt_of_lt hless
    have hb : b = e * 2 ^ (f.precision - 1) + (m - 1) := by omega
    rw [hb]
    exact isMultiple_of_le hprecision (Nat.le_sub_one_of_lt hless) hlt

/-- Around a number that is no power of two, what is read as the number is symmetric. -/
theorem exists_readsWithin_of_ne {b : Nat} (h : IsMultiple single (b + 1) e m)
    (hm : ∀ j, m ≠ 2 ^ j) : ∃ half, ReadsWithin (b + 1) half half := by
  have hpositive : m ≠ 0 := by
    rintro rfl
    have hcode := h.code_eq
    by_cases he : e = 0
    · rw [he] at hcode
      omega
    · exact absurd (h.le_multiple he) (by decide)
  have hlow := Nat.log2_self_le hpositive
  have hhigh := Nat.lt_log2_self (n := m)
  have hne := hm m.log2
  have hpow : 2 ^ (m.log2 + 1) = 2 * 2 ^ m.log2 := Nat.pow_succ'
  have hpow' : 2 ^ (m.log2 + 1 + 1) = 2 * 2 ^ (m.log2 + 1) := Nat.pow_succ'
  have hpred := h.pred (by decide) fun _ => hm _
  have hreads := readsWithin_of_isMultiple (k := m.log2 + 1) (l := m.log2 + 1) hpred
    ⟨by omega, by omega⟩ h ⟨by omega, by omega⟩
  refine ⟨(2 * m + 1 + side (b + 1) * 2 ^ (m.log2 + 1) / 2 ^ 53) * 2 ^ e / 2 ^ 150 -
    single.value (b + 1), ?_⟩
  convert hreads using 1
  rw [h.value_eq, Nat.cast_sub (Nat.one_le_iff_ne_zero.mpr hpositive)]
  change _ - (_ : ℚ) / 2 ^ 149 = (_ : ℚ) / 2 ^ 149 - _
  push_cast
  ring

theorem abs_side (c : Nat) : |side c| = 1 := by
  rw [side]
  split <;> simp

/-- Around a power of two whose neighbours are at the same distance, what is read as the power is
symmetric but for the steps of the 64 bits. -/
theorem exists_readsWithin_of_small {j : Nat} (hj : j ≤ 23) :
    ∃ below above, ReadsWithin (2 ^ j) below above ∧ |below * 2 ^ 150 - 1| ≤ 1 / 2 ^ 29 ∧
      |above * 2 ^ 150 - 1| ≤ 1 / 2 ^ 29 := by
  have hpower : 2 ^ j ≤ 2 ^ 23 := Nat.pow_le_pow_right (by decide) hj
  obtain ⟨b, hb⟩ := Nat.exists_eq_succ_of_ne_zero (Nat.ne_of_gt (Nat.two_pow_pos j))
  have hsucc : 2 ^ (j + 1) = 2 * 2 ^ j := Nat.pow_succ'
  have hsucc' : 2 ^ (j + 1 + 1) = 2 * 2 ^ (j + 1) := Nat.pow_succ'
  have hc : IsMultiple single (b + 1) 0 (b + 1) :=
    isMultiple_of_lt (by decide) (show b + 1 < 2 ^ 24 by omega)
  have hreads := readsWithin_of_isMultiple (k := j + 1) (l := j) (hc.pred (by decide) nofun)
    ⟨by omega, by omega⟩ hc ⟨by omega, by omega⟩
  have hsmall : (2 : ℚ) ^ j / 2 ^ 53 ≤ 1 / 2 ^ 30 := by
    rw [div_le_div_iff₀ (by positivity) (by positivity), ← pow_add, one_mul]
    exact pow_le_pow_right₀ (by norm_num) (by omega)
  have hnonneg : (0 : ℚ) ≤ 2 ^ j / 2 ^ 53 := by positivity
  have hslack : ∀ t : ℚ, 0 ≤ t → |side (b + 1) * t| = t := fun t ht => by
    rw [abs_mul, abs_side, one_mul, abs_of_nonneg ht]
  rw [hb]
  have hvalue : single.value (b + 1) = (b + 1) / 2 ^ 149 := by
    rw [hc.value_eq, pow_zero, mul_one, Nat.cast_succ]
    rfl
  refine ⟨_, _, hreads, ?_, ?_⟩
  · calc _ = |side (b + 1) * (2 ^ j / 2 ^ 53)| := by
          congr 1
          rw [hvalue, Nat.add_sub_cancel]
          ring
      _ ≤ 1 / 2 ^ 29 := by
          rw [hslack _ hnonneg]
          linarith
  · calc _ = |side (b + 1) * (2 * (2 ^ j / 2 ^ 53))| := by
          congr 1
          rw [hvalue]
          push_cast
          ring
      _ ≤ 1 / 2 ^ 29 := by
          rw [hslack _ (by positivity)]
          linarith

/-- Around a power of two whose neighbour below is nearer, what is read as the power reaches half
as far below it as above. -/
theorem readsWithin_of_large {b : Nat} (h : IsMultiple single (b + 1) (e + 1) (2 ^ 23)) :
    ReadsWithin (b + 1) (single.value (b + 1) * (2 ^ 29 + 1) / 2 ^ 54)
      (single.value (b + 1) * (2 ^ 29 + 1) / 2 ^ 53) := by
  have hcode : b + 1 = (e + 1) * 2 ^ 23 + 2 ^ 23 := h.code_eq
  have hpred : IsMultiple single b e (2 ^ 24 - 1) := by
    have hb : b = e * 2 ^ 23 + (2 ^ 24 - 1) := by omega
    rw [hb]
    exact isMultiple_of_le (by decide) (by decide) (by decide)
  have hside : side (b + 1) = 1 := by
    rw [side, if_pos (by omega)]
  have hreads := readsWithin_of_isMultiple (k := 24) (l := 24) hpred ⟨by decide, by decide⟩ h
    ⟨by decide, by decide⟩
  rw [hside] at hreads
  convert hreads using 1
  · rw [h.value_eq, pow_succ]
    change (_ : ℚ) / 2 ^ 149 * _ / _ = (_ : ℚ) / 2 ^ 149 - _
    push_cast
    ring
  · rw [h.value_eq]
    change (_ : ℚ) / 2 ^ 149 * _ / _ = _ - (_ : ℚ) / 2 ^ 149
    push_cast
    ring

/-- What is read as a number is symmetric, or so up to the steps of the 64 bits, or the number is
a power of two with a nearer neighbour below. -/
theorem readsWithin_cases (hc : c ≠ 0) :
    (∃ half, ReadsWithin c half half) ∨
      (∃ below above, ReadsWithin c below above ∧ |below * 2 ^ 150 - 1| ≤ 1 / 2 ^ 29 ∧
        |above * 2 ^ 150 - 1| ≤ 1 / 2 ^ 29) ∨
      (∃ e, c = (e + 2) * 2 ^ 23 ∧ single.value c = 2 ^ e / 2 ^ 125 ∧
        ReadsWithin c (single.value c * (2 ^ 29 + 1) / 2 ^ 54)
          (single.value c * (2 ^ 29 + 1) / 2 ^ 53)) := by
  obtain ⟨b, rfl⟩ := Nat.exists_eq_succ_of_ne_zero hc
  obtain ⟨exponent, m, h⟩ := exists_isMultiple (f := single) (by decide) (b + 1)
  have hm : m < 2 ^ 24 := h.multiple_lt
  by_cases hpower : ∃ j, m = 2 ^ j
  · obtain ⟨j, rfl⟩ := hpower
    have hj : j < 24 := (Nat.pow_lt_pow_iff_right (by decide)).mp hm
    right
    cases exponent with
    | zero =>
        left
        have hcode : b + 1 = 2 ^ j := by simpa using h.code_eq
        rw [Nat.succ_eq_add_one, hcode]
        exact exists_readsWithin_of_small (by omega)
    | succ e =>
        right
        have hle : 2 ^ 23 ≤ 2 ^ j := h.le_multiple (Nat.succ_ne_zero e)
        have hj' : 23 ≤ j := (Nat.pow_le_pow_iff_right (by decide)).mp hle
        obtain rfl : j = 23 := Nat.le_antisymm (Nat.le_of_lt_succ hj) hj'
        have hcode : b + 1 = (e + 1) * 2 ^ 23 + 2 ^ 23 := h.code_eq
        have hsum : b + 1 = (e + 2) * 2 ^ 23 := by
          rw [hcode]
          ring
        refine ⟨e, hsum, ?_, readsWithin_of_large h⟩
        rw [Nat.succ_eq_add_one, h.value_eq, pow_succ]
        change (_ : ℚ) / 2 ^ 149 = _
        push_cast
        ring
  · exact Or.inl (exists_readsWithin_of_ne h fun j hj => hpower ⟨j, hj⟩)

end Numeric.Format

end MiniLox
