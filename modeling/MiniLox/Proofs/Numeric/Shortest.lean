import MiniLox.Proofs.Numeric.Displayed
import MiniLox.Proofs.Numeric.Intervals
import MiniLox.Proofs.Numeric.Significant

/-!
# Shortest texts of numbers

A program shows a number by the first of its roundings to one digit, two digits and so on that is
read as the number.  No decimal of fewer significant digits is read as the number, if what is read
as the number is symmetric around it: the rounding is nearest to the number among the decimals of
so many digits.  At a power of two the interval reaches farther above the power than below it, and
then a decimal above may be read as the power although the nearest one, below, is not.  This
happens at three powers.
-/

namespace MiniLox

open Numeric Decimal

namespace Numeric.Format

variable {c : Nat} {below above x y z : ℚ}

theorem twice_value (c : Nat) : twice (single.value c) = c := by
  refine (code_eq_of_close (value_nonneg _ _) ?_).2
  rw [sub_self, abs_zero, mul_zero]
  exact value_nonneg _ _

theorem twice_mono (hy : 0 ≤ y) (h : y ≤ z) : twice y ≤ twice z := by
  have hmono : Monotone double.value := (value_strictMono (by decide)).monotone
  exact code_mono (by decide) (value_nonneg _ _) (hmono (code_mono (by decide) hy h))

/-- If the farther of two numbers around a number is read as the number and the nearer one is not,
then half of their distance is a bound between the two ends of the interval. -/
theorem ReadsWithin.of_nearer_below (h : ReadsWithin c below above) (hy : 0 ≤ y)
    (hle : y ≤ single.value c) (hge : single.value c ≤ z) (hnearer : 2 * single.value c ≤ y + z)
    (hnot : twice y ≠ c) (hreads : twice z = c) :
    below < above ∧ below ≤ single.value c - y ∧ z - single.value c ≤ above ∧
      (c % 2 = 0 → below < single.value c - y) := by
  have hself := (h _ (value_nonneg single c)).mp (twice_value c)
  rw [Ne, h y hy] at hnot
  rw [h z (hy.trans (hle.trans hge))] at hreads
  by_cases hc : c % 2 = 0
  · simp only [if_pos hc] at hself hnot hreads
    have hfar : y < single.value c - below := by
      by_contra hin
      exact hnot ⟨not_lt.mp hin, by linarith⟩
    refine ⟨?_, ?_, ?_, fun _ => ?_⟩ <;> linarith
  · simp only [if_neg hc] at hself hnot hreads
    have hfar : y ≤ single.value c - below := by
      by_contra hin
      exact hnot ⟨not_le.mp hin, by linarith⟩
    refine ⟨?_, ?_, ?_, fun heven => absurd heven hc⟩ <;> linarith

theorem ReadsWithin.of_nearer_above (h : ReadsWithin c below above) (hy : 0 ≤ y)
    (hle : y ≤ single.value c) (hge : single.value c ≤ z) (hnearer : y + z ≤ 2 * single.value c)
    (hnot : twice z ≠ c) (hreads : twice y = c) :
    above < below ∧ above ≤ z - single.value c ∧ single.value c - y ≤ below := by
  have hself := (h _ (value_nonneg single c)).mp (twice_value c)
  rw [Ne, h z (hy.trans (hle.trans hge))] at hnot
  rw [h y hy] at hreads
  by_cases hc : c % 2 = 0
  · simp only [if_pos hc] at hself hnot hreads
    have hfar : single.value c + above < z := by
      by_contra hin
      exact hnot ⟨by linarith, not_lt.mp hin⟩
    refine ⟨?_, ?_, ?_⟩ <;> linarith
  · simp only [if_neg hc] at hself hnot hreads
    have hfar : single.value c + above ≤ z := by
      by_contra hin
      exact hnot ⟨by linarith, not_le.mp hin⟩
    refine ⟨?_, ?_, ?_⟩ <;> linarith

/-! ## Powers of ten beside powers of two -/

/-- Two to the power of minus 149 is near no power of ten. -/
theorem not_near_ten_zpow (l : ℤ) :
    ¬(2 * (1 - 1 / 2 ^ 29) ≤ (10 : ℚ) ^ l * 2 ^ 150 ∧
      (10 : ℚ) ^ l * 2 ^ 150 ≤ 2 * (1 + 1 / 2 ^ 29)) := by
  rintro ⟨hle, hge⟩
  rcases le_or_gt l (-45) with hsmall | hlarge
  · have hpower : (10 : ℚ) ^ l ≤ 10 ^ (-45 : ℤ) := zpow_le_zpow_right₀ (by norm_num) hsmall
    have hbound := mul_le_mul_of_nonneg_right hpower (show (0 : ℚ) ≤ 2 ^ 150 by positivity)
    norm_num at hle hbound
    linarith
  · have hpower : (10 : ℚ) ^ (-44 : ℤ) ≤ 10 ^ l := zpow_le_zpow_right₀ (by norm_num) (by omega)
    have hbound := mul_le_mul_of_nonneg_right hpower (show (0 : ℚ) ≤ 2 ^ 150 by positivity)
    norm_num at hge hbound
    linarith

/-- Whether the multiple of `den` below `num` is nearer to it than the one above, but farther than
the numbers reach that are read as `num`, while the one above is not, if `num` is a power of two
in units of some size. -/
def readsFromAbove (num den : Nat) : Bool :=
  let rest := num % den
  decide (num * (2 ^ 29 + 1) < rest * 2 ^ 54) && decide (2 * rest ≤ den) &&
    decide ((den - rest) * 2 ^ 53 ≤ num * (2 ^ 29 + 1))

theorem readsFromAbove_iff {num den : Nat} :
    readsFromAbove num den ↔ num * (2 ^ 29 + 1) < num % den * 2 ^ 54 ∧ 2 * (num % den) ≤ den ∧
      (den - num % den) * 2 ^ 53 ≤ num * (2 ^ 29 + 1) := by
  simp only [readsFromAbove, Bool.and_eq_true, decide_eq_true_eq, and_assoc]

/-- The multiples are then of the size of the steps between numbers of 32 bits. -/
theorem bounds_of_readsFromAbove {num den : Nat} (h : readsFromAbove num den) :
    2 ^ 22 * den ≤ num ∧ num < 2 ^ 24 * den := by
  obtain ⟨hbelow, hnearer, habove⟩ := readsFromAbove_iff.mp h
  generalize num % den = rest at *
  omega

/-- The exponents of the powers of two that are read from farther above. -/
def unevenExponents : List Nat := [29, 212, 215]

theorem mem_unevenExponents_of_log2 : ∀ j < 77, ∀ i < 3,
    readsFromAbove (2 ^ ((2 ^ 147 * 10 ^ j / 10 ^ 45).log2 + i) * 10 ^ 45) (2 ^ 125 * 10 ^ j) →
      (2 ^ 147 * 10 ^ j / 10 ^ 45).log2 + i ∈ unevenExponents := by
  decide +kernel

/-- Few powers of two are beside a multiple of a power of ten in this way. -/
theorem mem_unevenExponents {e j : Nat} (hj : j < 77)
    (h : readsFromAbove (2 ^ e * 10 ^ 45) (2 ^ 125 * 10 ^ j)) : e ∈ unevenExponents := by
  obtain ⟨hlow, hhigh⟩ := bounds_of_readsFromAbove h
  have hcheck := mem_unevenExponents_of_log2 j hj
  -- The size of the power of ten leaves three exponents.
  have hdivide := Nat.div_add_mod (2 ^ 147 * 10 ^ j) (10 ^ 45)
  have hmod := Nat.mod_lt (2 ^ 147 * 10 ^ j) (show 0 < 10 ^ 45 by decide)
  generalize 2 ^ 147 * 10 ^ j / 10 ^ 45 = a at hcheck hdivide
  have hbetween : a ≤ 2 ^ e ∧ 2 ^ e < 4 * (a + 1) := by
    generalize 10 ^ j = p at *
    generalize 2 ^ e = t at *
    omega
  have hlow : a.log2 ≤ e := by
    by_cases ha : a = 0
    · simp [ha]
    · have hlt : a < 2 ^ (e + 1) := by
        rw [Nat.pow_succ]
        omega
      exact Nat.le_of_lt_succ ((Nat.log2_lt ha).mpr hlt)
  have hhigh : e < a.log2 + 3 := by
    apply (Nat.pow_lt_pow_iff_right (by decide : 1 < 2)).mp
    have hlog := Nat.lt_log2_self (n := a)
    calc 2 ^ e < 4 * (a + 1) := hbetween.2
      _ ≤ 4 * 2 ^ (a.log2 + 1) := Nat.mul_le_mul_left 4 hlog
      _ = 2 ^ (a.log2 + 3) := by ring
  obtain ⟨i, rfl⟩ := Nat.exists_eq_add_of_le hlow
  exact hcheck i (by omega) h

/-- The codes of the powers of two that are read from farther above. -/
def unevenCodes : List Nat := unevenExponents.map fun e => (e + 2) * 2 ^ 23

variable {a e : Nat} {l : ℤ}

/-- A step of ten that is as long as the interval around a power of two has an exponent of at
most two digits. -/
theorem exponent_bounds (he : e < 253)
    (hlow : 2 ^ e / 2 ^ 125 * (2 ^ 29 + 1) / 2 ^ 53 ≤ (10 : ℚ) ^ l)
    (hhigh : (10 : ℚ) ^ l ≤ 2 ^ e / 2 ^ 125 * (2 ^ 29 + 1) / 2 ^ 52) : -45 ≤ l ∧ l < 32 := by
  constructor
  · by_contra hl
    have hpower : (10 : ℚ) ^ l ≤ 10 ^ (-46 : ℤ) := zpow_le_zpow_right₀ (by norm_num) (by omega)
    have hone : (1 : ℚ) ≤ 2 ^ e := one_le_pow₀ (by norm_num)
    have hchain := hlow.trans hpower
    norm_num at hchain
    linarith
  · by_contra hl
    have hpower : (10 : ℚ) ^ (32 : ℤ) ≤ 10 ^ l := zpow_le_zpow_right₀ (by norm_num) (by omega)
    have hgreatest : (2 : ℚ) ^ e ≤ 2 ^ 252 := pow_le_pow_right₀ (by norm_num) (by omega)
    have hchain := hpower.trans hhigh
    norm_num at hchain hgreatest
    linarith

/-- Of a number and a step, both counted in units, the multiples of the step around the number. -/
theorem readsFromAbove_of_reads {num den : Nat} {unit number step : ℚ} (hunit : 0 < unit)
    (hnumber : number = num * unit) (hstep : step = den * unit) (hle : a * step ≤ number)
    (hlt : number < (a + 1) * step) (hnearer : 2 * number ≤ a * step + (a + 1) * step)
    (hbelow : number * (2 ^ 29 + 1) / 2 ^ 54 < number - a * step)
    (habove : (a + 1) * step - number ≤ number * (2 ^ 29 + 1) / 2 ^ 53) :
    readsFromAbove num den := by
  subst hnumber hstep
  have hcancel : ∀ {p q : Nat}, (p * unit ≤ q * unit ↔ p ≤ q) := by
    intro p q
    rw [mul_le_mul_iff_left₀ hunit, Nat.cast_le]
  have hcancel' : ∀ {p q : Nat}, (p * unit < q * unit ↔ p < q) := by
    intro p q
    rw [mul_lt_mul_iff_left₀ hunit, Nat.cast_lt]
  have hmultiple : a * den ≤ num := by
    rw [← hcancel]
    push_cast
    linarith
  have hnext : num < (a + 1) * den := by
    rw [← hcancel']
    push_cast
    linarith
  obtain ⟨rest, rfl⟩ := Nat.exists_eq_add_of_le hmultiple
  have hless : rest < den := by linarith
  have hmod : (a * den + rest) % den = rest := by
    rw [Nat.mul_add_mod_self_right, Nat.mod_eq_of_lt hless]
  rw [readsFromAbove_iff, hmod, ← hcancel', ← hcancel, ← hcancel, Nat.cast_mul (den - rest),
    Nat.cast_sub hless.le]
  push_cast at *
  refine ⟨?_, ?_, ?_⟩ <;> linarith

theorem two_pow_div_eq (e : Nat) :
    (2 ^ e / 2 ^ 125 : ℚ) = (2 ^ e * 10 ^ 45 : ℕ) * (1 / (2 ^ 125 * 10 ^ 45)) := by
  rw [Nat.cast_mul, Nat.cast_pow, Nat.cast_pow, Nat.cast_ofNat, Nat.cast_ofNat]
  field_simp

theorem ten_zpow_eq {j : Nat} (hj : l + 45 = j) :
    (10 : ℚ) ^ l = (2 ^ 125 * 10 ^ j : ℕ) * (1 / (2 ^ 125 * 10 ^ 45)) := by
  have hsplit : l = (j : ℤ) - (45 : ℕ) := by omega
  rw [hsplit, zpow_sub₀ (by norm_num), zpow_natCast, zpow_natCast, Nat.cast_mul, Nat.cast_pow,
    Nat.cast_pow, Nat.cast_ofNat, Nat.cast_ofNat]
  field_simp

/-- If the multiple of a power of ten above a number is read as it, then so is the one below if it
is nearer, but for a few powers of two. -/
theorem twice_below_eq (hc : c ≠ 0) (hlimit : c < single.limit) (heven : c ∉ unevenCodes)
    (hle : a * 10 ^ l ≤ single.value c) (hlt : single.value c < (a + 1) * 10 ^ l)
    (hnearer : 2 * single.value c ≤ a * 10 ^ l + (a + 1) * 10 ^ l)
    (hreads : twice ((a + 1) * 10 ^ l) = c) : twice (a * 10 ^ l) = c := by
  by_contra hnot
  have hy : (0 : ℚ) ≤ a * 10 ^ l := by positivity
  rcases readsWithin_cases hc with
    ⟨half, h⟩ | ⟨below, above, h, hbelow, habove⟩ | ⟨e, rfl, hvalue, h⟩
  · obtain ⟨hless, -⟩ := h.of_nearer_below hy hle hlt.le hnearer hnot hreads
    exact lt_irrefl _ hless
  · obtain ⟨-, hlow, hhigh, -⟩ := h.of_nearer_below hy hle hlt.le hnearer hnot hreads
    have hlow' := abs_le.mp hbelow
    have hhigh' := abs_le.mp habove
    refine not_near_ten_zpow l ⟨?_, ?_⟩ <;> linarith
  · obtain ⟨-, -, hhigh, hlow⟩ := h.of_nearer_below hy hle hlt.le hnearer hnot hreads
    have hlow := hlow (by omega)
    have he : e < 253 := by
      have hlimit : (e + 2) * 2 ^ 23 < 255 * 2 ^ 23 := hlimit
      omega
    rw [hvalue] at hle hlt hnearer hlow hhigh
    obtain ⟨hfirst, hlast⟩ := exponent_bounds (l := l) he (by linarith) (by linarith)
    obtain ⟨j, hj⟩ := Int.eq_ofNat_of_zero_le (show 0 ≤ l + 45 by omega)
    have hunit : (0 : ℚ) < 1 / (2 ^ 125 * 10 ^ 45) := by positivity
    have hmem : e ∈ unevenExponents := by
      apply mem_unevenExponents (show j < 77 by omega)
      exact readsFromAbove_of_reads hunit (two_pow_div_eq e) (ten_zpow_eq hj) hle hlt hnearer hlow
        hhigh
    exact heven (List.mem_map.mpr ⟨e, hmem, rfl⟩)

/-- If the multiple of a power of ten below a number is read as it, then so is the one above if it
is nearer. -/
theorem twice_above_eq (hc : c ≠ 0) (hle : a * 10 ^ l ≤ single.value c)
    (hlt : single.value c < (a + 1) * 10 ^ l)
    (hnearer : a * 10 ^ l + (a + 1) * 10 ^ l ≤ 2 * single.value c)
    (hreads : twice (a * 10 ^ l) = c) : twice ((a + 1) * 10 ^ l) = c := by
  by_contra hnot
  have hy : (0 : ℚ) ≤ a * 10 ^ l := by positivity
  rcases readsWithin_cases hc with
    ⟨half, h⟩ | ⟨below, above, h, hbelow, habove⟩ | ⟨e, -, hvalue, h⟩
  · obtain ⟨hless, -⟩ := h.of_nearer_above hy hle hlt.le hnearer hnot hreads
    exact lt_irrefl _ hless
  · obtain ⟨-, hlow, hhigh⟩ := h.of_nearer_above hy hle hlt.le hnearer hnot hreads
    have hlow' := abs_le.mp hbelow
    have hhigh' := abs_le.mp habove
    refine not_near_ten_zpow l ⟨?_, ?_⟩ <;> linarith
  · obtain ⟨hless, -⟩ := h.of_nearer_above hy hle hlt.le hnearer hnot hreads
    have hpositive : (0 : ℚ) < 2 ^ e / 2 ^ 125 := by positivity
    rw [hvalue] at hless
    linarith

end Numeric.Format

/-! ## The decimals that are tried -/

namespace Magnitude

open Format

variable {m : Magnitude} {c k : Nat} {d : Decimal}

theorem units_div_eq (m : Magnitude) :
    (m.units : ℚ) / (2 ^ double.scale : ℕ) = m.value := by
  rw [cast_units, Nat.cast_pow, Nat.cast_ofNat, mul_div_cancel_right₀ _ (by positivity)]

theorem units_pos_of_value (hvalue : m.value = single.value c) (hc : c ≠ 0) : 0 < m.units := by
  apply units_pos_of_value_ne_zero
  rw [hvalue, ← value_zero single]
  exact (value_strictMono (by decide)).injective.ne hc

/-- The rounding to a number of digits has no more significant digits. -/
theorem precision_roundTo_le (hunits : 0 < m.units) (hk : 0 < k) : (m.roundTo k).precision ≤ k := by
  obtain ⟨below, hneighbours, hlow, hhigh, -, -⟩ :=
    exists_neighbours_eq hunits (Nat.two_pow_pos double.scale) hk
  have hpower : 0 < 10 ^ (k - 1) := Nat.pow_pos (by decide)
  rcases roundTo_eq_or m k with heq | heq <;> rw [heq, hneighbours] <;>
    exact precision_le (by dsimp only; omega) hk (by dsimp only; omega)

/-- The neighbours of a number among the decimals of some digits, of which the rounding is the
nearer one. -/
structure IsGrid (m : Magnitude) (x : ℚ) (k a : Nat) (l : ℤ) : Prop where
  below : (neighbours m.units (2 ^ double.scale) k).1.value = a * 10 ^ l
  above : (neighbours m.units (2 ^ double.scale) k).2.value = (a + 1) * 10 ^ l
  digits : 10 ^ (k - 1) ≤ a
  le : a * 10 ^ l ≤ x
  lt : x < (a + 1) * 10 ^ l
  nearest : ((m.roundTo k).value = a * 10 ^ l ∧ 2 * x ≤ a * 10 ^ l + (a + 1) * 10 ^ l) ∨
    ((m.roundTo k).value = (a + 1) * 10 ^ l ∧ a * 10 ^ l + (a + 1) * 10 ^ l ≤ 2 * x)

theorem exists_isGrid (hunits : 0 < m.units) (hk : 0 < k) : ∃ a l, IsGrid m m.value k a l := by
  have hscale := Nat.two_pow_pos double.scale
  obtain ⟨a, hneighbours, hdigits, -, hle, hlt⟩ := exists_neighbours_eq hunits hscale hk
  have hbelow : (neighbours m.units (2 ^ double.scale) k).1.value =
      a * 10 ^ lastExponent m.units (2 ^ double.scale) k := by
    rw [hneighbours, Decimal.value_eq]
  have habove : (neighbours m.units (2 ^ double.scale) k).2.value =
      (a + 1) * 10 ^ lastExponent m.units (2 ^ double.scale) k := by
    rw [hneighbours, Decimal.value_eq, Nat.cast_succ]
  have hnearest := roundQuotient_nearest m.units hscale k
  rw [units_div_eq] at hle hlt hnearest
  rw [← hbelow] at hle
  rw [← habove] at hlt
  refine ⟨a, _, hbelow, habove, hdigits, hbelow ▸ hle, habove ▸ hlt, ?_⟩
  rw [← hbelow, ← habove, roundTo]
  exact hnearest.imp (fun h => ⟨congrArg _ h.1, h.2⟩) fun h => ⟨congrArg _ h.1, h.2⟩

/-- If a decimal is read as a number, then so is the rounding of the number to as many digits, but
for a few powers of two. -/
theorem twice_roundTo_eq (hvalue : m.value = single.value c) (hc : c ≠ 0)
    (hlimit : c < single.limit) (heven : c ∉ unevenCodes) (hk : 0 < k) (hd : d.precision ≤ k)
    (hcoefficient : d.coefficient ≠ 0) (hreads : twice d.value = c) :
    twice (m.roundTo k).value = c := by
  have hunits := units_pos_of_value hvalue hc
  obtain ⟨a, l, hgrid⟩ := exists_isGrid hunits hk
  rw [hvalue] at hgrid
  have hbeside := le_or_le_of_precision hunits (Nat.two_pow_pos double.scale) hk hd hcoefficient
  rw [hgrid.below, hgrid.above] at hbeside
  have hread : twice (a * 10 ^ l) = c ∨ twice ((a + 1) * 10 ^ l) = c := by
    rcases hbeside with hbelow | habove
    · left
      have hlow := twice_mono (Decimal.value_nonneg d) hbelow
      have hhigh := twice_mono ((Decimal.value_nonneg d).trans hbelow) hgrid.le
      rw [twice_value] at hhigh
      exact le_antisymm hhigh (hreads ▸ hlow)
    · right
      have hlow := twice_mono (value_nonneg _ _) hgrid.lt.le
      have hhigh := twice_mono ((value_nonneg _ _).trans hgrid.lt.le) habove
      rw [twice_value] at hlow
      exact le_antisymm (hreads ▸ hhigh) hlow
  rcases hgrid.nearest with ⟨heq, hnearer⟩ | ⟨heq, hnearer⟩
  · rw [heq]
    exact hread.elim id (twice_below_eq hc hlimit heven hgrid.le hgrid.lt hnearer)
  · rw [heq]
    exact hread.elim (twice_above_eq hc hgrid.le hgrid.lt hnearer) id

/-- Nine digits are enough. -/
theorem twice_roundTo_nine (hvalue : m.value = single.value c) (hc : c ≠ 0) :
    twice (m.roundTo 9).value = c := by
  obtain ⟨a, l, hgrid⟩ := exists_isGrid (units_pos_of_value hvalue hc) (show 0 < 9 by decide)
  rw [hvalue] at hgrid
  have hdigits : (10 ^ 8 : ℚ) ≤ a := by exact_mod_cast hgrid.digits
  have hpower : (0 : ℚ) < 10 ^ l := by positivity
  have hfine : 10 ^ 8 * 10 ^ l ≤ single.value c :=
    (mul_le_mul_of_nonneg_right hdigits hpower.le).trans hgrid.le
  have hle := hgrid.le
  have hlt := hgrid.lt
  refine (code_eq_of_close (Decimal.value_nonneg _) ?_).2
  rcases hgrid.nearest with ⟨heq, hnearer⟩ | ⟨heq, hnearer⟩
  · rw [heq, abs_of_nonpos (by linarith)]
    linarith
  · rw [heq, abs_of_nonneg (by linarith)]
    linarith

/-! ## The decimal that is shown -/

theorem readsBackSingle_iff (hc : ∀ negative, Number.ofSingle negative c = .finite negative m) :
    m.readsBackSingle d ↔ twice d.value = c := by
  rw [readsBackSingle, beq_iff_eq, toSingle_toNumber, Number.ofSingle_eq_finite_iff hc]
  simp

/-- The decimal that is shown has no more digits than a rounding that is read as the number. -/
theorem exists_shortestSingle_eq (hk : 0 < k) (hk' : k ≤ 9)
    (h : m.readsBackSingle (m.roundTo k)) :
    ∃ j, 0 < j ∧ j ≤ k ∧ m.shortestSingle? = some (m.roundTo j) ∧
      m.readsBackSingle (m.roundTo j) := by
  rw [shortestSingle?, List.find?_map]
  cases hfound : (List.range 9).find? (m.readsBackSingle ∘ fun n => m.roundTo (n + 1)) with
  | none =>
      have hnot := List.find?_eq_none.mp hfound (k - 1) (List.mem_range.mpr (by omega))
      rw [Function.comp_apply, Nat.sub_add_cancel hk] at hnot
      exact absurd h hnot
  | some i =>
      obtain ⟨hreads, -, hfirst⟩ := List.find?_range_eq_some.mp hfound
      refine ⟨i + 1, Nat.succ_pos i, ?_, rfl, hreads⟩
      by_contra hlt
      have hnot := hfirst (k - 1) (by omega)
      rw [Function.comp_apply, Nat.sub_add_cancel hk, h] at hnot
      cases hnot

end Magnitude

namespace Number

open Format Magnitude

variable {n : Number} {m : Magnitude} {negative : Bool} {d : Decimal}

/-- The number of significant digits in the text of a number. -/
def shownDigits (n : Number) : Nat := (significant n.display.toList).length

theorem shownDigits_finite (hcode : m.code ≠ 0) (hd : d.coefficient ≠ 0)
    (hshown : m.shortestSingle? = some d) (negative : Bool) :
    (finite negative m).shownDigits = d.precision := by
  have hpositive : (finite false m).shownDigits = d.precision := by
    rw [shownDigits, display, if_neg hcode, hshown]
    exact congrArg List.length (significant_positional hd)
  cases negative with
  | false => exact hpositive
  | true =>
      rw [← hpositive, shownDigits, display_finite_true, shownDigits, String.toList_append]
      rfl

/-- The text of a number shows no more significant digits than any decimal that is read as the
number, but for a few powers of two. -/
theorem shownDigits_le (hsingle : (finite negative m).IsSingle) (hcode : m.code ≠ 0)
    (heven : ∀ c ∈ unevenCodes, m.value ≠ single.value c) {sign : Bool}
    (hreads : (d.toNumber sign).toSingle = finite negative m) :
    (finite negative m).shownDigits ≤ d.precision := by
  obtain ⟨c, hlimit, hvalue, hc⟩ := exists_code_of_isSingle hsingle
  rw [toSingle_toNumber, ofSingle_eq_finite_iff hc] at hreads
  have hpositive : c ≠ 0 := by
    rintro rfl
    rw [value_zero] at hvalue
    exact hcode (code_eq_zero_iff.mpr hvalue)
  have hcoefficient : d.coefficient ≠ 0 := by
    intro hzero
    have hvalue : d.value = single.value 0 := by
      rw [Decimal.value_eq, hzero, Nat.cast_zero, zero_mul, value_zero]
    rw [hvalue, twice_value] at hreads
    exact hpositive hreads.2.symm
  -- The rounding to as many digits is read as the number, or the one to nine digits.
  obtain ⟨k, hk, hnine, hprecision, hround⟩ : ∃ k, 0 < k ∧ k ≤ 9 ∧ k ≤ d.precision ∧
      twice (m.roundTo k).value = c := by
    by_cases hd : d.precision ≤ 9
    · have hk := precision_pos hcoefficient
      refine ⟨_, hk, hd, le_refl _, ?_⟩
      exact twice_roundTo_eq hvalue hpositive hlimit (fun hmem => heven c hmem hvalue) hk
        (le_refl _) hcoefficient hreads.2
    · exact ⟨9, by decide, le_refl _, by omega, twice_roundTo_nine hvalue hpositive⟩
  obtain ⟨j, hj, hle, hshown, hread⟩ :=
    exists_shortestSingle_eq hk hnine ((readsBackSingle_iff hc).mpr hround)
  have hne : (m.roundTo j).coefficient ≠ 0 :=
    coefficient_ne_zero hcode (by simpa [readsBackSingle] using hread)
  calc (finite negative m).shownDigits = (m.roundTo j).precision :=
        shownDigits_finite hcode hne hshown negative
    _ ≤ j := precision_roundTo_le (units_pos_of_value hvalue hpositive) hj
    _ ≤ d.precision := hle.trans hprecision

/-- Powers of two that are read from farther above, each with a decimal that has fewer digits than
the text that is shown. -/
def shorterDecimals : List (Magnitude × Decimal) :=
  [(⟨927 * 2 ^ 52, by decide⟩, ⟨12621775, -36⟩), (⟨1110 * 2 ^ 52, by decide⟩, ⟨15474251, 19⟩),
    (⟨1113 * 2 ^ 52, by decide⟩, ⟨12379401, 20⟩)]

theorem values_shorterDecimals :
    shorterDecimals.map (·.1.value) = [1 / 2 ^ 96, 2 ^ 87, 2 ^ 90] := by
  decide +kernel

theorem values_unevenCodes : unevenCodes.map single.value = [1 / 2 ^ 96, 2 ^ 87, 2 ^ 90] := by
  decide +kernel

theorem reads_shorterDecimals : ∀ p ∈ shorterDecimals, ∀ negative,
    (p.2.toNumber negative).toSingle = finite negative p.1 ∧
      p.2.precision < (finite negative p.1).shownDigits := by
  decide +kernel

/-- The text of a finite number is shortest among the decimals that are read as the number, except
at three powers of two. -/
theorem display_shortest_iff (hsingle : n.IsSingle) (hfinite : n.isFinite) (hzero : n.value ≠ 0) :
    (∀ (d : Decimal) (negative : Bool), (d.toNumber negative).toSingle = n →
        n.shownDigits ≤ d.precision) ↔
      |n.value| ∉ ([1 / 2 ^ 96, 2 ^ 87, 2 ^ 90] : List ℚ) := by
  cases n with
  | nan | infinity => cases hfinite
  | finite negative m =>
      have hcode : m.code ≠ 0 := by
        intro hcode
        apply hzero
        rw [← abs_eq_zero, abs_value_finite]
        exact code_eq_zero_iff.mp hcode
      rw [abs_value_finite]
      constructor
      · intro h hmem
        rw [← values_shorterDecimals] at hmem
        obtain ⟨p, hp, hvalue⟩ := List.mem_map.mp hmem
        obtain rfl : p.1 = m := eq_of_value_eq hvalue
        obtain ⟨hreads, hfewer⟩ := reads_shorterDecimals p hp negative
        exact absurd (h p.2 negative hreads) (not_le.mpr hfewer)
      · intro hmem d sign hreads
        refine shownDigits_le hsingle hcode (fun c hc heq => hmem ?_) hreads
        rw [← values_unevenCodes, heq]
        exact List.mem_map_of_mem hc

/-- Eight digits are shown of two to the power of 24, and no decimal of fewer is read as it. -/
theorem display_shortest_iff_wholeNumber :
    (ofInt 16777216).shownDigits = 8 ∧ ∀ (d : Decimal) (negative : Bool),
      (d.toNumber negative).toSingle = ofInt 16777216 →
        (ofInt 16777216).shownDigits ≤ d.precision := by
  have hvalue : (ofInt 16777216).value = 16777216 := by decide +kernel
  refine ⟨by decide +kernel, ?_⟩
  rw [display_shortest_iff (by decide +kernel) (by decide +kernel)]
  · rw [hvalue]
    norm_num
  · rw [hvalue]
    norm_num

/-- Two to the power of minus 96 is shown with nine digits, and read from eight. -/
theorem display_not_shortest :
    ¬∀ (n : Number) (d : Decimal) (negative : Bool), n.IsSingle → n.isFinite → n.value ≠ 0 →
      (d.toNumber negative).toSingle = n → n.shownDigits ≤ d.precision := by
  intro h
  have hmem : ((⟨927 * 2 ^ 52, by decide⟩, ⟨12621775, -36⟩) : Magnitude × Decimal) ∈
      shorterDecimals := List.mem_cons_self
  obtain ⟨hreads, hfewer⟩ := reads_shorterDecimals _ hmem false
  have hshown := h _ _ false (hreads ▸ isSingle_toSingle _) rfl (by decide +kernel) hreads
  exact absurd hshown (not_le.mpr hfewer)

end Number

end MiniLox
