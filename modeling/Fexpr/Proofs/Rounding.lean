import Fexpr.Number.Arithmetic
import Fexpr.Number.Decimal
import Mathlib.Algebra.Order.Field.Power
import Mathlib.Data.Rat.Cast.Order
import Mathlib.Order.Monotone.Basic
import Mathlib.Tactic.FieldSimp
import Mathlib.Tactic.Linarith
import Mathlib.Tactic.Positivity
import Mathlib.Tactic.Ring

/-!
# Rounding

The magnitudes in their order, and the nearest magnitude to a rational number. Products, quotients
and decimal numerals are rounded from their exact values.
-/

namespace Fexpr.Number

theorem significand_lt (r : Nat) : significand r < 2 ^ 53 := by
  simp only [significand, Nat.pow_eq]
  split <;> omega

theorem rank_eq (r : Nat) : r = scale r * 2 ^ 52 + significand r := by
  simp only [significand, scale, Nat.pow_eq]
  split <;> omega

theorem units_grid {s m : Nat} (hm : m ≤ 2 ^ 53) (hs : s = 0 ∨ 2 ^ 52 ≤ m) :
    units (s * 2 ^ 52 + m) = m * 2 ^ s := by
  simp only [units, significand, scale, Nat.pow_eq]
  rcases Nat.lt_or_ge m (2 ^ 52) with hlow | hlow
  · obtain rfl : s = 0 := by omega
    rw [if_pos (by omega), show (0 * 2 ^ 52 + m) / 2 ^ 52 - 1 = 0 by omega, Nat.zero_mul,
      Nat.zero_add]
  · rw [if_neg (by omega)]
    rcases Nat.lt_or_eq_of_le hm with hlt | rfl
    · rw [show (s * 2 ^ 52 + m) / 2 ^ 52 - 1 = s by omega,
        show 2 ^ 52 + (s * 2 ^ 52 + m) % 2 ^ 52 = m by omega]
    · rw [show (s * 2 ^ 52 + 2 ^ 53) / 2 ^ 52 - 1 = s + 1 by omega,
        show 2 ^ 52 + (s * 2 ^ 52 + 2 ^ 53) % 2 ^ 52 = 2 ^ 52 by omega]
      ring

theorem significand_normal {r : Nat} : scale r = 0 ∨ 2 ^ 52 ≤ significand r := by
  simp only [significand, scale, Nat.pow_eq]
  split <;> omega

theorem units_succ (r : Nat) : units (r + 1) = units r + 2 ^ scale r := by
  have hlt := significand_lt r
  have hnormal := @significand_normal r
  have hnext : r + 1 = scale r * 2 ^ 52 + (significand r + 1) := by
    have := rank_eq r
    omega
  calc
    units (r + 1) = (significand r + 1) * 2 ^ scale r := by
      rw [hnext, units_grid (by omega) (by omega)]
    _ = units r + 2 ^ scale r := by
      rw [units, Nat.pow_eq]
      ring

theorem units_strictMono : StrictMono units := by
  refine strictMono_nat_of_lt_succ fun r => ?_
  rw [units_succ]
  have : 0 < 2 ^ scale r := by positivity
  omega

theorem units_succ_le (r : Nat) : units (r + 1) ≤ 2 ^ 53 * 2 ^ scale r := by
  rw [units_succ, units, Nat.pow_eq, ← Nat.succ_mul]
  exact Nat.mul_le_mul_right _ (significand_lt r)

theorem unitsPerOne_pos : 0 < unitsPerOne := by decide +kernel

theorem unitsPerOne_cast_pos : (0 : ℚ) < unitsPerOne := Nat.cast_pos.2 unitsPerOne_pos

theorem significant_bits (q : Nat) :
    q / 2 ^ (q.log2 - 52) < 2 ^ 53 ∧ (q.log2 - 52 = 0 ∨ 2 ^ 52 ≤ q / 2 ^ (q.log2 - 52)) := by
  constructor
  · rw [Nat.div_lt_iff_lt_mul (by positivity), ← pow_add]
    calc
      q < 2 ^ (q.log2 + 1) := Nat.lt_log2_self
      _ ≤ 2 ^ (53 + (q.log2 - 52)) := Nat.pow_le_pow_right (by decide) (by omega)
  · rcases Nat.eq_zero_or_pos (q.log2 - 52) with hzero | hpos
    · exact .inl hzero
    · right
      have hq : q ≠ 0 := by
        rintro rfl
        simp at hpos
      rw [Nat.le_div_iff_mul_le (by positivity), ← pow_add,
        show 52 + (q.log2 - 52) = q.log2 by omega]
      exact Nat.log2_self_le hq

/-- The rank below a fraction, and how much is left over it; half of the spacing decides. -/
theorem nearestRank_eq (num : Nat) {den : Nat} (hden : 0 < den) :
    ∃ b rest, num * unitsPerOne = units b * den + rest ∧ rest < 2 ^ scale b * den ∧
      nearestRank num den = b + if 2 ^ scale b * den < 2 * rest ∨
        (2 ^ scale b * den = 2 * rest ∧ b % 2 = 1) then 1 else 0 := by
  generalize hexact : num * unitsPerOne = exact
  generalize hq : exact / den = q
  obtain ⟨hlt, hnormal⟩ := significant_bits q
  generalize hs : q.log2 - 52 = s at hlt hnormal
  have hm : exact / (2 ^ s * den) = q / 2 ^ s := by
    rw [Nat.mul_comm, ← Nat.div_div_eq_div_mul, hq]
  have hscale : scale (s * 2 ^ 52 + q / 2 ^ s) = s := by
    simp only [scale, Nat.pow_eq]
    omega
  have hparity : (s * 2 ^ 52 + q / 2 ^ s) % 2 = q / 2 ^ s % 2 := by omega
  refine ⟨s * 2 ^ 52 + q / 2 ^ s, exact % (2 ^ s * den), ?_, ?_, ?_⟩
  · have hdiv := Nat.div_add_mod exact (2 ^ s * den)
    rw [hm] at hdiv
    calc
      exact = 2 ^ s * den * (q / 2 ^ s) + exact % (2 ^ s * den) := hdiv.symm
      _ = units (s * 2 ^ 52 + q / 2 ^ s) * den + exact % (2 ^ s * den) := by
        rw [units_grid hlt.le hnormal]
        ring
  · rw [hscale]
    exact Nat.mod_lt _ (by positivity)
  · simp only [nearestRank, hexact, hq, hs, Nat.pow_eq, hm, hscale, hparity]

theorem nearestRank_le_iff {num den r : Nat} (hden : 0 < den) :
    nearestRank num den ≤ r ↔ 2 * (num * unitsPerOne) < (units r + units (r + 1)) * den ∨
      (2 * (num * unitsPerOne) = (units r + units (r + 1)) * den ∧ r % 2 = 0) := by
  obtain ⟨b, rest, hexact, hrest, hrank⟩ := nearestRank_eq num hden
  have hnext : units (b + 1) * den = units b * den + 2 ^ scale b * den := by
    rw [units_succ, Nat.add_mul]
  rw [hrank, hexact, Nat.add_mul]
  -- only at the rank below the fraction does the half of the spacing matter
  rcases Nat.lt_trichotomy r b with hlt | rfl | hgt
  · have h₁ : units r * den < units b * den :=
      Nat.mul_lt_mul_of_pos_right (units_strictMono hlt) hden
    have h₂ : units (r + 1) * den ≤ units b * den :=
      Nat.mul_le_mul_right _ (units_strictMono.monotone hlt)
    constructor
    · intro h
      omega
    · rintro (h | h) <;> omega
  · rw [hnext]
    split <;> omega
  · have h₁ : units (b + 1) * den ≤ units r * den :=
      Nat.mul_le_mul_right _ (units_strictMono.monotone hgt)
    have h₂ : units r * den < units (r + 1) * den :=
      Nat.mul_lt_mul_of_pos_right (units_strictMono (Nat.lt_succ_self r)) hden
    constructor
    · intro _
      left
      omega
    · intro _
      split <;> omega

def magnitude (rank : Nat) : ℚ := units rank / unitsPerOne

def midpoint (rank : Nat) : ℚ := (magnitude rank + magnitude (rank + 1)) / 2

def nearest (x : ℚ) : Nat := nearestRank x.num.toNat x.den

theorem magnitude_strictMono : StrictMono magnitude := by
  intro r s h
  exact div_lt_div_of_pos_right (Nat.cast_lt.2 (units_strictMono h)) unitsPerOne_cast_pos

theorem magnitude_nonneg (r : Nat) : 0 ≤ magnitude r := by
  rw [magnitude]
  positivity

theorem magnitude_of_units {r n : Nat} (h : units r = n * unitsPerOne) : magnitude r = n := by
  rw [magnitude, h, Nat.cast_mul, mul_div_cancel_right₀ _ unitsPerOne_cast_pos.ne']

theorem lt_midpoint (r : Nat) : magnitude r < midpoint r := by
  have := magnitude_strictMono (Nat.lt_succ_self r)
  rw [midpoint]
  linarith

theorem midpoint_lt (r : Nat) : midpoint r < magnitude (r + 1) := by
  have := magnitude_strictMono (Nat.lt_succ_self r)
  rw [midpoint]
  linarith

theorem nearestRank_le_iff_midpoint {num den r : Nat} (hden : 0 < den) :
    nearestRank num den ≤ r ↔
      (num / den : ℚ) < midpoint r ∨ ((num / den : ℚ) = midpoint r ∧ r % 2 = 0) := by
  rw [nearestRank_le_iff hden, midpoint, magnitude, magnitude]
  have hone := unitsPerOne_pos
  generalize unitsPerOne = one at hone ⊢
  have hmid : ((units r / one + units (r + 1) / one) / 2 : ℚ) =
      ((units r + units (r + 1) : Nat) : ℚ) / ((2 * one : Nat) : ℚ) := by
    push_cast
    field_simp
  rw [hmid, div_lt_div_iff₀ (by positivity) (by positivity),
    div_eq_div_iff (by positivity) (by positivity)]
  norm_cast
  rw [show num * (2 * one) = 2 * (num * one) by ring]

theorem num_toNat_div_den {x : ℚ} (hx : 0 ≤ x) : (x.num.toNat : ℚ) / x.den = x := by
  have hnum : ((x.num.toNat : Int) : ℚ) = x.num := by
    rw [Int.toNat_of_nonneg (Rat.num_nonneg.2 hx)]
  rw [← Int.cast_natCast, hnum, Rat.num_div_den]

theorem nearest_le_iff {x : ℚ} (hx : 0 ≤ x) {r : Nat} :
    nearest x ≤ r ↔ x < midpoint r ∨ (x = midpoint r ∧ r % 2 = 0) := by
  rw [nearest, nearestRank_le_iff_midpoint x.den_pos, num_toNat_div_den hx]

theorem nearestRank_eq_nearest (num : Nat) {den : Nat} (hden : 0 < den) :
    nearestRank num den = nearest (num / den) := by
  refine eq_of_forall_ge_iff fun r => ?_
  rw [nearest_le_iff (by positivity), nearestRank_le_iff_midpoint hden]

theorem nearestRank_one (n : Nat) : nearestRank n 1 = nearest n := by
  rw [nearestRank_eq_nearest n one_pos, Nat.cast_one, div_one]

theorem nearest_le_of_lt {x : ℚ} (hx : 0 ≤ x) {r : Nat} (h : x < midpoint r) : nearest x ≤ r :=
  (nearest_le_iff hx).2 (.inl h)

theorem lt_nearest_of_lt {x : ℚ} {r : Nat} (h : midpoint r < x) : r < nearest x := by
  have hx : 0 ≤ x := ((magnitude_nonneg r).trans (lt_midpoint r).le).trans h.le
  rw [← Nat.not_le, nearest_le_iff hx]
  rintro (hlt | ⟨heq, -⟩)
  · exact lt_asymm h hlt
  · exact h.ne' heq

theorem nearest_mono {x y : ℚ} (hx : 0 ≤ x) (h : x ≤ y) : nearest x ≤ nearest y := by
  rw [nearest_le_iff hx]
  rcases (nearest_le_iff (hx.trans h)).1 le_rfl with hlt | ⟨heq, heven⟩
  · exact .inl (h.trans_lt hlt)
  · rcases h.lt_or_eq with hlt | rfl
    · exact .inl (hlt.trans_eq heq)
    · exact .inr ⟨heq, heven⟩

@[simp]
theorem nearest_magnitude (r : Nat) : nearest (magnitude r) = r := by
  refine le_antisymm (nearest_le_of_lt (magnitude_nonneg r) (lt_midpoint r)) ?_
  cases r with
  | zero => exact Nat.zero_le _
  | succ r => exact lt_nearest_of_lt (midpoint_lt r)

theorem magnitude_succ_le (r : Nat) :
    magnitude (r + 1) ≤ 2 ^ 53 * (magnitude (r + 1) - magnitude r) := by
  have hone := unitsPerOne_cast_pos
  have hle : ((units (r + 1) : Nat) : ℚ) ≤ 2 ^ 53 * (units (r + 1) - units r) := by
    have hunits : units (r + 1) + 2 ^ 53 * units r ≤ 2 ^ 53 * units (r + 1) := by
      have hgap := units_succ_le r
      have hsucc := units_succ r
      omega
    have hcast : ((units (r + 1) + 2 ^ 53 * units r : Nat) : ℚ) ≤
        ((2 ^ 53 * units (r + 1) : Nat) : ℚ) := by
      exact_mod_cast hunits
    push_cast at hcast
    linarith
  rw [magnitude, magnitude, div_sub_div_same, mul_div_assoc']
  exact div_le_div_of_nonneg_right hle hone.le

/-- What differs from a magnitude by less than a part in 2^54 of it is rounded to it. -/
theorem nearest_eq_of_close {r : Nat} (hr : 0 < r) {y : ℚ}
    (h : 2 ^ 54 * |y - magnitude r| < magnitude r) : nearest y = r := by
  obtain ⟨r, rfl⟩ := Nat.exists_eq_succ_of_ne_zero hr.ne'
  have habove := magnitude_succ_le (r + 1)
  have hbelow := magnitude_succ_le r
  have hlt := magnitude_strictMono (Nat.lt_succ_self (r + 1))
  have hnonneg := magnitude_nonneg r
  have hlow : midpoint r < y := by
    have := neg_abs_le (y - magnitude (r + 1))
    rw [midpoint]
    linarith
  have hhigh : y < midpoint (r + 1) := by
    have := le_abs_self (y - magnitude (r + 1))
    rw [midpoint]
    linarith
  have hy : 0 ≤ y := (hnonneg.trans (lt_midpoint r).le).trans hlow.le
  exact le_antisymm (nearest_le_of_lt hy hhigh) (lt_nearest_of_lt hlow)

theorem magnitude_zero : magnitude 0 = 0 := by
  rw [magnitude, show units 0 = 0 by decide +kernel, Nat.cast_zero, zero_div]

theorem nearest_zero : nearest 0 = 0 := by
  rw [← magnitude_zero, nearest_magnitude]

theorem magnitude_nearest_natCast {n : Nat} (h : n < 2 ^ 53) : magnitude (nearest n) = n := by
  suffices hexists : ∃ r, magnitude r = n by
    obtain ⟨r, hr⟩ := hexists
    rw [← hr, nearest_magnitude]
  rcases Nat.eq_zero_or_pos n with rfl | hpos
  · exact ⟨0, by rw [magnitude_zero, Nat.cast_zero]⟩
  -- Shifted to 53 bits, the number is a multiple of the spacing.
  have hlog : n.log2 < 53 := (Nat.log2_lt hpos.ne').2 h
  have hlow : 2 ^ 52 ≤ n * 2 ^ (52 - n.log2) := by
    calc
      2 ^ 52 = 2 ^ n.log2 * 2 ^ (52 - n.log2) := by rw [← pow_add, Nat.add_sub_cancel' (by omega)]
      _ ≤ n * 2 ^ (52 - n.log2) := Nat.mul_le_mul_right _ (Nat.log2_self_le hpos.ne')
  have hhigh : n * 2 ^ (52 - n.log2) ≤ 2 ^ 53 := by
    calc
      n * 2 ^ (52 - n.log2) ≤ 2 ^ (n.log2 + 1) * 2 ^ (52 - n.log2) :=
        Nat.mul_le_mul_right _ Nat.lt_log2_self.le
      _ = 2 ^ 53 := by rw [← pow_add, show n.log2 + 1 + (52 - n.log2) = 53 by omega]
  have hpower : 2 ^ (52 - n.log2) * 2 ^ (1022 + n.log2) = unitsPerOne := by
    rw [← pow_add, show 52 - n.log2 + (1022 + n.log2) = 1074 by omega]
    decide +kernel
  refine ⟨(1022 + n.log2) * 2 ^ 52 + n * 2 ^ (52 - n.log2), magnitude_of_units ?_⟩
  rw [units_grid hhigh (.inr hlow), Nat.mul_assoc, hpower]

theorem mulRank_eq_nearest (r s : Nat) : mulRank r s = nearest (magnitude r * magnitude s) := by
  have hone := unitsPerOne_pos
  rw [mulRank, nearestRank_eq_nearest _ (Nat.mul_pos hone hone), magnitude, magnitude,
    div_mul_div_comm, Nat.cast_mul, Nat.cast_mul]

theorem divRank_eq_nearest (r : Nat) {s : Nat} (hs : 0 < s) :
    divRank r s = nearest (magnitude r / magnitude s) := by
  have hunits : 0 < units s := (Nat.zero_le _).trans_lt (units_strictMono hs)
  rw [divRank, nearestRank_eq_nearest _ hunits, magnitude, magnitude,
    div_div_div_cancel_right₀ unitsPerOne_cast_pos.ne']

theorem magnitude_succ_sub_le (r : Nat) :
    magnitude (r + 1) - magnitude r ≤ max (magnitude r / 2 ^ 52) (magnitude 1) := by
  have hone := unitsPerOne_cast_pos
  have hgap : magnitude (r + 1) - magnitude r = (2 ^ scale r : Nat) / (unitsPerOne : ℚ) := by
    rw [magnitude, magnitude, units_succ, div_sub_div_same, Nat.cast_add, add_sub_cancel_left]
  rw [hgap]
  rcases @significand_normal r with hzero | hnormal
  · refine le_trans (le_of_eq ?_) (le_max_right _ _)
    rw [hzero, magnitude, show units 1 = 2 ^ 0 by decide +kernel]
  · refine le_trans ?_ (le_max_left _ _)
    have hunits : 2 ^ scale r * 2 ^ 52 ≤ units r := by
      rw [units, Nat.pow_eq, Nat.mul_comm]
      exact Nat.mul_le_mul_right _ hnormal
    rw [magnitude, div_right_comm]
    refine div_le_div_of_nonneg_right ?_ hone.le
    rw [le_div_iff₀ (by norm_num)]
    exact_mod_cast hunits

theorem le_midpoint_nearest {x : ℚ} (hx : 0 ≤ x) : x ≤ midpoint (nearest x) := by
  rcases (nearest_le_iff hx).1 le_rfl with hlt | ⟨heq, -⟩
  · exact hlt.le
  · exact heq.le

theorem midpoint_le_of_lt_nearest {x : ℚ} (hx : 0 ≤ x) {r : Nat} (h : r < nearest x) :
    midpoint r ≤ x := by
  by_contra hlt
  exact absurd (nearest_le_of_lt hx (not_le.1 hlt)) (Nat.not_le.2 h)

theorem abs_magnitude_nearest_sub_le {x : ℚ} (hx : 0 ≤ x) :
    |magnitude (nearest x) - x| ≤ max (x / 2 ^ 53) (midpoint 0) := by
  have hhalf : ∀ r, magnitude r ≤ x →
      (magnitude (r + 1) - magnitude r) / 2 ≤ max (x / 2 ^ 53) (midpoint 0) := by
    intro r hr
    have hzero : midpoint 0 = magnitude 1 / 2 := by rw [midpoint, magnitude_zero, zero_add]
    rw [hzero]
    rcases le_max_iff.1 (magnitude_succ_sub_le r) with hrel | habs
    · refine le_trans ?_ (le_max_left _ _)
      linarith
    · refine le_trans ?_ (le_max_right _ _)
      linarith
  rcases le_total (magnitude (nearest x)) x with hle | hle
  · have hhigh := le_midpoint_nearest hx
    have hgap := hhalf _ hle
    rw [abs_of_nonpos (sub_nonpos.2 hle)]
    rw [midpoint] at hhigh
    linarith
  · rw [abs_of_nonneg (sub_nonneg.2 hle)]
    rcases Nat.eq_zero_or_pos (nearest x) with hzero | hpos
    · have hnonneg : 0 ≤ x / 2 ^ 53 := by positivity
      rw [hzero, magnitude_zero]
      exact (by linarith : 0 - x ≤ 0).trans (le_max_of_le_left hnonneg)
    -- rounded up, the fraction lies in the gap above the rank before
    · obtain ⟨q, hq⟩ := Nat.exists_eq_succ_of_ne_zero hpos.ne'
      have hlow := midpoint_le_of_lt_nearest hx (show q < nearest x by omega)
      have hgap := hhalf q ((lt_midpoint q).le.trans hlow)
      rw [midpoint] at hlow
      rw [hq, Nat.succ_eq_add_one]
      linarith

theorem magnitude_mul_le (r k : Nat) : magnitude r * (1 + k / 2 ^ 53) ≤ magnitude (r + k) := by
  induction k with
  | zero => simp
  | succ k ih =>
    have hstep := magnitude_succ_le (r + k)
    have hmono := magnitude_strictMono.monotone (show r ≤ r + (k + 1) by omega)
    rw [← Nat.add_assoc] at hmono ⊢
    push_cast
    linarith

theorem midpoint_mul_le (r k : Nat) : midpoint r * (1 + k / 2 ^ 53) ≤ midpoint (r + k) := by
  have hfirst := magnitude_mul_le r k
  have hsecond := magnitude_mul_le (r + 1) k
  rw [show r + 1 + k = r + k + 1 by omega] at hsecond
  rw [midpoint, midpoint]
  linarith

/-- Two numbers differ by at most `k` relative errors of rounding. -/
def Close (k : Nat) (x y : ℚ) : Prop :=
  x * (1 - 1 / 2 ^ 53) ^ k ≤ y ∧ y * (1 - 1 / 2 ^ 53) ^ k ≤ x

namespace Close

variable {x y z w : ℚ} {j k : Nat}

theorem factor_pos (k : Nat) : (0 : ℚ) < (1 - 1 / 2 ^ 53) ^ k := pow_pos (by norm_num) k

theorem symm (h : Close k x y) : Close k y x := ⟨h.2, h.1⟩

theorem trans (hxy : Close j x y) (hyz : Close k y z) : Close (j + k) x z := by
  have hj := (factor_pos j).le
  have hk := (factor_pos k).le
  constructor
  · calc
      x * (1 - 1 / 2 ^ 53) ^ (j + k) = x * (1 - 1 / 2 ^ 53) ^ j * (1 - 1 / 2 ^ 53) ^ k := by
        rw [pow_add, mul_assoc]
      _ ≤ y * (1 - 1 / 2 ^ 53) ^ k := mul_le_mul_of_nonneg_right hxy.1 hk
      _ ≤ z := hyz.1
  · calc
      z * (1 - 1 / 2 ^ 53) ^ (j + k) = z * (1 - 1 / 2 ^ 53) ^ k * (1 - 1 / 2 ^ 53) ^ j := by
        rw [add_comm, pow_add, mul_assoc]
      _ ≤ y * (1 - 1 / 2 ^ 53) ^ j := mul_le_mul_of_nonneg_right hyz.2 hj
      _ ≤ x := hxy.2

theorem mul_le (hz : 0 ≤ z) (hy : 0 ≤ y) (hxy : x * (1 - 1 / 2 ^ 53) ^ j ≤ y)
    (hzw : z * (1 - 1 / 2 ^ 53) ^ k ≤ w) : x * z * (1 - 1 / 2 ^ 53) ^ (j + k) ≤ y * w := by
  calc
    x * z * (1 - 1 / 2 ^ 53) ^ (j + k) =
        x * (1 - 1 / 2 ^ 53) ^ j * (z * (1 - 1 / 2 ^ 53) ^ k) := by
      rw [pow_add]
      ring
    _ ≤ y * w := mul_le_mul hxy hzw (mul_nonneg hz (factor_pos k).le) hy

theorem mul (hx : 0 ≤ x) (hy : 0 ≤ y) (hz : 0 ≤ z) (hw : 0 ≤ w) (hxy : Close j x y)
    (hzw : Close k z w) : Close (j + k) (x * z) (y * w) :=
  ⟨mul_le hz hy hxy.1 hzw.1, mul_le hw hx hxy.2 hzw.2⟩

theorem div (hx : 0 ≤ x) (hy : 0 ≤ y) (hz : 0 < z) (hw : 0 < w) (hxy : Close j x y)
    (hzw : Close k z w) : Close (j + k) (x / z) (y / w) := by
  constructor
  · rw [div_mul_eq_mul_div, div_le_div_iff₀ hz hw, mul_right_comm]
    exact mul_le hw.le hy hxy.1 hzw.2
  · rw [div_mul_eq_mul_div, div_le_div_iff₀ hw hz, mul_right_comm]
    exact mul_le hz.le hx hxy.2 hzw.1

theorem mono (hx : 0 ≤ x) (hy : 0 ≤ y) (h : Close j x y) (hjk : j ≤ k) : Close k x y := by
  have hpow : ((1 : ℚ) - 1 / 2 ^ 53) ^ k ≤ (1 - 1 / 2 ^ 53) ^ j :=
    pow_le_pow_of_le_one (by norm_num) (by norm_num) hjk
  exact ⟨(mul_le_mul_of_nonneg_left hpow hx).trans h.1,
    (mul_le_mul_of_nonneg_left hpow hy).trans h.2⟩

theorem rank_pos {r : Nat} (hx : 0 < x) (h : Close k x (magnitude r)) : 0 < r := by
  rw [← magnitude_strictMono.lt_iff_lt, magnitude_zero]
  exact (mul_pos hx (factor_pos k)).trans_le h.1

/-- Numbers with seven relative errors between them are rounded to ranks at most eight apart. -/
theorem nearest_le (hx : 0 ≤ x) (hy : 0 ≤ y) (h : Close 7 x y) : nearest y ≤ nearest x + 8 := by
  by_contra hfar
  have hlow := midpoint_le_of_lt_nearest hy (not_le.1 hfar)
  have hhigh := le_midpoint_nearest hx
  have hmid := midpoint_mul_le (nearest x) 8
  have hpos : 0 < midpoint (nearest x) := (magnitude_nonneg _).trans_lt (lt_midpoint _)
  have hfactor : 1 < (1 + (8 : Nat) / 2 ^ 53) * ((1 : ℚ) - 1 / 2 ^ 53) ^ 7 := by norm_num
  have hbeyond : midpoint (nearest x) < y * (1 - 1 / 2 ^ 53) ^ 7 := by
    calc
      midpoint (nearest x) < midpoint (nearest x) *
          ((1 + (8 : Nat) / 2 ^ 53) * (1 - 1 / 2 ^ 53) ^ 7) := lt_mul_of_one_lt_right hpos hfactor
      _ = midpoint (nearest x) * (1 + (8 : Nat) / 2 ^ 53) * (1 - 1 / 2 ^ 53) ^ 7 := by
        rw [mul_assoc]
      _ ≤ y * (1 - 1 / 2 ^ 53) ^ 7 :=
        mul_le_mul_of_nonneg_right (hmid.trans hlow) (factor_pos 7).le
  exact absurd (hbeyond.trans_le h.2) (not_lt.2 hhigh)

end Close

theorem close_of_abs_sub_le {x y c : ℚ} {k : Nat} (hx : 0 ≤ x)
    (herror : |y - x| ≤ x * (c / 2 ^ 53)) (hlow : (1 - 1 / 2 ^ 53) ^ k ≤ 1 - c / 2 ^ 53)
    (hhigh : (1 + c / 2 ^ 53) * (1 - 1 / 2 ^ 53) ^ k ≤ 1) : Close k x y := by
  rw [abs_le] at herror
  constructor
  · calc
      x * (1 - 1 / 2 ^ 53) ^ k ≤ x * (1 - c / 2 ^ 53) := mul_le_mul_of_nonneg_left hlow hx
      _ ≤ y := by linarith
  · calc
      y * (1 - 1 / 2 ^ 53) ^ k ≤ x * (1 + c / 2 ^ 53) * (1 - 1 / 2 ^ 53) ^ k :=
        mul_le_mul_of_nonneg_right (by linarith) (Close.factor_pos k).le
      _ = x * ((1 + c / 2 ^ 53) * (1 - 1 / 2 ^ 53) ^ k) := mul_assoc _ _ _
      _ ≤ x := mul_le_of_le_one_right hx hhigh

theorem midpoint_zero : midpoint 0 = 1 / (2 * unitsPerOne) := by
  rw [midpoint, magnitude_zero, zero_add, magnitude, show units 1 = 1 by decide +kernel, div_div,
    mul_comm, Nat.cast_one]

theorem midpoint_zero_pos : 0 < midpoint 0 := (magnitude_nonneg 0).trans_lt (lt_midpoint 0)

theorem close_nearest {x : ℚ} (h : midpoint 0 * 2 ^ 53 ≤ x) :
    Close 1 x (magnitude (nearest x)) := by
  have hpos := midpoint_zero_pos
  have hx : 0 ≤ x := by linarith
  have hnormal : midpoint 0 ≤ x / 2 ^ 53 := (le_div_iff₀ (by norm_num)).2 h
  refine close_of_abs_sub_le (c := 1) hx ?_ (by norm_num) (by norm_num)
  have herror := abs_magnitude_nearest_sub_le hx
  rw [max_eq_left hnormal] at herror
  linarith

theorem close_nearest_of_small {x : ℚ} (h : midpoint 0 * 2 ^ 53 ≤ 3 * x) :
    Close 4 x (magnitude (nearest x)) := by
  have hpos := midpoint_zero_pos
  have hx : 0 ≤ x := by linarith
  have hnormal : midpoint 0 ≤ x * (3 / 2 ^ 53) := by linarith
  have hrel : x / 2 ^ 53 ≤ x * (3 / 2 ^ 53) := by linarith
  exact close_of_abs_sub_le (c := 3) hx
    ((abs_magnitude_nearest_sub_le hx).trans (max_le hrel hnormal)) (by norm_num) (by norm_num)

theorem close_nearest_natCast {n : Nat} (h : 0 < n) : Close 1 (n : ℚ) (magnitude (nearest n)) := by
  refine close_nearest ?_
  have hone : ((2 ^ 53 : Nat) : ℚ) ≤ ((2 * unitsPerOne : Nat) : ℚ) :=
    Nat.cast_le.2 (by decide +kernel)
  have hn : (1 : ℚ) ≤ n := Nat.one_le_cast.2 h
  have hpos : (0 : ℚ) < ((2 * unitsPerOne : Nat) : ℚ) :=
    Nat.cast_pos.2 (Nat.mul_pos (by decide) unitsPerOne_pos)
  push_cast at hone hpos
  rw [midpoint_zero, div_mul_eq_mul_div, one_mul]
  exact ((div_le_one hpos).2 hone).trans hn

theorem magnitude_finiteCount : magnitude finiteCount = 2 ^ 1024 := by
  have hunits : units finiteCount = 2 ^ 1024 * unitsPerOne := by decide +kernel
  rw [magnitude_of_units hunits, Nat.cast_pow, Nat.cast_ofNat]

end Fexpr.Number

namespace Fexpr.Decimal

open Number

theorem two_pow_le_ten_pow (n : Nat) : 2 ^ (3 * n) ≤ 10 ^ n := by
  rw [pow_mul]
  exact Nat.pow_le_pow_left (by decide) n

theorem two_pow_le_mul {d n k : Nat} (hd : d ≠ 0) (h : k ≤ d.log2 + 3 * n) : 2 ^ k ≤ d * 10 ^ n :=
  calc
    2 ^ k ≤ 2 ^ (d.log2 + 3 * n) := Nat.pow_le_pow_right (by decide) h
    _ = 2 ^ d.log2 * 2 ^ (3 * n) := pow_add _ _ _
    _ ≤ d * 10 ^ n := Nat.mul_le_mul (Nat.log2_self_le hd) (two_pow_le_ten_pow n)

theorem mul_two_pow_lt {d n k : Nat} (h : d.log2 + 1 + k ≤ 3 * n) : d * 2 ^ k < 10 ^ n := by
  calc
    d * 2 ^ k < 2 ^ (d.log2 + 1) * 2 ^ k :=
      Nat.mul_lt_mul_of_pos_right Nat.lt_log2_self (by positivity)
    _ = 2 ^ (d.log2 + 1 + k) := (pow_add _ _ _).symm
    _ ≤ 2 ^ (3 * n) := Nat.pow_le_pow_right (by decide) h
    _ ≤ 10 ^ n := two_pow_le_ten_pow n

/-- The shortcut for large numerals gives no finite rank to what has one. -/
theorem finiteCount_le_nearest {d n : Nat} (hd : d ≠ 0) (h : 1024 ≤ d.log2 + 3 * n) :
    finiteCount ≤ nearest ((d * 10 ^ n : Nat) : ℚ) := by
  have hle := two_pow_le_mul hd h
  calc
    finiteCount = nearest (magnitude finiteCount) := (nearest_magnitude _).symm
    _ ≤ nearest ((d * 10 ^ n : Nat) : ℚ) := by
      refine nearest_mono (magnitude_nonneg _) ?_
      rw [magnitude_finiteCount]
      exact_mod_cast hle

theorem nearestRank_eq_zero {d n : Nat} (h : d.log2 + 1077 ≤ 3 * n) :
    nearestRank d (10 ^ n) = 0 := by
  rw [← Nat.le_zero, nearestRank_le_iff (by positivity),
    show units 0 + units 1 = 1 by decide +kernel]
  left
  have hlt : d * 2 ^ 1076 < 10 ^ n := mul_two_pow_lt (by omega)
  have hone : 4 * unitsPerOne = 2 ^ 1076 := by decide +kernel
  rw [← hone] at hlt
  generalize unitsPerOne = one at hlt ⊢
  have hmul : d * (4 * one) = 2 * (2 * (d * one)) := by ring
  omega

/-- Up to which rank is given to what is not finite, a numeral gets the nearest one. -/
theorem min_rank (d : Nat) (e : Int) :
    min finiteCount (rank d e) = min finiteCount (nearest (d * 10 ^ e)) := by
  rcases Nat.eq_zero_or_pos d with rfl | hd
  · have hzero : nearest 0 = 0 := by decide +kernel
    rw [Nat.cast_zero, zero_mul, hzero]
    cases e <;> rfl
  cases e with
  | ofNat n =>
    have hvalue : (d * 10 ^ Int.ofNat n : ℚ) = ((d * 10 ^ n : Nat) : ℚ) := by
      push_cast
      rfl
    rw [rank, if_neg hd.ne', hvalue]
    split
    · rename_i h
      rw [min_eq_left (finiteCount_le_nearest hd.ne' h), min_self]
    · rw [Nat.pow_eq, nearestRank_one]
  | negSucc n =>
    have hvalue : (d * 10 ^ Int.negSucc n : ℚ) = d / ((10 ^ (n + 1) : Nat) : ℚ) := by
      rw [zpow_negSucc, div_eq_mul_inv]
      push_cast
      rfl
    rw [rank, if_neg hd.ne', hvalue, ← nearestRank_eq_nearest _ (by positivity)]
    split
    · rename_i h
      rw [nearestRank_eq_zero h]
    · rw [Nat.pow_eq]

theorem rank_eq_iff {d : Nat} {e : Int} {r : Nat} (hr : r < finiteCount) :
    rank d e = r ↔ nearest (d * 10 ^ e) = r := by
  have := min_rank d e
  omega

end Fexpr.Decimal
