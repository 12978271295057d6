import Fexpr.Proofs.JsonText
import Fexpr.Proofs.ShortestDigits

/-!
# Numbers in JSON

A finite number is written with digits to which it is the nearest. Reading them rounds more than
once, so another number may come out; but a number comes out for every finite one, and the same one
if the digits and the power of ten are small enough for exact arithmetic.
-/

namespace Fexpr.Json.Numeral

open Number Decimal

def significand (n : Numeral) : Nat := digitsValue (n.whole ++ n.fraction)

def power (n : Numeral) : Int := n.exponentValue - n.fraction.length

def value (n : Numeral) : ℚ := n.significand * 10 ^ n.power

structure Writes (d : Digits) (n : Numeral) : Prop where
  wellFormed : n.WellFormed
  value_eq : n.value = d.value
  significand_le : n.significand ≤ 10 ^ 17

section Layouts

variable {d : Digits} (hd : d.WellFormed) (hle : digitsValue d.chars ≤ 10 ^ 17) (negative : Bool)

include hd hle

theorem writes_below_one {e : Nat} (he : d.leading = .negSucc e) :
    Writes d ⟨negative, ['0'], Digits.zeros e ++ d.chars, none⟩ := by
  have hsignificand : digitsValue (['0'] ++ (Digits.zeros e ++ d.chars)) = digitsValue d.chars := by
    have hzero : digitsValue ['0'] = 0 := rfl
    rw [digitsValue_append, digitsValue_append, Digits.zeros, digitsValue_replicate_zero, hzero]
    omega
  refine ⟨⟨⟨by simp, rfl⟩, by simp, ?_, by simp⟩, ?_, ?_⟩
  · rw [List.all_append, Digits.all_zeros, hd.digits.2, Bool.true_and]
  · have hpower : (0 : Int) - (Digits.zeros e ++ d.chars).length =
        d.leading + 1 - d.chars.length := by
      rw [he, List.length_append, Digits.zeros, List.length_replicate]
      omega
    simp only [value, significand, hsignificand, power, exponentValue, hpower, Digits.value]
  · rw [significand, hsignificand]
    exact hle

theorem writes_split {k : Nat} (hk : 0 < k) (hk' : k ≤ d.chars.length)
    {exponent : Option (Bool × List Char)}
    (hexponent : ∀ e ∈ exponent, Fexpr.Numeral.IsDigits e.2)
    (hpower : exponentValue ⟨negative, d.chars.take k, d.chars.drop k, exponent⟩ =
      d.leading + 1 - k) :
    Writes d ⟨negative, d.chars.take k, d.chars.drop k, exponent⟩ := by
  have hall := hd.digits.2
  have hsplit := List.take_append_drop k d.chars
  rw [← hsplit, List.all_append, Bool.and_eq_true] at hall
  refine ⟨⟨⟨?_, hall.1⟩, ?_, hall.2, hexponent⟩, ?_, ?_⟩
  · intro hnil
    have hlength := congrArg List.length hnil
    rw [List.length_take, List.length_nil] at hlength
    omega
  · intro c cs hcs
    have hcs' : d.chars.take k = '0' :: c :: cs := hcs
    rw [hcs', List.cons_append] at hsplit
    exact hd.front _ hsplit.symm
  · have hlast : d.leading + 1 - k - (d.chars.drop k).length = d.leading + 1 - d.chars.length := by
      rw [List.length_drop]
      omega
    simp only [value, significand, power, hpower, hlast, hsplit, Digits.value]
  · rw [significand, hsplit]
    exact hle

omit hle in
theorem writes_whole {e : Nat} (he : d.leading = .ofNat e) (he' : e < 16)
    (hshort : d.chars.length ≤ e + 1) :
    Writes d ⟨negative, d.chars ++ Digits.zeros (e + 1 - d.chars.length), ['0'], none⟩ := by
  generalize hk : e + 1 - d.chars.length = k
  have hsignificand : digitsValue (d.chars ++ Digits.zeros k ++ ['0']) =
      digitsValue d.chars * 10 ^ (k + 1) := by
    rw [digitsValue_append, digitsValue_append, Digits.zeros, digitsValue_replicate_zero,
      List.length_replicate, show digitsValue ['0'] = 0 from rfl]
    simp only [List.length_cons, List.length_nil, pow_succ]
    ring
  obtain ⟨c, cs, hcs⟩ := List.exists_cons_of_ne_nil hd.digits.1
  refine ⟨⟨⟨?_, ?_⟩, ?_, rfl, by simp⟩, ?_, ?_⟩
  · simp [hcs]
  · simp only [List.all_append, hd.digits.2, Digits.all_zeros, Bool.and_self]
  · intro a as has
    have hfront : d.chars ++ Digits.zeros k = '0' :: a :: as := has
    rw [hcs, List.cons_append] at hfront
    injection hfront with hc _
    exact hd.front cs (by rw [hcs, hc])
  · have hpower : d.leading + 1 - d.chars.length = k := by
      rw [he]
      simp only [Int.ofNat_eq_natCast]
      omega
    have hlast : (0 : Int) - (['0'].length : Nat) = -1 := rfl
    simp only [value, significand, hsignificand, power, exponentValue, Digits.value, hpower, hlast]
    rw [zpow_natCast, zpow_neg_one, Nat.cast_mul, Nat.cast_pow, Nat.cast_ofNat, pow_succ]
    field_simp
  · rw [significand, hsignificand]
    calc
      digitsValue d.chars * 10 ^ (k + 1)
      _ ≤ 10 ^ d.chars.length * 10 ^ (k + 1) :=
        Nat.mul_le_mul_right _ (digitsValue_lt hd.digits.2).le
      _ = 10 ^ (d.chars.length + (k + 1)) := (pow_add _ _ _).symm
      _ ≤ 10 ^ 17 := Nat.pow_le_pow_right (by decide) (by omega)

theorem writes_positional (hhigh : d.leading < 16) {whole fraction : List Char}
    (h : d.positional = (whole, fraction)) :
    Writes d ⟨negative, whole, if fraction = [] then ['0'] else fraction, none⟩ := by
  cases he : d.leading with
  | negSucc e =>
    rw [Digits.positional, he] at h
    injection h with hwhole hfraction
    subst hwhole hfraction
    rw [if_neg (by simp [hd.digits.1])]
    exact writes_below_one hd hle negative he
  | ofNat e =>
    rw [Digits.positional, he] at h
    simp only at h
    have he' : e < 16 := by
      rw [he, Int.ofNat_eq_natCast] at hhigh
      omega
    split at h
    · rename_i hshort
      injection h with hwhole hfraction
      subst hwhole hfraction
      rw [if_pos rfl]
      exact writes_whole hd negative he he' hshort
    · rename_i hlong
      injection h with hwhole hfraction
      subst hwhole hfraction
      rw [if_neg (by simpa using hlong)]
      refine writes_split hd hle negative (Nat.succ_pos e) (by omega) (by simp) ?_
      rw [exponentValue, he]
      simp

end Layouts

theorem exponentValue_toDigits (negative : Bool) (whole fraction : List Char) (e : Int) :
    exponentValue ⟨negative, whole, fraction, some (decide (e < 0), Nat.toDigits 10 e.natAbs)⟩ =
      e := by
  simp only [exponentValue, digitsValue_toDigits, decide_eq_true_eq]
  split <;> omega

theorem writes_ofFinite_of_digits {r : Nat} (hpos : 0 < r) (negative : Bool) {d : Digits}
    (hshortest : Digits.shortest .even r = d) (hd : d.WellFormed)
    (hle : digitsValue d.chars ≤ 10 ^ 17) : Writes d (ofFinite negative r) := by
  rw [ofFinite, if_neg hpos.ne', hshortest]
  simp only
  split
  · rename_i hrange
    split
    · rename_i whole hpositional
      have := writes_positional hd hle negative hrange.2 hpositional
      rwa [if_pos rfl] at this
    · rename_i whole fraction hne hpositional
      have := writes_positional hd hle negative hrange.2 hpositional
      rwa [if_neg hne] at this
  · have hone : 1 ≤ d.chars.length := List.length_pos_iff.2 hd.digits.1
    refine writes_split hd hle negative one_pos hone ?_ ?_
    · intro e he
      cases he
      exact Digits.isDigits_toDigits _
    · rw [exponentValue_toDigits]
      omega

theorem ofFinite_spec (negative : Bool) {r : Nat} (hfinite : r < finiteCount) :
    (ofFinite negative r).WellFormed ∧ (ofFinite negative r).significand ≤ 10 ^ 17 ∧
      nearest (ofFinite negative r).value = r := by
  rcases Nat.eq_zero_or_pos r with rfl | hpos
  · have hzero : ofFinite negative 0 = ⟨negative, ['0'], ['0'], none⟩ := by
      rw [ofFinite, if_pos rfl]
    have hsignificand : significand ⟨negative, ['0'], ['0'], none⟩ = 0 := rfl
    rw [hzero, value, hsignificand, Nat.cast_zero, zero_mul]
    exact ⟨⟨⟨by simp, rfl⟩, by simp, rfl, by simp⟩, by decide, by decide +kernel⟩
  · obtain ⟨hd, hreads, hle⟩ := Digits.shortest_spec .even hpos hfinite
    have hwrites := writes_ofFinite_of_digits hpos negative rfl hd hle
    exact ⟨hwrites.wellFormed, hwrites.significand_le, by rw [hwrites.value_eq, hreads]⟩

theorem accumulate_eq {cs : List Char} {n : Nat}
    (h : n * 10 ^ cs.length + digitsValue cs < 2 ^ 64) :
    accumulate n cs = (n * 10 ^ cs.length + digitsValue cs, []) := by
  induction cs generalizing n with
  | nil => simp [accumulate, digitsValue]
  | cons c cs ih =>
    have hdigit : digitsValue [c] = c.toNat - '0'.toNat := by
      rw [digitsValue, Nat.ofDigitChars_cons, Nat.ofDigitChars_nil, Nat.mul_zero, Nat.zero_add]
    have hnext : n * 10 ^ (c :: cs).length + digitsValue (c :: cs) =
        (10 * n + (c.toNat - '0'.toNat)) * 10 ^ cs.length + digitsValue cs := by
      rw [digitsValue_cons, hdigit, List.length_cons, pow_succ]
      ring
    rw [hnext] at h ⊢
    have hle : 10 * n + (c.toNat - '0'.toNat) ≤
        (10 * n + (c.toNat - '0'.toNat)) * 10 ^ cs.length :=
      Nat.le_mul_of_pos_right _ (by positivity)
    rw [accumulate]
    simp only [Nat.pow_eq]
    rw [if_pos (by omega), ih h]

theorem toNumber?_eq {n : Numeral} (h : n.significand < 2 ^ 64) :
    n.toNumber? = (scaled (nearest n.significand) n.power).map (ofRank n.negative) := by
  have hsplit : n.significand = digitsValue n.whole * 10 ^ n.fraction.length +
      digitsValue n.fraction := digitsValue_append _ _
  have hwhole : accumulate 0 n.whole = (digitsValue n.whole, []) := by
    have hle : digitsValue n.whole ≤ digitsValue n.whole * 10 ^ n.fraction.length :=
      Nat.le_mul_of_pos_right _ (by positivity)
    have := @accumulate_eq n.whole 0 (by omega)
    rwa [Nat.zero_mul, Nat.zero_add] at this
  have hall : accumulate (digitsValue n.whole) n.fraction = (n.significand, []) := by
    rw [accumulate_eq (by omega), hsplit]
  have hplaces : (([] : List Char).length : Int) -
      (n.fraction.length - ([] : List Char).length : Nat) + n.exponentValue = n.power := by
    rw [power, List.length_nil]
    omega
  simp only [toNumber?, hwhole, hall, hplaces]
  rw [nearestRank_one]

theorem scaled_zero (e : Int) : scaled 0 e = some 0 := by rw [scaled, if_pos rfl]

section Scaled

variable {r : Nat} (hr : 0 < r)

include hr

theorem scaled_far {e : Int} (he : e < -308) :
    scaled r e = scaled (divRank r (powerRank 308)) (e + 308) := by
  rw [scaled, if_neg hr.ne', if_neg (by omega), if_pos he]

theorem scaled_div {e : Int} (hlow : -308 ≤ e) (hneg : e < 0) :
    scaled r e = some (divRank r (powerRank e.natAbs)) := by
  rw [scaled, if_neg hr.ne', if_neg (by omega), if_neg (by omega), if_pos hneg]

theorem scaled_mul (k : Nat) : scaled r k =
    if k ≤ 308 ∧ mulRank r (powerRank k) < finiteCount then some (mulRank r (powerRank k))
    else none := by
  rw [scaled, if_neg hr.ne']
  split
  · rw [if_neg (by omega)]
  · rw [if_neg (by omega), if_neg (by omega), Int.natAbs_natCast]
    simp only [show k ≤ 308 by omega, true_and]

end Scaled

theorem zpow_of_neg {e : Int} (he : e < 0) (x : ℚ) : x * 10 ^ e = x / 10 ^ e.natAbs := by
  rw [show e = -(e.natAbs : Int) by omega, zpow_neg, zpow_natCast, div_eq_mul_inv,
    Int.natAbs_neg, Int.natAbs_natCast]

theorem powerRank_eq_nearest (k : Nat) : powerRank k = nearest (10 ^ k) := by
  rw [powerRank, Nat.pow_eq, nearestRank_one, Nat.cast_pow, Nat.cast_ofNat]

theorem magnitude_powerRank {k : Nat} (h : k ≤ 22) : magnitude (powerRank k) = 10 ^ k := by
  have hunits : ∀ k < 23, units (powerRank k) = 10 ^ k * unitsPerOne := by decide +kernel
  rw [magnitude_of_units (hunits k (by omega)), Nat.cast_pow, Nat.cast_ofNat]

theorem powerRank_mono {k l : Nat} (h : k ≤ l) : powerRank k ≤ powerRank l := by
  rw [powerRank_eq_nearest, powerRank_eq_nearest]
  exact nearest_mono (by positivity) (pow_le_pow_right₀ (by norm_num) h)

theorem one_le_magnitude_powerRank (k : Nat) : 1 ≤ magnitude (powerRank k) := by
  have hzero := @magnitude_powerRank 0 (by decide)
  rw [← pow_zero (10 : ℚ), ← hzero]
  exact magnitude_strictMono.monotone (powerRank_mono (Nat.zero_le k))

theorem magnitude_powerRank_pos (k : Nat) : 0 < magnitude (powerRank k) :=
  one_pos.trans_le (one_le_magnitude_powerRank k)

theorem powerRank_pos (k : Nat) : 0 < powerRank k := by
  rw [← magnitude_strictMono.lt_iff_lt, magnitude_zero]
  exact magnitude_powerRank_pos k

/-- With few digits and a small power of ten, only the last step rounds. -/
theorem scaled_eq_nearest {n : Nat} {e : Int} (hn : n < 2 ^ 53) (hlow : -22 ≤ e) (hhigh : e ≤ 22)
    (hfinite : nearest (n * 10 ^ e) < finiteCount) :
    scaled (nearest n) e = some (nearest (n * 10 ^ e)) := by
  rcases Nat.eq_zero_or_pos n with rfl | hpos
  · rw [Nat.cast_zero, zero_mul, nearest_zero, scaled_zero]
  have hrank : 0 < nearest n := (close_nearest_natCast hpos).rank_pos (Nat.cast_pos.2 hpos)
  rcases lt_or_ge e 0 with hneg | hnonneg
  · rw [scaled_div hrank (by omega) hneg, divRank_eq_nearest _ (powerRank_pos _),
      magnitude_nearest_natCast hn, magnitude_powerRank (by omega), zpow_of_neg hneg]
  · obtain ⟨k, rfl⟩ := Int.eq_ofNat_of_zero_le hnonneg
    rw [zpow_natCast] at hfinite ⊢
    rw [scaled_mul hrank, mulRank_eq_nearest, magnitude_nearest_natCast hn,
      magnitude_powerRank (by omega), if_pos ⟨by omega, hfinite⟩]

theorem negative_ofFinite (negative : Bool) (r : Nat) :
    (ofFinite negative r).negative = negative := by
  simp only [ofFinite]
  split
  · rfl
  · split
    · split <;> rfl
    · rfl

def IsShort (n : Numeral) : Prop := n.significand < 2 ^ 53 ∧ -22 ≤ n.power ∧ n.power ≤ 22

instance (n : Numeral) : Decidable n.IsShort :=
  inferInstanceAs (Decidable (_ ∧ _ ∧ _))

theorem ofRank_of_lt (negative : Bool) {r : Nat} (h : r < finiteCount) :
    ofRank negative r = .finite negative ⟨r, h⟩ := by
  rw [ofRank, dif_pos h]

theorem toNumber?_ofFinite_of_isShort {negative : Bool} {r : Nat} (hfinite : r < finiteCount)
    (h : (ofFinite negative r).IsShort) :
    (ofFinite negative r).toNumber? = some (.finite negative ⟨r, hfinite⟩) := by
  obtain ⟨-, -, hreads⟩ := ofFinite_spec negative hfinite
  obtain ⟨hsmall, hlow, hhigh⟩ := h
  rw [value] at hreads
  rw [toNumber?_eq (by omega), scaled_eq_nearest hsmall hlow hhigh (by rwa [hreads]), hreads,
    Option.map_some, negative_ofFinite, ofRank_of_lt]

theorem divRank_powerRank_le (r k : Nat) : divRank r (powerRank k) ≤ r := by
  rw [divRank_eq_nearest r (powerRank_pos k)]
  calc
    nearest (magnitude r / magnitude (powerRank k)) ≤ nearest (magnitude r) :=
      nearest_mono (div_nonneg (magnitude_nonneg r) (magnitude_nonneg _))
        (div_le_self (magnitude_nonneg r) (one_le_magnitude_powerRank k))
    _ = r := nearest_magnitude r

theorem scaled_of_neg {r : Nat} {e : Int} (he : e < 0) : ∃ s ≤ r, scaled r e = some s := by
  fun_induction scaled r e with
  | case1 e => exact ⟨0, le_rfl, rfl⟩
  | case2 r e _ hlarge => omega
  | case3 r e _ _ hsmall ih =>
    obtain ⟨s, hs, heq⟩ := ih (by omega)
    exact ⟨s, hs.trans (divRank_powerRank_le r 308), heq⟩
  | case4 r e _ _ _ hneg => exact ⟨_, divRank_powerRank_le r _, rfl⟩
  | case5 => omega
  | case6 => omega

theorem mulRank_mono {r r' s s' : Nat} (hr : r ≤ r') (hs : s ≤ s') :
    mulRank r s ≤ mulRank r' s' := by
  rw [mulRank_eq_nearest, mulRank_eq_nearest]
  have hr' := magnitude_strictMono.monotone hr
  have hs' := magnitude_strictMono.monotone hs
  exact nearest_mono (mul_nonneg (magnitude_nonneg r) (magnitude_nonneg s))
    (mul_le_mul hr' hs' (magnitude_nonneg s) (magnitude_nonneg r'))

def largest : Nat := (2 ^ 53 - 1) * 2 ^ 971

theorem magnitude_last : magnitude (finiteCount - 1) = largest :=
  magnitude_of_units (by decide +kernel)

/-- Multiplication in two roundings stays finite, as long as the exact product does and the digits
are not too many. -/
theorem mulRank_powerRank_lt {n k : Nat} (hn : n ≤ 10 ^ 17) (hk : k ≤ 308)
    (hle : n * 10 ^ k ≤ largest) : mulRank (nearest n) (powerRank k) < finiteCount := by
  rcases Nat.lt_or_ge k 292 with hlt | hge
  · have htop : mulRank (nearestRank (10 ^ 17) 1) (powerRank 291) < finiteCount := by decide +kernel
    rw [nearestRank_one] at htop
    refine (mulRank_mono ?_ (powerRank_mono (by omega))).trans_lt htop
    exact nearest_mono (Nat.cast_nonneg _) (Nat.cast_le.2 hn)
  -- for the last seventeen powers, the product bounds the digits more closely
  · have htop : ∀ j < 17, mulRank (nearestRank (largest / 10 ^ (292 + j)) 1) (powerRank (292 + j)) <
        finiteCount := by decide +kernel
    have hmost := htop (k - 292) (by omega)
    rw [Nat.add_sub_cancel' hge, nearestRank_one] at hmost
    refine (mulRank_mono ?_ le_rfl).trans_lt hmost
    have hdiv : n ≤ largest / 10 ^ k := (Nat.le_div_iff_mul_le (Nat.pow_pos (by decide))).2 hle
    exact nearest_mono (Nat.cast_nonneg _) (Nat.cast_le.2 hdiv)

theorem scaled_of_nonneg {n : Nat} {e : Int} (he : 0 ≤ e) (hn : n ≤ 10 ^ 17)
    (hle : (n * 10 ^ e : ℚ) ≤ magnitude (finiteCount - 1)) :
    ∃ s < finiteCount, scaled (nearest n) e = some s := by
  obtain ⟨k, rfl⟩ := Int.eq_ofNat_of_zero_le he
  rw [magnitude_last, zpow_natCast] at hle
  have hle' : n * 10 ^ k ≤ largest := by exact_mod_cast hle
  rcases Nat.eq_zero_or_pos n with rfl | hpos
  · exact ⟨0, by decide, by rw [Nat.cast_zero, nearest_zero, scaled_zero]⟩
  have hrank : 0 < nearest n := (close_nearest_natCast hpos).rank_pos (Nat.cast_pos.2 hpos)
  have hk : k ≤ 308 := by
    by_contra hlarge
    have hlargest : largest < 10 ^ 309 := by decide +kernel
    have hpower : ∀ q ≤ k, 10 ^ q ≤ n * 10 ^ k := fun q hq =>
      (Nat.pow_le_pow_right (by decide) hq).trans (Nat.le_mul_of_pos_left _ hpos)
    exact absurd ((hpower 309 (by omega)).trans hle') hlargest.not_ge
  have hlt := mulRank_powerRank_lt hn hk hle'
  exact ⟨_, hlt, by rw [scaled_mul hrank, if_pos ⟨hk, hlt⟩]⟩

theorem value_ofFinite_le (negative : Bool) {r : Nat} (hfinite : r < finiteCount) :
    (ofFinite negative r).value ≤ magnitude (finiteCount - 1) := by
  obtain ⟨-, -, hreads⟩ := ofFinite_spec negative hfinite
  rcases Nat.lt_or_ge r (finiteCount - 1) with hlt | hge
  · by_contra hbeyond
    have hle := nearest_mono (magnitude_nonneg _) (not_le.1 hbeyond).le
    rw [nearest_magnitude, hreads] at hle
    omega
  -- The digits of the largest magnitude are below it.
  · have hlast : r = finiteCount - 1 := by omega
    have hshortest : Digits.shortest .even (finiteCount - 1) =
        ⟨['1', '7', '9', '7', '6', '9', '3', '1', '3', '4', '8', '6', '2', '3', '1', '5', '7'],
          308⟩ := by
      decide +kernel
    have hpos : 0 < r := by
      rw [hlast]
      decide +kernel
    obtain ⟨hd, -, hle⟩ := Digits.shortest_spec .even hpos hfinite
    rw [(writes_ofFinite_of_digits hpos negative rfl hd hle).value_eq, hlast, hshortest,
      magnitude_last]
    have hpower : (308 : Int) + 1 - (17 : Nat) = (292 : Nat) := rfl
    have hle : 17976931348623157 * 10 ^ 292 ≤ largest := by decide +kernel
    calc
      Digits.value _ = ((17976931348623157 : Nat) : ℚ) * 10 ^ ((308 : Int) + 1 - (17 : Nat)) := rfl
      _ = ((17976931348623157 * 10 ^ 292 : Nat) : ℚ) := by
        rw [hpower, zpow_natCast, Nat.cast_mul, Nat.cast_pow, Nat.cast_ofNat (n := 10)]
      _ ≤ largest := Nat.cast_le.2 hle

theorem close_powerRank (k : Nat) : Close 1 (10 ^ k) (magnitude (powerRank k)) := by
  have hclose := @close_nearest_natCast (10 ^ k) (Nat.pow_pos (by decide))
  rwa [Nat.cast_pow, Nat.cast_ofNat, ← powerRank_eq_nearest] at hclose

theorem close_div_powerRank {x : ℚ} {r j : Nat} (hx : 0 ≤ x) (h : Close j x (magnitude r))
    (k : Nat) : Close (j + 1) (x / 10 ^ k) (magnitude r / magnitude (powerRank k)) :=
  h.div hx (magnitude_nonneg r) (by positivity) (magnitude_powerRank_pos k) (close_powerRank k)

theorem close_of_scaled_neg {x : ℚ} {r s j : Nat} {e : Int} (hx : 0 ≤ x) (hr : 0 < r)
    (hclose : Close j x (magnitude r)) (hlow : -308 ≤ e) (hneg : e < 0) (h : scaled r e = some s) :
    ∃ y, 0 ≤ y ∧ Close (j + 1) (x * 10 ^ e) y ∧ nearest y = s := by
  rw [scaled_div hr hlow hneg, divRank_eq_nearest r (powerRank_pos _)] at h
  injection h with h
  refine ⟨_, div_nonneg (magnitude_nonneg _) (magnitude_nonneg _), ?_, h⟩
  rw [zpow_of_neg hneg]
  exact close_div_powerRank hx hclose e.natAbs

theorem midpoint_zero_mul_powerRank_le :
    midpoint 0 * 2 ^ 53 * magnitude (powerRank 308) ≤ 3 := by
  have hnat : 2 ^ 53 * units (powerRank 308) ≤ 3 * (2 * unitsPerOne * unitsPerOne) := by
    decide +kernel
  have hone := unitsPerOne_pos
  rw [midpoint_zero, magnitude]
  generalize units (powerRank 308) = p at hnat ⊢
  generalize unitsPerOne = one at hnat hone ⊢
  have hcast : (2 ^ 53 * p : ℚ) ≤ 3 * (2 * one * one) := by exact_mod_cast hnat
  calc
    (1 / (2 * one) * 2 ^ 53 * (p / one) : ℚ) = 2 ^ 53 * p / (2 * one * one) := by
      field_simp
    _ ≤ 3 := (div_le_iff₀ (by positivity)).2 hcast

theorem close_first_division {n : Nat} (hn : 0 < n) :
    Close 6 (n / 10 ^ 308) (magnitude (divRank (nearest n) (powerRank 308))) := by
  have hquot := close_div_powerRank (Nat.cast_nonneg n) (close_nearest_natCast hn) 308
  have hpos := magnitude_powerRank_pos 308
  have hleast : 1 ≤ magnitude (nearest n) := by
    have hone := @magnitude_nearest_natCast 1 (by decide)
    rw [← Nat.cast_one, ← hone]
    exact magnitude_strictMono.monotone (nearest_mono (Nat.cast_nonneg _) (Nat.cast_le.2 hn))
  rw [divRank_eq_nearest _ (powerRank_pos _)]
  refine hquot.trans (close_nearest_of_small ?_)
  rw [mul_div_assoc', le_div_iff₀ hpos]
  exact midpoint_zero_mul_powerRank_le.trans (by linarith)

theorem close_of_scaled_nonneg {x : ℚ} {r s j : Nat} {e : Int} (hx : 0 ≤ x) (hr : 0 < r)
    (hclose : Close j x (magnitude r)) (hnonneg : 0 ≤ e) (h : scaled r e = some s) :
    ∃ y, 0 ≤ y ∧ Close (j + 1) (x * 10 ^ e) y ∧ nearest y = s := by
  obtain ⟨k, rfl⟩ := Int.eq_ofNat_of_zero_le hnonneg
  rw [scaled_mul hr] at h
  split at h
  · injection h with h
    rw [mulRank_eq_nearest] at h
    refine ⟨_, mul_nonneg (magnitude_nonneg _) (magnitude_nonneg _), ?_, h⟩
    rw [zpow_natCast]
    exact hclose.mul hx (magnitude_nonneg _) (by positivity) (magnitude_nonneg _)
      (close_powerRank k)
  · cases h

/-- What is read is the rounding of a number that is a few relative errors off. -/
theorem close_of_scaled {n s : Nat} {e : Int} (hn : 0 < n) (he : -616 ≤ e)
    (h : scaled (nearest n) e = some s) : ∃ y, 0 ≤ y ∧ Close 7 (n * 10 ^ e) y ∧ nearest y = s := by
  have hnat : (0 : ℚ) ≤ n := Nat.cast_nonneg n
  have hvalue : (0 : ℚ) ≤ n * 10 ^ e := by positivity
  have hclose := close_nearest_natCast hn
  have hrank : 0 < nearest n := hclose.rank_pos (Nat.cast_pos.2 hn)
  rcases lt_or_ge e 0 with hneg | hnonneg
  · rcases lt_or_ge e (-308) with hfar | hnear
    · rw [scaled_far hrank hfar] at h
      have hfirst := close_first_division hn
      have hpos : (0 : ℚ) < n / 10 ^ 308 := div_pos (Nat.cast_pos.2 hn) (pow_pos (by norm_num) _)
      obtain ⟨y, hy, hclose', hs⟩ := close_of_scaled_neg hpos.le (hfirst.rank_pos hpos) hfirst
        (by omega) (by omega) h
      refine ⟨y, hy, ?_, hs⟩
      have hpower : (n / 10 ^ 308 * 10 ^ (e + 308) : ℚ) = n * 10 ^ e := by
        have hne : (10 : ℚ) ^ 308 ≠ 0 := pow_ne_zero _ (by norm_num)
        have hcast : (10 : ℚ) ^ (308 : Int) = 10 ^ 308 := zpow_natCast 10 308
        rw [zpow_add₀ (by norm_num), hcast, mul_left_comm, div_mul_cancel₀ _ hne, mul_comm]
      rwa [hpower] at hclose'
    · obtain ⟨y, hy, hclose', hs⟩ := close_of_scaled_neg hnat hrank hclose hnear hneg h
      exact ⟨y, hy, hclose'.mono hvalue hy (by decide), hs⟩
  · obtain ⟨y, hy, hclose', hs⟩ := close_of_scaled_nonneg hnat hrank hclose hnonneg h
    exact ⟨y, hy, hclose'.mono hvalue hy (by decide), hs⟩

theorem power_ge {n : Numeral} (hsignificand : n.significand ≤ 10 ^ 17) (h : 0 < nearest n.value) :
    -616 ≤ n.power := by
  have hten : (0 : ℚ) < 10 ^ n.power := zpow_pos (by norm_num) _
  have hnonneg : 0 ≤ n.value := mul_nonneg (Nat.cast_nonneg _) hten.le
  have hleast := midpoint_le_of_lt_nearest hnonneg h
  by_contra hsmall
  have hvalue : n.value ≤ 1 / 10 ^ 600 := by
    calc
      n.value ≤ 10 ^ 17 * 10 ^ n.power :=
        mul_le_mul_of_nonneg_right (by exact_mod_cast hsignificand) hten.le
      _ ≤ 10 ^ 17 * 10 ^ (-617 : Int) :=
        mul_le_mul_of_nonneg_left (zpow_le_zpow_right₀ (by norm_num) (by omega)) (by norm_num)
      _ = 1 / 10 ^ 600 := by
        have hcast : (10 : ℚ) ^ 17 = 10 ^ (17 : Int) := (zpow_natCast 10 17).symm
        rw [hcast, ← zpow_add₀ (by norm_num), show (17 : Int) + -617 = -(600 : Nat) from rfl,
          zpow_neg, zpow_natCast, one_div]
  have hlt : (1 : ℚ) / 10 ^ 600 < midpoint 0 := by
    have hunits : ((2 * unitsPerOne : Nat) : ℚ) < ((10 ^ 600 : Nat) : ℚ) :=
      Nat.cast_lt.2 (by decide +kernel)
    have hpos : (0 : ℚ) < ((2 * unitsPerOne : Nat) : ℚ) :=
      Nat.cast_pos.2 (Nat.mul_pos (by decide) unitsPerOne_pos)
    rw [Nat.cast_mul, Nat.cast_ofNat] at hunits hpos
    rw [Nat.cast_pow, Nat.cast_ofNat] at hunits
    rw [midpoint_zero]
    exact one_div_lt_one_div_of_lt hpos hunits
  exact absurd (hleast.trans hvalue) (not_le.2 hlt)

theorem exists_scaled_ofFinite (negative : Bool) {r : Nat} (hfinite : r < finiteCount) :
    ∃ s < finiteCount,
      scaled (nearest (ofFinite negative r).significand) (ofFinite negative r).power = some s := by
  obtain ⟨-, hsignificand, -⟩ := ofFinite_spec negative hfinite
  rcases lt_or_ge (ofFinite negative r).power 0 with hneg | hnonneg
  · obtain ⟨s, hs, heq⟩ := @scaled_of_neg (nearest (ofFinite negative r).significand) _ hneg
    refine ⟨s, hs.trans_lt ?_, heq⟩
    have htop : nearestRank (10 ^ 17) 1 < finiteCount := by decide +kernel
    rw [nearestRank_one] at htop
    exact (nearest_mono (Nat.cast_nonneg _) (Nat.cast_le.2 hsignificand)).trans_lt htop
  · have hle := value_ofFinite_le negative hfinite
    rw [value] at hle
    exact scaled_of_nonneg hnonneg hsignificand hle

/-- A number comes out for every finite one, with the same sign and a rank at most eight off. -/
theorem toNumber?_ofFinite (negative : Bool) {r : Nat} (hfinite : r < finiteCount) :
    ∃ s : Fin finiteCount, (ofFinite negative r).toNumber? = some (.finite negative s) ∧
      s ≤ r + 8 ∧ r ≤ s + 8 := by
  obtain ⟨-, hsignificand, hreads⟩ := ofFinite_spec negative hfinite
  rw [value] at hreads
  obtain ⟨s, hs, heq⟩ := exists_scaled_ofFinite negative hfinite
  refine ⟨⟨s, hs⟩, ?_, ?_⟩
  · rw [toNumber?_eq (by omega), heq, Option.map_some, negative_ofFinite, ofRank_of_lt]
  · rcases Nat.eq_zero_or_pos r with rfl | hpos
    · have hzero : (ofFinite negative 0).significand = 0 := by rw [ofFinite, if_pos rfl]; rfl
      rw [hzero, Nat.cast_zero, nearest_zero, scaled_zero] at heq
      injection heq with heq
      subst heq
      exact ⟨Nat.zero_le _, Nat.zero_le _⟩
    · have hdigits : 0 < (ofFinite negative r).significand := by
        rw [Nat.pos_iff_ne_zero]
        intro hzero
        rw [hzero, Nat.cast_zero, zero_mul, nearest_zero] at hreads
        omega
      have hpower := power_ge hsignificand (by rw [value, hreads]; exact hpos)
      obtain ⟨y, hy, hclose, rfl⟩ := close_of_scaled hdigits hpower heq
      have hvalue :
          (0 : ℚ) ≤ (ofFinite negative r).significand * 10 ^ (ofFinite negative r).power :=
        mul_nonneg (Nat.cast_nonneg _) (zpow_nonneg (by norm_num) _)
      rw [← hreads]
      exact ⟨hclose.nearest_le hvalue hy, hclose.symm.nearest_le hy hvalue⟩

end Fexpr.Json.Numeral
