import Fexpr.Number.Shortest
import Fexpr.Proofs.Numerals
import Fexpr.Proofs.Rounding
import Mathlib.Data.Nat.Cast.Order.Field

/-!
# Shortest digits

The shortest digits of a positive magnitude read back as it. Seventeen of them are always enough: a
grid of seventeen digits is finer than the magnitudes.
-/

namespace Fexpr

namespace Decimal

theorem digitsValue_append (cs ds : List Char) :
    digitsValue (cs ++ ds) = digitsValue cs * 10 ^ ds.length + digitsValue ds := by
  rw [digitsValue, digitsValue, digitsValue, Nat.ofDigitChars_append,
    Nat.ofDigitChars_eq_ofDigitChars_zero, Nat.mul_comm]

theorem digitsValue_cons (c : Char) (cs : List Char) :
    digitsValue (c :: cs) = digitsValue [c] * 10 ^ cs.length + digitsValue cs :=
  digitsValue_append [c] cs

theorem digitsValue_replicate_zero (n : Nat) : digitsValue (List.replicate n '0') = 0 := by
  rw [digitsValue, Nat.ofDigitChars_replicate_zero, Nat.mul_zero]

theorem digitsValue_toDigits (n : Nat) : digitsValue (Nat.toDigits 10 n) = n :=
  Nat.ofDigitChars_ten_toDigits

theorem digitsValue_lt {cs : List Char} (h : cs.all Char.isDigit) :
    digitsValue cs < 10 ^ cs.length := by
  induction cs with
  | nil => decide
  | cons c cs ih =>
    rw [List.all_cons, Bool.and_eq_true] at h
    have hc : digitsValue [c] ≤ 9 := by
      have hle : c.toNat ≤ '9'.toNat := of_decide_eq_true (Bool.and_eq_true_iff.1 h.1).2
      rw [digitsValue, Nat.ofDigitChars_cons, Nat.ofDigitChars_nil, Nat.mul_zero, Nat.zero_add]
      exact Nat.sub_le_sub_right hle '0'.toNat
    have htail := ih h.2
    have hmul : digitsValue [c] * 10 ^ cs.length ≤ 9 * 10 ^ cs.length := Nat.mul_le_mul_right _ hc
    rw [digitsValue_cons, List.length_cons, pow_succ]
    omega

end Decimal

namespace Digits

open Number Decimal

def value (d : Digits) : ℚ := digitsValue d.chars * 10 ^ (d.leading + 1 - d.chars.length)

structure WellFormed (d : Digits) : Prop where
  digits : Numeral.IsDigits d.chars
  front : ∀ cs, d.chars ≠ '0' :: cs

theorem all_zeros (n : Nat) : (zeros n).all Char.isDigit := by
  rw [zeros, List.all_replicate]
  simp

theorem isDigits_toDigits (n : Nat) : Numeral.IsDigits (Nat.toDigits 10 n) := by
  refine ⟨Nat.toDigits_ne_nil, ?_⟩
  rw [List.all_eq_true]
  intro c hc
  exact Nat.isDigit_of_mem_toDigits (by decide) (by decide) hc

theorem toDigits_ne_zero_cons {n : Nat} (h : 0 < n) (cs : List Char) :
    Nat.toDigits 10 n ≠ '0' :: cs := by
  induction n using Nat.strongRecOn generalizing cs with
  | ind n ih =>
    rw [Nat.toDigits_eq_if (by decide)]
    split
    · rename_i hlt
      have hfirst : ∀ d < 10, 0 < d → d.digitChar ≠ '0' := by decide
      intro heq
      injection heq with hd _
      exact hfirst n hlt h hd
    · obtain ⟨d, ds, hds⟩ := List.exists_cons_of_ne_nil (@Nat.toDigits_ne_nil (n / 10) 10)
      rw [hds, List.cons_append]
      intro heq
      injection heq with hd _
      exact ih (n / 10) (by omega) (by omega) ds (by rw [hds, hd])

theorem toDigits_eq_append_zeros (n : Nat) (e : Int) :
    ∃ k, Nat.toDigits 10 n = (ofScaled n e).chars ++ List.replicate k '0' := by
  simp only [ofScaled]
  generalize Nat.toDigits 10 n = cs
  refine ⟨(cs.reverse.takeWhile (· == '0')).length, ?_⟩
  have hzeros : cs.reverse.takeWhile (· == '0') =
      List.replicate (cs.reverse.takeWhile (· == '0')).length '0' := by
    refine List.eq_replicate_of_mem fun c hc => ?_
    have hall := List.all_eq_true.1 (List.all_takeWhile (p := (· == '0')) (l := cs.reverse)) c hc
    exact beq_iff_eq.1 hall
  calc
    cs = (cs.reverse.takeWhile (· == '0') ++ cs.reverse.dropWhile (· == '0')).reverse := by
      rw [List.takeWhile_append_dropWhile, List.reverse_reverse]
    _ = (cs.reverse.dropWhile (· == '0')).reverse ++
        List.replicate (cs.reverse.takeWhile (· == '0')).length '0' := by
      rw [List.reverse_append, hzeros, List.reverse_replicate, List.length_replicate]

theorem value_ofScaled {n : Nat} (h : 0 < n) (e : Int) :
    (ofScaled n e).WellFormed ∧ (ofScaled n e).value = n * 10 ^ e ∧
      digitsValue (ofScaled n e).chars ≤ n := by
  obtain ⟨k, hk⟩ := toDigits_eq_append_zeros n e
  have hvalue : n = digitsValue (ofScaled n e).chars * 10 ^ k := by
    have := digitsValue_append (ofScaled n e).chars (List.replicate k '0')
    rwa [← hk, digitsValue_toDigits, digitsValue_replicate_zero, List.length_replicate] at this
  have hleading : (ofScaled n e).leading = e + (ofScaled n e).chars.length + k - 1 := by
    have hlength := congrArg List.length hk
    rw [List.length_append, List.length_replicate] at hlength
    simp only [ofScaled] at hlength ⊢
    omega
  have hne : (ofScaled n e).chars ≠ [] := by
    intro hnil
    rw [hnil, show digitsValue [] = 0 from rfl, Nat.zero_mul] at hvalue
    omega
  refine ⟨⟨⟨hne, ?_⟩, ?_⟩, ?_, ?_⟩
  · rw [List.all_eq_true]
    intro c hc
    refine Nat.isDigit_of_mem_toDigits (b := 10) (n := n) (by decide) (by decide) ?_
    rw [hk]
    exact List.mem_append_left _ hc
  · intro cs hcs
    rw [hcs, List.cons_append] at hk
    exact toDigits_ne_zero_cons h _ hk
  · have hpower : (ofScaled n e).leading + 1 - (ofScaled n e).chars.length = (k : Int) + e := by
      omega
    rw [value, hpower, zpow_add₀ (by norm_num), zpow_natCast, ← mul_assoc]
    exact_mod_cast congrArg (fun m : Nat => (m : ℚ) * 10 ^ e) hvalue.symm
  · calc
      digitsValue (ofScaled n e).chars ≤ digitsValue (ofScaled n e).chars * 10 ^ k :=
        Nat.le_mul_of_pos_right _ (by positivity)
      _ = n := hvalue.symm

theorem ten_zpow (e : Int) : (10 : ℚ) ^ e = 10 ^ e.toNat / 10 ^ (-e).toNat := by
  rw [← zpow_natCast, ← zpow_natCast, ← zpow_sub₀ (by norm_num)]
  congr 1
  omega

theorem length_toDigits_spec {n : Nat} (h : 0 < n) :
    ∃ k, (Nat.toDigits 10 n).length = k + 1 ∧ 10 ^ k ≤ n ∧ n < 10 ^ (k + 1) := by
  obtain ⟨k, hk⟩ := Nat.exists_eq_succ_of_ne_zero (@Nat.length_toDigits_pos 10 n).ne'
  refine ⟨k, hk, ?_, ?_⟩
  · rcases Nat.eq_zero_or_pos k with rfl | hpos
    · exact h
    · rw [← Nat.not_lt, ← Nat.length_toDigits_le_iff (by decide) hpos]
      omega
  · rw [← Nat.length_toDigits_le_iff (by decide) (Nat.succ_pos k)]
    omega

theorem leadingPower_spec {r : Nat} (h : 0 < r) :
    10 ^ leadingPower r ≤ magnitude r ∧ magnitude r < 10 ^ (leadingPower r + 1) := by
  have hone := unitsPerOne_pos
  have hscaled : 0 < units r * Nat.pow 10 400 / unitsPerOne := by
    refine Nat.div_pos ?_ hone
    calc
      unitsPerOne ≤ Nat.pow 10 400 := by decide +kernel
      _ ≤ units r * Nat.pow 10 400 :=
        Nat.le_mul_of_pos_left _ ((Nat.zero_le _).trans_lt (units_strictMono h))
  obtain ⟨k, hk, hlow, hhigh⟩ := length_toDigits_spec hscaled
  rw [Nat.le_div_iff_mul_le hone] at hlow
  rw [Nat.div_lt_iff_lt_mul hone] at hhigh
  have hpower : leadingPower r = (k : Int) - (400 : Nat) := by
    rw [leadingPower, hk]
    omega
  have hnext : leadingPower r + 1 = ((k + 1 : Nat) : Int) - (400 : Nat) := by omega
  rw [hnext, hpower, magnitude, zpow_sub₀ (by norm_num), zpow_sub₀ (by norm_num), zpow_natCast,
    zpow_natCast, zpow_natCast]
  generalize 400 = q at hlow hhigh ⊢
  rw [Nat.pow_eq] at hlow hhigh
  generalize unitsPerOne = one at hone hlow hhigh ⊢
  rw [div_le_div_iff₀ (by positivity) (by positivity),
    div_lt_div_iff₀ (by positivity) (by positivity)]
  exact ⟨by exact_mod_cast hlow, by exact_mod_cast hhigh⟩

theorem quotient_eq (r : Nat) (e : Int) :
    ((units r * Nat.pow 10 (-e).toNat : Nat) : ℚ) / ((unitsPerOne * Nat.pow 10 e.toNat : Nat) : ℚ) =
      magnitude r / 10 ^ e := by
  have hone := unitsPerOne_cast_pos.ne'
  rw [ten_zpow, magnitude, Nat.pow_eq, Nat.pow_eq]
  push_cast
  generalize (unitsPerOne : ℚ) = one at hone ⊢
  field_simp

theorem onGrid?_eq_some {tie : Tie} {r : Nat} {e : Int} {d : Digits}
    (h : onGrid? tie r e = some d) :
    ∃ n : Nat, d = ofScaled n e ∧ Decimal.rank n e = r ∧ (n : ℚ) ≤ magnitude r / 10 ^ e + 1 := by
  have hlow : ((units r * Nat.pow 10 (-e).toNat / (unitsPerOne * Nat.pow 10 e.toNat) : Nat) : ℚ) ≤
      magnitude r / 10 ^ e := by
    rw [← quotient_eq]
    exact Nat.cast_div_le
  simp only [onGrid?] at h
  split at h
  · rename_i hreads
    injection h with h
    exact ⟨_, h.symm, hreads.1, by linarith⟩
  · split at h
    · rename_i hreads
      injection h with h
      refine ⟨_, h.symm, hreads, ?_⟩
      push_cast at hlow ⊢
      linarith
    · cases h

/-- A magnitude with seventeen digits on a grid is the nearest to all multiples half a step off. -/
theorem rank_of_near {r : Nat} (hpos : 0 < r) (hfinite : r < finiteCount) {e : Int}
    (h : 10 ^ 16 * 10 ^ e ≤ magnitude r) {n : Nat} (hn : 2 * |magnitude r / 10 ^ e - n| ≤ 1) :
    Decimal.rank n e = r := by
  have hten : (0 : ℚ) < 10 ^ e := zpow_pos (by norm_num) e
  rw [Decimal.rank_eq_iff hfinite]
  refine nearest_eq_of_close hpos ?_
  have hdiff : |n * 10 ^ e - magnitude r| = |magnitude r / 10 ^ e - n| * 10 ^ e := by
    rw [abs_sub_comm, ← abs_of_pos hten, ← abs_mul, abs_of_pos hten, sub_mul,
      div_mul_cancel₀ _ hten.ne']
  have hscaled := mul_le_mul_of_nonneg_right hn hten.le
  rw [hdiff]
  linarith

theorem isSome_onGrid? (tie : Tie) {r : Nat} (hpos : 0 < r) (hfinite : r < finiteCount) {e : Int}
    (h : 10 ^ 16 * 10 ^ e ≤ magnitude r) : (onGrid? tie r e).isSome := by
  have hstep : 0 < unitsPerOne * Nat.pow 10 e.toNat :=
    Nat.mul_pos unitsPerOne_pos (by rw [Nat.pow_eq]; positivity)
  have hquot := quotient_eq r e
  simp only [onGrid?]
  generalize units r * Nat.pow 10 (-e).toNat = exact at hquot ⊢
  generalize unitsPerOne * Nat.pow 10 e.toNat = step at hquot hstep ⊢
  have hstep' : (0 : ℚ) < step := by exact_mod_cast hstep
  have hsplit : magnitude r / 10 ^ e =
      (exact / step : Nat) + (exact % step : Nat) / (step : ℚ) := by
    rw [← hquot, eq_comm, ← mul_div_cancel_left₀ ((exact / step : Nat) : ℚ) hstep'.ne', ← add_div]
    exact_mod_cast congrArg (fun n : Nat => (n : ℚ) / step) (Nat.div_add_mod exact step)
  -- one of the two neighbours is at most half a step away
  have hsome : Decimal.rank (exact / step) e = r ∨ Decimal.rank (exact / step + 1) e = r := by
    have hrest : ((exact % step : Nat) : ℚ) / step < 1 := by
      rw [div_lt_one hstep']
      exact_mod_cast Nat.mod_lt exact hstep
    have hnonneg : 0 ≤ ((exact % step : Nat) : ℚ) / step := by positivity
    rcases le_total (2 * (((exact % step : Nat) : ℚ) / step)) 1 with hhalf | hhalf
    · left
      refine rank_of_near hpos hfinite h ?_
      rwa [hsplit, add_sub_cancel_left, abs_of_nonneg hnonneg]
    · right
      refine rank_of_near hpos hfinite h ?_
      rw [hsplit, abs_of_nonpos (by push_cast; linarith)]
      push_cast
      linarith
  split
  · rfl
  · split
    · rfl
    · rename_i hnot hhigh
      rcases hsome with hlow | hsome
      · exact absurd ⟨hlow, .inr hhigh⟩ hnot
      · exact absurd hsome hhigh

/-- The shortest digits of a magnitude read back, and there are at most seventeen of them. -/
theorem shortest_spec (tie : Tie) {r : Nat} (hpos : 0 < r) (hfinite : r < finiteCount) :
    (shortest tie r).WellFormed ∧ nearest (shortest tie r).value = r ∧
      digitsValue (shortest tie r).chars ≤ 10 ^ 17 := by
  obtain ⟨hleast, hless⟩ := leadingPower_spec hpos
  have hsome : ((List.range 17).findSome? fun k : Nat =>
      onGrid? tie r (leadingPower r - k)).isSome := by
    rw [List.findSome?_isSome_iff]
    refine ⟨16, by decide, isSome_onGrid? tie hpos hfinite ?_⟩
    have hpower : (10 : ℚ) ^ 16 * 10 ^ (leadingPower r - (16 : Nat)) = 10 ^ leadingPower r := by
      rw [← zpow_natCast, ← zpow_add₀ (by norm_num), add_sub_cancel]
    exact hpower.trans_le hleast
  obtain ⟨d, hd⟩ := Option.isSome_iff_exists.1 hsome
  obtain ⟨k, hk, hgrid⟩ := List.exists_of_findSome?_eq_some hd
  obtain ⟨n, rfl, hreads, hle⟩ := onGrid?_eq_some hgrid
  rw [shortest, hd, Option.getD_some]
  have hn : 0 < n := by
    rw [Nat.pos_iff_ne_zero]
    rintro rfl
    have hzero : Decimal.rank 0 (leadingPower r - k) = 0 := by
      cases leadingPower r - k <;> rfl
    omega
  obtain ⟨hwf, hvalue, hdigits⟩ := value_ofScaled hn (leadingPower r - k)
  refine ⟨hwf, ?_, hdigits.trans ?_⟩
  · rw [hvalue]
    exact (Decimal.rank_eq_iff hfinite).1 hreads
  · have hquot : magnitude r / 10 ^ (leadingPower r - k) < 10 ^ (k + 1) := by
      rw [div_lt_iff₀ (zpow_pos (by norm_num) _), ← zpow_natCast, ← zpow_add₀ (by norm_num)]
      refine hless.trans_eq (congrArg _ ?_)
      push_cast
      ring
    have hpower : (10 : ℚ) ^ (k + 1) ≤ 10 ^ 17 :=
      pow_le_pow_right₀ (by norm_num) (List.mem_range.1 hk)
    have hlt : (n : ℚ) < ((10 ^ 17 + 1 : Nat) : ℚ) := by
      push_cast
      linarith
    exact Nat.lt_succ_iff.1 (by exact_mod_cast hlt)

end Digits

end Fexpr
