import Mathlib.Algebra.Order.Field.Power
import Mathlib.Data.Nat.Cast.Order.Field
import Unnest.Proofs.Binary64.Rounding

namespace Unnest.Binary64

-- From one rank to the next the value grows by at least its 2 ^ 53rd part.
theorem units_succ_le (rank : Nat) :
    units (rank + 1) ≤ 2 ^ 53 * (units (rank + 1) - units rank) := by
  obtain ⟨shift, lower, rfl, hlower, hshift⟩ := exists_shift rank
  rw [units_shift hlower hshift, units_shift_succ hlower hshift]
  have hgap : (lower + 1) * 2 ^ shift - lower * 2 ^ shift = 2 ^ shift := by
    rw [Nat.add_mul, Nat.one_mul, Nat.add_sub_cancel_left]
  rw [hgap]
  refine Nat.mul_le_mul_right _ ?_
  rw [binadeSize_eq] at hlower
  omega

theorem magnitude_succ_le (rank : Nat) :
    magnitude (rank + 1) ≤ 2 ^ 53 * (magnitude (rank + 1) - magnitude rank) := by
  have hU : (0 : ℚ) < unitsInOne := by exact_mod_cast unitsInOne_pos
  have hgap : (units (rank + 1) : ℚ) ≤ 2 ^ 53 * (units (rank + 1) - units rank) := by
    have h := units_succ_le rank
    have hcast : ((units (rank + 1) - units rank : Nat) : ℚ) =
        units (rank + 1) - units rank := Nat.cast_sub (units_lt_succ rank).le
    rw [← hcast]
    exact_mod_cast h
  rw [magnitude, magnitude, ← sub_div, ← mul_div_assoc]
  exact div_le_div_of_nonneg_right hgap hU.le

theorem magnitude_pos {rank : Nat} (h : 0 < rank) : 0 < magnitude rank := by
  have hzero : 0 ≤ magnitude 0 := div_nonneg (Nat.cast_nonneg _) (Nat.cast_nonneg _)
  exact hzero.trans_lt (magnitude_strictMono h)

-- What is this close to the value of a rank lies nearer to it than halfway to a neighbour.
theorem isNearest_of_close {q : ℚ} {rank : Nat} (hrank : 0 < rank)
    (hq : 2 ^ 54 * |q - magnitude rank| < magnitude rank) : IsNearest q rank := by
  obtain ⟨below, rfl⟩ := Nat.exists_eq_add_one_of_ne_zero hrank.ne'
  have hdown := magnitude_succ_le below
  have hup := magnitude_succ_le (below + 1)
  have hgrows := magnitude_strictMono (Nat.lt_succ_self (below + 1))
  have hleft := neg_abs_le (q - magnitude (below + 1))
  have hright := le_abs_self (q - magnitude (below + 1))
  by_cases hside : magnitude (below + 1) ≤ q
  · refine isNearest_of_between (below + 1) hside ?_ (.inl ⟨rfl, ?_⟩) fun heq => ?_
    all_goals linarith
  · refine isNearest_of_between below ?_ (not_le.mp hside) (.inr ⟨rfl, ?_⟩) fun heq => ?_
    all_goals linarith

theorem units_pos {rank : Nat} (h : 0 < rank) : 0 < units rank := by
  by_contra hzero
  have hpos := magnitude_pos h
  rw [magnitude, Nat.eq_zero_of_not_pos hzero, Nat.cast_zero, zero_div] at hpos
  exact lt_irrefl _ hpos

theorem isNearest_zero_zero : IsNearest 0 0 := by
  refine isNearest_zero le_rfl ?_
  rw [mul_zero, zero_mul]
  exact zero_lt_one

-- As many digits as the integral part of a quotient has, scaled by a power of ten.
theorem pow_digitCount_div_le {num den shift : Nat} {next : Int} (hden : 0 < den)
    (h : den ≤ num * Nat.pow 10 shift) (hnext : next = shift + 1) :
    (10 : ℚ) ^ ((digitCount (num * Nat.pow 10 shift / den) : Int) - next) ≤ num / den := by
  obtain ⟨count, hcount⟩ := Nat.exists_eq_add_one_of_ne_zero
    (Nat.length_toDigits_pos (b := 10) (n := num * Nat.pow 10 shift / den)).ne'
  have hdigits := pow_digitCount_le (Nat.div_pos h hden).ne'
  have hfloor : ((num * Nat.pow 10 shift / den : Nat) : ℚ) ≤ num / den * 10 ^ shift := by
    refine Nat.cast_div_le.trans_eq ?_
    rw [Nat.pow_eq, Nat.cast_mul, Nat.cast_pow, Nat.cast_ofNat]
    ring
  rw [digitCount, hcount] at hdigits ⊢
  have hexponent : ((count + 1 : Nat) : Int) - next = (count : Int) - (shift : Int) := by
    omega
  rw [hexponent, zpow_sub₀ (by norm_num), zpow_natCast, zpow_natCast,
    div_le_iff₀ (by positivity)]
  exact le_trans (by exact_mod_cast hdigits) hfloor

-- The power of ten of the leading digit is at most the value.
theorem pow_leadingExponent_le {rank : Nat} (h : 0 < rank) :
    (10 : ℚ) ^ leadingExponent rank ≤ magnitude rank := by
  unfold leadingExponent magnitude
  have hbig : unitsInOne ≤ Nat.pow 10 400 := by decide +kernel
  generalize hshift : (400 : Nat) = shift at hbig ⊢
  exact pow_digitCount_div_le unitsInOne_pos
    (hbig.trans (Nat.le_mul_of_pos_left _ (units_pos h))) (by omega)

-- The first of two neighbours around a quotient is at most half a step away.
theorem neighbours_close (num : Nat) {den : Nat} (hden : 0 < den) :
    ∃ first second, (if 2 * (num % den) < den ∨ (2 * (num % den) = den ∧ num / den % 2 = 0)
        then [num / den, num / den + 1] else [num / den + 1, num / den]) = [first, second] ∧
      |(first : ℚ) - num / den| ≤ 1 / 2 := by
  have hd : (0 : ℚ) < den := by exact_mod_cast hden
  have hdm : (num : ℚ) = (num / den : Nat) * den + (num % den : Nat) := by
    exact_mod_cast (Nat.div_add_mod' num den).symm
  have hrest : ((num % den : Nat) : ℚ) < den := by exact_mod_cast Nat.mod_lt num hden
  have hquotient : (num : ℚ) / den = (num / den : Nat) + (num % den : Nat) / den := by
    rw [div_eq_iff hd.ne', add_mul, div_mul_cancel₀ _ hd.ne', ← hdm]
  rw [hquotient]
  split
  · next h =>
    have hhalf : 2 * (num % den) ≤ den := h.elim Nat.le_of_lt fun h => h.1.le
    have hhalf' : (2 : ℚ) * (num % den : Nat) ≤ den := by exact_mod_cast hhalf
    refine ⟨_, _, rfl, ?_⟩
    rw [sub_add_cancel_left, abs_neg, abs_of_nonneg (by positivity), div_le_div_iff₀ hd two_pos]
    linarith
  · next h =>
    have hhalf : den ≤ 2 * (num % den) := Nat.le_of_not_lt fun hlt => h (.inl hlt)
    have hhalf' : (den : ℚ) ≤ 2 * (num % den : Nat) := by exact_mod_cast hhalf
    have hle : ((num % den : Nat) : ℚ) / den ≤ 1 := (div_le_one hd).mpr hrest.le
    have hge : 1 / 2 ≤ ((num % den : Nat) : ℚ) / den := by
      rw [div_le_div_iff₀ two_pos hd]
      linarith
    refine ⟨_, _, rfl, ?_⟩
    rw [Nat.cast_add, Nat.cast_one, add_sub_add_left_eq_sub, abs_of_nonneg (by linarith)]
    linarith

theorem gridPoints_close (rank : Nat) (scale : Int) :
    ∃ first second, gridPoints rank scale = [first, second] ∧
      |(first : ℚ) * 10 ^ scale - magnitude rank| ≤ 10 ^ scale / 2 := by
  have hten : (0 : ℚ) < 10 ^ scale := zpow_pos (by norm_num) scale
  -- the points lie around the value, measured in steps of the grid
  have hsteps {num den : Nat} (hden : 0 < den)
      (hgrid : gridPoints rank scale = if 2 * (num % den) < den ∨
          (2 * (num % den) = den ∧ num / den % 2 = 0)
        then [num / den, num / den + 1] else [num / den + 1, num / den])
      (hvalue : (num : ℚ) / den * 10 ^ scale = magnitude rank) :
      ∃ first second, gridPoints rank scale = [first, second] ∧
        |(first : ℚ) * 10 ^ scale - magnitude rank| ≤ 10 ^ scale / 2 := by
    obtain ⟨first, second, hpoints, hclose⟩ := neighbours_close num hden
    refine ⟨first, second, hgrid.trans hpoints, ?_⟩
    rw [← hvalue, ← sub_mul, abs_mul, abs_of_pos hten]
    linarith [mul_le_mul_of_nonneg_right hclose hten.le]
  have hU : (unitsInOne : ℚ) ≠ 0 := by exact_mod_cast unitsInOne_pos.ne'
  by_cases hscale : 0 ≤ scale
  · obtain ⟨n, rfl⟩ := Int.eq_ofNat_of_zero_le hscale
    have hpow : (10 : ℚ) ^ n ≠ 0 := pow_ne_zero _ (by norm_num)
    refine @hsteps (units rank) (unitsInOne * 10 ^ n)
      (Nat.mul_pos unitsInOne_pos (Nat.pow_pos (by decide))) ?_ ?_
    · simp only [gridPoints, if_pos hscale]
      rfl
    · rw [magnitude, zpow_natCast]
      push_cast
      field_simp
  · obtain ⟨n, hn⟩ := Int.eq_ofNat_of_zero_le (show 0 ≤ -scale by omega)
    obtain rfl : scale = -(n : Int) := by omega
    have hpow : (10 : ℚ) ^ n ≠ 0 := pow_ne_zero _ (by norm_num)
    refine @hsteps (units rank * 10 ^ n) unitsInOne unitsInOne_pos ?_ ?_
    · simp only [gridPoints, if_neg hscale, Int.neg_neg, Int.toNat_natCast]
      rfl
    · rw [magnitude, zpow_neg, zpow_natCast]
      push_cast
      field_simp

-- Seventeen digits are enough to tell a double from its neighbours.
theorem isNearest_of_grid {rank digits : Nat} {scale : Int} (hrank : 0 < rank)
    (hscale : scale = leadingExponent rank - 16)
    (hclose : |(digits : ℚ) * 10 ^ scale - magnitude rank| ≤ 10 ^ scale / 2) :
    IsNearest (digits * 10 ^ scale) rank := by
  have hten : (0 : ℚ) < 10 ^ scale := zpow_pos (by norm_num) scale
  have hleading : (10 : ℚ) ^ scale * 10 ^ 16 ≤ magnitude rank := by
    have hpow : (10 : ℚ) ^ scale * 10 ^ 16 = 10 ^ leadingExponent rank := by
      rw [hscale, zpow_sub₀ (by norm_num)]
      norm_num
    exact hpow.trans_le (pow_leadingExponent_le hrank)
  refine isNearest_of_close hrank ?_
  linarith

-- What reads back as a finite double is a decimal that the double is nearest to.
theorem ofDecimal_eq_iff {rank digits : Nat} {scale : Int} (hrank : rank < finiteRanks) :
    ofDecimal false digits scale = ofRank false rank ↔ IsNearest (digits * 10 ^ scale) rank := by
  obtain ⟨other, hother, heq⟩ := rounds_ofDecimal false digits scale
  rw [heq]
  constructor
  · intro h
    rw [ofRank, ofRank, dif_pos hrank] at h
    split at h
    · obtain rfl : other = rank := by simpa using h
      exact hother
    · cases h
  · intro h
    rw [hother.unique h]

theorem exists_candidate {rank : Nat} (hrank : 0 < rank) (hfinite : rank < finiteRanks) :
    ∃ digits, (gridPoints rank (leadingExponent rank - 16)).find? (fun digits =>
      ofDecimal false digits (leadingExponent rank - 16) = ofRank false rank) = some digits := by
  obtain ⟨first, second, hpoints, hclose⟩ := gridPoints_close rank (leadingExponent rank - 16)
  have hreads := (ofDecimal_eq_iff hfinite).mpr (isNearest_of_grid hrank rfl hclose)
  exact ⟨first, by rw [hpoints, List.find?_cons_of_pos (by simpa using hreads)]⟩

-- The digits that are found for a double read back as that double.
theorem shortest_reads {rank : Nat} (hrank : 0 < rank) (hfinite : rank < finiteRanks) :
    (shortest rank).1 ≠ 0 ∧ IsNearest ((shortest rank).1 * 10 ^ (shortest rank).2) rank := by
  have hnearest : IsNearest ((shortest rank).1 * 10 ^ (shortest rank).2) rank := by
    obtain ⟨last, hlast⟩ := exists_candidate hrank hfinite
    unfold shortest
    extract_lets top candidate
    have hcandidate : candidate 16 = some (last, top - 16) := Option.map_eq_some_iff.mpr
      ⟨last, hlast, rfl⟩
    have hsome : ((List.range 17).findSome? candidate).isSome :=
      List.findSome?_isSome_iff.mpr ⟨16, by decide, by rw [hcandidate]; rfl⟩
    obtain ⟨found, hfound⟩ := Option.isSome_iff_exists.mp hsome
    obtain ⟨count, -, hcount⟩ := List.exists_of_findSome?_eq_some hfound
    obtain ⟨digits, hdigits, rfl⟩ := Option.map_eq_some_iff.mp hcount
    rw [hfound]
    exact (ofDecimal_eq_iff hfinite).mp (by simpa using List.find?_some hdigits)
  refine ⟨fun hzero => hrank.ne' ?_, hnearest⟩
  rw [hzero, Nat.cast_zero, zero_mul] at hnearest
  exact hnearest.unique isNearest_zero_zero

end Unnest.Binary64
