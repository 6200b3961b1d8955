import Mathlib.Algebra.Order.Field.Rat
import Mathlib.Tactic.FieldSimp
import Mathlib.Tactic.Linarith
import Mathlib.Tactic.NormNum.Pow
import Mathlib.Tactic.Positivity
import Mathlib.Tactic.Ring
import Unnest.Binary64.Decimal

namespace Unnest.Binary64

-- The value of a rank, without a bound on the ranks.
def magnitude (rank : Nat) : ℚ :=
  units rank / unitsInOne

-- No rank lies nearer to a quantity, and of two that are equally near this is the even one.
structure IsNearest (q : ℚ) (rank : Nat) : Prop where
  le : ∀ other, |magnitude rank - q| ≤ |magnitude other - q|
  even : ∀ other, other ≠ rank → |magnitude other - q| = |magnitude rank - q| → rank % 2 = 0

-- The double of a sign and a quantity: the nearest rank, or an infinity if that rank is past the
-- finite doubles.
def Rounds (negative : Bool) (q : ℚ) (x : Binary64) : Prop :=
  ∃ rank, IsNearest q rank ∧ x = ofRank negative rank

theorem binadeSize_eq : binadeSize = 2 ^ 52 := rfl

theorem unitsInOne_eq : unitsInOne = 2 ^ 1074 := by
  unfold unitsInOne
  generalize 1074 = n
  exact Nat.pow_eq

-- Both are too large to be counted out.
seal binadeSize unitsInOne

theorem binadeSize_pos : 0 < binadeSize := by
  rw [binadeSize_eq]
  exact Nat.two_pow_pos 52

theorem unitsInOne_pos : 0 < unitsInOne := by
  rw [unitsInOne_eq]
  generalize 1074 = n
  exact Nat.two_pow_pos n

theorem units_of_binade {exponent mantissa : Nat} (hm : mantissa < binadeSize) :
    units ((exponent + 1) * binadeSize + mantissa) =
      (binadeSize + mantissa) * 2 ^ exponent := by
  have hle : ¬(exponent + 1) * binadeSize + mantissa < binadeSize := by
    have hle : binadeSize ≤ (exponent + 1) * binadeSize :=
      Nat.le_mul_of_pos_left _ (Nat.succ_pos exponent)
    omega
  have hdiv : ((exponent + 1) * binadeSize + mantissa) / binadeSize = exponent + 1 := by
    rw [Nat.add_comm, Nat.add_mul_div_right _ _ binadeSize_pos, Nat.div_eq_of_lt hm, Nat.zero_add]
  have hmod : ((exponent + 1) * binadeSize + mantissa) % binadeSize = mantissa := by
    rw [Nat.add_comm, Nat.add_mul_mod_self_right, Nat.mod_eq_of_lt hm]
  simp only [units, if_neg hle, hdiv, hmod, Nat.add_sub_cancel]
  rfl

-- Ranks that are read off a quotient: either all digits are kept, or as many as a double has.
theorem units_shift {shift lower : Nat} (hlower : lower < 2 * binadeSize)
    (hshift : shift = 0 ∨ binadeSize ≤ lower) :
    units (shift * binadeSize + lower) = lower * 2 ^ shift := by
  by_cases hsmall : lower < binadeSize
  · obtain rfl : shift = 0 := by omega
    simp [units, hsmall]
  · obtain ⟨mantissa, rfl⟩ := Nat.exists_eq_add_of_le (Nat.le_of_not_lt hsmall)
    have hm : mantissa < binadeSize := by omega
    rw [← Nat.add_assoc, ← Nat.succ_mul, units_of_binade hm]

-- From one rank to the next the value grows, and by as much as the digits that are kept allow.
theorem units_shift_succ {shift lower : Nat} (hlower : lower < 2 * binadeSize)
    (hshift : shift = 0 ∨ binadeSize ≤ lower) :
    units (shift * binadeSize + lower + 1) = (lower + 1) * 2 ^ shift := by
  by_cases hlast : lower + 1 < 2 * binadeSize
  · rw [Nat.add_assoc]
    exact units_shift hlast (hshift.imp_right Nat.le_succ_of_le)
  · have hl : lower + 1 = binadeSize + binadeSize := by omega
    have hr : shift * binadeSize + lower + 1 = (shift + 1 + 1) * binadeSize + 0 := by
      rw [Nat.add_assoc, hl, Nat.succ_mul, Nat.succ_mul]
      omega
    rw [hr, units_of_binade binadeSize_pos, hl, Nat.pow_succ]
    ring

-- A rank as the digits that a double keeps and the power of two that they are scaled by.
theorem exists_shift (rank : Nat) : ∃ shift lower, rank = shift * binadeSize + lower ∧
    lower < 2 * binadeSize ∧ (shift = 0 ∨ binadeSize ≤ lower) := by
  by_cases hsmall : rank < binadeSize
  · exact ⟨0, rank, by omega, by omega, .inl rfl⟩
  · have hdm := Nat.div_add_mod' rank binadeSize
    have hm := Nat.mod_lt rank binadeSize_pos
    have hd : 1 ≤ rank / binadeSize := (Nat.one_le_div_iff binadeSize_pos).mpr (by omega)
    obtain ⟨shift, hshift⟩ := Nat.exists_eq_add_of_le hd
    refine ⟨shift, binadeSize + rank % binadeSize, ?_, by omega, .inr (by omega)⟩
    rw [hshift, Nat.add_mul] at hdm
    omega

theorem units_lt_succ (rank : Nat) : units rank < units (rank + 1) := by
  obtain ⟨shift, lower, rfl, hlower, hshift⟩ := exists_shift rank
  rw [units_shift hlower hshift, units_shift_succ hlower hshift, Nat.add_mul, Nat.one_mul]
  exact Nat.lt_add_of_pos_right (Nat.two_pow_pos shift)

theorem magnitude_strictMono : StrictMono magnitude := by
  refine strictMono_nat_of_lt_succ fun rank => ?_
  have hU : (0 : ℚ) < unitsInOne := by exact_mod_cast unitsInOne_pos
  exact div_lt_div_of_pos_right (by exact_mod_cast units_lt_succ rank) hU

-- Which of two neighbours is nearest to a quantity between them.
theorem isNearest_of_between {q : ℚ} (rank : Nat) {nearest : Nat} (hl : magnitude rank ≤ q)
    (hu : q < magnitude (rank + 1))
    (hside : nearest = rank ∧ q - magnitude rank ≤ magnitude (rank + 1) - q ∨
      nearest = rank + 1 ∧ magnitude (rank + 1) - q ≤ q - magnitude rank)
    (heven : q - magnitude rank = magnitude (rank + 1) - q → nearest % 2 = 0) :
    IsNearest q nearest := by
  have hlower : |magnitude rank - q| = q - magnitude rank := by
    rw [abs_sub_comm, abs_of_nonneg (by linarith)]
  have hupper : |magnitude (rank + 1) - q| = magnitude (rank + 1) - q :=
    abs_of_nonneg (by linarith)
  have hnear : |magnitude nearest - q| ≤ q - magnitude rank ∧
      |magnitude nearest - q| ≤ magnitude (rank + 1) - q := by
    rcases hside with ⟨rfl, h⟩ | ⟨rfl, h⟩
    · rw [hlower]
      exact ⟨le_rfl, h⟩
    · rw [hupper]
      exact ⟨h, le_rfl⟩
  -- every other rank lies beyond one of the two
  have hbeyond (other : Nat) : other = rank ∨ other = rank + 1 ∨
      |magnitude nearest - q| < |magnitude other - q| := by
    rcases Nat.lt_trichotomy other rank with hlt | rfl | hgt
    · have hm := magnitude_strictMono hlt
      have habs := neg_abs_le (magnitude other - q)
      exact .inr (.inr (by linarith [hnear.1]))
    · exact .inl rfl
    · rcases Nat.eq_or_lt_of_le hgt with rfl | hgt
      · exact .inr (.inl rfl)
      · have hm := magnitude_strictMono hgt
        have habs := le_abs_self (magnitude other - q)
        exact .inr (.inr (by linarith [hnear.2]))
  constructor
  · intro other
    rcases hbeyond other with rfl | rfl | h
    · exact hnear.1.trans_eq hlower.symm
    · exact hnear.2.trans_eq hupper.symm
    · exact h.le
  · intro other hne heq
    apply heven
    rcases hbeyond other with rfl | rfl | h
    · rcases hside with ⟨rfl, _⟩ | ⟨rfl, _⟩
      · exact absurd rfl hne
      · rw [← hlower, ← hupper, heq]
    · rcases hside with ⟨rfl, _⟩ | ⟨rfl, _⟩
      · rw [← hlower, ← hupper, heq]
      · exact absurd rfl hne
    · exact absurd heq h.ne'

-- Of two nearest ranks the lower would be next to the upper, and both would be even.
theorem IsNearest.not_lt {q : ℚ} {rank other : Nat} (h : IsNearest q rank)
    (ho : IsNearest q other) : ¬rank < other := by
  intro hlt
  have heq : |magnitude rank - q| = |magnitude other - q| := (h.le other).antisymm (ho.le rank)
  have hm := magnitude_strictMono hlt
  have hmid : q - magnitude rank = magnitude other - q := by
    rcases abs_eq_abs.mp heq with hc | hc <;> linarith
  have hdist : |magnitude rank - q| = q - magnitude rank := by
    rw [abs_sub_comm, abs_of_nonneg (by linarith)]
  have hnext : rank + 1 = other := by
    by_contra hne
    have hlow := magnitude_strictMono (Nat.lt_succ_self rank)
    have hhigh := magnitude_strictMono (show rank + 1 < other by omega)
    have habs : |magnitude (rank + 1) - q| < q - magnitude rank :=
      abs_lt.mpr ⟨by linarith, by linarith⟩
    have hle := h.le (rank + 1)
    linarith
  have hr := h.even other hlt.ne' heq.symm
  have hs := ho.even rank hlt.ne heq
  omega

theorem IsNearest.unique {q : ℚ} {rank other : Nat} (h : IsNearest q rank)
    (ho : IsNearest q other) : rank = other :=
  Nat.le_antisymm (Nat.le_of_not_lt (ho.not_lt h)) (Nat.le_of_not_lt (h.not_lt ho))

theorem Rounds.unique {negative : Bool} {q : ℚ} {x y : Binary64} (hx : Rounds negative q x)
    (hy : Rounds negative q y) : x = y := by
  obtain ⟨rank, hr, rfl⟩ := hx
  obtain ⟨other, ho, rfl⟩ := hy
  rw [hr.unique ho]

-- A quantity at or past the value of a rank is not rounded below that rank.
theorem IsNearest.le_of_magnitude_le {q : ℚ} {rank bound : Nat} (h : IsNearest q rank)
    (hb : magnitude bound ≤ q) : bound ≤ rank := by
  by_contra hlt
  have hm := magnitude_strictMono (Nat.lt_of_not_le hlt)
  have hle := h.le bound
  rw [abs_sub_comm, abs_of_nonneg (by linarith), abs_sub_comm, abs_of_nonneg (by linarith)] at hle
  linarith

-- Nor is one at or below the value of a rank rounded past it.
theorem IsNearest.le_of_le_magnitude {q : ℚ} {rank bound : Nat} (h : IsNearest q rank)
    (hb : q ≤ magnitude bound) : rank ≤ bound := by
  by_contra hlt
  have hm := magnitude_strictMono (Nat.lt_of_not_le hlt)
  have hle := h.le bound
  rw [abs_of_nonneg (by linarith), abs_of_nonneg (by linarith)] at hle
  linarith

-- The digits that are kept of a quotient: all of them, or as many as a double has.
theorem kept_digits (n : Nat) :
    n / 2 ^ (n.log2 - 52) < 2 * binadeSize ∧
      (n.log2 - 52 = 0 ∨ binadeSize ≤ n / 2 ^ (n.log2 - 52)) := by
  rw [binadeSize_eq]
  constructor
  · rw [Nat.div_lt_iff_lt_mul (Nat.two_pow_pos _), ← Nat.pow_succ', ← Nat.pow_add]
    exact Nat.lt_of_lt_of_le Nat.lt_log2_self (Nat.pow_le_pow_right (by decide) (by omega))
  · by_cases h : n.log2 ≤ 52
    · exact .inl (by omega)
    · right
      have hn : n ≠ 0 := by
        rintro rfl
        simp at h
      rw [Nat.le_div_iff_mul_le (Nat.two_pow_pos _), ← Nat.pow_add,
        show 52 + (n.log2 - 52) = n.log2 by omega]
      exact Nat.log2_self_le hn

-- The rank read off the digits that are kept, and what the rest of a quotient makes of it.
theorem isNearest_of_rest {shift lower rest den : Nat} (hden : 0 < den)
    (hlower : lower < 2 * binadeSize) (hshift : shift = 0 ∨ binadeSize ≤ lower)
    (hrest : rest < 2 ^ shift * den) :
    IsNearest (((lower * (2 ^ shift * den) + rest : Nat) : ℚ) / den / unitsInOne)
      (if 2 ^ shift * den < 2 * rest ∨
          (2 * rest = 2 ^ shift * den ∧ (shift * binadeSize + lower) % 2 = 1) then
        shift * binadeSize + lower + 1
      else shift * binadeSize + lower) := by
  have hd : (0 : ℚ) < den := by exact_mod_cast hden
  have hU : (0 : ℚ) < unitsInOne := by exact_mod_cast unitsInOne_pos
  have hlow : magnitude (shift * binadeSize + lower) = lower * 2 ^ shift / unitsInOne := by
    simp [magnitude, units_shift hlower hshift]
  have hhigh : magnitude (shift * binadeSize + lower + 1) =
      (lower + 1) * 2 ^ shift / unitsInOne := by
    simp [magnitude, units_shift_succ hlower hshift]
  have hbelow : ((lower * (2 ^ shift * den) + rest : Nat) : ℚ) / den / unitsInOne -
      magnitude (shift * binadeSize + lower) = rest / (den * unitsInOne) := by
    rw [hlow]
    push_cast
    field_simp
    ring
  have habove : magnitude (shift * binadeSize + lower + 1) -
      ((lower * (2 ^ shift * den) + rest : Nat) : ℚ) / den / unitsInOne =
        (2 ^ shift * den - rest) / (den * unitsInOne) := by
    rw [hhigh]
    push_cast
    field_simp
    ring
  have hscale : (0 : ℚ) < den * unitsInOne := mul_pos hd hU
  have hr : (rest : ℚ) < 2 ^ shift * den := by exact_mod_cast hrest
  generalize shift * binadeSize + lower = rank at *
  apply isNearest_of_between rank
  · rw [← sub_nonneg, hbelow]
    exact div_nonneg (Nat.cast_nonneg _) hscale.le
  · rw [← sub_pos, habove]
    exact div_pos (by linarith) hscale
  · rw [hbelow, habove, div_le_div_iff_of_pos_right hscale, div_le_div_iff_of_pos_right hscale]
    split
    · next h =>
      have hge : 2 ^ shift * den ≤ 2 * rest := h.elim Nat.le_of_lt fun h => h.1.ge
      have hge' : (2 : ℚ) ^ shift * den ≤ 2 * rest := by exact_mod_cast hge
      exact .inr ⟨rfl, by linarith⟩
    · next h =>
      have hle : 2 * rest ≤ 2 ^ shift * den := Nat.le_of_not_lt fun hlt => h (.inl hlt)
      have hle' : (2 : ℚ) * rest ≤ 2 ^ shift * den := by exact_mod_cast hle
      exact .inl ⟨rfl, by linarith⟩
  · rw [hbelow, habove, div_left_inj' hscale.ne']
    intro h
    have htie : 2 * rest = 2 ^ shift * den := by
      have h' : (2 : ℚ) * rest = 2 ^ shift * den := by linarith
      exact_mod_cast h'
    split <;> omega

theorem isNearest_nearestRank (num den : Nat) (hden : 0 < den) :
    IsNearest (num / den / unitsInOne) (nearestRank num den) := by
  obtain ⟨hlower, hshift⟩ := kept_digits (num / den)
  generalize hs : (num / den).log2 - 52 = shift at hlower hshift
  rw [Nat.div_div_eq_div_mul, Nat.mul_comm den] at hlower hshift
  have hpos : 0 < 2 ^ shift * den := Nat.mul_pos (Nat.two_pow_pos _) hden
  have hdm := Nat.div_add_mod' num (2 ^ shift * den)
  have h := isNearest_of_rest hden hlower hshift (Nat.mod_lt num hpos)
  have hrest : num - num / (2 ^ shift * den) * (2 ^ shift * den) = num % (2 ^ shift * den) := by
    omega
  rw [hdm] at h
  simpa only [nearestRank, hs, Nat.pow_eq, hrest] using h

theorem rounds_ofRatio (negative : Bool) (num : Nat) {den : Nat} (hden : 0 < den) :
    Rounds negative (num / den) (ofRatio negative num den) := by
  have hU : (unitsInOne : ℚ) ≠ 0 := by exact_mod_cast unitsInOne_pos.ne'
  have h := isNearest_nearestRank (unitsInOne * num) den hden
  rw [Nat.cast_mul, mul_div_assoc, mul_div_cancel_left₀ _ hU] at h
  exact ⟨_, h, rfl⟩

theorem lt_pow_digitCount (n : Nat) : n < 10 ^ digitCount n := by
  have h := @Nat.length_toDigits_le_iff 10 n (digitCount n) (by decide) Nat.length_toDigits_pos
  exact h.mp le_rfl

theorem pow_digitCount_le {n : Nat} (hn : n ≠ 0) : 10 ^ (digitCount n - 1) ≤ n := by
  by_cases hone : digitCount n = 1
  · rw [hone]
    exact Nat.pos_of_ne_zero hn
  · have hpos : 0 < digitCount n := Nat.length_toDigits_pos
    have h := @Nat.length_toDigits_le_iff 10 n (digitCount n - 1) (by decide) (by omega)
    by_contra hlt
    have hle : digitCount n ≤ digitCount n - 1 := h.mpr (Nat.lt_of_not_le hlt)
    omega

-- A decimal lies between the powers of ten that its first digit tells.
theorem decimal_bounds {digits : Nat} (hn : digits ≠ 0) (scale : Int) :
    (10 : ℚ) ^ (digitCount digits + scale - 1) ≤ digits * 10 ^ scale ∧
      (digits : ℚ) * 10 ^ scale < 10 ^ (digitCount digits + scale) := by
  have hten : (10 : ℚ) ≠ 0 := by norm_num
  have hpos : (0 : ℚ) < 10 ^ scale := zpow_pos (by norm_num) scale
  have hcount : 0 < digitCount digits := Nat.length_toDigits_pos
  constructor
  · have h : ((10 : ℚ) ^ (digitCount digits - 1)) ≤ digits := by
      exact_mod_cast pow_digitCount_le hn
    have hexp : (digitCount digits : Int) + scale - 1 =
        ((digitCount digits - 1 : Nat) : Int) + scale := by omega
    rw [hexp, zpow_add₀ hten, zpow_natCast]
    exact mul_le_mul_of_nonneg_right h hpos.le
  · have h : (digits : ℚ) < 10 ^ digitCount digits := by exact_mod_cast lt_pow_digitCount digits
    rw [zpow_add₀ hten, zpow_natCast]
    exact mul_lt_mul_of_pos_right h hpos

theorem isNearest_zero {q : ℚ} (h : 0 ≤ q) (hq : 2 * q * unitsInOne < 1) : IsNearest q 0 := by
  have hU : (0 : ℚ) < unitsInOne := by exact_mod_cast unitsInOne_pos
  have hB := binadeSize_pos
  have hzero : magnitude 0 = 0 := by
    have hu := @units_shift 0 0 (by omega) (.inl rfl)
    simp at hu
    simp [magnitude, hu]
  have hone : magnitude (0 + 1) = 1 / unitsInOne := by
    have hu := @units_shift_succ 0 0 (by omega) (.inl rfl)
    simp at hu
    simp [magnitude, hu]
  have hhalf : 2 * q < 1 / unitsInOne := by rwa [lt_div_iff₀ hU]
  apply isNearest_of_between 0
  · rwa [hzero]
  · rw [hone]
    linarith
  · rw [hzero, hone]
    exact .inl ⟨rfl, by linarith⟩
  · intro _
    rfl

-- Every binade begins at a power of two.
theorem magnitude_binade (exponent : Nat) :
    magnitude ((exponent + 1) * binadeSize) * 2 ^ 1074 = 2 ^ (52 + exponent) := by
  have hu : units ((exponent + 1) * binadeSize) = binadeSize * 2 ^ exponent :=
    @units_of_binade exponent 0 binadeSize_pos
  have hU : (2 : ℚ) ^ 1074 ≠ 0 := pow_ne_zero _ two_ne_zero
  rw [magnitude, hu, binadeSize_eq, unitsInOne_eq, Nat.cast_pow, Nat.cast_ofNat,
    div_mul_cancel₀ _ hU, Nat.cast_mul, Nat.cast_pow, Nat.cast_pow, Nat.cast_ofNat, pow_add]

-- From here on a quantity rounds to an infinity.
theorem magnitude_finiteRanks : magnitude finiteRanks = 2 ^ 1024 := by
  have hU : (2 : ℚ) ^ 1074 ≠ 0 := pow_ne_zero _ two_ne_zero
  refine mul_right_cancel₀ hU ((magnitude_binade 2046).trans ?_)
  rw [← pow_add]

theorem exists_isNearest {q : ℚ} (h : 0 ≤ q) : ∃ rank, IsNearest q rank := by
  obtain ⟨rank, hrank, -⟩ := rounds_ofRatio false q.num.toNat q.den_pos
  refine ⟨rank, ?_⟩
  have hnum : (q.num.toNat : ℚ) = q.num := by
    exact_mod_cast Int.toNat_of_nonneg (Rat.num_nonneg.mpr h)
  rwa [hnum, Rat.num_div_den] at hrank

theorem rounds_infinite (negative : Bool) {q : ℚ} (h : 10 ^ 310 ≤ q) :
    Rounds negative q (infinite negative) := by
  have hten : (2 : ℚ) ^ 1024 ≤ 10 ^ 310 := by
    have hnat : 2 ^ 1024 ≤ 10 ^ 310 := by decide +kernel
    exact_mod_cast hnat
  have hq : 0 ≤ q := le_trans (by positivity) h
  obtain ⟨rank, hrank⟩ := exists_isNearest hq
  have hle : finiteRanks ≤ rank :=
    hrank.le_of_magnitude_le (magnitude_finiteRanks.trans_le (hten.trans h))
  exact ⟨rank, hrank, by simp [ofRank, Nat.not_lt.mpr hle]⟩

-- What fits into 64 bits lies far below the infinities.
theorem ofRatio_eq_finite (negative : Bool) {num den : Nat} (hden : 0 < den)
    (h : num ≤ 2 ^ 64 * den) : ∃ rank, ofRatio negative num den = finite negative rank := by
  obtain ⟨rank, hrank, heq⟩ := rounds_ofRatio negative num hden
  have hle : rank ≤ (1086 + 1) * binadeSize := by
    refine hrank.le_of_le_magnitude ?_
    have hbinade := magnitude_binade 1086
    have hpow : (2 : ℚ) ^ (52 + 1086) = 2 ^ 64 * 2 ^ 1074 := by rw [← pow_add]
    have hU : (2 : ℚ) ^ 1074 ≠ 0 := pow_ne_zero _ two_ne_zero
    have hden : (0 : ℚ) < den := by exact_mod_cast hden
    rw [mul_right_cancel₀ hU (hbinade.trans hpow), div_le_iff₀ hden]
    exact_mod_cast h
  have hlt : rank < finiteRanks := by
    have hpos := binadeSize_pos
    rw [finiteRanks]
    omega
  rw [ofRank, dif_pos hlt] at heq
  exact ⟨⟨rank, hlt⟩, heq⟩

theorem ofInt?_eq_some {n : Int} (h : n.natAbs ≤ 2 ^ 64) :
    ∃ negative rank, ofInt? n = some (finite negative rank) := by
  obtain ⟨rank, hrank⟩ := ofRatio_eq_finite (n < 0) Nat.one_pos (h.trans_eq (Nat.mul_one _).symm)
  refine ⟨decide (n < 0), rank, ?_⟩
  rw [ofInt?, hrank]
  rfl

theorem rounds_zero (negative : Bool) {q : ℚ} (h : 0 ≤ q) (hq : q * 10 ^ 330 < 1) :
    Rounds negative q (ofRank negative 0) := by
  have hten : (2 : ℚ) * unitsInOne ≤ 10 ^ 330 := by
    have hnat : 2 * 2 ^ 1074 ≤ 10 ^ 330 := by decide +kernel
    rw [unitsInOne_eq]
    exact_mod_cast hnat
  refine ⟨0, isNearest_zero h ?_, rfl⟩
  calc
    2 * q * unitsInOne = q * (2 * unitsInOne) := by ring
    _ ≤ q * 10 ^ 330 := mul_le_mul_of_nonneg_left hten h
    _ < 1 := hq

-- A decimal is read as the nearest double.
theorem rounds_ofDecimal (negative : Bool) (digits : Nat) (scale : Int) :
    Rounds negative (digits * 10 ^ scale) (ofDecimal negative digits scale) := by
  unfold ofDecimal
  by_cases hn : digits = 0
  · rw [if_pos hn]
    refine rounds_zero negative ?_ ?_ <;> simp [hn]
  rw [if_neg hn]
  obtain ⟨hlower, hupper⟩ := decimal_bounds hn scale
  have hten : (1 : ℚ) ≤ 10 := by norm_num
  by_cases htop : 310 < (digitCount digits : Int) + scale
  · simp only [htop, if_true]
    have hexp : (10 : ℚ) ^ (310 : Int) ≤ 10 ^ ((digitCount digits : Int) + scale - 1) :=
      zpow_le_zpow_right₀ hten (by omega)
    exact rounds_infinite negative (hexp.trans hlower)
  by_cases hbottom : (digitCount digits : Int) + scale < -330
  · simp only [htop, hbottom, if_false, if_true]
    refine rounds_zero negative (mul_nonneg digits.cast_nonneg (zpow_nonneg (by norm_num) _)) ?_
    have hexp : (10 : ℚ) ^ ((digitCount digits : Int) + scale) ≤ 10 ^ (-330 : Int) :=
      zpow_le_zpow_right₀ hten (by omega)
    have hlt := hupper.trans_le hexp
    rwa [zpow_neg, zpow_ofNat, ← one_div, lt_div_iff₀ (by positivity)] at hlt
  simp only [htop, hbottom, if_false]
  by_cases hs : 0 ≤ scale
  · obtain ⟨n, rfl⟩ := Int.eq_ofNat_of_zero_le hs
    have h := rounds_ofRatio negative (digits * 10 ^ n) one_pos
    simpa using h
  · obtain ⟨n, hneg⟩ := Int.eq_ofNat_of_zero_le (show 0 ≤ -scale by omega)
    obtain rfl : scale = -(n : Int) := by omega
    have h := rounds_ofRatio negative digits (Nat.pow_pos (n := n) (show 0 < 10 by decide))
    rw [if_neg hs, Int.neg_neg, Int.toNat_natCast, zpow_neg, ← div_eq_mul_inv, zpow_natCast]
    exact_mod_cast h

end Unnest.Binary64
