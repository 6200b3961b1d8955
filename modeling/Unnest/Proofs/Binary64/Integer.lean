import Unnest.Number
import Unnest.Proofs.Binary64.Rounding

namespace Unnest

theorem fitsSigned_iff {n : Int} : fitsSigned n = true ↔ -2 ^ 63 ≤ n ∧ n < 2 ^ 63 := by
  have hmin : Int64.minValue.toInt = -2 ^ 63 := Int64.toInt_minValue
  have hmax : Int64.maxValue.toInt = 2 ^ 63 - 1 := Int64.toInt_maxValue
  rw [fitsSigned, hmin, hmax, Bool.and_eq_true, decide_eq_true_eq, decide_eq_true_eq]
  omega

theorem fitsUnsigned_iff {n : Int} : fitsUnsigned n = true ↔ 0 ≤ n ∧ n < 2 ^ 64 := by
  have hsize : (UInt64.size : Int) = 2 ^ 64 := rfl
  rw [fitsUnsigned, hsize, Bool.and_eq_true, decide_eq_true_eq, decide_eq_true_eq]

namespace Number

theorem int_beq_int {m n : Int} : (int m == int n) = true ↔ m = n := by
  have hunits : (Binary64.unitsInOne : Int) ≠ 0 := by exact_mod_cast Binary64.unitsInOne_pos.ne'
  show (Level.at (m * Binary64.unitsInOne) == .at (n * Binary64.unitsInOne)) = true ↔ _
  rw [beq_iff_eq, Level.at.injEq, Int.mul_eq_mul_right_iff hunits]

-- A NaN is like itself, though it does not equal itself.
theorem alike_self (n : Number) : n.alike n = true := by
  cases n with
  | int n => exact int_beq_int.mpr rfl
  | real x =>
      cases x with
      | nan mark => exact beq_self_eq_true mark
      | infinite negative => cases negative <;> rfl
      | finite negative rank => exact beq_self_eq_true (Level.at _)

theorem Level.lt_trans {k l m : Level} (hkl : k.lt l = true) (hlm : l.lt m = true) :
    k.lt m = true := by
  cases k <;> cases l <;> cases m <;> simp_all [lt]
  omega

theorem Level.lt_of_lt_of_not_lt {k l m : Level} (hkl : k.lt l = true) (hml : m.lt l = false) :
    k.lt m = true := by
  cases k <;> cases l <;> cases m <;> simp_all [lt]
  omega

theorem lt_iff {a b : Number} :
    a.lt b = true ↔ ∃ k l, a.level? = some k ∧ b.level? = some l ∧ k.lt l = true := by
  rw [lt]
  cases a.level? <;> cases b.level? <;> simp

theorem lt_trans {a b c : Number} (hab : a.lt b = true) (hbc : b.lt c = true) :
    a.lt c = true := by
  obtain ⟨k, l, hk, hl, hkl⟩ := lt_iff.mp hab
  obtain ⟨l', m, hl', hm, hlm⟩ := lt_iff.mp hbc
  obtain rfl := Option.some.inj (hl.symm.trans hl')
  exact lt_iff.mpr ⟨k, m, hk, hm, Level.lt_trans hkl hlm⟩

theorem lt_irrefl (a : Number) : a.lt a = false := by
  rw [← Bool.not_eq_true]
  intro h
  obtain ⟨k, l, hk, hl, hkl⟩ := lt_iff.mp h
  obtain rfl := Option.some.inj (hk.symm.trans hl)
  cases k <;> simp [Level.lt] at hkl

theorem not_lt_of_lt {a b : Number} (h : a.lt b = true) : b.lt a = false := by
  rw [← Bool.not_eq_true]
  exact fun hba => Bool.false_ne_true ((lt_irrefl a).symm.trans (lt_trans h hba))

-- Numbers are in a row, a NaN apart.
theorem lt_of_lt_of_not_lt {a b : Number} {x : Binary64} (hab : a.lt b = true)
    (hx : x.isNaN = false) (hxb : (real x).lt b = false) : a.lt (.real x) = true := by
  obtain ⟨k, l, hk, hl, hkl⟩ := lt_iff.mp hab
  have hlevel : ∃ m, (real x).level? = some m := by
    cases x with
    | nan mark => cases hx
    | infinite negative => exact ⟨_, rfl⟩
    | finite negative rank => exact ⟨_, rfl⟩
  obtain ⟨m, hm⟩ := hlevel
  have hml : m.lt l = false := by
    rw [lt, hm, hl] at hxb
    exact hxb
  exact lt_iff.mpr ⟨k, m, hk, hm, Level.lt_of_lt_of_not_lt hkl hml⟩

end Number

namespace Binary64

theorem bounded?_ofRank (negative : Bool) (rank : Nat) :
    (ofRank negative rank).bounded? =
      if h : rank < finiteRanks then some (finite negative ⟨rank, h⟩) else none := by
  rw [ofRank]
  split <;> rfl

-- An integer is rounded by its size, and its sign is kept.
theorem ofInt?_eq (n : Int) : ∃ rank, IsNearest n.natAbs rank ∧
    ofInt? n = if h : rank < finiteRanks then some (finite (n < 0) ⟨rank, h⟩) else none := by
  obtain ⟨rank, hrank, heq⟩ := rounds_ofRatio (n < 0) n.natAbs Nat.one_pos
  rw [Nat.cast_one, div_one] at hrank
  exact ⟨rank, hrank, by rw [ofInt?, heq, bounded?_ofRank]⟩

theorem finite_of_ofInt? {n : Int} {x : Binary64} (h : ofInt? n = some x) :
    ∃ rank, IsNearest n.natAbs rank.val ∧ x = finite (n < 0) rank := by
  obtain ⟨rank, hrank, heq⟩ := ofInt?_eq n
  rw [heq] at h
  split at h
  · exact ⟨_, hrank, (Option.some.inj h).symm⟩
  · cases h

-- The last of the finite doubles.
theorem magnitude_last : magnitude (finiteRanks - 1) = 2 ^ 1024 - 2 ^ 971 := by
  have hpos := binadeSize_pos
  have hlast : finiteRanks - 1 = 2045 * binadeSize + (2 * binadeSize - 1) := by
    rw [finiteRanks]
    omega
  have hnext : finiteRanks = 2045 * binadeSize + (2 * binadeSize - 1) + 1 := by
    rw [finiteRanks]
    omega
  have hlower : 2 * binadeSize - 1 < 2 * binadeSize := by omega
  have hshift : 2045 = 0 ∨ binadeSize ≤ 2 * binadeSize - 1 := .inr (by omega)
  have hunits : units finiteRanks = units (finiteRanks - 1) + 2 ^ 2045 := by
    rw [hlast, units_shift hlower hshift, hnext, units_shift_succ hlower hshift, Nat.succ_mul]
  have hU : (2 : ℚ) ^ 1074 ≠ 0 := pow_ne_zero _ two_ne_zero
  have hpow : (2 : ℚ) ^ 2045 / 2 ^ 1074 = 2 ^ 971 := by
    rw [div_eq_iff hU, ← pow_add]
  have hfinite := magnitude_finiteRanks
  rw [magnitude, hunits, Nat.cast_add, Nat.cast_pow, Nat.cast_ofNat, unitsInOne_eq, Nat.cast_pow,
    Nat.cast_ofNat, add_div, hpow] at hfinite
  rw [magnitude, unitsInOne_eq, Nat.cast_pow, Nat.cast_ofNat]
  exact eq_sub_of_add_eq hfinite

-- Half a step past the last finite double, quantities round to an infinity. In the middle the even
-- rank is taken, which is the infinite one.
theorem IsNearest.finiteRanks_le_iff {q : ℚ} {rank : Nat} (h : IsNearest q rank) :
    finiteRanks ≤ rank ↔ 2 ^ 1024 - 2 ^ 970 ≤ q := by
  have hlast := magnitude_last
  have hinfinite := magnitude_finiteRanks
  rw [pow_succ' (2 : ℚ) 970] at hlast
  have hpos : (0 : ℚ) < 2 ^ 970 := by positivity
  generalize (2 : ℚ) ^ 970 = half at hlast hpos ⊢
  generalize (2 : ℚ) ^ 1024 = top at hlast hinfinite ⊢
  constructor
  · intro hrank
    by_contra hlt
    have hmagnitude := magnitude_strictMono.monotone hrank
    have hle := h.le (finiteRanks - 1)
    rw [abs_of_nonneg (by linarith)] at hle
    rcases abs_cases (magnitude (finiteRanks - 1) - q) with ⟨habs, -⟩ | ⟨habs, -⟩ <;> linarith
  · intro hq
    by_contra hlt
    have hmagnitude := magnitude_strictMono.monotone (Nat.le_pred_of_lt (Nat.lt_of_not_le hlt))
    have hbelow : q < top := lt_of_not_ge fun htop =>
      hlt (h.le_of_magnitude_le (hinfinite.trans_le htop))
    rw [Nat.pred_eq_sub_one, hlast] at hmagnitude
    have hhigh : |magnitude finiteRanks - q| = top - q := by
      rw [hinfinite, abs_of_pos (by linarith)]
    have hlow : |magnitude rank - q| = q - magnitude rank := by
      rw [abs_sub_comm, abs_of_nonneg (by linarith)]
    have hle := h.le finiteRanks
    rw [hhigh, hlow] at hle
    have hrank : rank = finiteRanks - 1 :=
      magnitude_strictMono.injective (by linarith)
    have heven := h.even finiteRanks (by omega) (by rw [hhigh, hlow]; linarith)
    rw [hrank, finiteRanks, binadeSize_eq] at heven
    omega

-- An integer has no double if it is at least as large as the middle between the last finite double
-- and the power of two after it.
theorem ofInt?_eq_none_iff {n : Int} : ofInt? n = none ↔ 2 ^ 1024 - 2 ^ 970 ≤ n.natAbs := by
  obtain ⟨rank, hrank, heq⟩ := ofInt?_eq n
  have hsum : (2 : ℚ) ^ 1024 - 2 ^ 970 ≤ n.natAbs ↔ 2 ^ 1024 - 2 ^ 970 ≤ n.natAbs := by
    rw [tsub_le_iff_right, tsub_le_iff_right]
    exact_mod_cast Iff.rfl
  rw [heq, ← hsum, ← hrank.finiteRanks_le_iff]
  split
  · next hlt => simp [hlt]
  · next hlt => simp [Nat.le_of_not_lt hlt]

theorem isNearest_magnitude (rank : Nat) : IsNearest (magnitude rank) rank where
  le other := by
    rw [sub_self, abs_zero]
    exact abs_nonneg _
  even other hne heq := by
    rw [sub_self, abs_zero, abs_eq_zero, sub_eq_zero] at heq
    exact absurd (magnitude_strictMono.injective heq) hne

-- Only a finite double equals an integer, and it is so many units.
theorem equals_int_iff {x : Binary64} {n : Int} :
    (Number.real x == .int n) = true ↔
      ∃ negative rank, x = finite negative rank ∧
        (if negative then -(units rank : Int) else units rank) = n * unitsInOne := by
  cases x with
  | nan mark => exact iff_of_false Bool.false_ne_true nofun
  | infinite negative =>
      cases negative <;> exact iff_of_false Bool.false_ne_true nofun
  | finite negative rank =>
      show (Number.Level.at (if negative then -(units rank : Int) else units rank) ==
        .at (n * unitsInOne)) = true ↔ _
      rw [beq_iff_eq, Number.Level.at.injEq]
      constructor
      · exact fun h => ⟨negative, rank, rfl, h⟩
      · rintro ⟨_, _, ⟨⟩, h⟩
        exact h

-- An integer that has an exact double is rounded to it.
theorem equals_int_of_exists {n : Int} {x y : Binary64} (hx : ofInt? n = some x)
    (hy : (Number.real y == .int n) = true) : (Number.real x == .int n) = true := by
  obtain ⟨rank, hrank, rfl⟩ := finite_of_ofInt? hx
  obtain ⟨negative, exact, rfl, hunits⟩ := equals_int_iff.mp hy
  have habs : units exact = n.natAbs * unitsInOne := by
    have hnatAbs := congrArg Int.natAbs hunits
    rw [Int.natAbs_mul, Int.natAbs_natCast] at hnatAbs
    cases negative <;> simpa using hnatAbs
  have hU : (unitsInOne : ℚ) ≠ 0 := by exact_mod_cast unitsInOne_pos.ne'
  have hmagnitude : magnitude exact = n.natAbs := by
    rw [magnitude, habs, Nat.cast_mul, mul_div_cancel_right₀ _ hU]
  have hsame := (hmagnitude ▸ isNearest_magnitude exact).unique hrank
  refine equals_int_iff.mpr ⟨_, _, rfl, ?_⟩
  rw [← hsame, habs, Nat.cast_mul]
  by_cases hn : n < 0
  · have hcast : (n.natAbs : Int) = -n := Int.ofNat_natAbs_of_nonpos hn.le
    rw [if_pos (decide_eq_true hn), hcast, Int.neg_mul, Int.neg_neg]
  · have hcast : (n.natAbs : Int) = n := Int.natAbs_of_nonneg (Int.not_lt.mp hn)
    rw [if_neg (by simpa using hn), hcast]

-- Only a finite double is cut off, and it is divided by the units in one.
theorem truncate?_eq_some_iff {x : Binary64} {n : Int} :
    x.truncate? = some n ↔ ∃ negative rank, x = finite negative rank ∧
      n = (if negative then -(units rank : Int) else units rank).tdiv unitsInOne := by
  cases x with
  | nan mark => exact iff_of_false nofun nofun
  | infinite negative => exact iff_of_false nofun nofun
  | finite negative rank =>
      have hsigned : signed negative (units rank / unitsInOne) =
          (if negative then -(units rank : Int) else units rank).tdiv unitsInOne := by
        cases negative with
        | true =>
            rw [if_pos rfl, Int.neg_tdiv]
            rfl
        | false => rfl
      rw [truncate?, Option.some_inj, hsigned]
      constructor
      · exact fun h => ⟨negative, rank, rfl, h.symm⟩
      · rintro ⟨_, _, ⟨⟩, h⟩
        exact h.symm

-- What equals an integer has nothing to cut off.
theorem truncate?_of_equals {x : Binary64} {n : Int} (h : (Number.real x == .int n) = true) :
    x.truncate? = some n := by
  obtain ⟨negative, rank, rfl, hunits⟩ := equals_int_iff.mp h
  have hU : (unitsInOne : Int) ≠ 0 := by exact_mod_cast unitsInOne_pos.ne'
  refine truncate?_eq_some_iff.mpr ⟨negative, rank, rfl, ?_⟩
  rw [hunits, Int.mul_tdiv_cancel _ hU]

theorem truncate?_mono {x y : Binary64} (h : (Number.real x).lt (.real y) = false) {m n : Int}
    (hm : x.truncate? = some m) (hn : y.truncate? = some n) : n ≤ m := by
  obtain ⟨negative, rank, rfl, rfl⟩ := truncate?_eq_some_iff.mp hm
  obtain ⟨negative', rank', rfl, rfl⟩ := truncate?_eq_some_iff.mp hn
  have hU : (0 : Int) < unitsInOne := by exact_mod_cast unitsInOne_pos
  exact Int.tdiv_le_tdiv hU (Int.not_lt.mp (of_decide_eq_false h))

theorem magnitude_two_pow_63 : magnitude ((1085 + 1) * binadeSize) = 2 ^ 63 := by
  have hpow : (2 : ℚ) ^ (52 + 1085) = 2 ^ 63 * 2 ^ 1074 := by rw [← pow_add]
  have hU : (2 : ℚ) ^ 1074 ≠ 0 := pow_ne_zero _ two_ne_zero
  exact mul_right_cancel₀ hU ((magnitude_binade 1085).trans hpow)

theorem two_pow_63_le_iff {rank : Nat} :
    2 ^ 63 ≤ units rank / unitsInOne ↔ (1085 + 1) * binadeSize ≤ rank := by
  have hU : (0 : ℚ) < unitsInOne := by exact_mod_cast unitsInOne_pos
  rw [← magnitude_strictMono.le_iff_le (a := (1085 + 1) * binadeSize), magnitude_two_pow_63,
    magnitude, le_div_iff₀ hU, Nat.le_div_iff_mul_le unitsInOne_pos]
  exact_mod_cast Iff.rfl

-- From some binade on, every step between two doubles is a whole number.
theorem unitsInOne_dvd {exponent rank : Nat} (hexponent : 1074 ≤ exponent)
    (h : (exponent + 1) * binadeSize ≤ rank) : unitsInOne ∣ units rank := by
  have hdm := Nat.div_add_mod' rank binadeSize
  have hm := Nat.mod_lt rank binadeSize_pos
  have hd := (Nat.le_div_iff_mul_le binadeSize_pos).mpr h
  obtain ⟨shift, hshift⟩ := Nat.exists_eq_add_of_le hd
  rw [← hdm, hshift, Nat.add_right_comm exponent 1 shift, units_of_binade hm, unitsInOne_eq]
  exact Dvd.dvd.mul_left (pow_dvd_pow 2 (by omega)) _

-- Doubles as large as this have nothing behind the point.
theorem equals_int_of_truncate? {x : Binary64} {n : Int} (hn : 2 ^ 63 ≤ n)
    (h : x.truncate? = some n) : (Number.real x == .int n) = true := by
  obtain ⟨negative, rank, rfl, hdiv⟩ := truncate?_eq_some_iff.mp h
  have hlarge : 2 ^ 63 ≤ units rank.val / unitsInOne := by
    have habs := Int.natAbs_tdiv (if negative then -(units rank : Int) else units rank) unitsInOne
    rw [← hdiv, Int.natAbs_natCast] at habs
    have hsize : (if negative then -(units rank : Int) else units rank).natAbs = units rank := by
      cases negative <;> simp
    rw [hsize] at habs
    have hn : 2 ^ 63 ≤ n.natAbs := by omega
    exact hn.trans_eq habs
  have hdvd : unitsInOne ∣ units rank := unitsInOne_dvd (by omega) (two_pow_63_le_iff.mp hlarge)
  refine equals_int_iff.mpr ⟨negative, rank, rfl, ?_⟩
  rw [hdiv, Int.tdiv_mul_cancel]
  cases negative with
  | true => exact Int.dvd_neg.mpr (Int.natCast_dvd_natCast.mpr hdvd)
  | false => exact Int.natCast_dvd_natCast.mpr hdvd

-- A power of two is a double, and what lies above it is not rounded below it.
theorem le_of_truncate? {n m : Int} {x : Binary64} (hn : 2 ^ 63 ≤ n) (hx : ofInt? n = some x)
    (hm : x.truncate? = some m) : 2 ^ 63 ≤ m := by
  obtain ⟨rank, hrank, rfl⟩ := finite_of_ofInt? hx
  have hle : (1085 + 1) * binadeSize ≤ rank.val := by
    refine hrank.le_of_magnitude_le (magnitude_two_pow_63.trans_le ?_)
    have hnat : 2 ^ 63 ≤ n.natAbs := by omega
    exact_mod_cast hnat
  have hdiv := two_pow_63_le_iff.mpr hle
  obtain rfl := Option.some.inj hm
  have hnonneg : ¬n < 0 := by omega
  rw [decide_eq_false hnonneg, signed, if_neg Bool.false_ne_true]
  exact_mod_cast hdiv

end Binary64

end Unnest
