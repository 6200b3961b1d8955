import Unnest.Json.Spelling
import Unnest.Proofs.Binary64.Shortest
import Unnest.Proofs.Datum.Display
import Unnest.Proofs.Json.Grammar.Size
import Unnest.Proofs.Text.Digit

namespace Unnest.Json.Grammar

open Binary64

theorem isDigit_digitChar {d : Nat} (h : d < 10) : IsDigit (.char d.digitChar) d := by
  have hall : ∀ d < 10, (CodePoint.char (Nat.digitChar d)).code = 0x30 + d := by decide
  exact ⟨h, hall d h⟩

theorem rightUnique_isDigit : Relator.RightUnique IsDigit := by
  rintro c d e ⟨-, hd⟩ ⟨-, he⟩
  omega

theorem areDigits_zeros (k : Nat) :
    List.Forall₂ IsDigit (List.replicate k (.char '0')) (List.replicate k 0) := by
  induction k with
  | zero => exact .nil
  | succ k ih => exact .cons (isDigit_digitChar (by decide)) ih

theorem decimal_singleton (d : Nat) : decimal [d] = d :=
  Nat.ofDigits_singleton

theorem decimal_zeros (k : Nat) : decimal (List.replicate k 0) = 0 := by
  rw [decimal, List.reverse_replicate, Nat.ofDigits_replicate_zero]

theorem decimal_append_zeros (ds : List Nat) (k : Nat) :
    decimal (ds ++ List.replicate k 0) = decimal ds * 10 ^ k := by
  rw [decimal_append, decimal_zeros, List.length_replicate, Nat.add_zero]

theorem decimal_zeros_append (ds : List Nat) (k : Nat) :
    decimal (List.replicate k 0 ++ ds) = decimal ds := by
  rw [decimal_append, decimal_zeros, Nat.zero_mul, Nat.zero_add]

-- The digits of a number are worth that number.
theorem digits_ofNat (n : Nat) : ∃ ds, AreDigits (Text.ofNat n) ds ∧ decimal ds = n := by
  induction n using Nat.strongRecOn with
  | ind n ih =>
  by_cases hn : n < 10
  · refine ⟨[n], ⟨List.cons_ne_nil _ _, ?_⟩, decimal_singleton n⟩
    rw [Text.ofNat_of_lt hn]
    exact .cons (isDigit_digitChar hn) .nil
  · obtain ⟨ds, ⟨hne, hds⟩, hworth⟩ := ih (n / 10) (by omega)
    have hlast := isDigit_digitChar (Nat.mod_lt n (show 0 < 10 by decide))
    rw [Text.ofNat_of_le (Nat.le_of_not_lt hn)]
    refine ⟨ds ++ [n % 10], ⟨by simp, List.rel_append hds (.cons hlast .nil)⟩, ?_⟩
    rw [decimal_append, hworth, decimal_singleton, List.length_singleton]
    omega

-- There are no zeros in front.
theorem head_ne_zero {n d : Nat} {ds : List Nat} (hn : n ≠ 0)
    (hds : List.Forall₂ IsDigit (Text.ofNat n) (d :: ds)) (hworth : decimal (d :: ds) = n) :
    d ≠ 0 := by
  rintro rfl
  have hlength : digitCount n = ds.length + 1 := by
    rw [digitCount, ← List.length_map (f := CodePoint.char)]
    exact hds.length_eq
  have hlower := pow_digitCount_le hn
  have hupper := decimal_lt fun e he => AreDigits.lt_ten ⟨List.cons_ne_nil _ _, hds⟩ e
    (List.mem_cons_of_mem _ he)
  have hzero : decimal (0 :: ds) = decimal ds := decimal_zeros_append ds 1
  rw [hlength, Nat.add_sub_cancel, ← hworth, hzero] at hlower
  omega

theorem isWhole_ofNat (n : Nat) :
    ∃ ds, IsWhole (Text.ofNat n) ds ∧ decimal ds = n ∧ ds.length = digitCount n := by
  obtain ⟨ds, hds, hworth⟩ := digits_ofNat n
  have hlength : ds.length = digitCount n := by
    rw [← hds.2.length_eq, Text.ofNat, List.length_map, digitCount]
  refine ⟨ds, ?_, hworth, hlength⟩
  by_cases hn : n = 0
  · subst hn
    obtain ⟨d, rfl⟩ := List.length_eq_one_iff.mp hlength
    obtain rfl : d = 0 := (decimal_singleton d).symm.trans hworth
    exact .zero (isDigit_digitChar (by decide))
  · obtain ⟨d, rest, rfl⟩ := List.exists_cons_of_ne_nil hds.1
    exact .other (head_ne_zero hn hds.2 hworth) hds

theorem isSign_sign (negative : Bool) : IsSign (sign negative) negative := by
  cases negative
  · exact .plus
  · exact .minus

theorem ofInt_eq (n : Int) : Text.ofInt n = sign (decide (n < 0)) ++ Text.ofNat n.natAbs := by
  rw [Text.ofInt, sign]
  by_cases hn : n < 0
  · simp only [hn, decide_true, if_true]
    rfl
  · simp only [hn, decide_false, if_false, Bool.false_eq_true, List.nil_append]

theorem isNumber_ofInt (n : Int) : IsNumber (Text.ofInt n) (.int n) (digitCount n.natAbs) := by
  obtain ⟨ds, hwhole, hworth, hlength⟩ := isWhole_ofNat n.natAbs
  have hvalue : (if decide (n < 0) then -(decimal ds : Int) else decimal ds) = n := by
    simp only [decide_eq_true_eq]
    omega
  have hnumber := IsNumber.int (isSign_sign (decide (n < 0))) hwhole
  rwa [hvalue, hlength, ← ofInt_eq] at hnumber

-- A literal without a sign that is no integer, and what it is worth.
inductive IsReal : Text → ℚ → Prop
  | intro {w f e ds fraction exponent} : IsWhole w ds → IsFraction f fraction →
      IsExponent e exponent → fraction.isSome ∨ exponent.isSome →
      IsReal (w ++ f ++ e) (worth ds fraction exponent)

-- All the digits of a literal, and where the point is to be put.
theorem worth_eq (whole : List Nat) (fraction : Option (List Nat)) (exponent : Option Int) :
    worth whole fraction exponent =
      decimal (whole ++ fraction.getD []) *
        10 ^ (exponent.getD 0 - (fraction.getD []).length) := by
  have h := mantissa_mul_scale ⟨false, whole, fraction.getD [], exponent.getD 0⟩
  rw [Numeral.mantissa, natOfDigits_eq_decimal] at h
  exact h.symm

-- What is left out of the digits are zeros.
theorem significant_append (n : Nat) :
    ∃ k, Text.ofNat n = significant n ++ List.replicate k (.char '0') := by
  have hsplit := List.takeWhile_append_dropWhile (p := (· = CodePoint.char '0'))
    (l := (Text.ofNat n).reverse)
  have hzeros := List.eq_replicate_of_mem fun c hc => of_decide_eq_true
    (List.mem_takeWhile_imp (p := (· = CodePoint.char '0')) (l := (Text.ofNat n).reverse) hc)
  rw [hzeros] at hsplit
  exact ⟨_, by rw [significant, ← List.reverse_replicate, ← List.reverse_append, hsplit,
    List.reverse_reverse]⟩

theorem digits_significant {n : Nat} (hn : n ≠ 0) :
    ∃ d ds k, d ≠ 0 ∧ List.Forall₂ IsDigit (significant n) (d :: ds) ∧
      n = decimal (d :: ds) * 10 ^ k ∧ digitCount n = (significant n).length + k := by
  obtain ⟨ds, ⟨-, hds⟩, hworth⟩ := digits_ofNat n
  obtain ⟨k, hk⟩ := significant_append n
  have hlength : digitCount n = (significant n).length + k := by
    have hcount := congrArg List.length hk
    rwa [Text.ofNat, List.length_map, List.length_append, List.length_replicate] at hcount
  -- the digits are told apart from the zeros by where they stand
  have hkept := List.forall₂_take (significant n).length hds
  have hdropped := List.forall₂_drop (significant n).length hds
  rw [hk, List.take_left] at hkept
  rw [hk, List.drop_left] at hdropped
  have hzeros := List.right_unique_forall₂' rightUnique_isDigit hdropped (areDigits_zeros k)
  have hsplit := List.take_append_drop (significant n).length ds
  rw [hzeros] at hsplit
  rw [← hsplit] at hds hworth
  generalize ds.take (significant n).length = kept at hkept hds hworth
  cases kept with
  | nil =>
      rw [List.nil_append, decimal_zeros] at hworth
      exact absurd hworth.symm hn
  | cons d kept =>
      refine ⟨d, kept, k, head_ne_zero hn hds hworth, hkept, ?_, hlength⟩
      rw [← hworth, decimal_append_zeros]

-- A point within or behind digits divides them by a power of ten.
theorem isReal_point {w f : Text} {ws fs : List Nat} (hw : IsWhole w ws) (hf : AreDigits f fs) :
    IsReal (w ++ .char '.' :: f) (decimal (ws ++ fs) * 10 ^ (-(fs.length : Int))) := by
  have h := IsReal.intro hw (.digits hf) .absent (.inl rfl)
  rwa [worth_eq, Option.getD_some, Option.getD_none, zero_sub, List.append_nil] at h

theorem concat_point (w f : Text) : Text.concat [w, ".", f] = w ++ .char '.' :: f := by
  simp [Text.concat, Text.ofString]

variable {digits : Text} {d : Nat} {ds : List Nat} {exponent : Int}

-- All the digits before the point, filled up with zeros, and a zero behind it.
theorem isReal_filled (hd : d ≠ 0) (h : List.Forall₂ IsDigit digits (d :: ds)) (k : Nat) :
    IsReal (digits ++ List.replicate k (.char '0') ++ .char '.' :: "0")
      (decimal (d :: ds) * 10 ^ (k : Int)) := by
  have hwhole : IsWhole (digits ++ List.replicate k (.char '0')) (d :: ds ++ List.replicate k 0) :=
    .other hd ⟨List.cons_ne_nil _ _, List.rel_append h (areDigits_zeros k)⟩
  have hreal := isReal_point hwhole ⟨List.cons_ne_nil _ _, areDigits_zeros 1⟩
  have hworth : (decimal (d :: ds ++ List.replicate k 0 ++ [0]) : ℚ) * 10 ^ (-([0].length : Int)) =
      decimal (d :: ds) * 10 ^ (k : Int) := by
    rw [decimal_append, decimal_append_zeros, decimal_singleton, zpow_natCast]
    push_cast
    simp
  exact hworth ▸ hreal

-- Digits on both sides of the point.
theorem isReal_cut (hd : d ≠ 0) (h : List.Forall₂ IsDigit digits (d :: ds)) {n : Nat}
    (hn : n < ds.length) :
    IsReal (digits.take (n + 1) ++ .char '.' :: digits.drop (n + 1))
      (decimal (d :: ds) * 10 ^ (-((ds.drop n).length : Int))) := by
  have hwhole : IsWhole (digits.take (n + 1)) (d :: ds.take n) :=
    .other hd ⟨List.cons_ne_nil _ _, List.forall₂_take (n + 1) h⟩
  have hne : ds.drop n ≠ [] := by
    rw [Ne, List.drop_eq_nil_iff]
    omega
  have hreal := isReal_point hwhole ⟨hne, List.forall₂_drop (n + 1) h⟩
  rwa [List.cons_append, List.take_append_drop] at hreal

theorem isReal_inside (hd : d ≠ 0) (h : List.Forall₂ IsDigit digits (d :: ds)) (n : Nat) :
    let filled := digits ++ List.replicate (n + 1 - digits.length) (.char '0')
    let fraction := filled.drop (n + 1)
    IsReal (.concat [filled.take (n + 1), ".", if fraction.isEmpty then "0" else fraction])
      (decimal (d :: ds) * 10 ^ (n + 1 - digits.length : Int)) := by
  intro filled fraction
  have hlength : digits.length = ds.length + 1 := h.length_eq
  rw [concat_point]
  by_cases hfew : digits.length ≤ n + 1
  · have hcount : filled.length = n + 1 := by
      rw [List.length_append, List.length_replicate]
      omega
    have hscale : (n + 1 - digits.length : Int) = (n + 1 - digits.length : Nat) := by omega
    rw [show fraction = [] from List.drop_eq_nil_of_le hcount.le, List.take_of_length_le hcount.le,
      hscale]
    exact isReal_filled hd h _
  · have hnone : n + 1 - digits.length = 0 := by omega
    have hfilled : filled = digits := by
      simp only [filled, hnone, List.replicate_zero, List.append_nil]
    have hfraction : fraction.isEmpty = false := by
      rw [List.isEmpty_eq_false_iff, Ne, List.drop_eq_nil_iff, hfilled]
      omega
    have hscale : (n + 1 - digits.length : Int) = -((ds.drop n).length : Int) := by
      rw [List.length_drop]
      omega
    rw [if_neg (by rw [hfraction]; decide), hscale]
    simp only [fraction, hfilled]
    exact isReal_cut hd h (by omega)

-- Zeros between the point and the digits.
theorem isReal_below (h : List.Forall₂ IsDigit digits (d :: ds)) (hexponent : exponent < 0) :
    IsReal (.concat ["0.", List.replicate ((-exponent).toNat - 1) (.char '0'), digits])
      (decimal (d :: ds) * 10 ^ (exponent + 1 - digits.length)) := by
  obtain ⟨n, rfl⟩ : ∃ n : Nat, exponent = -(n + 1 : Nat) := ⟨(-exponent).toNat - 1, by omega⟩
  have hzero : IsWhole "0" [0] := .zero (isDigit_digitChar (by decide))
  have hreal := isReal_point hzero ⟨by simp, List.rel_append (areDigits_zeros n) h⟩
  have hworth : decimal ([0] ++ (List.replicate n 0 ++ d :: ds)) = decimal (d :: ds) := by
    rw [← List.append_assoc, ← List.replicate_one, List.replicate_append_replicate,
      decimal_zeros_append]
  have hscale : (-(n + 1 : Nat) + 1 - digits.length : Int) =
      -((List.replicate n 0 ++ d :: ds).length : Int) := by
    rw [h.length_eq, List.length_append, List.length_replicate]
    omega
  rw [hscale, ← hworth, neg_neg, Int.toNat_natCast, Nat.add_sub_cancel]
  simpa [Text.concat, Text.ofString] using hreal

-- An exponent with a sign and at least two digits.
theorem isExponent_signed (exponent : Int) (k : Nat) :
    IsExponent ((if exponent < 0 then "e-" else "e+" : Text) ++
      (List.replicate k (.char '0') ++ Text.ofNat exponent.natAbs)) (some exponent) := by
  obtain ⟨ps, ⟨hne, hps⟩, hworth⟩ := digits_ofNat exponent.natAbs
  have hall : AreDigits (List.replicate k (.char '0') ++ Text.ofNat exponent.natAbs)
      (List.replicate k 0 ++ ps) := ⟨by simp [hne], List.rel_append (areDigits_zeros k) hps⟩
  rw [← decimal_zeros_append ps k] at hworth
  split
  · obtain rfl : exponent = -decimal (List.replicate k 0 ++ ps) := by omega
    exact .down (.inl rfl) hall
  · obtain rfl : exponent = decimal (List.replicate k 0 ++ ps) := by omega
    exact .up (.inl rfl) hall

-- Digits with the point behind the first of them, if there are more, and a power of ten.
theorem isReal_scientific (hd : d ≠ 0) (h : List.Forall₂ IsDigit digits (d :: ds))
    (exponent : Int) :
    let power := Text.ofNat exponent.natAbs
    IsReal (.concat [digits.take 1, if digits.length ≤ 1 then [] else ".", digits.drop 1,
        if exponent < 0 then "e-" else "e+", List.replicate (2 - power.length) (.char '0'), power])
      (decimal (d :: ds) * 10 ^ (exponent + 1 - digits.length)) := by
  intro power
  cases h with
  | @cons c _ t _ hc ht =>
  have hwhole : IsWhole [c] [d] := .other hd ⟨List.cons_ne_nil _ _, .cons hc .nil⟩
  obtain ⟨fraction, hfraction, hdigits⟩ : ∃ fraction, IsFraction
      ((if (c :: t).length ≤ 1 then [] else ".") ++ t) fraction ∧ fraction.getD [] = ds := by
    cases ht with
    | nil => exact ⟨none, .absent, rfl⟩
    | cons he ht => exact ⟨_, .digits ⟨List.cons_ne_nil _ _, .cons he ht⟩, rfl⟩
  have hreal := IsReal.intro hwhole hfraction (isExponent_signed exponent (2 - power.length))
    (.inr rfl)
  have hscale : exponent + 1 - (c :: t).length = exponent - ds.length := by
    rw [List.length_cons, ht.length_eq]
    omega
  rw [worth_eq, hdigits, Option.getD_some, ← hscale] at hreal
  simpa [Text.concat] using hreal

theorem isReal_layOut (hd : d ≠ 0) (h : List.Forall₂ IsDigit digits (d :: ds)) (exponent : Int) :
    IsReal (layOut digits exponent)
      (decimal (d :: ds) * 10 ^ (exponent + 1 - digits.length)) := by
  unfold layOut
  split
  · next hrange =>
    obtain ⟨n, rfl⟩ := Int.eq_ofNat_of_zero_le hrange.1
    exact isReal_inside hd h n
  split
  · next hrange => exact isReal_below h hrange.2
  · exact isReal_scientific hd h exponent

theorem isReal_zero : IsReal "0.0" 0 := by
  have hdigit : IsDigit (.char '0') 0 := isDigit_digitChar (by decide)
  have hreal := isReal_point (.zero hdigit) ⟨List.cons_ne_nil _ _, .cons hdigit .nil⟩
  have hworth : decimal ([0] ++ [0]) = 0 := decimal_zeros 2
  rwa [hworth, Nat.cast_zero, zero_mul] at hreal

-- The digits that are found for a double are laid out as a literal of the same worth.
theorem isReal_shortest {n : Nat} (hn : n ≠ 0) (scale : Int) :
    IsReal (layOut (significant n) (digitCount n + scale - 1)) (n * 10 ^ scale) := by
  obtain ⟨d, ds, k, hd, hds, hvalue, hcount⟩ := digits_significant hn
  have hreal := isReal_layOut hd hds (digitCount n + scale - 1)
  have hscale : (digitCount n + scale - 1 + 1 - (significant n).length : Int) = k + scale := by
    rw [hcount]
    omega
  have hworth : (n : ℚ) = decimal (d :: ds) * 10 ^ k := by exact_mod_cast hvalue
  rwa [hscale, zpow_add₀ (by norm_num), zpow_natCast, ← mul_assoc, ← hworth] at hreal

-- A finite double is written as a literal that it is nearest to.
theorem isNumber_text (negative : Bool) (rank : Fin finiteRanks) :
    IsNumber (finite negative rank).text (.real (finite negative rank)) 0 := by
  have hfinite : finite negative rank = ofRank negative rank := by
    rw [ofRank, dif_pos rank.isLt]
  obtain ⟨t, q, ht, hreal, hnearest⟩ : ∃ t q, (finite negative rank).text = sign negative ++ t ∧
      IsReal t q ∧ IsNearest q rank := by
    by_cases hzero : rank.val = 0
    · refine ⟨_, _, ?_, isReal_zero, ?_⟩
      · rw [text, if_pos hzero]
        exact congrArg _ (List.append_nil _)
      · rw [hzero]
        exact isNearest_zero_zero
    · obtain ⟨hne, hnearest⟩ := shortest_reads (Nat.pos_of_ne_zero hzero) rank.isLt
      rcases hshortest : shortest rank with ⟨digits, scale⟩
      rw [hshortest] at hne hnearest
      refine ⟨_, _, ?_, isReal_shortest hne scale, hnearest⟩
      rw [text, if_neg hzero, hshortest]
  rw [ht]
  obtain ⟨hw, hf, he, hsome⟩ := hreal
  simpa only [List.append_assoc] using
    IsNumber.real (isSign_sign negative) hw hf he hsome ⟨rank, hnearest, hfinite⟩

-- A number that can be read is spelled as it can be read, unless it is infinite.
theorem IsRead.spelling {n : Number} (h : IsRead n) :
    (∃ negative, n = .real (.infinite negative)) ∨
      ∃ t k, n.spelling = .ok t ∧ IsNumber t n k ∧ k ≤ maxNumeralDigits := by
  obtain ⟨t, k, ht, hk⟩ := h
  cases n with
  | int n =>
      have hspellable := ht.spellable hk
      exact .inr ⟨_, _, numeral_of_spellable hspellable, isNumber_ofInt n, hspellable⟩
  | real x =>
      cases x with
      | infinite negative => exact .inl ⟨negative, rfl⟩
      | finite negative rank =>
          exact .inr ⟨_, 0, rfl, isNumber_text negative rank, Nat.zero_le _⟩
      | nan mark =>
          -- no literal is rounded to a NaN
          generalize hn : Number.real (.nan mark) = n at ht
          cases ht with
          | int => cases hn
          | real _ _ _ _ _ hrounds =>
              obtain ⟨rank, -, rfl⟩ := hrounds
              rw [ofRank] at hn
              split at hn <;> cases hn

end Unnest.Json.Grammar
