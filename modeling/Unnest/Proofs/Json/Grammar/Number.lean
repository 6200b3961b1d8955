import Mathlib.Data.Nat.Digits.Lemmas
import Unnest.Json.Decoder
import Unnest.Proofs.Json.Grammar.Basic

namespace Unnest.Json

namespace Grammar

theorem asciiDigit?_eq_some_iff {c : CodePoint} {d : Nat} :
    c.asciiDigit? = some d ↔ IsDigit c d := by
  unfold CodePoint.asciiDigit? IsDigit
  split
  · rw [Option.some.injEq]
    omega
  · simp only [reduceCtorEq, false_iff]
    omega

theorem natOfDigits_eq_decimal (ds : List Nat) : natOfDigits ds = decimal ds := by
  rw [decimal, Nat.ofDigits_eq_foldr, List.foldr_reverse, natOfDigits]
  congr 1
  funext n d
  exact Nat.add_comm _ _

theorem decimal_append (ds es : List Nat) :
    decimal (ds ++ es) = decimal ds * 10 ^ es.length + decimal es := by
  rw [decimal, List.reverse_append, Nat.ofDigits_append, List.length_reverse, Nat.add_comm,
    Nat.mul_comm]
  rfl

-- The text goes on with no digit.
def NoDigit (s : Text) : Prop :=
  ∀ c ∈ s.head?, c.asciiDigit? = none

theorem spanDigits_sound {s rest : Text} {ds : List Nat}
    (h : spanDigits CodePoint.asciiDigit? s = (ds, rest)) :
    ∃ t, s = t ++ rest ∧ List.Forall₂ IsDigit t ds := by
  induction s generalizing ds with
  | nil =>
      obtain ⟨rfl, rfl⟩ := Prod.mk.inj h
      exact ⟨[], rfl, .nil⟩
  | cons c s ih =>
      simp only [spanDigits] at h
      split at h
      · obtain ⟨rfl, rfl⟩ := Prod.mk.inj h
        exact ⟨[], rfl, .nil⟩
      · next d hd =>
        obtain ⟨rfl, rfl⟩ := Prod.mk.inj h
        obtain ⟨t, hs, ht⟩ := ih rfl
        exact ⟨c :: t, congrArg (c :: ·) hs, .cons (asciiDigit?_eq_some_iff.mp hd) ht⟩

theorem spanDigits_append {t rest : Text} {ds : List Nat} (ht : List.Forall₂ IsDigit t ds)
    (hrest : NoDigit rest) : spanDigits CodePoint.asciiDigit? (t ++ rest) = (ds, rest) := by
  induction ht with
  | nil =>
      cases rest with
      | nil => rfl
      | cons c rest => simp only [List.nil_append, spanDigits, hrest c rfl]
  | cons hd _ ih =>
      simp only [List.cons_append, spanDigits, asciiDigit?_eq_some_iff.mpr hd, ih]

theorem IsWhole.cons {t : Text} {ds : List Nat} (h : IsWhole t ds) :
    ∃ c u d es, t = c :: u ∧ ds = d :: es ∧ IsDigit c d := by
  cases h with
  | zero hc => exact ⟨_, _, _, _, rfl, rfl, hc⟩
  | other _ ht =>
      obtain ⟨c, u, hc, _, rfl⟩ := List.forall₂_cons_right_iff.mp ht.2
      exact ⟨c, u, _, _, rfl, rfl, hc⟩

theorem scanWhole_sound {s rest : Text} {ds : List Nat}
    (h : Decoder.scanWhole s = some (ds, rest)) :
    ∃ t, s = t ++ rest ∧ IsWhole t ds := by
  unfold Decoder.scanWhole at h
  split at h
  · cases h
  · next c s =>
    split at h
    · cases h
    · next hc =>
      obtain ⟨rfl, rfl⟩ := Prod.mk.inj (Option.some.inj h)
      exact ⟨[c], rfl, .zero (asciiDigit?_eq_some_iff.mp hc)⟩
    · next d hd hc =>
      obtain ⟨t, hs, ht⟩ := spanDigits_sound (Option.some.inj h)
      simp only [spanDigits, hc, Option.some.injEq, Prod.mk.injEq] at h
      obtain ⟨rfl, -⟩ := h
      exact ⟨t, hs, .other hd ⟨List.cons_ne_nil _ _, ht⟩⟩

theorem scanWhole_append {t rest : Text} {ds : List Nat} (ht : IsWhole t ds)
    (hrest : NoDigit rest) : Decoder.scanWhole (t ++ rest) = some (ds, rest) := by
  cases ht with
  | zero hc => simp [Decoder.scanWhole, asciiDigit?_eq_some_iff.mpr hc]
  | @other t d es hd ht =>
      obtain ⟨c, u, hc, hu, rfl⟩ := List.forall₂_cons_right_iff.mp ht.2
      have hspan := spanDigits_append ht.2 hrest
      rw [List.cons_append] at hspan ⊢
      unfold Decoder.scanWhole
      simp only [asciiDigit?_eq_some_iff.mpr hc, hspan]

theorem scanFraction_sound {s rest : Text} {fraction : Option (List Nat)}
    (h : Decoder.scanFraction s = (fraction, rest)) :
    ∃ t, s = t ++ rest ∧ IsFraction t fraction := by
  unfold Decoder.scanFraction at h
  split at h
  · next s =>
    split at h
    · obtain ⟨rfl, rfl⟩ := Prod.mk.inj h
      exact ⟨[], rfl, .absent⟩
    · next ds _ hne hspan =>
      obtain ⟨rfl, rfl⟩ := Prod.mk.inj h
      obtain ⟨t, rfl, ht⟩ := spanDigits_sound hspan
      exact ⟨.char '.' :: t, rfl, .digits ⟨hne, ht⟩⟩
  · obtain ⟨rfl, rfl⟩ := Prod.mk.inj h
    exact ⟨[], rfl, .absent⟩

theorem scanFraction_append {t rest : Text} {fraction : Option (List Nat)}
    (ht : IsFraction t fraction) (hrest : NoDigit rest) (hpoint : rest.head? ≠ some (.char '.')) :
    Decoder.scanFraction (t ++ rest) = (fraction, rest) := by
  cases ht with
  | absent =>
      rw [List.nil_append]
      unfold Decoder.scanFraction
      split
      · exact absurd List.head?_cons hpoint
      · rfl
  | digits ht =>
      have hspan := spanDigits_append ht.2 hrest
      simp only [Decoder.scanFraction, List.cons_append, hspan]
      split
      · next h0 => exact absurd (Prod.mk.inj h0).1 ht.1
      · next h0 =>
        obtain ⟨rfl, rfl⟩ := Prod.mk.inj h0
        rfl

theorem spanSign_cases (s : Text) :
    (∃ t, s = .char '-' :: t ∧ spanSign s = (true, t)) ∨
      (∃ t, s = .char '+' :: t ∧ spanSign s = (false, t)) ∨ spanSign s = (false, s) := by
  unfold spanSign
  split
  · exact .inl ⟨_, rfl, rfl⟩
  · exact .inr (.inl ⟨_, rfl, rfl⟩)
  · exact .inr (.inr rfl)

theorem scanExponent_sound {s rest : Text} {exponent : Option Int}
    (h : Decoder.scanExponent s = (exponent, rest)) :
    ∃ t, s = t ++ rest ∧ IsExponent t exponent := by
  unfold Decoder.scanExponent at h
  split at h
  · obtain ⟨rfl, rfl⟩ := Prod.mk.inj h
    exact ⟨[], rfl, .absent⟩
  · next e s =>
    split at h
    · next he =>
      simp only at h
      split at h
      · obtain ⟨rfl, rfl⟩ := Prod.mk.inj h
        exact ⟨[], rfl, .absent⟩
      · next ds _ hne hspan =>
        obtain ⟨rfl, rfl⟩ := Prod.mk.inj h
        obtain ⟨t, hs, ht⟩ := spanDigits_sound hspan
        have hds : AreDigits t ds := ⟨hne, ht⟩
        rw [natOfDigits_eq_decimal]
        rcases spanSign_cases s with ⟨u, rfl, hsign⟩ | ⟨u, rfl, hsign⟩ | hsign
        · rw [hsign] at hs ⊢
          exact ⟨e :: .char '-' :: t, by simp [← hs], .down he hds⟩
        · rw [hsign] at hs ⊢
          exact ⟨e :: .char '+' :: t, by simp [← hs], .up he hds⟩
        · rw [hsign] at hs ⊢
          exact ⟨e :: t, by simp [← hs], .unsigned he hds⟩
    · obtain ⟨rfl, rfl⟩ := Prod.mk.inj h
      exact ⟨[], rfl, .absent⟩

theorem AreDigits.head {t : Text} {ds : List Nat} (h : AreDigits t ds) :
    ∃ c u d, t = c :: u ∧ IsDigit c d := by
  obtain ⟨hne, ht⟩ := h
  cases ht with
  | nil => exact absurd rfl hne
  | cons hc _ => exact ⟨_, _, _, rfl, hc⟩

theorem IsDigit.ne_sign {c : CodePoint} {d : Nat} (h : IsDigit c d) :
    c ≠ .char '-' ∧ c ≠ .char '+' := by
  obtain ⟨_, hc⟩ := h
  constructor <;> rintro rfl <;> exact absurd hc (by decide +revert)

theorem spanSign_digits {t rest : Text} {ds : List Nat} (ht : AreDigits t ds) :
    spanSign (t ++ rest) = (false, t ++ rest) := by
  obtain ⟨c, u, d, rfl, hc⟩ := ht.head
  unfold spanSign
  split
  · next h => exact absurd (List.cons.inj h).1 hc.ne_sign.1
  · next h => exact absurd (List.cons.inj h).1 hc.ne_sign.2
  · rfl

theorem scanExponent_append {t rest : Text} {exponent : Option Int}
    (ht : IsExponent t exponent) (hrest : NoDigit rest) (hlower : rest.head? ≠ some (.char 'e'))
    (hupper : rest.head? ≠ some (.char 'E')) :
    Decoder.scanExponent (t ++ rest) = (exponent, rest) := by
  -- what follows the mark is a sign or none, and digits
  have hmark {e : CodePoint} {t u : Text} {ds : List Nat} {down : Bool}
      (he : e = .char 'e' ∨ e = .char 'E') (ht : AreDigits t ds)
      (hu : spanSign (u ++ rest) = (down, t ++ rest)) :
      Decoder.scanExponent (e :: u ++ rest) =
        (some (if down then -(decimal ds : Int) else decimal ds), rest) := by
    simp only [Decoder.scanExponent, List.cons_append, if_pos he, hu,
      spanDigits_append ht.2 hrest, natOfDigits_eq_decimal]
    split
    · next h0 => exact absurd (Prod.mk.inj h0).1 ht.1
    · next h0 =>
      obtain ⟨rfl, rfl⟩ := Prod.mk.inj h0
      rfl
  cases ht with
  | absent =>
      cases rest with
      | nil => rfl
      | cons c rest =>
          have hc : ¬(c = .char 'e' ∨ c = .char 'E') := by
            simpa using And.intro hlower hupper
          simp only [List.nil_append, Decoder.scanExponent, if_neg hc]
  | unsigned he hds => exact hmark he hds (spanSign_digits hds)
  | @up e t ds he hds => exact @hmark e t (.char '+' :: t) ds false he hds rfl
  | @down e t ds he hds => exact @hmark e t (.char '-' :: t) ds true he hds rfl

-- A numeral is worth what its parts are worth.
theorem mantissa_mul_scale (n : Numeral) :
    (n.mantissa : ℚ) * 10 ^ n.scale =
      (decimal n.whole + decimal n.fraction / 10 ^ n.fraction.length) * 10 ^ n.exponent := by
  have hten : (10 : ℚ) ≠ 0 := by norm_num
  have hpow : (10 : ℚ) ^ n.fraction.length ≠ 0 := pow_ne_zero _ hten
  rw [Numeral.mantissa, Numeral.scale, natOfDigits_eq_decimal, decimal_append, zpow_sub₀ hten,
    zpow_natCast]
  push_cast
  field_simp

theorem rounds_ofNumeral (negative : Bool) (whole : List Nat) (fraction : Option (List Nat))
    (exponent : Option Int) :
    Binary64.Rounds negative (worth whole fraction exponent)
      (.ofNumeral ⟨negative, whole, fraction.getD [], exponent.getD 0⟩) := by
  have h := Binary64.rounds_ofDecimal negative
    (Numeral.mantissa ⟨negative, whole, fraction.getD [], exponent.getD 0⟩)
    (Numeral.scale ⟨negative, whole, fraction.getD [], exponent.getD 0⟩)
  rwa [mantissa_mul_scale] at h

theorem scanNumber_sound {s rest : Text} {n : Number}
    (h : Decoder.scanNumber s = .ok (n, rest)) :
    ∃ t k, s = t ++ rest ∧ IsNumber t n k ∧ k ≤ maxNumeralDigits := by
  unfold Decoder.scanNumber at h
  split at h
  next negative u hu =>
  obtain ⟨sign, rfl, hsign⟩ : ∃ sign, s = sign ++ u ∧ IsSign sign negative := by
    split at hu
    · obtain ⟨rfl, rfl⟩ := Prod.mk.inj hu
      exact ⟨[.char '-'], rfl, .minus⟩
    · obtain ⟨rfl, rfl⟩ := Prod.mk.inj hu
      exact ⟨[], rfl, .plus⟩
  split at h
  · cases h
  · next ds after hwhole =>
    obtain ⟨w, rfl, hw⟩ := scanWhole_sound hwhole
    rcases hfraction : Decoder.scanFraction after with ⟨fraction, afterFraction⟩
    obtain ⟨f, rfl, hf⟩ := scanFraction_sound hfraction
    rcases hexponent : Decoder.scanExponent afterFraction with ⟨exponent, afterExponent⟩
    obtain ⟨e, rfl, he⟩ := scanExponent_sound hexponent
    simp only [hfraction, hexponent] at h
    split at h
    · split at h
      · cases h
      · next hlong =>
        obtain ⟨rfl, rfl⟩ := Prod.mk.inj (Except.ok.inj h)
        cases hf
        cases he
        rw [natOfDigits_eq_decimal]
        exact ⟨sign ++ w, _, by simp, .int hsign hw, Nat.le_of_not_lt hlong⟩
    · next hpart =>
      obtain ⟨rfl, rfl⟩ := Prod.mk.inj (Except.ok.inj h)
      have hsome : fraction.isSome ∨ exponent.isSome := by
        cases fraction with
        | some _ => exact .inl rfl
        | none =>
            cases exponent with
            | some _ => exact .inr rfl
            | none => exact absurd rfl (hpart rfl)
      exact ⟨sign ++ w ++ f ++ e, 0, by simp,
        .real hsign hw hf he hsome (rounds_ofNumeral negative ds fraction exponent),
        Nat.zero_le _⟩

-- What may follow a value: nothing, a blank, a comma or a closing bracket.
def Delimited (s : Text) : Prop :=
  ∀ c ∈ s.head?, IsBlank c ∨ c = .char ',' ∨ c = .char ']' ∨ c = .char '\x7d'

theorem Delimited.noDigit {s : Text} (h : Delimited s) : NoDigit s := by
  intro c hc
  rcases h c hc with (rfl | rfl | rfl | rfl) | rfl | rfl | rfl <;> rfl

theorem Delimited.head?_ne {s : Text} (h : Delimited s) {c : CodePoint}
    (hc : c = .char '.' ∨ c = .char 'e' ∨ c = .char 'E') : s.head? ≠ some c := by
  intro hs
  rcases h c hs with (rfl | rfl | rfl | rfl) | rfl | rfl | rfl <;> revert hc <;> decide

-- What an outcome is like that depends on no integer literal being too long.
def Reads (k : Nat) (outcome : Except ε α) (a : α) : Prop :=
  (k ≤ maxNumeralDigits → outcome = .ok a) ∧ (maxNumeralDigits < k → ∃ e, outcome = .error e)

theorem IsExponent.noDigit {e rest : Text} {exponent : Option Int} (he : IsExponent e exponent)
    (hrest : Delimited rest) :
    NoDigit (e ++ rest) ∧ (e ++ rest).head? ≠ some (.char '.') := by
  cases he with
  | absent => exact ⟨hrest.noDigit, hrest.head?_ne (.inl rfl)⟩
  | unsigned hm _ | up hm _ | down hm _ =>
      rcases hm with rfl | rfl <;>
        exact ⟨fun c hc => by obtain rfl := Option.some.inj hc; rfl, by simp⟩

theorem IsFraction.noDigit {f rest : Text} {fraction : Option (List Nat)}
    (hf : IsFraction f fraction) (hrest : NoDigit rest) : NoDigit (f ++ rest) := by
  cases hf with
  | absent => exact hrest
  | digits _ =>
      intro c hc
      obtain rfl := Option.some.inj hc
      rfl

-- The parts of a number are found one after the other.
theorem scan_parts {w f e rest : Text} {ds : List Nat} {fraction : Option (List Nat)}
    {exponent : Option Int} (hw : IsWhole w ds) (hf : IsFraction f fraction)
    (he : IsExponent e exponent) (hrest : Delimited rest) :
    Decoder.scanWhole (w ++ (f ++ (e ++ rest))) = some (ds, f ++ (e ++ rest)) ∧
      Decoder.scanFraction (f ++ (e ++ rest)) = (fraction, e ++ rest) ∧
      Decoder.scanExponent (e ++ rest) = (exponent, rest) := by
  obtain ⟨hdigit, hpoint⟩ := he.noDigit hrest
  exact ⟨scanWhole_append hw (hf.noDigit hdigit), scanFraction_append hf hdigit hpoint,
    scanExponent_append he hrest.noDigit (hrest.head?_ne (.inr (.inl rfl)))
      (hrest.head?_ne (.inr (.inr rfl)))⟩

-- A minus is found only where there is one, as a number goes on with a digit.
theorem spanMinus_append {sign u : Text} {negative : Bool} (hsign : IsSign sign negative)
    (hu : u.head? ≠ some (.char '-')) :
    (match sign ++ u with
      | .char '-' :: rest => (true, rest)
      | _ => (false, sign ++ u)) = (negative, u) := by
  cases hsign with
  | minus => rfl
  | plus =>
      rw [List.nil_append]
      split
      · exact absurd List.head?_cons hu
      · rfl

theorem IsWhole.head?_ne {w : Text} {ds : List Nat} (hw : IsWhole w ds) (rest : Text) :
    (w ++ rest).head? ≠ some (.char '-') := by
  obtain ⟨c, u, d, es, rfl, -, hc⟩ := hw.cons
  simpa using hc.ne_sign.1

theorem scanNumber_append {t rest : Text} {n : Number} {k : Nat} (ht : IsNumber t n k)
    (hrest : Delimited rest) : Reads k (Decoder.scanNumber (t ++ rest)) (n, rest) := by
  cases ht with
  | @int s w negative ds hsign hw =>
      obtain ⟨hwhole, hfraction, hexponent⟩ := scan_parts hw .absent .absent hrest
      have hminus := spanMinus_append hsign (hw.head?_ne rest)
      simp only [List.nil_append] at hwhole hfraction hexponent
      rw [List.append_assoc]
      unfold Decoder.scanNumber
      split
      next _ u hu =>
      obtain ⟨rfl, rfl⟩ := Prod.mk.inj (hu.symm.trans hminus)
      simp only [hwhole, hfraction, hexponent, natOfDigits_eq_decimal]
      exact ⟨fun h => if_neg (Nat.not_lt.mpr h), fun h => ⟨_, if_pos h⟩⟩
  | @real s w f e negative ds fraction exponent x hsign hw hf he hsome hx =>
      obtain ⟨hwhole, hfraction, hexponent⟩ := scan_parts hw hf he hrest
      have hminus := spanMinus_append hsign (hw.head?_ne (f ++ (e ++ rest)))
      obtain rfl := hx.unique (rounds_ofNumeral negative ds fraction exponent)
      simp only [List.append_assoc]
      unfold Decoder.scanNumber
      split
      next _ u hu =>
      obtain ⟨rfl, rfl⟩ := Prod.mk.inj (hu.symm.trans hminus)
      simp only [hwhole, hfraction, hexponent]
      refine ⟨fun _ => ?_, fun h => absurd h (Nat.not_lt_zero _)⟩
      split
      · simp at hsome
      · rfl

end Grammar

end Unnest.Json
