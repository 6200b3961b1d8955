import Mathlib.Data.List.TakeWhile
import Unnest.Json.Spelling
import Unnest.Proofs.Datum.Display
import Unnest.Proofs.Text.Digit
import Unnest.Proofs.Text.Figures

namespace Unnest

namespace Text

theorem trimBy_append {p : CodePoint → Bool} {before after : Text}
    (hbefore : ∀ c ∈ before, p c = true) (hafter : ∀ c ∈ after, p c = true) (t : Text) :
    (before ++ t ++ after).trimBy p = t.trimBy p := by
  have hnone : after.dropWhile p = [] := List.dropWhile_eq_nil_iff.mpr hafter
  have hreverse : ∀ c ∈ after.reverse, p c = true := fun c hc =>
    hafter c (List.mem_reverse.mp hc)
  rw [trimBy, trimBy, List.append_assoc, List.dropWhile_append_of_pos hbefore,
    List.dropWhile_append]
  split
  · next hempty => rw [List.isEmpty_iff.mp hempty, hnone]
  · rw [List.reverse_append, List.dropWhile_append_of_pos hreverse]

theorem trimBy_eq_self {p : CodePoint → Bool} {t : Text} (h : ∀ c ∈ t, p c = false) :
    t.trimBy p = t := by
  have hkept (l : Text) (hl : ∀ c ∈ l, p c = false) : l.dropWhile p = l := by
    cases l with
    | nil => rfl
    | cons c l => exact List.dropWhile_cons_of_neg (by simp [hl c List.mem_cons_self])
  rw [trimBy, hkept t h, hkept _ fun c hc => h c (List.mem_reverse.mp hc), List.reverse_reverse]

theorem ungroup?_of_not_mem {t : Text} (h : .char '_' ∉ t) : t.ungroup? = some t := by
  have hgo (afterDigit : Bool) (t : Text) (h : .char '_' ∉ t) :
      ungroup?.go afterDigit t = some t := by
    fun_induction ungroup?.go afterDigit t with
    | case1 => rfl
    | case2 | case3 | case4 | case5 | case6 => simp_all
  exact hgo false t h

theorem OnlyDigits.spanDigits {t : Text} (h : t.OnlyDigits) :
    spanDigits CodePoint.digit? t = (t.filterMap CodePoint.digit?, []) := by
  obtain ⟨-, hdigits⟩ := h
  induction t with
  | nil => rfl
  | cons c t ih =>
      obtain ⟨hc, ht⟩ := List.forall_mem_cons.mp hdigits
      obtain ⟨d, hd⟩ := Option.isSome_iff_exists.mp hc
      simp only [Unnest.spanDigits, hd, ih ht, List.filterMap_cons]

-- Digits carry no sign.
theorem OnlyDigits.spanSign {t : Text} (h : t.OnlyDigits) : spanSign t = (false, t) := by
  have hminus : (CodePoint.char '-').digit? = none := by decide
  have hplus : (CodePoint.char '+').digit? = none := by decide
  unfold Unnest.spanSign
  split
  · simpa [hminus] using h.digits _ List.mem_cons_self
  · simpa [hplus] using h.digits _ List.mem_cons_self
  · rfl

theorem spanSign_ofInt (n : Int) : spanSign (ofInt n) = (decide (n < 0), ofNat n.natAbs) := by
  by_cases hn : n < 0
  · simp [ofInt, hn, Unnest.spanSign]
  · simp [ofInt, hn, (ofNat_digits n.natAbs).1.spanSign]

-- The digits of an integer that has been written are read again.
theorem integer?_ofInt (n : Int) :
    (ofInt n).integer? = some (decide (n < 0), (ofNat n.natAbs).filterMap CodePoint.digit?) := by
  have hfigures := figures_ofInt n
  have hplain : .char '_' ∉ ofInt n := fun hmem => absurd (hfigures _ hmem) (by decide)
  obtain ⟨honly, -⟩ := ofNat_digits n.natAbs
  have hne : (ofNat n.natAbs).filterMap CodePoint.digit? ≠ [] := by
    obtain ⟨c, t, hct⟩ := List.exists_cons_of_ne_nil honly.ne_nil
    obtain ⟨d, hd⟩ := Option.isSome_iff_exists.mp (honly.digits c (by simp [hct]))
    simp [hct, hd]
  obtain ⟨d, digits, hdigits⟩ := List.exists_cons_of_ne_nil hne
  simp only [integer?, ungroup?_of_not_mem hplain, spanSign_ofInt, honly.spanDigits, hdigits]

end Text

theorem CodePoint.IsFigure.not_isBlank {c : CodePoint} (h : c.IsFigure) : c.isBlank = false := by
  rcases h with hdigit | hmem
  · simp only [isBlank]
    have hcode := hdigit
    generalize c.code = n at hcode ⊢
    simp only [Bool.or_eq_false_iff, Bool.and_eq_false_iff, decide_eq_false_iff_not,
      beq_eq_false_iff_ne]
    omega
  · have hall : ∀ c ∈ ("+-.aefin" : Text), c.isBlank = false := by decide
    exact hall c hmem

namespace Json

-- What is an integer once the blanks are gone is read as one, unless it is too long.
theorem readNumber_ofInt {n : Int} (h : Spellable n) :
    readNumber (Text.ofInt n) = some (.int n) := by
  have htrim : (Text.ofInt n).trim = Text.ofInt n :=
    Text.trimBy_eq_self fun c hc => (Text.figures_ofInt n c hc).not_isBlank
  obtain ⟨honly, hworth⟩ := Text.ofNat_digits n.natAbs
  have hlength : ((Text.ofNat n.natAbs).filterMap CodePoint.digit?).length ≤ maxNumeralDigits := by
    refine (List.length_filterMap_le _ _).trans ?_
    rwa [Text.ofNat, List.length_map]
  have hvalue : natOfDigits ((Text.ofNat n.natAbs).filterMap CodePoint.digit?) = n.natAbs := hworth
  simp only [readNumber, htrim, Text.integer?_ofInt, if_pos hlength, hvalue]
  by_cases hn : n < 0
  · simp [hn, abs_of_neg hn]
  · simp [hn]
    omega

-- Blanks around a text make no difference to what is read.
theorem read_append {before after : Text} (hbefore : before.isBlank = true)
    (hafter : after.isBlank = true) (t : Text) :
    readNumber (before ++ t ++ after) = readNumber t ∧
      readLogical (before ++ t ++ after) = readLogical t := by
  have htrim : (before ++ t ++ after).trim = t.trim :=
    Text.trimBy_append (List.all_eq_true.mp hbefore) (List.all_eq_true.mp hafter) t
  constructor
  · rw [readNumber, readNumber, htrim]
  · rw [readLogical, readLogical, htrim]

theorem readLogical_logicalSpelling (b : Bool) : readLogical (logicalSpelling b) = some b := by
  cases b <;> decide

end Json

end Unnest
