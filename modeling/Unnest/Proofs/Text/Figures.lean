import Unnest.Binary64.Decimal

namespace Unnest

-- What numbers are written in: digits, signs, points, and the letters of exponents and of what is
-- infinite or no number.
def CodePoint.IsFigure (c : CodePoint) : Prop :=
  (0x30 ≤ c.code ∧ c.code ≤ 0x39) ∨ c ∈ ("+-.aefin" : Text)

instance (c : CodePoint) : Decidable c.IsFigure :=
  inferInstanceAs (Decidable (_ ∨ _))

namespace Text

def Figures (t : Text) : Prop :=
  ∀ c ∈ t, c.IsFigure

instance (t : Text) : Decidable t.Figures :=
  inferInstanceAs (Decidable (∀ c ∈ t, _))

theorem Figures.subset {s t : Text} (h : t.Figures) (hs : s ⊆ t) : s.Figures :=
  fun c hc => h c (hs hc)

theorem Figures.append {s t : Text} (hs : s.Figures) (ht : t.Figures) : (s ++ t).Figures :=
  List.forall_mem_append.mpr ⟨hs, ht⟩

theorem figures_concat {parts : List Text} (h : ∀ t ∈ parts, t.Figures) :
    (concat parts).Figures := by
  intro c hc
  obtain ⟨t, ht, hc⟩ := List.mem_flatten.mp hc
  exact h t ht c hc

theorem figures_zeros (n : Nat) : Text.Figures (List.replicate n (.char '0')) := by
  intro c hc
  rw [List.eq_of_mem_replicate hc]
  decide

theorem figures_ofNat (n : Nat) : (ofNat n).Figures := by
  intro c hc
  obtain ⟨d, hd, rfl⟩ := List.mem_map.mp hc
  exact .inl (Char.isDigit_iff_toNat.mp
    (Nat.isDigit_of_mem_toDigits (by decide) (by decide) hd))

theorem figures_ofInt (n : Int) : (ofInt n).Figures := by
  have hminus : Text.Figures [.char '-'] := by decide
  unfold ofInt
  split
  · exact hminus.append (figures_ofNat _)
  · exact figures_ofNat _

end Text

namespace Binary64

open Text

theorem figures_sign (negative : Bool) : (sign negative).Figures := by
  cases negative <;> decide

theorem figures_significant (digits : Nat) : (significant digits).Figures := by
  refine (figures_ofNat digits).subset fun c hc => ?_
  have hmem := (List.dropWhile_sublist _).subset (List.mem_reverse.mp hc)
  exact List.mem_reverse.mp hmem

theorem figures_layOut {digits : Text} (h : digits.Figures) (exponent : Int) :
    (layOut digits exponent).Figures := by
  have htake (n : Nat) : Text.Figures (digits.take n) := h.subset (List.take_subset n digits)
  have hdrop (n : Nat) : Text.Figures (digits.drop n) := h.subset (List.drop_subset n digits)
  unfold layOut
  split
  · have hfilled (n : Nat) : Text.Figures (digits ++ List.replicate n (.char '0')) :=
      h.append (figures_zeros n)
    refine figures_concat ?_
    simp only [List.forall_mem_cons]
    refine ⟨(hfilled _).subset (List.take_subset _ _), by decide, ?_, nofun⟩
    split
    · decide
    · exact (hfilled _).subset (List.drop_subset _ _)
  split
  · refine figures_concat ?_
    simp only [List.forall_mem_cons]
    exact ⟨by decide, figures_zeros _, h, nofun⟩
  · refine figures_concat ?_
    simp only [List.forall_mem_cons]
    refine ⟨htake 1, ?_, hdrop 1, ?_, figures_zeros _, figures_ofNat _, nofun⟩
    · split <;> decide
    · split <;> decide

theorem figures_text (x : Binary64) : x.text.Figures := by
  unfold text
  split
  · decide
  · next negative => cases negative <;> decide
  · next negative rank =>
    split
    · cases negative <;> decide
    · rcases shortest rank with ⟨digits, scale⟩
      exact (figures_sign negative).append (figures_layOut (figures_significant digits) _)

theorem figures_fixed (places : Nat) (x : Binary64) : (x.fixed places).Figures := by
  unfold fixed
  split
  · decide
  · next negative => cases negative <;> decide
  · next negative rank =>
    have hdigits (n : Nat) (t : Text) (ht : t.Figures) :
        Text.Figures (List.replicate n (.char '0') ++ t) :=
      (figures_zeros n).append ht
    refine figures_concat ?_
    simp only [List.forall_mem_cons]
    exact ⟨figures_sign negative, (hdigits _ _ (figures_ofNat _)).subset (List.take_subset _ _),
      by decide, (hdigits _ _ (figures_ofNat _)).subset (List.drop_subset _ _), nofun⟩

end Binary64

end Unnest
