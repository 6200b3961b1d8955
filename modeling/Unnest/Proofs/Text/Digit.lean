import Mathlib.Data.Nat.Digits.Defs
import Unnest.Text.Numeral

namespace Unnest

theorem natOfDigits_concat (digits : List Nat) (d : Nat) :
    natOfDigits (digits ++ [d]) = 10 * natOfDigits digits + d := by
  rw [natOfDigits, List.foldl_append]
  rfl

theorem CodePoint.digit?_lt {c : CodePoint} {d : Nat} (h : c.digit? = some d) : d < 10 := by
  obtain ⟨first, hfirst, rfl⟩ := Option.map_eq_some_iff.mp h
  have hrun := List.find?_some hfirst
  simp only [Bool.and_eq_true, decide_eq_true_eq] at hrun
  omega

theorem CodePoint.digit?_digitChar {d : Nat} (h : d < 10) : (char d.digitChar).digit? = some d := by
  have hall : ∀ d < 10, (char (Nat.digitChar d)).digit? = some d := by decide
  exact hall d h

namespace Text

-- Decimal digits of whatever script, at least one of them, and nothing else.
structure OnlyDigits (t : Text) : Prop where
  ne_nil : t ≠ []
  digits : ∀ c ∈ t, c.digit?.isSome = true

instance (t : Text) : Decidable t.OnlyDigits :=
  decidable_of_iff (t ≠ [] ∧ ∀ c ∈ t, c.digit?.isSome = true)
    ⟨fun h => ⟨h.1, h.2⟩, fun h => ⟨h.1, h.2⟩⟩

-- The number that the digits of a text make up.
def worth (t : Text) : Nat :=
  natOfDigits (t.filterMap CodePoint.digit?)

theorem ofNat_of_lt {n : Nat} (h : n < 10) : ofNat n = [.char n.digitChar] := by
  rw [ofNat, Nat.toDigits_of_lt_base h]
  rfl

-- The last digit stands behind the digits of what is left without it.
theorem ofNat_of_le {n : Nat} (h : 10 ≤ n) :
    ofNat n = ofNat (n / 10) ++ [.char (n % 10).digitChar] := by
  rw [ofNat, Nat.toDigits_of_base_le (by decide) h, List.map_append]
  rfl

-- A number is written in digits, and they are worth the number.
theorem ofNat_digits (n : Nat) : (ofNat n).OnlyDigits ∧ (ofNat n).worth = n := by
  induction n using Nat.strongRecOn with
  | ind n ih =>
  by_cases hn : n < 10
  · have hdigit := CodePoint.digit?_digitChar hn
    rw [ofNat_of_lt hn]
    refine ⟨⟨List.cons_ne_nil _ _, by simp [hdigit]⟩, ?_⟩
    rw [worth, List.filterMap_cons_some hdigit]
    exact Nat.zero_add n
  · obtain ⟨⟨-, hdigits⟩, hworth⟩ := ih (n / 10) (by omega)
    have hlast := CodePoint.digit?_digitChar (Nat.mod_lt n (show 0 < 10 by decide))
    rw [ofNat_of_le (Nat.le_of_not_lt hn)]
    refine ⟨⟨by simp, List.forall_mem_append.mpr ⟨hdigits, by simp [hlast]⟩⟩, ?_⟩
    rw [worth, List.filterMap_append, List.filterMap_cons_some hlast, List.filterMap_nil,
      natOfDigits_concat, ← worth, hworth]
    omega

end Text

end Unnest
