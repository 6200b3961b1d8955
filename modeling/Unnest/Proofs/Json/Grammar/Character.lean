import Unnest.Proofs.Document

namespace Unnest.Json.Grammar

-- No control character stands in the text, apart from blanks.
def Clean (t : Text) : Prop :=
  ∀ c ∈ t, IsBlank c ∨ 0x20 ≤ c.code

instance (t : Text) : Decidable (Clean t) :=
  inferInstanceAs (Decidable (∀ c ∈ t, _))

theorem Clean.append {s t : Text} (hs : Clean s) (ht : Clean t) : Clean (s ++ t) :=
  List.forall_mem_append.mpr ⟨hs, ht⟩

theorem Clean.cons {c : CodePoint} {t : Text} (hc : 0x20 ≤ c.code) (ht : Clean t) :
    Clean (c :: t) :=
  List.forall_mem_cons.mpr ⟨.inr hc, ht⟩

theorem Clean.nil : Clean [] :=
  nofun

theorem Blanks.clean {b : Text} (h : Blanks b) : Clean b :=
  fun c hc => .inl (h c hc)

theorem AreDigits.clean {t : Text} {ds : List Nat} (h : AreDigits t ds) : Clean t := by
  intro c hc
  obtain ⟨k, hk, rfl⟩ := List.getElem_of_mem hc
  obtain ⟨-, hcode⟩ := h.2.get hk (h.2.length_eq ▸ hk)
  exact .inr (by simp only [List.get_eq_getElem] at hcode; omega)

theorem IsWhole.clean {t : Text} {ds : List Nat} (h : IsWhole t ds) : Clean t := by
  cases h with
  | zero hc => exact .cons (by rw [hc.2]; decide) .nil
  | other _ ht => exact ht.clean

theorem IsNumber.clean {t : Text} {n : Number} {k : Nat} (h : IsNumber t n k) : Clean t := by
  have hsign {s : Text} {negative : Bool} (hs : IsSign s negative) : Clean s := by
    cases hs with
    | plus => exact .nil
    | minus => exact .cons (by decide) .nil
  have hletter {c : CodePoint} (hc : c = .char 'e' ∨ c = .char 'E') : 0x20 ≤ c.code := by
    rcases hc with rfl | rfl <;> decide
  cases h with
  | int hs hw => exact (hsign hs).append hw.clean
  | real hs hw hf he _ _ =>
      refine (((hsign hs).append hw.clean).append ?_).append ?_
      · cases hf with
        | absent => exact .nil
        | digits ht => exact .cons (by decide) ht.clean
      · cases he with
        | absent => exact .nil
        | unsigned hc ht => exact .cons (hletter hc) ht.clean
        | up hc ht => exact .cons (hletter hc) (.cons (by decide) ht.clean)
        | down hc ht => exact .cons (hletter hc) (.cons (by decide) ht.clean)

theorem LongEscape.clean {e : Text} {n : Nat} (h : LongEscape e n) : Clean e := by
  have hhex {c : CodePoint} {d : Nat} (h : IsHex c d) : 0x20 ≤ c.code := by
    cases h <;> omega
  obtain ⟨h₁, h₂, h₃, h₄⟩ := h
  exact .cons (by decide) (.cons (by decide) (.cons (hhex h₁) (.cons (hhex h₂)
    (.cons (hhex h₃) (.cons (hhex h₄) .nil)))))

theorem Characters.clean {t u : Text} (h : Characters t u) : Clean t := by
  induction h with
  | nil => exact .nil
  | plain hcode _ _ _ ih => exact .cons hcode ih
  | short hletter _ ih => exact .cons (by decide) (.cons (by cases hletter <;> decide) ih)
  | pair hh hl _ _ _ _ ih => exact (hh.clean.append hl.clean).append ih
  | alone he _ _ _ ih => exact he.clean.append ih

theorem IsString.clean {t u : Text} (h : IsString t u) : Clean t := by
  obtain ⟨ht⟩ := h
  exact .cons (by decide) (ht.clean.append (.cons (by decide) .nil))

mutual

theorem IsValue.clean {t : Text} {j : Json} {k : Nat} (h : IsValue t j k) : Clean t := by
  have hclose {c : CodePoint} {t : Text} (ht : Clean t) (hc : 0x20 ≤ c.code) : Clean (t ++ [c]) :=
    ht.append (.cons hc .nil)
  cases h with
  | null | true | false => decide
  | number hn => exact hn.clean
  | string hs => exact hs.clean
  | emptyArray hb => exact hclose (.cons (by decide) hb.clean) (by decide)
  | emptyObject hb => exact hclose (.cons (by decide) hb.clean) (by decide)
  | array hb helements =>
      exact hclose (.cons (by decide) (hb.clean.append helements.clean)) (by decide)
  | object hb hentries _ =>
      exact hclose (.cons (by decide) (hb.clean.append hentries.clean)) (by decide)
termination_by 2 * t.length
decreasing_by
  all_goals
    simp only [List.length_append, List.length_cons]
    omega

theorem AreElements.clean {t : Text} {xs : List Json} {k : Nat} (h : AreElements t xs k) :
    Clean t := by
  cases h with
  | last hx hb => exact hx.clean.append hb.clean
  | more hx hb hc hxs =>
      exact ((hx.clean.append hb.clean).append (.cons (by decide) hc.clean)).append hxs.clean
termination_by 2 * t.length + 1
decreasing_by
  all_goals
    simp only [List.length_append, List.length_cons]
    omega

theorem IsEntry.clean {t : Text} {e : Text × Json} {k : Nat} (h : IsEntry t e k) : Clean t := by
  cases h with
  | intro hs hb hc hx =>
      exact ((hs.clean.append hb.clean).append (.cons (by decide) hc.clean)).append hx.clean
termination_by 2 * t.length
decreasing_by
  simp only [List.length_append, List.length_cons]
  omega

theorem AreEntries.clean {t : Text} {es : List (Text × Json)} {k : Nat} (h : AreEntries t es k) :
    Clean t := by
  cases h with
  | last he hb => exact he.clean.append hb.clean
  | more he hb hc hes =>
      exact ((he.clean.append hb.clean).append (.cons (by decide) hc.clean)).append hes.clean
termination_by 2 * t.length + 1
decreasing_by
  all_goals
    simp only [List.length_append, List.length_cons]
    omega

end

theorem IsText.clean {s : Text} {j : Json} {k : Nat} (h : IsText s j k) : Clean s := by
  obtain ⟨hb, hj, hc⟩ := h
  exact (hb.clean.append hj.clean).append hc.clean

end Unnest.Json.Grammar
