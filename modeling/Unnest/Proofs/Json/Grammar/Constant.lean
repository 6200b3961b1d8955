import Unnest.Proofs.Json.Grammar.Value

namespace Unnest.Json.Grammar

open Decoder

-- The texts behind which a value is expected: the beginning, an opening bracket, a comma in an
-- array, and a key with its colon.
inductive Leads : Text → Prop
  | start {b} : Blanks b → Leads b
  | first {s b} : Leads s → Blanks b → Leads (s ++ .char '[' :: b)
  | later {s b t c xs k} : Leads s → Blanks b → AreElements t xs k → Blanks c →
      Leads (s ++ .char '[' :: b ++ t ++ .char ',' :: c)
  | firstKey {s b q c d key} : Leads s → Blanks b → IsString q key → Blanks c → Blanks d →
      Leads (s ++ .char '\x7b' :: b ++ q ++ c ++ .char ':' :: d)
  | laterKey {s b t f q c d es k key} : Leads s → Blanks b → AreEntries t es k → Blanks f →
      IsString q key → Blanks c → Blanks d →
      Leads (s ++ .char '\x7b' :: b ++ t ++ .char ',' :: f ++ q ++ c ++ .char ':' :: d)

def Fails (outcome : Except ε α) : Prop :=
  ∃ e, outcome = .error e

theorem Fails.map {x : Except ε α} (h : Fails x) (f : α → β) : Fails (x.map f) := by
  obtain ⟨e, rfl⟩ := h
  exact ⟨e, rfl⟩

theorem Fails.bind {x : Except ε α} (h : Fails x) (f : α → Except ε β) : Fails (x >>= f) := by
  obtain ⟨e, rfl⟩ := h
  exact ⟨e, rfl⟩

-- What is read first may fail already, if an integer is too long.
theorem Reads.bind_fails {k : Nat} {x : Except ε α} {a : α} {f : α → Except ε β}
    (h : Reads k x a) (hf : Fails (f a)) : Fails (x >>= f) := by
  by_cases hk : k ≤ maxNumeralDigits
  · rw [h.1 hk]
    exact hf
  · exact (h.2 (Nat.lt_of_not_le hk)).elim fun e he => Fails.bind ⟨e, he⟩ f

-- Texts that do not begin with a value, whatever fuel is left and however deep they may nest.
structure NoValue (s : Text) : Prop where
  begins : Begins s
  fails : ∀ fuel, 2 * s.length ≤ fuel → Fails (scanValue fuel none s)

theorem noValue_constant {name : Text} (h : name ∈ constants) (after : Text) :
    NoValue (name ++ after) := by
  simp only [constants, List.mem_cons, List.not_mem_nil, or_false] at h
  rcases h with rfl | rfl | rfl
  · refine ⟨⟨_, _, rfl, by decide⟩, fun fuel _ => ?_⟩
    cases fuel <;> exact ⟨_, rfl⟩
  · refine ⟨⟨_, _, rfl, by decide⟩, fun fuel _ => ?_⟩
    cases fuel <;> exact ⟨_, rfl⟩
  · refine ⟨⟨_, _, rfl, by decide⟩, fun fuel _ => ?_⟩
    cases fuel <;> exact ⟨_, rfl⟩

theorem NoValue.elements {s : Text} (h : NoValue s) {fuel : Nat} (hfuel : 2 * s.length < fuel) :
    Fails (scanElements fuel none s) := by
  obtain ⟨fuel, rfl⟩ := Nat.exists_eq_add_one_of_ne_zero (Nat.ne_zero_of_lt hfuel)
  rw [scanElements]
  exact (h.fails fuel (by omega)).bind _

-- A failure behind an element is one of the elements that begin with it.
theorem Fails.afterElement {t b c s : Text} {x : Json} {k fuel : Nat}
    (h : Fails (scanElements fuel none s)) (ht : IsValue t x k) (hb : Blanks b) (hc : Blanks c)
    (hs : Begins s) (hfuel : 2 * t.length ≤ fuel + 1) :
    Fails (scanElements (fuel + 1) none (t ++ (b ++ .char ',' :: (c ++ s)))) := by
  rw [scanElements]
  refine ((scan_complete fuel).1 ht hfuel (delimited_bracket hb (.inl rfl))).bind_fails ?_
  simp only [skip_bracket hb (.inl rfl), skip_begins hc hs]
  exact h.map _

theorem NoValue.laterElements {s t c : Text} {xs : List Json} {k : Nat} (h : NoValue s)
    (ht : AreElements t xs k) (hc : Blanks c) {fuel : Nat}
    (hfuel : 2 * (t ++ .char ',' :: (c ++ s)).length ≤ fuel) :
    Fails (scanElements fuel none (t ++ .char ',' :: (c ++ s))) := by
  induction fuel generalizing t xs k with
  | zero => exact ⟨_, rfl⟩
  | succ fuel ih =>
      cases ht with
      | last hx hb =>
          simp only [List.length_append, List.length_cons] at hfuel
          rw [List.append_assoc]
          exact (h.elements (by omega)).afterElement hx hb hc h.begins (by omega)
      | more hx hb hd hxs =>
          simp only [List.length_append, List.length_cons, List.append_assoc, List.cons_append]
            at hfuel ⊢
          refine (ih hxs ?_).afterElement hx hb hd (hxs.begins.append _) (by omega)
          simp only [List.length_append, List.length_cons]
          omega

theorem NoValue.entries {s q c d key : Text} (h : NoValue s) (hq : IsString q key)
    (hc : Blanks c) (hd : Blanks d) {fuel : Nat} (hfuel : 2 * s.length < fuel) :
    Fails (scanEntries fuel none (q ++ (c ++ .char ':' :: (d ++ s)))) := by
  obtain ⟨fuel, rfl⟩ := Nat.exists_eq_add_one_of_ne_zero (Nat.ne_zero_of_lt hfuel)
  obtain ⟨u, rfl, hu⟩ := scanString_append hq
  rw [List.cons_append, scanEntries, if_pos rfl, hu, Except.ok_bind]
  simp only [skip_bracket hc (.inr (.inl rfl)), skip_begins hd h.begins]
  exact (h.fails fuel (by omega)).bind _

theorem Fails.afterEntry {t b c s : Text} {e : Text × Json} {k fuel : Nat}
    (h : Fails (scanEntries fuel none s)) (ht : IsEntry t e k) (hb : Blanks b) (hc : Blanks c)
    (hs : Begins s) (hfuel : 2 * t.length ≤ fuel + 1) :
    Fails (scanEntries (fuel + 1) none (t ++ (b ++ .char ',' :: (c ++ s)))) := by
  obtain ⟨hq, hf, hg, hx⟩ := ht
  obtain ⟨u, rfl, hu⟩ := scanString_append hq
  simp only [List.length_append, List.length_cons, List.append_assoc, List.cons_append]
    at hfuel ⊢
  rw [scanEntries, if_pos rfl, hu, Except.ok_bind]
  simp only [skip_bracket hf (.inr (.inl rfl)), skip_begins hg (hx.begins.append _)]
  refine ((scan_complete fuel).1 hx (by omega) (delimited_bracket hb (.inl rfl))).bind_fails ?_
  simp only [skip_bracket hb (.inl rfl), skip_begins hc hs]
  exact h.map _

theorem NoValue.laterEntries {s t f q c d key : Text} {es : List (Text × Json)} {k : Nat}
    (h : NoValue s) (ht : AreEntries t es k) (hf : Blanks f) (hq : IsString q key)
    (hc : Blanks c) (hd : Blanks d) {fuel : Nat} (hfuel : 2 * (t ++ f ++ s).length < fuel) :
    Fails (scanEntries fuel none (t ++ .char ',' :: (f ++ (q ++ (c ++ .char ':' :: (d ++ s)))))) := by
  induction fuel generalizing t es k with
  | zero => exact ⟨_, rfl⟩
  | succ fuel ih =>
      cases ht with
      | last he hb =>
          obtain ⟨u, hquoted⟩ := he.quoted
          simp only [hquoted, List.length_append, List.length_cons] at hfuel
          rw [List.append_assoc]
          refine (h.entries hq hc hd (by omega)).afterEntry he hb hf
            (hq.isQuoted.begins.append _) ?_
          simp only [hquoted, List.length_cons]
          omega
      | more he hb hg hes =>
          simp only [List.length_append, List.length_cons, List.append_assoc, List.cons_append]
            at hfuel ⊢
          refine (ih hes ?_).afterEntry he hb hg (hes.quoted.begins.append _) (by omega)
          simp only [List.length_append]
          omega

theorem NoValue.array {s b : Text} (h : NoValue s) (hb : Blanks b) :
    NoValue (.char '[' :: (b ++ s)) := by
  refine ⟨⟨_, _, rfl, by decide⟩, fun fuel hfuel => ?_⟩
  cases fuel with
  | zero => exact ⟨_, rfl⟩
  | succ fuel =>
      simp only [List.length_cons, List.length_append] at hfuel
      rw [scanValue_array hb h.begins]
      exact (h.elements (by omega)).map _

theorem NoValue.laterElement {s b t c : Text} {xs : List Json} {k : Nat} (h : NoValue s)
    (hb : Blanks b) (ht : AreElements t xs k) (hc : Blanks c) :
    NoValue (.char '[' :: (b ++ (t ++ .char ',' :: (c ++ s)))) := by
  refine ⟨⟨_, _, rfl, by decide⟩, fun fuel hfuel => ?_⟩
  cases fuel with
  | zero => exact ⟨_, rfl⟩
  | succ fuel =>
      rw [scanValue_array hb (ht.begins.append _)]
      refine (h.laterElements ht hc ?_).map _
      simp only [List.length_cons, List.length_append] at hfuel ⊢
      omega

theorem NoValue.firstEntry {s b q c d key : Text} (h : NoValue s) (hb : Blanks b)
    (hq : IsString q key) (hc : Blanks c) (hd : Blanks d) :
    NoValue (.char '\x7b' :: (b ++ (q ++ (c ++ .char ':' :: (d ++ s))))) := by
  refine ⟨⟨_, _, rfl, by decide⟩, fun fuel hfuel => ?_⟩
  cases fuel with
  | zero => exact ⟨_, rfl⟩
  | succ fuel =>
      simp only [List.length_cons, List.length_append] at hfuel
      rw [scanValue_object hb (hq.isQuoted.append _)]
      exact (h.entries hq hc hd (by omega)).map _

theorem NoValue.laterEntry {s b t f q c d key : Text} {es : List (Text × Json)} {k : Nat}
    (h : NoValue s) (hb : Blanks b) (ht : AreEntries t es k) (hf : Blanks f)
    (hq : IsString q key) (hc : Blanks c) (hd : Blanks d) :
    NoValue (.char '\x7b' ::
      (b ++ (t ++ .char ',' :: (f ++ (q ++ (c ++ .char ':' :: (d ++ s))))))) := by
  refine ⟨⟨_, _, rfl, by decide⟩, fun fuel hfuel => ?_⟩
  cases fuel with
  | zero => exact ⟨_, rfl⟩
  | succ fuel =>
      rw [scanValue_object hb (ht.quoted.append _)]
      refine (h.laterEntries ht hf hq hc hd ?_).map _
      simp only [List.length_cons, List.length_append] at hfuel ⊢
      omega

-- Where a value is expected and none begins, the text is refused.
theorem Leads.fails {before : Text} (h : Leads before) {s : Text} (hs : NoValue s) :
    Fails (decode (before ++ s)) := by
  induction h generalizing s with
  | @start b hb =>
      by_cases hbom : (b ++ s).head? = some (.ofCode 0xFEFF)
      · rw [decode, if_pos hbom]
        exact ⟨_, rfl⟩
      · rw [decode, if_neg hbom, skip_begins hb hs.begins]
        refine (hs.fails _ ?_).bind _
        rw [List.length_append]
        omega
  | @first before b _ hb ih =>
      simpa only [List.append_assoc, List.cons_append] using ih (hs.array hb)
  | @later before b t c xs k _ hb ht hc ih =>
      simpa only [List.append_assoc, List.cons_append] using ih (hs.laterElement hb ht hc)
  | @firstKey before b q c d key _ hb hq hc hd ih =>
      simpa only [List.append_assoc, List.cons_append] using ih (hs.firstEntry hb hq hc hd)
  | @laterKey before b t f q c d es k key _ hb ht hf hq hc hd ih =>
      simpa only [List.append_assoc, List.cons_append] using
        ih (hs.laterEntry hb ht hf hq hc hd)

end Unnest.Json.Grammar
