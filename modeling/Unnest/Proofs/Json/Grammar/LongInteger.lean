import Unnest.Proofs.Document

namespace Unnest.Json.Grammar

open Decoder

-- A literal ends here: neither digits nor a fraction nor an exponent would make it longer.
structure Ends (after : Text) : Prop where
  digit : NoDigit after
  fraction : ∀ f ds, IsFraction f (some ds) → ¬f <+: after
  exponent : ∀ e n, IsExponent e (some n) → ¬e <+: after

-- The text begins with an integer that has too many digits.
def LongLiteral (s : Text) (digits : Nat) : Prop :=
  ∃ t n after, s = t ++ after ∧ IsNumber t (.int n) digits ∧ maxNumeralDigits < digits ∧ Ends after

-- Where a value is expected, the text goes on with an integer that has too many digits.
def LongInteger (s : Text) (digits : Nat) : Prop :=
  ∃ before rest, s = before ++ rest ∧ Leads before ∧ LongLiteral rest digits

theorem LongInteger.lt_length {s : Text} {digits : Nat} (h : LongInteger s digits) :
    maxNumeralDigits < s.length := by
  obtain ⟨before, rest, rfl, -, t, n, after, rfl, hnumber, hlong, -⟩ := h
  cases hnumber with
  | @int _ w _ ds _ hw =>
      have hlength : ds.length ≤ w.length := by
        cases hw with
        | zero _ => exact Nat.le_refl 1
        | other _ hdigits => exact hdigits.2.length_eq.ge
      simp only [List.length_append]
      omega

theorem spanDigits_noDigit {s rest : Text} {ds : List Nat}
    (h : spanDigits CodePoint.asciiDigit? s = (ds, rest)) : NoDigit rest := by
  induction s generalizing ds with
  | nil =>
      obtain ⟨rfl, rfl⟩ := Prod.mk.inj h
      exact nofun
  | cons c s ih =>
      simp only [spanDigits] at h
      split at h
      · next hc =>
        obtain ⟨rfl, rfl⟩ := Prod.mk.inj h
        intro a ha
        obtain rfl := Option.some.inj ha
        exact hc
      · obtain ⟨rfl, rfl⟩ := Prod.mk.inj h
        exact ih rfl

-- Only a zero can stand before more digits.
theorem scanWhole_noDigit {s rest : Text} {ds : List Nat} (h : scanWhole s = some (ds, rest))
    (hds : 1 < ds.length) : NoDigit rest := by
  unfold scanWhole at h
  split at h
  · cases h
  · split at h
    · cases h
    · obtain ⟨rfl, rfl⟩ := Prod.mk.inj (Option.some.inj h)
      exact absurd hds (by decide)
    · exact spanDigits_noDigit (Option.some.inj h)

theorem AreDigits.span {t : Text} {ds : List Nat} (h : AreDigits t ds) (after : Text) :
    ∃ d es rest, spanDigits CodePoint.asciiDigit? (t ++ after) = (d :: es, rest) := by
  obtain ⟨c, u, d, rfl, hc⟩ := h.head
  rcases hspan : spanDigits CodePoint.asciiDigit? (u ++ after) with ⟨es, rest⟩
  refine ⟨d, es, rest, ?_⟩
  simp only [List.cons_append, spanDigits, asciiDigit?_eq_some_iff.mpr hc, hspan]

theorem scanFraction_none {s rest : Text} (h : scanFraction s = (none, rest)) :
    ∀ f ds, IsFraction f (some ds) → ¬f <+: s := by
  rintro f ds hf ⟨after, rfl⟩
  cases hf with
  | digits ht =>
      obtain ⟨d, es, later, hspan⟩ := ht.span after
      simp only [scanFraction, List.cons_append, hspan] at h
      cases h

theorem scanExponent_none {s rest : Text} (h : scanExponent s = (none, rest)) :
    ∀ e n, IsExponent e (some n) → ¬e <+: s := by
  -- behind the mark and its sign digits would be found
  have hmark {e : CodePoint} {t u : Text} {ds : List Nat} {down : Bool}
      (he : e = .char 'e' ∨ e = .char 'E') (ht : AreDigits t ds) (after : Text)
      (hu : spanSign (u ++ after) = (down, t ++ after)) :
      scanExponent (e :: (u ++ after)) ≠ (none, rest) := by
    obtain ⟨d, es, later, hspan⟩ := ht.span after
    simp only [scanExponent, if_pos he, hu, hspan]
    intro heq
    cases heq
  rintro e n he ⟨after, rfl⟩
  cases he with
  | unsigned he ht => exact hmark he ht after (spanSign_digits ht) h
  | @up e t ds he ht => exact @hmark e t (.char '+' :: t) ds false he ht after rfl h
  | @down e t ds he ht => exact @hmark e t (.char '-' :: t) ds true he ht after rfl h

theorem scanNumber_long {s : Text} {digits : Nat}
    (h : scanNumber s = .error (.longInteger digits)) : LongLiteral s digits := by
  unfold scanNumber at h
  split at h
  next negative u hu =>
  obtain ⟨sign, rfl, hsign⟩ : ∃ sign, s = sign ++ u ∧ IsSign sign negative := by
    split at hu
    · obtain ⟨rfl, rfl⟩ := Prod.mk.inj hu
      exact ⟨[.char '-'], rfl, .minus⟩
    · obtain ⟨rfl, rfl⟩ := Prod.mk.inj hu
      exact ⟨[], rfl, .plus⟩
  split at h
  · cases h
  · next ds after hwhole =>
    rcases hfraction : scanFraction after with ⟨fraction, afterFraction⟩
    rcases hexponent : scanExponent afterFraction with ⟨exponent, afterExponent⟩
    simp only [hfraction, hexponent] at h
    split at h
    · split at h
      · next hlong =>
        obtain rfl := Stop.longInteger.inj (Except.error.inj h)
        obtain ⟨w, rfl, hw⟩ := scanWhole_sound hwhole
        obtain ⟨f, rfl, hf⟩ := scanFraction_sound hfraction
        cases hf
        rw [List.nil_append] at hwhole hfraction ⊢
        have hdigit := scanWhole_noDigit hwhole (Nat.lt_trans (by decide) hlong)
        exact ⟨sign ++ w, _, afterFraction, by simp, .int hsign hw, hlong, hdigit,
          scanFraction_none hfraction, scanExponent_none hexponent⟩
      · cases h
    · cases h

theorem scanUnits_error {opening s : Text} {e : Stop} (h : scanUnits opening s = .error e) :
    ∃ what rest, e = .problem what rest := by
  fun_induction scanUnits opening s with
  | case2 => cases h
  | case4 _ _ _ _ _ _ _ _ _ ih => exact ih (Except.map_eq_error.mp h)
  | case7 _ _ _ _ _ _ ih => exact ih (Except.map_eq_error.mp h)
  | case10 _ _ _ _ _ ih => exact ih (Except.map_eq_error.mp h)
  | case1 | case3 | case5 | case6 | case8 | case9 => exact ⟨_, _, (Except.error.inj h).symm⟩

theorem scanString_error {opening s : Text} {e : Stop} (h : scanString opening s = .error e) :
    ∃ what rest, e = .problem what rest :=
  scanUnits_error (Except.map_eq_error.mp h)

theorem scanPlain_long {s : Text} {digits : Nat}
    (h : scanPlain s = .error (.longInteger digits)) : LongLiteral s digits := by
  unfold scanPlain at h
  split at h
  · cases h
  · split at h
    · cases h
    · exact scanNumber_long (Except.map_eq_error.mp h)

-- Elements and entries are read from the left, but one more may also be put behind them.
theorem AreElements.concat {t b c u : Text} {xs : List Json} {x : Json} {k m : Nat}
    (h : AreElements t xs k) (hc : Blanks c) (hu : IsValue u x m) (hb : Blanks b) :
    ∃ n, AreElements (t ++ .char ',' :: c ++ (u ++ b)) (xs ++ [x]) n := by
  cases h with
  | last hx hd => exact ⟨_, .more hx hd hc (.last hu hb)⟩
  | more hx hd hf hxs =>
      obtain ⟨n, hn⟩ := hxs.concat hc hu hb
      have hall := AreElements.more hx hd hf hn
      exact ⟨_, by simpa only [List.append_assoc, List.cons_append] using hall⟩
termination_by t.length
decreasing_by
  simp only [List.length_append, List.length_cons]
  omega

theorem AreEntries.concat {t b c u : Text} {es : List (Text × Json)} {e : Text × Json} {k m : Nat}
    (h : AreEntries t es k) (hc : Blanks c) (hu : IsEntry u e m) (hb : Blanks b) :
    ∃ n, AreEntries (t ++ .char ',' :: c ++ (u ++ b)) (es ++ [e]) n := by
  cases h with
  | last he hd => exact ⟨_, .more he hd hc (.last hu hb)⟩
  | more he hd hf hes =>
      obtain ⟨n, hn⟩ := hes.concat hc hu hb
      have hall := AreEntries.more he hd hf hn
      exact ⟨_, by simpa only [List.append_assoc, List.cons_append] using hall⟩
termination_by t.length
decreasing_by
  simp only [List.length_append, List.length_cons]
  omega

-- The texts behind which an element of an array is expected.
inductive LeadsElement : Text → Prop
  | first {s b} : Leads s → Blanks b → LeadsElement (s ++ .char '[' :: b)
  | later {s b t c xs k} : Leads s → Blanks b → AreElements t xs k → Blanks c →
      LeadsElement (s ++ .char '[' :: b ++ t ++ .char ',' :: c)

theorem LeadsElement.leads {s : Text} (h : LeadsElement s) : Leads s := by
  cases h with
  | first hs hb => exact .first hs hb
  | later hs hb ht hc => exact .later hs hb ht hc

theorem LeadsElement.next {s t b c : Text} {x : Json} {k : Nat} (h : LeadsElement s)
    (ht : IsValue t x k) (hb : Blanks b) (hc : Blanks c) :
    LeadsElement (s ++ t ++ b ++ .char ',' :: c) := by
  cases h with
  | first hs hd =>
      have hnext := LeadsElement.later hs hd (.last ht hb) hc
      simpa only [List.append_assoc, List.cons_append] using hnext
  | later hs hd hxs hf =>
      obtain ⟨n, hall⟩ := hxs.concat hf ht hb
      have hnext := LeadsElement.later hs hd hall hc
      simpa only [List.append_assoc, List.cons_append] using hnext

-- The texts behind which a key is expected.
inductive LeadsKey : Text → Prop
  | first {s b} : Leads s → Blanks b → LeadsKey (s ++ .char '\x7b' :: b)
  | later {s b t f es k} : Leads s → Blanks b → AreEntries t es k → Blanks f →
      LeadsKey (s ++ .char '\x7b' :: b ++ t ++ .char ',' :: f)

theorem LeadsKey.leads {s q c d key : Text} (h : LeadsKey s) (hq : IsString q key)
    (hc : Blanks c) (hd : Blanks d) : Leads (s ++ q ++ c ++ .char ':' :: d) := by
  cases h with
  | first hs hb => exact .firstKey hs hb hq hc hd
  | later hs hb ht hf => exact .laterKey hs hb ht hf hq hc hd

theorem LeadsKey.next {s t b c : Text} {e : Text × Json} {k : Nat} (h : LeadsKey s)
    (ht : IsEntry t e k) (hb : Blanks b) (hc : Blanks c) :
    LeadsKey (s ++ t ++ b ++ .char ',' :: c) := by
  cases h with
  | first hs hd =>
      have hnext := LeadsKey.later hs hd (.last ht hb) hc
      simpa only [List.append_assoc, List.cons_append] using hnext
  | later hs hd hes hf =>
      obtain ⟨n, hall⟩ := hes.concat hf ht hb
      have hnext := LeadsKey.later hs hd hall hc
      simpa only [List.append_assoc, List.cons_append] using hnext

-- Whatever is read with some fuel stops for an integer only where one stands in the text.
def ValuesLong (fuel : Nat) : Prop :=
  ∀ {room before s digits}, Leads before → scanValue fuel room s = .error (.longInteger digits) →
    LongInteger (before ++ s) digits

def ElementsLong (fuel : Nat) : Prop :=
  ∀ {room before s digits}, LeadsElement before →
    scanElements fuel room s = .error (.longInteger digits) → LongInteger (before ++ s) digits

def EntriesLong (fuel : Nat) : Prop :=
  ∀ {room before s digits}, LeadsKey before →
    scanEntries fuel room s = .error (.longInteger digits) → LongInteger (before ++ s) digits

theorem valuesLong_succ {fuel : Nat} (he : ElementsLong fuel) (hn : EntriesLong fuel) :
    ValuesLong (fuel + 1) := by
  intro room before s digits hbefore h
  cases s with
  | nil => cases h
  | cons c s =>
      rw [scanValue] at h
      split at h
      · obtain ⟨_, _, hstop⟩ := scanString_error (Except.map_eq_error.mp h)
        cases hstop
      split at h
      · next hc =>
        subst hc
        rcases Except.bind_eq_error.mp h with hdeep | ⟨inner, -, h⟩
        · cases (enter_error hdeep).1
        split at h
        · cases h
        · obtain ⟨b, hs, hb⟩ := skip_sound (s := s) rfl
          have hlong := he (.first hbefore hb) (Except.map_eq_error.mp h)
          rw [List.append_assoc, List.cons_append, ← hs] at hlong
          exact hlong
      split at h
      · next hc =>
        subst hc
        rcases Except.bind_eq_error.mp h with hdeep | ⟨inner, -, h⟩
        · cases (enter_error hdeep).1
        split at h
        · cases h
        · obtain ⟨b, hs, hb⟩ := skip_sound (s := s) rfl
          have hlong := hn (.first hbefore hb) (Except.map_eq_error.mp h)
          rw [List.append_assoc, List.cons_append, ← hs] at hlong
          exact hlong
      exact ⟨before, c :: s, rfl, hbefore, scanPlain_long h⟩

theorem elementsLong_succ {fuel : Nat} (hv : ValuesLong fuel) (he : ElementsLong fuel) :
    ElementsLong (fuel + 1) := by
  intro room before s digits hbefore h
  rw [scanElements] at h
  rcases Except.bind_eq_error.mp h with hvalue | ⟨⟨x, after⟩, hx, hmore⟩
  · exact hv hbefore.leads hvalue
  · obtain ⟨t, k, rfl, ht, -⟩ := (scan_sound fuel).1 hx
    simp only at hmore
    split at hmore
    · cases hmore
    · next rest hskip =>
      obtain ⟨b, rfl, hb⟩ := skip_sound hskip
      obtain ⟨c, hs, hc⟩ := skip_sound (s := rest) rfl
      have hlong := he (hbefore.next ht hb hc) (Except.map_eq_error.mp hmore)
      simp only [List.append_assoc, List.cons_append, ← hs] at hlong
      exact hlong
    · cases hmore

theorem entriesLong_succ {fuel : Nat} (hv : ValuesLong fuel) (hn : EntriesLong fuel) :
    EntriesLong (fuel + 1) := by
  intro room before s digits hbefore h
  cases s with
  | nil => cases h
  | cons c s =>
      rw [scanEntries] at h
      split at h
      · next hquote =>
        subst hquote
        rcases Except.bind_eq_error.mp h with hkey | ⟨⟨key, afterKey⟩, hkey, hmore⟩
        · obtain ⟨_, _, hstop⟩ := scanString_error hkey
          cases hstop
        · obtain ⟨q, hs, hq⟩ := scanString_sound hkey
          simp only at hmore
          split at hmore
          · next rest hcolon =>
            obtain ⟨b, rfl, hb⟩ := skip_sound hcolon
            obtain ⟨d, hrest, hd⟩ := skip_sound (s := rest) rfl
            rw [hs]
            rcases Except.bind_eq_error.mp hmore with hvalue | ⟨⟨x, afterValue⟩, hx, hend⟩
            · have hlong := hv (hbefore.leads hq hb hd) hvalue
              simp only [List.append_assoc, List.cons_append, ← hrest] at hlong
              exact hlong
            · obtain ⟨t, k, hvalue, ht, -⟩ := (scan_sound fuel).1 hx
              simp only at hend
              split at hend
              · cases hend
              · next later hcomma =>
                obtain ⟨f, rfl, hf⟩ := skip_sound hcomma
                obtain ⟨g, hlater, hg⟩ := skip_sound (s := later) rfl
                have hentry := IsEntry.intro hq hb hd ht
                have hlong := hn (hbefore.next hentry hf hg) (Except.map_eq_error.mp hend)
                rw [hrest, hvalue]
                simp only [List.append_assoc, List.cons_append, ← hlater] at hlong ⊢
                exact hlong
              · cases hend
          · cases hmore
      · cases h

theorem scan_long (fuel : Nat) : ValuesLong fuel ∧ ElementsLong fuel ∧ EntriesLong fuel := by
  induction fuel with
  | zero =>
      refine ⟨?_, ?_, ?_⟩ <;> intro room before s digits hbefore h <;> cases h
  | succ fuel ih =>
      obtain ⟨hv, he, hn⟩ := ih
      exact ⟨valuesLong_succ he hn, elementsLong_succ hv he, entriesLong_succ hv hn⟩

-- A text is refused for an integer only if it has one that is too long where a value is expected.
theorem decode_long {s : Text} {room : Headroom} {digits : Nat}
    (h : decode s room = .error (.longInteger digits)) : LongInteger s digits := by
  unfold decode at h
  split at h
  · cases h
  · obtain ⟨b, hs, hb⟩ := skip_sound (s := s) rfl
    rcases Except.bind_eq_error.mp h with hvalue | ⟨⟨value, after⟩, _, hend⟩
    · rw [hs]
      exact (scan_long _).1 (.start hb) hvalue
    · simp only at hend
      split at hend
      · cases hend
      · cases hend

theorem scanNumber_whole {w : Text} {ds : List Nat} (hw : IsWhole w ds)
    (hlong : maxNumeralDigits < ds.length) : scanNumber w = .error (.longInteger ds.length) := by
  obtain ⟨hwhole, hfraction, hexponent⟩ := scan_parts hw .absent .absent .nil
  have hminus := spanMinus_append .plus (hw.head?_ne [])
  simp only [List.append_nil, List.nil_append] at hwhole hfraction hexponent hminus
  unfold scanNumber
  split
  next _ u hu =>
  obtain ⟨rfl, rfl⟩ := Prod.mk.inj (hu.symm.trans hminus)
  simp only [hwhole, hfraction, hexponent]
  exact if_pos hlong

-- An integer that is too long does stop the reading of a document.
theorem decode_whole {w : Text} {ds : List Nat} (hw : IsWhole w ds)
    (hlong : maxNumeralDigits < ds.length) : decode w = .error (.longInteger ds.length) := by
  have hnumber : IsNumber w _ ds.length := .int .plus hw
  have hcode : w.head? ≠ some (.ofCode 0xFEFF) := fun hhead => by
    obtain ⟨c, u, rfl, hc⟩ := hnumber.begins
    obtain rfl := Option.some.inj hhead
    exact absurd hc (by decide)
  have hskip := skip_begins (b := []) nofun hnumber.begins
  have hvalue := scanValue_of_number hnumber [] (2 * w.length + 1) none
  have hplain := scanPlain_of_number hnumber []
  simp only [List.nil_append, List.append_nil] at hskip hvalue hplain
  rw [decode, if_neg hcode, hskip, hvalue, hplain, scanNumber_whole hw hlong]
  rfl

end Unnest.Json.Grammar
