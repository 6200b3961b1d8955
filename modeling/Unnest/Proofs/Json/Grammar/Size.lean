import Unnest.Proofs.Json.Grammar.Value
import Unnest.Proofs.Json.Size

namespace Unnest

theorem Entries.sum_put_le (f : α → Nat) (key : Text) (value : α) (es : List (Text × α)) :
    ((put key value es).map fun e => f e.2).sum ≤ f value + (es.map fun e => f e.2).sum := by
  induction es with
  | nil => exact Nat.le_refl _
  | cons e es ih =>
      obtain ⟨k, x⟩ := e
      rw [put]
      split
      · simp only [List.map_cons, List.sum_cons]
        omega
      · simp only [List.map_cons, List.sum_cons] at ih ⊢
        omega

-- Of several entries with one key only one counts.
theorem Entries.sum_ofList_le (f : α → Nat) (es : List (Text × α)) :
    ((ofList es).map fun e => f e.2).sum ≤ (es.map fun e => f e.2).sum := by
  induction es using List.reverseRecOn with
  | nil => exact Nat.le_refl _
  | append_singleton es e ih =>
      have hput := sum_put_le f e.1 e.2 (ofList es)
      rw [ofList_concat]
      simp only [List.map_append, List.sum_append, List.map_cons, List.sum_cons, List.map_nil,
        List.sum_nil]
      omega

namespace Json.Grammar

theorem decimal_lt {ds : List Nat} (hds : ∀ d ∈ ds, d < 10) : decimal ds < 10 ^ ds.length := by
  have h := Nat.ofDigits_lt_base_pow_length (l := ds.reverse) (b := 10) (by decide)
    (by simpa using hds)
  rwa [List.length_reverse] at h

theorem digitCount_decimal_le {ds : List Nat} (hne : ds ≠ []) (hds : ∀ d ∈ ds, d < 10) :
    digitCount (decimal ds) ≤ ds.length :=
  (Nat.length_toDigits_le_iff (by decide) (List.length_pos_of_ne_nil hne)).mpr (decimal_lt hds)

theorem AreDigits.lt_ten {t : Text} {ds : List Nat} (h : AreDigits t ds) : ∀ d ∈ ds, d < 10 := by
  intro d hd
  obtain ⟨i, hi, rfl⟩ := List.getElem_of_mem hd
  have hlength := h.2.length_eq
  exact (h.2.get (i := i) (by omega) hi).1

theorem IsWhole.digitCount_le {t : Text} {ds : List Nat} (h : IsWhole t ds) :
    digitCount (decimal ds) ≤ ds.length := by
  cases h with
  | zero _ => decide
  | other _ ht => exact digitCount_decimal_le ht.1 ht.lt_ten

theorem IsNumber.spellable {t : Text} {n : Int} {k : Nat} (h : IsNumber t (.int n) k)
    (hk : k ≤ maxNumeralDigits) : Unnest.Spellable n := by
  generalize hnumber : Number.int n = number at h
  cases h with
  | real => cases hnumber
  | @int s w negative ds _ hw =>
      obtain rfl := Number.int.inj hnumber
      have hcount := hw.digitCount_le.trans hk
      cases negative <;> simpa [Unnest.Spellable] using hcount

-- A number that can be read, as it has a literal that is short enough.
def IsRead (n : Number) : Prop :=
  ∃ t k, IsNumber t n k ∧ k ≤ maxNumeralDigits

-- All the numbers at and below a value can be read.
def AreRead : Json → Prop :=
  Throughout fun j => ∀ n, j = .number n → IsRead n

theorem AreRead.spellable {j : Json} (h : AreRead j) : j.Spellable := by
  refine h.mono fun x hx n hn => ?_
  obtain ⟨t, k, ht, hk⟩ := hx _ hn
  exact ht.spellable hk

-- What a value has of a text that spells it: no more values lie at and below it than the text has
-- characters, and its numbers can be read if no integer in the text is too long.
structure Fits (j : Json) (characters longest : Nat) : Prop where
  size : j.size ≤ characters
  read : longest ≤ maxNumeralDigits → AreRead j

theorem Fits.scalar {j : Json} {characters longest : Nat} (hbranches : j.branches = [])
    (hpos : 0 < characters)
    (h : ∀ n, j = .number n → longest ≤ maxNumeralDigits → IsRead n) :
    Fits j characters longest := by
  refine ⟨(size_scalar hbranches).le.trans hpos, fun hk => .intro (fun n hn => h n hn hk) ?_⟩
  rw [hbranches]
  exact fun b hb => absurd hb List.not_mem_nil

theorem Fits.array {xs : List Json} {characters longest : Nat}
    (hsize : (xs.map Json.size).sum < characters)
    (h : longest ≤ maxNumeralDigits → ∀ x ∈ xs, AreRead x) :
    Fits (.array xs) characters longest := by
  refine ⟨by rw [size_array]; omega, fun hk => .intro nofun fun b hb => ?_⟩
  obtain ⟨⟨x, i⟩, hx, rfl⟩ := List.mem_map.mp hb
  exact h hk x (List.fst_mem_of_mem_zipIdx hx)

theorem Fits.object {es : List (Text × Json)} {characters longest : Nat}
    (hsize : (es.map fun e => e.2.size).sum < characters)
    (h : longest ≤ maxNumeralDigits → ∀ e ∈ es, AreRead e.2) :
    Fits (.object (Entries.ofList es)) characters longest := by
  refine ⟨?_, fun hk => .intro nofun fun b hb => ?_⟩
  · have hle := Entries.sum_ofList_le Json.size es
    rw [size_object]
    omega
  · obtain ⟨e, he, rfl⟩ := List.mem_map.mp hb
    exact h hk e (Entries.mem_of_mem_ofList he)

mutual

theorem IsValue.fits {t : Text} {j : Json} {k : Nat} (h : IsValue t j k) :
    Fits j t.length k := by
  cases h with
  | null | true | false => exact .scalar rfl (by decide) nofun
  | @number t n k hn =>
      obtain ⟨c, rest, rfl, -⟩ := hn.begins
      refine .scalar rfl (Nat.succ_pos _) fun m hm hk => ?_
      obtain rfl := Json.number.inj hm
      exact ⟨_, _, hn, hk⟩
  | string hs =>
      obtain ⟨rest, rfl⟩ := hs.isQuoted
      exact .scalar rfl (Nat.succ_pos _) nofun
  | emptyArray _ => exact .array (Nat.succ_pos _) fun _ => nofun
  | array _ helements =>
      obtain ⟨hsize, hread⟩ := helements.fits
      refine .array ?_ hread
      simp only [List.length_append, List.length_cons]
      omega
  | emptyObject _ => exact @Fits.object [] _ _ (Nat.succ_pos _) fun _ => nofun
  | object _ hentries hlast =>
      obtain rfl := hlast.eq_ofList
      obtain ⟨hsize, hread⟩ := hentries.fits
      refine .object ?_ hread
      simp only [List.length_append, List.length_cons]
      omega
termination_by 2 * t.length
decreasing_by
  all_goals
    simp only [List.length_append, List.length_cons]
    omega

theorem AreElements.fits {t : Text} {xs : List Json} {k : Nat} (h : AreElements t xs k) :
    (xs.map Json.size).sum ≤ t.length ∧
      (k ≤ maxNumeralDigits → ∀ x ∈ xs, AreRead x) := by
  cases h with
  | last hx _ =>
      refine ⟨?_, fun hk => List.forall_mem_singleton.mpr (hx.fits.read hk)⟩
      have hsize := hx.fits.size
      simp only [List.map_cons, List.map_nil, List.sum_cons, List.sum_nil, List.length_append]
      omega
  | more hx _ _ hxs =>
      obtain ⟨hsizes, hread⟩ := hxs.fits
      refine ⟨?_, fun hk => List.forall_mem_cons.mpr
        ⟨hx.fits.read (by omega), hread (by omega)⟩⟩
      have hsize := hx.fits.size
      simp only [List.map_cons, List.sum_cons, List.length_append, List.length_cons]
      omega
termination_by 2 * t.length + 1
decreasing_by
  all_goals
    simp only [List.length_append, List.length_cons]
    omega

theorem IsEntry.fits {t : Text} {e : Text × Json} {k : Nat} (h : IsEntry t e k) :
    Fits e.2 t.length k := by
  cases h with
  | intro _ _ _ hx =>
      refine ⟨?_, hx.fits.read⟩
      have hsize := hx.fits.size
      simp only [List.length_append, List.length_cons]
      omega
termination_by 2 * t.length
decreasing_by
  simp only [List.length_append, List.length_cons]
  omega

theorem AreEntries.fits {t : Text} {es : List (Text × Json)} {k : Nat} (h : AreEntries t es k) :
    (es.map fun e => e.2.size).sum ≤ t.length ∧
      (k ≤ maxNumeralDigits → ∀ e ∈ es, AreRead e.2) := by
  cases h with
  | last he _ =>
      refine ⟨?_, fun hk => List.forall_mem_singleton.mpr (he.fits.read hk)⟩
      have hsize := he.fits.size
      simp only [List.map_cons, List.map_nil, List.sum_cons, List.sum_nil, List.length_append]
      omega
  | more he _ _ hes =>
      obtain ⟨hsizes, hread⟩ := hes.fits
      refine ⟨?_, fun hk => List.forall_mem_cons.mpr
        ⟨he.fits.read (by omega), hread (by omega)⟩⟩
      have hsize := he.fits.size
      simp only [List.map_cons, List.sum_cons, List.length_append, List.length_cons]
      omega
termination_by 2 * t.length + 1
decreasing_by
  all_goals
    simp only [List.length_append, List.length_cons]
    omega

end

theorem IsText.fits {s : Text} {j : Json} {k : Nat} (h : IsText s j k) : Fits j s.length k := by
  obtain ⟨_, hj, _⟩ := h
  refine ⟨?_, hj.fits.read⟩
  have hsize := hj.fits.size
  simp only [List.length_append]
  omega

end Json.Grammar

end Unnest
