import Mathlib.Data.List.TakeWhile
import Unnest.Proofs.Entries
import Unnest.Proofs.Json.Branches
import Unnest.Proofs.Json.Grammar.Number
import Unnest.Proofs.Json.Grammar.String

namespace Unnest.Json.Grammar

open Decoder

theorem keepsLast_ofList (es : List (Text × Json)) : KeepsLast es (Entries.ofList es) :=
  ⟨Entries.keys_ofList es, Entries.lookup_ofList es⟩

theorem KeepsLast.eq_ofList {es fs : List (Text × Json)} (h : KeepsLast es fs) :
    fs = Entries.ofList es := by
  have hkeys : (Entries.ofList es).map Prod.fst = fs.map Prod.fst :=
    (Entries.keys_ofList es).trans h.keys.symm
  refine (Entries.eq_of_keys_of_lookup (Entries.nodup_keys_ofList es) hkeys fun key => ?_).symm
  rw [Entries.lookup_ofList, h.values]

theorem isBlank_iff {c : CodePoint} : isBlank c = true ↔ IsBlank c := by
  simp [isBlank, IsBlank, or_assoc]

theorem skip_sound {s rest : Text} (h : skip s = rest) : ∃ b, s = b ++ rest ∧ Blanks b := by
  subst h
  exact ⟨s.takeWhile isBlank, List.takeWhile_append_dropWhile.symm,
    fun _ hc => isBlank_iff.mp (List.mem_takeWhile_imp hc)⟩

theorem skip_append {b s : Text} (hb : Blanks b) (hs : ∀ c ∈ s.head?, ¬IsBlank c) :
    skip (b ++ s) = s := by
  rw [skip, List.dropWhile_append_of_pos fun c hc => isBlank_iff.mpr (hb c hc)]
  cases s with
  | nil => rfl
  | cons c s =>
      rw [List.dropWhile_cons_of_neg]
      rw [isBlank_iff]
      exact hs c rfl

theorem scanPlain_sound {s rest : Text} {j : Json} (h : scanPlain s = .ok (j, rest)) :
    ∃ t k, s = t ++ rest ∧ IsValue t j k ∧ k ≤ maxNumeralDigits := by
  unfold scanPlain at h
  split at h
  · next result hfound =>
    obtain rfl := Except.ok.inj h
    obtain ⟨⟨word, value⟩, hmem, hword⟩ := List.exists_of_findSome?_eq_some hfound
    obtain ⟨after, hbegin, heq⟩ := Option.map_eq_some_iff.mp hword
    obtain ⟨rfl, rfl⟩ := Prod.mk.inj heq
    have hs := List.isPrefixOf?_eq_some_iff_append_eq.mp hbegin
    refine ⟨word, 0, hs.symm, ?_, Nat.zero_le _⟩
    simp only [words, List.mem_cons, Prod.mk.injEq, List.not_mem_nil, or_false] at hmem
    rcases hmem with ⟨rfl, rfl⟩ | ⟨rfl, rfl⟩ | ⟨rfl, rfl⟩
    · exact .null
    · exact .true
    · exact .false
  · split at h
    · cases h
    · obtain ⟨n, hn, rfl⟩ := Except.map_fst_eq_ok.mp h
      obtain ⟨t, k, hs, ht, hk⟩ := scanNumber_sound hn
      exact ⟨t, k, hs, .number ht, hk⟩

theorem enter_eq_ok_iff {room inner : Headroom} :
    enter room = .ok inner ↔ room.Holds 1 ∧ inner = room.within 1 := by
  unfold enter
  split
  · next h => simp [h, eq_comm]
  · next h => simp [h]

theorem enter_error {room : Headroom} {stop : Stop} (h : enter room = .error stop) :
    stop = .tooDeep ∧ ¬room.Holds 1 := by
  unfold enter at h
  split at h
  · cases h
  · next hfull => exact ⟨(Except.error.inj h).symm, hfull⟩

-- What a value, elements or entries that are read with some fuel are in the text, however much
-- room there is.
def ValuesSound (fuel : Nat) : Prop :=
  ∀ {room s rest j}, scanValue fuel room s = .ok (j, rest) →
    ∃ t k, s = t ++ rest ∧ IsValue t j k ∧ k ≤ maxNumeralDigits

def ElementsSound (fuel : Nat) : Prop :=
  ∀ {room s rest xs}, scanElements fuel room s = .ok (xs, rest) →
    ∃ t k, s = t ++ .char ']' :: rest ∧ AreElements t xs k ∧ k ≤ maxNumeralDigits

def EntriesSound (fuel : Nat) : Prop :=
  ∀ {room s rest es}, scanEntries fuel room s = .ok (es, rest) →
    ∃ t k, s = t ++ .char '\x7d' :: rest ∧ AreEntries t es k ∧ k ≤ maxNumeralDigits

theorem valuesSound_succ {fuel : Nat} (he : ElementsSound fuel) (hn : EntriesSound fuel) :
    ValuesSound (fuel + 1) := by
  intro room s rest j h
  cases s with
  | nil => cases h
  | cons c s =>
      rw [scanValue] at h
      split at h
      · next hc =>
        subst hc
        obtain ⟨u, hu, rfl⟩ := Except.map_fst_eq_ok.mp h
        obtain ⟨t, ht, hstring⟩ := scanString_sound hu
        exact ⟨t, 0, ht, .string hstring, Nat.zero_le _⟩
      split at h
      · next hc =>
        subst hc
        obtain ⟨inner, -, h⟩ := Except.bind_eq_ok.mp h
        split at h
        · next hskip =>
          obtain ⟨rfl, rfl⟩ := Prod.mk.inj (Except.ok.inj h)
          obtain ⟨b, rfl, hb⟩ := skip_sound hskip
          exact ⟨.char '[' :: b ++ [.char ']'], 0, by simp, .emptyArray hb, Nat.zero_le _⟩
        · obtain ⟨xs, hxs, rfl⟩ := Except.map_fst_eq_ok.mp h
          obtain ⟨t, k, ht, helements, hk⟩ := he hxs
          obtain ⟨b, rfl, hb⟩ := skip_sound ht
          exact ⟨.char '[' :: b ++ t ++ [.char ']'], k, by simp, .array hb helements, hk⟩
      split at h
      · next hc =>
        subst hc
        obtain ⟨inner, -, h⟩ := Except.bind_eq_ok.mp h
        split at h
        · next hskip =>
          obtain ⟨rfl, rfl⟩ := Prod.mk.inj (Except.ok.inj h)
          obtain ⟨b, rfl, hb⟩ := skip_sound hskip
          exact ⟨.char '\x7b' :: b ++ [.char '\x7d'], 0, by simp, .emptyObject hb, Nat.zero_le _⟩
        · obtain ⟨es, hes, rfl⟩ := Except.map_fst_eq_ok.mp h
          obtain ⟨t, k, ht, hentries, hk⟩ := hn hes
          obtain ⟨b, rfl, hb⟩ := skip_sound ht
          exact ⟨.char '\x7b' :: b ++ t ++ [.char '\x7d'], k, by simp,
            .object hb hentries (keepsLast_ofList es), hk⟩
      exact scanPlain_sound h

theorem elementsSound_succ {fuel : Nat} (hv : ValuesSound fuel) (he : ElementsSound fuel) :
    ElementsSound (fuel + 1) := by
  intro room s rest xs h
  rw [scanElements] at h
  obtain ⟨⟨x, after⟩, hx, hmore⟩ := Except.bind_eq_ok.mp h
  obtain ⟨t, k, rfl, ht, hk⟩ := hv hx
  simp only at hmore
  split at hmore
  · next hskip =>
    obtain ⟨rfl, rfl⟩ := Prod.mk.inj (Except.ok.inj hmore)
    obtain ⟨b, rfl, hb⟩ := skip_sound hskip
    exact ⟨t ++ b, k, by simp, .last ht hb, hk⟩
  · next hskip =>
    obtain ⟨xs, hxs, rfl⟩ := Except.map_fst_eq_ok.mp hmore
    obtain ⟨u, m, hu, helements, hm⟩ := he hxs
    obtain ⟨c, rfl, hc⟩ := skip_sound hu
    obtain ⟨b, rfl, hb⟩ := skip_sound hskip
    exact ⟨t ++ b ++ .char ',' :: c ++ u, max k m, by simp, .more ht hb hc helements,
      Nat.max_le.mpr ⟨hk, hm⟩⟩
  · cases hmore

theorem entriesSound_succ {fuel : Nat} (hv : ValuesSound fuel) (hn : EntriesSound fuel) :
    EntriesSound (fuel + 1) := by
  intro room s rest es h
  cases s with
  | nil => cases h
  | cons c s =>
      rw [scanEntries] at h
      split at h
      · next hc =>
        subst hc
        obtain ⟨⟨key, afterKey⟩, hkey, hmore⟩ := Except.bind_eq_ok.mp h
        obtain ⟨q, hq, hstring⟩ := scanString_sound hkey
        rw [hq]
        simp only at hmore
        split at hmore
        · next hcolon =>
          obtain ⟨⟨x, afterValue⟩, hx, hend⟩ := Except.bind_eq_ok.mp hmore
          obtain ⟨t, k, hvalue, ht, hk⟩ := hv hx
          obtain ⟨d, rfl, hd⟩ := skip_sound hvalue
          obtain ⟨b, rfl, hb⟩ := skip_sound hcolon
          have hentry := IsEntry.intro hstring hb hd ht
          simp only at hend
          split at hend
          · next hskip =>
            obtain ⟨rfl, rfl⟩ := Prod.mk.inj (Except.ok.inj hend)
            obtain ⟨e, rfl, he⟩ := skip_sound hskip
            exact ⟨_, k, by simp, .last hentry he, hk⟩
          · next hskip =>
            obtain ⟨es, hes, rfl⟩ := Except.map_fst_eq_ok.mp hend
            obtain ⟨u, m, hu, hentries, hm⟩ := hn hes
            obtain ⟨f, rfl, hf⟩ := skip_sound hu
            obtain ⟨e, rfl, he⟩ := skip_sound hskip
            exact ⟨_, max k m, by simp, .more hentry he hf hentries, Nat.max_le.mpr ⟨hk, hm⟩⟩
          · cases hend
        · cases hmore
      · cases h

theorem scan_sound (fuel : Nat) :
    ValuesSound fuel ∧ ElementsSound fuel ∧ EntriesSound fuel := by
  induction fuel with
  | zero =>
      refine ⟨?_, ?_, ?_⟩ <;> intro room s rest j h <;> cases h
  | succ fuel ih =>
      obtain ⟨hv, he, hn⟩ := ih
      exact ⟨valuesSound_succ he hn, elementsSound_succ hv he, entriesSound_succ hv hn⟩

theorem Reads.ok (a : α) : Reads 0 (.ok a : Except ε α) a :=
  ⟨fun _ => rfl, fun h => absurd h (Nat.not_lt_zero _)⟩

theorem Reads.map {k : Nat} {x : Except ε α} {a : α} (h : Reads k x a) (f : α → β) :
    Reads k (x.map f) (f a) := by
  refine ⟨fun hk => by rw [h.1 hk]; rfl, fun hk => ?_⟩
  obtain ⟨e, rfl⟩ := h.2 hk
  exact ⟨e, rfl⟩

theorem Reads.bind {k m : Nat} {x : Except ε α} {a : α} {f : α → Except ε β} {b : β}
    (h : Reads k x a) (hf : Reads m (f a) b) : Reads (max k m) (x >>= f) b := by
  constructor
  · intro hle
    obtain ⟨hk, hm⟩ := Nat.max_le.mp hle
    rw [h.1 hk]
    exact hf.1 hm
  · intro hlt
    by_cases hk : k ≤ maxNumeralDigits
    · obtain ⟨e, he⟩ := hf.2 (by omega)
      rw [h.1 hk]
      exact ⟨e, he⟩
    · obtain ⟨e, rfl⟩ := h.2 (Nat.lt_of_not_le hk)
      exact ⟨e, rfl⟩

theorem Reads.bind_ok {k : Nat} {x : Except ε α} {a : α} {f : α → Except ε β} {b : β}
    (h : Reads k x a) (hf : f a = .ok b) : Reads k (x >>= f) b := by
  have hbind := h.bind (hf ▸ Reads.ok b)
  rwa [Nat.max_eq_left (Nat.zero_le k)] at hbind

theorem IsDigit.code_bounds {c : CodePoint} {d : Nat} (h : IsDigit c d) :
    0x30 ≤ c.code ∧ c.code ≤ 0x39 := by
  obtain ⟨hd, hc⟩ := h
  omega

-- A number begins with a digit, after a minus or not.
theorem IsNumber.head {t : Text} {n : Number} {k : Nat} (h : IsNumber t n k) :
    ∃ c u d, IsDigit c d ∧ (t = c :: u ∨ t = .char '-' :: c :: u) := by
  have hsigned {s w : Text} {negative : Bool} {ds : List Nat} (rest : Text)
      (hs : IsSign s negative) (hw : IsWhole w ds) :
      ∃ c u d, IsDigit c d ∧ (s ++ w ++ rest = c :: u ∨ s ++ w ++ rest = .char '-' :: c :: u) := by
    obtain ⟨c, u, d, es, rfl, -, hc⟩ := hw.cons
    cases hs with
    | plus => exact ⟨c, u ++ rest, d, hc, .inl rfl⟩
    | minus => exact ⟨c, u ++ rest, d, hc, .inr rfl⟩
  cases h with
  | int hs hw => simpa using hsigned [] hs hw
  | real hs hw _ _ _ _ => simpa [List.append_assoc] using hsigned _ hs hw

-- No word and no constant is the beginning of a number.
theorem IsNumber.not_prefix {t : Text} {n : Number} {k : Nat} (h : IsNumber t n k) (rest : Text)
    {name : Text} (hname : name ∈ words.map Prod.fst ++ constants) : ¬name <+: t ++ rest := by
  obtain ⟨c, u, d, hc, ht⟩ := h.head
  have hbounds := hc.code_bounds
  -- the first letter of the name
  obtain ⟨a, v, ha, hletter⟩ : ∃ a v, (name = a :: v ∨ name = .char '-' :: a :: v) ∧
      0x39 < a.code := by
    simp only [words, constants, List.map_cons, List.map_nil, List.cons_append, List.nil_append,
      List.mem_cons, List.not_mem_nil, or_false] at hname
    rcases hname with rfl | rfl | rfl | rfl | rfl | rfl
    · exact ⟨_, _, .inl rfl, by decide⟩
    · exact ⟨_, _, .inl rfl, by decide⟩
    · exact ⟨_, _, .inl rfl, by decide⟩
    · exact ⟨_, _, .inl rfl, by decide⟩
    · exact ⟨_, _, .inl rfl, by decide⟩
    · exact ⟨_, _, .inr rfl, by decide⟩
  have hminus : CodePoint.code (.char '-') = 0x2D := rfl
  rintro ⟨w, hw⟩
  rcases ha with rfl | rfl <;> rcases ht with rfl | rfl <;>
    simp only [List.cons_append, List.cons.injEq] at hw
  · rw [hw.1] at hletter
    omega
  · rw [hw.1] at hletter
    omega
  · rw [← hw.1] at hbounds
    omega
  · rw [hw.2.1] at hletter
    omega

theorem scanPlain_of_number {t : Text} {n : Number} {k : Nat} (ht : IsNumber t n k)
    (rest : Text) : scanPlain (t ++ rest) =
      (scanNumber (t ++ rest)).map fun (n, rest) => (.number n, rest) := by
  have hword : ∀ word ∈ words.map Prod.fst, word.isPrefixOf? (t ++ rest) = none := by
    intro word hmem
    refine Option.eq_none_iff_forall_ne_some.mpr fun after hafter => ?_
    exact ht.not_prefix rest (List.mem_append_left _ hmem)
      ⟨after, List.isPrefixOf?_eq_some_iff_append_eq.mp hafter⟩
  have hconstants : constants.find? (·.isPrefixOf (t ++ rest)) = none := by
    refine List.find?_eq_none.mpr fun name hmem hbegin => ?_
    exact ht.not_prefix rest (List.mem_append_right _ hmem) (List.isPrefixOf_iff_prefix.mp hbegin)
  unfold scanPlain
  split
  · next hfound =>
    obtain ⟨⟨word, value⟩, hmem, heq⟩ := List.exists_of_findSome?_eq_some hfound
    have hnone := hword word (List.mem_map.mpr ⟨_, hmem, rfl⟩)
    simp only [hnone] at heq
    cases heq
  · rw [hconstants]

theorem scanPlain_number {t rest : Text} {n : Number} {k : Nat} (ht : IsNumber t n k)
    (hrest : Delimited rest) : Reads k (scanPlain (t ++ rest)) (.number n, rest) := by
  rw [scanPlain_of_number ht]
  exact (scanNumber_append ht hrest).map _

theorem scanValue_of_number {t : Text} {n : Number} {k : Nat} (ht : IsNumber t n k)
    (rest : Text) (fuel : Nat) (room : Headroom) :
    scanValue (fuel + 1) room (t ++ rest) = scanPlain (t ++ rest) := by
  obtain ⟨c, u, d, hc, rfl | rfl⟩ := ht.head
  · have hb := hc.code_bounds
    have hne {a : CodePoint} (ha : a.code < 0x30 ∨ 0x39 < a.code) : c ≠ a := by
      rintro rfl
      omega
    rw [List.cons_append, scanValue, if_neg (hne (by decide)), if_neg (hne (by decide)),
      if_neg (hne (by decide))]
  · rfl

-- The visible characters of ASCII that a value can begin with.
def Starts (c : CodePoint) : Prop :=
  0x20 < c.code ∧ c.code < 0x80 ∧ c ≠ .char ']'

instance (c : CodePoint) : Decidable (Starts c) :=
  inferInstanceAs (Decidable (0x20 < c.code ∧ c.code < 0x80 ∧ c ≠ .char ']'))

theorem Starts.not_isBlank {c : CodePoint} (h : Starts c) : ¬IsBlank c := by
  rintro (rfl | rfl | rfl | rfl) <;> exact absurd h (by decide)

def Begins (s : Text) : Prop :=
  ∃ c u, s = c :: u ∧ Starts c

def Quoted (s : Text) : Prop :=
  ∃ u, s = .char '"' :: u

theorem Begins.append {s : Text} (h : Begins s) (rest : Text) : Begins (s ++ rest) := by
  obtain ⟨c, u, rfl, hc⟩ := h
  exact ⟨c, u ++ rest, rfl, hc⟩

theorem Quoted.append {s : Text} (h : Quoted s) (rest : Text) : Quoted (s ++ rest) := by
  obtain ⟨u, rfl⟩ := h
  exact ⟨u ++ rest, rfl⟩

theorem Quoted.begins {s : Text} (h : Quoted s) : Begins s := by
  obtain ⟨u, rfl⟩ := h
  exact ⟨_, u, rfl, by decide⟩

theorem IsString.isQuoted {t u : Text} (h : IsString t u) : Quoted t := by
  obtain ⟨h⟩ := h
  exact ⟨_, rfl⟩

theorem IsNumber.begins {t : Text} {n : Number} {k : Nat} (h : IsNumber t n k) : Begins t := by
  obtain ⟨c, u, d, hc, rfl | rfl⟩ := h.head
  · have hb := hc.code_bounds
    refine ⟨c, u, rfl, by omega, by omega, ?_⟩
    rintro rfl
    exact absurd hb (by decide)
  · exact ⟨_, _, rfl, by decide⟩

theorem IsValue.begins {t : Text} {j : Json} {k : Nat} (h : IsValue t j k) : Begins t := by
  cases h with
  | number ht => exact ht.begins
  | string ht => exact ht.isQuoted.begins
  | null | true | false => exact ⟨_, _, rfl, by decide⟩
  | emptyArray _ | array _ _ | emptyObject _ | object _ _ _ => exact ⟨_, _, rfl, by decide⟩

theorem AreElements.begins {t : Text} {xs : List Json} {k : Nat} (h : AreElements t xs k) :
    Begins t := by
  cases h with
  | last ht _ => exact ht.begins.append _
  | more ht _ _ _ => exact ((ht.begins.append _).append _).append _

theorem IsEntry.quoted {t : Text} {e : Text × Json} {k : Nat} (h : IsEntry t e k) : Quoted t := by
  obtain ⟨hq, _, _, _⟩ := h
  exact ((hq.isQuoted.append _).append _).append _

theorem AreEntries.quoted {t : Text} {es : List (Text × Json)} {k : Nat} (h : AreEntries t es k) :
    Quoted t := by
  cases h with
  | last he _ => exact he.quoted.append _
  | more he _ _ _ => exact ((he.quoted.append _).append _).append _

-- How much fuel is enough to read a value, elements or entries where there is room for any nest.
def ValuesComplete (fuel : Nat) : Prop :=
  ∀ {t rest j k}, IsValue t j k → 2 * t.length ≤ fuel + 1 → Delimited rest →
    Reads k (scanValue fuel none (t ++ rest)) (j, rest)

def ElementsComplete (fuel : Nat) : Prop :=
  ∀ {t rest xs k}, AreElements t xs k → 2 * t.length ≤ fuel →
    Reads k (scanElements fuel none (t ++ .char ']' :: rest)) (xs, rest)

def EntriesComplete (fuel : Nat) : Prop :=
  ∀ {t rest es k}, AreEntries t es k → 2 * t.length ≤ fuel →
    Reads k (scanEntries fuel none (t ++ .char '\x7d' :: rest)) (es, rest)

theorem skip_bracket {b rest : Text} (hb : Blanks b) {c : CodePoint}
    (hc : c = .char ',' ∨ c = .char ':' ∨ c = .char ']' ∨ c = .char '\x7d') :
    skip (b ++ c :: rest) = c :: rest := by
  refine skip_append hb fun d hd => ?_
  obtain rfl := Option.some.inj hd
  rcases hc with rfl | rfl | rfl | rfl <;> decide

-- What follows a value inside brackets ends it, and is found behind the blanks.
theorem delimited_bracket {b rest : Text} (hb : Blanks b) {c : CodePoint}
    (hc : c = .char ',' ∨ c = .char ']' ∨ c = .char '\x7d') : Delimited (b ++ c :: rest) := by
  intro d hd
  cases b with
  | nil =>
      obtain rfl := Option.some.inj hd
      exact .inr hc
  | cons a b =>
      obtain rfl := Option.some.inj hd
      exact .inl (hb a List.mem_cons_self)

theorem skip_begins {b s : Text} (hb : Blanks b) (hs : Begins s) : skip (b ++ s) = s := by
  obtain ⟨c, u, rfl, hc⟩ := hs
  refine skip_append hb fun d hd => ?_
  obtain rfl := Option.some.inj hd
  exact hc.not_isBlank

theorem scanValue_array {b s : Text} (hb : Blanks b) (hs : Begins s) (fuel : Nat) :
    scanValue (fuel + 1) none (.char '[' :: (b ++ s)) =
      (scanElements fuel none s).map fun (xs, rest) => (Json.array xs, rest) := by
  rw [scanValue, if_neg (by decide), if_pos rfl, enter_none, Except.ok_bind, skip_begins hb hs]
  obtain ⟨c, u, rfl, hc⟩ := hs
  split
  · next heq => exact absurd (List.cons.inj heq).1 hc.2.2
  · rfl

theorem scanValue_object {b s : Text} (hb : Blanks b) (hs : Quoted s) (fuel : Nat) :
    scanValue (fuel + 1) none (.char '\x7b' :: (b ++ s)) =
      (scanEntries fuel none s).map fun (es, rest) => (Json.ofEntries es, rest) := by
  rw [scanValue, if_neg (by decide), if_neg (by decide), if_pos rfl, enter_none, Except.ok_bind,
    skip_begins hb hs.begins]
  obtain ⟨u, rfl⟩ := hs
  rfl

theorem valuesComplete_succ {fuel : Nat} (he : ElementsComplete fuel) (hn : EntriesComplete fuel) :
    ValuesComplete (fuel + 1) := by
  intro t rest j k h hfuel hrest
  cases h with
  | null => exact .ok _
  | true => exact .ok _
  | false => exact .ok _
  | number ht =>
      rw [scanValue_of_number ht]
      exact scanPlain_number ht hrest
  | string ht =>
      obtain ⟨u, rfl, hu⟩ := scanString_append ht
      rw [List.cons_append, scanValue, if_pos rfl, hu]
      exact .ok _
  | emptyArray hb =>
      simp only [List.cons_append, List.append_assoc, List.nil_append]
      rw [scanValue, if_neg (by decide), if_pos rfl, enter_none, Except.ok_bind,
        skip_bracket hb (by decide)]
      exact .ok _
  | @array b t xs k hb helements =>
      simp only [List.cons_append, List.append_assoc, List.nil_append, List.length_cons,
        List.length_append, List.length_nil] at hfuel ⊢
      rw [scanValue_array hb (helements.begins.append _)]
      exact (he helements (by omega)).map fun (xs, rest) => (Json.array xs, rest)
  | emptyObject hb =>
      simp only [List.cons_append, List.append_assoc, List.nil_append]
      rw [scanValue, if_neg (by decide), if_neg (by decide), if_pos rfl, enter_none,
        Except.ok_bind, skip_bracket hb (by decide)]
      exact .ok _
  | @object b t es fs k hb hentries hlast =>
      simp only [List.cons_append, List.append_assoc, List.nil_append, List.length_cons,
        List.length_append, List.length_nil] at hfuel ⊢
      obtain rfl := hlast.eq_ofList
      rw [scanValue_object hb (hentries.quoted.append _)]
      exact (hn hentries (by omega)).map fun (es, rest) => (Json.ofEntries es, rest)

theorem elementsComplete_succ {fuel : Nat} (hv : ValuesComplete fuel)
    (he : ElementsComplete fuel) : ElementsComplete (fuel + 1) := by
  intro t rest xs k h hfuel
  cases h with
  | @last t b x k ht hb =>
      simp only [List.length_append, List.append_assoc] at hfuel ⊢
      rw [scanElements]
      refine (hv ht (by omega) (delimited_bracket hb (.inr (.inl rfl)))).bind_ok ?_
      simp only [skip_bracket hb (.inr (.inr (.inl rfl)))]
  | @more t b c u x xs k m ht hb hc helements =>
      simp only [List.length_append, List.length_cons, List.append_assoc, List.cons_append]
        at hfuel ⊢
      rw [scanElements]
      refine (hv ht (by omega) (delimited_bracket hb (.inl rfl))).bind ?_
      simp only [skip_bracket hb (.inl rfl), skip_begins hc (helements.begins.append _)]
      exact (he helements (by omega)).map fun (xs, rest) => (x :: xs, rest)

theorem entriesComplete_succ {fuel : Nat} (hv : ValuesComplete fuel)
    (hn : EntriesComplete fuel) : EntriesComplete (fuel + 1) := by
  intro t rest es k h hfuel
  cases h with
  | @last t f e k hentry hf =>
      obtain ⟨hstring, hb, hd, ht⟩ := hentry
      obtain ⟨q, rfl, hq⟩ := scanString_append hstring
      simp only [List.length_append, List.length_cons, List.append_assoc, List.cons_append]
        at hfuel ⊢
      rw [scanEntries, if_pos rfl, hq, Except.ok_bind]
      simp only [skip_bracket hb (.inr (.inl rfl)), skip_begins hd (ht.begins.append _)]
      refine (hv ht (by omega) (delimited_bracket hf (.inr (.inr rfl)))).bind_ok ?_
      simp only [skip_bracket hf (.inr (.inr (.inr rfl)))]
  | @more t f g u e es k m hentry hf hg hentries =>
      obtain @⟨_, _, _, _, key, x, _, hstring, hb, hd, ht⟩ := hentry
      obtain ⟨q, rfl, hq⟩ := scanString_append hstring
      simp only [List.length_append, List.length_cons, List.append_assoc, List.cons_append]
        at hfuel ⊢
      rw [scanEntries, if_pos rfl, hq, Except.ok_bind]
      simp only [skip_bracket hb (.inr (.inl rfl)), skip_begins hd (ht.begins.append _)]
      refine (hv ht (by omega) (delimited_bracket hf (.inl rfl))).bind ?_
      simp only [skip_bracket hf (.inl rfl), skip_begins hg (hentries.quoted.begins.append _)]
      exact (hn hentries (by omega)).map fun (es, rest) => ((key, x) :: es, rest)

theorem scan_complete (fuel : Nat) :
    ValuesComplete fuel ∧ ElementsComplete fuel ∧ EntriesComplete fuel := by
  induction fuel with
  | zero =>
      refine ⟨?_, ?_, ?_⟩
      · intro t rest j k h hfuel
        obtain ⟨c, u, rfl, -⟩ := h.begins
        simp only [List.length_cons] at hfuel
        omega
      · intro t rest xs k h hfuel
        obtain ⟨c, u, rfl, -⟩ := h.begins
        simp only [List.length_cons] at hfuel
        omega
      · intro t rest es k h hfuel
        obtain ⟨c, u, rfl, -⟩ := h.quoted.begins
        simp only [List.length_cons] at hfuel
        omega
  | succ fuel ih =>
      obtain ⟨hv, he, hn⟩ := ih
      exact ⟨valuesComplete_succ he hn, elementsComplete_succ hv he, entriesComplete_succ hv hn⟩

theorem wellFormed_ofEntries {es : List (Text × Json)} (h : ∀ e ∈ es, e.2.WellFormed) :
    (Json.ofEntries es).WellFormed := by
  exact .object (Entries.nodup_keys_ofList es) fun e he => h e (Entries.mem_of_mem_ofList he)

mutual

theorem IsValue.wellFormed {t : Text} {j : Json} {k : Nat} (h : IsValue t j k) :
    j.WellFormed := by
  cases h with
  | null | true | false | number _ | string _ | emptyArray _ | emptyObject _ =>
      exact .scalar rfl rfl
  | array _ helements => exact .array helements.wellFormed
  | object _ hentries hlast =>
      obtain rfl := hlast.eq_ofList
      exact wellFormed_ofEntries hentries.wellFormed
termination_by 2 * t.length
decreasing_by
  all_goals
    simp only [List.length_append, List.length_cons]
    omega

theorem AreElements.wellFormed {t : Text} {xs : List Json} {k : Nat} (h : AreElements t xs k) :
    ∀ x ∈ xs, x.WellFormed := by
  cases h with
  | last hx _ => exact List.forall_mem_singleton.mpr hx.wellFormed
  | more hx _ _ hxs => exact List.forall_mem_cons.mpr ⟨hx.wellFormed, hxs.wellFormed⟩
termination_by 2 * t.length + 1
decreasing_by
  all_goals
    simp only [List.length_append, List.length_cons]
    omega

theorem IsEntry.wellFormed {t : Text} {e : Text × Json} {k : Nat} (h : IsEntry t e k) :
    e.2.WellFormed := by
  cases h with
  | intro _ _ _ hx => exact hx.wellFormed
termination_by 2 * t.length
decreasing_by
  simp only [List.length_append, List.length_cons]
  omega

theorem AreEntries.wellFormed {t : Text} {es : List (Text × Json)} {k : Nat}
    (h : AreEntries t es k) : ∀ e ∈ es, e.2.WellFormed := by
  cases h with
  | last he _ => exact List.forall_mem_singleton.mpr he.wellFormed
  | more he _ _ hes => exact List.forall_mem_cons.mpr ⟨he.wellFormed, hes.wellFormed⟩
termination_by 2 * t.length + 1
decreasing_by
  all_goals
    simp only [List.length_append, List.length_cons]
    omega

end

end Unnest.Json.Grammar
