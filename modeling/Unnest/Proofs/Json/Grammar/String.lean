import Unnest.Json.Decoder
import Unnest.Proofs.Json.Grammar.Basic
import Unnest.Proofs.Outcome

namespace Unnest

namespace CodePoint

theorem code_ofCode {n : Nat} (h : n < 0x110000) : (ofCode n).code = n := by
  unfold ofCode
  split
  · simp only [code]
    omega
  · next hs =>
    have hvalid : n.isValidChar := by
      unfold Nat.isValidChar
      omega
    rw [code, Char.ofNat, dif_pos hvalid]
    rfl

theorem code_injective : Function.Injective code := by
  intro a b h
  -- no character has the code of a surrogate
  have hrange (c : Char) : c.toNat < 0xD800 ∨ 0xDFFF < c.toNat :=
    c.valid.imp_right And.left
  cases a with
  | char c =>
      cases b with
      | char d => exact congrArg char (Char.toNat_inj.mp h)
      | surrogate s =>
          have hc := hrange c
          simp only [code] at h
          omega
  | surrogate s =>
      cases b with
      | char d =>
          have hd := hrange d
          simp only [code] at h
          omega
      | surrogate s' => exact congrArg surrogate (Fin.ext (Nat.add_left_cancel h))

end CodePoint

namespace Json.Grammar

theorem hexDigit?_eq_some_iff {c : CodePoint} {d : Nat} :
    c.hexDigit? = some d ↔ IsHex c d := by
  unfold CodePoint.hexDigit?
  constructor
  · intro h
    simp only at h
    split at h
    · next hc =>
      obtain rfl := Option.some.inj h
      exact .digit (by omega) (by omega)
    · split at h
      · next hc =>
        obtain rfl := Option.some.inj h
        rw [Nat.add_comm]
        exact .upper (by omega) (by omega)
      · split at h
        · next hc =>
          obtain rfl := Option.some.inj h
          rw [Nat.add_comm]
          exact .lower (by omega) (by omega)
        · cases h
  · intro h
    cases h with
    | digit hd hc | upper hd hc | lower hd hc =>
        simp only [hc]
        split_ifs <;> first | omega | (congr 1; omega)

theorem hexUnit?_eq_some_iff {h₁ h₂ h₃ h₄ : CodePoint} {n : Nat} :
    Decoder.hexUnit? h₁ h₂ h₃ h₄ = some n ↔
      LongEscape [.char '\\', .char 'u', h₁, h₂, h₃, h₄] n := by
  simp only [Decoder.hexUnit?, Option.bind_eq_bind, Option.bind_eq_some_iff, Option.pure_def,
    hexDigit?_eq_some_iff, Option.some.injEq]
  constructor
  · rintro ⟨i, hi, j, hj, k, hk, l, hl, rfl⟩
    have hvalue : ((i * 16 + j) * 16 + k) * 16 + l = 0x1000 * i + 0x100 * j + 0x10 * k + l := by
      omega
    rw [hvalue]
    exact .intro hi hj hk hl
  · rintro ⟨hi, hj, hk, hl⟩
    exact ⟨_, hi, _, hj, _, hk, _, hl, by omega⟩

theorem shortEscape?_eq_some_iff {letter meant : CodePoint} :
    Decoder.shortEscape? letter = some meant ↔ ShortEscape letter meant := by
  constructor
  · intro h
    obtain ⟨⟨written, spelled⟩, hmem, h⟩ := List.exists_of_findSome?_eq_some h
    simp only [Option.ite_none_right_eq_some, Option.some.injEq] at h
    obtain ⟨rfl, rfl⟩ := h
    simp only [List.mem_cons, Prod.mk.injEq, List.not_mem_nil, or_false] at hmem
    rcases hmem with ⟨rfl, rfl⟩ | ⟨rfl, rfl⟩ | ⟨rfl, rfl⟩ | ⟨rfl, rfl⟩ | ⟨rfl, rfl⟩ | ⟨rfl, rfl⟩ |
      ⟨rfl, rfl⟩ | ⟨rfl, rfl⟩ <;> constructor
  · intro h
    cases h <;> rfl

theorem IsHex.lt {c : CodePoint} {d : Nat} (h : IsHex c d) : d < 16 := by
  cases h <;> omega

theorem LongEscape.lt {e : Text} {n : Nat} (h : LongEscape e n) : n < 0x10000 := by
  obtain ⟨hi, hj, hk, hl⟩ := h
  have := hi.lt
  have := hj.lt
  have := hk.lt
  have := hl.lt
  omega

-- Characters as they are written, before halves of pairs are joined.
inductive Spells : Text → List Decoder.Unit → Prop
  | nil : Spells [] []
  | plain {c t us} : 0x20 ≤ c.code → c ≠ .char '"' → c ≠ .char '\\' → Spells t us →
      Spells (c :: t) (.plain c :: us)
  | short {letter meant t us} : ShortEscape letter meant → Spells t us →
      Spells (.char '\\' :: letter :: t) (.plain meant :: us)
  | long {e n t us} : LongEscape e n → Spells t us → Spells (e ++ t) (.escaped n :: us)

theorem scanUnits_sound {opening s rest : Text} {us : List Decoder.Unit}
    (h : Decoder.scanUnits opening s = .ok (us, rest)) :
    ∃ t, s = t ++ .char '"' :: rest ∧ Spells t us := by
  fun_induction Decoder.scanUnits opening s generalizing us with
  | case2 after =>
      obtain ⟨rfl, rfl⟩ := Prod.mk.inj (Except.ok.inj h)
      exact ⟨[], rfl, .nil⟩
  | case4 h₁ h₂ h₃ h₄ after n _ hn _ ih =>
      obtain ⟨vs, hvs, rfl⟩ := Except.map_fst_eq_ok.mp h
      obtain ⟨t, rfl, ht⟩ := ih hvs
      exact ⟨_, rfl, .long (hexUnit?_eq_some_iff.mp hn) ht⟩
  | case7 letter after _ meant hm _ ih =>
      obtain ⟨vs, hvs, rfl⟩ := Except.map_fst_eq_ok.mp h
      obtain ⟨t, rfl, ht⟩ := ih hvs
      exact ⟨_, rfl, .short (shortEscape?_eq_some_iff.mp hm) ht⟩
  | case10 c after hq hb hc ih =>
      obtain ⟨vs, hvs, rfl⟩ := Except.map_fst_eq_ok.mp h
      obtain ⟨t, rfl, ht⟩ := ih hvs
      exact ⟨c :: t, rfl, .plain (Nat.le_of_not_lt hc) hq hb ht⟩
  | case1 | case3 | case5 | case6 | case8 | case9 => cases h

theorem ShortEscape.ne_u {letter meant : CodePoint} (h : ShortEscape letter meant) :
    letter ≠ .char 'u' := by
  cases h <;> decide

theorem scanUnits_append {opening t rest : Text} {us : List Decoder.Unit} (h : Spells t us) :
    Decoder.scanUnits opening (t ++ .char '"' :: rest) = .ok (us, rest) := by
  have hbackslash : CodePoint.char '\\' ≠ .char '"' := by decide
  induction h with
  | nil => rw [List.nil_append, Decoder.scanUnits.eq_def]; simp only [if_true]
  | plain hc hq hb _ ih =>
      rw [List.cons_append, Decoder.scanUnits.eq_def]
      simp only [if_neg hq, if_neg hb, if_neg (Nat.not_lt.mpr hc), ih, Except.map]
  | short hm _ ih =>
      rw [List.cons_append, List.cons_append, Decoder.scanUnits.eq_def]
      simp only [if_neg hbackslash, if_true, if_neg hm.ne_u, shortEscape?_eq_some_iff.mpr hm, ih,
        Except.map]
  | @long e n t us he _ ih =>
      have hmore : (t ++ .char '"' :: rest).isEmpty = false := by simp
      obtain ⟨hi, hj, hk, hl⟩ := he
      have hn := hexUnit?_eq_some_iff.mpr (LongEscape.intro hi hj hk hl)
      simp only [List.cons_append, List.nil_append]
      rw [Decoder.scanUnits.eq_def]
      simp only [if_neg hbackslash, if_true, hn, hmore, ih, Except.map]

theorem Spells.plain_inv {t : Text} {c : CodePoint} {us : List Decoder.Unit}
    (h : Spells t (.plain c :: us)) :
    (∃ u, t = c :: u ∧ 0x20 ≤ c.code ∧ c ≠ .char '"' ∧ c ≠ .char '\\' ∧ Spells u us) ∨
      ∃ letter u, t = .char '\\' :: letter :: u ∧ ShortEscape letter c ∧ Spells u us := by
  cases h with
  | plain hc hq hb hu => exact .inl ⟨_, rfl, hc, hq, hb, hu⟩
  | short hm hu => exact .inr ⟨_, _, rfl, hm, hu⟩

theorem Spells.escaped_inv {t : Text} {n : Nat} {us : List Decoder.Unit}
    (h : Spells t (.escaped n :: us)) :
    ∃ e u, t = e ++ u ∧ LongEscape e n ∧ Spells u us := by
  cases h with
  | long he hu => exact ⟨_, _, rfl, he, hu⟩

theorem LongEscape.unique {e l u v : Text} {n m : Nat} (he : LongEscape e n)
    (hl : LongEscape l m) (h : l ++ v = e ++ u) : n = m := by
  obtain ⟨hi, hj, hk, hd⟩ := he
  obtain ⟨hi', hj', hk', hd'⟩ := hl
  simp only [List.cons_append, List.nil_append, List.cons.injEq, true_and] at h
  obtain ⟨rfl, rfl, rfl, rfl, -⟩ := h
  have hn := hexUnit?_eq_some_iff.mpr (LongEscape.intro hi hj hk hd)
  have hm := hexUnit?_eq_some_iff.mpr (LongEscape.intro hi' hj' hk' hd')
  exact Option.some.inj (hn.symm.trans hm)

-- Text that begins with an escape is spelled with it first.
theorem Spells.of_prefix {t l : Text} {us : List Decoder.Unit} {lo : Nat} (h : Spells t us)
    (hl : LongEscape l lo) (hbegin : l <+: t) : ∃ vs, us = .escaped lo :: vs := by
  obtain ⟨v, hv⟩ := hbegin
  cases h with
  | nil =>
      cases hl
      cases hv
  | plain _ _ hb _ =>
      cases hl
      exact absurd (List.cons.inj hv).1.symm hb
  | short hm _ =>
      cases hl
      exact absurd (List.cons.inj (List.cons.inj hv).2).1.symm hm.ne_u
  | long he _ =>
      obtain rfl := he.unique hl hv
      exact ⟨_, rfl⟩

theorem code_pair {hi lo : Nat} (hhi : IsHigh hi) (hlo : IsLow lo) :
    (CodePoint.ofCode (0x10000 + (hi - 0xD800) * 0x400 + (lo - 0xDC00))).code =
      0x10000 + 0x400 * (hi - 0xD800) + (lo - 0xDC00) := by
  unfold IsHigh at hhi
  unfold IsLow at hlo
  rw [CodePoint.code_ofCode (by omega)]
  omega

-- The cases are those in which neighbours are joined or not.
theorem Spells.characters {t : Text} {us : List Decoder.Unit} (h : Spells t us) :
    Characters t (Decoder.joinPairs us) := by
  fun_induction Decoder.joinPairs us generalizing t with
  | case1 =>
      cases h
      exact .nil
  | case2 c us ih =>
      rcases h.plain_inv with ⟨u, rfl, hc, hq, hb, hu⟩ | ⟨letter, u, rfl, hm, hu⟩
      · exact .plain hc hq hb (ih hu)
      · exact .short hm (ih hu)
  | case3 hi lo us hpair ih =>
      obtain ⟨e, u, rfl, he, hu⟩ := h.escaped_inv
      obtain ⟨l, v, rfl, hl, hv⟩ := hu.escaped_inv
      obtain ⟨hhi, hhi', hlo, hlo'⟩ := hpair
      rw [← List.append_assoc]
      exact .pair he hl ⟨hhi, hhi'⟩ ⟨hlo, hlo'⟩ (code_pair ⟨hhi, hhi'⟩ ⟨hlo, hlo'⟩) (ih hv)
  | case4 hi lo us hpair ih =>
      obtain ⟨e, u, rfl, he, hu⟩ := h.escaped_inv
      refine .alone he (fun hhi l m hl hm hbegin => ?_)
        (CodePoint.code_ofCode (Nat.lt_trans he.lt (by decide))) (ih hu)
      obtain ⟨vs, hvs⟩ := hu.of_prefix hl hbegin
      obtain ⟨hlo, -⟩ := List.cons.inj hvs
      obtain rfl := Decoder.Unit.escaped.inj hlo
      exact hpair ⟨hhi.1, hhi.2, hm.1, hm.2⟩
  | case5 n us hlast ih =>
      obtain ⟨e, u, rfl, he, hu⟩ := h.escaped_inv
      refine .alone he (fun _ l m hl _ hbegin => ?_)
        (CodePoint.code_ofCode (Nat.lt_trans he.lt (by decide))) (ih hu)
      obtain ⟨vs, hvs⟩ := hu.of_prefix hl hbegin
      exact hlast _ _ hvs

-- An escape that stands alone is not joined with what follows.
theorem joinPairs_alone {n : Nat} {us : List Decoder.Unit}
    (h : IsHigh n → ∀ lo vs, us = .escaped lo :: vs → ¬IsLow lo) :
    Decoder.joinPairs (.escaped n :: us) = .ofCode n :: Decoder.joinPairs us := by
  cases us with
  | nil => rfl
  | cons v vs =>
      cases v with
      | plain c => rfl
      | escaped lo =>
          have hpair : ¬(0xD800 ≤ n ∧ n < 0xDC00 ∧ 0xDC00 ≤ lo ∧ lo < 0xE000) :=
            fun hp => h ⟨hp.1, hp.2.1⟩ lo vs rfl ⟨hp.2.2.1, hp.2.2.2⟩
          rw [Decoder.joinPairs, if_neg hpair]

theorem Characters.spells {t u : Text} (h : Characters t u) :
    ∃ us, Spells t us ∧ u = Decoder.joinPairs us := by
  induction h with
  | nil => exact ⟨[], .nil, rfl⟩
  | plain hc hq hb _ ih =>
      obtain ⟨us, hus, rfl⟩ := ih
      exact ⟨_, .plain hc hq hb hus, rfl⟩
  | short hm _ ih =>
      obtain ⟨us, hus, rfl⟩ := ih
      exact ⟨_, .short hm hus, rfl⟩
  | @pair e l hi lo c t u he hl hhi hlo hc _ ih =>
      obtain ⟨us, hus, rfl⟩ := ih
      have hcode := hc.trans (code_pair hhi hlo).symm
      rw [CodePoint.code_injective hcode]
      refine ⟨.escaped hi :: .escaped lo :: us, ?_, ?_⟩
      · rw [List.append_assoc]
        exact .long he (.long hl hus)
      · rw [Decoder.joinPairs, if_pos ⟨hhi.1, hhi.2, hlo.1, hlo.2⟩]
  | @alone e n c t u he halone hc _ ih =>
      obtain ⟨us, hus, rfl⟩ := ih
      have hn := CodePoint.code_ofCode (Nat.lt_trans he.lt (show 0x10000 < 0x110000 by decide))
      obtain rfl := CodePoint.code_injective (hc.trans hn.symm)
      refine ⟨_, .long he hus, (joinPairs_alone fun hhi lo vs hvs hlo => ?_).symm⟩
      subst hvs
      obtain ⟨l, v, rfl, hl, -⟩ := hus.escaped_inv
      exact halone hhi l lo hl hlo (List.prefix_append l v)

theorem scanString_sound {opening s rest u : Text}
    (h : Decoder.scanString opening s = .ok (u, rest)) :
    ∃ t, .char '"' :: s = t ++ rest ∧ IsString t u := by
  obtain ⟨us, hus, rfl⟩ := Except.map_fst_eq_ok.mp h
  obtain ⟨t, rfl, ht⟩ := scanUnits_sound hus
  exact ⟨.char '"' :: t ++ [.char '"'], by simp, .quoted ht.characters⟩

theorem scanString_append {s u : Text} (h : IsString s u) :
    ∃ t, s = .char '"' :: t ∧
      ∀ opening rest, Decoder.scanString opening (t ++ rest) = .ok (u, rest) := by
  obtain ⟨ht⟩ := h
  next t =>
  obtain ⟨us, hus, rfl⟩ := ht.spells
  refine ⟨t ++ [.char '"'], rfl, fun opening rest => Except.map_fst_eq_ok.mpr ⟨us, ?_, rfl⟩⟩
  rw [List.append_assoc]
  exact scanUnits_append hus

end Json.Grammar

end Unnest
