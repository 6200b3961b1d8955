import Unnest.Proofs.Json.Grammar.LongInteger

namespace Unnest.Json.Grammar

open Decoder

-- What is read where there is little room is what is read where there is more, unless the room is
-- used up.
def Cut (x y : Except Stop α) : Prop :=
  x = y ∨ x = .error .tooDeep

theorem Cut.map {x y : Except Stop α} (h : Cut x y) (f : α → β) : Cut (x.map f) (y.map f) := by
  rcases h with rfl | rfl
  · exact .inl rfl
  · exact .inr rfl

theorem Cut.bind {x y : Except Stop α} {f g : α → Except Stop β} (h : Cut x y)
    (hf : ∀ a, Cut (f a) (g a)) : Cut (x >>= f) (y >>= g) := by
  rcases h with rfl | rfl
  · cases x with
    | ok a => exact hf a
    | error e => exact .inl rfl
  · exact .inr rfl

theorem Cut.enter (room : Headroom) {f g : Headroom → Except Stop β}
    (hf : Cut (f (room.within 1)) (g none)) : Cut (enter room >>= f) (enter none >>= g) := by
  rw [enter_none, Except.ok_bind]
  by_cases h : room.Holds 1
  · rw [enter_eq_ok_iff.mpr ⟨h, rfl⟩, Except.ok_bind]
    exact hf
  · exact .inr (by rw [Decoder.enter, if_neg h]; rfl)

def ValuesCut (fuel : Nat) : Prop :=
  ∀ room s, Cut (scanValue fuel room s) (scanValue fuel none s)

def ElementsCut (fuel : Nat) : Prop :=
  ∀ room s, Cut (scanElements fuel room s) (scanElements fuel none s)

def EntriesCut (fuel : Nat) : Prop :=
  ∀ room s, Cut (scanEntries fuel room s) (scanEntries fuel none s)

theorem valuesCut_succ {fuel : Nat} (he : ElementsCut fuel) (hn : EntriesCut fuel) :
    ValuesCut (fuel + 1) := by
  intro room s
  cases s with
  | nil => exact .inl rfl
  | cons c s =>
      rw [scanValue, scanValue]
      split
      · exact .inl rfl
      split
      · refine .enter room ?_
        split
        · exact .inl rfl
        · exact (he _ _).map _
      split
      · refine .enter room ?_
        split
        · exact .inl rfl
        · exact (hn _ _).map _
      exact .inl rfl

theorem elementsCut_succ {fuel : Nat} (hv : ValuesCut fuel) (he : ElementsCut fuel) :
    ElementsCut (fuel + 1) := by
  intro room s
  rw [scanElements, scanElements]
  refine (hv room s).bind fun found => ?_
  obtain ⟨x, rest⟩ := found
  dsimp only
  split
  · exact .inl rfl
  · exact (he _ _).map _
  · exact .inl rfl

theorem entriesCut_succ {fuel : Nat} (hv : ValuesCut fuel) (hn : EntriesCut fuel) :
    EntriesCut (fuel + 1) := by
  intro room s
  cases s with
  | nil => exact .inl rfl
  | cons c s =>
      rw [scanEntries, scanEntries]
      split
      · refine .bind (.inl rfl) fun name => ?_
        obtain ⟨key, rest⟩ := name
        dsimp only
        split
        · refine (hv room _).bind fun found => ?_
          obtain ⟨x, rest⟩ := found
          dsimp only
          split
          · exact .inl rfl
          · exact (hn _ _).map _
          · exact .inl rfl
        · exact .inl rfl
      · exact .inl rfl

theorem scan_cut (fuel : Nat) : ValuesCut fuel ∧ ElementsCut fuel ∧ EntriesCut fuel := by
  induction fuel with
  | zero => exact ⟨fun _ _ => .inl rfl, fun _ _ => .inl rfl, fun _ _ => .inl rfl⟩
  | succ fuel ih =>
      obtain ⟨hv, he, hn⟩ := ih
      exact ⟨valuesCut_succ he hn, elementsCut_succ hv he, entriesCut_succ hv hn⟩

theorem decode_cut (s : Text) (room : Headroom) : Cut (decode s room) (decode s) := by
  unfold decode
  split
  · exact .inl rfl
  · exact ((scan_cut _).1 room _).bind fun _ => .inl rfl

-- The brackets and braces of a text that open a list or an object, and those of its strings.
def openings (s : Text) : Nat :=
  s.countP fun c => c = .char '[' || c = .char '\x7b'

theorem openings_cons {c : CodePoint} (hc : c = .char '[' ∨ c = .char '\x7b') (s : Text) :
    openings (c :: s) = 1 + openings s := by
  rw [openings, List.countP_cons_of_pos (by simpa using hc), Nat.add_comm]
  rfl

theorem openings_skip_le (s : Text) : openings (skip s) ≤ openings s :=
  (List.dropWhile_suffix _).sublist.countP_le

theorem openings_append_le (s rest : Text) : openings rest ≤ openings (s ++ rest) :=
  (List.sublist_append_right s rest).countP_le

-- The text behind what has been skipped has no more of them.
theorem openings_le_of_skip {s rest : Text} {c : CodePoint} (h : skip s = c :: rest) :
    openings rest ≤ openings s := by
  refine Nat.le_trans ?_ (openings_skip_le s)
  rw [h]
  exact openings_append_le [c] rest

theorem scanPlain_ne_tooDeep (s : Text) : scanPlain s ≠ .error .tooDeep := by
  intro h
  unfold scanPlain at h
  split at h
  · cases h
  · split at h
    · cases h
    · have hnumber := Except.map_eq_error.mp h
      unfold scanNumber at hnumber
      split at hnumber
      split at hnumber
      · cases hnumber
      · dsimp only at hnumber
        split at hnumber
        · split at hnumber <;> cases hnumber
        · cases hnumber

-- Where the room is used up there is less of it than brackets that are opened.
def ValuesDeep (fuel : Nat) : Prop :=
  ∀ {room s}, scanValue fuel room s = .error .tooDeep → ¬room.Holds (openings s)

def ElementsDeep (fuel : Nat) : Prop :=
  ∀ {room s}, scanElements fuel room s = .error .tooDeep → ¬room.Holds (openings s)

def EntriesDeep (fuel : Nat) : Prop :=
  ∀ {room s}, scanEntries fuel room s = .error .tooDeep → ¬room.Holds (openings s)

-- Inside of brackets there is one call less to make.
theorem not_holds_bracket {room inner : Headroom} {c : CodePoint} {s : Text}
    (hc : c = .char '[' ∨ c = .char '\x7b') (henter : enter room = .ok inner)
    (h : ¬inner.Holds (openings (skip s))) : ¬room.Holds (openings (c :: s)) := by
  obtain ⟨hroom, rfl⟩ := enter_eq_ok_iff.mp henter
  rw [Headroom.holds_within hroom] at h
  rw [openings_cons hc]
  exact fun hholds => h (hholds.mono (Nat.add_le_add_left (openings_skip_le s) 1))

theorem not_holds_enter {room : Headroom} {c : CodePoint} {s : Text}
    (hc : c = .char '[' ∨ c = .char '\x7b') (henter : enter room = .error .tooDeep) :
    ¬room.Holds (openings (c :: s)) := by
  rw [openings_cons hc]
  exact fun hholds => (enter_error henter).2 (hholds.mono (Nat.le_add_right 1 _))

theorem valuesDeep_succ {fuel : Nat} (he : ElementsDeep fuel) (hn : EntriesDeep fuel) :
    ValuesDeep (fuel + 1) := by
  intro room s h
  cases s with
  | nil => cases h
  | cons c s =>
      rw [scanValue] at h
      split at h
      · obtain ⟨_, _, hstop⟩ := scanString_error (Except.map_eq_error.mp h)
        cases hstop
      split at h
      · next hc =>
        rcases Except.bind_eq_error.mp h with henter | ⟨inner, henter, h⟩
        · exact not_holds_enter (.inl hc) henter
        split at h
        · cases h
        · exact not_holds_bracket (.inl hc) henter (he (Except.map_eq_error.mp h))
      split at h
      · next hc =>
        rcases Except.bind_eq_error.mp h with henter | ⟨inner, henter, h⟩
        · exact not_holds_enter (.inr hc) henter
        split at h
        · cases h
        · exact not_holds_bracket (.inr hc) henter (hn (Except.map_eq_error.mp h))
      exact absurd h (scanPlain_ne_tooDeep _)

theorem elementsDeep_succ {fuel : Nat} (hv : ValuesDeep fuel) (he : ElementsDeep fuel) :
    ElementsDeep (fuel + 1) := by
  intro room s h
  rw [scanElements] at h
  rcases Except.bind_eq_error.mp h with hvalue | ⟨⟨x, after⟩, hx, hmore⟩
  · exact hv hvalue
  · obtain ⟨t, k, rfl, -, -⟩ := (scan_sound fuel).1 hx
    simp only at hmore
    split at hmore
    · cases hmore
    · next rest hskip =>
      have hle := openings_append_le t after
      have hrest := (openings_skip_le rest).trans (openings_le_of_skip hskip)
      exact fun hholds => he (Except.map_eq_error.mp hmore) (hholds.mono (hrest.trans hle))
    · cases hmore

theorem entriesDeep_succ {fuel : Nat} (hv : ValuesDeep fuel) (hn : EntriesDeep fuel) :
    EntriesDeep (fuel + 1) := by
  intro room s h
  cases s with
  | nil => cases h
  | cons c s =>
      rw [scanEntries] at h
      split at h
      · next hquote =>
        subst hquote
        rcases Except.bind_eq_error.mp h with hkey | ⟨⟨key, afterKey⟩, hkey, hmore⟩
        · obtain ⟨_, _, hstop⟩ := scanString_error hkey
          cases hstop
        · obtain ⟨q, hs, -⟩ := scanString_sound hkey
          rw [hs]
          have hkeyed := openings_append_le q afterKey
          simp only at hmore
          split at hmore
          · next rest hcolon =>
            have hrest := ((openings_skip_le rest).trans (openings_le_of_skip hcolon)).trans hkeyed
            rcases Except.bind_eq_error.mp hmore with hvalue | ⟨⟨x, afterValue⟩, hx, hend⟩
            · exact fun hholds => hv hvalue (hholds.mono hrest)
            · obtain ⟨t, k, hvalue, -, -⟩ := (scan_sound fuel).1 hx
              rw [hvalue] at hrest
              simp only at hend
              split at hend
              · cases hend
              · next later hcomma =>
                have hle := (openings_append_le t afterValue).trans hrest
                have hlater := (openings_skip_le later).trans (openings_le_of_skip hcomma)
                exact fun hholds =>
                  hn (Except.map_eq_error.mp hend) (hholds.mono (hlater.trans hle))
              · cases hend
          · cases hmore
      · cases h

theorem scan_deep (fuel : Nat) : ValuesDeep fuel ∧ ElementsDeep fuel ∧ EntriesDeep fuel := by
  induction fuel with
  | zero => exact ⟨nofun, nofun, nofun⟩
  | succ fuel ih =>
      obtain ⟨hv, he, hn⟩ := ih
      exact ⟨valuesDeep_succ he hn, elementsDeep_succ hv he, entriesDeep_succ hv hn⟩

-- A document is too deep only if it opens more brackets than there is room for.
theorem not_holds_of_tooDeep {s : Text} {room : Headroom}
    (h : decode s room = .error .tooDeep) : ¬room.Holds (openings s) := by
  unfold decode at h
  split at h
  · cases h
  · rcases Except.bind_eq_error.mp h with hvalue | ⟨⟨value, after⟩, -, hend⟩
    · exact fun hholds => (scan_deep _).1 hvalue (hholds.mono (openings_skip_le s))
    · simp only at hend
      split at hend <;> cases hend

theorem decode_ne_tooDeep {s : Text} : decode s ≠ .error .tooDeep :=
  fun h => not_holds_of_tooDeep h (Headroom.holds_none _)

-- With enough room for its brackets, a document is read as if there were no limit.
theorem decode_of_holds {s : Text} {room : Headroom} (h : room.Holds (openings s)) :
    decode s room = decode s :=
  (decode_cut s room).resolve_right fun hdeep => not_holds_of_tooDeep hdeep h

-- Lists that are opened one inside of the other use the room up, whatever comes then.
theorem scanValue_brackets (n fuel : Nat) (hfuel : 2 * n < fuel) (rest : Text) :
    scanValue fuel (some n) (List.replicate (n + 1) (.char '[') ++ rest) = .error .tooDeep := by
  induction n generalizing fuel with
  | zero =>
      obtain ⟨fuel, rfl⟩ := Nat.exists_eq_add_one_of_ne_zero (Nat.ne_zero_of_lt hfuel)
      rfl
  | succ n ih =>
      obtain ⟨fuel, rfl⟩ : ∃ k, fuel = k + 1 + 1 := ⟨fuel - 2, by omega⟩
      have hinner := ih fuel (by omega)
      rw [List.replicate_succ, List.cons_append] at hinner ⊢
      rw [scanValue, if_neg (by decide), if_pos rfl, List.replicate_succ, List.cons_append]
      have henter : enter (some (n + 1)) = .ok (some n) :=
        enter_eq_ok_iff.mpr ⟨Headroom.holds_some.mpr (Nat.le_add_left 1 n), rfl⟩
      rw [henter, Except.ok_bind]
      show Except.map _ (scanElements (fuel + 1) (some n) _) = _
      rw [scanElements, hinner]
      rfl

theorem decode_brackets (n : Nat) (rest : Text) :
    decode (List.replicate (n + 1) (.char '[') ++ rest) (some n) = .error .tooDeep := by
  have hscan := scanValue_brackets n (2 * (n + 1 + rest.length) + 2) (by omega) rest
  have hmark : CodePoint.char '[' ≠ .ofCode 0xFEFF := by decide
  rw [List.replicate_succ, List.cons_append] at hscan ⊢
  have hskip : skip (.char '[' :: (List.replicate n (.char '[') ++ rest)) =
      .char '[' :: (List.replicate n (.char '[') ++ rest) := rfl
  have hlength : (CodePoint.char '[' :: (List.replicate n (.char '[') ++ rest)).length =
      n + 1 + rest.length := by
    simp only [List.length_cons, List.length_append, List.length_replicate]
    omega
  rw [decode, List.head?_cons, if_neg fun h => hmark (Option.some.inj h), hskip, hlength, hscan]
  rfl

end Unnest.Json.Grammar
