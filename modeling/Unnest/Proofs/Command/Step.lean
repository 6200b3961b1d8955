import Unnest.Command.Step
import Unnest.Proofs.Json.Grammar.Size
import Unnest.Proofs.Pipeline.Forms
import Unnest.Proofs.Pipeline.Ready
import Unnest.Proofs.Text.Digit

namespace Unnest

open Text

theorem Text.OnlyDigits.digitCount_worth_le {t : Text} (h : t.OnlyDigits) :
    digitCount t.worth ≤ t.length := by
  have hlength := List.filterMap_length_eq_length.mpr h.digits
  have hne : t.filterMap CodePoint.digit? ≠ [] := by
    rw [← List.length_pos_iff, hlength]
    exact List.length_pos_iff.mpr h.ne_nil
  have hten : ∀ d ∈ t.filterMap CodePoint.digit?, d < 10 := by
    intro d hd
    obtain ⟨c, -, hc⟩ := List.mem_filterMap.mp hd
    exact CodePoint.digit?_lt hc
  rw [worth, Json.Grammar.natOfDigits_eq_decimal, ← hlength]
  exact Json.Grammar.digitCount_decimal_le hne hten

namespace Command

open JsonTable

-- An index that has too many digits to be read.
structure LongIndex (segment : Text) : Prop where
  digits : ∀ c ∈ segment, c.digit?.isSome = true
  long : maxNumeralDigits < segment.length

-- Steps that ask to spread what cannot be spread: a column that has a name kept for the table, or
-- an element with an index that cannot be read.
inductive Stumbles : Text → Prop
  | reserved (rest : Text) : Stumbles (.concat ["spread=tbl:", rest])
  | index {column kind path segment : Text} : segment ∈ path.split (.char '.') →
      LongIndex segment → Stumbles (.concat ["spread=", column, ":", kind, ":", path])

theorem Stumbles.isSpread {s : Text} (h : Stumbles s) : ofString "spread=" <+: s := by
  cases h with
  | reserved rest => exact ⟨_, rfl⟩
  | index => exact ⟨_, rfl⟩

theorem parseSegment_of_onlyDigits {t : Text} (h : t.OnlyDigits) :
    parseSegment t = if t.length ≤ maxNumeralDigits then .ok (.int t.worth)
      else .error (.longNumeral (some t.length)) := by
  have hlength := List.filterMap_length_eq_length.mpr h.digits
  have hne : t.filterMap CodePoint.digit? ≠ [] := by
    rw [← List.length_pos_iff, hlength]
    exact List.length_pos_iff.mpr h.ne_nil
  rw [parseSegment, Option.mapM_eq_some_iff.mpr ⟨h.digits, rfl⟩]
  split
  · next hnone => cases hnone
  · next hnil => exact absurd (Option.some.inj hnil) hne
  · next digits _ hdigits =>
    obtain rfl := Option.some.inj hdigits
    rw [hlength, worth]

theorem parseSegment_of_not_onlyDigits {t : Text} (h : ¬t.OnlyDigits) :
    parseSegment t = .ok (.text t) := by
  rw [parseSegment]
  split
  · rfl
  · rfl
  · next digits hne hdigits =>
    refine absurd ⟨?_, (Option.mapM_eq_some_iff.mp hdigits).1⟩ h
    rintro rfl
    exact hne (Option.some.inj hdigits).symm

theorem parseSegment_cases (t : Text) :
    (∃ d, parseSegment t = .ok d ∧ IsStep d) ∨
      LongIndex t ∧ ∃ n, parseSegment t = .error (.longNumeral n) := by
  by_cases h : t.OnlyDigits
  · rw [parseSegment_of_onlyDigits h]
    split
    · next hlength =>
      refine .inl ⟨_, rfl, .index t.worth, rfl, fun i hi => ?_⟩
      obtain rfl := Option.some.inj hi
      exact h.digitCount_worth_le.trans hlength
    · next hlength => exact .inr ⟨⟨h.digits, Nat.lt_of_not_le hlength⟩, _, rfl⟩
  · exact .inl ⟨.text t, parseSegment_of_not_onlyDigits h, .key t, rfl, nofun⟩

theorem parsePath_cases {t : Text} :
    (∃ steps, parsePath t = .ok steps ∧ steps ≠ [] ∧
      ∀ d ∈ steps, IsStep d) ∨
      ∃ segment ∈ t.split (.char '.'), LongIndex segment := by
  by_cases hlong : ∃ segment ∈ t.split (.char '.'), LongIndex segment
  · exact .inr hlong
  · have hsegment : ∀ segment ∈ t.split (.char '.'), ∃ d, parseSegment segment = .ok d := by
      intro segment hmem
      rcases parseSegment_cases segment with ⟨d, hd, -⟩ | ⟨hindex, -⟩
      · exact ⟨d, hd⟩
      · exact absurd ⟨segment, hmem, hindex⟩ hlong
    obtain ⟨steps, hsteps⟩ := Except.exists_mapM_eq_ok hsegment
    refine .inl ⟨steps, hsteps, ?_, fun d hd => ?_⟩
    · rintro rfl
      have hlength := (Except.mapM_eq_ok_iff.mp hsteps).length_eq
      exact split_ne_nil _ t (List.length_eq_zero_iff.mp hlength)
    · obtain ⟨segment, hmem, hd⟩ := Except.exists_of_mem_mapM hsteps hd
      rcases parseSegment_cases segment with ⟨d', hd', hstep⟩ | ⟨hindex, -⟩
      · exact Except.ok.inj (hd'.symm.trans hd) ▸ hstep
      · exact absurd ⟨segment, hmem, hindex⟩ hlong

-- A call by position of nothing but texts is ready, as long as it converts nothing.
theorem ready_stageOf {verb : Verb} {positions : List Text} {args : List Datum}
    (hbinds : verb.receive .function { positions := positions.map .text } = .ok ⟨args, []⟩)
    (hargs : ∀ d ∈ args, d.Whole)
    (hunforced : ∀ kind column force, verb.Forces args kind column force →
      force.truth = .ok false) :
    (stageOf verb (positions.map .text)).Ready verb ⟨args, []⟩ where
  named := Verb.ofName?_name verb
  spellable := by
    refine ⟨fun d hd => ?_, fun e he => absurd he List.not_mem_nil⟩
    obtain ⟨t, -, rfl⟩ := List.mem_map.mp hd
    exact Datum.spellable_text t
  binds := hbinds
  positions := hargs
  names e he := absurd he List.not_mem_nil
  unforced := hunforced

-- A name that is left out is that of the verb.
theorem ready_named {name argument : Text} {verb : Verb}
    (h : namedSteps.lookup name = some verb) (hargument : argument.Whole) :
    ∃ bound, (stageOf verb (if argument.isEmpty then [] else [.text argument])).Ready verb
      bound := by
  have hwhole {t : Text} (ht : t.Whole) : ∀ s, Datum.text t = .text s → s.Whole :=
    fun s hs => Datum.text.inj hs ▸ ht
  have hreceives (positions : List Text) (hpositions : positions = [] ∨ positions = [argument]) :
      ∃ column rest, verb.receive .function { positions := positions.map .text } =
        .ok ⟨.text column :: rest, []⟩ ∧ column.Whole ∧ (rest = [] ∨ rest = [.bool false]) := by
    have hmem := Entries.mem_of_lookup h
    simp only [namedSteps, List.mem_cons, List.not_mem_nil, or_false, Prod.mk.injEq] at hmem
    rcases hpositions with rfl | rfl
    · rcases hmem with ⟨-, rfl⟩ | ⟨-, rfl⟩ | ⟨-, rfl⟩ | ⟨-, rfl⟩ | ⟨-, rfl⟩ | ⟨-, rfl⟩ |
        ⟨-, rfl⟩ | ⟨-, rfl⟩ | ⟨-, rfl⟩
      all_goals first
        | exact ⟨_, [], rfl, whole_ofString _, .inl rfl⟩
        | exact ⟨_, [.bool false], rfl, whole_ofString _, .inr rfl⟩
    · rcases hmem with ⟨-, rfl⟩ | ⟨-, rfl⟩ | ⟨-, rfl⟩ | ⟨-, rfl⟩ | ⟨-, rfl⟩ | ⟨-, rfl⟩ |
        ⟨-, rfl⟩ | ⟨-, rfl⟩ | ⟨-, rfl⟩
      all_goals first
        | exact ⟨_, [], rfl, hargument, .inl rfl⟩
        | exact ⟨_, [.bool false], rfl, hargument, .inr rfl⟩
  have hready (positions : List Text) (hpositions : positions = [] ∨ positions = [argument]) :
      ∃ bound, (stageOf verb (positions.map .text)).Ready verb bound := by
    obtain ⟨column, rest, hbinds, hcolumn, hrest⟩ := hreceives positions hpositions
    refine ⟨_, ready_stageOf hbinds ?_ ?_⟩
    · refine List.forall_mem_cons.mpr ⟨hwhole hcolumn, fun d hd => ?_⟩
      rcases hrest with rfl | rfl
      · cases hd
      · obtain rfl := List.mem_singleton.mp hd
        intro s hs
        cases hs
    · rintro kind c force ⟨-, heq⟩
      obtain ⟨-, rfl⟩ := List.cons.inj heq
      rcases hrest with hrest | hrest
      · cases hrest
      · obtain rfl := (List.cons.inj hrest).1
        rfl
  split
  · exact hready [] (.inl rfl)
  · exact hready [argument] (.inr rfl)

theorem ready_texts {verb : Verb} (hverb : verb = .enterObject ∨ verb = .filterJsonTypes)
    {argument : Text} (hargument : argument.Whole) (separator : CodePoint) :
    ∃ bound, (stageOf verb ((argument.split separator).map .text)).Ready verb bound := by
  have hbinds : verb.receive .function
      { positions := (argument.split separator).map .text } =
        .ok ⟨(argument.split separator).map .text, []⟩ := by
    rcases hverb with rfl | rfl <;> rfl
  refine ⟨_, ready_stageOf hbinds (fun d hd => ?_) ?_⟩
  · obtain ⟨piece, hpiece, rfl⟩ := List.mem_map.mp hd
    exact fun s hs => Datum.text.inj hs ▸ hargument.subset (subset_of_mem_split hpiece)
  · rintro kind - - ⟨rfl, -⟩
    rcases hverb with h | h <;> cases h

theorem ready_spread {column : Text} (hcolumn : column.Whole) (hname : column ≠ "tbl")
    {d : Descriptor} (hd : Datum.Spellable (.descriptor d)) :
    (stageOf .spreadValues [] [(column, .descriptor d)]).Ready .spreadValues
      { names := [(column, .descriptor d)] } where
  named := Verb.ofName?_name .spreadValues
  spellable := ⟨nofun, List.forall_mem_singleton.mpr hd⟩
  binds := by
    have haccepted : Form.refuses .function { names := [(column, .descriptor d)] } = false := by
      simp [Form.refuses, Form.reserved, hname]
    show Verb.receive .spreadValues .function { names := [(column, .descriptor d)] } = _
    rw [Verb.receive, haccepted]
    rfl
  positions := nofun
  names := List.forall_mem_singleton.mpr hcolumn
  unforced _ _ _ h := nomatch h.1

theorem mem_descriptorKinds {name : Text} {kind : Kind}
    (h : descriptorKinds.lookup name = some kind) :
    ∃ scalar, ScalarKind.ofKind? kind = some scalar := by
  have hmem := Entries.mem_of_lookup h
  simp only [descriptorKinds, List.mem_cons, List.not_mem_nil, or_false, Prod.mk.injEq] at hmem
  rcases hmem with ⟨-, rfl⟩ | ⟨-, rfl⟩ | ⟨-, rfl⟩ <;> exact ⟨_, rfl⟩

-- A step is read as a stage that is ready, or is refused as such.
def IsRead (x : Traced Stage) : Prop :=
  (∃ s, x.result = .ok s ∧ ∃ verb bound, s.Ready verb bound) ∨
    ∃ fault, x.result = .error (.badStep fault)

theorem parseSpread_cases {argument : Text} (hargument : argument.Whole) :
    IsRead (parseSpread argument) ∨ Stumbles (.concat ["spread=", argument]) := by
  unfold parseSpread
  rcases hcolumn : argument.cut (.char ':') with ⟨column, rest⟩
  obtain ⟨-, hargumentEq⟩ := cut_eq hcolumn
  cases rest with
  | none =>
      dsimp only
      split
      · next hpath => cases hpath
      · exact .inl (.inr ⟨_, rfl⟩)
  | some rest =>
      rcases hkindCut : rest.cut (.char ':') with ⟨kindName, path⟩
      obtain ⟨-, hrestEq⟩ := cut_eq hkindCut
      dsimp only
      rw [hkindCut]
      dsimp only
      split
      · next c cs kind p ps hkind =>
        obtain ⟨scalar, hscalar⟩ := mem_descriptorKinds hkind
        -- the step is complete: only its path and the name of its column can be at fault
        rcases @parsePath_cases (p :: ps) with
          ⟨steps, hsteps, hne, hspellable⟩ | ⟨segment, hmem, hlong⟩
        · by_cases hname : c :: cs = "tbl"
          · have hreserved : Text.concat ["spread=", argument] = .concat ["spread=tbl:", rest] := by
              rw [hargumentEq, hname]
              rfl
            exact .inr (hreserved ▸ .reserved rest)
          · have hcolumnWhole : Text.Whole (c :: cs) := by
              rw [hargumentEq] at hargument
              exact hargument.subset (List.subset_append_left _ _)
            refine .inl (.inl ⟨_, ?_, _, _,
              ready_spread hcolumnWhole hname (Descriptor.spellable_steps hspellable scalar)⟩)
            simp only [Traced.result_bind, Traced.result_liftM, hsteps, Except.ok_bind,
              Descriptor.result_make hscalar hne fun d hd => (hspellable d hd).isTaken]
            rfl
        · have hindex : Text.concat ["spread=", argument] =
              .concat ["spread=", c :: cs, ":", kindName, ":", p :: ps] := by
            rw [hargumentEq, hrestEq]
            simp [Text.concat, show Text.ofString ":" = [.char ':'] from rfl]
          exact .inr (hindex ▸ .index hmem hlong)
      · exact .inl (.inr ⟨_, rfl⟩)

theorem parseStep_cases {t : Text} (ht : t.Whole) : IsRead (parseStep t) ∨ Stumbles t := by
  rcases hcut : t.cut (.char '=') with ⟨name, argument⟩
  obtain ⟨-, heq⟩ := cut_eq hcut
  have hargument : (argument.getD []).Whole := by
    refine ht.subset ?_
    cases argument with
    | none => exact List.nil_subset _
    | some a =>
        rw [heq]
        exact fun c hc => List.mem_append_right name (List.mem_cons_of_mem _ hc)
  unfold parseStep
  rw [hcut]
  dsimp only
  split
  · next verb hverb => exact .inl (.inl ⟨_, rfl, _, ready_named hverb hargument⟩)
  split
  · split
    · exact .inl (.inr ⟨_, rfl⟩)
    · exact .inl (.inl ⟨_, rfl, _, ready_texts (.inl rfl) hargument _⟩)
  split
  · split
    · exact .inl (.inr ⟨_, rfl⟩)
    · exact .inl (.inl ⟨_, rfl, _, ready_texts (.inr rfl) hargument _⟩)
  split
  · next hname =>
    cases argument with
    | none => exact .inl (.inr ⟨_, rfl⟩)
    | some a =>
        have hspread : t = .concat ["spread=", a] := by
          rw [heq, hname]
          exact (List.append_nil _).symm
        rw [hspread]
        exact parseSpread_cases hargument
  · exact .inl (.inr ⟨_, rfl⟩)

end Command

end Unnest
