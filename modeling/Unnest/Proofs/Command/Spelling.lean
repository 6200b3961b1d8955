import Unnest.Proofs.Command.Step
import Unnest.Proofs.JsonTable.Pool
import Unnest.Proofs.Text.Digit
import Unnest.Proofs.Text.Separator

namespace Unnest

open Text

namespace Step

-- A key is written as it is, and an index in decimal.
def written : Step → Text
  | .key k => k
  | .index i => .ofInt i

-- A segment means an index if it holds nothing but digits. No point stands in a segment.
def Representable : Step → Prop
  | .key k => .char '.' ∉ k ∧ ¬k.OnlyDigits
  | .index i => 0 ≤ i ∧ digitCount i.natAbs ≤ maxNumeralDigits

instance : (s : Step) → Decidable s.Representable
  | .key _ => inferInstanceAs (Decidable (_ ∧ _))
  | .index _ => inferInstanceAs (Decidable (_ ∧ _))

-- Segments that are read as a step: of an index any digits that are worth it, of whatever script
-- and with whatever zeros in front.
inductive Spells : Text → Step → Prop
  | key (k : Text) : Spells k (.key k)
  | index {t : Text} : t.OnlyDigits → t.length ≤ maxNumeralDigits → Spells t (.index t.worth)

variable {t : Text} {s : Step}

theorem Representable.spells_written (h : s.Representable) : Spells s.written s := by
  cases s with
  | key k => exact .key k
  | index i =>
      obtain ⟨hsign, hlength⟩ := h
      obtain ⟨hdigits, hworth⟩ := ofNat_digits i.natAbs
      have hwritten : written (.index i) = ofNat i.natAbs := if_neg (Int.not_lt.mpr hsign)
      have hindex : i = (ofNat i.natAbs).worth := by
        rw [hworth]
        omega
      have hspells := Spells.index hdigits (by rwa [ofNat, List.length_map])
      rw [hwritten]
      rwa [← hindex] at hspells

theorem Spells.not_mem (h : Spells t s) (hs : s.Representable) : .char '.' ∉ t := by
  cases h with
  | key => exact hs.1
  | index hdigits _ =>
      intro hpoint
      exact absurd (hdigits.digits _ hpoint) (by decide)

theorem Spells.eq_nil_iff (h : Spells t s) : t = [] ↔ s = .key [] := by
  cases h with
  | key => simp
  | index hdigits _ => simp [hdigits.ne_nil]

end Step

namespace Command

theorem parseSegment_eq_ok_iff {t : Text} {d : Datum} (h : .char '.' ∉ t) :
    parseSegment t = .ok d ↔ ∃ s : Step, s.Spells t ∧ s.Representable ∧ d = .ofStep s := by
  constructor
  · intro hd
    by_cases hdigits : t.OnlyDigits
    · rw [parseSegment_of_onlyDigits hdigits] at hd
      split at hd
      · next hlength =>
        obtain rfl := Except.ok.inj hd
        exact ⟨_, .index hdigits hlength, ⟨Int.natCast_nonneg _,
          hdigits.digitCount_worth_le.trans hlength⟩, rfl⟩
      · cases hd
    · rw [parseSegment_of_not_onlyDigits hdigits] at hd
      obtain rfl := Except.ok.inj hd
      exact ⟨_, .key t, ⟨h, hdigits⟩, rfl⟩
  · rintro ⟨s, hspells, hs, rfl⟩
    cases hspells with
    | key => exact parseSegment_of_not_onlyDigits hs.2
    | index hdigits hlength => rw [parseSegment_of_onlyDigits hdigits, if_pos hlength]; rfl

-- A path is read as its steps, one for each segment.
theorem parsePath_eq_ok_iff {t : Text} {steps : List Datum} :
    parsePath t = .ok steps ↔ ∃ segments path, t = .join "." segments ∧ segments ≠ [] ∧
      List.Forall₂ Step.Spells segments path ∧ (∀ s ∈ path, s.Representable) ∧
      steps = path.map .ofStep := by
  rw [parsePath, Except.mapM_eq_ok_iff]
  constructor
  · intro h
    refine ⟨split (.char '.') t, ?_⟩
    obtain ⟨path, hpath⟩ : ∃ path : Path, List.Forall₂ Step.Spells (split (.char '.') t) path ∧
        (∀ s ∈ path, s.Representable) ∧ steps = path.map .ofStep := by
      have hpoint : ∀ segment ∈ split (.char '.') t, .char '.' ∉ segment :=
        fun _ => not_mem_of_mem_split
      generalize split (.char '.') t = segments at h hpoint
      induction h with
      | nil => exact ⟨[], .nil, nofun, rfl⟩
      | cons hd _ ih =>
          obtain ⟨hsegment, hrest⟩ := List.forall_mem_cons.mp hpoint
          obtain ⟨s, hspells, hs, rfl⟩ := (parseSegment_eq_ok_iff hsegment).mp hd
          obtain ⟨path, hpath, hsteps, rfl⟩ := ih hrest
          exact ⟨s :: path, .cons hspells hpath, List.forall_mem_cons.mpr ⟨hs, hsteps⟩, rfl⟩
    exact ⟨path, (join_split (.char '.') t).symm, split_ne_nil _ t, hpath⟩
  · rintro ⟨segments, path, rfl, hne, hspells, hsteps, rfl⟩
    have hread : ∀ segment ∈ segments, .char '.' ∉ segment := by
      intro segment hmem
      obtain ⟨k, hk, rfl⟩ := List.getElem_of_mem hmem
      have hk' : k < path.length := hspells.length_eq ▸ hk
      exact (hspells.get hk hk').not_mem (hsteps _ (List.getElem_mem hk'))
    rw [show Text.ofString "." = [.char '.'] from rfl, split_join hne hread,
      List.forall₂_map_right_iff]
    clear hne
    induction hspells with
    | nil => exact .nil
    | @cons t s _ _ ht _ ih =>
        obtain ⟨hs, hsteps⟩ := List.forall_mem_cons.mp hsteps
        obtain ⟨hpoint, hread⟩ := List.forall_mem_cons.mp hread
        exact .cons ((parseSegment_eq_ok_iff hpoint).mpr ⟨s, ht, hs, rfl⟩) (ih hsteps hread)

-- What a step of the command line asks for.
inductive Instruction where
  | named (name : Text) (verb : Verb) (argument : Option Text)
  | enter (keys : List Text)
  | types (names : List Text)
  | spread (column : Text) (kind : ScalarKind) (path : Path)

namespace Instruction

def written : Instruction → Text
  | named name _ none => name
  | named name _ (some argument) => .concat [name, "=", argument]
  | enter keys => .concat ["enter_object=", .join "." keys]
  | types names => .concat ["types=", .join "," names]
  | spread column kind path =>
      .concat ["spread=", column, ":", kind.kind.name, ":", .join "." (path.map Step.written)]

def stage : Instruction → Stage
  | named _ verb argument => stageOf verb (argument.map Datum.text).toList
  | enter keys => stageOf .enterObject (keys.map .text)
  | types names => stageOf .filterJsonTypes (names.map .text)
  | spread column kind path => stageOf .spreadValues [] [(column, .descriptor ⟨kind, path⟩)]

def Representable : Instruction → Prop
  | named name verb argument => (name, verb) ∈ namedSteps ∧ argument ≠ some []
  | enter keys => (∀ k ∈ keys, .char '.' ∉ k) ∧ join "." keys ≠ []
  | types names => (∀ t ∈ names, .char ',' ∉ t) ∧ join "," names ≠ []
  | spread column _ path => column ≠ [] ∧ .char ':' ∉ column ∧ (∀ s ∈ path, s.Representable) ∧
      join "." (path.map Step.written) ≠ []

instance : (i : Instruction) → Decidable i.Representable
  | .named .. => inferInstanceAs (Decidable (_ ∧ _))
  | .enter _ => inferInstanceAs (Decidable (_ ∧ _))
  | .types _ => inferInstanceAs (Decidable (_ ∧ _))
  | .spread .. => inferInstanceAs (Decidable (_ ∧ _ ∧ _ ∧ _))

-- Texts that are read as an instruction: the one that is written for it, the same with an equals
-- sign where no argument follows, and the same with its indices in other digits.
inductive Spells : Text → Instruction → Prop
  | written (i : Instruction) : Spells i.written i
  | bare (name : Text) (verb : Verb) : Spells (.concat [name, "="]) (.named name verb none)
  | path {segments : List Text} {path : Path} (column : Text) (kind : ScalarKind) :
      List.Forall₂ Step.Spells segments path →
      Spells (.concat ["spread=", column, ":", kind.kind.name, ":", .join "." segments])
        (.spread column kind path)

end Instruction

theorem lookup_descriptorKinds {name : Text} {kind : Kind} :
    descriptorKinds.lookup name = some kind ↔
      ∃ scalar : ScalarKind, name = scalar.kind.name ∧ kind = scalar.kind := by
  constructor
  · intro h
    have hmem := Entries.mem_of_lookup h
    simp only [descriptorKinds, List.mem_cons, List.not_mem_nil, or_false, Prod.mk.injEq] at hmem
    rcases hmem with ⟨rfl, rfl⟩ | ⟨rfl, rfl⟩ | ⟨rfl, rfl⟩
    · exact ⟨.string, rfl, rfl⟩
    · exact ⟨.number, rfl, rfl⟩
    · exact ⟨.logical, rfl, rfl⟩
  · rintro ⟨scalar, rfl, rfl⟩
    cases scalar <;> rfl

-- A form with all of its parts: a column, a kind and a path.
theorem parseSpread_form {column path : Text} (kind : ScalarKind) (hcolumn : column ≠ [])
    (hcolon : .char ':' ∉ column) (hpath : path ≠ []) :
    (parseSpread (.concat [column, ":", kind.kind.name, ":", path])).result =
      parsePath path >>= fun steps => (Descriptor.make kind.kind steps).result >>= fun d =>
        .ok (stageOf .spreadValues [] [(column, .descriptor d)]) := by
  have hname : .char ':' ∉ kind.kind.name := by cases kind <;> decide
  have hform : Text.concat [column, ":", kind.kind.name, ":", path] =
      column ++ .char ':' :: (kind.kind.name ++ .char ':' :: path) := by
    simp [Text.concat, show Text.ofString ":" = [.char ':'] from rfl]
  obtain ⟨c, cs, rfl⟩ := List.exists_cons_of_ne_nil hcolumn
  obtain ⟨p, ps, rfl⟩ := List.exists_cons_of_ne_nil hpath
  rw [parseSpread, hform, cut_append hcolon]
  dsimp only
  rw [cut_append hname]
  dsimp only
  rw [lookup_descriptorKinds.mpr ⟨kind, rfl, rfl⟩]
  simp only [Traced.result_bind, Traced.result_liftM]
  rfl

theorem exists_form_of_parseSpread {argument : Text} {s : Stage}
    (h : (parseSpread argument).result = .ok s) :
    ∃ (column : Text) (kind : ScalarKind) (path : Text),
      argument = .concat [column, ":", kind.kind.name, ":", path] ∧
      column ≠ [] ∧ .char ':' ∉ column ∧ path ≠ [] := by
  unfold parseSpread at h
  rcases hcolumn : argument.cut (.char ':') with ⟨column, rest⟩
  obtain ⟨hcolon, hargument⟩ := cut_eq hcolumn
  cases rest with
  | none =>
      rw [hcolumn] at h
      dsimp only at h
      split at h
      · next hpath => cases hpath
      · cases h
  | some rest =>
      rcases hkind : rest.cut (.char ':') with ⟨name, path⟩
      obtain ⟨-, hrest⟩ := cut_eq hkind
      rw [hcolumn] at h
      dsimp only at h
      rw [hkind] at h
      dsimp only at h
      split at h
      · next c cs kind p ps hlookup =>
        obtain ⟨scalar, rfl, rfl⟩ := lookup_descriptorKinds.mp hlookup
        refine ⟨c :: cs, scalar, p :: ps, ?_, List.cons_ne_nil _ _, hcolon,
          List.cons_ne_nil _ _⟩
        rw [hargument, hrest]
        simp [Text.concat, show Text.ofString ":" = [.char ':'] from rfl]
      · cases h

theorem join_segments_eq_nil_iff {segments : List Text} {path : Path}
    (h : List.Forall₂ Step.Spells segments path) :
    join "." segments = [] ↔ path = [] ∨ path = [.key []] := by
  rw [show Text.ofString "." = [.char '.'] from rfl, join_eq_nil_iff]
  cases h with
  | nil => simp
  | @cons t s segments path hspells hrest =>
      cases hrest with
      | nil => simp [hspells.eq_nil_iff]
      | cons _ _ => simp

theorem spells_map_written {path : Path} (h : ∀ s ∈ path, s.Representable) :
    List.Forall₂ Step.Spells (path.map Step.written) path := by
  rw [List.forall₂_map_left_iff, List.forall₂_same]
  exact fun s hs => (h s hs).spells_written

-- What is spread is told by a form whose path is made of segments that spell its steps.
theorem parseSpread_eq_ok_iff {argument : Text} {s : Stage} :
    (parseSpread argument).result = .ok s ↔ ∃ column kind segments path,
      argument = .concat [column, ":", kind.kind.name, ":", .join "." segments] ∧
      List.Forall₂ Step.Spells segments path ∧
      (Instruction.spread column kind path).Representable ∧
      s = (Instruction.spread column kind path).stage := by
  have hmake {kind : ScalarKind} {path : Path} (hne : path ≠ [])
      (hsteps : ∀ s ∈ path, s.Representable) :
      (Descriptor.make kind.kind (path.map .ofStep)).result = .ok ⟨kind, path⟩ :=
    Descriptor.result_make_path kind hne fun i hi _ => (hsteps _ hi).2
  constructor
  · intro h
    obtain ⟨column, kind, text, rfl, hcolumn, hcolon, htext⟩ := exists_form_of_parseSpread h
    rw [parseSpread_form kind hcolumn hcolon htext] at h
    obtain ⟨steps, hread, h⟩ := Except.bind_eq_ok.mp h
    obtain ⟨segments, path, rfl, -, hspells, hsteps, rfl⟩ := parsePath_eq_ok_iff.mp hread
    have hpath := mt (join_segments_eq_nil_iff hspells).mpr htext
    rw [hmake (not_or.mp hpath).1 hsteps] at h
    refine ⟨column, kind, segments, path, rfl, hspells, ⟨hcolumn, hcolon, hsteps, ?_⟩,
      (Except.ok.inj h).symm⟩
    exact mt (join_segments_eq_nil_iff (spells_map_written hsteps)).mp hpath
  · rintro ⟨column, kind, segments, path, rfl, hspells, ⟨hcolumn, hcolon, hsteps, hpath⟩, rfl⟩
    rw [Ne, join_segments_eq_nil_iff (spells_map_written hsteps)] at hpath
    have hne : segments ≠ [] := by
      rintro rfl
      exact hpath (.inl (List.forall₂_nil_left_iff.mp hspells))
    rw [parseSpread_form kind hcolumn hcolon (mt (join_segments_eq_nil_iff hspells).mp hpath),
      parsePath_eq_ok_iff.mpr ⟨segments, path, rfl, hne, hspells, hsteps, rfl⟩, Except.ok_bind,
      hmake (not_or.mp hpath).1 hsteps]
    rfl

theorem parseStep_named {name : Text} {verb : Verb} (h : (name, verb) ∈ namedSteps) :
    parseStep name = pure (stageOf verb []) ∧
      ∀ argument, parseStep (name ++ .char '=' :: argument) =
        pure (stageOf verb (if argument.isEmpty then [] else [.text argument])) := by
  have hequals : ∀ e ∈ namedSteps, .char '=' ∉ e.1 := by decide
  have hlookup := (Entries.lookup_eq_some_iff_mem (by decide)).mpr h
  constructor
  · rw [parseStep, cut_of_not_mem (hequals _ h)]
    dsimp only
    rw [hlookup]
    rfl
  · intro argument
    rw [parseStep, cut_append (hequals _ h)]
    dsimp only
    rw [hlookup]
    rfl

theorem parseStep_enterObject {argument : Text} (h : argument ≠ []) :
    parseStep (.concat ["enter_object=", argument]) =
      pure (stageOf .enterObject ((argument.split (.char '.')).map .text)) := by
  obtain ⟨c, cs, rfl⟩ := List.exists_cons_of_ne_nil h
  rw [Text.concat, List.flatten_cons, List.flatten_singleton]
  rfl

theorem parseStep_types {argument : Text} (h : argument ≠ []) :
    parseStep (.concat ["types=", argument]) =
      pure (stageOf .filterJsonTypes ((argument.split (.char ',')).map .text)) := by
  obtain ⟨c, cs, rfl⟩ := List.exists_cons_of_ne_nil h
  rw [Text.concat, List.flatten_cons, List.flatten_singleton]
  rfl

theorem parseStep_spread (argument : Text) :
    parseStep (.concat ["spread=", argument]) = parseSpread argument := by
  rw [Text.concat, List.flatten_cons, List.flatten_singleton]
  rfl

theorem concat_equals (name argument : Text) :
    Text.concat [name, "=", argument] = name ++ .char '=' :: argument := by
  simp [Text.concat, show Text.ofString "=" = [.char '='] from rfl]

theorem result_parseStep_of_spells {t : Text} {i : Instruction} (h : i.Spells t)
    (hi : i.Representable) : (parseStep t).result = .ok i.stage := by
  have hspread {column : Text} {kind : ScalarKind} {segments : List Text} {path : Path}
      (hi : (Instruction.spread column kind path).Representable)
      (hspells : List.Forall₂ Step.Spells segments path) :
      (parseStep (.concat ["spread=", column, ":", kind.kind.name, ":", .join "." segments])).result
        = .ok (Instruction.spread column kind path).stage := by
    have hread := parseSpread_eq_ok_iff.mpr ⟨column, kind, segments, path, rfl, hspells, hi, rfl⟩
    rw [← parseStep_spread] at hread
    simpa [Text.concat] using hread
  cases h with
  | written =>
      cases i with
      | named name verb argument =>
          obtain ⟨hmem, hne⟩ := hi
          cases argument with
          | none => rw [Instruction.written, (parseStep_named hmem).1]; rfl
          | some a =>
              rw [Instruction.written, concat_equals, (parseStep_named hmem).2,
                if_neg (by simpa using hne)]
              rfl
      | enter keys =>
          obtain ⟨hkeys, hne⟩ := hi
          have hkeysNe : keys ≠ [] := by
            rintro rfl
            exact hne rfl
          have hsplit : (Text.join "." keys).split (.char '.') = keys := split_join hkeysNe hkeys
          rw [Instruction.written, parseStep_enterObject hne, hsplit]
          rfl
      | types names =>
          obtain ⟨hnames, hne⟩ := hi
          have hnamesNe : names ≠ [] := by
            rintro rfl
            exact hne rfl
          have hsplit : (Text.join "," names).split (.char ',') = names :=
            split_join hnamesNe hnames
          rw [Instruction.written, parseStep_types hne, hsplit]
          rfl
      | spread column kind path => exact hspread hi (spells_map_written hi.2.2.1)
  | bare name verb =>
      have hempty : Text.concat [name, "="] = name ++ .char '=' :: [] := rfl
      rw [hempty, (parseStep_named hi.1).2]
      rfl
  | path column kind hspells => exact hspread hi hspells

theorem exists_spells_of_parseStep {t : Text} {s : Stage} (h : (parseStep t).result = .ok s) :
    ∃ i : Instruction, i.Spells t ∧ i.Representable ∧ s = i.stage := by
  rcases hcut : t.cut (.char '=') with ⟨name, argument⟩
  obtain ⟨-, ht⟩ := cut_eq hcut
  -- an argument that is not empty stands behind an equals sign
  have hwritten (hne : argument.getD [] ≠ []) : t = .concat [name, "=", argument.getD []] := by
    cases argument with
    | none => exact absurd rfl hne
    | some a => rw [ht, concat_equals]; rfl
  unfold parseStep at h
  rw [hcut] at h
  dsimp only at h
  split at h
  · next verb hverb =>
    obtain rfl := Except.ok.inj h
    have hmem := Entries.mem_of_lookup hverb
    by_cases hempty : argument.getD [] = []
    · refine ⟨.named name verb none, ?_, ⟨hmem, nofun⟩, by rw [hempty]; rfl⟩
      cases argument with
      | none =>
          have hname : t = name := ht.trans (List.append_nil name)
          rw [hname]
          exact .written (.named name verb none)
      | some a =>
          obtain rfl : a = [] := hempty
          rw [ht]
          exact .bare name verb
    · refine ⟨.named name verb (some (argument.getD [])), ?_, ⟨hmem, mt Option.some.inj hempty⟩,
        by rw [if_neg (by simpa using hempty)]; rfl⟩
      rw [hwritten hempty]
      exact .written (.named name verb (some _))
  split at h
  · next hname =>
    split at h
    · cases h
    · next hempty =>
      have hne : argument.getD [] ≠ [] := mt List.isEmpty_iff.mpr hempty
      obtain rfl := Except.ok.inj h
      have hjoin : Text.join "." ((argument.getD []).split (.char '.')) = argument.getD [] :=
        join_split (.char '.') _
      refine ⟨.enter ((argument.getD []).split (.char '.')), ?_,
        ⟨fun _ => not_mem_of_mem_split, by rwa [hjoin]⟩, rfl⟩
      have hshape : t = Instruction.written (.enter ((argument.getD []).split (.char '.'))) := by
        rw [Instruction.written, hjoin, hwritten hne, hname]
        rfl
      rw [hshape]
      exact .written _
  split at h
  · next hname =>
    split at h
    · cases h
    · next hempty =>
      have hne : argument.getD [] ≠ [] := mt List.isEmpty_iff.mpr hempty
      obtain rfl := Except.ok.inj h
      have hjoin : Text.join "," ((argument.getD []).split (.char ',')) = argument.getD [] :=
        join_split (.char ',') _
      refine ⟨.types ((argument.getD []).split (.char ',')), ?_,
        ⟨fun _ => not_mem_of_mem_split, by rwa [hjoin]⟩, rfl⟩
      have hshape : t = Instruction.written (.types ((argument.getD []).split (.char ','))) := by
        rw [Instruction.written, hjoin, hwritten hne, hname]
        rfl
      rw [hshape]
      exact .written _
  split at h
  · next hname =>
    obtain ⟨column, kind, segments, path, hform, hspells, hi, rfl⟩ := parseSpread_eq_ok_iff.mp h
    have hne : argument.getD [] ≠ [] := by
      rw [hform]
      exact List.append_ne_nil_of_left_ne_nil hi.1 _
    refine ⟨.spread column kind path, ?_, hi, rfl⟩
    have hshape : t = .concat ["spread=", argument.getD []] := by
      rw [hwritten hne, hname]
      rfl
    rw [hshape, hform]
    simpa [Text.concat] using Instruction.Spells.path column kind hspells
  · cases h

-- What is written for an instruction is read as the stage it asks for, and nothing is read that
-- does not spell an instruction.
theorem parseStep_inverse :
    (∀ i : Instruction, i.Representable → (parseStep i.written).result = .ok i.stage) ∧
      ∀ t s, (parseStep t).result = .ok s ↔
        ∃ i : Instruction, i.Spells t ∧ i.Representable ∧ s = i.stage := by
  refine ⟨fun i hi => result_parseStep_of_spells (.written i) hi, fun t s => ⟨?_, ?_⟩⟩
  · exact exists_spells_of_parseStep
  · rintro ⟨i, hspells, hi, rfl⟩
    exact result_parseStep_of_spells hspells hi

theorem parseStep_inverse_separators :
    (parseStep "spread=a=b:number:x:y=.0012.").result =
        .ok (Instruction.spread "a=b" .number [.key "x:y=", .index 12, .key []]).stage ∧
      (parseStep (Instruction.enter ["a=b", [], "c:d"]).written).result =
        .ok (Instruction.enter ["a=b", [], "c:d"]).stage := by
  constructor
  · refine (parseStep_inverse.2 _ _).mpr
      ⟨.spread "a=b" .number [.key "x:y=", .index 12, .key []], ?_, by decide, rfl⟩
    exact .path "a=b" .number (.cons (.key "x:y=")
      (.cons (.index (t := "0012") (by decide) (by decide)) (.cons (.key []) .nil)))
  · exact parseStep_inverse.1 _ (by decide)

end Command

end Unnest
