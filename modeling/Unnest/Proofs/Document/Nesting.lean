import Unnest.Proofs.Datum.Offence
import Unnest.Proofs.Document.Failure
import Unnest.Proofs.Json.Depth
import Unnest.Proofs.Source

namespace Unnest

namespace Datum

-- Data that a document can be decoded to: scalars, lists, and mappings that have a text for each
-- key and no key twice.
inductive Decoded : Datum → Prop
  | none : Decoded .none
  | bool (b : Bool) : Decoded (.bool b)
  | int (n : Int) : Decoded (.int n)
  | float (x : Binary64) : Decoded (.float x)
  | text (t : Text) : Decoded (.text t)
  | list {xs : List Datum} : (∀ x ∈ xs, Decoded x) → Decoded (.list xs)
  | record {fields : List (Text × Datum)} : (fields.map Prod.fst).Nodup →
      (∀ e ∈ fields, Decoded e.2) → Decoded (.record fields)

theorem Decoded.isJson {d : Datum} (h : d.Decoded) : d.IsJson := by
  induction h with
  | none => exact .none
  | bool b => exact .bool b
  | int n => exact .int n
  | float x => exact .float x
  | text t => exact .text t
  | list _ ih => exact .list ih
  | record _ _ ih =>
      refine .dict (List.forall_mem_map.mpr fun e _ => ⟨e.1, rfl⟩) ?_
      exact List.forall_mem_map.mpr ih

theorem Decoded.proper {d : Datum} (h : d.Decoded) : d.Proper := by
  induction h with
  | none | bool _ | int _ | float _ | text _ => exact .scalar rfl
  | list _ ih => exact .list ih
  | record hkeys _ ih =>
      refine .intro ?_ (List.forall_mem_map.mpr ih)
      have htexts := pairwise_text hkeys
      rw [List.map_map] at htexts
      rw [Datum.record, entries, List.map_map]
      exact htexts

theorem Decoded.untupled_eq {d : Datum} (h : d.Decoded) : d.untupled = d := by
  induction h with
  | none | bool _ | int _ | float _ | text _ => rfl
  | list _ ih =>
      rw [untupled, untupledItems_eq, List.map_congr_left ih, List.map_id']
  | record _ _ ih =>
      rw [Datum.record, untupled, untupledEntries_eq, List.map_map]
      exact congrArg dict (List.map_congr_left fun e he => congrArg (Datum.text e.1, ·) (ih e he))

-- They are read as values that they are turned into again.
theorem Decoded.exists_ofDatum {d : Datum} (h : d.Decoded) (origin : List Datum) :
    ∃ v, Node.ofDatum origin d = .ok v ∧ v.json.WellFormed ∧ v.json.toDatum = d := by
  obtain ⟨j, hj⟩ := (exists_ofDatum_iff origin d).mpr h.isJson
  refine ⟨{ json := j, origin }, Except.map_eq_ok.mpr ⟨j, hj, rfl⟩, ?_, ?_⟩
  · exact Json.wellFormed_ofDatum h.proper hj
  · exact (Json.toDatum_of_ofDatum hj).trans h.untupled_eq

-- A datum reaches as deep as it lies itself, or as its parts reach one step further down.
theorem depthFrom_le_iff {d : Datum} {depth bound : Int} :
    d.depthFrom depth ≤ bound ↔ depth ≤ bound ∧ ∀ x ∈ d.parts, x.depthFrom (depth + 1) ≤ bound := by
  simp only [depthFrom]
  constructor
  · intro h
    refine ⟨by omega, fun x hx => ?_⟩
    have hlt : x.depth < d.depth := lt_depth_iff.mpr ⟨x, hx, Nat.le_refl _⟩
    omega
  · rintro ⟨hdepth, hparts⟩
    by_cases hzero : d.depth = 0
    · omega
    · obtain ⟨x, hx, hle⟩ := lt_depth_iff.mp (Nat.sub_one_lt hzero)
      have hpart := hparts x hx
      omega

-- A search for the depth that is reached: the greatest one that has been seen, and the data that
-- are still to be looked at, each with its depth, the next one in front.
structure Sounding where
  deepest : Int
  pending : List (Datum × Int)

namespace Sounding

def start (d : Datum) (depth : Int) : Sounding :=
  ⟨depth, [(d, depth)]⟩

-- In the place of a datum come its parts, one step deeper, of which the last is looked at first.
def round (s : Sounding) : Sounding :=
  match s.pending with
  | [] => s
  | (d, depth) :: rest =>
      ⟨max s.deepest depth, (d.parts.map fun x => (x, depth + 1)).reverse ++ rest⟩

-- What a search comes to.
def outcome (s : Sounding) : Int :=
  s.pending.foldr (fun e deepest => max (e.1.depthFrom e.2) deepest) s.deepest

theorem outcome_le_iff {s : Sounding} {bound : Int} : s.outcome ≤ bound ↔
    s.deepest ≤ bound ∧ ∀ e ∈ s.pending, e.1.depthFrom e.2 ≤ bound := by
  obtain ⟨deepest, pending⟩ := s
  rw [outcome]
  induction pending with
  | nil => simp
  | cons e pending ih =>
      rw [List.foldr_cons, max_le_iff, ih, List.forall_mem_cons, and_left_comm]

theorem outcome_round (s : Sounding) : s.round.outcome = s.outcome := by
  obtain ⟨deepest, _ | ⟨⟨d, depth⟩, rest⟩⟩ := s
  · rfl
  · refine eq_of_forall_ge_iff fun bound => ?_
    simp only [outcome_le_iff, round, List.forall_mem_cons, List.forall_mem_append,
      List.mem_reverse, List.forall_mem_map, max_le_iff]
    rw [@depthFrom_le_iff d]
    simp only [and_assoc]

theorem sum_sizeOf_round_lt {s : Sounding} (h : s.pending ≠ []) :
    (s.round.pending.map fun e => sizeOf e.1).sum < (s.pending.map fun e => sizeOf e.1).sum := by
  obtain ⟨deepest, _ | ⟨⟨d, depth⟩, rest⟩⟩ := s
  · exact absurd rfl h
  · have hlt := d.sum_sizeOf_parts_lt
    simp only [round, List.map_append, List.map_reverse, List.sum_append, List.sum_reverse,
      List.map_map, Function.comp_def, List.map_cons, List.sum_cons]
    omega

-- The search ends, and as soon as nothing is left to be looked at it has come to its outcome.
theorem ends (s : Sounding) : ∃ rounds, round^[rounds] s = ⟨s.outcome, []⟩ ∧
    ∀ n < rounds, (round^[n] s).pending ≠ [] := by
  by_cases h : s.pending = []
  · obtain ⟨deepest, pending⟩ := s
    obtain rfl : pending = [] := h
    exact ⟨0, rfl, nofun⟩
  · obtain ⟨rounds, hend, hbefore⟩ := s.round.ends
    rw [outcome_round] at hend
    refine ⟨rounds + 1, hend, fun n hn => ?_⟩
    cases n with
    | zero => exact h
    | succ n => exact hbefore n (Nat.succ_lt_succ_iff.mp hn)
termination_by (s.pending.map fun e => sizeOf e.1).sum
decreasing_by exact sum_sizeOf_round_lt h

end Sounding

-- A search from a datum that lies somewhere finds out how deep it reaches, and then nothing is
-- left to be looked at.
def Sounds (d : Datum) (start deepest : Int) : Prop :=
  ∃ rounds, Sounding.round^[rounds] (.start d start) = ⟨deepest, []⟩ ∧
    ∀ n < rounds, (Sounding.round^[n] (.start d start)).pending ≠ []

theorem sounds (d : Datum) (start : Int) : d.Sounds start (d.depthFrom start) := by
  have houtcome : (Sounding.start d start).outcome = d.depthFrom start :=
    max_eq_left (depthFrom_le_iff.mp (Int.le_refl _)).1
  rw [← houtcome]
  exact (Sounding.start d start).ends

end Datum

namespace Document

-- The warning about a document that is deep, under its number.
def nestingWarning (channel : Channel) (shown : Text) (depth : Nat) : Record :=
  ⟨.warning, channel, .concat ["Deep nesting detected in document ", shown,
    " (depth: ", .ofNat depth, ")"]⟩

variable {channel : Channel} {source : Datum} {document : Int}

theorem journal_parse_of_deep {v : Node} (h : (parse channel source document).result = .ok v)
    (hdeep : maxDepth < v.json.depth) : ∃ shown, numeral document = .ok shown ∧
      (parse channel source document).journal = [nestingWarning channel shown v.json.depth] := by
  obtain ⟨s, rfl⟩ := parse_text h
  obtain ⟨hs, json, hdecode, hnumber, rfl⟩ := parse_eq_ok_iff.mp h
  have hvalid : (Validation.documentText (.text s)).faults = [] := by
    simp [Validation.documentText, hs]
  have hshown := numeral_of_spellable (hnumber hdeep)
  simp only [parse, Findings.require_of_valid hvalid, pure_bind, hdecode, if_pos hdeep, hshown]
  exact ⟨_, rfl, rfl⟩

theorem journal_parse_of_shallow {v : Node} (h : (parse channel source document).result = .ok v)
    (hshallow : v.json.depth ≤ maxDepth) : (parse channel source document).journal = [] := by
  obtain ⟨s, rfl⟩ := parse_text h
  obtain ⟨hs, json, hdecode, -, rfl⟩ := parse_eq_ok_iff.mp h
  have hvalid : (Validation.documentText (.text s)).faults = [] := by
    simp [Validation.documentText, hs]
  simp only [parse, Findings.require_of_valid hvalid, pure_bind, hdecode,
    if_neg (Nat.not_lt.mpr hshallow)]
  rfl

-- A document that is not read is given no warning.
theorem level_of_mem_journal_parse {e : Failure}
    (h : (parse channel source document).result = .error e) :
    ∀ r ∈ (parse channel source document).journal, r.level = .error := by
  rcases documentText_cases source with ⟨s, rfl, hvalid⟩ | ⟨fault, hfault, -⟩
  · simp only [parse, Findings.require_of_valid hvalid, pure_bind] at h ⊢
    -- nothing has been noted when the number of the document turns out to be too long
    cases hshown : numeral document with
    | error e =>
        simp only [hshown] at h ⊢
        cases hdecode : Json.Decoder.decode s with
        | ok json =>
            simp only [hdecode] at h ⊢
            split at h
            · next hdeep => rw [if_pos hdeep]; exact fun r hr => absurd hr List.not_mem_nil
            · cases h
        | error problem => cases problem <;> exact fun r hr => absurd hr List.not_mem_nil
    | ok shown =>
        simp only [hshown] at h ⊢
        cases hdecode : Json.Decoder.decode s with
        | ok json =>
            simp only [hdecode] at h
            split at h <;> cases h
        | error problem =>
            cases problem with
            | longInteger digits => exact fun r hr => absurd hr List.not_mem_nil
            | tooDeep => exact absurd hdecode Json.Grammar.decode_ne_tooDeep
            | constant name => exact List.forall_mem_singleton.mpr rfl
            | problem what rest => exact List.forall_mem_singleton.mpr rfl
  · simp only [parse, Findings.require, hfault]
    exact List.forall_mem_singleton.mpr rfl

-- How deep data reach is how far the longest path leads in what is read from them, wherever the
-- search starts. So the warning is given for the documents that are read and have a value more
-- than a hundred steps below the root, with the depth of the deepest.
theorem depth_sounded :
    (∀ d : Datum, d.Decoded → ∀ (origin : List Datum) (start : Int), ∃ v longest,
      Node.ofDatum origin d = .ok v ∧ IsGreatest v.reach longest ∧
      d.depthFrom start = start + longest ∧ d.Sounds start (start + longest)) ∧
    ∀ (channel : Channel) (source : Datum) (document : Int),
      (∀ v, (parse channel source document).result = .ok v → ∃ longest,
        IsGreatest v.reach longest ∧ v.json.toDatum.Sounds 0 longest ∧
        ((∃ path w, v.walk? path = some w ∧ 100 < path.length) →
          ∃ shown, numeral document = .ok shown ∧
            (parse channel source document).journal = [nestingWarning channel shown longest]) ∧
        ((∀ path w, v.walk? path = some w → path.length ≤ 100) →
          (parse channel source document).journal = [])) ∧
      ∀ e, (parse channel source document).result = .error e →
        ∀ r ∈ (parse channel source document).journal, r.level = .error := by
  refine ⟨fun d hd origin start => ?_, fun channel source document =>
    ⟨fun v hv => ?_, fun e he => level_of_mem_journal_parse he⟩⟩
  · obtain ⟨v, hv, hwell, hback⟩ := hd.exists_ofDatum origin
    have hdepth : d.depthFrom start = start + v.json.depth := by
      rw [Datum.depthFrom, ← hback, Json.depth_toDatum]
    exact ⟨v, v.json.depth, hv, Node.isGreatest_reach hwell, hdepth, hdepth ▸ d.sounds start⟩
  · have hwell := (parse_ok hv).1
    have hdepth : v.json.toDatum.depthFrom 0 = v.json.depth := by
      rw [Datum.depthFrom, Json.depth_toDatum, Int.zero_add]
    refine ⟨v.json.depth, Node.isGreatest_reach hwell, hdepth ▸ v.json.toDatum.sounds 0, ?_, ?_⟩
    · rintro ⟨path, w, hw, hdeep⟩
      have hle := (Node.mem_reach_iff hwell).mp ⟨path, w, hw, rfl⟩
      exact journal_parse_of_deep hv (Nat.lt_of_lt_of_le hdeep hle)
    · intro hshallow
      obtain ⟨path, w, hw, hlength⟩ := (Node.isGreatest_reach hwell).1
      have hle : v.json.depth ≤ maxDepth := hlength ▸ hshallow path w hw
      exact journal_parse_of_shallow hv hle

-- Two empty mappings lie at different depths, and the search starts below zero. A hundred and two
-- arrays are one too many.
theorem depth_sounded_nested :
    (∃ d : Datum, d.Decoded ∧ ∃ v, Node.ofDatum [] d = .ok v ∧ IsGreatest v.reach 3 ∧
      d.Sounds (-5) (-2)) ∧
    ∃ s : Text, ∃ v, (parse .parser (.text s) 7).result = .ok v ∧ IsGreatest v.reach 101 ∧
      (parse .parser (.text s) 7).journal = [nestingWarning .parser "7" 101] := by
  obtain ⟨hsounded, hparsed⟩ := depth_sounded
  constructor
  · let d : Datum := .record [("a", .list [.record [], .list [.none, .list []]]),
      ("b", .record []), ("c", .int 1)]
    have hempty : (Datum.record []).Decoded := .record List.nodup_nil nofun
    have hinner : (Datum.list [.none, .list []]).Decoded :=
      .list (List.forall_mem_cons.mpr ⟨.none, List.forall_mem_singleton.mpr (.list nofun)⟩)
    have hd : d.Decoded := by
      refine .record (by decide) (List.forall_mem_cons.mpr ⟨.list ?_, ?_⟩)
      · exact List.forall_mem_cons.mpr ⟨hempty, List.forall_mem_singleton.mpr hinner⟩
      · exact List.forall_mem_cons.mpr ⟨hempty, List.forall_mem_singleton.mpr (.int 1)⟩
    obtain ⟨v, longest, hv, hgreatest, hdepth, hsounds⟩ := hsounded d hd [] (-5)
    have hreached : d.depthFrom (-5) = -2 := rfl
    obtain rfl : longest = 3 := by omega
    exact ⟨d, hd, v, hv, hgreatest, hsounds⟩
  · let s : Text := List.replicate 102 (.char '[') ++ List.replicate 102 (.char ']')
    have hread : (parse .parser (.text s) 7).result.toOption.map (fun v => v.json.depth) =
        some 101 := by decide +kernel
    cases hv : (parse .parser (.text s) 7).result with
    | error e =>
        rw [hv] at hread
        cases hread
    | ok v =>
        have hdepth : v.json.depth = 101 := by
          rw [hv] at hread
          exact Option.some.inj hread
        have hreach := hdepth ▸ Node.isGreatest_reach (parse_ok hv).1
        obtain ⟨longest, hgreatest, -, hdeep, -⟩ := (hparsed .parser (.text s) 7).1 v hv
        obtain rfl := hgreatest.unique hreach
        obtain ⟨path, w, hw, hlength⟩ := hreach.1
        obtain ⟨shown, hshown, hjournal⟩ := hdeep ⟨path, w, hw, by omega⟩
        obtain rfl : "7" = shown := Except.ok.inj hshown
        exact ⟨s, v, hv, hreach, hjournal⟩

end Document

end Unnest
