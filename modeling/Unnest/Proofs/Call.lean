import Unnest.Call
import Unnest.Proofs.Datum.Display
import Unnest.Proofs.Entries

namespace Unnest.Arguments

-- All the integers in the arguments can be written out.
structure Spellable (arguments : Arguments) : Prop where
  positions : ∀ d ∈ arguments.positions, d.Spellable
  names : ∀ e ∈ arguments.names, e.2.Spellable

theorem Spellable.shown_ok {arguments : Arguments} (h : arguments.Spellable) :
    ∃ t, arguments.shown = .ok t := by
  obtain ⟨positions, hpositions⟩ :=
    Except.exists_mapM_eq_ok fun d hd => Datum.quoted_ok (h.positions d hd)
  have hnames : ∀ e ∈ arguments.names, ∃ t,
      (do return Text.concat [e.1, "=", ← e.2.quoted] : Except Failure Text) = .ok t := by
    intro e he
    obtain ⟨t, ht⟩ := Datum.quoted_ok (h.names e he)
    exact ⟨_, Except.bind_eq_ok.mpr ⟨t, ht, rfl⟩⟩
  obtain ⟨names, hnames⟩ := Except.exists_mapM_eq_ok hnames
  exact ⟨_, Except.bind_eq_ok.mpr ⟨positions, hpositions,
    Except.bind_eq_ok.mpr ⟨names, hnames, rfl⟩⟩⟩

-- What fills a parameter was given in the call or is its preset.
theorem fill_spellable {parameters : List Verb.Parameter} {arguments : Arguments}
    {args : List Datum} (h : fill parameters arguments = some args)
    (harguments : arguments.Spellable)
    (hpresets : ∀ p ∈ parameters, ∀ d ∈ p.preset, d.Spellable) : ∀ d ∈ args, d.Spellable := by
  induction parameters generalizing arguments args with
  | nil =>
      unfold fill at h
      split at h
      · obtain rfl := Option.some.inj h
        exact fun d hd => absurd hd List.not_mem_nil
      · cases h
      · next heq => cases heq
  | cons p parameters ih =>
      obtain ⟨hp, hparameters⟩ := List.forall_mem_cons.mp hpresets
      obtain ⟨positions, names⟩ := arguments
      cases positions with
      | cons x rest =>
          simp only [fill] at h
          split at h
          · cases h
          · obtain ⟨later, hlater, rfl⟩ := Option.map_eq_some_iff.mp h
            obtain ⟨hx, hrest⟩ := List.forall_mem_cons.mp harguments.positions
            exact List.forall_mem_cons.mpr ⟨hx, ih hlater ⟨hrest, harguments.names⟩ hparameters⟩
      | nil =>
          simp only [fill] at h
          split at h
          · cases h
          · next x hx =>
            obtain ⟨later, hlater, rfl⟩ := Option.map_eq_some_iff.mp h
            have hnames : ∀ e ∈ names.filter (·.1 != p.name), e.2.Spellable := fun e he =>
              harguments.names e (List.mem_filter.mp he).1
            refine List.forall_mem_cons.mpr
              ⟨?_, ih hlater ⟨harguments.positions, hnames⟩ hparameters⟩
            cases hlookup : names.lookup p.name with
            | none =>
                rw [hlookup] at hx
                exact hp x hx
            | some d =>
                rw [hlookup] at hx
                obtain rfl := Option.some.inj hx
                exact harguments.names (p.name, d) (Entries.mem_of_lookup hlookup)

theorem length_fill {parameters : List Verb.Parameter} {arguments : Arguments}
    {args : List Datum} (h : fill parameters arguments = some args) :
    args.length = parameters.length := by
  induction parameters generalizing arguments args with
  | nil =>
      unfold fill at h
      split at h
      · obtain rfl := Option.some.inj h
        rfl
      · cases h
      · next heq => cases heq
  | cons p parameters ih =>
      unfold fill at h
      split at h
      all_goals
        split at h
        · cases h
        · obtain ⟨later, hlater, rfl⟩ := Option.map_eq_some_iff.mp h
          exact congrArg (· + 1) (ih hlater)

theorem presets_spellable {verb : Verb} {parameters : List Verb.Parameter}
    (h : verb.signature = .listed parameters) :
    ∀ p ∈ parameters, ∀ d ∈ p.preset, d.Spellable := by
  cases verb with
  | enterObject | filterJsonTypes | spreadValues => cases h
  | appendValues kind =>
      cases h
      cases kind <;> decide
  | gatherArray | gatherKeys | gatherObject | spreadAll | jsonTypes | jsonLengths
  | jsonComplexity =>
      cases h
      decide

theorem bind?_spellable {arguments bound : Arguments} {verb : Verb}
    (h : arguments.bind? verb = some bound) (harguments : arguments.Spellable) :
    bound.Spellable := by
  unfold bind? at h
  split at h
  · next parameters hsignature =>
    obtain ⟨args, hargs, rfl⟩ := Option.map_eq_some_iff.mp h
    exact ⟨fill_spellable hargs harguments (presets_spellable hsignature),
      fun e he => absurd he List.not_mem_nil⟩
  · obtain ⟨-, h⟩ := (Option.ite_none_right_eq_some ..).mp h
    obtain rfl := Option.some.inj h
    exact harguments
  · obtain ⟨-, h⟩ := (Option.ite_none_right_eq_some ..).mp h
    obtain rfl := Option.some.inj h
    exact harguments

end Unnest.Arguments

namespace Unnest.Verb

theorem bind?_of_receive {verb : Verb} {form : Form} {arguments bound : Arguments}
    (h : verb.receive form arguments = .ok bound) : arguments.bind? verb = some bound := by
  unfold receive at h
  split at h
  · cases h
  · split at h
    · cases h
    · next hfits => exact hfits.trans (congrArg some (Except.ok.inj h))

theorem result_call {verb : Verb} {form : Form} {arguments bound : Arguments}
    (h : verb.receive form arguments = .ok bound) (t : JsonTable) :
    (verb.call form arguments t).result = (verb.apply bound.positions bound.names t).result := by
  rw [call, Traced.result_bind, Traced.result_liftM, h, Except.ok_bind]

end Unnest.Verb
