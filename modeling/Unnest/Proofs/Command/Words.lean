import Unnest.Command.Run

namespace Unnest.Command

-- A word that is an option is put before what the words after it say.
theorem readWords_option {known : List Switch} {word : Text} {r : WordReading}
    (hr : readOption known word = .ok r) (hdash : word.head? = some (.char '-'))
    (hlong : word ≠ "--") (hlength : word.length ≠ 1) (mixed : Bool) (rest : List Text) :
    readWords known mixed none (word :: rest) =
      (readWords known mixed r.waiting rest).map fun w =>
        { w with options := r.options ++ w.options } := by
  rw [readWords, if_neg hlong, if_pos ⟨hdash, hlength⟩, hr]

theorem readWords_value (known : List Switch) (mixed : Bool) (name written word : Text)
    (rest : List Text) :
    readWords known mixed (some (name, written)) (word :: rest) =
      (readWords known mixed none rest).map fun w =>
        { w with options := (name, word) :: w.options } :=
  rfl

-- What a user asks of the command: steps, files and how they are read and shown.
structure Request where
  steps : List Text
  paths : List Text
  byLine : Bool := false
  profiled : Bool := false
  csv : Bool := false
  verbose : Bool := false

namespace Request

def format (r : Request) : Text :=
  if r.csv then "csv" else "table"

def stepWords (steps : List Text) : List Text :=
  steps.flatMap fun s => [.ofString "--step", s]

-- The request as it is written after the name of the command. No path is taken for an option.
def arguments (r : Request) : List Text :=
  let lines : List Text := if r.byLine then ["--lines"] else []
  let profile : List Text := if r.profiled then ["--profile"] else []
  lines ++ (profile ++ .ofString "--format" :: r.format ::
    (stepWords r.steps ++ .ofString "--" :: r.paths))

def words (r : Request) : List Text :=
  let verbose : List Text := if r.verbose then ["--verbose"] else []
  verbose ++ flattenCommand.name :: r.arguments

-- What is read of it.
def read (r : Request) : Words :=
  let lines : List (Text × Text) := if r.byLine then [("--lines", [])] else []
  let profile : List (Text × Text) := if r.profiled then [("--profile", [])] else []
  let steps : List (Text × Text) := r.steps.map fun s => ("--step", s)
  { options := lines ++ (profile ++ (.ofString "--format", r.format) :: steps), others := r.paths }

theorem readWords_steps (steps paths : List Text) :
    readWords flattenCommand.known true none (stepWords steps ++ .ofString "--" :: paths) =
      .ok { options := steps.map fun s => (.ofString "--step", s), others := paths } := by
  induction steps with
  | nil => rfl
  | cons s steps ih =>
      have hstep : readOption flattenCommand.known "--step" =
          .ok { waiting := some ("--step", "--step") } := rfl
      show readWords flattenCommand.known true none
        (.ofString "--step" :: s :: (stepWords steps ++ .ofString "--" :: paths)) = _
      rw [readWords_option hstep (by decide) (by decide) (by decide), readWords_value, ih]
      rfl

theorem read_arguments (r : Request) :
    Words.read flattenCommand.known true r.arguments = .ok r.read := by
  have hlines : readOption flattenCommand.known "--lines" =
      .ok { options := [("--lines", [])] } := rfl
  have hprofile : readOption flattenCommand.known "--profile" =
      .ok { options := [("--profile", [])] } := rfl
  have hformat : readOption flattenCommand.known "--format" =
      .ok { waiting := some ("--format", "--format") } := rfl
  have htail : readWords flattenCommand.known true none
      (.ofString "--format" :: r.format :: (stepWords r.steps ++ .ofString "--" :: r.paths)) =
      .ok { options := (.ofString "--format", r.format) ::
              r.steps.map fun s => (.ofString "--step", s),
            others := r.paths } := by
    rw [readWords_option hformat (by decide) (by decide) (by decide), readWords_value,
      readWords_steps]
    rfl
  unfold Words.read arguments read
  cases r.byLine <;> cases r.profiled
  all_goals
    simp only [Bool.false_eq_true, if_true, if_false, List.nil_append, List.cons_append]
  · exact htail
  · rw [readWords_option hprofile (by decide) (by decide) (by decide), htail]
    rfl
  · rw [readWords_option hlines (by decide) (by decide) (by decide), htail]
    rfl
  · rw [readWords_option hlines (by decide) (by decide) (by decide),
      readWords_option hprofile (by decide) (by decide) (by decide), htail]
    rfl

theorem has_read (r : Request) {option : Text} (h : Text.ofString "--step" ≠ option) :
    r.read.has option = (r.byLine && decide (Text.ofString "--lines" = option) ||
      r.profiled && decide (Text.ofString "--profile" = option) ||
        decide (Text.ofString "--format" = option)) := by
  have hsteps : (r.steps.map fun s => (Text.ofString "--step", s)).any (·.1 = option) = false := by
    rw [List.any_map]
    exact List.any_eq_false.mpr fun s _ => by simpa using h
  unfold Words.has read
  cases r.byLine <;> cases r.profiled <;> simp [hsteps, Bool.or_assoc]

theorem has_help_read (r : Request) : r.read.has "--help" = false := by
  rw [has_read r (by decide)]
  cases r.byLine <;> cases r.profiled <;> rfl

theorem has_lines_read (r : Request) : r.read.has "--lines" = r.byLine := by
  rw [has_read r (by decide)]
  cases r.byLine <;> cases r.profiled <;> rfl

theorem has_profile_read (r : Request) : r.read.has "--profile" = r.profiled := by
  rw [has_read r (by decide)]
  cases r.byLine <;> cases r.profiled <;> rfl

theorem values_format_read (r : Request) : r.read.values "--format" = [r.format] := by
  have hsteps : (r.steps.map fun s => (Text.ofString "--step", s)).filterMap
      (fun e => if e.1 = Text.ofString "--format" then some e.2 else none) = [] := by
    rw [List.filterMap_map]
    exact List.filterMap_eq_nil_iff.mpr fun s _ => rfl
  unfold Words.values read
  cases r.byLine <;> cases r.profiled
  all_goals
    simp only [Bool.false_eq_true, if_true, if_false, List.nil_append, List.cons_append,
      List.filterMap_cons]
    exact congrArg (r.format :: ·) hsteps

theorem values_step_read (r : Request) : r.read.values "--step" = r.steps := by
  have hsteps : (r.steps.map fun s => (Text.ofString "--step", s)).filterMap
      (fun e => if e.1 = Text.ofString "--step" then some e.2 else none) = r.steps := by
    rw [List.filterMap_map]
    exact List.filterMap_some
  unfold Words.values read
  cases r.byLine <;> cases r.profiled
  all_goals
    simp only [Bool.false_eq_true, if_true, if_false, List.nil_append, List.cons_append,
      List.filterMap_cons]
    exact hsteps

end Request

-- The command of a request is found behind its own options.
theorem run_words (r : Request) (disk : Disk) (sensors : Sensors) (room : Headroom) :
    run disk sensors r.words room =
      runCommand flattenCommand r.verbose r.arguments disk sensors room := by
  have hverbose : readOption groupSwitches "--verbose" = .ok { options := [("--verbose", [])] } :=
    rfl
  have hcommand : readWords groupSwitches false none (flattenCommand.name :: r.arguments) =
      .ok { others := flattenCommand.name :: r.arguments } := rfl
  unfold run Request.words Words.read
  cases r.verbose
  · simp only [Bool.false_eq_true, if_false, List.nil_append, hcommand]
    rfl
  · simp only [if_true, List.cons_append, List.nil_append]
    rw [readWords_option hverbose (by decide) (by decide) (by decide), hcommand]
    rfl

end Unnest.Command
