import Unnest.Command.Run

open Unnest Unnest.Command

-- What a word names, should it be a path.
def entry? (word : String) : IO (Option Entry) := do
  try
    return some (.file (← IO.FS.readBinFile word))
  catch
    | .noFileOrDirectory .. => return none
    | _ => return some .directory

-- The clock is read once, so that a profile shows no time.
def main (args : List String) : IO UInt32 := do
  let entries ← args.filterMapM fun word => do
    return (← entry? word).map fun entry => (Text.ofString word, entry)
  let now ← IO.monoMsNow
  let sensors : Sensors := ⟨[.ofRatio false now 1000], [], []⟩
  let outcome := Command.run entries sensors (args.map Text.ofString)
  IO.print outcome.stdout
  IO.eprint outcome.stderr
  if let some failure := outcome.crash then
    IO.eprintln ((failure.message.toString?).getD "")
  return outcome.exit.toUInt32
