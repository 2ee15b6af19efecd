import KannadaScript.Command.Run

/-!
# The command

The outer layer: files, environment and channels of the system, handed to `Command.run`. It has no
texts for help and for misuse to hand over.
-/

namespace KannadaScript.Command

/-- The fault behind an error of the system. -/
def faultOf : IO.Error → StorageFault
  | .noFileOrDirectory .. => .notFound
  | .inappropriateType _ 21 _ => .isFolder
  | .inappropriateType .. => .notAFolder
  | e => .other e.toString

/-- Run an action and turn its error into a fault. -/
def attempt {α : Type} (action : IO α) : IO (Except StorageFault α) := do
  try return .ok (← action) catch e => return .error (faultOf e)

/-- The files of the system. -/
def systemStorage : Storage IO where
  read path := attempt do return (← IO.FS.readBinFile path).toList
  create path := attempt (IO.FS.writeBinFile path .empty)
  fill path bytes := IO.FS.writeBinFile path ⟨bytes.toArray⟩

end KannadaScript.Command

open KannadaScript.Command in
/-- Run the command and leave with its exit code. Colours are off when the environment asks. -/
def main (args : List String) : IO UInt32 := do
  let color := (← IO.getEnv "NO_COLOR").getD "" == ""
  let outcome ← run systemStorage { palette := .ofColor color } args
  IO.print outcome.stdout
  IO.eprint outcome.stderr
  return outcome.exit.toUInt32
