/-!
# Faults of the storage

What can go wrong where texts are read from and code is written to, with the wording of each. Faults
of files and of sinks are one type, since a run reports both in the words of the fault. A system may
have faults beyond those that are told apart here; they keep their own wording.
-/

namespace KannadaScript

/-- Why a file or a sink refuses to serve. -/
inductive StorageFault where
  /-- A path that leads nowhere. -/
  | notFound
  /-- A folder where a file is needed. -/
  | isFolder
  /-- A path that goes on below a file. -/
  | notAFolder
  /-- A file whose bytes are not text. -/
  | notText
  /-- A sink that takes no further byte. -/
  | full
  /-- A sink that takes the bytes and then fails to hand them on. -/
  | flushRefused
  /-- Any other fault, in the words of the system. -/
  | other (reason : String)
deriving DecidableEq, Repr

/-- The wording of a fault. -/
def StorageFault.message : StorageFault → String
  | .notFound => "No such file or directory (os error 2)"
  | .isFolder => "Is a directory (os error 21)"
  | .notAFolder => "Not a directory (os error 20)"
  | .notText => "stream did not contain valid UTF-8"
  | .full => "disk full"
  | .flushRefused => "flush failed"
  | .other reason => reason

end KannadaScript
