import KannadaScript.Command.Run
import KannadaScript.Proofs.Code.Overrun
import KannadaScript.Proofs.Phases
import KannadaScript.Proofs.Safety
import KannadaScript.Proofs.Storage.Overwriting

/-!
# What a run leaves behind

A run creates its output file, which empties the one that was there, before it writes any code. So
whether the file is ever left half done depends on what can still go wrong after that. The program
has passed the check, and in a folder that takes every write only one thing can: a line whose
indentation is too wide.

A run in a folder is first written out as a function of the folder (`runJob_apply`). It ends with
the folder untouched, or it comes to the point where code is written (`runIn_cases`), and from there
on the deepest line of the code decides (`Compiles.atomic`, `Compiles.cutOff`). Between the two
stands what is written: all of the code if the deepest line fits, and a part that something is
missing from if it does not (`generated_of_fits`, `generated_of_tooWide`).

Nothing here depends on how arguments are taken apart or on the texts of reports, so all statements
are about any `Interface`. What a folder is matters only in two ways: what is written last counts,
and what was written is read back (`Folder.write_of_write`, `Folder.read_of_write`). A path may lead
to the source file itself; then the source text is what is overwritten, and what is said of the
output file holds of it.

Main statement: `runIn_atomic_or_cutOff`. That runs are not atomic without exception is
`runIn_not_atomic_of_wide_indent`.
-/

namespace KannadaScript.Command

open Code

/-! ### Sources -/

/-- The text of the file at the end of a path. -/
def sourceAt (folder : Folder) (path : String) : Except StorageFault String :=
  (folder.read path).bind fun bytes ↦
    match Text.ofBytes? bytes with
    | none => .error .notText
    | some text => .ok text

/-- The dumps do not change what becomes of a source text. -/
theorem prepare_snd (job : Job) (source : String) :
    (prepare job source).2 = accepted job.options source := by
  rw [prepare]
  rcases hscanned : scanned source with e | tokens
  · rw [accepted_of_scanned_error hscanned]
  dsimp only
  rcases hparsed : parsed tokens with e | program
  · rw [accepted_of_parsed_error hscanned hparsed]
  dsimp only
  rcases hchecked : checked job.options program with e | table
  · rw [accepted_of_checked_error hscanned hparsed hchecked]
  · rw [accepted_of_checked hscanned hparsed hchecked]

/-! ### Jobs as functions of the folder -/

/-- How a job ends once its file has been created. -/
def ending (ui : Interface) (job : Job) (source shown : String) : Option CompileError → Outcome
  | none => ⟨0, shown, ""⟩
  | some (.unwritten (.paddingTooWide depth)) => ⟨101, shown, ui.breakdown depth⟩
  | some e => ⟨1, shown, failed ui.palette job.input source e⟩

/-- The folder after a file in it was given its bytes. -/
def filled (folder : Folder) (path : String) (bytes : List UInt8) : Folder :=
  match folder.write path bytes with
  | .ok f => f
  | .error _ => folder

theorem bind_apply {α β : Type} {step : StateM Folder α} {next : α → StateM Folder β}
    {folder folder' : Folder} {a : α} (h : step folder = (a, folder')) :
    (step >>= next) folder = next a folder' := by
  show (let (a, f) := step folder; next a f) = _
  rw [h]

theorem read_apply (folder : Folder) (path : String) :
    folderStorage.read path folder = (folder.read path, folder) := rfl

theorem get_apply (folder : Folder) : (get : StateM Folder Folder) folder = (folder, folder) := rfl

/-- To create a file is to write nothing to it. -/
theorem create_of_ok {folder created : Folder} {path : String}
    (h : folder.write path [] = .ok created) :
    folderStorage.create path folder = (.ok (), created) := by
  refine (bind_apply (get_apply folder)).trans ?_
  rw [h]
  rfl

/-- A file that cannot be created leaves the folder as it is. -/
theorem create_of_error {folder : Folder} {path : String} {fault : StorageFault}
    (h : folder.write path [] = .error fault) :
    folderStorage.create path folder = (.error fault, folder) := by
  refine (bind_apply (get_apply folder)).trans ?_
  rw [h]
  rfl

theorem fill_apply (folder : Folder) (path : String) (bytes : List UInt8) :
    folderStorage.fill path bytes folder = ((), filled folder path bytes) := rfl

/-- A job, with every step of the storage taken. -/
theorem runJob_apply (ui : Interface) (job : Job) (folder : Folder) :
    runJob folderStorage ui job folder =
      match sourceAt folder job.input with
      | .error fault => (⟨1, "", unreadable ui.palette job.input fault⟩, folder)
      | .ok source =>
        match prepare job source with
        | (shown, .error e) => (⟨1, shown, failed ui.palette job.input source e⟩, folder)
        | (shown, .ok program) =>
          match folder.write job.output [] with
          | .error fault =>
            (⟨1, shown, failed ui.palette job.input source (.unwritten (.storage fault))⟩, folder)
          | .ok created =>
            (ending ui job source shown (generated job program).2,
              filled created job.output (generated job program).1) := by
  rw [runJob, bind_apply (read_apply folder job.input), sourceAt]
  generalize Except.bind (folder.read job.input) _ = text
  rcases text with fault | source
  · rfl
  dsimp only
  rcases prepare job source with ⟨shown, e | program⟩
  · rfl
  dsimp only
  rcases hcreate : folder.write job.output [] with fault | created
  · rw [bind_apply (create_of_error hcreate)]
    rfl
  · rw [bind_apply (create_of_ok hcreate)]
    dsimp only
    rw [bind_apply (fill_apply created job.output (generated job program).1)]
    rcases (generated job program).2 with - | e
    · rfl
    · rcases e with e | e | e | failure
      all_goals try rfl
      cases failure <;> rfl

/-! ### What is written -/

/-- All of the code of a program, whether or not it can be written. -/
def Job.code (job : Job) (program : Node) : List UInt8 :=
  Text.encode (codeOf (program.programAtoms job.indent))

/-- The deepest line of the code is indented by more blanks than a line can have. -/
def Job.TooWide (job : Job) (program : Node) : Prop :=
  maxPadding < program.programLevels * job.indent

/-- A file takes everything, so it gets the script of the program. -/
theorem generated_eq (job : Job) (program : Node) :
    generated job program = (Text.encode (program.script job.indent 0).text,
      (program.script job.indent 0).failure.map .unwritten) := by
  rw [generated, written, Node.emit_of_unlimited _ _ _ rfl rfl]
  show _ = (Text.encode (program.script job.options.indent 0).text,
    (program.script job.options.indent 0).failure.map CompileError.unwritten)
  rcases (program.script job.options.indent 0).failure with - | f <;> simp

/-- A program that is not too wide is written in full. -/
theorem generated_of_fits {job : Job} {program : Node} (h : program.isProgram = true)
    (hfits : ¬ job.TooWide program) : generated job program = (job.code program, none) := by
  rcases Node.script_covers job.indent h with ⟨-, hscript⟩ | ⟨hwide, -⟩
  · rw [generated_eq, hscript]
    rfl
  · exact absurd hwide hfits

/-- A program that is too wide is written up to a line, and something is missing. -/
theorem generated_of_tooWide {job : Job} {program : Node} (h : program.isProgram = true)
    (hwide : job.TooWide program) :
    ∃ bytes missing d, missing ≠ [] ∧ job.code program = bytes ++ missing ∧
      generated job program = (bytes, some (.unwritten (.paddingTooWide d))) := by
  rcases Node.script_covers job.indent h with ⟨hfits, -⟩ | ⟨-, ⟨d, hd⟩, rest, hrest, hcode⟩
  · exact absurd hwide (Nat.not_lt.2 hfits)
  · refine ⟨Text.encode (program.script job.indent 0).text, Text.encode rest, d,
      mt Text.encode_eq_nil_iff.1 hrest, ?_, ?_⟩
    · rw [Job.code, hcode, Text.encode_append]
    · rw [generated_eq, hd]
      rfl

/-! ### Runs -/

/-- The arguments ask for the job, and its source file is a program that passes the check. -/
structure Compiles (ui : Interface) (folder : Folder) (args : List String) (job : Job)
    (program : Node) : Prop where
  asked : ui.request? args = some (.job job)
  accepted : ∃ source, sourceAt folder job.input = .ok source ∧
    accepted job.options source = .ok program

/-- To create a file and then fill it is to write it at once. -/
theorem filled_of_created {folder created : Folder} {path : String}
    (h : folder.write path [] = .ok created) (bytes : List UInt8) :
    folder.write path bytes = .ok (filled created path bytes) := by
  obtain ⟨after, hbefore, hafter⟩ := Folder.write_of_write h bytes
  rw [filled, hafter, hbefore]

section Asked

variable {ui : Interface} {folder created : Folder} {args : List String} {job : Job}
  {source : String} {program : Node} (hask : ui.request? args = some (.job job))

include hask

/-- A run does the job that it is asked for. -/
theorem runIn_of_job (folder : Folder) :
    runIn ui folder args = runJob folderStorage ui job folder := by
  rw [runIn, run, hask]
  rfl

/-- A run on a source text with an error reports it, and leaves the folder as it is. -/
theorem runIn_of_rejected {e : CompileError} (hsource : sourceAt folder job.input = .ok source)
    (h : accepted job.options source = .error e) :
    runIn ui folder args = (⟨1, (prepare job source).1,
      failed ui.palette job.input source e⟩, folder) := by
  have hprepare : prepare job source = ((prepare job source).1, .error e) :=
    Prod.ext rfl ((prepare_snd job source).trans h)
  rw [runIn_of_job hask, runJob_apply, hsource]
  dsimp only
  rw [hprepare]

/-- A run on an accepted program whose output file can be created writes the code. -/
theorem runIn_of_accepted (hsource : sourceAt folder job.input = .ok source)
    (h : accepted job.options source = .ok program)
    (hcreate : folder.write job.output [] = .ok created) :
    runIn ui folder args =
      (ending ui job source (prepare job source).1 (generated job program).2,
        filled created job.output (generated job program).1) := by
  have hprepare : prepare job source = ((prepare job source).1, .ok program) :=
    Prod.ext rfl ((prepare_snd job source).trans h)
  rw [runIn_of_job hask, runJob_apply, hsource]
  dsimp only
  rw [hprepare, hcreate]

end Asked

/-- A run ends with the folder as it is, or it comes to the point where it writes code. -/
theorem runIn_cases (ui : Interface) (folder : Folder) (args : List String) :
    (∃ outcome, outcome.exit ≠ 101 ∧ runIn ui folder args = (outcome, folder)) ∨
      ∃ job program created, Compiles ui folder args job program ∧
        folder.write job.output [] = .ok created := by
  rcases hask : ui.request? args with - | - | - | job
  case some.job =>
    rw [runIn_of_job hask, runJob_apply]
    rcases hsource : sourceAt folder job.input with fault | source
    · exact .inl ⟨⟨1, _, _⟩, by simp, rfl⟩
    have haccepted := prepare_snd job source
    dsimp only
    rcases hprepare : prepare job source with ⟨shown, e | program⟩
    · exact .inl ⟨⟨1, _, _⟩, by simp, rfl⟩
    dsimp only
    rcases hcreate : folder.write job.output [] with fault | created
    · exact .inl ⟨⟨1, _, _⟩, by simp, rfl⟩
    · rw [hprepare] at haccepted
      exact .inr ⟨job, program, created, ⟨hask, source, hsource, haccepted.symm⟩, hcreate⟩
  all_goals
    refine .inl ⟨⟨_, _, _⟩, ?_, by rw [runIn, run, hask]; rfl⟩
    simp

/-- What a run does that comes to the point where it writes code. -/
theorem Compiles.runIn_eq {ui : Interface} {folder created : Folder} {args : List String}
    {job : Job} {program : Node} (h : Compiles ui folder args job program)
    (hcreate : folder.write job.output [] = .ok created) :
    ∃ source shown, runIn ui folder args =
      (ending ui job source shown (generated job program).2,
        filled created job.output (generated job program).1) := by
  obtain ⟨source, hsource, haccepted⟩ := h.accepted
  exact ⟨source, (prepare job source).1, runIn_of_accepted h.asked hsource haccepted hcreate⟩

/-- What passes the check was read, so every node of it is in its place. -/
theorem Compiles.isProgram {ui : Interface} {folder : Folder} {args : List String} {job : Job}
    {program : Node} (h : Compiles ui folder args job program) : program.isProgram = true := by
  obtain ⟨source, -, haccepted⟩ := h.accepted
  obtain ⟨tokens, t, -, hread, -⟩ := accepted_eq_ok_iff.1 haccepted
  exact isProgram_of_ofTokens hread

/-- **Atomic.** The folder is as it was, or the run succeeded and its output file holds the whole
code of the program, with no other change. -/
def Atomic (ui : Interface) (folder : Folder) (args : List String)
    (result : Outcome × Folder) : Prop :=
  result.2 = folder ∨
    ∃ job program, Compiles ui folder args job program ∧ result.1.exit = 0 ∧
      folder.write job.output (job.code program) = .ok result.2 ∧
      result.2.read job.output = .ok (job.code program)

/-- The run was cut off: a line of the code is too wide, and the output file holds the code up to
there. -/
def CutOff (ui : Interface) (folder : Folder) (args : List String)
    (result : Outcome × Folder) : Prop :=
  ∃ job program bytes missing, Compiles ui folder args job program ∧ result.1.exit = 101 ∧
    missing ≠ [] ∧ job.code program = bytes ++ missing ∧
    folder.write job.output bytes = .ok result.2

/-- The code of the program is too wide for the job, and its output file can be created. -/
def Overruns (ui : Interface) (folder : Folder) (args : List String) : Prop :=
  ∃ job program created, Compiles ui folder args job program ∧ job.TooWide program ∧
    folder.write job.output [] = .ok created

section Written

variable {ui : Interface} {folder created : Folder} {args : List String} {job : Job}
  {program : Node}

/-- A run that comes to write code, all of whose lines fit, leaves the whole code. -/
theorem Compiles.atomic (h : Compiles ui folder args job program)
    (hcreate : folder.write job.output [] = .ok created) (hfits : ¬ job.TooWide program) :
    (runIn ui folder args).1.exit = 0 ∧
      Atomic ui folder args (runIn ui folder args) := by
  obtain ⟨source, shown, hrun⟩ := h.runIn_eq hcreate
  rw [generated_of_fits h.isProgram hfits] at hrun
  have hexit : (runIn ui folder args).1.exit = 0 := by
    rw [hrun]
    rfl
  have hwrite : folder.write job.output (job.code program) = .ok (runIn ui folder args).2 := by
    rw [hrun, filled_of_created hcreate]
  exact ⟨hexit, .inr ⟨job, program, h, hexit, hwrite, Folder.read_of_write hwrite⟩⟩

/-- A run that comes to write code with a line that does not fit leaves the code up to there. -/
theorem Compiles.cutOff (h : Compiles ui folder args job program)
    (hcreate : folder.write job.output [] = .ok created) (hwide : job.TooWide program) :
    CutOff ui folder args (runIn ui folder args) := by
  obtain ⟨source, shown, hrun⟩ := h.runIn_eq hcreate
  obtain ⟨bytes, missing, d, hmissing, hcode, hgenerated⟩ := generated_of_tooWide h.isProgram hwide
  rw [hgenerated] at hrun
  have hexit : (runIn ui folder args).1.exit = 101 := by
    rw [hrun]
    rfl
  have hwrite : folder.write job.output bytes = .ok (runIn ui folder args).2 := by
    rw [hrun, filled_of_created hcreate]
  exact ⟨job, program, bytes, missing, h, hexit, hmissing, hcode, hwrite⟩

end Written

/-- **The old file or the whole new one.** Whatever the arguments and the folder, a run is atomic,
unless its code has a line that is too wide; then it exits with 101, and the output file holds
only what comes before that line. -/
theorem runIn_atomic_or_cutOff (ui : Interface) (folder : Folder) (args : List String) :
    (Atomic ui folder args (runIn ui folder args) ∨ CutOff ui folder args (runIn ui folder args)) ∧
      ((runIn ui folder args).1.exit = 101 ↔ Overruns ui folder args) := by
  constructor
  · rcases runIn_cases ui folder args with
      ⟨outcome, -, hrun⟩ | ⟨job, program, created, h, hcreate⟩
    · exact .inl (.inl (by rw [hrun]))
    · by_cases hwide : job.TooWide program
      · exact .inr (h.cutOff hcreate hwide)
      · exact .inl (h.atomic hcreate hwide).2
  · constructor
    · intro hexit
      rcases runIn_cases ui folder args with
        ⟨outcome, hne, hrun⟩ | ⟨job, program, created, h, hcreate⟩
      · rw [hrun] at hexit
        exact absurd hexit hne
      · by_cases hwide : job.TooWide program
        · exact ⟨job, program, created, h, hwide, hcreate⟩
        · exact absurd ((h.atomic hcreate hwide).1.symm.trans hexit) (by decide)
    · rintro ⟨job, program, created, h, hwide, hcreate⟩
      obtain ⟨-, -, -, -, -, hexit, -⟩ := h.cutOff hcreate hwide
      exact hexit

/-- One level of 65536 blanks: the run fails, and of the file that was there nothing is left. -/
theorem runIn_not_atomic_of_wide_indent :
    let source := "ಯದಿ ನಿಜ \x7b ಮುದ್ರಿಸು ೧; \x7d"
    let folder : Folder := {
      folders := []
      files := [(["input.kn"], Text.bytes source), (["out.c"], Text.bytes "previous")] }
    let ui : Interface := { palette := .ofColor false }
    let args := ["--indent", "65536", "input.kn", "out.c"]
    let result := runIn ui folder args
    result.1.exit = 101 ∧ result.2.read "out.c" = .ok (Text.bytes "if (true) \x7b\n") ∧
      ¬ Atomic ui folder args result := by
  intro source folder ui args result
  have hexit : result.1.exit = 101 := by decide +kernel
  have hread : result.2.read "out.c" = .ok (Text.bytes "if (true) \x7b\n") := by decide +kernel
  refine ⟨hexit, hread, ?_⟩
  rintro (hsame | ⟨job, program, -, hzero, -⟩)
  · rw [hsame] at hread
    exact absurd hread (by decide +kernel)
  · exact absurd (hzero.symm.trans hexit) (by decide)

end KannadaScript.Command
