import KannadaScript.Command.Arguments
import KannadaScript.Compilation
import KannadaScript.Storage.Folder
import KannadaScript.Tree.Outline

/-!
# Runs of the command

A run reads the source file, compiles it, prints the dumps that were asked for as soon as their
phase has succeeded, and writes the output file. The file is created only once the program has
passed the check; what is written after that stays in it, even if writing ends early.

`run` needs a storage, in any monad, and an `Interface`: how arguments are taken apart, and the
texts and terminal codes that are not its own. A run over a `Folder` is then a function of these,
the arguments and the files.

The log of a run is left out. A run keeps one on its error channel, with the time of day in every
line: a warning for each lexical fault, and more if it is asked to be verbose.
-/

namespace KannadaScript.Command

/-! ### Texts -/

/-- The text printed on request for the version. -/
def versionText : String := "kannadapy 0.1.0\n"

/-- The line of the token dump that shows a token. -/
def tokenLine (t : Token) : String :=
  Text.flushRight 4 t.line ++ "  " ++ t.lexeme.describe ++ "\n"

/-- The dump of a token list, a line for each token. -/
def tokenDump (tokens : List Token) : String := String.join (tokens.map tokenLine)

/-- The terminal codes that set off the parts of an error report. -/
structure Palette where
  alarm : String
  margin : String
  plain : String
deriving DecidableEq, Repr

namespace Palette

/-- The codes with colours, and without. -/
def ofColor : (color : Bool) → Palette
  | true => ⟨"\x1b[38;5;9m", "\x1b[38;5;12m", "\x1b[39m"⟩
  | false => ⟨"\x1b[m", "\x1b[m", "\x1b[m"⟩

/-- A text that reports a failure. -/
def loud (p : Palette) (text : String) : String := p.alarm ++ "\x1b[1m" ++ text ++ "\x1b[0m"

/-- A text in the margin of a quoted line. -/
def aside (p : Palette) (text : String) : String := p.margin ++ text ++ p.plain

end Palette

/-- What a run takes from its surroundings: how a command line is taken apart, the texts that are
not its own, and the terminal codes. The texts are empty unless they are given. -/
structure Interface where
  /-- What the arguments ask for; `none` for a misuse. -/
  request? : List String → Option Request := Command.request?
  /-- Printed on request for help. -/
  help : String := ""
  /-- Reported for a misuse. -/
  misuse : (args : List String) → String := fun _ ↦ ""
  /-- Reported when writing breaks off at a line inside `depth` blocks that is too wide. -/
  breakdown : (depth : Nat) → String := fun _ ↦ ""
  palette : Palette := .ofColor true

/-- The report of a source file that cannot be read. -/
def unreadable (p : Palette) (path : String) (fault : StorageFault) : String :=
  p.loud "error:" ++ " cannot read '" ++ path ++ "': " ++ fault.message ++ "\n"

/-- The quotation of a source line, if the text has that line. -/
def quotation (p : Palette) (source : String) (line : Nat) : String :=
  match Text.line? source line with
  | none => ""
  | some text => p.aside (Text.flushRight 4 line ++ " |") ++ " " ++ text ++ "\n"

/-- The report of a failed compilation: its wording, and the line it is about. -/
def failed (p : Palette) (path source : String) (e : CompileError) : String :=
  p.loud e.message ++ "\n" ++
    match e.line? with
    | none => ""
    | some line =>
      "  " ++ p.aside "-->" ++ " " ++ path ++ ":" ++ line.repr ++ "\n" ++ quotation p source line

/-! ### Runs -/

/-- What a run leaves on its channels. -/
structure Outcome where
  exit : Nat
  stdout : String
  /-- The report, without the lines of the log before it. -/
  stderr : String
deriving DecidableEq, Repr

/-- How a run reaches files. -/
structure Storage (m : Type → Type) where
  /-- The bytes of a file. -/
  read : String → m (Except StorageFault (List UInt8))
  /-- Create a file, or empty the one that is there. -/
  create : String → m (Except StorageFault Unit)
  /-- Give a created file its bytes. -/
  fill : String → List UInt8 → m Unit

/-- The options of a job. -/
def Job.options (job : Job) : Options := { indent := job.indent }

/-- The dumps of the phases up to the check that succeed, and the program or the first error. -/
def prepare (job : Job) (source : String) : String × Except CompileError Node :=
  match scanned source with
  | .error e => ("", .error e)
  | .ok tokens =>
    let shown := cond job.dumpTokens (tokenDump tokens) ""
    match parsed tokens with
    | .error e => (shown, .error e)
    | .ok program =>
      let shown := shown ++ cond job.dumpTree program.dump ""
      match checked job.options program with
      | .error e => (shown, .error e)
      | .ok table => (shown ++ cond job.dumpTable table.dump "", .ok program)

/-- The bytes that writing a program leaves in a file, and the error that ends it early. -/
def generated (job : Job) (program : Node) : List UInt8 × Option CompileError :=
  match written job.options program {} with
  | .ok _ sink => (sink.written.toList, none)
  | .error e sink => (sink.written.toList, some e)

/-- Compile one file into another. The log that a run keeps on the way, among it a warning for a
lexical fault, is no part of the outcome. -/
def runJob {m : Type → Type} [Monad m] (storage : Storage m) (ui : Interface) (job : Job) :
    m Outcome := do
  let text := (← storage.read job.input).bind fun bytes ↦
    match Text.ofBytes? bytes with
    | none => .error .notText
    | some text => .ok text
  match text with
  | .error fault => return ⟨1, "", unreadable ui.palette job.input fault⟩
  | .ok source =>
    match prepare job source with
    | (shown, .error e) => return ⟨1, shown, failed ui.palette job.input source e⟩
    | (shown, .ok program) =>
      match ← storage.create job.output with
      | .error fault =>
        return ⟨1, shown, failed ui.palette job.input source (.unwritten (.storage fault))⟩
      | .ok _ =>
        let (bytes, error?) := generated job program
        storage.fill job.output bytes
        match error? with
        | none => return ⟨0, shown, ""⟩
        | some (.unwritten (.paddingTooWide depth)) =>
          return ⟨101, shown, ui.breakdown depth⟩
        | some e => return ⟨1, shown, failed ui.palette job.input source e⟩

/-- Run the command with the given arguments. -/
def run {m : Type → Type} [Monad m] (storage : Storage m) (ui : Interface) (args : List String) :
    m Outcome :=
  match ui.request? args with
  | none => return ⟨2, "", ui.misuse args⟩
  | some .version => return ⟨0, versionText, ""⟩
  | some .help => return ⟨0, ui.help, ""⟩
  | some (.job job) => runJob storage ui job

/-- The storage of a modelled folder. -/
def folderStorage : Storage (StateM Folder) where
  read path := return (← get).read path
  create path := do
    match (← get).write path [] with
    | .ok f =>
      set f
      return .ok ()
    | .error fault => return .error fault
  fill path bytes := modify fun f ↦
    match f.write path bytes with
    | .ok f => f
    | .error _ => f

/-- Run the command in a modelled folder. -/
def runIn (ui : Interface) (folder : Folder) (args : List String) : Outcome × Folder :=
  (run folderStorage ui args).run folder

end KannadaScript.Command
