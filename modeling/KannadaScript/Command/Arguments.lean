import KannadaScript.Code.Emit

/-!
# Arguments of the command

The command takes a source path and an output path, with options before, between or after them.
Arguments are taken from left to right: the first one that cannot stand where it does makes the
whole line a misuse, and a request for the version or for help is met as soon as it is reached,
whatever follows.

An argument is told by its form first (`Argument`), and only then by its name. Two hyphens alone end
the options, so that a path may start with a hyphen; a single hyphen is a path. Letters behind one
hyphen are read one by one, and an option with a value has it behind an equals sign or as the next
argument. Flags and the indentation may be given once; what concerns the log may be given any number
of times, and is passed over.

What the arguments have settled so far is carried along (`Settled`), and a job comes of it when
there are two paths at the end. A misuse has no further detail here: what is said to the user about
it is not part of the command.
-/

namespace KannadaScript.Command

/-- What a compiling run is asked to do. -/
structure Job where
  input : String
  output : String
  dumpTokens : Bool
  dumpTree : Bool
  dumpTable : Bool
  indent : Nat
deriving DecidableEq, Repr

/-- What a run is asked for. -/
inductive Request where
  | version
  | help
  | job (job : Job)
deriving DecidableEq, Repr

/-! ### Numbers -/

/-- The greatest number that an option can have: that of an unsigned 64-bit word. -/
def maxNumber : Nat := 0xFFFFFFFFFFFFFFFF

/-- The value of a non-empty list of decimal digits. -/
def digits? : List Char → Option Nat
  | [] => none
  | cs =>
    if cs.all Char.isDigit then some (cs.foldl (fun n c ↦ n * 10 + (c.toNat - '0'.toNat)) 0)
    else none

/-- The number that an option's value spells: digits after an optional plus sign. -/
def number? (text : String) : Option Nat :=
  let digits :=
    match text.toList with
    | '+' :: rest => rest
    | cs => cs
  (digits? digits).bind fun n ↦ if n ≤ maxNumber then some n else none

/-! ### Options -/

/-- The options that may be given at most once, and have no value. -/
inductive Flag where
  | dumpTokens
  | dumpTree
  | dumpTable
deriving DecidableEq, Repr

/-- The flag with the given name. -/
def Flag.ofName? : String → Option Flag
  | "dump-tokens" => some .dumpTokens
  | "dump-ast" => some .dumpTree
  | "dump-symbols" => some .dumpTable
  | _ => none

/-- What the arguments taken so far have settled. -/
structure Settled where
  paths : List String := []
  flags : List Flag := []
  indent : Option Nat := none
deriving DecidableEq, Repr

namespace Settled

/-- Add a path. There are two, and neither is empty. -/
def addPath (s : Settled) (path : String) : Option Settled :=
  if path = "" ∨ 2 ≤ s.paths.length then none else some { s with paths := s.paths ++ [path] }

/-- Add a flag that is not set yet. -/
def addFlag (s : Settled) (flag : Flag) : Option Settled :=
  if flag ∈ s.flags then none else some { s with flags := flag :: s.flags }

/-- Set the indentation, once. -/
def setIndent (s : Settled) (value : String) : Option Settled :=
  if s.indent.isSome then none
  else (number? value).map fun n ↦ { s with indent := some n }

/-- The job that the arguments describe, if they are complete. -/
def job? (s : Settled) : Option Job :=
  match s.paths with
  | [input, output] =>
    some { input, output
           dumpTokens := Flag.dumpTokens ∈ s.flags
           dumpTree := Flag.dumpTree ∈ s.flags
           dumpTable := Flag.dumpTable ∈ s.flags
           indent := s.indent.getD Code.defaultIndent }
  | _ => none

end Settled

/-- An argument by its form. -/
inductive Argument where
  /-- Two hyphens: only paths follow. -/
  | endOfOptions
  /-- Two hyphens and a name, perhaps with a value after an equals sign. -/
  | long (name : String) (value : Option String)
  /-- A hyphen and letters. -/
  | short (letters : List Char)
  | path (path : String)
deriving DecidableEq, Repr

/-- The form of an argument. -/
def Argument.ofString (arg : String) : Argument :=
  match arg.toList with
  | ['-', '-'] => .endOfOptions
  | '-' :: '-' :: cs =>
    let name := String.ofList (cs.takeWhile (· != '='))
    match cs.dropWhile (· != '=') with
    | [] => .long name none
    | _ :: value => .long name (some (String.ofList value))
  | '-' :: c :: cs => .short (c :: cs)
  | _ => .path arg

/-- What the letters after one hyphen ask for: `none` for a misuse, `some none` to go on. -/
def letters? : List Char → Option (Option Request)
  | [] => some none
  | 'v' :: cs => letters? cs
  | 'V' :: _ => some (some .version)
  | 'h' :: _ => some (some .help)
  | _ => none

/-- The request of the remaining arguments; `none` for a misuse. -/
def requestAfter (s : Settled) : List String → Option Request
  | [] => s.job?.map .job
  | arg :: rest =>
    match Argument.ofString arg with
    | .endOfOptions => (rest.foldlM Settled.addPath s).bind fun s ↦ s.job?.map .job
    | .path path => (s.addPath path).bind fun s ↦ requestAfter s rest
    | .short letters =>
      (letters? letters).bind fun
        | some request => some request
        | none => requestAfter s rest
    | .long "version" none => some .version
    | .long "help" none => some .help
    | .long "verbose" none => requestAfter s rest
    | .long "indent" (some value) => (s.setIndent value).bind fun s ↦ requestAfter s rest
    | .long "indent" none =>
      match rest with
      | [] => none
      | value :: rest =>
        if value.toList.head? = some '-' then none
        else (s.setIndent value).bind fun s ↦ requestAfter s rest
    | .long name none =>
      (Flag.ofName? name).bind fun flag ↦ (s.addFlag flag).bind fun s ↦ requestAfter s rest
    | .long _ (some _) => none

/-- The request of a whole command line; `none` for a misuse. -/
def request? (args : List String) : Option Request := requestAfter {} args

end KannadaScript.Command
