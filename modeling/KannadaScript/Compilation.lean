import KannadaScript.Code.Emit
import KannadaScript.Declaration.Check
import KannadaScript.Tree.OfTokens

/-!
# Compilation

A source text is scanned, read as a program, checked, and written out, in that order, and the first
error ends the compilation. Code is written only once the whole program has passed the check, so an
error before that leaves the sink untouched.

Each phase has errors of its own, and a compilation has those of all phases (`CompileError`). What
is said of a phase by itself is therefore said without the others, and `scanned`, `parsed` and
`checked` only put its error in its place. The phases before writing have no state that outlives
them: `accepted` gives a program or an error, and the sink comes in with `written`.

The options are about the table that the check starts from and about the layout of the code.

`compile` writes to any sink and says what became of it. `compileToText` is the same for a sink
without a limit and the default options, for which the code can be given as a text.
-/

namespace KannadaScript

/-! ### Options and errors -/

/-- The settings of a compilation. -/
structure Options where
  /-- The number of buckets of the declaration table. -/
  buckets : Nat := Table.defaultBuckets
  /-- The blanks per level in the written code. -/
  indent : Nat := Code.defaultIndent
  /-- Names that count as declared before the program starts. -/
  predeclared : List String := []
deriving DecidableEq, Repr

/-- The first error of a compilation. -/
inductive CompileError where
  | lexical (error : LexicalError)
  | grammatical (error : SyntaxError)
  | undeclared (error : Undeclared)
  | unwritten (failure : Code.Failure)
deriving DecidableEq, Repr

namespace CompileError

/-- The wording of a compilation that failed. -/
def message : CompileError → String
  | .lexical e => "Lexical error at line " ++ e.line.repr ++ ": " ++ e.fault.message
  | .grammatical e => "Syntax error at line " ++ e.line.repr ++ ": " ++ e.fault.message
  | .undeclared e =>
    "Semantic error at line " ++ e.line.repr ++ ": undeclared variable '" ++ e.name ++ "'"
  | .unwritten failure => failure.message

/-- The line of the source text that an error is about, if it is about one. -/
def line? : CompileError → Option Nat
  | .lexical e => some e.line
  | .grammatical e => some e.line
  | .undeclared e => some e.line
  | .unwritten failure => failure.line?

end CompileError

/-! ### Phases -/

/-- The tokens of a source text. -/
def scanned (source : String) : Except CompileError (List Token) :=
  (tokenize source).mapError .lexical

/-- The program that a token list spells. -/
def parsed (tokens : List Token) : Except CompileError Node :=
  (Node.ofTokens tokens).mapError .grammatical

/-- The table in which a check starts: the predeclared names only. -/
def Options.table (options : Options) : Table :=
  options.predeclared.foldl Table.declare (Table.empty options.buckets)

/-- The declarations of a program that passes the check. -/
def checked (options : Options) (program : Node) : Except CompileError Table :=
  (program.declarations options.table).mapError .undeclared

/-- The program that a source text spells, once it has passed the check. -/
def accepted (options : Options) (source : String) : Except CompileError Node := do
  let tokens ← scanned source
  let program ← parsed tokens
  let _ ← checked options program
  return program

/-- A step that writes to a sink and may end the compilation. -/
abbrev Compile := EStateM CompileError Sink

/-- Write the code of a program. -/
def written (options : Options) (program : Node) : Compile Unit := fun s ↦
  match program.emit options.indent 0 s with
  | .ok u s' => .ok u s'
  | .error failure s' => .error (.unwritten failure) s'

/-- Compile a source text into a sink. -/
def compile (options : Options) (source : String) : Compile Unit := do
  match accepted options source with
  | .ok program => written options program
  | .error e => throw e

/-- The code of a source text under the default options. The bytes in the sink are those of the
texts written to it, so they always are a text again. -/
def compileToText (source : String) : Except CompileError String :=
  match compile {} source {} with
  | .ok _ sink => .ok ((Text.ofBytes? sink.written.toList).getD "")
  | .error e _ => .error e

end KannadaScript
