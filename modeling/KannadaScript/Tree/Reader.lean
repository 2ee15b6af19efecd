import KannadaScript.Token.Basic
import KannadaScript.Tree.Basic

/-!
# Reading a token list

A reader holds the tokens before the end of file that are not consumed yet. At the end it shows the
end-of-file token, and consuming that leaves it where it is. It also counts the binary operators of
the statement at hand.

`Parse` is a reader action that gives a value or a syntax error. The reader survives an error, so
reading can go on from the token at which it stopped.

Two limits are checked while tokens are read, `maxNesting` for the brackets open at a time and
`maxOperators` for the binary operators of a statement. They keep the trees small enough for all
that recurses on them. The operators are counted by the reader; the brackets are counted by the
parsers, in the levels that they have left, so there is nothing to be undone when a bracket closes.

Messages about a token that is missing are one family (`Demand`): each names the mark, the place
where it should stand, and the lexeme that was found.
-/

namespace KannadaScript

/-! ### Errors -/

/-- The most parentheses and blocks that may be open at once. -/
def maxNesting : Nat := 64

/-- The most binary operators in one statement, those of statements inside it not counted. -/
def maxOperators : Nat := 1024

/-- The places at which one particular mark has to follow. -/
inductive Demand where
  | blockStart
  | blockEnd
  | printEnd
  | assignment
  | assignmentEnd
  | parenEnd
deriving DecidableEq, Repr

namespace Demand

/-- The mark that has to follow. -/
def mark : Demand → Mark
  | .blockStart => .openBrace
  | .blockEnd => .closeBrace
  | .printEnd => .semicolon
  | .assignment => .assign
  | .assignmentEnd => .semicolon
  | .parenEnd => .closeParen

/-- How messages name the place. -/
def place : Demand → String
  | .blockStart => "at the beginning of a block"
  | .blockEnd => "at the end of a block"
  | .printEnd => "after print statement"
  | .assignment => "after identifier"
  | .assignmentEnd => "after assignment"
  | .parenEnd => "after expression"

end Demand

/-- Why a token list is no program. -/
inductive SyntaxFault where
  /-- No statement starts with this lexeme. -/
  | notAStatement (found : Lexeme)
  /-- No operand starts with this lexeme. -/
  | notAnOperand (found : Lexeme)
  /-- A mark is missing before this lexeme. -/
  | missing (demand : Demand) (found : Lexeme)
  /-- More than `maxNesting` parentheses and blocks are open. -/
  | nestedTooDeep
  /-- A statement has more than `maxOperators` binary operators. -/
  | tooManyOperators
deriving DecidableEq, Repr

/-- The wording of a fault. -/
def SyntaxFault.message : SyntaxFault → String
  | .notAStatement found => "Unexpected " ++ found.describe ++ " at start of statement"
  | .notAnOperand found => "Unexpected " ++ found.describe ++ " in expression"
  | .missing demand found =>
    "Expected " ++ (Lexeme.mark demand.mark).describe ++ " " ++ demand.place ++ ", found " ++
      found.describe
  | .nestedTooDeep => "Nesting too deep (maximum " ++ maxNesting.repr ++ " levels)"
  | .tooManyOperators =>
    "Expression too long (maximum " ++ maxOperators.repr ++ " operators per statement)"

/-- A fault and the line of the token that shows it. -/
structure SyntaxError where
  fault : SyntaxFault
  line : Nat
deriving DecidableEq, Repr

/-- The wording of a token list that is no program. -/
def SyntaxError.message (e : SyntaxError) : String :=
  "Parse error at line " ++ e.line.repr ++ ": " ++ e.fault.message

/-! ### Readers -/

/-- The tokens still to be read. -/
structure Reader where
  /-- The tokens before the end of file. -/
  pending : List Token
  /-- The line of the end of file. -/
  endLine : Nat
  /-- The binary operators counted in the current statement. -/
  operators : Nat
deriving DecidableEq, Repr

namespace Reader

/-- Reads `tokens` up to the first end of file. Without one, the list ends on the line of its
last token, and an empty list on line one. -/
def ofTokens (tokens : List Token) : Reader where
  pending := tokens.takeWhile (·.lexeme != .endOfFile)
  endLine :=
    match tokens.find? (·.lexeme == .endOfFile) with
    | some t => t.line
    | none => (tokens.getLast?.map Token.line).getD 1
  operators := 0

/-- The token at which the reader stands. -/
def current (r : Reader) : Token := r.pending.headD ⟨.endOfFile, r.endLine⟩

/-- The reader after its current token. -/
def rest (r : Reader) : Reader := { r with pending := r.pending.tail }

end Reader

/-! ### Actions -/

/-- A reader action that gives a value or a syntax error. -/
abbrev Parse := EStateM SyntaxError Reader

namespace Parse

/-- The current token, left in place. -/
def peek : Parse Token := return (← get).current

/-- The current token, consumed. -/
def take : Parse Token := modifyGet fun r ↦ (r.current, r.rest)

/-- Consume the mark that has to follow here. -/
def demand (d : Demand) : Parse Token := do
  let t ← peek
  if t.lexeme = .mark d.mark then take else throw ⟨.missing d t.lexeme, t.line⟩

/-- Count an operator that stands on the given line. -/
def countOperator (line : Nat) : Parse Unit := do
  modify fun r ↦ { r with operators := r.operators + 1 }
  if maxOperators < (← get).operators then throw ⟨.tooManyOperators, line⟩

/-- Start the count of operators anew. -/
def resetOperators : Parse Unit := modify fun r ↦ { r with operators := 0 }

/-- Refuse a bracket on the given line because too many are open. -/
def refuseNesting {α : Type} (line : Nat) : Parse α := throw ⟨.nestedTooDeep, line⟩

end Parse

end KannadaScript
