import KannadaScript.Code.Quoted
import KannadaScript.Code.Sink
import KannadaScript.Text.Layout
import KannadaScript.Tree.Basic

/-!
# Writing code

A tree is written out statement by statement, each on lines of its own, indented by a fixed
number of blanks per enclosing block. An operand is put in parentheses only where its precedence
or its place to the right of an equal operator asks for it, and a negative number always, so that
no two operators run together.

A tree in which some node stands where it cannot be written is written up to that node. The
walk also stops at a sink that refuses bytes, and at a line whose indentation is wider than
`maxPadding`; in each case what was written before stays written.
-/

namespace KannadaScript

namespace Code

/-- The blanks per level unless another number is asked for. -/
def defaultIndent : Nat := 4

/-- The widest indentation that a line can have. -/
def maxPadding : Nat := 65535

/-- How a node can stand where it cannot be written. -/
inductive Misplacement where
  | nestedProgram
  | blockAsStatement
  | expressionAsStatement
  | bodyNotABlock
  | statementAsExpression
deriving DecidableEq, Repr

/-- The wording of a misplacement. -/
def Misplacement.message : Misplacement → String
  | .nestedProgram => "program node nested inside another node"
  | .blockAsStatement => "block in statement position"
  | .expressionAsStatement => "expression in statement position"
  | .bodyNotABlock => "statement body is not a block"
  | .statementAsExpression => "statement node in expression position"

/-- Why a tree is not written to its end. -/
inductive Failure where
  /-- A node, on the given line, stands where it cannot be written. -/
  | misplaced (how : Misplacement) (line : Nat)
  /-- The sink refuses. -/
  | storage (fault : StorageFault)
  /-- A line inside `depth` blocks would be indented by more than `maxPadding` blanks. -/
  | paddingTooWide (depth : Nat)
deriving DecidableEq, Repr

/-- The wording of a failure. A line that is too wide has none: whoever writes breaks off there, and
there is nobody left to report it. -/
def Failure.message : Failure → String
  | .misplaced how line => "Internal error at line " ++ line.repr ++ ": " ++ how.message
  | .storage fault => "Failed to write generated code: " ++ fault.message
  | .paddingTooWide _ => ""

/-- The line that a failure is about, if it is about one. -/
def Failure.line? : Failure → Option Nat
  | .misplaced _ line => some line
  | .storage _ | .paddingTooWide _ => none

/-- A step that writes to a sink and may fail. -/
abbrev Emit := EStateM Failure Sink

namespace Emit

/-- Run a step of the sink. -/
def sink (step : EStateM StorageFault Sink Unit) : Emit Unit := fun s ↦
  match step s with
  | .ok u s' => .ok u s'
  | .error fault s' => .error (.storage fault) s'

/-- Write a text. -/
def put (text : String) : Emit Unit := sink (Sink.write text)

/-- Indent a line by `depth` levels of `width` blanks. -/
def indent (width depth : Nat) : Emit Unit :=
  if maxPadding < depth * width then throw (.paddingTooWide depth)
  else put (Text.blanks (depth * width))

/-- Fail because of a misplaced node. -/
def misplace (how : Misplacement) (n : Node) : Emit Unit := throw (.misplaced how n.line)

/-- Put what a step writes in parentheses if asked to. -/
def wrapped (wrap : Bool) (step : Emit Unit) : Emit Unit :=
  if wrap then do
    put "("
    step
    put ")"
  else step

end Emit

end Code

namespace Node

open Code

/-! ### Expressions -/

/-- Whether a node needs parentheses as the left operand of `op`. -/
def wrapsLeft (op : BinaryOp) : Node → Bool
  | .binary _ inner _ _ => inner.precedence < op.precedence
  | .number _ v => v < 0
  | _ => false

/-- Whether a node needs parentheses as the right operand of `op`. -/
def wrapsRight (op : BinaryOp) : Node → Bool
  | .binary _ inner _ _ => inner.precedence ≤ op.precedence
  | .number _ v => v < 0
  | _ => false

/-- Whether a node needs parentheses after a minus sign. -/
def wrapsNegated : Node → Bool
  | .binary _ _ _ _ | .negate _ _ => true
  | .number _ v => v < 0
  | _ => false

/-- Write an expression. -/
def emitExpression : Node → Emit Unit
  | .binary _ op a b => do
    Emit.wrapped (a.wrapsLeft op) a.emitExpression
    Emit.put (" " ++ op.spelling ++ " ")
    Emit.wrapped (b.wrapsRight op) b.emitExpression
  | .negate _ a => do
    Emit.put negationSpelling
    Emit.wrapped a.wrapsNegated a.emitExpression
  | .var _ x => Emit.put x
  | .number _ v => Emit.put (Text.decimal v.toInt)
  | .quoted _ v => Emit.put (literal v)
  | .truth _ v => Emit.put (cond v "true" "false")
  | n => Emit.misplace .statementAsExpression n

/-! ### Statements -/

mutual
/-- Write a statement inside `depth` blocks. -/
def emitStatement (width depth : Nat) : Node → Emit Unit
  | .ifThen _ c t => do
    Emit.indent width depth
    Emit.put "if ("
    c.emitExpression
    Emit.put ") \x7b\n"
    t.emitBody width depth
    Emit.indent width depth
    Emit.put "\x7d\n"
  | .ifElse _ c t e => do
    Emit.indent width depth
    Emit.put "if ("
    c.emitExpression
    Emit.put ") \x7b\n"
    t.emitBody width depth
    Emit.indent width depth
    Emit.put "\x7d else \x7b\n"
    e.emitBody width depth
    Emit.indent width depth
    Emit.put "\x7d\n"
  | .loop _ c b => do
    Emit.indent width depth
    Emit.put "while ("
    c.emitExpression
    Emit.put ") \x7b\n"
    b.emitBody width depth
    Emit.indent width depth
    Emit.put "\x7d\n"
  | .print _ v => do
    Emit.indent width depth
    Emit.put "print("
    v.emitExpression
    Emit.put ");\n"
  | .assign _ x v => do
    Emit.indent width depth
    Emit.put (x ++ " = ")
    v.emitExpression
    Emit.put ";\n"
  | n@(.program _ _) => Emit.misplace .nestedProgram n
  | n@(.block _ _) => Emit.misplace .blockAsStatement n
  | n => Emit.misplace .expressionAsStatement n
/-- Write the statements of a block that belongs to a statement inside `depth` blocks. -/
def emitBody (width depth : Nat) : Node → Emit Unit
  | .block _ ss => emitStatements width (depth + 1) ss
  | n => Emit.misplace .bodyNotABlock n
/-- Write a list of statements inside `depth` blocks. -/
def emitStatements (width depth : Nat) : List Node → Emit Unit
  | [] => pure ()
  | n :: ns => do
    n.emitStatement width depth
    emitStatements width depth ns
end

/-- Write a tree inside `depth` blocks and flush the sink: the statements of a program, or a
single statement. -/
def emit (width depth : Nat) (root : Node) : Emit Unit := do
  match root with
  | .program _ ss => emitStatements width depth ss
  | n => n.emitStatement width depth
  Emit.sink Sink.flush

end Node

end KannadaScript
