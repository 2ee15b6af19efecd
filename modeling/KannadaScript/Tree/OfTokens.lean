import KannadaScript.Token.Cursor
import KannadaScript.Tree.Reader

/-!
# Trees from token lists

Recursive descent with one token of lookahead. Expressions have three tiers of left-associative
binary operators, `==` below `+ -` below `* /`, over an operand that may carry one minus sign.

Only a bracket leads back to a whole expression or to a list of statements, and at most
`maxNesting` of them may be open; so `expression` and `statement` recurse on the number of
brackets that may still be opened, and every other function takes what stands inside a bracket
as an argument. A tier recurses on the number of operators that may still follow, a list of
statements on the number of tokens left; neither bound is ever reached, because an operator is
counted before its operand is read and a statement takes at least one token.
-/

namespace KannadaScript

namespace Parse

/-! ### Expressions -/

/-- The operators of the loosest tier. -/
def equality : Lexeme → Option BinaryOp
  | .mark .equal => some .eq
  | _ => none

/-- The operators of the middle tier. -/
def additive : Lexeme → Option BinaryOp
  | .mark .plus => some .add
  | .mark .minus => some .sub
  | _ => none

/-- The operators of the tightest tier. -/
def multiplicative : Lexeme → Option BinaryOp
  | .mark .star => some .mul
  | .mark .slash => some .div
  | _ => none

/-- Fold operands onto `left` as long as operators of the tier follow. -/
def chain (tier : Lexeme → Option BinaryOp) (operand : Parse Node) :
    (bound : Nat) → (left : Node) → Parse Node
  | 0, left => pure left
  | bound + 1, left => do
    match tier (← peek).lexeme with
    | none => pure left
    | some op =>
      let line := (← take).line
      countOperator line
      let right ← operand
      chain tier operand bound (.binary line op left right)

/-- Operands of one tier, joined from the left. -/
def joined (tier : Lexeme → Option BinaryOp) (operand : Parse Node) : Parse Node := do
  chain tier operand (maxOperators + 1) (← operand)

/-- A literal, a variable, or an expression in parentheses. The inside of the parentheses is
read by `inside`, which is given the line of the opening one. -/
def primary (inside : Nat → Parse Node) : Parse Node := do
  let t ← take
  match t.lexeme with
  | .number v => pure (.number t.line v)
  | .quoted v => pure (.quoted t.line v)
  | .keyword .trueWord => pure (.truth t.line true)
  | .keyword .falseWord => pure (.truth t.line false)
  | .name x => pure (.var t.line x)
  | .mark .openParen =>
    let e ← inside t.line
    let _ ← demand .parenEnd
    pure e
  | found => throw ⟨.notAnOperand found, t.line⟩

/-- A primary expression with at most one minus sign before it. -/
def factor (inside : Nat → Parse Node) : Parse Node := do
  if (← peek).lexeme = .mark .minus then
    let line := (← take).line
    return .negate line (← primary inside)
  else primary inside

/-- An expression whose parentheses are read by `inside`. -/
def expressionWith (inside : Nat → Parse Node) : Parse Node :=
  joined equality (joined additive (joined multiplicative (factor inside)))

/-- An expression in which `levels` more brackets may be open. -/
def expression : (levels : Nat) → Parse Node
  | 0 => expressionWith refuseNesting
  | levels + 1 => expressionWith fun _ ↦ expression levels

/-! ### Statements -/

/-- A block. Its statements are read by `inside`, which is given the line of the opening brace. -/
def block (inside : Nat → Parse (List Node)) : Parse Node := do
  let line := (← demand .blockStart).line
  let ss ← inside line
  let _ ← demand .blockEnd
  pure (.block line ss)

/-- A statement, given how to read its expression and its blocks. -/
def statementWith (expression block : Parse Node) : Parse Node := do
  resetOperators
  let t ← peek
  match t.lexeme with
  | .keyword .ifWord =>
    let _ ← take
    let condition ← expression
    let thenBody ← block
    if (← peek).lexeme = .keyword .elseWord then
      let _ ← take
      return .ifElse t.line condition thenBody (← block)
    else return .ifThen t.line condition thenBody
  | .keyword .whileWord =>
    let _ ← take
    let condition ← expression
    return .loop t.line condition (← block)
  | .keyword .printWord =>
    let _ ← take
    let value ← expression
    let _ ← demand .printEnd
    pure (.print t.line value)
  | .name x =>
    let _ ← take
    let _ ← demand .assignment
    let value ← expression
    let _ ← demand .assignmentEnd
    pure (.assign t.line x value)
  | found => throw ⟨.notAStatement found, t.line⟩

/-- Statements up to a lexeme in `stop`, at most `bound` of them. -/
def statementsUpTo (stop : Lexeme → Bool) (statement : Parse Node) :
    (bound : Nat) → Parse (List Node)
  | 0 => pure []
  | bound + 1 => do
    if stop (← peek).lexeme then pure []
    else
      let s ← statement
      return s :: (← statementsUpTo stop statement bound)

/-- Statements up to a lexeme in `stop`, which the end of file has to be. -/
def statements (stop : Lexeme → Bool) (statement : Parse Node) : Parse (List Node) := do
  statementsUpTo stop statement (← get).pending.length

/-- The end of file. -/
def isEnd (l : Lexeme) : Bool := l == .endOfFile

/-- What ends the statements of a block: its closing brace or the end of file. -/
def endsBlock (l : Lexeme) : Bool := l == .mark .closeBrace || isEnd l

/-- A statement in which `levels` more brackets may be open. -/
def statement : (levels : Nat) → Parse Node
  | 0 => statementWith (expression 0) (block refuseNesting)
  | levels + 1 =>
    statementWith (expression (levels + 1)) (block fun _ ↦ statements endsBlock (statement levels))

/-- A whole program: statements up to the end of file. -/
def program : Parse Node := do
  let line := (← peek).line
  return .program line (← statements isEnd (statement maxNesting))

end Parse

/-- The program that a token list spells. -/
def Node.ofTokens (tokens : List Token) : Except SyntaxError Node :=
  match Parse.program (Reader.ofTokens tokens) with
  | .ok n _ => .ok n
  | .error e _ => .error e

end KannadaScript
