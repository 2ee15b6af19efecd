import KannadaScript.Proofs.Tree.Expression

/-!
# Descent with everything counted

A reader holds the tokens that are left, and how many brackets may still be opened is an argument of
its parsers. Here is the same descent as a machine that keeps all of this in its state: the whole
token list, the position reached in it, the brackets that are open and the operators counted. What
stands inside a bracket is read between `Descent.enter` and `Descent.leave`, and the count that
these two keep is all that bounds the nesting: a bracket that is entered and not left would count
for every later one. That the machine gives what the reader gives is shown in
`KannadaScript.Proofs.Tree.Resumption`.

A routine frames (`Frames`) when what it leaves of the state is as it should be, after a value and
after an error. Single steps do, and a sequence of routines that frame does (`Frames.bind`); so each
routine of the machine is taken apart into its steps and nothing is said about what it reads. The
one step with an argument in it is `frames_nested`. It enters a bracket, and it leaves it both ways.

What is kept is a relation between the state before and the state after (`Parser.Keeps`), which is
reflexive and transitive. It has the tokens and the open brackets unchanged, the position not
decreased, and the position not beyond the end of file if it was not beyond it before.

Main statement: `Parser.Routine.frames`. Whatever routine runs, from whatever state, and whether it
ends in a value or in an error: as many brackets are open as before, the position has not decreased,
and it has not passed the first end of file.
-/

namespace KannadaScript

open Grammar

/-! ### The state -/

/-- A token list, the place reached in it, and what has been counted on the way. -/
structure Parser where
  /-- All tokens, those already read included. -/
  tokens : List Token
  /-- The number of tokens already read. -/
  position : Nat
  /-- The parentheses and blocks open around the current token. -/
  nesting : Nat
  /-- The binary operators counted in the current statement. -/
  operators : Nat
deriving DecidableEq, Repr

namespace Parser

/-- A parser at the start of a list, to which an end of file is added if it does not end in one. -/
def ofTokens (tokens : List Token) : Parser := ⟨ended tokens, 0, 0, 0⟩

/-- The tokens from the position on. -/
def remaining (p : Parser) : List Token := p.tokens.drop p.position

/-- The token at the position; behind the list there would be only the end of file. -/
def current (p : Parser) : Token := p.tokens.getD p.position ⟨.endOfFile, 1⟩

/-- The parser after its current token, which an end of file never is. -/
def next (p : Parser) : Parser :=
  if p.current.lexeme = .endOfFile then p else { p with position := p.position + 1 }

/-- The place of the first end of file. -/
def endIndex (p : Parser) : Nat := p.tokens.findIdx (·.lexeme == .endOfFile)

/-- The parser inside one more bracket. -/
def entered (p : Parser) : Parser := { p with nesting := p.nesting + 1 }

/-- The parser outside the innermost bracket. -/
def left (p : Parser) : Parser := { p with nesting := p.nesting - 1 }

end Parser

/-! ### The machine -/

/-- A step of a parser that gives a value or a syntax error. -/
abbrev Descent := EStateM SyntaxError Parser

namespace Descent

/-- The current token, left in place. -/
def peek : Descent Token := return (← get).current

/-- The current token, consumed. -/
def advance : Descent Token := modifyGet fun p ↦ (p.current, p.next)

/-- Consume the mark that has to follow here. -/
def demand (d : Demand) : Descent Token := do
  let t ← peek
  if t.lexeme = .mark d.mark then advance else throw ⟨.missing d t.lexeme, t.line⟩

/-- Open a bracket that stands on the given line, unless too many are open. -/
def enter (line : Nat) : Descent Unit := do
  if maxNesting ≤ (← get).nesting then throw ⟨.nestedTooDeep, line⟩ else modify Parser.entered

/-- Close the innermost bracket. -/
def leave : Descent Unit := modify Parser.left

/-- What stands inside a bracket. The bracket is left also when its inside is at fault. -/
def nested {α : Type} (line : Nat) (inside : Descent α) : Descent α := do
  enter line
  try inside finally leave

/-- Count an operator that stands on the given line. -/
def countOperator (line : Nat) : Descent Unit := do
  modify fun p ↦ { p with operators := p.operators + 1 }
  if maxOperators < (← get).operators then throw ⟨.tooManyOperators, line⟩ else pure ()

/-- Start the count of operators anew. -/
def resetOperators : Descent Unit := modify fun p ↦ { p with operators := 0 }

/-- Where a recursion on brackets would end. It never gets there, because `enter` refuses the
bracket that would lead to it. -/
def unreached {α : Type} : Descent α := do throw ⟨.nestedTooDeep, (← peek).line⟩

/-- Fold operands onto `l` as long as operators of the tier follow. -/
def chain (tier : Lexeme → Option BinaryOp) (operand : Descent Node) :
    (bound : Nat) → (l : Node) → Descent Node
  | 0, l => pure l
  | bound + 1, l => do
    match tier (← peek).lexeme with
    | none => pure l
    | some op =>
      let line := (← advance).line
      countOperator line
      let r ← operand
      chain tier operand bound (.binary line op l r)

/-- Operands of one tier, joined from the left. -/
def joined (tier : Lexeme → Option BinaryOp) (operand : Descent Node) : Descent Node := do
  chain tier operand (maxOperators + 1) (← operand)

/-- A literal, a variable, or an expression in parentheses. -/
def primary (inside : Descent Node) : Descent Node := do
  let t ← advance
  match t.lexeme with
  | .number v => pure (.number t.line v)
  | .quoted v => pure (.quoted t.line v)
  | .keyword .trueWord => pure (.truth t.line true)
  | .keyword .falseWord => pure (.truth t.line false)
  | .name x => pure (.var t.line x)
  | .mark .openParen =>
    let e ← nested t.line inside
    let _ ← demand .parenEnd
    pure e
  | found => throw ⟨.notAnOperand found, t.line⟩

/-- A primary expression with at most one minus sign before it. -/
def factor (inside : Descent Node) : Descent Node := do
  if (← peek).lexeme = .mark .minus then
    let line := (← advance).line
    return .negate line (← primary inside)
  else primary inside

/-- Factors joined by `*` and `/`. -/
def product (inside : Descent Node) : Descent Node := joined Parse.multiplicative (factor inside)

/-- Products joined by `+` and `-`. -/
def sum (inside : Descent Node) : Descent Node := joined Parse.additive (product inside)

/-- Sums joined by `==`. -/
def comparison (inside : Descent Node) : Descent Node := joined Parse.equality (sum inside)

/-- An expression that opens fewer than `bound` brackets inside one another. -/
def expression : (bound : Nat) → Descent Node
  | 0 => unreached
  | bound + 1 => comparison (expression bound)

/-- A block whose statements are read by `inside`. -/
def block (inside : Descent (List Node)) : Descent Node := do
  let line := (← demand .blockStart).line
  let ss ← nested line inside
  let _ ← demand .blockEnd
  pure (.block line ss)

section Statement

variable (line : Nat) (expression block : Descent Node)

/-- A conditional statement on `line`, its first token consumed. -/
def conditional : Descent Node := do
  let condition ← expression
  let thenBody ← block
  if (← peek).lexeme = .keyword .elseWord then
    let _ ← advance
    return .ifElse line condition thenBody (← block)
  else return .ifThen line condition thenBody

/-- A loop on `line`, its first token consumed. -/
def repetition : Descent Node := do
  let condition ← expression
  return .loop line condition (← block)

/-- A statement that prints on `line`, its first token consumed. -/
def printing : Descent Node := do
  let value ← expression
  let _ ← demand .printEnd
  pure (.print line value)

/-- An assignment to `x` on `line`, its first token consumed. -/
def assignment (x : String) : Descent Node := do
  let _ ← demand .assignment
  let value ← expression
  let _ ← demand .assignmentEnd
  pure (.assign line x value)

end Statement

/-- A statement, by the token that it starts with. -/
def statementWith (expression block : Descent Node) : Descent Node := do
  resetOperators
  let t ← peek
  match t.lexeme with
  | .keyword .ifWord =>
    let _ ← advance
    conditional t.line expression block
  | .keyword .whileWord =>
    let _ ← advance
    repetition t.line expression block
  | .keyword .printWord =>
    let _ ← advance
    printing t.line expression
  | .name x =>
    let _ ← advance
    assignment t.line expression x
  | found => throw ⟨.notAStatement found, t.line⟩

/-- Statements up to a lexeme in `stop`, at most `bound` of them. -/
def statementsUpTo (stop : Lexeme → Bool) (statement : Descent Node) :
    (bound : Nat) → Descent (List Node)
  | 0 => pure []
  | bound + 1 => do
    if stop (← peek).lexeme then pure []
    else
      let s ← statement
      return s :: (← statementsUpTo stop statement bound)

/-- Statements up to a lexeme in `stop`, which the end of file has to be. -/
def statements (stop : Lexeme → Bool) (statement : Descent Node) : Descent (List Node) := do
  statementsUpTo stop statement (beforeEnd (← get).remaining).length

/-- A statement that opens fewer than `bound` brackets inside one another. -/
def statement : (bound : Nat) → Descent Node
  | 0 => unreached
  | bound + 1 =>
    statementWith (expression (bound + 1)) (block (statements Parse.endsBlock (statement bound)))

/-- A whole program: statements up to the end of file. -/
def program : Descent Node := do
  let line := (← peek).line
  return .program line (← statements Parse.isEnd (statement (maxNesting + 1)))

end Descent

/-! ### What a step leaves as it was -/

namespace Parser

/-- `p'` is `p` further on in the same tokens, with the same brackets open. -/
structure Keeps (p p' : Parser) : Prop where
  tokens : p'.tokens = p.tokens
  nesting : p'.nesting = p.nesting
  /-- The position has not decreased. -/
  forward : p.position ≤ p'.position
  /-- The position has not passed the first end of file. -/
  before_end : p.position ≤ p.endIndex → p'.position ≤ p.endIndex

theorem Keeps.refl (p : Parser) : p.Keeps p := ⟨rfl, rfl, le_rfl, id⟩

/-- Where the tokens end is a matter of the tokens. -/
theorem endIndex_congr {p p' : Parser} (h : p'.tokens = p.tokens) : p'.endIndex = p.endIndex := by
  rw [endIndex, endIndex, h]

theorem Keeps.trans {p p' p'' : Parser} (h : p.Keeps p') (h' : p'.Keeps p'') : p.Keeps p'' where
  tokens := h'.tokens.trans h.tokens
  nesting := h'.nesting.trans h.nesting
  forward := h.forward.trans h'.forward
  before_end hp := by
    have hnext := h'.before_end
    rw [endIndex_congr h.tokens] at hnext
    exact hnext (h.before_end hp)

/-- At the first end of file, and behind the list, the current token is an end of file. -/
theorem current_of_position_eq {p : Parser} (h : p.position = p.endIndex) :
    p.current.lexeme = .endOfFile := by
  rw [current, h]
  by_cases hlt : p.endIndex < p.tokens.length
  · rw [List.getD_eq_getElem _ _ hlt]
    exact beq_iff_eq.1 (List.findIdx_getElem (w := hlt))
  · rw [List.getD_eq_default _ _ (Nat.not_lt.1 hlt)]

/-- A token taken moves the position by one, up to the end of file. -/
theorem keeps_next (p : Parser) : p.Keeps p.next := by
  rw [next]
  split
  case isTrue => exact .refl p
  case isFalse hne =>
    refine ⟨rfl, rfl, Nat.le_succ _, fun hp ↦ ?_⟩
    exact lt_of_le_of_ne hp fun heq ↦ hne (current_of_position_eq heq)

theorem keeps_operators (p : Parser) (k : Nat) : p.Keeps { p with operators := k } :=
  ⟨rfl, rfl, le_rfl, id⟩

/-- What keeps the brackets open inside a bracket keeps those around it, once that is left. -/
theorem Keeps.left {p p' : Parser} (h : p.entered.Keeps p') : p.Keeps p'.left where
  tokens := h.tokens
  nesting := by
    have hinside : p'.nesting = p.nesting + 1 := h.nesting
    show p'.nesting - 1 = p.nesting
    rw [hinside, Nat.add_sub_cancel]
  forward := h.forward
  before_end := h.before_end

end Parser

namespace Descent

variable {α β : Type}

/-- However the step ends, it keeps what a parser has to keep. -/
def Frames (x : Descent α) : Prop := ∀ p : Parser, p.Keeps (Step.final (x p))

theorem frames_pure (a : α) : Frames (pure a) := fun p ↦ .refl p

theorem frames_throw (e : SyntaxError) : Frames (throw e : Descent α) := fun p ↦ .refl p

/-- One step after another keeps what both keep, also when the first is at fault. -/
theorem Frames.bind {x : Descent α} {f : α → Descent β} (hx : Frames x)
    (hf : ∀ a, Frames (f a)) : Frames (x >>= f) := by
  intro p
  have hfirst := hx p
  rcases h : x p with ⟨a, p'⟩ | ⟨e, p'⟩
  · rw [h] at hfirst
    rw [Step.bind_of_ok h]
    exact hfirst.trans (hf a p')
  · rw [h] at hfirst
    rw [Step.bind_of_error h]
    exact hfirst

/-! ### Single steps -/

theorem frames_peek : Frames peek := fun p ↦ .refl p

theorem frames_advance : Frames advance := fun p ↦ p.keeps_next

/-- A mark that is demanded is taken or is an error, and no bracket is touched. -/
theorem frames_demand (d : Demand) : Frames (demand d) := by
  refine frames_peek.bind fun t ↦ ?_
  split
  · exact frames_advance
  · exact frames_throw _

/-- An operator counted, or one too many, is no bracket. -/
theorem frames_countOperator (line : Nat) : Frames (countOperator line) := by
  intro p
  show p.Keeps (Step.final ((if maxOperators < p.operators + 1
    then throw ⟨.tooManyOperators, line⟩ else pure () : Descent Unit)
      { p with operators := p.operators + 1 }))
  split
  · exact p.keeps_operators _
  · exact p.keeps_operators _

theorem frames_resetOperators : Frames resetOperators := fun p ↦ p.keeps_operators 0

theorem frames_unreached : Frames (unreached : Descent α) :=
  frames_peek.bind fun _ ↦ frames_throw _

/-- With no bracket left to open, nothing is entered. -/
theorem nested_of_full {p : Parser} (h : maxNesting ≤ p.nesting) (line : Nat)
    (inside : Descent α) : nested line inside p = .error ⟨.nestedTooDeep, line⟩ p := by
  refine Step.bind_of_error ?_
  show (if maxNesting ≤ p.nesting then throw ⟨.nestedTooDeep, line⟩ else modify Parser.entered :
    Descent Unit) p = _
  rw [if_pos h]
  rfl

/-- Where a bracket may be opened, it is left again after whatever its inside gives. -/
theorem nested_of_room {p : Parser} (h : ¬ maxNesting ≤ p.nesting) (line : Nat)
    (inside : Descent α) : nested line inside p =
      match inside p.entered with
      | .ok a p' => .ok a p'.left
      | .error e p' => .error e p'.left := by
  have henter : enter line p = .ok () p.entered := by
    show (if maxNesting ≤ p.nesting then throw ⟨.nestedTooDeep, line⟩ else modify Parser.entered :
      Descent Unit) p = _
    rw [if_neg h]
    rfl
  refine (Step.bind_of_ok henter).trans ?_
  show (Prod.fst <$> tryFinally' inside fun _ ↦ leave) p.entered = _
  rcases hin : inside p.entered with ⟨a, p'⟩ | ⟨e, p'⟩ <;>
    simp [Functor.map, EStateM.map, tryFinally', hin, leave, modify, modifyGet,
      MonadStateOf.modifyGet, EStateM.modifyGet]

/-- The only step that opens a bracket leaves it, whichever way its inside ends. -/
theorem frames_nested (line : Nat) {inside : Descent α} (hi : Frames inside) :
    Frames (nested line inside) := by
  intro p
  by_cases hfull : maxNesting ≤ p.nesting
  · rw [nested_of_full hfull]
    exact .refl p
  · have hinside := hi p.entered
    rw [nested_of_room hfull]
    rcases h : inside p.entered with ⟨a, p'⟩ | ⟨e, p'⟩ <;> rw [h] at hinside <;> exact hinside.left

/-! ### Expressions -/

/-- **Run lemma of the tiers.** However many operands follow, all brackets are closed behind
each. -/
theorem frames_chain {operand : Descent Node} (ho : Frames operand)
    (tier : Lexeme → Option BinaryOp) (bound : Nat) (l : Node) :
    Frames (chain tier operand bound l) := by
  induction bound generalizing l with
  | zero => exact frames_pure l
  | succ bound ih =>
    refine frames_peek.bind fun t ↦ ?_
    split
    · exact frames_pure l
    · refine frames_advance.bind fun u ↦ (frames_countOperator _).bind fun _ ↦ ?_
      exact ho.bind fun r ↦ ih _

theorem frames_joined {operand : Descent Node} (ho : Frames operand)
    (tier : Lexeme → Option BinaryOp) : Frames (joined tier operand) :=
  ho.bind fun l ↦ frames_chain ho tier (maxOperators + 1) l

section Expression

variable {inside : Descent Node} (hi : Frames inside)

include hi

/-- A parenthesis is left when it was entered, also by an error inside. -/
theorem frames_primary : Frames (primary inside) := by
  refine frames_advance.bind fun ⟨l, line⟩ ↦ ?_
  match l with
  | .number _ | .quoted _ | .name _ | .keyword .trueWord | .keyword .falseWord =>
    exact frames_pure _
  | .mark .openParen =>
    exact (frames_nested line hi).bind fun e ↦ (frames_demand _).bind fun _ ↦ frames_pure e
  | .endOfFile | .malformed _ | .keyword .ifWord | .keyword .elseWord | .keyword .whileWord
  | .keyword .printWord | .keyword .noneWord | .mark .plus | .mark .minus | .mark .star
  | .mark .slash | .mark .assign | .mark .equal | .mark .closeParen | .mark .openBrace
  | .mark .closeBrace | .mark .semicolon => exact frames_throw _

theorem frames_factor : Frames (factor inside) := by
  refine frames_peek.bind fun t ↦ ?_
  split
  · refine frames_advance.bind fun u ↦ (frames_primary hi).bind fun n ↦ ?_
    exact frames_pure _
  · exact frames_primary hi

theorem frames_product : Frames (product inside) := frames_joined (frames_factor hi) _

theorem frames_sum : Frames (sum inside) := frames_joined (frames_product hi) _

theorem frames_comparison : Frames (comparison inside) := frames_joined (frames_sum hi) _

end Expression

/-- Expressions keep the brackets, whatever the levels. -/
theorem frames_expression (bound : Nat) : Frames (expression bound) := by
  induction bound with
  | zero => exact frames_unreached
  | succ bound ih => exact frames_comparison ih

/-! ### Statements -/

/-- Blocks keep the brackets around them. -/
theorem frames_block {inside : Descent (List Node)} (hi : Frames inside) :
    Frames (block inside) := by
  refine (frames_demand _).bind fun o ↦ (frames_nested _ hi).bind fun ss ↦ ?_
  exact (frames_demand _).bind fun _ ↦ frames_pure _

section Statement

variable {expression block : Descent Node} (line : Nat) (he : Frames expression)
  (hb : Frames block)

include he

theorem frames_printing : Frames (printing line expression) :=
  he.bind fun _ ↦ (frames_demand _).bind fun _ ↦ frames_pure _

theorem frames_assignment (x : String) : Frames (assignment line expression x) :=
  (frames_demand _).bind fun _ ↦ he.bind fun _ ↦ (frames_demand _).bind fun _ ↦ frames_pure _

include hb

/-- A conditional keeps them, with one branch or two. -/
theorem frames_conditional : Frames (conditional line expression block) := by
  refine he.bind fun c ↦ hb.bind fun b ↦ frames_peek.bind fun u ↦ ?_
  split
  · exact frames_advance.bind fun _ ↦ hb.bind fun _ ↦ frames_pure _
  · exact frames_pure _

theorem frames_repetition : Frames (repetition line expression block) :=
  he.bind fun _ ↦ hb.bind fun _ ↦ frames_pure _

/-- Single statements keep the brackets if their parts do. -/
theorem frames_statementWith : Frames (statementWith expression block) := by
  refine frames_resetOperators.bind fun _ ↦ frames_peek.bind fun t ↦ ?_
  split
  · exact frames_advance.bind fun _ ↦ frames_conditional t.line he hb
  · exact frames_advance.bind fun _ ↦ frames_repetition t.line he hb
  · exact frames_advance.bind fun _ ↦ frames_printing t.line he
  · exact frames_advance.bind fun _ ↦ frames_assignment t.line he _
  · exact frames_throw _

end Statement

/-- Statements in a row keep them, by induction on the bound. -/
theorem frames_statementsUpTo {statement : Descent Node} (hs : Frames statement)
    (stop : Lexeme → Bool) (bound : Nat) : Frames (statementsUpTo stop statement bound) := by
  induction bound with
  | zero => exact frames_pure _
  | succ bound ih =>
    refine frames_peek.bind fun t ↦ ?_
    split
    · exact frames_pure _
    · exact hs.bind fun s ↦ ih.bind fun ss ↦ frames_pure _

theorem frames_statements {statement : Descent Node} (hs : Frames statement)
    (stop : Lexeme → Bool) : Frames (statements stop statement) :=
  fun p ↦ frames_statementsUpTo hs stop _ p

/-- Statements keep the brackets, whatever the levels. -/
theorem frames_statement (bound : Nat) : Frames (statement bound) := by
  induction bound with
  | zero => exact frames_unreached
  | succ bound ih =>
    exact frames_statementWith (frames_expression _) (frames_block (frames_statements ih _))

/-- A whole program leaves as many brackets open as it found. -/
theorem frames_program : Frames program :=
  frames_peek.bind fun _ ↦ (frames_statements (frames_statement _) _).bind fun _ ↦ frames_pure _

end Descent

/-! ### Every routine -/

namespace Parser

/-- The routines that the descent is made of. -/
inductive Routine where
  | program
  | statement
  | conditional (line : Nat)
  | repetition (line : Nat)
  | printing (line : Nat)
  | assignment (line : Nat) (x : String)
  | block
  | blockStatements
  | comparison
  | sum
  | product
  | factor
  | primary
deriving DecidableEq, Repr

/-- The routine at a place where fewer than `bound` brackets may still be opened, its value left
out. -/
def Routine.run (bound : Nat) : Routine → Descent Unit
  | .program => discard Descent.program
  | .statement => discard (Descent.statement bound)
  | .conditional line => discard (Descent.conditional line expression block)
  | .repetition line => discard (Descent.repetition line expression block)
  | .printing line => discard (Descent.printing line expression)
  | .assignment line x => discard (Descent.assignment line expression x)
  | .block => discard block
  | .blockStatements => discard inside
  | .comparison => discard (Descent.comparison expression)
  | .sum => discard (Descent.sum expression)
  | .product => discard (Descent.product expression)
  | .factor => discard (Descent.factor expression)
  | .primary => discard (Descent.primary expression)
where
  expression : Descent Node := Descent.expression bound
  inside : Descent (List Node) := Descent.statements Parse.endsBlock (Descent.statement bound)
  block : Descent Node := Descent.block inside

/-- **Every routine keeps its place.** However it ends, and from whatever state it starts: as many
brackets are open as before, and the position is further on, but not past the end of file. -/
theorem Routine.frames (routine : Routine) (bound : Nat) : Descent.Frames (routine.run bound) := by
  have discarded {α : Type} {x : Descent α} (hx : Descent.Frames x) :
      Descent.Frames (discard x) := by
    intro p
    have hkeeps := hx p
    show p.Keeps (Step.final (EStateM.map _ x p))
    rcases h : x p with ⟨a, p'⟩ | ⟨e, p'⟩ <;> rw [h] at hkeeps <;> rw [EStateM.map, h] <;>
      exact hkeeps
  have hexpression := Descent.frames_expression bound
  have hinside := Descent.frames_statements (Descent.frames_statement bound) Parse.endsBlock
  have hblock := Descent.frames_block hinside
  cases routine with
  | program => exact discarded Descent.frames_program
  | statement => exact discarded (Descent.frames_statement bound)
  | conditional line => exact discarded (Descent.frames_conditional line hexpression hblock)
  | repetition line => exact discarded (Descent.frames_repetition line hexpression hblock)
  | printing line => exact discarded (Descent.frames_printing line hexpression)
  | assignment line x => exact discarded (Descent.frames_assignment line hexpression x)
  | block => exact discarded hblock
  | blockStatements => exact discarded hinside
  | comparison => exact discarded (Descent.frames_comparison hexpression)
  | sum => exact discarded (Descent.frames_sum hexpression)
  | product => exact discarded (Descent.frames_product hexpression)
  | factor => exact discarded (Descent.frames_factor hexpression)
  | primary => exact discarded (Descent.frames_primary hexpression)

end Parser

end KannadaScript
