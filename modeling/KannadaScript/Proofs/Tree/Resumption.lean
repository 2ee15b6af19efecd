import KannadaScript.Proofs.Tree.Descent
import KannadaScript.Proofs.Tree.Misfit

/-!
# Reading on after a call

One parser may be asked for a program again and again, also after an error. This module follows such
calls. What is left of a parser's tokens is a reader (`Parser.reader`), and a step of the machine
does to the parser what the parser of the same phrase does to its reader (`Descent.Reenacts`): the
brackets that the machine has open and the levels that the reader's parser has left always make up
`maxNesting`. So the answer of a call is the answer that the reader gives, and that depends on the
tokens from the position on and on nothing that was counted before.

That nothing else is carried over has three parts. The brackets that were open are all closed, also
by a call that failed, which is what frames are about. The operators that were counted are still in
the state, but every statement starts to count anew (`statement_operators`). And the position is
never beyond the end of file, so there is always a token to read (`valid_after`).

Only the answers of two runs are compared there, and not the states that they leave: with no
statement to read, an old count stays where it is.

A call that succeeds has come to the end of file, and all later calls give the empty program. After
an error the next call starts at the token where the last one stopped, in the middle of a statement
perhaps. What it gives is what a reader of the remaining tokens gives, and no more is to be expected
of it.

Main statement: `calls_carry_only_position`.
-/

namespace KannadaScript

open Grammar

/-! ### Readers of remaining tokens -/

/-- At the end of file there is nothing left to read. -/
theorem Reader.ofTokens_of_end {t : Token} (ht : t.lexeme = .endOfFile) (ts : List Token) :
    ofTokens (t :: ts) = ⟨[], t.line, 0⟩ := by
  simp [ofTokens, ht]

/-- The end of file that is added to a list is the one that its reader shows anyway. -/
theorem Reader.ofTokens_ended (tokens : List Token) :
    ofTokens (ended tokens) = ofTokens tokens := by
  have hpending : ∀ t ∈ beforeEnd tokens, (t.lexeme != .endOfFile) = true := by
    intro t ht
    exact List.mem_takeWhile_imp (p := fun u : Token ↦ u.lexeme != .endOfFile) ht
  have hnone : (beforeEnd tokens).find? (·.lexeme == .endOfFile) = none :=
    List.find?_eq_none.2 fun t ht ↦ by simpa using hpending t ht
  obtain ⟨others, hended⟩ := exists_ended_eq tokens
  rw [hended, ofTokens, List.takeWhile_append_of_pos hpending, List.find?_append, hnone]
  simp [ofTokens, beforeEnd]

/-- Before it the next token is pending, and then those behind it. -/
theorem Reader.ofTokens_cons {t : Token} {ts : List Token} (ht : t.lexeme ≠ .endOfFile)
    (hend : ∃ u ∈ ts, u.lexeme = .endOfFile) :
    ofTokens (t :: ts) = ⟨t :: (ofTokens ts).pending, (ofTokens ts).endLine, 0⟩ := by
  obtain ⟨u, hu⟩ : ∃ u, ts.find? (·.lexeme == .endOfFile) = some u := by
    rw [← Option.isSome_iff_exists, List.find?_isSome]
    simpa using hend
  simp [ofTokens, ht, hu]

namespace Parser

/-- A parser that stands before an end of file, or at one. -/
structure Valid (p : Parser) : Prop where
  before_end : p.position ≤ p.endIndex
  ends : p.endIndex < p.tokens.length

/-- A step of the machine keeps a parser valid. -/
theorem Keeps.valid {p p' : Parser} (h : p.Keeps p') (hp : p.Valid) : p'.Valid where
  before_end := by
    rw [endIndex_congr h.tokens]
    exact h.before_end hp.before_end
  ends := by
    rw [endIndex_congr h.tokens, h.tokens]
    exact hp.ends

theorem valid_ofTokens (tokens : List Token) : (ofTokens tokens).Valid where
  before_end := Nat.zero_le _
  ends := by
    obtain ⟨others, hended⟩ := exists_ended_eq tokens
    refine List.findIdx_lt_length.2 ⟨⟨.endOfFile, (Reader.ofTokens tokens).endLine⟩, ?_, rfl⟩
    rw [ofTokens, hended]
    simp

/-- The reader of what is left. -/
def reader (p : Parser) : Reader := { Reader.ofTokens p.remaining with operators := p.operators }

section Valid

variable {p : Parser} (hp : p.Valid)

include hp

/-- A valid parser stands before a token. -/
theorem Valid.remaining_eq : p.remaining = p.current :: p.tokens.drop (p.position + 1) := by
  have hlt : p.position < p.tokens.length := hp.before_end.trans_lt hp.ends
  rw [remaining, current, List.getD_eq_getElem _ _ hlt, List.drop_eq_getElem_cons hlt]

theorem Valid.exists_end : ∃ u ∈ p.remaining, u.lexeme = .endOfFile := by
  have hlt := hp.ends
  have hle := hp.before_end
  have hend : (p.tokens.get ⟨p.endIndex, hlt⟩).lexeme = .endOfFile :=
    beq_iff_eq.1 (List.findIdx_getElem (w := hlt))
  refine ⟨_, List.mem_drop_iff_getElem.2 ⟨p.endIndex - p.position, by omega, ?_⟩, hend⟩
  simp only [Nat.add_sub_cancel' hle, List.get_eq_getElem]

/-- The reader stands at the parser's token. -/
theorem Valid.reader_current : p.reader.current = p.current := by
  rw [reader, hp.remaining_eq]
  by_cases hend : p.current.lexeme = .endOfFile
  · rw [Reader.ofTokens_of_end hend, Reader.current, ← hend]
    rfl
  · simp [Reader.ofTokens, Reader.current, hend]

/-- The reader of the parser after its token is the reader after its token. -/
theorem Valid.reader_next : p.next.reader = p.reader.rest := by
  by_cases hend : p.current.lexeme = .endOfFile
  · rw [next, if_pos hend, reader, hp.remaining_eq, Reader.ofTokens_of_end hend]
    rfl
  · have hnext : p.next.remaining = p.tokens.drop (p.position + 1) := by
      rw [next, if_neg hend]
      rfl
    have hlater := (p.keeps_next.valid hp).exists_end
    have hoperators : p.next.operators = p.operators := by
      rw [next, if_neg hend]
    rw [hnext] at hlater
    rw [reader, reader, hp.remaining_eq, hnext, hoperators, Reader.ofTokens_cons hend hlater]
    rfl

end Valid

end Parser

/-! ### Steps side by side -/

namespace Descent

variable {α β : Type} {n : Nat}

/-- The result of a step, with the reader of the parser that it ends in. -/
def viewed : EStateM.Result SyntaxError Parser α → EStateM.Result SyntaxError Reader α
  | .ok a p => .ok a p.reader
  | .error e p => .error e p.reader

/-- Where `n` brackets are open, `x` does to a parser what `y` does to its reader. -/
structure Reenacts (n : Nat) (x : Descent α) (y : Parse α) : Prop where
  frames : Frames x
  /-- The reader of the parser after `x` is the reader after `y`, and the results are the same. -/
  viewed_eq : ∀ p : Parser, p.Valid → p.nesting = n → y p.reader = viewed (x p)

theorem reenacts_pure (a : α) : Reenacts n (pure a) (pure a) := ⟨frames_pure a, fun _ _ _ ↦ rfl⟩

theorem reenacts_throw (e : SyntaxError) : Reenacts n (throw e : Descent α) (throw e) :=
  ⟨frames_throw e, fun _ _ _ ↦ rfl⟩

/-- Two sequences go side by side if their first steps do, and after each value their second
steps. -/
theorem Reenacts.bind {x : Descent α} {y : Parse α} {f : α → Descent β} {g : α → Parse β}
    (h : Reenacts n x y) (hf : ∀ a, Reenacts n (f a) (g a)) : Reenacts n (x >>= f) (y >>= g) := by
  refine ⟨h.frames.bind fun a ↦ (hf a).frames, fun p hp hn ↦ ?_⟩
  have hkeeps := h.frames p
  have hfirst := h.viewed_eq p hp hn
  rcases hxp : x p with ⟨a, p'⟩ | ⟨e, p'⟩
  · rw [hxp] at hkeeps hfirst
    rw [Step.bind_of_ok hxp, Step.bind_of_ok hfirst]
    exact (hf a).viewed_eq p' (hkeeps.valid hp) (hkeeps.nesting.trans hn)
  · rw [hxp] at hfirst
    rw [Step.bind_of_error hxp, Step.bind_of_error hfirst]
    rfl

/-! ### Single steps -/

theorem reenacts_peek : Reenacts n peek Parse.peek := by
  refine ⟨frames_peek, fun p hp _ ↦ ?_⟩
  show EStateM.Result.ok p.reader.current p.reader = .ok p.current p.reader
  rw [hp.reader_current]

/-- To advance is to take a token. -/
theorem reenacts_advance : Reenacts n advance Parse.take := by
  refine ⟨frames_advance, fun p hp _ ↦ ?_⟩
  show EStateM.Result.ok p.reader.current p.reader.rest = .ok p.current p.next.reader
  rw [hp.reader_current, hp.reader_next]

/-- A demand is met by the machine exactly when it is met by the reader. -/
theorem reenacts_demand (d : Demand) : Reenacts n (demand d) (Parse.demand d) := by
  refine reenacts_peek.bind fun t ↦ ?_
  split
  · exact reenacts_advance
  · exact reenacts_throw _

/-- Operators are counted alike on both sides. -/
theorem reenacts_countOperator (line : Nat) :
    Reenacts n (countOperator line) (Parse.countOperator line) := by
  refine ⟨frames_countOperator line, fun p _ _ ↦ ?_⟩
  show (if maxOperators < p.operators + 1 then throw ⟨.tooManyOperators, line⟩ else pure () :
      Parse Unit) { p.reader with operators := p.operators + 1 } =
    viewed ((if maxOperators < p.operators + 1 then throw ⟨.tooManyOperators, line⟩ else pure () :
      Descent Unit) { p with operators := p.operators + 1 })
  split
  · rfl
  · rfl

theorem reenacts_resetOperators : Reenacts n resetOperators Parse.resetOperators :=
  ⟨frames_resetOperators, fun _ _ _ ↦ rfl⟩

/-- A bracket too many is refused on either side. -/
theorem reenacts_nested_full (hn : n = maxNesting) (line : Nat) {inside : Descent α}
    (h : Frames inside) : Reenacts n (nested line inside) (Parse.refuseNesting line) := by
  refine ⟨frames_nested line h, fun p _ hp ↦ ?_⟩
  rw [nested_of_full (hp.trans hn).ge]
  rfl

/-- Inside a bracket the machine has one more open, and the reader does not notice. -/
theorem reenacts_nested_room (hn : n < maxNesting) (line : Nat) {inside : Descent α}
    {y : Parse α} (h : Reenacts (n + 1) inside y) : Reenacts n (nested line inside) y := by
  refine ⟨frames_nested line h.frames, fun p hvalid hp ↦ ?_⟩
  have hinside := h.viewed_eq p.entered ⟨hvalid.before_end, hvalid.ends⟩ (congrArg (· + 1) hp)
  have hsame : p.entered.reader = p.reader := rfl
  rw [hsame] at hinside
  rw [nested_of_room (by omega), hinside]
  rcases inside p.entered with ⟨a, p'⟩ | ⟨e, p'⟩ <;> rfl

/-! ### Expressions -/

section Expression

variable {operand inside : Descent Node} {operand' : Parse Node} {inside' : Nat → Parse Node}

/-- Chains reenact if their operands do, by induction on the bound. -/
theorem reenacts_chain (ho : Reenacts n operand operand') (tier : Lexeme → Option BinaryOp)
    (bound : Nat) (l : Node) :
    Reenacts n (chain tier operand bound l) (Parse.chain tier operand' bound l) := by
  induction bound generalizing l with
  | zero => exact reenacts_pure l
  | succ bound ih =>
    refine reenacts_peek.bind fun t ↦ ?_
    rcases tier t.lexeme with _ | op
    · exact reenacts_pure l
    · refine reenacts_advance.bind fun u ↦ (reenacts_countOperator _).bind fun _ ↦ ?_
      exact ho.bind fun r ↦ ih _

theorem reenacts_joined (ho : Reenacts n operand operand') (tier : Lexeme → Option BinaryOp) :
    Reenacts n (joined tier operand) (Parse.joined tier operand') :=
  ho.bind fun l ↦ reenacts_chain ho tier (maxOperators + 1) l

variable (hi : ∀ line, Reenacts n (nested line inside) (inside' line))

include hi

/-- Primary phrases reenact if the insides of parentheses do. -/
theorem reenacts_primary : Reenacts n (primary inside) (Parse.primary inside') := by
  refine reenacts_advance.bind fun ⟨l, line⟩ ↦ ?_
  match l with
  | .number _ | .quoted _ | .name _ | .keyword .trueWord | .keyword .falseWord =>
    exact reenacts_pure _
  | .mark .openParen =>
    exact (hi line).bind fun e ↦ (reenacts_demand _).bind fun _ ↦ reenacts_pure e
  | .endOfFile | .malformed _ | .keyword .ifWord | .keyword .elseWord | .keyword .whileWord
  | .keyword .printWord | .keyword .noneWord | .mark .plus | .mark .minus | .mark .star
  | .mark .slash | .mark .assign | .mark .equal | .mark .closeParen | .mark .openBrace
  | .mark .closeBrace | .mark .semicolon => exact reenacts_throw _

theorem reenacts_factor : Reenacts n (factor inside) (Parse.factor inside') := by
  refine reenacts_peek.bind fun t ↦ ?_
  split
  · exact reenacts_advance.bind fun u ↦ (reenacts_primary hi).bind fun m ↦ reenacts_pure _
  · exact reenacts_primary hi

theorem reenacts_comparison : Reenacts n (comparison inside) (Parse.expressionWith inside') :=
  reenacts_joined (reenacts_joined (reenacts_joined (reenacts_factor hi) _) _) _

end Expression

/-- The brackets open and the levels left make up the limit, so both sides refuse at once. -/
theorem reenacts_expression (levels : Nat) (hn : n + levels = maxNesting) :
    Reenacts n (expression (levels + 1)) (Parse.expression levels) := by
  induction levels generalizing n with
  | zero => exact reenacts_comparison fun line ↦ reenacts_nested_full hn line (frames_expression 0)
  | succ levels ih =>
    refine reenacts_comparison fun line ↦ ?_
    exact reenacts_nested_room (by omega) line (ih (by omega))

/-! ### Statements -/

/-- Blocks reenact if their insides do. -/
theorem reenacts_block {inside : Descent (List Node)} {inside' : Nat → Parse (List Node)}
    (hi : ∀ line, Reenacts n (nested line inside) (inside' line)) :
    Reenacts n (block inside) (Parse.block inside') := by
  refine (reenacts_demand _).bind fun o ↦ (hi o.line).bind fun ss ↦ ?_
  exact (reenacts_demand _).bind fun _ ↦ reenacts_pure _

section Statement

variable {expression block : Descent Node} {expression' block' : Parse Node} (line : Nat)
  (he : Reenacts n expression expression') (hb : Reenacts n block block')

include he

theorem reenacts_printing :
    Reenacts n (printing line expression) (Parse.printing line expression') :=
  he.bind fun _ ↦ (reenacts_demand _).bind fun _ ↦ reenacts_pure _

theorem reenacts_assignment (x : String) :
    Reenacts n (assignment line expression x) (Parse.assignment line expression' x) := by
  refine (reenacts_demand _).bind fun _ ↦ he.bind fun v ↦ ?_
  exact (reenacts_demand _).bind fun _ ↦ reenacts_pure _

include hb

/-- A conditional reenacts, with one branch or two. -/
theorem reenacts_conditional :
    Reenacts n (conditional line expression block)
      (Parse.conditional line expression' block') := by
  refine he.bind fun c ↦ hb.bind fun b ↦ reenacts_peek.bind fun t ↦ ?_
  split
  · exact reenacts_advance.bind fun _ ↦ hb.bind fun b' ↦ reenacts_pure _
  · exact reenacts_pure _

theorem reenacts_repetition :
    Reenacts n (repetition line expression block) (Parse.repetition line expression' block') :=
  he.bind fun _ ↦ hb.bind fun _ ↦ reenacts_pure _

/-- Single statements reenact if their parts do. -/
theorem reenacts_statementWith :
    Reenacts n (statementWith expression block) (Parse.statementWith expression' block') := by
  refine reenacts_resetOperators.bind fun _ ↦ reenacts_peek.bind fun ⟨l, line⟩ ↦ ?_
  match l with
  | .keyword .ifWord => exact reenacts_advance.bind fun _ ↦ reenacts_conditional line he hb
  | .keyword .whileWord => exact reenacts_advance.bind fun _ ↦ reenacts_repetition line he hb
  | .keyword .printWord => exact reenacts_advance.bind fun _ ↦ reenacts_printing line he
  | .name x => exact reenacts_advance.bind fun _ ↦ reenacts_assignment line he x
  | .endOfFile | .malformed _ | .number _ | .quoted _ | .mark _ | .keyword .elseWord
  | .keyword .trueWord | .keyword .falseWord | .keyword .noneWord => exact reenacts_throw _

end Statement

section Statements

variable {statement : Descent Node} {statement' : Parse Node}
  (hs : Reenacts n statement statement') (stop : Lexeme → Bool)

include hs

/-- Statements in a row reenact, by induction on the bound. -/
theorem reenacts_statementsUpTo (bound : Nat) :
    Reenacts n (statementsUpTo stop statement bound)
      (Parse.statementsUpTo stop statement' bound) := by
  induction bound with
  | zero => exact reenacts_pure _
  | succ bound ih =>
    refine reenacts_peek.bind fun t ↦ ?_
    split
    · exact reenacts_pure _
    · exact hs.bind fun s ↦ ih.bind fun ss ↦ reenacts_pure _

theorem reenacts_statements :
    Reenacts n (statements stop statement) (Parse.statements stop statement') := by
  refine ⟨frames_statements hs.frames stop, fun p hp hn ↦ ?_⟩
  exact (reenacts_statementsUpTo hs stop (beforeEnd p.remaining).length).viewed_eq p hp hn

end Statements

/-- **Run lemma.** Statements reenact at every level, as long as the open brackets and the levels
left make up the limit. -/
theorem reenacts_statement (levels : Nat) (hn : n + levels = maxNesting) :
    Reenacts n (statement (levels + 1)) (Parse.statement levels) := by
  induction levels generalizing n with
  | zero =>
    have hframes := frames_statements (frames_statement 0) Parse.endsBlock
    exact reenacts_statementWith (reenacts_expression 0 hn)
      (reenacts_block fun line ↦ reenacts_nested_full hn line hframes)
  | succ levels ih =>
    refine reenacts_statementWith (reenacts_expression _ hn) (reenacts_block fun line ↦ ?_)
    exact reenacts_nested_room (by omega) line (reenacts_statements (ih (by omega)) _)

/-- With no bracket open, the machine reads a program as its reader does. -/
theorem reenacts_program : Reenacts 0 program Parse.program := by
  refine reenacts_peek.bind fun t ↦ ?_
  exact (reenacts_statements (reenacts_statement maxNesting rfl) _).bind fun ss ↦ reenacts_pure _

end Descent

/-! ### Calls -/

theorem Descent.answer_viewed {α : Type} (r : EStateM.Result SyntaxError Parser α) :
    Step.answer (viewed r) = Step.answer r := by
  cases r <;> rfl

theorem Descent.final_viewed {α : Type} (r : EStateM.Result SyntaxError Parser α) :
    Step.final (viewed r) = (Step.final r).reader := by
  cases r <;> rfl

namespace Parse

/-- A last step that only makes a value out of the answer changes nothing else. -/
theorem answer_bind_pure {α β : Type} (x : Parse α) (f : α → β) (r : Reader) :
    Step.answer ((x >>= fun a ↦ pure (f a)) r) = (Step.answer (x r)).map f := by
  rcases hx : x r with ⟨a, r'⟩ | ⟨e, r'⟩
  · rw [Step.bind_of_ok hx]
    rfl
  · rw [Step.bind_of_error hx]
    rfl

/-- A statement is read alike whatever was counted before it. -/
theorem statement_operators (levels k : Nat) (r : Reader) :
    statement levels { r with operators := k } = statement levels r := by
  cases levels <;> rfl

/-- Operators that were counted before a list of statements do not count in it, as each statement
starts anew. -/
theorem answer_statementsUpTo_operators (stop : Lexeme → Bool) (levels bound k : Nat) (r : Reader) :
    Step.answer (statementsUpTo stop (statement levels) bound { r with operators := k }) =
      Step.answer (statementsUpTo stop (statement levels) bound r) := by
  cases bound with
  | zero => rfl
  | succ bound =>
    obtain ⟨pending, line, k'⟩ := r
    cases hstop : stop (lookahead pending) with
    | true =>
      rw [statementsUpTo_of_stop hstop, statementsUpTo_of_stop hstop]
      rfl
    | false =>
      rw [statementsUpTo_of_not_stop hstop, statementsUpTo_of_not_stop hstop]
      have hsame := statement_operators levels k ⟨pending, line, k'⟩
      rcases hfirst : statement levels ⟨pending, line, k'⟩ with ⟨s, r'⟩ | ⟨e, r'⟩
      · rw [Step.bind_of_ok hfirst, Step.bind_of_ok (hsame.trans hfirst)]
      · rw [Step.bind_of_error hfirst, Step.bind_of_error (hsame.trans hfirst)]

/-- A program is read alike whatever was counted before it. -/
theorem answer_program_operators (k : Nat) (r : Reader) :
    Step.answer (program { r with operators := k }) = Step.answer (program r) := by
  rw [program_apply, program_apply, answer_bind_pure, answer_bind_pure]
  exact congrArg _ (answer_statementsUpTo_operators isEnd maxNesting _ k r)

end Parse

theorem Node.ofTokens_eq (tokens : List Token) :
    ofTokens tokens = Step.answer (Parse.program (Reader.ofTokens tokens)) := by
  rw [ofTokens]
  rcases Parse.program (Reader.ofTokens tokens) with ⟨n, r⟩ | ⟨e, r⟩ <;> rfl

namespace Parser

/-- The answer to a call is the tree of what is left, or the error in it. -/
theorem answer_reader (p : Parser) :
    Step.answer (Parse.program p.reader) = Node.ofTokens p.remaining := by
  rw [Node.ofTokens_eq]
  exact Parse.answer_program_operators p.operators (Reader.ofTokens p.remaining)

/-- The parser after a number of calls on a token list. -/
def after (tokens : List Token) : (calls : Nat) → Parser
  | 0 => ofTokens tokens
  | calls + 1 => Step.final (Descent.program (after tokens calls))

/-- The answer to the call that follows. -/
def answerAfter (tokens : List Token) (calls : Nat) : Except SyntaxError Node :=
  Step.answer (Descent.program (after tokens calls))

/-- **Step lemma.** A call keeps what every routine keeps. -/
theorem keeps_after_succ (tokens : List Token) (calls : Nat) :
    (after tokens calls).Keeps (after tokens (calls + 1)) :=
  Descent.frames_program _

/-- **Run lemma.** So do all calls together. -/
theorem keeps_after (tokens : List Token) (calls : Nat) :
    (ofTokens tokens).Keeps (after tokens calls) := by
  induction calls with
  | zero => exact Keeps.refl _
  | succ calls ih => exact ih.trans (keeps_after_succ tokens calls)

/-- Calls leave a parser valid, however many there are. -/
theorem valid_after (tokens : List Token) (calls : Nat) : (after tokens calls).Valid :=
  (keeps_after tokens calls).valid (valid_ofTokens tokens)

/-- The reader of a parser does in a call what the parser does. -/
theorem program_reader (tokens : List Token) (calls : Nat) :
    Parse.program (after tokens calls).reader =
      Descent.viewed (Descent.program (after tokens calls)) :=
  Descent.reenacts_program.viewed_eq _ (valid_after tokens calls) (keeps_after tokens calls).nesting

end Parser

namespace Reader

/-- The reader after a number of calls on a token list. -/
def after (tokens : List Token) : (calls : Nat) → Reader
  | 0 => ofTokens tokens
  | calls + 1 => Step.final (Parse.program (after tokens calls))

/-- The answer to the call that follows. -/
def answerAfter (tokens : List Token) (calls : Nat) : Except SyntaxError Node :=
  Step.answer (Parse.program (after tokens calls))

/-- **Run lemma.** Calls on a reader and on a parser go side by side. -/
theorem after_eq_reader (tokens : List Token) (calls : Nat) :
    after tokens calls = (Parser.after tokens calls).reader := by
  induction calls with
  | zero => exact (ofTokens_ended tokens).symm
  | succ calls ih =>
    rw [after, ih, Parser.program_reader, Descent.final_viewed]
    rfl

end Reader

/-- What holds before a call, however many calls there were and however they ended. -/
structure CarriesPosition (tokens : List Token) (calls : Nat) : Prop where
  /-- The tokens are still those of the start. -/
  tokens_eq : (Parser.after tokens calls).tokens = ended tokens
  /-- No bracket is open. -/
  nesting_eq : (Parser.after tokens calls).nesting = 0
  /-- The call does not go back, -/
  forward : (Parser.after tokens calls).position ≤ (Parser.after tokens (calls + 1)).position
  /-- the position is not behind the first end of file, -/
  before_end :
    (Parser.after tokens calls).position ≤ (ended tokens).findIdx (·.lexeme == .endOfFile)
  /-- and there is a token at it. -/
  within : (Parser.after tokens calls).position < (ended tokens).length
  /-- The call gives what the tokens from the position on give when they are read for themselves. -/
  answer_eq : Parser.answerAfter tokens calls =
    Node.ofTokens ((ended tokens).drop (Parser.after tokens calls).position)
  /-- A reader asked as often holds what is left of the tokens, and gives the same. -/
  reader_eq : Reader.after tokens calls = (Parser.after tokens calls).reader ∧
    Reader.answerAfter tokens calls = Parser.answerAfter tokens calls

theorem carriesPosition (tokens : List Token) (calls : Nat) : CarriesPosition tokens calls := by
  have hkeeps := Parser.keeps_after tokens calls
  have hvalid := Parser.valid_after tokens calls
  have htokens : (Parser.after tokens calls).tokens = ended tokens := hkeeps.tokens
  have hremaining : (Parser.after tokens calls).remaining =
      (ended tokens).drop (Parser.after tokens calls).position := by
    rw [Parser.remaining, htokens]
  have hanswer : Parser.answerAfter tokens calls =
      Step.answer (Parse.program (Parser.after tokens calls).reader) := by
    rw [Parser.program_reader, Descent.answer_viewed]
    rfl
  refine ⟨htokens, hkeeps.nesting, (Parser.keeps_after_succ tokens calls).forward,
    hkeeps.before_end (Nat.zero_le _), ?_, ?_, Reader.after_eq_reader tokens calls, ?_⟩
  · rw [← htokens]
    exact hvalid.before_end.trans_lt hvalid.ends
  · rw [hanswer, Parser.answer_reader, hremaining]
  · rw [hanswer, Reader.answerAfter, Reader.after_eq_reader]

/-- **Nothing but the position.** Every routine leaves as many brackets open as it found, from any
state and whether it succeeds or fails, and goes neither back nor past the first end of file. So no
bracket is open between calls, and each call on one parser gives what a fresh parser gives on the
tokens from the position on. -/
theorem calls_carry_only_position :
    (∀ (routine : Parser.Routine) (bound : Nat) (p : Parser),
      p.Keeps (Step.final (routine.run bound p))) ∧
    ∀ (tokens : List Token) (calls : Nat), CarriesPosition tokens calls :=
  ⟨fun routine bound ↦ routine.frames bound, carriesPosition⟩

end KannadaScript
