import KannadaScript.Proofs.Tree.Expression

/-!
# Reading is blind to lines

Lines are copied from tokens into trees and errors, and nothing is ever decided by them. So two
token lists with the same lexemes, whatever their lines, are read side by side: at every step both
readers stand before the same lexeme and have counted the same operators (`Reader.Alike`), and a
parser is blind (`Parse.Blind`) when from such readers it gives trees that differ in lines only, or
one and the same fault. Each combinator keeps its parts' blindness, and the parsers that recurse on
a number of levels are blind by induction on it.

Blindness is about two parsers and not about one. A parser of a statement is given the line of its
first token as an argument, so on the two sides it is not the same parser; what is compared is the
parser with the one line and the parser with the other. The same goes for what is read inside a
parenthesis, where the argument is the line at which a failure would be reported.

The relation between values is left open, since not every parser gives a tree: tokens with the same
lexeme, trees of the same shape, lists of such trees. Sequences are covered by `Step.Matches`, so
each proof here names the relation after every step and leaves the rest to it.

Main statement: `Node.ofTokens_alike`.
-/

namespace KannadaScript

open Grammar

/-- Readers that stand before the same lexemes, with the same count of operators. -/
structure Reader.Alike (r r' : Reader) : Prop where
  lexemes : r.pending.map Token.lexeme = r'.pending.map Token.lexeme
  operators : r.operators = r'.operators

theorem Reader.Alike.current {r r' : Reader} (h : r.Alike r') :
    r.current.lexeme = r'.current.lexeme := by
  rw [current_lexeme, current_lexeme, lookahead, lookahead, ← List.head?_map, ← List.head?_map,
    h.lexemes]

/-- Tokens with the same lexeme. -/
abbrev Token.SameLexeme (t t' : Token) : Prop := t.lexeme = t'.lexeme

/-- Trees that differ in lines only. -/
abbrev Node.SameShape (n n' : Node) : Prop := n.unlined = n'.unlined

/-- Lists of trees that differ in lines only. -/
abbrev Node.SameShapes (ns ns' : List Node) : Prop := Node.unlinedAll ns = Node.unlinedAll ns'

namespace Parse

/-- From readers that are alike, the two parsers give related values or the same fault. -/
abbrev Blind {α : Type} (V : α → α → Prop) (p p' : Parse α) : Prop :=
  Step.Matches V (fun e e' : SyntaxError ↦ e.fault = e'.fault) Reader.Alike p p'

/-! ### Single steps -/

theorem blind_peek : Blind Token.SameLexeme peek peek :=
  fun _ _ h ↦ .ok h.current h

/-- Both readers take a token with the same lexeme. -/
theorem blind_take : Blind Token.SameLexeme take take := by
  intro r r' h
  refine .ok h.current ⟨?_, h.operators⟩
  show r.pending.tail.map Token.lexeme = r'.pending.tail.map Token.lexeme
  rw [List.map_tail, List.map_tail, h.lexemes]

/-- Both demands are met or both fail with the same fault. -/
theorem blind_demand (d : Demand) : Blind Token.SameLexeme (demand d) (demand d) := by
  refine blind_peek.bind fun t t' ht ↦ ?_
  rw [ht]
  split
  · exact blind_take
  · exact Step.matches_throw rfl

/-- Both count the same, and both have too many at the same time. -/
theorem blind_countOperator (line line' : Nat) :
    Blind (fun _ _ ↦ True) (countOperator line) (countOperator line') := by
  intro r r' h
  have hcount : ({ r with operators := r.operators + 1 } : Reader).Alike
      { r' with operators := r'.operators + 1 } := ⟨h.lexemes, congrArg (· + 1) h.operators⟩
  show Step.Alike _ _ _
    ((if maxOperators < r.operators + 1 then throw ⟨.tooManyOperators, line⟩ else pure () :
      Parse Unit) { r with operators := r.operators + 1 })
    ((if maxOperators < r'.operators + 1 then throw ⟨.tooManyOperators, line'⟩ else pure () :
      Parse Unit) { r' with operators := r'.operators + 1 })
  rw [h.operators] at hcount ⊢
  split
  · exact .error rfl hcount
  · exact .ok trivial hcount

theorem blind_resetOperators : Blind (fun _ _ ↦ True) resetOperators resetOperators :=
  fun _ _ h ↦ .ok trivial ⟨h.lexemes, rfl⟩

theorem blind_refuseNesting {α : Type} (V : α → α → Prop) (line line' : Nat) :
    Blind V (refuseNesting line) (refuseNesting line') :=
  Step.matches_throw rfl

/-! ### Expressions -/

section Expression

variable {p p' : Parse Node} {inside inside' : Nat → Parse Node}

/-- Chains of blind operands are blind, by induction on the bound. -/
theorem blind_chain (hp : Blind Node.SameShape p p') (tier : Lexeme → Option BinaryOp)
    (bound : Nat) {l l' : Node} (hl : l.SameShape l') :
    Blind Node.SameShape (chain tier p bound l) (chain tier p' bound l') := by
  induction bound generalizing l l' with
  | zero => exact Step.matches_pure hl
  | succ bound ih =>
    refine blind_peek.bind fun t t' ht ↦ ?_
    rw [ht]
    split
    · exact Step.matches_pure hl
    · refine blind_take.bind fun o o' _ ↦ ?_
      refine (blind_countOperator _ _).bind fun _ _ _ ↦ ?_
      refine hp.bind fun n n' hn ↦ ih ?_
      show Node.binary 0 _ l.unlined n.unlined = Node.binary 0 _ l'.unlined n'.unlined
      rw [hl, hn]

theorem blind_joined (hp : Blind Node.SameShape p p') (tier : Lexeme → Option BinaryOp) :
    Blind Node.SameShape (joined tier p) (joined tier p') :=
  hp.bind fun _ _ hl ↦ blind_chain hp tier _ hl

/-- Primary phrases are blind if what stands in their parentheses is. -/
theorem blind_primary (hi : ∀ line line', Blind Node.SameShape (inside line) (inside' line')) :
    Blind Node.SameShape (primary inside) (primary inside') := by
  refine blind_take.bind fun ⟨l, line⟩ ⟨l', line'⟩ ht ↦ ?_
  obtain rfl : l = l' := ht
  have paren : Blind Node.SameShape (parenthesised (inside line)) (parenthesised (inside' line')) :=
    (hi line line').bind fun _ _ hn ↦ (blind_demand _).bind fun _ _ _ ↦ Step.matches_pure hn
  match l with
  | .number _ | .quoted _ | .name _ | .keyword .trueWord | .keyword .falseWord =>
    exact Step.matches_pure rfl
  | .mark .openParen => exact paren
  | .endOfFile | .malformed _ | .keyword .ifWord | .keyword .elseWord | .keyword .whileWord
  | .keyword .printWord | .keyword .noneWord | .mark .plus | .mark .minus | .mark .star
  | .mark .slash | .mark .assign | .mark .equal | .mark .closeParen | .mark .openBrace
  | .mark .closeBrace | .mark .semicolon => exact Step.matches_throw rfl

/-- Factors are blind if what stands in their parentheses is. -/
theorem blind_factor (hi : ∀ line line', Blind Node.SameShape (inside line) (inside' line')) :
    Blind Node.SameShape (factor inside) (factor inside') := by
  refine blind_peek.bind fun t t' ht ↦ ?_
  rw [ht]
  split
  · refine blind_take.bind fun _ _ _ ↦ (blind_primary hi).bind fun n n' hn ↦ ?_
    exact Step.matches_pure (congrArg (Node.negate 0) hn)
  · exact blind_primary hi

theorem blind_expressionWith
    (hi : ∀ line line', Blind Node.SameShape (inside line) (inside' line')) :
    Blind Node.SameShape (expressionWith inside) (expressionWith inside') :=
  blind_joined (blind_joined (blind_joined (blind_factor hi) _) _) _

/-- Expressions are blind, by induction on the levels. -/
theorem blind_expression (levels : Nat) :
    Blind Node.SameShape (expression levels) (expression levels) := by
  induction levels with
  | zero => exact blind_expressionWith (blind_refuseNesting _)
  | succ levels ih => exact blind_expressionWith fun _ _ ↦ ih

end Expression

/-! ### Statements -/

section Statement

variable {expression block : Parse Node}

/-- Blocks are blind if their inside is. -/
theorem blind_block {inside inside' : Nat → Parse (List Node)}
    (hi : ∀ line line', Blind Node.SameShapes (inside line) (inside' line')) :
    Blind Node.SameShape (Parse.block inside) (Parse.block inside') := by
  refine (blind_demand _).bind fun _ _ _ ↦ (hi _ _).bind fun ss ss' hss ↦ ?_
  exact (blind_demand _).bind fun _ _ _ ↦ Step.matches_pure (congrArg (Node.block 0) hss)

/-- Statements are blind if their expressions and blocks are. -/
theorem blind_statementWith (he : Blind Node.SameShape expression expression)
    (hb : Blind Node.SameShape block block) :
    Blind Node.SameShape (statementWith expression block) (statementWith expression block) := by
  refine blind_resetOperators.bind fun _ _ _ ↦ ?_
  refine blind_peek.bind fun ⟨l, line⟩ ⟨l', line'⟩ ht ↦ ?_
  obtain rfl : l = l' := ht
  match l with
  | .keyword .ifWord =>
    refine blind_take.bind fun _ _ _ ↦ he.bind fun c c' hc ↦ hb.bind fun b b' hb' ↦ ?_
    refine blind_peek.bind fun t t' ht ↦ ?_
    rw [ht]
    split
    · refine blind_take.bind fun _ _ _ ↦ hb.bind fun e e' he' ↦ Step.matches_pure ?_
      show Node.ifElse 0 c.unlined b.unlined e.unlined = .ifElse 0 c'.unlined b'.unlined e'.unlined
      rw [hc, hb', he']
    · refine Step.matches_pure ?_
      show Node.ifThen 0 c.unlined b.unlined = .ifThen 0 c'.unlined b'.unlined
      rw [hc, hb']
  | .keyword .whileWord =>
    refine blind_take.bind fun _ _ _ ↦ he.bind fun c c' hc ↦ hb.bind fun b b' hb' ↦ ?_
    refine Step.matches_pure ?_
    show Node.loop 0 c.unlined b.unlined = .loop 0 c'.unlined b'.unlined
    rw [hc, hb']
  | .keyword .printWord =>
    refine blind_take.bind fun _ _ _ ↦ he.bind fun v v' hv ↦ (blind_demand _).bind fun _ _ _ ↦ ?_
    exact Step.matches_pure (congrArg (Node.print 0) hv)
  | .name x =>
    refine blind_take.bind fun _ _ _ ↦ (blind_demand _).bind fun _ _ _ ↦ ?_
    refine he.bind fun v v' hv ↦ (blind_demand _).bind fun _ _ _ ↦ ?_
    exact Step.matches_pure (congrArg (Node.assign 0 x) hv)
  | .endOfFile | .malformed _ | .number _ | .quoted _ | .mark _ | .keyword .elseWord
  | .keyword .trueWord | .keyword .falseWord | .keyword .noneWord => exact Step.matches_throw rfl

end Statement

section Statements

variable {statement : Parse Node} (hs : Blind Node.SameShape statement statement)
  (stop : Lexeme → Bool)

include hs in
/-- Statements in a row are blind, by induction on the bound. -/
theorem blind_statementsUpTo (bound : Nat) :
    Blind Node.SameShapes (statementsUpTo stop statement bound)
      (statementsUpTo stop statement bound) := by
  induction bound with
  | zero => exact Step.matches_pure rfl
  | succ bound ih =>
    refine blind_peek.bind fun t t' ht ↦ ?_
    rw [ht]
    split
    · exact Step.matches_pure rfl
    · refine hs.bind fun s s' hss ↦ ih.bind fun ss ss' hsss ↦ Step.matches_pure ?_
      show s.unlined :: Node.unlinedAll ss = s'.unlined :: Node.unlinedAll ss'
      rw [hss, hsss]

include hs in
/-- The bound of a list is the number of pending tokens, and that is the same on both sides. -/
theorem blind_statements :
    Blind Node.SameShapes (statements stop statement) (statements stop statement) := by
  intro r r' h
  have hlength : r.pending.length = r'.pending.length := by
    rw [← List.length_map Token.lexeme, h.lexemes, List.length_map]
  show Step.Alike _ _ _ (statementsUpTo stop statement r.pending.length r)
    (statementsUpTo stop statement r'.pending.length r')
  rw [hlength]
  exact blind_statementsUpTo hs stop _ r r' h

end Statements

/-- Statements are blind, by induction on the levels. -/
theorem blind_statement (levels : Nat) :
    Blind Node.SameShape (statement levels) (statement levels) := by
  induction levels with
  | zero => exact blind_statementWith (blind_expression 0) (blind_block (blind_refuseNesting _))
  | succ levels ih =>
    exact blind_statementWith (blind_expression _) (blind_block fun _ _ ↦ blind_statements ih _)

theorem blind_program : Blind Node.SameShape program program := by
  refine blind_peek.bind fun _ _ _ ↦ (blind_statements (blind_statement _) _).bind fun _ _ h ↦ ?_
  exact Step.matches_pure (congrArg (Node.program 0) h)

end Parse

/-! ### Token lists -/

/-- Readers of tokens with the same lexemes start alike. -/
theorem Reader.alike_ofTokens {tokens tokens' : List Token}
    (h : tokens.map Token.lexeme = tokens'.map Token.lexeme) :
    (ofTokens tokens).Alike (ofTokens tokens') := by
  have hpending (ts : List Token) : (ofTokens ts).pending.map Token.lexeme =
      (ts.map Token.lexeme).takeWhile (· != .endOfFile) := by
    rw [List.takeWhile_map]
    rfl
  exact ⟨by rw [hpending, hpending, h], rfl⟩

/-- **Blind to lines.** Token lists with the same lexemes give trees that differ in lines only, or
the same fault. -/
theorem Node.ofTokens_alike {tokens tokens' : List Token}
    (h : tokens.map Token.lexeme = tokens'.map Token.lexeme) :
    (∃ p p', ofTokens tokens = .ok p ∧ ofTokens tokens' = .ok p' ∧ p.unlined = p'.unlined) ∨
      ∃ e e', ofTokens tokens = .error e ∧ ofTokens tokens' = .error e' ∧ e.fault = e'.fault := by
  have hrun := Parse.blind_program _ _ (Reader.alike_ofTokens h)
  rw [ofTokens, ofTokens]
  generalize Parse.program (Reader.ofTokens tokens) = result at hrun
  generalize Parse.program (Reader.ofTokens tokens') = result' at hrun
  cases hrun with
  | ok value state => exact .inl ⟨_, _, rfl, rfl, value⟩
  | error error state => exact .inr ⟨_, _, rfl, rfl, error⟩

end KannadaScript
