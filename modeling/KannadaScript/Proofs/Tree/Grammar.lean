import KannadaScript.Proofs.Tree.Shape
import KannadaScript.Tree.Reader

/-!
# The grammar

What a list of tokens has to look like to be a program, and which program it is. The rules say
nothing of how deep brackets may nest or how many operators a statement may have; those limits are
properties of the tokens and of the tree (`Grammar.peak`, `Node.operatorCount`), stated apart.

A phrase of an expression is a list of tokens with a tree. The operands of a tier are joined from
the left: `Phrase.more tier left` are the operators and operands that follow `left`, and its tree
has `left` at its lower left end. There are three tiers, one below the other, and one rule for all
of them: precedence is a number, and the operands of a tier are the phrases of the next one, or
factors.

That a list of tokens can be cut into phrases in one way only depends on what stands behind each.
`Stops k` says of tokens that they do not start with an operator of precedence `k` or higher, and
`Closed` that they do not start with an `else` that belongs to the statement before them; both are
questions about one lexeme.

Main statement: the grammar is unambiguous (`Grammar.Program.unique`). It is proved for every phrase
in front of any tokens that cannot continue it. So two derivations that start at the same token
agree, although nothing says beforehand that they end at the same one; the induction is on the first
of them, and its cases on the second.
-/

namespace KannadaScript

/-! ### Rules -/

/-- The tiers of binary operators, loosest first. -/
inductive Tier where
  | equality
  | additive
  | multiplicative
deriving DecidableEq, Repr

/-- How tightly the operators of a tier bind. -/
def Tier.precedence : Tier → Nat
  | .equality => 1
  | .additive => 2
  | .multiplicative => 3

/-- The mark that writes an operator. -/
def BinaryOp.mark : BinaryOp → Mark
  | .add => .plus
  | .sub => .minus
  | .mul => .star
  | .div => .slash
  | .eq => .equal

namespace Grammar

/-- The phrases of an expression. -/
inductive Phrase where
  /-- Operands joined by the operators of a tier. -/
  | joined (tier : Tier)
  /-- The operators of a tier, each with an operand, that follow `left`. -/
  | more (tier : Tier) (left : Node)
  /-- A primary phrase with at most one minus sign. -/
  | factor
  /-- A single token, or an expression in parentheses. -/
  | primary

/-- What the operators of a tier join. -/
def operand : Tier → Phrase
  | .equality => .joined .additive
  | .additive => .joined .multiplicative
  | .multiplicative => .factor

/-- The leaf that a single token stands for. -/
def leaf? (t : Token) : Option Node :=
  match t.lexeme with
  | .number v => some (.number t.line v)
  | .quoted v => some (.quoted t.line v)
  | .keyword .trueWord => some (.truth t.line true)
  | .keyword .falseWord => some (.truth t.line false)
  | .name x => some (.var t.line x)
  | _ => none

/-- The tokens of a phrase of an expression, and its tree. -/
inductive Derives : Phrase → List Token → Node → Prop
  | leaf {t : Token} {n : Node} (h : leaf? t = some n) : Derives .primary [t] n
  | paren {o c : Token} {ts : List Token} {n : Node} (ho : o.lexeme = .mark .openParen)
      (inside : Derives (.joined .equality) ts n) (hc : c.lexeme = .mark .closeParen) :
      Derives .primary (o :: ts ++ [c]) n
  | plain {ts : List Token} {n : Node} (h : Derives .primary ts n) : Derives .factor ts n
  | negated {t : Token} {ts : List Token} {n : Node} (ht : t.lexeme = .mark .minus)
      (h : Derives .primary ts n) : Derives .factor (t :: ts) (.negate t.line n)
  | joined {tier : Tier} {ts ts' : List Token} {l n : Node} (first : Derives (operand tier) ts l)
      (rest : Derives (.more tier l) ts' n) : Derives (.joined tier) (ts ++ ts') n
  | done {tier : Tier} {n : Node} : Derives (.more tier n) [] n
  | more {tier : Tier} {t : Token} {op : BinaryOp} {ts ts' : List Token} {l r n : Node}
      (ht : t.lexeme = .mark op.mark) (hop : op.precedence = tier.precedence)
      (next : Derives (operand tier) ts r)
      (rest : Derives (.more tier (.binary t.line op l r)) ts' n) :
      Derives (.more tier l) (t :: ts ++ ts') n

/-- The tokens of an expression, and its tree. -/
abbrev Expression : List Token → Node → Prop := Derives (.joined .equality)

mutual
/-- The tokens of a block, and its tree. -/
inductive Block : List Token → Node → Prop
  | mk {o c : Token} {ts : List Token} {ss : List Node} (ho : o.lexeme = .mark .openBrace)
      (inside : Statements ts ss) (hc : c.lexeme = .mark .closeBrace) :
      Block (o :: ts ++ [c]) (.block o.line ss)
/-- The tokens of a statement, and its tree. -/
inductive Statement : List Token → Node → Prop
  | ifThen {t : Token} {es bs : List Token} {c b : Node} (ht : t.lexeme = .keyword .ifWord)
      (condition : Expression es c) (body : Block bs b) :
      Statement (t :: es ++ bs) (.ifThen t.line c b)
  | ifElse {t u : Token} {es bs bs' : List Token} {c b b' : Node}
      (ht : t.lexeme = .keyword .ifWord) (condition : Expression es c) (body : Block bs b)
      (hu : u.lexeme = .keyword .elseWord) (other : Block bs' b') :
      Statement (t :: es ++ bs ++ u :: bs') (.ifElse t.line c b b')
  | loop {t : Token} {es bs : List Token} {c b : Node} (ht : t.lexeme = .keyword .whileWord)
      (condition : Expression es c) (body : Block bs b) :
      Statement (t :: es ++ bs) (.loop t.line c b)
  | print {t e : Token} {es : List Token} {v : Node} (ht : t.lexeme = .keyword .printWord)
      (value : Expression es v) (he : e.lexeme = .mark .semicolon) :
      Statement (t :: es ++ [e]) (.print t.line v)
  | assign {t a e : Token} {x : String} {es : List Token} {v : Node} (ht : t.lexeme = .name x)
      (ha : a.lexeme = .mark .assign) (value : Expression es v)
      (he : e.lexeme = .mark .semicolon) :
      Statement (t :: a :: es ++ [e]) (.assign t.line x v)
/-- The tokens of statements in a row, and their trees. -/
inductive Statements : List Token → List Node → Prop
  | nil : Statements [] []
  | cons {ts ts' : List Token} {s : Node} {ss : List Node} (first : Statement ts s)
      (rest : Statements ts' ss) : Statements (ts ++ ts') (s :: ss)
end

/-- The tokens before the first end of file. -/
def beforeEnd (tokens : List Token) : List Token := tokens.takeWhile (·.lexeme != .endOfFile)

/-- The tokens with an end of file after them, if they do not end in one. It stands on the line of
the last token, or on line one if there is none. -/
def ended (tokens : List Token) : List Token :=
  match tokens.getLast? with
  | none => [⟨.endOfFile, 1⟩]
  | some last => if last.lexeme = .endOfFile then tokens else tokens ++ [⟨.endOfFile, last.line⟩]

/-- The tokens of a program, and its tree. What follows the first end of file is not looked at. -/
inductive Program (tokens : List Token) : Node → Prop
  | mk {first : Token} {rest : List Token} {ss : List Node} (start : ended tokens = first :: rest)
      (statements : Statements (beforeEnd tokens) ss) : Program tokens (.program first.line ss)

/-! ### What follows a phrase -/

/-- The lexeme at the front of a list of tokens, past which there is only the end of file. -/
def lookahead (rest : List Token) : Lexeme := (rest.head?.map Token.lexeme).getD .endOfFile

@[simp] theorem lookahead_nil : lookahead [] = .endOfFile := rfl

@[simp] theorem lookahead_cons (t : Token) (ts : List Token) : lookahead (t :: ts) = t.lexeme := rfl

/-- No operator that binds as tightly as `level` stands in front of `rest`. -/
def Stops (level : Nat) (rest : List Token) : Prop :=
  ∀ op : BinaryOp, lookahead rest = .mark op.mark → op.precedence < level

/-- The loosest operator that a phrase can hold outside parentheses. -/
def Phrase.level : Phrase → Nat
  | .joined tier | .more tier _ => tier.precedence
  | .factor | .primary => 4

/-- The operands of a tier bind tighter than the tier by one. -/
theorem level_operand (tier : Tier) : (operand tier).level = tier.precedence + 1 := by
  cases tier <;> rfl

theorem mark_injective : Function.Injective BinaryOp.mark := by
  intro a b h
  cases a <;> cases b <;> first | rfl | cases h

/-- What cannot continue a phrase cannot continue a tighter one. -/
theorem Stops.mono {k k' : Nat} {rest : List Token} (h : Stops k rest) (hk : k ≤ k') :
    Stops k' rest :=
  fun op hop ↦ (h op hop).trans_le hk

/-- The marks that follow an expression end every phrase of it. -/
theorem stops_of_lookahead {m : Mark} {rest : List Token} (h : lookahead rest = .mark m)
    (hm : m = .closeParen ∨ m = .openBrace ∨ m = .semicolon) (k : Nat) : Stops k rest := by
  intro op hop
  rw [h] at hop
  rcases hm with rfl | rfl | rfl <;> cases op <;> cases hop

theorem stops_closeParen {c : Token} (hc : c.lexeme = .mark .closeParen) (ts : List Token)
    (k : Nat) : Stops k (c :: ts) :=
  stops_of_lookahead ((lookahead_cons c ts).trans hc) (.inl rfl) k

theorem stops_semicolon {e : Token} (he : e.lexeme = .mark .semicolon) (ts : List Token)
    (k : Nat) : Stops k (e :: ts) :=
  stops_of_lookahead ((lookahead_cons e ts).trans he) (.inr (.inr rfl)) k

/-- What follows an operand ends the operand: an operator of the tier, or what ends the tier. -/
theorem Derives.stops_more {tier : Tier} {l n : Node} {ts rest : List Token}
    (h : Derives (.more tier l) ts n) (hrest : Stops tier.precedence rest) :
    Stops (tier.precedence + 1) (ts ++ rest) := by
  cases h with
  | done => exact hrest.mono (Nat.le_succ _)
  | @more _ t op ts ts' _ _ _ ht hop next more =>
    intro op' hop'
    rw [List.cons_append, List.cons_append, lookahead_cons, ht] at hop'
    obtain rfl : op = op' := mark_injective (by injection hop')
    omega

/-- The first token of a primary phrase is no minus sign. -/
theorem Derives.lookahead_primary {ts : List Token} {n : Node} (h : Derives .primary ts n)
    (rest : List Token) : lookahead (ts ++ rest) ≠ .mark .minus := by
  cases h with
  | @leaf t _ h =>
    intro ht
    rw [List.singleton_append, lookahead_cons] at ht
    rw [leaf?, ht] at h
    cases h
  | paren ho inside hc =>
    rw [List.cons_append, List.cons_append, lookahead_cons, ho]
    decide

/-! ### Unambiguous expressions -/

/-- A parenthesis is no leaf. -/
theorem leaf?_of_openParen {o : Token} (ho : o.lexeme = .mark .openParen) : leaf? o = none := by
  rw [leaf?, ho]

/-- Of two phrases of one kind in front of the same tokens, each followed by what ends it, both
are the same and have the same tree. -/
theorem Derives.unique {ph : Phrase} {ts ts' r r' : List Token} {n n' : Node}
    (h : Derives ph ts n) (h' : Derives ph ts' n') (heq : ts ++ r = ts' ++ r')
    (hr : Stops ph.level r) (hr' : Stops ph.level r') : ts = ts' ∧ n = n' := by
  -- On the first derivation. What follows each part of the other stops that part too, which is
  -- what lets the induction hypothesis find the same end of it.
  induction h generalizing ts' r r' n' with
  | @leaf t n h =>
    cases h' with
    | @leaf t' _ h' =>
      obtain ⟨rfl, -⟩ := List.cons.inj heq
      exact ⟨rfl, Option.some.inj (h.symm.trans h')⟩
    | @paren o c ts n ho inside hc =>
      obtain ⟨rfl, -⟩ := List.cons.inj heq
      rw [leaf?_of_openParen ho] at h
      cases h
  | @paren o c ts n ho inside hc ih =>
    cases h' with
    | @leaf t' _ h' =>
      obtain ⟨rfl, -⟩ := List.cons.inj heq
      rw [leaf?_of_openParen ho] at h'
      cases h'
    | @paren o' c' ts' _ ho' inside' hc' =>
      simp only [List.cons_append, List.append_assoc, List.cons.injEq] at heq
      obtain ⟨rfl, heq⟩ := heq
      obtain ⟨rfl, rfl⟩ := ih inside' heq (stops_closeParen hc _ _) (stops_closeParen hc' _ _)
      obtain ⟨rfl, -⟩ := List.cons.inj (List.append_cancel_left heq)
      exact ⟨rfl, rfl⟩
  | plain h ih =>
    cases h' with
    | plain h' => exact ih h' heq hr hr'
    | negated ht h' =>
      have := h.lookahead_primary r
      rw [heq, List.cons_append, lookahead_cons] at this
      exact absurd ht this
  | negated ht h ih =>
    cases h' with
    | plain h' =>
      have := h'.lookahead_primary r'
      rw [← heq, List.cons_append, lookahead_cons] at this
      exact absurd ht this
    | negated ht' h' =>
      simp only [List.cons_append, List.cons.injEq] at heq
      obtain ⟨rfl, heq⟩ := heq
      obtain ⟨rfl, rfl⟩ := ih h' heq hr hr'
      exact ⟨rfl, rfl⟩
  | @joined tier ts₁ ts₂ l n first rest ih₁ ih₂ =>
    cases h' with
    | joined first' rest' =>
      rw [List.append_assoc, List.append_assoc] at heq
      obtain ⟨rfl, rfl⟩ := ih₁ first' heq (by rw [level_operand]; exact rest.stops_more hr)
        (by rw [level_operand]; exact rest'.stops_more hr')
      obtain ⟨rfl, rfl⟩ := ih₂ rest' (List.append_cancel_left heq) hr hr'
      exact ⟨rfl, rfl⟩
  | @done tier n =>
    cases h' with
    | done => exact ⟨rfl, rfl⟩
    | @more _ t op _ _ _ _ _ ht hop next rest =>
      -- the other derivation goes on with an operator that would have ended this one
      have := hr op (by rw [List.nil_append] at heq; rw [heq]; exact ht)
      exact absurd hop this.ne
  | @more tier t op ts₁ ts₂ l m n ht hop next rest ih₁ ih₂ =>
    cases h' with
    | done =>
      have := hr' op (by rw [List.nil_append] at heq; rw [← heq]; exact ht)
      exact absurd hop this.ne
    | @more _ t' op' _ _ _ _ _ ht' hop' next' rest' =>
      simp only [List.cons_append, List.append_assoc, List.cons.injEq] at heq
      obtain ⟨rfl, heq⟩ := heq
      obtain rfl : op = op' := mark_injective (by rw [ht] at ht'; injection ht')
      obtain ⟨rfl, rfl⟩ := ih₁ next' heq (by rw [level_operand]; exact rest.stops_more hr)
        (by rw [level_operand]; exact rest'.stops_more hr')
      obtain ⟨rfl, rfl⟩ := ih₂ rest' (List.append_cancel_left heq) hr hr'
      exact ⟨rfl, rfl⟩

/-! ### Unambiguous statements -/

/-- A block starts with a brace. -/
theorem Block.lookahead_append {ts : List Token} {n : Node} (h : Block ts n) (rest : List Token) :
    lookahead (ts ++ rest) = .mark .openBrace := by
  cases h with
  | mk ho inside hc => exact ho

/-- A block ends the expression before it. -/
theorem Block.stops {ts : List Token} {n : Node} (h : Block ts n) (rest : List Token) (k : Nat) :
    Stops k (ts ++ rest) :=
  stops_of_lookahead (h.lookahead_append rest) (.inr (.inl rfl)) k

/-- The statements of a block or of a program end before `rest`. -/
def Ends (rest : List Token) : Prop :=
  lookahead rest = .mark .closeBrace ∨ lookahead rest = .endOfFile

/-- A statement starts with a keyword of its own or with a name. -/
theorem Statement.lookahead_append {ts : List Token} {n : Node} (h : Statement ts n)
    (rest : List Token) : ¬ Ends (ts ++ rest) ∧ lookahead (ts ++ rest) ≠ .keyword .elseWord := by
  have start : ∀ l, lookahead (ts ++ rest) = l → (∃ x, l = .name x) ∨ l = .keyword .ifWord ∨
      l = .keyword .whileWord ∨ l = .keyword .printWord → ¬ Ends (ts ++ rest) ∧
        lookahead (ts ++ rest) ≠ .keyword .elseWord := by
    rintro l hl (⟨x, rfl⟩ | rfl | rfl | rfl) <;> rw [Ends, hl] <;> simp
  cases h with
  | ifThen ht _ _ => exact start _ ht (.inr (.inl rfl))
  | ifElse ht _ _ _ _ => exact start _ ht (.inr (.inl rfl))
  | loop ht _ _ => exact start _ ht (.inr (.inr (.inl rfl)))
  | print ht _ _ => exact start _ ht (.inr (.inr (.inr rfl)))
  | assign ht _ _ _ => exact start _ ht (.inl ⟨_, rfl⟩)

/-- What follows a statement is no `else`: another statement, or what ends them all. -/
theorem Statements.lookahead_ne_else {ts rest : List Token} {ss : List Node} (h : Statements ts ss)
    (hrest : Ends rest) : lookahead (ts ++ rest) ≠ .keyword .elseWord := by
  cases h with
  | nil =>
    rw [List.nil_append]
    rcases hrest with h | h <;> rw [h] <;> decide
  | cons first more =>
    rw [List.append_assoc]
    exact (first.lookahead_append _).2

/-- A conditional without an `else` is not followed by one. -/
def Closed (n : Node) (rest : List Token) : Prop :=
  ∀ l c b, n = .ifThen l c b → lookahead rest ≠ .keyword .elseWord

/-- Before anything but `else` every statement is closed. -/
theorem closed_of_ne_else {rest : List Token} (h : lookahead rest ≠ .keyword .elseWord) (n : Node) :
    Closed n rest :=
  fun _ _ _ _ ↦ h

mutual
/-- Two blocks at the head of the same tokens are one. -/
theorem Block.unique {ts ts' r r' : List Token} {n n' : Node} :
    Block ts n → Block ts' n' → ts ++ r = ts' ++ r' → ts = ts' ∧ n = n'
  | .mk ho inside hc, .mk ho' inside' hc', heq => by
    simp only [List.cons_append, List.append_assoc, List.cons.injEq] at heq
    obtain ⟨rfl, heq⟩ := heq
    obtain ⟨rfl, rfl⟩ := inside.unique inside' heq (.inl hc) (.inl hc')
    obtain ⟨rfl, -⟩ := List.cons.inj (List.append_cancel_left heq)
    exact ⟨rfl, rfl⟩
/-- Two statements at the head of the same tokens are one, if what follows cannot continue
either. -/
theorem Statement.unique {ts ts' r r' : List Token} {n n' : Node} :
    Statement ts n → Statement ts' n' → ts ++ r = ts' ++ r' → Closed n r → Closed n' r' →
    ts = ts' ∧ n = n'
  | .ifThen ht e b, h', heq, hr, hr' => by
    cases h' with
    | ifThen ht' e' b' =>
      simp only [List.cons_append, List.append_assoc, List.cons.injEq] at heq
      obtain ⟨rfl, heq⟩ := heq
      obtain ⟨rfl, rfl⟩ := e.unique e' heq (b.stops _ _) (b'.stops _ _)
      obtain ⟨rfl, rfl⟩ := b.unique b' (List.append_cancel_left heq)
      exact ⟨rfl, rfl⟩
    | ifElse ht' e' b' hu c' =>
      simp only [List.cons_append, List.append_assoc, List.cons.injEq] at heq
      obtain ⟨rfl, heq⟩ := heq
      obtain ⟨rfl, rfl⟩ := e.unique e' heq (b.stops _ _) (b'.stops _ _)
      obtain ⟨rfl, rfl⟩ := b.unique b' (List.append_cancel_left heq)
      -- behind the same block one derivation has an `else` and the other may not
      rw [List.append_cancel_left (List.append_cancel_left heq)] at hr
      exact absurd hu (hr _ _ _ rfl)
    | loop ht' e' b' | print ht' e' he' | assign ht' ha' e' he' =>
      rw [← (List.cons.inj heq).1, ht] at ht'
      cases ht'
  | .ifElse ht e b hu c, h', heq, hr, hr' => by
    cases h' with
    | ifThen ht' e' b' =>
      simp only [List.cons_append, List.append_assoc, List.cons.injEq] at heq
      obtain ⟨rfl, heq⟩ := heq
      obtain ⟨rfl, rfl⟩ := e.unique e' heq (b.stops _ _) (b'.stops _ _)
      obtain ⟨rfl, rfl⟩ := b.unique b' (List.append_cancel_left heq)
      rw [← List.append_cancel_left (List.append_cancel_left heq)] at hr'
      exact absurd hu (hr' _ _ _ rfl)
    | ifElse ht' e' b' hu' c' =>
      simp only [List.cons_append, List.append_assoc, List.cons.injEq] at heq
      obtain ⟨rfl, heq⟩ := heq
      obtain ⟨rfl, rfl⟩ := e.unique e' heq (b.stops _ _) (b'.stops _ _)
      obtain ⟨rfl, rfl⟩ := b.unique b' (List.append_cancel_left heq)
      obtain ⟨rfl, hblock⟩ := List.cons.inj (List.append_cancel_left (List.append_cancel_left heq))
      obtain ⟨rfl, rfl⟩ := c.unique c' hblock
      exact ⟨rfl, rfl⟩
    | loop ht' e' b' | print ht' e' he' | assign ht' ha' e' he' =>
      rw [← (List.cons.inj heq).1, ht] at ht'
      cases ht'
  | .loop ht e b, h', heq, hr, hr' => by
    cases h' with
    | loop ht' e' b' =>
      simp only [List.cons_append, List.append_assoc, List.cons.injEq] at heq
      obtain ⟨rfl, heq⟩ := heq
      obtain ⟨rfl, rfl⟩ := e.unique e' heq (b.stops _ _) (b'.stops _ _)
      obtain ⟨rfl, rfl⟩ := b.unique b' (List.append_cancel_left heq)
      exact ⟨rfl, rfl⟩
    | ifThen ht' e' b' | ifElse ht' e' b' hu' c' | print ht' e' he' | assign ht' ha' e' he' =>
      rw [← (List.cons.inj heq).1, ht] at ht'
      cases ht'
  | .print ht e he, h', heq, hr, hr' => by
    cases h' with
    | print ht' e' he' =>
      simp only [List.cons_append, List.append_assoc, List.cons.injEq] at heq
      obtain ⟨rfl, heq⟩ := heq
      obtain ⟨rfl, rfl⟩ := e.unique e' heq (stops_semicolon he _ _) (stops_semicolon he' _ _)
      obtain ⟨rfl, -⟩ := List.cons.inj (List.append_cancel_left heq)
      exact ⟨rfl, rfl⟩
    | ifThen ht' e' b' | ifElse ht' e' b' hu' c' | loop ht' e' b' | assign ht' ha' e' he' =>
      rw [← (List.cons.inj heq).1, ht] at ht'
      cases ht'
  | .assign ht ha e he, h', heq, hr, hr' => by
    cases h' with
    | assign ht' ha' e' he' =>
      simp only [List.cons_append, List.append_assoc, List.cons.injEq] at heq
      obtain ⟨rfl, rfl, heq⟩ := heq
      rw [ht, Lexeme.name.injEq] at ht'
      obtain ⟨rfl, rfl⟩ := e.unique e' heq (stops_semicolon he _ _) (stops_semicolon he' _ _)
      obtain ⟨rfl, -⟩ := List.cons.inj (List.append_cancel_left heq)
      exact ⟨rfl, by rw [ht']⟩
    | ifThen ht' e' b' | ifElse ht' e' b' hu' c' | loop ht' e' b' | print ht' e' he' =>
      rw [← (List.cons.inj heq).1, ht] at ht'
      cases ht'
/-- And so are two lists of them, before what ends both. -/
theorem Statements.unique {ts ts' r r' : List Token} {ss ss' : List Node} :
    Statements ts ss → Statements ts' ss' → ts ++ r = ts' ++ r' → Ends r → Ends r' →
    ts = ts' ∧ ss = ss'
  | .nil, .nil, _, _, _ => ⟨rfl, rfl⟩
  | .nil, .cons first' more', heq, hr, _ => by
    rw [List.nil_append, List.append_assoc] at heq
    rw [heq] at hr
    exact absurd hr (first'.lookahead_append _).1
  | .cons first more, .nil, heq, _, hr' => by
    rw [List.nil_append, List.append_assoc] at heq
    rw [← heq] at hr'
    exact absurd hr' (first.lookahead_append _).1
  | .cons first more, .cons first' more', heq, hr, hr' => by
    rw [List.append_assoc, List.append_assoc] at heq
    obtain ⟨rfl, rfl⟩ := first.unique first' heq (closed_of_ne_else (more.lookahead_ne_else hr) _)
      (closed_of_ne_else (more'.lookahead_ne_else hr') _)
    obtain ⟨rfl, rfl⟩ := more.unique more' (List.append_cancel_left heq) hr hr'
    exact ⟨rfl, rfl⟩
end

/-- **Unambiguous.** A list of tokens is at most one program. -/
theorem Program.unique {tokens : List Token} {p q : Node} (hp : Program tokens p)
    (hq : Program tokens q) : p = q := by
  obtain ⟨start, hs⟩ := hp
  obtain ⟨start', hs'⟩ := hq
  obtain ⟨rfl, -⟩ := List.cons.inj (start.symm.trans start')
  obtain ⟨-, rfl⟩ := @Statements.unique _ _ [] [] _ _ hs hs' rfl (.inr rfl) (.inr rfl)
  rfl

/-! ### The trees of the grammar -/

/-- A phrase that continues a tree continues an expression. -/
def Phrase.continuesExpression : Phrase → Bool
  | .more _ left => left.isExpression
  | _ => true

theorem continuesExpression_operand (tier : Tier) :
    (operand tier).continuesExpression = true := by
  cases tier <;> rfl

theorem isExpression_of_leaf {t : Token} {n : Node} (h : leaf? t = some n) :
    n.isExpression = true := by
  rcases t with ⟨l, line⟩
  cases l with
  | keyword w => cases w <;> cases h <;> rfl
  | _ => cases h <;> rfl

/-- The tree of a phrase is an expression; of what follows an operand, if that operand is. -/
theorem Derives.isExpression {ph : Phrase} {ts : List Token} {n : Node} (h : Derives ph ts n)
    (hph : ph.continuesExpression = true) : n.isExpression = true := by
  induction h with
  | leaf h => exact isExpression_of_leaf h
  | paren ho inside hc ih => exact ih rfl
  | plain h ih => exact ih rfl
  | negated ht h ih => exact ih rfl
  | joined first rest ih ih' => exact ih' (ih (continuesExpression_operand _))
  | done => exact hph
  | more ht hop next rest ih ih' =>
    exact ih' (Bool.and_eq_true_iff.2 ⟨hph, ih (continuesExpression_operand _)⟩)

theorem isExpression_of_expression {ts : List Token} {n : Node} (h : Expression ts n) :
    n.isExpression = true :=
  h.isExpression rfl

mutual
theorem Block.isBody {ts : List Token} {n : Node} : Block ts n → n.isBody = true
  | .mk _ inside _ => inside.areStatements
/-- The tree of a statement has every node in its place. -/
theorem Statement.isStatement {ts : List Token} {n : Node} : Statement ts n → n.isStatement = true
  | .ifThen _ e b | .loop _ e b =>
    Bool.and_eq_true_iff.2 ⟨isExpression_of_expression e, b.isBody⟩
  | .ifElse _ e b _ c =>
    Bool.and_eq_true_iff.2 ⟨Bool.and_eq_true_iff.2 ⟨isExpression_of_expression e, b.isBody⟩,
      c.isBody⟩
  | .print _ e _ | .assign _ _ e _ => isExpression_of_expression e
theorem Statements.areStatements {ts : List Token} {ss : List Node} :
    Statements ts ss → Node.areStatements ss = true
  | .nil => rfl
  | .cons first more => Bool.and_eq_true_iff.2 ⟨first.isStatement, more.areStatements⟩
end

end Grammar

end KannadaScript
