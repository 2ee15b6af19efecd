import KannadaScript.Proofs.Tree.Expression

/-!
# Reading accepts the grammar within its limits

Statements are read like expressions, except that each starts the count of operators anew: what is
bounded is the expression of every single statement (`Node.ownExpressions`), not their sum.

For each kind of phrase there is a condition on its parser: `AcceptsBlock`, `AcceptsStatement`, and
`AcceptsInside` for the statements between two braces. Each has two parts. Soundness says that a
tree was read from tokens of the grammar, that these stood at the head of the pending ones and keep
to the limits, and where the reader stands afterwards. Completeness says that tokens of the grammar
within the limits are read, whatever follows them, as long as it cannot continue the phrase. The
second part gives the tree as well, so no two trees can be read from the same tokens.

The conditions pass from the parts to the whole, and a block takes one bracket from the bound. So
they hold for all levels by induction on them (`acceptsStatement_statement`), as for expressions.

An `else` behind a conditional always belongs to it. The grammar says so by what may follow a
conditional (`Grammar.Closed`), and the reader by taking the branch whenever it can.

Main statement: `Node.ofTokens` gives a tree exactly when the tokens are that program, at most
`maxNesting` brackets are open at a time, and the expression of each statement has at most
`maxOperators` operators.
-/

namespace KannadaScript

open Grammar

namespace Parse

/-- No expression has too many operators. -/
def Modest (es : List Node) : Prop := ∀ e ∈ es, e.operatorCount ≤ maxOperators

@[simp] theorem modest_nil : Modest [] := by
  intro e he
  cases he

@[simp] theorem modest_cons {e : Node} {es : List Node} :
    Modest (e :: es) ↔ e.operatorCount ≤ maxOperators ∧ Modest es :=
  List.forall_mem_cons

@[simp] theorem modest_append {es es' : List Node} :
    Modest (es ++ es') ↔ Modest es ∧ Modest es' :=
  List.forall_mem_append

/-- `p` reads what `D` derives with fewer than `bound` brackets open at a time, in front of
tokens that may follow it. The count of operators may be anything before and after. -/
structure Accepts {α : Type} (bound : Nat) (D : List Token → α → Prop) (own : α → List Node)
    (Follows : List Token → Prop) (p : Parse α) : Prop where
  /-- What is read is derived, and stays within the limits. -/
  sound : ∀ {pending : List Token} {line k : Nat} {a : α} {r' : Reader},
    p ⟨pending, line, k⟩ = .ok a r' →
      ∃ ts rest k', pending = ts ++ rest ∧ r' = ⟨rest, line, k'⟩ ∧ D ts a ∧ peak ts < bound ∧
        Modest (own a)
  /-- What is derived within the limits is read whole. -/
  complete : ∀ {ts : List Token} {a : α} (rest : List Token) (line k : Nat),
    D ts a → peak ts < bound → Follows rest → Modest (own a) →
      ∃ k', p ⟨ts ++ rest, line, k⟩ = .ok a ⟨rest, line, k'⟩

/-! ### Blocks -/

/-- `p` reads blocks. -/
abbrev AcceptsBlock (bound : Nat) (p : Parse Node) : Prop :=
  Accepts bound Block Node.ownExpressions (fun _ ↦ True) p

/-- `p` reads statements. -/
abbrev AcceptsStatement (bound : Nat) (p : Parse Node) : Prop :=
  Accepts bound Statement Node.ownExpressions (lookahead · ≠ .keyword .elseWord) p

/-- `p` reads the statements of a block. -/
abbrev AcceptsInside (bound : Nat) (p : Parse (List Node)) : Prop :=
  Accepts bound Statements Node.ownExpressionsAll (lookahead · = .mark .closeBrace) p

/-- Where no level is left, nothing is accepted. -/
theorem acceptsInside_refuseNesting (line : Nat) : AcceptsInside 0 (refuseNesting line) where
  sound h := by cases h
  complete _ _ _ _ hpeak := absurd hpeak (Nat.not_lt_zero _)

/-- A block is read if its inside is, with one more bracket. -/
theorem acceptsBlock {bound : Nat} {inside : Nat → Parse (List Node)}
    (hi : ∀ line, AcceptsInside bound (inside line)) : AcceptsBlock (bound + 1) (block inside) where
  sound := by
    intro pending line k n r' h
    obtain ⟨o, r₁, ho, h⟩ := Step.bind_eq_ok_iff.1 h
    obtain ⟨ss, r₂, hs, h⟩ := Step.bind_eq_ok_iff.1 h
    obtain ⟨c, r₃, hc, h⟩ := Step.bind_eq_ok_iff.1 h
    cases h
    obtain ⟨ts, rfl, hopen, rfl⟩ := demand_sound ho
    obtain ⟨ts, rest, k', rfl, rfl, hd, hpeak, hown⟩ := (hi o.line).sound hs
    obtain ⟨rest, rfl, hclose, rfl⟩ := demand_sound hc
    refine ⟨o :: ts ++ [c], rest, k', by simp, rfl, .mk hopen hd hclose, ?_, hown⟩
    rw [hd.balanced.peak_bracket hopen rfl hclose rfl]
    exact Nat.succ_lt_succ hpeak
  complete := by
    intro ts n rest line k h hpeak _ hown
    cases h with
    | @mk o c ts ss ho inside' hc =>
      rw [inside'.balanced.peak_bracket ho rfl hc rfl] at hpeak
      obtain ⟨k', hrun⟩ := (hi o.line).complete (c :: rest) line k inside'
        (Nat.lt_of_succ_lt_succ hpeak) hc hown
      refine ⟨k', ?_⟩
      rw [List.append_assoc, List.cons_append]
      refine (Step.bind_of_ok (demand_cons ho)).trans ?_
      refine (Step.bind_of_ok hrun).trans ?_
      exact Step.bind_of_ok (demand_cons hc)

/-! ### Single statements -/

section Statement

variable (line : Nat) (expression block : Parse Node)

/-- The end of a conditional statement on `line`, from behind its first block on. -/
def alternative (condition thenBody : Node) : Parse Node := do
  if (← peek).lexeme = .keyword .elseWord then
    let _ ← take
    return .ifElse line condition thenBody (← block)
  else return .ifThen line condition thenBody

/-- A conditional statement on `line`, its first token consumed. -/
def conditional : Parse Node := do
  let condition ← expression
  let thenBody ← block
  alternative line block condition thenBody

/-- A loop on `line`, its first token consumed. -/
def repetition : Parse Node := do
  let condition ← expression
  return .loop line condition (← block)

/-- A statement that prints on `line`, its first token consumed. -/
def printing : Parse Node := do
  let value ← expression
  let _ ← demand .printEnd
  pure (.print line value)

/-- An assignment to `x` on `line`, its first token consumed. -/
def assignment (x : String) : Parse Node := do
  let _ ← demand .assignment
  let value ← expression
  let _ ← demand .assignmentEnd
  pure (.assign line x value)

end Statement

section Dispatch

variable {expression block : Parse Node} {t : Token} {ts : List Token} {line k : Nat}

theorem statementWith_of_if (h : t.lexeme = .keyword .ifWord) :
    statementWith expression block ⟨t :: ts, line, k⟩ =
      conditional t.line expression block ⟨ts, line, 0⟩ := by
  rcases t with ⟨l, tline⟩
  cases h
  rfl

theorem statementWith_of_while (h : t.lexeme = .keyword .whileWord) :
    statementWith expression block ⟨t :: ts, line, k⟩ =
      repetition t.line expression block ⟨ts, line, 0⟩ := by
  rcases t with ⟨l, tline⟩
  cases h
  rfl

theorem statementWith_of_print (h : t.lexeme = .keyword .printWord) :
    statementWith expression block ⟨t :: ts, line, k⟩ =
      printing t.line expression ⟨ts, line, 0⟩ := by
  rcases t with ⟨l, tline⟩
  cases h
  rfl

theorem statementWith_of_name {x : String} (h : t.lexeme = .name x) :
    statementWith expression block ⟨t :: ts, line, k⟩ =
      assignment t.line expression x ⟨ts, line, 0⟩ := by
  rcases t with ⟨l, tline⟩
  cases h
  rfl

theorem alternative_of_else {u : Token} (hu : u.lexeme = .keyword .elseWord) (start : Nat)
    (c b : Node) : alternative start block c b ⟨u :: ts, line, k⟩ =
      (block >>= fun b' ↦ pure (.ifElse start c b b')) ⟨ts, line, k⟩ := by
  refine (Step.bind_of_ok (peek_apply _)).trans ?_
  rw [if_pos (show (Reader.current ⟨u :: ts, line, k⟩).lexeme = _ from hu)]
  rfl

theorem alternative_of_ne (h : lookahead ts ≠ .keyword .elseWord) (start : Nat) (c b : Node) :
    alternative start block c b ⟨ts, line, k⟩ = .ok (.ifThen start c b) ⟨ts, line, k⟩ := by
  refine (Step.bind_of_ok (peek_apply _)).trans ?_
  rw [if_neg (by rw [Reader.current_lexeme]; exact h)]
  rfl

/-- The lexemes that a statement starts with. -/
def startsStatement : Lexeme → Bool
  | .name _ | .keyword .ifWord | .keyword .whileWord | .keyword .printWord => true
  | _ => false

/-- The lexemes that start a statement. -/
theorem startsStatement_cases {l : Lexeme} (h : startsStatement l = true) :
    l = .keyword .ifWord ∨ l = .keyword .whileWord ∨ l = .keyword .printWord ∨
      ∃ x, l = .name x := by
  cases l with
  | keyword w => cases w <;> cases h <;> simp
  | name x => exact .inr (.inr (.inr ⟨x, rfl⟩))
  | _ => cases h

/-- Before any other lexeme there is no statement. -/
theorem statementWith_of_not_starts {pending : List Token}
    (h : startsStatement (lookahead pending) = false) :
    statementWith expression block ⟨pending, line, k⟩ = .error
      ⟨.notAStatement (lookahead pending), (pending.headD ⟨.endOfFile, line⟩).line⟩
      ⟨pending, line, 0⟩ := by
  rcases pending with - | ⟨⟨l, tline⟩, ts⟩
  · rfl
  · cases l with
    | keyword w => cases w <;> cases h <;> rfl
    | name x => cases h
    | _ => rfl

/-- What is read starts like a statement. -/
theorem statementWith_cases {pending : List Token} {n : Node} {r' : Reader}
    (h : statementWith expression block ⟨pending, line, k⟩ = .ok n r') :
    ∃ t ts, pending = t :: ts ∧ (t.lexeme = .keyword .ifWord ∨ t.lexeme = .keyword .whileWord ∨
      t.lexeme = .keyword .printWord ∨ ∃ x, t.lexeme = .name x) := by
  cases hstart : startsStatement (lookahead pending) with
  | false =>
    rw [statementWith_of_not_starts hstart] at h
    cases h
  | true =>
    rcases pending with - | ⟨t, ts⟩
    · cases hstart
    · exact ⟨t, ts, rfl, startsStatement_cases hstart⟩

end Dispatch

section Soundness

variable {bound : Nat} {expression block : Parse Node} {t : Token} {pending : List Token}
  {line : Nat} {n : Node} {r' : Reader} (he : Reads bound (.joined .equality) expression)
  (hb : AcceptsBlock bound block)

/-- What `statementWith` promises of what it has read. -/
def Found (bound : Nat) (pending : List Token) (line : Nat) (n : Node) (r' : Reader) : Prop :=
  ∃ ts rest k', pending = ts ++ rest ∧ r' = ⟨rest, line, k'⟩ ∧ Statement ts n ∧ peak ts < bound ∧
    Modest n.ownExpressions

include he hb in
/-- What is read as a conditional is one, with or without a second branch. -/
theorem conditional_sound (ht : t.lexeme = .keyword .ifWord)
    (h : conditional t.line expression block ⟨pending, line, 0⟩ = .ok n r') :
    Found bound (t :: pending) line n r' := by
  obtain ⟨c, r₁, hc, h⟩ := Step.bind_eq_ok_iff.1 h
  obtain ⟨es, rest, rfl, rfl, hes, hpeak, hcount⟩ := he.sound hc (Nat.zero_le _)
  rw [Nat.zero_add] at hcount
  obtain ⟨b, r₂, hblock, h⟩ := Step.bind_eq_ok_iff.1 h
  obtain ⟨bs, rest, k', rfl, rfl, hbs, hpeak', hown⟩ := hb.sound hblock
  by_cases helse : lookahead rest = .keyword .elseWord
  · rcases rest with _ | ⟨u, rest⟩
    · cases helse
    rw [lookahead_cons] at helse
    rw [alternative_of_else helse] at h
    obtain ⟨b', r₃, hblock', h⟩ := Step.bind_eq_ok_iff.1 h
    cases h
    obtain ⟨bs', rest, k'', rfl, rfl, hbs', hpeak'', hown'⟩ := hb.sound hblock'
    refine ⟨t :: es ++ bs ++ u :: bs', rest, k'', by simp, rfl, .ifElse ht hes hbs helse hbs',
      ?_, ?_⟩
    · rw [List.append_assoc, hes.balanced.peak_cons ht rfl rfl, hbs.balanced,
        peak_neutral helse rfl rfl]
      exact max_lt hpeak (max_lt hpeak' hpeak'')
    · simpa [Node.ownExpressions] using ⟨hcount, hown, hown'⟩
  · rw [alternative_of_ne helse] at h
    cases h
    refine ⟨t :: es ++ bs, rest, k', by simp, rfl, .ifThen ht hes hbs, ?_, ?_⟩
    · rw [hes.balanced.peak_cons ht rfl rfl]
      exact max_lt hpeak hpeak'
    · simpa [Node.ownExpressions] using ⟨hcount, hown⟩

include he hb in
/-- What is read as a loop is one. -/
theorem repetition_sound (ht : t.lexeme = .keyword .whileWord)
    (h : repetition t.line expression block ⟨pending, line, 0⟩ = .ok n r') :
    Found bound (t :: pending) line n r' := by
  obtain ⟨c, r₁, hc, h⟩ := Step.bind_eq_ok_iff.1 h
  obtain ⟨es, rest, rfl, rfl, hes, hpeak, hcount⟩ := he.sound hc (Nat.zero_le _)
  rw [Nat.zero_add] at hcount
  obtain ⟨b, r₂, hblock, h⟩ := Step.bind_eq_ok_iff.1 h
  obtain ⟨bs, rest, k', rfl, rfl, hbs, hpeak', hown⟩ := hb.sound hblock
  cases h
  refine ⟨t :: es ++ bs, rest, k', by simp, rfl, .loop ht hes hbs, ?_, ?_⟩
  · rw [hes.balanced.peak_cons ht rfl rfl]
    exact max_lt hpeak hpeak'
  · simpa [Node.ownExpressions] using ⟨hcount, hown⟩

include he in
/-- What is read as printing is a print statement. -/
theorem printing_sound (ht : t.lexeme = .keyword .printWord)
    (h : printing t.line expression ⟨pending, line, 0⟩ = .ok n r') :
    Found bound (t :: pending) line n r' := by
  obtain ⟨v, r₁, hv, h⟩ := Step.bind_eq_ok_iff.1 h
  obtain ⟨es, rest, rfl, rfl, hes, hpeak, hcount⟩ := he.sound hv (Nat.zero_le _)
  rw [Nat.zero_add] at hcount
  obtain ⟨e, r₂, hend, h⟩ := Step.bind_eq_ok_iff.1 h
  cases h
  obtain ⟨rest, rfl, hsemi, rfl⟩ := demand_sound hend
  refine ⟨t :: es ++ [e], rest, _, by simp, rfl, .print ht hes hsemi, ?_, ?_⟩
  · rw [hes.balanced.peak_cons ht rfl rfl, peak_neutral hsemi rfl rfl]
    simpa using hpeak
  · simpa [Node.ownExpressions] using hcount

include he in
/-- What is read as an assignment is one. -/
theorem assignment_sound {x : String} (ht : t.lexeme = .name x)
    (h : assignment t.line expression x ⟨pending, line, 0⟩ = .ok n r') :
    Found bound (t :: pending) line n r' := by
  obtain ⟨a, r₁, ha, h⟩ := Step.bind_eq_ok_iff.1 h
  obtain ⟨rest, rfl, hassign, rfl⟩ := demand_sound ha
  obtain ⟨v, r₂, hv, h⟩ := Step.bind_eq_ok_iff.1 h
  obtain ⟨es, rest, rfl, rfl, hes, hpeak, hcount⟩ := he.sound hv (Nat.zero_le _)
  rw [Nat.zero_add] at hcount
  obtain ⟨e, r₃, hend, h⟩ := Step.bind_eq_ok_iff.1 h
  cases h
  obtain ⟨rest, rfl, hsemi, rfl⟩ := demand_sound hend
  refine ⟨t :: a :: es ++ [e], rest, _, by simp, rfl, .assign ht hassign hes hsemi, ?_, ?_⟩
  · rw [List.cons_append, peak_neutral ht rfl rfl, hes.balanced.peak_cons hassign rfl rfl,
      peak_neutral hsemi rfl rfl]
    simpa using hpeak
  · simpa [Node.ownExpressions] using hcount

include he hb in
/-- **Soundness of statements.** What is read as a statement is a statement of the grammar, within
the limits, and stands at the head of the tokens. -/
theorem statementWith_sound {k : Nat}
    (h : statementWith expression block ⟨pending, line, k⟩ = .ok n r') :
    Found bound pending line n r' := by
  obtain ⟨t, ts, rfl, ht | ht | ht | ⟨x, ht⟩⟩ := statementWith_cases h
  · rw [statementWith_of_if ht] at h
    exact conditional_sound he hb ht h
  · rw [statementWith_of_while ht] at h
    exact repetition_sound he hb ht h
  · rw [statementWith_of_print ht] at h
    exact printing_sound he ht h
  · rw [statementWith_of_name ht] at h
    exact assignment_sound he ht h

end Soundness

section Completeness

variable {bound : Nat} {expression block : Parse Node}
  (he : Reads bound (.joined .equality) expression) (hb : AcceptsBlock bound block)

include he in
/-- The expression of a statement is read by a parser that has counted no operator yet. -/
theorem expression_complete {es rest : List Token} {c : Node} (line : Nat) (hes : Expression es c)
    (hpeak : peak es < bound) (hstops : Stops 1 rest) (hcount : c.operatorCount ≤ maxOperators) :
    expression ⟨es ++ rest, line, 0⟩ = .ok c ⟨rest, line, 0 + c.operatorCount⟩ :=
  he.complete hes hpeak hstops (by rwa [Nat.zero_add])

include he hb in
/-- A statement that stays within the limits is read whole. -/
theorem statementWith_complete {ts : List Token} {n : Node} (rest : List Token) (line k : Nat)
    (h : Statement ts n) (hpeak : peak ts < bound) (hrest : lookahead rest ≠ .keyword .elseWord)
    (hown : Modest n.ownExpressions) :
    ∃ k', statementWith expression block ⟨ts ++ rest, line, k⟩ = .ok n ⟨rest, line, k'⟩ := by
  cases h with
  | @ifThen t es bs c b ht hes hbs =>
    rw [hes.balanced.peak_cons ht rfl rfl, max_lt_iff] at hpeak
    rw [Node.ownExpressions, modest_cons] at hown
    obtain ⟨k', hblock⟩ := hb.complete rest line _ hbs hpeak.2 trivial hown.2
    refine ⟨k', ?_⟩
    rw [List.cons_append, List.cons_append, List.append_assoc, statementWith_of_if ht]
    refine (Step.bind_of_ok (expression_complete he line hes hpeak.1 (hbs.stops rest 1)
      hown.1)).trans ?_
    exact (Step.bind_of_ok hblock).trans (alternative_of_ne hrest _ _ _)
  | @ifElse t u es bs bs' c b b' ht hes hbs hu hbs' =>
    rw [List.append_assoc, hes.balanced.peak_cons ht rfl rfl, hbs.balanced,
      peak_neutral hu rfl rfl, max_lt_iff, max_lt_iff] at hpeak
    rw [Node.ownExpressions, modest_cons, modest_append] at hown
    obtain ⟨k₁, hblock⟩ := hb.complete (u :: (bs' ++ rest)) line _ hbs hpeak.2.1 trivial hown.2.1
    obtain ⟨k₂, hblock'⟩ := hb.complete rest line k₁ hbs' hpeak.2.2 trivial hown.2.2
    refine ⟨k₂, ?_⟩
    simp only [List.cons_append, List.append_assoc]
    rw [statementWith_of_if ht]
    refine (Step.bind_of_ok (expression_complete he line hes hpeak.1 (hbs.stops _ 1)
      hown.1)).trans ?_
    refine (Step.bind_of_ok hblock).trans ?_
    rw [alternative_of_else hu]
    exact Step.bind_of_ok hblock'
  | @loop t es bs c b ht hes hbs =>
    rw [hes.balanced.peak_cons ht rfl rfl, max_lt_iff] at hpeak
    rw [Node.ownExpressions, modest_cons] at hown
    obtain ⟨k', hblock⟩ := hb.complete rest line _ hbs hpeak.2 trivial hown.2
    refine ⟨k', ?_⟩
    rw [List.cons_append, List.cons_append, List.append_assoc, statementWith_of_while ht]
    refine (Step.bind_of_ok (expression_complete he line hes hpeak.1 (hbs.stops rest 1)
      hown.1)).trans ?_
    exact Step.bind_of_ok hblock
  | @print t e es v ht hes hsemi =>
    rw [hes.balanced.peak_cons ht rfl rfl, max_lt_iff] at hpeak
    rw [Node.ownExpressions, modest_cons] at hown
    refine ⟨0 + v.operatorCount, ?_⟩
    rw [List.append_assoc, List.cons_append, statementWith_of_print ht]
    refine (Step.bind_of_ok (expression_complete he line hes hpeak.1 (stops_semicolon hsemi rest 1)
      hown.1)).trans ?_
    exact Step.bind_of_ok (demand_cons hsemi)
  | @assign t a e x es v ht ha hes hsemi =>
    rw [List.cons_append, peak_neutral ht rfl rfl, hes.balanced.peak_cons ha rfl rfl,
      max_lt_iff] at hpeak
    rw [Node.ownExpressions, modest_cons] at hown
    refine ⟨0 + v.operatorCount, ?_⟩
    rw [List.append_assoc, List.cons_append, List.cons_append, statementWith_of_name ht]
    refine (Step.bind_of_ok (demand_cons ha)).trans ?_
    refine (Step.bind_of_ok (expression_complete he line hes hpeak.1 (stops_semicolon hsemi rest 1)
      hown.1)).trans ?_
    exact Step.bind_of_ok (demand_cons hsemi)

include he hb in
/-- A parser of statements accepts them if those of its expressions and blocks do. -/
theorem acceptsStatement : AcceptsStatement bound (statementWith expression block) where
  sound := statementWith_sound he hb
  complete := statementWith_complete he hb

end Completeness

/-! ### Lists of statements -/

section List

variable {levels : Nat} {statement : Parse Node} {stop : Lexeme → Bool}

theorem statementsUpTo_of_stop {rest : List Token} (h : stop (lookahead rest) = true)
    (bound line k : Nat) :
    statementsUpTo stop statement bound ⟨rest, line, k⟩ = .ok [] ⟨rest, line, k⟩ := by
  cases bound with
  | zero => rfl
  | succ bound =>
    refine (Step.bind_of_ok (peek_apply _)).trans ?_
    rw [if_pos (by rw [Reader.current_lexeme]; exact h)]
    rfl

/-- Before any other lexeme one more statement is read. -/
theorem statementsUpTo_of_not_stop {pending : List Token} (h : stop (lookahead pending) = false)
    (bound line k : Nat) : statementsUpTo stop statement (bound + 1) ⟨pending, line, k⟩ =
      (statement >>= fun s ↦ statementsUpTo stop statement bound >>= fun ss ↦ pure (s :: ss))
        ⟨pending, line, k⟩ := by
  refine (Step.bind_of_ok (peek_apply _)).trans ?_
  rw [Reader.current_lexeme, h]
  rfl

theorem length_pos_of_statement {ts : List Token} {n : Node} (h : Statement ts n) :
    0 < ts.length := by
  cases h <;> simp

/-- The bound is never reached, because every statement takes a token. -/
theorem statementsUpTo_sound (hs : AcceptsStatement (levels + 1) statement)
    (hstop : stop .endOfFile = true) {bound : Nat} {pending : List Token} {line k : Nat}
    {ss : List Node} {r' : Reader} (hbound : pending.length ≤ bound)
    (h : statementsUpTo stop statement bound ⟨pending, line, k⟩ = .ok ss r') :
    ∃ ts rest k', pending = ts ++ rest ∧ r' = ⟨rest, line, k'⟩ ∧ Statements ts ss ∧
      peak ts < levels + 1 ∧ Modest (Node.ownExpressionsAll ss) ∧
      stop (lookahead rest) = true := by
  induction bound generalizing pending k ss with
  | zero =>
    -- the bound is at least the number of pending tokens, so none is left
    obtain rfl := List.eq_nil_of_length_eq_zero (Nat.le_zero.1 hbound)
    cases h
    exact ⟨[], [], k, rfl, rfl, .nil, Nat.succ_pos _, modest_nil, hstop⟩
  | succ bound ih =>
    cases hnext : stop (lookahead pending) with
    | true =>
      rw [statementsUpTo_of_stop hnext] at h
      cases h
      exact ⟨[], pending, k, rfl, rfl, .nil, Nat.succ_pos _, modest_nil, hnext⟩
    | false =>
      rw [statementsUpTo_of_not_stop hnext] at h
      obtain ⟨s, r₁, hfirst, h⟩ := Step.bind_eq_ok_iff.1 h
      obtain ⟨ss, r₂, hmore, h⟩ := Step.bind_eq_ok_iff.1 h
      cases h
      obtain ⟨ts, rest, k₁, rfl, rfl, hd, hpeak, hown⟩ := hs.sound hfirst
      have hpos := length_pos_of_statement hd
      rw [List.length_append] at hbound
      obtain ⟨ts', rest, k₂, rfl, rfl, hd', hpeak', hown', hend⟩ := ih (by omega) hmore
      refine ⟨ts ++ ts', rest, k₂, (List.append_assoc _ _ _).symm, rfl, .cons hd hd', ?_,
        modest_append.2 ⟨hown, hown'⟩, hend⟩
      rw [hd.balanced]
      exact max_lt hpeak hpeak'

/-- Statements in a row are read up to what ends them. -/
theorem statementsUpTo_complete {limit : Nat} (hs : AcceptsStatement limit statement)
    (hstop : ∀ l, stop l = true → l = .mark .closeBrace ∨ l = .endOfFile) {bound : Nat}
    {ts : List Token} {ss : List Node} (rest : List Token) (line k : Nat) (h : Statements ts ss)
    (hbound : (ts ++ rest).length ≤ bound) (hpeak : peak ts < limit)
    (hrest : stop (lookahead rest) = true) (hown : Modest (Node.ownExpressionsAll ss)) :
    ∃ k', statementsUpTo stop statement bound ⟨ts ++ rest, line, k⟩ =
      .ok ss ⟨rest, line, k'⟩ := by
  induction bound generalizing ts ss k with
  | zero =>
    cases h with
    | nil => exact ⟨k, rfl⟩
    | cons first more =>
      have hpos := length_pos_of_statement first
      simp only [List.length_append] at hbound
      omega
  | succ bound ih =>
    cases h with
    | nil => exact ⟨k, statementsUpTo_of_stop hrest _ _ _⟩
    | @cons ts ts' s ss first more =>
      rw [first.balanced, max_lt_iff] at hpeak
      rw [Node.ownExpressionsAll, modest_append] at hown
      have hpos := length_pos_of_statement first
      rw [List.append_assoc] at hbound ⊢
      rw [List.length_append] at hbound
      -- a statement never starts like what ends the list
      have hnext : stop (lookahead (ts ++ (ts' ++ rest))) = false :=
        Bool.eq_false_iff.2 fun h ↦ (first.lookahead_append _).1 (hstop _ h)
      obtain ⟨k₁, hfirst⟩ := hs.complete (ts' ++ rest) line k first hpeak.1
        (more.lookahead_ne_else (hstop _ hrest)) hown.1
      obtain ⟨k₂, hmore⟩ := ih k₁ more (by omega) hpeak.2 hown.2
      refine ⟨k₂, ?_⟩
      rw [statementsUpTo_of_not_stop hnext]
      refine (Step.bind_of_ok hfirst).trans ?_
      exact Step.bind_of_ok hmore

end List

/-- Lists of statements in braces are accepted if single statements are. -/
theorem acceptsInside_statements {levels : Nat} {statement : Parse Node}
    (hs : AcceptsStatement (levels + 1) statement) :
    AcceptsInside (levels + 1) (statements endsBlock statement) where
  sound := by
    intro pending line k ss r' h
    obtain ⟨ts, rest, k', hts, hr, hd, hpeak, hown, -⟩ := statementsUpTo_sound hs rfl le_rfl h
    exact ⟨ts, rest, k', hts, hr, hd, hpeak, hown⟩
  complete := by
    intro ts ss rest line k h hpeak hrest hown
    refine statementsUpTo_complete hs ?_ rest line k h le_rfl hpeak (by rw [hrest]; rfl) hown
    intro l hl
    simpa [endsBlock, isEnd] using hl

/-- Statements are read as deep as their parser allows. -/
theorem acceptsStatement_statement (levels : Nat) :
    AcceptsStatement (levels + 1) (statement levels) := by
  induction levels with
  | zero => exact acceptsStatement (reads_expression 0) (acceptsBlock acceptsInside_refuseNesting)
  | succ levels ih =>
    exact acceptsStatement (reads_expression (levels + 1))
      (acceptsBlock fun _ ↦ acceptsInside_statements ih)

/-! ### Programs -/

/-- The statements of a whole program are read to the end of the list. -/
theorem statements_isEnd_eq_ok_iff (pending : List Token)
    (hpending : ∀ t ∈ pending, t.lexeme ≠ .endOfFile) (line k : Nat) (ss : List Node) :
    (∃ r', statements isEnd (statement maxNesting) ⟨pending, line, k⟩ = .ok ss r') ↔
      Statements pending ss ∧ peak pending ≤ maxNesting ∧ Modest (Node.ownExpressionsAll ss) := by
  have hs := acceptsStatement_statement maxNesting
  constructor
  · rintro ⟨r', h⟩
    obtain ⟨ts, rest, k', rfl, -, hd, hpeak, hown, hend⟩ := statementsUpTo_sound hs rfl le_rfl h
    -- only an end of file stops the list, and none is pending: so all of it was read
    rcases rest with _ | ⟨t, rest⟩
    · rw [List.append_nil]
      exact ⟨hd, Nat.le_of_lt_succ hpeak, hown⟩
    · exact absurd (by simpa [isEnd] using hend) (hpending t (by simp))
  · rintro ⟨hd, hpeak, hown⟩
    have hstop : ∀ l, isEnd l = true → l = .mark .closeBrace ∨ l = .endOfFile := by
      intro l hl
      exact .inr (by simpa [isEnd] using hl)
    obtain ⟨k', hrun⟩ := statementsUpTo_complete hs hstop [] line k hd le_rfl
      (Nat.lt_succ_of_le hpeak) rfl hown
    rw [List.append_nil] at hrun
    exact ⟨_, hrun⟩

theorem program_apply (r : Reader) : program r =
    (statements isEnd (statement maxNesting) >>= fun ss ↦ pure (.program r.current.line ss)) r :=
  rfl

end Parse

/-- To read a program is to read statements up to the end of file. -/
theorem ofTokens_eq_ok_iff_statements (tokens : List Token) (p : Node) :
    Node.ofTokens tokens = .ok p ↔ ∃ ss r', p = .program (Reader.ofTokens tokens).current.line ss ∧
      Parse.statements Parse.isEnd (Parse.statement maxNesting) (Reader.ofTokens tokens) =
        .ok ss r' := by
  rw [Node.ofTokens, Parse.program_apply]
  rcases h : Parse.statements Parse.isEnd (Parse.statement maxNesting) (Reader.ofTokens tokens)
    with ⟨ss, r'⟩ | ⟨e, r'⟩
  · rw [Step.bind_of_ok h]
    constructor
    · intro hp
      cases hp
      exact ⟨ss, r', rfl, rfl⟩
    · rintro ⟨ss', r'', rfl, hss⟩
      cases hss
      rfl
  · rw [Step.bind_of_error h]
    constructor
    · intro hp
      cases hp
    · rintro ⟨ss', r'', -, hss⟩
      cases hss

/-- The line of a program is that of its first token, be it the end of file. -/
theorem ended_eq_cons (tokens : List Token) : ∃ first rest, ended tokens = first :: rest ∧
    (Reader.ofTokens tokens).current.line = first.line := by
  rcases tokens with _ | ⟨t, ts⟩
  · exact ⟨⟨.endOfFile, 1⟩, [], rfl, rfl⟩
  · have hended : ∃ rest, ended (t :: ts) = t :: rest := by
      rw [ended]
      split
      · simp at *
      · split
        · exact ⟨ts, rfl⟩
        · exact ⟨_, List.cons_append⟩
    obtain ⟨rest, hrest⟩ := hended
    refine ⟨t, rest, hrest, ?_⟩
    by_cases ht : t.lexeme = .endOfFile <;> simp [Reader.ofTokens, Reader.current, ht]

/-- Reading gives a tree exactly when the tokens are that program and it is within the limits. -/
theorem ofTokens_eq_ok_iff (tokens : List Token) (p : Node) :
    Node.ofTokens tokens = .ok p ↔
      Program tokens p ∧ peak (beforeEnd tokens) ≤ maxNesting ∧ Parse.Modest p.ownExpressions := by
  have hpending : ∀ t ∈ beforeEnd tokens, t.lexeme ≠ .endOfFile := by
    intro t ht
    simpa using List.mem_takeWhile_imp ht
  obtain ⟨first, rest, hfirst, hline⟩ := ended_eq_cons tokens
  rw [ofTokens_eq_ok_iff_statements, hline]
  constructor
  · rintro ⟨ss, r', rfl, h⟩
    obtain ⟨hd, hlimits⟩ := (Parse.statements_isEnd_eq_ok_iff _ hpending _ _ _).1 ⟨r', h⟩
    exact ⟨.mk hfirst hd, hlimits⟩
  · rintro ⟨hp, hlimits⟩
    obtain @⟨first', rest', ss, hfirst', hd⟩ := hp
    obtain ⟨rfl, -⟩ := List.cons.inj (hfirst.symm.trans hfirst')
    obtain ⟨r', h⟩ := (Parse.statements_isEnd_eq_ok_iff _ hpending _ _ _).2 ⟨hd, hlimits⟩
    exact ⟨ss, r', rfl, h⟩

/-- Every program that was read is one, with its statements. -/
theorem exists_statements_of_ofTokens {tokens : List Token} {p : Node}
    (h : Node.ofTokens tokens = .ok p) :
    ∃ line ss, p = .program line ss ∧ Statements (beforeEnd tokens) ss := by
  obtain ⟨hp, -⟩ := (ofTokens_eq_ok_iff tokens p).1 h
  obtain ⟨-, hss⟩ := hp
  exact ⟨_, _, rfl, hss⟩

/-- **Exactly the grammar, within its limits.** Reading gives a tree exactly when the tokens are
that program and no other, at most `maxNesting` parentheses and blocks are open at any point, and
the expression of each statement has at most `maxOperators` operators. -/
theorem ofTokens_eq_ok_iff_program (tokens : List Token) (p : Node) :
    Node.ofTokens tokens = .ok p ↔
      (Program tokens p ∧ ∀ q, Program tokens q → q = p) ∧
      NestsWithin maxNesting (beforeEnd tokens) ∧
      ∀ e ∈ p.ownExpressions, e.operatorCount ≤ maxOperators := by
  rw [ofTokens_eq_ok_iff, peak_le_iff]
  constructor
  · rintro ⟨hp, hlimits⟩
    exact ⟨⟨hp, fun q hq ↦ hq.unique hp⟩, hlimits⟩
  · rintro ⟨⟨hp, -⟩, hlimits⟩
    exact ⟨hp, hlimits⟩

end KannadaScript
