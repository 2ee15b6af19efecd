import KannadaScript.Proofs.Steps
import KannadaScript.Proofs.Tree.Nesting
import KannadaScript.Tree.OfTokens

/-!
# Reading expressions

A parser reads a phrase within a bound (`Parse.Reads`) when it succeeds exactly on the tokens of
that phrase, as long as fewer brackets than the bound are open at a time and the operators of the
statement are not too many; it then consumes these tokens and counts their operators. Each
combinator takes parsers that read the parts to one that reads the whole, and a parenthesis adds one
to the bound. So `Parse.expression levels` reads expressions within `levels + 1`, by induction on
`levels` (`Parse.reads_expression`).

The operands of a tier are read one after another, with the tree so far as an argument
(`Parse.chain`). In the grammar what follows an operand is a phrase of its own, `Phrase.more`, and
its rules have the tree so far as an index; so soundness and completeness of a chain are inductions
on the bound of the chain and on the derivation, with one operator and one operand for each step
(`chain_sound`, `chain_complete`). The bound is greater than the number of operators that may be
counted. A chain that is cut short by it would have failed before, at the operator that is one too
many.

The count goes on from whatever was counted before in the same statement. This is why the number of
operators appears as a sum in every statement here, and never as the count of one phrase.
-/

namespace KannadaScript

open Grammar

/-! ### Single steps -/

theorem Reader.current_lexeme (r : Reader) : r.current.lexeme = lookahead r.pending := by
  rcases r with ⟨_ | ⟨t, ts⟩, line, k⟩ <;> rfl

namespace Parse

@[simp] theorem peek_apply (r : Reader) : peek r = .ok r.current r := rfl

theorem demand_cons {d : Demand} {t : Token} {ts : List Token} {line k : Nat}
    (h : t.lexeme = .mark d.mark) : demand d ⟨t :: ts, line, k⟩ = .ok t ⟨ts, line, k⟩ := by
  show (if t.lexeme = .mark d.mark then take else throw _) (⟨t :: ts, line, k⟩ : Reader) = _
  rw [if_pos h]
  rfl

/-- A demand that is met has taken its mark. -/
theorem demand_sound {d : Demand} {pending : List Token} {line k : Nat} {t : Token} {r' : Reader}
    (h : demand d ⟨pending, line, k⟩ = .ok t r') :
    ∃ ts, pending = t :: ts ∧ t.lexeme = .mark d.mark ∧ r' = ⟨ts, line, k⟩ := by
  obtain ⟨u, r, hu, h⟩ := Step.bind_eq_ok_iff.1 h
  cases hu
  split at h
  case isTrue hmark =>
    rcases pending with _ | ⟨t', ts⟩
    · cases hmark
    · cases h
      exact ⟨ts, rfl, hmark, rfl⟩
  case isFalse => cases h

/-- One more operator is counted while there is room. -/
theorem countOperator_apply {line line' k : Nat} {ts : List Token} (hk : k + 1 ≤ maxOperators) :
    countOperator line' ⟨ts, line, k⟩ = .ok ⟨⟩ ⟨ts, line, k + 1⟩ := by
  show (if maxOperators < k + 1 then throw _ else pure _ : Parse Unit)
    (⟨ts, line, k + 1⟩ : Reader) = _
  rw [if_neg (by omega)]
  rfl

/-- The first operator too many is an error, at its own line. -/
theorem countOperator_of_lt {line line' k : Nat} {ts : List Token} (hk : maxOperators < k + 1) :
    countOperator line' ⟨ts, line, k⟩ = .error ⟨.tooManyOperators, line'⟩ ⟨ts, line, k + 1⟩ := by
  show (if maxOperators < k + 1 then throw _ else pure _ : Parse Unit)
    (⟨ts, line, k + 1⟩ : Reader) = _
  rw [if_pos hk]
  rfl

theorem countOperator_sound {line line' k : Nat} {ts : List Token} {r' : Reader}
    (h : countOperator line' ⟨ts, line, k⟩ = .ok ⟨⟩ r') :
    k + 1 ≤ maxOperators ∧ r' = ⟨ts, line, k + 1⟩ := by
  by_cases hk : k + 1 ≤ maxOperators
  · rw [countOperator_apply hk] at h
    cases h
    exact ⟨hk, rfl⟩
  · rw [countOperator_of_lt (Nat.lt_of_not_le hk)] at h
    cases h

/-! ### Primary phrases and factors -/

/-- `p` reads the phrases of kind `ph` that have fewer than `bound` brackets open at a time. -/
structure Reads (bound : Nat) (ph : Phrase) (p : Parse Node) : Prop where
  /-- What is read is a phrase, and stays within the limits. -/
  sound : ∀ {pending : List Token} {line k : Nat} {n : Node} {r' : Reader},
    p ⟨pending, line, k⟩ = .ok n r' → k ≤ maxOperators →
      ∃ ts rest, pending = ts ++ rest ∧ r' = ⟨rest, line, k + n.operatorCount⟩ ∧
        Derives ph ts n ∧ peak ts < bound ∧ k + n.operatorCount ≤ maxOperators
  /-- A phrase that stays within the limits is read whole. -/
  complete : ∀ {ts rest : List Token} {line k : Nat} {n : Node},
    Derives ph ts n → peak ts < bound → Stops ph.level rest →
      k + n.operatorCount ≤ maxOperators →
        p ⟨ts ++ rest, line, k⟩ = .ok n ⟨rest, line, k + n.operatorCount⟩

/-- Nothing is read where no bracket may be open. -/
theorem reads_refuseNesting (ph : Phrase) (line : Nat) : Reads 0 ph (refuseNesting line) where
  sound h _ := by cases h
  complete _ hpeak := absurd hpeak (Nat.not_lt_zero _)

/-- A leaf is read as itself. -/
theorem primary_of_leaf {inside : Nat → Parse Node} {t : Token} {n : Node} (h : leaf? t = some n)
    (ts : List Token) (line k : Nat) :
    primary inside ⟨t :: ts, line, k⟩ = .ok n ⟨ts, line, k⟩ := by
  rcases t with ⟨l, tline⟩
  cases l with
  | keyword w => cases w <;> cases h <;> rfl
  | _ => cases h <;> rfl

theorem operatorCount_of_leaf {t : Token} {n : Node} (h : leaf? t = some n) :
    n.operatorCount = 0 := by
  rcases t with ⟨l, tline⟩
  cases l with
  | keyword w => cases w <;> cases h <;> rfl
  | _ => cases h <;> rfl

/-- The parser of a parenthesised expression, its opening parenthesis consumed. -/
def parenthesised (inside : Parse Node) : Parse Node := do
  let e ← inside
  let _ ← demand .parenEnd
  pure e

/-- Behind a parenthesis an expression is read, and then the parenthesis that closes it. -/
theorem primary_of_openParen {inside : Nat → Parse Node} {t : Token}
    (h : t.lexeme = .mark .openParen) (ts : List Token) (line k : Nat) :
    primary inside ⟨t :: ts, line, k⟩ = parenthesised (inside t.line) ⟨ts, line, k⟩ := by
  rcases t with ⟨l, tline⟩
  cases h
  rfl

/-- The lexemes that a primary phrase starts with. -/
def startsPrimary : Lexeme → Bool
  | .number _ | .quoted _ | .name _ | .keyword .trueWord | .keyword .falseWord
  | .mark .openParen => true
  | _ => false

/-- A primary phrase starts as a leaf or with a parenthesis. -/
theorem startsPrimary_cases {t : Token} (h : startsPrimary t.lexeme = true) :
    (∃ n, leaf? t = some n) ∨ t.lexeme = .mark .openParen := by
  rcases t with ⟨l, line⟩
  cases l with
  | keyword w => cases w <;> cases h <;> exact .inl ⟨_, rfl⟩
  | mark m =>
    cases m <;> cases h
    exact .inr rfl
  | _ => cases h <;> exact .inl ⟨_, rfl⟩

/-- A lexeme that starts no primary phrase is refused, and taken. -/
theorem primary_of_not_starts {inside : Nat → Parse Node} {pending : List Token}
    (h : startsPrimary (lookahead pending) = false) (line k : Nat) :
    primary inside ⟨pending, line, k⟩ = .error ⟨.notAnOperand (lookahead pending),
      (pending.headD ⟨.endOfFile, line⟩).line⟩ ⟨pending.tail, line, k⟩ := by
  rcases pending with - | ⟨⟨l, tline⟩, ts⟩
  · rfl
  · cases l with
    | keyword w => cases w <;> cases h <;> rfl
    | mark m => cases m <;> cases h <;> rfl
    | _ => cases h <;> rfl

/-- A primary phrase is a leaf or starts with a parenthesis. -/
theorem primary_cases {inside : Nat → Parse Node} {pending : List Token} {line k : Nat} {n : Node}
    {r' : Reader} (h : primary inside ⟨pending, line, k⟩ = .ok n r') :
    ∃ t ts, pending = t :: ts ∧ (leaf? t = some n ∨ t.lexeme = .mark .openParen) := by
  cases hstart : startsPrimary (lookahead pending) with
  | false =>
    rw [primary_of_not_starts hstart] at h
    cases h
  | true =>
    rcases pending with - | ⟨t, ts⟩
    · cases hstart
    rcases startsPrimary_cases hstart with ⟨m, hleaf⟩ | hopen
    · rw [primary_of_leaf hleaf] at h
      cases h
      exact ⟨t, ts, rfl, .inl hleaf⟩
    · exact ⟨t, ts, rfl, .inr hopen⟩

/-- Primary phrases are read if expressions are, with one bracket more. -/
theorem reads_primary {bound : Nat} {inside : Nat → Parse Node}
    (hi : ∀ line, Reads bound (.joined .equality) (inside line)) :
    Reads (bound + 1) .primary (primary inside) where
  sound := by
    intro pending line k n r' h hk
    obtain ⟨t, ts, rfl, hleaf | hopen⟩ := primary_cases h
    · rw [primary_of_leaf hleaf] at h
      cases h
      refine ⟨[t], ts, rfl, by rw [operatorCount_of_leaf hleaf]; rfl, .leaf hleaf, ?_, ?_⟩
      · rw [peak_neutral rfl (leaf?_neutral hleaf).1 (leaf?_neutral hleaf).2]
        exact Nat.succ_pos _
      · rw [operatorCount_of_leaf hleaf]
        exact hk
    · rw [primary_of_openParen hopen] at h
      obtain ⟨e, r₁, he, h⟩ := Step.bind_eq_ok_iff.1 h
      obtain ⟨c, r₂, hc, h⟩ := Step.bind_eq_ok_iff.1 h
      cases h
      obtain ⟨ts, rest, rfl, rfl, hd, hpeak, hcount⟩ := (hi t.line).sound he hk
      obtain ⟨rest, rfl, hclose, rfl⟩ := demand_sound hc
      refine ⟨t :: ts ++ [c], rest, by simp, rfl, .paren hopen hd hclose, ?_, hcount⟩
      rw [hd.balanced.peak_bracket hopen rfl hclose rfl]
      exact Nat.succ_lt_succ hpeak
  complete := by
    intro ts rest line k n h hpeak hstops hcount
    cases h with
    | leaf hleaf =>
      rw [operatorCount_of_leaf hleaf]
      exact primary_of_leaf hleaf _ _ _
    | @paren o c ts n ho inside' hc =>
      rw [inside'.balanced.peak_bracket ho rfl hc rfl] at hpeak
      rw [List.append_assoc, List.cons_append, primary_of_openParen ho]
      refine (Step.bind_of_ok ((hi o.line).complete inside' (Nat.lt_of_succ_lt_succ hpeak)
        (stops_closeParen hc rest _) hcount)).trans ?_
      exact Step.bind_of_ok (demand_cons hc)

/-- A minus sign negates the primary phrase behind it. -/
theorem factor_of_minus {inside : Nat → Parse Node} {t : Token} (ht : t.lexeme = .mark .minus)
    (ts : List Token) (line k : Nat) : factor inside ⟨t :: ts, line, k⟩ =
      (primary inside >>= fun n ↦ pure (.negate t.line n)) ⟨ts, line, k⟩ := by
  refine (Step.bind_of_ok (peek_apply _)).trans ?_
  rw [if_pos (show (Reader.current ⟨t :: ts, line, k⟩).lexeme = _ from ht)]
  rfl

theorem factor_of_ne {inside : Nat → Parse Node} {r : Reader}
    (h : lookahead r.pending ≠ .mark .minus) : factor inside r = primary inside r := by
  refine (Step.bind_of_ok (peek_apply r)).trans ?_
  rw [if_neg (by rw [r.current_lexeme]; exact h)]

/-- Factors are read if primary phrases are. -/
theorem reads_factor {bound : Nat} {inside : Nat → Parse Node}
    (hp : Reads bound .primary (primary inside)) : Reads bound .factor (factor inside) where
  sound := by
    intro pending line k n r' h hk
    by_cases hminus : lookahead pending = .mark .minus
    · rcases pending with _ | ⟨t, pending⟩
      · cases hminus
      · rw [factor_of_minus hminus] at h
        obtain ⟨m, r₁, hm, h⟩ := Step.bind_eq_ok_iff.1 h
        cases h
        obtain ⟨ts, rest, rfl, rfl, hd, hpeak, hcount⟩ := hp.sound hm hk
        refine ⟨t :: ts, rest, rfl, rfl, .negated hminus hd, ?_, hcount⟩
        rw [peak_neutral hminus rfl rfl]
        exact hpeak
    · rw [factor_of_ne hminus] at h
      obtain ⟨ts, rest, hts, hr, hd, hlimits⟩ := hp.sound h hk
      exact ⟨ts, rest, hts, hr, .plain hd, hlimits⟩
  complete := by
    intro ts rest line k n h hpeak hstops hcount
    cases h with
    | plain hd =>
      rw [factor_of_ne (hd.lookahead_primary rest)]
      exact hp.complete hd hpeak hstops hcount
    | @negated t ts n ht hd =>
      rw [peak_neutral ht rfl rfl] at hpeak
      rw [List.cons_append, factor_of_minus ht]
      exact Step.bind_of_ok (hp.complete hd hpeak hstops hcount)

/-! ### Tiers -/

/-- The operators of a tier, as lexemes. -/
def operatorOf : Tier → Lexeme → Option BinaryOp
  | .equality => equality
  | .additive => additive
  | .multiplicative => multiplicative

/-- The operators of a tier are those of its precedence. -/
theorem operatorOf_eq_some_iff (tier : Tier) (l : Lexeme) (op : BinaryOp) :
    operatorOf tier l = some op ↔ l = .mark op.mark ∧ op.precedence = tier.precedence := by
  cases l with
  | mark m => cases tier <;> cases m <;> cases op <;> decide
  | _ => cases tier <;> simp [operatorOf, equality, additive, multiplicative]

/-- Where no operator of the tier follows, the chain is at its end. -/
theorem chain_of_no_operator {tier : Tier} {p : Parse Node} {rest : List Token}
    (h : ∀ op : BinaryOp, lookahead rest = .mark op.mark → op.precedence ≠ tier.precedence)
    (bound : Nat) (l : Node) (line k : Nat) :
    chain (operatorOf tier) p bound l ⟨rest, line, k⟩ = .ok l ⟨rest, line, k⟩ := by
  cases bound with
  | zero => rfl
  | succ bound =>
    refine (Step.bind_of_ok (peek_apply _)).trans ?_
    rw [Reader.current_lexeme]
    cases hop : operatorOf tier (lookahead rest) with
    | none => rfl
    | some op =>
      obtain ⟨hmark, hprec⟩ := (operatorOf_eq_some_iff _ _ _).1 hop
      exact absurd hprec (h op hmark)

/-- One turn of the chain, at an operator. -/
theorem chain_of_operator {tier : Tier} {p : Parse Node} {t : Token} {op : BinaryOp}
    (ht : t.lexeme = .mark op.mark) (hop : op.precedence = tier.precedence) (bound : Nat)
    (l : Node) (ts : List Token) (line k : Nat) :
    chain (operatorOf tier) p (bound + 1) l ⟨t :: ts, line, k⟩ =
      (countOperator t.line >>= fun _ ↦ p >>= fun r ↦
        chain (operatorOf tier) p bound (.binary t.line op l r)) ⟨ts, line, k⟩ := by
  refine (Step.bind_of_ok (peek_apply _)).trans ?_
  have hsome : operatorOf tier (Reader.current ⟨t :: ts, line, k⟩).lexeme = some op :=
    (operatorOf_eq_some_iff _ _ _).2 ⟨ht, hop⟩
  rw [hsome]
  rfl

/-- Every turn of a chain reads an operator and an operand. -/
theorem chain_sound {tier : Tier} {levels : Nat} {p : Parse Node}
    (hp : Reads (levels + 1) (operand tier) p) {bound : Nat} {l n : Node} {pending : List Token}
    {line k : Nat} {r' : Reader}
    (h : chain (operatorOf tier) p bound l ⟨pending, line, k⟩ = .ok n r') (hk : k ≤ maxOperators) :
    ∃ ts rest k', pending = ts ++ rest ∧ r' = ⟨rest, line, k'⟩ ∧ Derives (.more tier l) ts n ∧
      peak ts < levels + 1 ∧ k' ≤ maxOperators ∧ k' + l.operatorCount = k + n.operatorCount := by
  induction bound generalizing l pending k with
  | zero =>
    cases h
    exact ⟨[], pending, k, rfl, rfl, .done, Nat.succ_pos _, hk, rfl⟩
  | succ bound ih =>
    by_cases hop : ∃ op : BinaryOp, lookahead pending = .mark op.mark ∧
        op.precedence = tier.precedence
    · obtain ⟨op, ht, hop⟩ := hop
      rcases pending with _ | ⟨t, pending⟩
      · cases ht
      · rw [chain_of_operator ht hop] at h
        obtain ⟨_, r₁, hc, h⟩ := Step.bind_eq_ok_iff.1 h
        obtain ⟨hk₁, rfl⟩ := countOperator_sound hc
        obtain ⟨m, r₂, hm, h⟩ := Step.bind_eq_ok_iff.1 h
        obtain ⟨ts, rest, rfl, rfl, hd, hpeak, hk₂⟩ := hp.sound hm hk₁
        obtain ⟨ts', rest, k', rfl, rfl, hmore, hpeak', hk', hcount⟩ := ih h hk₂
        refine ⟨t :: ts ++ ts', rest, k', by simp, rfl, .more ht hop hd hmore, ?_, hk', ?_⟩
        · rw [peak_operator ht hd.balanced]
          exact max_lt hpeak hpeak'
        · rw [Node.operatorCount] at hcount
          omega
    · rw [chain_of_no_operator (fun op ht hprec ↦ hop ⟨op, ht, hprec⟩)] at h
      cases h
      exact ⟨[], pending, k, rfl, rfl, .done, Nat.succ_pos _, hk, rfl⟩

/-- The number of operators in the tree that a phrase continues. -/
def operatorsGiven : Phrase → Nat
  | .more _ left => left.operatorCount
  | _ => 0

/-- Folding operands onto a tree adds operators to it. -/
theorem operatorsGiven_le {ph : Phrase} {ts : List Token} {n : Node} (h : Derives ph ts n) :
    operatorsGiven ph ≤ n.operatorCount := by
  induction h with
  | done => exact le_rfl
  | more ht hop next rest ih ih' =>
    rw [operatorsGiven, Node.operatorCount] at ih'
    rw [operatorsGiven]
    omega
  | _ => exact Nat.zero_le _

/-- The operators and operands of a chain are all read, if the bound exceeds their number. -/
theorem chain_complete {tier : Tier} {levels : Nat} {p : Parse Node}
    (hp : Reads levels (operand tier) p) (bound : Nat) {l n : Node} {ts rest : List Token}
    {line k : Nat} (h : Derives (.more tier l) ts n) (hpeak : peak ts < levels)
    (hstops : Stops tier.precedence rest)
    (hcount : k + n.operatorCount ≤ maxOperators + l.operatorCount)
    (hbound : maxOperators < k + bound) : ∃ k', k' + l.operatorCount = k + n.operatorCount ∧
      chain (operatorOf tier) p bound l ⟨ts ++ rest, line, k⟩ = .ok n ⟨rest, line, k'⟩ := by
  -- Not on the derivation, whose index `.more tier l` is no variable. Each turn takes one from the
  -- bound and adds one to the count, so a bound of zero would mean a count beyond the limit.
  induction bound generalizing l ts k with
  | zero =>
    have hle : l.operatorCount ≤ n.operatorCount := operatorsGiven_le h
    omega
  | succ bound ih =>
    cases h with
    | done =>
      exact ⟨k, rfl, chain_of_no_operator (fun op hop ↦ (hstops op hop).ne) _ _ _ _⟩
    | @more _ t op ts ts' _ m _ ht hop next more =>
      have hle : l.operatorCount + m.operatorCount + 1 ≤ n.operatorCount := operatorsGiven_le more
      rw [peak_operator ht next.balanced, max_lt_iff] at hpeak
      obtain ⟨k', hk', hrun⟩ := ih (k := k + 1 + m.operatorCount) more hpeak.2
        (by rw [Node.operatorCount]; omega) (by omega)
      rw [Node.operatorCount] at hk'
      refine ⟨k', by omega, ?_⟩
      rw [List.cons_append, List.cons_append, chain_of_operator ht hop, List.append_assoc]
      refine (Step.bind_of_ok (countOperator_apply (by omega))).trans ?_
      refine (Step.bind_of_ok (hp.complete next hpeak.1 ?_ (by omega))).trans hrun
      rw [level_operand]
      exact more.stops_more hstops

/-- A tier is read if its operands are. -/
theorem reads_joined {tier : Tier} {levels : Nat} {p : Parse Node}
    (hp : Reads (levels + 1) (operand tier) p) :
    Reads (levels + 1) (.joined tier) (joined (operatorOf tier) p) where
  sound := by
    intro pending line k n r' h hk
    obtain ⟨l, r₁, hl, h⟩ := Step.bind_eq_ok_iff.1 h
    obtain ⟨ts, rest, rfl, rfl, hd, hpeak, hk₁⟩ := hp.sound hl hk
    obtain ⟨ts', rest, k', rfl, rfl, hmore, hpeak', hk', hcount⟩ := chain_sound hp h hk₁
    -- the chain counts its operators on top of those of the first operand
    obtain rfl : k' = k + n.operatorCount := by omega
    refine ⟨ts ++ ts', rest, (List.append_assoc _ _ _).symm, rfl, .joined hd hmore, ?_, hk'⟩
    rw [hd.balanced]
    exact max_lt hpeak hpeak'
  complete := by
    intro ts rest line k n h hpeak hstops hcount
    cases h with
    | @joined _ ts ts' l _ first more =>
      rw [first.balanced, max_lt_iff] at hpeak
      have hle : l.operatorCount ≤ n.operatorCount := operatorsGiven_le more
      have hstart : p ⟨ts ++ (ts' ++ rest), line, k⟩ =
          .ok l ⟨ts' ++ rest, line, k + l.operatorCount⟩ :=
        hp.complete first hpeak.1 (by rw [level_operand]; exact more.stops_more hstops) (by omega)
      obtain ⟨k', hk', hrun⟩ := chain_complete hp (k := k + l.operatorCount)
        (maxOperators + 1) more hpeak.2 hstops (by omega) (by omega)
      obtain rfl : k' = k + n.operatorCount := by omega
      rw [List.append_assoc]
      exact (Step.bind_of_ok hstart).trans hrun

/-- Expressions are read if those inside their parentheses are: the tiers in a row. -/
theorem reads_expressionWith {bound : Nat} {inside : Nat → Parse Node}
    (hi : ∀ line, Reads bound (.joined .equality) (inside line)) :
    Reads (bound + 1) (.joined .equality) (expressionWith inside) :=
  @reads_joined .equality _ _ <| @reads_joined .additive _ _ <|
    @reads_joined .multiplicative _ _ (reads_factor (reads_primary hi))

/-- Expressions are read as deep as their parser allows. -/
theorem reads_expression (levels : Nat) :
    Reads (levels + 1) (.joined .equality) (expression levels) := by
  induction levels with
  | zero => exact reads_expressionWith (reads_refuseNesting _)
  | succ levels ih => exact reads_expressionWith fun _ ↦ ih

end Parse

end KannadaScript
