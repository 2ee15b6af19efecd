import KannadaScript.Proofs.Code.Retelling

/-!
# Written code is derived by the grammar

The lexemes of written code derive the tree that was written, up to its lines and with a minus sign
for its negative numbers. Lines are lost because the code has its own; and a number with a sign is
written as two lexemes, which read as the negation of a number (`Node.signed`).

Parentheses are written exactly where an operand binds too loosely for its place. To say this once
for all places, phrases have levels (`Grammar.atLevel`), a tree has the level at which its own
operator stands (`Node.level`), and every place in a tree asks for some level: the left operand of
an operator for that of the operator, the right one for the next, and what is negated for the
tightest. Where no parentheses are written the tree has at least the level of its place
(`level_of_not_wrapsLeft` and its companions), and phrases may always stand in looser places
(`Derives.loosenTo`). Chains of one tier grow at their right end (`Derives.snoc`), as trees of
operators that associate to the left do.

Main statements: `Node.exists_derives` and `Node.exists_statement`, for any tokens with these
lexemes on whatever lines. They are proved by induction on the tree and give some derived tree,
since the tokens bring lines that are not those of the tree.
-/

namespace KannadaScript

/-! ### Levels -/

namespace Grammar

/-- The phrases by how tightly they bind, loosest first. -/
def atLevel : Nat → Phrase
  | 0 | 1 => .joined .equality
  | 2 => .joined .additive
  | 3 => .joined .multiplicative
  | 4 => .factor
  | _ => .primary

/-- A phrase stands wherever a looser one may. -/
theorem Derives.loosen {k : Nat} {ts : List Token} {n : Node} (h : Derives (atLevel (k + 1)) ts n) :
    Derives (atLevel k) ts n := by
  have one {tier : Tier} {ts : List Token} {n : Node} (h : Derives (operand tier) ts n) :
      Derives (.joined tier) ts n := by
    rw [← List.append_nil ts]
    exact .joined h .done
  match k with
  | 0 => exact h
  | 1 => exact @one .equality _ _ h
  | 2 => exact @one .additive _ _ h
  | 3 => exact @one .multiplicative _ _ h
  | 4 => exact .plain h
  | k + 5 => exact h

/-- A phrase of some level is a phrase of every looser one. -/
theorem Derives.loosenTo {j k : Nat} {ts : List Token} {n : Node} (h : Derives (atLevel j) ts n)
    (hk : k ≤ j) : Derives (atLevel k) ts n := by
  induction hk with
  | refl => exact h
  | step _ ih => exact ih h.loosen

/-- Operators join from the left: one more may follow a joined phrase. -/
theorem Derives.snoc {tier : Tier} {op : BinaryOp} {t : Token} {ts ts' : List Token} {l r : Node}
    (h : Derives (.joined tier) ts l) (ht : t.lexeme = .mark op.mark)
    (hop : op.precedence = tier.precedence) (hr : Derives (operand tier) ts' r) :
    Derives (.joined tier) (ts ++ t :: ts') (.binary t.line op l r) := by
  have more {ph : Phrase} {ts : List Token} {n : Node} (h : Derives ph ts n) :
      ∀ left, ph = .more tier left →
        Derives (.more tier left) (ts ++ t :: ts') (.binary t.line op n r) := by
    induction h with
    | @done _ n =>
      rintro left hph
      cases hph
      have := Derives.more ht hop hr (.done (n := .binary t.line op n r))
      rwa [List.append_nil] at this
    | more ht' hop' next rest ih ih' =>
      rintro left hph
      cases hph
      rw [List.append_assoc]
      exact .more ht' hop' next (ih' _ rfl)
    | _ => exact nofun
  cases h with
  | joined first rest =>
    rw [List.append_assoc]
    exact .joined first (more rest _ rfl)

end Grammar

/-- The tier of an operator. -/
def BinaryOp.tier : BinaryOp → Tier
  | .eq => .equality
  | .add | .sub => .additive
  | .mul | .div => .multiplicative

namespace BinaryOp

theorem precedence_tier (op : BinaryOp) : op.precedence = op.tier.precedence := by
  cases op <;> rfl

/-- The level of an operator is that of its tier. -/
theorem atLevel_precedence (op : BinaryOp) : Grammar.atLevel op.precedence = .joined op.tier := by
  cases op <;> rfl

/-- One level above an operator stand its right operands. -/
theorem atLevel_precedence_succ (op : BinaryOp) :
    Grammar.atLevel (op.precedence + 1) = Grammar.operand op.tier := by
  cases op <;> rfl

theorem precedence_le (op : BinaryOp) : op.precedence ≤ 3 := by
  cases op <;> decide

end BinaryOp

namespace Node

/-- The level at which a tree is written without parentheses. -/
def level : Node → Nat
  | .binary _ op _ _ => op.precedence
  | .negate _ _ => 4
  | .number _ v => if v < 0 then 4 else 5
  | _ => 5

/-- A left operand without parentheses binds at least as tightly as its operator. -/
theorem level_of_not_wrapsLeft {op : BinaryOp} {n : Node} (h : n.wrapsLeft op = false) :
    op.precedence ≤ n.level := by
  have hop := op.precedence_le
  cases n with
  | binary _ inner a b =>
    rw [level]
    simpa [wrapsLeft] using h
  | number _ v =>
    have hv : ¬ v < 0 := by simpa [wrapsLeft] using h
    rw [level, if_neg hv]
    omega
  | negate _ _ =>
    show op.precedence ≤ 4
    omega
  | _ =>
    show op.precedence ≤ 5
    omega

/-- A right operand without parentheses binds more tightly than its operator. -/
theorem level_of_not_wrapsRight {op : BinaryOp} {n : Node} (h : n.wrapsRight op = false) :
    op.precedence + 1 ≤ n.level := by
  have hop := op.precedence_le
  cases n with
  | binary _ inner a b =>
    rw [level]
    simpa [wrapsRight] using h
  | number _ v =>
    have hv : ¬ v < 0 := by simpa [wrapsRight] using h
    rw [level, if_neg hv]
    omega
  | negate _ _ =>
    show op.precedence + 1 ≤ 4
    omega
  | _ =>
    show op.precedence + 1 ≤ 5
    omega

/-- What stands behind a minus sign without parentheses has no operator of its own. -/
theorem level_of_not_wrapsNegated {n : Node} (h : n.wrapsNegated = false) : 5 ≤ n.level := by
  cases n with
  | binary _ inner a b => cases h
  | negate _ a => cases h
  | number _ v =>
    have hv : ¬ v < 0 := by simpa [wrapsNegated] using h
    rw [level, if_neg hv]
  | _ => exact le_rfl

/-! ### Expressions -/

open Code Grammar

/-- A number without its sign is read as the number or its negation. -/
theorem ofNat_natAbs (v : Int32) : Int32.ofNat v.toInt.natAbs = if v < 0 then -v else v := by
  have hsign : v < 0 ↔ v.toInt < 0 := Int32.lt_iff_toInt_lt
  have hofInt : Int32.ofNat v.toInt.natAbs = Int32.ofInt (v.toInt.natAbs : Int) :=
    (Int32.ofInt_eq_ofNat).symm
  by_cases hv : v < 0
  · have habs : (v.toInt.natAbs : Int) = -v.toInt := by
      have := hsign.1 hv
      omega
    rw [if_pos hv, hofInt, habs, Int32.ofInt_neg, Int32.ofInt_toInt]
  · have habs : (v.toInt.natAbs : Int) = v.toInt := by
      have := mt hsign.2 hv
      omega
    rw [if_neg hv, hofInt, habs, Int32.ofInt_toInt]

theorem lexemesOf_wrapped (atoms : List Atom) : lexemesOf (wrappedAtoms true atoms) =
    .mark .openParen :: (lexemesOf atoms ++ [.mark .closeParen]) := by
  simp [wrappedAtoms, Atom.lexeme?]

/-- Parentheses bring a tree to any level. -/
theorem exists_derives_wrapped {atoms : List Atom} {target : Node} {j k : Nat} {wrap : Bool}
    (hwrap : wrap = false → k ≤ j) (hk : k ≤ 5)
    (inner : ∀ {ts : List Token}, ts.map Token.lexeme = lexemesOf atoms →
      ∃ q : Node, q.unlined = target ∧ Derives (atLevel j) ts q)
    {ts : List Token} (hts : ts.map Token.lexeme = lexemesOf (wrappedAtoms wrap atoms)) :
    ∃ q : Node, q.unlined = target ∧ Derives (atLevel k) ts q := by
  cases wrap with
  | false =>
    obtain ⟨q, hq, hd⟩ := inner hts
    exact ⟨q, hq, hd.loosenTo (hwrap rfl)⟩
  | true =>
    rw [lexemesOf_wrapped] at hts
    obtain ⟨o, ts, rfl, ho, hts⟩ := List.map_eq_cons_iff.1 hts
    obtain ⟨ts, cs, rfl, hinner, hcs⟩ := List.map_eq_append_iff.1 hts
    obtain ⟨c, cs, rfl, hc, hcs⟩ := List.map_eq_cons_iff.1 hcs
    obtain rfl := List.map_eq_nil_iff.1 hcs
    obtain ⟨q, hq, hd⟩ := inner hinner
    -- inside parentheses any level will do, and a parenthesis binds tightest
    have hparen : Derives (atLevel 5) (o :: ts ++ [c]) q :=
      .paren ho (hd.loosenTo (k := 0) (Nat.zero_le _)) hc
    exact ⟨q, hq, hparen.loosenTo hk⟩

/-- **Expressions read back.** Tokens with the lexemes of a written expression derive it. -/
theorem exists_derives (n : Node) (h : n.isExpression = true) {ts : List Token}
    (hts : ts.map Token.lexeme = lexemesOf n.expressionAtoms) :
    ∃ q : Node, q.unlined = n.signed.unlined ∧ Derives (atLevel n.level) ts q := by
  match n with
  | .binary _ op a b =>
    rw [isExpression, Bool.and_eq_true] at h
    simp only [expressionAtoms, lexemesOf_append, lexemesOf_cons] at hts
    obtain ⟨ts, us, rfl, ha, hus⟩ := List.map_eq_append_iff.1 hts
    obtain ⟨t, us, rfl, ht, hb⟩ := List.map_eq_cons_iff.1 hus
    -- The left operand may stand at the operator's own level, since operators join from the
    -- left; the right one has to bind tighter.
    obtain ⟨l, hl, hdl⟩ := exists_derives_wrapped level_of_not_wrapsLeft
      (op.precedence_le.trans (by decide)) (exists_derives a h.1) ha
    obtain ⟨r, hr, hdr⟩ := exists_derives_wrapped level_of_not_wrapsRight
      (Nat.succ_le_succ (op.precedence_le.trans (by decide))) (exists_derives b h.2) hb
    rw [op.atLevel_precedence] at hdl
    rw [op.atLevel_precedence_succ] at hdr
    refine ⟨.binary t.line op l r, ?_, ?_⟩
    · rw [unlined, signed, unlined, hl, hr]
    · rw [level, op.atLevel_precedence]
      exact hdl.snoc ht op.precedence_tier hdr
  | .negate _ a =>
    rw [isExpression] at h
    simp only [expressionAtoms, lexemesOf_cons] at hts
    obtain ⟨t, ts, rfl, ht, ha⟩ := List.map_eq_cons_iff.1 hts
    obtain ⟨q, hq, hd⟩ := exists_derives_wrapped level_of_not_wrapsNegated le_rfl
      (exists_derives a h) ha
    exact ⟨.negate t.line q, by rw [unlined, signed, unlined, hq], .negated ht hd⟩
  | .number _ v =>
    have hvalue := ofNat_natAbs v
    rw [expressionAtoms] at hts
    rw [level, signed]
    -- a negative number is written as a minus sign and digits, two tokens
    by_cases hv : v < 0
    · simp only [if_pos hv] at hts hvalue ⊢
      obtain ⟨t, ts, rfl, ht, hts⟩ := List.map_eq_cons_iff.1 hts
      obtain ⟨u, ts, rfl, hu, hts⟩ := List.map_eq_cons_iff.1 hts
      obtain rfl := List.map_eq_nil_iff.1 hts
      exact ⟨.negate t.line (.number u.line (-v)), rfl,
        .negated ht (.leaf (by rw [leaf?, hu, hvalue]))⟩
    · simp only [if_neg hv] at hts hvalue ⊢
      obtain ⟨t, ts, rfl, ht, hts⟩ := List.map_eq_cons_iff.1 hts
      obtain rfl := List.map_eq_nil_iff.1 hts
      exact ⟨.number t.line v, rfl, .leaf (by rw [leaf?, ht, hvalue])⟩
  | .var _ x =>
    obtain ⟨t, ts, rfl, ht, hts⟩ := List.map_eq_cons_iff.1 hts
    obtain rfl := List.map_eq_nil_iff.1 hts
    exact ⟨.var t.line x, rfl, .leaf (by rw [leaf?, ht])⟩
  | .quoted _ s =>
    obtain ⟨t, ts, rfl, ht, hts⟩ := List.map_eq_cons_iff.1 hts
    obtain rfl := List.map_eq_nil_iff.1 hts
    exact ⟨.quoted t.line s, rfl, .leaf (by rw [leaf?, ht])⟩
  | .truth _ b =>
    obtain ⟨t, ts, rfl, ht, hts⟩ := List.map_eq_cons_iff.1 hts
    obtain rfl := List.map_eq_nil_iff.1 hts
    exact ⟨.truth t.line b, rfl, .leaf (by cases b <;> rw [leaf?, ht] <;> rfl)⟩

/-! ### Statements -/

/-- An expression in parentheses is an expression. -/
theorem exists_expression (n : Node) (h : n.isExpression = true) {ts : List Token}
    (hts : ts.map Token.lexeme = lexemesOf (wrappedAtoms true n.expressionAtoms)) :
    ∃ q : Node, q.unlined = n.signed.unlined ∧ Expression ts q :=
  exists_derives_wrapped (k := 0) (fun _ ↦ Nat.zero_le _) (by decide) (exists_derives n h) hts

/-- The lexemes of a block, braces included. -/
def blockLexemes (width depth : Nat) (n : Node) : List Lexeme :=
  .mark .openBrace :: (lexemesOf (n.bodyAtoms width depth) ++ [.mark .closeBrace])

/-- The lexemes of a statement with a condition and a block. -/
theorem lexemesOf_headed (width depth : Nat) (k : Keyword) (cs bs rs : List Atom) :
    lexemesOf (headedAtoms width depth k cs bs rs) = .keyword k ::
      (lexemesOf (wrappedAtoms true cs) ++ .mark .openBrace :: (lexemesOf bs ++ lexemesOf rs)) := by
  simp [headedAtoms, enterAtoms, indentAtom, Atom.lexeme?, lexemesOf_wrapped]

/-- The two blocks of a conditional, with the word for the second between them. -/
theorem lexemesOf_ifElse (width depth l : Nat) (c t e : Node) :
    lexemesOf ((ifElse l c t e).statementAtoms width depth) = .keyword .ifWord ::
      (lexemesOf (wrappedAtoms true c.expressionAtoms) ++ (t.blockLexemes width depth ++
        .keyword .elseWord :: e.blockLexemes width depth)) := by
  rw [statementAtoms, lexemesOf_headed]
  simp [blockLexemes, elseAtoms, leaveAtoms, indentAtom, Atom.lexeme?]

theorem lexemesOf_print (width depth l : Nat) (v : Node) :
    lexemesOf ((print l v).statementAtoms width depth) = .keyword .printWord ::
      (lexemesOf (wrappedAtoms true v.expressionAtoms) ++ [.mark .semicolon]) := by
  simp [statementAtoms, indentAtom, Atom.lexeme?, lexemesOf_wrapped]

theorem lexemesOf_assign (width depth l : Nat) (x : String) (v : Node) :
    lexemesOf ((assign l x v).statementAtoms width depth) = .name x :: .mark .assign ::
      (lexemesOf v.expressionAtoms ++ [.mark .semicolon]) := by
  simp [statementAtoms, indentAtom, Atom.lexeme?]

mutual
/-- **Statements read back.** Tokens with the lexemes of a written statement derive it. -/
theorem exists_statement (width depth : Nat) (n : Node) (h : n.isStatement = true)
    {ts : List Token} (hts : ts.map Token.lexeme = lexemesOf (n.statementAtoms width depth)) :
    ∃ q : Node, q.unlined = n.signed.unlined ∧ Statement ts q := by
  match n with
  | .ifThen _ c t =>
    rw [isStatement, Bool.and_eq_true] at h
    rw [statementAtoms, lexemesOf_headed] at hts
    obtain ⟨k, ts, rfl, hk, hts⟩ := List.map_eq_cons_iff.1 hts
    obtain ⟨es, bs, rfl, hes, hbs⟩ := List.map_eq_append_iff.1 hts
    obtain ⟨qc, hqc, hc⟩ := exists_expression c h.1 hes
    obtain ⟨qt, hqt, ht⟩ := exists_block width depth t h.2 hbs
    exact ⟨.ifThen k.line qc qt, by rw [unlined, signed, unlined, hqc, hqt], .ifThen hk hc ht⟩
  | .ifElse _ c t e =>
    rw [isStatement, Bool.and_eq_true, Bool.and_eq_true] at h
    rw [lexemesOf_ifElse] at hts
    obtain ⟨k, ts, rfl, hk, hts⟩ := List.map_eq_cons_iff.1 hts
    obtain ⟨es, ts, rfl, hes, hts⟩ := List.map_eq_append_iff.1 hts
    obtain ⟨bs, ts, rfl, hbs, hts⟩ := List.map_eq_append_iff.1 hts
    obtain ⟨u, bs', rfl, hu, hbs'⟩ := List.map_eq_cons_iff.1 hts
    obtain ⟨qc, hqc, hc⟩ := exists_expression c h.1.1 hes
    obtain ⟨qt, hqt, ht⟩ := exists_block width depth t h.1.2 hbs
    obtain ⟨qe, hqe, he⟩ := exists_block width depth e h.2 hbs'
    refine ⟨.ifElse k.line qc qt qe, by rw [unlined, signed, unlined, hqc, hqt, hqe], ?_⟩
    rw [← List.append_assoc, ← List.cons_append, ← List.cons_append]
    exact .ifElse hk hc ht hu he
  | .loop _ c b =>
    rw [isStatement, Bool.and_eq_true] at h
    rw [statementAtoms, lexemesOf_headed] at hts
    obtain ⟨k, ts, rfl, hk, hts⟩ := List.map_eq_cons_iff.1 hts
    obtain ⟨es, bs, rfl, hes, hbs⟩ := List.map_eq_append_iff.1 hts
    obtain ⟨qc, hqc, hc⟩ := exists_expression c h.1 hes
    obtain ⟨qb, hqb, hb⟩ := exists_block width depth b h.2 hbs
    exact ⟨.loop k.line qc qb, by rw [unlined, signed, unlined, hqc, hqb], .loop hk hc hb⟩
  | .print _ v =>
    rw [isStatement] at h
    rw [lexemesOf_print] at hts
    obtain ⟨k, ts, rfl, hk, hts⟩ := List.map_eq_cons_iff.1 hts
    obtain ⟨es, ts, rfl, hes, hts⟩ := List.map_eq_append_iff.1 hts
    obtain ⟨e, ts, rfl, he, hts⟩ := List.map_eq_cons_iff.1 hts
    obtain rfl := List.map_eq_nil_iff.1 hts
    obtain ⟨q, hq, hv⟩ := exists_expression v h hes
    exact ⟨.print k.line q, by rw [unlined, signed, unlined, hq], .print hk hv he⟩
  | .assign _ x v =>
    rw [isStatement] at h
    rw [lexemesOf_assign] at hts
    obtain ⟨t, ts, rfl, ht, hts⟩ := List.map_eq_cons_iff.1 hts
    obtain ⟨a, ts, rfl, ha, hts⟩ := List.map_eq_cons_iff.1 hts
    obtain ⟨es, ts, rfl, hes, hts⟩ := List.map_eq_append_iff.1 hts
    obtain ⟨e, ts, rfl, he, hts⟩ := List.map_eq_cons_iff.1 hts
    obtain rfl := List.map_eq_nil_iff.1 hts
    obtain ⟨q, hq, hv⟩ := exists_derives v h hes
    exact ⟨.assign t.line x q, by rw [unlined, signed, unlined, hq],
      .assign ht ha (hv.loosenTo (k := 0) (Nat.zero_le _)) he⟩
/-- The lexemes of a block derive it, braces included. -/
theorem exists_block (width depth : Nat) (n : Node) (h : n.isBody = true) {ts : List Token}
    (hts : ts.map Token.lexeme = n.blockLexemes width depth) :
    ∃ q : Node, q.unlined = n.signed.unlined ∧ Block ts q := by
  match n with
  | .block _ ss =>
    rw [isBody] at h
    rw [blockLexemes, bodyAtoms] at hts
    obtain ⟨o, ts, rfl, ho, hts⟩ := List.map_eq_cons_iff.1 hts
    obtain ⟨ts, cs, rfl, hin, hcs⟩ := List.map_eq_append_iff.1 hts
    obtain ⟨c, cs, rfl, hc, hcs⟩ := List.map_eq_cons_iff.1 hcs
    obtain rfl := List.map_eq_nil_iff.1 hcs
    obtain ⟨qs, hqs, hs⟩ := exists_statements width (depth + 1) ss h hin
    exact ⟨.block o.line qs, by rw [unlined, signed, unlined, hqs], .mk ho hs hc⟩
/-- The lexemes of statements in a row derive them one by one. -/
theorem exists_statements (width depth : Nat) (ns : List Node) (h : areStatements ns = true)
    {ts : List Token} (hts : ts.map Token.lexeme = lexemesOf (statementsAtoms width depth ns)) :
    ∃ qs : List Node, unlinedAll qs = unlinedAll (signedAll ns) ∧ Statements ts qs := by
  match ns with
  | [] =>
    obtain rfl := List.map_eq_nil_iff.1 hts
    exact ⟨[], rfl, .nil⟩
  | n :: ns =>
    rw [areStatements, Bool.and_eq_true] at h
    rw [statementsAtoms, lexemesOf_append] at hts
    obtain ⟨ts, us, rfl, hts, hus⟩ := List.map_eq_append_iff.1 hts
    obtain ⟨q, hq, hfirst⟩ := exists_statement width depth n h.1 hts
    obtain ⟨qs, hqs, hmore⟩ := exists_statements width depth ns h.2 hus
    exact ⟨q :: qs, by rw [unlinedAll, signedAll, unlinedAll, hq, hqs], .cons hfirst hmore⟩
end

end Node

end KannadaScript
