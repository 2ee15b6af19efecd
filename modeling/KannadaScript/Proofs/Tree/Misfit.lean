import KannadaScript.Proofs.Tree.Blame

/-!
# The first token that cannot continue a program

Blame passes from expressions and blocks to statements, from statements to lists of them, and from
there to the whole token list. A statement needs no more than its first token to be known, so a
statement that agrees with the tokens read is of the same form (`Parse.Guarded`, `Parse.Valued`).

There are two forms. Conditionals and loops start with a word, a condition and a block; printing and
assignments end with a value and a semicolon. For each form it is said once how it blames, and the
statements of that form are instances: they differ in the tokens before the part and in the tree.
Only a second branch of a conditional is a case of its own, since a conditional is whole without it
(`else_behind`).

Behind a list of statements stands what ends it, a closing brace or the end of file, and any other
token is taken for the start of one more statement. So a list never fails by itself, and blame
passes through it by induction on the statements that were read (`statementsUpTo_blames`).

At the end the condition is about whole programs (`Offends`). The tokens before the refused one are
the beginning of some program, and together with it they are the beginning of none. An error about a
limit is different: there the tokens may well continue to a program, but to none that is read.

Main statement: unless a limit is at fault, a syntax error names the first token with which the
tokens before it cannot go on to any program.
-/

namespace KannadaScript

open Grammar

namespace Grammar

/-- Whether a conditional is closed is decided by the first of the tokens behind it. -/
theorem Closed.congr {n : Node} {rest rest' : List Token} (h : Closed n rest)
    (hsame : lookahead rest' = lookahead rest) : Closed n rest' :=
  fun l c b hn ↦ hsame ▸ h l c b hn

/-- What ends a list of statements is a question about one lexeme. -/
theorem Ends.congr {rest rest' : List Token} (h : Ends rest)
    (hsame : lookahead rest' = lookahead rest) : Ends rest' := by
  rwa [Ends, hsame]

end Grammar

namespace Parse

/-- The parser `p` reads what `D` derives, leaves what `Left` allows behind it, and blames where
what it reads cannot go on. -/
structure Pinpoints {α : Type} (bound : Nat) (D : List Token → α → Prop) (own : α → List Node)
    (Follows : List Token → Prop) (Left : α → List Token → Prop) (p : Parse α) : Prop
    extends Accepts bound D own Follows p where
  left : ∀ {pending : List Token} {line k : Nat} {a : α} {r' : Reader},
    p ⟨pending, line, k⟩ = .ok a r' → Left a r'.pending
  blames : ∀ {pending : List Token} {line k : Nat} {e : SyntaxError} {r' : Reader},
    p ⟨pending, line, k⟩ = .error e r' →
      Blames bound D Follows (fun a ↦ Modest (own a)) pending line e

/-- `p` reads blocks. -/
abbrev PinpointsBlock (bound : Nat) (p : Parse Node) : Prop :=
  Pinpoints bound Block Node.ownExpressions (fun _ ↦ True) (fun _ _ ↦ True) p

/-- `p` reads statements. -/
abbrev PinpointsStatement (bound : Nat) (p : Parse Node) : Prop :=
  Pinpoints bound Statement Node.ownExpressions (lookahead · ≠ .keyword .elseWord) Closed p

/-- `p` reads the statements of a block. -/
abbrev PinpointsInside (bound : Nat) (p : Parse (List Node)) : Prop :=
  Pinpoints bound Statements Node.ownExpressionsAll (lookahead · = .mark .closeBrace)
    (fun _ rest ↦ Ends rest) p

/-! ### Blocks -/

/-- The block that completes whatever misses one. -/
theorem block_nil {o : Token} (ho : o.lexeme = .mark .openBrace) :
    Block [o, ⟨.mark .closeBrace, 0⟩] (.block o.line []) :=
  .mk ho .nil rfl

/-- Behind its brace, a block has statements and another brace. -/
theorem block_behind {o : Token} {bs rest tail : List Token} {n : Node} (h : Block bs n)
    (heq : bs ++ rest = o :: tail) : ∃ ts ss c, Statements ts ss ∧ c.lexeme = .mark .closeBrace ∧
      ts ++ c :: rest = tail ∧ n.ownExpressions = Node.ownExpressionsAll ss := by
  obtain @⟨o', c, ts, ss, ho, hss, hc⟩ := h
  simp only [List.cons_append, List.append_assoc, List.cons.injEq] at heq
  exact ⟨ts, ss, c, hss, hc, heq.2, rfl⟩

/-- A block blames a brace of its own or what its inside blames. -/
theorem block_blames {bound : Nat} {inside : Nat → Parse (List Node)}
    (hi : Inner PinpointsInside bound inside) {pending : List Token} {line k : Nat}
    {e : SyntaxError} {r' : Reader} (h : block inside ⟨pending, line, k⟩ = .error e r') :
    Blames (bound + 1) Block (fun _ ↦ True) (fun n ↦ Modest n.ownExpressions) pending line e := by
  rcases Step.bind_eq_error_iff.1 h with h | ⟨o, r₁, ho, h⟩
  · -- at the opening brace
    refine (demand_blames h (bound + 1)).first ?_ ?_
    · rintro _ o ⟨rfl, ho⟩ -
      exact ⟨_, _, block_nil ho, modest_nil⟩
    · rintro _ rest _ ⟨ho, hss, hc⟩ - -
      exact ⟨_, _, _, ⟨rfl, ho⟩, trivial, rfl, fun _ ↦ trivial⟩
  · obtain ⟨ts, rfl, hopen, rfl⟩ := demand_sound ho
    have hopens : o.lexeme.opens = true := by rw [hopen]; rfl
    cases hi with
    | refused =>
      cases h
      exact Blames.bracket hopens (block_nil hopen) modest_nil
    | @read bound p hp =>
      rcases Step.bind_eq_error_iff.1 h with h | ⟨ss, r₂, hss, h⟩
      · -- inside the braces
        refine (hp.blames h).inside [o] ((lifts_nil _).opening hopens) ?_ ?_
        · intro ts ss hd hmodest
          exact ⟨[⟨.mark .closeBrace, 0⟩], _, .mk hopen hd rfl, hmodest⟩
        · intro bs rest tail n hd _ heq _
          obtain ⟨ts, ss, c, hd, hc, htail, hown⟩ := block_behind hd heq
          exact ⟨ts, c :: rest, ss, hd, hc, htail, fun hmodest ↦ hown ▸ hmodest⟩
      · -- at the closing brace
        have hends := hp.left hss
        obtain ⟨ts, rest, k', rfl, rfl, hts, hpeak, hmodest⟩ := hp.sound hss
        rcases Step.bind_eq_error_iff.1 h with h | ⟨c, r₃, hc, h⟩
        · refine (demand_blames h (bound + 1)).inside (o :: ts)
            ((lifts_of_balanced hts.balanced hpeak).opening hopens) ?_ ?_
          · rintro _ c ⟨rfl, hc⟩ -
            exact ⟨[], .block o.line ss, by simpa using Block.mk hopen hts hc, hmodest⟩
          · intro bs rest' tail n hd _ heq hl
            obtain ⟨ts', ss', c, hts', hc, htail, -⟩ := block_behind hd heq
            obtain ⟨rfl, -⟩ := hts'.unique hts htail (.inl hc) (hends.congr hl)
            exact ⟨[c], rest', c, ⟨rfl, hc⟩, trivial, List.append_cancel_left htail,
              fun _ ↦ trivial⟩
        · cases h

/-- The parser of blocks blames as it should if that of its inside does. -/
theorem pinpointsBlock {bound : Nat} {inside : Nat → Parse (List Node)}
    (hi : Inner PinpointsInside bound inside) : PinpointsBlock (bound + 1) (block inside) where
  toAccepts := acceptsBlock fun line ↦ by
    cases hi with
    | refused => exact acceptsInside_refuseNesting _
    | read hp => exact hp.toAccepts
  left _ := trivial
  blames := block_blames hi

/-! ### Statements with a condition -/

/-- The error blames a token at which no statement can go on. -/
abbrev BlamesStatement (bound : Nat) : List Token → Nat → SyntaxError → Prop :=
  Blames bound Statement (lookahead · ≠ .keyword .elseWord) fun n ↦ Modest n.ownExpressions

/-- The statements that start with `t` have a condition and a block behind it, and a condition and a
block behind `t` are such a statement. -/
structure Guarded (t : Token) (tree : Node → Node → Node) : Prop where
  neutral : t.lexeme.opens = false ∧ t.lexeme.closes = false
  whole : ∀ {es bs : List Token} {c b : Node}, Expression es c → Block bs b →
    Statement (t :: es ++ bs) (tree c b)
  own : ∀ c b : Node, (tree c b).ownExpressions = c :: b.ownExpressions
  part : ∀ {ts rest tail : List Token} {n : Node}, Statement ts n → ts ++ rest = t :: tail →
    ∃ es bs more c b others, Expression es c ∧ Block bs b ∧ es ++ (bs ++ more) = tail ∧
      n.ownExpressions = c :: b.ownExpressions ++ others

/-- A conditional starts with its word, a condition and a block. -/
theorem guarded_if {t : Token} (ht : t.lexeme = .keyword .ifWord) :
    Guarded t (.ifThen t.line) where
  neutral := by rw [ht]; exact ⟨rfl, rfl⟩
  whole := .ifThen ht
  own _ _ := rfl
  part := by
    intro ts rest tail n h heq
    cases h with
    | @ifThen t' es bs c b ht' condition body =>
      simp only [List.cons_append, List.append_assoc, List.cons.injEq] at heq
      exact ⟨es, bs, rest, c, b, [], condition, body, heq.2, (List.append_nil _).symm⟩
    | @ifElse t' u es bs bs' c b b' ht' condition body hu other =>
      simp only [List.cons_append, List.append_assoc, List.cons.injEq] at heq
      exact ⟨es, bs, _, c, b, _, condition, body, heq.2, rfl⟩
    | loop ht' _ _ | print ht' _ _ | assign ht' _ _ _ =>
      rw [(List.cons.inj heq).1, ht] at ht'
      cases ht'

/-- A loop starts with its word, a condition and a block. -/
theorem guarded_while {t : Token} (ht : t.lexeme = .keyword .whileWord) :
    Guarded t (.loop t.line) where
  neutral := by rw [ht]; exact ⟨rfl, rfl⟩
  whole := .loop ht
  own _ _ := rfl
  part := by
    intro ts rest tail n h heq
    cases h with
    | @loop t' es bs c b ht' condition body =>
      simp only [List.cons_append, List.append_assoc, List.cons.injEq] at heq
      exact ⟨es, bs, rest, c, b, [], condition, body, heq.2, (List.append_nil _).symm⟩
    | ifThen ht' _ _ | ifElse ht' _ _ _ _ | print ht' _ _ | assign ht' _ _ _ =>
      rw [(List.cons.inj heq).1, ht] at ht'
      cases ht'

section Guarded

variable {bound : Nat} {expression block : Parse Node} {t : Token} {tree : Node → Node → Node}
  {pending : List Token} {line k : Nat} {e : SyntaxError} {r' : Reader}
  (hexpr : Locates bound (.joined .equality) expression) (hblock : PinpointsBlock bound block)

include hexpr in
/-- What the condition blames, the statement blames. -/
theorem Guarded.condition_blames (hg : Guarded t tree)
    (h : expression ⟨pending, line, 0⟩ = .error e r') :
    BlamesStatement bound (t :: pending) line e := by
  refine (hexpr.blames h (Nat.zero_le _)).inside [t]
    ((lifts_nil _).neutral rfl hg.neutral.1 hg.neutral.2) ?_ ?_
  · intro es c hes hcount
    refine ⟨_, _, hg.whole hes (block_nil (o := ⟨.mark .openBrace, 0⟩) rfl), ?_⟩
    rw [hg.own, modest_cons]
    exact ⟨by rwa [Nat.zero_add] at hcount, modest_nil⟩
  · intro ts rest tail n hd _ heq _
    obtain ⟨es, bs, more, c, b, others, hes, hbs, htail, hown⟩ := hg.part hd heq
    refine ⟨es, bs ++ more, c, hes, hbs.stops more _, htail, fun hmodest ↦ ?_⟩
    rw [hown, List.cons_append, modest_cons] at hmodest
    rw [Nat.zero_add]
    exact hmodest.1

include hblock in
/-- What the block behind a condition blames, the statement blames. -/
theorem Guarded.block_blames (hg : Guarded t tree) {es : List Token} {c : Node}
    (hes : Expression es c) (hpeak : peak es < bound) (hcount : c.operatorCount ≤ maxOperators)
    (hstops : Stops 1 pending) (h : block ⟨pending, line, k⟩ = .error e r') :
    BlamesStatement bound (t :: es ++ pending) line e := by
  refine (hblock.blames h).inside (t :: es)
    ((lifts_of_balanced hes.balanced hpeak).neutral rfl hg.neutral.1 hg.neutral.2) ?_ ?_
  · intro bs b hbs hmodest
    refine ⟨[], _, by simpa using hg.whole hes hbs, ?_⟩
    rw [hg.own, modest_cons]
    exact ⟨hcount, hmodest⟩
  · intro ts rest tail n hd _ heq hl
    obtain ⟨es', bs, more, c', b, others, hes', hbs, htail, hown⟩ := hg.part hd heq
    obtain ⟨rfl, rfl⟩ := hes'.unique hes htail (hbs.stops _ _) (hstops.congr hl)
    refine ⟨bs, more, b, hbs, trivial, List.append_cancel_left htail, fun hmodest ↦ ?_⟩
    rw [hown, modest_append, modest_cons] at hmodest
    exact hmodest.1.2

/-- Behind the block of a conditional, an `else` goes with that conditional. -/
theorem else_behind {t u : Token} {es bs ts rest tail : List Token} {c b n : Node}
    (ht : t.lexeme = .keyword .ifWord) (hes : Expression es c) (hbs : Block bs b)
    (hu : u.lexeme = .keyword .elseWord) (h : Statement ts n)
    (hrest : lookahead rest ≠ .keyword .elseWord) (heq : ts ++ rest = t :: es ++ bs ++ u :: tail) :
    ∃ bs' b', Block bs' b' ∧ bs' ++ rest = tail ∧
      n.ownExpressions = c :: b.ownExpressions ++ b'.ownExpressions := by
  cases h with
  | @ifThen t' es' bs' c' b' ht' hes' hbs' =>
    simp only [List.cons_append, List.append_assoc, List.cons.injEq] at heq
    obtain ⟨rfl, rfl⟩ := hes'.unique hes heq.2 (hbs'.stops _ _) (hbs.stops _ _)
    obtain ⟨rfl, rfl⟩ := hbs'.unique hbs (List.append_cancel_left heq.2)
    rw [List.append_cancel_left (List.append_cancel_left heq.2)] at hrest
    exact absurd hu hrest
  | @ifElse t' u' es' bs₁ bs₂ c' b₁ b₂ ht' hes' hbs₁ hu' hbs₂ =>
    simp only [List.cons_append, List.append_assoc, List.cons.injEq] at heq
    obtain ⟨rfl, rfl⟩ := hes'.unique hes heq.2 (hbs₁.stops _ _) (hbs.stops _ _)
    obtain ⟨rfl, rfl⟩ := hbs₁.unique hbs (List.append_cancel_left heq.2)
    have htail := (List.cons.inj (List.append_cancel_left (List.append_cancel_left heq.2))).2
    exact ⟨bs₂, b₂, hbs₂, htail, rfl⟩
  | loop ht' _ _ | print ht' _ _ | assign ht' _ _ _ =>
    rw [(List.cons.inj heq).1, ht] at ht'
    cases ht'

include hexpr hblock in
/-- A conditional blames its condition or one of its branches. -/
theorem conditional_blames (ht : t.lexeme = .keyword .ifWord)
    (h : conditional t.line expression block ⟨pending, line, 0⟩ = .error e r') :
    BlamesStatement bound (t :: pending) line e := by
  rcases Step.bind_eq_error_iff.1 h with h | ⟨c, r₁, hc, h⟩
  · exact (guarded_if ht).condition_blames hexpr h
  · have hstops := hexpr.stops hc (Nat.zero_le _)
    obtain ⟨es, rest, rfl, rfl, hes, hpeak, hcount⟩ := hexpr.sound hc (Nat.zero_le _)
    rw [Nat.zero_add] at hcount
    rcases Step.bind_eq_error_iff.1 h with h | ⟨b, r₂, hb, h⟩
    · exact (guarded_if ht).block_blames hblock hes hpeak hcount hstops h
    · obtain ⟨bs, rest, k', rfl, rfl, hbs, hpeak', hmodest⟩ := hblock.sound hb
      by_cases helse : lookahead rest = .keyword .elseWord
      · -- in the block behind the `else`
        rcases rest with - | ⟨u, rest⟩
        · cases helse
        rw [lookahead_cons] at helse
        rw [alternative_of_else helse] at h
        rcases Step.bind_eq_error_iff.1 h with h | ⟨b', r₃, hb', h⟩
        · have hlifts : Lifts (t :: es ++ bs ++ [u]) bound bound := by
            refine lifts_of_balanced (((hes.balanced.cons ht rfl rfl).append hbs.balanced).append
              (balanced_nil.cons helse rfl rfl)) ?_
            rw [List.append_assoc, hes.balanced.peak_cons ht rfl rfl, hbs.balanced,
              peak_neutral helse rfl rfl, peak_nil]
            exact max_lt hpeak (max_lt hpeak' (Nat.zero_lt_of_lt hpeak))
          have hblames : BlamesStatement bound (t :: es ++ bs ++ [u] ++ rest) line e := by
            refine (hblock.blames h).inside _ hlifts ?_ ?_
            · intro bs' b' hbs' hmodest'
              refine ⟨[], _, by simpa using Statement.ifElse ht hes hbs helse hbs', ?_⟩
              simpa [Node.ownExpressions] using ⟨hcount, hmodest, hmodest'⟩
            · intro ts rest' tail n hd hrest' heq _
              rw [List.append_assoc, List.singleton_append] at heq
              obtain ⟨bs', b', hbs', htail, hown⟩ := else_behind ht hes hbs helse hd hrest' heq
              refine ⟨bs', rest', b', hbs', trivial, htail, fun hmodest' ↦ ?_⟩
              rw [hown, modest_append] at hmodest'
              exact hmodest'.2
          simpa using hblames
        · cases h
      · rw [alternative_of_ne helse] at h
        cases h

include hexpr hblock in
/-- A loop blames its condition or its block. -/
theorem repetition_blames (ht : t.lexeme = .keyword .whileWord)
    (h : repetition t.line expression block ⟨pending, line, 0⟩ = .error e r') :
    BlamesStatement bound (t :: pending) line e := by
  rcases Step.bind_eq_error_iff.1 h with h | ⟨c, r₁, hc, h⟩
  · exact (guarded_while ht).condition_blames hexpr h
  · have hstops := hexpr.stops hc (Nat.zero_le _)
    obtain ⟨es, rest, rfl, rfl, hes, hpeak, hcount⟩ := hexpr.sound hc (Nat.zero_le _)
    rw [Nat.zero_add] at hcount
    rcases Step.bind_eq_error_iff.1 h with h | ⟨b, r₂, hb, h⟩
    · exact (guarded_while ht).block_blames hblock hes hpeak hcount hstops h
    · cases h

end Guarded

/-! ### Statements with a value -/

/-- The statements that start with `pre` have a value and a semicolon behind it, and a value and a
semicolon behind `pre` are such a statement. -/
structure Valued (pre : List Token) (tree : Node → Node) : Prop where
  lifts : ∀ bound, Lifts pre bound bound
  whole : ∀ {es : List Token} {v : Node} {e : Token}, Expression es v →
    e.lexeme = .mark .semicolon → Statement (pre ++ es ++ [e]) (tree v)
  own : ∀ v : Node, (tree v).ownExpressions = [v]
  part : ∀ {ts rest tail : List Token} {n : Node}, Statement ts n → ts ++ rest = pre ++ tail →
    ∃ es v e, Expression es v ∧ e.lexeme = .mark .semicolon ∧ es ++ e :: rest = tail ∧
      n.ownExpressions = [v]

/-- Printing starts with its word and a value. -/
theorem valued_print {t : Token} (ht : t.lexeme = .keyword .printWord) :
    Valued [t] (.print t.line) where
  lifts bound := (lifts_nil bound).neutral ht rfl rfl
  whole := .print ht
  own _ := rfl
  part := by
    intro ts rest tail n h heq
    cases h with
    | @print t' e es v ht' value he =>
      simp only [List.cons_append, List.append_assoc, List.cons.injEq] at heq
      exact ⟨es, v, e, value, he, heq.2, rfl⟩
    | ifThen ht' _ _ | ifElse ht' _ _ _ _ | loop ht' _ _ | assign ht' _ _ _ =>
      rw [(List.cons.inj heq).1, ht] at ht'
      cases ht'

/-- Behind its name, an assignment has an assignment mark, a value and a semicolon. -/
theorem assign_behind {t : Token} {x : String} {ts rest tail : List Token} {n : Node}
    (ht : t.lexeme = .name x) (h : Statement ts n) (heq : ts ++ rest = t :: tail) :
    ∃ a es v e, a.lexeme = .mark .assign ∧ Expression es v ∧ e.lexeme = .mark .semicolon ∧
      a :: (es ++ e :: rest) = tail ∧ n.ownExpressions = [v] := by
  cases h with
  | @assign t' a e x es v ht' ha value he =>
    simp only [List.cons_append, List.append_assoc, List.cons.injEq] at heq
    exact ⟨a, es, v, e, ha, value, he, heq.2, rfl⟩
  | ifThen ht' _ _ | ifElse ht' _ _ _ _ | loop ht' _ _ | print ht' _ _ =>
    rw [(List.cons.inj heq).1, ht] at ht'
    cases ht'

/-- An assignment starts with a name, the mark and a value. -/
theorem valued_assign {t a : Token} {x : String} (ht : t.lexeme = .name x)
    (ha : a.lexeme = .mark .assign) : Valued [t, a] (.assign t.line x) where
  lifts bound := ((lifts_nil bound).neutral ha rfl rfl).neutral ht rfl rfl
  whole := .assign ht ha
  own _ := rfl
  part := by
    intro ts rest tail n h heq
    obtain ⟨a', es, v, e, ha', value, he, htail, hown⟩ := assign_behind ht h heq
    exact ⟨es, v, e, value, he, (List.cons.inj htail).2, hown⟩

section Valued

variable {bound : Nat} {expression block : Parse Node} {t : Token} {pending : List Token}
  {line : Nat} {e : SyntaxError} {r' : Reader}
  (hexpr : Locates bound (.joined .equality) expression)

include hexpr in
/-- A statement with a value blames the value, or the semicolon that is missing behind it. -/
theorem Valued.blames {pre : List Token} {tree : Node → Node} (hv : Valued pre tree) {d : Demand}
    (hd : d.mark = .semicolon)
    (h : (expression >>= fun v ↦ demand d >>= fun _ ↦ pure (tree v)) ⟨pending, line, 0⟩ =
      .error e r') : BlamesStatement bound (pre ++ pending) line e := by
  rcases Step.bind_eq_error_iff.1 h with h | ⟨v, r₁, hread, h⟩
  · -- in the value
    refine (hexpr.blames h (Nat.zero_le _)).inside pre (hv.lifts bound) ?_ ?_
    · intro es v hes hcount
      refine ⟨[⟨.mark .semicolon, 0⟩], _, hv.whole hes rfl, ?_⟩
      rw [hv.own, modest_cons]
      exact ⟨by rwa [Nat.zero_add] at hcount, modest_nil⟩
    · intro ts rest tail n hn _ heq _
      obtain ⟨es, v, semi, hes, hsemi, htail, hown⟩ := hv.part hn heq
      refine ⟨es, _, v, hes, stops_semicolon hsemi rest _, htail, fun hmodest ↦ ?_⟩
      rw [hown, modest_cons] at hmodest
      rw [Nat.zero_add]
      exact hmodest.1
  · -- at the semicolon
    have hstops := hexpr.stops hread (Nat.zero_le _)
    obtain ⟨es, rest, rfl, rfl, hes, hpeak, hcount⟩ := hexpr.sound hread (Nat.zero_le _)
    rw [Nat.zero_add] at hcount
    rcases Step.bind_eq_error_iff.1 h with h | ⟨semi, r₂, hsemi, h⟩
    · rw [← List.append_assoc]
      refine (demand_blames h bound).inside (pre ++ es)
        ((hv.lifts bound).append (lifts_of_balanced hes.balanced hpeak)) ?_ ?_
      · rintro _ semi ⟨rfl, hsemi⟩ -
        rw [hd] at hsemi
        refine ⟨[], tree v, by simpa using hv.whole hes hsemi, ?_⟩
        rw [hv.own, modest_cons]
        exact ⟨hcount, modest_nil⟩
      · intro ts rest' tail n hn _ heq hl
        rw [List.append_assoc] at heq
        obtain ⟨es', v', semi, hes', hsemi, htail, -⟩ := hv.part hn heq
        obtain ⟨rfl, -⟩ := hes'.unique hes htail (stops_semicolon hsemi _ _) (hstops.congr hl)
        exact ⟨[semi], rest', semi, ⟨rfl, hsemi.trans (by rw [hd])⟩, trivial,
          List.append_cancel_left htail, fun _ ↦ trivial⟩
    · cases h

include hexpr in
theorem assignment_blames {x : String} (ht : t.lexeme = .name x)
    (h : assignment t.line expression x ⟨pending, line, 0⟩ = .error e r') :
    BlamesStatement bound (t :: pending) line e := by
  rcases Step.bind_eq_error_iff.1 h with h | ⟨a, r₁, ha, h⟩
  · refine (demand_blames h bound).inside [t] ((lifts_nil _).neutral ht rfl rfl) ?_ ?_
    · rintro _ a ⟨rfl, ha⟩ -
      exact ⟨[someToken, ⟨.mark .semicolon, 0⟩], _, .assign ht ha expression_someToken rfl,
        modest_cons.2 ⟨Nat.zero_le _, modest_nil⟩⟩
    · intro ts rest tail n hn _ heq _
      obtain ⟨a, es, v, semi, ha, -, -, htail, -⟩ := assign_behind ht hn heq
      exact ⟨[a], _, a, ⟨rfl, ha⟩, trivial, htail, fun _ ↦ trivial⟩
  · obtain ⟨rest, rfl, hassign, rfl⟩ := demand_sound ha
    exact (valued_assign ht hassign).blames hexpr rfl h

end Valued

/-! ### Single statements -/

/-- A statement starts with a lexeme that can start one. -/
theorem startsStatement_lookahead {ts : List Token} {n : Node} (h : Statement ts n)
    (rest : List Token) : startsStatement (lookahead (ts ++ rest)) = true := by
  cases h with
  | ifThen ht _ _ | ifElse ht _ _ _ _ | loop ht _ _ | print ht _ _ | assign ht _ _ _ =>
    simp [ht, startsStatement]

section Statement

variable {bound : Nat} {expression block : Parse Node} {pending : List Token} {line k : Nat}
  (hexpr : Locates bound (.joined .equality) expression) (hblock : PinpointsBlock bound block)

include hexpr hblock in
/-- **Step lemma.** A statement blames its first token or what its parts blame. -/
theorem statementWith_blames {e : SyntaxError} {r' : Reader}
    (h : statementWith expression block ⟨pending, line, k⟩ = .error e r') :
    BlamesStatement bound pending line e := by
  cases hstart : startsStatement (lookahead pending) with
  | false =>
    rw [statementWith_of_not_starts hstart] at h
    cases h
    have hwhole : Statement [⟨.keyword .printWord, 0⟩, someToken, ⟨.mark .semicolon, 0⟩] _ :=
      .print rfl expression_someToken rfl
    refine Blames.here rfl hwhole (modest_cons.2 ⟨Nat.zero_le _, modest_nil⟩) ?_
    intro ts rest n hd _ hl
    rw [← hl, startsStatement_lookahead hd] at hstart
    cases hstart
  | true =>
    rcases pending with - | ⟨t, ts⟩
    · cases hstart
    · rcases startsStatement_cases hstart with ht | ht | ht | ⟨x, ht⟩
      · rw [statementWith_of_if ht] at h
        exact conditional_blames hexpr hblock ht h
      · rw [statementWith_of_while ht] at h
        exact repetition_blames hexpr hblock ht h
      · rw [statementWith_of_print ht] at h
        exact (valued_print ht).blames hexpr rfl h
      · rw [statementWith_of_name ht] at h
        exact assignment_blames hexpr ht h

/-- A conditional that is read without an `else` is not followed by one. -/
theorem statementWith_closed {n : Node} {r' : Reader}
    (h : statementWith expression block ⟨pending, line, k⟩ = .ok n r') : Closed n r'.pending := by
  intro l c b hn
  subst hn
  obtain ⟨t, ts, rfl, ht | ht | ht | ⟨x, ht⟩⟩ := statementWith_cases h
  · rw [statementWith_of_if ht] at h
    obtain ⟨c', r₁, -, h⟩ := Step.bind_eq_ok_iff.1 h
    obtain ⟨b', r₂, -, h⟩ := Step.bind_eq_ok_iff.1 h
    intro helse
    by_cases hnext : lookahead r₂.pending = .keyword .elseWord
    · rcases r₂ with ⟨- | ⟨u, rest⟩, line', k'⟩
      · cases hnext
      · rw [alternative_of_else hnext] at h
        obtain ⟨b'', r₃, -, h⟩ := Step.bind_eq_ok_iff.1 h
        cases h
    · rw [alternative_of_ne hnext] at h
      cases h
      exact hnext helse
  · rw [statementWith_of_while ht] at h
    obtain ⟨c', r₁, -, h⟩ := Step.bind_eq_ok_iff.1 h
    obtain ⟨b', r₂, -, h⟩ := Step.bind_eq_ok_iff.1 h
    cases h
  · rw [statementWith_of_print ht] at h
    obtain ⟨v, r₁, -, h⟩ := Step.bind_eq_ok_iff.1 h
    obtain ⟨semi, r₂, -, h⟩ := Step.bind_eq_ok_iff.1 h
    cases h
  · rw [statementWith_of_name ht] at h
    obtain ⟨a, r₁, -, h⟩ := Step.bind_eq_ok_iff.1 h
    obtain ⟨v, r₂, -, h⟩ := Step.bind_eq_ok_iff.1 h
    obtain ⟨semi, r₃, -, h⟩ := Step.bind_eq_ok_iff.1 h
    cases h

include hexpr hblock in
/-- The parser of statements blames as it should if those of its parts do. -/
theorem pinpointsStatement : PinpointsStatement bound (statementWith expression block) where
  toAccepts := acceptsStatement hexpr.toReads hblock.toAccepts
  left := statementWith_closed
  blames := statementWith_blames hexpr hblock

end Statement

/-! ### Lists of statements -/

/-- A list of statements is to blame where one of its statements is, or where none starts. -/
theorem statementsUpTo_blames {levels : Nat} {statement : Parse Node} {stop : Lexeme → Bool}
    {Follows : List Token → Prop} (hs : PinpointsStatement (levels + 1) statement)
    (hstop : ∀ l, stop l = true → l = .mark .closeBrace ∨ l = .endOfFile)
    (hfollows : ∀ rest, Follows rest → stop (lookahead rest) = true) {bound : Nat}
    {pending : List Token} {line k : Nat} {e : SyntaxError} {r' : Reader}
    (h : statementsUpTo stop statement bound ⟨pending, line, k⟩ = .error e r') :
    Blames (levels + 1) Statements Follows (fun ss ↦ Modest (Node.ownExpressionsAll ss))
      pending line e := by
  have hends : ∀ {rest}, Follows rest → Ends rest := fun hrest ↦ hstop _ (hfollows _ hrest)
  induction bound generalizing pending k with
  | zero => cases h
  | succ bound ih =>
    cases hnext : stop (lookahead pending) with
    | true =>
      rw [statementsUpTo_of_stop hnext] at h
      cases h
    | false =>
      rw [statementsUpTo_of_not_stop hnext] at h
      rcases Step.bind_eq_error_iff.1 h with h | ⟨s, r₁, hfirst, h⟩
      · refine (hs.blames h).first ?_ ?_
        · intro ts s hd hmodest
          exact ⟨[], [s], .cons hd .nil, modest_append.2 ⟨hmodest, modest_nil⟩⟩
        · intro ts rest ss hd hrest hl
          cases hd with
          | nil =>
            -- the list would end here, which the parser has seen that it does not
            rw [List.nil_append] at hl
            rw [← hl, hfollows rest hrest] at hnext
            cases hnext
          | @cons ts₁ ts₂ s ss first more =>
            exact ⟨ts₁, ts₂ ++ rest, s, first, more.lookahead_ne_else (hends hrest),
              (List.append_assoc _ _ _).symm, fun hmodest ↦ (modest_append.1 hmodest).1⟩
      · have hclosed := hs.left hfirst
        obtain ⟨ts, rest, k₁, rfl, rfl, hd, hpeak, hmodest⟩ := hs.sound hfirst
        rcases Step.bind_eq_error_iff.1 h with h | ⟨ss, r₂, hmore, h⟩
        · refine (ih h).inside ts (lifts_of_balanced hd.balanced hpeak) ?_ ?_
          · intro ts' ss hd' hmodest'
            exact ⟨[], s :: ss, by simpa using Statements.cons hd hd',
              modest_append.2 ⟨hmodest, hmodest'⟩⟩
          · intro us rest' tail ss hd' hrest heq hl
            cases hd' with
            | nil =>
              rw [List.nil_append] at heq
              exact absurd (heq ▸ hends hrest) (hd.lookahead_append tail).1
            | @cons ts₁ ts₂ s' ss first more =>
              rw [List.append_assoc] at heq
              obtain ⟨rfl, rfl⟩ := first.unique hd heq
                (closed_of_ne_else (more.lookahead_ne_else (hends hrest)) _) (hclosed.congr hl)
              exact ⟨ts₂, rest', ss, more, hrest, List.append_cancel_left heq,
                fun hmodest ↦ (modest_append.1 hmodest).2⟩
        · cases h

theorem ends_of_endsBlock {l : Lexeme} (h : endsBlock l = true) :
    l = .mark .closeBrace ∨ l = .endOfFile := by
  simpa [endsBlock, isEnd] using h

/-- Lists of statements in braces blame as they should if single statements do. -/
theorem pinpointsInside_statements {levels : Nat} {statement : Parse Node}
    (hs : PinpointsStatement (levels + 1) statement) :
    PinpointsInside (levels + 1) (statements endsBlock statement) where
  toAccepts := acceptsInside_statements hs.toAccepts
  left := by
    intro pending line k ss r' h
    obtain ⟨ts, rest, k', -, rfl, -, -, -, hend⟩ := statementsUpTo_sound hs.toAccepts rfl le_rfl h
    exact ends_of_endsBlock hend
  blames h := statementsUpTo_blames hs (fun _ ↦ ends_of_endsBlock)
    (fun rest hrest ↦ by rw [hrest]; rfl) h

/-- Statements are read up to where they cannot go on. -/
theorem pinpointsStatement_statement (levels : Nat) :
    PinpointsStatement (levels + 1) (statement levels) := by
  induction levels with
  | zero => exact pinpointsStatement (locates_expression 0) (pinpointsBlock .refused)
  | succ levels ih =>
    exact pinpointsStatement (locates_expression (levels + 1))
      (pinpointsBlock (.read (pinpointsInside_statements ih)))

end Parse

/-! ### Programs -/

open Parse

/-- The error of a token list blames a token at which no program can go on. -/
theorem blames_of_ofTokens {tokens : List Token} {e : SyntaxError}
    (h : Node.ofTokens tokens = .error e) :
    Blames (maxNesting + 1) Statements (lookahead · = .endOfFile)
      (fun ss ↦ Modest (Node.ownExpressionsAll ss)) (beforeEnd tokens)
      (Reader.ofTokens tokens).endLine e := by
  rw [Node.ofTokens, program_apply] at h
  rcases hrun : statements isEnd (statement maxNesting) (Reader.ofTokens tokens)
    with ⟨ss, r'⟩ | ⟨e', r'⟩
  · rw [Step.bind_of_ok hrun] at h
    cases h
  · rw [Step.bind_of_error hrun] at h
    cases h
    refine statementsUpTo_blames (pinpointsStatement_statement maxNesting) ?_ ?_ hrun
    · intro l hl
      exact .inr (by simpa [isEnd] using hl)
    · intro rest hrest
      rw [hrest]
      rfl

/-- The tokens that are read are followed by an end of file. -/
theorem exists_ended_eq (tokens : List Token) : ∃ others, ended tokens =
    beforeEnd tokens ++ ⟨.endOfFile, (Reader.ofTokens tokens).endLine⟩ :: others := by
  cases hfind : tokens.find? (·.lexeme == .endOfFile) with
  | some t =>
    have hline : (Reader.ofTokens tokens).endLine = t.line := by simp [Reader.ofTokens, hfind]
    obtain ⟨hend, before, others, rfl, hbefore⟩ := List.find?_eq_some_iff_append.1 hfind
    have hnone : ∀ u ∈ before, (u.lexeme != .endOfFile) = true := hbefore
    have htake : beforeEnd (before ++ t :: others) = before := by
      rw [beforeEnd, List.takeWhile_append_of_pos hnone,
        List.takeWhile_cons_of_neg (by simpa using hend), List.append_nil]
    obtain ⟨more, hmore⟩ : ∃ more,
        ended (before ++ t :: others) = before ++ t :: others ++ more := by
      rw [ended]
      split
      · simp at *
      · split
        · exact ⟨[], (List.append_nil _).symm⟩
        · exact ⟨_, rfl⟩
    have ht : t = ⟨.endOfFile, t.line⟩ := by rw [← eq_of_beq hend]
    refine ⟨others ++ more, ?_⟩
    rw [hmore, htake, hline, ← ht, List.append_assoc, List.cons_append]
  | none =>
    have hnone : ∀ t ∈ tokens, t.lexeme ≠ .endOfFile := by simpa using hfind
    have htake : beforeEnd tokens = tokens :=
      List.takeWhile_eq_self_iff.2 fun t ht ↦ by simpa using hnone t ht
    refine ⟨[], ?_⟩
    cases hlast : tokens.getLast? with
    | none => simp [ended, beforeEnd, Reader.ofTokens, List.getLast?_eq_none_iff.1 hlast]
    | some last =>
      have hne := hnone last (List.mem_of_getLast? hlast)
      simp [ended, hlast, hne, htake, Reader.ofTokens, hfind]

/-- The tokens can be completed to a program. -/
def Grammar.Viable (ts : List Token) : Prop := ∃ more ss, Statements (ts ++ more) ss

/-- The tokens are the statements of a program. -/
def Grammar.Complete (ts : List Token) : Prop := ∃ ss, Statements ts ss

/-- Why a program cannot go on with the lexeme `l` behind the tokens `before`, though one starts
with them. -/
inductive Grammar.Offends (before : List Token) (l : Lexeme) : SyntaxFault → Prop
  /-- No program goes on with it. -/
  | misfit {fault : SyntaxFault} (names : fault.found? = some l) (viable : Viable before)
      (stuck : l ≠ .endOfFile → ∀ t : Token, t.lexeme = l → ¬ Viable (before ++ [t]))
      (unfinished : l = .endOfFile → ¬ Complete before) : Offends before l fault
  /-- It opens one bracket too many. -/
  | nested (opens : l.opens = true) (viable : Viable before)
      (within : NestsWithin maxNesting before)
      (beyond : ∀ t : Token, t.lexeme = l → ¬ NestsWithin maxNesting (before ++ [t])) :
      Offends before l .nestedTooDeep
  /-- It is an operator, and every program that goes on with it has a statement with too many. -/
  | operators (op : BinaryOp) (mark : l = .mark op.mark)
      (viable : ∃ more ss, Statements (before ++ more) ss ∧ Modest (Node.ownExpressionsAll ss))
      (long : ∀ t : Token, t.lexeme = l → ∀ more ss, Statements (before ++ t :: more) ss →
        ¬ Modest (Node.ownExpressionsAll ss)) : Offends before l .tooManyOperators

/-- The error of a token list is about a token up to the first end of file, and the tokens before
this token are where it offends. -/
theorem offends_of_ofTokens {tokens : List Token} {e : SyntaxError}
    (h : Node.ofTokens tokens = .error e) :
    ∃ before t others, ended tokens = before ++ t :: others ∧ before <+: beforeEnd tokens ∧
      e.line = t.line ∧ Offends before t.lexeme e.fault := by
  obtain ⟨before, after, hsplit, hline, ⟨more, ss, hss, hmodest⟩, hrefuses⟩ :=
    blames_of_ofTokens h
  -- the blamed token stands right behind `before`, in the list with its end of file
  obtain ⟨t, others, hended, ht, htline⟩ : ∃ t others, ended tokens = before ++ t :: others ∧
      t.lexeme = lookahead after ∧ e.line = t.line := by
    obtain ⟨others, hended⟩ := exists_ended_eq tokens
    rw [hsplit] at hended
    rcases after with - | ⟨t, after⟩
    · rw [List.append_nil] at hended
      exact ⟨_, _, hended, rfl, hline⟩
    · rw [List.append_assoc, List.cons_append] at hended
      exact ⟨t, _, hended, rfl, hline⟩
  refine ⟨before, t, others, hended, ⟨after, hsplit.symm⟩, htline, ?_⟩
  rw [← ht] at hrefuses
  generalize e.fault = fault at hrefuses
  cases hrefuses with
  | misfit names stuck =>
    refine .misfit names ⟨more, ss, hss⟩ ?_ ?_
    · rintro - u hu ⟨more, ss, hss⟩
      exact stuck ss ⟨_, [], u :: more, hss, rfl, by simp, hu⟩
    · rintro hend ⟨ss, hss⟩
      exact stuck ss ⟨before, [], [], hss, rfl, rfl, hend.symm⟩
  | nested opens within beyond =>
    refine .nested opens ⟨more, ss, hss⟩ ((peak_le_iff _ _).1 (Nat.le_of_lt_succ within)) ?_
    intro u hu hwithin
    have hpeak := (peak_le_iff _ _).2 hwithin
    rw [beyond u hu] at hpeak
    exact absurd hpeak (Nat.not_succ_le_self _)
  | operators op mark long =>
    refine .operators op mark ⟨more, ss, hss, hmodest⟩ ?_
    intro u hu more ss hss
    exact long ss ⟨_, [], u :: more, hss, rfl, by simp, hu⟩

/-- A message that is about a lexeme shows it. -/
theorem SyntaxFault.message_of_found {fault : SyntaxFault} {l : Lexeme}
    (h : fault.found? = some l) : ∃ front back, fault.message = front ++ l.describe ++ back := by
  cases fault with
  | notAStatement found | notAnOperand found =>
    cases h
    exact ⟨_, _, rfl⟩
  | missing demand found =>
    cases h
    exact ⟨_, "", String.append_empty.symm⟩
  | nestedTooDeep | tooManyOperators => cases h

/-- **The first token that cannot continue.** Unless a limit is at fault, a syntax error is about
one of the tokens up to the first end of file: it gives the line of this token and names it. The
tokens before it can be completed to a program, and with it they cannot; or it is the end of file,
and they are no program yet. -/
theorem syntax_error_names_first_misfit (tokens : List Token) (e : SyntaxError)
    (h : Node.ofTokens tokens = .error e)
    (hlimits : e.fault ≠ .nestedTooDeep ∧ e.fault ≠ .tooManyOperators) :
    ∃ i t, i ≤ (beforeEnd tokens).length ∧ (ended tokens)[i]? = some t ∧ e.line = t.line ∧
      (∃ front back, e.fault.message = front ++ t.lexeme.describe ++ back) ∧
      Viable ((ended tokens).take i) ∧
      (t.lexeme ≠ .endOfFile → ¬ Viable ((ended tokens).take (i + 1))) ∧
      (t.lexeme = .endOfFile → ¬ Complete ((ended tokens).take i)) := by
  obtain ⟨before, t, others, hended, hprefix, hline, hoffends⟩ := offends_of_ofTokens h
  have htake : (ended tokens).take before.length = before := by rw [hended, List.take_left]
  have hnext : (ended tokens).take (before.length + 1) = before ++ [t] := by
    rw [hended, List.take_length_add_append, List.take_succ_cons, List.take_zero]
  have hget : (ended tokens)[before.length]? = some t := by
    rw [hended, List.getElem?_append_right le_rfl, Nat.sub_self]
    rfl
  refine ⟨before.length, t, hprefix.length_le, hget, hline, ?_⟩
  rw [htake, hnext]
  generalize e.fault = fault at hoffends hlimits
  cases hoffends with
  | misfit names viable stuck unfinished =>
    exact ⟨SyntaxFault.message_of_found names, viable, fun hend ↦ stuck hend t rfl, unfinished⟩
  | nested => exact absurd rfl hlimits.1
  | operators => exact absurd rfl hlimits.2

/-- A block whose last statement has no semicolon: its closing brace is to blame. -/
theorem syntax_error_names_first_misfit_brace :
    let tokens : List Token := [⟨.keyword .whileWord, 1⟩, ⟨.name "ಕ", 1⟩, ⟨.mark .openBrace, 1⟩,
      ⟨.keyword .printWord, 2⟩, ⟨.name "ಕ", 2⟩, ⟨.mark .closeBrace, 3⟩, ⟨.endOfFile, 4⟩]
    let e : SyntaxError := ⟨.missing .printEnd (.mark .closeBrace), 3⟩
    (Node.ofTokens tokens = .error e ∧ e.fault ≠ .nestedTooDeep ∧ e.fault ≠ .tooManyOperators) ∧
    ∃ i t, i ≤ (beforeEnd tokens).length ∧ (ended tokens)[i]? = some t ∧ e.line = t.line ∧
      (∃ front back, e.fault.message = front ++ t.lexeme.describe ++ back) ∧
      Viable ((ended tokens).take i) ∧
      (t.lexeme ≠ .endOfFile → ¬ Viable ((ended tokens).take (i + 1))) ∧
      (t.lexeme = .endOfFile → ¬ Complete ((ended tokens).take i)) := by
  intro tokens e
  have hrun : Node.ofTokens tokens = .error e := rfl
  have hlimits : e.fault ≠ .nestedTooDeep ∧ e.fault ≠ .tooManyOperators := by decide
  exact ⟨⟨hrun, hlimits⟩, syntax_error_names_first_misfit tokens e hrun hlimits⟩

end KannadaScript
