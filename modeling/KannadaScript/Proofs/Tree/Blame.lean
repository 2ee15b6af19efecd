import KannadaScript.Proofs.Tree.Acceptance

/-!
# What a syntax error blames

A parser that fails has read some tokens and stands before one that it refuses. What it has read
can be completed to a phrase, and the refused token is where this stops being possible
(`Grammar.Refuses`): no phrase goes on with it, or one bracket more is open than may be, or every
phrase that goes on with it has too many operators.

`Parse.Blames` says this of an error and of the tokens that were pending. It passes from the part of
a phrase to the whole (`Parse.Blames.inside`): what was read before the part stands in front, any
completion of the part is completed further, and a whole phrase that goes on behind the tokens read
has a part that goes on there. The last step is where the grammar has to be unambiguous, for only
then has the other phrase the same beginning as the one that was read.

Main statement: `Parse.locates_expression`. The parser of expressions blames in this way, whatever
tokens it is given.
-/

namespace KannadaScript

open Grammar

/-- The lexeme that a fault names. The faults of the limits name none. -/
def SyntaxFault.found? : SyntaxFault → Option Lexeme
  | .notAStatement found | .notAnOperand found | .missing _ found => some found
  | .nestedTooDeep | .tooManyOperators => none

/-! ### Refused lexemes -/

namespace Grammar

/-- The next lexeme depends on the rest only where nothing stands before it. -/
theorem lookahead_append_congr {tail tail' : List Token} (h : lookahead tail = lookahead tail')
    (before : List Token) : lookahead (before ++ tail) = lookahead (before ++ tail') := by
  rcases before with - | ⟨t, before⟩
  · exact h
  · rfl

/-- Whether tokens end a phrase is decided by the first of them. -/
theorem Stops.congr {level : Nat} {rest rest' : List Token} (h : Stops level rest)
    (hsame : lookahead rest' = lookahead rest) : Stops level rest' :=
  fun op hop ↦ h op (hsame.symm.trans hop)

/-- No operator binds as tightly as a primary phrase. -/
theorem stops_four (rest : List Token) : Stops 4 rest := by
  intro op _
  cases op <;> decide

/-- A phrase of the kind `D`, in front of tokens that `Follows` allows, goes on with the lexeme `l`
behind `before`. Its value is `a`. -/
def GoesOn {α : Type} (D : List Token → α → Prop) (Follows : List Token → Prop)
    (before : List Token) (l : Lexeme) (a : α) : Prop :=
  ∃ ts rest tail, D ts a ∧ Follows rest ∧ ts ++ rest = before ++ tail ∧ lookahead tail = l

/-- Why a phrase of the kind `D`, in which fewer than `bound` brackets may be open at a time and
whose value has to be `modest`, cannot go on with the lexeme `l` behind `before`. -/
inductive Refuses {α : Type} (bound : Nat) (D : List Token → α → Prop)
    (Follows : List Token → Prop) (modest : α → Prop) (before : List Token) (l : Lexeme) :
    SyntaxFault → Prop
  /-- No phrase goes on with it. -/
  | misfit {fault : SyntaxFault} (names : fault.found? = some l)
      (stuck : ∀ a, ¬ GoesOn D Follows before l a) : Refuses bound D Follows modest before l fault
  /-- It opens a bracket, and with it too many are open. -/
  | nested (opens : l.opens = true) (within : peak before < bound)
      (beyond : ∀ t : Token, t.lexeme = l → peak (before ++ [t]) = bound) :
      Refuses bound D Follows modest before l .nestedTooDeep
  /-- It is an operator, and every phrase that goes on with it has too many. -/
  | operators (op : BinaryOp) (mark : l = .mark op.mark)
      (long : ∀ a, GoesOn D Follows before l a → ¬ modest a) :
      Refuses bound D Follows modest before l .tooManyOperators

/-- Tokens with fewer than `bound` brackets open at a time have fewer than `bound'` behind `pre`,
and those that reach the one bound reach the other. -/
def Lifts (pre : List Token) (bound bound' : Nat) : Prop :=
  ∀ ts, (peak ts < bound → peak (pre ++ ts) < bound') ∧
    (peak ts = bound → peak (pre ++ ts) = bound')

theorem lifts_nil (bound : Nat) : Lifts [] bound bound := fun _ ↦ ⟨id, id⟩

/-- Balanced tokens within the bound leave it as it is. -/
theorem lifts_of_balanced {pre : List Token} {bound : Nat} (h : Balanced pre)
    (hpeak : peak pre < bound) : Lifts pre bound bound := by
  intro ts
  rw [h]
  exact ⟨max_lt hpeak, fun hts ↦ hts ▸ max_eq_right (hts ▸ hpeak.le)⟩

/-- Tokens in a row lift a bound one after another. -/
theorem Lifts.append {pre pre' : List Token} {bound bound' bound'' : Nat}
    (h : Lifts pre bound' bound'') (h' : Lifts pre' bound bound') :
    Lifts (pre ++ pre') bound bound'' := by
  intro ts
  rw [List.append_assoc]
  exact ⟨fun hts ↦ (h _).1 ((h' ts).1 hts), fun hts ↦ (h _).2 ((h' ts).2 hts)⟩

/-- A bracket that stays open adds one to the bound. -/
theorem Lifts.opening {pre : List Token} {bound bound' : Nat} {o : Token}
    (ho : o.lexeme.opens = true) (h : Lifts pre bound bound') :
    Lifts (o :: pre) bound (bound' + 1) := by
  intro ts
  rw [List.cons_append, peak_opening ho]
  exact ⟨fun hts ↦ Nat.succ_lt_succ ((h ts).1 hts), fun hts ↦ congrArg _ ((h ts).2 hts)⟩

/-- A token that is no bracket changes nothing. -/
theorem Lifts.neutral {pre : List Token} {bound bound' : Nat} {t : Token} {l : Lexeme}
    (h : Lifts pre bound bound') (ht : t.lexeme = l) (ho : l.opens = false)
    (hc : l.closes = false) : Lifts (t :: pre) bound bound' := by
  intro ts
  rw [List.cons_append, peak_neutral ht ho hc]
  exact h ts

end Grammar

/-! ### Blame -/

namespace Parse

/-- The error blames a token behind some of the pending ones, or the end of file: the tokens before
it can be completed to a phrase, and it is refused. -/
def Blames {α : Type} (bound : Nat) (D : List Token → α → Prop) (Follows : List Token → Prop)
    (modest : α → Prop) (pending : List Token) (endLine : Nat) (e : SyntaxError) : Prop :=
  ∃ before after, pending = before ++ after ∧
    e.line = (after.headD ⟨.endOfFile, endLine⟩).line ∧
    (∃ more a, D (before ++ more) a ∧ modest a) ∧
    Refuses bound D Follows modest before (lookahead after) e.fault

namespace Blames

variable {α β : Type} {bound bound' : Nat} {D : List Token → α → Prop} {D' : List Token → β → Prop}
  {Follows Follows' : List Token → Prop} {modest : α → Prop} {modest' : β → Prop}
  {pre pending : List Token} {endLine : Nat} {e : SyntaxError}

/-- The first pending token is blamed if no phrase starts with it. -/
theorem here {fault : SyntaxFault} {whole : List Token} {a : α}
    (hnames : fault.found? = some (lookahead pending)) (hwhole : D whole a) (hmodest : modest a)
    (hstart : ∀ ts rest b, D ts b → Follows rest → lookahead (ts ++ rest) ≠ lookahead pending) :
    Blames bound D Follows modest pending endLine
      ⟨fault, (pending.headD ⟨.endOfFile, endLine⟩).line⟩ := by
  refine ⟨[], pending, rfl, rfl, ⟨whole, a, hwhole, hmodest⟩, .misfit hnames ?_⟩
  rintro b ⟨ts, rest, tail, hd, hrest, heq, hl⟩
  refine hstart ts rest b hd hrest ?_
  rw [heq]
  exact hl

/-- The first pending token is blamed if it is a bracket where none may be open. -/
theorem bracket {t : Token} {ts whole : List Token} {a : α} (ht : t.lexeme.opens = true)
    (hwhole : D whole a) (hmodest : modest a) :
    Blames 1 D Follows modest (t :: ts) endLine ⟨.nestedTooDeep, t.line⟩ := by
  refine ⟨[], t :: ts, rfl, rfl, ⟨whole, a, hwhole, hmodest⟩, .nested ht Nat.one_pos ?_⟩
  intro u hu
  exact peak_opening (hu ▸ ht) []

/-- **From a part to the whole.** If a part of a phrase is to blame, so is the phrase, provided that
what stands before the part lifts the bound on brackets, that a completed part can be completed to a
phrase, and that a phrase which agrees with the tokens read has such a part at the same place. -/
theorem inside (h : Blames bound D Follows modest pending endLine e) (pre : List Token)
    (hlifts : Lifts pre bound bound')
    (hwhole : ∀ ts a, D ts a → modest a → ∃ more b, D' (pre ++ ts ++ more) b ∧ modest' b)
    (hpart : ∀ ts rest tail b, D' ts b → Follows' rest → ts ++ rest = pre ++ tail →
      lookahead tail = lookahead pending →
        ∃ ts' rest' a, D ts' a ∧ Follows rest' ∧ ts' ++ rest' = tail ∧ (modest' b → modest a)) :
    Blames bound' D' Follows' modest' (pre ++ pending) endLine e := by
  obtain ⟨before, after, rfl, hline, ⟨more, a, hd, hmodest⟩, hrefuses⟩ := h
  refine ⟨pre ++ before, after, (List.append_assoc _ _ _).symm, hline, ?_, ?_⟩
  · obtain ⟨more', b, hb, hmodest'⟩ := hwhole _ _ hd hmodest
    exact ⟨more ++ more', b, by simpa only [List.append_assoc] using hb, hmodest'⟩
  · have hgoes : ∀ b, GoesOn D' Follows' (pre ++ before) (lookahead after) b →
        ∃ a, GoesOn D Follows before (lookahead after) a ∧ (modest' b → modest a) := by
      rintro b ⟨ts, rest, tail, hb, hrest, heq, hl⟩
      rw [List.append_assoc] at heq
      obtain ⟨ts', rest', a, ha, hrest', heq', hm⟩ :=
        hpart ts rest (before ++ tail) b hb hrest heq (lookahead_append_congr hl before)
      exact ⟨a, ⟨ts', rest', tail, ha, hrest', heq', hl⟩, hm⟩
    generalize e.fault = fault at hrefuses ⊢
    cases hrefuses with
    | misfit names stuck =>
      refine .misfit names fun b hb ↦ ?_
      obtain ⟨a, ha, -⟩ := hgoes b hb
      exact stuck a ha
    | nested opens within beyond =>
      refine .nested opens ((hlifts _).1 within) fun t ht ↦ ?_
      rw [List.append_assoc]
      exact (hlifts _).2 (beyond t ht)
    | operators op mark long =>
      refine .operators op mark fun b hb hmodest' ↦ ?_
      obtain ⟨a, ha, hm⟩ := hgoes b hb
      exact long a ha (hm hmodest')

/-- From the first part to the whole. -/
theorem first (h : Blames bound D Follows modest pending endLine e)
    (hwhole : ∀ ts a, D ts a → modest a → ∃ more b, D' (ts ++ more) b ∧ modest' b)
    (hpart : ∀ ts rest b, D' ts b → Follows' rest → lookahead (ts ++ rest) = lookahead pending →
      ∃ ts' rest' a, D ts' a ∧ Follows rest' ∧ ts' ++ rest' = ts ++ rest ∧
        (modest' b → modest a)) :
    Blames bound D' Follows' modest' pending endLine e := by
  refine h.inside [] (lifts_nil bound) hwhole ?_
  rintro ts rest tail b hb hrest rfl hl
  exact hpart ts rest b hb hrest hl

end Blames

/-! ### Marks -/

/-- The token of a mark that has to follow. -/
def Marks (d : Demand) (ts : List Token) (t : Token) : Prop := ts = [t] ∧ t.lexeme = .mark d.mark

theorem demand_of_ne {d : Demand} {pending : List Token} (h : lookahead pending ≠ .mark d.mark)
    (line k : Nat) : demand d ⟨pending, line, k⟩ = .error ⟨.missing d (lookahead pending),
      (pending.headD ⟨.endOfFile, line⟩).line⟩ ⟨pending, line, k⟩ := by
  refine (Step.bind_of_ok (peek_apply _)).trans ?_
  rw [Reader.current_lexeme, if_neg h]
  rfl

/-- A mark that is missing is refused where it should stand. -/
theorem demand_blames {d : Demand} {pending : List Token} {line k : Nat} {e : SyntaxError}
    {r' : Reader} (h : demand d ⟨pending, line, k⟩ = .error e r') (bound : Nat) :
    Blames bound (Marks d) (fun _ ↦ True) (fun _ ↦ True) pending line e := by
  have hmark : lookahead pending ≠ .mark d.mark := by
    intro hmark
    rcases pending with - | ⟨t, ts⟩
    · cases hmark
    · rw [demand_cons hmark] at h
      cases h
  rw [demand_of_ne hmark] at h
  cases h
  have hwhole : Marks d [⟨.mark d.mark, 0⟩] ⟨.mark d.mark, 0⟩ := ⟨rfl, rfl⟩
  refine Blames.here rfl hwhole trivial ?_
  rintro ts rest t ⟨rfl, ht⟩ - hl
  exact hmark (hl.symm.trans ht)

/-! ### Primary phrases and factors -/

/-- The parser `p` reads phrases of the kind `ph`, stops only where they end, and blames where they
cannot go on. -/
structure Locates (bound : Nat) (ph : Phrase) (p : Parse Node) : Prop extends Reads bound ph p where
  stops : ∀ {pending : List Token} {line k : Nat} {n : Node} {r' : Reader},
    p ⟨pending, line, k⟩ = .ok n r' → k ≤ maxOperators → Stops ph.level r'.pending
  blames : ∀ {pending : List Token} {line k : Nat} {e : SyntaxError} {r' : Reader},
    p ⟨pending, line, k⟩ = .error e r' → k ≤ maxOperators →
      Blames bound (Derives ph) (Stops ph.level) (fun n ↦ k + n.operatorCount ≤ maxOperators)
        pending line e

/-- What reads behind an opening bracket, given the line of the bracket: a parser that is `Located`,
or the refusal of the bracket if none may be open. -/
inductive Inner {α : Type} (Located : Nat → Parse α → Prop) : Nat → (Nat → Parse α) → Prop
  | refused : Inner Located 0 refuseNesting
  | read {bound : Nat} {p : Parse α} (h : Located (bound + 1) p) :
      Inner Located (bound + 1) fun _ ↦ p

/-- A primary phrase starts with a lexeme that can start one. -/
theorem startsPrimary_lookahead {ts : List Token} {n : Node} (h : Derives .primary ts n)
    (rest : List Token) : startsPrimary (lookahead (ts ++ rest)) = true := by
  cases h with
  | @leaf t _ h =>
    rcases t with ⟨l, line⟩
    cases l with
    | keyword w => cases w <;> cases h <;> rfl
    | _ => cases h <;> rfl
  | paren ho inside hc =>
    rw [List.cons_append, List.cons_append, lookahead_cons, ho]
    rfl

/-- A token that is a primary phrase by itself, and completes whatever misses an operand. -/
def someToken : Token := ⟨.keyword .trueWord, 0⟩

theorem derives_someToken : Derives .primary [someToken] (.truth 0 true) := .leaf rfl

theorem expression_someToken : Expression [someToken] (.truth 0 true) :=
  @Derives.joined .equality _ _ _ _ (@Derives.joined .additive _ _ _ _
    (@Derives.joined .multiplicative _ _ _ _ (.plain derives_someToken) .done) .done) .done

/-- Behind its parenthesis, a primary phrase has an expression and another parenthesis. -/
theorem paren_behind {o : Token} {ts rest tail : List Token} {n : Node}
    (h : Derives .primary ts n) (ho : o.lexeme = .mark .openParen) (heq : ts ++ rest = o :: tail) :
    ∃ es c, Expression es n ∧ c.lexeme = .mark .closeParen ∧ es ++ c :: rest = tail := by
  cases h with
  | leaf hleaf =>
    obtain ⟨rfl, -⟩ := List.cons.inj heq
    rw [leaf?_of_openParen ho] at hleaf
    cases hleaf
  | @paren o' c es _ ho' hes hc =>
    simp only [List.cons_append, List.append_assoc, List.cons.injEq] at heq
    exact ⟨es, c, hes, hc, heq.2⟩

section Primary

variable {bound : Nat} {inside : Nat → Parse Node}
  (hi : Inner (fun bound p ↦ Locates bound (.joined .equality) p) bound inside)

include hi in
/-- Inside a parenthesis, or at the one that should close it. -/
theorem parenthesised_blames {o : Token} {ts : List Token} {line k : Nat} {e : SyntaxError}
    {r' : Reader} (ho : o.lexeme = .mark .openParen)
    (h : parenthesised (inside o.line) ⟨ts, line, k⟩ = .error e r') (hk : k ≤ maxOperators) :
    Blames (bound + 1) (Derives .primary) (Stops 4) (fun n ↦ k + n.operatorCount ≤ maxOperators)
      (o :: ts) line e := by
  have hopens : o.lexeme.opens = true := by rw [ho]; rfl
  cases hi with
  | refused =>
    cases h
    exact Blames.bracket hopens derives_someToken hk
  | @read bound p hp =>
    rcases Step.bind_eq_error_iff.1 h with h | ⟨n, r₁, hn, h⟩
    · -- inside the parentheses
      refine (hp.blames h hk).inside [o] ((lifts_nil _).opening hopens) ?_ ?_
      · intro ts n hd hcount
        exact ⟨[⟨.mark .closeParen, 0⟩], n, .paren ho hd rfl, hcount⟩
      · intro ts rest tail n hd _ heq _
        obtain ⟨es, c, hes, hc, htail⟩ := paren_behind hd ho heq
        exact ⟨es, _, n, hes, stops_closeParen hc rest _, htail, id⟩
    · -- at the closing parenthesis
      obtain ⟨es, pending, rfl, rfl, hes, hpeak, hcount⟩ := hp.sound hn hk
      have hstops := hp.stops hn hk
      rcases Step.bind_eq_error_iff.1 h with h | ⟨c, r₂, hc, h⟩
      · refine (demand_blames h (bound + 1)).inside (o :: es)
          ((lifts_of_balanced hes.balanced hpeak).opening hopens) ?_ ?_
        · rintro _ c ⟨rfl, hc⟩ -
          exact ⟨[], n, by simpa using Derives.paren ho hes hc, hcount⟩
        · intro ts rest tail n' hd _ heq hl
          obtain ⟨es', c, hes', hc, htail⟩ := paren_behind hd ho heq
          obtain ⟨rfl, rfl⟩ := hes'.unique hes htail (stops_closeParen hc _ _) (hstops.congr hl)
          exact ⟨[c], rest, c, ⟨rfl, hc⟩, trivial, List.append_cancel_left htail,
            fun _ ↦ trivial⟩
      · cases h

include hi in
/-- A primary phrase blames its first token or its inside. -/
theorem primary_blames {pending : List Token} {line k : Nat} {e : SyntaxError} {r' : Reader}
    (h : primary inside ⟨pending, line, k⟩ = .error e r') (hk : k ≤ maxOperators) :
    Blames (bound + 1) (Derives .primary) (Stops 4) (fun n ↦ k + n.operatorCount ≤ maxOperators)
      pending line e := by
  cases hstart : startsPrimary (lookahead pending) with
  | false =>
    rw [primary_of_not_starts hstart] at h
    cases h
    refine Blames.here rfl derives_someToken hk ?_
    intro ts rest n hd _ hl
    rw [← hl, startsPrimary_lookahead hd] at hstart
    cases hstart
  | true =>
    rcases pending with - | ⟨t, ts⟩
    · cases hstart
    · rcases startsPrimary_cases hstart with ⟨n, hleaf⟩ | hopen
      · rw [primary_of_leaf hleaf] at h
        cases h
      · rw [primary_of_openParen hopen] at h
        exact parenthesised_blames hi hopen h hk

include hi in
/-- The parser of primary phrases blames as it should. -/
theorem locates_primary : Locates (bound + 1) .primary (primary inside) where
  toReads := reads_primary fun line ↦ by
    cases hi with
    | refused => exact reads_refuseNesting _ _
    | read hp => exact hp.toReads
  stops _ _ := stops_four _
  blames := primary_blames hi

end Primary

/-- A factor blames what its primary phrase blames, with the minus sign in front. -/
theorem factor_blames {bound : Nat} {inside : Nat → Parse Node}
    (hp : Locates bound .primary (primary inside)) {pending : List Token} {line k : Nat}
    {e : SyntaxError} {r' : Reader} (h : factor inside ⟨pending, line, k⟩ = .error e r')
    (hk : k ≤ maxOperators) :
    Blames bound (Derives .factor) (Stops 4) (fun n ↦ k + n.operatorCount ≤ maxOperators)
      pending line e := by
  by_cases hminus : lookahead pending = .mark .minus
  · rcases pending with - | ⟨t, pending⟩
    · cases hminus
    · rw [factor_of_minus hminus] at h
      rcases Step.bind_eq_error_iff.1 h with h | ⟨n, r₁, hn, h⟩
      · refine (hp.blames h hk).inside [t] ((lifts_nil _).neutral hminus rfl rfl) ?_ ?_
        · intro ts n hd hcount
          exact ⟨[], .negate t.line n, by simpa using Derives.negated hminus hd, hcount⟩
        · intro ts rest tail n hd hrest heq hl
          cases hd with
          | plain hd =>
            have := hd.lookahead_primary rest
            rw [heq] at this
            exact absurd hminus this
          | negated ht hd => exact ⟨_, rest, _, hd, hrest, (List.cons.inj heq).2, id⟩
      · cases h
  · rw [factor_of_ne hminus] at h
    refine (hp.blames h hk).first ?_ ?_
    · intro ts n hd hcount
      exact ⟨[], n, by simpa using Derives.plain hd, hcount⟩
    · intro ts rest n hd hrest hl
      cases hd with
      | plain hd => exact ⟨ts, rest, n, hd, hrest, rfl, id⟩
      | negated ht hd => exact absurd (hl.symm.trans ht) hminus

theorem locates_factor {bound : Nat} {inside : Nat → Parse Node}
    (hp : Locates bound .primary (primary inside)) : Locates bound .factor (factor inside) where
  toReads := reads_factor hp.toReads
  stops _ _ := stops_four _
  blames := factor_blames hp

/-! ### Tiers -/

/-- Behind an operator of the tier, an operand and more of the tier follow. -/
theorem more_behind {tier : Tier} {t : Token} {op : BinaryOp} {ts rest tail : List Token}
    {l n : Node} (h : Derives (.more tier l) ts n) (hrest : Stops tier.precedence rest)
    (ht : t.lexeme = .mark op.mark) (hop : op.precedence = tier.precedence)
    (heq : ts ++ rest = t :: tail) : ∃ ts₁ ts₂ m, Derives (operand tier) ts₁ m ∧
      Derives (.more tier (.binary t.line op l m)) ts₂ n ∧ ts₁ ++ (ts₂ ++ rest) = tail := by
  cases h with
  | done =>
    rw [List.nil_append] at heq
    exact absurd hop (hrest op (by rw [heq]; exact ht)).ne
  | @more _ t' op' ts₁ ts₂ _ m _ ht' hop' next more =>
    simp only [List.cons_append, List.append_assoc, List.cons.injEq] at heq
    obtain ⟨rfl, heq⟩ := heq
    obtain rfl : op = op' := mark_injective (by rw [ht] at ht'; injection ht')
    exact ⟨ts₁, ts₂, m, next, more, heq⟩

section Tiers

variable {tier : Tier} {levels : Nat} {p : Parse Node} (hp : Locates (levels + 1) (operand tier) p)

include hp in
/-- A chain goes on as long as an operator of the tier follows: the bound is never reached. -/
theorem chain_stops {bound : Nat} {l n : Node} {pending : List Token} {line k : Nat} {r' : Reader}
    (h : chain (operatorOf tier) p bound l ⟨pending, line, k⟩ = .ok n r') (hk : k ≤ maxOperators)
    (hbound : maxOperators < k + bound) (hpending : Stops (tier.precedence + 1) pending) :
    Stops tier.precedence r'.pending := by
  induction bound generalizing l pending k with
  | zero => omega
  | succ bound ih =>
    by_cases hop : ∃ op : BinaryOp, lookahead pending = .mark op.mark ∧
        op.precedence = tier.precedence
    · obtain ⟨op, ht, hop⟩ := hop
      rcases pending with - | ⟨t, pending⟩
      · cases ht
      · rw [chain_of_operator ht hop] at h
        obtain ⟨_, r₁, hc, h⟩ := Step.bind_eq_ok_iff.1 h
        obtain ⟨hk₁, rfl⟩ := countOperator_sound hc
        obtain ⟨m, r₂, hm, h⟩ := Step.bind_eq_ok_iff.1 h
        have hstops := hp.stops hm hk₁
        obtain ⟨ts, rest, rfl, rfl, -, -, hk₂⟩ := hp.sound hm hk₁
        rw [level_operand] at hstops
        exact ih h hk₂ (by omega) hstops
    · have hno : ∀ op : BinaryOp, lookahead pending = .mark op.mark →
          op.precedence ≠ tier.precedence := fun op ht hprec ↦ hop ⟨op, ht, hprec⟩
      rw [chain_of_no_operator hno] at h
      cases h
      intro op ht
      exact lt_of_le_of_ne (Nat.le_of_lt_succ (hpending op ht)) (hno op ht)

include hp in
/-- **Step lemma of the tiers.** A chain blames the operator that is one too many, the operand
behind an operator, or what the rest of the chain blames. -/
theorem chain_blames {bound : Nat} {l : Node} {pending : List Token} {line k : Nat}
    {e : SyntaxError} {r' : Reader}
    (h : chain (operatorOf tier) p bound l ⟨pending, line, k⟩ = .error e r')
    (hk : k ≤ maxOperators) :
    Blames (levels + 1) (Derives (.more tier l)) (Stops tier.precedence)
      (fun n ↦ k + n.operatorCount ≤ maxOperators + l.operatorCount) pending line e := by
  induction bound generalizing l pending k with
  | zero => cases h
  | succ bound ih =>
    by_cases hop : ∃ op : BinaryOp, lookahead pending = .mark op.mark ∧
        op.precedence = tier.precedence
    · obtain ⟨op, ht, hop⟩ := hop
      rcases pending with - | ⟨t, pending⟩
      · cases ht
      · rw [lookahead_cons] at ht
        have hneutral := operator_neutral op
        rw [chain_of_operator ht hop] at h
        rcases Step.bind_eq_error_iff.1 h with h | ⟨_, r₁, hc, h⟩
        · -- the operator is one too many
          have hfull : maxOperators < k + 1 := by
            by_contra hle
            rw [countOperator_apply (Nat.le_of_not_lt hle)] at h
            cases h
          rw [countOperator_of_lt hfull] at h
          cases h
          refine ⟨[], t :: pending, rfl, rfl, ⟨[], l, .done, by omega⟩, .operators op ht ?_⟩
          rintro n ⟨ts, rest, tail, hd, hrest, heq, hl⟩ hcount
          rcases tail with - | ⟨t', tail⟩
          · rw [lookahead_nil, lookahead_cons, ht] at hl
            cases hl
          · obtain ⟨_, _, m, -, hmore, -⟩ := more_behind hd hrest (hl.trans ht) hop heq
            have hle : l.operatorCount + m.operatorCount + 1 ≤ n.operatorCount :=
              operatorsGiven_le hmore
            omega
        · obtain ⟨hk₁, rfl⟩ := countOperator_sound hc
          rcases Step.bind_eq_error_iff.1 h with h | ⟨m, r₂, hm, h⟩
          · -- in the operand behind it
            refine (hp.blames h hk₁).inside [t]
              ((lifts_nil _).neutral ht hneutral.1 hneutral.2) ?_ ?_
            · intro ts m hd hcount
              refine ⟨[], .binary t.line op l m, .more ht hop hd .done, ?_⟩
              rw [Node.operatorCount]
              omega
            · intro ts rest tail n hd hrest heq _
              obtain ⟨ts₁, ts₂, m, hd₁, hd₂, htail⟩ := more_behind hd hrest ht hop heq
              have hle : l.operatorCount + m.operatorCount + 1 ≤ n.operatorCount :=
                operatorsGiven_le hd₂
              refine ⟨ts₁, ts₂ ++ rest, m, hd₁, ?_, htail, fun hcount ↦ by omega⟩
              rw [level_operand]
              exact hd₂.stops_more hrest
          · -- behind the operand
            obtain ⟨es, rest, rfl, rfl, hes, hpeak, hk₂⟩ := hp.sound hm hk₁
            have hstops := hp.stops hm hk₁
            refine (ih h hk₂).inside (t :: es)
              ((lifts_of_balanced hes.balanced hpeak).neutral ht hneutral.1 hneutral.2) ?_ ?_
            · intro ts n hd hcount
              rw [Node.operatorCount] at hcount
              exact ⟨[], n, by simpa using Derives.more ht hop hes hd, by omega⟩
            · intro ts rest' tail n hd hrest heq hl
              obtain ⟨ts₁, ts₂, m', hd₁, hd₂, htail⟩ := more_behind hd hrest ht hop heq
              obtain ⟨rfl, rfl⟩ := hd₁.unique hes htail
                (by rw [level_operand]; exact hd₂.stops_more hrest) (hstops.congr hl)
              refine ⟨ts₂, rest', n, hd₂, hrest, List.append_cancel_left htail, fun hcount ↦ ?_⟩
              rw [Node.operatorCount]
              omega
    · rw [chain_of_no_operator (fun op ht hprec ↦ hop ⟨op, ht, hprec⟩)] at h
      cases h

include hp in
/-- The operands of a tier blame their first or what the chain behind it blames. -/
theorem joined_blames {pending : List Token} {line k : Nat} {e : SyntaxError} {r' : Reader}
    (h : joined (operatorOf tier) p ⟨pending, line, k⟩ = .error e r') (hk : k ≤ maxOperators) :
    Blames (levels + 1) (Derives (.joined tier)) (Stops tier.precedence)
      (fun n ↦ k + n.operatorCount ≤ maxOperators) pending line e := by
  rcases Step.bind_eq_error_iff.1 h with h | ⟨l, r₁, hl, h⟩
  · refine (hp.blames h hk).first ?_ ?_
    · intro ts l hd hcount
      exact ⟨[], l, .joined hd .done, hcount⟩
    · intro ts rest n hd hrest _
      cases hd with
      | @joined _ ts₁ ts₂ l _ first more =>
        have hle : l.operatorCount ≤ n.operatorCount := operatorsGiven_le more
        refine ⟨ts₁, ts₂ ++ rest, l, first, ?_, (List.append_assoc _ _ _).symm,
          fun hcount ↦ by omega⟩
        rw [level_operand]
        exact more.stops_more hrest
  · have hstops := hp.stops hl hk
    obtain ⟨es, rest, rfl, rfl, hes, hpeak, hk₁⟩ := hp.sound hl hk
    refine (chain_blames hp h hk₁).inside es (lifts_of_balanced hes.balanced hpeak) ?_ ?_
    · intro ts n hd hcount
      exact ⟨[], n, by simpa using Derives.joined hes hd, by omega⟩
    · intro ts rest' tail n hd hrest heq hl
      cases hd with
      | @joined _ ts₁ ts₂ l' _ first more =>
        rw [List.append_assoc] at heq
        obtain ⟨rfl, rfl⟩ := first.unique hes heq
          (by rw [level_operand]; exact more.stops_more hrest) (hstops.congr hl)
        exact ⟨ts₂, rest', n, more, hrest, List.append_cancel_left heq, fun hcount ↦ by omega⟩

include hp in
/-- A tier blames as it should if its operands do. -/
theorem locates_joined : Locates (levels + 1) (.joined tier) (joined (operatorOf tier) p) where
  toReads := reads_joined hp.toReads
  stops := by
    intro pending line k n r' h hk
    obtain ⟨l, r₁, hl, h⟩ := Step.bind_eq_ok_iff.1 h
    have hstops := hp.stops hl hk
    obtain ⟨ts, rest, rfl, rfl, -, -, hk₁⟩ := hp.sound hl hk
    rw [level_operand] at hstops
    exact chain_stops hp h hk₁ (by omega) hstops
  blames := joined_blames hp

end Tiers

/-- So expressions do, if those inside their parentheses do. -/
theorem locates_expressionWith {bound : Nat} {inside : Nat → Parse Node}
    (hi : Inner (fun bound p ↦ Locates bound (.joined .equality) p) bound inside) :
    Locates (bound + 1) (.joined .equality) (expressionWith inside) :=
  @locates_joined .equality _ _ <| @locates_joined .additive _ _ <|
    @locates_joined .multiplicative _ _ (locates_factor (locates_primary hi))

/-- Expressions are read up to where they cannot go on. -/
theorem locates_expression (levels : Nat) :
    Locates (levels + 1) (.joined .equality) (expression levels) := by
  induction levels with
  | zero => exact locates_expressionWith .refused
  | succ levels ih => exact locates_expressionWith (.read ih)

end Parse

end KannadaScript
