import KannadaScript.Proofs.Declaration.TextualOrder
import KannadaScript.Proofs.Tree.Grammar

/-!
# Occurrences of names in the token list

The uses and definitions of a program can be read off its tokens, without its tree (`tokenEvents`):
a name before an assignment mark is a target, which the next semicolon defines, and any other name
is a use. So each use in a tree is a token, and the events before the use are those of the tokens
before this token.

The target has to be kept in mind on the way from its name to the semicolon, since the uses in the
assigned value come first; `tokenEvents` carries it along. Expressions leave it as it is, whatever
it is, and statements start and end without one. Both are read off derivations, by induction along
the rules of the grammar (`tokenEvents_of_derives`, `tokenEvents_of_statements`), and need no
reader. What follows a phrase is a variable of the induction, and is asked for one thing only: an
assignment mark behind an expression would turn its last name into a target.

Trees have lines but no places, and a check reports a name and a line. Tokens have a place in the
text each. So the way from a report back to the text goes through tokens.

Main statement: `exists_undeclared_token`. The variable that the check reports is a token of the
program, the first whose name is not declared by the tokens before it.
-/

namespace KannadaScript

open Grammar

/-- The uses and definitions in a list of tokens, where the next semicolon completes an assignment
to `target`, if there is one. -/
def tokenEvents : (target : Option (String × Nat)) → List Token → List Event
  | _, [] => []
  | target, t :: ts =>
    match t.lexeme with
    | .name x =>
      if lookahead ts = .mark .assign then tokenEvents (some (x, t.line)) ts
      else .use x t.line :: tokenEvents target ts
    | .mark .semicolon =>
      (target.map fun d ↦ .define d.1 d.2).toList ++ tokenEvents none ts
    | _ => tokenEvents target ts

/-! ### Single tokens -/

section Single

variable {t : Token} {x : String} {ts : List Token}

/-- A name that no assignment mark follows is a use. -/
theorem tokenEvents_use (ht : t.lexeme = .name x) (hts : lookahead ts ≠ .mark .assign)
    (target : Option (String × Nat)) :
    tokenEvents target (t :: ts) = .use x t.line :: tokenEvents target ts := by
  rw [tokenEvents, ht]
  exact if_neg hts

/-- A name before an assignment mark is kept in mind as the target. -/
theorem tokenEvents_target (ht : t.lexeme = .name x) (hts : lookahead ts = .mark .assign)
    (target : Option (String × Nat)) :
    tokenEvents target (t :: ts) = tokenEvents (some (x, t.line)) ts := by
  rw [tokenEvents, ht]
  exact if_pos hts

/-- A semicolon defines the target, if there is one. -/
theorem tokenEvents_semicolon (ht : t.lexeme = .mark .semicolon) (target : Option (String × Nat))
    (ts : List Token) : tokenEvents target (t :: ts) =
      (target.map fun d ↦ .define d.1 d.2).toList ++ tokenEvents none ts := by
  rw [tokenEvents, ht]

/-- A lexeme that is neither a name nor a semicolon. -/
def Lexeme.isSilent : Lexeme → Bool
  | .name _ | .mark .semicolon => false
  | _ => true

/-- Only names and semicolons make events. -/
theorem isSilent_eq_false {l : Lexeme} (h : l.isSilent = false) :
    (∃ x, l = .name x) ∨ l = .mark .semicolon := by
  cases l with
  | name x => exact .inl ⟨x, rfl⟩
  | mark m => cases m <;> first | exact .inr rfl | cases h
  | _ => cases h

/-- Any other token is passed over. -/
theorem tokenEvents_silent {l : Lexeme} (ht : t.lexeme = l) (hl : l.isSilent = true)
    (target : Option (String × Nat)) (ts : List Token) :
    tokenEvents target (t :: ts) = tokenEvents target ts := by
  rw [tokenEvents, ht]
  cases l with
  | name x => cases hl
  | mark m => cases m <;> first | rfl | cases hl
  | _ => rfl

end Single

/-! ### Expressions -/

/-- The uses in the tree that a phrase continues. -/
def eventsGiven : Phrase → List Event
  | .more _ left => left.events
  | .joined _ | .factor | .primary => []

theorem eventsGiven_operand (tier : Tier) : eventsGiven (operand tier) = [] := by
  cases tier <;> rfl

theorem isSilent_mark (op : BinaryOp) : (Lexeme.mark op.mark).isSilent = true := by
  cases op <;> rfl

/-- What follows an operand is no assignment mark. -/
theorem lookahead_of_more {tier : Tier} {l n : Node} {ts rest : List Token}
    (h : Derives (.more tier l) ts n) (hrest : lookahead rest ≠ .mark .assign) :
    lookahead (ts ++ rest) ≠ .mark .assign := by
  cases h with
  | done => exact hrest
  | @more _ t op _ _ _ _ _ ht hop next more =>
    rw [List.cons_append, List.cons_append, lookahead_cons, ht]
    cases op <;> decide

/-- A single token that is an expression has the events of its tree. -/
theorem tokenEvents_of_leaf {t : Token} {n : Node} (h : leaf? t = some n) {rest : List Token}
    (hrest : lookahead rest ≠ .mark .assign) (target : Option (String × Nat)) :
    tokenEvents target (t :: rest) = n.events ++ tokenEvents target rest := by
  rcases t with ⟨l, line⟩
  cases l with
  | name x =>
    cases h
    exact tokenEvents_use rfl hrest target
  | keyword w => cases w <;> cases h <;> exact tokenEvents_silent rfl rfl target rest
  | _ => cases h <;> exact tokenEvents_silent rfl rfl target rest

/-- The tokens of a phrase have the uses of its tree, beyond those it continues. -/
theorem tokenEvents_of_derives {ph : Phrase} {ts : List Token} {n : Node} (h : Derives ph ts n)
    {rest : List Token} (hrest : lookahead rest ≠ .mark .assign)
    (target : Option (String × Nat)) :
    eventsGiven ph ++ tokenEvents target (ts ++ rest) = n.events ++ tokenEvents target rest := by
  induction h generalizing rest with
  | leaf h => exact tokenEvents_of_leaf h hrest target
  | @paren o c ts n ho inside hc ih =>
    have hclose : lookahead (c :: rest) ≠ .mark .assign := by
      rw [lookahead_cons, hc]
      decide
    rw [List.append_assoc, List.cons_append, List.singleton_append, eventsGiven, List.nil_append,
      tokenEvents_silent ho rfl]
    refine (ih hclose).trans ?_
    rw [tokenEvents_silent hc rfl]
  | plain h ih => exact ih hrest
  | negated ht h ih =>
    rw [List.cons_append, eventsGiven, List.nil_append, tokenEvents_silent ht rfl]
    exact ih hrest
  | @joined tier ts ts' l n first more ih ih' =>
    have hfirst := ih (lookahead_of_more more hrest)
    rw [eventsGiven_operand, List.nil_append] at hfirst
    rw [eventsGiven, List.nil_append, List.append_assoc, hfirst]
    exact ih' hrest
  | done => rfl
  | @more tier t op ts ts' l r n ht hop next more ih ih' =>
    have hnext := ih (lookahead_of_more more hrest)
    rw [eventsGiven_operand, List.nil_append] at hnext
    rw [eventsGiven, List.append_assoc, List.cons_append, tokenEvents_silent ht (isSilent_mark op),
      hnext, ← List.append_assoc]
    exact ih' hrest

/-- The events of an expression are those of its tokens, before anything but an assignment mark. -/
theorem tokenEvents_of_expression {ts : List Token} {n : Node} (h : Expression ts n)
    {rest : List Token} (hrest : lookahead rest ≠ .mark .assign)
    (target : Option (String × Nat)) :
    tokenEvents target (ts ++ rest) = n.events ++ tokenEvents target rest :=
  tokenEvents_of_derives h hrest target

/-! ### Statements -/

mutual
theorem tokenEvents_of_block {ts : List Token} {n : Node} (rest : List Token) :
    Block ts n → tokenEvents none (ts ++ rest) = n.events ++ tokenEvents none rest
  | @Block.mk o c ts ss ho inside hc => by
    rw [List.append_assoc, List.cons_append, List.singleton_append, tokenEvents_silent ho rfl,
      tokenEvents_of_statements _ inside, tokenEvents_silent hc rfl]
    rfl
/-- The events of a statement are those of its tokens. An assignment defines its target behind its
value, where the semicolon stands. -/
theorem tokenEvents_of_statement {ts : List Token} {n : Node} (rest : List Token) :
    Statement ts n → tokenEvents none (ts ++ rest) = n.events ++ tokenEvents none rest
  | .ifThen ht condition body | .loop ht condition body => by
    have hbody : lookahead _ ≠ Lexeme.mark .assign :=
      (body.lookahead_append rest).trans_ne (by decide)
    rw [List.append_assoc, List.cons_append, tokenEvents_silent ht rfl,
      tokenEvents_of_expression condition hbody, tokenEvents_of_block rest body, Node.events,
      List.append_assoc]
  | .ifElse ht condition body hu other => by
    have hbody (rest : List Token) : lookahead _ ≠ Lexeme.mark .assign :=
      (body.lookahead_append rest).trans_ne (by decide)
    rw [List.append_assoc, List.append_assoc, List.cons_append, tokenEvents_silent ht rfl,
      tokenEvents_of_expression condition (hbody _), tokenEvents_of_block _ body,
      List.cons_append, tokenEvents_silent hu rfl, tokenEvents_of_block rest other, Node.events,
      List.append_assoc, List.append_assoc]
  | .print ht value he => by
    have hend : lookahead (_ :: rest) ≠ Lexeme.mark .assign := he.trans_ne (by decide)
    rw [List.append_assoc, List.cons_append, List.singleton_append, tokenEvents_silent ht rfl,
      tokenEvents_of_expression value hend, tokenEvents_semicolon he]
    rfl
  | .assign ht ha value he => by
    have hend : lookahead (_ :: rest) ≠ Lexeme.mark .assign := he.trans_ne (by decide)
    rw [List.append_assoc, List.cons_append, List.cons_append, List.singleton_append,
      tokenEvents_target ht ((lookahead_cons _ _).trans ha), tokenEvents_silent ha rfl,
      tokenEvents_of_expression value hend, tokenEvents_semicolon he, Node.events,
      List.append_assoc]
    rfl
/-- The tokens of statements have the events of their trees. -/
theorem tokenEvents_of_statements {ts : List Token} {ss : List Node} (rest : List Token) :
    Statements ts ss → tokenEvents none (ts ++ rest) = Node.eventsAll ss ++ tokenEvents none rest
  | .nil => rfl
  | .cons first more => by
    rw [List.append_assoc, tokenEvents_of_statement _ first, tokenEvents_of_statements rest more,
      Node.eventsAll, List.append_assoc]
end

/-! ### Uses -/

/-- A token between two lists is seen from the first only if that one is empty. -/
theorem lookahead_append_cons {ts after : List Token} {u : Token} {l : Lexeme} (hl : l ≠ .endOfFile)
    (hu : u.lexeme ≠ l) : lookahead (ts ++ u :: after) = l ↔ lookahead ts = l := by
  rcases ts with - | ⟨t, ts⟩
  · exact ⟨fun h ↦ absurd h hu, fun h ↦ absurd h.symm hl⟩
  · rfl

/-- Every use is a token, and the events before it are those of the tokens before it. -/
theorem exists_token_of_use {target : Option (String × Nat)} {tokens : List Token}
    {before after : List Event} {x : String} {l : Nat}
    (h : tokenEvents target tokens = before ++ .use x l :: after) :
    ∃ ts ts', tokens = ts ++ ⟨.name x, l⟩ :: ts' ∧ lookahead ts' ≠ .mark .assign ∧
      tokenEvents target ts = before := by
  induction tokens generalizing target before with
  | nil => simp [tokenEvents] at h
  | cons t tokens ih =>
    cases hsilent : t.lexeme.isSilent with
    | true =>
      rw [tokenEvents_silent rfl hsilent] at h
      obtain ⟨ts, ts', rfl, hnext, hts⟩ := ih h
      exact ⟨t :: ts, ts', rfl, hnext, by rw [tokenEvents_silent rfl hsilent, hts]⟩
    | false =>
      -- cut off before another name, a name has the same lexeme behind it or none
      have hcut {ts ts' : List Token} : lookahead (ts ++ ⟨.name x, l⟩ :: ts') = .mark .assign ↔
          lookahead ts = .mark .assign := lookahead_append_cons (by decide) (by simp)
      rcases isSilent_eq_false hsilent with ⟨y, hy⟩ | hsemi
      · by_cases hassign : lookahead tokens = .mark .assign
        · rw [tokenEvents_target hy hassign] at h
          obtain ⟨ts, ts', rfl, hnext, hts⟩ := ih h
          exact ⟨t :: ts, ts', rfl, hnext, by rw [tokenEvents_target hy (hcut.1 hassign), hts]⟩
        · rw [tokenEvents_use hy hassign] at h
          rcases before with - | ⟨e, before⟩
          · obtain ⟨rfl, rfl⟩ := Event.use.inj (List.cons.inj h).1
            exact ⟨[], tokens, by rw [← hy]; rfl, hassign, rfl⟩
          · obtain ⟨rfl, hmore⟩ := List.cons.inj h
            obtain ⟨ts, ts', rfl, hnext, hts⟩ := ih hmore
            exact ⟨t :: ts, ts', rfl, hnext,
              by rw [tokenEvents_use hy (mt hcut.2 hassign), hts]⟩
      · rw [tokenEvents_semicolon hsemi] at h
        rcases target with - | d
        · obtain ⟨ts, ts', rfl, hnext, hts⟩ := ih h
          exact ⟨t :: ts, ts', rfl, hnext, by rw [tokenEvents_semicolon hsemi, hts]; rfl⟩
        · rcases before with - | ⟨e, before⟩
          · cases (List.cons.inj h).1
          · obtain ⟨rfl, hmore⟩ := List.cons.inj h
            obtain ⟨ts, ts', rfl, hnext, hts⟩ := ih hmore
            exact ⟨t :: ts, ts', rfl, hnext, by rw [tokenEvents_semicolon hsemi, hts]; rfl⟩

/-- A failed check blames the first use that is not in order. -/
theorem Node.firstUnresolved_of_declarations {n : Node} {t : Table} {e : Undeclared}
    (h : n.declarations t = .error e) : ∃ before, FirstUnresolved t n.events before e := by
  rw [declarations, check_eq_walk] at h
  rcases walk_cases n.events t with ⟨-, t', hrun, -⟩ | ⟨before, e', t', hfirst, hrun, -⟩
  · rw [hrun] at h
    cases h
  · rw [hrun] at h
    cases h
    exact ⟨before, hfirst⟩

/-- **The reported variable.** It is a token of the program and no target of an assignment. The
tokens before it have every use declared, and do not declare it. -/
theorem exists_undeclared_token {tokens : List Token} {ss : List Node} {table : Table}
    {e : Undeclared} {before : List Event} (hss : Statements tokens ss)
    (h : FirstUnresolved table (Node.eventsAll ss) before e) :
    ∃ ts ts', tokens = ts ++ ⟨.name e.name, e.line⟩ :: ts' ∧ lookahead ts' ≠ .mark .assign ∧
      Resolved table (tokenEvents none ts) ∧ ¬ Declared table (tokenEvents none ts) e.name := by
  obtain ⟨⟨after, hsplit⟩, hfirst, hundeclared⟩ := h
  have hevents : tokenEvents none tokens = before ++ .use e.name e.line :: after := by
    have hall := tokenEvents_of_statements [] hss
    rw [List.append_nil, tokenEvents, List.append_nil] at hall
    exact hall.trans hsplit
  obtain ⟨ts, ts', htokens, hnext, rfl⟩ := exists_token_of_use hevents
  exact ⟨ts, ts', htokens, hnext, hfirst, hundeclared⟩

end KannadaScript
