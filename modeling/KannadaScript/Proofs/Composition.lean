import KannadaScript.Proofs.Layout
import KannadaScript.Proofs.Token.Splitting

/-!
# Compilation is compositional

Two source texts in a row, with nothing between them, are compiled to the code of the first and
the code of the second. Each phase keeps them apart.

* A text that was read ends in a semicolon or a closing brace, if it has a lexeme at all. Both end
  wherever the next text begins, so no lexeme reaches across the seam (`Splits.append`).
* All brackets of the first text are closed and operators are counted for each statement anew, so
  the limits on both texts are the limits on each (`ofTokens_append`).
* What the first text assigns is declared for the second one (`Resolved.append`).
* Statements in a row are written in a row (`Node.statementsScript_append`).

The second text stands on other lines than it does alone. So the tree of both is made of the trees
of each only up to lines, and that layout never shows is what closes the gap.

Main statement: `compile_append`.
-/

namespace KannadaScript

open Grammar Code

/-! ### Scanning -/

theorem Lexeme.EndsBefore.append {l : Lexeme} {c : Char} {rest : List Char}
    (h : l.EndsBefore (c :: rest)) (more : List Char) : l.EndsBefore (c :: rest ++ more) := h

theorem beforeEnd_cons {t : Token} (h : t.lexeme ≠ .endOfFile) (ts : List Token) :
    beforeEnd (t :: ts) = t :: beforeEnd ts := by
  rw [beforeEnd, List.takeWhile_cons, if_pos (bne_iff_ne.2 h)]
  rfl

/-- The end of file of the first list is dropped, that of the second ends both. -/
theorem beforeEnd_append (ts ts' : List Token) :
    beforeEnd (beforeEnd ts ++ ts') = beforeEnd ts ++ beforeEnd ts' := by
  have hopen : ∀ t ∈ beforeEnd ts, (t.lexeme != .endOfFile) = true := fun t ht ↦
    List.mem_takeWhile_imp (p := fun t : Token ↦ t.lexeme != .endOfFile) ht
  exact List.takeWhile_append_of_pos hopen

namespace Splits

/-- An empty text has no lexeme. -/
theorem beforeEnd_of_nil {before : List Char} {tokens : List Token} (h : Splits before [] tokens) :
    beforeEnd tokens = [] := by
  generalize hcs : ([] : List Char) = cs at h
  rcases h with blank | ⟨blank, spells, ends, more⟩
  · rfl
  · obtain ⟨c, x, rfl, -⟩ := spells.exists_cons
    simp at hcs

/-- **The seam.** If the last lexeme of a text ends where the next text begins, the texts in a row
split into the lexemes of both. -/
theorem append {before cs cs' : List Char} {tokens tokens' : List Token}
    (h : Splits before cs tokens) (h' : Splits (before ++ cs) cs' tokens')
    (hseam : ∀ t ∈ (beforeEnd tokens).getLast?, t.lexeme.EndsBefore cs') :
    Splits before (cs ++ cs') (beforeEnd tokens ++ tokens') := by
  induction h with
  | done blank => exact h'.blank blank
  | @lexeme before w x rest l tokens blank spells ends more ih =>
    have hcons := beforeEnd_cons (t := ⟨l, lineAfter (before ++ w)⟩) spells.isProper.1 tokens
    rw [hcons] at hseam ⊢
    rw [List.append_assoc, List.cons_append]
    refine .lexeme blank spells ?_ (ih ?_ fun t ht ↦ hseam t ?_)
    · -- a lexeme meets the second text only if nothing of the first one follows it
      rcases rest with - | ⟨c, rest⟩
      · refine hseam ⟨l, lineAfter (before ++ w)⟩ ?_
        rw [more.beforeEnd_of_nil]
        rfl
      · exact ends.append cs'
    · rwa [← List.append_assoc, ← List.append_assoc] at h'
    · rw [List.getLast?_cons, Option.mem_def.1 ht]
      rfl

/-- What precedes a text decides on the lines of its tokens only. -/
theorem shift {before cs : List Char} {tokens : List Token} (h : Splits before cs tokens)
    (before' : List Char) :
    ∃ tokens', Splits before' cs tokens' ∧
      tokens.map Token.lexeme = tokens'.map Token.lexeme := by
  induction h generalizing before' with
  | done blank => exact ⟨_, .done blank, rfl⟩
  | @lexeme before w x rest l tokens blank spells ends more ih =>
    obtain ⟨tokens', hsplits, hsame⟩ := ih (before' ++ w ++ x)
    exact ⟨_, .lexeme blank spells ends hsplits, congrArg (l :: ·) hsame⟩

end Splits

/-- Texts in a row are scanned into the lexemes of both, if the last lexeme of the first can end in
front of anything. -/
theorem tokenize_append {first second : String} {tokens tokens' : List Token}
    (h : tokenize first = .ok tokens) (h' : tokenize second = .ok tokens')
    (hseam : ∀ t ∈ (beforeEnd tokens).getLast?, ∀ rest, t.lexeme.EndsBefore rest) :
    ∃ shifted, tokenize (first ++ second) = .ok (beforeEnd tokens ++ shifted) ∧
      tokens'.map Token.lexeme = shifted.map Token.lexeme := by
  obtain ⟨shifted, hsplits, hsame⟩ := (splits_of_tokenize h').shift first.toList
  refine ⟨shifted, tokenize_of_splits ?_, hsame⟩
  rw [String.toList_append]
  exact (splits_of_tokenize h).append hsplits fun t ht ↦ hseam t ht _

/-! ### Reading -/

namespace Grammar

/-- A block ends in its closing brace. -/
theorem Block.getLast?_eq {ts : List Token} {n : Node} (h : Block ts n) :
    ∃ t, ts.getLast? = some t ∧ t.lexeme = .mark .closeBrace := by
  obtain ⟨ho, inside, hc⟩ := h
  exact ⟨_, List.getLast?_concat, hc⟩

/-- A statement ends in a semicolon or a closing brace. -/
theorem Statement.getLast?_eq {ts : List Token} {n : Node} (h : Statement ts n) :
    ∃ t, ts.getLast? = some t ∧
      (t.lexeme = .mark .semicolon ∨ t.lexeme = .mark .closeBrace) := by
  cases h with
  | ifThen ht condition body | loop ht condition body =>
    obtain ⟨t, hlast, ht⟩ := body.getLast?_eq
    exact ⟨t, by rw [List.getLast?_append, hlast]; rfl, .inr ht⟩
  | ifElse ht condition body hu other =>
    obtain ⟨t, hlast, ht⟩ := other.getLast?_eq
    exact ⟨t, by rw [List.getLast?_append, List.getLast?_cons, hlast]; rfl, .inr ht⟩
  | print ht value he | assign ht ha value he => exact ⟨_, List.getLast?_concat, .inl he⟩

/-- The last lexeme of statements ends wherever the text goes on. -/
theorem Statements.getLast?_endsBefore {ts : List Token} {ss : List Node} :
    Statements ts ss → ∀ t ∈ ts.getLast?, ∀ rest, t.lexeme.EndsBefore rest
  | .nil, t, ht => by cases ht
  | @Statements.cons ts ts' _ _ first more, t, ht => by
    rw [List.getLast?_append, Option.mem_def, Option.or_eq_some_iff] at ht
    rcases ht with ht | ⟨-, ht⟩
    · exact more.getLast?_endsBefore t ht
    · obtain ⟨u, hu, hlast⟩ := first.getLast?_eq
      obtain rfl : u = t := Option.some.inj (hu.symm.trans ht)
      rcases hlast with h | h <;> rw [h] <;> exact fun _ ↦ trivial

/-- Statements after statements are statements. -/
theorem Statements.append {ts ts' : List Token} {ss ss' : List Node} :
    Statements ts ss → Statements ts' ss' → Statements (ts ++ ts') (ss ++ ss')
  | .nil, h' => h'
  | .cons first more, h' => by
    rw [List.append_assoc]
    exact .cons first (more.append h')

end Grammar

theorem Node.ownExpressionsAll_append (ss ss' : List Node) :
    ownExpressionsAll (ss ++ ss') = ownExpressionsAll ss ++ ownExpressionsAll ss' := by
  induction ss with
  | nil => rfl
  | cons s ss ih =>
    rw [List.cons_append, ownExpressionsAll, ownExpressionsAll, ih, List.append_assoc]

/-- Programs in a row are read as one, of the statements of both. -/
theorem ofTokens_append {tokens tokens' : List Token} {line line' : Nat} {ss ss' : List Node}
    (h : Node.ofTokens tokens = .ok (.program line ss))
    (h' : Node.ofTokens tokens' = .ok (.program line' ss')) :
    ∃ l, Node.ofTokens (beforeEnd tokens ++ tokens') = .ok (.program l (ss ++ ss')) := by
  obtain ⟨⟨-, hss⟩, hpeak, hown⟩ := (ofTokens_eq_ok_iff _ _).1 h
  obtain ⟨⟨-, hss'⟩, hpeak', hown'⟩ := (ofTokens_eq_ok_iff _ _).1 h'
  obtain ⟨first, rest, hstart, -⟩ := ended_eq_cons (beforeEnd tokens ++ tokens')
  refine ⟨first.line, (ofTokens_eq_ok_iff _ _).2 ⟨.mk hstart ?_, ?_, ?_⟩⟩
  · rw [beforeEnd_append]
    exact hss.append hss'
  · rw [beforeEnd_append, hss.balanced]
    exact max_le hpeak hpeak'
  · rw [Node.ownExpressions, Node.ownExpressionsAll_append, Parse.modest_append]
    exact ⟨hown, hown'⟩

/-! ### Checking -/

/-- The name that an event defines, if it defines one. -/
def Event.defined? : Event → Option String
  | .define x _ => some x
  | .use _ _ => none

/-- The names that a tree assigns, in the order of its text. -/
def Node.assigned (n : Node) : List String := n.events.filterMap Event.defined?

/-- The assigned names of a tree are those that its events define. -/
theorem Node.mem_assigned_iff {n : Node} {x : String} :
    x ∈ n.assigned ↔ ∃ l, .define x l ∈ n.events := by
  rw [assigned, List.mem_filterMap]
  constructor
  · rintro ⟨⟨y, l⟩ | ⟨y, l⟩, hmem, hx⟩
    · cases hx
    · cases hx
      exact ⟨l, hmem⟩
  · rintro ⟨l, hmem⟩
    exact ⟨_, hmem, rfl⟩

theorem Node.eventsAll_append (ns ns' : List Node) :
    eventsAll (ns ++ ns') = eventsAll ns ++ eventsAll ns' := by
  induction ns with
  | nil => rfl
  | cons n ns ih => rw [List.cons_append, eventsAll, eventsAll, ih, List.append_assoc]

/-- A tree passes the check exactly when all its uses are in order. -/
theorem Node.exists_declarations_iff_resolved (n : Node) (t : Table) :
    (∃ t', n.declarations t = .ok t') ↔ Resolved t n.events := by
  rw [← exists_walk_eq_ok_iff, declarations, n.check_eq_walk]
  rcases walk n.events t with ⟨u, t'⟩ | ⟨e, t'⟩ <;> simp

/-- A check starts with the predeclared names and no others. -/
theorem Options.contains_table (options : Options) (x : String) :
    options.table.contains x = true ↔ x ∈ options.predeclared := by
  rw [Options.table, Table.contains_foldl_declare]
  exact or_iff_right Bool.false_ne_true

/-- Uses that are in order in a table are in order after events that declare all of the table. -/
theorem Resolved.append {t t' : Table} {es es' : List Event} (h : Resolved t es)
    (h' : Resolved t' es') (ht : ∀ x, t'.contains x = true → Declared t es x) :
    Resolved t (es ++ es') := by
  refine resolved_append_iff.2 ⟨h, fun before x l after heq ↦ ?_⟩
  rcases h' before x l after heq with hx | ⟨line, hx⟩
  · exact (ht x hx).imp_right fun ⟨line, hx⟩ ↦ ⟨line, List.mem_append_left _ hx⟩
  · exact .inr ⟨line, List.mem_append_right _ hx⟩

/-! ### Writing -/

/-- Three scripts in a row, taken together from the left or from the right. -/
theorem Code.Script.andThen_assoc (a b c : Script) :
    (a.andThen b).andThen c = a.andThen (b.andThen c) := by
  rcases a with ⟨text, - | f⟩
  · rcases b with ⟨text', - | f'⟩
    · simp only [andThen_of_none, List.append_assoc]
    · rfl
  · rfl

/-- Statements in a row are written in a row. -/
theorem Node.statementsScript_append (width depth : Nat) (ss ss' : List Node) :
    statementsScript width depth (ss ++ ss') =
      (statementsScript width depth ss).andThen (statementsScript width depth ss') := by
  induction ss with
  | nil => rfl
  | cons s ss ih =>
    rw [List.cons_append, statementsScript, statementsScript, ih, Script.andThen_assoc]

/-! ### Compilations -/

/-- The names that a source text assigns, none if it spells no program. -/
def assignedNames (source : String) : List String :=
  match scanned source >>= parsed with
  | .ok program => program.assigned
  | .error _ => []

/-- The names that a source text assigns are those that its program does. -/
theorem assignedNames_eq {source : String} {tokens : List Token} {p : Node}
    (h : tokenize source = .ok tokens) (hp : Node.ofTokens tokens = .ok p) :
    assignedNames source = p.assigned := by
  have hread : (scanned source >>= parsed) = .ok p := by
    rw [scanned_of_tokenize h, Step.except_ok_bind, parsed_of_ofTokens hp]
  rw [assignedNames, hread]

/-- The settings for a text that follows `source`: what it assigns counts as declared. -/
def Options.after (options : Options) (source : String) : Options :=
  { options with predeclared := options.predeclared ++ assignedNames source }

/-- What a text assigns and what was declared before it is declared for the text that follows. -/
theorem Options.declared_of_contains_after {options : Options} {source : String}
    {tokens : List Token} {p : Node} (h : tokenize source = .ok tokens)
    (hp : Node.ofTokens tokens = .ok p) {x : String}
    (hx : (options.after source).table.contains x = true) : Declared options.table p.events x := by
  rw [contains_table, after, assignedNames_eq h hp, List.mem_append] at hx
  exact hx.imp (contains_table options x).2 Node.mem_assigned_iff.1

/-- A program that passes the check, with its tokens on other lines: it is read and passes the
check as before, and its script is the same. -/
theorem exists_program_of_sameLexemes {tokens tokens' : List Token} {p : Node} {t t' : Table}
    (h : tokens.map Token.lexeme = tokens'.map Token.lexeme) (hp : Node.ofTokens tokens = .ok p)
    (ht : p.declarations t = .ok t') :
    ∃ q, Node.ofTokens tokens' = .ok q ∧ Resolved t q.events ∧
      ∀ width depth, q.script width depth = p.script width depth := by
  rcases Node.ofTokens_alike h with ⟨p', q, hp', hq, hlines⟩ | ⟨e, -, he, -⟩
  · obtain rfl : p = p' := Except.ok.inj (hp.symm.trans hp')
    have hscript := Node.script_eq_of_unlined_eq (isProgram_of_ofTokens hp)
      (isProgram_of_ofTokens hq) hlines
    refine ⟨q, hq, (q.exists_declarations_iff_resolved t).1 ?_, fun _ _ ↦ (hscript _ _).symm⟩
    rcases Node.sameVerdict hlines t with ⟨-, t₂, -, ht₂⟩ | ⟨e, -, he, -⟩
    · exact ⟨t₂, ht₂⟩
    · exact absurd (ht.symm.trans he) (by simp)
  · exact absurd (hp.symm.trans he) (by simp)

/-- Texts that are accepted one after the other are accepted in a row, and the script of both is
the script of the first and then that of the second. -/
theorem accepted_append {options : Options} {first second : String} {p p' : Node}
    (h : accepted options first = .ok p)
    (h' : accepted (options.after first) second = .ok p') :
    ∃ q, accepted options (first ++ second) = .ok q ∧
      ∀ width depth, q.script width depth =
        (p.script width depth).andThen (p'.script width depth) := by
  obtain ⟨tokens, t, htokens, hp, ht⟩ := accepted_eq_ok_iff.1 h
  obtain ⟨tokens', t', htokens', hp', ht'⟩ := accepted_eq_ok_iff.1 h'
  obtain ⟨line, ss, rfl, hss⟩ := exists_statements_of_ofTokens hp
  obtain ⟨shifted, hboth, hsame⟩ := tokenize_append htokens htokens' hss.getLast?_endsBefore
  -- the second text stands on other lines here: its tree is `q`, and not `p'` itself
  obtain ⟨q, hq, hsecond, hscript⟩ := exists_program_of_sameLexemes hsame hp' ht'
  obtain ⟨line', ss', rfl, -⟩ := exists_statements_of_ofTokens hq
  obtain ⟨l, hread⟩ := ofTokens_append hp hq
  have hres : Resolved options.table (Node.program l (ss ++ ss')).events := by
    have hfirst := (Node.exists_declarations_iff_resolved _ _).1 ⟨t, ht⟩
    rw [Node.events, Node.eventsAll_append]
    exact hfirst.append hsecond fun x ↦ Options.declared_of_contains_after htokens hp
  obtain ⟨t'', ht''⟩ := (Node.exists_declarations_iff_resolved _ _).2 hres
  refine ⟨_, accepted_of_declarations hboth hread ht'', fun width depth ↦ ?_⟩
  rw [← hscript]
  exact Node.statementsScript_append width depth ss ss'

/-- **Compilation is compositional.** If a text compiles, and another one compiles once what the
first assigns is declared, then both in a row compile, to the code of the first followed by the
code of the second. -/
theorem compile_append (options : Options) (first second : String) (s s' : Sink)
    (h : compile options first {} = .ok () s)
    (h' : compile (options.after first) second {} = .ok () s') :
    compile options (first ++ second) {} = .ok () { written := s.written ++ s'.written } := by
  obtain ⟨p, hp, hfailure, rfl⟩ := compile_eq_ok_iff.1 h
  obtain ⟨p', hp', hfailure', rfl⟩ := compile_eq_ok_iff.1 h'
  obtain ⟨q, hq, hscript⟩ := accepted_append hp hp'
  have hboth : q.script options.indent 0 = ⟨(p.script options.indent 0).text ++
      (p'.script options.indent 0).text, (p'.script options.indent 0).failure⟩ := by
    rw [hscript, Script.andThen, hfailure]
  refine compile_eq_ok_iff.2 ⟨q, hq, by rw [hboth]; exact hfailure', ?_⟩
  rw [hboth, Text.encode_append, ← List.append_toArray]
  rfl

/-- A block that assigns a name, and a text that prints it. Neither has a blank at its end. -/
theorem compile_append_block :
    let first := "ಯದಿ ನಿಜ \x7bಕ=೧;\x7d"
    let second := "ಮುದ್ರಿಸು ಕ;"
    let code := "if (true) \x7b\n  ಕ = 1;\n\x7d\n"
    let code' := "print(ಕ);\n"
    let written (code : String) : Sink := { written := (Text.encode code.toList).toArray }
    compile { indent := 2 } first {} = .ok () (written code) ∧
      compile (Options.after { indent := 2 } first) second {} = .ok () (written code') ∧
      compile { indent := 2 } (first ++ second) {} =
        .ok () { written := (written code).written ++ (written code').written } := by
  intro first second code code' written
  have hfirst : compile { indent := 2 } first {} = .ok () (written code) := by
    let body : Node := .block 1 [.assign 1 "ಕ" (.number 1 1)]
    let p : Node := .program 1 [.ifThen 1 (.truth 1 true) body]
    have htext : (p.script 2 0).text = code.toList := by decide +kernel
    refine compile_eq_ok_iff.2 ⟨p, by decide +kernel, rfl, ?_⟩
    rw [htext]
  have hsecond : compile (Options.after { indent := 2 } first) second {} =
      .ok () (written code') := by
    let p : Node := .program 1 [.print 1 (.var 1 "ಕ")]
    have htext : (p.script 2 0).text = code'.toList := by decide +kernel
    refine compile_eq_ok_iff.2 ⟨p, by decide +kernel, rfl, ?_⟩
    show written code' = { written := (Text.encode (p.script 2 0).text).toArray }
    rw [htext]
  exact ⟨hfirst, hsecond, compile_append _ first second _ _ hfirst hsecond⟩

end KannadaScript
