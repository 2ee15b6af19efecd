import KannadaScript.Proofs.Declaration.TextualOrder
import KannadaScript.Proofs.Phases
import KannadaScript.Proofs.Safety
import KannadaScript.Proofs.Tree.Lines

/-!
# Layout never shows

Where a token stands has no influence on what becomes of it. Token lists with the same lexemes are
read as trees that differ in lines only (`Node.ofTokens_alike`), and the phases after reading do not
look at lines either:

* the events of a tree without lines are its events without lines, and a walk over events decides
  nothing by their lines (`Node.check_blind`);
* the script of a tree without lines is its script without the line of its failure
  (`Node.script_unlined`), and what was read from tokens has no failure that is about a line.

To compare two things up to lines is to compare what is left when all lines are set to zero, for
trees (`Node.unlined`), events, scripts and errors alike. So the comparison is an equation, it can
be rewritten with, and nothing has to be shown about a relation. The steps of the check have a
state, a table whose declarations have lines; there the comparison is between two runs side by side
(`Step.Matches`), from tables with the same names.

Lines do show in errors, and only there. Of two compilations that fail, the errors differ at most in
the line that they are about (`SameOutcome`).

Main statement: `layout_never_shows`.
-/

namespace KannadaScript

open Code

/-! ### Checking -/

/-- The event without its line. -/
def Event.unlined : Event → Event
  | .use x _ => .use x 0
  | .define x _ => .define x 0

namespace Node

mutual
/-- The events of a tree without lines are its events without lines. -/
theorem events_unlined (n : Node) : n.unlined.events = n.events.map Event.unlined := by
  match n with
  | .program _ ss | .block _ ss => exact eventsAll_unlined ss
  | .ifThen _ a b | .loop _ a b | .binary _ _ a b =>
    rw [unlined, events, events, events_unlined a, events_unlined b, List.map_append]
  | .ifElse _ c t e =>
    rw [unlined, events, events, events_unlined c, events_unlined t, events_unlined e,
      List.map_append, List.map_append]
  | .print _ v | .negate _ v => exact events_unlined v
  | .assign _ x v =>
    rw [unlined, events, events, events_unlined v, List.map_append]
    rfl
  | .var _ _ | .number _ _ | .quoted _ _ | .truth _ _ => rfl
theorem eventsAll_unlined (ns : List Node) :
    eventsAll (unlinedAll ns) = (eventsAll ns).map Event.unlined := by
  match ns with
  | [] => rfl
  | n :: ns =>
    rw [unlinedAll, eventsAll, eventsAll, events_unlined n, eventsAll_unlined ns, List.map_append]
end

end Node

/-- Tables that have the same names. -/
def Table.SameNames (t t' : Table) : Prop := ∀ x, t.contains x = t'.contains x

/-- Events that differ in their line only, at tables with the same names: what is blamed, if
anything, is their two uses. -/
theorem step_matches {E : Undeclared → Undeclared → Prop} {e e' : Event}
    (h : e.unlined = e'.unlined)
    (hE : ∀ x l l', e = .use x l → e' = .use x l' → E ⟨x, l⟩ ⟨x, l'⟩) :
    Step.Matches (fun _ _ ↦ True) E Table.SameNames e.step e'.step := by
  intro t t' ht
  match e, e', h with
  | .use x l, .use _ l', rfl =>
    by_cases hx : t.contains x = true
    · rw [step_use_of_contains hx, step_use_of_contains ((ht x).symm.trans hx)]
      exact .ok trivial ht
    · have hx : t.contains x = false := Bool.eq_false_iff.2 hx
      rw [step_use_of_missing hx, step_use_of_missing ((ht x).symm.trans hx)]
      exact .error (hE x l l' rfl rfl) ht
  | .define x l, .define _ l', rfl =>
    refine .ok trivial fun y ↦ ?_
    show Table.contains (if t.contains x then t else t.insert ⟨x, .var, l⟩) y =
      Table.contains (if t'.contains x then t' else t'.insert ⟨x, .var, l'⟩) y
    rw [ht x]
    split
    · exact ht y
    · rw [Bool.eq_iff_iff, Table.contains_insert, Table.contains_insert, ht y]

/-- Walks match if they do event by event. -/
theorem walk_matches {E : Undeclared → Undeclared → Prop} {es es' : List Event}
    (h : List.Forall₂ (fun e e' ↦ Step.Matches (fun _ _ ↦ True) E Table.SameNames e.step e'.step)
      es es') :
    Step.Matches (fun _ _ ↦ True) E Table.SameNames (walk es) (walk es') := by
  induction h with
  | nil => exact Step.matches_pure trivial
  | cons first rest ih => exact first.bind fun _ _ _ ↦ ih

/-- Steps of the check that leave tables with the same names, or blame the same name. -/
abbrev Check.Blind (c c' : Check Unit) : Prop :=
  Step.Matches (fun _ _ ↦ True) (fun e e' : Undeclared ↦ e.name = e'.name) Table.SameNames c c'

/-- Walks over events that differ in lines only decide the same. -/
theorem walk_blind {es es' : List Event} (h : es.map Event.unlined = es'.map Event.unlined) :
    Check.Blind (walk es) (walk es') := by
  have hpairs : List.Forall₂ (fun e e' : Event ↦ e.unlined = e'.unlined) es es' := by
    rwa [← List.forall₂_eq_eq_eq, List.forall₂_map_left_iff, List.forall₂_map_right_iff] at h
  exact walk_matches (hpairs.imp fun e e' he ↦ step_matches he fun _ _ _ _ _ ↦ rfl)

/-- Trees that differ in lines only are checked alike. -/
theorem Node.check_blind {n n' : Node} (h : n.unlined = n'.unlined) :
    Check.Blind n.check n'.check := by
  rw [n.check_eq_walk, n'.check_eq_walk]
  exact walk_blind (by rw [← n.events_unlined, ← n'.events_unlined, h])

/-- The check gives both trees the same verdict: both pass, or the same name is undeclared. -/
def Node.SameVerdict (t : Table) (n n' : Node) : Prop :=
  (∃ t₁ t₂, n.declarations t = .ok t₁ ∧ n'.declarations t = .ok t₂) ∨
    ∃ e e', n.declarations t = .error e ∧ n'.declarations t = .error e' ∧ e.name = e'.name

/-- Trees that differ in lines only pass the check both, or fail it both with the same name. -/
theorem Node.sameVerdict {n n' : Node} (h : n.unlined = n'.unlined) (t : Table) :
    n.SameVerdict t n' := by
  have hrun := check_blind h t t fun _ ↦ rfl
  rw [SameVerdict, declarations, declarations]
  generalize n.check t = result at hrun
  generalize n'.check t = result' at hrun
  cases hrun with
  | ok value state => exact .inl ⟨_, _, rfl, rfl⟩
  | error error state => exact .inr ⟨_, _, rfl, rfl, error⟩

/-! ### Writing -/

namespace Code

/-- The failure without the line it is about. -/
def Failure.unlined : Failure → Failure
  | .misplaced how _ => .misplaced how 0
  | .storage fault => .storage fault
  | .paddingTooWide depth => .paddingTooWide depth

namespace Script

/-- The script without the line that its failure is about. -/
def unlined (a : Script) : Script := ⟨a.text, a.failure.map Failure.unlined⟩

/-- The line of a failure plays no part in what follows it. -/
theorem unlined_andThen (a b : Script) :
    (a.andThen b).unlined = a.unlined.andThen b.unlined := by
  rcases a with ⟨text, - | f⟩ <;> rfl

theorem unlined_say (text : String) : (say text).unlined = say text := rfl

theorem unlined_indent (width depth : Nat) :
    (indent width depth).unlined = indent width depth := by
  rw [indent]
  split <;> rfl

theorem unlined_wrapped (wrap : Bool) (a : Script) :
    (wrapped wrap a).unlined = wrapped wrap a.unlined := by
  cases wrap with
  | false => rfl
  | true =>
    show ((say "(").andThen (a.andThen (say ")"))).unlined =
      (say "(").andThen (a.unlined.andThen (say ")"))
    rw [unlined_andThen, unlined_andThen, unlined_say, unlined_say]

/-- What is written, or stops at a line that is too wide, is about no line of the source. -/
theorem Covers.unlined_eq {width levels : Nat} {a : Script} {atoms : List Atom}
    (h : a.Covers width levels atoms) : a.unlined = a := by
  rcases h with ⟨-, rfl⟩ | ⟨-, ⟨d, hfailure⟩, -⟩
  · rfl
  · rw [unlined, hfailure]
    exact congrArg (Script.mk a.text) hfailure.symm

end Script

end Code

namespace Node

theorem wrapsLeft_unlined (op : BinaryOp) (n : Node) : n.unlined.wrapsLeft op = n.wrapsLeft op := by
  cases n <;> rfl

theorem wrapsRight_unlined (op : BinaryOp) (n : Node) :
    n.unlined.wrapsRight op = n.wrapsRight op := by
  cases n <;> rfl

theorem wrapsNegated_unlined (n : Node) : n.unlined.wrapsNegated = n.wrapsNegated := by
  cases n <;> rfl

/-- The script of an expression without lines is its script without the line of its failure. -/
theorem expressionScript_unlined (n : Node) :
    n.unlined.expressionScript = n.expressionScript.unlined := by
  match n with
  | .binary _ op a b =>
    rw [unlined, expressionScript, expressionScript, Script.unlined_andThen,
      Script.unlined_andThen, Script.unlined_wrapped, Script.unlined_wrapped,
      expressionScript_unlined a, expressionScript_unlined b, wrapsLeft_unlined,
      wrapsRight_unlined, Script.unlined_say]
  | .negate _ a =>
    rw [unlined, expressionScript, expressionScript, Script.unlined_andThen,
      Script.unlined_wrapped, expressionScript_unlined a, wrapsNegated_unlined, Script.unlined_say]
  | .program _ _ | .block _ _ | .ifThen _ _ _ | .ifElse _ _ _ _ | .loop _ _ _ | .print _ _
  | .assign _ _ _ | .var _ _ | .number _ _ | .quoted _ _ | .truth _ _ => rfl

theorem headed_unlined (width depth : Nat) (start : String) (condition body rest : Script) :
    (headed width depth start condition body rest).unlined =
      headed width depth start condition.unlined body.unlined rest.unlined := by
  simp only [headed, Script.unlined_andThen, Script.unlined_say, Script.unlined_indent]

mutual
/-- The same for statements, by induction on the tree. -/
theorem statementScript_unlined (width depth : Nat) (n : Node) :
    n.unlined.statementScript width depth = (n.statementScript width depth).unlined := by
  match n with
  | .ifThen _ c t | .loop _ c t =>
    rw [unlined, statementScript, statementScript, headed_unlined, expressionScript_unlined c,
      bodyScript_unlined width depth t, Script.unlined_say]
  | .ifElse _ c t e =>
    rw [unlined, statementScript, statementScript, headed_unlined, expressionScript_unlined c,
      bodyScript_unlined width depth t, bodyScript_unlined width depth e]
    simp only [Script.unlined_andThen, Script.unlined_say, Script.unlined_indent]
  | .print _ v | .assign _ _ v =>
    rw [unlined, statementScript, statementScript, expressionScript_unlined v]
    simp only [Script.unlined_andThen, Script.unlined_say, Script.unlined_indent]
  | .program _ _ | .block _ _ | .binary _ _ _ _ | .negate _ _ | .var _ _ | .number _ _
  | .quoted _ _ | .truth _ _ => rfl
theorem bodyScript_unlined (width depth : Nat) (n : Node) :
    n.unlined.bodyScript width depth = (n.bodyScript width depth).unlined := by
  match n with
  | .block _ ss => exact statementsScript_unlined width (depth + 1) ss
  | .program _ _ | .ifThen _ _ _ | .ifElse _ _ _ _ | .loop _ _ _ | .print _ _ | .assign _ _ _
  | .binary _ _ _ _ | .negate _ _ | .var _ _ | .number _ _ | .quoted _ _ | .truth _ _ => rfl
theorem statementsScript_unlined (width depth : Nat) (ns : List Node) :
    statementsScript width depth (unlinedAll ns) = (statementsScript width depth ns).unlined := by
  match ns with
  | [] => rfl
  | n :: ns =>
    rw [unlinedAll, statementsScript, statementsScript, Script.unlined_andThen,
      statementScript_unlined width depth n, statementsScript_unlined width depth ns]
end

/-- The script of a tree without lines is its script without the line of its failure. -/
theorem script_unlined (width depth : Nat) (n : Node) :
    n.unlined.script width depth = (n.script width depth).unlined := by
  match n with
  | .program _ ss => exact statementsScript_unlined width depth ss
  | .ifThen _ _ _ | .ifElse _ _ _ _ | .loop _ _ _ | .print _ _ | .assign _ _ _ | .block _ _
  | .binary _ _ _ _ | .negate _ _ | .var _ _ | .number _ _ | .quoted _ _ | .truth _ _ =>
    exact statementScript_unlined width depth _

/-- Programs in which every node is in its place, and that differ in lines only, have the same
script. -/
theorem script_eq_of_unlined_eq {p p' : Node} (hp : p.isProgram = true) (hp' : p'.isProgram = true)
    (h : p.unlined = p'.unlined) (width depth : Nat) :
    p.script width depth = p'.script width depth := by
  have hself {q : Node} (hq : q.isProgram = true) :
      (q.script width depth).unlined = q.script width depth := by
    match q with
    | .program _ ss => exact (statementsScript_covers width depth ss hq).unlined_eq
  rw [← hself hp, ← hself hp', ← script_unlined, ← script_unlined, h]

/-- Programs in which every node is in its place, and that differ in lines only, are written
alike, on every sink. -/
theorem emit_eq_of_unlined_eq {p p' : Node} (hp : p.isProgram = true) (hp' : p'.isProgram = true)
    (h : p.unlined = p'.unlined) (width depth : Nat) :
    p.emit width depth = p'.emit width depth := by
  rw [emit_eq_play, emit_eq_play, script_eq_of_unlined_eq hp hp' h]

end Node

/-! ### Compilations -/

/-- The error without the line it is about. -/
def CompileError.unlined : CompileError → CompileError
  | .lexical e => .lexical { e with line := 0 }
  | .grammatical e => .grammatical { e with line := 0 }
  | .undeclared e => .undeclared { e with line := 0 }
  | .unwritten failure => .unwritten failure.unlined

/-- The two compilations leave the same bytes, and both succeed or both fail with the same error
up to its line. -/
abbrev SameOutcome (r r' : EStateM.Result CompileError Sink Unit) : Prop :=
  Step.Alike (fun _ _ ↦ True) (fun e e' ↦ e.unlined = e'.unlined) (· = ·) r r'

theorem sameOutcome_refl (r : EStateM.Result CompileError Sink Unit) : SameOutcome r r := by
  rcases r with ⟨u, s⟩ | ⟨e, s⟩
  · exact .ok trivial rfl
  · exact .error rfl rfl

/-- What becomes of two token lists, phase by phase. -/
inductive TreatedAlike (options : Options) (tokens tokens' : List Token) : Prop
  /-- Neither is a program, for the same reason. -/
  | refused {e e' : SyntaxError} (first : Node.ofTokens tokens = .error e)
      (second : Node.ofTokens tokens' = .error e') (fault : e.fault = e'.fault)
  /-- Both are programs that differ in lines only; they get the same verdict of the check and the
  same code. -/
  | read {p p' : Node} (first : Node.ofTokens tokens = .ok p)
      (second : Node.ofTokens tokens' = .ok p') (shape : p.unlined = p'.unlined)
      (verdict : p.SameVerdict options.table p')
      (code : ∀ width depth s, p.emit width depth s = p'.emit width depth s)

/-- Token lists with the same lexemes are treated alike by every phase. -/
theorem treatedAlike {tokens tokens' : List Token}
    (h : tokens.map Token.lexeme = tokens'.map Token.lexeme) (options : Options) :
    TreatedAlike options tokens tokens' := by
  rcases Node.ofTokens_alike h with ⟨p, p', hp, hp', hshape⟩ | ⟨e, e', he, he', hfault⟩
  · have hcode := Node.emit_eq_of_unlined_eq (isProgram_of_ofTokens hp)
      (isProgram_of_ofTokens hp') hshape
    exact .read hp hp' hshape (Node.sameVerdict hshape _) fun width depth s ↦ by rw [hcode]
  · exact .refused he he' hfault

/-- Texts whose tokens are treated alike are compiled alike. -/
theorem TreatedAlike.sameOutcome {options : Options} {tokens tokens' : List Token}
    (h : TreatedAlike options tokens tokens') {source source' : String}
    (hs : tokenize source = .ok tokens) (hs' : tokenize source' = .ok tokens') (s : Sink) :
    SameOutcome (compile options source s) (compile options source' s) := by
  rcases h with @⟨e, e', he, he', hfault⟩ | @⟨p, p', hp, hp', -, hverdict, hcode⟩
  · rw [compile_of_rejected (accepted_of_grammatical hs he),
      compile_of_rejected (accepted_of_grammatical hs' he')]
    refine .error ?_ rfl
    show CompileError.grammatical ⟨e.fault, 0⟩ = .grammatical ⟨e'.fault, 0⟩
    rw [hfault]
  · rcases hverdict with ⟨t, t', ht, ht'⟩ | ⟨e, e', he, he', hname⟩
    · rw [compile_of_accepted (accepted_of_declarations hs hp ht),
        compile_of_accepted (accepted_of_declarations hs' hp' ht'), written, written, hcode]
      exact sameOutcome_refl _
    · rw [compile_of_rejected (accepted_of_undeclared hs hp he),
        compile_of_rejected (accepted_of_undeclared hs' hp' he')]
      refine .error ?_ rfl
      show CompileError.undeclared ⟨e.name, 0⟩ = .undeclared ⟨e'.name, 0⟩
      rw [hname]

/-- **Layout never shows.** Token lists with the same lexemes, whatever their lines, are both no
program, with the same fault, or both programs that differ in lines only, with the same verdict of
the check and the same code. So texts with the same lexemes, whatever their blanks, are compiled
alike. -/
theorem layout_never_shows (options : Options) (tokens tokens' : List Token)
    (h : tokens.map Token.lexeme = tokens'.map Token.lexeme) :
    TreatedAlike options tokens tokens' ∧
      ∀ source source', tokenize source = .ok tokens → tokenize source' = .ok tokens' →
        ∀ s, SameOutcome (compile options source s) (compile options source' s) :=
  ⟨treatedAlike h options, fun _ _ hs hs' s ↦ (treatedAlike h options).sameOutcome hs hs' s⟩

/-- A program on one line and the same on seven, with a name that neither declares. -/
theorem layout_never_shows_undeclared :
    let line := "ಕ=೧;ಮುದ್ರಿಸು ಖ;"
    let page := "\n ಕ\n=\t೧ ;\n\nಮುದ್ರಿಸು\r\nಖ\n; "
    ∃ tokens tokens', tokenize line = .ok tokens ∧ tokenize page = .ok tokens' ∧
      tokens.map Token.lexeme = tokens'.map Token.lexeme ∧ TreatedAlike {} tokens tokens' ∧
      ∀ s, SameOutcome (compile {} line s) (compile {} page s) := by
  intro line page
  have hline : tokenize line = .ok [⟨.name "ಕ", 1⟩, ⟨.mark .assign, 1⟩, ⟨.number 1, 1⟩,
      ⟨.mark .semicolon, 1⟩, ⟨.keyword .printWord, 1⟩, ⟨.name "ಖ", 1⟩, ⟨.mark .semicolon, 1⟩,
      ⟨.endOfFile, 1⟩] := by decide +kernel
  have hpage : tokenize page = .ok [⟨.name "ಕ", 2⟩, ⟨.mark .assign, 3⟩, ⟨.number 1, 3⟩,
      ⟨.mark .semicolon, 3⟩, ⟨.keyword .printWord, 5⟩, ⟨.name "ಖ", 6⟩, ⟨.mark .semicolon, 7⟩,
      ⟨.endOfFile, 7⟩] := by decide +kernel
  refine ⟨_, _, hline, hpage, rfl, ?_, ?_⟩
  · exact (layout_never_shows {} _ _ (by rfl)).1
  · exact (layout_never_shows {} _ _ (by rfl)).2 line page hline hpage

end KannadaScript
