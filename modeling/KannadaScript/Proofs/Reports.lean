import KannadaScript.Proofs.Command.Atomicity
import KannadaScript.Proofs.Declaration.Occurrences
import KannadaScript.Proofs.Token.Places
import KannadaScript.Proofs.Tree.Misfit

/-!
# Reported lines

An error of the source text is about a piece of it (`Culprit`): what is no lexeme, the token that
cannot stand where it stands, the variable that is not declared. The line of the error is carried
from the scan through tokens and trees, and here it is found to be the line of that piece.

What makes a piece of text the culprit is not left to the phase that complains. A lexical culprit is
a place that blanks and lexemes lead to and at which none can start; the culprit of a syntax error
is the first token with which the tokens up to it can start no program; and an undeclared variable
is the first token whose name is declared by nothing before it. Each of these is a statement about
the text or its tokens, and each phase has been shown to blame just that, so the three cases are
three short steps (`exists_culprit`).

The end of file is the one culprit without a character. An error about it has the line on which the
text ends, which may be a line that the text does not have; then a report quotes nothing.

Lines are counted by line feeds and quoted by line ends, which may be a carriage return and a line
feed. The first character of a culprit is no blank, hence neither of the two, so it stands inside a
line and both ways of counting agree (`exists_line_of_place`).

Main statement: `reported_line_holds_culprit`. The reported line is that of the culprit, and the
report of a run quotes the line of the text that holds it.
-/

namespace KannadaScript

open Grammar

/-! ### Culprits -/

/-- The error is about `x`, which stands between `before` and `rest` in the source text. -/
inductive Culprit (options : Options) (source : String) (before x rest : List Char) :
    CompileError → Prop
  /-- The scan breaks at it. -/
  | lexical {e : LexicalError} {ts : List Token}
      (leads : Leads [] source.toList ts before (x ++ rest))
      (breaks : Lexeme.Breaks x rest e.fault) :
      Culprit options source before x rest (.lexical e)
  /-- It is a lexeme that offends behind those before it. -/
  | grammatical {e : SyntaxError} {ts : List Token} {l : Lexeme}
      (leads : Leads [] source.toList ts before (x ++ rest)) (spells : Lexeme.Spells x l)
      (ends : l.EndsBefore rest) (offends : Offends ts l e.fault) :
      Culprit options source before x rest (.grammatical e)
  /-- It is the end of the text, which offends behind all lexemes. -/
  | endOfFile {e : SyntaxError} {ts : List Token}
      (leads : Leads [] source.toList ts before []) (empty : x = [] ∧ rest = [])
      (offends : Offends ts .endOfFile e.fault) :
      Culprit options source before x rest (.grammatical e)
  /-- It is a name that is used, the first that is not declared by the lexemes before it. -/
  | undeclared {e : Undeclared} {ts more : List Token}
      (leads : Leads [] source.toList ts before (x ++ rest))
      (spells : Lexeme.Spells x (.name e.name)) (ends : (Lexeme.name e.name).EndsBefore rest)
      (follows : Splits (before ++ x) rest more) (used : lookahead more ≠ .mark .assign)
      (first : Resolved options.table (tokenEvents none ts))
      (missing : ¬ Declared options.table (tokenEvents none ts) e.name) :
      Culprit options source before x rest (.undeclared e)

section Culprit

variable {options : Options} {source : String} {tokens : List Token} {before x rest : List Char}

/-- A culprit is a piece of the text, with what stands before and behind it. -/
theorem Culprit.source_eq {e : CompileError} (h : Culprit options source before x rest e) :
    source.toList = before ++ x ++ rest := by
  have hplace {ts : List Token} (hleads : Leads [] source.toList ts before (x ++ rest)) :
      source.toList = before ++ x ++ rest := by
    rw [List.append_assoc]
    exact hleads.append_eq
  cases h with
  | lexical leads _ => exact hplace leads
  | grammatical leads _ _ _ => exact hplace leads
  | endOfFile leads empty _ =>
    obtain ⟨rfl, rfl⟩ := empty
    exact hplace leads
  | undeclared leads _ _ _ _ _ _ => exact hplace leads

/-- A culprit that is not the end of the text starts with a character of a line. -/
theorem Culprit.cases_on_end {e : CompileError} (h : Culprit options source before x rest e) :
    (x = [] ∧ before = source.toList ∧
      ∃ e', e = .grammatical e' ∧ e'.fault.found? = some .endOfFile) ∨
    ∃ c cs, x = c :: cs ∧ Lexeme.isBlankChar c = false := by
  have hspelled {l : Lexeme} (hx : Lexeme.Spells x l) :
      ∃ c cs, x = c :: cs ∧ Lexeme.isBlankChar c = false := by
    obtain ⟨c, cs, rfl, hc⟩ := hx.exists_cons
    exact ⟨c, cs, rfl, Lexeme.isBlankChar_of_lt hc⟩
  have hsource := h.source_eq
  cases h with
  | lexical _ breaks => exact .inr breaks.exists_cons
  | grammatical _ spells _ _ => exact .inr (hspelled spells)
  | @endOfFile e ts leads empty offends =>
    obtain ⟨rfl, rfl⟩ := empty
    refine .inl ⟨rfl, by simpa using hsource.symm, e, rfl, ?_⟩
    generalize e.fault = fault at offends
    cases offends with
    | misfit names _ _ _ => exact names
    | nested opens => cases opens
    | operators op mark => cases mark
  | undeclared _ spells _ _ _ _ _ => exact .inr (hspelled spells)

/-! ### Finding the culprit -/

/-- Tokens that a text splits into have their end of file already. -/
theorem Splits.ended_eq {before rest : List Char} (h : Splits before rest tokens) :
    ended tokens = tokens := by
  have hlast : ∃ l, tokens.getLast? = some ⟨.endOfFile, l⟩ := by
    induction h with
    | done _ => exact ⟨_, rfl⟩
    | lexeme _ _ _ _ ih =>
      obtain ⟨l, hl⟩ := ih
      exact ⟨l, by rw [List.getLast?_cons, hl]; rfl⟩
  obtain ⟨l, hl⟩ := hlast
  rw [ended, hl]
  rfl

/-- A scan that fails has come to a place where no lexeme starts. -/
theorem exists_culprit_of_lexical {e : LexicalError} (h : tokenize source = .error e) :
    ∃ before x rest, Culprit options source before x rest (.lexical e) ∧
      e.line = lineAfter before := by
  obtain ⟨ts, before, x, rest, hleads, hbreaks, hline⟩ := leads_of_tokenize_error h
  exact ⟨before, x, rest, .lexical hleads hbreaks, hline⟩

/-- A reader that fails blames a token, and that has a place in the text. -/
theorem exists_culprit_of_grammatical {e : SyntaxError} (h : tokenize source = .ok tokens)
    (he : Node.ofTokens tokens = .error e) :
    ∃ before x rest, Culprit options source before x rest (.grammatical e) ∧
      e.line = lineAfter before := by
  have hsplits := splits_of_tokenize h
  obtain ⟨ts, t, others, hended, -, hline, hoffends⟩ := offends_of_ofTokens he
  rw [hsplits.ended_eq] at hended
  rcases hsplits.leads hended with
    ⟨before, x, rest, hleads, hspells, hends, -, htline⟩ | ⟨rfl, hleads⟩
  · exact ⟨before, x, rest, .grammatical hleads hspells hends hoffends, hline.trans htline⟩
  · exact ⟨source.toList, [], [], .endOfFile hleads ⟨rfl, rfl⟩ hoffends, hline⟩

/-- A check that fails blames a name, and that is a token with a place in the text. -/
theorem exists_culprit_of_undeclared {e : Undeclared} {p : Node} (h : tokenize source = .ok tokens)
    (hp : Node.ofTokens tokens = .ok p) (he : p.declarations options.table = .error e) :
    ∃ before x rest, Culprit options source before x rest (.undeclared e) ∧
      e.line = lineAfter before := by
  have hsplits := splits_of_tokenize h
  obtain ⟨line, ss, rfl, hss⟩ := exists_statements_of_ofTokens hp
  obtain ⟨events, hfirst⟩ := Node.firstUnresolved_of_declarations he
  obtain ⟨ts, ts', hts, hused, hresolved, hmissing⟩ := exists_undeclared_token hss hfirst
  -- the whole list has an end of file behind the statements, which changes nothing
  obtain ⟨others, hended⟩ := exists_ended_eq tokens
  rw [hsplits.ended_eq, hts, List.append_assoc, List.cons_append] at hended
  rcases hsplits.leads hended with
    ⟨before, x, rest, hleads, hspells, hends, hmore, htline⟩ | ⟨ht, -⟩
  · refine ⟨before, x, rest, .undeclared hleads hspells hends hmore ?_ hresolved hmissing, htline⟩
    exact mt (lookahead_append_cons (by decide) (by simp)).1 hused
  · cases ht

/-- Every error of the source text has its culprit, and the line of it. -/
theorem exists_culprit {e : CompileError} (h : accepted options source = .error e) :
    ∃ before x rest, Culprit options source before x rest e ∧
      e.line? = some (lineAfter before) := by
  rcases htokens : tokenize source with e' | tokens
  · rw [accepted_of_lexical htokens] at h
    cases h
    obtain ⟨before, x, rest, hculprit, hline⟩ := exists_culprit_of_lexical htokens
    exact ⟨before, x, rest, hculprit, congrArg some hline⟩
  rcases hp : Node.ofTokens tokens with e' | p
  · rw [accepted_of_grammatical htokens hp] at h
    cases h
    obtain ⟨before, x, rest, hculprit, hline⟩ := exists_culprit_of_grammatical htokens hp
    exact ⟨before, x, rest, hculprit, congrArg some hline⟩
  rcases ht : p.declarations options.table with e' | t
  · rw [accepted_of_undeclared htokens hp ht] at h
    cases h
    obtain ⟨before, x, rest, hculprit, hline⟩ := exists_culprit_of_undeclared htokens hp ht
    exact ⟨before, x, rest, hculprit, congrArg some hline⟩
  · rw [accepted_of_declarations htokens hp ht] at h
    cases h

end Culprit

/-! ### Quoted lines -/

/-- A character that is no blank ends no line. -/
theorem not_mem_of_not_blank {c : Char} (h : Lexeme.isBlankChar c = false) :
    '\n' ∉ [c] ∧ '\r' ∉ [c] := by
  constructor <;>
    · intro hmem
      rw [← List.mem_singleton.1 hmem] at h
      cases h

/-- What spells a name is the name itself. -/
theorem toList_of_spells {x : List Char} {name : String} (h : Lexeme.Spells x (.name name)) :
    name.toList = x := by
  cases h with
  | name free => exact String.toList_ofList

/-- A name has no blank in it. -/
theorem isBlankChar_of_mem_name {x : List Char} {name : String} (h : Lexeme.Spells x (.name name))
    {c : Char} (hc : c ∈ x) : Lexeme.isBlankChar c = false := by
  cases h with
  | name free =>
    have hword := (Lexeme.isName_eq_true_iff.1 free).1
    have hpart := Kannada.le_of_isWordPart ((Lexeme.isWord_eq_true_iff.1 hword).2 c hc)
    exact Lexeme.isBlankChar_of_lt (lt_of_lt_of_le (by decide) hpart)

/-- The line of an undeclared variable has its name in it. -/
theorem Culprit.name_infix {options : Options} {source : String} {before x rest line : List Char}
    {u : Undeclared} (h : Culprit options source before x rest (.undeclared u))
    (hline : Text.line? source (lineAfter before) = some (String.ofList line)) :
    u.name.toList <:+: line := by
  have hsource := h.source_eq
  cases h with
  | undeclared leads spells _ _ _ _ _ =>
    have hnone {c : Char} (hc : Lexeme.isBlankChar c = true) : c ∉ x := fun hmem ↦ by
      simp [isBlankChar_of_mem_name spells hmem] at hc
    obtain ⟨c, cs, hx, -⟩ := spells.exists_cons
    obtain ⟨line', ⟨pre, left, right, post, -, -, hpieces, -⟩, hline'⟩ :=
      exists_line_of_place hsource (by simp [hx]) (hnone rfl) (hnone rfl)
    rw [hline, Option.some.injEq, String.ofList_inj] at hline'
    rw [toList_of_spells spells, hline', hpieces]
    exact ⟨left, right, rfl⟩

/-- The report of an error, with the line that it is about. -/
def Command.reportOf (p : Palette) (path : String) (e : CompileError) (number : Nat)
    (line : String) : String :=
  p.loud e.message ++ "\n" ++ ("  " ++ p.aside "-->" ++ " " ++ path ++ ":" ++ number.repr ++ "\n" ++
    (p.aside (Text.flushRight 4 number ++ " |") ++ " " ++ line ++ "\n"))

/-- A run reports the error of its source text. -/
theorem Command.stderr_of_rejected {ui : Interface} {folder : Folder} {args : List String}
    {job : Job} {source : String} {e : CompileError} (hask : ui.request? args = some (.job job))
    (hsource : sourceAt folder job.input = .ok source)
    (h : accepted job.options source = .error e) :
    (runIn ui folder args).1.stderr = failed ui.palette job.input source e := by
  rw [runIn_of_rejected hask hsource h]

/-- The report of an error about a line that the text has. -/
theorem Command.failed_of_line {p : Palette} {path source line : String} {e : CompileError}
    {number : Nat} (hnumber : e.line? = some number)
    (hline : Text.line? source number = some line) :
    failed p path source e = reportOf p path e number line := by
  rw [failed, hnumber, reportOf]
  dsimp only
  rw [quotation, hline]

/-- **The line of the culprit.** If a compilation fails with a lexical, a syntax or a semantic
error, the reported line is one more than the number of line feeds before the culprit. Only an error
about the end of file has nothing there. Otherwise the text has that line, it is the line that holds
the first character of the culprit and, if a variable is undeclared, its name; and a run of the
command on this text, in whatever way it is asked for, quotes this line in its report. -/
theorem reported_line_holds_culprit (options : Options) (source : String) (s s' : Sink)
    (e : CompileError) (number : Nat) (h : compile options source s = .error e s')
    (hkind : e.isOfSource = true) (hnumber : e.line? = some number) :
    ∃ before x rest, source.toList = before ++ x ++ rest ∧
      Culprit options source before x rest e ∧
      number = 1 + (Text.encode before).count Lexeme.lineFeed ∧
      (x = [] → before = source.toList ∧
        ∃ e', e = .grammatical e' ∧ e'.fault.found? = some .endOfFile) ∧
      ∀ c cs, x = c :: cs → ∃ line, Text.Holds line before [c] (cs ++ rest) ∧
        Text.line? source number = some (String.ofList line) ∧
        (∀ u, e = .undeclared u → u.name.toList <:+: line) ∧
        ∀ (ui : Command.Interface) folder args job, ui.request? args = some (.job job) →
          job.options = options → Command.sourceAt folder job.input = .ok source →
            (Command.runIn ui folder args).1.stderr =
              Command.reportOf ui.palette job.input e number (String.ofList line) := by
  have haccepted : accepted options source = .error e := by
    rcases haccepted : accepted options source with e' | p
    · rw [compile_of_rejected haccepted] at h
      cases h
      rfl
    · rw [compile_of_accepted haccepted, written] at h
      split at h <;> cases h
      cases hkind
  obtain ⟨before, x, rest, hculprit, hline⟩ := exists_culprit haccepted
  obtain rfl : number = lineAfter before := Option.some.inj (hnumber.symm.trans hline)
  have hsource := hculprit.source_eq
  refine ⟨before, x, rest, hsource, hculprit, rfl, ?_, ?_⟩
  · intro hx
    rcases hculprit.cases_on_end with ⟨-, hend⟩ | ⟨c, cs, hcons, -⟩
    · exact hend
    · rw [hx] at hcons
      cases hcons
  · rintro c cs rfl
    have hblank : Lexeme.isBlankChar c = false := by
      rcases hculprit.cases_on_end with ⟨hx, -⟩ | ⟨_, _, ⟨rfl, rfl⟩, hblank⟩
      · cases hx
      · exact hblank
    obtain ⟨hfeed, hreturn⟩ := not_mem_of_not_blank hblank
    have hplace : source.toList = before ++ [c] ++ (cs ++ rest) := by simpa using hsource
    obtain ⟨line, hholds, hquoted⟩ :=
      exists_line_of_place hplace (List.cons_ne_nil _ _) hfeed hreturn
    refine ⟨line, hholds, hquoted, ?_, ?_⟩
    · rintro u rfl
      exact hculprit.name_infix hquoted
    · rintro ui folder args job hask rfl hread
      rw [Command.stderr_of_rejected hask hread haccepted,
        Command.failed_of_line hnumber hquoted]

/-- A variable that is undeclared on the third line, behind a quoted text that runs over the end of
the first and a line end of two characters. A run on a file with this text quotes the third line. -/
theorem reported_line_holds_culprit_undeclared :
    let source := "ಮುದ್ರಿಸು \"ಕ\nಖ\";\r\nಕ = ೧ + ಗ;\n"
    let e : CompileError := .undeclared ⟨"ಗ", 3⟩
    let folder : Folder := { folders := [], files := [(["in"], Text.bytes source)] }
    let ui : Command.Interface := { palette := .ofColor false }
    let args := ["in", "out"]
    let job : Command.Job := ⟨"in", "out", false, false, false, Code.defaultIndent⟩
    (compile {} source {} = .error e {} ∧ e.isOfSource = true ∧ e.line? = some 3 ∧
      ui.request? args = some (.job job) ∧
      Command.sourceAt folder job.input = .ok source) ∧
      ∃ before x rest line, source.toList = before ++ x ++ rest ∧
        Culprit {} source before x rest e ∧
        3 = 1 + (Text.encode before).count Lexeme.lineFeed ∧
        Text.line? source 3 = some (String.ofList line) ∧ ['ಗ'] <:+: line ∧
        (Command.runIn ui folder args).1.stderr =
          Command.reportOf (.ofColor false) "in" e 3 (String.ofList line) := by
  intro source e folder ui args job
  have hrejected : accepted {} source = .error e := by decide +kernel
  have hrun : compile {} source {} = .error e {} := compile_of_rejected hrejected {}
  have hask : ui.request? args = some (.job job) := by decide +kernel
  have hread : Command.sourceAt folder job.input = .ok source := by decide +kernel
  obtain ⟨before, x, rest, hsource, hculprit, hnumber, hend, hheld⟩ :=
    reported_line_holds_culprit {} source {} {} e 3 hrun rfl rfl
  rcases x with - | ⟨c, cs⟩
  · obtain ⟨-, e', he, -⟩ := hend rfl
    exact absurd he (by simp [e])
  · obtain ⟨line, -, hline, hname, hquoted⟩ := hheld c cs rfl
    exact ⟨⟨hrun, rfl, rfl, hask, hread⟩, before, c :: cs, rest, line, hsource, hculprit, hnumber,
      hline, hname _ rfl, hquoted ui folder args job hask rfl hread⟩

end KannadaScript
