import KannadaScript.Code.Generator
import KannadaScript.Proofs.Code.Brackets
import KannadaScript.Proofs.Code.Derivation
import KannadaScript.Proofs.Code.Overrun
import KannadaScript.Proofs.Tree.Acceptance

/-!
# Written code reads back as the same program

The atoms of a program are readable whenever its names are names of the language and its texts hold
no character that a literal writes in another way (`Node.statementsAtoms_readable`). So its code,
retold in the language, splits into the lexemes of the program, and these derive it.

The path from a program to itself has four parts, each of which is proved where its subject is. A
program that is not too wide is written as its atoms (`generate_of_indented`); readable atoms are
retold one by one (`retell_codeOf`) and scanned as their lexemes (`exists_splits_sourceOf`); the
lexemes derive the program (`Node.exists_statements`); and what is derived is read, as long as it is
within the limits of reading (`ofTokens_eq_ok_iff`). Here the parts are put together, and the two
limits are stated in the terms of whoever looks at the code: brackets are counted in the text, and
operators in the tree.

A reader gives back the tree with the lines of the code and not with its own, and with a negation in
place of a negative number. That is all that is lost.

Main statement: `generated_code_reads_back`. What a generator writes for such a program is scanned
and read as that program again, up to lines and the signs of negative numbers, as long as it is
within the limits of reading.
-/

namespace KannadaScript

open Code Grammar

namespace Node

/-! ### Readable atoms -/

/-- The name or the text of a node can be read. -/
def HasPlainContent (n : Node) : Prop :=
  (∀ x ∈ n.name?, Lexeme.isName x.toList = true) ∧
    ∀ s ∈ n.text?, ∀ c ∈ s.toList, c ∉ Atom.specialChars

/-- The names and texts of a tree can be read. -/
def Sayable (n : Node) : Prop := ∀ m ∈ n.nodes, m.HasPlainContent

/-- What is asked of names and texts is asked of the nodes that hold them. -/
theorem sayable_of_names_of_texts {n : Node}
    (hnames : ∀ x ∈ n.names, Lexeme.isName x.toList = true)
    (htexts : ∀ s ∈ n.texts, ∀ c ∈ s.toList, c ∉ Atom.specialChars) : n.Sayable := by
  intro m hm
  constructor
  · intro x hx
    exact hnames x (List.mem_filterMap.2 ⟨m, hm, hx⟩)
  · intro s hs
    exact htexts s (List.mem_filterMap.2 ⟨m, hm, hs⟩)

section Readable

variable {atoms rest : List Atom}

/-- What runs together with nothing may stand before anything. -/
theorem readable_cons {a : Atom} (hplain : a.Plain) (hgap : a.needsGap = false)
    (hrest : Readable rest) : Readable (a :: rest) :=
  ⟨hplain, fun hneeds ↦ absurd (hgap.symm.trans hneeds) Bool.false_ne_true, hrest⟩

/-- Blanks never run together with what follows. -/
theorem readable_gap {blanks : List Char} (hblank : Lexeme.IsBlankText blanks)
    (hrest : Readable rest) : Readable (.gap blanks :: rest) :=
  readable_cons hblank rfl hrest

theorem readable_indent (width depth : Nat) (hrest : Readable rest) :
    Readable (indentAtom width depth :: rest) := by
  refine readable_gap (fun c hc ↦ ?_) hrest
  rw [List.eq_of_mem_replicate hc]
  rfl

theorem readable_space (hrest : Readable rest) : Readable (.gap [' '] :: rest) :=
  readable_gap (by simp [Lexeme.IsBlankText, Lexeme.isBlankChar]) hrest

theorem readable_newline (hrest : Readable rest) : Readable (.gap ['\n'] :: rest) :=
  readable_gap (by simp [Lexeme.IsBlankText, Lexeme.isBlankChar]) hrest

/-- A mark that needs no gap may stand before anything. -/
theorem readable_mark {m : Mark} (hm : (Atom.mark m).needsGap = false) (hrest : Readable rest) :
    Readable (.mark m :: rest) :=
  readable_cons trivial hm hrest

/-- A word may stand before whatever keeps it apart. -/
theorem readable_keyword {k : Keyword} (hk : k ∈ codeWords) (hsep : separates rest = true)
    (hrest : Readable rest) : Readable (.keyword k :: rest) :=
  ⟨hk, fun _ ↦ hsep, hrest⟩

/-- With parentheses or without, what can be read before a separator can be read. -/
theorem readable_wrapped
    (inner : ∀ {rest}, separates rest = true → Readable rest → Readable (atoms ++ rest))
    (wrap : Bool) (hsep : separates rest = true) (hrest : Readable rest) :
    Readable (wrappedAtoms wrap atoms ++ rest) := by
  cases wrap with
  | false => exact inner hsep hrest
  | true =>
    rw [wrappedAtoms, if_pos rfl, List.append_assoc, List.cons_append]
    exact readable_mark rfl (inner rfl (readable_mark rfl hrest))

end Readable

/-- The atoms of an expression can be read before any separator. By induction on the tree; what
follows is a variable of the induction, since an operand is followed by whatever its place has
behind it. -/
theorem expressionAtoms_readable (n : Node) (h : n.isExpression = true) (hs : n.Sayable)
    {rest : List Atom} (hsep : separates rest = true) (hrest : Readable rest) :
    Readable (n.expressionAtoms ++ rest) := by
  match n with
  | .binary _ op a b =>
    rw [isExpression, Bool.and_eq_true] at h
    rw [Sayable, nodes, List.forall_mem_cons, List.forall_mem_append] at hs
    have hmark : (Atom.mark op.mark).needsGap = false := by cases op <;> rfl
    rw [expressionAtoms, List.append_assoc]
    refine readable_wrapped (expressionAtoms_readable a h.1 hs.2.1) _ rfl ?_
    refine readable_space (readable_mark hmark (readable_space ?_))
    exact readable_wrapped (expressionAtoms_readable b h.2 hs.2.2) _ hsep hrest
  | .negate _ a =>
    rw [isExpression] at h
    rw [Sayable, nodes, List.forall_mem_cons] at hs
    exact readable_mark rfl
      (readable_wrapped (expressionAtoms_readable a h hs.2) _ hsep hrest)
  | .var _ x => exact ⟨(hs _ List.mem_cons_self).1 x rfl, fun _ ↦ hsep, hrest⟩
  | .number _ v =>
    rw [expressionAtoms]
    split
    · exact readable_mark rfl ⟨trivial, fun _ ↦ hsep, hrest⟩
    · exact ⟨trivial, fun _ ↦ hsep, hrest⟩
  | .quoted _ s => exact readable_cons ((hs _ List.mem_cons_self).2 s rfl) rfl hrest
  | .truth _ b => exact readable_keyword (by cases b <;> decide) hsep hrest

theorem headedAtoms_readable (width depth : Nat) {k : Keyword} (hk : k ∈ codeWords)
    {cs bs rs rest : List Atom}
    (hc : ∀ {rest}, separates rest = true → Readable rest → Readable (cs ++ rest))
    (hb : ∀ {rest}, Readable rest → Readable (bs ++ rest)) (hr : Readable (rs ++ rest)) :
    Readable (headedAtoms width depth k cs bs rs ++ rest) := by
  simp only [headedAtoms, enterAtoms, List.cons_append, List.append_assoc, List.nil_append]
  refine readable_indent _ _ (readable_keyword hk rfl (readable_space (readable_mark rfl ?_)))
  refine hc rfl (readable_mark rfl (readable_space (readable_mark rfl (readable_newline ?_))))
  exact hb (readable_indent _ _ hr)

theorem leaveAtoms_readable {rest : List Atom} (hrest : Readable rest) :
    Readable (leaveAtoms ++ rest) :=
  readable_mark rfl (readable_newline hrest)

mutual
/-- The atoms of a statement can be read before anything: its last atom is a line feed. -/
theorem statementAtoms_readable (width depth : Nat) (n : Node) (h : n.isStatement = true)
    (hs : n.Sayable) {rest : List Atom} (hrest : Readable rest) :
    Readable (n.statementAtoms width depth ++ rest) := by
  match n with
  | .ifThen _ c t | .loop _ c t =>
    rw [isStatement, Bool.and_eq_true] at h
    rw [Sayable, nodes, List.forall_mem_cons, List.forall_mem_append] at hs
    exact headedAtoms_readable width depth (by decide)
      (expressionAtoms_readable c h.1 hs.2.1) (bodyAtoms_readable width depth t h.2 hs.2.2)
      (leaveAtoms_readable hrest)
  | .ifElse _ c t e =>
    rw [isStatement, Bool.and_eq_true, Bool.and_eq_true] at h
    rw [Sayable, nodes, List.forall_mem_cons, List.forall_mem_append,
      List.forall_mem_append] at hs
    refine headedAtoms_readable width depth (by decide) (expressionAtoms_readable c h.1.1 hs.2.1)
      (bodyAtoms_readable width depth t h.1.2 hs.2.2.1) ?_
    simp only [elseAtoms, List.cons_append, List.append_assoc, List.nil_append]
    refine readable_mark rfl (readable_space (readable_keyword (by decide) rfl (readable_space ?_)))
    refine readable_mark rfl (readable_newline (bodyAtoms_readable width depth e h.2 hs.2.2.2 ?_))
    exact readable_indent _ _ (leaveAtoms_readable hrest)
  | .print _ v =>
    rw [isStatement] at h
    rw [Sayable, nodes, List.forall_mem_cons] at hs
    simp only [statementAtoms, List.cons_append, List.append_assoc, List.nil_append]
    refine readable_indent _ _ (readable_keyword (by decide) rfl (readable_mark rfl ?_))
    refine expressionAtoms_readable v h hs.2 rfl (readable_mark rfl (readable_mark rfl ?_))
    exact readable_newline hrest
  | .assign _ x v =>
    rw [isStatement] at h
    rw [Sayable, nodes, List.forall_mem_cons] at hs
    simp only [statementAtoms, List.cons_append, List.append_assoc, List.nil_append]
    refine readable_indent _ _ ⟨hs.1.1 x rfl, fun _ ↦ rfl, readable_space ?_⟩
    refine ⟨trivial, fun _ ↦ rfl, readable_space ?_⟩
    exact expressionAtoms_readable v h hs.2 rfl (readable_mark rfl (readable_newline hrest))
theorem bodyAtoms_readable (width depth : Nat) (n : Node) (h : n.isBody = true)
    (hs : n.Sayable) {rest : List Atom} (hrest : Readable rest) :
    Readable (n.bodyAtoms width depth ++ rest) := by
  match n with
  | .block _ ss =>
    rw [Sayable, nodes, List.forall_mem_cons] at hs
    exact statementsAtoms_readable width (depth + 1) ss h hs.2 hrest
theorem statementsAtoms_readable (width depth : Nat) (ns : List Node)
    (h : areStatements ns = true)
    (hs : ∀ m ∈ nodesAll ns, m.HasPlainContent) {rest : List Atom} (hrest : Readable rest) :
    Readable (statementsAtoms width depth ns ++ rest) := by
  match ns with
  | [] => exact hrest
  | n :: ns =>
    rw [areStatements, Bool.and_eq_true] at h
    rw [nodesAll, List.forall_mem_append] at hs
    rw [statementsAtoms, List.append_assoc]
    exact statementAtoms_readable width depth n h.1 hs.1
      (statementsAtoms_readable width depth ns h.2 hs.2 hrest)
end

/-- The atoms of a program can be read. -/
theorem programAtoms_readable (width : Nat) {p : Node} (h : p.isProgram = true)
    (hs : p.Sayable) : Readable (p.programAtoms width) := by
  match p with
  | .program _ ss =>
    rw [Sayable, nodes, List.forall_mem_cons] at hs
    have hread : Readable (statementsAtoms width 0 ss ++ []) :=
      statementsAtoms_readable width 0 ss h hs.2 trivial
    rwa [List.append_nil] at hread

end Node

/-! ### Reading -/

/-- No atom is the end of file. -/
theorem endOfFile_not_mem_lexemesOf (as : List Atom) : Lexeme.endOfFile ∉ lexemesOf as := by
  intro h
  obtain ⟨a, -, ha⟩ := List.mem_filterMap.1 h
  cases a <;> cases ha

/-- Tokens with the lexemes of a program, and an end of file last, are that program. -/
theorem exists_program (width : Nat) {p : Node} (h : p.isProgram = true) {tokens : List Token}
    (htokens : tokens.map Token.lexeme = lexemesOf (p.programAtoms width) ++ [.endOfFile]) :
    (beforeEnd tokens).map Token.lexeme = lexemesOf (p.programAtoms width) ∧
      ∃ q : Node, q.unlined = p.signed.unlined ∧ Program tokens q := by
  match p with
  | .program _ ss =>
    obtain ⟨body, ls, rfl, hbody, hls⟩ := List.map_eq_append_iff.1 htokens
    obtain ⟨last, ls, rfl, hlast, hls⟩ := List.map_eq_cons_iff.1 hls
    obtain rfl := List.map_eq_nil_iff.1 hls
    -- no atom is an end of file, so the tokens before the first one are those of the atoms
    have hproper : ∀ t ∈ body, (t.lexeme != .endOfFile) = true := by
      intro t ht
      have hmem : t.lexeme ∈ body.map Token.lexeme := List.mem_map_of_mem ht
      rw [hbody] at hmem
      exact bne_iff_ne.2 fun hend ↦ endOfFile_not_mem_lexemesOf _ (hend ▸ hmem)
    have hbefore : beforeEnd (body ++ [last]) = body := by
      rw [beforeEnd, List.takeWhile_append_of_pos hproper,
        List.takeWhile_cons_of_neg (by simp [hlast]), List.append_nil]
    obtain ⟨qs, hqs, hs⟩ := Node.exists_statements width 0 ss h hbody
    obtain ⟨first, rest, hfirst⟩ : ∃ first rest, body ++ [last] = first :: rest :=
      List.exists_cons_of_ne_nil (by simp)
    have hended : ended (body ++ [last]) = first :: rest := by
      rw [ended, List.getLast?_append_cons, ← hfirst]
      simp [hlast]
    rw [← hbefore] at hs
    refine ⟨by rw [hbefore]; exact hbody, .program first.line qs, ?_, .mk hended hs⟩
    rw [Node.unlined, Node.signed, Node.unlined, hqs]

/-- Trees that are equal up to lines have as many operators. -/
theorem modest_of_unlined_eq {p q : Node} (h : q.unlined = p.signed.unlined)
    (hp : Parse.Modest p.ownExpressions) : Parse.Modest q.ownExpressions := by
  have hcounts : q.ownCounts = p.ownCounts := by
    rw [← q.ownCounts_unlined, h, Node.ownCounts_unlined, Node.ownCounts_signed]
  intro e he
  have hmem : e.operatorCount ∈ p.ownCounts := hcounts ▸ List.mem_map_of_mem he
  obtain ⟨e', he', heq⟩ := List.mem_map.1 hmem
  rw [← heq]
  exact hp e' he'

/-- The code of a program, retold, is scanned and read as that program. -/
theorem exists_ofTokens_sourceOf (width : Nat) {p : Node} (h : p.isProgram = true)
    (hs : p.Sayable) (hnest : Code.NestsWithin maxNesting (sourceOf (p.programAtoms width)))
    (hmodest : Parse.Modest p.ownExpressions) :
    ∃ tokens q, tokenize (String.ofList (sourceOf (p.programAtoms width))) = .ok tokens ∧
      Node.ofTokens tokens = .ok q ∧ q.unlined = p.signed.unlined := by
  have hread := Node.programAtoms_readable width h hs
  obtain ⟨tokens, hsplits, hlexemes⟩ := exists_splits_sourceOf hread []
  obtain ⟨hbefore, q, hq, hprogram⟩ := exists_program width h hlexemes
  refine ⟨tokens, q, tokenize_of_splits (by rwa [String.toList_ofList]), ?_, hq⟩
  refine (ofTokens_eq_ok_iff tokens q).2 ⟨hprogram, ?_, modest_of_unlined_eq hq hmodest⟩
  exact (peak_le_iff _ _).2 (nestsWithin_of_sourceOf hread hnest hbefore)

/-! ### Generating -/

/-- What a generator with an empty sink leaves behind after it has written `code`. -/
def Code.Generator.holding (width : Nat) (code : List Char) : Generator :=
  { width, sink := { written := (Text.encode code).toArray } }

/-- What is emitted into an empty sink is what a new generator holds. -/
theorem generate_of_emit {width : Nat} {p : Node}
    (h : p.emit width 0 {} = .ok () (p.sinkAfter width {})) :
    Generator.generate p { width } = .ok () (.holding width (codeOf (p.programAtoms width))) := by
  have hsink : p.sinkAfter width {} =
      { written := (Text.encode (codeOf (p.programAtoms width))).toArray } := by
    rw [Node.sinkAfter, Sink.mk.injEq]
    refine ⟨Array.ext' ?_, rfl, rfl⟩
    rw [Array.toList_appendList]
    rfl
  rw [Generator.generate, h, hsink]
  rfl

/-- Unless a line is too wide, a program is written to its last atom. -/
theorem generate_of_indented {p : Node} {width : Nat} (hp : p.isProgram = true)
    (hwide : ∀ d g, Generator.generate p { width } ≠ .error (.paddingTooWide d) g) :
    Generator.generate p { width } = .ok () (.holding width (codeOf (p.programAtoms width))) := by
  rcases Node.emit_cases (s := {}) hp rfl rfl width with ⟨-, hemit⟩ | ⟨-, d, s, hemit⟩
  · exact generate_of_emit hemit
  · refine absurd ?_ (hwide d { width, sink := s, depth := d })
    rw [Generator.generate, hemit]
    rfl

/-- The bytes that a generator leaves behind are the bytes of one code only. -/
theorem code_unique {p : Node} {width : Nat} {code code' : List Char}
    (h : Generator.generate p { width } = .ok () (.holding width code))
    (h' : Generator.generate p { width } = .ok () (.holding width code')) : code = code' := by
  rw [h] at h'
  injection h' with _ hholding
  injection hholding with _ _ hsink
  injection hsink with hbytes
  exact Text.encode_injective (List.toArray_inj hbytes)

/-- **Code reads back.** Let a program have only names of the language, and texts without quotes,
backslashes, line ends and tabs, and let no line of its code be too wide. Then a generator writes
its code in full; and the code, retold in the language, is scanned and read as the same program up
to lines, with a minus sign for each negative number, if its brackets nest at most `maxNesting`
deep and the expression of each statement has at most `maxOperators` operators. -/
theorem generated_code_reads_back (p : Node) (width : Nat) (hp : p.isProgram = true)
    (hnames : ∀ x ∈ p.names, Lexeme.isName x.toList = true)
    (htexts : ∀ s ∈ p.texts, ∀ c ∈ s.toList, c ∉ ['"', '\\', '\n', '\r', '\t'])
    (hwide : ∀ d g, Generator.generate p { width } ≠ .error (.paddingTooWide d) g) :
    ∃ code, Generator.generate p { width } = .ok () (.holding width code) ∧
      (Code.NestsWithin maxNesting (retell code) →
        (∀ e ∈ p.ownExpressions, e.operatorCount ≤ maxOperators) →
        ∃ tokens q, tokenize (String.ofList (retell code)) = .ok tokens ∧
          Node.ofTokens tokens = .ok q ∧ q.unlined = p.signed.unlined) := by
  have hs : p.Sayable := Node.sayable_of_names_of_texts hnames htexts
  refine ⟨codeOf (p.programAtoms width), generate_of_indented hp hwide, fun hnest hmodest ↦ ?_⟩
  rw [retell_codeOf (Node.programAtoms_readable width hp hs)] at hnest ⊢
  exact exists_ofTokens_sourceOf width hp hs hnest hmodest

/-- A program with a loop, an alternative, the least number, signs in a row, and a quoted text that
holds a bracket, a digit and a word of code. -/
def countdown : Node :=
  .program 1 [
    .loop 1 (.binary 1 .eq (.var 1 "ಕ") (.number 1 (-1))) (.block 1 [
      .assign 2 "ಕ" (.binary 2 .mul
        (.binary 2 .add (.number 2 10) (.number 2 (-2147483648)))
        (.negate 2 (.negate 2 (.var 2 "ಕ")))),
      .ifElse 3 (.truth 3 true) (.block 3 [.print 4 (.quoted 4 "ಅ (1 if")]) (.block 5 [])])]

/-- Code of the program above, with two blanks per level. -/
theorem generated_code_reads_back_countdown :
    ∃ code tokens q, Generator.generate countdown { width := 2 } = .ok () (.holding 2 code) ∧
      tokenize (String.ofList (retell code)) = .ok tokens ∧ Node.ofTokens tokens = .ok q ∧
      q.unlined = countdown.signed.unlined := by
  have hgenerate : Generator.generate countdown { width := 2 } =
      .ok () (.holding 2 (codeOf (countdown.programAtoms 2))) :=
    generate_of_emit (Node.emit_of_isProgram (by decide) rfl rfl (by decide))
  have htexts : ∀ s ∈ countdown.texts, ∀ c ∈ s.toList, c ∉ ['"', '\\', '\n', '\r', '\t'] := by
    have hone : countdown.texts = ["ಅ (1 if"] := rfl
    rw [hone, List.forall_mem_singleton]
    simp
  have hwide : ∀ d g,
      Generator.generate countdown { width := 2 } ≠ .error (.paddingTooWide d) g := by
    intro d g h
    rw [hgenerate] at h
    nomatch h
  obtain ⟨code, hcode, hread⟩ := generated_code_reads_back countdown 2 (by decide)
    (by decide +kernel) htexts hwide
  have hnest : Code.NestsWithin maxNesting (retell code) := by
    rw [code_unique hcode hgenerate]
    decide +kernel
  obtain ⟨tokens, q, htokens, hq, heq⟩ := hread hnest (by decide)
  exact ⟨code, tokens, q, hcode, htokens, hq, heq⟩

end KannadaScript
