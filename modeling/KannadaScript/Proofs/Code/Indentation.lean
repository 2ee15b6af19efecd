import KannadaScript.Proofs.Code.Literals
import KannadaScript.Proofs.Code.ReadBack

/-!
# The lines of written code

Written code is a list of lines, and which lines they are does not depend on the width of the
indentation: `Node.statementLines` gives each with its levels and the atoms behind them. Braces open
and close along the lines (`Nests`): a line is inside the blocks that are open before it, except the
one that it closes itself, and the lines of a statement leave as many blocks open as they found.

What layout means is said of characters alone (`LaidOut`). The indentation of each line is the width
times the blocks that are open, where open blocks are counted by the braces of the lines before it.
A brace inside a quoted text is no brace of the layout, so the characters of literals are left out
of the count, by rules that know nothing of atoms (`outsideLiterals`).

What is told by levels and atoms then shows in the characters (`laidOut_of_nests`), since a row of
atoms has braces outside its literals only where it has them as marks (`count_flatMap_bare`), and a
line has no line feed but its own. Neither would be so for any names: a name with a brace or a quote
in it could say anything. Names of the language have no such characters, and this is asked for.

Main statement: `code_is_laid_out`, about one program at two widths.
-/

namespace KannadaScript

namespace Code

/-! ### Layout of a text -/

/-- How often a character stands outside literals in lines that end in line feeds. -/
def countOutside (c : Char) (lines : List (List Char)) : Nat :=
  (outsideLiterals .outside (lines.flatMap (· ++ ['\n']))).count c

/-- Lines are indented by the braces that are open before them. -/
structure LaidOut (width : Nat) (lines : List (List Char)) : Prop where
  unbroken : ∀ line ∈ lines, '\n' ∉ line
  /-- A line is indented by `d` levels and no more, where `d` blocks are open before it and stay
  open in it: one that it closes with its first character does not count. -/
  indented : ∀ before line after, lines = before ++ line :: after →
    ∃ d c rest, line = List.replicate (width * d) ' ' ++ c :: rest ∧ c ≠ ' ' ∧
      countOutside '\x7b' before =
        countOutside '\x7d' before + d + if c = '\x7d' then 1 else 0
  balanced : countOutside '\x7b' lines = countOutside '\x7d' lines

/-! ### Lines -/

/-- A line of code: the levels that it is indented by, and what stands behind the indentation. -/
structure CodeLine where
  level : Nat
  content : List Atom

namespace CodeLine

/-- The atoms of a line. -/
def atoms (width : Nat) (l : CodeLine) : List Atom := indentAtom width l.level :: l.content

/-- How a line is written. -/
def text (width : Nat) (l : CodeLine) : List Char := codeOf (l.atoms width)

/-- The blocks that a line opens. -/
def opening (l : CodeLine) : Nat := l.content.count (.mark .openBrace)

/-- The blocks that a line closes. -/
def closing (l : CodeLine) : Nat := l.content.count (.mark .closeBrace)

/-- A line as the layout wants it: all of it stands within a line, it starts with no space, and if
it closes a block it does so with its first character. -/
structure Fine (l : CodeLine) : Prop where
  inline : ∀ a ∈ l.content, a.Inline
  starts : ∃ c rest, codeOf l.content = c :: rest ∧ c ≠ ' ' ∧
    l.closing = if c = '\x7d' then 1 else 0

end CodeLine

/-- The atoms of lines, each with its line feed. -/
def rowOf (width : Nat) (lines : List CodeLine) : List Atom :=
  lines.flatMap fun l ↦ l.atoms width ++ [.gap ['\n']]

/-- The lines lead from `a` open blocks to `b`, and each of them is inside the blocks that are open
before it and that it does not close. -/
def Nests : (a : Nat) → List CodeLine → (b : Nat) → Prop
  | a, [], b => a = b
  | a, l :: ls, b => l.Fine ∧ a = l.level + l.closing ∧ Nests (l.level + l.opening) ls b

end Code

open Code

namespace Node

/-- The content of a line that opens the block of a statement. -/
def entering (k : Keyword) (condition : Node) : List Atom :=
  .keyword k :: .gap [' '] :: .mark .openParen ::
    (condition.expressionAtoms ++ [.mark .closeParen, .gap [' '], .mark .openBrace])

/-- The content of a line that closes a block and opens another. -/
def turning : List Atom :=
  [.mark .closeBrace, .gap [' '], .keyword .elseWord, .gap [' '], .mark .openBrace]

/-- The content of a line that closes a block. -/
def leaving : List Atom := [.mark .closeBrace]

mutual
/-- The lines of a statement inside `depth` blocks. -/
def statementLines (depth : Nat) : Node → List CodeLine
  | .ifThen _ c t => ⟨depth, entering .ifWord c⟩ :: (t.bodyLines depth ++ [⟨depth, leaving⟩])
  | .ifElse _ c t e =>
    ⟨depth, entering .ifWord c⟩ :: (t.bodyLines depth ++
      ⟨depth, turning⟩ :: (e.bodyLines depth ++ [⟨depth, leaving⟩]))
  | .loop _ c b => ⟨depth, entering .whileWord c⟩ :: (b.bodyLines depth ++ [⟨depth, leaving⟩])
  | .print _ v =>
    [⟨depth, .keyword .printWord :: .mark .openParen ::
      (v.expressionAtoms ++ [.mark .closeParen, .mark .semicolon])⟩]
  | .assign _ x v =>
    [⟨depth, .name x :: .gap [' '] :: .mark .assign :: .gap [' '] ::
      (v.expressionAtoms ++ [.mark .semicolon])⟩]
  | _ => []
/-- The lines of a block that belongs to a statement inside `depth` blocks. -/
def bodyLines (depth : Nat) : Node → List CodeLine
  | .block _ ss => statementsLines (depth + 1) ss
  | _ => []
/-- The lines of a list of statements inside `depth` blocks. -/
def statementsLines (depth : Nat) : List Node → List CodeLine
  | [] => []
  | n :: ns => n.statementLines depth ++ statementsLines depth ns
end

/-- The lines of a program. -/
def programLines : Node → List CodeLine
  | .program _ ss => statementsLines 0 ss
  | _ => []

end Node

/-! ### The atoms of the lines -/

namespace Code

theorem rowOf_nil (width : Nat) : rowOf width [] = [] := rfl

theorem rowOf_cons (width : Nat) (l : CodeLine) (ls : List CodeLine) :
    rowOf width (l :: ls) =
      indentAtom width l.level :: l.content ++ .gap ['\n'] :: rowOf width ls := by
  simp [rowOf, CodeLine.atoms]

theorem rowOf_append (width : Nat) (ls ls' : List CodeLine) :
    rowOf width (ls ++ ls') = rowOf width ls ++ rowOf width ls' :=
  List.flatMap_append

/-- The text of a row of lines is the lines, each with its line feed. -/
theorem codeOf_rowOf (width : Nat) (lines : List CodeLine) :
    codeOf (rowOf width lines) = (lines.map (CodeLine.text width)).flatMap (· ++ ['\n']) := by
  induction lines with
  | nil => rfl
  | cons l ls ih =>
    rw [rowOf, List.flatMap_cons, ← rowOf, codeOf_append, codeOf_append, ih]
    rfl

end Code

namespace Node

mutual
/-- The atoms of a statement are those of its lines. By induction on the tree, and at every
width. -/
theorem statementAtoms_eq_rowOf (width depth : Nat) (n : Node) :
    n.statementAtoms width depth = rowOf width (n.statementLines depth) := by
  match n with
  | .ifThen _ c t | .loop _ c t =>
    simp only [statementAtoms, statementLines, headedAtoms, enterAtoms, leaveAtoms, entering,
      leaving, bodyAtoms_eq_rowOf width depth t, rowOf_cons, rowOf_append, rowOf_nil,
      List.cons_append, List.append_assoc, List.nil_append]
  | .ifElse _ c t e =>
    simp only [statementAtoms, statementLines, headedAtoms, enterAtoms, elseAtoms, leaveAtoms,
      entering, turning, leaving, bodyAtoms_eq_rowOf width depth t,
      bodyAtoms_eq_rowOf width depth e, rowOf_cons, rowOf_append, rowOf_nil, List.cons_append,
      List.append_assoc, List.nil_append]
  | .print _ v | .assign _ x v =>
    simp only [statementAtoms, statementLines, rowOf_cons, rowOf_nil, List.cons_append,
      List.append_assoc, List.nil_append]
  | .program _ _ | .block _ _ | .binary _ _ _ _ | .negate _ _ | .var _ _ | .number _ _
  | .quoted _ _ | .truth _ _ => rfl
theorem bodyAtoms_eq_rowOf (width depth : Nat) (n : Node) :
    n.bodyAtoms width depth = rowOf width (n.bodyLines depth) := by
  match n with
  | .block _ ss => exact statementsAtoms_eq_rowOf width (depth + 1) ss
  | .program _ _ | .ifThen _ _ _ | .ifElse _ _ _ _ | .loop _ _ _ | .print _ _ | .assign _ _ _
  | .binary _ _ _ _ | .negate _ _ | .var _ _ | .number _ _ | .quoted _ _ | .truth _ _ => rfl
theorem statementsAtoms_eq_rowOf (width depth : Nat) (ns : List Node) :
    statementsAtoms width depth ns = rowOf width (statementsLines depth ns) := by
  match ns with
  | [] => rfl
  | n :: ns =>
    rw [statementsAtoms, statementsLines, rowOf_append, statementAtoms_eq_rowOf width depth n,
      statementsAtoms_eq_rowOf width depth ns]
end

/-- The code of a program is the text of its lines. -/
theorem codeOf_programAtoms (width : Nat) (p : Node) :
    codeOf (p.programAtoms width) =
      (p.programLines.map (CodeLine.text width)).flatMap (· ++ ['\n']) := by
  rw [← codeOf_rowOf]
  cases p with
  | program _ ss => exact congrArg codeOf (statementsAtoms_eq_rowOf width 0 ss)
  | _ => rfl

end Node

/-! ### Lines as the layout wants them -/

namespace Code

namespace Atom

/-- A keyword or a name. -/
def isWord : Atom → Bool
  | .keyword _ | .name _ => true
  | _ => false

/-- An atom within a line that neither opens nor closes a block. -/
def Flat (a : Atom) : Prop := a.Inline ∧ a ≠ .mark .openBrace ∧ a ≠ .mark .closeBrace

theorem flat_space : (Atom.gap [' ']).Flat := by
  refine ⟨fun c hc ↦ List.mem_singleton.1 hc, ?_, ?_⟩ <;> decide

theorem flat_mark {m : Mark} (h : m ≠ .openBrace ∧ m ≠ .closeBrace) : (mark m).Flat :=
  ⟨trivial, by simpa using h.1, by simpa using h.2⟩

/-- A word starts with a character that is neither a blank nor a closing brace. -/
theorem Inline.exists_code_of_isWord {a : Atom} (h : a.Inline) (hword : a.isWord = true) :
    ∃ c rest, a.code = c :: rest ∧ c ≠ ' ' ∧ c ≠ '\x7d' := by
  match a with
  | .keyword k => cases k <;> exact ⟨_, _, rfl, by decide, by decide⟩
  | .name x =>
    obtain ⟨c, rest, hx, -⟩ := Lexeme.exists_cons_of_isWord (Lexeme.isName_eq_true_iff.1 h).1
    have hbeyond : 0x80 ≤ c.toNat := toNat_of_isName h c (by rw [hx]; exact List.mem_cons_self)
    refine ⟨c, rest, hx, ?_, ?_⟩
    · rintro rfl
      exact absurd hbeyond (by decide)
    · rintro rfl
      exact absurd hbeyond (by decide)

end Atom

/-- Parentheses are no braces. -/
theorem wrappedAtoms_flat {atoms : List Atom} (h : ∀ a ∈ atoms, a.Flat) (wrap : Bool) :
    ∀ a ∈ wrappedAtoms wrap atoms, a.Flat := by
  cases wrap with
  | false => exact h
  | true =>
    rw [wrappedAtoms, if_pos rfl, List.cons_append, List.forall_mem_cons, List.forall_mem_append,
      List.forall_mem_singleton]
    exact ⟨Atom.flat_mark (by decide), h, Atom.flat_mark (by decide)⟩

/-- A line that starts with a word closes no block. -/
theorem fine_of_word {a : Atom} {as : List Atom} (level : Nat) (hinline : ∀ b ∈ a :: as, b.Inline)
    (hword : a.isWord = true) (hclose : .mark .closeBrace ∉ a :: as) :
    CodeLine.Fine ⟨level, a :: as⟩ := by
  obtain ⟨c, rest, hcode, hspace, hbrace⟩ :=
    (hinline a List.mem_cons_self).exists_code_of_isWord hword
  refine ⟨hinline, c, rest ++ codeOf as, ?_, hspace, ?_⟩
  · rw [codeOf_cons, hcode, List.cons_append]
  · rw [if_neg hbrace]
    exact List.count_eq_zero.2 hclose

/-- A line that starts with a closing brace closes one block. -/
theorem fine_of_close {as : List Atom} (level : Nat) (hinline : ∀ b ∈ as, b.Inline)
    (hclose : .mark .closeBrace ∉ as) : CodeLine.Fine ⟨level, .mark .closeBrace :: as⟩ := by
  refine ⟨List.forall_mem_cons.2 ⟨trivial, hinline⟩, '\x7d', codeOf as, rfl, by decide, ?_⟩
  rw [if_pos rfl, CodeLine.closing, List.count_cons_self, List.count_eq_zero.2 hclose]

/-! ### Braces along the lines -/

variable {a b c : Nat} {ls ls' : List CodeLine}

/-- Lines after lines, from what the first leave open. -/
theorem Nests.append (h : Nests a ls b) (h' : Nests b ls' c) : Nests a (ls ++ ls') c := by
  induction ls generalizing a with
  | nil =>
    obtain rfl : a = b := h
    exact h'
  | cons l ls ih =>
    obtain ⟨hfine, hlevel, hrest⟩ := h
    exact ⟨hfine, hlevel, ih hrest⟩

/-- Between lines in a row there is a number of open blocks. -/
theorem Nests.split (h : Nests a (ls ++ ls') c) : ∃ b, Nests a ls b ∧ Nests b ls' c := by
  induction ls generalizing a with
  | nil => exact ⟨a, rfl, h⟩
  | cons l ls ih =>
    obtain ⟨hfine, hlevel, hrest⟩ := h
    obtain ⟨b, hls, hls'⟩ := ih hrest
    exact ⟨b, ⟨hfine, hlevel, hls⟩, hls'⟩

/-- All lines that nest are fine. -/
theorem Nests.fine (h : Nests a ls b) : ∀ l ∈ ls, l.Fine := by
  induction ls generalizing a with
  | nil => exact List.forall_mem_nil _
  | cons l ls ih => exact List.forall_mem_cons.2 ⟨h.1, ih h.2.2⟩

/-- The blocks that are open behind the lines are those open before them and those that the lines
open, less those that they close. -/
theorem Nests.count_eq (h : Nests a ls b) :
    a + (ls.flatMap CodeLine.content).count (.mark .openBrace) =
      b + (ls.flatMap CodeLine.content).count (.mark .closeBrace) := by
  induction ls generalizing a with
  | nil =>
    obtain rfl : a = b := h
    rfl
  | cons l ls ih =>
    obtain ⟨-, hlevel, hrest⟩ := h
    have hcount := ih hrest
    rw [CodeLine.opening] at hcount
    rw [CodeLine.closing] at hlevel
    rw [List.flatMap_cons, List.count_append, List.count_append]
    omega

end Code

namespace Node

variable {depth b : Nat} {n : Node} {ls : List CodeLine}

/-- Flat atoms have no brace. -/
theorem not_mem_of_flat {as : List Atom} (h : ∀ a ∈ as, a.Flat) :
    .mark .openBrace ∉ as ∧ .mark .closeBrace ∉ as :=
  ⟨fun hmem ↦ (h _ hmem).2.1 rfl, fun hmem ↦ (h _ hmem).2.2 rfl⟩

/-- A line that starts with a word and has no braces is inside all blocks that are open. -/
theorem nests_plain {a : Atom} {as : List Atom} (hflat : ∀ b ∈ a :: as, b.Flat)
    (hword : a.isWord = true) (depth : Nat) : Nests depth [⟨depth, a :: as⟩] depth := by
  obtain ⟨hopen, hclose⟩ := not_mem_of_flat hflat
  refine ⟨fine_of_word depth (fun b hb ↦ (hflat b hb).1) hword hclose, ?_, ?_⟩
  · rw [CodeLine.closing, List.count_eq_zero.2 hclose]
    rfl
  · show depth + List.count _ (a :: as) = depth
    rw [List.count_eq_zero.2 hopen]
    rfl

/-- A line that ends in an opening brace opens a block. -/
theorem nests_entering (k : Keyword) (hflat : ∀ a ∈ n.expressionAtoms, a.Flat)
    (h : Nests (depth + 1) ls b) : Nests depth (⟨depth, entering k n⟩ :: ls) b := by
  obtain ⟨hopen, hclose⟩ := not_mem_of_flat hflat
  have hinline : ∀ a ∈ entering k n, a.Inline := by
    simp only [entering, List.forall_mem_cons, List.forall_mem_append]
    exact ⟨trivial, Atom.flat_space.1, trivial, fun a ha ↦ (hflat a ha).1, trivial,
      Atom.flat_space.1, trivial, List.forall_mem_nil _⟩
  have hnone : .mark .closeBrace ∉ entering k n := by
    simp [entering, hclose]
  have hone : (entering k n).count (.mark .openBrace) = 1 := by
    simp [entering, List.count_eq_zero.2 hopen]
  refine ⟨fine_of_word depth hinline rfl hnone, ?_, ?_⟩
  · rw [CodeLine.closing, List.count_eq_zero.2 hnone]
    rfl
  · rwa [CodeLine.opening, hone]

/-- The line between two blocks closes the first and opens the second. -/
theorem nests_turning (h : Nests (depth + 1) ls b) :
    Nests (depth + 1) (⟨depth, turning⟩ :: ls) b := by
  refine ⟨fine_of_close depth ?_ (by decide), rfl, h⟩
  simp only [List.forall_mem_cons]
  exact ⟨Atom.flat_space.1, trivial, Atom.flat_space.1, trivial,
    List.forall_mem_nil _⟩

/-- A line with a closing brace stands outside of the block that it closes. -/
theorem nests_leaving (depth : Nat) : Nests (depth + 1) [⟨depth, leaving⟩] depth :=
  ⟨fine_of_close depth (List.forall_mem_nil _) List.not_mem_nil, rfl, rfl⟩

/-- All names of a tree are names of the language. -/
def Named (n : Node) : Prop := ∀ m ∈ n.nodes, ∀ x ∈ m.name?, Lexeme.isName x.toList = true

/-- There are no braces in an expression, those in its texts apart. -/
theorem expressionAtoms_flat (n : Node) (h : n.isExpression = true) (hn : n.Named) :
    ∀ a ∈ n.expressionAtoms, a.Flat := by
  match n with
  | .binary _ op a b =>
    rw [isExpression, Bool.and_eq_true] at h
    rw [Named, nodes, List.forall_mem_cons, List.forall_mem_append] at hn
    have hop : (Atom.mark op.mark).Flat := Atom.flat_mark (by cases op <;> decide)
    simp only [expressionAtoms, List.forall_mem_append, List.forall_mem_cons]
    exact ⟨wrappedAtoms_flat (expressionAtoms_flat a h.1 hn.2.1) _, Atom.flat_space, hop,
      Atom.flat_space, wrappedAtoms_flat (expressionAtoms_flat b h.2 hn.2.2) _⟩
  | .negate _ a =>
    rw [isExpression] at h
    rw [Named, nodes, List.forall_mem_cons] at hn
    rw [expressionAtoms, List.forall_mem_cons]
    exact ⟨Atom.flat_mark (by decide), wrappedAtoms_flat (expressionAtoms_flat a h hn.2) _⟩
  | .var _ x =>
    rw [expressionAtoms, List.forall_mem_singleton]
    exact ⟨hn _ List.mem_cons_self x rfl, by simp, by simp⟩
  | .number _ v =>
    have hdigits : (Atom.digits v.toInt.natAbs).Flat := ⟨trivial, by simp, by simp⟩
    rw [expressionAtoms]
    split
    · rw [List.forall_mem_cons, List.forall_mem_singleton]
      exact ⟨Atom.flat_mark (by decide), hdigits⟩
    · rwa [List.forall_mem_singleton]
  | .quoted _ _ | .truth _ _ =>
    rw [expressionAtoms, List.forall_mem_singleton]
    exact ⟨trivial, by simp, by simp⟩

mutual
/-- The lines of a statement leave as many blocks open as they found. -/
theorem statementLines_nests (depth : Nat) (n : Node) (h : n.isStatement = true) (hn : n.Named) :
    Nests depth (n.statementLines depth) depth := by
  match n with
  | .ifThen _ c t | .loop _ c t =>
    rw [isStatement, Bool.and_eq_true] at h
    rw [Named, nodes, List.forall_mem_cons, List.forall_mem_append] at hn
    exact nests_entering _ (expressionAtoms_flat c h.1 hn.2.1)
      ((bodyLines_nests depth t h.2 hn.2.2).append (nests_leaving depth))
  | .ifElse _ c t e =>
    rw [isStatement, Bool.and_eq_true, Bool.and_eq_true] at h
    rw [Named, nodes, List.forall_mem_cons, List.forall_mem_append, List.forall_mem_append] at hn
    have helse := nests_turning
      ((bodyLines_nests depth e h.2 hn.2.2.2).append (nests_leaving depth))
    exact nests_entering _ (expressionAtoms_flat c h.1.1 hn.2.1)
      ((bodyLines_nests depth t h.1.2 hn.2.2.1).append helse)
  | .print _ v =>
    rw [Named, nodes, List.forall_mem_cons] at hn
    refine nests_plain ?_ rfl depth
    simp only [List.forall_mem_cons, List.forall_mem_append]
    exact ⟨⟨trivial, by simp, by simp⟩, Atom.flat_mark (by decide), expressionAtoms_flat v h hn.2,
      Atom.flat_mark (by decide), Atom.flat_mark (by decide), List.forall_mem_nil _⟩
  | .assign _ x v =>
    rw [Named, nodes, List.forall_mem_cons] at hn
    refine nests_plain ?_ rfl depth
    simp only [List.forall_mem_cons, List.forall_mem_append]
    exact ⟨⟨hn.1 x rfl, by simp, by simp⟩, Atom.flat_space, Atom.flat_mark (by decide),
      Atom.flat_space, expressionAtoms_flat v h hn.2, Atom.flat_mark (by decide),
      List.forall_mem_nil _⟩
theorem bodyLines_nests (depth : Nat) (n : Node) (h : n.isBody = true) (hn : n.Named) :
    Nests (depth + 1) (n.bodyLines depth) (depth + 1) := by
  match n with
  | .block _ ss =>
    rw [Named, nodes, List.forall_mem_cons] at hn
    exact statementsLines_nests (depth + 1) ss h hn.2
/-- Statements in a row leave open what they found open. -/
theorem statementsLines_nests (depth : Nat) (ns : List Node) (h : areStatements ns = true)
    (hn : ∀ m ∈ nodesAll ns, ∀ x ∈ m.name?, Lexeme.isName x.toList = true) :
    Nests depth (statementsLines depth ns) depth := by
  match ns with
  | [] => exact rfl
  | n :: ns =>
    rw [areStatements, Bool.and_eq_true] at h
    rw [nodesAll, List.forall_mem_append] at hn
    exact (statementLines_nests depth n h.1 hn.1).append (statementsLines_nests depth ns h.2 hn.2)
end

end Node

/-! ### Layout in characters -/

namespace Code

/-- The braces that an atom writes outside literals are those that it is. -/
theorem Atom.Inline.count_bare {a : Atom} (h : a.Inline) :
    a.bare.count '\x7b' = [a].count (.mark .openBrace) ∧
      a.bare.count '\x7d' = [a].count (.mark .closeBrace) := by
  by_cases hmark : ∃ m, a = .mark m
  · obtain ⟨m, rfl⟩ := hmark
    cases m <;> decide
  · rw [not_exists] at hmark
    have hopen : '\x7b' ∉ a.bare := h.not_mem_bare (by decide) fun m hm ↦ absurd hm (hmark m)
    have hclose : '\x7d' ∉ a.bare := h.not_mem_bare (by decide) fun m hm ↦ absurd hm (hmark m)
    simp [List.count_eq_zero.2 hopen, List.count_eq_zero.2 hclose, hmark]

namespace CodeLine

variable {l : CodeLine}

/-- The text of a line: its indentation, then its atoms. -/
theorem text_eq (width : Nat) (l : CodeLine) :
    l.text width = List.replicate (width * l.level) ' ' ++ codeOf l.content := by
  rw [text, atoms, codeOf_cons, Nat.mul_comm]
  rfl

theorem Fine.inline_atoms (h : l.Fine) (width : Nat) : ∀ a ∈ l.atoms width, a.Inline :=
  List.forall_mem_cons.2 ⟨fun _ hc ↦ List.eq_of_mem_replicate hc, h.inline⟩

/-- Without its indentation a line is the same at every width. -/
theorem Fine.dropWhile_text (h : l.Fine) (width : Nat) :
    (l.text width).dropWhile (· == ' ') = codeOf l.content := by
  obtain ⟨c, rest, hcode, hspace, -⟩ := h.starts
  have hblank : ∀ d ∈ List.replicate (width * l.level) ' ', (d == ' ') = true :=
    fun d hd ↦ beq_iff_eq.2 (List.eq_of_mem_replicate hd)
  rw [text_eq, List.dropWhile_append_of_pos hblank, hcode,
    List.dropWhile_cons_of_neg (by simpa using hspace)]

end CodeLine

section Count

variable {c : Char} {m : Mark}
variable (hcount : ∀ a : Atom, a.Inline → a.bare.count c = [a].count (.mark m))

include hcount

/-- Outside of literals the characters of a brace are as many as the marks. -/
theorem count_flatMap_bare {as : List Atom} (h : ∀ a ∈ as, a.Inline) :
    (as.flatMap Atom.bare).count c = as.count (.mark m) := by
  induction as with
  | nil => rfl
  | cons a as ih =>
    rw [List.forall_mem_cons] at h
    rw [List.flatMap_cons, List.count_append, hcount a h.1, ih h.2, ← List.count_append,
      List.singleton_append]

/-- The braces outside literals in lines are those among their atoms. -/
theorem countOutside_text (hfeed : c ≠ '\n') (width : Nat) {lines : List CodeLine}
    (h : ∀ l ∈ lines, l.Fine) :
    countOutside c (lines.map (CodeLine.text width)) =
      (lines.flatMap CodeLine.content).count (.mark m) := by
  induction lines with
  | nil => rfl
  | cons l ls ih =>
    rw [List.forall_mem_cons] at h
    have hrest := ih h.2
    rw [countOutside] at hrest ⊢
    have hinline := h.1.inline_atoms width
    have hline : (l.atoms width).count (.mark m) = l.content.count (.mark m) :=
      List.count_cons_of_ne (by simp [indentAtom])
    rw [List.map_cons, List.flatMap_cons, List.append_assoc, CodeLine.text,
      outsideLiterals_codeOf hinline, List.count_append, count_flatMap_bare hcount hinline, hline,
      List.singleton_append, outsideLiterals, if_neg (by decide), List.count_cons_of_ne hfeed.symm,
      hrest, List.flatMap_cons, List.count_append]

end Count

/-- **Levels show.** Lines that lead from no open block to none are laid out at every width. -/
theorem laidOut_of_nests (width : Nat) {lines : List CodeLine} (h : Nests 0 lines 0) :
    LaidOut width (lines.map (CodeLine.text width)) := by
  have hopen {ls : List CodeLine} (hls : ∀ l ∈ ls, l.Fine) :=
    countOutside_text (fun a ha ↦ (Atom.Inline.count_bare ha).1) (by decide) width hls
  have hclose {ls : List CodeLine} (hls : ∀ l ∈ ls, l.Fine) :=
    countOutside_text (fun a ha ↦ (Atom.Inline.count_bare ha).2) (by decide) width hls
  refine ⟨?_, fun before line after hlines ↦ ?_, ?_⟩
  · intro line hline
    obtain ⟨l, hl, rfl⟩ := List.mem_map.1 hline
    exact lineFeed_not_mem_codeOf ((h.fine l hl).inline_atoms width)
  · obtain ⟨ls, ls', rfl, rfl, hrest⟩ := List.map_eq_append_iff.1 hlines
    obtain ⟨l, ls', rfl, rfl, rfl⟩ := List.map_eq_cons_iff.1 hrest
    obtain ⟨m, hbefore, hfine, hlevel, -⟩ := h.split
    obtain ⟨c, rest, hcode, hspace, hclosing⟩ := hfine.starts
    refine ⟨l.level, c, rest, by rw [CodeLine.text_eq, hcode], hspace, ?_⟩
    have hcount := hbefore.count_eq
    rw [hopen hbefore.fine, hclose hbefore.fine, ← hclosing]
    omega
  · have hcount := h.count_eq
    rw [hopen h.fine, hclose h.fine]
    omega

end Code

/-! ### Programs -/

/-- Along the lines of a program all blocks are closed in the end. -/
theorem Node.programLines_nests {p : Node} (hp : p.isProgram = true)
    (hnames : ∀ x ∈ p.names, Lexeme.isName x.toList = true) : Nests 0 p.programLines 0 := by
  match p with
  | .program _ ss =>
    refine statementsLines_nests 0 ss hp fun m hm x hx ↦ hnames x ?_
    exact List.mem_filterMap.2 ⟨m, List.mem_cons_of_mem _ hm, hx⟩

/-- **Layout.** Let all names of a program be names of the language, whatever its texts, and let no
line be too wide at either of two widths. Then the program is written in full at both, as lines that
end in line feeds. Each line is indented by the width times the number of blocks that are open
before it, one that it closes itself not counted, and not further; in the end all blocks are closed.
Without their indentation the lines are the same at both widths. -/
theorem code_is_laid_out (p : Node) (width width' : Nat) (hp : p.isProgram = true)
    (hnames : ∀ x ∈ p.names, Lexeme.isName x.toList = true)
    (hwide : ∀ d g, Generator.generate p { width } ≠ .error (.paddingTooWide d) g)
    (hwide' : ∀ d g, Generator.generate p { width := width' } ≠ .error (.paddingTooWide d) g) :
    ∃ lines lines' : List (List Char),
      Generator.generate p { width } = .ok () (.holding width (lines.flatMap (· ++ ['\n']))) ∧
      Generator.generate p { width := width' } =
        .ok () (.holding width' (lines'.flatMap (· ++ ['\n']))) ∧
      LaidOut width lines ∧ LaidOut width' lines' ∧
      lines.map (·.dropWhile (· == ' ')) = lines'.map (·.dropWhile (· == ' ')) := by
  have hnests := Node.programLines_nests hp hnames
  refine ⟨p.programLines.map (CodeLine.text width), p.programLines.map (CodeLine.text width'),
    ?_, ?_, laidOut_of_nests width hnests, laidOut_of_nests width' hnests, ?_⟩
  · rw [← p.codeOf_programAtoms]
    exact generate_of_indented hp hwide
  · rw [← p.codeOf_programAtoms]
    exact generate_of_indented hp hwide'
  · rw [List.map_map, List.map_map, List.map_inj_left]
    intro l hl
    have hfine := hnests.fine l hl
    exact (hfine.dropWhile_text width).trans (hfine.dropWhile_text width').symm

/-- A loop with an alternative inside, and a text that holds braces, a quote, a line feed and a
backslash last. -/
theorem code_is_laid_out_braces :
    let text := "\x7d\" \x7b\n\\"
    let inner : Node := .ifElse 2 (.var 2 "ಕ") (.block 2 []) (.block 3 [.print 4 (.quoted 4 text)])
    let p : Node := .program 1 [.loop 1 (.truth 1 true) (.block 1 [inner]),
      .assign 5 "ಕ" (.number 5 (-7))]
    (p.isProgram = true ∧ (∀ x ∈ p.names, Lexeme.isName x.toList = true) ∧
      (∀ d g, Generator.generate p { width := 3 } ≠ .error (.paddingTooWide d) g) ∧
      ∀ d g, Generator.generate p { width := 0 } ≠ .error (.paddingTooWide d) g) ∧
    ∃ lines lines' : List (List Char),
      Generator.generate p { width := 3 } = .ok () (.holding 3 (lines.flatMap (· ++ ['\n']))) ∧
      Generator.generate p { width := 0 } = .ok () (.holding 0 (lines'.flatMap (· ++ ['\n']))) ∧
      LaidOut 3 lines ∧ LaidOut 0 lines' ∧
      lines.map (·.dropWhile (· == ' ')) = lines'.map (·.dropWhile (· == ' ')) := by
  intro text inner p
  have hp : p.isProgram = true := by decide
  have hnames : ∀ x ∈ p.names, Lexeme.isName x.toList = true := by decide +kernel
  have hwide (width : Nat) (hfit : p.blockDepth * width ≤ maxPadding) :
      ∀ d g, Generator.generate p { width } ≠ .error (.paddingTooWide d) g := by
    intro d g h
    rw [generate_of_emit (Node.emit_of_isProgram hp rfl rfl hfit)] at h
    cases h
  exact ⟨⟨hp, hnames, hwide 3 (by decide), hwide 0 (by decide)⟩,
    code_is_laid_out p 3 0 hp hnames (hwide 3 (by decide)) (hwide 0 (by decide))⟩

end KannadaScript
