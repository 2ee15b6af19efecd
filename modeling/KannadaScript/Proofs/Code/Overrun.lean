import KannadaScript.Proofs.Code.Atoms

/-!
# Code that runs too wide

When exactly is code written to its end? A line is indented by its levels, and writing stops in
front of the first line that is too wide. So what decides is the deepest line of the code. It does
not stand in the deepest block, since a block without statements has no line of its own
(`Node.programLevels` and not `Node.blockDepth`).

A script covers a row of atoms (`Script.Covers`) if it writes all of them when a given number of
levels fits on a line, and stops short of that when it does not. Scripts that follow each other
need room for the deeper of their lines (`Script.Covers.andThen`), and so the levels of a tree are
found by one induction along its statements.

Main statements: `Node.script_covers`, about the script of a program, and from it `Node.emit_cases`,
about a sink that takes everything. Since a line stands inside blocks of the tree
(`Node.programLevels_le_blockDepth`), room for all its blocks is enough (`Node.emit_of_isProgram`).
-/

namespace KannadaScript.Code.Script

/-- The script stops at a line that is too wide, with some of the atoms still to be written. -/
structure StopsShort (script : Script) (atoms : List Atom) : Prop where
  failure : ∃ d, script.failure = some (.paddingTooWide d)
  missing : ∃ rest, rest ≠ [] ∧ codeOf atoms = script.text ++ rest

/-- The script writes all of the atoms if `levels` levels of indentation fit on a line, and stops
short if they do not. -/
def Covers (width levels : Nat) (script : Script) (atoms : List Atom) : Prop :=
  (levels * width ≤ maxPadding ∧ script = ⟨codeOf atoms, none⟩) ∨
    (maxPadding < levels * width ∧ script.StopsShort atoms)

variable {width levels levels' : Nat} {a b : Script} {as bs : List Atom}

/-- Behind a script that stops short nothing more is written. -/
theorem StopsShort.andThen (h : a.StopsShort as) (b : Script) (bs : List Atom) :
    (a.andThen b).StopsShort (as ++ bs) := by
  obtain ⟨⟨d, hd⟩, rest, hrest, hcode⟩ := h
  rw [andThen_of_some hd]
  refine ⟨⟨d, hd⟩, rest ++ codeOf bs, List.append_ne_nil_of_left_ne_nil hrest _, ?_⟩
  rw [codeOf_append, hcode, List.append_assoc]

/-- In front of a script that stops short all is written. -/
theorem StopsShort.after (h : b.StopsShort bs) (as : List Atom) :
    (Script.andThen ⟨codeOf as, none⟩ b).StopsShort (as ++ bs) := by
  obtain ⟨⟨d, hd⟩, rest, hrest, hcode⟩ := h
  rw [andThen_of_none]
  refine ⟨⟨d, hd⟩, rest, hrest, ?_⟩
  rw [codeOf_append, hcode, List.append_assoc]

/-- Levels are compared as numbers. -/
theorem Covers.cast (h : a.Covers width levels as) (heq : levels = levels') :
    a.Covers width levels' as :=
  heq ▸ h

/-- One script after the other needs room for the deeper of their lines. -/
theorem Covers.andThen (ha : a.Covers width levels as) (hb : b.Covers width levels' bs) :
    (a.andThen b).Covers width (max levels levels') (as ++ bs) := by
  rw [Covers, ← Nat.mul_max_mul_right, max_le_iff, lt_max_iff]
  rcases ha with ⟨hfits, rfl⟩ | ⟨hwide, hstop⟩
  · rcases hb with ⟨hfits', rfl⟩ | ⟨hwide', hstop'⟩
    · exact .inl ⟨⟨hfits, hfits'⟩, by rw [andThen_of_none, codeOf_append]⟩
    · exact .inr ⟨.inr hwide', hstop'.after as⟩
  · exact .inr ⟨.inl hwide, hstop.andThen b bs⟩

/-- A script that never stops has no line to be indented. -/
theorem covers_of_eq (h : a = ⟨codeOf as, none⟩) : a.Covers width 0 as :=
  .inl ⟨by simp, h⟩

theorem covers_say {text : String} (h : text.toList = codeOf as) : (say text).Covers width 0 as :=
  covers_of_eq (by rw [say, h])

/-- An indentation is written if it fits, and otherwise nothing is: its blanks are missing. -/
theorem covers_indent (width depth : Nat) :
    (indent width depth).Covers width depth [indentAtom width depth] := by
  by_cases hwide : maxPadding < depth * width
  · have hblanks : List.replicate (depth * width) ' ' ≠ [] := by
      rw [ne_eq, List.replicate_eq_nil_iff]
      omega
    rw [indent, if_pos hwide]
    exact .inr ⟨hwide, ⟨depth, rfl⟩, _, hblanks, by simp [codeOf, Atom.code, indentAtom, stop]⟩
  · rw [indent, if_neg hwide]
    refine .inl ⟨Nat.not_lt.1 hwide, ?_⟩
    simp [say, Text.blanks, codeOf, Atom.code, indentAtom]

end KannadaScript.Code.Script

namespace KannadaScript.Node

open Code

/-! ### Levels of indentation -/

mutual
/-- The levels of the deepest line of a statement inside `depth` blocks. -/
def statementLevels (depth : Nat) : Node → Nat
  | .ifThen _ _ t | .loop _ _ t => max depth (t.bodyLevels depth)
  | .ifElse _ _ t e => max depth (max (t.bodyLevels depth) (e.bodyLevels depth))
  | _ => depth
/-- The levels of the deepest line of a block that belongs to a statement inside `depth` blocks. -/
def bodyLevels (depth : Nat) : Node → Nat
  | .block _ ss => statementsLevels (depth + 1) ss
  | _ => 0
/-- The levels of the deepest line of a list of statements inside `depth` blocks, zero if there is
no line. -/
def statementsLevels (depth : Nat) : List Node → Nat
  | [] => 0
  | n :: ns => max (n.statementLevels depth) (statementsLevels depth ns)
end

/-- The levels of the deepest line of a program. -/
def programLevels : Node → Nat
  | .program _ ss => statementsLevels 0 ss
  | _ => 0

/-! ### Statements -/

theorem expressionScript_covers {n : Node} (h : n.isExpression = true) (width : Nat) :
    n.expressionScript.Covers width 0 n.expressionAtoms :=
  Script.covers_of_eq (expressionScript_of_isExpression n h)

/-- A statement on a line of its own. -/
theorem line_covers {start stop : String} {ss es : List Atom} {v : Node}
    (hstart : start.toList = codeOf ss) (hv : v.isExpression = true)
    (hstop : stop.toList = codeOf es) (width depth : Nat) :
    ((Script.indent width depth).andThen <| (Script.say start).andThen <|
      v.expressionScript.andThen (.say stop)).Covers width depth
        (indentAtom width depth :: (ss ++ (v.expressionAtoms ++ es))) := by
  refine Script.Covers.cast ((Script.covers_indent width depth).andThen <|
    (Script.covers_say hstart).andThen <| (expressionScript_covers hv width).andThen
      (Script.covers_say hstop)) ?_
  omega

section Headed

variable {width depth levels levels' : Nat} {start : String} {k : Keyword}
  {condition body rest : Script} {cs bs rs : List Atom}

/-- A statement with a block needs room for its own line and for those of its block. -/
theorem headed_covers (hstart : start.toList = codeOf [.keyword k, .gap [' '], .mark .openParen])
    (hc : condition.Covers width 0 cs) (hb : body.Covers width levels bs)
    (hr : rest.Covers width levels' rs) :
    (headed width depth start condition body rest).Covers width (max depth (max levels levels'))
      (headedAtoms width depth k cs bs rs) := by
  refine Script.Covers.cast ((Script.covers_indent width depth).andThen <|
    (Script.covers_say hstart).andThen <| hc.andThen <| (Script.covers_say rfl).andThen <|
      hb.andThen <| (Script.covers_indent width depth).andThen hr) ?_
  omega

end Headed

mutual
/-- A statement in which every node is in its place is written in full if its deepest line is not
too wide. -/
theorem statementScript_covers (width depth : Nat) (n : Node) (h : n.isStatement = true) :
    (n.statementScript width depth).Covers width (n.statementLevels depth)
      (n.statementAtoms width depth) := by
  match n with
  | .ifThen _ c t | .loop _ c t =>
    rw [isStatement, Bool.and_eq_true] at h
    refine Script.Covers.cast (headed_covers rfl (expressionScript_covers h.1 width)
      (bodyScript_covers width depth t h.2) (Script.covers_say rfl)) ?_
    rw [statementLevels, Nat.max_zero]
  | .ifElse _ c t e =>
    rw [isStatement, Bool.and_eq_true, Bool.and_eq_true] at h
    refine Script.Covers.cast (headed_covers rfl (expressionScript_covers h.1.1 width)
      (bodyScript_covers width depth t h.1.2) ((Script.covers_say rfl).andThen
        ((bodyScript_covers width depth e h.2).andThen
          ((Script.covers_indent width depth).andThen (Script.covers_say rfl))))) ?_
    rw [statementLevels]
    omega
  | .print _ v =>
    have hstart : "print(".toList = codeOf [.keyword .printWord, .mark .openParen] := rfl
    exact line_covers hstart h rfl width depth
  | .assign _ x v =>
    have hstart : (x ++ " = ").toList =
        codeOf [.name x, .gap [' '], .mark .assign, .gap [' ']] := by
      simp [codeOf, Atom.code, Mark.spelling]
    exact line_covers hstart h rfl width depth
/-- The same for a block, one level deeper. -/
theorem bodyScript_covers (width depth : Nat) (n : Node) (h : n.isBody = true) :
    (n.bodyScript width depth).Covers width (n.bodyLevels depth) (n.bodyAtoms width depth) := by
  match n with
  | .block _ ss => exact statementsScript_covers width (depth + 1) ss h
/-- The same for statements in a row. -/
theorem statementsScript_covers (width depth : Nat) (ns : List Node)
    (h : areStatements ns = true) :
    (statementsScript width depth ns).Covers width (statementsLevels depth ns)
      (statementsAtoms width depth ns) := by
  match ns with
  | [] => exact Script.covers_of_eq rfl
  | n :: ns =>
    rw [areStatements, Bool.and_eq_true] at h
    exact (statementScript_covers width depth n h.1).andThen
      (statementsScript_covers width depth ns h.2)
end

/-- **Written in full, or stopped short.** Which of the two it is depends on the deepest line of
the program alone. -/
theorem script_covers (width : Nat) {p : Node} (h : p.isProgram = true) :
    (p.script width 0).Covers width p.programLevels (p.programAtoms width) := by
  match p with
  | .program _ ss => exact statementsScript_covers width 0 ss h

/-! ### Levels and blocks -/

mutual
/-- The deepest line of a statement stands inside its blocks, and inside those around it. -/
theorem statementLevels_le (depth : Nat) (n : Node) :
    n.statementLevels depth ≤ depth + n.blockDepth := by
  match n with
  | .ifThen _ _ t | .loop _ _ t =>
    have ht := bodyLevels_le depth t
    rw [statementLevels, blockDepth]
    omega
  | .ifElse _ _ t e =>
    have ht := bodyLevels_le depth t
    have he := bodyLevels_le depth e
    rw [statementLevels, blockDepth]
    omega
  | .program _ _ | .block _ _ | .print _ _ | .assign _ _ _ | .binary _ _ _ _ | .negate _ _
  | .var _ _ | .number _ _ | .quoted _ _ | .truth _ _ => exact Nat.le_add_right _ _
theorem bodyLevels_le (depth : Nat) (n : Node) : n.bodyLevels depth ≤ depth + n.blockDepth := by
  match n with
  | .block _ ss =>
    have hss := statementsLevels_le (depth + 1) ss
    rw [bodyLevels, blockDepth]
    omega
  | .program _ _ | .ifThen _ _ _ | .ifElse _ _ _ _ | .loop _ _ _ | .print _ _ | .assign _ _ _
  | .binary _ _ _ _ | .negate _ _ | .var _ _ | .number _ _ | .quoted _ _ | .truth _ _ =>
    exact Nat.zero_le _
theorem statementsLevels_le (depth : Nat) (ns : List Node) :
    statementsLevels depth ns ≤ depth + blockDepthAll ns := by
  match ns with
  | [] => exact Nat.zero_le _
  | n :: ns =>
    have hn := statementLevels_le depth n
    have hns := statementsLevels_le depth ns
    rw [statementsLevels, blockDepthAll]
    omega
end

/-- No line of a program has more levels than blocks of the program can stand inside each other. -/
theorem programLevels_le_blockDepth {p : Node} (h : p.isProgram = true) :
    p.programLevels ≤ p.blockDepth := by
  match p with
  | .program _ ss =>
    have hss := statementsLevels_le 0 ss
    rwa [Nat.zero_add] at hss

/-! ### Programs on a sink -/

/-- A sink that takes everything, with the code of a program written to it. -/
def sinkAfter (width : Nat) (p : Node) (s : Sink) : Sink :=
  { s with written := s.written ++ Text.encode (codeOf (p.programAtoms width)) }

section Unlimited

variable {width : Nat} {p : Node} {s : Sink} (h : p.isProgram = true) (hlimit : s.limit = none)
  (hflush : s.refusesFlush = false)

include h hlimit hflush

/-- A program is written to its last atom if its deepest line fits, and otherwise up to a line that
is too wide. -/
theorem emit_cases (width : Nat) :
    (p.programLevels * width ≤ maxPadding ∧ p.emit width 0 s = .ok () (p.sinkAfter width s)) ∨
      (maxPadding < p.programLevels * width ∧
        ∃ d s', p.emit width 0 s = .error (.paddingTooWide d) s') := by
  have hemit := p.emit_of_unlimited width 0 hlimit hflush
  rcases script_covers width h with ⟨hfits, hscript⟩ | ⟨hwide, ⟨d, hfailure⟩, -⟩
  · rw [hscript] at hemit
    exact .inl ⟨hfits, hemit⟩
  · rw [hfailure] at hemit
    exact .inr ⟨hwide, d, _, hemit⟩

/-- **Written in full.** A program whose blocks are not too deep for the indentation is written to
its last atom. -/
theorem emit_of_isProgram (hfit : p.blockDepth * width ≤ maxPadding) :
    p.emit width 0 s = .ok () (p.sinkAfter width s) := by
  rcases emit_cases h hlimit hflush width with ⟨-, hok⟩ | ⟨hwide, -⟩
  · exact hok
  · have hlevels := Nat.mul_le_mul_right width (programLevels_le_blockDepth h)
    omega

end Unlimited

end KannadaScript.Node
