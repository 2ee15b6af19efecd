import KannadaScript.Proofs.Code.Script
import KannadaScript.Proofs.Tree.Grammar

/-!
# The atoms of written code

Written code is a row of atoms: words, marks, names, numbers and quoted texts, with blanks between
them. A tree in which every node is in its place has its atoms in full, those of an expression by
`Node.expressionAtoms` and those of a statement by `Node.statementAtoms`. They are what the tree
means by its text: how code is indented, where it is put in parentheses, which operators stand in it
and how it reads back are all told by atoms, and only then by characters (`codeOf`).

Two decisions are made here for all that follows. A blank or a line feed is an atom of its own
(`Atom.gap`), so that the text of a row is nothing but the texts of its atoms, and no rule about
spacing is needed anywhere else. A negative number is a sign and digits, as it is for whoever reads
the code, and not one atom with a sign in it.

A misplaced node has no atoms. What is written before it is found is the subject of
`firstMisplaced`, not of this module.

Main statement: `Node.expressionScript_of_isExpression`. The script of an expression is the text of
its atoms. A statement is indented, so its script may stop short of them.
-/

namespace KannadaScript.Code

/-! ### Atoms -/

/-- The smallest pieces of written code. -/
inductive Atom where
  /-- Blanks and line ends. -/
  | gap (blanks : List Char)
  | keyword (k : Keyword)
  | mark (m : Mark)
  | name (x : String)
  /-- A number without its sign. -/
  | digits (n : Nat)
  | quoted (s : String)
deriving DecidableEq, Repr

/-- How an atom is written. -/
def Atom.code : Atom → List Char
  | .gap blanks => blanks
  | .keyword k => k.gloss.toList
  | .mark m => m.spelling.toList
  | .name x => x.toList
  | .digits n => n.repr.toList
  | .quoted s => (literal s).toList

/-- How a row of atoms is written. -/
def codeOf (atoms : List Atom) : List Char := atoms.flatMap Atom.code

theorem codeOf_append (as bs : List Atom) : codeOf (as ++ bs) = codeOf as ++ codeOf bs :=
  List.flatMap_append

theorem codeOf_cons (a : Atom) (as : List Atom) : codeOf (a :: as) = a.code ++ codeOf as :=
  List.flatMap_cons

/-- Atoms in parentheses, if asked for. -/
def wrappedAtoms (wrap : Bool) (atoms : List Atom) : List Atom :=
  if wrap then .mark .openParen :: atoms ++ [.mark .closeParen] else atoms

/-- The indentation of a line inside `depth` blocks. -/
def indentAtom (width depth : Nat) : Atom := .gap (List.replicate (depth * width) ' ')

/-- Between the condition of a statement and the first line of its block. -/
def enterAtoms : List Atom :=
  [.mark .closeParen, .gap [' '], .mark .openBrace, .gap ['\n']]

/-- Behind the last line of a block. -/
def leaveAtoms : List Atom := [.mark .closeBrace, .gap ['\n']]

/-- Between the two blocks of a statement. -/
def elseAtoms : List Atom :=
  [.mark .closeBrace, .gap [' '], .keyword .elseWord, .gap [' '], .mark .openBrace, .gap ['\n']]

/-- Parentheses around a script that writes all of its atoms are parentheses around the atoms. -/
theorem Script.wrapped_of_none (wrap : Bool) (atoms : List Atom) :
    Script.wrapped wrap ⟨codeOf atoms, none⟩ = ⟨codeOf (wrappedAtoms wrap atoms), none⟩ := by
  cases wrap with
  | false => rfl
  | true =>
    show (Script.mk ('(' :: (codeOf atoms ++ [')'])) none) =
      ⟨codeOf (.mark .openParen :: atoms ++ [.mark .closeParen]), none⟩
    rw [codeOf_append, codeOf_cons]
    rfl

end KannadaScript.Code

namespace KannadaScript.Node

open Code

/-- The atoms of an expression. -/
def expressionAtoms : Node → List Atom
  | .binary _ op a b =>
    wrappedAtoms (a.wrapsLeft op) a.expressionAtoms ++
      .gap [' '] :: .mark op.mark :: .gap [' '] ::
        wrappedAtoms (b.wrapsRight op) b.expressionAtoms
  | .negate _ a => .mark .minus :: wrappedAtoms a.wrapsNegated a.expressionAtoms
  | .var _ x => [.name x]
  | .number _ v =>
    if v < 0 then [.mark .minus, .digits v.toInt.natAbs] else [.digits v.toInt.natAbs]
  | .quoted _ s => [.quoted s]
  | .truth _ b => [.keyword (cond b .trueWord .falseWord)]
  | _ => []

/-- The atoms of a statement that starts with a keyword and a condition, up to the end of its
first block. -/
def headedAtoms (width depth : Nat) (k : Keyword) (condition body rest : List Atom) : List Atom :=
  indentAtom width depth :: .keyword k :: .gap [' '] :: .mark .openParen :: condition ++
    (enterAtoms ++ (body ++ indentAtom width depth :: rest))

mutual
/-- The atoms of a statement inside `depth` blocks. -/
def statementAtoms (width depth : Nat) : Node → List Atom
  | .ifThen _ c t =>
    headedAtoms width depth .ifWord c.expressionAtoms (t.bodyAtoms width depth) leaveAtoms
  | .ifElse _ c t e =>
    headedAtoms width depth .ifWord c.expressionAtoms (t.bodyAtoms width depth) <|
      elseAtoms ++ (e.bodyAtoms width depth ++ indentAtom width depth :: leaveAtoms)
  | .loop _ c b =>
    headedAtoms width depth .whileWord c.expressionAtoms (b.bodyAtoms width depth) leaveAtoms
  | .print _ v =>
    indentAtom width depth :: .keyword .printWord :: .mark .openParen :: v.expressionAtoms ++
      [.mark .closeParen, .mark .semicolon, .gap ['\n']]
  | .assign _ x v =>
    indentAtom width depth :: .name x :: .gap [' '] :: .mark .assign :: .gap [' '] ::
      v.expressionAtoms ++ [.mark .semicolon, .gap ['\n']]
  | _ => []
/-- The atoms of a block that belongs to a statement inside `depth` blocks. -/
def bodyAtoms (width depth : Nat) : Node → List Atom
  | .block _ ss => statementsAtoms width (depth + 1) ss
  | _ => []
/-- The atoms of a list of statements inside `depth` blocks. -/
def statementsAtoms (width depth : Nat) : List Node → List Atom
  | [] => []
  | n :: ns => n.statementAtoms width depth ++ statementsAtoms width depth ns
end

/-! ### Expressions -/

/-- **Expressions are written in full.** The script of an expression in which every node is in its
place is the text of its atoms, and it does not fail: nothing in it is indented. -/
theorem expressionScript_of_isExpression (n : Node) (h : n.isExpression = true) :
    n.expressionScript = ⟨codeOf n.expressionAtoms, none⟩ := by
  match n with
  | .binary _ op a b =>
    rw [isExpression, Bool.and_eq_true] at h
    rw [expressionScript, expressionAtoms, expressionScript_of_isExpression a h.1,
      expressionScript_of_isExpression b h.2, Script.wrapped_of_none, Script.wrapped_of_none,
      codeOf_append]
    cases op <;> rfl
  | .negate _ a =>
    rw [isExpression] at h
    rw [expressionScript, expressionAtoms, expressionScript_of_isExpression a h,
      Script.wrapped_of_none]
    rfl
  | .var _ x => simp [expressionScript, expressionAtoms, Script.say, codeOf, Atom.code]
  | .number _ v =>
    rw [expressionScript, expressionAtoms, Text.decimal]
    have hsign : v < 0 ↔ v.toInt < 0 := Int32.lt_iff_toInt_lt
    by_cases hv : v < 0
    · rw [if_pos hv, if_pos (hsign.1 hv)]
      simp [Script.say, codeOf, Atom.code, Mark.spelling]
    · rw [if_neg hv, if_neg (mt hsign.2 hv)]
      simp [Script.say, codeOf, Atom.code]
  | .quoted _ v => simp [expressionScript, expressionAtoms, Script.say, codeOf, Atom.code]
  | .truth _ v => cases v <;> rfl

/-! ### Programs -/

/-- The atoms of a program. -/
def programAtoms (width : Nat) : Node → List Atom
  | .program _ ss => statementsAtoms width 0 ss
  | _ => []

end KannadaScript.Node
