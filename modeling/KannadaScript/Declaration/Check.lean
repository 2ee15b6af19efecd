import KannadaScript.Declaration.Table
import KannadaScript.Tree.Basic

/-!
# The declaration check

One walk over a tree in the order of its text. A variable has to be declared when the walk reaches
it, and an assignment declares its name once its value has been walked, unless the name is declared
already. So the value of an assignment cannot rest on the name it declares.

The walk stops at the first undeclared variable; the declarations made before it stay.

There are no scopes. Blocks, branches and loops are walked like any other part of the text, both
branches of a conditional one after the other, so a name that is assigned in a branch counts as
declared behind it whether or not the branch is ever taken. The walk takes any tree, also one that
no source text has: what is misplaced is walked where it stands.

A declaration keeps the line of the first assignment to its name. Names declared from outside have
line zero, which no token of a text has.
-/

namespace KannadaScript

/-- A variable that is not declared where it stands. -/
structure Undeclared where
  name : String
  line : Nat
deriving DecidableEq, Repr

/-- The wording of a failed check. -/
def Undeclared.message (e : Undeclared) : String :=
  "Undeclared variable '" ++ e.name ++ "' at line " ++ e.line.repr

/-- A step of the check: it may add declarations, and fail. -/
abbrev Check := EStateM Undeclared Table

/-- Declare a variable from outside the text. -/
def Table.declare (t : Table) (name : String) : Table := t.insert ⟨name, .var, 0⟩

namespace Node

mutual
/-- Check a tree against the declarations so far. -/
def check : Node → Check Unit
  | .program _ ss | .block _ ss => checkAll ss
  | .ifThen _ a b | .loop _ a b | .binary _ _ a b => do
    a.check
    b.check
  | .ifElse _ c t e => do
    c.check
    t.check
    e.check
  | .print _ v | .negate _ v => v.check
  | .assign l x v => do
    v.check
    modify fun t ↦ if t.contains x then t else t.insert ⟨x, .var, l⟩
  | .var l x => do
    if !(← get).contains x then throw ⟨x, l⟩
  | .number _ _ | .quoted _ _ | .truth _ _ => pure ()
/-- Check a list of trees in order. -/
def checkAll : List Node → Check Unit
  | [] => pure ()
  | n :: ns => do
    n.check
    checkAll ns
end

/-- The table that a tree leaves behind, started from the given one. -/
def declarations (n : Node) (start : Table) : Except Undeclared Table :=
  match n.check start with
  | .ok _ t => .ok t
  | .error e _ => .error e

end Node

end KannadaScript
