import KannadaScript.Text.Layout
import KannadaScript.Tree.Basic

/-!
# Outlines of trees

An outline lists the nodes of a tree in preorder, one heading a node with its depth. The two
branches of a conditional are told apart by a heading of their own before the second. The text of an
outline indents each heading by two blanks per level.

The heading of a node says what it is and what it holds besides other nodes: a name, a value, an
operator, or the number of its statements. It does not say the line. The heading of a second branch
stands as deep as that of its conditional, and the branch one level deeper, like the first.

Texts and names are shown as they are, without quotes and without escapes.
-/

namespace KannadaScript

/-- A line of an outline: how deep it stands and what it says. -/
structure Heading where
  depth : Nat
  title : String
deriving DecidableEq, Repr

/-- The text of one heading, with its line feed. -/
def Heading.render (h : Heading) : String := Text.blanks (2 * h.depth) ++ h.title ++ "\n"

namespace Node

/-- What the outline says of a node itself. -/
def title : Node → String
  | .program _ ss => "Program (" ++ ss.length.repr ++ " statements)"
  | .block _ ss => "Block (" ++ ss.length.repr ++ " statements)"
  | .ifThen _ _ _ | .ifElse _ _ _ _ => "If"
  | .loop _ _ _ => "While"
  | .print _ _ => "Print"
  | .assign _ x _ => "Assign: " ++ x
  | .binary _ op _ _ => "Binary Op: " ++ op.spelling
  | .negate _ _ => "Unary Op: " ++ negationSpelling
  | .var _ x => "Variable: " ++ x
  | .number _ v => "Number: " ++ Text.decimal v.toInt
  | .quoted _ v => "String: " ++ v
  | .truth _ v => "Boolean: " ++ cond v "true" "false"

mutual
/-- The headings of a node and of all below it, where the node itself stands at `depth`. -/
def outline (depth : Nat) : Node → List Heading
  | n@(.program _ ss) | n@(.block _ ss) => ⟨depth, n.title⟩ :: outlineAll (depth + 1) ss
  | n@(.ifThen _ a b) | n@(.loop _ a b) | n@(.binary _ _ a b) =>
    ⟨depth, n.title⟩ :: (a.outline (depth + 1) ++ b.outline (depth + 1))
  | n@(.ifElse _ c t e) =>
    ⟨depth, n.title⟩ :: (c.outline (depth + 1) ++ t.outline (depth + 1) ++
      ⟨depth, "Else"⟩ :: e.outline (depth + 1))
  | n@(.print _ v) | n@(.assign _ _ v) | n@(.negate _ v) =>
    ⟨depth, n.title⟩ :: v.outline (depth + 1)
  | n@(.var _ _) | n@(.number _ _) | n@(.quoted _ _) | n@(.truth _ _) => [⟨depth, n.title⟩]
/-- The headings of a list of nodes. -/
def outlineAll (depth : Nat) : List Node → List Heading
  | [] => []
  | n :: ns => n.outline depth ++ outlineAll depth ns
end

/-- The text of a tree's outline. -/
def dump (n : Node) : String := String.join ((n.outline 0).map Heading.render)

end Node

end KannadaScript
