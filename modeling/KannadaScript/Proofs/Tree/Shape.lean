import KannadaScript.Tree.Basic
import Mathlib

/-!
# The shape of trees

The type of nodes lets any node stand anywhere. Here are the trees that make sense as programs:
statements with expressions and blocks in their places (`Node.isStatement`, `Node.isExpression`),
and what is read off such trees elsewhere: the expressions that statements hold, the operators in an
expression, the blocks around a statement, the names and texts in a tree.

Two functions take trees to trees. `Node.unlined` forgets where a tree was written, so that trees
are the same up to lines when it makes them equal; and `Node.signed` writes negative numbers with a
minus sign in front of the number without it, as they are read back from code. Neither changes what
is counted. A binary operator stays one, and a minus sign is no operator for the limit, so the
operators of each statement are the same before and after (`Node.ownCounts_unlined`,
`Node.ownCounts_signed`).

All of these are computed by recursion over trees, with a second function for lists of them wherever
statements hold lists. They are functions to `Bool`, `Nat` or lists, so that the shape of a given
tree is decided by computing it; statements about all nodes of a tree go through `Node.nodes`.
-/

namespace KannadaScript.Node

/-! ### Expressions and statements -/

/-- Built from operators and leaves only. -/
def isExpression : Node → Bool
  | .binary _ _ a b => a.isExpression && b.isExpression
  | .negate _ a => a.isExpression
  | .var _ _ | .number _ _ | .quoted _ _ | .truth _ _ => true
  | _ => false

mutual
/-- A statement with expressions and blocks in their places. -/
def isStatement : Node → Bool
  | .ifThen _ c t | .loop _ c t => c.isExpression && t.isBody
  | .ifElse _ c t e => c.isExpression && t.isBody && e.isBody
  | .print _ v | .assign _ _ v => v.isExpression
  | _ => false
/-- A block of statements. -/
def isBody : Node → Bool
  | .block _ ss => areStatements ss
  | _ => false
/-- A list of statements. -/
def areStatements : List Node → Bool
  | [] => true
  | n :: ns => n.isStatement && areStatements ns
end

/-- A program of statements. -/
def isProgram : Node → Bool
  | .program _ ss => areStatements ss
  | _ => false

/-! ### The operators of a statement -/

/-- The number of binary operators in an expression. -/
def operatorCount : Node → Nat
  | .binary _ _ a b => a.operatorCount + b.operatorCount + 1
  | .negate _ a => a.operatorCount
  | _ => 0

mutual
/-- The expressions that the statements of a tree hold: the condition of a conditional or a loop,
the value of an assignment, what is printed. -/
def ownExpressions : Node → List Node
  | .program _ ss | .block _ ss => ownExpressionsAll ss
  | .ifThen _ c t | .loop _ c t => c :: t.ownExpressions
  | .ifElse _ c t e => c :: (t.ownExpressions ++ e.ownExpressions)
  | .print _ v | .assign _ _ v => [v]
  | _ => []
/-- The expressions that the statements of a list hold. -/
def ownExpressionsAll : List Node → List Node
  | [] => []
  | n :: ns => n.ownExpressions ++ ownExpressionsAll ns
end

/-! ### Blocks -/

mutual
/-- The most blocks of a tree that stand inside one another. -/
def blockDepth : Node → Nat
  | .program _ ss => blockDepthAll ss
  | .block _ ss => blockDepthAll ss + 1
  | .ifThen _ _ t | .loop _ _ t => t.blockDepth
  | .ifElse _ _ t e => max t.blockDepth e.blockDepth
  | _ => 0
/-- The most blocks of a list of trees that stand inside one another. -/
def blockDepthAll : List Node → Nat
  | [] => 0
  | n :: ns => max n.blockDepth (blockDepthAll ns)
end

/-! ### Names and texts -/

mutual
/-- All nodes of a tree. -/
def nodes : Node → List Node
  | n@(.program _ ss) | n@(.block _ ss) => n :: nodesAll ss
  | n@(.ifThen _ a b) | n@(.loop _ a b) | n@(.binary _ _ a b) => n :: (a.nodes ++ b.nodes)
  | n@(.ifElse _ c t e) => n :: (c.nodes ++ (t.nodes ++ e.nodes))
  | n@(.print _ a) | n@(.assign _ _ a) | n@(.negate _ a) => n :: a.nodes
  | n => [n]
/-- All nodes of a list of trees. -/
def nodesAll : List Node → List Node
  | [] => []
  | n :: ns => n.nodes ++ nodesAll ns
end

/-- The name that a node itself has. -/
def name? : Node → Option String
  | .assign _ x _ | .var _ x => some x
  | _ => none

/-- The text that a node itself holds. -/
def text? : Node → Option String
  | .quoted _ s => some s
  | _ => none

/-- The names in a tree, read or assigned. -/
def names (n : Node) : List String := n.nodes.filterMap name?

/-- The texts in a tree. -/
def texts (n : Node) : List String := n.nodes.filterMap text?

/-! ### Trees up to lines -/

mutual
/-- The tree with no lines. -/
def unlined : Node → Node
  | .program _ ss => .program 0 (unlinedAll ss)
  | .block _ ss => .block 0 (unlinedAll ss)
  | .ifThen _ c t => .ifThen 0 c.unlined t.unlined
  | .ifElse _ c t e => .ifElse 0 c.unlined t.unlined e.unlined
  | .loop _ c b => .loop 0 c.unlined b.unlined
  | .print _ v => .print 0 v.unlined
  | .assign _ x v => .assign 0 x v.unlined
  | .binary _ op a b => .binary 0 op a.unlined b.unlined
  | .negate _ a => .negate 0 a.unlined
  | .var _ x => .var 0 x
  | .number _ v => .number 0 v
  | .quoted _ s => .quoted 0 s
  | .truth _ b => .truth 0 b
/-- The trees with no lines. -/
def unlinedAll : List Node → List Node
  | [] => []
  | n :: ns => n.unlined :: unlinedAll ns
end

mutual
/-- The tree with every negative number as the negation of another number, which is negative
again only for the least one. -/
def signed : Node → Node
  | .program l ss => .program l (signedAll ss)
  | .block l ss => .block l (signedAll ss)
  | .ifThen l c t => .ifThen l c.signed t.signed
  | .ifElse l c t e => .ifElse l c.signed t.signed e.signed
  | .loop l c b => .loop l c.signed b.signed
  | .print l v => .print l v.signed
  | .assign l x v => .assign l x v.signed
  | .binary l op a b => .binary l op a.signed b.signed
  | .negate l a => .negate l a.signed
  | .number l v => if v < 0 then .negate l (.number l (-v)) else .number l v
  | n => n
/-- The trees with every negative number as a negation. -/
def signedAll : List Node → List Node
  | [] => []
  | n :: ns => n.signed :: signedAll ns
end

/-! ### Operators up to lines and signs -/

/-- Lines are no operators. -/
theorem operatorCount_unlined (n : Node) : n.unlined.operatorCount = n.operatorCount := by
  match n with
  | .binary _ _ a b =>
    rw [unlined, operatorCount, operatorCount, operatorCount_unlined a, operatorCount_unlined b]
  | .negate _ a => rw [unlined, operatorCount, operatorCount, operatorCount_unlined a]
  | .program _ _ | .block _ _ | .ifThen _ _ _ | .ifElse _ _ _ _ | .loop _ _ _ | .print _ _
  | .assign _ _ _ | .var _ _ | .number _ _ | .quoted _ _ | .truth _ _ => rfl

/-- The minus sign of a number is no binary operator. -/
theorem operatorCount_signed (n : Node) : n.signed.operatorCount = n.operatorCount := by
  match n with
  | .binary _ _ a b =>
    rw [signed, operatorCount, operatorCount, operatorCount_signed a, operatorCount_signed b]
  | .negate _ a => rw [signed, operatorCount, operatorCount, operatorCount_signed a]
  | .number _ v =>
    rw [signed]
    split <;> rfl
  | .program _ _ | .block _ _ | .ifThen _ _ _ | .ifElse _ _ _ _ | .loop _ _ _ | .print _ _
  | .assign _ _ _ | .var _ _ | .quoted _ _ | .truth _ _ => rfl

/-- The number of operators in the expression of each statement. -/
def ownCounts (n : Node) : List Nat := n.ownExpressions.map operatorCount

/-- The number of operators in the expression of each statement of a list. -/
def ownCountsAll (ns : List Node) : List Nat := (ownExpressionsAll ns).map operatorCount

theorem ownCounts_ifElse (l : Nat) (c t e : Node) :
    (ifElse l c t e).ownCounts = c.operatorCount :: (t.ownCounts ++ e.ownCounts) := by
  rw [ownCounts, ownExpressions, List.map_cons, List.map_append]
  rfl

theorem ownCountsAll_cons (n : Node) (ns : List Node) :
    ownCountsAll (n :: ns) = n.ownCounts ++ ownCountsAll ns := by
  rw [ownCountsAll, ownExpressionsAll, List.map_append]
  rfl

mutual
/-- The operators of each statement are counted without lines. -/
theorem ownCounts_unlined (n : Node) : n.unlined.ownCounts = n.ownCounts := by
  match n with
  | .program _ ss | .block _ ss => exact ownCountsAll_unlined ss
  | .ifThen _ c t | .loop _ c t =>
    show c.unlined.operatorCount :: t.unlined.ownCounts = c.operatorCount :: t.ownCounts
    rw [operatorCount_unlined, ownCounts_unlined t]
  | .ifElse _ c t e =>
    rw [unlined, ownCounts_ifElse, ownCounts_ifElse, operatorCount_unlined, ownCounts_unlined t,
      ownCounts_unlined e]
  | .print _ v | .assign _ _ v =>
    show [v.unlined.operatorCount] = [v.operatorCount]
    rw [operatorCount_unlined]
  | .binary _ _ _ _ | .negate _ _ | .var _ _ | .number _ _ | .quoted _ _ | .truth _ _ => rfl
theorem ownCountsAll_unlined (ns : List Node) :
    ownCountsAll (unlinedAll ns) = ownCountsAll ns := by
  match ns with
  | [] => rfl
  | n :: ns =>
    rw [unlinedAll, ownCountsAll_cons, ownCountsAll_cons, ownCounts_unlined n,
      ownCountsAll_unlined ns]
end

mutual
/-- The operators of each statement are counted whatever the signs of its numbers. -/
theorem ownCounts_signed (n : Node) : n.signed.ownCounts = n.ownCounts := by
  match n with
  | .program _ ss | .block _ ss => exact ownCountsAll_signed ss
  | .ifThen _ c t | .loop _ c t =>
    show c.signed.operatorCount :: t.signed.ownCounts = c.operatorCount :: t.ownCounts
    rw [operatorCount_signed, ownCounts_signed t]
  | .ifElse _ c t e =>
    rw [signed, ownCounts_ifElse, ownCounts_ifElse, operatorCount_signed, ownCounts_signed t,
      ownCounts_signed e]
  | .print _ v | .assign _ _ v =>
    show [v.signed.operatorCount] = [v.operatorCount]
    rw [operatorCount_signed]
  | .number _ v =>
    rw [signed]
    split <;> rfl
  | .binary _ _ _ _ | .negate _ _ | .var _ _ | .quoted _ _ | .truth _ _ => rfl
theorem ownCountsAll_signed (ns : List Node) :
    ownCountsAll (signedAll ns) = ownCountsAll ns := by
  match ns with
  | [] => rfl
  | n :: ns =>
    rw [signedAll, ownCountsAll_cons, ownCountsAll_cons, ownCounts_signed n,
      ownCountsAll_signed ns]
end

end KannadaScript.Node
