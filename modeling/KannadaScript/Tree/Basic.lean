/-!
# Syntax trees

One type of node serves programs, blocks, statements and expressions, and every node keeps the line
it was written on. The type does not say which node may stand where: a tree that no source text has
can still be built, outlined, checked and, up to its first misplaced node, written out.

Parentheses leave no node. They show in the shape of a tree, and are put back where they are needed
when its code is written. Numbers are 32-bit integers and may be negative; a minus sign in the text
is a node of its own, also right before a number.

Main statement: `Node.beq` decides equality, lines included. It is written out since nodes hold
lists of nodes, for which no instance is derived.
-/

namespace KannadaScript

/-! ### Operators -/

/-- The operators between two operands. -/
inductive BinaryOp where
  | add
  | sub
  | mul
  | div
  | eq
deriving DecidableEq, Repr

namespace BinaryOp

/-- Every binary operator. -/
def all : List BinaryOp := [.add, .sub, .mul, .div, .eq]

/-- The operator as it is written, in a source text and in code alike. -/
def spelling : BinaryOp → String
  | .add => "+"
  | .sub => "-"
  | .mul => "*"
  | .div => "/"
  | .eq => "=="

/-- How tightly the operator binds; a greater number binds tighter. -/
def precedence : BinaryOp → Nat
  | .eq => 1
  | .add | .sub => 2
  | .mul | .div => 3

end BinaryOp

/-- The spelling of the one operator with a single operand. -/
def negationSpelling : String := "-"

/-! ### Nodes -/

/-- A node of a syntax tree. The first argument of each constructor is the node's line. -/
inductive Node where
  | program (line : Nat) (statements : List Node)
  | block (line : Nat) (statements : List Node)
  | ifThen (line : Nat) (condition thenBody : Node)
  | ifElse (line : Nat) (condition thenBody elseBody : Node)
  | loop (line : Nat) (condition body : Node)
  | print (line : Nat) (value : Node)
  | assign (line : Nat) (name : String) (value : Node)
  | binary (line : Nat) (op : BinaryOp) (left right : Node)
  | negate (line : Nat) (operand : Node)
  | var (line : Nat) (name : String)
  | number (line : Nat) (value : Int32)
  | quoted (line : Nat) (value : String)
  | truth (line : Nat) (value : Bool)
deriving Repr

namespace Node

/-- The line of a node. -/
def line : Node → Nat
  | .program l _ | .block l _ | .ifThen l _ _ | .ifElse l _ _ _ | .loop l _ _ | .print l _
  | .assign l _ _ | .binary l _ _ _ | .negate l _ | .var l _ | .number l _ | .quoted l _
  | .truth l _ => l

/-- The statements of a program or a block; other nodes have none. -/
def statements : Node → List Node
  | .program _ ss | .block _ ss => ss
  | _ => []

/-! ### Equality -/

mutual
/-- Equality of nodes, lines included. -/
def beq : Node → Node → Bool
  | .program l ss, .program l' ss' => l == l' && beqAll ss ss'
  | .block l ss, .block l' ss' => l == l' && beqAll ss ss'
  | .ifThen l c t, .ifThen l' c' t' => l == l' && c.beq c' && t.beq t'
  | .ifElse l c t e, .ifElse l' c' t' e' => l == l' && c.beq c' && t.beq t' && e.beq e'
  | .loop l c b, .loop l' c' b' => l == l' && c.beq c' && b.beq b'
  | .print l v, .print l' v' => l == l' && v.beq v'
  | .assign l n v, .assign l' n' v' => l == l' && n == n' && v.beq v'
  | .binary l o a b, .binary l' o' a' b' => l == l' && o == o' && a.beq a' && b.beq b'
  | .negate l a, .negate l' a' => l == l' && a.beq a'
  | .var l n, .var l' n' => l == l' && n == n'
  | .number l v, .number l' v' => l == l' && v == v'
  | .quoted l v, .quoted l' v' => l == l' && v == v'
  | .truth l v, .truth l' v' => l == l' && v == v'
  | _, _ => false
/-- Equality of lists of nodes, lines included. -/
def beqAll : List Node → List Node → Bool
  | [], [] => true
  | n :: ns, n' :: ns' => n.beq n' && beqAll ns ns'
  | _, _ => false
end

mutual
theorem beq_self (n : Node) : n.beq n = true := by
  cases n <;> simp [beq, beq_self, beqAll_self]
theorem beqAll_self (ns : List Node) : beqAll ns ns = true := by
  cases ns <;> simp [beqAll, beq_self, beqAll_self]
end

mutual
theorem eq_of_beq (n : Node) {n' : Node} (h : n.beq n' = true) : n = n' := by
  cases n with
  | program l ss | block l ss =>
    cases n' <;> simp [beq] at h
    rw [h.1, eq_of_beqAll ss h.2]
  | ifThen l c t | loop l c t =>
    cases n' <;> simp [beq] at h
    rw [h.1.1, eq_of_beq c h.1.2, eq_of_beq t h.2]
  | ifElse l c t e =>
    cases n' <;> simp [beq] at h
    rw [h.1.1.1, eq_of_beq c h.1.1.2, eq_of_beq t h.1.2, eq_of_beq e h.2]
  | print l v | negate l v =>
    cases n' <;> simp [beq] at h
    rw [h.1, eq_of_beq v h.2]
  | assign l x v =>
    cases n' <;> simp [beq] at h
    rw [h.1.1, h.1.2, eq_of_beq v h.2]
  | binary l o a b =>
    cases n' <;> simp [beq] at h
    rw [h.1.1.1, h.1.1.2, eq_of_beq a h.1.2, eq_of_beq b h.2]
  | var l v | number l v | quoted l v | truth l v =>
    cases n' <;> simp [beq] at h
    rw [h.1, h.2]
theorem eq_of_beqAll (ns : List Node) {ns' : List Node} (h : beqAll ns ns' = true) :
    ns = ns' := by
  cases ns with
  | nil => cases ns' <;> simp [beqAll] at h; rfl
  | cons n ns =>
    cases ns' <;> simp [beqAll] at h
    rw [eq_of_beq n h.1, eq_of_beqAll ns h.2]
end

/-- `beq` decides equality. -/
theorem beq_iff {n n' : Node} : n.beq n' = true ↔ n = n' :=
  ⟨eq_of_beq n, fun h ↦ h ▸ beq_self n⟩

instance : DecidableEq Node := fun _ _ ↦ decidable_of_iff _ beq_iff

end Node

end KannadaScript
