import KannadaScript.Text.Bytes

/-!
# Declaration tables

A table keeps, for each name, the stack of its declarations, newest first. Declaring a name again is
allowed: the new declaration shadows the older ones, which stay on the stack. Names are kept in the
order of their bytes. Beside its stacks a table keeps the number of its declarations, together with
the proof that it is theirs.

What a table holds can be gone through stack by stack, in any order of the stacks
(`NameStack.iterate`). One order is as good as another for all that counts or collects declarations;
the order in which the stacks are kept is one of them, and the one of `Table.declarations`.

For its dump a table also sorts names into a fixed number of buckets by a polynomial hash in 64-bit
arithmetic. The buckets have no influence on what is found under a name. They are computed when a
dump is made, and not kept.
-/

namespace KannadaScript

/-- What a declared name stands for. -/
inductive NameKind where
  | var
  | func
deriving DecidableEq, Repr

/-- How dumps name a kind. -/
def NameKind.describe : NameKind → String
  | .var => "variable"
  | .func => "function"

/-- One declaration of a name. -/
structure Declaration where
  name : String
  kind : NameKind
  /-- The line of the declaring statement; zero for a name declared from outside. -/
  line : Nat
deriving DecidableEq, Repr

/-- The line of a dump that shows a declaration. -/
def Declaration.render (d : Declaration) : String :=
  "  Name: " ++ d.name ++ ", Kind: " ++ d.kind.describe ++ ", Line: " ++ d.line.repr ++ "\n"

/-- The declarations of one name, newest first. -/
structure NameStack where
  name : String
  declarations : List Declaration
deriving DecidableEq, Repr

/-- All declarations in stacks that are gone through one by one: stack after stack, and newest first
within each. -/
def NameStack.iterate (order : List NameStack) : List Declaration :=
  order.flatMap NameStack.declarations

theorem NameStack.iterate_cons (s : NameStack) (rest : List NameStack) :
    NameStack.iterate (s :: rest) = s.declarations ++ NameStack.iterate rest :=
  List.flatMap_cons

/-- The declarations of all names, and the number of buckets to dump them in. -/
structure Table where
  bucketCount : Nat
  entries : List NameStack
  /-- The number of declarations, shadowed ones included. It is kept up as they are made. -/
  size : Nat
  size_eq : size = (NameStack.iterate entries).length
deriving DecidableEq, Repr

namespace Table

/-- The number of buckets of a table unless another is asked for. -/
def defaultBuckets : Nat := 128

/-- A table without declarations. There is always at least one bucket. -/
def empty (buckets : Nat) : Table := ⟨max buckets 1, [], 0, rfl⟩

/-! ### Declaring and finding names -/

/-- Whether the bytes of one name come before those of another. -/
def precedes (x y : String) : Bool := decide (Text.bytes x < Text.bytes y)

/-- Put a declaration on the stack of its name; a new name gets its place among the others. -/
def push (d : Declaration) : List NameStack → List NameStack
  | [] => [⟨d.name, [d]⟩]
  | s :: rest =>
    if s.name = d.name then ⟨s.name, d :: s.declarations⟩ :: rest
    else if precedes d.name s.name then ⟨d.name, [d]⟩ :: s :: rest
    else s :: push d rest

/-- A declaration adds itself to those of the stacks, and nothing else. -/
theorem iterate_push (d : Declaration) (entries : List NameStack) :
    (NameStack.iterate (push d entries)).Perm (d :: NameStack.iterate entries) := by
  induction entries with
  | nil => exact .refl _
  | cons s rest ih =>
    rw [push]
    by_cases hs : s.name = d.name
    · rw [if_pos hs]
      exact .refl _
    · rw [if_neg hs]
      split
      · exact .refl _
      · rw [NameStack.iterate_cons, NameStack.iterate_cons]
        exact (ih.append_left s.declarations).trans List.perm_middle

/-- Declare a name. -/
def insert (t : Table) (d : Declaration) : Table where
  bucketCount := t.bucketCount
  entries := push d t.entries
  size := t.size + 1
  size_eq := by rw [(iterate_push d t.entries).length_eq, List.length_cons, ← t.size_eq]

/-- The newest declaration of a name. -/
def lookup? (t : Table) (name : String) : Option Declaration :=
  (t.entries.find? (·.name == name)).bind (·.declarations.head?)

/-- Whether a name is declared. -/
def contains (t : Table) (name : String) : Bool := (t.lookup? name).isSome

/-- All declarations, names in the order of their bytes and newest first within a name. -/
def declarations (t : Table) : List Declaration := NameStack.iterate t.entries

/-- Whether nothing is declared. -/
def isEmpty (t : Table) : Bool := t.size == 0

/-! ### Buckets -/

/-- The polynomial hash of a list of bytes, modulo 2^64. -/
def hash (bytes : List UInt8) : UInt64 := bytes.foldl (fun h b ↦ h * 32 + b.toUInt64) 0

/-- The bucket of a name. -/
def bucketOf (t : Table) (name : String) : Nat := (hash (Text.bytes name)).toNat % t.bucketCount

/-- Add a number to an ascending list of distinct numbers. -/
def addAscending (n : Nat) : List Nat → List Nat
  | [] => [n]
  | m :: rest =>
    if n < m then n :: m :: rest else if n = m then m :: rest else m :: addAscending n rest

/-- The buckets that hold a name, ascending. -/
def usedBuckets (t : Table) : List Nat :=
  t.entries.foldr (fun s used ↦ addAscending (t.bucketOf s.name) used) []

/-- The stacks of the names in a bucket. -/
def bucket (t : Table) (b : Nat) : List NameStack :=
  t.entries.filter fun s ↦ t.bucketOf s.name == b

/-- The text of one bucket: its number, then its declarations. -/
def renderBucket (t : Table) (b : Nat) : String :=
  "Bucket " ++ b.repr ++ ":\n" ++
    String.join ((NameStack.iterate (t.bucket b)).map Declaration.render)

/-- The text of a table: its buckets in ascending order. -/
def dump (t : Table) : String := String.join (t.usedBuckets.map t.renderBucket)

end Table

end KannadaScript
