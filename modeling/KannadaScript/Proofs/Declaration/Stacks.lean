import KannadaScript.Declaration.Check
import Mathlib

/-!
# What a table holds under a name

A table is looked at name by name: `Table.stack` are the declarations of one name, newest first, and
everything that is found under the name is read off its head. A new declaration comes to the top of
its own stack and touches no other (`Table.lookup?_insert_self`, `Table.stack_insert_of_ne`), and
the table as a whole has just that one more (`Table.declarations_insert`).

None of this asks the names to be in order. A list of stacks in which they are not would put a new
declaration in front of the first greater name, perhaps before the stack that the name already has;
what is found under the name is the new declaration all the same (`Table.stackIn_push_self`). So the
statements hold for every table, and the check of a program may start from any. What the order gives
in addition, that no declaration is ever lost from sight, is the subject of `Table.Tidy`.

A name that is missing gets a stack of one declaration (`Table.stack_insert_of_missing`). This is
the case of the check, which declares a name only if it is missing, and so never shadows one.
-/

namespace KannadaScript.Table

/-! ### Stacks -/

/-- The declarations that a list of stacks has for a name, newest first. -/
def stackIn (x : String) (entries : List NameStack) : List Declaration :=
  ((entries.find? (·.name == x)).map NameStack.declarations).getD []

/-- The declarations of a name, newest first. -/
def stack (t : Table) (x : String) : List Declaration := stackIn x t.entries

/-- The first stack with the name is the one that counts. -/
theorem stackIn_cons (x : String) (s : NameStack) (rest : List NameStack) :
    stackIn x (s :: rest) = if s.name = x then s.declarations else stackIn x rest := by
  rw [stackIn, List.find?_cons]
  by_cases h : s.name = x
  · rw [if_pos h, show (s.name == x) = true from beq_iff_eq.2 h]
    rfl
  · rw [if_neg h, show (s.name == x) = false from beq_eq_false_iff_ne.2 h]
    rfl

/-- What is found under a name is the top of its stack. -/
theorem lookup?_eq_head?_stack (t : Table) (x : String) : t.lookup? x = (t.stack x).head? := by
  rw [lookup?, stack, stackIn]
  generalize t.entries.find? (·.name == x) = found
  rcases found with - | s <;> rfl

/-- A name is missing exactly when its stack is empty. -/
theorem contains_eq_false_iff {t : Table} {x : String} :
    t.contains x = false ↔ t.stack x = [] := by
  rw [contains, lookup?_eq_head?_stack, Option.isSome_eq_false_iff, Option.isNone_iff_eq_none,
    List.head?_eq_none_iff]

/-! ### A new declaration -/

/-- A declaration leaves the stacks of other names alone. By induction along the stacks, case by
case as `push` goes. -/
theorem stackIn_push_of_ne {d : Declaration} {x : String} (h : x ≠ d.name)
    (entries : List NameStack) : stackIn x (push d entries) = stackIn x entries := by
  have hne : d.name ≠ x := h.symm
  induction entries with
  | nil => rw [push, stackIn_cons, if_neg hne]
  | cons s rest ih =>
    rw [push]
    by_cases hs : s.name = d.name
    · rw [if_pos hs, stackIn_cons, stackIn_cons, if_neg (hs ▸ hne), if_neg (hs ▸ hne)]
    · rw [if_neg hs]
      split
      · rw [stackIn_cons, if_neg hne]
      · rw [stackIn_cons, stackIn_cons, ih]

/-- The new declaration lies on top of what some place of the table had for the name: the whole
stack if the names are in order, and in any table nothing if the name was missing. -/
theorem stackIn_push_self (d : Declaration) (entries : List NameStack) :
    ∃ below, stackIn d.name (push d entries) = d :: below ∧
      (stackIn d.name entries = [] → below = []) := by
  induction entries with
  | nil => exact ⟨[], by rw [push, stackIn_cons, if_pos rfl], fun _ ↦ rfl⟩
  | cons s rest ih =>
    rw [push]
    by_cases hs : s.name = d.name
    · refine ⟨s.declarations, by rw [if_pos hs, stackIn_cons, if_pos hs], fun h ↦ ?_⟩
      rwa [stackIn_cons, if_pos hs] at h
    · rw [if_neg hs]
      split
      · exact ⟨[], by rw [stackIn_cons, if_pos rfl], fun _ ↦ rfl⟩
      · rw [stackIn_cons, stackIn_cons, if_neg hs, if_neg hs]
        exact ih

theorem stack_insert_of_ne {d : Declaration} {x : String} (h : x ≠ d.name) (t : Table) :
    (t.insert d).stack x = t.stack x :=
  stackIn_push_of_ne h t.entries

/-- A missing name gets a stack of one declaration. -/
theorem stack_insert_of_missing {t : Table} {d : Declaration} (h : t.contains d.name = false) :
    (t.insert d).stack d.name = [d] := by
  obtain ⟨below, hstack, hbelow⟩ := stackIn_push_self d t.entries
  obtain rfl := hbelow (contains_eq_false_iff.1 h)
  exact hstack

/-- The newest declaration is the one that is found. -/
theorem lookup?_insert_self (t : Table) (d : Declaration) :
    (t.insert d).lookup? d.name = some d := by
  obtain ⟨below, hstack, -⟩ := stackIn_push_self d t.entries
  rw [lookup?_eq_head?_stack, show (t.insert d).stack d.name = d :: below from hstack]
  rfl

/-- A declaration adds its own name to those of the table. -/
theorem contains_insert (t : Table) (d : Declaration) (x : String) :
    (t.insert d).contains x = true ↔ x = d.name ∨ t.contains x = true := by
  by_cases h : x = d.name
  · subst h
    rw [contains, lookup?_insert_self]
    exact ⟨fun _ ↦ .inl rfl, fun _ ↦ rfl⟩
  · rw [contains, contains, lookup?_eq_head?_stack, lookup?_eq_head?_stack, stack_insert_of_ne h]
    exact ⟨.inr, fun hx ↦ hx.resolve_left h⟩

/-- Names that are declared from outside are declared, and no others are lost. -/
theorem contains_foldl_declare (names : List String) (t : Table) (x : String) :
    (names.foldl Table.declare t).contains x = true ↔ t.contains x = true ∨ x ∈ names := by
  induction names generalizing t with
  | nil => simp
  | cons y names ih =>
    rw [List.foldl_cons, ih, declare, contains_insert, List.mem_cons, or_assoc, or_left_comm]

/-- A declaration adds itself to those of the table, and nothing else. -/
theorem declarations_insert (t : Table) (d : Declaration) :
    (t.insert d).declarations.Perm (d :: t.declarations) :=
  iterate_push d t.entries

end KannadaScript.Table
