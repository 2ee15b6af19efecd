import KannadaScript.Code.Emit

/-!
# Generators

A generator writes one tree after another to the same sink. Between trees it keeps the depth that
the next one starts at. A tree that is written to its end, or only up to a misplaced node or a
refusal of the sink, leaves every block it entered, so the depth is as before. Only a line too wide
to be indented stops the writing on the spot: the generator then stays inside the blocks around that
line, and what follows is written from there.

A compilation writes one tree, and none of this shows. It does when a generator is used on after a
failure. The depth that a failure leaves is a function of the failure (`Generator.depthAfter`),
since it says how deep the line was that had no room.
-/

namespace KannadaScript.Code

/-- A sink with the layout of what is written to it. -/
structure Generator where
  /-- The blanks per level. -/
  width : Nat
  /-- The blocks that the next tree is written inside. -/
  depth : Nat := 0
  sink : Sink := {}
deriving DecidableEq, Repr

namespace Generator

/-- The depth that a failure leaves behind, where the tree started at `depth`. -/
def depthAfter (depth : Nat) : Failure → Nat
  | .paddingTooWide reached => reached
  | .misplaced _ _ | .storage _ => depth

/-- Write the next tree. -/
def generate (root : Node) : EStateM Failure Generator Unit := fun g ↦
  match root.emit g.width g.depth g.sink with
  | .ok u sink => .ok u { g with sink }
  | .error failure sink => .error failure { g with sink, depth := depthAfter g.depth failure }

end Generator

end KannadaScript.Code
