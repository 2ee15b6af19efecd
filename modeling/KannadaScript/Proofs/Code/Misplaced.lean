import KannadaScript.Code.Generator
import KannadaScript.Proofs.Phases
import KannadaScript.Proofs.Tree.Shape

/-!
# The first misplaced node

Any node can stand anywhere in a tree, but not everywhere can it be written. A node stands at the
root, among statements, as the body of a statement or in an expression (`Place`), and by its kind it
fits there or not (`Node.fits`). `Node.places` lists the nodes of a tree with their places, each
node before what is below it and everything in the order of writing. Below a node that does not fit,
places are given as if it did, so that the list is that of all nodes (`map_snd_places`) and no node
is left out because another one is wrong.

A script reports the first node of such a list that does not fit (`Script.Reports`). Scripts one
after the other report what their lists do one after the other (`Reports.andThen`), so what a whole
tree reports is put together from its parts. A line that is too wide may come before the first
misplaced node, and then the script reports that; it is the only other thing that can happen.

The bridge to the predicates that the other modules use is `Node.allFit_root`: all nodes of a tree
fit exactly when it is a program or a statement with every node in its place.

Main statement: `generate_blames_first_misplaced`.
-/

namespace KannadaScript

open Code

/-! ### Places -/

/-- Where a node can stand. -/
inductive Place where
  | root
  | statement
  | body
  | expression
deriving DecidableEq, Repr

namespace Node

/-- Whether a node of this kind can be written at a place, whatever is below it. -/
def fits : Place → Node → Bool
  | .root, .program _ _ | .body, .block _ _ => true
  | .root, .ifThen _ _ _ | .root, .ifElse _ _ _ _ | .root, .loop _ _ _ | .root, .print _ _
  | .root, .assign _ _ _ => true
  | .statement, .ifThen _ _ _ | .statement, .ifElse _ _ _ _ | .statement, .loop _ _ _
  | .statement, .print _ _ | .statement, .assign _ _ _ => true
  | .expression, .binary _ _ _ _ | .expression, .negate _ _ | .expression, .var _ _
  | .expression, .number _ _ | .expression, .quoted _ _ | .expression, .truth _ _ => true
  | _, _ => false

/-- What is said of a node that does not fit its place. -/
def misplacement : Place → Node → Misplacement
  | .expression, _ => .statementAsExpression
  | .body, _ => .bodyNotABlock
  | _, .program _ _ => .nestedProgram
  | _, .block _ _ => .blockAsStatement
  | _, _ => .expressionAsStatement

mutual
/-- The nodes of a tree that stands at `place`, each with its own place, in the order of writing. -/
def places (place : Place) : Node → List (Place × Node)
  | n@(.program _ ss) | n@(.block _ ss) => (place, n) :: placesAll ss
  | n@(.ifThen _ c b) | n@(.loop _ c b) =>
    (place, n) :: (c.places .expression ++ b.places .body)
  | n@(.ifElse _ c t e) =>
    (place, n) :: (c.places .expression ++ (t.places .body ++ e.places .body))
  | n@(.print _ a) | n@(.assign _ _ a) | n@(.negate _ a) => (place, n) :: a.places .expression
  | n@(.binary _ _ a b) => (place, n) :: (a.places .expression ++ b.places .expression)
  | n => [(place, n)]
/-- The nodes of trees that stand among statements. -/
def placesAll : List Node → List (Place × Node)
  | [] => []
  | n :: ns => n.places .statement ++ placesAll ns
end

mutual
/-- No node is left out, and none comes before one that it is below. -/
theorem map_snd_places (place : Place) (n : Node) : (n.places place).map Prod.snd = n.nodes := by
  match n with
  | .program _ ss | .block _ ss => rw [places, nodes, List.map_cons, map_snd_placesAll ss]
  | .ifThen _ a b | .loop _ a b | .binary _ _ a b =>
    rw [places, nodes, List.map_cons, List.map_append, map_snd_places _ a, map_snd_places _ b]
  | .ifElse _ c t e =>
    rw [places, nodes, List.map_cons, List.map_append, List.map_append, map_snd_places _ c,
      map_snd_places _ t, map_snd_places _ e]
  | .print _ a | .assign _ _ a | .negate _ a =>
    rw [places, nodes, List.map_cons, map_snd_places _ a]
  | .var _ _ | .number _ _ | .quoted _ _ | .truth _ _ => rfl
theorem map_snd_placesAll (ns : List Node) : (placesAll ns).map Prod.snd = nodesAll ns := by
  match ns with
  | [] => rfl
  | n :: ns =>
    rw [placesAll, nodesAll, List.map_append, map_snd_places _ n, map_snd_placesAll ns]
end

/-! ### Trees in which all fits -/

/-- Every node fits its place. -/
def allFit (xs : List (Place × Node)) : Bool := xs.all fun x ↦ x.2.fits x.1

@[simp] theorem allFit_nil : allFit [] = true := rfl

@[simp] theorem allFit_cons (x : Place × Node) (xs : List (Place × Node)) :
    allFit (x :: xs) = (x.2.fits x.1 && allFit xs) := rfl

@[simp] theorem allFit_append (xs ys : List (Place × Node)) :
    allFit (xs ++ ys) = (allFit xs && allFit ys) :=
  List.all_append

/-- In an expression every node fits exactly when the tree is an expression. The same holds, place
by place, of statements and bodies. -/
theorem allFit_expression (n : Node) : allFit (n.places .expression) = n.isExpression := by
  match n with
  | .binary _ _ a b =>
    rw [places, allFit_cons, allFit_append, allFit_expression a, allFit_expression b]
    rfl
  | .negate _ a =>
    rw [places, allFit_cons, allFit_expression a]
    rfl
  | .var _ _ | .number _ _ | .quoted _ _ | .truth _ _ => rfl
  | .program _ _ | .block _ _ | .ifThen _ _ _ | .ifElse _ _ _ _ | .loop _ _ _ | .print _ _
  | .assign _ _ _ => rfl

mutual
theorem allFit_statement (n : Node) : allFit (n.places .statement) = n.isStatement := by
  match n with
  | .ifThen _ c b | .loop _ c b =>
    rw [places, allFit_cons, allFit_append, allFit_expression, allFit_body b, isStatement]
    rfl
  | .ifElse _ c t e =>
    rw [places, allFit_cons, allFit_append, allFit_append, allFit_expression, allFit_body t,
      allFit_body e, isStatement, Bool.and_assoc]
    rfl
  | .print _ v | .assign _ _ v =>
    rw [places, allFit_cons, allFit_expression, isStatement]
    rfl
  | .program _ _ | .block _ _ | .binary _ _ _ _ | .negate _ _ | .var _ _ | .number _ _
  | .quoted _ _ | .truth _ _ => rfl
theorem allFit_body (n : Node) : allFit (n.places .body) = n.isBody := by
  match n with
  | .block _ ss =>
    rw [places, allFit_cons, allFit_statements ss, isBody]
    rfl
  | .program _ _ | .ifThen _ _ _ | .ifElse _ _ _ _ | .loop _ _ _ | .print _ _ | .assign _ _ _
  | .binary _ _ _ _ | .negate _ _ | .var _ _ | .number _ _ | .quoted _ _ | .truth _ _ => rfl
theorem allFit_statements (ns : List Node) : allFit (placesAll ns) = areStatements ns := by
  match ns with
  | [] => rfl
  | n :: ns =>
    rw [placesAll, allFit_append, allFit_statement n, allFit_statements ns, areStatements]
end

/-- All fits in a tree exactly if it is a program of statements or a statement. -/
theorem allFit_root (n : Node) :
    allFit (n.places .root) = true ↔ n.isProgram = true ∨ n.isStatement = true := by
  cases n with
  | program l ss =>
    rw [places, allFit_cons, allFit_statements]
    simp [fits, isProgram, isStatement]
  | _ =>
    rw [← allFit_statement]
    simp [places, fits, isProgram]

end Node

/-! ### Reports of scripts -/

/-- The first node that does not fit its place. -/
def firstMisplaced (xs : List (Place × Node)) : Option (Place × Node) :=
  xs.find? fun x ↦ !x.2.fits x.1

/-- The failure that a misplaced node is. -/
def blame (x : Place × Node) : Failure := .misplaced (x.2.misplacement x.1) x.2.line

namespace Code.Script

/-- The script fails because of the first misplaced node of a list, and not at all if there is none;
unless a line cannot be indented before that. -/
def Reports (xs : List (Place × Node)) (script : Script) : Prop :=
  script.failure = (firstMisplaced xs).map blame ∨
    ∃ depth, script.failure = some (.paddingTooWide depth)

variable {xs ys : List (Place × Node)} {a b : Script} {place : Place} {n : Node}

theorem reports_say (text : String) : Reports [] (say text) := .inl rfl

theorem reports_nothing : Reports [] nothing := .inl rfl

/-- An indentation reports nothing, or that it is too wide. -/
theorem reports_indent (width depth : Nat) : Reports [] (indent width depth) := by
  rw [indent]
  split
  · exact .inr ⟨depth, rfl⟩
  · exact reports_say _

/-- A node that does not fit is reported, whatever would come after it. -/
theorem reports_stop (h : n.fits place = false) (xs : List (Place × Node)) :
    Reports ((place, n) :: xs) (stop (.misplaced (n.misplacement place) n.line)) := by
  refine .inl ?_
  rw [firstMisplaced, List.find?_cons_of_pos (by simp [h])]
  rfl

/-- A node that fits is passed over. -/
theorem Reports.cons (h : Reports xs a) (hn : n.fits place = true) :
    Reports ((place, n) :: xs) a := by
  rwa [Reports, firstMisplaced, List.find?_cons_of_neg (by simp [hn])]

/-- Scripts one after the other report what their lists do one after the other. -/
theorem Reports.andThen (ha : Reports xs a) (hb : Reports ys b) :
    Reports (xs ++ ys) (a.andThen b) := by
  rcases ha with ha | ⟨depth, ha⟩
  · rcases hfirst : firstMisplaced xs with _ | x
    · rw [hfirst] at ha
      have hsame : firstMisplaced (xs ++ ys) = firstMisplaced ys := by
        rw [firstMisplaced, List.find?_append, ← firstMisplaced, hfirst]
        rfl
      rw [Reports, hsame, Script.andThen, ha]
      exact hb
    · rw [hfirst] at ha
      have hsame : firstMisplaced (xs ++ ys) = some x := by
        rw [firstMisplaced, List.find?_append, ← firstMisplaced, hfirst]
        rfl
      rw [Reports, andThen_of_some ha, hsame]
      exact .inl ha
  · rw [Reports, andThen_of_some ha]
    exact .inr ⟨depth, ha⟩

/-- A step that writes no node may come before, -/
theorem Reports.after (hb : Reports xs b) (ha : Reports [] a) : Reports xs (a.andThen b) :=
  ha.andThen hb

/-- and it may come behind. -/
theorem Reports.before (ha : Reports xs a) (hb : Reports [] b) : Reports xs (a.andThen b) := by
  have h := ha.andThen hb
  rwa [List.append_nil] at h

/-- Parentheses report nothing of their own. -/
theorem Reports.wrapped (h : Reports xs a) (wrap : Bool) : Reports xs (Script.wrapped wrap a) := by
  cases wrap with
  | true => exact (h.before (reports_say _)).after (reports_say _)
  | false => exact h

/-- A statement that ends in a block reports its condition, its block and what comes behind. -/
theorem Reports.headed {zs : List (Place × Node)} {condition body rest : Script}
    (hc : Reports xs condition) (hb : Reports ys body) (hr : Reports zs rest) (width depth : Nat)
    (start : String) :
    Reports (xs ++ (ys ++ zs)) (Node.headed width depth start condition body rest) := by
  have hrest : Reports zs ((indent width depth).andThen rest) := hr.after (reports_indent _ _)
  have hbody : Reports (ys ++ zs) ((say ") \x7b\n").andThen
      (body.andThen ((indent width depth).andThen rest))) :=
    (hb.andThen hrest).after (reports_say _)
  exact ((hc.andThen hbody).after (reports_say _)).after (reports_indent _ _)

end Code.Script

namespace Node

open Script

/-- What the script of a tree reports when it is written as an expression, for any tree. -/
theorem reports_expression (n : Node) : Reports (n.places .expression) n.expressionScript := by
  match n with
  | .binary _ op a b =>
    exact Reports.cons (((reports_expression a).wrapped _).andThen
      (((reports_expression b).wrapped _).after (reports_say _))) rfl
  | .negate _ a =>
    exact Reports.cons (((reports_expression a).wrapped _).after (reports_say _)) rfl
  | .var _ _ | .number _ _ | .quoted _ _ | .truth _ _ => exact (reports_say _).cons rfl
  | .program _ _ | .block _ _ | .ifThen _ _ _ | .ifElse _ _ _ _ | .loop _ _ _ | .print _ _
  | .assign _ _ _ => exact reports_stop rfl _

/-- A statement that holds one expression. -/
theorem reports_holding (width depth : Nat) (start finish : String) (v : Node) :
    Reports (v.places .expression) ((Script.indent width depth).andThen <|
      (Script.say start).andThen <| v.expressionScript.andThen (.say finish)) :=
  (((reports_expression v).before (reports_say _)).after (reports_say _)).after
    (reports_indent _ _)

mutual
/-- What the script of a tree reports when it is written as a statement. By induction on the tree,
in the order in which its parts are written. -/
theorem reports_statement (width depth : Nat) (n : Node) :
    Reports (n.places .statement) (n.statementScript width depth) := by
  match n with
  | .ifThen _ c b | .loop _ c b =>
    have hparts := (reports_expression c).headed (reports_body width depth b)
      (reports_say "\x7d\n") width depth
    rw [List.append_nil] at hparts
    exact (hparts _).cons rfl
  | .ifElse _ c t e =>
    have hend : Reports [] ((Script.indent width depth).andThen (.say "\x7d\n")) :=
      (reports_say _).after (reports_indent _ _)
    have hother : Reports (e.places .body) ((Script.say "\x7d else \x7b\n").andThen <|
        (e.bodyScript width depth).andThen <|
          (Script.indent width depth).andThen (.say "\x7d\n")) :=
      ((reports_body width depth e).before hend).after (reports_say _)
    exact ((reports_expression c).headed (reports_body width depth t) hother _ _ _).cons rfl
  | .print _ v | .assign _ _ v => exact (reports_holding width depth _ _ v).cons rfl
  | .program _ _ | .block _ _ | .binary _ _ _ _ | .negate _ _ | .var _ _ | .number _ _
  | .quoted _ _ | .truth _ _ => exact reports_stop rfl _
theorem reports_body (width depth : Nat) (n : Node) :
    Reports (n.places .body) (n.bodyScript width depth) := by
  match n with
  | .block _ ss => exact (reports_statements width (depth + 1) ss).cons rfl
  | .program _ _ | .ifThen _ _ _ | .ifElse _ _ _ _ | .loop _ _ _ | .print _ _ | .assign _ _ _
  | .binary _ _ _ _ | .negate _ _ | .var _ _ | .number _ _ | .quoted _ _ | .truth _ _ =>
    exact reports_stop rfl _
theorem reports_statements (width depth : Nat) (ns : List Node) :
    Reports (placesAll ns) (statementsScript width depth ns) := by
  match ns with
  | [] => exact reports_nothing
  | n :: ns => exact (reports_statement width depth n).andThen (reports_statements width depth ns)
end

/-- A whole tree reports the first of its nodes that does not fit. A root that is no program is
judged and written as a statement. -/
theorem reports_root (width depth : Nat) (n : Node) :
    Reports (n.places .root) (n.script width depth) := by
  cases n with
  | program _ ss => exact (reports_statements width depth ss).cons rfl
  | _ => exact reports_statement width depth _

end Node

/-! ### Generators -/

/-- There is a first misplaced node unless all fit. -/
theorem firstMisplaced_eq_none_iff (xs : List (Place × Node)) :
    firstMisplaced xs = none ↔ Node.allFit xs = true := by
  simp [firstMisplaced, Node.allFit]

section Generate

variable {root : Node} {g : Generator} (hlimit : g.sink.limit = none)
  (hflush : g.sink.refusesFlush = false)

include hlimit hflush

/-- A script that does not fail is generated. -/
theorem generate_of_completes (h : (root.script g.width g.depth).failure = none) :
    ∃ g', Generator.generate root g = .ok () g' := by
  have hemit := root.emit_of_unlimited g.width g.depth hlimit hflush
  rw [h] at hemit
  rw [Generator.generate, hemit]
  exact ⟨_, rfl⟩

/-- The failure of a script is that of the generator. -/
theorem generate_of_fails {f : Failure} (h : (root.script g.width g.depth).failure = some f) :
    ∃ g', Generator.generate root g = .error f g' := by
  have hemit := root.emit_of_unlimited g.width g.depth hlimit hflush
  rw [h] at hemit
  rw [Generator.generate, hemit]
  exact ⟨_, rfl⟩

/-- Where every line can be indented, a script fails only because of a misplaced node. -/
theorem failure_of_indented
    (hpadding : ∀ depth g', Generator.generate root g ≠ .error (.paddingTooWide depth) g') :
    (root.script g.width g.depth).failure = (firstMisplaced (root.places .root)).map blame := by
  refine (root.reports_root g.width g.depth).resolve_right ?_
  rintro ⟨depth, hwide⟩
  obtain ⟨g', hrun⟩ := generate_of_fails hlimit hflush hwide
  exact hpadding depth g' hrun

end Generate

/-- **The first misplaced node is blamed.** Unless a line cannot be indented, a tree is written to
its end exactly if it is a program of statements or a statement, with expressions and blocks in
their places. Any other tree has a first node that does not fit its place, and fails with the line
of that node. -/
theorem generate_blames_first_misplaced (root : Node) (g : Generator) (hlimit : g.sink.limit = none)
    (hflush : g.sink.refusesFlush = false)
    (hpadding : ∀ depth g', Generator.generate root g ≠ .error (.paddingTooWide depth) g') :
    ((∃ g', Generator.generate root g = .ok () g') ↔
      root.isProgram = true ∨ root.isStatement = true) ∧
    (¬(root.isProgram = true ∨ root.isStatement = true) →
      ∃ before place n after g', root.places .root = before ++ (place, n) :: after ∧
        (∀ x ∈ before, x.2.fits x.1 = true) ∧ n.fits place = false ∧
        Generator.generate root g = .error (.misplaced (n.misplacement place) n.line) g') := by
  have hfailure := failure_of_indented hlimit hflush hpadding
  rw [← Node.allFit_root, ← firstMisplaced_eq_none_iff]
  rcases hfirst : firstMisplaced (root.places .root) with _ | ⟨place, n⟩
  · rw [hfirst] at hfailure
    exact ⟨iff_of_true (generate_of_completes hlimit hflush hfailure) rfl, absurd rfl⟩
  · rw [hfirst] at hfailure
    obtain ⟨g', hrun⟩ := generate_of_fails hlimit hflush hfailure
    obtain ⟨hmisfit, before, after, hplaces, hbefore⟩ := List.find?_eq_some_iff_append.1 hfirst
    refine ⟨iff_of_false ?_ (Option.some_ne_none _), fun _ ↦ ?_⟩
    · rintro ⟨g'', hok⟩
      rw [hrun] at hok
      cases hok
    · refine ⟨before, place, n, after, g', hplaces, fun x hx ↦ ?_, ?_, hrun⟩
      · simpa using hbefore x hx
      · simpa using hmisfit

/-- In a conditional whose condition is a loop and whose branch is no block, the loop is blamed. -/
theorem generate_blames_first_misplaced_loop :
    let inner : Node := .loop 2 (.block 3 []) (.var 4 "ಕ")
    let root : Node := .program 1 [.print 1 (.truth 1 true), .ifThen 1 inner (.number 5 7)]
    let g : Generator := { width := 4 }
    (g.sink.limit = none ∧ g.sink.refusesFlush = false ∧
      ∀ depth g', Generator.generate root g ≠ .error (.paddingTooWide depth) g') ∧
    ¬(root.isProgram = true ∨ root.isStatement = true) ∧
    ∃ before place n after g', root.places .root = before ++ (place, n) :: after ∧
      (∀ x ∈ before, x.2.fits x.1 = true) ∧ n.fits place = false ∧
      Generator.generate root g = .error (.misplaced (n.misplacement place) n.line) g' := by
  intro inner root g
  have hrun : (root.script 4 0).failure = some (.misplaced .statementAsExpression 2) := by decide
  have hpadding : ∀ depth g', Generator.generate root g ≠ .error (.paddingTooWide depth) g' := by
    obtain ⟨g'', hg''⟩ := generate_of_fails (g := g) rfl rfl hrun
    intro depth g' h
    rw [hg''] at h
    cases h
  have hshape : ¬(root.isProgram = true ∨ root.isStatement = true) := by decide
  exact ⟨⟨rfl, rfl, hpadding⟩, hshape,
    (generate_blames_first_misplaced root g rfl rfl hpadding).2 hshape⟩

end KannadaScript
