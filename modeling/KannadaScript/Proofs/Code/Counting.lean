import KannadaScript.Proofs.Code.Misplaced

/-!
# Blocks counted while writing

What a tree writes is a function of the blocks around it, and a generator is told afterwards at
which depth a failure has left it. Here is the same writing as a machine that counts: it has its
depth in its state, one more from `Generator.entered` to `Generator.left`, and a line is indented by
what the count says when the line begins. A block is left whenever its inside ends, by a failure as
well, since a block that is entered and not left would indent everything that is written later. Only
a line too wide to be indented is not an ending but an abort, and leaves the count where it is.

A step of the machine follows a step of writing if it does to the sink what that step does at the
current depth, and leaves the depth that belongs to the outcome (`Writer.Follows`). Every part of
the machine follows its part of `Node.emit`, so the machine and `Generator.generate` are one
function (`Writer.generate_eq`).

Main statement: `generator_carries_nothing`.
-/

namespace KannadaScript

namespace Code

/-! ### The machine -/

/-- A step of a generator that counts the blocks around what it writes. -/
abbrev Writer := EStateM Failure Generator

/-- Whether writing is torn off on the spot, without a way back through the blocks around. -/
def Failure.aborts : Failure → Bool
  | .paddingTooWide _ => true
  | .misplaced _ _ | .storage _ => false

namespace Generator

/-- The generator inside one more block. -/
def entered (g : Generator) : Generator := { g with depth := g.depth + 1 }

/-- The generator outside the innermost block. -/
def left (g : Generator) : Generator := { g with depth := g.depth - 1 }

end Generator

namespace Writer

/-- Run a step of the sink. -/
def sink (step : EStateM StorageFault Sink Unit) : Writer Unit := fun g ↦
  match step g.sink with
  | .ok u sink => .ok u { g with sink }
  | .error fault sink => .error (.storage fault) { g with sink }

/-- Write a text. -/
def put (text : String) : Writer Unit := sink (Sink.write text)

/-- Indent a line by as many levels as blocks are counted. -/
def indent : Writer Unit := do
  let g ← get
  if maxPadding < g.depth * g.width then throw (.paddingTooWide g.depth)
  else put (Text.blanks (g.depth * g.width))

/-- Fail because of a misplaced node. -/
def misplace (how : Misplacement) (n : Node) : Writer Unit := throw (.misplaced how n.line)

/-- Put what a step writes in parentheses if asked to. -/
def wrapped (wrap : Bool) (step : Writer Unit) : Writer Unit :=
  if wrap then do
    put "("
    step
    put ")"
  else step

/-- What stands inside a block. The block is left also when its inside fails. -/
def inBlock (inside : Writer Unit) : Writer Unit := fun g ↦
  match inside g.entered with
  | .ok u g' => .ok u g'.left
  | .error f g' => .error f (if f.aborts then g' else g'.left)

/-- Write an expression. -/
def expression : Node → Writer Unit
  | .binary _ op a b => do
    wrapped (a.wrapsLeft op) (expression a)
    put (" " ++ op.spelling ++ " ")
    wrapped (b.wrapsRight op) (expression b)
  | .negate _ a => do
    put negationSpelling
    wrapped a.wrapsNegated (expression a)
  | .var _ x => put x
  | .number _ v => put (Text.decimal v.toInt)
  | .quoted _ v => put (literal v)
  | .truth _ v => put (cond v "true" "false")
  | n => misplace .statementAsExpression n

mutual
/-- Write a statement. -/
def statement : Node → Writer Unit
  | .ifThen _ c t => do
    indent
    put "if ("
    expression c
    put ") \x7b\n"
    inBlock (body t)
    indent
    put "\x7d\n"
  | .ifElse _ c t e => do
    indent
    put "if ("
    expression c
    put ") \x7b\n"
    inBlock (body t)
    indent
    put "\x7d else \x7b\n"
    inBlock (body e)
    indent
    put "\x7d\n"
  | .loop _ c b => do
    indent
    put "while ("
    expression c
    put ") \x7b\n"
    inBlock (body b)
    indent
    put "\x7d\n"
  | .print _ v => do
    indent
    put "print("
    expression v
    put ");\n"
  | .assign _ x v => do
    indent
    put (x ++ " = ")
    expression v
    put ";\n"
  | n@(.program _ _) => misplace .nestedProgram n
  | n@(.block _ _) => misplace .blockAsStatement n
  | n => misplace .expressionAsStatement n
/-- Write the statements of a block, once it is entered. -/
def body : Node → Writer Unit
  | .block _ ss => statements ss
  | n => misplace .bodyNotABlock n
/-- Write a list of statements. -/
def statements : List Node → Writer Unit
  | [] => pure ()
  | n :: ns => do
    statement n
    statements ns
end

/-- Write the next tree and flush the sink. -/
def generate (root : Node) : Writer Unit := do
  match root with
  | .program _ ss => statements ss
  | n => statement n
  sink Sink.flush

/-! ### Following -/

/-- What a generator comes to when its sink comes to this. -/
def settled (g : Generator) :
    EStateM.Result Failure Sink Unit → EStateM.Result Failure Generator Unit
  | .ok u sink => .ok u { g with sink }
  | .error f sink => .error f { g with sink, depth := Generator.depthAfter g.depth f }

/-- The machine does what the step does at the depth that is counted. -/
def Follows (w : Writer Unit) (step : (width depth : Nat) → Emit Unit) : Prop :=
  ∀ g, w g = settled g (step g.width g.depth g.sink)

/-- A step of the sink is the same for the machine, which keeps its depth. -/
theorem follows_sink (step : EStateM StorageFault Sink Unit) :
    Follows (sink step) fun _ _ ↦ Emit.sink step := by
  intro g
  show sink step g = settled g (Emit.sink step g.sink)
  rw [sink, Emit.sink]
  rcases step g.sink with ⟨u, s⟩ | ⟨fault, s⟩ <;> rfl

theorem follows_put (text : String) : Follows (put text) fun _ _ ↦ Emit.put text :=
  follows_sink _

theorem follows_misplace (how : Misplacement) (n : Node) :
    Follows (misplace how n) fun _ _ ↦ Emit.misplace how n :=
  fun _ ↦ rfl

theorem follows_pure : Follows (pure ()) fun _ _ ↦ pure () :=
  fun _ ↦ rfl

/-- The machine aborts at the depth that the failure names. -/
theorem follows_indent : Follows indent Emit.indent := by
  intro g
  show (if maxPadding < g.depth * g.width then throw (.paddingTooWide g.depth)
    else put (Text.blanks (g.depth * g.width)) : Writer Unit) g = _
  rw [Emit.indent]
  split
  · rfl
  · exact follows_put _ g

section Follows

variable {w w' : Writer Unit} {step step' : (width depth : Nat) → Emit Unit}

/-- After a step that succeeds the depth is as before, so the next step follows from there. -/
theorem Follows.bind (h : Follows w step) (h' : Follows w' step') :
    Follows (w >>= fun _ ↦ w') fun width depth ↦
      step width depth >>= fun _ ↦ step' width depth := by
  intro g
  show (w >>= fun _ ↦ w') g =
    settled g ((step g.width g.depth >>= fun _ ↦ step' g.width g.depth) g.sink)
  have hfirst := h g
  rcases hstep : step g.width g.depth g.sink with ⟨u, s⟩ | ⟨f, s⟩ <;> rw [hstep] at hfirst
  · rw [Step.bind_of_ok hfirst, Step.bind_of_ok hstep, h']
    rfl
  · rw [Step.bind_of_error hfirst, Step.bind_of_error hstep]
    rfl

/-- A step that follows still does so inside parentheses. -/
theorem Follows.wrapped (h : Follows w step) (wrap : Bool) :
    Follows (wrapped wrap w) fun width depth ↦ Emit.wrapped wrap (step width depth) := by
  cases wrap with
  | true => exact (follows_put "(").bind (h.bind (follows_put ")"))
  | false => exact h

/-- **In and out again.** Whether its inside succeeds or fails, a block is left at the depth at
which it was entered, and an abort shows the depth of the line that it came from. -/
theorem Follows.inBlock (h : Follows w step) :
    Follows (inBlock w) fun width depth ↦ step width (depth + 1) := by
  intro g
  show Writer.inBlock w g = settled g (step g.width (g.depth + 1) g.sink)
  have hinside : w g.entered = settled g.entered (step g.width (g.depth + 1) g.sink) := h g.entered
  rw [Writer.inBlock, hinside]
  rcases step g.width (g.depth + 1) g.sink with ⟨u, s⟩ | ⟨f, s⟩
  · rfl
  · cases f <;> rfl

end Follows

/-- Expressions know no blocks, so at every depth the machine writes them alike. -/
theorem follows_expression (n : Node) :
    Follows (expression n) fun _ _ ↦ n.emitExpression := by
  match n with
  | .binary _ op a b =>
    exact ((follows_expression a).wrapped _).bind <| (follows_put _).bind <|
      (follows_expression b).wrapped _
  | .negate _ a => exact (follows_put _).bind ((follows_expression a).wrapped _)
  | .var _ _ | .number _ _ | .quoted _ _ | .truth _ _ => exact follows_put _
  | .program _ _ | .block _ _ | .ifThen _ _ _ | .ifElse _ _ _ _ | .loop _ _ _ | .print _ _
  | .assign _ _ _ => exact follows_misplace _ _

mutual
/-- **Step by step.** By induction on the tree: each statement of the machine follows its statement
of writing, and each block is left by one more and one less. -/
theorem follows_statement (n : Node) :
    Follows (statement n) fun width depth ↦ n.emitStatement width depth := by
  match n with
  | .ifThen _ c t | .loop _ c t =>
    exact follows_indent.bind <| (follows_put _).bind <| (follows_expression c).bind <|
      (follows_put _).bind <| (follows_body t).bind <| follows_indent.bind (follows_put _)
  | .ifElse _ c t e =>
    exact follows_indent.bind <| (follows_put _).bind <| (follows_expression c).bind <|
      (follows_put _).bind <| (follows_body t).bind <| follows_indent.bind <|
        (follows_put _).bind <| (follows_body e).bind <| follows_indent.bind (follows_put _)
  | .print _ v | .assign _ _ v =>
    exact follows_indent.bind <| (follows_put _).bind <| (follows_expression v).bind (follows_put _)
  | .program _ _ | .block _ _ | .binary _ _ _ _ | .negate _ _ | .var _ _ | .number _ _
  | .quoted _ _ | .truth _ _ => exact follows_misplace _ _
theorem follows_body (n : Node) :
    Follows (inBlock (body n)) fun width depth ↦ n.emitBody width depth := by
  match n with
  | .block _ ss => exact (follows_statements ss).inBlock
  | .program _ _ | .ifThen _ _ _ | .ifElse _ _ _ _ | .loop _ _ _ | .print _ _ | .assign _ _ _
  | .binary _ _ _ _ | .negate _ _ | .var _ _ | .number _ _ | .quoted _ _ | .truth _ _ =>
    exact (follows_misplace _ _).inBlock
theorem follows_statements (ns : List Node) :
    Follows (statements ns) fun width depth ↦ Node.emitStatements width depth ns := by
  match ns with
  | [] => exact follows_pure
  | n :: ns => exact (follows_statement n).bind (follows_statements ns)
end

/-- A whole tree: the statements of a program or a single one, and the flush behind them. -/
theorem follows_generate (root : Node) :
    Follows (generate root) fun width depth ↦ root.emit width depth := by
  have hflush := follows_sink Sink.flush
  cases root with
  | program _ ss => exact (follows_statements ss).bind hflush
  | _ => exact (follows_statement _).bind hflush

/-- **One function.** The machine writes what a generator writes, ends as it does and is left at the
same depth, from any state. -/
theorem generate_eq (root : Node) : generate root = Generator.generate root := by
  funext g
  exact follows_generate root g

end Writer

/-! ### Calls -/

namespace Generator

/-- The generator after trees that it has been given in turn, however each of them ended. -/
def after (g : Generator) : List Node → Generator
  | [] => g
  | n :: ns => (Step.final (Writer.generate n g)).after ns

/-- Inside no block, over a sink that never fails. -/
structure AtRest (width : Nat) (g : Generator) : Prop where
  width_eq : g.width = width
  depth_eq : g.depth = 0
  limit_eq : g.sink.limit = none
  flush_eq : g.sink.refusesFlush = false

/-- A tree comes to its end or to a misplaced node, and no line of it is too wide. -/
def Indents (g : Generator) (n : Node) : Prop :=
  ∀ depth g', Writer.generate n g ≠ .error (.paddingTooWide depth) g'

/-- What a call on a generator does, measured by what a fresh one does. -/
structure LikeFresh (width : Nat) (g : Generator) (n : Node) : Prop where
  depth_before : g.depth = 0
  /-- The call succeeds or reports a misplaced node, -/
  outcome : Step.answer (Writer.generate n g) = .ok () ∨
    ∃ how line, Step.answer (Writer.generate n g) = .error (.misplaced how line)
  /-- it is inside no block afterwards, however it ended, -/
  depth_after : (Step.final (Writer.generate n g)).depth = 0
  /-- it ends as it does for a fresh generator, -/
  answer_eq : Step.answer (Writer.generate n g) = Step.answer (Writer.generate n { width })
  /-- and writes the same bytes behind those that are there. -/
  written_eq : (Step.final (Writer.generate n g)).sink.written =
    g.sink.written ++ (Step.final (Writer.generate n { width })).sink.written

variable {width : Nat} {g : Generator} {n : Node}

/-- A new generator is at rest. -/
theorem atRest_fresh (width : Nat) : AtRest width { width } := ⟨rfl, rfl, rfl, rfl⟩

/-- Whether a line is too wide is the same for all generators at rest. -/
theorem AtRest.indents_iff (h : g.AtRest width) :
    g.Indents n ↔ ∀ depth, (n.script width 0).failure ≠ some (.paddingTooWide depth) := by
  rw [Indents, Writer.generate_eq, ← h.width_eq, ← h.depth_eq]
  constructor
  · intro hn depth hfails
    obtain ⟨g', hrun⟩ := generate_of_fails h.limit_eq h.flush_eq hfails
    exact hn depth g' hrun
  · intro hscript depth g' hrun
    rcases hfailure : (n.script g.width g.depth).failure with _ | f
    · obtain ⟨g'', hrun'⟩ := generate_of_completes h.limit_eq h.flush_eq hfailure
      rw [hrun'] at hrun
      cases hrun
    · obtain ⟨g'', hrun'⟩ := generate_of_fails h.limit_eq h.flush_eq hfailure
      rw [hrun'] at hrun
      cases hrun
      exact hscript depth hfailure

/-- The generator with the script of a tree written to its sink. -/
def holdingAlso (g : Generator) (n : Node) : Generator :=
  { g with sink := { g.sink with
    written := g.sink.written ++ Text.encode (n.script g.width g.depth).text } }

/-- How the writing of a tree ends if no line is too wide. -/
def verdict (n : Node) : Except Failure Unit :=
  match firstMisplaced (n.places .root) with
  | none => .ok ()
  | some x => .error (blame x)

/-- **One call.** How it ends is decided by the tree alone, and of the generator it changes only
what is in the sink. -/
theorem AtRest.call_eq (h : g.AtRest width) (hn : g.Indents n) :
    Step.answer (Writer.generate n g) = verdict n ∧
      Step.final (Writer.generate n g) = g.holdingAlso n := by
  rw [Indents, Writer.generate_eq] at hn
  have hfailure := failure_of_indented h.limit_eq h.flush_eq hn
  have hemit := n.emit_of_unlimited g.width g.depth h.limit_eq h.flush_eq
  rw [Writer.generate_eq, Generator.generate, hemit, hfailure, verdict]
  rcases firstMisplaced (n.places .root) with _ | x <;> exact ⟨rfl, rfl⟩

/-- **Step lemma.** A call leaves a generator at rest. -/
theorem AtRest.call (h : g.AtRest width) (hn : g.Indents n) :
    (Step.final (Writer.generate n g)).AtRest width := by
  rw [(h.call_eq hn).2]
  exact ⟨h.width_eq, h.depth_eq, h.limit_eq, h.flush_eq⟩

/-- **Run lemma.** So do calls in a row. -/
theorem AtRest.after (h : g.AtRest width) {trees : List Node}
    (htrees : ∀ before n rest, trees = before ++ n :: rest → (g.after before).Indents n) :
    (g.after trees).AtRest width := by
  induction trees generalizing g with
  | nil => exact h
  | cons n ns ih =>
    refine ih (h.call (htrees [] n ns rfl)) fun before m rest hns ↦ ?_
    exact htrees (n :: before) m rest (by rw [hns, List.cons_append])

/-- A generator at rest does what a fresh one does. -/
theorem AtRest.likeFresh (h : g.AtRest width) (hn : g.Indents n) : LikeFresh width g n := by
  have hfresh := atRest_fresh width
  obtain ⟨hanswer, hfinal⟩ := h.call_eq hn
  obtain ⟨hanswer', hfinal'⟩ := hfresh.call_eq (hfresh.indents_iff.2 (h.indents_iff.1 hn))
  refine ⟨h.depth_eq, ?_, (h.call hn).depth_eq, hanswer.trans hanswer'.symm, ?_⟩
  · rw [hanswer, verdict]
    rcases firstMisplaced (n.places .root) with _ | x
    · exact .inl rfl
    · exact .inr ⟨_, _, rfl⟩
  · rw [hfinal, hfinal', holdingAlso, holdingAlso, h.width_eq, h.depth_eq]
    apply Array.ext'
    simp

end Generator

end Code

open Code

/-- **Nothing is carried over.** A generator and the machine that counts blocks are one function.
Let trees be given to it in turn, over a sink that never fails, and let no line be too wide. Then
before and after every call it is inside no block, however deep the node was that the call may have
failed at; and the call ends as that of a fresh generator, and adds the same bytes. -/
theorem generator_carries_nothing (width : Nat) (sink : Sink) (hlimit : sink.limit = none)
    (hflush : sink.refusesFlush = false) (trees : List Node)
    (hwide : ∀ before n rest, trees = before ++ n :: rest →
      (({ width, sink } : Generator).after before).Indents n) :
    (∀ n g, Writer.generate n g = Generator.generate n g) ∧
      ∀ before n rest, trees = before ++ n :: rest →
        Generator.LikeFresh width (({ width, sink } : Generator).after before) n := by
  refine ⟨fun n g ↦ by rw [Writer.generate_eq], fun before n rest htrees ↦ ?_⟩
  have hstart : Generator.AtRest width { width, sink } := ⟨rfl, rfl, hlimit, hflush⟩
  have hrest : Generator.AtRest width (({ width, sink } : Generator).after before) := by
    refine hstart.after fun before' m rest' hbefore ↦ hwide before' m (rest' ++ n :: rest) ?_
    rw [htrees, hbefore, List.append_assoc, List.cons_append]
  exact hrest.likeFresh (hwide before n rest htrees)

/-- A loop fails at a block three levels deep that stands among statements, and a program is written
after it. -/
theorem generator_carries_nothing_misplaced :
    let inner : Node := .ifElse 2 (.truth 2 true) (.block 2 [.print 3 (.number 3 1)])
      (.block 4 [.loop 5 (.var 5 "ಕ") (.block 5 [.block 6 []])])
    let first : Node := .loop 1 (.var 1 "ಕ") (.block 1 [inner])
    let second : Node := .program 7 [.ifThen 7 (.truth 7 false) (.block 7 [.print 8 (.var 8 "ಕ")])]
    let sink : Sink := { written := #[65, 10] }
    (sink.limit = none ∧ sink.refusesFlush = false ∧
      ∀ before n rest, [first, second] = before ++ n :: rest →
        (({ width := 4, sink } : Generator).after before).Indents n) ∧
    ∀ before n rest, [first, second] = before ++ n :: rest →
      Generator.LikeFresh 4 (({ width := 4, sink } : Generator).after before) n := by
  intro inner first second sink
  have hstart : Generator.AtRest 4 { width := 4, sink } := ⟨rfl, rfl, rfl, rfl⟩
  have hfirst : Generator.Indents { width := 4, sink } first := by
    have hfailure : (first.script 4 0).failure = some (.misplaced .blockAsStatement 6) := by decide
    refine hstart.indents_iff.2 fun depth ↦ ?_
    rw [hfailure]
    simp
  have hsecond : Generator.Indents (Generator.after { width := 4, sink } [first]) second := by
    have hfailure : (second.script 4 0).failure = none := by decide
    refine (hstart.call hfirst).indents_iff.2 fun depth ↦ ?_
    rw [hfailure]
    simp
  have hwide : ∀ before n rest, [first, second] = before ++ n :: rest →
      (({ width := 4, sink } : Generator).after before).Indents n := by
    intro before n rest htrees
    rcases before with - | ⟨m, - | ⟨m', before⟩⟩
    · obtain ⟨rfl, -⟩ := List.cons.inj htrees
      exact hfirst
    · obtain ⟨rfl, htail⟩ := List.cons.inj htrees
      obtain ⟨rfl, -⟩ := List.cons.inj htail
      exact hsecond
    · simp at htrees
  exact ⟨⟨rfl, rfl, hwide⟩,
    (generator_carries_nothing 4 sink rfl rfl [first, second] hwide).2⟩

end KannadaScript
