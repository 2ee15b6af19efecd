import KannadaScript.Code.Emit
import KannadaScript.Proofs.Steps
import KannadaScript.Proofs.Text.Encoding

/-!
# Scripts of written code

What a tree writes does not depend on the sink; only how much of it is taken does. A script says
what is written and how the writing ends, and `Script.play` is what a sink makes of it: it takes the
bytes that fit, and reports either its own refusal or the end of the script.

A tree is written in many small writes, each of which may be refused. A script is one text. That
both come to the same rests on one fact about sinks: to write two texts one after the other is to
write them together (`play_andThen`). The sink takes what fits of the first, and of the second only
if all of the first has fitted (`Sink.room_add`); so the bytes it holds are always the first ones of
the whole text, and it refuses in the same cases. From there on every step of writing has its
script, and steps in a row have their scripts in a row.

Scripts are data. They can be compared, cut, and taken apart by what they write, and so proofs about
written code speak of scripts and not of sinks.

Main statement: to write a tree is to play its script, on every sink and for every tree
(`Node.emitExpression_eq_play`, `Node.emitStatement_eq_play`, `Node.emit_eq_play`).
-/

namespace KannadaScript

namespace Sink

theorem size_append_list (a : Array UInt8) (bs : List UInt8) :
    (a ++ bs).size = a.size + bs.length := by
  rw [← Array.length_toList, Array.toList_appendList, List.length_append, Array.length_toList]

theorem append_list_append (a : Array UInt8) (bs cs : List UInt8) :
    a ++ (bs ++ cs) = a ++ bs ++ cs := by
  apply Array.ext'
  simp only [Array.toList_appendList, List.append_assoc]

/-- A sink that takes some bytes in full has room for so many fewer afterwards. -/
theorem room_add (s : Sink) {bs : List UInt8} (h : s.room bs.length = bs.length) (m : Nat) :
    s.room (bs.length + m) = bs.length + ({ s with written := s.written ++ bs } : Sink).room m := by
  rcases s with ⟨written, _ | limit, refuses⟩
  · rfl
  · simp only [room, size_append_list] at h ⊢
    omega

/-- A sink that refuses some bytes takes no more of a longer text. -/
theorem room_add_of_lt (s : Sink) {n : Nat} (h : s.room n ≠ n) (m : Nat) :
    s.room n < n ∧ s.room (n + m) = s.room n := by
  rcases s with ⟨written, _ | limit, refuses⟩
  · exact absurd rfl h
  · simp only [room] at h ⊢
    omega

end Sink

namespace Code

/-- A text to be written, and the failure that ends the writing, if one does. -/
structure Script where
  text : List Char
  failure : Option Failure

namespace Script

/-- Write a text. -/
def say (text : String) : Script := ⟨text.toList, none⟩

/-- Write nothing. -/
def nothing : Script := ⟨[], none⟩

/-- Write nothing and fail. -/
def stop (failure : Failure) : Script := ⟨[], some failure⟩

/-- Go on with `b` unless `a` fails. -/
def andThen (a b : Script) : Script :=
  match a.failure with
  | none => ⟨a.text ++ b.text, b.failure⟩
  | some _ => a

theorem andThen_of_none (text : List Char) (b : Script) :
    andThen ⟨text, none⟩ b = ⟨text ++ b.text, b.failure⟩ := rfl

/-- Behind a script that fails nothing more is played. -/
theorem andThen_of_some {a : Script} {f : Failure} (h : a.failure = some f) (b : Script) :
    a.andThen b = a := by
  rw [andThen, h]

/-- What a sink makes of a script. -/
def play (script : Script) : Emit Unit := fun s ↦
  let bs := Text.encode script.text
  let taken := s.room bs.length
  let s' := { s with written := s.written ++ bs.take taken }
  if taken = bs.length then
    match script.failure with
    | none => .ok () s'
    | some f => .error f s'
  else .error (.storage .full) s'

/-- The sink after a text that it takes in full. -/
theorem play_of_fits {text : List Char} {s : Sink}
    (h : s.room (Text.encode text).length = (Text.encode text).length) (failure : Option Failure) :
    play ⟨text, failure⟩ s =
      match failure with
      | none => .ok () { s with written := s.written ++ Text.encode text }
      | some f => .error f { s with written := s.written ++ Text.encode text } := by
  rw [play, if_pos h, h, List.take_length]

/-- A text that does not fit is cut, and the sink refuses. -/
theorem play_of_not_fits {text : List Char} {s : Sink}
    (h : s.room (Text.encode text).length ≠ (Text.encode text).length)
    (failure : Option Failure) :
    play ⟨text, failure⟩ s = .error (.storage .full) { s with
      written := s.written ++ (Text.encode text).take (s.room (Text.encode text).length) } := by
  rw [play, if_neg h]

/-- A sink without limit takes everything. -/
theorem play_of_unlimited (script : Script) {s : Sink} (h : s.limit = none) :
    script.play s =
      match script.failure with
      | none => .ok () { s with written := s.written ++ Text.encode script.text }
      | some f => .error f { s with written := s.written ++ Text.encode script.text } :=
  play_of_fits (by rw [Sink.room, h]) _

/-- One script after the other is played in turn. -/
theorem play_andThen (a b : Script) : (a.andThen b).play = a.play >>= fun _ ↦ b.play := by
  funext s
  rcases a with ⟨text, _ | f⟩
  case some => cases hplay : play ⟨text, some f⟩ s with
    | ok u s' =>
      by_cases h : s.room (Text.encode text).length = (Text.encode text).length
      · rw [play_of_fits h] at hplay
        cases hplay
      · rw [play_of_not_fits h] at hplay
        cases hplay
    | error e s' => rw [andThen_of_some rfl, Step.bind_of_error hplay, hplay]
  case none =>
    rw [andThen_of_none]
    -- whether the first text fits, and then whether the second fits into what room is left
    by_cases h : s.room (Text.encode text).length = (Text.encode text).length
    · rw [Step.bind_of_ok (play_of_fits h none)]
      have hroom := s.room_add h (Text.encode b.text).length
      by_cases hb : ({ s with written := s.written ++ Text.encode text } : Sink).room
          (Text.encode b.text).length = (Text.encode b.text).length
      · rw [play_of_fits hb, play_of_fits, Text.encode_append, Sink.append_list_append]
        rw [Text.encode_append, List.length_append, hroom, hb]
      · rw [play_of_not_fits hb, play_of_not_fits]
        · rw [Text.encode_append, List.length_append, hroom, List.take_length_add_append,
            Sink.append_list_append]
        · rw [Text.encode_append, List.length_append, hroom]
          omega
    · obtain ⟨hlt, hroom⟩ := s.room_add_of_lt h (Text.encode b.text).length
      rw [Step.bind_of_error (play_of_not_fits h none), play_of_not_fits]
      · rw [Text.encode_append, List.length_append, hroom, List.take_append_of_le_length hlt.le]
      · rw [Text.encode_append, List.length_append, hroom]
        omega

/-! ### Single steps -/

/-- Indent a line by `depth` levels of `width` blanks. -/
def indent (width depth : Nat) : Script :=
  if maxPadding < depth * width then stop (.paddingTooWide depth)
  else say (Text.blanks (depth * width))

/-- Put a script in parentheses if asked to. -/
def wrapped (wrap : Bool) (inner : Script) : Script :=
  if wrap then (say "(").andThen (inner.andThen (say ")")) else inner

/-- To write a text is to play it, and so on for every other step. -/
theorem put_eq_play (text : String) : Emit.put text = (say text).play := by
  funext s
  by_cases h : s.room (Text.encode text.toList).length = (Text.encode text.toList).length
  · rw [say, play_of_fits h]
    simp [Emit.put, Emit.sink, Sink.write, Text.bytes, h]
  · rw [say, play_of_not_fits h]
    simp [Emit.put, Emit.sink, Sink.write, Text.bytes, h]

/-- Writing nothing never fails. -/
theorem play_nil (failure : Option Failure) (s : Sink) :
    play ⟨[], failure⟩ s = match failure with | none => .ok () s | some f => .error f s := by
  have h : s.room (Text.encode []).length = (Text.encode []).length := by
    rcases s with ⟨written, _ | limit, refuses⟩ <;> simp [Sink.room]
  rw [play_of_fits h, Text.encode_nil, Array.appendList_nil]

theorem pure_eq_play : (pure () : Emit Unit) = nothing.play := by
  funext s
  exact (play_nil none s).symm

theorem throw_eq_play (f : Failure) : (throw f : Emit Unit) = (stop f).play := by
  funext s
  exact (play_nil (some f) s).symm

theorem misplace_eq_play (how : Misplacement) (n : Node) :
    Emit.misplace how n = (stop (.misplaced how n.line)).play :=
  throw_eq_play _

theorem indent_eq_play (width depth : Nat) :
    Emit.indent width depth = (indent width depth).play := by
  rw [Emit.indent, indent]
  split
  · exact throw_eq_play _
  · exact put_eq_play _

/-- Parentheses around a step that plays a script. -/
theorem wrapped_eq_play (wrap : Bool) {step : Emit Unit} {script : Script}
    (h : step = script.play) : Emit.wrapped wrap step = (wrapped wrap script).play := by
  cases wrap with
  | true =>
    show (Emit.put "(" >>= fun _ ↦ step >>= fun _ ↦ Emit.put ")") =
      ((say "(").andThen (script.andThen (say ")"))).play
    rw [play_andThen, play_andThen, h, put_eq_play, put_eq_play]
  | false => exact h

end Script

end Code

namespace Node

open Code

/-! ### Scripts of trees -/

/-- The script of an expression. -/
def expressionScript : Node → Script
  | .binary _ op a b =>
    (Script.wrapped (a.wrapsLeft op) a.expressionScript).andThen <|
      (Script.say (" " ++ op.spelling ++ " ")).andThen <|
        Script.wrapped (b.wrapsRight op) b.expressionScript
  | .negate _ a =>
    (Script.say negationSpelling).andThen (Script.wrapped a.wrapsNegated a.expressionScript)
  | .var _ x => .say x
  | .number _ v => .say (Text.decimal v.toInt)
  | .quoted _ v => .say (literal v)
  | .truth _ v => .say (cond v "true" "false")
  | n => .stop (.misplaced .statementAsExpression n.line)

/-- A statement that ends in a block: how it starts, its condition and what its block writes. -/
def headed (width depth : Nat) (start : String) (condition body rest : Script) : Script :=
  (Script.indent width depth).andThen <| (Script.say start).andThen <| condition.andThen <|
    (Script.say ") \x7b\n").andThen <| body.andThen <| (Script.indent width depth).andThen rest

mutual
/-- The script of a statement inside `depth` blocks. -/
def statementScript (width depth : Nat) : Node → Script
  | .ifThen _ c t =>
    headed width depth "if (" c.expressionScript (t.bodyScript width depth) (.say "\x7d\n")
  | .ifElse _ c t e =>
    headed width depth "if (" c.expressionScript (t.bodyScript width depth) <|
      (Script.say "\x7d else \x7b\n").andThen <| (e.bodyScript width depth).andThen <|
        (Script.indent width depth).andThen (.say "\x7d\n")
  | .loop _ c b =>
    headed width depth "while (" c.expressionScript (b.bodyScript width depth) (.say "\x7d\n")
  | .print _ v =>
    (Script.indent width depth).andThen <| (Script.say "print(").andThen <|
      v.expressionScript.andThen (.say ");\n")
  | .assign _ x v =>
    (Script.indent width depth).andThen <| (Script.say (x ++ " = ")).andThen <|
      v.expressionScript.andThen (.say ";\n")
  | n@(.program _ _) => .stop (.misplaced .nestedProgram n.line)
  | n@(.block _ _) => .stop (.misplaced .blockAsStatement n.line)
  | n => .stop (.misplaced .expressionAsStatement n.line)
/-- The script of a block that belongs to a statement inside `depth` blocks. -/
def bodyScript (width depth : Nat) : Node → Script
  | .block _ ss => statementsScript width (depth + 1) ss
  | n => .stop (.misplaced .bodyNotABlock n.line)
/-- The script of a list of statements inside `depth` blocks. -/
def statementsScript (width depth : Nat) : List Node → Script
  | [] => .nothing
  | n :: ns => (n.statementScript width depth).andThen (statementsScript width depth ns)
end

/-- **Expressions.** Writing an expression is playing its script, for any tree and on any sink. -/
theorem emitExpression_eq_play (n : Node) : n.emitExpression = n.expressionScript.play := by
  match n with
  | .binary _ op a b =>
    rw [emitExpression, expressionScript, Script.play_andThen, Script.play_andThen,
      Script.wrapped_eq_play _ (emitExpression_eq_play a), Script.put_eq_play,
      Script.wrapped_eq_play _ (emitExpression_eq_play b)]
  | .negate _ a =>
    rw [emitExpression, expressionScript, Script.play_andThen, Script.put_eq_play,
      Script.wrapped_eq_play _ (emitExpression_eq_play a)]
  | .var _ _ | .number _ _ | .quoted _ _ | .truth _ _ =>
    rw [emitExpression, expressionScript, Script.put_eq_play]
  | .program _ _ | .block _ _ | .ifThen _ _ _ | .ifElse _ _ _ _ | .loop _ _ _ | .print _ _
  | .assign _ _ _ => exact Script.misplace_eq_play _ _

mutual
/-- **Statements.** By induction on the tree: every write of a statement is a piece of its script,
played where the pieces before it have left the sink. -/
theorem emitStatement_eq_play (width depth : Nat) (n : Node) :
    n.emitStatement width depth = (n.statementScript width depth).play := by
  match n with
  | .ifThen _ c t | .loop _ c t =>
    simp only [emitStatement, statementScript, headed, Script.play_andThen,
      emitExpression_eq_play c, emitBody_eq_play width depth t, Script.put_eq_play,
      Script.indent_eq_play]
  | .ifElse _ c t e =>
    simp only [emitStatement, statementScript, headed, Script.play_andThen,
      emitExpression_eq_play c, emitBody_eq_play width depth t, emitBody_eq_play width depth e,
      Script.put_eq_play, Script.indent_eq_play]
  | .print _ v | .assign _ _ v =>
    simp only [emitStatement, statementScript, Script.play_andThen, emitExpression_eq_play v,
      Script.put_eq_play, Script.indent_eq_play]
  | .program _ _ | .block _ _ | .binary _ _ _ _ | .negate _ _ | .var _ _ | .number _ _
  | .quoted _ _ | .truth _ _ => exact Script.misplace_eq_play _ _
theorem emitBody_eq_play (width depth : Nat) (n : Node) :
    n.emitBody width depth = (n.bodyScript width depth).play := by
  match n with
  | .block _ ss => rw [emitBody, bodyScript, emitStatements_eq_play width (depth + 1) ss]
  | .program _ _ | .ifThen _ _ _ | .ifElse _ _ _ _ | .loop _ _ _ | .print _ _ | .assign _ _ _
  | .binary _ _ _ _ | .negate _ _ | .var _ _ | .number _ _ | .quoted _ _ | .truth _ _ =>
    exact Script.misplace_eq_play _ _
theorem emitStatements_eq_play (width depth : Nat) (ns : List Node) :
    emitStatements width depth ns = (statementsScript width depth ns).play := by
  match ns with
  | [] => rw [emitStatements, statementsScript, Script.pure_eq_play]
  | n :: ns =>
    rw [emitStatements, statementsScript, Script.play_andThen, emitStatement_eq_play width depth n,
      emitStatements_eq_play width depth ns]
end

/-- The script of a whole tree: the statements of a program, or a single statement. -/
def script (width depth : Nat) : Node → Script
  | .program _ ss => statementsScript width depth ss
  | n => n.statementScript width depth

/-- **Trees.** A tree is written by its script, and then the sink is flushed. -/
theorem emit_eq_play (width depth : Nat) (n : Node) :
    n.emit width depth = (n.script width depth).play >>= fun _ ↦ Emit.sink Sink.flush := by
  have flushed {step step' : Emit Unit} (h : step = step') :
      (step >>= fun _ ↦ Emit.sink Sink.flush) = step' >>= fun _ ↦ Emit.sink Sink.flush := by
    rw [h]
  cases n with
  | program _ ss => exact flushed (emitStatements_eq_play width depth ss)
  | _ => exact flushed (emitStatement_eq_play width depth _)

/-- A sink that takes everything gets all of a tree's script, up to its failure if it has one. -/
theorem emit_of_unlimited (width depth : Nat) (n : Node) {s : Sink} (hlimit : s.limit = none)
    (hflush : s.refusesFlush = false) :
    n.emit width depth s =
      match (n.script width depth).failure with
      | none => .ok () { s with written := s.written ++ Text.encode (n.script width depth).text }
      | some f =>
        .error f { s with written := s.written ++ Text.encode (n.script width depth).text } := by
  have hplay := Script.play_of_unlimited (n.script width depth) hlimit
  rw [emit_eq_play]
  rcases hfailure : (n.script width depth).failure with - | f <;> rw [hfailure] at hplay
  · rw [Step.bind_of_ok hplay]
    simp [Emit.sink, Sink.flush, hflush]
  · rw [Step.bind_of_error hplay]

end Node

end KannadaScript
