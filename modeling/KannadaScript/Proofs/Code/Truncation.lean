import KannadaScript.Code.Generator
import KannadaScript.Proofs.Phases

/-!
# What a full sink keeps

A sink of limited room cuts what is written to it and changes nothing else. Compared with a sink
that takes everything, there are three ways in which a piece of writing can go (`Truncates`): all of
it fits, and it ends as it would have; it does not fit, and the sink holds what did and is to blame,
whatever else would have gone wrong later; or all of it fits and only the flush is refused.

The comparison is with the same writing into a sink without a limit, so nothing is said about what
is written; that is the subject of other modules. What is said holds for every limit, for a sink
that already holds something, and for trees that cannot be written to their end: a misplaced node
behind the point at which the sink is full is never reached, and in front of it the sink has no part
in what happens.

Writing a tree is playing its script (`Node.emit_eq_play`), so the cut is made once, in the text of
the script, and not in each of the writes that make it up. A compilation that is rejected writes
nothing, and what is not written cannot be cut (`truncates_compile_of_rejected`).

Main statement: `writing_is_cut_by_sink`.
-/

namespace KannadaScript

open Code

/-! ### Pieces of writing -/

/-- How a piece of writing ended, and the bytes in the sink then. -/
structure Writing (ε : Type) where
  outcome : Except ε Unit
  bytes : List UInt8

namespace Writing

/-- What a step of writing comes to. -/
def ofResult {ε : Type} : EStateM.Result ε Sink Unit → Writing ε
  | .ok _ s => ⟨.ok (), s.written.toList⟩
  | .error e s => ⟨.error e, s.written.toList⟩

/-- The same bytes with the error in other terms. -/
def mapError {ε ε' : Type} (g : ε → ε') (w : Writing ε) : Writing ε' :=
  ⟨w.outcome.mapError g, w.bytes⟩

end Writing

/-- What a new generator makes of a tree, into the given sink. -/
def Code.Generator.writing (width : Nat) (n : Node) (s : Sink) : Writing Failure :=
  match Generator.generate n { width, sink := s } with
  | .ok _ g => ⟨.ok (), g.sink.written.toList⟩
  | .error f g => ⟨.error f, g.sink.written.toList⟩

/-- What a compilation comes to, into the given sink. -/
def compileWriting (options : Options) (source : String) (s : Sink) : Writing CompileError :=
  .ofResult (compile options source s)

/-- What becomes of a piece of writing in a sink that keeps its first `limit` bytes, measured by
what becomes of it in a sink that never fails. `refusal` is the error that a fault of the sink
shows as. -/
structure Truncates {ε : Type} (refusal : StorageFault → ε) (write : Sink → Writing ε) : Prop where
  /-- What fits is written as it would have been, and ends in the same way. -/
  fits : ∀ limit, (write {}).bytes.length ≤ limit → write { limit := some limit } = write {}
  /-- Of what does not fit, the sink gets as much as it keeps, and the error is its own. -/
  overflows : ∀ limit refusesFlush, limit < (write {}).bytes.length →
    write { limit := some limit, refusesFlush } =
      ⟨.error (refusal .full), (write {}).bytes.take limit⟩
  /-- If only the flush is refused, everything has been written. -/
  flush : ∀ limit, (write {}).outcome = .ok () → (write {}).bytes.length ≤ limit →
    write { limit := some limit, refusesFlush := true } =
      ⟨.error (refusal .flushRefused), (write {}).bytes⟩

/-- To give errors another name changes nothing in how writing is cut. -/
theorem Truncates.mapError {ε ε' : Type} {refusal : StorageFault → ε} {write : Sink → Writing ε}
    (h : Truncates refusal write) (g : ε → ε') :
    Truncates (fun fault ↦ g (refusal fault)) fun s ↦ (write s).mapError g where
  fits limit hfits := congrArg (Writing.mapError g) (h.fits limit hfits)
  overflows limit refusesFlush hlimit :=
    congrArg (Writing.mapError g) (h.overflows limit refusesFlush hlimit)
  flush limit hok hfits := by
    refine congrArg (Writing.mapError g) (h.flush limit ?_ hfits)
    rcases hout : (write {}).outcome with e | u
    · rw [Writing.mapError, hout] at hok
      cases hok
    · rfl

/-! ### Trees -/

/-- How the writing of a script ends in a sink that takes all of it. -/
def Code.Script.ending (a : Script) (refusesFlush : Bool) : Except Failure Unit :=
  match a.failure with
  | some f => .error f
  | none => if refusesFlush then .error (.storage .flushRefused) else .ok ()

section Emit

variable {width depth : Nat} {n : Node} {s : Sink}

/-- A tree whose script fits is written and ends as its script does. -/
theorem emit_of_fits (h : s.room (Text.encode (n.script width depth).text).length =
      (Text.encode (n.script width depth).text).length) :
    Writing.ofResult (n.emit width depth s) = ⟨(n.script width depth).ending s.refusesFlush,
      s.written.toList ++ Text.encode (n.script width depth).text⟩ := by
  rw [Node.emit_eq_play]
  generalize n.script width depth = a at h ⊢
  rcases a with ⟨text, - | f⟩
  · rw [Step.bind_of_ok (Script.play_of_fits h none), Emit.sink, Sink.flush, Script.ending]
    cases s.refusesFlush <;> simp [Writing.ofResult]
  · rw [Step.bind_of_error (Script.play_of_fits h (some f))]
    simp [Writing.ofResult, Script.ending]

/-- A tree whose script does not fit is cut, and the sink is to blame. -/
theorem emit_of_not_fits (h : s.room (Text.encode (n.script width depth).text).length ≠
      (Text.encode (n.script width depth).text).length) :
    Writing.ofResult (n.emit width depth s) = ⟨.error (.storage .full), s.written.toList ++
      (Text.encode (n.script width depth).text).take
        (s.room (Text.encode (n.script width depth).text).length)⟩ := by
  rw [Node.emit_eq_play]
  generalize n.script width depth = a at h ⊢
  rcases a with ⟨text, failure⟩
  rw [Step.bind_of_error (Script.play_of_not_fits h failure)]
  simp [Writing.ofResult]

end Emit

/-- **Trees.** The writing of any tree is cut by the sink, and by nothing else. -/
theorem truncates_emit (width depth : Nat) (n : Node) :
    Truncates .storage fun s ↦ .ofResult (n.emit width depth s) := by
  have hfull : Writing.ofResult (n.emit width depth {}) = ⟨(n.script width depth).ending false,
      Text.encode (n.script width depth).text⟩ := emit_of_fits rfl
  -- an empty sink has just the room that its limit says
  have hroom (limit m : Nat) (refusesFlush : Bool) :
      ({ limit := some limit, refusesFlush } : Sink).room m = min m limit := rfl
  refine ⟨fun limit hfits ↦ ?_, fun limit refusesFlush hlimit ↦ ?_, fun limit hok hfits ↦ ?_⟩
  all_goals simp only [hfull] at *
  · exact emit_of_fits ((hroom _ _ _).trans (min_eq_left hfits))
  · rw [emit_of_not_fits (by rw [hroom]; omega), hroom, min_eq_right hlimit.le]
    rfl
  · rw [emit_of_fits ((hroom _ _ _).trans (min_eq_left hfits))]
    rcases hfailure : (n.script width depth).failure with - | f
    · simp [Script.ending, hfailure]
    · rw [Script.ending, hfailure] at hok
      cases hok

/-- A new generator writes what its tree emits. -/
theorem generator_writing_eq (width : Nat) (n : Node) (s : Sink) :
    Generator.writing width n s = .ofResult (n.emit width 0 s) := by
  rw [Generator.writing, Generator.generate]
  rcases n.emit width 0 s with ⟨u, s'⟩ | ⟨f, s'⟩ <;> rfl

/-! ### Compilations -/

/-- A compilation that comes to its end writes its program. -/
theorem compileWriting_of_accepted {options : Options} {source : String} {p : Node}
    (h : accepted options source = .ok p) (s : Sink) :
    compileWriting options source s =
      (Writing.ofResult (p.emit options.indent 0 s)).mapError .unwritten := by
  rw [compileWriting, compile_of_accepted h, written]
  rcases p.emit options.indent 0 s with ⟨u, s'⟩ | ⟨f, s'⟩ <;> rfl

/-- A compilation that is over before anything is written never notices its sink. -/
theorem truncates_compile_of_rejected {options : Options} {source : String} {e : CompileError}
    (h : accepted options source = .error e) :
    Truncates (fun fault ↦ .unwritten (.storage fault)) (compileWriting options source) := by
  have hout (s : Sink) : compileWriting options source s = ⟨.error e, s.written.toList⟩ := by
    rw [compileWriting, compile_of_rejected h]
    rfl
  refine ⟨fun limit _ ↦ ?_, fun limit refusesFlush hlimit ↦ ?_, fun limit hok _ ↦ ?_⟩
  · rw [hout, hout]
  · rw [hout] at hlimit
    exact absurd hlimit (Nat.not_lt_zero _)
  · rw [hout] at hok
    cases hok

/-- **Compilations.** Whatever the source text, its writing is cut by the sink, and by nothing
else. -/
theorem truncates_compile (options : Options) (source : String) :
    Truncates (fun fault ↦ .unwritten (.storage fault)) (compileWriting options source) := by
  rcases haccepted : accepted options source with e | p
  · exact truncates_compile_of_rejected haccepted
  · have hwrite : compileWriting options source =
        fun s ↦ (Writing.ofResult (p.emit options.indent 0 s)).mapError .unwritten :=
      funext (compileWriting_of_accepted haccepted)
    rw [hwrite]
    exact (truncates_emit options.indent 0 p).mapError CompileError.unwritten

/-- **A sink only cuts.** For every tree and indentation, and for every source text and options: a
sink that keeps its first `limit` bytes gets what a sink that never fails gets, with the same
outcome, if that is at most `limit` bytes; otherwise it gets exactly the first `limit` of them and
the outcome is its refusal. A flush that fails after a success is reported with everything
written. -/
theorem writing_is_cut_by_sink (width : Nat) (n : Node) (options : Options) (source : String) :
    Truncates .storage (Generator.writing width n) ∧
      Truncates (fun fault ↦ .unwritten (.storage fault)) (compileWriting options source) := by
  refine ⟨?_, truncates_compile options source⟩
  rw [show Generator.writing width n = _ from funext (generator_writing_eq width n)]
  exact truncates_emit width 0 n

end KannadaScript
