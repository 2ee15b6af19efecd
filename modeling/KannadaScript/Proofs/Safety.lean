import KannadaScript.Proofs.Code.Overrun
import KannadaScript.Proofs.Phases
import KannadaScript.Proofs.Tree.Acceptance

/-!
# Compilation is safe

A tree that was read from a source text has every node in its place, and its blocks are nested at
most `maxNesting` deep. So the two failures of writing that are about the tree, a misplaced node and
a line that is too wide, cannot happen after reading, as long as the indentation leaves room for
`maxNesting` levels.

Both facts about trees come from the grammar and not from the reader. What is read is derived, and a
derived tree has only statements among statements and only expressions in expressions
(`isProgram_of_ofTokens`); its blocks are brackets of the tokens, of which no more than `maxNesting`
are ever open (`blockDepth_of_ofTokens`). The check changes no tree, so nothing is lost on the way
to writing.

The widest indentation for which this is enough is a number, `maxIndent`: the deepest line that can
be read needs `maxNesting` times as much room, and `maxPadding` is the room there is. A wider
indentation is safe for programs that are not so deep, and then it takes a look at the program
(`Node.programLevels`).

Main statement: `compile_succeeds_or_blames_source`. Into a sink that takes everything, a
compilation either succeeds or fails for a reason that lies in the source text.
-/

namespace KannadaScript

open Grammar Code

/-- The widest indentation per level that leaves room for `maxNesting` levels. -/
def maxIndent : Nat := 1023

theorem maxNesting_mul_maxIndent_le : maxNesting * maxIndent ≤ maxPadding := by decide

/-! ### Trees that were read -/

/-- What is read has every node in its place. -/
theorem isProgram_of_ofTokens {tokens : List Token} {p : Node}
    (h : Node.ofTokens tokens = .ok p) : p.isProgram = true := by
  obtain ⟨hp, -⟩ := (ofTokens_eq_ok_iff tokens p).1 h
  obtain ⟨-, hs⟩ := hp
  exact hs.areStatements

/-- What is read has at most `maxNesting` blocks inside one another. -/
theorem blockDepth_of_ofTokens {tokens : List Token} {p : Node}
    (h : Node.ofTokens tokens = .ok p) : p.blockDepth ≤ maxNesting := by
  obtain ⟨hp, hpeak, -⟩ := (ofTokens_eq_ok_iff tokens p).1 h
  obtain ⟨-, hs⟩ := hp
  exact hs.blockDepthAll_le.trans hpeak

/-! ### Compilations -/

/-- An error of the phases before writing. -/
def CompileError.isOfSource : CompileError → Bool
  | .lexical _ | .grammatical _ | .undeclared _ => true
  | .unwritten _ => false

/-- The phases before writing give a tree that was read, or an error of the source text. -/
theorem accepted_cases (options : Options) (source : String) :
    (∃ tokens p, Node.ofTokens tokens = .ok p ∧ accepted options source = .ok p) ∨
      ∃ e, e.isOfSource = true ∧ accepted options source = .error e := by
  rcases htokens : tokenize source with e | tokens
  · exact .inr ⟨.lexical e, rfl, accepted_of_lexical htokens⟩
  rcases hp : Node.ofTokens tokens with e | p
  · exact .inr ⟨.grammatical e, rfl, accepted_of_grammatical htokens hp⟩
  rcases ht : p.declarations options.table with e | table
  · exact .inr ⟨.undeclared e, rfl, accepted_of_undeclared htokens hp ht⟩
  · exact .inl ⟨tokens, p, hp, accepted_of_declarations htokens hp ht⟩

/-- A compilation into a sink that takes everything writes the whole code of an accepted program,
and leaves the sink alone otherwise. -/
theorem compile_of_accepting {options : Options} {s : Sink} (hindent : options.indent ≤ maxIndent)
    (hlimit : s.limit = none) (hflush : s.refusesFlush = false) (source : String) :
    (∃ p : Node, compile options source s = .ok () (p.sinkAfter options.indent s)) ∨
      ∃ e, e.isOfSource = true ∧ compile options source s = .error e s := by
  rcases accepted_cases options source with ⟨tokens, p, hp, haccepted⟩ | ⟨e, he, haccepted⟩
  · -- the deepest line of code stands inside all the blocks that were read
    have hfit : p.blockDepth * options.indent ≤ maxPadding :=
      (Nat.mul_le_mul (blockDepth_of_ofTokens hp) hindent).trans maxNesting_mul_maxIndent_le
    have hemit := Node.emit_of_isProgram (isProgram_of_ofTokens hp) hlimit hflush hfit
    refine .inl ⟨p, ?_⟩
    rw [compile_of_accepted haccepted, written, hemit]
  · exact .inr ⟨e, he, compile_of_rejected haccepted s⟩

/-- **No inner failure.** Whatever the source text, the buckets and the predeclared names, a
compilation with an indentation of at most 1023 blanks per level, into a sink that takes every
write, succeeds or ends in a lexical, a syntax or a semantic error. -/
theorem compile_succeeds_or_blames_source (options : Options) (source : String) (s : Sink)
    (hindent : options.indent ≤ 1023) (hlimit : s.limit = none) (hflush : s.refusesFlush = false) :
    (∃ s', compile options source s = .ok () s') ∨
      (∃ e s', compile options source s = .error (.lexical e) s') ∨
      (∃ e s', compile options source s = .error (.grammatical e) s') ∨
      ∃ e s', compile options source s = .error (.undeclared e) s' := by
  rcases compile_of_accepting hindent hlimit hflush source with ⟨p, h⟩ | ⟨e, he, h⟩
  · exact .inl ⟨_, h⟩
  · cases e with
    | lexical e => exact .inr (.inl ⟨e, s, h⟩)
    | grammatical e => exact .inr (.inr (.inl ⟨e, s, h⟩))
    | undeclared e => exact .inr (.inr (.inr ⟨e, s, h⟩))
    | unwritten failure => cases he

/-- The widest indentation, no bucket at all, and a source text whose block is never closed. -/
theorem compile_succeeds_or_blames_source_unclosed :
    let options : Options := { buckets := 0, indent := 1023, predeclared := ["ಕ", "ಕ"] }
    let source := "ಯದಿ ಕ == ೧ \x7b ಮುದ್ರಿಸು ಕ;"
    (1023 ≤ 1023 ∧ ({} : Sink).limit = none ∧ ({} : Sink).refusesFlush = false) ∧
      ((∃ s', compile options source {} = .ok () s') ∨
      (∃ e s', compile options source {} = .error (.lexical e) s') ∨
      (∃ e s', compile options source {} = .error (.grammatical e) s') ∨
      ∃ e s', compile options source {} = .error (.undeclared e) s') :=
  ⟨⟨le_rfl, rfl, rfl⟩, compile_succeeds_or_blames_source _ _ {} le_rfl rfl rfl⟩

end KannadaScript
