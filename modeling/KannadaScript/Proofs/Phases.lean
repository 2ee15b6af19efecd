import KannadaScript.Compilation
import KannadaScript.Proofs.Code.Script

/-!
# The phases of a compilation

A compilation is decided phase by phase: by the tokens of the text, the program they spell, and the
declarations that the program leaves. Each theorem here says what becomes of a compilation from what
becomes of its phases, so that proofs about compilations speak of `tokenize`, `Node.ofTokens` and
`Node.declarations`, and of the script of the program that is written.

The phases before writing are a sequence of steps that may fail, and the first failure is the
outcome of all of them. There is one lemma for each place at which the sequence can end: after
scanning, after reading, after the check, or at its end. They come in two forms. The first is about
the phases as a compilation has them, with one kind of error for all (`accepted_of_scanned_error`
and so on); the second is about the phases alone, each with an error of its own
(`accepted_of_lexical` and so on). A proof by cases over the phases has these four cases and never
opens the sequence.

After that there are two ways. A program is written, or there is an error and the sink is left as it
is; so an error of the source text never costs a byte of what was there.

Main statements: `accepted_eq_ok_iff` and `compile_eq_ok_iff`, what it takes to come through.
-/

namespace KannadaScript

open Code

variable {options : Options} {source : String} {tokens : List Token} {p : Node}

/-! ### The phases before writing -/

/-- The first phase that fails decides, and its error is that of the whole. -/
theorem accepted_of_scanned_error {e : CompileError} (h : scanned source = .error e) :
    accepted options source = .error e := by
  rw [accepted, h, Step.except_error_bind]

/-- A text that is scanned and not read fails with the error of reading. -/
theorem accepted_of_parsed_error {e : CompileError} (h : scanned source = .ok tokens)
    (hp : parsed tokens = .error e) : accepted options source = .error e := by
  rw [accepted, h, Step.except_ok_bind, hp, Step.except_error_bind]

/-- A text that is read and not checked fails with the error of the check. -/
theorem accepted_of_checked_error {e : CompileError} (h : scanned source = .ok tokens)
    (hp : parsed tokens = .ok p) (ht : checked options p = .error e) :
    accepted options source = .error e := by
  rw [accepted, h, Step.except_ok_bind, hp, Step.except_ok_bind, ht, Step.except_error_bind]

/-- If no phase fails, the program that was read is the one that is accepted. -/
theorem accepted_of_checked {t : Table} (h : scanned source = .ok tokens)
    (hp : parsed tokens = .ok p) (ht : checked options p = .ok t) :
    accepted options source = .ok p := by
  rw [accepted, h, Step.except_ok_bind, hp, Step.except_ok_bind, ht]
  rfl

theorem accepted_of_lexical {e : LexicalError} (h : tokenize source = .error e) :
    accepted options source = .error (.lexical e) :=
  accepted_of_scanned_error (by rw [scanned, h]; rfl)

theorem scanned_of_tokenize (h : tokenize source = .ok tokens) : scanned source = .ok tokens := by
  rw [scanned, h]
  rfl

theorem parsed_of_ofTokens (hp : Node.ofTokens tokens = .ok p) : parsed tokens = .ok p := by
  rw [parsed, hp]
  rfl

section Scanned

variable (h : tokenize source = .ok tokens)

include h

/-- A text whose tokens are no program fails with a syntax error. -/
theorem accepted_of_grammatical {e : SyntaxError} (hp : Node.ofTokens tokens = .error e) :
    accepted options source = .error (.grammatical e) :=
  accepted_of_parsed_error (scanned_of_tokenize h) (by rw [parsed, hp]; rfl)

/-- A text whose program uses an undeclared name fails with that name. -/
theorem accepted_of_undeclared {e : Undeclared} (hp : Node.ofTokens tokens = .ok p)
    (ht : p.declarations options.table = .error e) :
    accepted options source = .error (.undeclared e) :=
  accepted_of_checked_error (scanned_of_tokenize h) (parsed_of_ofTokens hp)
    (by rw [checked, ht]; rfl)

/-- A text whose program passes the check is accepted as that program. -/
theorem accepted_of_declarations {t : Table} (hp : Node.ofTokens tokens = .ok p)
    (ht : p.declarations options.table = .ok t) : accepted options source = .ok p :=
  accepted_of_checked (t := t) (scanned_of_tokenize h) (parsed_of_ofTokens hp)
    (by rw [checked, ht]; rfl)

end Scanned

/-- A program is accepted when every phase before writing succeeds. -/
theorem accepted_eq_ok_iff : accepted options source = .ok p ↔
    ∃ tokens t, tokenize source = .ok tokens ∧ Node.ofTokens tokens = .ok p ∧
      p.declarations options.table = .ok t := by
  constructor
  · intro h
    rcases htokens : tokenize source with e | tokens
    · rw [accepted_of_lexical htokens] at h
      cases h
    rcases hp : Node.ofTokens tokens with e | q
    · rw [accepted_of_grammatical htokens hp] at h
      cases h
    rcases ht : q.declarations options.table with e | t
    · rw [accepted_of_undeclared htokens hp ht] at h
      cases h
    · rw [accepted_of_declarations htokens hp ht] at h
      cases h
      exact ⟨tokens, t, rfl, hp, ht⟩
  · rintro ⟨tokens, t, htokens, hp, ht⟩
    exact accepted_of_declarations htokens hp ht

/-! ### Writing -/

/-- A compilation that comes through the phases before writing writes its program. -/
theorem compile_of_accepted (h : accepted options source = .ok p) :
    compile options source = written options p := by
  rw [compile, h]

/-- A compilation that does not come through them leaves the sink alone. -/
theorem compile_of_rejected {e : CompileError} (h : accepted options source = .error e) (s : Sink) :
    compile options source s = .error e s := by
  rw [compile, h]
  rfl

/-- A compilation into an empty sink comes through when its program is accepted and its script
does not fail, and then the sink holds the text of the script. -/
theorem compile_eq_ok_iff {s : Sink} : compile options source {} = .ok () s ↔
    ∃ p, accepted options source = .ok p ∧ (p.script options.indent 0).failure = none ∧
      s = { written := (Text.encode (p.script options.indent 0).text).toArray } := by
  have hwritten (p : Node) : written options p {} = .ok () s ↔
      (p.script options.indent 0).failure = none ∧
        s = { written := (Text.encode (p.script options.indent 0).text).toArray } := by
    rw [written, p.emit_of_unlimited options.indent 0 rfl rfl]
    rcases (p.script options.indent 0).failure with - | f
    · simp [eq_comm]
    · simp
  constructor
  · intro h
    rcases haccepted : accepted options source with e | p
    · rw [compile_of_rejected haccepted] at h
      cases h
    · rw [compile_of_accepted haccepted, hwritten] at h
      exact ⟨p, rfl, h⟩
  · rintro ⟨p, haccepted, h⟩
    rw [compile_of_accepted haccepted]
    exact (hwritten p).2 h

end KannadaScript
