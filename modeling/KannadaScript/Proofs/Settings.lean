import KannadaScript.Proofs.Composition

/-!
# Settings that never show

The declaration check asks a table one thing only, whether it has a name. So two tables with the
same names are as good as one another, whatever else they hold: at every event of a walk both have
the name or both lack it, and after it they have the same names again (`Node.check_matches`). The
tables that two compilations start from differ in the number of their buckets, and in how often and
in what order the predeclared names were put into them; none of this is a difference in names
(`Options.sameNames_table`).

The statement is about everything that a compilation leaves: its outcome, with the error and the
line of it, and the bytes in the sink, whatever the sink was. The indentation is the same on both
sides. It is the one option that does show.

Buckets do show in the dump of a table. A dump is asked for by a run of the command, and that has no
option for the buckets; compilations print nothing.

Main statement: `arrangement_never_shows`.
-/

namespace KannadaScript

/-! ### Checking -/

/-- Tables with the same names give the same verdict, down to the use that is blamed. -/
theorem Node.check_matches (n : Node) :
    Step.Matches (fun _ _ ↦ True) (· = ·) Table.SameNames n.check n.check := by
  rw [n.check_eq_walk]
  refine walk_matches (List.forall₂_same.2 fun e _ ↦ step_matches rfl ?_)
  rintro x l l' rfl hl
  rw [(Event.use.inj hl).2]

/-- From tables with the same names a check succeeds twice, or fails twice with the same error. -/
theorem Node.declarations_of_sameNames {t t' : Table} (h : t.SameNames t') (n : Node) :
    (∃ t₁ t₂, n.declarations t = .ok t₁ ∧ n.declarations t' = .ok t₂) ∨
      ∃ e, n.declarations t = .error e ∧ n.declarations t' = .error e := by
  have hrun := n.check_matches t t' h
  rw [declarations, declarations]
  generalize n.check t = result at hrun
  generalize n.check t' = result' at hrun
  cases hrun with
  | ok value state => exact .inl ⟨_, _, rfl, rfl⟩
  | error error state => exact .inr ⟨_, rfl, by rw [error]⟩

/-! ### Compilations -/

/-- What the tables of two compilations have in common decides on the names alone. -/
theorem Options.sameNames_table {options options' : Options}
    (h : ∀ x, x ∈ options.predeclared ↔ x ∈ options'.predeclared) :
    options.table.SameNames options'.table := by
  intro x
  rw [Bool.eq_iff_iff, contains_table, contains_table, h]

/-- Which texts are accepted depends on the predeclared names as a set. -/
theorem accepted_of_sameNames {options options' : Options}
    (h : ∀ x, x ∈ options.predeclared ↔ x ∈ options'.predeclared) (source : String) :
    accepted options source = accepted options' source := by
  rcases htokens : tokenize source with e | tokens
  · rw [accepted_of_lexical htokens, accepted_of_lexical htokens]
  rcases hp : Node.ofTokens tokens with e | p
  · rw [accepted_of_grammatical htokens hp, accepted_of_grammatical htokens hp]
  rcases Node.declarations_of_sameNames (Options.sameNames_table h) p with
    ⟨t, t', ht, ht'⟩ | ⟨e, he, he'⟩
  · rw [accepted_of_declarations htokens hp ht, accepted_of_declarations htokens hp ht']
  · rw [accepted_of_undeclared htokens hp he, accepted_of_undeclared htokens hp he']

/-- **Arrangement never shows.** Compilations with the same indentation, whose predeclared names
are the same as a set, give the same result and write the same bytes, whatever the number of
buckets, the order of the names and their repetitions. -/
theorem arrangement_never_shows (options options' : Options)
    (hindent : options.indent = options'.indent)
    (hnames : ∀ x, x ∈ options.predeclared ↔ x ∈ options'.predeclared) (source : String)
    (s : Sink) : compile options source s = compile options' source s := by
  have haccepted := accepted_of_sameNames hnames source
  rcases h : accepted options' source with e | p <;> rw [h] at haccepted
  · rw [compile_of_rejected h, compile_of_rejected haccepted]
  · rw [compile_of_accepted h, compile_of_accepted haccepted, written, written, hindent]

/-- No bucket and two names, seven buckets and the same names in another order and repeated, into
a sink that is soon full. -/
theorem arrangement_never_shows_repeated :
    let options : Options := { buckets := 0, predeclared := ["ಕ", "ಖ"] }
    let options' : Options := { buckets := 7, predeclared := ["ಖ", "ಕ", "ಖ", "ಖ"] }
    (options.indent = options'.indent ∧
      ∀ x, x ∈ options.predeclared ↔ x ∈ options'.predeclared) ∧
      compile options "ಮುದ್ರಿಸು ಕ + ಖ; ಮುದ್ರಿಸು ಗ;" { limit := some 5 } =
        compile options' "ಮುದ್ರಿಸು ಕ + ಖ; ಮುದ್ರಿಸು ಗ;" { limit := some 5 } := by
  intro options options'
  have hnames : ∀ x, x ∈ options.predeclared ↔ x ∈ options'.predeclared := by
    intro x
    simp only [options, options', List.mem_cons, List.not_mem_nil, or_false]
    tauto
  exact ⟨⟨rfl, hnames⟩, arrangement_never_shows options options' rfl hnames _ _⟩

end KannadaScript
