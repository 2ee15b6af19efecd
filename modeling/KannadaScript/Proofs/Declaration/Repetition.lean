import KannadaScript.Proofs.Declaration.TextualOrder

/-!
# Checking again

A second check of a tree starts from another table than the first: from the one that the first has
left, with all that was declared until the check was over. Two facts make it end as the first did. A
walk comes past an event without changing the table if the name of the event is declared there
(`walk_of_contains`), and whatever a walk came past is declared in the table that it leaves
(`contains_of_walk`). A walk that fails is no exception, since it is a walk that came past
everything before the use that it blames (`walk_eq_error_iff`), and that use finds its name missing
in the very table that is left.

Main statement: `Node.check_again`.
-/

namespace KannadaScript

/-! ### Events that change nothing -/

/-- The name that is read or assigned. -/
def Event.name : Event → String
  | .use x _ | .define x _ => x

/-- **One step.** An event whose name is declared is passed, and the table stays as it is. -/
theorem Event.step_of_contains {e : Event} {t : Table} (h : t.contains e.name = true) :
    e.step t = .ok () t := by
  match e with
  | .use x l => exact step_use_of_contains h l
  | .define x l =>
    have hx : t.contains x = true := h
    show EStateM.Result.ok () (if t.contains x then t else t.insert ⟨x, .var, l⟩) = .ok () t
    rw [if_pos hx]

/-- Only a use fails, and only where its name is missing. -/
theorem Event.step_eq_error_iff {a : Event} {t t' : Table} {e : Undeclared} :
    a.step t = .error e t' ↔
      a = .use e.name e.line ∧ t.contains e.name = false ∧ t' = t := by
  constructor
  · intro h
    match a with
    | .define x l => cases h
    | .use x l =>
      by_cases hx : t.contains x = true
      · rw [step_use_of_contains hx] at h
        cases h
      · have hmissing := Bool.eq_false_iff.2 hx
        rw [step_use_of_missing hmissing] at h
        cases h
        exact ⟨rfl, hmissing, rfl⟩
  · rintro ⟨rfl, hmissing, rfl⟩
    exact step_use_of_missing hmissing e.line

/-! ### Walks that change nothing -/

/-- **The whole walk.** Where the names of all events are declared, nothing happens. -/
theorem walk_of_contains {es : List Event} {t : Table} (h : ∀ e ∈ es, t.contains e.name = true) :
    walk es t = .ok () t := by
  induction es with
  | nil => rfl
  | cons e es ih =>
    rw [List.forall_mem_cons] at h
    rw [walk, Step.bind_of_ok (Event.step_of_contains h.1)]
    exact ih h.2

/-- A name stays declared when more is defined. -/
theorem Declared.mono {t : Table} {es es' : List Event} {x : String} (h : Declared t es x)
    (hes : es ⊆ es') : Declared t es' x :=
  h.imp_right fun ⟨l, hl⟩ ↦ ⟨l, hes hl⟩

/-- A walk that succeeds has made the table grow by its events. -/
theorem grown_of_walk {es : List Event} {t t' : Table} (h : walk es t = .ok () t') :
    Grown t es t' := by
  rcases walk_cases es t with ⟨-, t'', hrun, hgrown⟩ | ⟨-, e, t'', -, hrun, -⟩
  · rw [h] at hrun
    cases hrun
    exact hgrown
  · rw [h] at hrun
    cases hrun

/-- Whatever a walk came past is declared in the table that it leaves: an assigned name by then at
the latest, and a name that is read even before. -/
theorem contains_of_walk {es : List Event} {t t' : Table} (h : walk es t = .ok () t') :
    ∀ e ∈ es, t'.contains e.name = true := by
  have hres : Resolved t es := (exists_walk_eq_ok_iff es t).1 ⟨t', h⟩
  intro e he
  rw [(grown_of_walk h).contains_iff]
  match e with
  | .define x l => exact .inr ⟨l, he⟩
  | .use x l =>
    obtain ⟨before, after, rfl⟩ := List.append_of_mem he
    exact (hres before x l after rfl).mono (List.subset_append_left _ _)

/-- A walk fails at a use, after it came past all that is before. -/
theorem walk_eq_error_iff {es : List Event} {t t' : Table} {e : Undeclared} :
    walk es t = .error e t' ↔ ∃ before after, es = before ++ .use e.name e.line :: after ∧
      walk before t = .ok () t' ∧ t'.contains e.name = false := by
  constructor
  · intro h
    induction es generalizing t with
    | nil => cases h
    | cons a es ih =>
      rcases Step.bind_eq_error_iff.1 h with hfail | ⟨_, t₁, hpass, hrest⟩
      · obtain ⟨rfl, hmissing, rfl⟩ := Event.step_eq_error_iff.1 hfail
        exact ⟨[], es, rfl, rfl, hmissing⟩
      · obtain ⟨before, after, rfl, hbefore, hmissing⟩ := ih hrest
        refine ⟨a :: before, after, rfl, ?_, hmissing⟩
        rw [walk, Step.bind_of_ok hpass, hbefore]
  · rintro ⟨before, after, rfl, hbefore, hmissing⟩
    rw [walk_append, Step.bind_of_ok hbefore, walk]
    exact Step.bind_of_error (step_use_of_missing hmissing e.line)

/-- A walk that is made a second time ends as the first and leaves what the first has left. -/
theorem walk_again (es : List Event) (t : Table) :
    walk es (Step.final (walk es t)) = walk es t := by
  rcases hfirst : walk es t with ⟨_, t'⟩ | ⟨e, t'⟩
  · exact walk_of_contains (contains_of_walk hfirst)
  · obtain ⟨before, after, hes, hbefore, hmissing⟩ := walk_eq_error_iff.1 hfirst
    have hagain : walk before t' = .ok () t' := walk_of_contains (contains_of_walk hbefore)
    exact walk_eq_error_iff.2 ⟨before, after, hes, hagain, hmissing⟩

/-- **Checking again changes nothing.** Whatever the tree and the table it is checked against: the
check ends the second time as it did the first, with the same value or the same name and line, and
leaves exactly the table that the first has left. This also holds after a failure, which keeps the
names assigned before the use that is blamed. -/
theorem Node.check_again (n : Node) (t : Table) :
    n.check (Step.final (n.check t)) = n.check t ∧
      ∀ e t', n.check t = .error e t' → ∃ before after,
        n.events = before ++ .use e.name e.line :: after ∧
          ∀ x l, .define x l ∈ before → t'.contains x = true := by
  rw [n.check_eq_walk]
  refine ⟨walk_again n.events t, fun e t' h ↦ ?_⟩
  obtain ⟨before, after, hevents, hbefore, -⟩ := walk_eq_error_iff.1 h
  exact ⟨before, after, hevents, fun x l hx ↦ contains_of_walk hbefore _ hx⟩

end KannadaScript
