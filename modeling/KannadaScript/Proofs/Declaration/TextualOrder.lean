import KannadaScript.Declaration.Check
import KannadaScript.Proofs.Declaration.Stacks
import KannadaScript.Proofs.Steps

/-!
# The check follows the text

A tree is reduced to what the check looks at: the uses and the definitions of names, in the order of
the text (`Node.events`). The check is one walk over this list (`Node.check_eq_walk`), so it sees no
blocks and no branches, and what it does is decided by the list and the table it starts from. The
definition of an assignment comes after the uses in its value: a variable is not declared where its
first value is computed.

Said without a walk: a use is in order when its name is in the table or is defined before it
(`Resolved`), and a table has grown by some events when it has one new declaration for each name
that they define and it did not have (`Grown`). Both are properties of lists of events and have no
state. What ties them to the walk is `walk_cases`, by induction along the list: a walk over some
events either comes to their end, with all uses in order, or stops at the first that is not, and the
table has grown by what lies behind it.

A failed check leaves a table too. It has the declarations of everything before the use that is
blamed, and of nothing after it; this is part of the statement, since whoever checks again starts
from there.

Main statement: `Node.check_follows_text`. The check succeeds exactly when every use is in order and
otherwise blames the first that is not; in both cases the table has grown by the events that were
walked.
-/

namespace KannadaScript

/-! ### Events -/

/-- What the check meets on its walk. -/
inductive Event where
  /-- A variable is read. -/
  | use (name : String) (line : Nat)
  /-- A name is assigned. -/
  | define (name : String) (line : Nat)
deriving DecidableEq, Repr

namespace Node

mutual
/-- The uses and definitions of a tree in the order of its text, that of an assignment after
those of its value. -/
def events : Node → List Event
  | .program _ ss | .block _ ss => eventsAll ss
  | .ifThen _ a b | .loop _ a b | .binary _ _ a b => a.events ++ b.events
  | .ifElse _ c t e => c.events ++ (t.events ++ e.events)
  | .print _ v | .negate _ v => v.events
  | .assign l x v => v.events ++ [.define x l]
  | .var l x => [.use x l]
  | .number _ _ | .quoted _ _ | .truth _ _ => []
/-- The uses and definitions of a list of trees. -/
def eventsAll : List Node → List Event
  | [] => []
  | n :: ns => n.events ++ eventsAll ns
end

end Node

/-! ### The order of the text -/

/-- The line of the first definition of a name. -/
def definedOn? (x : String) : List Event → Option Nat
  | [] => none
  | .define y l :: rest => if y = x then some l else definedOn? x rest
  | .use _ _ :: rest => definedOn? x rest

/-- The name is in the table, or among the events is a definition of it. -/
def Declared (t : Table) (events : List Event) (x : String) : Prop :=
  t.contains x = true ∨ ∃ l, .define x l ∈ events

/-- Every use has its name declared before it. -/
def Resolved (t : Table) (events : List Event) : Prop :=
  ∀ before x l after, events = before ++ .use x l :: after → Declared t before x

/-- The first use among `events` whose name is not declared before it, and what precedes it. -/
structure FirstUnresolved (t : Table) (events before : List Event) (e : Undeclared) : Prop where
  split : ∃ after, events = before ++ .use e.name e.line :: after
  first : Resolved t before
  undeclared : ¬ Declared t before e.name

/-- `t'` is `t` with one variable for each name that `t` does not have and the events define. -/
structure Grown (t : Table) (events : List Event) (t' : Table) : Prop where
  bucketCount : t'.bucketCount = t.bucketCount
  /-- A name of `t` keeps its declarations. A new one has one, with the line of its first
  definition. -/
  stack : ∀ x, t'.stack x =
    if t.contains x then t.stack x
    else ((definedOn? x events).map fun l ↦ ⟨x, .var, l⟩).toList
  /-- Beside the declarations of `t` there are those of the new names, and nothing else. -/
  declarations : ∃ added, t'.declarations.Perm (added ++ t.declarations) ∧ added.Nodup ∧
    ∀ d, d ∈ added ↔
      t.contains d.name = false ∧ d.kind = .var ∧ definedOn? d.name events = some d.line

/-! ### Definitions -/

/-- The first definition of a name in two lists is that in the first list, if there is one. -/
theorem definedOn?_append (x : String) (es es' : List Event) :
    definedOn? x (es ++ es') = (definedOn? x es).or (definedOn? x es') := by
  induction es with
  | nil => rfl
  | cons e es ih =>
    match e with
    | .use _ _ => exact ih
    | .define y l =>
      rw [List.cons_append, definedOn?, definedOn?]
      split
      · rfl
      · exact ih

/-- A first definition is found exactly when there is a definition. -/
theorem exists_definedOn?_iff {x : String} {es : List Event} :
    (∃ l, definedOn? x es = some l) ↔ ∃ l, .define x l ∈ es := by
  induction es with
  | nil => simp [definedOn?]
  | cons e es ih =>
    match e with
    | .use _ _ => simpa [definedOn?] using ih
    | .define y l =>
      rw [definedOn?]
      by_cases h : y = x
      · subst h
        rw [if_pos rfl]
        exact ⟨fun _ ↦ ⟨l, List.mem_cons_self⟩, fun _ ↦ ⟨l, rfl⟩⟩
      · rw [if_neg h, ih]
        simp [Ne.symm h]

theorem definedOn?_eq_none_iff {x : String} {es : List Event} :
    definedOn? x es = none ↔ ¬ ∃ l, .define x l ∈ es := by
  rw [← exists_definedOn?_iff, Option.eq_none_iff_forall_ne_some, not_exists]

theorem resolved_nil (t : Table) : Resolved t [] := by
  intro before x l after h
  simp at h

/-- An event of one list and then another stands in the first, or in the second behind all of the
first. -/
theorem split_append_cases {es es' before after : List Event} {e : Event}
    (h : es ++ es' = before ++ e :: after) :
    (∃ rest, es = before ++ e :: rest) ∨
      ∃ before', before = es ++ before' ∧ es' = before' ++ e :: after := by
  rcases List.append_eq_append_iff.1 h with ⟨before', hbefore, hes'⟩ | ⟨rest, hes, hrest⟩
  · exact .inr ⟨before', hbefore, hes'⟩
  · rcases rest with - | ⟨e', rest⟩
    · exact .inr ⟨[], by rw [hes, List.append_nil, List.append_nil], hrest.symm⟩
    · obtain ⟨rfl, -⟩ := List.cons.inj hrest
      exact .inl ⟨rest, hes⟩

/-- What comes first is resolved on its own, and what comes after it may rest on it. -/
theorem resolved_append_iff {t : Table} {es es' : List Event} :
    Resolved t (es ++ es') ↔ Resolved t es ∧
      ∀ before x l after, es' = before ++ .use x l :: after → Declared t (es ++ before) x := by
  constructor
  · intro h
    refine ⟨fun before x l after heq ↦ h before x l (after ++ es') (by simp [heq]), ?_⟩
    intro before x l after heq
    exact h (es ++ before) x l after (by rw [heq, List.append_assoc])
  · rintro ⟨h, h'⟩ before x l after heq
    rcases split_append_cases heq with ⟨rest, hes⟩ | ⟨before', rfl, hes'⟩
    · exact h before x l rest hes
    · exact h' before' x l after hes'

/-- One more definition asks for nothing. -/
theorem Resolved.snoc_define {t : Table} {es : List Event} (h : Resolved t es) (x : String)
    (l : Nat) : Resolved t (es ++ [.define x l]) := by
  refine resolved_append_iff.2 ⟨h, fun before y m after heq ↦ ?_⟩
  rcases before with - | ⟨e, before⟩ <;> simp at heq

/-- One more use asks for its own name. -/
theorem Resolved.snoc_use {t : Table} {es : List Event} {x : String} (h : Resolved t es)
    (hx : Declared t es x) (l : Nat) : Resolved t (es ++ [.use x l]) := by
  refine resolved_append_iff.2 ⟨h, fun before y m after heq ↦ ?_⟩
  rcases before with - | ⟨e, before⟩
  · obtain ⟨hname, -⟩ := List.cons.inj heq
    obtain ⟨rfl, -⟩ := Event.use.inj hname
    rwa [List.append_nil]
  · simp at heq

/-! ### Tables that have grown -/

namespace Grown

variable {t t' : Table} {es : List Event}

/-- Without events a table has grown by nothing. -/
theorem refl (t : Table) : Grown t [] t where
  bucketCount := rfl
  stack x := by
    split
    · rfl
    · rename_i hx
      exact Table.contains_eq_false_iff.1 (Bool.eq_false_iff.2 hx)
  declarations := ⟨[], .refl _, List.nodup_nil, by simp [definedOn?]⟩

/-- The grown table has the names that are declared so far. -/
theorem contains_iff (h : Grown t es t') (x : String) :
    t'.contains x = true ↔ Declared t es x := by
  rw [← Bool.not_eq_false, Table.contains_eq_false_iff, h.stack, Declared]
  by_cases hx : t.contains x = true
  · have hfull : t.stack x ≠ [] := fun h ↦ by simp [Table.contains_eq_false_iff.2 h] at hx
    simp [hx, hfull]
  · rw [if_neg hx, ← exists_definedOn?_iff, ← Option.isSome_iff_exists]
    rcases definedOn? x es with - | l <;> simp [hx]

/-- A name is missing in a grown table exactly if it was missing and is not defined. -/
theorem contains_eq_false_iff (h : Grown t es t') (x : String) :
    t'.contains x = false ↔ t.contains x = false ∧ definedOn? x es = none := by
  rw [← Bool.not_eq_true, h.contains_iff, Declared, not_or, definedOn?_eq_none_iff,
    Bool.not_eq_true]

/-- A use leaves the table as it is. -/
theorem use (h : Grown t es t') (x : String) (l : Nat) : Grown t (es ++ [.use x l]) t' := by
  have hsame (y : String) : definedOn? y (es ++ [.use x l]) = definedOn? y es := by
    rw [definedOn?_append]
    exact Option.or_none
  refine ⟨h.bucketCount, fun y ↦ ?_, ?_⟩
  · rw [hsame, h.stack]
  · obtain ⟨added, hperm, hnodup, hmem⟩ := h.declarations
    exact ⟨added, hperm, hnodup, fun d ↦ by rw [hsame, hmem]⟩

/-- A definition of a name that is declared already leaves the table as it is. -/
theorem define_again (h : Grown t es t') {x : String} (hx : t'.contains x = true) (l : Nat) :
    Grown t (es ++ [.define x l]) t' := by
  have hsame (y : String) (hy : t.contains y = false) :
      definedOn? y (es ++ [.define x l]) = definedOn? y es := by
    rw [definedOn?_append, definedOn?]
    by_cases hxy : x = y
    · subst hxy
      obtain ⟨m, hm⟩ :=
        exists_definedOn?_iff.2 (((h.contains_iff x).1 hx).resolve_left (by simp [hy]))
      rw [hm]
      rfl
    · rw [if_neg hxy]
      exact Option.or_none
  refine ⟨h.bucketCount, fun y ↦ ?_, ?_⟩
  · rw [h.stack]
    split
    · rfl
    · rename_i hy
      rw [hsame y (Bool.eq_false_iff.2 hy)]
  · obtain ⟨added, hperm, hnodup, hmem⟩ := h.declarations
    refine ⟨added, hperm, hnodup, fun d ↦ ?_⟩
    rw [hmem]
    exact and_congr_right fun hd ↦ by rw [hsame _ hd]

/-- A definition of a new name adds its declaration. -/
theorem define_new (h : Grown t es t') {x : String} (hx : t'.contains x = false) (l : Nat) :
    Grown t (es ++ [.define x l]) (t'.insert ⟨x, .var, l⟩) := by
  obtain ⟨hmissing, hnone⟩ := (h.contains_eq_false_iff x).1 hx
  have hself : definedOn? x (es ++ [.define x l]) = some l := by
    rw [definedOn?_append, hnone, definedOn?, if_pos rfl]
    rfl
  have hother (y : String) (hy : y ≠ x) : definedOn? y (es ++ [.define x l]) = definedOn? y es := by
    rw [definedOn?_append, definedOn?, if_neg hy.symm]
    exact Option.or_none
  refine ⟨h.bucketCount, fun y ↦ ?_, ?_⟩
  · by_cases hy : y = x
    · subst hy
      rw [Table.stack_insert_of_missing hx, hmissing, hself]
      rfl
    · rw [Table.stack_insert_of_ne hy, h.stack, hother y hy]
  · obtain ⟨added, hperm, hnodup, hmem⟩ := h.declarations
    have hnotin : (⟨x, .var, l⟩ : Declaration) ∉ added := by
      rw [hmem, hnone]
      simp
    refine ⟨⟨x, .var, l⟩ :: added, (Table.declarations_insert _ _).trans (hperm.cons _),
      hnodup.cons hnotin, fun d ↦ ?_⟩
    rw [List.mem_cons, hmem]
    by_cases hd : d.name = x
    · rw [hd, hself, hnone, hmissing]
      rcases d with ⟨name, kind, line⟩
      simp only at hd
      simp [hd, eq_comm]
    · rw [hother _ hd]
      have hne : d ≠ ⟨x, .var, l⟩ := fun h ↦ hd (by rw [h])
      simp [hne]

end Grown

/-! ### The walk -/

/-- What the check does at an event. -/
def Event.step : Event → Check Unit
  | .use x l => do
    if !(← get).contains x then throw ⟨x, l⟩
  | .define x l => modify fun t ↦ if t.contains x then t else t.insert ⟨x, .var, l⟩

/-- Walk over a list of events. -/
def walk : List Event → Check Unit
  | [] => pure ()
  | e :: es => do
    e.step
    walk es

/-- A walk over two lists is a walk over the first and then over the second. -/
theorem walk_append (es es' : List Event) : walk (es ++ es') = walk es >>= fun _ ↦ walk es' := by
  induction es with
  | nil => rfl
  | cons e es ih =>
    show (e.step >>= fun _ ↦ walk (es ++ es')) = (e.step >>= fun _ ↦ walk es) >>= fun _ ↦ walk es'
    rw [ih, bind_assoc]

theorem walk_singleton (e : Event) : walk [e] = e.step := by
  funext t
  show (e.step >>= fun _ ↦ pure ()) t = e.step t
  rcases h : e.step t with ⟨u, t'⟩ | ⟨err, t'⟩
  · rw [Step.bind_of_ok h]
    rfl
  · rw [Step.bind_of_error h]

namespace Node

mutual
/-- To check a tree is to walk over its events. -/
theorem check_eq_walk (n : Node) : n.check = walk n.events := by
  match n with
  | .program _ ss | .block _ ss => exact checkAll_eq_walk ss
  | .ifThen _ a b | .loop _ a b | .binary _ _ a b =>
    rw [check, events, walk_append, check_eq_walk a, check_eq_walk b]
  | .ifElse _ c t e =>
    rw [check, events, walk_append, walk_append, check_eq_walk c, check_eq_walk t, check_eq_walk e]
  | .print _ v | .negate _ v => exact check_eq_walk v
  | .assign l x v =>
    rw [check, events, walk_append, walk_singleton, check_eq_walk v]
    rfl
  | .var l x =>
    rw [check, events, walk_singleton]
    rfl
  | .number _ _ | .quoted _ _ | .truth _ _ => rfl
theorem checkAll_eq_walk (ns : List Node) : checkAll ns = walk (eventsAll ns) := by
  match ns with
  | [] => rfl
  | n :: ns => rw [checkAll, eventsAll, walk_append, check_eq_walk n, checkAll_eq_walk ns]
end

end Node

/-- A use of a declared name changes nothing. -/
theorem step_use_of_contains {t : Table} {x : String} (h : t.contains x = true) (l : Nat) :
    (Event.use x l).step t = .ok () t := by
  show (if (!t.contains x) = true then throw ⟨x, l⟩ else pure () : Check Unit) t = _
  rw [h]
  rfl

/-- A use of a missing name is an error, and changes nothing either. -/
theorem step_use_of_missing {t : Table} {x : String} (h : t.contains x = false) (l : Nat) :
    (Event.use x l).step t = .error ⟨x, l⟩ t := by
  show (if (!t.contains x) = true then throw ⟨x, l⟩ else pure () : Check Unit) t = _
  rw [h]
  rfl

/-- **One step.** A definition never fails. -/
theorem Grown.step_define {t t' : Table} {es : List Event} (h : Grown t es t') (x : String)
    (l : Nat) : ∃ t'', (Event.define x l).step t' = .ok () t'' ∧
      Grown t (es ++ [.define x l]) t'' := by
  refine ⟨if t'.contains x then t' else t'.insert ⟨x, .var, l⟩, rfl, ?_⟩
  split
  · rename_i hx
    exact h.define_again hx l
  · rename_i hx
    exact h.define_new (Bool.eq_false_iff.2 hx) l

/-- **The whole walk.** It comes to its end if every use is in order, and stops at the first that
is not. -/
theorem walk_cases (es : List Event) (t : Table) :
    (Resolved t es ∧ ∃ t', walk es t = .ok () t' ∧ Grown t es t') ∨
      ∃ before e t', FirstUnresolved t es before e ∧ walk es t = .error e t' ∧
        Grown t before t' := by
  -- On the events from the back, since what a use needs is what was defined before it.
  induction es using List.reverseRecOn with
  | nil => exact .inl ⟨resolved_nil t, t, rfl, .refl t⟩
  | append_singleton es e ih =>
    rw [walk_append, walk_singleton]
    rcases ih with ⟨hres, t', hrun, hgrown⟩ | ⟨before, err, t', hfirst, hrun, hgrown⟩
    · rw [Step.bind_of_ok hrun]
      match e with
      | .define x l =>
        obtain ⟨t'', hstep, hgrown'⟩ := hgrown.step_define x l
        exact .inl ⟨hres.snoc_define x l, t'', hstep, hgrown'⟩
      | .use x l =>
        by_cases hx : t'.contains x = true
        · refine .inl ⟨hres.snoc_use ((hgrown.contains_iff x).1 hx) l, t', ?_, hgrown.use x l⟩
          exact step_use_of_contains hx l
        · have hundeclared : ¬ Declared t es x := mt (hgrown.contains_iff x).2 hx
          refine .inr ⟨es, ⟨x, l⟩, t', ⟨⟨[], rfl⟩, hres, hundeclared⟩, ?_, hgrown⟩
          exact step_use_of_missing (Bool.eq_false_iff.2 hx) l
    · obtain ⟨⟨after, rfl⟩, hres, hundeclared⟩ := hfirst
      refine .inr ⟨before, err, t', ⟨⟨after ++ [e], by simp⟩, hres, hundeclared⟩, ?_, hgrown⟩
      exact Step.bind_of_error hrun

/-- With a use that is not in order, not every use is. -/
theorem FirstUnresolved.not_resolved {t : Table} {es before : List Event} {e : Undeclared}
    (h : FirstUnresolved t es before e) : ¬ Resolved t es := by
  obtain ⟨after, rfl⟩ := h.split
  exact fun hres ↦ h.undeclared (hres before e.name e.line after rfl)

/-- A walk succeeds exactly when all uses are in order. -/
theorem exists_walk_eq_ok_iff (es : List Event) (t : Table) :
    (∃ t', walk es t = .ok () t') ↔ Resolved t es := by
  rcases walk_cases es t with ⟨hres, t', hrun, -⟩ | ⟨before, e, t', hfirst, hrun, -⟩
  · exact ⟨fun _ ↦ hres, fun _ ↦ ⟨t', hrun⟩⟩
  · refine ⟨?_, fun hres ↦ absurd hres hfirst.not_resolved⟩
    rintro ⟨t'', hok⟩
    exact absurd (hrun.symm.trans hok) (by simp)

/-- **The order of the text.** Whatever the tree and the table it is checked against, the check
succeeds exactly when every use of a name has it in the table or defined before; otherwise it
reports the name and the line of the first use for which this fails. The table is left with one
new variable for each new name that was defined up to there, and with nothing else. -/
theorem Node.check_follows_text (n : Node) (t : Table) :
    ((∃ t', n.check t = .ok () t') ↔ Resolved t n.events) ∧
      (∀ t', n.check t = .ok () t' → Grown t n.events t') ∧
      ∀ e t', n.check t = .error e t' →
        ∃ before, FirstUnresolved t n.events before e ∧ Grown t before t' := by
  rw [n.check_eq_walk]
  refine ⟨exists_walk_eq_ok_iff n.events t, ?_, ?_⟩
  · rcases walk_cases n.events t with ⟨-, t', hrun, hgrown⟩ | ⟨-, e, t', -, hrun, -⟩
    · rw [hrun]
      rintro t'' ⟨⟩
      exact hgrown
    · rw [hrun]
      rintro t'' ⟨⟩
  · rcases walk_cases n.events t with ⟨-, t', hrun, -⟩ | ⟨before, e, t', hfirst, hrun, hgrown⟩
    · rw [hrun]
      rintro e t'' ⟨⟩
    · rw [hrun]
      rintro e' t'' ⟨⟩
      exact ⟨before, hfirst, hgrown⟩

end KannadaScript
