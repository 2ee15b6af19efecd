import KannadaScript.Proofs.Declaration.Repetition
import Mathlib.Computability.Language

/-!
# Control paths

The check walks over a tree in the order of its text and knows nothing of branches and rounds. A
program that runs takes a way of its own through the tree: one branch of a conditional, and the body
of a loop as often as it likes. What is read and assigned on such ways is a language over events
(`Node.paths`), with a sum for a choice and a star for a loop.

Events and paths are tied together by `Threads`: each event of the text lies on a path, and
before it that path has only events which the text has before it too, in the same order. Branches
that were walked may be missing on the path, and rounds are never needed: the body of a loop is
reached in its first.

Main statement: `check_raises_no_false_alarm`. A use that the check blames is reached on some path
on which its name has not been assigned before.
-/

namespace KannadaScript

open Computability

/-! ### The paths of a tree -/

namespace Node

mutual
/-- What is read and assigned on the ways through a tree, from its start to its end. -/
def paths : Node → Language Event
  | .program _ ss | .block _ ss => pathsAll ss
  | .ifThen _ c t => c.paths * (t.paths + 1)
  | .ifElse _ c t e => c.paths * (t.paths + e.paths)
  | .loop _ c b => c.paths * (b.paths * c.paths)∗
  | .print _ v | .negate _ v => v.paths
  | .assign l x v => v.paths * {[.define x l]}
  | .binary _ _ a b => a.paths * b.paths
  | .var l x => {[.use x l]}
  | .number _ _ | .quoted _ _ | .truth _ _ => 1
/-- What is read and assigned on the ways through one tree after the other. -/
def pathsAll : List Node → Language Event
  | [] => 1
  | n :: ns => n.paths * pathsAll ns
end

end Node

/-! ### Paths along the text -/

/-- Some path has events of the text only, and each event of the text is reached on a path that has
only earlier events of the text before it; all of them in the order of the text. -/
structure Threads (paths : Language Event) (text : List Event) : Prop where
  exists_path : ∃ path ∈ paths, path.Sublist text
  reaches : ∀ before e after, text = before ++ e :: after →
    ∃ before' after', before' ++ e :: after' ∈ paths ∧ before'.Sublist before

namespace Threads

variable {L M : Language Event} {es es' : List Event}

/-- Where nothing happens the empty path is enough. -/
theorem one : Threads 1 [] where
  exists_path := ⟨[], Language.nil_mem_one, .refl _⟩
  reaches before e after h := by simp at h

/-- A single event lies on the path that it makes. -/
theorem singleton (e : Event) : Threads {[e]} [e] where
  exists_path := ⟨[e], rfl, .refl _⟩
  reaches before e' after h := by
    rcases before with - | ⟨a, before⟩
    · obtain ⟨rfl, -⟩ := List.cons.inj h
      exact ⟨[], [], rfl, .refl _⟩
    · simp at h

/-- **One after the other.** An event of the first text is reached there, and the path goes on to
the end of the second. An event of the second is reached behind any path through the first. -/
theorem mul (h : Threads L es) (h' : Threads M es') : Threads (L * M) (es ++ es') where
  exists_path := by
    obtain ⟨p, hp, hsub⟩ := h.exists_path
    obtain ⟨q, hq, hsub'⟩ := h'.exists_path
    exact ⟨p ++ q, Language.append_mem_mul hp hq, hsub.append hsub'⟩
  reaches before e after hsplit := by
    rcases split_append_cases hsplit with ⟨rest, rfl⟩ | ⟨before', rfl, rfl⟩
    · obtain ⟨p, p', hp, hsub⟩ := h.reaches before e rest rfl
      obtain ⟨q, hq, -⟩ := h'.exists_path
      refine ⟨p, p' ++ q, ?_, hsub⟩
      simpa using Language.append_mem_mul hp hq
    · obtain ⟨p, hp, hsub⟩ := h.exists_path
      obtain ⟨q, q', hq, hsub'⟩ := h'.reaches before' e after rfl
      refine ⟨p ++ q, q', ?_, hsub.append hsub'⟩
      simpa using Language.append_mem_mul hp hq

/-- **One or the other.** Each event is reached on its own side, and what the other side has before
it in the text is missing on the path. -/
theorem add (h : Threads L es) (h' : Threads M es') : Threads (L + M) (es ++ es') where
  exists_path := by
    obtain ⟨p, hp, hsub⟩ := h.exists_path
    exact ⟨p, .inl hp, hsub.trans (List.sublist_append_left _ _)⟩
  reaches before e after hsplit := by
    rcases split_append_cases hsplit with ⟨rest, rfl⟩ | ⟨before', rfl, rfl⟩
    · obtain ⟨p, p', hp, hsub⟩ := h.reaches before e rest rfl
      exact ⟨p, p', .inl hp, hsub⟩
    · obtain ⟨q, q', hq, hsub⟩ := h'.reaches before' e after rfl
      exact ⟨q, q', .inr hq, hsub.trans (List.sublist_append_right _ _)⟩

/-- **Round after round.** An event of the body is reached in the first round, and the loop may end
with the condition that follows; it may also end before any round. -/
theorem rounds (h : Threads L es) {p : List Event} (hp : p ∈ M) : Threads (L * M)∗ es where
  exists_path := ⟨[], Language.nil_mem_kstar _, List.nil_sublist _⟩
  reaches before e after hsplit := by
    obtain ⟨q, q', hq, hsub⟩ := h.reaches before e after hsplit
    refine ⟨q, q' ++ p, Language.mem_kstar.2 ⟨[q ++ e :: q' ++ p], by simp, ?_⟩, hsub⟩
    rw [List.forall_mem_singleton]
    exact Language.append_mem_mul hq hp

end Threads

namespace Node

mutual
/-- The paths of a tree thread its text. -/
theorem threads (n : Node) : Threads n.paths n.events := by
  match n with
  | .program _ ss | .block _ ss => exact threadsAll ss
  | .ifThen _ c t =>
    have hbranch : Threads (t.paths + 1) (t.events ++ []) := (threads t).add .one
    rw [List.append_nil] at hbranch
    exact (threads c).mul hbranch
  | .ifElse _ c t e => exact (threads c).mul ((threads t).add (threads e))
  | .loop _ c b =>
    obtain ⟨p, hp, -⟩ := (threads c).exists_path
    exact (threads c).mul ((threads b).rounds hp)
  | .print _ v | .negate _ v => exact threads v
  | .assign l x v => exact (threads v).mul (.singleton _)
  | .binary _ _ a b => exact (threads a).mul (threads b)
  | .var l x => exact .singleton _
  | .number _ _ | .quoted _ _ | .truth _ _ => exact .one
/-- The same for trees in a row. -/
theorem threadsAll (ns : List Node) : Threads (pathsAll ns) (eventsAll ns) := by
  match ns with
  | [] => exact .one
  | n :: ns => exact (threads n).mul (threadsAll ns)
end

end Node

/-! ### Alarms -/

/-- **No false alarm.** Let the check of any tree fail, with any names declared beforehand. Then the
name it reports is none of them, and some control path reaches the reported use without an
assignment of the name before it. -/
theorem check_raises_no_false_alarm (n : Node) (predeclared : List String) (t t' : Table)
    (e : Undeclared) (h : n.check (predeclared.foldl Table.declare t) = .error e t') :
    (∃ before after, before ++ .use e.name e.line :: after ∈ n.paths ∧
      ∀ l, .define e.name l ∉ before) ∧
    e.name ∉ predeclared ∧ t.contains e.name = false := by
  rw [n.check_eq_walk] at h
  obtain ⟨before, after, hevents, hbefore, hmissing⟩ := walk_eq_error_iff.1 h
  have hundeclared : ¬ Declared (predeclared.foldl Table.declare t) before e.name := by
    rw [← (grown_of_walk hbefore).contains_iff, hmissing]
    exact Bool.false_ne_true
  rw [Declared, not_or, Table.contains_foldl_declare, not_or, Bool.not_eq_true] at hundeclared
  obtain ⟨⟨hstart, hnames⟩, hassigned⟩ := hundeclared
  obtain ⟨before', after', hpath, hsub⟩ := n.threads.reaches before _ after hevents
  exact ⟨⟨before', after', hpath, fun l hl ↦ hassigned ⟨l, hsub.subset hl⟩⟩, hnames, hstart⟩

/-- In a loop, a name is read in one branch of a conditional and assigned only behind it. -/
theorem check_raises_no_false_alarm_loop :
    let branches : Node := .ifElse 2 (.truth 2 true)
      (.block 2 [.assign 3 "ಅ" (.number 3 1)])
      (.block 4 [.print 5 (.binary 5 .add (.var 5 "ಅ") (.var 5 "ಕ"))])
    let n : Node := .program 1 [.loop 1 (.var 1 "ಬ")
      (.block 1 [branches, .assign 6 "ಕ" (.number 6 2)])]
    (∃ t', n.check (["ಬ"].foldl Table.declare (.empty 16)) = .error ⟨"ಕ", 5⟩ t') ∧
    (∃ before after, before ++ .use "ಕ" 5 :: after ∈ n.paths ∧
      ∀ l, .define "ಕ" l ∉ before) ∧
    "ಕ" ∉ ["ಬ"] ∧ (Table.empty 16).contains "ಕ" = false := by
  intro branches n
  have hcheck : n.check (["ಬ"].foldl Table.declare (.empty 16)) = .error ⟨"ಕ", 5⟩
      (Step.final (n.check (["ಬ"].foldl Table.declare (.empty 16)))) := by rfl
  exact ⟨⟨_, hcheck⟩, check_raises_no_false_alarm n ["ಬ"] (.empty 16) _ ⟨"ಕ", 5⟩ hcheck⟩

end KannadaScript
