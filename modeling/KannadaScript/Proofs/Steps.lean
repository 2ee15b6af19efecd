import Mathlib

/-!
# Runs of stateful steps

Scanning, reading, checking and writing are all steps that take a state to a value and a new state,
or to an error and a new state. Here is what one step after another does: it succeeds exactly when
both succeed (`bind_eq_ok_iff`), and it fails when the first fails or, after it, the second
(`bind_eq_error_iff`). Proofs about such steps rest on these equations and never open the monad.

An error leaves a state as well. What a failed scan, a failed check or a failed writing has done up
to then is part of most statements about it, so the state is named in both outcomes, and `final` and
`answer` take an outcome apart where only one of them matters. Steps that have no state are the
phases of a compilation and the walk along a path; they have the same equations, with nothing to
carry (`except_bind_eq_ok_iff`).

Two steps match when, started in related states, they end alike (`Matches`). Sequences of steps that
match do too (`Matches.bind`), so what two whole runs have in common is shown step by step. What it
means for values, errors and states to be related is left open. Equal up to lines, or with the same
names, are two ways in which it is used.
-/

namespace KannadaScript.Step

variable {ε σ α β : Type} {x : EStateM ε σ α} {f : α → EStateM ε σ β} {s s' s'' : σ}

/-! ### How a step ends -/

/-- The state that a step ends in, by a value or by an error. -/
def final : EStateM.Result ε σ α → σ
  | .ok _ s | .error _ s => s

/-- The value or the error of a step, without the state that it ends in. -/
def answer : EStateM.Result ε σ α → Except ε α
  | .ok a _ => .ok a
  | .error e _ => .error e

/-! ### Changes of state -/

@[simp] theorem modifyGet_apply (g : σ → α × σ) (s : σ) :
    (modifyGet g : EStateM ε σ α) s = .ok (g s).1 (g s).2 := rfl

/-! ### One step after another -/

/-- After a step that succeeds, the next one goes on from its value and its state. -/
theorem bind_of_ok {a : α} (h : x s = .ok a s') : (x >>= f) s = f a s' := by
  show EStateM.bind x f s = f a s'
  rw [EStateM.bind, h]

/-- After a step that fails, there is no next one. -/
theorem bind_of_error {e : ε} (h : x s = .error e s') : (x >>= f) s = .error e s' := by
  show EStateM.bind x f s = .error e s'
  rw [EStateM.bind, h]

/-- A sequence succeeds exactly when its two steps do. -/
theorem bind_eq_ok_iff {b : β} :
    (x >>= f) s = .ok b s'' ↔ ∃ a s', x s = .ok a s' ∧ f a s' = .ok b s'' := by
  rcases hx : x s with ⟨a, s'⟩ | ⟨e, s'⟩
  · rw [bind_of_ok hx]
    exact ⟨fun h ↦ ⟨a, s', rfl, h⟩, fun ⟨a', t, ht, h⟩ ↦ by cases ht; exact h⟩
  · rw [bind_of_error hx]
    constructor
    · intro h
      cases h
    · rintro ⟨a, t, ht, -⟩
      cases ht

/-- A sequence fails exactly when its first step does, or its second after it. -/
theorem bind_eq_error_iff {e : ε} :
    (x >>= f) s = .error e s'' ↔
      x s = .error e s'' ∨ ∃ a s', x s = .ok a s' ∧ f a s' = .error e s'' := by
  rcases hx : x s with ⟨a, s'⟩ | ⟨e', s'⟩
  · rw [bind_of_ok hx]
    constructor
    · intro h
      exact .inr ⟨a, s', rfl, h⟩
    · rintro (h | ⟨a', t, ht, h⟩)
      · cases h
      · cases ht
        exact h
  · rw [bind_of_error hx]
    constructor
    · intro h
      cases h
      exact .inl rfl
    · rintro (h | ⟨a, t, ht, -⟩)
      · cases h
        rfl
      · cases ht

/-! ### Steps without a state -/

section Stateless

variable {u : Except ε α} {k : α → Except ε β}

theorem except_ok_bind (a : α) (k : α → Except ε β) : (Except.ok a >>= k) = k a := rfl

theorem except_error_bind (e : ε) (k : α → Except ε β) :
    (Except.error e >>= k) = Except.error e := rfl

/-- A step that depends on another one succeeds exactly when both do. -/
theorem except_bind_eq_ok_iff {b : β} : (u >>= k) = .ok b ↔ ∃ a, u = .ok a ∧ k a = .ok b := by
  rcases u with e | a
  · rw [except_error_bind]
    exact ⟨by rintro ⟨⟩, by rintro ⟨a, ⟨⟩, -⟩⟩
  · rw [except_ok_bind]
    exact ⟨fun h ↦ ⟨a, rfl, h⟩, by rintro ⟨a, ⟨⟩, h⟩; exact h⟩

end Stateless

/-! ### Two runs side by side -/

/-- Both runs end in a value or both in an error, and the states they end in are related. -/
inductive Alike (V : α → α → Prop) (E : ε → ε → Prop) (S : σ → σ → Prop) :
    EStateM.Result ε σ α → EStateM.Result ε σ α → Prop
  | ok {a a' : α} {s s' : σ} (value : V a a') (state : S s s') : Alike V E S (.ok a s) (.ok a' s')
  | error {e e' : ε} {s s' : σ} (error : E e e') (state : S s s') :
      Alike V E S (.error e s) (.error e' s')

/-- Started in related states, the two steps end alike. -/
def Matches (V : α → α → Prop) (E : ε → ε → Prop) (S : σ → σ → Prop) (x y : EStateM ε σ α) : Prop :=
  ∀ s t, S s t → Alike V E S (x s) (y t)

section Matches

variable {V : α → α → Prop} {W : β → β → Prop} {E : ε → ε → Prop} {S : σ → σ → Prop}
  {y : EStateM ε σ α} {g : α → EStateM ε σ β}

theorem matches_pure {a a' : α} (h : V a a') :
    Matches V E S (pure a : EStateM ε σ α) (pure a') :=
  fun _ _ hs ↦ .ok h hs

theorem matches_throw {e e' : ε} (h : E e e') :
    Matches V E S (throw e : EStateM ε σ α) (throw e') :=
  fun _ _ hs ↦ .error h hs

/-- Two sequences match if their first steps do, and after related values their second steps. -/
theorem Matches.bind (hx : Matches V E S x y)
    (hf : ∀ a a', V a a' → Matches W E S (f a) (g a')) : Matches W E S (x >>= f) (y >>= g) := by
  intro s t hs
  have hfirst := hx s t hs
  generalize hxs : x s = r at hfirst
  generalize hyt : y t = r' at hfirst
  cases hfirst with
  | ok value state =>
    rw [bind_of_ok hxs, bind_of_ok hyt]
    exact hf _ _ value _ _ state
  | error error state =>
    rw [bind_of_error hxs, bind_of_error hyt]
    exact .error error state

end Matches

end KannadaScript.Step
