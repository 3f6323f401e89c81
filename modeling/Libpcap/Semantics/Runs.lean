/-
# Runs of stateful computations that may fail

A computation in `StateT σ (Except ε)` runs from one state to another with a
value, or fails. The lemmas below take a run of a sequence apart into the runs
of its parts, so that neither the monad nor the state record has to be unfolded.
-/

import Mathlib.Logic.Basic

namespace Libpcap.Semantics

universe u v

variable {σ ε α β : Type u}

/-- The computation succeeds from `s` with value `a` in state `s'`. -/
def Runs (m : StateT σ (Except ε) α) (s : σ) (a : α) (s' : σ) : Prop :=
  m.run s = .ok (a, s')

theorem runs_bind_iff {m : StateT σ (Except ε) α} {f : α → StateT σ (Except ε) β} {s : σ}
    {b : β} {s'' : σ} :
    Runs (m >>= f) s b s'' ↔ ∃ a s', Runs m s a s' ∧ Runs (f a) s' b s'' := by
  constructor
  · intro ran
    rw [Runs, StateT.run_bind] at ran
    cases first : m.run s with
    | error e =>
      rw [first] at ran
      cases ran
    | ok pair =>
      obtain ⟨a, s'⟩ := pair
      rw [first] at ran
      exact ⟨a, s', first, ran⟩
  · rintro ⟨a, s', first, second⟩
    rw [Runs, StateT.run_bind, show m.run s = .ok (a, s') from first]
    exact second

theorem Runs.bind {m : StateT σ (Except ε) α} {f : α → StateT σ (Except ε) β} {s s' s'' : σ} {a : α}
    {b : β} (first : Runs m s a s') (second : Runs (f a) s' b s'') : Runs (m >>= f) s b s'' :=
  runs_bind_iff.mpr ⟨a, s', first, second⟩

theorem Runs.seq {m : StateT σ (Except ε) PUnit} {f : PUnit → StateT σ (Except ε) β} {s s' s'' : σ}
    {b : β} (first : Runs m s ⟨⟩ s') (second : Runs (f ⟨⟩) s' b s'') : Runs (m >>= f) s b s'' :=
  first.bind second

/-- The computation succeeds, and its result passes a test. -/
def passes (m : StateT σ (Except ε) α) (s : σ) (test : α → σ → Bool) : Bool :=
  match m.run s with
  | .ok (a, s') => test a s'
  | .error _ => false

/-- A run whose result passes a test can be found by evaluation. -/
theorem exists_runs {m : StateT σ (Except ε) α} {s : σ} (test : α → σ → Bool)
    (succeeds : passes m s test = true) : ∃ a s', Runs m s a s' ∧ test a s' = true := by
  unfold passes at succeeds
  cases outcome : m.run s with
  | error e =>
    rw [outcome] at succeeds
    cases succeeds
  | ok pair =>
    rw [outcome] at succeeds
    exact ⟨pair.1, pair.2, outcome, succeeds⟩

theorem runs_pure_iff {a b : α} {s s' : σ} :
    Runs (pure a : StateT σ (Except ε) α) s b s' ↔ a = b ∧ s = s' := by
  constructor
  · intro ran
    cases ran
    exact ⟨rfl, rfl⟩
  · rintro ⟨rfl, rfl⟩
    rfl

theorem runs_get_iff {s t s' : σ} : Runs (get : StateT σ (Except ε) σ) s t s' ↔ s = t ∧ s = s' := by
  constructor
  · intro ran
    cases ran
    exact ⟨rfl, rfl⟩
  · rintro ⟨rfl, rfl⟩
    rfl

theorem runs_get_bind_iff {f : σ → StateT σ (Except ε) β} {s s' : σ} {b : β} :
    Runs (get >>= f) s b s' ↔ Runs (f s) s b s' := .rfl

theorem runs_set_iff {s t s' : σ} {u : PUnit} :
    Runs (set t : StateT σ (Except ε) PUnit) s u s' ↔ t = s' := by
  constructor
  · intro ran
    cases ran
    rfl
  · rintro rfl
    rfl

theorem runs_modify_iff {f : σ → σ} {s s' : σ} {u : PUnit} :
    Runs (modify f : StateT σ (Except ε) PUnit) s u s' ↔ f s = s' := by
  constructor
  · intro ran
    cases ran
    rfl
  · rintro rfl
    rfl

theorem not_runs_throw {e : ε} {s s' : σ} {a : α} :
    ¬ Runs (throw e : StateT σ (Except ε) α) s a s' := by
  intro ran
  cases ran

/-- A computation has at most one successful run from a state. -/
theorem Runs.unique {m : StateT σ (Except ε) α} {s : σ} {a b : α} {s' s'' : σ}
    (first : Runs m s a s') (second : Runs m s b s'') : a = b ∧ s' = s'' := by
  have both := Except.ok.inj (first.symm.trans second)
  exact ⟨congrArg Prod.fst both, congrArg Prod.snd both⟩

end Libpcap.Semantics
