/-
# Computations that fail without losing their state

A routine that reads from a file and updates a handle may give up anywhere, and
the caller may call it again: what it did up to that point is not undone. Such a
routine is a computation in `ExceptT ε (StateM σ)`. Its run from a state ends with
a value or an error, and in either case with a state.

`Ends` states what holds at the end of a run, whichever way it ends, and its rules
take a sequence apart into its parts. `Coupled` does the same for two runs that are
to fail alike or to succeed alike.
-/

import Mathlib.Logic.Basic

namespace Libpcap.Semantics

universe u

variable {σ σ' ε α β α' β' : Type u}

/-- A routine over the state `σ` that may fail with an `ε`. -/
abbrev Fallible (σ ε α : Type u) := ExceptT ε (StateM σ) α

variable {ended : Except ε α × σ} {m : Fallible σ ε α} {f : α → Fallible σ ε β}

/-- How the run of a routine from a state ends. -/
def exec (m : Fallible σ ε α) (s : σ) : Except ε α × σ :=
  StateT.run (ExceptT.run m) s

/-- The continuation of a run that has ended with a value. -/
def andThen (ended : Except ε α × σ) (f : α → Fallible σ ε β) : Except ε β × σ :=
  match ended with
  | (.ok a, s) => exec (f a) s
  | (.error e, s) => (.error e, s)

@[simp]
theorem andThen_ok (a : α) (s : σ) (f : α → Fallible σ ε β) :
    andThen (.ok a, s) f = exec (f a) s := rfl

/-- A continued run ends with a value only if its first part does. -/
theorem andThen_eq_ok_iff {b : β} {s' : σ} :
    andThen ended f = (.ok b, s') ↔
      ∃ a s, ended = (.ok a, s) ∧ exec (f a) s = (.ok b, s') := by
  constructor
  · intro continued
    obtain ⟨value, s⟩ := ended
    cases value with
    | ok a => exact ⟨a, s, rfl, continued⟩
    | error e => cases continued
  · rintro ⟨a, s, rfl, continued⟩
    exact continued

@[simp]
theorem exec_pure (a : α) (s : σ) : exec (pure a : Fallible σ ε α) s = (.ok a, s) := rfl

@[simp]
theorem exec_throw (e : ε) (s : σ) : exec (throw e : Fallible σ ε α) s = (.error e, s) := rfl

@[simp]
theorem exec_bind (m : Fallible σ ε α) (f : α → Fallible σ ε β) (s : σ) :
    exec (m >>= f) s = andThen (exec m s) f := by
  unfold exec andThen
  rw [ExceptT.run_bind, StateT.run_bind]
  cases outcome : StateT.run (ExceptT.run m) s with
  | mk value s' =>
    cases value with
    | ok a => rfl
    | error e => rfl

/-- A sequence ends with a value only if its first part does. -/
theorem exec_bind_eq_ok_iff {s s'' : σ} {b : β} :
    exec (m >>= f) s = (.ok b, s'') ↔
      ∃ a s', exec m s = (.ok a, s') ∧ exec (f a) s' = (.ok b, s'') := by
  rw [exec_bind, andThen_eq_ok_iff]

@[simp]
theorem exec_get (s : σ) : exec (get : Fallible σ ε σ) s = (.ok s, s) := rfl

@[simp]
theorem exec_modify (f : σ → σ) (s : σ) :
    exec (modify f : Fallible σ ε PUnit) s = (.ok ⟨⟩, f s) := rfl

@[simp]
theorem exec_ite (c : Prop) [Decidable c] (m m' : Fallible σ ε α) (s : σ) :
    exec (if c then m else m') s = if c then exec m s else exec m' s := by
  split <;> rfl

@[simp]
theorem exec_adapt {ε' : Type u} (f : ε → ε') (m : Fallible σ ε α) (s : σ) :
    exec (ExceptT.adapt f m : Fallible σ ε' α) s = ((exec m s).1.mapError f, (exec m s).2) := rfl

/-! ## Postconditions -/

/-- The run has ended with a value and `post`, or with an error and `failed`. -/
def Ends (ended : Except ε α × σ) (post : α → σ → Prop) (failed : ε → σ → Prop) : Prop :=
  match ended with
  | (.ok a, s) => post a s
  | (.error e, s) => failed e s

section Ends

variable {post : α → σ → Prop} {failed : ε → σ → Prop}

theorem Ends.mono {post' : α → σ → Prop} {failed' : ε → σ → Prop}
    (ends : Ends ended post failed) (value : ∀ a s, post a s → post' a s)
    (error : ∀ e s, failed e s → failed' e s) : Ends ended post' failed' := by
  obtain ⟨outcome, s⟩ := ended
  cases outcome with
  | ok a => exact value a s ends
  | error e => exact error e s ends

theorem Ends.and {post' : α → σ → Prop} {failed' : ε → σ → Prop}
    (ends : Ends ended post failed) (ends' : Ends ended post' failed') :
    Ends ended (fun a s => post a s ∧ post' a s) (fun e s => failed e s ∧ failed' e s) := by
  obtain ⟨outcome, s⟩ := ended
  cases outcome with
  | ok a => exact ⟨ends, ends'⟩
  | error e => exact ⟨ends, ends'⟩

section

variable {s : σ} {post' : β → σ → Prop} {failed' : ε → σ → Prop}
  (first : Ends (exec m s) post failed)
  (next : ∀ a s', post a s' → Ends (exec (f a) s') post' failed')

include first next

/-- The rule of sequence. -/
theorem Ends.bind
    (error : ∀ e s', failed e s' → failed' e s') : Ends (exec (m >>= f) s) post' failed' := by
  rw [exec_bind]
  cases outcome : exec m s with
  | mk value s' =>
    rw [outcome] at first
    cases value with
    | ok a => exact next a s' first
    | error e => exact error e s' first

/-- The rule of sequence where what is known of a failure stays, or nothing is asked. -/
theorem Ends.seq
    (error : ∀ e s, failed e s → failed' e s := by intro _ _ holds; first | exact holds | trivial) :
    Ends (exec (m >>= f) s) post' failed' :=
  first.bind next error

end

/-- Likewise for a weaker postcondition. -/
theorem Ends.imp {post' : α → σ → Prop} {failed' : ε → σ → Prop}
    (ends : Ends ended post failed) (value : ∀ a s, post a s → post' a s)
    (error : ∀ e s, failed e s → failed' e s := by intro _ _ holds; first | exact holds | trivial) :
    Ends ended post' failed' :=
  ends.mono value error

/-- The rule for a value that is mapped. -/
theorem Ends.map {f : α → β} {s : σ} {post' : β → σ → Prop}
    (ends : Ends (exec m s) (fun a => post' (f a)) failed) :
    Ends (exec (f <$> m) s) post' failed := by
  rw [map_eq_pure_bind]
  exact ends.bind (fun _ _ holds => holds) (fun _ _ holds => holds)

/-- What a run ended with, read off from what holds at its end. -/
theorem Ends.of_ok {a : α} {s : σ} (ends : Ends ended post failed)
    (outcome : ended = (.ok a, s)) : post a s := by
  subst outcome
  exact ends

/-- What holds of the state whichever way the run ends. -/
theorem Ends.state {holds : σ → Prop}
    (ends : Ends ended (fun _ s => holds s) (fun _ s => holds s)) : holds ended.2 := by
  obtain ⟨outcome, s⟩ := ended
  cases outcome with
  | ok a => exact ends
  | error e => exact ends

end Ends

/-! ## What runs use up -/

/-- However a run ends, there is no more left of something than there was. -/
def Shrinks (size : σ → Nat) (m : Fallible σ ε α) : Prop :=
  ∀ s, size (exec m s).2 ≤ size s

namespace Shrinks

variable {size : σ → Nat}

theorem pure (a : α) : Shrinks size (pure a : Fallible σ ε α) := fun _ => Nat.le_refl _

theorem throw (e : ε) : Shrinks size (throw e : Fallible σ ε α) := fun _ => Nat.le_refl _

theorem get : Shrinks size (get : Fallible σ ε σ) := fun _ => Nat.le_refl _

theorem bind (first : Shrinks size m)
    (next : ∀ a, Shrinks size (f a)) : Shrinks size (m >>= f) := by
  intro s
  rw [exec_bind]
  have less := first s
  generalize exec m s = ended at less ⊢
  obtain ⟨outcome, s'⟩ := ended
  cases outcome with
  | ok a => exact Nat.le_trans (next a s') less
  | error e => exact less

theorem ite {c : Prop} [Decidable c] {m m' : Fallible σ ε α} (yes : Shrinks size m)
    (no : Shrinks size m') : Shrinks size (if c then m else m') := by
  split
  · exact yes
  · exact no

end Shrinks

/-! ## Two runs -/

/-- Both runs have ended with values and `post`, or both with the same error. -/
def Coupled (ended : Except ε α × σ) (ended' : Except ε α' × σ')
    (post : α → σ → α' → σ' → Prop) : Prop :=
  match ended, ended' with
  | (.ok a, s), (.ok a', s') => post a s a' s'
  | (.error e, _), (.error e', _) => e = e'
  | _, _ => False

section Coupled

variable {post : α → σ → α' → σ' → Prop}

/-- The two ways in which two coupled runs end. -/
theorem Coupled.cases {ended' : Except ε α' × σ'}
    (coupled : Coupled ended ended' post) :
    (∃ a s a' s', ended = (.ok a, s) ∧ ended' = (.ok a', s') ∧ post a s a' s') ∨
      ∃ e s s', ended = (.error e, s) ∧ ended' = (.error e, s') := by
  obtain ⟨value, s⟩ := ended
  obtain ⟨value', s'⟩ := ended'
  cases value with
  | ok a =>
    cases value' with
    | ok a' => exact .inl ⟨a, s, a', s', rfl, rfl, coupled⟩
    | error e' => exact coupled.elim
  | error e =>
    cases value' with
    | ok a' => exact coupled.elim
    | error e' =>
      cases coupled
      exact .inr ⟨e, s, s', rfl, rfl⟩

/-- The rule of sequence. -/
theorem Coupled.bind {m' : Fallible σ' ε α'}
    {f' : α' → Fallible σ' ε β'} {s : σ} {s' : σ'} {post' : β → σ → β' → σ' → Prop}
    (first : Coupled (exec m s) (exec m' s') post)
    (next : ∀ a t a' t', post a t a' t' → Coupled (exec (f a) t) (exec (f' a') t') post') :
    Coupled (exec (m >>= f) s) (exec (m' >>= f') s') post' := by
  rw [exec_bind, exec_bind]
  obtain ⟨a, t, a', t', ran, ran', holds⟩ | ⟨e, t, t', ran, ran'⟩ := first.cases
  · rw [ran, ran']
    exact next a t a' t' holds
  · rw [ran, ran']
    rfl

theorem Coupled.mono {ended' : Except ε α' × σ'}
    {post' : α → σ → α' → σ' → Prop} (coupled : Coupled ended ended' post)
    (weaker : ∀ a s a' s', post a s a' s' → post' a s a' s') : Coupled ended ended' post' := by
  obtain ⟨a, s, a', s', rfl, rfl, holds⟩ | ⟨e, s, s', rfl, rfl⟩ := coupled.cases
  · exact weaker a s a' s' holds
  · rfl

/-- Both routines fail alike, or yield the same value and states with `post`. -/
def Abreast (m : Fallible σ ε α) (m' : Fallible σ' ε α) (s : σ) (s' : σ')
    (post : α → σ → σ' → Prop) : Prop :=
  Coupled (exec m s) (exec m' s') fun a t a' t' => a' = a ∧ post a t t'

section Abreast

variable {m' : Fallible σ' ε α} {s : σ} {s' : σ'} {post : α → σ → σ' → Prop}

theorem Abreast.bind {f' : α → Fallible σ' ε β'} {post' : β → σ → β' → σ' → Prop}
    (first : Abreast m m' s s' post)
    (next : ∀ a t t', post a t t' → Coupled (exec (f a) t) (exec (f' a) t') post') :
    Coupled (exec (m >>= f) s) (exec (m' >>= f') s') post' := by
  refine Coupled.bind first ?_
  rintro a t _ t' ⟨rfl, holds⟩
  exact next _ t t' holds

/-- The rule for values that are mapped. -/
theorem Abreast.map {f : α → β} {f' : α → β'} {post' : β → σ → β' → σ' → Prop}
    (first : Abreast m m' s s' post) (holds : ∀ a t t', post a t t' → post' (f a) t (f' a) t') :
    Coupled (exec (f <$> m) s) (exec (f' <$> m') s') post' := by
  rw [map_eq_pure_bind, map_eq_pure_bind]
  exact first.bind holds

end Abreast

end Coupled

end Libpcap.Semantics
