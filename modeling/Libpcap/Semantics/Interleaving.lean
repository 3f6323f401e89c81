/-
# Parties that take turns

Several parties share a state, and each of their actions is an event that may or may
not be possible in a state. A run is a sequence of possible events in any order, so
what is shown for all runs is shown for all interleavings.
-/

import Mathlib.Logic.Relation

namespace Libpcap.Semantics

universe u v

/-- What an event makes of a state: `none` where it is not possible. -/
abbrev Transition (ε : Type u) (σ : Type v) := ε → σ → Option σ

namespace Transition

variable {ε : Type u} {σ : Type v}

/-- One event. -/
def Moves (m : Transition ε σ) (source target : σ) : Prop := ∃ event, m event source = some target

/-- Any number of events. -/
def Reaches (m : Transition ε σ) : σ → σ → Prop := Relation.ReflTransGen m.Moves

/-- Any number of events, each of them admitted in the state where it happens. -/
def ReachesBy (m : Transition ε σ) (admitted : ε → σ → Prop) : σ → σ → Prop :=
  Relation.ReflTransGen fun source target =>
    ∃ event, admitted event source ∧ m event source = some target

/-- The events of a list, in their order. -/
def run (m : Transition ε σ) : List ε → σ → Option σ
  | [], state => some state
  | event :: events, state =>
    match m event state with
    | some next => run m events next
    | none => none

/-- The events of a list, as long as they are admitted. -/
def runBy (m : Transition ε σ) (admitted : ε → σ → Bool) : List ε → σ → Option σ
  | [], state => some state
  | event :: events, state =>
    if admitted event state then (m event state).bind (runBy m admitted events) else none

variable {m : Transition ε σ} {admitted : ε → σ → Prop} {start state : σ}

theorem Reaches.refl (state : σ) : m.Reaches state state := Relation.ReflTransGen.refl

theorem reaches_of_run {events : List ε}
    (ran : m.run events start = some state) : m.Reaches start state := by
  induction events generalizing start with
  | nil =>
    cases ran
    exact Reaches.refl _
  | cons event events ih =>
    rw [run] at ran
    cases move : m event start with
    | none =>
      rw [move] at ran
      cases ran
    | some next =>
      rw [move] at ran
      exact Relation.ReflTransGen.head ⟨event, move⟩ (ih ran)

/-- The invariant rule. -/
theorem Reaches.invariant {Inv : σ → Prop}
    (preserved : ∀ event source target, Inv source → m event source = some target → Inv target)
    (path : m.Reaches start state) (initial : Inv start) : Inv state := by
  induction path with
  | refl => exact initial
  | tail _ move ih =>
    obtain ⟨event, move⟩ := move
    exact preserved event _ _ ih move

theorem ReachesBy.refl (state : σ) : m.ReachesBy admitted state state :=
  Relation.ReflTransGen.refl

theorem ReachesBy.tail {start source target : σ} {event : ε}
    (path : m.ReachesBy admitted start source) (admits : admitted event source)
    (move : m event source = some target) : m.ReachesBy admitted start target :=
  Relation.ReflTransGen.tail path ⟨event, admits, move⟩

/-- A run of events that are admitted everywhere. -/
theorem reachesBy_of_run {events : List ε}
    (admits : ∀ event ∈ events, ∀ source, admitted event source)
    (ran : m.run events start = some state) : m.ReachesBy admitted start state := by
  induction events generalizing start with
  | nil =>
    cases ran
    exact ReachesBy.refl _
  | cons event events ih =>
    rw [run] at ran
    cases move : m event start with
    | none =>
      rw [move] at ran
      cases ran
    | some next =>
      rw [move] at ran
      have rest := ih (fun other within => admits other (List.mem_cons_of_mem _ within)) ran
      exact Relation.ReflTransGen.head ⟨event, admits event List.mem_cons_self start, move⟩ rest

/-- A run of events that are admitted where they happen. -/
theorem reachesBy_of_runBy {admits : ε → σ → Bool} {events : List ε}
    (sound : ∀ event source, admits event source = true → admitted event source)
    (ran : m.runBy admits events start = some state) : m.ReachesBy admitted start state := by
  induction events generalizing start with
  | nil =>
    cases ran
    exact ReachesBy.refl _
  | cons event events ih =>
    rw [runBy] at ran
    split at ran
    case isTrue admits' =>
      obtain ⟨next, move, rest⟩ := Option.bind_eq_some_iff.mp ran
      exact Relation.ReflTransGen.head ⟨event, sound event start admits', move⟩ (ih rest)
    case isFalse => cases ran

/-- The invariant rule for runs of admitted events. -/
theorem ReachesBy.invariant {Inv : σ → Prop}
    (preserved : ∀ event source target, Inv source → admitted event source →
      m event source = some target → Inv target)
    (path : m.ReachesBy admitted start state) (initial : Inv start) :
    Inv state := by
  induction path with
  | refl => exact initial
  | tail _ move ih =>
    obtain ⟨event, admits, move⟩ := move
    exact preserved event _ _ ih admits move

end Transition

end Libpcap.Semantics
