/-
# Deterministic step systems

A machine is given by one function that either moves a state on or stops with
a result. This module supplies the vocabulary that every machine of the
development shares: reachability, stopping, the fuel-indexed runner, the
invariant rule, the termination rule for a decreasing measure, and forward
simulation between two machines.

Because the step is a function, stopping results are unique, and a simulation
that answers each source step by at least one target step transports stopping
in both directions.
-/

import Mathlib.Data.Fintype.Pigeonhole
import Mathlib.Logic.Relation
import Mathlib.Tactic.ByContra
import Mathlib.Tactic.Choose

namespace Libpcap.Semantics

open Relation

universe u v w

variable {fuel : Nat}

/-- What one step does: move to another state, or stop with a result. -/
inductive Next (σ : Type u) (ρ : Type v)
  | go (next : σ)
  | stop (result : ρ)
  deriving DecidableEq, Repr

/-- A deterministic machine over states `σ` with results `ρ`. -/
abbrev Step (σ : Type u) (ρ : Type v) := σ → Next σ ρ

namespace Step

variable {σ : Type u} {ρ : Type v} {τ : Type w}

/-- One move of the machine, as a relation. -/
def Moves (step : Step σ ρ) (source target : σ) : Prop :=
  step source = .go target

/-- Reachability by any number of moves. -/
def Reaches (step : Step σ ρ) : σ → σ → Prop :=
  Relation.ReflTransGen step.Moves

/-- The machine started in a state eventually stops with the given result. -/
def Stops (step : Step σ ρ) (start : σ) (result : ρ) : Prop :=
  ∃ last, step.Reaches start last ∧ step last = .stop result

/-- Run for at most the given number of steps. -/
def runFor (step : Step σ ρ) : Nat → σ → Next σ ρ
  | 0, state => .go state
  | fuel + 1, state =>
    match step state with
    | .go next => runFor step fuel next
    | .stop result => .stop result

variable {step : Step σ ρ} {other : Step τ ρ} {start : σ} {result : ρ}

/-- One more step at the end of a bounded run. -/
theorem runFor_succ (fuel : Nat) (start : σ) :
    step.runFor (fuel + 1) start =
      match step.runFor fuel start with
      | .go state => step state
      | .stop result => .stop result := by
  induction fuel generalizing start with
  | zero =>
    simp only [runFor]
    cases step start <;> rfl
  | succ fuel ih =>
    rw [runFor]
    cases outcome : step start with
    | go next =>
      simp only [runFor, outcome]
      exact ih next
    | stop result => simp only [runFor, outcome]

theorem Reaches.refl (state : σ) : step.Reaches state state :=
  ReflTransGen.refl

theorem Reaches.trans {first second third : σ} (left : step.Reaches first second)
    (right : step.Reaches second third) : step.Reaches first third :=
  ReflTransGen.trans left right

theorem Reaches.head {first second third : σ} (move : step first = .go second)
    (rest : step.Reaches second third) : step.Reaches first third :=
  ReflTransGen.head move rest

theorem Reaches.single {first second : σ} (move : step first = .go second) :
    step.Reaches first second :=
  ReflTransGen.single move

/-- The invariant rule: what holds at the start and survives every move holds in
every reachable state. -/
theorem Reaches.invariant {Inv : σ → Prop}
    (preserved : ∀ source target, Inv source → step source = .go target → Inv target)
    {start state : σ} (path : step.Reaches start state) (initial : Inv start) :
    Inv state := by
  induction path with
  | refl => exact initial
  | tail _ move ih => exact preserved _ _ ih move

/-- A stopped state has no successor, so what it reaches is itself. -/
theorem Reaches.eq_of_stop {first last : σ}
    (stopped : step first = .stop result) (path : step.Reaches first last) :
    last = first := by
  obtain rfl | ⟨next, move, _⟩ := ReflTransGen.cases_head path
  · rfl
  · exact absurd (stopped.symm.trans move) (by simp)

theorem stops_of_step (stopped : step start = .stop result) : step.Stops start result :=
  ⟨start, .refl start, stopped⟩

theorem Stops.of_reaches {start middle : σ}
    (path : step.Reaches start middle) (rest : step.Stops middle result) :
    step.Stops start result := by
  obtain ⟨last, reached, stopped⟩ := rest
  exact ⟨last, path.trans reached, stopped⟩

/-- Stopping commutes with one move. -/
theorem stops_iff_of_move {start next : σ} (move : step start = .go next) :
    step.Stops start result ↔ step.Stops next result := by
  constructor
  · rintro ⟨last, path, stopped⟩
    obtain rfl | ⟨middle, first, rest⟩ := ReflTransGen.cases_head path
    · exact absurd (stopped.symm.trans move) (by simp)
    · have same : middle = next := by
        have both : Next.go middle = (Next.go next : Next σ ρ) := first.symm.trans move
        exact Next.go.inj both
      exact ⟨last, same ▸ rest, stopped⟩
  · exact Stops.of_reaches (Reaches.single move)

theorem stops_iff_of_stop {result other : ρ}
    (stopped : step start = .stop other) : step.Stops start result ↔ other = result := by
  constructor
  · rintro ⟨last, path, atLast⟩
    rw [path.eq_of_stop stopped, stopped] at atLast
    exact Next.stop.inj atLast
  · rintro rfl
    exact stops_of_step stopped

/-- States with the same step stop alike. -/
theorem stops_iff_of_eq {start other : σ} (same : step start = step other) :
    step.Stops start result ↔ step.Stops other result := by
  cases outcome : step other with
  | go next => rw [stops_iff_of_move (same.trans outcome), stops_iff_of_move outcome]
  | stop ended => rw [stops_iff_of_stop (same.trans outcome), stops_iff_of_stop outcome]

/-- Reachable states do not change what the machine stops with. -/
theorem Reaches.stops_iff {start middle : σ}
    (path : step.Reaches start middle) :
    step.Stops start result ↔ step.Stops middle result := by
  induction path with
  | refl => exact Iff.rfl
  | tail _ move ih => exact ih.trans (stops_iff_of_move move)

/-- A machine stops with at most one result. -/
theorem Stops.unique {result other : ρ} (stops : step.Stops start result)
    (again : step.Stops start other) : result = other := by
  obtain ⟨last, path, stopped⟩ := stops
  exact (stops_iff_of_stop stopped).mp (path.stops_iff.mp again)

/-- Every state of the run from `start` satisfies `P`. -/
def Always (step : Step σ ρ) (P : σ → Prop) (start : σ) : Prop :=
  ∀ state, step.Reaches start state → P state

theorem always_of_stop {P : σ → Prop}
    (stopped : step start = .stop result) (here : P start) : step.Always P start := by
  intro state path
  rw [path.eq_of_stop stopped]
  exact here

theorem always_of_move {P : σ → Prop} {start next : σ} (move : step start = .go next)
    (here : P start) (later : step.Always P next) : step.Always P start := by
  intro state path
  obtain rfl | ⟨middle, first, rest⟩ := ReflTransGen.cases_head path
  · exact here
  · have same : middle = next := Next.go.inj (Eq.trans (Eq.symm first) move)
    exact later state (same ▸ rest)

/-- Whether the machine stops within the fuel and every state until then satisfies `P`. -/
def checksFor (step : Step σ ρ) (P : σ → Bool) : Nat → σ → Bool
  | 0, _ => false
  | fuel + 1, state =>
    P state &&
      match step state with
      | .go next => checksFor step P fuel next
      | .stop _ => true

theorem always_of_checksFor {P : σ → Bool}
    (checked : step.checksFor P fuel start = true) : step.Always (fun state => P state) start := by
  induction fuel generalizing start with
  | zero => cases checked
  | succ fuel ih =>
    obtain ⟨here, later⟩ := (Bool.and_eq_true _ _).mp checked
    cases outcome : step start with
    | go next =>
      rw [outcome] at later
      exact always_of_move outcome here (ih later)
    | stop result => exact always_of_stop outcome here

theorem reaches_of_runFor {start last : σ} (ran : step.runFor fuel start = .go last) :
    step.Reaches start last := by
  induction fuel generalizing start with
  | zero =>
    cases ran
    exact .refl _
  | succ fuel ih =>
    rw [runFor] at ran
    cases move : step start with
    | go next =>
      rw [move] at ran
      exact .head move (ih ran)
    | stop result =>
      rw [move] at ran
      cases ran

/-- The fuel-indexed runner finds exactly the stopping results. -/
theorem stops_iff_runFor :
    step.Stops start result ↔ ∃ fuel, step.runFor fuel start = .stop result := by
  constructor
  · rintro ⟨last, path, stopped⟩
    induction path using ReflTransGen.head_induction_on with
    | refl => exact ⟨1, by simp only [runFor, stopped]⟩
    | head move _ ih =>
      obtain ⟨fuel, ran⟩ := ih
      refine ⟨fuel + 1, ?_⟩
      rw [Moves] at move
      simp only [runFor, move, ran]
  · rintro ⟨fuel, ran⟩
    induction fuel generalizing start with
    | zero => simp [runFor] at ran
    | succ fuel ih =>
      cases outcome : step start with
      | go next =>
        rw [runFor, outcome] at ran
        exact (stops_iff_of_move outcome).mpr (ih ran)
      | stop value =>
        rw [runFor, outcome] at ran
        exact stops_of_step (outcome.trans ran)

/-- The termination rule: inside an invariant, a measure that every move
decreases bounds the number of steps until the machine stops. -/
theorem runFor_stops_of_measure {Inv : σ → Prop} (measure : σ → Nat)
    (preserved : ∀ source target, Inv source → step source = .go target → Inv target) (decreases : ∀
      source target, Inv source → step source = .go target → measure target < measure source)
    (initial : Inv start) (enough : measure start < fuel) :
    ∃ result, step.runFor fuel start = .stop result := by
  induction fuel generalizing start with
  | zero => exact absurd enough (Nat.not_lt_zero _)
  | succ fuel ih =>
    cases outcome : step start with
    | stop value => exact ⟨value, by simp only [runFor, outcome]⟩
    | go next =>
      have smaller := decreases start next initial outcome
      obtain ⟨result, ran⟩ :=
        ih (preserved start next initial outcome) (by omega)
      exact ⟨result, by simp only [runFor, outcome, ran]⟩

/-- Fuel that suffices at the start of a path suffices at its end. -/
theorem Reaches.runFor_stop {start last : σ} (path : step.Reaches start last)
    (ran : step.runFor fuel start = .stop result) :
    ∃ used, used ≤ fuel ∧ step.runFor used last = .stop result := by
  induction path using ReflTransGen.head_induction_on generalizing fuel with
  | refl => exact ⟨fuel, Nat.le_refl _, ran⟩
  | head move _ ih =>
    cases fuel with
    | zero => simp [runFor] at ran
    | succ fuel =>
      rw [Moves] at move
      rw [runFor, move] at ran
      obtain ⟨used, fewer, rest⟩ := ih ran
      exact ⟨used, by omega, rest⟩

/-- A run that never stops, state by state. -/
def Endless (step : Step σ ρ) (start : σ) : Prop :=
  ∃ trace : Nat → σ, trace 0 = start ∧ ∀ n, step (trace n) = .go (trace (n + 1))

/-- Either a machine stops, or it has an endless run. -/
theorem stops_iff_not_endless : (∃ result, step.Stops start result) ↔ ¬ step.Endless start := by
  constructor
  · rintro ⟨result, last, path, stopped⟩ ⟨trace, begins, moves⟩
    -- the path runs along the trace
    have kept : ∀ source target, (∃ n, trace n = source) → step source = .go target →
        ∃ n, trace n = target := by
      rintro _ target ⟨n, rfl⟩ move
      exact ⟨n + 1, Next.go.inj ((moves n).symm.trans move)⟩
    obtain ⟨n, onTrace⟩ := path.invariant kept ⟨0, begins⟩
    rw [← onTrace, moves n] at stopped
    cases stopped
  · intro endless
    by_contra never
    apply endless
    have runs : ∀ n, ∃ state, step.runFor n start = .go state := by
      intro n
      cases outcome : step.runFor n start with
      | go state => exact ⟨state, rfl⟩
      | stop result => exact absurd ⟨result, stops_iff_runFor.mpr ⟨n, outcome⟩⟩ never
    choose trace reached using runs
    refine ⟨trace, (Next.go.inj (reached 0)).symm, fun n => ?_⟩
    have further := reached (n + 1)
    rw [runFor_succ, reached n] at further
    exact further

/-- The machine comes to a state to which it comes back. -/
def Circular (step : Step σ ρ) (start : σ) : Prop :=
  ∃ state next, step.Reaches start state ∧ step state = .go next ∧ step.Reaches next state

/-- A machine with finitely many states stops, or it runs in a circle. -/
theorem stops_iff_not_circular [Finite σ] :
    (∃ result, step.Stops start result) ↔ ¬ step.Circular start := by
  constructor
  · rintro ⟨result, stops⟩ ⟨state, next, path, move, back⟩
    obtain ⟨fuel, ran⟩ := stops_iff_runFor.mp (path.stops_iff.mp stops)
    -- going once around the circle leaves less fuel
    induction fuel using Nat.strong_induction_on with
    | h fuel ih =>
      cases fuel with
      | zero => simp [runFor] at ran
      | succ fuel =>
        rw [runFor, move] at ran
        obtain ⟨used, fewer, again⟩ := back.runFor_stop ran
        exact ih used (by omega) again
  · intro noCircle
    rw [stops_iff_not_endless]
    rintro ⟨trace, begins, moves⟩
    have along : ∀ i n, step.Reaches (trace i) (trace (i + n)) := by
      intro i n
      induction n with
      | zero => exact .refl _
      | succ n ih => exact ih.trans (.single (moves (i + n)))
    have circle : ∀ i j, i < j → trace i = trace j → step.Circular start := by
      intro i j before same
      have toStart := along 0 i
      have around := along (i + 1) (j - (i + 1))
      rw [Nat.zero_add, begins] at toStart
      rw [Nat.add_sub_of_le before, ← same] at around
      exact ⟨trace i, trace (i + 1), toStart, moves i, around⟩
    apply noCircle
    obtain ⟨i, j, different, same⟩ := Finite.exists_ne_map_eq_of_infinite trace
    rcases Nat.lt_or_gt_of_ne different with before | after
    · exact circle i j before same
    · exact circle j i after same.symm

/-! ## Observed results -/

/-- The machine, with what is observed of its results. -/
def observe {ω : Type w} (see : ρ → ω) (step : Step σ ρ) : Step σ ω := fun state =>
  match step state with
  | .go next => .go next
  | .stop result => .stop (see result)

section

variable {ω : Type w} {see : ρ → ω}

theorem observe_go {state next : σ} :
    step.observe see state = .go next ↔ step state = .go next := by
  unfold observe
  cases step state <;> simp

theorem observe_stop {state : σ} {seen : ω} :
    step.observe see state = .stop seen ↔ ∃ result, step state = .stop result ∧ see result = seen := by
  unfold observe
  cases step state <;> simp

/-- Observing results does not change a run. -/
theorem reaches_observe {start state : σ} :
    (step.observe see).Reaches start state ↔ step.Reaches start state := by
  have moves : (step.observe see).Moves = step.Moves := by
    funext source target
    exact propext observe_go
  rw [Reaches, Reaches, moves]

theorem stops_observe {seen : ω} :
    (step.observe see).Stops start seen ↔ ∃ result, step.Stops start result ∧ see result = seen := by
  constructor
  · rintro ⟨last, path, stopped⟩
    obtain ⟨result, ended, rfl⟩ := observe_stop.mp stopped
    exact ⟨result, ⟨last, reaches_observe.mp path, ended⟩, rfl⟩
  · rintro ⟨result, ⟨last, path, stopped⟩, rfl⟩
    exact ⟨last, reaches_observe.mpr path, observe_stop.mpr ⟨result, stopped, rfl⟩⟩

/-! ## Forward simulation -/

end

/-- `related` is a forward simulation: a source move is answered by at least one
target move, and a source stop by the same stop. -/
structure Simulates (step : Step σ ρ) (other : Step τ ρ) (related : σ → τ → Prop) :
    Prop where
  move : ∀ {source : σ} {target : τ} {next : σ}, related source target →
    step source = .go next →
    ∃ first last, other target = .go first ∧ other.Reaches first last ∧ related next last
  stop : ∀ {source : σ} {target : τ} {result : ρ}, related source target →
    step source = .stop result → other.Stops target result

section

variable {related : σ → τ → Prop} (sim : Simulates step other related)

include sim

/-- A simulation carries stopping from the source to the target. -/
theorem Simulates.stops
    {source : σ} {target : τ} (start : related source target)
    (stops : step.Stops source result) : other.Stops target result := by
  obtain ⟨last, path, stopped⟩ := stops
  induction path using ReflTransGen.head_induction_on generalizing target with
  | refl => exact sim.stop start stopped
  | head move _ ih =>
    obtain ⟨first, next, begins, continues, again⟩ := sim.move start move
    exact Stops.of_reaches (.head begins continues) (ih again)

private theorem simulates_runFor (fuel : Nat) :
    ∀ {source : σ} {target : τ}, related source target →
      other.runFor fuel target = .stop result → step.Stops source result := by
  -- Strong induction on the target's fuel: each source move uses up at least one
  -- target step, so the source cannot keep moving after the target has stopped.
  induction fuel using Nat.strongRecOn with
  | ind fuel ih =>
    intro source target start ran
    cases outcome : step source with
    | stop value =>
      obtain ⟨last, path, atLast⟩ := sim.stop start outcome
      have targetStops : other.Stops target result := stops_iff_runFor.mpr ⟨fuel, ran⟩
      have same : value = result :=
        (stops_iff_of_stop atLast).mp (path.stops_iff.mp targetStops)
      exact stops_of_step (outcome.trans (congrArg Next.stop same))
    | go next =>
      obtain ⟨first, last, begins, continues, again⟩ := sim.move start outcome
      cases fuel with
      | zero => simp [runFor] at ran
      | succ fuel =>
        rw [runFor, begins] at ran
        obtain ⟨used, fewer, rest⟩ := continues.runFor_stop ran
        exact (stops_iff_of_move outcome).mpr (ih used (by omega) again rest)

/-- Under a simulation the two machines stop with exactly the same results; in
particular one runs forever when the other does. -/
theorem Simulates.stops_iff {source : σ} {target : τ}
    (start : related source target) :
    step.Stops source result ↔ other.Stops target result := by
  constructor
  · exact sim.stops start
  · intro stops
    obtain ⟨fuel, ran⟩ := stops_iff_runFor.mp stops
    exact simulates_runFor sim fuel start ran

end

/-- Two machines that do the same in every state of a run have the same run. -/
theorem stops_congr {other : Step σ ρ}
    (same : step.Always (fun state => other state = step state) start) :
    step.Stops start result ↔ other.Stops start result := by
  have sim : Simulates step other fun source target => target = source ∧
      step.Always (fun state => other state = step state) source := by
    constructor
    case move =>
      rintro _ source next ⟨rfl, same⟩ moved
      refine ⟨next, next, (same source (.refl source)).trans moved, .refl next, rfl, ?_⟩
      exact fun state path => same state (.head moved path)
    case stop =>
      rintro _ source result ⟨rfl, same⟩ stopped
      exact stops_of_step ((same source (.refl source)).trans stopped)
  exact sim.stops_iff ⟨rfl, same⟩

end Step

end Libpcap.Semantics
