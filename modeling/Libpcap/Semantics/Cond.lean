/-
# Boolean formulas over tests

A formula is built from tests by conjunction, disjunction and negation, and is
evaluated from left to right with short-circuit: a test may change the state it
is evaluated in, and may stop the whole evaluation with a result of its own.

`Cond.Wired` says that the two exits of every test of a graph lead where the
formula sends them. A machine that follows such exits evaluates the formula
(`Cond.Wired.follows`).
-/

import Libpcap.Semantics.StepSystem
import Mathlib.Data.List.Nodup
import Mathlib.Tactic.Tauto

namespace Libpcap.Semantics

open List

universe u v w x y z

/-- A test: it stops with a result, or has an outcome and leaves a state. -/
abbrev Test (σ : Type v) (ρ : Type w) := σ → Except ρ (Bool × σ)

/-- Formulas over tests named by `α`. -/
inductive Cond (α : Type u)
  | leaf (test : α)
  | and (left right : Cond α)
  | or (left right : Cond α)
  | not (inner : Cond α)
  deriving DecidableEq, Repr

namespace Cond

variable {α : Type u} {σ : Type v} {ρ : Type w}

/-- The tests of a formula, from left to right. -/
def leaves : Cond α → List α
  | leaf test => [test]
  | and left right => left.leaves ++ right.leaves
  | or left right => left.leaves ++ right.leaves
  | not inner => inner.leaves

/-- The test that is evaluated first. -/
def first : Cond α → α
  | leaf test => test
  | and left _ => left.first
  | or left _ => left.first
  | not inner => inner.first

/-- Short-circuit evaluation. -/
def eval (run : α → Test σ ρ) : Cond α → Test σ ρ
  | leaf test, state => run test state
  | and left right, state =>
    match left.eval run state with
    | .error result => .error result
    | .ok (true, next) => right.eval run next
    | .ok (false, next) => .ok (false, next)
  | or left right, state =>
    match left.eval run state with
    | .error result => .error result
    | .ok (true, next) => .ok (true, next)
    | .ok (false, next) => right.eval run next
  | not inner, state =>
    match inner.eval run state with
    | .error result => .error result
    | .ok (value, next) => .ok (!value, next)

/-- The value of a formula under an assignment of outcomes. -/
def holds (outcome : α → Bool) : Cond α → Bool
  | leaf test => outcome test
  | and left right => left.holds outcome && right.holds outcome
  | or left right => left.holds outcome || right.holds outcome
  | not inner => !inner.holds outcome

/-- The tests that short-circuit evaluation looks at under an assignment, in
order. -/
def visited (outcome : α → Bool) : Cond α → List α
  | leaf test => [test]
  | and left right =>
    left.visited outcome ++ if left.holds outcome then right.visited outcome else []
  | or left right =>
    left.visited outcome ++ if left.holds outcome then [] else right.visited outcome
  | not inner => inner.visited outcome

theorem first_mem_leaves (c : Cond α) : c.first ∈ c.leaves := by
  induction c with
  | leaf test => exact mem_singleton_self test
  | and left right ihLeft _ | or left right ihLeft _ => exact mem_append_left _ ihLeft
  | not inner ih => exact ih

/-- Under an assignment, evaluation computes the formula's value and looks at
exactly the visited tests. -/
theorem eval_outcome (outcome : α → Bool) (c : Cond α) (trace : List α) :
    c.eval (ρ := ρ) (fun test seen => .ok (outcome test, seen ++ [test])) trace =
      .ok (c.holds outcome, trace ++ c.visited outcome) := by
  induction c generalizing trace with
  | leaf test => rfl
  | and left right ihLeft ihRight | or left right ihLeft ihRight =>
    simp only [eval, ihLeft, holds, visited]
    cases left.holds outcome <;> simp [ihRight]
  | not inner ih => simp only [eval, ih, holds, visited]

/-! ## Graphs wired as a formula -/

variable {δ : Type x} {ε : Type y}

/-- The exits of the formula's tests lead where the formula sends them, given
the places to go to when it is true and when it is false. `link test side place`
says where an exit leads and `node` is the place of a test. -/
def Wired (link : α → Bool → δ → Prop) (node : α → δ) : Cond α → δ → δ → Prop
  | leaf test, onTrue, onFalse => link test true onTrue ∧ link test false onFalse
  | and left right, onTrue, onFalse =>
    left.Wired link node (node right.first) onFalse ∧ right.Wired link node onTrue onFalse
  | or left right, onTrue, onFalse =>
    left.Wired link node onTrue (node right.first) ∧ right.Wired link node onTrue onFalse
  | not inner, onTrue, onFalse => inner.Wired link node onFalse onTrue

/-- Conjunction for `true` and disjunction for `false`: the binary formula whose
right side is evaluated when the left side has the given value. -/
def join (value : Bool) (left right : Cond α) : Cond α :=
  if value then and left right else or left right

@[simp]
theorem leaves_join (value : Bool) (left right : Cond α) :
    (join value left right).leaves = left.leaves ++ right.leaves := by
  cases value <;> rfl

@[simp]
theorem first_join (value : Bool) (left right : Cond α) :
    (join value left right).first = left.first := by
  cases value <;> rfl

theorem wired_join {link : α → Bool → δ → Prop} {node : α → δ} {value : Bool}
    {left right : Cond α} (dest : Bool → δ) :
    (join value left right).Wired link node (dest true) (dest false) ↔
      left.Wired link node (if true = value then node right.first else dest true)
        (if false = value then node right.first else dest false) ∧
      right.Wired link node (dest true) (dest false) := by
  cases value <;> exact Iff.rfl

/-- Redirecting places redirects the wiring. -/
theorem Wired.map {link : α → Bool → δ → Prop} {node : α → δ} {link' : α → Bool → ε → Prop}
    {node' : α → ε} (move : δ → ε) (nodes : ∀ test, move (node test) = node' test)
    {c : Cond α} (links : ∀ test ∈ c.leaves, ∀ side place, link test side place →
      link' test side (move place))
    {onTrue onFalse : δ} (wired : c.Wired link node onTrue onFalse) :
    c.Wired link' node' (move onTrue) (move onFalse) := by
  induction c generalizing onTrue onFalse with
  | leaf test =>
    have mem := mem_singleton_self test
    exact ⟨links test mem _ _ wired.1, links test mem _ _ wired.2⟩
  | and left right ihLeft ihRight | or left right ihLeft ihRight =>
    refine ⟨?_, ihRight (fun test mem => links test (mem_append_right _ mem)) wired.2⟩
    rw [← nodes right.first]
    exact ihLeft (fun test mem => links test (mem_append_left _ mem)) wired.1
  | not inner ih => exact ih links wired

/-- The exits of a wired graph lead out of the formula or to a later test. -/
theorem Wired.forward [DecidableEq α] {link : α → Bool → δ → Prop} {node : α → δ} {c : Cond α}
    (nodup : c.leaves.Nodup) {onTrue onFalse : δ} (wired : c.Wired link node onTrue onFalse)
    {test : α} (mem : test ∈ c.leaves) (side : Bool) :
    ∃ place, link test side place ∧ (place = onTrue ∨ place = onFalse ∨
      ∃ later ∈ c.leaves, place = node later ∧
        c.leaves.idxOf test < c.leaves.idxOf later) := by
  have binary (left right : Cond α) (nodup : (left.leaves ++ right.leaves).Nodup)
      (inLeft inRight : δ)
      (ihLeft : test ∈ left.leaves → ∃ place, link test side place ∧
        ((place = inLeft ∨ place = inRight ∨ place = node right.first) ∨
          ∃ later ∈ left.leaves, place = node later ∧
            left.leaves.idxOf test < left.leaves.idxOf later))
      (ihRight : test ∈ right.leaves → ∃ place, link test side place ∧
        ((place = inLeft ∨ place = inRight) ∨
          ∃ later ∈ right.leaves, place = node later ∧
            right.leaves.idxOf test < right.leaves.idxOf later))
      (mem : test ∈ left.leaves ++ right.leaves) :
      ∃ place, link test side place ∧ (place = inLeft ∨ place = inRight ∨
        ∃ later ∈ left.leaves ++ right.leaves, place = node later ∧
          (left.leaves ++ right.leaves).idxOf test <
            (left.leaves ++ right.leaves).idxOf later) := by
    obtain ⟨_, _, disjoint⟩ := nodup_append'.mp nodup
    rcases mem_append.mp mem with inside | inside
    · obtain ⟨place, leads, where_⟩ := ihLeft inside
      refine ⟨place, leads, ?_⟩
      rw [idxOf_append_of_mem inside]
      rcases where_ with (out | out | next) | ⟨later, found, atLater, before⟩
      · exact .inl out
      · exact .inr (.inl out)
      · have first := right.first_mem_leaves
        refine .inr (.inr ⟨right.first, mem_append_right _ first, next, ?_⟩)
        rw [idxOf_append_of_notMem fun wrong => disjoint wrong first]
        have bound := idxOf_lt_length_of_mem inside
        omega
      · refine .inr (.inr ⟨later, mem_append_left _ found, atLater, ?_⟩)
        rw [idxOf_append_of_mem found]
        exact before
    · obtain ⟨place, leads, where_⟩ := ihRight inside
      refine ⟨place, leads, ?_⟩
      rw [idxOf_append_of_notMem fun wrong => disjoint wrong inside]
      rcases where_ with (out | out) | ⟨later, found, atLater, before⟩
      · exact .inl out
      · exact .inr (.inl out)
      · refine .inr (.inr ⟨later, mem_append_right _ found, atLater, ?_⟩)
        rw [idxOf_append_of_notMem fun wrong => disjoint wrong found]
        omega
  induction c generalizing onTrue onFalse with
  | leaf only =>
    rw [leaves, mem_singleton] at mem
    subst mem
    cases side with
    | true => exact ⟨onTrue, wired.1, .inl rfl⟩
    | false => exact ⟨onFalse, wired.2, .inr (.inl rfl)⟩
  | and left right ihLeft ihRight | or left right ihLeft ihRight =>
    obtain ⟨nodupLeft, nodupRight, _⟩ := nodup_append'.mp nodup
    refine binary left right nodup onTrue onFalse ?_ ?_ mem
    · intro inside
      obtain ⟨place, leads, where_⟩ := ihLeft nodupLeft wired.1 inside
      exact ⟨place, leads, by tauto⟩
    · intro inside
      obtain ⟨place, leads, where_⟩ := ihRight nodupRight wired.2 inside
      exact ⟨place, leads, by tauto⟩
  | not inner ih =>
    obtain ⟨place, leads, where_⟩ := ih nodup wired mem
    exact ⟨place, leads, by tauto⟩

/-- The machine evaluates tests at its places: from the place of a test it stops
where the test stops, and otherwise comes to the place that the outcome names. -/
structure Follows {τ : Type z} (step : Step τ ρ) (place : α → σ → τ) (run : α → Test σ ρ)
    (link : α → Bool → α → Prop) (c : Cond α) : Prop where
  stop : ∀ test ∈ c.leaves, ∀ state result, run test state = .error result →
    step.Stops (place test state) result
  move : ∀ test ∈ c.leaves, ∀ state side next, run test state = .ok (side, next) →
    ∀ target, link test side target → step.Reaches (place test state) (place target next)

section Follows

variable {τ : Type z} {step : Step τ ρ} {place : α → σ → τ} {run : α → Test σ ρ}
  {link : α → Bool → α → Prop}

theorem Follows.of_leaves {c part : Cond α} (machine : Follows step place run link c)
    (inside : ∀ test ∈ part.leaves, test ∈ c.leaves) : Follows step place run link part :=
  ⟨fun test mem => machine.stop test (inside test mem),
    fun test mem => machine.move test (inside test mem)⟩

/-- A machine on a wired graph evaluates the formula: from its first test it
stops as the evaluation stops, or reaches the place of the formula's value. -/
theorem Wired.follows {c : Cond α} (machine : Follows step place run link c)
    {onTrue onFalse : α} (wired : c.Wired link id onTrue onFalse) (state : σ) :
    match c.eval run state with
    | .error result => step.Stops (place c.first state) result
    | .ok (value, next) =>
      step.Reaches (place c.first state) (place (if value then onTrue else onFalse) next) := by
  induction c generalizing onTrue onFalse state with
  | leaf test =>
    have mem := mem_singleton_self test
    simp only [eval, first]
    cases outcome : run test state with
    | error result => exact machine.stop test mem state result outcome
    | ok answer =>
      obtain ⟨value, next⟩ := answer
      have target : link test value (if value then onTrue else onFalse) := by
        cases value with
        | true => exact wired.1
        | false => exact wired.2
      exact machine.move test mem state value next outcome _ target
  | and left right ihLeft ihRight | or left right ihLeft ihRight =>
    have onLeft : Follows step place run link left :=
      machine.of_leaves fun _ => mem_append_left _
    have onRight : Follows step place run link right :=
      machine.of_leaves fun _ => mem_append_right _
    have begins := ihLeft onLeft wired.1 state
    simp only [eval, first]
    rcases outcome : left.eval run state with result | ⟨value, next⟩
    · simpa only [outcome] using begins
    · have continues := ihRight onRight wired.2 next
      simp only [outcome] at begins
      -- one value decides, the other one goes on with the right side
      cases value <;> first
        | exact begins
        | simp only [if_true, Bool.false_eq_true, if_false, id_eq] at begins ⊢
          split at continues
          · exact continues.of_reaches begins
          · exact begins.trans continues
  | not inner ih =>
    have inside := ih ⟨machine.stop, machine.move⟩ wired state
    simp only [eval, first]
    rcases outcome : inner.eval run state with result | ⟨value, next⟩
    · simpa only [outcome] using inside
    · simp only [outcome] at inside
      cases value <;> exact inside

/-- What every test hands back to its place from the place it leads to, the
formula hands back to its first test. -/
theorem Wired.backward (goal : τ → Prop) (place : α → σ → τ) (run : α → Test σ ρ) {c : Cond α}
    (stop : ∀ test ∈ c.leaves, ∀ state result, run test state = .error result →
      goal (place test state))
    (move : ∀ test ∈ c.leaves, ∀ state side next, run test state = .ok (side, next) →
      ∀ target, link test side target → goal (place target next) → goal (place test state))
    {onTrue onFalse : α} (wired : c.Wired link id onTrue onFalse) {state : σ}
    (after : ∀ value next, c.eval run state = .ok (value, next) →
      goal (place (if value then onTrue else onFalse) next)) :
    goal (place c.first state) := by
  induction c generalizing onTrue onFalse state with
  | leaf test =>
    have mem := mem_singleton_self test
    cases outcome : run test state with
    | error result => exact stop test mem state result outcome
    | ok answer =>
      obtain ⟨value, next⟩ := answer
      have target : link test value (if value then onTrue else onFalse) := by
        cases value with
        | true => exact wired.1
        | false => exact wired.2
      exact move test mem state value next outcome _ target (after value next outcome)
  | and left right ihLeft ihRight | or left right ihLeft ihRight =>
    refine ihLeft (fun test mem => stop test (mem_append_left _ mem))
      (fun test mem => move test (mem_append_left _ mem)) wired.1 ?_
    intro value next ran
    simp only [eval, ran] at after
    cases value <;> first
      | exact after _ next rfl
      | exact ihRight (fun test mem => stop test (mem_append_right _ mem))
          (fun test mem => move test (mem_append_right _ mem)) wired.2 after
  | not inner ih =>
    refine ih stop move wired ?_
    intro value next ran
    have negated := after (!value) next (by simp only [eval, ran])
    cases value <;> exact negated

end Follows

/-! ## Renaming tests -/

/-- The formula over renamed tests. -/
def map {β : Type y} (f : α → β) : Cond α → Cond β
  | leaf test => leaf (f test)
  | and left right => and (left.map f) (right.map f)
  | or left right => or (left.map f) (right.map f)
  | not inner => not (inner.map f)

theorem leaves_map {β : Type y} (f : α → β) (c : Cond α) : (c.map f).leaves = c.leaves.map f := by
  induction c with
  | leaf test => rfl
  | and left right ihLeft ihRight | or left right ihLeft ihRight =>
    simp only [map, leaves, ihLeft, ihRight, map_append]
  | not inner ih => exact ih

theorem first_map {β : Type y} (f : α → β) (c : Cond α) : (c.map f).first = f c.first := by
  induction c with
  | leaf test => rfl
  | and left right ihLeft _ | or left right ihLeft _ => exact ihLeft
  | not inner ih => exact ih

theorem map_eq_and {β : Type y} {f : α → β} {c : Cond α} {left right : Cond β}
    (shape : c.map f = and left right) :
    ∃ l r, c = and l r ∧ l.map f = left ∧ r.map f = right := by
  cases c with
  | and l r =>
    obtain ⟨isLeft, isRight⟩ := and.inj shape
    exact ⟨l, r, rfl, isLeft, isRight⟩
  | leaf test | or l r | not inner => cases shape

theorem map_congr {β : Type y} {f f' : α → β} {c : Cond α}
    (same : ∀ test ∈ c.leaves, f test = f' test) : c.map f = c.map f' := by
  induction c with
  | leaf test => exact congrArg leaf (same test (mem_singleton_self test))
  | and left right ihLeft ihRight | or left right ihLeft ihRight =>
    simp only [map, ihLeft fun test mem => same test (mem_append_left _ mem),
      ihRight fun test mem => same test (mem_append_right _ mem)]
  | not inner ih => exact congrArg not (ih same)

theorem eval_map {β : Type y} (f : α → β) (run : β → Test σ ρ) (c : Cond α) :
    (c.map f).eval run = c.eval fun test => run (f test) := by
  induction c with
  | leaf test => rfl
  | and left right ihLeft ihRight | or left right ihLeft ihRight =>
    funext state
    simp only [map, eval, ihLeft, ihRight]
  | not inner ih =>
    funext state
    simp only [map, eval, ih]

end Cond

end Libpcap.Semantics
