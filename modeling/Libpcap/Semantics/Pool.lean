/-
# Pools of resources

A pool hands out resources under fresh numbers and takes them back. A number that was
taken back stays wherever it was stored, so what matters is whether a stored number is
still live. When several owners store the numbers that they were given, no two of them
have the same one.
-/

import Mathlib.Logic.Function.Basic

namespace Libpcap.Semantics

open Function

/-- The resources with numbers below `next` were handed out. -/
structure Pool where
  next : Nat
  released : Nat → Bool

namespace Pool

variable (pool : Pool) (i j : Nat)

/-- Handed out and not taken back. -/
def live : Bool := i < pool.next ∧ pool.released i = false

/-- Hand out the resource with the number `next`. -/
def alloc : Pool where
  next := pool.next + 1
  released := Function.update pool.released pool.next false

/-- Take a resource back. -/
def release : Pool := { pool with released := Function.update pool.released i true }

/-- A pool that handed out nothing. -/
def empty : Pool := ⟨0, fun _ => false⟩

variable {pool i j}

theorem live_iff : pool.live i = true ↔ i < pool.next ∧ pool.released i = false := by
  simp [live]

theorem live_alloc_next (pool : Pool) : pool.alloc.live pool.next = true := by
  simp [live, alloc]

theorem live_alloc (before : pool.live i = true) : pool.alloc.live i = true := by
  obtain ⟨below, kept⟩ := live_iff.mp before
  exact live_iff.mpr ⟨Nat.lt_succ_of_lt below, (update_of_ne (Nat.ne_of_lt below) _ _).trans kept⟩

theorem live_release_of_ne (before : pool.live i = true) (other : i ≠ j) :
    (pool.release j).live i = true := by
  obtain ⟨below, kept⟩ := live_iff.mp before
  exact live_iff.mpr ⟨below, (update_of_ne other _ _).trans kept⟩

end Pool

/-- The numbers that owners store were handed out, each to one owner. -/
structure Owned {ι : Type*} (pool : Pool) (owns : ι → Option Nat) : Prop where
  below : ∀ n i, owns n = some i → i < pool.next
  unique : ∀ n k i, owns n = some i → owns k = some i → n = k

namespace Owned

variable {ι : Type*} {pool : Pool} {owns owns' : ι → Option Nat}

/-- Owners that store nothing. -/
theorem none (pool : Pool) : Owned pool fun _ : ι => none where
  below := nofun
  unique := nofun

/-- An owner is handed a resource. -/
theorem alloc [DecidableEq ι] (owned : Owned pool owns) (n : ι) :
    Owned pool.alloc (update owns n (some pool.next)) := by
  have fresh : ∀ k i, k ≠ n → update owns n (some pool.next) k = some i → i < pool.next := by
    intro k i other stores
    rw [update_of_ne other] at stores
    exact owned.below k i stores
  constructor
  case below =>
    intro k i stores
    by_cases here : k = n
    · subst here
      rw [update_self] at stores
      cases stores
      exact Nat.lt_succ_self _
    · exact Nat.lt_succ_of_lt (fresh k i here stores)
  case unique =>
    intro k l i first second
    by_cases atK : k = n <;> by_cases atL : l = n
    · exact atK.trans atL.symm
    · subst atK
      rw [update_self] at first
      cases first
      exact absurd (fresh l _ atL second) (Nat.lt_irrefl _)
    · subst atL
      rw [update_self] at second
      cases second
      exact absurd (fresh k _ atK first) (Nat.lt_irrefl _)
    · rw [update_of_ne atK] at first
      rw [update_of_ne atL] at second
      exact owned.unique k l i first second

/-- Owners keep a number after it was taken back. -/
theorem release (owned : Owned pool owns) (i : Nat) : Owned (pool.release i) owns :=
  ⟨owned.below, owned.unique⟩

/-- Taking back what one owner has does not concern the others. -/
theorem live_release (owned : Owned pool owns) {n k : ι} {i j : Nat} (takes : owns n = some i)
    (stores : owns k = some j) (other : k ≠ n) (before : pool.live j = true) :
    (pool.release i).live j = true := by
  refine Pool.live_release_of_ne before fun same => ?_
  subst same
  exact other (owned.unique k n j stores takes)

end Owned

end Libpcap.Semantics
