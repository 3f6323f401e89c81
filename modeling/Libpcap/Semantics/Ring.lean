/-
# Streams in a ring of cells

A stream of items passes through a ring of `size` cells: the item with number `i` is
stored in cell `i % size`. Numbers grow without bound, while the parties that use the
ring exchange residues.

`distance` recovers from two residues how far one number is ahead of another, up to
multiples of the size, and `reach` is the number that a residue stands for if it is
not behind a known one. `Holds` says which items are still in their cells.
-/

import Mathlib.Data.Nat.ModEq
import Mathlib.Logic.Function.Basic

namespace Libpcap.Semantics.Ring

universe u

variable {high low : Nat}

/-! ## Residues -/

/-- How far forward it is from `a` to `b` around the ring. -/
def distance (size a b : Nat) : Nat := (b % size + (size - a % size)) % size

/-- The first number from `a` on that is `b` around the ring. -/
def reach (size a b : Nat) : Nat := a + distance size a b

section Residues

variable {size a b : Nat}

theorem distance_lt (positive : 0 < size) : distance size a b < size :=
  Nat.mod_lt _ positive

theorem distance_congr {a' b' : Nat} (left : a % size = a' % size) (right : b % size = b' % size) :
    distance size a b = distance size a' b' := by
  rw [distance, distance, left, right]

theorem distance_of_le (positive : 0 < size) (le : a ≤ b) : distance size a b = (b - a) % size := by
  have less := Nat.mod_lt a positive
  have total : a % size + (b % size + (size - a % size)) = b % size + size := by omega
  have left : (a + distance size a b) % size = b % size := by
    rw [distance, Nat.add_mod_mod, ← Nat.mod_add_mod, total, Nat.add_mod_right, Nat.mod_mod]
  have right : (a + (b - a)) % size = b % size := by rw [Nat.add_sub_cancel' le]
  have same : distance size a b % size = (b - a) % size :=
    Nat.ModEq.add_left_cancel' a (left.trans right.symm)
  rwa [Nat.mod_eq_of_lt (distance_lt positive)] at same

/-- The residue of a number that is less than a round ahead. -/
theorem reach_eq (ahead : a ≤ b) (less : b < a + size) : reach size a b = b := by
  rw [reach, distance_of_le (by omega) ahead, Nat.mod_eq_of_lt (by omega)]
  omega

theorem reach_congr {b' : Nat} (right : b % size = b' % size) :
    reach size a b = reach size a b' := by
  rw [reach, reach, distance_congr rfl right]

theorem le_reach : a ≤ reach size a b := Nat.le_add_right _ _

/-- The distance of two offsets into the ring, of which the second may be its end. -/
theorem distance_cases (less : a < size) (within : b ≤ size) :
    (a ≤ b ∧ b < a + size ∧ distance size a b + a = b) ∨
      (b < a ∧ distance size a b + a = b + size) ∨
      (a = 0 ∧ b = size ∧ distance size a b = 0) := by
  by_cases ahead : a ≤ b
  · rw [distance_of_le (by omega) ahead]
    by_cases near : b < a + size
    · left
      rw [Nat.mod_eq_of_lt (by omega)]
      omega
    · have all : b - a = size := by omega
      rw [all, Nat.mod_self]
      omega
  · right
    left
    have round : distance size a b = distance size a (b + size) :=
      distance_congr rfl (Nat.add_mod_right b size).symm
    rw [round, distance_of_le (by omega) (by omega), Nat.mod_eq_of_lt (by omega)]
    omega

end Residues

/-! ## Cells -/

section Cells

variable {α : Type u} {size : Nat} {cells stream : Nat → α}

/-- The cells hold the items of the stream from `low` up to `high`. -/
def Holds (size : Nat) (cells stream : Nat → α) (low high : Nat) : Prop :=
  ∀ i, low ≤ i → i < high → cells (i % size) = stream i

/-- Store `n` items of the stream, from the number `first` on. -/
def store (size : Nat) (stream : Nat → α) (first : Nat) : Nat → (Nat → α) → Nat → α
  | 0, cells => cells
  | n + 1, cells =>
    Function.update (store size stream first n cells) ((first + n) % size) (stream (first + n))

section

variable (holds : Holds size cells stream low high)
include holds

theorem Holds.congr {stream' : Nat → α}
    (items : ∀ i, i < high → stream i = stream' i) : Holds size cells stream' low high :=
  fun i above below => (holds i above below).trans (items i below)

theorem Holds.mono {low' high' : Nat}
    (later : low ≤ low') (earlier : high' ≤ high) : Holds size cells stream low' high' :=
  fun i above below => holds i (later.trans above) (below.trans_le earlier)

omit holds in
/-- Two numbers of a window have different cells. -/
theorem mod_ne_of_window {i j : Nat} (iAbove : low ≤ i) (iBelow : i < low + size) (jAbove : low ≤ j)
    (jBelow : j < low + size) (distinct : i ≠ j) : i % size ≠ j % size := by
  intro same
  -- two numbers in one cell are a round apart
  rcases Nat.lt_or_gt_of_ne distinct with less | less
  · have apart : size ∣ j - i := (Nat.modEq_iff_dvd' less.le).mp same
    have := Nat.le_of_dvd (by omega) apart
    omega
  · have apart : size ∣ i - j := (Nat.modEq_iff_dvd' less.le).mp same.symm
    have := Nat.le_of_dvd (by omega) apart
    omega

/-- Writing to a cell does not touch the items that are less than a round behind. -/
theorem Holds.update {number : Nat}
    (later : high ≤ number) (room : number < low + size) (item : α) :
    Holds size (Function.update cells (number % size) item) stream low high := by
  intro i above below
  have apart : i % size ≠ number % size :=
    mod_ne_of_window le_rfl (by omega) (by omega) (by omega) (by omega)
  rw [Function.update_of_ne apart, holds i above below]

/-- Writing the next item. -/
theorem Holds.push (room : high < low + size) :
    Holds size (Function.update cells (high % size) (stream high)) stream low (high + 1) := by
  intro i above below
  by_cases last : i = high
  · rw [last, Function.update_self]
  · exact holds.update le_rfl room _ i above (by omega)

/-- Writing an item that the stream gets at a number of the window. -/
theorem Holds.replace {stream' : Nat → α} {number : Nat}
    (short : high ≤ low + size) (above : low ≤ number) (below : number < high)
    (others : ∀ i, i ≠ number → stream' i = stream i) :
    Holds size (Function.update cells (number % size) (stream' number)) stream' low high := by
  intro i iAbove iBelow
  by_cases here : i = number
  · rw [here, Function.update_self]
  · rw [Function.update_of_ne (mod_ne_of_window iAbove (by omega) above (by omega) here),
      holds i iAbove iBelow, others i here]

end

/-- The window moves on by one: the cell that it leaves is the cell that it reaches. -/
theorem Holds.slide (holds : Holds size cells stream low (low + size)) :
    Holds size (Function.update cells (low % size) (stream (low + size))) stream (low + 1)
      (low + 1 + size) := by
  intro i above below
  by_cases last : i = low + size
  · rw [last, Nat.add_mod_right, Function.update_self]
  · have apart : low % size ≠ i % size :=
      mod_ne_of_window le_rfl (by omega) (by omega) (by omega) (by omega)
    rw [Function.update_of_ne apart.symm, holds i (by omega) (by omega)]

theorem Holds.store {first n : Nat} (holds : Holds size cells stream low first)
    (room : first + n ≤ low + size) :
    Holds size (store size stream first n cells) stream low (first + n) := by
  induction n with
  | zero => exact holds
  | succ n ih => exact (ih (by omega)).push (by omega)

end Cells

end Libpcap.Semantics.Ring
