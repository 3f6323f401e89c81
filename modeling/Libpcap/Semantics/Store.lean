/-
# Append-only stores

Cells are named by their position and never move; allocation appends a cell and
updates rewrite one in place. Reading outside the store gives the default cell,
so that reading needs no proof; every lemma that depends on the distinction
carries the bound.
-/

import Mathlib.Data.List.Basic

namespace Libpcap.Semantics

open List

universe u

variable {i : Nat}

/-- A store of cells. -/
structure Store (α : Type u) where
  cells : List α
  deriving DecidableEq, Repr

namespace Store

variable {α : Type u} [Inhabited α]

def empty : Store α := ⟨[]⟩

/-- The number of allocated cells; it is also the name of the next one. -/
def size (s : Store α) : Nat := s.cells.length

def get (s : Store α) (i : Nat) : α := s.cells.getD i default

def modify (s : Store α) (i : Nat) (f : α → α) : Store α := ⟨s.cells.modify i f⟩

def set (s : Store α) (i : Nat) (cell : α) : Store α := s.modify i fun _ => cell

/-- A store of equal cells. -/
def replicate (n : Nat) (cell : α) : Store α := ⟨List.replicate n cell⟩

def alloc (s : Store α) (cell : α) : Store α := ⟨s.cells ++ [cell]⟩

omit [Inhabited α] in
@[simp]
theorem size_modify (s : Store α) (i : Nat) (f : α → α) : (s.modify i f).size = s.size := by
  simp [size, modify]

omit [Inhabited α] in
@[simp]
theorem size_alloc (s : Store α) (cell : α) : (s.alloc cell).size = s.size + 1 := by
  simp [size, alloc]

section

variable (s : Store α)
include s

theorem get_modify_self (f : α → α) (inside : i < s.size) : (s.modify i f).get i = f (s.get i) := by
  have found : s.cells[i]? = some s.cells[i] := getElem?_eq_getElem inside
  simp [get, modify, getD_eq_getElem?_getD, found]

theorem get_modify_of_ne {j : Nat} (f : α → α) (different : i ≠ j) :
    (s.modify i f).get j = s.get j := by
  simp [get, modify, getD_eq_getElem?_getD, getElem?_modify_ne f s.cells different]

/-- Reading after a write, at any place. -/
theorem get_modify (f : α → α) (inside : i < s.size) (j : Nat) :
    (s.modify i f).get j = if j = i then f (s.get i) else s.get j := by
  by_cases same : j = i
  · subst same
    rw [if_pos rfl, get_modify_self s f inside]
  · rw [if_neg same, get_modify_of_ne s f (Ne.symm same)]

/-- Reading after the same write at two places, which may be the same one. -/
theorem get_modify_modify {j : Nat} {f : α → α} (idem : ∀ cell, f (f cell) = f cell)
    (insideI : i < s.size) (insideJ : j < s.size) (k : Nat) :
    ((s.modify i f).modify j f).get k = if k = i ∨ k = j then f (s.get k) else s.get k := by
  rw [get_modify _ f ((s.size_modify i f).symm ▸ insideJ)]
  by_cases atJ : k = j
  · subst atJ
    rw [if_pos rfl, if_pos (.inr rfl), s.get_modify f insideI]
    by_cases atI : k = i
    · rw [if_pos atI, idem, atI]
    · rw [if_neg atI]
  · rw [if_neg atJ, s.get_modify f insideI]
    by_cases atI : k = i
    · rw [if_pos atI, if_pos (.inl atI), atI]
    · rw [if_neg atI, if_neg (by simp [atI, atJ])]

theorem get_alloc_of_lt (cell : α) (inside : i < s.size) : (s.alloc cell).get i = s.get i := by
  simp only [get, alloc, getD_eq_getElem?_getD]
  rw [getElem?_append_left inside]

@[simp]
theorem get_alloc_self (cell : α) : (s.alloc cell).get s.size = cell := by
  simp [get, alloc, size, getD_eq_getElem?_getD]

theorem get_alloc (cell : α) (i : Nat) :
    (s.alloc cell).get i = if i = s.size then cell else s.get i := by
  by_cases last : i = s.size
  · rw [if_pos last, last, get_alloc_self]
  · rw [if_neg last]
    by_cases inside : i < s.size
    · exact s.get_alloc_of_lt cell inside
    · have outside : (s.alloc cell).cells.length ≤ i := by
        simp only [alloc, length_append, length_singleton]
        rw [size] at last inside
        omega
      simp [get, getElem?_eq_none outside, getElem?_eq_none (Nat.not_lt.mp inside)]

end

theorem get_replicate (n : Nat) (cell : α) (i : Nat) :
    (replicate n cell).get i = if i < n then cell else default := by
  simp only [get, replicate, getD_eq_getElem?_getD, getElem?_replicate]
  split <;> rfl

end Store

end Libpcap.Semantics
