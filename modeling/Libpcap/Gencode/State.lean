/-
# The state of the code generator

The static variables of `gencode.c` that code generation reads and writes, the
monad its functions run in, and the allocator of scratch registers. A register
number is an index of the machine's scratch memory; `reg_off_ll` and
`reg_off_macpl` are `-1` in the source until a register is assigned, which is
`none` here.
-/

import Libpcap.Bpf.Filter
import Libpcap.Gencode.Boolean
import Libpcap.Gencode.Linktype
import Libpcap.Semantics.Runs

namespace Libpcap.Gencode

open Libpcap.Bpf Libpcap.Semantics

variable {g g' : Gen} {r : Reg} {u : Unit}

/-- A scratch register. -/
abbrev Reg := Fin memWords

/-- The static variables of the generator. -/
structure Gen where
  heap : Heap
  root : Option BlockId
  snaplen : Word
  layout : Layout
  noOptimize : Bool
  regOffLl : Option Reg
  regOffMacpl : Option Reg
  regused : Reg → Bool
  curreg : Reg
  /-- A history variable: the registers `alloc_reg` has handed out, the latest first. -/
  handed : List Reg

/-- The generator when `pcap_compile` starts to parse: no block is allocated and
no register is in use. -/
def Gen.start (layout : Layout) (snaplen : Word) : Gen where
  heap := .empty
  root := none
  snaplen := snaplen
  layout := layout
  noOptimize := false
  regOffLl := none
  regOffMacpl := none
  regused := fun _ => false
  curreg := ⟨0, by decide⟩
  handed := []

/-- The generator with another block heap. -/
def Gen.withHeap (g : Gen) (heap : Heap) : Gen := { g with heap }

/-- How code generation ends early: `bpf_error`, `abort`, a loop that does not
end, or the use of a null pointer. -/
inductive Fault
  | error (message : String)
  | abort
  | loops
  | null
  deriving DecidableEq, Repr

/-- Code generation. -/
abbrev GenM := StateT Gen (Except Fault)

def bpfError {α : Type} (message : String) : GenM α := throw (.error message)

/-- The variables of the link type. -/
def layout : GenM Layout := do return (← get).layout

/-- Run an operation on the block heap. -/
def onHeap (f : Heap → Option Heap) : GenM Unit := do
  let g ← get
  match f g.heap with
  | some heap => set (g.withHeap heap)
  | none => throw .loops

/-- `new_block`, with the assignments its callers make to the new block. -/
def newBlock (code : Code) (k : Word) (stmts : List Stmt) : GenM BlockId := do
  let g ← get
  let (heap, b) := g.heap.newBlock code k stmts
  set (g.withHeap heap)
  return b

/-- `new_stmt`, with the constant its callers assign. -/
def newStmt (code : Code) (k : Word) : Stmt := { code, k }

def genAnd (b0 b1 : BlockId) : GenM Unit := onHeap (·.genAnd b0 b1)

def genOr (b0 b1 : BlockId) : GenM Unit := onHeap (·.genOr b0 b1)

def genNot (b : BlockId) : GenM Unit := modify fun g => g.withHeap (g.heap.genNot b)

def genRetblk (v : Word) : GenM BlockId := newBlock (bpfRet ||| bpfK) v []

/-- `JMP(c)` -/
def jmp (c : Code) : Code := c ||| bpfJmp ||| bpfK

def swaplong (y : Word) : Word :=
  ((y &&& 0xff) <<< 24) ||| ((y &&& 0xff00) <<< 8) ||| ((y &&& 0xff0000) >>> 8) |||
    ((y >>> 24) &&& 0xff)

/-! ## Runs of the heap operations -/

theorem runs_onHeap_iff {f : Heap → Option Heap} :
    Runs (onHeap f) g u g' ↔ ∃ heap, f g.heap = some heap ∧ g' = g.withHeap heap := by
  rw [onHeap, runs_get_bind_iff]
  constructor
  · intro ran
    cases outcome : f g.heap with
    | none =>
      rw [outcome] at ran
      exact absurd ran not_runs_throw
    | some heap =>
      rw [outcome] at ran
      exact ⟨heap, rfl, (runs_set_iff.mp ran).symm⟩
  · rintro ⟨heap, outcome, rfl⟩
    rw [outcome]
    rfl

theorem runs_genAnd_iff {b0 b1 : BlockId} :
    Runs (genAnd b0 b1) g u g' ↔
      ∃ heap, g.heap.genAnd b0 b1 = some heap ∧ g' = g.withHeap heap :=
  runs_onHeap_iff

theorem runs_genOr_iff {b0 b1 : BlockId} :
    Runs (genOr b0 b1) g u g' ↔
      ∃ heap, g.heap.genOr b0 b1 = some heap ∧ g' = g.withHeap heap :=
  runs_onHeap_iff

theorem runs_newBlock_iff {code : Code} {k : Word} {stmts : List Stmt} {b : BlockId} :
    Runs (newBlock code k stmts) g b g' ↔
      b = g.heap.size ∧ g' = g.withHeap (g.heap.newBlock code k stmts).1 := by
  constructor
  · intro ran
    cases ran
    exact ⟨rfl, rfl⟩
  · rintro ⟨rfl, rfl⟩
    rfl

theorem runs_genNot_iff {b : BlockId} :
    Runs (genNot b) g u g' ↔ g' = g.withHeap (g.heap.genNot b) := by
  rw [genNot, runs_modify_iff]
  exact eq_comm

/-! ## Scratch registers -/

/-- The loop of `alloc_reg`: `n` turns are left. -/
def allocRegFor : Nat → (Reg → Bool) → Reg → Option Reg
  | 0, _, _ => none
  | n + 1, regused, curreg =>
    if regused curreg then
      allocRegFor n regused ⟨(curreg.val + 1) % memWords, Nat.mod_lt _ (by decide)⟩
    else some curreg

def allocReg : GenM Reg := do
  let g ← get
  match allocRegFor memWords g.regused g.curreg with
  | some r =>
    set { g with regused := Function.update g.regused r true, curreg := r,
                 handed := r :: g.handed }
    return r
  | none => bpfError "too many registers needed to evaluate expression"

def freeReg (n : Reg) : GenM Unit :=
  modify fun g => { g with regused := Function.update g.regused n false }

def initRegs : GenM Unit :=
  modify fun g => { g with curreg := ⟨0, by decide⟩, regused := fun _ => false }

theorem allocRegFor_free {n : Nat} {regused : Reg → Bool} {curreg : Reg}
    (found : allocRegFor n regused curreg = some r) : regused r = false := by
  induction n generalizing curreg with
  | zero => cases found
  | succ n ih =>
    rw [allocRegFor] at found
    split at found
    · exact ih found
    · rename_i free
      cases found
      simpa using free

/-- The generator after `alloc_reg` has handed out a register. -/
def Gen.withAlloc (g : Gen) (r : Reg) : Gen :=
  { g with regused := Function.update g.regused r true, curreg := r, handed := r :: g.handed }

/-- The register that `alloc_reg` hands out, if there is one. -/
def Gen.nextReg (g : Gen) : Option Reg := allocRegFor memWords g.regused g.curreg

theorem runs_allocReg_iff : Runs allocReg g r g' ↔ g.nextReg = some r ∧ g' = g.withAlloc r := by
  rw [allocReg, runs_get_bind_iff]
  constructor
  · intro ran
    cases found : allocRegFor memWords g.regused g.curreg with
    | none =>
      rw [found] at ran
      exact absurd ran not_runs_throw
    | some r' =>
      simp only [found, runs_bind_iff, runs_set_iff, runs_pure_iff] at ran
      obtain ⟨_, _, rfl, rfl, rfl⟩ := ran
      exact ⟨found, rfl⟩
  · rintro ⟨found, rfl⟩
    rw [Gen.nextReg] at found
    simp only [found]
    rfl

theorem Gen.nextReg_free (found : g.nextReg = some r) : g.regused r = false :=
  allocRegFor_free found

/-- The generator after `free_reg`. -/
def Gen.withFree (g : Gen) (n : Reg) : Gen :=
  { g with regused := Function.update g.regused n false }

theorem runs_freeReg_iff {n : Reg} : Runs (freeReg n) g u g' ↔ g' = g.withFree n := by
  rw [freeReg, runs_modify_iff]
  exact eq_comm

/-- The register as the constant of a statement. -/
def Reg.word (r : Reg) : Word := BitVec.ofNat 32 r.val

end Libpcap.Gencode
