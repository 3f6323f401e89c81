/-
# Statements, blocks and the block heap

The intermediate form of the filter compiler (`gencode.h`): a block is a list of
statements followed by a branch statement, and blocks refer to each other. In
the source they are structures linked by pointers and mutated in place; here a
block is named by its allocation number, and the heap is the store of all blocks
allocated so far.

A statement may jump inside its own statement list. The source keeps a pointer
to the target statement; the model keeps the distance, counted in statements of
the list from the statement after the jump, which is unchanged when lists are
appended.
-/

import Libpcap.Bpf.Insn
import Libpcap.Semantics.Store

namespace Libpcap.Gencode

open Libpcap.Bpf Libpcap.Semantics

/-- `NOP`, the code of a statement the optimizer has deleted. -/
def nop : Code := 0xffff

/-- `struct stmt`; `jt` and `jf` are the block-local jump targets. -/
structure Stmt where
  code : Code
  jt : Option Int := none
  jf : Option Int := none
  k : Word := 0
  deriving DecidableEq, Repr, Inhabited

/-- A block, by its allocation number. -/
abbrev BlockId := Nat

/-- `struct block`, without the fields that only the optimizer uses. -/
structure Block where
  stmts : List Stmt := []
  s : Stmt
  sense : Bool := false
  jt : Option BlockId := none
  jf : Option BlockId := none
  head : BlockId
  longjt : Nat := 0
  longjf : Nat := 0
  deriving DecidableEq, Repr, Inhabited

/-- One of the two exits of a block: `true` is `JT`, `false` is `JF`. -/
abbrev Exit := BlockId × Bool

/-- The blocks allocated so far. `patched` has no counterpart in the source: it
records, in order, the exits that `backpatch` has written. -/
structure Heap where
  store : Store Block
  patched : List Exit
  deriving DecidableEq, Repr

namespace Heap

def empty : Heap := ⟨.empty, []⟩

def size (h : Heap) : Nat := h.store.size

def get (h : Heap) (b : BlockId) : Block := h.store.get b

def modify (h : Heap) (b : BlockId) (f : Block → Block) : Heap :=
  { h with store := h.store.modify b f }

/-- `JT(b)` or `JF(b)`. -/
def exit (h : Heap) (b : BlockId) (side : Bool) : Option BlockId :=
  if side then (h.get b).jt else (h.get b).jf

/-- Assign to `JT(b)` or `JF(b)`. -/
def setExit (h : Heap) (b : BlockId) (side : Bool) (target : Option BlockId) : Heap :=
  h.modify b fun block =>
    if side then { block with jt := target } else { block with jf := target }

/-- `b->sense = !b->sense` -/
def flip (h : Heap) (b : BlockId) : Heap :=
  h.modify b fun block => { block with sense := !block.sense }

def setHead (h : Heap) (b head : BlockId) : Heap :=
  h.modify b fun block => { block with head := head }

def setStmts (h : Heap) (b : BlockId) (stmts : List Stmt) : Heap :=
  h.modify b fun block => { block with stmts := stmts }

/-- `new_block`, with the statements and the branch constant its callers assign
right after. -/
def newBlock (h : Heap) (code : Code) (k : Word := 0) (stmts : List Stmt := []) : Heap × BlockId :=
  ({ h with store := h.store.alloc { stmts, s := { code, k }, head := h.size } }, h.size)

def logPatch (h : Heap) (e : Exit) : Heap := { h with patched := h.patched ++ [e] }

/-! ## Reading after writing -/

section

variable (h : Heap) (code : Code) (k : Word) (stmts : List Stmt)

include h code k stmts

@[simp]
theorem newBlock_snd :
    (h.newBlock code k stmts).2 = h.size := rfl

@[simp]
theorem size_newBlock :
    (h.newBlock code k stmts).1.size = h.size + 1 :=
  h.store.size_alloc _

theorem get_newBlock_of_lt {c : BlockId}
    (inside : c < h.size) : (h.newBlock code k stmts).1.get c = h.get c :=
  h.store.get_alloc_of_lt _ inside

@[simp]
theorem get_newBlock_self :
    (h.newBlock code k stmts).1.get h.size = { stmts, s := { code, k }, head := h.size } :=
  h.store.get_alloc_self _

end

section Reading

variable (h : Heap) {b : BlockId} (inside : b < h.size)

@[simp]
theorem size_modify (f : Block → Block) : (h.modify b f).size = h.size := by
  simp [size, modify]

@[simp]
theorem size_setExit (side : Bool) (target : Option BlockId) :
    (h.setExit b side target).size = h.size := by
  simp [setExit]

@[simp]
theorem size_flip : (h.flip b).size = h.size := by
  simp [flip]

@[simp]
theorem size_setStmts (stmts : List Stmt) : (h.setStmts b stmts).size = h.size := by
  simp [setStmts]

include inside in
theorem get_modify (f : Block → Block) (c : BlockId) :
    (h.modify b f).get c = if c = b then f (h.get b) else h.get c :=
  h.store.get_modify f inside c

theorem get_modify_of_ne (f : Block → Block) {c : BlockId} (different : c ≠ b) :
    (h.modify b f).get c = h.get c :=
  h.store.get_modify_of_ne f (Ne.symm different)

include inside in
theorem exit_setExit (side : Bool) (target : Option BlockId) (c : BlockId) (other : Bool) :
    (h.setExit b side target).exit c other =
      if (c, other) = (b, side) then target else h.exit c other := by
  simp only [exit, setExit, h.get_modify inside, Prod.mk.injEq]
  by_cases same : c = b
  · subst same
    cases side <;> cases other <;> simp
  · simp [same]

include inside in
theorem sense_flip (c : BlockId) :
    ((h.flip b).get c).sense = if c = b then !(h.get c).sense else (h.get c).sense := by
  rw [flip, h.get_modify inside]
  split
  · rename_i same
    subst same
    rfl
  · rfl

include inside in
theorem exit_flip (c : BlockId) (side : Bool) : (h.flip b).exit c side = h.exit c side := by
  simp only [exit, flip, h.get_modify inside]
  by_cases same : c = b
  · subst same
    simp
  · simp [same]

include inside in
theorem head_flip (c : BlockId) : ((h.flip b).get c).head = (h.get c).head := by
  rw [flip, h.get_modify inside]
  split
  · rename_i same
    subst same
    rfl
  · rfl

/-- Assigning the statements of a block keeps everything else. -/
theorem get_setStmts (stmts : List Stmt) (c : BlockId) :
    (h.setStmts b stmts).get c =
      { h.get c with stmts := if c = b ∧ b < h.size then stmts else (h.get c).stmts } := by
  by_cases inside : b < h.size
  · rw [setStmts, h.get_modify inside]
    by_cases same : c = b
    · subst same
      simp [inside]
    · simp [same]
  · by_cases same : c = b
    · subst same
      simp only [inside, and_false, if_false]
      simp only [setStmts, modify, get, Store.get, Store.modify]
      rw [List.modify_eq_self (Nat.not_lt.mp inside)]
    · rw [setStmts, h.get_modify_of_ne _ same]
      simp [same]

theorem exit_setStmts (stmts : List Stmt) (c : BlockId) (side : Bool) :
    (h.setStmts b stmts).exit c side = h.exit c side := by
  simp [exit, get_setStmts]

end Reading

end Heap

end Libpcap.Gencode
