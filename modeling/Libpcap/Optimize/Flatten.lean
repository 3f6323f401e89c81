/-
# From the flow graph to the instruction array

`icode_to_fcode` lays the blocks of a flow graph out in an array. It works from
the end of the array: `convert_code_r` places the successors of a block before
the block itself, each in front of what has been placed so far. A branch that is
too far for its 8-bit displacement needs an extra unconditional jump; the first
such branch that is found is marked on its block and the whole layout starts
again with more room.

The array is a list of slots, `none` for a slot of the zeroed array that nothing
has been written to.
-/

import Libpcap.Bpf.Filter
import Libpcap.Gencode.Block

namespace Libpcap.Optimize

open Libpcap.Bpf Libpcap.Gencode

/-- How the conversion ends early: `bpf_error`, recursion deeper than the number
of blocks, a write outside the array, or the use of a null pointer. -/
inductive ConvFault
  | error (message : String)
  | loops
  | overrun
  | null
  deriving DecidableEq, Repr

/-- `slength`: the number of statements that are not `NOP`. -/
def slength (s : List Stmt) : Nat := s.countP (·.code ≠ nop)

/-! ## Counting -/

/-- The instructions a block takes, with its extra jumps. -/
def Block.room (b : Block) : Nat := slength b.stmts + 1 + b.longjt + b.longjf

/-- `count_stmts`, with the marked blocks as the last result; the first argument
bounds the depth of the recursion. -/
def countStmtsFor : Nat → Heap → Option BlockId → List BlockId → Nat × List BlockId
  | _, _, none, marked => (0, marked)
  | 0, _, some _, marked => (0, marked)
  | fuel + 1, h, some p, marked =>
    if p ∈ marked then (0, marked)
    else
      let (nt, marked) := countStmtsFor fuel h (h.get p).jt (p :: marked)
      let (nf, marked) := countStmtsFor fuel h (h.get p).jf marked
      (nt + nf + Block.room (h.get p), marked)

/-- `count_stmts` after `unMarkAll` -/
def countStmts (h : Heap) (root : BlockId) : Nat :=
  (countStmtsFor (h.size + 1) h (some root) []).1

/-! ## One block -/

/-- The displacement of a block-local jump from the `off`-th instruction, the
`raw`-th statement, of a block: the target is looked for among the first `slen`
statements of the list. -/
def localJump (slen raw off : Nat) (distance : Int) : Option (BitVec 8) :=
  let target := (raw : Int) + 1 + distance
  if 0 ≤ target ∧ target < slen then some (BitVec.ofInt 8 (target - off - 1)) else none

/-- One statement of a block. -/
def convertStmt (slen raw off : Nat) (s : Stmt) : Except ConvFault Insn :=
  if bpfClass s.code ≠ bpfJmp ∨ s.code = bpfJmp ||| bpfJa then .ok ⟨s.code, 0, 0, s.k⟩
  else if off + 2 = slen then .ok ⟨s.code, 0, 0, s.k⟩
  else
    match s.jt, s.jf with
    | some jt, some jf =>
      match localJump slen raw off jt, localJump slen raw off jf with
      | some dt, some df => .ok ⟨s.code, dt, df, s.k⟩
      | _, _ =>
        .error (.error s!"no destination found for block-local relative jump: off={off}")
    | _, _ => .error (.error s!"no jmp destination for block-local relative jump: off={off}")

/-- The statements of a block from the `raw`-th on; `off` counts those that are
not `NOP`. -/
def convertStmts (slen : Nat) : Nat → Nat → List Stmt → Except ConvFault (List Insn)
  | _, _, [] => .ok []
  | raw, off, s :: rest =>
    if s.code = nop then convertStmts slen (raw + 1) off rest
    else do
      let i ← convertStmt slen raw off s
      let is ← convertStmts slen (raw + 1) (off + 1) rest
      return i :: is

/-- What becomes of a block's branch statement: instructions, or a branch that
is too far and not marked yet (`true` for `JT`). -/
inductive BranchCode
  | code (insns : List Insn)
  | retry (side : Bool)
  deriving DecidableEq, Repr

/-- `off`, the unsigned displacement from the branch at `branch` to `target`. -/
def displacement (target branch : Nat) : Word :=
  BitVec.ofNat 32 target - BitVec.ofNat 32 branch - 1

/-- The branch statement `s` at index `branch` of the array, with targets at the
given offsets, and the extra jumps behind it. -/
def convertBranch (s : Stmt) (longjt longjf : Nat) (branch targetT targetF : Nat) : BranchCode :=
  let offT := displacement targetT branch
  if 256 ≤ offT.toNat ∧ longjt = 0 then .retry true
  else
    let (jt, extraT) : BitVec 8 × List Insn :=
      if 256 ≤ offT.toNat then (0, [⟨bpfJmp ||| bpfJa, 0, 0, offT - 1⟩])
      else (offT.setWidth 8, [])
    let offF := displacement targetF branch
    if 256 ≤ offF.toNat ∧ longjf = 0 then .retry false
    else
      -- if two jumps are inserted, F goes to the second one
      let extrajmps := extraT.length
      let (jf, extraF) : BitVec 8 × List Insn :=
        if 256 ≤ offF.toNat then
          (BitVec.ofNat 8 extrajmps,
            [⟨bpfJmp ||| bpfJa, 0, 0, offF - BitVec.ofNat 32 (extrajmps + 1)⟩])
        else (offF.setWidth 8, [])
      .code (⟨s.code, jt, jf, s.k⟩ :: extraT ++ extraF)

/-! ## The recursion -/

/-- The state of a pass: the blocks, the marked ones, their offsets, the number of
slots in front of what has been placed, and the array. -/
structure Conv where
  heap : Heap
  marked : List BlockId
  offset : BlockId → Nat
  ftail : Nat
  slots : List (Option Insn)

/-- Write instructions from an index on. -/
def writeAt (slots : List (Option Insn)) (dst : Nat) (insns : List Insn) : List (Option Insn) :=
  slots.take dst ++ insns.map some ++ slots.drop (dst + insns.length)

/-- Mark a branch as too far. -/
def markLong (h : Heap) (p : BlockId) (side : Bool) : Heap :=
  h.modify p fun b =>
    if side then { b with longjt := b.longjt + 1 } else { b with longjf := b.longjf + 1 }

/-- The part of `convert_code_r` behind the recursive calls. -/
def convertBlock (p : BlockId) (st : Conv) : Except ConvFault (Bool × Conv) := do
  let b := st.heap.get p
  let slen := slength b.stmts
  if st.ftail < Block.room b then throw .overrun
  let dst := st.ftail - Block.room b
  let offset := Function.update st.offset p dst
  let insns ← convertStmts slen 0 0 b.stmts
  let st := { st with offset, ftail := dst }
  match b.jt with
  | none =>
    let slots := writeAt st.slots dst (insns ++ [⟨b.s.code, 0, 0, b.s.k⟩])
    return (true, { st with slots })
  | some t =>
    match b.jf with
    | none => throw .null
    | some f =>
      match convertBranch b.s b.longjt b.longjf (dst + slen) (offset t) (offset f) with
      | .retry side => return (false, { st with heap := markLong st.heap p side })
      | .code branch =>
        return (true, { st with slots := writeAt st.slots dst (insns ++ branch) })

/-- `convert_code_r`; the first argument bounds the depth of the recursion. -/
def convertCodeR : Nat → Option BlockId → Conv → Except ConvFault (Bool × Conv)
  | _, none, st => .ok (true, st)
  | 0, some _, _ => .error .loops
  | fuel + 1, some p, st =>
    if p ∈ st.marked then .ok (true, st)
    else do
      let (ok, st) ← convertCodeR fuel (st.heap.get p).jf { st with marked := p :: st.marked }
      if ok then
        let (ok, st) ← convertCodeR fuel (st.heap.get p).jt st
        if ok then convertBlock p st else return (false, st)
      else return (false, st)

/-- The zeroed array of `count_stmts` slots that a pass starts with. -/
def Conv.start (h : Heap) (root : BlockId) : Conv where
  heap := h
  marked := []
  offset := fun _ => 0
  ftail := countStmts h root
  slots := List.replicate (countStmts h root) none

/-- The loop of `icode_to_fcode`, for at most the given number of passes: the
array and the blocks as the last pass left them. -/
def icodeToFcodeFor : Nat → Heap → BlockId → Except ConvFault (List (Option Insn) × Heap)
  | 0, _, _ => .error .loops
  | passes + 1, h, root => do
      let (ok, st) ← convertCodeR (h.size + 1) (some root) (.start h root)
      if ok then return (st.slots, st.heap) else icodeToFcodeFor passes st.heap root

/-- `icode_to_fcode`: every pass that fails marks one more of the two branches of
a block. -/
def icodeToFcode (h : Heap) (root : BlockId) : Except ConvFault (List (Option Insn)) :=
  (·.1) <$> icodeToFcodeFor (2 * h.size + 1) h root

end Libpcap.Optimize
