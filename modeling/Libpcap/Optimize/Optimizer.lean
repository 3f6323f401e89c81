/-
# The optimizer

`bpf_optimize` repeats passes over the graph until one of them changes nothing, first
without and then with rewriting of statements, makes equal blocks one block, and skips tests
at the root that do not matter. The number of passes has no bound in the source; here it is
an argument.
-/

import Libpcap.Optimize.Branches
import Libpcap.Optimize.Flatten

namespace Libpcap.Optimize

open Libpcap.Bpf Libpcap.Gencode Libpcap.Semantics

/-! ## The passes -/

/-- One turn of the loop of `opt_loop`: the graph, and `done`. -/
def optPass (doStmts : Bool) (blocks : List BlockId) (root : BlockId) (h : Heap) :
    Except Fault (Heap × Bool) := do
  let an ← analyse blocks h root
  let g ← Graph.optBlks doStmts an h
  return (g.heap, g.sym.done)

/-- `opt_loop`, for a number of passes. -/
def optLoop (doStmts : Bool) (blocks : List BlockId) (root : BlockId) :
    Nat → Heap → Except Fault Heap
  | 0, _ => .error .loops
  | passes + 1, h => do
      let (h, done) ← optPass doStmts blocks root h
      if done then return h else optLoop doStmts blocks root passes h

/-! ## Equal blocks -/

/-- `make_marks`: the blocks that are alive. -/
def makeMarks : Nat → Heap → Option BlockId → List BlockId → Except Fault (List BlockId)
  | _, _, none, _ => .error .null
  | 0, _, some _, _ => .error .loops
  | fuel + 1, h, some p, marked =>
    if p ∈ marked then .ok marked
    else if bpfClass (h.get p).s.code = bpfRet then .ok (p :: marked)
    else do
      let marked ← makeMarks fuel h (h.get p).jt (p :: marked)
      makeMarks fuel h (h.get p).jf marked

def eqSlist (x y : List Stmt) : Bool :=
  (x.filter (·.code ≠ nop)).map (fun s => (s.code, s.k)) ==
    (y.filter (·.code ≠ nop)).map fun s => (s.code, s.k)

def eqBlk (b0 b1 : Block) : Bool :=
  b0.s.code == b1.s.code && b0.s.k == b1.s.k && b0.jt == b1.jt && b0.jf == b1.jf &&
    eqSlist b0.stmts b1.stmts

/-- The first loop of `intern_blocks`, for the block at a position: a later block that is
equal, or the one that stands for that. -/
def internLink (h : Heap) (blocks marked : List BlockId) (link : Store (Option BlockId))
    (i : Nat) : Store (Option BlockId) :=
  let b := blocks.getD i 0
  if b ∈ marked then
    match (blocks.drop (i + 1)).find? fun c => c ∈ marked ∧ eqBlk (h.get b) (h.get c) with
    | some c => link.set b (some ((link.get c).getD c))
    | none => link
  else link

/-- The second loop of `intern_blocks`, for an exit of a block. -/
def internExit (link : Store (Option BlockId)) (side : Bool) (p : BlockId) (st : Heap × Bool) :
    Heap × Bool :=
  match (st.1.exit p side).bind link.get with
  | some target => (st.1.setExit p side (some target), false)
  | none => st

/-- One turn of `intern_blocks` from `top` on: the graph, and `done1`. -/
def internPass (blocks : List BlockId) (root : BlockId) (h : Heap) : Except Fault (Heap × Bool) := do
  let marked ← makeMarks (h.size + 1) h (some root) []
  let link := (List.range (blocks.length - 1)).reverse.foldl (internLink h blocks marked)
    (.replicate h.size none)
  return blocks.foldl (fun st p => internExit link false p (internExit link true p st)) (h, true)

/-- `intern_blocks`; the first argument bounds the number of turns. -/
def internBlocks (blocks : List BlockId) (root : BlockId) : Nat → Heap → Except Fault Heap
  | 0, _ => .error .loops
  | turns + 1, h => do
      let (h, done) ← internPass blocks root h
      if done then return h else internBlocks blocks root turns h

/-! ## The root -/

/-- The loop of `opt_root`. -/
def skipRoot (h : Heap) : Nat → BlockId → Except Fault BlockId
  | 0, _ => .error .loops
  | fuel + 1, b =>
    if bpfClass (h.get b).s.code = bpfJmp ∧ (h.get b).jt = (h.get b).jf then
      match (h.get b).jt with
      | some b => skipRoot h fuel b
      | none => .error .null
    else .ok b

def optRoot (h : Heap) (root : BlockId) : Except Fault (Heap × BlockId) := do
  let s := (h.get root).stmts
  let h := h.setStmts root []
  let root ← skipRoot h (h.size + 1) root
  let tmp := (h.get root).stmts
  -- `sappend` follows the list of the old root
  if s = [] ∧ tmp ≠ [] then throw .null
  let stmts := if bpfClass (h.get root).s.code = bpfRet then [] else s ++ tmp
  return (h.setStmts root stmts, root)

/-! ## The whole -/

/-- `bpf_optimize`, with the numbers of passes of its two phases. -/
def bpfOptimize (passes0 passes1 : Nat) (h : Heap) (root : BlockId) :
    Except Fault (Heap × BlockId) := do
  let blocks ← numberBlksR (h.size + 1) h (some root) []
  let h ← optLoop false blocks root passes0 h
  let h ← optLoop true blocks root passes1 h
  let h ← internBlocks blocks root (2 * blocks.length + 1) h
  optRoot h root

end Libpcap.Optimize
