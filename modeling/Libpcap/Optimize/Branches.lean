/-
# Moving branches

In its first phase the optimizer also changes where edges lead. `opt_j` looks at the tests
that lie on every way to an edge: if one of them decides the test at the end of the edge, the
edge is moved on to where that test would go. `or_pullup` and `and_pullup` reorder a chain of
tests so that tests of the same value stand next to each other.

`opt_blks` is one pass over the graph. The analyses it uses are those of the graph at the
start of the pass, also after edges have been moved.
-/

import Libpcap.Optimize.Peephole

namespace Libpcap.Optimize

open Libpcap.Bpf Libpcap.Gencode Libpcap.Semantics

instance : Inhabited Vals := ⟨.unknown⟩

/-- The graph during a pass, with `val`, `oval` and the `code` of the edges of each block. -/
structure Graph where
  heap : Heap
  val : Store Vals
  oval : Store Nat
  code : Store Code
  sym : Sym
  deriving Repr

namespace Graph

/-- `done = 0` -/
def undo (g : Graph) : Graph := { g with sym := g.sym.undo }

/-- `ep->succ` -/
def succ (g : Graph) (ep : Exit) : Option BlockId := g.heap.exit ep.1 ep.2

/-- Assign to `ep->succ`, and ask for another pass. -/
def move (g : Graph) (ep : Exit) (target : Option BlockId) : Graph :=
  { g with heap := g.heap.setExit ep.1 ep.2 target }.undo

/-- The value number in the accumulator at the end of a block. -/
def aVal (g : Graph) (b : BlockId) : Nat := (g.val.get b).get aAtom

/-! ## Edges -/

def useConflict (g : Graph) (an : Analysis) (b succ : BlockId) : Bool :=
  (List.range nAtoms).any fun atom =>
    (an.outUse.get succ).mem atom && (g.val.get b).get atom != (g.val.get succ).get atom

def foldEdge (g : Graph) (child : BlockId) (ep : Exit) : Option BlockId :=
  if (g.heap.get child).s.code ≠ g.code.get ep.1 then none
  else if g.aVal child ≠ g.aVal ep.1 then none
  else if g.oval.get child = g.oval.get ep.1 then g.heap.exit child ep.2
  else if ep.2 ∧ g.code.get ep.1 = bpfJmp ||| bpfJeq ||| bpfK then g.heap.exit child false
  else none

/-- The edges that dominate an edge, in the order in which `opt_j` looks at them. -/
def dominating (an : Analysis) (ep : Exit) : List Exit :=
  ((List.range (2 * an.blocks.length)).filter (an.edom.get ep).mem).map (edgeAt an.blocks)

/-- The loop at `top` of `opt_j`; the first argument bounds the number of moves. -/
def followEdge (an : Analysis) (ep : Exit) : Nat → Graph → Except Fault Graph
  | 0, _ => .error .loops
  | fuel + 1, g =>
    match g.succ ep with
    | none => .error .null
    | some child =>
      let targets := (dominating an ep).filterMap (g.foldEdge child)
      match targets.find? fun target => !g.useConflict an ep.1 target with
      | none => .ok g
      | some target =>
        let g := g.move ep (some target)
        if (g.heap.get target).jt.isSome then followEdge an ep fuel g else .ok g

def optJ (an : Analysis) (g : Graph) (ep : Exit) : Except Fault Graph :=
  match g.succ ep with
  | none => .error .null
  | some child =>
    match (g.heap.get child).jt with
    | none => .ok g
    | some target =>
      let g :=
        if (g.heap.get child).jf = some target ∧ !g.useConflict an ep.1 target then
          g.move ep (some target)
        else g
      followEdge an ep (g.heap.size + 1) g

/-! ## Chains of tests -/

/-- `find_inedges`: the edges that lead to each block, the last one found first. -/
def findInedges (h : Heap) (down : List BlockId) : Store (List Exit) :=
  down.foldl (fun edges b =>
    match (h.get b).jt, (h.get b).jf with
    | some t, some f => (edges.modify t ((b, true) :: ·)).modify f ((b, false) :: ·)
    | _, _ => edges) (.replicate h.size [])

/-- What the two loops of a pull-up ask of a block of the chain, before they look at its
value: it is there, shares an exit with `b`, and is dominated by `b`. -/
def inChain (g : Graph) (an : Analysis) (shared : Bool) (b : BlockId) (place : Exit) :
    Option BlockId := do
  let here ← g.succ place
  guard (g.heap.exit here shared = g.heap.exit b shared)
  guard ((an.dom.get here).mem (an.blocks.idxOf b))
  return here

/-- Go down the chain until the value in the accumulator is, or is not, `val`. The result is
the edge to the block found, or nothing where the source returns. -/
def findInChain (g : Graph) (an : Analysis) (shared : Bool) (b : BlockId) (val : Nat)
    (same : Bool) : Nat → Exit → Except Fault (Option Exit)
  | 0, _ => .error .loops
  | fuel + 1, place =>
    match g.inChain an shared b place with
    | none => .ok none
    | some here =>
      if decide (g.aVal here = val) = same then .ok (some place)
      else findInChain g an shared b val same fuel (here, !shared)

/-- `or_pullup` for the exits `JT` that a chain shares, and `and_pullup` for the exits `JF`. -/
def pullup (shared : Bool) (an : Analysis) (inedges : Store (List Exit)) (g : Graph)
    (b : BlockId) : Except Fault Graph := do
  match inedges.get b with
  | [] => return g
  | first :: rest =>
    let val := g.aVal first.1
    if rest.any fun ep => g.aVal ep.1 != val then return g
    let start : Exit := (first.1, (g.heap.get first.1).jt = some b)
    match ← g.findInChain an shared b val false (g.heap.size + 1) start with
    | none => return g
    | some diffp =>
      match g.succ diffp with
      | none => throw .null
      | some diff =>
        match ← g.findInChain an shared b val true (g.heap.size + 1) (diff, !shared) with
        | none => return g
        | some samep =>
          match g.succ samep with
          | none => throw .null
          | some pull =>
            let g := g.move samep (g.heap.exit pull (!shared))
            let g := g.move (pull, !shared) (some diff)
            if diffp = start then
              return (first :: rest).foldl (fun g ep =>
                g.move (ep.1, (g.heap.get ep.1).jt = some b) (some pull)) g
            else return g.move diffp (some pull)

def orPullup : Analysis → Store (List Exit) → Graph → BlockId → Except Fault Graph := pullup true

def andPullup : Analysis → Store (List Exit) → Graph → BlockId → Except Fault Graph := pullup false

/-! ## A pass -/

/-- `opt_blk` on a block of the graph. -/
def optBlkAt (doStmts : Bool) (an : Analysis) (inedges : Store (List Exit)) (g : Graph)
    (b : BlockId) : Except Fault Graph := do
  let entry := entryVals ((inedges.get b).map fun ep => g.val.get ep.1)
  let (block, val, oval, sym) ← optBlk doStmts (an.outUse.get b) entry (g.heap.get b) g.sym
  return {
    heap := g.heap.modify b fun _ => block
    val := g.val.set b val
    oval := g.oval.set b oval
    code := g.code.set b block.s.code
    sym }

def optBlks (doStmts : Bool) (an : Analysis) (h : Heap) : Except Fault Graph := do
  let g : Graph := {
    heap := h
    val := .replicate h.size .unknown
    oval := .replicate h.size 0
    code := .replicate h.size 0
    sym := ⟨.init, true⟩ }
  let g ← an.down.foldlM (optBlkAt doStmts an (findInedges h an.down)) g
  if doStmts then return g
  let g ← an.up.foldlM (fun g b => do optJ an (← optJ an g (b, true)) (b, false)) g
  let inedges := findInedges g.heap an.down
  an.up.foldlM (fun g b => do andPullup an inedges (← orPullup an inedges g b) b) g

end Graph

end Libpcap.Optimize
