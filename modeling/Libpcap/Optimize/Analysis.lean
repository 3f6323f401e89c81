/-
# Analyses of the flow graph

At the start of every pass the optimizer computes the level of each block (the
longest way to a return), the blocks that dominate it, the edges that dominate
each edge, and the atoms that are in use behind it. The sets are bit vectors:
blocks and edges are named in them by the numbers `opt_init` gives them, the edge
to `JT` by the number of its block and the edge to `JF` by that number plus the
number of blocks.

The passes go over the blocks by level, and do not compute the analyses again when
they change the graph.
-/

import Libpcap.Optimize.ValueNumbers

namespace Libpcap.Optimize

open Libpcap.Bpf Libpcap.Gencode Libpcap.Semantics

variable {other set : Bits} {k : Nat}

/-! ## Bit vectors -/

/-- `uset` and `atomset` -/
abbrev Bits := Nat

/-- The set of all numbers below `n`. -/
def Bits.full (n : Nat) : Bits := 2 ^ n - 1

/-- `SET_MEMBER`, `ATOMELEM` -/
def Bits.mem (set : Bits) (a : Nat) : Bool := Nat.testBit set a

/-- `SET_INSERT` -/
def Bits.insert (set : Bits) (a : Nat) : Bits := set ||| 1 <<< a

/-- `set &~ other` -/
def Bits.without (set other : Bits) : Bits := set ^^^ (set &&& other)

theorem Bits.mem_full {n : Nat} : (Bits.full n).mem k ↔ k < n := by
  rw [Bits.mem, Bits.full, Nat.testBit_two_pow_sub_one, decide_eq_true_eq]

theorem Bits.mem_insert {a : Nat} : (set.insert a).mem k ↔ k = a ∨ set.mem k := by
  rw [Bits.mem, Bits.insert, Nat.testBit_or, Bool.or_eq_true, Nat.one_shiftLeft,
    Nat.testBit_two_pow, decide_eq_true_eq, or_comm, eq_comm]
  rfl

theorem Bits.mem_and : Bits.mem (set &&& other) k ↔ set.mem k ∧ other.mem k := by
  rw [Bits.mem, Nat.testBit_and, Bool.and_eq_true]
  rfl

theorem Bits.mem_or : Bits.mem (set ||| other) k ↔ set.mem k ∨ other.mem k := by
  rw [Bits.mem, Nat.testBit_or, Bool.or_eq_true]
  rfl

theorem Bits.mem_without : (set.without other).mem k ↔ set.mem k ∧ ¬ other.mem k := by
  simp only [Bits.mem, Bits.without, Nat.testBit_xor, Nat.testBit_and]
  cases Nat.testBit set k <;> cases Nat.testBit other k <;> simp

/-! ## Numbering -/

/-- `number_blks_r`, with the blocks numbered so far; the first argument bounds the
depth of the recursion. -/
def numberBlksR : Nat → Heap → Option BlockId → List BlockId → Except Fault (List BlockId)
  | _, _, none, blocks => .ok blocks
  | 0, _, some _, _ => .error .loops
  | fuel + 1, h, some p, blocks =>
    if p ∈ blocks then .ok blocks
    else do
      let blocks ← numberBlksR fuel h (h.get p).jt (blocks ++ [p])
      numberBlksR fuel h (h.get p).jf blocks

/-! ## Levels -/

/-- The marked blocks, the level of each block, and the list of each level. -/
structure Levels where
  marked : List BlockId
  level : Store Nat
  lists : Store (List BlockId)
  deriving Repr

/-- A block gets its level and goes to the front of the level's list. -/
def Levels.place (lv : Levels) (b : BlockId) (level : Nat) : Levels :=
  { lv with level := lv.level.set b level, lists := lv.lists.modify level (b :: ·) }

def findLevelsR : Nat → Heap → BlockId → Levels → Except Fault Levels
  | 0, _, _, _ => .error .loops
  | fuel + 1, h, b, lv =>
    if b ∈ lv.marked then .ok lv
    else
      let lv := { lv with marked := b :: lv.marked }
      match (h.get b).jt with
      | none => .ok (lv.place b 0)
      | some t =>
        match (h.get b).jf with
        | none => .error .null
        | some f => do
            let lv ← findLevelsR fuel h t lv
            let lv ← findLevelsR fuel h f lv
            return lv.place b (max (lv.level.get t) (lv.level.get f) + 1)

def findLevels (h : Heap) (root : BlockId) : Except Fault Levels :=
  findLevelsR (h.size + 1) h root ⟨[], .replicate h.size 0, .replicate (h.size + 1) []⟩

/-- The blocks in the order of `for (i = maxlevel; i >= 0; --i)`. -/
def Levels.down (lv : Levels) (maxlevel : Nat) : List BlockId :=
  (List.range (maxlevel + 1)).reverse.flatMap lv.lists.get

/-- The blocks in the order of `for (i = 1; i <= maxlevel; ++i)`. -/
def Levels.up (lv : Levels) (maxlevel : Nat) : List BlockId :=
  (List.range' 1 maxlevel).flatMap lv.lists.get

/-! ## Dominators -/

/-- One turn of a loop that gives a block its number and combines its set with the sets of the
blocks that it leads to. -/
def spread (combine : Bits → Bits → Bits) (h : Heap) (blocks : List BlockId) (sets : Store Bits)
    (b : BlockId) : Store Bits :=
  let here := (sets.get b).insert (blocks.idxOf b)
  let sets := sets.set b here
  match (h.get b).jt, (h.get b).jf with
  | some t, some f => (sets.modify t (combine · here)).modify f (combine · here)
  | _, _ => sets

def findDom (h : Heap) (blocks : List BlockId) (root : BlockId) (order : List BlockId) :
    Store Bits :=
  order.foldl (spread (· &&& ·) h blocks) ((Store.replicate h.size (Bits.full blocks.length)).set root 0)

def findClosure (h : Heap) (blocks : List BlockId) (order : List BlockId) : Store Bits :=
  order.foldl (spread (· ||| ·) h blocks) (Store.replicate h.size 0)

/-- `edom` of the edges to `JT` and to `JF`. -/
structure EdgeSets where
  et : Store Bits
  ef : Store Bits
  deriving Repr

def EdgeSets.get (e : EdgeSets) (ep : Exit) : Bits := if ep.2 then e.et.get ep.1 else e.ef.get ep.1

def EdgeSets.modify (e : EdgeSets) (ep : Exit) (change : Bits → Bits) : EdgeSets :=
  if ep.2 then { e with et := e.et.modify ep.1 change }
  else { e with ef := e.ef.modify ep.1 change }

/-- `ep->id` -/
def edgeId (blocks : List BlockId) (ep : Exit) : Nat :=
  if ep.2 then blocks.idxOf ep.1 else blocks.length + blocks.idxOf ep.1

/-- `edges[k]` -/
def edgeAt (blocks : List BlockId) (k : Nat) : Exit :=
  if k < blocks.length then (blocks.getD k 0, true) else (blocks.getD (k - blocks.length) 0, false)

def propedom (h : Heap) (blocks : List BlockId) (e : EdgeSets) (ep : Exit) : EdgeSets :=
  let e := e.modify ep (·.insert (edgeId blocks ep))
  match h.exit ep.1 ep.2 with
  | some succ => (e.modify (succ, true) (· &&& e.get ep)).modify (succ, false) (· &&& e.get ep)
  | none => e

def findEdom (h : Heap) (blocks : List BlockId) (root : BlockId) (order : List BlockId) :
    EdgeSets :=
  let all := Store.replicate h.size (Bits.full (2 * blocks.length))
  order.foldl (fun e b => propedom h blocks (propedom h blocks e (b, true)) (b, false))
    ⟨all.set root 0, all.set root 0⟩

/-! ## Use and definition -/

/-- `atomuse`: the atoms a statement reads. -/
def atomuse (s : Stmt) : Except Fault (List Nat) :=
  if s.code = nop then .ok []
  else if bpfClass s.code = bpfRet then
    .ok (if s.code &&& 0x18 = bpfA then [aAtom] else if s.code &&& 0x18 = bpfX then [xAtom] else [])
  else if bpfClass s.code = bpfLd ∨ bpfClass s.code = bpfLdx then
    .ok (if bpfMode s.code = bpfInd then [xAtom]
      else if bpfMode s.code = bpfMem then [s.k.toNat] else [])
  else if bpfClass s.code = bpfSt then .ok [aAtom]
  else if bpfClass s.code = bpfStx then .ok [xAtom]
  else if bpfClass s.code = bpfJmp ∨ bpfClass s.code = bpfAlu then
    .ok (if bpfSrc s.code = bpfX then [xAtom, aAtom] else [aAtom])
  else if bpfClass s.code = bpfMisc then
    .ok (if s.code &&& 0xf8 = bpfTxa then [xAtom] else [aAtom])
  else .error .abort

/-- `atomdef`: the atom a statement writes. -/
def atomdef (s : Stmt) : Option Nat :=
  if s.code = nop then none
  else if bpfClass s.code = bpfLd ∨ bpfClass s.code = bpfAlu then some aAtom
  else if bpfClass s.code = bpfLdx then some xAtom
  else if bpfClass s.code = bpfSt ∨ bpfClass s.code = bpfStx then some s.k.toNat
  else if bpfClass s.code = bpfMisc then
    some (if s.code &&& 0xf8 = bpfTax then xAtom else aAtom)
  else none

/-- The sets of `compute_local_ud`. -/
structure LocalUd where
  defined : Bits
  use : Bits
  kill : Bits
  deriving DecidableEq, Repr

/-- Atoms that are read; one that is not a register makes the source abort. -/
def LocalUd.reads (ud : LocalUd) (atoms : List Nat) : Except Fault LocalUd :=
  if atoms.all (· < nAtoms) then
    .ok { ud with
      use := atoms.foldl
        (fun use atom => if ud.defined.mem atom then use else use.insert atom) ud.use }
  else .error .abort

/-- An atom that is written. -/
def LocalUd.writes (ud : LocalUd) : Option Nat → LocalUd
  | some atom =>
    { ud with
      kill := if ud.use.mem atom then ud.kill else ud.kill.insert atom
      defined := ud.defined.insert atom }
  | none => ud

def computeLocalUd (b : Block) : Except Fault LocalUd := do
  let ud ← b.stmts.foldlM (fun ud s => do return (← ud.reads (← atomuse s)).writes (atomdef s))
    (⟨0, 0, 0⟩ : LocalUd)
  if bpfClass b.s.code = bpfJmp then ud.reads (← atomuse b.s) else return ud

/-- The atoms in use at the start and at the end of the blocks. -/
structure Uses where
  inUse : Store Bits
  outUse : Store Bits
  kill : Store Bits
  deriving Repr

/-- The first loop of `find_ud`, for one block. -/
def localUses (h : Heap) (u : Uses) (p : BlockId) : Except Fault Uses := do
  let ud ← computeLocalUd (h.get p)
  return { inUse := u.inUse.set p ud.use, outUse := u.outUse.set p 0, kill := u.kill.set p ud.kill }

/-- The second loop of `find_ud`, for one block. -/
def spreadUses (h : Heap) (u : Uses) (p : BlockId) : Uses :=
  match (h.get p).jt, (h.get p).jf with
  | some t, some f =>
    let out := u.outUse.get p ||| (u.inUse.get t ||| u.inUse.get f)
    { u with
      outUse := u.outUse.set p out
      inUse := u.inUse.modify p (· ||| Bits.without out (u.kill.get p)) }
  | _, _ => u

def findUd (h : Heap) (down up : List BlockId) : Except Fault Uses := do
  let none := Store.replicate h.size 0
  let u ← down.foldlM (localUses h) ⟨none, none, none⟩
  return up.foldl (spreadUses h) u

/-! ## All of them -/

/-- What a pass knows about the graph it starts with. -/
structure Analysis where
  blocks : List BlockId
  down : List BlockId
  up : List BlockId
  dom : Store Bits
  edom : EdgeSets
  outUse : Store Bits
  deriving Repr

/-- The calls at the start of a pass of `opt_loop`. -/
def analyse (blocks : List BlockId) (h : Heap) (root : BlockId) : Except Fault Analysis := do
  let lv ← findLevels h root
  let maxlevel := lv.level.get root
  let down := lv.down maxlevel
  let up := lv.up maxlevel
  let uses ← findUd h down up
  return {
    blocks, down, up
    dom := findDom h blocks root down
    edom := findEdom h blocks root down
    outUse := uses.outUse }

end Libpcap.Optimize
