/-
# Rewriting one block

`opt_blk` evaluates the statements of a block, starting from what the blocks in front of it
agree on, and then rewrites the block: `opt_peep` replaces short sequences of statements and
simplifies the test at the end, and `opt_deadstores` deletes stores that nothing reads. A
deleted statement stays in its list as a `NOP`.
-/

import Libpcap.Optimize.Analysis

namespace Libpcap.Optimize

open Libpcap.Bpf Libpcap.Gencode Libpcap.Semantics

/-! ## Short sequences -/

/-- `this_op`: the first statement from a position on that is not deleted. -/
def thisOp (stmts : Store Stmt) (i : Nat) : Option Nat :=
  (List.range' i (stmts.size - i)).find? fun j => (stmts.get j).code != nop

/-- Give a statement another code. -/
def setCode (stmts : Store Stmt) (i : Nat) (code : Code) : Store Stmt :=
  stmts.modify i fun s => { s with code }

/-- The sequence that `opt_peep` looks for behind `ld #k`: the positions of `addx`, `tax`
and the indexed load. -/
def indexedLoad (stmts : Store Stmt) (next : Nat) : Option (Nat × Nat × Nat) := do
  let add ← if (stmts.get next).code ≠ bpfLdx ||| bpfMsh ||| bpfB then some next
    else thisOp stmts (next + 1)
  guard ((stmts.get add).code = bpfAlu ||| bpfAdd ||| bpfX)
  let tax ← thisOp stmts (add + 1)
  guard ((stmts.get tax).code = bpfMisc ||| bpfTax)
  let ild ← thisOp stmts (tax + 1)
  guard (bpfClass (stmts.get ild).code = bpfLd ∧ bpfMode (stmts.get ild).code = bpfInd)
  return (add, tax, ild)

/-- The body of the loop of `opt_peep`, for a statement and the next one. -/
def peepPair (outUse : Bits) (s next : Nat) (stmts : Store Stmt) (sym : Sym) : Store Stmt × Sym :=
  let (stmts, sym) :=
    if (stmts.get s).code = bpfSt ∧ (stmts.get next).code = bpfLdx ||| bpfMem ∧
        (stmts.get s).k = (stmts.get next).k then
      (setCode stmts next (bpfMisc ||| bpfTax), sym.undo)
    else (stmts, sym)
  let (stmts, sym) :=
    if (stmts.get s).code = bpfLd ||| bpfImm ∧ (stmts.get next).code = bpfMisc ||| bpfTax then
      (setCode (setCode stmts s (bpfLdx ||| bpfImm)) next (bpfMisc ||| bpfTxa), sym.undo)
    else (stmts, sym)
  if (stmts.get s).code = bpfLd ||| bpfImm ∧ !outUse.mem xAtom then
    match indexedLoad stmts next with
    | some (add, tax, ild) =>
      let k := (stmts.get s).k
      let stmts := stmts.modify ild fun load => { load with k := load.k + k }
      (setCode (setCode (setCode stmts s nop) add nop) tax nop, sym.undo)
    | none => (stmts, sym)
  else (stmts, sym)

/-- The loop of `opt_peep`, from a position on; the position of `last` is returned. The first
argument bounds the number of turns. -/
def peepLoop (outUse : Bits) : Nat → Nat → Nat → Store Stmt → Sym → Nat × Store Stmt × Sym
  | 0, _, last, stmts, sym => (last, stmts, sym)
  | fuel + 1, s, last, stmts, sym =>
    match thisOp stmts s with
    | none => (last, stmts, sym)
    | some s =>
      match thisOp stmts (s + 1) with
      | none => (last, stmts, sym)
      | some next =>
        let (stmts, sym) := peepPair outUse s next stmts sym
        peepLoop outUse fuel next next stmts sym

/-! ## The test at the end -/

/-- A block and the table of values while it is rewritten. -/
structure Peeped where
  b : Block
  sym : Sym
  deriving Repr

def optNot (b : Block) : Block := { b with jt := b.jf, jf := b.jt }

/-- Delete a statement of a block. -/
def deleteStmt (b : Block) (i : Nat) : Block :=
  { b with stmts := b.stmts.modify i fun s => { s with code := nop } }

/-- An equality test behind an arithmetic statement. -/
def peepEq (outUse : Bits) (last : Nat) (val : Vals) (p : Peeped) : Peeped :=
  let b := p.b
  let lastStmt := b.stmts.getD last default
  if b.s.code = bpfJmp ||| bpfJeq ||| bpfK ∧ !outUse.mem aAtom then
    if lastStmt.code = bpfAlu ||| bpfSub ||| bpfX then
      match p.sym.const (val.get xAtom) with
      | some x => ⟨deleteStmt { b with s := { b.s with k := b.s.k + x } } last, p.sym.undo⟩
      | none =>
        if b.s.k = 0 then
          ⟨deleteStmt { b with s := { b.s with code := bpfJmp ||| bpfJeq ||| bpfX } } last,
            p.sym.undo⟩
        else p
    else if lastStmt.code = bpfAlu ||| bpfSub ||| bpfK then
      ⟨deleteStmt { b with s := { b.s with k := b.s.k + lastStmt.k } } last, p.sym.undo⟩
    else if lastStmt.code = bpfAlu ||| bpfAnd ||| bpfK ∧ b.s.k = 0 then
      let s := { b.s with code := bpfJmp ||| bpfK ||| bpfJset, k := lastStmt.k }
      ⟨optNot (deleteStmt { b with s } last), p.sym.undo⟩
    else p
  else p

/-- `jset` with no bit and with all bits. -/
def peepJset (b : Block) : Block :=
  if b.s.code = bpfJmp ||| bpfK ||| bpfJset then
    let b := if b.s.k = 0 then { b with jt := b.jf } else b
    if b.s.k = 0xffffffff then { b with jf := b.jt } else b
  else b

/-- A comparison with an index register that is known. -/
def peepX (val : Vals) (sym : Sym) (b : Block) : Block :=
  match sym.const (val.get xAtom) with
  | some x =>
    if bpfSrc b.s.code = bpfX then
      { b with s := { b.s with code := b.s.code &&& ~~~bpfX, k := x } }
    else b
  | none => b

/-- The outcome of a comparison of constants. -/
def constTest (code : Code) (v k : Word) : Except Fault Bool :=
  if bpfOp code = bpfJeq then .ok (v == k)
  else if bpfOp code = bpfJgt then .ok (decide (k < v))
  else if bpfOp code = bpfJge then .ok (decide (k ≤ v))
  else if bpfOp code = bpfJset then .ok (v &&& k != 0)
  else .error .abort

/-- A comparison with an accumulator that is known. -/
def peepA (val : Vals) (p : Peeped) : Except Fault Peeped :=
  match p.sym.const (val.get aAtom) with
  | some v =>
    if bpfSrc p.b.s.code = bpfK then do
      let holds ← constTest p.b.s.code v p.b.s.k
      let sym := if p.b.jf ≠ p.b.jt then p.sym.undo else p.sym
      return ⟨if holds then { p.b with jf := p.b.jt } else { p.b with jt := p.b.jf }, sym⟩
    else .ok p
  | none => .ok p

def optPeep (outUse : Bits) (val : Vals) (b : Block) (sym : Sym) : Except Fault Peeped :=
  if b.stmts = [] then .ok ⟨b, sym⟩
  else
    let (last, stmts, sym) := peepLoop outUse (b.stmts.length + 1) 0 0 ⟨b.stmts⟩ sym
    let p := peepEq outUse last val ⟨{ b with stmts := stmts.cells }, sym⟩
    peepA val { p with b := peepX val p.sym (peepJset p.b) }

/-! ## Stores that nothing reads -/

/-- The position of the last store to each atom that has not been read; the branch statement
stands behind the others. -/
abbrev LastStores := Store (Option Nat)

/-- `deadstmt` for the statement at a position. -/
def deadstmt (stmts : Store Stmt) (last : LastStores) (sym : Sym) (i : Nat) :
    Except Fault (Store Stmt × LastStores × Sym) := do
  let atoms ← atomuse (stmts.get i)
  let last := atoms.foldl (fun last atom => last.set atom none) last
  match atomdef (stmts.get i) with
  | some atom =>
    match last.get atom with
    | some dead => return (setCode stmts dead nop, last.set atom (some i), sym.undo)
    | none => return (stmts, last.set atom (some i), sym)
  | none => return (stmts, last, sym)

/-- The end of `opt_deadstores`, for one atom. -/
def deadAtExit (outUse : Bits) (last : LastStores) (st : Store Stmt × Sym) (atom : Nat) :
    Store Stmt × Sym :=
  match last.get atom with
  | some dead => if outUse.mem atom then st else (setCode st.1 dead nop, st.2.undo)
  | none => st

def optDeadstores (outUse : Bits) (b : Block) (sym : Sym) : Except Fault Peeped := do
  let stmts : Store Stmt := ⟨b.stmts ++ [b.s]⟩
  let (stmts, last, sym) ← (List.range stmts.size).foldlM
    (fun (stmts, last, sym) i => deadstmt stmts last sym i)
    (stmts, (.replicate nAtoms none : LastStores), sym)
  let (stmts, sym) := (List.range nAtoms).foldl (deadAtExit outUse last) (stmts, sym)
  return ⟨{ b with stmts := stmts.cells.dropLast, s := stmts.get b.stmts.length }, sym⟩

/-! ## The block -/

/-- What the blocks in front of a block agree on. -/
def meet (val val' : Vals) : Vals :=
  ⟨(List.range nAtoms).map fun i => if val.get i = val'.get i then val.get i else 0⟩

/-- The values at the start of a block, from those of the blocks in front of it. -/
def entryVals : List Vals → Vals
  | [] => .unknown
  | val :: rest => rest.foldl meet val

/-- `opt_blk`: the block, its values, `oval` and the table. -/
def optBlk (doStmts : Bool) (outUse : Bits) (entry : Vals) (b : Block) (sym : Sym) :
    Except Fault (Block × Vals × Nat × Sym) := do
  let (stmts, val, sym) ← optStmts doStmts b.stmts entry sym
  let b := { b with stmts }
  let unchanged := outUse = 0 ∧ entry.get aAtom ≠ 0 ∧ val.get aAtom = entry.get aAtom ∧
    entry.get xAtom ≠ 0 ∧ val.get xAtom = entry.get xAtom
  let p ←
    if doStmts ∧ (unchanged ∨ bpfClass b.s.code = bpfRet) then
      pure (if b.stmts = [] then ⟨b, sym⟩ else ⟨{ b with stmts := [] }, sym.undo⟩ : Peeped)
    else do
      let p ← optPeep outUse val b sym
      optDeadstores outUse p.b p.sym
  if bpfSrc p.b.s.code = bpfK then
    let (oval, sym) := p.sym.k p.b.s.k
    return (p.b, val, oval, sym)
  else return (p.b, val, val.get xAtom, p.sym)

end Libpcap.Optimize
