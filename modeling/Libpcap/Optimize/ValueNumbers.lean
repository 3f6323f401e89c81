/-
# Value numbers

The optimizer evaluates the statements of a block symbolically. A register or
scratch word, an atom, holds a value number; equal numbers mean equal values, and
0 means that nothing is known. `F` hands out the number of an operation applied to
numbered operands, the same number for the same operation and operands, and
remembers which numbers stand for constants.

`opt_stmt` evaluates one statement and, when it may alter the code, replaces it by
a simpler one or deletes it.
-/

import Libpcap.Gencode.State

namespace Libpcap.Optimize

open Libpcap.Bpf Libpcap.Gencode Libpcap.Semantics

/-! ## Atoms -/

/-- `A_ATOM`; the scratch words are the atoms below it. -/
def aAtom : Nat := memWords

def xAtom : Nat := memWords + 1

def nAtoms : Nat := memWords + 2

/-- The value numbers of all atoms, `val` of a block. -/
abbrev Vals := Store Nat

/-- Nothing is known. -/
def Vals.unknown : Vals := .replicate nAtoms 0

/-! ## The table of values -/

/-- `struct valnode` -/
structure ValNode where
  code : Code
  v0 : Nat
  v1 : Nat
  val : Nat
  deriving DecidableEq, Repr

/-- The hash table, as the list of its nodes, and `vmap`, which has a constant for
the numbers of constants. -/
structure ValTab where
  curval : Nat
  nodes : List ValNode
  vmap : Store (Option Word)
  deriving DecidableEq, Repr

/-- `init_val`; the number 0 is not a constant. -/
def ValTab.init : ValTab := ⟨0, [], ⟨[none]⟩⟩

/-- The opcodes whose values are constants. -/
def isImmediate (code : Code) : Bool :=
  bpfMode code == bpfImm && (bpfClass code == bpfLd || bpfClass code == bpfLdx)

def ValTab.f (t : ValTab) (code : Code) (v0 v1 : Nat) : Nat × ValTab :=
  match t.nodes.find? fun p => p.code == code && p.v0 == v0 && p.v1 == v1 with
  | some p => (p.val, t)
  | none =>
    let val := t.curval + 1
    (val, {
      curval := val
      nodes := ⟨code, v0, v1, val⟩ :: t.nodes
      vmap := t.vmap.alloc (if isImmediate code then some (BitVec.ofNat 32 v0) else none) })

/-- The table together with `done`, which is cleared by every change to the code
that asks for another pass. -/
structure Sym where
  tab : ValTab
  done : Bool
  deriving DecidableEq, Repr

namespace Sym

variable (sym : Sym)

def f (code : Code) (v0 v1 : Nat) : Nat × Sym :=
  let (val, tab) := sym.tab.f code v0 v1
  (val, { sym with tab })

def k (i : Word) : Nat × Sym := sym.f (bpfLd ||| bpfImm ||| bpfW) i.toNat 0

/-- `vmap[v]`: the constant that a value number stands for. -/
def const (v : Nat) : Option Word := sym.tab.vmap.get v

/-- `done = 0` -/
def undo : Sym := { sym with done := false }

end Sym

/-! ## One statement -/

def vstore (s : Stmt) (val : Vals) (atom newval : Nat) (alter : Bool) : Stmt × Vals :=
  if alter ∧ val.get atom = newval then ({ s with code := nop }, val)
  else (s, val.set atom newval)

/-- `fold_op` on the constants of its operands: the constant that is loaded
instead. -/
def foldOp (fn : AluOp) (a b : Word) : Except Fault Word :=
  if fn = .div ∧ b = 0 then .error (.error "division by zero") else .ok (fn.eval a b)

/-- `ld #k` -/
def loadConst (s : Stmt) (k : Word) : Stmt := { s with code := bpfLd ||| bpfImm, k }

/-- What becomes of a statement, and the values after it. -/
structure Evaluated where
  s : Stmt
  val : Vals
  sym : Sym
  deriving Repr

/-- An arithmetic statement whose result is replaced by a constant. -/
def Evaluated.folded (s : Stmt) (val : Vals) (sym : Sym) (k : Word) : Evaluated :=
  let (v, sym) := sym.k k
  ⟨loadConst s k, val.set aAtom v, sym⟩

/-- A statement that stores the value `v` to an atom. -/
def Evaluated.store (s : Stmt) (val : Vals) (sym : Sym) (atom v : Nat) (alter : Bool) : Evaluated :=
  let (s, val) := vstore s val atom v alter
  ⟨s, val, sym⟩

/-- The part of `opt_stmt` for arithmetic with a constant. -/
def optAluK (fn : AluOp) (alter : Bool) (s : Stmt) (val : Vals) (sym : Sym) :
    Except Fault Evaluated :=
  if alter ∧ s.k = 0 ∧ fn ∈ [.add, .lsh, .rsh, .or] then
    .ok ⟨{ s with code := nop }, val, sym⟩
  else if alter ∧ s.k = 0 ∧ fn ∈ [.mul, .and] then .ok (.folded s val sym s.k)
  else
    match if alter then sym.const (val.get aAtom) else none with
    | some a => do
        let (_, sym) := sym.k s.k
        let k ← foldOp fn a s.k
        return .folded s val sym.undo k
    | none =>
      let (v, sym) := sym.k s.k
      let (v, sym) := sym.f s.code (val.get aAtom) v
      .ok ⟨s, val.set aAtom v, sym⟩

/-- The part of `opt_stmt` for arithmetic with the index register. -/
def optAluX (fn : AluOp) (alter : Bool) (s : Stmt) (val : Vals) (sym : Sym) :
    Except Fault Evaluated :=
  match if alter then sym.const (val.get xAtom) else none with
  | some x =>
    match sym.const (val.get aAtom) with
    | some a => do
        let k ← foldOp fn a x
        return .folded s val sym.undo k
    | none =>
      let s := { s with code := bpfAlu ||| bpfK ||| fn.code, k := x }
      let (v, sym) := sym.undo.k x
      let (v, sym) := sym.f s.code (val.get aAtom) v
      .ok ⟨s, val.set aAtom v, sym⟩
  | none =>
    if alter ∧ sym.const (val.get aAtom) = some 0 ∧ fn ∈ [.add, .or] then
      .ok (.store { s with code := bpfMisc ||| bpfTxa } val sym aAtom (val.get xAtom) alter)
    else if alter ∧ sym.const (val.get aAtom) = some 0 ∧ fn ∈ [.mul, .div, .and, .lsh, .rsh] then
      let (v, sym) := sym.k 0
      .ok (.store (loadConst s 0) val sym aAtom v alter)
    else
      let (v, sym) := sym.f s.code (val.get aAtom) (val.get xAtom)
      .ok ⟨s, val.set aAtom v, sym⟩

/-- The part of `opt_stmt` for loads from scratch memory to `A` or `X`. -/
def optLoadMem (imm : Code) (atom : Nat) (alter : Bool) (s : Stmt) (val : Vals) (sym : Sym) :
    Evaluated :=
  let v := val.get s.k.toNat
  match if alter then sym.const v else none with
  | some c => .store { s with code := imm, k := c } val sym.undo atom v alter
  | none => .store s val sym atom v alter

def optStmt (alter : Bool) (s : Stmt) (val : Vals) (sym : Sym) : Except Fault Evaluated :=
  match decode s.code with
  | some (.ldAbs _) =>
    let (v, sym) := sym.f s.code s.k.toNat 0
    .ok (.store s val sym aAtom v alter)
  | some (.ldInd size) =>
    match if alter then sym.const (val.get xAtom) else none with
    | some x =>
      let s := { s with code := bpfLd ||| bpfAbs ||| size.code, k := s.k + x }
      let (v, sym) := sym.undo.f s.code s.k.toNat 0
      .ok (.store s val sym aAtom v alter)
    | none =>
      let (v, sym) := sym.f s.code s.k.toNat (val.get xAtom)
      .ok (.store s val sym aAtom v alter)
  | some .ldLen =>
    let (v, sym) := sym.f s.code 0 0
    .ok (.store s val sym aAtom v alter)
  | some .ldImm =>
    let (v, sym) := sym.k s.k
    .ok (.store s val sym aAtom v alter)
  | some .ldxImm =>
    let (v, sym) := sym.k s.k
    .ok (.store s val sym xAtom v alter)
  | some .ldxMsh =>
    let (v, sym) := sym.f s.code s.k.toNat 0
    .ok (.store s val sym xAtom v alter)
  | some .neg =>
    match if alter then sym.const (val.get aAtom) else none with
    | some a => .ok (.folded s val sym (-a))
    | none =>
      let (v, sym) := sym.f s.code (val.get aAtom) 0
      .ok ⟨s, val.set aAtom v, sym⟩
  | some (.alu fn .k) => optAluK fn alter s val sym
  | some (.alu fn .x) => optAluX fn alter s val sym
  | some .txa => .ok (.store s val sym aAtom (val.get xAtom) alter)
  | some .ldMem => .ok (optLoadMem (bpfLd ||| bpfImm) aAtom alter s val sym)
  | some .tax => .ok (.store s val sym xAtom (val.get aAtom) alter)
  | some .ldxMem => .ok (optLoadMem (bpfLdx ||| bpfImm) xAtom alter s val sym)
  | some .st => .ok (.store s val sym s.k.toNat (val.get aAtom) alter)
  | some .stx => .ok (.store s val sym s.k.toNat (val.get xAtom) alter)
  | _ => .ok ⟨s, val, sym⟩

/-- `opt_stmt` on every statement of a block. -/
def optStmts (alter : Bool) : List Stmt → Vals → Sym → Except Fault (List Stmt × Vals × Sym)
  | [], val, sym => .ok ([], val, sym)
  | s :: rest, val, sym => do
      let here ← optStmt alter s val sym
      let (rest, val, sym) ← optStmts alter rest here.val here.sym
      return (here.s :: rest, val, sym)

end Libpcap.Optimize
