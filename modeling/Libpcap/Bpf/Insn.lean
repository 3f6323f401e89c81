/-
# BPF instructions

The instruction encodings of `pcap/bpf.h` and the instruction record of the
filter machine. An opcode is a 16-bit number; the numbers that `bpf_filter`
has a case for are listed by `Op`, whose encoding is written with the source's
own class, size, mode, operation and source constants. Decoding is the search
for that case, so an opcode outside the list is one on which the interpreter's
`switch` takes its default branch.
-/

import Mathlib.Data.BitVec

namespace Libpcap.Bpf

/-- A 32-bit machine word (`bpf_u_int32`). -/
abbrev Word := BitVec 32

/-- A 16-bit opcode (`u_short code`). -/
abbrev Code := BitVec 16

/-! ## The field constants of `pcap/bpf.h` -/

def bpfLd : Code := 0x00
def bpfLdx : Code := 0x01
def bpfSt : Code := 0x02
def bpfStx : Code := 0x03
def bpfAlu : Code := 0x04
def bpfJmp : Code := 0x05
def bpfRet : Code := 0x06
def bpfMisc : Code := 0x07

def bpfW : Code := 0x00
def bpfH : Code := 0x08
def bpfB : Code := 0x10

def bpfImm : Code := 0x00
def bpfAbs : Code := 0x20
def bpfInd : Code := 0x40
def bpfMem : Code := 0x60
def bpfLen : Code := 0x80
def bpfMsh : Code := 0xa0

def bpfAdd : Code := 0x00
def bpfSub : Code := 0x10
def bpfMul : Code := 0x20
def bpfDiv : Code := 0x30
def bpfOr : Code := 0x40
def bpfAnd : Code := 0x50
def bpfLsh : Code := 0x60
def bpfRsh : Code := 0x70
def bpfNeg : Code := 0x80

def bpfJa : Code := 0x00
def bpfJeq : Code := 0x10
def bpfJgt : Code := 0x20
def bpfJge : Code := 0x30
def bpfJset : Code := 0x40

def bpfK : Code := 0x00
def bpfX : Code := 0x08
def bpfA : Code := 0x10

def bpfTax : Code := 0x00
def bpfTxa : Code := 0x80

def bpfClass (code : Code) : Code := code &&& 0x07

def bpfMode (code : Code) : Code := code &&& 0xe0

def bpfOp (code : Code) : Code := code &&& 0xf0

def bpfSrc (code : Code) : Code := code &&& 0x08

/-- `BPF_MEMWORDS`, the number of scratch words. -/
def memWords : Nat := 16

/-! ## Operations -/

/-- Size of a packet load. -/
inductive Size
  | w
  | h
  | b
  deriving DecidableEq, Repr

/-- Binary arithmetic of the `BPF_ALU` class. -/
inductive AluOp
  | add
  | sub
  | mul
  | div
  | or
  | and
  | lsh
  | rsh
  deriving DecidableEq, Repr

/-- Comparison of a conditional jump. -/
inductive JmpOp
  | jeq
  | jgt
  | jge
  | jset
  deriving DecidableEq, Repr

/-- Second operand of an arithmetic operation or a comparison. -/
inductive Src
  | k
  | x
  deriving DecidableEq, Repr

/-- The cases of the interpreter's `switch`. -/
inductive Op
  | retK
  | retA
  | ldAbs (size : Size)
  | ldInd (size : Size)
  | ldLen
  | ldImm
  | ldMem
  | ldxLen
  | ldxMsh
  | ldxImm
  | ldxMem
  | st
  | stx
  | ja
  | jmp (cond : JmpOp) (src : Src)
  | alu (fn : AluOp) (src : Src)
  | neg
  | tax
  | txa
  deriving DecidableEq, Repr

/-- The bytes a load of the given size reads. -/
def Size.bytes : Size → Nat
  | .w => 4
  | .h => 2
  | .b => 1

def Size.code : Size → Code
  | .w => bpfW
  | .h => bpfH
  | .b => bpfB

def AluOp.code : AluOp → Code
  | .add => bpfAdd
  | .sub => bpfSub
  | .mul => bpfMul
  | .div => bpfDiv
  | .or => bpfOr
  | .and => bpfAnd
  | .lsh => bpfLsh
  | .rsh => bpfRsh

def JmpOp.code : JmpOp → Code
  | .jeq => bpfJeq
  | .jgt => bpfJgt
  | .jge => bpfJge
  | .jset => bpfJset

def Src.code : Src → Code
  | .k => bpfK
  | .x => bpfX

/-- The opcode of each case, as the `case` label spells it. -/
def Op.encode : Op → Code
  | .retK => bpfRet ||| bpfK
  | .retA => bpfRet ||| bpfA
  | .ldAbs size => bpfLd ||| size.code ||| bpfAbs
  | .ldInd size => bpfLd ||| size.code ||| bpfInd
  | .ldLen => bpfLd ||| bpfW ||| bpfLen
  | .ldImm => bpfLd ||| bpfImm
  | .ldMem => bpfLd ||| bpfMem
  | .ldxLen => bpfLdx ||| bpfW ||| bpfLen
  | .ldxMsh => bpfLdx ||| bpfMsh ||| bpfB
  | .ldxImm => bpfLdx ||| bpfImm
  | .ldxMem => bpfLdx ||| bpfMem
  | .st => bpfSt
  | .stx => bpfStx
  | .ja => bpfJmp ||| bpfJa
  | .jmp cond src => bpfJmp ||| cond.code ||| src.code
  | .alu fn src => bpfAlu ||| fn.code ||| src.code
  | .neg => bpfAlu ||| bpfNeg
  | .tax => bpfMisc ||| bpfTax
  | .txa => bpfMisc ||| bpfTxa

def Size.all : List Size := [.w, .h, .b]

def AluOp.all : List AluOp := [.add, .sub, .mul, .div, .or, .and, .lsh, .rsh]

def JmpOp.all : List JmpOp := [.jeq, .jgt, .jge, .jset]

def Src.all : List Src := [.k, .x]

/-- Every case of the `switch`. -/
def Op.all : List Op :=
  [.retK, .retA] ++ Size.all.map .ldAbs ++ Size.all.map .ldInd ++
    [.ldLen, .ldImm, .ldMem, .ldxLen, .ldxMsh, .ldxImm, .ldxMem, .st, .stx, .ja] ++
    JmpOp.all.flatMap (fun cond => Src.all.map (Op.jmp cond)) ++
    AluOp.all.flatMap (fun fn => Src.all.map (Op.alu fn)) ++ [.neg, .tax, .txa]

/-- The case the interpreter takes on an opcode; `none` is its default branch. -/
def decode (code : Code) : Option Op :=
  Op.all.find? fun op => op.encode == code

theorem Op.mem_all (op : Op) : op ∈ Op.all := by
  cases op with
  | ldAbs size => cases size <;> decide
  | ldInd size => cases size <;> decide
  | jmp cond src => cases cond <;> cases src <;> decide
  | alu fn src => cases fn <;> cases src <;> decide
  | _ => decide

/-- What is said of every operation is decided by looking at each. -/
instance {P : Op → Prop} [DecidablePred P] : Decidable (∀ op, P op) :=
  decidable_of_iff (∀ op ∈ Op.all, P op) ⟨fun all op => all op op.mem_all, fun all op _ => all op⟩

@[simp]
theorem decode_encode : ∀ op : Op, decode op.encode = some op := by decide

theorem class_ret_iff : ∀ op : Op, bpfClass op.encode = bpfRet ↔ op = .retK ∨ op = .retA := by
  decide

theorem decode_eq_some_iff {code : Code} {op : Op} : decode code = some op ↔ op.encode = code := by
  constructor
  · intro found
    have matched := List.find?_some found
    simpa using matched
  · rintro rfl
    exact decode_encode op

/-- `struct bpf_insn` -/
structure Insn where
  code : Code
  jt : BitVec 8
  jf : BitVec 8
  k : Word
  deriving DecidableEq, Repr

/-- A `bpf_program`: its length is handed to `bpf_validate` as an `int`. -/
structure Program where
  insns : List Insn
  length_lt : insns.length < 2 ^ 31

end Libpcap.Bpf
