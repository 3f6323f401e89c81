/-
# The filter machine

`bpf_filter` of `bpf/net/bpf_filter.c`, in its userland configuration, on an
LP64 machine: `sizeof` yields a 64-bit value, so the test `k + sizeof(int32) >
buflen` is a 64-bit comparison of a sign-extended index. Whatever C leaves
undefined and a program could provoke is a result of its own: leaving the
program, indexing the scratch words out of range, dividing by a constant zero.
Two cases are given the meaning the compiled code has. A read outside the packet
buffer finds whatever memory holds there, and a shift count is taken modulo 32,
as the shift instruction of the target does.

The meaning of one instruction is separated from the program counter, so that
the flow graph of the compiler is run by the same definition.
-/

import Libpcap.Bpf.Insn
import Libpcap.Semantics.StepSystem
import Mathlib.Logic.Function.Basic

namespace Libpcap.Bpf

open Libpcap.Semantics

variable {prog : List Insn} {m : Machine} {op : Op} {p : Packet} {k : Word}

/-! ## Packets -/

/-- What `bpf_filter` is handed: the captured bytes, of which there are `buflen`
(a `u_int`), and the length of the packet on the wire. The memory around the
buffer, by its offset from the buffer, matters only to a load that leaves it. -/
structure Packet where
  data : List (BitVec 8)
  wirelen : Word
  around : Int → BitVec 8
  length_lt : data.length < 2 ^ 32

namespace Packet

variable (p : Packet)

/-- The captured length. -/
def buflen : Nat := p.data.length

/-- `p[i]` -/
def byteAt (i : Int) : BitVec 8 :=
  if 0 ≤ i then p.data[i.toNat]?.getD (p.around i) else p.around i

/-- `EXTRACT_LONG`, `EXTRACT_SHORT`: the big-endian value of some bytes. -/
def bigEndian (bytes : List (BitVec 8)) : Word :=
  bytes.foldl (fun high low => high <<< 8 ||| low.setWidth 32) 0

/-- `k + sizeof(...) > buflen` for an object of `n` bytes at the `int` index `k`,
and the bytes read when that test does not reject the load. -/
def touchedSized (n : Nat) (k : Word) : Option (List Int) :=
  if p.buflen < (k.signExtend 64 + BitVec.ofNat 64 n).toNat then none
  else some ((List.range n).map fun j : Nat => k.toInt + (j : Int))

/-- The offsets a load at the `int` index `k` reads: `none` when its length test
rejects the load. -/
def touched (size : Size) (k : Word) : Option (List Int) :=
  match size with
  | .w => p.touchedSized 4 k
  | .h => p.touchedSized 2 k
  | .b =>
    -- `k >= buflen` converts `k` to unsigned, `p[k]` does not
    if p.buflen ≤ k.toNat then none else some [k.toInt]

/-- The offset `BPF_MSH` reads; it indexes with the unsigned `pc->k`. -/
def touchedMsh (k : Word) : Option (List Int) :=
  if p.buflen ≤ k.toNat then none else some [(k.toNat : Int)]

end Packet

/-! ## Results -/

/-- Why the interpreter gave up on a packet with `return 0`. -/
inductive Rejection
  | load
  | division
  deriving DecidableEq, Repr

/-- Behaviour that C leaves undefined. -/
inductive Undefined
  | pcRange
  | memRange
  | divByZero
  deriving DecidableEq, Repr

/-- How a run of the interpreter ends. -/
inductive Result
  | ret (value : Word)
  | reject (why : Rejection)
  | abort
  | undefined (how : Undefined)
  deriving DecidableEq, Repr

/-- The value handed back to the caller, if the call returns. -/
def Result.returned : Result → Option Word
  | .ret value => some value
  | .reject _ => some 0
  | .abort => none
  | .undefined _ => none

/-! ## The meaning of one instruction -/

/-- Registers and scratch words. -/
structure Machine where
  A : Word
  X : Word
  mem : Fin memWords → Word

/-- `mem[k]` as an index, when it is one. -/
def memIndex (k : Word) : Option (Fin memWords) :=
  if inRange : k.toNat < memWords then some ⟨k.toNat, inRange⟩ else none

/-- What an instruction asks for, before the program counter moves. -/
inductive Effect
  | next (m : Machine)
  | branch (taken : Bool)
  | jump
  | stop (result : Result)

/-- The value of a load from the packet, or the way it ends the run. -/
def Packet.read (p : Packet) (offsets : Option (List Int)) : Except Result Word :=
  match offsets with
  | none => .error (.reject .load)
  | some offsets => .ok (Packet.bigEndian (offsets.map p.byteAt))

/-- Continue with a loaded value. -/
def Effect.ofRead (outcome : Except Result Word) (update : Word → Machine) : Effect :=
  match outcome with
  | .ok value => .next (update value)
  | .error result => .stop result

/-- The operand of an arithmetic operation or a comparison. -/
def Src.value (src : Src) (k : Word) (m : Machine) : Word :=
  match src with
  | .k => k
  | .x => m.X

/-- The arithmetic of `BPF_ALU`, apart from the division tests. -/
def AluOp.eval (fn : AluOp) (a operand : Word) : Word :=
  match fn with
  | .add => a + operand
  | .sub => a - operand
  | .mul => a * operand
  | .div => a / operand
  | .or => a ||| operand
  | .and => a &&& operand
  | .lsh => a <<< (operand.toNat % 32)
  | .rsh => a >>> (operand.toNat % 32)

/-- The comparison of a conditional jump. -/
def JmpOp.eval (cond : JmpOp) (a operand : Word) : Bool :=
  match cond with
  | .jeq => a == operand
  | .jgt => decide (operand.toNat < a.toNat)
  | .jge => decide (operand.toNat ≤ a.toNat)
  | .jset => a &&& operand != 0

/-- A division by the index register is tested, one by a constant is not. -/
def AluOp.effect (fn : AluOp) (src : Src) (k : Word) (m : Machine) : Effect :=
  if fn = .div ∧ src.value k m = 0 then
    match src with
    | .x => .stop (.reject .division)
    | .k => .stop (.undefined .divByZero)
  else .next { m with A := fn.eval m.A (src.value k m) }

/-- The offsets of the packet bytes an instruction reads, `none` when its length
test rejects the packet. -/
def Op.packetReads (op : Op) (k : Word) (p : Packet) (m : Machine) : Option (List Int) :=
  match op with
  | .ldAbs size => p.touched size k
  | .ldInd size => p.touched size (m.X + k)
  | .ldxMsh => p.touchedMsh k
  | _ => some []

/-- One case of the interpreter's `switch`. -/
def Op.effect (op : Op) (k : Word) (p : Packet) (m : Machine) : Effect :=
  match op with
  | .retK => .stop (.ret k)
  | .retA => .stop (.ret m.A)
  | .ldAbs size => .ofRead (p.read (p.touched size k)) fun v => { m with A := v }
  | .ldInd size => .ofRead (p.read (p.touched size (m.X + k))) fun v => { m with A := v }
  | .ldLen => .next { m with A := p.wirelen }
  | .ldxLen => .next { m with X := p.wirelen }
  | .ldxMsh => .ofRead (p.read (p.touchedMsh k)) fun v => { m with X := (v &&& 0xf) <<< 2 }
  | .ldImm => .next { m with A := k }
  | .ldxImm => .next { m with X := k }
  | .ldMem =>
    match memIndex k with
    | some i => .next { m with A := m.mem i }
    | none => .stop (.undefined .memRange)
  | .ldxMem =>
    match memIndex k with
    | some i => .next { m with X := m.mem i }
    | none => .stop (.undefined .memRange)
  | .st =>
    match memIndex k with
    | some i => .next { m with mem := Function.update m.mem i m.A }
    | none => .stop (.undefined .memRange)
  | .stx =>
    match memIndex k with
    | some i => .next { m with mem := Function.update m.mem i m.X }
    | none => .stop (.undefined .memRange)
  | .ja => .jump
  | .jmp cond src => .branch (cond.eval m.A (src.value k m))
  | .alu fn src => fn.effect src k m
  | .neg => .next { m with A := -m.A }
  | .tax => .next { m with X := m.A }
  | .txa => .next { m with A := m.X }

/-- An operation other than a store keeps the scratch registers, and a store
changes one of them. -/
theorem Op.effect_mem {m' : Machine} (effect : op.effect k p m = .next m') {r : Fin memWords}
    (other : op = .st ∨ op = .stx → memIndex k ≠ some r) : m'.mem r = m.mem r := by
  have store : ∀ (found : op = .st ∨ op = .stx) (v : Word) (i : Fin memWords),
      memIndex k = some i → Function.update m.mem i v r = m.mem r := by
    intro found v i index
    apply Function.update_of_ne
    rintro rfl
    exact other found index
  have load : ∀ (offsets : Option (List Int)) (update : Word → Machine),
      Effect.ofRead (p.read offsets) update = .next m' → (∀ v, (update v).mem = m.mem) →
      m'.mem r = m.mem r := by
    intro offsets update ran kept
    cases outcome : p.read offsets with
    | error result =>
      rw [outcome] at ran
      cases ran
    | ok v =>
      rw [outcome] at ran
      cases ran
      rw [kept]
  cases op with
  | st =>
    cases index : memIndex k with
    | none =>
      simp only [Op.effect, index] at effect
      cases effect
    | some i =>
      simp only [Op.effect, index] at effect
      cases effect
      exact store (.inl rfl) _ i index
  | stx =>
    cases index : memIndex k with
    | none =>
      simp only [Op.effect, index] at effect
      cases effect
    | some i =>
      simp only [Op.effect, index] at effect
      cases effect
      exact store (.inr rfl) _ i index
  | ldAbs size | ldInd size | ldxMsh => exact load _ _ effect fun _ => rfl
  | alu fn src =>
    simp only [Op.effect, AluOp.effect] at effect
    split at effect
    · cases src <;> cases effect
    · cases effect
      rfl
  | _ =>
    simp only [Op.effect] at effect
    first
      | cases effect
      | split at effect <;> cases effect
    all_goals rfl

/-! ## The interpreter -/

/-- The program counter is a pointer difference: a backward jump can take it
below the first instruction. -/
structure State where
  pc : Int
  m : Machine

/-- The instruction at a program counter. -/
def fetch (prog : List Insn) (pc : Int) : Option Insn :=
  if 0 ≤ pc then prog[pc.toNat]? else none

/-- One turn of the interpreter's loop. -/
def step (prog : List Insn) (p : Packet) : Step State Result := fun s =>
  match fetch prog s.pc with
  | none => .stop (.undefined .pcRange)
  | some i =>
    match decode i.code with
    | none => .stop .abort
    | some op =>
      match op.effect i.k p s.m with
      | .next m => .go ⟨s.pc + 1, m⟩
      | .branch taken =>
        .go ⟨s.pc + 1 + if taken then (i.jt.toNat : Int) else (i.jf.toNat : Int), s.m⟩
      | .jump => .go ⟨s.pc + 1 + i.k.toInt, s.m⟩
      | .stop result => .stop result

/-- Registers start at zero; the scratch words hold whatever was there. -/
def State.init (mem : Fin memWords → Word) : State :=
  ⟨0, ⟨0, 0, mem⟩⟩

/-- `bpf_filter`, run for at most `fuel` instructions on scratch words that are
initially `mem`. The null program accepts everything. -/
def bpfFilter (fuel : Nat) (prog : Option (List Insn)) (p : Packet)
    (mem : Fin memWords → Word) : Next State Result :=
  match prog with
  | none => .stop (.ret (-1))
  | some insns => (step insns p).runFor fuel (.init mem)

/-! ## One step, by cases -/

/-- What a step that moves on can have done. -/
theorem step_go {s t : State} (moved : step prog p s = .go t) :
    ∃ i op, fetch prog s.pc = some i ∧ decode i.code = some op ∧
      ((op.effect i.k p s.m = .next t.m ∧ t.pc = s.pc + 1) ∨
       (∃ taken, op.effect i.k p s.m = .branch taken ∧ t.m = s.m ∧
          t.pc = s.pc + 1 + if taken then (i.jt.toNat : Int) else (i.jf.toNat : Int)) ∨
       (op.effect i.k p s.m = .jump ∧ t.m = s.m ∧ t.pc = s.pc + 1 + i.k.toInt)) := by
  -- `rintro` closes the branches that stop
  revert moved
  fun_cases step prog p s <;> rintro ⟨⟩
  · exact ⟨_, _, by assumption, by assumption, .inl ⟨by assumption, rfl⟩⟩
  · exact ⟨_, _, by assumption, by assumption, .inr (.inl ⟨_, by assumption, rfl, rfl⟩)⟩
  · exact ⟨_, _, by assumption, by assumption, .inr (.inr ⟨by assumption, rfl, rfl⟩)⟩

/-- What a step that stops can have done. -/
theorem step_stop {s : State} {result : Result} (stopped : step prog p s = .stop result) :
    (fetch prog s.pc = none ∧ result = .undefined .pcRange) ∨
    (∃ i, fetch prog s.pc = some i ∧ decode i.code = none ∧ result = .abort) ∨
    (∃ i op, fetch prog s.pc = some i ∧ decode i.code = some op ∧
      op.effect i.k p s.m = .stop result) := by
  -- `rintro` closes the branches that move on
  revert stopped
  fun_cases step prog p s <;> rintro ⟨⟩
  · exact .inl ⟨by assumption, rfl⟩
  · exact .inr (.inl ⟨_, by assumption, by assumption, rfl⟩)
  · exact .inr (.inr ⟨_, _, by assumption, by assumption, by assumption⟩)

/-- An instruction is fetched exactly inside the program. -/
theorem fetch_eq_some_iff {pc : Int} {i : Insn} :
    fetch prog pc = some i ↔ 0 ≤ pc ∧ prog[pc.toNat]? = some i := by
  unfold fetch
  split
  · rename_i nonneg
    simp [nonneg]
  · rename_i negative
    simp [negative]

theorem lt_length_of_fetch {pc : Int} {i : Insn} (fetched : fetch prog pc = some i) :
    0 ≤ pc ∧ pc < prog.length := by
  obtain ⟨nonneg, found⟩ := fetch_eq_some_iff.mp fetched
  obtain ⟨inside, _⟩ := List.getElem?_eq_some_iff.mp found
  omega

/-- Only `BPF_JMP|BPF_JA` jumps unconditionally. -/
theorem Op.effect_jump (jumps : op.effect k p m = .jump) : op = .ja := by
  cases op <;> simp only [Op.effect, Effect.ofRead, AluOp.effect] at jumps <;>
    (try rfl) <;> (repeat' split at jumps) <;> cases jumps

/-- Only the conditional jumps branch. -/
theorem Op.effect_branch {taken : Bool} (branches : op.effect k p m = .branch taken) :
    ∃ cond src, op = .jmp cond src ∧ taken = cond.eval m.A (src.value k m) := by
  cases op <;> simp only [Op.effect, Effect.ofRead, AluOp.effect] at branches
  case jmp cond src =>
    exact ⟨cond, src, rfl, by cases branches; rfl⟩
  all_goals (repeat' split at branches) <;> cases branches

/-- Reading the packet fails in one way only. -/
theorem Packet.read_error {offsets : Option (List Int)} {result : Result}
    (failed : p.read offsets = .error result) : result = .reject .load := by
  unfold Packet.read at failed
  split at failed <;> cases failed
  rfl

/-- Only an opcode without a case aborts. -/
theorem Op.effect_ne_abort (op : Op) (k : Word) (p : Packet) (m : Machine) :
    op.effect k p m ≠ .stop .abort := by
  intro aborts
  cases op <;> simp only [Op.effect, Effect.ofRead, AluOp.effect] at aborts <;>
    (repeat' split at aborts) <;> cases aborts
  all_goals cases Packet.read_error (by assumption)

end Libpcap.Bpf
