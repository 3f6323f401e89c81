/-
# The program validator

`bpf_validate` in its userland configuration, and what it guarantees about every
run of the interpreter. The validator looks at each instruction once, by the
class, mode and operation fields of its opcode; jump targets are computed with
unsigned 32-bit sums, and backward unconditional jumps are allowed.

`Op.Checked` collects what an accepted instruction satisfies when it is one the
interpreter knows. The control-flow invariant follows from it instruction by
instruction: the signed displacement the interpreter adds and the unsigned sum
the validator compares agree as long as the program length fits an `int`.
-/

import Libpcap.Bpf.Filter

namespace Libpcap.Bpf

open Libpcap.Semantics List

variable {i : Insn} {idx : Nat} {op : Op} {f : Program}

/-! ## `bpf_validate` -/

/-- The `BPF_LD` and `BPF_LDX` classes. -/
def validLoad (i : Insn) : Bool :=
  if bpfMode i.code = bpfImm then true
  else if bpfMode i.code = bpfAbs ∨ bpfMode i.code = bpfInd ∨ bpfMode i.code = bpfMsh then true
  else if bpfMode i.code = bpfMem then decide (i.k.toNat < memWords)
  else if bpfMode i.code = bpfLen then true
  else false

/-- The `BPF_ALU` class. -/
def validAlu (i : Insn) : Bool :=
  if bpfOp i.code ∈ [bpfAdd, bpfSub, bpfMul, bpfOr, bpfAnd, bpfLsh, bpfRsh, bpfNeg] then true
  else if bpfOp i.code = bpfDiv then !decide (bpfSrc i.code = bpfK ∧ i.k = 0)
  else false

/-- The `BPF_JMP` class; `start` is the source's `from`. -/
def validJmp (len : Nat) (start : Word) (i : Insn) : Bool :=
  if bpfOp i.code = bpfJa then decide ((start + i.k).toNat < len)
  else if bpfOp i.code ∈ [bpfJeq, bpfJgt, bpfJge, bpfJset] then
    decide ((start + i.jt.setWidth 32).toNat < len ∧ (start + i.jf.setWidth 32).toNat < len)
  else false

/-- One turn of the validator's loop, at index `idx`. -/
def validInsn (len idx : Nat) (i : Insn) : Bool :=
  if bpfClass i.code = bpfLd ∨ bpfClass i.code = bpfLdx then validLoad i
  else if bpfClass i.code = bpfSt ∨ bpfClass i.code = bpfStx then decide (i.k.toNat < memWords)
  else if bpfClass i.code = bpfAlu then validAlu i
  else if bpfClass i.code = bpfJmp then validJmp len (BitVec.ofNat 32 idx + 1) i
  else if bpfClass i.code = bpfRet then true
  else if bpfClass i.code = bpfMisc then true
  else false

def bpfValidate (f : Program) : Bool :=
  if f.insns.length < 1 then false
  else
    f.insns.zipIdx.all (fun entry => validInsn f.insns.length entry.2 entry.1) &&
      match f.insns.getLast? with
      | some i => bpfClass i.code == bpfRet
      | none => false

theorem bpfValidate_insn (valid : bpfValidate f = true) (found : f.insns[idx]? = some i) :
    validInsn f.insns.length idx i = true := by
  unfold bpfValidate at valid
  split at valid
  · cases valid
  · rw [Bool.and_eq_true, all_eq_true] at valid
    exact valid.1 (i, idx) (mem_zipIdx_iff_getElem?.mpr found)

theorem bpfValidate_last (valid : bpfValidate f = true)
    (found : f.insns[f.insns.length - 1]? = some i) : bpfClass i.code = bpfRet := by
  unfold bpfValidate at valid
  split at valid
  · cases valid
  · rw [Bool.and_eq_true, getLast?_eq_getElem?, found] at valid
    simpa using valid.2

theorem bpfValidate_length (valid : bpfValidate f = true) : 0 < f.insns.length := by
  unfold bpfValidate at valid
  split at valid
  · cases valid
  · omega

/-! ## What an accepted instruction satisfies -/

/-- The operand checks of the validator, for an instruction the interpreter
knows. -/
def Op.Checked (op : Op) (len idx : Nat) (i : Insn) : Prop :=
  match op with
  | .ldMem | .ldxMem | .st | .stx => i.k.toNat < memWords
  | .alu .div .k => i.k ≠ 0
  | .ja => (BitVec.ofNat 32 idx + 1 + i.k).toNat < len
  | .jmp _ _ =>
    (BitVec.ofNat 32 idx + 1 + i.jt.setWidth 32).toNat < len ∧
      (BitVec.ofNat 32 idx + 1 + i.jf.setWidth 32).toNat < len
  | _ => True

theorem Op.checked_of_valid {len : Nat} (valid : validInsn len idx i = true)
    (decoded : decode i.code = some op) :
    op.Checked len idx i := by
  obtain ⟨code, jt, jf, k⟩ := i
  have same : op.encode = code := decode_eq_some_iff.mp decoded
  subst same
  -- the opcode is closed, so the validator's tests on it evaluate away
  cases op with
  | ldMem | ldxMem => simpa +decide [validInsn, validLoad, Op.Checked] using valid
  | st | stx => simpa +decide [validInsn, Op.Checked] using valid
  | ja => simpa +decide [validInsn, validJmp, Op.Checked] using valid
  | jmp cond src =>
    cases cond <;> cases src <;> simpa +decide [validInsn, validJmp, Op.Checked] using valid
  | alu fn src =>
    cases fn <;> cases src
    case div.k => simpa +decide [validInsn, validAlu, Op.Checked] using valid
    all_goals exact trivial
  | _ => exact trivial

/-! ## Control flow of an accepted program -/

/-- The instructions that index the scratch words with their constant. -/
def Op.usesMem : Op → Bool
  | .ldMem | .ldxMem | .st | .stx => true
  | _ => false

/-- The opcodes of class `BPF_RET` that the interpreter knows stop the run. -/
theorem Op.stops_of_class_ret (returns : bpfClass op.encode = bpfRet) (k : Word) (p : Packet)
    (m : Machine) :
    ∃ value, op.effect k p m = .stop (.ret value) := by
  obtain rfl | rfl := (class_ret_iff op).mp returns
  · exact ⟨k, rfl⟩
  · exact ⟨m.A, rfl⟩

section Accepted

variable {f : Program} {p : Packet} {s t : State}

/-- The program counter is inside the program. -/
def InProgram (f : Program) (s : State) : Prop :=
  0 ≤ s.pc ∧ s.pc < f.insns.length

/-- The instruction at a program counter inside the program has passed the
validator. -/
theorem fetched_valid (valid : bpfValidate f = true) (fetched : fetch f.insns s.pc = some i) :
    validInsn f.insns.length s.pc.toNat i = true :=
  bpfValidate_insn valid (fetch_eq_some_iff.mp fetched).2

/-- The last instruction stops, so whatever continues has a successor. -/
theorem succ_inProgram (valid : bpfValidate f = true) (fetched : fetch f.insns s.pc = some i)
    (decoded : decode i.code = some op) (continues : ∀ result, op.effect i.k p s.m ≠ .stop result) :
    s.pc + 1 < f.insns.length := by
  obtain ⟨nonneg, found⟩ := fetch_eq_some_iff.mp fetched
  obtain ⟨_, inside⟩ := lt_length_of_fetch fetched
  by_contra last
  have index : s.pc.toNat = f.insns.length - 1 := by omega
  rw [index] at found
  have returns := bpfValidate_last valid found
  rw [← decode_eq_some_iff.mp decoded] at returns
  obtain ⟨value, stops⟩ := Op.stops_of_class_ret returns i.k p s.m
  exact continues _ stops

/-- The unsigned sum the validator compares is the signed sum the interpreter
takes: a program of `int` length leaves no room for them to differ. -/
theorem jump_inProgram (f : Program) (pc : Int) (k : Word) (nonneg : 0 ≤ pc)
    (inside : pc < f.insns.length)
    (target : (BitVec.ofNat 32 pc.toNat + 1 + k).toNat < f.insns.length) :
    0 ≤ pc + 1 + k.toInt ∧ pc + 1 + k.toInt < f.insns.length := by
  have short := f.length_lt
  have bound := k.isLt
  have signed := BitVec.toInt_eq_toNat_cond k
  have one : (1 : Word).toNat = 1 := rfl
  simp only [BitVec.toNat_add, BitVec.toNat_ofNat, one] at target
  split at signed <;> omega

theorem branch_inProgram (f : Program) (pc : Int) (d : BitVec 8) (nonneg : 0 ≤ pc)
    (inside : pc < f.insns.length)
    (target : (BitVec.ofNat 32 pc.toNat + 1 + d.setWidth 32).toNat < f.insns.length) :
    pc + 1 + (d.toNat : Int) < f.insns.length := by
  have short := f.length_lt
  have bound := d.isLt
  have one : (1 : Word).toNat = 1 := rfl
  simp only [BitVec.toNat_add, BitVec.toNat_ofNat, BitVec.toNat_setWidth, one] at target
  omega

/-- One step of an accepted program keeps the program counter inside it. -/
theorem step_inProgram (valid : bpfValidate f = true)
    (moved : step f.insns p s = .go t) : InProgram f t := by
  obtain ⟨i, op, fetched, decoded, cases⟩ := step_go moved
  obtain ⟨nonneg, inside⟩ := lt_length_of_fetch fetched
  have checked := Op.checked_of_valid (fetched_valid valid fetched) decoded
  obtain ⟨effect, next⟩ | ⟨taken, effect, _, next⟩ | ⟨effect, _, next⟩ := cases
  · have successor := succ_inProgram valid fetched decoded (p := p) (by simp [effect])
    exact ⟨by omega, by omega⟩
  · obtain ⟨cond, src, rfl, _⟩ := Op.effect_branch effect
    have onTrue := branch_inProgram f s.pc i.jt nonneg inside checked.1
    have onFalse := branch_inProgram f s.pc i.jf nonneg inside checked.2
    rw [InProgram, next]
    cases taken
    · simp only [Bool.false_eq_true, if_false]
      exact ⟨by omega, onFalse⟩
    · simp only [if_true]
      exact ⟨by omega, onTrue⟩
  · obtain rfl := Op.effect_jump effect
    rw [InProgram, next]
    exact jump_inProgram f s.pc i.k nonneg inside checked

/-- A stop of an accepted program inside its range is a return, a rejection or
an unknown opcode. -/
theorem step_stop_defined (valid : bpfValidate f = true) (inside : InProgram f s)
    {result : Result} (stopped : step f.insns p s = .stop result) :
    (∃ value, result = .ret value) ∨ (∃ why, result = .reject why) ∨ result = .abort := by
  obtain ⟨missing, _⟩ | ⟨i, _, _, rfl⟩ | ⟨i, op, fetched, decoded, effect⟩ := step_stop stopped
  · have present : f.insns[s.pc.toNat]? = none := by
      simpa only [fetch, inside.1, if_true] using missing
    rw [List.getElem?_eq_none_iff] at present
    obtain ⟨_, _⟩ := inside
    omega
  · exact .inr (.inr rfl)
  · have checked := Op.checked_of_valid (fetched_valid valid fetched) decoded
    cases op with
    | ldMem | ldxMem | st | stx =>
      simp only [Op.Checked] at checked
      simp [Op.effect, memIndex, checked] at effect
    | ldAbs size | ldInd size | ldxMsh =>
      simp only [Op.effect, Effect.ofRead] at effect
      split at effect
      · cases effect
      · rename_i failed
        cases effect
        exact .inr (.inl ⟨_, Packet.read_error failed⟩)
    | alu fn src =>
      simp only [Op.effect, AluOp.effect] at effect
      split at effect
      · rename_i zero
        obtain ⟨rfl, zero⟩ := zero
        cases src with
        | x =>
          cases effect
          exact .inr (.inl ⟨_, rfl⟩)
        | k => exact absurd zero checked
      · cases effect
    | retK | retA =>
      cases effect
      exact .inl ⟨_, rfl⟩
    | _ => simp [Op.effect] at effect

end Accepted

/-- An accepted program is safe: in every reachable state the program counter is
inside the program, the instruction there indexes only scratch words 0 to 15,
and no stop is one that C leaves undefined, a division by zero included. When no
unconditional jump goes backwards, the run stops within as many steps as the
program has instructions, by a return, a rejected load or division, or an
unknown opcode. -/
theorem validated_run_safe (f : Program) (valid : bpfValidate f = true) (p : Packet)
    (mem : Fin memWords → Word) :
    (∀ s, (step f.insns p).Reaches (.init mem) s →
      (0 ≤ s.pc ∧ s.pc < f.insns.length) ∧
      (∀ i op, fetch f.insns s.pc = some i → decode i.code = some op →
        op.usesMem = true → i.k.toNat < memWords) ∧
      (∀ i op fn src, fetch f.insns s.pc = some i → decode i.code = some op →
        op = .alu fn src → fn = .div → src.value i.k s.m = 0 →
        step f.insns p s = .stop (.reject .division)) ∧
      ∀ how, step f.insns p s ≠ .stop (.undefined how)) ∧
    ((∀ i ∈ f.insns, decode i.code = some .ja → 0 ≤ i.k.toInt) →
      ∃ result, (step f.insns p).runFor f.insns.length (.init mem) = .stop result ∧
        ((∃ value, result = .ret value) ∨ (∃ why, result = .reject why) ∨
          result = .abort)) := by
  have initial : InProgram f (.init mem) := ⟨by simp [State.init], by
    have := bpfValidate_length valid
    simpa [State.init] using this⟩
  have always (s : State) (reached : (step f.insns p).Reaches (.init mem) s) : InProgram f s :=
    reached.invariant (fun _ _ _ moved => step_inProgram valid moved) initial
  refine ⟨fun s reached => ⟨always s reached, ?_, ?_, ?_⟩, fun forward => ?_⟩
  · intro i op fetched decoded uses
    have checked := Op.checked_of_valid (fetched_valid valid fetched) decoded
    cases op <;> first
      | exact checked
      | exact absurd uses (by simp [Op.usesMem])
  · rintro i op fn src fetched decoded rfl rfl zero
    have checked := Op.checked_of_valid (fetched_valid valid fetched) decoded
    cases src with
    | k => exact absurd zero checked
    | x => simp [step, fetched, decoded, Op.effect, AluOp.effect, zero]
  · intro how stopped
    have := step_stop_defined valid (always s reached) stopped
    simp at this
  · -- the distance to the last instruction decreases with every step
    have progress (s t : State) (_ : InProgram f s) (moved : step f.insns p s = .go t) :
        (f.insns.length - 1 - t.pc).toNat < (f.insns.length - 1 - s.pc).toNat := by
      have target := step_inProgram valid moved
      obtain ⟨i, op, fetched, decoded, cases⟩ := step_go moved
      obtain ⟨_, _⟩ := target
      obtain ⟨_, next⟩ | ⟨taken, _, _, next⟩ | ⟨effect, _, next⟩ := cases
      · omega
      · cases taken <;> simp only [Bool.false_eq_true, if_false, if_true] at next <;> omega
      · obtain rfl := Op.effect_jump effect
        have member := mem_of_getElem? (fetch_eq_some_iff.mp fetched).2
        have nonneg := forward i member decoded
        omega
    have positive := bpfValidate_length valid
    have finishes : ∃ result,
        (step f.insns p).runFor f.insns.length (.init mem) = .stop result := by
      apply Step.runFor_stops_of_measure (fun s : State => (f.insns.length - 1 - s.pc).toNat)
        (fun _ _ _ moved => step_inProgram valid moved) progress initial
      show ((f.insns.length : Int) - 1 - 0).toNat < f.insns.length
      omega
    obtain ⟨result, ran⟩ := finishes
    obtain ⟨last, reached, stopped⟩ := Step.stops_iff_runFor.mpr ⟨_, ran⟩
    exact ⟨result, ran, step_stop_defined valid (always last reached) stopped⟩

/-- The theorem on `jge #1, L1, L2; ret #1; ret #0` with the constant 5 loaded
first. -/
theorem validated_run_safe_four_insns :
    bpfValidate ⟨[⟨0x00, 0, 0, 5⟩, ⟨0x35, 0, 1, 1⟩, ⟨0x06, 0, 0, 1⟩, ⟨0x06, 0, 0, 0⟩],
      by decide⟩ = true ∧
    ∃ result, (step [⟨0x00, 0, 0, 5⟩, ⟨0x35, 0, 1, 1⟩, ⟨0x06, 0, 0, 1⟩, ⟨0x06, 0, 0, 0⟩]
        ⟨[], 0, fun _ => 0, by decide⟩).runFor 4 (.init fun _ => 0) = .stop result ∧
      ((∃ value, result = .ret value) ∨ (∃ why, result = .reject why) ∨ result = .abort) := by
  refine ⟨by decide, ?_⟩
  exact (validated_run_safe ⟨[⟨0x00, 0, 0, 5⟩, ⟨0x35, 0, 1, 1⟩, ⟨0x06, 0, 0, 1⟩,
    ⟨0x06, 0, 0, 0⟩], by decide⟩ (by decide) ⟨[], 0, fun _ => 0, by decide⟩
    (fun _ => 0)).2 (by decide)

/-! ## Opcodes the validator lets through -/

/-- Some program with this opcode in it passes the validator. -/
def Installable (code : Code) : Prop :=
  ∃ f : Program, bpfValidate f = true ∧ ∃ i ∈ f.insns, i.code = code

/-- The opcode followed by two returns, with operands that no operand check
objects to. -/
def probe (code : Code) : Program :=
  ⟨[⟨code, 0, 0, 1⟩, ⟨0x06, 0, 0, 0⟩, ⟨0x06, 0, 0, 0⟩], by simp⟩

/-- An instruction that passes with some operands passes with those of the
probe: the remaining tests only look at the opcode. -/
theorem validInsn_probe {len : Nat} (valid : validInsn len idx i = true) :
    validInsn 3 0 ⟨i.code, 0, 0, 1⟩ = true := by
  have load (accepted : validLoad i = true) : validLoad ⟨i.code, 0, 0, 1⟩ = true := by
    unfold validLoad at accepted ⊢
    split_ifs at accepted ⊢ <;> rfl
  have arith (accepted : validAlu i = true) : validAlu ⟨i.code, 0, 0, 1⟩ = true := by
    unfold validAlu at accepted ⊢
    split_ifs at accepted ⊢
    · rfl
    · simp
  have jump (accepted : validJmp len (BitVec.ofNat 32 idx + 1) i = true) :
      validJmp 3 (BitVec.ofNat 32 0 + 1) ⟨i.code, 0, 0, 1⟩ = true := by
    unfold validJmp at accepted ⊢
    split_ifs at accepted ⊢ <;> simp +decide
  unfold validInsn at valid ⊢
  split_ifs at valid ⊢
  · exact load valid
  · simp +decide
  · exact arith valid
  · exact jump valid
  · rfl
  · rfl

theorem bpfValidate_probe_iff {code : Code} :
    bpfValidate (probe code) = true ↔ validInsn 3 0 ⟨code, 0, 0, 1⟩ = true := by
  have second : validInsn 3 1 ⟨0x06, 0, 0, 0⟩ = true := by decide
  have third : validInsn 3 2 ⟨0x06, 0, 0, 0⟩ = true := by decide
  have returns : (bpfClass 0x06 == bpfRet) = true := by decide
  simp only [bpfValidate, probe, length_cons, length_nil, zipIdx_cons,
    zipIdx_nil, all_cons, all_nil, getLast?_cons_cons,
    getLast?_singleton, Nat.reduceAdd, Nat.reduceLT, if_false, second, third, returns,
    Bool.and_true]

theorem installable_iff {code : Code} : Installable code ↔ bpfValidate (probe code) = true := by
  constructor
  · rintro ⟨f, valid, i, member, rfl⟩
    obtain ⟨idx, found⟩ := mem_iff_getElem?.mp member
    exact bpfValidate_probe_iff.mpr (validInsn_probe (bpfValidate_insn valid found))
  · intro valid
    exact ⟨probe code, valid, ⟨code, 0, 0, 1⟩, by simp [probe], rfl⟩

instance (code : Code) : Decidable (Installable code) :=
  decidable_of_iff _ installable_iff.symm

/-- A step aborts exactly on an instruction whose opcode has no case. -/
theorem step_abort {prog : List Insn} {p : Packet} {s : State}
    (stopped : step prog p s = .stop .abort) :
    ∃ i, fetch prog s.pc = some i ∧ decode i.code = none := by
  obtain ⟨_, wrong⟩ | ⟨i, fetched, unknown, _⟩ | ⟨i, op, _, _, effect⟩ := step_stop stopped
  · cases wrong
  · exact ⟨i, fetched, unknown⟩
  · exact absurd effect (Op.effect_ne_abort op i.k p s.m)

/-- For programs over any set of opcodes that contains the plain return, the
interpreter never reaches `abort()` on an accepted program if and only if every
opcode of the set that the validator can let through has a case. -/
theorem accepted_never_aborts_iff (allowed : Code → Prop)
    (canReturn : allowed (bpfRet ||| bpfK)) :
    (∀ (f : Program) (p : Packet) (mem : Fin memWords → Word), bpfValidate f = true →
      (∀ i ∈ f.insns, allowed i.code) → ¬ (step f.insns p).Stops (.init mem) .abort) ↔
    ∀ code, allowed code → Installable code → (decode code).isSome = true := by
  constructor
  · intro safe code permitted installable
    by_contra unknown
    rw [Bool.not_eq_true, Option.isSome_eq_false_iff, Option.isNone_iff_eq_none] at unknown
    have codes : ∀ i ∈ (probe code).insns, allowed i.code := by
      intro i member
      simp only [probe, mem_cons, not_mem_nil, or_false] at member
      obtain rfl | rfl | rfl := member
      · exact permitted
      · exact canReturn
      · exact canReturn
    refine safe (probe code) ⟨[], 0, fun _ => 0, by decide⟩ (fun _ => 0)
      (installable_iff.mp installable) codes (Step.stops_of_step ?_)
    simp [step, fetch, State.init, probe, unknown]
  · rintro known f p mem valid codes ⟨last, _, stopped⟩
    obtain ⟨i, fetched, unknown⟩ := step_abort stopped
    have member := mem_of_getElem? (fetch_eq_some_iff.mp fetched).2
    have decodes := known i.code (codes i member) ⟨f, valid, i, member, rfl⟩
    rw [unknown] at decodes
    cases decodes

/-- The theorem at the opcodes the interpreter has a case for, and a program that branches on
the Ethernet type. -/
theorem accepted_never_aborts_iff_returns :
    let f : Program := ⟨[⟨0x28, 0, 0, 12⟩, ⟨0x15, 0, 1, 0x800⟩, ⟨0x06, 0, 0, 96⟩, ⟨0x06, 0, 0, 0⟩],
      by decide⟩
    bpfValidate f = true ∧
      ∀ (p : Packet) (mem : Fin memWords → Word), ¬ (step f.insns p).Stops (.init mem) .abort := by
  have never := (accepted_never_aborts_iff (fun code => (decode code).isSome = true)
    (by decide)).mpr fun _ known _ => known
  exact ⟨by decide, fun p mem => never _ p mem (by decide) (by decide)⟩

/-- `ret x` (`BPF_RET|BPF_X`) passes the validator and has no case in the
interpreter, so the one-instruction program aborts. -/
theorem retX_accepted_and_aborts :
    ¬ ∀ (f : Program) (p : Packet) (mem : Fin memWords → Word), bpfValidate f = true →
      ¬ (step f.insns p).Stops (.init mem) .abort := by
  intro agree
  exact agree ⟨[⟨bpfRet ||| bpfX, 0, 0, 0⟩], by decide⟩ ⟨[], 0, fun _ => 0, by decide⟩
    (fun _ => 0) (by decide) (Step.stops_of_step (by rfl))

end Libpcap.Bpf
