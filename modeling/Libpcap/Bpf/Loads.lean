/-
# Packet loads and the captured bytes

Before a load, `bpf_filter` compares the end of the accessed range with the
captured length. For words and half words the sum `k + sizeof(...)` is taken of
a sign-extended index, so an index in the last few values below `2 ^ 32` wraps
to a small sum, passes the test, and the load reads in front of the buffer. For
single bytes the comparison is unsigned and the indexing is signed, which
disagrees once more than `2 ^ 31` bytes are captured.

`Packet.Escapes` names exactly these indices. The main theorem says that a run
keeps all its packet reads inside the captured bytes if and only if no load of
the run is executed at such an index.
-/

import Libpcap.Bpf.Filter

namespace Libpcap.Bpf

open Libpcap.Semantics

variable {offsets : List Int} {m : Machine} {op : Op} {p : Packet} {k : Word}

/-! ## Which offsets are captured bytes -/

namespace Packet

variable (p : Packet)

/-- Every offset is the index of a captured byte. -/
def Inside (offsets : List Int) : Prop :=
  ∀ i ∈ offsets, 0 ≤ i ∧ i < p.buflen

instance (offsets : List Int) : Decidable (p.Inside offsets) :=
  inferInstanceAs (Decidable (∀ i ∈ offsets, 0 ≤ i ∧ i < p.buflen))

/-- The sum of the index and the size passes `2 ^ 32`, and what is left of it
passes the length test. -/
def EscapesSized (n : Nat) (k : Word) : Prop :=
  2 ^ 32 ≤ k.toNat + n ∧ k.toNat + n - 2 ^ 32 ≤ p.buflen

/-- The length test of a load accepts the index although the load does not stay
inside the captured bytes. -/
def Escapes (size : Size) (k : Word) : Prop :=
  match size with
  | .w => p.EscapesSized 4 k
  | .h => p.EscapesSized 2 k
  | .b => 2 ^ 31 ≤ k.toNat ∧ k.toNat < p.buflen

/-- The sum that the length test computes, in 64 bits. -/
theorem signExtend_add_toNat (k : Word) (n : Nat) (small : n < 2 ^ 31) :
    (k.signExtend 64 + BitVec.ofNat 64 n).toNat =
      if k.toNat < 2 ^ 31 then k.toNat + n else (2 ^ 64 - 2 ^ 32 + k.toNat + n) % 2 ^ 64 := by
  have bound := k.isLt
  rw [BitVec.toNat_add, BitVec.toNat_signExtend]
  simp only [BitVec.msb_eq_decide, BitVec.toNat_setWidth, BitVec.toNat_ofNat]
  split <;> rename_i sign <;> simp only [decide_eq_true_eq, not_le] at sign <;> split <;> omega

theorem touchedSized_inside_iff {n : Nat} (positive : 0 < n) (small : n < 2 ^ 31)
    (accepted : p.touchedSized n k = some offsets) :
    p.Inside offsets ↔ ¬ p.EscapesSized n k := by
  have bound := k.isLt
  have short := p.length_lt
  have signed := BitVec.toInt_eq_toNat_cond k
  have sum := signExtend_add_toNat k n small
  unfold touchedSized at accepted
  generalize (k.signExtend 64 + BitVec.ofNat 64 n).toNat = total at accepted sum
  split at accepted
  · cases accepted
  · rename_i fits
    cases accepted
    simp only [Inside, EscapesSized, buflen, List.mem_map, List.mem_range,
      forall_exists_index, and_imp] at fits ⊢
    constructor
    · intro inside
      have first := inside _ 0 positive rfl
      split at sum <;> split at signed <;> omega
    · rintro stays _ j below rfl
      split at sum <;> split at signed <;> omega

/-- An accepted load stays inside the captured bytes exactly when its index does
not escape the length test. -/
theorem touched_inside_iff {size : Size} (accepted : p.touched size k = some offsets) :
    p.Inside offsets ↔ ¬ p.Escapes size k := by
  cases size with
  | w | h => exact p.touchedSized_inside_iff (by decide) (by decide) accepted
  | b =>
    have signed := BitVec.toInt_eq_toNat_cond k
    have short := p.length_lt
    simp only [touched] at accepted
    split at accepted
    · cases accepted
    · rename_i fits
      cases accepted
      simp only [Inside, Escapes, buflen, List.mem_cons, List.not_mem_nil, or_false,
        forall_eq] at fits ⊢
      split at signed <;> omega

theorem touchedSized_of_escapes {n : Nat} (small : n < 2 ^ 31) (escapes : p.EscapesSized n k) :
    ∃ offsets, p.touchedSized n k = some offsets := by
  have bound := k.isLt
  obtain ⟨wraps, fits⟩ := escapes
  refine ⟨_, if_neg ?_⟩
  rw [signExtend_add_toNat k n small]
  split <;> omega

/-- An index that escapes is one the length test accepts. -/
theorem touched_of_escapes {size : Size} (escapes : p.Escapes size k) :
    ∃ offsets, p.touched size k = some offsets := by
  cases size with
  | w | h => exact p.touchedSized_of_escapes (by decide) escapes
  | b => exact ⟨_, if_neg (Nat.not_le.mpr escapes.2)⟩

theorem touchedMsh_inside (accepted : p.touchedMsh k = some offsets) : p.Inside offsets := by
  unfold touchedMsh at accepted
  split at accepted
  · cases accepted
  · cases accepted
    simp only [Inside, List.mem_cons, List.not_mem_nil, or_false, forall_eq]
    omega

end Packet

/-! ## Loads along a run -/

/-- The load of an instruction is executed at an index that escapes its length
test: for `BPF_IND` the index is the 32-bit sum of `X` and the constant. -/
def Op.Escapes (op : Op) (k : Word) (p : Packet) (m : Machine) : Prop :=
  match op with
  | .ldAbs size => p.Escapes size k
  | .ldInd size => p.Escapes size (m.X + k)
  | _ => False

/-- An accepted packet access of an instruction is inside the captured bytes
exactly when its index does not escape. -/
theorem Op.packetReads_inside_iff (accepted : op.packetReads k p m = some offsets) :
    p.Inside offsets ↔ ¬ op.Escapes k p m := by
  cases op with
  | ldAbs size | ldInd size => exact p.touched_inside_iff accepted
  | ldxMsh =>
    simp only [Op.Escapes, not_false_iff, iff_true]
    exact p.touchedMsh_inside accepted
  | _ =>
    cases accepted
    simp [Packet.Inside, Op.Escapes]

theorem Op.packetReads_of_escapes (escapes : op.Escapes k p m) :
    ∃ offsets, op.packetReads k p m = some offsets := by
  cases op with
  | ldAbs size | ldInd size => exact p.touched_of_escapes escapes
  | _ => exact escapes.elim

/-- A rejected access ends the run. -/
theorem Op.effect_of_packetReads_none (rejected : op.packetReads k p m = none) :
    op.effect k p m = .stop (.reject .load) := by
  cases op <;> simp only [Op.packetReads, reduceCtorEq] at rejected <;>
    simp only [Op.effect, rejected, Packet.read, Effect.ofRead]

/-- The instruction about to be executed reads only captured bytes, or makes
the interpreter return 0. -/
def LoadsInside (prog : List Insn) (p : Packet) (s : State) : Prop :=
  ∀ i op, fetch prog s.pc = some i → decode i.code = some op →
    match op.packetReads i.k p s.m with
    | some offsets => p.Inside offsets
    | none => ∃ result, step prog p s = .stop result ∧ result.returned = some 0

/-- The instruction about to be executed is a load at an escaping index. -/
def LoadEscapes (prog : List Insn) (p : Packet) (s : State) : Prop :=
  ∃ i op, fetch prog s.pc = some i ∧ decode i.code = some op ∧ op.Escapes i.k p s.m

/-- One step: the loads are inside exactly when none escapes. -/
theorem loadsInside_iff (prog : List Insn) (p : Packet) (s : State) :
    LoadsInside prog p s ↔ ¬ LoadEscapes prog p s := by
  constructor
  · rintro inside ⟨i, op, fetched, decoded, escapes⟩
    have here := inside i op fetched decoded
    obtain ⟨offsets, accepted⟩ := Op.packetReads_of_escapes escapes
    simp only [accepted] at here
    exact (Op.packetReads_inside_iff accepted).mp here escapes
  · intro stays i op fetched decoded
    split
    · rename_i offsets accepted
      refine (Op.packetReads_inside_iff accepted).mpr ?_
      intro escapes
      exact stays ⟨i, op, fetched, decoded, escapes⟩
    · rename_i rejected
      refine ⟨.reject .load, ?_, rfl⟩
      simp only [step, fetched, decoded, Op.effect_of_packetReads_none rejected]

/-- From any start, all packet reads of a run are captured bytes (and a load
that would not be is answered by returning 0) if and only if the run executes
no load at an escaping index. -/
theorem run_loadsInside_iff (prog : List Insn) (p : Packet) (start : State) :
    (∀ s, (step prog p).Reaches start s → LoadsInside prog p s) ↔
      ∀ s, (step prog p).Reaches start s → ¬ LoadEscapes prog p s := by
  constructor
  · intro inside s reached
    exact (loadsInside_iff prog p s).mp (inside s reached)
  · intro stays s reached
    exact (loadsInside_iff prog p s).mpr (stays s reached)

/-- Four captured bytes and the program `ld [-4]; ret a`: the word load passes
its length test and reads the four bytes in front of the buffer. -/
theorem wordLoad_reads_before_buffer :
    ¬ ∀ (prog : List Insn) (p : Packet) (start s : State),
      (step prog p).Reaches start s → LoadsInside prog p s := by
  intro claim
  let prog : List Insn := [⟨0x20, 0, 0, 0xfffffffc⟩, ⟨0x16, 0, 0, 0⟩]
  let p : Packet := ⟨[0, 0, 0, 0], 4, fun _ => 0, by decide⟩
  have inside := claim prog p (.init fun _ => 0) _ (.refl _) ⟨0x20, 0, 0, 0xfffffffc⟩
    (.ldAbs .w) rfl (by decide)
  have reads : (Op.ldAbs .w).packetReads 0xfffffffc p ⟨0, 0, fun _ => 0⟩ =
      some [-4, -3, -2, -1] := by decide
  have bad : p.Inside [-4, -3, -2, -1] := by
    simpa only [State.init, reads] using inside
  exact absurd bad (by decide)

end Libpcap.Bpf
