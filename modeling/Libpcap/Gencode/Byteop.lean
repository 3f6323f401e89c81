/-
# Byte tests

`gen_byteop` is to compare a byte of the packet with a number. For `=`, `<` and `>` its test
loads the byte. For `&` and `|` it combines the number with what is in the accumulator, and
that is whatever the test in front of it has left there.
-/

import Libpcap.Gencode.Fields
import Libpcap.Gencode.Primitive

namespace Libpcap.Gencode

open Libpcap.Bpf Libpcap.Semantics

/-- The relation a byte test is written for. -/
def ByteOp.holds : ByteOp → Word → Word → Bool
  | .eq, x, val => x == val
  | .lt, x, val => decide (x < val)
  | .gt, x, val => decide (val < x)
  | .or, x, val => (x ||| val) != 0
  | .and, x, val => (x &&& val) != 0

/-- The number that the test looks at: what it loads, or what the accumulator holds. -/
def ByteOp.operand (op : ByteOp) (p : Packet) (k : Word) (m : Machine) : Word :=
  match op with
  | .or | .and => m.A
  | _ => (p.byteAt k.toInt).setWidth 32

section Byteop

variable {op : ByteOp} {idx val base : Word} {g g' : Gen} {c : Formula} {p : Packet} {m : Machine}

theorem read_byte {k : Word} (inside : k.toNat < p.data.length) :
    p.read (p.touched .b k) = .ok ((p.byteAt k.toInt).setWidth 32) := by
  have captured : ¬ p.buflen ≤ k.toNat := not_le.mpr inside
  simp [Packet.read, Packet.touched, captured, Packet.bigEndian]

/-- A comparison of a byte behind the start of the link-layer header. -/
theorem genNcmp_byte {jtype : JmpOp} {reverse : Bool}
    (ran : Runs (genNcmp .link idx .b 0xffffffff jtype reverse val) g c g')
    (starts : OffRel.link.base g' m.mem p = some base)
    (inside : (base + idx).toNat < p.data.length) :
    ∃ m', c.eval (leafTest p) m = .ok (xor (decide (reverse ∧ (jtype = .jgt ∨ jtype = .jge)))
      (jtype.eval ((p.byteAt (base + idx).toInt).setWidth 32) val), m') := by
  obtain ⟨tests, -, again⟩ := generates_genNcmp _ _ _ _ _ _ _ _ _ _ ran
  have all : ∀ x : Word, x &&& 0xffffffff = x := fun _ => BitVec.and_allOnes
  have result := tests.eval_outcome p m
  rw [genNcmp_outcome (again g' (.refl g')) starts, read_byte inside] at result
  simp only [all] at result
  obtain ⟨m', evaluated, -⟩ := result
  exact ⟨m', evaluated⟩

theorem genByteop_eval (ran : Runs (genByteop op idx val) g c g')
    (starts : OffRel.link.base g' m.mem p = some base)
    (inside : (base + idx).toNat < p.data.length) :
    ∃ m', c.eval (leafTest p) m = .ok (op.holds (op.operand p (base + idx) m) val, m') := by
  cases op with
  | eq | lt | gt =>
    obtain ⟨m', evaluated⟩ := genNcmp_byte ran starts inside
    refine ⟨m', evaluated.trans ?_⟩
    simp only [ByteOp.operand]
    generalize BitVec.setWidth 32 _ = x
    simp [JmpOp.eval, ByteOp.holds, BitVec.lt_def, ← decide_not]
  | or | and =>
    obtain ⟨rfl, rfl⟩ := runs_pure_iff.mp ran
    exact ⟨_, rfl⟩

/-- Combined with every content of the accumulator, a number comes out as with one byte only if
it hides the accumulator. -/
theorem ByteOp.holds_and_or_iff (x val : Word) :
    ((∀ A, ByteOp.and.holds A val = ByteOp.and.holds x val) ↔ val = 0) ∧
      ((∀ A, ByteOp.or.holds A val = ByteOp.or.holds x val) ↔ val ≠ 0) := by
  constructor
  · constructor
    · intro same
      have equal := (same 0).trans (same val).symm
      simpa [ByteOp.holds] using equal
    · rintro rfl A
      simp [ByteOp.holds]
  · constructor
    · rintro same rfl
      exact absurd ((same 0).trans (same 1).symm) (by decide)
    · intro some A
      have hides : ∀ y, ByteOp.or.holds y val = true := by
        intro y
        rw [ByteOp.holds, bne_iff_ne]
        exact fun zero => some (BitVec.or_eq_zero_iff.mp zero).2
      rw [hides A, hides x]

/-- **Byte tests.** A byte test decides by the number it looks at. With nothing known of the
accumulator, it comes out as the byte and the value are related if and only if the operator
loads the byte and the interpreter can index it (or finds there what is related in the same
way), or the value hides the accumulator: `& 0` and `|` with anything else. -/
theorem genByteop_reads_iff {mem : Reg → Word} (ran : Runs (genByteop op idx val) g c g')
    (starts : OffRel.link.base g' mem p = some base)
    (inside : (base + idx).toNat < p.data.length) :
    (∀ A X, ∃ m', c.eval (leafTest p) ⟨A, X, mem⟩ =
      .ok (op.holds (op.operand p (base + idx) ⟨A, X, mem⟩) val, m')) ∧
    ((∀ A X, ∃ m', c.eval (leafTest p) ⟨A, X, mem⟩ =
        .ok (op.holds (p.data[(base + idx).toNat].setWidth 32) val, m')) ↔
      op = .and ∧ val = 0 ∨ op = .or ∧ val ≠ 0 ∨
        (op = .eq ∨ op = .lt ∨ op = .gt) ∧ ((base + idx).toNat < 2 ^ 31 ∨
          op.holds ((p.around (base + idx).toInt).setWidth 32) val =
            op.holds (p.data[(base + idx).toNat].setWidth 32) val)) := by
  have evaluated : ∀ A X, ∃ m', c.eval (leafTest p) ⟨A, X, mem⟩ =
      .ok (op.holds (op.operand p (base + idx) ⟨A, X, mem⟩) val, m') :=
    fun A X => genByteop_eval (m := ⟨A, X, mem⟩) ran starts inside
  refine ⟨evaluated, Iff.trans (b := ∀ A, op.holds (op.operand p (base + idx) ⟨A, 0, mem⟩) val =
    op.holds (p.data[(base + idx).toNat].setWidth 32) val) ?_ ?_⟩
  · constructor
    · intro reads A
      obtain ⟨m₁, first⟩ := evaluated A 0
      obtain ⟨m₂, second⟩ := reads A 0
      rw [first] at second
      injection second with same
      exact congrArg Prod.fst same
    · intro same A X
      obtain ⟨m', first⟩ := evaluated A X
      refine ⟨m', ?_⟩
      rw [first, ← same A]
      cases op <;> rfl
  · have loaded : p.byteAt (base + idx).toInt =
        if (base + idx).toNat < 2 ^ 31 then p.data[(base + idx).toNat]
        else p.around (base + idx).toInt := by
      split
      · rw [BitVec.toInt_eq_toNat_of_lt (by omega), Packet.byteAt, if_pos (by omega),
          Int.toNat_natCast, List.getElem?_eq_getElem inside, Option.getD_some]
      · rw [Packet.byteAt, if_neg (by rw [BitVec.toInt_eq_toNat_cond]; omega)]
    cases op with
    | and => simp [ByteOp.operand, (ByteOp.holds_and_or_iff _ val).1]
    | or => simp [ByteOp.operand, (ByteOp.holds_and_or_iff _ val).2]
    | eq | lt | gt =>
      by_cases low : (base + idx).toNat < 2 ^ 31 <;>
        simp only [ByteOp.operand, loaded, low, reduceIte, forall_const, reduceCtorEq, true_or,
          or_true, false_or, or_false, false_and, true_and]

end Byteop

/-- The second byte of an Ethernet frame, tested with `=`. -/
theorem genByteop_reads_iff_second : ∃ c g',
    Runs (genByteop .eq 1 7) (.start .ethernet 96) c g' ∧ ∀ A X, ∃ m',
      c.eval (leafTest ⟨[0, 7], 2, fun _ => 0, by decide⟩) ⟨A, X, fun _ => 0⟩ = .ok (true, m') := by
  have ran : Runs (genByteop .eq 1 7) (.start .ethernet 96) _ _ := rfl
  have starts : OffRel.link.base (.start .ethernet 96) (fun _ => 0)
      ⟨[0, 7], 2, fun _ => 0, by decide⟩ = some 0 := rfl
  exact ⟨_, _, ran, (genByteop_reads_iff ran starts (by decide)).2.mpr
    (.inr (.inr ⟨.inl rfl, .inl (by decide)⟩))⟩

/-- `byte 0 = 1 and byte 1 & 1`: the second byte of the packet is zero, and the test on it
comes out true for the first one, which is still in the accumulator. -/
theorem byteop_tests_accumulator : ∃ c c' m', Runs (genByteop .eq 0 1) (.start .ethernet 96) c
      (.start .ethernet 96) ∧
    Runs (genByteop .and 1 1) (.start .ethernet 96) c' (.start .ethernet 96) ∧
    (Cond.and c c').eval (leafTest ⟨[1, 0], 2, fun _ => 0, by decide⟩) ⟨0, 0, fun _ => 0⟩ =
      .ok (true, m') :=
  ⟨_, _, _, rfl, rfl, rfl⟩

end Libpcap.Gencode
