/-
# Value numbers stand for values

A table of value numbers is consistent with a machine state when the numbers can be given
values such that every node of the table is true, and every atom with a number other than 0
holds the value of its number. The number of an operation that the filter machine gives up
on, such as a load behind the end of the packet, has no value: it may be in the table, but no
atom of a running machine has it. `opt_stmt` keeps this while it evaluates a statement, and
replaces the statement only by one that does the same, as long as what it numbers is known, it
copies no unknown atom to an unknown one, and it does not divide by a register when the
dividend or the divisor is known to be 0.

The conditions are needed. Two unknown atoms have the same number, 0, and a copy from one
to the other is deleted as if they held the same value. A division by an index register
that is known to be 0 becomes a division by the constant 0, which the filter machine does
not test, and a division of a known 0 becomes a load of 0, which cannot be rejected.
-/

import Libpcap.Gencode.Straight
import Libpcap.Optimize.ValueNumbers

namespace Libpcap.Optimize

open Libpcap.Bpf Libpcap.Gencode Libpcap.Semantics List

/-! ## Statements -/

/-- Execute statements one after the other; a `NOP` is none. -/
def execLive (p : Packet) (stmts : List Stmt) (m : Machine) : Except Result Machine :=
  execStmts p (stmts.filter (·.code ≠ nop)) m

theorem execLive_cons (p : Packet) (s : Stmt) (rest : List Stmt) (m : Machine) :
    execLive p (s :: rest) m =
      match execLive p [s] m with
      | .ok m => execLive p rest m
      | .error result => .error result := by
  have split : (s :: rest).filter (·.code ≠ nop) =
      [s].filter (·.code ≠ nop) ++ rest.filter (·.code ≠ nop) := by
    rw [← filter_append, singleton_append]
  rw [execLive, split, execStmts_append]
  rfl

@[simp]
theorem execLive_nop (p : Packet) (s : Stmt) (m : Machine) :
    execLive p [{ s with code := nop }] m = .ok m := by
  simp [execLive, execStmts]

/-- A statement with a machine operation that does not jump. -/
theorem execLive_op {p : Packet} {s : Stmt} {op : Op} (decoded : decode s.code = some op)
    (m : Machine) :
    execLive p [s] m =
      match op.effect s.k p m with
      | .next m => .ok m
      | .stop result => .error result
      | .branch _ => .error (.undefined .pcRange)
      | .jump => .error (.undefined .pcRange) := by
  have live : s.code ≠ nop := by
    intro dead
    rw [dead] at decoded
    exact absurd decoded (by decide +revert)
  have kept : [s].filter (·.code ≠ nop) = [s] := by simp [live]
  rw [execLive, kept, execStmts, decoded]
  dsimp only
  cases op.effect s.k p m <;> rfl

/-! ## Atoms -/

/-- What an atom holds. -/
def atomValue (m : Machine) (atom : Nat) : Word :=
  if inRange : atom < memWords then m.mem ⟨atom, inRange⟩ else if atom = aAtom then m.A else m.X

/-- Write an atom. -/
def setAtom (m : Machine) (atom : Nat) (w : Word) : Machine :=
  if inRange : atom < memWords then { m with mem := Function.update m.mem ⟨atom, inRange⟩ w }
  else if atom = aAtom then { m with A := w } else { m with X := w }

theorem atomValue_setAtom {m : Machine} {atom other : Nat} {w : Word} (inside : atom < nAtoms)
    (otherInside : other < nAtoms) :
    atomValue (setAtom m atom w) other = if other = atom then w else atomValue m other := by
  have memory : memWords = 16 := rfl
  have accumulator : aAtom = 16 := rfl
  have all : nAtoms = 18 := rfl
  simp only [atomValue, setAtom]
  by_cases scratch : atom < memWords
  · rw [dif_pos scratch]
    by_cases otherScratch : other < memWords
    · rw [dif_pos otherScratch, dif_pos otherScratch]
      by_cases same : other = atom
      · subst same
        simp
      · rw [if_neg same]
        exact Function.update_of_ne (fun equal => same (congrArg Fin.val equal)) _ _
    · have different : other ≠ atom := by omega
      rw [dif_neg otherScratch, dif_neg otherScratch, if_neg different]
  · rw [dif_neg scratch]
    by_cases otherScratch : other < memWords
    · have different : other ≠ atom := by omega
      rw [dif_pos otherScratch, dif_pos otherScratch, if_neg different]
      split <;> rfl
    · rw [dif_neg otherScratch, dif_neg otherScratch]
      by_cases isA : atom = aAtom <;> by_cases otherA : other = aAtom
      · simp [isA, otherA]
      · have different : other ≠ atom := by omega
        simp [isA, otherA]
      · have different : other ≠ atom := by omega
        simp [isA, otherA]
        omega
      · have same : other = atom := by omega
        simp [isA, same]

theorem setAtom_atomValue (m : Machine) (atom : Nat) : setAtom m atom (atomValue m atom) = m := by
  simp only [setAtom, atomValue]
  split
  · simp
  · split <;> rfl

/-! ## Meaning of the table -/

/-- What an operation makes of its operands, when the numbers have the values `value`; nothing
if an operand has no value or the filter machine gives up on the operation. -/
def nodeValue (p : Packet) (value : Nat → Option Word) (code : Code) (v0 v1 : Nat) : Option Word :=
  match decode code with
  | some (.ldAbs size) => (p.read (p.touched size (BitVec.ofNat 32 v0))).toOption
  | some (.ldInd size) =>
    (value v1).bind fun x => (p.read (p.touched size (x + BitVec.ofNat 32 v0))).toOption
  | some .ldLen => some p.wirelen
  | some .ldImm => some (BitVec.ofNat 32 v0)
  | some .ldxMsh =>
    (p.read (p.touchedMsh (BitVec.ofNat 32 v0))).toOption.map fun v : Word => (v &&& 0xf) <<< 2
  | some .neg => (value v0).map (- ·)
  | some (.alu fn _) =>
    (value v0).bind fun a => (value v1).bind fun b =>
      if fn = .div ∧ b = 0 then none else some (fn.eval a b)
  | _ => none

/-- The operands of an operation that are numbers of values. -/
def operands (code : Code) (v0 v1 : Nat) : List Nat :=
  match decode code with
  | some (.ldInd _) => [v1]
  | some .neg => [v0]
  | some (.alu _ _) => [v0, v1]
  | _ => []

/-- The value of an operation depends only on the values of its operands. -/
theorem nodeValue_congr {p : Packet} {value value' : Nat → Option Word} {code : Code} {v0 v1 : Nat}
    (same : ∀ v ∈ operands code v0 v1, value' v = value v) :
    nodeValue p value' code v0 v1 = nodeValue p value code v0 v1 := by
  unfold nodeValue operands at *
  split <;> simp_all

/-- Values of the numbers that make the table true. The numbers are positive and the operands of a
node from the table. The number of an operation that gives no value on the packet, or has an
unknown operand, has none. -/
structure Valued (p : Packet) (t : ValTab) (value : Nat → Option Word) : Prop where
  size : t.vmap.size = t.curval + 1
  bound : ∀ n ∈ t.nodes, 0 < n.val ∧ n.val ≤ t.curval
  inTable : ∀ n ∈ t.nodes, ∀ v ∈ operands n.code n.v0 n.v1, v ≤ t.curval
  zero : value 0 = none
  holds : ∀ n ∈ t.nodes, value n.val = nodeValue p value n.code n.v0 n.v1
  consts : ∀ v c, t.vmap.get v = some c → value v = some c

theorem Valued.init (p : Packet) : Valued p .init fun _ => none where
  size := rfl
  bound := forall_mem_nil _
  inTable := forall_mem_nil _
  zero := rfl
  holds := forall_mem_nil _
  consts v c found := by
    cases v with
    | zero => cases found
    | succ v => cases found

/-- A table has grown, and its values have been extended. -/
structure Extends (p : Packet) (t : ValTab) (value : Nat → Option Word) (t' : ValTab)
    (value' : Nat → Option Word) : Prop where
  valued : Valued p t' value'
  larger : t.curval ≤ t'.curval
  same : ∀ u ≤ t.curval, value' u = value u

section F

variable {p : Packet} {t : ValTab} {value : Nat → Option Word}

/-- `F` returns the number of a node of the table. -/
theorem ValTab.mem_f (t : ValTab) (code : Code) (v0 v1 : Nat) :
    ⟨code, v0, v1, (t.f code v0 v1).1⟩ ∈ (t.f code v0 v1).2.nodes := by
  rw [ValTab.f]
  split
  case h_1 n found =>
    have matched := find?_some found
    simp only [Bool.and_eq_true, beq_iff_eq] at matched
    obtain ⟨⟨rfl, rfl⟩, rfl⟩ := matched
    exact mem_of_find?_eq_some found
  case h_2 => exact mem_cons_self

/-- `F` on operands of the table. -/
theorem Valued.f (valued : Valued p t value) (code : Code) (v0 v1 : Nat)
    (inTable : ∀ v ∈ operands code v0 v1, v ≤ t.curval)
    (immediate : isImmediate code = true → decode code = some .ldImm) :
    ∃ value', Extends p t value (t.f code v0 v1).2 value' := by
  rw [ValTab.f]
  split
  case h_1 => exact ⟨value, valued, le_rfl, fun _ _ => rfl⟩
  case h_2 =>
  let value' := Function.update value (t.curval + 1) (nodeValue p value code v0 v1)
  have same : ∀ u ≤ t.curval, value' u = value u :=
    fun u le => Function.update_of_ne (by omega) _ _
  have new : value' (t.curval + 1) = nodeValue p value code v0 v1 := Function.update_self _ _ _
  refine ⟨value', ⟨by rw [Store.size_alloc, valued.size], ?_, ?_,
    (same 0 (Nat.zero_le _)).trans valued.zero, ?_, ?_⟩, Nat.le_succ _, same⟩
  · refine forall_mem_cons.mpr ⟨⟨Nat.succ_pos _, le_rfl⟩, fun n member => ?_⟩
    exact ⟨(valued.bound n member).1, (valued.bound n member).2.trans (Nat.le_succ _)⟩
  · refine forall_mem_cons.mpr ⟨fun v operand => (inTable v operand).trans (Nat.le_succ _),
      fun n member v operand => (valued.inTable n member v operand).trans (Nat.le_succ _)⟩
  · refine forall_mem_cons.mpr ⟨?_, fun n member => ?_⟩
    · exact new.trans (nodeValue_congr fun v operand => same v (inTable v operand)).symm
    · rw [nodeValue_congr fun v operand => same v (valued.inTable n member v operand),
        same n.val (valued.bound n member).2]
      exact valued.holds n member
  · intro v c found
    rw [Store.get_alloc, valued.size] at found
    split at found
    case isTrue last =>
      subst last
      split at found
      case isTrue constant =>
        rw [new, nodeValue, immediate constant]
        exact found
      case isFalse => cases found
    case isFalse old => exact (Function.update_of_ne old _ _).trans (valued.consts v c found)

end F

/-! ## Consistent states -/

/-- The atoms have numbers from the table, and those whose number is not 0 hold the values of
their numbers. -/
structure Fits (val : Vals) (t : ValTab) (m : Machine) (value : Nat → Option Word) : Prop where
  size : val.size = nAtoms
  bounded : ∀ atom, val.get atom ≤ t.curval
  atoms : ∀ atom < nAtoms, val.get atom ≠ 0 → value (val.get atom) = some (atomValue m atom)

/-- A table of values is consistent with a machine state: equal numbers other than 0 stand for
equal values, the number of a constant for that constant, and 0 for anything. -/
def Consistent (p : Packet) (val : Vals) (t : ValTab) (m : Machine) : Prop :=
  ∃ value, Valued p t value ∧ Fits val t m value

section Fits

variable {p : Packet} {val : Vals} {t : ValTab} {m : Machine} {value : Nat → Option Word}
  {atom v : Nat} {w : Word} (fits : Fits val t m value)
include fits

theorem Fits.extend {t' : ValTab} {value' : Nat → Option Word}
    (extended : Extends p t value t' value') : Fits val t' m value' where
  size := fits.size
  bounded atom := (fits.bounded atom).trans extended.larger
  atoms atom inside known :=
    (extended.same _ (fits.bounded atom)).trans (fits.atoms atom inside known)

variable (inside : atom < nAtoms)
include inside

/-- An atom is written, and gets the number of what is written, or 0. -/
theorem Fits.set (le : v ≤ t.curval) (number : v ≠ 0 → value v = some w) :
    Fits (val.set atom v) t (setAtom m atom w) value := by
  have get (other : Nat) : (val.set atom v).get other = if other = atom then v else val.get other :=
    val.get_modify _ (fits.size.symm ▸ inside) other
  refine ⟨(val.size_modify _ _).trans fits.size, fun other => ?_, fun other otherInside known => ?_⟩
  · rw [get]
    split
    · exact le
    · exact fits.bounded other
  · rw [get] at known ⊢
    rw [atomValue_setAtom inside otherInside]
    split at known
    case isTrue here =>
      rw [if_pos here, if_pos here]
      exact number known
    case isFalse other' =>
      rw [if_neg other', if_neg other']
      exact fits.atoms other otherInside known

/-- Writing to an atom what its number stands for changes nothing. -/
theorem Fits.setAtom_eq (known : val.get atom ≠ 0) (held : value (val.get atom) = some w) :
    setAtom m atom w = m := by
  rw [← Option.some.inj ((fits.atoms atom inside known).symm.trans held)]
  exact setAtom_atomValue m atom

theorem Fits.const_eq (valued : Valued p t value) {c : Word}
    (constant : t.vmap.get (val.get atom) = some c) : atomValue m atom = c := by
  have held := valued.consts _ c constant
  have known : val.get atom ≠ 0 := by
    intro unknown
    rw [unknown, valued.zero] at held
    cases held
  exact Option.some.inj ((fits.atoms atom inside known).symm.trans held)

end Fits

/-! ## One statement -/

/-- A statement may be replaced by what `opt_stmt` makes of it: it does the same, and the table is
consistent with the state after it. -/
structure Replaces (p : Packet) (m : Machine) (s : Stmt) (e : Evaluated) : Prop where
  same : execLive p [e.s] m = execLive p [s] m
  consistent : ∀ m', execLive p [s] m = .ok m' → Consistent p e.val e.sym.tab m'

theorem isImmediate_eq_false {code : Code} {op : Op} (decoded : decode code = some op)
    (other : op ≠ .ldImm ∧ op ≠ .ldxImm) : isImmediate code = false := by
  have all : ∀ op : Op, op ≠ .ldImm ∧ op ≠ .ldxImm → isImmediate op.encode = false := by decide
  rw [← decode_eq_some_iff.mp decoded]
  exact all op other

section Replaces

variable {p : Packet} {val : Vals} {sym : Sym} {m : Machine} {value : Nat → Option Word}
  {s s' : Stmt} {atom v v0 v1 : Nat} {w c : Word} {alter : Bool} {op : Op} {code : Code}

/-- `K` -/
theorem Valued.k (valued : Valued p sym.tab value) (i : Word) :
    ∃ value', Extends p sym.tab value (sym.k i).2.tab value' ∧
      (sym.k i).1 ≤ (sym.k i).2.tab.curval ∧ 0 < (sym.k i).1 ∧ value' (sym.k i).1 = some i := by
  have decoded : decode (bpfLd ||| bpfImm ||| bpfW) = some .ldImm := by decide
  obtain ⟨value', extended⟩ := valued.f (bpfLd ||| bpfImm ||| bpfW) i.toNat 0
    (by rw [operands, decoded]; exact forall_mem_nil _) fun _ => decoded
  have member := sym.tab.mem_f (bpfLd ||| bpfImm ||| bpfW) i.toNat 0
  have bound := extended.valued.bound _ member
  refine ⟨value', extended, bound.2, bound.1, (extended.valued.holds _ member).trans ?_⟩
  rw [nodeValue, decoded]
  simp

/-- `F` for an operation that is not a constant. -/
theorem Valued.number (valued : Valued p sym.tab value) (v0 v1 : Nat)
    (decoded : decode code = some op) (other : op ≠ .ldImm ∧ op ≠ .ldxImm)
    (inTable : ∀ v ∈ operands code v0 v1, v ≤ sym.tab.curval) :
    ∃ value', Extends p sym.tab value (sym.f code v0 v1).2.tab value' ∧
      (sym.f code v0 v1).1 ≤ (sym.f code v0 v1).2.tab.curval ∧ 0 < (sym.f code v0 v1).1 ∧
      value' (sym.f code v0 v1).1 = nodeValue p value code v0 v1 := by
  obtain ⟨value', extended⟩ := valued.f code v0 v1 inTable fun constant =>
    absurd constant (by rw [isImmediate_eq_false decoded other]; decide)
  have member := sym.tab.mem_f code v0 v1
  have bound := extended.valued.bound _ member
  refine ⟨value', extended, bound.2, bound.1, (extended.valued.holds _ member).trans ?_⟩
  exact nodeValue_congr fun v operand => extended.same v (inTable v operand)

variable (valued : Valued p sym.tab value) (fits : Fits val sym.tab m value)
include valued fits

/-- A statement that does nothing. -/
theorem Fits.replaces_none (ran : execLive p [s] m = .ok m) (ran' : execLive p [s'] m = .ok m) :
    Replaces p m s ⟨s', val, sym⟩ where
  same := ran'.trans ran.symm
  consistent m' ended := by
    obtain rfl := Except.ok.inj (ran.symm.trans ended)
    exact ⟨value, valued, fits⟩

/-- A statement that writes an atom, and one that does the same. -/
theorem Fits.replaces_set (inside : atom < nAtoms) (le : v ≤ sym.tab.curval)
    (number : v ≠ 0 → value v = some w) (ran : execLive p [s] m = .ok (setAtom m atom w))
    (ran' : execLive p [s'] m = .ok (setAtom m atom w)) :
    Replaces p m s ⟨s', val.set atom v, sym⟩ where
  same := ran'.trans ran.symm
  consistent m' ended := by
    obtain rfl := Except.ok.inj (ran.symm.trans ended)
    exact ⟨value, valued, fits.set inside le number⟩

/-- The same by `vstore`, which deletes it if the atom has the number already. -/
theorem Fits.replaces_store (inside : atom < nAtoms) (le : v ≤ sym.tab.curval)
    (number : v ≠ 0 → value v = some w) (known : alter = true → val.get atom = v → v ≠ 0)
    (ran : execLive p [s] m = .ok (setAtom m atom w))
    (ran' : execLive p [s'] m = .ok (setAtom m atom w)) :
    Replaces p m s (.store s' val sym atom v alter) := by
  by_cases deleted : alter = true ∧ val.get atom = v
  · obtain ⟨on, rfl⟩ := deleted
    have nonzero := known on rfl
    rw [fits.setAtom_eq inside nonzero (number nonzero)] at ran
    simp only [Evaluated.store, vstore, on, true_and, if_true]
    exact fits.replaces_none valued ran (execLive_nop p s' m)
  · simp only [Evaluated.store, vstore, if_neg deleted]
    exact fits.replaces_set valued inside le number ran ran'

/-- A load that is numbered by `F` and written by `vstore`. If the load is rejected, the number
has no value, so no atom has it. -/
theorem Fits.replaces_load (decoded : decode code = some op) (other : op ≠ .ldImm ∧ op ≠ .ldxImm)
    (inTable : ∀ v ∈ operands code v0 v1, v ≤ sym.tab.curval) (inside : atom < nAtoms)
    (ran : execLive p [s] m =
      match nodeValue p value code v0 v1 with
      | some w => .ok (setAtom m atom w)
      | none => .error (.reject .load))
    (ran' : execLive p [s'] m = execLive p [s] m) :
    Replaces p m s (.store s' val (sym.f code v0 v1).2 atom (sym.f code v0 v1).1 alter) := by
  obtain ⟨value', extended, le, positive, number⟩ := valued.number v0 v1 decoded other inTable
  have fits' := fits.extend extended
  cases found : nodeValue p value code v0 v1 with
  | some w =>
    rw [found] at ran number
    exact fits'.replaces_store extended.valued inside le (fun _ => number)
      (fun _ _ => positive.ne') ran (ran'.trans ran)
  | none =>
    rw [found] at ran number
    have kept : ¬ (alter = true ∧ val.get atom = (sym.f code v0 v1).1) := by
      rintro ⟨-, has⟩
      have held := fits'.atoms atom inside (has ▸ positive.ne')
      rw [has, number] at held
      cases held
    simp only [Evaluated.store, vstore, if_neg kept]
    refine ⟨ran', fun _ ended => ?_⟩
    cases ran.symm.trans ended

/-- A constant is loaded to an atom, instead of the statement. -/
theorem Fits.replaces_const (inside : atom < nAtoms)
    (ran : execLive p [s] m = .ok (setAtom m atom c))
    (ran' : execLive p [s'] m = .ok (setAtom m atom c)) :
    Replaces p m s ⟨s', val.set atom (sym.k c).1, (sym.k c).2⟩ := by
  obtain ⟨value', extended, le, -, number⟩ := valued.k c
  exact (fits.extend extended).replaces_set extended.valued inside le (fun _ => number) ran ran'

/-- The same by `vstore`. -/
theorem Fits.replaces_storeConst (inside : atom < nAtoms)
    (ran : execLive p [s] m = .ok (setAtom m atom c))
    (ran' : execLive p [s'] m = .ok (setAtom m atom c)) :
    Replaces p m s (.store s' val (sym.k c).2 atom (sym.k c).1 alter) := by
  obtain ⟨value', extended, le, positive, number⟩ := valued.k c
  exact (fits.extend extended).replaces_store extended.valued inside le (fun _ => number)
    (fun _ _ => positive.ne') ran ran'

/-- The value of an atom is copied to another. -/
theorem Fits.replaces_copy {source target : Nat} (insideS : source < nAtoms)
    (insideT : target < nAtoms) (known : alter = true → val.get source ≠ 0 ∨ val.get target ≠ 0)
    (ran : execLive p [s] m = .ok (setAtom m target (atomValue m source)))
    (ran' : execLive p [s'] m = .ok (setAtom m target (atomValue m source))) :
    Replaces p m s (.store s' val sym target (val.get source) alter) :=
  fits.replaces_store valued insideT (fits.bounded source) (fits.atoms source insideS)
    (fun on same => (known on).elim id (same ▸ ·)) ran ran'

end Replaces

/-! ## The cases of `opt_stmt` -/

/-- The atoms whose numbers `opt_stmt` hands to `F`. -/
def numbered (alter : Bool) (op : Op) (k : Word) (val : Vals) (sym : Sym) : List Nat :=
  match op with
  | .ldInd _ => [xAtom]
  | .neg => [aAtom]
  | .alu fn .k => if alter ∧ k = 0 ∧ fn ∉ [.sub, .div] then [] else [aAtom]
  | .alu fn .x =>
    if alter ∧ sym.const (val.get xAtom) = none ∧ sym.const (val.get aAtom) = some 0 ∧ fn ≠ .sub
    then [] else [aAtom, xAtom]
  | _ => []

/-- The atom that an operation copies, and the one it is copied to. -/
def copies (op : Op) (k : Word) : Option (Nat × Nat) :=
  match op with
  | .ldMem => some (k.toNat, aAtom)
  | .ldxMem => some (k.toNat, xAtom)
  | .st => some (aAtom, k.toNat)
  | .stx => some (xAtom, k.toNat)
  | .tax => some (aAtom, xAtom)
  | .txa => some (xAtom, aAtom)
  | _ => none

/-- The condition under which `opt_stmt` is right about an operation: nothing is known of the
index register if it gets the packet length, which is not evaluated; what is numbered is known;
an unknown atom is not copied to an unknown one; its scratch word exists; and if it is a division,
it is not one of a known 0 or by a known 0. -/
structure Evaluable (alter : Bool) (op : Op) (k : Word) (val : Vals) (sym : Sym) : Prop where
  evaluated : op = .ldxLen → val.get xAtom = 0
  known : ∀ atom ∈ numbered alter op k val sym, val.get atom ≠ 0
  copied : alter = true → ∀ source target, copies op k = some (source, target) →
    val.get source ≠ 0 ∨ val.get target ≠ 0
  scratch : op = .ldMem ∨ op = .ldxMem ∨ op = .st ∨ op = .stx → k.toNat < memWords
  divK : alter = true → op = .alu .div .k → sym.const (val.get aAtom) ≠ none → k ≠ 0
  divX : alter = true → op = .alu .div .x → sym.const (val.get xAtom) ≠ some 0 ∧
    (sym.const (val.get xAtom) = none → sym.const (val.get aAtom) ≠ some 0)

section Cases

variable {p : Packet} {val : Vals} {sym : Sym} {m : Machine} {value : Nat → Option Word} {s : Stmt}
  {alter : Bool}

theorem memIndex_of_lt {k : Word} (inside : k.toNat < memWords) :
    memIndex k = some ⟨k.toNat, inside⟩ := by
  rw [memIndex, dif_pos inside]

theorem setAtom_scratch (m : Machine) (w : Word) {i : Nat} (inside : i < memWords) :
    setAtom m i w = { m with mem := Function.update m.mem ⟨i, inside⟩ w } := by
  rw [setAtom, dif_pos inside]

theorem atomValue_scratch (m : Machine) {i : Nat} (inside : i < memWords) :
    atomValue m i = m.mem ⟨i, inside⟩ := by
  rw [atomValue, dif_pos inside]

/-- A load from the packet to the accumulator. -/
theorem execLive_load (offsets : Option (List Int)) {op : Op} (decoded : decode s.code = some op)
    (effect : op.effect s.k p m = .ofRead (p.read offsets) fun v => { m with A := v }) :
    execLive p [s] m =
      match (p.read offsets).toOption with
      | some w => .ok (setAtom m aAtom w)
      | none => .error (.reject .load) := by
  rw [execLive_op decoded, effect]
  cases offsets with
  | none => rfl
  | some offsets => rfl

theorem alter_of_const {v : Nat} {c : Word}
    (found : (if alter then sym.const v else none) = some c) :
    alter = true ∧ sym.const v = some c := by
  split at found
  case isTrue on => exact ⟨on, found⟩
  case isFalse => cases found

theorem execLive_loadConst (s : Stmt) (c : Word) :
    execLive p [loadConst s c] m = .ok (setAtom m aAtom c) := by
  have decoded : decode (loadConst s c).code = some .ldImm := by
    change decode (bpfLd ||| bpfImm) = _
    decide
  rw [execLive_op decoded]
  rfl

theorem execLive_alu {fn : AluOp} {src : Src} (decoded : decode s.code = some (.alu fn src))
    (defined : ¬ (fn = .div ∧ src.value s.k m = 0)) :
    execLive p [s] m = .ok (setAtom m aAtom (fn.eval m.A (src.value s.k m))) := by
  rw [execLive_op decoded]
  simp only [Op.effect, AluOp.effect, if_neg defined]
  rfl

variable (valued : Valued p sym.tab value) (fits : Fits val sym.tab m value)
include valued fits

/-- A register is stored in a scratch word. -/
theorem Fits.replaces_storeMem {atom : Nat} (insideK : s.k.toNat < memWords)
    (inside : atom < nAtoms) (known : alter = true → val.get atom ≠ 0 ∨ val.get s.k.toNat ≠ 0)
    (ran : execLive p [s] m =
      .ok { m with mem := Function.update m.mem ⟨s.k.toNat, insideK⟩ (atomValue m atom) }) :
    Replaces p m s (.store s val sym s.k.toNat (val.get atom) alter) := by
  rw [← setAtom_scratch m _ insideK] at ran
  exact fits.replaces_copy valued inside (insideK.trans (by decide)) known ran ran

/-- Arithmetic on a known accumulator and a numbered operand. -/
theorem Fits.replaces_alu {fn : AluOp} {src : Src} {s' : Stmt} {v : Nat}
    (decoded : decode s'.code = some (.alu fn src)) (known : val.get aAtom ≠ 0)
    (le : v ≤ sym.tab.curval) (operand : value v = some (src.value s'.k m))
    (same : execLive p [s'] m = execLive p [s] m) :
    Replaces p m s ⟨s', val.set aAtom (sym.f s'.code (val.get aAtom) v).1,
      (sym.f s'.code (val.get aAtom) v).2⟩ := by
  have accumulator : value (val.get aAtom) = some m.A := fits.atoms aAtom (by decide) known
  obtain ⟨value', extended, bound, -, number⟩ := valued.number (val.get aAtom) v
    decoded (by simp) (by
      rw [operands, decoded]
      exact forall_mem_cons.mpr ⟨fits.bounded aAtom, forall_mem_singleton.mpr le⟩)
  by_cases zero : fn = .div ∧ src.value s'.k m = 0
  · refine ⟨same, fun m' ended => ?_⟩
    rw [← same, execLive_op decoded] at ended
    simp only [Op.effect, AluOp.effect, if_pos zero] at ended
    cases src <;> cases ended
  · have ran := execLive_alu (p := p) decoded zero
    refine (fits.extend extended).replaces_set extended.valued (by decide) bound (fun _ => ?_)
      (same.symm.trans ran) ran
    rw [number, nodeValue, decoded]
    simp only [accumulator, operand, Option.bind_some, if_neg zero]

/-- A scratch word is loaded, or the constant that is known to be in it. -/
theorem Fits.replaces_loadMem {imm : Code} {atom : Nat}
    (insideK : s.k.toNat < memWords) (inside : atom < nAtoms)
    (known : alter = true → val.get s.k.toNat ≠ 0 ∨ val.get atom ≠ 0)
    (ran : execLive p [s] m = .ok (setAtom m atom (atomValue m s.k.toNat)))
    (immediate : ∀ c, execLive p [{ s with code := imm, k := c }] m = .ok (setAtom m atom c)) :
    Replaces p m s (optLoadMem imm atom alter s val sym) := by
  have insideS : s.k.toNat < nAtoms := insideK.trans (by decide)
  rw [optLoadMem]
  split
  case h_1 c constant =>
    have held := fits.const_eq insideS valued (alter_of_const constant).2
    have undone : Valued p sym.undo.tab value ∧ Fits val sym.undo.tab m value := ⟨valued, fits⟩
    refine undone.2.replaces_copy undone.1 insideS inside known ran ?_
    rw [held]
    exact immediate c
  case h_2 => exact fits.replaces_copy valued insideS inside known ran ran

end Cases

/-- A result of `opt_stmt` that may replace the statement, on every packet and in every machine
state that fits what is known. -/
def Rewrites (s : Stmt) (val : Vals) (sym : Sym) (result : Except Fault Evaluated) : Prop :=
  ∃ e, result = .ok e ∧ ∀ p m value, Valued p sym.tab value → Fits val sym.tab m value →
    Replaces p m s e

section Rewrites

variable {val : Vals} {sym : Sym} {s : Stmt} {alter : Bool}

theorem rewrites_ldInd {size : Size} (decoded : decode s.code = some (.ldInd size))
    (known : val.get xAtom ≠ 0) : Rewrites s val sym (optStmt alter s val sym) := by
  rw [optStmt, decoded]
  dsimp only
  split
  case h_1 x constant =>
    refine ⟨_, rfl, fun p m value valued fits => ?_⟩
    -- the index is a constant, which becomes part of the offset
    have isX : m.X = x := fits.const_eq (by decide) valued (alter_of_const constant).2
    let absolute : Stmt := { s with code := bpfLd ||| bpfAbs ||| size.code, k := s.k + x }
    have decoded' : decode absolute.code = some (.ldAbs size) := by
      change decode (bpfLd ||| bpfAbs ||| size.code) = _
      cases size <;> decide
    have undone : Valued p sym.undo.tab value ∧ Fits val sym.undo.tab m value := ⟨valued, fits⟩
    refine undone.2.replaces_load undone.1 decoded' (by simp) ?_ (by decide) ?_ ?_
    · rw [operands, decoded']
      exact forall_mem_nil _
    · rw [execLive_load (p.touched size (m.X + s.k)) decoded rfl, nodeValue, decoded', isX]
      simp only [BitVec.ofNat_toNat, BitVec.setWidth_eq, BitVec.add_comm]
    · rw [execLive_load (p.touched size (s.k + x)) decoded' rfl,
        execLive_load (p.touched size (m.X + s.k)) decoded rfl, isX, BitVec.add_comm]
  case h_2 =>
    refine ⟨_, rfl, fun p m value valued fits => ?_⟩
    have index : value (val.get xAtom) = some m.X := fits.atoms xAtom (by decide) known
    refine fits.replaces_load valued decoded (by simp) ?_ (by decide) ?_ rfl
    · rw [operands, decoded]
      exact forall_mem_singleton.mpr (fits.bounded xAtom)
    · rw [execLive_load (p.touched size (m.X + s.k)) decoded rfl, nodeValue, decoded]
      simp [index]

theorem rewrites_neg (decoded : decode s.code = some .neg) (known : val.get aAtom ≠ 0) :
    Rewrites s val sym (optStmt alter s val sym) := by
  have ran (p : Packet) (m : Machine) : execLive p [s] m = .ok (setAtom m aAtom (-m.A)) := by
    rw [execLive_op decoded]
    rfl
  rw [optStmt, decoded]
  dsimp only
  split
  case h_1 a constant =>
    refine ⟨_, rfl, fun p m value valued fits => ?_⟩
    have isA : m.A = a := fits.const_eq (by decide) valued (alter_of_const constant).2
    have ran := ran p m
    rw [isA] at ran
    exact fits.replaces_const valued (by decide) ran (execLive_loadConst s (-a))
  case h_2 =>
    refine ⟨_, rfl, fun p m value valued fits => ?_⟩
    have accumulator : value (val.get aAtom) = some m.A := fits.atoms aAtom (by decide) known
    obtain ⟨value', extended, le, -, number⟩ := valued.number (val.get aAtom) 0 decoded
      (by simp) (by rw [operands, decoded]; exact forall_mem_singleton.mpr (fits.bounded aAtom))
    refine (fits.extend extended).replaces_set extended.valued (by decide) le (fun _ => ?_)
      (ran p m) (ran p m)
    rw [number, nodeValue, decoded]
    simp [accumulator]

/-- Arithmetic with a constant. -/
theorem rewrites_aluK {fn : AluOp} (decoded : decode s.code = some (.alu fn .k))
    (known : ¬ (alter = true ∧ s.k = 0 ∧ fn ∉ [.sub, .div]) → val.get aAtom ≠ 0)
    (divK : alter = true → fn = .div → sym.const (val.get aAtom) ≠ none → s.k ≠ 0) :
    Rewrites s val sym (optAluK fn alter s val sym) := by
  -- a constant 0 that is not subtracted or divided by
  have zero : ∀ p m result, s.k = 0 → fn ∉ [.sub, .div] → fn.eval m.A 0 = result →
      execLive p [s] m = .ok (setAtom m aAtom result) := by
    rintro p m _ isZero among rfl
    have defined : ¬ (fn = .div ∧ Src.value .k s.k m = 0) := fun ⟨isDiv, _⟩ =>
      among (by simp [isDiv])
    rw [execLive_alu decoded defined, ← isZero]
    rfl
  unfold optAluK
  split
  case isTrue neutral =>
    obtain ⟨-, isZero, among⟩ := neutral
    refine ⟨_, rfl, fun p m value valued fits => ?_⟩
    have ran : execLive p [s] m = .ok m :=
      zero p m m.A isZero (by revert among; cases fn <;> simp) (by
        revert among
        cases fn <;> simp [AluOp.eval])
    exact fits.replaces_none valued ran (execLive_nop p s m)
  split
  case isTrue absorbing =>
    obtain ⟨-, isZero, among⟩ := absorbing
    refine ⟨_, rfl, fun p m value valued fits => ?_⟩
    have ran : execLive p [s] m = .ok (setAtom m aAtom s.k) :=
      zero p m s.k isZero (by revert among; cases fn <;> simp) (by
        rw [isZero]
        revert among
        cases fn <;> simp [AluOp.eval])
    exact fits.replaces_const valued (by decide) ran (execLive_loadConst s s.k)
  case isFalse notNeutral notAbsorbing =>
  split
  case h_1 a constant =>
    obtain ⟨on, found⟩ := alter_of_const constant
    have defined : ¬ (fn = .div ∧ s.k = 0) := fun zero =>
      divK on zero.1 (by simp [found]) zero.2
    rw [foldOp, if_neg defined]
    refine ⟨_, rfl, fun p m value valued fits => ?_⟩
    have isA : m.A = a := fits.const_eq (by decide) valued found
    have ran := execLive_alu (p := p) (m := m) decoded defined
    rw [isA] at ran
    obtain ⟨value', extended, -⟩ := valued.k s.k
    have undone : Valued p (sym.k s.k).2.undo.tab value' := extended.valued
    exact (fits.extend extended).replaces_const undone (by decide) ran (execLive_loadConst s _)
  case h_2 =>
    have isKnown : val.get aAtom ≠ 0 := by
      refine known fun ⟨on, isZero, among⟩ => ?_
      cases fn <;> simp_all
    refine ⟨_, rfl, fun p m value valued fits => ?_⟩
    obtain ⟨value', extended, le, -, number⟩ := valued.k s.k
    exact (fits.extend extended).replaces_alu extended.valued decoded isKnown le number rfl

/-- Arithmetic with the index register. -/
theorem rewrites_aluX {fn : AluOp} (decoded : decode s.code = some (.alu fn .x))
    (known : ¬ (alter = true ∧ sym.const (val.get xAtom) = none ∧
      sym.const (val.get aAtom) = some 0 ∧ fn ≠ .sub) → val.get aAtom ≠ 0 ∧ val.get xAtom ≠ 0)
    (divX : alter = true → fn = .div → sym.const (val.get xAtom) ≠ some 0 ∧
      (sym.const (val.get xAtom) = none → sym.const (val.get aAtom) ≠ some 0)) :
    Rewrites s val sym (optAluX fn alter s val sym) := by
  unfold optAluX
  split
  case h_1 x constantX =>
    obtain ⟨on, foundX⟩ := alter_of_const constantX
    have nonzero : ¬ (fn = .div ∧ x = 0) := by
      rintro ⟨isDiv, rfl⟩
      exact (divX on isDiv).1 foundX
    have ran : ∀ p m value, Valued p sym.tab value → Fits val sym.tab m value →
        execLive p [s] m = .ok (setAtom m aAtom (fn.eval m.A x)) := by
      intro p m value valued fits
      have isX : m.X = x := fits.const_eq (by decide) valued foundX
      rw [← isX] at nonzero ⊢
      exact execLive_alu decoded nonzero
    split
    case h_1 a constantA =>
      rw [foldOp, if_neg nonzero]
      refine ⟨_, rfl, fun p m value valued fits => ?_⟩
      have isA : m.A = a := fits.const_eq (by decide) valued constantA
      have undone : Valued p sym.undo.tab value := valued
      exact fits.replaces_const undone (by decide) (isA ▸ ran p m value valued fits)
        (execLive_loadConst s _)
    case h_2 =>
      have isKnown := known fun folds => by cases folds.2.1.symm.trans foundX
      have decoded' : decode (bpfAlu ||| bpfK ||| fn.code) = some (.alu fn .k) := by
        cases fn <;> decide
      refine ⟨_, rfl, fun p m value valued fits => ?_⟩
      have undone : Valued p sym.undo.tab value := valued
      obtain ⟨value', extended, le, -, number⟩ := undone.k x
      exact (fits.extend extended).replaces_alu extended.valued decoded' isKnown.1 le number
        ((execLive_alu decoded' nonzero).trans (ran p m value valued fits).symm)
  case h_2 notConst =>
  -- the accumulator is known to be 0, and is not divided
  have zero : ∀ p m value, Valued p sym.tab value → Fits val sym.tab m value → alter = true →
      sym.const (val.get aAtom) = some 0 →
      execLive p [s] m = .ok (setAtom m aAtom (fn.eval 0 m.X)) := by
    intro p m value valued fits on isZero
    rw [if_pos on] at notConst
    have isA : m.A = 0 := fits.const_eq (by decide) valued isZero
    have defined : ¬ (fn = .div ∧ Src.value .x s.k m = 0) :=
      fun ⟨isDiv, _⟩ => (divX on isDiv).2 notConst isZero
    rw [execLive_alu decoded defined, isA]
    rfl
  split
  case isTrue copies =>
    obtain ⟨on, isZero, among⟩ := copies
    refine ⟨_, rfl, fun p m value valued fits => ?_⟩
    have ran := zero p m value valued fits on isZero
    have result : fn.eval 0 m.X = m.X := by
      revert among
      cases fn <;> simp [AluOp.eval]
    rw [result] at ran
    have decoded' : decode (bpfMisc ||| bpfTxa) = some .txa := by decide
    have ran' : execLive p [{ s with code := bpfMisc ||| bpfTxa }] m =
        .ok (setAtom m aAtom (atomValue m xAtom)) := by
      rw [execLive_op decoded']
      rfl
    refine fits.replaces_copy valued (by decide) (by decide) (fun _ => .inr ?_) ran ran'
    intro unknown
    have held := valued.consts _ _ isZero
    rw [unknown, valued.zero] at held
    cases held
  split
  case isTrue absorbs =>
    obtain ⟨on, isZero, among⟩ := absorbs
    refine ⟨_, rfl, fun p m value valued fits => ?_⟩
    have ran := zero p m value valued fits on isZero
    have result : fn.eval 0 m.X = 0 := by
      revert among
      cases fn <;> simp [AluOp.eval]
    rw [result] at ran
    exact fits.replaces_storeConst valued (by decide) ran (execLive_loadConst s 0)
  case isFalse notCopies notAbsorbs =>
    have isKnown := known fun ⟨on, _, isZero, notSub⟩ => by
      cases fn <;> simp_all
    refine ⟨_, rfl, fun p m value valued fits => ?_⟩
    exact fits.replaces_alu valued decoded isKnown.1 (fits.bounded xAtom)
      (fits.atoms xAtom (by decide) isKnown.2) rfl

/-- One statement that `opt_stmt` may evaluate. -/
theorem rewrites_optStmt (evaluable : ∀ op, decode s.code = some op →
    Evaluable alter op s.k val sym) : Rewrites s val sym (optStmt alter s val sym) := by
  cases decoded : decode s.code with
  | none =>
    rw [optStmt, decoded]
    refine ⟨_, rfl, fun p m value valued fits => ⟨rfl, fun m' ended => ?_⟩⟩
    by_cases dead : s.code = nop
    · have ran := execLive_nop p s m
      rw [← dead] at ran
      cases ran.symm.trans ended
      exact ⟨value, valued, fits⟩
    · simp [execLive, dead, execStmts, decoded] at ended
  | some op =>
  have able := evaluable op decoded
  have effect (p : Packet) := execLive_op (p := p) decoded
  cases op with
  | ldInd size => exact rewrites_ldInd decoded (able.known xAtom (by simp [numbered]))
  | neg => exact rewrites_neg decoded (able.known aAtom (by simp [numbered]))
  | alu fn src =>
    rw [optStmt, decoded]
    have known := able.known
    cases src with
    | k =>
      refine rewrites_aluK decoded (fun other => known _ ?_) ?_
      · rw [numbered, if_neg other]
        exact mem_cons_self
      · rintro on rfl
        exact able.divK on rfl
    | x =>
      refine rewrites_aluX decoded (fun other => ?_) ?_
      · rw [numbered, if_neg other] at known
        exact ⟨known aAtom (by simp), known xAtom (by simp)⟩
      · rintro on rfl
        exact able.divX on rfl
  | ldAbs size =>
    rw [optStmt, decoded]
    refine ⟨_, rfl, fun p m value valued fits => ?_⟩
    refine fits.replaces_load valued decoded (by simp) (by simp [operands, decoded]) (by decide) ?_ rfl
    rw [execLive_load (p.touched size s.k) decoded rfl, nodeValue, decoded]
    simp only [BitVec.ofNat_toNat, BitVec.setWidth_eq]
  | ldLen =>
    rw [optStmt, decoded]
    refine ⟨_, rfl, fun p m value valued fits => ?_⟩
    refine fits.replaces_load valued decoded (by simp) (by simp [operands, decoded]) (by decide) ?_ rfl
    rw [effect, nodeValue, decoded]
    rfl
  | ldxMsh =>
    rw [optStmt, decoded]
    refine ⟨_, rfl, fun p m value valued fits => ?_⟩
    refine fits.replaces_load valued decoded (by simp) (by simp [operands, decoded]) (by decide) ?_ rfl
    rw [effect, nodeValue, decoded]
    simp only [BitVec.ofNat_toNat, BitVec.setWidth_eq, Op.effect]
    cases p.touchedMsh s.k with
    | none => rfl
    | some offsets => rfl
  | ldImm | ldxImm =>
    rw [optStmt, decoded]
    refine ⟨_, rfl, fun p m value valued fits => ?_⟩
    exact fits.replaces_storeConst valued (by decide) (effect p m) (effect p m)
  | txa | tax =>
    rw [optStmt, decoded]
    refine ⟨_, rfl, fun p m value valued fits => ?_⟩
    exact fits.replaces_copy valued (by decide) (by decide) (fun on => able.copied on _ _ rfl)
      (effect p m) (effect p m)
  | ldMem | ldxMem =>
    have inside := able.scratch (by simp)
    rw [optStmt, decoded]
    refine ⟨_, rfl, fun p m value valued fits => ?_⟩
    refine fits.replaces_loadMem valued inside (by decide) (fun on => able.copied on _ _ rfl) ?_
      fun c => ?_
    · rw [effect, Op.effect, memIndex_of_lt inside, atomValue_scratch m inside]
      rfl
    · rw [execLive_op (show decode _ = some _ from rfl)]
      rfl
  | st | stx =>
    have inside := able.scratch (by simp)
    rw [optStmt, decoded]
    refine ⟨_, rfl, fun p m value valued fits => ?_⟩
    refine fits.replaces_storeMem valued inside (by decide) (fun on => able.copied on _ _ rfl) ?_
    rw [effect, Op.effect, memIndex_of_lt inside]
    rfl
  | ldxLen =>
    rw [optStmt, decoded]
    refine ⟨_, rfl, fun p m value valued fits => ⟨rfl, fun m' ended => ?_⟩⟩
    cases (effect p m).symm.trans ended
    refine ⟨value, valued, fits.size, fits.bounded, fun atom inside isKnown => ?_⟩
    have other : atom ≠ xAtom := fun same => isKnown (same ▸ able.evaluated rfl)
    rw [fits.atoms atom inside isKnown]
    exact congrArg some ((atomValue_setAtom (show xAtom < nAtoms by decide) inside).trans
      (if_neg other)).symm
  | retK | retA | ja | jmp cond src =>
    rw [optStmt, decoded]
    refine ⟨_, rfl, fun p m value valued fits => ⟨rfl, fun _ ended => ?_⟩⟩
    cases (effect p m).symm.trans ended

end Rewrites

/-! ## A list of statements -/

/-- `opt_stmt` is right about every statement of a list: each one meets the condition with the
values before it. -/
def Admissible (alter : Bool) : List Stmt → Vals → Sym → Prop
  | [], _, _ => True
  | s :: rest, val, sym =>
    (∀ op, decode s.code = some op → Evaluable alter op s.k val sym) ∧
      match optStmt alter s val sym with
      | .ok e => Admissible alter rest e.val e.sym
      | .error _ => True

/-- The statements are evaluated without an error, and what they become does the same on every
packet and in every machine state that the table is consistent with. -/
theorem Admissible.optStmts {alter : Bool} {stmts : List Stmt} {val : Vals} {sym : Sym}
    (admissible : Admissible alter stmts val sym) :
    ∃ stmts' val' sym', optStmts alter stmts val sym = .ok (stmts', val', sym') ∧
      ∀ p m, Consistent p val sym.tab m → execLive p stmts' m = execLive p stmts m ∧
        ∀ m', execLive p stmts m = .ok m' → Consistent p val' sym'.tab m' := by
  induction stmts generalizing val sym with
  | nil =>
    refine ⟨[], val, sym, rfl, fun p m consistent => ⟨rfl, fun m' ended => ?_⟩⟩
    cases ended
    exact consistent
  | cons s rest ih =>
    obtain ⟨evaluable, admissible⟩ := admissible
    obtain ⟨e, evaluated, replaces⟩ := rewrites_optStmt evaluable
    rw [evaluated] at admissible
    obtain ⟨rest', val', sym', rewritten, same⟩ := ih admissible
    refine ⟨e.s :: rest', val', sym', ?_, ?_⟩
    · simp only [Optimize.optStmts, evaluated, rewritten, bind, Except.bind]
      rfl
    · rintro p m ⟨value, valued, fits⟩
      have replaced := replaces p m value valued fits
      rw [execLive_cons, execLive_cons p s, replaced.same]
      cases ran : execLive p [s] m with
      | error result => exact ⟨rfl, fun _ ended => by cases ended⟩
      | ok next => exact same p next (replaced.consistent next ran)

/-- The statements as `opt_stmt` leaves them do what the statements did, and the table stays
consistent. -/
theorem optStmts_sound {p : Packet} {alter : Bool} {stmts : List Stmt} {val : Vals} {sym : Sym}
    {m : Machine} (consistent : Consistent p val sym.tab m)
    (admissible : Admissible alter stmts val sym) :
    ∃ stmts' val' sym', optStmts alter stmts val sym = .ok (stmts', val', sym') ∧
      execLive p stmts' m = execLive p stmts m ∧
      ∀ m', execLive p stmts m = .ok m' → Consistent p val' sym'.tab m' := by
  obtain ⟨stmts', val', sym', rewritten, same⟩ := admissible.optStmts
  exact ⟨stmts', val', sym', rewritten, same p m consistent⟩

/-- Nothing is known in the first block: every machine state is consistent with that. -/
theorem consistent_unknown (p : Packet) (m : Machine) : Consistent p .unknown .init m := by
  have zero : ∀ atom, Vals.unknown.get atom = 0 := fun atom =>
    (Store.get_replicate nAtoms 0 atom).trans (ite_self 0)
  exact ⟨_, .init p, by decide, fun atom => (zero atom).le,
    fun atom _ known => absurd (zero atom) known⟩

/-- `ld #6; tax; div x` with nothing known before it becomes `ld #6; tax; ld #1`. -/
theorem optStmts_sound_div :
    ∃ (p : Packet) (m : Machine) (stmts' : List Stmt) (val' : Vals) (sym' : Sym),
      optStmts true [newStmt (bpfLd ||| bpfImm) 6, newStmt (bpfMisc ||| bpfTax) 0,
        newStmt (bpfAlu ||| bpfDiv ||| bpfX) 0] .unknown ⟨.init, true⟩ = .ok (stmts', val', sym') ∧
      stmts' = [newStmt (bpfLd ||| bpfImm) 6, newStmt (bpfMisc ||| bpfTax) 0,
        newStmt (bpfLd ||| bpfImm) 1] ∧
      execLive p stmts' m = execLive p [newStmt (bpfLd ||| bpfImm) 6,
        newStmt (bpfMisc ||| bpfTax) 0, newStmt (bpfAlu ||| bpfDiv ||| bpfX) 0] m := by
  have admissible : Admissible true [newStmt (bpfLd ||| bpfImm) 6, newStmt (bpfMisc ||| bpfTax) 0,
      newStmt (bpfAlu ||| bpfDiv ||| bpfX) 0] .unknown ⟨.init, true⟩ := by
    refine ⟨?_, ?_, ?_, trivial⟩
    · rintro op ⟨⟩
      exact ⟨nofun, nofun, nofun, nofun, nofun, nofun⟩
    · rintro op ⟨⟩
      refine ⟨nofun, nofun, ?_, nofun, nofun, nofun⟩
      rintro _ source target ⟨⟩
      exact .inl (by decide)
    · rintro op ⟨⟩
      exact ⟨nofun, by decide, nofun, nofun, nofun, fun _ _ => by decide⟩
  let p : Packet := ⟨[], 0, fun _ => 0, by decide⟩
  let m : Machine := ⟨0, 0, fun _ => 0⟩
  obtain ⟨stmts', val', sym', rewritten, same, -⟩ :=
    optStmts_sound (consistent_unknown p m) admissible
  refine ⟨p, m, stmts', val', sym', rewritten, ?_, same⟩
  cases rewritten
  rfl

/-- With nothing known, a copy from the accumulator to the index register is deleted. And
`ldx 4*([0]&0xf); ld #0; div x` becomes a load of 0, which rejects no packet. -/
theorem unknown_copy_deleted :
    (∃ (p : Packet) (m : Machine) (val : Vals) (sym : Sym),
      Consistent p .unknown .init m ∧
      optStmts true [newStmt (bpfMisc ||| bpfTax) 0] .unknown ⟨.init, true⟩ =
        .ok ([newStmt nop 0], val, sym) ∧
      execLive p [newStmt nop 0] m ≠ execLive p [newStmt (bpfMisc ||| bpfTax) 0] m) ∧
    ∃ (p : Packet) (m m' : Machine) (stmts : List Stmt) (val : Vals) (sym : Sym),
      Consistent p .unknown .init m ∧
      optStmts true [newStmt (bpfLdx ||| bpfMsh ||| bpfB) 0, newStmt (bpfLd ||| bpfImm) 0,
        newStmt (bpfAlu ||| bpfDiv ||| bpfX) 0] .unknown ⟨.init, true⟩ = .ok (stmts, val, sym) ∧
      execLive p stmts m = .ok m' ∧
      execLive p [newStmt (bpfLdx ||| bpfMsh ||| bpfB) 0, newStmt (bpfLd ||| bpfImm) 0,
        newStmt (bpfAlu ||| bpfDiv ||| bpfX) 0] m = .error (.reject .division) := by
  refine ⟨⟨⟨[], 0, fun _ => 0, by decide⟩, ⟨1, 0, fun _ => 0⟩, _, _, consistent_unknown _ _, rfl,
    ?_⟩,
    ⟨[0], 0, fun _ => 0, by decide⟩, ⟨0, 0, fun _ => 0⟩, ⟨0, 0, fun _ => 0⟩, _, _, _,
    consistent_unknown _ _, rfl, ?_, ?_⟩
  · intro same
    injection same with same
    exact absurd (congrArg Machine.X same) (by decide)
  · rfl
  · rfl

end Libpcap.Optimize
