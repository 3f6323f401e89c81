/-
# Stores that nothing reads

`opt_deadstores` goes over a block forward and remembers, for each atom, the last store that has
not been read. It deletes a store when another one to the same atom follows, and at the end of
the block those to atoms that are not in use there.

Read from the end of the block, a store is dead if its atom is not needed behind it. Both scans
delete the same statements (`optDeadstores_eq`), and for the second one it follows by induction
that the machines with and without the deleted statements agree on what is needed.
-/

import Libpcap.Optimize.Liveness

namespace Libpcap.Optimize

open Libpcap.Bpf Libpcap.Gencode Libpcap.Semantics List

variable {b : Block}

/-! ## What an operation does to the atoms -/

/-- How a division by zero ends. -/
def divisionFault : Src → Result
  | .x => .reject .division
  | .k => .undefined .divByZero

/-- The operation writes one atom, with a value that depends on the atoms it reads. -/
def WritesOne (op : Op) (k : Word) (p : Packet) : Prop :=
  ∃ target, ∃ f : Machine → Except Result Word, atomWritten op k = some target ∧
    (∀ m, op.effect k p m = .ofRead (f m) (setAtom m target)) ∧
    ∀ m m', (∀ atom ∈ atomsUsed op k, atomValue m' atom = atomValue m atom) → f m' = f m

section WritesOne

variable {op : Op} {k : Word} {p : Packet} {target : Nat} (written : atomWritten op k = some target)
include written

theorem writesOne_const (value : Except Result Word)
    (effect : ∀ m, op.effect k p m = .ofRead value (setAtom m target)) : WritesOne op k p :=
  ⟨target, fun _ => value, written, effect, fun _ _ _ => rfl⟩

theorem writesOne_of_atom (f : Word → Word) {source : Nat} (used : source ∈ atomsUsed op k)
    (effect : ∀ m, op.effect k p m = .next (setAtom m target (f (atomValue m source)))) :
    WritesOne op k p :=
  ⟨target, fun m => .ok (f (atomValue m source)), written, effect,
    fun _ _ agree => congrArg (fun v => Except.ok (f v)) (agree source used)⟩

end WritesOne

theorem effect_plain {s : Stmt} {op : Op} (decoded : decode s.code = some op)
    (goesOn : isPlain op = true) (ranged : inRange s) (p : Packet) : WritesOne op s.k p := by
  have scratch (uses : usesScratch op = true) := inRange_of_decode ranged decoded uses
  cases op with
  | retK | retA | ja | jmp => cases goesOn
  | ldAbs size => exact writesOne_const rfl (p.read (p.touched size s.k)) fun _ => rfl
  | ldInd size =>
    refine ⟨aAtom, fun m => p.read (p.touched size (m.X + s.k)), rfl, fun _ => rfl, ?_⟩
    intro m m' agree
    have index : m'.X = m.X := agree xAtom (mem_singleton.mpr rfl)
    simp only [index]
  | ldLen | ldxLen => exact writesOne_const rfl (.ok p.wirelen) fun _ => rfl
  | ldImm | ldxImm => exact writesOne_const rfl (.ok s.k) fun _ => rfl
  | ldxMsh =>
    refine writesOne_const rfl ((p.read (p.touchedMsh s.k)).map fun v : Word => (v &&& 0xf) <<< 2)
      fun m => ?_
    simp only [Op.effect]
    cases p.read (p.touchedMsh s.k) <;> rfl
  | ldMem | ldxMem =>
    refine writesOne_of_atom rfl id (mem_singleton.mpr rfl) fun m => ?_
    simp only [Op.effect, memIndex_of_lt (scratch rfl), atomValue_scratch m (scratch rfl)]
    rfl
  | st | stx =>
    refine writesOne_of_atom rfl id (mem_singleton.mpr rfl) fun m => ?_
    simp only [Op.effect, memIndex_of_lt (scratch rfl), setAtom_scratch m _ (scratch rfl)]
    rfl
  | alu fn src =>
    refine ⟨aAtom, fun m => if fn = .div ∧ src.value s.k m = 0 then
        .error (divisionFault src)
      else .ok (fn.eval m.A (src.value s.k m)), rfl, fun m => ?_, ?_⟩
    · simp only [Op.effect, AluOp.effect]
      split
      · cases src <;> rfl
      · rfl
    · intro m m' agree
      have accumulator : m'.A = m.A := agree aAtom (by cases src <;> simp [atomsUsed])
      have operand : src.value s.k m' = src.value s.k m := by
        cases src with
        | k => rfl
        | x => exact agree xAtom (by simp [atomsUsed])
      simp only [accumulator, operand]
  | neg => exact writesOne_of_atom rfl (-·) (mem_singleton.mpr rfl) fun _ => rfl
  | tax | txa => exact writesOne_of_atom rfl id (mem_singleton.mpr rfl) fun _ => rfl

/-! ## From the end of the block -/

/-- An atom is needed by statements, or by what comes behind them. -/
def needed (live : Nat → Bool) (atom : Nat) (rest : List Stmt) : Bool :=
  readsFirst atom rest || (!rest.any (writes atom) && live atom)

/-- A store to an atom that is not needed behind it. -/
def isDead (live : Nat → Bool) (rest : List Stmt) (s : Stmt) : Bool :=
  (List.range nAtoms).any fun atom => writes atom s && !needed live atom rest

/-- Delete the dead stores. -/
def dropDead (live : Nat → Bool) : List Stmt → List Stmt
  | [] => []
  | s :: rest => (if isDead live rest s then { s with code := nop } else s) :: dropDead live rest

section DropDead

variable {live : Nat → Bool} {s : Stmt} {rest : List Stmt}

theorem needed_cons (atom : Nat) :
    needed live atom (s :: rest) =
      (reads atom s || (!writes atom s && needed live atom rest)) := by
  simp only [needed, readsFirst, any_cons]
  cases reads atom s <;> cases writes atom s <;> simp

theorem needed_append (atom : Nat) (front back : List Stmt) :
    needed live atom (front ++ back) = needed (needed live · back) atom front := by
  simp only [needed, readsFirst_append, any_append]
  cases readsFirst atom front <;> cases front.any (writes atom) <;> simp

theorem dropDead_append (front back : List Stmt) :
    dropDead live (front ++ back) = dropDead (needed live · back) front ++ dropDead live back := by
  induction front with
  | nil => rfl
  | cons s front ih =>
    have same : isDead live (front ++ back) s = isDead (needed live · back) front s := by
      simp [isDead, needed_append]
    rw [cons_append, dropDead, dropDead, ih, same, cons_append]

/-- Whether the store of a statement is dead depends on its atom. -/
theorem isDead_iff (readable : Readable s) {target : Nat} (written : writes target s) :
    isDead live rest s = !needed live target rest := by
  have only (atom : Nat) (other : writes atom s) : atom = target :=
    Option.some.inj (((readable.atomdef_eq atom).mpr other).symm.trans
      ((readable.atomdef_eq target).mpr written))
  rw [Bool.eq_iff_iff, isDead, any_eq_true]
  constructor
  · rintro ⟨atom, -, dead⟩
    rw [Bool.and_eq_true] at dead
    exact only atom dead.1 ▸ dead.2
  · intro dead
    refine ⟨target, mem_range.mpr (readable.lt_of_writes written), ?_⟩
    rw [written, dead]
    rfl

/-- The machines with and without the deleted statements agree on what is needed. -/
theorem execLive_dropDead (live : Nat → Bool) {p : Packet} {stmts : List Stmt}
    (allPlain : stmts.all plain) (readable : ∀ s ∈ stmts, Readable s) :
    ∀ m m' last : Machine,
      (∀ atom, atom < nAtoms → needed live atom stmts → atomValue m' atom = atomValue m atom) →
      execLive p stmts m = .ok last →
      ∃ last', execLive p (dropDead live stmts) m' = .ok last' ∧
        ∀ atom, atom < nAtoms → live atom → atomValue last' atom = atomValue last atom := by
  induction stmts with
  | nil =>
    intro m m' last agree ran
    cases ran
    exact ⟨m', rfl, fun atom small used => agree atom small (by simpa [needed] using .inr used)⟩
  | cons s rest ih =>
    intro m m' last agree ran
    rw [all_cons, Bool.and_eq_true] at allPlain
    have here := readable s mem_cons_self
    have later := ih allPlain.2 fun s' mem => readable s' (mem_cons_of_mem s mem)
    rw [execLive_cons] at ran
    rw [dropDead, execLive_cons]
    rcases plain_iff.mp allPlain.1 with dead | ⟨op, decoded, goesOn⟩
    · have skips (m : Machine) : execLive p [s] m = .ok m := by
        simp [execLive, dead, execStmts]
      have unwritten (atom : Nat) : writes atom s = false := by simp [writes, dead, decode_nop]
      have kept : isDead live rest s = false := by simp [isDead, unwritten]
      rw [skips] at ran
      rw [kept, if_neg Bool.false_ne_true, skips]
      refine later _ _ _ (fun atom small used => agree atom small ?_) ran
      rw [needed_cons, unwritten, used]
      simp
    · obtain ⟨target, f, written, effect, depends⟩ := effect_plain decoded goesOn here.ranged p
      have isWritten : writes target s := by simp [writes, decoded, written]
      have small := here.lt_of_writes isWritten
      have other {atom : Nat} (different : atom ≠ target) : writes atom s = false := by
        simpa [writes, decoded, written] using different.symm
      have exec (m : Machine) : execLive p [s] m = (f m).map (setAtom m target) := by
        rw [execLive_op decoded, effect]
        cases f m <;> rfl
      rw [exec] at ran
      cases value : f m with
      | error result =>
        rw [value] at ran
        cases ran
      | ok w =>
        rw [value] at ran
        cases unneeded : isDead live rest s with
        | true =>
          rw [if_pos rfl, execLive_nop]
          refine later _ _ _ (fun atom small' used => ?_) ran
          have different : atom ≠ target := by
            rintro rfl
            rw [isDead_iff here isWritten, used] at unneeded
            cases unneeded
          rw [atomValue_setAtom small small', if_neg different]
          refine agree atom small' ?_
          rw [needed_cons, other different, used]
          simp
        | false =>
          have same : f m' = f m := by
            refine depends m m' fun atom mem => ?_
            have read : reads atom s := by simpa [reads, decoded] using mem
            refine agree atom (here.lt_of_reads read) ?_
            rw [needed_cons, read]
            rfl
          rw [if_neg Bool.false_ne_true, exec, same, value]
          refine later _ _ _ (fun atom small' used => ?_) ran
          rw [atomValue_setAtom small small', atomValue_setAtom small small']
          split
          · rfl
          · rename_i different
            refine agree atom small' ?_
            rw [needed_cons, other different, used]
            simp

end DropDead

/-! ## The forward scan -/

/-- Delete the statements at some positions. -/
def deleted (dead : Nat → Bool) (stmts : List Stmt) : List Stmt :=
  stmts.mapIdx fun j s => if dead j then { s with code := nop } else s

section Deleted

variable {dead dead' : Nat → Bool} {stmts : List Stmt}

theorem getElem?_deleted (j : Nat) :
    (deleted dead stmts)[j]? =
      stmts[j]?.map fun s => if dead j then { s with code := nop } else s := by
  rw [deleted, getElem?_mapIdx]

theorem deleted_congr (same : ∀ j, j < stmts.length → dead j = dead' j) :
    deleted dead stmts = deleted dead' stmts := by
  apply ext_getElem?
  intro j
  rw [getElem?_deleted, getElem?_deleted]
  by_cases inside : j < stmts.length
  · rw [same j inside]
  · rw [getElem?_eq_none (Nat.not_lt.mp inside)]
    rfl

theorem deleted_none (none : ∀ j, dead j = false) : deleted dead stmts = stmts := by
  apply ext_getElem?
  intro j
  simp [getElem?_deleted, none]

theorem deleted_append (s : Stmt) :
    deleted dead (stmts ++ [s]) =
      deleted dead stmts ++ [if dead stmts.length then { s with code := nop } else s] := by
  simp [deleted, mapIdx_append]

theorem deleted_modify (i : Nat) :
    deleted dead (stmts.modify i fun s => { s with code := nop }) =
      deleted (fun j => dead j || j == i) stmts := by
  apply ext_getElem?
  intro j
  rw [getElem?_deleted, getElem?_deleted, getElem?_modify]
  by_cases same : i = j
  · subst same
    cases stmts[i]? <;> simp
  · have other : (j == i) = false := by simpa using Ne.symm same
    simp [same, other]

end Deleted

theorem modify_append {front back : List Stmt} {i : Nat} (inside : i < front.length)
    (f : Stmt → Stmt) : (front ++ back).modify i f = front.modify i f ++ back := by
  induction front generalizing i with
  | nil => cases inside
  | cons s front ih =>
    cases i with
    | zero => rfl
    | succ i =>
      rw [cons_append, modify_succ_cons, modify_succ_cons,
        ih (Nat.lt_of_succ_lt_succ inside), cons_append]

theorem get_foldl_set_none (atoms : List Nat) :
    ∀ last : LastStores, (∀ atom ∈ atoms, atom < last.size) →
      (atoms.foldl (fun last atom => last.set atom none) last).size = last.size ∧
      ∀ atom, (atoms.foldl (fun last atom => last.set atom none) last).get atom =
        if atom ∈ atoms then none else last.get atom := by
  induction atoms with
  | nil => exact fun last _ => ⟨rfl, fun atom => by simp⟩
  | cons first rest ih =>
    intro last small
    have size : (last.set first none).size = last.size := last.size_modify _ _
    obtain ⟨size', get⟩ := ih (last.set first none) fun atom mem =>
      size.symm ▸ small atom (mem_cons_of_mem _ mem)
    refine ⟨size'.trans size, fun atom => ?_⟩
    rw [foldl_cons, get]
    by_cases later : atom ∈ rest
    · rw [if_pos later, if_pos (mem_cons_of_mem _ later)]
    · rw [if_neg later]
      refine (last.get_modify _ (small first mem_cons_self) atom).trans ?_
      by_cases same : atom = first
      · rw [if_pos same, if_pos (same ▸ mem_cons_self)]
      · rw [if_neg same, if_neg (by simp [same, later])]

section Scan

variable (outUse : Bits) (last : LastStores) {s : Stmt} {front : List Stmt}

variable {last} in
/-- One statement of the scan: its position becomes the last store to its atom, the atoms it
reads have none, and a store to its atom that has not been read is deleted. -/
theorem deadstmt_spec (rest : List Stmt) (readable : Readable s) (sized : last.size = nAtoms)
    (older : ∀ atom j, last.get atom = some j → j < front.length) (sym : Sym) :
    ∃ front' last' sym',
      deadstmt ⟨front ++ s :: rest⟩ last sym front.length =
        .ok (⟨front' ++ s :: rest⟩, last', sym') ∧
      front'.length = front.length ∧ last'.size = nAtoms ∧
      (∀ atom, last'.get atom = if writes atom s then some front.length
        else if reads atom s then none else last.get atom) ∧
      ∀ dead, deleted dead front' = deleted (fun j => dead j || (range nAtoms).any fun atom =>
        writes atom s && !reads atom s && last.get atom == some j) front := by
  obtain ⟨atoms, found, same⟩ := readable.atomuse_eq
  let read := atoms.foldl (fun last atom => last.set atom none) last
  obtain ⟨sizeRead, getRead⟩ := get_foldl_set_none atoms last fun atom mem =>
    sized.symm ▸ readable.lt_of_reads ((same atom).mp mem)
  have getRead (atom : Nat) : read.get atom = if reads atom s then none else last.get atom := by
    rw [getRead]
    simp only [same]
  have here : Store.get ⟨front ++ s :: rest⟩ front.length = s := by simp [Store.get]
  cases target : atomdef s with
  | none =>
    have unwritten (atom : Nat) : writes atom s = false := by
      rw [← Bool.not_eq_true, ← readable.atomdef_eq, target]
      simp
    refine ⟨front, read, sym, ?_, rfl, sizeRead.trans sized, fun atom => ?_, fun dead => ?_⟩
    · simp only [deadstmt, here, found, target]
      rfl
    · rw [unwritten, if_neg Bool.false_ne_true, getRead]
    · exact deleted_congr fun j _ => by simp [unwritten]
  | some t =>
    have written (atom : Nat) : writes atom s = (atom == t) := by
      rw [Bool.eq_iff_iff, ← readable.atomdef_eq, target, Option.some.injEq, beq_iff_eq, eq_comm]
    have small : t < nAtoms := readable.lt_of_writes (by rw [written, beq_self_eq_true])
    have sizeSet : (read.set t (some front.length)).size = nAtoms :=
      (read.size_modify _ _).trans (sizeRead.trans sized)
    have getSet (atom : Nat) : (read.set t (some front.length)).get atom =
        if writes atom s then some front.length
        else if reads atom s then none else last.get atom := by
      refine (read.get_modify _ ((sizeRead.trans sized).symm ▸ small) atom).trans ?_
      rw [getRead atom, written]
      simp
    have only (j : Nat) : ((range nAtoms).any fun atom =>
        writes atom s && !reads atom s && last.get atom == some j) =
        (read.get t == some j) := by
      rw [Bool.eq_iff_iff, any_eq_true, getRead]
      constructor
      · rintro ⟨atom, -, holds⟩
        rw [written, Bool.and_eq_true, Bool.and_eq_true, beq_iff_eq] at holds
        obtain ⟨⟨rfl, unread⟩, pending⟩ := holds
        rw [if_neg (by simpa using unread)]
        exact pending
      · intro pending
        refine ⟨t, mem_range.mpr small, ?_⟩
        split at pending
        · cases pending
        · rename_i unread
          simp [written, unread, pending]
    cases pending : read.get t with
    | none =>
      refine ⟨front, read.set t (some front.length), sym, ?_, rfl, sizeSet, getSet, fun dead => ?_⟩
      · simp only [deadstmt, here, found, target, bind, Except.bind]
        rw [show (atoms.foldl _ last).get t = none from pending]
        rfl
      · exact deleted_congr fun j _ => by simp [only, pending]
    | some j =>
      have inside : j < front.length := by
        rw [getRead] at pending
        split at pending
        · cases pending
        · exact older t j pending
      refine ⟨front.modify j fun s => { s with code := nop }, read.set t (some front.length),
        sym.undo, ?_, length_modify .., sizeSet, getSet, fun dead => ?_⟩
      · simp only [deadstmt, here, found, target, bind, Except.bind]
        rw [show (atoms.foldl _ last).get t = some j from pending]
        simp only [setCode, Store.modify, modify_append inside]
        rfl
      · rw [deleted_modify]
        refine deleted_congr fun i _ => ?_
        rw [only, pending, Option.some_beq_some, Bool.beq_comm]

/-- The end of the scan. -/
theorem deletes_at_exit (atoms : List Nat) : ∀ (stmts : List Stmt) (sym : Sym),
    ∃ sym', atoms.foldl (deadAtExit outUse last) (⟨stmts⟩, sym) =
      (⟨deleted (fun j => atoms.any fun atom => last.get atom == some j && !outUse.mem atom)
        stmts⟩, sym') := by
  induction atoms with
  | nil =>
    intro stmts sym
    refine ⟨sym, ?_⟩
    simp only [any_nil, foldl_nil]
    rw [deleted_none fun _ => rfl]
  | cons atom atoms ih =>
    intro stmts sym
    rw [foldl_cons]
    cases pending : last.get atom with
    | none =>
      obtain ⟨sym', result⟩ := ih stmts sym
      refine ⟨sym', ?_⟩
      rw [deadAtExit, pending]
      simpa [pending] using result
    | some i =>
      by_cases used : outUse.mem atom
      · obtain ⟨sym', result⟩ := ih stmts sym
        refine ⟨sym', ?_⟩
        rw [deadAtExit, pending]
        simpa [used] using result
      · obtain ⟨sym', result⟩ := ih (stmts.modify i fun s => { s with code := nop }) sym.undo
        refine ⟨sym', ?_⟩
        rw [deadAtExit, pending]
        simp only [if_neg used, setCode, Store.modify]
        rw [result, deleted_modify]
        congr 2
        refine deleted_congr fun j _ => ?_
        have unused : outUse.mem atom = false := by simpa using used
        rw [any_cons, pending, unused, Bool.not_false, Bool.and_true, Bool.or_comm,
          Option.some_beq_some, Bool.beq_comm]

/-- The store that is pending at a position is dead if nothing behind needs its atom. -/
def pendingDead (live : Nat → Bool) (last : LastStores) (rest : List Stmt) (j : Nat) : Bool :=
  (List.range nAtoms).any fun atom => last.get atom == some j && !needed live atom rest

/-- The scan from a position on, with the stores that are pending there. -/
theorem scan_eq (rest : List Stmt) : ∀ (front : List Stmt) (last : LastStores) (sym : Sym),
    last.size = nAtoms → (∀ atom j, last.get atom = some j → j < front.length) →
    (∀ s ∈ rest, Readable s) →
    ∃ last' stmts' sym' sym'',
      (range' front.length rest.length).foldlM
          (fun (stmts, last, sym) i => deadstmt stmts last sym i)
          ((⟨front ++ rest⟩, last, sym) : Store Stmt × LastStores × Sym) =
        .ok (stmts', last', sym') ∧
      (range nAtoms).foldl (deadAtExit outUse last') (stmts', sym') =
        (⟨deleted (pendingDead outUse.mem last rest) front ++ dropDead outUse.mem rest⟩,
          sym'') := by
  induction rest with
  | nil =>
    intro front last sym sized older _
    obtain ⟨sym', result⟩ := deletes_at_exit outUse last (range nAtoms) front sym
    refine ⟨last, ⟨front⟩, sym, sym', by rw [append_nil]; rfl, result.trans ?_⟩
    rw [dropDead, append_nil]
    rfl
  | cons s rest ih =>
    intro front last sym sized older readable
    have here := readable s mem_cons_self
    obtain ⟨front', last', sym', ran, length, sized', get, deletes⟩ :=
      deadstmt_spec rest here sized older sym
    have length' : (front' ++ [s]).length = front.length + 1 := by simp [length]
    have older' (atom j : Nat) (pending : last'.get atom = some j) :
        j < (front' ++ [s]).length := by
      rw [get] at pending
      rw [length']
      split at pending
      · cases pending
        exact Nat.lt_succ_self _
      · split at pending
        · cases pending
        · exact Nat.lt_succ_of_lt (older atom j pending)
    obtain ⟨last'', stmts', sym₁, sym₂, ran', result⟩ := ih (front' ++ [s]) last' sym' sized'
      older' fun s' mem => readable s' (mem_cons_of_mem s mem)
    refine ⟨last'', stmts', sym₁, sym₂, ?_, result.trans ?_⟩
    · rw [length_cons, range'_succ, foldlM_cons]
      dsimp only
      rw [ran]
      rw [length', append_assoc, singleton_append] at ran'
      exact ran'
    -- the position of `s` is pending for the atom that `s` writes
    have own : pendingDead outUse.mem last' rest front.length = isDead outUse.mem rest s := by
      rw [pendingDead, isDead]
      congr 1
      funext atom
      rw [get]
      cases writes atom s with
      | true => simp
      | false =>
        have none : (if reads atom s then none else last.get atom) ≠ some front.length := by
          split
          · nofun
          · exact fun pending => (older atom _ pending).false
        simp [none]
    have before : deleted (pendingDead outUse.mem last' rest) front' =
        deleted (pendingDead outUse.mem last (s :: rest)) front := by
      rw [deletes]
      refine deleted_congr fun j inside => ?_
      have other : (some front.length == some j) = false := by
        simpa using Nat.ne_of_gt inside
      have each (atom : Nat) :
          (last'.get atom == some j && !needed outUse.mem atom rest ||
            writes atom s && !reads atom s && last.get atom == some j) =
          (last.get atom == some j && !needed outUse.mem atom (s :: rest)) := by
        rw [get, needed_cons]
        cases writes atom s <;> cases reads atom s <;> simp [other]
      rw [pendingDead, pendingDead, Bool.eq_iff_iff, Bool.or_eq_true, any_eq_true,
        any_eq_true, any_eq_true, ← exists_or]
      refine exists_congr fun atom => ?_
      rw [← and_or_left, ← Bool.or_eq_true, each]
    rw [deleted_append, length, own, before, dropDead, append_assoc, singleton_append]

end Scan

@[simp]
theorem length_dropDead (live : Nat → Bool) (stmts : List Stmt) :
    (dropDead live stmts).length = stmts.length := by
  induction stmts with
  | nil => rfl
  | cons s rest ih => simp [dropDead, ih]

/-- `opt_deadstores` deletes the stores that a scan from the end of the block finds dead. -/
theorem optDeadstores_eq (outUse : Bits) (block : PlainBlock b) (sym : Sym) :
    ∃ sym', optDeadstores outUse b sym =
      .ok ⟨{ b with stmts := dropDead (needed outUse.mem · [b.s]) b.stmts }, sym'⟩ := by
  have unwritten (atom : Nat) : writes atom b.s = false := by
    rcases block.last with ⟨cond, src, decoded⟩ | decoded <;> simp [writes, decoded, atomWritten]
  have kept : dropDead outUse.mem [b.s] = [b.s] := by
    have alive : isDead outUse.mem [] b.s = false := by simp [isDead, unwritten]
    rw [dropDead, alive]
    rfl
  obtain ⟨last, stmts, sym₁, sym₂, ran, result⟩ := scan_eq outUse (blockCode b) []
    (.replicate nAtoms none) sym (by simp [Store.size, Store.replicate]) (fun atom j pending => by
      rw [Store.get_replicate] at pending
      split at pending <;> cases pending) block.readable
  rw [length_nil, ← range_eq_range', nil_append] at ran
  rw [blockCode, dropDead_append, kept] at result
  refine ⟨sym₂, ?_⟩
  rw [optDeadstores]
  change ((range (blockCode b).length).foldlM (fun (stmts, last, sym) i =>
    deadstmt stmts last sym i) ((⟨blockCode b⟩, _, sym) : Store Stmt × LastStores × Sym) >>= _) = _
  rw [ran]
  have length := length_dropDead (needed outUse.mem · [b.s]) b.stmts
  have atEnd : Store.get ⟨dropDead (needed outUse.mem · [b.s]) b.stmts ++ [b.s]⟩ b.stmts.length =
      b.s := by
    rw [← length]
    simp [Store.get]
  simp only [bind, Except.bind, result, deleted, mapIdx_nil, nil_append, dropLast_concat, atEnd]
  rfl

/-- The way a block is left: the outcome of its conditional jump. -/
def branchTaken (b : Block) (m : Machine) : Option Bool :=
  match decode b.s.code with
  | some (.jmp cond src) => some (cond.eval m.A (src.value b.s.k m))
  | _ => none

theorem branchTaken_congr {m m' : Machine}
    (agree : ∀ atom, atom < nAtoms → reads atom b.s → atomValue m' atom = atomValue m atom) :
    branchTaken b m' = branchTaken b m := by
  rw [branchTaken, branchTaken]
  split
  case h_2 => rfl
  case h_1 cond src decoded =>
  have accumulator : m'.A = m.A :=
    agree aAtom (by decide) (by cases src <;> simp [reads, decoded, atomsUsed])
  have operand : src.value b.s.k m' = src.value b.s.k m := by
    cases src with
    | k => rfl
    | x => exact agree xAtom (by decide) (by simp [reads, decoded, atomsUsed])
  rw [accumulator, operand]

/-- Some statements of a list may be deleted. -/
def Deletes : List Stmt → List Stmt → Prop :=
  List.Forall₂ fun s s' => s' = s ∨ s' = { s with code := nop }

theorem deletes_dropDead (live : Nat → Bool) (stmts : List Stmt) :
    Deletes stmts (dropDead live stmts) := by
  induction stmts with
  | nil => exact .nil
  | cons s rest ih =>
    refine .cons ?_ ih
    split
    · exact .inr rfl
    · exact .inl rfl

/-- `opt_deadstores` deletes statements, and the block is left the same way and with the same
values of the atoms that are in use behind it. -/
structure DeadStoresDeleted (outUse : Bits) (b : Block) (stmts : List Stmt) : Prop where
  deletes : Deletes b.stmts stmts
  runs : ∀ p m last, execLive p b.stmts m = .ok last →
    ∃ last', execLive p stmts m = .ok last' ∧ branchTaken b last' = branchTaken b last ∧
      ∀ atom, atom < nAtoms → outUse.mem atom → atomValue last' atom = atomValue last atom

theorem optDeadstores_sound (outUse : Bits) (block : PlainBlock b) (sym : Sym) :
    ∃ stmts sym', optDeadstores outUse b sym = .ok ⟨{ b with stmts }, sym'⟩ ∧
      DeadStoresDeleted outUse b stmts := by
  obtain ⟨sym', ran⟩ := optDeadstores_eq outUse block sym
  refine ⟨_, sym', ran, deletes_dropDead _ _, fun p m last executed => ?_⟩
  obtain ⟨last', executed', agree⟩ := execLive_dropDead (needed outUse.mem · [b.s]) block.stmts
    (fun s mem => block.readable s (mem_append_left _ mem)) m m last
    (fun _ _ _ => rfl) executed
  refine ⟨last', executed', branchTaken_congr fun atom small read => agree atom small ?_,
    fun atom small used => agree atom small ?_⟩
  · rw [needed_cons, read]
    rfl
  · rcases block.last with ⟨cond, src, decoded⟩ | decoded <;>
      simp [writes, decoded, atomWritten, needed, readsFirst, used]

/-- **Liveness and dead stores.** `find_ud` marks an atom as in use behind a block exactly if
some path from there reads it before it writes it. `opt_deadstores` only deletes statements, and
with any set of atoms in use, from every state on which no statement of the block fails, the
block without them takes the same branch and leaves the atoms in use with the same values. -/
theorem findUd_optDeadstores_correct {h : Heap} {root : BlockId} (graph : FilterGraph h root) :
    (∃ lv u, findLevels h root = .ok lv ∧
      findUd h (lv.down (lv.level.get root)) (lv.up (lv.level.get root)) = .ok u ∧
      ∀ b, Reached h root b → ∀ atom,
        (u.outUse.get b).mem atom ↔ LiveOut h b atom) ∧
    (∀ b, Reached h root b → PlainBlock (h.get b)) ∧
    ∀ (b : Block), PlainBlock b → ∀ (outUse : Bits) (sym : Sym),
      ∃ stmts sym', optDeadstores outUse b sym = .ok ⟨{ b with stmts }, sym'⟩ ∧
        DeadStoresDeleted outUse b stmts := by
  obtain ⟨rank, ranked⟩ := graph.jumps.exists_ranked
  obtain ⟨lv, ran, leveled, placed⟩ := findLevels_leveled graph.toFlowGraph.jumps ranked
  obtain ⟨u, found, spec⟩ := findUd_spec graph leveled placed
  exact ⟨⟨lv, u, ran, found, spec⟩, fun b path => graph.plainBlock path,
    fun b block outUse sym => optDeadstores_sound outUse block sym⟩

/-- A graph whose first block fills the index register, which nothing reads, and a scratch word
that the second block tests. -/
def storesTwice : Heap :=
  ⟨⟨[blockOf [{ code := 0x28, k := 12 }, { code := 0x07 }, { code := 0x02, k := 3 }] 0x15 0x800
      (some (1, 2)),
    blockOf [{ code := 0x60, k := 3 }] 0x15 0x806 (some (2, 3)),
    blockOf [] 0x06 96 none, blockOf [] 0x06 0 none]⟩, []⟩

/-- The scratch word is in use behind the first block, and `tax` is deleted. -/
theorem findUd_optDeadstores_correct_storesTwice :
    ∃ lv u, findLevels storesTwice 0 = .ok lv ∧
      findUd storesTwice (lv.down (lv.level.get 0)) (lv.up (lv.level.get 0)) = .ok u ∧
      LiveOut storesTwice 0 3 ∧ ¬ LiveOut storesTwice 0 xAtom ∧
      ∃ stmts sym', optDeadstores (u.outUse.get 0) (storesTwice.get 0) ⟨.init, true⟩ =
          .ok ⟨{ storesTwice.get 0 with stmts }, sym'⟩ ∧
        DeadStoresDeleted (u.outUse.get 0) (storesTwice.get 0) stmts ∧
        stmts.map (·.code) = [0x28, nop, 0x02] := by
  obtain ⟨⟨lv, u, ran, found, spec⟩, plain, sound⟩ := findUd_optDeadstores_correct
    (.of_forward (by decide) (by decide) (by decide) : FilterGraph storesTwice 0)
  have used : ((findLevels storesTwice 0).toOption.bind fun lv =>
      (findUd storesTwice (lv.down (lv.level.get 0)) (lv.up (lv.level.get 0))).toOption.map fun u =>
        u.outUse.get 0) = some 0b1000 := by
    decide +kernel
  rw [ran] at used
  change (Except.toOption (findUd storesTwice _ _)).map _ = _ at used
  rw [found] at used
  have uses : u.outUse.get 0 = 0b1000 := Option.some.inj used
  have live := spec 0 .refl
  rw [uses] at live
  obtain ⟨stmts, sym', deleted, same⟩ := sound (storesTwice.get 0) (plain 0 .refl) 0b1000
    ⟨.init, true⟩
  refine ⟨lv, u, ran, found, (live 3).mp (by decide), (live xAtom).not.mp (by decide), ?_⟩
  rw [uses]
  refine ⟨stmts, sym', deleted, same, ?_⟩
  have codes : (optDeadstores 0b1000 (storesTwice.get 0) ⟨.init, true⟩).toOption.map
      (fun e => e.b.stmts.map (·.code)) = some [0x28, nop, 0x02] := by decide +kernel
  rw [deleted] at codes
  exact Option.some.inj codes

end Libpcap.Optimize
