/-
# The offset registers along a run

The registers of the header offsets come from the allocator that also serves the
temporaries of arithmetic expressions, and it hands out a register again once it
has been freed. The code that computes an offset stands in front of the whole
program, so a register that served a temporary before it was given to an offset
is overwritten by the code of that temporary.

`compileFilter_offsets_kept` says that this is the only way: if the registers of
the offsets have been handed out once, then in every run they are written by the
inserted code only. `temporary_clobbers_offset` is an expression where it happens.
-/

import Libpcap.Gencode.Primitive

namespace Libpcap.Gencode

open Libpcap.Bpf Libpcap.Semantics List

variable {a a0 a1 : Arth} {accept reject root : BlockId} {c : Formula} {g g' : Gen} {h : Heap}
  {p : Packet} {s : Place} {r : Reg} {stored : Reg → Prop}

/-! ## Writing a register -/

/-- The position of the statement that is executed next. -/
def Place.index (h : Heap) (s : Place) : Nat := nextLive (h.get s.block).stmts s.pos.toNat

/-- The statement that is executed next stores to the register. -/
def Writes (h : Heap) (s : Place) (r : Reg) : Prop :=
  ∃ stmt, (h.get s.block).stmts[s.index h]? = some stmt ∧ stmt.stores = some r

instance (h : Heap) (s : Place) (r : Reg) : Decidable (Writes h s r) :=
  match found : (h.get s.block).stmts[s.index h]? with
  | none => isFalse (by simp [Writes, found])
  | some stmt => decidable_of_iff (stmt.stores = some r) (by simp [Writes, found])

/-- A step that does not write a register keeps it. -/
theorem graphStep_mem {s' : Place} (moves : graphStep h p s = .go s') (other : ¬ Writes h s r) :
    s'.m.mem r = s.m.mem r := by
  -- `rintro` closes the branches that stop
  revert moves
  fun_cases graphStep h p s <;> rintro ⟨⟩
  · rename_i stmt found op decoded next effect
    apply Op.effect_mem effect
    intro store same
    refine other ⟨stmt, found, ?_⟩
    rcases store with rfl | rfl
    · simpa only [Stmt.stores, decoded] using same
    · simpa only [Stmt.stores, decoded] using same
  · rfl
  · rfl
  · rfl

/-- A run through a finished graph stays among its blocks. -/
theorem Finished.reaches_block {c : Cond BlockId} (done : Finished h c root accept reject)
    (nodup : c.leaves.Nodup) {m : Machine} (reached : (graphStep h p).Reaches ⟨root, 0, m⟩ s) :
    s.block ∈ c.leaves ∨ s.block = accept ∨ s.block = reject := by
  have preserved (source target : Place)
      (known : source.block ∈ c.leaves ∨ source.block = accept ∨ source.block = reject)
      (moves : graphStep h p source = .go target) :
      target.block ∈ c.leaves ∨ target.block = accept ∨ target.block = reject := by
    rcases graphStep_block moves with same | leads
    · rwa [same]
    · exact done.closed nodup known leads
  exact reached.invariant preserved (.inl (done.root_eq ▸ c.first_mem_leaves))

/-! ## The allocator -/

/-- The register holds a header offset. -/
def Gen.IsOffset (g : Gen) (r : Reg) : Prop := g.regOffLl = some r ∨ g.regOffMacpl = some r

instance (g : Gen) (r : Reg) : Decidable (g.IsOffset r) :=
  inferInstanceAs (Decidable (_ ∨ _))

/-- How often the registers have been handed out, given those that the code
generated so far stores to: an offset register stays in use, and one that the
code also stores to has been handed out twice. -/
structure Accounts (g : Gen) (stored : Reg → Prop) : Prop where
  used : ∀ r, g.IsOffset r → g.regused r = true
  offset : ∀ r, g.IsOffset r → 1 ≤ g.handed.count r
  temporary : ∀ r, stored r → 1 ≤ g.handed.count r
  both : ∀ r, g.IsOffset r → stored r → 2 ≤ g.handed.count r

section

variable (accounts : Accounts g stored)
include accounts

theorem Accounts.not_offset (free : g.regused r = false) : ¬ g.IsOffset r := by
  intro offset
  rw [accounts.used r offset] at free
  cases free

theorem Accounts.mono {stored' : Reg → Prop}
    (fewer : ∀ r, stored' r → stored r) : Accounts g stored' where
  used := accounts.used
  offset := accounts.offset
  temporary := fun r isStored => accounts.temporary r (fewer r isStored)
  both := fun r offset isStored => accounts.both r offset (fewer r isStored)

omit accounts in
theorem Gen.withAlloc_count (g : Gen) (r r' : Reg) :
    (g.withAlloc r).handed.count r' = g.handed.count r' + if r' = r then 1 else 0 := by
  by_cases same : r' = r
  · rw [if_pos same, same]
    exact count_cons_self
  · rw [if_neg same]
    exact count_cons_of_ne (Ne.symm same)

/-- A register for a temporary. -/
theorem Accounts.alloc (found : g.nextReg = some r) :
    Accounts (g.withAlloc r) (fun r' => stored r' ∨ r' = r) := by
  have new : ¬ g.IsOffset r := accounts.not_offset (Gen.nextReg_free found)
  constructor
  · intro r' offset
    exact Gen.withAlloc_keeps r (accounts.used r' offset)
  · intro r' offset
    rw [g.withAlloc_count]
    exact Nat.le_add_right_of_le (accounts.offset r' offset)
  · rintro r' (isStored | rfl)
    · rw [g.withAlloc_count]
      exact Nat.le_add_right_of_le (accounts.temporary r' isStored)
    · rw [g.withAlloc_count, if_pos rfl]
      exact Nat.le_add_left _ _
  · rintro r' offset (isStored | rfl)
    · rw [g.withAlloc_count]
      exact Nat.le_add_right_of_le (accounts.both r' offset isStored)
    · exact absurd offset new

/-- A temporary that is no longer needed. -/
theorem Accounts.free {n : Reg} (temporary : ¬ g.IsOffset n) :
    Accounts (g.withFree n) stored where
  used := by
    intro r offset
    refine Gen.withFree_keeps ?_ (accounts.used r offset)
    rintro rfl
    exact temporary offset
  offset := accounts.offset
  temporary := accounts.temporary
  both := accounts.both

/-- A register for a header offset. -/
theorem Accounts.assign (step : AssignStep g g') : Accounts g' stored := by
  obtain ⟨r, found, used, handed, offsets⟩ : ∃ r, g.nextReg = some r ∧
      g'.regused = (g.withAlloc r).regused ∧ g'.handed = (g.withAlloc r).handed ∧
      ∀ r', g'.IsOffset r' → g.IsOffset r' ∨ r' = r := by
    cases step with
    | ll radio unset found =>
      refine ⟨_, found, rfl, rfl, ?_⟩
      rintro r' (same | other)
      · exact .inr (Option.some.inj same).symm
      · exact .inl (.inr other)
    | macpl moves unset found =>
      refine ⟨_, found, rfl, rfl, ?_⟩
      rintro r' (other | same)
      · exact .inl (.inl other)
      · exact .inr (Option.some.inj same).symm
  have count (r' : Reg) : g'.handed.count r' = g.handed.count r' + if r' = r then 1 else 0 := by
    rw [handed, g.withAlloc_count]
  constructor
  · intro r' offset
    rw [used]
    rcases offsets r' offset with old | rfl
    · exact Gen.withAlloc_keeps r (accounts.used r' old)
    · exact g.withAlloc_used r'
  · intro r' offset
    rw [count]
    rcases offsets r' offset with old | rfl
    · exact Nat.le_add_right_of_le (accounts.offset r' old)
    · rw [if_pos rfl]
      exact Nat.le_add_left _ _
  · intro r' isStored
    rw [count]
    exact Nat.le_add_right_of_le (accounts.temporary r' isStored)
  · intro r' offset isStored
    rw [count]
    rcases offsets r' offset with old | rfl
    · exact Nat.le_add_right_of_le (accounts.both r' old isStored)
    · rw [if_pos rfl]
      exact Nat.succ_le_succ (accounts.temporary r' isStored)

theorem Accounts.testSteps (steps : TestSteps g g') : Accounts g' stored := by
  induction steps with
  | refl => exact accounts
  | tail _ step ih =>
    cases step with
    | assign step => exact ih.assign step
    | relayout l => exact ⟨ih.used, ih.offset, ih.temporary, ih.both⟩

end

/-! ## Expressions -/

/-- One of the statements stores to the register. -/
def StoresTo (stmts : List Stmt) (r : Reg) : Prop := ∃ s ∈ stmts, s.stores = some r

theorem storesTo_append {front back : List Stmt} :
    StoresTo (front ++ back) r ↔ StoresTo front r ∨ StoresTo back r := by
  simp only [StoresTo, mem_append, or_and_right, exists_or]

theorem storesTo_st {regno : Reg} : StoresTo [newStmt bpfSt regno.word] r ↔ r = regno := by
  simp only [StoresTo, mem_singleton, exists_eq_left, stores_st, Option.some.injEq, eq_comm]

theorem not_storesTo {stmts : List Stmt} (quiet : ∀ s ∈ stmts, s.stores = none) (r : Reg) :
    ¬ StoresTo stmts r := by
  rintro ⟨s, mem, stored⟩
  rw [quiet s mem] at stored
  cases stored

/-- Registers in use do not become offset registers. -/
theorem Assigns.not_offset (assigns : Assigns g g') (used : g.regused r = true)
    (temporary : ¬ g.IsOffset r) : ¬ g'.IsOffset r := by
  induction assigns with
  | refl => exact temporary
  | tail before step ih =>
    have usedThen := Assigns.keeps before used
    cases step with
    | ll radio unset found =>
      rintro (same | other)
      · rw [← Option.some.inj same, Gen.nextReg_free found] at usedThen
        cases usedThen
      · exact ih (.inr other)
    | macpl moves unset found =>
      rintro (other | same)
      · exact ih (.inl other)
      · rw [← Option.some.inj same, Gen.nextReg_free found] at usedThen
        cases usedThen

/-- What the code of an expression adds to the accounts. -/
structure ExprAccounts (g g' : Gen) (a : Arth) (stored : Reg → Prop) : Prop where
  accounts : Accounts g' (fun r => stored r ∨ StoresTo a.s r)
  result : ¬ g'.IsOffset a.regno
  own : StoresTo a.s a.regno
  keeps : ∀ r, g.regused r = true → ¬ g.IsOffset r → ¬ g'.IsOffset r

theorem ExprAccounts.of_alloc {regno : Reg} {b : Option Formula} {first : Stmt}
    (accounts : Accounts g stored) (found : g.nextReg = some regno) (quiet : first.Quiet) :
    ExprAccounts g (g.withAlloc regno) ⟨b, [first, newStmt bpfSt regno.word], regno⟩ stored where
  accounts := by
    refine (accounts.alloc found).mono ?_
    rintro r (isStored | here)
    · exact .inl isStored
    · rcases storesTo_append.mp (show StoresTo ([first] ++ [newStmt bpfSt regno.word]) r from here)
        with inFirst | last
      · exact absurd inFirst (not_storesTo (fun s mem => by
          rw [mem_singleton.mp mem]
          exact quiet.stores) r)
      · exact .inr (storesTo_st.mp last)
  result := accounts.not_offset (Gen.nextReg_free found)
  own := ⟨_, mem_cons_of_mem _ mem_cons_self, stores_st regno⟩
  keeps := fun _ _ temporary => temporary

theorem ExprAccounts.load {proto : Proto} {inst : Arth} {size : Nat} {g'' : Gen}
    (index : ExprAccounts g g' inst stored) (regs : ExprRegs g g' inst)
    (ran : Runs (genLoad proto inst size) g' a g'') : ExprAccounts g g'' a stored := by
  obtain ⟨regno, width, loaded, found, _, loads, rfl⟩ := runs_genLoad_iff.mp ran
  obtain ⟨quiet, assigns, _⟩ := generates_genLoadFrom proto inst width _ _ _ loads
  have free : g'.regused regno = false := Gen.nextReg_free found
  have different (r : Reg) (used : g'.regused r = true) (other : r ≠ inst.regno) :
      ((g'.withAlloc regno).withFree inst.regno).regused r = true :=
    Gen.withFree_keeps other (Gen.withAlloc_keeps regno used)
  have notInst : regno ≠ inst.regno := by
    rintro rfl
    rw [regs.used] at free
    cases free
  constructor
  · have after := (index.accounts.alloc found).free index.result
    refine (after.testSteps assigns.testSteps).mono ?_
    rintro r (isStored | here)
    · exact .inl (.inl isStored)
    · rcases storesTo_append.mp here with inFront | last
      · rcases storesTo_append.mp inFront with inIndex | inLoad
        · exact .inl (.inr inIndex)
        · exact absurd inLoad (not_storesTo (fun s mem => (quiet s mem).stores) r)
      · exact .inr (storesTo_st.mp last)
  · exact assigns.not_offset (Gen.withFree_keeps notInst (g'.withAlloc_used regno))
      (index.accounts.not_offset free)
  · exact storesTo_append.mpr (.inr (storesTo_st.mpr rfl))
  · intro r used temporary
    exact assigns.not_offset (different r (regs.keeps r used) (regs.ne used))
      (index.keeps r used temporary)

theorem ExprAccounts.arith {fn : AluOp} {g0 g1 : Gen} (left : ExprAccounts g g0 a0 stored)
    (right : ExprAccounts g0 g1 a1 (fun r => stored r ∨ StoresTo a0.s r)) (regs : ExprRegs g g0 a0)
    (ran : Runs (genArth fn a0 a1) g1 a g') :
    ExprAccounts g g' a stored := by
  obtain ⟨regno, found, rfl, rfl⟩ := runs_genArth_iff.mp ran
  have leftResult : ¬ g1.IsOffset a0.regno := right.keeps _ regs.used left.result
  have freed := (right.accounts.free leftResult).free right.result
  constructor
  · refine (freed.alloc found).mono ?_
    rintro r (isStored | here)
    · exact .inl (.inl (.inl isStored))
    · rcases storesTo_append.mp here with inFront | inBack
      · rcases storesTo_append.mp inFront with inLeft | inRight
        · exact .inl (.inl (.inr inLeft))
        · exact .inl (.inr inRight)
      · obtain ⟨s, mem, isStore⟩ := inBack
        simp only [mem_cons, not_mem_nil, or_false] at mem
        rcases mem with rfl | rfl | rfl | rfl
        · rw [(quiet_xferToX a1).stores] at isStore
          cases isStore
        · rw [(quiet_xferToA a0).stores] at isStore
          cases isStore
        · rw [(quiet_aluX fn).stores] at isStore
          cases isStore
        · rw [stores_st] at isStore
          exact .inr (Option.some.inj isStore).symm
  · exact freed.not_offset (Gen.nextReg_free found)
  · exact ⟨_, mem_append_right _ (mem_cons_of_mem _ (mem_cons_of_mem _
      (mem_cons_of_mem _ mem_cons_self))), stores_st regno⟩
  · intro r used temporary
    exact right.keeps r (regs.keeps r used) (left.keeps r used temporary)

/-- A negation stores to the register of its operand. -/
theorem ExprAccounts.storesTo_genNeg (operand : ExprAccounts g g' a stored) :
    StoresTo (genNeg a).s r ↔ StoresTo a.s r := by
  constructor
  · intro here
    rcases storesTo_append.mp here with inFront | ⟨s, mem, isStore⟩
    · exact inFront
    · have negStores : (newStmt (bpfAlu ||| bpfNeg) 0).stores = none := by decide
      simp only [mem_cons, not_mem_nil, or_false] at mem
      rcases mem with rfl | rfl | rfl
      · rw [(quiet_xferToA a).stores] at isStore
        cases isStore
      · rw [negStores] at isStore
        cases isStore
      · rw [stores_st] at isStore
        rw [← Option.some.inj isStore]
        exact operand.own
  · intro here
    exact storesTo_append.mpr (.inl here)

/-- The accounts of every expression. -/
theorem genExpr_accounts (e : Expr) (accounts : Accounts g stored) (ran : Runs (genExpr e) g a g') :
    ExprAccounts g g' a stored := by
  induction e generalizing g g' a stored with
  | num val =>
    obtain ⟨regno, found, rfl, rfl⟩ := runs_genLoadi_iff.mp ran
    exact .of_alloc accounts found ⟨.ldImm, decode_ldImm, by decide⟩
  | len =>
    obtain ⟨regno, found, rfl, rfl⟩ := runs_genLoadlen_iff.mp ran
    exact .of_alloc accounts found ⟨.ldLen, decode_ldLen, by decide⟩
  | load proto index size ih =>
    obtain ⟨inst, g₁, ranIndex, ranLoad⟩ := runs_bind_iff.mp ran
    exact (ih accounts ranIndex).load (genExpr_regs index ranIndex) ranLoad
  | neg inner ih =>
    obtain ⟨a₁, g₁, ranInner, done⟩ := runs_bind_iff.mp ran
    obtain ⟨rfl, rfl⟩ := runs_pure_iff.mp done
    have operand := ih accounts ranInner
    refine ⟨operand.accounts.mono ?_, operand.result, ?_, operand.keeps⟩
    · rintro r (isStored | here)
      · exact .inl isStored
      · exact .inr (operand.storesTo_genNeg.mp here)
    · exact operand.storesTo_genNeg.mpr operand.own
  | arith fn left right ihLeft ihRight =>
    obtain ⟨a0, g0, ranLeft, rest⟩ := runs_bind_iff.mp ran
    obtain ⟨a1, g1, ranRight, ranArth⟩ := runs_bind_iff.mp rest
    have first := ihLeft accounts ranLeft
    exact first.arith (ihRight first.accounts ranRight) (genExpr_regs left ranLeft) ranArth

/-! ## Filter expressions -/

/-- A test of the formula stores to the register. -/
def FormulaStores (c : Formula) (r : Reg) : Prop := ∃ l ∈ c.leaves, StoresTo l.stmts r

theorem formulaStores_binary {left right : Formula}
    (leaves : c.leaves = left.leaves ++ right.leaves) :
    FormulaStores c r ↔ FormulaStores left r ∨ FormulaStores right r := by
  simp only [FormulaStores, leaves, mem_append, or_and_right, exists_or]

theorem StoresNothing.not_stores (quiet : StoresNothing c) (r : Reg) : ¬ FormulaStores c r := by
  rintro ⟨l, mem, here⟩
  exact not_storesTo (quiet l mem) r here

theorem storesTo_relationLeaf {code : JmpOp} (here : StoresTo (relationLeaf code a0 a1).stmts r) :
    StoresTo a0.s r ∨ StoresTo a1.s r := by
  have subStores : (newStmt (bpfAlu ||| bpfSub ||| bpfX) 0).stores = none := by decide
  have operands (inside : StoresTo (a0.s ++ a1.s ++ [xferToX a1, xferToA a0]) r) :
      StoresTo a0.s r ∨ StoresTo a1.s r := by
    rcases storesTo_append.mp inside with inCode | moves
    · exact storesTo_append.mp inCode
    · refine absurd moves (not_storesTo ?_ r)
      simp only [mem_cons, not_mem_nil, or_false, forall_eq_or_imp, forall_eq]
      exact ⟨(quiet_xferToX a1).stores, (quiet_xferToA a0).stores⟩
  unfold relationLeaf at here
  split at here
  · rcases storesTo_append.mp here with inOperands | last
    · exact operands inOperands
    · refine absurd last (not_storesTo ?_ r)
      simp only [mem_singleton, forall_eq]
      exact subStores
  · exact operands here

theorem formulaStores_related {rel : RelOp} {left right : Expr} {g0 g1 : Gen}
    (related : Related g g' rel left right c a0 a1 g0 g1) (here : FormulaStores c r) :
    StoresTo a0.s r ∨ StoresTo a1.s r := by
  have relation (inside : FormulaStores (relationFormula rel a0 a1) r) :
      StoresTo a0.s r ∨ StoresTo a1.s r := by
    obtain ⟨l, mem, stores⟩ := inside
    rw [relationFormula_leaves, mem_singleton] at mem
    rw [mem] at stores
    exact storesTo_relationLeaf stores
  rw [related.formula] at here
  cases checks : relationChecks a0 a1 with
  | none =>
    rw [checks] at here
    exact relation here
  | some b =>
    rw [checks] at here
    have split : FormulaStores b r ∨ FormulaStores (relationFormula rel a0 a1) r :=
      (formulaStores_binary rfl).mp here
    rcases split with inChecks | inRelation
    · have quiet := (related.guards.tests b checks).storesNothing
      exact absurd inChecks (quiet.not_stores r)
    · exact relation inRelation

/-- The accounts of a relation. -/
theorem genRelOp_accounts {rel : RelOp} {left right : Expr} (accounts : Accounts g stored)
    (ran : Runs (genRelOp rel left right) g c g') :
    Accounts g' (fun r => stored r ∨ FormulaStores c r) ∧ g'.heap = g.heap := by
  have parts := ran
  simp only [genRelOp, genRelation, runs_bind_iff, runs_freeReg_iff, runs_pure_iff] at parts
  obtain ⟨a0, g0, ranLeft, a1, g1, ranRight, _, _, rfl, _, _, rfl, rfl, rfl⟩ := parts
  have related : Related g ((g1.withFree a0.regno).withFree a1.regno) rel left right _ a0 a1 g0 g1 :=
    ⟨ranLeft, ranRight, (g1.withFree_agrees _).trans (Gen.withFree_agrees _ _), rfl, rfl⟩
  have first := genExpr_accounts left accounts ranLeft
  have second := genExpr_accounts right first.accounts ranRight
  have regs := genExpr_regs left ranLeft
  have leftResult := second.keeps _ regs.used first.result
  refine ⟨((second.accounts.free leftResult).free second.result).mono ?_, ?_⟩
  · rintro r (isStored | here)
    · exact .inl (.inl isStored)
    · rcases formulaStores_related related here with inLeft | inRight
      · exact .inl (.inr inLeft)
      · exact .inr inRight
  · exact (genExpr_regs right ranRight).heap.trans regs.heap

/-- Two formulas, one after the other. -/
theorem Accounts.binary {b b0 b1 : Formula}
    (accounts : Accounts g (fun r => (stored r ∨ FormulaStores b0 r) ∨ FormulaStores b1 r))
    (leaves : b.leaves = b0.leaves ++ b1.leaves) :
    Accounts g (fun r => stored r ∨ FormulaStores b r) := by
  refine accounts.mono ?_
  rintro r (isStored | here)
  · exact .inl (.inl isStored)
  · rcases (formulaStores_binary leaves).mp here with inFirst | inSecond
    · exact .inl (.inr inFirst)
    · exact .inr inSecond

/-- The accounts of every filter expression. -/
theorem genFilter_accounts (filter : Filter) (accounts : Accounts g stored)
    (ran : Runs (genFilter filter) g c g') :
    Accounts g' (fun r => stored r ∨ FormulaStores c r) ∧ g'.heap = g.heap := by
  induction filter generalizing g g' c stored with
  | leaf primitive =>
    cases primitive with
    | relation rel left right => exact genRelOp_accounts accounts ran
    | test primitive =>
      obtain ⟨quiet, steps, _, _⟩ := primitive.spec g c g' ran
      refine ⟨(accounts.testSteps steps).mono ?_, steps.heap⟩
      rintro r (isStored | here)
      · exact isStored
      · exact absurd here (quiet.not_stores r)
  | and left right ihLeft ihRight | or left right ihLeft ihRight =>
    obtain ⟨b0, g₁, ranLeft, rest⟩ := runs_bind_iff.mp ran
    obtain ⟨b1, g₂, ranRight, done⟩ := runs_bind_iff.mp rest
    obtain ⟨rfl, rfl⟩ := runs_pure_iff.mp done
    obtain ⟨first, heap₁⟩ := ihLeft accounts ranLeft
    obtain ⟨second, heap₂⟩ := ihRight first ranRight
    exact ⟨second.binary rfl, heap₂.trans heap₁⟩
  | not inner ih =>
    obtain ⟨b, g₁, ranInner, done⟩ := runs_bind_iff.mp ran
    obtain ⟨rfl, rfl⟩ := runs_pure_iff.mp done
    obtain ⟨inside, heap⟩ := ih accounts ranInner
    exact ⟨inside, heap⟩

theorem Gen.start_accounts (layout : Layout) (snaplen : Word) :
    Accounts (.start layout snaplen) (fun _ => False) where
  used := nofun
  offset := nofun
  temporary := nofun
  both := nofun

/-! ## The compiled program -/

/-- Where the code for the header offsets stands: its block is the root, or on
DLT_PPI the block behind the check of the link type, and begins with it. -/
structure HasPrologue (g : Gen) (root head : BlockId) (n : Nat) : Prop where
  place : if g.layout.linktype = dltPpi then g.heap.exit root true = some head else head = root
  code : ∃ hasNext back, (g.heap.get head).stmts = vloffsets g hasNext ++ back ∧
    (vloffsets g hasNext).length = n

/-- The statement that is executed next belongs to the code for the offsets. -/
def InPrologue (h : Heap) (head : BlockId) (n : Nat) (s : Place) : Prop :=
  s.block = head ∧ s.index h < n

/-- In every run the offset registers are written by the inserted code only, and
every other step keeps what they hold. -/
def OffsetsKept (g : Gen) (root : BlockId) : Prop :=
  ∃ head n, HasPrologue g root head n ∧
    ∀ (p : Packet) (m : Machine) (s : Place), (graphStep g.heap p).Reaches ⟨root, 0, m⟩ s →
      ∀ r, g.IsOffset r →
        (Writes g.heap s r → InPrologue g.heap head n s) ∧
        (¬ InPrologue g.heap head n s → ∀ s', graphStep g.heap p s = .go s' →
          s'.m.mem r = s.m.mem r)

theorem Writes.split (writes : Writes h s r) (front back : List Stmt)
    (stmts : (h.get s.block).stmts = front ++ back) :
    s.index h < front.length ∨ StoresTo back r := by
  obtain ⟨stmt, found, stores⟩ := writes
  rw [stmts] at found
  by_cases inFront : s.index h < front.length
  · exact .inl inFront
  · rw [getElem?_append_right (Nat.le_of_not_lt inFront)] at found
    exact .inr ⟨stmt, mem_of_getElem? found, stores⟩

section

variable {ids : Cond BlockId} {b : BlockId} (emitted : Emitted h g.heap c ids b)
  (parsed : Parsed g g' ids root accept reject)

include emitted parsed

/-- The blocks of a parsed formula whose code does not store to a register. -/
theorem Parsed.writes {m : Machine}
    (reached : (graphStep g'.heap p).Reaches ⟨root, 0, m⟩ s) (quiet : ¬ FormulaStores c r)
    (writes : Writes g'.heap s r) :
    s.block = ids.first ∧
      s.index g'.heap < (vloffsets g (!(g.heap.get ids.first).stmts.isEmpty)).length := by
  obtain ⟨pend, built⟩ := emitted.built
  have noStmts (empty : (g'.heap.get s.block).stmts = []) : False := by
    rcases writes.split [] [] empty with impossible | ⟨_, mem, _⟩
    · cases impossible
    · cases mem
  have test (mem : s.block ∈ ids.leaves) : s.block = ids.first ∧
      s.index g'.heap < (vloffsets g (!(g.heap.get ids.first).stmts.isEmpty)).length := by
    rcases writes.split _ _ (parsed.stmts s.block (built.bound _ mem)) with inFront | stores
    · by_cases isFirst : s.block = ids.first
      · rw [if_pos isFirst, isFirst] at inFront
        exact ⟨isFirst, inFront⟩
      · rw [if_neg isFirst] at inFront
        cases inFront
    · refine absurd ⟨g.heap.leaf s.block, ?_, stores⟩ quiet
      rw [← emitted.shape, Cond.leaves_map]
      exact mem_map_of_mem mem
  rcases parsed.finished.reaches_block parsed.nodup reached with mem | isAccept | isReject
  · by_cases ppi : g.layout.linktype = dltPpi
    · rw [guarded, if_pos ppi] at mem
      rcases mem_append.mp mem with isCheck | inIds
      · have code := (parsed.check ppi).2
        rw [← mem_singleton.mp isCheck] at code
        rcases writes.split [] _ code with impossible | stores
        · cases impossible
        · refine absurd stores (not_storesTo ?_ r)
          decide
      · exact test inIds
    · rw [guarded, if_neg ppi] at mem
      exact test mem
  · exact (noStmts (isAccept ▸ parsed.returnStmts.1)).elim
  · exact (noStmts (isReject ▸ parsed.returnStmts.2)).elim

theorem Parsed.hasPrologue :
    HasPrologue g' root ids.first
      (vloffsets g (!(g.heap.get ids.first).stmts.isEmpty)).length := by
  obtain ⟨pend, built⟩ := emitted.built
  have layout : g'.layout = g.layout := by rw [parsed.others]
  have same (hasNext : Bool) : vloffsets g' hasNext = vloffsets g hasNext := by
    rw [parsed.others]
    rfl
  constructor
  · have wired := parsed.finished.wired
    have atRoot := parsed.finished.root_eq
    rw [layout]
    by_cases ppi : g.layout.linktype = dltPpi
    · rw [guarded, if_pos ppi] at wired atRoot
      rw [if_pos ppi, atRoot]
      exact wired.1.1
    · rw [guarded, if_neg ppi] at atRoot
      rw [if_neg ppi, atRoot]
  · have code := parsed.stmts ids.first (built.bound _ ids.first_mem_leaves)
    rw [if_pos rfl] at code
    exact ⟨_, _, (same _).symm ▸ code, congrArg length (same _)⟩

end

/-- What a compiled filter expression is. -/
theorem runs_compileFilter {filter : Filter} {layout : Layout} {snaplen : Word}
    (ran : Runs (compileFilter filter) (.start layout snaplen) () g') :
    ∃ c g₁ h ids b root accept reject, Runs (genFilter filter) (.start layout snaplen) c g₁ ∧
      Emitted g₁.heap h c ids b ∧ Parsed (g₁.withHeap h) g' ids root accept reject := by
  obtain ⟨c, g₁, ranFilter, rest⟩ := runs_bind_iff.mp ran
  obtain ⟨b, g₂, ranEmit, ranFinish⟩ := runs_bind_iff.mp rest
  have heap := (genFilter_accounts filter (Gen.start_accounts layout snaplen) ranFilter).2
  have logged : g₁.heap.Logged := by
    rw [heap]
    nofun
  obtain ⟨b', h, ids, again, emitted⟩ := emit_emitted c g₁ logged
  obtain ⟨rfl, rfl⟩ := again.unique ranEmit
  obtain ⟨pend, built⟩ := emitted.built
  have built' : Built (g₁.withHeap h).heap ids b' pend := built
  obtain ⟨g₃, root, accept, reject, finish, parsed⟩ :=
    built'.finishParse emitted.nodup emitted.logged
  obtain ⟨_, rfl⟩ := finish.unique ranFinish
  exact ⟨c, g₁, h, ids, b', root, accept, reject, ranFilter, emitted, parsed⟩

/-- A filter expression compiled from the start: if each offset register has been
handed out once, to the offset and not to a temporary before, then in every run
the offset registers are written by the inserted code only. -/
theorem compileFilter_offsets_kept {filter : Filter} {layout : Layout} {snaplen : Word}
    {g' : Gen} {root : BlockId}
    (ran : Runs (compileFilter filter) (.start layout snaplen) () g') (rootEq : g'.root = some root)
    (once : ∀ r, g'.IsOffset r → g'.handed.count r = 1) : OffsetsKept g' root := by
  obtain ⟨c, g₁, h, ids, b, root', accept, reject, ranFilter, emitted, parsed⟩ :=
    runs_compileFilter ran
  have accounts := (genFilter_accounts filter (Gen.start_accounts layout snaplen) ranFilter).1
  obtain rfl : root' = root := Option.some.inj (parsed.rootEq.symm.trans rootEq)
  have quiet (r : Reg) (offset : g'.IsOffset r) : ¬ FormulaStores c r := by
    intro stores
    have here := once r offset
    rw [parsed.others] at here offset
    have twice : 2 ≤ g₁.handed.count r := accounts.both r offset (.inr stores)
    exact absurd (here ▸ twice) (by decide)
  refine ⟨ids.first, _, parsed.hasPrologue emitted, ?_⟩
  intro p m s reached r offset
  have inside (writes : Writes g'.heap s r) := parsed.writes emitted reached (quiet r offset) writes
  exact ⟨inside, fun outside s' moves => graphStep_mem moves fun writes => outside (inside writes)⟩

def typeMgt : Filter :=
  .leaf (.test (.ofGenerates (genP80211Type 0x00 0x0c) (generates_genP80211Type _ _)
    (loadsPrefix_genP80211Type _ _)))

/-- `len > 5` -/
def longPacket : Filter := .leaf (.relation .gt .len (.num 5))

/-- The theorem on `type mgt and len > 5` for radiotap: the offset register is
handed out before any temporary. -/
theorem compileFilter_offsets_kept_type_first : ∃ g' root,
    Runs (compileFilter (.and typeMgt longPacket)) (.start .radiotap 65535) () g' ∧
    g'.IsOffset ⟨0, by decide⟩ ∧ OffsetsKept g' root := by
  have compiles : passes (compileFilter (.and typeMgt longPacket)) (.start .radiotap 65535)
      (fun _ g => decide (g.root = some 0 ∧ g.IsOffset ⟨0, by decide⟩ ∧
        ∀ r, g.IsOffset r → g.handed.count r = 1)) = true := by
    decide +kernel
  obtain ⟨_, g', ran, checked⟩ := exists_runs _ compiles
  obtain ⟨root, offset, once⟩ := of_decide_eq_true checked
  exact ⟨g', 0, ran, offset, compileFilter_offsets_kept ran root once⟩

/-- A radiotap header of 8 bytes and the first bytes of a frame. -/
def radiotapFrame : Packet where
  data := [0, 0, 8, 0, 0, 0, 0, 0, 0x80, 0, 0, 0]
  wirelen := 60
  around := fun _ => 0
  length_lt := by decide

/-- In the program for `len > 5 and type mgt` on radiotap the fourth statement of
the relation stores 5 to the register of the header offset, which was the register
of the constant: `type mgt` then looks at byte 5 of every packet. -/
theorem temporary_clobbers_offset :
    ¬ ∀ (filter : Filter) (layout : Layout) (snaplen : Word) (g' : Gen) (root : BlockId),
      is80211 layout.linktype = true →
      Runs (compileFilter filter) (.start layout snaplen) () g' → g'.root = some root →
      OffsetsKept g' root := by
  intro claim
  have compiles : passes (compileFilter (.and longPacket typeMgt)) (.start .radiotap 65535)
      (fun _ g => decide (g.root = some 0 ∧ g.IsOffset ⟨1, by decide⟩ ∧
        (∀ hasNext, (vloffsets g hasNext).length = 7)) &&
        match (graphStep g.heap radiotapFrame).runFor 10 ⟨0, 0, ⟨0, 0, fun _ => 0⟩⟩ with
        | .go s => decide (s.index g.heap = 10 ∧ Writes g.heap s ⟨1, by decide⟩)
        | .stop _ => false) = true := by
    decide +kernel
  obtain ⟨_, g', ran, checked⟩ := exists_runs _ compiles
  simp only [Bool.and_eq_true, decide_eq_true_eq] at checked
  obtain ⟨⟨root, offset, length⟩, runs⟩ := checked
  obtain ⟨head, n, prologue, kept⟩ := claim _ _ _ g' 0 (by decide) ran root
  cases outcome : (graphStep g'.heap radiotapFrame).runFor 10 ⟨0, 0, ⟨0, 0, fun _ => 0⟩⟩ with
  | stop result =>
    rw [outcome] at runs
    cases runs
  | go s =>
    simp only [outcome, decide_eq_true_eq] at runs
    obtain ⟨_, before⟩ := (kept _ _ s (Step.reaches_of_runFor outcome) _ offset).1 runs.2
    obtain ⟨hasNext, back, _, same⟩ := prologue.code
    rw [length] at same
    omega

end Libpcap.Gencode
