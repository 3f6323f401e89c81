/-
# The size of generated code

How many blocks the generator allocates and how many statements they have. The test for
a link-layer type takes at most 63 instructions on any link type, and combining and
finishing a formula allocates one block for each of its tests and at most three more.
-/

import Libpcap.Gencode.Linklayer

namespace Libpcap.Gencode

open Libpcap.Bpf Libpcap.Semantics

variable {g g' : Gen}

/-! ## Instructions of a formula -/

theorem length_leaves_le_weight (c : Formula) : c.leaves.length ≤ weight c := by
  induction c with
  | leaf l =>
    rw [weight_leaf]
    exact Nat.le_add_left 1 _
  | and left right ihLeft ihRight | or left right ihLeft ihRight =>
    simpa [Cond.leaves] using Nat.add_le_add ihLeft ihRight
  | not inner ih => exact ih

/-! ## Blocks -/

/-- No branch of a block has an extra jump. -/
def Heap.Unmarked (h : Heap) : Prop := ∀ b, (h.get b).longjt = 0 ∧ (h.get b).longjf = 0

/-- The heap after operations that allocate at most `n` blocks and mark no branch. -/
structure Heap.Grows (n : Nat) (h h' : Heap) : Prop where
  size : h'.size ≤ h.size + n
  unmarked : h.Unmarked → h'.Unmarked

namespace Heap.Grows

variable {h h' h'' : Heap} {m n : Nat}

theorem refl (h : Heap) : Grows 0 h h := ⟨Nat.le_refl _, id⟩

theorem trans (first : Grows m h h') (second : Grows n h' h'') : Grows (m + n) h h'' := by
  refine ⟨?_, fun unmarked => second.unmarked (first.unmarked unmarked)⟩
  have := first.size
  have := second.size
  omega

/-- A change of a block that keeps its marks. -/
theorem modify (h : Heap) (b : BlockId) {f : Block → Block}
    (keeps : ∀ block, (f block).longjt = block.longjt ∧ (f block).longjf = block.longjf) :
    Grows 0 h (h.modify b f) := by
  refine ⟨Nat.le_of_eq (h.size_modify f), fun unmarked c => ?_⟩
  by_cases inside : b < h.size
  · rw [h.get_modify inside]
    split
    · rw [(keeps _).1, (keeps _).2]
      exact unmarked b
    · exact unmarked c
  · have same : (h.modify b f).get c = h.get c := by
      simp only [Heap.modify, Heap.get, Store.get, Store.modify]
      rw [List.modify_eq_self (Nat.not_lt.mp inside)]
    rw [same]
    exact unmarked c

theorem setExit (h : Heap) (b : BlockId) (side : Bool) (target : Option BlockId) :
    Grows 0 h (h.setExit b side target) := by
  apply modify
  intro block
  cases side <;> exact ⟨rfl, rfl⟩

theorem flip (h : Heap) (b : BlockId) : Grows 0 h (h.flip b) :=
  modify h b fun _ => ⟨rfl, rfl⟩

theorem setHead (h : Heap) (b head : BlockId) : Grows 0 h (h.setHead b head) :=
  modify h b fun _ => ⟨rfl, rfl⟩

theorem setStmts (h : Heap) (b : BlockId) (stmts : List Stmt) : Grows 0 h (h.setStmts b stmts) :=
  modify h b fun _ => ⟨rfl, rfl⟩

theorem newBlock (h : Heap) (code : Code) (k : Word) (stmts : List Stmt) :
    Grows 1 h (h.newBlock code k stmts).1 := by
  refine ⟨Nat.le_of_eq (h.size_newBlock code k stmts), fun unmarked c => ?_⟩
  rcases Nat.lt_trichotomy c h.size with old | rfl | outside
  · rw [h.get_newBlock_of_lt _ _ _ old]
    exact unmarked c
  · rw [h.get_newBlock_self]
    exact ⟨rfl, rfl⟩
  · have none : (h.newBlock code k stmts).1.get c = default := by
      have size : (h.newBlock code k stmts).1.store.cells.length = h.size + 1 :=
        h.size_newBlock code k stmts
      rw [Heap.get, Store.get, List.getD_eq_getElem?_getD, List.getElem?_eq_none (by omega)]
      rfl
    rw [none]
    exact ⟨rfl, rfl⟩

theorem logPatch (h : Heap) (e : Exit) : Grows 0 h (h.logPatch e) := ⟨Nat.le_refl _, id⟩

theorem backpatchFor {fuel : Nat} {list : Option BlockId} {target : BlockId}
    (ran : h.backpatchFor fuel list target = some h') : Grows 0 h h' := by
  induction fuel generalizing h list with
  | zero =>
    cases list with
    | none =>
      cases ran
      exact refl _
    | some b => cases ran
  | succ fuel ih =>
    cases list with
    | none =>
      cases ran
      exact refl _
    | some b =>
      have set := setExit h b (!(h.get b).sense) (some target)
      exact set.trans ((logPatch _ (b, !(h.get b).sense)).trans (ih ran))

theorem mergeFor {fuel : Nat} {list tail : BlockId} (ran : h.mergeFor fuel list tail = some h') :
    Grows 0 h h' := by
  induction fuel generalizing list with
  | zero => cases ran
  | succ fuel ih =>
    simp only [Heap.mergeFor] at ran
    split at ran
    · cases ran
      exact setExit h _ _ _
    · exact ih ran

theorem genAnd {b0 b1 : BlockId} (ran : h.genAnd b0 b1 = some h') : Grows 0 h h' := by
  simp only [Heap.genAnd, Option.bind_eq_bind, Option.bind_eq_some_iff, Option.pure_def,
    Option.some.injEq] at ran
  obtain ⟨h1, patched, h2, merged, rfl⟩ := ran
  exact (backpatchFor patched).trans ((flip h1 b0).trans ((flip _ b1).trans
    ((mergeFor merged).trans ((flip h2 b1).trans (setHead _ b1 _)))))

theorem genOr {b0 b1 : BlockId} (ran : h.genOr b0 b1 = some h') : Grows 0 h h' := by
  simp only [Heap.genOr, Option.bind_eq_bind, Option.bind_eq_some_iff, Option.pure_def,
    Option.some.injEq] at ran
  obtain ⟨h1, patched, h2, merged, rfl⟩ := ran
  exact (flip h b0).trans ((backpatchFor patched).trans ((flip h1 b0).trans
    ((mergeFor merged).trans (setHead _ b1 _))))

end Heap.Grows

/-- One block for each test of a formula. -/
theorem grows_emit (c : Formula) {b : BlockId} (ran : Runs (emit c) g b g') :
    g.heap.Grows c.leaves.length g'.heap := by
  induction c generalizing g g' b with
  | leaf l =>
    obtain ⟨rfl, rfl⟩ := runs_newBlock_iff.mp ran
    exact .newBlock _ _ _ _
  | and left right ihLeft ihRight | or left right ihLeft ihRight =>
    simp only [emit, runs_bind_iff, runs_pure_iff] at ran
    obtain ⟨b0, g1, ranLeft, b1, g2, ranRight, _, g3, joined, rfl, rfl⟩ := ran
    obtain ⟨h, joins, rfl⟩ := runs_onHeap_iff.mp joined
    rw [Cond.leaves, List.length_append]
    have both := (ihLeft ranLeft).trans (ihRight ranRight)
    first
      | exact both.trans (.genAnd joins)
      | exact both.trans (.genOr joins)
  | not inner ih =>
    simp only [emit, runs_bind_iff, runs_pure_iff] at ran
    obtain ⟨b0, g1, ranInner, _, g2, negated, rfl, rfl⟩ := ran
    obtain rfl := runs_genNot_iff.mp negated
    exact (ih ranInner).trans (.flip _ _)

theorem grows_onHeap {f : Heap → Option Heap} {n : Nat}
    (grows : ∀ h h', f h = some h' → h.Grows n h') {u : Unit} (ran : Runs (onHeap f) g u g') :
    g.heap.Grows n g'.heap := by
  obtain ⟨heap, outcome, rfl⟩ := runs_onHeap_iff.mp ran
  exact grows _ _ outcome

/-- The check of the link type on DLT_PPI. -/
theorem grows_dltCheck {p : BlockId} {check : Option BlockId} {g1 g2 : Gen} {u : Unit}
    (checked : Runs genPpiDltCheck g check g1) (guarded : Runs (genAndIf check p) g1 u g2) :
    g.heap.Grows 1 g2.heap := by
  have joins : g1.heap.Grows 0 g2.heap := by
    cases check with
    | none =>
      obtain ⟨_, rfl⟩ := runs_pure_iff.mp guarded
      exact .refl _
    | some b => exact grows_onHeap (fun _ _ => .genAnd) guarded
  simp only [genPpiDltCheck, runs_bind_iff, runs_get_iff] at checked
  obtain ⟨_, _, ⟨rfl, rfl⟩, checked⟩ := checked
  split at checked
  · simp only [runs_bind_iff, runs_pure_iff] at checked
    obtain ⟨b, g3, allocated, rfl, rfl⟩ := checked
    obtain ⟨rfl, rfl⟩ := runs_newBlock_iff.mp allocated
    exact (Heap.Grows.newBlock _ _ _ _).trans joins
  · obtain ⟨rfl, rfl⟩ := runs_pure_iff.mp checked
    exact ⟨Nat.le_succ_of_le joins.size, joins.unmarked⟩

/-- Two returns, and the check of the link type. -/
theorem grows_finishParse {p : BlockId} (ran : Runs (finishParse p) g () g') :
    g.heap.Grows 3 g'.heap := by
  simp only [finishParse, runs_bind_iff, runs_get_iff, runs_modify_iff] at ran
  obtain ⟨_, _, ⟨rfl, rfl⟩, _, g0, inserted, check, g1, checked, _, g2, guarded, _, _, ⟨rfl, rfl⟩,
    accept, g3, ret, _, g4, patched, _, g5, negated, reject, g6, ret', _, g7, patched', rfl⟩ := ran
  have insert : g.heap.Grows 0 g0.heap := by
    rw [insertComputeVloffsets, runs_modify_iff] at inserted
    subst inserted
    exact .setStmts _ _ _
  have backpatch : ∀ (b : BlockId) (h h' : Heap), h.backpatch p b = some h' → h.Grows 0 h' :=
    fun _ _ _ => .backpatchFor
  obtain ⟨rfl, rfl⟩ := runs_newBlock_iff.mp ret
  obtain rfl := runs_genNot_iff.mp negated
  obtain ⟨rfl, rfl⟩ := runs_newBlock_iff.mp ret'
  exact insert.trans ((grows_dltCheck checked guarded).trans ((Heap.Grows.newBlock _ _ _ _).trans
    ((grows_onHeap (backpatch _) patched).trans ((Heap.Grows.flip _ _).trans
      ((Heap.Grows.newBlock _ _ _ _).trans (grows_onHeap (backpatch _) patched'))))))

end Libpcap.Gencode
