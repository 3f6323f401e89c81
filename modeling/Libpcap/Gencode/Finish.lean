/-
# From a parsed condition to the program graph

`finish_parse` takes the block that stands for the whole expression, inserts the
code for variable-length headers, for DLT_PPI conjoins a check of the packet's
own link type in front, and resolves the two lists of open exits to an accepting
and a rejecting return.

The main theorem is about every formula over distinct test blocks: parsing
succeeds, the exits of every test are patched exactly once, the resulting graph
is acyclic, and following it under any assignment of outcomes evaluates the
formula from left to right with short-circuit, ending in the accepting return
exactly when it is true.
-/

import Libpcap.Gencode.Graph
import Libpcap.Gencode.Vloffsets
import Libpcap.Semantics.Acyclic

namespace Libpcap.Gencode

open Libpcap.Bpf Libpcap.Semantics List

variable {accept p reject root : BlockId} {pend : Bool → List Exit} {c : Cond BlockId} {g : Gen}
  {h : Heap}

def genPpiDltCheck : GenM (Option BlockId) := do
  let g ← get
  if g.layout.linktype = dltPpi then
    let b ← newBlock (jmp bpfJeq) (swaplong (BitVec.ofNat 32 dltIeee80211))
      [newStmt (bpfLd ||| bpfW ||| bpfAbs) 4]
    return some b
  else return none

/-- `if (b != NULL) gen_and(b, p)` -/
def genAndIf : Option BlockId → BlockId → GenM Unit
  | some b, p => genAnd b p
  | none, _ => pure ()

def finishParse (p : BlockId) : GenM Unit := do
  insertComputeVloffsets ((← get).heap.get p).head
  genAndIf (← genPpiDltCheck) p
  let accept ← genRetblk (← get).snaplen
  onHeap (·.backpatch p accept)
  genNot p
  let reject ← genRetblk 0
  onHeap (·.backpatch p reject)
  modify fun g => { g with root := some (g.heap.get p).head }

/-- The grammar actions for a formula over existing test blocks, up to the end of
the parse. -/
def parseCond (c : Cond BlockId) : GenM Unit := do
  let g ← get
  match compileCond g.heap c with
  | some (heap, b) =>
    set (g.withHeap heap)
    finishParse b
  | none => throw .loops

/-! ## Following the graph -/

/-- The outcomes of tests are given and the visited tests are recorded; a return
block ends the walk. -/
def scripted (h : Heap) (outcome : BlockId → Bool) :
    BlockId → Test (List BlockId) (Option (BlockId × List BlockId))
  | b, trace =>
    if bpfClass (h.get b).s.code = bpfRet then .error (some (b, trace))
    else .ok (outcome b, trace ++ [b])

/-! ## The finished graph -/

/-- The exits of the formula's tests lead where the formula says, to the blocks
`accept` and `reject` at last, and each has been patched once. -/
structure Finished (h : Heap) (c : Cond BlockId) (root accept reject : BlockId) : Prop where
  root_eq : root = c.first
  wired : c.Wired (fun a side d => h.exit a side = some d) id accept reject
  patchedOnce : ∀ a ∈ c.leaves, ∀ side, h.patched.count (a, side) = 1
  notTest : accept ∉ c.leaves ∧ reject ∉ c.leaves
  ends : ∀ side, h.exit accept side = none ∧ h.exit reject side = none

section

variable (done : Finished h c root accept reject)
include done

theorem Finished.leads (nodup : c.leaves.Nodup)
    {a d : BlockId} (mem : a ∈ c.leaves) (leads : Leads h a d) :
    d = accept ∨ d = reject ∨ d ∈ c.leaves ∧ c.leaves.idxOf a < c.leaves.idxOf d := by
  obtain ⟨side, exit⟩ := leads
  obtain ⟨place, found, where_⟩ := done.wired.forward nodup mem side
  have same : place = d := Option.some.inj (found.symm.trans exit)
  subst same
  rcases where_ with accepted | rejected | ⟨later, inside, rfl, before⟩
  · exact .inl accepted
  · exact .inr (.inl rejected)
  · exact .inr (.inr ⟨inside, before⟩)

/-- The blocks of a finished graph lead to each other only. -/
theorem Finished.closed (nodup : c.leaves.Nodup)
    {b d : BlockId} (known : b ∈ c.leaves ∨ b = accept ∨ b = reject) (leads : Leads h b d) :
    d ∈ c.leaves ∨ d = accept ∨ d = reject := by
  rcases known with test | accepted | rejected
  · rcases done.leads nodup test leads with isAccept | isReject | ⟨later, _⟩
    · exact .inr (.inl isAccept)
    · exact .inr (.inr isReject)
    · exact .inl later
  · obtain ⟨side, exit⟩ := leads
    rw [accepted, (done.ends side).1] at exit
    cases exit
  · obtain ⟨side, exit⟩ := leads
    rw [rejected, (done.ends side).2] at exit
    cases exit

/-- What can be reached from the root. -/
theorem Finished.reachable (nodup : c.leaves.Nodup)
    {b : BlockId} (path : Reached h root b) :
    b ∈ c.leaves ∨ b = accept ∨ b = reject := by
  induction path with
  | refl => exact .inl (done.root_eq ▸ c.first_mem_leaves)
  | tail _ leads ih => exact done.closed nodup ih leads

/-- A finished graph is acyclic: exits lead to later tests or to a return. -/
theorem Finished.acyclic (nodup : c.leaves.Nodup) : AcyclicFrom (Leads h) root := by
  have stuck (b d : BlockId) (isReturn : b = accept ∨ b = reject) : ¬ Leads h b d := by
    rintro ⟨side, exit⟩
    rcases isReturn with rfl | rfl
    · rw [(done.ends side).1] at exit
      cases exit
    · rw [(done.ends side).2] at exit
      cases exit
  -- the position among the tests, with the returns behind the last one
  have outside (b : BlockId) (isReturn : b = accept ∨ b = reject) :
      c.leaves.idxOf b = c.leaves.length := by
    apply idxOf_eq_length
    rcases isReturn with rfl | rfl
    · exact done.notTest.1
    · exact done.notTest.2
  apply acyclicFrom_of_rank (fun b => b ∈ c.leaves ∨ b = accept ∨ b = reject) c.leaves.idxOf
  · rw [done.root_eq]
    exact .inl c.first_mem_leaves
  · intro b d known leads
    rcases known with mem | isReturn
    · have position := idxOf_lt_length_of_mem mem
      rcases done.leads nodup mem leads with accepted | rejected | ⟨inside, before⟩
      · exact ⟨.inr (.inl accepted), by rw [outside d (.inl accepted)]; exact position⟩
      · exact ⟨.inr (.inr rejected), by rw [outside d (.inr rejected)]; exact position⟩
      · exact ⟨.inl inside, before⟩
    · exact absurd leads (stuck b d isReturn)

/-- Following a finished graph under any outcomes evaluates the formula. -/
theorem Finished.walk
    (tests : ∀ a ∈ c.leaves, bpfClass (h.get a).s.code ≠ bpfRet)
    (returns : bpfClass (h.get accept).s.code = bpfRet ∧ bpfClass (h.get reject).s.code = bpfRet)
    (outcome : BlockId → Bool) :
    (walk h none (scripted h outcome)).Stops (root, [])
      (some (if c.holds outcome then accept else reject, c.visited outcome)) := by
  let run : BlockId → Test (List BlockId) (Option (BlockId × List BlockId)) :=
    fun b trace => .ok (outcome b, trace ++ [b])
  have machine : Cond.Follows (Gencode.walk h none (scripted h outcome)) Prod.mk run
      (fun a side d => h.exit a side = some d) c := by
    constructor
    · intro a _ state result stopped
      cases stopped
    · intro a mem state side next ran target leads
      cases ran
      apply Step.Reaches.single
      simp [Gencode.walk, scripted, tests a mem, leads]
  have follows := done.wired.follows machine []
  rw [show run = fun b trace => .ok (outcome b, trace ++ [b]) from rfl,
    Cond.eval_outcome] at follows
  rw [done.root_eq]
  refine Step.Stops.of_reaches follows (Step.stops_of_step ?_)
  cases c.holds outcome with
  | true => simp [Gencode.walk, scripted, returns.1]
  | false => simp [Gencode.walk, scripted, returns.2]

end

/-! ## Resolving the two lists -/

/-- The last part of `finish_parse` on the heap: the heap with both lists
resolved, and the two return blocks. -/
def Heap.resolve (h : Heap) (p : BlockId) (snaplen : Word) : Option (Heap × BlockId × BlockId) := do
  let (h, accept) := h.newBlock (bpfRet ||| bpfK) snaplen
  let h ← h.backpatch p accept
  let (h, reject) := (h.genNot p).newBlock (bpfRet ||| bpfK) 0
  let h ← h.backpatch p reject
  return (h, accept, reject)

/-- What resolving the lists does to the blocks. -/
structure Resolved (h h' : Heap) (c : Cond BlockId) (p : BlockId) (snaplen : Word)
    (accept reject : BlockId) : Prop where
  finished : Finished h' c (h'.get p).head accept reject
  s : ∀ a, a < h.size → (h'.get a).s = (h.get a).s
  stmts : ∀ a, a < h.size → (h'.get a).stmts = (h.get a).stmts
  acceptRet : (h'.get accept).s = { code := bpfRet ||| bpfK, k := snaplen }
  rejectRet : (h'.get reject).s = { code := bpfRet ||| bpfK, k := 0 }
  returnStmts : (h'.get accept).stmts = [] ∧ (h'.get reject).stmts = []
  acceptEq : accept = h.size
  rejectEq : reject = h.size + 1
  size : h'.size = h.size + 2

/-- A heap with a return block at its end, to which the exits of a list are patched. -/
structure Returned (h h' : Heap) (exits : List Exit) (k : Word) : Prop where
  size : h'.size = h.size + 1
  core : ∀ a, a < h.size → (h'.get a).core = (h.get a).core
  ret : (h'.get h.size).core = { s := { code := bpfRet ||| bpfK, k }, head := h.size }
  exit : ∀ a side, h'.exit a side = if (a, side) ∈ exits then some h.size else h.exit a side
  patched : h'.patched = h.patched ++ exits

theorem Heap.exit_of_le {a : BlockId} (outside : h.size ≤ a) (side : Bool) :
    h.exit a side = none := by
  have unset : h.get a = default := by
    rw [Heap.get, Store.get, getD_eq_getElem?_getD, getElem?_eq_none outside, Option.getD_none]
  rw [Heap.exit, unset]
  exact ite_self _

theorem Links.returned {exits : List Exit} (links : Links h p (!(h.get p).sense) exits)
    (nodup : (exits.map Prod.fst).Nodup) (k : Word) :
    ∃ h', (h.newBlock (bpfRet ||| bpfK) k).1.backpatch p h.size = some h' ∧
      Returned h h' exits k := by
  have old {a : BlockId} : a < h.size → (h.newBlock (bpfRet ||| bpfK) k).1.get a = h.get a :=
    h.get_newBlock_of_lt _ _ _
  have exit (a : BlockId) (side : Bool) :
      (h.newBlock (bpfRet ||| bpfK) k).1.exit a side = h.exit a side := by
    simp only [Heap.exit, Heap.get, Heap.newBlock, Store.get_alloc]
    by_cases last : a = h.store.size
    · rw [if_pos last]
      exact (ite_self _).trans (Heap.exit_of_le last.ge side).symm
    · rw [if_neg last]
  have kept : Links (h.newBlock (bpfRet ||| bpfK) k).1 p
      (!((h.newBlock (bpfRet ||| bpfK) k).1.get p).sense) exits := by
    rw [old (links.bound _ links.self_mem)]
    refine links.congr nodup (by simp) (fun e _ => exit e.1 e.2) ?_
    intro e mem _
    rw [old (links.bound e mem)]
  obtain ⟨h', ran, patch⟩ := kept.backpatch h.size nodup
  refine ⟨h', ran, by rw [patch.size, Heap.size_newBlock], ?_, ?_, ?_, patch.patched⟩
  · intro a known
    rw [patch.core, old known]
  · rw [patch.core, Heap.get_newBlock_self]
    rfl
  · intro a side
    rw [patch.exit, exit]

/-- Where the exits lead when the two return blocks are the next ones. -/
def returnTo (next : BlockId) : Dest → BlockId
  | .block d => d
  | .value true => next
  | .value false => next + 1

theorem Built.resolve (built : Built h c p pend) (snaplen : Word) :
    ∃ h' accept reject, h.resolve p snaplen = some (h', accept, reject) ∧
      Resolved h h' c p snaplen accept reject := by
  have inside : p < h.size := built.bound p built.handle_mem
  have first : Links h p (!(h.get p).sense) (pend true) := by
    simpa using built.links true
  obtain ⟨h2, ran2, accepted⟩ := first.returned (built.nodup true) snaplen
  have inside2 : p < h2.size := by
    rw [accepted.size]
    exact Nat.lt_succ_of_lt inside
  have size3 : (h2.flip p).size = h.size + 1 := by
    rw [Heap.size_flip, accepted.size]
  have exit3 (a : BlockId) (side : Bool) : (h2.flip p).exit a side =
      if (a, side) ∈ pend true then some h.size else h.exit a side := by
    rw [Heap.exit_flip _ inside2, accepted.exit]
  have below (v : Bool) (e : Exit) (mem : e ∈ pend v) : e.1 < h.size :=
    built.bound _ (built.members v e mem)
  have second : Links (h2.flip p) p (!((h2.flip p).get p).sense) (pend false) := by
    have links : Links h p (h.get p).sense (pend false) := by
      simpa using built.links false
    rw [Heap.sense_flip _ inside2, if_pos rfl, Bool.not_not,
      Block.sense_of_core (accepted.core p inside)]
    refine links.congr (built.nodup false) (by rw [size3]; exact Nat.le_succ _) ?_ ?_
    · intro e mem
      rw [exit3, if_neg fun resolved => built.disjoint true resolved mem]
    · intro e mem notHandle
      rw [Heap.sense_flip _ inside2, if_neg notHandle,
        Block.sense_of_core (accepted.core _ (below false e mem))]
  obtain ⟨h5, ran5, rejected⟩ := second.returned (built.nodup false) 0
  rw [size3] at ran5
  have exit5 (a : BlockId) (side : Bool) : h5.exit a side =
      if (a, side) ∈ pend false then some (h.size + 1)
      else if (a, side) ∈ pend true then some h.size else h.exit a side := by
    rw [rejected.exit, size3, exit3]
  have s5 (a : BlockId) (known : a < h2.size) : (h5.get a).s = (h2.get a).s := by
    rw [Block.s_of_core (rejected.core a (by rwa [Heap.size_flip])), (touches_flip h2 inside2).s]
  have stmts5 (a : BlockId) (known : a < h2.size) : (h5.get a).stmts = (h2.get a).stmts := by
    rw [Block.stmts_of_core (rejected.core a (by rwa [Heap.size_flip])),
      (touches_flip h2 inside2).stmts]
  have lift {a : BlockId} (known : a ≤ h.size) : a < h2.size := by
    rw [accepted.size]
    exact Nat.lt_succ_of_le known
  have isReject := rejected.ret
  rw [size3] at isReject
  refine ⟨h5, h.size, h.size + 1, ?_, ⟨?_, ?_, ?_, ?_, ?_⟩, ?_, ?_, ?_, ?_, ?_, rfl, rfl, ?_⟩
  · simp only [Heap.resolve, Heap.newBlock_snd, ran2, Option.bind_eq_bind, Option.bind_some,
      Heap.genNot, size3, ran5]
    rfl
  · rw [Block.head_of_core (rejected.core p (by rwa [Heap.size_flip])), Heap.head_flip _ inside2,
      Block.head_of_core (accepted.core p inside)]
    exact built.head
  · refine built.wired.map (returnTo h.size) (fun _ => rfl) ?_
    intro a _ side dest leads
    rw [exit5]
    rcases dest with d | (_ | _)
    · rw [if_neg (leads.1 false), if_neg (leads.1 true)]
      exact leads.2
    · exact if_pos leads
    · exact (if_neg (built.disjoint true leads)).trans (if_pos leads)
  · intro a mem side
    have once (v : Bool) (pending : (a, side) ∈ pend v) : (pend v).count (a, side) = 1 :=
      count_eq_one_of_mem (Nodup.of_map _ (built.nodup v)) pending
    rw [rejected.patched, count_append,
      show (h2.flip p).patched = h.patched ++ pend true from accepted.patched, count_append]
    by_cases onTrue : (a, side) ∈ pend true
    · have other : (a, side) ∉ pend false := built.disjoint true onTrue
      rw [built.unpatched true _ onTrue, once true onTrue, count_eq_zero.mpr other]
    · rw [count_eq_zero.mpr onTrue]
      by_cases onFalse : (a, side) ∈ pend false
      · rw [built.unpatched false _ onFalse, once false onFalse]
      · rw [count_eq_zero.mpr onFalse]
        exact built.patchedOnce a mem side (Bool.rec onFalse onTrue)
  · exact ⟨fun mem => (built.bound _ mem).ne rfl,
      fun mem => (built.bound _ mem).not_ge (Nat.le_succ _)⟩
  · have new (v : Bool) (a : BlockId) (fresh : h.size ≤ a) (side : Bool) : (a, side) ∉ pend v :=
      fun mem => (below v _ mem).not_ge fresh
    intro side
    rw [exit5, exit5, if_neg (new _ _ le_rfl _), if_neg (new _ _ le_rfl _),
      if_neg (new _ _ (Nat.le_succ _) _), if_neg (new _ _ (Nat.le_succ _) _)]
    exact ⟨Heap.exit_of_le le_rfl side, Heap.exit_of_le (Nat.le_succ _) side⟩
  · intro a known
    rw [s5 a (lift known.le), Block.s_of_core (accepted.core a known)]
  · intro a known
    rw [stmts5 a (lift known.le), Block.stmts_of_core (accepted.core a known)]
  · rw [s5 _ (lift le_rfl)]
    exact congrArg Block.s accepted.ret
  · exact congrArg Block.s isReject
  · rw [stmts5 _ (lift le_rfl)]
    exact ⟨congrArg Block.stmts accepted.ret, congrArg Block.stmts isReject⟩
  · rw [rejected.size, size3]

/-! ## `finish_parse` -/

/-- The heap when `finish_parse` has inserted the header code. -/
def Gen.inserted (g : Gen) (p : BlockId) : Gen :=
  let head := (g.heap.get p).head
  let stmts := (g.heap.get head).stmts
  { g with
    heap := g.heap.setStmts head (vloffsets g (!stmts.isEmpty) ++ stmts)
    noOptimize := g.noOptimize || vloffsetsNoOptimize g }

/-- The heap with the block of `gen_ppi_dlt_check`. -/
def Heap.withDltCheck (h : Heap) : Heap :=
  (h.newBlock (jmp bpfJeq) (swaplong (BitVec.ofNat 32 dltIeee80211))
    [newStmt (bpfLd ||| bpfW ||| bpfAbs) 4]).1

/-- `finish_parse`, given the heaps its steps produce. -/
theorem runs_finishParse {checked h' : Heap} (guard : if g.layout.linktype = dltPpi then (g.inserted
      p).heap.withDltCheck.genAnd (g.inserted p).heap.size p = some checked else (g.inserted p).heap
      = checked) (resolved : checked.resolve p g.snaplen = some (h', accept, reject)) :
    Runs (finishParse p) g ()
      { (g.inserted p).withHeap h' with root := some (h'.get p).head } := by
  simp only [Heap.resolve, Heap.newBlock_snd, Option.bind_eq_bind, Option.bind_eq_some_iff,
    Option.pure_def, Option.some.injEq, Prod.mk.injEq] at resolved
  obtain ⟨h2, ran2, h5, ran5, rfl, rfl, rfl⟩ := resolved
  have checkRuns : Runs genPpiDltCheck (g.inserted p)
      (if g.layout.linktype = dltPpi then some (g.inserted p).heap.size else none)
      (if g.layout.linktype = dltPpi then
        (g.inserted p).withHeap (g.inserted p).heap.withDltCheck else g.inserted p) := by
    unfold genPpiDltCheck
    rw [runs_get_bind_iff]
    by_cases ppi : g.layout.linktype = dltPpi
    · rw [if_pos ppi, if_pos ppi, if_pos (show (g.inserted p).layout.linktype = dltPpi from ppi)]
      exact .bind (runs_newBlock_iff.mpr ⟨rfl, rfl⟩) (runs_pure_iff.mpr ⟨rfl, rfl⟩)
    · rw [if_neg ppi, if_neg ppi, if_neg (show ¬ (g.inserted p).layout.linktype = dltPpi from ppi)]
      exact runs_pure_iff.mpr ⟨rfl, rfl⟩
  rw [finishParse, runs_get_bind_iff]
  have inserts : Runs (insertComputeVloffsets (g.heap.get p).head) g () (g.inserted p) :=
    runs_modify_iff.mpr rfl
  refine inserts.bind (checkRuns.bind ?_)
  refine runs_bind_iff.mpr ⟨(), (g.inserted p).withHeap checked, ?_, ?_⟩
  · by_cases ppi : g.layout.linktype = dltPpi
    · rw [if_pos ppi] at guard
      rw [if_pos ppi, if_pos ppi]
      exact runs_genAnd_iff.mpr ⟨checked, guard, rfl⟩
    · rw [if_neg ppi] at guard
      rw [if_neg ppi, if_neg ppi, ← guard]
      exact runs_pure_iff.mpr ⟨rfl, rfl⟩
  · rw [runs_get_bind_iff]
    refine .bind (runs_newBlock_iff.mpr ⟨rfl, rfl⟩) ?_
    refine .seq (runs_onHeap_iff.mpr ⟨h2, ran2, rfl⟩) ?_
    refine .seq (runs_genNot_iff.mpr rfl) ?_
    refine .bind (runs_newBlock_iff.mpr ⟨rfl, rfl⟩) ?_
    exact .seq (runs_onHeap_iff.mpr ⟨h5, ran5, rfl⟩) (runs_modify_iff.mpr rfl)

/-! ## Every formula -/

/-- The formula that is compiled in the end: on DLT_PPI the next block to be
allocated is the check of the packet's link type, in front of the expression. -/
def guarded (g : Gen) (c : Cond BlockId) : Cond BlockId :=
  if g.layout.linktype = dltPpi then .and (.leaf g.heap.size) c else c

/-- What parsing a formula leaves. -/
structure Parsed (g g' : Gen) (c : Cond BlockId) (root accept reject : BlockId) : Prop where
  rootEq : g'.root = some root
  finished : Finished g'.heap (guarded g c) root accept reject
  nodup : (guarded g c).leaves.Nodup
  s : ∀ a, a < g.heap.size → (g'.heap.get a).s = (g.heap.get a).s
  stmts : ∀ a, a < g.heap.size → (g'.heap.get a).stmts =
    (if a = c.first then vloffsets g (!(g.heap.get a).stmts.isEmpty) else []) ++
      (g.heap.get a).stmts
  check : g.layout.linktype = dltPpi → (g'.heap.get g.heap.size).s =
    { code := jmp bpfJeq, k := swaplong (BitVec.ofNat 32 dltIeee80211) } ∧
    (g'.heap.get g.heap.size).stmts = [newStmt (bpfLd ||| bpfW ||| bpfAbs) 4]
  acceptRet : (g'.heap.get accept).s = { code := bpfRet ||| bpfK, k := g.snaplen }
  rejectRet : (g'.heap.get reject).s = { code := bpfRet ||| bpfK, k := 0 }
  returnStmts : (g'.heap.get accept).stmts = [] ∧ (g'.heap.get reject).stmts = []
  others : g' = { g with heap := g'.heap, root := g'.root, noOptimize := g'.noOptimize }

theorem Built.inserted (built : Built g.heap c p pend) : Built (g.inserted p).heap c p pend := by
  refine built.transport (Nat.le_of_eq (g.heap.size_setStmts _).symm) ?_ ?_ ?_ (fun _ _ _ => rfl)
  · intro a _
    simp [Gen.inserted, Heap.get_setStmts]
  · intro a _
    simp [Gen.inserted, Heap.get_setStmts]
  · intro a _ side
    exact g.heap.exit_setStmts _ a side

theorem inserted_stmts (built : Built g.heap c p pend) (a : BlockId) :
    ((g.inserted p).heap.get a).stmts =
      (if a = c.first then vloffsets g (!(g.heap.get a).stmts.isEmpty) else []) ++
        (g.heap.get a).stmts := by
  have inside : c.first < g.heap.size := built.bound _ c.first_mem_leaves
  simp only [Gen.inserted, Heap.get_setStmts, built.head, inside, and_true]
  by_cases same : a = c.first
  · subst same
    simp
  · simp [same]

/-- Finishing the parse of a compiled formula. -/
theorem Built.finishParse (built : Built g.heap c p pend) (nodup : c.leaves.Nodup)
    (logged : g.heap.Logged) :
    ∃ g' root accept reject, Runs (finishParse p) g () g' ∧
      Parsed g g' c root accept reject := by
  have size1 : (g.inserted p).heap.size = g.heap.size := g.heap.size_setStmts _
  have s1 (a : BlockId) : ((g.inserted p).heap.get a).s = (g.heap.get a).s := by
    simp [Gen.inserted, Heap.get_setStmts]
  have fresh : g.heap.size ∉ c.leaves := by
    intro mem
    exact Nat.lt_irrefl _ (built.bound _ mem)
  by_cases ppi : g.layout.linktype = dltPpi
  · let h2 := (g.inserted p).heap.withDltCheck
    have old2 (a : BlockId) (known : a < g.heap.size) : h2.get a = (g.inserted p).heap.get a :=
      Heap.get_newBlock_of_lt _ _ _ _ (by rw [size1]; exact known)
    have get2 : h2.get g.heap.size =
        { stmts := [newStmt (bpfLd ||| bpfW ||| bpfAbs) 4],
          s := { code := jmp bpfJeq, k := swaplong (BitVec.ofNat 32 dltIeee80211) },
          head := g.heap.size } := by
      rw [← size1]
      exact Heap.get_newBlock_self _ _ _ _
    have size2 : h2.size = g.heap.size + 1 := by
      rw [← size1]
      exact Heap.size_newBlock _ _ _ _
    have built2 : Built h2 c p pend :=
      built.inserted.of_get_eq (by rw [size1, size2]; exact Nat.le_succ _)
        (fun a mem => old2 a (built.bound a mem)) (fun _ _ _ => rfl)
    have check : Fresh h2 g.heap.size := by
      refine ⟨by rw [size2]; exact Nat.lt_succ_self _, by rw [get2], by rw [get2], by rw [get2],
        by rw [get2], ?_⟩
      intro side
      apply count_eq_zero.mpr
      intro mem
      exact Nat.lt_irrefl _ (logged _ mem)
    have different : ∀ a ∈ (Cond.leaf g.heap.size).leaves, a ∉ c.leaves := by
      intro a mem
      rw [mem_singleton.mp mem]
      exact fresh
    obtain ⟨h3, pend3, ran3, built3, touches⟩ := check.built.genAnd built2 different
    obtain ⟨h', accept, reject, ran, resolved⟩ := built3.resolve g.snaplen
    have guard : if g.layout.linktype = dltPpi then
        (g.inserted p).heap.withDltCheck.genAnd (g.inserted p).heap.size p = some h3
      else (g.inserted p).heap = h3 := by
      rw [if_pos ppi, size1]
      exact ran3
    have below (a : BlockId) (known : a < g.heap.size) : a < h3.size := by
      rw [touches.size, size2]
      exact Nat.lt_succ_of_lt known
    have atCheck : g.heap.size < h3.size := by
      rw [touches.size, size2]
      exact Nat.lt_succ_self _
    refine ⟨_, (h'.get p).head, accept, reject, runs_finishParse guard ran, ?_⟩
    constructor
    · rfl
    · rw [guarded, if_pos ppi]
      exact resolved.finished
    · rw [guarded, if_pos ppi]
      exact nodup_cons.mpr ⟨fresh, nodup⟩
    · intro a known
      exact (resolved.s a (below a known)).trans
        ((touches.s a).trans ((congrArg Block.s (old2 a known)).trans (s1 a)))
    · intro a known
      exact (resolved.stmts a (below a known)).trans
        ((touches.stmts a).trans ((congrArg Block.stmts (old2 a known)).trans
          (inserted_stmts built a)))
    · intro _
      refine ⟨(resolved.s _ atCheck).trans ((touches.s _).trans ?_),
        (resolved.stmts _ atCheck).trans ((touches.stmts _).trans ?_)⟩
      · rw [get2]
      · rw [get2]
    · exact resolved.acceptRet
    · exact resolved.rejectRet
    · exact resolved.returnStmts
    · rfl
  · obtain ⟨h', accept, reject, ran, resolved⟩ := built.inserted.resolve g.snaplen
    have guard : if g.layout.linktype = dltPpi then
        (g.inserted p).heap.withDltCheck.genAnd (g.inserted p).heap.size p =
          some (g.inserted p).heap
      else (g.inserted p).heap = (g.inserted p).heap := by
      rw [if_neg ppi]
    have below (a : BlockId) (known : a < g.heap.size) : a < (g.inserted p).heap.size := by
      rw [size1]
      exact known
    refine ⟨_, (h'.get p).head, accept, reject, runs_finishParse guard ran, ?_⟩
    constructor
    · rfl
    · rw [guarded, if_neg ppi]
      exact resolved.finished
    · rw [guarded, if_neg ppi]
      exact nodup
    · intro a known
      exact (resolved.s a (below a known)).trans (s1 a)
    · intro a known
      exact (resolved.stmts a (below a known)).trans (inserted_stmts built a)
    · intro wrong
      exact absurd wrong ppi
    · exact resolved.acceptRet
    · exact resolved.rejectRet
    · exact resolved.returnStmts
    · rfl

/-- Parsing a formula over distinct fresh blocks. -/
theorem parseCond_parsed (distinct : c.leaves.Nodup) (fresh : ∀ a ∈ c.leaves, Fresh g.heap a)
    (logged : g.heap.Logged) :
    ∃ g' root accept reject, Runs (parseCond c) g () g' ∧ Parsed g g' c root accept reject := by
  obtain ⟨h1, p, pend, ran, built, touches⟩ := compileCond_built c distinct fresh
  have logged1 : (g.withHeap h1).heap.Logged :=
    touches.logged (fun a mem => (fresh a mem).inside) logged
  have built1 : Built (g.withHeap h1).heap c p pend := built
  obtain ⟨g', root, accept, reject, finish, parsed⟩ := built1.finishParse distinct logged1
  have sameSize : (g.withHeap h1).heap.size = g.heap.size := touches.size
  have sameFormula : guarded (g.withHeap h1) c = guarded g c := by
    simp only [guarded, sameSize]
    rfl
  refine ⟨g', root, accept, reject, ?_, ?_⟩
  · rw [parseCond, runs_get_bind_iff]
    simp only [ran]
    exact .bind rfl finish
  · constructor
    · exact parsed.rootEq
    · exact sameFormula ▸ parsed.finished
    · exact sameFormula ▸ parsed.nodup
    · intro a known
      exact (parsed.s a (sameSize.symm ▸ known)).trans (touches.s a)
    · intro a known
      have same : (h1.get a).stmts = (g.heap.get a).stmts := touches.stmts a
      rw [← same]
      exact parsed.stmts a (sameSize.symm ▸ known)
    · intro ppi
      exact sameSize ▸ parsed.check ppi
    · exact parsed.acceptRet
    · exact parsed.rejectRet
    · exact parsed.returnStmts
    · exact parsed.others

/-- Following the graph of a parsed formula evaluates it. -/
theorem Parsed.walk {g' : Gen} (parsed : Parsed g g' c root accept reject)
    (inside : ∀ a ∈ c.leaves, a < g.heap.size)
    (tests : ∀ a ∈ c.leaves, bpfClass (g.heap.get a).s.code = bpfJmp) (outcome : BlockId → Bool) :
    (walk g'.heap none (scripted g'.heap outcome)).Stops (root, [])
      (some (if (guarded g c).holds outcome then accept else reject,
        (guarded g c).visited outcome)) := by
  have test (a : BlockId) (mem : a ∈ c.leaves) : bpfClass (g'.heap.get a).s.code ≠ bpfRet := by
    rw [parsed.s a (inside a mem), tests a mem]
    decide
  refine parsed.finished.walk ?_ ?_ outcome
  · intro a mem
    by_cases ppi : g.layout.linktype = dltPpi
    · rw [guarded, if_pos ppi] at mem
      rcases mem_append.mp mem with check | inner
      · rw [mem_singleton.mp check, (parsed.check ppi).1]
        decide
      · exact test a inner
    · rw [guarded, if_neg ppi] at mem
      exact test a mem
  · have isReturn : bpfClass (bpfRet ||| bpfK) = bpfRet := by decide
    rw [parsed.acceptRet, parsed.rejectRet]
    exact ⟨isReturn, isReturn⟩

/-- Compilation of and, or and not: for every formula over distinct fresh test
blocks the parse succeeds, its graph is acyclic, every exit of every test has
been patched exactly once and leads somewhere, and for every assignment of
outcomes the walk from the root looks at the tests in short-circuit order and
ends in the accepting return if the formula is true and in the rejecting return
otherwise. On DLT_PPI the formula is the expression behind the check of the
packet's own link type. -/
theorem parseCond_correct (g : Gen) (c : Cond BlockId) (distinct : c.leaves.Nodup)
    (fresh : ∀ a ∈ c.leaves, Fresh g.heap a)
    (tests : ∀ a ∈ c.leaves, bpfClass (g.heap.get a).s.code = bpfJmp)
    (logged : g.heap.Logged) :
    ∃ g' root accept reject, Runs (parseCond c) g () g' ∧ g'.root = some root ∧
      AcyclicFrom (Leads g'.heap) root ∧
      (∀ a ∈ c.leaves, ∀ side, g'.heap.patched.count (a, side) = 1 ∧
        ∃ d, g'.heap.exit a side = some d) ∧
      (g'.heap.get accept).s = { code := bpfRet ||| bpfK, k := g.snaplen } ∧
      (g'.heap.get reject).s = { code := bpfRet ||| bpfK, k := 0 } ∧
      (g.layout.linktype ≠ dltPpi → ∀ outcome,
        (walk g'.heap none (scripted g'.heap outcome)).Stops (root, [])
          (some (if c.holds outcome then accept else reject, c.visited outcome))) ∧
      (g.layout.linktype = dltPpi → ∃ check,
        (g'.heap.get check).stmts = [newStmt (bpfLd ||| bpfW ||| bpfAbs) 4] ∧
        (g'.heap.get check).s =
          { code := jmp bpfJeq, k := swaplong (BitVec.ofNat 32 dltIeee80211) } ∧
        ∀ outcome, (walk g'.heap none (scripted g'.heap outcome)).Stops (root, [])
          (some (if outcome check && c.holds outcome then accept else reject,
            check :: if outcome check then c.visited outcome else []))) := by
  obtain ⟨g', root, accept, reject, ran, parsed⟩ := parseCond_parsed distinct fresh logged
  have inside (a : BlockId) (mem : a ∈ c.leaves) : a < g.heap.size := (fresh a mem).inside
  have part (a : BlockId) (mem : a ∈ c.leaves) : a ∈ (guarded g c).leaves := by
    unfold guarded
    split
    · exact mem_append_right _ mem
    · exact mem
  refine ⟨g', root, accept, reject, ran, parsed.rootEq, parsed.finished.acyclic parsed.nodup,
    ?_, parsed.acceptRet, parsed.rejectRet, ?_, ?_⟩
  · intro a mem side
    refine ⟨parsed.finished.patchedOnce a (part a mem) side, ?_⟩
    obtain ⟨d, leads, _⟩ := parsed.finished.wired.forward parsed.nodup (part a mem) side
    exact ⟨d, leads⟩
  · intro notPpi outcome
    have walks := parsed.walk inside tests outcome
    rwa [guarded, if_neg notPpi] at walks
  · intro ppi
    refine ⟨g.heap.size, (parsed.check ppi).2, (parsed.check ppi).1, ?_⟩
    intro outcome
    have walks := parsed.walk inside tests outcome
    rwa [guarded, if_pos ppi] at walks

/-- Two fresh equality tests. -/
def twoTests (layout : Layout) : Gen :=
  (Gen.start layout 96).withHeap
    (((Heap.empty.newBlock (jmp bpfJeq) 1).1).newBlock (jmp bpfJeq) 2).1

theorem twoTests_fresh (layout : Layout) (b : BlockId) (known : b = 0 ∨ b = 1) :
    Fresh (twoTests layout).heap b := by
  have size : (twoTests layout).heap.size = 2 := rfl
  rcases known with rfl | rfl
  · exact ⟨by rw [size]; decide, rfl, rfl, rfl, rfl, fun _ => rfl⟩
  · exact ⟨by rw [size]; decide, rfl, rfl, rfl, rfl, fun _ => rfl⟩

theorem twoTests_logged (layout : Layout) : (twoTests layout).heap.Logged := by
  intro e mem
  cases mem

/-- The theorem on `not (t0 and t1)` for Ethernet. -/
theorem parseCond_correct_not_and :
    ∃ g' root accept reject, Runs (parseCond (.not (.and (.leaf 0) (.leaf 1)))) (twoTests .ethernet) () g' ∧
      g'.root = some root ∧ AcyclicFrom (Leads g'.heap) root ∧
      (walk g'.heap none (scripted g'.heap fun b => b == 0)).Stops (root, [])
        (some (accept, [0, 1])) ∧
      (walk g'.heap none (scripted g'.heap fun _ => true)).Stops (root, [])
        (some (reject, [0, 1])) ∧
      (walk g'.heap none (scripted g'.heap fun _ => false)).Stops (root, [])
        (some (accept, [0])) := by
  obtain ⟨g', root, accept, reject, ran, rootEq, acyclic, _, _, _, walks, _⟩ :=
    parseCond_correct (twoTests .ethernet) (.not (.and (.leaf 0) (.leaf 1))) (by decide)
      (fun b mem => twoTests_fresh .ethernet b (by simpa [Cond.leaves] using mem))
      (fun b mem => by
        have known : b = 0 ∨ b = 1 := by simpa [Cond.leaves] using mem
        rcases known with rfl | rfl <;> decide)
      (twoTests_logged .ethernet)
  have notPpi : (twoTests .ethernet).layout.linktype ≠ dltPpi := by decide
  exact ⟨g', root, accept, reject, ran, rootEq, acyclic, walks notPpi _, walks notPpi _,
    walks notPpi _⟩

/-- On DLT_PPI a true formula does not suffice: with the formula `t0`, the test
`t0` true and the inserted check false, the walk ends in the rejecting return. -/
theorem ppi_check_rejects :
    ∃ (g' : Gen) (root reject : BlockId) (outcome : BlockId → Bool) (trace : List BlockId),
      Fresh (twoTests .ppi).heap 0 ∧ Runs (parseCond (.leaf 0)) (twoTests .ppi) () g' ∧
      g'.root = some root ∧ (Cond.leaf 0).holds outcome = true ∧
      (walk g'.heap none (scripted g'.heap outcome)).Stops (root, []) (some (reject, trace)) ∧
      (g'.heap.get reject).s = { code := bpfRet ||| bpfK, k := 0 } ∧
      (twoTests .ppi).snaplen ≠ 0 := by
  have fresh : ∀ a ∈ (Cond.leaf 0).leaves, Fresh (twoTests .ppi).heap a :=
    fun b mem => twoTests_fresh .ppi b (.inl (mem_singleton.mp mem))
  obtain ⟨g', root, accept, reject, ran, parsed⟩ :=
    parseCond_parsed (c := .leaf 0) (by decide) fresh (twoTests_logged .ppi)
  have walks := parsed.walk (fun b mem => (fresh b mem).inside)
    (fun b mem => by rw [mem_singleton.mp mem]; decide) (fun b => b == 0)
  exact ⟨g', root, reject, fun b => b == 0, [2], twoTests_fresh _ _ (.inl rfl), ran, parsed.rootEq,
    rfl, walks, parsed.rejectRet, by decide⟩

end Libpcap.Gencode
