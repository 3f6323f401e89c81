/-
# From a formula to a program

The code generator turns an expression into a formula over test blocks, combines the
blocks, adds the two returns and, when the optimizer is not run, flattens the graph. On
a link type with fixed header offsets all of this succeeds for every formula whose
blocks have convertible block-local jumps, and the program runs as the graph does
(`exists_compiled`).
-/

import Libpcap.Gencode.Weight
import Libpcap.Optimize.Execution

namespace Libpcap.Optimize

open Libpcap.Bpf Libpcap.Gencode Libpcap.Semantics

variable {g : Gen}

/-- Combine the tests of a formula and finish the parse. -/
def compileFormula (c : Formula) : GenM Unit := do
  let b ← emit c
  finishParse b

/-- A test block that can be flattened. -/
structure FlatLeaf (l : Leaf) : Prop where
  localOk : LocalOk l.stmts
  branch : ∃ cond src, decode l.code = some (.jmp cond src)

theorem localOk_of_straight {stmts : List Stmt} (straight : ∀ s ∈ stmts, s.Straight) :
    LocalOk stmts := by
  intro i s found isJump
  exact absurd isJump (straight s (List.mem_of_getElem? found)).2

theorem FlatLeaf.of_straight {l : Leaf} (straight : l.Straight) : FlatLeaf l :=
  ⟨localOk_of_straight straight.stmts, straight.branch⟩

/-- A formula and the program it was compiled to. -/
structure Compiled (c : Formula) (snaplen : Word) (h : Heap) (ids : Cond BlockId)
    (accept reject : BlockId) (code : List Insn) : Prop where
  finished : Finished h ids ids.first accept reject
  shape : ids.map h.leaf = c
  acceptRet : (h.get accept).s = { code := bpfRet ||| bpfK, k := snaplen }
  rejectRet : (h.get reject).s = { code := bpfRet ||| bpfK, k := 0 }
  acceptStmts : (h.get accept).stmts = []
  rejectStmts : (h.get reject).stmts = []
  runs : ∀ (p : Packet) (mem : Reg → Word) (result : Result),
    (graphStep h p).Stops ⟨ids.first, 0, ⟨0, 0, mem⟩⟩ result ↔
      (step code p).Stops (.init mem) result

/-- A block that is not allocated has the code of a load. -/
theorem inside_of_code {h : Heap} {b : BlockId} (code : (h.get b).s.code ≠ 0) : b < h.size := by
  by_contra outside
  apply code
  rw [Heap.get, Store.get, List.getD_eq_getElem?_getD, List.getElem?_eq_none (not_lt.mp outside)]
  rfl

/-- Without variable offsets, nothing is inserted. -/
theorem vloffsets_plain (plain : is80211 g.layout.linktype = false) (hasNext : Bool) :
    vloffsets g hasNext = [] := by
  have kinds := plain
  simp only [is80211, Bool.or_eq_false_iff, beq_eq_false_iff_ne, ne_eq] at kinds
  simp only [vloffsets, plain, Bool.false_eq_true, if_false, loadLlprefixlen]
  split
  · rfl
  · rw [if_neg kinds.1.1.1.2, if_neg kinds.1.1.2, if_neg kinds.1.2, if_neg kinds.2]

section Graph

variable {h : Heap} {ids : Cond BlockId} {root accept reject : BlockId} {snaplen : Word}

/-- The graph of a formula whose tests can be flattened. -/
theorem Finished.flowGraph (done : Finished h ids root accept reject) (nodup : ids.leaves.Nodup)
    (flat : ∀ a ∈ ids.leaves, FlatLeaf (h.leaf a))
    (acceptRet : (h.get accept).s = { code := bpfRet ||| bpfK, k := snaplen })
    (rejectRet : (h.get reject).s = { code := bpfRet ||| bpfK, k := 0 })
    (returns : (h.get accept).stmts = [] ∧ (h.get reject).stmts = []) : FlowGraph h root := by
  have isReturn : bpfClass (bpfRet ||| bpfK) = bpfRet := by decide
  have nonzero : bpfRet ||| bpfK ≠ 0 := by decide
  have noLocal : LocalOk [] := fun i s found => by simp at found
  refine ⟨done.acyclic nodup, ?_, ?_, ?_⟩
  · intro b path
    apply inside_of_code
    rcases done.reachable nodup path with test | rfl | rfl
    · obtain ⟨cond, src, decoded⟩ := (flat b test).branch
      intro zero
      have load : decode (h.get b).s.code = some .ldImm := by
        rw [zero]
        decide
      exact absurd (decoded.symm.trans load) (by simp)
    · rw [acceptRet]
      exact nonzero
    · rw [rejectRet]
      exact nonzero
  · intro b path
    rcases done.reachable nodup path with test | rfl | rfl
    · obtain ⟨cond, src, decoded⟩ := (flat b test).branch
      obtain ⟨t, onTrue, _⟩ := done.wired.forward nodup test true
      obtain ⟨f, onFalse, _⟩ := done.wired.forward nodup test false
      exact .inl ⟨t, f, cond, src, onTrue, onFalse, decoded⟩
    · exact .inr ⟨(done.ends true).1, (done.ends false).1, acceptRet ▸ isReturn⟩
    · exact .inr ⟨(done.ends true).2, (done.ends false).2, rejectRet ▸ isReturn⟩
  · intro b path
    rcases done.reachable nodup path with test | rfl | rfl
    · exact (flat b test).localOk
    · rw [returns.1]
      exact noLocal
    · rw [returns.2]
      exact noLocal

/-- The instructions of the graph, without extra jumps. -/
theorem Finished.countStmts_le (done : Finished h ids root accept reject)
    (nodup : ids.leaves.Nodup) (graph : FlowGraph h root) (unmarked : h.Unmarked)
    (returns : (h.get accept).stmts = [] ∧ (h.get reject).stmts = []) :
    countStmts h root ≤ weight (ids.map h.leaf) + 2 := by
  have room : ∀ b, Block.room (h.get b) ≤ (h.leaf b).stmts.length + 1 := by
    intro b
    have live : slength (h.get b).stmts ≤ (h.get b).stmts.length := List.countP_le_length
    rw [Block.room, (unmarked b).1, (unmarked b).2]
    exact Nat.succ_le_succ live
  have rooms : ∀ blocks : List BlockId,
      totalRoom h blocks ≤ (blocks.map fun b => (h.leaf b).stmts.length + 1).sum := by
    intro blocks
    exact List.sum_le_sum fun b _ => room b
  obtain ⟨all, covers, count⟩ := exists_covers graph.inside
  have subset : all ⊆ ids.leaves ++ [accept, reject] := by
    intro b member
    have known := done.reachable nodup ((covers.mem_iff b).mp member)
    simpa using known
  calc countStmts h root = totalRoom h all := count
    _ ≤ totalRoom h (ids.leaves ++ [accept, reject]) :=
      totalRoom_le_of_subset h covers.nodup subset
    _ ≤ weight (ids.map h.leaf) + 2 := by
      refine (rooms _).trans (Nat.le_of_eq ?_)
      simp only [List.map_append, List.sum_append, weight, Cond.leaves_map, List.map_map]
      simp [Heap.leaf, returns.1, returns.2, Function.comp_def]

end Graph

/-- Finishing the parse does not turn the optimizer on again. -/
theorem noOptimize_finishParse {p : BlockId} {g' : Gen} (ran : Runs (finishParse p) g () g')
    (off : g.noOptimize = true) : g'.noOptimize = true := by
  simp only [finishParse, runs_bind_iff, runs_get_iff, runs_modify_iff] at ran
  obtain ⟨_, _, ⟨rfl, rfl⟩, _, g0, inserted, check, g1, checked, _, g2, guarded, _, _, ⟨rfl, rfl⟩,
    accept, g3, ret, _, g4, patched, _, g5, negated, reject, g6, ret', _, g7, patched', rfl⟩ := ran
  obtain ⟨_, rfl⟩ := runs_newBlock_iff.mp ret
  obtain ⟨_, _, rfl⟩ := runs_onHeap_iff.mp patched
  obtain rfl := runs_genNot_iff.mp negated
  obtain ⟨_, rfl⟩ := runs_newBlock_iff.mp ret'
  obtain ⟨_, _, rfl⟩ := runs_onHeap_iff.mp patched'
  have stillOff : g0.noOptimize = true := by
    rw [insertComputeVloffsets, runs_modify_iff] at inserted
    subst inserted
    exact Bool.or_eq_true_iff.mpr (.inl off)
  have afterCheck : g1.noOptimize = true := by
    simp only [genPpiDltCheck, runs_bind_iff, runs_get_iff] at checked
    obtain ⟨_, _, ⟨rfl, rfl⟩, checked⟩ := checked
    split at checked
    · simp only [runs_bind_iff, runs_pure_iff] at checked
      obtain ⟨_, _, allocated, _, rfl⟩ := checked
      obtain ⟨_, rfl⟩ := runs_newBlock_iff.mp allocated
      exact stillOff
    · obtain ⟨_, rfl⟩ := runs_pure_iff.mp checked
      exact stillOff
  cases check with
  | none =>
    obtain ⟨_, rfl⟩ := runs_pure_iff.mp guarded
    exact afterCheck
  | some b =>
    obtain ⟨_, _, rfl⟩ := runs_genAnd_iff.mp guarded
    exact afterCheck

theorem noOptimize_compileFormula {c : Formula} {g' : Gen} (logged : g.heap.Logged)
    (ran : Runs (compileFormula c) g () g') (off : g.noOptimize = true) : g'.noOptimize = true := by
  obtain ⟨b, h, ids, ranEmit, _⟩ := emit_emitted c g logged
  obtain ⟨b', g₁, ranEmit', ranFinish⟩ := runs_bind_iff.mp ran
  obtain ⟨rfl, rfl⟩ := ranEmit.unique ranEmit'
  exact noOptimize_finishParse ranFinish off

/-- A formula and the graph it was compiled to. -/
structure Graphed (c : Formula) (g g' : Gen) (ids : Cond BlockId) (accept reject : BlockId) :
    Prop where
  ran : Runs (compileFormula c) g () g'
  rootEq : g'.root = some ids.first
  finished : Finished g'.heap ids ids.first accept reject
  nodup : ids.leaves.Nodup
  shape : ids.map g'.heap.leaf = c
  acceptRet : (g'.heap.get accept).s = { code := bpfRet ||| bpfK, k := g.snaplen }
  rejectRet : (g'.heap.get reject).s = { code := bpfRet ||| bpfK, k := 0 }
  returnStmts : (g'.heap.get accept).stmts = [] ∧ (g'.heap.get reject).stmts = []

/-- On a link type with fixed header offsets every formula is compiled to a graph. -/
theorem exists_graphed (c : Formula) (logged : g.heap.Logged)
    (plain : is80211 g.layout.linktype = false) :
    ∃ g' ids accept reject, Graphed c g g' ids accept reject := by
  obtain ⟨b, h, ids, ranEmit, emitted⟩ := emit_emitted c g logged
  obtain ⟨pend, built⟩ := emitted.built
  have built' : Built (g.withHeap h).heap ids b pend := built
  obtain ⟨g', root, accept, reject, ranFinish, parsed⟩ :=
    built'.finishParse emitted.nodup emitted.logged
  have notPpi : (g.withHeap h).layout.linktype ≠ dltPpi := by
    intro ppi
    have ppi' : g.layout.linktype = dltPpi := ppi
    rw [ppi'] at plain
    cases plain
  have done := parsed.finished
  rw [guarded, if_neg notPpi] at done
  obtain rfl := done.root_eq
  -- nothing was inserted, so the blocks are those of the formula
  have same : ∀ a ∈ ids.leaves, g'.heap.leaf a = h.leaf a := by
    intro a member
    have inside := built.bound a member
    have plain' : is80211 (g.withHeap h).layout.linktype = false := plain
    have stmts := parsed.stmts a inside
    rw [vloffsets_plain plain', ite_self, List.nil_append] at stmts
    simp only [Heap.leaf, stmts, parsed.s a inside]
    rfl
  have shape : ids.map g'.heap.leaf = c := by
    rw [← emitted.shape]
    exact Cond.map_congr same
  exact ⟨g', ids, accept, reject, .bind ranEmit ranFinish, parsed.rootEq, done,
    emitted.nodup, shape, parsed.acceptRet, parsed.rejectRet, parsed.returnStmts⟩

/-- **Compiling a formula.** On a link type with fixed header offsets, a formula of
moderate size whose tests can be flattened is compiled to a program that runs as its
graph. -/
theorem exists_compiled {c : Formula} (empty : g.heap = .empty)
    (plain : is80211 g.layout.linktype = false) (flat : ∀ l ∈ c.leaves, FlatLeaf l)
    (light : weight c < 2 ^ 29) :
    ∃ g' ids accept reject code, Runs (compileFormula c) g () g' ∧ g'.root = some ids.first ∧
      icodeToFcode g'.heap ids.first = .ok (code.map some) ∧
      Compiled c g.snaplen g'.heap ids accept reject code := by
  have logged : g.heap.Logged := by
    rw [empty]
    nofun
  obtain ⟨g', ids, accept, reject, graphed⟩ := exists_graphed c logged plain
  have done := graphed.finished
  have flat' : ∀ a ∈ ids.leaves, FlatLeaf (g'.heap.leaf a) := by
    intro a member
    apply flat
    rw [← graphed.shape, Cond.leaves_map]
    exact List.mem_map_of_mem member
  have graph : FlowGraph g'.heap ids.first :=
    Finished.flowGraph done graphed.nodup flat' graphed.acceptRet graphed.rejectRet
      graphed.returnStmts
  obtain ⟨b, g₁, ranEmit, ranFinish⟩ := runs_bind_iff.mp graphed.ran
  have grows := (grows_emit c ranEmit).trans (grows_finishParse ranFinish)
  have unmarked : g'.heap.Unmarked := by
    apply grows.unmarked
    rw [empty]
    exact fun _ => ⟨rfl, rfl⟩
  have size : g'.heap.size ≤ weight c + 3 := by
    have allocated := grows.size
    have leaves := length_leaves_le_weight c
    have none : g.heap.size = 0 := by
      rw [empty]
      rfl
    omega
  have count := Finished.countStmts_le done graphed.nodup graph unmarked graphed.returnStmts
  rw [graphed.shape] at count
  obtain ⟨last, code, ran, laidOut⟩ := exists_laidOut graph (fun b _ => unmarked b) (by omega)
  refine ⟨g', ids, accept, reject, code, graphed.ran, graphed.rootEq, ?_, ?_⟩
  · rw [icodeToFcode, ran]
    rfl
  · exact ⟨done, graphed.shape, graphed.acceptRet, graphed.rejectRet, graphed.returnStmts.1,
      graphed.returnStmts.2, (laidOut.flattened graph).runs⟩

/-- What the filter returns: the result of the test that stopped it, or one of the two
constants. -/
def verdict (snaplen : Word) : Except Result (Bool × Machine) → Result
  | .error result => result
  | .ok (value, _) => .ret (if value then snaplen else 0)

/-- **From a formula to its verdict.** Where the tests have no block-local jumps, the program
returns for every packet what the formula says about it. -/
theorem compileFormula_returns {c : Formula} (empty : g.heap = .empty)
    (plain : is80211 g.layout.linktype = false) (straight : ∀ l ∈ c.leaves, l.Straight)
    (light : weight c < 2 ^ 29) :
    ∃ g' root code, Runs (compileFormula c) g () g' ∧ g'.root = some root ∧
      icodeToFcode g'.heap root = .ok (code.map some) ∧ ∀ (p : Packet) (mem : Reg → Word),
        (step code p).Stops (.init mem) (verdict g.snaplen (c.eval (leafTest p) ⟨0, 0, mem⟩)) := by
  obtain ⟨g', ids, accept, reject, code, ran, root, flat, compiled⟩ :=
    exists_compiled empty plain (fun l mem => .of_straight (straight l mem)) light
  refine ⟨g', ids.first, code, ran, root, flat, fun p mem => ?_⟩
  have straight' : ∀ a ∈ ids.leaves, (g'.heap.leaf a).Straight := by
    intro a mem
    apply straight
    rw [← compiled.shape, Cond.leaves_map]
    exact List.mem_map_of_mem mem
  have follows := compiled.finished.wired.follows (graphStep_follows (p := p) straight') ⟨0, 0, mem⟩
  rw [← compiled.runs, ← compiled.shape, Cond.eval_map]
  cases outcome : ids.eval (fun b => leafTest p (g'.heap.leaf b)) ⟨0, 0, mem⟩ with
  | error result => simpa only [outcome, verdict] using follows
  | ok answer =>
    obtain ⟨value, next⟩ := answer
    simp only [outcome] at follows
    refine .of_reaches follows (Step.stops_of_step ?_)
    cases value with
    | true => exact graphStep_return compiled.acceptStmts compiled.acceptRet
    | false => exact graphStep_return compiled.rejectStmts compiled.rejectRet

/-- The theorem on the test for IPv4, negated. -/
theorem compileFormula_returns_not_ip :
    let ip : Leaf := ⟨[{ code := 0x28, k := 12 }], 0x15, 0x800⟩
    ∃ g' root code, Runs (compileFormula (.not (.leaf ip))) (.start .ethernet 96) () g' ∧
      g'.root = some root ∧ icodeToFcode g'.heap root = .ok (code.map some) ∧
      ∀ p mem, (step code p).Stops (.init mem)
        (verdict 96 (Cond.eval (leafTest p) (.not (.leaf ip)) ⟨0, 0, mem⟩)) := by
  refine compileFormula_returns rfl rfl ?_ (by decide)
  intro l mem
  obtain rfl := List.mem_singleton.mp mem
  exact ⟨by decide, .jeq, .k, by decide⟩

end Libpcap.Optimize
