/-
# Conditions as formulas

A primitive of the filter language is compiled to a few test blocks that are
combined by `gen_and`, `gen_or` and `gen_not`. The generator functions are
modelled as functions to the formula they combine, over tests that are given by
their statements, their branch and its constant; `emit` allocates the blocks and
makes the calls. By the theorem about these calls, the graph that results
evaluates the formula.
-/

import Libpcap.Gencode.Finish

namespace Libpcap.Gencode

open Libpcap.Bpf Libpcap.Semantics

variable {b : BlockId} {ids : Cond BlockId} {c : Formula} {h h' h'' : Heap}

/-- A test block: what `new_block` and its caller put into it. -/
structure Leaf where
  stmts : List Stmt
  code : Code
  k : Word
  deriving DecidableEq, Repr

/-- A condition over test blocks. -/
abbrev Formula := Cond Leaf

/-- Allocate the tests of a formula and combine them. -/
def emit : Formula → GenM BlockId
  | .leaf l => newBlock l.code l.k l.stmts
  | .and left right => do
      let b0 ← emit left
      let b1 ← emit right
      genAnd b0 b1
      return b1
  | .or left right => do
      let b0 ← emit left
      let b1 ← emit right
      genOr b0 b1
      return b1
  | .not inner => do
      let b ← emit inner
      genNot b
      return b

/-- The test in a block. -/
def Heap.leaf (h : Heap) (b : BlockId) : Leaf := ⟨(h.get b).stmts, (h.get b).s.code, (h.get b).s.k⟩

/-! ## Emitted formulas -/

/-- The block `b` stands for the formula `c`, whose tests are the new blocks of
`ids`. -/
structure Emitted (h h' : Heap) (c : Formula) (ids : Cond BlockId) (b : BlockId) : Prop where
  built : ∃ pend, Built h' ids b pend
  handle : ids.leaves.getLast? = some b
  shape : ids.map h'.leaf = c
  nodup : ids.leaves.Nodup
  new : ∀ a ∈ ids.leaves, h.size ≤ a
  grows : h.size ≤ h'.size
  kept : ∀ a, a < h.size → h'.get a = h.get a
  count : ∀ a, a < h.size → ∀ side, h'.patched.count (a, side) = h.patched.count (a, side)
  logged : h'.Logged

/-- One test block. -/
theorem emitted_newBlock (logged : h.Logged) (l : Leaf) :
    Emitted h (h.newBlock l.code l.k l.stmts).1 (.leaf l) (.leaf h.size) h.size := by
  have size := h.size_newBlock l.code l.k l.stmts
  have self := h.get_newBlock_self l.code l.k l.stmts
  have fresh : Fresh (h.newBlock l.code l.k l.stmts).1 h.size := by
    refine ⟨by simp, by simp, by simp, by simp, by simp, fun side => List.count_eq_zero.mpr ?_⟩
    intro mem
    exact Nat.lt_irrefl _ (logged _ mem)
  constructor
  · exact ⟨_, fresh.built⟩
  · rfl
  · simp [Cond.map, Heap.leaf]
  · exact List.nodup_singleton _
  · intro a mem
    exact Nat.le_of_eq (List.mem_singleton.mp mem).symm
  · rw [size]
    exact Nat.le_succ _
  · intro a known
    exact h.get_newBlock_of_lt _ _ _ known
  · intro a _ side
    rfl
  · intro e mem
    rw [size]
    exact Nat.lt_succ_of_lt (logged e mem)

section

variable {c' : Formula} {ids' : Cond BlockId} {b' : BlockId} (first : Emitted h h' c ids b)
  (second : Emitted h' h'' c' ids' b')

include first second

/-- An emitted formula is not disturbed by what is emitted after it. -/
theorem Emitted.later :
    Emitted h h'' c ids b := by
  obtain ⟨pend, built⟩ := first.built
  have below : ∀ a ∈ ids.leaves, a < h'.size := built.bound
  have same : ∀ a ∈ ids.leaves, h''.get a = h'.get a :=
    fun a mem => second.kept a (below a mem)
  have lift {a : BlockId} (known : a < h.size) : a < h'.size := known.trans_le first.grows
  exact { first with
    built := ⟨pend, built.of_get_eq second.grows same
      (fun a mem => second.count a (below a mem))⟩
    shape := by
      rw [← first.shape]
      apply Cond.map_congr
      intro a mem
      simp [Heap.leaf, same a mem]
    grows := first.grows.trans second.grows
    kept := fun a known => (second.kept a (lift known)).trans (first.kept a known)
    count := fun a known side =>
      (second.count a (lift known) side).trans (first.count a known side)
    logged := second.logged }

theorem Emitted.disjoint :
    ∀ a ∈ ids.leaves, a ∉ ids'.leaves := by
  obtain ⟨pend, built⟩ := first.built
  intro a inFirst inSecond
  exact Nat.not_le.mpr (built.bound a inFirst) (second.new a inSecond)

end

/-- What the operations that combine conditions keep. -/
theorem Emitted.of_touches {blocks : List BlockId} (touches : Touches h' h'' blocks)
    (new : ∀ a ∈ blocks, h.size ≤ a ∧ a < h'.size) (built : ∃ pend, Built h'' ids b pend)
    (handle : ids.leaves.getLast? = some b) (shape : ids.map h'.leaf = c) (nodup : ids.leaves.Nodup)
    (leaves : ∀ a ∈ ids.leaves, h.size ≤ a) (grows : h.size ≤ h'.size)
    (kept : ∀ a, a < h.size → h'.get a = h.get a)
    (count : ∀ a, a < h.size → ∀ side, h'.patched.count (a, side) = h.patched.count (a, side))
    (logged : h'.Logged) : Emitted h h'' c ids b := by
  have outside : ∀ a, a < h.size → a ∉ blocks := by
    intro a known mem
    exact Nat.not_le.mpr known (new a mem).1
  refine ⟨built, handle, ?_, nodup, leaves, grows.trans touches.size.ge, ?_, ?_, ?_⟩
  · rw [← shape]
    apply Cond.map_congr
    intro a _
    simp [Heap.leaf, touches.stmts, touches.s]
  · intro a known
    rw [touches.outside a (outside a known), kept a known]
  · intro a known side
    rw [touches.count a (outside a known), count a known]
  · exact touches.logged (fun a mem => (new a mem).2) logged

/-- Two formulas emitted one after the other and then combined. -/
theorem Emitted.combine {h1 h2 h3 : Heap} {c0 c1 : Formula} {ids0 ids1 : Cond BlockId}
    {b0 b1 : BlockId} (first : Emitted h h1 c0 ids0 b0) (second : Emitted h1 h2 c1 ids1 b1)
    (touches : Touches h2 h3 (ids0.leaves ++ ids1.leaves)) (built : ∃ pend, Built h3 ids b1 pend)
    (leaves : ids.leaves = ids0.leaves ++ ids1.leaves) (shape : ids.map h2.leaf = c) :
    Emitted h h3 c ids b1 := by
  have first2 := first.later second
  obtain ⟨_, built0⟩ := first2.built
  obtain ⟨_, built1⟩ := second.built
  have new : ∀ a ∈ ids0.leaves ++ ids1.leaves, h.size ≤ a ∧ a < h2.size := by
    intro a mem
    rcases List.mem_append.mp mem with inFirst | inSecond
    · exact ⟨first.new a inFirst, built0.bound a inFirst⟩
    · exact ⟨first.grows.trans (second.new a inSecond), built1.bound a inSecond⟩
  have handle : ids.leaves.getLast? = some b1 := by
    rw [leaves, List.getLast?_append, second.handle]
    rfl
  refine Emitted.of_touches touches new built handle shape ?_ ?_ first2.grows first2.kept
    first2.count second.logged
  · rw [leaves]
    exact List.Nodup.append first.nodup second.nodup
      (fun a inFirst inSecond => first.disjoint second a inFirst inSecond)
  · intro a mem
    rw [leaves] at mem
    exact (new a mem).1

/-- Emitting a formula succeeds. -/
theorem emit_emitted (c : Formula) : ∀ g : Gen, g.heap.Logged →
    ∃ b h' ids, Runs (emit c) g b (g.withHeap h') ∧ Emitted g.heap h' c ids b := by
  induction c with
  | leaf l =>
    intro g logged
    exact ⟨_, _, _, runs_newBlock_iff.mpr ⟨rfl, rfl⟩, emitted_newBlock logged l⟩
  | and left right ihLeft ihRight =>
    intro g logged
    obtain ⟨b0, h1, ids0, ran0, first⟩ := ihLeft g logged
    obtain ⟨b1, h2, ids1, ran1, second⟩ := ihRight (g.withHeap h1) first.logged
    have later := first.later second
    obtain ⟨_, built0⟩ := later.built
    obtain ⟨_, built1⟩ := second.built
    obtain ⟨h3, pend, joined, built, touches⟩ :=
      built0.genAnd built1 (first.disjoint second)
    refine ⟨b1, h3, .and ids0 ids1, ?_, first.combine second touches ⟨pend, built⟩ rfl ?_⟩
    · simp only [emit, runs_bind_iff, runs_pure_iff]
      exact ⟨b0, _, ran0, b1, _, ran1, (), _, runs_genAnd_iff.mpr ⟨h3, joined, rfl⟩, rfl, rfl⟩
    · simp only [Cond.map, later.shape, second.shape]
  | or left right ihLeft ihRight =>
    intro g logged
    obtain ⟨b0, h1, ids0, ran0, first⟩ := ihLeft g logged
    obtain ⟨b1, h2, ids1, ran1, second⟩ := ihRight (g.withHeap h1) first.logged
    have later := first.later second
    obtain ⟨_, built0⟩ := later.built
    obtain ⟨_, built1⟩ := second.built
    obtain ⟨h3, pend, joined, built, touches⟩ :=
      built0.genOr built1 (first.disjoint second)
    refine ⟨b1, h3, .or ids0 ids1, ?_, first.combine second touches ⟨pend, built⟩ rfl ?_⟩
    · simp only [emit, runs_bind_iff, runs_pure_iff]
      exact ⟨b0, _, ran0, b1, _, ran1, (), _, runs_genOr_iff.mpr ⟨h3, joined, rfl⟩, rfl, rfl⟩
    · simp only [Cond.map, later.shape, second.shape]
  | not inner ih =>
    intro g logged
    obtain ⟨b, h1, ids, ran, emitted⟩ := ih g logged
    obtain ⟨pend, built⟩ := emitted.built
    have inside : b < h1.size := built.bound b built.handle_mem
    have handle : g.heap.size ≤ b := emitted.new b built.handle_mem
    refine ⟨b, h1.genNot b, .not ids, ?_, ?_⟩
    · simp only [emit, runs_bind_iff, runs_pure_iff]
      exact ⟨b, _, ran, (), _, runs_genNot_iff.mpr rfl, rfl, rfl⟩
    · refine Emitted.of_touches (touches_flip h1 inside) ?_ ⟨_, built.not⟩ emitted.handle ?_
        emitted.nodup emitted.new emitted.grows emitted.kept emitted.count emitted.logged
      · intro a mem
        rw [List.mem_singleton.mp mem]
        exact ⟨handle, inside⟩
      · simp only [Cond.map, emitted.shape]

end Libpcap.Gencode
