/-
# What the optimizer does to a filter

Two properties of `bpf_optimize` are looked at here: that the graph it leaves gives every
packet the verdict of the graph it was given, and that its loops end. Neither holds for all
graphs that the code generator builds: a mask of all ones makes `opt_peep` decide a test that
is not decided, and in a conjunction of two disjunctions over two bytes `opt_j` and `or_pullup`
undo each other's changes for ever.
-/

import Libpcap.Gencode.Primitive
import Libpcap.Optimize.Optimizer

namespace Libpcap.Optimize

open Libpcap.Bpf Libpcap.Gencode Libpcap.Semantics

/-! ## Verdicts -/

/-- What a graph returns for a packet, if it does so within 20 steps. -/
def returned (p : Packet) (graph : Heap × BlockId) : Option Word :=
  match (graphStep graph.1 p).runFor 20 ⟨graph.2, 0, ⟨0, 0, fun _ => 0⟩⟩ with
  | .stop (.ret v) => some v
  | _ => none

/-- `ether[0:4] & 0xffffffff = 0` -/
def allBitsMask : Filter :=
  .leaf (.relation .eq (.arith .and (.load .link (.num 0) 4) (.num 0xffffffff)) (.num 0))

/-- A frame to the address of all zeros. -/
def zeroFrame : Packet where
  data := List.replicate 20 0
  wirelen := 60
  around := fun _ => 0
  length_lt := by decide

/-- `opt_peep` turns the comparison into a test of bits, and takes a test of all bits for one
that always holds: the frame is accepted before and rejected after. -/
theorem all_bits_mask_rejected : ∃ (g : Gen) (root : BlockId),
    Runs (compileFilter allBitsMask) (.start .ethernet 65535) () g ∧ g.root = some root ∧
      returned zeroFrame (g.heap, root) = some 65535 ∧
      (bpfOptimize 8 8 g.heap root).toOption.bind (returned zeroFrame) = some 0 := by
  obtain ⟨_, g, ran, checked⟩ := exists_runs (fun _ g => g.root.any fun root =>
      returned zeroFrame (g.heap, root) = some 65535 ∧
      (bpfOptimize 8 8 g.heap root).toOption.bind (returned zeroFrame) = some 0)
    (show passes (compileFilter allBitsMask) (.start .ethernet 65535) _ = true by decide +kernel)
  obtain ⟨root, hasRoot, verdicts⟩ := (Option.any_eq_true ..).mp checked
  exact ⟨g, root, ran, hasRoot, of_decide_eq_true verdicts⟩

/-! ## Ends -/

theorem ok_of_toOption {ε α : Type} {result : Except ε α} {a : α}
    (found : result.toOption = some a) : result = .ok a := by
  cases result with
  | ok value => exact congrArg Except.ok (Option.some.inj found)
  | error fault => cases found

/-- Two passes that undo each other's changes go on for ever. -/
theorem optLoop_of_cycle {doStmts : Bool} {blocks : List BlockId} {root : BlockId} {h h' : Heap}
    (there : optPass doStmts blocks root h = .ok (h', false))
    (back : optPass doStmts blocks root h' = .ok (h, false)) (passes : Nat) :
    optLoop doStmts blocks root passes h = .error .loops ∧
      optLoop doStmts blocks root passes h' = .error .loops := by
  induction passes with
  | zero => exact ⟨rfl, rfl⟩
  | succ passes ih =>
    constructor
    · rw [optLoop, there]
      exact ih.2
    · rw [optLoop, back]
      exact ih.1

/-- A byte of the frame is compared with a constant. -/
def byteIs (index value : Word) : Filter := .leaf (.test (.byteop .eq index value))

/-- `(byte 0 = 0 or byte 1 = 1) and (byte 0 = 2 or byte 1 = 2)` -/
def twoBytes : Filter := .and (.or (byteIs 0 0) (byteIs 1 1)) (.or (byteIs 0 2) (byteIs 1 2))

/-- The first pass moves an edge, the second moves it back, and both ask for another pass. -/
theorem two_passes_undo_each_other : ∃ (g : Gen) (root : BlockId) (blocks : List BlockId),
    Runs (compileFilter twoBytes) (.start .ethernet 65535) () g ∧ g.root = some root ∧
      numberBlksR (g.heap.size + 1) g.heap (some root) [] = .ok blocks ∧
      ¬ ∃ passes h', optLoop false blocks root passes g.heap = .ok h' := by
  obtain ⟨_, g, ran, checked⟩ := exists_runs (fun _ g => g.root.any fun root =>
      (numberBlksR (g.heap.size + 1) g.heap (some root) []).toOption.any fun blocks =>
      (optPass false blocks root g.heap).toOption.any fun first =>
      first.2 = false ∧ optPass false blocks root first.1 = .ok (g.heap, false))
    (show passes (compileFilter twoBytes) (.start .ethernet 65535) _ = true by decide +kernel)
  obtain ⟨root, hasRoot, checked⟩ := (Option.any_eq_true ..).mp checked
  obtain ⟨blocks, numbered, checked⟩ := (Option.any_eq_true ..).mp checked
  obtain ⟨⟨h', done⟩, there, checked⟩ := (Option.any_eq_true ..).mp checked
  obtain ⟨rfl, back⟩ := of_decide_eq_true checked
  have cycle := optLoop_of_cycle (ok_of_toOption there) back
  refine ⟨g, root, blocks, ran, hasRoot, ok_of_toOption numbered, ?_⟩
  rintro ⟨passes, result, ended⟩
  cases (cycle passes).1.symm.trans ended

end Libpcap.Optimize
