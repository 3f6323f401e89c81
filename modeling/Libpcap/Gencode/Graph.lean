/-
# Flow graphs and what they compute

The blocks reachable from a root form a flow graph. Two readings of it are used:
`walk` follows the graph with an arbitrary evaluation of each block's test, and
`graphStep` executes the statements of the blocks on the filter machine, a
statement at a time, block-local jumps included.
-/

import Libpcap.Bpf.Filter
import Libpcap.Gencode.Block
import Libpcap.Semantics.Cond

namespace Libpcap.Gencode

open Libpcap.Bpf Libpcap.Semantics

universe u v

variable {h : Heap} {p : Packet}

/-- One block leads to another. -/
def Leads (h : Heap) (b c : BlockId) : Prop := ∃ side, h.exit b side = some c

/-- There is a way from the root to a block. -/
abbrev Reached (h : Heap) (root b : BlockId) : Prop := Relation.ReflTransGen (Leads h) root b

/-- Walk the blocks, evaluating each block's test; an exit that leads nowhere is
a null pointer. -/
def walk {σ : Type u} {ρ : Type v} (h : Heap) (null : ρ) (run : BlockId → Test σ ρ) :
    Step (BlockId × σ) ρ
  | (b, state) =>
    match run b state with
    | .error result => .stop result
    | .ok (side, next) =>
      match h.exit b side with
      | some target => .go (target, next)
      | none => .stop null

/-! ## Execution of the statements -/

/-- A place in a flow graph: a block, a position in its statement list (its length
is the branch statement), and the machine. -/
structure Place where
  block : BlockId
  pos : Int
  m : Machine

/-- The first statement from a position on that is not `NOP`. -/
def nextLive (stmts : List Stmt) (pos : Nat) : Nat :=
  pos + ((stmts.drop pos).takeWhile fun s => s.code == nop).length

/-- Execute the next statement; `NOP` takes no step. -/
def graphStep (h : Heap) (p : Packet) : Step Place Result
  | ⟨b, pos, m⟩ =>
    let stmts := (h.get b).stmts
    if pos < 0 ∨ stmts.length < pos then .stop (.undefined .pcRange)
    else
      let i := nextLive stmts pos.toNat
      match stmts[i]? with
      | some s =>
        match decode s.code with
        | none => .stop .abort
        | some op =>
          match op.effect s.k p m with
          | .next m => .go ⟨b, i + 1, m⟩
          | .branch taken =>
            match if taken then s.jt else s.jf with
            | some distance => .go ⟨b, i + 1 + distance, m⟩
            | none => .stop (.undefined .pcRange)
          | .jump => .go ⟨b, i + 1 + s.k.toInt, m⟩
          | .stop result => .stop result
      | none =>
        match decode (h.get b).s.code with
        | none => .stop .abort
        | some op =>
          match op.effect (h.get b).s.k p m with
          | .branch taken =>
            match h.exit b taken with
            | some c => .go ⟨c, 0, m⟩
            | none => .stop (.undefined .pcRange)
          | .stop result => .stop result
          | _ => .stop (.undefined .pcRange)

/-- One step of the graph at a statement. -/
theorem graphStep_stmt {b : BlockId} {pos : Int} {m : Machine} {i : Nat} {s : Stmt}
    (inside : 0 ≤ pos ∧ pos.toNat ≤ (h.get b).stmts.length)
    (next : nextLive (h.get b).stmts pos.toNat = i) (found : (h.get b).stmts[i]? = some s) :
    graphStep h p ⟨b, pos, m⟩ =
      match decode s.code with
      | none => .stop .abort
      | some op =>
        match op.effect s.k p m with
        | .next m => .go ⟨b, i + 1, m⟩
        | .branch taken =>
          match if taken then s.jt else s.jf with
          | some distance => .go ⟨b, i + 1 + distance, m⟩
          | none => .stop (.undefined .pcRange)
        | .jump => .go ⟨b, i + 1 + s.k.toInt, m⟩
        | .stop result => .stop result := by
  have range : ¬ (pos < 0 ∨ ((h.get b).stmts.length : Int) < pos) := by omega
  simp [graphStep, if_neg range, next, found]

/-- The end of a block. -/
theorem graphStep_end (b : BlockId) (m : Machine) :
    graphStep h p ⟨b, (h.get b).stmts.length, m⟩ =
      match decode (h.get b).s.code with
      | none => .stop .abort
      | some op =>
        match op.effect (h.get b).s.k p m with
        | .branch taken =>
          match h.exit b taken with
          | some c => .go ⟨c, 0, m⟩
          | none => .stop (.undefined .pcRange)
        | .stop result => .stop result
        | _ => .stop (.undefined .pcRange) := by
  have range : ¬ (((h.get b).stmts.length : Int) < 0 ∨
      ((h.get b).stmts.length : Int) < (h.get b).stmts.length) := by omega
  have atEnd : (h.get b).stmts[nextLive (h.get b).stmts
      ((h.get b).stmts.length : Int).toNat]? = none := by
    simp [nextLive]
  unfold graphStep
  dsimp only
  rw [if_neg range]
  split
  · rename_i found
    cases atEnd.symm.trans found
  · rfl

/-- A step stays in its block or takes one of its exits. -/
theorem graphStep_block {s s' : Place} (moves : graphStep h p s = .go s') :
    s'.block = s.block ∨ Leads h s.block s'.block := by
  -- `rintro` closes the branches that stop
  revert moves
  fun_cases graphStep h p s <;> rintro ⟨⟩
  · exact .inl rfl
  · exact .inl rfl
  · exact .inl rfl
  · exact .inr ⟨_, by assumption⟩

/-- A return block ends the run. -/
theorem graphStep_return {b : BlockId} {m : Machine} {k : Word} (stmts : (h.get b).stmts = [])
    (s : (h.get b).s = { code := bpfRet ||| bpfK, k }) :
    graphStep h p ⟨b, 0, m⟩ = .stop (.ret k) := by
  have decoded : decode (bpfRet ||| bpfK) = some .retK := by decide
  simp [graphStep, stmts, s, decoded, Op.effect]

end Libpcap.Gencode
