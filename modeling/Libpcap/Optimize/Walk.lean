/-
# The graph block by block

The blocks that the optimizer rewrites have no jumps in their statement lists. Executing such a
block is one test on the machine, which fails, returns or takes an exit, and executing the graph
is a walk over its blocks. What the passes do to a graph is compared by these walks.
-/

import Libpcap.Optimize.Traversal
import Libpcap.Optimize.Values

namespace Libpcap.Optimize

open Libpcap.Bpf Libpcap.Gencode Libpcap.Semantics

variable {b : BlockId} {result : Result}

/-! ## Plain blocks -/

/-- The operations that go on to the next statement, unless they fail. -/
def isPlain : Op → Bool
  | .retK => false
  | .retA => false
  | .ja => false
  | .jmp _ _ => false
  | _ => true

/-- A statement without a jump or a return. -/
def plain (s : Stmt) : Bool := s.code == nop || (decode s.code).any isPlain

theorem plain_iff {s : Stmt} :
    plain s ↔ s.code = nop ∨ ∃ op, decode s.code = some op ∧ isPlain op = true := by
  simp [plain, Option.any_eq_true]

/-- A plain operation does not jump. -/
theorem effect_of_isPlain {op : Op} (plain : isPlain op = true) (k : Word) (p : Packet)
    (m : Machine) :
    (∀ taken, op.effect k p m ≠ .branch taken) ∧ op.effect k p m ≠ .jump := by
  constructor
  · intro taken branches
    obtain ⟨cond, src, rfl, -⟩ := Op.effect_branch branches
    cases plain
  · intro jumps
    cases Op.effect_jump jumps
    cases plain

/-- A flow graph whose statement lists have no jumps. -/
structure PlainGraph (h : Heap) (root : BlockId) : Prop extends FlowGraph h root where
  stmts : ∀ b, Reached h root b → (h.get b).stmts.all plain

theorem localOk_of_plain {stmts : List Stmt} (allPlain : stmts.all plain) : LocalOk stmts := by
  intro i s found isJump
  exfalso
  have here := List.all_eq_true.mp allPlain s (List.mem_of_getElem? found)
  rcases plain_iff.mp here with dead | ⟨op, decoded, goesOn⟩
  · rw [dead] at isJump
    exact absurd isJump (by decide)
  · have all : ∀ op, isPlain op = true → bpfClass op.encode ≠ bpfJmp := by decide
    rw [← decode_eq_some_iff.mp decoded] at isJump
    exact all op goesOn isJump

/-! ## Walks -/

/-- Execute the statements of a block and look at its end: the exit that is taken, or the result
that ends the run. -/
def blockTest (p : Packet) (b : Block) : Test Machine Result := fun m =>
  match execLive p b.stmts m with
  | .error result => .error result
  | .ok m =>
    match decode b.s.code with
    | none => .error .abort
    | some op =>
      match op.effect b.s.k p m with
      | .branch taken => .ok (taken, m)
      | .stop result => .error result
      | _ => .error (.undefined .pcRange)

/-- Execute the graph block by block. -/
def blockStep (h : Heap) (p : Packet) : Step (BlockId × Machine) Result :=
  walk h (.undefined .pcRange) fun b => blockTest p (h.get b)

section Walk

variable {h : Heap} {root : BlockId} {p : Packet}

/-- What follows after a block. -/
def afterBlock (h : Heap) (continues : BlockId × Machine → Prop) (result : Result) (b : BlockId) :
    Except Result (Bool × Machine) → Prop
  | .error ended => ended = result
  | .ok (side, m) =>
    match h.exit b side with
    | some c => continues (c, m)
    | none => .undefined .pcRange = result

theorem blockStep_stops_iff {m : Machine} :
    (blockStep h p).Stops (b, m) result ↔
      afterBlock h ((blockStep h p).Stops · result) result b (blockTest p (h.get b) m) := by
  cases outcome : blockTest p (h.get b) m with
  | error ended =>
    have stopped : blockStep h p (b, m) = .stop ended := by simp only [blockStep, walk, outcome]
    rw [Step.stops_iff_of_stop stopped]
    rfl
  | ok pair =>
    obtain ⟨side, m'⟩ := pair
    cases exit : h.exit b side with
    | none =>
      have stopped : blockStep h p (b, m) = .stop (.undefined .pcRange) := by
        simp only [blockStep, walk, outcome, exit]
      rw [Step.stops_iff_of_stop stopped]
      simp only [afterBlock, exit]
    | some c =>
      have moved : blockStep h p (b, m) = .go (c, m') := by
        simp only [blockStep, walk, outcome, exit]
      rw [Step.stops_iff_of_move moved]
      simp only [afterBlock, exit]

/-- A `NOP` is passed over. -/
theorem graphStep_nop {i : Nat} {s : Stmt} (found : (h.get b).stmts[i]? = some s)
    (dead : s.code = nop) (m : Machine) :
    graphStep h p ⟨b, i, m⟩ = graphStep h p ⟨b, (i + 1 : Nat), m⟩ := by
  have within := (List.getElem?_eq_some_iff.mp found).1
  have next : nextLive (h.get b).stmts i = nextLive (h.get b).stmts (i + 1) := by
    have split := List.drop_eq_getElem_cons within
    rw [(List.getElem?_eq_some_iff.mp found).2] at split
    rw [nextLive, nextLive, split, List.takeWhile_cons, if_pos (by simp [dead]), List.length_cons]
    omega
  have range : ¬ ((i : Int) < 0 ∨ ((h.get b).stmts.length : Int) < i) := by omega
  have range' : ¬ (((i + 1 : Nat) : Int) < 0 ∨
      ((h.get b).stmts.length : Int) < (i + 1 : Nat)) := by omega
  simp only [graphStep, if_neg range, if_neg range', Int.toNat_natCast, next]

/-- The statements of a block from a position on. -/
theorem graphStep_stops_iff_rest (rest : List Stmt) :
    ∀ (front : List Stmt) (m : Machine), (h.get b).stmts = front ++ rest → rest.all plain →
      ((graphStep h p).Stops ⟨b, front.length, m⟩ result ↔
        match execLive p rest m with
        | .error ended => ended = result
        | .ok m' => (graphStep h p).Stops ⟨b, (h.get b).stmts.length, m'⟩ result) := by
  induction rest with
  | nil =>
    intro front m split _
    rw [split, List.append_nil]
    rfl
  | cons s rest ih =>
    intro front m split allPlain
    rw [List.all_cons, Bool.and_eq_true] at allPlain
    have later (m' : Machine) := ih (front ++ [s]) m' (by rw [split]; simp) allPlain.2
    have length : (front ++ [s]).length = front.length + 1 := by simp
    rw [length] at later
    have found : (h.get b).stmts[front.length]? = some s := by
      rw [split, List.getElem?_append_right (Nat.le_refl _), Nat.sub_self]
      rfl
    rw [execLive_cons]
    rcases plain_iff.mp allPlain.1 with dead | ⟨op, decoded, goesOn⟩
    · have skips : execLive p [s] m = .ok m := by simp [execLive, dead, execStmts]
      rw [Step.stops_iff_of_eq (graphStep_nop found dead m), skips]
      exact later m
    · have alive : s.code ≠ nop := by
        intro dead
        rw [dead] at decoded
        cases decoded
      obtain ⟨noBranch, noJump⟩ := effect_of_isPlain goesOn s.k p m
      have step := graphStep_live (p := p) found alive m
      rw [execLive_op decoded]
      rw [decoded] at step
      cases effect : op.effect s.k p m with
      | next m' =>
        simp only [effect] at step
        rw [Step.stops_iff_of_move step]
        exact later m'
      | stop ended =>
        simp only [effect] at step
        rw [Step.stops_iff_of_stop step]
      | branch taken => exact absurd effect (noBranch taken)
      | jump => exact absurd effect noJump

/-- Executing a block makes its test. -/
theorem graphStep_stops_iff_block (allPlain : (h.get b).stmts.all plain) (m : Machine) :
    (graphStep h p).Stops ⟨b, 0, m⟩ result ↔
      afterBlock h (fun s => (graphStep h p).Stops ⟨s.1, 0, s.2⟩ result) result b
        (blockTest p (h.get b) m) := by
  refine (graphStep_stops_iff_rest (h.get b).stmts [] m rfl allPlain).trans ?_
  rw [blockTest]
  cases execLive p (h.get b).stmts m with
  | error ended => rfl
  | ok m' =>
    have step := graphStep_end (h := h) (p := p) b m'
    dsimp only
    cases decoded : decode (h.get b).s.code with
    | none =>
      rw [decoded] at step
      exact Step.stops_iff_of_stop step
    | some op =>
      rw [decoded] at step
      dsimp only at step ⊢
      cases effect : op.effect (h.get b).s.k p m' with
      | next _ | jump | stop ended =>
        rw [effect] at step
        exact Step.stops_iff_of_stop step
      | branch taken =>
        rw [effect] at step
        dsimp only [afterBlock] at step ⊢
        cases exit : h.exit b taken with
        | none =>
          rw [exit] at step
          exact Step.stops_iff_of_stop step
        | some c =>
          rw [exit] at step
          exact Step.stops_iff_of_move step

/-- Executing a graph is walking over its blocks. -/
theorem PlainGraph.stops_iff (graph : PlainGraph h root)
    (path : Reached h root b) (m : Machine) :
    (graphStep h p).Stops ⟨b, 0, m⟩ result ↔ (blockStep h p).Stops (b, m) result := by
  obtain ⟨rank, falls, -⟩ := graph.acyclic.exists_rank (Finset.range h.size)
    fun b path => Finset.mem_range.mpr (graph.inside b path)
  -- by induction on the rank of the block
  induction bound : rank b using Nat.strong_induction_on generalizing b m with
  | _ n ih =>
    subst bound
    rw [graphStep_stops_iff_block (graph.stmts b path), blockStep_stops_iff]
    cases blockTest p (h.get b) m with
    | error ended => rfl
    | ok pair =>
      obtain ⟨side, m'⟩ := pair
      rw [afterBlock, afterBlock]
      cases exit : h.exit b side with
      | none => rfl
      | some c =>
        have leads : Leads h b c := ⟨side, exit⟩
        exact ih (rank c) (falls b c path leads) (path.tail leads) m' rfl

end Walk

/-! ## Graphs that differ in their exits -/

section Rewired

variable {h h' : Heap} {root : BlockId} (same : Rewired h h')

include same

theorem Rewired.blockTest (p : Packet) (b : BlockId) :
    blockTest p (h'.get b) = blockTest p (h.get b) := by
  funext m
  simp [Optimize.blockTest, same.stmts b, same.s b]

/-- A graph whose exits lead elsewhere is one again if it is acyclic and its blocks were reached
before. -/
theorem JumpGraph.rewire (graph : JumpGraph h root) (acyclic : AcyclicFrom (Leads h') root)
    (reached : ∀ b, Reached h' root b → Reached h root b)
    (exits : ∀ b, Reached h root b → ∀ side,
      (h'.exit b side).isSome = (h.exit b side).isSome) : JumpGraph h' root where
  acyclic := acyclic
  inside b path := same.size.symm ▸ graph.inside b (reached b path)
  ends b path := by
    have present := exits b (reached b path)
    rw [EndOk, same.s]
    rcases graph.ends b (reached b path) with ⟨t, f, cond, src, onT, onF, decoded⟩ | ⟨noT, noF, ret⟩
    · have onT' := (present true).trans (congrArg Option.isSome onT)
      have onF' := (present false).trans (congrArg Option.isSome onF)
      obtain ⟨t', newT⟩ := Option.isSome_iff_exists.mp onT'
      obtain ⟨f', newF⟩ := Option.isSome_iff_exists.mp onF'
      exact .inl ⟨t', f', cond, src, newT, newF, decoded⟩
    · have noT' : (h'.get b).jt.isSome = false := (present true).trans (congrArg Option.isSome noT)
      have noF' : (h'.get b).jf.isSome = false :=
        (present false).trans (congrArg Option.isSome noF)
      exact .inr ⟨Option.isSome_eq_false_iff.mp noT' |> Option.isNone_iff_eq_none.mp,
        Option.isSome_eq_false_iff.mp noF' |> Option.isNone_iff_eq_none.mp, ret⟩

theorem PlainGraph.rewire (graph : PlainGraph h root) (jumps : JumpGraph h' root)
    (reached : ∀ b, Reached h' root b → Reached h root b) :
    PlainGraph h' root := by
  have stmts (b : BlockId) (path : Reached h' root b) : (h'.get b).stmts.all plain := by
    rw [same.stmts]
    exact graph.stmts b (reached b path)
  exact
    { acyclic := jumps.acyclic
      inside := jumps.inside
      ends := jumps.ends
      localOk := fun b path => localOk_of_plain (stmts b path)
      stmts }

end Rewired

end Libpcap.Optimize
