/-
# One pass of the layout

`convert_code_r` visits the blocks depth first, the false branch before the true
branch, and places a block when it leaves it. On an acyclic graph the blocks are
therefore placed in an order that depends on the exits only (`order`), and a pass
either lays all of them out or stops at a branch that is too far and not marked,
which it marks.
-/

import Libpcap.Gencode.Graph
import Libpcap.Optimize.Layout
import Libpcap.Semantics.Acyclic

namespace Libpcap.Optimize

open Libpcap.Bpf Libpcap.Gencode Libpcap.Semantics List Function

variable {root : BlockId} {h : Heap} {placed : List BlockId} {at_ n : Nat}

/-! ## The order of placement -/

/-- The blocks placed after visiting a block, given those placed before. -/
def order : Nat → Heap → Option BlockId → List BlockId → List BlockId
  | _, _, none, placed => placed
  | 0, _, some _, placed => placed
  | fuel + 1, h, some p, placed =>
    if p ∈ placed then placed
    else p :: order fuel h (h.get p).jt (order fuel h (h.get p).jf placed)

theorem order_of_mem {fuel : Nat} {p : BlockId} (mem : p ∈ placed) :
    order fuel h (some p) placed = placed := by
  cases fuel with
  | zero => rfl
  | succ fuel => rw [order, if_pos mem]

theorem order_suffix (fuel : Nat) (h : Heap) (p : Option BlockId) (placed : List BlockId) :
    placed <:+ order fuel h p placed := by
  induction fuel generalizing p placed with
  | zero => cases p <;> exact suffix_rfl
  | succ fuel ih =>
    cases p with
    | none => exact suffix_rfl
    | some p =>
      rw [order]
      split
      · exact suffix_rfl
      · exact (ih _ _).trans ((ih _ _).trans (suffix_cons p _))

/-- Only reachable blocks are placed. -/
theorem mem_order {fuel : Nat} {p : Option BlockId} {b : BlockId}
    (mem : b ∈ order fuel h p placed) :
    b ∈ placed ∨ ∃ q, p = some q ∧ Reached h q b := by
  induction fuel generalizing p placed with
  | zero => cases p <;> exact .inl mem
  | succ fuel ih =>
    cases p with
    | none => exact .inl mem
    | some p =>
      rw [order] at mem
      split at mem
      · exact .inl mem
      · rcases mem_cons.mp mem with rfl | later
        · exact .inr ⟨b, rfl, .refl⟩
        · rcases ih later with earlier | ⟨q, exit, path⟩
          · rcases ih earlier with before | ⟨q, exit, path⟩
            · exact .inl before
            · exact .inr ⟨p, rfl, .head ⟨false, exit⟩ path⟩
          · exact .inr ⟨p, rfl, .head ⟨true, exit⟩ path⟩

/-! ## Flow graphs -/

/-- The end of a block: a conditional jump with both exits, or a return without
exits. -/
def EndOk (h : Heap) (b : BlockId) : Prop :=
  (∃ t f cond src, (h.get b).jt = some t ∧ (h.get b).jf = some f ∧
    decode (h.get b).s.code = some (.jmp cond src)) ∨
  ((h.get b).jt = none ∧ (h.get b).jf = none ∧ bpfClass (h.get b).s.code = bpfRet)

/-- The graphs that are flattened: acyclic, made of allocated blocks that end in
a conditional jump or a return, with convertible block-local jumps. -/
structure FlowGraph (h : Heap) (root : BlockId) : Prop where
  acyclic : AcyclicFrom (Leads h) root
  inside : ∀ b, Reached h root b → b < h.size
  ends : ∀ b, Reached h root b → EndOk h b
  localOk : ∀ b, Reached h root b → LocalOk (h.get b).stmts

/-- The extra jumps of one side of a block. -/
def Block.long (b : Block) (side : Bool) : Nat := if side then b.longjt else b.longjf

/-- The extra jumps of a block placed in front of others are at most one for each
branch, and only for branches that are too far without them. -/
structure FlagsOk (h : Heap) (b : BlockId) (behind : List BlockId) : Prop where
  small : ∀ side, Block.long (h.get b) side ≤ 1
  ret : (h.get b).jt = none → ∀ side, Block.long (h.get b) side = 0
  far : ∀ side target, h.exit b side = some target → Block.long (h.get b) side ≠ 0 →
    256 ≤ gap h b behind target

/-- All extra jumps of a layout are needed. -/
def Justified (h : Heap) (placed : List BlockId) : Prop :=
  ∀ b behind, (b :: behind) <:+ placed → FlagsOk h b behind

theorem Justified.of_suffix {larger : List BlockId} (justified : Justified h larger)
    (suffix : placed <:+ larger) : Justified h placed :=
  fun b behind part => justified b behind (part.trans suffix)

/-! ## The branch of a placed block -/

theorem displacement_add {d : Nat} (small : at_ + 1 + d < 2 ^ 31) :
    (displacement (at_ + 1 + d) at_).toNat = d := by
  have one : (1 : Word).toNat = 1 := rfl
  simp only [displacement, BitVec.toNat_sub, BitVec.toNat_ofNat, one]
  omega

/-- A branch that needs the extra jumps it has is converted. -/
theorem convertBranch_code {s : Stmt} {longjt longjf dT dF : Nat} (smallT : at_ + 1 + dT < 2 ^ 31)
    (smallF : at_ + 1 + dF < 2 ^ 31) (flagT : longjt ≤ 1) (flagF : longjf ≤ 1)
    (farT : longjt ≠ 0 → 256 ≤ dT) (farF : longjf ≠ 0 → 256 ≤ dF) (nearT : longjt = 0 → dT < 256)
    (nearF : longjf = 0 → dF < 256) :
    ∃ branch, convertBranch s longjt longjf at_ (at_ + 1 + dT) (at_ + 1 + dF) = .code branch ∧
      branch.length = 1 + longjt + longjf := by
  simp only [convertBranch, displacement_add smallT, displacement_add smallF]
  rw [if_neg (by omega)]
  by_cases longT : longjt = 0
  · have dT_lt := nearT longT
    rw [if_neg (by omega), if_neg (by omega)]
    by_cases longF : longjf = 0
    · have dF_lt := nearF longF
      rw [if_neg (by omega)]
      exact ⟨_, rfl, by simp [longT, longF]⟩
    · rw [if_pos (farF longF)]
      exact ⟨_, rfl, by simp; omega⟩
  · rw [if_pos (farT longT), if_neg (by omega)]
    by_cases longF : longjf = 0
    · have dF_lt := nearF longF
      rw [if_neg (by omega)]
      exact ⟨_, rfl, by simp; omega⟩
    · rw [if_pos (farF longF)]
      exact ⟨_, rfl, by simp; omega⟩

/-- A branch that is too far and not marked makes the pass stop; the true branch
is looked at first. -/
theorem convertBranch_retry {s : Stmt} {longjt longjf dT dF : Nat} (smallT : at_ + 1 + dT < 2 ^ 31)
    (smallF : at_ + 1 + dF < 2 ^ 31) (far : longjt = 0 ∧ 256 ≤ dT ∨ longjf = 0 ∧ 256 ≤ dF) :
    (convertBranch s longjt longjf at_ (at_ + 1 + dT) (at_ + 1 + dF) = .retry true ∧
      longjt = 0 ∧ 256 ≤ dT) ∨
    (convertBranch s longjt longjf at_ (at_ + 1 + dT) (at_ + 1 + dF) = .retry false ∧
      longjf = 0 ∧ 256 ≤ dF) := by
  simp only [convertBranch, displacement_add smallT, displacement_add smallF]
  by_cases first : 256 ≤ dT ∧ longjt = 0
  · rw [if_pos first]
    exact .inl ⟨rfl, first.2, first.1⟩
  · rw [if_neg first]
    have second : 256 ≤ dF ∧ longjf = 0 := by omega
    rw [if_pos second]
    exact .inr ⟨rfl, second.2, second.1⟩

/-! ## Placing one block -/

/-- The state of a pass that has placed the given blocks, in an array of `n`
slots. -/
structure PassInv (h : Heap) (root : BlockId) (n : Nat) (st : Conv) (placed : List BlockId) :
    Prop where
  heap : st.heap = h
  markedNodup : st.marked.Nodup
  markedInside : ∀ b ∈ st.marked, b < h.size
  placedMarked : ∀ b ∈ placed, b ∈ st.marked
  reach : ∀ b ∈ placed, Reached h root b
  layout : ∃ code, Placed h placed code ∧
    st.slots = List.replicate st.ftail none ++ code.map some
  offsets : ∀ b ∈ placed, st.offset b = st.ftail + span h placed b
  room : st.ftail + totalRoom h placed = n

/-- The array has room for all blocks of the graph. -/
def RoomFor (h : Heap) (root : BlockId) (n : Nat) : Prop :=
  ∀ blocks : List BlockId, blocks.Nodup →
    (∀ b ∈ blocks, Reached h root b) → totalRoom h blocks ≤ n

/-- The exit of a block placed in front of others is too far and not marked. -/
def Far (h : Heap) (b : BlockId) (behind : List BlockId) (side : Bool) : Prop :=
  ∃ target, h.exit b side = some target ∧
    Block.long (h.get b) side = 0 ∧ 256 ≤ gap h b behind target

theorem writeAt_front {room ftail : Nat} {code insns : List Insn} (fits : room ≤ ftail)
    (length : insns.length = room) :
    writeAt (replicate ftail none ++ code.map some) (ftail - room) insns =
      replicate (ftail - room) none ++ (insns ++ code).map some := by
  have before : (replicate ftail (none : Option Insn) ++ code.map some).take (ftail - room) =
      replicate (ftail - room) none := by
    rw [take_append_of_le_length (by simp), take_replicate, Nat.min_eq_left (Nat.sub_le _ _)]
  have after : (replicate ftail (none : Option Insn) ++ code.map some).drop
      (ftail - room + insns.length) = code.map some := by
    rw [length, Nat.sub_add_cancel fits, drop_append_of_le_length (by simp),
      drop_replicate, Nat.sub_self, replicate_zero, nil_append]
  rw [writeAt, before, after, map_append, append_assoc]

section Block

variable {h : Heap} {root p : BlockId} {n : Nat} {st : Conv} {placed : List BlockId}

theorem totalRoom_cons (h : Heap) (b : BlockId) (placed : List BlockId) :
    totalRoom h (b :: placed) = Block.room (h.get b) + totalRoom h placed := by
  simp [totalRoom]

/-- The invariant once a block has been placed. -/
theorem PassInv.place (inv : PassInv h root n st placed) (fresh : p ∉ placed)
    (marked : p ∈ st.marked) (reached : Reached h root p)
    (fits : Block.room (h.get p) ≤ st.ftail) {insns branch : List Insn}
    (stmts : convertStmts (slength (h.get p).stmts) 0 0 (h.get p).stmts = .ok insns)
    (exits : PlacedBranch h p placed branch) :
    PassInv h root n
      { st with
        offset := update st.offset p (st.ftail - Block.room (h.get p))
        ftail := st.ftail - Block.room (h.get p)
        slots := writeAt st.slots (st.ftail - Block.room (h.get p)) (insns ++ branch) }
      (p :: placed) := by
  obtain ⟨code, layout, slots⟩ := inv.layout
  have length : (insns ++ branch).length = Block.room (h.get p) := by
    rw [length_append, convertStmts_length stmts, exits.length, Block.room]
    omega
  constructor
  · exact inv.heap
  · exact inv.markedNodup
  · exact inv.markedInside
  · intro b mem
    rcases mem_cons.mp mem with rfl | earlier
    · exact marked
    · exact inv.placedMarked b earlier
  · intro b mem
    rcases mem_cons.mp mem with rfl | earlier
    · exact reached
    · exact inv.reach b earlier
  · refine ⟨insns ++ branch ++ code, .cons fresh stmts exits layout, ?_⟩
    show writeAt st.slots _ _ = _
    rw [slots]
    exact writeAt_front fits length
  · intro b mem
    show update st.offset p _ b = _
    by_cases same : b = p
    · subst same
      rw [update_self, span_cons_self, Nat.add_zero]
    · have earlier : b ∈ placed := by
        rcases mem_cons.mp mem with here | earlier
        · exact absurd here same
        · exact earlier
      rw [update_of_ne same, inv.offsets b earlier, span_cons_of_ne h placed (Ne.symm same)]
      show _ = st.ftail - Block.room (h.get p) + _
      omega
  · show st.ftail - Block.room (h.get p) + totalRoom h (p :: placed) = n
    rw [totalRoom_cons, ← inv.room]
    omega

/-- The distance that the conversion computes for an exit. -/
theorem PassInv.target (inv : PassInv h root n st placed) (fresh : p ∉ placed)
    (fits : Block.room (h.get p) ≤ st.ftail) {q : BlockId} (mem : q ∈ placed) :
    update st.offset p (st.ftail - Block.room (h.get p)) q =
      st.ftail - Block.room (h.get p) + slength (h.get p).stmts + 1 + gap h p placed q := by
  have different : q ≠ p := by
    rintro rfl
    exact fresh mem
  rw [update_of_ne different, inv.offsets q mem, gap]
  simp only [Block.room] at fits ⊢
  omega

theorem PassInv.target_small (inv : PassInv h root n st placed) (small : n < 2 ^ 31)
    (fits : Block.room (h.get p) ≤ st.ftail) {q : BlockId} (mem : q ∈ placed) :
    st.ftail - Block.room (h.get p) + slength (h.get p).stmts + 1 + gap h p placed q < 2 ^ 31 := by
  have bound := span_add_room_le h mem
  have room := inv.room
  simp only [Block.room, gap] at fits bound ⊢
  omega

/-- Leaving a block whose exits have been placed: it is placed in front of them,
or one of its branches is too far and gets marked. -/
theorem convertBlock_pass (graph : FlowGraph h root) (roomFor : RoomFor h root n)
    (small : n < 2 ^ 31) (inv : PassInv h root n st placed) (fresh : p ∉ placed)
    (marked : p ∈ st.marked) (reached : Reached h root p)
    (successors : ∀ side q, h.exit p side = some q → q ∈ placed) (flags : FlagsOk h p placed) :
    (∃ st', convertBlock p st = .ok (true, st') ∧ PassInv h root n st' (p :: placed) ∧
      st'.marked = st.marked) ∨
    ∃ st' side, convertBlock p st = .ok (false, st') ∧ st'.heap = markLong h p side ∧
      Far h p placed side := by
  obtain ⟨code, layout, _⟩ := inv.layout
  have fits : Block.room (h.get p) ≤ st.ftail := by
    have all := roomFor (p :: placed) (nodup_cons.mpr ⟨fresh, layout.nodup⟩) (by
      intro b mem
      rcases mem_cons.mp mem with rfl | earlier
      · exact reached
      · exact inv.reach b earlier)
    rw [totalRoom_cons, ← inv.room] at all
    omega
  obtain ⟨insns, stmts⟩ : ∃ insns,
      convertStmts (slength (h.get p).stmts) 0 0 (h.get p).stmts = .ok insns := by
    apply convertStmts_ok
    intro i s found _
    obtain ⟨ins, converted, _⟩ := convertStmt_of_localOk (graph.localOk p reached) found
    exact ⟨ins, by simpa using converted⟩
  have notOverrun : ¬ st.ftail < Block.room (h.get p) := Nat.not_lt.mpr fits
  rcases graph.ends p reached with ⟨t, f, _, _, jt, jf, _⟩ | ⟨jt, jf, _⟩
  · have memberT : t ∈ placed := successors true t jt
    have memberF : f ∈ placed := successors false f jf
    have smallT := inv.target_small (p := p) small fits memberT
    have smallF := inv.target_small (p := p) small fits memberF
    by_cases far : (h.get p).longjt = 0 ∧ 256 ≤ gap h p placed t ∨
        (h.get p).longjf = 0 ∧ 256 ≤ gap h p placed f
    · right
      rcases convertBranch_retry (s := (h.get p).s) smallT smallF far with
        ⟨retry, unmarked, distance⟩ | ⟨retry, unmarked, distance⟩
      · refine ⟨{ st with
          heap := markLong h p true
          offset := update st.offset p (st.ftail - Block.room (h.get p))
          ftail := st.ftail - Block.room (h.get p) }, true, ?_, rfl, t, jt, unmarked, distance⟩
        simp only [convertBlock, inv.heap, notOverrun, if_false, stmts, jt, jf,
          inv.target fresh fits memberT, inv.target fresh fits memberF, retry]
        rfl
      · refine ⟨{ st with
          heap := markLong h p false
          offset := update st.offset p (st.ftail - Block.room (h.get p))
          ftail := st.ftail - Block.room (h.get p) }, false, ?_, rfl, f, jf, unmarked, distance⟩
        simp only [convertBlock, inv.heap, notOverrun, if_false, stmts, jt, jf,
          inv.target fresh fits memberT, inv.target fresh fits memberF, retry]
        rfl
    · left
      rw [not_or, not_and, not_and] at far
      have flagT : (h.get p).longjt ≤ 1 := flags.small true
      have flagF : (h.get p).longjf ≤ 1 := flags.small false
      obtain ⟨branch, converted, full⟩ := convertBranch_code (s := (h.get p).s) smallT smallF
        flagT flagF (flags.far true t jt) (flags.far false f jf)
        (fun unmarked => Nat.not_le.mp (far.1 unmarked))
        (fun unmarked => Nat.not_le.mp (far.2 unmarked))
      have exits : PlacedBranch h p placed branch :=
        .jump jt jf memberT memberF converted full
      refine ⟨_, ?_, inv.place fresh marked reached fits stmts exits, rfl⟩
      simp only [convertBlock, inv.heap, notOverrun, if_false, stmts, jt, jf,
        inv.target fresh fits memberT, inv.target fresh fits memberF, converted]
      rfl
  · left
    have exits : PlacedBranch h p placed [⟨(h.get p).s.code, 0, 0, (h.get p).s.k⟩] :=
      .ret jt jf ⟨flags.ret jt true, flags.ret jt false⟩
    refine ⟨_, ?_, inv.place fresh marked reached fits stmts exits, rfl⟩
    simp only [convertBlock, inv.heap, notOverrun, if_false, stmts, jt]
    rfl

end Block

/-! ## A whole pass -/

/-- Marking one more reachable block keeps the invariant. -/
theorem PassInv.mark {p : BlockId} {st : Conv} (inv : PassInv h root n st placed)
    (inside : p < h.size) (fresh : p ∉ st.marked) :
    PassInv h root n { st with marked := p :: st.marked } placed where
  heap := inv.heap
  markedNodup := nodup_cons.mpr ⟨fresh, inv.markedNodup⟩
  markedInside := by
    intro b mem
    rcases mem_cons.mp mem with rfl | earlier
    · exact inside
    · exact inv.markedInside b earlier
  placedMarked := fun b mem => mem_cons_of_mem p (inv.placedMarked b mem)
  reach := inv.reach
  layout := inv.layout
  offsets := inv.offsets
  room := inv.room

theorem PassInv.marked_length {st : Conv} (inv : PassInv h root n st placed) :
    st.marked.length ≤ h.size := by
  have subset : st.marked ⊆ range h.size :=
    fun b mem => mem_range.mpr (inv.markedInside b mem)
  simpa using (inv.markedNodup.subperm subset).length_le

/-- Visiting a block succeeds: it and what it leads to have been placed. -/
structure Visited (h : Heap) (root : BlockId) (n fuel : Nat) (p : Option BlockId) (st : Conv)
    (placed : List BlockId) (after : Conv) : Prop where
  ran : convertCodeR fuel p st = .ok (true, after)
  inv : PassInv h root n after (order fuel h p placed)
  here : ∀ q, p = some q → q ∈ order fuel h p placed
  kept : st.marked ⊆ after.marked
  grown : ∀ b ∈ after.marked, b ∈ st.marked ∨ b ∈ order fuel h p placed

/-- Visiting a block stops at a branch that is too far, and marks it. -/
def Stuck (h : Heap) (fuel : Nat) (p : Option BlockId) (st : Conv) (placed : List BlockId) : Prop :=
  ∃ after q behind side, convertCodeR fuel p st = .ok (false, after) ∧
    after.heap = markLong h q side ∧ Far h q behind side ∧
    (q :: behind) <:+ order fuel h p placed

/-- What has been marked at a visit: placed blocks and the blocks on the way. -/
def OnTheWay (h : Heap) (st : Conv) (placed : List BlockId) (p : Option BlockId) : Prop :=
  ∀ q, p = some q → ∀ b ∈ st.marked, b ∈ placed ∨ Relation.TransGen (Leads h) b q

/-- With this much fuel, every visit succeeds or marks a branch. -/
def PassFrom (h : Heap) (root : BlockId) (n fuel : Nat) : Prop :=
  ∀ (p : Option BlockId) (st : Conv) (placed : List BlockId), PassInv h root n st placed →
    h.size + 1 ≤ fuel + st.marked.length →
    (∀ q, p = some q → Reached h root q) →
    OnTheWay h st placed p → Justified h (order fuel h p placed) →
    (∃ after, Visited h root n fuel p st placed after) ∨ Stuck h fuel p st placed

section Visit

variable {h : Heap} {root p : BlockId} {n fuel : Nat} {st : Conv} {placed : List BlockId}

theorem order_fresh (fresh : p ∉ placed) :
    order (fuel + 1) h (some p) placed =
      p :: order fuel h (h.get p).jt (order fuel h (h.get p).jf placed) := by
  rw [order, if_neg fresh]

/-- Nothing behind a block leads back to it. -/
theorem not_mem_order (acyclic : ¬ Relation.TransGen (Leads h) p p) (fresh : p ∉ placed)
    (side : Bool) : p ∉ order fuel h (h.exit p side) placed := by
  intro mem
  rcases mem_order mem with earlier | ⟨q, exit, path⟩
  · exact fresh earlier
  · exact acyclic (.head' ⟨side, exit⟩ path)

/-- A failed visit of the false exit ends the visit of the block. -/
theorem Stuck.of_jf (seen : p ∉ st.marked) (fresh : p ∉ placed) (heap : st.heap = h)
    (stuck : Stuck h fuel (h.get p).jf { st with marked := p :: st.marked } placed) :
    Stuck h (fuel + 1) (some p) st placed := by
  obtain ⟨after, q, behind, side, ran, marks, far, part⟩ := stuck
  refine ⟨after, q, behind, side, ?_, marks, far, ?_⟩
  · simp only [convertCodeR, if_neg seen, heap]
    rw [heap] at ran
    rw [ran]
    rfl
  · rw [order_fresh fresh]
    exact part.trans ((order_suffix _ _ _ _).trans (suffix_cons p _))

/-- A failed visit of the true exit ends the visit of the block. -/
theorem Stuck.of_jt (seen : p ∉ st.marked) (fresh : p ∉ placed) (heap : st.heap = h)
    {middle : Conv}
    (visited : Visited h root n fuel (h.get p).jf { st with marked := p :: st.marked } placed
      middle)
    (stuck : Stuck h fuel (h.get p).jt middle (order fuel h (h.get p).jf placed)) :
    Stuck h (fuel + 1) (some p) st placed := by
  obtain ⟨after, q, behind, side, ran, marks, far, part⟩ := stuck
  refine ⟨after, q, behind, side, ?_, marks, far, ?_⟩
  · have first := visited.ran
    rw [heap] at first
    simp only [convertCodeR, if_neg seen, heap]
    rw [first]
    simp only [bind, Except.bind, if_true, visited.inv.heap, ran]
    rfl
  · rw [order_fresh fresh]
    exact part.trans (suffix_cons p _)

/-- After both exits the block itself is converted. -/
theorem convertCodeR_both (seen : p ∉ st.marked) (heap : st.heap = h) {middle last : Conv}
    (first : Visited h root n fuel (h.get p).jf { st with marked := p :: st.marked } placed
      middle)
    (second : Visited h root n fuel (h.get p).jt middle (order fuel h (h.get p).jf placed) last) :
    convertCodeR (fuel + 1) (some p) st = convertBlock p last := by
  have ran := first.ran
  rw [heap] at ran
  simp only [convertCodeR, if_neg seen, heap]
  rw [ran]
  simp only [bind, Except.bind, if_true, first.inv.heap, second.ran]

/-- The visit of a block that has not been visited. -/
theorem visit_fresh (graph : FlowGraph h root) (roomFor : RoomFor h root n) (small : n < 2 ^ 31)
    (ih : PassFrom h root n fuel) (inv : PassInv h root n st placed)
    (enough : h.size + 1 ≤ fuel + 1 + st.marked.length)
    (reach : Reached h root p) (way : OnTheWay h st placed (some p))
    (seen : p ∉ st.marked) (justified : Justified h (order (fuel + 1) h (some p) placed)) :
    (∃ after, Visited h root n (fuel + 1) (some p) st placed after) ∨
      Stuck h (fuel + 1) (some p) st placed := by
  have fresh : p ∉ placed := fun mem => seen (inv.placedMarked p mem)
  have acyclic := graph.acyclic p reach
  rw [order_fresh fresh] at justified
  have next : ∀ side q, h.exit p side = some q → Reached h root q :=
    fun side q exit => reach.tail ⟨side, exit⟩
  have wayF : OnTheWay h { st with marked := p :: st.marked } placed (h.get p).jf := by
    intro q exit b mem
    have step : Leads h p q := ⟨false, exit⟩
    rcases mem_cons.mp mem with rfl | earlier
    · exact .inr (.single step)
    · exact (way p rfl b earlier).imp_right fun path => path.tail step
  rcases ih (h.get p).jf _ placed (inv.mark (graph.inside p reach) seen)
      (by simp only [length_cons]; omega) (next false) wayF
      (justified.of_suffix ((order_suffix _ _ _ _).trans (suffix_cons p _))) with
    ⟨middle, first⟩ | stuck
  rotate_left
  · exact .inr (.of_jf seen fresh inv.heap stuck)
  have wayT : OnTheWay h middle (order fuel h (h.get p).jf placed) (h.get p).jt := by
    intro q exit b mem
    have step : Leads h p q := ⟨true, exit⟩
    rcases first.grown b mem with earlier | there
    · rcases mem_cons.mp earlier with rfl | before
      · exact .inr (.single step)
      · rcases way p rfl b before with there | path
        · exact .inl ((order_suffix _ _ _ _).subset there)
        · exact .inr (path.tail step)
    · exact .inl there
  have marks : (p :: st.marked).length ≤ middle.marked.length :=
    ((nodup_cons.mpr ⟨seen, inv.markedNodup⟩).subperm first.kept).length_le
  rcases ih (h.get p).jt middle _ first.inv
      (by simp only [length_cons] at marks; omega) (next true) wayT
      (justified.of_suffix (suffix_cons p _)) with ⟨last, second⟩ | stuck
  rotate_left
  · exact .inr (.of_jt seen fresh inv.heap first stuck)
  have both := convertCodeR_both seen inv.heap first second
  have unplacedF : p ∉ order fuel h (h.get p).jf placed := not_mem_order acyclic fresh false
  have unplaced : p ∉ order fuel h (h.get p).jt (order fuel h (h.get p).jf placed) :=
    not_mem_order acyclic unplacedF true
  have successors : ∀ side q, h.exit p side = some q →
      q ∈ order fuel h (h.get p).jt (order fuel h (h.get p).jf placed) := by
    intro side q exit
    cases side with
    | true => exact second.here q exit
    | false => exact (order_suffix _ _ _ _).subset (first.here q exit)
  have kept : p :: st.marked ⊆ last.marked := fun b mem => second.kept (first.kept mem)
  rcases convertBlock_pass graph roomFor small second.inv unplaced (kept (mem_cons_self ..))
      reach successors (justified p _ suffix_rfl) with
    ⟨after, ran, placedInv, sameMarks⟩ | ⟨after, side, ran, marked, far⟩
  · left
    refine ⟨after, both.trans ran, ?_, ?_, ?_, ?_⟩
    · rw [order_fresh fresh]
      exact placedInv
    · intro q same
      cases same
      rw [order_fresh fresh]
      exact mem_cons_self ..
    · rw [sameMarks]
      exact fun b mem => kept (mem_cons_of_mem p mem)
    · intro b mem
      rw [sameMarks] at mem
      rw [order_fresh fresh]
      rcases second.grown b mem with middleMark | there
      · rcases first.grown b middleMark with early | there
        · rcases mem_cons.mp early with rfl | before
          · exact .inr (mem_cons_self ..)
          · exact .inl before
        · exact .inr (mem_cons_of_mem p ((order_suffix _ _ _ _).subset there))
      · exact .inr (mem_cons_of_mem p there)
  · right
    refine ⟨after, p, _, side, both.trans ran, marked, far, ?_⟩
    rw [order_fresh fresh]

end Visit

theorem convertCodeR_pass (graph : FlowGraph h root) (roomFor : RoomFor h root n)
    (small : n < 2 ^ 31) (fuel : Nat) : PassFrom h root n fuel := by
  induction fuel with
  | zero =>
    intro p st placed inv enough _ _ _
    have marks := inv.marked_length
    omega
  | succ fuel ih =>
    intro p st placed inv enough reached way justified
    cases p with
    | none =>
      left
      refine ⟨st, rfl, inv, ?_, fun b mem => mem, fun b mem => .inl mem⟩
      intro q none_eq
      cases none_eq
    | some p =>
      have reach : Reached h root p := reached p rfl
      by_cases seen : p ∈ st.marked
      · -- A marked block on the way to itself would close a cycle.
        have mem : p ∈ placed := by
          rcases way p rfl p seen with mem | cycle
          · exact mem
          · exact absurd cycle (graph.acyclic p reach)
        left
        refine ⟨st, ?_, ?_, ?_, fun b there => there, fun b there => .inl there⟩
        · rw [convertCodeR, if_pos seen]
        · rw [order_of_mem mem]
          exact inv
        · intro q same
          cases same
          rw [order_of_mem mem]
          exact mem
      · exact visit_fresh graph roomFor small ih inv enough reach way seen justified

end Libpcap.Optimize
