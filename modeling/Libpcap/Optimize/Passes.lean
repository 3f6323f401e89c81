/-
# The array is large enough and the passes end

`count_stmts` counts every reachable block once, so the array of a pass has
exactly the room that its blocks take. A pass that fails adds one extra jump to a
branch that is too far. Extra jumps only push blocks further apart, so that a
branch once marked stays too far, and no branch is marked twice: after at most
two passes for each block a pass succeeds.
-/

import Libpcap.Optimize.Pass
import Mathlib.Algebra.Order.BigOperators.Group.List
import Mathlib.Algebra.Order.Ring.Nat

namespace Libpcap.Optimize

open Libpcap.Bpf Libpcap.Gencode Libpcap.Semantics List

variable {b q root : BlockId} {h h' : Heap} {all blocks : List BlockId}

/-! ## Sums over blocks -/

theorem totalRoom_append (h : Heap) (left right : List BlockId) :
    totalRoom h (left ++ right) = totalRoom h left + totalRoom h right := by
  simp [totalRoom]

theorem totalRoom_le_of_subset (h : Heap) {part whole : List BlockId} (nodup : part.Nodup)
    (subset : part ⊆ whole) : totalRoom h part ≤ totalRoom h whole := by
  obtain ⟨middle, perm, sublist⟩ := nodup.subperm subset
  calc totalRoom h part = totalRoom h middle := ((perm.map _).sum_eq).symm
    _ ≤ totalRoom h whole := (sublist.map _).sum_le_sum fun _ _ => Nat.zero_le _

/-! ## `count_stmts` -/

/-- The given blocks are the reachable ones. -/
structure Covers (h : Heap) (root : BlockId) (all : List BlockId) : Prop where
  nodup : all.Nodup
  mem_iff : ∀ b, b ∈ all ↔ Reached h root b

/-- What counting from a block adds to the marked blocks. -/
structure Counted (h : Heap) (root : BlockId) (p : Option BlockId) (marked new : List BlockId)
    (result : Nat × List BlockId) : Prop where
  result_eq : result = (totalRoom h new, new ++ marked)
  nodup : (new ++ marked).Nodup
  reach : ∀ b ∈ new, Reached h root b
  here : ∀ q, p = some q → q ∈ new ++ marked
  closed : ∀ b ∈ new, ∀ side q, h.exit b side = some q → q ∈ new ++ marked

theorem countStmtsFor_counted (inside : ∀ b, Reached h root b → b < h.size)
    (fuel : Nat) :
    ∀ (p : Option BlockId) (marked : List BlockId), marked.Nodup →
      (∀ b ∈ marked, Reached h root b) →
      h.size + 1 ≤ fuel + marked.length →
      (∀ q, p = some q → Reached h root q) →
      ∃ new, Counted h root p marked new (countStmtsFor fuel h p marked) := by
  induction fuel with
  | zero =>
    intro p marked nodup reach enough _
    have subset : marked ⊆ range h.size :=
      fun b mem => mem_range.mpr (inside b (reach b mem))
    have short := (nodup.subperm subset).length_le
    simp only [length_range] at short
    omega
  | succ fuel ih =>
    intro p marked nodup reach enough reached
    cases p with
    | none =>
      refine ⟨[], rfl, nodup, ?_, ?_, ?_⟩
      · intro b mem
        cases mem
      · intro q none_eq
        cases none_eq
      · intro b mem
        cases mem
    | some p =>
      rw [countStmtsFor]
      by_cases seen : p ∈ marked
      · rw [if_pos seen]
        refine ⟨[], rfl, nodup, ?_, ?_, ?_⟩
        · intro b mem
          cases mem
        · intro q same
          cases same
          exact seen
        · intro b mem
          cases mem
      · rw [if_neg seen]
        have here : Reached h root p := reached p rfl
        have reachP : ∀ b ∈ p :: marked, Reached h root b := by
          intro b mem
          rcases mem_cons.mp mem with rfl | earlier
          · exact here
          · exact reach b earlier
        obtain ⟨newT, countedT⟩ := ih (h.get p).jt (p :: marked)
          (nodup_cons.mpr ⟨seen, nodup⟩) reachP (by simp only [length_cons]; omega)
          (fun q exit => here.tail ⟨true, exit⟩)
        have reachT : ∀ b ∈ newT ++ p :: marked, Reached h root b := by
          intro b mem
          rcases mem_append.mp mem with late | early
          · exact countedT.reach b late
          · exact reachP b early
        obtain ⟨newF, countedF⟩ := ih (h.get p).jf (newT ++ p :: marked) countedT.nodup reachT
          (by simp only [length_append, length_cons]; omega)
          (fun q exit => here.tail ⟨false, exit⟩)
        refine ⟨newF ++ newT ++ [p], ?_, ?_, ?_, ?_, ?_⟩
        · simp only [countedT.result_eq, countedF.result_eq, totalRoom_append,
            Prod.mk.injEq, append_assoc, cons_append, nil_append, and_true]
          simp only [totalRoom, map_cons, map_nil, sum_cons, sum_nil]
          omega
        · simpa using countedF.nodup
        · intro b mem
          simp only [mem_append, mem_singleton] at mem
          rcases mem with (late | middle) | rfl
          · exact countedF.reach b late
          · exact countedT.reach b middle
          · exact here
        · intro q same
          cases same
          simp
        · intro b mem side q exit
          have inT : q ∈ newT ++ p :: marked → q ∈ newF ++ newT ++ [p] ++ marked := by
            intro there
            simpa using Or.inr (by simpa using there)
          simp only [mem_append, mem_singleton] at mem
          rcases mem with (late | middle) | rfl
          · simpa using countedF.closed b late side q exit
          · exact inT (countedT.closed b middle side q exit)
          · cases side with
            | true => exact inT (countedT.here q exit)
            | false => simpa using countedF.here q exit

/-- What contains the root and all exits of its elements contains every reachable
block. -/
theorem mem_of_closed (start : root ∈ all)
    (closed : ∀ b ∈ all, ∀ side q, h.exit b side = some q → q ∈ all)
    (path : Reached h root b) : b ∈ all := by
  induction path with
  | refl => exact start
  | tail _ step ih =>
    obtain ⟨side, exit⟩ := step
    exact closed _ ih side _ exit

theorem exists_covers (inside : ∀ b, Reached h root b → b < h.size) :
    ∃ all, Covers h root all ∧ countStmts h root = totalRoom h all := by
  obtain ⟨all, counted⟩ := countStmtsFor_counted inside (h.size + 1) (some root) [] nodup_nil
    (by simp) (by simp) (by
      intro q same
      cases same
      exact .refl)
  have closed := counted.closed
  simp only [append_nil] at closed
  refine ⟨all, ⟨by simpa using counted.nodup, ?_⟩, ?_⟩
  · intro b
    constructor
    · exact counted.reach b
    · exact mem_of_closed (by simpa using counted.here root rfl) closed
  · rw [countStmts, counted.result_eq]

theorem Covers.countStmts_eq (covers : Covers h root all) (inside : ∀ b ∈ all, b < h.size) :
    countStmts h root = totalRoom h all := by
  have reachInside : ∀ b, Reached h root b → b < h.size :=
    fun b path => inside b ((covers.mem_iff b).mpr path)
  obtain ⟨other, otherCovers, count⟩ := exists_covers reachInside
  rw [count]
  apply Nat.le_antisymm
  · exact totalRoom_le_of_subset h otherCovers.nodup
      fun b mem => (covers.mem_iff b).mpr ((otherCovers.mem_iff b).mp mem)
  · exact totalRoom_le_of_subset h covers.nodup
      fun b mem => (otherCovers.mem_iff b).mpr ((covers.mem_iff b).mp mem)

/-- The array of a pass has room for all its blocks. -/
theorem roomFor_countStmts (graph : FlowGraph h root) : RoomFor h root (countStmts h root) := by
  obtain ⟨all, covers, count⟩ := exists_covers graph.inside
  intro blocks nodup reach
  rw [count]
  exact totalRoom_le_of_subset h nodup fun b mem => (covers.mem_iff b).mpr (reach b mem)

/-! ## Marking a branch -/

/-- Two heaps whose blocks differ in their extra jumps only. -/
structure SameBlocks (h h' : Heap) : Prop where
  size : h'.size = h.size
  stmts : ∀ b, (h'.get b).stmts = (h.get b).stmts
  s : ∀ b, (h'.get b).s = (h.get b).s
  exit : ∀ b side, h'.exit b side = h.exit b side

theorem SameBlocks.refl (h : Heap) : SameBlocks h h :=
  ⟨rfl, fun _ => rfl, fun _ => rfl, fun _ _ => rfl⟩

theorem SameBlocks.trans {h'' : Heap} (first : SameBlocks h h') (second : SameBlocks h' h'') :
    SameBlocks h h'' where
  size := second.size.trans first.size
  stmts := fun b => (second.stmts b).trans (first.stmts b)
  s := fun b => (second.s b).trans (first.s b)
  exit := fun b side => (second.exit b side).trans (first.exit b side)

section Same

variable {h h' : Heap} (same : SameBlocks h h')

include same

theorem SameBlocks.jt (b : BlockId) : (h'.get b).jt = (h.get b).jt := same.exit b true

theorem SameBlocks.jf (b : BlockId) : (h'.get b).jf = (h.get b).jf := same.exit b false

theorem SameBlocks.leads : Leads h' = Leads h := by
  funext b c
  simp [Leads, same.exit]

theorem SameBlocks.reached : Reached h' root = Reached h root := by
  funext b
  rw [Reached, same.leads]

theorem SameBlocks.flowGraph (graph : FlowGraph h root) : FlowGraph h' root where
  acyclic := by
    rw [same.leads]
    exact graph.acyclic
  inside := by
    rw [same.reached, same.size]
    exact graph.inside
  ends := by
    rw [same.reached]
    intro b path
    have ends := graph.ends b path
    rw [EndOk, same.jt, same.jf, same.s]
    exact ends
  localOk := by
    rw [same.reached]
    intro b path
    rw [same.stmts]
    exact graph.localOk b path

theorem SameBlocks.covers (covers : Covers h root all) : Covers h' root all := by
  refine ⟨covers.nodup, ?_⟩
  rw [same.reached]
  exact covers.mem_iff

theorem SameBlocks.order (fuel : Nat) (p : Option BlockId) (placed : List BlockId) :
    order fuel h' p placed = order fuel h p placed := by
  induction fuel generalizing p placed with
  | zero => cases p <;> rfl
  | succ fuel ih =>
    cases p with
    | none => rfl
    | some p => simp only [Libpcap.Optimize.order, same.jt, same.jf, ih]

theorem SameBlocks.graphStep (p : Packet) : graphStep h' p = graphStep h p := by
  funext ⟨b, pos, m⟩
  simp [Libpcap.Gencode.graphStep, same.stmts, same.s, same.exit]

end Same

/-- No block of the first heap has an extra jump that it lacks in the second. -/
def MoreJumps (h h' : Heap) : Prop :=
  ∀ b side, Block.long (h.get b) side ≤ Block.long (h'.get b) side

theorem MoreJumps.span_le (more : MoreJumps h h') (same : SameBlocks h h') (placed : List BlockId)
    (target : BlockId) :
    span h placed target ≤ span h' placed target := by
  induction placed with
  | nil => exact Nat.le_refl _
  | cons b placed ih =>
    simp only [span]
    split
    · exact Nat.le_refl _
    · have room : Block.room (h.get b) ≤ Block.room (h'.get b) := by
        have jt : (h.get b).longjt ≤ (h'.get b).longjt := more b true
        have jf : (h.get b).longjf ≤ (h'.get b).longjf := more b false
        simp only [Block.room, same.stmts]
        omega
      exact Nat.add_le_add room ih

theorem MoreJumps.gap_le (more : MoreJumps h h') (same : SameBlocks h h') (b : BlockId)
    (behind : List BlockId) (target : BlockId) :
    gap h b behind target ≤ gap h' b behind target := by
  have jt : (h.get b).longjt ≤ (h'.get b).longjt := more b true
  have jf : (h.get b).longjf ≤ (h'.get b).longjf := more b false
  have spans := more.span_le same behind target
  simp only [gap]
  omega

section Marking

variable {h : Heap} {q : BlockId} (inside : q < h.size) (side : Bool)

include inside

theorem markLong_sameBlocks : SameBlocks h (markLong h q side) where
  size := h.size_modify _
  stmts := by
    intro b
    rw [markLong, h.get_modify inside]
    by_cases same : b = q
    · subst same
      cases side <;> simp
    · simp [same]
  s := by
    intro b
    rw [markLong, h.get_modify inside]
    by_cases same : b = q
    · subst same
      cases side <;> simp
    · simp [same]
  exit := by
    intro b other
    simp only [Heap.exit, markLong, h.get_modify inside]
    by_cases same : b = q
    · subst same
      cases side <;> cases other <;> simp
    · simp [same]

theorem long_markLong (b : BlockId) (other : Bool) :
    Block.long ((markLong h q side).get b) other =
      Block.long (h.get b) other + if b = q ∧ other = side then 1 else 0 := by
  rw [markLong, h.get_modify inside]
  by_cases same : b = q
  · subst same
    cases side <;> cases other <;> simp [Block.long]
  · simp [same]

theorem markLong_moreJumps : MoreJumps h (markLong h q side) := by
  intro b other
  rw [long_markLong inside]
  exact Nat.le_add_right _ _

/-- A marked branch stays too far, so marking one that is too far adds only jumps
that are needed. -/
theorem FlagsOk.markLong {behind : List BlockId} (ends : EndOk h q) (flags : FlagsOk h b behind)
    (far : b = q → Far h b behind side) :
    FlagsOk (markLong h q side) b behind := by
  have same := markLong_sameBlocks inside side
  have gaps := (markLong_moreJumps inside side).gap_le same b behind
  refine ⟨?_, ?_, ?_⟩
  · intro other
    have small := flags.small other
    rw [long_markLong inside]
    split
    · rename_i here
      obtain ⟨_, _, unmarked, _⟩ := far here.1
      rw [here.2, unmarked]
    · exact small
  · intro isNone other
    rw [same.jt] at isNone
    rw [long_markLong inside, flags.ret isNone other, if_neg]
    rintro ⟨rfl, rfl⟩
    -- a block without a true exit is a return, which has no exit that is too far
    obtain ⟨target, exit, _⟩ := far rfl
    rcases ends with ⟨t, _, _, _, jt, _⟩ | ⟨jt, jf, _⟩
    · exact absurd (jt.symm.trans isNone) (by simp)
    · cases other with
      | true => exact absurd (exit.symm.trans jt) (by simp)
      | false => exact absurd (exit.symm.trans jf) (by simp)
  · intro other target exit marked
    rw [same.exit] at exit
    refine Nat.le_trans ?_ (gaps target)
    by_cases here : b = q ∧ other = side
    · obtain ⟨first, firstExit, _, distance⟩ := far here.1
      rw [← here.2, exit] at firstExit
      cases firstExit
      exact distance
    · rw [long_markLong inside, if_neg here, Nat.add_zero] at marked
      exact flags.far other target exit marked

end Marking

/-! ## The list of placed blocks -/

theorem order_nodup (graph : FlowGraph h root) (fuel : Nat) :
    ∀ (p : Option BlockId) (placed : List BlockId), placed.Nodup →
      (∀ q, p = some q → Reached h root q) →
      (order fuel h p placed).Nodup := by
  induction fuel with
  | zero =>
    intro p placed nodup _
    cases p <;> exact nodup
  | succ fuel ih =>
    intro p placed nodup reached
    cases p with
    | none => exact nodup
    | some p =>
      have reach := reached p rfl
      have acyclic := graph.acyclic p reach
      by_cases seen : p ∈ placed
      · rw [order_of_mem seen]
        exact nodup
      · have first := ih (h.get p).jf placed nodup fun q exit => reach.tail ⟨false, exit⟩
        have second := ih (h.get p).jt _ first fun q exit => reach.tail ⟨true, exit⟩
        have freshF : p ∉ order fuel h (h.get p).jf placed := not_mem_order acyclic seen false
        rw [order_fresh seen]
        exact nodup_cons.mpr ⟨not_mem_order acyclic freshF true, second⟩

theorem suffix_unique {L : List BlockId} (nodup : L.Nodup) {a b : List BlockId}
    (left : (q :: a) <:+ L) (right : (q :: b) <:+ L) : a = b := by
  have inside : ∀ {x y : List BlockId}, (q :: y) <:+ L → (q :: x) <:+ (q :: y) → x = y := by
    intro x y part nested
    rcases suffix_cons_iff.mp nested with same | deeper
    · exact (cons.inj same).2
    · have fresh := (nodup_cons.mp (nodup.sublist part.sublist)).1
      exact absurd (deeper.subset (mem_cons_self ..)) fresh
  rcases suffix_or_suffix_of_suffix left right with nested | nested
  · exact inside right nested
  · exact (inside left nested).symm

/-- The blocks in the order in which a pass places them, the last one first. -/
def layoutOrder (h : Heap) (root : BlockId) : List BlockId := order (h.size + 1) h (some root) []

section LayoutOrder

variable {h : Heap} {root : BlockId} (graph : FlowGraph h root)

include graph

theorem layoutOrder_nodup : (layoutOrder h root).Nodup := by
  apply order_nodup graph
  · exact nodup_nil
  · intro q same
    cases same
    exact .refl

omit graph in
theorem layoutOrder_reach (mem : b ∈ layoutOrder h root) : Reached h root b := by
  rcases mem_order mem with none | ⟨q, same, path⟩
  · cases none
  · cases same
    exact path

theorem layoutOrder_length : (layoutOrder h root).length ≤ h.size := by
  have subset : layoutOrder h root ⊆ range h.size :=
    fun b mem => mem_range.mpr (graph.inside b (layoutOrder_reach mem))
  simpa using ((layoutOrder_nodup graph).subperm subset).length_le

omit graph in
theorem layoutOrder_head : ∃ behind, layoutOrder h root = root :: behind :=
  ⟨_, order_fresh (by simp)⟩

omit graph in
theorem SameBlocks.layoutOrder (same : SameBlocks h h') :
    layoutOrder h' root = layoutOrder h root := by
  rw [Libpcap.Optimize.layoutOrder, same.order, same.size]
  rfl

theorem Justified.markLong {behind : List BlockId} {side : Bool}
    (justified : Justified h (Libpcap.Optimize.layoutOrder h root))
    (part : (q :: behind) <:+ Libpcap.Optimize.layoutOrder h root) (far : Far h q behind side) :
    Justified (markLong h q side) (Libpcap.Optimize.layoutOrder h root) := by
  have reach := layoutOrder_reach (part.subset (mem_cons_self ..))
  intro b others partB
  apply (justified b others partB).markLong (graph.inside q reach) side (graph.ends q reach)
  intro here
  subst here
  rw [suffix_unique (layoutOrder_nodup graph) partB part]
  exact far

end LayoutOrder

/-! ## The number of extra jumps -/

/-- The extra jumps of the given blocks. -/
def marks (h : Heap) (blocks : List BlockId) : Nat :=
  (blocks.map fun b => Block.long (h.get b) true + Block.long (h.get b) false).sum

theorem sum_map_bump {f g : BlockId → Nat} (bump : ∀ b, g b = f b + if b = q then 1 else 0)
    (nodup : blocks.Nodup) (mem : q ∈ blocks) :
    (blocks.map g).sum = (blocks.map f).sum + 1 := by
  induction blocks with
  | nil => cases mem
  | cons b rest ih =>
    obtain ⟨fresh, nodup'⟩ := nodup_cons.mp nodup
    simp only [map_cons, sum_cons, bump b]
    by_cases here : b = q
    · have unchanged : rest.map g = rest.map f := by
        apply map_congr_left
        intro c later
        rw [bump c, if_neg, Nat.add_zero]
        intro same
        exact fresh (here.trans same.symm ▸ later)
      rw [if_pos here, unchanged]
      omega
    · have later : q ∈ rest := by
        rcases mem_cons.mp mem with same | later
        · exact absurd same.symm here
        · exact later
      rw [if_neg here, ih nodup' later]
      omega

theorem long_sum_markLong (inside : q < h.size) (side : Bool) (b : BlockId) :
    Block.long ((markLong h q side).get b) true + Block.long ((markLong h q side).get b) false =
      Block.long (h.get b) true + Block.long (h.get b) false + if b = q then 1 else 0 := by
  rw [long_markLong inside, long_markLong inside]
  cases side <;> simp <;> omega

theorem marks_markLong (inside : q < h.size) (side : Bool) (nodup : blocks.Nodup)
    (mem : q ∈ blocks) :
    marks (markLong h q side) blocks = marks h blocks + 1 :=
  sum_map_bump (long_sum_markLong inside side) nodup mem

theorem totalRoom_markLong (inside : q < h.size) (side : Bool) (nodup : blocks.Nodup)
    (mem : q ∈ blocks) :
    totalRoom (markLong h q side) blocks = totalRoom h blocks + 1 := by
  refine sum_map_bump ?_ nodup mem
  intro b
  have flags := long_sum_markLong inside side b
  have stmts := (markLong_sameBlocks inside side).stmts b
  simp only [Block.long, if_true, Bool.false_eq_true, if_false] at flags
  simp only [Block.room, stmts]
  omega

theorem marks_le (justified : Justified h blocks) : marks h blocks ≤ 2 * blocks.length := by
  induction blocks with
  | nil => exact Nat.le_refl _
  | cons b rest ih =>
    have here := justified b rest suffix_rfl
    have flagT := here.small true
    have flagF := here.small false
    have later := ih (justified.of_suffix (suffix_cons b rest))
    simp only [marks, map_cons, sum_cons, length_cons] at later ⊢
    omega

/-! ## The loop of `icode_to_fcode` -/

theorem Placed.closed {placed : List BlockId} {code : List Insn} (layout : Placed h placed code)
    (mem : b ∈ placed) {side : Bool} (exit : h.exit b side = some q) : q ∈ placed := by
  obtain ⟨front, behind, insns, branch, placedAt⟩ := layout.at_ mem
  have later : q ∈ behind := by
    cases placedAt.exits with
    | ret jt jf _ =>
      cases side with
      | true => exact absurd (exit.symm.trans jt) (by simp)
      | false => exact absurd (exit.symm.trans jf) (by simp)
    | jump jt jf placedT placedF _ _ =>
      cases side with
      | true => exact Option.some.inj (exit.symm.trans jt) ▸ placedT
      | false => exact Option.some.inj (exit.symm.trans jf) ▸ placedF
  rw [placedAt.split]
  simp [later]

/-- The array of a finished conversion, and the blocks as its last pass left them. -/
structure LaidOut (h : Heap) (root : BlockId) (h' : Heap) (code : List Insn) : Prop where
  same : SameBlocks h h'
  placed : Placed h' (layoutOrder h root) code
  flags : Justified h' (layoutOrder h root)
  length : code.length = countStmts h' root
  small : code.length < 2 ^ 31

section Loop

variable {h : Heap} {root : BlockId}

/-- The invariant at the start of a pass. -/
theorem passInv_start (h : Heap) (root : BlockId) :
    PassInv h root (countStmts h root) (.start h root) [] where
  heap := rfl
  markedNodup := nodup_nil
  markedInside := by simp [Conv.start]
  placedMarked := by simp
  reach := by simp
  layout := ⟨[], .nil, by simp [Conv.start]⟩
  offsets := by simp
  room := by simp [Conv.start, totalRoom]

/-- A pass lays everything out, or marks one more branch. -/
theorem pass_outcome (graph : FlowGraph h root) (small : countStmts h root < 2 ^ 31)
    (justified : Justified h (layoutOrder h root)) :
    (∃ st code, convertCodeR (h.size + 1) (some root) (.start h root) = .ok (true, st) ∧
      st.slots = code.map some ∧ st.heap = h ∧ LaidOut h root h code) ∨
    ∃ st q behind side,
      convertCodeR (h.size + 1) (some root) (.start h root) = .ok (false, st) ∧
      st.heap = markLong h q side ∧ Far h q behind side ∧
      (q :: behind) <:+ layoutOrder h root := by
  have reached : ∀ q, some root = some q → Reached h root q := by
    intro q same
    cases same
    exact .refl
  rcases convertCodeR_pass graph (roomFor_countStmts graph) small (h.size + 1) (some root)
      (.start h root) [] (passInv_start h root) (Nat.le_refl _) reached
      (by simp [OnTheWay, Conv.start]) justified with ⟨st, visited⟩ | stuck
  · left
    obtain ⟨code, layout, slots⟩ := visited.inv.layout
    have layout' : Placed h (layoutOrder h root) code := layout
    obtain ⟨all, covers, count⟩ := exists_covers graph.inside
    have complete : all ⊆ layoutOrder h root := by
      intro b mem
      exact mem_of_closed (visited.here root rfl)
        (fun c there side q exit => layout'.closed there exit) ((covers.mem_iff b).mp mem)
    have bound := totalRoom_le_of_subset h covers.nodup complete
    have room : st.ftail + totalRoom h (layoutOrder h root) = countStmts h root := visited.inv.room
    have full : st.ftail = 0 := by omega
    refine ⟨st, code, visited.ran, ?_, visited.inv.heap, .refl h, layout', justified, ?_, ?_⟩
    · rw [slots, full]
      simp
    · rw [layout'.length]
      omega
    · rw [layout'.length]
      omega
  · exact .inr stuck

/-- Enough passes for the branches that are not marked yet lead to an array. -/
theorem icodeToFcodeFor_laidOut (passes : Nat) :
    ∀ h : Heap, FlowGraph h root → Justified h (layoutOrder h root) →
      2 * h.size < passes + marks h (layoutOrder h root) →
      countStmts h root + 2 * h.size < 2 ^ 31 + marks h (layoutOrder h root) →
      ∃ h' code, icodeToFcodeFor passes h root = .ok (code.map some, h') ∧
        LaidOut h root h' code := by
  induction passes with
  | zero =>
    intro h graph justified enough _
    have most := marks_le justified
    have short := layoutOrder_length graph
    omega
  | succ passes ih =>
    intro h graph justified enough small
    have most := marks_le justified
    have short := layoutOrder_length graph
    rcases pass_outcome graph (by omega) justified with
      ⟨st, code, ran, slots, heap, laidOut⟩ | ⟨st, q, behind, side, ran, heap, far, part⟩
    · refine ⟨h, code, ?_, laidOut⟩
      rw [icodeToFcodeFor, ran]
      simp only [bind, Except.bind, if_true, slots, heap]
      rfl
    · have mem : q ∈ layoutOrder h root := part.subset (mem_cons_self ..)
      have reach := layoutOrder_reach mem
      have inside := graph.inside q reach
      have same := markLong_sameBlocks inside side
      obtain ⟨all, covers, count⟩ := exists_covers graph.inside
      have countAfter : countStmts (markLong h q side) root = countStmts h root + 1 := by
        have insideAll : ∀ b ∈ all, b < (markLong h q side).size := by
          intro b there
          rw [same.size]
          exact graph.inside b ((covers.mem_iff b).mp there)
        rw [(same.covers covers).countStmts_eq insideAll, count]
        exact totalRoom_markLong inside side covers.nodup ((covers.mem_iff q).mpr reach)
      have marksAfter := marks_markLong inside side (layoutOrder_nodup graph) mem
      have order : layoutOrder (markLong h q side) root = layoutOrder h root := same.layoutOrder
      obtain ⟨h', code, ran', laidOut⟩ := ih (markLong h q side) (same.flowGraph graph)
        (by rw [order]; exact justified.markLong graph part far)
        (by rw [order, same.size]; omega) (by rw [order, same.size]; omega)
      refine ⟨h', code, ?_, same.trans laidOut.same, ?_, ?_, laidOut.length, laidOut.small⟩
      · rw [icodeToFcodeFor, ran]
        simp only [bind, Except.bind, Bool.false_eq_true, if_false, heap]
        exact ran'
      · rw [← order]
        exact laidOut.placed
      · rw [← order]
        exact laidOut.flags

/-- Blocks without extra jumps are laid out. -/
theorem exists_laidOut {h : Heap} (graph : FlowGraph h root)
    (fresh : ∀ b, Reached h root b → (h.get b).longjt = 0 ∧ (h.get b).longjf = 0)
    (small : countStmts h root + 2 * h.size < 2 ^ 31) :
    ∃ last code, icodeToFcodeFor (2 * h.size + 1) h root = .ok (code.map some, last) ∧
      LaidOut h root last code := by
  refine icodeToFcodeFor_laidOut _ h graph ?_ (by omega) (by omega)
  intro b behind part
  have reach : Reached h root b := layoutOrder_reach (part.subset (mem_cons_self ..))
  have zero : ∀ side, Block.long (h.get b) side = 0 := by
    intro side
    cases side with
    | true => exact (fresh b reach).1
    | false => exact (fresh b reach).2
  exact ⟨fun side => Nat.le_of_eq (zero side) |>.trans (Nat.zero_le 1), fun _ => zero,
    fun side _ _ marked => absurd (zero side) marked⟩

end Loop

end Libpcap.Optimize
