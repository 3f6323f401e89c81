/-
# Traversals of the flow graph

The optimizer numbers the blocks, levels them and marks those that are alive, each time by
a depth-first search that does not enter a block twice. On a flow graph the searches find
exactly the blocks that can be reached, and the level of a block is larger than the levels
of the blocks it leads to. Going over the levels from the top, no block therefore leads back to
a block in front.
-/

import Libpcap.Optimize.Optimizer
import Libpcap.Optimize.Passes

namespace Libpcap.Optimize

open Libpcap.Bpf Libpcap.Gencode Libpcap.Semantics List

variable {b : BlockId} {lv : Levels} {level : Nat}

/-- A rank of the blocks that can be reached, which falls along every edge. -/
structure Ranked (h : Heap) (root : BlockId) (rank : BlockId → Nat) : Prop where
  falls : ∀ b q, Reached h root b → Leads h b q → rank q < rank b
  small : ∀ b, rank b ≤ h.size

/-- What the traversals need of a graph: it is acyclic, and its blocks end in a branch or a
return. -/
structure JumpGraph (h : Heap) (root : BlockId) : Prop where
  acyclic : AcyclicFrom (Leads h) root
  inside : ∀ b, Reached h root b → b < h.size
  ends : ∀ b, Reached h root b → EndOk h b

theorem FlowGraph.jumps {h : Heap} {root : BlockId} (graph : FlowGraph h root) : JumpGraph h root :=
  ⟨graph.acyclic, graph.inside, graph.ends⟩

theorem JumpGraph.exists_ranked {h : Heap} {root : BlockId} (graph : JumpGraph h root) :
    ∃ rank, Ranked h root rank := by
  obtain ⟨rank, falls, small⟩ := graph.acyclic.exists_rank (Finset.range h.size)
    fun b path => Finset.mem_range.mpr (graph.inside b path)
  refine ⟨rank, falls, fun b => ?_⟩
  simpa using small b

section Traversal

variable {h : Heap} {root : BlockId} {rank : BlockId → Nat}

/-! ## Numbering -/

/-- What a search from a block adds to the blocks it has entered. -/
structure Numbered (h : Heap) (root : BlockId) (p : Option BlockId)
    (blocks blocks' : List BlockId) : Prop where
  kept : blocks ⊆ blocks'
  nodup : blocks.Nodup → blocks'.Nodup
  reach : ∀ b ∈ blocks', b ∈ blocks ∨ Reached h root b
  here : ∀ q, p = some q → q ∈ blocks'
  closed : ∀ b ∈ blocks', b ∈ blocks ∨ ∀ side q, h.exit b side = some q → q ∈ blocks'

theorem Numbered.refl (p : Option BlockId) (blocks : List BlockId)
    (here : ∀ q, p = some q → q ∈ blocks) : Numbered h root p blocks blocks where
  kept _ mem := mem
  nodup nodup := nodup
  reach _ mem := .inl mem
  here := here
  closed _ mem := .inl mem

/-- A block is entered, and then what its exits lead to. -/
theorem Numbered.block {p : BlockId} {blocks entered middle last : List BlockId}
    (path : Reached h root p)
    (mem_entered : ∀ b, b ∈ entered ↔ b ∈ blocks ∨ b = p)
    (nodup : blocks.Nodup → entered.Nodup)
    (onTrue : Numbered h root (h.get p).jt entered middle)
    (onFalse : Numbered h root (h.get p).jf middle last) :
    Numbered h root (some p) blocks last where
  kept b mem := onFalse.kept (onTrue.kept ((mem_entered b).mpr (.inl mem)))
  nodup before := onFalse.nodup (onTrue.nodup (nodup before))
  reach b mem := by
    rcases onFalse.reach b mem with earlier | reached
    · rcases onTrue.reach b earlier with first | reached
      · rcases (mem_entered b).mp first with old | rfl
        · exact .inl old
        · exact .inr path
      · exact .inr reached
    · exact .inr reached
  here q same := by
    cases same
    exact onFalse.kept (onTrue.kept ((mem_entered p).mpr (.inr rfl)))
  closed b mem := by
    rcases onFalse.closed b mem with earlier | closed
    · rcases onTrue.closed b earlier with first | closed
      · rcases (mem_entered b).mp first with old | rfl
        · exact .inl old
        · refine .inr fun side q exit => ?_
          cases side with
          | true => exact onFalse.kept (onTrue.here q exit)
          | false => exact onFalse.here q exit
      · exact .inr fun side q exit => onFalse.kept (closed side q exit)
    · exact .inr closed

/-- A search that starts at the root and has entered nothing before finds the blocks that can be
reached. -/
theorem Numbered.covers {blocks : List BlockId} (numbered : Numbered h root (some root) [] blocks) :
    Covers h root blocks := by
  have closed : ∀ b ∈ blocks, ∀ side q, h.exit b side = some q → q ∈ blocks :=
    fun b mem => (numbered.closed b mem).resolve_left not_mem_nil
  refine ⟨numbered.nodup nodup_nil, fun b => ⟨fun mem => ?_, ?_⟩⟩
  · exact (numbered.reach b mem).resolve_left not_mem_nil
  · exact mem_of_closed (numbered.here root rfl) closed

/-! ## Levels -/

/-- A block is in the list of some level. -/
def Levels.Placed (lv : Levels) (b : BlockId) : Prop := ∃ l, b ∈ lv.lists.get l

/-- The invariant of leveling: a block in the list of a level has that level, and its exits
lead to blocks in lists of smaller levels. -/
structure Leveled (h : Heap) (root : BlockId) (rank : BlockId → Nat) (lv : Levels) : Prop where
  sizeLevel : lv.level.size = h.size
  sizeLists : lv.lists.size = h.size + 1
  marked : ∀ b, lv.Placed b → b ∈ lv.marked
  reach : ∀ b, lv.Placed b → Reached h root b
  level : ∀ l b, b ∈ lv.lists.get l → lv.level.get b = l
  bound : ∀ l b, b ∈ lv.lists.get l → l ≤ rank b
  below : ∀ l b, b ∈ lv.lists.get l → ∀ side q, h.exit b side = some q →
    ∃ m, m < l ∧ q ∈ lv.lists.get m
  bottom : ∀ l b, b ∈ lv.lists.get l → (h.get b).jt = none → l = 0

/-- What a visit adds to the lists: blocks that were not marked before. -/
structure Levels.Grows (lv lv' : Levels) : Prop where
  marked : lv.marked ⊆ lv'.marked
  kept : ∀ l b, b ∈ lv.lists.get l → b ∈ lv'.lists.get l
  fresh : ∀ b, lv'.Placed b → lv.Placed b ∨ b ∉ lv.marked
  open_ : ∀ b ∈ lv'.marked, lv'.Placed b ∨ b ∈ lv.marked

theorem Levels.Grows.refl (lv : Levels) : lv.Grows lv :=
  ⟨fun _ mem => mem, fun _ _ mem => mem, fun _ placed => .inl placed,
    fun _ mem => .inr mem⟩

theorem Levels.Grows.placed {lv' : Levels} (grows : lv.Grows lv') (placed : lv.Placed b) :
    lv'.Placed b := by
  obtain ⟨l, mem⟩ := placed
  exact ⟨l, grows.kept l b mem⟩

theorem Levels.Grows.trans {lv' lv'' : Levels} (first : lv.Grows lv') (second : lv'.Grows lv'') :
    lv.Grows lv'' where
  marked b mem := second.marked (first.marked mem)
  kept l b mem := second.kept l b (first.kept l b mem)
  fresh b placed := by
    rcases second.fresh b placed with earlier | unmarked
    · exact first.fresh b earlier
    · exact .inr fun marked => unmarked (first.marked marked)
  open_ b mem := by
    rcases second.open_ b mem with placed | earlier
    · exact .inl placed
    · rcases first.open_ b earlier with placed | marked
      · exact .inl (second.placed placed)
      · exact .inr marked

theorem Levels.mem_place {c : BlockId} {l : Nat} (inside : level < lv.lists.size) :
    c ∈ (lv.place b level).lists.get l ↔ c = b ∧ l = level ∨ c ∈ lv.lists.get l := by
  rw [Levels.place]
  change c ∈ (lv.lists.modify level (b :: ·)).get l ↔ _
  rw [lv.lists.get_modify _ inside]
  by_cases same : l = level
  · subst same
    simp
  · simp [same]

/-- A block is placed above the blocks that its exits lead to. -/
theorem Leveled.place (leveled : Leveled h root rank lv) (ranked : Ranked h root rank)
    (inside : b < h.size) (path : Reached h root b) (marked : b ∈ lv.marked)
    (fresh : ¬ lv.Placed b) (bound : level ≤ rank b)
    (below : ∀ side q, h.exit b side = some q → ∃ m, m < level ∧ q ∈ lv.lists.get m)
    (bottom : (h.get b).jt = none → level = 0) :
    Leveled h root rank (lv.place b level) := by
  have small : level < lv.lists.size := by
    have := ranked.small b
    rw [leveled.sizeLists]
    omega
  have levels : ∀ c, (lv.place b level).level.get c = if c = b then level else lv.level.get c := by
    intro c
    exact lv.level.get_modify _ (by rw [leveled.sizeLevel]; exact inside) c
  have cases : ∀ c, (lv.place b level).Placed c → c = b ∨ lv.Placed c := by
    rintro c ⟨l, mem⟩
    rcases (Levels.mem_place small).mp mem with ⟨rfl, -⟩ | earlier
    · exact .inl rfl
    · exact .inr ⟨l, earlier⟩
  exact
    { sizeLevel := by
        rw [← leveled.sizeLevel]
        exact lv.level.size_modify _ _
      sizeLists := by
        rw [← leveled.sizeLists]
        exact lv.lists.size_modify _ _
      marked := by
        intro c placed
        rcases cases c placed with rfl | earlier
        · exact marked
        · exact leveled.marked c earlier
      reach := by
        intro c placed
        rcases cases c placed with rfl | earlier
        · exact path
        · exact leveled.reach c earlier
      level := by
        intro l c mem
        rw [levels]
        rcases (Levels.mem_place small).mp mem with ⟨rfl, rfl⟩ | earlier
        · rw [if_pos rfl]
        · have other : c ≠ b := by
            rintro rfl
            exact fresh ⟨l, earlier⟩
          rw [if_neg other]
          exact leveled.level l c earlier
      bound := by
        intro l c mem
        rcases (Levels.mem_place small).mp mem with ⟨rfl, rfl⟩ | earlier
        · exact bound
        · exact leveled.bound l c earlier
      below := by
        intro l c mem side q exit
        have lower : ∃ m, m < l ∧ q ∈ lv.lists.get m := by
          rcases (Levels.mem_place small).mp mem with ⟨rfl, rfl⟩ | earlier
          · exact below side q exit
          · exact leveled.below l c earlier side q exit
        obtain ⟨m, less, found⟩ := lower
        exact ⟨m, less, (Levels.mem_place small).mpr (.inr found)⟩
      bottom := by
        intro l c mem noExit
        rcases (Levels.mem_place small).mp mem with ⟨rfl, rfl⟩ | earlier
        · exact bottom noExit
        · exact leveled.bottom l c earlier noExit }

/-- Placing a block that is marked. -/
theorem Leveled.grows_place {start : Levels} (leveled : Leveled h root rank lv)
    (ranked : Ranked h root rank) (bound : level ≤ rank b) (fresh : b ∉ start.marked)
    (marked : b ∈ lv.marked) (grows : { start with marked := b :: start.marked }.Grows lv) :
    start.Grows (lv.place b level) := by
  have small : level < lv.lists.size := by
    have := ranked.small b
    rw [leveled.sizeLists]
    omega
  have kept : ∀ c, lv.Placed c → (lv.place b level).Placed c := by
    rintro c ⟨l, mem⟩
    exact ⟨l, (Levels.mem_place small).mpr (.inr mem)⟩
  have here : (lv.place b level).Placed b := ⟨level, (Levels.mem_place small).mpr (.inl ⟨rfl, rfl⟩)⟩
  exact
    { marked := fun c mem => grows.marked (mem_cons_of_mem _ mem)
      kept := fun l c mem => (Levels.mem_place small).mpr (.inr (grows.kept l c mem))
      fresh := by
        rintro c ⟨l, mem⟩
        rcases (Levels.mem_place small).mp mem with ⟨rfl, -⟩ | earlier
        · exact .inr fresh
        · rcases grows.fresh c ⟨l, earlier⟩ with placed | unmarked
          · exact .inl placed
          · exact .inr fun old => unmarked (mem_cons_of_mem _ old)
      open_ := by
        intro c mem
        rcases grows.open_ c mem with placed | earlier
        · exact .inl (kept c placed)
        · rcases mem_cons.mp earlier with rfl | old
          · exact .inl here
          · exact .inr old }

/-- One visit of `find_levels_r`. The marked blocks that have no level yet are on the way to
the block that is visited. -/
theorem findLevelsR_leveled (graph : JumpGraph h root) (ranked : Ranked h root rank) (fuel : Nat) :
    ∀ (b : BlockId) (lv : Levels), Leveled h root rank lv →
      Reached h root b → rank b < fuel →
      (∀ m ∈ lv.marked, lv.Placed m ∨ Relation.TransGen (Leads h) m b) →
      ∃ lv', findLevelsR fuel h b lv = .ok lv' ∧ Leveled h root rank lv' ∧ lv.Grows lv' ∧
        lv'.Placed b := by
  induction fuel with
  | zero =>
    intro b lv leveled path less
    exact absurd less (Nat.not_lt_zero _)
  | succ fuel ih =>
    intro b lv leveled path less onWay
    by_cases seen : b ∈ lv.marked
    · refine ⟨lv, by rw [findLevelsR, if_pos seen], leveled, .refl lv, ?_⟩
      exact (onWay b seen).resolve_right (graph.acyclic b path)
    · have fresh : ¬ lv.Placed b := fun placed => seen (leveled.marked b placed)
      have inside := graph.inside b path
      let entered : Levels := { lv with marked := b :: lv.marked }
      have enteredLeveled : Leveled h root rank entered :=
        { leveled with
          marked := fun c placed => mem_cons_of_mem _ (leveled.marked c placed) }
      have unplaced : ∀ lv' : Levels, entered.Grows lv' → ¬ lv'.Placed b := by
        intro lv' grows placed
        rcases grows.fresh b placed with earlier | unmarked
        · exact fresh earlier
        · exact unmarked mem_cons_self
      rcases graph.ends b path with ⟨t, f, _, _, onT, onF, -⟩ | ⟨noT, noF, -⟩
      · have leadsT : Leads h b t := ⟨true, onT⟩
        have leadsF : Leads h b f := ⟨false, onF⟩
        have fallsT := ranked.falls b t path leadsT
        have fallsF := ranked.falls b f path leadsF
        -- what waits for a level below `b` is `b` itself or was waiting before
        have waiting : ∀ q lv', Leads h b q → entered.Grows lv' →
            ∀ m ∈ lv'.marked, lv'.Placed m ∨ Relation.TransGen (Leads h) m q := by
          intro q lv' leads grows m mem
          rcases grows.open_ m mem with placed | old
          · exact .inl placed
          rcases mem_cons.mp old with rfl | older
          · exact .inr (.single leads)
          rcases onWay m older with placed | way
          · exact .inl (grows.placed placed)
          · exact .inr (way.tail leads)
        obtain ⟨lv₁, ranT, leveled₁, grows₁, ⟨lt, memberT⟩⟩ := ih t entered enteredLeveled
          (path.tail leadsT) (by omega) (waiting t entered leadsT (.refl _))
        obtain ⟨lv₂, ranF, leveled₂, grows₂, ⟨lf, memberF⟩⟩ := ih f lv₁ leveled₁
          (path.tail leadsF) (by omega) (waiting f lv₁ leadsF grows₁)
        have grows := grows₁.trans grows₂
        have memberT := grows₂.kept lt t memberT
        have levelT := leveled₂.level lt t memberT
        have levelF := leveled₂.level lf f memberF
        have marked : b ∈ lv₂.marked := grows.marked mem_cons_self
        have bound : max (lv₂.level.get t) (lv₂.level.get f) + 1 ≤ rank b := by
          have := leveled₂.bound lt t memberT
          have := leveled₂.bound lf f memberF
          omega
        refine ⟨lv₂.place b (max (lv₂.level.get t) (lv₂.level.get f) + 1), ?_, ?_, ?_, ?_⟩
        · rw [findLevelsR, if_neg seen]
          simp only [onT, onF]
          change (findLevelsR fuel h t entered >>= _) = _
          rw [ranT]
          change (findLevelsR fuel h f lv₁ >>= _) = _
          rw [ranF]
          rfl
        · refine leveled₂.place ranked inside path marked (unplaced lv₂ grows) bound ?_
            fun noT => absurd (noT.symm.trans onT) nofun
          intro side q exit
          cases side with
          | true =>
            obtain rfl : t = q := Option.some.inj (onT.symm.trans exit)
            exact ⟨lt, by omega, memberT⟩
          | false =>
            obtain rfl : f = q := Option.some.inj (onF.symm.trans exit)
            exact ⟨lf, by omega, memberF⟩
        · exact leveled₂.grows_place ranked bound seen marked grows
        · refine ⟨_, (Levels.mem_place ?_).mpr (.inl ⟨rfl, rfl⟩)⟩
          have := ranked.small b
          rw [leveled₂.sizeLists]
          omega
      · refine ⟨entered.place b 0, ?_, ?_, ?_, ?_⟩
        · rw [findLevelsR, if_neg seen]
          simp only [noT]
          rfl
        · refine enteredLeveled.place ranked inside path mem_cons_self fresh
            (Nat.zero_le _) ?_ fun _ => rfl
          intro side q exit
          cases side with
          | true => exact absurd (noT.symm.trans exit) nofun
          | false => exact absurd (noF.symm.trans exit) nofun
        · exact enteredLeveled.grows_place ranked (Nat.zero_le _) seen mem_cons_self (.refl _)
        · refine ⟨0, (Levels.mem_place ?_).mpr (.inl ⟨rfl, rfl⟩)⟩
          rw [enteredLeveled.sizeLists]
          omega

theorem findLevels_leveled (graph : JumpGraph h root) (ranked : Ranked h root rank) :
    ∃ lv, findLevels h root = .ok lv ∧ Leveled h root rank lv ∧ lv.Placed root := by
  have empty : ∀ l, (Store.replicate (h.size + 1) ([] : List BlockId)).get l = [] := by
    intro l
    rw [Store.get_replicate]
    split <;> rfl
  let start : Levels := ⟨[], .replicate h.size 0, .replicate (h.size + 1) []⟩
  have unplaced : ∀ l b, b ∉ start.lists.get l := by
    intro l b
    rw [show start.lists.get l = [] from empty l]
    exact not_mem_nil
  have leveled : Leveled h root rank start :=
    { sizeLevel := by simp [start, Store.size, Store.replicate]
      sizeLists := by simp [start, Store.size, Store.replicate]
      marked := fun b placed => placed.elim fun l mem => absurd mem (unplaced l b)
      reach := fun b placed => placed.elim fun l mem => absurd mem (unplaced l b)
      level := fun l b mem => absurd mem (unplaced l b)
      bound := fun l b mem => absurd mem (unplaced l b)
      below := fun l b mem => absurd mem (unplaced l b)
      bottom := fun l b mem => absurd mem (unplaced l b) }
  have small := ranked.small root
  obtain ⟨lv, ran, leveled', -, placed⟩ := findLevelsR_leveled graph ranked (h.size + 1) root start
    leveled .refl (by omega) (forall_mem_nil _)
  exact ⟨lv, ran, leveled', placed⟩

section Order

variable {lv : Levels} (leveled : Leveled h root rank lv) (placed : lv.Placed root)

include leveled

theorem Leveled.lt_of_leads {q : BlockId} (here : lv.Placed b) (leads : Leads h b q) :
    lv.Placed q ∧ lv.level.get q < lv.level.get b := by
  obtain ⟨l, mem⟩ := here
  obtain ⟨side, exit⟩ := leads
  obtain ⟨m, less, found⟩ := leveled.below l b mem side q exit
  rw [leveled.level l b mem, leveled.level m q found]
  exact ⟨⟨m, found⟩, less⟩

include placed in
/-- Every block that can be reached has a level, at most the level of the root. -/
theorem Leveled.placed_of_reach (path : Reached h root b) :
    lv.Placed b ∧ lv.level.get b ≤ lv.level.get root := by
  induction path with
  | refl => exact ⟨placed, le_rfl⟩
  | tail _ leads ih =>
    obtain ⟨here, less⟩ := leveled.lt_of_leads ih.1 leads
    exact ⟨here, less.le.trans ih.2⟩

include placed in
theorem Leveled.mem_down_iff : b ∈ lv.down (lv.level.get root) ↔ Reached h root b := by
  rw [Levels.down, mem_flatMap]
  constructor
  · rintro ⟨l, -, mem⟩
    exact leveled.reach b ⟨l, mem⟩
  · intro path
    obtain ⟨⟨l, mem⟩, less⟩ := leveled.placed_of_reach placed path
    rw [leveled.level l b mem] at less
    exact ⟨l, by simpa [Nat.lt_succ_iff] using less, mem⟩

/-- The list of a pass goes down the levels. -/
theorem Leveled.down_sorted (maxlevel : Nat) :
    (lv.down maxlevel).Pairwise fun b c => lv.level.get c ≤ lv.level.get b := by
  rw [Levels.down, pairwise_flatMap]
  constructor
  · intro l _
    refine pairwise_of_forall_mem_list fun b here c there => ?_
    rw [leveled.level l b here, leveled.level l c there]
  · rw [pairwise_reverse]
    refine pairwise_lt_range.imp fun {l m} less b here c there => ?_
    rw [leveled.level m b here, leveled.level l c there]
    exact less.le

include placed in
/-- No block of the list leads to itself or to a block in front of it. -/
theorem Leveled.down_ordered :
    ((lv.down (lv.level.get root)).Pairwise fun b c => ¬ Leads h c b) ∧
      ∀ b ∈ lv.down (lv.level.get root), ¬ Leads h b b := by
  have less {b c : BlockId} (mem : b ∈ lv.down (lv.level.get root)) (leads : Leads h b c) :
      lv.level.get c < lv.level.get b := by
    have path := (leveled.mem_down_iff placed).mp mem
    exact (leveled.lt_of_leads (leveled.placed_of_reach placed path).1 leads).2
  refine ⟨?_, fun b mem leads => (less mem leads).false⟩
  refine (leveled.down_sorted _).imp_of_mem fun _ memberC sorted leads => ?_
  exact absurd (less memberC leads) (Nat.not_lt.mpr sorted)

/-- The list of a pass that goes up the levels. -/
theorem Leveled.up_sorted (maxlevel : Nat) :
    (lv.up maxlevel).Pairwise fun b c => lv.level.get b ≤ lv.level.get c := by
  rw [Levels.up, pairwise_flatMap]
  constructor
  · intro l _
    refine pairwise_of_forall_mem_list fun b here c there => ?_
    rw [leveled.level l b here, leveled.level l c there]
  · refine (pairwise_lt_range' (s := 1)).imp fun {l m} less b here c there => ?_
    rw [leveled.level l b here, leveled.level m c there]
    exact less.le

include placed in
/-- A block with an exit is in that list. -/
theorem Leveled.mem_up_of_leads {q : BlockId} (path : Reached h root b)
    (leads : Leads h b q) : b ∈ lv.up (lv.level.get root) := by
  obtain ⟨here, most⟩ := leveled.placed_of_reach placed path
  have least := (leveled.lt_of_leads here leads).2
  obtain ⟨l, mem⟩ := here
  rw [leveled.level l b mem] at most least
  rw [Levels.up, mem_flatMap]
  exact ⟨l, by rw [mem_range'_1]; omega, mem⟩

/-- What goes up the levels leaves the returns out. -/
theorem Leveled.mem_up {maxlevel : Nat} (mem : b ∈ lv.up maxlevel) :
    Reached h root b ∧ (h.get b).jt ≠ none := by
  rw [Levels.up, mem_flatMap] at mem
  obtain ⟨l, range, mem⟩ := mem
  rw [mem_range'_1] at range
  refine ⟨leveled.reach b ⟨l, mem⟩, fun noExit => ?_⟩
  have := leveled.bottom l b mem noExit
  omega

end Order

/-! ## Marks -/

theorem makeMarks_numbered (graph : JumpGraph h root) (ranked : Ranked h root rank)
    (fuel : Nat) : ∀ (p : BlockId) (marked : List BlockId),
      Reached h root p → rank p < fuel →
      ∃ marked', makeMarks fuel h (some p) marked = .ok marked' ∧
        Numbered h root (some p) marked marked' := by
  induction fuel with
  | zero =>
    intro p marked path less
    exact absurd less (Nat.not_lt_zero _)
  | succ fuel ih =>
    intro p marked path less
    rw [makeMarks]
    by_cases seen : p ∈ marked
    · rw [if_pos seen]
      refine ⟨marked, rfl, .refl _ _ ?_⟩
      rintro q ⟨⟩
      exact seen
    have entered (b : BlockId) : b ∈ p :: marked ↔ b ∈ marked ∨ b = p := by
      rw [mem_cons, or_comm]
    have nodup (before : marked.Nodup) : (p :: marked).Nodup := nodup_cons.mpr ⟨seen, before⟩
    rw [if_neg seen]
    rcases graph.ends p path with ⟨t, f, cond, src, onT, onF, decoded⟩ | ⟨noT, noF, ret⟩
    · have notRet : bpfClass (h.get p).s.code ≠ bpfRet := by
        rw [← decode_eq_some_iff.mp decoded]
        cases cond <;> cases src <;> decide
      have leadsT : Leads h p t := ⟨true, onT⟩
      have leadsF : Leads h p f := ⟨false, onF⟩
      have fallsT := ranked.falls p t path leadsT
      have fallsF := ranked.falls p f path leadsF
      obtain ⟨middle, ranT, onTrue⟩ := ih t (p :: marked) (path.tail leadsT) (by omega)
      obtain ⟨last, ranF, onFalse⟩ := ih f middle (path.tail leadsF) (by omega)
      refine ⟨last, ?_, .block path entered nodup (onT ▸ onTrue) (onF ▸ onFalse)⟩
      rw [if_neg notRet, onT, onF, ranT]
      exact ranF
    · rw [if_pos ret]
      refine ⟨p :: marked, rfl, .block path entered nodup (.refl _ _ ?_) (.refl _ _ ?_)⟩
      · rw [noT]
        nofun
      · rw [noF]
        nofun

/-- The blocks that `make_marks` marks are those that can be reached. -/
theorem makeMarks_covers (graph : JumpGraph h root) (ranked : Ranked h root rank) :
    ∃ marked, makeMarks (h.size + 1) h (some root) [] = .ok marked ∧ Covers h root marked := by
  have small := ranked.small root
  obtain ⟨marked, ran, numbered⟩ := makeMarks_numbered graph ranked (h.size + 1) root [] .refl
    (by omega)
  exact ⟨marked, ran, numbered.covers⟩

end Traversal

end Libpcap.Optimize
