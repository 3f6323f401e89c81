/-
# Dominators and closures

`find_dom`, `find_edom` and `find_closure` go over the levels of a flow graph once, from the top.
A block or an edge dominates another unless a path avoids it, and "a path avoids it" is a fact
that flows along the edges and is killed there; the closure of a block collects the blocks that
lead to it. No block leads back to a block in front, so one sweep makes the sets exact.
-/

import Libpcap.Optimize.Execution
import Libpcap.Optimize.Traversal
import Libpcap.Semantics.Dataflow

namespace Libpcap.Optimize

open Libpcap.Bpf Libpcap.Gencode Libpcap.Semantics

variable {b : BlockId} {e : EdgeSets}

variable {h : Heap} {root : BlockId} {blocks : List BlockId}

/-- A block lies on every path from the root to another one. -/
def Dominates (h : Heap) (root c b : BlockId) : Prop :=
  ∀ path, Path (Leads h) root b path → c ∈ path

/-- An edge ends where another one starts. -/
def Follows (h : Heap) (e e' : Exit) : Prop := h.exit e.1 e.2 = some e'.1

/-- An edge lies on every path that starts at the root and ends by traversing another one. -/
def EdgeDominates (h : Heap) (root : BlockId) (e ep : Exit) : Prop :=
  ∀ first path, first.1 = root → Path (Follows h) first ep path → e ∈ path

theorem idxOf_inj {c : BlockId} (mem : c ∈ blocks) : blocks.idxOf b = blocks.idxOf c ↔ b = c := by
  refine ⟨fun same => ?_, fun same => same ▸ rfl⟩
  exact ((List.idxOf_inj mem).mp same.symm).symm

/-! ## Sets of blocks -/

section Spread

variable {combine : Bits → Bits → Bits} {sets : Store Bits} {d : BlockId}

theorem size_spread : (spread combine h blocks sets d).size = sets.size := by
  rw [spread]
  split
  · simp [Store.set]
  · simp [Store.set]

/-- What one turn does to the set of each block. -/
theorem get_spread (combine : Bits → Bits → Bits) (blocks : List BlockId)
    (idem : ∀ x y, combine (combine x y) y = combine x y)
    (sized : sets.size = h.size) (inside : d < h.size) (ends : EndOk h d)
    (next : ∀ q, Leads h d q → q < h.size) (noLoop : ¬ Leads h d d) :
    (spread combine h blocks sets d).get d = (sets.get d).insert (blocks.idxOf d) ∧
      ∀ b, b ≠ d →
        (Leads h d b → (spread combine h blocks sets d).get b =
          combine (sets.get b) ((sets.get d).insert (blocks.idxOf d))) ∧
        (¬ Leads h d b → (spread combine h blocks sets d).get b = sets.get b) := by
  let here := (sets.get d).insert (blocks.idxOf d)
  have own (b : BlockId) : (sets.set d here).get b = if b = d then here else sets.get b :=
    sets.get_modify _ (sized ▸ inside) b
  rcases ends with ⟨t, f, _, _, onT, onF, -⟩ | ⟨noT, noF, -⟩
  · have leads_iff (b : BlockId) : Leads h d b ↔ b = t ∨ b = f := by
      constructor
      · rintro ⟨side, exit⟩
        cases side with
        | true => exact .inl (Option.some.inj (exit.symm.trans onT))
        | false => exact .inr (Option.some.inj (exit.symm.trans onF))
      · rintro (rfl | rfl)
        · exact ⟨true, onT⟩
        · exact ⟨false, onF⟩
    have size : (sets.set d here).size = h.size := (sets.size_modify _ _).trans sized
    have get (b : BlockId) : (spread combine h blocks sets d).get b =
        if b = t ∨ b = f then combine ((sets.set d here).get b) here
        else (sets.set d here).get b := by
      simp only [spread, onT, onF]
      exact Store.get_modify_modify _ (fun cell => idem cell here)
        (size.symm ▸ next t ⟨true, onT⟩) (size.symm ▸ next f ⟨false, onF⟩) b
    refine ⟨?_, fun b other => ⟨fun leads => ?_, fun leads => ?_⟩⟩
    · rw [get, if_neg ((leads_iff d).not.mp noLoop), own, if_pos rfl]
    · rw [get, if_pos ((leads_iff b).mp leads), own, if_neg other]
    · rw [get, if_neg ((leads_iff b).not.mp leads), own, if_neg other]
  · have noLeads (b : BlockId) : ¬ Leads h d b := by
      rintro ⟨side, exit⟩
      cases side with
      | true => exact absurd (noT.symm.trans exit) nofun
      | false => exact absurd (noF.symm.trans exit) nofun
    simp only [spread, noT, noF]
    refine ⟨?_, fun b other => ⟨fun leads => absurd leads (noLeads b), fun _ => ?_⟩⟩
    · exact (own d).trans (if_pos rfl)
    · exact (own b).trans (if_neg other)

end Spread

section Turns

variable (blocks) (k : Nat) {sets : Store Bits} {d : BlockId} (sized : sets.size = h.size)
  (inside : d < h.size) (ends : EndOk h d) (next : ∀ q, Leads h d q → q < h.size)
  (noLoop : ¬ Leads h d d)

include sized inside ends next noLoop

/-- A turn of `find_dom` hands on that the block with a number is avoided. -/
theorem pushes_dom :
    Pushes (Leads h) (fun _ => False) (fun b => blocks.idxOf b = k) (fun s b => ¬ (s.get b).mem k)
      sets (spread (· &&& ·) h blocks sets d) d := by
  have idem (x y : Bits) : x &&& y &&& y = x &&& y := by rw [Nat.and_assoc, Nat.and_self]
  obtain ⟨atD, elsewhere⟩ := get_spread (· &&& ·) blocks idem sized inside ends next noLoop
  have here : ¬ ((sets.get d).insert (blocks.idxOf d)).mem k ↔
      Behind (fun _ => False) (fun b => blocks.idxOf b = k) (fun s b => ¬ (s.get b).mem k)
        sets d := by
    rw [Bits.mem_insert, not_or, Behind, false_or, eq_comm, and_comm]
  refine ⟨(not_congr (by rw [atD])).trans here, fun b other => ?_⟩
  by_cases leads : Leads h d b
  · simp only [(elsewhere b other).1 leads, Bits.mem_and, not_and_or, here, leads, true_and]
  · simp only [(elsewhere b other).2 leads, leads, false_and, or_false]

/-- A turn of `find_closure` hands on the blocks that lead here. -/
theorem pushes_closure :
    Pushes (Leads h) (fun b => blocks.idxOf b = k) (fun _ => False) (fun s b => (s.get b).mem k)
      sets (spread (· ||| ·) h blocks sets d) d := by
  have idem (x y : Bits) : (x ||| y) ||| y = x ||| y := by rw [Nat.or_assoc, Nat.or_self]
  obtain ⟨atD, elsewhere⟩ := get_spread (· ||| ·) blocks idem sized inside ends next noLoop
  have here : ((sets.get d).insert (blocks.idxOf d)).mem k ↔
      Behind (fun b => blocks.idxOf b = k) (fun _ => False) (fun s b => (s.get b).mem k)
        sets d := by
    rw [Bits.mem_insert, Behind, not_false_eq_true, and_true, eq_comm]
  refine ⟨(iff_of_eq (congrArg (Bits.mem · k = true) atD)).trans here, fun b other => ?_⟩
  by_cases leads : Leads h d b
  · simp only [(elsewhere b other).1 leads, Bits.mem_or, here, leads, true_and]
  · simp only [(elsewhere b other).2 leads, leads, false_and, or_false]

end Turns

/-! ## Sets of edges -/

theorem edgeId_inj {e e' : Exit} (mem : e.1 ∈ blocks) (mem' : e'.1 ∈ blocks) :
    edgeId blocks e = edgeId blocks e' ↔ e = e' := by
  refine ⟨fun same => ?_, fun same => same ▸ rfl⟩
  obtain ⟨b, side⟩ := e
  obtain ⟨b', side'⟩ := e'
  have less : blocks.idxOf b < blocks.length := List.idxOf_lt_length_iff.mpr mem
  have less' : blocks.idxOf b' < blocks.length := List.idxOf_lt_length_iff.mpr mem'
  have sameBlock : blocks.idxOf b = blocks.idxOf b' ∧ side = side' := by
    cases side <;> cases side' <;> simp [edgeId] at same ⊢ <;> omega
  rw [(idxOf_inj mem').mp sameBlock.1, sameBlock.2]

/-- There is a set for the edges of each of `n` blocks. -/
def EdgeSets.Sized (e : EdgeSets) (n : Nat) : Prop := e.et.size = n ∧ e.ef.size = n

theorem EdgeSets.Sized.modify {n : Nat} (sized : e.Sized n) (ep : Exit) (change : Bits → Bits) :
    (e.modify ep change).Sized n := by
  rw [EdgeSets.modify]
  split
  · exact ⟨(e.et.size_modify _ _).trans sized.1, sized.2⟩
  · exact ⟨sized.1, (e.ef.size_modify _ _).trans sized.2⟩

theorem EdgeSets.get_modify {n : Nat} (sized : e.Sized n) {ep : Exit} (inside : ep.1 < n)
    (change : Bits → Bits) (other : Exit) :
    (e.modify ep change).get other = if other = ep then change (e.get ep) else e.get other := by
  obtain ⟨b, side⟩ := ep
  obtain ⟨c, side'⟩ := other
  cases side <;> cases side' <;>
    simp [EdgeSets.modify, EdgeSets.get, e.et.get_modify change (sized.1 ▸ inside),
      e.ef.get_modify change (sized.2 ▸ inside)]

/-- What `propedom` does to the set of each edge. -/
theorem get_propedom (blocks : List BlockId) {d : Exit} (sized : e.Sized h.size)
    (inside : d.1 < h.size) (next : ∀ q, h.exit d.1 d.2 = some q → q < h.size)
    (noLoop : ¬ Follows h d d) :
    (propedom h blocks e d).Sized h.size ∧
      (propedom h blocks e d).get d = (e.get d).insert (edgeId blocks d) ∧
      ∀ ep, ep ≠ d →
        (Follows h d ep → (propedom h blocks e d).get ep =
          e.get ep &&& (e.get d).insert (edgeId blocks d)) ∧
        (¬ Follows h d ep → (propedom h blocks e d).get ep = e.get ep) := by
  let own := e.modify d (·.insert (edgeId blocks d))
  have sizedOwn : own.Sized h.size := sized.modify _ _
  have getOwn (ep : Exit) : own.get ep =
      if ep = d then (e.get d).insert (edgeId blocks d) else e.get ep :=
    EdgeSets.get_modify sized inside _ ep
  have atD : own.get d = (e.get d).insert (edgeId blocks d) := (getOwn d).trans (if_pos rfl)
  cases exit : h.exit d.1 d.2 with
  | none =>
    have result : propedom h blocks e d = own := by
      simp only [propedom, exit]
      rfl
    rw [result]
    refine ⟨sizedOwn, atD, fun ep other => ⟨fun follows => ?_, fun _ => ?_⟩⟩
    · exact absurd (exit.symm.trans follows) nofun
    · exact (getOwn ep).trans (if_neg other)
  | some q =>
    have insideQ : q < h.size := next q exit
    have follows_iff (ep : Exit) : Follows h d ep ↔ ep.1 = q :=
      ⟨fun follows => Option.some.inj (follows.symm.trans exit),
        fun same => exit.trans (congrArg some same.symm)⟩
    have sizedT := sizedOwn.modify (q, true) (· &&& own.get d)
    have result : propedom h blocks e d =
        (own.modify (q, true) (· &&& own.get d)).modify (q, false) (· &&& own.get d) := by
      simp only [propedom, exit]
      rfl
    have get (ep : Exit) : (propedom h blocks e d).get ep =
        if ep.1 = q then own.get ep &&& own.get d else own.get ep := by
      obtain ⟨b, side⟩ := ep
      rw [result, EdgeSets.get_modify sizedT insideQ, EdgeSets.get_modify sizedOwn insideQ,
        EdgeSets.get_modify sizedOwn insideQ]
      by_cases same : b = q
      · subst same
        cases side <;> simp
      · simp [same]
    refine ⟨result ▸ sizedT.modify _ _, ?_, fun ep other => ⟨fun follows => ?_, fun follows => ?_⟩⟩
    · rw [get, if_neg ((follows_iff d).not.mp noLoop), atD]
    · rw [get, if_pos ((follows_iff ep).mp follows), getOwn, if_neg other, atD]
    · rw [get, if_neg ((follows_iff ep).not.mp follows), getOwn, if_neg other]

/-- A turn of `find_edom` hands on that the edge with a number is avoided. -/
theorem pushes_propedom (blocks : List BlockId) (k : Nat) {d : Exit} (sized : e.Sized h.size)
    (inside : d.1 < h.size) (next : ∀ q, h.exit d.1 d.2 = some q → q < h.size)
    (noLoop : ¬ Follows h d d) :
    (propedom h blocks e d).Sized h.size ∧
      Pushes (Follows h) (fun _ => False) (fun ep => edgeId blocks ep = k)
        (fun s ep => ¬ (s.get ep).mem k) e (propedom h blocks e d) d := by
  obtain ⟨sized', atD, elsewhere⟩ := get_propedom blocks sized inside next noLoop
  have here : ¬ ((e.get d).insert (edgeId blocks d)).mem k ↔
      Behind (fun _ => False) (fun ep => edgeId blocks ep = k)
        (fun s ep => ¬ (EdgeSets.get s ep).mem k) e d := by
    rw [Bits.mem_insert, not_or, Behind, false_or, eq_comm, and_comm]
  refine ⟨sized', (not_congr (by rw [atD])).trans here, fun ep other => ?_⟩
  by_cases follows : Follows h d ep
  · simp only [(elsewhere ep other).1 follows, Bits.mem_and, not_and_or, here, follows, true_and]
  · simp [(elsewhere ep other).2 follows, follows]

/-! ## Exactness -/

/-- Along the edges of a graph, the blocks are left behind one after another. -/
theorem leads_of_follows {e ep : Exit} (path : Relation.ReflTransGen (Follows h) e ep) :
    Reached h e.1 ep.1 :=
  path.lift Prod.fst fun _ _ follows => ⟨_, follows⟩

/-- Every edge of a block that can be reached ends a path of edges. -/
theorem exists_edgePath (path : Reached h root b) (side : Bool) :
    ∃ first edges, first.1 = root ∧ Path (Follows h) first (b, side) edges := by
  induction path generalizing side with
  | refl => exact ⟨(root, side), _, rfl, .here⟩
  | tail _ leads ih =>
    obtain ⟨side', exit⟩ := leads
    obtain ⟨first, edges, begins, along⟩ := ih side'
    exact ⟨first, _, begins, along.tail exit⟩

section Exact

variable {rank : BlockId → Nat} (graph : JumpGraph h root) {lv : Levels}
  (leveled : Leveled h root rank lv) (placed : lv.Placed root)
  (numbered : ∀ b, Reached h root b → b ∈ blocks)

include graph leveled placed

/-- One sweep over the sets of the blocks. -/
theorem foldl_spread (sets : Store Bits) {combine : Bits → Bits → Bits} {gen kill : BlockId → Prop}
    {holds : Store Bits → BlockId → Prop} (pushes : ∀ {sets : Store Bits} {d : BlockId}, sets.size =
      h.size → d < h.size → EndOk h d → (∀ q, Leads h d q → q < h.size) → ¬ Leads h d d → Pushes
      (Leads h) gen kill holds sets (spread combine h blocks sets d) d) (sized : sets.size = h.size)
    (path : Reached h root b) :
    holds ((lv.down (lv.level.get root)).foldl (spread combine h blocks) sets) b ↔
      Flows (Within (Leads h) (lv.down (lv.level.get root))) (holds sets) gen kill b := by
  obtain ⟨sorted, noLoop⟩ := leveled.down_ordered placed
  refine foldl_pushes (fun sets => sets.size = h.size) sets sorted noLoop ?_ sized
    ((leveled.mem_down_iff placed).mpr path)
  intro sets d mem sized
  have pathD := (leveled.mem_down_iff placed).mp mem
  refine ⟨size_spread.trans sized, pushes sized (graph.inside d pathD) (graph.ends d pathD) ?_
    (noLoop d mem)⟩
  exact fun q leads => graph.inside q (pathD.tail leads)

include numbered

theorem mem_findDom (path : Reached h root b) (k : Nat) :
    ((findDom h blocks root (lv.down (lv.level.get root))).get b).mem k ↔
      ∃ c, c ∈ blocks ∧ blocks.idxOf c = k ∧ Dominates h root c b := by
  let all := Store.replicate h.size (Bits.full blocks.length)
  have size : all.size = h.size := by simp [all, Store.size, Store.replicate]
  have initial (c : BlockId) : (all.set root 0).get c = if c = root then 0 else all.get c :=
    all.get_modify _ (size.symm ▸ graph.inside root .refl) c
  have swept := foldl_spread graph leveled placed (all.set root 0) (pushes_dom blocks k)
    ((all.size_modify _ _).trans size) path
  refine (collected_iff (· = root) (· ∈ blocks) swept ?_ ?_ ?_ ?_ ?_ ?_).trans ?_
  · rintro a rfl
    rw [initial, if_pos rfl]
    simp [Bits.mem]
  · rintro a mem starts ⟨c, memberC, rfl⟩
    by_contra other
    rw [initial, if_neg other, Store.get_replicate, if_pos, Bits.mem_full] at starts
    · exact starts (List.idxOf_lt_length_iff.mpr memberC)
    · exact graph.inside a ((leveled.mem_down_iff placed).mp mem)
  · rintro a c rfl reaches
    exact (leveled.mem_down_iff placed).mpr reaches
  · exact fun c mem => numbered c ((leveled.mem_down_iff placed).mp mem)
  · exact fun c d _ memberD same => (idxOf_inj memberD).mp same
  · obtain ⟨blocks, along⟩ := exists_path path
    exact ⟨root, blocks, rfl, along⟩
  · refine exists_congr fun c => and_congr_right fun _ => and_congr_right fun _ => ?_
    exact ⟨fun all path => all root path rfl, fun dominates _ path same => same ▸ dominates path⟩

theorem mem_findClosure (path : Reached h root b) (k : Nat) :
    ((findClosure h blocks (lv.down (lv.level.get root))).get b).mem k ↔
      ∃ c, c ∈ blocks ∧ blocks.idxOf c = k ∧ Reached h root c ∧
        Reached h c b := by
  have swept := foldl_spread graph leveled placed (.replicate h.size 0) (pushes_closure blocks k)
    (by simp [Store.size, Store.replicate]) path
  have empty (c : BlockId) : ¬ ((Store.replicate h.size (0 : Bits)).get c).mem k := by
    rw [Store.get_replicate]
    split <;> simp [Bits.mem]
  refine (swept.trans (flows_iff_reaches empty)).trans ⟨?_, ?_⟩
  · rintro ⟨c, rfl, reaches⟩
    have pathC : Reached h root c := by
      rcases Relation.ReflTransGen.cases_head reaches with rfl | ⟨d, edge, -⟩
      · exact path
      · exact (leveled.mem_down_iff placed).mp edge.1
    exact ⟨c, numbered c pathC, rfl, pathC, reaches.lift id fun _ _ edge => edge.2⟩
  · rintro ⟨c, -, rfl, pathC, reaches⟩
    refine ⟨c, rfl, ?_⟩
    clear swept path
    induction reaches with
    | refl => exact .refl
    | tail front leads ih =>
      exact ih.tail ⟨(leveled.mem_down_iff placed).mpr (pathC.trans front), leads⟩

theorem mem_findEdom (ep : Exit) (path : Reached h root ep.1) (k : Nat) :
    ((findEdom h blocks root (lv.down (lv.level.get root))).get ep).mem k ↔
      ∃ e : Exit, e.1 ∈ blocks ∧ edgeId blocks e = k ∧ EdgeDominates h root e ep := by
  let all := Store.replicate h.size (Bits.full (2 * blocks.length))
  have size : all.size = h.size := by simp [all, Store.size, Store.replicate]
  have initial (e : Exit) : (EdgeSets.mk (all.set root 0) (all.set root 0)).get e =
      if e.1 = root then 0 else all.get e.1 := by
    rw [EdgeSets.get, ite_self]
    exact all.get_modify _ (size.symm ▸ graph.inside root .refl) e.1
  let edges := (lv.down (lv.level.get root)).flatMap fun b => [(b, true), (b, false)]
  have mem_edges (e : Exit) : e ∈ edges ↔ Reached h root e.1 := by
    obtain ⟨b, side⟩ := e
    rw [← leveled.mem_down_iff placed, List.mem_flatMap]
    cases side <;> simp
  obtain ⟨sorted, noLoop⟩ := leveled.down_ordered placed
  have noLoopE (e : Exit) (mem : e ∈ edges) : ¬ Follows h e e := fun follows =>
    noLoop e.1 ((leveled.mem_down_iff placed).mpr ((mem_edges e).mp mem)) ⟨e.2, follows⟩
  have sortedE : edges.Pairwise fun e e' => ¬ Follows h e' e := by
    rw [List.pairwise_flatMap]
    constructor
    · intro b mem
      simpa using fun follows : Follows h (b, false) (b, true) =>
        noLoop b mem ⟨false, follows⟩
    · refine sorted.imp fun {b c} noLead e memberE e' memberE' follows => noLead ⟨e'.2, ?_⟩
      have begins : e.1 = b := by
        rcases List.mem_pair.mp memberE with rfl | rfl <;> rfl
      have begins' : e'.1 = c := by
        rcases List.mem_pair.mp memberE' with rfl | rfl <;> rfl
      rw [← begins, ← begins']
      exact follows
  have swept := foldl_pushes (fun e => EdgeSets.Sized e h.size) ⟨all.set root 0, all.set root 0⟩
    sortedE noLoopE
    (fun e d mem sized => by
      have pathD := (mem_edges d).mp mem
      exact pushes_propedom blocks k sized (graph.inside d.1 pathD)
        (fun q exit => graph.inside q (pathD.tail ⟨d.2, exit⟩)) (noLoopE d mem))
    ⟨(all.size_modify _ _).trans size, (all.size_modify _ _).trans size⟩ ((mem_edges ep).mpr path)
  rw [List.foldl_flatMap] at swept
  refine (collected_iff (fun e => e.1 = root) (fun e => e.1 ∈ blocks) swept ?_ ?_ ?_ ?_ ?_ ?_).trans
    ?_
  · intro e begins
    rw [initial, if_pos begins]
    simp [Bits.mem]
  · rintro e mem starts ⟨c, memberC, rfl⟩
    by_contra other
    rw [initial, if_neg other, Store.get_replicate, if_pos, Bits.mem_full] at starts
    · have := List.idxOf_lt_length_iff.mpr memberC
      rw [edgeId] at starts
      split at starts <;> omega
    · exact graph.inside e.1 ((mem_edges e).mp mem)
  · rintro e e' begins reaches
    exact (mem_edges e').mpr (begins ▸ leads_of_follows reaches)
  · exact fun e mem => numbered e.1 ((mem_edges e).mp mem)
  · exact fun e e' mem mem' same => (edgeId_inj mem mem').mp same
  · exact exists_edgePath path ep.2
  · rfl

end Exact

/-- **The analyses of the graph are exact.** The levels of a flow graph can be computed, and
then the dominators of a block are the blocks on every path from the root to it, its closure are
the blocks from which it can be reached, and the dominators of an edge are the edges on every
path that ends by traversing it. -/
theorem analyses_exact (graph : JumpGraph h root)
    (numbered : ∀ b, Reached h root b → b ∈ blocks) :
    ∃ lv, findLevels h root = .ok lv ∧
      ∀ b, Reached h root b → ∀ k,
        (((findDom h blocks root (lv.down (lv.level.get root))).get b).mem k ↔
          ∃ c, c ∈ blocks ∧ blocks.idxOf c = k ∧ Dominates h root c b) ∧
        (((findClosure h blocks (lv.down (lv.level.get root))).get b).mem k ↔
          ∃ c, c ∈ blocks ∧ blocks.idxOf c = k ∧ Reached h root c ∧
            Relation.ReflTransGen (Leads h) c b) ∧
        ∀ side,
          ((findEdom h blocks root (lv.down (lv.level.get root))).get (b, side)).mem k ↔
            ∃ e : Exit, e.1 ∈ blocks ∧ edgeId blocks e = k ∧ EdgeDominates h root e (b, side) := by
  obtain ⟨rank, ranked⟩ := graph.exists_ranked
  obtain ⟨lv, ran, leveled, placed⟩ := findLevels_leveled graph ranked
  refine ⟨lv, ran, fun b path k => ⟨?_, ?_, fun side => ?_⟩⟩
  · exact mem_findDom graph leveled placed numbered path k
  · exact mem_findClosure graph leveled placed numbered path k
  · exact mem_findEdom graph leveled placed numbered (b, side) path k

/-- Of the two tests of `farApart`, only the first dominates the return behind both. -/
theorem analyses_exact_farApart : ∃ lv, findLevels farApart 0 = .ok lv ∧
    (findDom farApart (List.range 4) 0 (lv.down (lv.level.get 0))).get 2 = 0b101 ∧
    Dominates farApart 0 0 2 ∧ ¬ Dominates farApart 0 1 2 := by
  obtain ⟨lv, ran, exact⟩ := analyses_exact farApart_flowGraph.jumps
    fun b path => List.mem_range.mpr (farApart_flowGraph.inside b path)
  have sets : ((findLevels farApart 0).toOption.map fun lv =>
      (findDom farApart (List.range 4) 0 (lv.down (lv.level.get 0))).get 2) = some 0b101 := by
    decide +kernel
  rw [ran] at sets
  have set := Option.some.inj sets
  have dominators (k : Nat) : (0b101 : Bits).mem k ↔
      ∃ c, c ∈ List.range 4 ∧ (List.range 4).idxOf c = k ∧ Dominates farApart 0 c 2 := by
    rw [← set]
    exact (exact 2 (.single ⟨true, rfl⟩) k).1
  refine ⟨lv, ran, set, ?_, fun dominates => ?_⟩
  · obtain ⟨c, known, first, dominates⟩ := (dominators 0).mp (by decide)
    have isFirst : c = 0 := (List.idxOf_inj known).mp (first.trans rfl)
    exact isFirst ▸ dominates
  · exact absurd ((dominators 1).mpr ⟨1, by decide, rfl, dominates⟩) (by decide)

/-- **The levels.** A block that can be reached is in the list of its level and in no other, and
the level is the least rank of the blocks. -/
theorem findLevels_least (graph : JumpGraph h root) :
    ∃ lv, findLevels h root = .ok lv ∧
      (∀ l b, b ∈ lv.lists.get l ↔ Reached h root b ∧ lv.level.get b = l) ∧
      (∀ b q, Reached h root b → Leads h b q → lv.level.get q < lv.level.get b) ∧
      ∀ rank, Ranked h root rank → ∀ b, Reached h root b → lv.level.get b ≤ rank b := by
  obtain ⟨rank, ranked⟩ := graph.exists_ranked
  obtain ⟨lv, ran, leveled, placed⟩ := findLevels_leveled graph ranked
  have listed {b : BlockId} (path : Reached h root b) : b ∈ lv.lists.get (lv.level.get b) := by
    obtain ⟨l, mem⟩ := (leveled.placed_of_reach placed path).1
    rwa [leveled.level l b mem]
  refine ⟨lv, ran, fun l b => ⟨fun mem => ?_, ?_⟩, ?_, ?_⟩
  · exact ⟨leveled.reach b ⟨l, mem⟩, leveled.level l b mem⟩
  · rintro ⟨path, rfl⟩
    exact listed path
  · intro b q path leads
    exact (leveled.lt_of_leads ⟨_, listed path⟩ leads).2
  · intro rank' ranked' b path
    -- the levels are the same, whichever rank they are compared with
    obtain ⟨lv', ran', leveled', -⟩ := findLevels_leveled graph ranked'
    obtain rfl := Except.ok.inj (ran.symm.trans ran')
    exact leveled'.bound _ b (listed path)

theorem findLevels_least_farApart : ∃ lv, findLevels farApart 0 = .ok lv ∧
    lv.level.get 2 < lv.level.get 1 ∧ lv.level.get 1 < lv.level.get 0 := by
  obtain ⟨lv, ran, -, falls, -⟩ := findLevels_least farApart_flowGraph.jumps
  have second : Leads farApart 0 1 := ⟨false, rfl⟩
  exact ⟨lv, ran, falls 1 2 (.single second) ⟨true, rfl⟩, falls 0 1 .refl second⟩

end Libpcap.Optimize
