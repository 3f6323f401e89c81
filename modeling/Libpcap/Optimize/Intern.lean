/-
# Equal blocks become one

A turn of `intern_blocks` links each block that is alive to a later one that is equal, and leads
every exit to a linked block to the block it is linked to. Linked blocks are then no longer
reached, so that every turn that changes something leaves fewer blocks, and equal blocks do the
same, so that a turn does not change what the graph returns.
-/

import Libpcap.Optimize.Liveness

namespace Libpcap.Optimize

open Libpcap.Bpf Libpcap.Gencode Libpcap.Semantics List

variable {b root : BlockId} {h : Heap} {blocks : List BlockId}

/-! ## Equal blocks -/

/-- What `eq_blk` compares: the end of a block, its exits and its statements without `NOP`. -/
def blockKey (b : Block) : Code × Word × Option BlockId × Option BlockId × List (Code × Word) :=
  (b.s.code, b.s.k, b.jt, b.jf, (b.stmts.filter (·.code ≠ nop)).map fun s => (s.code, s.k))

theorem eqBlk_iff {b c : Block} : eqBlk b c = true ↔ blockKey b = blockKey c := by
  simp only [eqBlk, eqSlist, blockKey, Bool.and_eq_true, beq_iff_eq, Prod.mk.injEq, and_assoc]

/-- Statements are executed by their codes and constants. -/
theorem execStmts_congr (p : Packet) {stmts stmts' : List Stmt}
    (same : stmts.map (fun s => (s.code, s.k)) = stmts'.map fun s => (s.code, s.k)) (m : Machine) :
    execStmts p stmts m = execStmts p stmts' m := by
  induction stmts generalizing stmts' m with
  | nil =>
    rw [map_nil, eq_comm, map_eq_nil_iff] at same
    rw [same]
  | cons s rest ih =>
    cases stmts' with
    | nil => cases same
    | cons s' rest' =>
      rw [map_cons, map_cons, cons.injEq, Prod.mk.injEq] at same
      obtain ⟨⟨code, k⟩, later⟩ := same
      simp only [execStmts, code, k, ih later]

section Equal

variable {h : Heap} {b c : BlockId} (equal : blockKey (h.get b) = blockKey (h.get c))

include equal

theorem exit_of_blockKey (side : Bool) : h.exit b side = h.exit c side := by
  simp only [blockKey, Prod.mk.injEq] at equal
  cases side with
  | true => exact equal.2.2.1
  | false => exact equal.2.2.2.1

theorem leads_of_blockKey (q : BlockId) : Leads h b q ↔ Leads h c q := by
  simp only [Leads, exit_of_blockKey equal]

/-- Equal blocks make the same test. -/
theorem blockTest_of_blockKey (p : Packet) : blockTest p (h.get b) = blockTest p (h.get c) := by
  simp only [blockKey, Prod.mk.injEq] at equal
  obtain ⟨code, k, -, -, stmts⟩ := equal
  funext m
  simp only [blockTest, execLive, execStmts_congr p stmts m, code, k]

/-- A run may start at an equal block. -/
theorem stops_of_blockKey {p : Packet} {m : Machine} {result : Result} :
    (blockStep h p).Stops (b, m) result ↔ (blockStep h p).Stops (c, m) result := by
  rw [blockStep_stops_iff, blockStep_stops_iff, blockTest_of_blockKey equal]
  cases blockTest p (h.get c) m with
  | error ended => rfl
  | ok pair => simp only [afterBlock, exit_of_blockKey equal]

end Equal

/-! ## Links -/

/-- What is known about the links when the positions from `start` on have been looked at: a link
leads from a marked block to a later one that is marked, equal and not linked itself, and a block
that has an equal one behind it is linked. -/
structure Linked (h : Heap) (blocks marked : List BlockId) (start : Nat)
    (link : Store (Option BlockId)) : Prop where
  size : link.size = h.size
  later : ∀ b c, link.get b = some c → ∃ i j, start ≤ i ∧ i < j ∧ blocks[i]? = some b ∧
    blocks[j]? = some c
  alive : ∀ b c, link.get b = some c → b ∈ marked ∧ c ∈ marked
  equal : ∀ b c, link.get b = some c → blockKey (h.get b) = blockKey (h.get c)
  last : ∀ b c, link.get b = some c → link.get c = none
  complete : ∀ i j b c, start ≤ i → i < j → blocks[i]? = some b → blocks[j]? = some c →
    b ∈ marked → c ∈ marked → blockKey (h.get b) = blockKey (h.get c) → link.get b ≠ none

section Links

variable {h : Heap} {blocks marked : List BlockId} (nodup : blocks.Nodup)
  (inside : ∀ b ∈ marked, b < h.size)

include nodup inside

omit inside in
theorem index_unique {i j : Nat} (atI : blocks[i]? = some b) (atJ : blocks[j]? = some b) : i = j :=
  (getElem?_inj (List.getElem?_eq_some_iff.mp atI).1 nodup).mp (atI.trans atJ.symm)

/-- One position of the first loop. -/
theorem Linked.link {link : Store (Option BlockId)} {i : Nat}
    (linked : Linked h blocks marked (i + 1) link) (range : i < blocks.length) :
    Linked h blocks marked i (internLink h blocks marked link i) := by
  have atI : blocks[i]? = some (blocks.getD i 0) := by
    rw [getD_eq_getElem?_getD, getElem?_eq_getElem range, Option.getD_some]
  rw [internLink]
  generalize blocks.getD i 0 = b at atI
  -- without a new link, position `i` must have nothing to be linked to
  have keep (nothing : ∀ j c, i < j → blocks[j]? = some c → b ∈ marked → c ∈ marked →
      blockKey (h.get b) ≠ blockKey (h.get c)) : Linked h blocks marked i link := by
    refine { linked with
      later := fun x y found => ?_
      complete := fun k j x y least less atK atJ aliveX aliveY equal => ?_ }
    · obtain ⟨k, j, least, order⟩ := linked.later x y found
      exact ⟨k, j, Nat.le_of_succ_le least, order⟩
    · rcases Nat.eq_or_lt_of_le least with rfl | more
      · obtain rfl : b = x := Option.some.inj (atI.symm.trans atK)
        exact absurd equal (nothing j y less atJ aliveX aliveY)
      · exact linked.complete k j x y more less atK atJ aliveX aliveY equal
  by_cases alive : b ∈ marked
  swap
  · rw [if_neg alive]
    exact keep fun _ _ _ _ here => absurd here alive
  rw [if_pos alive]
  cases found : (blocks.drop (i + 1)).find? fun c =>
      decide (c ∈ marked ∧ eqBlk (h.get b) (h.get c) = true) with
  | none =>
    refine keep fun j c less atJ _ aliveC equal => ?_
    have mem : c ∈ blocks.drop (i + 1) := by
      refine mem_of_getElem? (i := j - (i + 1)) ?_
      rw [getElem?_drop]
      rwa [Nat.add_sub_cancel' less]
    have unmatched := find?_eq_none.mp found c mem
    exact unmatched (decide_eq_true ⟨aliveC, eqBlk_iff.mpr equal⟩)
  | some c =>
    have matched := find?_some found
    obtain ⟨aliveC, equal⟩ := of_decide_eq_true matched
    rw [eqBlk_iff] at equal
    obtain ⟨n, atN⟩ := mem_iff_getElem?.mp (mem_of_find?_eq_some found)
    rw [getElem?_drop] at atN
    -- the block that stands for `c`
    obtain ⟨d, target, aliveD, equalD, unlinked, l, less, atL⟩ :
        ∃ d, (link.get c).getD c = d ∧ d ∈ marked ∧
          blockKey (h.get b) = blockKey (h.get d) ∧ link.get d = none ∧
          ∃ l, i < l ∧ blocks[l]? = some d := by
      cases next : link.get c with
      | none => exact ⟨c, rfl, aliveC, equal, next, i + 1 + n, by omega, atN⟩
      | some d =>
        obtain ⟨k, l, least, less, -, atL⟩ := linked.later c d next
        exact ⟨d, rfl, (linked.alive c d next).2, equal.trans (linked.equal c d next),
          linked.last c d next, l, by omega, atL⟩
    have get (x : BlockId) : (link.set b (some d)).get x =
        if x = b then some d else link.get x :=
      link.get_modify _ (linked.size.symm ▸ inside b alive) x
    have other : d ≠ b := by
      rintro rfl
      exact less.ne (index_unique nodup atI atL)
    dsimp only
    rw [target]
    refine
      { size := (link.size_modify _ _).trans linked.size
        later := fun x y known => ?_
        alive := fun x y known => ?_
        equal := fun x y known => ?_
        last := fun x y known => ?_
        complete := fun k j x y least order atK atJ aliveX aliveY same => ?_ }
    · rw [get] at known
      split at known
      case isTrue same =>
        cases known
        exact ⟨i, l, le_rfl, less, same ▸ atI, atL⟩
      case isFalse =>
        obtain ⟨k, j, least, order⟩ := linked.later x y known
        exact ⟨k, j, Nat.le_of_succ_le least, order⟩
    · rw [get] at known
      split at known
      case isTrue same =>
        cases known
        exact ⟨same ▸ alive, aliveD⟩
      case isFalse => exact linked.alive x y known
    · rw [get] at known
      split at known
      case isTrue same =>
        cases known
        exact same ▸ equalD
      case isFalse => exact linked.equal x y known
    · have target : y ≠ b ∧ link.get y = none := by
        rw [get] at known
        split at known
        case isTrue =>
          cases known
          exact ⟨other, unlinked⟩
        case isFalse =>
          refine ⟨?_, linked.last x y known⟩
          rintro rfl
          obtain ⟨k, j, least, order, -, atJ⟩ := linked.later x y known
          have := index_unique nodup atI atJ
          omega
      rw [get, if_neg target.1]
      exact target.2
    · rw [get]
      split
      · nofun
      · rename_i different
        refine linked.complete k j x y ?_ order atK atJ aliveX aliveY same
        rcases Nat.eq_or_lt_of_le least with rfl | more
        · exact absurd (Option.some.inj (atK.symm.trans atI)) different
        · exact more

/-- The first loop. -/
theorem linked_links : Linked h blocks marked 0
    ((range (blocks.length - 1)).reverse.foldl (internLink h blocks marked)
      (.replicate h.size none)) := by
  have loop : ∀ n link, n ≤ blocks.length → Linked h blocks marked n link →
      Linked h blocks marked 0
        ((range n).reverse.foldl (internLink h blocks marked) link) := by
    intro n
    induction n with
    | zero => exact fun link _ linked => linked
    | succ n ih =>
      intro link small linked
      rw [range_succ, reverse_append, reverse_singleton, singleton_append, foldl_cons]
      exact ih _ (by omega) (linked.link nodup inside (by omega))
  have empty (b : BlockId) : (Store.replicate h.size (none : Option BlockId)).get b = none := by
    rw [Store.get_replicate]
    split <;> rfl
  refine loop (blocks.length - 1) _ (by omega)
    { size := by simp [Store.size, Store.replicate]
      later := fun b c found => absurd ((empty b).symm.trans found) nofun
      alive := fun b c found => absurd ((empty b).symm.trans found) nofun
      equal := fun b c found => absurd ((empty b).symm.trans found) nofun
      last := fun b c found => absurd ((empty b).symm.trans found) nofun
      complete := fun i j b c least less atI atJ => ?_ }
  have := (List.getElem?_eq_some_iff.mp atJ).1
  omega

end Links

/-! ## Exits -/

/-- The block that stands for a block. -/
def standIn (link : Store (Option BlockId)) (t : BlockId) : BlockId := (link.get t).getD t

/-- What the second loop has done when it has passed some blocks. -/
structure Redirected (h : Heap) (link : Store (Option BlockId)) (passed : List BlockId)
    (st : Heap × Bool) : Prop where
  same : Rewired h st.1
  exit : ∀ c side, st.1.exit c side =
    if c ∈ passed then (h.exit c side).map (standIn link) else h.exit c side
  idle : st.2 = true → st.1 = h
  found : st.2 = false → ∃ t, link.get t ≠ none

theorem inside_of_exit {t : BlockId} {side : Bool} (exit : h.exit b side = some t) :
    b < h.size := by
  by_contra outside
  have absent : h.get b = default := by
    rw [Heap.get, Store.get, getD_eq_getElem?_getD,
      getElem?_eq_none (Nat.le_of_not_lt outside), Option.getD_none]
  rw [Heap.exit, absent] at exit
  cases side <;> cases exit

/-- One exit in the second loop. -/
theorem internExit_spec (link : Store (Option BlockId)) (side : Bool) (p : BlockId) (g : Heap)
    (done : Bool) :
    Rewired g (internExit link side p (g, done)).1 ∧
      (∀ c other, (internExit link side p (g, done)).1.exit c other =
        if (c, other) = (p, side) then (g.exit p side).map (standIn link) else g.exit c other) ∧
      (internExit link side p (g, done) = (g, done) ∨
        (internExit link side p (g, done)).2 = false ∧ ∃ t, link.get t ≠ none) := by
  rw [internExit]
  cases linked : (g.exit p side).bind link.get with
  | none =>
    have unchanged : (g.exit p side).map (standIn link) = g.exit p side := by
      cases exit : g.exit p side with
      | none => rfl
      | some t =>
        rw [exit, Option.bind_some] at linked
        rw [Option.map_some, standIn, linked, Option.getD_none]
    refine ⟨.refl g, fun c other => ?_, .inl rfl⟩
    rw [unchanged]
    by_cases here : (c, other) = (p, side)
    · cases here
      rw [if_pos rfl]
    · rw [if_neg here]
  | some target =>
    obtain ⟨t, exit, linked⟩ := Option.bind_eq_some_iff.mp linked
    have inside := inside_of_exit exit
    refine ⟨rewired_setExit g inside side _, fun c other => ?_, .inr ⟨rfl, t, ?_⟩⟩
    · rw [g.exit_setExit inside, exit, Option.map_some, standIn, linked, Option.getD_some]
    · rw [linked]
      nofun

theorem Redirected.block {link : Store (Option BlockId)} {passed : List BlockId} {st : Heap × Bool}
    (redirected : Redirected h link passed st) {p : BlockId} (new : p ∉ passed) :
    Redirected h link (passed ++ [p]) (internExit link false p (internExit link true p st)) := by
  obtain ⟨g, done⟩ := st
  obtain ⟨sameT, exitT, changeT⟩ := internExit_spec link true p g done
  generalize internExit link true p (g, done) = middle at *
  obtain ⟨g', done'⟩ := middle
  obtain ⟨sameF, exitF, changeF⟩ := internExit_spec link false p g' done'
  generalize internExit link false p (g', done') = last at *
  have before (side : Bool) : g.exit p side = h.exit p side := by
    rw [redirected.exit, if_neg new]
  refine ⟨(redirected.same.trans sameT).trans sameF, fun c side => ?_, fun idle => ?_,
    fun busy => ?_⟩
  · rw [exitF, exitT, exitT]
    by_cases here : c = p
    · subst here
      rw [if_pos (mem_append_right _ (mem_singleton_self c))]
      cases side <;> simp [before]
    · have absent : c ∈ passed ++ [p] ↔ c ∈ passed := by simp [here]
      simp only [Prod.mk.injEq, here, false_and, if_false, absent]
      exact redirected.exit c side
  · rcases changeF with rfl | ⟨busy, -⟩
    · rcases changeT with equal | ⟨busy, -⟩
      · cases equal
        exact redirected.idle idle
      · exact absurd (idle.symm.trans busy) nofun
    · exact absurd (idle.symm.trans busy) nofun
  · rcases changeF with rfl | ⟨-, linked⟩
    · rcases changeT with equal | ⟨-, linked⟩
      · cases equal
        exact redirected.found busy
      · exact linked
    · exact linked

/-- The second loop. -/
theorem redirected_exits (h : Heap) (link : Store (Option BlockId)) (nodup : blocks.Nodup) :
    Redirected h link blocks
      (blocks.foldl (fun st p => internExit link false p (internExit link true p st)) (h, true)) := by
  induction blocks using reverseRecOn with
  | nil => exact ⟨.refl h, fun c side => rfl, fun _ => rfl, nofun⟩
  | append_singleton passed p ih =>
    obtain ⟨nodupPassed, -, apart⟩ := nodup_append.mp nodup
    rw [foldl_append]
    exact (ih nodupPassed).block fun mem => apart p mem p (mem_singleton_self p) rfl

/-! ## One turn -/

section Turn

variable {h : Heap} {root : BlockId} {blocks marked : List BlockId} {link : Store (Option BlockId)}
  {st : Heap × Bool} (graph : JumpGraph h root) (nodup : blocks.Nodup)
  (covered : ∀ b, Reached h root b → b ∈ blocks)
  (covers : Covers h root marked) (linked : Linked h blocks marked 0 link)
  (redirected : Redirected h link blocks st)

include graph nodup covers linked in
/-- An equal block below the root would close a cycle. -/
theorem link_root : link.get root = none := by
  cases found : link.get root with
  | none => rfl
  | some c =>
    have path : Reached h root c :=
      (covers.mem_iff c).mp (linked.alive root c found).2
    rcases Relation.ReflTransGen.cases_head path with rfl | ⟨q, leads, rest⟩
    · obtain ⟨i, j, -, less, atI, atJ⟩ := linked.later _ _ found
      exact absurd (index_unique nodup atI atJ) less.ne
    · have back : Leads h c q := (leads_of_blockKey (linked.equal root c found) q).mp leads
      exact absurd (Relation.TransGen.head' back rest) (graph.acyclic c path)

include covers linked in
theorem reached_standIn {t : BlockId} (path : Reached h root t) :
    Reached h root (standIn link t) := by
  rw [standIn]
  cases found : link.get t with
  | none => exact path
  | some c => exact (covers.mem_iff c).mp (linked.alive t c found).2

include linked in
theorem blockKey_standIn (t : BlockId) :
    blockKey (h.get (standIn link t)) = blockKey (h.get t) := by
  rw [standIn]
  cases found : link.get t with
  | none => rfl
  | some c => exact (linked.equal t c found).symm

include linked in
theorem link_standIn (t : BlockId) : link.get (standIn link t) = none := by
  rw [standIn]
  cases found : link.get t with
  | none => exact found
  | some c => exact linked.last t c found

include covered redirected in
theorem Redirected.leads {q : BlockId} (path : Reached h root b)
    (leads : Leads st.1 b q) : ∃ t, Leads h b t ∧ q = standIn link t := by
  obtain ⟨side, exit⟩ := leads
  rw [redirected.exit, if_pos (covered b path)] at exit
  obtain ⟨t, before, rfl⟩ := Option.map_eq_some_iff.mp exit
  exact ⟨t, ⟨side, before⟩, rfl⟩

include covered covers linked redirected in
theorem Redirected.reached (path : Reached st.1 root b) : Reached h root b := by
  induction path with
  | refl => exact .refl
  | tail _ leads ih =>
    obtain ⟨t, before, rfl⟩ := redirected.leads covered ih leads
    exact reached_standIn covers linked (ih.tail before)

include graph covered covers linked redirected in
theorem Redirected.jumpGraph : JumpGraph st.1 root := by
  obtain ⟨rank, falls, -, congr⟩ := graph.acyclic.exists_rank_congr (Finset.range h.size)
    fun b path => Finset.mem_range.mpr (graph.inside b path)
  refine JumpGraph.rewire redirected.same graph ?_
    (fun b path => redirected.reached covered covers linked path) fun b path side => ?_
  · -- equal blocks have the same rank, which so falls along the new edges too
    apply acyclicFrom_of_rank (Reached h root) (fun b => OrderDual.toDual (rank b)) .refl
    intro b q path leads
    obtain ⟨t, before, rfl⟩ := redirected.leads covered path leads
    refine ⟨reached_standIn covers linked (path.tail before), ?_⟩
    rw [OrderDual.toDual_lt_toDual, congr _ t (leads_of_blockKey (blockKey_standIn linked t))]
    exact falls b t path before
  · rw [redirected.exit, if_pos (covered b path), Option.isSome_map]

include graph covered covers linked redirected in
theorem Redirected.stops_iff (path : Reached h root b) (p : Packet)
    (m : Machine) {result : Result} :
    (blockStep h p).Stops (b, m) result ↔ (blockStep st.1 p).Stops (b, m) result := by
  obtain ⟨rank, falls, -, congr⟩ := graph.acyclic.exists_rank_congr (Finset.range h.size)
    fun b path => Finset.mem_range.mpr (graph.inside b path)
  induction bound : rank b using Nat.strong_induction_on generalizing b m with
  | _ n ih =>
    subst bound
    rw [blockStep_stops_iff, blockStep_stops_iff, Rewired.blockTest redirected.same]
    cases blockTest p (h.get b) m with
    | error ended => rfl
    | ok pair =>
      obtain ⟨side, m'⟩ := pair
      rw [afterBlock, afterBlock, redirected.exit, if_pos (covered b path)]
      cases exit : h.exit b side with
      | none => rfl
      | some t =>
        have leads : Leads h b t := ⟨side, exit⟩
        have equal := blockKey_standIn linked t
        have less : rank (standIn link t) < rank b := by
          rw [congr _ t (leads_of_blockKey equal)]
          exact falls b t path leads
        have next := reached_standIn covers linked (path.tail leads)
        exact (stops_of_blockKey equal).symm.trans (ih _ less next m' rfl)

include graph nodup covered covers linked redirected in
theorem Redirected.fewer (busy : st.2 = false) : ∃ t, Reached h root t ∧ ¬ Reached st.1 root t := by
  obtain ⟨t, found⟩ := redirected.found busy
  obtain ⟨c, found⟩ := Option.ne_none_iff_exists'.mp found
  refine ⟨t, (covers.mem_iff t).mp (linked.alive t c found).1, fun path => ?_⟩
  have unlinked : link.get t = none := by
    rcases Relation.ReflTransGen.cases_tail path with rfl | ⟨b, before, leads⟩
    · exact link_root graph nodup covers linked
    · obtain ⟨x, -, rfl⟩ :=
        redirected.leads covered (redirected.reached covered covers linked before) leads
      exact link_standIn linked x
  rw [unlinked] at found
  cases found

include graph nodup covered covers linked redirected in
/-- When nothing was done, a block that is reached is not linked. -/
theorem Redirected.link_eq_none (idle : st.1 = h) (path : Reached h root b) :
    link.get b = none := by
  rcases Relation.ReflTransGen.cases_tail path with rfl | ⟨c, before, side, exit⟩
  · exact link_root graph nodup covers linked
  · have new := redirected.exit c side
    rw [idle, if_pos (covered c before), exit, Option.map_some, Option.some.injEq] at new
    rw [new]
    exact link_standIn linked b

include graph nodup covered covers linked redirected in
theorem Redirected.distinct (idle : st.1 = h) {c : BlockId}
    (pathB : Reached h root b)
    (pathC : Reached h root c)
    (equal : blockKey (h.get b) = blockKey (h.get c)) : b = c := by
  have unlinked {x : BlockId} (path : Reached h root x) :=
    redirected.link_eq_none graph nodup covered covers linked idle path
  obtain ⟨i, atI⟩ := mem_iff_getElem?.mp (covered b pathB)
  obtain ⟨j, atJ⟩ := mem_iff_getElem?.mp (covered c pathC)
  have aliveB := (covers.mem_iff b).mpr pathB
  have aliveC := (covers.mem_iff c).mpr pathC
  rcases Nat.lt_trichotomy i j with before | same | behind
  · exact absurd (unlinked pathB) (linked.complete i j b c (Nat.zero_le i) before atI atJ aliveB
      aliveC equal)
  · subst same
    exact Option.some.inj (atI.symm.trans atJ)
  · exact absurd (unlinked pathC) (linked.complete j i c b (Nat.zero_le j) behind atJ atI aliveC
      aliveB equal.symm)

end Turn

/-- What a turn of `intern_blocks` does to a graph. -/
structure Turn (h : Heap) (root : BlockId) (h' : Heap) (done : Bool) : Prop where
  graph : PlainGraph h' root
  reached : ∀ b, Reached h' root b → Reached h root b
  stops_iff : ∀ p m result, (blockStep h p).Stops (root, m) result ↔
    (blockStep h' p).Stops (root, m) result
  distinct : done = true → ∀ b c, Reached h' root b →
    Reached h' root c → blockKey (h'.get b) = blockKey (h'.get c) → b = c
  fewer : done = false → ∃ t, Reached h root t ∧
    ¬ Reached h' root t

theorem internPass_redirected (graph : JumpGraph h root) (nodup : blocks.Nodup) :
    ∃ marked link st, internPass blocks root h = .ok st ∧ Covers h root marked ∧
      Linked h blocks marked 0 link ∧ Redirected h link blocks st := by
  obtain ⟨rank, ranked⟩ := graph.exists_ranked
  obtain ⟨marked, marks, covers⟩ := makeMarks_covers graph ranked
  have inside (b : BlockId) (alive : b ∈ marked) : b < h.size :=
    graph.inside b ((covers.mem_iff b).mp alive)
  rw [internPass, marks]
  exact ⟨marked, _, _, rfl, covers, linked_links nodup inside, redirected_exits h _ nodup⟩

theorem internPass_turn (graph : PlainGraph h root) (nodup : blocks.Nodup)
    (covered : ∀ b, Reached h root b → b ∈ blocks) :
    ∃ h' done, internPass blocks root h = .ok (h', done) ∧ Turn h root h' done := by
  have jumps := graph.jumps
  obtain ⟨marked, link, st, ran, covers, linked, redirected⟩ :=
    internPass_redirected jumps nodup
  have reached (b : BlockId) (path : Reached st.1 root b) :=
    redirected.reached covered covers linked path
  refine ⟨st.1, st.2, ran, ?_, reached, ?_, ?_, ?_⟩
  · exact graph.rewire redirected.same (redirected.jumpGraph jumps covered covers linked) reached
  · exact fun p m result => redirected.stops_iff jumps covered covers linked .refl p m
  · intro idle b c
    rw [redirected.idle idle]
    exact redirected.distinct jumps nodup covered covers linked (redirected.idle idle)
  · exact redirected.fewer jumps nodup covered covers linked

/-! ## All turns -/

/-- What `intern_blocks` makes of a graph: a graph that returns the same and has no two equal
blocks. -/
structure Interned (h : Heap) (root : BlockId) (h' : Heap) : Prop where
  graph : PlainGraph h' root
  stops_iff : ∀ p m result, (graphStep h p).Stops ⟨root, 0, m⟩ result ↔
    (graphStep h' p).Stops ⟨root, 0, m⟩ result
  distinct : ∀ b c, Reached h' root b →
    Reached h' root c → eqBlk (h'.get b) (h'.get c) = true → b = c

/-- A turn that does something leaves fewer blocks. -/
theorem Turn.length_lt {h' : Heap} (turn : Turn h root h' false) {marked marked' : List BlockId}
    (covers : Covers h root marked) (covers' : Covers h' root marked') :
    marked'.length < marked.length := by
  obtain ⟨t, before, gone⟩ := turn.fewer rfl
  rw [← toFinset_card_of_nodup covers'.nodup, ← toFinset_card_of_nodup covers.nodup]
  refine Finset.card_lt_card ((Finset.ssubset_iff_of_subset fun b mem => ?_).mpr ⟨t, ?_, ?_⟩)
  · rw [mem_toFinset, covers.mem_iff]
    rw [mem_toFinset, covers'.mem_iff] at mem
    exact turn.reached b mem
  · rwa [mem_toFinset, covers.mem_iff]
  · rwa [mem_toFinset, covers'.mem_iff]

theorem internBlocks_interned (nodup : blocks.Nodup) (n : Nat) : ∀ h marked, PlainGraph h root →
      (∀ b, Reached h root b → b ∈ blocks) → Covers h root marked →
      marked.length ≤ n →
      ∃ h', (∀ turns, n ≤ turns → internBlocks blocks root turns h = .ok h') ∧
        Interned h root h' := by
  induction n with
  | zero =>
    intro h marked _ _ covers none
    have mem := (covers.mem_iff root).mpr .refl
    rw [length_eq_zero_iff.mp (Nat.le_zero.mp none)] at mem
    exact absurd mem not_mem_nil
  | succ n ih =>
    intro h marked graph covered covers small
    obtain ⟨h₁, done, ran, turn⟩ := internPass_turn graph nodup covered
    have runs (p : Packet) (m : Machine) (result : Result) :
        (graphStep h p).Stops ⟨root, 0, m⟩ result ↔
          (graphStep h₁ p).Stops ⟨root, 0, m⟩ result := by
      rw [graph.stops_iff .refl, turn.graph.stops_iff .refl, turn.stops_iff]
    cases done with
    | true =>
      refine ⟨h₁, ?_, turn.graph, runs, ?_⟩
      · intro turns enough
        obtain ⟨turns, rfl⟩ := Nat.exists_eq_add_of_le' enough
        rw [← Nat.add_assoc, internBlocks, ran]
        rfl
      · intro b c pathB pathC equal
        exact turn.distinct rfl b c pathB pathC (eqBlk_iff.mp equal)
    | false =>
      obtain ⟨rank, ranked⟩ := turn.graph.jumps.exists_ranked
      obtain ⟨marked₁, -, covers₁⟩ := makeMarks_covers turn.graph.jumps ranked
      have fewer := turn.length_lt covers covers₁
      obtain ⟨h', ends, interned⟩ := ih h₁ marked₁ turn.graph
        (fun b path => covered b (turn.reached b path)) covers₁ (by omega)
      refine ⟨h', ?_, interned.graph, ?_, interned.distinct⟩
      · intro turns enough
        obtain ⟨turns, rfl⟩ := Nat.exists_eq_add_of_le' enough
        rw [← Nat.add_assoc, internBlocks, ran]
        exact ends (turns + n) (Nat.le_add_left n turns)
      · exact fun p m result => (runs p m result).trans (interned.stops_iff p m result)

/-- `intern_blocks` ends, keeps what the graph returns, and leaves no two equal blocks. -/
theorem internBlocks_correct {h : Heap} {root : BlockId} {blocks : List BlockId}
    (graph : PlainGraph h root) (nodup : blocks.Nodup)
    (covered : ∀ b, Reached h root b → b ∈ blocks) :
    ∃ h', (∀ turns, blocks.length ≤ turns → internBlocks blocks root turns h = .ok h') ∧
      Interned h root h' := by
  obtain ⟨rank, ranked⟩ := graph.jumps.exists_ranked
  obtain ⟨marked, -, covers⟩ := makeMarks_covers graph.jumps ranked
  refine internBlocks_interned nodup blocks.length h marked graph covered covers ?_
  exact (covers.nodup.subperm fun b mem => covered b ((covers.mem_iff b).mp mem)).length_le

/-- A test with a return of its own for each exit, which return the same. -/
def equalReturns : Heap :=
  ⟨⟨[blockOf [{ code := 0x28, k := 12 }] 0x15 0x800 (some (1, 2)), blockOf [] 0x06 96 none,
    blockOf [] 0x06 96 none]⟩, []⟩

theorem internBlocks_correct_equalReturns :
    ∃ h', (∀ turns, 3 ≤ turns → internBlocks [0, 1, 2] 0 turns equalReturns = .ok h') ∧
      Interned equalReturns 0 h' ∧ h'.exit 0 true = some 2 := by
  have graph : PlainGraph equalReturns 0 :=
    (FilterGraph.of_forward (by decide) (by decide) (by decide)).toPlainGraph
  have covered (b : Nat) (path : Reached equalReturns 0 b) :
      b ∈ [0, 1, 2] := by
    have inside : b < 3 := graph.inside b path
    have which : b = 0 ∨ b = 1 ∨ b = 2 := by omega
    simpa using which
  obtain ⟨h', ran, interned⟩ := internBlocks_correct graph (by decide) covered
  have exit : (internBlocks [0, 1, 2] 0 3 equalReturns).toOption.map (·.exit 0 true) =
      some (some 2) := by decide +kernel
  rw [ran 3 le_rfl] at exit
  exact ⟨h', ran, interned, Option.some.inj exit⟩

end Libpcap.Optimize
