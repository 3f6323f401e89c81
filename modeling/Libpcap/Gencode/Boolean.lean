/-
# Conjunction, disjunction and negation of conditions

`gen_and`, `gen_or` and `gen_not` combine compiled conditions by resolving one
list of unresolved exits of the first operand and joining the other list to that
of the second. Both binary operations are one operation seen from the two truth
values: `gen_and` resolves the exits taken when the first operand is true, and
`gen_or` those taken when it is false.

`Built` is the invariant: the block that stands for a formula heads the two
lists of unresolved exits, and reading an unresolved exit as "the formula is
true" or "the formula is false", the exits of its tests are wired as the formula
prescribes.
-/

import Libpcap.Gencode.Backpatch
import Libpcap.Semantics.Cond

namespace Libpcap.Gencode

open Libpcap.Semantics List

variable {b : BlockId} {e : Exit} {h h' : Heap} {blocks : List BlockId}

/-! ## `gen_and`, `gen_or`, `gen_not` -/

namespace Heap

def genAnd (h : Heap) (b0 b1 : BlockId) : Option Heap := do
  let h ← h.backpatch b0 (h.get b1).head
  let h := (h.flip b0).flip b1
  let h ← h.merge b1 b0
  let h := h.flip b1
  return h.setHead b1 (h.get b0).head

def genOr (h : Heap) (b0 b1 : BlockId) : Option Heap := do
  let h := h.flip b0
  let h ← h.backpatch b0 (h.get b1).head
  let h := h.flip b0
  let h ← h.merge b1 b0
  return h.setHead b1 (h.get b0).head

def genNot (h : Heap) (b : BlockId) : Heap := h.flip b

end Heap

/-- A grammar action of the parser: leaves are blocks that exist already, and
the block that stands for a binary condition is that of its second operand. -/
def compileCond (h : Heap) : Cond BlockId → Option (Heap × BlockId)
  | .leaf b => some (h, b)
  | .and left right => do
      let (h, b0) ← compileCond h left
      let (h, b1) ← compileCond h right
      let h ← h.genAnd b0 b1
      return (h, b1)
  | .or left right => do
      let (h, b0) ← compileCond h left
      let (h, b1) ← compileCond h right
      let h ← h.genOr b0 b1
      return (h, b1)
  | .not inner => do
      let (h, b) ← compileCond h inner
      return (h.genNot b, b)

/-! ## What a heap operation leaves alone -/

/-- Only exits, `sense` and `head` of the given blocks change. -/
structure Touches (h h' : Heap) (blocks : List BlockId) : Prop where
  size : h'.size = h.size
  stmts : ∀ c, (h'.get c).stmts = (h.get c).stmts
  s : ∀ c, (h'.get c).s = (h.get c).s
  outside : ∀ c, c ∉ blocks → h'.get c = h.get c
  count : ∀ c, c ∉ blocks → ∀ side, h'.patched.count (c, side) = h.patched.count (c, side)

namespace Touches

variable {h h' h'' : Heap} {blocks more : List BlockId}

theorem refl (h : Heap) (blocks : List BlockId) : Touches h h blocks :=
  ⟨rfl, fun _ => rfl, fun _ => rfl, fun _ _ => rfl, fun _ _ _ => rfl⟩

theorem trans (first : Touches h h' blocks) (second : Touches h' h'' blocks) :
    Touches h h'' blocks where
  size := second.size.trans first.size
  stmts c := (second.stmts c).trans (first.stmts c)
  s c := (second.s c).trans (first.s c)
  outside c avoids := (second.outside c avoids).trans (first.outside c avoids)
  count c avoids side := (second.count c avoids side).trans (first.count c avoids side)

theorem mono (touches : Touches h h' blocks) (larger : ∀ c ∈ blocks, c ∈ more) :
    Touches h h' more where
  size := touches.size
  stmts := touches.stmts
  s := touches.s
  outside c avoids := touches.outside c fun mem => avoids (larger c mem)
  count c avoids := touches.count c fun mem => avoids (larger c mem)

end Touches

/-- An assignment to `sense` or `head` of a block. -/
theorem touches_modify (h : Heap) (inside : b < h.size) {f : Block → Block}
    (stmts : ∀ block, (f block).stmts = block.stmts) (s : ∀ block, (f block).s = block.s) :
    Touches h (h.modify b f) [b] where
  size := h.size_modify f
  stmts c := by
    rw [h.get_modify inside]
    split <;> simp_all
  s c := by
    rw [h.get_modify inside]
    split <;> simp_all
  outside c avoids := h.get_modify_of_ne _ (by simpa using avoids)
  count _ _ _ := rfl

theorem touches_flip (h : Heap) (inside : b < h.size) : Touches h (h.flip b) [b] :=
  touches_modify h inside (fun _ => rfl) fun _ => rfl

theorem Block.eq_of_core {first second : Block} (same : first.core = second.core)
    (jt : first.jt = second.jt) (jf : first.jf = second.jf) : first = second := by
  obtain ⟨stmts, s, sense, _, _, head, longjt, longjf⟩ := first
  obtain ⟨stmts', s', sense', _, _, head', longjt', longjf'⟩ := second
  simp_all [Block.core]

theorem Rewired.touches (same : Rewired h h')
    (exits : ∀ c, c ∉ blocks → ∀ side, h'.exit c side = h.exit c side)
    (count : ∀ c, c ∉ blocks → ∀ side, h'.patched.count (c, side) = h.patched.count (c, side)) :
    Touches h h' blocks where
  size := same.size
  stmts := same.stmts
  s := same.s
  outside c avoids :=
    Block.eq_of_core (same.core c) (exits c avoids true) (exits c avoids false)
  count := count

theorem Patched.touches {exits : List Exit} {target : BlockId} (patched : Patched h h' exits target) :
    Touches h h' (exits.map Prod.fst) := by
  have missing (c : BlockId) (avoids : c ∉ exits.map Prod.fst) (side : Bool) :
      (c, side) ∉ exits := fun mem => avoids (mem_map.mpr ⟨_, mem, rfl⟩)
  apply patched.toRewired.touches
  · intro c avoids side
    rw [patched.exit, if_neg (missing c avoids side)]
  · intro c avoids side
    rw [patched.patched, count_append, count_eq_zero.mpr (missing c avoids side), Nat.add_zero]

theorem Merged.touches {last : Exit} {tail : BlockId} (merged : Merged h h' last tail) :
    Touches h h' [last.1] := by
  apply merged.toRewired.touches
  · intro c avoids side
    rw [merged.exit, if_neg]
    rintro rfl
    exact avoids mem_cons_self
  · intro c _ side
    rw [merged.patched]

/-! ## The joint effect of the two binary operations -/

/-- The blocks that a binary operation may change. -/
def joinedBlocks (b0 b1 : BlockId) (resolved : List Exit) (last : Exit) : List BlockId :=
  b0 :: b1 :: last.1 :: resolved.map Prod.fst

/-- `value = true` describes `gen_and` and `value = false` describes `gen_or`:
the exits `resolved` of the first operand lead to the second, and the last exit
of the second operand's other list is linked to the first operand. -/
structure Joined (h h' : Heap) (value : Bool) (b0 b1 : BlockId) (resolved : List Exit)
    (last : Exit) : Prop where
  exit : ∀ c side, h'.exit c side =
    if (c, side) = last then some b0
    else if (c, side) ∈ resolved then some (h.get b1).head else h.exit c side
  sense : ∀ c, (h'.get c).sense = if c = b0 then value ^^ (h.get c).sense else (h.get c).sense
  head : ∀ c, (h'.get c).head = if c = b1 then (h.get b0).head else (h.get c).head
  patched : h'.patched = h.patched ++ resolved
  touches : Touches h h' (joinedBlocks b0 b1 resolved last)

section Operations

variable {h : Heap} {b0 b1 : BlockId} {resolved extended : List Exit} {last : Exit}

/-- Both operations resolve exits of the first operand, leave its block with the `sense` that
joins the right lists, link the last exit of the second operand to it, and end with the
assignment to `b1->head`. -/
theorem joined_of_merged {h1 h2 h3 : Heap} {value : Bool} (inside0 : b0 < h.size)
    (inside1 : b1 < h.size) (patch : Patched h h1 resolved (h.get b1).head)
    (turned : h2 = if value then h1.flip b0 else h1) (link : Merged h2 h3 last b0) :
    Joined h (h3.setHead b1 (h3.get b0).head) value b0 b1 resolved last := by
  have inside0' : b0 < h1.size := by rw [patch.size]; exact inside0
  have turn : Touches h1 h2 [b0] ∧ (∀ c side, h2.exit c side = h1.exit c side) ∧
      (∀ c, (h2.get c).head = (h1.get c).head) ∧ h2.patched = h1.patched ∧ ∀ c,
        (h2.get c).sense = if c = b0 then value ^^ (h1.get c).sense else (h1.get c).sense := by
    subst turned
    cases value with
    | true =>
      exact ⟨touches_flip h1 inside0', h1.exit_flip inside0', h1.head_flip inside0', rfl,
        fun c => by rw [if_pos rfl, h1.sense_flip inside0', Bool.true_xor]⟩
    | false => exact ⟨.refl h1 _, fun _ _ => rfl, fun _ => rfl, rfl, fun c => by simp⟩
  obtain ⟨touches, exits, heads, logged, senses⟩ := turn
  have inside3 : b1 < h3.size := by rw [link.size, touches.size, patch.size]; exact inside1
  have get (c : BlockId) := h3.get_modify inside3
    (fun block => { block with head := (h3.get b0).head }) c
  have head (c : BlockId) : (h3.get c).head = (h.get c).head := by
    rw [link.toRewired.head, heads, patch.toRewired.head]
  constructor
  · intro c side
    rw [← patch.exit, ← exits, ← link.exit]
    simp only [Heap.exit, Heap.setHead, get]
    by_cases same : c = b1
    · subst same
      simp
    · simp [same]
  · intro c
    rw [← patch.toRewired.sense, ← senses, ← link.toRewired.sense, Heap.setHead, get]
    split
    · rename_i same
      subst same
      rfl
    · rfl
  · intro c
    rw [Heap.setHead, get, ← head b0]
    split
    · rfl
    · exact head c
  · exact (link.patched.trans logged).trans patch.patched
  · have step1 : Touches h h1 (joinedBlocks b0 b1 resolved last) :=
      patch.touches.mono (by simp +contextual [joinedBlocks])
    have step2 : Touches h1 h2 (joinedBlocks b0 b1 resolved last) :=
      touches.mono (by simp [joinedBlocks])
    have step3 : Touches h2 h3 (joinedBlocks b0 b1 resolved last) :=
      link.touches.mono (by simp [joinedBlocks])
    have step4 := touches_modify h3 inside3 (f := fun block =>
      { block with head := (h3.get b0).head }) (fun _ => rfl) fun _ => rfl
    exact step1.trans (step2.trans (step3.trans (step4.mono (by simp [joinedBlocks]))))

/-- Resolving exits of the first operand keeps the lists of the second. -/
theorem Links.of_patched {h1 : Heap} {side : Bool} {target : BlockId}
    (second : Links h b1 side extended) (nodup1 : (extended.map Prod.fst).Nodup)
    (apart : ∀ e ∈ extended, e.1 ≠ b0 ∧ e.1 ∉ resolved.map Prod.fst)
    (patch : Patched h h1 resolved target) : Links h1 b1 side extended := by
  refine second.congr nodup1 (Nat.le_of_eq patch.size.symm) ?_
    (fun e _ _ => patch.toRewired.sense e.1)
  intro e mem
  rw [patch.exit, if_neg]
  intro found
  exact (apart e mem).2 (mem_map.mpr ⟨e, found, rfl⟩)

/-- `gen_and` on two lists of unresolved exits. -/
theorem genAnd_joined (different : b0 ≠ b1)
    (first : Links h b0 (!(h.get b0).sense) resolved)
    (second : Links h b1 (h.get b1).sense extended)
    (nodup0 : (resolved.map Prod.fst).Nodup) (nodup1 : (extended.map Prod.fst).Nodup)
    (apart : ∀ e ∈ extended, e.1 ≠ b0 ∧ e.1 ∉ resolved.map Prod.fst)
    (isLast : extended.getLast? = some last) :
    ∃ h', h.genAnd b0 b1 = some h' ∧ Joined h h' true b0 b1 resolved last := by
  have inside0 : b0 < h.size := first.bound _ first.self_mem
  have inside1 : b1 < h.size := second.bound _ second.self_mem
  obtain ⟨h1, ran1, patch⟩ := first.backpatch (h.get b1).head nodup0
  have inside0' : b0 < h1.size := by rw [patch.size]; exact inside0
  have inside1' : b1 < (h1.flip b0).size := by rw [h1.size_flip, patch.size]; exact inside1
  have turned : Links (h1.flip b0) b1 (h.get b1).sense extended := by
    refine (second.of_patched nodup1 apart patch).congr nodup1 (Nat.le_of_eq h1.size_flip.symm)
      (fun e _ => h1.exit_flip inside0' e.1 e.2) ?_
    intro e mem _
    rw [h1.sense_flip inside0', if_neg (apart e mem).1]
  have flipped : Links ((h1.flip b0).flip b1) b1 (!(((h1.flip b0).flip b1).get b1).sense)
      extended := by
    rw [Heap.sense_flip _ inside1', if_pos rfl, Bool.not_not, h1.sense_flip inside0',
      if_neg different.symm, patch.toRewired.sense]
    exact turned.flip nodup1
  obtain ⟨h4, ran4, link⟩ := flipped.merge b0 isLast nodup1
  refine ⟨_, ?_, joined_of_merged inside0 inside1 patch rfl (link.flip inside1')⟩
  simp only [Heap.genAnd, ran1, ran4, Option.bind_eq_bind, Option.bind_some]
  rfl

/-- `gen_or` on two lists of unresolved exits. -/
theorem genOr_joined
    (first : Links h b0 (h.get b0).sense resolved)
    (second : Links h b1 (!(h.get b1).sense) extended)
    (nodup0 : (resolved.map Prod.fst).Nodup) (nodup1 : (extended.map Prod.fst).Nodup)
    (apart : ∀ e ∈ extended, e.1 ≠ b0 ∧ e.1 ∉ resolved.map Prod.fst)
    (isLast : extended.getLast? = some last) :
    ∃ h', h.genOr b0 b1 = some h' ∧ Joined h h' false b0 b1 resolved last := by
  have inside0 : b0 < h.size := first.bound _ first.self_mem
  have inside1 : b1 < h.size := second.bound _ second.self_mem
  have flipped : Links (h.flip b0) b0 (!((h.flip b0).get b0).sense) resolved := by
    rw [h.sense_flip inside0, if_pos rfl, Bool.not_not]
    exact first.flip nodup0
  obtain ⟨h1, ran1, resolve⟩ := flipped.backpatch (h.get b1).head nodup0
  have patch := resolve.flip inside0
  have kept : Links (h1.flip b0) b1 (!((h1.flip b0).get b1).sense) extended := by
    rw [patch.toRewired.sense]
    exact second.of_patched nodup1 apart patch
  obtain ⟨h3, ran3, link⟩ := kept.merge b0 isLast nodup1
  refine ⟨_, ?_, joined_of_merged inside0 inside1 patch rfl link⟩
  simp only [Heap.genOr, h.head_flip inside0, ran1, ran3, Option.bind_eq_bind, Option.bind_some]
  rfl

end Operations

/-! ## The invariant of a compiled formula -/

/-- Where an exit leads while a formula is not yet resolved. -/
inductive Dest
  | block (b : BlockId)
  | value (v : Bool)

/-- The exits of a heap, reading the unresolved ones as values of the formula. -/
def view (h : Heap) (pend : Bool → List Exit) (a : BlockId) (side : Bool) : Dest → Prop
  | .value v => (a, side) ∈ pend v
  | .block c => (∀ v, (a, side) ∉ pend v) ∧ h.exit a side = some c

/-- Block `b` stands for the formula `c`; `pend v` lists the exits that are taken
when the formula has value `v`. -/
structure Built (h : Heap) (c : Cond BlockId) (b : BlockId) (pend : Bool → List Exit) :
    Prop where
  links : ∀ v, Links h b (v ^^ (h.get b).sense) (pend v)
  nodup : ∀ v, ((pend v).map Prod.fst).Nodup
  apart : ∀ v, ∀ e ∈ pend v, ∀ e' ∈ pend (!v), e.1 = e'.1 → e.1 = b
  members : ∀ v, ∀ e ∈ pend v, e.1 ∈ c.leaves
  bound : ∀ a ∈ c.leaves, a < h.size
  head : (h.get b).head = c.first
  wired : c.Wired (view h pend) Dest.block (.value true) (.value false)
  unpatched : ∀ v, ∀ e ∈ pend v, h.patched.count e = 0
  patchedOnce : ∀ a ∈ c.leaves, ∀ side, (∀ v, (a, side) ∉ pend v) →
    h.patched.count (a, side) = 1

namespace Built

variable {h h' : Heap} {c l r : Cond BlockId} {b b0 b1 : BlockId}
  {pend pend0 pend1 : Bool → List Exit} {value : Bool} {last : Exit}

section

variable (built : Built h c b pend)
include built

theorem handle_mem : b ∈ c.leaves :=
  built.members true _ (built.links true).self_mem

/-- No exit is taken for both values. -/
theorem disjoint (v : Bool) (here : e ∈ pend v) : e ∉ pend (!v) := by
  intro there
  have atHandle : e.1 = b := built.apart v e here e there rfl
  have one : e = (b, v ^^ (h.get b).sense) :=
    inj_on_of_nodup_map (built.nodup v) here (built.links v).self_mem atHandle
  have other : e = (b, !v ^^ (h.get b).sense) :=
    inj_on_of_nodup_map (built.nodup (!v)) there (built.links (!v)).self_mem atHandle
  have sides := congrArg Prod.snd (one.symm.trans other)
  cases v <;> simp at sides

/-- An invariant about a formula only depends on its tests, and not on their
statements. -/
theorem transport (larger : h.size ≤ h'.size)
    (senses : ∀ a ∈ c.leaves, (h'.get a).sense = (h.get a).sense)
    (heads : ∀ a ∈ c.leaves, (h'.get a).head = (h.get a).head)
    (exits : ∀ a ∈ c.leaves, ∀ side, h'.exit a side = h.exit a side)
    (count : ∀ a ∈ c.leaves, ∀ side, h'.patched.count (a, side) = h.patched.count (a, side)) :
    Built h' c b pend where
  links v := by
    rw [senses b built.handle_mem]
    exact (built.links v).congr (built.nodup v) larger
      (fun e mem => exits e.1 (built.members v e mem) e.2)
      (fun e mem _ => senses e.1 (built.members v e mem))
  nodup := built.nodup
  apart := built.apart
  members := built.members
  bound a mem := Nat.lt_of_lt_of_le (built.bound a mem) larger
  head := by rw [heads b built.handle_mem]; exact built.head
  wired := by
    refine built.wired.map id (fun _ => rfl) ?_
    intro a mem side place leads
    cases place with
    | value v => exact leads
    | block d => exact ⟨leads.1, (exits a mem side).trans leads.2⟩
  unpatched v e mem := by
    rw [count e.1 (built.members v e mem) e.2]
    exact built.unpatched v e mem
  patchedOnce a mem side resolved := by
    rw [count a mem side]
    exact built.patchedOnce a mem side resolved

/-- Blocks that are left as they are keep the invariant. -/
theorem of_get_eq (larger : h.size ≤ h'.size)
    (same : ∀ a ∈ c.leaves, h'.get a = h.get a)
    (count : ∀ a ∈ c.leaves, ∀ side, h'.patched.count (a, side) = h.patched.count (a, side)) :
    Built h' c b pend := by
  refine built.transport larger ?_ ?_ ?_ count
  · intro a mem
    rw [same a mem]
  · intro a mem
    rw [same a mem]
  · intro a mem side
    simp only [Heap.exit, same a mem]

/-- `gen_not` exchanges the two lists. -/
theorem not : Built (h.genNot b) (.not c) b (fun v => pend (!v)) := by
  have inside : b < h.size := built.bound b built.handle_mem
  constructor
  · intro v
    have flipped : (v ^^ ((h.genNot b).get b).sense) = (!v ^^ (h.get b).sense) := by
      rw [Heap.genNot, h.sense_flip inside, if_pos rfl]
      cases v <;> simp
    rw [flipped]
    exact (built.links (!v)).flip (built.nodup (!v))
  · exact fun v => built.nodup (!v)
  · exact fun v => built.apart (!v)
  · exact fun v => built.members (!v)
  · intro a mem
    rw [Heap.genNot, h.size_flip]
    exact built.bound a mem
  · rw [Heap.genNot, h.head_flip inside]
    exact built.head
  · let exchange : Dest → Dest
      | .block d => .block d
      | .value v => .value (!v)
    refine built.wired.map exchange (fun _ => rfl) ?_
    intro a _ side place leads
    cases place with
    | value v => simpa [exchange, view] using leads
    | block d =>
      refine ⟨fun v => leads.1 (!v), ?_⟩
      rw [Heap.genNot, h.exit_flip inside]
      exact leads.2
  · exact fun v => built.unpatched (!v)
  · intro a mem side resolved
    refine built.patchedOnce a mem side ?_
    intro v
    simpa using resolved (!v)

end

section Join

/-- The lists after joining: one keeps the second operand's exits, the other is
extended by the first operand's. -/
def joinPend (value : Bool) (pend0 pend1 : Bool → List Exit) (v : Bool) : List Exit :=
  if v = value then pend1 v else pend1 v ++ pend0 v

theorem mem_joinPend {v : Bool} :
    e ∈ joinPend value pend0 pend1 v ↔ e ∈ pend1 v ∨ (v = !value ∧ e ∈ pend0 v) := by
  unfold joinPend
  by_cases same : v = value
  · subst same
    simp
  · have other : v = !value := Bool.eq_not.mpr same
    simp [other]

variable (left : Built h l b0 pend0) (right : Built h r b1 pend1)
  (disjointLeaves : ∀ a ∈ l.leaves, a ∉ r.leaves)
  (isLast : (pend1 (!value)).getLast? = some last)
  (joined : Joined h h' value b0 b1 (pend0 value) last)

include right isLast in
theorem last_mem : last ∈ pend1 (!value) ∧ last.1 ∈ r.leaves := by
  have mem := mem_of_getLast? isLast
  exact ⟨mem, right.members _ _ mem⟩

include right disjointLeaves isLast joined in
/-- Joining leaves the first operand's exits alone, except those it resolves. -/
theorem join_exit_left (leaf : e.1 ∈ l.leaves) :
    h'.exit e.1 e.2 = if e ∈ pend0 value then some r.first else h.exit e.1 e.2 := by
  rw [joined.exit, right.head, if_neg]
  rintro rfl
  exact disjointLeaves _ leaf (last_mem right isLast).2

include left disjointLeaves joined in
/-- Joining leaves the second operand's exits alone, except its last one. -/
theorem join_exit_right (leaf : e.1 ∈ r.leaves) :
    h'.exit e.1 e.2 = if e = last then some b0 else h.exit e.1 e.2 := by
  have notLeft : e ∉ pend0 value := by
    intro mem
    exact disjointLeaves _ (left.members _ _ mem) leaf
  rw [joined.exit]
  simp only [Prod.mk.eta, notLeft, if_false]

include left disjointLeaves joined in
theorem join_sense_right {a : BlockId} (leaf : a ∈ r.leaves) :
    (h'.get a).sense = (h.get a).sense := by
  rw [joined.sense, if_neg]
  rintro rfl
  exact disjointLeaves _ left.handle_mem leaf

include left right disjointLeaves isLast joined in
theorem join_links (v : Bool) :
    Links h' b1 (v ^^ (h'.get b1).sense) (joinPend value pend0 pend1 v) := by
  have sense1 : (h'.get b1).sense = (h.get b1).sense :=
    join_sense_right left disjointLeaves joined right.handle_mem
  have larger : h.size ≤ h'.size := Nat.le_of_eq joined.touches.size.symm
  rw [sense1, joinPend]
  by_cases same : v = value
  · subst same
    rw [if_pos rfl]
    have kept : ∀ e ∈ pend1 v, h'.exit e.1 e.2 = h.exit e.1 e.2 := by
      intro e mem
      rw [join_exit_right left disjointLeaves joined (right.members v e mem), if_neg]
      rintro rfl
      exact right.disjoint v mem (last_mem right isLast).1
    exact (right.links v).congr (right.nodup v) larger kept fun e mem _ =>
      join_sense_right left disjointLeaves joined (right.members v e mem)
  · have other : v = !value := Bool.eq_not.mpr same
    subst other
    rw [if_neg same]
    have continues : Links h' b0 (!value ^^ (h.get b0).sense) (pend0 (!value)) := by
      have kept : ∀ e ∈ pend0 (!value), h'.exit e.1 e.2 = h.exit e.1 e.2 := by
        intro e mem
        rw [join_exit_left right disjointLeaves isLast joined (left.members _ e mem), if_neg]
        intro resolved
        exact left.disjoint value resolved mem
      refine (left.links (!value)).congr (left.nodup _) larger kept ?_
      intro e _ notHandle
      rw [joined.sense, if_neg notHandle]
    refine (right.links (!value)).append larger isLast (Nodup.of_map _ (right.nodup _))
      ?_ ?_ ?_ ?_ continues
    · intro e mem _
      exact join_sense_right left disjointLeaves joined (right.members _ e mem)
    · intro e mem notLast
      rw [join_exit_right left disjointLeaves joined (right.members _ e mem), if_neg notLast]
    · rw [join_exit_right left disjointLeaves joined (last_mem right isLast).2, if_pos rfl]
    · rw [joined.sense, if_pos rfl]
      cases value <;> simp

include left right disjointLeaves isLast joined in
theorem join_wired : (Cond.join value l r).Wired (view h' (joinPend value pend0 pend1))
    Dest.block (.value true) (.value false) := by
  apply (Cond.wired_join Dest.value).mpr
  constructor
  · let resolve : Dest → Dest
      | .block d => .block d
      | .value v => if v = value then .block r.first else .value v
    refine left.wired.map resolve (fun _ => rfl) ?_
    intro a leaf side place leads
    have notRight (v : Bool) : (a, side) ∉ pend1 v := by
      intro mem
      exact disjointLeaves a leaf (right.members v _ mem)
    have exit : h'.exit a side = if (a, side) ∈ pend0 value then some r.first
        else h.exit a side :=
      join_exit_left right disjointLeaves isLast joined (e := (a, side)) leaf
    cases place with
    | block d =>
      refine ⟨?_, ?_⟩
      · intro v mem
        rcases mem_joinPend.mp mem with inRight | ⟨_, inLeft⟩
        · exact notRight v inRight
        · exact leads.1 v inLeft
      · rw [exit, if_neg (leads.1 value)]
        exact leads.2
    | value v =>
      have pending : (a, side) ∈ pend0 v := leads
      by_cases same : v = value
      · subst same
        simp only [resolve, if_true]
        refine ⟨?_, ?_⟩
        · intro w mem
          rcases mem_joinPend.mp mem with inRight | ⟨other, inLeft⟩
          · exact notRight w inRight
          · subst other
            exact left.disjoint v pending inLeft
        · rw [exit, if_pos pending]
      · have other : v = !value := Bool.eq_not.mpr same
        simp only [resolve, same, if_false]
        exact mem_joinPend.mpr (.inr ⟨other, pending⟩)
  · refine right.wired.map id (fun _ => rfl) ?_
    intro a leaf side place leads
    cases place with
    | value v => exact mem_joinPend.mpr (.inl leads)
    | block d =>
      refine ⟨?_, ?_⟩
      · intro v mem
        rcases mem_joinPend.mp mem with inRight | ⟨_, inLeft⟩
        · exact leads.1 v inRight
        · exact disjointLeaves a (left.members v _ inLeft) leaf
      · have notLast : (a, side) ≠ last := by
          rintro rfl
          exact leads.1 (!value) (last_mem right isLast).1
        have exit := join_exit_right left disjointLeaves joined (e := (a, side)) leaf
        rw [if_neg notLast] at exit
        exact exit.trans leads.2

include left right disjointLeaves isLast joined in
/-- The invariant of the joined formula. -/
theorem join : Built h' (Cond.join value l r) b1 (joinPend value pend0 pend1) := by
  have count (e : Exit) : h'.patched.count e = h.patched.count e + (pend0 value).count e := by
    rw [joined.patched, count_append]
  constructor
  · exact join_links left right disjointLeaves isLast joined
  · intro v
    unfold joinPend
    split
    · exact right.nodup v
    · rw [map_append]
      refine Nodup.append (right.nodup v) (left.nodup v) ?_
      intro a inRight inLeft
      obtain ⟨e, mem, rfl⟩ := mem_map.mp inRight
      obtain ⟨e', mem', same⟩ := mem_map.mp inLeft
      exact disjointLeaves e.1 (same ▸ left.members v e' mem') (right.members v e mem)
  · intro v e here e' there same
    rcases mem_joinPend.mp here with inRight | ⟨side, inLeft⟩
    · rcases mem_joinPend.mp there with inRight' | ⟨_, inLeft'⟩
      · exact right.apart v e inRight e' inRight' same
      · exact absurd (right.members v e inRight)
          (disjointLeaves e.1 (same ▸ left.members _ e' inLeft'))
    · rcases mem_joinPend.mp there with inRight' | ⟨side', _⟩
      · exact absurd (right.members _ e' inRight')
          (disjointLeaves e'.1 (same ▸ left.members v e inLeft))
      · subst side
        cases value <;> simp at side'
  · intro v e mem
    rw [Cond.leaves_join]
    rcases mem_joinPend.mp mem with inRight | ⟨_, inLeft⟩
    · exact mem_append_right _ (right.members v e inRight)
    · exact mem_append_left _ (left.members v e inLeft)
  · intro a mem
    rw [joined.touches.size]
    rw [Cond.leaves_join] at mem
    rcases mem_append.mp mem with inLeft | inRight
    · exact left.bound a inLeft
    · exact right.bound a inRight
  · rw [joined.head, if_pos rfl, left.head, Cond.first_join]
  · exact join_wired left right disjointLeaves isLast joined
  · intro v e mem
    rw [count]
    rcases mem_joinPend.mp mem with inRight | ⟨other, inLeft⟩
    · have notLeft : e ∉ pend0 value := by
        intro resolved
        exact disjointLeaves e.1 (left.members _ e resolved) (right.members v e inRight)
      rw [right.unpatched v e inRight, count_eq_zero.mpr notLeft]
    · subst other
      have notResolved : e ∉ pend0 value := by
        intro resolved
        exact left.disjoint value resolved inLeft
      rw [left.unpatched _ e inLeft, count_eq_zero.mpr notResolved]
  · intro a mem side resolved
    rw [count]
    rw [Cond.leaves_join] at mem
    rcases mem_append.mp mem with inLeft | inRight
    · by_cases now : (a, side) ∈ pend0 value
      · rw [left.unpatched value _ now, count_eq_one_of_mem (Nodup.of_map _ (left.nodup value)) now]
      · have earlier : ∀ v, (a, side) ∉ pend0 v := by
          intro v pending
          by_cases same : v = value
          · exact now (same ▸ pending)
          · exact resolved v (mem_joinPend.mpr (.inr ⟨Bool.eq_not.mpr same, pending⟩))
        rw [left.patchedOnce a inLeft side earlier, count_eq_zero.mpr now]
    · have notLeft : (a, side) ∉ pend0 value := by
        intro pending
        exact disjointLeaves a (left.members _ _ pending) inRight
      have earlier : ∀ v, (a, side) ∉ pend1 v := by
        intro v pending
        exact resolved v (mem_joinPend.mpr (.inl pending))
      rw [right.patchedOnce a inRight side earlier, count_eq_zero.mpr notLeft]

end Join

/-! ## The operations keep the invariant -/

theorem joinedBlocks_subset (left : Built h l b0 pend0) (right : Built h r b1 pend1)
    (isLast : (pend1 (!value)).getLast? = some last) :
    ∀ a ∈ joinedBlocks b0 b1 (pend0 value) last, a ∈ l.leaves ++ r.leaves := by
  intro a mem
  simp only [joinedBlocks, mem_cons] at mem
  rcases mem with rfl | rfl | rfl | resolved
  · exact mem_append_left _ left.handle_mem
  · exact mem_append_right _ right.handle_mem
  · exact mem_append_right _ (last_mem right isLast).2
  · obtain ⟨e, found, rfl⟩ := mem_map.mp resolved
    exact mem_append_left _ (left.members value e found)

/-- What the two binary operations have in common. -/
theorem of_joined (value : Bool) {operate : Heap → BlockId → BlockId → Option Heap}
    (left : Built h l b0 pend0) (right : Built h r b1 pend1)
    (disjointLeaves : ∀ a ∈ l.leaves, a ∉ r.leaves)
    (effect : ∀ last, (pend1 (!value)).getLast? = some last →
      (∀ e ∈ pend1 (!value), e.1 ≠ b0 ∧ e.1 ∉ (pend0 value).map Prod.fst) →
      ∃ h', operate h b0 b1 = some h' ∧ Joined h h' value b0 b1 (pend0 value) last) :
    ∃ h' pend, operate h b0 b1 = some h' ∧ Built h' (Cond.join value l r) b1 pend ∧
      Touches h h' (l.leaves ++ r.leaves) := by
  obtain ⟨last, isLast⟩ : ∃ last, (pend1 (!value)).getLast? = some last := by
    have nonempty := ne_nil_of_mem (right.links (!value)).self_mem
    exact ⟨_, getLast?_eq_some_getLast nonempty⟩
  have separate : ∀ e ∈ pend1 (!value), e.1 ≠ b0 ∧ e.1 ∉ (pend0 value).map Prod.fst := by
    intro e mem
    have leaf := right.members _ e mem
    refine ⟨?_, ?_⟩
    · rintro rfl
      exact disjointLeaves _ left.handle_mem leaf
    · intro resolved
      obtain ⟨e', found, same⟩ := mem_map.mp resolved
      exact disjointLeaves e.1 (same ▸ left.members value e' found) leaf
  obtain ⟨h', ran, joined⟩ := effect last isLast separate
  exact ⟨h', _, ran, left.join right disjointLeaves isLast joined,
    joined.touches.mono (joinedBlocks_subset left right isLast)⟩

theorem genAnd (left : Built h l b0 pend0) (right : Built h r b1 pend1)
    (disjointLeaves : ∀ a ∈ l.leaves, a ∉ r.leaves) :
    ∃ h' pend, h.genAnd b0 b1 = some h' ∧ Built h' (.and l r) b1 pend ∧
      Touches h h' (l.leaves ++ r.leaves) := by
  refine of_joined true left right disjointLeaves ?_
  intro last isLast separate
  have different : b0 ≠ b1 := by
    rintro rfl
    exact disjointLeaves _ left.handle_mem right.handle_mem
  have first : Links h b0 (!(h.get b0).sense) (pend0 true) := by
    simpa using left.links true
  have second : Links h b1 (h.get b1).sense (pend1 (!true)) := by
    simpa using right.links false
  exact genAnd_joined different first second (left.nodup true) (right.nodup _) separate isLast

theorem genOr (left : Built h l b0 pend0) (right : Built h r b1 pend1)
    (disjointLeaves : ∀ a ∈ l.leaves, a ∉ r.leaves) :
    ∃ h' pend, h.genOr b0 b1 = some h' ∧ Built h' (.or l r) b1 pend ∧
      Touches h h' (l.leaves ++ r.leaves) := by
  refine of_joined false left right disjointLeaves ?_
  intro last isLast separate
  have first : Links h b0 (h.get b0).sense (pend0 false) := by
    simpa using left.links false
  have second : Links h b1 (!(h.get b1).sense) (pend1 (!false)) := by
    simpa using right.links true
  exact genOr_joined first second (left.nodup false) (right.nodup _) separate isLast

end Built

/-- A block as `new_block` leaves it: no exit leads anywhere, and none has been
patched. -/
structure Fresh (h : Heap) (b : BlockId) : Prop where
  inside : b < h.size
  sense : (h.get b).sense = false
  jt : (h.get b).jt = none
  jf : (h.get b).jf = none
  head : (h.get b).head = b
  unpatched : ∀ side, h.patched.count (b, side) = 0

theorem Fresh.built (fresh : Fresh h b) :
    Built h (.leaf b) b (fun v => [(b, v)]) where
  links v := by
    refine ⟨[], by simp [fresh.sense], fresh.inside, ?_⟩
    have unresolved : h.exit b (v ^^ (h.get b).sense) = none := by
      cases v <;> simp [Heap.exit, fresh.sense, fresh.jt, fresh.jf]
    rw [unresolved]
    exact trivial
  nodup v := nodup_singleton b
  apart v e here _ _ _ := by
    rw [mem_singleton.mp here]
  members v e mem := by
    rw [mem_singleton.mp mem]
    exact mem_singleton_self b
  bound a mem := by
    rw [mem_singleton.mp mem]
    exact fresh.inside
  head := fresh.head
  wired := ⟨mem_singleton_self _, mem_singleton_self _⟩
  unpatched v e mem := by
    rw [mem_singleton.mp mem]
    exact fresh.unpatched v
  patchedOnce a mem side resolved := by
    rw [mem_singleton.mp mem] at resolved
    exact absurd (mem_singleton_self _) (resolved side)

theorem Fresh.of_touches (touches : Touches h h' blocks) (avoids : b ∉ blocks) (fresh : Fresh h b) :
    Fresh h' b where
  inside := by rw [touches.size]; exact fresh.inside
  sense := by rw [touches.outside b avoids]; exact fresh.sense
  jt := by rw [touches.outside b avoids]; exact fresh.jt
  jf := by rw [touches.outside b avoids]; exact fresh.jf
  head := by rw [touches.outside b avoids]; exact fresh.head
  unpatched side := by rw [touches.count b avoids]; exact fresh.unpatched side

theorem Built.of_touches {c : Cond BlockId} {pend : Bool → List Exit} (built : Built h c b pend)
    (touches : Touches h h' blocks) (avoids : ∀ a ∈ c.leaves, a ∉ blocks) : Built h' c b pend :=
  built.of_get_eq (Nat.le_of_eq touches.size.symm)
    (fun a mem => touches.outside a (avoids a mem))
    (fun a mem => touches.count a (avoids a mem))

/-- The heap only remembers patches of blocks it has. -/
def Heap.Logged (h : Heap) : Prop := ∀ e ∈ h.patched, e.1 < h.size

theorem Touches.logged (touches : Touches h h' blocks) (inside : ∀ b ∈ blocks, b < h.size)
    (logged : h.Logged) : h'.Logged := by
  intro e mem
  rw [touches.size]
  by_cases known : e.1 ∈ blocks
  · exact inside e.1 known
  · have same := touches.count e.1 known e.2
    have positive : 0 < h'.patched.count e := count_pos_iff.mpr mem
    exact logged e (count_pos_iff.mp (same ▸ positive))

/-- The formula is compiled from this heap, and the invariant is established. -/
def Compiles (h : Heap) (c : Cond BlockId) : Prop :=
  ∃ h' b pend, compileCond h c = some (h', b) ∧ Built h' c b pend ∧ Touches h h' c.leaves

/-- Both operands of a binary formula are compiled before they are combined. -/
theorem compileCond_operands {l r : Cond BlockId} (nodup : (l.leaves ++ r.leaves).Nodup)
    (fresh : ∀ a ∈ l.leaves ++ r.leaves, Fresh h a)
    (compileLeft : ∀ {h}, l.leaves.Nodup → (∀ a ∈ l.leaves, Fresh h a) → Compiles h l)
    (compileRight : ∀ {h}, r.leaves.Nodup → (∀ a ∈ r.leaves, Fresh h a) → Compiles h r) :
    ∃ h1 h2 b0 b1 pend0 pend1, compileCond h l = some (h1, b0) ∧
      compileCond h1 r = some (h2, b1) ∧ Built h2 l b0 pend0 ∧ Built h2 r b1 pend1 ∧
      (∀ a ∈ l.leaves, a ∉ r.leaves) ∧ Touches h h2 (l.leaves ++ r.leaves) := by
  obtain ⟨nodupLeft, nodupRight, disjoint⟩ := nodup_append'.mp nodup
  have disjointLeaves : ∀ a ∈ l.leaves, a ∉ r.leaves := fun _ inLeft inRight =>
    disjoint inLeft inRight
  obtain ⟨h1, b0, pend0, ran0, built0, touches0⟩ :=
    compileLeft nodupLeft fun a mem => fresh a (mem_append_left _ mem)
  obtain ⟨h2, b1, pend1, ran1, built1, touches1⟩ := compileRight nodupRight fun a mem =>
    (fresh a (mem_append_right _ mem)).of_touches touches0
      fun inLeft => disjoint inLeft mem
  refine ⟨h1, h2, b0, b1, pend0, pend1, ran0, ran1, built0.of_touches touches1 disjointLeaves,
    built1, disjointLeaves, ?_⟩
  exact (touches0.mono fun _ => mem_append_left _).trans (touches1.mono fun _ => mem_append_right _)

/-- Compiling any formula over distinct fresh blocks succeeds and establishes the
invariant. -/
theorem compileCond_built (c : Cond BlockId) (nodup : c.leaves.Nodup)
    (fresh : ∀ a ∈ c.leaves, Fresh h a) : Compiles h c := by
  induction c generalizing h with
  | leaf b =>
    exact ⟨h, b, _, rfl, (fresh b (mem_singleton_self b)).built, Touches.refl h _⟩
  | and l r ihLeft ihRight =>
    obtain ⟨h1, h2, b0, b1, pend0, pend1, ran0, ran1, left, right, disjointLeaves, touches⟩ :=
      compileCond_operands nodup fresh ihLeft ihRight
    obtain ⟨h3, pend, ran, built, last⟩ := left.genAnd right disjointLeaves
    exact ⟨h3, b1, pend, by simp [compileCond, ran0, ran1, ran], built, touches.trans last⟩
  | or l r ihLeft ihRight =>
    obtain ⟨h1, h2, b0, b1, pend0, pend1, ran0, ran1, left, right, disjointLeaves, touches⟩ :=
      compileCond_operands nodup fresh ihLeft ihRight
    obtain ⟨h3, pend, ran, built, last⟩ := left.genOr right disjointLeaves
    exact ⟨h3, b1, pend, by simp [compileCond, ran0, ran1, ran], built, touches.trans last⟩
  | not inner ih =>
    obtain ⟨h1, b, pend, ran, built, touches⟩ := ih nodup fresh
    refine ⟨h1.genNot b, b, _, by simp [compileCond, ran], built.not, touches.trans ?_⟩
    have inside : b < h1.size := built.bound b built.handle_mem
    refine (touches_flip h1 inside).mono ?_
    intro a mem
    rw [mem_singleton.mp mem]
    exact built.handle_mem

end Libpcap.Gencode
