/-
# Unresolved exits

While a condition is being compiled, the exits that do not lead anywhere yet are
kept in two lists, one for each truth value. The lists have no storage of their
own: the next block of a list is stored in the unresolved exit itself, and the
`sense` bit of each block says which of its exits that is. The block that stands
for the condition heads both lists, and flipping its `sense` exchanges them.

`Links` describes such a list in the heap as a plain list of exits, and
`backpatch` and `merge` are specified in these terms: the first resolves exactly
the exits of the list, the second writes exactly its last exit.
-/

import Libpcap.Gencode.Block
import Mathlib.Data.List.Nodup
import Mathlib.Data.List.Perm.Subperm

namespace Libpcap.Gencode

open Libpcap.Semantics List

variable {first second : Block} {b : BlockId} {last : Exit} {h h' : Heap} {exits : List Exit}
  {start : Option BlockId}

namespace Heap

/-! ## `backpatch` and `merge` -/

/-- The loop of `backpatch`; the source's loop has no bound, and `none` says that
the given number of turns was not enough. -/
def backpatchFor : Nat → Heap → Option BlockId → BlockId → Option Heap
  | _, h, none, _ => some h
  | 0, _, some _, _ => none
  | fuel + 1, h, some list, target =>
    let side := !(h.get list).sense
    backpatchFor fuel ((h.setExit list side (some target)).logPatch (list, side))
      (h.exit list side) target

/-- `backpatch`: a list that visits no block twice is shorter than the heap. -/
def backpatch (h : Heap) (list target : BlockId) : Option Heap :=
  backpatchFor h.size h (some list) target

/-- The loop of `merge`, at the block `list` of the first list. -/
def mergeFor : Nat → Heap → BlockId → BlockId → Option Heap
  | 0, _, _, _ => none
  | fuel + 1, h, list, tail =>
    let side := !(h.get list).sense
    match h.exit list side with
    | none => some (h.setExit list side (some tail))
    | some next => mergeFor fuel h next tail

def merge (h : Heap) (b0 b1 : BlockId) : Option Heap := mergeFor h.size h b0 b1

end Heap

/-! ## Lists threaded through exits -/

/-- From `start`, following the exit that each block's `sense` selects, one finds
exactly the given exits. -/
def Chain (h : Heap) : Option BlockId → List Exit → Prop
  | none, [] => True
  | some b, (c, side) :: rest =>
    c = b ∧ b < h.size ∧ side = !(h.get b).sense ∧ Chain h (h.exit b side) rest
  | _, _ => False

/-- The list that starts with the given exit of a block, whatever its `sense`. -/
def Links (h : Heap) (b : BlockId) (side : Bool) (exits : List Exit) : Prop :=
  ∃ rest, exits = (b, side) :: rest ∧ b < h.size ∧ Chain h (h.exit b side) rest

/-- A block without its exits. -/
def Block.core (block : Block) : Block := { block with jt := none, jf := none }

section

variable (same : first.core = second.core)
include same

theorem Block.sense_of_core : first.sense = second.sense :=
  (Block.mk.inj same).2.2.1

theorem Block.head_of_core : first.head = second.head :=
  (Block.mk.inj same).2.2.2.2.2.1

theorem Block.stmts_of_core : first.stmts = second.stmts :=
  (Block.mk.inj same).1

theorem Block.s_of_core : first.s = second.s :=
  (Block.mk.inj same).2.1

end

/-- Two heaps differ at most in where exits lead. -/
structure Rewired (h h' : Heap) : Prop where
  size : h'.size = h.size
  core : ∀ c, (h'.get c).core = (h.get c).core

namespace Rewired

variable {h h' h'' : Heap}

theorem refl (h : Heap) : Rewired h h := ⟨rfl, fun _ => rfl⟩

theorem trans (first : Rewired h h') (second : Rewired h' h'') : Rewired h h'' :=
  ⟨second.size.trans first.size, fun c => (second.core c).trans (first.core c)⟩

theorem sense (same : Rewired h h') (c : BlockId) : (h'.get c).sense = (h.get c).sense :=
  Block.sense_of_core (same.core c)

theorem head (same : Rewired h h') (c : BlockId) : (h'.get c).head = (h.get c).head :=
  Block.head_of_core (same.core c)

theorem stmts (same : Rewired h h') (c : BlockId) : (h'.get c).stmts = (h.get c).stmts :=
  Block.stmts_of_core (same.core c)

theorem s (same : Rewired h h') (c : BlockId) : (h'.get c).s = (h.get c).s :=
  Block.s_of_core (same.core c)

end Rewired

theorem rewired_setExit (h : Heap) (inside : b < h.size) (side : Bool) (target : Option BlockId) :
    Rewired h (h.setExit b side target) := by
  refine ⟨h.size_setExit side target, ?_⟩
  intro c
  rw [Heap.setExit, h.get_modify inside]
  split
  · rename_i same
    subst same
    cases side <;> rfl
  · rfl

theorem Chain.bound (chain : Chain h start exits) : ∀ e ∈ exits, e.1 < h.size := by
  induction exits generalizing start with
  | nil => simp
  | cons e rest ih =>
    obtain ⟨c, side⟩ := e
    cases start with
    | none => exact chain.elim
    | some b =>
      obtain ⟨rfl, inside, _, tail⟩ := chain
      intro other mem
      rcases mem_cons.mp mem with rfl | later
      · exact inside
      · exact ih tail other later

/-- A chain only depends on the blocks it visits. -/
theorem Chain.congr (larger : h.size ≤ h'.size)
    (same : ∀ e ∈ exits, (h'.get e.1).sense = (h.get e.1).sense ∧ h'.exit e.1 e.2 = h.exit e.1 e.2)
    (chain : Chain h start exits) : Chain h' start exits := by
  induction exits generalizing start with
  | nil =>
    cases start with
    | none => exact trivial
    | some b => exact chain.elim
  | cons e rest ih =>
    obtain ⟨c, side⟩ := e
    cases start with
    | none => exact chain.elim
    | some b =>
      obtain ⟨rfl, inside, selected, tail⟩ := chain
      obtain ⟨sense, link⟩ := same (c, side) mem_cons_self
      refine ⟨rfl, Nat.lt_of_lt_of_le inside larger, by rw [sense]; exact selected, ?_⟩
      rw [link]
      exact ih (fun e mem => same e (mem_cons_of_mem _ mem)) tail

/-- A chain whose last exit is made to point to a further chain continues with
it. -/
theorem Chain.append {next : BlockId} {more : List Exit} (larger : h.size ≤ h'.size)
    (chain : Chain h start exits) (isLast : exits.getLast? = some last) (nodup : exits.Nodup)
    (senses : ∀ e ∈ exits, (h'.get e.1).sense = (h.get e.1).sense)
    (links : ∀ e ∈ exits, e ≠ last → h'.exit e.1 e.2 = h.exit e.1 e.2)
    (joined : h'.exit last.1 last.2 = some next) (continues : Chain h' (some next) more) :
    Chain h' start (exits ++ more) := by
  induction exits generalizing start with
  | nil => simp at isLast
  | cons e rest ih =>
    obtain ⟨c, side⟩ := e
    cases start with
    | none => exact chain.elim
    | some b =>
      obtain ⟨rfl, inside, selected, tail⟩ := chain
      have sense := senses (c, side) mem_cons_self
      refine ⟨rfl, Nat.lt_of_lt_of_le inside larger, by rw [sense]; exact selected, ?_⟩
      cases rest with
      | nil =>
        simp only [getLast?_singleton, Option.some.injEq] at isLast
        subst isLast
        rw [joined]
        exact continues
      | cons second others =>
        rw [getLast?_cons_cons] at isLast
        have later : last ∈ second :: others := mem_of_getLast? isLast
        have notLast : (c, side) ≠ last := by
          rintro rfl
          exact (nodup_cons.mp nodup).1 later
        rw [links (c, side) mem_cons_self notLast]
        exact ih tail isLast (nodup_cons.mp nodup).2
          (fun e mem => senses e (mem_cons_of_mem _ mem))
          (fun e mem => links e (mem_cons_of_mem _ mem))

/-! ## The lists of a block -/

section Lists

variable {h : Heap} {b : BlockId} {side : Bool} {exits : List Exit}

section

variable (links : Links h b side exits)
include links

theorem Links.bound : ∀ e ∈ exits, e.1 < h.size := by
  obtain ⟨rest, rfl, inside, chain⟩ := links
  intro e mem
  rcases mem_cons.mp mem with rfl | later
  · exact inside
  · exact chain.bound e later

/-- The side that the block's `sense` selects gives the list the source's loops
walk. -/
theorem Links.chain (selected : side = !(h.get b).sense) : Chain h (some b) exits := by
  obtain ⟨rest, rfl, inside, chain⟩ := links
  exact ⟨rfl, inside, selected, chain⟩

theorem Links.self_mem : (b, side) ∈ exits := by
  obtain ⟨rest, rfl, _⟩ := links
  exact mem_cons_self

/-- A list of different blocks depends on its exits, and on the `sense` of all blocks but the
first. -/
theorem Links.congr (nodup : (exits.map Prod.fst).Nodup)
    (larger : h.size ≤ h'.size) (kept : ∀ e ∈ exits, h'.exit e.1 e.2 = h.exit e.1 e.2)
    (senses : ∀ e ∈ exits, e.1 ≠ b → (h'.get e.1).sense = (h.get e.1).sense) :
    Links h' b side exits := by
  obtain ⟨rest, rfl, inside, chain⟩ := links
  refine ⟨rest, rfl, Nat.lt_of_lt_of_le inside larger, ?_⟩
  rw [kept _ mem_cons_self]
  refine chain.congr larger fun e mem => ⟨?_, kept e (mem_cons_of_mem _ mem)⟩
  apply senses e (mem_cons_of_mem _ mem)
  intro same
  exact (nodup_cons.mp nodup).1 (mem_map.mpr ⟨e, mem, same⟩)

/-- Flipping `sense` of the first block selects another list and keeps this one. -/
theorem Links.flip (nodup : (exits.map Prod.fst).Nodup) : Links (h.flip b) b side exits := by
  have inside := links.bound _ links.self_mem
  refine links.congr nodup (Nat.le_of_eq h.size_flip.symm)
    (fun e _ => h.exit_flip inside e.1 e.2) ?_
  intro e _ other
  rw [h.sense_flip inside, if_neg other]

end

/-- Joining the lists of two blocks at the last exit of the first. -/
theorem Links.append {c : BlockId} {other : Bool} {more : List Exit} (larger : h.size ≤ h'.size)
    (links : Links h b side exits) (isLast : exits.getLast? = some last) (nodup : exits.Nodup)
    (senses : ∀ e ∈ exits, e ≠ (b, side) → (h'.get e.1).sense = (h.get e.1).sense)
    (same : ∀ e ∈ exits, e ≠ last → h'.exit e.1 e.2 = h.exit e.1 e.2)
    (joined : h'.exit last.1 last.2 = some c) (selected : other = !(h'.get c).sense)
    (continues : Links h' c other more) : Links h' b side (exits ++ more) := by
  obtain ⟨rest, rfl, inside, chain⟩ := links
  refine ⟨rest ++ more, rfl, Nat.lt_of_lt_of_le inside larger, ?_⟩
  cases rest with
  | nil =>
    simp only [getLast?_singleton, Option.some.injEq] at isLast
    subst isLast
    rw [joined]
    exact continues.chain selected
  | cons second others =>
    rw [getLast?_cons_cons] at isLast
    obtain ⟨fresh, nodupRest⟩ := nodup_cons.mp nodup
    have notLast : (b, side) ≠ last := by
      rintro rfl
      exact fresh (mem_of_getLast? isLast)
    rw [same (b, side) mem_cons_self notLast]
    refine chain.append larger isLast nodupRest ?_
      (fun e mem => same e (mem_cons_of_mem _ mem)) joined
      (continues.chain selected)
    intro e mem
    apply senses e (mem_cons_of_mem _ mem)
    rintro rfl
    exact fresh mem

end Lists

/-- A block that is flipped before and after an operation on the exits. -/
theorem Rewired.flip (inside : b < h.size) (same : Rewired (h.flip b) h') :
    Rewired h (h'.flip b) := by
  have inside' : b < h'.size := by rw [same.size, h.size_flip]; exact inside
  refine ⟨by rw [Heap.size_flip, same.size, Heap.size_flip], fun c => ?_⟩
  have core := same.core c
  rw [Heap.flip, h.get_modify inside] at core
  rw [Heap.flip, h'.get_modify inside']
  by_cases here : c = b
  · subst here
    simp_all [Block.core]
  · rw [if_neg here] at core ⊢
    exact core

/-- A list of different blocks fits the heap. -/
theorem length_le_of_nodup (bound : ∀ e ∈ exits, e.1 < h.size) (nodup : (exits.map Prod.fst).Nodup) :
    exits.length ≤ h.size := by
  have inside : exits.map Prod.fst ⊆ range h.size := by
    intro b mem
    obtain ⟨e, found, rfl⟩ := mem_map.mp mem
    exact mem_range.mpr (bound e found)
  simpa using (nodup.subperm inside).length_le

/-! ## Specifications of the two loops -/

/-- `h'` is `h` with the given exits resolved to `target`. -/
structure Patched (h h' : Heap) (exits : List Exit) (target : BlockId) : Prop
    extends Rewired h h' where
  exit : ∀ c side, h'.exit c side = if (c, side) ∈ exits then some target else h.exit c side
  patched : h'.patched = h.patched ++ exits

theorem Patched.flip {target : BlockId} (inside : b < h.size)
    (patched : Patched (h.flip b) h' exits target) : Patched h (h'.flip b) exits target where
  toRewired := patched.toRewired.flip inside
  exit c side := by
    have inside' : b < h'.size := by rw [patched.size, h.size_flip]; exact inside
    rw [h'.exit_flip inside', patched.exit, h.exit_flip inside]
  patched := patched.patched

theorem Chain.backpatchFor (target : BlockId) (chain : Chain h start exits)
    (nodup : (exits.map Prod.fst).Nodup) {fuel : Nat} (enough : exits.length ≤ fuel) :
    ∃ h', h.backpatchFor fuel start target = some h' ∧ Patched h h' exits target := by
  induction exits generalizing h start fuel with
  | nil =>
    cases start with
    | none =>
      refine ⟨h, by cases fuel <;> rfl, Rewired.refl h, ?_, by simp⟩
      intro c side
      simp
    | some b => exact chain.elim
  | cons e rest ih =>
    obtain ⟨c, side⟩ := e
    cases start with
    | none => exact chain.elim
    | some b =>
      obtain ⟨rfl, inside, selected, tail⟩ := chain
      cases fuel with
      | zero => simp at enough
      | succ fuel =>
        obtain ⟨fresh, nodupRest⟩ := nodup_cons.mp nodup
        let patchedHere := (h.setExit c side (some target)).logPatch (c, side)
        have other : ∀ e ∈ rest, e.1 ≠ c := by
          intro e mem same
          exact fresh (mem_map.mpr ⟨e, mem, same⟩)
        have rewired : Rewired h patchedHere :=
          ⟨h.size_setExit side _, (rewired_setExit h inside side _).core⟩
        have exits : ∀ d v, patchedHere.exit d v =
            if (d, v) = (c, side) then some target else h.exit d v :=
          fun d v => h.exit_setExit inside side _ d v
        have again : Chain patchedHere (h.exit c side) rest := by
          refine tail.congr (Nat.le_of_eq rewired.size.symm) ?_
          intro e mem
          refine ⟨rewired.sense e.1, ?_⟩
          rw [exits, if_neg]
          intro same
          exact other e mem (congrArg Prod.fst same)
        obtain ⟨h', ran, result⟩ := ih again nodupRest (Nat.le_of_succ_le_succ enough)
        refine ⟨h', ?_, rewired.trans result.toRewired, ?_, ?_⟩
        · rw [Heap.backpatchFor, ← selected]
          exact ran
        · intro d v
          rw [result.exit, exits]
          by_cases here : (d, v) = (c, side)
          · simp [here]
          · by_cases later : (d, v) ∈ rest
            · simp [later]
            · rw [if_neg later, if_neg here, if_neg]
              simp only [mem_cons, not_or]
              exact ⟨here, later⟩
        · rw [result.patched]
          simp [patchedHere, Heap.logPatch, Heap.setExit, Heap.modify]

/-- `backpatch` terminates and resolves exactly the exits of the list. -/
theorem Links.backpatch (target : BlockId) (links : Links h b (!(h.get b).sense) exits)
    (nodup : (exits.map Prod.fst).Nodup) :
    ∃ h', h.backpatch b target = some h' ∧ Patched h h' exits target :=
  (links.chain rfl).backpatchFor target nodup (length_le_of_nodup links.bound nodup)

/-- `h'` is `h` with the exit `last` made to point to `tail`. -/
structure Merged (h h' : Heap) (last : Exit) (tail : BlockId) : Prop extends Rewired h h' where
  exit : ∀ c side, h'.exit c side = if (c, side) = last then some tail else h.exit c side
  patched : h'.patched = h.patched

theorem Merged.flip {tail : BlockId} (inside : b < h.size)
    (merged : Merged (h.flip b) h' last tail) : Merged h (h'.flip b) last tail where
  toRewired := merged.toRewired.flip inside
  exit c side := by
    have inside' : b < h'.size := by rw [merged.size, h.size_flip]; exact inside
    rw [h'.exit_flip inside', merged.exit, h.exit_flip inside]
  patched := merged.patched

theorem Chain.mergeFor (tail : BlockId) (chain : Chain h (some b) exits)
    (isLast : exits.getLast? = some last) {fuel : Nat} (enough : exits.length ≤ fuel) :
    ∃ h', h.mergeFor fuel b tail = some h' ∧ Merged h h' last tail := by
  induction exits generalizing b fuel with
  | nil => simp at isLast
  | cons e rest ih =>
    obtain ⟨c, side⟩ := e
    obtain ⟨rfl, inside, selected, next⟩ := chain
    cases fuel with
    | zero => simp at enough
    | succ fuel =>
      simp only [Heap.mergeFor, ← selected]
      cases link : h.exit c side with
      | none =>
        have ends : rest = [] := by
          cases rest with
          | nil => rfl
          | cons _ _ =>
            rw [link] at next
            exact next.elim
        subst ends
        simp only [getLast?_singleton, Option.some.injEq] at isLast
        subst isLast
        exact ⟨_, rfl, rewired_setExit h inside side _, h.exit_setExit inside side _, rfl⟩
      | some d =>
        rw [link] at next
        cases rest with
        | nil => exact next.elim
        | cons second others =>
          rw [getLast?_cons_cons] at isLast
          exact ih next isLast (Nat.le_of_succ_le_succ enough)

/-- `merge` terminates and writes exactly the last exit of the first list. -/
theorem Links.merge (tail : BlockId) (links : Links h b (!(h.get b).sense) exits)
    (isLast : exits.getLast? = some last) (nodup : (exits.map Prod.fst).Nodup) :
    ∃ h', h.merge b tail = some h' ∧ Merged h h' last tail :=
  (links.chain rfl).mergeFor tail isLast (length_le_of_nodup links.bound nodup)

end Libpcap.Gencode
