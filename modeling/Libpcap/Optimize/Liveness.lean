/-
# Atoms in use and stores that nothing reads

An atom is live behind a block if some path from there reads it before it writes it. `find_ud`
computes the live atoms of all blocks, from the returns up. `opt_deadstores` scans a block
forward and keeps the last store to each atom that has not been read; a store that is followed by
another one, or that is pending at the end of the block while its atom is not live, is deleted.
These are the stores that a scan from the end of the block would find dead (`dropDead`).
-/

import Libpcap.Optimize.Dominators
import Libpcap.Optimize.Walk

namespace Libpcap.Optimize

open Libpcap.Bpf Libpcap.Gencode Libpcap.Semantics List

variable {atom : Nat} {op : Op} {s : Stmt}

/-! ## Reading and writing atoms -/

/-- The atoms that an operation reads, at the end of a block too. -/
def atomsUsed (op : Op) (k : Word) : List Nat :=
  match op with
  | .ldInd _ => [xAtom]
  | .ldMem | .ldxMem => [k.toNat]
  | .st => [aAtom]
  | .stx => [xAtom]
  | .alu _ .k | .jmp _ .k => [aAtom]
  | .alu _ .x | .jmp _ .x => [aAtom, xAtom]
  | .neg | .tax | .retA => [aAtom]
  | .txa => [xAtom]
  | _ => []

/-- The atom that an operation writes. -/
def atomWritten (op : Op) (k : Word) : Option Nat :=
  match op with
  | .ldAbs _ | .ldInd _ | .ldLen | .ldImm | .ldMem | .alu _ _ | .neg | .txa => some aAtom
  | .ldxLen | .ldxMsh | .ldxImm | .ldxMem | .tax => some xAtom
  | .st | .stx => some k.toNat
  | .retK | .retA | .ja | .jmp _ _ => none

/-- A statement reads an atom. -/
def reads (atom : Nat) (s : Stmt) : Bool :=
  (decode s.code).any fun op => (atomsUsed op s.k).contains atom

/-- A statement writes an atom. -/
def writes (atom : Nat) (s : Stmt) : Bool :=
  (decode s.code).any fun op => atomWritten op s.k == some atom

/-- Statements read an atom before they write it. -/
def readsFirst (atom : Nat) : List Stmt → Bool
  | [] => false
  | s :: rest => reads atom s || (!writes atom s && readsFirst atom rest)

theorem readsFirst_append (atom : Nat) (front back : List Stmt) :
    readsFirst atom (front ++ back) =
      (readsFirst atom front || (!front.any (writes atom) && readsFirst atom back)) := by
  induction front with
  | nil => simp [readsFirst]
  | cons s rest ih =>
    simp only [cons_append, readsFirst, ih, any_cons]
    cases reads atom s <;> cases writes atom s <;> simp

/-- The operations with a scratch word. -/
def usesScratch : Op → Bool
  | .ldMem | .ldxMem | .st | .stx => true
  | _ => false

/-- The scratch word of a statement exists. -/
def inRange (s : Stmt) : Bool :=
  (decode s.code).all fun op => !usesScratch op || decide (s.k.toNat < memWords)

theorem inRange_of_decode (ranged : inRange s) (decoded : decode s.code = some op)
    (scratch : usesScratch op = true) :
    s.k.toNat < memWords := by
  simpa [inRange, decoded, scratch] using ranged

/-- `atomuse` finds what an operation reads. -/
theorem atomuse_of_decode (decoded : decode s.code = some op) (noJump : op ≠ .ja) :
    ∃ atoms, atomuse s = .ok atoms ∧ ∀ atom, atom ∈ atoms ↔ atom ∈ atomsUsed op s.k := by
  have pair (atom : Nat) : atom ∈ [xAtom, aAtom] ↔ atom ∈ [aAtom, xAtom] := by
    rw [mem_pair, mem_pair, or_comm]
  rw [atomuse, ← decode_eq_some_iff.mp decoded]
  cases op with
  | ja => exact absurd rfl noJump
  | ldAbs size => cases size <;> exact ⟨[], by simp +decide, fun _ => Iff.rfl⟩
  | ldInd size => cases size <;> exact ⟨[xAtom], by simp +decide, fun _ => Iff.rfl⟩
  | jmp cond src =>
    cases src with
    | k => cases cond <;> exact ⟨[aAtom], by simp +decide, fun _ => Iff.rfl⟩
    | x => cases cond <;> exact ⟨[xAtom, aAtom], by simp +decide, pair⟩
  | alu fn src =>
    cases src with
    | k => cases fn <;> exact ⟨[aAtom], by simp +decide, fun _ => Iff.rfl⟩
    | x => cases fn <;> exact ⟨[xAtom, aAtom], by simp +decide, pair⟩
  | ldMem | ldxMem => exact ⟨[s.k.toNat], by simp +decide, fun _ => Iff.rfl⟩
  | retA | st | neg | tax => exact ⟨[aAtom], by simp +decide, fun _ => Iff.rfl⟩
  | stx | txa => exact ⟨[xAtom], by simp +decide, fun _ => Iff.rfl⟩
  | retK | ldLen | ldImm | ldxLen | ldxMsh | ldxImm =>
    exact ⟨[], by simp +decide, fun _ => Iff.rfl⟩

/-- `atomdef` finds what an operation writes. -/
theorem atomdef_of_decode (decoded : decode s.code = some op) : atomdef s = atomWritten op s.k := by
  rw [atomdef, ← decode_eq_some_iff.mp decoded]
  cases op with
  | ldAbs size | ldInd size => cases size <;> simp +decide [atomWritten]
  | jmp cond src => cases cond <;> cases src <;> simp +decide [atomWritten]
  | alu fn src => cases fn <;> cases src <;> simp +decide [atomWritten]
  | _ => simp +decide [atomWritten]

/-- The statements of a block and its end. -/
def blockCode (b : Block) : List Stmt := b.stmts ++ [b.s]

/-- A statement whose atoms `atomuse` and `atomdef` can tell: no unconditional jump, and a
scratch word that exists. -/
structure Readable (s : Stmt) : Prop where
  known : s.code = nop ∨ ∃ op, decode s.code = some op ∧ op ≠ .ja
  ranged : inRange s

theorem decode_nop : decode nop = none := by decide

section Readable

variable {s : Stmt} (readable : Readable s)

include readable

theorem Readable.atomuse_eq : ∃ atoms, atomuse s = .ok atoms ∧
    ∀ atom, atom ∈ atoms ↔ reads atom s := by
  rcases readable.known with dead | ⟨op, decoded, noJump⟩
  · refine ⟨[], by rw [atomuse, if_pos dead], fun atom => ?_⟩
    simp [reads, dead, decode_nop]
  · obtain ⟨atoms, found, same⟩ := atomuse_of_decode decoded noJump
    refine ⟨atoms, found, fun atom => (same atom).trans ?_⟩
    simp [reads, decoded]

theorem Readable.atomdef_eq (atom : Nat) : atomdef s = some atom ↔ writes atom s := by
  rcases readable.known with dead | ⟨op, decoded, -⟩
  · simp [atomdef, writes, dead, decode_nop]
  · rw [atomdef_of_decode decoded]
    simp [writes, decoded]

theorem Readable.lt_of_reads (read : reads atom s) : atom < nAtoms := by
  cases decoded : decode s.code with
  | none => simp [reads, decoded] at read
  | some op =>
    have scratch (uses : usesScratch op = true) : s.k.toNat < nAtoms :=
      (inRange_of_decode readable.ranged decoded uses).trans (by decide)
    have mem : atom ∈ atomsUsed op s.k := by simpa [reads, decoded] using read
    have cases : atom = aAtom ∨ atom = xAtom ∨ usesScratch op = true ∧ atom = s.k.toNat := by
      revert mem
      cases op with
      | jmp cond src => cases src <;> simp +contextual [atomsUsed, or_imp]
      | alu fn src => cases src <;> simp +contextual [atomsUsed, or_imp]
      | _ => simp +contextual [atomsUsed, usesScratch]
    rcases cases with rfl | rfl | ⟨uses, rfl⟩
    · decide
    · decide
    · exact scratch uses

theorem Readable.lt_of_writes (written : writes atom s) : atom < nAtoms := by
  cases decoded : decode s.code with
  | none => simp [writes, decoded] at written
  | some op =>
    have scratch (uses : usesScratch op = true) : s.k.toNat < nAtoms :=
      (inRange_of_decode readable.ranged decoded uses).trans (by decide)
    have same : atomWritten op s.k = some atom := by simpa [writes, decoded] using written
    cases op with
    | st | stx =>
      cases same
      exact scratch rfl
    | retK | retA | ja | jmp => cases same
    | _ =>
      cases same
      decide

end Readable

/-- The blocks that the code generator hands to the optimizer: plain statements with scratch
words that exist, and a conditional jump or the return of a constant. -/
structure PlainBlock (b : Block) : Prop where
  stmts : b.stmts.all plain
  scratch : b.stmts.all inRange
  last : (∃ cond src, decode b.s.code = some (.jmp cond src)) ∨ decode b.s.code = some .retK

theorem PlainBlock.readable {b : Block} (block : PlainBlock b) : ∀ s ∈ blockCode b, Readable s := by
  intro s mem
  rcases mem_append.mp mem with inside | atEnd
  · refine ⟨?_, all_eq_true.mp block.scratch s inside⟩
    refine (plain_iff.mp (all_eq_true.mp block.stmts s inside)).imp_right ?_
    rintro ⟨op, decoded, goesOn⟩
    refine ⟨op, decoded, ?_⟩
    rintro rfl
    cases goesOn
  · obtain rfl := mem_singleton.mp atEnd
    rcases block.last with ⟨cond, src, decoded⟩ | decoded
    · exact ⟨.inr ⟨_, decoded, nofun⟩, by simp [inRange, decoded, usesScratch]⟩
    · exact ⟨.inr ⟨_, decoded, nofun⟩, by simp [inRange, decoded, usesScratch]⟩

/-! ## Inside a block -/

/-- What `compute_local_ud` has collected from the statements in front. -/
structure Collected (ud : LocalUd) (front : List Stmt) : Prop where
  defined : ∀ atom, ud.defined.mem atom ↔ front.any (writes atom)
  use : ∀ atom, ud.use.mem atom ↔ readsFirst atom front
  kill : ∀ atom, ud.kill.mem atom ↔ front.any (writes atom) ∧ ¬ readsFirst atom front

theorem mem_foldl_insert {atoms : List Nat} {defined use : Bits} :
    (atoms.foldl (fun use atom => if defined.mem atom then use else use.insert atom) use).mem atom ↔
      use.mem atom ∨ atom ∈ atoms ∧ ¬ defined.mem atom := by
  induction atoms generalizing use with
  | nil => simp
  | cons first rest ih =>
    rw [foldl_cons, ih, mem_cons]
    by_cases already : defined.mem first
    · rw [if_pos already]
      constructor
      · rintro (used | ⟨later, free⟩)
        · exact .inl used
        · exact .inr ⟨.inr later, free⟩
      · rintro (used | ⟨rfl | later, free⟩)
        · exact .inl used
        · exact absurd already free
        · exact .inr ⟨later, free⟩
    · rw [if_neg already, Bits.mem_insert]
      constructor
      · rintro ((rfl | used) | ⟨later, free⟩)
        · exact .inr ⟨.inl rfl, already⟩
        · exact .inl used
        · exact .inr ⟨.inr later, free⟩
      · rintro (used | ⟨rfl | later, free⟩)
        · exact .inl (.inr used)
        · exact .inl (.inl rfl)
        · exact .inr ⟨later, free⟩

/-- An atom that is overwritten first stays so. -/
theorem Collected.kill_append {ud : LocalUd} {front : List Stmt} (collected : Collected ud front)
    (s : Stmt) (atom : Nat) : ud.kill.mem atom ↔
      front.any (writes atom) ∧ ¬ readsFirst atom (front ++ [s]) := by
  rw [collected.kill, readsFirst_append]
  cases front.any (writes atom) <;> simp

section Collected

variable {ud : LocalUd} {front : List Stmt} {s : Stmt} (collected : Collected ud front)
  (readable : Readable s)

include collected readable

/-- The atoms that a statement reads. -/
theorem Collected.reads : ∃ atoms use, atomuse s = .ok atoms ∧
    ud.reads atoms = .ok { ud with use } ∧
    ∀ atom, use.mem atom ↔ readsFirst atom (front ++ [s]) := by
  obtain ⟨atoms, found, same⟩ := readable.atomuse_eq
  have small : atoms.all (· < nAtoms) := by
    rw [all_eq_true]
    intro atom mem
    exact decide_eq_true (readable.lt_of_reads ((same atom).mp mem))
  refine ⟨atoms, _, found, if_pos small, fun atom => ?_⟩
  rw [mem_foldl_insert, collected.use, collected.defined, same, readsFirst_append]
  simp [readsFirst, and_comm]

/-- One statement. -/
theorem Collected.stmt :
    ∃ ud', (do return (← ud.reads (← atomuse s)).writes (atomdef s)) = .ok ud' ∧
      Collected ud' (front ++ [s]) := by
  obtain ⟨atoms, use, found, ran, used⟩ := collected.reads readable
  refine ⟨{ ud with use }.writes (atomdef s), by rw [found]; simp [bind, Except.bind, ran]; rfl, ?_⟩
  have killed := collected.kill_append s
  have any (atom : Nat) : (front ++ [s]).any (writes atom) ↔
      front.any (writes atom) ∨ writes atom s := by
    simp
  cases target : atomdef s with
  | none =>
    have unwritten (atom : Nat) : ¬ writes atom s := by
      rw [← readable.atomdef_eq, target]
      nofun
    refine ⟨fun atom => ?_, used, fun atom => ?_⟩
    · rw [any, or_iff_left (unwritten atom)]
      exact collected.defined atom
    · rw [any, or_iff_left (unwritten atom)]
      exact killed atom
  | some target' =>
    have written (atom : Nat) : writes atom s ↔ atom = target' := by
      rw [← readable.atomdef_eq, target, Option.some.injEq, eq_comm]
    refine ⟨fun atom => ?_, used, fun atom => ?_⟩
    · rw [any, written, or_comm]
      exact Bits.mem_insert.trans (or_congr_right (collected.defined atom))
    · rw [any, written]
      change (if use.mem target' then ud.kill else ud.kill.insert target').mem atom ↔ _
      by_cases already : use.mem target'
      · rw [if_pos already, killed, or_and_right, iff_self_or]
        rintro ⟨rfl, unread⟩
        exact absurd ((used atom).mp already) unread
      · rw [if_neg already, Bits.mem_insert, killed, or_and_right, or_comm]
        refine or_congr_right ⟨?_, And.left⟩
        rintro rfl
        exact ⟨rfl, (used atom).not.mp already⟩

end Collected

/-- `compute_local_ud` finds the atoms that a block reads first and those that it only
overwrites. -/
theorem computeLocalUd_spec {b : Block} (block : PlainBlock b) :
    ∃ ud, computeLocalUd b = .ok ud ∧ ∀ atom,
      (ud.use.mem atom ↔ readsFirst atom (blockCode b)) ∧
      (ud.kill.mem atom ↔ b.stmts.any (writes atom) ∧ ¬ readsFirst atom (blockCode b)) := by
  have stmts : ∀ rest front ud, (∀ s ∈ rest, Readable s) → Collected ud front →
      ∃ ud', rest.foldlM (fun ud s => do return (← ud.reads (← atomuse s)).writes (atomdef s)) ud =
        .ok ud' ∧ Collected ud' (front ++ rest) := by
    intro rest
    induction rest with
    | nil => exact fun front ud _ collected => ⟨ud, rfl, by simpa using collected⟩
    | cons s rest ih =>
      intro front ud readable collected
      obtain ⟨ud₁, ran, collected₁⟩ := collected.stmt (readable s mem_cons_self)
      obtain ⟨ud₂, ran₂, collected₂⟩ := ih (front ++ [s]) ud₁
        (fun s' mem => readable s' (mem_cons_of_mem _ mem)) collected₁
      refine ⟨ud₂, ?_, by simpa using collected₂⟩
      rw [foldlM_cons, ran]
      exact ran₂
  have begins : Collected ⟨0, 0, 0⟩ [] := ⟨by simp [Bits.mem], by simp [Bits.mem, readsFirst],
    by simp [Bits.mem]⟩
  obtain ⟨ud, ran, collected⟩ := stmts b.stmts [] ⟨0, 0, 0⟩
    (fun s mem => block.readable s (mem_append_left _ mem)) begins
  rw [nil_append] at collected
  have readableEnd : Readable b.s := block.readable b.s (by simp [blockCode])
  rw [computeLocalUd, ran]
  rcases block.last with ⟨cond, src, decoded⟩ | decoded
  · have isJump : bpfClass b.s.code = bpfJmp := by
      rw [← decode_eq_some_iff.mp decoded]
      cases cond <;> cases src <;> decide
    obtain ⟨atoms, use, found, ran', used⟩ := collected.reads readableEnd
    refine ⟨{ ud with use }, ?_, fun atom => ⟨used atom, collected.kill_append b.s atom⟩⟩
    simp only [bind, Except.bind, if_pos isJump, found, ran']
  · have noJump : bpfClass b.s.code ≠ bpfJmp := by
      rw [← decode_eq_some_iff.mp decoded]
      decide
    refine ⟨ud, ?_, fun atom => ⟨?_, collected.kill_append b.s atom⟩⟩
    · simp [bind, Except.bind, if_neg noJump, pure, Except.pure]
    · rw [collected.use, blockCode, readsFirst_append]
      simp [readsFirst, reads, decoded, atomsUsed]

/-! ## Over the graph -/

/-- The graphs that the code generator hands to the optimizer: plain statements with scratch
words that exist, and returns of constants. -/
structure FilterGraph (h : Heap) (root : BlockId) : Prop extends PlainGraph h root where
  scratch : ∀ b, Reached h root b → (h.get b).stmts.all inRange
  returns : ∀ b, Reached h root b → (h.get b).jt = none →
    decode (h.get b).s.code = some .retK

/-- A path from the end of a block reads an atom before it writes it. -/
def LiveOut (h : Heap) (b : BlockId) (atom : Nat) : Prop :=
  ∃ path, List.IsChain (Leads h) (b :: path) ∧
    readsFirst atom (path.flatMap fun c => blockCode (h.get c))

section Graph

variable {h : Heap} {root : BlockId} (graph : FilterGraph h root)

include graph

theorem FilterGraph.plainBlock {b : BlockId} (path : Reached h root b) : PlainBlock (h.get b) := by
  refine ⟨graph.stmts b path, graph.scratch b path, ?_⟩
  rcases graph.ends b path with ⟨_, _, cond, src, -, -, decoded⟩ | ⟨noExit, -, -⟩
  · exact .inl ⟨cond, src, decoded⟩
  · exact .inr (graph.returns b path noExit)

/-- The end of a block writes nothing. -/
theorem FilterGraph.writes_code {b : BlockId} (path : Reached h root b)
    (atom : Nat) :
    (blockCode (h.get b)).any (writes atom) = (h.get b).stmts.any (writes atom) := by
  rcases (graph.plainBlock path).last with ⟨cond, src, decoded⟩ | decoded <;>
    simp [blockCode, writes, decoded, atomWritten]

/-- There is a set of each kind for every block. -/
structure Uses.Sized (u : Uses) (n : Nat) : Prop where
  inUse : u.inUse.size = n
  outUse : u.outUse.size = n
  kill : u.kill.size = n

/-- The first loop of `find_ud`. -/
theorem foldlM_localUses (list : List BlockId) :
    ∀ u, Uses.Sized u h.size → (∀ b ∈ list, Reached h root b) →
      ∃ u', list.foldlM (localUses h) u = .ok u' ∧ u'.Sized h.size ∧
        (∀ b ∈ list, u'.outUse.get b = 0 ∧ ∀ atom,
          ((u'.inUse.get b).mem atom ↔ readsFirst atom (blockCode (h.get b))) ∧
          ((u'.kill.get b).mem atom ↔ (h.get b).stmts.any (writes atom) ∧
            ¬ readsFirst atom (blockCode (h.get b)))) ∧
        ∀ b, b ∉ list → u'.inUse.get b = u.inUse.get b ∧ u'.outUse.get b = u.outUse.get b ∧
          u'.kill.get b = u.kill.get b := by
  induction list with
  | nil => exact fun u sized _ => ⟨u, rfl, sized, nofun, fun _ _ => ⟨rfl, rfl, rfl⟩⟩
  | cons d list ih =>
    intro u sized reach
    have pathD := reach d mem_cons_self
    have inside := graph.inside d pathD
    obtain ⟨ud, ran, spec⟩ := computeLocalUd_spec (graph.plainBlock pathD)
    let u₁ : Uses :=
      { inUse := u.inUse.set d ud.use, outUse := u.outUse.set d 0, kill := u.kill.set d ud.kill }
    have sized₁ : u₁.Sized h.size :=
      ⟨(u.inUse.size_modify _ _).trans sized.inUse,
        (u.outUse.size_modify _ _).trans sized.outUse, (u.kill.size_modify _ _).trans sized.kill⟩
    obtain ⟨u', ran', sized', listed, others⟩ := ih u₁ sized₁
      fun b mem => reach b (mem_cons_of_mem _ mem)
    refine ⟨u', ?_, sized', ?_, ?_⟩
    · rw [foldlM_cons, localUses, ran]
      exact ran'
    · intro b mem
      by_cases later : b ∈ list
      · exact listed b later
      · obtain rfl : b = d := (mem_cons.mp mem).resolve_right later
        obtain ⟨sameIn, sameOut, sameKill⟩ := others b later
        rw [sameIn, sameOut, sameKill]
        refine ⟨u.outUse.get_modify_self _ (sized.outUse.symm ▸ inside), fun atom => ?_⟩
        rw [show u₁.inUse.get b = ud.use from
            u.inUse.get_modify_self _ (sized.inUse.symm ▸ inside),
          show u₁.kill.get b = ud.kill from u.kill.get_modify_self _ (sized.kill.symm ▸ inside)]
        exact spec atom
    · intro b outside
      rw [mem_cons, not_or] at outside
      obtain ⟨sameIn, sameOut, sameKill⟩ := others b outside.2
      rw [sameIn, sameOut, sameKill]
      exact ⟨u.inUse.get_modify_of_ne _ (Ne.symm outside.1),
        u.outUse.get_modify_of_ne _ (Ne.symm outside.1),
        u.kill.get_modify_of_ne _ (Ne.symm outside.1)⟩

/-- One turn of the second loop of `find_ud`. -/
theorem pulls_spreadUses {u : Uses} (sized : u.Sized h.size) {d : BlockId}
    (path : Reached h root d) (exits : (h.get d).jt ≠ none) (atom : Nat) :
    (spreadUses h u d).Sized h.size ∧ (spreadUses h u d).kill = u.kill ∧
      Pulls (fun q b => Leads h b q) (fun b => (u.kill.get b).mem atom)
        (fun u b => (u.inUse.get b).mem atom) (fun u b => (u.outUse.get b).mem atom)
        u (spreadUses h u d) d := by
  have inside := graph.inside d path
  rcases graph.ends d path with ⟨t, f, _, _, onT, onF, -⟩ | ⟨noT, noF, -⟩
  · let out := u.outUse.get d ||| (u.inUse.get t ||| u.inUse.get f)
    have result : spreadUses h u d =
        { u with
          outUse := u.outUse.set d out
          inUse := u.inUse.modify d (· ||| Bits.without out (u.kill.get d)) } := by
      simp only [spreadUses, onT, onF]
      rfl
    have arrives : (∃ q, Leads h d q ∧ (u.inUse.get q).mem atom) ↔
        (u.inUse.get t).mem atom ∨ (u.inUse.get f).mem atom := by
      constructor
      · rintro ⟨q, ⟨side, exit⟩, used⟩
        cases side with
        | true => exact .inl (Option.some.inj (exit.symm.trans onT) ▸ used)
        | false => exact .inr (Option.some.inj (exit.symm.trans onF) ▸ used)
      · rintro (used | used)
        · exact ⟨t, ⟨true, onT⟩, used⟩
        · exact ⟨f, ⟨false, onF⟩, used⟩
    have getOut (b : BlockId) : (u.outUse.set d out).get b =
        if b = d then out else u.outUse.get b :=
      u.outUse.get_modify _ (sized.outUse.symm ▸ inside) b
    have getIn (b : BlockId) := u.inUse.get_modify
      (· ||| Bits.without out (u.kill.get d)) (sized.inUse.symm ▸ inside) b
    rw [result]
    refine ⟨⟨(u.inUse.size_modify _ _).trans sized.inUse,
      (u.outUse.size_modify _ _).trans sized.outUse, sized.kill⟩, rfl, fun b => ?_, fun b => ?_⟩
    · simp only [getOut]
      by_cases same : b = d
      · subst same
        rw [if_pos rfl, arrives, Bits.mem_or, Bits.mem_or]
        simp
      · simp [same]
    · simp only [getIn, getOut, if_true]
      by_cases same : b = d
      · subst same
        rw [if_pos rfl, Bits.mem_or, Bits.mem_without]
        simp
      · simp [same]
  · exact absurd noT exits

/-- A fact that is generated by blocks that read an atom first and killed by blocks that
overwrite it holds at the start of a block if a path from there reads the atom first. -/
theorem flows_iff_readsFirst {kill : BlockId → Prop} (killed : ∀ b, Reached h
      root b → (kill b ↔ (h.get b).stmts.any (writes atom) ∧ ¬ readsFirst atom (blockCode (h.get
      b)))) {q : BlockId} (path : Reached h root q) :
    Flows (fun q b => Leads h b q) (fun _ => False)
        (fun b => Reached h root b ∧ readsFirst atom (blockCode (h.get b)))
        kill q ↔
      ∃ blocks, List.IsChain (Leads h) (q :: blocks) ∧
        readsFirst atom ((q :: blocks).flatMap fun c => blockCode (h.get c)) := by
  constructor
  · intro flows
    induction flows with
    | gen generates => exact ⟨[], .singleton _, by simpa using generates.2⟩
    | start starts => exact starts.elim
    | @edge next b flows leads kept ih =>
      obtain ⟨blocks, chain, read⟩ := ih (path.tail leads)
      refine ⟨next :: blocks, .cons_cons leads chain, ?_⟩
      rw [killed b path, not_and_not_right] at kept
      rw [flatMap_cons, readsFirst_append, graph.writes_code path, read]
      cases written : (h.get b).stmts.any (writes atom) with
      | false => simp
      | true => simp [kept written]
  · rintro ⟨blocks, chain, read⟩
    induction blocks generalizing q with
    | nil => exact .gen ⟨path, by simpa using read⟩
    | cons next blocks ih =>
      rw [isChain_cons_cons] at chain
      rw [flatMap_cons, readsFirst_append, graph.writes_code path, Bool.or_eq_true,
        Bool.and_eq_true] at read
      rcases read with here | ⟨unwritten, later⟩
      · exact .gen ⟨path, here⟩
      · refine .edge (ih (path.tail chain.1) chain.2 later) chain.1 fun kills => ?_
        have written := ((killed q path).mp kills).1
        simp [written] at unwritten

variable {rank : BlockId → Nat} {lv : Levels} (leveled : Leveled h root rank lv)
  (placed : lv.Placed root)

include leveled placed

theorem findUd_spec :
    ∃ u, findUd h (lv.down (lv.level.get root)) (lv.up (lv.level.get root)) = .ok u ∧
      ∀ b, Reached h root b → ∀ atom,
        (u.outUse.get b).mem atom ↔ LiveOut h b atom := by
  let zero : Store Bits := .replicate h.size 0
  have size : zero.size = h.size := by simp [zero, Store.size, Store.replicate]
  have zeroGet (b : BlockId) : zero.get b = 0 := by
    rw [Store.get_replicate]
    split <;> rfl
  have mem_down {b : BlockId} := leveled.mem_down_iff placed (b := b)
  obtain ⟨u₀, ran, sized, listed, others⟩ := foldlM_localUses graph
    (lv.down (lv.level.get root)) ⟨zero, zero, zero⟩ ⟨size, size, size⟩ fun b => mem_down.mp
  refine ⟨(lv.up (lv.level.get root)).foldl (spreadUses h) u₀, ?_, fun b path atom => ?_⟩
  · rw [findUd]
    change ((lv.down (lv.level.get root)).foldlM (localUses h) ⟨zero, zero, zero⟩ >>= _) = _
    rw [ran]
    rfl
  have killed (b : BlockId) (path : Reached h root b) :=
    ((listed b (mem_down.mpr path)).2 atom).2
  have reach {b : BlockId} (mem : b ∈ lv.up (lv.level.get root)) := (leveled.mem_up mem).1
  have sorted : (lv.up (lv.level.get root)).Pairwise fun b c => ¬ Leads h b c := by
    refine (leveled.up_sorted _).imp_of_mem fun {b c} mem _ sorted leads => ?_
    have here := (leveled.placed_of_reach placed (reach mem)).1
    exact absurd (leveled.lt_of_leads here leads).2 (Nat.not_lt.mpr sorted)
  have complete (d : BlockId) (mem : d ∈ lv.up (lv.level.get root)) (q : BlockId)
      (leads : Leads h d q) : q ∈ lv.up (lv.level.get root) ∨ ∀ r, ¬ Leads h q r := by
    by_cases exits : ∃ r, Leads h q r
    · obtain ⟨r, leads'⟩ := exits
      exact .inl (leveled.mem_up_of_leads placed ((reach mem).tail leads) leads')
    · exact .inr fun r leads' => exits ⟨r, leads'⟩
  have starts (b : BlockId) : (u₀.inUse.get b).mem atom ↔
      Reached h root b ∧ readsFirst atom (blockCode (h.get b)) := by
    by_cases path : Reached h root b
    · rw [((listed b (mem_down.mpr path)).2 atom).1, and_iff_right path]
    · rw [(others b (mem_down.not.mpr path)).1, zeroGet]
      simp [Bits.mem, path]
  have nothing (b : BlockId) : ¬ (u₀.outUse.get b).mem atom := by
    by_cases path : Reached h root b
    · rw [(listed b (mem_down.mpr path)).1]
      simp [Bits.mem]
    · rw [(others b (mem_down.not.mpr path)).2.1, zeroGet]
      simp [Bits.mem]
  have pulled := foldl_pulls (fun q b => Leads h b q) _ (fun b => (u₀.kill.get b).mem atom)
    (fun u b => (u.inUse.get b).mem atom) (fun u b => (u.outUse.get b).mem atom)
    (fun u => Uses.Sized u h.size ∧ u.kill = u₀.kill) ⟨sized, rfl⟩ sorted
    (fun d mem leads => graph.acyclic d (reach mem) (.single leads)) complete starts nothing
    (fun u d mem inv => by
      obtain ⟨sized', kept, pulls⟩ := pulls_spreadUses graph inv.1 (reach mem)
        (leveled.mem_up mem).2 atom
      rw [inv.2] at pulls kept
      exact ⟨⟨sized', kept⟩, pulls⟩)
  rw [pulled.comes b, LiveOut]
  constructor
  · rintro ⟨-, q, leads, flows⟩
    obtain ⟨blocks, chain, read⟩ :=
      (flows_iff_readsFirst graph killed (path.tail leads)).mp flows
    exact ⟨q :: blocks, .cons_cons leads chain, read⟩
  · rintro ⟨blocks, chain, read⟩
    cases blocks with
    | nil => cases read
    | cons q blocks =>
      rw [isChain_cons_cons] at chain
      refine ⟨leveled.mem_up_of_leads placed path chain.1, q, chain.1, ?_⟩
      exact (flows_iff_readsFirst graph killed (path.tail chain.1)).mpr ⟨blocks, chain.2, read⟩

end Graph

/-- The check of a graph that is written down. -/
theorem FilterGraph.of_forward {h : Heap} {root : BlockId} (start : root < h.size)
    (checked : ∀ b < h.size, forwardBlock h b = true)
    (plainly : ∀ b < h.size, (h.get b).stmts.all plain = true ∧ (h.get b).stmts.all inRange = true) :
    FilterGraph h root := by
  have flow : FlowGraph h root := .of_forward start checked
  refine { flow with stmts := ?_, scratch := ?_, returns := ?_ }
  · exact fun b path => (plainly b (flow.inside b path)).1
  · exact fun b path => (plainly b (flow.inside b path)).2
  · intro b path noExit
    rcases exits_of_forwardBlock (checked b (flow.inside b path)) with
      ⟨t, f, cond, src, onT, -⟩ | ⟨-, -, decoded⟩
    · cases onT.symm.trans noExit
    · exact decoded

end Libpcap.Optimize
