/-
# Layouts of a flow graph

A layout places blocks one in front of the other. `Placed` describes the array
that results from a list of blocks, the block placed last being the head of the
list: every exit of a block leads to a block placed before it, so that every
displacement is the room between the two. Where a block is placed does not
depend on the extra jumps of the blocks; how far its targets are only grows with
them.
-/

import Libpcap.Optimize.Flatten
import Mathlib.Data.List.Nodup

namespace Libpcap.Optimize

open Libpcap.Bpf Libpcap.Gencode List

variable {b : BlockId} {h : Heap} {placed : List BlockId} {code : List Insn} {stmts : List Stmt}
  {i off raw slen : Nat}

/-! ## Statements of one block -/

theorem slength_cons (s : Stmt) (rest : List Stmt) :
    slength (s :: rest) = slength rest + if s.code = nop then 0 else 1 := by
  simp only [slength, countP_cons]
  by_cases dead : s.code = nop
  · simp [dead]
  · simp [dead]

/-- The instructions in front of the `i`-th statement. -/
def live (stmts : List Stmt) (i : Nat) : Nat := slength (stmts.take i)

theorem live_cons_dead {first : Stmt} (rest : List Stmt) (i : Nat) (dead : first.code = nop) :
    live (first :: rest) (i + 1) = live rest i := by
  rw [live, take_succ_cons, slength_cons, if_pos dead]
  rfl

theorem live_cons_alive {first : Stmt} (rest : List Stmt) (i : Nat) (alive : first.code ≠ nop) :
    live (first :: rest) (i + 1) = live rest i + 1 := by
  rw [live, take_succ_cons, slength_cons, if_neg alive]
  rfl

theorem convertStmts_length {insns : List Insn}
    (converted : convertStmts slen raw off stmts = .ok insns) :
    insns.length = slength stmts := by
  induction stmts generalizing raw off insns with
  | nil =>
    cases converted
    rfl
  | cons s rest ih =>
    rw [slength_cons]
    rw [convertStmts] at converted
    by_cases dead : s.code = nop
    · rw [if_pos dead] at converted
      rw [if_pos dead, ih converted, Nat.add_zero]
    · rw [if_neg dead] at converted
      rw [if_neg dead]
      cases here : convertStmt slen raw off s with
      | error fault =>
        rw [here] at converted
        cases converted
      | ok i =>
        cases later : convertStmts slen (raw + 1) (off + 1) rest with
        | error fault =>
          rw [here, later] at converted
          cases converted
        | ok is =>
          rw [here, later] at converted
          cases converted
          rw [length_cons, ih later]

/-- The instruction that a statement becomes, and where it stands. -/
theorem convertStmts_get {insns : List Insn}
    (converted : convertStmts slen raw off stmts = .ok insns) {s : Stmt}
    (found : stmts[i]? = some s) (alive : s.code ≠ nop) :
    ∃ ins, insns[live stmts i]? = some ins ∧
      convertStmt slen (raw + i) (off + live stmts i) s = .ok ins := by
  induction stmts generalizing raw off insns i with
  | nil => simp at found
  | cons first rest ih =>
    rw [convertStmts] at converted
    by_cases dead : first.code = nop
    · rw [if_pos dead] at converted
      cases i with
      | zero =>
        simp only [getElem?_cons_zero, Option.some.injEq] at found
        exact absurd (found ▸ dead) alive
      | succ i =>
        simp only [getElem?_cons_succ] at found
        have same := live_cons_dead rest i dead
        obtain ⟨ins, position, result⟩ := ih converted found
        exact ⟨ins, by rw [same]; exact position, by
          rw [same, show raw + (i + 1) = raw + 1 + i by omega]; exact result⟩
    · rw [if_neg dead] at converted
      cases here : convertStmt slen raw off first with
      | error fault =>
        rw [here] at converted
        cases converted
      | ok head =>
        cases later : convertStmts slen (raw + 1) (off + 1) rest with
        | error fault =>
          rw [here, later] at converted
          cases converted
        | ok tail =>
          rw [here, later] at converted
          cases converted
          cases i with
          | zero =>
            simp only [getElem?_cons_zero, Option.some.injEq] at found
            subst found
            exact ⟨head, rfl, here⟩
          | succ i =>
            simp only [getElem?_cons_succ] at found
            have same := live_cons_alive rest i dead
            obtain ⟨ins, position, result⟩ := ih later found
            refine ⟨ins, by rw [same]; exact position, ?_⟩
            rw [same, show raw + (i + 1) = raw + 1 + i by omega,
              show off + (live rest i + 1) = off + 1 + live rest i by omega]
            exact result

/-- A block whose statements can all be converted can be converted. -/
theorem convertStmts_ok (each : ∀ i s, stmts[i]? = some s → s.code ≠ nop → ∃ ins, convertStmt slen
      (raw + i) (off + live stmts i) s = .ok ins) :
    ∃ insns, convertStmts slen raw off stmts = .ok insns := by
  induction stmts generalizing raw off with
  | nil => exact ⟨[], rfl⟩
  | cons first rest ih =>
    rw [convertStmts]
    by_cases dead : first.code = nop
    · rw [if_pos dead]
      apply ih
      intro i s found alive
      obtain ⟨ins, result⟩ := each (i + 1) s (by simpa using found) alive
      refine ⟨ins, ?_⟩
      rw [live_cons_dead rest i dead, show raw + (i + 1) = raw + 1 + i by omega] at result
      exact result
    · rw [if_neg dead]
      obtain ⟨head, here⟩ := each 0 first rfl dead
      obtain ⟨tail, later⟩ : ∃ insns, convertStmts slen (raw + 1) (off + 1) rest = .ok insns := by
        apply ih
        intro i s found alive
        obtain ⟨ins, result⟩ := each (i + 1) s (by simpa using found) alive
        refine ⟨ins, ?_⟩
        rw [live_cons_alive rest i dead, show raw + (i + 1) = raw + 1 + i by omega,
          show off + (live rest i + 1) = off + 1 + live rest i by omega] at result
        exact result
      have here' : convertStmt slen raw off first = .ok head := here
      exact ⟨head :: tail, by rw [here', later]; rfl⟩

/-! ## Block-local jumps that can be converted -/

/-- The block-local jumps of a statement list stay inside the list and within
255 instructions, conditional ones go forward, and a list with such jumps has no
`NOP` in it. -/
def LocalOk (stmts : List Stmt) : Prop :=
  ∀ (i : Nat) (s : Stmt), stmts[i]? = some s → bpfClass s.code = bpfJmp →
    (∀ other ∈ stmts, other.code ≠ nop) ∧
    if s.code = bpfJmp ||| bpfJa then
      0 ≤ (i : Int) + 1 + s.k.toInt ∧ (i : Int) + 1 + s.k.toInt ≤ stmts.length
    else ∀ side : Bool, ∃ d : Int, (if side then s.jt else s.jf) = some d ∧
      0 ≤ d ∧ d < 256 ∧ (i : Int) + 1 + d < stmts.length

/-- The block-local jump at an index, if it is one, stays inside a list of the given
length. -/
def jumpInside (length : Nat) (s : Stmt) (i : Nat) : Bool :=
  bpfClass s.code != bpfJmp ||
    if s.code = bpfJmp ||| bpfJa then
      decide (0 ≤ (i : Int) + 1 + s.k.toInt) && decide ((i : Int) + 1 + s.k.toInt ≤ length)
    else [s.jt, s.jf].all fun distance => distance.any fun d =>
      decide (0 ≤ d) && decide (d < 256) && decide ((i : Int) + 1 + d < length)

theorem localOk_of_jumpInside (live : stmts.all (fun s => s.code != nop) = true)
    (inside : (stmts.zipIdx.all fun (s, i) => jumpInside stmts.length s i) = true) :
    LocalOk stmts := by
  intro i s found isJump
  have noNop : ∀ other ∈ stmts, other.code ≠ nop := by
    intro other mem
    exact bne_iff_ne.mp (all_eq_true.mp live other mem)
  refine ⟨noNop, ?_⟩
  have here : jumpInside stmts.length s i = true :=
    all_eq_true.mp inside (s, i) (mk_mem_zipIdx_iff_getElem?.mpr found)
  rw [jumpInside, isJump, bne_self_eq_false, Bool.false_or] at here
  split at here
  · rename_i isJa
    rw [if_pos isJa]
    simpa using here
  · rename_i isTest
    rw [if_neg isTest]
    simp only [all_cons, all_nil, Bool.and_true, Bool.and_eq_true,
      Option.any_eq_true, decide_eq_true_eq] at here
    obtain ⟨⟨d, atTrue, dTrue⟩, ⟨e, atFalse, eFalse⟩⟩ := here
    intro side
    cases side with
    | true => exact ⟨d, atTrue, dTrue.1.1, dTrue.1.2, dTrue.2⟩
    | false => exact ⟨e, atFalse, eFalse.1.1, eFalse.1.2, eFalse.2⟩

theorem slength_of_no_nop (none : ∀ s ∈ stmts, s.code ≠ nop) : slength stmts = stmts.length := by
  rw [slength, countP_eq_length]
  intro s mem
  simpa using none s mem

theorem live_of_no_nop (none : ∀ s ∈ stmts, s.code ≠ nop) (inside : i ≤ stmts.length) :
    live stmts i = i := by
  rw [live, slength_of_no_nop fun s mem => none s (mem_of_mem_take mem),
    length_take, Nat.min_eq_left inside]

/-- The instruction of a statement branches as the statement does. -/
structure Translates (s : Stmt) (ins : Insn) : Prop where
  code : ins.code = s.code
  k : ins.k = s.k
  branch : bpfClass s.code = bpfJmp → s.code ≠ bpfJmp ||| bpfJa → ∀ side : Bool,
    ∃ d : Int, (if side then s.jt else s.jf) = some d ∧
      ((if side then ins.jt else ins.jf).toNat : Int) = d

theorem localJump_eq {d : Int} (nonneg : 0 ≤ d) (small : d < 256)
    (inside : (raw : Int) + 1 + d < slen) :
    ∃ byte, localJump slen raw raw d = some byte ∧ (byte.toNat : Int) = d := by
  refine ⟨BitVec.ofInt 8 ((raw : Int) + 1 + d - raw - 1), ?_, ?_⟩
  · rw [localJump, if_pos]
    exact ⟨by omega, inside⟩
  · rw [show (raw : Int) + 1 + d - raw - 1 = d by omega, BitVec.toNat_ofInt]
    omega

theorem convertStmt_of_localOk (ok : LocalOk stmts) {s : Stmt} (found : stmts[i]? = some s) :
    ∃ ins, convertStmt (slength stmts) i (live stmts i) s = .ok ins ∧ Translates s ins := by
  unfold convertStmt
  by_cases plain : bpfClass s.code ≠ bpfJmp ∨ s.code = bpfJmp ||| bpfJa
  · rw [if_pos plain]
    refine ⟨_, rfl, rfl, rfl, ?_⟩
    intro isJump notJa
    rcases plain with notJump | isJa
    · exact absurd isJump notJump
    · exact absurd isJa notJa
  · rw [if_neg plain]
    rw [not_or, not_not] at plain
    obtain ⟨noNop, targets⟩ := ok i s found plain.1
    rw [if_neg plain.2] at targets
    have inside : i < stmts.length := (List.getElem?_eq_some_iff.mp found).1
    rw [slength_of_no_nop noNop, live_of_no_nop noNop (Nat.le_of_lt inside)]
    by_cases next : i + 2 = stmts.length
    · rw [if_pos next]
      refine ⟨_, rfl, rfl, rfl, ?_⟩
      intro _ _ side
      -- the only statement behind this one is the next, and the displacement is left zero
      obtain ⟨d, target, nonneg, _, before⟩ := targets side
      refine ⟨d, target, ?_⟩
      have zero : d = 0 := by omega
      rw [zero]
      cases side <;> rfl
    · rw [if_neg next]
      obtain ⟨dt, targetT, nonnegT, smallT, beforeT⟩ := targets true
      obtain ⟨df, targetF, nonnegF, smallF, beforeF⟩ := targets false
      obtain ⟨bt, jumpT, valueT⟩ := localJump_eq nonnegT smallT beforeT
      obtain ⟨bf, jumpF, valueF⟩ := localJump_eq nonnegF smallF beforeF
      have jt : s.jt = some dt := targetT
      have jf : s.jf = some df := targetF
      simp only [jt, jf, jumpT, jumpF]
      refine ⟨_, rfl, rfl, rfl, ?_⟩
      intro _ _ side
      cases side with
      | true => exact ⟨dt, jt, valueT⟩
      | false => exact ⟨df, jf, valueF⟩

/-! ## Distances -/

/-- The room the given blocks take. -/
def totalRoom (h : Heap) (placed : List BlockId) : Nat :=
  (placed.map fun b => Block.room (h.get b)).sum

/-- The room in front of a block, counted from the block placed last. -/
def span (h : Heap) : List BlockId → BlockId → Nat
  | [], _ => 0
  | b :: placed, target => if b = target then 0 else Block.room (h.get b) + span h placed target

theorem span_cons_self (h : Heap) (b : BlockId) (placed : List BlockId) :
    span h (b :: placed) b = 0 := by
  simp [span]

theorem span_cons_of_ne (h : Heap) {target : BlockId} (placed : List BlockId)
    (different : b ≠ target) :
    span h (b :: placed) target = Block.room (h.get b) + span h placed target := by
  simp [span, different]

theorem span_add_room_le (h : Heap) (mem : b ∈ placed) :
    span h placed b + Block.room (h.get b) ≤ totalRoom h placed := by
  induction placed with
  | nil => cases mem
  | cons first rest ih =>
    simp only [totalRoom, map_cons, sum_cons] at ih ⊢
    by_cases same : first = b
    · subst same
      rw [span_cons_self]
      omega
    · rw [span_cons_of_ne h rest same]
      have later : b ∈ rest := by
        rcases mem_cons.mp mem with here | later
        · exact absurd here.symm same
        · exact later
      have bound := ih later
      omega

/-- Behind a block, distances are counted from its end. -/
theorem span_append (h : Heap) {front behind : List BlockId} {target : BlockId}
    (nodup : (front ++ b :: behind).Nodup) (mem : target ∈ behind) :
    span h (front ++ b :: behind) target =
      span h (front ++ b :: behind) b + Block.room (h.get b) + span h behind target := by
  induction front with
  | nil =>
    have different : b ≠ target := by
      rintro rfl
      exact (nodup_cons.mp nodup).1 mem
    rw [nil_append, span_cons_of_ne h behind different, span_cons_self]
    omega
  | cons first front ih =>
    obtain ⟨fresh, rest⟩ := nodup_cons.mp nodup
    have notB : first ≠ b := by
      rintro rfl
      exact fresh (by simp)
    have notTarget : first ≠ target := by
      rintro rfl
      exact fresh (by simp [mem])
    rw [cons_append, span_cons_of_ne h _ notB, span_cons_of_ne h _ notTarget, ih rest]
    omega

/-- The distance from the branch of a block, placed in front of others, to one of
them: its own extra jumps and the blocks in between. -/
def gap (h : Heap) (b : BlockId) (behind : List BlockId) (target : BlockId) : Nat :=
  (h.get b).longjt + (h.get b).longjf + span h behind target

/-! ## Placed blocks -/

/-- The branch part of a block placed in front of others. -/
inductive PlacedBranch (h : Heap) (b : BlockId) (behind : List BlockId) : List Insn → Prop
  | ret (jt : (h.get b).jt = none) (jf : (h.get b).jf = none)
      (noLong : (h.get b).longjt = 0 ∧ (h.get b).longjf = 0) :
      PlacedBranch h b behind [⟨(h.get b).s.code, 0, 0, (h.get b).s.k⟩]
  | jump {t f : BlockId} {at_ : Nat} {branch : List Insn} (jt : (h.get b).jt = some t)
      (jf : (h.get b).jf = some f) (placedT : t ∈ behind) (placedF : f ∈ behind)
      (code : convertBranch (h.get b).s (h.get b).longjt (h.get b).longjf at_
        (at_ + 1 + gap h b behind t) (at_ + 1 + gap h b behind f) = .code branch)
      (full : branch.length = 1 + (h.get b).longjt + (h.get b).longjf) :
      PlacedBranch h b behind branch

/-- The array made from the placed blocks. -/
inductive Placed (h : Heap) : List BlockId → List Insn → Prop
  | nil : Placed h [] []
  | cons {b : BlockId} {behind : List BlockId} {insns branch code : List Insn}
      (fresh : b ∉ behind)
      (stmts : convertStmts (slength (h.get b).stmts) 0 0 (h.get b).stmts = .ok insns)
      (exits : PlacedBranch h b behind branch) (rest : Placed h behind code) :
      Placed h (b :: behind) (insns ++ branch ++ code)

theorem PlacedBranch.length {behind : List BlockId} {branch : List Insn}
    (placed : PlacedBranch h b behind branch) :
    branch.length = 1 + (h.get b).longjt + (h.get b).longjf := by
  cases placed with
  | ret _ _ noLong => simp [noLong.1, noLong.2]
  | jump _ _ _ _ _ full => exact full

theorem Placed.nodup (layout : Placed h placed code) : placed.Nodup := by
  induction layout with
  | nil => exact nodup_nil
  | cons fresh _ _ _ ih => exact nodup_cons.mpr ⟨fresh, ih⟩

theorem Placed.length (layout : Placed h placed code) : code.length = totalRoom h placed := by
  induction layout with
  | nil => rfl
  | cons _ stmts exits _ ih =>
    simp only [length_append, convertStmts_length stmts, exits.length, ih, totalRoom,
      map_cons, sum_cons, Block.room]
    omega

/-- What a placed block looks like in the array. -/
structure PlacedAt (h : Heap) (placed : List BlockId) (code : List Insn) (b : BlockId)
    (front behind : List BlockId) (insns branch : List Insn) : Prop where
  split : placed = front ++ b :: behind
  stmts : convertStmts (slength (h.get b).stmts) 0 0 (h.get b).stmts = .ok insns
  exits : PlacedBranch h b behind branch
  found : ∀ j ins, (insns ++ branch)[j]? = some ins → code[span h placed b + j]? = some ins

theorem Placed.at_ (layout : Placed h placed code) (mem : b ∈ placed) :
    ∃ front behind insns branch, PlacedAt h placed code b front behind insns branch := by
  induction layout with
  | nil => cases mem
  | @cons first behind insns branch code fresh stmts exits rest ih =>
    by_cases same : first = b
    · subst same
      refine ⟨[], behind, insns, branch, rfl, stmts, exits, ?_⟩
      intro j ins here
      obtain ⟨inside, _⟩ := List.getElem?_eq_some_iff.mp here
      rw [span_cons_self, Nat.zero_add, getElem?_append_left inside]
      exact here
    · have later : b ∈ behind := by
        rcases mem_cons.mp mem with here | later
        · exact absurd here.symm same
        · exact later
      obtain ⟨front, after, insns', branch', split, stmts', exits', found⟩ := ih later
      refine ⟨first :: front, after, insns', branch', by rw [split]; rfl, stmts', exits', ?_⟩
      intro j ins here
      have length : (insns ++ branch).length = Block.room (h.get first) := by
        simp only [length_append, convertStmts_length stmts, exits.length, Block.room]
        omega
      rw [span_cons_of_ne h behind same, getElem?_append_right (by omega), length,
        show Block.room (h.get first) + span h behind b + j - Block.room (h.get first) =
          span h behind b + j by omega]
      exact found j ins here

end Libpcap.Optimize
