/-
# The array computes what the graph computes

The layout of a flow graph is a program: the place of a statement in the graph
is an index of the array, and one step at a place of the graph is one or, where a
branch leads through an extra jump, two steps at that index. The two machines
therefore stop with the same results.
-/

import Libpcap.Optimize.Passes

namespace Libpcap.Optimize

open Libpcap.Bpf Libpcap.Gencode Libpcap.Semantics List

variable {b : BlockId} {side : Bool} {code : List Insn} {stmts : List Stmt} {p : Packet} {s : Stmt}

/-! ## Branches -/

theorem displacement_eq (at_ d : Nat) : displacement (at_ + 1 + d) at_ = BitVec.ofNat 32 d := by
  have one : (1 : Word).toNat = 1 := rfl
  apply BitVec.eq_of_toNat_eq
  simp only [displacement, BitVec.toNat_sub, BitVec.toNat_ofNat, one]
  omega

/-- An exit of a branch statement at an index of the array: the instruction has
the statement's code and constant, and its displacement leads to the target, or
to an extra jump that does when the target is further away than the displacement
can say. -/
def BranchAt (code : List Insn) (s : Stmt) (at_ : Nat) (side : Bool) (target : Nat) : Prop :=
  ∃ ins, code[at_]? = some ins ∧ ins.code = s.code ∧ ins.k = s.k ∧
    let d := (if side then ins.jt else ins.jf).toNat
    at_ + 1 + d = target ∨
      (at_ + 1 + 256 ≤ target ∧ ∃ k : Word, code[at_ + 1 + d]? = some ⟨bpfJmp ||| bpfJa, 0, 0, k⟩ ∧
        0 ≤ k.toInt ∧ ((at_ + 1 + d + 1 : Nat) : Int) + k.toInt = target)

theorem toInt_ofNat_small {n : Nat} (small : n < 2 ^ 31) : (BitVec.ofNat 32 n).toInt = n := by
  rw [BitVec.toInt_eq_toNat_cond, BitVec.toNat_ofNat]
  split <;> omega

theorem ofNat_sub_ofNat {a b : Nat} (le : b ≤ a) :
    BitVec.ofNat 32 a - BitVec.ofNat 32 b = BitVec.ofNat 32 (a - b) := by
  apply BitVec.eq_of_toNat_eq
  simp only [BitVec.toNat_sub, BitVec.toNat_ofNat]
  omega

/-- A displacement that fits leads to its target. -/
theorem branchAt_near {jt jf : BitVec 8} {d : Nat} (found : code[0]? = some ⟨s.code, jt, jf, s.k⟩)
    (small : d < 256) (value : (if side then jt else jf) = (BitVec.ofNat 32 d).setWidth 8) :
    BranchAt code s 0 side (1 + d) := by
  refine ⟨_, found, rfl, rfl, .inl ?_⟩
  simp only [value, BitVec.toNat_setWidth, BitVec.toNat_ofNat]
  omega

/-- An extra jump leads to its target. -/
theorem branchAt_far {jt jf : BitVec 8} {d j : Nat} (found : code[0]? = some ⟨s.code, jt, jf, s.k⟩)
    (far : 256 ≤ d) (small : d < 2 ^ 31) (few : j < 2)
    (value : (if side then jt else jf) = BitVec.ofNat 8 j) (jump : code[j + 1]? = some ⟨bpfJmp |||
      bpfJa, 0, 0, BitVec.ofNat 32 d - BitVec.ofNat 32 (j + 1)⟩) :
    BranchAt code s 0 side (1 + d) := by
  have index : 0 + 1 + j = j + 1 := by omega
  refine ⟨_, found, rfl, rfl, .inr ⟨by omega,
    BitVec.ofNat 32 d - BitVec.ofNat 32 (j + 1), ?_, ?_, ?_⟩⟩
  · simp only [value, BitVec.toNat_ofNat]
    rw [Nat.mod_eq_of_lt (by omega), index]
    exact jump
  · rw [ofNat_sub_ofNat (by omega), toInt_ofNat_small (by omega)]
    omega
  · simp only [value, BitVec.toNat_ofNat]
    rw [ofNat_sub_ofNat (by omega), toInt_ofNat_small (by omega)]
    omega

theorem convertBranch_branchAt {longjt longjf at_ dT dF : Nat} {branch : List Insn}
    (smallT : dT < 2 ^ 31) (smallF : dF < 2 ^ 31)
    (code : convertBranch s longjt longjf at_ (at_ + 1 + dT) (at_ + 1 + dF) = .code branch)
    (side : Bool) : BranchAt branch s 0 side (1 + if side then dT else dF) := by
  simp only [convertBranch, displacement_eq, BitVec.toNat_ofNat,
    Nat.mod_eq_of_lt (Nat.lt_trans smallT (by decide : 2 ^ 31 < 2 ^ 32)),
    Nat.mod_eq_of_lt (Nat.lt_trans smallF (by decide : 2 ^ 31 < 2 ^ 32))] at code
  by_cases stuckT : 256 ≤ dT ∧ longjt = 0
  · rw [if_pos stuckT] at code
    cases code
  by_cases stuckF : 256 ≤ dF ∧ longjf = 0
  · rw [if_neg stuckT, if_pos stuckF] at code
    cases code
  rw [if_neg stuckT, if_neg stuckF] at code
  by_cases farT : 256 ≤ dT <;> by_cases farF : 256 ≤ dF <;>
    simp only [farT, farF, if_true, if_false] at code <;> cases code
  · cases side with
    | true => exact branchAt_far rfl farT smallT (j := 0) (by decide) rfl rfl
    | false => exact branchAt_far rfl farF smallF (j := 1) (by decide) rfl rfl
  · cases side with
    | true => exact branchAt_far rfl farT smallT (j := 0) (by decide) rfl rfl
    | false => exact branchAt_near rfl (Nat.not_le.mp farF) rfl
  · cases side with
    | true => exact branchAt_near rfl (Nat.not_le.mp farT) rfl
    | false => exact branchAt_far rfl farF smallF (j := 0) (by decide) rfl rfl
  · cases side with
    | true => exact branchAt_near rfl (Nat.not_le.mp farT) rfl
    | false => exact branchAt_near rfl (Nat.not_le.mp farF) rfl

/-! ## Statements -/

theorem nextLive_le {pos : Nat} (inside : pos ≤ stmts.length) :
    nextLive stmts pos ≤ stmts.length := by
  have short := ((stmts.drop pos).takeWhile_sublist fun s => s.code == nop).length_le
  rw [length_drop] at short
  rw [nextLive]
  omega

/-- The statements in front of the first one that is not `NOP`. -/
theorem takeWhile_nop (stmts : List Stmt) :
    slength (stmts.take (stmts.takeWhile fun s => s.code == nop).length) = 0 ∧
      ∀ s, stmts[(stmts.takeWhile fun s => s.code == nop).length]? = some s → s.code ≠ nop := by
  induction stmts with
  | nil => simp [slength]
  | cons first rest ih =>
    by_cases dead : first.code = nop
    · simp only [takeWhile_cons, dead, beq_self_eq_true, if_true, length_cons,
        take_succ_cons, slength_cons, Nat.add_zero, getElem?_cons_succ]
      exact ih
    · have alive : (first.code == nop) = false := by simpa using dead
      simp only [takeWhile_cons, alive, Bool.false_eq_true, if_false, length_nil,
        take_zero, getElem?_cons_zero, Option.some.injEq]
      refine ⟨rfl, ?_⟩
      rintro s rfl
      exact dead

/-- The statement found is not `NOP`. -/
theorem nextLive_alive {pos : Nat} (found : stmts[nextLive stmts pos]? = some s) :
    s.code ≠ nop := by
  rw [nextLive, ← getElem?_drop] at found
  exact (takeWhile_nop (stmts.drop pos)).2 s found

/-- Nothing but `NOP` is skipped. -/
theorem live_nextLive (stmts : List Stmt) (pos : Nat) :
    live stmts (nextLive stmts pos) = live stmts pos := by
  have skipped := (takeWhile_nop (stmts.drop pos)).1
  rw [live, nextLive, take_add, slength, countP_append, ← slength, ← slength, skipped, Nat.add_zero]
  rfl

theorem live_succ {i : Nat} (found : stmts[i]? = some s) (alive : s.code ≠ nop) :
    live stmts (i + 1) = live stmts i + 1 := by
  rw [live, take_add_one, found, slength, countP_append, ← slength]
  simp [alive, live]

theorem live_length (stmts : List Stmt) : live stmts stmts.length = slength stmts := by
  rw [live, take_length]

/-! ## Places and indices -/

section Simulation

variable {h : Heap} {root : BlockId} {placed : List BlockId} {code : List Insn}

/-- The index of a place. -/
def place (h : Heap) (placed : List BlockId) (b : BlockId) (pos : Nat) : Nat :=
  span h placed b + live (h.get b).stmts pos

/-- The statement at a place and the instruction at its index. -/
theorem Placed.stmt_at (layout : Placed h placed code) (member : b ∈ placed)
    (ok : LocalOk (h.get b).stmts) {i : Nat} (found : (h.get b).stmts[i]? = some s)
    (alive : s.code ≠ nop) :
    ∃ ins, code[place h placed b i]? = some ins ∧ Translates s ins := by
  obtain ⟨front, behind, insns, branch, placedAt⟩ := layout.at_ member
  obtain ⟨ins, position, converted⟩ := convertStmts_get placedAt.stmts found alive
  obtain ⟨ins', converted', translates⟩ := convertStmt_of_localOk ok found
  simp only [Nat.zero_add] at converted
  have same : ins = ins' := Except.ok.inj (converted.symm.trans converted')
  refine ⟨ins, ?_, same ▸ translates⟩
  apply placedAt.found
  obtain ⟨inside, _⟩ := List.getElem?_eq_some_iff.mp position
  rw [getElem?_append_left inside]
  exact position

theorem BranchAt.of_part {part : List Insn} {base : Nat} {target : Nat}
    (found : ∀ j ins, part[j]? = some ins → code[base + j]? = some ins)
    (branch : BranchAt part s 0 side target) : BranchAt code s base side (base + target) := by
  obtain ⟨ins, here, sameCode, sameK, leads⟩ := branch
  refine ⟨ins, found 0 ins here, sameCode, sameK, ?_⟩
  rcases leads with direct | ⟨far, k, jump, nonneg, lands⟩
  · exact .inl (by omega)
  · refine .inr ⟨by omega, k, ?_, nonneg, by omega⟩
    have there := found _ _ jump
    rw [show base + 1 = base + (0 + 1) by omega, Nat.add_assoc base]
    exact there

/-- The branch of a placed block and its exits. -/
theorem Placed.branch_at (layout : Placed h placed code) (small : code.length < 2 ^ 31)
    (member : b ∈ placed) {q : BlockId} (exit : h.exit b side = some q) :
    BranchAt code (h.get b).s (span h placed b + slength (h.get b).stmts) side
      (span h placed q) := by
  obtain ⟨front, behind, insns, branch, placedAt⟩ := layout.at_ member
  have nodup := layout.nodup
  have length := layout.length
  rw [placedAt.split] at nodup
  have part : ∀ j ins, branch[j]? = some ins →
      code[span h placed b + slength (h.get b).stmts + j]? = some ins := by
    intro j ins here
    rw [Nat.add_assoc]
    apply placedAt.found
    rw [← convertStmts_length placedAt.stmts, getElem?_append_right (by omega),
      Nat.add_sub_cancel_left]
    exact here
  cases placedAt.exits with
  | ret jt jf _ =>
    cases side with
    | true => exact absurd (exit.symm.trans jt) (by simp)
    | false => exact absurd (exit.symm.trans jf) (by simp)
  | @jump t f at_ branch jt jf placedT placedF converted full =>
    have distance : ∀ target ∈ behind, gap h b behind target < 2 ^ 31 ∧
        span h placed target =
          span h placed b + slength (h.get b).stmts + (1 + gap h b behind target) := by
      intro target there
      have spans := span_append h nodup there
      rw [← placedAt.split] at spans
      have inPlaced : target ∈ placed := by
        rw [placedAt.split]
        simp [there]
      have bound := span_add_room_le h inPlaced
      simp only [gap]
      simp only [Block.room] at spans bound
      omega
    have here := convertBranch_branchAt (distance t placedT).1 (distance f placedF).1 converted side
    have leads : q ∈ behind ∧
        (if side then gap h b behind t else gap h b behind f) = gap h b behind q := by
      cases side with
      | true =>
        obtain rfl : q = t := Option.some.inj (exit.symm.trans jt)
        exact ⟨placedT, rfl⟩
      | false =>
        obtain rfl : q = f := Option.some.inj (exit.symm.trans jf)
        exact ⟨placedF, rfl⟩
    rw [leads.2] at here
    rw [(distance q leads.1).2]
    exact here.of_part part

/-- The statement at the end of a block without exits. -/
theorem Placed.ret_at (layout : Placed h placed code) (member : b ∈ placed)
    (jt : (h.get b).jt = none) :
    code[span h placed b + slength (h.get b).stmts]? =
      some ⟨(h.get b).s.code, 0, 0, (h.get b).s.k⟩ := by
  obtain ⟨front, behind, insns, branch, placedAt⟩ := layout.at_ member
  apply placedAt.found
  rw [← convertStmts_length placedAt.stmts, getElem?_append_right (Nat.le_refl _), Nat.sub_self]
  cases placedAt.exits with
  | ret => rfl
  | jump jt' => exact absurd (jt.symm.trans jt') (by simp)

/-- A place of the graph and the state of the filter machine at its index. -/
structure Related (h : Heap) (placed : List BlockId) (source : Place) (target : State) :
    Prop where
  member : source.block ∈ placed
  inside : 0 ≤ source.pos ∧ source.pos.toNat ≤ (h.get source.block).stmts.length
  pc : target.pc = place h placed source.block source.pos.toNat
  m : target.m = source.m

/-- One step of the interpreter at an index of the array. -/
theorem step_at {prog : List Insn} {s : State} {n : Nat} {i : Insn} (pc : s.pc = n)
    (found : prog[n]? = some i) :
    step prog p s =
      match decode i.code with
      | none => .stop .abort
      | some op =>
        match op.effect i.k p s.m with
        | .next m => .go ⟨n + 1, m⟩
        | .branch taken =>
          .go ⟨n + 1 + if taken then (i.jt.toNat : Int) else (i.jf.toNat : Int), s.m⟩
        | .jump => .go ⟨n + 1 + i.k.toInt, s.m⟩
        | .stop result => .stop result := by
  have fetched : fetch prog n = some i := by
    rw [fetch, if_pos (Int.natCast_nonneg n)]
    exact found
  simp only [step, pc]
  generalize fetch prog n = insn at fetched ⊢
  subst fetched
  rfl

/-- An exit of a branch is followed in one step, or in two through an extra jump. -/
theorem BranchAt.follows {at_ target : Nat} {taken : Bool} {m : Machine} {cond : JmpOp} {src : Src}
    (branch : BranchAt code s at_ taken target) (decoded : decode s.code = some (.jmp cond src))
    (value : cond.eval m.A (src.value s.k m) = taken) {state : State} (pc : state.pc = at_)
    (machine : state.m = m) :
    ∃ first, step code p state = .go first ∧ (step code p).Reaches first ⟨target, m⟩ := by
  obtain ⟨ins, found, sameCode, sameK, leads⟩ := branch
  have here := step_at (p := p) pc found
  rw [sameCode, decoded, sameK, machine] at here
  simp only [Op.effect, value] at here
  refine ⟨_, here, ?_⟩
  rcases leads with direct | ⟨_, k, jump, _, lands⟩
  · have same : ((at_ : Int) + 1 + if taken then (ins.jt.toNat : Int) else (ins.jf.toNat : Int)) =
        (target : Int) := by
      cases taken <;> simp only [Bool.false_eq_true, if_true, if_false] at direct ⊢ <;> omega
    rw [same]
    exact .refl _
  · apply Step.Reaches.single
    have middle := step_at (p := p) (s := ⟨(at_ : Int) + 1 +
      if taken then (ins.jt.toNat : Int) else (ins.jf.toNat : Int), m⟩)
      (by cases taken <;> simp) jump
    have isJa : decode (bpfJmp ||| bpfJa) = some .ja := by decide
    rw [middle, isJa]
    simp only [Op.effect]
    congr 2

theorem bpfClass_jmp (cond : JmpOp) (src : Src) :
    bpfClass (Op.jmp cond src).encode = bpfJmp ∧ (Op.jmp cond src).encode ≠ bpfJmp ||| bpfJa := by
  cases cond <;> cases src <;> decide

/-- The statement at a place is executed as its instruction is. -/
theorem simulates_stmt (layout : Placed h placed code) {source : Place} {target : State}
    (related : Related h placed source target) (ok : LocalOk (h.get source.block).stmts) (found :
      (h.get source.block).stmts[nextLive (h.get source.block).stmts source.pos.toNat]? = some s) :
    (∃ next first, graphStep h p source = .go next ∧ step code p target = .go first ∧
      Related h placed next first) ∨
    ∃ result, graphStep h p source = .stop result ∧ step code p target = .stop result := by
  obtain ⟨b, pos, m⟩ := source
  obtain ⟨member, inside, pc, machine⟩ := related
  dsimp only at member inside pc machine ok found
  have alive := nextLive_alive found
  have skip := live_nextLive (h.get b).stmts pos.toNat
  generalize next : nextLive (h.get b).stmts pos.toNat = i at found skip
  have before : i < (h.get b).stmts.length := (List.getElem?_eq_some_iff.mp found).1
  have index : place h placed b pos.toNat = place h placed b i := by
    rw [place, place, skip]
  obtain ⟨ins, there, sameCode, sameK, branches⟩ := layout.stmt_at member ok found alive
  rw [index] at pc
  have graph := graphStep_stmt (p := p) (m := m) inside next found
  have array := step_at (p := p) pc there
  rw [sameCode, sameK, machine] at array
  cases decoded : decode s.code with
  | none =>
    rw [decoded] at graph array
    exact .inr ⟨_, graph, array⟩
  | some op =>
    rw [decoded] at graph array
    cases effect : op.effect s.k p m with
    | stop result =>
      simp only [effect] at graph array
      exact .inr ⟨_, graph, array⟩
    | next m' =>
      simp only [effect] at graph array
      refine .inl ⟨_, _, graph, array, member, ⟨by dsimp only; omega, by dsimp only; omega⟩, ?_,
        rfl⟩
      have after := live_succ found alive
      show ((place h placed b i : Nat) : Int) + 1 = place h placed b (Int.toNat (i + 1))
      rw [show Int.toNat ((i : Int) + 1) = i + 1 by omega]
      simp only [place, after]
      omega
    | branch taken =>
      obtain ⟨cond, src, isJmp, _⟩ := Op.effect_branch effect
      have encoded : s.code = (Op.jmp cond src).encode := by
        rw [isJmp] at decoded
        exact (decode_eq_some_iff.mp decoded).symm
      have shape := bpfClass_jmp cond src
      rw [← encoded] at shape
      obtain ⟨noNop, targets⟩ := ok i s found shape.1
      rw [if_neg shape.2] at targets
      obtain ⟨d, distance, nonneg, _, ends⟩ := targets taken
      obtain ⟨d', distance', value⟩ := branches shape.1 shape.2 taken
      obtain rfl : d = d' := Option.some.inj (distance.symm.trans distance')
      simp only [effect, distance] at graph array
      refine .inl ⟨_, _, graph, array, member, ⟨by dsimp only; omega, by dsimp only; omega⟩, ?_,
        rfl⟩
      have same : (if taken then (ins.jt.toNat : Int) else (ins.jf.toNat : Int)) = d := by
        rw [← value]
        cases taken <;> rfl
      show ((place h placed b i : Nat) : Int) + 1 + _ = place h placed b (Int.toNat (i + 1 + d))
      rw [same]
      simp only [place]
      rw [live_of_no_nop noNop (by omega), live_of_no_nop noNop (by omega)]
      omega
    | jump =>
      have isJa := Op.effect_jump effect
      have encoded : s.code = bpfJmp ||| bpfJa := by
        rw [isJa] at decoded
        exact (decode_eq_some_iff.mp decoded).symm
      have isJmp : bpfClass s.code = bpfJmp := by
        rw [encoded]
        decide
      obtain ⟨noNop, lands⟩ := ok i s found isJmp
      rw [if_pos encoded] at lands
      simp only [effect] at graph array
      refine .inl ⟨_, _, graph, array, member, ⟨lands.1, by dsimp only; omega⟩, ?_, rfl⟩
      show ((place h placed b i : Nat) : Int) + 1 + s.k.toInt =
        place h placed b (Int.toNat (i + 1 + s.k.toInt))
      simp only [place]
      rw [live_of_no_nop noNop (by omega), live_of_no_nop noNop (by omega)]
      omega

/-- Behind its last statement a block takes one of its exits or returns. -/
theorem simulates_end (layout : Placed h placed code) (small : code.length < 2 ^ 31)
    {source : Place} {target : State} (related : Related h placed source target)
    (ends : EndOk h source.block) (none : (h.get source.block).stmts[nextLive (h.get
      source.block).stmts source.pos.toNat]? = none) :
    (∃ next first last, graphStep h p source = .go next ∧ step code p target = .go first ∧
      (step code p).Reaches first last ∧ Related h placed next last) ∨
    ∃ result, graphStep h p source = .stop result ∧ step code p target = .stop result := by
  obtain ⟨b, pos, m⟩ := source
  obtain ⟨member, inside, pc, machine⟩ := related
  dsimp only at member inside pc machine ends none
  have last : nextLive (h.get b).stmts pos.toNat = (h.get b).stmts.length := by
    have most := nextLive_le inside.2
    have least := List.getElem?_eq_none_iff.mp none
    omega
  have index : place h placed b pos.toNat = span h placed b + slength (h.get b).stmts := by
    rw [place, ← live_nextLive, last, live_length]
  rw [index] at pc
  have range : ¬ (pos < 0 ∨ ((h.get b).stmts.length : Int) < pos) := by omega
  rcases ends with ⟨t, f, cond, src, jt, jf, decoded⟩ | ⟨jt, jf, isRet⟩
  · left
    obtain ⟨q, exit⟩ : ∃ q, h.exit b (cond.eval m.A (src.value (h.get b).s.k m)) = some q := by
      cases cond.eval m.A (src.value (h.get b).s.k m) with
      | true => exact ⟨t, jt⟩
      | false => exact ⟨f, jf⟩
    have graph : graphStep h p ⟨b, pos, m⟩ = .go ⟨q, 0, m⟩ := by
      simp only [graphStep, if_neg range, none, decoded, Op.effect, exit]
    obtain ⟨first, moves, reaches⟩ :=
      (layout.branch_at small member exit).follows (p := p) decoded rfl pc machine
    refine ⟨_, first, _, graph, moves, reaches, layout.closed member exit, ?_, ?_, rfl⟩
    · exact ⟨Int.le_refl 0, Nat.zero_le _⟩
    · simp [place, live, slength]
  · right
    have array := step_at (p := p) pc (layout.ret_at member jt)
    rw [machine] at array
    cases decoded : decode (h.get b).s.code with
    | none =>
      rw [decoded] at array
      refine ⟨_, ?_, array⟩
      simp only [graphStep, if_neg range, none, decoded]
    | some op =>
      have encoded := decode_eq_some_iff.mp decoded
      rw [← encoded] at isRet
      rw [decoded] at array
      rcases (class_ret_iff op).mp isRet with rfl | rfl
      · refine ⟨_, ?_, array⟩
        simp only [graphStep, if_neg range, none, decoded, Op.effect]
      · refine ⟨_, ?_, array⟩
        simp only [graphStep, if_neg range, none, decoded, Op.effect]

/-- The array of a layout simulates the graph. -/
theorem Placed.simulates (layout : Placed h placed code) (small : code.length < 2 ^ 31)
    (ends : ∀ b ∈ placed, EndOk h b) (localOk : ∀ b ∈ placed, LocalOk (h.get b).stmts)
    (p : Packet) : Step.Simulates (graphStep h p) (step code p) (Related h placed) := by
  have cases_ : ∀ {source : Place} {target : State}, Related h placed source target →
      (∃ next first last, graphStep h p source = .go next ∧ step code p target = .go first ∧
        (step code p).Reaches first last ∧ Related h placed next last) ∨
      ∃ result, graphStep h p source = .stop result ∧ step code p target = .stop result := by
    intro source target related
    cases found : (h.get source.block).stmts[nextLive (h.get source.block).stmts
        source.pos.toNat]? with
    | none => exact simulates_end layout small related (ends _ related.member) found
    | some s =>
      rcases simulates_stmt (p := p) layout related (localOk _ related.member) found with
        ⟨next, first, graph, array, again⟩ | stops
      · exact .inl ⟨next, first, first, graph, array, .refl first, again⟩
      · exact .inr stops
  refine ⟨?_, ?_⟩
  · intro source target next related moves
    rcases cases_ related with ⟨next', first, last, graph, array, reaches, again⟩ |
      ⟨result, graph, _⟩
    · cases graph.symm.trans moves
      exact ⟨first, last, array, reaches, again⟩
    · exact absurd (graph.symm.trans moves) (by simp)
  · intro source target result related stops
    rcases cases_ related with ⟨next, _, _, graph, _⟩ | ⟨result', graph, array⟩
    · exact absurd (graph.symm.trans stops) (by simp)
    · cases graph.symm.trans stops
      exact Step.stops_of_step array

end Simulation

/-! ## Flattening -/

/-- An array that is a faithful layout of a flow graph. `last` are the blocks as
the pass that succeeded counted them, with the extra jumps of that pass. -/
structure Flattened (h : Heap) (root : BlockId) (last : Heap) (code : List Insn) : Prop where
  length : code.length = countStmts last root
  branches : ∃ offset : BlockId → Nat, offset root = 0 ∧
    ∀ b, Reached h root b → ∀ side q, h.exit b side = some q →
      BranchAt code (h.get b).s (offset b + slength (h.get b).stmts) side (offset q)
  runs : ∀ (p : Packet) (mem : Fin memWords → Word) (result : Result),
    (graphStep h p).Stops ⟨root, 0, ⟨0, 0, mem⟩⟩ result ↔ (step code p).Stops (.init mem) result

theorem LaidOut.flattened {h h' : Heap} {root : BlockId} (graph : FlowGraph h root)
    (laidOut : LaidOut h root h' code) :
    Flattened h root h' code := by
  have same := laidOut.same
  have layout := laidOut.placed
  obtain ⟨behind, head⟩ : ∃ behind, layoutOrder h root = root :: behind := layoutOrder_head
  have start : root ∈ layoutOrder h root := by
    rw [head]
    exact mem_cons_self ..
  have zero : span h' (layoutOrder h root) root = 0 := by
    rw [head, span_cons_self]
  have closed : ∀ b ∈ layoutOrder h root, ∀ side q, h.exit b side = some q →
      q ∈ layoutOrder h root := by
    intro b member side q exit
    rw [← same.exit] at exit
    exact layout.closed member exit
  refine ⟨laidOut.length, ⟨span h' (layoutOrder h root), zero, ?_⟩, ?_⟩
  · intro b reach side q exit
    rw [← same.exit] at exit
    have branch := layout.branch_at laidOut.small (mem_of_closed start closed reach) exit
    rw [same.s, same.stmts] at branch
    exact branch
  · intro p mem result
    have graph' := same.flowGraph graph
    have reach : ∀ b ∈ layoutOrder h root, Reached h' root b := by
      intro b member
      rw [Reached, same.leads]
      exact layoutOrder_reach member
    have sim := layout.simulates laidOut.small (fun b member => graph'.ends b (reach b member))
      (fun b member => graph'.localOk b (reach b member)) p
    rw [same.graphStep] at sim
    apply sim.stops_iff
    refine ⟨start, ⟨Int.le_refl 0, Nat.zero_le _⟩, ?_, rfl⟩
    simp [State.init, place, live, slength, zero]

/-- `icode_to_fcode` on a graph whose blocks have no extra jumps yet and whose
array, with two extra jumps for each block, fits an `int`: the loop ends with an
array of `count_stmts` instructions in which no slot is left empty, every branch
leads to its targets, far ones through an extra jump, and the filter machine
stops on the array exactly as it does on the graph. -/
theorem icodeToFcode_correct {h : Heap} {root : BlockId} (graph : FlowGraph h root)
    (fresh : ∀ b, Reached h root b →
      (h.get b).longjt = 0 ∧ (h.get b).longjf = 0)
    (small : countStmts h root + 2 * h.size < 2 ^ 31) :
    ∃ last code, icodeToFcodeFor (2 * h.size + 1) h root = .ok (code.map some, last) ∧
      Flattened h root last code := by
  have unmarked : ∀ b ∈ layoutOrder h root, ∀ side, Block.long (h.get b) side = 0 := by
    intro b member side
    have zero := fresh b (layoutOrder_reach member)
    cases side with
    | true => exact zero.1
    | false => exact zero.2
  have justified : Justified h (layoutOrder h root) := by
    intro b behind part
    have zero := unmarked b (part.subset (mem_cons_self ..))
    refine ⟨fun side => ?_, fun _ => zero, fun side _ _ marked => absurd (zero side) marked⟩
    rw [zero side]
    exact Nat.zero_le 1
  obtain ⟨last, code, ran, laidOut⟩ := icodeToFcodeFor_laidOut (2 * h.size + 1) h graph justified
    (by omega) (by omega)
  exact ⟨last, code, ran, laidOut.flattened graph⟩

/-- A block whose exits lead to later blocks, with block-local jumps that can be converted. -/
def forwardBlock (h : Heap) (b : BlockId) : Bool :=
  (h.get b).stmts.all (fun s => s.code != nop) &&
    ((h.get b).stmts.zipIdx.all fun (s, i) => jumpInside (h.get b).stmts.length s i) &&
    match (h.get b).jt, (h.get b).jf, decode (h.get b).s.code with
    | some t, some f, some (.jmp _ _) => b < t && t < h.size && b < f && f < h.size
    | none, none, some .retK => true
    | _, _, _ => false

theorem exits_of_forwardBlock {h : Heap} {b : BlockId} (checked : forwardBlock h b = true) :
    (∃ t f cond src, (h.get b).jt = some t ∧ (h.get b).jf = some f ∧
      decode (h.get b).s.code = some (.jmp cond src) ∧ b < t ∧ t < h.size ∧ b < f ∧ f < h.size) ∨
    (h.get b).jt = none ∧ (h.get b).jf = none ∧ decode (h.get b).s.code = some .retK := by
  rw [forwardBlock, Bool.and_eq_true] at checked
  have last := checked.2
  split at last
  case h_1 t f cond src onT onF decoded =>
    simp only [Bool.and_eq_true, decide_eq_true_eq] at last
    exact .inl ⟨t, f, cond, src, onT, onF, decoded, last.1.1.1, last.1.1.2, last.1.2, last.2⟩
  case h_2 noT noF decoded => exact .inr ⟨noT, noF, decoded⟩
  case h_3 => cases last

/-- The check of a graph that is written down. -/
theorem FlowGraph.of_forward {h : Heap} {root : BlockId} (start : root < h.size)
    (checked : ∀ b < h.size, forwardBlock h b = true) : FlowGraph h root := by
  have forward : ∀ b side q, b < h.size → h.exit b side = some q → b < q ∧ q < h.size := by
    intro b side q inside exit
    rcases exits_of_forwardBlock (checked b inside) with
      ⟨t, f, _, _, onT, onF, -, afterT, inT, afterF, inF⟩ | ⟨noT, noF, -⟩
    · cases side with
      | true => exact Option.some.inj (onT.symm.trans exit) ▸ ⟨afterT, inT⟩
      | false => exact Option.some.inj (onF.symm.trans exit) ▸ ⟨afterF, inF⟩
    · cases side with
      | true => cases noT.symm.trans exit
      | false => cases noF.symm.trans exit
  have inside : ∀ b, Reached h root b → b < h.size := by
    intro b path
    induction path with
    | refl => exact start
    | tail _ step ih =>
      obtain ⟨side, exit⟩ := step
      exact (forward _ side _ ih exit).2
  refine ⟨?_, inside, fun b path => ?_, fun b path => ?_⟩
  · apply acyclicFrom_of_rank (fun b => b < h.size) id start
    rintro a b inA ⟨side, exit⟩
    exact (forward a side b inA exit).symm
  · rcases exits_of_forwardBlock (checked b (inside b path)) with
      ⟨t, f, cond, src, onT, onF, decoded, -⟩ | ⟨noT, noF, decoded⟩
    · exact .inl ⟨t, f, cond, src, onT, onF, decoded⟩
    · refine .inr ⟨noT, noF, ?_⟩
      rw [← decode_eq_some_iff.mp decoded]
      decide
  · have block := checked b (inside b path)
    rw [forwardBlock, Bool.and_eq_true, Bool.and_eq_true] at block
    exact localOk_of_jumpInside block.1.1 block.1.2

/-- A block without extra jumps. -/
def blockOf (stmts : List Stmt) (code : Code) (k : Word) (exits : Option (BlockId × BlockId)) :
    Block where
  stmts := stmts
  s := { code, k }
  sense := false
  jt := exits.map (·.1)
  jf := exits.map (·.2)
  head := 0
  longjt := 0
  longjf := 0

/-- Two tests with a common return behind them. The second block begins with a block-local jump
and is too long to be jumped over. -/
def farApart : Heap :=
  ⟨⟨[blockOf [{ code := 0x28, k := 12 }] 0x15 0x800 (some (2, 1)),
    blockOf ({ code := 0x15, k := 0x8100, jt := some 1, jf := some 0 } ::
      List.replicate 256 { code := 0x28, k := 16 }) 0x15 0x800 (some (2, 3)),
    blockOf [] 0x06 96 none, blockOf [] 0x06 0 none]⟩, []⟩

theorem farApart_flowGraph : FlowGraph farApart 0 := .of_forward (by decide) (by decide +kernel)

theorem icodeToFcode_correct_farApart :
    ∃ last code, icodeToFcodeFor 9 farApart 0 = .ok (code.map some, last) ∧
      (last.get 0).longjt = 1 ∧ Flattened farApart 0 last code := by
  obtain ⟨last, code, ran, flattened⟩ := icodeToFcode_correct farApart_flowGraph
    (fun b path => by
      have fresh : ∀ b < 4, (farApart.get b).longjt = 0 ∧ (farApart.get b).longjf = 0 := by decide
      exact fresh b (farApart_flowGraph.inside b path))
    (by decide +kernel)
  have far : (icodeToFcodeFor 9 farApart 0).toOption.map (fun r => (r.2.get 0).longjt) = some 1 := by
    decide +kernel
  rw [show icodeToFcodeFor 9 farApart 0 = .ok (code.map some, last) from ran] at far
  exact ⟨last, code, ran, Option.some.inj far, flattened⟩

/-- Block-local jumps stay inside the statement list and within 255 instructions,
in either direction. -/
def LocalInside (stmts : List Stmt) : Bool :=
  stmts.zipIdx.all fun (s, i) => bpfClass s.code != bpfJmp ||
    (if s.code = bpfJmp ||| bpfJa then [some s.k.toInt] else [s.jt, s.jf]).all fun distance =>
      distance.any fun d => 0 ≤ (i : Int) + 1 + d && (i : Int) + 1 + d < stmts.length &&
        -256 < d && d < 256

/-- A graph with all that `icode_to_fcode` can be given, except that its block-local jumps only
stay inside their blocks, and that is not flattened. -/
structure Misconverted (h : Heap) (root : BlockId) : Prop where
  acyclic : AcyclicFrom (Leads h) root
  inside : ∀ b, Reached h root b → b < h.size
  ends : ∀ b, Reached h root b → EndOk h b
  localInside : ∀ b, Reached h root b → LocalInside (h.get b).stmts = true
  fresh : ∀ b, Reached h root b →
    (h.get b).longjt = 0 ∧ (h.get b).longjf = 0
  small : countStmts h root + 2 * h.size < 2 ^ 31
  fails : ¬ ∃ last code, icodeToFcodeFor (2 * h.size + 1) h root = .ok (code.map some, last) ∧
    Flattened h root last code

/-- One block that returns the accumulator. -/
def oneBlock (stmts : List Stmt) : Heap := ⟨⟨[blockOf stmts 0x16 0 none]⟩, []⟩

/-- One block is misconverted if its array does not return what the block returns. -/
theorem misconverted_oneBlock {stmts : List Stmt} (array : List Insn) {v : Word} {result : Result}
    (inside : LocalInside stmts = true) (small : countStmts (oneBlock stmts) 0 + 2 < 2 ^ 31)
    (computed : icodeToFcodeFor 3 (oneBlock stmts) 0 = .ok (array.map some, oneBlock stmts))
    (p : Packet) (graph : (graphStep (oneBlock stmts) p).Stops ⟨0, 0, ⟨0, 0, fun _ => 0⟩⟩ (.ret v))
    (other : (step array p).Stops (.init fun _ => 0) result) (differ : .ret v ≠ result) :
    Misconverted (oneBlock stmts) 0 := by
  have noExit : ∀ c, ¬ Leads (oneBlock stmts) 0 c := by
    rintro c ⟨side, exit⟩
    cases side <;> cases exit
  have only {P : BlockId → Prop} (zero : P 0) (b : BlockId)
      (path : Reached (oneBlock stmts) 0 b) : P b := by
    rcases Relation.ReflTransGen.cases_head path with rfl | ⟨c, first, -⟩
    · exact zero
    · exact absurd first (noExit c)
  refine ⟨only ?_, only Nat.zero_lt_one, only (.inr ⟨rfl, rfl, (by decide : bpfClass 0x16 = bpfRet)⟩),
    only inside, only ⟨rfl, rfl⟩, small, ?_⟩
  · intro cycle
    obtain ⟨c, first, _⟩ := Relation.TransGen.head'_iff.mp cycle
    exact noExit c first
  · rintro ⟨last, code, ran, flattened⟩
    have pair := Except.ok.inj (ran.symm.trans computed)
    obtain rfl : code = array :=
      map_injective_iff.mpr (Option.some_injective _) (Prod.mk.inj pair).1
    exact differ (((flattened.runs p _ _).mp graph).unique other)

/-- A conditional jump back inside a block gets the 8-bit displacement 254 and leads out of the
array. A jump forward past a `NOP`, which has no slot in the array, leads too far. -/
theorem backward_branch_misconverted :
    Misconverted (oneBlock [{ code := 0x00, k := 0 }, { code := 0x04, k := 1 },
      { code := 0x15, k := 1, jt := some (-2), jf := some 0 }, { code := 0x07 },
      { code := 0x07 }]) 0 ∧
    Misconverted (oneBlock [{ code := 0x15, k := 0, jt := some 1, jf := some 1 }, { code := nop },
      { code := 0x04, k := 1 }, { code := 0x04, k := 1 }]) 0 := by
  let p : Packet := ⟨[], 0, fun _ => 0, by decide⟩
  constructor
  · exact misconverted_oneBlock (v := 2) [⟨0x00, 0, 0, 0⟩, ⟨0x04, 0, 0, 1⟩, ⟨0x15, 254, 0, 1⟩,
      ⟨0x07, 0, 0, 0⟩, ⟨0x07, 0, 0, 0⟩, ⟨0x16, 0, 0, 0⟩] (by decide) (by decide) rfl p
      (Step.stops_iff_runFor.mpr ⟨8, rfl⟩) (Step.stops_iff_runFor.mpr ⟨4, rfl⟩) (by decide)
  · exact misconverted_oneBlock (v := 2) [⟨0x15, 1, 1, 0⟩, ⟨0x04, 0, 0, 1⟩, ⟨0x04, 0, 0, 1⟩,
      ⟨0x16, 0, 0, 0⟩] (by decide) (by decide) rfl p
      (Step.stops_iff_runFor.mpr ⟨8, rfl⟩) (Step.stops_iff_runFor.mpr ⟨4, rfl⟩) (by decide)

end Libpcap.Optimize
