/-
# Checks in front of relations

A relation must not be evaluated on a packet that lacks one of the headers it
accesses: the checks in front of its block have to send such a packet to the
false exit. They do so exactly when one of the checks that are kept is the first
not to come out true, and comes out false. The checks of accesses in the second
operand of an arithmetic operator are not kept, so that `1 + tcp[0] = 5` is
evaluated on packets that are not TCP.
-/

import Libpcap.Gencode.Relation

namespace Libpcap.Gencode

open Libpcap.Bpf Libpcap.Semantics List

variable {accept b reject : BlockId} {ids : Cond BlockId} {c : Formula} {h : Heap} {snaplen : Word}

/-! ## Tests in front of a block -/

/-- A test in front of the block of a relation, as `resolve` leaves it. -/
structure InFront (h : Heap) (c : Formula) (b reject : BlockId) (ids : Cond BlockId) : Prop where
  head : (h.get b).head = ids.first
  shape : ids.map h.leaf = c
  wired : ids.Wired (fun a side d => h.exit a side = some d) id b reject
  different : ∀ a ∈ ids.leaves, a ≠ b
  rejects : (h.get reject).stmts = [] ∧ (h.get reject).s = { code := bpfRet ||| bpfK, k := 0 }
  notReject : reject ≠ b

/-- A condition with one test starts with its own block. -/
theorem Emitted.head_of_single {h₀ h' : Heap} {l : Leaf} (emitted : Emitted h₀ h' c ids b)
    (single : c.leaves = [l]) (resolved : h'.resolve b snaplen = some (h, accept, reject)) :
    (h.get b).head = b := by
  obtain ⟨pend, built⟩ := emitted.built
  obtain ⟨_, _, _, again, done⟩ := built.resolve snaplen
  rw [resolved] at again
  cases again
  have length : ids.leaves.length = 1 := by
    rw [← length_map (f := h'.leaf), ← Cond.leaves_map, emitted.shape, single]
    rfl
  obtain ⟨only, isOnly⟩ := length_eq_one_iff.mp length
  have handle := built.handle_mem
  have first := ids.first_mem_leaves
  rw [isOnly, mem_singleton] at handle first
  rw [done.finished.root_eq, first, handle]

theorem Emitted.inFront {h₀ h' : Heap} {rest : Formula} {l : Leaf}
    (emitted : Emitted h₀ h' (.and c rest) ids b) (single : rest.leaves = [l])
    (resolved : h'.resolve b snaplen = some (h, accept, reject)) :
    ∃ front, InFront h c b reject front := by
  obtain ⟨pend, built⟩ := emitted.built
  obtain ⟨_, _, _, again, done⟩ := built.resolve snaplen
  rw [resolved] at again
  cases again
  obtain ⟨front, back, rfl, shapeFront, shapeBack⟩ := Cond.map_eq_and emitted.shape
  have backLeaves : back.leaves = [b] := by
    have length : back.leaves.length = 1 := by
      rw [← length_map (f := h'.leaf), ← Cond.leaves_map, shapeBack, single]
      rfl
    obtain ⟨last, isLast⟩ := length_eq_one_iff.mp length
    have handle : (front.leaves ++ back.leaves).getLast? = some b := emitted.handle
    rw [isLast, getLast?_append] at handle
    cases handle
    exact isLast
  have backFirst : back.first = b := by
    have member := back.first_mem_leaves
    rw [backLeaves] at member
    exact mem_singleton.mp member
  have nodup : (front.leaves ++ back.leaves).Nodup := emitted.nodup
  refine ⟨front, done.finished.root_eq, ?_, ?_, ?_, ⟨done.returnStmts.2, done.rejectRet⟩, ?_⟩
  · rw [← shapeFront]
    apply Cond.map_congr
    intro a member
    have known := built.bound a (mem_append_left _ member)
    simp only [Heap.leaf, done.s a known, done.stmts a known]
  · have wired := done.finished.wired.1
    rw [backFirst] at wired
    exact wired
  · rintro a member rfl
    rw [backLeaves] at nodup
    exact (nodup_append'.mp nodup).2.2 member (mem_singleton_self a)
  · rintro rfl
    exact done.finished.notTest.2 built.handle_mem

section Outcomes

variable {h : Heap} {c : Formula} {b reject : BlockId} {ids : Cond BlockId}
  (front : InFront h c b reject ids) (tests : HeaderTests c) (p : Packet) (m : Machine)

include front tests

theorem InFront.straight : ∀ a ∈ ids.leaves, (h.leaf a).Straight := by
  intro a member
  apply headerTests_straight tests
  rw [← front.shape, Cond.leaves_map]
  exact mem_map_of_mem member

/-- The run from the head makes the test. -/
theorem InFront.runs :
    match outcome p m.mem c with
    | some value => ∃ m', (graphStep h p).Reaches ⟨(h.get b).head, 0, m⟩
        ⟨if value then b else reject, 0, m'⟩
    | none => (graphStep h p).Stops ⟨(h.get b).head, 0, m⟩ (.reject .load) := by
  rw [front.head]
  exact tests.runs front.shape front.wired p m

/-- Unless the test comes out true, the run does not come to the block. -/
theorem InFront.avoids (fails : outcome p m.mem c ≠ some true) :
    (graphStep h p).Always (fun s => s.block ≠ b) ⟨(h.get b).head, 0, m⟩ := by
  have inside : ∀ a ∈ ids.leaves, ∀ m : Machine,
      (∀ side next, leafTest p (h.leaf a) m = .ok (side, next) →
        ∀ target, h.exit a side = some target →
          (graphStep h p).Always (fun s => s.block ≠ b) ⟨target, 0, next⟩) →
      (graphStep h p).Always (fun s => s.block ≠ b) ⟨a, 0, m⟩ := by
    intro a member m after
    have different := front.different a member
    exact graphStep_backward (fun _ _ _ stopped => Step.always_of_stop stopped different)
      (fun _ _ _ moved later => Step.always_of_move moved different later)
      (front.straight tests a member) after
  rw [front.head]
  refine front.wired.backward ((graphStep h p).Always fun s => s.block ≠ b)
    (fun a m => ⟨a, 0, m⟩) (fun a => leafTest p (h.leaf a)) ?_ ?_ ?_
  · intro a member state result stopped
    refine inside a member state ?_
    intro side next ran
    rw [stopped] at ran
    cases ran
  · intro a member state side next ran target leads later
    refine inside a member state ?_
    intro side' next' ran' target' leads'
    rw [ran] at ran'
    cases ran'
    rw [leads] at leads'
    cases leads'
    exact later
  · intro value next ran
    rw [← Cond.eval_map, front.shape] at ran
    cases value with
    | false =>
      have stopped := graphStep_return (p := p) (m := next) front.rejects.1 front.rejects.2
      exact Step.always_of_stop stopped front.notReject
    | true =>
      have found := tests.eval_outcome p m
      rcases known : outcome p m.mem c with _ | _ | _
      · simp only [known, ran] at found
        cases found
      · simp only [known, ran] at found
        obtain ⟨_, impossible, _⟩ := found
        cases impossible
      · exact absurd known fails

end Outcomes

/-! ## Relations -/

/-- The packet lacks the header of a protocol: one of its checks does not come out
true. -/
def Lacks (g : Gen) (p : Packet) (mem : Reg → Word) (proto : Proto) : Prop :=
  ∃ check ∈ proto.checks, check.outcome g p mem ≠ some true

/-- The run from the head of a condition comes to the false exit, and does not
come to the block of the relation. -/
def TakesFalseExit (h : Heap) (p : Packet) (b reject : BlockId) (m : Machine) : Prop :=
  (∃ m', (graphStep h p).Reaches ⟨(h.get b).head, 0, m⟩ ⟨reject, 0, m'⟩) ∧
    (graphStep h p).Always (fun s => s.block ≠ b) ⟨(h.get b).head, 0, m⟩

theorem InFront.takesFalseExit_iff (front : InFront h c b reject ids) (tests : HeaderTests c)
    (p : Packet) (m : Machine) :
    TakesFalseExit h p b reject m ↔ outcome p m.mem c = some false := by
  have runs := front.runs tests p m
  rcases found : outcome p m.mem c with _ | _ | _
  · -- a load of the test is rejected, so the run cannot come to the return block
    rw [found] at runs
    simp only [reduceCtorEq, iff_false]
    rintro ⟨⟨m', reached⟩, _⟩
    have stopped := graphStep_return (p := p) (m := m') front.rejects.1 front.rejects.2
    have same := (Step.stops_iff_of_stop stopped).mp (reached.stops_iff.mp runs)
    cases same
  · rw [found] at runs
    simp only [iff_true]
    exact ⟨runs, front.avoids tests p m (by rw [found]; decide)⟩
  · rw [found] at runs
    obtain ⟨m', reached⟩ := runs
    simp only [Option.some.injEq, Bool.true_eq_false, iff_false]
    rintro ⟨_, never⟩
    exact never _ reached rfl

/-- A compiled relation takes its false exit without being evaluated exactly when
the first of its checks that does not come out true comes out false. -/
theorem takesFalseExit_iff {rel : RelOp} {left right : Expr} {g g' : Gen} (logged : g.heap.Logged)
    (ran : Runs (compileRelation rel left right) g b g')
    (resolved : g'.heap.resolve b snaplen = some (h, accept, reject)) (p : Packet) (m : Machine) :
    TakesFalseExit h p b reject m ↔
      inOrder ((left.checks ++ right.checks).map (Check.outcome g' p m.mem)) = some false := by
  obtain ⟨f, g₁, ranGen, _⟩ := runs_bind_iff.mp ran
  obtain ⟨b', h', ids, again, emitted⟩ := runs_compileRelation logged ranGen
  obtain ⟨rfl, rfl⟩ := again.unique ran
  obtain ⟨a0, a1, g0, g1, related⟩ := runs_genRelOp ranGen
  have agrees : Agrees g₁ (g₁.withHeap h') := ⟨rfl, fun _ set => set, fun _ set => set⟩
  rw [← related.guards.outcome _ agrees p m.mem]
  have single := relationFormula_leaves rel a0 a1
  rw [related.formula] at emitted
  cases checks : relationChecks a0 a1 with
  | some c =>
    rw [checks] at emitted
    obtain ⟨front, inFront⟩ := emitted.inFront single resolved
    exact inFront.takesFalseExit_iff (related.guards.tests c checks) p m
  | none =>
    rw [checks] at emitted
    simp only [outcomeIf, Option.some.injEq, Bool.true_eq_false, iff_false]
    rintro ⟨_, never⟩
    exact never _ (.refl _) (emitted.head_of_single single resolved)

/-- The checks of a relation are not lost: for every packet that lacks a header
the relation accesses, the compiled relation takes its false exit without being
evaluated. This is so exactly when, for every such packet, there is a check among
those that are kept which comes out false and before which all come out true. -/
theorem compileRelation_guarded_iff {rel : RelOp} {left right : Expr} {g g' : Gen} {b : BlockId}
    {h : Heap} {accept reject : BlockId} {snaplen : Word} (logged : g.heap.Logged)
    (ran : Runs (compileRelation rel left right) g b g')
    (resolved : g'.heap.resolve b snaplen = some (h, accept, reject)) (p : Packet)
    (m : Machine) :
    ((∃ proto ∈ left.accesses ++ right.accesses, Lacks g' p m.mem proto) →
      TakesFalseExit h p b reject m) ↔
    ((∃ proto ∈ left.accesses ++ right.accesses, Lacks g' p m.mem proto) →
      ∃ before check after, left.checks ++ right.checks = before ++ check :: after ∧
        (∀ c ∈ before, c.outcome g' p m.mem = some true) ∧
        check.outcome g' p m.mem = some false) := by
  refine imp_congr_right fun _ => (takesFalseExit_iff logged ran resolved p m).trans ?_
  rw [inOrder_eq_false_iff]
  constructor
  · rintro ⟨front, back, split, before⟩
    obtain ⟨front', rest, whole, rfl, atRest⟩ := map_eq_append_iff.mp split
    obtain ⟨check, back', rfl, isFalse, rfl⟩ := map_eq_cons_iff.mp atRest
    refine ⟨front', check, back', whole, ?_, isFalse⟩
    intro c member
    exact before _ (mem_map_of_mem member)
  · rintro ⟨before, check, after, whole, isTrue, isFalse⟩
    refine ⟨before.map (Check.outcome g' p m.mem), after.map (Check.outcome g' p m.mem), ?_, ?_⟩
    · rw [whole, map_append, map_cons, isFalse]
    · intro o member
      obtain ⟨c, inBefore, rfl⟩ := mem_map.mp member
      exact isTrue c inBefore

/-- An ARP frame on Ethernet. -/
def arpFrame : Packet where
  data := [0, 1, 2, 3, 4, 5, 6, 7, 8, 9, 10, 11, 0x08, 0x06, 0x00]
  wirelen := 60
  around := fun _ => 0
  length_lt := by decide

/-- A relation compiled for Ethernet, and that the frame above does not carry IP. -/
theorem compileRelation_arpFrame (left right : Expr) (logged : Heap.empty.Logged)
    (generates : passes (genRelOp .eq left right) (.start .ethernet 65535)
      (fun _ _ => true) = true := by decide +kernel) :
    ∃ b g' h accept reject, Runs (compileRelation .eq left right) (.start .ethernet 65535) b g' ∧
      g'.heap.resolve b 65535 = some (h, accept, reject) ∧
      Check.outcome g' arpFrame (fun _ => 0) (.carries .ip) = some false := by
  obtain ⟨f, g', ranGen, _⟩ := exists_runs _ generates
  obtain ⟨b, h', ids, ran, emitted⟩ := runs_compileRelation logged ranGen
  obtain ⟨pend, built⟩ := emitted.built
  obtain ⟨h, accept, reject, resolved, _⟩ := built.resolve 65535
  exact ⟨b, _, h, accept, reject, ran, resolved,
    Check.outcome_of_fixed ⟨rfl, rfl⟩ (compileRelation_agrees logged ran) (by decide)⟩

/-- The theorem on `tcp[0] = 5` for Ethernet and the frame above. -/
theorem compileRelation_guarded_iff_tcp : ∃ b g' h accept reject,
    Runs (compileRelation .eq (.load .tcp (.num 0) 1) (.num 5)) (.start .ethernet 65535) b g' ∧
      g'.heap.resolve b 65535 = some (h, accept, reject) ∧
      TakesFalseExit h arpFrame b reject ⟨0, 0, fun _ => 0⟩ := by
  have logged : Heap.empty.Logged := nofun
  obtain ⟨b, g', h, accept, reject, ran, resolved, notIp⟩ :=
    compileRelation_arpFrame (.load .tcp (.num 0) 1) (.num 5) logged
  refine ⟨b, g', h, accept, reject, ran, resolved, ?_⟩
  refine (compileRelation_guarded_iff logged ran resolved arpFrame ⟨0, 0, fun _ => 0⟩).mpr ?_ ?_
  · intro _
    exact ⟨[], .carries .ip, _, rfl, forall_mem_nil _, notIp⟩
  · refine ⟨.tcp, mem_cons_self, .carries .ip, mem_cons_self, ?_⟩
    rw [notIp]
    decide

/-- The relation `1 + tcp[0] = 5` is evaluated on an ARP frame. -/
theorem second_operand_unchecked :
    ¬ ∀ (rel : RelOp) (left right : Expr) (g g' : Gen) (b : BlockId) (h : Heap)
      (accept reject : BlockId) (snaplen : Word) (p : Packet) (m : Machine),
      g.heap.Logged → Runs (compileRelation rel left right) g b g' →
      g'.heap.resolve b snaplen = some (h, accept, reject) →
      (∃ proto ∈ left.accesses ++ right.accesses, Lacks g' p m.mem proto) →
      TakesFalseExit h p b reject m := by
  intro claim
  have logged : Heap.empty.Logged := nofun
  obtain ⟨b, g', h, accept, reject, ran, resolved, notIp⟩ :=
    compileRelation_arpFrame (.arith .add (.num 1) (.load .tcp (.num 0) 1)) (.num 5) logged
  have takes := claim _ _ _ _ _ b h accept reject 65535 arpFrame ⟨0, 0, fun _ => 0⟩ logged ran
    resolved ⟨.tcp, mem_cons_self, .carries .ip, mem_cons_self, by rw [notIp]; decide⟩
  have kept := (takesFalseExit_iff logged ran resolved arpFrame _).mp takes
  cases kept

end Libpcap.Gencode
