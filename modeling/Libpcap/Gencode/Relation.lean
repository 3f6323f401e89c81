/-
# Relations between expressions

The block of a relation evaluates both sides and branches on the comparison; the
protocol checks of both sides are made in front of it. On a link type with fixed
header offsets, and a packet that has every header the expressions mention, the
compiled relation branches as the comparison of the two values
(`compileRelation_correct`).
-/

import Libpcap.Gencode.Checks
import Libpcap.Gencode.Evaluation

namespace Libpcap.Gencode

open Libpcap.Bpf Libpcap.Semantics

variable {a0 a1 : Arth} {left right : Expr} {f : Formula} {g g' g0 g1 : Gen} {m : Machine}
  {p : Packet} {rel : RelOp}

/-- Compile a relation to blocks. -/
def compileRelation (rel : RelOp) (left right : Expr) : GenM BlockId := do
  let b ← genRelOp rel left right
  emit b

/-! ## The generated formula -/

/-- The block of the relation itself. -/
def relationFormula (rel : RelOp) (a0 a1 : Arth) : Formula :=
  if rel.reversed then .not (.leaf (relationLeaf rel.code a0 a1))
  else .leaf (relationLeaf rel.code a0 a1)

/-- A relation that has been compiled: the code of both sides, and the checks in
front of the relation. -/
structure Related (g g' : Gen) (rel : RelOp) (left right : Expr) (f : Formula) (a0 a1 : Arth)
    (g0 g1 : Gen) : Prop where
  ranLeft : Runs (genExpr left) g a0 g0
  ranRight : Runs (genExpr right) g0 a1 g1
  agrees : Agrees g1 g'
  heap : g'.heap = g1.heap
  formula : f = andIf (relationChecks a0 a1) (relationFormula rel a0 a1)

theorem runs_genRelOp (ran : Runs (genRelOp rel left right) g f g') :
    ∃ a0 a1 g0 g1, Related g g' rel left right f a0 a1 g0 g1 := by
  simp only [genRelOp, genRelation, runs_bind_iff, runs_freeReg_iff, runs_pure_iff] at ran
  obtain ⟨a0, g0, ranLeft, a1, g1, ranRight, _, _, rfl, _, _, rfl, rfl, rfl⟩ := ran
  exact ⟨a0, a1, g0, g1, ranLeft, ranRight,
    (g1.withFree_agrees _).trans (Gen.withFree_agrees _ _), rfl, rfl⟩

theorem Related.guards (related : Related g g' rel left right f a0 a1 g0 g1) :
    Guards g' (relationChecks a0 a1) (left.checks ++ right.checks) := by
  have agrees := (genExpr_regs right related.ranRight).agrees.trans related.agrees
  exact ((genExpr_guards left related.ranLeft).later agrees).relationChecks
    ((genExpr_guards right related.ranRight).later related.agrees)

/-! ## The block of the relation -/

theorem decode_jmpX (cond : JmpOp) :
    decode (bpfJmp ||| cond.code ||| bpfX) = some (.jmp cond .x) := by
  cases cond <;> decide

theorem relationLeaf_straight {code : JmpOp} (straight0 : ∀ s ∈ a0.s, s.Straight)
    (straight1 : ∀ s ∈ a1.s, s.Straight) :
    (relationLeaf code a0 a1).Straight := by
  have operands : ∀ s ∈ a0.s ++ a1.s ++ [xferToX a1, xferToA a0], s.Straight := by
    simp only [List.mem_append, List.mem_cons, List.not_mem_nil, or_false, or_imp, forall_and,
      forall_eq]
    exact ⟨⟨straight0, straight1⟩, (quiet_xferToX a1).straight, (quiet_xferToA a0).straight⟩
  unfold relationLeaf
  split
  · refine ⟨?_, code, .k, decode_jmp code⟩
    intro s mem
    rcases List.mem_append.mp mem with inOperands | last
    · exact operands s inOperands
    · rw [List.mem_singleton.mp last]
      exact Stmt.straight_of_decode decode_subX rfl
  · exact ⟨operands, code, .x, decode_jmpX code⟩

/-- The relation compares what the code of its sides leaves in their registers;
for `=` the difference of the two is compared with 0. -/
theorem leafTest_relationLeaf (left : ExprRegs g g0 a0) (right : ExprRegs g0 g1 a1)
    {m0 m1 : Machine} (ranLeft : execStmts p a0.s m = .ok m0)
    (ranRight : execStmts p a1.s m0 = .ok m1) (code : JmpOp) :
    ∃ m', leafTest p (relationLeaf code a0 a1) m =
      .ok (code.eval (m0.mem a0.regno) (m1.mem a1.regno), m') := by
  unfold relationLeaf
  by_cases isEq : code = .jeq
  · subst isEq
    simp only [if_true, leafTest, decode_jmp, List.append_assoc, List.cons_append, List.nil_append]
    rw [← List.append_assoc, exec_operands left right ranLeft ranRight, exec_subX]
    refine ⟨_, congrArg Except.ok (Prod.ext ?_ rfl)⟩
    rw [Bool.eq_iff_iff]
    simp only [JmpOp.eval, Src.value, beq_iff_eq]
    exact sub_eq_zero
  · simp only [if_neg isEq, leafTest, decode_jmpX]
    rw [exec_operands left right ranLeft ranRight]
    exact ⟨_, rfl⟩

/-- The branch of a relation, reversed or not, decides the relation. -/
theorem RelOp.eval_code (rel : RelOp) (a b : Word) :
    (if rel.reversed then !rel.code.eval a b else rel.code.eval a b) = rel.holds a b := by
  cases rel with
  | gt => rfl
  | ge => rfl
  | eq => exact beq_eq_decide a b
  | le => simp only [reversed, code, holds, JmpOp.eval, if_true, ← decide_not, not_lt]
  | lt => simp only [reversed, code, holds, JmpOp.eval, if_true, ← decide_not, not_le]
  | ne =>
    simp only [reversed, code, holds, JmpOp.eval, if_true]
    rw [beq_eq_decide, decide_not]

theorem eval_relationFormula {m' : Machine} {a b : Word}
    (test : leafTest p (relationLeaf rel.code a0 a1) m = .ok (rel.code.eval a b, m')) :
    (relationFormula rel a0 a1).eval (leafTest p) m = .ok (rel.holds a b, m') := by
  have decides := rel.eval_code a b
  unfold relationFormula
  split
  · rename_i reversed
    rw [if_pos reversed] at decides
    simp only [Cond.eval, test, decides]
  · rename_i plain
    rw [if_neg plain] at decides
    simp only [Cond.eval, test, decides]

/-! ## Compiled relations -/

theorem relationFormula_leaves (rel : RelOp) (a0 a1 : Arth) :
    (relationFormula rel a0 a1).leaves = [relationLeaf rel.code a0 a1] := by
  unfold relationFormula
  split <;> rfl

theorem Related.straight (related : Related g g' rel left right f a0 a1 g0 g1) :
    ∀ l ∈ f.leaves, l.Straight := by
  have relation : ∀ l ∈ (relationFormula rel a0 a1).leaves, l.Straight := by
    intro l mem
    rw [relationFormula_leaves, List.mem_singleton] at mem
    rw [mem]
    exact relationLeaf_straight (genExpr_regs left related.ranLeft).straight
      (genExpr_regs right related.ranRight).straight
  rw [related.formula]
  cases checks : relationChecks a0 a1 with
  | none => exact relation
  | some c =>
    intro l mem
    rcases List.mem_append.mp mem with inChecks | inRelation
    · exact headerTests_straight (related.guards.tests c checks) l inChecks
    · exact relation l inRelation

theorem Related.logged (related : Related g g' rel left right f a0 a1 g0 g1)
    (logged : g.heap.Logged) : g'.heap.Logged := by
  rw [related.heap, (genExpr_regs right related.ranRight).heap,
    (genExpr_regs left related.ranLeft).heap]
  exact logged

/-- Once the formula has been generated, nothing can fail. -/
theorem runs_compileRelation (logged : g.heap.Logged) (ran : Runs (genRelOp rel left right) g f g')
    :
    ∃ b h ids, Runs (compileRelation rel left right) g b (g'.withHeap h) ∧
      Emitted g'.heap h f ids b := by
  obtain ⟨a0, a1, g0, g1, related⟩ := runs_genRelOp ran
  obtain ⟨b, h, ids, ranEmit, emitted⟩ := emit_emitted f g' (related.logged logged)
  exact ⟨b, h, ids, .bind ran ranEmit, emitted⟩

theorem compileRelation_agrees {b : BlockId} (logged : g.heap.Logged)
    (ran : Runs (compileRelation rel left right) g b g') :
    Agrees g g' := by
  obtain ⟨f, g₁, ranGen, _⟩ := runs_bind_iff.mp ran
  obtain ⟨_, h, _, again, _⟩ := runs_compileRelation logged ranGen
  obtain ⟨rfl, rfl⟩ := again.unique ran
  obtain ⟨a0, a1, g0, g1, related⟩ := runs_genRelOp ranGen
  have agrees := ((genExpr_regs left related.ranLeft).agrees.trans
    (genExpr_regs right related.ranRight).agrees).trans related.agrees
  exact ⟨agrees.layout, agrees.ll, agrees.macpl⟩

/-- When all checks come out true, the relation is evaluated. -/
theorem eval_andIf_true {b : Option Formula} (rest : Formula) (tests : ∀ c ∈ b, HeaderTests c)
    (passes : outcomeIf p m.mem b = some true) :
    ∃ n, n.mem = m.mem ∧ (andIf b rest).eval (leafTest p) m = rest.eval (leafTest p) n := by
  cases b with
  | none => exact ⟨m, rfl, rfl⟩
  | some c =>
    have ran := (tests c rfl).eval_outcome p m
    have isTrue : outcome p m.mem c = some true := passes
    simp only [isTrue] at ran
    obtain ⟨n, ran, kept⟩ := ran
    refine ⟨n, kept, ?_⟩
    simp only [andIf, Cond.eval, ran]

/-! ## Success -/

/-- `alloc_reg` finds no free register. -/
def OutOfRegisters {α : Type} (m : GenM α) (g : Gen) : Prop :=
  m.run g = .error (.error "too many registers needed to evaluate expression")

/-- A computation fails only for want of registers. -/
def Allocates {α : Type} (m : GenM α) (g : Gen) : Prop :=
  OutOfRegisters m g ∨ ∃ a g', Runs m g a g'

theorem OutOfRegisters.bind {α β : Type} {x : GenM α} (failed : OutOfRegisters x g)
    (next : α → GenM β) : OutOfRegisters (x >>= next) g := by
  rw [OutOfRegisters, StateT.run_bind, show x.run g = _ from failed]
  rfl

theorem Allocates.bind {α β : Type} {x : GenM α} {next : α → GenM β} (first : Allocates x g)
    (rest : ∀ a g', Runs x g a g' → Allocates (next a) g') : Allocates (x >>= next) g := by
  rcases first with failed | ⟨a, g₁, ran⟩
  · exact .inl (failed.bind next)
  · rcases rest a g₁ ran with failed | ⟨b, g₂, ranRest⟩
    · left
      rw [OutOfRegisters, StateT.run_bind, show x.run g = .ok (a, g₁) from ran]
      exact failed
    · exact .inr ⟨b, g₂, ran.bind ranRest⟩

theorem allocates_allocReg (g : Gen) : Allocates allocReg g := by
  cases found : g.nextReg with
  | some r => exact .inr ⟨r, _, runs_allocReg_iff.mpr ⟨found, rfl⟩⟩
  | none =>
    rw [Gen.nextReg] at found
    left
    simp only [OutOfRegisters, allocReg, StateT.run_bind, StateT.run_get, pure_bind, found]
    rfl

theorem allocates_freeReg (g : Gen) (r : Reg) : Allocates (freeReg r) g := .inr ⟨⟨⟩, _, rfl⟩

/-- With fixed header offsets a check that comes out true can be generated again. -/
theorem Check.runs_of_fixed {check : Check} (fixed : g.layout.Fixed) (agrees : Agrees g g')
    {mem : Reg → Word} (found : check.outcome g p mem = some true) :
    ∃ f, Runs check.gen g' f g' := by
  have found' := Check.outcome_of_fixed fixed agrees found
  rw [Check.outcome] at found'
  cases ran : check.gen.run g' with
  | error fault =>
    rw [ran] at found'
    cases found'
  | ok pair =>
    obtain ⟨f, g₁⟩ := pair
    have assigns := (generates_check check g' f g₁ ran).2.1
    rw [← agrees.layout] at fixed
    cases assigns.eq_of_fixed fixed
    exact ⟨f, ran⟩

/-- With fixed header offsets, the code behind the index of an access can be generated if the
checks of the protocol can. -/
theorem exists_runs_genLoadFrom {proto : Proto} {start : Word} (fixed : g.layout.Fixed)
    (starts : headerStart g.layout p proto = some start)
    (checks : ∀ check ∈ proto.checks, ∃ f, Runs check.gen g f g) (inst : Arth) (size : Size) :
    ∃ loaded, Runs (genLoadFrom proto inst size) g loaded g := by
  have macpl : Runs genOffMacpl g [] g := by
    rw [runs_genOffMacpl_iff, fixed.macpl]
    exact ⟨rfl, rfl⟩
  have notRadio : proto ≠ .radio := by
    rintro rfl
    cases starts
  have here : Runs layout g g.layout g := rfl
  unfold headerStart at starts
  split_ifs at starts with link network transport
  · have ll : Runs genLlprefixlen g [] g := by
      rw [runs_genLlprefixlen_iff, fixed.noRadioHeader]
      exact ⟨rfl, rfl⟩
    apply Exists.intro
    apply here.bind
    rw [if_neg notRadio, if_pos link]
    exact ll.bind rfl
  · obtain ⟨f, carries⟩ := checks (.carries proto) (by simp [Proto.checks, Proto.checksAfter, network])
    apply Exists.intro
    apply here.bind
    rw [if_neg notRadio, if_neg link, if_pos network]
    exact macpl.bind (Runs.bind carries rfl)
  · have iphdrlen : Runs genLoadxIphdrlen g _ g := macpl.bind (here.bind rfl)
    have mem : ∀ check ∈ [Check.carries .ip, .carries proto, .ipfrag], check ∈ proto.checks := by
      simp [Proto.checks, Proto.checksBefore, Proto.checksAfter, network, transport]
    obtain ⟨ip, carriesIp⟩ := checks (.carries .ip) (mem _ (by simp))
    obtain ⟨b0, carries⟩ := checks (.carries proto) (mem _ (by simp))
    obtain ⟨b, unfragmented⟩ := checks .ipfrag (mem _ (by simp))
    apply Exists.intro
    apply here.bind
    rw [if_neg notRadio, if_neg link, if_neg network, if_pos transport]
    exact iphdrlen.bind (Runs.bind carries (Runs.bind unfragmented (Runs.bind carriesIp rfl)))

/-- On a packet that has the headers of an expression and gives it a value, the expression can
be compiled unless the registers run out. -/
theorem allocates_genExpr (e : Expr) {v : Word} {mem : Reg → Word} (fixed : g.layout.Fixed)
    (agrees : Agrees g g') (contains : ∀ proto ∈ e.accesses, ∀ check ∈ proto.checks,
      check.outcome g p mem = some true) (value : e.eval g.layout p = some v) :
    Allocates (genExpr e) g' := by
  induction e generalizing g' v with
  | num val | len => exact (allocates_allocReg g').bind fun r g₁ _ => .inr ⟨_, g₁, rfl⟩
  | load proto index size ih =>
    simp only [Expr.eval, Option.bind_eq_bind, Option.bind_eq_some_iff] at value
    obtain ⟨i, valueIndex, start, starts, width, sized, -⟩ := value
    refine (ih agrees (fun other mem => contains other (List.mem_cons_of_mem _ mem)) valueIndex).bind
      fun inst g₁ ranIndex => (allocates_allocReg g₁).bind fun regno g₂ ranAlloc => ?_
    obtain ⟨-, rfl⟩ := runs_allocReg_iff.mp ranAlloc
    have agrees' : Agrees g ((g₁.withAlloc regno).withFree inst.regno) :=
      (agrees.trans (genExpr_regs index ranIndex).agrees).trans
        ((g₁.withAlloc_agrees regno).trans (Gen.withFree_agrees _ _))
    have checks : ∀ check ∈ proto.checks, ∃ f, Runs check.gen _ f _ := fun check mem =>
      Check.runs_of_fixed fixed agrees' (contains proto List.mem_cons_self check mem)
    rw [← agrees'.layout] at fixed starts
    obtain ⟨loaded, ranFrom⟩ := exists_runs_genLoadFrom fixed starts checks inst width
    refine (allocates_freeReg _ _).bind fun _ g₂ ranFree => ?_
    rw [runs_freeReg_iff.mp ranFree, sized]
    exact .inr ⟨_, _, ranFrom.bind rfl⟩
  | neg inner ih =>
    simp only [Expr.eval, Option.bind_eq_bind, Option.bind_eq_some_iff] at value
    obtain ⟨w, valueInner, -⟩ := value
    exact (ih agrees contains valueInner).bind fun a g₁ _ => .inr ⟨_, g₁, rfl⟩
  | arith fn left right ihLeft ihRight =>
    simp only [Expr.eval, Option.bind_eq_bind, Option.bind_eq_some_iff] at value
    obtain ⟨v0, valueLeft, v1, valueRight, -⟩ := value
    have split := List.forall_mem_append.mp contains
    refine (ihLeft agrees split.1 valueLeft).bind fun a0 g0 ranLeft => ?_
    have agrees0 := agrees.trans (genExpr_regs left ranLeft).agrees
    refine (ihRight agrees0 split.2 valueRight).bind fun a1 g1 _ => ?_
    refine (allocates_freeReg _ _).bind fun _ g₂ _ => (allocates_freeReg _ _).bind fun _ g₃ _ => ?_
    exact (allocates_allocReg g₃).bind fun r g₄ _ => .inr ⟨_, g₄, rfl⟩

/-- The compiled relation, on a link type with fixed header offsets and a packet that has the
header of each access and gives both sides a value: unless the registers run out, the relation
is compiled, and the run from the head of its block comes to the true exit when the relation
holds between the values, and to the false exit otherwise. -/
theorem compileRelation_correct {rel : RelOp} {left right : Expr} {g : Gen}
    (fixed : g.layout.Fixed) (logged : g.heap.Logged) (snaplen : Word) {p : Packet} {m : Machine}
    {a c : Word} (contains : ∀ proto ∈ left.accesses ++ right.accesses, ∀ check ∈ proto.checks,
      check.outcome g p m.mem = some true)
    (valueLeft : left.eval g.layout p = some a) (valueRight : right.eval g.layout p = some c) :
    OutOfRegisters (compileRelation rel left right) g ∨
    ∃ b g' h accept reject m', Runs (compileRelation rel left right) g b g' ∧
      g'.heap.resolve b snaplen = some (h, accept, reject) ∧
      (h.get accept).s = { code := bpfRet ||| bpfK, k := snaplen } ∧
      (h.get reject).s = { code := bpfRet ||| bpfK, k := 0 } ∧
      (graphStep h p).Reaches ⟨(h.get b).head, 0, m⟩
        ⟨if rel.holds a c then accept else reject, 0, m'⟩ := by
  have split := List.forall_mem_append.mp contains
  have generated : Allocates (genRelOp rel left right) g := by
    refine (allocates_genExpr left fixed (.refl g) split.1 valueLeft).bind fun a0 g0 ranLeft => ?_
    refine (allocates_genExpr right fixed (genExpr_regs left ranLeft).agrees split.2
      valueRight).bind fun a1 g1 _ => .inr ⟨_, _, rfl⟩
  rcases generated with failed | ⟨f, g₁, ranGen⟩
  · exact .inl (failed.bind emit)
  obtain ⟨b, h', ids, ran, emitted⟩ := runs_compileRelation logged ranGen
  obtain ⟨a0, a1, g0, g1, related⟩ := runs_genRelOp ranGen
  have regsLeft := genExpr_regs left related.ranLeft
  have regsRight := genExpr_regs right related.ranRight
  have agrees := (regsLeft.agrees.trans regsRight.agrees).trans related.agrees
  obtain ⟨pend, built⟩ := emitted.built
  obtain ⟨h, accept, reject, resolved, done⟩ := built.resolve snaplen
  have passes : outcomeIf p m.mem (relationChecks a0 a1) = some true := by
    rw [related.guards.outcome g₁ (.refl g₁) p m.mem, inOrder_eq_true_iff]
    intro o mem
    obtain ⟨check, kept, rfl⟩ := List.mem_map.mp mem
    obtain ⟨proto, access, ofProto⟩ : ∃ proto ∈ left.accesses ++ right.accesses,
        check ∈ proto.checks := by
      rcases List.mem_append.mp kept with inLeft | inRight
      · obtain ⟨proto, access, ofProto⟩ := Expr.checks_of_access inLeft
        exact ⟨proto, List.mem_append_left _ access, ofProto⟩
      · obtain ⟨proto, access, ofProto⟩ := Expr.checks_of_access inRight
        exact ⟨proto, List.mem_append_right _ access, ofProto⟩
    exact Check.outcome_of_fixed fixed agrees (contains proto access check ofProto)
  obtain ⟨n, kept, continues⟩ :=
    eval_andIf_true (relationFormula rel a0 a1) related.guards.tests passes
  obtain ⟨m0, ranLeft, rfl⟩ := genExpr_value left related.ranLeft fixed valueLeft n
  have layout : g0.layout = g.layout := regsLeft.agrees.layout
  rw [← layout] at fixed valueRight
  obtain ⟨m1, ranRight, rfl⟩ := genExpr_value right related.ranRight fixed valueRight m0
  obtain ⟨m', test⟩ := leafTest_relationLeaf regsLeft regsRight ranLeft ranRight rel.code
  have runs := emitted.runs related.straight resolved p m
  rw [related.formula, continues, eval_relationFormula test] at runs
  exact .inr ⟨b, _, h, accept, reject, m', ran, resolved, done.acceptRet, done.rejectRet, runs⟩

/-- An Ethernet frame that carries the first byte of an IPv4 header. -/
def ipFrame : Packet where
  data := [0, 1, 2, 3, 4, 5, 6, 7, 8, 9, 10, 11, 0x08, 0x00, 0x45]
  wirelen := 60
  around := fun _ => 0
  length_lt := by decide

/-- `ip[0] & 0xf` -/
def ipHeaderWords : Expr := .arith .and (.load .ip (.num 0) 1) (.num 0xf)

/-- The theorem on `ip[0] & 0xf = 5` for Ethernet, which is compiled and holds on the frame
above. -/
theorem compileRelation_correct_ip_header_length :
    ∃ b g' h accept reject m',
      Runs (compileRelation .eq ipHeaderWords (.num 5)) (.start .ethernet 65535) b g' ∧
      g'.heap.resolve b 65535 = some (h, accept, reject) ∧
      (h.get accept).s = { code := bpfRet ||| bpfK, k := 65535 } ∧
      (graphStep h ipFrame).Reaches ⟨(h.get b).head, 0, ⟨0, 0, fun _ => 0⟩⟩ ⟨accept, 0, m'⟩ := by
  have compiles : passes (compileRelation .eq ipHeaderWords (.num 5)) (.start .ethernet 65535)
      (fun _ _ => true) = true := by decide +kernel
  obtain ⟨_, _, ran, _⟩ := exists_runs _ compiles
  have contains : ∀ proto ∈ [Proto.ip], ∀ check ∈ proto.checks,
      check.outcome (.start .ethernet 65535) ipFrame (fun _ => 0) = some true := by
    decide
  rcases @compileRelation_correct .eq ipHeaderWords (.num 5) (.start .ethernet 65535)
    ⟨rfl, rfl⟩ nofun 65535 ipFrame ⟨0, 0, fun _ => 0⟩ 5 5 contains (by decide) (by decide)
    with failed | compiled
  · cases ran.symm.trans failed
  · obtain ⟨b, g', h, accept, reject, m', ran, resolved, isAccept, _, reached⟩ := compiled
    exact ⟨b, g', h, accept, reject, m', ran, resolved, isAccept, reached⟩

end Libpcap.Gencode
