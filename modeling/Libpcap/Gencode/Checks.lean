/-
# Protocol checks of expressions

An access to a header is preceded by checks that the packet contains the
protocol: for a transport protocol, that the packet is an IPv4 packet, carries
the protocol, and is not a fragment other than the first. `Expr.checks` lists the
checks that end up in front of an expression, in the order in which they are
made. `gen_arth` keeps the checks of its first operand and loses those of the
second, so this can be fewer than the accesses of the expression ask for.
-/

import Libpcap.Gencode.Arth

namespace Libpcap.Gencode

open Libpcap.Bpf Libpcap.Semantics List

variable {c : Formula} {g g' : Gen} {checks0 checks1 : List Check}

/-! ## Outcomes -/

/-- The outcome of header tests on a packet, given the scratch registers: `none`
when a load leaves the captured bytes. -/
def outcome (p : Packet) (mem : Reg → Word) (c : Formula) : Option Bool :=
  match c.eval (leafTest p) ⟨0, 0, mem⟩ with
  | .ok (value, _) => some value
  | .error _ => none

/-- Header tests have their outcome in every state of the machine. -/
theorem HeaderTests.eval_outcome (tests : HeaderTests c) (p : Packet) (m : Machine) :
    match outcome p m.mem c with
    | some value => ∃ n, c.eval (leafTest p) m = .ok (value, n) ∧ n.mem = m.mem
    | none => c.eval (leafTest p) m = .error (.reject .load) := by
  have same : (⟨0, 0, m.mem⟩ : Machine).mem = m.mem := rfl
  rcases tests.eval p same with ⟨value, n, n', ran, ran', kept, _⟩ | ⟨stops, stops'⟩
  · simp only [outcome, ran']
    exact ⟨n, ran, kept⟩
  · simp only [outcome, stops']
    exact stops

theorem headerTests_straight (tests : HeaderTests c) : ∀ l ∈ c.leaves, l.Straight :=
  fun l member => (tests l member).straight

/-- Header tests in a graph: the machine comes to the exit for the outcome. -/
theorem HeaderTests.runs {h : Heap} {ids : Cond BlockId} {onTrue onFalse : BlockId}
    (tests : HeaderTests c) (shape : ids.map h.leaf = c)
    (wired : ids.Wired (fun a side d => h.exit a side = some d) id onTrue onFalse) (p : Packet)
    (m : Machine) :
    match outcome p m.mem c with
    | some value => ∃ m', (graphStep h p).Reaches ⟨ids.first, 0, m⟩
        ⟨if value then onTrue else onFalse, 0, m'⟩
    | none => (graphStep h p).Stops ⟨ids.first, 0, m⟩ (.reject .load) := by
  subst shape
  have straight : ∀ a ∈ ids.leaves, (h.leaf a).Straight := by
    intro a member
    apply headerTests_straight tests
    rw [Cond.leaves_map]
    exact mem_map_of_mem member
  have follows := wired.follows (graphStep_follows (p := p) straight) m
  have ran := tests.eval_outcome p m
  cases found : outcome p m.mem (ids.map h.leaf) with
  | none =>
    rw [found, Cond.eval_map] at ran
    simp only [ran] at follows
    exact follows
  | some value =>
    rw [found, Cond.eval_map] at ran
    obtain ⟨n, ran, _⟩ := ran
    simp only [ran] at follows
    exact ⟨n, follows⟩

/-- Tests one after the other, up to the first that does not come out true. -/
def inOrder : List (Option Bool) → Option Bool
  | [] => some true
  | some true :: rest => inOrder rest
  | some false :: _ => some false
  | none :: _ => none

theorem inOrder_append (front back : List (Option Bool)) :
    inOrder (front ++ back) =
      match inOrder front with
      | some true => inOrder back
      | some false => some false
      | none => none := by
  induction front with
  | nil => rfl
  | cons first rest ih =>
    rcases first with _ | _ | _
    · rfl
    · rfl
    · exact ih

theorem inOrder_singleton (first : Option Bool) : inOrder [first] = first := by
  rcases first with _ | _ | _ <;> rfl

theorem inOrder_eq_true_iff {tests : List (Option Bool)} :
    inOrder tests = some true ↔ ∀ o ∈ tests, o = some true := by
  induction tests with
  | nil => simp [inOrder]
  | cons first rest ih =>
    rcases first with _ | _ | _
    · simp [inOrder]
    · simp [inOrder]
    · simp [inOrder, ih]

theorem inOrder_eq_false_iff {tests : List (Option Bool)} :
    inOrder tests = some false ↔
      ∃ front back, tests = front ++ some false :: back ∧ ∀ o ∈ front, o = some true := by
  induction tests with
  | nil => simp [inOrder]
  | cons first rest ih =>
    constructor
    · intro fails
      rcases first with _ | _ | _
      · cases fails
      · exact ⟨[], rest, rfl, forall_mem_nil _⟩
      · obtain ⟨front, back, rfl, before⟩ := ih.mp fails
        exact ⟨some true :: front, back, rfl, forall_mem_cons.mpr ⟨rfl, before⟩⟩
    · rintro ⟨front, back, split, before⟩
      cases front with
      | nil =>
        cases split
        rfl
      | cons head tail =>
        obtain ⟨isTrue, before⟩ := forall_mem_cons.mp before
        obtain ⟨same, splitRest⟩ := cons.inj split
        rw [same, isTrue]
        exact ih.mpr ⟨tail, back, splitRest, before⟩

/-- Header tests keep the scratch registers, and have their outcome wherever these are the
same. -/
theorem HeaderTests.outcome_at (tests : HeaderTests c) (p : Packet) {mem : Reg → Word}
    {m : Machine} (same : m.mem = mem) :
    outcome p mem c =
      match c.eval (leafTest p) m with
      | .ok (value, _) => some value
      | .error _ => none := by
  have same' : (⟨0, 0, mem⟩ : Machine).mem = m.mem := same.symm
  rcases tests.eval p same' with ⟨value, n, n', ran, ran', _⟩ | ⟨stops, stops'⟩
  · rw [outcome, ran', ran]
  · rw [outcome, stops', stops]

theorem HeaderTests.kept (tests : HeaderTests c) {p : Packet} {m n : Machine} {value : Bool}
    (ran : c.eval (leafTest p) m = .ok (value, n)) : n.mem = m.mem := by
  rcases tests.eval p (rfl : m.mem = m.mem) with ⟨_, n, _, ran', _, kept, _⟩ | ⟨stops, _⟩
  · cases ran.symm.trans ran'
    exact kept
  · cases ran.symm.trans stops

theorem outcome_and {left right : Formula} (testsLeft : HeaderTests left)
    (testsRight : HeaderTests right) (p : Packet) (mem : Reg → Word) :
    outcome p mem (.and left right) = inOrder [outcome p mem left, outcome p mem right] := by
  cases ran : left.eval (leafTest p) ⟨0, 0, mem⟩ with
  | error result => simp only [outcome, Cond.eval, ran, inOrder]
  | ok pair =>
    obtain ⟨value, n⟩ := pair
    rw [testsRight.outcome_at p (testsLeft.kept ran)]
    cases value <;> simp only [outcome, Cond.eval, ran, inOrder, inOrder_singleton]

/-! ## The checks of an access -/

/-- A check in front of an access. -/
inductive Check
  | carries (proto : Proto)
  | ipfrag
  deriving DecidableEq, Repr

/-- The test for a check. -/
def Check.gen : Check → GenM Formula
  | .carries proto => genProtoAbbrev proto
  | .ipfrag => genIpfrag

theorem generates_check (c : Check) : Generates c.gen HeaderTests := by
  cases c with
  | carries proto => exact generates_genProtoAbbrev proto
  | ipfrag => exact generates_genIpfrag

def Check.outcome (g : Gen) (p : Packet) (mem : Reg → Word) (c : Check) : Option Bool :=
  match c.gen.run g with
  | .ok (f, _) => Gencode.outcome p mem f
  | .error _ => none

/-- The check that is made before those of the index. -/
def Proto.checksBefore (proto : Proto) : List Check :=
  if proto.isTransport then [.carries .ip] else []

/-- The checks that are made after those of the index. -/
def Proto.checksAfter (proto : Proto) : List Check :=
  if proto.isNetwork then [.carries proto]
  else if proto.isTransport then [.carries proto, .ipfrag]
  else []

/-- The packet has the header of the protocol when all these come out true. -/
def Proto.checks (proto : Proto) : List Check := proto.checksBefore ++ proto.checksAfter

/-- The protocols of all accesses in an expression. -/
def Expr.accesses : Expr → List Proto
  | .num _ => []
  | .len => []
  | .load proto index _ => proto :: index.accesses
  | .neg inner => inner.accesses
  | .arith _ left right => left.accesses ++ right.accesses

/-- The checks that are kept for an expression, in order. -/
def Expr.checks : Expr → List Check
  | .num _ => []
  | .len => []
  | .load proto index _ => proto.checksBefore ++ index.checks ++ proto.checksAfter
  | .neg inner => inner.checks
  | .arith _ left _ => left.checks

/-- The checks that are kept are checks of accesses. -/
theorem Expr.checks_of_access {e : Expr} {c : Check} (kept : c ∈ e.checks) :
    ∃ proto ∈ e.accesses, c ∈ proto.checks := by
  induction e with
  | num val => cases kept
  | len => cases kept
  | load proto index size ih =>
    simp only [checks, mem_append] at kept
    rcases kept with (before | inIndex) | after
    · exact ⟨proto, mem_cons_self, mem_append_left _ before⟩
    · obtain ⟨other, access, check⟩ := ih inIndex
      exact ⟨other, mem_cons_of_mem _ access, check⟩
    · exact ⟨proto, mem_cons_self, mem_append_right _ after⟩
  | neg inner ih => exact ih kept
  | arith fn left right ihLeft _ =>
    obtain ⟨proto, access, check⟩ := ihLeft kept
    exact ⟨proto, mem_append_left _ access, check⟩

/-! ## The checks in front of an expression -/

/-- The outcome of checks of which there may be none. -/
def outcomeIf (p : Packet) (mem : Reg → Word) : Option Formula → Option Bool
  | some b => outcome p mem b
  | none => some true

/-- The formula makes the given checks, in order, now and later. -/
structure Guards (g : Gen) (b : Option Formula) (checks : List Check) : Prop where
  tests : ∀ c ∈ b, HeaderTests c
  outcome : ∀ g', Agrees g g' → ∀ p mem,
    outcomeIf p mem b = inOrder (checks.map (Check.outcome g' p mem))

theorem Guards.later {b : Option Formula} {checks : List Check} (guards : Guards g b checks)
    (agrees : Agrees g g') : Guards g' b checks :=
  ⟨guards.tests, fun g'' agrees' => guards.outcome g'' (agrees.trans agrees')⟩

theorem guards_none (g : Gen) : Guards g none [] :=
  ⟨nofun, fun _ _ _ _ => rfl⟩

/-- A check that has been generated. -/
theorem Check.guards {c : Check} {f : Formula} (ran : Runs c.gen g f g') :
    Guards g' (some f) [c] := by
  obtain ⟨tests, _, again⟩ := generates_check c g f g' ran
  refine ⟨?_, ?_⟩
  · rintro _ ⟨⟩
    exact tests
  · intro g₂ agrees p mem
    have replayed : c.gen.run g₂ = .ok (f, g₂) := again g₂ agrees
    rw [map_singleton, inOrder_singleton, Check.outcome, replayed]
    rfl

/-- With fixed header offsets the outcome of a check does not depend on the
registers. -/
theorem Check.outcome_of_fixed {c : Check} (fixed : g.layout.Fixed) (agrees : Agrees g g')
    {p : Packet} {mem : Reg → Word} {value : Bool} (found : c.outcome g p mem = some value) :
    c.outcome g' p mem = some value := by
  rw [Check.outcome] at found ⊢
  cases ran : c.gen.run g with
  | error fault =>
    rw [ran] at found
    cases found
  | ok pair =>
    obtain ⟨f, g₁⟩ := pair
    rw [ran] at found
    obtain ⟨_, assigns, again⟩ := generates_check c g f g₁ ran
    cases assigns.eq_of_fixed fixed
    have replayed : c.gen.run g' = .ok (f, g') := again g' agrees
    rw [replayed]
    exact found

/-- Checks in front of others. -/
theorem Guards.and {b0 b1 : Formula} (left : Guards g (some b0) checks0)
    (right : Guards g (some b1) checks1) :
    Guards g (some (.and b0 b1)) (checks0 ++ checks1) := by
  have tests0 := left.tests b0 rfl
  have tests1 := right.tests b1 rfl
  refine ⟨?_, ?_⟩
  · rintro _ ⟨⟩
    exact headerTests_and.mpr ⟨tests0, tests1⟩
  · intro g' agrees p mem
    have onLeft : Gencode.outcome p mem b0 = _ := left.outcome g' agrees p mem
    have onRight : Gencode.outcome p mem b1 = _ := right.outcome g' agrees p mem
    rw [map_append, inOrder_append, ← onLeft, ← onRight]
    refine (outcome_and tests0 tests1 p mem).trans ?_
    rcases Gencode.outcome p mem b0 with _ | _ | _
    · rfl
    · rfl
    · exact inOrder_singleton _

theorem Guards.andIf {b0 : Option Formula} {b1 : Formula} (left : Guards g b0 checks0)
    (right : Guards g (some b1) checks1) :
    Guards g (some (andIf b0 b1)) (checks0 ++ checks1) := by
  cases b0 with
  | some b0 => exact left.and right
  | none =>
    refine ⟨right.tests, ?_⟩
    intro g' agrees p mem
    have nothing := left.outcome g' agrees p mem
    rw [map_append, inOrder_append, ← nothing]
    exact right.outcome g' agrees p mem

theorem Guards.relationChecks {a0 a1 : Arth} (left : Guards g a0.b checks0)
    (right : Guards g a1.b checks1) :
    Guards g (relationChecks a0 a1) (checks0 ++ checks1) := by
  unfold Gencode.relationChecks
  cases b1 : a1.b with
  | some f1 =>
    rw [b1] at right
    have both := left.andIf right
    cases b0 : a0.b with
    | some f0 | none =>
      rw [b0] at both
      exact both
  | none =>
    rw [b1] at right
    have same : ∀ b0 : Option Formula, Guards g b0 checks0 → Guards g b0 (checks0 ++ checks1) := by
      intro b0 left
      refine ⟨left.tests, ?_⟩
      intro g' agrees p mem
      have nothing := right.outcome g' agrees p mem
      rw [map_append, inOrder_append, ← nothing, left.outcome g' agrees p mem]
      rcases inOrder _ with _ | _ | _ <;> rfl
    cases b0 : a0.b with
    | some f0 | none =>
      rw [b0] at left
      exact same _ left

theorem Guards.load {proto : Proto} {inst : Arth} {size : Size}
    {loaded : List Stmt × Option Formula} {checks : List Check} (index : Guards g inst.b checks)
    (ran : Runs (genLoadFrom proto inst size) g loaded g') :
    Guards g' loaded.2 (proto.checksBefore ++ checks ++ proto.checksAfter) := by
  obtain ⟨_, assigns, _⟩ := generates_genLoadFrom proto inst size g loaded g' ran
  have index' := index.later assigns.agrees
  rcases runs_genLoadFrom_cases ran with ⟨rfl, _, rfl⟩ | ⟨rfl, s, _, rfl⟩ |
    ⟨network, s, g₁, b, _, ranB, rfl⟩ |
    ⟨transport, s, g₁, b0, g₂, b, g₃, ip, _, ranB0, ranB, ranIp, rfl⟩
  · rw [show Proto.radio.checksBefore = [] from rfl, show Proto.radio.checksAfter = [] from rfl,
      nil_append, append_nil]
    exact index'
  · rw [show Proto.link.checksBefore = [] from rfl, show Proto.link.checksAfter = [] from rfl,
      nil_append, append_nil]
    exact index'
  · rw [Proto.checksBefore, Proto.checksAfter, Proto.not_transport_of_network network,
      if_pos network]
    exact index'.andIf (Check.guards (c := .carries proto) ranB)
  · rw [Proto.checksBefore, Proto.checksAfter, Proto.not_network_of_transport transport,
      if_pos transport, if_pos transport, append_assoc]
    obtain ⟨_, assignsB, _⟩ := generates_genIpfrag _ _ _ ranB
    obtain ⟨_, assignsIp, _⟩ := generates_genProtoAbbrev .ip _ _ _ ranIp
    have onIp := Check.guards (c := .carries .ip) ranIp
    have onProto := (Check.guards (c := .carries proto) ranB0).later
      (assignsB.agrees.trans assignsIp.agrees)
    have onFragment := (Check.guards (c := .ipfrag) ranB).later assignsIp.agrees
    exact onIp.and (index'.andIf (onProto.and onFragment))

/-- The checks of an expression are those that are kept. -/
theorem genExpr_guards (e : Expr) {a : Arth} (ran : Runs (genExpr e) g a g') :
    Guards g' a.b e.checks := by
  induction e generalizing g g' a with
  | num val =>
    obtain ⟨regno, _, rfl, rfl⟩ := runs_genLoadi_iff.mp ran
    exact guards_none _
  | len =>
    obtain ⟨regno, _, rfl, rfl⟩ := runs_genLoadlen_iff.mp ran
    exact guards_none _
  | load proto index size ih =>
    obtain ⟨inst, g₁, ranIndex, ranLoad⟩ := runs_bind_iff.mp ran
    obtain ⟨regno, width, loaded, _, _, loads, rfl⟩ := runs_genLoad_iff.mp ranLoad
    have agrees : Agrees g₁ ((g₁.withAlloc regno).withFree inst.regno) :=
      (g₁.withAlloc_agrees regno).trans (Gen.withFree_agrees _ _)
    exact ((ih ranIndex).later agrees).load loads
  | neg inner ih =>
    obtain ⟨a₁, g₁, ranInner, done⟩ := runs_bind_iff.mp ran
    obtain ⟨rfl, rfl⟩ := runs_pure_iff.mp done
    have inside : Guards g₁ a₁.b inner.checks := ih ranInner
    exact inside
  | arith fn left right ihLeft _ =>
    obtain ⟨a0, g0, ranLeft, rest⟩ := runs_bind_iff.mp ran
    obtain ⟨a1, g1, ranRight, ranArth⟩ := runs_bind_iff.mp rest
    have regs := genExpr_regs right ranRight
    obtain ⟨regno, _, rfl, rfl⟩ := runs_genArth_iff.mp ranArth
    have agrees : Agrees g1 (((g1.withFree a0.regno).withFree a1.regno).withAlloc regno) :=
      ((g1.withFree_agrees _).trans (Gen.withFree_agrees _ _)).trans (Gen.withAlloc_agrees _ _)
    exact (ihLeft ranLeft).later (regs.agrees.trans agrees)

end Libpcap.Gencode
