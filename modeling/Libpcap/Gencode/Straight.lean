/-
# Tests without block-local jumps

Nearly all test blocks are a list of statements without jumps, followed by a
conditional jump. Such a block is a test on the state of the filter machine, and
executing an emitted formula over such tests evaluates it.
-/

import Libpcap.Gencode.Formula

namespace Libpcap.Gencode

open Libpcap.Bpf Libpcap.Semantics List

variable {b : BlockId} {h : Heap} {m : Machine} {i : Nat} {p : Packet} {s : Stmt}

/-! ## Statement lists -/

/-- Execute statements one after the other; a jump is not expected. -/
def execStmts (p : Packet) : List Stmt → Machine → Except Result Machine
  | [], m => .ok m
  | s :: rest, m =>
    match decode s.code with
    | none => .error .abort
    | some op =>
      match op.effect s.k p m with
      | .next m => execStmts p rest m
      | .stop result => .error result
      | .branch _ => .error (.undefined .pcRange)
      | .jump => .error (.undefined .pcRange)

theorem execStmts_append (p : Packet) (front back : List Stmt) (m : Machine) :
    execStmts p (front ++ back) m =
      match execStmts p front m with
      | .ok m => execStmts p back m
      | .error result => .error result := by
  induction front generalizing m with
  | nil => rfl
  | cons s rest ih =>
    simp only [cons_append, execStmts]
    cases decode s.code with
    | none => rfl
    | some op =>
      simp only
      cases op.effect s.k p m with
      | next m' => exact ih m'
      | stop result | branch taken | jump => rfl

/-- The scratch register that a statement stores to. -/
def Stmt.stores (s : Stmt) : Option (Fin memWords) :=
  match decode s.code with
  | some .st => memIndex s.k
  | some .stx => memIndex s.k
  | _ => none

/-- Statements that do not store to a register keep it. -/
theorem execStmts_mem {stmts : List Stmt} {m' : Machine} {r : Fin memWords}
    (ran : execStmts p stmts m = .ok m') (other : ∀ s ∈ stmts, s.stores ≠ some r) :
    m'.mem r = m.mem r := by
  induction stmts generalizing m with
  | nil =>
    cases ran
    rfl
  | cons s rest ih =>
    rw [execStmts] at ran
    cases decoded : decode s.code with
    | none =>
      rw [decoded] at ran
      cases ran
    | some op =>
      have here : op = .st ∨ op = .stx → memIndex s.k ≠ some r := by
        intro store
        have away := other s mem_cons_self
        rcases store with rfl | rfl
        · simpa only [Stmt.stores, decoded] using away
        · simpa only [Stmt.stores, decoded] using away
      cases effect : op.effect s.k p m with
      | next m₁ =>
        simp only [decoded, effect] at ran
        rw [ih ran fun s' mem => other s' (mem_cons_of_mem _ mem), Op.effect_mem effect here]
      | stop result | branch taken | jump =>
        simp only [decoded, effect] at ran
        cases ran

/-- A statement that is executed and goes on to the next. -/
def Stmt.Straight (s : Stmt) : Prop := s.code ≠ nop ∧ bpfClass s.code ≠ bpfJmp

instance (s : Stmt) : Decidable s.Straight :=
  inferInstanceAs (Decidable (s.code ≠ nop ∧ bpfClass s.code ≠ bpfJmp))

/-- Whether statements are straight can be read off their codes. -/
theorem straight_of_codes {stmts : List Stmt}
    (codes : (stmts.map Stmt.code).all (fun code => code ≠ nop ∧ bpfClass code ≠ bpfJmp) = true) :
    ∀ s ∈ stmts, s.Straight := by
  intro s mem
  have here := all_eq_true.mp codes s.code (mem_map_of_mem mem)
  exact of_decide_eq_true here

/-- The operations that go on to the next instruction, or stop. -/
def goesOn : Op → Bool
  | .ja => false
  | .jmp _ _ => false
  | _ => true

theorem Stmt.straight_of_decode {op : Op} (decoded : decode s.code = some op)
    (plain : goesOn op = true) : s.Straight := by
  have all : ∀ op, goesOn op = true → op.encode ≠ nop ∧ bpfClass op.encode ≠ bpfJmp := by decide
  rw [Stmt.Straight, ← decode_eq_some_iff.mp decoded]
  exact all op plain

theorem Stmt.Straight.effect (straight : s.Straight) {op : Op} (decoded : decode s.code = some op)
    (p : Packet) (m : Machine) :
    (∀ taken, op.effect s.k p m ≠ .branch taken) ∧ op.effect s.k p m ≠ .jump := by
  have encoded := decode_eq_some_iff.mp decoded
  constructor
  · intro taken branches
    obtain ⟨cond, src, rfl, _⟩ := Op.effect_branch branches
    apply straight.2
    rw [← encoded]
    cases cond <;> cases src <;> decide
  · intro jumps
    cases Op.effect_jump jumps
    apply straight.2
    rw [← encoded]
    decide

/-- One step at a statement that is not `NOP`. -/
theorem graphStep_live (found : (h.get b).stmts[i]? = some s) (alive : s.code ≠ nop) (m : Machine) :
    graphStep h p ⟨b, i, m⟩ =
      match decode s.code with
      | none => .stop .abort
      | some op =>
        match op.effect s.k p m with
        | .next m => .go ⟨b, i + 1, m⟩
        | .branch taken =>
          match if taken then s.jt else s.jf with
          | some distance => .go ⟨b, i + 1 + distance, m⟩
          | none => .stop (.undefined .pcRange)
        | .jump => .go ⟨b, i + 1 + s.k.toInt, m⟩
        | .stop result => .stop result := by
  have within := (List.getElem?_eq_some_iff.mp found).1
  have next : nextLive (h.get b).stmts i = i := by
    have alive' : (s.code == nop) = false := by simpa using alive
    have split := drop_eq_getElem_cons within
    rw [(List.getElem?_eq_some_iff.mp found).2] at split
    rw [nextLive, split, takeWhile_cons, alive']
    rfl
  exact graphStep_stmt ⟨Int.natCast_nonneg i, Nat.le_of_lt within⟩ next found

/-- One statement of a block. -/
theorem graphStep_straight_stmt {front rest : List Stmt}
    (split : (h.get b).stmts = front ++ s :: rest) (here : s.Straight) (m : Machine) :
    graphStep h p ⟨b, front.length, m⟩ =
      match execStmts p [s] m with
      | .ok m' => .go ⟨b, (front ++ [s]).length, m'⟩
      | .error result => .stop result := by
  have found : (h.get b).stmts[front.length]? = some s := by
    rw [split, getElem?_append_right (Nat.le_refl _), Nat.sub_self]
    rfl
  have length : ((front ++ [s]).length : Int) = (front.length : Int) + 1 := by simp
  rw [graphStep_live found here.1, execStmts, length]
  cases decoded : decode s.code with
  | none => rfl
  | some op =>
    have plain := here.effect decoded p m
    cases effect : op.effect s.k p m with
    | stop result => simp only [effect]
    | branch taken => exact absurd effect (plain.1 taken)
    | jump => exact absurd effect plain.2
    | next m' => simp only [effect, execStmts]

theorem execStmts_cons (p : Packet) (s : Stmt) (rest : List Stmt) (m : Machine) :
    execStmts p (s :: rest) m =
      match execStmts p [s] m with
      | .ok m => execStmts p rest m
      | .error result => .error result :=
  execStmts_append p [s] rest m

/-- Statements without jumps in the middle of a block. -/
theorem graphStep_segment (segment back : List Stmt) :
    (∀ s ∈ segment, s.Straight) → ∀ (front : List Stmt) (m : Machine),
      (h.get b).stmts = front ++ segment ++ back →
      match execStmts p segment m with
      | .ok last => (graphStep h p).Reaches ⟨b, front.length, m⟩ ⟨b, (front ++ segment).length, last⟩
      | .error result => (graphStep h p).Stops ⟨b, front.length, m⟩ result := by
  induction segment with
  | nil =>
    intro _ front m split
    rw [append_nil]
    exact .refl _
  | cons s rest ih =>
    intro straight front m split
    have found : (h.get b).stmts = front ++ s :: (rest ++ back) := by rw [split]; simp
    have step := graphStep_straight_stmt (p := p) found (straight s mem_cons_self) m
    have later := ih (fun s' mem => straight s' (mem_cons_of_mem s mem)) (front ++ [s])
    rw [execStmts_cons]
    cases one : execStmts p [s] m with
    | error result =>
      rw [one] at step
      exact Step.stops_of_step step
    | ok m' =>
      rw [one] at step
      have continues := later m' (by rw [split]; simp)
      rw [append_assoc, singleton_append] at continues
      cases ran : execStmts p rest m' with
      | ok last =>
        simp only [ran] at continues ⊢
        exact .head step continues
      | error result =>
        simp only [ran] at continues ⊢
        exact continues.of_reaches (.single step)

/-- The statements of a block without jumps. -/
theorem graphStep_straight (straight : ∀ s ∈ (h.get b).stmts, s.Straight) (m : Machine) :
    match execStmts p (h.get b).stmts m with
    | .ok last => (graphStep h p).Reaches ⟨b, 0, m⟩ ⟨b, (h.get b).stmts.length, last⟩
    | .error result => (graphStep h p).Stops ⟨b, 0, m⟩ result :=
  graphStep_segment _ [] straight [] m (by simp)

/-- A block-local test. -/
theorem graphStep_testStmt {cond : JmpOp} {src : Src} (found : (h.get b).stmts[i]? = some s)
    (decoded : decode s.code = some (.jmp cond src)) {distance : Int}
    (target : (if cond.eval m.A (src.value s.k m) then s.jt else s.jf) = some distance) :
    graphStep h p ⟨b, i, m⟩ = .go ⟨b, i + 1 + distance, m⟩ := by
  have alive : s.code ≠ nop := by
    intro dead
    rw [dead] at decoded
    cases decoded
  simp only [graphStep_live found alive, decoded, Op.effect, target]

/-- A block-local unconditional jump. -/
theorem graphStep_jumpStmt (found : (h.get b).stmts[i]? = some s)
    (decoded : decode s.code = some .ja) (m : Machine) :
    graphStep h p ⟨b, i, m⟩ = .go ⟨b, i + 1 + s.k.toInt, m⟩ := by
  have alive : s.code ≠ nop := by
    intro dead
    rw [dead] at decoded
    cases decoded
  simp only [graphStep_live found alive, decoded, Op.effect]

/-! ## Tests -/

/-- The test that a block makes. -/
def leafTest (p : Packet) (l : Leaf) : Test Machine Result := fun m =>
  match execStmts p l.stmts m with
  | .error result => .error result
  | .ok m =>
    match decode l.code with
    | some (.jmp cond src) => .ok (cond.eval m.A (src.value l.k m), m)
    | _ => .error (.undefined .pcRange)

/-- A test without block-local jumps. -/
structure Leaf.Straight (l : Leaf) : Prop where
  stmts : ∀ s ∈ l.stmts, s.Straight
  branch : ∃ cond src, decode l.code = some (.jmp cond src)

/-- The branch of a block. -/
theorem graphStep_branch {cond : JmpOp} {src : Src}
    (decoded : decode (h.get b).s.code = some (.jmp cond src)) (m : Machine) :
    graphStep h p ⟨b, (h.get b).stmts.length, m⟩ =
      match h.exit b (cond.eval m.A (src.value (h.get b).s.k m)) with
      | some target => .go ⟨target, 0, m⟩
      | none => .stop (.undefined .pcRange) := by
  rw [graphStep_end, decoded]
  rfl

/-- Executing a block makes its test. -/
theorem graphStep_test (straight : (h.leaf b).Straight) (m : Machine) :
    match leafTest p (h.leaf b) m with
    | .error result => (graphStep h p).Stops ⟨b, 0, m⟩ result
    | .ok (side, next) => ∀ target, h.exit b side = some target →
        (graphStep h p).Reaches ⟨b, 0, m⟩ ⟨target, 0, next⟩ := by
  obtain ⟨cond, src, decoded⟩ := straight.branch
  have runs := graphStep_straight (p := p) straight.stmts m
  simp only [leafTest, Heap.leaf] at decoded ⊢
  cases outcome : execStmts p (h.get b).stmts m with
  | error result =>
    simp only [outcome] at runs ⊢
    exact runs
  | ok last =>
    simp only [outcome, decoded] at runs ⊢
    intro target exit
    refine runs.trans (.single ?_)
    rw [graphStep_branch decoded, exit]

/-- What a block hands back from where its test leads to, it hands back to its
start. -/
theorem graphStep_backward {goal : Place → Prop}
    (stop : ∀ pos m result, graphStep h p ⟨b, pos, m⟩ = .stop result → goal ⟨b, pos, m⟩)
    (move : ∀ pos m next, graphStep h p ⟨b, pos, m⟩ = .go next → goal next → goal ⟨b, pos, m⟩)
    (straight : (h.leaf b).Straight) (after : ∀ side next, leafTest p (h.leaf b) m = .ok (side,
      next) → ∀ target, h.exit b side = some target → goal ⟨target, 0, next⟩) : goal ⟨b, 0, m⟩ := by
  obtain ⟨cond, src, decoded⟩ := straight.branch
  have decoded' : decode (h.get b).s.code = some (.jmp cond src) := decoded
  have fromPos : ∀ (rest front : List Stmt) (m : Machine), (h.get b).stmts = front ++ rest →
      (∀ last, execStmts p rest m = .ok last → goal ⟨b, (h.get b).stmts.length, last⟩) →
      goal ⟨b, front.length, m⟩ := by
    intro rest
    induction rest with
    | nil =>
      intro front m split finish
      have last := finish m rfl
      rwa [split, append_nil] at last
    | cons s rest ih =>
      intro front m split finish
      have here : s.Straight := straight.stmts s (by simp only [Heap.leaf, split]; simp)
      have step := graphStep_straight_stmt (p := p) split here m
      cases one : execStmts p [s] m with
      | error result =>
        rw [one] at step
        exact stop _ _ _ step
      | ok m' =>
        rw [one] at step
        refine move _ _ _ step (ih (front ++ [s]) m' (by rw [split]; simp) ?_)
        intro last ran
        exact finish last (by rw [execStmts_cons, one]; exact ran)
  refine fromPos (h.get b).stmts [] m rfl ?_
  intro last ran
  have branch := graphStep_branch (p := p) decoded' last
  have test : leafTest p (h.leaf b) m =
      .ok (cond.eval last.A (src.value (h.get b).s.k last), last) := by
    simp only [leafTest, Heap.leaf, ran, decoded']
  cases exit : h.exit b (cond.eval last.A (src.value (h.get b).s.k last)) with
  | none =>
    rw [exit] at branch
    exact stop _ _ _ branch
  | some target =>
    rw [exit] at branch
    exact move _ _ _ branch (after _ _ test target exit)

/-- The machine evaluates the tests of a graph whose blocks have no block-local
jumps. -/
theorem graphStep_follows {ids : Cond BlockId} (straight : ∀ a ∈ ids.leaves, (h.leaf a).Straight) :
    Cond.Follows (graphStep h p) (fun b m => ⟨b, 0, m⟩) (fun b => leafTest p (h.leaf b))
      (fun a side d => h.exit a side = some d) ids := by
  constructor
  · intro a mem m result stopped
    have runs := graphStep_test (p := p) (straight a mem) m
    rw [stopped] at runs
    exact runs
  · intro a mem m side next ran target leads
    have runs := graphStep_test (p := p) (straight a mem) m
    rw [ran] at runs
    exact runs target leads

/-- Resolving the exits of an emitted formula: the machine evaluates the formula
and comes to the first or the second of the two blocks. -/
theorem Emitted.runs {h' h'' : Heap} {c : Formula} {ids : Cond BlockId} {accept reject : BlockId}
    {snaplen : Word} (emitted : Emitted h h' c ids b) (straight : ∀ l ∈ c.leaves, l.Straight)
    (resolved : h'.resolve b snaplen = some (h'', accept, reject)) (p : Packet) (m : Machine) :
    match c.eval (leafTest p) m with
    | .error result => (graphStep h'' p).Stops ⟨(h''.get b).head, 0, m⟩ result
    | .ok (value, next) =>
      (graphStep h'' p).Reaches ⟨(h''.get b).head, 0, m⟩
        ⟨if value then accept else reject, 0, next⟩ := by
  obtain ⟨pend, built⟩ := emitted.built
  obtain ⟨other, accept', reject', again, done⟩ := built.resolve snaplen
  rw [resolved] at again
  cases again
  have same : ∀ a ∈ ids.leaves, h''.leaf a = h'.leaf a := by
    intro a mem
    simp [Heap.leaf, done.s a (built.bound a mem), done.stmts a (built.bound a mem)]
  have shape : ids.map h''.leaf = c := by
    rw [← emitted.shape]
    exact Cond.map_congr same
  have straight' : ∀ a ∈ ids.leaves, (h''.leaf a).Straight := by
    intro a mem
    apply straight
    rw [← shape, Cond.leaves_map]
    exact mem_map_of_mem mem
  have follows := done.finished.wired.follows (graphStep_follows (p := p) straight') m
  rw [← shape, Cond.eval_map, done.finished.root_eq]
  cases outcome : ids.eval (fun b => leafTest p (h''.leaf b)) m with
  | error result | ok answer => simpa only [outcome] using follows

end Libpcap.Gencode
