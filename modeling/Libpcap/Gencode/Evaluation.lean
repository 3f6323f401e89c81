/-
# The value of an expression

What an arithmetic expression means: 32-bit unsigned arithmetic on numbers, the
length of the packet and fields of its headers. There is no value when a field is
not where the machine's load finds it, a divisor is 0 or a shift count is 32 or more.
A load finds a field that was captured and has an index below 2^31; from there on the
index is negative for the machine, and the load touches other bytes or none.

On a link type with fixed header offsets, the code of an expression that has a
value leaves it in the expression's register (`genExpr_value`).
-/

import Libpcap.Bpf.Field
import Libpcap.Gencode.Arth

namespace Libpcap.Gencode

open Libpcap.Bpf Libpcap.Semantics Function

variable {g g' : Gen} {p : Packet} {v : Word}

/-! ## Meaning -/

/-- Unsigned 32-bit arithmetic. -/
def arithValue (fn : AluOp) (a b : Word) : Option Word :=
  match fn with
  | .add => some (a + b)
  | .sub => some (a - b)
  | .mul => some (a * b)
  | .div => if b = 0 then none else some (a / b)
  | .or => some (a ||| b)
  | .and => some (a &&& b)
  | .lsh => if b.toNat < 32 then some (a <<< b.toNat) else none
  | .rsh => if b.toNat < 32 then some (a >>> b.toNat) else none

/-- Where a protocol's header starts, with fixed header offsets: a transport
header follows an IPv4 header, whose length in words is in its first byte. -/
def headerStart (l : Layout) (p : Packet) (proto : Proto) : Option Word :=
  if proto = .link then some l.offLl
  else if proto.isNetwork then some (l.offMacpl + l.offNl)
  else if proto.isTransport then do
    let first ← p.field .b (l.offMacpl + l.offNl)
    return l.offMacpl + l.offNl + 4 * (first &&& 0xf)
  else none

/-- The value of an expression on a packet. -/
def Expr.eval (l : Layout) (p : Packet) : Expr → Option Word
  | .num val => some val
  | .len => some p.wirelen
  | .load proto index size => do
      let i ← index.eval l p
      let start ← headerStart l p proto
      let width ← fieldSize size
      p.field width (start + i)
  | .neg inner => do
      let v ← inner.eval l p
      return -v
  | .arith fn left right => do
      let a ← left.eval l p
      let b ← right.eval l p
      arithValue fn a b

/-- A relation between unsigned numbers. -/
def RelOp.holds : RelOp → Word → Word → Bool
  | .gt, a, b => decide (a.toNat > b.toNat)
  | .ge, a, b => decide (a.toNat ≥ b.toNat)
  | .eq, a, b => decide (a = b)
  | .le, a, b => decide (a.toNat ≤ b.toNat)
  | .lt, a, b => decide (a.toNat < b.toNat)
  | .ne, a, b => decide (a ≠ b)

/-! ## Single statements -/

section Single

variable {p : Packet} (m : Machine)

theorem exec_cons {s : Stmt} {rest : List Stmt} {op : Op} {m m' : Machine}
    (decoded : decode s.code = some op) (effect : op.effect s.k p m = .next m') :
    execStmts p (s :: rest) m = execStmts p rest m' := by
  simp only [execStmts, decoded, effect]

section

variable (k : Word) (rest : List Stmt)

include k rest

theorem exec_ldImm :
    execStmts p (newStmt (bpfLd ||| bpfImm) k :: rest) m = execStmts p rest { m with A := k } :=
  exec_cons decode_ldImm rfl

theorem exec_ldLen :
    execStmts p (newStmt (bpfLd ||| bpfLen) k :: rest) m =
      execStmts p rest { m with A := p.wirelen } :=
  exec_cons decode_ldLen rfl

theorem exec_neg :
    execStmts p (newStmt (bpfAlu ||| bpfNeg) k :: rest) m =
      execStmts p rest { m with A := -m.A } :=
  exec_cons decode_neg rfl

theorem exec_tax :
    execStmts p (newStmt (bpfMisc ||| bpfTax) k :: rest) m =
      execStmts p rest { m with X := m.A } :=
  exec_cons decode_tax rfl

theorem exec_addX :
    execStmts p (newStmt (bpfAlu ||| bpfAdd ||| bpfX) k :: rest) m =
      execStmts p rest { m with A := m.A + m.X } :=
  exec_cons decode_aluAddX rfl

theorem exec_subX :
    execStmts p (newStmt (bpfAlu ||| bpfSub ||| bpfX) k :: rest) m =
      execStmts p rest { m with A := m.A - m.X } :=
  exec_cons decode_subX rfl

end

theorem exec_st (r : Reg) (rest : List Stmt) :
    execStmts p (newStmt bpfSt r.word :: rest) m =
      execStmts p rest { m with mem := update m.mem r m.A } := by
  refine exec_cons decode_st ?_
  simp [newStmt, Op.effect]

theorem exec_xferToX (a : Arth) (rest : List Stmt) :
    execStmts p (xferToX a :: rest) m = execStmts p rest { m with X := m.mem a.regno } := by
  refine exec_cons decode_ldxMem ?_
  simp [xferToX, newStmt, Op.effect]

theorem exec_xferToA (a : Arth) (rest : List Stmt) :
    execStmts p (xferToA a :: rest) m = execStmts p rest { m with A := m.mem a.regno } := by
  refine exec_cons decode_ldMem ?_
  simp [xferToA, newStmt, Op.effect]

theorem exec_aluX {fn : AluOp} (value : arithValue fn m.A m.X = some v) (k : Word)
    (rest : List Stmt) :
    execStmts p (newStmt (bpfAlu ||| bpfX ||| fn.code) k :: rest) m =
      execStmts p rest { m with A := v } := by
  refine exec_cons (decode_aluX fn) ?_
  simp only [Op.effect, AluOp.effect]
  cases fn with
  | div =>
    simp only [arithValue] at value
    split at value
    · cases value
    · rename_i nonzero
      cases value
      exact if_neg fun zero => nonzero zero.2
  | lsh | rsh =>
    simp only [arithValue] at value
    split at value
    · rename_i small
      cases value
      simp [AluOp.eval, Src.value, Nat.mod_eq_of_lt small]
    · cases value
  | _ =>
    cases value
    rfl

theorem exec_ldInd {size : Size} {k : Word} (found : p.field size (m.X + k) = some v)
    (rest : List Stmt) :
    execStmts p (newStmt (bpfLd ||| bpfInd ||| size.code) k :: rest) m =
      execStmts p rest { m with A := v } := by
  refine exec_cons (decode_ldInd size) ?_
  simp [newStmt, Op.effect, p.read_touched_of_field found, Effect.ofRead]

theorem exec_ldxMsh {k : Word} (found : p.field .b k = some v) (rest : List Stmt) :
    execStmts p (newStmt (bpfLdx ||| bpfMsh ||| bpfB) k :: rest) m =
      execStmts p rest { m with X := (v &&& 0xf) <<< 2 } := by
  refine exec_cons decode_ldxMsh ?_
  simp [newStmt, Op.effect, p.read_touchedMsh_of_field found, Effect.ofRead]

end Single

/-! ## Expressions -/

theorem four_mul_eq_shift (v : Word) : (4 : Word) * v = v <<< 2 := by
  rw [BitVec.shiftLeft_eq_mul_twoPow, BitVec.mul_comm]
  rfl

/-- The code for the length of the IPv4 header, with fixed header offsets. -/
theorem runs_genLoadxIphdrlen_fixed {s : List Stmt} (fixed : g.layout.Fixed)
    (ran : Runs genLoadxIphdrlen g s g') :
    s = [newStmt (bpfLdx ||| bpfMsh ||| bpfB) (g.layout.offMacpl + g.layout.offNl)] := by
  obtain ⟨none, _, nothing, rest⟩ := runs_bind_iff.mp ran
  rw [runs_genOffMacpl_iff, fixed.macpl] at nothing
  obtain ⟨rfl, rfl⟩ := nothing
  obtain ⟨l, _, here, done⟩ := runs_bind_iff.mp rest
  cases here
  obtain ⟨rfl, rfl⟩ := runs_pure_iff.mp done
  rfl

/-- With fixed header offsets, the code behind the index loads the field. -/
theorem genLoadFrom_value {proto : Proto} {inst : Arth} {width : Size}
    {loaded : List Stmt × Option Formula} (ran : Runs (genLoadFrom proto inst width) g loaded g')
    (fixed : g.layout.Fixed) {start : Word} {m : Machine}
    (starts : headerStart g.layout p proto = some start)
    (found : p.field width (start + m.mem inst.regno) = some v) :
    ∃ m', execStmts p loaded.1 m = .ok m' ∧ m'.A = v := by
  -- at the end, `X` holds the index plus what is not in the constant of the load
  have load : ∀ (x k : Word) (a : Word), x + k = start + m.mem inst.regno →
      execStmts p [newStmt (bpfLd ||| bpfInd ||| width.code) k] ⟨a, x, m.mem⟩ =
        .ok ⟨v, x, m.mem⟩ := by
    intro x k a address
    rw [exec_ldInd _ (by rw [address]; exact found)]
    rfl
  have direct : ∀ k, k = start →
      execStmts p (indexFrom [] inst ++ [newStmt (bpfLd ||| bpfInd ||| width.code) k]) m =
        .ok ⟨v, m.mem inst.regno, m.mem⟩ := by
    rintro k rfl
    simp only [indexFrom, List.isEmpty_nil, if_true, List.singleton_append]
    rw [exec_xferToX]
    exact load _ _ _ (BitVec.add_comm _ _)
  rcases runs_genLoadFrom_cases ran with ⟨rfl, _⟩ | ⟨rfl, s, ranS, rfl⟩ |
    ⟨network, s, g₁, b, ranS, _, rfl⟩ | ⟨transport, s, g₁, b0, g₂, b, g₃, ip, ranS, _, _, _, rfl⟩
  · cases starts
  · rw [runs_genLlprefixlen_iff, fixed.noRadioHeader] at ranS
    obtain ⟨rfl, rfl⟩ := ranS
    cases starts
    exact ⟨_, direct _ rfl, rfl⟩
  · rw [runs_genOffMacpl_iff, fixed.macpl] at ranS
    obtain ⟨rfl, rfl⟩ := ranS
    have notLink : proto ≠ .link := by
      rintro rfl
      cases network
    rw [headerStart, if_neg notLink, if_pos network] at starts
    cases starts
    exact ⟨_, direct _ rfl, rfl⟩
  · rw [runs_genLoadxIphdrlen_fixed fixed ranS]
    have notLink : proto ≠ .link := by
      rintro rfl
      cases transport
    rw [headerStart, if_neg notLink, Proto.not_network_of_transport transport, if_pos transport]
      at starts
    cases length : p.field .b (g.layout.offMacpl + g.layout.offNl) with
    | none =>
      rw [length] at starts
      cases starts
    | some first =>
      rw [length] at starts
      cases starts
      refine ⟨⟨v, m.mem inst.regno + (first &&& 0xf) <<< 2, m.mem⟩, ?_, rfl⟩
      simp only [indexFrom, List.isEmpty_cons, Bool.false_eq_true, if_false,
        List.cons_append, List.nil_append]
      rw [exec_ldxMsh _ length, exec_xferToA, exec_addX, exec_tax]
      have address : m.mem inst.regno + (first &&& 0xf) <<< 2 +
          (g.layout.offMacpl + g.layout.offNl) =
          g.layout.offMacpl + g.layout.offNl + 4 * (first &&& 0xf) + m.mem inst.regno := by
        rw [four_mul_eq_shift]
        ac_rfl
      exact load _ _ _ address

/-- The operands of a binary operation: the second does not disturb the register
of the first. -/
theorem exec_operands {g0 g1 : Gen} {a0 a1 : Arth} (left : ExprRegs g g0 a0)
    (right : ExprRegs g0 g1 a1) {m m0 m1 : Machine} (ranLeft : execStmts p a0.s m = .ok m0)
    (ranRight : execStmts p a1.s m0 = .ok m1) (rest : List Stmt) :
    execStmts p (a0.s ++ a1.s ++ xferToX a1 :: xferToA a0 :: rest) m =
      execStmts p rest ⟨m0.mem a0.regno, m1.mem a1.regno, m1.mem⟩ := by
  have kept : m1.mem a0.regno = m0.mem a0.regno := by
    apply execStmts_mem ranRight
    intro s member stored
    have free := right.stores s member _ stored
    rw [left.used] at free
    cases free
  rw [execStmts_append, execStmts_append]
  simp only [ranLeft, ranRight]
  rw [exec_xferToX, exec_xferToA, kept]

/-- With fixed header offsets, the code of an expression leaves its value in its
register. -/
theorem genExpr_value (e : Expr) {a : Arth} (ran : Runs (genExpr e) g a g') (fixed : g.layout.Fixed)
    (value : e.eval g.layout p = some v) (m : Machine) :
    ∃ m', execStmts p a.s m = .ok m' ∧ m'.mem a.regno = v := by
  induction e generalizing g g' a v m with
  | num val =>
    obtain ⟨regno, _, rfl, rfl⟩ := runs_genLoadi_iff.mp ran
    cases value
    refine ⟨_, by rw [exec_ldImm, exec_st]; rfl, ?_⟩
    exact update_self _ _ _
  | len =>
    obtain ⟨regno, _, rfl, rfl⟩ := runs_genLoadlen_iff.mp ran
    cases value
    refine ⟨_, by rw [exec_ldLen, exec_st]; rfl, ?_⟩
    exact update_self _ _ _
  | load proto index size ih =>
    obtain ⟨inst, g₁, ranIndex, ranLoad⟩ := runs_bind_iff.mp ran
    obtain ⟨regno, width, loaded, _, sized, loads, rfl⟩ := runs_genLoad_iff.mp ranLoad
    simp only [Expr.eval, Option.bind_eq_bind, Option.bind_eq_some_iff] at value
    obtain ⟨i, valueIndex, start, starts, width', sized', found⟩ := value
    rw [sized] at sized'
    cases sized'
    have same : g₁.layout = g.layout := (genExpr_regs index ranIndex).agrees.layout
    obtain ⟨m₁, ranIndex, atIndex⟩ := ih ranIndex fixed valueIndex m
    subst atIndex
    have layout : ((g₁.withAlloc regno).withFree inst.regno).layout = g.layout := same
    rw [← layout] at fixed starts
    obtain ⟨m₂, ranLoaded, atA⟩ := genLoadFrom_value loads fixed starts found
    refine ⟨{ m₂ with mem := update m₂.mem regno m₂.A }, ?_, ?_⟩
    · rw [execStmts_append, execStmts_append]
      simp only [ranIndex, ranLoaded]
      rw [exec_st]
      rfl
    · rw [← atA]
      exact update_self _ _ _
  | neg inner ih =>
    obtain ⟨a₁, g₁, ranInner, done⟩ := runs_bind_iff.mp ran
    obtain ⟨rfl, rfl⟩ := runs_pure_iff.mp done
    simp only [Expr.eval, Option.bind_eq_bind, Option.bind_eq_some_iff] at value
    obtain ⟨w, valueInner, negated⟩ := value
    cases negated
    obtain ⟨m₁, ranInner, atInner⟩ := ih ranInner fixed valueInner m
    refine ⟨{ m₁ with A := -w, mem := update m₁.mem a₁.regno (-w) }, ?_, ?_⟩
    · rw [genNeg, execStmts_append]
      simp only [ranInner]
      rw [exec_xferToA, exec_neg, exec_st, atInner]
      rfl
    · exact update_self _ _ _
  | arith fn left right ihLeft ihRight =>
    obtain ⟨a0, g0, ranLeft, rest⟩ := runs_bind_iff.mp ran
    obtain ⟨a1, g1, ranRight, ranArth⟩ := runs_bind_iff.mp rest
    obtain ⟨regno, _, rfl, rfl⟩ := runs_genArth_iff.mp ranArth
    have regsLeft := genExpr_regs left ranLeft
    have regsRight := genExpr_regs right ranRight
    simp only [Expr.eval, Option.bind_eq_bind, Option.bind_eq_some_iff] at value
    obtain ⟨v0, valueLeft, v1, valueRight, value⟩ := value
    obtain ⟨m0, ranLeft, rfl⟩ := ihLeft ranLeft fixed valueLeft m
    have layout : g0.layout = g.layout := regsLeft.agrees.layout
    rw [← layout] at fixed valueRight
    obtain ⟨m1, ranRight, rfl⟩ := ihRight ranRight fixed valueRight m0
    refine ⟨⟨v, m1.mem a1.regno, update m1.mem regno v⟩, ?_, ?_⟩
    · rw [exec_operands regsLeft regsRight ranLeft ranRight, exec_aluX _ value, exec_st]
      rfl
    · exact update_self _ _ _

end Libpcap.Gencode
