/-
# Arithmetic expressions and relations

The functions that compile arithmetic. The value of every subexpression is stored
in a scratch register; the code of an expression is a list of statements that
ends with that store. An access to a header also yields a condition, that the
packet contains the protocol, which has to be tested before the code is executed.

`genExpr` and `genRelOp` make the calls that the parser makes while it reduces an
expression.
-/

import Libpcap.Gencode.Proto

namespace Libpcap.Gencode

open Libpcap.Bpf Libpcap.Semantics List

variable {a inst : Arth} {g g' : Gen} {s : List Stmt} {proto : Proto}

/-! ## Code for expressions -/

/-- `struct arth`: the protocol checks, the code, and the register of the value. -/
structure Arth where
  b : Option Formula
  s : List Stmt
  regno : Reg

def xferToX (a : Arth) : Stmt := newStmt (bpfLdx ||| bpfMem) a.regno.word

def xferToA (a : Arth) : Stmt := newStmt (bpfLd ||| bpfMem) a.regno.word

/-- `gen_and(b0, b1)` when there is a `b0`. -/
def andIf : Option Formula → Formula → Formula
  | some b0, b1 => .and b0 b1
  | none, b1 => b1

/-- The protocols whose header is the network-layer header. -/
def Proto.isNetwork (proto : Proto) : Bool :=
  proto ∈ [.ip, .arp, .rarp, .atalk, .decnet, .sca, .lat, .moprc, .mopdl, .ipv6]

/-- The protocols whose header follows an IPv4 header. -/
def Proto.isTransport (proto : Proto) : Bool :=
  proto ∈ [.sctp, .tcp, .udp, .icmp, .igmp, .igrp, .pim, .vrrp, .carp]

theorem Proto.not_network_of_transport (transport : proto.isTransport = true) :
    proto.isNetwork = false := by
  cases proto <;> first | rfl | cases transport

theorem Proto.not_transport_of_network (network : proto.isNetwork = true) :
    proto.isTransport = false := by
  cases proto <;> first | rfl | cases network

/-- Move the index, plus the offset in `X` that the given statements load, to `X`. -/
def indexFrom (s : List Stmt) (inst : Arth) : List Stmt :=
  if s.isEmpty then [xferToX inst]
  else s ++ [xferToA inst, newStmt (bpfAlu ||| bpfAdd ||| bpfX) 0, newStmt (bpfMisc ||| bpfTax) 0]

/-- The `switch` on the protocol in `gen_load`: the code behind the index, and
the protocol checks. -/
def genLoadFrom (proto : Proto) (inst : Arth) (size : Size) :
    GenM (List Stmt × Option Formula) := do
  let l ← layout
  if proto = .radio then
    if l.linktype ≠ dltIeee80211RadioAvs ∧ l.linktype ≠ dltIeee80211Radio ∧
        l.linktype ≠ dltPrismHeader then
      bpfError "radio information not present in capture"
    else return ([xferToX inst, newStmt (bpfLd ||| bpfInd ||| size.code) 0], inst.b)
  else if proto = .link then do
    let s ← genLlprefixlen
    return (indexFrom s inst ++ [newStmt (bpfLd ||| bpfInd ||| size.code) l.offLl], inst.b)
  else if proto.isNetwork then do
    let s ← genOffMacpl
    let b ← genProtoAbbrev proto
    return (indexFrom s inst ++
      [newStmt (bpfLd ||| bpfInd ||| size.code) (l.offMacpl + l.offNl)], some (andIf inst.b b))
  else if proto.isTransport then do
    let s ← genLoadxIphdrlen
    let b0 ← genProtoAbbrev proto
    let b ← genIpfrag
    let ip ← genProtoAbbrev .ip
    return (indexFrom s inst ++
      [newStmt (bpfLd ||| bpfInd ||| size.code) (l.offMacpl + l.offNl)],
      some (.and ip (andIf inst.b (.and b0 b))))
  else if proto = .icmpv6 then
    bpfError "IPv6 upper-layer protocol is not supported by proto[x]"
  else bpfError "unsupported index operation"

/-- The sizes a header field can have. -/
def fieldSize : Nat → Option Size
  | 1 => some .b
  | 2 => some .h
  | 4 => some .w
  | _ => none

def genLoad (proto : Proto) (inst : Arth) (size : Nat) : GenM Arth := do
  let regno ← allocReg
  freeReg inst.regno
  match fieldSize size with
  | none => bpfError "data size must be 1, 2, or 4"
  | some size => do
      let (s, b) ← genLoadFrom proto inst size
      return { b, s := inst.s ++ s ++ [newStmt bpfSt regno.word], regno }

def genLoadlen : GenM Arth := do
  let regno ← allocReg
  return { b := none, s := [newStmt (bpfLd ||| bpfLen) 0, newStmt bpfSt regno.word], regno }

def genLoadi (val : Word) : GenM Arth := do
  let reg ← allocReg
  return { b := none, s := [newStmt (bpfLd ||| bpfImm) val, newStmt bpfSt reg.word], regno := reg }

def genNeg (a : Arth) : Arth :=
  { a with s := a.s ++ [xferToA a, newStmt (bpfAlu ||| bpfNeg) 0, newStmt bpfSt a.regno.word] }

/-- `gen_arth`; the checks of the second operand are not used. -/
def genArth (code : AluOp) (a0 a1 : Arth) : GenM Arth := do
  freeReg a0.regno
  freeReg a1.regno
  let regno ← allocReg
  return { b := a0.b, regno, s := a0.s ++ a1.s ++ [xferToX a1, xferToA a0,
    newStmt (bpfAlu ||| bpfX ||| code.code) 0, newStmt bpfSt regno.word] }

/-- The statements and the branch of a relation. -/
def relationLeaf (code : JmpOp) (a0 a1 : Arth) : Leaf :=
  let s := a0.s ++ a1.s ++ [xferToX a1, xferToA a0]
  if code = .jeq then ⟨s ++ [newStmt (bpfAlu ||| bpfSub ||| bpfX) 0], jmp code.code, 0⟩
  else ⟨s, bpfJmp ||| code.code ||| bpfX, 0⟩

/-- The protocol checks of both sides of a relation. -/
def relationChecks (a0 a1 : Arth) : Option Formula :=
  match a0.b with
  | some b0 =>
    match a1.b with
    | some b1 => some (.and b0 b1)
    | none => some b0
  | none => a1.b

def genRelation (code : JmpOp) (a0 a1 : Arth) (reversed : Bool) : GenM Formula := do
  let b : Formula := .leaf (relationLeaf code a0 a1)
  freeReg a0.regno
  freeReg a1.regno
  return andIf (relationChecks a0 a1) (if reversed then .not b else b)

/-! ## The calls of the parser -/

/-- `arth` of the grammar -/
inductive Expr
  | num (val : Word)
  | len
  | load (proto : Proto) (index : Expr) (size : Nat)
  | neg (inner : Expr)
  | arith (fn : AluOp) (left right : Expr)
  deriving DecidableEq, Repr

/-- `relop` and `irelop` of the grammar -/
inductive RelOp
  | gt
  | ge
  | eq
  | le
  | lt
  | ne
  deriving DecidableEq, Repr

/-- The branch of a relation. -/
def RelOp.code : RelOp → JmpOp
  | .gt => .jgt
  | .ge => .jge
  | .eq => .jeq
  | .le => .jgt
  | .lt => .jge
  | .ne => .jeq

/-- The relation holds when the branch is not taken. -/
def RelOp.reversed : RelOp → Bool
  | .gt => false
  | .ge => false
  | .eq => false
  | .le => true
  | .lt => true
  | .ne => true

/-- The calls for an expression. -/
def genExpr : Expr → GenM Arth
  | .num val => genLoadi val
  | .len => genLoadlen
  | .load proto index size => do
      let inst ← genExpr index
      genLoad proto inst size
  | .neg inner => do
      let a ← genExpr inner
      return genNeg a
  | .arith fn left right => do
      let a0 ← genExpr left
      let a1 ← genExpr right
      genArth fn a0 a1

/-- The calls for a relation. -/
def genRelOp (rel : RelOp) (left right : Expr) : GenM Formula := do
  let a0 ← genExpr left
  let a1 ← genExpr right
  genRelation rel.code a0 a1 rel.reversed

/-! ## Statements without stores -/

@[simp]
theorem decode_ldMem : decode (bpfLd ||| bpfMem) = some .ldMem := by decide

@[simp]
theorem decode_ldLen : decode (bpfLd ||| bpfLen) = some .ldLen := by decide

@[simp]
theorem decode_st : decode bpfSt = some .st := by decide

@[simp]
theorem decode_neg : decode (bpfAlu ||| bpfNeg) = some .neg := by decide

@[simp]
theorem decode_aluX (fn : AluOp) : decode (bpfAlu ||| bpfX ||| fn.code) = some (.alu fn .x) := by
  cases fn <;> decide

@[simp]
theorem decode_subX : decode (bpfAlu ||| bpfSub ||| bpfX) = some (.alu .sub .x) := by decide

/-- A statement that is neither a jump nor a store. -/
def Stmt.Quiet (s : Stmt) : Prop :=
  ∃ op, decode s.code = some op ∧ goesOn op = true ∧ op ≠ .st ∧ op ≠ .stx

theorem Stmt.Quiet.straight {s : Stmt} (quiet : s.Quiet) : s.Straight := by
  obtain ⟨op, decoded, plain, _⟩ := quiet
  exact Stmt.straight_of_decode decoded plain

theorem Stmt.Quiet.stores {s : Stmt} (quiet : s.Quiet) : s.stores = none := by
  obtain ⟨op, decoded, _, notSt, notStx⟩ := quiet
  rw [Stmt.stores, decoded]
  cases op with
  | st => exact absurd rfl notSt
  | stx => exact absurd rfl notStx
  | _ => rfl

theorem stores_st (r : Reg) : (newStmt bpfSt r.word).stores = some r := by
  simp [Stmt.stores, newStmt]

theorem straight_st (r : Reg) : (newStmt bpfSt r.word).Straight :=
  Stmt.straight_of_decode decode_st rfl

theorem quiet_xferToX (a : Arth) : (xferToX a).Quiet := ⟨.ldxMem, decode_ldxMem, by decide⟩

theorem quiet_xferToA (a : Arth) : (xferToA a).Quiet := ⟨.ldMem, decode_ldMem, by decide⟩

theorem quiet_ldInd (size : Size) (k : Word) : (newStmt (bpfLd ||| bpfInd ||| size.code) k).Quiet :=
  ⟨.ldInd size, decode_ldInd size, rfl, nofun, nofun⟩

theorem quiet_aluX (fn : AluOp) : (newStmt (bpfAlu ||| bpfX ||| fn.code) 0).Quiet :=
  ⟨.alu fn .x, decode_aluX fn, rfl, nofun, nofun⟩

theorem LoadsOffset.quiet (loads : LoadsOffset s) : ∀ st ∈ s, st.Quiet := by
  rcases loads with rfl | ⟨r, rfl⟩
  · nofun
  · intro st mem
    rw [mem_singleton.mp mem]
    exact ⟨.ldxMem, decode_ldxMem, by decide⟩

theorem LoadsIphdrlen.quiet (loads : LoadsIphdrlen s) : ∀ st ∈ s, st.Quiet := by
  rcases loads with ⟨k, rfl⟩ | ⟨r, k, rfl⟩
  · intro st mem
    rw [mem_singleton.mp mem]
    exact ⟨.ldxMsh, decode_ldxMsh, by decide⟩
  · have ops : ∀ st ∈ loadOffset r ++ [newStmt (bpfLd ||| bpfInd ||| bpfB) k,
        newStmt (bpfAlu ||| bpfAnd ||| bpfK) 0xf, newStmt (bpfAlu ||| bpfLsh ||| bpfK) 2,
        newStmt (bpfAlu ||| bpfAdd ||| bpfX) 0, newStmt (bpfMisc ||| bpfTax) 0],
        decode st.code ∈ [some .ldxMem, some (.ldInd .b), some (.alu .and .k),
          some (.alu .lsh .k), some (.alu .add .x), some .tax] := by
      simp [loadOffset, newStmt]
    intro st mem
    have found := ops st mem
    simp only [mem_cons, not_mem_nil, or_false] at found
    rcases found with found | found | found | found | found | found <;>
      exact ⟨_, found, by decide⟩

theorem quiet_indexFrom (quiet : ∀ st ∈ s, st.Quiet) (inst : Arth) :
    ∀ st ∈ indexFrom s inst, st.Quiet := by
  intro st mem
  rw [indexFrom] at mem
  split at mem
  · rw [mem_singleton.mp mem]
    exact quiet_xferToX inst
  · rcases mem_append.mp mem with inFront | inBack
    · exact quiet st inFront
    · simp only [mem_cons, not_mem_nil, or_false] at inBack
      rcases inBack with rfl | rfl | rfl
      · exact quiet_xferToA inst
      · exact ⟨.alu .add .x, decode_aluAddX, by decide⟩
      · exact ⟨.tax, decode_tax, by decide⟩

theorem quiet_indexFrom_ldInd (quiet : ∀ st ∈ s, st.Quiet) (inst : Arth) (size : Size) (k : Word) :
    ∀ st ∈ indexFrom s inst ++ [newStmt (bpfLd ||| bpfInd ||| size.code) k], st.Quiet := by
  intro st mem
  rcases mem_append.mp mem with inFront | inBack
  · exact quiet_indexFrom quiet inst st inFront
  · rw [mem_singleton.mp inBack]
    exact quiet_ldInd size k

theorem generates_genLoadFrom (proto : Proto) (inst : Arth) (size : Size) :
    Generates (genLoadFrom proto inst size) (fun loaded => ∀ st ∈ loaded.1, st.Quiet) := by
  apply generates_layout_bind
  intro l
  refine generates_ite (fun _ => generates_ite (fun _ => generates_bpfError) fun _ => ?radio)
    fun _ => generates_ite (fun _ => ?link) fun _ => generates_ite (fun _ => ?network)
    fun _ => generates_ite (fun _ => ?transport)
    fun _ => generates_ite (fun _ => generates_bpfError) fun _ => generates_bpfError
  case radio =>
    have direct : ∀ st ∈ [xferToX inst, newStmt (bpfLd ||| bpfInd ||| size.code) 0], st.Quiet :=
      quiet_indexFrom_ldInd (s := []) (forall_mem_nil _) inst size 0
    exact generates_pure direct
  case link =>
    refine generates_genLlprefixlen.bind fun s loads => ?_
    exact generates_pure (quiet_indexFrom_ldInd loads.quiet inst size _)
  case network =>
    refine generates_genOffMacpl.bind fun s loads => ?_
    refine (generates_genProtoAbbrev proto).bind fun b _ => ?_
    exact generates_pure (quiet_indexFrom_ldInd loads.quiet inst size _)
  case transport =>
    refine generates_genLoadxIphdrlen.bind fun s loads => ?_
    refine (generates_genProtoAbbrev proto).bind fun b0 _ => ?_
    refine generates_genIpfrag.bind fun b _ => ?_
    refine (generates_genProtoAbbrev .ip).bind fun ip _ => ?_
    exact generates_pure (quiet_indexFrom_ldInd loads.quiet inst size _)

/-! ## Registers of expressions -/

theorem runs_genLoad_iff {size : Nat} :
    Runs (genLoad proto inst size) g a g' ↔ ∃ regno width loaded,
      g.nextReg = some regno ∧ fieldSize size = some width ∧
      Runs (genLoadFrom proto inst width) ((g.withAlloc regno).withFree inst.regno) loaded g' ∧
      a = ⟨loaded.2, inst.s ++ loaded.1 ++ [newStmt bpfSt regno.word], regno⟩ := by
  simp only [genLoad, runs_bind_iff, runs_allocReg_iff, runs_freeReg_iff]
  constructor
  · rintro ⟨regno, _, ⟨found, rfl⟩, _, _, rfl, ran⟩
    cases sized : fieldSize size with
    | none =>
      simp only [sized] at ran
      exact absurd ran not_runs_throw
    | some width =>
      simp only [sized, runs_bind_iff, runs_pure_iff] at ran
      obtain ⟨loaded, _, ran, rfl, rfl⟩ := ran
      exact ⟨regno, width, loaded, found, rfl, ran, rfl⟩
  · rintro ⟨regno, width, loaded, found, sized, ran, rfl⟩
    refine ⟨regno, _, ⟨found, rfl⟩, ⟨⟩, _, rfl, ?_⟩
    simp only [sized]
    exact .bind ran (runs_pure_iff.mpr ⟨rfl, rfl⟩)

/-- The four kinds of access. -/
theorem runs_genLoadFrom_cases {size : Size} {loaded : List Stmt × Option Formula}
    (ran : Runs (genLoadFrom proto inst size) g loaded g') :
    (proto = .radio ∧ g' = g ∧
      loaded = ([xferToX inst, newStmt (bpfLd ||| bpfInd ||| size.code) 0], inst.b)) ∨
    (proto = .link ∧ ∃ s, Runs genLlprefixlen g s g' ∧
      loaded = (indexFrom s inst ++ [newStmt (bpfLd ||| bpfInd ||| size.code) g.layout.offLl],
        inst.b)) ∨
    (proto.isNetwork = true ∧ ∃ s g₁ b, Runs genOffMacpl g s g₁ ∧
      Runs (genProtoAbbrev proto) g₁ b g' ∧
      loaded = (indexFrom s inst ++ [newStmt (bpfLd ||| bpfInd ||| size.code)
        (g.layout.offMacpl + g.layout.offNl)], some (andIf inst.b b))) ∨
    (proto.isTransport = true ∧ ∃ s g₁ b0 g₂ b g₃ ip, Runs genLoadxIphdrlen g s g₁ ∧
      Runs (genProtoAbbrev proto) g₁ b0 g₂ ∧ Runs genIpfrag g₂ b g₃ ∧
      Runs (genProtoAbbrev .ip) g₃ ip g' ∧
      loaded = (indexFrom s inst ++ [newStmt (bpfLd ||| bpfInd ||| size.code)
        (g.layout.offMacpl + g.layout.offNl)], some (.and ip (andIf inst.b (.and b0 b))))) := by
  obtain ⟨l, _, here, ran⟩ := runs_bind_iff.mp ran
  cases here
  split_ifs at ran with radio absent link network transport icmp6
  · exact absurd ran not_runs_throw
  · obtain ⟨rfl, rfl⟩ := runs_pure_iff.mp ran
    exact .inl ⟨radio, rfl, rfl⟩
  · obtain ⟨s, _, ranS, done⟩ := runs_bind_iff.mp ran
    obtain ⟨rfl, rfl⟩ := runs_pure_iff.mp done
    exact .inr (.inl ⟨link, s, ranS, rfl⟩)
  · obtain ⟨s, g₁, ranS, ran⟩ := runs_bind_iff.mp ran
    obtain ⟨b, _, ranB, done⟩ := runs_bind_iff.mp ran
    obtain ⟨rfl, rfl⟩ := runs_pure_iff.mp done
    exact .inr (.inr (.inl ⟨network, s, g₁, b, ranS, ranB, rfl⟩))
  · obtain ⟨s, g₁, ranS, ran⟩ := runs_bind_iff.mp ran
    obtain ⟨b0, g₂, ranB0, ran⟩ := runs_bind_iff.mp ran
    obtain ⟨b, g₃, ranB, ran⟩ := runs_bind_iff.mp ran
    obtain ⟨ip, _, ranIp, done⟩ := runs_bind_iff.mp ran
    obtain ⟨rfl, rfl⟩ := runs_pure_iff.mp done
    exact .inr (.inr (.inr ⟨transport, s, g₁, b0, g₂, b, g₃, ip, ranS, ranB0, ranB, ranIp, rfl⟩))
  · exact absurd ran not_runs_throw
  · exact absurd ran not_runs_throw

theorem runs_genLoadi_iff {val : Word} :
    Runs (genLoadi val) g a g' ↔ ∃ regno, g.nextReg = some regno ∧ g' = g.withAlloc regno ∧
      a = ⟨none, [newStmt (bpfLd ||| bpfImm) val, newStmt bpfSt regno.word], regno⟩ := by
  simp only [genLoadi, runs_bind_iff, runs_allocReg_iff, runs_pure_iff]
  constructor
  · rintro ⟨regno, _, ⟨found, rfl⟩, rfl, rfl⟩
    exact ⟨regno, found, rfl, rfl⟩
  · rintro ⟨regno, found, rfl, rfl⟩
    exact ⟨regno, _, ⟨found, rfl⟩, rfl, rfl⟩

theorem runs_genLoadlen_iff :
    Runs genLoadlen g a g' ↔ ∃ regno, g.nextReg = some regno ∧ g' = g.withAlloc regno ∧
      a = ⟨none, [newStmt (bpfLd ||| bpfLen) 0, newStmt bpfSt regno.word], regno⟩ := by
  simp only [genLoadlen, runs_bind_iff, runs_allocReg_iff, runs_pure_iff]
  constructor
  · rintro ⟨regno, _, ⟨found, rfl⟩, rfl, rfl⟩
    exact ⟨regno, found, rfl, rfl⟩
  · rintro ⟨regno, found, rfl, rfl⟩
    exact ⟨regno, _, ⟨found, rfl⟩, rfl, rfl⟩

theorem runs_genArth_iff {fn : AluOp} {a0 a1 : Arth} :
    Runs (genArth fn a0 a1) g a g' ↔ ∃ regno,
      ((g.withFree a0.regno).withFree a1.regno).nextReg = some regno ∧
      g' = ((g.withFree a0.regno).withFree a1.regno).withAlloc regno ∧
      a = ⟨a0.b, a0.s ++ a1.s ++ [xferToX a1, xferToA a0,
        newStmt (bpfAlu ||| bpfX ||| fn.code) 0, newStmt bpfSt regno.word], regno⟩ := by
  simp only [genArth, runs_bind_iff, runs_allocReg_iff, runs_freeReg_iff, runs_pure_iff]
  constructor
  · rintro ⟨_, _, rfl, _, _, rfl, regno, _, ⟨found, rfl⟩, rfl, rfl⟩
    exact ⟨regno, found, rfl, rfl⟩
  · rintro ⟨regno, found, rfl, rfl⟩
    exact ⟨⟨⟩, _, rfl, ⟨⟩, _, rfl, regno, _, ⟨found, rfl⟩, rfl, rfl⟩

/-- What compiling an expression does to the registers: its value is in a register
that was free, only registers that were free are stored to, and registers in use
stay in use. -/
structure ExprRegs (g g' : Gen) (a : Arth) : Prop where
  heap : g'.heap = g.heap
  agrees : Agrees g g'
  keeps : ∀ r, g.regused r = true → g'.regused r = true
  free : g.regused a.regno = false
  used : g'.regused a.regno = true
  straight : ∀ s ∈ a.s, s.Straight
  stores : ∀ s ∈ a.s, ∀ r, s.stores = some r → g.regused r = false

theorem ExprRegs.ne (regs : ExprRegs g g' a) {r : Reg} (used : g.regused r = true) :
    r ≠ a.regno := by
  rintro rfl
  rw [regs.free] at used
  cases used

/-- A register that is free after an expression was free before it. -/
theorem ExprRegs.free_before (regs : ExprRegs g g' a) {r : Reg} (free : g'.regused r = false) :
    g.regused r = false := by
  cases used : g.regused r with
  | false => rfl
  | true =>
    rw [regs.keeps r used] at free
    cases free

theorem ExprRegs.of_alloc {regno : Reg} {b : Option Formula} {first : Stmt}
    (found : g.nextReg = some regno) (quiet : first.Quiet) :
    ExprRegs g (g.withAlloc regno) ⟨b, [first, newStmt bpfSt regno.word], regno⟩ where
  heap := rfl
  agrees := g.withAlloc_agrees regno
  keeps := fun _ used => Gen.withAlloc_keeps regno used
  free := Gen.nextReg_free found
  used := g.withAlloc_used regno
  straight := by
    simp only [mem_cons, not_mem_nil, or_false, forall_eq_or_imp, forall_eq]
    exact ⟨quiet.straight, straight_st regno⟩
  stores := by
    simp only [mem_cons, not_mem_nil, or_false, forall_eq_or_imp, forall_eq,
      quiet.stores, stores_st, Option.some.injEq]
    refine ⟨nofun, ?_⟩
    rintro r rfl
    exact Gen.nextReg_free found

theorem ExprRegs.load {size : Nat} {g'' : Gen} (index : ExprRegs g g' inst)
    (ran : Runs (genLoad proto inst size) g' a g'') :
    ExprRegs g g'' a := by
  obtain ⟨regno, width, loaded, found, _, loads, rfl⟩ := runs_genLoad_iff.mp ran
  obtain ⟨quiet, assigns, _⟩ := generates_genLoadFrom proto inst width _ _ _ loads
  have freeThen : g'.regused regno = false := Gen.nextReg_free found
  have different : regno ≠ inst.regno := by
    rintro rfl
    rw [index.used] at freeThen
    cases freeThen
  have free : g.regused regno = false := index.free_before freeThen
  constructor
  · exact assigns.heap.trans index.heap
  · exact (index.agrees.trans (g'.withAlloc_agrees regno)).trans
      ((Gen.withFree_agrees _ inst.regno).trans assigns.agrees)
  · intro r used
    exact assigns.keeps (Gen.withFree_keeps (index.ne used)
      (Gen.withAlloc_keeps regno (index.keeps r used)))
  · exact free
  · exact assigns.keeps (Gen.withFree_keeps different (g'.withAlloc_used regno))
  · simp only [mem_append, mem_singleton, or_imp, forall_and, forall_eq]
    exact ⟨⟨index.straight, fun s mem => (quiet s mem).straight⟩, straight_st regno⟩
  · simp only [mem_append, mem_singleton, or_imp, forall_and, forall_eq]
    refine ⟨⟨index.stores, ?_⟩, ?_⟩
    · intro s mem r stored
      rw [(quiet s mem).stores] at stored
      cases stored
    · intro r stored
      rw [stores_st] at stored
      cases stored
      exact free

theorem ExprRegs.arith {fn : AluOp} {a0 a1 : Arth} {g0 g1 : Gen} (left : ExprRegs g g0 a0)
    (right : ExprRegs g0 g1 a1) (ran : Runs (genArth fn a0 a1) g1 a g') : ExprRegs g g' a := by
  obtain ⟨regno, found, rfl, rfl⟩ := runs_genArth_iff.mp ran
  have free : g.regused regno = false := by
    have freeNow := Gen.nextReg_free found
    by_cases isRight : regno = a1.regno
    · rw [isRight]
      exact left.free_before right.free
    by_cases isLeft : regno = a0.regno
    · rw [isLeft]
      exact left.free
    · simp only [Gen.withFree, Function.update_of_ne isRight, Function.update_of_ne isLeft]
        at freeNow
      exact left.free_before (right.free_before freeNow)
  constructor
  · exact right.heap.trans left.heap
  · exact (left.agrees.trans right.agrees).trans ((g1.withFree_agrees a0.regno).trans
      ((Gen.withFree_agrees _ a1.regno).trans (Gen.withAlloc_agrees _ regno)))
  · intro r used
    have used0 := left.keeps r used
    exact Gen.withAlloc_keeps regno (Gen.withFree_keeps (right.ne used0)
      (Gen.withFree_keeps (left.ne used) (right.keeps r used0)))
  · exact free
  · exact Gen.withAlloc_used _ regno
  · simp only [mem_append, mem_cons, not_mem_nil, or_false, or_imp, forall_and, forall_eq]
    exact ⟨⟨left.straight, right.straight⟩, (quiet_xferToX a1).straight,
      (quiet_xferToA a0).straight, (quiet_aluX fn).straight, straight_st regno⟩
  · simp only [mem_append, mem_cons, not_mem_nil, or_false, or_imp, forall_and,
      forall_eq, (quiet_xferToX a1).stores, (quiet_xferToA a0).stores, (quiet_aluX fn).stores,
      stores_st]
    refine ⟨⟨left.stores, ?_⟩, by simp, by simp, by simp, ?_⟩
    · intro s mem r stored
      exact left.free_before (right.stores s mem r stored)
    · rintro r ⟨⟩
      exact free

/-- The registers of every expression. -/
theorem genExpr_regs (e : Expr) (ran : Runs (genExpr e) g a g') : ExprRegs g g' a := by
  induction e generalizing g g' a with
  | num val =>
    obtain ⟨regno, found, rfl, rfl⟩ := runs_genLoadi_iff.mp ran
    exact .of_alloc found ⟨.ldImm, decode_ldImm, by decide⟩
  | len =>
    obtain ⟨regno, found, rfl, rfl⟩ := runs_genLoadlen_iff.mp ran
    exact .of_alloc found ⟨.ldLen, decode_ldLen, by decide⟩
  | load proto index size ih =>
    obtain ⟨inst, g₁, ranIndex, ranLoad⟩ := runs_bind_iff.mp ran
    exact (ih ranIndex).load ranLoad
  | neg inner ih =>
    obtain ⟨a₁, g₁, ranInner, done⟩ := runs_bind_iff.mp ran
    obtain ⟨rfl, rfl⟩ := runs_pure_iff.mp done
    have regs := ih ranInner
    refine ⟨regs.heap, regs.agrees, regs.keeps, regs.free, regs.used, ?_, ?_⟩
    · simp only [genNeg, mem_append, mem_cons, not_mem_nil, or_false, or_imp, forall_and, forall_eq]
      exact ⟨regs.straight, (quiet_xferToA a₁).straight,
        Stmt.straight_of_decode decode_neg rfl, straight_st a₁.regno⟩
    · have negStores : (newStmt (bpfAlu ||| bpfNeg) 0).stores = none := by decide
      simp only [genNeg, mem_append, mem_cons, not_mem_nil, or_false, or_imp,
        forall_and, forall_eq, (quiet_xferToA a₁).stores, negStores, stores_st]
      refine ⟨regs.stores, nofun, nofun, ?_⟩
      rintro r ⟨⟩
      exact regs.free
  | arith fn left right ihLeft ihRight =>
    obtain ⟨a0, g0, ranLeft, rest⟩ := runs_bind_iff.mp ran
    obtain ⟨a1, g1, ranRight, ranArth⟩ := runs_bind_iff.mp rest
    exact (ihLeft ranLeft).arith (ihRight ranRight) ranArth

end Libpcap.Gencode
