/-
# The `protochain` primitive

`gen_protochain` generates a loop: starting behind the IPv4 or IPv6 header, it skips
extension headers until it comes to the protocol asked for or to one it cannot skip.
The loop lies inside one block, with block-local jumps, the last of them backwards.

`Protochain.step` is one turn of the loop on the registers `A`, the protocol of the next
header, and `X`, its offset from the network-layer header. The block runs as this
machine does (`Protochain.stops_iff`). Behind an authentication header the new offset
is not added to the old one: the code stores it in `X` as it is.
-/

import Libpcap.Gencode.Evaluation

namespace Libpcap.Gencode

open Libpcap.Bpf Libpcap.Semantics List

/-! ## The generated block -/

/-- The network-layer protocols whose headers can be followed. -/
inductive Family
  | ipv4
  | ipv6
  deriving DecidableEq, Repr

def ipprotoHopopts : Word := 0
def ipprotoRouting : Word := 43
def ipprotoNone : Word := 59
def ipprotoDstopts : Word := 60

/-- A header chain that is looked for: the protocol `v`, and the offset
`off_macpl + off_nl` of the network-layer header. -/
structure Protochain where
  family : Family
  v : Word
  base : Word
  deriving DecidableEq, Repr

/-- A block-local test of `A`, with the distances to its targets. -/
def testA (k : Word) (jt jf : Int) : Stmt := { code := jmp bpfJeq, jt := some jt, jf := some jf, k }

namespace Protochain

/-- The loads in front of the loop: the first protocol and the length of the
network-layer header. -/
def startStmts (c : Protochain) : List Stmt :=
  match c.family with
  | .ipv4 =>
    [newStmt (bpfLd ||| bpfAbs ||| bpfB) (c.base + 9),
     newStmt (bpfLdx ||| bpfMsh ||| bpfB) c.base]
  | .ipv6 =>
    [newStmt (bpfLd ||| bpfAbs ||| bpfB) (c.base + 6),
     newStmt (bpfLdx ||| bpfImm) 40]

/-- `v6advance`: `X = X + (P[X + packet head + 1] + 1) * 8` -/
def advanceStmts (c : Protochain) (reg2 : Reg) : List Stmt :=
  [newStmt (bpfLd ||| bpfInd ||| bpfB) c.base,
   newStmt bpfSt reg2.word,
   newStmt (bpfLd ||| bpfInd ||| bpfB) (c.base + 1),
   newStmt (bpfAlu ||| bpfAdd ||| bpfK) 1,
   newStmt (bpfAlu ||| bpfMul ||| bpfK) 8,
   newStmt (bpfAlu ||| bpfAdd ||| bpfX) 0,
   newStmt (bpfMisc ||| bpfTax) 0,
   newStmt (bpfLd ||| bpfMem) reg2.word]

/-- The IPv6 extension headers, or a statement that does nothing. -/
def extensionStmts (c : Protochain) (reg2 : Reg) : List Stmt :=
  match c.family with
  | .ipv4 => [newStmt (bpfAlu ||| bpfAdd ||| bpfK) 0]
  | .ipv6 =>
    [testA ipprotoHopopts 3 0, testA ipprotoDstopts 2 0, testA ipprotoRouting 1 0,
     testA ipprotoFragment 0 9] ++ c.advanceStmts reg2 ++ [newStmt (bpfJmp ||| bpfJa) (-15)]

/-- The authentication header. The comment of the source says
`X = X + (P[X + 1] + 2) * 4`; the sum is missing. -/
def ahStmts (c : Protochain) (reg2 : Reg) : List Stmt :=
  [newStmt (bpfMisc ||| bpfTxa) 0,
   newStmt (bpfLd ||| bpfInd ||| bpfB) c.base,
   newStmt bpfSt reg2.word,
   newStmt (bpfMisc ||| bpfTxa) 0,
   newStmt (bpfAlu ||| bpfAdd ||| bpfK) 1,
   newStmt (bpfMisc ||| bpfTax) 0,
   newStmt (bpfLd ||| bpfInd ||| bpfB) c.base,
   newStmt (bpfAlu ||| bpfAdd ||| bpfK) 2,
   newStmt (bpfAlu ||| bpfMul ||| bpfK) 4,
   newStmt (bpfMisc ||| bpfTax) 0,
   newStmt (bpfLd ||| bpfMem) reg2.word]

/-- The length of `extensionStmts`. -/
def extensionRoom (c : Protochain) : Nat :=
  match c.family with
  | .ipv4 => 1
  | .ipv6 => 13

/-- The beginning of the loop, at `again`: two tests that jump to `end`. -/
def againStmts (c : Protochain) : List Stmt :=
  [testA c.v (c.extensionRoom + 14) 0, testA ipprotoNone (c.extensionRoom + 13) 0]

/-- Up to `ahcheck`. -/
def beforeAh (c : Protochain) (reg2 : Reg) : List Stmt :=
  c.startStmts ++ c.againStmts ++ c.extensionStmts reg2

/-- Up to `end`; the jump leads back to `again`, the third statement. -/
def beforeEnd (c : Protochain) (reg2 : Reg) : List Stmt :=
  c.beforeAh reg2 ++ [testA ipprotoAh 0 12] ++ c.ahStmts reg2 ++
    [newStmt (bpfJmp ||| bpfJa) (BitVec.ofInt 32 (-(c.extensionRoom + 15)))]

/-- The statements of the block. -/
def stmts (c : Protochain) (reg2 : Reg) : List Stmt :=
  c.beforeEnd reg2 ++ [newStmt (bpfAlu ||| bpfAdd ||| bpfK) 0]

/-- The block with the final check. -/
def leaf (c : Protochain) (reg2 : Reg) : Leaf := ⟨c.stmts reg2, jmp bpfJeq, c.v⟩

end Protochain

/-- The Ethernet type of a family. -/
def Family.ethertype : Family → Word
  | .ipv4 => ethertypeIp
  | .ipv6 => ethertypeIpv6

/-- `gen_protochain` for one family, once its register is allocated. -/
def genProtochainIn (v : Word) (family : Family) (reg2 : Reg) : GenM Formula := do
  let l ← layout
  if is80211 l.linktype then bpfError "'protochain' not supported with 802.11"
  else do
    modify fun g => { g with noOptimize := true }
    let b0 ← genLinktype family.ethertype
    let l ← layout
    freeReg reg2
    return .and b0 (.leaf (Protochain.leaf ⟨family, v, l.offMacpl + l.offNl⟩ reg2))

/-- `gen_protochain`. With `Q_DEFAULT` the register of the outer call is not used and not
freed. -/
def genProtochain (v : Word) (proto : Proto) : GenM Formula := do
  let reg2 ← allocReg
  match proto with
  | .ip => genProtochainIn v .ipv4 reg2
  | .ipv6 => genProtochainIn v .ipv6 reg2
  | .dflt => do
      let b0 ← genProtochainIn v .ipv4 (← allocReg)
      let b ← genProtochainIn v .ipv6 (← allocReg)
      return .or b0 b
  | _ => bpfError "bad protocol applied for 'protochain'"

/-! ## The loop as a machine -/

/-- The protocols whose headers the loop skips in units of eight bytes. -/
def Family.extensions : Family → List Word
  | .ipv4 => []
  | .ipv6 => [ipprotoHopopts, ipprotoDstopts, ipprotoRouting, ipprotoFragment]

namespace Protochain

/-- `P[k]` -/
def byte (p : Packet) (k : Word) : Except Result Word := p.read (p.touched .b k)

/-- The registers `A` and `X` in front of the loop. -/
def start (c : Protochain) (p : Packet) : Except Result (Word × Word) :=
  match c.family with
  | .ipv4 => do
      let nxt ← byte p (c.base + 9)
      let first ← p.read (p.touchedMsh c.base)
      return (nxt, (first &&& 0xf) <<< 2)
  | .ipv6 => do
      let nxt ← byte p (c.base + 6)
      return (nxt, 40)

/-- The registers behind an IPv6 extension header. -/
def skipExtension (c : Protochain) (p : Packet) (x : Word) : Except Result (Word × Word) := do
  let nxt ← byte p (x + c.base)
  let len ← byte p (x + (c.base + 1))
  return (nxt, (len + 1) * 8 + x)

/-- The registers behind an authentication header. -/
def skipAh (c : Protochain) (p : Packet) (x : Word) : Except Result (Word × Word) := do
  let nxt ← byte p (x + c.base)
  let len ← byte p (x + 1 + c.base)
  return (nxt, (len + 2) * 4)

/-- Go on with the next header, unless a load has ended the run. -/
def goOn : Except Result (Word × Word) → Next (Word × Word) Result
  | .ok next => .go next
  | .error result => .stop result

instance : LawfulBEq Word := inferInstance

/-- One turn of the loop, on the protocol and the offset of the next header. -/
def step (c : Protochain) (snaplen : Word) (p : Packet) : Step (Word × Word) Result
  | (a, x) =>
    if a = c.v then .stop (.ret snaplen)
    else if a = ipprotoNone then .stop (.ret 0)
    else if a ∈ c.family.extensions then goOn (c.skipExtension p x)
    else if a = ipprotoAh then goOn (c.skipAh p x)
    else .stop (.ret 0)

/-! ## The block runs as the machine -/

section Single

variable {p : Packet} (m : Machine) (k : Word) (rest : List Stmt)

theorem exec_ldAbsB :
    execStmts p (newStmt (bpfLd ||| bpfAbs ||| bpfB) k :: rest) m =
      match byte p k with
      | .ok v => execStmts p rest { m with A := v }
      | .error result => .error result := by
  have decoded : decode (bpfLd ||| bpfAbs ||| bpfB) = some (.ldAbs .b) := decode_ldAbs .b
  simp only [execStmts, newStmt, decoded, Op.effect, byte]
  cases p.read (p.touched .b k) with
  | ok v => rfl
  | error result => rfl

theorem exec_ldIndB :
    execStmts p (newStmt (bpfLd ||| bpfInd ||| bpfB) k :: rest) m =
      match byte p (m.X + k) with
      | .ok v => execStmts p rest { m with A := v }
      | .error result => .error result := by
  simp only [execStmts, newStmt, decode_ldIndB, Op.effect, byte]
  cases p.read (p.touched .b (m.X + k)) with
  | ok v => rfl
  | error result => rfl

theorem exec_ldxMshB :
    execStmts p (newStmt (bpfLdx ||| bpfMsh ||| bpfB) k :: rest) m =
      match p.read (p.touchedMsh k) with
      | .ok v => execStmts p rest { m with X := (v &&& 0xf) <<< 2 }
      | .error result => .error result := by
  simp only [execStmts, newStmt, decode_ldxMsh, Op.effect]
  cases p.read (p.touchedMsh k) with
  | ok v => rfl
  | error result => rfl

theorem exec_ldxImm :
    execStmts p (newStmt (bpfLdx ||| bpfImm) k :: rest) m = execStmts p rest { m with X := k } := by
  have decoded : decode (bpfLdx ||| bpfImm) = some .ldxImm := by decide
  exact exec_cons decoded rfl

theorem exec_txa :
    execStmts p (newStmt (bpfMisc ||| bpfTxa) k :: rest) m =
      execStmts p rest { m with A := m.X } := by
  have decoded : decode (bpfMisc ||| bpfTxa) = some .txa := by decide
  exact exec_cons decoded rfl

theorem exec_addK :
    execStmts p (newStmt (bpfAlu ||| bpfAdd ||| bpfK) k :: rest) m =
      execStmts p rest { m with A := m.A + k } := by
  have decoded : decode (bpfAlu ||| bpfAdd ||| bpfK) = some (.alu .add .k) := by decide
  exact exec_cons decoded rfl

theorem exec_add_zero :
    execStmts p (newStmt (bpfAlu ||| bpfAdd ||| bpfK) 0 :: rest) m = execStmts p rest m := by
  have same : m.A + 0 = m.A := BitVec.add_zero m.A
  rw [exec_addK, same]

theorem exec_mulK :
    execStmts p (newStmt (bpfAlu ||| bpfMul ||| bpfK) k :: rest) m =
      execStmts p rest { m with A := m.A * k } := by
  have decoded : decode (bpfAlu ||| bpfMul ||| bpfK) = some (.alu .mul .k) := by decide
  exact exec_cons decoded rfl

theorem exec_ldMem (r : Reg) :
    execStmts p (newStmt (bpfLd ||| bpfMem) r.word :: rest) m =
      execStmts p rest { m with A := m.mem r } := by
  refine exec_cons decode_ldMem ?_
  simp [newStmt, Op.effect]

end Single

theorem exec_startStmts (c : Protochain) (p : Packet) (m : Machine) :
    execStmts p c.startStmts m =
      match c.start p with
      | .ok (a, x) => .ok ⟨a, x, m.mem⟩
      | .error result => .error result := by
  obtain ⟨family, v, base⟩ := c
  cases family with
  | ipv4 =>
    simp only [startStmts, start, exec_ldAbsB, exec_ldxMshB]
    cases byte p (base + 9) with
    | error result => rfl
    | ok nxt =>
      cases p.read (p.touchedMsh base) with
      | error result => rfl
      | ok first => rfl
  | ipv6 =>
    simp only [startStmts, start, exec_ldAbsB, exec_ldxImm]
    cases byte p (base + 6) with
    | error result => rfl
    | ok nxt => rfl

theorem exec_advanceStmts (c : Protochain) (r : Reg) (p : Packet) (m : Machine) :
    execStmts p (c.advanceStmts r) m =
      match c.skipExtension p m.X with
      | .ok (a, x) => .ok ⟨a, x, Function.update m.mem r a⟩
      | .error result => .error result := by
  simp only [advanceStmts, skipExtension, exec_ldIndB, exec_st, exec_addK, exec_mulK, exec_addX,
    exec_tax, exec_ldMem, Function.update_self]
  cases byte p (m.X + c.base) with
  | error result => rfl
  | ok nxt =>
    cases byte p (m.X + (c.base + 1)) with
    | error result => rfl
    | ok len => rfl

theorem straight_advanceStmts (c : Protochain) (r : Reg) : ∀ s ∈ c.advanceStmts r, s.Straight := by
  apply straight_of_codes
  simp only [advanceStmts, newStmt, map]
  decide

theorem straight_ahStmts (c : Protochain) (r : Reg) : ∀ s ∈ c.ahStmts r, s.Straight := by
  apply straight_of_codes
  simp only [ahStmts, newStmt, map]
  decide

theorem exec_ahStmts (c : Protochain) (r : Reg) (p : Packet) (m : Machine) :
    execStmts p (c.ahStmts r) m =
      match c.skipAh p m.X with
      | .ok (a, x) => .ok ⟨a, x, Function.update m.mem r a⟩
      | .error result => .error result := by
  simp only [ahStmts, skipAh, exec_txa, exec_ldIndB, exec_st, exec_addK, exec_mulK, exec_tax,
    exec_ldMem, Function.update_self]
  cases byte p (m.X + c.base) with
  | error result => rfl
  | ok nxt =>
    cases byte p (m.X + 1 + c.base) with
    | error result => rfl
    | ok len => rfl

/-- The block of a chain in a finished graph. -/
structure InGraph (c : Protochain) (r : Reg) (h : Heap) (b accept reject : BlockId)
    (snaplen : Word) : Prop where
  stmts : (h.get b).stmts = c.stmts r
  branch : decode (h.get b).s.code = some (.jmp .jeq .k) ∧ (h.get b).s.k = c.v
  onTrue : h.exit b true = some accept
  onFalse : h.exit b false = some reject
  acceptStmts : (h.get accept).stmts = []
  rejectStmts : (h.get reject).stmts = []
  acceptRet : (h.get accept).s = { code := bpfRet ||| bpfK, k := snaplen }
  rejectRet : (h.get reject).s = { code := bpfRet ||| bpfK, k := 0 }

theorem graphStep_testA {h : Heap} {p : Packet} {b : BlockId} {i : Nat} {k : Word} {jt jf : Int}
    (found : (h.get b).stmts[i]? = some (testA k jt jf)) (m : Machine) :
    graphStep h p ⟨b, i, m⟩ = .go ⟨b, i + 1 + if m.A = k then jt else jf, m⟩ := by
  have decoded : decode (jmp bpfJeq) = some (.jmp .jeq .k) := by decide
  apply graphStep_testStmt found decoded
  simp only [testA, JmpOp.eval, Src.value, beq_iff_eq]
  split <;> rfl

section Block

variable {c : Protochain} {r : Reg} {h : Heap} {b accept reject : BlockId} {snaplen : Word}

theorem length_startStmts (c : Protochain) : c.startStmts.length = 2 := by
  obtain ⟨family, v, base⟩ := c
  cases family <;> rfl

theorem length_extensionStmts (c : Protochain) (r : Reg) :
    (c.extensionStmts r).length = c.extensionRoom := by
  obtain ⟨family, v, base⟩ := c
  cases family <;> rfl

theorem length_beforeAh (c : Protochain) (r : Reg) :
    (c.beforeAh r).length = c.extensionRoom + 4 := by
  simp only [beforeAh, againStmts, length_append, length_startStmts, length_extensionStmts,
    length_cons, length_nil]
  omega

theorem length_beforeEnd (c : Protochain) (r : Reg) :
    (c.beforeEnd r).length = c.extensionRoom + 17 := by
  simp [beforeEnd, length_beforeAh, ahStmts]

/-- A return block. -/
theorem stops_return {k : Word} (stmts : (h.get b).stmts = [])
    (ret : (h.get b).s = { code := bpfRet ||| bpfK, k }) (p : Packet) (m : Machine) :
    (graphStep h p).Stops ⟨b, 0, m⟩ (.ret k) :=
  Step.stops_of_step (graphStep_return stmts ret)

/-- From the last statement on, the final check decides. -/
theorem stops_end (inGraph : c.InGraph r h b accept reject snaplen) (p : Packet) (m : Machine) :
    (graphStep h p).Stops ⟨b, c.extensionRoom + 17, m⟩
      (.ret (if m.A = c.v then snaplen else 0)) := by
  have split : (h.get b).stmts =
      c.beforeEnd r ++ [newStmt (bpfAlu ||| bpfAdd ||| bpfK) 0] ++ [] := by
    rw [inGraph.stmts, stmts, append_nil]
  have last := graphStep_segment (p := p) _ [] (by decide) _ m split
  rw [exec_add_zero] at last
  have whole : (c.beforeEnd r ++ [newStmt (bpfAlu ||| bpfAdd ||| bpfK) 0]).length =
      (h.get b).stmts.length := by
    rw [split, append_nil]
  rw [whole, length_beforeEnd] at last
  have branch := graphStep_branch (p := p) inGraph.branch.1 m
  refine Step.Stops.of_reaches last ?_
  by_cases found : m.A = c.v
  · rw [if_pos found]
    have taken : JmpOp.jeq.eval m.A (Src.k.value (h.get b).s.k m) = true := by
      simp [JmpOp.eval, Src.value, inGraph.branch.2, found]
    rw [taken, inGraph.onTrue] at branch
    exact (stops_return inGraph.acceptStmts inGraph.acceptRet p m).of_reaches (.single branch)
  · rw [if_neg found]
    have taken : JmpOp.jeq.eval m.A (Src.k.value (h.get b).s.k m) = false := by
      simp [JmpOp.eval, Src.value, inGraph.branch.2, found]
    rw [taken, inGraph.onFalse] at branch
    exact (stops_return inGraph.rejectStmts inGraph.rejectRet p m).of_reaches (.single branch)

/-- The block does from a place what a turn of the loop does: it comes back to `again`
with the next registers, or stops. -/
def Answers (h : Heap) (p : Packet) (b : BlockId) (place : Place) :
    Next (Word × Word) Result → Prop
  | .go (a, x) => ∃ mem, (graphStep h p).Reaches place ⟨b, 2, ⟨a, x, mem⟩⟩
  | .stop result => (graphStep h p).Stops place result

theorem Answers.of_reaches {p : Packet} {place place' : Place} {next : Next (Word × Word) Result}
    (answers : Answers h p b place' next) (path : (graphStep h p).Reaches place place') :
    Answers h p b place next := by
  cases next with
  | stop result => exact Step.Stops.of_reaches path answers
  | go next =>
    obtain ⟨mem, reaches⟩ := answers
    exact ⟨mem, path.trans reaches⟩

/-- Statements that skip a header, followed by the jump to `again`. -/
theorem answers_of_segment {p : Packet} {front segment rest : List Stmt} {distance : Int}
    {m : Machine} {skipped : Except Result (Word × Word)}
    (split : (h.get b).stmts =
      front ++ segment ++ newStmt (bpfJmp ||| bpfJa) (BitVec.ofInt 32 distance) :: rest)
    (straight : ∀ s ∈ segment, s.Straight)
    (exec : execStmts p segment m =
      match skipped with
      | .ok (a, x) => .ok ⟨a, x, Function.update m.mem r a⟩
      | .error result => .error result)
    (small : (BitVec.ofInt 32 distance).toInt = distance)
    (back : ((front ++ segment).length : Int) + 1 + distance = 2) :
    Answers h p b ⟨b, front.length, m⟩ (goOn skipped) := by
  have runs := graphStep_segment (p := p) segment _ straight front m split
  rw [exec] at runs
  cases skipped with
  | error result => exact runs
  | ok next =>
    obtain ⟨a, x⟩ := next
    have found : (h.get b).stmts[(front ++ segment).length]? =
        some (newStmt (bpfJmp ||| bpfJa) (BitVec.ofInt 32 distance)) := by
      rw [split, getElem?_append_right (Nat.le_refl _), Nat.sub_self]
      rfl
    have decoded : decode (bpfJmp ||| bpfJa) = some .ja := by decide
    have jump := graphStep_jumpStmt (p := p) found decoded ⟨a, x, Function.update m.mem r a⟩
    simp only [newStmt, small, back] at jump
    exact ⟨_, runs.trans (.single jump)⟩

section

variable (inGraph : c.InGraph r h b accept reject snaplen)
include inGraph

/-- Without extension headers, one statement that does nothing. -/
theorem runs_extension_ipv4
    (ipv4 : c.family = .ipv4) (p : Packet) (m : Machine) :
    (graphStep h p).Reaches ⟨b, 4, m⟩ ⟨b, c.extensionRoom + 4, m⟩ := by
  obtain ⟨family, v, base⟩ := c
  cases ipv4
  have split : (h.get b).stmts = (h.get b).stmts.take 4 ++
      [newStmt (bpfAlu ||| bpfAdd ||| bpfK) 0] ++ (h.get b).stmts.drop 5 := by
    rw [inGraph.stmts]
    rfl
  have length : ((h.get b).stmts.take 4).length = 4 := by
    rw [inGraph.stmts]
    rfl
  have segment := graphStep_segment (p := p) _ _ (by decide) _ m split
  rw [exec_add_zero, length_append, length] at segment
  exact segment

/-- The extension headers of IPv6. -/
theorem runs_extension_ipv6
    (ipv6 : c.family = .ipv6) (p : Packet) (m : Machine) :
    if m.A ∈ Family.ipv6.extensions then Answers h p b ⟨b, 4, m⟩ (goOn (c.skipExtension p m.X))
    else (graphStep h p).Reaches ⟨b, 4, m⟩ ⟨b, c.extensionRoom + 4, m⟩ := by
  obtain ⟨family, v, base⟩ := c
  cases ipv6
  have advance : Answers h p b ⟨b, 8, m⟩ (goOn (skipExtension ⟨.ipv6, v, base⟩ p m.X)) := by
    have split : (h.get b).stmts = (h.get b).stmts.take 8 ++
        advanceStmts ⟨.ipv6, v, base⟩ r ++
        newStmt (bpfJmp ||| bpfJa) (BitVec.ofInt 32 (-15)) :: (h.get b).stmts.drop 17 := by
      rw [inGraph.stmts]
      rfl
    have length : ((h.get b).stmts.take 8).length = 8 := by
      rw [inGraph.stmts]
      rfl
    have again := answers_of_segment (p := p) split (straight_advanceStmts _ r)
      (exec_advanceStmts _ r p m) (by decide) (by rw [length_append, length]; rfl)
    rwa [length] at again
  have test : ∀ (i : Nat) (k : Word) (jt jf : Int),
      (stmts ⟨.ipv6, v, base⟩ r)[i]? = some (testA k jt jf) →
      graphStep h p ⟨b, i, m⟩ = .go ⟨b, i + 1 + if m.A = k then jt else jf, m⟩ := by
    intro i k jt jf found
    exact graphStep_testA (inGraph.stmts ▸ found) m
  have first := test 4 ipprotoHopopts 3 0 rfl
  have second := test 5 ipprotoDstopts 2 0 rfl
  have third := test 6 ipprotoRouting 1 0 rfl
  have fourth := test 7 ipprotoFragment 0 9 rfl
  simp only [Family.extensions, mem_cons, not_mem_nil, or_false]
  by_cases hopopts : m.A = ipprotoHopopts
  · rw [if_pos hopopts] at first
    rw [if_pos (.inl hopopts)]
    exact advance.of_reaches (.single first)
  rw [if_neg hopopts] at first
  by_cases dstopts : m.A = ipprotoDstopts
  · rw [if_pos dstopts] at second
    rw [if_pos (.inr (.inl dstopts))]
    exact advance.of_reaches (.head first (.single second))
  rw [if_neg dstopts] at second
  by_cases routing : m.A = ipprotoRouting
  · rw [if_pos routing] at third
    rw [if_pos (.inr (.inr (.inl routing)))]
    exact advance.of_reaches (.head first (.head second (.single third)))
  rw [if_neg routing] at third
  by_cases fragment : m.A = ipprotoFragment
  · rw [if_pos fragment] at fourth
    rw [if_pos (.inr (.inr (.inr fragment)))]
    exact advance.of_reaches (.head first (.head second (.head third (.single fourth))))
  rw [if_neg fragment] at fourth
  rw [if_neg (by tauto)]
  exact .head first (.head second (.head third (.single fourth)))

omit inGraph in
theorem extensionRoom_le (c : Protochain) : c.extensionRoom ≤ 13 := by
  unfold extensionRoom
  split <;> decide

/-- The test for an authentication header, and the code that skips it. -/
theorem runs_ah (p : Packet) (m : Machine) :
    if m.A = ipprotoAh then Answers h p b ⟨b, c.extensionRoom + 4, m⟩ (goOn (c.skipAh p m.X))
    else (graphStep h p).Reaches ⟨b, c.extensionRoom + 4, m⟩ ⟨b, c.extensionRoom + 17, m⟩ := by
  have length := c.length_beforeAh r
  have split : (h.get b).stmts = c.beforeAh r ++ testA ipprotoAh 0 12 :: (c.ahStmts r ++
      [newStmt (bpfJmp ||| bpfJa) (BitVec.ofInt 32 (-(c.extensionRoom + 15))),
        newStmt (bpfAlu ||| bpfAdd ||| bpfK) 0]) := by
    rw [inGraph.stmts, stmts, beforeEnd]
    simp
  have found : (h.get b).stmts[c.extensionRoom + 4]? = some (testA ipprotoAh 0 12) := by
    rw [split, ← length, getElem?_append_right (Nat.le_refl _), Nat.sub_self]
    rfl
  have test := graphStep_testA (p := p) found m
  rw [Nat.cast_add] at test
  by_cases isAh : m.A = ipprotoAh
  · rw [if_pos isAh] at test ⊢
    have split' : (h.get b).stmts = (c.beforeAh r ++ [testA ipprotoAh 0 12]) ++ c.ahStmts r ++
        newStmt (bpfJmp ||| bpfJa) (BitVec.ofInt 32 (-(c.extensionRoom + 15))) ::
          [newStmt (bpfAlu ||| bpfAdd ||| bpfK) 0] := by
      rw [split]
      simp
    have front : (c.beforeAh r ++ [testA ipprotoAh 0 12]).length = c.extensionRoom + 5 := by
      rw [length_append, length]
      rfl
    have small : (BitVec.ofInt 32 (-((c.extensionRoom : Int) + 15))).toInt =
        -((c.extensionRoom : Int) + 15) := by
      have room := c.extensionRoom_le
      rw [BitVec.toInt_ofInt]
      apply Int.bmod_eq_of_le <;> omega
    have again := answers_of_segment (p := p) split' (c.straight_ahStmts r) (c.exec_ahStmts r p m)
      small (by rw [length_append, front]; simp [ahStmts]; omega)
    rw [front] at again
    refine again.of_reaches (.single ?_)
    rw [Nat.cast_add]
    exact test
  · rw [if_neg isAh] at test ⊢
    exact .single test

theorem found_again :
    (h.get b).stmts[2]? = some (testA c.v (c.extensionRoom + 14) 0) ∧
      (h.get b).stmts[3]? = some (testA ipprotoNone (c.extensionRoom + 13) 0) := by
  rw [inGraph.stmts]
  obtain ⟨family, v, base⟩ := c
  cases family <;> exact ⟨rfl, rfl⟩

/-- From the test for an authentication header to the end of the turn. -/
theorem answers_ah (p : Packet) {m : Machine}
    (other : m.A ≠ c.v) :
    Answers h p b ⟨b, c.extensionRoom + 4, m⟩
      (if m.A = ipprotoAh then goOn (c.skipAh p m.X) else .stop (.ret 0)) := by
  have ah := runs_ah inGraph p m
  have ends := stops_end inGraph p m
  rw [if_neg other] at ends
  by_cases isAh : m.A = ipprotoAh
  · rw [if_pos isAh] at ah ⊢
    exact ah
  · rw [if_neg isAh] at ah ⊢
    exact ends.of_reaches ah

/-- The loop behind its two first tests. -/
theorem answers_skip (p : Packet) {m : Machine}
    (other : m.A ≠ c.v) :
    Answers h p b ⟨b, 4, m⟩
      (if m.A ∈ c.family.extensions then goOn (c.skipExtension p m.X)
      else if m.A = ipprotoAh then goOn (c.skipAh p m.X) else .stop (.ret 0)) := by
  have ah := answers_ah inGraph p other
  cases family : c.family with
  | ipv4 => exact ah.of_reaches (runs_extension_ipv4 inGraph family p m)
  | ipv6 =>
    have extension := runs_extension_ipv6 inGraph family p m
    by_cases isExtension : m.A ∈ Family.ipv6.extensions
    · rw [if_pos isExtension] at extension ⊢
      exact extension
    · rw [if_neg isExtension] at extension ⊢
      exact ah.of_reaches extension

/-- One turn of the loop. -/
theorem answers_again (p : Packet)
    (m : Machine) :
    ∃ first, graphStep h p ⟨b, 2, m⟩ = .go first ∧
      Answers h p b first (c.step snaplen p (m.A, m.X)) := by
  have first := graphStep_testA (p := p) (found_again inGraph).1 m
  have second := graphStep_testA (p := p) (found_again inGraph).2 m
  have ends := stops_end inGraph p m
  refine ⟨_, first, ?_⟩
  simp only [step]
  by_cases found : m.A = c.v
  · rw [if_pos found] at ends ⊢
    rw [if_pos found, show ((2 : Nat) : Int) + 1 + (c.extensionRoom + 14) =
      c.extensionRoom + 17 by omega]
    exact ends
  rw [if_neg found] at ends ⊢
  rw [if_neg found]
  by_cases none : m.A = ipprotoNone
  · rw [if_pos none, show ((3 : Nat) : Int) + 1 + (c.extensionRoom + 13) =
      c.extensionRoom + 17 by omega] at second
    rw [if_pos none]
    exact ends.of_reaches (.single second)
  · rw [if_neg none] at second ⊢
    exact (answers_skip inGraph p found).of_reaches (.single second)

/-- The loop of the block runs as the machine. -/
theorem simulates (p : Packet) :
    Step.Simulates (c.step snaplen p) (graphStep h p)
      (fun registers place => ∃ mem, place = ⟨b, 2, ⟨registers.1, registers.2, mem⟩⟩) := by
  constructor
  · rintro ⟨a, x⟩ _ ⟨a', x'⟩ ⟨mem, rfl⟩ moves
    obtain ⟨first, begins, answers⟩ := answers_again inGraph p ⟨a, x, mem⟩
    rw [moves] at answers
    obtain ⟨mem', reaches⟩ := answers
    exact ⟨first, _, begins, reaches, mem', rfl⟩
  · rintro ⟨a, x⟩ _ result ⟨mem, rfl⟩ stops
    obtain ⟨first, begins, answers⟩ := answers_again inGraph p ⟨a, x, mem⟩
    rw [stops] at answers
    exact Step.Stops.of_reaches (.single begins) answers

end

/-- How the loop ends on a packet, if it ends. -/
def Ends (c : Protochain) (snaplen : Word) (p : Packet) (result : Result) : Prop :=
  match c.start p with
  | .ok registers => (c.step snaplen p).Stops registers result
  | .error failed => failed = result

/-- **The block.** From its first statement, the block stops as the loop ends. -/
theorem stops_iff (inGraph : c.InGraph r h b accept reject snaplen) (p : Packet) (m : Machine)
    (result : Result) :
    (graphStep h p).Stops ⟨b, 0, m⟩ result ↔ c.Ends snaplen p result := by
  have split : (h.get b).stmts = [] ++ c.startStmts ++ (h.get b).stmts.drop 2 := by
    rw [inGraph.stmts]
    obtain ⟨family, v, base⟩ := c
    cases family <;> rfl
  have straight : ∀ s ∈ c.startStmts, s.Straight := by
    apply straight_of_codes
    obtain ⟨family, v, base⟩ := c
    cases family <;> simp only [startStmts, newStmt, map] <;> decide
  have begins := graphStep_segment (p := p) _ _ straight [] m split
  rw [exec_startStmts] at begins
  unfold Ends
  cases started : c.start p with
  | error failed =>
    rw [started] at begins
    exact ⟨fun stops => begins.unique stops, fun same => same ▸ begins⟩
  | ok registers =>
    obtain ⟨a, x⟩ := registers
    simp only [started, nil_append, length_startStmts] at begins
    have loop : (c.step snaplen p).Stops (a, x) result ↔
        (graphStep h p).Stops ⟨b, 2, ⟨a, x, m.mem⟩⟩ result :=
      (simulates inGraph p).stops_iff ⟨m.mem, rfl⟩
    exact (Step.Reaches.stops_iff begins).trans loop.symm

end Block

end Protochain

end Libpcap.Gencode
