/-
# Filters for the kernel in cooked mode

In cooked mode the library prepends a header of 16 bytes to a packet, and filters are
compiled for such packets. A filter of the kernel sees the packet without the header,
but with two of its fields at magic offsets. `fix_program` rewrites a filter for the
kernel, instruction by instruction.

It looks at the offset of a load only. So the rewritten filter agrees with the original
one on a packet if all loads that are executed have the size of the field that they
read, no load takes the length of the packet, and an index register does not take a load
into the header. A load that leaves both packets rejects both.
-/

import Libpcap.Bpf.Field
import Libpcap.Linux.Frame

namespace Libpcap.Linux

open Libpcap.Bpf Libpcap.Semantics

variable {cooked isMmapped : Bool} {fixed prog : List Insn} {k : Word}

/-! ## Rewriting -/

/-- `SKF_AD_OFF + SKF_AD_PROTOCOL` -/
def adProtocol : Word := 0xfffff000

/-- `SKF_AD_OFF + SKF_AD_PKTTYPE` -/
def adPkttype : Word := 0xfffff004

/-- `fix_offset`; `none` is the return value -1. -/
def fixOffset (k : Word) : Option Word :=
  if sllHdrLen ≤ k.toNat then some (k - 16)
  else if k = 0 then some adPkttype
  else if k = 14 then some adProtocol
  else if 0 < k.toInt then none
  else some k

/-- The body of the loop of `fix_program`; `none` ends it with the return value 0. -/
def fixInsn (cooked isMmapped : Bool) (p : Insn) : Option Insn :=
  if bpfClass p.code = bpfRet then
    if ¬ isMmapped ∧ bpfMode p.code = bpfK ∧ p.k ≠ 0 then some { p with k := 65535 } else some p
  else if bpfClass p.code = bpfLd ∨ bpfClass p.code = bpfLdx then
    if bpfMode p.code = bpfAbs ∨ bpfMode p.code = bpfInd ∨ bpfMode p.code = bpfMsh then
      if cooked then (fixOffset p.k).map fun k => { p with k } else some p
    else some p
  else some p

/-- `fix_program`, if it succeeds. -/
def fixProgram (cooked isMmapped : Bool) : List Insn → Option (List Insn)
  | [] => some []
  | p :: rest =>
    (fixInsn cooked isMmapped p).bind fun fixed => (fixProgram cooked isMmapped rest).map (fixed :: ·)

/-! ## The two machines -/

/-- A packet in cooked mode. -/
structure CookedPacket where
  sll : SockaddrLl
  addr : List (BitVec 8)
  payload : List (BitVec 8)
  around : Int → BitVec 8
  length_addr : addr.length = 8
  length_protocol : sll.protocol.length = 2
  length_lt : payload.length + sllHdrLen < 2 ^ 32

namespace CookedPacket

variable (pkt : CookedPacket)

theorem length_header : (sllHeader pkt.sll pkt.addr).length = sllHdrLen := by
  simp [sllHeader, be16, pkt.length_addr, pkt.length_protocol, sllHdrLen]

/-- The packet that the library sees. -/
def packet : Packet where
  data := sllHeader pkt.sll pkt.addr ++ pkt.payload
  wirelen := BitVec.ofNat 32 (pkt.payload.length + sllHdrLen)
  around := pkt.around
  length_lt := by
    have := pkt.length_lt
    rw [List.length_append, length_header]
    omega

/-- The packet that the kernel sees. -/
def network : Packet where
  data := pkt.payload
  wirelen := BitVec.ofNat 32 pkt.payload.length
  around := pkt.around
  length_lt := by have := pkt.length_lt; omega

/-- The fields at magic offsets. -/
def ancillary (k : Word) : Option Word :=
  if k = adProtocol then some (Packet.bigEndian pkt.sll.protocol)
  else if k = adPkttype then some (pkt.sll.pkttype.setWidth 32)
  else none

end CookedPacket

/-- The outcome of a load. -/
def loaded : Option Word → Except Result Word
  | some value => .ok value
  | none => .error (.reject .load)

/-- An instruction in the kernel. A load at a fixed offset reads a magic field as a whole, whatever
its size is; a load that leaves the packet rejects it. -/
def kernelEffect (pkt : CookedPacket) (op : Op) (k : Word) (m : Machine) : Effect :=
  match op with
  | .ldAbs size =>
    .ofRead (loaded ((pkt.ancillary k).or (pkt.network.field size k))) fun v => { m with A := v }
  | .ldInd size => .ofRead (loaded (pkt.network.field size (m.X + k))) fun v => { m with A := v }
  | .ldxMsh =>
    .ofRead (loaded (pkt.network.field .b k)) fun v => { m with X := (v &&& 0xf) <<< 2 }
  | op => op.effect k pkt.network m

/-- One turn of an interpreter with the given instructions. -/
def stepWith (effect : Op → Word → Machine → Effect) (prog : List Insn) : Step State Result :=
  fun s =>
    match fetch prog s.pc with
    | none => .stop (.undefined .pcRange)
    | some i =>
      match decode i.code with
      | none => .stop .abort
      | some op =>
        match effect op i.k s.m with
        | .next m => .go ⟨s.pc + 1, m⟩
        | .branch taken =>
          .go ⟨s.pc + 1 + if taken then (i.jt.toNat : Int) else (i.jf.toNat : Int), s.m⟩
        | .jump => .go ⟨s.pc + 1 + i.k.toInt, s.m⟩
        | .stop result => .stop result

theorem step_eq_stepWith (prog : List Insn) (p : Packet) :
    step prog p = stepWith (fun op k m => op.effect k p m) prog := rfl

/-- The kernel runs a filter. -/
def kernelStep (prog : List Insn) (pkt : CookedPacket) : Step State Result :=
  stepWith (kernelEffect pkt) prog

/-! ## Loads -/

theorem read_touched {p : Packet} {size : Size} (small : k.toNat < 2 ^ 31) :
    p.read (p.touched size k) = loaded (p.field size k) := by
  cases found : p.field size k with
  | some v => exact p.read_touched_of_field found
  | none =>
    have signed := BitVec.toInt_eq_toNat_cond k
    have outside : p.buflen < k.toNat + size.bytes := by
      unfold Packet.field at found
      split at found
      case isTrue => cases found
      case isFalse outside => split at signed <;> omega
    have rejected : p.touched size k = none := by
      have sum := Packet.signExtend_add_toNat k
      cases size with
      | w =>
        rw [Packet.touched, Packet.touchedSized, sum 4 (by decide), if_pos small]
        exact if_pos outside
      | h =>
        rw [Packet.touched, Packet.touchedSized, sum 2 (by decide), if_pos small]
        exact if_pos outside
      | b => exact if_pos (Nat.lt_succ_iff.mp outside)
    rw [rejected]
    rfl

theorem read_touchedMsh {p : Packet} (small : k.toNat < 2 ^ 31) :
    p.read (p.touchedMsh k) = loaded (p.field .b k) := by
  rw [← read_touched small]
  have signed := BitVec.toInt_eq_toNat_cond k
  rw [if_pos (by omega)] at signed
  simp only [Packet.touched, Packet.touchedMsh, signed]

theorem toNat_sub_header (above : sllHdrLen ≤ k.toNat) : (k - 16).toNat = k.toNat - 16 := by
  have sixteen : (16 : Word).toNat = 16 := rfl
  unfold sllHdrLen at above
  rw [BitVec.toNat_sub, sixteen]
  omega

namespace CookedPacket

variable {pkt : CookedPacket}

theorem buflen_packet : pkt.packet.buflen = sllHdrLen + pkt.network.buflen := by
  change (sllHeader pkt.sll pkt.addr ++ pkt.payload).length = _
  rw [List.length_append, length_header]
  rfl

/-- A field behind the header is a field of the packet that the kernel sees. -/
theorem field_sub {size : Size} (above : sllHdrLen ≤ k.toNat) (small : k.toNat < 2 ^ 31) :
    pkt.network.field size (k - 16) = pkt.packet.field size k := by
  have length := pkt.buflen_packet
  have header := pkt.length_header
  have moved := toNat_sub_header above
  unfold sllHdrLen at above length header
  have signed := BitVec.toInt_eq_toNat_cond k
  have signedSub := BitVec.toInt_eq_toNat_cond (k - 16)
  rw [if_pos (by omega)] at signed signedSub
  have bytes : pkt.packet.data.drop k.toNat = pkt.network.data.drop (k - 16).toNat := by
    change (sllHeader pkt.sll pkt.addr ++ pkt.payload).drop k.toNat = pkt.payload.drop (k - 16).toNat
    rw [List.drop_append, List.drop_eq_nil_of_le (by omega), header, moved, List.nil_append]
  unfold Packet.field
  rw [bytes]
  refine if_congr ?_ rfl rfl
  rw [signed, signedSub, moved]
  omega

/-- Two bytes of the header. -/
theorem field_header (inside : k.toNat + 2 ≤ sllHdrLen) : pkt.packet.field .h k =
    some (Packet.bigEndian ((pkt.packet.data.drop k.toNat).take 2)) := by
  have length := pkt.buflen_packet
  have signed := BitVec.toInt_eq_toNat_cond k
  unfold sllHdrLen at inside length
  rw [if_pos (by omega)] at signed
  exact if_pos (by rw [signed, length, Size.bytes]; omega)

/-- The header has the protocol at the offset 14. -/
theorem field_protocol : pkt.packet.field .h 14 = some (Packet.bigEndian pkt.sll.protocol) := by
  have bytes : (pkt.packet.data.drop 14).take 2 = pkt.sll.protocol := by
    have front : (be16 (mapPacketTypeToSllType pkt.sll.pkttype) ++ be16 pkt.sll.hatype ++
        be16 (pkt.sll.halen.setWidth 16) ++ pkt.addr).length = 14 := by
      simp [be16, pkt.length_addr]
    change ((_ ++ pkt.sll.protocol ++ pkt.payload).drop 14).take 2 = pkt.sll.protocol
    rw [List.append_assoc, List.drop_left' front, List.take_left' pkt.length_protocol]
  rw [field_header (by decide)]
  exact congrArg (some ∘ Packet.bigEndian) bytes

/-- The header has the packet type at the offset 0, if it is one of those that it knows. -/
theorem field_pkttype (known : pkt.sll.pkttype.toNat ≤ 4) :
    pkt.packet.field .h 0 = some (pkt.sll.pkttype.setWidth 32) := by
  have values : ∀ pkttype : BitVec 8, pkttype.toNat ≤ 4 →
      Packet.bigEndian (be16 (mapPacketTypeToSllType pkttype)) = pkttype.setWidth 32 := by
    decide +kernel
  rw [field_header (by decide)]
  exact congrArg some (values _ known)

end CookedPacket

/-! ## Agreement -/

/-- The index is behind the header. -/
def behindHeader (i : Word) : Bool := sllHdrLen ≤ i.toNat ∧ i.toNat < 2 ^ 31

/-- A load at `i` leaves the packet that the library sees, and one at `j` the packet that the
kernel sees. -/
def bothLeave (pkt : CookedPacket) (size : Size) (i j : Word) : Bool :=
  pkt.packet.touched size i = none ∧ pkt.network.field size j = none

/-- The kernel finds what an instruction loads: a whole field of the header at a magic offset, or
something behind the header, or nothing where the library finds nothing either; the length of the
packet is not the same. -/
def kernelSees (pkt : CookedPacket) (op : Op) (k : Word) (m : Machine) : Bool :=
  let fixed := (fixOffset k).getD k
  match op with
  | .ldAbs size =>
    behindHeader k ∨ (size = .h ∧ (k = 14 ∨ (k = 0 ∧ pkt.sll.pkttype.toNat ≤ 4))) ∨
      (bothLeave pkt size k fixed ∧ pkt.ancillary fixed = none)
  | .ldInd size =>
    (sllHdrLen ≤ k.toNat ∧ behindHeader (m.X + k)) ∨ bothLeave pkt size (m.X + k) (m.X + fixed)
  | .ldxMsh =>
    behindHeader k ∨ (pkt.packet.touchedMsh k = none ∧ pkt.network.field .b fixed = none)
  | .ldLen | .ldxLen => false
  | _ => true

/-- What `fix_program` makes of the constant of an instruction. -/
def FixesTo (op : Op) (k fixed : Word) : Prop :=
  match op with
  | .ldAbs _ | .ldInd _ | .ldxMsh => fixOffset k = some fixed
  | .retK => fixed = 0 ↔ k = 0
  | .retA => True
  | _ => fixed = k

def loadsPacket : Op → Bool
  | .ldAbs _ | .ldInd _ | .ldxMsh => true
  | _ => false

/-- `fix_program` finds the loads from the packet by the class and the mode of their codes. -/
theorem loadsPacket_iff : ∀ op : Op, loadsPacket op ↔
    (bpfClass op.encode = bpfLd ∨ bpfClass op.encode = bpfLdx) ∧
      (bpfMode op.encode = bpfAbs ∨ bpfMode op.encode = bpfInd ∨ bpfMode op.encode = bpfMsh) := by
  decide +kernel

theorem fixInsn_of_decode {p fixed : Insn} {op : Op} (decoded : decode p.code = some op)
    (fixes : fixInsn true isMmapped p = some fixed) :
    fixed.code = p.code ∧ fixed.jt = p.jt ∧ fixed.jf = p.jf ∧ FixesTo op p.k fixed.k := by
  have code : p.code = op.encode := (decode_eq_some_iff.mp decoded).symm
  unfold fixInsn at fixes
  split at fixes
  case isTrue returns =>
    rw [code, class_ret_iff] at returns
    split at fixes
    case isTrue nonzero =>
      cases fixes
      refine ⟨rfl, rfl, rfl, ?_⟩
      rcases returns with rfl | rfl
      · exact iff_of_false (show (65535 : Word) ≠ 0 by decide) nonzero.2.2
      · trivial
    case isFalse =>
      cases fixes
      refine ⟨rfl, rfl, rfl, ?_⟩
      rcases returns with rfl | rfl
      · exact Iff.rfl
      · trivial
  case isFalse moves =>
    rw [code, class_ret_iff, not_or] at moves
    have load := loadsPacket_iff op
    rw [← code] at load
    cases loads : loadsPacket op with
    | true =>
      obtain ⟨isLoad, mode⟩ := load.mp loads
      rw [if_pos isLoad, if_pos mode, if_pos rfl] at fixes
      obtain ⟨k, offset, rfl⟩ := Option.map_eq_some_iff.mp fixes
      refine ⟨rfl, rfl, rfl, ?_⟩
      cases op with
      | ldAbs | ldInd | ldxMsh => exact offset
      | _ => cases loads
    | false =>
      have same : fixed = p := by
        split at fixes
        case isTrue isLoad =>
          rw [if_neg fun mode => absurd (load.mpr ⟨isLoad, mode⟩) (by simp [loads])] at fixes
          exact (Option.some.inj fixes).symm
        case isFalse => exact (Option.some.inj fixes).symm
      subst same
      refine ⟨rfl, rfl, rfl, ?_⟩
      cases op with
      | ldAbs | ldInd | ldxMsh => cases loads
      | retK => exact absurd rfl moves.1
      | retA => trivial
      | _ => rfl

/-- The kernel does the same as the library for an instruction that it sees, apart from the value of
a return. -/
theorem kernelEffect_eq {pkt : CookedPacket} {op : Op} {fixed : Word} {m : Machine}
    (sees : kernelSees pkt op k m) (fixes : FixesTo op k fixed) (moves : op ≠ .retK) :
    kernelEffect pkt op fixed m = op.effect k pkt.packet m := by
  have behind : ∀ {k fixed : Word}, fixOffset k = some fixed → sllHdrLen ≤ k.toNat →
      fixed = k - 16 := by
    intro k fixed fixes above
    rw [fixOffset, if_pos above] at fixes
    exact (Option.some.inj fixes).symm
  cases op with
  | retK => exact absurd rfl moves
  | retA => rfl
  | ldAbs size =>
    simp only [FixesTo] at fixes
    simp only [kernelSees, fixes, Option.getD_some, behindHeader, bothLeave, decide_eq_true_eq]
      at sees
    rcases sees with ⟨above, small⟩ | ⟨rfl, rfl | ⟨rfl, known⟩⟩ | ⟨⟨leaves, leavesFixed⟩, plain⟩
    · cases behind fixes above
      have low := toNat_sub_header above
      have plain : pkt.ancillary (k - 16) = none := by
        have protocol : k - 16 ≠ adProtocol := fun same => by
          rw [same] at low
          exact absurd low (by unfold adProtocol; simp; omega)
        have pkttype : k - 16 ≠ adPkttype := fun same => by
          rw [same] at low
          exact absurd low (by unfold adPkttype; simp; omega)
        rw [CookedPacket.ancillary, if_neg protocol, if_neg pkttype]
      simp only [kernelEffect, Op.effect, plain, Option.none_or, pkt.field_sub above small,
        read_touched small]
    · cases (Option.some.inj fixes : adProtocol = fixed)
      have field : pkt.ancillary adProtocol = some (Packet.bigEndian pkt.sll.protocol) := rfl
      simp only [kernelEffect, Op.effect, field, Option.some_or,
        read_touched (show (14 : Word).toNat < 2 ^ 31 by decide), pkt.field_protocol]
    · cases (Option.some.inj fixes : adPkttype = fixed)
      have field : pkt.ancillary adPkttype = some (pkt.sll.pkttype.setWidth 32) := rfl
      simp only [kernelEffect, Op.effect, field, Option.some_or,
        read_touched (show (0 : Word).toNat < 2 ^ 31 by decide), pkt.field_pkttype known]
    · simp only [kernelEffect, Op.effect, plain, leaves, leavesFixed, Option.none_or]
      rfl
  | ldInd size =>
    simp only [FixesTo] at fixes
    simp only [kernelSees, fixes, Option.getD_some, behindHeader, bothLeave, decide_eq_true_eq]
      at sees
    rcases sees with ⟨above, aboveSum, small⟩ | ⟨leaves, leavesFixed⟩
    · cases behind fixes above
      -- both machines wrap the sum, so that the header is subtracted from the wrapped index
      have shifted : m.X + (k - 16) = m.X + k - 16 := by
        rw [BitVec.sub_eq_add_neg, BitVec.sub_eq_add_neg, BitVec.add_assoc]
      simp only [kernelEffect, Op.effect, shifted, pkt.field_sub aboveSum small,
        read_touched small]
    · simp only [kernelEffect, Op.effect, leaves, leavesFixed]
      rfl
  | ldxMsh =>
    simp only [FixesTo] at fixes
    simp only [kernelSees, fixes, Option.getD_some, behindHeader, decide_eq_true_eq] at sees
    rcases sees with ⟨above, small⟩ | ⟨leaves, leavesFixed⟩
    · cases behind fixes above
      simp only [kernelEffect, Op.effect, pkt.field_sub above small, read_touchedMsh small]
    · simp only [kernelEffect, Op.effect, leaves, leavesFixed]
      rfl
  | ldLen => cases sees
  | ldxLen => cases sees
  | _ =>
    cases fixes
    rfl

/-! ## Runs -/

/-- Every instruction of the rewritten filter comes from one of the original filter. -/
theorem fixProgram_getElem? (fixes : fixProgram cooked isMmapped prog = some fixed) (n : Nat) :
    (prog[n]? = none ∧ fixed[n]? = none) ∨
      ∃ p q, prog[n]? = some p ∧ fixed[n]? = some q ∧ fixInsn cooked isMmapped p = some q := by
  induction prog generalizing fixed n with
  | nil =>
    cases fixes
    exact .inl ⟨rfl, rfl⟩
  | cons p rest ih =>
    obtain ⟨first, here, later⟩ := Option.bind_eq_some_iff.mp fixes
    obtain ⟨others, restFixes, rfl⟩ := Option.map_eq_some_iff.mp later
    cases n with
    | zero => exact .inr ⟨p, first, rfl, rfl, here⟩
    | succ n => exact ih restFixes n

theorem fixProgram_fetch (fixes : fixProgram cooked isMmapped prog = some fixed) (pc : Int) :
    (fetch prog pc = none ∧ fetch fixed pc = none) ∨
      ∃ p q, fetch prog pc = some p ∧ fetch fixed pc = some q ∧
        fixInsn cooked isMmapped p = some q := by
  unfold fetch
  split
  case isTrue => exact fixProgram_getElem? fixes pc.toNat
  case isFalse => exact .inl ⟨rfl, rfl⟩

theorem fixInsn_code {p q : Insn} (fixes : fixInsn cooked isMmapped p = some q) :
    q.code = p.code := by
  have offset : ((fixOffset p.k).map fun k => { p with k }) = some q → q.code = p.code := by
    intro found
    obtain ⟨k, -, rfl⟩ := Option.map_eq_some_iff.mp found
    rfl
  unfold fixInsn at fixes
  repeat' split at fixes
  all_goals
    first
      | exact offset fixes
      | cases fixes; rfl

/-- Whether a filter accepts the packet. -/
def Accepts : Result → Bool
  | .ret value => value ≠ 0
  | _ => false

/-- The kernel sees what the next instruction loads. -/
def seesNext (prog : List Insn) (pkt : CookedPacket) (s : State) : Bool :=
  (fetch prog s.pc).all fun i => (decode i.code).all fun op => kernelSees pkt op i.k s.m

/-- One step of the rewritten filter in the kernel. -/
theorem kernelStep_eq {pkt : CookedPacket} {s : State}
    (fixes : fixProgram true isMmapped prog = some fixed) (sees : seesNext prog pkt s) :
    (kernelStep fixed pkt).observe Accepts s = (step prog pkt.packet).observe Accepts s := by
  unfold kernelStep Step.observe
  rw [step_eq_stepWith]
  unfold stepWith
  rcases fixProgram_fetch fixes s.pc with ⟨past, pastFixed⟩ | ⟨p, q, fetched, fetchedFixed, insn⟩
  · rw [past, pastFixed]
  rw [fetched, fetchedFixed]
  dsimp only
  rw [fixInsn_code insn]
  cases decoded : decode p.code with
  | none => rfl
  | some op =>
    obtain ⟨-, jt, jf, constant⟩ := fixInsn_of_decode decoded insn
    simp only [seesNext, fetched, decoded, Option.all_some] at sees
    dsimp only
    by_cases returns : op = .retK
    · subst returns
      exact congrArg Next.stop (decide_eq_decide.mpr (not_congr constant))
    · rw [kernelEffect_eq sees constant returns, jt, jf]
      cases effect : op.effect p.k pkt.packet s.m with
      | jump =>
        cases Op.effect_jump effect
        rw [show q.k = p.k from constant]
      | _ => rfl

theorem accepts_iff {step : Step State Result} {s : State} :
    (step.observe Accepts).Stops s true ↔ ∃ v, v ≠ 0 ∧ step.Stops s (.ret v) := by
  rw [Step.stops_observe]
  constructor
  · rintro ⟨result, stops, accepted⟩
    cases result with
    | ret v => exact ⟨v, of_decide_eq_true accepted, stops⟩
    | _ => cases accepted
  · rintro ⟨v, nonzero, stops⟩
    exact ⟨.ret v, stops, decide_eq_true nonzero⟩

/-- The filter that `fix_program` makes, run by the kernel, accepts a packet if and only if the
original filter accepts it with its header, if the kernel sees everything that the original filter
loads in its run on that packet. -/
theorem fixProgram_faithful {isMmapped : Bool} {prog fixed : List Insn}
    (fixes : fixProgram true isMmapped prog = some fixed) (pkt : CookedPacket)
    (mem : Fin memWords → Word)
    (sees : (step prog pkt.packet).Always (fun s => seesNext prog pkt s) (.init mem)) :
    (∃ v, v ≠ 0 ∧ (kernelStep fixed pkt).Stops (.init mem) (.ret v)) ↔
      ∃ v, v ≠ 0 ∧ (step prog pkt.packet).Stops (.init mem) (.ret v) := by
  rw [← accepts_iff, ← accepts_iff]
  refine (Step.stops_congr fun s path => ?_).symm
  exact kernelStep_eq fixes (sees s (Step.reaches_observe.mp path))

/-- A packet of the given type and protocol. -/
def cookedPacket (pkttype : BitVec 8) (payload : List (BitVec 8))
    (short : payload.length + sllHdrLen < 2 ^ 32) : CookedPacket where
  sll := ⟨1, pkttype, 1, 6, [], [8, 0]⟩
  addr := [0, 0, 0, 0, 0, 0, 0, 0]
  payload := payload
  around _ := 0
  length_addr := rfl
  length_protocol := rfl
  length_lt := short

/-- A filter for TCP packets. -/
def tcpFilter : List Insn :=
  [⟨0x28, 0, 0, 14⟩, ⟨0x15, 0, 3, 0x800⟩, ⟨0x30, 0, 0, 25⟩, ⟨0x15, 0, 1, 6⟩, ⟨6, 0, 0, 65535⟩,
    ⟨6, 0, 0, 0⟩]

def tcpPacket : CookedPacket := cookedPacket 0 [0x45, 0, 0, 20, 0, 0, 0, 0, 64, 6] (by decide)

/-- A filter for TCP packets accepts one in the kernel. -/
theorem fixProgram_faithful_tcp :
    ∃ fixed, fixProgram true true tcpFilter = some fixed ∧ fixed ≠ tcpFilter ∧
      ∃ v, v ≠ 0 ∧ (kernelStep fixed tcpPacket).Stops (.init fun _ => 0) (.ret v) := by
  have fixes : fixProgram true true tcpFilter = some _ := rfl
  have checked : (step tcpFilter tcpPacket.packet).checksFor (seesNext tcpFilter tcpPacket) 9
      (.init fun _ => 0) = true := by decide +kernel
  refine ⟨_, fixes, by decide +kernel, ?_⟩
  refine (fixProgram_faithful fixes tcpPacket _ (Step.always_of_checksFor checked)).mpr ?_
  exact ⟨65535, by decide, Step.stops_iff_runFor.mpr ⟨9, rfl⟩⟩

/-- A filter that tests the first byte of the header accepts an outgoing packet, and one that tests
the length of the packet accepts a short one. The filters that are made of them for the kernel
reject these packets. -/
theorem fixed_filter_rejects :
    ∃ bytes len bytesFixed lenFixed pkt,
      fixProgram true true bytes = some bytesFixed ∧ fixProgram true true len = some lenFixed ∧
      (step bytes (CookedPacket.packet pkt)).Stops (.init fun _ => 0) (.ret 65535) ∧
      (kernelStep bytesFixed pkt).Stops (.init fun _ => 0) (.ret 0) ∧
      (step len pkt.packet).Stops (.init fun _ => 0) (.ret 65535) ∧
      (kernelStep lenFixed pkt).Stops (.init fun _ => 0) (.ret 0) := by
  refine ⟨[⟨0x30, 0, 0, 0⟩, ⟨0x15, 0, 1, 0⟩, ⟨6, 0, 0, 65535⟩, ⟨6, 0, 0, 0⟩],
    [⟨0x80, 0, 0, 0⟩, ⟨0x35, 0, 1, 20⟩, ⟨6, 0, 0, 65535⟩, ⟨6, 0, 0, 0⟩], _, _,
    cookedPacket 4 [1, 2, 3, 4] (by decide), rfl, rfl, ?_, ?_, ?_, ?_⟩
  all_goals exact Step.stops_iff_runFor.mpr ⟨4, rfl⟩

end Libpcap.Linux
