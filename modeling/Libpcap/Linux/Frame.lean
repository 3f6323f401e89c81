/-
# One frame of a Linux capture

A live capture on Linux gets its frames from a ring shared with the kernel, or from a
socket. `pcap_handle_packet_mmap` handles a frame of the ring, `pcap_read_packet` one of
the socket. In cooked mode both prepend a pseudo-header, both insert a VLAN tag that the
kernel took out, and both cut the packet at the snapshot length.

When the filter is run by the library, the second function runs it on the packet that
the callback gets. The first one runs it on the frame in the ring, before it is changed.
So the filter sees what the user sees, and the two functions accept the same packets, if
and only if nothing is changed.
-/

import Libpcap.Bpf.Filter

namespace Libpcap.Linux

open Libpcap.Bpf

/-! ## Packets as the filter and the callback see them -/

/-- The captured bytes and the length on the wire. -/
structure View where
  bytes : List (BitVec 8)
  wirelen : Word
  deriving DecidableEq, Repr

/-- A filter program, by what `bpf_filter` returns for a packet. -/
abbrev Filter := View → Word

/-- What `bpf_filter` returns for a valid program, which stops after at most as many steps as it
has instructions. -/
def Filter.ofProgram (insns : List Insn) : Filter := fun v =>
  if captured : v.bytes.length < 2 ^ 32 then
    match bpfFilter (insns.length + 1) (some insns) ⟨v.bytes, v.wirelen, fun _ => 0, captured⟩
      fun _ => 0 with
    | .stop (.ret k) => k
    | _ => 0
  else 0

/-- Two bytes in network order. -/
def be16 (x : BitVec 16) : List (BitVec 8) := [x.extractLsb' 8 8, x.extractLsb' 0 8]

def sllHdrLen : Nat := 16

def vlanTagLen : Nat := 4

namespace View

/-- Prepend a header. -/
def prepend (v : View) (header : List (BitVec 8)) : View :=
  ⟨header ++ v.bytes, v.wirelen + BitVec.ofNat 32 sllHdrLen⟩

/-- Insert a VLAN tag, with `ETH_P_8021Q`. -/
def insertTag (v : View) (offset : Nat) (tci : BitVec 16) : View :=
  ⟨v.bytes.take offset ++ be16 0x8100 ++ be16 tci ++ v.bytes.drop offset,
    v.wirelen + BitVec.ofNat 32 vlanTagLen⟩

/-- Prepend the pseudo-header of cooked mode, if there is one. -/
def cook (v : View) : Option (List (BitVec 8)) → View
  | none => v
  | some header => v.prepend header

/-- Insert a tag at an offset, if there is one. -/
def tag (v : View) : Option (Nat × BitVec 16) → View
  | none => v
  | some (offset, tci) => v.insertTag offset tci

/-- Keep at most `caplen` bytes. -/
def trim (v : View) (caplen : Nat) : View := { v with bytes := v.bytes.take caplen }

end View

/-! ## Handles and frames -/

/-- `pcap_direction_t` -/
inductive Direction
  | inout
  | incoming
  | outgoing
  deriving DecidableEq, Repr

/-- `struct sockaddr_ll`; the protocol is in network order. -/
structure SockaddrLl where
  ifindex : Int
  pkttype : BitVec 8
  hatype : BitVec 16
  halen : BitVec 8
  addr : List (BitVec 8)
  protocol : List (BitVec 8)
  deriving DecidableEq, Repr

/-- What is set up when a capture is activated; `none` is the `vlan_offset` -1. -/
structure Handle where
  cooked : Bool
  vlanOffset : Option Nat
  snapshot : Nat
  bufsize : Nat
  tpHdrlen : Nat
  ifindex : Int
  loIfindex : Int
  direction : Direction
  deriving DecidableEq, Repr

def packetOutgoing : BitVec 8 := 4

/-- `linux_check_direction` -/
def checkDirection (h : Handle) (sll : SockaddrLl) : Bool :=
  if sll.pkttype = packetOutgoing then
    sll.ifindex ≠ h.loIfindex ∧ h.direction ≠ .incoming
  else h.direction ≠ .outgoing

/-- `map_packet_type_to_sll_type`: the types 0 to 4 have the same numbers in the header. -/
def mapPacketTypeToSllType (pkttype : BitVec 8) : BitVec 16 :=
  if pkttype.toNat ≤ 4 then pkttype.setWidth 16 else -1

/-- `struct sll_header`, with the given bytes in its address field. -/
def sllHeader (sll : SockaddrLl) (addr : List (BitVec 8)) : List (BitVec 8) :=
  be16 (mapPacketTypeToSllType sll.pkttype) ++ be16 sll.hatype ++ be16 (sll.halen.setWidth 16) ++
    addr ++ sll.protocol

/-- How a frame was handled: the error, or whether it was delivered; the packet that the filter
was run on; and the packet that the callback got. -/
structure Handled where
  ret : Except String Bool
  filtered : Option View
  delivered : Option View

/-! ## A frame of the ring -/

/-- A frame in the ring: its header, and the bytes that the kernel copied. The tag is valid if
`tp_vlan_tci` is not 0 or has the status bit for it. -/
structure RingFrame where
  tpLen : Word
  tpMac : Nat
  data : List (BitVec 8)
  sll : SockaddrLl
  tciValid : Bool
  tci : BitVec 16
  data_lt : data.length < 2 ^ 31

def RingFrame.tpSnaplen (f : RingFrame) : Nat := f.data.length

def RingFrame.view (f : RingFrame) : View := ⟨f.data, f.tpLen⟩

/-- The tag that is put into the frame, and its offset. -/
def ringTag (h : Handle) (f : RingFrame) : Option (Nat × BitVec 16) :=
  h.vlanOffset.bind fun offset =>
    if f.tciValid ∧ offset ≤ f.tpSnaplen then some (offset, f.tci) else none

/-- The packet that `pcap_handle_packet_mmap` makes of a frame. -/
def mmapView (h : Handle) (f : RingFrame) : View :=
  let header := if h.cooked then some (sllHeader f.sll f.sll.addr) else none
  ((f.view.cook header).tag (ringTag h f)).trim h.snapshot

def tpacketAlign (n : Nat) : Nat := (n + 15) / 16 * 16

/-- The error for a frame that does not fit. -/
def corruptedFrame (h : Handle) (f : RingFrame) : String :=
  let mac := f.tpMac
  let caplen := f.tpSnaplen
  let bufsize := h.bufsize
  s!"corrupted frame on kernel ring mac offset {mac} + caplen {caplen} > frame len {bufsize}"

/-- `pcap_handle_packet_mmap`, where `filter` is the program if it is run by the library. -/
def handlePacketMmap (h : Handle) (filter : Option Filter) (f : RingFrame) : Handled :=
  let filtered := filter.map fun _ => f.view
  if h.bufsize < (f.tpMac + f.tpSnaplen) % 2 ^ 32 then ⟨.error (corruptedFrame h f), none, none⟩
  else if filter.any fun p => p f.view = 0 then ⟨.ok false, filtered, none⟩
  else if ¬ checkDirection h f.sll then ⟨.ok false, filtered, none⟩
  -- `sizeof(struct sockaddr_ll)` is 20
  else if h.cooked ∧ f.tpMac < sllHdrLen + tpacketAlign h.tpHdrlen + 20 then
    ⟨.error "cooked-mode frame doesn't have room for sll header", filtered, none⟩
  else ⟨.ok true, filtered, some (mmapView h f)⟩

/-! ## A frame of the socket -/

/-- A frame from the socket: the bytes that fit into the buffer, the length on the wire, the tag
from the control message, if there is one, what the address field of the buffer held before, and
the error of the request for the time stamp. -/
structure RecvFrame where
  packetLen : Word
  data : List (BitVec 8)
  sll : SockaddrLl
  aux : Option (BitVec 16 × Bool)
  stale : List (BitVec 8)
  stampError : Option String

/-- `iov_len`, the room for the frame. -/
def iovLen (h : Handle) : Nat := h.bufsize - if h.cooked then sllHdrLen else 0

/-- The tag, if it is valid: its number is not 0, or its status bit is set. -/
def RecvFrame.validTag (r : RecvFrame) : Option (BitVec 16) :=
  r.aux.bind fun (tci, valid) => if tci = 0 ∧ ¬ valid then none else some tci

/-- The address field: `sll_halen` bytes of the address, up to `SLL_ADDRLEN`. -/
def RecvFrame.addr (r : RecvFrame) : List (BitVec 8) :=
  let n := min r.sll.halen.toNat 8
  r.sll.addr.take n ++ r.stale.drop n

/-- The tag that is put into a packet of `len` bytes on the wire, and its offset. -/
def recvTag (h : Handle) (r : RecvFrame) (len : Word) : Option (Nat × BitVec 16) :=
  h.vlanOffset.bind fun offset =>
    r.validTag.bind fun tci =>
      if offset ≤ min len.toNat (iovLen h) then some (offset, tci) else none

/-- The packet that `pcap_read_packet` makes of a frame. -/
def readView (h : Handle) (r : RecvFrame) : View :=
  let header := if h.cooked then some (sllHeader r.sll r.addr) else none
  let v := View.cook ⟨r.data, r.packetLen⟩ header
  let v := v.tag (recvTag h r v.wirelen)
  v.trim (min v.wirelen.toNat h.snapshot)

/-- `pcap_read_packet`, from the received frame on. -/
def readPacket (h : Handle) (filter : Option Filter) (r : RecvFrame) : Handled :=
  if h.ifindex ≠ -1 ∧ r.sll.ifindex ≠ h.ifindex then ⟨.ok false, none, none⟩
  else if ¬ checkDirection h r.sll then ⟨.ok false, none, none⟩
  else
    let v := readView h r
    let filtered := filter.map fun _ => v
    if filter.any fun p => p v = 0 then ⟨.ok false, filtered, none⟩
    else
      match r.stampError with
      | some message => ⟨.error message, filtered, none⟩
      | none => ⟨.ok true, filtered, some v⟩

/-! ## What the filter sees -/

/-- A frame of the ring that is delivered as it is. -/
structure Plain (h : Handle) (f : RingFrame) : Prop where
  raw : h.cooked = false
  untagged : ringTag h f = none
  short : f.tpSnaplen ≤ h.snapshot

/-- `ld #pktlen; jeq #len, 0, 1; ret #0; ret #1` -/
def otherLength (len : Word) : List Insn :=
  [⟨bpfLd ||| bpfW ||| bpfLen, 0, 0, 0⟩, ⟨bpfJmp ||| bpfJeq ||| bpfK, 0, 1, len⟩,
    ⟨bpfRet ||| bpfK, 0, 0, 0⟩, ⟨bpfRet ||| bpfK, 0, 0, 1⟩]

/-- `ldb [k]; ret #1` -/
def hasByte (k : Word) : List Insn :=
  [⟨bpfLd ||| bpfB ||| bpfAbs, 0, 0, k⟩, ⟨bpfRet ||| bpfK, 0, 0, 1⟩]

section Programs

variable {v : View} (captured : v.bytes.length < 2 ^ 32)
include captured

theorem ofProgram_otherLength (len : Word) :
    Filter.ofProgram (otherLength len) v = if v.wirelen = len then 0 else 1 := by
  let p : Packet := ⟨v.bytes, v.wirelen, fun _ => 0, captured⟩
  have branch : bpfFilter 5 (some (otherLength len)) p (fun _ => 0) =
      (step (otherLength len) p).runFor 3
        ⟨2 + if v.wirelen == len then 0 else 1, ⟨v.wirelen, 0, fun _ => 0⟩⟩ := rfl
  rw [Filter.ofProgram, dif_pos captured]
  change (match bpfFilter 5 (some (otherLength len)) p (fun _ => 0) with
    | .stop (.ret k) => k
    | _ => 0) = _
  rw [branch]
  by_cases same : v.wirelen = len
  · rw [if_pos same, if_pos (beq_iff_eq.mpr same)]
    rfl
  · rw [if_neg same, if_neg (by simpa using same)]
    rfl

theorem ofProgram_hasByte (k : Word) :
    Filter.ofProgram (hasByte k) v = if v.bytes.length ≤ k.toNat then 0 else 1 := by
  let p : Packet := ⟨v.bytes, v.wirelen, fun _ => 0, captured⟩
  have first : step (hasByte k) p (.init fun _ => 0) =
      if v.bytes.length ≤ k.toNat then .stop (.reject .load)
      else .go ⟨1, ⟨Packet.bigEndian [p.byteAt k.toInt], 0, fun _ => 0⟩⟩ := by
    have load : decode (bpfLd ||| bpfB ||| bpfAbs) = some (.ldAbs .b) := by decide
    have touched : p.touched .b k = if v.bytes.length ≤ k.toNat then none else some [k.toInt] := rfl
    simp only [step, hasByte, State.init, fetch, le_refl, if_true, Int.toNat_zero,
      List.getElem?_cons_zero, load, Op.effect, touched]
    by_cases short : v.bytes.length ≤ k.toNat
    · rw [if_pos short, if_pos short]
      rfl
    · rw [if_neg short, if_neg short]
      rfl
  rw [Filter.ofProgram, dif_pos captured]
  change (match (step (hasByte k) p).runFor 3 (.init fun _ => 0) with
    | .stop (.ret k) => k
    | _ => 0) = _
  rw [Libpcap.Semantics.Step.runFor, first]
  by_cases short : v.bytes.length ≤ k.toNat
  · rw [if_pos short, if_pos short]
  · rw [if_neg short, if_neg short]
    rfl

end Programs

section Views

variable {h : Handle} {f : RingFrame} {r : RecvFrame} {v : View}

/-- The length on the wire tells whether a header or a tag was added. -/
theorem wirelen_eq_iff {header : Option (List (BitVec 8))} {tag : Option (Nat × BitVec 16)} :
    ((v.cook header).tag tag).wirelen = v.wirelen ↔ header = none ∧ tag = none := by
  have added : ∀ n : Word, n ≠ 0 → v.wirelen + n ≠ v.wirelen := by
    intro n nonzero same
    have cancelled : v.wirelen + n = v.wirelen + 0 := by
      rw [same]
      exact (BitVec.add_zero _).symm
    exact nonzero ((BitVec.add_right_inj v.wirelen).mp cancelled)
  cases header with
  | none =>
    cases tag with
    | none => exact iff_of_true rfl ⟨rfl, rfl⟩
    | some tag => exact iff_of_false (added 4 (by decide)) nofun
  | some header =>
    cases tag with
    | none => exact iff_of_false (added 16 (by decide)) nofun
    | some tag =>
      have both : v.wirelen + 16 + 4 ≠ v.wirelen := by
        rw [BitVec.add_assoc]
        exact added (16 + 4) (by decide)
      exact iff_of_false both nofun

theorem trim_eq_self_iff {caplen : Nat} : v.trim caplen = v ↔ v.bytes.length ≤ caplen := by
  constructor
  · intro same
    have bytes := congrArg (fun u => u.bytes.length) same
    simp only [View.trim, List.length_take] at bytes
    omega
  · intro short
    rw [View.trim, List.take_of_length_le short]

/-- A packet that is built from a view is the view exactly if nothing is added or cut. -/
theorem built_eq_iff {header : Option (List (BitVec 8))} {tag : Option (Nat × BitVec 16)}
    {caplen : Nat} :
    ((v.cook header).tag tag).trim caplen = v ↔
      header = none ∧ tag = none ∧ v.bytes.length ≤ caplen := by
  constructor
  · intro same
    have length : (((v.cook header).tag tag).trim caplen).wirelen = v.wirelen := by rw [same]
    obtain ⟨rfl, rfl⟩ := wirelen_eq_iff.mp length
    exact ⟨rfl, rfl, trim_eq_self_iff.mp same⟩
  · rintro ⟨rfl, rfl, short⟩
    exact trim_eq_self_iff.mpr short

/-- A packet that is built from a view and is not the view is told apart from it by a program,
which looks at the length on the wire or at the last captured byte. -/
theorem exists_program_of_ne {header : Option (List (BitVec 8))} {tag : Option (Nat × BitVec 16)}
    {caplen : Nat} (captured : v.bytes.length < 2 ^ 32) (small : caplen < 2 ^ 32)
    (different : ((v.cook header).tag tag).trim caplen ≠ v) :
    ∃ insns, ¬ (Filter.ofProgram insns v = 0 ↔
      Filter.ofProgram insns (((v.cook header).tag tag).trim caplen) = 0) := by
  have captured' : (((v.cook header).tag tag).trim caplen).bytes.length < 2 ^ 32 :=
    (List.length_take_le _ _).trans_lt small
  by_cases length : (((v.cook header).tag tag).trim caplen).wirelen = v.wirelen
  · obtain ⟨rfl, rfl⟩ := wirelen_eq_iff.mp length
    have cut : caplen < v.bytes.length := Nat.lt_of_not_le fun whole =>
      different (trim_eq_self_iff.mpr whole)
    have last : (BitVec.ofNat 32 (v.bytes.length - 1)).toNat = v.bytes.length - 1 := by
      rw [BitVec.toNat_ofNat, Nat.mod_eq_of_lt (by omega)]
    refine ⟨hasByte (BitVec.ofNat 32 (v.bytes.length - 1)), ?_⟩
    rw [ofProgram_hasByte captured, ofProgram_hasByte captured', last, if_neg (by omega), if_pos]
    · decide
    · exact (List.length_take_le _ _).trans (Nat.le_sub_one_of_lt cut)
  · refine ⟨otherLength v.wirelen, ?_⟩
    rw [ofProgram_otherLength captured, ofProgram_otherLength captured', if_pos rfl, if_neg length]
    decide

/-- The callback gets the frame of the ring as it is. -/
theorem mmapView_eq_iff : mmapView h f = f.view ↔ Plain h f := by
  rw [mmapView, built_eq_iff]
  constructor
  · rintro ⟨header, untagged, short⟩
    refine ⟨?_, untagged, short⟩
    cases cooked : h.cooked with
    | false => rfl
    | true =>
      rw [cooked] at header
      exact absurd header nofun
  · rintro ⟨raw, untagged, short⟩
    exact ⟨by rw [raw]; rfl, untagged, short⟩

/-- The same frame, received from the ring and from the socket: the same bytes, as many as fit
into the buffer of the socket, which holds a packet of the snapshot length. -/
structure SameFrame (h : Handle) (f : RingFrame) (hRead : Handle) (r : RecvFrame) : Prop where
  cooked : hRead.cooked = h.cooked
  vlanOffset : hRead.vlanOffset = h.vlanOffset
  snapshot : hRead.snapshot = h.snapshot
  data : r.data = f.data
  packetLen : r.packetLen = f.tpLen
  tag : r.validTag = if f.tciValid then some f.tci else none
  filled : r.data.length = min r.packetLen.toNat (iovLen hRead)
  room : hRead.snapshot ≤ hRead.bufsize

variable {hRead : Handle}

/-- Outside cooked mode both functions put in the same tag. -/
theorem SameFrame.tag_eq (same : SameFrame h f hRead r) :
    recvTag hRead r r.packetLen = ringTag h f := by
  have inside : ∀ offset, offset ≤ min r.packetLen.toNat (iovLen hRead) ↔ offset ≤ f.tpSnaplen := by
    intro offset
    rw [← same.filled, same.data, RingFrame.tpSnaplen]
  rw [recvTag, ringTag, same.vlanOffset, same.tag]
  cases h.vlanOffset with
  | none => rfl
  | some offset =>
    cases f.tciValid with
    | false => simp
    | true => simp only [Option.bind_some, if_true, inside offset, true_and]

/-- A frame that is not delivered as it is has a program that the two packets tell apart. -/
theorem SameFrame.exists_program (same : SameFrame h f hRead r) (different : readView hRead r ≠ f.view) :
    ∃ insns, ¬ (Filter.ofProgram insns f.view = 0 ↔
      Filter.ofProgram insns (readView hRead r) = 0) := by
  have start : (⟨r.data, r.packetLen⟩ : View) = f.view := by
    rw [same.data, same.packetLen, RingFrame.view]
  rw [readView, start] at different ⊢
  exact exists_program_of_ne (f.data_lt.trans (by decide))
    ((min_le_left _ _).trans_lt (BitVec.isLt _)) different

/-- `pcap_read_packet` runs the filter on the frame of the ring exactly if that is delivered as
it is. -/
theorem SameFrame.readView_eq_iff (same : SameFrame h f hRead r) :
    readView hRead r = f.view ↔ Plain h f := by
  have start : (⟨r.data, r.packetLen⟩ : View) = f.view := by
    rw [same.data, same.packetLen, RingFrame.view]
  have filled := same.filled
  have room := same.room
  rw [readView, start]
  cases cooked : h.cooked with
  | true =>
    rw [if_pos (same.cooked.trans cooked)]
    refine iff_of_false (fun equal => ?_) (fun plain => absurd (plain.raw.symm.trans cooked) nofun)
    exact absurd (built_eq_iff.mp equal).1 nofun
  | false =>
    rw [if_neg (by rw [same.cooked, cooked]; nofun), built_eq_iff]
    have length : (View.cook f.view none).wirelen = r.packetLen := same.packetLen.symm
    rw [length, same.tag_eq]
    constructor
    · rintro ⟨-, untagged, short⟩
      refine ⟨cooked, untagged, ?_⟩
      rw [← same.snapshot]
      exact short.trans (min_le_right _ _)
    · rintro ⟨-, untagged, short⟩
      refine ⟨rfl, untagged, ?_⟩
      have whole : iovLen hRead = hRead.bufsize := by
        rw [iovLen, same.cooked, cooked]
        rfl
      have wire : (View.tag (View.cook f.view none) (ringTag h f)).wirelen = r.packetLen := by
        rw [untagged]
        exact same.packetLen.symm
      rw [wire]
      change f.tpSnaplen ≤ _
      rw [RingFrame.tpSnaplen] at short ⊢
      rw [← same.data] at short ⊢
      rw [← same.snapshot] at short
      omega

/-- A frame of the ring that is delivered without a filter is delivered if the filter accepts it
as it is in the ring. -/
theorem handlePacketMmap_some (delivers : (handlePacketMmap h none f).ret = .ok true) (p : Filter) :
    handlePacketMmap h (some p) f =
      if p f.view = 0 then ⟨.ok false, some f.view, none⟩
      else ⟨.ok true, some f.view, some (mmapView h f)⟩ := by
  simp only [handlePacketMmap, Option.any_none, Option.map_none, Bool.false_eq_true, if_false]
    at delivers
  split at delivers
  case isTrue => exact absurd delivers nofun
  case isFalse fits =>
    split at delivers
    case isTrue => exact absurd delivers nofun
    case isFalse direction =>
      split at delivers
      case isTrue => exact absurd delivers nofun
      case isFalse room =>
        simp only [handlePacketMmap, if_neg fits, if_neg direction, if_neg room, Option.any_some,
          Option.map_some, decide_eq_true_eq]

/-- A frame of the socket that is delivered without a filter is delivered if the filter accepts
what the callback gets. -/
theorem readPacket_some (delivers : (readPacket h none r).ret = .ok true) (p : Filter) :
    readPacket h (some p) r =
      if p (readView h r) = 0 then ⟨.ok false, some (readView h r), none⟩
      else ⟨.ok true, some (readView h r), some (readView h r)⟩ := by
  simp only [readPacket, Option.any_none, Option.map_none, Bool.false_eq_true, if_false] at delivers
  split at delivers
  case isTrue => exact absurd delivers nofun
  case isFalse interface =>
    split at delivers
    case isTrue => exact absurd delivers nofun
    case isFalse direction =>
      split at delivers
      case h_1 => exact absurd delivers nofun
      case h_2 stamped =>
        simp only [readPacket, if_neg interface, if_neg direction, stamped, Option.any_some,
          Option.map_some, decide_eq_true_eq]

/-- What the filter sees when it is run by the library, for a frame that both functions deliver
without a filter. The packet from the socket is the delivered one. The packet from the ring is the
delivered one exactly if the frame is delivered as it is; then the two functions accept the frame
with the same filters, and otherwise some program is answered differently. -/
theorem filter_sees_delivered_iff (ring : (handlePacketMmap h none f).ret = .ok true)
    (socket : (readPacket hRead none r).ret = .ok true) (same : SameFrame h f hRead r) :
    (∀ p v, (readPacket hRead (some p) r).delivered = some v →
      (readPacket hRead (some p) r).filtered = some v) ∧
    (∀ p v, (handlePacketMmap h (some p) f).delivered = some v →
      ((handlePacketMmap h (some p) f).filtered = some v ↔ Plain h f)) ∧
    (Plain h f → ∀ p, (handlePacketMmap h (some p) f).delivered.isSome =
      (readPacket hRead (some p) r).delivered.isSome) ∧
    ((∀ insns, (handlePacketMmap h (some (.ofProgram insns)) f).delivered.isSome =
      (readPacket hRead (some (.ofProgram insns)) r).delivered.isSome) → Plain h f) := by
  refine ⟨?_, ?_, ?_, ?_⟩
  · intro p v delivered
    rw [readPacket_some socket] at delivered ⊢
    split at delivered
    case isTrue => exact absurd delivered nofun
    case isFalse accepted =>
      rw [if_neg accepted]
      exact delivered
  · intro p v delivered
    rw [handlePacketMmap_some ring] at delivered ⊢
    split at delivered
    case isTrue => exact absurd delivered nofun
    case isFalse accepted =>
      obtain rfl := Option.some.inj delivered
      rw [if_neg accepted, ← mmapView_eq_iff]
      exact ⟨fun filtered => (Option.some.inj filtered).symm, fun equal => congrArg some equal.symm⟩
  · intro plain p
    rw [handlePacketMmap_some ring, readPacket_some socket, same.readView_eq_iff.mpr plain]
    split <;> rfl
  · intro agree
    rw [← same.readView_eq_iff]
    by_contra different
    obtain ⟨insns, apart⟩ := same.exists_program different
    have verdicts := agree insns
    rw [handlePacketMmap_some ring, readPacket_some socket] at verdicts
    apply apart
    by_cases rejected : Filter.ofProgram insns f.view = 0
    · refine iff_of_true rejected (by_contra fun accepted => ?_)
      rw [if_pos rejected, if_neg accepted] at verdicts
      cases verdicts
    · refine iff_of_false rejected fun also => ?_
      rw [if_neg rejected, if_pos also] at verdicts
      cases verdicts

end Views

/-- A raw capture without VLAN tags delivers a frame of 20 bytes as it is. -/
theorem filter_sees_delivered_raw :
    ∃ (h : Handle) (f : RingFrame) (r : RecvFrame),
      Plain h f ∧ ∀ p, (handlePacketMmap h (some p) f).delivered.isSome =
        (readPacket h (some p) r).delivered.isSome := by
  let sll : SockaddrLl := ⟨2, 0, 1, 6, List.replicate 8 0, [8, 0]⟩
  let h : Handle := ⟨false, none, 96, 96, 32, 2, 1, .inout⟩
  let f : RingFrame := ⟨20, 66, List.replicate 20 0x45, sll, false, 0, by decide⟩
  let r : RecvFrame := ⟨20, List.replicate 20 0x45, sll, none, List.replicate 8 0, none⟩
  have plain : Plain h f := ⟨rfl, rfl, by decide⟩
  have same : SameFrame h f h r := ⟨rfl, rfl, rfl, rfl, rfl, rfl, by decide, by decide⟩
  exact ⟨h, f, r, plain, (filter_sees_delivered_iff rfl rfl same).2.2.1 plain⟩

/-- In cooked mode the filter for IPv4, `ldh [14]; jeq #0x800, 0, 1; ret #65535; ret #0`, rejects
an IPv4 packet from the ring and accepts it from the socket: in the ring the protocol number is
not yet there. -/
theorem cooked_packet_rejected :
    ∃ (h : Handle) (f : RingFrame) (hRead : Handle) (r : RecvFrame) (p : Filter),
      p = .ofProgram [⟨bpfLd ||| bpfH ||| bpfAbs, 0, 0, 14⟩,
        ⟨bpfJmp ||| bpfJeq ||| bpfK, 0, 1, 0x800⟩, ⟨bpfRet ||| bpfK, 0, 0, 65535⟩,
        ⟨bpfRet ||| bpfK, 0, 0, 0⟩] ∧
      SameFrame h f hRead r ∧
      (handlePacketMmap h (some p) f).filtered = some f.view ∧
      (handlePacketMmap h (some p) f).delivered = none ∧
      (readPacket hRead (some p) r).delivered = some (mmapView h f) := by
  let sll : SockaddrLl := ⟨2, 0, 1, 8, List.replicate 8 0, [8, 0]⟩
  refine ⟨⟨true, some 14, 96, 112, 32, 2, 1, .inout⟩,
    ⟨20, 82, List.replicate 20 0x45, sll, false, 0, by decide⟩,
    ⟨true, some 14, 96, 96, 32, 2, 1, .inout⟩,
    ⟨20, List.replicate 20 0x45, sll, none, List.replicate 8 0, none⟩, _, rfl,
    ⟨rfl, rfl, rfl, rfl, rfl, rfl, by decide, by decide⟩, ?_, ?_, ?_⟩
  · decide +kernel
  · decide +kernel
  · decide +kernel

end Libpcap.Linux
