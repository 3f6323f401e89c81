/-
# Reading pcap-ng savefiles

`pcap_ng_check_header` and `pcap_ng_next_packet` of `sf-pcap-ng.c`. A file consists of
sections, each begun by a section header block; in a section come interface
description blocks and, after them, the three kinds of packet blocks. Opening a
file reads up to its first interface; each later call reads blocks until it has a
packet. A call that fails leaves the handle as it is at that point, and may be
followed by another call.
-/

import Libpcap.Savefile.NgInterface

namespace Libpcap.Savefile

open Libpcap.Semantics Libpcap.Gencode

/-! ## Block types -/

def btShb : BitVec 32 := 0x0A0D0D0A
def btIdb : BitVec 32 := 0x00000001
def btPb : BitVec 32 := 0x00000002
def btSpb : BitVec 32 := 0x00000003
def btEpb : BitVec 32 := 0x00000006

def byteOrderMagic : BitVec 32 := 0x1A2B3C4D

def pcapNgVersionMajor : Nat := 1

/-! ## Packet blocks -/

/-- What a packet block says of its packet. -/
structure Found where
  interfaceId : BitVec 32
  caplen : BitVec 32
  len : BitVec 32
  t : BitVec 64

/-- The two halves of a time stamp. -/
def timestamp (high low : BitVec 32) : BitVec 64 :=
  high.setWidth 64 <<< 32 ||| low.setWidth 64

/-- The `BT_EPB` case. -/
def epb (p : NgSf) : Ng Found := do
  let raw ← fixedPart 20
  pure ⟨p.long 0 raw, p.long 12 raw, p.long 16 raw, timestamp (p.long 4 raw) (p.long 8 raw)⟩

/-- The `BT_SPB` case: the packet arrived on the first interface, has no time stamp, and
is cut to the snapshot length. -/
def spb (p : NgSf) : Ng Found := do
  let raw ← fixedPart 4
  let len := p.long 0 raw
  pure ⟨0, if p.snapshot < len then p.snapshot else len, len, 0⟩

/-- The `BT_PB` case. -/
def pb (p : NgSf) : Ng Found := do
  let raw ← fixedPart 20
  pure ⟨(p.short 0 raw).setWidth 32, p.long 12 raw, p.long 16 raw,
    timestamp (p.long 4 raw) (p.long 8 raw)⟩

/-! ## Interface and section blocks -/

/-- The `BT_IDB` case. The link type of the first interface was mapped, that of this
one is not. -/
def idb (p : NgSf) : Ng Unit := do
  let raw ← fixedPart 8
  let linktype := (p.short 0 raw).toNat
  let snaplen := (p.long 4 raw).toNat
  if p.linktype ≠ linktype then
    fail s!"an interface has a type {linktype} different from the type of the first interface"
  else if p.snapshot.toNat ≠ snaplen then
    fail (s!"an interface has a snapshot length {snaplen} " ++
      "different from the type of the first interface")
  else
    addInterface p

/-- The `BT_SHB` case: the interfaces of the last section are forgotten. -/
def shb (p : NgSf) : Ng Unit := do
  let raw ← fixedPart 16
  let majorVersion := (p.short 4 raw).toNat
  if p.long 0 raw = swapLong byteOrderMagic then
    fail "the file has sections with different byte orders"
  else if p.long 0 raw ≠ byteOrderMagic then
    fail "the file has a section with a bad byte order magic field"
  else if majorVersion ≠ pcapNgVersionMajor then
    fail s!"unknown pcap-ng savefile major version number {majorVersion}"
  else
    updateTable fun table => { table with ifcount := 0, sections := table.sections + 1 }

/-! ## The next packet -/

/-- The loop of `pcap_ng_next_packet`: `none` at the end of the file. The first argument
bounds the number of blocks. -/
def nextFound (p : NgSf) : Nat → Ng (Option Found)
  | 0 => throw (.fault .loop)
  | blocks + 1 => do
      if ← readBlock p then
        let state ← own
        if state.cursor.blockType = btEpb then some <$> epb p
        else if state.cursor.blockType = btSpb then some <$> spb p
        else if state.cursor.blockType = btPb then some <$> pb p
        else if state.cursor.blockType = btIdb then do
          idb p
          nextFound p blocks
        else if state.cursor.blockType = btShb then do
          shb p
          nextFound p blocks
        else
          nextFound p blocks
      else
        pure none

/-- The entry of an interface that has passed the check of its number. -/
def ifaceAt (i : Nat) : Ng NgIf := do
  let state ← own
  match state.table.entry i with
  | some entry => pure entry
  | none => throw (.fault .interfaces)

/-- The fraction of a second in the unit of the user, as the code computes it. -/
def NgIf.scaleFraction (entry : NgIf) (userTsresol : BitVec 32) (frac : BitVec 64) : BitVec 64 :=
  match entry.scaleType with
  | .passThrough => frac
  | .scaleUp => frac * entry.tsresol.setWidth 64 / userTsresol.setWidth 64
  | .scaleDown => frac * userTsresol.setWidth 64 / entry.tsresol.setWidth 64

/-- The time stamp of a packet as a `struct timeval`; both parts become `long`s. -/
def NgIf.toTimeval (entry : NgIf) (userTsresol : BitVec 32) (t : BitVec 64) : Timeval :=
  let sec := t / entry.tsresol.setWidth 64 + entry.tsoffset
  let frac := entry.scaleFraction userTsresol (t % entry.tsresol.setWidth 64)
  ⟨sec.toInt, frac.toInt⟩

/-- What follows the label `found`. -/
def deliverFound (p : NgSf) (found : Found) : Ng (Pkthdr × List Byte) := do
  let state ← own
  let interface := found.interfaceId.toNat
  if state.table.ifcount ≤ found.interfaceId then
    fail (s!"a packet arrived on interface {interface}, " ++
      "but there's no Interface Description Block for that interface")
  else do
    let entry ← ifaceAt interface
    if entry.tsresol = 0 then
      throw (.fault .division)
    else do
      let data ← fixedPart found.caplen.toNat
      pure (⟨entry.toTimeval p.userTsresol found.t, found.caplen, found.len⟩,
        p.toHost found.caplen.toNat data)

/-- `pcap_ng_next_packet`: `none` at the end of the file. Every block takes bytes of the
file. -/
def pcapNgNextPacket (p : NgSf) : Ng (Option (Pkthdr × List Byte)) := do
  let (file, _) ← get
  match ← nextFound p (file.unread.length + 1) with
  | none => pure none
  | some found => some <$> deliverFound p found

/-! ## Opening a file -/

/-- The loop of `pcap_ng_check_header` that looks for the first interface: its link type
and its snapshot length. -/
def firstInterface (p : NgSf) : Nat → Ng (BitVec 16 × BitVec 32)
  | 0 => throw (.fault .loop)
  | blocks + 1 => do
      if ← readBlock p then
        let state ← own
        if state.cursor.blockType = btIdb then
          let raw ← fixedPart 8
          addInterface p
          pure (p.short 0 raw, p.long 4 raw)
        else if state.cursor.blockType = btEpb ∨ state.cursor.blockType = btSpb ∨
            state.cursor.blockType = btPb then
          fail "the capture file has a packet block before any Interface Description Blocks"
        else
          firstInterface p blocks
      else
        fail "the capture file has no Interface Description Blocks"

/-- The smallest section header block: its header, its fixed part and its trailer. -/
def minShbLength : Nat := 28

/-- The handle before anything is known of its interfaces. -/
def NgSf.start (swapped : Bool) (precision totalLength : Nat) : NgSf where
  swapped := swapped
  tzoff := 0
  snapshot := 0
  linktype := 0
  linktypeExt := 0
  tstampPrecision := precision
  bufsize := max 2048 totalLength
  userTsresol := userTsresolOf precision

/-- The rest of `pcap_ng_check_header`, once the buffer is allocated: the first section
header, of which twelve bytes have been read, and the first interface. -/
def readSection (p : NgSf) (totalLength : Nat) : Ng NgSf := do
  update fun state => { state with buffer := some p.bufsize }
  updateTable fun table => { table with sections := 1 }
  storeBlock totalLength
  let rest ← readBytes (totalLength - 12) true
  let majorVersion := (p.short 0 (rest.getD [])).toNat
  if majorVersion ≠ pcapNgVersionMajor then
    fail s!"unknown pcap-ng savefile major version number {majorVersion}"
  else do
    let (file, _) ← get
    let (linktype, snaplen) ← firstInterface p (file.unread.length + 1)
    pure { p with snapshot := snaplen, linktype := linktypeToDlt linktype.toNat }

/-- The middle of `pcap_ng_check_header`: the checks and allocations once the byte order and
the length of the section header are known. A length of `2 ^ 31` bytes or more makes
`bufsize` negative and the size passed to `malloc` larger than any object. -/
def openSection (swapped : Bool) (precision totalLength : Nat) : Ng NgSf := do
  if totalLength < minShbLength then
    fail s!"Section Header Block in pcap-ng dump file has a length of {totalLength} < 28"
  else do
    let handle ← malloc
    if !handle then
      fail "malloc: Cannot allocate memory"
    else if precision ≠ tstampPrecisionMicro ∧ precision ≠ tstampPrecisionNano then
      fail s!"unknown time stamp resolution {precision}"
    else do
      let buffer ← malloc
      if !buffer ∨ 2 ^ 31 ≤ totalLength then
        fail "out of memory"
      else
        readSection (NgSf.start swapped precision totalLength) totalLength

/-- `pcap_ng_check_header`, after the first four bytes have been read: `none` if the file
is not a pcap-ng file. -/
def pcapNgCheckHeader (magic : BitVec 32) (precision : Nat) : Ng (Option NgSf) := do
  if magic ≠ btShb then
    pure none
  else do
    let totalLength ← fread 4
    let order ← fread 4
    if totalLength.length < 4 ∨ order.length < 4 then
      pure none
    else if long 0 order = byteOrderMagic then
      some <$> openSection false precision (long 0 totalLength).toNat
    else if swapLong (long 0 order) = byteOrderMagic then
      some <$> openSection true precision (swapLong (long 0 totalLength)).toNat
    else
      pure none

end Libpcap.Savefile
