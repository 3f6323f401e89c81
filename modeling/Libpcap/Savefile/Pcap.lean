/-
# Reading pcap savefiles

`pcap_check_header` and `pcap_next_packet` of `sf-pcap.c`. A savefile is a header
of 24 bytes and then records, each a header of its own and the captured bytes.
The file header decides how records are read: in which byte order, with a longer
record header in files of a patched library, with the two lengths interchanged in
old files, and with which scaling of the time stamps.

`records` is the format's own account of the stream behind the file header. The
routine follows it record by record as long as its calls succeed. A record that
does not fit the packet buffer is read through a static buffer and cut; in a file
of the other byte order the USB pseudo-headers are converted in place.
-/

import Libpcap.Savefile.Common

namespace Libpcap.Savefile

open Libpcap.Semantics Libpcap.Gencode

variable {s s' : File × Salvage}

/-! ## The file header -/

def tcpdumpMagic : BitVec 32 := 0xa1b2c3d4
def kuznetzovTcpdumpMagic : BitVec 32 := 0xa1b2cd34
def nsecTcpdumpMagic : BitVec 32 := 0xa1b23c4d

/-- The magic numbers of the formats that are read. -/
def isPcapMagic (magic : BitVec 32) : Bool :=
  magic == tcpdumpMagic || magic == kuznetzovTcpdumpMagic || magic == nsecTcpdumpMagic

/-- The magic number in the host's byte order, and whether it had to be swapped. -/
def pcapMagic (magic : BitVec 32) : Option (BitVec 32 × Bool) :=
  if isPcapMagic magic then some (magic, false)
  else if isPcapMagic (swapLong magic) then some (swapLong magic, true)
  else none

/-- `struct pcap_file_header` behind the magic number. -/
structure FileHeader where
  versionMajor : BitVec 16
  versionMinor : BitVec 16
  thiszone : BitVec 32
  sigfigs : BitVec 32
  snaplen : BitVec 32
  linktype : BitVec 32

/-- The header as it stands in memory after the swap, if there is one. -/
def FileHeader.read (swapped : Bool) (raw : List Byte) : FileHeader :=
  let hdr : FileHeader :=
    { versionMajor := short 0 raw
      versionMinor := short 2 raw
      thiszone := long 4 raw
      sigfigs := long 8 raw
      snaplen := long 12 raw
      linktype := long 16 raw }
  if swapped then
    { versionMajor := swapShort hdr.versionMajor
      versionMinor := swapShort hdr.versionMinor
      thiszone := swapLong hdr.thiszone
      sigfigs := swapLong hdr.sigfigs
      snaplen := swapLong hdr.snaplen
      linktype := swapLong hdr.linktype }
  else hdr

def ltLinktype (x : BitVec 32) : BitVec 32 := x &&& 0x03FFFFFF

def ltLinktypeExt (x : BitVec 32) : BitVec 32 := x &&& 0xFC000000

/-- `swapped_type_t`: whether `caplen` and `len` are interchanged. -/
inductive SwappedType
  | notSwapped
  | swapped
  | maybeSwapped
  deriving DecidableEq, Repr

/-- The scaling between the unit of the file and the unit of the user: `none` for a
precision that is not known. -/
def scaleType (precision : Nat) (magic : BitVec 32) : Option TstampScaleType :=
  if precision = tstampPrecisionMicro then
    some (if magic = nsecTcpdumpMagic then .scaleDown else .passThrough)
  else if precision = tstampPrecisionNano then
    some (if magic = nsecTcpdumpMagic then .passThrough else .scaleUp)
  else none

/-- The lengths were interchanged up to version 2.2, some files of version 2.3 have
them interchanged, and DG/UX writes version 543. -/
def lengthsSwapped (versionMajor versionMinor : BitVec 16) : SwappedType :=
  if versionMajor = 2 then
    if versionMinor < 3 then .swapped
    else if versionMinor = 3 then .maybeSwapped
    else .notSwapped
  else if versionMajor = 543 then .swapped
  else .notSwapped

/-- `sizeof (struct pcap_sf_pkthdr)` -/
def pktHdrSize : Nat := 16

/-- `sizeof (struct pcap_sf_patched_pkthdr)` -/
def patchedPktHdrSize : Nat := 24

/-- The handle of a pcap savefile with its `struct pcap_sf` and the size of its
packet buffer. The record header holds at least the fields that are used, and the
buffer is not empty. -/
structure PcapSf extends Pcap where
  hdrsize : Nat
  lengthsSwapped : SwappedType
  scaleType : TstampScaleType
  bufsize : Nat
  pktHdrSize_le : pktHdrSize ≤ hdrsize
  bufsize_pos : 0 < bufsize
  bufsize_lt : bufsize < 2 ^ 31

/-- The size of the packet buffer: the snapshot length, or 64 KiB if that is not
positive as an `int`. -/
def bufsizeOf (snapshot : BitVec 32) : Nat :=
  if 0 < snapshot.toInt then snapshot.toNat else 65536

theorem bufsizeOf_pos (snapshot : BitVec 32) : 0 < bufsizeOf snapshot := by
  unfold bufsizeOf
  split
  · rename_i positive
    rw [BitVec.toInt_eq_toNat_cond] at positive
    split at positive <;> omega
  · omega

theorem bufsizeOf_lt (snapshot : BitVec 32) : bufsizeOf snapshot < 2 ^ 31 := by
  have bound := snapshot.isLt
  unfold bufsizeOf
  split
  · rename_i positive
    rw [BitVec.toInt_eq_toNat_cond] at positive
    split at positive <;> omega
  · omega

/-- The snapshot length of the handle. A capture of a patched library may hold a
faked Ethernet header on top of it. -/
def snapshotOf (magic : BitVec 32) (linktype : Nat) (snaplen : BitVec 32) : BitVec 32 :=
  if magic = kuznetzovTcpdumpMagic ∧ linktype = dltEn10mb then snaplen + 14 else snaplen

/-- The handle that `pcap_check_header` fills in from a header it accepts. -/
def PcapSf.ofHeader (magic : BitVec 32) (swapped : Bool) (hdr : FileHeader) (precision : Nat)
    (scale : TstampScaleType) : PcapSf :=
  let linktype := linktypeToDlt (ltLinktype hdr.linktype).toNat
  let snapshot := snapshotOf magic linktype hdr.snaplen
  { swapped := swapped
    tzoff := hdr.thiszone
    snapshot := snapshot
    linktype := linktype
    linktypeExt := ltLinktypeExt hdr.linktype
    tstampPrecision := precision
    hdrsize := if magic = kuznetzovTcpdumpMagic then patchedPktHdrSize else pktHdrSize
    lengthsSwapped := Savefile.lengthsSwapped hdr.versionMajor hdr.versionMinor
    scaleType := scale
    bufsize := bufsizeOf snapshot
    pktHdrSize_le := by split <;> decide
    bufsize_pos := bufsizeOf_pos snapshot
    bufsize_lt := bufsizeOf_lt snapshot }

/-- `pcap_check_header`, after the first four bytes have been read: `none` if the
file is not a pcap savefile. -/
def pcapCheckHeader {σ : Type} (magic : BitVec 32) (precision : Nat) :
    Reading σ String (Option PcapSf) :=
  match pcapMagic magic with
  | none => pure none
  | some (magic, swapped) => do
      let raw ← fread 20
      if raw.length ≠ 20 then
        throw s!"truncated dump file; tried to read 24 file header bytes, only got {raw.length}"
      let hdr := FileHeader.read swapped raw
      if hdr.versionMajor < 2 then
        throw "archaic pcap savefile format"
      let handle ← malloc
      if !handle then
        throw "malloc: Cannot allocate memory"
      match scaleType precision magic with
      | none => throw s!"unknown time stamp resolution {precision}"
      | some scale => do
          let buffer ← malloc
          if !buffer then
            throw "out of memory"
          pure (some (PcapSf.ofHeader magic swapped hdr precision scale))

/-! ## Records -/

/-- The fields of the record header that are used, in the host's byte order. -/
def Pkthdr.read (swapped : Bool) (raw : List Byte) : Pkthdr :=
  if swapped then
    { caplen := swapLong (long 8 raw)
      len := swapLong (long 12 raw)
      ts := ⟨(swapLong (long 0 raw)).toInt, (swapLong (long 4 raw)).toInt⟩ }
  else
    { caplen := long 8 raw
      len := long 12 raw
      ts := ⟨(long 0 raw).toInt, (long 4 raw).toInt⟩ }

/-- The time stamp in the unit of the user. -/
def TstampScaleType.apply (scale : TstampScaleType) (ts : Timeval) : Timeval :=
  match scale with
  | .passThrough => ts
  | .scaleUp => { ts with tvUsec := ts.tvUsec * 1000 }
  | .scaleDown => { ts with tvUsec := ts.tvUsec.tdiv 1000 }

/-- The two lengths in the order they have today. -/
def SwappedType.interchange (lengths : SwappedType) (hdr : Pkthdr) : Pkthdr :=
  match lengths with
  | .notSwapped => hdr
  | .maybeSwapped =>
    if hdr.caplen ≤ hdr.len then hdr else { hdr with caplen := hdr.len, len := hdr.caplen }
  | .swapped => { hdr with caplen := hdr.len, len := hdr.caplen }

/-- The header of a record as the format defines it. -/
def PcapSf.recordHeader (sf : PcapSf) (raw : List Byte) : Pkthdr :=
  let hdr := Pkthdr.read sf.swapped raw
  sf.lengthsSwapped.interchange { hdr with ts := sf.scaleType.apply hdr.ts }

/-- The static buffer of `pcap_next_packet`, shared by all handles: its size, which
is zero before it is first allocated. -/
structure Salvage where
  tsize : Nat

/-- The captured bytes of a record, or the error of a file that ends in them. -/
def readCaptured (caplen : Nat) : Reading Salvage String (List Byte) := do
  let data ← fread caplen
  if data.length ≠ caplen then
    throw s!"truncated dump file; tried to read {caplen} captured bytes, only got {data.length}"
  pure data

/-- Make the static buffer large enough. -/
def growSalvage (caplen : Nat) : Reading Salvage String Unit := do
  let (_, salvage) ← get
  if salvage.tsize < caplen then
    let granted ← malloc
    if granted then
      modify fun (file, _) => (file, ⟨(caplen + 1023) / 1024 * 1024⟩)
    else
      modify fun (file, _) => (file, ⟨0⟩)
      throw "BUFMOD hack malloc"

/-- `pcap_next_packet`: `none` at the end of the file. -/
def pcapNextPacket (sf : PcapSf) : Reading Salvage String (Option (Pkthdr × List Byte)) := do
  let raw ← fread sf.hdrsize
  if raw.length ≠ sf.hdrsize then
    if raw.length ≠ 0 then
      throw s!"truncated dump file; tried to read {sf.hdrsize} header bytes, only got {raw.length}"
    pure none
  else
    let hdr := sf.recordHeader raw
    let caplen := hdr.caplen.toNat
    if sf.bufsize < caplen then
      if 65535 < caplen then
        throw "bogus savefile header"
      growSalvage caplen
      let data ← readCaptured caplen
      pure (some ({ hdr with caplen := BitVec.ofNat 32 sf.bufsize },
        sf.toHost sf.bufsize (data.take sf.bufsize)))
    else
      let data ← readCaptured caplen
      pure (some (hdr, sf.toHost caplen data))

/-! ## The framing of the stream -/

/-- A record of the stream: its header, with the stored length as captured length,
and the stored bytes. -/
structure Record where
  hdr : Pkthdr
  stored : List Byte
  length_stored : stored.length = hdr.caplen.toNat

namespace PcapSf

variable (sf : PcapSf)

/-- The record header in front of a stream. -/
def nextHeader (stream : List Byte) : Pkthdr :=
  sf.recordHeader (stream.take sf.hdrsize)

/-- The first record of the stream and what follows it: `none` if the stream does
not hold a whole record. -/
def frame (stream : List Byte) : Option (Record × List Byte) :=
  if fits : sf.hdrsize + (sf.nextHeader stream).caplen.toNat ≤ stream.length then
    some (⟨sf.nextHeader stream,
        (stream.drop sf.hdrsize).take (sf.nextHeader stream).caplen.toNat, by simp; omega⟩,
      stream.drop (sf.hdrsize + (sf.nextHeader stream).caplen.toNat))
  else none

/-- The record behind the first `i` ones. -/
def recordAt : Nat → List Byte → Option Record
  | 0, stream => (sf.frame stream).map Prod.fst
  | i + 1, stream => (sf.frame stream).bind fun framed => recordAt i framed.2

/-- What the caller is given of a record: as much of it as the packet buffer holds,
with the pseudo-headers converted. -/
def deliver (record : Record) : Pkthdr × List Byte :=
  let caplen := min record.hdr.caplen.toNat sf.bufsize
  ({ record.hdr with caplen := BitVec.ofNat 32 caplen },
    sf.toHost caplen (record.stored.take caplen))

/-- The results of `n` calls. -/
def calls : Nat → File × Salvage → List Outcome
  | 0, _ => []
  | n + 1, s => (exec (pcapNextPacket sf) s).1 :: calls n (exec (pcapNextPacket sf) s).2

end PcapSf

/-- Growing the static buffer does not touch the file's bytes. -/
theorem growSalvage_unread {caplen : Nat} {result : Except String Unit}
    (ran : exec (growSalvage caplen) s = (result, s')) : s'.1.unread = s.1.unread := by
  obtain ⟨file, salvage⟩ := s
  simp only [growSalvage, exec_bind, exec_get, andThen_ok, exec_ite, exec_malloc, exec_modify,
    exec_throw, exec_pure] at ran
  split at ran
  · split at ran <;> cases ran <;> rfl
  · cases ran
    rfl

/-- A successful read of the captured bytes takes exactly these from the stream. -/
theorem readCaptured_ok {caplen : Nat} {data : List Byte}
    (ran : exec (readCaptured caplen) s = (.ok data, s')) :
    caplen ≤ s.1.unread.length ∧ data = s.1.unread.take caplen ∧
      s'.1.unread = s.1.unread.drop caplen := by
  obtain ⟨file, salvage⟩ := s
  simp only [readCaptured, exec_bind, exec_fread, andThen_ok, exec_ite, exec_throw,
    exec_pure] at ran
  split at ran
  · cases ran
  · rename_i whole
    cases ran
    rw [not_not, List.length_take] at whole
    have reaches : caplen ≤ file.unread.length := by omega
    exact ⟨reaches, rfl, rfl⟩

namespace PcapSf

variable {sf : PcapSf}

/-- The stream splits into the record header, the stored bytes and the rest. -/
theorem frame_split {stream rest : List Byte} {record : Record}
    (framed : sf.frame stream = some (record, rest)) :
    ∃ raw, stream = raw ++ record.stored ++ rest ∧ raw.length = sf.hdrsize ∧
      record.hdr = sf.recordHeader raw := by
  unfold frame at framed
  split at framed
  · rename_i fits
    cases framed
    refine ⟨stream.take sf.hdrsize, ?_, by rw [List.length_take]; omega, rfl⟩
    rw [List.append_assoc, ← List.drop_drop, List.take_append_drop, List.take_append_drop]
  · cases framed

/-- A stream with a whole record in front. -/
theorem frame_whole {stream : List Byte} (whole : (stream.take sf.hdrsize).length = sf.hdrsize)
    (reaches : (sf.nextHeader stream).caplen.toNat ≤ (stream.drop sf.hdrsize).length) :
    ∃ record,
      sf.frame stream = some (record,
        (stream.drop sf.hdrsize).drop (sf.nextHeader stream).caplen.toNat) ∧
      record.hdr = sf.nextHeader stream ∧
      record.stored = (stream.drop sf.hdrsize).take (sf.nextHeader stream).caplen.toNat := by
  rw [List.length_take] at whole
  rw [List.length_drop] at reaches
  unfold frame
  rw [dif_pos (by omega), List.drop_drop]
  exact ⟨_, rfl, rfl, rfl⟩

end PcapSf

/-- A call that succeeds takes the first record off the stream and delivers it. -/
theorem pcapNextPacket_ok {sf : PcapSf} {packet : Pkthdr × List Byte}
    (ran : exec (pcapNextPacket sf) s = (.ok (some packet), s')) :
    ∃ record, sf.frame s.1.unread = some (record, s'.1.unread) ∧ packet = sf.deliver record := by
  obtain ⟨file, salvage⟩ := s
  obtain ⟨raw, opened, took, ran⟩ := exec_bind_eq_ok_iff.mp ran
  cases took
  simp only [exec_ite] at ran
  rw [show sf.recordHeader (file.unread.take sf.hdrsize) = sf.nextHeader file.unread from rfl] at ran
  split at ran
  · split at ran <;> cases ran
  rename_i whole
  rw [not_not] at whole
  split at ran
  · rename_i large
    split at ran
    · cases ran
    obtain ⟨_, grown, grew, ran⟩ := exec_bind_eq_ok_iff.mp ran
    obtain ⟨data, read, captured, ran⟩ := exec_bind_eq_ok_iff.mp ran
    cases ran
    obtain ⟨reaches, rfl, rest⟩ := readCaptured_ok captured
    rw [growSalvage_unread grew] at reaches rest ⊢
    obtain ⟨record, framed, header, stored⟩ := PcapSf.frame_whole whole reaches
    refine ⟨record, framed.trans (by rw [rest]), ?_⟩
    have kept : min record.hdr.caplen.toNat sf.bufsize = sf.bufsize := by
      rw [header]
      omega
    rw [PcapSf.deliver, kept, header, stored]
  · rename_i small
    obtain ⟨data, read, captured, ran⟩ := exec_bind_eq_ok_iff.mp ran
    cases ran
    obtain ⟨reaches, rfl, rest⟩ := readCaptured_ok captured
    obtain ⟨record, framed, header, stored⟩ := PcapSf.frame_whole whole reaches
    refine ⟨record, framed.trans (by rw [rest]), ?_⟩
    have kept : min record.hdr.caplen.toNat sf.bufsize = record.hdr.caplen.toNat := by
      rw [header]
      omega
    rw [PcapSf.deliver, kept, header, stored, List.take_take, min_self, BitVec.ofNat_toNat,
      BitVec.setWidth_eq]

/-- Along calls that all succeed, each one delivers the record at its place in the
stream. -/
theorem PcapSf.calls_recordAt {sf : PcapSf} {n i : Nat}
    (succeed : ∀ j ≤ i, ∃ packet, (sf.calls n s)[j]? = some (.ok (some packet))) :
    ∃ record, sf.recordAt i s.1.unread = some record ∧
      (sf.calls n s)[i]? = some (.ok (some (sf.deliver record))) := by
  induction i generalizing n s with
  | zero =>
    obtain ⟨packet, first⟩ := succeed 0 (le_refl 0)
    cases n with
    | zero => cases first
    | succ n =>
      obtain ⟨record, framed, delivered⟩ :=
        pcapNextPacket_ok (Prod.ext (Option.some.inj first) rfl)
      refine ⟨record, by rw [recordAt, framed]; rfl, ?_⟩
      rw [first, delivered]
  | succ i ih =>
    obtain ⟨packet, first⟩ := succeed 0 (Nat.zero_le _)
    cases n with
    | zero => cases first
    | succ n =>
      obtain ⟨_, framed, _⟩ := pcapNextPacket_ok (Prod.ext (Option.some.inj first) rfl)
      obtain ⟨record, here, delivered⟩ :=
        ih (fun j within => succeed (j + 1) (Nat.succ_le_succ within))
      exact ⟨record, by rw [recordAt, framed]; exact here, delivered⟩

theorem PcapSf.deliver_caplen (sf : PcapSf) (record : Record) :
    (sf.deliver record).1.caplen.toNat = min record.hdr.caplen.toNat sf.bufsize := by
  have bound := sf.bufsize_lt
  rw [deliver, BitVec.toNat_ofNat, Nat.mod_eq_of_lt (by omega)]

/-- **Framing.** A call that succeeds takes one whole record off the stream, its header
and its stored bytes, and delivers the first of these, no more than the buffer
holds; in a USB capture of the other byte order the pseudo-header is converted. As
long as all calls succeed, each one delivers the record at its place in the stream. -/
theorem pcapNextPacket_framing (sf : PcapSf) :
    (∀ (s s' : File × Salvage) (hdr : Pkthdr) (data : List Byte),
      exec (pcapNextPacket sf) s = (.ok (some (hdr, data)), s') →
      hdr.caplen.toNat ≤ sf.bufsize ∧ data.length = hdr.caplen.toNat ∧
      ∃ raw stored, s.1.unread = raw ++ stored ++ s'.1.unread ∧
        raw.length = sf.hdrsize ∧ stored.length = (sf.recordHeader raw).caplen.toNat ∧
        hdr.ts = (sf.recordHeader raw).ts ∧ hdr.len = (sf.recordHeader raw).len ∧
        hdr.caplen.toNat = min stored.length sf.bufsize ∧
        data = sf.toHost hdr.caplen.toNat (stored.take hdr.caplen.toNat) ∧
        ((sf.swapped = true →
            sf.linktype ≠ dltUsbLinux ∧ sf.linktype ≠ dltUsbLinuxMmapped) →
          data = stored.take hdr.caplen.toNat)) ∧
    (∀ (n i : Nat) (s : File × Salvage),
      (∀ j ≤ i, ∃ packet, (sf.calls n s)[j]? = some (.ok (some packet))) →
      ∃ record, sf.recordAt i s.1.unread = some record ∧
        (sf.calls n s)[i]? = some (.ok (some (sf.deliver record)))) := by
  constructor
  · intro s s' hdr data ran
    obtain ⟨record, framed, delivered⟩ := pcapNextPacket_ok ran
    obtain ⟨raw, split, whole, header⟩ := PcapSf.frame_split framed
    have kept : hdr.caplen.toNat = min record.hdr.caplen.toNat sf.bufsize := by
      rw [← sf.deliver_caplen record, ← delivered]
    have bytes : data = sf.toHost hdr.caplen.toNat (record.stored.take hdr.caplen.toNat) := by
      rw [kept]
      exact congrArg Prod.snd delivered
    have length : (record.stored.take hdr.caplen.toNat).length = hdr.caplen.toNat := by
      rw [List.length_take, record.length_stored]
      omega
    refine ⟨by omega, ?_, raw, record.stored, split, whole, ?_, ?_, ?_, ?_, bytes, ?_⟩
    · rw [bytes, Pcap.length_toHost length]
    · rw [record.length_stored, header]
    · rw [← header]
      exact congrArg (fun packet => packet.1.ts) delivered
    · rw [← header]
      exact congrArg (fun packet => packet.1.len) delivered
    · rw [kept, record.length_stored]
    · intro plain
      rw [bytes, Pcap.toHost_eq plain]
  · intro n i s succeed
    exact PcapSf.calls_recordAt succeed

/-- An Ethernet file whose snapshot length is four. -/
def shortSnapSf : PcapSf :=
  PcapSf.ofHeader tcpdumpMagic false ⟨2, 4, 0, 0, 4, 1⟩ tstampPrecisionMicro .passThrough

/-- A record of six bytes. -/
def sixBytes : List Byte :=
  [1, 0, 0, 0, 2, 0, 0, 0, 6, 0, 0, 0, 9, 0, 0, 0, 1, 2, 3, 4, 5, 6]

/-- A record that is longer than the buffer is salvaged. -/
theorem pcapNextPacket_framing_salvaged :
    ∃ s' : File × Salvage,
      exec (pcapNextPacket shortSnapSf) (⟨sixBytes, fun _ => true⟩, ⟨0⟩) =
        (.ok (some (⟨⟨1, 2⟩, 4, 9⟩, [1, 2, 3, 4])), s') ∧
      ∃ raw stored, sixBytes = raw ++ stored ++ s'.1.unread ∧ raw.length = 16 ∧
        [1, 2, 3, 4] = stored.take 4 := by
  obtain ⟨s', ran⟩ : ∃ s' : File × Salvage,
      exec (pcapNextPacket shortSnapSf) (⟨sixBytes, fun _ => true⟩, ⟨0⟩) =
        (.ok (some (⟨⟨1, 2⟩, 4, 9⟩, [1, 2, 3, 4])), s') := ⟨_, rfl⟩
  obtain ⟨_, _, raw, stored, split, whole, _, _, _, _, _, bytes⟩ :=
    (pcapNextPacket_framing shortSnapSf).1 _ _ _ _ ran
  exact ⟨s', ran, raw, stored, split, whole, bytes (by decide)⟩

/-- A big-endian file header for `DLT_USB_LINUX`, behind its magic number, and the
record of a packet of eight bytes. -/
def usbSavefile : List Byte :=
  [0, 2, 0, 4, 0, 0, 0, 0, 0, 0, 0, 0, 0, 0, 0xff, 0xff, 0, 0, 0, 189,
    0, 0, 0, 1, 0, 0, 0, 2, 0, 0, 0, 8, 0, 0, 0, 8, 1, 2, 3, 4, 5, 6, 7, 8]

/-- The bytes delivered need not be the stored ones, and a successful call behind a
failed one need not deliver a record: the header of a record that claims 70000
bytes is consumed by the call that rejects it. -/
theorem pcapNextPacket_converts_and_resumes :
    (∃ sf s, exec (pcapCheckHeader (swapLong tcpdumpMagic) tstampPrecisionMicro)
          (⟨usbSavefile, fun _ => true⟩, (⟨0⟩ : Salvage)) = (.ok (some sf), s) ∧
        (sf.recordAt 0 s.1.unread).map Record.stored = some [1, 2, 3, 4, 5, 6, 7, 8] ∧
        (exec (pcapNextPacket sf) s).1 =
          .ok (some (⟨⟨1, 2⟩, 8, 8⟩, [8, 7, 6, 5, 4, 3, 2, 1]))) ∧
      ∃ stream : List Byte, shortSnapSf.recordAt 0 stream = none ∧
        shortSnapSf.calls 2 (⟨stream, fun _ => true⟩, ⟨0⟩) =
          [.error "bogus savefile header", .ok (some (⟨⟨0, 0⟩, 0, 0⟩, []))] := by
  constructor
  · exact ⟨_, _, rfl, rfl, rfl⟩
  · exact ⟨[0, 0, 0, 0, 0, 0, 0, 0, 0x70, 0x11, 1, 0, 0x70, 0x11, 1, 0] ++ List.replicate 16 0,
      rfl, rfl⟩

end Libpcap.Savefile
