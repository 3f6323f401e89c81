/-
# Writing pcap savefiles

`pcap_dump_open` and `pcap_dump` of `sf-pcap.c`. The header and the record headers
are written in the byte order of the host, with the lengths in today's order and
the time stamps in the unit of the handle, and a reader at the same precision is
given back what was written.
-/

import Libpcap.Savefile.Pcap

namespace Libpcap.Savefile

open Libpcap.Semantics Libpcap.Gencode List

variable {sf : PcapSf}

/-! ## The writer -/

/-- A `u_short` as it is written. -/
def putShort (x : BitVec 16) : List Byte := leBytes 2 x.toNat

/-- A 32-bit field as it is written. -/
def putLong (x : BitVec 32) : List Byte := leBytes 4 x.toNat

/-- `struct pcap_file_header` behind the magic number. -/
def putFileHeader (hdr : FileHeader) : List Byte :=
  putShort hdr.versionMajor ++ (putShort hdr.versionMinor ++ (putLong hdr.thiszone ++
    (putLong hdr.sigfigs ++ (putLong hdr.snaplen ++ putLong hdr.linktype))))

/-- The bytes that `sf_write_header` writes: version 2.4, accuracy zero. -/
def sfWriteHeader (p : Pcap) (linktype thiszone snaplen : BitVec 32) : List Byte :=
  putLong (if p.tstampPrecision = tstampPrecisionNano then nsecTcpdumpMagic else tcpdumpMagic) ++
    putFileHeader ⟨2, 4, thiszone, 0, snaplen, linktype⟩

/-- `pcap_dump_open`: the new file, once it could be opened. -/
def pcapDumpOpen (p : Pcap) (activated : Bool) (fname : String) : Except String (List Byte) :=
  if !activated then
    .error s!"{fname}: not-yet-activated pcap_t passed to pcap_dump_open"
  else
    match dltToLinktype p.linktype with
    | none => .error s!"{fname}: link-layer type {p.linktype} isn't supported in savefiles"
    | some linktype =>
      .ok (sfWriteHeader p (BitVec.ofNat 32 linktype ||| p.linktypeExt) p.tzoff p.snapshot)

/-- The `struct pcap_sf_pkthdr` of a packet; the parts of the time stamp are cut to
32 bits. -/
def putPkthdr (h : Pkthdr) : List Byte :=
  putLong (BitVec.ofInt 32 h.ts.tvSec) ++ (putLong (BitVec.ofInt 32 h.ts.tvUsec) ++
    (putLong h.caplen ++ putLong h.len))

/-- The bytes that `pcap_dump` appends for a packet whose contents start at `sp`. -/
def pcapDump (h : Pkthdr) (sp : List Byte) : List Byte :=
  putPkthdr h ++ sp.take h.caplen.toNat

/-- A packet as it is handed to `pcap_dump`: the header and the captured bytes. -/
structure Captured where
  hdr : Pkthdr
  data : List Byte
  length_data : data.length = hdr.caplen.toNat

/-- The file after some packets have been dumped. -/
def dumpAll (file : List Byte) (packets : List Captured) : List Byte :=
  file ++ packets.flatMap fun packet => pcapDump packet.hdr packet.data

/-- Both parts of a time stamp fit the `bpf_int32` fields of a record header. -/
def Timeval.Fits (ts : Timeval) : Prop :=
  (-2 ^ 31 ≤ ts.tvSec ∧ ts.tvSec < 2 ^ 31) ∧ (-2 ^ 31 ≤ ts.tvUsec ∧ ts.tvUsec < 2 ^ 31)

/-! ## Reading back what was written -/

@[simp]
theorem length_putShort (x : BitVec 16) : (putShort x).length = 2 := length_leBytes 2 x.toNat

@[simp]
theorem length_putLong (x : BitVec 32) : (putLong x).length = 4 := length_leBytes 4 x.toNat

@[simp]
theorem short_putShort (x : BitVec 16) (rest : List Byte) : short 0 (putShort x ++ rest) = x :=
  word_leBytes x rest (by decide)

@[simp]
theorem long_putLong (x : BitVec 32) (rest : List Byte) : long 0 (putLong x ++ rest) = x :=
  word_leBytes x rest (by decide)

@[simp]
theorem long_putLong_nil (x : BitVec 32) : long 0 (putLong x) = x := by
  have front := long_putLong x []
  rwa [append_nil] at front

theorem Timeval.Fits.read_back {ts : Timeval} (fits : ts.Fits) :
    (⟨(BitVec.ofInt 32 ts.tvSec).toInt, (BitVec.ofInt 32 ts.tvUsec).toInt⟩ : Timeval) = ts := by
  obtain ⟨seconds, fraction⟩ := fits
  have sec : (BitVec.ofInt 32 ts.tvSec).toInt = ts.tvSec :=
    BitVec.toInt_ofInt_eq_self (by decide) seconds.1 seconds.2
  have usec : (BitVec.ofInt 32 ts.tvUsec).toInt = ts.tvUsec :=
    BitVec.toInt_ofInt_eq_self (by decide) fraction.1 fraction.2
  rw [sec, usec]

@[simp]
theorem length_putFileHeader (hdr : FileHeader) : (putFileHeader hdr).length = 20 := by
  simp [putFileHeader]

/-- The file header is read back. -/
theorem FileHeader.read_putFileHeader (hdr : FileHeader) :
    FileHeader.read false (putFileHeader hdr) = hdr := by
  simp [FileHeader.read, putFileHeader, word_append_of_le]

@[simp]
theorem length_putPkthdr (h : Pkthdr) : (putPkthdr h).length = pktHdrSize := by
  simp [putPkthdr, pktHdrSize]

/-- The record header is read back. -/
theorem Pkthdr.read_putPkthdr {h : Pkthdr} (fits : h.ts.Fits) :
    Pkthdr.read false (putPkthdr h) = h := by
  simp [Pkthdr.read, putPkthdr, word_append_of_le, -BitVec.toInt_ofInt, fits.read_back]

/-- A handle that reads records as `pcap_dump` writes them. -/
structure PcapSf.ReadsBack (sf : PcapSf) : Prop where
  swapped : sf.swapped = false
  hdrsize : sf.hdrsize = pktHdrSize
  lengthsSwapped : sf.lengthsSwapped = .notSwapped
  scaleType : sf.scaleType = .passThrough

theorem PcapSf.ReadsBack.recordHeader (readsBack : sf.ReadsBack) {h : Pkthdr} (fits : h.ts.Fits) :
    sf.recordHeader (putPkthdr h) = h := by
  simp only [PcapSf.recordHeader, readsBack.swapped, readsBack.lengthsSwapped,
    readsBack.scaleType, SwappedType.interchange, TstampScaleType.apply,
    Pkthdr.read_putPkthdr fits]

/-- A dumped packet is read back by the next call. -/
theorem pcapNextPacket_pcapDump (readsBack : sf.ReadsBack) (packet : Captured)
    (captured : packet.hdr.caplen.toNat ≤ sf.bufsize) (fits : packet.hdr.ts.Fits) (rest : List Byte)
    (heap : Nat → Bool) (salvage : Salvage) :
    exec (pcapNextPacket sf) (⟨pcapDump packet.hdr packet.data ++ rest, heap⟩, salvage) =
      (.ok (some (packet.hdr, packet.data)), (⟨rest, heap⟩, salvage)) := by
  have whole : packet.data.take packet.hdr.caplen.toNat = packet.data :=
    take_of_length_le (le_of_eq packet.length_data)
  have header : (putPkthdr packet.hdr).length = sf.hdrsize := by
    rw [length_putPkthdr, readsBack.hdrsize]
  have plain : sf.toHost packet.hdr.caplen.toNat packet.data = packet.data := by
    simp [Pcap.toHost, readsBack.swapped]
  rw [pcapDump, whole, append_assoc, pcapNextPacket, exec_bind, exec_fread, andThen_ok]
  simp only [take_left' header, drop_left' header, header, exec_ite, readsBack.recordHeader fits]
  rw [if_neg (by omega), if_neg (by omega)]
  simp only [readCaptured, exec_bind, exec_fread, andThen_ok, take_left' packet.length_data,
    drop_left' packet.length_data, exec_ite, packet.length_data, exec_pure]
  simp [plain]

/-- The end of the file is reported as such. -/
theorem pcapNextPacket_nil (sf : PcapSf) (heap : Nat → Bool) (salvage : Salvage) :
    exec (pcapNextPacket sf) (⟨[], heap⟩, salvage) = (.ok none, (⟨[], heap⟩, salvage)) := by
  have positive : 0 ≠ sf.hdrsize := by
    have := sf.pktHdrSize_le
    unfold pktHdrSize at this
    omega
  simp [pcapNextPacket, positive]

/-- Dumped packets are read back in order, and then the file ends. -/
theorem calls_dumped (readsBack : sf.ReadsBack) (packets : List Captured)
    (captured : ∀ packet ∈ packets, packet.hdr.caplen.toNat ≤ sf.bufsize)
    (fits : ∀ packet ∈ packets, packet.hdr.ts.Fits) (heap : Nat → Bool) (salvage : Salvage) :
    sf.calls (packets.length + 1)
        (⟨packets.flatMap fun packet => pcapDump packet.hdr packet.data, heap⟩, salvage) =
      packets.map (fun packet => .ok (some (packet.hdr, packet.data))) ++ [.ok none] := by
  induction packets with
  | nil => rw [length_nil, PcapSf.calls, flatMap_nil, pcapNextPacket_nil]; rfl
  | cons packet packets ih =>
    rw [length_cons, PcapSf.calls, flatMap_cons,
      pcapNextPacket_pcapDump readsBack packet (captured packet mem_cons_self)
        (fits packet mem_cons_self),
      ih (fun other within => captured other (mem_cons_of_mem _ within))
        (fun other within => fits other (mem_cons_of_mem _ within))]
    rfl

/-- The header of a dump file is accepted by the reader. -/
theorem pcapCheckHeader_putFileHeader {σ : Type} {magic : BitVec 32} {precision : Nat}
    {hdr : FileHeader} (known : pcapMagic magic = some (magic, false))
    (scale : scaleType precision magic = some .passThrough) (version : hdr.versionMajor = 2)
    (rest : List Byte) (heap : Nat → Bool) (granted : heap 0 = true ∧ heap 1 = true) (own : σ) :
    exec (pcapCheckHeader magic precision) (⟨putFileHeader hdr ++ rest, heap⟩, own) =
      (.ok (some (PcapSf.ofHeader magic false hdr precision .passThrough)),
        (⟨rest, fun i => heap (i + 2)⟩, own)) := by
  have whole := length_putFileHeader hdr
  simp only [pcapCheckHeader, known, exec_bind, exec_fread, andThen_ok, take_left' whole,
    drop_left' whole, whole, exec_ite]
  simp [FileHeader.read_putFileHeader, version, scale, granted.1, granted.2]

/-- The file that `pcap_dump_open` leaves: a magic number that the reader takes as its
own at the same precision, and a header of version 2.4. -/
theorem pcapDumpOpen_ok {p : Pcap} {activated : Bool} {fname : String} {file : List Byte}
    (opened : pcapDumpOpen p activated fname = .ok file)
    (precision : p.tstampPrecision = tstampPrecisionMicro ∨
      p.tstampPrecision = tstampPrecisionNano) :
    ∃ magic linktype, pcapMagic magic = some (magic, false) ∧
      scaleType p.tstampPrecision magic = some .passThrough ∧ magic ≠ kuznetzovTcpdumpMagic ∧
      dltToLinktype p.linktype = some linktype ∧
      file = putLong magic ++ putFileHeader
        ⟨2, 4, p.tzoff, 0, p.snapshot, BitVec.ofNat 32 linktype ||| p.linktypeExt⟩ := by
  unfold pcapDumpOpen at opened
  split at opened
  · cases opened
  split at opened
  · cases opened
  · rename_i linktype supported
    cases opened
    refine ⟨_, linktype, ?_, ?_, ?_, supported, rfl⟩ <;> rcases precision with asked | asked
    all_goals rw [asked]; decide

/-- The handle of a dump file reads records as they were written. -/
theorem readsBack_ofHeader {magic : BitVec 32} {precision : Nat}
    (plain : magic ≠ kuznetzovTcpdumpMagic) (thiszone snaplen linktype : BitVec 32) :
    (PcapSf.ofHeader magic false ⟨2, 4, thiszone, 0, snaplen, linktype⟩ precision
      .passThrough).ReadsBack where
  swapped := rfl
  hdrsize := if_neg plain
  lengthsSwapped := rfl
  scaleType := rfl

/-- **Round trip.** A file that was opened and dumped to by a handle with a positive
snapshot length gives back the packets in order, and then ends. The two
allocations of the reader are the handle and the packet buffer. -/
theorem dump_read_back (p : Pcap) (activated : Bool) (fname : String) (file : List Byte)
    (opened : pcapDumpOpen p activated fname = .ok file) (positive : 0 < p.snapshot.toInt)
    (precision : p.tstampPrecision = tstampPrecisionMicro ∨
      p.tstampPrecision = tstampPrecisionNano)
    (packets : List Captured)
    (captured : ∀ packet ∈ packets, packet.hdr.caplen.toNat ≤ p.snapshot.toNat)
    (fits : ∀ packet ∈ packets, packet.hdr.ts.Fits)
    (heap : Nat → Bool) (granted : heap 0 = true ∧ heap 1 = true) (salvage : Salvage) :
    ∃ sf s,
      exec (pcapCheckHeader (long 0 (dumpAll file packets)) p.tstampPrecision)
          (⟨(dumpAll file packets).drop 4, heap⟩, salvage) = (.ok (some sf), s) ∧
      sf.calls (packets.length + 1) s =
        packets.map (fun packet => .ok (some (packet.hdr, packet.data))) ++ [.ok none] := by
  obtain ⟨magic, linktype, known, scale, plain, _, rfl⟩ := pcapDumpOpen_ok opened precision
  let hdr : FileHeader :=
    ⟨2, 4, p.tzoff, 0, p.snapshot, BitVec.ofNat 32 linktype ||| p.linktypeExt⟩
  let sf := PcapSf.ofHeader magic false hdr p.tstampPrecision .passThrough
  have bufsize : sf.bufsize = p.snapshot.toNat := by
    change bufsizeOf (snapshotOf magic _ p.snapshot) = _
    rw [snapshotOf, if_neg (fun both => plain both.1), bufsizeOf, if_pos positive]
  refine ⟨sf, (⟨packets.flatMap fun packet => pcapDump packet.hdr packet.data,
    fun i => heap (i + 2)⟩, salvage), ?_, ?_⟩
  · rw [dumpAll, append_assoc, long_putLong, drop_left' (length_putLong magic)]
    exact pcapCheckHeader_putFileHeader known scale rfl _ heap granted salvage
  · apply calls_dumped (readsBack_ofHeader plain _ _ _) packets _ fits
    intro packet within
    rw [bufsize]
    exact captured packet within

/-- An Ethernet handle with nanosecond time stamps. -/
def nanoPcap : Pcap := ⟨false, 0, 96, dltEn10mb, 0, tstampPrecisionNano⟩

/-- A packet from before the epoch of which three bytes were captured. -/
def threeBytes : Captured := ⟨⟨⟨-1, 999999999⟩, 3, 60⟩, [0xde, 0xad, 0xbe], rfl⟩

/-- A later packet with nothing captured. -/
def noBytes : Captured := ⟨⟨⟨5, 0⟩, 0, 14⟩, [], rfl⟩

theorem dump_read_back_nano :
    ∃ file, pcapDumpOpen nanoPcap true "nano.pcap" = .ok file ∧ ∃ sf s,
      exec (pcapCheckHeader (long 0 (dumpAll file [threeBytes, noBytes])) tstampPrecisionNano)
          (⟨(dumpAll file [threeBytes, noBytes]).drop 4, fun _ => true⟩, ⟨0⟩) = (.ok (some sf), s) ∧
      sf.calls 3 s = [.ok (some (⟨⟨-1, 999999999⟩, 3, 60⟩, [0xde, 0xad, 0xbe])),
        .ok (some (⟨⟨5, 0⟩, 0, 14⟩, [])), .ok none] := by
  refine ⟨_, rfl, dump_read_back nanoPcap true "nano.pcap" _ rfl (by decide) (Or.inr rfl)
    [threeBytes, noBytes] (by decide) ?_ (fun _ => true) ⟨rfl, rfl⟩ ⟨0⟩⟩
  rw [forall_mem_cons, forall_mem_singleton]
  exact ⟨⟨⟨by decide, by decide⟩, ⟨by decide, by decide⟩⟩,
    ⟨⟨by decide, by decide⟩, ⟨by decide, by decide⟩⟩⟩

/-! ## The link type of a dump file -/

/-- The bits that `linktype_ext` adds to the written value are not those of the link
type. -/
theorem ltLinktype_or {linktype : Nat} {ext : BitVec 32} (small : linktype ≤ dltMatchingMax)
    (extra : ltLinktype ext = 0) :
    (ltLinktype (BitVec.ofNat 32 linktype ||| ext)).toNat = linktype := by
  have bound : linktype < 2 ^ 26 := lt_of_le_of_lt small (by decide)
  have masked : linktype &&& (2 ^ 26 - 1) = linktype := by
    rw [Nat.and_two_pow_sub_one_eq_mod, Nat.mod_eq_of_lt bound]
  have own : ltLinktype (BitVec.ofNat 32 linktype) = BitVec.ofNat 32 linktype := by
    apply BitVec.eq_of_toNat_eq
    have word : linktype % 2 ^ 32 = linktype := Nat.mod_eq_of_lt (by omega)
    rw [ltLinktype, BitVec.toNat_and, BitVec.toNat_ofNat, word]
    exact masked
  have split : ltLinktype (BitVec.ofNat 32 linktype ||| ext) =
      ltLinktype (BitVec.ofNat 32 linktype) ||| ltLinktype ext := by
    unfold ltLinktype
    exact BitVec.and_or_distrib_right
  have nothing : BitVec.ofNat 32 linktype ||| (0 : BitVec 32) = BitVec.ofNat 32 linktype :=
    BitVec.or_zero
  rw [split, own, extra, nothing, BitVec.toNat_ofNat]
  exact Nat.mod_eq_of_lt (by omega)

theorem dltToLinktype_le {dlt linktype : Nat} (supported : dltToLinktype dlt = some linktype) :
    linktype ≤ dltMatchingMax := by
  unfold dltToLinktype at supported
  split at supported
  · cases supported
    decide
  split at supported
  · rename_i between
    cases supported
    exact between.2
  · obtain ⟨entry, found, rfl⟩ := Option.map_eq_some_iff.mp supported
    exact linktypeMap_le entry (mem_of_find?_eq_some found)

/-- The reader's handle for the file that `pcap_dump_open` leaves. -/
theorem pcapCheckHeader_pcapDumpOpen {p : Pcap} {activated : Bool} {fname : String}
    {file : List Byte} (opened : pcapDumpOpen p activated fname = .ok file)
    (precision : p.tstampPrecision = tstampPrecisionMicro ∨
      p.tstampPrecision = tstampPrecisionNano)
    (rest : List Byte) (heap : Nat → Bool) (granted : heap 0 = true ∧ heap 1 = true)
    (salvage : Salvage) :
    ∃ linktype sf s, dltToLinktype p.linktype = some linktype ∧
      exec (pcapCheckHeader (long 0 file) p.tstampPrecision)
          (⟨file.drop 4 ++ rest, heap⟩, salvage) = (.ok (some sf), s) ∧
      sf.linktype =
        linktypeToDlt (ltLinktype (BitVec.ofNat 32 linktype ||| p.linktypeExt)).toNat := by
  obtain ⟨magic, linktype, known, scale, _, supported, rfl⟩ := pcapDumpOpen_ok opened precision
  let hdr : FileHeader :=
    ⟨2, 4, p.tzoff, 0, p.snapshot, BitVec.ofNat 32 linktype ||| p.linktypeExt⟩
  refine ⟨linktype, PcapSf.ofHeader magic false hdr p.tstampPrecision .passThrough,
    (⟨rest, fun i => heap (i + 2)⟩, salvage), supported, ?_, rfl⟩
  rw [long_putLong, drop_left' (length_putLong _)]
  exact pcapCheckHeader_putFileHeader known scale rfl rest heap granted salvage

/-- **The link type of a savefile.** A link type that files have is given back by the
reverse mapping, and by a reader that reopens the file, except for classical IP over
ATM. The bits of `linktype_ext` lie above those of the link type. -/
theorem linktype_survives (dlt : Int) (supported : dltToLinktypeInt dlt ≠ -1) :
    (linktypeToDltInt (dltToLinktypeInt dlt) = dlt ↔ dlt ≠ dltAtmClip) ∧
      ∀ (p : Pcap) (fname : String) (file rest : List Byte) (heap : Nat → Bool)
        (salvage : Salvage), (p.linktype : Int) = dlt → ltLinktype p.linktypeExt = 0 →
        (p.tstampPrecision = tstampPrecisionMicro ∨ p.tstampPrecision = tstampPrecisionNano) →
        heap 0 = true ∧ heap 1 = true → pcapDumpOpen p true fname = .ok file →
        ∃ sf s,
          exec (pcapCheckHeader (long 0 file) p.tstampPrecision)
              (⟨file.drop 4 ++ rest, heap⟩, salvage) = (.ok (some sf), s) ∧
          ((sf.linktype : Int) = dlt ↔ dlt ≠ dltAtmClip) := by
  have positive : 0 ≤ dlt := by
    by_contra negative
    exact supported (dltToLinktypeInt_of_neg (by omega))
  obtain ⟨dlt, rfl⟩ := Int.eq_ofNat_of_zero_le positive
  rw [dltToLinktypeInt_natCast] at supported ⊢
  cases mapped : dltToLinktype dlt with
  | none =>
    rw [mapped] at supported
    exact absurd rfl supported
  | some linktype =>
    have back := linktypeToDlt_dltToLinktype mapped
    constructor
    · rw [Option.map_some, Option.getD_some]
      simp only [Int.ofNat_eq_natCast, linktypeToDltInt_natCast, Int.ofNat_inj, ne_eq]
      exact back
    · intro p fname file rest heap salvage same extra precision granted opened
      have same : p.linktype = dlt := Int.ofNat_inj.mp same
      obtain ⟨written, sf, s, writes, reopened, reported⟩ :=
        pcapCheckHeader_pcapDumpOpen opened precision rest heap granted salvage
      rw [same, mapped] at writes
      cases writes
      refine ⟨sf, s, reopened, ?_⟩
      rw [reported, ltLinktype_or (dltToLinktype_le mapped) extra]
      simp only [Int.ofNat_inj, ne_eq]
      exact back

/-- A raw IP capture keeps its link type, which files number differently. -/
theorem linktype_survives_raw :
    dltToLinktypeInt dltRaw = 101 ∧ linktypeToDltInt (dltToLinktypeInt dltRaw) = dltRaw ∧
      ∃ file sf s, pcapDumpOpen { nanoPcap with linktype := dltRaw } true "raw.pcap" = .ok file ∧
        exec (pcapCheckHeader (long 0 file) tstampPrecisionNano)
            (⟨file.drop 4, fun _ => true⟩, (⟨0⟩ : Salvage)) = (.ok (some sf), s) ∧
        sf.linktype = dltRaw := by
  have survives := linktype_survives dltRaw (by decide)
  refine ⟨rfl, survives.1.mpr (by decide), ?_⟩
  obtain ⟨sf, s, reopened, reported⟩ :=
    survives.2 { nanoPcap with linktype := dltRaw } "raw.pcap" _ [] (fun _ => true) ⟨0⟩ rfl
      (by decide) (Or.inr rfl) ⟨rfl, rfl⟩ rfl
  rw [append_nil] at reopened
  exact ⟨_, sf, s, rfl, reopened, Int.ofNat_inj.mp (reported.mpr (by decide))⟩

/-- Classical IP over ATM comes back as link type 106. -/
theorem linktype_lost_atm_clip :
    dltToLinktypeInt dltAtmClip = 106 ∧ linktypeToDltInt (dltToLinktypeInt dltAtmClip) = 106 ∧
      (dltAtmClip : Int) ≠ 106 :=
  ⟨rfl, rfl, by decide⟩

end Libpcap.Savefile
