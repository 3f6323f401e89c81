/-
# The byte order of a savefile

A savefile may have been written on a host of either byte order; the reading host
finds out from the magic number and swaps what it reads. This module says what the
same file in the other byte order is: every integer field of its headers has its
bytes reversed, and the captured bytes stay. The routines for pcap savefiles then
do the same on both.

In a pcap-ng file there are options and blocks that the reader passes over. Whatever
is done to them, as long as their lengths stay, makes no difference, so that the
statements are about any treatment of them.
-/

import Libpcap.Savefile.Open

namespace Libpcap.Savefile

open Libpcap.Semantics Libpcap.Gencode

variable {raw : List Byte}

/-! ## Fields of either byte order -/

/-- A 16-bit field of a file, in the host's byte order. -/
def fileShort (swapped : Bool) (offset : Nat) (record : List Byte) : BitVec 16 :=
  if swapped then swapShort (short offset record) else short offset record

/-- A 32-bit field of a file, in the host's byte order. -/
def fileLong (swapped : Bool) (offset : Nat) (record : List Byte) : BitVec 32 :=
  if swapped then swapLong (long offset record) else long offset record

/-- A 64-bit field of a file, in the host's byte order. -/
def fileLonglong (swapped : Bool) (offset : Nat) (record : List Byte) : BitVec 64 :=
  if swapped then swapLL (longlong offset record) else longlong offset record

section Flip

variable {widths : List Nat} {record : List Byte} (whole : widths.sum ≤ record.length)
  {offset : Nat} (swapped : Bool)
include whole

theorem fileShort_not (place : fieldAt widths offset 2 = true) :
    fileShort (!swapped) offset (reverseWhole widths record) = fileShort swapped offset record :=
  swapShort_reverses.ordered_not whole place swapped

theorem fileLong_not (place : fieldAt widths offset 4 = true) :
    fileLong (!swapped) offset (reverseWhole widths record) = fileLong swapped offset record :=
  swapLong_reverses.ordered_not whole place swapped

theorem fileLonglong_not (place : fieldAt widths offset 8 = true) :
    fileLonglong (!swapped) offset (reverseWhole widths record) =
      fileLonglong swapped offset record :=
  swapLL_reverses.ordered_not whole place swapped

end Flip

/-! ## pcap savefiles -/

/-- The widths of the fields of a record header: a patched library writes some more. -/
def recordWidths (hdrsize : Nat) : List Nat :=
  if hdrsize = patchedPktHdrSize then [4, 4, 4, 4, 4, 2, 1, 1] else [4, 4, 4, 4]

/-- The number of bytes that follow a record header. -/
def storedLength (swapped : Bool) (lengths : SwappedType) (raw : List Byte) : Nat :=
  (lengths.interchange (Pkthdr.read swapped raw)).caplen.toNat

/-- The records of a pcap savefile with the fields of their headers reversed. -/
def swapRecords (swapped : Bool) (lengths : SwappedType) (hdrsize : Nat) : Reframing where
  size := (recordWidths hdrsize).sum
  bodySize := storedLength swapped lengths
  header := reverseWhole (recordWidths hdrsize)
  body := fun _ stored => stored
  size_pos := by
    unfold recordWidths
    split <;> decide
  length_header := length_reverseWhole _
  length_body := fun _ _ => rfl

/-- The records of the file that a handle reads. -/
def PcapSf.swapRecords (sf : PcapSf) : Reframing :=
  Savefile.swapRecords sf.swapped sf.lengthsSwapped sf.hdrsize

/-- The handle of the same file in the other byte order. -/
def PcapSf.flip (sf : PcapSf) : PcapSf := { sf with swapped := !sf.swapped }

theorem Pkthdr.read_not (swapped : Bool) {widths : List Nat} (whole : widths.sum ≤ raw.length)
    (places : ∀ offset ∈ [0, 4, 8, 12], fieldAt widths offset 4 = true) :
    Pkthdr.read (!swapped) (reverseWhole widths raw) = Pkthdr.read swapped raw := by
  have fields : ∀ swapped raw, Pkthdr.read swapped raw =
      { caplen := fileLong swapped 8 raw
        len := fileLong swapped 12 raw
        ts := ⟨(fileLong swapped 0 raw).toInt, (fileLong swapped 4 raw).toInt⟩ } := by
    intro swapped raw
    cases swapped <;> rfl
  have same := fun offset listed => fileLong_not whole swapped (places offset listed)
  rw [fields, fields, same 0 (by decide), same 4 (by decide), same 8 (by decide),
    same 12 (by decide)]

/-- Both readers find the same header in front of a record. -/
theorem PcapSf.recordHeader_flip {sf : PcapSf} (sized : (recordWidths sf.hdrsize).sum = sf.hdrsize)
    (whole : raw.length = sf.hdrsize) :
    sf.flip.recordHeader (reverseWhole (recordWidths sf.hdrsize) raw) = sf.recordHeader raw := by
  have same : Pkthdr.read (!sf.swapped) (reverseWhole (recordWidths sf.hdrsize) raw) =
      Pkthdr.read sf.swapped raw := by
    have fits : (recordWidths sf.hdrsize).sum ≤ raw.length := by omega
    unfold recordWidths at fits ⊢
    split
    · rename_i patched
      rw [if_pos patched] at fits
      exact Pkthdr.read_not sf.swapped fits (by decide)
    · rename_i plain
      rw [if_neg plain] at fits
      exact Pkthdr.read_not sf.swapped fits (by decide)
  simp only [recordHeader, flip, same]

/-- The file with its frames rewritten. -/
def File.rewrite (file : File) (r : Reframing) : File := { file with unread := r.apply file.unread }

/-- Two states of the reader that differ in the unread bytes only. -/
def SameBut (unread unread' : List Byte) (s s' : File × Salvage) : Prop :=
  ∃ heap salvage, s = (⟨unread, heap⟩, salvage) ∧ s' = (⟨unread', heap⟩, salvage)

theorem growSalvage_coupled {unread unread' : List Byte} {s s' : File × Salvage}
    (same : SameBut unread unread' s s') (caplen : Nat) :
    Coupled (exec (growSalvage caplen) s) (exec (growSalvage caplen) s')
      (fun _ t _ t' => SameBut unread unread' t t') := by
  obtain ⟨heap, salvage, rfl, rfl⟩ := same
  simp only [growSalvage, exec_bind, exec_get, andThen_ok, exec_ite, exec_malloc, exec_modify,
    exec_throw, exec_pure]
  split
  · split
    · exact ⟨_, _, rfl, rfl⟩
    · rfl
  · exact ⟨_, _, rfl, rfl⟩

theorem readCaptured_coupled {unread unread' : List Byte} {s s' : File × Salvage}
    (same : SameBut unread unread' s s') {caplen : Nat}
    (taken : unread'.take caplen = unread.take caplen) :
    Coupled (exec (readCaptured caplen) s) (exec (readCaptured caplen) s')
      (fun data t data' t' => data' = data ∧
        SameBut (unread.drop caplen) (unread'.drop caplen) t t') := by
  obtain ⟨heap, salvage, rfl, rfl⟩ := same
  simp only [readCaptured, exec_bind, exec_fread, andThen_ok, exec_ite, exec_throw, exec_pure, taken]
  split
  · rfl
  · exact ⟨rfl, _, _, rfl, rfl⟩

theorem PcapSf.caplen_recordHeader (sf : PcapSf) (raw : List Byte) :
    (sf.recordHeader raw).caplen.toNat = storedLength sf.swapped sf.lengthsSwapped raw := by
  unfold recordHeader storedLength SwappedType.interchange
  cases sf.lengthsSwapped with
  | notSwapped => rfl
  | swapped => rfl
  | maybeSwapped =>
    simp only
    split <;> rfl

/-- **One record.** The reader of the file in the other byte order finds the same packet,
the same end of the file or the same error. -/
theorem pcapNextPacket_coupled {sf : PcapSf} (sized : (recordWidths sf.hdrsize).sum = sf.hdrsize)
    (plain : sf.linktype ≠ dltUsbLinux ∧ sf.linktype ≠ dltUsbLinuxMmapped)
    (file : File) (salvage : Salvage) :
    Coupled (exec (pcapNextPacket sf) (file, salvage))
      (exec (pcapNextPacket sf.flip) (file.rewrite sf.swapRecords, salvage))
      (fun packet s packet' s' => packet' = packet ∧
        s' = (s.1.rewrite sf.swapRecords, s.2)) := by
  have size : sf.swapRecords.size = sf.hdrsize := sized
  obtain ⟨header, -⟩ := sf.swapRecords.apply_parts file.unread
  obtain ⟨body, rest⟩ := sf.swapRecords.apply_body file.unread
  rw [size] at header body rest
  have toHost : ∀ caplen data, sf.toHost caplen data = data :=
    fun caplen data => Pcap.toHost_eq fun _ => plain
  have toHost' : ∀ caplen data, sf.flip.toHost caplen data = data :=
    fun caplen data => Pcap.toHost_eq fun _ => plain
  have first : Coupled (exec (fread sf.hdrsize : Reading Salvage String _) (file, salvage))
      (exec (fread sf.hdrsize) (file.rewrite sf.swapRecords, salvage))
      (fun raw t raw' t' => raw = file.unread.take sf.hdrsize ∧
        raw' = reverseWhole (recordWidths sf.hdrsize) raw ∧
        SameBut (file.unread.drop sf.hdrsize)
          ((sf.swapRecords.apply file.unread).drop sf.hdrsize) t t') := by
    refine ⟨rfl, ?_, _, _, rfl, rfl⟩
    exact header.trans (congrArg _ (congrArg file.unread.take size))
  refine first.bind ?_
  rintro raw t raw' t' ⟨isRaw, rfl, same⟩
  have flipped : sf.flip.hdrsize = sf.hdrsize ∧ sf.flip.bufsize = sf.bufsize := ⟨rfl, rfl⟩
  by_cases whole : raw.length = sf.hdrsize
  · have sameHdr := PcapSf.recordHeader_flip sized whole
    have stored : (sf.recordHeader raw).caplen.toNat =
        sf.swapRecords.bodySize (sf.swapRecords.first file.unread) := by
      rw [PcapSf.caplen_recordHeader, Reframing.first, size, ← isRaw]
      rfl
    simp only [flipped, length_reverseWhole, whole, ne_eq, not_true_eq_false, if_false, sameHdr,
      toHost, toHost']
    rw [← stored] at body rest
    have taken : ((sf.swapRecords.apply file.unread).drop sf.hdrsize).take
        (sf.recordHeader raw).caplen.toNat =
          (file.unread.drop sf.hdrsize).take (sf.recordHeader raw).caplen.toNat := by
      rw [body, stored, ← size]
      rfl
    have after : (file.unread.drop sf.hdrsize).drop (sf.recordHeader raw).caplen.toNat =
        sf.swapRecords.next file.unread := by
      rw [List.drop_drop, Reframing.next, size, ← stored]
    rw [exec_ite, exec_ite]
    split
    · split
      · rfl
      · refine (growSalvage_coupled same _).bind ?_
        rintro _ t₁ _ t₁' same₁
        refine (readCaptured_coupled same₁ taken).bind ?_
        rintro data t₂ _ t₂' ⟨rfl, heap, salvage, rfl, rfl⟩
        refine ⟨rfl, ?_⟩
        rw [rest, after]
        rfl
    · refine (readCaptured_coupled same taken).bind ?_
      rintro data t₂ _ t₂' ⟨rfl, heap, salvage, rfl, rfl⟩
      refine ⟨rfl, ?_⟩
      rw [rest, after]
      rfl
  · simp only [flipped, length_reverseWhole, whole, ne_eq, not_false_eq_true, if_true]
    obtain ⟨heap, salvage, rfl, rfl⟩ := same
    have atEnd : file.unread.length ≤ sf.hdrsize := by
      rw [isRaw, List.length_take] at whole
      omega
    rw [exec_ite, exec_ite]
    split
    · rfl
    · refine ⟨rfl, ?_⟩
      rw [File.rewrite, List.drop_eq_nil_of_le atEnd, List.drop_eq_nil_of_le (by simpa using atEnd)]
      rfl

/-! ## Opening a pcap savefile -/

/-- The size of the record headers of a file. -/
def hdrsizeOf (magic : BitVec 32) : Nat :=
  if magic = kuznetzovTcpdumpMagic then patchedPktHdrSize else pktHdrSize

/-- A pcap savefile in the other byte order, given its magic number in the host's byte
order and whether that was swapped. -/
def swapPcapFile (magic : BitVec 32) (swapped : Bool) (stream : List Byte) : List Byte :=
  let hdr := FileHeader.read swapped (field 4 20 stream)
  let records := swapRecords swapped (lengthsSwapped hdr.versionMajor hdr.versionMinor)
    (hdrsizeOf magic)
  (stream.take 4).reverse ++ (reverseWhole [2, 2, 4, 4, 4, 4] (field 4 20 stream) ++
    records.apply (stream.drop 24))

theorem FileHeader.read_not (swapped : Bool) (whole : raw.length = 20) :
    FileHeader.read (!swapped) (reverseWhole [2, 2, 4, 4, 4, 4] raw) =
      FileHeader.read swapped raw := by
  have fields : ∀ swapped raw, FileHeader.read swapped raw =
      { versionMajor := fileShort swapped 0 raw
        versionMinor := fileShort swapped 2 raw
        thiszone := fileLong swapped 4 raw
        sigfigs := fileLong swapped 8 raw
        snaplen := fileLong swapped 12 raw
        linktype := fileLong swapped 16 raw } := by
    intro swapped raw
    cases swapped <;> rfl
  have fits : List.sum [2, 2, 4, 4, 4, 4] ≤ raw.length := Nat.le_of_eq whole.symm
  simp (disch := decide) only [fields, fileShort_not fits, fileLong_not fits]

/-- The magic number says which byte order a file has. -/
theorem pcapMagic_swapLong {raw magic : BitVec 32} {swapped : Bool}
    (known : pcapMagic raw = some (magic, swapped)) :
    pcapMagic (swapLong raw) = some (magic, !swapped) := by
  have opposite : ∀ value, isPcapMagic value = true → isPcapMagic (swapLong value) = false := by
    intro value accepted
    simp only [isPcapMagic, Bool.or_eq_true, beq_iff_eq] at accepted
    rcases accepted with (rfl | rfl) | rfl <;> decide
  unfold pcapMagic at known ⊢
  split at known
  · rename_i accepted
    cases known
    rw [opposite raw accepted, swapLong_swapLong, accepted]
    rfl
  · split at known
    · rename_i accepted
      cases known
      rw [accepted]
      rfl
    · cases known

/-- **The file header.** Both readers accept the header, with handles that differ in the
byte order only, or fail alike. -/
theorem pcapCheckHeader_coupled {σ : Type} {raw magic : BitVec 32} {swapped : Bool}
    (known : pcapMagic raw = some (magic, swapped)) (precision : Nat) (unread : List Byte)
    (heap : Nat → Bool) (own : σ) :
    let hdr := FileHeader.read swapped (unread.take 20)
    let records := swapRecords swapped (lengthsSwapped hdr.versionMajor hdr.versionMinor)
      (hdrsizeOf magic)
    let unread' := reverseWhole [2, 2, 4, 4, 4, 4] (unread.take 20) ++
      records.apply (unread.drop 20)
    Coupled (exec (pcapCheckHeader raw precision) (⟨unread, heap⟩, own))
      (exec (pcapCheckHeader (swapLong raw) precision) (⟨unread', heap⟩, own))
      (fun accepted s accepted' s' => ∃ sf file, accepted = some sf ∧ accepted' = some sf.flip ∧
        (recordWidths sf.hdrsize).sum = sf.hdrsize ∧ s = (file, own) ∧
        s' = (file.rewrite sf.swapRecords, own)) := by
  intro hdr records unread'
  have cut : unread'.take 20 = reverseWhole [2, 2, 4, 4, 4, 4] (unread.take 20) ∧
      unread'.drop 20 = records.apply (unread.drop 20) := by
    apply Reframing.take_drop_append
    · rw [length_reverseWhole, List.length_take]
      omega
    · rw [length_reverseWhole, List.length_take]
      by_cases whole : 20 ≤ unread.length
      · exact .inl (by omega)
      · exact .inr (records.apply_nil_of_nil (List.drop_eq_nil_of_le (by omega)))
  have sized : (recordWidths (hdrsizeOf magic)).sum = hdrsizeOf magic := by
    unfold hdrsizeOf
    split <;> decide
  simp only [pcapCheckHeader, known, pcapMagic_swapLong known, exec_bind, exec_fread, andThen_ok,
    exec_ite, cut, length_reverseWhole]
  split
  · rfl
  rename_i whole
  rw [FileHeader.read_not swapped (not_not.mp whole)]
  simp only [exec_ite, exec_bind, exec_malloc, andThen_ok, exec_throw]
  split
  · rfl
  split
  · rfl
  cases scaleType precision magic with
  | none => rfl
  | some scale =>
    simp only [exec_ite, exec_bind, exec_malloc, andThen_ok, exec_throw, exec_pure]
    split
    · rfl
    · exact ⟨_, _, rfl, rfl, sized, rfl, rfl⟩

end Libpcap.Savefile
