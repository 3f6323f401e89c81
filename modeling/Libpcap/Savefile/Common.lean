/-
# What the savefile formats share

The macros that swap the bytes of a value, the correspondence between the link
types of files and those of the library, the headers handed to the caller, and
the conversion of the USB pseudo-headers (`pcap-common.c`, `pcap-common.h`,
`pcap-int.h`). The reading host is little-endian, so a field is read with its
least significant byte first, and a file of the other byte order is big-endian.
-/

import Libpcap.Gencode.Linktype
import Libpcap.Semantics.Bytes
import Libpcap.Semantics.Fallible
import Mathlib.Tactic.IntervalCases

namespace Libpcap.Savefile

open Libpcap.Semantics Libpcap.Gencode

/-! ## Fields of the host's byte order -/

/-- A `u_short` field. -/
abbrev short (offset : Nat) (record : List Byte) : BitVec 16 := word 16 2 offset record

/-- A `bpf_u_int32` or `bpf_int32` field. -/
abbrev long (offset : Nat) (record : List Byte) : BitVec 32 := word 32 4 offset record

/-- A `u_int64_t` field. -/
abbrev longlong (offset : Nat) (record : List Byte) : BitVec 64 := word 64 8 offset record

/-! ## Byte swapping -/

def swapShort (y : BitVec 16) : BitVec 16 :=
  (y &&& 0xff) <<< 8 ||| (y &&& 0xff00) >>> 8

def swapLong (y : BitVec 32) : BitVec 32 :=
  (y &&& 0xff) <<< 24 ||| (y &&& 0xff00) <<< 8 ||| (y &&& 0xff0000) >>> 8 ||| (y >>> 24 &&& 0xff)

def swapLL (ull : BitVec 64) : BitVec 64 :=
  (ull &&& 0xff00000000000000) >>> 56 |||
  (ull &&& 0x00ff000000000000) >>> 40 |||
  (ull &&& 0x0000ff0000000000) >>> 24 |||
  (ull &&& 0x000000ff00000000) >>> 8 |||
  (ull &&& 0x00000000ff000000) <<< 8 |||
  (ull &&& 0x0000000000ff0000) <<< 24 |||
  (ull &&& 0x000000000000ff00) <<< 40 |||
  (ull &&& 0x00000000000000ff) <<< 56

theorem swapShort_reverses : Reverses 2 swapShort := by
  intro y i inside
  unfold swapShort
  interval_cases i <;> simp

theorem swapLong_reverses : Reverses 4 swapLong := by
  intro y i inside
  unfold swapLong
  interval_cases i <;> simp

theorem swapLL_reverses : Reverses 8 swapLL := by
  intro ull i inside
  unfold swapLL
  interval_cases i <;> simp

@[simp]
theorem swapLong_swapLong (y : BitVec 32) : swapLong (swapLong y) = y :=
  swapLong_reverses.swap_swap y

/-! ## Link types of files -/

/-- The entries of `map[]`, a link type of the library with the link type that
files use for it. -/
def linktypeMap : List (Nat × Nat) :=
  [(dltNull, 0), (dltEn10mb, 1), (2, 2), (3, 3), (4, 4), (5, 5), (dltIeee802, 6), (dltArcnet, 7),
    (dltSlip, 8), (dltPpp, 9), (dltFddi, 10), (dltSymantecFirewall, 99), (dltAtmRfc1483, 100),
    (dltRaw, 101), (dltSlipBsdos, 102), (dltPppBsdos, 103), (dltCHdlc, 104), (dltAtmClip, 106),
    (dltPppSerial, 50), (dltPppEther, 51)]

def linktypePfsync : Nat := 246

/-- `dlt_to_linktype`: `none` stands for `-1`. -/
def dltToLinktype (dlt : Nat) : Option Nat :=
  if dlt = dltPfsync then some linktypePfsync
  else if dltMatchingMin ≤ dlt ∧ dlt ≤ dltMatchingMax then some dlt
  else (linktypeMap.find? fun entry => entry.1 = dlt).map Prod.snd

/-- `linktype_to_dlt`: a link type without an entry is taken as it is. -/
def linktypeToDlt (linktype : Nat) : Nat :=
  if linktype = linktypePfsync then dltPfsync
  else if dltMatchingMin ≤ linktype ∧ linktype ≤ dltMatchingMax then linktype
  else ((linktypeMap.find? fun entry => entry.2 = linktype).map Prod.fst).getD linktype

/-- `dlt_to_linktype` on an arbitrary `int`, with `-1` for a link type that files do not
have. -/
def dltToLinktypeInt (dlt : Int) : Int :=
  if dlt = dltPfsync then linktypePfsync
  else if dltMatchingMin ≤ dlt ∧ dlt ≤ dltMatchingMax then dlt
  else ((linktypeMap.find? fun entry => entry.1 = dlt).map fun entry => (entry.2 : Int)).getD (-1)

/-- `linktype_to_dlt` on an arbitrary `int`. -/
def linktypeToDltInt (linktype : Int) : Int :=
  if linktype = linktypePfsync then dltPfsync
  else if dltMatchingMin ≤ linktype ∧ linktype ≤ dltMatchingMax then linktype
  else ((linktypeMap.find? fun entry => entry.2 = linktype).map
    fun entry => (entry.1 : Int)).getD linktype

/-- On a link type that is not negative the two readings agree. -/
theorem dltToLinktypeInt_natCast (dlt : Nat) :
    dltToLinktypeInt dlt = ((dltToLinktype dlt).map Int.ofNat).getD (-1) := by
  unfold dltToLinktypeInt dltToLinktype
  simp only [Int.ofNat_inj, Int.ofNat_le]
  split
  · rfl
  split
  · rfl
  · cases linktypeMap.find? fun entry => entry.1 = dlt <;> rfl

theorem linktypeToDltInt_natCast (linktype : Nat) :
    linktypeToDltInt linktype = linktypeToDlt linktype := by
  unfold linktypeToDltInt linktypeToDlt
  simp only [Int.ofNat_inj, Int.ofNat_le]
  split
  · rfl
  split
  · rfl
  · cases linktypeMap.find? fun entry => entry.2 = linktype <;> rfl

/-- No entry of the table is negative. -/
theorem dltToLinktypeInt_of_neg {dlt : Int} (negative : dlt < 0) : dltToLinktypeInt dlt = -1 := by
  have absent : (linktypeMap.find? fun entry => entry.1 = dlt) = none := by
    apply List.find?_eq_none.mpr
    intro entry _ same
    have : (entry.1 : Int) = dlt := by simpa using same
    omega
  unfold dltToLinktypeInt
  rw [if_neg, if_neg, absent]
  · rfl
  · intro between
    have : (dltMatchingMin : Int) = 104 := rfl
    omega
  · intro same
    have : (dltPfsync : Int) = 246 := rfl
    omega

/-- Reading an entry of the table backwards finds it again, unless the link type it
gives lies in the range where the two numberings are taken to agree. -/
theorem linktypeToDlt_of_mem :
    ∀ entry ∈ linktypeMap, (linktypeToDlt entry.2 = entry.1 ↔ entry.1 ≠ dltAtmClip) := by
  decide

/-- The one link type that files do not give back: classical IP over ATM is written as
106, which is read as 106. -/
theorem linktypeToDlt_dltToLinktype {dlt linktype : Nat}
    (supported : dltToLinktype dlt = some linktype) :
    linktypeToDlt linktype = dlt ↔ dlt ≠ dltAtmClip := by
  unfold dltToLinktype at supported
  split at supported
  · rename_i pfsync
    cases supported
    subst pfsync
    decide
  split at supported
  · rename_i other between
    cases supported
    have elsewhere : dlt ≠ linktypePfsync := other
    have unmapped : linktypeToDlt dlt = dlt := by
      rw [linktypeToDlt, if_neg elsewhere, if_pos between]
    have large : dlt ≠ dltAtmClip := by
      have : dltMatchingMin ≤ dlt := between.1
      unfold dltMatchingMin at this
      unfold dltAtmClip
      omega
    exact iff_of_true unmapped large
  · obtain ⟨entry, found, rfl⟩ := Option.map_eq_some_iff.mp supported
    have same : entry.1 = dlt := by simpa using List.find?_some found
    rw [← same]
    exact linktypeToDlt_of_mem entry (List.mem_of_find?_eq_some found)

theorem linktypeMap_le : ∀ entry ∈ linktypeMap, entry.2 ≤ dltMatchingMax := by decide

/-- The link types of files that the mapping changes. -/
theorem linktypeToDlt_eq_self_iff (linktype : Nat) :
    linktypeToDlt linktype = linktype ↔ linktype ∉ [100, 101, 102, 103] := by
  unfold linktypeToDlt
  split
  · rename_i pfsync
    subst pfsync
    decide
  split
  · rename_i between
    have : dltMatchingMin ≤ linktype := between.1
    unfold dltMatchingMin at this
    simp
    omega
  · cases found : linktypeMap.find? fun entry => entry.2 = linktype with
    | none =>
      have listed : ∀ changed ∈ [100, 101, 102, 103],
          ∃ entry ∈ linktypeMap, entry.2 = changed := by decide
      refine iff_of_true rfl ?_
      intro changed
      obtain ⟨entry, within, same⟩ := listed linktype changed
      have absent := List.find?_eq_none.mp found entry within
      simp [same] at absent
    | some entry =>
      have listed : ∀ entry ∈ linktypeMap, entry.2 < dltMatchingMin →
          (entry.1 = entry.2 ↔ entry.2 ∉ [100, 101, 102, 103]) := by decide
      have same : entry.2 = linktype := by simpa using List.find?_some found
      have small : entry.2 < dltMatchingMin := by
        have most := linktypeMap_le entry (List.mem_of_find?_eq_some found)
        rename_i outside
        rw [← same] at outside
        omega
      rw [Option.map_some, Option.getD_some, ← same]
      exact listed entry (List.mem_of_find?_eq_some found) small

/-! ## Packets handed to the caller -/

/-- `PCAP_TSTAMP_PRECISION_MICRO` -/
def tstampPrecisionMicro : Nat := 0

/-- `PCAP_TSTAMP_PRECISION_NANO` -/
def tstampPrecisionNano : Nat := 1

/-- `struct timeval`; the second field is in the unit the user asked for. -/
structure Timeval where
  tvSec : Int
  tvUsec : Int
  deriving DecidableEq, Repr

/-- `struct pcap_pkthdr` -/
structure Pkthdr where
  ts : Timeval
  caplen : BitVec 32
  len : BitVec 32
  deriving DecidableEq, Repr

/-- What a call of the next-packet routine returns: `-1` with a text in `errbuf`, `1`
at the end of the file, `0` with a packet. -/
abbrev Outcome := Except String (Option (Pkthdr × List Byte))

inductive TstampScaleType
  | passThrough
  | scaleUp
  | scaleDown
  deriving DecidableEq, Repr

/-- The members of `pcap_t` that the routines of both formats use. -/
structure Pcap where
  swapped : Bool
  tzoff : BitVec 32
  snapshot : BitVec 32
  linktype : Nat
  linktypeExt : BitVec 32
  tstampPrecision : Nat
  deriving DecidableEq, Repr

/-! ## The file and the allocator -/

/-- A file open for reading, and the answers that the allocator is going to give.
The file has no read errors. -/
structure File where
  unread : List Byte
  heap : Nat → Bool

/-- A routine that reads from a file and keeps a state of its own. -/
abbrev Reading (σ ε α : Type) := Fallible (File × σ) ε α

section Reading

variable {σ ε : Type}

/-- `fread` of `n` bytes: fewer at the end of the file. -/
def fread (n : Nat) : Reading σ ε (List Byte) :=
  modifyGet fun (file, own) =>
    (file.unread.take n, ({ file with unread := file.unread.drop n }, own))

/-- `malloc` or `realloc`: whether it succeeds. -/
def malloc : Reading σ ε Bool :=
  modifyGet fun (file, own) => (file.heap 0, ({ file with heap := fun i => file.heap (i + 1) }, own))

@[simp]
theorem exec_fread (n : Nat) (file : File) (own : σ) :
    exec (fread n : Reading σ ε _) (file, own) =
      (.ok (file.unread.take n), ({ file with unread := file.unread.drop n }, own)) := rfl

@[simp]
theorem exec_malloc (file : File) (own : σ) :
    exec (malloc : Reading σ ε _) (file, own) =
      (.ok (file.heap 0), ({ file with heap := fun i => file.heap (i + 1) }, own)) := rfl

end Reading

/-! ## USB pseudo-headers -/

/-- Reverse the bytes of one field in place. -/
def swapAt (offset n : Nat) (buf : List Byte) : List Byte :=
  buf.take offset ++ (field offset n buf).reverse ++ buf.drop (offset + n)

@[simp]
theorem length_swapAt (offset n : Nat) (buf : List Byte) :
    (swapAt offset n buf).length = buf.length := by
  simp only [swapAt, field, List.length_append, List.length_reverse, List.length_take,
    List.length_drop]
  omega

/-- A state of the conversion: the bytes, and the offset behind the last field that
was swapped, `none` once the function has returned. -/
abbrev UsbSwap := Option Nat × List Byte

/-- Go on unless the function has returned. -/
def UsbSwap.andThen (state : UsbSwap) (next : Nat → List Byte → UsbSwap) : UsbSwap :=
  match state with
  | (none, buf) => (none, buf)
  | (some offset, buf) => next offset buf

/-- Swap fields one after the other, each given by the bytes to skip in front of
it and its width, as long as the captured bytes reach past the field. The offset
that is compared is a `bpf_u_int32`. -/
def swapThrough (caplen : Nat) : List (Nat × Nat) → Nat → List Byte → UsbSwap
  | [], offset, buf => (some offset, buf)
  | (skip, n) :: fields, offset, buf =>
    if caplen < (offset + skip + n) % 2 ^ 32 then (none, buf)
    else swapThrough caplen fields (offset + skip + n) (swapAt (offset + skip) n buf)

/-- `id`, `bus_id`, `ts_sec`, `ts_usec`, `status`, `urb_len`, `data_len` -/
def usbHeaderFields : List (Nat × Nat) :=
  [(0, 8), (4, 2), (2, 8), (0, 4), (0, 4), (0, 4), (0, 4)]

/-- `s.iso.error_count`, `s.iso.numdesc` -/
def usbIsoFields : List (Nat × Nat) := [(0, 4), (0, 4)]

/-- `interval`, `start_frame`, `xfer_flags`, `ndesc` -/
def usbMmappedFields : List (Nat × Nat) := [(0, 4), (0, 4), (0, 4), (0, 4)]

/-- `status`, `offset`, `len` of a `usb_isodesc`, which ends with four bytes of
padding. -/
def usbIsodescFields : List (Nat × Nat) := [(0, 4), (0, 4), (0, 4)]

/-- The loop over the isochronous descriptors. -/
def swapIsodescs (caplen : Nat) : Nat → Nat → List Byte → UsbSwap
  | 0, offset, buf => (some offset, buf)
  | numdesc + 1, offset, buf =>
    (swapThrough caplen usbIsodescFields offset buf).andThen fun offset buf =>
      swapIsodescs caplen numdesc (offset + 4) buf

/-- `swap_linux_usb_header`. The transfer type is the tenth byte of the header, and
`URB_ISOCHRONOUS` is zero; `numdesc` is a signed field behind 44 bytes. -/
def swapLinuxUsbHeader (caplen : Nat) (buf : List Byte) (headerLen64Bytes : Bool) : List Byte :=
  let swapped :=
    (swapThrough caplen usbHeaderFields 0 buf).andThen fun offset buf =>
      let isochronous := buf[9]? = some 0
      UsbSwap.andThen
        (if isochronous then swapThrough caplen usbIsoFields offset buf else (some (offset + 8), buf))
        fun offset buf =>
          UsbSwap.andThen
            (if headerLen64Bytes then swapThrough caplen usbMmappedFields offset buf
              else (some offset, buf))
            fun offset buf =>
              if isochronous then swapIsodescs caplen (long 44 buf).toInt.toNat offset buf
              else (some offset, buf)
  swapped.2

section Length

variable {caplen : Nat}

theorem UsbSwap.length_andThen {state : UsbSwap} {next : Nat → List Byte → UsbSwap}
    (before : state.2.length = caplen)
    (step : ∀ offset buf, buf.length = caplen → (next offset buf).2.length = caplen) :
    (state.andThen next).2.length = caplen := by
  obtain ⟨offset, buf⟩ := state
  cases offset with
  | none => exact before
  | some offset => exact step offset buf before

theorem length_swapThrough (fields : List (Nat × Nat)) (offset : Nat) (buf : List Byte)
    (captured : buf.length = caplen) :
    (swapThrough caplen fields offset buf).2.length = caplen := by
  induction fields generalizing offset buf with
  | nil => exact captured
  | cons first fields ih =>
    rw [swapThrough]
    split
    · exact captured
    · exact ih _ _ ((length_swapAt _ _ _).trans captured)

theorem length_swapIsodescs (numdesc offset : Nat) (buf : List Byte)
    (captured : buf.length = caplen) :
    (swapIsodescs caplen numdesc offset buf).2.length = caplen := by
  induction numdesc generalizing offset buf with
  | zero => exact captured
  | succ numdesc ih =>
    apply UsbSwap.length_andThen
    · exact length_swapThrough usbIsodescFields offset buf captured
    · intro offset buf captured
      exact ih (offset + 4) buf captured

/-- The conversion keeps the number of captured bytes. -/
theorem length_swapLinuxUsbHeader (buf : List Byte) (headerLen64Bytes : Bool)
    (captured : buf.length = caplen) :
    (swapLinuxUsbHeader caplen buf headerLen64Bytes).length = caplen := by
  apply UsbSwap.length_andThen
  · exact length_swapThrough usbHeaderFields 0 buf captured
  intro offset buf captured
  apply UsbSwap.length_andThen
  · split
    · exact length_swapThrough usbIsoFields offset buf captured
    · exact captured
  intro offset buf captured
  apply UsbSwap.length_andThen
  · split
    · exact length_swapThrough usbMmappedFields offset buf captured
    · exact captured
  intro offset buf captured
  split
  · exact length_swapIsodescs _ offset buf captured
  · exact captured

end Length

/-- The pseudo-headers that are in the byte order of the capturing host. -/
def Pcap.toHost (p : Pcap) (caplen : Nat) (data : List Byte) : List Byte :=
  if p.swapped then
    if p.linktype = dltUsbLinux then swapLinuxUsbHeader caplen data false
    else if p.linktype = dltUsbLinuxMmapped then swapLinuxUsbHeader caplen data true
    else data
  else data

/-- Only the pseudo-headers of a USB capture in the other byte order are converted. -/
theorem Pcap.toHost_eq {p : Pcap} {caplen : Nat} {data : List Byte}
    (plain : p.swapped = true → p.linktype ≠ dltUsbLinux ∧ p.linktype ≠ dltUsbLinuxMmapped) :
    p.toHost caplen data = data := by
  unfold toHost
  split
  · rename_i swapped
    rw [if_neg (plain swapped).1, if_neg (plain swapped).2]
  · rfl

theorem Pcap.length_toHost {p : Pcap} {caplen : Nat} {data : List Byte}
    (captured : data.length = caplen) : (p.toHost caplen data).length = caplen := by
  unfold toHost
  split
  · split
    · exact length_swapLinuxUsbHeader data false captured
    · split
      · exact length_swapLinuxUsbHeader data true captured
      · exact captured
  · exact captured

end Libpcap.Savefile
