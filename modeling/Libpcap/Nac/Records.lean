/-
# Records in the receive ring

The card writes a stream of records, one behind the other: a header of 16 bytes, with
the length `rlen` of the record and the length `wlen` of the packet on the wire in network
byte order, and the bytes of the packet. The host reads them through a buffer that is
mapped twice, so that a record that wraps around the ring is in one piece.
-/

import Libpcap.Nac.Receive

namespace Libpcap.Nac

open Libpcap.Semantics Libpcap.Semantics.Ring

variable {j n : Nat}

/-! ## Records -/

def nacRecordLen : Nat := 16

/-- `ntohs` of the two bytes at an address. -/
def ntohs (bytes : Nat → Byte) (address : Nat) : Nat :=
  (bytes address).toNat * 256 + (bytes (address + 1)).toNat

/-- `ntohs(erf_ptr->rlen)` -/
def rlenAt (bytes : Nat → Byte) (address : Nat) : Nat := ntohs bytes (address + 10)

/-- `ntohs(erf_ptr->wlen)` -/
def wlenAt (bytes : Nat → Byte) (address : Nat) : Nat := ntohs bytes (address + 14)

/-- The bytes at an address. -/
def bytesAt (bytes : Nat → Byte) (address n : Nat) : List Byte :=
  (List.range n).map fun i => bytes (address + i)

/-- Where the records of a stream begin. -/
def recordStart (data : Nat → Byte) : Nat → Nat
  | 0 => 0
  | k + 1 => recordStart data k + rlenAt data (recordStart data k)

theorem length_bytesAt (bytes : Nat → Byte) (address n : Nat) :
    (bytesAt bytes address n).length = n := by
  rw [bytesAt, List.length_map, List.length_range]

theorem take_bytesAt (bytes : Nat → Byte) (address : Nat) {m : Nat} (fewer : m ≤ n) :
    (bytesAt bytes address n).take m = bytesAt bytes address m := by
  rw [bytesAt, bytesAt, ← List.map_take, List.take_range, Nat.min_eq_left fewer]

/-! ## The records as the host sees them -/

/-- The buffer, which is mapped twice. -/
def RxStream.view (stream : RxStream) (s : RxState) : Nat → Byte :=
  fun offset => s.buf (offset % stream.size)

namespace RxState.Inv

variable {stream : RxStream} {data : Nat → Byte} {s : RxState}

variable (inv : s.Inv stream data)
include inv

/-- From the bottom pointer on, the host sees what the card has written. -/
theorem view (written : s.consumed + j < s.record) :
    stream.view s (s.bottom + j) = data (s.consumed + j) := by
  have cell : (s.bottom + j) % stream.size = (s.consumed + j) % stream.size :=
    Nat.ModEq.add_right j inv.same
  rw [RxStream.view, cell]
  exact inv.unread _ (Nat.le_add_right _ _) written

theorem ntohs_view (written : s.consumed + j + 1 < s.record) :
    ntohs (stream.view s) (s.bottom + j) = ntohs data (s.consumed + j) := by
  rw [ntohs, ntohs, inv.view (by omega), Nat.add_assoc, inv.view (by omega), Nat.add_assoc]

/-- The header of the next record is what the card has written. -/
theorem header_view (written : s.consumed + nacRecordLen ≤ s.record) :
    rlenAt (stream.view s) s.bottom = rlenAt data s.consumed ∧
      wlenAt (stream.view s) s.bottom = wlenAt data s.consumed := by
  simp only [nacRecordLen] at written
  exact ⟨inv.ntohs_view (by omega), inv.ntohs_view (by omega)⟩

/-- So are the bytes behind it. -/
theorem bytesAt_view (written : s.consumed + j + n ≤ s.record) :
    bytesAt (stream.view s) (s.bottom + j) n = bytesAt data (s.consumed + j) n := by
  apply List.map_congr_left
  intro i below
  have less := List.mem_range.mp below
  rw [Nat.add_assoc, Nat.add_assoc]
  exact inv.view (by omega)

/-- The window that was returned lies below the record pointer. -/
theorem written_of_le_top {top : Nat} (phase : s.phase = .returned top)
    (inside : s.bottom + n ≤ top) : s.consumed + n ≤ s.record := by
  have returned := inv.phase
  rw [PhaseInv, phase] at returned
  omega

end RxState.Inv

end Libpcap.Nac
