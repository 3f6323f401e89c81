/-
# Fields of a packet

A field is a big-endian number of one, two or four captured bytes. A load at an
index, read as an `int`, whose bytes have all been captured yields the field
there.
-/

import Libpcap.Bpf.Loads

namespace Libpcap.Bpf.Packet

variable {size : Size} {k v : Word}

variable (p : Packet)

/-- The field at an index, when all its bytes have been captured. -/
def field (size : Size) (k : Word) : Option Word :=
  if 0 ≤ k.toInt ∧ k.toInt + size.bytes ≤ p.buflen then
    some (bigEndian ((p.data.drop k.toNat).take size.bytes))
  else none

theorem field_eq_some (found : p.field size k = some v) :
    k.toInt = k.toNat ∧ k.toNat < 2 ^ 31 ∧ k.toNat + size.bytes ≤ p.buflen ∧
      v = bigEndian ((p.data.drop k.toNat).take size.bytes) := by
  have bound := k.isLt
  have signed := BitVec.toInt_eq_toNat_cond k
  unfold field at found
  split at found
  · rename_i inside
    cases found
    split at signed <;> refine ⟨by omega, by omega, by omega, rfl⟩
  · cases found

/-- The bytes from an index on. -/
theorem map_byteAt {k n : Nat} (inside : k + n ≤ p.buflen) :
    ((List.range n).map fun j : Nat => (k : Int) + (j : Int)).map p.byteAt =
      (p.data.drop k).take n := by
  apply List.ext_getElem?
  intro i
  by_cases below : i < n
  · have here : k + i < p.data.length := by
      rw [buflen] at inside
      omega
    have index : ((k : Int) + (i : Int)).toNat = k + i := by omega
    have positive : (0 : Int) ≤ (k : Int) + (i : Int) := by omega
    simp [below, byteAt, index, positive, here]
  · simp [below]

theorem read_touchedSized {n k : Nat} {w : Word} (index : w.toInt = k) (toNat : w.toNat = k)
    (small : k < 2 ^ 31) (width : n < 2 ^ 31) (inside : k + n ≤ p.buflen) :
    p.read (p.touchedSized n w) = .ok (bigEndian ((p.data.drop k).take n)) := by
  have sum := signExtend_add_toNat w n width
  rw [toNat, if_pos small] at sum
  rw [touchedSized, sum, if_neg (Nat.not_lt.mpr inside), read, index, p.map_byteAt inside]

/-- A load of a field yields the field. -/
theorem read_touched_of_field (found : p.field size k = some v) :
    p.read (p.touched size k) = .ok v := by
  obtain ⟨index, small, inside, rfl⟩ := p.field_eq_some found
  cases size with
  | w | h => exact p.read_touchedSized index rfl small (by decide) inside
  | b =>
    have bytes := p.map_byteAt inside
    simp only [Size.bytes, List.range_one, List.map_cons, List.map_nil, Nat.cast_zero,
      add_zero] at bytes inside ⊢
    have accepted : ¬ p.buflen ≤ k.toNat := by omega
    simp only [touched, if_neg accepted, read, index, List.map_cons, List.map_nil, bytes]

theorem read_touchedMsh_of_field (found : p.field .b k = some v) :
    p.read (p.touchedMsh k) = .ok v := by
  have loaded := p.read_touched_of_field found
  obtain ⟨index, _⟩ := p.field_eq_some found
  simpa only [touched, touchedMsh, index] using loaded

/-! ## Numbers at an index -/

/-- The number at an index, when all its bytes have been captured. -/
def number (size : Size) (k : Nat) : Option Word :=
  if k + size.bytes ≤ p.buflen then some (bigEndian ((p.data.drop k).take size.bytes)) else none

/-- A number, or the rejection of a packet that does not have it. -/
def orReject : Option Word → Except Result Word
  | some x => .ok x
  | none => .error (.reject .load)

theorem le_buflen_of_number {k : Nat} {x : Word} (found : p.number size k = some x) :
    k + size.bytes ≤ p.buflen := by
  unfold number at found
  split at found
  · assumption
  · cases found

/-- A load at an index below 2^31 yields the number there, or rejects the packet; in a packet of
at most 2^31 bytes the index may be larger. -/
theorem read_touched_eq_number (size : Size)
    (low : p.buflen ≤ 2 ^ 31 ∧ k.toNat + 4 < 2 ^ 32 ∨ k.toNat < 2 ^ 31) :
    p.read (p.touched size k) = orReject (p.number size k.toNat) := by
  by_cases inside : k.toNat + size.bytes ≤ p.buflen
  · have positive : 0 < size.bytes := by cases size <;> decide
    have signed : k.toInt = k.toNat := BitVec.toInt_eq_toNat_of_lt (by omega)
    have field : p.field size k = some (bigEndian ((p.data.drop k.toNat).take size.bytes)) := by
      rw [field, if_pos (by omega)]
    rw [p.read_touched_of_field field, number, if_pos inside, orReject]
  · have beyond : ∀ n, n ≤ 4 → p.buflen < k.toNat + n → p.touchedSized n k = none := by
      intro n bound past
      have sum := signExtend_add_toNat k n (by omega)
      rw [touchedSized, if_pos]
      split at sum <;> omega
    have rejected : p.touched size k = none := by
      cases size with
      | w => exact beyond 4 (by decide) (Nat.lt_of_not_le inside)
      | h => exact beyond 2 (by decide) (Nat.lt_of_not_le inside)
      | b =>
        have past : p.buflen ≤ k.toNat := Nat.le_of_lt_succ (Nat.lt_of_not_le inside)
        rw [touched, if_pos past]
    simp only [rejected, read, number, if_neg inside, orReject]

end Libpcap.Bpf.Packet
