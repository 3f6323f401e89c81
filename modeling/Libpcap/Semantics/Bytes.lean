/-
# Little-endian fields of byte strings

A record of a binary format is a string of bytes in which fields of known widths
follow one another. A field of `n` bytes is read as the number whose least
significant byte comes first; on a machine of the other byte order the same field
is written with its bytes reversed. The lemmas relate the reading of a field to
its place in the record, to the writing of a number and to the reversal of every
field of the record.
-/

import Mathlib.Algebra.BigOperators.Group.List.Basic
import Mathlib.Tactic.Ring

namespace Libpcap.Semantics

open List

variable {record stream : List Byte} {k n offset : Nat}

abbrev Byte := BitVec 8

/-! ## Numbers and bytes -/

/-- The number with the given bytes, least significant first. -/
def leNat : List Byte → Nat
  | [] => 0
  | low :: rest => low.toNat + 256 * leNat rest

/-- The `n` low bytes of a number, least significant first. -/
def leBytes : Nat → Nat → List Byte
  | 0, _ => []
  | n + 1, value => BitVec.ofNat 8 value :: leBytes n (value / 256)

@[simp]
theorem length_leBytes (n value : Nat) : (leBytes n value).length = n := by
  induction n generalizing value with
  | zero => rfl
  | succ n ih => simp [leBytes, ih]

/-- Writing a number and reading it back keeps its low bytes. -/
theorem leNat_leBytes (n value : Nat) : leNat (leBytes n value) = value % 256 ^ n := by
  induction n generalizing value with
  | zero => simp [leBytes, leNat, Nat.mod_one]
  | succ n ih =>
    have split : 256 ^ (n + 1) = 256 * 256 ^ n := pow_succ' 256 n
    rw [leBytes, leNat, ih, BitVec.toNat_ofNat, split, Nat.mod_mul]

/-- The bits of a number are the bits of its bytes. -/
theorem testBit_leNat (bytes : List Byte) (i : Nat) :
    (leNat bytes).testBit i = (bytes[i / 8]?.getD 0).getLsbD (i % 8) := by
  induction bytes generalizing i with
  | nil => simp [leNat]
  | cons low rest ih =>
    have split : leNat (low :: rest) = 2 ^ 8 * leNat rest + low.toNat := by
      rw [leNat]
      omega
    rw [split, Nat.testBit_two_pow_mul_add _ low.isLt]
    by_cases first : i < 8
    · rw [if_pos first, Nat.div_eq_of_lt first, Nat.mod_eq_of_lt first]
      simp [BitVec.testBit_toNat]
    · have quotient : i / 8 = (i - 8) / 8 + 1 := by omega
      have remainder : i % 8 = (i - 8) % 8 := by omega
      rw [if_neg first, ih, quotient, remainder, getElem?_cons_succ]

/-! ## Fields -/

/-- The `n` bytes of a record from `offset` on. -/
def field (offset n : Nat) (record : List Byte) : List Byte :=
  (record.drop offset).take n

/-- The field of `n` bytes read as a word of `w` bits. -/
def word (w n offset : Nat) (record : List Byte) : BitVec w :=
  BitVec.ofNat w (leNat (field offset n record))

theorem length_field (fits : offset + n ≤ record.length) : (field offset n record).length = n := by
  simp [field]
  omega

/-- A field is not changed by what follows the record. -/
theorem field_append (rest : List Byte) (fits : offset + n ≤ record.length) :
    field offset n (record ++ rest) = field offset n record := by
  unfold field
  rw [drop_append_of_le_length (by omega), take_append_of_le_length]
  simp
  omega

/-- A field is not changed by cutting off what follows it. -/
theorem field_take (record : List Byte) (inside : offset + n ≤ k) :
    field offset n (record.take k) = field offset n record := by
  rw [field, drop_take, take_take, Nat.min_eq_left (by omega), field]

/-- The first bytes of a field. -/
theorem take_field (record : List Byte) (fewer : k ≤ n) :
    (field offset n record).take k = field offset k record := by
  rw [field, take_take, Nat.min_eq_left fewer, field]

/-- A field without its first bytes. -/
theorem drop_field (offset n k : Nat) (record : List Byte) :
    (field offset n record).drop k = field (offset + k) (n - k) record := by
  rw [field, drop_take, drop_drop, field]

/-- The fields of a record behind some bytes. -/
theorem field_append_right (front record : List Byte) :
    field (front.length + offset) n (front ++ record) = field offset n record := by
  unfold field
  rw [drop_append, drop_eq_nil_of_le (by omega), nil_append, Nat.add_sub_cancel_left]

/-- A word written at the front of a record is read back. -/
theorem word_leBytes {w : Nat} (value : BitVec w) (rest : List Byte) (holds : 2 ^ w ≤ 256 ^ n) :
    word w n 0 (leBytes n value.toNat ++ rest) = value := by
  have bytes : field 0 n (leBytes n value.toNat ++ rest) = leBytes n value.toNat := by
    rw [field_append rest (by simp), field, drop_zero, take_of_length_le (by simp)]
  have small : value.toNat < 256 ^ n := Nat.lt_of_lt_of_le value.isLt holds
  rw [word, bytes, leNat_leBytes, Nat.mod_eq_of_lt small]
  simp

/-- A word behind other bytes is a word of the rest. -/
theorem word_append_of_le {w : Nat} (front record : List Byte) (behind : front.length ≤ offset) :
    word w n offset (front ++ record) = word w n (offset - front.length) record := by
  obtain ⟨further, rfl⟩ := Nat.exists_eq_add_of_le behind
  rw [word, field_append_right, Nat.add_sub_cancel_left, word]

/-! ## Reversing the fields -/

/-- Each field of the given widths with its bytes reversed, up to the first that is not
there as a whole. -/
def reverseWhole : List Nat → List Byte → List Byte
  | [], record => record
  | n :: widths, record =>
    if record.length < n then record
    else (record.take n).reverse ++ reverseWhole widths (record.drop n)

@[simp]
theorem length_reverseWhole (widths : List Nat) (record : List Byte) :
    (reverseWhole widths record).length = record.length := by
  induction widths generalizing record with
  | nil => rfl
  | cons n widths ih =>
    rw [reverseWhole]
    split
    · rfl
    · rw [length_append, length_reverse, ih, ← length_append, take_append_drop]

/-- A field of `n` bytes begins at `offset` in a record with fields of the given widths. -/
def fieldAt : List Nat → Nat → Nat → Bool
  | [], _, _ => false
  | first :: widths, offset, n =>
    (offset == 0 && n == first) || (decide (first ≤ offset) && fieldAt widths (offset - first) n)

/-- A field of the reversed record is the reversed field. -/
theorem field_reverseWhole {widths : List Nat} (whole : widths.sum ≤ record.length)
    (place : fieldAt widths offset n = true) :
    offset + n ≤ record.length ∧
      field offset n (reverseWhole widths record) = (field offset n record).reverse := by
  induction widths generalizing record offset with
  | nil => cases place
  | cons first widths ih =>
    rw [sum_cons] at whole
    rw [reverseWhole, if_neg (by omega)]
    simp only [fieldAt, Bool.or_eq_true, Bool.and_eq_true, beq_iff_eq, decide_eq_true_eq] at place
    rcases place with ⟨rfl, rfl⟩ | ⟨behind, place⟩
    · refine ⟨by omega, ?_⟩
      rw [field_append _ (by simp; omega), field, field, drop_zero, drop_zero,
        take_of_length_le (by simp)]
    · obtain ⟨rest, rfl⟩ := Nat.exists_eq_add_of_le behind
      rw [Nat.add_sub_cancel_left] at place
      have short : widths.sum ≤ (record.drop first).length := by rw [length_drop]; omega
      obtain ⟨inside, reversed⟩ := ih short place
      have front : ((record.take first).reverse).length = first := by simp; omega
      rw [length_drop] at inside
      refine ⟨by omega, ?_⟩
      nth_rewrite 1 [← front]
      rw [field_append_right, reversed, field, drop_drop, field]

/-- The operation puts the bytes of a word of `n` bytes in the opposite order. -/
def Reverses (n : Nat) (swap : BitVec (8 * n) → BitVec (8 * n)) : Prop :=
  ∀ (y : BitVec (8 * n)) (i : Nat), i < 8 * n →
    (swap y).getLsbD i = y.getLsbD (8 * (n - 1 - i / 8) + i % 8)

namespace Reverses

variable {n : Nat} {swap : BitVec (8 * n) → BitVec (8 * n)}

/-- The word with the bytes of another one reversed. -/
theorem ofNat_leNat_reverse (reverses : Reverses n swap) {bytes : List Byte}
    (length : bytes.length = n) :
    BitVec.ofNat (8 * n) (leNat bytes.reverse) = swap (BitVec.ofNat (8 * n) (leNat bytes)) := by
  apply BitVec.eq_of_getLsbD_eq
  intro i inside
  have place : 8 * (n - 1 - i / 8) + i % 8 < 8 * n := by omega
  have quotient : (8 * (n - 1 - i / 8) + i % 8) / 8 = n - 1 - i / 8 := by omega
  have remainder : (8 * (n - 1 - i / 8) + i % 8) % 8 = i % 8 := by omega
  rw [reverses _ i inside, BitVec.getLsbD_ofNat, BitVec.getLsbD_ofNat, testBit_leNat,
    testBit_leNat, quotient, remainder, getElem?_reverse (by omega), length]
  simp [inside, place]

/-- Swapping twice changes nothing. -/
theorem swap_swap (reverses : Reverses n swap) (y : BitVec (8 * n)) : swap (swap y) = y := by
  apply BitVec.eq_of_getLsbD_eq
  intro i inside
  rw [reverses _ i inside, reverses _ _ (by omega)]
  congr 1
  omega

/-- A field of a record of the given byte order, `true` for the opposite one. -/
def ordered {n : Nat} (swap : BitVec (8 * n) → BitVec (8 * n)) (opposite : Bool) (offset : Nat)
    (record : List Byte) : BitVec (8 * n) :=
  if opposite then swap (word (8 * n) n offset record) else word (8 * n) n offset record

/-- The reversed record has the same fields, in the other byte order. -/
theorem ordered_not (reverses : Reverses n swap) {widths : List Nat}
    (whole : widths.sum ≤ record.length) (place : fieldAt widths offset n = true)
    (opposite : Bool) :
    ordered swap (!opposite) offset (reverseWhole widths record) =
      ordered swap opposite offset record := by
  obtain ⟨inside, reversed⟩ := field_reverseWhole whole place
  have swapped : word (8 * n) n offset (reverseWhole widths record) =
      swap (word (8 * n) n offset record) := by
    rw [word, reversed, reverses.ofNat_leNat_reverse (length_field inside), word]
  unfold ordered
  rw [swapped]
  cases opposite with
  | false => exact reverses.swap_swap _
  | true => rfl

end Reverses

/-! ## Streams of frames -/

/-- A stream is a sequence of frames, each a header of `size` bytes and a body whose
length the header gives. The rewriting of headers and bodies keeps their lengths. -/
structure Reframing where
  size : Nat
  bodySize : List Byte → Nat
  header : List Byte → List Byte
  body : List Byte → List Byte → List Byte
  size_pos : 0 < size
  length_header : ∀ h, (header h).length = h.length
  length_body : ∀ h b, (body h b).length = b.length

namespace Reframing

variable (r : Reframing)

/-- The header in front of a stream. -/
def first (stream : List Byte) : List Byte := stream.take r.size

/-- The body behind the header. -/
def firstBody (stream : List Byte) : List Byte :=
  field r.size (r.bodySize (r.first stream)) stream

/-- What follows the first frame. -/
def next (stream : List Byte) : List Byte := stream.drop (r.size + r.bodySize (r.first stream))

/-- Rewrite up to a number of frames. -/
def applyFor : Nat → List Byte → List Byte
  | 0, stream => stream
  | frames + 1, stream =>
    r.header (r.first stream) ++ r.body (r.first stream) (r.firstBody stream) ++
      applyFor frames (r.next stream)

/-- Rewrite all frames; the last may be cut short. -/
def apply (stream : List Byte) : List Byte := r.applyFor stream.length stream

theorem first_append_firstBody_append_next (stream : List Byte) :
    r.first stream ++ r.firstBody stream ++ r.next stream = stream := by
  rw [first, firstBody, next, field, append_assoc, ← drop_drop, take_append_drop, take_append_drop]

@[simp]
theorem length_applyFor (frames : Nat) (stream : List Byte) :
    (r.applyFor frames stream).length = stream.length := by
  induction frames generalizing stream with
  | zero => rfl
  | succ frames ih =>
    have parts := congrArg length (r.first_append_firstBody_append_next stream)
    simp only [length_append] at parts
    rw [applyFor, length_append, length_append, r.length_header, r.length_body, ih]
    exact parts

@[simp]
theorem length_apply (stream : List Byte) : (r.apply stream).length = stream.length :=
  r.length_applyFor _ stream

theorem length_next_lt (nonempty : stream ≠ []) : (r.next stream).length < stream.length := by
  have pos := r.size_pos
  have some := length_pos_iff.mpr nonempty
  rw [next, length_drop]
  omega

/-- More frames than there are bytes make no difference. -/
theorem applyFor_eq_apply {frames : Nat} (enough : stream.length ≤ frames) :
    r.applyFor frames stream = r.apply stream := by
  have empty : ∀ frames, r.applyFor frames [] = [] := by
    intro frames
    exact length_eq_zero_iff.mp (r.length_applyFor frames [])
  have same : ∀ frames frames' stream, stream.length ≤ frames → stream.length ≤ frames' →
      r.applyFor frames stream = r.applyFor frames' stream := by
    intro frames
    induction frames with
    | zero =>
      intro frames' stream enough _
      rw [length_eq_zero_iff.mp (Nat.le_zero.mp enough), empty, empty]
    | succ frames ih =>
      intro frames' stream enough enough'
      by_cases nonempty : stream = []
      · rw [nonempty, empty, empty]
      have shorter := r.length_next_lt nonempty
      cases frames' with
      | zero => omega
      | succ frames' => rw [applyFor, applyFor, ih frames' _ (by omega) (by omega)]
  exact same _ _ _ enough (Nat.le_refl _)

/-- The first frame and the rest. -/
theorem apply_eq (stream : List Byte) :
    r.apply stream = r.header (r.first stream) ++
      r.body (r.first stream) (r.firstBody stream) ++ r.apply (r.next stream) := by
  have more : stream.length ≤ stream.length + 1 := Nat.le_succ _
  rw [← r.applyFor_eq_apply more, applyFor, r.applyFor_eq_apply]
  rw [next, length_drop]
  omega

/-- The parts of a stream are full, or nothing follows them. -/
theorem full_or_last (stream : List Byte) :
    ((r.first stream).length = r.size ∨ r.firstBody stream = [] ∧ r.next stream = []) ∧
      ((r.firstBody stream).length = r.bodySize (r.first stream) ∨ r.next stream = []) := by
  constructor
  · by_cases whole : r.size ≤ stream.length
    · exact .inl (length_take_of_le whole)
    · right
      constructor
      · rw [firstBody, field, drop_eq_nil_of_le (by omega), take_nil]
      · exact drop_eq_nil_of_le (by omega)
  · by_cases whole : r.size + r.bodySize (r.first stream) ≤ stream.length
    · exact .inl (length_field whole)
    · exact .inr (drop_eq_nil_of_le (by omega))

theorem take_drop_append (front back : List Byte) (most : front.length ≤ k)
    (full : front.length = k ∨ back = []) :
    (front ++ back).take k = front ∧ (front ++ back).drop k = back := by
  rcases full with rfl | rfl
  · exact ⟨take_left, drop_left⟩
  · rw [append_nil]
    exact ⟨take_of_length_le most, drop_eq_nil_of_le most⟩

theorem apply_nil_of_nil (empty : stream = []) : r.apply stream = [] := by
  subst empty
  rfl

/-- The first frame of the rewritten stream. -/
theorem apply_parts (stream : List Byte) :
    (r.apply stream).take r.size = r.header (r.first stream) ∧
      (r.apply stream).drop r.size =
        r.body (r.first stream) (r.firstBody stream) ++ r.apply (r.next stream) := by
  obtain ⟨full, -⟩ := r.full_or_last stream
  rw [r.apply_eq, append_assoc]
  apply take_drop_append
  · rw [r.length_header, first, length_take]
    omega
  · rw [r.length_header]
    apply full.imp_right
    rintro ⟨noBody, noNext⟩
    have empty := r.length_body (r.first stream) (r.firstBody stream)
    rw [noBody, length_nil] at empty
    rw [r.apply_nil_of_nil noNext, append_nil, noBody, length_eq_zero_iff.mp empty]

/-- The first body of the rewritten stream, and what follows it. -/
theorem apply_body (stream : List Byte) :
    let rest := (r.apply stream).drop r.size
    rest.take (r.bodySize (r.first stream)) = r.body (r.first stream) (r.firstBody stream) ∧
      rest.drop (r.bodySize (r.first stream)) = r.apply (r.next stream) := by
  obtain ⟨-, full⟩ := r.full_or_last stream
  rw [(r.apply_parts stream).2]
  apply take_drop_append
  · rw [r.length_body, firstBody, field, length_take]
    omega
  · rw [r.length_body]
    exact full.imp_right r.apply_nil_of_nil

end Reframing

end Libpcap.Semantics
