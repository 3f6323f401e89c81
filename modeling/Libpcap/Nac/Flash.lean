/-
# Programming the flash of a card

An image is written to a bank of the flash word by word. The flash takes at most 32 words
with one command, and a bank is programmed block by block, so that the image is cut twice,
each time with a last piece that may be shorter. The flash is taken to be ready whenever it
is asked and to report no error.
-/

import Mathlib.Algebra.Group.Nat.Defs
import Mathlib.Data.List.Basic

namespace Libpcap.Nac

open List

/-- An access to the flash. -/
inductive FlashOp
  | write (addr : Nat) (data : BitVec 16)
  | read (addr : Nat)
  deriving DecidableEq, Repr

def bitSwap (src : BitVec 16) : BitVec 16 :=
  (range 16).foldl (fun dst i => dst |||
    if i < 8 then (src &&& (1 <<< i)) <<< (15 - i * 2)
    else (src &&& (1 <<< i)) >>> (2 * i - 15)) 0

/-- `flash_write`: nothing is written outside the flash. -/
def flashWrite (addr : Nat) (data : BitVec 16) : List FlashOp :=
  if addr > 0x7FFFFF then [] else [.write addr data]

def flashRead (addr : Nat) : List FlashOp :=
  if addr > 0x7FFFFF then [] else [.read addr]

/-- `buffer_program` writes `n + 1` words. The program exits when `n` is out of range. -/
def bufferProgram (startAddr n : Nat) (pdata : Nat → BitVec 16) : Option (List FlashOp) :=
  if n > 31 then none
  else some (flashWrite startAddr 0xE8 ++ flashRead startAddr ++
    flashWrite startAddr (.ofNat 16 n) ++
    (range (n + 1)).flatMap (fun i => flashWrite (startAddr + i) (bitSwap (pdata i))) ++
    flashWrite startAddr 0xD0 ++ flashRead startAddr)

/-- The loop of `block_program` and `bank_program` over the pieces before the last. -/
def programFull (program : Nat → Option (List FlashOp)) : Nat → Option (List FlashOp)
  | 0 => some []
  | n + 1 => do
    let front ← programFull program n
    let piece ← program n
    return front ++ piece

/-- What `block_program` and `bank_program` have in common: `wSize` words are cut into
pieces of `unit` words, which are counted in a variable of `width` bits. -/
def programPieces (width unit wSize : Nat) (program : Nat → Nat → Option (List FlashOp)) :
    Option (List FlashOp) :=
  if wSize = 0 then none
  else do
    let (need, lastWords) := if wSize % unit = 0 then (wSize / unit % 2 ^ width, unit)
      else ((wSize / unit + 1) % 2 ^ width, wSize % unit)
    let front ← programFull (program · unit) (need - 1)
    let last ← program ((need + 2 ^ width - 1) % 2 ^ width) lastWords
    return front ++ last

def blockProgram (bank block wSize : Nat) (pdata : Nat → BitVec 16) : Option (List FlashOp) :=
  programPieces 32 32 wSize fun i words =>
    bufferProgram (bank * 0x80000 + block * 0x10000 + 32 * i) (words - 1) (pdata <| 32 * i + ·)

def blockSizeW : Nat := 64 * 1024

def bankProgram (bank wSize : Nat) (pdata : Nat → BitVec 16) : Option (List FlashOp) :=
  programPieces 8 blockSizeW wSize fun i words =>
    blockProgram bank i words (pdata <| blockSizeW * i + ·)

/-! ## What is written -/

/-- One step of `bit_swap` puts bit `i` of the word at place `15 - i`. -/
theorem getLsbD_bitSwap_step (src : BitVec 16) {i j : Nat} (small : j < 16) :
    (if i < 8 then (src &&& (1 <<< i)) <<< (15 - i * 2)
      else (src &&& (1 <<< i)) >>> (2 * i - 15)).getLsbD j
      = (decide (i = 15 - j) && src.getLsbD (15 - j)) := by
  have mask : ∀ place, (src &&& ↑(1 <<< i)).getLsbD place
      = (decide (place = i) && src.getLsbD place) := by
    intro place
    rw [Nat.shiftLeft_eq, Nat.one_mul, BitVec.natCast_eq_ofNat, BitVec.getLsbD_and,
      BitVec.getLsbD_ofNat, Nat.testBit_two_pow]
    grind
  split
  · rw [BitVec.getLsbD_shiftLeft, mask]
    grind
  · rw [BitVec.getLsbD_ushiftRight, mask]
    grind

/-- The words go to the flash with their bits in reverse order. -/
theorem bitSwap_eq_reverse (src : BitVec 16) : bitSwap src = src.reverse := by
  have fold : ∀ (steps : List Nat) (step : Nat → BitVec 16) (dst : BitVec 16) (j : Nat),
      (steps.foldl (fun dst i => dst ||| step i) dst).getLsbD j
        = (dst.getLsbD j || steps.any fun i => (step i).getLsbD j) := by
    intro steps step dst j
    induction steps generalizing dst with
    | nil => simp
    | cons i steps ih => simp [ih, Bool.or_assoc]
  refine BitVec.eq_of_getLsbD_eq fun j small => ?_
  rw [bitSwap, fold, BitVec.getLsbD_reverse, BitVec.getMsbD_eq_getLsbD, Bool.eq_iff_iff]
  simp only [BitVec.ofNat_eq_ofNat, BitVec.getLsbD_zero, Bool.false_or, any_eq_true, mem_range,
    small, decide_true, Bool.true_and]
  constructor
  · rintro ⟨i, inside, set⟩
    rw [getLsbD_bitSwap_step src small, Bool.and_eq_true] at set
    exact set.2
  · intro set
    refine ⟨15 - j, by omega, ?_⟩
    rw [getLsbD_bitSwap_step src small]
    simpa using set

/-- The command that writes words of the image from number `start` on, each with its bits in
reverse order, in a bank whose first word has the address `base`. -/
def command (base : Nat) (image : Nat → BitVec 16) (start count : Nat) : List FlashOp :=
  [.write (base + start) 0xE8, .read (base + start),
    .write (base + start) (.ofNat 16 (count - 1))] ++
    (range' start count).map (fun i => .write (base + i) (image i).reverse) ++
    [.write (base + start) 0xD0, .read (base + start)]

/-- The accesses are commands for the words from number `start` on, each word written
once and in order. -/
def Programs (base : Nat) (image : Nat → BitVec 16) (start words : Nat)
    (ops : Option (List FlashOp)) : Prop :=
  ∃ buffers : List (Nat × Nat),
    ops = some (buffers.flatMap fun buffer => command base image buffer.1 buffer.2) ∧
    (∀ buffer ∈ buffers, 0 < buffer.2 ∧ buffer.2 ≤ 32 ∧ buffer.1 + buffer.2 ≤ start + words) ∧
      buffers.flatMap (fun buffer => range' buffer.1 buffer.2) = range' start words

variable {base start words more : Nat} {image : Nat → BitVec 16}

theorem Programs.append {front back : Option (List FlashOp)}
    (first : Programs base image start words front)
    (second : Programs base image (start + words) more back) :
    Programs base image start (words + more)
      (front.bind fun a => back.bind fun b => some (a ++ b)) := by
  obtain ⟨left, rfl, inLeft, coverLeft⟩ := first
  obtain ⟨right, rfl, inRight, coverRight⟩ := second
  refine ⟨left ++ right, by simp, fun buffer mem => ?_, ?_⟩
  · rcases mem_append.1 mem with mem | mem
    · have bound := inLeft buffer mem
      omega
    · have bound := inRight buffer mem
      omega
  · rw [flatMap_append, coverLeft, coverRight]
    exact range'_append_1

theorem Programs.full {unit : Nat} {program : Nat → Option (List FlashOp)} (n : Nat)
    (piece : ∀ i < n, Programs base image (start + unit * i) unit (program i)) :
    Programs base image start (unit * n) (programFull program n) := by
  induction n with
  | zero => exact ⟨[], rfl, by simp, rfl⟩
  | succ n ih =>
    rw [Nat.mul_succ]
    exact (ih fun i hi => piece i (by omega)).append (piece n (by omega))

/-- If each piece is programmed, all words are. -/
theorem Programs.pieces {width unit : Nat} {program : Nat → Nat → Option (List FlashOp)}
    (some_words : 0 < words) (unit_pos : 0 < unit) (fits : words / unit + 1 < 2 ^ width)
    (piece : ∀ i count, 0 < count → count ≤ unit → unit * i + count ≤ words →
      Programs base image (start + unit * i) count (program i count)) :
    Programs base image start words (programPieces width unit words program) := by
  -- in both cases the pieces before the last and the last one make up the words
  have cut : ∀ need count, 0 < need → need < 2 ^ width → 0 < count → count ≤ unit →
      unit * (need - 1) + count = words →
      Programs base image start words ((programFull (program · unit) (need - 1)).bind fun front =>
        (program ((need + 2 ^ width - 1) % 2 ^ width) count).bind fun last =>
          some (front ++ last)) := by
    intro need count need_pos small count_pos count_le total
    have index : (need + 2 ^ width - 1) % 2 ^ width = need - 1 := by
      rw [show need + 2 ^ width - 1 = need - 1 + 2 ^ width by omega, Nat.add_mod_right]
      exact Nat.mod_eq_of_lt (by omega)
    rw [index, ← total]
    refine (Programs.full _ fun i hi => piece i unit unit_pos (Nat.le_refl _) ?_).append
      (piece _ count count_pos count_le (Nat.le_of_eq total))
    have := Nat.mul_le_mul_left unit (Nat.succ_le_of_lt hi)
    rw [Nat.mul_succ] at this
    omega
  have divided := Nat.div_add_mod words unit
  rw [programPieces, if_neg (by omega)]
  by_cases whole : words % unit = 0
  · have quotient_pos : 0 < words / unit :=
      Nat.div_pos (Nat.le_of_dvd some_words (Nat.dvd_of_mod_eq_zero whole)) unit_pos
    simp only [if_pos whole]
    rw [Nat.mod_eq_of_lt (by omega)]
    refine cut _ unit quotient_pos (by omega) unit_pos (Nat.le_refl _) ?_
    rw [← Nat.mul_succ, Nat.succ_eq_add_one, Nat.sub_add_cancel quotient_pos]
    omega
  · simp only [if_neg whole]
    rw [Nat.mod_eq_of_lt fits]
    exact cut _ _ (Nat.succ_pos _) fits (by omega) (Nat.le_of_lt (Nat.mod_lt _ unit_pos)) divided

theorem programs_bufferProgram (some_words : 0 < words) (small : words ≤ 32)
    (inside : base + start + words ≤ 0x800000) :
    Programs base image start words
      (bufferProgram (base + start) (words - 1) (image <| start + ·)) := by
  refine ⟨[(start, words)], ?_, by simp; omega, by simp⟩
  have data : (range words).flatMap
      (fun i => flashWrite (base + start + i) (bitSwap (image (start + i))))
      = (range' start words).map fun i => .write (base + i) (image i).reverse := by
    rw [range'_eq_map_range, map_map, map_eq_flatMap]
    refine flatMap_congr fun i mem => ?_
    have := mem_range.1 mem
    simp only [flashWrite, bitSwap_eq_reverse, Function.comp, Nat.add_assoc]
    exact if_neg (by omega)
  have first : ¬base + start > 0x7FFFFF := by omega
  rw [bufferProgram, if_neg (by omega), Nat.sub_add_cancel some_words, data]
  simp [command, flashWrite, flashRead, first]

/-- The image is written to the bank word by word, the bits of each word in reverse order,
with commands of at most 32 words that stay within the image. -/
theorem bankProgram_programs {bank wSize : Nat} (pdata : Nat → BitVec 16) (bank_lt : bank < 16)
    (some_words : 0 < wSize) (small : wSize ≤ 512 * 1024) :
    Programs (bank * 0x80000) pdata 0 wSize (bankProgram bank wSize pdata) := by
  refine Programs.pieces some_words (by decide) (by simp [blockSizeW]; omega)
    fun i count count_pos count_le within => ?_
  refine Programs.pieces count_pos (by decide) ?_ fun j n n_pos n_le inner => ?_
  · simp only [blockSizeW] at count_le
    omega
  · simp only [blockSizeW] at *
    have buffer : Programs (bank * 0x80000) pdata (0 + 64 * 1024 * i + 32 * j) n _ :=
      programs_bufferProgram n_pos n_le (by omega)
    simpa [Nat.add_assoc, Nat.mul_comm i] using buffer

theorem bankProgram_programs_two_buffers :
    Programs (15 * 0x80000) (BitVec.ofNat 16) 0 33 (bankProgram 15 33 (.ofNat 16)) :=
  bankProgram_programs _ (by decide) (by decide) (by decide)

end Libpcap.Nac
