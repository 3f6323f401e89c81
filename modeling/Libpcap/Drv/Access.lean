/-
# What user space reaches through the driver

A process reads and writes the memory buffer of a card, and the window of its
registers, at a file position, and maps both into its own memory at a page offset.
Each entry point compares the position or offset with the size before it touches
anything. Positions, offsets and sizes are `loff_t`, which is signed, byte counts
are `size_t`, which is not, so that the sum of a position and a count is unsigned.

The upper bounds are right: no access and no mapping ends behind the buffer or the
window. The lower bounds are missing. A position or an offset that is negative as
`loff_t` passes every test and reaches memory before the buffer. The start of the
register window is cut to 32 bits when it is mapped.
-/

import Mathlib.Data.Int.Basic
import Mathlib.Tactic.NormNum

namespace Libpcap.Drv

variable {x : Int}

/-- Conversion to `loff_t`. -/
def signed64 (x : Int) : Int := (x + 0x8000000000000000) % 0x10000000000000000 - 0x8000000000000000

/-- A value that is an `loff_t`. -/
def IsLoff (x : Int) : Prop := -0x8000000000000000 ≤ x ∧ x < 0x8000000000000000

/-- What the driver knows of a card: the physical address and the size of its buffer, if memory
was assigned to it, and the start and length of its register window, resource 0 of the device.
The buffer is made of pages, and a PCI resource is aligned to its length. -/
structure Card where
  buf : Option Nat
  bufSize : Nat
  resourceStart : Nat
  resourceLog : Nat
  bufSize_lt : bufSize < 0x100000000
  buf_pages : ∀ a ∈ buf, 4096 ∣ a ∧ a + bufSize < 0x8000000000000000
  resource_words : 2 ≤ resourceLog
  resource_aligned : 2 ^ resourceLog ∣ resourceStart
  resource_fits : resourceStart + 2 ^ resourceLog < 0x8000000000000000

namespace Card

variable (card : Card)

/-- `pci_resource_len` -/
def resourceLen : Nat := 2 ^ card.resourceLog

/-- `mmio_size`, which is an `uint32_t`. -/
def mmioSize : Nat := card.resourceLen % 0x100000000

end Card

/-! ## Reading and writing -/

/-- The end of a call: what it returns, the bytes it copied from or to, counted from the start of
the buffer or window, and the file position. -/
structure Transfer where
  ret : Int
  touched : Option (Int × Nat)
  pos : Int
  deriving DecidableEq, Repr

/-- A call that touches nothing. -/
def Transfer.untouched (ret pos : Int) : Transfer := ⟨ret, none, pos⟩

/-- The byte count after the test against the end. -/
def clampCount (size : Nat) (pos : Int) (count : Nat) : Nat :=
  -- the sum of `loff_t` and `size_t` is unsigned
  if (size : Int) < (pos + count) % 0x10000000000000000 then ((size - pos) % 0x10000000000000000).toNat else count

/-- Copy from or to user space, of which `mapped` bytes can be copied before a fault. -/
def copyUser (pos : Int) (count mapped : Nat) : Transfer :=
  let remain := count - mapped
  ⟨if remain = count then -22 else count - remain, some (pos, count), pos + (count - remain)⟩

/-- `nac_mem_read` and `nac_mem_write`, which differ in what they return at the end of the
buffer. -/
def memTransfer (ended : Int) (card : Card) (pos : Int) (count mapped : Nat) : Transfer :=
  if card.buf = none then .untouched (-6) pos
  else if (card.bufSize : Int) ≤ pos then .untouched ended pos
  else
    let count := clampCount card.bufSize pos count
    if count = 0 then .untouched ended pos else copyUser pos count mapped

/-- `nac_mem_read` -/
def memRead (card : Card) (pos : Int) (count mapped : Nat) : Transfer :=
  memTransfer 0 card pos count mapped

/-- `nac_mem_write`; the end is `-ENOSPC`. -/
def memWrite (card : Card) (pos : Int) (count mapped : Nat) : Transfer :=
  memTransfer (-28) card pos count mapped

/-- `nac_iom_read` and `nac_iom_write`, which copy whole words. -/
def iomTransfer (card : Card) (pos : Int) (count mapped : Nat) : Transfer :=
  if (card.mmioSize : Int) < pos then .untouched 0 pos
  else
    let count := clampCount card.mmioSize pos count
    if count = 0 then .untouched 0 pos
    else if pos % 4 ≠ 0 then .untouched (-14) pos
    else if count % 4 ≠ 0 then .untouched (-14) pos
    else copyUser pos count mapped

/-- `nac_iom_read` -/
def iomRead (card : Card) (pos : Int) (count mapped : Nat) : Transfer :=
  iomTransfer card pos count mapped

/-- `nac_iom_write` -/
def iomWrite (card : Card) (pos : Int) (count mapped : Nat) : Transfer :=
  iomTransfer card pos count mapped

/-- The entry points that copy. -/
inductive Entry
  | memRead
  | memWrite
  | iomRead
  | iomWrite
  deriving DecidableEq, Repr

namespace Entry

def transfer : Entry → Card → Int → Nat → Nat → Transfer
  | memRead => Drv.memRead
  | memWrite => Drv.memWrite
  | iomRead => Drv.iomRead
  | iomWrite => Drv.iomWrite

/-- The size of what an entry point gives access to. -/
def size (entry : Entry) (card : Card) : Nat :=
  match entry with
  | memRead | memWrite => card.bufSize
  | iomRead | iomWrite => card.mmioSize

/-- The calls that touch nothing outside, by their arguments: those at a position that is not
negative, and those that the driver refuses for another reason. -/
def Confined (entry : Entry) (card : Card) (pos : Int) (count : Nat) : Prop :=
  0 ≤ pos ∨
    match entry with
    | memRead | memWrite => card.buf = none
    | iomRead | iomWrite =>
      pos % 4 ≠ 0 ∨ (0 ≤ pos + count ∧ pos + count ≤ card.mmioSize ∧ count % 4 ≠ 0)

end Entry

/-- The bytes lie inside `size` bytes. -/
def Within (size : Nat) : Option (Int × Nat) → Prop
  | none => True
  | some (pos, count) => 0 ≤ pos ∧ pos + count ≤ size

section Transfer

variable {size : Nat} {pos : Int} {count mapped : Nat} {card : Card}

/-- A count that was tested ends inside, from a position that is not negative. -/
theorem clampCount_of_nonneg (size_lt : size < 0x100000000) (low : 0 ≤ pos) (high : pos ≤ size)
    (count_lt : count < 0x80000000) : pos + clampCount size pos count ≤ size := by
  unfold clampCount
  split <;> omega

/-- From a negative position, some count is left. -/
theorem clampCount_ne_zero (size_lt : size < 0x100000000) (loff : IsLoff pos) (negative : pos < 0)
    (count : Nat) : clampCount size pos count ≠ 0 := by
  obtain ⟨low, high⟩ := loff
  unfold clampCount
  split <;> omega

/-- The count is not changed exactly if it leads to a position inside. -/
theorem clampCount_of_neg (size_lt : size < 0x100000000) (loff : IsLoff pos) (negative : pos < 0)
    (count_lt : count < 0x80000000) :
    (clampCount size pos count : Int) =
      if 0 ≤ pos + count ∧ pos + count ≤ size then (count : Int) else size - pos := by
  obtain ⟨low, high⟩ := loff
  unfold clampCount
  split <;> split <;> omega

/-- A copy touches the bytes behind its position. -/
theorem within_copyUser : Within size (copyUser pos count mapped).touched ↔
    0 ≤ pos ∧ pos + count ≤ size := Iff.rfl

theorem Card.mmioSize_lt (card : Card) : card.mmioSize < 0x100000000 := Nat.mod_lt _ (by decide)

theorem Card.mmioSize_words (card : Card) : card.mmioSize % 4 = 0 := by
  have words : 2 ^ 2 ∣ card.resourceLen := pow_dvd_pow 2 card.resource_words
  unfold mmioSize
  omega

/-- The buffer is not left, unless it is at a negative position. -/
theorem memTransfer_within_iff (ended : Int) (loff : IsLoff pos) (count_lt : count < 0x80000000) :
    Within card.bufSize (memTransfer ended card pos count mapped).touched ↔
      0 ≤ pos ∨ card.buf = none := by
  unfold memTransfer
  by_cases assigned : card.buf = none
  · simp [assigned, Within, Transfer.untouched]
  by_cases behind : (card.bufSize : Int) ≤ pos
  · have low : 0 ≤ pos := by omega
    simp [assigned, behind, Within, Transfer.untouched, low]
  rw [if_neg assigned, if_neg behind]
  by_cases low : 0 ≤ pos
  · have ends := clampCount_of_nonneg card.bufSize_lt low (not_le.mp behind).le count_lt
    simp only [low, true_or, iff_true]
    split
    · trivial
    · exact ⟨low, ends⟩
  · have more := clampCount_ne_zero card.bufSize_lt loff (not_le.mp low) count
    simp only [if_neg more, within_copyUser, low, assigned, false_and, or_self]

/-- The register window is not left, unless it is at a negative position. -/
theorem iomTransfer_within_iff (loff : IsLoff pos) (count_lt : count < 0x80000000) :
    Within card.mmioSize (iomTransfer card pos count mapped).touched ↔
      0 ≤ pos ∨ pos % 4 ≠ 0 ∨
        (0 ≤ pos + count ∧ pos + count ≤ card.mmioSize ∧ count % 4 ≠ 0) := by
  unfold iomTransfer
  by_cases behind : (card.mmioSize : Int) < pos
  · have low : 0 ≤ pos := by omega
    simp [behind, Within, Transfer.untouched, low]
  rw [if_neg behind]
  by_cases low : 0 ≤ pos
  · have ends := clampCount_of_nonneg card.mmioSize_lt low (not_lt.mp behind) count_lt
    simp only [low, true_or, iff_true]
    split
    · trivial
    split
    · trivial
    split
    · trivial
    · exact ⟨low, ends⟩
  · have more := clampCount_ne_zero card.mmioSize_lt loff (not_le.mp low) count
    have changed := clampCount_of_neg card.mmioSize_lt loff (not_le.mp low) count_lt
    have words := card.mmioSize_words
    simp only [if_neg more, low, false_or]
    by_cases unaligned : pos % 4 ≠ 0
    · simp [unaligned, Within, Transfer.untouched]
    by_cases unsized : clampCount card.mmioSize pos count % 4 ≠ 0
    · rw [if_neg unaligned, if_pos unsized]
      simp only [Within, Transfer.untouched, true_iff]
      split at changed <;> omega
    · rw [if_neg unaligned, if_neg unsized, within_copyUser]
      split at changed <;> omega

/-- An entry point touches nothing outside exactly if its arguments are confined. -/
theorem Entry.within_iff (entry : Entry) (loff : IsLoff pos) (count_lt : count < 0x80000000) :
    Within (entry.size card) (entry.transfer card pos count mapped).touched ↔
      entry.Confined card pos count := by
  cases entry with
  | memRead => exact memTransfer_within_iff 0 loff count_lt
  | memWrite => exact memTransfer_within_iff (-28) loff count_lt
  | iomRead | iomWrite => exact iomTransfer_within_iff loff count_lt

end Transfer

/-! ## Many calls -/

/-- What a process does with a file: it sets the position, or makes a call of which `mapped`
bytes can be copied. -/
inductive FileOp
  | seek (pos : Int)
  | call (entry : Entry) (count mapped : Nat)

/-- The position after one of them. -/
def FileOp.next (card : Card) (pos : Int) : FileOp → Int
  | seek pos => pos
  | call entry count mapped => (entry.transfer card pos count mapped).pos

/-- The position after many of them. -/
def posAfter (card : Card) (pos : Int) (ops : List FileOp) : Int :=
  ops.foldl (FileOp.next card) pos

/-- What the kernel lets through: byte counts below 2 GB, and positions that are not negative. -/
def FileOp.Regular : FileOp → Prop
  | seek pos => 0 ≤ pos ∧ IsLoff pos
  | call _ count _ => count < 0x80000000

/-- A call moves the position over bytes that it touched. -/
def Transfer.Moves (pos : Int) (t : Transfer) : Prop :=
  t.pos = pos ∨ ∃ n : Nat, t.touched = some (pos, n) ∧ pos ≤ t.pos ∧ t.pos ≤ pos + n

theorem moves_untouched (ret pos : Int) : (Transfer.untouched ret pos).Moves pos := .inl rfl

theorem moves_copyUser (pos : Int) (count mapped : Nat) : (copyUser pos count mapped).Moves pos := by
  refine .inr ⟨count, rfl, ?_⟩
  simp only [copyUser]
  omega

theorem memTransfer_moves (ended : Int) (card : Card) (pos : Int) (count mapped : Nat) :
    (memTransfer ended card pos count mapped).Moves pos := by
  unfold memTransfer
  split
  · exact moves_untouched _ pos
  split
  · exact moves_untouched _ pos
  dsimp only
  split
  · exact moves_untouched _ pos
  · exact moves_copyUser pos _ mapped

theorem iomTransfer_moves (card : Card) (pos : Int) (count mapped : Nat) :
    (iomTransfer card pos count mapped).Moves pos := by
  unfold iomTransfer
  split
  · exact moves_untouched _ pos
  dsimp only
  split
  · exact moves_untouched _ pos
  split
  · exact moves_untouched _ pos
  split
  · exact moves_untouched _ pos
  · exact moves_copyUser pos _ mapped

theorem Entry.moves (entry : Entry) (card : Card) (pos : Int) (count mapped : Nat) :
    (entry.transfer card pos count mapped).Moves pos := by
  cases entry with
  | memRead => exact memTransfer_moves 0 card pos count mapped
  | memWrite => exact memTransfer_moves (-28) card pos count mapped
  | iomRead | iomWrite => exact iomTransfer_moves card pos count mapped

theorem Entry.size_lt (entry : Entry) (card : Card) : entry.size card < 0x100000000 := by
  cases entry with
  | memRead | memWrite => exact card.bufSize_lt
  | iomRead | iomWrite => exact card.mmioSize_lt

/-- A position that is not negative stays so. -/
theorem FileOp.next_nonneg (card : Card) {pos : Int} {op : FileOp} (regular : op.Regular)
    (low : 0 ≤ pos) (loff : IsLoff pos) : 0 ≤ op.next card pos ∧ IsLoff (op.next card pos) := by
  cases op with
  | seek pos => exact regular
  | call entry count mapped =>
    have within : Within (entry.size card) (entry.transfer card pos count mapped).touched :=
      (entry.within_iff loff regular).mpr (.inl low)
    rw [next]
    rcases entry.moves card pos count mapped with same | ⟨n, touched, forward, bounded⟩
    · rw [same]
      exact ⟨low, loff⟩
    · rw [touched] at within
      have size_lt := entry.size_lt card
      obtain ⟨-, ends⟩ := within
      exact ⟨low.trans forward, by unfold IsLoff; omega⟩

theorem posAfter_nonneg (card : Card) {pos : Int} {ops : List FileOp}
    (regular : ∀ op ∈ ops, op.Regular) (low : 0 ≤ pos) (loff : IsLoff pos) :
    0 ≤ posAfter card pos ops ∧ IsLoff (posAfter card pos ops) := by
  induction ops generalizing pos with
  | nil => exact ⟨low, loff⟩
  | cons op rest ih =>
    obtain ⟨nextLow, nextLoff⟩ := FileOp.next_nonneg card (regular op List.mem_cons_self) low loff
    exact ih (fun op listed => regular op (List.mem_cons_of_mem _ listed)) nextLow nextLoff

/-! ## Mappings -/

/-- The pages that a process asks to map. -/
structure Vma where
  vmStart : Nat
  vmEnd : Nat
  pgoff : Nat
  start_page : 4096 ∣ vmStart
  end_page : 4096 ∣ vmEnd
  nonempty : vmStart < vmEnd
  end_lt : vmEnd < 0x10000000000000000

namespace Vma

variable (vma : Vma)

def off : Int := signed64 (vma.pgoff * 4096)

def vsize : Int := signed64 (vma.vmEnd - vma.vmStart)

end Vma

/-- The physical memory that was mapped. -/
structure Mapping where
  phys : Nat
  length : Nat
  deriving DecidableEq, Repr

/-- The physical address that `remap_pfn_range` maps: `physical >> PAGE_SHIFT` is passed to it as a
page frame number, an `unsigned long`. -/
def frameAddress (physical : Int) : Int := physical / 4096 % 0x10000000000000000 * 4096 % 0x10000000000000000

/-- What `nac_mmap` and `nac_iom_mmap` do with the start and the size of what they map; `remapped`
is whether the kernel maps the pages. -/
def mmapRange (start size : Nat) (vma : Vma) (remapped : Bool) : Except Int Mapping :=
  let physical := signed64 (start + vma.off)
  let psize := signed64 (size - vma.off)
  if vma.off % 4096 ≠ 0 then .error (-6)
  else if psize < vma.vsize then .error (-22)
  else if remapped then
    .ok ⟨(frameAddress physical).toNat, (vma.vsize % 0x10000000000000000).toNat⟩
  else .error (-11)

/-- `nac_mmap` -/
def mmap (card : Card) (vma : Vma) (remapped : Bool) : Except Int Mapping :=
  match card.buf with
  | none => .error (-12)
  | some buf => mmapRange buf card.bufSize vma remapped

/-- `nac_iom_mmap` -/
def iomMmap (card : Card) (vma : Vma) (remapped : Bool) : Except Int Mapping :=
  match card.buf with
  | none => .error (-12)
  | some _ => mmapRange (card.resourceStart % 0x100000000) card.resourceLen vma remapped

/-- Only memory from `start` on was mapped, and at most `size` bytes. -/
def Mapping.Inside (m : Mapping) (start size : Nat) : Prop :=
  start ≤ m.phys ∧ m.phys + m.length ≤ start + size

section Mapping

variable {start size : Nat} {vma : Vma} {remapped : Bool} {m : Mapping}

theorem isLoff_signed64 (x : Int) : IsLoff (signed64 x) := by
  unfold IsLoff signed64
  omega

theorem signed64_of_isLoff (loff : IsLoff x) : signed64 x = x := by
  obtain ⟨low, high⟩ := loff
  unfold signed64
  rw [Int.emod_eq_of_lt] <;> omega

theorem frameAddress_nonneg (x : Int) : 0 ≤ frameAddress x := by
  unfold frameAddress
  omega

theorem frameAddress_of_nonneg (low : 0 ≤ x) (high : x < 0x8000000000000000) :
    frameAddress x = x / 4096 * 4096 := by
  unfold frameAddress
  rw [Int.emod_eq_of_lt (a := x / 4096), Int.emod_eq_of_lt] <;> omega

/-- A negative address is one in the upper half of the address space. -/
theorem frameAddress_of_neg (low : -0x8000000000000000 ≤ x) (high : x < 0) :
    0x8000000000000000 ≤ frameAddress x := by
  have frame : x / 4096 % 0x10000000000000000 = x / 4096 + 0x10000000000000000 := by
    rw [← Int.add_emod_right, Int.emod_eq_of_lt] <;> omega
  have address : (x / 4096 + 0x10000000000000000) * 4096 % 0x10000000000000000 = x / 4096 * 4096 + 0x10000000000000000 := by
    rw [show (x / 4096 + 0x10000000000000000) * 4096 = (x / 4096 * 4096 + 0x10000000000000000) + 0x10000000000000000 * 4095 by omega,
      Int.add_mul_emod_self_left, Int.emod_eq_of_lt] <;> omega
  rw [frameAddress, frame, address]
  omega

theorem Vma.off_page (vma : Vma) : vma.off % 4096 = 0 := by
  unfold off signed64
  omega

theorem Vma.off_loff (vma : Vma) : IsLoff vma.off := isLoff_signed64 _

theorem Vma.vsize_loff (vma : Vma) : IsLoff vma.vsize := isLoff_signed64 _

theorem Vma.vsize_page (vma : Vma) : vma.vsize % 4096 = 0 ∧ vma.vsize ≠ 0 := by
  have startPage := vma.start_page
  have endPage := vma.end_page
  have nonempty := vma.nonempty
  have bound := vma.end_lt
  unfold vsize signed64
  omega

/-- What an accepted mapping maps. -/
theorem mmapRange_ok (mapped : mmapRange start size vma remapped = .ok m) :
    vma.vsize ≤ signed64 (size - vma.off) ∧
      (m.phys : Int) = frameAddress (signed64 (start + vma.off)) ∧
      (m.length : Int) = vma.vsize % 0x10000000000000000 := by
  simp only [mmapRange, vma.off_page, ne_eq, not_true_eq_false, if_false] at mapped
  split at mapped
  case isTrue => exact absurd mapped nofun
  case isFalse ends =>
    split at mapped
    · rw [← Except.ok.inj mapped]
      dsimp only
      exact ⟨not_lt.mp ends, Int.toNat_of_nonneg (frameAddress_nonneg _),
        Int.toNat_of_nonneg (by omega)⟩
    · exact absurd mapped nofun

/-- An accepted mapping from an offset that is not negative. -/
theorem mmapRange_of_nonneg (pages : 4096 ≤ size → 4096 ∣ start)
    (fits : start + size < 0x8000000000000000)
    (mapped : mmapRange start size vma remapped = .ok m) (low : 0 ≤ vma.off)
    (length : 0 ≤ vma.vsize) :
    (m.phys : Int) = start + vma.off ∧ (m.length : Int) = vma.vsize ∧
      vma.off + vma.vsize ≤ size := by
  obtain ⟨ends, phys, bytes⟩ := mmapRange_ok mapped
  obtain ⟨-, offHigh⟩ := vma.off_loff
  obtain ⟨-, sizeHigh⟩ := vma.vsize_loff
  have offPage := vma.off_page
  have sizePage := vma.vsize_page
  rw [signed64_of_isLoff ⟨by omega, by omega⟩] at ends
  have page := pages (by omega)
  rw [signed64_of_isLoff ⟨by omega, by omega⟩, frameAddress_of_nonneg (by omega) (by omega)] at phys
  rw [Int.emod_eq_of_lt length (by omega)] at bytes
  exact ⟨by omega, by omega, by omega⟩

/-- An accepted mapping from a negative offset, or of more than half of the addresses, leaves
every range that does not start before the one it should map. -/
theorem mmapRange_of_neg {start' size' : Nat} (before : start ≤ start')
    (fits : start' + size' < 0x8000000000000000)
    (mapped : mmapRange start size vma remapped = .ok m)
    (negative : vma.off < 0 ∨ vma.vsize < 0) : ¬ m.Inside start' size' := by
  obtain ⟨-, phys, bytes⟩ := mmapRange_ok mapped
  obtain ⟨sizeLow, sizeHigh⟩ := vma.vsize_loff
  obtain ⟨-, sizeNonzero⟩ := vma.vsize_page
  rintro ⟨low, high⟩
  by_cases short : 0 ≤ vma.vsize
  · have before' : vma.off < 0 := by omega
    obtain ⟨offLow, -⟩ := vma.off_loff
    rw [signed64_of_isLoff ⟨by omega, by omega⟩] at phys
    rw [Int.emod_eq_of_lt short (by omega)] at bytes
    by_cases below : start + vma.off < 0
    · have upper := frameAddress_of_neg (by omega) below
      omega
    · rw [frameAddress_of_nonneg (by omega) (by omega)] at phys
      omega
  · rw [← Int.add_emod_right, Int.emod_eq_of_lt (by omega) (by omega)] at bytes
    omega

/-- `nac_mmap` maps nothing outside the buffer exactly if the offset and the size are not
negative as `loff_t`. -/
theorem mmap_inside_iff {card : Card} {buf : Nat} (assigned : card.buf = some buf)
    (mapped : mmap card vma remapped = .ok m) :
    m.Inside buf card.bufSize ↔ 0 ≤ vma.off ∧ 0 ≤ vma.vsize := by
  obtain ⟨page, fits⟩ := card.buf_pages buf assigned
  simp only [mmap, assigned] at mapped
  constructor
  · intro inside
    by_contra negative
    exact mmapRange_of_neg le_rfl fits mapped (by omega) inside
  · rintro ⟨low, length⟩
    obtain ⟨phys, bytes, within⟩ := mmapRange_of_nonneg (fun _ => page) fits mapped low length
    exact ⟨by omega, by omega⟩

/-- A resource of at least a page is made of pages, also when its start is cut to 32 bits. -/
theorem Card.resource_pages (card : Card) (large : 4096 ≤ card.resourceLen) :
    4096 ∣ card.resourceStart % 0x100000000 := by
  have pages : 2 ^ 12 ∣ card.resourceLen := by
    refine pow_dvd_pow 2 ?_
    by_contra small
    have := Nat.pow_lt_pow_right (a := 2) (by decide) (not_le.mp small)
    exact absurd large (not_le.mpr this)
  have start := pages.trans card.resource_aligned
  omega

/-- A resource above 4 GB does not fit behind its start cut to 32 bits. -/
theorem Card.resource_above (card : Card) (above : 0x100000000 ≤ card.resourceStart) :
    card.resourceStart % 0x100000000 + card.resourceLen ≤ card.resourceStart := by
  by_cases small : card.resourceLen ≤ 0x100000000
  · omega
  · have wide : 2 ^ 32 ∣ card.resourceStart := by
      refine (pow_dvd_pow 2 ?_).trans card.resource_aligned
      by_contra short
      have := Nat.pow_lt_pow_right (a := 2) (by decide) (not_le.mp short)
      exact small this.le
    have larger : card.resourceLen ≤ card.resourceStart :=
      Nat.le_of_dvd (by omega) card.resource_aligned
    omega

/-- `nac_iom_mmap` maps nothing outside the window exactly if moreover the window starts below
4 GB. -/
theorem iomMmap_inside_iff {card : Card} (mapped : iomMmap card vma remapped = .ok m) :
    m.Inside card.resourceStart card.resourceLen ↔
      0 ≤ vma.off ∧ 0 ≤ vma.vsize ∧ card.resourceStart < 0x100000000 := by
  have fits : card.resourceStart + card.resourceLen < 0x8000000000000000 := card.resource_fits
  have cut : card.resourceStart % 0x100000000 ≤ card.resourceStart := Nat.mod_le _ _
  obtain ⟨buf, assigned⟩ : ∃ buf, card.buf = some buf := by
    cases assigned : card.buf with
    | none => simp [iomMmap, assigned] at mapped
    | some buf => exact ⟨buf, rfl⟩
  simp only [iomMmap, assigned] at mapped
  by_cases negative : vma.off < 0 ∨ vma.vsize < 0
  · have outside := mmapRange_of_neg cut fits mapped negative
    exact iff_of_false outside (by omega)
  obtain ⟨phys, bytes, within⟩ := mmapRange_of_nonneg card.resource_pages (by omega) mapped
    (by omega) (by omega)
  obtain ⟨-, nonzero⟩ := vma.vsize_page
  constructor
  · rintro ⟨low, -⟩
    refine ⟨by omega, by omega, ?_⟩
    by_contra above
    have := card.resource_above (by omega)
    omega
  · rintro ⟨-, -, below⟩
    rw [Nat.mod_eq_of_lt below] at phys
    exact ⟨by omega, by omega⟩

end Mapping

/-! ## All entry points -/

/-- What user space reaches. A call touches nothing outside exactly if its arguments are confined,
which they are in every sequence of calls on a file whose position is never set to a negative one.
A mapping that was accepted covers nothing outside exactly if its offset and size are not negative
and, for the register window, if the window starts below 4 GB. -/
theorem driver_confines (card : Card) :
    (∀ (entry : Entry) (pos : Int) (count mapped : Nat), IsLoff pos → count < 0x80000000 →
      (Within (entry.size card) (entry.transfer card pos count mapped).touched ↔
        entry.Confined card pos count)) ∧
    (∀ (ops : List FileOp), (∀ op ∈ ops, op.Regular) → ∀ front entry count mapped back,
      ops = front ++ .call entry count mapped :: back →
        Within (entry.size card)
          (entry.transfer card (posAfter card 0 front) count mapped).touched) ∧
    (∀ (vma : Vma) (remapped : Bool) (m : Mapping), mmap card vma remapped = .ok m →
      ∃ buf, card.buf = some buf ∧
        (m.Inside buf card.bufSize ↔ 0 ≤ vma.off ∧ 0 ≤ vma.vsize)) ∧
    (∀ (vma : Vma) (remapped : Bool) (m : Mapping), iomMmap card vma remapped = .ok m →
      (m.Inside card.resourceStart card.resourceLen ↔
        0 ≤ vma.off ∧ 0 ≤ vma.vsize ∧ card.resourceStart < 0x100000000)) := by
  refine ⟨fun entry pos count mapped loff count_lt => entry.within_iff loff count_lt, ?_, ?_,
    fun vma remapped m mapped => iomMmap_inside_iff mapped⟩
  · rintro ops regular front entry count mapped back rfl
    have before : ∀ op ∈ front, op.Regular := fun op listed =>
      regular op (List.mem_append_left _ listed)
    have here : count < 0x80000000 :=
      regular (.call entry count mapped) (List.mem_append_right _ List.mem_cons_self)
    obtain ⟨low, loff⟩ := posAfter_nonneg card before le_rfl (show IsLoff 0 by unfold IsLoff; omega)
    exact (entry.within_iff loff here).mpr (.inl low)
  · intro vma remapped m mapped
    cases assigned : card.buf with
    | none =>
      rw [mmap, assigned] at mapped
      exact absurd mapped nofun
    | some buf => exact ⟨buf, rfl, mmap_inside_iff assigned mapped⟩

/-- A buffer of 64 MB at 256 MB, and a register window of 1 MB at 3 GB. -/
def smallCard : Card where
  buf := some 0x10000000
  bufSize := 0x4000000
  resourceStart := 0xc0000000
  resourceLog := 20
  bufSize_lt := by decide
  buf_pages := by decide
  resource_words := by decide
  resource_aligned := by decide
  resource_fits := by decide

/-- A read of the last bytes of the buffer, and a mapping of its last page. -/
theorem driver_confines_end :
    Within 0x4000000 (memRead smallCard 0x3fffff0 0x100 0x100).touched ∧
      ∃ m, mmap smallCard ⟨0x7f0000000000, 0x7f0000001000, 0x3fff, by decide, by decide, by decide,
        by decide⟩ true = .ok m ∧ m.Inside 0x10000000 0x4000000 := by
  obtain ⟨calls, -, mappings, -⟩ := driver_confines smallCard
  refine ⟨(calls .memRead 0x3fffff0 0x100 0x100 (by unfold IsLoff; decide) (by decide)).mpr
    (.inl (by decide)), ⟨0x13fff000, 0x1000⟩, by decide, ?_⟩
  obtain ⟨buf, ⟨⟩, inside⟩ := mappings ⟨0x7f0000000000, 0x7f0000001000, 0x3fff, by decide,
    by decide, by decide, by decide⟩ true ⟨0x13fff000, 0x1000⟩ (by decide)
  exact inside.mpr ⟨by decide, by decide⟩

/-- At position -4096 a read of 16 bytes copies 64 MB and a page from before the buffer. A mapping
at the page offset `2^52 - 1` covers the page before the buffer. -/
theorem negative_position_accepted :
    (memRead smallCard (-4096) 16 0).touched = some (-4096, 0x4001000) ∧
      ¬ Within smallCard.bufSize (memRead smallCard (-4096) 16 0).touched ∧
      ∃ vma : Vma, ∃ m, vma.pgoff = 2 ^ 52 - 1 ∧ mmap smallCard vma true = .ok m ∧
        m = ⟨0xffff000, 0x1000⟩ ∧ ¬ m.Inside 0x10000000 0x4000000 := by
  refine ⟨by decide, ?_, ⟨0x7f0000000000, 0x7f0000001000, 2 ^ 52 - 1, by decide, by decide,
    by decide, by decide⟩, _, rfl, by decide, rfl, ?_⟩
  · rintro ⟨low, -⟩
    exact absurd low (by decide)
  · rintro ⟨low, -⟩
    exact absurd low (by decide)

end Libpcap.Drv
