/-
# Contiguous memory for the cards

`nac_mem` collects chunks of pages in a table, sorted by falling addresses, and
looks in it for areas of adjacent chunks, one for each card. The chunks of an area
are deleted from the table, so that `nac_mem_free_ptable`, which gives back what
is left in the table, does not give them back.

A search accepts a run of chunks that is at least as large as the area, but deletes
the size of the area divided by the size of a chunk, rounded down. So an area is
reserved if and only if its size is a multiple of the chunk size: else the chunk
with its last bytes stays in the table, and is freed.
-/

import Mathlib.Data.Set.Lattice
import Mathlib.Order.CompletePartialOrder
import Mathlib.Order.Interval.Set.Defs
import Mathlib.Tactic.Ring

namespace Libpcap.Drv

variable {i : Nat}

variable {w : Nat}

/-! ## The table -/

def ptabSize : Nat := 1024

def nacMemSize : BitVec 32 := 256 * 1024 * 1024

/-- `i_size`, the share of one card. -/
def cardSize (nnacs : BitVec 32) : BitVec 32 := nacMemSize / nnacs

/-- `PAGE_SIZE << gfporder`, the size of one chunk. -/
def chunkSize (gfporder : Nat) : Nat := 4096 <<< gfporder

/-- `nac_mem_ptable`: the addresses of the chunks, as `unsigned long`. -/
abbrev PTable (w : Nat) := Nat → BitVec w

/-- The table and `cstart`, which `nac_mem_findcontig` keeps from call to call. -/
structure MemState (w : Nat) where
  ptable : PTable w
  cstart : Nat

/-- Delete the entries from `first` to `last - 1`. -/
def PTable.clear (t : PTable w) (first last : Nat) : PTable w :=
  fun j => if first ≤ j ∧ j < last then 0 else t j

/-- The loop of `nac_mem_findcontig`, where `mask` is `calign` after it was decremented. -/
def findLoop (psize : Nat) (csize mask : BitVec 32) (s : MemState w) (i : Nat) :
    BitVec w × MemState w :=
  if i < ptabSize then
    -- the product is an `int`, which is converted to unsigned for the comparison
    if csize.toNat ≤ (i - s.cstart) * psize % 2 ^ 32 ∧
        s.ptable (i - 1) &&& mask.signExtend w = 0 then
      (s.ptable (i - 1), ⟨s.ptable.clear (i - csize.toNat / psize) i, i⟩)
    else if s.ptable i = 0 then (0, { s with cstart := 0 })
    else if s.ptable (i - 1) - s.ptable i ≠ BitVec.ofNat w psize then
      findLoop psize csize mask { s with cstart := i } (i + 1)
    else findLoop psize csize mask s (i + 1)
  else (0, s)
termination_by ptabSize - i

/-- `nac_mem_findcontig` -/
def findcontig (gfporder : Nat) (csize calign : BitVec 32) (s : MemState w) :
    BitVec w × MemState w :=
  if s.ptable s.cstart = 0 then (0, s)
  else findLoop (chunkSize gfporder) csize (calign - 1) s (s.cstart + 1)

/-- The addresses that `nac_mem_free_ptable` frees. -/
def freePtable (t : PTable w) : List (BitVec w) := ((List.range ptabSize).map t).filter (· ≠ 0)

/-! ## Memory -/

/-- The bytes of a chunk. -/
def chunk (psize : Nat) (a : BitVec w) : Set Nat := Set.Ico a.toNat (a.toNat + psize)

/-- The bytes of an area. -/
def region (a : BitVec w) (csize : BitVec 32) : Set Nat := Set.Ico a.toNat (a.toNat + csize.toNat)

/-- The bytes of all chunks in the table. -/
def owned (psize : Nat) (t : PTable w) : Set Nat :=
  { b | ∃ k < ptabSize, t k ≠ 0 ∧ b ∈ chunk psize (t k) }

/-- A table of chunks: they do not overlap, and their addresses fall. -/
def Chunks (psize : Nat) (t : PTable w) : Prop :=
  ∀ j k, j < k → k < ptabSize → t j ≠ 0 → t k ≠ 0 → (t k).toNat + psize ≤ (t j).toNat

/-- What a call promises that returns an area: it is aligned and made of chunks of the table,
and exactly its bytes are gone from the table. -/
structure Reserved (psize : Nat) (csize calign : BitVec 32) (before : PTable w) (a : BitVec w)
    (after : PTable w) : Prop where
  aligned : calign.toNat ∣ a.toNat
  inside : region a csize ⊆ owned psize before
  removed : owned psize after = owned psize before \ region a csize
  unchanged : ∀ k < ptabSize, after k = before k ∨
    after k = 0 ∧ chunk psize (before k) ⊆ region a csize

/-! ## The search -/

section Search

variable {psize : Nat} {csize mask : BitVec 32} {s s' : MemState w} {a : BitVec w}

/-- The entries from `first` to `last - 1` are adjacent chunks. -/
structure Adjacent (psize : Nat) (t : PTable w) (first last : Nat) : Prop where
  nonempty : first < last
  inTable : last ≤ ptabSize
  taken : ∀ k, first ≤ k → k < last → t k ≠ 0
  next : ∀ k, first ≤ k → k + 1 < last → (t k).toNat = (t (k + 1)).toNat + psize

/-- What a call that returns an area found: enough adjacent chunks, the lowest of them aligned. -/
structure Found (psize : Nat) (csize mask : BitVec 32) (t : PTable w) (a : BitVec w)
    (s' : MemState w) (first last : Nat) : Prop where
  adjacent : Adjacent psize t first last
  inTable : last < ptabSize
  enough : csize.toNat ≤ (last - first) * psize
  lowest : a = t (last - 1)
  aligned : a &&& mask.signExtend w = 0
  cleared : s'.ptable = t.clear (last - csize.toNat / psize) last
  start : s'.cstart = last

/-- The end of a call: an area was found, or the table is as it was. -/
def Outcome (psize : Nat) (csize mask : BitVec 32) (t : PTable w) (a : BitVec w)
    (s' : MemState w) : Prop :=
  (a = 0 ∧ s'.ptable = t ∧ s'.cstart < ptabSize) ∨
    ∃ first last, Found psize csize mask t a s' first last

theorem adjacent_single {t : PTable w} (taken : t i ≠ 0) (inTable : i < ptabSize) :
    Adjacent psize t i (i + 1) where
  nonempty := Nat.lt_succ_self i
  inTable := inTable
  taken k low high := by
    obtain rfl : k = i := by omega
    exact taken
  next k low high := by omega

/-- One more chunk. -/
theorem Adjacent.grow {t : PTable w} {first : Nat} (adjacent : Adjacent psize t first i)
    (chunks : Chunks psize t) (small : psize < 2 ^ w) (inTable : i < ptabSize) (taken : t i ≠ 0)
    (next : t (i - 1) - t i = BitVec.ofNat w psize) : Adjacent psize t first (i + 1) where
  nonempty := adjacent.nonempty.trans (Nat.lt_succ_self i)
  inTable := inTable
  taken k low high := by
    by_cases last : k = i
    · exact last ▸ taken
    · exact adjacent.taken k low (by omega)
  next k low high := by
    have nonempty := adjacent.nonempty
    by_cases last : k + 1 = i
    · obtain rfl : k = i - 1 := by omega
      have below := chunks (i - 1) i (by omega) inTable
        (adjacent.taken (i - 1) (by omega) (by omega)) taken
      have difference := congrArg BitVec.toNat next
      rw [BitVec.toNat_sub_of_le (by rw [BitVec.le_def]; omega), BitVec.toNat_ofNat,
        Nat.mod_eq_of_lt small] at difference
      rw [last]
      omega
    · exact adjacent.next k low (by omega)

/-- The address of an entry, counted from the lowest chunk. -/
theorem Adjacent.address {t : PTable w} {first last : Nat} (adjacent : Adjacent psize t first last)
    {k : Nat} (low : first ≤ k) (high : k < last) :
    (t k).toNat = (t (last - 1)).toNat + (last - 1 - k) * psize := by
  induction distance : last - 1 - k generalizing k with
  | zero =>
    obtain rfl : k = last - 1 := by omega
    omega
  | succ n ih =>
    rw [adjacent.next k low (by omega), ih (by omega) (by omega) (by omega)]
    ring

/-- The loop keeps the run of adjacent chunks that starts at `cstart`. -/
theorem findLoop_outcome (chunks : Chunks psize s.ptable) (small : psize < 2 ^ w)
    (adjacent : Adjacent psize s.ptable s.cstart i)
    (found : findLoop psize csize mask s i = (a, s')) : Outcome psize csize mask s.ptable a s' := by
  fun_induction findLoop psize csize mask s i with
  | case1 s i inTable done =>
    cases found
    exact .inr ⟨s.cstart, i, adjacent, inTable, done.1.trans (Nat.mod_le _ _), rfl, done.2, rfl, rfl⟩
  | case2 s i inTable more empty =>
    cases found
    exact .inl ⟨rfl, rfl, show 0 < ptabSize by decide⟩
  | case3 s i inTable more taken gap ih => exact ih chunks (adjacent_single taken inTable) found
  | case4 s i inTable more taken next ih =>
    exact ih chunks (adjacent.grow chunks small inTable taken (not_not.mp next)) found
  | case5 s i ended =>
    cases found
    have nonempty := adjacent.nonempty
    have inTable := adjacent.inTable
    exact .inl ⟨rfl, rfl, by omega⟩

theorem chunkSize_eq (gfporder : Nat) : chunkSize gfporder = 2 ^ (12 + gfporder) := by
  rw [chunkSize, Nat.shiftLeft_eq, pow_add]
  rfl

theorem chunkSize_lt {gfporder : Nat} (order : gfporder ≤ 18) (wide : 32 ≤ w) :
    chunkSize gfporder < 2 ^ w := by
  rw [chunkSize_eq]
  exact Nat.pow_lt_pow_right (by decide) (by omega)

/-- One call of `nac_mem_findcontig`. -/
theorem findcontig_outcome {gfporder : Nat} {calign : BitVec 32}
    (chunks : Chunks (chunkSize gfporder) s.ptable) (order : gfporder ≤ 18) (wide : 32 ≤ w)
    (start : s.cstart < ptabSize) (found : findcontig gfporder csize calign s = (a, s')) :
    Outcome (chunkSize gfporder) csize (calign - 1) s.ptable a s' := by
  by_cases empty : s.ptable s.cstart = 0
  · rw [findcontig, if_pos empty] at found
    cases found
    exact .inl ⟨rfl, rfl, start⟩
  · rw [findcontig, if_neg empty] at found
    exact findLoop_outcome chunks (chunkSize_lt order wide) (adjacent_single empty start) found

end Search

/-! ## What is reserved -/

section Reservation

variable {psize first last : Nat} {csize calign mask : BitVec 32} {t : PTable w} {s' : MemState w}
  {a : BitVec w}

/-- The chunks of a run are the bytes from its lowest address on. -/
theorem Adjacent.mem_chunk_iff (adjacent : Adjacent psize t first last) (positive : 0 < psize)
    {n b : Nat} (count : n ≤ last - first) :
    (∃ k, last - n ≤ k ∧ k < last ∧ b ∈ chunk psize (t k)) ↔
      b ∈ Set.Ico (t (last - 1)).toNat ((t (last - 1)).toNat + n * psize) := by
  have nonempty := adjacent.nonempty
  constructor
  · rintro ⟨k, low, high, above, below⟩
    rw [adjacent.address (by omega) high] at above below
    refine ⟨by omega, below.trans_le ?_⟩
    have distance : (last - 1 - k + 1) * psize ≤ n * psize :=
      Nat.mul_le_mul_right psize (by omega)
    rw [Nat.add_mul] at distance
    omega
  · rintro ⟨above, below⟩
    obtain ⟨q, r, split, remainder⟩ : ∃ q r, b = (t (last - 1)).toNat + q * psize + r ∧ r < psize := by
      refine ⟨(b - (t (last - 1)).toNat) / psize, _, ?_,
        Nat.mod_lt (b - (t (last - 1)).toNat) positive⟩
      rw [Nat.add_assoc, Nat.div_add_mod']
      omega
    have index : q < n := by
      refine Nat.lt_of_mul_lt_mul_right (a := psize) ?_
      omega
    refine ⟨last - 1 - q, by omega, by omega, ?_⟩
    rw [chunk, adjacent.address (by omega) (by omega), Set.mem_Ico,
      show last - 1 - (last - 1 - q) = q by omega]
    omega

/-- The bytes that a search accepts are bytes of the table, whatever is deleted. -/
theorem Found.region_subset (found : Found psize csize mask t a s' first last)
    (positive : 0 < psize) : region a csize ⊆ owned psize t := by
  rintro b ⟨low, high⟩
  have nonempty := found.adjacent.nonempty
  have inRun : b ∈ Set.Ico (t (last - 1)).toNat
      ((t (last - 1)).toNat + (last - first) * psize) := by
    rw [← found.lowest]
    exact ⟨low, high.trans_le (Nat.add_le_add_left found.enough _)⟩
  obtain ⟨k, low, high, inChunk⟩ :=
    (found.adjacent.mem_chunk_iff positive le_rfl).mpr inRun
  exact ⟨k, high.trans found.inTable, found.adjacent.taken k (by omega) high, inChunk⟩

theorem owned_clear_subset (t : PTable w) (first last : Nat) :
    owned psize (t.clear first last) ⊆ owned psize t := by
  rintro b ⟨k, inTable, taken, inChunk⟩
  by_cases deleted : first ≤ k ∧ k < last
  · exact absurd (if_pos deleted) taken
  · rw [PTable.clear, if_neg deleted] at taken inChunk
    exact ⟨k, inTable, taken, inChunk⟩

theorem Chunks.clear (chunks : Chunks psize t) (first last : Nat) :
    Chunks psize (t.clear first last) := by
  intro j k before inTable takenJ takenK
  have kept : ∀ i, t.clear first last i ≠ 0 → t.clear first last i = t i := fun i taken =>
    if_neg fun deleted => taken (if_pos deleted)
  have sameJ := kept j takenJ
  have sameK := kept k takenK
  rw [sameJ] at takenJ ⊢
  rw [sameK] at takenK ⊢
  exact chunks j k before inTable takenJ takenK

/-- Two chunks of the table have no byte in common. -/
theorem Chunks.disjoint (chunks : Chunks psize t) {j k b : Nat} (distinct : j ≠ k)
    (inTableJ : j < ptabSize) (inTableK : k < ptabSize) (takenJ : t j ≠ 0) (takenK : t k ≠ 0)
    (inJ : b ∈ chunk psize (t j)) (inK : b ∈ chunk psize (t k)) : False := by
  rcases Nat.lt_or_gt_of_ne distinct with before | before
  · exact absurd ((chunks j k before inTableK takenJ takenK).trans inJ.1) inK.2.not_ge
  · exact absurd ((chunks k j before inTableJ takenK takenJ).trans inK.1) inJ.2.not_ge

/-- Of an area whose size is a multiple of the chunk size, the chunks are gone, and no others. -/
theorem Found.removed (found : Found psize csize mask t a s' first last) (chunks : Chunks psize t)
    (positive : 0 < psize) (divides : psize ∣ csize.toNat) :
    owned psize s'.ptable = owned psize t \ region a csize ∧
      ∀ k < ptabSize, s'.ptable k = t k ∨
        s'.ptable k = 0 ∧ chunk psize (t k) ⊆ region a csize := by
  obtain ⟨n, size⟩ := divides
  have count : csize.toNat / psize = n := by rw [size, Nat.mul_div_cancel_left n positive]
  have enough : n ≤ last - first := by
    have := found.enough
    rw [size, Nat.mul_comm] at this
    exact Nat.le_of_mul_le_mul_right this positive
  have inArea : ∀ b, b ∈ region a csize ↔ ∃ k, last - n ≤ k ∧ k < last ∧ b ∈ chunk psize (t k) := by
    intro b
    rw [found.adjacent.mem_chunk_iff positive enough, region, found.lowest, size, Nat.mul_comm n]
  rw [found.cleared, count]
  refine ⟨Set.ext fun b => ⟨fun inTable => ⟨owned_clear_subset t _ _ inTable, ?_⟩, ?_⟩, ?_⟩
  · -- an entry that is left does not overlap one that was deleted
    obtain ⟨k, inTable, taken, inChunk⟩ := inTable
    rw [inArea]
    rintro ⟨j, low, high, inDeleted⟩
    have kept : ¬ (last - n ≤ k ∧ k < last) := fun deleted => taken (if_pos deleted)
    rw [PTable.clear, if_neg kept] at taken inChunk
    have distinct : j ≠ k := by
      rintro rfl
      exact kept ⟨low, high⟩
    exact chunks.disjoint distinct (high.trans found.inTable) inTable
      (found.adjacent.taken j (by omega) high) taken inDeleted inChunk
  · rintro ⟨⟨k, inTable, taken, inChunk⟩, outside⟩
    have kept : ¬ (last - n ≤ k ∧ k < last) := fun ⟨low, high⟩ =>
      outside ((inArea b).mpr ⟨k, low, high, inChunk⟩)
    refine ⟨k, inTable, ?_⟩
    rw [PTable.clear, if_neg kept]
    exact ⟨taken, inChunk⟩
  · intro k inTable
    by_cases deleted : last - n ≤ k ∧ k < last
    · exact .inr ⟨if_pos deleted, fun b inChunk =>
        (inArea b).mpr ⟨k, deleted.1, deleted.2, inChunk⟩⟩
    · exact .inl (if_neg deleted)

/-- Else the chunk with the last bytes of the area is left in the table. -/
theorem Found.kept (found : Found psize csize mask t a s' first last) (positive : 0 < psize)
    (rest : ¬ psize ∣ csize.toNat) :
    ∃ b ∈ region a csize, b ∈ owned psize s'.ptable := by
  generalize quotient : csize.toNat / psize = n at *
  have larger : n * psize < csize.toNat := by
    rw [← quotient]
    refine lt_of_le_of_ne (Nat.div_mul_le_self _ _) fun same => rest ?_
    exact ⟨_, (Nat.mul_comm _ _ ▸ same).symm⟩
  have enough : n < last - first :=
    Nat.lt_of_mul_lt_mul_right (larger.trans_le found.enough)
  have address := found.adjacent.address (k := last - 1 - n) (by omega) (by omega)
  rw [show last - 1 - (last - 1 - n) = n by omega, ← found.lowest] at address
  refine ⟨a.toNat + n * psize, ⟨by omega, by omega⟩, last - 1 - n, ?_, ?_⟩
  · have := found.inTable
    omega
  · have left : s'.ptable (last - 1 - n) = t (last - 1 - n) := by
      rw [found.cleared, quotient]
      exact if_neg (by omega)
    rw [left]
    refine ⟨found.adjacent.taken _ (by omega) (by omega), ?_⟩
    rw [chunk, address]
    exact ⟨le_rfl, by omega⟩

/-- A mask of low bits tests whether an address is a multiple of a power of 2. -/
theorem dvd_of_and_mask {e : Nat} (wide : 32 ≤ w) (small : e ≤ 30)
    (power : calign = BitVec.ofNat 32 (2 ^ e)) (masked : a &&& (calign - 1).signExtend w = 0) :
    calign.toNat ∣ a.toNat := by
  have bound : 2 ^ e < 2 ^ 31 := Nat.pow_lt_pow_right (by decide) (by omega)
  have positive : 0 < 2 ^ e := Nat.two_pow_pos e
  have size : calign.toNat = 2 ^ e := by
    rw [power, BitVec.toNat_ofNat]
    omega
  have mask : (calign - 1).toNat = 2 ^ e - 1 := by
    rw [BitVec.toNat_sub_of_le (by rw [BitVec.le_def, size]; exact positive), size]
    rfl
  have low : (calign - 1).msb = false := by
    rw [BitVec.msb_eq_false_iff_two_mul_lt, mask]
    omega
  have bits := congrArg BitVec.toNat masked
  rw [BitVec.toNat_and, BitVec.signExtend_eq_setWidth_of_msb_false low, BitVec.toNat_setWidth,
    mask, Nat.mod_eq_of_lt, Nat.and_two_pow_sub_one_eq_mod] at bits
  · rw [size]
    exact Nat.dvd_of_mod_eq_zero bits
  · have : 2 ^ 32 ≤ 2 ^ w := Nat.pow_le_pow_right (by decide) wide
    omega

/-- A search that found an area reserved it if and only if its size is a multiple of the chunk
size. -/
theorem Found.reserved_iff (found : Found psize csize (calign - 1) t a s' first last)
    (chunks : Chunks psize t) (positive : 0 < psize) (wide : 32 ≤ w) {e : Nat} (small : e ≤ 30)
    (power : calign = BitVec.ofNat 32 (2 ^ e)) :
    Reserved psize csize calign t a s'.ptable ↔ psize ∣ csize.toNat := by
  constructor
  · intro reserved
    by_contra rest
    obtain ⟨b, inArea, left⟩ := found.kept positive rest
    rw [reserved.removed] at left
    exact left.2 inArea
  · intro divides
    obtain ⟨removed, unchanged⟩ := found.removed chunks positive divides
    exact ⟨dvd_of_and_mask wide small power found.aligned, found.region_subset positive, removed,
      unchanged⟩

end Reservation

/-! ## Sequences of calls -/

/-- The arguments of a call. -/
structure Request where
  csize : BitVec 32
  calign : BitVec 32
  deriving DecidableEq, Repr

/-- One call: the address it returns. -/
def Request.address (r : Request) (gfporder : Nat) (s : MemState w) : BitVec w :=
  (findcontig gfporder r.csize r.calign s).1

/-- One call: the state it leaves. -/
def Request.state (r : Request) (gfporder : Nat) (s : MemState w) : MemState w :=
  (findcontig gfporder r.csize r.calign s).2

/-- The state after a sequence of calls, which starts with the sorted table. -/
def afterCalls (gfporder : Nat) (t : PTable w) (requests : List Request) : MemState w :=
  requests.foldl (fun s r => r.state gfporder s) ⟨t, 0⟩

section Calls

variable {gfporder : Nat} {t : PTable w}

/-- What every call keeps. -/
structure Collected (gfporder : Nat) (s : MemState w) : Prop where
  chunks : Chunks (chunkSize gfporder) s.ptable
  start : s.cstart < ptabSize

section

variable {s : MemState w} (collected : Collected gfporder s) (order : gfporder ≤ 18) (wide : 32 ≤ w)

include collected order wide

theorem Collected.outcome (r : Request) :
    Outcome (chunkSize gfporder) r.csize (r.calign - 1) s.ptable (r.address gfporder s)
      (r.state gfporder s) :=
  findcontig_outcome collected.chunks order wide collected.start rfl

theorem Collected.call (r : Request) :
    Collected gfporder (r.state gfporder s) ∧
      owned (chunkSize gfporder) (r.state gfporder s).ptable ⊆
        owned (chunkSize gfporder) s.ptable := by
  rcases collected.outcome order wide r with ⟨-, same, start⟩ | ⟨first, last, found⟩
  · rw [same]
    exact ⟨⟨same ▸ collected.chunks, start⟩, subset_rfl⟩
  · rw [found.cleared]
    refine ⟨⟨?_, found.start ▸ found.inTable⟩, owned_clear_subset _ _ _⟩
    rw [found.cleared]
    exact collected.chunks.clear _ _

/-- The calls of a sequence keep the table one of chunks, and add nothing to it. -/
theorem Collected.calls (requests : List Request) :
    Collected gfporder (requests.foldl (fun s r => r.state gfporder s) s) ∧
      owned (chunkSize gfporder) (requests.foldl (fun s r => r.state gfporder s) s).ptable ⊆
        owned (chunkSize gfporder) s.ptable := by
  induction requests generalizing s with
  | nil => exact ⟨collected, subset_rfl⟩
  | cons r rest ih =>
    obtain ⟨next, fewer⟩ := collected.call order wide r
    obtain ⟨final, fewest⟩ := ih next
    exact ⟨final, fewest.trans fewer⟩

end

theorem afterCalls_collected (sorted : Chunks (chunkSize gfporder) t) (order : gfporder ≤ 18)
    (wide : 32 ≤ w) (requests : List Request) :
    Collected gfporder (afterCalls gfporder t requests) :=
  (Collected.calls (s := ⟨t, 0⟩) ⟨sorted, show 0 < ptabSize by decide⟩ order wide requests).1

theorem afterCalls_append (gfporder : Nat) (t : PTable w) (front : List Request) (r : Request)
    (rest : List Request) :
    afterCalls gfporder t (front ++ r :: rest) =
      rest.foldl (fun s r => r.state gfporder s) (r.state gfporder (afterCalls gfporder t front)) := by
  rw [afterCalls, List.foldl_append]
  rfl

/-- In a sequence of calls, a call that returns an area with a power of 2 as its alignment
reserves it if and only if its size is a multiple of the chunk size. Then no later area and no
chunk that is freed at the end has a byte of it. -/
theorem findcontig_reserves (order : gfporder ≤ 18) (wide : 32 ≤ w)
    (sorted : Chunks (chunkSize gfporder) t) {front : List Request} {r : Request} {e : Nat}
    (small : e ≤ 30) (power : r.calign = BitVec.ofNat 32 (2 ^ e))
    (success : r.address gfporder (afterCalls gfporder t front) ≠ 0) :
    (Reserved (chunkSize gfporder) r.csize r.calign (afterCalls gfporder t front).ptable
        (r.address gfporder (afterCalls gfporder t front))
        (afterCalls gfporder t (front ++ [r])).ptable ↔ chunkSize gfporder ∣ r.csize.toNat) ∧
      (chunkSize gfporder ∣ r.csize.toNat → ∀ rest,
        (∀ r' : Request, r'.address gfporder (afterCalls gfporder t (front ++ r :: rest)) ≠ 0 →
          Disjoint (region (r.address gfporder (afterCalls gfporder t front)) r.csize)
            (region (r'.address gfporder (afterCalls gfporder t (front ++ r :: rest))) r'.csize)) ∧
        ∀ c ∈ freePtable (afterCalls gfporder t (front ++ r :: rest)).ptable,
          Disjoint (region (r.address gfporder (afterCalls gfporder t front)) r.csize)
            (chunk (chunkSize gfporder) c)) := by
  have positive : 0 < chunkSize gfporder := by
    rw [chunkSize_eq]
    exact Nat.two_pow_pos _
  have collected := afterCalls_collected sorted order wide front
  rcases collected.outcome order wide r with ⟨failed, -⟩ | ⟨first, last, found⟩
  · exact absurd failed success
  have reservedIff := found.reserved_iff collected.chunks positive wide small power
  refine ⟨afterCalls_append gfporder t front r [] ▸ reservedIff, fun divides rest => ?_⟩
  have gone : Disjoint (region (r.address gfporder (afterCalls gfporder t front)) r.csize)
      (owned (chunkSize gfporder) (afterCalls gfporder t (front ++ r :: rest)).ptable) := by
    have fewer := ((collected.call order wide r).1.calls order wide rest).2
    rw [← afterCalls_append, (reservedIff.mpr divides).removed] at fewer
    exact Set.disjoint_sdiff_right.mono_right fewer
  refine ⟨fun r' success' => ?_, fun c freed => ?_⟩
  · have later := afterCalls_collected sorted order wide (front ++ r :: rest)
    rcases later.outcome order wide r' with ⟨failed, -⟩ | ⟨first', last', found'⟩
    · exact absurd failed success'
    · exact gone.mono_right (found'.region_subset positive)
  · simp only [freePtable, List.mem_filter, List.mem_map, List.mem_range, decide_eq_true_eq] at freed
    obtain ⟨⟨k, inTable, rfl⟩, taken⟩ := freed
    have inOwned : chunk (chunkSize gfporder) ((afterCalls gfporder t (front ++ r :: rest)).ptable k) ⊆
        owned (chunkSize gfporder) (afterCalls gfporder t (front ++ r :: rest)).ptable :=
      fun b inChunk => ⟨k, inTable, taken, inChunk⟩
    exact gone.mono_right inOwned

/-- A table of `n` adjacent chunks, the first of them at `base`. -/
theorem chunks_descending {psize base n : Nat} (fits : base < 2 ^ w) (room : n * psize ≤ base) :
    Chunks psize (fun k => if k < n then BitVec.ofNat w (base - k * psize) else 0) := by
  intro j k before inTable takenJ takenK
  have low : k < n := by
    by_contra high
    exact takenK (if_neg high)
  have upper : k * psize ≤ n * psize := Nat.mul_le_mul_right psize low.le
  have lower : (j + 1) * psize ≤ k * psize := Nat.mul_le_mul_right psize before
  rw [Nat.add_mul] at lower
  simp only [if_pos low, if_pos (before.trans low), BitVec.toNat_ofNat]
  rw [Nat.mod_eq_of_lt (by omega), Nat.mod_eq_of_lt (by omega)]
  omega

/-- Four cards: the first one gets four of eight adjacent chunks of 16 MB. -/
theorem findcontig_reserves_quarter :
    Reserved (chunkSize 12) (cardSize 4) 0x100000
      (fun k => if k < 8 then BitVec.ofNat 32 (0xd0000000 - k * 0x1000000) else 0) 0xcd000000
      (afterCalls 12 (fun k => if k < 8 then BitVec.ofNat 32 (0xd0000000 - k * 0x1000000) else 0)
        [⟨cardSize 4, 0x100000⟩]).ptable := by
  have address : (Request.mk (cardSize 4) 0x100000).address 12 (afterCalls 12 (fun k =>
      if k < 8 then BitVec.ofNat 32 (0xd0000000 - k * 0x1000000) else 0) []) = 0xcd000000 := by
    decide +kernel
  have sorted : Chunks (chunkSize 12) (fun k =>
      if k < 8 then BitVec.ofNat 32 (0xd0000000 - k * 0x1000000) else 0) :=
    chunks_descending (by decide) (by decide)
  have success : (Request.mk (cardSize 4) 0x100000).address 12 (afterCalls 12 (fun k =>
      if k < 8 then BitVec.ofNat 32 (0xd0000000 - k * 0x1000000) else 0) []) ≠ 0 := by
    rw [address]
    decide
  have reserved := (findcontig_reserves (e := 20) (by decide) (by decide) sorted (by decide)
    (by decide) success).1.mpr (by decide)
  rwa [address] at reserved

/-- Three cards, and eight adjacent chunks of 16 MB: the area of the first card has bytes of a
chunk that is left in the table and freed. With an alignment that is not a power of 2, the area
need not be aligned. -/
theorem third_of_memory_not_reserved :
    (∃ t : PTable 32, Chunks (chunkSize 12) t ∧
      (Request.mk (cardSize 3) 0x100000).address 12 (afterCalls 12 t []) = 0xcb000000 ∧
      ∃ c ∈ freePtable (afterCalls 12 t [⟨cardSize 3, 0x100000⟩]).ptable,
        c.toNat ∈ region (0xcb000000 : BitVec 32) (cardSize 3)) ∧
    ∃ t : PTable 32, Chunks (chunkSize 0) t ∧
      (Request.mk 4096 3072).address 0 (afterCalls 0 t []) = 4096 ∧ ¬ 3072 ∣ 4096 := by
  refine ⟨⟨fun k => if k < 8 then BitVec.ofNat 32 (0xd0000000 - k * 0x1000000) else 0, ?_, ?_,
    0xd0000000, ?_, ?_⟩, fun k => if k = 0 then 4096 else 0, ?_, ?_, by decide⟩
  · exact chunks_descending (by decide) (by decide)
  · decide +kernel
  · decide +kernel
  · exact ⟨by decide, by decide⟩
  · intro j k before inTable takenJ takenK
    exact absurd (if_neg (by omega)) takenK
  · decide +kernel

end Calls

end Libpcap.Drv
