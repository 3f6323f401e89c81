/-
# The memory of the compiler

`newchunk` hands out the memory that the code generator needs for blocks, statements and
names. It carves it from the end of a chunk that was allocated and set to zero, and takes the
next chunk, twice as large, when the current one has not enough left. `freechunks` gives all
chunks back when a compilation is over or has failed.

The first chunk of the table is never allocated: its `n_left` is 0, so that the first request
goes to the next one. A request of 0 bytes does not, and gets a null pointer. The size of a
request is rounded up to a multiple of 8 and stored in 32 bits, where a request of nearly
`2^32` bytes becomes one of 0 bytes and succeeds.
-/

import Libpcap.Semantics.Interleaving
import Mathlib.Algebra.Group.Nat.Defs
import Mathlib.Data.Set.Basic

namespace Libpcap.Gencode.Newchunk

open Libpcap.Semantics Function

def nchunks : Nat := 16

/-- `CHUNK0SIZE << k` -/
def chunkSize (k : Nat) : Nat := 1024 <<< k

/-- `struct chunk`, where `m` says whether the pointer is not null. -/
structure Chunk where
  nLeft : Nat
  m : Bool

/-- A byte, by the place of its chunk in the table and its offset. -/
abbrev Pointer := Nat × Nat

/-- `chunks` and `cur_chunk`, with the bytes of the chunks. -/
structure Chunks where
  table : Nat → Chunk
  cur : Nat
  memory : Pointer → BitVec 8

/-- `(n + sizeof(long) - 1) & ~(sizeof(long) - 1)`, computed in an `unsigned long` and stored in a
`u_int`. -/
def roundUp (n : BitVec 32) : Nat := (n.toNat + 7) / 8 * 8 % 2 ^ 32

/-- The end of `newchunk`: the last bytes that are left in a chunk. -/
def Chunks.carve (c : Chunks) (k n : Nat) : Except String Pointer × Chunks :=
  let left := (c.table k).nLeft - n
  (.ok (k, left), { c with table := update c.table k { c.table k with nLeft := left } })

/-- A chunk is allocated and set to zero. -/
def Chunks.malloc (c : Chunks) (k : Nat) : Chunks where
  table := update c.table k ⟨chunkSize k, true⟩
  cur := k
  memory := fun b => if b.1 = k then 0 else c.memory b

/-- `newchunk`, where `granted` says whether `malloc` succeeds. -/
def newchunk (granted : Bool) (n : BitVec 32) (c : Chunks) : Except String Pointer × Chunks :=
  let n := roundUp n
  if (c.table c.cur).nLeft < n then
    let k := c.cur + 1
    if nchunks ≤ k then (.error "out of memory", { c with cur := k })
    else if granted then
      if chunkSize k < n then (.error "out of memory", c.malloc k) else (c.malloc k).carve k n
    else
      let table := update c.table k { c.table k with m := false }
      (.error "out of memory", { c with table, cur := k })
  else c.carve c.cur n

/-- `freechunks`; `n_left` stays. -/
def freechunks (c : Chunks) : Chunks :=
  { c with table := fun k => { c.table k with m := false }, cur := 0 }

/-! ## What is handed out -/

/-- Memory that was handed out, with the number of bytes that were asked for. -/
structure Region where
  start : Pointer
  size : Nat

def Region.bytes (r : Region) : Set Pointer :=
  { b | b.1 = r.start.1 ∧ r.start.2 ≤ b.2 ∧ b.2 < r.start.2 + r.size }

/-- The allocator, and what it handed out since the last `freechunks`. -/
structure Arena extends Chunks where
  regions : List Region

/-- The static variables before the first compilation. -/
def Arena.start : Arena := ⟨⟨fun _ => ⟨0, false⟩, 0, fun _ => 0⟩, []⟩

inductive Event
  | request (granted : Bool) (n : BitVec 32)
  | write (b : Pointer) (value : BitVec 8)
  | free

/-- What happens: a request, which ends the compilation when it fails; the compiler writes a byte;
or the compilation ends. -/
def step : Transition Event Arena
  | .request granted n, a =>
    match newchunk granted n a.toChunks with
    | (.ok p, c) => some ⟨c, ⟨p, n.toNat⟩ :: a.regions⟩
    | (.error _, c) => some ⟨freechunks c, []⟩
  | .write b value, a => some { a with memory := update a.memory b value }
  | .free, a => some ⟨freechunks a.toChunks, []⟩

/-- The region is aligned and all zero, lies in one allocated chunk, and shares no byte with the
others. -/
structure Sound (c : Chunks) (others : List Region) (r : Region) : Prop where
  aligned : 8 ∣ r.start.2
  zeroed : ∀ b ∈ r.bytes, c.memory b = 0
  allocated : (c.table r.start.1).m = true
  inside : r.start.2 + r.size ≤ chunkSize r.start.1
  disjoint : ∀ other ∈ others, ∀ b ∈ r.bytes, b ∉ other.bytes

/-- What is promised for a request. -/
def Served (granted : Bool) (n : BitVec 32) (a : Arena) : Prop :=
  match newchunk granted n a.toChunks with
  | (.ok p, c) => Sound c a.regions ⟨p, n.toNat⟩
  | (.error text, _) => text = "out of memory"

/-! ## All requests -/

/-- The bytes left in the current chunk. -/
def Chunks.left (c : Chunks) : Nat := (c.table c.cur).nLeft

/-- The current chunk is zero up to what is left of it, and everything handed out lies behind. -/
structure Inv (a : Arena) : Prop where
  unused : a.table 0 = ⟨0, false⟩
  inTable : a.cur < nchunks
  aligned : 8 ∣ a.left
  current : a.cur ≠ 0 → (a.table a.cur).m = true ∧ a.left ≤ chunkSize a.cur
  zero : ∀ i < a.left, a.memory (a.cur, i) = 0
  behind : ∀ r ∈ a.regions, ∀ b ∈ r.bytes, b.1 ≤ a.cur ∧ (b.1 = a.cur → a.left ≤ b.2)

theorem Inv.freechunks {c : Chunks} (unused : (c.table 0).nLeft = 0) :
    Inv ⟨freechunks c, []⟩ := by
  have left : (Newchunk.freechunks c).left = 0 := unused
  refine ⟨congrArg (Chunk.mk · false) unused, Nat.zero_lt_succ _, left ▸ Nat.dvd_zero 8,
    absurd rfl, fun i small => ?_, List.forall_mem_nil _⟩
  exact absurd (left ▸ small) (Nat.not_lt_zero i)

section Requests

variable {a : Arena} (inv : Inv a)
include inv

/-- The next chunk is allocated. -/
theorem Inv.malloc (inside : a.cur + 1 < nchunks) :
    Inv ⟨a.malloc (a.cur + 1), a.regions⟩ ∧
      (a.malloc (a.cur + 1)).left = chunkSize (a.cur + 1) := by
  have here := update_self (a.cur + 1) (⟨chunkSize (a.cur + 1), true⟩ : Chunk) a.table
  have left : (a.malloc (a.cur + 1)).left = chunkSize (a.cur + 1) := congrArg Chunk.nLeft here
  refine ⟨⟨inv.unused, inside, ?_, fun _ => ⟨congrArg Chunk.m here, left.le⟩, fun i _ => if_pos rfl,
    fun r within b member => ?_⟩, left⟩
  · rw [left, chunkSize, Nat.shiftLeft_eq]
    exact Nat.dvd_mul_right_of_dvd (by decide) _
  · have old := (inv.behind r within b member).1
    exact ⟨old.trans (Nat.le_succ _), fun new => absurd old (new ▸ Nat.not_succ_le_self _)⟩

/-- Bytes are carved from the current chunk, which may be the one that is never allocated if they
are none. -/
theorem Inv.carve {n size : Nat} (rounded : size ≤ n ∧ 8 ∣ n) (enough : n ≤ a.left) :
    ∃ p c, a.carve a.cur n = (.ok p, c) ∧ Inv ⟨c, ⟨p, size⟩ :: a.regions⟩ ∧
      (Sound c a.regions ⟨p, size⟩ ↔ a.cur ≠ 0) := by
  let region : Region := ⟨(a.cur, a.left - n), size⟩
  have fits : a.left - n + size ≤ a.left := by omega
  have below : ∀ b ∈ region.bytes, b.2 < a.left := fun b member => member.2.2.trans_le fits
  have aligned := Nat.dvd_sub inv.aligned rounded.2
  obtain ⟨table, carved, here, others⟩ :
      ∃ table, a.carve a.cur n = (.ok region.start, { a.toChunks with table }) ∧
        table a.cur = ⟨a.left - n, (a.table a.cur).m⟩ ∧ ∀ k ≠ a.cur, table k = a.table k :=
    ⟨_, rfl, update_self .., fun k ne => update_of_ne ne _ _⟩
  have left : Chunks.left { a.toChunks with table } = a.left - n := congrArg Chunk.nLeft here
  have smaller := left.le.trans (Nat.sub_le _ _)
  have same := congrArg Chunk.m here
  refine ⟨_, _, carved, ⟨?_, inv.inTable, left.symm ▸ aligned, fun started => ?_, fun i small => ?_,
    List.forall_mem_cons.mpr ⟨fun b member => ?_, fun r within b member => ?_⟩⟩,
    fun sound first => ?_, fun started => ?_⟩
  · by_cases first : 0 = a.cur
    · have empty : a.left = 0 := first ▸ congrArg Chunk.nLeft inv.unused
      rwa [empty, ← first, inv.unused, Nat.zero_sub] at here
    · exact (others 0 first).trans inv.unused
  · have current := inv.current started
    exact ⟨same.trans current.1, smaller.trans current.2⟩
  · exact inv.zero i (lt_of_lt_of_le small smaller)
  · exact ⟨member.1.le, fun _ => left.le.trans member.2.1⟩
  · have old := inv.behind r within b member
    exact ⟨old.1, fun here => smaller.trans (old.2 here)⟩
  · have allocated := same.symm.trans sound.allocated
    rw [first, inv.unused] at allocated
    cases allocated
  · have current := inv.current started
    refine ⟨aligned, fun b member => ?_, same.trans current.1, fits.trans current.2,
      fun other within b member shared => ?_⟩
    · exact (congrArg (fun k => a.memory (k, b.2)) member.1).trans (inv.zero b.2 (below b member))
    · exact Nat.not_lt.mpr ((inv.behind other within b shared).2 member.1) (below b member)

/-- A request of a size whose rounding fits in 32 bits. -/
theorem Inv.newchunk {n : BitVec 32} (fits : n.toNat + 7 < 2 ^ 32) (granted : Bool) :
    (∃ p c, newchunk granted n a.toChunks = (.ok p, c) ∧ Inv ⟨c, ⟨p, n.toNat⟩ :: a.regions⟩ ∧
      (Sound c a.regions ⟨p, n.toNat⟩ ↔ (n = 0 → a.cur ≠ 0))) ∨
    ∃ c, newchunk granted n a.toChunks = (.error "out of memory", c) ∧ n ≠ 0 ∧
      (c.table 0).nLeft = 0 := by
  have size : roundUp n = (n.toNat + 7) / 8 * 8 := Nat.mod_eq_of_lt (by omega)
  have rounded : n.toNat ≤ roundUp n ∧ 8 ∣ roundUp n := by omega
  have unused : (a.table 0).nLeft = 0 := congrArg Chunk.nLeft inv.unused
  rw [Newchunk.newchunk]
  dsimp only
  split
  case isFalse enough =>
    obtain ⟨p, c, carved, kept, sound⟩ := inv.carve rounded (Nat.not_lt.mp enough)
    refine .inl ⟨p, c, carved, kept, sound.trans ⟨fun started _ => started, fun zero first => ?_⟩⟩
    -- Nothing is left in the first chunk, so that only a request of no bytes gets here.
    rw [first, unused, size] at enough
    exact zero (BitVec.eq_of_toNat_eq (by change n.toNat = 0; omega)) first
  case isTrue more =>
    have some : n ≠ 0 := by
      rintro rfl
      exact absurd more (Nat.not_lt_zero _)
    split
    case isTrue => exact .inr ⟨_, rfl, some, unused⟩
    case isFalse inside =>
      obtain ⟨next, left⟩ := inv.malloc (Nat.not_le.mp inside)
      split
      case isFalse => exact .inr ⟨_, rfl, some, unused⟩
      case isTrue =>
        split
        case isTrue => exact .inr ⟨_, rfl, some, unused⟩
        case isFalse enough =>
          obtain ⟨p, c, carved, kept, sound⟩ := next.carve rounded (left ▸ Nat.not_lt.mp enough)
          exact .inl ⟨p, c, carved, kept, sound.trans
            ⟨fun _ none => absurd none some, fun _ => Nat.succ_ne_zero _⟩⟩

end Requests

/-- The rounding of a request fits in 32 bits, and the compiler writes only to what it was given. -/
def Admitted : Event → Arena → Prop
  | .request _ n, _ => n.toNat + 7 < 2 ^ 32
  | .write b _, a => ∃ r ∈ a.regions, b ∈ r.bytes
  | .free, _ => True

theorem Inv.step {event : Event} {a next : Arena} (inv : Inv a) (admitted : Admitted event a)
    (moved : step event a = some next) : Inv next := by
  cases event with
  | request granted n =>
    obtain ⟨p, c, made, kept, _⟩ | ⟨c, made, _, unused⟩ := inv.newchunk admitted granted
    all_goals
      rw [Newchunk.step, made] at moved
      cases moved
    · exact kept
    · exact .freechunks unused
  | write b value =>
    cases moved
    obtain ⟨r, within, member⟩ := admitted
    refine ⟨inv.unused, inv.inTable, inv.aligned, inv.current, fun i small => ?_, inv.behind⟩
    refine (update_of_ne (fun same => ?_) _ _).trans (inv.zero i small)
    exact Nat.not_lt.mpr ((inv.behind r within b member).2 (same ▸ rfl)) (same ▸ small)
  | free =>
    cases moved
    exact .freechunks (congrArg Chunk.nLeft inv.unused)

/-- A request whose rounding does not fit becomes one of no bytes. -/
theorem Inv.not_served {a : Arena} (inv : Inv a) {n : BitVec 32} (large : 2 ^ 32 ≤ n.toNat + 7)
    (granted : Bool) : ¬ Served granted n a := by
  have none : roundUp n = 0 := by
    have bound := n.isLt
    rw [roundUp, show (n.toNat + 7) / 8 * 8 = 2 ^ 32 by omega, Nat.mod_self]
  rw [Served, Newchunk.newchunk, none]
  intro served
  have inside : a.left + n.toNat ≤ chunkSize a.cur := served.inside
  have small : chunkSize a.cur ≤ 1024 * 2 ^ 15 := by
    rw [chunkSize, Nat.shiftLeft_eq]
    exact Nat.mul_le_mul_left _ (Nat.pow_le_pow_right (by decide) (Nat.le_of_lt_succ inv.inTable))
  omega

/-- After any requests whose rounding fits in 32 bits, writes and ends of compilations, a request
gets what is promised exactly if its own rounding fits, and it is not for 0 bytes before the first
chunk is allocated. -/
theorem newchunk_sound_iff {a : Arena} (path : step.ReachesBy Admitted .start a) (granted : Bool)
    (n : BitVec 32) :
    Served granted n a ↔ n.toNat + 7 < 2 ^ 32 ∧ (n = 0 → a.cur ≠ 0) := by
  have inv : Inv a := path.invariant (fun _ _ _ inv admitted moved => inv.step admitted moved)
    (Inv.freechunks (c := Arena.start.toChunks) rfl)
  by_cases fits : n.toNat + 7 < 2 ^ 32
  · rw [Served]
    obtain ⟨p, c, made, _, sound⟩ | ⟨c, made, some, _⟩ := inv.newchunk fits granted
    all_goals rw [made]
    · exact sound.trans (and_iff_right fits).symm
    · exact iff_of_true rfl ⟨fits, fun none => absurd none some⟩
  · exact iff_of_false (inv.not_served (Nat.not_lt.mp fits) granted) fun holds => fits holds.1

theorem newchunk_sound_second : Served true 8 ((step (.request true 24) .start).get rfl) :=
  (newchunk_sound_iff (.tail (.refl _) (by exact (by decide : 24 + 7 < 2 ^ 32))
    (Option.some_get _).symm) true 8).mpr ⟨by decide, by decide⟩

/-- Neither the largest request nor one of 0 bytes gets memory from a fresh allocator, and both
succeed. -/
theorem newchunk_without_memory :
    ((newchunk true 0xffffffff Arena.start.toChunks).1 = .ok (0, 0) ∧
      ¬ Served true 0xffffffff .start) ∧
    (newchunk true 0 Arena.start.toChunks).1 = .ok (0, 0) ∧ ¬ Served true 0 .start :=
  ⟨⟨rfl, fun served => Bool.false_ne_true served.allocated⟩,
    rfl, fun served => Bool.false_ne_true served.allocated⟩

end Libpcap.Gencode.Newchunk
