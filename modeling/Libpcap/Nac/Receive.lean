/-
# The receive ring of the card

`nac_advance_stream` of `nac_stream.c`. The card writes records into a ring and
advances its record pointer; it stops at the limit pointer, which the host moves on
when it has read. The buffer is mapped twice in a row, so that offsets up to twice the
size of the ring stand for cells, and the host's bottom pointer is wrapped only when
`nac_advance_stream` is called.

The registers hold residues. The state of this model also counts bytes: how many the
card has written, up to which number the limit pointer allows it to write, and how many
the host has passed. Between any two accesses of the host to a register, the card may
write.
-/

import Libpcap.Semantics.Bytes
import Libpcap.Semantics.Interleaving
import Libpcap.Semantics.Ring

namespace Libpcap.Nac

open Libpcap.Semantics Libpcap.Semantics.Ring

/-! ## Pointers as offsets from the buffer -/

def safetyWindow : Nat := 128

/-- `BOTTOM_POINTER & 0xffffffffffffff80`, in a buffer that begins at a page. -/
def bottomAlign (bottom : Nat) : Nat := bottom / 128 * 128

def wrsafe (size x : Nat) : Nat := if (x : Int) - safetyWindow ≤ 0 then size else x - safetyWindow

theorem wrsafe_of_le {size x : Nat} (near : x ≤ 128) : wrsafe size x = size :=
  if_pos (by simp only [safetyWindow]; omega)

theorem wrsafe_of_lt {size x : Nat} (far : 128 < x) : wrsafe size x = x - 128 :=
  if_neg (by simp only [safetyWindow]; omega)

/-- What the waiting loop compares with `mindata`. -/
def avail (size bottomAlign offset : Nat) : Nat :=
  if bottomAlign ≤ offset then offset - bottomAlign else size - bottomAlign + offset

/-- An attached and started receive stream. The timer `maxwait` is set or not. -/
structure RxStream where
  size : Nat
  extraWindowSize : Nat
  mindata : Nat
  maxwait : Bool
  size_pos : 0 < size
  size_aligned : 128 ∣ size

namespace RxStream

variable (stream : RxStream)

/-- `if(BOTTOM_POINTER > (buf + size)) BOTTOM_POINTER -= size` -/
def wrapBottom (bottom : Nat) : Nat := if stream.size < bottom then bottom - stream.size else bottom

/-- The end of `nac_advance_stream`: the top pointer that is returned. -/
def topOf (bottomAlign offset : Nat) : Nat :=
  let offset := if offset < bottomAlign then offset + stream.size else offset
  let offset :=
    if stream.size + stream.extraWindowSize < offset then stream.size + stream.extraWindowSize
    else offset
  if safetyWindow ≤ offset - bottomAlign then offset - safetyWindow else offset

end RxStream

/-! ## The card and the host -/

/-- Where the host is: outside `nac_advance_stream`, which has last returned a top pointer,
inside it with the record pointer read, or waiting with the limit pointer written. -/
inductive RxPhase
  | returned (top : Nat)
  | entered (offset : Nat)
  | waiting (offset : Nat)
  deriving DecidableEq, Repr

/-- The card has written `record` bytes into `buf` and may write `limit`; the host has
passed `consumed` bytes, which is where its bottom pointer stands. -/
structure RxState where
  record : Nat
  limit : Nat
  buf : Nat → Byte
  bottom : Nat
  consumed : Nat
  phase : RxPhase

/-- The events of the card and of the host. -/
inductive RxEvent
  | write (n : Nat)
  | enter
  | writeLimit
  | poll
  | finish
  | consume (n : Nat)
  deriving DecidableEq, Repr

namespace RxStream

variable (stream : RxStream)

/-- `nac_start_stream`; the bottom pointer is null or the buffer. -/
def start (cells : Nat → Byte) : RxState where
  record := 0
  limit := stream.size
  buf := cells
  bottom := 0
  consumed := 0
  phase := .returned 0

/-- The value that is written to the limit pointer. -/
def limitPtr (bottom : Nat) : Nat := wrsafe stream.size (bottomAlign bottom)

/-- One event. The card's bytes are those of `data`. A value of the limit pointer stands for
the first number from the last limit on that it can stand for. -/
def step (data : Nat → Byte) : Transition RxEvent RxState
  | .write n, s =>
    if s.record + n ≤ s.limit then
      some { s with
        record := s.record + n
        buf := store stream.size data s.record n s.buf }
    else none
  | .enter, s =>
    match s.phase with
    | .returned _ =>
      some { s with
        bottom := stream.wrapBottom s.bottom
        phase := .entered (s.record % stream.size) }
    | _ => none
  | .writeLimit, s =>
    match s.phase with
    | .entered offset =>
      some { s with
        limit := reach stream.size s.limit (stream.limitPtr s.bottom)
        phase := .waiting offset }
    | _ => none
  | .poll, s =>
    match s.phase with
    | .waiting offset =>
      if avail stream.size (bottomAlign s.bottom) offset < stream.mindata then
        some { s with phase := .waiting (s.record % stream.size) }
      else none
    | _ => none
  | .finish, s =>
    match s.phase with
    | .waiting offset =>
      if stream.mindata ≤ avail stream.size (bottomAlign s.bottom) offset ∨ stream.maxwait then
        some { s with phase := .returned (stream.topOf (bottomAlign s.bottom) offset) }
      else none
    | _ => none
  | .consume n, s =>
    match s.phase with
    | .returned top =>
      if s.bottom + n ≤ top then
        some { s with
          bottom := s.bottom + n
          consumed := s.consumed + n }
      else none
    | _ => none

/-- What an event has done. -/
inductive Move (data : Nat → Byte) (s : RxState) : RxEvent → RxState → Prop
  | write {n : Nat} (room : s.record + n ≤ s.limit) :
      Move data s (.write n)
        { s with
          record := s.record + n
          buf := store stream.size data s.record n s.buf }
  | enter {top : Nat} (phase : s.phase = .returned top) :
      Move data s .enter
        { s with
          bottom := stream.wrapBottom s.bottom
          phase := .entered (s.record % stream.size) }
  | writeLimit {offset : Nat} (phase : s.phase = .entered offset) :
      Move data s .writeLimit
        { s with
          limit := reach stream.size s.limit (stream.limitPtr s.bottom)
          phase := .waiting offset }
  | poll {offset : Nat} (phase : s.phase = .waiting offset)
      (few : avail stream.size (bottomAlign s.bottom) offset < stream.mindata) :
      Move data s .poll { s with phase := .waiting (s.record % stream.size) }
  | finish {offset : Nat} (phase : s.phase = .waiting offset)
      (enough : stream.mindata ≤ avail stream.size (bottomAlign s.bottom) offset ∨
        stream.maxwait = true) :
      Move data s .finish
        { s with phase := .returned (stream.topOf (bottomAlign s.bottom) offset) }
  | consume {top n : Nat} (phase : s.phase = .returned top) (within : s.bottom + n ≤ top) :
      Move data s (.consume n)
        { s with
          bottom := s.bottom + n
          consumed := s.consumed + n }

section Moves

variable {stream} {data : Nat → Byte} {event : RxEvent} {s target : RxState}

variable (moved : stream.step data event s = some target)
include moved

theorem move_of_step : stream.Move data s event target := by
  -- `rintro` closes the branches without a target
  revert moved
  fun_cases step stream data event s <;> rintro ⟨⟩
  · exact .write (by assumption)
  · exact .enter (by assumption)
  · exact .writeLimit (by assumption)
  · exact .poll (by assumption) (by assumption)
  · exact .finish (by assumption) (by assumption)
  · exact .consume (by assumption) (by assumption)

/-- The host passes bytes with one event only. -/
theorem consumed_of_step (other : ∀ n, event ≠ .consume n) : target.consumed = s.consumed := by
  cases move_of_step moved with
  | consume _ _ => exact absurd rfl (other _)
  | _ => rfl

theorem record_le_of_step : s.record ≤ target.record := by
  cases move_of_step moved with
  | write _ => exact Nat.le_add_right _ _
  | _ => exact le_rfl

theorem bottom_le_of_step (other : ∀ n, event ≠ .consume n) : target.bottom ≤ s.bottom := by
  cases move_of_step moved with
  | consume _ _ => exact absurd rfl (other _)
  | enter _ =>
    change stream.wrapBottom s.bottom ≤ s.bottom
    unfold wrapBottom
    split <;> omega
  | _ => exact le_rfl

end Moves

/-! ## Offsets and numbers -/

/-- The wrapped offset of a byte number: it is zero only at the start. -/
def offsetOf (number : Nat) : Nat := if number = 0 then 0 else (number - 1) % stream.size + 1

/-- The number up to which the card may write when the host stands at `number`. -/
def furthest (number : Nat) : Nat :=
  number / 128 * 128 + stream.size -
    if stream.offsetOf number < safetyWindow then 0 else safetyWindow

variable {stream}

theorem offsetOf_le (number : Nat) : stream.offsetOf number ≤ stream.size := by
  have less := Nat.mod_lt (number - 1) stream.size_pos
  unfold offsetOf
  split <;> omega

theorem offsetOf_eq_zero_iff {number : Nat} : stream.offsetOf number = 0 ↔ number = 0 := by
  unfold offsetOf
  split <;> omega

/-- A number is its offset and some rounds. -/
theorem exists_rounds (number : Nat) :
    ∃ rounds, stream.size ∣ rounds ∧ number = stream.offsetOf number + rounds := by
  unfold offsetOf
  split
  · rename_i zero
    exact ⟨0, Nat.dvd_zero _, zero⟩
  · refine ⟨stream.size * ((number - 1) / stream.size), Nat.dvd_mul_right _ _, ?_⟩
    have split := Nat.mod_add_div (number - 1) stream.size
    omega

theorem add_rounds_mod {rounds : Nat} (whole : stream.size ∣ rounds) (offset : Nat) :
    (offset + rounds) % stream.size = offset % stream.size := by
  obtain ⟨k, rfl⟩ := whole
  exact Nat.add_mul_mod_self_left _ _ _

theorem offsetOf_mod (number : Nat) :
    stream.offsetOf number % stream.size = number % stream.size := by
  obtain ⟨rounds, whole, split⟩ := stream.exists_rounds number
  calc stream.offsetOf number % stream.size
      = (stream.offsetOf number + rounds) % stream.size := (add_rounds_mod whole _).symm
    _ = number % stream.size := by rw [← split]

/-- An offset up to the size is determined by its residue, if zero is told apart. -/
theorem offset_unique {x y : Nat} (same : x % stream.size = y % stream.size)
    (zero : x = 0 ↔ y = 0) (xMost : x ≤ stream.size) (yMost : y ≤ stream.size) : x = y := by
  rcases Nat.lt_or_eq_of_le xMost with xLess | rfl <;>
    rcases Nat.lt_or_eq_of_le yMost with yLess | rfl
  · rwa [Nat.mod_eq_of_lt xLess, Nat.mod_eq_of_lt yLess] at same
  · rw [Nat.mod_eq_of_lt xLess, Nat.mod_self] at same
    exact same.trans (zero.mp same).symm
  · rw [Nat.mod_eq_of_lt yLess, Nat.mod_self] at same
    exact (zero.mpr same.symm).trans same
  · rfl

theorem wrapBottom_mod {bottom : Nat} :
    stream.wrapBottom bottom % stream.size = bottom % stream.size := by
  unfold wrapBottom
  split
  · exact (Nat.mod_eq_sub_mod (by omega)).symm
  · rfl

theorem wrapBottom_le {bottom : Nat} (most : bottom ≤ 2 * stream.size) :
    stream.wrapBottom bottom ≤ stream.size := by
  unfold wrapBottom
  split <;> omega

theorem wrapBottom_eq_zero_iff {bottom : Nat} : stream.wrapBottom bottom = 0 ↔ bottom = 0 := by
  unfold wrapBottom
  split <;> omega

/-- The bottom pointer of the host, wrapped, is the offset of its number. -/
theorem wrapBottom_eq {bottom number : Nat} (same : bottom % stream.size = number % stream.size)
    (zero : bottom = 0 ↔ number = 0) (most : bottom ≤ 2 * stream.size) :
    stream.wrapBottom bottom = stream.offsetOf number :=
  offset_unique (wrapBottom_mod.trans (same.trans (offsetOf_mod number).symm))
    (wrapBottom_eq_zero_iff.trans (zero.trans offsetOf_eq_zero_iff.symm)) (wrapBottom_le most)
    (offsetOf_le number)

/-- Aligning an offset is aligning its number. -/
theorem exists_aligned_rounds (number : Nat) :
    ∃ rounds, stream.size ∣ rounds ∧ number = stream.offsetOf number + rounds ∧
      number / 128 * 128 = bottomAlign (stream.offsetOf number) + rounds := by
  obtain ⟨rounds, whole, split⟩ := stream.exists_rounds number
  obtain ⟨k, aligned⟩ := stream.size_aligned.trans whole
  refine ⟨rounds, whole, split, ?_⟩
  unfold bottomAlign
  omega

theorem bottomAlign_le (bottom : Nat) : bottomAlign bottom ≤ bottom := Nat.div_mul_le_self _ _

theorem bottomAlign_of_lt {bottom : Nat} (near : bottom < 128) : bottomAlign bottom = 0 := by
  unfold bottomAlign
  omega

theorem furthest_of_lt {number : Nat} (near : stream.offsetOf number < 128) :
    stream.furthest number = number / 128 * 128 + stream.size := by
  rw [furthest, safetyWindow, if_pos near, Nat.sub_zero]

theorem furthest_of_le {number : Nat} (far : 128 ≤ stream.offsetOf number) :
    stream.furthest number = number / 128 * 128 + stream.size - 128 := by
  rw [furthest, safetyWindow, if_neg (not_lt.mpr far)]

/-- The limit pointer that is written stands for the furthest number. -/
theorem limitPtr_mod (number : Nat) :
    stream.limitPtr (stream.offsetOf number) % stream.size =
      stream.furthest number % stream.size := by
  obtain ⟨rounds, whole, -, aligned⟩ := stream.exists_aligned_rounds number
  rw [limitPtr]
  rcases Nat.lt_or_ge (stream.offsetOf number) 128 with near | far
  · rw [furthest_of_lt near, aligned, bottomAlign_of_lt near, wrsafe_of_le (by omega), Nat.zero_add, Nat.add_comm,
      add_rounds_mod whole]
  · have least : 128 ≤ bottomAlign (stream.offsetOf number) := by
      unfold bottomAlign
      omega
    rw [furthest_of_le far, aligned]
    rcases Nat.lt_or_eq_of_le least with later | one
    · have total : bottomAlign (stream.offsetOf number) + rounds + stream.size - 128 =
          bottomAlign (stream.offsetOf number) - 128 + stream.size + rounds := by omega
      rw [wrsafe_of_lt later, total, add_rounds_mod whole, Nat.add_mod_right]
    · have total : bottomAlign (stream.offsetOf number) + rounds + stream.size - 128 =
          stream.size + rounds := by omega
      rw [wrsafe_of_le one.ge, total, add_rounds_mod whole]

/-- The furthest number only moves forward: the margin that is left out in the first block
of the ring is made up for by the block before. -/
theorem furthest_mono {first second : Nat} (le : first ≤ second) :
    stream.furthest first ≤ stream.furthest second := by
  have least : 128 ≤ stream.size := Nat.le_of_dvd stream.size_pos stream.size_aligned
  have blocks : first / 128 ≤ second / 128 := Nat.div_le_div_right le
  rcases Nat.lt_or_ge (stream.offsetOf second) 128 with near | far
  · rw [furthest_of_lt near]
    unfold furthest
    omega
  rw [furthest_of_le far]
  rcases Nat.lt_or_ge (stream.offsetOf first) 128 with near' | far'
  · rw [furthest_of_lt near']
    -- the second number lies in a later block, or at the start of the first one
    rcases Nat.lt_or_eq_of_le blocks with later | same
    · omega
    · exfalso
      obtain ⟨rounds, whole, split, aligned⟩ := stream.exists_aligned_rounds first
      obtain ⟨rounds', whole', split', aligned'⟩ := stream.exists_aligned_rounds second
      have zero := bottomAlign_of_lt near'
      have apart : stream.size ∣ bottomAlign (stream.offsetOf second) := by
        have total : rounds = bottomAlign (stream.offsetOf second) + rounds' := by
          rw [← aligned', ← same, aligned, zero, Nat.zero_add]
        rw [total] at whole
        exact (Nat.dvd_add_left whole').mp whole
      have below := bottomAlign_le (stream.offsetOf second)
      have most := stream.offsetOf_le second
      have round := Nat.le_of_dvd (by unfold bottomAlign; omega) apart
      have start : stream.offsetOf first = 0 := by omega
      have none := offsetOf_eq_zero_iff.mp start
      omega
  · rw [furthest_of_le far']
    omega

/-- The furthest number is less than a round ahead of the limit. -/
theorem furthest_lt {number limit : Nat} (le : number ≤ limit) (positive : 0 < limit) :
    stream.furthest number < limit + stream.size := by
  have least : 128 ≤ stream.size := Nat.le_of_dvd stream.size_pos stream.size_aligned
  rcases Nat.lt_or_ge (stream.offsetOf number) 128 with near | far
  · rw [furthest_of_lt near]
    obtain ⟨rounds, -, split, aligned⟩ := stream.exists_aligned_rounds number
    have zero := bottomAlign_of_lt near
    have start : stream.offsetOf number = 0 ↔ number = 0 := offsetOf_eq_zero_iff
    omega
  · rw [furthest_of_le far]
    omega

end RxStream

/-! ## What the pointers show -/

/-- The waiting loop sees the distance from the aligned bottom to the record pointer. -/
theorem avail_eq_distance {size bottomAlign : Nat} (positive : 0 < size) (most : bottomAlign ≤ size)
    (read : Nat) : avail size bottomAlign (read % size) = distance size bottomAlign read := by
  have less := Nat.mod_lt read positive
  unfold avail distance
  generalize read % size = offset at less ⊢
  rcases Nat.lt_or_eq_of_le most with inside | rfl
  · rw [Nat.mod_eq_of_lt inside]
    split
    · have total : offset + (size - bottomAlign) = offset - bottomAlign + size := by omega
      rw [total, Nat.add_mod_right, Nat.mod_eq_of_lt (by omega)]
    · rw [Nat.mod_eq_of_lt (by omega)]
      omega
  · rw [if_neg (by omega), Nat.mod_self, Nat.sub_zero, Nat.add_mod_right, Nat.mod_eq_of_lt less]
    omega

namespace RxStream

variable {stream : RxStream}

/-- The host at `number` sees what the card has written since the aligned number, up to
whole rounds. -/
theorem avail_offsetOf {number read : Nat} (le : number ≤ read) :
    avail stream.size (bottomAlign (stream.offsetOf number)) (read % stream.size) =
      (read - number / 128 * 128) % stream.size := by
  obtain ⟨rounds, whole, -, aligned⟩ := stream.exists_aligned_rounds number
  have most := (bottomAlign_le (stream.offsetOf number)).trans (stream.offsetOf_le number)
  have below : number / 128 * 128 ≤ read := (Nat.div_mul_le_self _ _).trans le
  rw [avail_eq_distance stream.size_pos most, ← distance_of_le stream.size_pos below]
  apply distance_congr _ rfl
  rw [aligned, add_rounds_mod whole]

section

variable {bottomAlign offset : Nat} (most : bottomAlign ≤ stream.size)

include most

/-- The top pointer in terms of what is available. -/
theorem topOf_eq :
    stream.topOf bottomAlign offset =
      let top := min (bottomAlign + avail stream.size bottomAlign offset)
        (stream.size + stream.extraWindowSize)
      if safetyWindow ≤ top - bottomAlign then top - safetyWindow else top := by
  have unwrapped : (if offset < bottomAlign then offset + stream.size else offset) =
      bottomAlign + avail stream.size bottomAlign offset := by
    unfold avail
    split <;> split <;> omega
  have clamped : ∀ x y : Nat, (if y < x then y else x) = min x y := by
    intro x y
    split <;> omega
  simp only [topOf, unwrapped, clamped]

theorem topOf_le :
    stream.topOf bottomAlign offset ≤ bottomAlign + avail stream.size bottomAlign offset := by
  rw [topOf_eq most]
  dsimp only
  split <;> omega

theorem le_topOf :
    bottomAlign ≤ stream.topOf bottomAlign offset := by
  rw [topOf_eq most]
  dsimp only
  split <;> omega

end

end RxStream

/-! ## What every event keeps -/

/-- What is known of the host in each phase. Inside the call, the bottom pointer is wrapped
and the record pointer was read some time after the host came to its place. -/
def RxState.PhaseInv (stream : RxStream) (s : RxState) : Prop :=
  let read (offset : Nat) : Prop :=
    s.bottom ≤ stream.size ∧
      ∃ read, offset = read % stream.size ∧ s.consumed ≤ read ∧ read ≤ s.record
  match s.phase with
  | .returned top => top ≤ 2 * stream.size ∧ s.consumed + top ≤ s.record + s.bottom
  | .entered offset => read offset
  | .waiting offset => read offset

/-- The invariant: the pointers are in order, the limit is not beyond what the place of the
host allows, and the ring holds the last round of what was written. -/
structure RxState.Inv (stream : RxStream) (data : Nat → Byte) (s : RxState) : Prop where
  same : s.bottom % stream.size = s.consumed % stream.size
  zero : s.bottom = 0 ↔ s.consumed = 0
  most : s.bottom ≤ 2 * stream.size
  consumed_le : s.consumed ≤ s.record
  record_le : s.record ≤ s.limit
  limit_pos : 0 < s.limit
  limit_le : s.limit ≤ stream.furthest s.consumed
  holds : Holds stream.size s.buf data (s.record - stream.size) s.record
  phase : s.PhaseInv stream

namespace RxState.Inv

variable {stream : RxStream} {data : Nat → Byte} {s target : RxState}

theorem start (stream : RxStream) (data cells : Nat → Byte) : (stream.start cells).Inv stream data where
  same := rfl
  zero := Iff.rfl
  most := Nat.zero_le _
  consumed_le := le_rfl
  record_le := Nat.zero_le _
  limit_pos := stream.size_pos
  limit_le := by
    have zero : stream.offsetOf 0 = 0 := rfl
    rw [RxStream.furthest_of_lt (by change stream.offsetOf 0 < 128; omega)]
    change stream.size ≤ 0 / 128 * 128 + stream.size
    omega
  holds i _ below := absurd below (Nat.not_lt_zero i)
  phase := ⟨Nat.zero_le _, le_rfl⟩

variable (inv : s.Inv stream data)
include inv

/-- The wrapped bottom pointer stands for the place of the host. -/
theorem wrapBottom_eq : stream.wrapBottom s.bottom = stream.offsetOf s.consumed :=
  RxStream.wrapBottom_eq inv.same inv.zero inv.most

/-- So does one that has not left the ring. -/
theorem bottom_eq (inside : s.bottom ≤ stream.size) : s.bottom = stream.offsetOf s.consumed := by
  rw [← inv.wrapBottom_eq, RxStream.wrapBottom, if_neg (not_lt.mpr inside)]

theorem write {n : Nat} (room : s.record + n ≤ s.limit) :
    ({ s with
        record := s.record + n
        buf := store stream.size data s.record n s.buf } : RxState).Inv stream data :=
  { inv with
    consumed_le := inv.consumed_le.trans (Nat.le_add_right _ _)
    record_le := room
    holds := (inv.holds.mono (by change _ ≤ s.record + n - stream.size; omega) le_rfl).store
      (by change s.record + n ≤ s.record + n - stream.size + stream.size; omega)
    phase := by
      have phase := inv.phase
      obtain ⟨record, limit, buf, bottom, consumed, at_⟩ := s
      cases at_ with
      | returned top =>
        obtain ⟨most, window⟩ := phase
        exact ⟨most, window.trans (Nat.add_le_add_right (Nat.le_add_right _ _) _)⟩
      | entered offset | waiting offset =>
        obtain ⟨inside, read, rest, after, before⟩ := phase
        exact ⟨inside, read, rest, after, before.trans (Nat.le_add_right _ _)⟩ }

theorem enter :
    ({ s with
        bottom := stream.wrapBottom s.bottom
        phase := .entered (s.record % stream.size) } : RxState).Inv stream data :=
  { inv with
    same := RxStream.wrapBottom_mod.trans inv.same
    zero := RxStream.wrapBottom_eq_zero_iff.trans inv.zero
    most := (RxStream.wrapBottom_le inv.most).trans (Nat.le_mul_of_pos_left _ Nat.two_pos)
    phase := ⟨RxStream.wrapBottom_le inv.most, s.record, rfl, inv.consumed_le, le_rfl⟩ }

/-- The limit that is written is the furthest that the place of the host allows. -/
theorem reach_limitPtr (inside : s.bottom ≤ stream.size) :
    reach stream.size s.limit (stream.limitPtr s.bottom) = stream.furthest s.consumed := by
  rw [inv.bottom_eq inside, reach_congr (RxStream.limitPtr_mod s.consumed)]
  exact reach_eq inv.limit_le
    (RxStream.furthest_lt (inv.consumed_le.trans inv.record_le) inv.limit_pos)

theorem writeLimit {offset : Nat} (phase : s.phase = .entered offset) :
    ({ s with
        limit := reach stream.size s.limit (stream.limitPtr s.bottom)
        phase := .waiting offset } : RxState).Inv stream data := by
  have entered := inv.phase
  rw [PhaseInv, phase] at entered
  have later : s.limit ≤ reach stream.size s.limit (stream.limitPtr s.bottom) := le_reach
  exact
    { inv with
      record_le := inv.record_le.trans later
      limit_pos := inv.limit_pos.trans_le later
      limit_le := (inv.reach_limitPtr entered.1).le
      phase := entered }

theorem poll {offset : Nat} (phase : s.phase = .waiting offset) :
    ({ s with phase := .waiting (s.record % stream.size) } : RxState).Inv stream data := by
  have waiting := inv.phase
  rw [PhaseInv, phase] at waiting
  exact { inv with phase := ⟨waiting.1, s.record, rfl, inv.consumed_le, le_rfl⟩ }

/-- What the waiting loop sees lies below the record pointer. -/
theorem seen_le {offset : Nat} (phase : s.phase = .waiting offset) :
    s.bottom ≤ stream.size ∧
      avail stream.size (bottomAlign s.bottom) offset < stream.size ∧
      s.consumed + (bottomAlign s.bottom + avail stream.size (bottomAlign s.bottom) offset) ≤
        s.record + s.bottom := by
  have waiting := inv.phase
  rw [PhaseInv, phase] at waiting
  obtain ⟨inside, read, rfl, after, before⟩ := waiting
  have seen : avail stream.size (bottomAlign s.bottom) (read % stream.size) =
      (read - s.consumed / 128 * 128) % stream.size := by
    rw [inv.bottom_eq inside, RxStream.avail_offsetOf after]
  have round := Nat.mod_lt (read - s.consumed / 128 * 128) stream.size_pos
  have part := Nat.mod_le (read - s.consumed / 128 * 128) stream.size
  have block : s.consumed + bottomAlign s.bottom = s.consumed / 128 * 128 + s.bottom := by
    obtain ⟨rounds, -, split, blocks⟩ := stream.exists_aligned_rounds s.consumed
    rw [← inv.bottom_eq inside] at split blocks
    omega
  refine ⟨inside, ?_, ?_⟩ <;> omega

theorem finish {offset : Nat} (phase : s.phase = .waiting offset) :
    ({ s with phase := .returned (stream.topOf (bottomAlign s.bottom) offset) } :
      RxState).Inv stream data := by
  obtain ⟨inside, round, seen⟩ := inv.seen_le phase
  have aligned : bottomAlign s.bottom ≤ s.bottom := RxStream.bottomAlign_le _
  have top : stream.topOf (bottomAlign s.bottom) offset ≤ _ :=
    RxStream.topOf_le (aligned.trans inside)
  have returned : stream.topOf (bottomAlign s.bottom) offset ≤ 2 * stream.size ∧
      s.consumed + stream.topOf (bottomAlign s.bottom) offset ≤ s.record + s.bottom := by omega
  exact { inv with phase := returned }

/-- The host may pass what the card has written. -/
theorem pass {top n : Nat} (phase : s.phase = .returned top)
    (written : s.consumed + n ≤ s.record) (most : s.bottom + n ≤ 2 * stream.size) :
    ({ s with
        bottom := s.bottom + n
        consumed := s.consumed + n } : RxState).Inv stream data := by
  have returned := inv.phase
  rw [PhaseInv, phase] at returned
  have zero := inv.zero
  exact
    { inv with
      same := Nat.ModEq.add_right n inv.same
      zero := by
        change s.bottom + n = 0 ↔ s.consumed + n = 0
        omega
      most := most
      consumed_le := written
      limit_le := inv.limit_le.trans (RxStream.furthest_mono (Nat.le_add_right _ _))
      phase := by
        rw [PhaseInv, phase]
        change top ≤ 2 * stream.size ∧ s.consumed + n + top ≤ s.record + (s.bottom + n)
        omega }

theorem consume {top n : Nat} (phase : s.phase = .returned top)
    (within : s.bottom + n ≤ top) :
    ({ s with
        bottom := s.bottom + n
        consumed := s.consumed + n } : RxState).Inv stream data := by
  have returned := inv.phase
  rw [PhaseInv, phase] at returned
  obtain ⟨most, window⟩ := returned
  exact inv.pass phase (by omega) (within.trans most)

/-- Every event keeps the invariant. -/
theorem step {event : RxEvent}
    (moved : stream.step data event s = some target) : target.Inv stream data := by
  cases RxStream.move_of_step moved with
  | write room => exact inv.write room
  | enter _ => exact inv.enter
  | writeLimit phase => exact inv.writeLimit phase
  | poll phase _ => exact inv.poll phase
  | finish phase _ => exact inv.finish phase
  | consume phase within => exact inv.consume phase within

omit inv in
theorem of_reaches {cells : Nat → Byte}
    (reached : (stream.step data).Reaches (stream.start cells) s) : s.Inv stream data :=
  reached.invariant (fun _ _ _ inv moved => inv.step moved) (start stream data cells)

/-- The card is never a whole round ahead of the host. -/
theorem record_le_round : s.record ≤ s.consumed + stream.size := by
  have furthest : stream.furthest s.consumed ≤ s.consumed + stream.size := by
    unfold RxStream.furthest
    omega
  exact inv.record_le.trans (inv.limit_le.trans furthest)

/-- The bytes that the host has not passed are in the ring. -/
theorem unread : Holds stream.size s.buf data s.consumed s.record :=
  inv.holds.mono (Nat.sub_le_iff_le_add.mpr inv.record_le_round) le_rfl

end RxState.Inv

/-! ## The results -/

/-- What a look at the record pointer shows the host: nothing to read. -/
def RxStream.LooksEmpty (stream : RxStream) (s : RxState) : Prop :=
  avail stream.size (bottomAlign (stream.wrapBottom s.bottom)) (s.record % stream.size) = 0

/-- The limit pointer for an offset lies a safety window behind it, except in the first block
of the ring. -/
theorem RxStream.safetyWindow_le_distance_iff {stream : RxStream} {bottom : Nat}
    (inside : bottom ≤ stream.size) :
    safetyWindow ≤ distance stream.size (stream.limitPtr bottom) bottom ↔
      128 ≤ bottom ∧ stream.size ≠ 128 := by
  obtain ⟨blocks, total⟩ := stream.size_aligned
  have positive := stream.size_pos
  -- the value `size` stands for the start of the ring
  have wrapped : distance stream.size stream.size bottom = bottom % stream.size := by
    rw [distance_congr (Nat.mod_self _ |>.trans (Nat.zero_mod _).symm) rfl,
      distance_of_le positive (Nat.zero_le _), Nat.sub_zero]
  have whole : bottomAlign bottom = bottom / 128 * 128 := rfl
  simp only [safetyWindow, RxStream.limitPtr]
  rcases Nat.lt_or_ge 128 (bottomAlign bottom) with far | near
  · rw [wrsafe_of_lt far, distance_of_le positive (by omega), Nat.mod_eq_of_lt (by omega)]
    omega
  · rw [wrsafe_of_le near, wrapped]
    rcases Nat.lt_or_eq_of_le inside with less | rfl
    · rw [Nat.mod_eq_of_lt less]
      omega
    · rw [Nat.mod_self]
      omega

/-- **The receive ring.** However the card and the host take turns, the bytes that the host
has not passed are still in the ring. The limit pointer that the host writes lies a safety
window behind the first of them, and the ring does not look empty when it is not, exactly if the
bottom pointer, wrapped, lies behind the first block of the ring, and the ring has another. -/
theorem receive_ring_safe {stream : RxStream} {data cells : Nat → Byte} {s : RxState}
    (reached : (stream.step data).Reaches (stream.start cells) s) :
    Holds stream.size s.buf data s.consumed s.record ∧
      ((safetyWindow ≤ distance stream.size (stream.limitPtr (stream.wrapBottom s.bottom))
            (stream.wrapBottom s.bottom) ∧
          (stream.LooksEmpty s → s.record = s.consumed)) ↔
        128 ≤ stream.wrapBottom s.bottom ∧ stream.size ≠ 128) := by
  have inv := RxState.Inv.of_reaches reached
  have margin := RxStream.safetyWindow_le_distance_iff (RxStream.wrapBottom_le inv.most)
  refine ⟨inv.unread, ?_⟩
  rw [margin]
  constructor
  · intro safe
    exact safe.1
  · intro far
    refine ⟨far, ?_⟩
    intro empty
    rw [RxStream.LooksEmpty, inv.wrapBottom_eq, RxStream.avail_offsetOf inv.consumed_le] at empty
    -- the limit leaves the card a window short of a round
    have below : s.record ≤ stream.furthest s.consumed := inv.record_le.trans inv.limit_le
    rw [inv.wrapBottom_eq] at far
    rw [RxStream.furthest_of_le far.1] at below
    have ordered := inv.consumed_le
    have positive := stream.size_pos
    rw [Nat.mod_eq_of_lt (by omega)] at empty
    omega

/-- A ring of four blocks. -/
def fourBlocks : RxStream where
  size := 512
  extraWindowSize := 512
  mindata := 16
  maxwait := false
  size_pos := by decide
  size_aligned := by decide

/-- A host that has passed 160 bytes keeps its distance. -/
theorem receive_ring_safe_second_block :
    ∃ s, (fourBlocks.step fun _ => 0).run
        [.write 300, .enter, .writeLimit, .finish, .consume 160, .enter]
        (fourBlocks.start fun _ => 1) = some s ∧
      s.record = 300 ∧ s.consumed = 160 ∧
      Holds fourBlocks.size s.buf (fun _ => 0) s.consumed s.record ∧
      safetyWindow ≤ distance fourBlocks.size (fourBlocks.limitPtr (fourBlocks.wrapBottom s.bottom))
        (fourBlocks.wrapBottom s.bottom) ∧
      (fourBlocks.LooksEmpty s → s.record = s.consumed) := by
  have ran : ∃ s, (fourBlocks.step fun _ => 0).run
      [.write 300, .enter, .writeLimit, .finish, .consume 160, .enter]
      (fourBlocks.start fun _ => 1) = some s ∧
      s.record = 300 ∧ s.consumed = 160 ∧ s.bottom = 160 := by
    simp [Transition.run, RxStream.step, RxStream.start, fourBlocks, RxStream.wrapBottom,
      RxStream.topOf, bottomAlign, avail, safetyWindow]
  obtain ⟨s, ran, record, consumed, bottom⟩ := ran
  have safe := receive_ring_safe (Transition.reaches_of_run ran)
  refine ⟨s, ran, record, consumed, safe.1, safe.2.mpr ?_⟩
  rw [bottom]
  decide

/-- The card fills the ring before the host reads for the first time. The ring looks empty, and
the limit pointer is where the first unread byte is. -/
theorem full_ring_looks_empty :
    ∃ s, (fourBlocks.step fun _ => 0).run [.write 512, .enter] (fourBlocks.start fun _ => 1) = some s ∧
      s.record = 512 ∧ s.consumed = 0 ∧ fourBlocks.LooksEmpty s ∧
      distance fourBlocks.size (fourBlocks.limitPtr s.bottom) s.bottom = 0 := by
  simp [Transition.run, RxStream.step, RxStream.start, fourBlocks, RxStream.wrapBottom,
    RxStream.LooksEmpty, RxStream.limitPtr, wrsafe, bottomAlign, avail, distance, safetyWindow]

end Libpcap.Nac
