/-
# Iterating over the records

`nac_get_next_record` of `nac_stream.c` returns one record per call. It remembers how
much of the last window is left and how far it has gone in it, and asks
`nac_advance_stream` for a new window when the next header, or the rest of the next
record, is not in the one it has. Twice it compares what is left with a length: with the
size of a header as an `int`, and with the length of the record as an unsigned number.

The top pointer of a new window may lie behind the bottom pointer. The first comparison
takes this for an empty window, the second one for a very long one.
-/

import Libpcap.Nac.Records

namespace Libpcap.Nac

open Libpcap.Semantics Libpcap.Semantics.Ring List

variable {target : IterState} {rlen top : Nat}

/-! ## The iterator -/

/-- A receive stream as `nac_attach_stream` sets it up. -/
structure IterStream extends RxStream where
  extra_le : extraWindowSize ≤ size
  size_lt : size < 2 ^ 31

/-- Where a call is: there is none, or it is inside `nac_advance_stream`, for a header or for
a record of the given length. -/
inductive IterPhase
  | idle
  | first
  | second (rlen : Nat)
  deriving DecidableEq, Repr

/-- A result: the offset that it points to, and the number of the byte there. -/
structure NextResult where
  pointer : Nat
  number : Nat
  deriving DecidableEq, Repr

/-- The stream with the members that the iterator keeps, and the results so far. Inside a call,
the local variable `next_record` is the bottom pointer of the ring. -/
structure IterState where
  rx : RxState
  offset : Nat
  processed : Nat
  freeSpace : Int
  isFirstTime : Bool
  phase : IterPhase
  results : List NextResult

inductive IterEvent
  | card (n : Nat)
  | call
  | enter
  | writeLimit
  | poll
  | finish
  deriving DecidableEq, Repr

/-- The end of a call that returns a record. -/
def IterState.give (s : IterState) (rlen : Nat) : IterState where
  rx := { s.rx with
    bottom := s.rx.bottom + rlen
    consumed := s.rx.consumed + rlen }
  offset := s.rx.bottom + rlen
  processed := s.processed + rlen
  freeSpace := s.freeSpace - rlen
  isFirstTime := s.isFirstTime
  phase := .idle
  results := s.results ++ [⟨s.rx.bottom, s.rx.consumed⟩]

/-- The members that are set before the first record. -/
def IterState.begin (s : IterState) : IterState :=
  if s.isFirstTime then
    { s with
      offset := 0
      processed := 0
      freeSpace := 0
      isFirstTime := false }
  else s

/-- `next_record = buf + stream->offset` -/
def IterState.rebase (s : IterState) : IterState := { s with rx := { s.rx with bottom := s.offset } }

/-- The members after `nac_advance_stream` has returned a top pointer. -/
def IterState.refresh (s : IterState) (rx : RxState) (top : Nat) : IterState :=
  { s with
    rx := rx
    processed := 0
    freeSpace := (top : Int) - rx.bottom }

namespace IterStream

variable (stream : IterStream) (data : Nat → Byte)

/-- `free_space < rlen`, where `free_space` is converted to an unsigned number. -/
def Short (freeSpace : Int) (rlen : Nat) : Prop := freeSpace % 2 ^ 32 < rlen

instance (freeSpace : Int) (rlen : Nat) : Decidable (Short freeSpace rlen) :=
  inferInstanceAs (Decidable (_ < _))

/-- From the reading of the length on. -/
def lookAt (s : IterState) : IterState :=
  let rlen := rlenAt (stream.view s.rx) s.rx.bottom
  if Short s.freeSpace rlen ∨ stream.extraWindowSize < s.processed + rlen then
    { s with phase := .second rlen }
  else s.give rlen

/-- From the start of a call on. -/
def begin (s : IterState) : IterState :=
  if s.freeSpace < nacRecordLen ∨ stream.extraWindowSize < s.processed + nacRecordLen then
    { s with phase := .first }
  else stream.lookAt s

/-- An event inside `nac_advance_stream`. -/
def advance (event : RxEvent) (s : IterState) : Option IterState :=
  if s.phase = .idle then none
  else (stream.step data event s.rx).map fun rx => { s with rx := rx }

/-- `nac_advance_stream` returns. A call that finds too little returns the null pointer. -/
def finish (s : IterState) : Option IterState :=
  match stream.step data .finish s.rx with
  | some rx =>
    match rx.phase, s.phase with
    | .returned top, .first =>
      let s := s.refresh rx top
      some (if s.freeSpace < nacRecordLen then { s with phase := .idle } else stream.lookAt s)
    | .returned top, .second rlen =>
      let s := s.refresh rx top
      some (if Short s.freeSpace rlen then { s with phase := .idle } else s.give rlen)
    | _, _ => none
  | none => none

/-- One event. -/
def iterate : Transition IterEvent IterState
  | .card n, s => (stream.step data (.write n) s.rx).map fun rx => { s with rx := rx }
  | .call, s => if s.phase = .idle then some (stream.begin s.begin.rebase) else none
  | .enter, s => stream.advance data .enter s
  | .writeLimit, s => stream.advance data .writeLimit s
  | .poll, s => stream.advance data .poll s
  | .finish, s => stream.finish data s

/-- A stream that has been started; the members of the iterator hold anything. -/
def startIter (cells : Nat → Byte) (offset processed : Nat) (freeSpace : Int) : IterState :=
  ⟨stream.start cells, offset, processed, freeSpace, true, .idle, []⟩

end IterStream

/-! ## What every event keeps -/

/-- Records that the extra window can hold. -/
structure IterStream.WellFormed (stream : IterStream) (data : Nat → Byte) : Prop where
  long : ∀ k, nacRecordLen ≤ rlenAt data (recordStart data k)
  fits : ∀ k, rlenAt data (recordStart data k) ≤ stream.extraWindowSize

/-- The results are the first records of the card, each of them complete. -/
structure IterState.Good (stream : IterStream) (data : Nat → Byte) (s : IterState) : Prop where
  numbers : s.results.map NextResult.number = (List.range s.results.length).map (recordStart data)
  pointers : ∀ result ∈ s.results, result.pointer % stream.size = result.number % stream.size
  complete : ∀ result ∈ s.results, result.number + rlenAt data result.number ≤ s.rx.record

/-- The part of the invariant that does not depend on what the iterator remembers. -/
structure IterState.Core (stream : IterStream) (data : Nat → Byte) (s : IterState) : Prop where
  rx : s.rx.Inv stream.toRxStream data
  consumed : s.rx.consumed = recordStart data s.results.length
  good : s.Good stream data

/-- What the iterator remembers: where it is, and what is left of its window. -/
structure IterState.Stored (stream : IterStream) (s : IterState) : Prop where
  same : s.offset % stream.size = s.rx.consumed % stream.size
  zero : s.offset = 0 ↔ s.rx.consumed = 0
  most : s.offset ≤ 2 * stream.size
  bottom_le : s.rx.bottom ≤ s.offset
  window : s.rx.consumed + s.freeSpace ≤ s.rx.record

/-- A pointer is in the window that was begun in the ring, or there is too little left in it for
the next record. -/
def IterState.Placed (stream : IterStream) (data : Nat → Byte) (s : IterState) (pointer : Nat) :
    Prop :=
  pointer ≤ stream.size + s.processed ∨ s.freeSpace < rlenAt data s.rx.consumed

/-- The invariant. -/
structure IterState.Inv (stream : IterStream) (data : Nat → Byte) (s : IterState) : Prop where
  core : s.Core stream data
  fresh : s.isFirstTime = true → s.rx.consumed = 0 ∧ s.phase = .idle
  stored : s.isFirstTime = false → s.Stored stream ∧ s.Placed stream data s.offset
  idle : s.phase = .idle → ∃ top, s.rx.phase = .returned top
  second : ∀ rlen, s.phase = .second rlen → rlen = rlenAt data s.rx.consumed

section Steps

variable {stream : IterStream} {data : Nat → Byte} {s : IterState}

theorem IterState.Inv.start (stream : IterStream) (data cells : Nat → Byte) (offset processed : Nat)
    (freeSpace : Int) : (stream.startIter cells offset processed freeSpace).Inv stream data where
  core :=
    { rx := .start stream.toRxStream data cells
      consumed := rfl
      good := ⟨rfl, fun _ within => absurd within not_mem_nil,
        fun _ within => absurd within not_mem_nil⟩ }
  fresh _ := ⟨rfl, rfl⟩
  stored := by rintro ⟨⟩
  idle _ := ⟨0, rfl⟩
  second := by rintro rlen ⟨⟩

/-- A state with the same results, in which the host has not moved and the card has not moved
back. -/
theorem IterState.Core.lower {t : IterState} (core : s.Core stream data)
    (kept : t.rx.Inv stream.toRxStream data) (results : t.results = s.results)
    (same : t.rx.consumed = s.rx.consumed) (later : s.rx.record ≤ t.rx.record) :
    t.Core stream data where
  rx := kept
  consumed := by rw [same, results, core.consumed]
  good :=
    { numbers := by rw [results, core.good.numbers]
      pointers := fun result within => core.good.pointers result (results ▸ within)
      complete := fun result within =>
        (core.good.complete result (results ▸ within)).trans later }

/-- A record is returned that is complete and within the two mappings of the buffer. -/
theorem IterState.Core.give (core : s.Core stream data) (phase : s.rx.phase = .returned top)
    (whole : s.rx.consumed + rlenAt data s.rx.consumed ≤ s.rx.record)
    (most : s.rx.bottom + rlenAt data s.rx.consumed ≤ 2 * stream.size) :
    (s.give (rlenAt data s.rx.consumed)).Core stream data where
  rx := core.rx.pass phase whole most
  consumed := by
    have place := core.consumed
    change s.rx.consumed + rlenAt data s.rx.consumed =
      recordStart data (s.results ++ [_]).length
    rw [length_append, length_singleton, recordStart, ← place]
  good :=
    { numbers := by
        have place := core.consumed
        simp only [IterState.give, map_append, map_cons, map_nil,
          length_append, length_singleton, range_succ, core.good.numbers, place]
      pointers := by
        intro result within
        rcases mem_append.mp within with earlier | last
        · exact core.good.pointers result earlier
        · rw [mem_singleton.mp last]
          exact core.rx.same
      complete := by
        intro result within
        rcases mem_append.mp within with earlier | last
        · exact core.good.complete result earlier
        · rw [mem_singleton.mp last]
          exact whole }

theorem IterState.Inv.give (core : s.Core stream data) (started : s.isFirstTime = false)
    (phase : s.rx.phase = .returned top)
    (whole : s.rx.consumed + rlenAt data s.rx.consumed ≤ s.rx.record)
    (window : s.rx.consumed + s.freeSpace ≤ s.rx.record)
    (place : s.rx.bottom ≤ stream.size + s.processed)
    (fits : s.processed + rlenAt data s.rx.consumed ≤ stream.extraWindowSize) :
    (s.give (rlenAt data s.rx.consumed)).Inv stream data := by
  have extra := stream.extra_le
  have most : s.rx.bottom + rlenAt data s.rx.consumed ≤ 2 * stream.size := by omega
  have core' := core.give phase whole most
  have left : ((s.rx.consumed + rlenAt data s.rx.consumed : Nat) : Int) +
      (s.freeSpace - rlenAt data s.rx.consumed) ≤ s.rx.record := by omega
  have here : s.rx.bottom + rlenAt data s.rx.consumed ≤
      stream.size + (s.processed + rlenAt data s.rx.consumed) := by omega
  exact
    { core := core'
      fresh := fun first => absurd (started.symm.trans first) (by decide)
      stored := fun _ => ⟨⟨core'.rx.same, core'.rx.zero, most, le_rfl, left⟩, Or.inl here⟩
      idle := fun _ => ⟨top, phase⟩
      second := by rintro rlen ⟨⟩ }

/-- What is left of a window, as an unsigned number. -/
theorem lt_of_short {rx : RxState} {freeSpace : Int} (inv : rx.Inv stream.toRxStream data)
    (window : rx.consumed + freeSpace ≤ rx.record) (short : IterStream.Short freeSpace rlen) :
    freeSpace < rlen := by
  have round := inv.record_le_round
  have small := stream.size_lt
  unfold IterStream.Short at short
  omega

theorem le_of_not_short {freeSpace : Int} (nonneg : 0 ≤ freeSpace)
    (enough : ¬ IterStream.Short freeSpace rlen) : rlen ≤ freeSpace := by
  unfold IterStream.Short at enough
  omega

/-- The iterator looks at a header that is in its window. -/
theorem IterState.Inv.lookAt (wellFormed : stream.WellFormed data) (core : s.Core stream data)
    (started : s.isFirstTime = false) (stored : s.Stored stream)
    (phase : s.rx.phase = .returned top) (header : nacRecordLen ≤ s.freeSpace)
    (here : s.Placed stream data s.rx.bottom)
    (place : s.processed = 0 ∨ s.Placed stream data s.offset) :
    (stream.lookAt s).Inv stream data := by
  have window := stored.window
  have written : s.rx.consumed + nacRecordLen ≤ s.rx.record := by omega
  have fits := wellFormed.fits s.results.length
  rw [← core.consumed] at fits
  rw [IterStream.lookAt, (core.rx.header_view written).1]
  split
  · rename_i more
    refine ⟨core.lower core.rx rfl rfl le_rfl, fun first => ?_, fun _ => ⟨?_, ?_⟩, ?_, ?_⟩
    · exact absurd (started.symm.trans first) (by decide)
    · exact ⟨stored.same, stored.zero, stored.most, stored.bottom_le, stored.window⟩
    · rcases more with short | beyond
      · exact Or.inr (lt_of_short core.rx window short)
      · rcases place with zero | place
        · omega
        · exact place
    · rintro ⟨⟩
    · rintro rlen ⟨⟩
      rfl
  · rename_i enough
    rw [not_or, not_lt] at enough
    have nonneg : 0 ≤ s.freeSpace := (Int.natCast_nonneg _).trans header
    have long := le_of_not_short nonneg enough.1
    have inside : s.rx.bottom ≤ stream.size + s.processed := by
      rcases here with inside | few
      · exact inside
      · omega
    exact .give core started phase (by omega) window inside enough.2

/-- The members are set before the first record. -/
theorem IterState.Inv.begin (inv : s.Inv stream data) :
    s.begin.Inv stream data ∧ s.begin.isFirstTime = false ∧ s.begin.phase = s.phase := by
  unfold IterState.begin
  split
  · rename_i first
    obtain ⟨none, idle⟩ := inv.fresh first
    have bottom : s.rx.bottom = 0 := inv.core.rx.zero.mpr none
    refine ⟨⟨inv.core.lower inv.core.rx rfl rfl le_rfl, by rintro ⟨⟩, fun _ => ⟨⟨?_, ?_, ?_, ?_, ?_⟩, ?_⟩,
      inv.idle, inv.second⟩, rfl, rfl⟩
    · rw [none]
    · exact iff_of_true rfl none
    · exact Nat.zero_le _
    · exact bottom.le
    · change (s.rx.consumed : Int) + 0 ≤ s.rx.record
      omega
    · exact Or.inl (Nat.zero_le _)
  · rename_i later
    exact ⟨inv, Bool.not_eq_true _ ▸ later, rfl⟩

/-- A call begins where the last one has left off. -/
theorem IterState.Inv.rebase (inv : s.Inv stream data) (started : s.isFirstTime = false)
    (idle : s.phase = .idle) : s.rebase.Inv stream data := by
  obtain ⟨stored, place⟩ := inv.stored started
  obtain ⟨top, phase⟩ := inv.idle idle
  have returned := inv.core.rx.phase
  rw [RxState.PhaseInv, phase] at returned
  have behind := stored.bottom_le
  have rx : s.rebase.rx.Inv stream.toRxStream data :=
    { same := stored.same
      zero := stored.zero
      most := stored.most
      consumed_le := inv.core.rx.consumed_le
      record_le := inv.core.rx.record_le
      limit_pos := inv.core.rx.limit_pos
      limit_le := inv.core.rx.limit_le
      holds := inv.core.rx.holds
      phase := by
        change RxState.PhaseInv stream.toRxStream { s.rx with bottom := s.offset }
        rw [RxState.PhaseInv, phase]
        change top ≤ 2 * stream.size ∧ s.rx.consumed + top ≤ s.rx.record + s.offset
        omega }
  exact
    { core := inv.core.lower rx rfl rfl le_rfl
      fresh := inv.fresh
      stored := fun _ => ⟨⟨stored.same, stored.zero, stored.most, le_rfl, stored.window⟩, place⟩
      idle := inv.idle
      second := inv.second }

theorem IterState.Inv.call (wellFormed : stream.WellFormed data) (inv : s.Inv stream data)
    (idle : s.phase = .idle) : (stream.begin s.begin.rebase).Inv stream data := by
  obtain ⟨begun, started, same⟩ := inv.begin
  have inv' := begun.rebase started (same.trans idle)
  obtain ⟨stored, place⟩ := inv'.stored started
  obtain ⟨top, phase⟩ := inv'.idle (same.trans idle)
  have here : s.begin.rebase.rx.bottom = s.begin.rebase.offset := rfl
  have first : s.begin.rebase.isFirstTime = false := started
  generalize s.begin.rebase = t at *
  rw [IterStream.begin]
  split
  · exact
      { core := inv'.core.lower inv'.core.rx rfl rfl le_rfl
        fresh := fun again => absurd (first.symm.trans again) (by decide)
        stored := fun _ => ⟨⟨stored.same, stored.zero, stored.most, stored.bottom_le, stored.window⟩,
          place⟩
        idle := by rintro ⟨⟩
        second := by rintro rlen ⟨⟩ }
  · rename_i enough
    rw [not_or, not_lt] at enough
    exact .lookAt wellFormed inv'.core first stored phase enough.1 (here ▸ place) (Or.inr place)

/-- The state in which `nac_advance_stream` returns. -/
def IterStream.refreshed (stream : IterStream) (s : IterState) (offset : Nat) : IterState :=
  s.refresh { s.rx with phase := .returned (stream.topOf (bottomAlign s.rx.bottom) offset) }
    (stream.topOf (bottomAlign s.rx.bottom) offset)

theorem finish_cases (moved : stream.finish data s = some target) :
    ∃ offset, s.rx.phase = .waiting offset ∧
      ((s.phase = .first ∧
          target =
            if (stream.refreshed s offset).freeSpace < nacRecordLen then
              { stream.refreshed s offset with phase := .idle }
            else stream.lookAt (stream.refreshed s offset)) ∨
        ∃ rlen, s.phase = .second rlen ∧
          target =
            if IterStream.Short (stream.refreshed s offset).freeSpace rlen then
              { stream.refreshed s offset with phase := .idle }
            else (stream.refreshed s offset).give rlen) := by
  unfold IterStream.finish at moved
  split at moved
  · rename_i rx finished
    cases RxStream.move_of_step finished with
    | finish waiting _ =>
      refine ⟨_, waiting, ?_⟩
      split at moved
      · rename_i top returned first
        cases returned
        cases moved
        exact Or.inl ⟨first, rfl⟩
      · rename_i top rlen returned second
        cases returned
        cases moved
        exact Or.inr ⟨rlen, second, rfl⟩
      · cases moved
  · cases moved

/-- What is known when `nac_advance_stream` has returned. -/
theorem IterState.Inv.refreshed {offset : Nat} (inv : s.Inv stream data)
    (waiting : s.rx.phase = .waiting offset) (started : s.isFirstTime = false) :
    (stream.refreshed s offset).Core stream data ∧ (stream.refreshed s offset).Stored stream ∧
      s.rx.bottom ≤ stream.size := by
  have rx := inv.core.rx.finish waiting
  have core : (stream.refreshed s offset).Core stream data := inv.core.lower rx rfl rfl le_rfl
  have inside := inv.core.rx.phase
  rw [RxState.PhaseInv, waiting] at inside
  obtain ⟨stored, -⟩ := inv.stored started
  refine ⟨core, ⟨stored.same, stored.zero, stored.most, stored.bottom_le, ?_⟩, inside.1⟩
  have window := rx.phase.2
  change s.rx.consumed + stream.topOf (bottomAlign s.rx.bottom) offset ≤ s.rx.record + s.rx.bottom
    at window
  change (s.rx.consumed : Int) + ((stream.topOf (bottomAlign s.rx.bottom) offset : Nat) -
    (s.rx.bottom : Int)) ≤ s.rx.record
  omega

/-- A call that finds too little returns the null pointer. -/
theorem IterState.Inv.again {t : IterState} (core : t.Core stream data)
    (started : t.isFirstTime = false) (stored : t.Stored stream)
    (phase : t.rx.phase = .returned top) (few : t.freeSpace < rlenAt data t.rx.consumed) :
    ({ t with phase := .idle } : IterState).Inv stream data where
  core := core.lower core.rx rfl rfl le_rfl
  fresh := fun first => absurd (started.symm.trans first) (by decide)
  stored := fun _ =>
    ⟨⟨stored.same, stored.zero, stored.most, stored.bottom_le, stored.window⟩, Or.inr few⟩
  idle := fun _ => ⟨top, phase⟩
  second := by rintro rlen ⟨⟩

/-! ## The second refresh -/

/-- The record pointer that a call waiting for the rest of a record has read would give a top
pointer behind the bottom pointer, and the record is not complete: the pointer is less than
a safety window ahead of the bottom pointer, but not of the aligned one, or the ring is full
and looks empty. -/
def IterStream.Behind (stream : IterStream) (s : IterState) : Prop :=
  match s.phase, s.rx.phase with
  | .second rlen, .waiting offset =>
    let seen := bottomAlign s.rx.bottom + avail stream.size (bottomAlign s.rx.bottom) offset
    (seen < s.rx.bottom ∨
        bottomAlign s.rx.bottom + safetyWindow ≤ seen ∧ seen < s.rx.bottom + safetyWindow) ∧
      s.rx.record < s.rx.consumed + rlen
  | _, _ => False

/-- For a record that is not complete, the top pointer is behind the bottom pointer exactly in
that case. -/
theorem top_lt_bottom_iff {offset : Nat} (inv : s.Inv stream data) (phase : s.phase = .second rlen)
    (waiting : s.rx.phase = .waiting offset) (fits : rlen ≤ stream.extraWindowSize)
    (part : s.rx.record < s.rx.consumed + rlen) :
    stream.topOf (bottomAlign s.rx.bottom) offset < s.rx.bottom ↔ stream.Behind s := by
  obtain ⟨inside, -, seen⟩ := inv.core.rx.seen_le waiting
  have aligned : bottomAlign s.rx.bottom ≤ s.rx.bottom := RxStream.bottomAlign_le _
  have block : s.rx.bottom < bottomAlign s.rx.bottom + 128 := by
    unfold bottomAlign
    omega
  rw [IterStream.Behind, phase, waiting, RxStream.topOf_eq (aligned.trans inside)]
  have width : safetyWindow = 128 := rfl
  -- a window that was cut would hold the record
  have whole : bottomAlign s.rx.bottom + avail stream.size (bottomAlign s.rx.bottom) offset ≤
      stream.size + stream.extraWindowSize := by omega
  rw [Nat.min_eq_left whole]
  dsimp only
  split <;> omega

theorem rlenAt_lt (bytes : Nat → Byte) (address : Nat) : rlenAt bytes address < 2 ^ 16 := by
  have high := (bytes (address + 10)).isLt
  have low := (bytes (address + 10 + 1)).isLt
  unfold rlenAt ntohs
  omega

theorem IterState.Inv.finish (wellFormed : stream.WellFormed data) (inv : s.Inv stream data)
    (notBehind : ¬ stream.Behind s) (moved : stream.finish data s = some target) :
    target.Inv stream data := by
  obtain ⟨offset, waiting, done⟩ := finish_cases moved
  have busy : s.phase ≠ .idle := by
    intro idle
    obtain ⟨top, returned⟩ := inv.idle idle
    exact absurd (returned.symm.trans waiting) (by simp)
  have started : s.isFirstTime = false := by
    rw [← Bool.not_eq_true]
    intro first
    exact busy (inv.fresh first).2
  obtain ⟨core, stored, inside⟩ := inv.refreshed waiting started
  have long := wellFormed.long s.results.length
  have fits := wellFormed.fits s.results.length
  rw [← inv.core.consumed] at long fits
  have here : (stream.refreshed s offset).rx.bottom ≤
      stream.size + (stream.refreshed s offset).processed := inside
  rcases done with ⟨phase, rfl⟩ | ⟨rlen, phase, rfl⟩
  · split
    · rename_i few
      exact .again core started stored rfl (few.trans_le (by exact_mod_cast long))
    · rename_i enough
      exact .lookAt wellFormed core started stored rfl (not_lt.mp enough) (Or.inl here) (Or.inl rfl)
  · have length : rlen = rlenAt data s.rx.consumed := inv.second rlen phase
    split
    · rename_i short
      have few := lt_of_short core.rx stored.window short
      exact .again core started stored rfl (length ▸ few)
    · rename_i enough
      have whole : s.rx.consumed + rlen ≤ s.rx.record := by
        rcases lt_or_ge (stream.refreshed s offset).freeSpace 0 with negative | nonneg
        · by_contra part
          apply notBehind
          rw [← top_lt_bottom_iff inv phase waiting (length ▸ fits) (not_le.mp part)]
          change ((stream.topOf (bottomAlign s.rx.bottom) offset : Nat) : Int) - s.rx.bottom < 0
            at negative
          omega
        · have left := le_of_not_short nonneg enough
          have window := stored.window
          change (s.rx.consumed : Int) + _ ≤ s.rx.record at window
          omega
      rw [length] at whole ⊢
      exact .give core started rfl whole stored.window here (by
        change 0 + rlenAt data s.rx.consumed ≤ _
        omega)

/-- An event of the ring during which the iterator remembers what it has. -/
theorem IterState.Inv.lower {event : RxEvent} {rx : RxState} (inv : s.Inv stream data)
    (moved : stream.step data event s.rx = some rx) (other : ∀ n, event ≠ .consume n)
    (idle : s.phase = .idle → ∃ top, rx.phase = .returned top) :
    ({ s with rx := rx } : IterState).Inv stream data := by
  have same := RxStream.consumed_of_step moved other
  have later := RxStream.record_le_of_step moved
  have behind := RxStream.bottom_le_of_step moved other
  exact
    { core := inv.core.lower (inv.core.rx.step moved) rfl same later
      fresh := fun first => ⟨same.trans (inv.fresh first).1, (inv.fresh first).2⟩
      stored := by
        intro started
        obtain ⟨stored, place⟩ := inv.stored started
        have window := stored.window
        refine ⟨⟨?_, ?_, stored.most, behind.trans stored.bottom_le, ?_⟩, ?_⟩
        · exact stored.same.trans (by rw [same])
        · exact stored.zero.trans (by rw [same])
        · change (rx.consumed : Int) + s.freeSpace ≤ rx.record
          omega
        · rcases place with inside | few
          · exact Or.inl inside
          · exact Or.inr (few.trans_eq (by rw [same]))
      idle := idle
      second := fun rlen phase => (inv.second rlen phase).trans (by rw [same]) }

theorem IterState.Inv.advance {event : RxEvent} (inv : s.Inv stream data)
    (moved : stream.advance data event s = some target) (other : ∀ n, event ≠ .consume n) :
    target.Inv stream data := by
  unfold IterStream.advance at moved
  split at moved
  · cases moved
  · rename_i busy
    obtain ⟨rx, step, rfl⟩ := Option.map_eq_some_iff.mp moved
    exact inv.lower step other fun idle => absurd idle busy

/-- Every event keeps the invariant, unless a second refresh ends behind the bottom pointer. -/
theorem IterState.Inv.step {event : IterEvent} (wellFormed : stream.WellFormed data)
    (inv : s.Inv stream data) (admitted : event = .finish → ¬ stream.Behind s)
    (moved : stream.iterate data event s = some target) : target.Inv stream data := by
  cases event with
  | card n =>
    obtain ⟨rx, step, rfl⟩ := Option.map_eq_some_iff.mp moved
    apply inv.lower step (by simp)
    cases RxStream.move_of_step step with
    | write _ => exact inv.idle
  | call =>
    simp only [IterStream.iterate] at moved
    split at moved
    · cases moved
      exact inv.call wellFormed (by assumption)
    · cases moved
  | enter | writeLimit | poll => exact inv.advance moved (by simp)
  | finish => exact inv.finish wellFormed (admitted rfl) moved

/-- A second refresh that ends behind the bottom pointer returns the record. -/
theorem not_good_of_behind (wellFormed : stream.WellFormed data) (inv : s.Inv stream data)
    (behind : stream.Behind s) (moved : stream.finish data s = some target) :
    ¬ target.Good stream data := by
  obtain ⟨offset, waiting, done⟩ := finish_cases moved
  rcases done with ⟨phase, -⟩ | ⟨rlen, phase, rfl⟩
  · rw [IterStream.Behind, phase] at behind
    exact behind.elim
  · have length : rlen = rlenAt data s.rx.consumed := inv.second rlen phase
    have fits := wellFormed.fits s.results.length
    rw [← inv.core.consumed, ← length] at fits
    have part : s.rx.record < s.rx.consumed + rlen := by
      rw [IterStream.Behind, phase, waiting] at behind
      exact behind.2
    have below := (top_lt_bottom_iff inv phase waiting fits part).mpr behind
    have small := rlenAt_lt data s.rx.consumed
    have inside := (inv.core.rx.seen_le waiting).1
    have least : bottomAlign s.rx.bottom ≤ stream.topOf (bottomAlign s.rx.bottom) offset :=
      RxStream.le_topOf ((RxStream.bottomAlign_le _).trans inside)
    -- the difference of the pointers is a small negative number
    have enough : ¬ IterStream.Short (stream.refreshed s offset).freeSpace rlen := by
      change ¬ (((stream.topOf (bottomAlign s.rx.bottom) offset : Nat) : Int) - s.rx.bottom) %
        2 ^ 32 < rlen
      have block : s.rx.bottom < bottomAlign s.rx.bottom + 128 := by
        unfold bottomAlign
        omega
      omega
    rw [if_neg enough]
    intro good
    have whole : s.rx.consumed + rlenAt data s.rx.consumed ≤ s.rx.record :=
      good.complete ⟨s.rx.bottom, s.rx.consumed⟩ (mem_append_right _ (mem_singleton.mpr rfl))
    omega

end Steps

/-! ## The result -/

/-- **The record iterator.** In every run in which no second refresh ends behind the bottom
pointer, the results are the records of the card one after another, and every one of them is
complete. A second refresh that does end there returns a record that is not complete. -/
theorem next_record_complete {stream : IterStream} {data : Nat → Byte}
    (wellFormed : stream.WellFormed data) (cells : Nat → Byte) (offset processed : Nat)
    (freeSpace : Int) (s : IterState)
    (reached : (stream.iterate data).ReachesBy (fun event s => event = .finish → ¬ stream.Behind s)
      (stream.startIter cells offset processed freeSpace) s) :
    s.Good stream data ∧
      ∀ target, stream.Behind s → stream.iterate data .finish s = some target →
        ¬ target.Good stream data := by
  have inv : s.Inv stream data :=
    reached.invariant (fun _ _ _ inv admitted moved => inv.step wellFormed admitted moved)
      (.start stream data cells offset processed freeSpace)
  exact ⟨inv.core.good, fun target behind moved => not_good_of_behind wellFormed inv behind moved⟩

/-- The ring of four blocks, attached. -/
def iterBlocks : IterStream := { fourBlocks with extra_le := by decide, size_lt := by decide }

/-- A record of 100 bytes, and then records of 64. -/
def mixedRecords : Nat → Byte := fun i =>
  if i = 11 then 100 else if 100 ≤ i ∧ (i - 100) % 64 = 11 then 64 else 0

theorem rlenAt_mixedRecords (k : Nat) : rlenAt mixedRecords (100 + 64 * k) = 64 := by
  have high : mixedRecords (100 + 64 * k + 10) = 0 := by
    rw [mixedRecords, if_neg (by omega), if_neg (by omega)]
  have low : mixedRecords (100 + 64 * k + 10 + 1) = 64 := by
    rw [mixedRecords, if_neg (by omega), if_pos (by omega)]
  rw [rlenAt, ntohs, high, low]
  rfl

theorem recordStart_mixedRecords (k : Nat) : recordStart mixedRecords (k + 1) = 100 + 64 * k := by
  induction k with
  | zero => rfl
  | succ k ih => rw [recordStart, ih, rlenAt_mixedRecords, Nat.mul_succ, Nat.add_assoc]

theorem wellFormed_mixedRecords : iterBlocks.WellFormed mixedRecords := by
  have lengths : ∀ k, rlenAt mixedRecords (recordStart mixedRecords k) = 100 ∨
      rlenAt mixedRecords (recordStart mixedRecords k) = 64 := by
    intro k
    cases k with
    | zero => exact Or.inl rfl
    | succ k =>
      rw [recordStart_mixedRecords]
      exact Or.inr (rlenAt_mixedRecords k)
  constructor
  · intro k
    rcases lengths k with same | same <;> rw [same] <;> decide
  · intro k
    rcases lengths k with same | same <;> rw [same] <;> decide

/-- A first call, up to the end of its wait. -/
def firstCall : List IterEvent := [.card 120, .call, .enter, .writeLimit]

/-- The first record is returned when it is complete. -/
theorem next_record_complete_first :
    ∃ s : IterState, (iterBlocks.iterate mixedRecords).ReachesBy
        (fun event s => event = .finish → ¬ iterBlocks.Behind s)
        (iterBlocks.startIter (fun _ => 1) 0 0 0) s ∧
      s.results = [⟨0, 0⟩] ∧ s.Good iterBlocks mixedRecords := by
  have ran : (((iterBlocks.iterate mixedRecords).run firstCall
      (iterBlocks.startIter (fun _ => 1) 0 0 0)).bind fun s =>
        (iterBlocks.iterate mixedRecords .finish s).map fun t => (s.phase, t.results)) =
      some (.first, [⟨0, 0⟩]) := by
    decide +kernel
  obtain ⟨s, ran, finished⟩ := Option.bind_eq_some_iff.mp ran
  obtain ⟨t, moved, shown⟩ := Option.map_eq_some_iff.mp finished
  have phase : s.phase = .first := congrArg Prod.fst shown
  have results : t.results = [⟨0, 0⟩] := congrArg Prod.snd shown
  have early : (iterBlocks.iterate mixedRecords).ReachesBy
      (fun event s => event = .finish → ¬ iterBlocks.Behind s) _ s :=
    Transition.reachesBy_of_run (by simp [firstCall]) ran
  have reached := early.tail (fun _ behind => by rw [IterStream.Behind, phase] at behind; exact behind)
    moved
  exact ⟨t, reached, results, (next_record_complete wellFormed_mixedRecords _ _ _ _ t reached).1⟩

/-- The second record is returned when 30 of its 64 bytes are there. -/
theorem unfinished_record_returned :
    ((iterBlocks.iterate mixedRecords).run
        (firstCall ++ [.finish, .call, .card 10, .enter, .writeLimit, .finish])
        (iterBlocks.startIter (fun _ => 1) 0 0 0)).map
      (fun s => (s.results, s.rx.record, rlenAt mixedRecords 100)) =
      some ([⟨0, 0⟩, ⟨100, 100⟩], 130, 64) := by
  decide +kernel

end Libpcap.Nac
