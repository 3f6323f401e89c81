/-
# Waiting for an idle card

A call that finds too little room reads the pointers until there is enough. If the card has
sent everything, the pointers no longer change, and one look decides whether the call ever
returns.

Not every request fits into an empty ring: copying leaves 128 bytes free, and getting space
leaves 2048. There is a second reason to wait forever. After a commit that ends at the end
of the ring, the limit pointer is the size of the ring while the record pointer of the card
is 0, and an empty ring then looks full to both calls.
-/

import Libpcap.Nac.TransmitPaths

namespace Libpcap.Nac

open Libpcap.Semantics Libpcap.Semantics.Ring

/-! ## The waiting loop -/

/-- The call that waits returns from its loop, if the card does nothing. -/
def TxStream.WaitEnds (stream : TxStream) (s : TxState) : Prop :=
  ∃ k t, stream.step.run (List.replicate k .poll) s = some t ∧ (stream.step .proceed t).isSome

section Loop

variable {stream : TxStream} {s : TxState} {need value : Int}

section

variable
  (polls : ∀ free, stream.step .poll { s with freeSpace := free } = if free < need then some { s with freeSpace := value } else none)

include polls

/-- A loop that computes too small a number again and again does not end. -/
theorem waits_of_lt
    (little : value < need) {free : Int} (less : free < need) {k : Nat} {t : TxState}
    (ran : stream.step.run (List.replicate k .poll) { s with freeSpace := free } = some t) :
    ∃ free', free' < need ∧ t = { s with freeSpace := free' } := by
  induction k generalizing free with
  | zero =>
    cases ran
    exact ⟨free, less, rfl⟩
  | succ k ih =>
    rw [List.replicate_succ, Transition.run, polls, if_pos less] at ran
    exact ih little ran

theorem waitEnds_iff
    (proceeds : ∀ free, (stream.step .proceed { s with freeSpace := free }).isSome ↔
      need ≤ free) :
    stream.WaitEnds s ↔ need ≤ s.freeSpace ∨ need ≤ value := by
  constructor
  · rintro ⟨k, t, ran, ends⟩
    by_contra small
    rw [not_or, not_le, not_le] at small
    obtain ⟨free, less, rfl⟩ := waits_of_lt polls small.2 small.1 ran
    exact absurd ((proceeds free).mp ends) (not_le.mpr less)
  · intro enough
    by_cases less : s.freeSpace < need
    · have atOnce : stream.step.run (List.replicate 1 .poll) s =
          some { s with freeSpace := value } := by
        have polled := polls s.freeSpace
        rw [if_pos less] at polled
        change stream.step .poll s = _ at polled
        simp only [List.replicate, Transition.run, polled]
      exact ⟨1, _, atOnce, (proceeds value).mpr (enough.resolve_left (not_le.mpr less))⟩
    · exact ⟨0, s, rfl, (proceeds s.freeSpace).mpr (not_lt.mp less)⟩

end

theorem copyWait_ends_iff {orig : List Byte} (phase : s.phase = .copyWaiting orig) :
    stream.WaitEnds s ↔ int32 orig.length ≤ s.freeSpace ∨
      int32 orig.length ≤ copyFree stream.size s.record s.limit := by
  refine waitEnds_iff (fun free => ?_) (fun free => ?_)
  · simp only [TxStream.step, phase]
  · simp only [TxStream.step, phase]
    split <;> simp <;> omega

theorem spaceWait_ends_iff {n : Nat} (phase : s.phase = .spaceWaiting n) :
    stream.WaitEnds s ↔ spaceNeed n ≤ s.freeSpace ∨
      spaceNeed n ≤ spaceFree stream.size s.record s.limit := by
  refine waitEnds_iff (fun free => ?_) (fun free => ?_)
  · simp only [TxStream.step, phase]
  · simp only [TxStream.step, phase]
    split <;> simp <;> omega

end Loop

/-! ## Whatever the calls have been -/

/-- The size of the buffer that is being copied. -/
def TxPhase.copySize : TxPhase → Nat
  | .copyWaiting orig | .copying orig _ => orig.length
  | _ => 0

/-- The pointers stay in the ring, also for a host that mixes the calls. -/
structure TxState.Within (stream : TxStream) (s : TxState) : Prop where
  record : s.record < stream.size
  limit : s.limit ≤ stream.size
  offset : s.offset ≤ stream.size
  copySize : s.phase.copySize ≤ stream.size

namespace TxState.Within

variable {stream : TxStream} {s target : TxState}

theorem start (stream : TxStream) (cells : Nat → Byte) : (TxStream.start cells).Within stream :=
  ⟨stream.size_pos, Nat.zero_le _, Nat.zero_le _, Nat.zero_le _⟩

theorem publish (within : s.Within stream) {offset : Nat} {bytes : List Byte}
    (le : offset ≤ stream.size) : (TxStream.publish offset bytes s).Within stream :=
  ⟨within.record, le, le, Nat.zero_le _⟩

theorem step (within : s.Within stream) {event : TxEvent}
    (moved : stream.step event s = some target) : target.Within stream := by
  have offset := within.offset
  cases TxStream.move_of_step moved with
  | rejected => exact within
  | send => exact { within with record := Nat.mod_lt _ stream.size_pos }
  | copyWaits _ fits => exact { within with copySize := fits }
  | spaceWaits => exact { within with copySize := Nat.zero_le _ }
  | copyPolls | spacePolls | write => exact { within with }
  | copyProceeds phase | copyByte phase =>
    have copySize := within.copySize
    rw [phase] at copySize
    exact { within with copySize := copySize }
  | spaceProceeds => exact { within with copySize := Nat.zero_le _ }
  | @publish orig phase =>
    have copySize := within.copySize
    rw [phase] at copySize
    change orig.length ≤ stream.size at copySize
    refine within.publish ?_
    unfold TxStream.wrapCopied
    split <;> omega
  | commit _ fits => exact within.publish (TxStream.wrapCommitted_le (by omega))

theorem of_reaches {cells : Nat → Byte} (path : stream.step.Reaches (TxStream.start cells) s) :
    s.Within stream :=
  path.invariant (fun _ _ _ within moved => within.step moved) (.start stream cells)

/-- Pointers that are equal around the ring. -/
theorem idle_cases (within : s.Within stream)
    (idle : s.record % stream.size = s.limit % stream.size) :
    s.limit < stream.size ∧ s.record = s.limit ∨ s.limit = stream.size ∧ s.record = 0 := by
  rw [Nat.mod_eq_of_lt within.record] at idle
  rcases within.limit.lt_or_eq with less | atEnd
  · rw [Nat.mod_eq_of_lt less] at idle
    exact .inl ⟨less, idle⟩
  · rw [atEnd, Nat.mod_self] at idle
    exact .inr ⟨atEnd, idle⟩

end TxState.Within

section Idle

variable {stream : MappedStream} {s : TxState}

/-- What an empty ring looks like to a host that copies. -/
theorem copyFree_idle (within : s.Within stream.toTxStream)
    (idle : s.record % stream.size = s.limit % stream.size) :
    copyFree stream.size s.record s.limit =
      if s.limit < stream.size then (stream.size : Int) - 128 else -128 := by
  have size_pos := stream.size_pos
  have size_lt := stream.size_lt
  have pages := stream.pages
  have limit := within.limit
  have cases := within.idle_cases idle
  have first : int32 ((s.record : Int) - (s.limit + safetyWindow)) = s.record - (s.limit + 128) :=
    int32_eq (by simp only [safetyWindow]; omega) (by simp only [safetyWindow]; omega)
  simp only [copyFree, first]
  rw [if_pos (by omega), int32_eq (by omega) (by omega)]
  split <;> omega

/-- What an empty ring looks like to a host that gets space. -/
theorem spaceFree_idle (within : s.Within stream.toTxStream)
    (idle : s.record % stream.size = s.limit % stream.size) :
    spaceFree stream.size s.record s.limit =
      if s.limit < stream.size then (stream.size : Int) else 0 := by
  have size_lt := stream.size_lt
  have limit := within.limit
  have cases := within.idle_cases idle
  have first : int32 ((s.record : Int) - s.limit) = s.record - s.limit :=
    int32_eq (by omega) (by omega)
  simp only [spaceFree, first]
  rw [if_pos (by omega), int32_eq (by omega) (by omega)]
  split <;> omega

end Idle

/-- After any calls, and if the card has sent everything, a call returns from its loop if
and only if the remembered free space is enough, or the empty ring is, as the call sees it. -/
theorem idle_wait_ends_iff (stream : MappedStream) (cells : Nat → Byte) (s : TxState)
    (path : stream.step.Reaches (TxStream.start cells) s)
    (idle : s.record % stream.size = s.limit % stream.size) :
    (∀ orig, s.phase = .copyWaiting orig →
      (stream.WaitEnds s ↔ (orig.length : Int) ≤ s.freeSpace ∨
        s.limit < stream.size ∧ orig.length + safetyWindow ≤ stream.size)) ∧
    ∀ n, s.phase = .spaceWaiting n →
      (stream.WaitEnds s ↔ spaceNeed n ≤ s.freeSpace ∨
        spaceNeed n ≤ if s.limit < stream.size then (stream.size : Int) else 0) := by
  have within := TxState.Within.of_reaches path
  constructor
  · intro orig phase
    have fits := within.copySize
    rw [phase] at fits
    change orig.length ≤ stream.size at fits
    have size_lt := stream.size_lt
    have same : int32 orig.length = orig.length := int32_eq (by omega) (by omega)
    have width : safetyWindow = 128 := rfl
    rw [copyWait_ends_iff phase, copyFree_idle within idle, same, width]
    refine or_congr_right ?_
    split <;> omega
  · intro n phase
    rw [spaceWait_ends_iff phase, spaceFree_idle within idle]

/-- A byte fits into a fresh ring. -/
theorem idle_wait_ends_first :
    ∃ s : TxState, twoPages.step.Reaches (TxStream.start fun _ => 0) s ∧
      s.phase = .copyWaiting [1] ∧ twoPages.WaitEnds s := by
  have ran : twoPages.step.run [.copyBytes [1]] (TxStream.start fun _ => 0) =
      some { TxStream.start (fun _ => 0) with phase := .copyWaiting [1] } := rfl
  have reached := Transition.reaches_of_run ran
  exact ⟨_, reached, rfl,
    ((idle_wait_ends_iff twoPages _ _ reached rfl).1 [1] rfl).mpr (.inr (by decide))⟩

/-- Two commits of a page each fill the ring to its end, and the card sends everything. -/
def toTheEnd : List TxEvent :=
  [.getSpace 4096, .poll, .proceed, .commitBytes 4096, .send 4096,
    .getSpace 4096, .poll, .proceed, .commitBytes 4096, .send 4096, .getSpace 2100]

/-- A request for 2100 of 8192 free bytes then waits forever. -/
theorem empty_ring_waits_forever :
    ∃ s : TxState, twoPages.step.Reaches (TxStream.start fun _ => 0) s ∧
      s.phase = .spaceWaiting 2100 ∧ s.record % twoPages.size = s.limit % twoPages.size ∧
      ¬ twoPages.WaitEnds s := by
  have ran : (twoPages.step.run toTheEnd (TxStream.start fun _ => 0)).map
      (fun s => (s.phase, s.record, s.limit, s.freeSpace)) =
      some (.spaceWaiting 2100, 0, 8192, 4096) := by
    decide +kernel
  obtain ⟨s, ran, shown⟩ := Option.map_eq_some_iff.mp ran
  obtain ⟨phase, record, limit, free⟩ : s.phase = .spaceWaiting 2100 ∧ s.record = 0 ∧
      s.limit = 8192 ∧ s.freeSpace = 4096 := by
    simpa using shown
  refine ⟨s, Transition.reaches_of_run ran, phase, by rw [record, limit]; rfl, ?_⟩
  rw [spaceWait_ends_iff phase, record, limit, free]
  decide +kernel

end Libpcap.Nac
