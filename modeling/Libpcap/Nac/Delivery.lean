/-
# Live capture

The calls of `qnf_read`, one after another, while the card writes. The handle keeps the
two pointers of its window between calls, and a call that has handed over its count of
packets returns in the middle of a window.

Every record that the card has completed is passed once and in order, however the calls
and the card take turns. What is handed over for it is another matter: the captured
length is that of the record with its header, the filter is shown as many bytes, and a
packet longer than the snapshot length is dropped rather than cut.
-/

import Libpcap.Nac.QnfRead

namespace Libpcap.Nac

open Libpcap.Semantics Libpcap.Semantics.Ring List

variable {packet : Handed} {data : Nat → Byte} {p : Qnf}

/-! ## Calls of `qnf_read` -/

/-- Where a call is: there is none; in the `do` loop, calling `nac_advance_stream` or behind
it; in the packet loop. -/
inductive QnfPhase
  | idle
  | advancing (cnt : BitVec 32)
  | advanced (cnt : BitVec 32)
  | packets (cnt : BitVec 32) (processed : BitVec 64)
  deriving DecidableEq, Repr

/-- A record that the packet loop has passed: the number of its first byte, and the bytes
that stood behind its header, as many as the record is long. -/
structure Passed where
  number : Nat
  found : List Byte
  deriving DecidableEq, Repr

/-- The handle with its ring, and a record of what the packet loop has done. -/
structure QnfState where
  rx : RxState
  phase : QnfPhase
  passed : List Passed
  handed : List Handed

/-- The events: of the card, of `nac_advance_stream`, and of `qnf_read`. -/
inductive QnfEvent
  | card (n : Nat)
  | call (cnt : BitVec 32)
  | enter
  | writeLimit
  | poll
  | finish
  | shutdown
  | check
  | turn
  deriving DecidableEq, Repr

section Step

variable (stream : RxStream) (p : Qnf) (data : Nat → Byte)

/-- An event inside `nac_advance_stream`. -/
def QnfState.advance (event : RxEvent) (next : BitVec 32 → QnfPhase) (s : QnfState) :
    Option QnfState :=
  match s.phase with
  | .advancing cnt =>
    (stream.step data event s.rx).map fun rx => { s with rx := rx, phase := next cnt }
  | _ => none

/-- An iteration of the packet loop. The data pointer `BOTTOM + 16` is given by the number of
the byte that it points to. -/
def QnfState.turn (s : QnfState) : Option QnfState :=
  match s.phase, s.rx.phase with
  | .packets cnt processed, .returned top =>
    if Complete (stream.view s.rx) top s.rx.bottom then
      let rlen := rlenAt (stream.view s.rx) s.rx.bottom
      let found := bytesAt (stream.view s.rx) (s.rx.bottom + nacRecordLen) rlen
      let packet := p.hand (s.rx.consumed + nacRecordLen) (wlenAt (stream.view s.rx) s.rx.bottom)
        rlen found
      let processed := processed + if packet.isSome then 1 else 0
      (stream.step data (.consume rlen) s.rx).map fun rx =>
        { rx := rx
          phase :=
            if processed = cnt.signExtend 64 then .idle else .packets cnt processed
          passed := s.passed ++ [⟨s.rx.consumed, found⟩]
          handed := s.handed ++ packet.toList }
    else some { s with phase := .idle }
  | _, _ => none

/-- One event. A call with the count zero returns at once. -/
def Qnf.step : Transition QnfEvent QnfState
  | .card n, s => (stream.step data (.write n) s.rx).map fun rx => { s with rx := rx }
  | .call cnt, s =>
    match s.phase with
    | .idle => some (if cnt = 0 then s else { s with phase := .advancing cnt })
    | _ => none
  | .enter, s => s.advance stream data .enter .advancing
  | .writeLimit, s => s.advance stream data .writeLimit .advancing
  | .poll, s => s.advance stream data .poll .advancing
  | .finish, s => s.advance stream data .finish .advanced
  | .shutdown, s =>
    match s.phase with
    | .advanced _ => some { s with phase := .idle }
    | _ => none
  | .check, s =>
    match s.phase, s.rx.phase with
    | .advanced cnt, .returned top =>
      some { s with
        phase :=
          if s.rx.bottom + nacRecordLen < top then .packets cnt 0 else .advancing cnt }
    | _, _ => none
  | .turn, s => s.turn stream p data

/-- A handle that has been opened. -/
def QnfState.start (cells : Nat → Byte) : QnfState := ⟨stream.start cells, .idle, [], []⟩

end Step

/-! ## What a record is worth -/

/-- What the packet loop makes of a record that it passes. -/
def Qnf.handPassed (p : Qnf) (data : Nat → Byte) (record : Passed) : Option Handed :=
  p.hand (record.number + nacRecordLen) (wlenAt data record.number) (rlenAt data record.number)
    record.found

/-- The packet that a record holds: its bytes are captured up to the end of the packet, of the
record and of the snapshot length, and shown to the filter. -/
def Qnf.packetOf (p : Qnf) (data : Nat → Byte) (number : Nat) : Option Handed :=
  let len := wlenAt data number
  let caplen := min len (min (rlenAt data number - nacRecordLen) p.snapshot.toNat)
  let contents := bytesAt data (number + nacRecordLen) caplen
  if p.passes len contents then some ⟨number + nacRecordLen, len, caplen, contents⟩ else none

/-! ## What every event keeps -/

/-- The invariant: the records that were passed are the first of the card, and what was handed
over is what the loop makes of them. -/
structure QnfState.Inv (stream : RxStream) (p : Qnf) (data : Nat → Byte) (s : QnfState) : Prop where
  rx : s.rx.Inv stream data
  consumed : s.rx.consumed = recordStart data s.passed.length
  numbers : s.passed.map Passed.number = (List.range s.passed.length).map (recordStart data)
  found : ∀ record ∈ s.passed,
    record.found.take (rlenAt data record.number - nacRecordLen) =
      bytesAt data (record.number + nacRecordLen) (rlenAt data record.number - nacRecordLen)
  handed : s.handed = s.passed.filterMap (p.handPassed data)

namespace QnfState.Inv

variable {stream : RxStream} {p : Qnf} {data : Nat → Byte} {s target : QnfState}

theorem start (stream : RxStream) (p : Qnf) (data cells : Nat → Byte) :
    (QnfState.start stream cells).Inv stream p data where
  rx := .start stream data cells
  consumed := rfl
  numbers := rfl
  found _ within := absurd within not_mem_nil
  handed := rfl

section

variable (inv : s.Inv stream p data)
include inv

/-- An event of the ring that passes nothing. -/
theorem lower {rx : RxState} {phase : QnfPhase}
    (kept : rx.Inv stream data) (same : rx.consumed = s.rx.consumed) :
    ({ s with rx := rx, phase := phase } : QnfState).Inv stream p data where
  rx := kept
  consumed := same.trans inv.consumed
  numbers := inv.numbers
  found := inv.found
  handed := inv.handed

/-- An event inside `nac_advance_stream`. -/
theorem advance {event : RxEvent} {next : BitVec 32 → QnfPhase}
    (moved : s.advance stream data event next = some target) (other : ∀ n, event ≠ .consume n) :
    target.Inv stream p data := by
  unfold QnfState.advance at moved
  split at moved
  · obtain ⟨rx, step, rfl⟩ := Option.map_eq_some_iff.mp moved
    exact inv.lower (inv.rx.step step) (RxStream.consumed_of_step step other)
  · cases moved

/-- The loop passes the next record of the card. -/
theorem pass {top : Nat} {rx : RxState} {phase : QnfPhase}
    (returned : s.rx.phase = .returned top)
    (complete : Complete (stream.view s.rx) top s.rx.bottom)
    (step : stream.step data (.consume (rlenAt (stream.view s.rx) s.rx.bottom)) s.rx = some rx) :
    ({ rx := rx
       phase := phase
       passed := s.passed ++ [⟨s.rx.consumed, bytesAt (stream.view s.rx)
         (s.rx.bottom + nacRecordLen) (rlenAt (stream.view s.rx) s.rx.bottom)⟩]
       handed := s.handed ++ (p.hand (s.rx.consumed + nacRecordLen)
         (wlenAt (stream.view s.rx) s.rx.bottom) (rlenAt (stream.view s.rx) s.rx.bottom)
         (bytesAt (stream.view s.rx) (s.rx.bottom + nacRecordLen)
           (rlenAt (stream.view s.rx) s.rx.bottom))).toList } : QnfState).Inv stream p data := by
  have header := inv.rx.written_of_le_top returned complete.1.le
  obtain ⟨rlen, wlen⟩ := inv.rx.header_view header
  have whole := inv.rx.written_of_le_top returned complete.2
  rw [rlen] at step whole
  have bytes : bytesAt (stream.view s.rx) (s.rx.bottom + nacRecordLen)
      (rlenAt data s.rx.consumed - nacRecordLen) = _ :=
    inv.rx.bytesAt_view (by omega)
  have kept := inv.rx.step step
  have place : s.rx.consumed = recordStart data s.passed.length := inv.consumed
  have behind : rx.consumed = s.rx.consumed + rlenAt data s.rx.consumed := by
    cases RxStream.move_of_step step with
    | consume _ _ => rfl
  rw [rlen, wlen]
  refine ⟨kept, ?_, ?_, ?_, ?_⟩
  · rw [length_append, length_singleton, recordStart, ← place]
    exact behind
  · simp only [map_append, map_cons, map_nil, length_append,
      length_singleton, range_succ, inv.numbers, place]
  · intro record within
    rcases mem_append.mp within with earlier | last
    · exact inv.found record earlier
    · rw [mem_singleton.mp last, take_bytesAt _ _ (Nat.sub_le _ _)]
      exact bytes
  · rw [inv.handed, filterMap_append]
    congr 1

theorem turn (moved : s.turn stream p data = some target) : target.Inv stream p data := by
  unfold QnfState.turn at moved
  split at moved
  · rename_i cnt processed top phase returned
    split at moved
    · rename_i complete
      obtain ⟨rx, step, rfl⟩ := Option.map_eq_some_iff.mp moved
      exact inv.pass returned complete step
    · cases moved
      exact inv.lower inv.rx rfl
  · cases moved

/-- Every event keeps the invariant. -/
theorem step {event : QnfEvent}
    (moved : p.step stream data event s = some target) : target.Inv stream p data := by
  cases event with
  | card n =>
    obtain ⟨rx, step, rfl⟩ := Option.map_eq_some_iff.mp moved
    exact inv.lower (inv.rx.step step) (RxStream.consumed_of_step step (by simp))
  | call cnt =>
    simp only [Qnf.step] at moved
    split at moved
    · cases moved
      split
      · exact inv
      · exact inv.lower inv.rx rfl
    · cases moved
  | enter | writeLimit | poll | finish => exact inv.advance moved (by simp)
  | shutdown | check =>
    simp only [Qnf.step] at moved
    split at moved
    · cases moved
      exact inv.lower inv.rx rfl
    · cases moved
  | turn => exact inv.turn moved

end

theorem of_reaches {cells : Nat → Byte}
    (reached : (p.step stream data).Reaches (.start stream cells) s) : s.Inv stream p data :=
  reached.invariant (fun _ _ _ inv moved => inv.step moved) (start stream p data cells)

end QnfState.Inv

/-! ## The result -/

theorem handPassed_eq_some {record : Passed} (handed : p.handPassed data record = some packet) :
    packet.data = record.number + nacRecordLen ∧ packet.caplen = rlenAt data record.number := by
  unfold Qnf.handPassed Qnf.hand at handed
  split at handed
  · cases handed
  split at handed
  · cases handed
    exact ⟨rfl, rfl⟩
  · cases handed

theorem packetOf_eq_some {number : Nat} (held : p.packetOf data number = some packet) :
    packet.data = number + nacRecordLen ∧
      packet.caplen ≤ rlenAt data number - nacRecordLen := by
  unfold Qnf.packetOf at held
  dsimp only at held
  split at held
  · cases held
    exact ⟨rfl, (min_le_right _ _).trans (min_le_left _ _)⟩
  · cases held

/-- No packet that the loop hands over is one that a record holds: its captured length counts
the header of the record. -/
theorem handPassed_ne_packetOf {record : Passed} {number : Nat}
    (long : nacRecordLen ≤ rlenAt data record.number)
    (handed : p.handPassed data record = some packet) :
    p.packetOf data number ≠ some packet := by
  intro held
  obtain ⟨address, caplen⟩ := handPassed_eq_some handed
  obtain ⟨address', caplen'⟩ := packetOf_eq_some held
  have same : number = record.number := Nat.add_right_cancel (address'.symm.trans address)
  rw [same] at caplen'
  simp only [nacRecordLen] at long caplen'
  omega

theorem Qnf.handPassed_eq_none_iff {p : Qnf} {data : Nat → Byte} {record : Passed} :
    p.handPassed data record = none ↔ p.snapshot.toNat < wlenAt data record.number ∨
      p.passes (wlenAt data record.number) record.found = false := by
  simp [Qnf.handPassed, Qnf.hand, Classical.or_iff_not_imp_left]

theorem Qnf.packetOf_eq_none_iff {p : Qnf} {data : Nat → Byte} {number : Nat} :
    p.packetOf data number = none ↔ p.passes (wlenAt data number)
      (bytesAt data (number + nacRecordLen) (min (wlenAt data number)
        (min (rlenAt data number - nacRecordLen) p.snapshot.toNat))) = false := by
  simp [Qnf.packetOf]

/-- **Live capture.** However the calls of `qnf_read` and the card take turns, the packet loop
passes the records of the card one after another, each once it is complete, and hands over what
`handPassed` makes of them. These are the packets that the records hold exactly if there is
nothing to hand over: each record that was passed says it is longer than the snapshot length or
is rejected by the filter as the loop shows it, and the filter rejects the packet it holds. -/
theorem capture_faithful_iff {stream : RxStream} {p : Qnf} {data cells : Nat → Byte} {s : QnfState}
    (long : ∀ k, nacRecordLen ≤ rlenAt data (recordStart data k))
    (reached : (p.step stream data).Reaches (.start stream cells) s) :
    s.passed.map Passed.number = (List.range s.passed.length).map (recordStart data) ∧
      recordStart data s.passed.length ≤ s.rx.record ∧
      (∀ record ∈ s.passed,
        record.found.take (rlenAt data record.number - nacRecordLen) =
          bytesAt data (record.number + nacRecordLen) (rlenAt data record.number - nacRecordLen)) ∧
      s.handed = s.passed.filterMap (p.handPassed data) ∧
      (s.handed = (s.passed.map Passed.number).filterMap (p.packetOf data) ↔
        ∀ record ∈ s.passed, let len := wlenAt data record.number
          (p.snapshot.toNat < len ∨ p.passes len record.found = false) ∧
          p.passes len (bytesAt data (record.number + nacRecordLen)
            (min len (min (rlenAt data record.number - nacRecordLen) p.snapshot.toNat))) = false) := by
  simp only [← Qnf.handPassed_eq_none_iff, ← Qnf.packetOf_eq_none_iff]
  have inv := QnfState.Inv.of_reaches reached
  refine ⟨inv.numbers, inv.consumed ▸ inv.rx.consumed_le, inv.found, inv.handed, ?_⟩
  have wellFormed : ∀ record ∈ s.passed, nacRecordLen ≤ rlenAt data record.number := by
    intro record within
    have number := mem_map_of_mem (f := Passed.number) within
    rw [inv.numbers] at number
    obtain ⟨k, -, start⟩ := mem_map.mp number
    rw [← start]
    exact long k
  constructor
  · intro equal
    have nothing : s.handed = [] := by
      rw [eq_nil_iff_forall_not_mem]
      intro packet within
      have held := within
      rw [inv.handed] at within
      rw [equal] at held
      obtain ⟨record, passed, handed⟩ := mem_filterMap.mp within
      obtain ⟨number, -, holds⟩ := mem_filterMap.mp held
      exact handPassed_ne_packetOf (wellFormed record passed) handed holds
    rw [nothing] at equal
    have unhanded := filterMap_eq_nil_iff.mp (inv.handed.symm.trans nothing)
    have unheld := filterMap_eq_nil_iff.mp equal.symm
    intro record within
    exact ⟨unhanded record within, unheld _ (mem_map_of_mem within)⟩
  · intro nothing
    rw [inv.handed, filterMap_map]
    apply filterMap_congr
    intro record within
    rw [(nothing record within).1]
    exact (nothing record within).2.symm

/-- Records of 20 bytes, each with a packet of 4. -/
def shortRecords : Nat → Byte := fun i => if i % 20 = 11 then 20 else if i % 20 = 15 then 4 else 0

theorem rlenAt_shortRecords (k : Nat) : rlenAt shortRecords (20 * k) = 20 := by
  have high : (20 * k + 10) % 20 = 10 := by omega
  have low : (20 * k + 10 + 1) % 20 = 11 := by omega
  simp [rlenAt, ntohs, shortRecords, high, low]

theorem recordStart_shortRecords (k : Nat) : recordStart shortRecords k = 20 * k := by
  induction k with
  | zero => rfl
  | succ k ih => rw [recordStart, ih, rlenAt_shortRecords, Nat.mul_succ]

theorem long_shortRecords (k : Nat) : nacRecordLen ≤ rlenAt shortRecords (recordStart shortRecords k) := by
  rw [recordStart_shortRecords, rlenAt_shortRecords]
  decide

/-- The card writes two records, and a call with the count 1 passes the first. -/
def oneCall : List QnfEvent :=
  [.card 40, .call 1, .enter, .writeLimit, .finish, .check, .turn]

/-- With a filter that nothing passes, nothing is handed over, and rightly so. -/
theorem capture_faithful_passNone :
    ∃ s, (passNone.step fourBlocks shortRecords).run oneCall (.start fourBlocks fun _ => 1) = some s ∧
      s.passed.map Passed.number = [0] ∧
      s.handed = (s.passed.map Passed.number).filterMap (passNone.packetOf shortRecords) := by
  have ran : ((passNone.step fourBlocks shortRecords).run oneCall
      (.start fourBlocks fun _ => 1)).map (fun s => s.passed.map Passed.number) = some [0] := by
    decide +kernel
  obtain ⟨s, ran, numbers⟩ := Option.map_eq_some_iff.mp ran
  have faithful := capture_faithful_iff long_shortRecords (Transition.reaches_of_run ran)
  refine ⟨s, ran, numbers, faithful.2.2.2.2.mpr ?_⟩
  exact fun record _ => ⟨.inr rfl, rfl⟩

/-- With a filter that everything passes, the packet of 4 bytes is handed over with a captured
length of 20. -/
theorem captured_length_counts_header :
    ((Qnf.step fourBlocks ⟨96, fun _ _ => true⟩ shortRecords).run oneCall
        (.start fourBlocks fun _ => 1)).map
      (fun s => (s.handed.map Handed.caplen,
        ((s.passed.map Passed.number).filterMap
          ((⟨96, fun _ _ => true⟩ : Qnf).packetOf shortRecords)).map Handed.caplen)) =
      some ([20], [4]) := by
  decide +kernel

end Libpcap.Nac
