/-
# Reading from the memory-mapped USB monitor

`usb_read_linux_mmap` asks the kernel for the offsets of some events, hands those that
pass the filter to the callback, and lets the kernel drop them with its next request or
at the end of the call. The monitor is a queue: a request first drops the events of the
one before, then waits for events or says that there are none.

Two exits disagree with the rest of the call. When the kernel has no more events the
call returns zero, whatever it has delivered before. And the captured length is cut to
the snapshot length with the shorter of the two headers, but counts the longer one.
-/

import Mathlib.Algebra.Group.Int.Defs
import Mathlib.Algebra.Group.Nat.Defs
import Mathlib.Data.List.Basic

namespace Libpcap.Linux.Usb

open List

/-! ## The call -/

/-- An event in the buffer that is shared with the kernel. -/
structure Event (π : Type) where
  eventType : BitVec 8
  dataLen : BitVec 32
  body : π

/-- What the call reads from the handle: the snapshot length and the filter, which sees
the event, `len` and `caplen`. -/
structure Handle (π : Type) where
  snapshot : BitVec 32
  fcode : Option (Event π → BitVec 32 → BitVec 32 → Bool)

/-- The kernel at a request: the events that arrive before the answer, one less than the
number it is ready to give, and whether `break_loop` is set when it answers. -/
structure Answer (π : Type) where
  arrived : List (Event π)
  most : Nat
  breakLoop : Bool

/-- The request after which the call ends. -/
inductive Last
  | fetched
  | wouldBlock
  | broken
deriving DecidableEq

/-- The end of a call: its value, the events it has gone through, the captured lengths
handed to the callback, and the kernel's queue and answers that are left. -/
structure Outcome (π : Type) where
  last : Last
  returned : Int
  processed : List (Event π)
  callbacks : List (Event π × BitVec 32)
  queue : List (Event π)
  later : List (Answer π)

section Call

variable {π : Type} (handle : Handle π)

/-- `sizeof(pcap_usb_header)` is 48 and `sizeof(pcap_usb_header_mmapped)` is 64. The
length in the event is unsigned, and so is the comparison with it. -/
def Handle.caplen (event : Event π) : BitVec 32 :=
  let maxClen := handle.snapshot - 48
  (if event.dataLen < maxClen then event.dataLen else maxClen) + 64

/-- The event passes the filter, if there is one, and is not a filler. -/
def Handle.passes (event : Event π) : Bool :=
  event.eventType != 0x40 &&
    match handle.fcode with
    | none => true
    | some filter => filter event (event.dataLen + 64) (handle.caplen event)

/-- The callbacks for a batch of events. -/
def Handle.deliver (batch : List (Event π)) : List (Event π × BitVec 32) :=
  (batch.filter handle.passes).map fun event => (event, handle.caplen event)

def vecSize : Nat := 32

/-- How many events are asked for. -/
def limit (maxPackets packets : Int) : Nat :=
  if maxPackets - packets ≤ 0 then vecSize else min (maxPackets - packets).toNat vecSize

/-- The loop of `usb_read_linux_mmap`, on the kernel's answers. Without an answer it is
still waiting. -/
def readLoop (maxPackets : Int) :
    List (Answer π) → List (Event π) → Nat → Nat → Option (Outcome π)
  | [], _, _, _ => none
  | answer :: later, queue, nflush, packets =>
    let queue := queue.drop nflush ++ answer.arrived
    if answer.breakLoop then some ⟨.broken, -2, [], [], queue, later⟩
    else if queue.isEmpty then some ⟨.wouldBlock, 0, [], [], queue, later⟩
    else
      let batch := queue.take (min (limit maxPackets packets) (answer.most + 1))
      let callbacks := handle.deliver batch
      let packets := packets + callbacks.length
      if maxPackets ≤ 0 ∨ packets = maxPackets then
        some ⟨.fetched, packets, batch, callbacks, queue.drop batch.length, later⟩
      else
        (readLoop maxPackets later queue batch.length packets).map fun outcome =>
          { outcome with
            processed := batch ++ outcome.processed
            callbacks := callbacks ++ outcome.callbacks }

def usbReadLinuxMmap (maxPackets : Int) (answers : List (Answer π)) (queue : List (Event π)) :
    Option (Outcome π) :=
  readLoop handle maxPackets answers queue 0 0

/-- Calls with the given counts, one after the other, and what they leave to the kernel. -/
def session : List Int → List (Answer π) → List (Event π) →
    Option (List (Int × Outcome π) × List (Answer π) × List (Event π))
  | [], answers, queue => some ([], answers, queue)
  | maxPackets :: counts, answers, queue => do
    let outcome ← usbReadLinuxMmap handle maxPackets answers queue
    let (calls, rest) ← session counts outcome.later outcome.queue
    return ((maxPackets, outcome) :: calls, rest)

end Call

/-! ## What a call has gone through -/

section Accounting

variable {π : Type} {handle : Handle π} {maxPackets : Int} {outcome : Outcome π}

theorem Handle.deliver_append (handle : Handle π) (first second : List (Event π)) :
    handle.deliver (first ++ second) = handle.deliver first ++ handle.deliver second := by
  rw [deliver, filter_append, map_append, ← deliver, ← deliver]

theorem Handle.length_deliver_le (handle : Handle π) (batch : List (Event π)) :
    (handle.deliver batch).length ≤ batch.length := by
  rw [deliver, length_map]
  exact length_filter_le _ _

/-- The rest of a call that has delivered some packets: the callbacks are those of the
events it goes through, which are the next in the queue, and the value is the number of
packets unless the kernel would block or the loop is broken. -/
structure Walked (handle : Handle π) (maxPackets : Int) (answers : List (Answer π))
    (queue : List (Event π)) (packets : Nat) (outcome : Outcome π) : Prop where
  callbacks : outcome.callbacks = handle.deliver outcome.processed
  order : ∃ used, answers = used ++ outcome.later ∧
    queue ++ used.flatMap Answer.arrived = outcome.processed ++ outcome.queue
  most : 0 < maxPackets → packets + outcome.callbacks.length ≤ maxPackets
  returned : outcome.returned = match outcome.last with
    | .fetched => (packets + outcome.callbacks.length : Int)
    | .wouldBlock => 0
    | .broken => -2

theorem walked_readLoop (answers : List (Answer π)) {queue : List (Event π)} {nflush packets : Nat}
    (fewer : 0 < maxPackets → packets < maxPackets)
    (ran : readLoop handle maxPackets answers queue nflush packets = some outcome) :
    Walked handle maxPackets answers (queue.drop nflush) packets outcome := by
  induction answers generalizing queue nflush packets outcome with
  | nil => cases ran
  | cons answer later ih =>
    have arrived : ∀ more : List (Answer π), queue.drop nflush ++
        (answer :: more).flatMap Answer.arrived =
          queue.drop nflush ++ answer.arrived ++ more.flatMap Answer.arrived := by
      intro more
      rw [flatMap_cons, append_assoc]
    rw [readLoop] at ran
    generalize queue.drop nflush ++ answer.arrived = left at ran arrived
    have ended : ∀ batch behind, left = batch ++ behind → ∃ used, answer :: later = used ++ later ∧
        queue.drop nflush ++ used.flatMap Answer.arrived = batch ++ behind := fun batch behind split =>
      ⟨[answer], rfl, by rw [arrived, flatMap_nil, append_nil, split]⟩
    dsimp only at ran
    split at ran
    · cases ran
      exact ⟨rfl, ended [] left rfl, fun limited => Int.le_of_lt (fewer limited), rfl⟩
    split at ran
    · cases ran
      exact ⟨rfl, ended [] left rfl, fun limited => Int.le_of_lt (fewer limited), rfl⟩
    have short : 0 < maxPackets → packets +
        (left.take (min (limit maxPackets packets) (answer.most + 1))).length ≤ maxPackets := by
      intro limited
      have more := fewer limited
      rw [length_take, limit, if_neg (by omega)]
      omega
    have split := prefix_iff_eq_append.mp
      ( take_prefix (min (limit maxPackets packets) (answer.most + 1)) left)
    generalize left.take (min (limit maxPackets packets) (answer.most + 1)) = batch at ran short split
    have room : 0 < maxPackets → packets + (handle.deliver batch).length ≤ maxPackets := by
      intro limited
      have fits := short limited
      have passed := handle.length_deliver_le batch
      omega
    split at ran
    · cases ran
      exact ⟨rfl, ended batch _ split.symm, room, Int.natCast_add _ _⟩
    · rename_i goesOn
      obtain ⟨rest, ranRest, rfl⟩ := Option.map_eq_some_iff.mp ran
      have walked := ih (by omega) ranRest
      obtain ⟨used, rfl, order⟩ := walked.order
      refine ⟨?_, ⟨answer :: used, rfl, ?_⟩, fun limited => ?_, ?_⟩
      · rw [handle.deliver_append, ← walked.callbacks]
      · rw [arrived, ← split, append_assoc, append_assoc, order]
      · have most := walked.most limited
        rw [length_append]
        omega
      · rw [length_append, walked.returned, Int.natCast_add, Int.natCast_add, Int.add_assoc]

/-- A whole call. -/
theorem walked_usbReadLinuxMmap {answers : List (Answer π)} {queue : List (Event π)}
    (ran : usbReadLinuxMmap handle maxPackets answers queue = some outcome) :
    Walked handle maxPackets answers queue 0 outcome :=
  walked_readLoop answers id ran

/-! ## The two exits -/

/-- The call has counted its callbacks, at most as many as were asked for and none with more
bytes than the snapshot length. -/
def Accounts (handle : Handle π) (maxPackets : Int) (outcome : Outcome π) : Prop :=
  0 ≤ outcome.returned → outcome.returned = outcome.callbacks.length ∧
    (0 < maxPackets → outcome.callbacks.length ≤ maxPackets) ∧
    ∀ callback ∈ outcome.callbacks, (callback.2.toNat : Int) ≤ handle.snapshot.toInt

/-- The event fits into the snapshot length together with the longer header. The second
case is that of a length close to `2 ^ 32` and a snapshot length below 48. -/
def Fits (handle : Handle π) (event : Event π) : Prop :=
  (event.dataLen.toNat + 64 : Int) ≤ handle.snapshot.toInt ∨
    handle.snapshot.toInt < 48 ∧ 2 ^ 32 ≤ event.dataLen.toNat + 64 ∧
      (event.dataLen.toNat + 64 : Int) ≤ 2 ^ 32 + handle.snapshot.toInt

theorem caplen_le_iff (event : Event π) :
    ((handle.caplen event).toNat : Int) ≤ handle.snapshot.toInt ↔ Fits handle event := by
  have short := handle.snapshot.isLt
  have long := event.dataLen.isLt
  have signed := BitVec.toInt_eq_toNat_cond handle.snapshot
  have difference : (handle.snapshot - 48).toNat = (2 ^ 32 - 48 + handle.snapshot.toNat) % 2 ^ 32 :=
    BitVec.toNat_sub _ _
  have header : (64 : BitVec 32).toNat = 64 := rfl
  rw [Handle.caplen, Fits, BitVec.toNat_add, header]
  simp only [BitVec.lt_def]
  split at signed <;> split <;> omega

/-- The kernel does not run out of events after a packet has been delivered, and the
packets fit. Nothing is asked of a call that is broken. -/
def Regular (handle : Handle π) (outcome : Outcome π) : Prop :=
  outcome.last = .broken ∨
    (outcome.last = .wouldBlock → ∀ event ∈ outcome.processed, handle.passes event = false) ∧
      ∀ event ∈ outcome.processed, handle.passes event = true → Fits handle event

theorem accounts_iff {answers : List (Answer π)} {queue : List (Event π)}
    (walked : Walked handle maxPackets answers queue 0 outcome) :
    Accounts handle maxPackets outcome ↔ Regular handle outcome := by
  have fits : (∀ callback ∈ outcome.callbacks, (callback.2.toNat : Int) ≤ handle.snapshot.toInt) ↔
      ∀ event ∈ outcome.processed, handle.passes event = true → Fits handle event := by
    simp only [walked.callbacks, Handle.deliver, forall_mem_map, mem_filter, and_imp, caplen_le_iff]
  have silent : outcome.callbacks.length = 0 ↔
      ∀ event ∈ outcome.processed, handle.passes event = false := by
    simp only [walked.callbacks, Handle.deliver, length_map, length_eq_zero_iff,
      filter_eq_nil_iff, Bool.not_eq_true]
  have most : 0 < maxPackets → outcome.callbacks.length ≤ maxPackets := fun limited => by
    have := walked.most limited
    omega
  have returned := walked.returned
  rw [Accounts, Regular, fits, ← silent]
  cases last : outcome.last with
  | broken =>
    rw [last] at returned
    simp [returned]
  | wouldBlock =>
    rw [last] at returned
    simp only [returned, reduceCtorEq, false_or, true_imp_iff]
    constructor
    · intro accounts
      obtain ⟨none, -, fits⟩ := accounts (Int.le_refl 0)
      exact ⟨by omega, fits⟩
    · rintro ⟨none, fits⟩ -
      exact ⟨by omega, most, fits⟩
  | fetched =>
    rw [last] at returned
    simp only [returned, reduceCtorEq, false_or, false_imp_iff, true_and]
    constructor
    · intro accounts
      exact (accounts (by omega)).2.2
    · rintro fits -
      exact ⟨by omega, most, fits⟩

/-- **Every session.** Each call accounts for its packets exactly if it is regular. In any
case the events that have left the kernel's queue have been gone through once and in order,
and each was delivered or rejected. -/
theorem session_accounts (handle : Handle π) (counts : List Int) (answers later : List (Answer π))
    (queue left : List (Event π)) (calls : List (Int × Outcome π))
    (ran : session handle counts answers queue = some (calls, later, left)) :
    (∀ call ∈ calls, (Accounts handle call.1 call.2 ↔ Regular handle call.2) ∧
      call.2.callbacks = handle.deliver call.2.processed) ∧
    ∃ used, answers = used ++ later ∧ queue ++ used.flatMap Answer.arrived =
      calls.flatMap (·.2.processed) ++ left := by
  induction counts generalizing answers queue calls with
  | nil =>
    cases ran
    exact ⟨nofun, [], rfl, append_nil _⟩
  | cons maxPackets counts ih =>
    obtain ⟨outcome, ranCall, rest⟩ := Option.bind_eq_some_iff.mp ran
    obtain ⟨⟨calls, _⟩, ranRest, same⟩ := Option.bind_eq_some_iff.mp rest
    cases same
    have walked := walked_usbReadLinuxMmap ranCall
    obtain ⟨each, usedRest, split, inOrder⟩ := ih outcome.later outcome.queue calls ranRest
    obtain ⟨used, rfl, order⟩ := walked.order
    refine ⟨fun call mem => ?_, used ++ usedRest, by rw [split, append_assoc], ?_⟩
    · rcases mem_cons.mp mem with rfl | mem
      · exact ⟨accounts_iff walked, walked.callbacks⟩
      · exact each call mem
    · rw [flatMap_append, ← append_assoc, order, append_assoc, inOrder, flatMap_cons, append_assoc]

/-- An event of `n` bytes, and then nothing. -/
def oneEvent (n : BitVec 32) : List (Answer Unit) := [⟨[⟨0x53, n, ()⟩], 0, false⟩, ⟨[], 0, false⟩]

/-- Two calls for one packet each on a short event. -/
theorem session_accounts_short :
    ∃ calls, session ⟨96, none⟩ [1, 1] (oneEvent 8) [] = some (calls, [], []) ∧
      calls.map (·.2.returned) = [1, 0] ∧
      ∀ call ∈ calls, Accounts ⟨96, none⟩ call.1 call.2 ↔ Regular ⟨96, none⟩ call.2 := by
  obtain ⟨calls, ran, values⟩ : ∃ calls, session ⟨96, none⟩ [1, 1] (oneEvent 8) [] =
      some (calls, [], []) ∧ calls.map (·.2.returned) = [1, 0] := ⟨_, rfl, rfl⟩
  have accounts := (session_accounts _ _ _ _ _ _ calls ran).1
  exact ⟨calls, ran, values, fun call mem => (accounts call mem).1⟩

/-- A packet of 128 bytes is handed over with 112 of them under a snapshot length of 96, and
the call for two packets that delivers it returns zero. -/
theorem usbReadLinuxMmap_miscounts :
    ∃ outcome, usbReadLinuxMmap ⟨96, none⟩ 2 (oneEvent 64) [] = some outcome ∧
      outcome.returned = 0 ∧ outcome.callbacks.map Prod.snd = [112] ∧
      ¬ Accounts ⟨96, none⟩ 2 outcome := by
  refine ⟨_, rfl, rfl, rfl, fun accounts => ?_⟩
  obtain ⟨counted, -⟩ := accounts (Int.le_refl 0)
  cases counted

end Accounting

end Libpcap.Linux.Usb
