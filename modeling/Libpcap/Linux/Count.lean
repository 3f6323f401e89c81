/-
# The packet count of a call

A call with a positive count is to deliver at most so many packets. The readers of
frames stop in time. The reader of blocks takes no more packets of a block than the
count, but does not subtract what it delivered from blocks before, and the reader of
netlink datagrams does not look at the count.
-/

import Libpcap.Linux.Netfilter
import Libpcap.Linux.Ring

namespace Libpcap.Linux

open Libpcap.Semantics

variable {max : Int} {n : Nat}

variable {π : Type} {m : Mode π} {s t : Capture π}

/-! ## Calls on the ring -/

/-- The number of packets in the block that the next turn of the loop reads. -/
def Capture.atHand (s : Capture π) : Nat :=
  match s.current with
  | some _ => s.packetsLeft
  | none => ((s.slots s.offset).map List.length).getD 0

/-- The reader of blocks goes on to a block only if it may still deliver all packets that are left
in it. -/
def FitsCount (m : Mode π) (event : Event π) (s : Capture π) : Bool :=
  match event, s.pc with
  | .turn, .head max pkts => m.blocks → 0 < max → pkts = 0 ∨ (pkts + s.atHand : Int) ≤ max
  | _, _ => true

/-- The packets that a call delivered, and those that it may still deliver before it looks at the
count again. -/
structure Counts (call : Int × Nat) (delivered n more : Nat) : Prop where
  delivered : delivered = call.2 + n
  within : 0 < call.1 → (n + more : Int) ≤ call.1

/-- The calls so far respected their counts. -/
def Counted (s : Capture π) : Prop :=
  match s.pc with
  | .idle => ∃ n, Counts s.call s.delivered.length n 0
  | .head max pkts => s.call.1 = max ∧ Counts s.call s.delivered.length pkts 0
  | .inner max pkts toRead => s.call.1 = max ∧ Counts s.call s.delivered.length pkts toRead

theorem fitsCount_of_frames (frames : m.blocks = false) (event : Event π) (s : Capture π) :
    FitsCount m event s := by
  unfold FitsCount
  split
  · simp [frames]
  · rfl

theorem Counts.mono {call : Int × Nat} {delivered more fewer : Nat}
    (counts : Counts call delivered n more) (less : fewer ≤ more) :
    Counts call delivered n fewer :=
  ⟨counts.delivered, fun positive => by have := counts.within positive; omega⟩

/-- A packet that is examined uses up one of those that the call may still deliver. -/
theorem Counts.examine {more : Nat} (counts : Counts s.call s.delivered.length n (more + 1)) (p : π)
    :
    Counts s.call (s.examine m p).delivered.length (countPacket n (s.verdict m p)) more := by
  have before := counts.delivered
  simp only [Capture.examine, countPacket]
  split
  case isTrue =>
    constructor
    case delivered => rw [List.length_append, List.length_singleton]; omega
    case within => exact fun positive => by have := counts.within positive; push_cast at *; omega
  case isFalse => exact counts.mono (Nat.le_succ more)

theorem counted_checkBreak (counts : Counts s.call s.delivered.length n 0) (call : s.call.1 = max) :
    Counted (s.checkBreak (.head max n)) := by
  unfold Capture.checkBreak
  split
  case isTrue => exact ⟨n, counts⟩
  case isFalse => exact ⟨call, counts⟩

/-- A loop that goes on with a positive count may deliver another packet. -/
theorem lt_of_goesOn {pkts : Nat} (on : goesOn max pkts = true) (positive : 0 < max) :
    (pkts : Int) < max := by
  simp only [goesOn, decide_eq_true_eq] at on
  omega

/-- A turn reads no more packets than the block has, and than the count. -/
theorem packetsToRead_le (max : Int) (left : Nat) :
    packetsToRead max left ≤ left ∧ (0 < max → (packetsToRead max left : Int) ≤ max) := by
  unfold packetsToRead
  split <;> constructor <;> omega

/-- A turn of the outer loop may deliver the packets that it reads. -/
theorem Counts.turnHead {pkts left : Nat} (counts : Counts s.call s.delivered.length pkts 0)
    (call : s.call.1 = max) (fits : 0 < max → pkts = 0 ∨ (pkts + left : Int) ≤ max) :
    Counts s.call s.delivered.length pkts (packetsToRead max left) := by
  obtain ⟨inBlock, inCount⟩ := packetsToRead_le max left
  refine ⟨counts.delivered, fun positive => ?_⟩
  rw [call] at positive ⊢
  have := inCount positive
  rcases fits positive with first | within <;> omega

/-- What the kernel and the program do between the turns of a call does not count. -/
theorem Counted.of_eq (counted : Counted s) (pc : t.pc = s.pc) (delivered : t.delivered = s.delivered)
    (call : t.call = s.call) : Counted t := by
  simpa only [Counted, pc, delivered, call] using counted

theorem Counted.read {wait : Wait} (counted : Counted s) (moved : read m s max wait = some t) :
    Counted t := by
  have nothing : Counts (max, s.delivered.length) s.delivered.length 0 0 :=
    ⟨rfl, fun positive => positive.le⟩
  obtain ⟨idle, rfl | rfl | rfl | rfl⟩ := read_cases moved
  · exact ⟨rfl, nothing⟩
  · simp only [Counted, idle]
    exact ⟨0, nothing⟩
  · exact counted
  · exact counted.of_eq rfl rfl rfl

theorem Counted.turn (counted : Counted s) (fits : FitsCount m .turn s)
    (moved : turn m s = some t) : Counted t := by
  cases turn_cases moved with
  | leave here =>
    simp only [Counted, here] at counted
    exact ⟨_, counted.2⟩
  | @frame max pkts p frames here on slot =>
    simp only [Counted, here] at counted
    obtain ⟨call, counts⟩ := counted
    have room : Counts s.call s.delivered.length pkts (0 + 1) :=
      ⟨counts.delivered, fun positive => by
        have := lt_of_goesOn on (call ▸ positive)
        omega⟩
    exact counted_checkBreak (s := (s.examine m p).release m) (room.examine p) call
  | resume blocks here on current =>
    simp only [Counted, here] at counted
    simp only [FitsCount, here, decide_eq_true_eq, blocks, true_implies, Capture.atHand,
      current] at fits
    exact ⟨counted.1, counted.2.turnHead counted.1 fits⟩
  | fetch blocks here on current slot =>
    simp only [Counted, here] at counted
    simp only [FitsCount, here, decide_eq_true_eq, blocks, true_implies, Capture.atHand,
      current, slot] at fits
    exact ⟨counted.1, counted.2.turnHead counted.1 fits⟩
  | corrupt here =>
    simp only [Counted, here] at counted
    exact ⟨_, counted.2.mono (Nat.zero_le _)⟩
  | packet here current found =>
    simp only [Counted, here] at counted
    exact ⟨counted.1, counted.2.examine _⟩
  | done here =>
    simp only [Counted, here] at counted
    exact counted_checkBreak (s := { s.release m with current := none }) counted.2 counted.1
  | pause here =>
    simp only [Counted, here] at counted
    exact counted_checkBreak counted.2 counted.1

theorem Counted.step {event : Event π} (counted : Counted s) (fits : FitsCount m event s)
    (moved : step m event s = some t) : Counted t := by
  cases event with
  | enqueue p =>
    obtain ⟨-, -, ⟨-, rfl⟩ | ⟨-, rfl⟩⟩ := enqueue_cases moved
    all_goals exact counted.of_eq rfl rfl rfl
  | close =>
    obtain ⟨-, -, rfl⟩ := close_cases moved
    exact counted.of_eq rfl rfl rfl
  | breakLoop =>
    cases moved
    exact counted.of_eq rfl rfl rfl
  | setfilter filter how =>
    simp only [Linux.step] at moved
    split at moved
    case isTrue =>
      cases moved
      cases how
      all_goals exact counted.of_eq rfl rfl rfl
    case isFalse => cases moved
  | read max wait => exact counted.read moved
  | turn => exact counted.turn fits moved

theorem counted_of_reaches (path : (step m).ReachesBy (FitsCount m · ·) .start s) : Counted s :=
  path.invariant (fun _ _ _ counted fits moved => counted.step fits moved) ⟨0, rfl, nofun⟩

/-- What the last call delivered so far. -/
theorem Counted.delivered_le (counted : Counted s) (positive : 0 < s.call.1) :
    (s.delivered.length : Int) ≤ s.call.2 + s.call.1 := by
  unfold Counted at counted
  split at counted
  case h_1 =>
    obtain ⟨n, counts⟩ := counted
    have := counts.delivered
    have := counts.within positive
    omega
  all_goals
    obtain ⟨-, counts⟩ := counted
    have := counts.delivered
    have := counts.within positive
    omega

/-! ## The count -/

/-- A call with a positive count delivers at most so many packets: always on a ring of frames; on a
ring of blocks in every run where no call goes on to a block with more packets left than it may
still deliver; and on a netlink socket exactly if the datagram holds no more packets that pass the
filter. -/
theorem count_respected {π : Type} (m : Mode π) (s : Capture π) (h : NfHandle) (max : Int)
    (recvs : List (Recv × Bool)) (result : NfRead) :
    (m.blocks = false → (step m).Reaches .start s → 0 < s.call.1 →
      (s.delivered.length : Int) ≤ s.call.2 + s.call.1) ∧
    ((step m).ReachesBy (FitsCount m · ·) .start s → 0 < s.call.1 →
      (s.delivered.length : Int) ≤ s.call.2 + s.call.1) ∧
    (netfilterRead h max recvs = some result →
      ((result.callbacks.length : Int) ≤ max ↔
        (((payloads h.linktype (messages (received recvs))).filter h.passes).length : Int) ≤
          max)) := by
  refine ⟨?frames, ?blocks, ?netlink⟩
  case frames =>
    intro frames path positive
    have counted : Counted s := path.invariant (fun event source target counted moved =>
      counted.step (fitsCount_of_frames frames event source) moved)
      ⟨0, rfl, nofun⟩
    exact counted.delivered_le positive
  case blocks =>
    intro path positive
    exact (counted_of_reaches path).delivered_le positive
  case netlink =>
    intro returned
    rw [netfilterRead_callbacks returned]

/-- A message of the netfilter log with four bytes. -/
def logMessage : List Byte := [20, 0, 0, 0, 0, 4, 0, 0, 0, 0, 0, 0, 0, 0, 0, 0, 1, 2, 3, 4]

/-- A call for three packets reads a block of three of them, and a call for one packet gets a
datagram with one. -/
theorem count_respected_three :
    (∃ s : Capture Nat,
      (step twoBlocks).run [.enqueue 1, .enqueue 2, .enqueue 3, .close, .read 3 .ready, .turn, .turn,
        .turn, .turn, .turn, .turn] .start = some s ∧
      s.pc = .idle ∧ s.call = (3, 0) ∧ s.delivered.length = 3 ∧
      (s.delivered.length : Int) ≤ s.call.2 + s.call.1) ∧
    (∃ result, netfilterRead ⟨239, none⟩ 1 [(.datagram logMessage, false)] = some result ∧
      (result.callbacks.length : Int) ≤ 1) := by
  have ran : (step twoBlocks).runBy (FitsCount twoBlocks) [.enqueue 1, .enqueue 2, .enqueue 3,
      .close, .read 3 .ready, .turn, .turn, .turn, .turn, .turn, .turn] .start = some _ := rfl
  have respected := fun s result =>
    count_respected twoBlocks s ⟨239, none⟩ 1 [(.datagram logMessage, false)] result
  refine ⟨⟨_, rfl, rfl, rfl, rfl, ?_⟩, ⟨_, rfl, ?_⟩⟩
  · have path := Transition.reachesBy_of_runBy (fun _ _ fits => fits) ran
    exact (respected _ ⟨0, none, [], []⟩).2.1 path (by decide)
  · refine ((respected .start _).2.2 rfl).mpr ?_
    decide +kernel

/-- A call for three packets reads a block of two and one of three packets, and delivers five; a
call for one packet gets a datagram with two, and delivers both. -/
theorem count_exceeded :
    (∃ s : Capture Nat,
      (step twoBlocks).run [.enqueue 1, .enqueue 2, .close, .enqueue 3, .enqueue 4, .enqueue 5,
        .close, .read 3 .ready, .turn, .turn, .turn, .turn, .turn, .turn, .turn, .turn, .turn, .turn]
        .start = some s ∧
      s.pc = .idle ∧ s.call = (3, 0) ∧ s.delivered.map Prod.fst = [1, 2, 3, 4, 5]) ∧
    (∃ result,
      netfilterRead ⟨239, none⟩ 1 [(.datagram (logMessage ++ logMessage), false)] = some result ∧
      result.ret = 2 ∧ result.callbacks = [[1, 2, 3, 4], [1, 2, 3, 4]]) := by
  refine ⟨⟨_, rfl, rfl, rfl, rfl⟩, ⟨_, rfl, ?_, ?_⟩⟩
  · decide +kernel
  · decide +kernel

end Libpcap.Linux
