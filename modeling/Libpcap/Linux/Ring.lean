/-
# Reading from the ring that the kernel fills

The kernel hands over packets in the slots of a ring: frame by frame in versions 1 and
2 of the interface, in blocks of several packets in version 3. A slot that was handed
over belongs to the library until it is handed back. The library reads the slots in
order. In version 3 a call can end in the middle of a block; the next one resumes there.

The kernel, the calls of the library and requests to break out of a call take turns in
any order. A call of the library is split where its loops turn, so that the others can
come between.
-/

import Libpcap.Linux.Frame
import Libpcap.Semantics.Interleaving
import Libpcap.Semantics.Ring

namespace Libpcap.Linux

open Libpcap.Semantics

/-! ## Packets -/

/-- What `pcap_handle_packet_mmap` looks at, apart from the filter: whether the packet fits into
its frame, has a direction that is wanted, and leaves room for a header in cooked mode. -/
structure Handler (π : Type) where
  fits : π → Bool
  wanted : π → Bool
  room : π → Bool

/-- What becomes of a packet. -/
inductive Verdict
  | corrupt
  | rejected
  | delivered
  deriving DecidableEq, Repr

/-- `pcap_handle_packet_mmap`, with the filter if it is run by the library. -/
def Handler.handle {π : Type} (handler : Handler π) (filter : Option (π → Bool)) (p : π) : Verdict :=
  if ¬ handler.fits p then .corrupt
  else if filter.any fun f => ¬ f p then .rejected
  else if ¬ handler.wanted p then .rejected
  else if ¬ handler.room p then .corrupt
  else .delivered

/-- The tests that a handle makes on a frame. -/
def Handle.handler (h : Handle) : Handler RingFrame where
  fits f := ¬ h.bufsize < (f.tpMac + f.tpSnaplen) % 2 ^ 32
  wanted f := checkDirection h f.sll
  room f := ¬ (h.cooked ∧ f.tpMac < sllHdrLen + tpacketAlign h.tpHdrlen + 20)

/-- The return value for a verdict. -/
def Verdict.Returns (verdict : Verdict) (ret : Except String Bool) : Prop :=
  match verdict with
  | .corrupt => ∃ message, ret = .error message
  | .rejected => ret = .ok false
  | .delivered => ret = .ok true

/-- The verdict on a frame is what the function returns for it. -/
theorem handler_handle (h : Handle) (filter : Option Filter) (f : RingFrame) :
    (h.handler.handle (filter.map fun p f => p f.view ≠ 0) f).Returns
      (handlePacketMmap h filter f).ret := by
  have rejects : ((filter.map fun p (f : RingFrame) => decide (p f.view ≠ 0)).any fun p => ¬ p f) =
      filter.any fun p => p f.view = 0 := by
    cases filter with
    | none => rfl
    | some p => simp
  by_cases large : h.bufsize < (f.tpMac + f.tpSnaplen) % 2 ^ 32
  · simp only [Handler.handle, Handle.handler, handlePacketMmap, large]
    exact ⟨_, rfl⟩
  by_cases rejected : (filter.any fun p => p f.view = 0) = true
  · simp only [Handler.handle, Handle.handler, handlePacketMmap, large, rejects, rejected]
    rfl
  by_cases wanted : checkDirection h f.sll = true
  · by_cases narrow : h.cooked ∧ f.tpMac < sllHdrLen + tpacketAlign h.tpHdrlen + 20
    · simp only [Handler.handle, Handle.handler, handlePacketMmap, large, rejects, rejected, wanted,
        narrow]
      exact ⟨_, rfl⟩
    · simp only [Handler.handle, Handle.handler, handlePacketMmap, large, rejects, rejected, wanted,
        narrow]
      rfl
  · simp only [Handler.handle, Handle.handler, handlePacketMmap, large, rejects, rejected, wanted]
    rfl

/-! ## The capture -/

/-- Where a call of the library is: at the head of its loop, or in the loop over the packets of a
block, with the number of packets that it delivered. -/
inductive Pc
  | idle
  | head (max : Int) (pkts : Nat)
  | inner (max : Int) (pkts toRead : Nat)
  deriving DecidableEq, Repr

/-- The shared slots, with the next one of the kernel and of the library. A slot is `none` while it
belongs to the kernel; a slot of version 1 or 2 holds one packet. In version 3 the kernel fills the
open block, and `current_packet` points to a packet of a slot. The last fields are the history: the
blocks that were handed over, the number of them that were handed back, and the packets that were
examined. -/
structure RingState (π : Type) where
  slots : Nat → Option (List π)
  head : Nat
  opened : List π
  offset : Nat
  current : Option (Nat × Nat)
  packetsLeft : Nat
  blocks : List (List π)
  released : Nat
  examined : List π

/-- The filter of the kernel, that of the handle, and whether and how long the library runs it. -/
structure FilterState (π : Type) where
  attached : Option (π → Bool)
  fcode : Option (π → Bool)
  filterInUserland : Bool
  blocksToFilter : Nat

/-- A capture, with the request to break out of a call and the place in the call. The history has
the packets that were delivered, each with the filter of that time, and the count of the last call
with the number of packets that were delivered before it. -/
structure Capture (π : Type) extends RingState π, FilterState π where
  breakLoop : Bool
  pc : Pc
  delivered : List (π × Option (π → Bool))
  call : Int × Nat

/-- What stays the same during a capture: `cc`, the number of slots; whether they are blocks; and
the tests on packets. -/
structure Mode (π : Type) where
  cc : Nat
  blocks : Bool
  handler : Handler π
  positive : 0 < cc

namespace Capture

variable {π : Type}

/-- The ring before the first packet, without a filter. -/
def start : Capture π where
  slots _ := none
  head := 0
  opened := []
  attached := none
  offset := 0
  current := none
  packetsLeft := 0
  breakLoop := false
  fcode := none
  filterInUserland := false
  blocksToFilter := 0
  pc := .idle
  blocks := []
  released := 0
  examined := []
  delivered := []
  call := (0, 0)

variable (m : Mode π) (s : Capture π)

/-- Turn the offset to the next slot. -/
def advance (cc offset : Nat) : Nat := if cc ≤ offset + 1 then 0 else offset + 1

/-- The kernel hands over a slot. -/
def handOver (block : List π) : Capture π :=
  { s with
    slots := Function.update s.slots s.head (some block)
    head := advance m.cc s.head
    blocks := s.blocks ++ [block] }

/-- The filter that the library runs. -/
def userFilter : Option (π → Bool) := if s.filterInUserland then s.fcode else none

/-- The verdict of the library on a packet. -/
def verdict (p : π) : Verdict := m.handler.handle s.userFilter p

/-- A packet is examined, and delivered if the verdict says so. -/
def examine (p : π) : Capture π :=
  { s with
    examined := s.examined ++ [p]
    delivered := if s.verdict m p = .delivered then s.delivered ++ [(p, s.fcode)] else s.delivered }

/-- Hand the slot back to the kernel, count it if slots are counted that need to be filtered by
the library, and go to the next one. -/
def release : Capture π :=
  { s with
    slots := Function.update s.slots s.offset none
    blocksToFilter := s.blocksToFilter - 1
    filterInUserland := if s.blocksToFilter = 1 then false else s.filterInUserland
    offset := advance m.cc s.offset
    released := s.released + 1 }

/-- End the turn of a loop, or the call if that was requested. -/
def checkBreak (pc : Pc) : Capture π :=
  if s.breakLoop then { s with breakLoop := false, pc := .idle } else { s with pc }

/-- End the call. -/
def leave : Capture π := { s with pc := .idle }

end Capture

/-- `PACKET_COUNT_IS_UNLIMITED`, or fewer packets than asked for. -/
def goesOn (max : Int) (pkts : Nat) : Bool := (pkts : Int) < max ∨ max ≤ 0

/-- The packets of a block that are read in one turn, of which `left` are left. -/
def packetsToRead (max : Int) (left : Nat) : Nat := if 0 < max ∧ max < left then max.toNat else left

/-- `pkts` after a verdict. -/
def countPacket (pkts : Nat) (verdict : Verdict) : Nat :=
  if verdict = .delivered then pkts + 1 else pkts

section Turns

variable {π : Type} (m : Mode π) (s : Capture π)

/-- One turn of the loop of `pcap_read_linux_mmap_v1` and `pcap_read_linux_mmap_v2`. -/
def turnFrame (max : Int) (pkts : Nat) : Option (Capture π) :=
  if ¬ goesOn max pkts then some s.leave
  else
    match s.slots s.offset with
    | none => some s.leave
    | some [p] =>
      if s.verdict m p = .corrupt then some s.leave
      else
        some (((s.examine m p).release m).checkBreak (.head max (countPacket pkts (s.verdict m p))))
    | some _ => none

/-- The head of the loop of `pcap_read_linux_mmap_v3`. -/
def turnHead (max : Int) (pkts : Nat) : Capture π :=
  if ¬ goesOn max pkts then s.leave
  else
    match s.current with
    | some _ => { s with pc := .inner max pkts (packetsToRead max s.packetsLeft) }
    | none =>
      match s.slots s.offset with
      | none => s.leave
      | some block =>
        { s with
          current := some (s.offset, 0)
          packetsLeft := block.length
          pc := .inner max pkts (packetsToRead max block.length) }

/-- The packet that `current_packet` points to. -/
def Capture.packetAt (slot i : Nat) : Option π := (s.slots slot).bind fun block => block[i]?

/-- One packet of a block in `pcap_read_linux_mmap_v3`. -/
def turnPacket (max : Int) (pkts toRead : Nat) : Option (Capture π) :=
  s.current.bind fun (slot, i) =>
    (s.packetAt slot i).map fun p =>
      if s.verdict m p = .corrupt then { s with current := none, pc := .idle }
      else
        { s.examine m p with
          current := some (slot, i + 1)
          packetsLeft := s.packetsLeft - 1
          pc := .inner max (countPacket pkts (s.verdict m p)) toRead }

/-- The end of the loop of `pcap_read_linux_mmap_v3`. -/
def turnBlock (max : Int) (pkts : Nat) : Capture π :=
  let s := if s.packetsLeft ≤ 0 then { s.release m with current := none } else s
  s.checkBreak (.head max pkts)

/-- One turn of a loop of the library. -/
def turn : Option (Capture π) :=
  match s.pc with
  | .idle => none
  | .head max pkts => if m.blocks then some (turnHead s max pkts) else turnFrame m s max pkts
  | .inner max pkts (toRead + 1) => turnPacket m s max pkts toRead
  | .inner max pkts 0 => some (turnBlock m s max pkts)

end Turns

/-! ## Filters -/

/-- How far a filter gets: the library refuses it, the socket fails, the kernel does not take it,
with or without getting rid of its old one, or the kernel takes it. -/
inductive Attach
  | invalid
  | fatal
  | userland (detached : Bool)
  | kernel
  deriving DecidableEq, Repr

/-- Turn an offset to the slot before. -/
def goBack (cc offset : Nat) : Nat := if offset = 0 then cc - 1 else offset - 1

/-- Walk the ring backward, for at most `steps` slots, and count the free ones. -/
def countFree {π : Type} (slots : Nat → Option (List π)) (cc : Nat) : Nat → Nat → Nat
  | 0, _ => 0
  | steps + 1, offset =>
    if (slots (goBack cc offset)).isNone then countFree slots cc steps (goBack cc offset) + 1
    else 0

/-- `pcap_setfilter_linux_mmap` -/
def setfilter {π : Type} (m : Mode π) (s : Capture π) (filter : π → Bool) (how : Attach) :
    Capture π :=
  match how with
  | .invalid => s
  | .fatal => { s with fcode := some filter, filterInUserland := true, attached := none }
  | .userland detached =>
    { s with
      fcode := some filter
      filterInUserland := true
      attached := if detached then none else s.attached }
  | .kernel =>
    -- one slot less than were counted, for a packet that comes in between
    let n := countFree s.slots m.cc m.cc (goBack m.cc s.offset) - 1
    { s with
      fcode := some filter
      filterInUserland := true
      attached := some filter
      blocksToFilter := m.cc - n }

/-! ## Events -/

/-- How waiting for a slot ends. -/
inductive Wait
  | ready
  | failed
  | interrupted
  deriving DecidableEq, Repr

/-- What the kernel, the library and the program do. -/
inductive Event (π : Type)
  | enqueue (p : π)
  | close
  | breakLoop
  | setfilter (filter : π → Bool) (how : Attach)
  | read (max : Int) (wait : Wait)
  | turn

section Events

variable {π : Type} (m : Mode π) (s : Capture π)

/-- The kernel puts a packet that its filter accepts into a slot that belongs to it: into the next
frame, which it hands over, or into the open block. -/
def enqueue (p : π) : Option (Capture π) :=
  if ¬ (s.attached.all fun f => f p) ∨ (s.slots s.head).isSome then none
  else if m.blocks then some { s with opened := s.opened ++ [p] }
  else some (s.handOver m [p])

/-- The kernel hands over the open block. -/
def close : Option (Capture π) :=
  if m.blocks ∧ (s.slots s.head).isNone then some { s.handOver m s.opened with opened := [] }
  else none

/-- A call begins its loop; version 3 ends before it if no block is there. -/
def begin (max : Int) : Capture π :=
  if m.blocks ∧ (s.slots s.offset).isNone then { s with call := (max, s.delivered.length) }
  else { s with pc := .head max 0, call := (max, s.delivered.length) }

/-- `pcap_read_linux_mmap_v1`, `_v2` and `_v3` up to their loop. In the middle of a block they do
not wait. -/
def read (max : Int) (wait : Wait) : Option (Capture π) :=
  if s.pc ≠ .idle then none
  else if m.blocks ∧ s.current.isSome then some (begin m s max)
  else
    match wait with
    | .ready => some (begin m s max)
    | .failed => some s
    | .interrupted => some { s with breakLoop := false }

/-- The capture as a system of parties that take turns. -/
def step : Transition (Event π) (Capture π)
  | .enqueue p, s => enqueue m s p
  | .close, s => close m s
  | .breakLoop, s => some { s with breakLoop := true }
  | .setfilter filter how, s => if s.pc = .idle then some (setfilter m s filter how) else none
  | .read max wait, s => read m s max wait
  | .turn, s => turn m s

variable {m s} {t : Capture π}

/-- What a turn of a loop can do. -/
inductive Turned (m : Mode π) (s : Capture π) : Capture π → Prop
  | leave {max : Int} {pkts : Nat} (here : s.pc = .head max pkts) : Turned m s s.leave
  | frame {max : Int} {pkts : Nat} {p : π} (frames : m.blocks = false) (here : s.pc = .head max pkts)
      (on : goesOn max pkts) (slot : s.slots s.offset = some [p]) :
      Turned m s
        (((s.examine m p).release m).checkBreak (.head max (countPacket pkts (s.verdict m p))))
  | resume {max : Int} {pkts slot i : Nat} (blocks : m.blocks = true) (here : s.pc = .head max pkts)
      (on : goesOn max pkts) (current : s.current = some (slot, i)) :
      Turned m s { s with pc := .inner max pkts (packetsToRead max s.packetsLeft) }
  | fetch {max : Int} {pkts : Nat} {block : List π} (blocks : m.blocks = true)
      (here : s.pc = .head max pkts) (on : goesOn max pkts) (current : s.current = none)
      (slot : s.slots s.offset = some block) :
      Turned m s
        { s with
          current := some (s.offset, 0)
          packetsLeft := block.length
          pc := .inner max pkts (packetsToRead max block.length) }
  | corrupt {max : Int} {pkts toRead : Nat} (here : s.pc = .inner max pkts (toRead + 1)) :
      Turned m s { s with current := none, pc := .idle }
  | packet {max : Int} {pkts toRead slot i : Nat} {p : π} (here : s.pc = .inner max pkts (toRead + 1))
      (current : s.current = some (slot, i)) (found : s.packetAt slot i = some p) :
      Turned m s
        { s.examine m p with
          current := some (slot, i + 1)
          packetsLeft := s.packetsLeft - 1
          pc := .inner max (countPacket pkts (s.verdict m p)) toRead }
  | done {max : Int} {pkts : Nat} (here : s.pc = .inner max pkts 0) :
      Turned m s (({ s.release m with current := none } : Capture π).checkBreak (.head max pkts))
  | pause {max : Int} {pkts : Nat} (here : s.pc = .inner max pkts 0) :
      Turned m s (s.checkBreak (.head max pkts))

theorem turn_cases (moved : turn m s = some t) : Turned m s t := by
  unfold turn at moved
  split at moved
  case h_1 => cases moved
  case h_2 max pkts here =>
    split at moved
    case isTrue blocks =>
      cases moved
      fun_cases turnHead s max pkts
      case case1 => exact .leave here
      case case2 on _ current => exact .resume blocks here (not_not.mp on) current
      case case3 => exact .leave here
      case case4 on current _ slot => exact .fetch blocks here (not_not.mp on) current slot
    case isFalse frames =>
      revert moved
      fun_cases turnFrame m s max pkts <;> rintro ⟨⟩
      case case1 => exact .leave here
      case case2 => exact .leave here
      case case3 => exact .leave here
      case case4 on _ slot _ =>
        exact .frame (Bool.eq_false_iff.mpr frames) here (not_not.mp on) slot
  case h_3 max pkts toRead here =>
    simp only [turnPacket, Option.bind_eq_some_iff, Option.map_eq_some_iff] at moved
    obtain ⟨⟨slot, i⟩, current, p, found, rfl⟩ := moved
    split
    case isTrue => exact .corrupt here
    case isFalse => exact .packet here current found
  case h_4 max pkts here =>
    cases moved
    unfold turnBlock
    dsimp only
    split
    case isTrue => exact .done here
    case isFalse => exact .pause here

/-- What the kernel does with a packet. -/
theorem enqueue_cases {p : π} (moved : enqueue m s p = some t) :
    (s.attached.all fun f => f p) = true ∧ s.slots s.head = none ∧
      ((m.blocks = true ∧ t = { s with opened := s.opened ++ [p] }) ∨
        (m.blocks = false ∧ t = s.handOver m [p])) := by
  unfold enqueue at moved
  split at moved
  case isTrue => cases moved
  case isFalse admitted =>
    rw [not_or, not_not, Option.not_isSome_iff_eq_none] at admitted
    refine ⟨admitted.1, admitted.2, ?_⟩
    split at moved
    case isTrue blocks =>
      cases moved
      exact .inl ⟨blocks, rfl⟩
    case isFalse frames =>
      cases moved
      exact .inr ⟨Bool.eq_false_iff.mpr frames, rfl⟩

theorem close_cases (moved : close m s = some t) :
    m.blocks = true ∧ (s.slots s.head).isNone ∧
      t = { s.handOver m s.opened with opened := [] } := by
  obtain ⟨allowed, ⟨⟩⟩ := Option.ite_none_right_eq_some.mp moved
  exact ⟨allowed.1, allowed.2, rfl⟩

/-- A call begins its loop, or ends at once. -/
theorem read_cases {max : Int} {wait : Wait} (moved : read m s max wait = some t) :
    s.pc = .idle ∧
      (t = { s with pc := .head max 0, call := (max, s.delivered.length) } ∨
        t = { s with call := (max, s.delivered.length) } ∨ t = s ∨
        t = { s with breakLoop := false }) := by
  have begun : begin m s max = { s with pc := .head max 0, call := (max, s.delivered.length) } ∨
      begin m s max = { s with call := (max, s.delivered.length) } := by
    unfold begin
    split
    · exact .inr rfl
    · exact .inl rfl
  have starts : t = begin m s max →
      t = { s with pc := .head max 0, call := (max, s.delivered.length) } ∨
        t = { s with call := (max, s.delivered.length) } ∨ t = s ∨
        t = { s with breakLoop := false } := by
    rintro rfl
    exact begun.imp_right .inl
  unfold read at moved
  split at moved
  case isTrue => cases moved
  case isFalse idle =>
    refine ⟨not_not.mp idle, ?_⟩
    split at moved
    case isTrue => exact starts (Option.some.inj moved).symm
    case isFalse =>
      cases wait with
      | ready => exact starts (Option.some.inj moved).symm
      | failed => exact .inr (.inr (.inl (Option.some.inj moved).symm))
      | interrupted => exact .inr (.inr (.inr (Option.some.inj moved).symm))

end Events

/-- Two slots for blocks of numbers. -/
def twoBlocks : Mode Nat := ⟨2, true, ⟨fun _ => true, fun _ => true, fun _ => true⟩, by decide⟩

end Libpcap.Linux
