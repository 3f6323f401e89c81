/-
# Every packet of the ring is examined once and in order

The slots that were handed over and not handed back are those of a window of the
sequence of all blocks, and each of them still holds its block. The packets that were
examined are those of the blocks before the window, and in version 3 the first ones of
the first block in it. So packets are examined in the order in which the kernel put them
into the ring, none is left out or examined twice, and a slot is handed back only after
its last packet.
-/

import Libpcap.Linux.Ring

namespace Libpcap.Linux

open Libpcap.Semantics Libpcap.Semantics.Ring List

variable {π : Type} {m : Mode π} {s t : Capture π}

/-! ## Slots -/

/-- The slots that belong to the library hold the blocks that were not handed back, and all others
belong to the kernel. -/
structure Shared (m : Mode π) (s : Capture π) : Prop where
  offset : s.offset = s.released % m.cc
  head : s.head = s.blocks.length % m.cc
  behind : s.released ≤ s.blocks.length
  holds : Holds m.cc s.slots (fun n => s.blocks[n]?) s.released (s.released + m.cc)
  window : s.blocks.length ≤ s.released + m.cc

theorem advance_mod (positive : 0 < m.cc) (n : Nat) :
    Capture.advance m.cc (n % m.cc) = (n + 1) % m.cc := by
  have less := Nat.mod_lt n positive
  unfold Capture.advance
  split
  case isTrue last =>
    have whole : n % m.cc + 1 = m.cc := by omega
    rw [← Nat.mod_add_mod, whole, Nat.mod_self]
  case isFalse inside =>
    have next : (n + 1) % m.cc = n % m.cc + 1 := by
      rw [← Nat.mod_add_mod, Nat.mod_eq_of_lt (by omega)]
    exact next.symm

/-- The slot that is read next holds the first block that was not handed back. -/
theorem Shared.slot_eq (shared : Shared m s) : s.slots s.offset = s.blocks[s.released]? := by
  have positive := m.positive
  rw [shared.offset]
  exact shared.holds s.released le_rfl (by omega)

/-- If the next slot of the kernel belongs to it, the ring is not full. -/
theorem Shared.not_full (shared : Shared m s) (free : (s.slots s.head).isNone) :
    s.blocks.length < s.released + m.cc := by
  have positive := m.positive
  refine lt_of_le_of_ne shared.window fun full => ?_
  have same : s.head = s.offset := by
    rw [shared.head, full, Nat.add_mod_right, shared.offset]
  rw [same, shared.slot_eq, getElem?_eq_getElem (by omega)] at free
  exact absurd free (by simp)

/-- A slot is handed over. -/
theorem Shared.handOver (shared : Shared m s) (free : (s.slots s.head).isNone) (block : List π) :
    Shared m (s.handOver m block) where
  offset := shared.offset
  head := by
    change Capture.advance m.cc s.head = (s.blocks ++ [block]).length % m.cc
    rw [shared.head, advance_mod m.positive, length_append]
    rfl
  behind := by
    change s.released ≤ (s.blocks ++ [block]).length
    rw [length_append]
    exact shared.behind.trans (Nat.le_add_right _ _)
  holds := by
    change Holds m.cc (Function.update s.slots s.head (some block))
      (fun n => (s.blocks ++ [block])[n]?) s.released (s.released + m.cc)
    have last : (s.blocks ++ [block])[s.blocks.length]? = some block := getElem?_concat_length
    rw [shared.head, ← last]
    refine shared.holds.replace le_rfl shared.behind (shared.not_full free) fun n other => ?_
    rcases Nat.lt_or_gt_of_ne other with before | after
    · exact getElem?_append_left before
    · rw [getElem?_eq_none after.le, getElem?_eq_none]
      rw [length_append, length_singleton]
      exact after
  window := by
    change (s.blocks ++ [block]).length ≤ s.released + m.cc
    rw [length_append]
    exact shared.not_full free

/-- A slot is handed back. -/
theorem Shared.release (shared : Shared m s) (more : s.released < s.blocks.length) :
    Shared m (s.release m) where
  offset := by
    change Capture.advance m.cc s.offset = (s.released + 1) % m.cc
    rw [shared.offset, advance_mod m.positive]
  head := shared.head
  behind := more
  holds := by
    change Holds m.cc (Function.update s.slots s.offset none) (fun n => s.blocks[n]?)
      (s.released + 1) (s.released + 1 + m.cc)
    have beyond : s.blocks[s.released + m.cc]? = none := getElem?_eq_none shared.window
    rw [shared.offset, ← beyond]
    exact shared.holds.slide
  window := by
    change s.blocks.length ≤ s.released + 1 + m.cc
    have := shared.window
    omega

/-! ## Packets -/

/-- The packets of the block at hand that were examined before. -/
def Capture.begun (s : Capture π) : List π :=
  match s.current with
  | none => []
  | some (_, i) => ((s.blocks[s.released]?).getD []).take i

/-- Where the library is in the packets: it examined those of all blocks that it handed back, and
the first ones of the block that it resumes. -/
structure Reading (s : Capture π) : Prop where
  examined : s.examined = (s.blocks.take s.released).flatten ++ s.begun
  resumes : ∀ slot i, s.current = some (slot, i) → slot = s.offset ∧
    ∃ block, s.blocks[s.released]? = some block ∧ i + s.packetsLeft = block.length
  inner : ∀ max pkts toRead, s.pc = .inner max pkts toRead →
    s.current ≠ none ∧ toRead ≤ s.packetsLeft

/-- A packet that passes the sanity checks. -/
def Handler.Sane (handler : Handler π) (p : π) : Prop := handler.fits p = true ∧ handler.room p = true

/-- Frames are blocks of one packet, and all packets pass the sanity checks. -/
structure Placed (m : Mode π) (s : Capture π) : Prop where
  frames : m.blocks = false → s.current = none ∧ ∀ block ∈ s.blocks, ∃ p, block = [p]
  outer : m.blocks = false → ∀ max pkts toRead, s.pc ≠ .inner max pkts toRead
  sane : ∀ block ∈ s.blocks, ∀ p ∈ block, m.handler.Sane p
  openedSane : ∀ p ∈ s.opened, m.handler.Sane p

/-- What holds in every state. -/
structure Drains (m : Mode π) (s : Capture π) : Prop where
  shared : Shared m s
  reading : Reading s
  placed : Placed m s

theorem handle_ne_corrupt {handler : Handler π} {p : π} (sane : handler.Sane p)
    (filter : Option (π → Bool)) : handler.handle filter p ≠ .corrupt := by
  rw [Handler.handle, if_neg (not_not.mpr sane.1)]
  split
  · simp
  split
  · simp
  · rw [if_neg (not_not.mpr sane.2)]
    simp

theorem drains_start : Drains m .start where
  shared := ⟨(Nat.zero_mod _).symm, (Nat.zero_mod _).symm, le_rfl, fun _ _ _ => rfl, Nat.zero_le _⟩
  reading := ⟨rfl, nofun, nofun⟩
  placed := ⟨fun _ => ⟨rfl, nofun⟩, nofun, nofun, nofun⟩

/-! ## The kernel -/

/-- A block that is handed over is behind the one that the library reads. -/
theorem Reading.handOver (reading : Reading s) (behind : s.released ≤ s.blocks.length)
    (block : List π) : Reading (s.handOver m block) := by
  have same : ∀ first, s.blocks[s.released]? = some first →
      (s.blocks ++ [block])[s.released]? = some first := by
    intro first found
    obtain ⟨inside, -⟩ := List.getElem?_eq_some_iff.mp found
    rw [getElem?_append_left inside, found]
  refine ⟨?_, ?_, reading.inner⟩
  · change s.examined = ((s.blocks ++ [block]).take s.released).flatten ++ _
    rw [take_append_of_le_length behind, reading.examined]
    congr 1
    unfold Capture.begun
    cases current : s.current with
    | none => simp only [Capture.handOver, current]
    | some place =>
      obtain ⟨-, first, found, -⟩ := reading.resumes place.1 place.2 current
      simp only [Capture.handOver, current, same first found, found]
  · intro slot i current
    obtain ⟨atOffset, first, found, length⟩ := reading.resumes slot i current
    exact ⟨atOffset, first, same first found, length⟩

theorem Drains.handOver (drains : Drains m s) (free : (s.slots s.head).isNone) {block : List π}
    (single : m.blocks = false → ∃ p, block = [p]) (sane : ∀ p ∈ block, m.handler.Sane p) :
    Drains m (s.handOver m block) where
  shared := drains.shared.handOver free block
  reading := drains.reading.handOver drains.shared.behind block
  placed := {
    frames := fun frames => by
      refine ⟨(drains.placed.frames frames).1, fun other listed => ?_⟩
      rcases mem_append.mp listed with old | new
      · exact (drains.placed.frames frames).2 other old
      · exact mem_singleton.mp new ▸ single frames
    outer := drains.placed.outer
    sane := fun other listed => by
      rcases mem_append.mp listed with old | new
      · exact drains.placed.sane other old
      · exact mem_singleton.mp new ▸ sane
    openedSane := drains.placed.openedSane }

/-! ## The library -/

/-- What does not concern the slots and packets may change. -/
theorem Drains.of_ring_eq (drains : Drains m s) (same : t.toRingState = s.toRingState)
    (pc : t.pc = s.pc ∨ ∀ max pkts toRead, t.pc ≠ .inner max pkts toRead) : Drains m t := by
  obtain ⟨ring, filters, breakLoop, pcT, delivered, call⟩ := t
  subst same
  obtain ⟨shared, reading, placed⟩ := drains
  rcases pc with rfl | outside
  · exact ⟨⟨shared.1, shared.2, shared.3, shared.4, shared.5⟩, ⟨reading.1, reading.2, reading.3⟩,
      ⟨placed.1, placed.2, placed.3, placed.4⟩⟩
  · exact ⟨⟨shared.1, shared.2, shared.3, shared.4, shared.5⟩,
      ⟨reading.1, reading.2, fun max pkts toRead inner => absurd inner (outside max pkts toRead)⟩,
      ⟨placed.1, fun _ => outside, placed.3, placed.4⟩⟩

/-- A block whose packets were all examined is handed back. -/
theorem drains_released (shared : Shared m s) (placed : Placed m s) {block : List π}
    (found : s.blocks[s.released]? = some block)
    (all : s.examined = (s.blocks.take s.released).flatten ++ block)
    (ring : t.toRingState = { (s.release m).toRingState with current := none })
    (outside : ∀ max pkts toRead, t.pc ≠ .inner max pkts toRead) : Drains m t := by
  obtain ⟨ringT, filters, breakLoop, pc, delivered, call⟩ := t
  subst ring
  obtain ⟨inside, -⟩ := List.getElem?_eq_some_iff.mp found
  have handedBack := shared.release inside
  refine ⟨⟨handedBack.1, handedBack.2, handedBack.3, handedBack.4, handedBack.5⟩,
    ⟨?_, nofun, fun max pkts toRead inner => absurd inner (outside max pkts toRead)⟩,
    ⟨fun frames => ⟨rfl, (placed.frames frames).2⟩, fun _ => outside, placed.3, placed.4⟩⟩
  change s.examined = (s.blocks.take (s.released + 1)).flatten ++ []
  rw [all, take_add_one, found, append_nil, flatten_append]
  simp

theorem RingState.current_none {r : RingState π} (none' : r.current = none) :
    r = { r with current := none } := by
  obtain ⟨slots, head, opened, offset, current, packetsLeft, blocks, released, examined⟩ := r
  rw [show current = none from none']

theorem checkBreak_ring (s : Capture π) (pc : Pc) :
    (s.checkBreak pc).toRingState = s.toRingState := by
  unfold Capture.checkBreak
  split <;> rfl

theorem checkBreak_outside (s : Capture π) (max : Int) (pkts : Nat) :
    ∀ max' pkts' toRead, (s.checkBreak (.head max pkts)).pc ≠ .inner max' pkts' toRead := by
  unfold Capture.checkBreak
  split <;> nofun

/-- A packet of the ring is not corrupt. -/
theorem Placed.verdict_ne (placed : Placed m s) {block : List π} {p : π} {n : Nat}
    (found : s.blocks[n]? = some block) (listed : p ∈ block) : s.verdict m p ≠ .corrupt :=
  handle_ne_corrupt (placed.sane block (mem_of_getElem? found) p listed) _

/-- One turn of versions 1 and 2. -/
theorem Drains.turnFrame (drains : Drains m s) (frames : m.blocks = false) (max : Int) (pkts : Nat) :
    ∃ t, turnFrame m s max pkts = some t ∧ Drains m t := by
  have left : Drains m s.leave := drains.of_ring_eq rfl (.inr nofun)
  have slot := drains.shared.slot_eq
  unfold Linux.turnFrame
  split
  · exact ⟨_, rfl, left⟩
  cases content : s.slots s.offset with
  | none => exact ⟨_, rfl, left⟩
  | some block =>
    have found : s.blocks[s.released]? = some block := slot.symm.trans content
    obtain ⟨none', single⟩ := drains.placed.frames frames
    obtain ⟨p, rfl⟩ := single block (mem_of_getElem? found)
    have sane := drains.placed.verdict_ne found mem_cons_self
    simp only [if_neg sane]
    refine ⟨_, rfl, ?_⟩
    have shared := drains.shared
    refine drains_released (s := s.examine m p)
      ⟨shared.1, shared.2, shared.3, shared.4, shared.5⟩
      ⟨drains.placed.1, drains.placed.2, drains.placed.3, drains.placed.4⟩ found ?_ ?_
      (checkBreak_outside _ _ _)
    · change s.examined ++ [p] = _
      rw [drains.reading.examined, Capture.begun, none', append_nil]
      rfl
    · rw [checkBreak_ring]
      exact RingState.current_none none'

/-- The head of the loop of version 3. -/
theorem Drains.turnHead (drains : Drains m s) (blocks : m.blocks = true) (max : Int) (pkts : Nat) :
    Drains m (turnHead s max pkts) := by
  have left : Drains m s.leave := drains.of_ring_eq rfl (.inr nofun)
  have bound : ∀ left, packetsToRead max left ≤ left := by
    intro left
    unfold packetsToRead
    split <;> omega
  obtain ⟨shared, reading, placed⟩ := drains
  have notFrames : ∀ {P : Prop}, m.blocks = false → P := fun frames =>
    Bool.noConfusion (blocks.symm.trans frames)
  unfold Linux.turnHead
  split
  · exact left
  cases current : s.current with
  | some place =>
    refine ⟨⟨shared.1, shared.2, shared.3, shared.4, shared.5⟩, ⟨reading.1, reading.2, ?_⟩,
      ⟨placed.1, notFrames, placed.3, placed.4⟩⟩
    rintro max' pkts' toRead ⟨⟩
    exact ⟨by change s.current ≠ none; rw [current]; nofun, bound s.packetsLeft⟩
  | none =>
    cases content : s.slots s.offset with
    | none => exact left
    | some block =>
      have found : s.blocks[s.released]? = some block := shared.slot_eq.symm.trans content
      refine ⟨⟨shared.1, shared.2, shared.3, shared.4, shared.5⟩, ⟨?_, ?_, ?_⟩,
        ⟨notFrames, notFrames, placed.3, placed.4⟩⟩
      · change s.examined = _ ++ ((s.blocks[s.released]?).getD []).take 0
        rw [reading.examined, Capture.begun, current, take_zero]
      · rintro slot i ⟨⟩
        exact ⟨rfl, block, found, Nat.zero_add _⟩
      · rintro max' pkts' toRead ⟨⟩
        exact ⟨nofun, bound block.length⟩

/-- One packet of a block. -/
theorem Drains.turnPacket (drains : Drains m s) (blocks : m.blocks = true) {max : Int}
    {pkts toRead : Nat} (inner : s.pc = .inner max pkts (toRead + 1)) :
    ∃ t, turnPacket m s max pkts toRead = some t ∧ Drains m t := by
  obtain ⟨shared, reading, placed⟩ := drains
  have notFrames : ∀ {P : Prop}, m.blocks = false → P := fun frames =>
    Bool.noConfusion (blocks.symm.trans frames)
  obtain ⟨pointed, enough⟩ := reading.inner max pkts (toRead + 1) inner
  obtain ⟨⟨slot, i⟩, current⟩ := Option.ne_none_iff_exists'.mp pointed
  obtain ⟨rfl, block, found, length⟩ := reading.resumes slot i current
  have inside : i < block.length := by omega
  have packet : s.packetAt s.offset i = some (block.get ⟨i, inside⟩) := by
    rw [Capture.packetAt, shared.slot_eq, found]
    exact getElem?_eq_getElem inside
  have sane := placed.verdict_ne found (get_mem block ⟨i, inside⟩)
  simp only [Linux.turnPacket, current, Option.bind_some, packet, Option.map_some, if_neg sane]
  refine ⟨_, rfl, ?_⟩
  refine ⟨⟨shared.1, shared.2, shared.3, shared.4, shared.5⟩, ⟨?_, ?_, ?_⟩,
    ⟨notFrames, notFrames, placed.3, placed.4⟩⟩
  · change s.examined ++ [_] = _ ++ ((s.blocks[s.released]?).getD []).take (i + 1)
    rw [reading.examined, Capture.begun, current, found, append_assoc]
    simp only [Option.getD_some]
    rw [take_add_one, getElem?_eq_getElem inside]
    rfl
  · rintro slot i' ⟨⟩
    exact ⟨rfl, block, found, by change i + 1 + (s.packetsLeft - 1) = _; omega⟩
  · rintro max' pkts' toRead' ⟨⟩
    exact ⟨by simp, by change toRead ≤ s.packetsLeft - 1; omega⟩

/-- The end of the loop of version 3. -/
theorem Drains.turnBlock (drains : Drains m s) {max : Int} {pkts : Nat}
    (inner : s.pc = .inner max pkts 0) : Drains m (turnBlock m s max pkts) := by
  unfold Linux.turnBlock
  obtain ⟨pointed, -⟩ := drains.reading.inner max pkts 0 inner
  obtain ⟨⟨slot, i⟩, current⟩ := Option.ne_none_iff_exists'.mp pointed
  obtain ⟨rfl, block, found, length⟩ := drains.reading.resumes slot i current
  dsimp only
  split
  case isTrue finished =>
    refine drains_released drains.shared drains.placed found ?_ (checkBreak_ring _ _)
      (checkBreak_outside _ _ _)
    rw [drains.reading.examined, Capture.begun, current, found]
    simp only [Option.getD_some]
    rw [take_of_length_le (l := block) (i := i) (by omega)]
  case isFalse more =>
    exact drains.of_ring_eq (checkBreak_ring _ _) (.inr (checkBreak_outside _ _ _))

/-- A turn is always possible, and keeps the invariant. -/
theorem Drains.turn (drains : Drains m s) (busy : s.pc ≠ .idle) :
    ∃ t, turn m s = some t ∧ Drains m t := by
  unfold Linux.turn
  have outer := drains.placed.outer
  cases pc : s.pc with
  | idle => exact absurd pc busy
  | head max pkts =>
    cases blocks : m.blocks with
    | true => exact ⟨_, rfl, drains.turnHead blocks max pkts⟩
    | false => exact drains.turnFrame blocks max pkts
  | inner max pkts toRead =>
    have blocks : m.blocks = true := by
      by_contra frames
      exact outer (Bool.eq_false_iff.mpr frames) max pkts toRead pc
    cases toRead with
    | zero => exact ⟨_, rfl, drains.turnBlock pc⟩
    | succ toRead => exact drains.turnPacket blocks pc

/-- What was examined are the first packets that were handed over. -/
theorem Reading.examined_prefix (reading : Reading s) : s.examined <+: s.blocks.flatten := by
  have split : s.blocks.flatten =
      (s.blocks.take s.released).flatten ++ (s.blocks.drop s.released).flatten := by
    rw [← flatten_append, take_append_drop]
  rw [reading.examined, split, prefix_append_right_inj]
  unfold Capture.begun
  cases current : s.current with
  | none => exact nil_prefix
  | some place =>
    obtain ⟨-, block, found, -⟩ := reading.resumes place.1 place.2 current
    obtain ⟨inside, at'⟩ := List.getElem?_eq_some_iff.mp found
    simp only [found, Option.getD_some]
    rw [drop_eq_getElem_cons inside, flatten_cons, at']
    exact ( take_prefix _ _).trans (prefix_append _ _)

/-! ## Runs -/

/-- The kernel puts only packets into the ring that pass the sanity checks. -/
def SaneEvent (m : Mode π) (event : Event π) (_ : Capture π) : Prop :=
  ∀ p, event = .enqueue p → m.handler.Sane p

theorem Drains.step (drains : Drains m s) {event : Event π} (sane : SaneEvent m event s)
    (moved : step m event s = some t) : Drains m t := by
  cases event with
  | enqueue p =>
    obtain ⟨-, free, ⟨-, rfl⟩ | ⟨-, rfl⟩⟩ := enqueue_cases moved
    case inl =>
      obtain ⟨shared, reading, placed⟩ := drains
      refine ⟨⟨shared.1, shared.2, shared.3, shared.4, shared.5⟩,
        ⟨reading.1, reading.2, reading.3⟩, ⟨placed.1, placed.2, placed.3, ?_⟩⟩
      intro q listed
      rcases mem_append.mp listed with old | new
      · exact placed.openedSane q old
      · exact mem_singleton.mp new ▸ sane p rfl
    case inr =>
      refine drains.handOver (Option.isNone_iff_eq_none.mpr free) (fun _ => ⟨p, rfl⟩) ?_
      intro q listed
      exact mem_singleton.mp listed ▸ sane p rfl
  | close =>
    obtain ⟨blocks, free, rfl⟩ := close_cases moved
    have handed : Drains m (s.handOver m s.opened) := drains.handOver free
      (fun frames => absurd (blocks.symm.trans frames) nofun) drains.placed.openedSane
    obtain ⟨shared, reading, placed⟩ := handed
    exact ⟨⟨shared.1, shared.2, shared.3, shared.4, shared.5⟩,
      ⟨reading.1, reading.2, reading.3⟩, ⟨placed.1, placed.2, placed.3, nofun⟩⟩
  | breakLoop =>
    cases moved
    exact drains.of_ring_eq rfl (.inl rfl)
  | setfilter filter how =>
    simp only [Linux.step] at moved
    split at moved
    case isTrue idle =>
      cases moved
      cases how <;> exact drains.of_ring_eq rfl (.inl rfl)
    case isFalse => exact absurd moved nofun
  | read max wait =>
    obtain ⟨-, rfl | rfl | rfl | rfl⟩ := read_cases moved
    · exact drains.of_ring_eq rfl (.inr nofun)
    · exact drains.of_ring_eq rfl (.inl rfl)
    · exact drains
    · exact drains.of_ring_eq rfl (.inl rfl)
  | turn =>
    have busy : s.pc ≠ .idle := by
      intro idle
      simp only [Linux.step, Linux.turn, idle] at moved
      exact absurd moved nofun
    obtain ⟨u, moved', next⟩ := drains.turn busy
    cases moved.symm.trans moved'
    exact next

theorem drains_of_reaches (path : (step m).ReachesBy (SaneEvent m) .start s) : Drains m s :=
  path.invariant (fun _ _ _ drains sane moved => drains.step sane moved) drains_start

/-- In every interleaving of the kernel, calls and break requests, where all packets pass the
sanity checks: the packets that were examined are, in order, the first of those that the kernel
handed over; they include all packets of slots that were handed back; the other slots still hold
their packets; when no slot is left, all packets were examined; and a call never gets stuck. -/
theorem ring_drained_in_order (path : (step m).ReachesBy (SaneEvent m) .start s) :
    s.examined <+: s.blocks.flatten ∧
      (s.blocks.take s.released).flatten <+: s.examined ∧
      (∀ n, s.released ≤ n → n < s.released + m.cc → s.slots (n % m.cc) = s.blocks[n]?) ∧
      (s.slots s.offset = none → s.examined = s.blocks.flatten) ∧
      (s.pc ≠ .idle → ∃ t, step m .turn s = some t) := by
  have drains := drains_of_reaches path
  have reading := drains.reading
  refine ⟨?_, ?_, drains.shared.holds, ?_, fun busy => ?_⟩
  · exact reading.examined_prefix
  · rw [reading.examined]
    exact prefix_append _ _
  · intro empty
    have nothing : s.blocks[s.released]? = none := drains.shared.slot_eq.symm.trans empty
    have begun : s.begun = [] := by
      unfold Capture.begun
      split
      · rfl
      · rw [nothing]
        exact take_nil
    rw [reading.examined, begun, append_nil,
      take_of_length_le (List.getElem?_eq_none_iff.mp nothing)]
  · obtain ⟨t, moved, -⟩ := drains.turn busy
    exact ⟨t, moved⟩

/-- A block of three packets is read by two calls, of which the first one asks for two packets and
the second one is asked to break. -/
theorem ring_drained_by_two_calls :
    ∃ s : Capture Nat,
      (step twoBlocks).run [.enqueue 1, .enqueue 2, .enqueue 3, .close, .read 2 .ready, .turn, .turn,
        .turn, .turn, .turn, .enqueue 4, .close, .read 9 .ready, .breakLoop, .turn, .turn, .turn]
        .start = some s ∧
      s.blocks = [[1, 2, 3], [4]] ∧ s.released = 1 ∧ s.pc = .idle ∧
      (s.blocks.take s.released).flatten <+: s.examined ∧ s.examined <+: s.blocks.flatten := by
  have ran : (step twoBlocks).run [.enqueue 1, .enqueue 2, .enqueue 3, .close, .read 2 .ready, .turn,
      .turn, .turn, .turn, .turn, .enqueue 4, .close, .read 9 .ready, .breakLoop, .turn, .turn, .turn]
      .start = some _ := rfl
  obtain ⟨inOrder, handedBack, -⟩ := ring_drained_in_order (m := twoBlocks)
    (Transition.reachesBy_of_run (fun _ _ _ _ _ => ⟨rfl, rfl⟩) ran)
  exact ⟨_, ran, rfl, rfl, rfl, handedBack, inOrder⟩

end Libpcap.Linux
