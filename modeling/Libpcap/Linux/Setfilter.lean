/-
# Filters that change during a capture

When the kernel takes a new filter, packets that passed the old one are still in the
ring. `pcap_setfilter_linux_mmap` counts the blocks that may hold such packets, and the
library runs the new filter on so many blocks before it leaves filtering to the kernel.

The count covers all blocks of the ring and the one that the kernel is filling. But a
filter that the kernel does not take leaves an old count as it is. When the blocks of
that count are read, the library stops to filter, although the kernel does not.
-/

import Libpcap.Linux.Drain

namespace Libpcap.Linux

open Libpcap.Semantics List

variable {π : Type} {m : Mode π} {s t : Capture π}

/-! ## Free slots -/

theorem goBack_advance {cc offset : Nat} (inside : offset < cc) :
    goBack cc (Capture.advance cc offset) = offset := by
  unfold goBack Capture.advance
  split <;> split <;> omega

theorem goBack_mod (m : Mode π) (n : Nat) : goBack m.cc ((n + 1) % m.cc) = n % m.cc := by
  rw [← advance_mod m.positive, goBack_advance (Nat.mod_lt n m.positive)]

/-- Walking backward stops at a slot that belongs to the library. -/
theorem countFree_lt {slots : Nat → Option (List π)} {n d : Nat} (steps : Nat)
    (filled : (slots (n % m.cc)).isSome) (ahead : 0 < d) :
    countFree slots m.cc steps ((n + d) % m.cc) < d := by
  induction steps generalizing d with
  | zero => exact ahead
  | succ steps ih =>
    obtain ⟨d, rfl⟩ : ∃ e, d = e + 1 := ⟨d - 1, by omega⟩
    rw [countFree, ← Nat.add_assoc, goBack_mod]
    split
    case isTrue free =>
      have farther : 0 < d := by
        refine Nat.pos_of_ne_zero fun zero => ?_
        rw [zero, Nat.add_zero, Option.isNone_iff_eq_none] at free
        rw [free] at filled
        exact absurd filled nofun
      exact Nat.succ_lt_succ (ih farther)
    case isFalse => exact Nat.succ_pos d

theorem countFree_le (slots : Nat → Option (List π)) (cc steps offset : Nat) :
    countFree slots cc steps offset ≤ steps := by
  induction steps generalizing offset with
  | zero => exact le_rfl
  | succ steps ih =>
    rw [countFree]
    split
    case isTrue => exact Nat.succ_le_succ (ih _)
    case isFalse => exact Nat.zero_le _

/-- The blocks that a new filter of the kernel makes the library filter. -/
def blocksCounted (m : Mode π) (s : Capture π) : Nat :=
  m.cc - (countFree s.slots m.cc m.cc (goBack m.cc s.offset) - 1)

/-- The slot of a block that was not handed back belongs to the library. -/
theorem Shared.filled (shared : Shared m s) {n : Nat} (above : s.released ≤ n)
    (below : n < s.blocks.length) : (s.slots (n % m.cc)).isSome := by
  have window := shared.window
  rw [shared.holds n above (by omega)]
  simpa using below

/-- The blocks that are counted include those of the ring, and the next one unless the ring is
full. -/
theorem Shared.le_blocksCounted (shared : Shared m s) :
    s.blocks.length ≤ s.released + blocksCounted m s ∧
      (s.released + blocksCounted m s ≤ s.blocks.length → s.blocks.length = s.released + m.cc) := by
  have positive := m.positive
  have behind := shared.behind
  have window := shared.window
  have back : goBack m.cc s.offset = (s.released + m.cc - 1) % m.cc := by
    have before := goBack_mod m (s.released + m.cc - 1)
    rwa [Nat.sub_add_cancel (by omega), Nat.add_mod_right, ← shared.offset] at before
  have bounded := countFree_le s.slots m.cc m.cc (goBack m.cc s.offset)
  unfold blocksCounted
  by_cases empty : s.blocks.length = s.released
  · omega
  by_cases full : s.blocks.length = s.released + m.cc
  · -- with a single slot, the walk comes back to it
    by_cases single : m.cc = 1
    · omega
    · have last := countFree_lt m.cc (shared.filled (n := s.released + m.cc - 2) (by omega)
        (by omega)) Nat.one_pos
      rw [show s.released + m.cc - 2 + 1 = s.released + m.cc - 1 by omega, ← back] at last
      omega
  · have stops := countFree_lt (d := s.released + m.cc - s.blocks.length) m.cc
      (shared.filled (n := s.blocks.length - 1) (by omega) (by omega)) (by omega)
    rw [show s.blocks.length - 1 + (s.released + m.cc - s.blocks.length) = s.released + m.cc - 1 by
      omega, ← back] at stops
    omega

/-! ## What the count promises -/

/-- The filter of the handle accepts a packet. -/
def FilterState.Passes (s : FilterState π) (p : π) : Prop := (s.fcode.all fun f => f p) = true

/-- The filter of the kernel is that of the handle, and it was applied to all packets of the ring
behind the blocks that the library still filters. -/
structure KernelFilters (s : Capture π) : Prop where
  attached : ∀ p, (s.attached.all fun f => f p) = true → s.Passes p
  blocks : ∀ n block, s.released + s.blocksToFilter ≤ n → s.blocks[n]? = some block →
    ∀ p ∈ block, s.Passes p
  opened : s.released + s.blocksToFilter ≤ s.blocks.length → ∀ p ∈ s.opened, s.Passes p

/-- Where the library is in the ring. -/
structure Walks (m : Mode π) (s : Capture π) : Prop where
  shared : Shared m s
  frames : m.blocks = false → s.current = none ∧ s.opened = []
  current : ∀ slot i, s.current = some (slot, i) →
    slot = s.offset ∧ s.released < s.blocks.length
  inner : ∀ max pkts toRead, s.pc = .inner max pkts toRead → s.current ≠ none
  full : s.blocks.length = s.released + m.cc → s.opened = []

/-- The library filters for good, or as long as it needs to; what it delivered passed. -/
structure Filters (s : Capture π) : Prop where
  counting : s.filterInUserland = false → s.blocksToFilter = 0
  filtered : (s.filterInUserland = true ∧ s.blocksToFilter = 0) ∨ KernelFilters s
  delivered : ∀ entry ∈ s.delivered, (entry.2.all fun f => f entry.1) = true

/-! ## The ring -/

section

variable (walks : Walks m s)
include walks

/-- What does not concern the ring may change. -/
theorem Walks.of_ring_eq (same : t.toRingState = s.toRingState)
    (pc : t.pc = s.pc ∨ ∀ max pkts toRead, t.pc ≠ .inner max pkts toRead) : Walks m t := by
  obtain ⟨ring, filters, breakLoop, pcT, delivered, call⟩ := t
  subst same
  obtain ⟨shared, frames, current, inner, full⟩ := walks
  refine ⟨⟨shared.1, shared.2, shared.3, shared.4, shared.5⟩, frames, current, ?_, full⟩
  rcases pc with rfl | outside
  · exact inner
  · exact fun max pkts toRead here => absurd here (outside max pkts toRead)

/-- The block at hand is handed back. -/
theorem Walks.release (more : s.released < s.blocks.length)
    (ring : t.toRingState = { (s.release m).toRingState with current := none })
    (outside : ∀ max pkts toRead, t.pc ≠ .inner max pkts toRead) : Walks m t := by
  obtain ⟨ringT, filters, breakLoop, pc, delivered, call⟩ := t
  subst ring
  have back := walks.shared.release more
  have window := walks.shared.window
  refine ⟨⟨back.1, back.2, back.3, back.4, back.5⟩, fun frames => ⟨rfl, (walks.frames frames).2⟩, nofun,
    fun max pkts toRead inner => absurd inner (outside max pkts toRead), fun full => ?_⟩
  change s.blocks.length = s.released + 1 + m.cc at full
  omega

/-- A packet is examined. -/
theorem Walks.examine (p : π) : Walks m (s.examine m p) := by
  obtain ⟨shared, frames, current, inner, full⟩ := walks
  exact ⟨⟨shared.1, shared.2, shared.3, shared.4, shared.5⟩, frames, current, inner, full⟩

/-- The slot at the offset holds the first block that was not handed back. -/
theorem Walks.found {block : List π} (slot : s.slots s.offset = some block) :
    s.blocks[s.released]? = some block ∧ s.released < s.blocks.length := by
  have found : s.blocks[s.released]? = some block := walks.shared.slot_eq.symm.trans slot
  exact ⟨found, (List.getElem?_eq_some_iff.mp found).1⟩

theorem Walks.turn (moved : turn m s = some t) : Walks m t := by
  cases turn_cases moved with
  | leave => exact walks.of_ring_eq rfl (.inr nofun)
  | @frame max pkts p frames here on slot =>
    refine (walks.examine p).release (walks.found slot).2 ?_ (checkBreak_outside _ _ _)
    rw [checkBreak_ring]
    exact RingState.current_none (walks.frames frames).1
  | resume blocks here on current =>
    obtain ⟨shared, frames, position, inner, full⟩ := walks
    refine ⟨⟨shared.1, shared.2, shared.3, shared.4, shared.5⟩, frames, position, ?_, full⟩
    exact fun _ _ _ _ nowhere => absurd (current.symm.trans nowhere) nofun
  | fetch blocks here on current slot =>
    have more := (walks.found slot).2
    obtain ⟨shared, frames, position, inner, full⟩ := walks
    refine ⟨⟨shared.1, shared.2, shared.3, shared.4, shared.5⟩,
      fun off => absurd (blocks.symm.trans off) nofun, ?_, fun _ _ _ _ => nofun, full⟩
    rintro _ _ ⟨⟩
    exact ⟨rfl, more⟩
  | corrupt =>
    obtain ⟨shared, frames, position, inner, full⟩ := walks
    exact ⟨⟨shared.1, shared.2, shared.3, shared.4, shared.5⟩,
      fun off => ⟨rfl, (frames off).2⟩, nofun, nofun, full⟩
  | packet here current found =>
    obtain ⟨shared, frames, position, inner, full⟩ := walks
    refine ⟨⟨shared.1, shared.2, shared.3, shared.4, shared.5⟩,
      fun off => absurd (frames off).1 (inner _ _ _ here), ?_, fun _ _ _ _ => nofun, full⟩
    rintro _ _ ⟨⟩
    exact position _ _ current
  | done here =>
    obtain ⟨⟨slot, i⟩, current⟩ := Option.ne_none_iff_exists'.mp (walks.inner _ _ _ here)
    refine walks.release (walks.current slot i current).2 ?_ (checkBreak_outside _ _ _)
    rw [checkBreak_ring]
  | pause => exact walks.of_ring_eq (checkBreak_ring _ _) (.inr (checkBreak_outside _ _ _))

/-- The kernel hands over a slot; the ring is then not full, or nothing is left open. -/
theorem Walks.handOver (free : (s.slots s.head).isNone) (block : List π)
    (ring : t.toRingState = { (s.handOver m block).toRingState with opened := [] })
    (pc : t.pc = s.pc) : Walks m t := by
  obtain ⟨ringT, filters, breakLoop, pcT, delivered, call⟩ := t
  subst ring pc
  have shared := walks.shared.handOver free block
  refine ⟨⟨shared.1, shared.2, shared.3, shared.4, shared.5⟩,
    fun frames => ⟨(walks.frames frames).1, rfl⟩, fun slot i here => ?_, walks.inner, fun _ => rfl⟩
  obtain ⟨atOffset, more⟩ := walks.current slot i here
  refine ⟨atOffset, ?_⟩
  change s.released < (s.blocks ++ [block]).length
  rw [length_append]
  exact Nat.lt_add_right _ more

theorem Walks.step {event : Event π} (moved : step m event s = some t) : Walks m t := by
  cases event with
  | enqueue p =>
    obtain ⟨-, free, ⟨blocks, rfl⟩ | ⟨frames, rfl⟩⟩ := enqueue_cases moved
    case inl =>
      obtain ⟨shared, frames, current, inner, full⟩ := walks
      refine ⟨⟨shared.1, shared.2, shared.3, shared.4, shared.5⟩,
        fun off => Bool.noConfusion (blocks.symm.trans off), current, inner, fun filled => ?_⟩
      exact absurd filled (shared.not_full (Option.isNone_iff_eq_none.mpr free)).ne
    case inr =>
      refine walks.handOver (Option.isNone_iff_eq_none.mpr free) [p] ?_ rfl
      simp [Capture.handOver, (walks.frames frames).2]
  | close =>
    obtain ⟨-, free, rfl⟩ := close_cases moved
    exact walks.handOver free s.opened rfl rfl
  | breakLoop =>
    cases moved
    exact walks.of_ring_eq rfl (.inl rfl)
  | setfilter filter how =>
    simp only [Linux.step] at moved
    split at moved
    case isTrue =>
      cases moved
      cases how
      all_goals exact walks.of_ring_eq rfl (.inl rfl)
    case isFalse => cases moved
  | read max wait =>
    obtain ⟨-, rfl | rfl | rfl | rfl⟩ := read_cases moved
    · exact walks.of_ring_eq rfl (.inr (by simp))
    · exact walks.of_ring_eq rfl (.inl rfl)
    · exact walks
    · exact walks.of_ring_eq rfl (.inl rfl)
  | turn => exact walks.turn moved

/-! ## Filters -/

end

/-- A packet that is delivered passed the filter of the library. -/
theorem handle_delivered {handler : Handler π} {filter : Option (π → Bool)} {p : π}
    (delivered : handler.handle filter p = .delivered) : (filter.all fun f => f p) = true := by
  unfold Handler.handle at delivered
  split at delivered
  case isTrue => cases delivered
  case isFalse =>
    split at delivered
    case isTrue => cases delivered
    case isFalse passes =>
      cases filter with
      | none => rfl
      | some f => simpa using passes

theorem KernelFilters.congr (kernel : KernelFilters s) (filters : t.toFilterState = s.toFilterState)
    (blocks : t.blocks = s.blocks) (released : t.released = s.released)
    (opened : t.opened = s.opened) : KernelFilters t := by
  obtain ⟨attached, passed, open'⟩ := kernel
  constructor
  · rwa [filters]
  · rwa [filters, blocks, released]
  · rwa [filters, blocks, released, opened]

/-- What does not concern filters may change. -/
theorem Filters.congr (filters : Filters s) (same : t.toFilterState = s.toFilterState)
    (blocks : t.blocks = s.blocks) (released : t.released = s.released)
    (opened : t.opened = s.opened) (delivered : t.delivered = s.delivered) : Filters t := by
  obtain ⟨counting, filtered, passed⟩ := filters
  refine ⟨by rwa [same], ?_, by rwa [delivered]⟩
  rcases filtered with always | kernel
  · exact .inl (by rwa [same])
  · exact .inr (kernel.congr same blocks released opened)

/-- A packet of the first block that was not handed back is examined. -/
theorem Filters.examine (filters : Filters s) {block : List π} {p : π}
    (found : s.blocks[s.released]? = some block) (listed : p ∈ block) :
    Filters (s.examine m p) := by
  obtain ⟨counting, filtered, passed⟩ := filters
  have passes : s.verdict m p = .delivered → s.Passes p := by
    intro delivered
    cases userland : s.filterInUserland with
    | true =>
      have accepted := handle_delivered delivered
      rwa [Capture.userFilter, if_pos userland] at accepted
    | false =>
      rcases filtered with always | kernel
      · exact absurd (userland.symm.trans always.1) nofun
      · refine kernel.blocks s.released block ?_ found p listed
        rw [counting userland, Nat.add_zero]
  refine ⟨counting, ?_, ?_⟩
  · rcases filtered with always | kernel
    · exact .inl always
    · exact .inr (kernel.congr rfl rfl rfl rfl)
  · intro entry within
    simp only [Capture.examine] at within
    split at within
    case isTrue delivered =>
      rcases mem_append.mp within with before | new
      · exact passed entry before
      · rw [mem_singleton.mp new]
        exact passes delivered
    case isFalse => exact passed entry within

/-- A block is handed back. -/
theorem Filters.release (filters : Filters s) : Filters (s.release m) := by
  obtain ⟨counting, filtered, passed⟩ := filters
  refine ⟨fun off => ?_, ?_, passed⟩
  · simp only [Capture.release] at off ⊢
    split at off
    case isTrue last => omega
    case isFalse =>
      have := counting off
      omega
  · rcases filtered with ⟨always, zero⟩ | kernel
    · refine .inl ⟨?_, ?_⟩
      · simp only [Capture.release, zero, always]
        rfl
      · simp only [Capture.release, zero]
    · refine .inr ⟨kernel.attached, fun n block above => kernel.blocks n block ?_,
        fun above => kernel.opened ?_⟩
      · simp only [Capture.release] at above
        omega
      · simp only [Capture.release] at above
        omega

/-- The kernel hands over a block of packets that it filtered. -/
theorem Filters.handOver (filters : Filters s) {block : List π}
    (passes : KernelFilters s → s.released + s.blocksToFilter ≤ s.blocks.length →
      ∀ p ∈ block, s.Passes p) : Filters { s.handOver m block with opened := [] } := by
  obtain ⟨counting, filtered, passed⟩ := filters
  refine ⟨counting, filtered.imp_right fun kernel => ⟨kernel.attached, ?_, nofun⟩, passed⟩
  · intro n other above found
    change (s.blocks ++ [block])[n]? = some other at found
    by_cases before : n < s.blocks.length
    · rw [getElem?_append_left before] at found
      exact kernel.blocks n other above found
    · rw [getElem?_append_right (not_lt.mp before), getElem?_singleton] at found
      split at found
      case isTrue last =>
        cases found
        exact passes kernel (above.trans (Nat.le_of_sub_eq_zero last))
      case isFalse => cases found

theorem Filters.enqueue {p : π} (filters : Filters s) (walks : Walks m s)
    (moved : enqueue m s p = some t) : Filters t := by
  obtain ⟨accepted, -, ⟨-, rfl⟩ | ⟨frames, rfl⟩⟩ := enqueue_cases moved
  case inl =>
    obtain ⟨counting, filtered, passed⟩ := filters
    refine ⟨counting, filtered.imp_right fun kernel => ?_, passed⟩
    refine ⟨kernel.attached, kernel.blocks, fun above q listed => ?_⟩
    rcases mem_append.mp listed with old | new
    · exact kernel.opened above q old
    · exact mem_singleton.mp new ▸ kernel.attached p accepted
  case inr =>
    have handed : Filters { s.handOver m [p] with opened := [] } :=
      filters.handOver fun kernel _ q listed =>
        mem_singleton.mp listed ▸ kernel.attached p accepted
    exact handed.congr rfl rfl rfl (walks.frames frames).2 rfl

/-- The library may change its filter, unless an old count would end the filtering. -/
def NoOldCount (event : Event π) (s : Capture π) : Bool :=
  match event with
  | .setfilter _ .fatal | .setfilter _ (.userland _) => s.blocksToFilter = 0
  | _ => true

theorem Filters.setfilter (filters : Filters s) (walks : Walks m s) {filter : π → Bool}
    {how : Attach} (fresh : NoOldCount (.setfilter filter how) s) :
    Filters (setfilter m s filter how) := by
  obtain ⟨counting, filtered, passed⟩ := filters
  cases how with
  | invalid => exact ⟨counting, filtered, passed⟩
  | fatal | userland detached => exact ⟨nofun, .inl ⟨rfl, of_decide_eq_true fresh⟩, passed⟩
  | kernel =>
    obtain ⟨counted, next⟩ := walks.shared.le_blocksCounted
    refine ⟨nofun, .inr ⟨fun p accepted => accepted, fun n block above found => ?_,
      fun above p listed => ?_⟩, passed⟩
    · obtain ⟨inside, -⟩ := List.getElem?_eq_some_iff.mp found
      exact absurd (counted.trans above) (not_le.mpr inside)
    · have nothing : s.opened = [] := walks.full (next above)
      exact absurd (nothing ▸ listed) not_mem_nil

theorem Filters.turn (filters : Filters s) (walks : Walks m s) (moved : turn m s = some t) :
    Filters t := by
  have unchanged : ∀ {u : Capture π} {pc : Pc}, Filters u → Filters (u.checkBreak pc) := by
    intro u pc filters
    unfold Capture.checkBreak
    split
    all_goals exact filters.congr rfl rfl rfl rfl rfl
  cases turn_cases moved with
  | leave | resume | fetch | corrupt => exact filters.congr rfl rfl rfl rfl rfl
  | frame frames here on slot =>
    exact unchanged (filters.examine (walks.found slot).1 mem_cons_self).release
  | @packet max pkts toRead slot i p here current found =>
    obtain ⟨block, filled, listed⟩ := Option.bind_eq_some_iff.mp found
    rw [(walks.current slot i current).1] at filled
    have examined : Filters (s.examine m p) :=
      filters.examine (walks.found filled).1 (mem_of_getElem? listed)
    exact examined.congr rfl rfl rfl rfl rfl
  | done =>
    have back : Filters (s.release m) := filters.release
    exact unchanged (back.congr rfl rfl rfl rfl rfl)
  | pause => exact unchanged filters

theorem Filters.step {event : Event π} (filters : Filters s) (walks : Walks m s)
    (fresh : NoOldCount event s) (moved : step m event s = some t) : Filters t := by
  cases event with
  | enqueue p => exact filters.enqueue walks moved
  | close =>
    obtain ⟨-, -, rfl⟩ := close_cases moved
    exact filters.handOver fun kernel above => kernel.opened above
  | breakLoop =>
    cases moved
    exact filters.congr rfl rfl rfl rfl rfl
  | setfilter filter how =>
    simp only [Linux.step] at moved
    split at moved
    case isTrue =>
      cases moved
      exact filters.setfilter walks fresh
    case isFalse => cases moved
  | read max wait =>
    obtain ⟨-, rfl | rfl | rfl | rfl⟩ := read_cases moved
    all_goals exact filters.congr rfl rfl rfl rfl rfl
  | turn => exact filters.turn walks moved

/-- What holds in every state. -/
structure Screens (m : Mode π) (s : Capture π) : Prop where
  walks : Walks m s
  filters : Filters s

theorem screens_of_reaches (path : (step m).ReachesBy (NoOldCount · ·) .start s) : Screens m s := by
  refine path.invariant (fun event source target screens fresh moved => ?_) ⟨?_, ?_⟩
  · exact ⟨screens.walks.step moved, screens.filters.step screens.walks fresh moved⟩
  · exact ⟨drains_start.shared, fun _ => ⟨rfl, rfl⟩, nofun, nofun, fun _ => rfl⟩
  · exact ⟨fun _ => rfl, .inr ⟨fun _ _ => rfl, nofun, nofun⟩, nofun⟩

/-- In every interleaving where a filter that the kernel does not take is set only when no count of
an earlier one is left, each packet that is delivered passes the filter of that time. -/
theorem delivered_pass_filter {m : Mode π} {s : Capture π}
    (path : (step m).ReachesBy (NoOldCount · ·) .start s) {p : π} {filter : π → Bool}
    (delivered : (p, some filter) ∈ s.delivered) : filter p = true :=
  (screens_of_reaches path).filters.delivered (p, some filter) delivered

/-- Two slots for frames. -/
def twoFrames : Mode Nat := ⟨2, false, ⟨fun _ => true, fun _ => true, fun _ => true⟩, Nat.two_pos⟩

/-- The kernel takes a filter with a packet in the ring, which is not delivered. -/
theorem delivered_pass_filter_kernel :
    ∃ s : Capture Nat, ∃ filter : Nat → Bool,
      (step twoFrames).runBy NoOldCount [.enqueue 1, .setfilter filter .kernel, .enqueue 2,
        .read 0 .ready, .turn, .turn, .turn] .start = some s ∧
      s.examined = [1, 2] ∧ s.delivered = [(2, some filter)] ∧ filter 2 = true := by
  have ran : (step twoFrames).runBy NoOldCount [.enqueue 1, .setfilter (fun n => n = 2) .kernel,
      .enqueue 2, .read 0 .ready, .turn, .turn, .turn] .start = some _ := rfl
  refine ⟨_, _, ran, rfl, rfl, ?_⟩
  exact delivered_pass_filter
    (Transition.reachesBy_of_runBy (fun _ _ fresh => fresh) ran) mem_cons_self

/-- The kernel takes a first filter but not the second one. After one packet the library does not
run the second filter any more, and delivers a packet that it rejects. -/
theorem rejected_packet_delivered :
    ∃ s : Capture Nat, ∃ filter : Nat → Bool,
      (step twoFrames).run [.setfilter (fun _ => true) .kernel, .setfilter filter (.userland true),
        .enqueue 1, .enqueue 2, .read 0 .ready, .turn, .turn, .turn] .start = some s ∧
      s.fcode = some filter ∧ (2, some filter) ∈ s.delivered ∧ filter 2 = false :=
  ⟨_, fun n => n = 1, rfl, rfl, mem_cons_of_mem _ mem_cons_self, rfl⟩

end Libpcap.Linux
