/-
# The two ways to write into the transmit ring

A host that only copies, and one that only gets space and commits it, each keep the
invariant of the transmit ring with a margin of their own. In both cases the card sends the
committed bytes in their order, and nothing that it has yet to send is overwritten. A
pointer that the host gets leads to as many free bytes as it has asked for.

The offset of a host that commits may be the size of the ring, since it is only wrapped when
it is larger; the pointer then leads into the second mapping.
-/

import Libpcap.Nac.Transmit

namespace Libpcap.Nac

open Libpcap.Semantics Libpcap.Semantics.Ring

variable {orig : List Byte} {n : Nat}

namespace TxStream

variable {stream : TxStream} {offset i : Nat}

theorem mod_of_size_le (more : stream.size ≤ offset) :
    (offset - stream.size) % stream.size = offset % stream.size :=
  (Nat.mod_eq_sub_mod more).symm

/-- Two calls of `memcpy` go around the ring. -/
theorem copyCell_eq (within : offset ≤ stream.size) (less : i < stream.size) :
    stream.copyCell offset i = (offset + i) % stream.size := by
  unfold copyCell
  split
  · rw [Nat.mod_eq_of_lt (by omega)]
  · rw [← mod_of_size_le (by omega), Nat.mod_eq_of_lt (by omega)]
    omega

theorem wrapCopied_lt (less : offset < stream.size + stream.size) :
    stream.wrapCopied offset < stream.size := by
  unfold wrapCopied
  split <;> omega

theorem wrapCopied_mod : stream.wrapCopied offset % stream.size = offset % stream.size := by
  unfold wrapCopied
  split
  · rename_i more
    exact mod_of_size_le more
  · rfl

theorem wrapCommitted_le (within : offset ≤ stream.size + stream.size) :
    stream.wrapCommitted offset ≤ stream.size := by
  unfold wrapCommitted
  split <;> omega

theorem wrapCommitted_mod : stream.wrapCommitted offset % stream.size = offset % stream.size := by
  unfold wrapCommitted
  split
  · rename_i more
    exact mod_of_size_le more.le
  · rfl

end TxStream

/-- The card has sent the first of the committed bytes, and finds the others between its
pointers. -/
structure TxState.Faithful (stream : TxStream) (s : TxState) : Prop where
  sends : s.took <+: s.sent
  unsent : Holds stream.size s.buf (itemsOf s.sent) s.took.length s.sent.length
  between : distance stream.size s.record s.limit = s.sent.length - s.took.length

theorem TxState.Inv.faithful {stream : TxStream} {slack surplus : Nat} {s : TxState}
    (inv : s.Inv stream slack surplus) (positive : 0 < slack + surplus) : s.Faithful stream :=
  ⟨inv.sends, inv.unsent, inv.distance_eq positive⟩

/-! ## Copying -/

/-- The events of the card and of a host that only copies. -/
def TxEvent.Copying : TxEvent → Prop
  | .getSpace _ | .write _ _ | .commitBytes _ => False
  | _ => True

/-- Where a host that only copies may be. -/
def TxPhase.Copying : TxPhase → Prop
  | .spaceWaiting _ | .granted _ => False
  | _ => True

/-- The invariant of a ring that is only copied to. -/
structure TxState.CopyInv (stream : TxStream) (s : TxState) : Prop
    extends s.Inv stream safetyWindow 0 where
  below : s.offset < stream.size
  path : s.phase.Copying

namespace TxState.CopyInv

variable {stream : TxStream} {s target : TxState}

theorem start (stream : TxStream) (cells : Nat → Byte) : (TxStream.start cells).CopyInv stream :=
  { Inv.start stream safetyWindow 0 cells with
    below := stream.size_pos
    path := trivial }

variable (inv : s.CopyInv stream)
include inv

theorem poll (phase : s.phase = .copyWaiting orig) :
    CopyInv stream { s with freeSpace := copyFree stream.size s.record s.limit } := by
  have unreserved : s.phase.reserved = 0 := by rw [phase]; rfl
  have unsent := inv.distance_eq (by decide)
  have room := inv.room
  have bounded := copyFree_le stream.size_lt inv.record_lt (inv.limit ▸ inv.below)
    (by rw [unsent]; rw [unreserved] at room; exact room)
  rw [unsent] at bounded
  exact
    { inv.toInv.poll (by rw [phase]; rfl) unreserved bounded with
      below := inv.below
      path := inv.path }

theorem proceed (phase : s.phase = .copyWaiting orig)
    (enough : int32 orig.length ≤ s.freeSpace) :
    CopyInv stream
      { s with
        freeSpace := int32 (s.freeSpace - orig.length)
        phase := .copying orig 0 } := by
  have asked := inv.asked
  rw [phase] at asked
  change orig.length ≤ stream.size at asked
  have size_lt := stream.size_lt
  rw [int32_eq (by omega) (by omega)] at enough
  exact
    { inv.toInv.reserve (.copying orig 0) orig.length (by rw [phase]; rfl) (by rw [phase]; rfl) rfl rfl rfl
        (by omega) with
      below := inv.below
      path := trivial }

theorem copyByte {done : Nat} (phase : s.phase = .copying orig done)
    (more : done < orig.length) :
    CopyInv stream
      { s with
        buf := Function.update s.buf (stream.copyCell s.offset done) orig[done]
        phase := .copying orig (done + 1) } := by
  have room := inv.room
  rw [phase] at room
  simp only [TxPhase.reserved] at room
  rw [TxStream.copyCell_eq inv.within (by omega)]
  exact
    { inv.toInv.copyByte phase more with
      below := inv.below
      path := trivial }

theorem publish (phase : s.phase = .copying orig orig.length) :
    (TxStream.publish (stream.wrapCopied (s.offset + orig.length)) orig s).CopyInv stream := by
  have below := inv.below
  have room := inv.room
  have holds := inv.holds
  rw [phase] at room holds
  simp only [TxPhase.reserved, TxPhase.staged, List.take_length] at room holds
  have wrapped : stream.wrapCopied (s.offset + orig.length) < stream.size :=
    TxStream.wrapCopied_lt (by omega)
  exact
    { inv.toInv.publish (by rw [phase]; rfl) wrapped.le TxStream.wrapCopied_mod holds with
      below := wrapped
      path := trivial }

theorem step {event : TxEvent} (copying : event.Copying)
    (moved : stream.step event s = some target) : target.CopyInv stream := by
  cases TxStream.move_of_step moved with
  | rejected => exact inv
  | send enough =>
    exact
      { inv.toInv.send (by decide) enough with
        below := inv.below
        path := inv.path }
  | copyWaits idle fits =>
    exact
      { inv.toInv.wait (.copyWaiting _) (by rw [idle]; rfl) (by rw [idle]; rfl) rfl fits rfl with
        below := inv.below
        path := trivial }
  | copyPolls phase => exact inv.poll phase
  | copyProceeds phase enough => exact inv.proceed phase enough
  | copyByte phase more => exact inv.copyByte phase more
  | publish phase => exact inv.publish phase
  | spacePolls phase | spaceProceeds phase =>
    have path := inv.path
    rw [phase] at path
    exact path.elim
  | spaceWaits | write | commit => exact copying.elim

end TxState.CopyInv

/-- Whatever the host copies and however the card and the host take turns, the card sends
the copied buffers one behind the other, and no byte that it has yet to send is
overwritten. -/
theorem copying_transmit_faithful (stream : TxStream) (cells : Nat → Byte) (s : TxState)
    (path : stream.step.ReachesBy (fun event _ => event.Copying) (TxStream.start cells) s) :
    s.Faithful stream := by
  have inv : s.CopyInv stream :=
    path.invariant (fun _ _ _ inv copying moved => inv.step copying moved) (.start stream cells)
  exact inv.toInv.faithful (by decide)

/-- A ring of two pages. -/
def twoPages : MappedStream where
  size := 8192
  size_pos := by decide
  size_lt := by decide
  pages := by decide

/-- A buffer of three bytes is copied, and the card sends two of them. -/
theorem copying_transmit_faithful_three :
    ∃ s : TxState, twoPages.step.ReachesBy (fun event _ => event.Copying)
        (TxStream.start fun _ => 0) s ∧
      s.took = [1, 2] ∧ s.sent = [1, 2, 3] ∧ s.Faithful twoPages.toTxStream := by
  have ran : (twoPages.step.run [.copyBytes [1, 2, 3], .poll, .proceed, .copyByte, .copyByte,
      .copyByte, .publish, .send 2] (TxStream.start fun _ => 0)).map
        (fun s => (s.took, s.sent)) = some ([1, 2], [1, 2, 3]) := by
    decide +kernel
  obtain ⟨s, ran, shown⟩ := Option.map_eq_some_iff.mp ran
  have reached : twoPages.step.ReachesBy (fun event _ => event.Copying) _ s :=
    Transition.reachesBy_of_run (by simp [TxEvent.Copying]) ran
  exact ⟨s, reached, congrArg Prod.fst shown, congrArg Prod.snd shown,
    copying_transmit_faithful _ _ s reached⟩

/-! ## Getting space and committing it -/

/-- The events of the card and of a host that gets space, no more than the ring has, and
commits as much as it has got. For a size of 0 it has got nothing. -/
def TxStream.Committing (stream : TxStream) : TxEvent → TxState → Prop
  | .copyBytes _, _ => False
  | .getSpace n, _ => n ≤ stream.size
  | .commitBytes n, s => s.phase = .granted n ∨ s.phase = .idle ∧ n = 0
  | _, _ => True

/-- Where such a host may be. -/
def TxPhase.Committing : TxPhase → Prop
  | .copyWaiting _ | .copying _ _ => False
  | _ => True

/-- The invariant of a ring in which space is committed. -/
structure TxState.SpaceInv (stream : MappedStream) (s : TxState) : Prop
    extends s.Inv stream.toTxStream 0 2048 where
  path : s.phase.Committing

namespace TxState.SpaceInv

variable {stream : MappedStream} {s target : TxState}

theorem start (stream : MappedStream) (cells : Nat → Byte) :
    (TxStream.start cells).SpaceInv stream :=
  { Inv.start stream.toTxStream 0 2048 cells with path := trivial }

variable (inv : s.SpaceInv stream)
include inv

/-- No host of this kind has copied anything. -/
theorem staged : s.phase.staged = [] := by
  have path := inv.path
  cases phase : s.phase with
  | copying orig done =>
    rw [phase] at path
    exact path.elim
  | idle | copyWaiting | spaceWaiting | granted => rfl

theorem poll (phase : s.phase = .spaceWaiting n) :
    SpaceInv stream { s with freeSpace := spaceFree stream.size s.record s.limit } := by
  have bounded := spaceFree_le stream.size_lt inv.record_lt (inv.limit ▸ inv.within)
  rw [inv.distance_eq (by decide)] at bounded
  exact
    { inv.toInv.poll inv.staged (by rw [phase]; rfl) (by omega) with
      path := inv.path }

/-- A ring of whole pages leaves enough below `2^31` for the surplus. -/
theorem proceed (phase : s.phase = .spaceWaiting n)
    (enough : spaceNeed n ≤ s.freeSpace) :
    SpaceInv stream { s with freeSpace := int32 (s.freeSpace - n), phase := .granted n } := by
  have asked := inv.asked
  rw [phase] at asked
  change n ≤ stream.size at asked
  have size_lt := stream.size_lt
  have pages := stream.pages
  rw [spaceNeed_eq (by omega)] at enough
  exact
    { inv.toInv.reserve (.granted n) n inv.staged (by rw [phase]; rfl) rfl rfl rfl enough with
      path := trivial }

theorem write {i : Nat} {item : Byte} (phase : s.phase = .granted n)
    (within : i < n) :
    SpaceInv stream
      { s with buf := Function.update s.buf ((s.offset + i) % stream.size) item } :=
  { inv.toInv.write item inv.staged (by rw [phase]; exact within) with
    path := inv.path }

/-- The bytes that are committed are those that are in the ring. -/
theorem holds_commit (n : Nat) :
    Holds stream.size s.buf (itemsOf (s.sent ++ bytesAt (stream.view s) s.offset n))
      s.took.length (s.sent.length + n) := by
  intro i above below
  by_cases old : i < s.sent.length
  · rw [itemsOf_append_left _ old]
    exact inv.unsent i above old
  · have cell : (s.offset + (i - s.sent.length)) % stream.size = i % stream.size := by
      have moved : s.sent.length + (i - s.sent.length) = i := by omega
      rw [← Nat.mod_add_mod, inv.same, Nat.mod_add_mod, moved]
    have less : i - s.sent.length < n := by omega
    rw [itemsOf_append_right _ _ (by omega)]
    simp [itemsOf, bytesAt, less, TxStream.view, cell]

theorem commit (takes : s.phase.reserved = n) (fits : n ≤ stream.size) :
    (TxStream.publish (stream.wrapCommitted (s.offset + n))
      (bytesAt (stream.view s) s.offset n) s).SpaceInv stream := by
  have within := inv.within
  have length := length_bytesAt (stream.view s) s.offset n
  exact
    { inv.toInv.publish (by rw [length]; exact takes) (TxStream.wrapCommitted_le (by omega))
        (by rw [length]; exact TxStream.wrapCommitted_mod)
        (by rw [length]; exact inv.holds_commit n) with
      path := trivial }

theorem step {event : TxEvent}
    (committing : stream.Committing event s)
    (moved : stream.step event s = some target) : target.SpaceInv stream := by
  cases TxStream.move_of_step moved with
  | rejected => exact inv
  | send enough =>
    exact { inv.toInv.send (by decide) enough with path := inv.path }
  | spaceWaits idle small =>
    exact
      { inv.toInv.wait (.spaceWaiting _) inv.staged (by rw [idle]; rfl) rfl committing rfl with
        path := trivial }
  | spacePolls phase => exact inv.poll phase
  | spaceProceeds phase enough => exact inv.proceed phase enough
  | write phase within => exact inv.write phase within
  | commit phase fits =>
    refine inv.commit ?_ fits
    rcases committing with granted | ⟨idle, none⟩
    · rw [granted]
      rfl
    · rw [idle, none]
      rfl
  | copyPolls phase | copyProceeds phase | copyByte phase | publish phase =>
    have path := inv.path
    rw [phase] at path
    exact path.elim
  | copyWaits => exact committing.elim

/-- The space that has been handed out is in the two mappings, and none of its bytes is one
that the card has yet to send. -/
theorem granted (phase : s.phase = .granted n) :
    s.offset + n ≤ stream.size + stream.size ∧
      ∀ i < n, ∀ number, s.took.length ≤ number → number < s.sent.length →
        (s.offset + i) % stream.size ≠ number % stream.size := by
  have within := inv.within
  have order := inv.order
  have room := inv.room
  have used : s.used = s.sent.length - s.took.length := rfl
  rw [phase] at room
  simp only [TxPhase.reserved] at room
  refine ⟨by omega, fun i less number above below same => ?_⟩
  have cell : (s.offset + i) % stream.size = (s.sent.length + i) % stream.size :=
    Nat.ModEq.add_right i inv.same
  have apart : stream.size ∣ s.sent.length + i - number :=
    (Nat.modEq_iff_dvd' (by omega)).mp (same.symm.trans cell)
  have := Nat.le_of_dvd (by omega) apart
  omega

end TxState.SpaceInv

/-- However the card and a host that commits what it gets take turns, what the host gets is
free space in the two mappings, and the card sends the committed bytes in their order. -/
theorem granted_space_free (stream : MappedStream) (cells : Nat → Byte) (s : TxState)
    (path : stream.step.ReachesBy stream.Committing (TxStream.start cells) s) :
    (∀ n, s.phase = .granted n →
      s.offset + n ≤ stream.size + stream.size ∧
        ∀ i < n, ∀ number, s.took.length ≤ number → number < s.sent.length →
          (s.offset + i) % stream.size ≠ number % stream.size) ∧
      s.Faithful stream.toTxStream := by
  have inv : s.SpaceInv stream :=
    path.invariant (fun _ _ _ inv committing moved => inv.step committing moved)
      (.start stream cells)
  exact ⟨fun _ phase => inv.granted phase, inv.toInv.faithful (by decide)⟩

/-- The host commits two bytes and gets space for three, and the card sends one. -/
theorem granted_space_free_three :
    ∃ s : TxState, twoPages.step.ReachesBy twoPages.Committing (TxStream.start fun _ => 0) s ∧
      s.phase = .granted 3 ∧ s.took = [7] ∧ s.sent = [7, 8] ∧
      s.offset + 3 ≤ twoPages.size + twoPages.size ∧ s.Faithful twoPages.toTxStream := by
  have ran : ((twoPages.step.run [.getSpace 2, .poll, .proceed, .write 0 7, .write 1 8]
      (TxStream.start fun _ => 0)).bind fun s =>
        (twoPages.step (.commitBytes 2) s).bind fun t =>
          (twoPages.step.run [.getSpace 3, .proceed, .send 1] t).map fun u =>
            (s.phase, u.phase, u.took, u.sent)) =
      some (.granted 2, .granted 3, [7], [7, 8]) := by
    decide +kernel
  obtain ⟨s, first, ran⟩ := Option.bind_eq_some_iff.mp ran
  obtain ⟨t, commits, ran⟩ := Option.bind_eq_some_iff.mp ran
  obtain ⟨u, second, shown⟩ := Option.map_eq_some_iff.mp ran
  obtain ⟨granted, phase, took, sent⟩ : s.phase = .granted 2 ∧ u.phase = .granted 3 ∧
      u.took = [7] ∧ u.sent = [7, 8] := by
    simpa using shown
  have early : twoPages.step.ReachesBy twoPages.Committing _ s :=
    Transition.reachesBy_of_run (by simp [TxStream.Committing, twoPages]) first
  have late : twoPages.step.ReachesBy twoPages.Committing t u :=
    Transition.reachesBy_of_run (by simp [TxStream.Committing, twoPages]) second
  have admits : twoPages.Committing (.commitBytes 2) s := Or.inl granted
  have reached : twoPages.step.ReachesBy twoPages.Committing _ u :=
    Relation.ReflTransGen.trans (early.tail admits commits) late
  have free := granted_space_free twoPages _ u reached
  exact ⟨u, reached, phase, took, sent, (free.1 3 phase).1, free.2⟩

end Libpcap.Nac
