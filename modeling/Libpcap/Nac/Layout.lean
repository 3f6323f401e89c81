/-
# The parts of the buffer

`nac_inline_msu_configure` divides the buffer of a card among the streams and tells the
card, and each stream computes its part again when it is attached. The two agree on the
receive and the transmit stream in copy mode. In overlap mode the card is not told where
the part of the transmit stream ends, and the stream is not told where it begins. The
flow table gets the end of the buffer, where the transmit stream is in copy mode, and the
card is not told at all.
-/

import Libpcap.Nac.Stream
import Mathlib.Algebra.Group.Nat.Defs
import Mathlib.Order.CompletePartialOrder
import Mathlib.Order.Interval.Set.Disjoint

namespace Libpcap.Nac

open Libpcap.Semantics

/-! ## Agreement -/

/-- The registers of a stream by its number. -/
def registersOf (n : Nat) : Pbm :=
  if n < numStream then rxPbm n
  else if n < rftNum then txPbm (n - numStream)
  else rftPbm

namespace Card

variable (c : Card)

/-- The addresses that a stream uses. -/
def range (n : Nat) : Set Nat :=
  Set.Ico (c.stream n).phyaddr.toNat ((c.stream n).phyaddr.toNat + (c.stream n).size.toNat)

/-- The addresses of the buffer. -/
def buffer : Set Nat := Set.Ico c.phyAddr.toNat (c.phyAddr.toNat + c.bufSize.toNat)

/-- The registers of a stream hold the bounds of its part. -/
def Programmed (n : Nat) : Prop :=
  (c.regs (registersOf n).dmaBufStart).toNat = (c.stream n).phyaddr.toNat ∧
    (c.regs (registersOf n).dmaBufEnd).toNat =
      (c.stream n).phyaddr.toNat + (c.stream n).size.toNat

end Card

/-- The card and the program agree on the parts of the streams. -/
structure LayoutAgrees (c : Card) (flags : FwdType) (streams : List Nat) : Prop where
  programmed : ∀ n ∈ streams, c.Programmed n
  inside : ∀ n ∈ streams, c.range n ⊆ c.buffer
  disjoint : flags = .copyFwd → ∀ n ∈ streams, ∀ k ∈ streams, n ≠ k →
    Disjoint (c.range n) (c.range k)

/-- The streams are configured and attached, with or without that of the flow table. -/
def setUp (c : Card) (streams : Int) (flags : FwdType) (flowTable : Bool) : Option Card :=
  (nacInlineMsuConfigure c streams flags).map fun c =>
    let numbers := List.range streams.toNat
    let c := numbers.foldl (fun c n => (nacAttachStream c n 0 true).1) c
    let c := numbers.foldl (fun c n => (nacTxAttachStream c (n + numStream) flags 0 true).1) c
    if flowTable then (nacRftAttachStream c true).1 else c

/-- The numbers of the streams that are attached. -/
def attachedStreams (flowTable : Bool) : List Nat := [0, 1] ++ if flowTable then [rftNum] else []

/-! ## What is left behind -/

section Configured

variable (c : Card) (flags : FwdType)

/-- The card after the only stream of each kind was configured. -/
def configured : Card :=
  let size := streamSize c flags
  configureTx size flags (configureRx size c 0) 0

/-- One stream of each kind is the only number that is accepted. -/
theorem configure_eq {c after : Card} {flags : FwdType} {streams : Int} (opened : c.opened = true)
    (done : nacInlineMsuConfigure c streams flags = some after) :
    streams = 1 ∧ after = configured c flags := by
  unfold nacInlineMsuConfigure at done
  split at done
  case isTrue => cases done
  case isFalse accepted =>
    have one : streams = 1 := by
      simp only [numStream] at accepted
      omega
    subst one
    exact ⟨rfl, (Option.some.inj done).symm⟩

theorem configured_same :
    (configured c flags).opened = c.opened ∧ (configured c flags).phyAddr = c.phyAddr ∧
      (configured c flags).bufSize = c.bufSize := by
  cases flags <;> simp [configured, configureTx, configureRx, Card.regWrite, allocPbm]

theorem configured_stream_zero :
    (configured c flags).stream 0 =
      { c.stream 0 with pbm := some c.heap.next, size := streamSize c flags } := by
  cases flags <;> rfl

theorem configured_stream_one :
    (configured c flags).stream 1 =
      { c.stream 1 with pbm := some (c.heap.next + 1), size := streamSize c flags } := by
  cases flags <;> rfl

/-- The registers of the receive stream are programmed, those of the flow table are not. -/
theorem configured_regs :
    (configured c flags).regs 0x80004 = c.phyAddr ∧
      (configured c flags).regs 0x8000c = c.phyAddr + streamSize c flags ∧
      (configured c flags).regs 0x50304 = c.regs 0x50304 ∧
      (configured c flags).regs 0x5030c = c.regs 0x5030c := by
  cases flags <;>
    simp [configured, configureTx, configureRx, Card.regWrite, Card.pbmOf, allocPbm,
      Function.update, rxPbm, txPbm, numStream, Pool.alloc]

/-- In overlap mode the end of the transmit stream is not programmed. -/
theorem configured_regs_overlap :
    (configured c .overlapFwd).regs 0x80204 = c.phyAddr ∧
      (configured c .overlapFwd).regs 0x8020c = c.regs 0x8020c := by
  simp [configured, configureTx, configureRx, Card.regWrite, Card.pbmOf, allocPbm,
    Function.update, rxPbm, txPbm, numStream, Pool.alloc]

theorem configured_regs_copy :
    (configured c .copyFwd).regs 0x80204 = c.phyAddr + streamSize c .copyFwd ∧
      (configured c .copyFwd).regs 0x8020c =
        c.phyAddr + streamSize c .copyFwd + streamSize c .copyFwd := by
  simp [configured, configureTx, configureRx, Card.regWrite, Card.pbmOf, allocPbm,
    Function.update, rxPbm, txPbm, numStream, Pool.alloc]

end Configured

/-- The address and the size of a stream. -/
def CardStream.part (stream : CardStream) : BitVec 32 × BitVec 32 := (stream.phyaddr, stream.size)

/-- The card after `setUp`: its registers, and the parts that the streams use. -/
structure SetUp (c : Card) (flags : FwdType) (flowTable : Bool) (after : Card) : Prop where
  opened : after.opened = true
  phyAddr : after.phyAddr = c.phyAddr
  bufSize : after.bufSize = c.bufSize
  regs : after.regs = (configured c flags).regs
  rx : (after.stream 0).part = (c.phyAddr, streamSize c flags)
  tx : (after.stream 1).part =
    (if flags = .copyFwd then c.phyAddr + streamSize c flags else (c.stream 1).phyaddr,
      streamSize c flags)
  rft : flowTable = true → (after.stream 2).part =
    (c.phyAddr + 2 * ((c.bufSize - rftSize) / 2), rftSize)

section Attached

variable {c : Card} (opened : c.opened = true)

include opened

theorem nacAttachStream_mapped (n : Nat) :
    (nacAttachStream c n 0 true).1 =
      mapBuf c n (c.stream n).size (c.stream n).size
        (c.phyAddr + BitVec.ofNat 32 n * (c.stream n).size) := by
  simp [nacAttachStream, extraWindow, opened]

theorem nacTxAttachStream_copy :
    (nacTxAttachStream c 1 .copyFwd 0 true).1 =
      mapBuf c 1 (c.stream 1).size (c.stream 1).size (c.phyAddr + (c.stream 1).size) := by
  simp [nacTxAttachStream, extraWindow, opened, numStream]

theorem nacTxAttachStream_overlap :
    (nacTxAttachStream c 1 .overlapFwd 0 true).1 =
      c.setStream 1 fun stream =>
        { stream with extraWindowSize := stream.size, attached := true, started := false } := by
  simp [nacTxAttachStream, extraWindow, opened, numStream, Card.setStream]

theorem nacRftAttachStream_mapped :
    (nacRftAttachStream c true).1 =
      mapBuf (c.setStream 2 fun stream => { stream with size := rftSize }) 2 rftSize 0
        (c.phyAddr + 2 * ((c.bufSize - rftSize) / 2)) := by
  simp [nacRftAttachStream, sizeBesideTable, opened, rftNum, numStream]

/-- The receive and the transmit stream are attached. -/
theorem setUp_streams (flags : FwdType) :
    SetUp c flags false
      (nacTxAttachStream (nacAttachStream (configured c flags) 0 0 true).1 1 flags 0 true).1 := by
  obtain ⟨still, phyAddr, bufSize⟩ := configured_same c flags
  have rx := configured_stream_zero c flags
  have tx := configured_stream_one c flags
  rw [opened] at still
  generalize set : configured c flags = d at *
  rw [nacAttachStream_mapped still]
  cases flags with
  | copyFwd =>
    rw [nacTxAttachStream_copy (c := mapBuf d 0 _ _ _) still]
    refine ⟨still, phyAddr, bufSize, set ▸ rfl, ?_, ?_, nofun⟩
    · simp [mapBuf, CardStream.part, rx, phyAddr]
    · simp [mapBuf, CardStream.part, tx, phyAddr]
  | overlapFwd =>
    rw [nacTxAttachStream_overlap (c := mapBuf d 0 _ _ _) still]
    refine ⟨still, phyAddr, bufSize, set ▸ rfl, ?_, ?_, nofun⟩
    · simp [mapBuf, CardStream.part, Card.setStream, rx, phyAddr]
    · simp [mapBuf, CardStream.part, Card.setStream, tx]

end Attached

/-- The flow table is attached behind the others. -/
theorem SetUp.attachRft {c d : Card} {flags : FwdType} (both : SetUp c flags false d) :
    SetUp c flags true (nacRftAttachStream d true).1 := by
  obtain ⟨opened, phyAddr, bufSize, regs, rx, tx, -⟩ := both
  rw [nacRftAttachStream_mapped opened]
  refine ⟨opened, phyAddr, bufSize, regs, ?_, ?_, fun _ => ?_⟩
  · simpa [mapBuf, Card.setStream] using rx
  · simpa [mapBuf, Card.setStream] using tx
  · simp [mapBuf, Card.setStream, CardStream.part, phyAddr, bufSize]

theorem setUp_spec {c after : Card} (opened : c.opened = true) {streams : Int} {flags : FwdType}
    {flowTable : Bool} (done : setUp c streams flags flowTable = some after) :
    SetUp c flags flowTable after := by
  obtain ⟨configuredCard, ran, rfl⟩ := Option.map_eq_some_iff.mp done
  obtain ⟨rfl, rfl⟩ := configure_eq opened ran
  have both := setUp_streams opened flags
  change SetUp c flags flowTable (if flowTable then _ else _)
  cases flowTable with
  | false => exact both
  | true => exact both.attachRft

/-! ## When the card and the program agree -/

/-- What has to hold before the streams are set up. In overlap mode nothing that is missing may be
needed: the registers and the address of the transmit stream must already be right. -/
def LayoutCondition (c : Card) (flags : FwdType) (flowTable : Bool) : Prop :=
  match flags with
  | .copyFwd => flowTable = false ∧ c.phyAddr.toNat + c.bufSize.toNat / 2 * 2 < 2 ^ 32
  | .overlapFwd =>
    c.phyAddr.toNat + c.bufSize.toNat < 2 ^ 32 ∧
      (c.stream 1).phyaddr = c.phyAddr ∧
      (c.regs 0x8020c).toNat = c.phyAddr.toNat + c.bufSize.toNat ∧
      (flowTable = true →
        rftSize.toNat ≤ c.bufSize.toNat ∧
        (c.regs 0x50304).toNat =
          c.phyAddr.toNat + (c.bufSize.toNat - rftSize.toNat) / 2 * 2 ∧
        (c.regs 0x5030c).toNat =
          c.phyAddr.toNat + (c.bufSize.toNat - rftSize.toNat) / 2 * 2 + rftSize.toNat)

/-- A part is inside the buffer, unless it is empty, exactly if its bounds are. -/
theorem Ico_subset_iff (a n p b : Nat) :
    Set.Ico a (a + n) ⊆ Set.Ico p (p + b) ↔ n = 0 ∨ (p ≤ a ∧ a + n ≤ p + b) := by
  rcases Nat.eq_zero_or_pos n with rfl | positive
  · simp
  · rw [Set.Ico_subset_Ico_iff (by omega)]
    omega

theorem disjoint_Ico_iff (a n b k : Nat) :
    Disjoint (Set.Ico a (a + n)) (Set.Ico b (b + k)) ↔
      n = 0 ∨ k = 0 ∨ a + n ≤ b ∨ b + k ≤ a := by
  rw [Set.Ico_disjoint_Ico]
  omega

/-- The address of the flow table. -/
theorem rft_address (phy : BitVec 32) {size : BitVec 32} (large : rftSize.toNat ≤ size.toNat) :
    (phy + 2 * ((size - rftSize) / 2)).toNat =
      (phy.toNat + (size.toNat - rftSize.toNat) / 2 * 2) % 2 ^ 32 := by
  have below := size.isLt
  have literal : rftSize.toNat = 8388608 := rfl
  have two : (2 : BitVec 32).toNat = 2 := rfl
  have rest : (size - rftSize).toNat = size.toNat - rftSize.toNat := by
    rw [BitVec.toNat_sub]
    omega
  rw [BitVec.toNat_add, BitVec.toNat_mul, BitVec.toNat_udiv, rest, two]
  omega

/-- The agreement, stream by stream. -/
theorem layoutAgrees_iff (c : Card) (flags : FwdType) (flowTable : Bool) :
    LayoutAgrees c flags (attachedStreams flowTable) ↔
      (c.Programmed 0 ∧ c.Programmed 1 ∧ c.range 0 ⊆ c.buffer ∧ c.range 1 ⊆ c.buffer ∧
        (flags = .copyFwd → Disjoint (c.range 0) (c.range 1))) ∧
      (flowTable = true → c.Programmed 2 ∧ c.range 2 ⊆ c.buffer ∧
        (flags = .copyFwd → Disjoint (c.range 0) (c.range 2) ∧ Disjoint (c.range 1) (c.range 2))) := by
  constructor
  · rintro ⟨programmed, inside, disjoint⟩
    have zero : 0 ∈ attachedStreams flowTable := by simp [attachedStreams]
    have one : 1 ∈ attachedStreams flowTable := by simp [attachedStreams]
    refine ⟨⟨programmed 0 zero, programmed 1 one, inside 0 zero, inside 1 one,
      fun copy => disjoint copy 0 zero 1 one (by decide)⟩, fun attached => ?_⟩
    have two : 2 ∈ attachedStreams flowTable := by simp [attachedStreams, attached, rftNum, numStream]
    exact ⟨programmed 2 two, inside 2 two, fun copy => ⟨disjoint copy 0 zero 2 two (by decide),
      disjoint copy 1 one 2 two (by decide)⟩⟩
  · rintro ⟨⟨programmed0, programmed1, inside0, inside1, disjoint⟩, rft⟩
    have numbers : ∀ n ∈ attachedStreams flowTable, n = 0 ∨ n = 1 ∨ (n = 2 ∧ flowTable = true) := by
      intro n listed
      cases flowTable <;> simpa [attachedStreams, rftNum, numStream] using listed
    constructor
    case programmed =>
      intro n listed
      rcases numbers n listed with rfl | rfl | ⟨rfl, attached⟩
      · exact programmed0
      · exact programmed1
      · exact (rft attached).1
    case inside =>
      intro n listed
      rcases numbers n listed with rfl | rfl | ⟨rfl, attached⟩
      · exact inside0
      · exact inside1
      · exact (rft attached).2.1
    case disjoint =>
      intro copy n listed k listed' other
      rcases numbers n listed with rfl | rfl | ⟨rfl, attached⟩ <;>
        rcases numbers k listed' with rfl | rfl | ⟨rfl, attached'⟩
      · exact absurd rfl other
      · exact disjoint copy
      · exact ((rft attached').2.2 copy).1
      · exact (disjoint copy).symm
      · exact absurd rfl other
      · exact ((rft attached').2.2 copy).2
      · exact ((rft attached).2.2 copy).1.symm
      · exact ((rft attached).2.2 copy).2.symm
      · exact absurd rfl other

theorem toNat_add_eq_iff (a b : BitVec 32) :
    (a + b).toNat = a.toNat + b.toNat ↔ a.toNat + b.toNat < 2 ^ 32 := by
  rw [BitVec.toNat_add]
  omega

section Agree

variable {c after : Card} {flags : FwdType} {flowTable : Bool}

theorem SetUp.programmed_rx (up : SetUp c flags flowTable after) :
    after.Programmed 0 ↔ c.phyAddr.toNat + (streamSize c flags).toNat < 2 ^ 32 := by
  obtain ⟨start, bottom, -, -⟩ := configured_regs c flags
  obtain ⟨address, size⟩ := Prod.mk.inj up.rx
  change (after.regs 0x80004).toNat = _ ∧ (after.regs 0x8000c).toNat = _ ↔ _
  rw [up.regs, start, bottom, address, size, toNat_add_eq_iff]
  exact and_iff_right rfl

theorem SetUp.inside_rx (up : SetUp c flags flowTable after)
    (smaller : (streamSize c flags).toNat ≤ c.bufSize.toNat) : after.range 0 ⊆ after.buffer := by
  obtain ⟨address, size⟩ := Prod.mk.inj up.rx
  rw [Card.range, Card.buffer, Ico_subset_iff, up.phyAddr, up.bufSize, address, size]
  omega

theorem streamSize_copy (c : Card) : (streamSize c .copyFwd).toNat = c.bufSize.toNat / 2 := by
  rw [streamSize, BitVec.toNat_udiv]
  rfl

theorem streamSize_overlap (c : Card) : streamSize c .overlapFwd = c.bufSize := by
  apply BitVec.eq_of_toNat_eq
  rw [streamSize, BitVec.toNat_udiv]
  exact Nat.div_one _

/-- In copy mode the transmit stream is behind the receive stream. -/
theorem SetUp.tx_copy (up : SetUp c .copyFwd flowTable after)
    (fits : c.phyAddr.toNat + c.bufSize.toNat / 2 < 2 ^ 32) :
    (after.stream 1).phyaddr.toNat = c.phyAddr.toNat + c.bufSize.toNat / 2 ∧
      (after.stream 1).size.toNat = c.bufSize.toNat / 2 ∧
      (after.Programmed 1 ↔ c.phyAddr.toNat + c.bufSize.toNat / 2 * 2 < 2 ^ 32) := by
  have half := streamSize_copy c
  obtain ⟨start, bottom⟩ := configured_regs_copy c
  obtain ⟨address, size⟩ := Prod.mk.inj up.tx
  rw [if_pos rfl] at address
  have front : (c.phyAddr + streamSize c .copyFwd).toNat =
      c.phyAddr.toNat + c.bufSize.toNat / 2 := by
    rw [← half]
    exact (toNat_add_eq_iff _ _).mpr (by omega)
  refine ⟨by rw [address, front], by rw [size, half], ?_⟩
  change (after.regs 0x80204).toNat = _ ∧ (after.regs 0x8020c).toNat = _ ↔ _
  rw [up.regs, start, bottom, address, size, toNat_add_eq_iff, front, half]
  omega

theorem SetUp.agrees_copy (up : SetUp c .copyFwd flowTable after) :
    LayoutAgrees after .copyFwd (attachedStreams flowTable) ↔
      LayoutCondition c .copyFwd flowTable := by
  have half := streamSize_copy c
  have programmed := up.programmed_rx
  rw [half] at programmed
  obtain ⟨address, size⟩ := Prod.mk.inj up.rx
  rw [layoutAgrees_iff]
  constructor
  · rintro ⟨⟨programmed0, programmed1, -, -, -⟩, rft⟩
    have fits := programmed.mp programmed0
    obtain ⟨txAddress, txSize, txProgrammed⟩ := up.tx_copy fits
    have whole := txProgrammed.mp programmed1
    refine ⟨Bool.eq_false_iff.mpr fun attached => ?_, whole⟩
    -- the flow table is in the part of the transmit stream
    obtain ⟨-, inside, disjoint⟩ := rft attached
    obtain ⟨rftAddress, rftEnd⟩ := Prod.mk.inj (up.rft attached)
    have apart := (disjoint rfl).2
    have literal : rftSize.toNat = 8388608 := rfl
    rw [Card.range, Card.buffer, Ico_subset_iff, up.phyAddr, up.bufSize, rftEnd] at inside
    rw [Card.range, Card.range, disjoint_Ico_iff, txAddress, txSize, rftEnd] at apart
    have large : rftSize.toNat ≤ c.bufSize.toNat := by omega
    have place := rft_address c.phyAddr large
    rw [rftAddress, place] at inside apart
    omega
  · rintro ⟨rfl, whole⟩
    have fits : c.phyAddr.toNat + c.bufSize.toNat / 2 < 2 ^ 32 := by omega
    obtain ⟨txAddress, txSize, txProgrammed⟩ := up.tx_copy fits
    refine ⟨⟨programmed.mpr fits, txProgrammed.mpr whole, up.inside_rx (by omega), ?_,
      fun _ => ?_⟩, nofun⟩
    · rw [Card.range, Card.buffer, Ico_subset_iff, up.phyAddr, up.bufSize, txAddress, txSize]
      omega
    · rw [Card.range, Card.range, disjoint_Ico_iff, address, size, half, txAddress, txSize]
      omega

/-- In overlap mode the transmit stream has the address and the end that it had before. -/
theorem SetUp.tx_overlap (up : SetUp c .overlapFwd flowTable after) :
    (after.stream 1).phyaddr = (c.stream 1).phyaddr ∧ (after.stream 1).size = c.bufSize ∧
      (after.Programmed 1 ↔ (c.stream 1).phyaddr = c.phyAddr ∧
        (c.regs 0x8020c).toNat = c.phyAddr.toNat + c.bufSize.toNat) := by
  obtain ⟨start, bottom⟩ := configured_regs_overlap c
  obtain ⟨address, size⟩ := Prod.mk.inj up.tx
  rw [if_neg (by decide)] at address
  rw [streamSize_overlap] at size
  refine ⟨address, size, ?_⟩
  change (after.regs 0x80204).toNat = _ ∧ (after.regs 0x8020c).toNat = _ ↔ _
  rw [up.regs, start, bottom, address, size, BitVec.toNat_inj, eq_comm]
  refine and_congr_right fun same => ?_
  rw [same]

/-- The flow table has the registers that it had before. -/
theorem SetUp.rft_programmed (up : SetUp c flags true after)
    (large : rftSize.toNat ≤ c.bufSize.toNat)
    (fits : c.phyAddr.toNat + c.bufSize.toNat < 2 ^ 32) :
    (after.stream 2).phyaddr.toNat =
        c.phyAddr.toNat + (c.bufSize.toNat - rftSize.toNat) / 2 * 2 ∧
      (after.stream 2).size = rftSize ∧
      (after.Programmed 2 ↔
        (c.regs 0x50304).toNat = c.phyAddr.toNat + (c.bufSize.toNat - rftSize.toNat) / 2 * 2 ∧
        (c.regs 0x5030c).toNat =
          c.phyAddr.toNat + (c.bufSize.toNat - rftSize.toNat) / 2 * 2 + rftSize.toNat) := by
  obtain ⟨-, -, start, bottom⟩ := configured_regs c flags
  obtain ⟨address, size⟩ := Prod.mk.inj (up.rft rfl)
  have place := rft_address c.phyAddr large
  rw [Nat.mod_eq_of_lt (by omega)] at place
  refine ⟨by rw [address, place], size, ?_⟩
  change (after.regs 0x50304).toNat = _ ∧ (after.regs 0x5030c).toNat = _ ↔ _
  rw [up.regs, start, bottom, address, size, place]

theorem SetUp.agrees_overlap (up : SetUp c .overlapFwd flowTable after) :
    LayoutAgrees after .overlapFwd (attachedStreams flowTable) ↔
      LayoutCondition c .overlapFwd flowTable := by
  have all := streamSize_overlap c
  have programmed := up.programmed_rx
  obtain ⟨txAddress, txSize, txProgrammed⟩ := up.tx_overlap
  have literal : rftSize.toNat = 8388608 := rfl
  rw [all] at programmed
  rw [layoutAgrees_iff, programmed, txProgrammed]
  constructor
  · rintro ⟨⟨fits, ⟨same, bottom⟩, -, -, -⟩, rft⟩
    refine ⟨fits, same, bottom, ?_⟩
    rintro rfl
    obtain ⟨rftProgrammed, inside, -⟩ := rft rfl
    have size : (after.stream 2).size = rftSize := (Prod.mk.inj (up.rft rfl)).2
    rw [Card.range, Card.buffer, Ico_subset_iff, up.phyAddr, up.bufSize, size] at inside
    have large : rftSize.toNat ≤ c.bufSize.toNat := by omega
    exact ⟨large, (up.rft_programmed large fits).2.2.mp rftProgrammed⟩
  · rintro ⟨fits, same, bottom, rft⟩
    refine ⟨⟨fits, ⟨same, bottom⟩, up.inside_rx (by rw [all]), ?_, nofun⟩, ?_⟩
    · rw [Card.range, Card.buffer, Ico_subset_iff, up.phyAddr, up.bufSize, txAddress, txSize, same]
      omega
    · rintro rfl
      obtain ⟨large, registers⟩ := rft rfl
      obtain ⟨address, size, rftProgrammed⟩ := up.rft_programmed large fits
      refine ⟨rftProgrammed.mpr registers, ?_, nofun⟩
      rw [Card.range, Card.buffer, Ico_subset_iff, up.phyAddr, up.bufSize, address, size]
      omega

end Agree

/-- For every card, number of streams and mode, after the streams are configured and attached: the
registers of each stream hold the bounds of the part that the program uses, all parts are inside the
buffer, and they are disjoint in copy mode, if and only if the condition holds before. -/
theorem layout_agrees_iff {c after : Card} (opened : c.opened = true) {streams : Int}
    {flags : FwdType} {flowTable : Bool}
    (done : setUp c streams flags flowTable = some after) :
    LayoutAgrees after flags (attachedStreams flowTable) ↔ LayoutCondition c flags flowTable := by
  have up := setUp_spec opened done
  cases flags with
  | copyFwd => exact up.agrees_copy
  | overlapFwd => exact up.agrees_overlap

/-- A card with a buffer of 64 MB. -/
def largeCard : Card := openCard 0x10000000 0x4000000 fun _ => 0

/-- In copy mode without the flow table the card and the program agree. -/
theorem layout_agrees_copy :
    ∃ after, setUp largeCard 1 .copyFwd false = some after ∧
      LayoutAgrees after .copyFwd (attachedStreams false) := by
  have done : setUp largeCard 1 .copyFwd false = some _ := rfl
  exact ⟨_, done, (layout_agrees_iff rfl done).mpr ⟨rfl, by decide⟩⟩

/-- The transmit stream and the flow table use the last address of the buffer in copy mode, and the
start and the end of the transmit stream are not set in overlap mode. -/
theorem layout_disagrees :
    ∃ copied overlapped,
      setUp largeCard 1 .copyFwd true = some copied ∧
      setUp largeCard 1 .overlapFwd false = some overlapped ∧
      0x13ffffff ∈ copied.range 1 ∧ 0x13ffffff ∈ copied.range 2 ∧
      overlapped.regs (registersOf 1).dmaBufEnd = 0 ∧ (overlapped.stream 1).phyaddr = 0 ∧
      (overlapped.stream 1).size = 0x4000000 := by
  refine ⟨_, _, rfl, rfl, Set.mem_Ico.mpr ?_, Set.mem_Ico.mpr ?_, ?_, ?_, ?_⟩
  all_goals decide +kernel

end Libpcap.Nac
