/-
# Reading packets from the card

`qnf_read` of `pcap-gap16g.c` asks `nac_advance_stream` for a window of the receive ring
and walks over the records in it: a header of 16 bytes, which gives the length `rlen` of
the record and the length `wlen` of the packet on the wire, and the bytes of the packet.

The loop takes the length of a step from the record. Its progress depends on what the
card has written, and what it hands to the callback is compared with what the records
say.
-/

import Libpcap.Nac.Records
import Libpcap.Semantics.StepSystem

namespace Libpcap.Nac

open Libpcap.Semantics Libpcap.Semantics.Ring

/-! ## Packets -/

/-- What the callback is handed: the lengths in the packet header and the data, which
begin at some address. -/
structure Handed where
  data : Nat
  len : Nat
  caplen : Nat
  contents : List Byte
  deriving DecidableEq, Repr

/-- What the loop uses of a handle: the snapshot length, an `int`, and the verdict of the
filter on a length on the wire and the captured bytes. -/
structure Qnf where
  snapshot : BitVec 32
  passes : Nat → List Byte → Bool

/-- The body of the packet loop for a record: the packet is handed over, or not. The
snapshot length is compared as an unsigned number. -/
def Qnf.hand (p : Qnf) (data len caplen : Nat) (contents : List Byte) : Option Handed :=
  if p.snapshot.toNat < len then none
  else if p.passes len contents then some ⟨data, len, caplen, contents⟩
  else none

/-! ## The packet loop -/

/-- The two conditions under which the loop goes on with the record at an address. -/
def Complete (bytes : Nat → Byte) (top address : Nat) : Prop :=
  address + nacRecordLen < top ∧ address + rlenAt bytes address ≤ top

instance (bytes : Nat → Byte) (top address : Nat) : Decidable (Complete bytes top address) :=
  inferInstanceAs (Decidable (_ ∧ _))

/-- The window between the two pointers of the handle. -/
structure Window where
  bytes : Nat → Byte
  bottom : Nat
  top : Nat
  top_lt : top < 2 ^ 64

/-- The state of the loop. -/
structure Walk where
  bottom : Nat
  processed : BitVec 64
  handed : List Handed

/-- The packet that the loop hands over for the record at an address. -/
def Qnf.packetAt (p : Qnf) (bytes : Nat → Byte) (address : Nat) : Option Handed :=
  p.hand (address + nacRecordLen) (wlenAt bytes address) (rlenAt bytes address)
    (bytesAt bytes (address + nacRecordLen) (rlenAt bytes address))

/-- The walk behind a record. -/
def Walk.pass (walk : Walk) (rlen : Nat) (packet : Option Handed) : Walk where
  bottom := walk.bottom + rlen
  processed := walk.processed + if packet.isSome then 1 else 0
  handed := walk.handed ++ packet.toList

/-- One iteration. The loop ends with the value that `qnf_read` returns, an `int`, and
with the bottom pointer where it is then. -/
def Qnf.iterate (p : Qnf) (w : Window) (cnt : BitVec 32) : Step Walk (BitVec 32 × Walk) :=
  fun walk =>
    if Complete w.bytes w.top walk.bottom then
      let walk := walk.pass (rlenAt w.bytes walk.bottom) (p.packetAt w.bytes walk.bottom)
      if walk.processed = cnt.signExtend 64 then .stop (cnt, walk) else .go walk
    else .stop (walk.processed.setWidth 32, walk)

/-- The loop begins at the bottom of the window. -/
def Window.walk (w : Window) : Walk := ⟨w.bottom, 0, []⟩

/-! ## Progress -/

/-- The records that a walk over the window comes to. -/
inductive Window.Met (w : Window) : Nat → Prop
  | first : w.Met w.bottom
  | next {address : Nat} (met : w.Met address) (complete : Complete w.bytes w.top address) :
      w.Met (address + rlenAt w.bytes address)

section Progress

variable {p : Qnf} {w : Window} {cnt : BitVec 32} {walk target : Walk}

/-- What an iteration that goes on has done. -/
theorem iterate_go (moved : p.iterate w cnt walk = .go target) :
    Complete w.bytes w.top walk.bottom ∧
      target = walk.pass (rlenAt w.bytes walk.bottom) (p.packetAt w.bytes walk.bottom) := by
  unfold Qnf.iterate at moved
  split at moved
  · rename_i complete
    dsimp only at moved
    split at moved
    · cases moved
    · cases moved
      exact ⟨complete, rfl⟩
  · cases moved

theorem iterate_of_complete (complete : Complete w.bytes w.top walk.bottom)
    (more : (walk.pass (rlenAt w.bytes walk.bottom) (p.packetAt w.bytes walk.bottom)).processed ≠
      cnt.signExtend 64) :
    p.iterate w cnt walk =
      .go (walk.pass (rlenAt w.bytes walk.bottom) (p.packetAt w.bytes walk.bottom)) := by
  rw [Qnf.iterate, if_pos complete]
  exact if_neg more

/-- An iteration goes from one record that the walk comes to to the next. -/
theorem met_of_go (walk target : Walk) (met : w.Met walk.bottom)
    (moved : p.iterate w cnt walk = .go target) : w.Met target.bottom := by
  obtain ⟨complete, rfl⟩ := iterate_go moved
  exact met.next complete

theorem met_of_reaches (reached : (p.iterate w cnt).Reaches w.walk walk) : w.Met walk.bottom :=
  reached.invariant met_of_go Window.Met.first

/-- If the records are long enough, then the loop ends. -/
theorem iterate_stops
    (long : ∀ address, w.Met address → Complete w.bytes w.top address →
      nacRecordLen ≤ rlenAt w.bytes address) :
    ∃ result, (p.iterate w cnt).Stops w.walk result := by
  have shorter : ∀ source target : Walk, w.Met source.bottom →
      p.iterate w cnt source = .go target → w.top - target.bottom < w.top - source.bottom := by
    intro source target met moved
    obtain ⟨complete, rfl⟩ := iterate_go moved
    have least := long _ met complete
    obtain ⟨more, fits⟩ := complete
    change w.top - (source.bottom + rlenAt w.bytes source.bottom) < w.top - source.bottom
    simp only [nacRecordLen] at least
    omega
  obtain ⟨result, ran⟩ := Step.runFor_stops_of_measure (fun walk : Walk => w.top - walk.bottom)
    met_of_go shorter (show w.Met w.walk.bottom from Window.Met.first) (Nat.lt_succ_self _)
  exact ⟨result, Step.stops_iff_runFor.mpr ⟨_, ran⟩⟩

/-- A loop that makes progress, without a count, comes to every record of the walk. It has
handed over no more packets than it has passed records. -/
theorem exists_reaches_of_met {address : Nat}
    (progress : ∀ walk, (p.iterate w (-1)).Reaches w.walk walk →
      Complete w.bytes w.top walk.bottom → nacRecordLen ≤ rlenAt w.bytes walk.bottom)
    (met : w.Met address) :
    ∃ walk, (p.iterate w (-1)).Reaches w.walk walk ∧ walk.bottom = address ∧
      w.bottom + 16 * walk.processed.toNat ≤ address := by
  induction met with
  | first => exact ⟨w.walk, .refl _, rfl, le_rfl⟩
  | @next address met complete ih =>
    obtain ⟨walk, reached, rfl, count⟩ := ih
    have least := progress walk reached complete
    have inside := complete.2
    have small := w.top_lt
    simp only [nacRecordLen] at least
    have counted : (walk.pass (rlenAt w.bytes walk.bottom)
        (p.packetAt w.bytes walk.bottom)).processed.toNat ≤ walk.processed.toNat + 1 := by
      have step : ∀ one : BitVec 64, one.toNat ≤ 1 →
          (walk.processed + one).toNat ≤ walk.processed.toNat + 1 := by
        intro one most
        rw [BitVec.toNat_add]
        exact (Nat.mod_le _ _).trans (Nat.add_le_add_left most _)
      exact step _ (by split <;> decide)
    have unlimited : (walk.pass (rlenAt w.bytes walk.bottom)
        (p.packetAt w.bytes walk.bottom)).processed ≠ (-1 : BitVec 32).signExtend 64 := by
      intro last
      rw [last] at counted
      have whole : ((-1 : BitVec 32).signExtend 64).toNat = 2 ^ 64 - 1 := by decide
      omega
    have go := iterate_of_complete complete unlimited
    refine ⟨_, reached.trans (.single go), rfl, ?_⟩
    omega

/-- **Progress of the packet loop.** The loop of `qnf_read` ends for every count, and each of
its iterations moves the bottom pointer by at least a record header and not beyond the top,
exactly if every complete record that a walk over the window comes to has a length of at
least 16. -/
theorem packet_loop_progress_iff (p : Qnf) (w : Window) :
    ((∀ cnt, ∃ result, (p.iterate w cnt).Stops w.walk result) ∧
        ∀ cnt walk, (p.iterate w cnt).Reaches w.walk walk → Complete w.bytes w.top walk.bottom →
          walk.bottom + nacRecordLen ≤ walk.bottom + rlenAt w.bytes walk.bottom ∧
            walk.bottom + rlenAt w.bytes walk.bottom ≤ w.top) ↔
      ∀ address, w.Met address → Complete w.bytes w.top address →
        nacRecordLen ≤ rlenAt w.bytes address := by
  constructor
  · rintro ⟨-, moves⟩ address met complete
    obtain ⟨walk, reached, rfl, -⟩ := exists_reaches_of_met (p := p)
      (fun walk reached complete => Nat.add_le_add_iff_left.mp (moves (-1) walk reached complete).1) met
    exact Nat.add_le_add_iff_left.mp (moves (-1) walk reached complete).1
  · intro long
    refine ⟨fun cnt => iterate_stops long, fun cnt walk reached complete => ⟨?_, complete.2⟩⟩
    exact Nat.add_le_add_left (long _ (met_of_reaches reached) complete) _

end Progress

/-- A window of zeros, and a filter that nothing passes. -/
def zeros : Window := ⟨fun _ => 0, 0, 64, by decide⟩

def passNone : Qnf := ⟨96, fun _ _ => false⟩

/-- A record of length zero that does not pass the filter is looked at forever. -/
theorem zero_length_record_endless :
    ¬ ∃ result, (passNone.iterate zeros 1).Stops zeros.walk result := by
  have none : passNone.packetAt zeros.bytes zeros.walk.bottom = none := by
    simp [Qnf.packetAt, Qnf.hand, passNone]
  have same : zeros.walk.pass (rlenAt zeros.bytes zeros.walk.bottom)
      (passNone.packetAt zeros.bytes zeros.walk.bottom) = zeros.walk := by
    rw [none]
    rfl
  have again : passNone.iterate zeros 1 zeros.walk = .go zeros.walk := by
    rw [iterate_of_complete (by decide) (by rw [same]; decide), same]
  have kept : ∀ source target, source = zeros.walk →
      passNone.iterate zeros 1 source = .go target → target = zeros.walk := by
    rintro _ target rfl moved
    exact Next.go.inj (moved.symm.trans again)
  rintro ⟨result, last, reached, stopped⟩
  rw [reached.invariant kept rfl, again] at stopped
  cases stopped

end Libpcap.Nac
