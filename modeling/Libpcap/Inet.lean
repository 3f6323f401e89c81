/-
# The list of capture devices

`add_or_find_if` of `inet.c`. A device that is in the list is found, one that cannot be opened
is left out, and the place of a new one is found by a scan with two conditions. Both together
compare loopback devices with others first, and then the instance numbers, so that the list is
what inserting behind the last device that is not greater gives.
-/

import Mathlib.Algebra.Group.Int.Defs
import Mathlib.Algebra.Group.Nat.Defs
import Mathlib.Data.List.Induction
import Mathlib.Data.List.Sort
import Mathlib.Data.Prod.Lex

namespace Libpcap.Inet

open List

def pcapIfLoopback : BitVec 32 := 1

def iffLoopback : BitVec 32 := 8

/-- `struct pcap_if`; the addresses are added later. -/
structure PcapIf where
  name : String
  description : Option String
  flags : BitVec 32
  deriving DecidableEq, Repr

def PcapIf.loopback (dev : PcapIf) : Bool := dev.flags &&& pcapIfLoopback != 0

/-- `atoi` of a string that begins with these digits: `strtol` stops at the greatest `long`,
and the result is cut to an `int`. -/
def atoi (digits : List Char) : Int :=
  let n := digits.foldl (fun n c => 10 * n + (c.toNat - '0'.toNat)) 0
  (BitVec.ofNat 32 (min n (2 ^ 63 - 1))).toInt

def getInstance (name : String) : Int :=
  if name = "any" then 2 ^ 31 - 1
  else atoi ((name.toList.dropWhile (!·.isDigit)).takeWhile Char.isDigit)

/-- The scan for the place of a device that is not in the list. -/
def insertIf (curdev : PcapIf) : List PcapIf → List PcapIf
  | [] => [curdev]
  | nextdev :: rest =>
    if !curdev.loopback && nextdev.loopback then curdev :: nextdev :: rest
    else if getInstance curdev.name < getInstance nextdev.name &&
        (!curdev.loopback || nextdev.loopback) then
      curdev :: nextdev :: rest
    else nextdev :: insertIf curdev rest

/-- The arguments of a call, whether the device can be opened, and whether there is memory for
the entry and for the copies of the name and the description. -/
structure Call where
  name : String
  flags : BitVec 32
  description : Option String
  opens : Bool
  entry : Bool
  nameCopy : Bool
  descriptionCopy : Bool
  strerror : String

namespace Call

variable (call : Call)

/-- The entry for a device. -/
def curdev : PcapIf where
  name := call.name
  description := call.description
  flags := if call.flags &&& iffLoopback ≠ 0 then pcapIfLoopback else 0

/-- The device was opened, and memory was granted. -/
def succeeds : Bool :=
  call.opens && call.entry && call.nameCopy && (call.description.isNone || call.descriptionCopy)

end Call

def addOrFindIf (alldevs : List PcapIf) (call : Call) :
    Except String (Option PcapIf) × List PcapIf :=
  match alldevs.find? (·.name = call.name) with
  | some curdev => (.ok (some curdev), alldevs)
  | none =>
    if !call.opens then (.ok none, alldevs)
    else if !call.entry || !call.nameCopy ||
        (call.description.isSome && !call.descriptionCopy) then
      (.error ("malloc: " ++ call.strerror), alldevs)
    else (.ok (some call.curdev), insertIf call.curdev alldevs)

/-- The list after some calls. -/
def alldevs (calls : List Call) : List PcapIf :=
  calls.foldl (fun devs call => (addOrFindIf devs call).2) []

/-- The devices in the order in which they were added. -/
def added (calls : List Call) : List PcapIf :=
  calls.foldl (fun devs call =>
    if call.succeeds ∧ call.name ∉ devs.map PcapIf.name then devs ++ [call.curdev] else devs) []

/-! ## One insertion -/

/-- What the list is sorted by. -/
def PcapIf.key (dev : PcapIf) : Bool ×ₗ Int := toLex (dev.loopback, getInstance dev.name)

section Insertion

variable {dev : PcapIf} {devs : List PcapIf}

theorem insertIf_eq (dev : PcapIf) (devs : List PcapIf) :
    insertIf dev devs = devs.orderedInsert (fun a b => a.key < b.key) dev := by
  induction devs with
  | nil => rfl
  | cons next rest ih =>
    have less : dev.key < next.key ↔ dev.loopback < next.loopback ∨
        dev.loopback = next.loopback ∧ getInstance dev.name < getInstance next.name :=
      Prod.Lex.toLex_lt_toLex
    rw [insertIf, orderedInsert, ih]
    cases mine : dev.loopback <;> cases other : next.loopback <;> simp [less, mine, other]

theorem pairwise_insertIf (sorted : devs.Pairwise fun a b => a.key ≤ b.key) :
    (insertIf dev devs).Pairwise fun a b => a.key ≤ b.key := by
  rw [insertIf_eq]
  induction devs with
  | nil => exact pairwise_singleton _ _
  | cons next rest ih =>
    obtain ⟨first, sorted⟩ := pairwise_cons.mp sorted
    rw [orderedInsert]
    split
    · rename_i less
      refine .cons ?_ (.cons first sorted)
      intro later mem
      rcases mem_cons.mp mem with rfl | mem
      · exact less.le
      · exact less.le.trans (first later mem)
    · rename_i notLess
      refine .cons ?_ (ih sorted)
      intro later mem
      rcases (mem_orderedInsert _).mp mem with rfl | mem
      · exact not_lt.mp notLess
      · exact first later mem

/-- A new device comes behind those of its kind and instance number. -/
theorem filter_insertIf (sorted : devs.Pairwise fun a b => a.key ≤ b.key) (k : Bool ×ₗ Int) :
    (insertIf dev devs).filter (·.key = k) =
      devs.filter (·.key = k) ++ if dev.key = k then [dev] else [] := by
  rw [insertIf_eq]
  induction devs with
  | nil => by_cases same : dev.key = k <;> simp [same]
  | cons next rest ih =>
    obtain ⟨first, sorted⟩ := pairwise_cons.mp sorted
    rw [orderedInsert]
    split
    · rename_i less
      by_cases same : dev.key = k
      · have none : (next :: rest).filter (·.key = k) = [] := by
          rw [filter_eq_nil_iff]
          intro later mem
          rw [decide_eq_true_eq, ← same]
          rcases mem_cons.mp mem with rfl | mem
          · exact less.ne'
          · exact (less.trans_le (first later mem)).ne'
        rw [filter_cons_of_pos (by simpa using same), none, if_pos same, nil_append]
      · rw [filter_cons_of_neg (by simpa using same), if_neg same, append_nil]
    · by_cases here : next.key = k <;> simp [here, ih sorted]

theorem addOrFindIf_list (devs : List PcapIf) (call : Call) :
    (addOrFindIf devs call).2 =
      if call.succeeds ∧ call.name ∉ devs.map PcapIf.name then insertIf call.curdev devs
      else devs := by
  unfold addOrFindIf
  split
  · rename_i found
    have there : call.name ∈ devs.map PcapIf.name :=
      mem_map.mpr ⟨_, mem_of_find?_eq_some found, by simpa using find?_some found⟩
    rw [if_neg fun ⟨_, missing⟩ => missing there]
  · rename_i missing
    have absent : call.name ∉ devs.map PcapIf.name := by
      intro there
      obtain ⟨dev, mem, same⟩ := mem_map.mp there
      exact find?_eq_none.mp missing dev mem (by simpa using same)
    cases opens : call.opens <;> cases entry : call.entry <;> cases copied : call.nameCopy <;>
      cases described : call.description <;> cases granted : call.descriptionCopy <;>
      simp [Call.succeeds, opens, entry, copied, described, granted, absent]

end Insertion

/-! ## All insertions -/

/-- What is kept: the list has the devices that were added, sorted, and equal ones in the order
in which they were added. -/
structure Sorted (added devs : List PcapIf) : Prop where
  perm : devs.Perm added
  nodup : (added.map PcapIf.name).Nodup
  order : devs.Pairwise fun a b => a.key ≤ b.key
  stable : ∀ k, devs.filter (·.key = k) = added.filter (·.key = k)

theorem sorted_alldevs (calls : List Call) :
    Sorted (added calls) (alldevs calls) ∧ ∀ name, name ∈ (added calls).map PcapIf.name ↔
      ∃ call ∈ calls, call.name = name ∧ call.succeeds = true := by
  induction calls using reverseRecOn with
  | nil => exact ⟨⟨.refl _, .nil, .nil, fun _ => rfl⟩, by simp [added]⟩
  | append_singleton calls call ih =>
    obtain ⟨⟨perm, nodup, order, stable⟩, names⟩ := ih
    have same : call.name ∈ (alldevs calls).map PcapIf.name ↔
        call.name ∈ (added calls).map PcapIf.name := (perm.map _).mem_iff
    have last : alldevs (calls ++ [call]) = (addOrFindIf (alldevs calls) call).2 := by
      simp [alldevs]
    have lastAdded : added (calls ++ [call]) =
        if call.succeeds ∧ call.name ∉ (added calls).map PcapIf.name then
          added calls ++ [call.curdev] else added calls := by
      simp [added]
    simp only [last, lastAdded, addOrFindIf_list, same]
    by_cases new : call.succeeds = true ∧ call.name ∉ (added calls).map PcapIf.name
    · simp only [if_pos new]
      refine ⟨⟨?_, ?_, pairwise_insertIf order, fun k => ?_⟩, fun name => ?_⟩
      · rw [insertIf_eq]
        exact (perm_orderedInsert _ _ _).trans
          ((perm.cons _).trans (perm_append_singleton _ _).symm)
      · rw [map_append, nodup_append']
        exact ⟨nodup, nodup_singleton _, by simpa [Call.curdev] using new.2⟩
      · rw [filter_insertIf order, stable, filter_append]
        by_cases here : call.curdev.key = k <;> simp [here]
      · have here : name ∈ [call.curdev].map PcapIf.name ↔ call.name = name := by
          rw [map_singleton, mem_singleton]
          exact eq_comm
        rw [map_append, mem_append, names, here]
        simp only [mem_append, mem_singleton, or_and_right, exists_or, exists_eq_left,
          new.1, and_true]
    · simp only [if_neg new]
      refine ⟨⟨perm, nodup, order, stable⟩, fun name => ?_⟩
      rw [names]
      simp only [mem_append, mem_singleton, or_and_right, exists_or, exists_eq_left]
      refine ⟨.inl, ?_⟩
      rintro (earlier | ⟨rfl, succeeds⟩)
      · exact earlier
      · by_contra missing
        exact new ⟨succeeds, fun there => missing ((names _).mp there)⟩

/-- **The list of devices.** After any calls the list has each name that a call could add
exactly once; loopback devices come behind all others, the instance numbers of each kind go up,
and devices of one kind and instance number are in the order in which they were added. -/
theorem alldevs_sorted (calls : List Call) :
    ((alldevs calls).map PcapIf.name).Nodup ∧
      (∀ name, name ∈ (alldevs calls).map PcapIf.name ↔
        ∃ call ∈ calls, call.name = name ∧ call.succeeds = true) ∧
      ((alldevs calls).Pairwise fun a b => a.loopback ≤ b.loopback ∧
        (a.loopback = b.loopback → getInstance a.name ≤ getInstance b.name)) ∧
      ∀ loopback n, (alldevs calls).filter (fun dev => dev.loopback = loopback ∧
          getInstance dev.name = n) =
        (added calls).filter (fun dev => dev.loopback = loopback ∧ getInstance dev.name = n) := by
  obtain ⟨⟨perm, nodup, order, stable⟩, names⟩ := sorted_alldevs calls
  refine ⟨(perm.map _).nodup_iff.mpr nodup, fun name => ?_, order.imp ?_, fun loopback n => ?_⟩
  · rw [(perm.map _).mem_iff, names]
  · intro a b le
    rcases Prod.Lex.toLex_le_toLex.mp le with less | ⟨same, le⟩
    · exact ⟨less.le, fun same => absurd same less.ne⟩
    · exact ⟨same.le, fun _ => le⟩
  · have key : ∀ dev : PcapIf, dev.key = toLex (loopback, n) ↔
        dev.loopback = loopback ∧ getInstance dev.name = n := by
      intro dev
      rw [PcapIf.key, toLex_inj, Prod.mk.injEq]
    simpa only [key] using stable (toLex (loopback, n))

end Libpcap.Inet
