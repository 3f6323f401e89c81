/-
# The hash table of value numbers

`F` looks for an operation on numbered operands in one of `MODULUS` buckets and adds a node
with a new number where it finds none. Whatever the hash makes of them, a node is found by
the operation and operands it was made for and by no others (`HashTab.find_f`), so that equal
numbers stand for equal operations in every sequence of calls. `ValTab` is this table with the
nodes of all buckets in one list.
-/

import Libpcap.Optimize.ValueNumbers

namespace Libpcap.Optimize

open Libpcap.Bpf Libpcap.Semantics Function List

/-- The arguments of `F`. -/
structure Operation where
  code : Word
  v0 : Word
  v1 : Word
  deriving DecidableEq, Repr

def modulus : Nat := 213

def Operation.hash (o : Operation) : Nat :=
  (o.code ^^^ (o.v0 <<< 4) ^^^ (o.v1 <<< 8)).toNat % modulus

/-- The constant that an operation loads; `BPF_MODE` and `BPF_CLASS` look at the low byte of
the code only. -/
def Operation.const (o : Operation) : Option Word :=
  if isImmediate (o.code.setWidth 16) then some o.v0 else none

/-- `hashtbl` with the nodes of each bucket, the newest first, and their numbers, `vmap` and
`curval`. -/
structure HashTab where
  hashtbl : Nat → List (Operation × Nat)
  vmap : Nat → Option Word
  curval : Nat

namespace HashTab

/-- `init_val` -/
def init : HashTab := ⟨fun _ => [], fun _ => none, 0⟩

/-- The loop of `F` over a bucket. -/
def find (t : HashTab) (o : Operation) : Option Nat := (t.hashtbl o.hash).lookup o

def f (t : HashTab) (o : Operation) : Nat × HashTab :=
  match t.find o with
  | some val => (val, t)
  | none =>
    let val := t.curval + 1
    (val, {
      hashtbl := update t.hashtbl o.hash ((o, val) :: t.hashtbl o.hash)
      vmap := if isImmediate (o.code.setWidth 16) then update t.vmap val (some o.v0) else t.vmap
      curval := val })

/-- The numbers that a sequence of calls returns, and the table behind it. -/
def calls (t : HashTab) : List Operation → List Nat × HashTab
  | [] => ([], t)
  | o :: rest =>
    let (val, t) := t.f o
    let (vals, t) := t.calls rest
    (val :: vals, t)

variable {t : HashTab}

theorem find_f (t : HashTab) (o o' : Operation) :
    (t.f o).2.find o' = if o' = o then some (t.f o).1 else t.find o' := by
  rw [f]
  split
  case h_1 val found =>
    split
    case isTrue same => rw [same, found]
    case isFalse => rfl
  case h_2 =>
    by_cases same : o' = o
    · simp [find, same]
    · rw [if_neg same]
      -- another operation may share the bucket, and is then behind the new node
      by_cases bucket : o'.hash = o.hash
      · have other : (o' == o) = false := by simpa using same
        simp [find, bucket, lookup_cons, other]
      · simp [find, bucket]

/-- Numbers are positive and stand for one operation each, and those in use are marked exactly
where the operation loads a constant. -/
structure Consed (t : HashTab) : Prop where
  known : ∀ o v, t.find o = some v → 0 < v ∧ v ≤ t.curval ∧ t.vmap v = o.const
  unique : ∀ o o' v, t.find o = some v → t.find o' = some v → o = o'
  fresh : ∀ v, t.curval < v → t.vmap v = none

theorem Consed.f (consed : t.Consed) (o : Operation) : (t.f o).2.Consed := by
  cases found : t.find o with
  | some val =>
    rw [HashTab.f, found]
    exact consed
  | none =>
    have top : (t.f o).1 = t.curval + 1 ∧ (t.f o).2.curval = t.curval + 1 := by
      simp [HashTab.f, found]
    have vmap (v : Nat) : (t.f o).2.vmap v = if v = t.curval + 1 then o.const else t.vmap v := by
      have unmarked := consed.fresh _ (Nat.lt_succ_self t.curval)
      simp only [HashTab.f, found, Operation.const]
      split <;> simp +contextual [update_apply, unmarked]
    have old {o' : Operation} {v : Nat} (known : t.find o' = some v) : v ≠ t.curval + 1 :=
      (Nat.lt_succ_of_le (consed.known o' v known).2.1).ne
    refine ⟨?_, ?_, ?_⟩
    · intro o' v
      rw [find_f, top.1, top.2, vmap]
      split
      case isTrue same =>
        rintro ⟨⟩
        exact ⟨Nat.succ_pos _, le_rfl, by rw [if_pos rfl, same]⟩
      case isFalse =>
        intro known
        obtain ⟨positive, bound, const⟩ := consed.known o' v known
        exact ⟨positive, Nat.le_succ_of_le bound, by rw [if_neg (old known), const]⟩
    · intro o₁ o₂ v
      rw [find_f, find_f, top.1]
      split <;> split
      case isTrue.isTrue same same' => exact fun _ _ => same.trans same'.symm
      case isTrue.isFalse => exact fun last known => absurd (Option.some.inj last).symm (old known)
      case isFalse.isTrue => exact fun known last => absurd (Option.some.inj last).symm (old known)
      case isFalse.isFalse => exact consed.unique o₁ o₂ v
    · intro v above
      rw [top.2] at above
      rw [vmap, if_neg above.ne']
      exact consed.fresh v (Nat.lt_of_succ_lt above)

/-- A sequence of calls returns for each of its operations the number that the table has for
it in the end. -/
theorem Consed.calls (ops : List Operation) (consed : t.Consed) :
    (t.calls ops).2.Consed ∧ (t.calls ops).1.map some = ops.map (t.calls ops).2.find ∧
      ∀ o v, t.find o = some v → (t.calls ops).2.find o = some v := by
  induction ops generalizing t with
  | nil => exact ⟨consed, rfl, fun _ _ => id⟩
  | cons o rest ih =>
    obtain ⟨later, vals, kept⟩ := ih (consed.f o)
    refine ⟨later, ?_, fun o' v found => kept o' v ?_⟩
    · have here : ((t.f o).2.calls rest).2.find o = some (t.f o).1 :=
        kept o _ (by rw [find_f, if_pos rfl])
      simp only [HashTab.calls, map_cons, vals, here]
    · rw [find_f]
      split
      case isTrue same =>
        subst same
        rw [HashTab.f, found]
      case isFalse => exact found

/-- In every sequence of calls of `F` behind `init_val` each call returns the number of its
operation: not 0, different for different operations, and marked with the constant that the
operation loads, if it loads one. -/
theorem calls_hash_consed (ops : List Operation) :
    ∃ number : Operation → Nat, (init.calls ops).1 = ops.map number ∧
      (∀ o ∈ ops, ∀ o' ∈ ops, number o = number o' ↔ o = o') ∧
      ∀ o ∈ ops, number o ≠ 0 ∧ (init.calls ops).2.vmap (number o) = o.const := by
  have initial : Consed init := ⟨nofun, nofun, fun _ _ => rfl⟩
  obtain ⟨consed, vals, _⟩ := initial.calls ops
  have found {o : Operation} (mem : o ∈ ops) :
      (init.calls ops).2.find o = some (((init.calls ops).2.find o).getD 0) := by
    have returned := mem_map_of_mem (f := (init.calls ops).2.find) mem
    rw [← vals] at returned
    obtain ⟨v, _, is⟩ := mem_map.mp returned
    rw [← is, Option.getD_some]
  refine ⟨fun o => ((init.calls ops).2.find o).getD 0, ?_, ?_, ?_⟩
  · refine map_injective_iff.mpr (Option.some_injective Nat) ?_
    rw [vals, map_map]
    exact map_congr_left fun o mem => found mem
  · intro o mem o' mem'
    refine ⟨fun same => ?_, fun same => by rw [same]⟩
    exact consed.unique o o' _ (found mem) ((found mem').trans (congrArg some same.symm))
  · intro o mem
    obtain ⟨positive, _, const⟩ := consed.known o _ (found mem)
    exact ⟨positive.ne', const⟩

end HashTab

end Libpcap.Optimize
