/-
# Acyclic reachable parts

A relation is acyclic from a root when nothing that can be reached from the root
can be reached from itself. The usual proof gives a rank that grows along every
edge inside a set closed under the relation. Conversely, if only finitely many elements can
be reached, counting those that lie behind an element gives a rank.
-/

import Mathlib.Data.Finset.Card
import Mathlib.Logic.Relation

namespace Libpcap.Semantics

open Relation

universe u v

variable {α : Type u} {R : α → α → Prop} {root : α}

/-- Nothing reachable from `root` is reachable from itself by at least one edge. -/
def AcyclicFrom (R : α → α → Prop) (root : α) : Prop :=
  ∀ a, Relation.ReflTransGen R root a → ¬ Relation.TransGen R a a

/-- The rank rule for acyclicity. -/
theorem acyclicFrom_of_rank {β : Type v} [Preorder β] (Inv : α → Prop) (rank : α → β)
    (initial : Inv root)
    (grows : ∀ a b, Inv a → R a b → Inv b ∧ rank a < rank b) : AcyclicFrom R root := by
  have along (a b : α) (inside : Inv a) (path : TransGen R a b) : Inv b ∧ rank a < rank b := by
    induction path with
    | single edge => exact grows _ _ inside edge
    | tail _ edge ih =>
      obtain ⟨closed, further⟩ := grows _ _ ih.1 edge
      exact ⟨closed, lt_trans ih.2 further⟩
  intro a reached cycle
  have inside : Inv a := by
    obtain rfl | path := reflTransGen_iff_eq_or_transGen.mp reached
    · exact initial
    · exact (along root a initial path).1
  exact lt_irrefl _ (along a a inside cycle).2

open Classical in
/-- The number of elements behind an element falls along every edge, and depends on the edges of
the element only. -/
theorem AcyclicFrom.exists_rank_congr (acyclic : AcyclicFrom R root) (all : Finset α)
    (inside : ∀ a, ReflTransGen R root a → a ∈ all) :
    ∃ rank : α → Nat, (∀ a b, ReflTransGen R root a → R a b → rank b < rank a) ∧
      (∀ a, rank a ≤ all.card) ∧ ∀ a b, (∀ c, R a c ↔ R b c) → rank a = rank b := by
  refine ⟨fun a => (all.filter (TransGen R a)).card, ?_, ?_, ?_⟩
  · intro a b reached edge
    have next : ReflTransGen R root b := reached.tail edge
    apply Finset.card_lt_card
    refine (Finset.ssubset_iff_of_subset ?_).mpr ⟨b, ?_, ?_⟩
    · intro c behind
      obtain ⟨mem, path⟩ := Finset.mem_filter.mp behind
      exact Finset.mem_filter.mpr ⟨mem, path.head edge⟩
    · exact Finset.mem_filter.mpr ⟨inside b next, .single edge⟩
    · intro behind
      exact acyclic b next (Finset.mem_filter.mp behind).2
  · intro a
    exact Finset.card_le_card (Finset.filter_subset _ _)
  · intro a b same
    refine congrArg Finset.card (Finset.filter_congr fun c _ => ?_)
    simp only [TransGen.head'_iff, same]

theorem AcyclicFrom.exists_rank (acyclic : AcyclicFrom R root) (all : Finset α)
    (inside : ∀ a, ReflTransGen R root a → a ∈ all) :
    ∃ rank : α → Nat, (∀ a b, ReflTransGen R root a → R a b → rank b < rank a) ∧
      ∀ a, rank a ≤ all.card := by
  obtain ⟨rank, falls, small, -⟩ := acyclic.exists_rank_congr all inside
  exact ⟨rank, falls, small⟩

end Libpcap.Semantics
