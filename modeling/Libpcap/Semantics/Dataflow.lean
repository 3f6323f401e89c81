/-
# Facts that flow through a graph

A node of a graph may generate a fact, may kill it, and may have it from the start. Behind a node
the fact holds if the node generates it, or if the node has it or gets it from a node in front
and does not kill it (`Flows`).

A sweep goes over the nodes once, in an order in which no node leads back. It settles the fact at
each node and hands it on (`Pushes`), and computes exactly this (`foldl_pushes`).
-/

import Mathlib.Data.List.Pairwise
import Mathlib.Logic.Relation

namespace Libpcap.Semantics

open List Relation

universe u v

/-! ## Paths -/

section Paths

variable {α : Type u} {R S : α → α → Prop} {a b c : α}

/-- A path from `a`, with the nodes that it passes, both ends included. -/
inductive Path (R : α → α → Prop) (a : α) : α → List α → Prop
  | here : Path R a a [a]
  | tail {b c : α} {path : List α} : Path R a b path → R b c → Path R a c (path ++ [c])

theorem Path.reaches {path : List α} (along : Path R a b path) : ReflTransGen R a b := by
  induction along with
  | here => exact .refl
  | tail _ edge ih => exact ih.tail edge

theorem exists_path (reaches : ReflTransGen R a b) : ∃ path, Path R a b path := by
  induction reaches with
  | refl => exact ⟨_, .here⟩
  | tail _ edge ih =>
    obtain ⟨path, along⟩ := ih
    exact ⟨_, along.tail edge⟩

/-- A path may be followed in a relation that has the edges which start at its nodes. -/
theorem Path.mono {path : List α} (along : Path R a b path)
    (larger : ∀ b c, ReflTransGen R a b → R b c → S b c) : Path S a b path := by
  induction along with
  | here => exact .here
  | tail front edge ih => exact ih.tail (larger _ _ front.reaches edge)

/-- Every node of a path can be reached from its start. -/
theorem Path.reaches_to_mem {path : List α} (along : Path R a b path) (mem : c ∈ path) :
    ReflTransGen R a c := by
  induction along with
  | here =>
    obtain rfl := mem_singleton.mp mem
    exact .refl
  | tail front edge ih =>
    rcases mem_append.mp mem with before | last
    · exact ih before
    · obtain rfl := mem_singleton.mp last
      exact front.reaches.tail edge

end Paths

/-! ## Flow -/

section Flow

variable {α : Type u} (R : α → α → Prop) (start gen kill : α → Prop)

/-- The fact holds behind a node. -/
inductive Flows : α → Prop
  | gen {b : α} : gen b → Flows b
  | start {b : α} : start b → ¬ kill b → Flows b
  | edge {p b : α} : Flows p → R p b → ¬ kill b → Flows b

variable {R start gen kill} {b : α}

theorem flows_iff : Flows R start gen kill b ↔
    gen b ∨ (start b ∨ ∃ p, R p b ∧ Flows R start gen kill p) ∧ ¬ kill b := by
  constructor
  · rintro (generates | ⟨starts, kept⟩ | ⟨flows, edge, kept⟩)
    · exact .inl generates
    · exact .inr ⟨.inl starts, kept⟩
    · exact .inr ⟨.inr ⟨_, edge, flows⟩, kept⟩
  · rintro (generates | ⟨starts | ⟨p, edge, flows⟩, kept⟩)
    · exact .gen generates
    · exact .start starts kept
    · exact .edge flows edge kept

/-- A fact that no node generates flows along a path on which it is not killed. -/
theorem flows_iff_path : Flows R start (fun _ => False) kill b ↔
    ∃ a path, start a ∧ Path R a b path ∧ ∀ c ∈ path, ¬ kill c := by
  constructor
  · intro flows
    induction flows with
    | gen generates => exact generates.elim
    | start starts kept => exact ⟨_, _, starts, .here, by simpa using kept⟩
    | edge _ edge kept ih =>
      obtain ⟨a, path, starts, along, unkilled⟩ := ih
      refine ⟨a, _, starts, along.tail edge, fun c mem => ?_⟩
      rcases mem_append.mp mem with front | last
      · exact unkilled c front
      · exact mem_singleton.mp last ▸ kept
  · rintro ⟨a, path, starts, along, unkilled⟩
    induction along with
    | here => exact .start starts (unkilled a (by simp))
    | tail _ edge ih =>
      refine .edge (ih fun c mem => ?_) edge (unkilled _ (by simp))
      exact unkilled c (mem_append_left _ mem)

/-- A fact that no node kills flows to what can be reached from where it is generated. -/
theorem flows_iff_reaches (never : ∀ b, ¬ start b) : Flows R start gen (fun _ => False) b ↔
    ∃ a, gen a ∧ ReflTransGen R a b := by
  constructor
  · intro flows
    induction flows with
    | gen generates => exact ⟨_, generates, .refl⟩
    | start starts => exact absurd starts (never _)
    | edge _ edge _ ih =>
      obtain ⟨a, generates, reaches⟩ := ih
      exact ⟨a, generates, reaches.tail edge⟩
  · rintro ⟨a, generates, reaches⟩
    induction reaches with
    | refl => exact .gen generates
    | tail _ edge ih => exact .edge ih edge id

/-! ## Sweeps -/

variable {σ : Type v} (holds : σ → α → Prop)

/-- The fact behind a node, from what is known in front of it. -/
def Behind (gen kill : α → Prop) (holds : σ → α → Prop) (s : σ) (d : α) : Prop :=
  gen d ∨ holds s d ∧ ¬ kill d

variable (R gen kill) in
/-- One turn of a sweep: the fact is settled at a node and handed on to the nodes that it leads
to. -/
def Pushes (s s' : σ) (d : α) : Prop :=
  (holds s' d ↔ Behind gen kill holds s d) ∧
    ∀ b, b ≠ d → (holds s' b ↔ holds s b ∨ R d b ∧ Behind gen kill holds s d)

variable {holds} {step : σ → α → σ} {order : List α}

variable (R order) in
/-- The edges that start at the nodes of a list. -/
def Within (p b : α) : Prop := p ∈ order ∧ R p b

/-- What is known when a sweep that starts with `s₀` has passed the nodes in front. -/
structure Swept (R : α → α → Prop) (gen kill : α → Prop) (holds : σ → α → Prop) (order : List α)
    (s₀ : σ) (front : List α) (s : σ) : Prop where
  settled : ∀ b ∈ front, holds s b ↔ Flows (Within R order) (holds s₀) gen kill b
  ahead : ∀ b, b ∉ front → (holds s b ↔ holds s₀ b ∨
    ∃ p ∈ front, R p b ∧ Flows (Within R order) (holds s₀) gen kill p)

/-- One turn at a node behind the nodes in front. -/
theorem Swept.pass {s₀ s s' : σ} {front behind : List α} {d : α}
    (swept : Swept R gen kill holds order s₀ front s) (split : order = front ++ d :: behind)
    (sorted : order.Pairwise fun a b => ¬ R b a) (noLoop : ¬ R d d)
    (pushes : Pushes R gen kill holds s s' d) :
    Swept R gen kill holds order s₀ (front ++ [d]) s' := by
  rw [split, pairwise_append, pairwise_cons] at sorted
  obtain ⟨-, ⟨notBehind, -⟩, notFront⟩ := sorted
  -- what leads to `d` stands in front
  have infront : ∀ p ∈ order, R p d → p ∈ front := by
    intro p mem edge
    rw [split, mem_append, mem_cons] at mem
    rcases mem with before | rfl | later
    · exact before
    · exact absurd edge noLoop
    · exact absurd edge (notBehind p later)
  have here : Behind gen kill holds s d ↔ Flows (Within R order) (holds s₀) gen kill d := by
    by_cases again : d ∈ front
    · rw [Behind, swept.settled d again]
      constructor
      · rintro (generates | ⟨flows, -⟩)
        · exact .gen generates
        · exact flows
      · intro flows
        exact (flows_iff.mp flows).imp_right fun arrives => ⟨flows, arrives.2⟩
    · rw [Behind, swept.ahead d again, flows_iff]
      have same : (∃ p ∈ front, R p d ∧ Flows (Within R order) (holds s₀) gen kill p) ↔
          ∃ p, Within R order p d ∧ Flows (Within R order) (holds s₀) gen kill p := by
        constructor
        · rintro ⟨p, mem, edge, flows⟩
          exact ⟨p, ⟨split ▸ mem_append_left _ mem, edge⟩, flows⟩
        · rintro ⟨p, ⟨mem, edge⟩, flows⟩
          exact ⟨p, infront p mem edge, edge, flows⟩
      rw [same]
  obtain ⟨atD, elsewhere⟩ := pushes
  constructor
  · intro b mem
    by_cases same : b = d
    · rw [same, atD, here]
    · have before : b ∈ front := by simpa [same] using mem
      rw [elsewhere b same, swept.settled b before, or_iff_left]
      exact fun ⟨edge, _⟩ => notFront b before d mem_cons_self edge
  · intro b outside
    rw [mem_append, mem_singleton, not_or] at outside
    rw [elsewhere b outside.2, swept.ahead b outside.1, here, or_assoc]
    refine or_congr_right ⟨?_, ?_⟩
    · rintro (⟨p, mem, edge, flows⟩ | ⟨edge, flows⟩)
      · exact ⟨p, mem_append_left _ mem, edge, flows⟩
      · exact ⟨d, by simp, edge, flows⟩
    · rintro ⟨p, mem, edge, flows⟩
      rcases mem_append.mp mem with before | last
      · exact .inl ⟨p, before, edge, flows⟩
      · obtain rfl := mem_singleton.mp last
        exact .inr ⟨edge, flows⟩

/-- A sweep in an order in which no node leads to itself or back. -/
theorem foldl_pushes (Inv : σ → Prop) (s₀ : σ) (sorted : order.Pairwise fun a b => ¬ R b a)
    (noLoop : ∀ d ∈ order, ¬ R d d)
    (pushes : ∀ s d, d ∈ order → Inv s → Inv (step s d) ∧
      Pushes R gen kill holds s (step s d) d)
    (initial : Inv s₀) {b : α} (mem : b ∈ order) :
    holds (order.foldl step s₀) b ↔ Flows (Within R order) (holds s₀) gen kill b := by
  have run (behind : List α) : ∀ front s, order = front ++ behind → Inv s →
      Swept R gen kill holds order s₀ front s →
      Swept R gen kill holds order s₀ order (behind.foldl step s) := by
    induction behind with
    | nil =>
      intro front s split _ swept
      rw [append_nil] at split
      exact split ▸ swept
    | cons d behind ih =>
      intro front s split inv swept
      have here : d ∈ order := by simp [split]
      obtain ⟨inv', pushed⟩ := pushes s d here inv
      exact ih (front ++ [d]) _ (by simpa using split) inv'
        (swept.pass split sorted (noLoop d here) pushed)
  have begins : Swept R gen kill holds order s₀ [] s₀ :=
    ⟨nofun, fun b _ => by simp⟩
  exact (run order [] s₀ rfl initial begins).settled b mem

section Pull

variable {settled arrives : σ → α → Prop}

/-- One turn of a sweep that looks back: the fact arrives at a node from the nodes that lead to
it. -/
structure Pulls (R : α → α → Prop) (kill : α → Prop) (settled arrives : σ → α → Prop) (s s' : σ)
    (d : α) : Prop where
  comes : ∀ b, arrives s' b ↔ arrives s b ∨ b = d ∧ ∃ p, R p d ∧ settled s p
  settles : ∀ b, settled s' b ↔ settled s b ∨ b = d ∧ arrives s' d ∧ ¬ kill d

/-- What is known when such a sweep has passed the nodes in front. -/
structure Pulled (R : α → α → Prop) (gen kill : α → Prop) (settled arrives : σ → α → Prop)
    (front : List α) (s : σ) : Prop where
  comes : ∀ b, arrives s b ↔ b ∈ front ∧ ∃ p, R p b ∧ Flows R (fun _ => False) gen kill p
  passed : ∀ b, b ∈ front ∨ (∀ p, ¬ R p b) →
    (settled s b ↔ Flows R (fun _ => False) gen kill b)
  ahead : ∀ b, b ∉ front → (settled s b ↔ gen b)

/-- One turn at a node all of whose predecessors stand in front or have none themselves. -/
theorem Pulled.pass {s s' : σ} {front : List α} {d : α}
    (pulled : Pulled R gen kill settled arrives front s)
    (ready : ∀ p, R p d → p ∈ front ∨ ∀ q, ¬ R q p)
    (pulls : Pulls R kill settled arrives s s' d) :
    Pulled R gen kill settled arrives (front ++ [d]) s' := by
  have before : (∃ p, R p d ∧ settled s p) ↔ ∃ p, R p d ∧ Flows R (fun _ => False) gen kill p :=
    exists_congr fun p => and_congr_right fun edge => pulled.passed p (ready p edge)
  have arrives' (b : α) : arrives s' b ↔
      b ∈ front ++ [d] ∧ ∃ p, R p b ∧ Flows R (fun _ => False) gen kill p := by
    rw [pulls.comes, pulled.comes, mem_append, mem_singleton, or_and_right]
    refine or_congr_right (and_congr_right ?_)
    rintro rfl
    exact before
  refine ⟨arrives', fun b here => ?_, fun b outside => ?_⟩
  · by_cases same : b = d
    · subst same
      have atEnd : arrives s' b ↔ ∃ p, R p b ∧ Flows R (fun _ => False) gen kill p := by
        rw [arrives', and_iff_right (by simp)]
      rw [pulls.settles, atEnd]
      by_cases again : b ∈ front
      · rw [pulled.passed b (.inl again), or_iff_left_of_imp]
        rintro ⟨-, ⟨p, edge, flows⟩, kept⟩
        exact .edge flows edge kept
      · rw [pulled.ahead b again, flows_iff]
        simp
    · have here' : b ∈ front ∨ ∀ p, ¬ R p b := by simpa [same] using here
      rw [pulls.settles, pulled.passed b here', or_iff_left fun now => same now.1]
  · rw [mem_append, mem_singleton, not_or] at outside
    rw [pulls.settles, pulled.ahead b outside.1, or_iff_left fun now => outside.2 now.1]

/-- A sweep that looks back, over an order in which every node stands behind its predecessors;
nodes without predecessors may be left out. -/
theorem foldl_pulls (R : α → α → Prop) (gen kill : α → Prop) (settled arrives : σ → α → Prop)
    (Inv : σ → Prop) {s₀ : σ} (initial : Inv s₀)
    (sorted : order.Pairwise fun a b => ¬ R b a) (noLoop : ∀ d ∈ order, ¬ R d d)
    (complete : ∀ d ∈ order, ∀ p, R p d → p ∈ order ∨ ∀ q, ¬ R q p)
    (starts : ∀ b, settled s₀ b ↔ gen b) (nothing : ∀ b, ¬ arrives s₀ b)
    (pulls : ∀ s d, d ∈ order → Inv s → Inv (step s d) ∧
      Pulls R kill settled arrives s (step s d) d) :
    Pulled R gen kill settled arrives order (order.foldl step s₀) := by
  have run (behind : List α) : ∀ front s, order = front ++ behind → Inv s →
      Pulled R gen kill settled arrives front s →
      Pulled R gen kill settled arrives order (behind.foldl step s) := by
    induction behind with
    | nil =>
      intro front s split _ pulled
      rw [append_nil] at split
      exact split ▸ pulled
    | cons d behind ih =>
      intro front s split inv pulled
      have here : d ∈ order := by simp [split]
      obtain ⟨inv', pulled'⟩ := pulls s d here inv
      refine ih (front ++ [d]) _ (by simpa using split) inv' (pulled.pass ?_ pulled')
      intro p edge
      refine (complete d here p edge).imp_left fun mem => ?_
      have sorted' := sorted
      rw [split, pairwise_append, pairwise_cons] at sorted'
      rw [split, mem_append, mem_cons] at mem
      rcases mem with before | rfl | later
      · exact before
      · exact absurd edge (noLoop p here)
      · exact absurd edge (sorted'.2.1.1 p later)
  refine run order [] s₀ rfl initial ⟨fun b => ?_, fun b alone => ?_, fun b _ => starts b⟩
  · simp [nothing]
  · rw [starts, flows_iff]
    rcases alone with none | alone
    · exact absurd none not_mem_nil
    · simp [alone]

end Pull

/-! ## Dominance -/

/-- The first node of a path inside a list is in the list, if the last one is. -/
theorem Path.first_mem {a : α} {path : List α} (along : Path (Within R order) a b path)
    (mem : b ∈ order) : a ∈ order := by
  rcases ReflTransGen.cases_head along.reaches with rfl | ⟨c, edge, -⟩
  · exact mem
  · exact edge.1

section Dominance

variable {number : α → Nat} {k : Nat} (first known : α → Prop) {inSet : Prop}

/-- Nodes are collected by their numbers, and a number stays out where a path avoids its node.
Then the nodes that are collected are those on every path from a first node. -/
theorem collected_iff
    (avoided : ¬ inSet ↔ Flows (Within R order) start (fun _ => False) (number · = k) b)
    (starts : ∀ a, first a → start a)
    (only : ∀ a ∈ order, start a → (∃ c, known c ∧ number c = k) → first a)
    (inOrder : ∀ a c, first a → ReflTransGen R a c → c ∈ order)
    (isKnown : ∀ c ∈ order, known c)
    (inj : ∀ c d, known c → known d → number c = number d → c = d)
    (reached : ∃ a path, first a ∧ Path R a b path) :
    inSet ↔ ∃ c, known c ∧ number c = k ∧ ∀ a path, first a → Path R a b path → c ∈ path := by
  rw [flows_iff_path] at avoided
  -- a path from a first node stays in the order
  have within {a : α} {path : List α} (isFirst : first a) (along : Path R a b path) :
      Path (Within R order) a b path :=
    along.mono fun c d reaches edge => ⟨inOrder a c isFirst reaches, edge⟩
  have onPath {a c : α} {path : List α} (isFirst : first a) (along : Path R a b path)
      (mem : c ∈ path) : known c :=
    isKnown c (inOrder a c isFirst (along.reaches_to_mem mem))
  constructor
  · intro collected
    have killed {a : α} {path : List α} (isFirst : first a) (along : Path R a b path) :
        ∃ c ∈ path, number c = k := by
      by_contra none
      have unkilled (c : α) (mem : c ∈ path) : ¬ number c = k :=
        fun numbered => none ⟨c, mem, numbered⟩
      exact avoided.mpr ⟨a, path, starts a isFirst, within isFirst along, unkilled⟩ collected
    obtain ⟨a, path, isFirst, along⟩ := reached
    obtain ⟨c, mem, numbered⟩ := killed isFirst along
    refine ⟨c, onPath isFirst along mem, numbered, fun a' path' isFirst' along' => ?_⟩
    obtain ⟨d, mem', numbered'⟩ := killed isFirst' along'
    rwa [inj c d (onPath isFirst along mem) (onPath isFirst' along' mem')
      (numbered.trans numbered'.symm)]
  · rintro ⟨c, mem, numbered, everywhere⟩
    by_contra missing
    obtain ⟨a, path, starts, along, unkilled⟩ := avoided.mp missing
    have inside : b ∈ order := by
      obtain ⟨a', path', isFirst, along'⟩ := reached
      exact inOrder a' b isFirst along'.reaches
    have isFirst := only a (along.first_mem inside) starts ⟨c, mem, numbered⟩
    exact unkilled c (everywhere a path isFirst (along.mono fun _ _ _ edge => edge.2)) numbered

end Dominance

end Flow

end Libpcap.Semantics
