/-
# Testing encapsulations

`vlan` and `mpls` test a header between the link-layer header and the network-layer header,
and move the offsets by which every later test finds its header. So a conjunction of them
tests one header after the other: `tests_conjunction` says where each of its primitives looks
on Ethernet.
-/

import Libpcap.Gencode.Fields
import Libpcap.Gencode.Primitive

namespace Libpcap.Gencode

open Libpcap.Bpf Libpcap.Semantics

variable {l : Layout}

/-! ## The primitives -/

def ethertype8021q : Word := 0x8100
def ethertype8021qinq : Word := 0x9100
def ethertypeMpls : Word := 0x8847
def pppMplsUcast : Word := 0x0281

/-- The link types on which VLAN tags can be tested. -/
def vlanLinktypes : List Nat := [dltEn10mb, dltNetanalyzer, dltNetanalyzerTransparent]

/-- The check of a number that has been given, behind another check. -/
def genGiven (b0 : Formula) (num : Word) (check : GenM Formula) : GenM Formula :=
  if 0 ≤ num.toInt then do
    let b1 ← check
    return .and b0 b1
  else return b0

/-- The check of the tag's number in `gen_vlan`, behind the check of the link type. -/
def genVlanId (b0 : Formula) (vlanNum : Word) : GenM Formula :=
  genGiven b0 vlanNum (genMcmp .macpl 0 .h vlanNum 0x0fff)

/-- `gen_vlan`; a negative number stands for any tag. -/
def genVlan (vlanNum : Word) : GenM Formula := do
  let l ← layout
  if 0 < l.labelStackDepth then bpfError "no VLAN match after MPLS"
  else if l.linktype ∈ vlanLinktypes then do
    let b0 ← genCmp .link l.offLinktype .h ethertype8021q
    let b1 ← genCmp .link l.offLinktype .h ethertype8021qinq
    let b ← genVlanId (.or b0 b1) vlanNum
    modify fun g => { g with layout :=
      { l with offMacpl := l.offMacpl + 4, offLinktype := l.offLinktype + 4 } }
    return b
  else bpfError s!"no VLAN support for data link type {l.linktype}"

/-- The first check of `gen_mpls`: behind another label that this was not the last one, else the
link type. -/
def genMplsOuter : GenM Formula := do
  let l ← layout
  if 0 < l.labelStackDepth then genMcmp .macpl (l.offNl - 2) .b 0 0x01
  else if l.linktype ∈ [dltCHdlc, dltEn10mb, dltNetanalyzer, dltNetanalyzerTransparent] then
    genLinktype ethertypeMpls
  else if l.linktype = dltPpp then genLinktype pppMplsUcast
  else bpfError s!"no MPLS support for data link type {l.linktype}"

/-- The check of the label in `gen_mpls`. -/
def genMplsLabel (b0 : Formula) (origNl labelNum : Word) : GenM Formula :=
  genGiven b0 labelNum (genMcmp .macpl origNl .w (labelNum <<< 12) 0xfffff000)

/-- `gen_mpls`; a negative number stands for any label. -/
def genMpls (labelNum : Word) : GenM Formula := do
  let l ← layout
  let b0 ← genMplsOuter
  let b ← genMplsLabel b0 l.offNl labelNum
  modify fun g => { g with layout :=
    { l with offNl := l.offNl + 4, offNlNosnap := l.offNlNosnap + 4,
             labelStackDepth := l.labelStackDepth + 1 } }
  return b

theorem generates_genGiven {b0 : Formula} (tests : HeaderTests b0) (num : Word)
    {check : GenM Formula} (checks : Generates check HeaderTests) :
    Generates (genGiven b0 num check) HeaderTests := by
  refine generates_ite (fun _ => ?_) fun _ => generates_pure tests
  refine checks.bind fun b1 tests' => ?_
  exact generates_pure (headerTests_and.mpr ⟨tests, tests'⟩)

theorem generates_genMplsOuter : Generates genMplsOuter HeaderTests := by
  apply generates_layout_bind
  intro l
  refine generates_ite (fun _ => generates_genMcmp _ _ _ _ _) fun _ => ?_
  refine generates_ite (fun _ => generates_genLinktype _) fun _ => ?_
  exact generates_ite (fun _ => generates_genLinktype _) fun _ => generates_bpfError

/-- Behind a radio header there is no first label. -/
theorem depth_of_genMplsOuter {g g' : Gen} {c : Formula}
    (radio : hasRadioHeader g.layout.linktype = true) (ran : Runs genMplsOuter g c g') :
    0 < g.layout.labelStackDepth := by
  obtain ⟨l, _, here, rest⟩ := runs_bind_iff.mp ran
  cases here
  by_contra outer
  simp only [hasRadioHeader, Bool.or_eq_true, beq_iff_eq] at radio
  rw [if_neg outer] at rest
  rcases radio with ((isType | isType) | isType) | isType <;> rw [isType] at rest <;>
    exact absurd rest not_runs_throw

/-- `vlan`, with or without a number -/
def TestPrimitive.vlan (id : Option Word) : TestPrimitive where
  gen := genVlan (id.getD (-1))
  spec := by
    intro g c g' ran
    obtain ⟨l, _, here, rest⟩ := runs_bind_iff.mp ran
    cases here
    split at rest
    · exact absurd rest not_runs_throw
    split at rest
    case isTrue supported =>
      simp only [runs_bind_iff, runs_modify_iff, runs_pure_iff] at rest
      obtain ⟨b0, g₁, ranQ, b1, g₂, ranQinq, b, g₃, ranId, _, _, rfl, rfl, rfl⟩ := rest
      obtain ⟨testsQ, assignsQ, _⟩ := generates_genCmp _ _ _ _ _ _ _ ranQ
      obtain ⟨testsQinq, assignsQinq, _⟩ := generates_genCmp _ _ _ _ _ _ _ ranQinq
      obtain ⟨tests, assigns, _⟩ := generates_genGiven (headerTests_or.mpr ⟨testsQ, testsQinq⟩) _
        (generates_genMcmp _ _ _ _ _) _ _ _ ranId
      have all : Assigns _ _ := (assignsQ.trans assignsQinq).trans assigns
      refine ⟨tests.storesNothing, all.testSteps.tail (.relayout _ _), tests.nonEmpty,
        fun _ radio => ?_⟩
      have none : ∀ linktype ∈ vlanLinktypes, hasRadioHeader linktype = false := by decide
      cases radio.symm.trans (none _ supported)
    case isFalse => exact absurd rest not_runs_throw

/-- `mpls`, with or without a number -/
def TestPrimitive.mpls (label : Option Word) : TestPrimitive where
  gen := genMpls (label.getD (-1))
  spec := by
    intro g c g' ran
    simp only [genMpls, runs_bind_iff, runs_modify_iff, runs_pure_iff] at ran
    obtain ⟨l, _, here, b0, g₁, ranOuter, b, g₂, ranLabel, _, _, rfl, rfl, rfl⟩ := ran
    cases here
    obtain ⟨testsOuter, assignsOuter, _⟩ := generates_genMplsOuter _ _ _ ranOuter
    obtain ⟨tests, assigns, _⟩ := generates_genGiven testsOuter _
      (generates_genMcmp _ _ _ _ _) _ _ _ ranLabel
    have all : Assigns _ _ := assignsOuter.trans assigns
    refine ⟨tests.storesNothing, all.testSteps.tail (.relayout _ _), tests.nonEmpty,
      fun before radio _ => all.agrees.isSome_ll (before radio (.inr (.inr ?_)))⟩
    exact depth_of_genMplsOuter radio ranOuter

/-- A primitive that tests an encapsulation. -/
inductive Encap
  | vlan (id : Option Word)
  | mpls (label : Option Word)
  deriving DecidableEq, Repr

/-- The primitive of the filter language. -/
def Encap.primitive : Encap → Primitive
  | .vlan id => .test (.vlan id)
  | .mpls label => .test (.mpls label)

/-! ## What the primitives test -/

/-- A test on the number that a load yields. -/
def readTest (p : Packet) (size : Size) (k : Word) (test : Word → Bool) : Option Bool :=
  match p.read (p.touched size k) with
  | .ok x => some (test x)
  | .error _ => none

/-- The number that a primitive has been given, unless it is a negative `int`. -/
def given (num : Option Word) : Option Word := num.filter fun n => decide (0 ≤ n.toInt)

/-- The comparison of a word with a label that has been shifted into place. -/
def labelMatches (num x : Word) : Bool := x &&& 0xfffff000 == (num <<< 12 : Word)

/-- The outcome of a primitive, in terms of the offsets it finds. -/
def Encap.outcome (p : Packet) (l : Layout) : Encap → Option Bool
  | .vlan id => inOrder (
      readTest p .h l.offLinktype (fun x => x == ethertype8021q || x == ethertype8021qinq) ::
        (given id).toList.map fun n => readTest p .h l.offMacpl fun x => x &&& 0xfff == n)
  | .mpls label => inOrder (
      (if 0 < l.labelStackDepth then
          readTest p .b (l.offMacpl + (l.offNl - 2)) fun x => x &&& 1 == 0
        else readTest p .h l.offLinktype fun x => x == ethertypeMpls) ::
        (given label).toList.map fun n => readTest p .w (l.offMacpl + l.offNl) (labelMatches n))

/-- The offsets that a primitive leaves. -/
def Encap.advance (l : Layout) : Encap → Layout
  | .vlan _ => { l with offMacpl := l.offMacpl + 4, offLinktype := l.offLinktype + 4 }
  | .mpls _ => { l with offNl := l.offNl + 4, offNlNosnap := l.offNlNosnap + 4,
                        labelStackDepth := l.labelStackDepth + 1 }

/-- The outcomes of primitives, each of which finds the offsets that the one before it left. -/
def outcomes (p : Packet) : Layout → List Encap → List (Option Bool)
  | _, [] => []
  | l, e :: rest => e.outcome p l :: outcomes p (e.advance l) rest

theorem outcomes_append (p : Packet) (l : Layout) (front back : List Encap) :
    outcomes p l (front ++ back) =
      outcomes p l front ++ outcomes p (front.foldl Encap.advance l) back := by
  induction front generalizing l with
  | nil => rfl
  | cons e rest ih => simp only [List.cons_append, outcomes, ih, List.foldl_cons]

/-- The variables of the link type on Ethernet, whatever the offsets are. -/
structure OnEthernet (l : Layout) : Prop where
  linktype : l.linktype = dltEn10mb
  offLl : l.offLl = 0
  macpl : l.offMacplIsVariable = false
  pppoes : l.isPppoes = false

theorem OnEthernet.fixed (ethernet : OnEthernet l) : l.Fixed :=
  ⟨by rw [ethernet.linktype]; rfl, ethernet.macpl⟩

theorem OnEthernet.advance (ethernet : OnEthernet l) (e : Encap) : OnEthernet (e.advance l) := by
  cases e <;> exact ⟨ethernet.linktype, ethernet.offLl, ethernet.macpl, ethernet.pppoes⟩

/-! ## What is generated -/

section Generated

variable {g : Gen}

/-- With fixed header offsets, every load can be generated, and nothing is assigned. -/
theorem genLoadA_of_fixed (fixed : g.layout.Fixed) (offrel : OffRel) (offset : Word)
    (size : Size) : ∃ s, Runs (genLoadA offrel offset size) g s g := by
  have prefixed : Runs genLlprefixlen g [] g := by
    rw [runs_genLlprefixlen_iff, fixed.noRadioHeader]
    exact ⟨rfl, rfl⟩
  have payload : Runs genOffMacpl g [] g := by
    rw [runs_genOffMacpl_iff, fixed.macpl]
    exact ⟨rfl, rfl⟩
  have here : Runs layout g g.layout g := rfl
  have macplrel (k : Word) : ∃ s, Runs (genLoadMacplrel k size) g s g :=
    ⟨_, .bind payload (.bind here rfl)⟩
  cases offrel with
  | packet => exact ⟨_, .bind here rfl⟩
  | link =>
    exact ⟨_, .bind here (.bind prefixed (.bind here rfl))⟩
  | macpl =>
    obtain ⟨s, ran⟩ := macplrel offset
    exact ⟨s, .bind here ran⟩
  | net =>
    obtain ⟨s, ran⟩ := macplrel (g.layout.offNl + offset)
    exact ⟨s, .bind here ran⟩
  | netNosnap =>
    obtain ⟨s, ran⟩ := macplrel (g.layout.offNlNosnap + offset)
    exact ⟨s, .bind here ran⟩
  | tranIpv6 =>
    obtain ⟨s, ran⟩ := macplrel (g.layout.offNl + 40 + offset)
    exact ⟨s, .bind here ran⟩
  | tranIpv4 =>
    exact ⟨_, .bind here (.bind (.bind payload (.bind here rfl)) rfl)⟩

theorem genNcmp_of_fixed (fixed : g.layout.Fixed) (offrel : OffRel) (offset : Word) (size : Size)
    (mask : Word) (jtype : JmpOp) (reverse : Bool) (v : Word) :
    ∃ c, Runs (genNcmp offrel offset size mask jtype reverse v) g c g := by
  obtain ⟨s, ran⟩ := genLoadA_of_fixed fixed offrel offset size
  exact ⟨_, .bind ran rfl⟩

/-- A comparison that has been generated, with the outcome it has. -/
structure Tests (m : GenM Formula) (g : Gen) (c : Formula) (g' : Gen)
    (result : Packet → Option Bool) : Prop where
  ran : Runs m g c g'
  tests : HeaderTests c
  outcome : ∀ p mem, Gencode.outcome p mem c = result p

variable (ethernet : OnEthernet g.layout)

include ethernet

theorem base_link (mem : Reg → Word) (p : Packet) : OffRel.link.base g mem p = some 0 := by
  have fixed := ethernet.fixed
  simp only [OffRel.base, Gen.linkStart, fixed.noRadioHeader, Bool.false_eq_true, if_false,
    ethernet.offLl]

theorem base_macpl (mem : Reg → Word) (p : Packet) :
    OffRel.macpl.base g mem p = some g.layout.offMacpl := by
  simp only [OffRel.base, Gen.payloadStart, ethernet.macpl, Bool.false_eq_true, if_false]

theorem tests_cmp_link (offset : Word) (size : Size) (v : Word) :
    ∃ c, Tests (genCmp .link offset size v) g c g (fun p => readTest p size offset (· == v)) := by
  obtain ⟨c, ran⟩ := genNcmp_of_fixed ethernet.fixed .link offset size 0xffffffff .jeq false v
  refine ⟨c, ran, (generates_genCmp _ _ _ _ _ _ _ ran).1, ?_⟩
  intro p mem
  have start : (0 : Word) + offset = offset := BitVec.zero_add offset
  rw [genCmp_outcome ran (base_link ethernet mem p), start]
  rfl

theorem tests_mcmp_macpl (offset : Word) (size : Size) (v mask : Word) :
    ∃ c, Tests (genMcmp .macpl offset size v mask) g c g
      (fun p => readTest p size (g.layout.offMacpl + offset) (· &&& mask == v)) := by
  obtain ⟨c, ran⟩ := genNcmp_of_fixed ethernet.fixed .macpl offset size mask .jeq false v
  refine ⟨c, ran, (generates_genMcmp _ _ _ _ _ _ _ _ ran).1, ?_⟩
  intro p mem
  rw [genMcmp_outcome ran (base_macpl ethernet mem p)]
  rfl

omit ethernet in
/-- A number that has been given is checked behind the other check. -/
theorem Tests.given {outer check : GenM Formula} {b0 c : Formula} {first : Packet → Option Bool}
    (tests0 : Tests outer g b0 g first) (num : Option Word) (second : Word → Packet → Option Bool)
    (checks : Tests check g c g (second (num.getD (-1)))) :
    ∃ b, Tests (genGiven b0 (num.getD (-1)) check) g b g fun p =>
      inOrder (first p :: (Gencode.given num).toList.map fun n => second n p) := by
  have unchecked (negative : ¬ 0 ≤ (num.getD (-1)).toInt) (none : Gencode.given num = none) :
      Tests (genGiven b0 (num.getD (-1)) check) g b0 g fun p =>
        inOrder (first p :: (Gencode.given num).toList.map fun n => second n p) := by
    refine ⟨?_, tests0.tests, fun p mem => ?_⟩
    · rw [genGiven, if_neg negative]
      rfl
    · rw [none, Option.toList_none, List.map_nil, inOrder_singleton, tests0.outcome]
  cases num with
  | none => exact ⟨b0, unchecked (by decide) rfl⟩
  | some n =>
    by_cases positive : 0 ≤ n.toInt
    · have found : Gencode.given (some n) = some n := by
        simp [Gencode.given, positive]
      refine ⟨.and b0 c, ?_, headerTests_and.mpr ⟨tests0.tests, checks.tests⟩, fun p mem => ?_⟩
      · rw [Option.getD_some, genGiven, if_pos positive]
        exact .bind checks.ran rfl
      · rw [found, outcome_and tests0.tests checks.tests, tests0.outcome, checks.outcome]
        rfl
    · exact ⟨b0, unchecked positive (by simpa [Gencode.given] using positive)⟩

/-- What `gen_vlan` does behind tags only. -/
theorem tests_vlan (noLabel : g.layout.labelStackDepth = 0) (id : Option Word) :
    ∃ c, Tests (genVlan (id.getD (-1))) g c { g with layout := (Encap.vlan id).advance g.layout }
      fun p => (Encap.vlan id).outcome p g.layout := by
  obtain ⟨b0, testsQ⟩ := tests_cmp_link ethernet g.layout.offLinktype .h ethertype8021q
  obtain ⟨b1, testsQinq⟩ := tests_cmp_link ethernet g.layout.offLinktype .h ethertype8021qinq
  have either : Tests (pure (.or b0 b1)) g (.or b0 b1) g fun p =>
      readTest p .h g.layout.offLinktype fun x =>
        x == ethertype8021q || x == ethertype8021qinq := by
    refine ⟨rfl, headerTests_or.mpr ⟨testsQ.tests, testsQinq.tests⟩, fun p mem => ?_⟩
    rw [outcome_or testsQ.tests testsQinq.tests, testsQ.outcome, testsQinq.outcome]
    unfold readTest
    cases p.read (p.touched .h g.layout.offLinktype) with
    | error result => rfl
    | ok x =>
      dsimp only
      cases x == ethertype8021q <;> rfl
  obtain ⟨c, testsId⟩ := tests_mcmp_macpl ethernet 0 .h (id.getD (-1)) 0x0fff
  obtain ⟨b, tests⟩ := either.given id
    (fun n p => readTest p .h g.layout.offMacpl fun x => x &&& 0xfff == n) (by simpa using testsId)
  refine ⟨b, ?_, tests.tests, tests.outcome⟩
  refine .bind rfl ?_
  have supported : g.layout.linktype ∈ vlanLinktypes := by
    rw [ethernet.linktype]
    decide
  rw [if_neg (by omega), if_pos supported]
  exact .bind testsQ.ran (.bind testsQinq.ran (.bind tests.ran rfl))

/-- The link type of the first label. -/
theorem tests_mplsOuter :
    ∃ c, Tests genMplsOuter g c g fun p =>
      if 0 < g.layout.labelStackDepth then
        readTest p .b (g.layout.offMacpl + (g.layout.offNl - 2)) fun x => x &&& 1 == 0
      else readTest p .h g.layout.offLinktype fun x => x == ethertypeMpls := by
  by_cases inner : 0 < g.layout.labelStackDepth
  · obtain ⟨c, tests⟩ := tests_mcmp_macpl ethernet (g.layout.offNl - 2) .b 0 0x01
    refine ⟨c, .bind rfl ?_, tests.tests, fun p mem => ?_⟩
    · rw [if_pos inner]
      exact tests.ran
    · rw [if_pos inner, tests.outcome]
  · obtain ⟨c, tests⟩ := tests_cmp_link ethernet g.layout.offLinktype .h ethertypeMpls
    refine ⟨c, .bind rfl ?_, tests.tests, fun p mem => ?_⟩
    · have ether : Runs (genEtherLinktype ethertypeMpls) g c g :=
        .bind rfl tests.ran
      have plain : Runs (genPlainLinktype ethertypeMpls) g c g := by
        refine .bind rfl ?_
        rw [ethernet.linktype]
        exact ether
      rw [if_neg inner, ethernet.linktype, if_pos (by decide)]
      refine .bind rfl ?_
      rw [if_neg inner, ethernet.pppoes]
      exact plain
    · rw [if_neg inner, tests.outcome]

/-- What `gen_mpls` does. -/
theorem tests_mpls (label : Option Word) :
    ∃ c, Tests (genMpls (label.getD (-1))) g c
      { g with layout := (Encap.mpls label).advance g.layout }
      fun p => (Encap.mpls label).outcome p g.layout := by
  obtain ⟨b0, outer⟩ := tests_mplsOuter ethernet
  obtain ⟨c, testsLabel⟩ :=
    tests_mcmp_macpl ethernet g.layout.offNl .w (label.getD (-1) <<< 12) 0xfffff000
  obtain ⟨b, tests⟩ := outer.given label (fun n p =>
    readTest p .w (g.layout.offMacpl + g.layout.offNl) (labelMatches n))
    testsLabel
  refine ⟨b, ?_, tests.tests, tests.outcome⟩
  exact .bind rfl (.bind outer.ran (.bind tests.ran rfl))

end Generated

/-! ## Conjunctions -/

/-- A conjunction of primitives. -/
def Conjunction : Cond Encap → Prop
  | .leaf _ => True
  | .and left right => Conjunction left ∧ Conjunction right
  | .or _ _ => False
  | .not _ => False

/-- There is no tag behind a label, with a number of labels before. -/
def TagsFirst : Nat → List Encap → Prop
  | _, [] => True
  | depth, .vlan _ :: rest => depth = 0 ∧ TagsFirst depth rest
  | depth, .mpls _ :: rest => TagsFirst (depth + 1) rest

theorem tagsFirst_append {front back : List Encap} :
    TagsFirst l.labelStackDepth (front ++ back) ↔ TagsFirst l.labelStackDepth front ∧
      TagsFirst (front.foldl Encap.advance l).labelStackDepth back := by
  induction front generalizing l with
  | nil => simp [TagsFirst]
  | cons e rest ih =>
    have later := ih (l := e.advance l)
    cases e with
    | vlan id =>
      simp only [List.cons_append, TagsFirst, List.foldl_cons, and_assoc]
      exact and_congr_right fun _ => later
    | mpls label => exact later

/-- The primitives of a conjunction are tested from left to right. -/
theorem tests_conjunction {t : Cond Encap} (conjunction : Conjunction t) :
    ∀ {g : Gen}, OnEthernet g.layout → TagsFirst g.layout.labelStackDepth t.leaves →
      ∃ c, Tests (genFilter (t.map Encap.primitive)) g c
          { g with layout := t.leaves.foldl Encap.advance g.layout }
          (fun p => inOrder (outcomes p g.layout t.leaves)) ∧
        OnEthernet (t.leaves.foldl Encap.advance g.layout) := by
  induction t with
  | leaf e =>
    intro g ethernet ordered
    have result (p : Packet) : inOrder (outcomes p g.layout [e]) = e.outcome p g.layout :=
      inOrder_singleton _
    cases e with
    | vlan id =>
      obtain ⟨c, tests⟩ := tests_vlan ethernet ordered.1 id
      refine ⟨c, ⟨tests.ran, tests.tests, fun p mem => ?_⟩, ethernet.advance (.vlan id)⟩
      exact (tests.outcome p mem).trans (result p).symm
    | mpls label =>
      obtain ⟨c, tests⟩ := tests_mpls ethernet label
      refine ⟨c, ⟨tests.ran, tests.tests, fun p mem => ?_⟩, ethernet.advance (.mpls label)⟩
      exact (tests.outcome p mem).trans (result p).symm
  | and left right ihLeft ihRight =>
    intro g ethernet ordered
    obtain ⟨orderedLeft, orderedRight⟩ := tagsFirst_append.mp ordered
    obtain ⟨c0, tests0, between⟩ := ihLeft conjunction.1 ethernet orderedLeft
    obtain ⟨c1, tests1, after⟩ := ihRight conjunction.2
      (g := { g with layout := left.leaves.foldl Encap.advance g.layout }) between orderedRight
    have advanced : (left.leaves ++ right.leaves).foldl Encap.advance g.layout =
        right.leaves.foldl Encap.advance (left.leaves.foldl Encap.advance g.layout) :=
      List.foldl_append
    refine ⟨.and c0 c1, ⟨?_, headerTests_and.mpr ⟨tests0.tests, tests1.tests⟩, fun p mem => ?_⟩, ?_⟩
    · rw [Cond.leaves, advanced]
      exact .bind tests0.ran (.bind tests1.ran rfl)
    · rw [outcome_and tests0.tests tests1.tests, tests0.outcome, tests1.outcome, Cond.leaves,
        outcomes_append, inOrder_join, inOrder_append, inOrder_singleton, ← inOrder_append]
    · rw [Cond.leaves, advanced]
      exact after
  | or left right _ _ | not inner _ => exact absurd conjunction id

end Libpcap.Gencode
