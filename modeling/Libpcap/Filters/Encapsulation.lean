/-
# VLAN tags and MPLS labels

A conjunction of any number of `vlan` primitives and any number of `mpls` primitives behind
them asks for an Ethernet frame with that many tags and labels. The compiled conjunction
accepts the packets that carry them (`compileFilter_encapsulated`), for numbers that fit their
fields: a label is shifted into place, so that what exceeds its 20 bits is lost, and a number
from 2^31 on is a negative `int`, which stands for any tag or label.
-/

import Mathlib.Tactic.IntervalCases
import Libpcap.Gencode.Encapsulation
import Libpcap.Optimize.Programs

namespace Libpcap.Filters

open Libpcap.Bpf Libpcap.Gencode Libpcap.Optimize Libpcap.Semantics List

variable {y : Bool} {rest : List (Option Bool)} {k tags : Nat} {size : Size}

/-! ## What the headers are -/

section Wire

variable (p : Packet)

/-- A VLAN tag, whose type field is at an index. -/
def hasTag (k : Nat) (id : Option Word) : Bool :=
  (p.number .h k == some ethertype8021q || p.number .h k == some ethertype8021qinq) &&
    id.all fun n => (p.number .h (k + 2)).map (· &&& 0xfff) == some n

/-- VLAN tags one after the other. -/
def hasTags : Nat → List (Option Word) → Bool
  | _, [] => true
  | k, id :: rest => hasTag p k id && hasTags (k + 4) rest

/-- An MPLS label in the upper 20 bits of the word at an index. -/
def hasLabel (k : Nat) (label : Option Word) : Bool :=
  label.all fun n : Word => (p.number .w k).map (fun x : Word => x >>> 12) == some n

/-- The bottom-of-stack bit of the label at an index is clear. -/
def notBottom (k : Nat) : Bool := (p.number .b (k + 2)).map (· &&& 1) == some 0

/-- MPLS labels one after the other, of which only the last may be the bottom of the stack. -/
def hasLabels : Nat → List (Option Word) → Bool
  | _, [] => true
  | k, label :: rest =>
    hasLabel p k label && (rest.isEmpty || notBottom p k && hasLabels (k + 4) rest)

/-- An Ethernet frame with the given tags and labels; `none` stands for any tag or label. -/
def carriesStack (tags labels : List (Option Word)) : Bool :=
  hasTags p 12 tags && (labels.isEmpty ||
    p.number .h (12 + 4 * tags.length) == some ethertypeMpls &&
      hasLabels p (14 + 4 * tags.length) labels)

end Wire

/-! ## From offsets to headers -/

/-- The variables of the link type behind some tags and labels. -/
def encapsulated (tags labels : Nat) : Layout :=
  { Layout.ethernet with
    offMacpl := BitVec.ofNat 32 (14 + 4 * tags)
    offLinktype := BitVec.ofNat 32 (12 + 4 * tags)
    offNl := BitVec.ofNat 32 (4 * labels)
    offNlNosnap := BitVec.ofNat 32 (3 + 4 * labels)
    labelStackDepth := labels }

theorem ofNat_add_four (n : Nat) : BitVec.ofNat 32 n + 4 = BitVec.ofNat 32 (n + 4) :=
  (BitVec.ofNat_add n 4).symm

theorem advance_vlan (id : Option Word) (tags labels : Nat) :
    (Encap.vlan id).advance (encapsulated tags labels) = encapsulated (tags + 1) labels := by
  simp only [Encap.advance, encapsulated, ofNat_add_four, Nat.mul_add, Nat.mul_one, Nat.add_assoc]

theorem advance_mpls (label : Option Word) (tags labels : Nat) :
    (Encap.mpls label).advance (encapsulated tags labels) = encapsulated tags (labels + 1) := by
  simp only [Encap.advance, encapsulated, ofNat_add_four, Nat.mul_add, Nat.mul_one, Nat.add_assoc]

/-- The label that is left of a number that is shifted into place. -/
def labelGiven (num : Option Word) : Option Word := (given num).map (· &&& 0xfffff)

theorem labelMatches_eq (n x : Word) : labelMatches n x = (x >>> 12 == n &&& 0xfffff) := by
  rw [labelMatches, Bool.eq_iff_iff, beq_iff_eq, beq_iff_eq]
  constructor
  · intro same
    ext i inside
    have bit := congrArg (fun v : Word => v.getLsbD (i + 12)) same
    interval_cases i <;> simp at bit ⊢ <;> simp [bit]
  · intro same
    ext i inside
    have bit := congrArg (fun v : Word => v.getLsbD (i - 12)) same
    interval_cases i <;> simp at bit ⊢ <;> simp [bit]

section Decisions

variable {p : Packet}

/-- The test reads the number at the index. -/
theorem readTest_number (size : Size) (low : p.buflen ≤ 2 ^ 31 ∧ k + 4 < 2 ^ 32 ∨ k < 2 ^ 31)
    (test : Word → Bool) :
    readTest p size (BitVec.ofNat 32 k) test = (p.number size k).map test := by
  have index : (BitVec.ofNat 32 k).toNat = k := by
    rw [BitVec.toNat_ofNat]
    omega
  have read := p.read_touched_eq_number size (k := BitVec.ofNat 32 k) (by omega)
  rw [index] at read
  rw [readTest, read]
  cases p.number size k <;> rfl

/-- A test decides for or against, or a load faults. -/
def Decides (result : Option Bool) (value : Bool) : Prop := result = none ∨ result = some value

theorem decides_cons {first : Option Bool} {x : Bool} (now : Decides first x)
    (later : first = some true → Decides (inOrder rest) y) :
    Decides (inOrder (first :: rest)) (x && y) := by
  rcases now with rfl | rfl
  · exact .inl rfl
  · cases x with
    | false => exact .inr rfl
    | true => exact later rfl

/-- A test on a number decides; if it comes out true, the number has been captured. -/
theorem decides_number {test : Word → Bool} {value : Bool}
    (means : ∀ x, p.number size k = some x → test x = value) :
    Decides ((p.number size k).map test) value := by
  cases found : p.number size k with
  | none => exact .inl rfl
  | some x => exact .inr (congrArg some (means x found))

theorem captured_of_true {test : Word → Bool} (passed : (p.number size k).map test = some true) :
    k + size.bytes ≤ p.buflen := by
  obtain ⟨x, found, _⟩ := Option.map_eq_some_iff.mp passed
  exact p.le_buflen_of_number found

/-- The tests of a number that has been given. -/
theorem decides_given (num : Option Word) {test : Word → Word → Bool} {value : Word → Bool}
    (means : ∀ n x, p.number size k = some x → test n x = value n)
    (later : Decides (inOrder rest) y) :
    Decides (inOrder (num.toList.map (fun n => (p.number size k).map (test n)) ++ rest))
      (num.all value && y) := by
  cases num with
  | none => exact later
  | some n => exact decides_cons (decides_number (means n)) fun _ => later

theorem outcome_vlan (id : Option Word)
    (low : p.buflen ≤ 2 ^ 31 ∧ 12 + 4 * tags ≤ 2 ^ 31 + 8 ∨ 14 + 4 * tags < 2 ^ 31) :
    (Encap.vlan id).outcome p (encapsulated tags 0) =
      inOrder ((p.number .h (12 + 4 * tags)).map
          (fun x => x == ethertype8021q || x == ethertype8021qinq) ::
        (given id).toList.map fun n =>
          (p.number .h (12 + 4 * tags + 2)).map fun x => x &&& 0xfff == n) := by
  have payload : 12 + 4 * tags + 2 = 14 + 4 * tags := by omega
  simp only [Encap.outcome, encapsulated]
  rw [payload, readTest_number .h (by omega)]
  congr 2
  refine map_congr_left fun n _ => ?_
  exact readTest_number .h (by omega) _

theorem outcome_mpls_first (label : Option Word)
    (low : p.buflen ≤ 2 ^ 31 ∧ 12 + 4 * tags ≤ 2 ^ 31 + 8 ∨ 14 + 4 * tags < 2 ^ 31) :
    (Encap.mpls label).outcome p (encapsulated tags 0) =
      inOrder ((p.number .h (12 + 4 * tags)).map (fun x => x == ethertypeMpls) ::
        (given label).toList.map fun n =>
          (p.number .w (14 + 4 * tags)).map (labelMatches n)) := by
  have start : BitVec.ofNat 32 (14 + 4 * tags) + BitVec.ofNat 32 (4 * 0) =
      BitVec.ofNat 32 (14 + 4 * tags) := BitVec.add_zero _
  have outer : ¬ 0 < (encapsulated tags 0).labelStackDepth := Nat.lt_irrefl 0
  rw [Encap.outcome, if_neg outer]
  simp only [encapsulated]
  rw [start, readTest_number .h (by omega)]
  congr 2
  refine map_congr_left fun n _ => ?_
  exact readTest_number .w (by omega) _

theorem outcome_mpls_inner (label : Option Word) {before : Nat}
    (low : p.buflen ≤ 2 ^ 31 ∧ 14 + 4 * tags + 4 * before ≤ 2 ^ 31 + 8 ∨
      14 + 4 * tags + 4 * (before + 1) < 2 ^ 31) :
    (Encap.mpls label).outcome p (encapsulated tags (before + 1)) =
      inOrder ((p.number .b (14 + 4 * tags + 4 * before + 2)).map (fun x => x &&& 1 == 0) ::
        (given label).toList.map fun n =>
          (p.number .w (14 + 4 * tags + 4 * (before + 1))).map (labelMatches n)) := by
  have start : BitVec.ofNat 32 (14 + 4 * tags) + BitVec.ofNat 32 (4 * (before + 1)) =
      BitVec.ofNat 32 (14 + 4 * tags + 4 * (before + 1)) := (BitVec.ofNat_add _ _).symm
  have bottom : BitVec.ofNat 32 (14 + 4 * tags) + (BitVec.ofNat 32 (4 * (before + 1)) - 2) =
      BitVec.ofNat 32 (14 + 4 * tags + 4 * before + 2) := by
    have split : 4 * (before + 1) = 4 * before + 2 + 2 := by omega
    have back : BitVec.ofNat 32 (4 * before + 2 + 2) - 2 = BitVec.ofNat 32 (4 * before + 2) := by
      rw [BitVec.ofNat_add (4 * before + 2) 2]
      exact BitVec.add_sub_cancel _ _
    rw [split, back, ← BitVec.ofNat_add]
    exact congrArg _ (by omega)
  have inner : 0 < (encapsulated tags (before + 1)).labelStackDepth := Nat.succ_pos before
  rw [Encap.outcome, if_pos inner]
  simp only [encapsulated]
  rw [start, bottom, readTest_number .b (by omega)]
  congr 2
  refine map_congr_left fun n _ => ?_
  exact readTest_number .w (by omega) _

/-- The label in the word at an index is the one that is left of the given number. -/
theorem decides_label (label : Option Word) (k : Nat) (later : Decides (inOrder rest) y) :
    Decides (inOrder ((given label).toList.map
        (fun n => (p.number .w k).map (labelMatches n)) ++ rest))
      (hasLabel p k (labelGiven label) && y) := by
  have means (n x : Word) (found : p.number .w k = some x) :
      labelMatches n x =
        ((p.number .w k).map (fun x : Word => x >>> 12) == some (n &&& 0xfffff)) := by
    rw [labelMatches_eq, found]
    rfl
  have decided := decides_given (given label) means later
  simpa only [hasLabel, labelGiven, Option.all_map] using decided

/-- The labels behind the label at an index. -/
theorem decides_labels (tags : Nat) (labels : List (Option Word)) : ∀ before : Nat,
    p.buflen ≤ 2 ^ 31 ∧ 14 + 4 * tags + 4 * before ≤ 2 ^ 31 + 8 ∨
      14 + 4 * tags + 4 * (before + labels.length) < 2 ^ 31 →
    Decides (inOrder (outcomes p (encapsulated tags (before + 1)) (labels.map .mpls)))
      (labels.isEmpty || notBottom p (14 + 4 * tags + 4 * before) &&
        hasLabels p (14 + 4 * tags + 4 * (before + 1)) (labels.map labelGiven)) := by
  induction labels with
  | nil =>
    intro before _
    exact .inr rfl
  | cons label rest ih =>
    intro before low
    rw [length_cons] at low
    rw [map_cons, outcomes, advance_mpls, outcome_mpls_inner label (by omega),
      inOrder_join, cons_append]
    refine decides_cons (decides_number ?_) fun passed => ?_
    · intro x found
      rw [notBottom, found]
      rfl
    · have captured : 14 + 4 * tags + 4 * before + 2 + 1 ≤ p.buflen := captured_of_true passed
      have later := decides_label (p := p) label (14 + 4 * tags + 4 * (before + 1))
        (ih (before + 1) (by omega))
      rw [map_cons, hasLabels, isEmpty_map]
      exact later

/-- The tags from an index on, and the labels behind them. -/
theorem decides_tags (tags labels : List (Option Word)) : ∀ before : Nat,
    p.buflen ≤ 2 ^ 31 ∧ 12 + 4 * before ≤ 2 ^ 31 + 8 ∨
      14 + 4 * (before + tags.length + labels.length) < 2 ^ 31 →
    Decides (inOrder (outcomes p (encapsulated before 0) (tags.map .vlan ++ labels.map .mpls)))
      (hasTags p (12 + 4 * before) (tags.map given) && (labels.isEmpty ||
        p.number .h (12 + 4 * (before + tags.length)) == some ethertypeMpls &&
          hasLabels p (14 + 4 * (before + tags.length)) (labels.map labelGiven))) := by
  induction tags with
  | nil =>
    intro before low
    cases labels with
    | nil => exact .inr rfl
    | cons label rest =>
      rw [length_nil, length_cons] at low
      rw [map_nil, nil_append, map_cons, outcomes, advance_mpls,
        outcome_mpls_first label (by omega), inOrder_join, cons_append]
      simp only [map_nil, hasTags, Bool.true_and, isEmpty_cons, Bool.false_or,
        length_nil, Nat.add_zero]
      refine decides_cons (decides_number ?_) fun passed => ?_
      · intro x found
        rw [found]
        rfl
      · have captured : 12 + 4 * before + 2 ≤ p.buflen := captured_of_true passed
        have later := decides_label (p := p) label (14 + 4 * before)
          (decides_labels (p := p) before rest 0 (by omega))
        rw [map_cons, hasLabels, isEmpty_map]
        exact later
  | cons id rest ih =>
    intro before low
    rw [length_cons] at low
    have count : before + (id :: rest).length = before + 1 + rest.length := by
      rw [length_cons]
      omega
    rw [map_cons, cons_append, outcomes, advance_vlan, outcome_vlan id (by omega),
      inOrder_join, cons_append, map_cons, hasTags, hasTag, Bool.and_assoc,
      Bool.and_assoc, count]
    refine decides_cons (decides_number ?_) fun passed => ?_
    · intro x found
      rw [found]
      rfl
    · have captured : 12 + 4 * before + 2 ≤ p.buflen := captured_of_true passed
      refine decides_given (given id) (fun n x found => ?_) (ih (before + 1) (by omega))
      rw [found]
      rfl

end Decisions

/-! ## The compiled filter -/

/-- The headers that a conjunction asks for, with the numbers as the code takes them. -/
theorem decides_carriesStack {p : Packet} (tags labels : List (Option Word))
    (low : p.buflen ≤ 2 ^ 31 ∨ 14 + 4 * (tags.length + labels.length) < 2 ^ 31) :
    Decides (inOrder (outcomes p .ethernet (tags.map .vlan ++ labels.map .mpls)))
      (carriesStack p (tags.map given) (labels.map labelGiven)) := by
  have decided := decides_tags (p := p) tags labels 0 (by omega)
  have start : encapsulated 0 0 = .ethernet := rfl
  rw [carriesStack, length_map, isEmpty_map, ← start]
  simpa only [Nat.mul_zero, Nat.add_zero, Nat.zero_add] using decided

theorem tagsFirst_of_split (tags labels : List (Option Word)) :
    TagsFirst 0 (tags.map .vlan ++ labels.map .mpls) := by
  have behind : ∀ (labels : List (Option Word)) (depth : Nat),
      TagsFirst depth (labels.map .mpls) := by
    intro labels
    induction labels with
    | nil => exact fun _ => trivial
    | cons label rest ih => exact fun depth => ih (depth + 1)
  induction tags with
  | nil => exact behind labels 0
  | cons id rest ih => exact ⟨rfl, ih⟩

/-- Numbers in the range of their fields are taken as they are. -/
theorem given_of_lt {num : Option Word} (fits : ∀ n ∈ num, n.toNat < 2 ^ 31) : given num = num := by
  cases num with
  | none => rfl
  | some n =>
    have small := fits n rfl
    have positive : 0 ≤ n.toInt := by
      rw [BitVec.toInt_eq_toNat_of_lt (by omega)]
      exact Int.natCast_nonneg _
    simp [given, positive]

theorem labelGiven_of_lt {num : Option Word} (fits : ∀ n ∈ num, n.toNat < 2 ^ 20) :
    labelGiven num = num := by
  rw [labelGiven, given_of_lt fun n found => lt_trans (fits n found) (by decide)]
  cases num with
  | none => rfl
  | some n =>
    have small := fits n rfl
    have kept : n &&& 0xfffff = n := by
      apply BitVec.eq_of_toNat_eq
      rw [BitVec.toNat_and]
      exact Nat.and_two_pow_sub_one_of_lt_two_pow small
    rw [Option.map_some, kept]

/-- The result of a filter whose tests have an outcome. -/
def verdict (snaplen : Word) : Option Bool → Result
  | none => .reject .load
  | some value => .ret (if value then snaplen else 0)

/-- The graph of header tests returns what the tests say. -/
theorem Graphed.stops {c : Formula} {g g' : Gen} {ids : Cond BlockId} {accept reject : BlockId}
    (graphed : Graphed c g g' ids accept reject) (tests : HeaderTests c) (p : Packet)
    (mem : Reg → Word) :
    (graphStep g'.heap p).Stops ⟨ids.first, 0, ⟨0, 0, mem⟩⟩
      (verdict g.snaplen (outcome p mem c)) := by
  have runs := tests.runs graphed.shape graphed.finished.wired p ⟨0, 0, mem⟩
  cases found : outcome p mem c with
  | none =>
    simp only [found] at runs
    exact runs
  | some value =>
    simp only [found] at runs
    obtain ⟨m', path⟩ := runs
    cases value with
    | true =>
      exact path.stops_iff.mpr (Step.stops_of_step
        (graphStep_return graphed.returnStmts.1 graphed.acceptRet))
    | false =>
      exact path.stops_iff.mpr (Step.stops_of_step
        (graphStep_return graphed.returnStmts.2 graphed.rejectRet))

/-- The conjunction is compiled, and its graph makes the tests in order. -/
theorem compileFilter_stops {t : Cond Encap} (conjunction : Conjunction t)
    {tags labels : List (Option Word)}
    (split : t.leaves = tags.map .vlan ++ labels.map .mpls) (snaplen : Word) :
    ∃ g root, Runs (compileFilter (t.map Encap.primitive)) (.start .ethernet snaplen) () g ∧
      g.root = some root ∧ ∀ (p : Packet) (mem : Reg → Word),
        (graphStep g.heap p).Stops ⟨root, 0, ⟨0, 0, mem⟩⟩
          (verdict snaplen (inOrder (outcomes p .ethernet t.leaves))) := by
  have ethernet : OnEthernet (Gen.start .ethernet snaplen).layout := ⟨rfl, rfl, rfl, rfl⟩
  have ordered : TagsFirst (Gen.start .ethernet snaplen).layout.labelStackDepth t.leaves := by
    rw [split]
    exact tagsFirst_of_split tags labels
  obtain ⟨c, tests, after⟩ := tests_conjunction conjunction ethernet ordered
  have plain : is80211 (t.leaves.foldl Encap.advance Layout.ethernet).linktype = false := by
    have same : (t.leaves.foldl Encap.advance Layout.ethernet).linktype = dltEn10mb :=
      after.linktype
    rw [same]
    rfl
  obtain ⟨g, ids, accept, reject, graphed⟩ := exists_graphed c
    (g := { Gen.start .ethernet snaplen with
      layout := t.leaves.foldl Encap.advance Layout.ethernet }) nofun plain
  refine ⟨g, ids.first, .bind tests.ran graphed.ran, graphed.rootEq, ?_⟩
  intro p mem
  have stops := Graphed.stops graphed tests.tests p mem
  rw [tests.outcome p mem] at stops
  exact stops

/-- **Nested encapsulations.** On Ethernet, a conjunction of any number of `vlan` primitives and
of any number of `mpls` primitives behind them, whose last tag or label is below 2^31 if the
packet has more bytes: unless a load faults, the compiled filter accepts the packet if it carries
such tags and labels, with the numbers as the code takes them; these are the given ones if every
tag's number is below 2^31 and every label below 2^20. -/
theorem compileFilter_encapsulated {t : Cond Encap} (conjunction : Conjunction t)
    {tags labels : List (Option Word)}
    (split : t.leaves = tags.map .vlan ++ labels.map .mpls) (snaplen : Word) :
    ∃ g root, Runs (compileFilter (t.map Encap.primitive)) (.start .ethernet snaplen) () g ∧
      g.root = some root ∧ ∀ (p : Packet) (mem : Reg → Word),
        p.buflen ≤ 2 ^ 31 ∨ 14 + 4 * (tags.length + labels.length) < 2 ^ 31 →
        ¬ (graphStep g.heap p).Stops ⟨root, 0, ⟨0, 0, mem⟩⟩ (.reject .load) →
        (graphStep g.heap p).Stops ⟨root, 0, ⟨0, 0, mem⟩⟩
          (.ret (if carriesStack p (tags.map given) (labels.map labelGiven) then snaplen else 0)) ∧
        ((∀ id ∈ tags, ∀ n ∈ id, n.toNat < 2 ^ 31) →
          (∀ label ∈ labels, ∀ n ∈ label, n.toNat < 2 ^ 20) →
          (graphStep g.heap p).Stops ⟨root, 0, ⟨0, 0, mem⟩⟩
            (.ret (if carriesStack p tags labels then snaplen else 0))) := by
  obtain ⟨g, root, ran, isRoot, stops⟩ := compileFilter_stops conjunction split snaplen
  refine ⟨g, root, ran, isRoot, ?_⟩
  intro p mem low noFault
  have ending := stops p mem
  rw [split] at ending
  have returns : (graphStep g.heap p).Stops ⟨root, 0, ⟨0, 0, mem⟩⟩
      (.ret (if carriesStack p (tags.map given) (labels.map labelGiven) then snaplen else 0)) := by
    rcases decides_carriesStack tags labels low with fault | decided
    · rw [fault] at ending
      exact absurd ending noFault
    · rw [decided] at ending
      exact ending
  refine ⟨returns, fun tagsFit labelsFit => ?_⟩
  have sameTags : tags.map given = tags := by
    rw [map_congr_left fun id found => given_of_lt (tagsFit id found), map_id']
  have sameLabels : labels.map labelGiven = labels := by
    rw [map_congr_left fun label found => labelGiven_of_lt (labelsFit label found), map_id']
  rwa [sameTags, sameLabels] at returns

/-- `vlan 300 and vlan and mpls 100 and mpls` -/
def taggedAndLabelled : Cond Encap :=
  .and (.and (.and (.leaf (.vlan (some 300))) (.leaf (.vlan none))) (.leaf (.mpls (some 100))))
    (.leaf (.mpls none))

/-- An Ethernet frame with the tags 300 and 7 and the label 100, which is not the last one. -/
def labelledFrame : Packet where
  data := List.replicate 12 0 ++
    [0x81, 0x00, 0x01, 0x2c, 0x91, 0x00, 0x00, 0x07, 0x88, 0x47, 0x00, 0x06, 0x40, 0x00]
  wirelen := 26
  around := fun _ => 0
  length_lt := by decide

theorem compileFilter_encapsulated_frame :
    ∃ g root, Runs (compileFilter (taggedAndLabelled.map Encap.primitive))
        (.start .ethernet 96) () g ∧
      g.root = some root ∧
      (graphStep g.heap labelledFrame).Stops ⟨root, 0, ⟨0, 0, fun _ => 0⟩⟩ (.ret 96) := by
  have conjunction : Conjunction taggedAndLabelled := ⟨⟨⟨trivial, trivial⟩, trivial⟩, trivial⟩
  have split : taggedAndLabelled.leaves =
      [some 300, none].map .vlan ++ [some 100, none].map .mpls := rfl
  obtain ⟨g, root, ran, isRoot, result⟩ := compileFilter_encapsulated conjunction split 96
  obtain ⟨g', root', ran', isRoot', stops⟩ := compileFilter_stops conjunction split 96
  obtain ⟨_, rfl⟩ := ran.unique ran'
  obtain rfl : root = root' := Option.some.inj (isRoot.symm.trans isRoot')
  have passes : inOrder (outcomes labelledFrame .ethernet taggedAndLabelled.leaves) =
      some true := by
    decide +kernel
  have ending := stops labelledFrame fun _ => 0
  rw [passes] at ending
  have noFault : ¬ (graphStep g.heap labelledFrame).Stops ⟨root, 0, ⟨0, 0, fun _ => 0⟩⟩
      (.reject .load) := by
    intro fault
    cases ending.unique fault
  have tagsFit : ∀ id ∈ [some (300 : Word), none], ∀ n ∈ id, n.toNat < 2 ^ 31 := by simp
  have labelsFit : ∀ label ∈ [some (100 : Word), none], ∀ n ∈ label, n.toNat < 2 ^ 20 := by simp
  have returns := (result labelledFrame (fun _ => 0) (.inl (by decide)) noFault).2 tagsFit labelsFit
  have carried : carriesStack labelledFrame [some 300, none] [some 100, none] = true := by
    decide +kernel
  rw [carried] at returns
  exact ⟨g, root, ran, isRoot, returns⟩

/-- An Ethernet frame with the label 1. -/
def labelOneFrame : Packet where
  data := List.replicate 12 0 ++ [0x88, 0x47, 0x00, 0x00, 0x11, 0x00]
  wirelen := 18
  around := fun _ => 0
  length_lt := by decide

/-- `mpls 1048577` accepts a packet with the label 1. -/
theorem mpls_loses_high_bits :
    ∃ g root, Runs (compileFilter ((Cond.leaf (Encap.mpls (some 1048577))).map Encap.primitive))
        (.start .ethernet 96) () g ∧ g.root = some root ∧
      (graphStep g.heap labelOneFrame).Stops ⟨root, 0, ⟨0, 0, fun _ => 0⟩⟩ (.ret 96) ∧
      carriesStack labelOneFrame [] [some 1048577] = false := by
  have split : (Cond.leaf (Encap.mpls (some 1048577))).leaves =
      [].map .vlan ++ [some 1048577].map .mpls := rfl
  obtain ⟨g, root, ran, isRoot, stops⟩ :=
    compileFilter_stops (t := .leaf (.mpls (some 1048577))) trivial split 96
  have passes : inOrder (outcomes labelOneFrame .ethernet
      (Cond.leaf (Encap.mpls (some 1048577))).leaves) = some true := by
    decide +kernel
  have ending := stops labelOneFrame fun _ => 0
  rw [passes] at ending
  exact ⟨g, root, ran, isRoot, ending, by decide +kernel⟩

end Libpcap.Filters
