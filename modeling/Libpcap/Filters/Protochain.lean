/-
# Programs for `protochain`

The program for `ip protochain v` or `ip6 protochain v` first tests the link-layer type
and then runs the loop over the headers (`Program.stops_iff`). The rest of this module
is about packets and not about code: when the loop ends, and when what it finds is what
the headers of the packet say.

The loop adds the length of an extension header to the offset of the header, but takes
the length of an authentication header for the offset of the next. So a packet can send
it in a circle, and behind an authentication header it looks for the next header in the
wrong place.
-/

import Libpcap.Gencode.Checks
import Libpcap.Gencode.Protochain
import Libpcap.Optimize.Programs
import Mathlib.Data.Finite.Prod

namespace Libpcap.Filters

open Libpcap.Bpf Libpcap.Gencode Libpcap.Optimize Libpcap.Semantics List

variable {values : List Word} {i : Nat} {result : Result} {k nxt : Word}

/-! ## The program -/

/-- The protocol qualifier of a family. -/
def proto : Family → Proto
  | .ipv4 => .ip
  | .ipv6 => .ipv6

/-- Compile `ip protochain v` or `ip6 protochain v` up to the end of the parse. -/
def compileProtochain (v : Word) (family : Family) : GenM Unit := do
  let c ← genProtochain v (proto family)
  compileFormula c

/-- The program that `pcap_compile` returns for the primitive. The generator asks for the
optimizer not to be run. -/
def Program (v : Word) (family : Family) (layout : Layout) (snaplen : Word) (code : List Insn) :
    Prop :=
  ∃ g root, Runs (compileProtochain v family) (.start layout snaplen) () g ∧
    g.root = some root ∧ g.noOptimize = true ∧ icodeToFcode g.heap root = .ok (code.map some)

/-- The chain that is looked for on a link type. -/
def chain (v : Word) (family : Family) (layout : Layout) : Protochain :=
  ⟨family, v, layout.offMacpl + layout.offNl⟩

/-- The outcome of the test that a packet carries the family: `none` when it is too short
for the test. -/
def carries (family : Family) (layout : Layout) (p : Packet) (mem : Reg → Word) : Option Bool :=
  match (genLinktype family.ethertype).run (.start layout 0) with
  | .ok (c, _) => outcome p mem c
  | .error _ => none

/-- What the generator has done, once it has succeeded. -/
structure Generated (v : Word) (family : Family) (layout : Layout) (snaplen : Word) (c : Formula)
    (g : Gen) (link : Formula) (r : Reg) : Prop where
  formula : c = .and link (.leaf ((chain v family layout).leaf r))
  tests : HeaderTests link
  light : weight link ≤ 63
  plain : is80211 layout.linktype = false
  carries : ∀ p mem, carries family layout p mem = outcome p mem link
  layout : g.layout = layout
  heap : g.heap = .empty
  snaplen : g.snaplen = snaplen
  noOptimize : g.noOptimize = true

theorem runs_genProtochain {v : Word} {family : Family} {layout : Layout} {snaplen : Word}
    {c : Formula} {g : Gen} (plainFixed : is80211 layout.linktype = false → layout.Fixed)
    (ran : Runs (genProtochain v (proto family)) (.start layout snaplen) c g) :
    ∃ link r, Generated v family layout snaplen c g link r := by
  have inFamily : ∃ r g₁, Runs allocReg (.start layout snaplen) r g₁ ∧
      Runs (genProtochainIn v family r) g₁ c g := by
    obtain ⟨r, g₁, allocated, rest⟩ := runs_bind_iff.mp ran
    refine ⟨r, g₁, allocated, ?_⟩
    cases family with
    | ipv4 | ipv6 => exact rest
  obtain ⟨r, g₁, allocated, rest⟩ := inFamily
  obtain ⟨_, rfl⟩ := runs_allocReg_iff.mp allocated
  obtain ⟨l, g₂, here, rest⟩ := runs_bind_iff.mp rest
  obtain ⟨rfl, rfl⟩ : layout = l ∧ (Gen.start layout snaplen).withAlloc r = g₂ := by
    cases here
    exact ⟨rfl, rfl⟩
  by_cases plain : is80211 layout.linktype = true
  · rw [if_pos plain] at rest
    exact absurd rest not_runs_throw
  rw [if_neg plain] at rest
  rw [Bool.not_eq_true] at plain
  obtain ⟨_, g₃, set, rest⟩ := runs_bind_iff.mp rest
  obtain rfl := runs_modify_iff.mp set
  obtain ⟨link, g₄, tested, rest⟩ := runs_bind_iff.mp rest
  obtain ⟨⟨tests, light⟩, assigns, again⟩ := tests_genLinktype _ _ _ _ tested
  obtain rfl := assigns.eq_of_fixed (plainFixed plain)
  have fromStart : Runs (genLinktype family.ethertype) (.start layout 0) link (.start layout 0) :=
    again _ ⟨rfl, nofun, nofun⟩
  cases rest
  refine ⟨link, r, ?_⟩
  exact
    { formula := rfl
      tests := tests
      light := light
      plain := plain
      carries := fun p mem => by rw [carries, fromStart]
      layout := rfl
      heap := rfl
      snaplen := rfl
      noOptimize := rfl }

/-! ## The statements of the loop -/

theorem jumpInside_newStmt {length : Nat} {code : Code} (noJump : bpfClass code ≠ bpfJmp) :
    jumpInside length (newStmt code k) i = true := by
  rw [jumpInside, newStmt, bne_iff_ne.mpr noJump, Bool.true_or]

theorem jumpInside_testA {length : Nat} {jt jf : Int}
    (onTrue : 0 ≤ jt ∧ jt < 256 ∧ (i : Int) + 1 + jt < length)
    (onFalse : 0 ≤ jf ∧ jf < 256 ∧ (i : Int) + 1 + jf < length) :
    jumpInside length (testA k jt jf) i = true := by
  have isTest : jmp bpfJeq ≠ bpfJmp ||| bpfJa := by decide
  rw [jumpInside, Bool.or_eq_true]
  right
  rw [testA, if_neg isTest]
  simp [onTrue, onFalse]

/-- The jumps of the loop stay inside the block. -/
theorem localOk_stmts (c : Protochain) (r : Reg) : LocalOk (c.stmts r) := by
  obtain ⟨family, v, base⟩ := c
  cases family with
  | ipv4 | ipv6 =>
    apply localOk_of_jumpInside
    · rfl
    · simp only [Protochain.stmts, Protochain.beforeEnd, Protochain.beforeAh,
        Protochain.startStmts, Protochain.againStmts, Protochain.extensionStmts,
        Protochain.advanceStmts, Protochain.ahStmts, Protochain.extensionRoom,
        cons_append, nil_append, zipIdx_cons, zipIdx_nil, length_cons,
        length_nil, all_cons, all_nil]
      simp +decide [jumpInside_newStmt, jumpInside_testA]

theorem flatLeaf_leaf (c : Protochain) (r : Reg) : FlatLeaf (c.leaf r) where
  localOk := localOk_stmts c r
  branch := ⟨.jeq, .k, decode_jmp .jeq⟩

theorem weight_leaf_le (c : Protochain) (r : Reg) : weight (.leaf (c.leaf r)) ≤ 64 := by
  obtain ⟨family, v, base⟩ := c
  cases family with
  | ipv4 | ipv6 => exact of_decide_eq_true rfl

/-! ## What the program does -/

/-- The ids of a conjunction are a conjunction of ids. -/
theorem exists_ids_and {h : Heap} {ids : Cond BlockId} {left : Formula} {l : Leaf}
    (shape : ids.map h.leaf = .and left (.leaf l)) :
    ∃ idsLeft b, ids = .and idsLeft (.leaf b) ∧ idsLeft.map h.leaf = left ∧ h.leaf b = l := by
  cases ids with
  | and first second =>
    cases second with
    | leaf b =>
      injection shape with leftShape rightShape
      injection rightShape with leafShape
      exact ⟨first, b, rfl, leftShape, leafShape⟩
    | _ => cases shape
  | _ => cases shape

/-- The blocks of the program: the link-layer test in front of the loop. -/
theorem stops_iff_of_compiled {link : Formula} {c : Protochain} {r : Reg} {snaplen : Word}
    {h : Heap} {ids : Cond BlockId} {accept reject : BlockId} {code : List Insn}
    (tests : HeaderTests link)
    (compiled : Compiled (.and link (.leaf (c.leaf r))) snaplen h ids accept reject code)
    (p : Packet) (m : Machine) (result : Result) :
    (graphStep h p).Stops ⟨ids.first, 0, m⟩ result ↔
      match outcome p m.mem link with
      | none => .reject .load = result
      | some false => .ret 0 = result
      | some true => c.Ends snaplen p result := by
  obtain ⟨idsLink, b, rfl, linkShape, leafShape⟩ := exists_ids_and compiled.shape
  obtain ⟨wired, onTrue, onFalse⟩ := compiled.finished.wired
  have inGraph : c.InGraph r h b accept reject snaplen :=
    { stmts := congrArg Leaf.stmts leafShape
      branch := ⟨congrArg (fun l => decode l.code) leafShape, congrArg Leaf.k leafShape⟩
      onTrue := onTrue
      onFalse := onFalse
      acceptStmts := compiled.acceptStmts
      rejectStmts := compiled.rejectStmts
      acceptRet := compiled.acceptRet
      rejectRet := compiled.rejectRet }
  have front := tests.runs linkShape wired p m
  cases found : outcome p m.mem link with
  | none =>
    rw [found] at front
    exact ⟨front.unique, fun same => same ▸ front⟩
  | some value =>
    rw [found] at front
    obtain ⟨m', path⟩ := front
    cases value with
    | true => exact path.stops_iff.trans (Protochain.stops_iff inGraph p m' result)
    | false =>
      have returns := graphStep_return (p := p) (m := m') compiled.rejectStmts compiled.rejectRet
      exact path.stops_iff.trans (Step.stops_iff_of_stop returns)

section Compiling

variable {v : Word} {family : Family} {layout : Layout} {snaplen : Word} {c : Formula} {g : Gen}
  {link : Formula} {r : Reg}

/-- Once the generator has succeeded, so does the rest of the compilation. -/
theorem Generated.compiled (generated : Generated v family layout snaplen c g link r) :
    ∃ g' ids accept reject code, Runs (compileFormula c) g () g' ∧ g'.root = some ids.first ∧
      g'.noOptimize = true ∧ icodeToFcode g'.heap ids.first = .ok (code.map some) ∧
      Compiled (.and link (.leaf ((chain v family layout).leaf r))) snaplen g'.heap ids accept
        reject code := by
  have flat : ∀ l ∈ c.leaves, FlatLeaf l := by
    rw [generated.formula]
    intro l member
    rcases mem_append.mp member with inLink | inChain
    · exact .of_straight (headerTests_straight generated.tests l inLink)
    · rw [mem_singleton.mp inChain]
      exact flatLeaf_leaf _ r
  have light : weight c < 2 ^ 29 := by
    have linkLight := generated.light
    have chainLight := weight_leaf_le (chain v family layout) r
    rw [generated.formula, weight_and]
    omega
  have plain : is80211 g.layout.linktype = false := by
    rw [generated.layout]
    exact generated.plain
  obtain ⟨g', ids, accept, reject, code, ran, isFirst, converted, compiled⟩ :=
    exists_compiled generated.heap plain flat light
  rw [generated.formula, generated.snaplen] at compiled
  have logged : g.heap.Logged := by
    rw [generated.heap]
    nofun
  have off := noOptimize_compileFormula logged ran generated.noOptimize
  exact ⟨g', ids, accept, reject, code, ran, isFirst, off, converted, compiled⟩

variable (plainFixed : is80211 layout.linktype = false → layout.Fixed)

include plainFixed

theorem exists_program (ran : Runs (genProtochain v (proto family)) (.start layout snaplen) c g) :
    ∃ code, Program v family layout snaplen code := by
  obtain ⟨link, r, generated⟩ := runs_genProtochain plainFixed ran
  obtain ⟨g', ids, _, _, code, ranCompile, isFirst, unoptimized, converted, _⟩ :=
    generated.compiled
  exact ⟨code, g', ids.first, .bind ran ranCompile, isFirst, unoptimized, converted⟩

/-- **The program.** It makes the link-layer test and then runs the loop. -/
theorem Program.stops_iff {code : List Insn} (program : Program v family layout snaplen code)
    (p : Packet) (mem : Reg → Word) (result : Result) :
    (step code p).Stops (.init mem) result ↔
      match carries family layout p mem with
      | none => .reject .load = result
      | some false => .ret 0 = result
      | some true => (chain v family layout).Ends snaplen p result := by
  obtain ⟨g, root, ran, isRoot, -, converted⟩ := program
  obtain ⟨c, g₁, ranGen, ranCompile⟩ := runs_bind_iff.mp ran
  obtain ⟨link, r, generated⟩ := runs_genProtochain plainFixed ranGen
  obtain ⟨g', ids, accept, reject, code', ran', isFirst, -, converted', compiled⟩ :=
    generated.compiled
  obtain ⟨-, rfl⟩ := ranCompile.unique ran'
  obtain rfl : root = ids.first := Option.some.inj (isRoot.symm.trans isFirst)
  obtain rfl : code = code' := by
    have same := Except.ok.inj (converted.symm.trans converted')
    exact map_injective_iff.mpr (Option.some_injective _) same
  rw [← compiled.runs, generated.carries]
  exact stops_iff_of_compiled generated.tests compiled p _ result

end Compiling

/-! ## Packets on which the loop ends -/

/-- The call of `bpf_filter` returns. -/
def Returns (code : List Insn) (p : Packet) (mem : Reg → Word) : Prop :=
  ∃ result value, (step code p).Stops (.init mem) result ∧ result.returned = some value

section Loop

variable {c : Protochain} {snaplen : Word} {p : Packet}

/-- A header that the loop skips. -/
theorem step_go {a x : Word} {next : Word × Word} (move : c.step snaplen p (a, x) = .go next) :
    a ≠ c.v ∧ (a ∈ c.family.extensions ∧ c.skipExtension p x = .ok next ∨
      a = ipprotoAh ∧ c.skipAh p x = .ok next) := by
  have skipped : ∀ skip : Except Result (Word × Word), Protochain.goOn skip = .go next →
      skip = .ok next := by
    intro skip goes
    cases skip with
    | ok there =>
      cases goes
      rfl
    | error failed => cases goes
  simp only [Protochain.step] at move
  split_ifs at move with found last extension isAh
  · exact ⟨found, .inl ⟨extension, skipped _ move⟩⟩
  · exact ⟨found, .inr ⟨isAh, skipped _ move⟩⟩

theorem byte_ok {w : Word} (loaded : Protochain.byte p k = .ok w) :
    k.toNat < p.buflen ∧ w.toNat < 256 := by
  rw [Protochain.byte, Packet.touched] at loaded
  by_cases outside : p.buflen ≤ k.toNat
  · rw [if_pos outside] at loaded
    cases loaded
  · rw [if_neg outside] at loaded
    cases loaded
    have small := (p.byteAt k.toInt).isLt
    refine ⟨by omega, ?_⟩
    simp [Packet.bigEndian]
    omega

section Loads

variable {α : Type} {f : Word → Word → α}

/-- Two loads that succeed. -/
theorem loads_ok {first second : Except Result Word} {value : α}
    (ran : (do
      let a ← first
      let b ← second
      return f a b) = .ok value) :
    ∃ a b, first = .ok a ∧ second = .ok b ∧ value = f a b := by
  cases first with
  | error failed => cases ran
  | ok a =>
    cases second with
    | error failed => cases ran
    | ok b =>
      cases ran
      exact ⟨a, b, rfl, rfl, rfl⟩

/-- Two loads of which one fails. -/
theorem loads_error {first second : Option (List Int)}
    (ran : (do let a ← p.read first let b ← p.read second return f a b) = .error result) :
    result = .reject .load := by
  cases loaded : p.read first with
  | error failed =>
    rw [loaded] at ran
    cases ran
    exact Packet.read_error loaded
  | ok a =>
    cases loaded' : p.read second with
    | error failed =>
      rw [loaded, loaded'] at ran
      cases ran
      exact Packet.read_error loaded'
    | ok b =>
      rw [loaded, loaded'] at ran
      cases ran

end Loads

theorem goOn_stop {skip : Except Result (Word × Word)}
    (stopped : Protochain.goOn skip = .stop result) : skip = .error result := by
  cases skip with
  | ok next => cases stopped
  | error failed =>
    cases stopped
    rfl

/-- The loop ends with a return or with a load that fails. -/
theorem step_stop {registers : Word × Word} (stopped : c.step snaplen p registers = .stop result) :
    result = .ret snaplen ∨ result = .ret 0 ∨ result = .reject .load := by
  obtain ⟨a, x⟩ := registers
  simp only [Protochain.step] at stopped
  split_ifs at stopped
  · cases stopped
    exact .inl rfl
  · cases stopped
    exact .inr (.inl rfl)
  · exact .inr (.inr (loads_error (goOn_stop stopped)))
  · exact .inr (.inr (loads_error (goOn_stop stopped)))
  · cases stopped
    exact .inr (.inl rfl)

theorem start_error (failed : c.start p = .error result) : result = .reject .load := by
  unfold Protochain.start at failed
  split at failed
  · exact loads_error failed
  · cases loaded : Protochain.byte p (c.base + 6) with
    | error stopped =>
      rw [loaded] at failed
      cases failed
      exact Packet.read_error loaded
    | ok nxt =>
      rw [loaded] at failed
      cases failed

/-- However the loop ends, the call returns. -/
theorem ends_returned (ends : c.Ends snaplen p result) : ∃ value, result.returned = some value := by
  unfold Protochain.Ends at ends
  split at ends
  · obtain ⟨last, _, stopped⟩ := ends
    rcases step_stop stopped with rfl | rfl | rfl <;> exact ⟨_, rfl⟩
  · rename_i failed started
    subst ends
    rw [start_error started]
    exact ⟨0, rfl⟩

/-- Every authentication header that the loop skips leads it to a header further back
in the packet. -/
def AhForward (c : Protochain) (snaplen : Word) (p : Packet) : Prop :=
  ∀ first x nxt y, c.start p = .ok first → (c.step snaplen p).Reaches first (ipprotoAh, x) →
    ipprotoAh ≠ c.v → c.skipAh p x = .ok (nxt, y) → x + c.base < y + c.base

/-- Unless an authentication header leads it back, the loop goes through the packet. -/
theorem ends_of_ahForward (room : p.buflen + 2048 ≤ 2 ^ 32) (forward : AhForward c snaplen p) :
    ∃ result, c.Ends snaplen p result := by
  cases started : c.start p with
  | error failed => exact ⟨failed, by rw [Protochain.Ends, started]⟩
  | ok first =>
    simp only [Protochain.Ends, started]
    have further : ∀ source target, (c.step snaplen p).Reaches first source →
        c.step snaplen p source = .go target →
        (source.2 + c.base).toNat < (target.2 + c.base).toNat := by
      rintro ⟨a, x⟩ ⟨b, y⟩ path move
      obtain ⟨notFound, ⟨_, skipped⟩ | ⟨rfl, skipped⟩⟩ := step_go move
      · obtain ⟨nxt, len, atNxt, atLen, same⟩ := loads_ok skipped
        cases same
        obtain ⟨inside, -⟩ := byte_ok atNxt
        obtain ⟨-, small⟩ := byte_ok atLen
        have stride : ((len + 1) * 8).toNat = (len.toNat + 1) * 8 := by
          have one : (1 : Word).toNat = 1 := rfl
          have eight : (8 : Word).toNat = 8 := rfl
          rw [BitVec.toNat_mul, BitVec.toNat_add, one, eight]
          omega
        have sum : (len + 1) * 8 + x + c.base = x + c.base + (len + 1) * 8 := by
          rw [BitVec.add_assoc, BitVec.add_comm]
        change (x + c.base).toNat < ((len + 1) * 8 + x + c.base).toNat
        rw [sum, BitVec.toNat_add _ ((len + 1) * 8), stride]
        omega
      · exact forward first x b y started path notFound skipped
    have kept : ∀ source target, (c.step snaplen p).Reaches first source →
        c.step snaplen p source = .go target → (c.step snaplen p).Reaches first target :=
      fun source target path move => path.trans (.single move)
    have smaller : ∀ source target, (c.step snaplen p).Reaches first source →
        c.step snaplen p source = .go target →
        2 ^ 32 - (target.2 + c.base).toNat < 2 ^ 32 - (source.2 + c.base).toNat := by
      intro source target path move
      have later := further source target path move
      have bound := (target.2 + c.base).isLt
      omega
    have measured := Step.runFor_stops_of_measure
      (fun registers => 2 ^ 32 - (registers.2 + c.base).toNat) kept smaller (.refl first)
      (Nat.lt_succ_self _)
    obtain ⟨result, ran⟩ := measured
    exact ⟨result, Step.stops_iff_runFor.mpr ⟨_, ran⟩⟩

end Loop

instance finite_word : Finite Word :=
  Finite.of_injective BitVec.toFin fun _ _ => BitVec.toFin_inj.mp

/-- **Termination.** The call returns unless the headers of the packet lead the loop in a
circle; headers that all lead forward do not. -/
theorem protochain_returns_iff {v : Word} {family : Family} {linktype : Nat} {fddipad : Word}
    {swapped : Bool} {layout : Layout} {snaplen : Word} {code : List Insn}
    (initialised : initLinktype linktype fddipad swapped = .ok layout)
    (program : Program v family layout snaplen code) (p : Packet) (mem : Reg → Word) :
    (Returns code p mem ↔ (carries family layout p mem = some true →
      ∀ first, (chain v family layout).start p = .ok first →
        ¬ ((chain v family layout).step snaplen p).Circular first)) ∧
    (p.buflen + 2048 ≤ 2 ^ 32 → AhForward (chain v family layout) snaplen p →
      Returns code p mem) := by
  have stops := program.stops_iff (fixed_of_initLinktype initialised) p mem
  have returns : Returns code p mem ↔ (carries family layout p mem = some true →
      ∃ result, (chain v family layout).Ends snaplen p result) := by
    constructor
    · rintro ⟨result, value, stopped, _⟩ carried
      rw [stops, carried] at stopped
      exact ⟨result, stopped⟩
    · intro ends
      cases outcome : carries family layout p mem with
      | none => exact ⟨_, 0, (stops _).mpr (by rw [outcome]), rfl⟩
      | some carried =>
        cases carried with
        | false => exact ⟨_, 0, (stops _).mpr (by rw [outcome]), rfl⟩
        | true =>
          obtain ⟨result, ended⟩ := ends outcome
          obtain ⟨value, returned⟩ := ends_returned ended
          exact ⟨result, value, (stops _).mpr (by rw [outcome]; exact ended), returned⟩
  refine ⟨?_, fun room forward => returns.mpr fun _ => ends_of_ahForward room forward⟩
  rw [returns]
  apply imp_congr_right
  intro _
  cases started : (chain v family layout).start p with
  | error failed => simp [Protochain.Ends, started]
  | ok first =>
    simp only [Protochain.Ends, started, Except.ok.injEq, forall_eq']
    exact Step.stops_iff_not_circular

/-- An Ethernet frame with an IPv4 header of 20 bytes. -/
def ipv4Frame (protocol : BitVec 8) (rest : List (BitVec 8)) (short : rest.length < 1500) :
    Packet where
  data := [0, 0, 0, 0, 0, 1, 0, 0, 0, 0, 0, 2, 8, 0,
    0x45, 0, 0, 60, 0, 0, 0, 0, 64, protocol, 0, 0, 10, 0, 0, 1, 10, 0, 0, 2] ++ rest
  wirelen := 1514
  around := fun _ => 0
  length_lt := by
    simp only [List.length_append, List.length_cons, List.length_nil]
    omega

theorem exists_program_ethernet (v : Word) : ∃ code, Program v .ipv4 .ethernet 65535 code := by
  have generates : passes (genProtochain v .ip) (.start .ethernet 65535)
      (fun _ _ => true) = true := rfl
  obtain ⟨c, g, ran, _⟩ := exists_runs _ generates
  exact exists_program (fun _ => ⟨rfl, rfl⟩) ran

/-- A TCP segment behind an authentication header of 12 bytes. -/
theorem protochain_returns_tcp :
    ∃ code, Program 6 .ipv4 .ethernet 65535 code ∧
      Returns code (ipv4Frame 51 [6, 1, 0, 0, 0, 0, 0, 1, 0, 0, 0, 0] (by decide)) (fun _ => 0) := by
  obtain ⟨code, program⟩ := exists_program_ethernet 6
  have initialised : initLinktype dltEn10mb 0 false = .ok .ethernet := rfl
  refine ⟨code, program, (protochain_returns_iff initialised program _ _).1.mpr ?_⟩
  intro _ first started
  cases started
  exact Step.stops_iff_not_circular.mp ⟨.ret 65535, Step.stops_iff_runFor.mpr ⟨2, rfl⟩⟩

/-- An authentication header of 20 bytes, 20 bytes behind the start of the IPv4 header,
that says it is followed by another: the loop looks at it again and again. -/
theorem protochain_circles :
    ∃ code, Program 6 .ipv4 .ethernet 65535 code ∧ ∀ mem,
      ¬ ∃ result, (step code (ipv4Frame 51 [51, 3, 0, 0, 0, 0, 0, 1] (by decide))).Stops
        (.init mem) result := by
  obtain ⟨code, program⟩ := exists_program_ethernet 6
  refine ⟨code, program, ?_⟩
  rintro mem ⟨result, stops⟩
  rw [program.stops_iff fun _ => ⟨rfl, rfl⟩] at stops
  have circular : ((chain 6 .ipv4 .ethernet).step 65535
      (ipv4Frame 51 [51, 3, 0, 0, 0, 0, 0, 1] (by decide))).Circular (51, 20) :=
    ⟨(51, 20), (51, 20), .refl _, rfl, .refl _⟩
  exact absurd circular (Step.stops_iff_not_circular.mp ⟨result, stops⟩)

/-! ## The headers of a packet -/

/-- The next-header values from a header at an offset on. `nxt` says what that header is;
the network-layer header starts at `base`. -/
inductive Headers (family : Family) (data : List (BitVec 8)) (base : Nat) :
    Word → Nat → List Word → Prop
  | last {nxt : Word} {off : Nat} (noExtension : nxt ∉ family.extensions)
      (notAh : nxt ≠ ipprotoAh) : Headers family data base nxt off [nxt]
  | extension {nxt : Word} {off : Nat} {following len : BitVec 8} {values : List Word}
      (isExtension : nxt ∈ family.extensions) (atNext : data[base + off]? = some following)
      (atLen : data[base + off + 1]? = some len)
      (rest : Headers family data base (following.setWidth 32) (off + (len.toNat + 1) * 8)
        values) : Headers family data base nxt off (nxt :: values)
  | ah {off : Nat} {following len : BitVec 8} {values : List Word}
      (atNext : data[base + off]? = some following) (atLen : data[base + off + 1]? = some len)
      (rest : Headers family data base (following.setWidth 32) (off + (len.toNat + 2) * 4)
        values) : Headers family data base ipprotoAh off (ipprotoAh :: values)

/-- The next-header values of a packet that is long enough for the walk. -/
def HeaderChain (family : Family) (data : List (BitVec 8)) (base : Nat) (values : List Word) :
    Prop :=
  match family with
  | .ipv4 => ∃ first protocol, data[base]? = some first ∧ data[base + 9]? = some protocol ∧
      Headers .ipv4 data base (protocol.setWidth 32) (4 * (first &&& 0xf).toNat) values
  | .ipv6 => ∃ nxt, data[base + 6]? = some nxt ∧
      Headers .ipv6 data base (nxt.setWidth 32) 40 values

/-- Up to the protocol that is looked for, an authentication header is followed by the
last header. -/
def AhLast (v : Word) (values : List Word) : Prop :=
  ∀ front w rest, values = front ++ ipprotoAh :: w :: rest →
    v ∈ front ++ [ipprotoAh, w] ∨ rest = []

theorem AhLast.tail {v : Word} (ahLast : AhLast v (nxt :: values)) (notFound : nxt ≠ v) :
    AhLast v values := by
  intro front w rest split
  rcases ahLast (nxt :: front) w rest (by rw [split, cons_append]) with found | isLast
  · rcases mem_cons.mp found with rfl | later
    · exact absurd rfl notFound
    · exact .inl later
  · exact .inr isLast

section Walk

variable {family : Family} {data : List (BitVec 8)} {base : Nat} {nxt : Word} {off : Nat}
  {values : List Word}

theorem Headers.exists_cons (headers : Headers family data base nxt off values) :
    ∃ rest, values = nxt :: rest := by
  cases headers with
  | last _ _ => exact ⟨[], rfl⟩
  | extension _ _ _ _ => exact ⟨_, rfl⟩
  | ah _ _ _ => exact ⟨_, rfl⟩

/-- A single value is that of a header that is not skipped. -/
theorem Headers.last_of_singleton (headers : Headers family data base nxt off [nxt]) :
    nxt ∉ family.extensions ∧ nxt ≠ ipprotoAh := by
  cases headers with
  | last noExtension notAh => exact ⟨noExtension, notAh⟩
  | extension _ _ _ rest | ah _ _ rest =>
    obtain ⟨_, impossible⟩ := rest.exists_cons
    cases impossible

end Walk

section Verdict

variable {c : Protochain} {snaplen : Word} {p : Packet}

theorem step_found (x : Word) : c.step snaplen p (c.v, x) = .stop (.ret snaplen) := by
  rw [Protochain.step, if_pos rfl]

theorem step_last (noExtension : nxt ∉ c.family.extensions) (notAh : nxt ≠ ipprotoAh)
    (notFound : nxt ≠ c.v) (x : Word) :
    c.step snaplen p (nxt, x) = .stop (.ret 0) := by
  rw [Protochain.step, if_neg notFound, if_neg noExtension, if_neg notAh, ite_self]

/-- A byte of the first 2^31 bytes. -/
theorem field_byte {b : BitVec 8} (found : (p.data.take (2 ^ 31))[i]? = some b)
    (index : k = BitVec.ofNat 32 i) : p.field .b k = some (b.setWidth 32) := by
  rw [getElem?_take] at found
  split at found
  case isFalse => cases found
  obtain ⟨inside, isByte⟩ := List.getElem?_eq_some_iff.mp found
  have below : i < p.buflen := inside
  have toNat : k.toNat = i := by
    rw [index, BitVec.toNat_ofNat]
    omega
  have toInt : k.toInt = i := by
    rw [BitVec.toInt_eq_toNat_cond, toNat]
    split <;> omega
  have bytes : (p.data.drop i).take 1 = [b] := by
    rw [drop_eq_getElem_cons inside, isByte]
    rfl
  have bounds : 0 ≤ k.toInt ∧ k.toInt + Size.bytes .b ≤ p.buflen := by
    rw [toInt]
    exact ⟨by omega, by simp only [Size.bytes]; omega⟩
  rw [Packet.field, if_pos bounds, toNat]
  simp only [Size.bytes, bytes, Packet.bigEndian, foldl_cons, foldl_nil]
  simp

theorem byte_at {b : BitVec 8} (found : (p.data.take (2 ^ 31))[i]? = some b)
    (index : k = BitVec.ofNat 32 i) : Protochain.byte p k = .ok (b.setWidth 32) :=
  p.read_touched_of_field (field_byte found index)

theorem index_add (c : Protochain) (off : Nat) :
    BitVec.ofNat 32 off + c.base = BitVec.ofNat 32 (c.base.toNat + off) := by
  rw [BitVec.ofNat_add, BitVec.ofNat_toNat, BitVec.setWidth_eq, BitVec.add_comm]

theorem index_add_one (c : Protochain) (off : Nat) :
    BitVec.ofNat 32 off + (c.base + 1) = BitVec.ofNat 32 (c.base.toNat + off + 1) := by
  rw [BitVec.ofNat_add _ 1, ← index_add, BitVec.add_assoc]
  rfl

section Skipping

variable {off : Nat} {following len : BitVec 8}
  (atNext : (p.data.take (2 ^ 31))[c.base.toNat + off]? = some following)
  (atLen : (p.data.take (2 ^ 31))[c.base.toNat + off + 1]? = some len)

include atNext atLen

theorem step_extension (isExtension : nxt ∈ c.family.extensions) (notFound : nxt ≠ c.v) :
    c.step snaplen p (nxt, BitVec.ofNat 32 off) =
      .go (following.setWidth 32, BitVec.ofNat 32 (off + (len.toNat + 1) * 8)) := by
  have notNone : nxt ≠ ipprotoNone := by
    rintro rfl
    revert isExtension
    cases c.family <;> decide
  have target : (len.setWidth 32 + 1) * 8 + BitVec.ofNat 32 off =
      BitVec.ofNat 32 (off + (len.toNat + 1) * 8) := by
    have asWord := (BitVec.ofNat_toNat 32 len).symm
    rw [asWord, BitVec.ofNat_add, BitVec.ofNat_mul, BitVec.ofNat_add, BitVec.add_comm]
    rfl
  rw [Protochain.step, if_neg notFound, if_neg notNone, if_pos isExtension,
    Protochain.skipExtension, byte_at atNext (index_add c off),
    byte_at atLen (index_add_one c off), ← target]
  rfl

/-- Behind an authentication header the loop goes on with the right protocol, at an
offset that is not that of the header. -/
theorem step_ah (notFound : ipprotoAh ≠ c.v) :
    c.step snaplen p (ipprotoAh, BitVec.ofNat 32 off) =
      .go (following.setWidth 32, (len.setWidth 32 + 2) * 4) := by
  have notNone : ipprotoAh ≠ ipprotoNone := by decide
  have noExtension : ipprotoAh ∉ c.family.extensions := by cases c.family <;> decide
  have index : BitVec.ofNat 32 off + 1 + c.base = BitVec.ofNat 32 (c.base.toNat + off + 1) := by
    rw [← index_add_one, BitVec.add_assoc, BitVec.add_comm 1]
  rw [Protochain.step, if_neg notFound, if_neg notNone, if_neg noExtension, if_pos rfl,
    Protochain.skipAh, byte_at atNext (index_add c off), byte_at atLen index]
  rfl

end Skipping

/-- The loop follows the headers of the packet. -/
theorem stops_of_headers {off : Nat}
    (headers : Headers c.family (p.data.take (2 ^ 31)) c.base.toNat nxt off values)
    (ahLast : AhLast c.v values) :
    (c.step snaplen p).Stops (nxt, BitVec.ofNat 32 off)
      (.ret (if c.v ∈ values then snaplen else 0)) := by
  have atOnce : ∀ x rest, (c.step snaplen p).Stops (c.v, x)
      (.ret (if c.v ∈ c.v :: rest then snaplen else 0)) := by
    intro x rest
    rw [if_pos mem_cons_self]
    exact Step.stops_of_step (step_found x)
  have later : ∀ {first : Word} {rest : List Word}, first ≠ c.v →
      (c.v ∈ first :: rest ↔ c.v ∈ rest) := by
    intro first rest different
    rw [mem_cons, or_iff_right (Ne.symm different)]
  induction headers with
  | @last nxt off noExtension notAh =>
    by_cases found : nxt = c.v
    · rw [found]
      exact atOnce _ _
    · simp only [later found, not_mem_nil, if_false]
      exact Step.stops_of_step (step_last noExtension notAh found _)
  | @extension nxt off following len values isExtension atNext atLen rest ih =>
    by_cases found : nxt = c.v
    · rw [found]
      exact atOnce _ _
    · simp only [later found]
      rw [Step.stops_iff_of_move (step_extension atNext atLen isExtension found)]
      exact ih (ahLast.tail found)
  | @ah off following len values atNext atLen rest ih =>
    by_cases found : ipprotoAh = c.v
    · rw [found]
      exact atOnce _ _
    · simp only [later found]
      rw [Step.stops_iff_of_move (step_ah atNext atLen found)]
      obtain ⟨tail, rfl⟩ := rest.exists_cons
      by_cases foundNext : following.setWidth 32 = c.v
      · rw [foundNext]
        exact atOnce _ _
      · -- nothing was found, so the header is the last and its offset does not matter
        rcases ahLast [] _ tail rfl with isFound | rfl
        · simp [Ne.symm found, Ne.symm foundNext] at isFound
        · obtain ⟨noExtension, notAh⟩ := rest.last_of_singleton
          simp only [later foundNext, not_mem_nil, if_false]
          exact Step.stops_of_step (step_last noExtension notAh foundNext _)

/-- The length of the IPv4 header. -/
theorem header_length (first : BitVec 8) :
    (first.setWidth 32 &&& 0xf : Word) <<< 2 = BitVec.ofNat 32 (4 * (first &&& 0xf).toNat) := by
  revert first
  decide +kernel

/-- The loop finds the protocol that is looked for in the header chain. -/
theorem ends_of_headerChain
    (walk : HeaderChain c.family (p.data.take (2 ^ 31)) c.base.toNat values)
    (ahLast : AhLast c.v values) :
    c.Ends snaplen p (.ret (if c.v ∈ values then snaplen else 0)) := by
  obtain ⟨family, v, base⟩ := c
  have index : ∀ n : Nat, base + BitVec.ofNat 32 n = BitVec.ofNat 32 (base.toNat + n) := by
    intro n
    rw [BitVec.ofNat_add, BitVec.ofNat_toNat, BitVec.setWidth_eq]
  cases family with
  | ipv4 =>
    obtain ⟨first, protocol, atFirst, atProtocol, headers⟩ := walk
    have loaded : Protochain.byte p (base + 9) = .ok (protocol.setWidth 32) :=
      byte_at atProtocol (index 9)
    have loadedFirst : p.read (p.touchedMsh base) = .ok (first.setWidth 32) := by
      apply p.read_touchedMsh_of_field
      apply field_byte atFirst
      rw [BitVec.ofNat_toNat, BitVec.setWidth_eq]
    have started : Protochain.start ⟨.ipv4, v, base⟩ p =
        .ok (protocol.setWidth 32, BitVec.ofNat 32 (4 * (first &&& 0xf).toNat)) := by
      simp only [Protochain.start, loaded, loadedFirst, ← header_length]
      rfl
    rw [Protochain.Ends, started]
    exact stops_of_headers headers ahLast
  | ipv6 =>
    obtain ⟨nxt, atNext, headers⟩ := walk
    have loaded : Protochain.byte p (base + 6) = .ok (nxt.setWidth 32) :=
      byte_at atNext (index 6)
    have started : Protochain.start ⟨.ipv6, v, base⟩ p = .ok (nxt.setWidth 32, 40) := by
      simp only [Protochain.start, loaded]
      rfl
    rw [Protochain.Ends, started]
    exact stops_of_headers headers ahLast

end Verdict

/-- **The verdict.** A packet of the family is accepted when the protocol occurs in its
header chain, provided that behind an authentication header nothing has to be skipped, and that
the chain ends in the first 2^31 bytes. -/
theorem protochain_verdict {v : Word} {family : Family} {linktype : Nat} {fddipad : Word}
    {swapped : Bool} {layout : Layout} {snaplen : Word} {code : List Insn}
    (initialised : initLinktype linktype fddipad swapped = .ok layout)
    (program : Program v family layout snaplen code) (p : Packet) (mem : Reg → Word)
    {values : List Word}
    (walk : HeaderChain family (p.data.take (2 ^ 31)) (layout.offMacpl + layout.offNl).toNat values)
    (ahLast : AhLast v values) :
    (step code p).Stops (.init mem)
      (match carries family layout p mem with
        | none => .reject .load
        | some false => .ret 0
        | some true => .ret (if v ∈ values then snaplen else 0)) := by
  rw [program.stops_iff (fixed_of_initLinktype initialised)]
  cases carries family layout p mem with
  | none => rfl
  | some carried =>
    cases carried with
    | false => rfl
    | true =>
      have walk' : HeaderChain (chain v family layout).family (p.data.take (2 ^ 31))
        (chain v family layout).base.toNat values := walk
      exact ends_of_headerChain walk' ahLast

/-- An authentication header of 24 bytes, 20 bytes behind the start of the IPv4 header. -/
def ahHeader (following : BitVec 8) : List (BitVec 8) :=
  [following, 4, 0, 0, 0, 0, 0, 1, 0, 0, 0, 1, 0, 0, 0, 0, 0, 0, 0, 0, 0, 0, 0, 0]

/-- A TCP segment behind an authentication header is found. -/
theorem protochain_verdict_ah :
    ∃ code, Program 6 .ipv4 .ethernet 65535 code ∧
      (step code (ipv4Frame 51 (ahHeader 6) (by decide))).Stops (.init fun _ => 0)
        (.ret 65535) := by
  obtain ⟨code, program⟩ := exists_program_ethernet 6
  have initialised : initLinktype dltEn10mb 0 false = .ok .ethernet := rfl
  have walk : HeaderChain .ipv4 ((ipv4Frame 51 (ahHeader 6) (by decide)).data.take (2 ^ 31)) 14
      [51, 6] :=
    ⟨0x45, 51, rfl, rfl, .ah rfl rfl (.last (by decide) (by decide))⟩
  have ahLast : AhLast 6 [51, 6] := by
    intro front w rest split
    have length := congrArg length split
    simp only [length_cons, length_nil, length_append] at length
    exact .inr (length_eq_zero_iff.mp (by omega))
  exact ⟨code, program, protochain_verdict initialised program _ _ walk ahLast⟩

/-- A TCP segment behind two authentication headers is not found: behind the first, the
loop looks for the second inside the first. -/
theorem protochain_misses_header :
    ∃ code, Program 6 .ipv4 .ethernet 65535 code ∧
      HeaderChain .ipv4 (ipv4Frame 51 (ahHeader 51 ++ ahHeader 6) (by decide)).data 14
        [51, 51, 6] ∧
      ∀ mem, carries .ipv4 .ethernet (ipv4Frame 51 (ahHeader 51 ++ ahHeader 6) (by decide)) mem =
          some true ∧
        (step code (ipv4Frame 51 (ahHeader 51 ++ ahHeader 6) (by decide))).Stops (.init mem)
          (.ret 0) := by
  obtain ⟨code, program⟩ := exists_program_ethernet 6
  refine ⟨code, program, ?_, ?_⟩
  · exact ⟨0x45, 51, rfl, rfl, .ah rfl rfl (.ah rfl rfl (.last (by decide) (by decide)))⟩
  · intro mem
    refine ⟨rfl, ?_⟩
    rw [program.stops_iff fun _ => ⟨rfl, rfl⟩]
    have first : (chain 6 .ipv4 .ethernet).step 65535
        (ipv4Frame 51 (ahHeader 51 ++ ahHeader 6) (by decide)) (51, 20) = .go (51, 24) := rfl
    have second : (chain 6 .ipv4 .ethernet).step 65535
        (ipv4Frame 51 (ahHeader 51 ++ ahHeader 6) (by decide)) (51, 24) = .go (0, 8) := rfl
    exact ⟨(0, 8), (Step.Reaches.single first).trans (.single second), rfl⟩

end Libpcap.Filters
