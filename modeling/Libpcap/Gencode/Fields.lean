/-
# Where header fields are

A header test names a field by the header it belongs to and an offset in that header. The
header starts at an offset that is fixed for the link type, that is held by a scratch
register, or, for the transport-layer header of IPv4, that also depends on the length of
the IPv4 header in the packet. `OffRel.base` says where, and `gen_load_a` generates the
load of the field there.
-/

import Libpcap.Gencode.Checks
import Libpcap.Gencode.Evaluation

namespace Libpcap.Gencode

open Libpcap.Bpf Libpcap.Semantics

/-! ## Headers -/

section Base

variable (g : Gen) (mem : Reg → Word)

/-- Where the link-layer header starts. -/
def Gen.linkStart : Word :=
  if hasRadioHeader g.layout.linktype then g.regOffLl.elim 0 mem else g.layout.offLl

/-- Where the payload of the link-layer header starts. -/
def Gen.payloadStart : Word :=
  if g.layout.offMacplIsVariable then g.regOffMacpl.elim 0 mem else g.layout.offMacpl

/-- Where a header starts; the transport-layer header of IPv4 starts nowhere if the length of
the IPv4 header has not been captured. Its place counts the payload offset of the link type
also where a register holds the start of the payload. -/
def OffRel.base (p : Packet) : OffRel → Option Word
  | .packet => some 0
  | .link => some (g.linkStart mem)
  | .macpl => some (g.payloadStart mem)
  | .net => some (g.payloadStart mem + g.layout.offNl)
  | .netNosnap => some (g.payloadStart mem + g.layout.offNlNosnap)
  | .tranIpv4 => do
      let net := g.payloadStart mem + g.layout.offNl
      let first ← p.field .b net
      let moved := if g.layout.offMacplIsVariable then g.layout.offMacpl else 0
      return net + ((first &&& 0xf) <<< 2) + moved
  | .tranIpv6 => some (g.payloadStart mem + g.layout.offNl + 40)

end Base

/-! ## Loads -/

/-- The statements load the number at an index into the accumulator, as a single load
instruction does. -/
def LoadsAt (p : Packet) (mem : Reg → Word) (size : Size) (k : Word) (s : List Stmt) : Prop :=
  ∀ m : Machine, m.mem = mem →
    match p.read (p.touched size k) with
    | .ok v => ∃ m', execStmts p s m = .ok m' ∧ m'.A = v ∧ m'.mem = mem
    | .error result => execStmts p s m = .error result

section Loads

variable {p : Packet} {mem : Reg → Word} {size : Size}

theorem loadsAt_abs (k : Word) :
    LoadsAt p mem size k [newStmt (bpfLd ||| bpfAbs ||| size.code) k] := by
  rintro m rfl
  cases loaded : p.read (p.touched size k) with
  | ok v | error result => simp [execStmts, newStmt, Op.effect, loaded, Effect.ofRead]

theorem loadsAt_ind (p : Packet) (size : Size) (m : Machine) (k : Word) :
    match p.read (p.touched size (m.X + k)) with
    | .ok v => execStmts p [newStmt (bpfLd ||| bpfInd ||| size.code) k] m = .ok { m with A := v }
    | .error result => execStmts p [newStmt (bpfLd ||| bpfInd ||| size.code) k] m =
        .error result := by
  cases loaded : p.read (p.touched size (m.X + k)) with
  | ok v | error result => simp [execStmts, newStmt, Op.effect, loaded, Effect.ofRead]

/-- Statements that leave an index in `X`, and a load relative to `X`. -/
theorem LoadsAt.of_index {s : List Stmt} {x : Word} (k : Word)
    (index : ∀ m : Machine, m.mem = mem → ∃ m', execStmts p s m = .ok m' ∧ m'.X = x ∧
      m'.mem = mem) :
    LoadsAt p mem size (x + k) (s ++ [newStmt (bpfLd ||| bpfInd ||| size.code) k]) := by
  intro m same
  obtain ⟨m', ran, rfl, kept⟩ := index m same
  have load := loadsAt_ind p size m' k
  rw [execStmts_append]
  simp only [ran]
  cases loaded : p.read (p.touched size (m'.X + k)) with
  | ok v =>
    rw [loaded] at load
    exact ⟨_, load, rfl, kept⟩
  | error result =>
    rw [loaded] at load
    exact load

/-- A register that holds an offset, in `X`. -/
theorem exec_loadOffset (r : Reg) (m : Machine) (rest : List Stmt) :
    execStmts p (loadOffset r ++ rest) m = execStmts p rest { m with X := m.mem r } := by
  refine exec_cons decode_ldxMem ?_
  simp only [newStmt, Op.effect, memIndex_word]

/-- A load relative to what a register holds. -/
theorem loadsAt_offset (r : Reg) (k : Word) :
    LoadsAt p mem size (mem r + k)
      (loadOffset r ++ [newStmt (bpfLd ||| bpfInd ||| size.code) k]) := by
  apply LoadsAt.of_index
  rintro m rfl
  refine ⟨{ m with X := m.mem r }, ?_, rfl, rfl⟩
  simpa only [List.append_nil, execStmts] using exec_loadOffset (p := p) r m []

end Loads

/-! ## Loads relative to a header -/

section Relative

variable {g : Gen} {s : List Stmt} {p : Packet} {mem : Reg → Word} {size : Size} {offset : Word}

/-- With its register assigned, the prefix length is fixed or in the register. -/
theorem genLlprefixlen_assigned (ran : Runs genLlprefixlen g s g) :
    (hasRadioHeader g.layout.linktype = false ∧ s = []) ∨
      ∃ r, hasRadioHeader g.layout.linktype = true ∧ g.regOffLl = some r ∧ s = loadOffset r := by
  rw [runs_genLlprefixlen_iff] at ran
  by_cases radio : hasRadioHeader g.layout.linktype = true
  · rw [if_pos radio] at ran
    obtain ⟨r, rfl, ⟨set, _⟩ | ⟨_, _, same⟩⟩ := runs_genRadioLlprefixlen_iff.mp ran
    · exact .inr ⟨r, radio, set, rfl⟩
    · exact .inr ⟨r, radio, by rw [same], rfl⟩
  · rw [if_neg radio] at ran
    exact .inl ⟨by simpa using radio, ran.1⟩

/-- With its register assigned, the payload offset is fixed or in the register. -/
theorem genOffMacpl_assigned (ran : Runs genOffMacpl g s g) :
    (g.layout.offMacplIsVariable = false ∧ s = []) ∨
      ∃ r, g.layout.offMacplIsVariable = true ∧ g.regOffMacpl = some r ∧ s = loadOffset r := by
  rw [runs_genOffMacpl_iff] at ran
  by_cases moves : g.layout.offMacplIsVariable = true
  · rw [if_pos moves] at ran
    obtain ⟨r, rfl, ⟨set, _⟩ | ⟨_, _, same⟩⟩ := ran
    · exact .inr ⟨r, moves, set, rfl⟩
    · exact .inr ⟨r, moves, by rw [same], rfl⟩
  · rw [if_neg moves] at ran
    exact .inl ⟨by simpa using moves, ran.1⟩

theorem genLoadLlrel_loadsAt (ran : Runs (genLoadLlrel offset size) g s g) :
    LoadsAt p mem size (g.linkStart mem + offset) s := by
  obtain ⟨start, g₁, assigned, rest⟩ := runs_bind_iff.mp ran
  obtain ⟨l, _, here, rest⟩ := runs_bind_iff.mp rest
  cases here
  have done : g = g₁ := by
    split at rest <;> exact (runs_pure_iff.mp rest).2.symm
  subst done
  rcases genLlprefixlen_assigned assigned with ⟨plain, rfl⟩ | ⟨r, radio, set, rfl⟩
  · obtain ⟨rfl, _⟩ := runs_pure_iff.mp rest
    simp only [Gen.linkStart, plain, Bool.false_eq_true, if_false]
    rw [BitVec.add_comm]
    exact loadsAt_abs _
  · obtain ⟨rfl, _⟩ := runs_pure_iff.mp rest
    simp only [Gen.linkStart, radio, if_true, set, Option.elim_some]
    exact loadsAt_offset r offset

theorem genLoadMacplrel_loadsAt (ran : Runs (genLoadMacplrel offset size) g s g) :
    LoadsAt p mem size (g.payloadStart mem + offset) s := by
  obtain ⟨start, g₁, assigned, rest⟩ := runs_bind_iff.mp ran
  obtain ⟨l, _, here, rest⟩ := runs_bind_iff.mp rest
  cases here
  have done : g = g₁ := by
    split at rest <;> exact (runs_pure_iff.mp rest).2.symm
  subst done
  rcases genOffMacpl_assigned assigned with ⟨fixed, rfl⟩ | ⟨r, moves, set, rfl⟩
  · obtain ⟨rfl, _⟩ := runs_pure_iff.mp rest
    simp only [Gen.payloadStart, fixed, Bool.false_eq_true, if_false]
    exact loadsAt_abs _
  · obtain ⟨rfl, _⟩ := runs_pure_iff.mp rest
    simp only [Gen.payloadStart, moves, if_true, set, Option.elim_some]
    exact loadsAt_offset r offset

/-- The code for the length of the IPv4 header leaves in `X` what has to be added to the fixed
offset of the network-layer header. -/
theorem exec_genLoadxIphdrlen (ran : Runs genLoadxIphdrlen g s g) {first : Word}
    (captured : p.field .b (g.payloadStart mem + g.layout.offNl) = some first) {m : Machine}
    (same : m.mem = mem) :
    ∃ m', execStmts p s m = .ok m' ∧ m'.mem = mem ∧
      m'.X = ((first &&& 0xf) <<< 2) +
        if g.layout.offMacplIsVariable then g.payloadStart mem else 0 := by
  obtain ⟨start, g₁, assigned, rest⟩ := runs_bind_iff.mp ran
  obtain ⟨l, _, here, rest⟩ := runs_bind_iff.mp rest
  cases here
  have done : g = g₁ := by
    split at rest <;> exact (runs_pure_iff.mp rest).2.symm
  subst done same
  rcases genOffMacpl_assigned assigned with ⟨fixed, rfl⟩ | ⟨r, moves, set, rfl⟩
  · obtain ⟨rfl, _⟩ := runs_pure_iff.mp rest
    simp only [Gen.payloadStart, fixed, Bool.false_eq_true, if_false] at captured ⊢
    exact ⟨_, exec_ldxMsh m captured [], rfl, (BitVec.add_zero _).symm⟩
  · obtain ⟨rfl, _⟩ := runs_pure_iff.mp rest
    simp only [Gen.payloadStart, moves, if_true, set, Option.elim_some] at captured ⊢
    have load : execStmts p [newStmt (bpfLd ||| bpfInd ||| bpfB) g.layout.offNl,
        newStmt (bpfAlu ||| bpfAnd ||| bpfK) 0xf, newStmt (bpfAlu ||| bpfLsh ||| bpfK) 2,
        newStmt (bpfAlu ||| bpfAdd ||| bpfX) 0, newStmt (bpfMisc ||| bpfTax) 0]
        { m with X := m.mem r } =
        .ok ⟨((first &&& 0xf) <<< 2) + m.mem r, ((first &&& 0xf) <<< 2) + m.mem r, m.mem⟩ := by
      simp [execStmts, newStmt, Op.effect, p.read_touched_of_field captured, Effect.ofRead,
        AluOp.effect, AluOp.eval, Src.value]
    rw [exec_loadOffset]
    exact ⟨_, load, rfl, rfl⟩

/-- `gen_load_a` generates the load of the field at an offset in the header. -/
theorem genLoadA_loadsAt {offrel : OffRel} (ran : Runs (genLoadA offrel offset size) g s g)
    {base : Word} (starts : offrel.base g mem p = some base) :
    LoadsAt p mem size (base + offset) s := by
  obtain ⟨l, _, here, rest⟩ := runs_bind_iff.mp ran
  cases here
  cases offrel with
  | packet =>
    cases starts
    obtain ⟨rfl, _⟩ := runs_pure_iff.mp rest
    simpa using loadsAt_abs offset
  | link =>
    cases starts
    exact genLoadLlrel_loadsAt rest
  | macpl =>
    cases starts
    exact genLoadMacplrel_loadsAt rest
  | net | netNosnap =>
    cases starts
    rw [BitVec.add_assoc]
    exact genLoadMacplrel_loadsAt rest
  | tranIpv6 =>
    cases starts
    rw [BitVec.add_assoc, BitVec.add_assoc, ← BitVec.add_assoc g.layout.offNl]
    exact genLoadMacplrel_loadsAt rest
  | tranIpv4 =>
    simp only [OffRel.base, Option.bind_eq_bind, Option.bind_eq_some_iff] at starts
    obtain ⟨first, captured, place⟩ := starts
    cases place
    obtain ⟨length, g₁, ranLength, rest⟩ := runs_bind_iff.mp rest
    obtain ⟨rfl, done⟩ := runs_pure_iff.mp rest
    subst done
    have place : g₁.payloadStart mem + g₁.layout.offNl + (first &&& 0xf) <<< 2 +
        (if g₁.layout.offMacplIsVariable then g₁.layout.offMacpl else 0) + offset =
        (first &&& 0xf) <<< 2 +
          (if g₁.layout.offMacplIsVariable then g₁.payloadStart mem else 0) +
          (g₁.layout.offMacpl + g₁.layout.offNl + offset) := by
      simp only [Gen.payloadStart]
      split <;> ac_rfl
    rw [place]
    apply LoadsAt.of_index
    intro m same
    obtain ⟨m', ran, kept, index⟩ := exec_genLoadxIphdrlen ranLength captured same
    exact ⟨m', ran, index, kept⟩

/-! ## Comparisons -/

theorem inOrder_join (front back : List (Option Bool)) :
    inOrder (inOrder front :: back) = inOrder (front ++ back) := by
  rw [inOrder_append]
  rcases inOrder front with _ | _ | _ <;> rfl

theorem outcome_not (p : Packet) (mem : Reg → Word) (c : Formula) :
    outcome p mem (.not c) = (outcome p mem c).map (!·) := by
  simp only [outcome, Cond.eval]
  cases c.eval (leafTest p) ⟨0, 0, mem⟩ <;> rfl

/-- Like `outcome_and`: the right side counts when the left side comes out false. -/
theorem outcome_or {left right : Formula} (testsLeft : HeaderTests left)
    (testsRight : HeaderTests right) (p : Packet) (mem : Reg → Word) :
    outcome p mem (.or left right) =
      match outcome p mem left with
      | some false => outcome p mem right
      | result => result := by
  cases ran : left.eval (leafTest p) ⟨0, 0, mem⟩ with
  | error result => simp only [outcome, Cond.eval, ran]
  | ok pair =>
    obtain ⟨value, n⟩ := pair
    rw [testsRight.outcome_at p (testsLeft.kept ran)]
    cases value <;> simp only [outcome, Cond.eval, ran]

/-- A masked comparison of the accumulator, behind a load. -/
theorem LoadsAt.outcome_leaf {k : Word} (loads : LoadsAt p mem size k s) (mask v : Word)
    (cond : JmpOp) :
    outcome p mem (.leaf ⟨if mask ≠ 0xffffffff then
        s ++ [newStmt (bpfAlu ||| bpfAnd ||| bpfK) mask] else s, jmp cond.code, v⟩) =
      match p.read (p.touched size k) with
      | .ok x => some (cond.eval (x &&& mask) v)
      | .error _ => none := by
  have load := loads ⟨0, 0, mem⟩ rfl
  cases loaded : p.read (p.touched size k) with
  | ok x =>
    simp only [loaded] at load
    obtain ⟨m', ran, rfl, _⟩ := load
    by_cases masked : mask = 0xffffffff
    · subst masked
      have same : m'.A &&& 0xffffffff = m'.A := BitVec.and_allOnes
      simp only [ne_eq, not_true_eq_false, if_false, outcome, Cond.eval, leafTest, ran,
        decode_jmp, Src.value, same]
    · simp only [masked, ne_eq, not_false_eq_true, if_true, outcome, Cond.eval, leafTest,
        execStmts_append, ran, decode_jmp, Src.value]
      simp [execStmts, newStmt, Op.effect, AluOp.effect, AluOp.eval, Src.value]
  | error result =>
    simp only [loaded] at load
    split <;> simp only [outcome, Cond.eval, leafTest, execStmts_append, load]

/-- The outcome of a comparison with a field. -/
theorem genNcmp_outcome {offrel : OffRel} {mask v : Word} {jtype : JmpOp} {reverse : Bool}
    {c : Formula} (ran : Runs (genNcmp offrel offset size mask jtype reverse v) g c g)
    {base : Word} (starts : offrel.base g mem p = some base) :
    outcome p mem c =
      match p.read (p.touched size (base + offset)) with
      | .ok x => some (xor (decide (reverse ∧ (jtype = .jgt ∨ jtype = .jge)))
          (jtype.eval (x &&& mask) v))
      | .error _ => none := by
  obtain ⟨s, g₁, load, rest⟩ := runs_bind_iff.mp ran
  obtain ⟨rfl, done⟩ := runs_pure_iff.mp rest
  subst done
  have test := (genLoadA_loadsAt load starts).outcome_leaf mask v jtype
  by_cases reversed : reverse = true ∧ (jtype = .jgt ∨ jtype = .jge)
  · rw [if_pos reversed, outcome_not, test]
    cases p.read (p.touched size (base + offset)) <;> simp [reversed]
  · rw [if_neg reversed, test]
    cases p.read (p.touched size (base + offset)) <;> simp [reversed]

/-- The outcome of a masked comparison for equality. -/
theorem genMcmp_outcome {offrel : OffRel} {mask v : Word} {c : Formula}
    (ran : Runs (genMcmp offrel offset size v mask) g c g) {base : Word}
    (starts : offrel.base g mem p = some base) :
    outcome p mem c =
      match p.read (p.touched size (base + offset)) with
      | .ok x => some (x &&& mask == v)
      | .error _ => none := by
  rw [genNcmp_outcome ran starts]
  cases p.read (p.touched size (base + offset)) <;> simp [JmpOp.eval]

/-- The outcome of a comparison for equality. -/
theorem genCmp_outcome {offrel : OffRel} {v : Word} {c : Formula}
    (ran : Runs (genCmp offrel offset size v) g c g) {base : Word}
    (starts : offrel.base g mem p = some base) :
    outcome p mem c =
      match p.read (p.touched size (base + offset)) with
      | .ok x => some (x == v)
      | .error _ => none := by
  rw [genNcmp_outcome ran starts]
  cases p.read (p.touched size (base + offset)) with
  | error result => rfl
  | ok x =>
    have same : x &&& 0xffffffff#32 = x := BitVec.and_allOnes
    simp [JmpOp.eval, same]

end Relative

end Libpcap.Gencode
