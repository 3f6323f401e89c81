/-
# Assigning the offset registers

The functions that generate header tests have one effect on the static variables:
on a link type with headers of variable length, the first test that needs the
offset of such a header takes a scratch register for it. `Generates` says that a
function has no other effect, and that it generates the same code again whenever
the registers it took are assigned.
-/

import Libpcap.Gencode.Vloffsets

namespace Libpcap.Gencode

open Libpcap.Bpf Libpcap.Semantics

variable {g g' : Gen} {s : List Stmt}

/-! ## The effect of a test on the static variables -/

/-- The assignment of a register to `reg_off_ll` or to `reg_off_macpl`. -/
inductive AssignStep : Gen → Gen → Prop
  | ll {g : Gen} {r : Reg} (radio : hasRadioHeader g.layout.linktype = true)
      (unset : g.regOffLl = none) (found : g.nextReg = some r) :
      AssignStep g { g.withAlloc r with regOffLl := some r }
  | macpl {g : Gen} {r : Reg} (moves : g.layout.offMacplIsVariable = true)
      (unset : g.regOffMacpl = none) (found : g.nextReg = some r) :
      AssignStep g { g.withAlloc r with regOffMacpl := some r }

/-- Assignments of offset registers, one after the other. -/
abbrev Assigns : Gen → Gen → Prop := Relation.ReflTransGen AssignStep

/-- The same headers, with at least the same registers assigned. -/
structure Agrees (g g' : Gen) : Prop where
  layout : g'.layout = g.layout
  ll : ∀ r, g.regOffLl = some r → g'.regOffLl = some r
  macpl : ∀ r, g.regOffMacpl = some r → g'.regOffMacpl = some r

theorem Agrees.refl (g : Gen) : Agrees g g := ⟨rfl, fun _ set => set, fun _ set => set⟩

theorem Agrees.trans {g'' : Gen} (first : Agrees g g') (second : Agrees g' g'') :
    Agrees g g'' where
  layout := second.layout.trans first.layout
  ll := fun r set => second.ll r (first.ll r set)
  macpl := fun r set => second.macpl r (first.macpl r set)

theorem Gen.withAlloc_agrees (g : Gen) (r : Reg) : Agrees g (g.withAlloc r) :=
  ⟨rfl, fun _ set => set, fun _ set => set⟩

theorem Gen.withFree_agrees (g : Gen) (n : Reg) : Agrees g (g.withFree n) :=
  ⟨rfl, fun _ set => set, fun _ set => set⟩

theorem AssignStep.agrees (step : AssignStep g g') : Agrees g g' := by
  cases step with
  | ll radio unset found =>
    refine ⟨rfl, ?_, fun _ set => set⟩
    intro r set
    rw [unset] at set
    cases set
  | macpl moves unset found =>
    refine ⟨rfl, fun _ set => set, ?_⟩
    intro r set
    rw [unset] at set
    cases set

theorem Assigns.agrees (assigns : Assigns g g') : Agrees g g' := by
  induction assigns with
  | refl => exact .refl g
  | tail _ step ih => exact ih.trans step.agrees

theorem Gen.withAlloc_used (g : Gen) (r : Reg) : (g.withAlloc r).regused r = true := by
  simp [Gen.withAlloc]

theorem Gen.withAlloc_keeps (r : Reg) {r' : Reg} (used : g.regused r' = true) :
    (g.withAlloc r).regused r' = true := by
  by_cases same : r' = r
  · rw [same]
    exact g.withAlloc_used r
  · simp [Gen.withAlloc, Function.update_of_ne same, used]

theorem Gen.withFree_keeps {n r' : Reg} (different : r' ≠ n) (used : g.regused r' = true) :
    (g.withFree n).regused r' = true := by
  simp [Gen.withFree, Function.update_of_ne different, used]

/-- Registers in use stay in use. -/
theorem Assigns.keeps (assigns : Assigns g g') {r : Reg} (used : g.regused r = true) :
    g'.regused r = true := by
  induction assigns with
  | refl => exact used
  | tail _ step ih =>
    cases step with
    | ll radio unset found | macpl moves unset found => exact Gen.withAlloc_keeps _ ih

theorem Assigns.heap (assigns : Assigns g g') : g'.heap = g.heap := by
  induction assigns with
  | refl => rfl
  | tail _ step ih => cases step <;> exact ih

theorem AssignStep.not_fixed (step : AssignStep g g') : ¬ g.layout.Fixed := by
  intro fixed
  cases step with
  | ll radio unset found => exact absurd radio (by simp [fixed.noRadioHeader])
  | macpl moves unset found => exact absurd moves (by simp [fixed.macpl])

/-- With fixed header offsets there is nothing to assign. -/
theorem Assigns.eq_of_fixed (assigns : Assigns g g') (fixed : g.layout.Fixed) : g' = g := by
  induction assigns with
  | refl => rfl
  | tail _ step ih =>
    subst ih
    exact absurd fixed step.not_fixed

/-! ## Functions that generate tests -/

/-- Every result of the function satisfies `Q`, it assigns offset registers at
most, and it has the same result when the registers it uses are assigned. -/
def Generates {α : Type} (m : GenM α) (Q : α → Prop) : Prop :=
  ∀ g a g', Runs m g a g' →
    Q a ∧ Assigns g g' ∧ ∀ g₂, Agrees g' g₂ → Runs m g₂ a g₂

section Rules

variable {α β : Type} {Q : α → Prop} {R : β → Prop}

theorem Generates.weaken {m : GenM α} {Q' : α → Prop} (spec : Generates m Q)
    (weaker : ∀ a, Q a → Q' a) : Generates m Q' := by
  intro g a g' ran
  obtain ⟨post, assigns, again⟩ := spec g a g' ran
  exact ⟨weaker a post, assigns, again⟩

theorem generates_pure {a : α} (post : Q a) : Generates (pure a) Q := by
  intro g b g' ran
  obtain ⟨rfl, rfl⟩ := runs_pure_iff.mp ran
  exact ⟨post, .refl, fun g₂ _ => runs_pure_iff.mpr ⟨rfl, rfl⟩⟩

theorem generates_throw {fault : Fault} : Generates (throw fault : GenM α) Q := by
  intro g a g' ran
  exact absurd ran not_runs_throw

theorem generates_bpfError {message : String} : Generates (bpfError message : GenM α) Q :=
  generates_throw

theorem Generates.bind {m : GenM α} {f : α → GenM β} (first : Generates m Q)
    (second : ∀ a, Q a → Generates (f a) R) : Generates (m >>= f) R := by
  intro g b g'' ran
  obtain ⟨a, g', ranFirst, ranSecond⟩ := runs_bind_iff.mp ran
  obtain ⟨postFirst, assignsFirst, againFirst⟩ := first g a g' ranFirst
  obtain ⟨post, assigns, again⟩ := second a postFirst g' b g'' ranSecond
  refine ⟨post, assignsFirst.trans assigns, ?_⟩
  intro g₂ agrees
  exact .bind (againFirst g₂ (assigns.agrees.trans agrees)) (again g₂ agrees)

theorem generates_ite {c : Prop} [Decidable c] {m n : GenM α} (whenTrue : c → Generates m Q)
    (whenFalse : ¬ c → Generates n Q) : Generates (if c then m else n) Q := by
  by_cases holds : c
  · rw [if_pos holds]
    exact whenTrue holds
  · rw [if_neg holds]
    exact whenFalse holds

/-- The variables of the link type do not change. -/
theorem generates_layout_bind {f : Layout → GenM β} (spec : ∀ l, Generates (f l) R) :
    Generates (layout >>= f) R := by
  intro g b g'' ran
  obtain ⟨l, g', here, rest⟩ := runs_bind_iff.mp ran
  have read : g.layout = l ∧ g = g' := by
    cases here
    exact ⟨rfl, rfl⟩
  obtain ⟨rfl, rfl⟩ := read
  obtain ⟨post, assigns, again⟩ := spec g.layout g b g'' rest
  refine ⟨post, assigns, ?_⟩
  intro g₂ agrees
  have same : g₂.layout = g.layout := agrees.layout.trans assigns.agrees.layout
  have here : Runs layout g₂ g.layout g₂ := by
    rw [← same]
    rfl
  exact here.bind (again g₂ agrees)

end Rules

/-! ## Using an offset register -/

/-- `ldx M[r]` -/
def loadOffset (r : Reg) : List Stmt := [newStmt (bpfLdx ||| bpfMem) r.word]

/-- The register of an offset, or a free one if it has none yet. -/
theorem runs_offsetReg_iff {assigned : Option Reg} {assign : Reg → Gen → Gen} :
    Runs (match assigned with
      | some r => pure (loadOffset r)
      | none => do
        let r ← allocReg
        modify (assign r)
        pure (loadOffset r)) g s g' ↔ ∃ r, s = loadOffset r ∧
      (assigned = some r ∧ g' = g ∨
        assigned = none ∧ g.nextReg = some r ∧ g' = assign r (g.withAlloc r)) := by
  cases assigned with
  | some r =>
    simp only [runs_pure_iff]
    constructor
    · rintro ⟨rfl, rfl⟩
      exact ⟨r, rfl, .inl ⟨rfl, rfl⟩⟩
    · rintro ⟨_, rfl, ⟨⟨⟩, rfl⟩ | ⟨⟨⟩, _⟩⟩
      exact ⟨rfl, rfl⟩
  | none =>
    simp only [runs_bind_iff, runs_allocReg_iff, runs_modify_iff, runs_pure_iff]
    constructor
    · rintro ⟨r, _, ⟨found, rfl⟩, _, _, rfl, rfl, rfl⟩
      exact ⟨r, rfl, .inr ⟨trivial, found, rfl⟩⟩
    · rintro ⟨r, rfl, ⟨⟨⟩, _⟩ | ⟨_, found, rfl⟩⟩
      exact ⟨r, _, ⟨found, rfl⟩, ⟨⟩, _, rfl, rfl, rfl⟩

theorem runs_genRadioLlprefixlen_iff :
    Runs genRadioLlprefixlen g s g' ↔ ∃ r, s = loadOffset r ∧
      (g.regOffLl = some r ∧ g' = g ∨
        g.regOffLl = none ∧ g.nextReg = some r ∧
          g' = { g.withAlloc r with regOffLl := some r }) :=
  runs_offsetReg_iff

theorem runs_genLlprefixlen_iff :
    Runs genLlprefixlen g s g' ↔
      if hasRadioHeader g.layout.linktype then Runs genRadioLlprefixlen g s g'
      else s = [] ∧ g' = g := by
  rw [genLlprefixlen, runs_get_bind_iff]
  simp only [hasRadioHeader, Bool.or_eq_true, beq_iff_eq]
  have nothing : Runs (pure [] : GenM _) g s g' ↔ s = [] ∧ g' = g :=
    runs_pure_iff.trans (and_congr eq_comm eq_comm)
  split_ifs <;> tauto

theorem runs_genOffMacpl_iff :
    Runs genOffMacpl g s g' ↔
      if g.layout.offMacplIsVariable then ∃ r, s = loadOffset r ∧
        (g.regOffMacpl = some r ∧ g' = g ∨
          g.regOffMacpl = none ∧ g.nextReg = some r ∧
            g' = { g.withAlloc r with regOffMacpl := some r })
      else s = [] ∧ g' = g := by
  rw [genOffMacpl, runs_get_bind_iff]
  split
  · exact runs_offsetReg_iff
  · exact runs_pure_iff.trans (and_congr eq_comm eq_comm)

/-- No statement, or the load of an offset register into `X`. -/
def LoadsOffset (s : List Stmt) : Prop := s = [] ∨ ∃ r, s = loadOffset r

/-- The load of a register that is assigned when it is needed for the first time. -/
theorem generates_loadsOffset {m : GenM (List Stmt)} (needed : Layout → Bool)
    (reg : Gen → Option Reg) (assign : Reg → Gen → Gen)
    (runs : ∀ g s g', Runs m g s g' ↔ if needed g.layout then ∃ r, s = loadOffset r ∧
      (reg g = some r ∧ g' = g ∨ reg g = none ∧ g.nextReg = some r ∧ g' = assign r (g.withAlloc r))
      else s = [] ∧ g' = g)
    (step : ∀ g r, needed g.layout = true → reg g = none → g.nextReg = some r →
      AssignStep g (assign r (g.withAlloc r)) ∧ reg (assign r (g.withAlloc r)) = some r)
    (kept : ∀ g g' r, Agrees g g' → reg g = some r → reg g' = some r) :
    Generates m LoadsOffset := by
  intro g s g' ran
  rw [runs] at ran
  by_cases moves : needed g.layout = true
  · rw [if_pos moves] at ran
    obtain ⟨r, rfl, assigned⟩ := ran
    obtain ⟨set, assigns⟩ : reg g' = some r ∧ Assigns g g' := by
      rcases assigned with ⟨set, rfl⟩ | ⟨unset, found, rfl⟩
      · exact ⟨set, .refl⟩
      · exact ⟨(step g r moves unset found).2, .single (step g r moves unset found).1⟩
    refine ⟨.inr ⟨r, rfl⟩, assigns, ?_⟩
    intro g₂ agrees
    rw [runs, agrees.layout, assigns.agrees.layout, if_pos moves]
    exact ⟨r, rfl, .inl ⟨kept g' g₂ r agrees set, rfl⟩⟩
  · rw [if_neg moves] at ran
    obtain ⟨rfl, rfl⟩ := ran
    refine ⟨.inl rfl, .refl, ?_⟩
    intro g₂ agrees
    rw [runs, agrees.layout, if_neg moves]
    exact ⟨rfl, rfl⟩

theorem generates_genLlprefixlen : Generates genLlprefixlen LoadsOffset :=
  generates_loadsOffset (hasRadioHeader ·.linktype) (·.regOffLl)
    (fun r g => { g with regOffLl := some r })
    (fun _ _ _ => by rw [runs_genLlprefixlen_iff, runs_genRadioLlprefixlen_iff])
    (fun _ _ radio unset found => ⟨.ll radio unset found, rfl⟩) fun _ _ r agrees => agrees.ll r

theorem generates_genOffMacpl : Generates genOffMacpl LoadsOffset :=
  generates_loadsOffset (·.offMacplIsVariable) (·.regOffMacpl)
    (fun r g => { g with regOffMacpl := some r }) (fun _ _ _ => runs_genOffMacpl_iff)
    (fun _ _ moves unset found => ⟨.macpl moves unset found, rfl⟩) fun _ _ r agrees =>
      agrees.macpl r

end Libpcap.Gencode
