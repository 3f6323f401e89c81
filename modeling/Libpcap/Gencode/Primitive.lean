/-
# Filter expressions

A filter expression combines primitives by and, or and not. The parser compiles
the primitives in the order they are written, so that what a primitive does to
the static variables is seen by all that follow: an offset register that has been
assigned stays assigned, and `pppoes` moves the headers of every later test.

Relations are the only primitives that store to scratch registers, apart from
`protochain`, which no 802.11 link type supports. Every other primitive is a
`TestPrimitive`: its blocks store nothing, and it changes the static variables by
assigning offset registers and by moving headers. No primitive leaves a block
without statements, or uses the payload behind a radio header whose length has no
register.
-/

import Libpcap.Gencode.RadioPrefix

namespace Libpcap.Gencode

open Libpcap.Bpf Libpcap.Semantics

/-! ## Some of the primitives -/

def genLen (cond : JmpOp) (n : Word) : Formula :=
  .leaf ⟨[newStmt (bpfLd ||| bpfLen) 0], jmp cond.code, n⟩

def genGreater (n : Word) : Formula := genLen .jge n

def genLess (n : Word) : Formula := .not (genLen .jgt n)

/-- `byteop` of the grammar -/
inductive ByteOp
  | eq
  | lt
  | gt
  | or
  | and
  deriving DecidableEq, Repr

/-- `gen_byteop`; for `|` and `&` no byte is loaded. -/
def genByteop (op : ByteOp) (idx val : Word) : GenM Formula :=
  match op with
  | .eq => genCmp .link idx .b val
  | .lt => genCmpLt .link idx .b val
  | .gt => genCmpGt .link idx .b val
  | .or => return .not (.leaf ⟨[newStmt (bpfAlu ||| bpfOr ||| bpfK) val], jmp bpfJeq, 0⟩)
  | .and => return .not (.leaf ⟨[newStmt (bpfAlu ||| bpfAnd ||| bpfK) val], jmp bpfJeq, 0⟩)

/-- The link types on which the fields of an 802.11 header can be tested. -/
def p80211Linktypes : List Nat :=
  [dltIeee80211, dltPrismHeader, dltIeee80211RadioAvs, dltIeee80211Radio]

def genP80211Type (type mask : Word) : GenM Formula := do
  let l ← layout
  if l.linktype ∈ p80211Linktypes then genMcmp .link 0 .b type mask
  else bpfError "802.11 link-layer types supported only on 802.11"

/-- The check of the session in `gen_pppoes`, behind the check of the link type. -/
def genPppoesSession (b0 : Formula) (origNl sessNum : Word) : GenM Formula :=
  if 0 ≤ sessNum.toInt then do
    let b1 ← genMcmp .macpl origNl .w sessNum 0x0000ffff
    return .and b0 b1
  else return b0

/-- `gen_pppoes`; a negative number stands for any session. -/
def genPppoes (sessNum : Word) : GenM Formula := do
  let b0 ← genLinktype ethertypePppoes
  let l ← layout
  modify fun g => { g with layout := { l with isPppoes := true } }
  let b ← genPppoesSession b0 l.offNl sessNum
  modify fun g => { g with layout :=
    { l with isPppoes := true, offLinktype := l.offNl + 6, offNl := 6 + 2, offNlNosnap := 6 + 2 } }
  return b

/-! ## Primitives that store nothing -/

/-- No test of the formula stores to a scratch register. -/
def StoresNothing (c : Formula) : Prop := ∀ l ∈ c.leaves, ∀ s ∈ l.stmts, s.stores = none

/-- What such a primitive does to the static variables. -/
inductive TestStep : Gen → Gen → Prop
  | assign {g g' : Gen} (step : AssignStep g g') : TestStep g g'
  | relayout (g : Gen) (l : Layout) : TestStep g { g with layout := l }

/-- Changes of the static variables, one after the other. -/
abbrev TestSteps : Gen → Gen → Prop := Relation.ReflTransGen TestStep

theorem Assigns.testSteps {g g' : Gen} (assigns : Assigns g g') : TestSteps g g' :=
  Relation.ReflTransGen.mono (fun _ _ step => TestStep.assign step) _ _ assigns

theorem TestSteps.heap {g g' : Gen} (steps : TestSteps g g') : g'.heap = g.heap := by
  induction steps with
  | refl => rfl
  | tail _ step ih =>
    cases step with
    | assign step => exact (Assigns.heap (.single step)).trans ih
    | relayout l => exact ih

/-- Every test of the formula has a statement. -/
def NonEmpty (c : Formula) : Prop := ∀ l ∈ c.leaves, l.stmts ≠ []

/-- What holds after a primitive whose tests store nothing. -/
structure Tested (g : Gen) (c : Formula) (g' : Gen) : Prop where
  quiet : StoresNothing c
  steps : TestSteps g g'
  nonEmpty : NonEmpty c
  prefixed : g.Prefixed → g'.Prefixed

/-- A primitive whose tests store nothing. -/
structure TestPrimitive where
  gen : GenM Formula
  spec : ∀ g c g', Runs gen g c g' → Tested g c g'

theorem opFlags_stores {op : Op} {k : Word} {a x : Bool} {flags : Bool × Bool}
    (accepted : opFlags op k a x = some flags) : op ≠ .st ∧ op ≠ .stx := by
  constructor
  · rintro rfl
    cases accepted
  · rintro rfl
    cases accepted

theorem selfContained_stores {a x : Bool} {stmts : List Stmt}
    (closed : selfContained a x stmts = true) : ∀ s ∈ stmts, s.stores = none := by
  induction stmts generalizing a x with
  | nil =>
    intro s mem
    cases mem
  | cons first rest ih =>
    obtain ⟨op, a', x', decoded, flags, later⟩ := selfContained_cons closed
    intro s mem
    rcases List.mem_cons.mp mem with rfl | inRest
    · have quiet : s.Quiet := ⟨op, decoded, opFlags_goesOn flags, opFlags_stores flags⟩
      exact quiet.stores
    · exact ih later s inRest

theorem HeaderTests.storesNothing {c : Formula} (tests : HeaderTests c) : StoresNothing c :=
  fun l mem => selfContained_stores (tests l mem).stmts

theorem HeaderTests.nonEmpty {c : Formula} (tests : HeaderTests c) : NonEmpty c := by
  intro l mem none
  have closed := (tests l mem).stmts
  rw [none] at closed
  cases closed

/-- Every function that generates header tests behind the radio header is such a primitive. -/
def TestPrimitive.ofGenerates (m : GenM Formula) (spec : Generates m HeaderTests)
    (loads : LoadsPrefix m) : TestPrimitive where
  gen := m
  spec := by
    intro g c g' ran
    obtain ⟨tests, assigns, _⟩ := spec g c g' ran
    exact ⟨tests.storesNothing, assigns.testSteps, tests.nonEmpty,
      loads.prefixed spec.keeps ran (.refl g)⟩

theorem generates_genP80211Type (type mask : Word) :
    Generates (genP80211Type type mask) HeaderTests := by
  apply generates_layout_bind
  intro l
  exact generates_ite (fun _ => generates_genMcmp _ _ _ _ _) fun _ => generates_bpfError

theorem loadsPrefix_genP80211Type (type mask : Word) : LoadsPrefix (genP80211Type type mask) :=
  loadsPrefix_layout_bind fun _ =>
    loadsPrefix_ite (loadsPrefix_genNcmpLink _ _ _ _ _ _) (loadsPrefix_throw _)

theorem generates_genPppoesSession {b0 : Formula} (tests : HeaderTests b0)
    (origNl sessNum : Word) : Generates (genPppoesSession b0 origNl sessNum) HeaderTests := by
  refine generates_ite (fun _ => ?_) fun _ => generates_pure tests
  refine (generates_genMcmp _ _ _ _ _).bind fun b1 session => ?_
  exact generates_pure (headerTests_and.mpr ⟨tests, session⟩)

/-- `less` and `greater` -/
def TestPrimitive.length (less : Bool) (n : Word) : TestPrimitive where
  gen := pure (if less then genLess n else genGreater n)
  spec := by
    intro g c g' ran
    obtain ⟨rfl, rfl⟩ := runs_pure_iff.mp ran
    refine ⟨?_, .refl, ?_, id⟩
    · cases less <;> simp [StoresNothing, genGreater, genLess, genLen, Cond.leaves, newStmt,
        Stmt.stores]
    · cases less <;> simp [NonEmpty, genGreater, genLess, genLen, Cond.leaves]

def TestPrimitive.byteop (op : ByteOp) (idx val : Word) : TestPrimitive where
  gen := genByteop op idx val
  spec := by
    have fixed : ∀ code, decode code = some (.alu .or .k) ∨ decode code = some (.alu .and .k) →
        ∀ g c g', Runs (pure (.not (.leaf ⟨[newStmt code val], jmp bpfJeq, 0⟩)) : GenM Formula)
          g c g' → Tested g c g' := by
      intro code decoded g c g' ran
      obtain ⟨rfl, rfl⟩ := runs_pure_iff.mp ran
      refine ⟨?_, .refl, by simp [NonEmpty, Cond.leaves], id⟩
      rcases decoded with decoded | decoded
      · simp [StoresNothing, Cond.leaves, newStmt, Stmt.stores, decoded]
      · simp [StoresNothing, Cond.leaves, newStmt, Stmt.stores, decoded]
    cases op with
    | eq =>
      exact (ofGenerates _ (generates_genCmp _ _ _ _) (loadsPrefix_genNcmpLink _ _ _ _ _ _)).spec
    | lt =>
      exact (ofGenerates _ (generates_genCmpLt _ _ _ _) (loadsPrefix_genNcmpLink _ _ _ _ _ _)).spec
    | gt =>
      exact (ofGenerates _ (generates_genCmpGt _ _ _ _) (loadsPrefix_genNcmpLink _ _ _ _ _ _)).spec
    | or => exact fixed _ (.inl (by decide))
    | and => exact fixed _ (.inr (by decide))

def TestPrimitive.pppoes (sessNum : Word) : TestPrimitive where
  gen := genPppoes sessNum
  spec := by
    intro g c g' ran
    simp only [genPppoes, runs_bind_iff, runs_modify_iff, runs_pure_iff] at ran
    obtain ⟨b0, g₁, ranType, l, g₂, ranLayout, _, _, rfl, b, g₃, ranSession, _, _, rfl, rfl, rfl⟩ :=
      ran
    obtain ⟨tests, assigns, _⟩ := generates_genLinktype _ _ _ _ ranType
    obtain ⟨session, later, _⟩ := generates_genPppoesSession tests _ _ _ _ _ ranSession
    cases ranLayout
    refine ⟨session.storesNothing, ((assigns.testSteps.tail (.relayout _ _)).trans
      later.testSteps).tail (.relayout _ _), session.nonEmpty, fun before radio _ => ?_⟩
    -- the link type is tested before the headers of the session are entered
    have radio' : hasRadioHeader g.layout.linktype = true := by
      rw [← assigns.agrees.layout]
      exact radio
    have set := loadsPrefix_genLinktype _ _ _ _ ranType radio' fun moved =>
      before radio' (.inr moved)
    exact later.agrees.isSome_ll set

/-! ## Expressions -/

/-- A primitive of the filter language. -/
inductive Primitive
  | relation (rel : RelOp) (left right : Expr)
  | test (primitive : TestPrimitive)

/-- Compile a primitive. -/
def Primitive.gen : Primitive → GenM Formula
  | .relation rel left right => genRelOp rel left right
  | .test primitive => primitive.gen

/-- A filter expression. -/
abbrev Filter := Cond Primitive

/-- The calls of the parser for an expression, in their order. -/
def genFilter : Filter → GenM Formula
  | .leaf primitive => primitive.gen
  | .and left right => do
      let b0 ← genFilter left
      let b1 ← genFilter right
      return .and b0 b1
  | .or left right => do
      let b0 ← genFilter left
      let b1 ← genFilter right
      return .or b0 b1
  | .not inner => do
      let b ← genFilter inner
      return .not b

theorem genRelOp_nonEmpty {rel : RelOp} {left right : Expr} {g g' : Gen} {c : Formula}
    (ran : Runs (genRelOp rel left right) g c g') : NonEmpty c := by
  obtain ⟨a0, a1, g0, g1, related⟩ := runs_genRelOp ran
  have relation : NonEmpty (relationFormula rel a0 a1) := by
    intro l mem
    rw [relationFormula_leaves, List.mem_singleton] at mem
    rw [mem, relationLeaf]
    split <;> simp
  rw [related.formula]
  cases checks : relationChecks a0 a1 with
  | none => exact relation
  | some b =>
    intro l mem
    rcases List.mem_append.mp mem with inChecks | inRelation
    · exact (related.guards.tests b checks).nonEmpty l inChecks
    · exact relation l inRelation

/-- The blocks of a filter expression have statements, and the length of a radio header has a
register when the payload is used. -/
theorem genFilter_nonEmpty (filter : Filter) {g g' : Gen} {c : Formula}
    (ran : Runs (genFilter filter) g c g') : NonEmpty c ∧ (g.Prefixed → g'.Prefixed) := by
  induction filter generalizing g g' c with
  | leaf primitive =>
    cases primitive with
    | relation rel left right =>
      exact ⟨genRelOp_nonEmpty ran, fun before => genRelOp_prefixed before ran⟩
    | test primitive =>
      have tested := primitive.spec g c g' ran
      exact ⟨tested.nonEmpty, tested.prefixed⟩
  | and left right ihLeft ihRight | or left right ihLeft ihRight =>
    obtain ⟨b0, g₁, ranLeft, rest⟩ := runs_bind_iff.mp ran
    obtain ⟨b1, g₂, ranRight, done⟩ := runs_bind_iff.mp rest
    obtain ⟨rfl, rfl⟩ := runs_pure_iff.mp done
    obtain ⟨first, prefixedLeft⟩ := ihLeft ranLeft
    obtain ⟨second, prefixedRight⟩ := ihRight ranRight
    refine ⟨fun l mem => ?_, fun before => prefixedRight (prefixedLeft before)⟩
    exact (List.mem_append.mp mem).elim (first l) (second l)
  | not inner ih =>
    obtain ⟨b, g₁, ranInner, done⟩ := runs_bind_iff.mp ran
    obtain ⟨rfl, rfl⟩ := runs_pure_iff.mp done
    obtain ⟨nonEmpty, prefixed⟩ := ih ranInner
    exact ⟨nonEmpty, prefixed⟩

/-- Compile a filter expression up to the end of the parse. -/
def compileFilter (filter : Filter) : GenM Unit := do
  let c ← genFilter filter
  let b ← emit c
  finishParse b

end Libpcap.Gencode
