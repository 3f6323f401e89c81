/-
# The register of the radio header's length

On a link type with a radio header in front of the 802.11 header, the offset of the payload is
computed from the length of the radio header, and `insert_compute_vloffsets` computes that length
only if it has a register. A filter that uses the offset of the payload always has that register:
before a test looks at the payload, or behind it in the same primitive, the frame control field is
tested, which is behind the radio header. Behind an encapsulation the frame control field is not
tested again; the primitive that entered it has done so.
-/

import Libpcap.Gencode.Relation

namespace Libpcap.Gencode

open Libpcap.Bpf Libpcap.Semantics

variable {α β : Type} {g g' : Gen}

/-- The tests that follow are about the headers of an encapsulation. -/
def Gen.Moved (g : Gen) : Prop := g.layout.isPppoes = true ∨ 0 < g.layout.labelStackDepth

/-- With a radio header, its length has a register if the offset of the payload has one, and
inside an encapsulation. -/
def Gen.Prefixed (g : Gen) : Prop :=
  hasRadioHeader g.layout.linktype = true → g.regOffMacpl.isSome = true ∨ g.Moved →
    g.regOffLl.isSome = true

theorem Agrees.isSome_ll (agrees : Agrees g g') (set : g.regOffLl.isSome = true) :
    g'.regOffLl.isSome = true := by
  obtain ⟨r, isSet⟩ := Option.isSome_iff_exists.mp set
  exact Option.isSome_iff_exists.mpr ⟨r, agrees.ll r isSet⟩

/-! ## Functions that load the length -/

/-- A function keeps the headers and the registers. -/
def Keeps (m : GenM α) : Prop := ∀ g a g', Runs m g a g' → Agrees g g'

theorem Generates.keeps {m : GenM α} {Q : α → Prop} (spec : Generates m Q) : Keeps m :=
  fun g a g' ran => (spec g a g' ran).2.1.agrees

theorem Keeps.bind {m : GenM α} {f : α → GenM β} (first : Keeps m) (second : ∀ a, Keeps (f a)) :
    Keeps (m >>= f) := by
  intro g b g'' ran
  obtain ⟨a, g', ranFirst, ranSecond⟩ := runs_bind_iff.mp ran
  exact (first g a g' ranFirst).trans (second a g' b g'' ranSecond)

theorem keeps_pure (a : α) : Keeps (pure a) := by
  intro g b g' ran
  obtain ⟨rfl, rfl⟩ := runs_pure_iff.mp ran
  exact .refl g

/-- After the function the length of a radio header has a register. -/
def LoadsPrefix (m : GenM α) : Prop :=
  ∀ g a g', Runs m g a g' → hasRadioHeader g.layout.linktype = true →
    (g.Moved → g.regOffLl.isSome = true) → g'.regOffLl.isSome = true

section Rules

variable {m : GenM α}

theorem LoadsPrefix.bind {f : α → GenM β} (first : LoadsPrefix m) (second : ∀ a, Keeps (f a)) :
    LoadsPrefix (m >>= f) := by
  intro g b g'' ran radio moved
  obtain ⟨a, g', ranFirst, ranSecond⟩ := runs_bind_iff.mp ran
  exact (second a g' b g'' ranSecond).isSome_ll (first g a g' ranFirst radio moved)

theorem loadsPrefix_throw (fault : Fault) : LoadsPrefix (throw fault : GenM α) :=
  fun _ _ _ ran => absurd ran not_runs_throw

theorem loadsPrefix_ite {c : Prop} [Decidable c] {n : GenM α} (whenTrue : LoadsPrefix m)
    (whenFalse : LoadsPrefix n) : LoadsPrefix (if c then m else n) := by
  split
  · exact whenTrue
  · exact whenFalse

theorem loadsPrefix_layout_bind {f : Layout → GenM β} (spec : ∀ l, LoadsPrefix (f l)) :
    LoadsPrefix (layout >>= f) := by
  intro g b g' ran
  obtain ⟨l, _, here, rest⟩ := runs_bind_iff.mp ran
  cases here
  exact spec _ g b g' rest

/-- After it the property above holds, if it held at some time before it. -/
theorem LoadsPrefix.prefixed {start : Gen} (loads : LoadsPrefix m) (keeps : Keeps m) {a : α}
    (ran : Runs m g a g') (agrees : Agrees start g) (before : start.Prefixed) : g'.Prefixed := by
  intro radio _
  rw [(keeps g a g' ran).layout] at radio
  refine loads g a g' ran radio fun moved => agrees.isSome_ll ?_
  rw [agrees.layout] at radio
  rw [Gen.Moved, agrees.layout] at moved
  exact before radio (.inr moved)

end Rules

/-! ## The tests for protocols -/

theorem loadsPrefix_genLlprefixlen : LoadsPrefix genLlprefixlen := by
  intro g s g' ran radio _
  rw [runs_genLlprefixlen_iff, if_pos radio, runs_genRadioLlprefixlen_iff] at ran
  obtain ⟨r, rfl, ⟨set, rfl⟩ | ⟨_, _, rfl⟩⟩ := ran
  · rw [set]
    rfl
  · rfl

theorem loadsPrefix_genLoadLink (offset : Word) (size : Size) :
    LoadsPrefix (genLoadA .link offset size) := by
  refine loadsPrefix_layout_bind fun _ => loadsPrefix_genLlprefixlen.bind fun s => ?_
  intro g a g' ran
  obtain ⟨l, _, here, rest⟩ := runs_bind_iff.mp ran
  cases here
  split at rest <;> exact keeps_pure _ _ _ _ rest

theorem loadsPrefix_genNcmpLink (offset : Word) (size : Size) (mask : Word) (jtype : JmpOp)
    (reverse : Bool) (v : Word) : LoadsPrefix (genNcmp .link offset size mask jtype reverse v) :=
  (loadsPrefix_genLoadLink offset size).bind fun _ => keeps_pure _

theorem loadsPrefix_genLinktype (proto : Word) : LoadsPrefix (genLinktype proto) := by
  intro g c g' ran radio moved
  by_cases inside : g.Moved
  · exact ((generates_genLinktype proto).keeps g c g' ran).isSome_ll (moved inside)
  · obtain ⟨noPppoes, noLabel⟩ := not_or.mp inside
    have plain : Runs (genPlainLinktype proto) g c g' := by
      obtain ⟨l, _, here, rest⟩ := runs_bind_iff.mp ran
      cases here
      rwa [if_neg noLabel, if_neg noPppoes] at rest
    obtain ⟨l, _, here, rest⟩ := runs_bind_iff.mp plain
    cases here
    have checked : Runs (do
        let b0 ← genCheck80211DataFrame
        let b1 ← genLlcLinktype proto
        return .and b0 b1) g c g' := by
      have types := radio
      simp only [hasRadioHeader, Bool.or_eq_true, beq_iff_eq] at types
      rcases types with ((isType | isType) | isType) | isType <;> rw [isType] at rest <;> exact rest
    refine LoadsPrefix.bind ?_ (fun b0 => ?_) g c g' checked radio moved
    · refine (loadsPrefix_genLoadLink 0 .b).bind fun s0 => ?_
      exact (generates_genLoadA _ _ _).keeps.bind fun s1 => keeps_pure _
    · exact (tests_genLlcLinktype proto).keeps.bind fun b1 => keeps_pure _

section Protocols

variable (v : Word)

theorem loadsPrefix_genProtoIp : LoadsPrefix (genProtoIp v) :=
  (loadsPrefix_genLinktype _).bind fun _ =>
    (generates_genCmp _ _ _ _).keeps.bind fun _ => keeps_pure _

theorem loadsPrefix_genProtoIpv6 : LoadsPrefix (genProtoIpv6 v) := by
  refine (loadsPrefix_genLinktype _).bind fun _ => ?_
  refine (generates_genCmp _ _ _ _).keeps.bind fun _ => ?_
  refine (generates_genCmp _ _ _ _).keeps.bind fun _ => ?_
  exact (generates_genCmp _ _ _ _).keeps.bind fun _ => keeps_pure _

theorem loadsPrefix_genProtoIso : LoadsPrefix (genProtoIso v) := by
  refine loadsPrefix_layout_bind fun l => ?_
  refine loadsPrefix_ite (loadsPrefix_genNcmpLink _ _ _ _ _ _) (loadsPrefix_ite ?_ ?_)
  all_goals
    exact (loadsPrefix_genLinktype _).bind fun _ =>
      (generates_genCmp _ _ _ _).keeps.bind fun _ => keeps_pure _

theorem loadsPrefix_genProto (proto : Proto) (dir : Dir) : LoadsPrefix (genProto v proto dir) := by
  refine loadsPrefix_ite (loadsPrefix_throw _) ?_
  cases proto with
  | dflt =>
    exact (loadsPrefix_genProtoIp v).bind fun _ =>
      (generates_genProtoIpv6 v).keeps.bind fun _ => keeps_pure _
  | ip => exact loadsPrefix_genProtoIp v
  | ipv6 => exact loadsPrefix_genProtoIpv6 v
  | iso => exact loadsPrefix_genProtoIso v
  | isis =>
    exact (loadsPrefix_genProtoIso _).bind fun _ =>
      (generates_genCmp _ _ _ _).keeps.bind fun _ => keeps_pure _
  | link => exact loadsPrefix_genLinktype v
  | _ => exact loadsPrefix_throw _

theorem loadsPrefix_genProtoBoth : LoadsPrefix (genProtoBoth v) :=
  (loadsPrefix_genProto _ _ _).bind fun _ =>
    (generates_genProto _ _ _).keeps.bind fun _ => keeps_pure _

theorem keeps_genProtoIsisAny (types : List Word) (b : Formula) :
    Keeps (genProtoIsisAny b types) := by
  induction types generalizing b with
  | nil => exact keeps_pure b
  | cons v rest ih => exact (generates_genProto _ _ _).keeps.bind fun _ => ih _

theorem loadsPrefix_genProtoIsisTypes (first second : Word) (rest : List Word) :
    LoadsPrefix (genProtoIsisTypes first second rest) :=
  (loadsPrefix_genProto _ _ _).bind fun _ =>
    (generates_genProto _ _ _).keeps.bind fun _ => keeps_genProtoIsisAny rest _

theorem loadsPrefix_genProtoAbbrev (proto : Proto) : LoadsPrefix (genProtoAbbrev proto) := by
  cases proto <;> rw [genProtoAbbrev] <;> first
    | with_reducible exact loadsPrefix_genLinktype _
    | with_reducible exact loadsPrefix_genProto _ _ _
    | with_reducible exact loadsPrefix_genProtoBoth _
    | with_reducible exact loadsPrefix_genProtoIsisTypes _ _ _
    | exact loadsPrefix_throw _

end Protocols

/-! ## Relations -/

theorem Gen.Prefixed.load {proto : Proto} {inst : Arth} {size : Size}
    {loaded : List Stmt × Option Formula} (before : g.Prefixed)
    (ran : Runs (genLoadFrom proto inst size) g loaded g') : g'.Prefixed := by
  rcases runs_genLoadFrom_cases ran with ⟨_, rfl, _⟩ | ⟨_, s, ran, _⟩ |
    ⟨_, s, g₁, b, ranOffset, ran, _⟩ | ⟨_, s, g₁, b0, g₂, b, g₃, ip, ranLength, ranB0, ranB, ran, _⟩
  · exact before
  · exact loadsPrefix_genLlprefixlen.prefixed generates_genLlprefixlen.keeps ran (.refl g) before
  · exact (loadsPrefix_genProtoAbbrev proto).prefixed (generates_genProtoAbbrev proto).keeps ran
      (generates_genOffMacpl.keeps _ _ _ ranOffset) before
  · have agrees := ((generates_genLoadxIphdrlen.keeps _ _ _ ranLength).trans
      ((generates_genProtoAbbrev proto).keeps _ _ _ ranB0)).trans
      (generates_genIpfrag.keeps _ _ _ ranB)
    exact (loadsPrefix_genProtoAbbrev .ip).prefixed (generates_genProtoAbbrev .ip).keeps ran agrees
      before

theorem genExpr_prefixed (e : Expr) {a : Arth} (before : g.Prefixed)
    (ran : Runs (genExpr e) g a g') : g'.Prefixed := by
  induction e generalizing g g' a with
  | num val =>
    obtain ⟨regno, _, rfl, _⟩ := runs_genLoadi_iff.mp ran
    exact before
  | len =>
    obtain ⟨regno, _, rfl, _⟩ := runs_genLoadlen_iff.mp ran
    exact before
  | load proto index size ih =>
    obtain ⟨inst, g₁, ranIndex, ranLoad⟩ := runs_bind_iff.mp ran
    obtain ⟨regno, width, loaded, _, _, loads, _⟩ := runs_genLoad_iff.mp ranLoad
    have after := ih before ranIndex
    -- taking and freeing a register changes none of the offset registers
    have middle : ((g₁.withAlloc regno).withFree inst.regno).Prefixed := after
    exact middle.load loads
  | neg inner ih =>
    obtain ⟨a₁, g₁, ranInner, done⟩ := runs_bind_iff.mp ran
    obtain ⟨_, rfl⟩ := runs_pure_iff.mp done
    exact ih before ranInner
  | arith fn left right ihLeft ihRight =>
    obtain ⟨a0, g₀, ranLeft, rest⟩ := runs_bind_iff.mp ran
    obtain ⟨a1, g₁, ranRight, ranArith⟩ := runs_bind_iff.mp rest
    obtain ⟨regno, _, rfl, _⟩ := runs_genArth_iff.mp ranArith
    have after := ihRight (ihLeft before ranLeft) ranRight
    exact after

theorem genRelOp_prefixed {rel : RelOp} {left right : Expr} {c : Formula} (before : g.Prefixed)
    (ran : Runs (genRelOp rel left right) g c g') : g'.Prefixed := by
  simp only [genRelOp, genRelation, runs_bind_iff, runs_freeReg_iff, runs_pure_iff] at ran
  obtain ⟨a0, g0, ranLeft, a1, g1, ranRight, _, _, rfl, _, _, rfl, _, rfl⟩ := ran
  have after := genExpr_prefixed right (genExpr_prefixed left before ranLeft) ranRight
  exact after

end Libpcap.Gencode
