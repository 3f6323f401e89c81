/-
# Loading header fields and comparing them

The functions that load a field at an offset from the packet, the link-layer
header, its payload, the network-layer or the transport-layer header, and those
that compare the field with a value. Where a header has a variable length, the
load goes through the scratch register that holds the offset.

Such tests look at the packet and at the scratch registers only: they do not
depend on what the registers `A` and `X` hold, store nothing, and can fail only
by a load outside the captured bytes (`leafTest_selfContained`).
-/

import Libpcap.Gencode.Assign
import Libpcap.Gencode.Straight

namespace Libpcap.Gencode

open Libpcap.Bpf Libpcap.Semantics

variable {a x : Bool} {l : Leaf} {m m' : Machine} {p : Packet}

/-! ## Loads -/

/-- `enum e_offrel` -/
inductive OffRel
  | packet
  | link
  | macpl
  | net
  | netNosnap
  | tranIpv4
  | tranIpv6
  deriving DecidableEq, Repr

def genLoadLlrel (offset : Word) (size : Size) : GenM (List Stmt) := do
  let s ← genLlprefixlen
  let l ← layout
  if s.isEmpty then return [newStmt (bpfLd ||| bpfAbs ||| size.code) (offset + l.offLl)]
  else return s ++ [newStmt (bpfLd ||| bpfInd ||| size.code) offset]

def genLoadMacplrel (offset : Word) (size : Size) : GenM (List Stmt) := do
  let s ← genOffMacpl
  let l ← layout
  if s.isEmpty then return [newStmt (bpfLd ||| bpfAbs ||| size.code) (l.offMacpl + offset)]
  else return s ++ [newStmt (bpfLd ||| bpfInd ||| size.code) offset]

def genLoadxIphdrlen : GenM (List Stmt) := do
  let s ← genOffMacpl
  let l ← layout
  if s.isEmpty then return [newStmt (bpfLdx ||| bpfMsh ||| bpfB) (l.offMacpl + l.offNl)]
  else return s ++ [newStmt (bpfLd ||| bpfInd ||| bpfB) l.offNl,
    newStmt (bpfAlu ||| bpfAnd ||| bpfK) 0xf,
    newStmt (bpfAlu ||| bpfLsh ||| bpfK) 2,
    newStmt (bpfAlu ||| bpfAdd ||| bpfX) 0,
    newStmt (bpfMisc ||| bpfTax) 0]

def genLoadA (offrel : OffRel) (offset : Word) (size : Size) : GenM (List Stmt) := do
  let l ← layout
  match offrel with
  | .packet => return [newStmt (bpfLd ||| bpfAbs ||| size.code) offset]
  | .link => genLoadLlrel offset size
  | .macpl => genLoadMacplrel offset size
  | .net => genLoadMacplrel (l.offNl + offset) size
  | .netNosnap => genLoadMacplrel (l.offNlNosnap + offset) size
  | .tranIpv4 => do
      let s ← genLoadxIphdrlen
      return s ++ [newStmt (bpfLd ||| bpfInd ||| size.code) (l.offMacpl + l.offNl + offset)]
  | .tranIpv6 => genLoadMacplrel (l.offNl + 40 + offset) size

/-! ## Comparisons -/

def genNcmp (offrel : OffRel) (offset : Word) (size : Size) (mask : Word) (jtype : JmpOp)
    (reverse : Bool) (v : Word) : GenM Formula := do
  let s ← genLoadA offrel offset size
  let s := if mask ≠ 0xffffffff then s ++ [newStmt (bpfAlu ||| bpfAnd ||| bpfK) mask] else s
  let b : Formula := .leaf ⟨s, jmp jtype.code, v⟩
  return if reverse ∧ (jtype = .jgt ∨ jtype = .jge) then .not b else b

def genCmp (offrel : OffRel) (offset : Word) (size : Size) (v : Word) : GenM Formula :=
  genNcmp offrel offset size 0xffffffff .jeq false v

def genCmpGt (offrel : OffRel) (offset : Word) (size : Size) (v : Word) : GenM Formula :=
  genNcmp offrel offset size 0xffffffff .jgt false v

def genCmpLt (offrel : OffRel) (offset : Word) (size : Size) (v : Word) : GenM Formula :=
  genNcmp offrel offset size 0xffffffff .jge true v

def genMcmp (offrel : OffRel) (offset : Word) (size : Size) (v mask : Word) : GenM Formula :=
  genNcmp offrel offset size mask .jeq false v

/-- The pieces in which `gen_bcmp` compares a byte string of the given length,
with their offsets: words from the end, then a half word, then the first byte. -/
def bcmpPieces : Nat → List (Nat × Size)
  | n + 4 => (n, .w) :: bcmpPieces n
  | 3 => [(1, .h), (0, .b)]
  | 2 => [(0, .h)]
  | 1 => [(0, .b)]
  | 0 => []

/-- The rest of the comparisons of `gen_bcmp`, given the conjunction so far. -/
def genBcmpPieces (offrel : OffRel) (offset : Word) (v : List (BitVec 8)) :
    List (Nat × Size) → Option Formula → GenM (Option Formula)
  | [], b => return b
  | (start, size) :: rest, b => do
      let w := Packet.bigEndian ((v.drop start).take size.bytes)
      let tmp ← genCmp offrel (offset + BitVec.ofNat 32 start) size w
      genBcmpPieces offrel offset v rest (some (match b with
        | some b => .and b tmp
        | none => tmp))

/-- `gen_bcmp`; there is no block for an empty string. -/
def genBcmp (offrel : OffRel) (offset : Word) (v : List (BitVec 8)) : GenM (Option Formula) :=
  genBcmpPieces offrel offset v (bcmpPieces v.length) none

def genUncond (rsense : Bool) : Formula :=
  .leaf ⟨[newStmt (bpfLd ||| bpfImm) (if rsense then 0 else 1)], jmp bpfJeq, 0⟩

def genTrue : Formula := genUncond true

def genFalse : Formula := genUncond false

/-! ## Tests that look at the packet only -/

/-- The operations of a header test, and whether `A` and `X` hold a loaded value
after one, given whether they did before. -/
def opFlags (op : Op) (k : Word) (a x : Bool) : Option (Bool × Bool) :=
  match op with
  | .ldAbs _ => some (true, x)
  | .ldImm => some (true, x)
  | .ldInd _ => if x then some (true, x) else none
  | .ldxMsh => some (a, true)
  | .ldxMem => if (memIndex k).isSome then some (a, true) else none
  | .alu .and .k => if a then some (a, x) else none
  | .alu .lsh .k => if a then some (a, x) else none
  | .alu .add .x => if a && x then some (a, x) else none
  | .tax => if a then some (a, true) else none
  | _ => none

/-- The statements load before they compute, store nothing, and leave a loaded
value in `A`. -/
def selfContained : Bool → Bool → List Stmt → Bool
  | a, _, [] => a
  | a, x, s :: rest =>
    match decode s.code with
    | none => false
    | some op =>
      match opFlags op s.k a x with
      | some (a', x') => selfContained a' x' rest
      | none => false

/-- A test on header fields. -/
structure Leaf.SelfContained (l : Leaf) : Prop where
  stmts : selfContained false false l.stmts = true
  branch : ∃ cond : JmpOp, l.code = jmp cond.code

theorem selfContained_cons {s : Stmt} {rest : List Stmt}
    (closed : selfContained a x (s :: rest) = true) :
    ∃ op a' x', decode s.code = some op ∧ opFlags op s.k a x = some (a', x') ∧
      selfContained a' x' rest = true := by
  rw [selfContained] at closed
  split at closed
  · cases closed
  split at closed
  · exact ⟨_, _, _, by assumption, by assumption, closed⟩
  · cases closed

theorem opFlags_goesOn {op : Op} {k : Word} {flags : Bool × Bool}
    (accepted : opFlags op k a x = some flags) : goesOn op = true := by
  cases op with
  | ja => cases accepted
  | jmp cond src => cases accepted
  | _ => rfl

theorem selfContained_straight {stmts : List Stmt} (closed : selfContained a x stmts = true) :
    ∀ s ∈ stmts, s.Straight := by
  induction stmts generalizing a x with
  | nil =>
    intro s member
    cases member
  | cons first rest ih =>
    obtain ⟨op, a', x', decoded, flags, later⟩ := selfContained_cons closed
    intro s member
    rcases List.mem_cons.mp member with rfl | inRest
    · exact Stmt.straight_of_decode decoded (opFlags_goesOn flags)
    · exact ih later s inRest

theorem decode_jmp (cond : JmpOp) : decode (jmp cond.code) = some (.jmp cond .k) := by
  cases cond <;> decide

theorem Leaf.SelfContained.straight (closed : l.SelfContained) : l.Straight := by
  refine ⟨selfContained_straight closed.stmts, ?_⟩
  obtain ⟨cond, code⟩ := closed.branch
  exact ⟨cond, .k, by rw [code]; exact decode_jmp cond⟩

/-- Two machines with the same scratch registers, and the same `A` and `X` as far
as these hold a loaded value. -/
structure SameLoaded (a x : Bool) (m m' : Machine) : Prop where
  mem : m'.mem = m.mem
  regA : a = true → m'.A = m.A
  regX : x = true → m'.X = m.X

/-- One operation of a header test does the same on both machines. -/
theorem opFlags_effect {op : Op} {k : Word} {a' x' : Bool}
    (flags : opFlags op k a x = some (a', x')) (same : SameLoaded a x m m') :
    (∃ n n', op.effect k p m = .next n ∧ op.effect k p m' = .next n' ∧ n.mem = m.mem ∧
      SameLoaded a' x' n n') ∨
    (op.effect k p m = .stop (.reject .load) ∧ op.effect k p m' = .stop (.reject .load)) := by
  have load : ∀ (offsets : Option (List Int)) (update update' : Word → Machine),
      (∀ v, (update v).mem = m.mem ∧ SameLoaded a' x' (update v) (update' v)) →
      (∃ n n', Effect.ofRead (p.read offsets) update = .next n ∧
        Effect.ofRead (p.read offsets) update' = .next n' ∧ n.mem = m.mem ∧
        SameLoaded a' x' n n') ∨
      (Effect.ofRead (p.read offsets) update = .stop (.reject .load) ∧
        Effect.ofRead (p.read offsets) update' = .stop (.reject .load)) := by
    intro offsets update update' after
    cases outcome : p.read offsets with
    | ok value => exact .inl ⟨_, _, rfl, rfl, (after value).1, (after value).2⟩
    | error result =>
      cases Packet.read_error outcome
      exact .inr ⟨rfl, rfl⟩
  have plain {fn : AluOp} (src : Src) (notDiv : fn ≠ .div) (n : Machine) :
      (Op.alu fn src).effect k p n = .next { n with A := fn.eval n.A (src.value k n) } := by
    simp only [Op.effect, AluOp.effect, notDiv, false_and, if_false]
  -- `rintro` closes the branches without flags
  revert flags
  fun_cases opFlags op k a x <;> rintro ⟨⟩
  · exact load _ _ _ fun _ => ⟨rfl, same.mem, fun _ => rfl, same.regX⟩
  · exact .inl ⟨_, _, rfl, rfl, rfl, same.mem, fun _ => rfl, same.regX⟩
  · simp only [Op.effect, same.regX (by assumption)]
    exact load _ _ _ fun _ => ⟨rfl, same.mem, fun _ => rfl, fun _ => rfl⟩
  · exact load _ _ _ fun _ => ⟨rfl, same.mem, same.regA, fun _ => rfl⟩
  · obtain ⟨i, found⟩ := Option.isSome_iff_exists.mp (by assumption)
    simp only [Op.effect, found]
    exact .inl ⟨_, _, rfl, rfl, rfl, same.mem, same.regA, fun _ => by rw [same.mem]⟩
  · refine .inl ⟨_, _, plain .k (by decide) m, plain .k (by decide) m', rfl, same.mem, ?_, same.regX⟩
    exact fun loaded => by rw [same.regA loaded]; rfl
  · refine .inl ⟨_, _, plain .k (by decide) m, plain .k (by decide) m', rfl, same.mem, ?_, same.regX⟩
    exact fun loaded => by rw [same.regA loaded]; rfl
  · rename_i loaded
    rw [Bool.and_eq_true] at loaded
    refine .inl ⟨_, _, plain .x (by decide) m, plain .x (by decide) m', rfl, same.mem, ?_, same.regX⟩
    simp [Src.value, same.regA loaded.1, same.regX loaded.2]
  · exact .inl ⟨_, _, rfl, rfl, rfl, same.mem, same.regA, fun _ => same.regA (by assumption)⟩

/-- Self-contained statements do the same on both machines, and keep the scratch
registers. -/
theorem execStmts_selfContained {stmts : List Stmt} (closed : selfContained a x stmts = true)
    (same : SameLoaded a x m m') :
    (∃ n n', execStmts p stmts m = .ok n ∧ execStmts p stmts m' = .ok n' ∧ n.mem = m.mem ∧
      n'.mem = m.mem ∧ n'.A = n.A) ∨
    (execStmts p stmts m = .error (.reject .load) ∧
      execStmts p stmts m' = .error (.reject .load)) := by
  induction stmts generalizing a x m m' with
  | nil => exact .inl ⟨m, m', rfl, rfl, rfl, same.mem, same.regA closed⟩
  | cons s rest ih =>
    obtain ⟨op, a', x', decoded, flags, later⟩ := selfContained_cons closed
    simp only [execStmts, decoded]
    rcases opFlags_effect (p := p) flags same with ⟨n, n', next, next', mem, same'⟩ |
      ⟨stops, stops'⟩
    · simp only [next, next']
      rw [← mem]
      exact ih later same'
    · right
      simp only [stops, stops', and_self]

/-- The outcome of a header test depends on the packet and the scratch registers
only. -/
theorem leafTest_selfContained (closed : l.SelfContained) (mem : m'.mem = m.mem) :
    (∃ value n n', leafTest p l m = .ok (value, n) ∧ leafTest p l m' = .ok (value, n') ∧
      n.mem = m.mem ∧ n'.mem = m.mem) ∨
    (leafTest p l m = .error (.reject .load) ∧ leafTest p l m' = .error (.reject .load)) := by
  obtain ⟨cond, code⟩ := closed.branch
  have start : SameLoaded false false m m' :=
    ⟨mem, nofun, nofun⟩
  simp only [leafTest, code, decode_jmp]
  rcases execStmts_selfContained (p := p) closed.stmts start with
    ⟨n, n', ran, ran', kept, kept', sameA⟩ | ⟨stops, stops'⟩
  · simp only [ran, ran', Src.value, sameA]
    exact .inl ⟨_, n, n', rfl, rfl, kept, kept'⟩
  · right
    simp only [stops, stops', and_self]

/-- A formula over header tests. -/
def HeaderTests (c : Formula) : Prop := ∀ l ∈ c.leaves, l.SelfContained

@[simp]
theorem headerTests_and {left right : Formula} :
    HeaderTests (.and left right) ↔ HeaderTests left ∧ HeaderTests right := by
  simp only [HeaderTests, Cond.leaves, List.mem_append, or_imp, forall_and]

@[simp]
theorem headerTests_or {left right : Formula} :
    HeaderTests (.or left right) ↔ HeaderTests left ∧ HeaderTests right :=
  headerTests_and

@[simp]
theorem headerTests_not {inner : Formula} : HeaderTests (.not inner) ↔ HeaderTests inner :=
  Iff.rfl

/-- The instructions that the tests of a formula take, without extra jumps. -/
def weight (c : Formula) : Nat := (c.leaves.map fun l => l.stmts.length + 1).sum

@[simp]
theorem weight_leaf (l : Leaf) : weight (.leaf l) = l.stmts.length + 1 := by
  simp [weight, Cond.leaves]

@[simp]
theorem weight_and (left right : Formula) :
    weight (.and left right) = weight left + weight right := by
  simp [weight, Cond.leaves]

@[simp]
theorem weight_or (left right : Formula) :
    weight (.or left right) = weight left + weight right := by
  simp [weight, Cond.leaves]

@[simp]
theorem weight_not (inner : Formula) : weight (.not inner) = weight inner := rfl

/-- Header tests of at most the given weight. -/
structure LightTests (n : Nat) (c : Formula) : Prop where
  headers : HeaderTests c
  light : weight c ≤ n

theorem LightTests.le {m n : Nat} (fits : m ≤ n) (c : Formula) (tests : LightTests m c) :
    LightTests n c :=
  ⟨tests.headers, tests.light.trans fits⟩

theorem Generates.le {gen : GenM Formula} {m n : Nat} (tests : Generates gen (LightTests m))
    (fits : m ≤ n := by decide) : Generates gen (LightTests n) :=
  tests.weaken (LightTests.le fits)

theorem LightTests.and {m n : Nat} {c d : Formula} (left : LightTests m c)
    (right : LightTests n d) : LightTests (m + n) (.and c d) :=
  ⟨headerTests_and.mpr ⟨left.headers, right.headers⟩,
    (weight_and c d).trans_le (Nat.add_le_add left.light right.light)⟩

/-- The value of a formula over header tests depends on the packet and the scratch
registers only. -/
theorem HeaderTests.eval {c : Formula} (tests : HeaderTests c) (p : Packet) (mem : m'.mem = m.mem) :
    (∃ value n n', c.eval (leafTest p) m = .ok (value, n) ∧
      c.eval (leafTest p) m' = .ok (value, n') ∧ n.mem = m.mem ∧ n'.mem = m.mem) ∨
    (c.eval (leafTest p) m = .error (.reject .load) ∧
      c.eval (leafTest p) m' = .error (.reject .load)) := by
  induction c generalizing m m' with
  | leaf l => exact leafTest_selfContained (tests l (List.mem_singleton_self l)) mem
  | and left right ihLeft ihRight | or left right ihLeft ihRight =>
    obtain ⟨testsLeft, testsRight⟩ := headerTests_and.mp tests
    simp only [Cond.eval]
    rcases ihLeft testsLeft mem with ⟨value, n, n', ran, ran', kept, kept'⟩ | ⟨stops, stops'⟩
    · simp only [ran, ran']
      cases value <;> first
        | exact .inl ⟨_, n, n', rfl, rfl, kept, kept'⟩
        | rw [← kept]
          exact ihRight testsRight (kept'.trans kept.symm)
    · right
      simp only [stops, stops', and_self]
  | not inner ih =>
    simp only [Cond.eval]
    rcases ih tests mem with ⟨value, n, n', ran, ran', kept, kept'⟩ | ⟨stops, stops'⟩
    · simp only [ran, ran']
      exact .inl ⟨!value, n, n', rfl, rfl, kept, kept'⟩
    · right
      simp only [stops, stops', and_self]

/-! ## What the functions above generate -/

section Decoding

variable (size : Size)

@[simp]
theorem decode_ldAbs : decode (bpfLd ||| bpfAbs ||| size.code) = some (.ldAbs size) := by
  cases size <;> decide

@[simp]
theorem decode_ldInd : decode (bpfLd ||| bpfInd ||| size.code) = some (.ldInd size) := by
  cases size <;> decide

@[simp]
theorem decode_ldIndB : decode (bpfLd ||| bpfInd ||| bpfB) = some (.ldInd .b) := by decide

@[simp]
theorem decode_ldImm : decode (bpfLd ||| bpfImm) = some .ldImm := by decide

@[simp]
theorem decode_ldxMem : decode (bpfLdx ||| bpfMem) = some .ldxMem := by decide

@[simp]
theorem decode_ldxMsh : decode (bpfLdx ||| bpfMsh ||| bpfB) = some .ldxMsh := by decide

@[simp]
theorem decode_aluAndK : decode (bpfAlu ||| bpfAnd ||| bpfK) = some (.alu .and .k) := by decide

@[simp]
theorem decode_aluLshK : decode (bpfAlu ||| bpfLsh ||| bpfK) = some (.alu .lsh .k) := by decide

@[simp]
theorem decode_aluAddX : decode (bpfAlu ||| bpfAdd ||| bpfX) = some (.alu .add .x) := by decide

@[simp]
theorem decode_tax : decode (bpfMisc ||| bpfTax) = some .tax := by decide

end Decoding

@[simp]
theorem memIndex_word (r : Reg) : memIndex r.word = some r := by
  have small : r.val < 2 ^ 32 := lt_trans r.isLt (by decide)
  simp only [memIndex, Reg.word, BitVec.toNat_ofNat, Nat.mod_eq_of_lt small, r.isLt, dif_pos]

/-- The statements make up the load of a header test. -/
def LoadsField (s : List Stmt) : Prop := selfContained false false s = true

theorem selfContained_and {s : List Stmt} {mask : Word} (closed : selfContained a x s = true) :
    selfContained a x (s ++ [newStmt (bpfAlu ||| bpfAnd ||| bpfK) mask]) = true := by
  induction s generalizing a x with
  | nil =>
    rw [selfContained] at closed
    simp [selfContained, newStmt, opFlags, closed]
  | cons first rest ih =>
    obtain ⟨op, a', x', decoded, flags, later⟩ := selfContained_cons closed
    simp only [List.cons_append, selfContained, decoded, flags]
    exact ih later

theorem generates_genLoadLlrel (offset : Word) (size : Size) :
    Generates (genLoadLlrel offset size) fun s => LoadsField s ∧ s.length ≤ 2 := by
  refine generates_genLlprefixlen.bind ?_
  intro s loads
  apply generates_layout_bind
  intro l
  rcases loads with rfl | ⟨r, rfl⟩
  · refine generates_pure ?_
    simp [LoadsField, selfContained, newStmt, opFlags]
  · refine generates_pure ?_
    simp [LoadsField, selfContained, loadOffset, newStmt, opFlags]

theorem generates_genLoadMacplrel (offset : Word) (size : Size) :
    Generates (genLoadMacplrel offset size) fun s => LoadsField s ∧ s.length ≤ 2 := by
  refine generates_genOffMacpl.bind ?_
  intro s loads
  apply generates_layout_bind
  intro l
  rcases loads with rfl | ⟨r, rfl⟩
  · refine generates_pure ?_
    simp [LoadsField, selfContained, newStmt, opFlags]
  · refine generates_pure ?_
    simp [LoadsField, selfContained, loadOffset, newStmt, opFlags]

/-- The two forms of the code that loads the length of the IPv4 header. -/
def LoadsIphdrlen (s : List Stmt) : Prop :=
  (∃ k, s = [newStmt (bpfLdx ||| bpfMsh ||| bpfB) k]) ∨
  ∃ r k, s = loadOffset r ++ [newStmt (bpfLd ||| bpfInd ||| bpfB) k,
    newStmt (bpfAlu ||| bpfAnd ||| bpfK) 0xf,
    newStmt (bpfAlu ||| bpfLsh ||| bpfK) 2,
    newStmt (bpfAlu ||| bpfAdd ||| bpfX) 0,
    newStmt (bpfMisc ||| bpfTax) 0]

theorem generates_genLoadxIphdrlen : Generates genLoadxIphdrlen LoadsIphdrlen := by
  refine generates_genOffMacpl.bind ?_
  intro s loads
  apply generates_layout_bind
  intro l
  rcases loads with rfl | ⟨r, rfl⟩
  · exact generates_pure (.inl ⟨_, rfl⟩)
  · exact generates_pure (.inr ⟨r, _, rfl⟩)

theorem generates_genLoadA (offrel : OffRel) (offset : Word) (size : Size) :
    Generates (genLoadA offrel offset size) fun s => LoadsField s ∧ s.length ≤ 7 := by
  have longer : ∀ s : List Stmt, LoadsField s ∧ s.length ≤ 2 → LoadsField s ∧ s.length ≤ 7 :=
    fun s ⟨loads, short⟩ => ⟨loads, by omega⟩
  apply generates_layout_bind
  intro l
  cases offrel with
  | packet =>
    refine generates_pure ?_
    simp [LoadsField, selfContained, newStmt, opFlags]
  | link => exact (generates_genLoadLlrel offset size).weaken longer
  | macpl => exact (generates_genLoadMacplrel offset size).weaken longer
  | net | netNosnap | tranIpv6 => exact (generates_genLoadMacplrel _ size).weaken longer
  | tranIpv4 =>
    refine generates_genLoadxIphdrlen.bind ?_
    intro s loads
    refine generates_pure ?_
    rcases loads with ⟨k, rfl⟩ | ⟨r, k, rfl⟩
    · simp [LoadsField, selfContained, newStmt, opFlags]
    · simp [LoadsField, selfContained, loadOffset, newStmt, opFlags]

theorem headerTests_leaf (closed : l.SelfContained) : HeaderTests (.leaf l) := by
  intro l' member
  rw [List.mem_singleton.mp member]
  exact closed

theorem tests_genNcmp (offrel : OffRel) (offset : Word) (size : Size) (mask : Word)
    (jtype : JmpOp) (reverse : Bool) (v : Word) :
    Generates (genNcmp offrel offset size mask jtype reverse v) (LightTests 9) := by
  refine (generates_genLoadA offrel offset size).bind ?_
  intro s ⟨loads, short⟩
  refine generates_pure ?_
  have block : LightTests 9 (.leaf ⟨if mask ≠ 0xffffffff then
      s ++ [newStmt (bpfAlu ||| bpfAnd ||| bpfK) mask] else s, jmp jtype.code, v⟩) := by
    refine ⟨headerTests_leaf ⟨?_, jtype, rfl⟩, ?_⟩
    · dsimp only
      split
      · exact selfContained_and loads
      · exact loads
    · rw [weight_leaf]
      split
      · rw [List.length_append]
        exact Nat.add_le_add (Nat.add_le_add short (Nat.le_refl 1)) (Nat.le_refl 1)
      · exact Nat.le_succ_of_le (Nat.add_le_add short (Nat.le_refl 1))
  split
  · exact ⟨headerTests_not.mpr block.headers, block.light⟩
  · exact block

section Comparisons

variable (offrel : OffRel) (offset : Word) (size : Size) (v mask : Word)

theorem tests_genCmp : Generates (genCmp offrel offset size v) (LightTests 9) :=
  tests_genNcmp offrel offset size _ _ _ v

theorem tests_genCmpGt : Generates (genCmpGt offrel offset size v) (LightTests 9) :=
  tests_genNcmp offrel offset size _ _ _ v

theorem tests_genMcmp : Generates (genMcmp offrel offset size v mask) (LightTests 9) :=
  tests_genNcmp offrel offset size mask _ _ v

theorem generates_genNcmp (jtype : JmpOp) (reverse : Bool) :
    Generates (genNcmp offrel offset size mask jtype reverse v) HeaderTests :=
  (tests_genNcmp offrel offset size mask jtype reverse v).weaken fun _ => LightTests.headers

theorem generates_genCmp : Generates (genCmp offrel offset size v) HeaderTests :=
  generates_genNcmp offrel offset size v _ _ _

theorem generates_genCmpGt : Generates (genCmpGt offrel offset size v) HeaderTests :=
  generates_genNcmp offrel offset size v _ _ _

theorem generates_genCmpLt : Generates (genCmpLt offrel offset size v) HeaderTests :=
  generates_genNcmp offrel offset size v _ _ _

theorem generates_genMcmp : Generates (genMcmp offrel offset size v mask) HeaderTests :=
  generates_genNcmp offrel offset size v mask _ _

end Comparisons

section Pieces

variable (offrel : OffRel) (offset : Word) (v : List (BitVec 8)) (pieces : List (Nat × Size))

theorem tests_genBcmpPieces : ∀ (b : Option Formula) (n : Nat), (∀ c ∈ b, LightTests n c) →
    Generates (genBcmpPieces offrel offset v pieces b)
      (fun b => ∀ c ∈ b, LightTests (n + 9 * pieces.length) c) := by
  induction pieces with
  | nil =>
    intro b n tests
    exact generates_pure tests
  | cons piece rest ih =>
    intro b n tests
    obtain ⟨start, size⟩ := piece
    refine (tests_genCmp offrel _ size _).bind fun tmp testsTmp => ?_
    refine (ih _ (n + 9) ?_).weaken ?_
    · intro c found
      cases b with
      | none =>
        cases found
        exact testsTmp.le (Nat.le_add_left 9 n)
      | some before =>
        cases found
        exact (tests before rfl).and testsTmp
    · intro b tests c found
      refine (tests c found).le ?_
      rw [List.length_cons]
      omega

theorem generates_genBcmpPieces (b : Option Formula) (tests : ∀ c ∈ b, HeaderTests c) :
    Generates (genBcmpPieces offrel offset v pieces b) (fun b => ∀ c ∈ b, HeaderTests c) := by
  refine (tests_genBcmpPieces offrel offset v pieces b (b.elim 0 weight) ?_).weaken ?_
  · rintro c ⟨⟩
    exact ⟨tests c rfl, Nat.le_refl _⟩
  · exact fun b tests c found => (tests c found).headers

theorem generates_genBcmp : Generates (genBcmp offrel offset v) (fun b => ∀ c ∈ b, HeaderTests c) :=
  generates_genBcmpPieces offrel offset v _ none nofun

end Pieces

theorem headerTests_genUncond (rsense : Bool) : HeaderTests (genUncond rsense) := by
  apply headerTests_leaf
  refine ⟨?_, .jeq, rfl⟩
  simp [selfContained, newStmt, opFlags]

theorem tests_genFalse {n : Nat} (some : 2 ≤ n) : LightTests n genFalse :=
  ⟨headerTests_genUncond false, some⟩

end Libpcap.Gencode
