/-
# The payload of an 802.11 frame

On the 802.11 link types, the statements in front of the first block of a filter compute the
offset of the payload: the length of the radio header, which precedes the 802.11 header, plus
the length of that header.

With padding behind the 802.11 header, its length is rounded up to a multiple of 4. The code
rounds up the sum of both lengths instead, and looks for the flag that tells of padding behind
the first bitmap of the radiotap header, where a second one may be. So for a data frame with
padding that the code sees, the offset is right exactly if the length of the radiotap header is
a multiple of 4 (`compileFilter_payload_offset`).
-/

import Mathlib.Tactic.IntervalCases
import Libpcap.Gencode.OffsetRegs

namespace Libpcap.Filters

open Libpcap.Bpf Libpcap.Gencode Libpcap.Semantics

/-! ## Frames -/

section Wire

variable (p : Packet)

/-- The length of what precedes the 802.11 header: nothing that varies, a Prism or AVS header,
or a header with a little-endian length. -/
def linkPrefix (l : Layout) : Option Nat :=
  if l.linktype = dltPrismHeader then do
    let first ← p.number .w 0
    if first &&& 0xfffff000 = 0x80211000 then (p.number .w 4).map BitVec.toNat else some 144
  else if l.linktype = dltIeee80211RadioAvs then (p.number .w 4).map BitVec.toNat
  else if l.linktype = dltIeee80211Radio ∨ l.linktype = dltPpi then do
    let high ← p.number .b 3
    let low ← p.number .b 2
    return 256 * high.toNat + low.toNat
  else some l.offLl.toNat

/-- A data frame, by the first byte of the frame control field. -/
def isData (control : Word) : Bool := control &&& 0x08 != 0 && control &&& 0x04 == 0

/-- A data frame with a QoS field. -/
def isQos (control : Word) : Bool := isData control && control &&& 0x80 != 0

/-- A little-endian bitmap of the fields that a radiotap header has. -/
def presence (k : Nat) : Option Word := (p.number .w k).map swaplong

/-- A further bitmap follows. -/
def isExtended (bitmap : Word) : Bool := bitmap &&& 0x80000000 != 0

/-- Where the fields of the radiotap header start: behind the bitmaps, the first of which is at
an index; there are at most as many as the fuel says. -/
def fieldsStart : Nat → Nat → Nat
  | 0, k => k
  | fuel + 1, k => if (presence p k).any isExtended then fieldsStart fuel (k + 4) else k + 4

/-- Where the flags of the radiotap header are: the field is the first one, or follows the
timestamp, which is aligned to 8 bytes. -/
def flagsAt : Option Nat := do
  let bitmap ← presence p 4
  let start := fieldsStart p p.buflen 4
  if bitmap &&& 2 = 0 then none
  else if bitmap &&& 1 = 0 then some start
  else some ((start + 7) / 8 * 8 + 8)

/-- There is padding between the 802.11 header and the payload. -/
def hasDatapad : Bool :=
  (flagsAt p).any fun k => (p.number .b k).any fun flags => flags &&& 0x20 != 0

/-- Round up to a multiple of 4. -/
def roundUp (n : Nat) : Nat := (n + 3) / 4 * 4

/-- The padding counts: the frame is a data frame behind a radiotap header that says so. -/
def isPadded (l : Layout) (control : Word) : Bool :=
  isData control && l.linktype == dltIeee80211Radio && hasDatapad p

/-- The length of the 802.11 header. -/
def plainLength (control : Word) : Nat := if isQos control then 26 else 24

/-- The length of the 802.11 header, with padding. -/
def headerLength (l : Layout) (control : Word) : Nat :=
  if isPadded p l control then roundUp (plainLength control) else plainLength control

end Wire

/-! ## Inserted code -/

section Inserted

/-- A place in statements that stand behind others in a block. -/
def inside (b : BlockId) (front : List Stmt) (i : Nat) (m : Machine) : Place :=
  ⟨b, (front.length + i : Nat), m⟩

variable {h : Heap} {p : Packet} {b : BlockId} {front code back : List Stmt} {r : Reg}

/-- From a place in the code, a load faults, or the run comes to the end of the code with a
machine that has a property. -/
def Arrives (h : Heap) (p : Packet) (b : BlockId) (front code : List Stmt) (i : Nat) (m : Machine)
    (after : Machine → Prop) : Prop :=
  (graphStep h p).Stops (inside b front i m) (.reject .load) ∨
    ∃ m', (graphStep h p).Reaches (inside b front i m) (inside b front code.length m') ∧ after m'

variable {after : Machine → Prop}

theorem arrives_end {m : Machine} (holds : after m) :
    Arrives h p b front code code.length m after :=
  .inr ⟨m, .refl _, holds⟩

theorem Arrives.of_step {i j : Nat} {m m' : Machine}
    (step : graphStep h p (inside b front i m) = .go (inside b front j m'))
    (later : Arrives h p b front code j m' after) : Arrives h p b front code i m after := by
  rcases later with fault | ⟨last, path, holds⟩
  · exact .inl (fault.of_reaches (.single step))
  · exact .inr ⟨last, .head step path, holds⟩

theorem Arrives.weaken {i : Nat} {m : Machine} {before : Machine → Prop}
    (arrives : Arrives h p b front code i m before) (weaker : ∀ m', before m' → after m') :
    Arrives h p b front code i m after := by
  rcases arrives with fault | ⟨last, path, holds⟩
  · exact .inl fault
  · exact .inr ⟨last, path, weaker last holds⟩

variable (split : (h.get b).stmts = front ++ code ++ back)

include split

theorem stmt_inside {i : Nat} {s : Stmt} (found : code[i]? = some s) :
    (h.get b).stmts[front.length + i]? = some s := by
  have within := (List.getElem?_eq_some_iff.mp found).1
  rw [split, List.append_assoc, List.getElem?_append_right (Nat.le_add_right _ _),
    Nat.add_sub_cancel_left, List.getElem?_append_left within, found]

/-- A statement other than a jump. -/
theorem Arrives.stmt {i : Nat} {s : Stmt} {op : Op} {m : Machine} (found : code[i]? = some s)
    (decoded : decode s.code = some op)
    (later : match op.effect s.k p m with
      | .next m' => Arrives h p b front code (i + 1) m' after
      | .stop result => result = .reject .load
      | _ => False) :
    Arrives h p b front code i m after := by
  have alive : s.code ≠ nop := by
    intro dead
    rw [dead] at decoded
    cases decoded
  have step := graphStep_live (p := p) (stmt_inside split found) alive m
  simp only [decoded] at step
  cases effect : op.effect s.k p m with
  | next m' =>
    simp only [effect] at later step
    exact later.of_step (by rw [inside, step, inside]; push_cast; rw [Int.add_assoc])
  | stop result =>
    simp only [effect] at later step
    subst later
    exact .inl (Step.stops_of_step step)
  | branch taken | jump =>
    simp only [effect] at later

/-- A jump inside the code. -/
theorem Arrives.test {i j : Nat} {s : Stmt} {cond : JmpOp} {src : Src} {m : Machine}
    (found : code[i]? = some s) (decoded : decode s.code = some (.jmp cond src)) {distance : Int}
    (target : (if cond.eval m.A (src.value s.k m) then s.jt else s.jf) = some distance)
    (there : (i : Int) + 1 + distance = j)
    (later : Arrives h p b front code j m after) : Arrives h p b front code i m after := by
  have step := graphStep_testStmt (p := p) (stmt_inside split found) decoded target
  have same : ((front.length + i : Nat) : Int) + 1 + distance = (front.length + j : Nat) := by
    push_cast
    omega
  refine later.of_step ?_
  rw [inside, step, same, inside]

/-- An unconditional jump inside the code. -/
theorem Arrives.jump {i : Nat} (j : Nat) {s : Stmt} {m : Machine} (found : code[i]? = some s)
    (decoded : decode s.code = some .ja) (there : (i : Int) + 1 + s.k.toInt = j)
    (later : Arrives h p b front code j m after) : Arrives h p b front code i m after := by
  have step := graphStep_jumpStmt (p := p) (stmt_inside split found) decoded m
  have same : ((front.length + i : Nat) : Int) + 1 + s.k.toInt = (front.length + j : Nat) := by
    push_cast
    omega
  refine later.of_step ?_
  rw [inside, step, same, inside]

omit split in
theorem effect_ldAbs (size : Size) {k : Word} (low : k.toNat < 2 ^ 31) (m : Machine) :
    (Op.ldAbs size).effect k p m =
      .ofRead (Packet.orReject (p.number size k.toNat)) fun v => { m with A := v } := by
  rw [Op.effect, p.read_touched_eq_number size (.inr low)]

omit split in
theorem effect_ldIndByte {k : Word} {m : Machine} (low : (m.X + k).toNat < 2 ^ 31) :
    (Op.ldInd .b).effect k p m =
      .ofRead (Packet.orReject (p.number .b (m.X + k).toNat)) fun v => { m with A := v } := by
  rw [Op.effect, p.read_touched_eq_number .b (.inr low)]

/-- A load, which yields a number that has been captured. -/
theorem Arrives.load {i : Nat} {s : Stmt} {op : Op} {m : Machine} (found : code[i]? = some s)
    (decoded : decode s.code = some op) {captured : Option Word} {update : Word → Machine}
    (effect : op.effect s.k p m = .ofRead (Packet.orReject captured) update)
    (later : ∀ x, captured = some x → Arrives h p b front code (i + 1) (update x) after) :
    Arrives h p b front code i m after := by
  refine Arrives.stmt split found decoded ?_
  rw [effect]
  cases captured with
  | none => rfl
  | some x => exact later x rfl

/-- A test of bits of the accumulator. -/
theorem Arrives.jset {i : Nat} (jt jf : Nat) {k : Word} {whenSet whenClear : Int} {m : Machine}
    (found : code[i]? =
      some { code := jmp bpfJset, jt := some whenSet, jf := some whenClear, k })
    (thereSet : (i : Int) + 1 + whenSet = jt) (thereClear : (i : Int) + 1 + whenClear = jf)
    (onSet : m.A &&& k ≠ 0 → Arrives h p b front code jt m after)
    (onClear : m.A &&& k = 0 → Arrives h p b front code jf m after) :
    Arrives h p b front code i m after := by
  have decoded : decode (jmp bpfJset) = some (.jmp .jset .k) := by decide
  by_cases clear : m.A &&& k = 0
  · refine Arrives.test split found decoded (if_neg ?_) thereClear (onClear clear)
    simpa [JmpOp.eval, Src.value] using clear
  · refine Arrives.test split found decoded (if_pos ?_) thereSet (onSet clear)
    simpa [JmpOp.eval, Src.value] using clear

end Inserted

/-! ## The length of the 802.11 header -/

/-- What the code takes for the padding: it looks for the flags behind one bitmap. -/
def datapadBit (p : Packet) : Bool :=
  (p.number .w 4).any fun bitmap => bitmap &&& swaplong 2 != 0 &&
    (p.number .b (if bitmap &&& swaplong 1 != 0 then 16 else 8)).any
      fun flags => flags &&& 0x20 != 0

/-- The last step of the code: the offset is rounded up. -/
def padOffset (radiotap : Bool) (p : Packet) (offset : Word) : Word :=
  if radiotap && datapadBit p then (offset + 3) &&& ~~~3 else offset

/-- The offset that the code computes, given the start of the 802.11 header. -/
def payloadOffset (radiotap : Bool) (p : Packet) (start control : Word) : Word :=
  if isData control then
    padOffset radiotap p (if control &&& 0x80 != 0 then start + 24 + 2 else start + 24)
  else start + 24

section HeaderLength

variable {h : Heap} {p : Packet} {b : BlockId} {front back : List Stmt} {r : Reg} {radiotap : Bool}

theorem decode_txa : decode (bpfMisc ||| bpfTxa) = some .txa := by decide
theorem decode_addK : decode (bpfAlu ||| bpfAdd ||| bpfK) = some (.alu .add .k) := by decide
theorem decode_andImm : decode (bpfAlu ||| bpfAnd ||| bpfImm) = some (.alu .and .k) := by decide
theorem decode_ldAbsByte : decode (bpfLd ||| bpfAbs ||| bpfB) = some (.ldAbs .b) := by decide
theorem decode_ldAbsWord : decode (bpfLd ||| bpfAbs ||| bpfW) = some (.ldAbs .w) := by decide

variable (split : (h.get b).stmts = front ++ load80211HeaderLen true r true ++ back)

include split

/-- Rounding up the offset. -/
theorem arrives_roundup {m : Machine} {offset : Word} (holds : m.mem r = offset) :
    Arrives h p b front (load80211HeaderLen true r true) 17 m
      (fun m' => m'.mem r = (offset + 3) &&& ~~~3) := by
  refine Arrives.stmt split (i := 17) rfl decode_ldMem ?_
  simp only [newStmt, Op.effect, memIndex_word]
  refine Arrives.stmt split (i := 18) rfl decode_addK ?_
  refine Arrives.stmt split (i := 19) rfl decode_andImm ?_
  refine Arrives.stmt split (i := 20) rfl decode_st ?_
  simp only [newStmt, Op.effect, memIndex_word]
  refine arrives_end ?_
  simp [AluOp.eval, Src.value, holds]

omit split in
theorem datapadBit_eq {bitmap flags : Word} (found : p.number .w 4 = some bitmap)
    (flagged : bitmap &&& swaplong 2 ≠ 0)
    (foundFlags : p.number .b (if bitmap &&& swaplong 1 != 0 then 16 else 8) = some flags) :
    datapadBit p = (flags &&& 0x20 != 0) := by
  have isSet : (bitmap &&& swaplong 2 != 0) = true := by simpa using flagged
  rw [datapadBit, found, Option.any_some, isSet, Bool.true_and, foundFlags, Option.any_some]

/-- The test of the flags, with their offset. -/
theorem arrives_flags (i : Nat) {m : Machine} {offset flags : Word} (holds : m.mem r = offset)
    (loaded : m.A = flags) (bit : datapadBit p = (flags &&& 0x20 != 0))
    {whenSet whenClear : Int} (found : (load80211HeaderLen true r true)[i]? =
      some { code := jmp bpfJset, jt := some whenSet, jf := some whenClear, k := 0x20 })
    (thereSet : (i : Int) + 1 + whenSet = 17) (thereClear : (i : Int) + 1 + whenClear = 21) :
    Arrives h p b front (load80211HeaderLen true r true) i m
      (fun m' => m'.mem r = padOffset true p offset) := by
  subst loaded
  refine Arrives.jset split 17 21 found thereSet thereClear (fun padded => ?_) fun unpadded => ?_
  · have isSet : (m.A &&& 0x20 != 0) = true := by simpa using padded
    rw [isSet] at bit
    simpa [padOffset, bit] using arrives_roundup split holds
  · have isClear : (m.A &&& 0x20 != 0) = false := by simpa using unpadded
    rw [isClear] at bit
    refine arrives_end ?_
    rw [holds, padOffset, bit]
    rfl

/-- The part that looks for padding. -/
theorem arrives_padding {m : Machine} {offset : Word}
    (holds : m.mem r = offset) :
    Arrives h p b front (load80211HeaderLen true r true) 10 m
      (fun m' => m'.mem r = padOffset true p offset) := by
  refine Arrives.load split (i := 10) rfl decode_ldAbsWord (effect_ldAbs .w (by decide) m) ?_
  intro bitmap (found : p.number .w 4 = some bitmap)
  refine Arrives.jset split (i := 11) 12 21 rfl rfl rfl (fun flagged => ?_) fun unflagged => ?_
  · refine Arrives.jset split (i := 12) 13 15 rfl rfl rfl (fun stamped => ?_) fun unstamped => ?_
    · refine Arrives.load split (i := 13) rfl decode_ldAbsByte
        (effect_ldAbs .b (by decide) _) ?_
      intro flags foundFlags
      have isStamped : (bitmap &&& swaplong 1 != 0) = true := by simpa using stamped
      refine arrives_flags split 14 holds rfl (datapadBit_eq found flagged ?_) rfl rfl rfl
      rw [isStamped]
      exact foundFlags
    · refine Arrives.load split (i := 15) rfl decode_ldAbsByte
        (effect_ldAbs .b (by decide) _) ?_
      intro flags foundFlags
      have isUnstamped : (bitmap &&& swaplong 1 != 0) = false := by simpa using unstamped
      refine arrives_flags split 16 holds rfl (datapadBit_eq found flagged ?_) rfl rfl rfl
      rw [isUnstamped]
      exact foundFlags
  · have isUnflagged : (bitmap &&& swaplong 2 != 0) = false := by simpa using unflagged
    have bit : datapadBit p = false := by
      rw [datapadBit, found, Option.any_some, isUnflagged, Bool.false_and]
    refine arrives_end ?_
    rw [padOffset, bit]
    exact holds

end HeaderLength

section Start

variable {h : Heap} {p : Packet} {b : BlockId} {front back : List Stmt} {r : Reg} {radiotap : Bool}
  (split : (h.get b).stmts = front ++ load80211HeaderLen radiotap r true ++ back)

include split

/-- Behind the test for a QoS field. -/
theorem arrives_afterQos {m : Machine} {offset : Word}
    (holds : m.mem r = offset) :
    Arrives h p b front (load80211HeaderLen radiotap r true) 10 m
      (fun m' => m'.mem r = padOffset radiotap p offset) := by
  cases radiotap with
  | true => exact arrives_padding split holds
  | false => exact arrives_end holds

/-- The QoS field is counted. -/
theorem arrives_qos {m : Machine} {offset : Word}
    (holds : m.mem r = offset) :
    Arrives h p b front (load80211HeaderLen radiotap r true) 7 m
      (fun m' => m'.mem r = padOffset radiotap p (offset + 2)) := by
  refine Arrives.stmt split (i := 7) rfl decode_ldMem ?_
  simp only [newStmt, Op.effect, memIndex_word]
  refine Arrives.stmt split (i := 8) rfl decode_addK ?_
  refine Arrives.stmt split (i := 9) rfl decode_st ?_
  simp only [newStmt, Op.effect, memIndex_word]
  refine arrives_afterQos split ?_
  simp [AluOp.eval, Src.value, holds]

/-- The tests of the frame control field. -/
theorem arrives_control {m : Machine} (offset : Word)
    (holds : m.mem r = offset) :
    Arrives h p b front (load80211HeaderLen radiotap r true) 4 m
      (fun m' => m'.mem r = if isData m.A then
        padOffset radiotap p (if m.A &&& 0x80 != 0 then offset + 2 else offset) else offset) := by
  have found4 : (load80211HeaderLen radiotap r true)[4]? =
      some { code := jmp bpfJset, jt := some 0,
             jf := some (((load80211HeaderLen radiotap r true).length : Int) - 4 - 1),
             k := 0x08 } := by
    cases radiotap <;> rfl
  have found5 : (load80211HeaderLen radiotap r true)[5]? =
      some { code := jmp bpfJset,
             jt := some (((load80211HeaderLen radiotap r true).length : Int) - 5 - 1),
             jf := some 0, k := 0x04 } := by
    cases radiotap <;> rfl
  have found6 : (load80211HeaderLen radiotap r true)[6]? =
      some { code := jmp bpfJset, jt := some 0, jf := some 3, k := 0x80 } := by
    cases radiotap <;> rfl
  let last := (load80211HeaderLen radiotap r true).length
  refine Arrives.jset split 5 last found4 rfl (by omega) (fun typeBit => ?_) fun noTypeBit => ?_
  · refine Arrives.jset split last 6 found5 (by omega) rfl (fun control => ?_) fun data => ?_
    · have notData : isData m.A = false := by
        rw [isData, beq_eq_false_iff_ne.mpr control, Bool.and_false]
      refine arrives_end ?_
      rw [notData]
      exact holds
    · have dataFrame : isData m.A = true := by
        rw [isData, bne_iff_ne.mpr typeBit, beq_iff_eq.mpr data, Bool.and_self]
      rw [dataFrame]
      refine Arrives.jset split 7 10 found6 rfl rfl (fun qos => ?_) fun noQos => ?_
      · have hasQos : (m.A &&& 0x80 != 0) = true := bne_iff_ne.mpr qos
        rw [hasQos]
        exact arrives_qos split holds
      · have plain : (m.A &&& 0x80 != 0) = false := bne_eq_false_iff_eq.mpr noQos
        rw [plain]
        exact arrives_afterQos split holds
  · have notData : isData m.A = false := by
      rw [isData, bne_eq_false_iff_eq.mpr noTypeBit, Bool.false_and]
    refine arrives_end ?_
    rw [notData]
    exact holds

/-- The code that computes the payload offset, with the start of the 802.11 header in `X`. -/
theorem arrives_headerLen {m : Machine} (low : m.X.toNat < 2 ^ 31) :
    Arrives h p b front (load80211HeaderLen radiotap r true) 0 m
      (fun m' => ∃ control, p.number .b m.X.toNat = some control ∧
        m'.mem r = payloadOffset radiotap p m.X control) := by
  refine Arrives.stmt split (i := 0) rfl decode_txa ?_
  refine Arrives.stmt split (i := 1) rfl decode_addK ?_
  refine Arrives.stmt split (i := 2) rfl decode_st ?_
  simp only [newStmt, Op.effect, memIndex_word]
  have start : m.X + 0 = m.X := BitVec.add_zero m.X
  refine Arrives.load split (i := 3) rfl decode_ldIndB
    (effect_ldIndByte (by simpa [newStmt] using low)) ?_
  intro control found
  refine Arrives.weaken (arrives_control split (m.X + 24) ?_) ?_
  · simp [AluOp.eval, Src.value]
  · intro m' holds
    exact ⟨control, start ▸ found, holds⟩

end Start

/-! ## The length of the radio header -/

section Prefix

variable {h : Heap} {p : Packet} {b : BlockId} {back : List Stmt} {r : Reg}

theorem decode_ldWordAbs : decode (bpfLd ||| bpfW ||| bpfAbs) = some (.ldAbs .w) := by decide
theorem decode_ldByteAbs : decode (bpfLd ||| bpfB ||| bpfAbs) = some (.ldAbs .b) := by decide
theorem decode_ldWordImm : decode (bpfLd ||| bpfW ||| bpfImm) = some .ldImm := by decide
theorem decode_ldxImm : decode (bpfLdx ||| bpfImm) = some .ldxImm := by decide
theorem decode_orX : decode (bpfAlu ||| bpfOr ||| bpfX) = some (.alu .or .x) := by decide
theorem decode_jeq : decode (jmp bpfJeq) = some (.jmp .jeq .k) := by decide
theorem decode_ja : decode (jmp bpfJa) = some .ja := by decide

theorem toNat_lt_of_byte {k : Nat} {x : Word} (found : p.number .b k = some x) : x.toNat < 256 := by
  have value : x = Packet.bigEndian ((p.data.drop k).take 1) := by
    rw [Packet.number, if_pos (p.le_buflen_of_number found)] at found
    exact (Option.some.inj found).symm
  rw [value]
  cases p.data.drop k with
  | nil => decide
  | cons first rest =>
    have small := first.isLt
    have byte : Packet.bigEndian [first] = first.setWidth 32 := by simp [Packet.bigEndian]
    rw [List.take_succ_cons, List.take_zero, byte, BitVec.toNat_setWidth]
    omega

theorem toNat_littleEndian {low high : Word} (lowByte : low.toNat < 256)
    (highByte : high.toNat < 256) : (low ||| high <<< 8).toNat = 256 * high.toNat + low.toNat := by
  have shifted : (high <<< 8).toNat = 2 ^ 8 * high.toNat := by
    rw [BitVec.toNat_shiftLeft, Nat.shiftLeft_eq]
    omega
  rw [BitVec.toNat_or, shifted, Nat.or_comm, ← Nat.two_pow_add_eq_or_of_lt lowByte]

/-- A radio header with a length of four bytes. -/
theorem arrives_avs
    (split : (h.get b).stmts = [] ++ genLoadAvsLlprefixlen r ++ back) (m : Machine) :
    Arrives h p b [] (genLoadAvsLlprefixlen r) 0 m
      (fun m' => (p.number .w 4).map BitVec.toNat = some m'.X.toNat) := by
  refine Arrives.load split (i := 0) rfl decode_ldWordAbs (effect_ldAbs .w (by decide) m) ?_
  intro length (found : p.number .w 4 = some length)
  refine Arrives.stmt split (i := 1) rfl decode_st ?_
  simp only [newStmt, Op.effect, memIndex_word]
  refine Arrives.stmt split (i := 2) rfl decode_tax ?_
  refine arrives_end ?_
  rw [found]
  rfl

/-- A radiotap or PPI header: the two bytes of the length are put together. -/
theorem arrives_radiotap
    (split : (h.get b).stmts = [] ++ genLoadRadiotapLlprefixlen r ++ back) (m : Machine) :
    Arrives h p b [] (genLoadRadiotapLlprefixlen r) 0 m
      (fun m' => ∃ high low, p.number .b 3 = some high ∧ p.number .b 2 = some low ∧
        m'.X.toNat = 256 * high.toNat + low.toNat) := by
  refine Arrives.load split (i := 0) rfl decode_ldByteAbs (effect_ldAbs .b (by decide) m) ?_
  intro high (foundHigh : p.number .b 3 = some high)
  refine Arrives.stmt split (i := 1) rfl decode_aluLshK ?_
  refine Arrives.stmt split (i := 2) rfl decode_tax ?_
  refine Arrives.load split (i := 3) rfl decode_ldByteAbs (effect_ldAbs .b (by decide) _) ?_
  intro low (foundLow : p.number .b 2 = some low)
  refine Arrives.stmt split (i := 4) rfl decode_orX ?_
  refine Arrives.stmt split (i := 5) rfl decode_st ?_
  simp only [newStmt, Op.effect, memIndex_word]
  refine Arrives.stmt split (i := 6) rfl decode_tax ?_
  refine arrives_end ⟨high, low, foundHigh, foundLow, ?_⟩
  exact toNat_littleEndian (toNat_lt_of_byte foundLow) (toNat_lt_of_byte foundHigh)

/-- A Prism header, or an AVS header under its name. -/
theorem arrives_prism
    (split : (h.get b).stmts = [] ++ genLoadPrismLlprefixlen r ++ back) (m : Machine) :
    Arrives h p b [] (genLoadPrismLlprefixlen r) 0 m
      (fun m' => ∃ first, p.number .w 0 = some first ∧
        (if first &&& 0xfffff000 = 0x80211000 then (p.number .w 4).map BitVec.toNat
          else some 144) = some m'.X.toNat) := by
  -- the last two statements, with the length in `A`
  have store (m : Machine) {after : Machine → Prop}
      (holds : ∀ m' : Machine, m'.X = m.A → after m') :
      Arrives h p b [] (genLoadPrismLlprefixlen r) 6 m after := by
    refine Arrives.stmt split (i := 6) rfl decode_st ?_
    simp only [newStmt, Op.effect, memIndex_word]
    refine Arrives.stmt split (i := 7) rfl decode_tax ?_
    exact arrives_end (holds _ rfl)
  refine Arrives.load split (i := 0) rfl decode_ldWordAbs (effect_ldAbs .w (by decide) m) ?_
  intro first (found : p.number .w 0 = some first)
  refine Arrives.stmt split (i := 1) rfl decode_aluAndK ?_
  by_cases avs : first &&& 0xfffff000 = 0x80211000
  · refine Arrives.test split (i := 2) (j := 3) rfl decode_jeq (if_pos ?_) rfl ?_
    · exact beq_iff_eq.mpr avs
    refine Arrives.load split (i := 3) rfl decode_ldWordAbs (effect_ldAbs .w (by decide) _) ?_
    intro length (foundLength : p.number .w 4 = some length)
    refine Arrives.jump split (i := 4) 6 rfl decode_ja rfl (store _ fun m' loaded => ?_)
    refine ⟨first, found, ?_⟩
    rw [if_pos avs, foundLength, loaded]
    rfl
  · refine Arrives.test split (i := 2) (j := 5) rfl decode_jeq (if_neg ?_) rfl ?_
    · exact fun equal => avs (beq_iff_eq.mp equal)
    refine Arrives.stmt split (i := 5) rfl decode_ldWordImm ?_
    refine store _ fun m' loaded => ⟨first, found, ?_⟩
    rw [if_neg avs, loaded]
    rfl

/-- The statements in front of `gen_load_802_11_header_len`. -/
def loadPrefix (g : Gen) : List Stmt :=
  let s := loadLlprefixlen g.layout.linktype g.regOffLl
  if s.isEmpty then [newStmt (bpfLdx ||| bpfImm) g.layout.offLl] else s

/-- With its register assigned, the length of the radio header is in `X`. -/
theorem arrives_prefix {g : Gen} (wireless : is80211 g.layout.linktype = true)
    (assigned : hasRadioHeader g.layout.linktype = true → g.regOffLl.isSome = true)
    (split : (h.get b).stmts = [] ++ loadPrefix g ++ back) (m : Machine) :
    Arrives h p b [] (loadPrefix g) 0 m (fun m' => linkPrefix p g.layout = some m'.X.toNat) := by
  by_cases radio : hasRadioHeader g.layout.linktype = true
  · obtain ⟨r, set⟩ := Option.isSome_iff_exists.mp (assigned radio)
    simp only [hasRadioHeader, Bool.or_eq_true, beq_iff_eq] at radio
    rcases radio with ((prism | avs) | radiotap) | ppi
    · have code : loadPrefix g = genLoadPrismLlprefixlen r := by
        rw [loadPrefix, set, prism]
        rfl
      rw [code] at split ⊢
      refine (arrives_prism split m).weaken ?_
      rintro m' ⟨first, found, length⟩
      rw [linkPrefix, if_pos prism, found]
      exact length
    · have code : loadPrefix g = genLoadAvsLlprefixlen r := by
        rw [loadPrefix, set, avs]
        rfl
      rw [code] at split ⊢
      refine (arrives_avs split m).weaken fun m' length => ?_
      rw [linkPrefix, avs]
      exact length
    · have code : loadPrefix g = genLoadRadiotapLlprefixlen r := by
        rw [loadPrefix, set, radiotap]
        rfl
      rw [code] at split ⊢
      refine (arrives_radiotap split m).weaken ?_
      rintro m' ⟨high, low, foundHigh, foundLow, length⟩
      rw [linkPrefix, radiotap, foundHigh, foundLow, length]
      rfl
    · have code : loadPrefix g = genLoadRadiotapLlprefixlen r := by
        rw [loadPrefix, set, ppi]
        rfl
      rw [code] at split ⊢
      refine (arrives_radiotap split m).weaken ?_
      rintro m' ⟨high, low, foundHigh, foundLow, length⟩
      rw [linkPrefix, ppi, foundHigh, foundLow, length]
      rfl
  · have plain : g.layout.linktype = dltIeee80211 := by
      simp only [is80211, hasRadioHeader, Bool.or_eq_true, beq_iff_eq] at wireless radio
      tauto
    have code : loadPrefix g = [newStmt (bpfLdx ||| bpfImm) g.layout.offLl] := by
      rw [loadPrefix, plain]
      cases g.regOffLl <;> rfl
    rw [code] at split ⊢
    refine Arrives.stmt split (i := 0) rfl decode_ldxImm ?_
    refine arrives_end ?_
    rw [linkPrefix, plain]
    rfl

end Prefix

/-! ## The payload offset -/

theorem toNat_roundUp {x : Word} (fits : x.toNat + 3 < 2 ^ 32) :
    ((x + 3) &&& ~~~3).toNat = roundUp x.toNat := by
  have cleared (y : Word) : y &&& ~~~(3 : Word) = (y >>> 2) <<< 2 := by
    ext i inside
    interval_cases i <;> simp
  have sum : (x + 3).toNat = x.toNat + 3 := by
    rw [BitVec.toNat_add]
    exact Nat.mod_eq_of_lt fits
  rw [cleared, BitVec.toNat_shiftLeft, BitVec.toNat_ushiftRight, sum, roundUp, Nat.shiftLeft_eq,
    Nat.shiftRight_eq_div_pow]
  omega

/-- Rounding up the sum, if the padding is seen, gives the sum with the length rounded up, if the
padding is there. -/
def RoundsRight (seen there : Bool) (start length : Nat) : Prop :=
  match seen, there with
  | true, true => 4 ∣ start
  | true, false => 4 ∣ start + length
  | false, true => 4 ∣ length
  | false, false => True

instance (seen there : Bool) (start length : Nat) :
    Decidable (RoundsRight seen there start length) := by
  unfold RoundsRight
  split <;> infer_instance

theorem roundsRight_iff (seen there : Bool) (start length : Nat) :
    (if seen then roundUp (start + length) else start + length) =
        start + (if there then roundUp length else length) ↔
      RoundsRight seen there start length := by
  cases seen <;> cases there <;> simp only [RoundsRight, roundUp, Bool.false_eq_true, if_true,
    if_false] <;> omega

/-- The offset that the code computes is the right one, but for data frames behind a radiotap
header. -/
theorem payloadOffset_iff {p : Packet} {l : Layout} {start control : Word}
    (low : start.toNat < 2 ^ 31) :
    (payloadOffset (l.linktype == dltIeee80211Radio) p start control).toNat =
        start.toNat + headerLength p l control ↔
      (isData control = true → l.linktype = dltIeee80211Radio →
        RoundsRight (datapadBit p) (hasDatapad p) start.toNat (plainLength control)) := by
  have add (n : Nat) (small : n < 100) : (start + BitVec.ofNat 32 n).toNat = start.toNat + n := by
    rw [BitVec.toNat_add, BitVec.toNat_ofNat]
    omega
  have sum24 : (start + 24).toNat = start.toNat + 24 := add 24 (by decide)
  have sum26 : (start + 24 + 2).toNat = start.toNat + 26 := by
    rw [BitVec.add_assoc]
    exact add 26 (by decide)
  cases data : isData control with
  | false =>
    simp only [payloadOffset, headerLength, isPadded, plainLength, isQos, data, Bool.false_and,
      Bool.false_eq_true, if_false, sum24, false_implies]
  | true =>
    have length : (if control &&& 0x80 != 0 then start + 24 + 2 else start + 24).toNat =
        start.toNat + plainLength control := by
      rw [plainLength, isQos, data, Bool.true_and]
      split
      · exact sum26
      · exact sum24
    have short : plainLength control ≤ 26 := by
      rw [plainLength]
      split <;> decide
    simp only [payloadOffset, headerLength, isPadded, data, if_true, Bool.true_and, padOffset]
    generalize (if control &&& 0x80 != 0 then start + 24 + 2 else start + 24) = offset at length
    by_cases radiotap : l.linktype = dltIeee80211Radio
    · rw [beq_iff_eq.mpr radiotap, Bool.true_and, Bool.true_and, ← roundsRight_iff]
      rw [apply_ite BitVec.toNat, toNat_roundUp (by omega), length]
      simp only [radiotap, forall_const]
    · simp [radiotap, length]

/-- The statements in front of a block that has statements of its own. -/
theorem vloffsets_eq {g : Gen} {r : Reg} (wireless : is80211 g.layout.linktype = true)
    (set : g.regOffMacpl = some r) :
    vloffsets g true =
      loadPrefix g ++ load80211HeaderLen (g.layout.linktype == dltIeee80211Radio) r true := by
  simp only [vloffsets, wireless, if_true, genLoad80211HeaderLen, set, loadPrefix]

/-- The inserted code, in the block that it has been inserted in. -/
theorem arrives_vloffsets {h : Heap} {p : Packet} {b : BlockId} {g : Gen} {r : Reg}
    {back : List Stmt} (wireless : is80211 g.layout.linktype = true)
    (assigned : hasRadioHeader g.layout.linktype = true → g.regOffLl.isSome = true)
    (set : g.regOffMacpl = some r) (low : (linkPrefix p g.layout).all (· < 2 ^ 31))
    (stmts : (h.get b).stmts = vloffsets g true ++ back) (m : Machine) :
    Arrives h p b [] (vloffsets g true) 0 m fun m' =>
      ∃ start control, linkPrefix p g.layout = some start ∧ p.number .b start = some control ∧
        ((m'.mem r).toNat = start + headerLength p g.layout control ↔
          (isData control = true → g.layout.linktype = dltIeee80211Radio →
            RoundsRight (datapadBit p) (hasDatapad p) start (plainLength control))) := by
  have code := vloffsets_eq wireless set
  rw [code] at stmts ⊢
  have splitPrefix : (h.get b).stmts = [] ++ loadPrefix g ++
      (load80211HeaderLen (g.layout.linktype == dltIeee80211Radio) r true ++ back) := by
    rw [stmts, List.nil_append, List.append_assoc]
  rcases arrives_prefix wireless assigned splitPrefix m with fault | ⟨m₁, path, found⟩
  · exact .inl fault
  have between : inside b [] (loadPrefix g).length m₁ = inside b (loadPrefix g) 0 m₁ := by
    simp [inside]
  rw [between] at path
  have low : m₁.X.toNat < 2 ^ 31 := by simpa [found] using low
  rcases arrives_headerLen stmts low with fault | ⟨m₂, path', control, captured, value⟩
  · exact .inl (fault.of_reaches path)
  have ending : inside b (loadPrefix g)
      (load80211HeaderLen (g.layout.linktype == dltIeee80211Radio) r true).length m₂ =
      inside b [] (loadPrefix g ++
        load80211HeaderLen (g.layout.linktype == dltIeee80211Radio) r true).length m₂ := by
    simp [inside]
  rw [ending] at path'
  refine .inr ⟨m₂, path.trans path', m₁.X.toNat, control, found, captured, ?_⟩
  rw [value]
  exact payloadOffset_iff low

/-- **The payload offset.** A filter expression compiled on an 802.11 link type that has a
register for the payload offset: on every packet whose radio header ends below 2^31, unless a load
faults, behind the inserted code the register holds the offset of the payload, but for data frames
behind a radiotap header. There it does exactly if rounding up the sum of both lengths, when the
code sees the padding bit, is as good as rounding up the length of the 802.11 header, when the bit
is set. -/
theorem compileFilter_payload_offset {filter : Filter} {linktype : Nat} {fddipad : Word}
    {swapped : Bool} {layout : Layout} {snaplen : Word} {g : Gen} {root : BlockId} {r : Reg}
    (initialised : initLinktype linktype fddipad swapped = .ok layout)
    (ran : Runs (compileFilter filter) (.start layout snaplen) () g) (isRoot : g.root = some root)
    (wireless : is80211 g.layout.linktype = true) (allocated : g.regOffMacpl = some r) :
    ∃ head n, HasPrologue g root head n ∧
      ∀ (p : Packet) (m : Machine), (linkPrefix p g.layout).all (· < 2 ^ 31) →
        (graphStep g.heap p).Stops ⟨head, 0, m⟩ (.reject .load) ∨
        ∃ m' start control, (graphStep g.heap p).Reaches ⟨head, 0, m⟩ ⟨head, n, m'⟩ ∧
          linkPrefix p g.layout = some start ∧ p.number .b start = some control ∧
          ((m'.mem r).toNat = start + headerLength p g.layout control ↔
            (isData control = true → g.layout.linktype = dltIeee80211Radio →
              RoundsRight (datapadBit p) (hasDatapad p) start (plainLength control))) := by
  obtain ⟨c, g₁, h, ids, b, root', accept, reject, ranFilter, emitted, parsed⟩ :=
    runs_compileFilter ran
  obtain rfl : root' = root := Option.some.inj (parsed.rootEq.symm.trans isRoot)
  obtain ⟨pend, built⟩ := emitted.built
  have same : vloffsets (g₁.withHeap h) true = vloffsets g true := by
    rw [parsed.others]
    rfl
  have hasNext : (!((g₁.withHeap h).heap.get ids.first).stmts.isEmpty) = true := by
    have first : c.first = h.leaf ids.first := by
      rw [← emitted.shape]
      exact Cond.first_map _ _
    have nonempty := (genFilter_nonEmpty filter ranFilter).1 _ c.first_mem_leaves
    rw [first] at nonempty
    rw [Bool.not_eq_true', List.isEmpty_eq_false_iff]
    exact nonempty
  have assigned : hasRadioHeader g.layout.linktype = true → g.regOffLl.isSome = true := by
    have before : (Gen.start layout snaplen).Prefixed := by
      obtain ⟨noPppoes, noLabel⟩ := initLinktype_outermost initialised
      rintro _ (unset | pppoes | label)
      · cases unset
      · cases noPppoes.symm.trans pppoes
      · exact absurd noLabel label.ne'
    have after := (genFilter_nonEmpty filter ranFilter).2 before
    rw [parsed.others] at allocated ⊢
    exact fun radio => after radio (.inl (Option.isSome_of_eq_some allocated))
  have prologue := parsed.hasPrologue emitted
  have stmts := parsed.stmts ids.first (built.bound _ ids.first_mem_leaves)
  rw [if_pos rfl, hasNext, same] at stmts
  rw [hasNext, same] at prologue
  refine ⟨ids.first, _, prologue, ?_⟩
  intro p m low
  rcases arrives_vloffsets wireless assigned allocated low stmts m with
    fault | ⟨m', path, start, control, found, captured, exact⟩
  · exact .inl fault
  · rw [inside, inside, List.length_nil, Nat.zero_add, Nat.zero_add] at path
    exact .inr ⟨m', start, control, path, found, captured, exact⟩

def ipFilter : Filter :=
  .leaf (.test (.ofGenerates (genLinktype ethertypeIp) (generates_genLinktype _)
    (loadsPrefix_genLinktype _)))

/-- A radiotap header of 8 bytes and the start of a QoS data frame that carries IPv4. -/
def qosFrame : Packet where
  data := [0, 0, 8, 0, 0, 0, 0, 0, 0x88] ++ List.replicate 25 0 ++
    [0xaa, 0xaa, 3, 0, 0, 0, 0x08, 0x00]
  wirelen := 42
  around := fun _ => 0
  length_lt := by decide

theorem compileFilter_payload_offset_qos :
    ∃ g head n m', ∃ r : Reg, Runs (compileFilter ipFilter) (.start .radiotap 96) () g ∧
      g.root = some 0 ∧ g.regOffMacpl = some r ∧ HasPrologue g 0 head n ∧
      (graphStep g.heap qosFrame).Reaches ⟨head, 0, ⟨0, 0, fun _ => 0⟩⟩ ⟨head, n, m'⟩ ∧
      (m'.mem r).toNat = 34 := by
  have compiles : passes (compileFilter ipFilter) (.start .radiotap 96)
      (fun _ g => decide (g.root = some 0 ∧ g.layout = .radiotap ∧
        g.regOffMacpl = some ⟨1, by decide⟩) &&
        match (graphStep g.heap qosFrame).runFor 60 ⟨0, 0, ⟨0, 0, fun _ => 0⟩⟩ with
        | .go _ => false
        | .stop result => decide (result = .ret 96)) = true := by
    decide +kernel
  obtain ⟨_, g, ran, checked⟩ := exists_runs _ compiles
  simp only [Bool.and_eq_true, decide_eq_true_eq] at checked
  obtain ⟨⟨root, layout, macpl⟩, result⟩ := checked
  have initialised : initLinktype dltIeee80211Radio 0 false = .ok .radiotap := rfl
  obtain ⟨head, n, prologue, computes⟩ := compileFilter_payload_offset initialised ran root
    (by rw [layout]; rfl) macpl
  have place : head = 0 := by
    have := prologue.place
    rw [layout, if_neg (by decide)] at this
    exact this
  subst place
  have accepts : (graphStep g.heap qosFrame).Stops ⟨0, 0, ⟨0, 0, fun _ => 0⟩⟩ (.ret 96) := by
    rw [Step.stops_iff_runFor]
    refine ⟨60, ?_⟩
    split at result
    · cases result
    · rename_i stopped
      rw [stopped, of_decide_eq_true result]
  have at8 : linkPrefix qosFrame .radiotap = some 8 := by decide +kernel
  have low : (linkPrefix qosFrame g.layout).all (· < 2 ^ 31) := by
    rw [layout, at8]
    decide
  rcases computes qosFrame ⟨0, 0, fun _ => 0⟩ low with
    fault | ⟨m', start, control, path, found, captured, exact⟩
  · cases fault.unique accepts
  rw [layout] at found exact
  obtain rfl : 8 = start := Option.some.inj (at8.symm.trans found)
  have isQosData : qosFrame.number .b 8 = some 0x88 := by decide +kernel
  obtain rfl : 0x88 = control := Option.some.inj (isQosData.symm.trans captured)
  refine ⟨g, 0, n, m', _, ran, root, macpl, prologue, path, ?_⟩
  exact (exact.mpr fun _ _ => by decide +kernel).trans (by decide +kernel)

/-- A radiotap header of 25 bytes, whose flags say that there is padding, and the start of a data
frame. -/
def oddFrame : Packet where
  data := [0, 0, 25, 0, 2, 0, 0, 0, 0x20] ++ List.replicate 16 0 ++ [0x08] ++ List.replicate 40 0
  wirelen := 66
  around := fun _ => 0
  length_lt := by decide

/-- The 802.11 header of 24 bytes needs no padding, so the payload is at 25 + 24 = 49; the
register holds 52, which is 49 rounded up. -/
theorem payload_offset_rounds_sum :
    ∃ g n m', ∃ r : Reg, Runs (compileFilter ipFilter) (.start .radiotap 96) () g ∧
      g.root = some 0 ∧ g.regOffMacpl = some r ∧ HasPrologue g 0 0 n ∧
      (graphStep g.heap oddFrame).Reaches ⟨0, 0, ⟨0, 0, fun _ => 0⟩⟩ ⟨0, n, m'⟩ ∧
      linkPrefix oddFrame .radiotap = some 25 ∧ oddFrame.number .b 25 = some 8 ∧
      25 + headerLength oddFrame .radiotap 8 = 49 ∧ (m'.mem r).toNat = 52 := by
  have compiles : passes (compileFilter ipFilter) (.start .radiotap 96)
      (fun _ g => decide (g.root = some 0 ∧ g.regOffMacpl = some ⟨1, by decide⟩ ∧
        g.layout.linktype ≠ dltPpi ∧
        (g.heap.get 0).stmts.take 28 = vloffsets g true ∧ (vloffsets g true).length = 28) &&
        match (graphStep g.heap oddFrame).runFor 23 ⟨0, 0, ⟨0, 0, fun _ => 0⟩⟩ with
        | .go s => decide (s.block = 0 ∧ s.pos = 28 ∧ (s.m.mem ⟨1, by decide⟩).toNat = 52)
        | .stop _ => false) = true := by
    decide +kernel
  obtain ⟨_, g, ran, checked⟩ := exists_runs _ compiles
  simp only [Bool.and_eq_true, decide_eq_true_eq] at checked
  obtain ⟨⟨root, macpl, notPpi, code, length⟩, runs⟩ := checked
  have prologue : HasPrologue g 0 0 28 := by
    refine ⟨by rw [if_neg notPpi], true, (g.heap.get 0).stmts.drop 28, ?_, length⟩
    rw [← code, List.take_append_drop]
  cases outcome : (graphStep g.heap oddFrame).runFor 23 ⟨0, 0, ⟨0, 0, fun _ => 0⟩⟩ with
  | stop result =>
    rw [outcome] at runs
    cases runs
  | go s =>
    simp only [outcome, decide_eq_true_eq] at runs
    obtain ⟨block, pos, m'⟩ := s
    obtain ⟨rfl, rfl, value⟩ := runs
    exact ⟨g, 28, m', _, ran, root, macpl, prologue, Step.reaches_of_runFor outcome,
      by decide +kernel, by decide +kernel, by decide +kernel, value⟩

end Libpcap.Filters
