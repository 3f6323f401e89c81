/-
# Time stamps of a pcap-ng file

The time stamp of a packet counts units of the interface's resolution. The code
computes the number of units in a second in 32 bits, from the option when the
interface is added, and later divides the time stamp by it and scales the
remainder to the unit of the user.

Two things go wrong. A resolution of `2 ^ 32` units or more wraps and is accepted
all the same, and a remainder in units coarser than the user's is scaled in the
wrong direction. The main theorem says that nothing else does.
-/

import Libpcap.Savefile.Ng
import Mathlib.Tactic.NormNum

namespace Libpcap.Savefile

open Libpcap.Semantics Libpcap.Gencode

/-- The units in a second that an `if_tsresol` option stands for: a power of two or of
ten. -/
def resolutionOf (tsresolOpt : BitVec 8) : Nat :=
  if tsresolOpt &&& 0x80 ≠ 0 then 2 ^ (tsresolOpt &&& 0x7F).toNat else 10 ^ tsresolOpt.toNat

/-- The time delivered for a packet of an interface with the given options. -/
def interfaceTime (precision : Nat) (tsresolOpt : BitVec 8) (tsoffset t : BitVec 64) : Timeval :=
  NgIf.toTimeval
    ⟨tsresolOf tsresolOpt, tsoffset, scaleTypeOf precision (tsresolOf tsresolOpt), 0⟩
    (userTsresolOf precision) t

/-- A packet that a call delivers has the time of its interface, whose entry `addInterface` has
set from the options. -/
theorem pcapNgNextPacket_time {p : NgSf} (user : p.userTsresol = userTsresolOf p.tstampPrecision)
    {s s' : File × NgState} {hdr : Pkthdr} {data : List Byte}
    (delivered : exec (pcapNgNextPacket p) s = (.ok (some (hdr, data)), s')) :
    ∃ found state entry, exec (nextFound p (s.1.unread.length + 1)) s = (.ok (some found), state) ∧
      state.2.table.entry found.interfaceId.toNat = some entry ∧
      ∀ tsresolOpt, entry.tsresol = tsresolOf tsresolOpt →
        entry.scaleType = scaleTypeOf p.tstampPrecision (tsresolOf tsresolOpt) →
        hdr.ts = interfaceTime p.tstampPrecision tsresolOpt entry.tsoffset found.t := by
  rw [pcapNgNextPacket, exec_bind, exec_get, andThen_ok, exec_bind_eq_ok_iff] at delivered
  obtain ⟨packet, ⟨file, state⟩, ran, delivered⟩ := delivered
  cases packet with
  | none => cases delivered
  | some found =>
    simp only [map_eq_pure_bind, deliverFound, ifaceAt, exec_bind, exec_own, andThen_ok, exec_ite,
      exec_pure, andThen_eq_ok_iff, Prod.mk.injEq, Except.ok.injEq, Option.some.injEq] at delivered
    obtain ⟨_, _, delivered, same, _⟩ := delivered
    subst same
    split at delivered
    · cases delivered
    cases set : state.table.entry found.interfaceId.toNat with
    | none =>
      rw [set] at delivered
      cases delivered
    | some entry =>
      rw [set, exec_pure, andThen_ok, exec_ite] at delivered
      split at delivered
      · cases delivered
      obtain ⟨_, _, _, made⟩ := exec_bind_eq_ok_iff.mp delivered
      cases made
      refine ⟨found, _, entry, ran, set, ?_⟩
      intro tsresolOpt resolution scale
      rw [user, interfaceTime, ← scale, ← resolution]
      rfl

/-- The time a packet was captured at: whole seconds on top of the offset, in 64-bit
arithmetic, and the rest in the unit of the user, rounded down and less than one
second. -/
structure IsCaptureTime (precision : Nat) (tsresolOpt : BitVec 8) (tsoffset t : BitVec 64)
    (time : Timeval) : Prop where
  seconds : time.tvSec = (tsoffset + BitVec.ofNat 64 (t.toNat / resolutionOf tsresolOpt)).toInt
  fraction : time.tvUsec =
    ((t.toNat % resolutionOf tsresolOpt * (userTsresolOf precision).toNat /
      resolutionOf tsresolOpt : Nat) : Int)
  small : time.tvUsec < (userTsresolOf precision).toNat

/-! ## The resolution -/

theorem foldl_replicate_ten (n : Nat) (start : BitVec 32) :
    (List.replicate n (10 : BitVec 32)).foldl (· * ·) start = start * BitVec.ofNat 32 (10 ^ n) := by
  induction n generalizing start with
  | zero => simp
  | succ n ih =>
    rw [List.replicate_succ, List.foldl_cons, ih, BitVec.mul_assoc, pow_succ', BitVec.ofNat_mul]
    rfl

theorem one_shiftLeft_toNat {n : Nat} (small : n < 32) : ((1 : BitVec 32) <<< n).toNat = 2 ^ n := by
  have bound : 2 ^ n < 2 ^ 32 := Nat.pow_lt_pow_right (by decide) small
  rw [BitVec.toNat_shiftLeft, Nat.shiftLeft_eq]
  simpa using bound

/-- What the code computes: the count of the shift is taken modulo 32, and the product
modulo `2 ^ 32`. -/
theorem tsresolOf_toNat_eq (tsresolOpt : BitVec 8) :
    (tsresolOf tsresolOpt).toNat =
      if tsresolOpt &&& 0x80 ≠ 0 then 2 ^ ((tsresolOpt &&& 0x7F).toNat % 32)
      else 10 ^ tsresolOpt.toNat % 2 ^ 32 := by
  unfold tsresolOf
  split
  · exact one_shiftLeft_toNat (Nat.mod_lt _ (by decide))
  · rw [foldl_replicate_ten]
    simp

theorem tsresolOf_toNat {tsresolOpt : BitVec 8} (fits : resolutionOf tsresolOpt < 2 ^ 32) :
    (tsresolOf tsresolOpt).toNat = resolutionOf tsresolOpt := by
  unfold resolutionOf at fits ⊢
  rw [tsresolOf_toNat_eq]
  split at fits
  · rename_i two
    rw [if_pos two, if_pos two, Nat.mod_eq_of_lt ((Nat.pow_lt_pow_iff_right (by decide)).mp fits)]
  · rename_i ten
    rw [if_neg ten, if_neg ten, Nat.mod_eq_of_lt fits]

theorem resolutionOf_pos (tsresolOpt : BitVec 8) : 0 < resolutionOf tsresolOpt := by
  unfold resolutionOf
  split <;> exact Nat.pow_pos (by decide)

/-! ## The conversion -/

section Conversion

variable {precision : Nat} {tsresolOpt : BitVec 8}

theorem userTsresolOf_cases (precision : Nat) :
    userTsresolOf precision = 1000000000 ∨ userTsresolOf precision = 1000000 := by
  unfold userTsresolOf
  split
  · exact Or.inl rfl
  · exact Or.inr rfl

section

variable (fits : resolutionOf tsresolOpt < 2 ^ 32)
include fits

theorem setWidth_tsresolOf :
    ((tsresolOf tsresolOpt).setWidth 64).toNat = resolutionOf tsresolOpt := by
  rw [BitVec.toNat_setWidth, tsresolOf_toNat fits, Nat.mod_eq_of_lt (by omega)]

omit fits in
theorem setWidth_userTsresolOf (precision : Nat) :
    ((userTsresolOf precision).setWidth 64).toNat = (userTsresolOf precision).toNat := by
  rcases userTsresolOf_cases precision with nano | micro
  · rw [nano]; rfl
  · rw [micro]; rfl

/-- The whole seconds, as long as the resolution fits. -/
theorem interfaceTime_seconds (tsoffset t : BitVec 64) :
    (interfaceTime precision tsresolOpt tsoffset t).tvSec =
      (tsoffset + BitVec.ofNat 64 (t.toNat / resolutionOf tsresolOpt)).toInt := by
  have quotient : t / (tsresolOf tsresolOpt).setWidth 64 =
      BitVec.ofNat 64 (t.toNat / resolutionOf tsresolOpt) := by
    apply BitVec.eq_of_toNat_eq
    have bound := t.isLt
    have below : t.toNat / resolutionOf tsresolOpt ≤ t.toNat := Nat.div_le_self _ _
    rw [BitVec.toNat_udiv, setWidth_tsresolOf fits, BitVec.toNat_ofNat, Nat.mod_eq_of_lt (by omega)]
  rw [interfaceTime, NgIf.toTimeval, quotient, BitVec.add_comm]

omit fits in
/-- A product of two numbers of 32 bits, divided by a third. -/
theorem mul_div_toInt {x y z : BitVec 64} (first : x.toNat < 2 ^ 32) (second : y.toNat < 2 ^ 31) :
    (x * y / z).toInt = ((x.toNat * y.toNat / z.toNat : Nat) : Int) := by
  have product : x.toNat * y.toNat < 2 ^ 63 := by
    calc x.toNat * y.toNat ≤ 2 ^ 32 * y.toNat := Nat.mul_le_mul_right _ (by omega)
      _ < 2 ^ 63 := by omega
  have quotient : (x * y / z).toNat = x.toNat * y.toNat / z.toNat := by
    rw [BitVec.toNat_udiv, BitVec.toNat_mul, Nat.mod_eq_of_lt (by omega)]
  have below : x.toNat * y.toNat / z.toNat ≤ x.toNat * y.toNat := Nat.div_le_self _ _
  rw [BitVec.toInt_eq_toNat_of_lt (by omega), quotient]

theorem remainder_toNat (t : BitVec 64) :
    (t % (tsresolOf tsresolOpt).setWidth 64).toNat = t.toNat % resolutionOf tsresolOpt := by
  rw [BitVec.toNat_umod, setWidth_tsresolOf fits]

theorem remainder_lt (t : BitVec 64) : (t % (tsresolOf tsresolOpt).setWidth 64).toNat < 2 ^ 32 := by
  have below := Nat.mod_lt t.toNat (resolutionOf_pos tsresolOpt)
  rw [remainder_toNat fits]
  omega

omit fits in
theorem userTsresolOf_lt (precision : Nat) : (userTsresolOf precision).toNat < 2 ^ 31 := by
  rcases userTsresolOf_cases precision with nano | micro
  · rw [nano]; decide
  · rw [micro]; decide

/-- The remainder is scaled correctly if the unit of the user is not finer than that of
the interface. -/
theorem interfaceTime_fraction
    (coarser : (userTsresolOf precision).toNat ≤ resolutionOf tsresolOpt)
    (tsoffset t : BitVec 64) :
    (interfaceTime precision tsresolOpt tsoffset t).tvUsec =
      ((t.toNat % resolutionOf tsresolOpt * (userTsresolOf precision).toNat /
        resolutionOf tsresolOpt : Nat) : Int) := by
  have below := remainder_lt fits t
  have stored := tsresolOf_toNat fits
  unfold interfaceTime NgIf.toTimeval NgIf.scaleFraction scaleTypeOf
  by_cases same : tsresolOf tsresolOpt = userTsresolOf precision
  · have unit : (userTsresolOf precision).toNat = resolutionOf tsresolOpt := by rw [← same, stored]
    simp only [if_pos same]
    rw [BitVec.toInt_eq_toNat_of_lt (by omega), remainder_toNat fits, unit,
      Nat.mul_div_cancel _ (resolutionOf_pos tsresolOpt)]
  · have different : (userTsresolOf precision).toNat ≠ (tsresolOf tsresolOpt).toNat :=
      fun equal => same (BitVec.eq_of_toNat_eq equal.symm)
    have down : userTsresolOf precision < tsresolOf tsresolOpt := by
      rw [BitVec.lt_def]
      omega
    simp only [if_neg same, if_pos down]
    rw [mul_div_toInt below (by rw [setWidth_userTsresolOf]; exact userTsresolOf_lt precision),
      remainder_toNat fits, setWidth_userTsresolOf, setWidth_tsresolOf fits]

/-- Otherwise it is multiplied by the one number and divided by the other. -/
theorem interfaceTime_fraction_scaleUp
    (finer : resolutionOf tsresolOpt < (userTsresolOf precision).toNat)
    (tsoffset t : BitVec 64) :
    (interfaceTime precision tsresolOpt tsoffset t).tvUsec =
      ((t.toNat % resolutionOf tsresolOpt * resolutionOf tsresolOpt /
        (userTsresolOf precision).toNat : Nat) : Int) := by
  have below := remainder_lt fits t
  have stored := tsresolOf_toNat fits
  have bound := userTsresolOf_lt precision
  have different : tsresolOf tsresolOpt ≠ userTsresolOf precision := by
    intro same
    rw [← same] at finer
    omega
  have up : ¬ userTsresolOf precision < tsresolOf tsresolOpt := by
    rw [BitVec.lt_def]
    omega
  unfold interfaceTime NgIf.toTimeval NgIf.scaleFraction scaleTypeOf
  simp only [if_neg different, if_neg up]
  rw [mul_div_toInt below (by rw [setWidth_tsresolOf fits]; omega), remainder_toNat fits,
    setWidth_userTsresolOf, setWidth_tsresolOf fits]

end

/-- Scaling in the wrong direction loses the fraction just below one second. -/
theorem scaleUp_ne {resolution unit : Nat} (several : 1 < resolution) (finer : resolution < unit) :
    (resolution - 1) * resolution / unit < (resolution - 1) * unit / resolution := by
  have left : (resolution - 1) * resolution / unit < resolution - 1 := by
    rw [Nat.div_lt_iff_lt_mul (by omega)]
    exact Nat.mul_lt_mul_of_pos_left finer (by omega)
  have right : resolution - 1 ≤ (resolution - 1) * unit / resolution := by
    rw [Nat.le_div_iff_mul_le (by omega)]
    exact Nat.mul_le_mul_left _ (by omega)
  omega

end Conversion

/-- A resolution that wraps counts a second after too few units. -/
theorem interfaceTime_wraps {precision : Nat} {tsresolOpt : BitVec 8}
    (accepted : tsresolOf tsresolOpt ≠ 0) (wraps : 2 ^ 32 ≤ resolutionOf tsresolOpt) :
    ∃ t : BitVec 64, t.toNat / resolutionOf tsresolOpt = 0 ∧
      (interfaceTime precision tsresolOpt 0 t).tvSec = 1 := by
  have bound := (tsresolOf tsresolOpt).isLt
  have width : ((tsresolOf tsresolOpt).setWidth 64).toNat = (tsresolOf tsresolOpt).toNat := by
    rw [BitVec.toNat_setWidth, Nat.mod_eq_of_lt (by omega)]
  have positive : 0 < (tsresolOf tsresolOpt).toNat := by
    apply Nat.pos_of_ne_zero
    intro zero
    exact accepted (BitVec.eq_of_toNat_eq zero)
  refine ⟨(tsresolOf tsresolOpt).setWidth 64, ?_, ?_⟩
  · rw [width, Nat.div_eq_of_lt (by omega)]
  · have one : (tsresolOf tsresolOpt).setWidth 64 / (tsresolOf tsresolOpt).setWidth 64 = 1 := by
      apply BitVec.eq_of_toNat_eq
      rw [BitVec.toNat_udiv, width, Nat.div_self positive]
      rfl
    unfold interfaceTime NgIf.toTimeval
    simp only [one]
    rfl

/-- A scaled remainder is less than one second. -/
theorem fraction_lt {resolution : Nat} (positive : 0 < resolution) (t : Nat) {unit : Nat}
    (some : 0 < unit) : t % resolution * unit / resolution < unit := by
  rw [Nat.div_lt_iff_lt_mul positive, Nat.mul_comm unit]
  exact Nat.mul_lt_mul_of_pos_right (Nat.mod_lt t positive) some

/-- **Time stamps.** With an accepted resolution, every time stamp is converted exactly
if and only if the resolution fits 32 bits and the unit of the user is not finer than
that of the interface, or the interface counts whole seconds. -/
theorem interfaceTime_exact_iff (precision : Nat) (tsresolOpt : BitVec 8)
    (accepted : tsresolOf tsresolOpt ≠ 0) :
    (∀ tsoffset t : BitVec 64,
        IsCaptureTime precision tsresolOpt tsoffset t
          (interfaceTime precision tsresolOpt tsoffset t)) ↔
      resolutionOf tsresolOpt < 2 ^ 32 ∧
        ((userTsresolOf precision).toNat ≤ resolutionOf tsresolOpt ∨
          resolutionOf tsresolOpt = 1) := by
  have positive := resolutionOf_pos tsresolOpt
  constructor
  · intro exact
    by_cases fits : resolutionOf tsresolOpt < 2 ^ 32
    · refine ⟨fits, ?_⟩
      by_contra finer
      rw [not_or, not_le] at finer
      have last : (BitVec.ofNat 64 (resolutionOf tsresolOpt - 1)).toNat =
          resolutionOf tsresolOpt - 1 := by
        rw [BitVec.toNat_ofNat, Nat.mod_eq_of_lt (by omega)]
      have fraction := (exact 0 (BitVec.ofNat 64 (resolutionOf tsresolOpt - 1))).fraction
      rw [interfaceTime_fraction_scaleUp fits finer.1, last,
        Nat.mod_eq_of_lt (by omega : resolutionOf tsresolOpt - 1 < resolutionOf tsresolOpt),
        Int.natCast_inj] at fraction
      exact absurd fraction (ne_of_lt (scaleUp_ne (by omega) finer.1))
    · obtain ⟨t, quotient, second⟩ : ∃ t : BitVec 64, t.toNat / resolutionOf tsresolOpt = 0 ∧
          (interfaceTime precision tsresolOpt 0 t).tvSec = 1 :=
        interfaceTime_wraps accepted (by omega)
      have seconds := (exact 0 t).seconds
      rw [quotient, second] at seconds
      exact absurd seconds (by decide)
  · rintro ⟨fits, coarser⟩ tsoffset t
    have fraction : (interfaceTime precision tsresolOpt tsoffset t).tvUsec =
        ((t.toNat % resolutionOf tsresolOpt * (userTsresolOf precision).toNat /
          resolutionOf tsresolOpt : Nat) : Int) := by
      by_cases unit : (userTsresolOf precision).toNat ≤ resolutionOf tsresolOpt
      · exact interfaceTime_fraction fits unit tsoffset t
      · have whole := coarser.resolve_left unit
        rw [interfaceTime_fraction_scaleUp fits (by omega), whole]
        simp [Nat.mod_one]
    refine ⟨interfaceTime_seconds fits tsoffset t, fraction, ?_⟩
    rw [fraction]
    have some : 0 < (userTsresolOf precision).toNat := by
      rcases userTsresolOf_cases precision with nano | micro
      · rw [nano]; decide
      · rw [micro]; decide
    exact_mod_cast fraction_lt positive t.toNat some

/-- Nanosecond time stamps are exact for both precisions. -/
theorem interfaceTime_exact_nano :
    tsresolOf 9 ≠ 0 ∧
      (∀ tsoffset t : BitVec 64, IsCaptureTime tstampPrecisionMicro 9 tsoffset t
        (interfaceTime tstampPrecisionMicro 9 tsoffset t)) ∧
      (∀ tsoffset t : BitVec 64, IsCaptureTime tstampPrecisionNano 9 tsoffset t
        (interfaceTime tstampPrecisionNano 9 tsoffset t)) :=
  ⟨by decide, (interfaceTime_exact_iff tstampPrecisionMicro 9 (by decide)).mpr (by decide),
    (interfaceTime_exact_iff tstampPrecisionNano 9 (by decide)).mpr (by decide)⟩

/-- A file behind its first four bytes: an Ethernet interface with milliseconds, and an
empty packet after one and a half seconds. -/
def millisecondFile : List Byte :=
  [28, 0, 0, 0, 0x4D, 0x3C, 0x2B, 0x1A, 1, 0, 0, 0] ++ List.replicate 8 0xff ++ [28, 0, 0, 0] ++
    [1, 0, 0, 0, 32, 0, 0, 0, 1, 0, 0, 0, 0xff, 0xff, 0, 0,
      9, 0, 1, 0, 3, 0, 0, 0, 0, 0, 0, 0, 32, 0, 0, 0] ++
    [6, 0, 0, 0, 32, 0, 0, 0, 0, 0, 0, 0, 0, 0, 0, 0, 0xdc, 5, 0, 0,
      0, 0, 0, 0, 0, 0, 0, 0, 32, 0, 0, 0]

/-- The half second is lost. -/
theorem millisecondFile_loses_fraction :
    ∃ p s, exec (pcapNgCheckHeader btShb tstampPrecisionMicro)
        (⟨millisecondFile, fun _ => true⟩, NgState.init) = (.ok (some p), s) ∧
      (exec (pcapNgNextPacket p) s).1 =
        .ok (some (⟨interfaceTime tstampPrecisionMicro 3 0 1500, 0, 0⟩, [])) ∧
      interfaceTime tstampPrecisionMicro 3 0 1500 = ⟨1, 0⟩ ∧
      ¬ IsCaptureTime tstampPrecisionMicro 3 0 1500 ⟨1, 0⟩ := by
  refine ⟨_, _, rfl, rfl, rfl, ?_⟩
  intro exact
  exact absurd exact.fraction (by decide)

end Libpcap.Savefile
