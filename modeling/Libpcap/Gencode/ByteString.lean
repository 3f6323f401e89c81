/-
# Comparing byte strings

`gen_bcmp` compares a byte string in pieces of four, two and one bytes, from its end. The
test branches on whether the bytes of the packet are the string, as long as the interpreter
can index the last piece: an index from 2^31 on is negative for it, and it rejects the packet
although the bytes are there.
-/

import Mathlib.Data.Nat.Digits.Lemmas
import Libpcap.Gencode.Fields

namespace Libpcap.Gencode

open Libpcap.Bpf Libpcap.Semantics

variable {g : Gen} {n : Nat}

/-! ## Big-endian numbers -/

section BigEndian

open Packet

theorem bigEndian_concat (bytes : List (BitVec 8)) (last : BitVec 8) :
    bigEndian (bytes ++ [last]) = bigEndian bytes <<< 8 ||| last.setWidth 32 := by
  simp only [bigEndian, List.foldl_append, List.foldl_cons, List.foldl_nil]

theorem digits_lt (bytes : List (BitVec 8)) : ∀ digit ∈ bytes.map BitVec.toNat, digit < 256 := by
  intro digit member
  obtain ⟨byte, _, rfl⟩ := List.mem_map.mp member
  exact byte.isLt

theorem toNat_bigEndian (bytes : List (BitVec 8)) (short : bytes.length ≤ 4) :
    (bigEndian bytes).toNat = Nat.ofDigits 256 (bytes.reverse.map BitVec.toNat) := by
  induction bytes using List.reverseRecOn with
  | nil => rfl
  | append_singleton bytes last ih =>
    have fits : bytes.length ≤ 3 := by
      rw [List.length_append, List.length_singleton] at short
      omega
    have value := ih (by omega)
    have small : (bigEndian bytes).toNat < 2 ^ 24 := by
      rw [value]
      calc Nat.ofDigits 256 (bytes.reverse.map BitVec.toNat)
          < 256 ^ (bytes.reverse.map BitVec.toNat).length :=
            Nat.ofDigits_lt_base_pow_length (by decide) (digits_lt _)
        _ = 256 ^ bytes.length := by simp
        _ ≤ 256 ^ 3 := Nat.pow_le_pow_right (by decide) fits
        _ = 2 ^ 24 := by decide
    have shifted : (bigEndian bytes <<< 8).toNat = 2 ^ 8 * (bigEndian bytes).toNat := by
      rw [BitVec.toNat_shiftLeft, Nat.shiftLeft_eq]
      omega
    have widened : (last.setWidth 32).toNat = last.toNat := by
      rw [BitVec.toNat_setWidth]
      have := last.isLt
      omega
    rw [bigEndian_concat, BitVec.toNat_or, shifted, widened,
      ← Nat.two_pow_add_eq_or_of_lt last.isLt, value]
    simp [Nat.ofDigits_cons, Nat.add_comm]

/-- Byte strings of one length that fit a word are told apart by their value. -/
theorem bigEndian_inj {a b : List (BitVec 8)} (length : a.length = b.length)
    (short : a.length ≤ 4) : bigEndian a = bigEndian b ↔ a = b := by
  constructor
  · intro same
    have values : Nat.ofDigits 256 (a.reverse.map BitVec.toNat) =
        Nat.ofDigits 256 (b.reverse.map BitVec.toNat) := by
      rw [← toNat_bigEndian a short, ← toNat_bigEndian b (length ▸ short), same]
    have digits := Nat.ofDigits_inj_of_len_eq (by decide) (by simp [length]) (digits_lt _)
      (digits_lt _) values
    have reversed := (List.map_injective_iff.mpr fun x y => BitVec.eq_of_toNat_eq) digits
    exact List.reverse_injective reversed
  · rintro rfl
    rfl

end BigEndian

/-! ## Pieces -/

/-- The index of the last piece, behind the start of the string. -/
def lastPiece (n : Nat) : Nat :=
  if 4 ≤ n then n - 4 else if n = 3 then 1 else 0

theorem bcmpPieces_le {start : Nat} {size : Size} (piece : (start, size) ∈ bcmpPieces n) :
    start ≤ lastPiece n ∧ start + size.bytes ≤ n := by
  induction n using bcmpPieces.induct with
  | case1 n ih =>
    rw [bcmpPieces] at piece
    rcases List.mem_cons.mp piece with first | later
    · cases first
      simp [lastPiece, Size.bytes]
    · have := ih later
      simp only [lastPiece] at this ⊢
      split at this <;> split_ifs at this ⊢ <;> omega
  | case2 =>
    simp only [bcmpPieces, List.mem_cons, Prod.mk.injEq, List.not_mem_nil, or_false] at piece
    rcases piece with ⟨rfl, rfl⟩ | ⟨rfl, rfl⟩ <;> decide
  | case5 => cases piece
  | _ =>
    cases List.mem_singleton.mp piece
    decide

theorem take_add_eq_iff {α : Type} (n k : Nat) (a b : List α) :
    a.take (n + k) = b.take (n + k) ↔
      (a.drop n).take k = (b.drop n).take k ∧ a.take n = b.take n := by
  constructor
  · intro same
    have front := congrArg (List.take n) same
    have back := congrArg (List.drop n) same
    simp only [List.take_take, List.drop_take, Nat.add_sub_cancel_left,
      Nat.min_eq_left (Nat.le_add_right n k)] at front back
    exact ⟨back, front⟩
  · rintro ⟨back, front⟩
    rw [List.take_add, List.take_add, front, back]

/-- Two strings are equal if all their pieces are. -/
theorem pieces_eq_iff {a b : List (BitVec 8)} :
    (∀ piece ∈ bcmpPieces n, (a.drop piece.1).take piece.2.bytes =
      (b.drop piece.1).take piece.2.bytes) ↔ a.take n = b.take n := by
  induction n using bcmpPieces.induct with
  | case1 n ih =>
    rw [bcmpPieces, List.forall_mem_cons, ih]
    exact (take_add_eq_iff n 4 a b).symm
  | case2 =>
    rw [bcmpPieces, List.forall_mem_cons, List.forall_mem_singleton]
    exact (take_add_eq_iff 1 2 a b).symm
  | case5 => simp [bcmpPieces]
  | _ => simp [bcmpPieces, Size.bytes]

/-! ## The generated test -/

/-- The outcome of the comparison of one piece. -/
def pieceOutcome (p : Packet) (k : Word) (v : List (BitVec 8)) (piece : Nat × Size) : Option Bool :=
  match p.read (p.touched piece.2 (k + BitVec.ofNat 32 piece.1)) with
  | .ok x => some (x == Packet.bigEndian ((v.drop piece.1).take piece.2.bytes))
  | .error _ => none

/-- The outcome of the tests so far. -/
def outcomeSoFar (p : Packet) (mem : Reg → Word) (b : Option Formula) : List (Option Bool) :=
  b.toList.map (outcome p mem)

/-- Compile a comparison with a byte string to blocks; there is no block to compile for an
empty string. -/
def compileBcmp (offrel : OffRel) (offset : Word) (v : List (BitVec 8)) : GenM BlockId := do
  match ← genBcmp offrel offset v with
  | some b => emit b
  | none => throw .null

section Test

variable {offrel : OffRel} {offset base : Word} {v : List (BitVec 8)} {p : Packet}
  {mem : Reg → Word}

theorem genCmp_pieceOutcome (piece : Nat × Size) {c : Formula} (ran : Runs (genCmp offrel (offset +
      BitVec.ofNat 32 piece.1) piece.2 (Packet.bigEndian ((v.drop piece.1).take piece.2.bytes))) g c
      g) (starts : offrel.base g mem p = some base) :
    outcome p mem c = pieceOutcome p (base + offset) v piece := by
  rw [genCmp_outcome ran starts, ← BitVec.add_assoc]
  rfl

/-- The comparisons of the pieces are made in order, behind those so far. -/
theorem genBcmpPieces_outcome {pieces : List (Nat × Size)} :
    ∀ {b out : Option Formula} {g g' g₂ : Gen}, (∀ c ∈ b, HeaderTests c) →
      Runs (genBcmpPieces offrel offset v pieces b) g out g' → Agrees g' g₂ →
      offrel.base g₂ mem p = some base →
      inOrder (outcomeSoFar p mem out) =
        inOrder (outcomeSoFar p mem b ++ pieces.map (pieceOutcome p (base + offset) v)) := by
  induction pieces with
  | nil =>
    intro b out g g' g₂ tests ran agrees starts
    obtain ⟨rfl, rfl⟩ := runs_pure_iff.mp ran
    rw [List.map_nil, List.append_nil]
  | cons piece rest ih =>
    intro b out g g' g₂ tests ran agrees starts
    obtain ⟨start, size⟩ := piece
    obtain ⟨tmp, g₁, ranTmp, ranRest⟩ := runs_bind_iff.mp ran
    obtain ⟨testsTmp, _, again⟩ := generates_genCmp offrel _ size _ g tmp g₁ ranTmp
    cases b with
    | none =>
      have testsNow : ∀ c ∈ some tmp, HeaderTests c := by
        rintro c ⟨⟩
        exact testsTmp
      obtain ⟨_, assigns, _⟩ :=
        generates_genBcmpPieces offrel offset v rest _ testsNow g₁ out g' ranRest
      have first := genCmp_pieceOutcome (start, size)
        (again g₂ (assigns.agrees.trans agrees)) starts
      rw [ih testsNow ranRest agrees starts, outcomeSoFar, Option.toList_some, List.map_cons, first]
      rfl
    | some before =>
      have testsNow : ∀ c ∈ some (Cond.and before tmp), HeaderTests c := by
        rintro c ⟨⟩
        exact headerTests_and.mpr ⟨tests before rfl, testsTmp⟩
      obtain ⟨_, assigns, _⟩ :=
        generates_genBcmpPieces offrel offset v rest _ testsNow g₁ out g' ranRest
      have first := genCmp_pieceOutcome (start, size)
        (again g₂ (assigns.agrees.trans agrees)) starts
      rw [ih testsNow ranRest agrees starts, outcomeSoFar, Option.toList_some, List.map_cons,
        outcome_and (tests before rfl) testsTmp, List.map_nil, List.singleton_append,
        inOrder_join, first]
      rfl

theorem genBcmpPieces_isSome {pieces : List (Nat × Size)} :
    ∀ {b out : Option Formula} {g g' : Gen},
      Runs (genBcmpPieces offrel offset v pieces b) g out g' →
      out.isSome = (b.isSome || !pieces.isEmpty) := by
  induction pieces with
  | nil =>
    intro b out g g' ran
    obtain ⟨rfl, rfl⟩ := runs_pure_iff.mp ran
    simp
  | cons piece rest ih =>
    intro b out g g' ran
    obtain ⟨tmp, g₁, _, ranRest⟩ := runs_bind_iff.mp ran
    simp [ih ranRest]

/-- A string that is not empty has a test, which compares its pieces in order. -/
theorem genBcmp_outcome (nonempty : 1 ≤ v.length) {out : Option Formula} {g' : Gen}
    (ran : Runs (genBcmp offrel offset v) g out g') :
    ∃ c, out = some c ∧ HeaderTests c ∧ ∀ (g₂ : Gen) (p : Packet) (mem : Reg → Word) (base : Word),
      Agrees g' g₂ → offrel.base g₂ mem p = some base →
      outcome p mem c =
        inOrder ((bcmpPieces v.length).map (pieceOutcome p (base + offset) v)) := by
  have pieces : (bcmpPieces v.length).isEmpty = false := by
    generalize v.length = n at nonempty
    unfold bcmpPieces
    split <;> simp_all
  have found := genBcmpPieces_isSome ran
  rw [pieces] at found
  obtain ⟨c, rfl⟩ := Option.isSome_iff_exists.mp found
  obtain ⟨tests, _, _⟩ := generates_genBcmp offrel offset v g _ g' ran
  refine ⟨c, rfl, tests c rfl, ?_⟩
  intro g₂ p mem base agrees starts
  have outcomes := genBcmpPieces_outcome (b := none) nofun ran agrees starts
  rw [outcomeSoFar, Option.toList_some, List.map_singleton, inOrder_singleton] at outcomes
  exact outcomes

end Test

/-! ## What the test decides -/

section Decision

variable {p : Packet} {k : Word} {v : List (BitVec 8)}

theorem toNat_index (start : Nat) (inside : k.toNat + n ≤ p.buflen) (within : start ≤ n) :
    (k + BitVec.ofNat 32 start).toNat = k.toNat + start := by
  have bound := p.length_lt
  rw [Packet.buflen] at inside
  rw [BitVec.toNat_add, BitVec.toNat_ofNat]
  omega

/-- A piece that the interpreter can index is compared with the bytes of the packet. -/
theorem pieceOutcome_of_lt {piece : Nat × Size} (found : piece ∈ bcmpPieces v.length)
    (inside : k.toNat + v.length ≤ p.buflen) (below : k.toNat + lastPiece v.length < 2 ^ 31) :
    pieceOutcome p k v piece = some (decide
      (((p.data.drop k.toNat).drop piece.1).take piece.2.bytes =
        (v.drop piece.1).take piece.2.bytes)) := by
  obtain ⟨start, size⟩ := piece
  obtain ⟨le, ends⟩ := bcmpPieces_le found
  have index := toNat_index start inside (by omega)
  have field : p.field size (k + BitVec.ofNat 32 start) =
      some (Packet.bigEndian ((p.data.drop (k.toNat + start)).take size.bytes)) := by
    have signed : (k + BitVec.ofNat 32 start).toInt = k.toNat + start := by
      rw [BitVec.toInt_eq_toNat_of_lt (by omega), index]
      push_cast
      rfl
    rw [Packet.field, if_pos (by omega), index]
  have short : size.bytes ≤ 4 := by cases size <;> decide
  have length : ((p.data.drop (k.toNat + start)).take size.bytes).length =
      ((v.drop start).take size.bytes).length := by
    rw [Packet.buflen] at inside
    simp only [List.length_take, List.length_drop]
    omega
  have equal := bigEndian_inj length (by
    rw [List.length_take]
    exact le_trans (Nat.min_le_left _ _) short)
  simp only [pieceOutcome, p.read_touched_of_field field, List.drop_drop, beq_eq_decide, equal]

theorem inOrder_map_some {α : Type} (l : List α) (f : α → Bool) :
    inOrder (l.map fun x => some (f x)) = some (l.all f) := by
  induction l with
  | nil => rfl
  | cons x rest ih =>
    cases value : f x with
    | false => simp [inOrder, value]
    | true => simp [inOrder, value, ih]

/-- Below 2^31, the pieces together say whether the bytes are the string. -/
theorem inOrder_pieces (inside : k.toNat + v.length ≤ p.buflen)
    (below : k.toNat + lastPiece v.length < 2 ^ 31) :
    inOrder ((bcmpPieces v.length).map (pieceOutcome p k v)) =
      some (decide ((p.data.drop k.toNat).take v.length = v)) := by
  have each := List.map_congr_left fun piece (found : piece ∈ bcmpPieces v.length) =>
    pieceOutcome_of_lt found inside below
  rw [each, inOrder_map_some]
  congr 1
  rw [Bool.eq_iff_iff, List.all_eq_true]
  simp only [decide_eq_true_eq]
  rw [pieces_eq_iff, List.take_length]

theorem bcmpPieces_head (long : 2 ≤ n) :
    ∃ size rest, bcmpPieces n = (lastPiece n, size) :: rest ∧ size ≠ .b ∧
      lastPiece n + size.bytes = n := by
  unfold bcmpPieces lastPiece
  split
  case h_1 n => exact ⟨.w, bcmpPieces n, by simp, by decide, by simp [Size.bytes]⟩
  case h_2 => exact ⟨.h, _, rfl, by decide, rfl⟩
  case h_3 => exact ⟨.h, _, rfl, by decide, rfl⟩
  case h_4 => omega
  case h_5 => omega

/-- The interpreter rejects a packet at an index from 2^31 on, for all but single bytes. -/
theorem read_of_high {size : Size} (notByte : size ≠ .b) (high : 2 ^ 31 ≤ k.toNat)
    (inside : k.toNat + size.bytes ≤ p.buflen) :
    p.read (p.touched size k) = .error (.reject .load) := by
  have bound := p.length_lt
  have far : ∀ n, n < 2 ^ 31 → k.toNat + n ≤ p.buflen → p.touchedSized n k = none := by
    intro n small fits
    have sum := Packet.signExtend_add_toNat k n small
    rw [if_neg (by omega)] at sum
    rw [Packet.buflen] at fits
    rw [Packet.touchedSized, if_pos]
    rw [Packet.buflen, sum]
    omega
  cases size with
  | b => exact absurd rfl notByte
  | w => simp only [Packet.touched, far 4 (by decide) inside, Packet.read]
  | h => simp only [Packet.touched, far 2 (by decide) inside, Packet.read]

/-- A string of two bytes or more whose last piece is beyond is not found. -/
theorem inOrder_pieces_high (long : 2 ≤ v.length) (inside : k.toNat + v.length ≤ p.buflen)
    (high : 2 ^ 31 ≤ k.toNat + lastPiece v.length) :
    inOrder ((bcmpPieces v.length).map (pieceOutcome p k v)) = none := by
  obtain ⟨size, rest, pieces, notByte, ends⟩ := bcmpPieces_head long
  have index := toNat_index (lastPiece v.length) inside (by omega)
  have rejected := read_of_high (p := p) (k := k + BitVec.ofNat 32 (lastPiece v.length)) notByte
    (by omega) (by omega)
  rw [pieces, List.map_cons, pieceOutcome, rejected]
  rfl

end Decision

/-- The compiled test makes the comparisons of the pieces, on the captured bytes. -/
theorem compileBcmp_runs {offrel : OffRel} {offset : Word} {v : List (BitVec 8)} {g₁ : Gen}
    {out : Option Formula} (logged : g.heap.Logged) (nonempty : 1 ≤ v.length)
    (ran : Runs (genBcmp offrel offset v) g out g₁) (snaplen : Word) :
    ∃ b g', Runs (compileBcmp offrel offset v) g b g' ∧
      ∃ h accept reject, g'.heap.resolve b snaplen = some (h, accept, reject) ∧
        (h.get accept).s = { code := bpfRet ||| bpfK, k := snaplen } ∧
        (h.get reject).s = { code := bpfRet ||| bpfK, k := 0 } ∧
        ∀ (p : Packet) (m : Machine) (base : Word), offrel.base g' m.mem p = some base →
          match inOrder ((bcmpPieces v.length).map (pieceOutcome p (base + offset) v)) with
          | some value => ∃ m', (graphStep h p).Reaches ⟨(h.get b).head, 0, m⟩
              ⟨if value then accept else reject, 0, m'⟩
          | none => (graphStep h p).Stops ⟨(h.get b).head, 0, m⟩ (.reject .load) := by
  obtain ⟨c, rfl, tests, outcomes⟩ := genBcmp_outcome nonempty ran
  obtain ⟨_, assigns, _⟩ := generates_genBcmp offrel offset v g _ g₁ ran
  obtain ⟨b, h', ids, ranEmit, emitted⟩ := emit_emitted c g₁ (by rwa [assigns.heap])
  obtain ⟨pend, built⟩ := emitted.built
  obtain ⟨h, accept, reject, resolved, done⟩ := built.resolve snaplen
  refine ⟨b, g₁.withHeap h', .bind ran ranEmit, h, accept, reject,
    resolved, done.acceptRet, done.rejectRet, ?_⟩
  intro p m base starts
  have agrees : Agrees g₁ (g₁.withHeap h') := ⟨rfl, fun _ set => set, fun _ set => set⟩
  have runs := emitted.runs (headerTests_straight tests) resolved p m
  have ending := tests.eval_outcome p m
  rw [← outcomes _ p m.mem base agrees starts]
  cases found : outcome p m.mem c with
  | none =>
    rw [found] at ending
    simp only [ending] at runs
    exact runs
  | some value =>
    rw [found] at ending
    obtain ⟨n, evaluated, _⟩ := ending
    simp only [evaluated] at runs
    exact ⟨n, runs⟩

/-- The test on a byte string, for every base and offset and every packet that contains the
bytes: with the last piece below 2^31, the run comes to the true exit if the bytes are the
string and to the false exit otherwise; beyond, the packet is rejected whatever the bytes are,
unless the string is a single byte. -/
theorem compileBcmp_exact {offrel : OffRel} {offset : Word} {v : List (BitVec 8)} {g g₁ : Gen}
    {out : Option Formula} (logged : g.heap.Logged) (nonempty : 1 ≤ v.length)
    (ran : Runs (genBcmp offrel offset v) g out g₁) (snaplen : Word) :
    ∃ b g', Runs (compileBcmp offrel offset v) g b g' ∧
      ∃ h accept reject, g'.heap.resolve b snaplen = some (h, accept, reject) ∧
        (h.get accept).s = { code := bpfRet ||| bpfK, k := snaplen } ∧
        (h.get reject).s = { code := bpfRet ||| bpfK, k := 0 } ∧
        ∀ (p : Packet) (m : Machine) (base k : Word), offrel.base g' m.mem p = some base →
          k = base + offset → k.toNat + v.length ≤ p.buflen →
          (k.toNat + lastPiece v.length < 2 ^ 31 →
            ∃ m', (graphStep h p).Reaches ⟨(h.get b).head, 0, m⟩
              ⟨if (p.data.drop k.toNat).take v.length = v then accept else reject, 0, m'⟩) ∧
          (2 ^ 31 ≤ k.toNat + lastPiece v.length → 2 ≤ v.length →
            (graphStep h p).Stops ⟨(h.get b).head, 0, m⟩ (.reject .load)) := by
  obtain ⟨b, g', compiled, h, accept, reject, resolved, acceptRet, rejectRet, runs⟩ :=
    compileBcmp_runs logged nonempty ran snaplen
  refine ⟨b, g', compiled, h, accept, reject, resolved, acceptRet, rejectRet, ?_⟩
  rintro p m base k starts rfl inside
  have ending := runs p m base starts
  constructor
  · intro below
    simp only [inOrder_pieces inside below, decide_eq_true_eq] at ending
    exact ending
  · intro high long
    simp only [inOrder_pieces_high long inside high] at ending
    exact ending

/-- Three bytes of the source address of an Ethernet frame. -/
theorem compileBcmp_exact_ethernet :
    ∃ b g' h accept reject m', Runs (compileBcmp .link 6 [1, 2, 3]) (.start .ethernet 96) b g' ∧
      g'.heap.resolve b 96 = some (h, accept, reject) ∧
      (graphStep h ⟨[0, 0, 0, 0, 0, 0, 1, 2, 3], 9, fun _ => 0, by decide⟩).Reaches
        ⟨(h.get b).head, 0, ⟨0, 0, fun _ => 0⟩⟩ ⟨accept, 0, m'⟩ := by
  have logged : (Gen.start .ethernet 96).heap.Logged := nofun
  have generated : Runs (genBcmp .link 6 [1, 2, 3]) (.start .ethernet 96) _ _ := rfl
  obtain ⟨b, g', compiled, h, accept, reject, resolved, _, _, decides⟩ :=
    compileBcmp_exact logged (by decide) generated 96
  have here : Runs (compileBcmp .link 6 [1, 2, 3]) (.start .ethernet 96) _ _ := rfl
  obtain ⟨rfl, rfl⟩ := here.unique compiled
  obtain ⟨m', reaches⟩ :=
    (decides ⟨[0, 0, 0, 0, 0, 0, 1, 2, 3], 9, fun _ => 0, by decide⟩ ⟨0, 0, fun _ => 0⟩ 0 6
      rfl rfl (by decide)).1 (by decide)
  exact ⟨_, _, h, accept, reject, m', compiled, resolved, reaches⟩

/-- A packet of zero bytes. -/
def zeros (n : Nat) (fits : n < 2 ^ 32) : Packet :=
  ⟨List.replicate n 0, 0, fun _ => 0, by rwa [List.length_replicate]⟩

theorem buflen_zeros (n : Nat) (fits : n < 2 ^ 32) : (zeros n fits).buflen = n :=
  List.length_replicate

/-- A packet of 2^31 + 4 bytes with four zero bytes at its end, on which the test for these
bytes fails. -/
theorem compileBcmp_beyond_int :
    ∃ p : Packet, 2 ^ 31 + 4 ≤ p.buflen ∧ (p.data.drop (2 ^ 31)).take 4 = [0, 0, 0, 0] ∧
      ∃ b g' h accept reject,
        Runs (compileBcmp .packet 0x80000000 [0, 0, 0, 0]) (.start .ethernet 96) b g' ∧
        g'.heap.resolve b 96 = some (h, accept, reject) ∧
        ∀ m, (graphStep h p).Stops ⟨(h.get b).head, 0, m⟩ (.reject .load) := by
  have logged : (Gen.start .ethernet 96).heap.Logged := nofun
  have generated : Runs (genBcmp .packet 0x80000000 [0, 0, 0, 0]) (.start .ethernet 96) _ _ := rfl
  obtain ⟨b, g', compiled, h, accept, reject, resolved, _, _, runs⟩ :=
    compileBcmp_runs logged (by decide) generated 96
  have fits : 2 ^ 31 + 4 < 2 ^ 32 := by norm_num
  have captured : 2 ^ 31 + 4 ≤ (zeros (2 ^ 31 + 4) fits).buflen := (buflen_zeros _ fits).ge
  have bytes : ((zeros (2 ^ 31 + 4) fits).data.drop (2 ^ 31)).take 4 = [0, 0, 0, 0] := by
    rw [zeros, List.drop_replicate, Nat.add_sub_cancel_left]
    rfl
  have inside : (0 + 0x80000000 : Word).toNat + [0, 0, 0, 0].length ≤
      (zeros (2 ^ 31 + 4) fits).buflen := by
    rw [buflen_zeros]
    decide
  have missed := inOrder_pieces_high (v := [0, 0, 0, 0]) (by decide) inside (by decide)
  generalize zeros (2 ^ 31 + 4) fits = p at captured bytes missed
  refine ⟨p, captured, bytes, b, g', h, accept, reject, compiled, resolved, ?_⟩
  intro m
  have ending := runs p m 0 rfl
  simp only [missed] at ending
  exact ending

end Libpcap.Gencode
