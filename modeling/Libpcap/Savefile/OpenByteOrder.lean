/-
# The byte order is invisible

A savefile and the same file in the other byte order are opened alike: both are
accepted, with the same link type and the same snapshot length, or both are refused
with the same text. As long as the calls for the next packet succeed they return the
same packets, and the first call that fails does so for both.

Behind a call that has failed this is no longer so. Where a record was refused for
its length, the next call takes the captured bytes of that record for a record
header, and these bytes are in no byte order.
-/

import Libpcap.Savefile.NgByteOrder

namespace Libpcap.Savefile

open Libpcap.Semantics Libpcap.Gencode List

variable {swapped : Bool} {stream : List Byte}

/-! ## Opening a pcap-ng file -/

section Opening

variable {p : NgSf} {skipped : Skipped} {s s' : File × NgState}

/-- Both readers find the same first interface. -/
theorem firstInterface_coupled (blocks : Nat) (between : Between p.swapped skipped s s') :
    Abreast (firstInterface p blocks) (firstInterface p.flip blocks) s s'
      fun _ => Between p.swapped skipped := by
  induction blocks generalizing s s' with
  | zero => rfl
  | succ blocks ih =>
    refine (readBlock_coupled between).bind ?_
    rintro more ⟨file, state⟩ ⟨file', state'⟩ ⟨between₁, loads⟩
    cases more with
    | false => rfl
    | true =>
      have loaded := loads rfl
      have blockType : state'.cursor.blockType = state.cursor.blockType :=
        loaded.place.blockType
      simp only [if_true, exec_own_bind, exec_ite, exec_fail, blockType]
      split
      · rename_i isIdb
        refine (loaded.fixedPart_idb isIdb).bind ?_
        rintro raw ⟨file₁, state₁⟩ raw' ⟨file₁', state₁'⟩
          ⟨linktype, snaplen, between₂, inOptions⟩
        refine (addInterface_coupled between₂ inOptions).bind ?_
        rintro _ t t' alike
        refine ⟨?_, Between.of_alike alike⟩
        rw [linktype, snaplen]
      split
      · rfl
      · exact ih between₁

/-- The version in the rest of a section header. -/
theorem NgSf.version_flip (p : NgSf) (behind : List Byte → List Byte) {shb : List Byte}
    (whole : 12 ≤ shb.length) :
    p.flip.short 0 (swapFixed [2, 2, 8] behind shb) = p.short 0 shb := by
  have twelve : sum [2, 2, 8] = 12 := rfl
  have fits : sum [2, 2, 8] ≤ (shb.take 12).length := by
    rw [length_take_of_le whole]
    decide
  have reversed : p.flip.short 0 (reverseWhole [2, 2, 8] (shb.take 12)) = p.short 0 (shb.take 12) :=
    p.short_flip fits (by decide)
  have front : p.flip.short 0 (swapFixed [2, 2, 8] behind shb) =
      p.flip.short 0 (reverseWhole [2, 2, 8] (shb.take 12)) := by
    unfold Pcap.short Savefile.short word
    rw [swapFixed, twelve, field_append]
    rw [length_reverseWhole]
    omega
  rw [front, reversed]
  unfold Pcap.short Savefile.short word
  rw [field_take shb (by decide)]

/-- The two parts of what follows the byte-order magic. -/
theorem swapSection_parts (swapped : Bool) (skipped : Skipped) (totalLength : Nat)
    (unread : List Byte) :
    (swapSection swapped skipped totalLength unread).length = unread.length ∧
      (swapSection swapped skipped totalLength unread).take (totalLength - 12) =
        swapFixed [2, 2, 8] (skipped.rest btShb (unread.take (totalLength - 12)))
          (unread.take (totalLength - 12)) ∧
      (swapSection swapped skipped totalLength unread).drop (totalLength - 12) =
        (swapBlocks swapped skipped).apply (unread.drop (totalLength - 12)) := by
  have keeps : (swapFixed [2, 2, 8] (skipped.rest btShb (unread.take (totalLength - 12)))
      (unread.take (totalLength - 12))).length = (unread.take (totalLength - 12)).length :=
    length_swapFixed (skipped.length_rest _ _) _
  constructor
  · rw [swapSection, length_append, keeps, Reframing.length_apply, ← length_append,
      take_append_drop]
  · apply Reframing.take_drop_append
    · exact keeps.trans_le (length_take_le _ _)
    · rw [keeps, length_take]
      by_cases whole : totalLength - 12 ≤ unread.length
      · exact .inl (by omega)
      · exact .inr (Reframing.apply_nil_of_nil _ (drop_eq_nil_of_le (by omega)))

/-- The rest of the section header, and the first interface. -/
theorem readSection_coupled {totalLength : Nat} {unread : List Byte}
    (least : minShbLength ≤ totalLength)
    (alike : Alike unread (swapSection p.swapped skipped totalLength unread) s s') :
    Coupled (exec (readSection p totalLength) s) (exec (readSection p.flip totalLength) s')
      (fun sf t sf' t' => sf' = sf.flip ∧ sf.swapped = p.swapped ∧
        Between p.swapped skipped t t') := by
  obtain ⟨file, state⟩ := s
  obtain ⟨file', state'⟩ := s'
  obtain ⟨length, taken, after⟩ := swapSection_parts p.swapped skipped totalLength unread
  have sizes : p.flip.bufsize = p.bufsize := rfl
  have table : state'.table = state.table := alike.table
  have buffered : Alike unread _
      (file, { state with buffer := some p.bufsize, table := { state.table with sections := 1 } })
      (file', { state' with buffer := some p.bufsize, table := { state.table with sections := 1 } }) :=
    ⟨alike.unread, alike.unread', alike.heap, rfl, rfl⟩
  simp only [readSection, exec_bind, exec_update, exec_updateTable, andThen_ok, sizes, table]
  rw [← exec_bind, ← exec_bind]
  refine (storeBlock_coupled buffered totalLength).bind ?_
  rintro _ _ _ _ ⟨rfl, rfl⟩
  refine (readBytes_coupled buffered length (totalLength - 12) true).bind ?_
  rintro _ ⟨file₁, state₁⟩ _ ⟨file₁', state₁'⟩
    ⟨alike₁, _, _, ⟨whole, rfl, rfl⟩ | ⟨_, impossible, _⟩⟩
  · rw [after] at alike₁
    have between := Between.of_alike alike₁
    have twelve : 12 ≤ (unread.take (totalLength - 12)).length := by
      rw [length_take, minShbLength] at *
      omega
    have blocks : file₁'.unread.length = file₁.unread.length := by
      rw [between.unread', Reframing.length_apply]
    simp only [Option.getD_some, taken, p.version_flip _ twelve, exec_ite, exec_fail, exec_bind,
      exec_get, andThen_ok, blocks]
    split
    · rfl
    rw [← exec_bind, ← exec_bind]
    refine (firstInterface_coupled _ between).bind ?_
    rintro ⟨linktype, snaplen⟩ t t' between₁
    exact ⟨rfl, rfl, between₁⟩
  · cases impossible

theorem openSection_coupled (precision : Nat) {totalLength : Nat} {unread : List Byte}
    (alike : Alike unread (swapSection swapped skipped totalLength unread) s s') :
    Coupled (exec (openSection swapped precision totalLength) s)
      (exec (openSection (!swapped) precision totalLength) s')
      (fun sf t sf' t' => sf' = sf.flip ∧ sf.swapped = swapped ∧ Between swapped skipped t t') := by
  obtain ⟨file, state⟩ := s
  obtain ⟨file', state'⟩ := s'
  have heap : file'.heap = file.heap := alike.heap
  simp only [openSection, exec_ite, exec_fail, exec_bind, exec_malloc, andThen_ok, heap]
  split
  · rfl
  rename_i least
  split
  · rfl
  split
  · rfl
  split
  · rfl
  · exact readSection_coupled (p := NgSf.start swapped precision totalLength) (not_lt.mp least)
      ⟨alike.unread, alike.unread', rfl, alike.buffer, alike.table⟩

theorem fileLong_reverse (swapped : Bool) {bytes : List Byte} (length : bytes.length = 4) :
    fileLong (!swapped) 0 bytes.reverse = fileLong swapped 0 bytes := by
  have reversed : reverseWhole [4] bytes = bytes.reverse := by
    rw [reverseWhole, if_neg (by omega), take_of_length_le (by omega),
      drop_eq_nil_of_le (by omega), reverseWhole, append_nil]
  have fits : sum [4] ≤ bytes.length := Nat.le_of_eq length.symm
  rw [← reversed]
  exact fileLong_not fits swapped (by decide)

/-- **The first section header.** Both readers accept it, with handles that differ in the
byte order only, or fail alike. -/
theorem pcapNgCheckHeader_coupled (skipped : Skipped) (precision : Nat) {length order : List Byte}
    (rest : List Byte) (heap : Nat → Bool) (state : NgState) (fourLength : length.length = 4)
    (fourOrder : order.length = 4) (known : fileLong swapped 0 order = byteOrderMagic) :
    let rest' := swapSection swapped skipped (fileLong swapped 0 length).toNat rest
    Coupled (exec (pcapNgCheckHeader btShb precision) (⟨length ++ (order ++ rest), heap⟩, state))
      (exec (pcapNgCheckHeader btShb precision)
        (⟨length.reverse ++ (order.reverse ++ rest'), heap⟩, state))
      (fun accepted t accepted' t' => ∃ sf, accepted = some sf ∧ accepted' = some sf.flip ∧
        Between sf.swapped skipped t t') := by
  intro rest'
  have alike : Alike rest rest' ((⟨rest, heap⟩ : File), state) ((⟨rest', heap⟩ : File), state) :=
    ⟨rfl, rfl, rfl, rfl, rfl⟩
  have opened : Coupled
      (exec (some <$> openSection swapped precision (fileLong swapped 0 length).toNat)
        (⟨rest, heap⟩, state))
      (exec (some <$> openSection (!swapped) precision (fileLong swapped 0 length).toNat)
        (⟨rest', heap⟩, state))
      (fun accepted t accepted' t' => ∃ sf, accepted = some sf ∧ accepted' = some sf.flip ∧
        Between sf.swapped skipped t t') := by
    rw [map_eq_pure_bind, map_eq_pure_bind]
    refine (openSection_coupled precision alike).bind ?_
    rintro sf t _ t' ⟨rfl, isSwapped, between⟩
    exact ⟨sf, rfl, rfl, by rw [isSwapped]; exact between⟩
  have four : ∀ front back : List Byte, front.length = 4 →
      (front ++ back).take 4 = front ∧ (front ++ back).drop 4 = back :=
    fun front back length => ⟨take_left' length, drop_left' length⟩
  have fourLength' : length.reverse.length = 4 := by rw [length_reverse, fourLength]
  have fourOrder' : order.reverse.length = 4 := by rw [length_reverse, fourOrder]
  have lengthAgain := fileLong_reverse swapped fourLength
  have orderAgain := fileLong_reverse swapped fourOrder
  rw [known] at orderAgain
  simp only [pcapNgCheckHeader, ne_eq, not_true_eq_false, if_false, exec_bind, exec_fread,
    andThen_ok, four _ _ fourLength, four _ _ fourOrder, four _ _ fourLength', four _ _ fourOrder',
    fourLength, fourOrder, fourLength', fourOrder', exec_ite, lt_irrefl, or_self]
  have different : byteOrderMagic ≠ swapLong byteOrderMagic := by decide
  cases swapped with
  | false =>
    have isOrder : long 0 order = byteOrderMagic := known
    have isOrder' : swapLong (long 0 order.reverse) = byteOrderMagic := orderAgain
    have notOrder' : long 0 order.reverse ≠ byteOrderMagic := by
      intro same
      rw [same] at isOrder'
      exact different isOrder'.symm
    have total : swapLong (long 0 length.reverse) = long 0 length := lengthAgain
    simp only [isOrder, isOrder', notOrder', total, if_true, if_false]
    exact opened
  | true =>
    have isOrder : swapLong (long 0 order) = byteOrderMagic := known
    have isOrder' : long 0 order.reverse = byteOrderMagic := orderAgain
    have notOrder : long 0 order ≠ byteOrderMagic := by
      intro same
      rw [same] at isOrder
      exact different isOrder.symm
    have total : long 0 length.reverse = swapLong (long 0 length) := lengthAgain
    simp only [isOrder, isOrder', notOrder, total, if_true, if_false]
    exact opened

end Opening

/-! ## Savefiles of both formats -/

/-- The formats, each with its byte order; of a pcap savefile the magic number as well. -/
inductive Format
  | pcap (magic : BitVec 32) (swapped : Bool)
  | ng (swapped : Bool)
  | unknown

/-- The format of a stream, from its magic number and, of a pcap-ng file, the byte-order
magic of its first section. -/
def formatOf (stream : List Byte) : Format :=
  if stream.length < 4 then .unknown
  else
    match pcapMagic (long 0 (stream.take 4)) with
    | some (magic, swapped) => .pcap magic swapped
    | none =>
      if long 0 (stream.take 4) = btShb ∧ 12 ≤ stream.length then
        if long 0 (field 8 4 stream) = byteOrderMagic then .ng false
        else if swapLong (long 0 (field 8 4 stream)) = byteOrderMagic then .ng true
        else .unknown
      else .unknown

/-- A savefile in the other byte order: every integer field of its headers, its blocks
and its options reversed. A stream of neither format stays as it is. -/
def swapSavefile (skipped : Skipped) (stream : List Byte) : List Byte :=
  match formatOf stream with
  | .pcap magic swapped => swapPcapFile magic swapped stream
  | .ng swapped => swapNgFile swapped skipped stream
  | .unknown => stream

/-- Two sessions, one with the file and one with the file in the other byte order. -/
inductive Twins (skipped : Skipped) : Session → Session → Prop
  | pcap (sf : PcapSf) (file : File) (salvage : Salvage)
      (sized : (recordWidths sf.hdrsize).sum = sf.hdrsize) :
      Twins skipped ⟨.pcap sf, file, salvage⟩
        ⟨.pcap sf.flip, file.rewrite sf.swapRecords, salvage⟩
  | ng (sf : NgSf) {state state' : NgState} {file file' : File} (salvage : Salvage)
      (between : Between sf.swapped skipped (file, state) (file', state')) :
      Twins skipped ⟨.ng sf state, file, salvage⟩ ⟨.ng sf.flip state', file', salvage⟩

/-- The link types without a pseudo-header in the byte order of the capturing host. -/
def NoHostOrder (linktype : Nat) : Prop := linktype ≠ dltUsbLinux ∧ linktype ≠ dltUsbLinuxMmapped

section Sessions

variable {skipped : Skipped} {session session' : Session}

theorem Twins.handle (twins : Twins skipped session session') :
    session'.reader.handle = { session.reader.handle with
      swapped := !session.reader.handle.swapped } := by
  cases twins with
  | pcap _ _ _ _ => rfl
  | ng _ _ _ => rfl

/-- **One call.** It fails for both, or returns the same for both. -/
theorem Twins.next (twins : Twins skipped session session')
    (plain : NoHostOrder session.reader.handle.linktype) :
    Coupled session.next session'.next (fun packet next packet' next' => packet' = packet ∧
      next.reader.handle = session.reader.handle ∧ Twins skipped next next') := by
  cases twins with
  | pcap sf file salvage sized =>
    obtain ⟨packet, ⟨file₁, salvage₁⟩, packet', t', ran, ran', rfl, rfl⟩ |
      ⟨text, ⟨file₁, salvage₁⟩, ⟨file₁', salvage₁'⟩, ran, ran'⟩ :=
      (pcapNextPacket_coupled sized plain file salvage).cases
    · simp only [Session.next, ran, ran']
      exact ⟨rfl, rfl, .pcap sf file₁ salvage₁ sized⟩
    · simp only [Session.next, ran, ran']
      rfl
  | @ng sf state state' file file' salvage between =>
    obtain ⟨packet, ⟨file₁, state₁⟩, packet', ⟨file₁', state₁'⟩, ran, ran', rfl, between₁⟩ |
      ⟨stop, ⟨file₁, state₁⟩, ⟨file₁', state₁'⟩, ran, ran'⟩ :=
      (pcapNgNextPacket_coupled plain between).cases
    · simp only [Session.next, ran, ran']
      exact ⟨rfl, rfl, .ng sf salvage between₁⟩
    · simp only [Session.next, ran, ran']
      rfl

/-- The calls up to the first that fails return the same. -/
theorem Twins.calls (twins : Twins skipped session session')
    (plain : NoHostOrder session.reader.handle.linktype) (n : Nat) :
    session'.calls n = session.calls n := by
  induction n generalizing session session' with
  | zero => rfl
  | succ n ih =>
    obtain ⟨packet, next, _, next', ran, ran', rfl, handle, twins₁⟩ |
      ⟨stop, next, next', ran, ran'⟩ := (twins.next plain).cases
    · simp only [Session.calls, ran, ran']
      rw [ih twins₁ (handle ▸ plain)]
    · simp only [Session.calls, ran, ran']

end Sessions

/-! ## The two streams are opened alike -/

theorem fread_append {σ ε : Type} (front back : List Byte) {n : Nat} (length : front.length = n)
    (heap : Nat → Bool) (own : σ) :
    exec (fread n : Reading σ ε _) (⟨front ++ back, heap⟩, own) =
      (.ok front, (⟨back, heap⟩, own)) := by
  rw [exec_fread, take_left' length, drop_left' length]

theorem long_reverse {bytes : List Byte} (length : bytes.length = 4) :
    long 0 bytes.reverse = swapLong (long 0 bytes) :=
  fileLong_reverse true length

/-- Opening a file whose magic number is there. -/
theorem exec_openFile (precision : Nat) {magic : List Byte} (length : magic.length = 4)
    (rest : List Byte) (heap : Nat → Bool) (state : NgState) :
    exec (openFile precision) (⟨magic ++ rest, heap⟩, state) =
      exec (checkHeaders (long 0 magic) precision) (⟨rest, heap⟩, state) := by
  rw [openFile, exec_bind, fread_append magic rest length, andThen_ok, exec_ite,
    if_neg (not_not.mpr length)]

/-- A pcap savefile and the same file in the other byte order. -/
theorem openFile_pcap_coupled {magic : BitVec 32} (precision : Nat) (heap : Nat → Bool)
    (state : NgState) (long4 : 4 ≤ stream.length)
    (known : pcapMagic (long 0 (stream.take 4)) = some (magic, swapped)) :
    Coupled (exec (openFile precision) (⟨stream, heap⟩, state))
      (exec (openFile precision) (⟨swapPcapFile magic swapped stream, heap⟩, state))
      (fun opened t opened' t' => ∃ sf file, opened = .pcap sf ∧ opened' = .pcap sf.flip ∧
        (recordWidths sf.hdrsize).sum = sf.hdrsize ∧ t = (file, state) ∧
        t' = (file.rewrite sf.swapRecords, state)) := by
  have four : (stream.take 4).length = 4 := length_take_of_le long4
  have four' : (stream.take 4).reverse.length = 4 := by rw [length_reverse, four]
  have coupled := pcapCheckHeader_coupled known precision (stream.drop 4) heap state
  simp only [drop_drop, Nat.reduceAdd] at coupled
  nth_rewrite 1 [← take_append_drop 4 stream]
  simp only [swapPcapFile, field]
  rw [exec_openFile precision four, exec_openFile precision four', long_reverse four, checkHeaders,
    checkHeaders, exec_bind, exec_bind, exec_adapt, exec_adapt]
  obtain ⟨_, _, _, _, ran, ran', sf, file, rfl, rfl, sized, rfl, rfl⟩ |
    ⟨text, t, t', ran, ran'⟩ := coupled.cases
  · rw [ran, ran']
    exact ⟨sf, file, rfl, rfl, sized, rfl, rfl⟩
  · rw [ran, ran']
    rfl

/-- A pcap-ng file and the same file in the other byte order. -/
theorem openFile_ng_coupled (skipped : Skipped) (precision : Nat) (heap : Nat → Bool)
    (state : NgState) (notPcap : pcapMagic (long 0 (stream.take 4)) = none)
    (isShb : long 0 (stream.take 4) = btShb) (long12 : 12 ≤ stream.length)
    (known : fileLong swapped 0 (field 8 4 stream) = byteOrderMagic) :
    Coupled (exec (openFile precision) (⟨stream, heap⟩, state))
      (exec (openFile precision) (⟨swapNgFile swapped skipped stream, heap⟩, state))
      (fun opened t opened' t' => ∃ sf, opened = .ng sf ∧ opened' = .ng sf.flip ∧
        Between sf.swapped skipped t t') := by
  have four : (stream.take 4).length = 4 := length_take_of_le (by omega)
  have four' : (stream.take 4).reverse.length = 4 := by rw [length_reverse, four]
  have split : stream.drop 4 = field 4 4 stream ++ (field 8 4 stream ++ stream.drop 12) := by
    have eight : stream.drop 8 = (stream.drop 4).drop 4 := by rw [drop_drop]
    have twelve : stream.drop 12 = ((stream.drop 4).drop 4).drop 4 := by
      rw [drop_drop, drop_drop]
    rw [field, field, eight, twelve, take_append_drop, take_append_drop]
  have shbSwapped : swapLong btShb = btShb := by decide
  have notPcap' : ∀ {σ : Type} (s : File × σ),
      exec (pcapCheckHeader btShb precision) s = (.ok none, s) := by
    intro σ s
    rw [isShb] at notPcap
    rw [pcapCheckHeader, notPcap, exec_pure]
  have fourLength : (field 4 4 stream).length = 4 := length_field (by omega)
  have fourOrder : (field 8 4 stream).length = 4 := length_field (by omega)
  have coupled := pcapNgCheckHeader_coupled skipped precision (stream.drop 12) heap state
    fourLength fourOrder known
  nth_rewrite 1 [← take_append_drop 4 stream]
  simp only [swapNgFile]
  rw [exec_openFile precision four, exec_openFile precision four', long_reverse four, isShb,
    shbSwapped, checkHeaders, exec_bind, exec_bind, exec_adapt, exec_adapt, notPcap', notPcap']
  simp only [Except.mapError, andThen_ok, exec_bind, split]
  obtain ⟨_, t, _, t', ran, ran', sf, rfl, rfl, between⟩ | ⟨stop, t, t', ran, ran'⟩ := coupled.cases
  · rw [ran, ran']
    exact ⟨sf, rfl, rfl, between⟩
  · rw [ran, ran']
    rfl

/-- What the format of a stream says of its first bytes. -/
theorem formatOf_spec (stream : List Byte) :
    match formatOf stream with
    | .pcap magic swapped =>
      4 ≤ stream.length ∧ pcapMagic (long 0 (stream.take 4)) = some (magic, swapped)
    | .ng swapped =>
      pcapMagic (long 0 (stream.take 4)) = none ∧ long 0 (stream.take 4) = btShb ∧
        12 ≤ stream.length ∧ fileLong swapped 0 (field 8 4 stream) = byteOrderMagic
    | .unknown =>
      stream.length < 4 ∨ (4 ≤ stream.length ∧ pcapMagic (long 0 (stream.take 4)) = none ∧
        (long 0 (stream.take 4) = btShb → 12 ≤ stream.length →
          long 0 (field 8 4 stream) ≠ byteOrderMagic ∧
            swapLong (long 0 (field 8 4 stream)) ≠ byteOrderMagic)) := by
  by_cases short : stream.length < 4
  · rw [formatOf, if_pos short]
    exact .inl short
  cases isPcap : pcapMagic (long 0 (stream.take 4)) with
  | some known =>
    rw [formatOf, if_neg short, isPcap]
    exact ⟨not_lt.mp short, rfl⟩
  | none =>
    rw [formatOf, if_neg short, isPcap]
    split_ifs with begins same opposite
    · exact ⟨rfl, begins.1, begins.2, same⟩
    · exact ⟨rfl, begins.1, begins.2, opposite⟩
    · exact .inr ⟨not_lt.mp short, rfl, fun _ _ => ⟨same, opposite⟩⟩
    · exact .inr ⟨not_lt.mp short, rfl, fun isShb long12 => absurd ⟨isShb, long12⟩ begins⟩

/-- A stream of neither format is refused. -/
theorem openFile_unknown (precision : Nat) (heap : Nat → Bool) (state : NgState)
    (unknown : formatOf stream = .unknown) :
    ∃ stop s, exec (openFile precision) (⟨stream, heap⟩, state) = (.error stop, s) := by
  have spec := formatOf_spec stream
  rw [unknown] at spec
  rcases spec with short | ⟨long4, notPcap, notNg⟩
  · have few : (stream.take 4).length ≠ 4 := by
      rw [length_take]
      omega
    rw [openFile, exec_bind, exec_fread, andThen_ok, exec_ite, if_pos few]
    exact ⟨_, _, rfl⟩
  · have four : (stream.take 4).length = 4 := length_take_of_le long4
    rw [← take_append_drop 4 stream, exec_openFile precision four, checkHeaders, exec_bind,
      exec_adapt, pcapCheckHeader, notPcap, exec_pure]
    simp only [Except.mapError, andThen_ok, exec_bind]
    have refused : ∃ s, exec (pcapNgCheckHeader (long 0 (stream.take 4)) precision)
        (⟨stream.drop 4, heap⟩, state) = (.ok none, s) := by
      rw [pcapNgCheckHeader, exec_ite]
      by_cases isShb : long 0 (stream.take 4) = btShb
      · rw [if_neg (not_not.mpr isShb)]
        have order : ((stream.drop 4).drop 4).take 4 = field 8 4 stream := by
          rw [drop_drop]
          rfl
        simp only [exec_bind, exec_fread, andThen_ok, exec_ite, order]
        split
        · exact ⟨_, rfl⟩
        rename_i whole
        have long12 : 12 ≤ stream.length := by
          simp only [field, length_take, length_drop, not_or, not_lt] at whole
          omega
        obtain ⟨notSame, notOpposite⟩ := notNg isShb long12
        rw [if_neg notSame, if_neg notOpposite]
        exact ⟨_, rfl⟩
      · exact ⟨_, by rw [if_pos isShb, exec_pure]⟩
    obtain ⟨s, none⟩ := refused
    exact ⟨_, s, by rw [none]; rfl⟩

/-- **Opening.** The file and the same file in the other byte order are refused with the
same text, or both are accepted. -/
theorem pcapFopenOffline_coupled (skipped : Skipped) (precision : Nat) (stream : List Byte)
    (heap : Nat → Bool) :
    Coupled (pcapFopenOffline precision ⟨stream, heap⟩)
      (pcapFopenOffline precision ⟨swapSavefile skipped stream, heap⟩)
      (fun reader file reader' file' =>
        ∀ salvage, Twins skipped ⟨reader, file, salvage⟩ ⟨reader', file', salvage⟩) := by
  have spec := formatOf_spec stream
  unfold pcapFopenOffline swapSavefile
  cases known : formatOf stream with
  | pcap magic swapped =>
    rw [known] at spec
    obtain ⟨long4, isPcap⟩ := spec
    obtain ⟨_, _, _, _, ran, ran', sf, file, rfl, rfl, sized, rfl, rfl⟩ |
      ⟨stop, ⟨file, state⟩, ⟨file', state'⟩, ran, ran'⟩ :=
      (openFile_pcap_coupled precision heap .init long4 isPcap).cases
    · simp only [ran, ran']
      exact fun salvage => .pcap sf file salvage sized
    · simp only [ran, ran']
      rfl
  | ng swapped =>
    rw [known] at spec
    obtain ⟨notPcap, isShb, long12, order⟩ := spec
    obtain ⟨_, ⟨file, state⟩, _, ⟨file', state'⟩, ran, ran', sf, rfl, rfl, between⟩ |
      ⟨stop, ⟨file, state⟩, ⟨file', state'⟩, ran, ran'⟩ :=
      (openFile_ng_coupled skipped precision heap .init notPcap isShb long12 order).cases
    · simp only [ran, ran']
      exact fun salvage => .ng sf salvage between
    · simp only [ran, ran']
      rfl
  | unknown =>
    obtain ⟨stop, ⟨file, state⟩, ran⟩ := openFile_unknown precision heap .init known
    simp only [ran]
    rfl

/-- **The byte order is invisible.** A savefile and the same file in the other byte order
are refused with the same text, or both are opened with the same link type and the same
snapshot length; the calls for the next packet then return the same, up to the first that
fails. -/
theorem byteOrder_invisible (skipped : Skipped) (precision : Nat) (stream : List Byte)
    (heap : Nat → Bool) (salvage : Salvage) :
    match pcapFopenOffline precision ⟨stream, heap⟩,
      pcapFopenOffline precision ⟨swapSavefile skipped stream, heap⟩ with
    | (.ok reader, file), (.ok reader', file') =>
      reader'.handle.swapped = !reader.handle.swapped ∧
        reader'.handle.linktype = reader.handle.linktype ∧
        reader'.handle.snapshot = reader.handle.snapshot ∧
        (NoHostOrder reader.handle.linktype → ∀ n,
          Session.calls n ⟨reader', file', salvage⟩ = Session.calls n ⟨reader, file, salvage⟩)
    | (.error stop, _), (.error stop', _) => stop' = stop
    | _, _ => False := by
  obtain ⟨reader, file, reader', file', ran, ran', twins⟩ | ⟨stop, file, file', ran, ran'⟩ :=
    (pcapFopenOffline_coupled skipped precision stream heap).cases
  · have handle : reader'.handle = { reader.handle with swapped := !reader.handle.swapped } :=
      (twins salvage).handle
    simp only [ran, ran', handle]
    exact ⟨trivial, trivial, trivial, fun plain n => (twins salvage).calls plain n⟩
  · simp only [ran, ran']

/-- Passing over a part of the file without a change. -/
def Skipped.asIs : Skipped where
  option := fun _ value => value
  rest := fun _ _ bytes => bytes
  length_option := fun _ _ => rfl
  length_rest := fun _ _ _ => rfl

/-- The header of an Ethernet capture, in the host's byte order. -/
def ethernetHeader : List Byte :=
  [0xd4, 0xc3, 0xb2, 0xa1, 2, 0, 4, 0, 0, 0, 0, 0, 0, 0, 0, 0, 0xff, 0xff, 0, 0, 1, 0, 0, 0]

def oneByteRecord : List Byte := [7, 0, 0, 0, 9, 0, 0, 0, 1, 0, 0, 0, 1, 0, 0, 0, 0xaa]

/-- The reader of the other byte order returns the packet. -/
theorem byteOrder_invisible_packet :
    ∃ session session' : Session,
      pcapFopenOffline 0 ⟨ethernetHeader ++ oneByteRecord, fun _ => true⟩ =
        (.ok session.reader, session.file) ∧
      pcapFopenOffline 0 ⟨swapSavefile .asIs (ethernetHeader ++ oneByteRecord), fun _ => true⟩ =
        (.ok session'.reader, session'.file) ∧
      session.calls 2 = [.ok (some (⟨⟨7, 9⟩, 1, 1⟩, [0xaa])), .ok none] ∧
      session'.calls 2 = session.calls 2 := by
  have invisible := byteOrder_invisible .asIs 0 (ethernetHeader ++ oneByteRecord) (fun _ => true) ⟨0⟩
  refine ⟨⟨_, _, ⟨0⟩⟩, ⟨_, _, ⟨0⟩⟩, rfl, rfl, rfl, ?_⟩
  exact invisible.2.2.2 ⟨by decide, by decide⟩ 2

/-- Behind a record header with a length that is refused, the captured bytes of the record
are taken for the next header: here a packet is found in one file and not in the other. -/
theorem calls_differ_behind_failure :
    ∃ session session' : Session,
      pcapFopenOffline 0 ⟨ethernetHeader ++
          ([7, 0, 0, 0, 9, 0, 0, 0, 0, 0, 2, 0, 0, 0, 2, 0] ++ oneByteRecord), fun _ => true⟩ =
        (.ok session.reader, session.file) ∧
      pcapFopenOffline 0 ⟨swapSavefile .asIs (ethernetHeader ++
          ([7, 0, 0, 0, 9, 0, 0, 0, 0, 0, 2, 0, 0, 0, 2, 0] ++ oneByteRecord)), fun _ => true⟩ =
        (.ok session'.reader, session'.file) ∧
      session.reader.handle.linktype = dltEn10mb ∧
      session.next.1 = .error (.error "bogus savefile header") ∧
      session'.next.1 = .error (.error "bogus savefile header") ∧
      session.next.2.next.1 = .ok (some (⟨⟨7, 9⟩, 1, 1⟩, [0xaa])) ∧
      session'.next.2.next.1 = .error (.error "bogus savefile header") :=
  ⟨⟨_, _, ⟨0⟩⟩, ⟨_, _, ⟨0⟩⟩, rfl, rfl, rfl, rfl, rfl, rfl, rfl⟩

end Libpcap.Savefile
