/-
# The byte order of a pcap-ng file

A pcap-ng file in the other byte order has the fields of every block header, of the
fixed part of every block and of every option header reversed, and those option
values that are numbers; the captured bytes stay. Two readers, one of the file and
one of the file in the other byte order, go through it in step: after each block
they have the same buffer and the same interface table, their cursors are at the same
place, and they have found the same packet, until one of the calls fails, and then
both do.
-/

import Libpcap.Savefile.ByteOrder

namespace Libpcap.Savefile

open Libpcap.Semantics Libpcap.Gencode List

variable {blockType : BitVec 32} {widths : List Nat}

/-! ## The file in the other byte order -/

/-- What is done to the parts of a file that the reader passes over: the values of the
options it does not know, and the rest of a block, given its type and all its contents.
The lengths stay. -/
structure Skipped where
  option : BitVec 16 → List Byte → List Byte
  rest : BitVec 32 → List Byte → List Byte → List Byte
  length_option : ∀ code value, (option code value).length = value.length
  length_rest : ∀ blockType contents bytes, (rest blockType contents bytes).length = bytes.length

def optionHeader (swapped : Bool) (raw : List Byte) : OptionHeader :=
  ⟨fileShort swapped 0 raw, fileShort swapped 2 raw⟩

section Swap

variable (swapped : Bool) (skipped : Skipped)

/-- The value of an option of an interface block. -/
def swapOptionValue (opthdr : OptionHeader) (value : List Byte) : List Byte :=
  if opthdr.optionCode = ifTsoffset then reverseWhole [8] value
  else if opthdr.optionCode = ifTsresol then value
  else skipped.option opthdr.optionCode value

/-- The options of an interface block. -/
def swapOptions : Reframing where
  size := 4
  bodySize := fun raw => paddedOptionLen (optionHeader swapped raw)
  header := reverseWhole [2, 2]
  body := fun raw value => swapOptionValue skipped (optionHeader swapped raw) value
  size_pos := by decide
  length_header := length_reverseWhole _
  length_body := by
    intro raw value
    unfold swapOptionValue
    split
    · exact length_reverseWhole _ value
    · split
      · rfl
      · exact skipped.length_option _ value

/-- The fixed part of a block and what follows it. -/
def swapFixed (widths : List Nat) (behind : List Byte → List Byte) (contents : List Byte) :
    List Byte :=
  reverseWhole widths (contents.take widths.sum) ++ behind (contents.drop widths.sum)

/-- The first bytes stay, the others are passed over by the reader. -/
def keepFirst (blockType : BitVec 32) (contents : List Byte) (n : Nat) (bytes : List Byte) :
    List Byte :=
  bytes.take n ++ skipped.rest blockType contents (bytes.drop n)

/-- The contents of a block: what follows its header, with the trailer. -/
def swapContents (blockType : BitVec 32) (contents : List Byte) : List Byte :=
  if blockType = btEpb then
    swapFixed [4, 4, 4, 4, 4]
      (keepFirst skipped blockType contents (fileLong swapped 12 contents).toNat) contents
  else if blockType = btSpb then
    swapFixed [4] (keepFirst skipped blockType contents (contents.length - 8)) contents
  else if blockType = btPb then
    swapFixed [2, 2, 4, 4, 4, 4]
      (keepFirst skipped blockType contents (fileLong swapped 12 contents).toNat) contents
  else if blockType = btIdb then
    swapFixed [2, 2, 4]
      (fun behind => (swapOptions swapped skipped).apply (behind.take (behind.length - 4)) ++
        skipped.rest blockType contents (behind.drop (behind.length - 4))) contents
  else if blockType = btShb then
    swapFixed [4, 2, 2, 8] (skipped.rest blockType contents) contents
  else
    skipped.rest blockType contents contents

theorem length_swapFixed {behind : List Byte → List Byte}
    (keeps : ∀ bytes, (behind bytes).length = bytes.length) (contents : List Byte) :
    (swapFixed widths behind contents).length = contents.length := by
  rw [swapFixed, length_append, length_reverseWhole, keeps, ← length_append, take_append_drop]

theorem length_keepFirst (blockType : BitVec 32) (contents : List Byte) (n : Nat)
    (bytes : List Byte) :
    (keepFirst skipped blockType contents n bytes).length = bytes.length := by
  rw [keepFirst, length_append, skipped.length_rest, ← length_append, take_append_drop]

theorem length_swapContents (blockType : BitVec 32) (contents : List Byte) :
    (swapContents swapped skipped blockType contents).length = contents.length := by
  unfold swapContents
  split_ifs
  · exact length_swapFixed (length_keepFirst skipped _ _ _) contents
  · exact length_swapFixed (length_keepFirst skipped _ _ _) contents
  · exact length_swapFixed (length_keepFirst skipped _ _ _) contents
  · refine length_swapFixed (fun bytes => ?_) contents
    rw [length_append, Reframing.length_apply, skipped.length_rest, ← length_append,
      take_append_drop]
  · exact length_swapFixed (skipped.length_rest _ _) contents
  · exact skipped.length_rest _ _ contents

/-- The blocks of a file. -/
def swapBlocks : Reframing where
  size := blockHeaderSize
  bodySize := fun bhdr => (fileLong swapped 4 bhdr).toNat - blockHeaderSize
  header := reverseWhole [4, 4]
  body := fun bhdr contents => swapContents swapped skipped (fileLong swapped 0 bhdr) contents
  size_pos := by decide
  length_header := length_reverseWhole _
  length_body := fun _ contents => length_swapContents swapped skipped _ contents

/-- What follows the byte-order magic of the first section header, of the given length. -/
def swapSection (totalLength : Nat) (behind : List Byte) : List Byte :=
  let shb := behind.take (totalLength - 12)
  swapFixed [2, 2, 8] (skipped.rest btShb shb) shb ++
    (swapBlocks swapped skipped).apply (behind.drop (totalLength - 12))

/-- A pcap-ng file in the other byte order. The open routine reads the type, the length
and the byte-order magic of the first block before it knows the byte order. -/
def swapNgFile (stream : List Byte) : List Byte :=
  (stream.take 4).reverse ++ ((field 4 4 stream).reverse ++ ((field 8 4 stream).reverse ++
    swapSection swapped skipped (fileLong swapped 0 (field 4 4 stream)).toNat (stream.drop 12)))

end Swap

/-! ## Two readers -/

/-- The handle of the same file in the other byte order. -/
def NgSf.flip (p : NgSf) : NgSf := { p with swapped := !p.swapped }

/-- The states of two readers that agree on all but the unread bytes and the block that
was read last. -/
structure Alike (unread unread' : List Byte) (s s' : File × NgState) : Prop where
  unread : s.1.unread = unread
  unread' : s'.1.unread = unread'
  heap : s'.1.heap = s.1.heap
  buffer : s'.2.buffer = s.2.buffer
  table : s'.2.table = s.2.table

/-- The cursors are at the same place of blocks of the same type and length. -/
structure SamePlace (state state' : NgState) : Prop where
  data : state'.cursor.data = state.cursor.data
  remaining : state'.cursor.dataRemaining = state.cursor.dataRemaining
  blockType : state'.cursor.blockType = state.cursor.blockType
  length : state'.cursor.contents.length = state.cursor.contents.length

theorem SamePlace.advance {state state' : NgState} (same : SamePlace state state') (n : Nat) :
    SamePlace (state.advance n) (state'.advance n) := by
  refine ⟨?_, ?_, same.blockType, same.length⟩
  · simp only [NgState.advance, same.data]
  · simp only [NgState.advance, same.remaining]

section Primitives

variable {unread unread' : List Byte} {file file' : File} {state state' : NgState}
  (alike : Alike unread unread' (file, state) (file', state')) (same : SamePlace state state')

include alike in
theorem Alike.advance (n : Nat) :
    Alike unread unread' (file, state.advance n) (file', state'.advance n) :=
  { alike with }

include alike same in
theorem mayRead_iff (pointer n : Nat) : state'.MayRead pointer n ↔ state.MayRead pointer n := by
  have buffer : state'.buffer = state.buffer := alike.buffer
  unfold NgState.MayRead
  rw [same.length, buffer]

include same in
theorem getFromBlockData_coupled (n : Nat) :
    Coupled (exec (getFromBlockData n) (file, state)) (exec (getFromBlockData n) (file', state'))
      (fun pointer s pointer' s' => n ≤ state.cursor.dataRemaining ∧
        pointer = state.cursor.data ∧ pointer' = state.cursor.data ∧
        s = (file, state.advance n) ∧ s' = (file', state'.advance n)) := by
  simp only [getFromBlockData, exec_bind, exec_own, andThen_ok, exec_ite, exec_fail, exec_pure,
    exec_update, same.remaining, same.blockType]
  split
  · rfl
  · rename_i enough
    refine ⟨by omega, rfl, same.data, rfl, ?_⟩
    simp only [NgState.advance, same.remaining, same.blockType]

include alike same in
theorem load_coupled (pointer n : Nat) :
    Coupled (exec (load pointer n) (file, state)) (exec (load pointer n) (file', state'))
      (fun raw s raw' s' => pointer + n + blockTrailerSize ≤ state.cursor.contents.length ∧
        raw = field pointer n state.cursor.contents ∧
        raw' = field pointer n state'.cursor.contents ∧
        s = (file, state) ∧ s' = (file', state')) := by
  simp only [load, exec_bind, exec_own, andThen_ok, exec_ite, exec_throw, exec_pure,
    mayRead_iff alike same]
  split
  · rename_i may
    exact ⟨may.1, rfl, rfl, rfl, rfl⟩
  · rfl

include alike same in
theorem fixedPart_coupled (n : Nat) :
    Coupled (exec (fixedPart n) (file, state)) (exec (fixedPart n) (file', state'))
      (fun raw s raw' s' => n ≤ state.cursor.dataRemaining ∧
        state.cursor.data + n + blockTrailerSize ≤ state.cursor.contents.length ∧
        raw = field state.cursor.data n state.cursor.contents ∧
        raw' = field state.cursor.data n state'.cursor.contents ∧
        s = (file, state.advance n) ∧ s' = (file', state'.advance n)) := by
  refine (getFromBlockData_coupled same n).bind ?_
  rintro _ _ _ _ ⟨within, rfl, rfl, rfl, rfl⟩
  refine (load_coupled (alike.advance n) (same.advance n) state.cursor.data n).mono ?_
  rintro _ _ _ _ ⟨inside, rfl, rfl, rfl, rfl⟩
  exact ⟨within, inside, rfl, rfl, rfl, rfl⟩

include alike

theorem readBytes_coupled (length : unread'.length = unread.length) (n : Nat) (failOnEof : Bool) :
    Coupled (exec (readBytes n failOnEof) (file, state))
      (exec (readBytes n failOnEof) (file', state'))
      (fun bytes s bytes' s' =>
        Alike (unread.drop n) (unread'.drop n) s s' ∧ s.2 = state ∧ s'.2 = state' ∧
        ((n ≤ unread.length ∧ bytes = some (unread.take n) ∧ bytes' = some (unread'.take n)) ∨
          (unread = [] ∧ failOnEof = false ∧ bytes = none ∧ bytes' = none))) := by
  obtain ⟨rfl, rfl, heap, buffer, table⟩ := alike
  have lengths : (file'.unread.take n).length = (file.unread.take n).length := by
    rw [length_take, length_take, length]
  simp only [readBytes, exec_bind, exec_fread, andThen_ok, exec_ite, exec_fail, exec_pure, lengths]
  split
  · rename_i short
    split
    · rename_i atEnd
      refine ⟨⟨rfl, rfl, heap, buffer, table⟩, rfl, rfl, .inr ⟨?_, atEnd.2, rfl, rfl⟩⟩
      rw [length_take] at short atEnd
      exact length_eq_zero_iff.mp (by omega)
    · rfl
  · rename_i whole
    refine ⟨⟨rfl, rfl, heap, buffer, table⟩, rfl, rfl, .inl ⟨?_, rfl, rfl⟩⟩
    rw [length_take] at whole
    omega

theorem growBuffer_coupled (p : NgSf) (totalLength : Nat) :
    Abreast (growBuffer p totalLength) (growBuffer p.flip totalLength) (file, state)
      (file', state') fun _ => Alike unread unread' := by
  have sizes : p.flip.bufsize = p.bufsize := rfl
  have heap : file'.heap = file.heap := alike.heap
  simp only [Abreast, growBuffer, sizes, exec_ite, exec_bind, exec_malloc, andThen_ok, exec_update,
    exec_fail, exec_pure, heap]
  split
  · split
    · exact ⟨trivial, { alike with heap := rfl, buffer := rfl }⟩
    · rfl
  · exact ⟨trivial, alike⟩

theorem storeBlock_coupled (totalLength : Nat) :
    Coupled (exec (storeBlock totalLength) (file, state))
      (exec (storeBlock totalLength) (file', state'))
      (fun _ s _ s' => s = (file, state) ∧ s' = (file', state')) := by
  have buffer : state'.buffer = state.buffer := alike.buffer
  simp only [storeBlock, exec_bind, exec_own, andThen_ok, buffer]
  cases state.buffer with
  | none => rfl
  | some size =>
    simp only [exec_ite, exec_throw, exec_pure]
    split
    · rfl
    · exact ⟨rfl, rfl⟩

end Primitives

/-! ## Blocks -/

section Blocks

variable (swapped : Bool) (skipped : Skipped)

/-- Between two blocks. -/
def Between (s s' : File × NgState) : Prop :=
  Alike s.1.unread ((swapBlocks swapped skipped).apply s.1.unread) s s'

/-- A block has been read, and nothing of it has been looked at. -/
structure Loaded (s s' : File × NgState) : Prop where
  between : Between swapped skipped s s'
  place : SamePlace s.2 s'.2
  data : s.2.cursor.data = 0
  length : s.2.cursor.contents.length = s.2.cursor.dataRemaining + blockTrailerSize
  contents : s'.2.cursor.contents =
    swapContents swapped skipped s.2.cursor.blockType s.2.cursor.contents

variable {swapped skipped}

theorem readContents_coupled {p : NgSf} {totalLength : Nat} {s s' : File × NgState}
    {unread unread' : List Byte} (alike : Alike unread unread' s s')
    (length : unread'.length = unread.length)
    (least : blockHeaderSize + blockTrailerSize ≤ totalLength) (taken : unread'.take (totalLength -
      blockHeaderSize) = swapContents swapped skipped blockType (unread.take (totalLength -
      blockHeaderSize))) (after : unread'.drop (totalLength - blockHeaderSize) = (swapBlocks swapped
      skipped).apply (unread.drop (totalLength - blockHeaderSize))) :
    Coupled (exec (readContents p blockType totalLength) s)
      (exec (readContents p.flip blockType totalLength) s')
      (fun _ t _ t' => Loaded swapped skipped t t') := by
  obtain ⟨file, state⟩ := s
  obtain ⟨file', state'⟩ := s'
  refine (growBuffer_coupled alike p totalLength).bind ?_
  rintro _ ⟨file, state⟩ ⟨file', state'⟩ alike
  refine (storeBlock_coupled alike totalLength).bind ?_
  rintro _ _ _ _ ⟨rfl, rfl⟩
  refine (readBytes_coupled alike length (totalLength - blockHeaderSize) true).bind ?_
  rintro _ ⟨file₁, _⟩ _ ⟨file₁', _⟩ ⟨alike₁, rfl, rfl, ⟨whole, rfl, rfl⟩ | ⟨_, impossible, _⟩⟩
  · refine ⟨⟨rfl, ?_, alike₁.heap, alike₁.buffer, alike₁.table⟩, ⟨rfl, rfl, rfl, ?_⟩, rfl, ?_, ?_⟩
    · exact alike₁.unread'.trans (after.trans (congrArg _ alike₁.unread.symm))
    · simp only [Option.getD_some, length_take, length]
    · simp only [Option.getD_some, length_take]
      omega
    · exact taken
  · cases impossible

end Blocks

section Fields

variable (p : NgSf) {record : List Byte} {offset : Nat} (whole : widths.sum ≤ record.length)
include whole

theorem NgSf.short_flip (place : fieldAt widths offset 2 = true) :
    p.flip.short offset (reverseWhole widths record) = p.short offset record :=
  fileShort_not whole p.swapped place

theorem NgSf.long_flip (place : fieldAt widths offset 4 = true) :
    p.flip.long offset (reverseWhole widths record) = p.long offset record :=
  fileLong_not whole p.swapped place

theorem NgSf.longlong_flip (place : fieldAt widths offset 8 = true) :
    p.flip.longlong offset (reverseWhole widths record) = p.longlong offset record :=
  fileLonglong_not whole p.swapped place

end Fields

section Reading

variable {p : NgSf} {skipped : Skipped} {s s' : File × NgState}

/-- **One block.** Both readers come to the same block, to the end of the file, or to the
same error. -/
theorem readBlock_coupled (between : Between p.swapped skipped s s') :
    Abreast (readBlock p) (readBlock p.flip) s s' fun more t t' => Between p.swapped skipped t t' ∧
      (more = true → Loaded p.swapped skipped t t') := by
  obtain ⟨file, state⟩ := s
  obtain ⟨file', state'⟩ := s'
  have length : ((swapBlocks p.swapped skipped).apply file.unread).length = file.unread.length :=
    (swapBlocks p.swapped skipped).length_apply file.unread
  obtain ⟨header, -⟩ := (swapBlocks p.swapped skipped).apply_parts file.unread
  obtain ⟨body, rest⟩ := (swapBlocks p.swapped skipped).apply_body file.unread
  refine (readBytes_coupled between length blockHeaderSize false).bind ?_
  rintro _ t _ t' ⟨alike, kept, kept', ⟨whole, rfl, rfl⟩ | ⟨atEnd, _, rfl, rfl⟩⟩
  · have first : ((swapBlocks p.swapped skipped).apply file.unread).take blockHeaderSize =
        reverseWhole [4, 4] (file.unread.take blockHeaderSize) := header
    have fits : sum [4, 4] ≤ (file.unread.take blockHeaderSize).length := by
      rw [length_take]
      exact Nat.le_min.mpr ⟨Nat.le_refl 8, whole⟩
    simp (disch := decide) only [first, p.long_flip fits, exec_ite, exec_fail]
    split
    · rfl
    split
    · rfl
    rename_i least
    refine Coupled.bind (readContents_coupled alike ?_ (not_lt.mp least) body ?_) ?_
    · simp only [length_drop, length]
    · refine rest.trans (congrArg _ ?_)
      exact (drop_drop ..).symm
    · rintro _ t₁ _ t₁' loaded
      exact ⟨rfl, loaded.between, fun _ => loaded⟩
  · refine ⟨rfl, ⟨rfl, ?_, alike.heap, alike.buffer, alike.table⟩, by simp⟩
    have left := alike.unread
    have left' := alike.unread'
    rw [atEnd] at left left'
    rw [left', left]
    rfl

/-- The fixed part of a block that was just read. -/
theorem Loaded.fixedPart (loaded : Loaded p.swapped skipped s s') (widths : List Nat)
    {behind : List Byte → List Byte}
    (contents : swapContents p.swapped skipped s.2.cursor.blockType s.2.cursor.contents =
      swapFixed widths behind s.2.cursor.contents) :
    Coupled (exec (fixedPart widths.sum) s) (exec (fixedPart widths.sum) s')
      (fun raw t raw' t' => widths.sum ≤ raw.length ∧
        raw = s.2.cursor.contents.take widths.sum ∧ raw' = reverseWhole widths raw ∧
        widths.sum ≤ s.2.cursor.dataRemaining ∧
        t = (s.1, s.2.advance widths.sum) ∧ t' = (s'.1, s'.2.advance widths.sum) ∧
        s'.2.cursor.contents.drop widths.sum = behind (s.2.cursor.contents.drop widths.sum)) := by
  obtain ⟨file, state⟩ := s
  obtain ⟨file', state'⟩ := s'
  refine (fixedPart_coupled loaded.between loaded.place widths.sum).mono ?_
  rintro _ _ _ _ ⟨within, inside, rfl, rfl, rfl, rfl⟩
  have start : state.cursor.data = 0 := loaded.data
  have whole : widths.sum ≤ state.cursor.contents.length := by omega
  have swapped : state'.cursor.contents =
      reverseWhole widths (state.cursor.contents.take widths.sum) ++
        behind (state.cursor.contents.drop widths.sum) := loaded.contents.trans contents
  have size : (reverseWhole widths (state.cursor.contents.take widths.sum)).length =
      widths.sum := by
    rw [length_reverseWhole, length_take_of_le whole]
  obtain ⟨front, rest⟩ := Reframing.take_drop_append _
    (behind (state.cursor.contents.drop widths.sum)) (Nat.le_of_eq size) (.inl size)
  rw [start]
  refine ⟨?_, rfl, ?_, within, rfl, rfl, ?_⟩
  · rw [length_field (by omega)]
  · rw [swapped]
    exact front
  · simp only [swapped]
    exact rest

end Reading

/-! ## Packet blocks -/

/-- A packet has been found, and its captured bytes come next. -/
structure Delivers (swapped : Bool) (skipped : Skipped) (found : Found) (s s' : File × NgState) :
    Prop where
  between : Between swapped skipped s s'
  place : SamePlace s.2 s'.2
  captured : s.2.cursor.data + found.caplen.toNat + blockTrailerSize ≤
      s.2.cursor.contents.length →
    field s.2.cursor.data found.caplen.toNat s'.2.cursor.contents =
      field s.2.cursor.data found.caplen.toNat s.2.cursor.contents

section Packets

variable {p : NgSf} {skipped : Skipped} {s s' : File × NgState}

theorem field_keepFirst {contents contents' all : List Byte} {offset m n : Nat}
    (kept : contents'.drop offset = keepFirst skipped blockType all n (contents.drop offset))
    (fewer : m ≤ n) (inside : offset + m ≤ contents.length) :
    field offset m contents' = field offset m contents := by
  rw [field, kept, keepFirst, take_append_of_le_length, take_take, Nat.min_eq_left fewer, field]
  rw [length_take, length_drop]
  omega

section

variable (loaded : Loaded p.swapped skipped s s')
include loaded

/-- What the fixed part of a packet block leaves behind. -/
theorem Loaded.delivers {all : List Byte} {n : Nat}
    {found : Found}
    (fits : found.caplen.toNat ≤ n ∨ s.2.cursor.dataRemaining < widths.sum + found.caplen.toNat)
      (kept : s'.2.cursor.contents.drop widths.sum = keepFirst skipped blockType all n
      (s.2.cursor.contents.drop widths.sum)) :
    Delivers p.swapped skipped found (s.1, s.2.advance widths.sum)
      (s'.1, s'.2.advance widths.sum) := by
  refine ⟨loaded.between.advance _, loaded.place.advance _, ?_⟩
  intro inside
  have start : s.2.cursor.data = 0 := loaded.data
  have length := loaded.length
  simp only [NgState.advance, start, Nat.zero_add] at inside ⊢
  apply field_keepFirst kept
  · rcases fits with few | many
    · exact few
    · omega
  · omega

omit loaded in
theorem NgSf.long_take (p : NgSf) {offset k : Nat} (record : List Byte)
    (inside : offset + 4 ≤ k) : p.long offset (record.take k) = p.long offset record := by
  unfold Pcap.long Savefile.long word
  rw [field_take record inside]

theorem epb_coupled (isEpb : s.2.cursor.blockType = btEpb) :
    Abreast (epb p) (epb p.flip) s s' (Delivers p.swapped skipped) := by
  refine (loaded.fixedPart [4, 4, 4, 4, 4] (by rw [isEpb]; rfl)).bind ?_
  rintro raw _ _ _ ⟨whole, isRaw, rfl, _, rfl, rfl, kept⟩
  simp (disch := decide) only [exec_pure, p.long_flip whole]
  refine ⟨rfl, loaded.delivers (.inl (Nat.le_of_eq ?_)) kept⟩
  rw [isRaw]
  exact congrArg _ (p.long_take _ (by decide))

theorem pb_coupled (isPb : s.2.cursor.blockType = btPb) :
    Abreast (pb p) (pb p.flip) s s' (Delivers p.swapped skipped) := by
  refine (loaded.fixedPart [2, 2, 4, 4, 4, 4] (by rw [isPb]; rfl)).bind ?_
  rintro raw _ _ _ ⟨whole, isRaw, rfl, _, rfl, rfl, kept⟩
  simp (disch := decide) only [exec_pure, p.short_flip whole, p.long_flip whole]
  refine ⟨rfl, loaded.delivers (.inl (Nat.le_of_eq ?_)) kept⟩
  rw [isRaw]
  exact congrArg _ (p.long_take _ (by decide))

theorem spb_coupled (isSpb : s.2.cursor.blockType = btSpb) :
    Abreast (spb p) (spb p.flip) s s' (Delivers p.swapped skipped) := by
  refine (loaded.fixedPart [4] (by rw [isSpb]; rfl)).bind ?_
  rintro raw _ _ _ ⟨whole, isRaw, rfl, _, rfl, rfl, kept⟩
  have snapshot : p.flip.snapshot = p.snapshot := rfl
  simp (disch := decide) only [exec_pure, p.long_flip whole, snapshot]
  refine ⟨rfl, loaded.delivers ?_ kept⟩
  have length := loaded.length
  simp only [blockTrailerSize] at length
  simp only [sum_cons, sum_nil]
  omega

end

theorem deliverFound_coupled {found : Found}
    (plain : p.linktype ≠ dltUsbLinux ∧ p.linktype ≠ dltUsbLinuxMmapped)
    (delivers : Delivers p.swapped skipped found s s') :
    Abreast (deliverFound p found) (deliverFound p.flip found) s s'
      fun _ => Between p.swapped skipped := by
  obtain ⟨file, state⟩ := s
  obtain ⟨file', state'⟩ := s'
  have table : state'.table = state.table := delivers.between.table
  have toHost : ∀ caplen data, p.toHost caplen data = data :=
    fun caplen data => Pcap.toHost_eq fun _ => plain
  have toHost' : ∀ caplen data, p.flip.toHost caplen data = data :=
    fun caplen data => Pcap.toHost_eq fun _ => plain
  have user : p.flip.userTsresol = p.userTsresol := rfl
  simp only [Abreast, deliverFound, ifaceAt, exec_bind, exec_own, andThen_ok, exec_ite, exec_fail, table,
    toHost, toHost', user]
  split
  · rfl
  cases state.table.entry found.interfaceId.toNat with
  | none => rfl
  | some entry =>
    simp only [exec_pure, andThen_ok, exec_ite, exec_throw]
    split
    · rfl
    refine (fixedPart_coupled delivers.between delivers.place found.caplen.toNat).bind ?_
    rintro _ _ _ _ ⟨_, inside, rfl, rfl, rfl, rfl⟩
    refine ⟨?_, delivers.between.advance _⟩
    rw [delivers.captured inside]

end Packets

/-! ## Options -/

/-- The cursors are in front of an option of an interface block, or at the end of the
options. -/
structure InOptions (swapped : Bool) (skipped : Skipped) (state state' : NgState) : Prop where
  place : SamePlace state state'
  inside : state.cursor.data + state.cursor.dataRemaining + blockTrailerSize ≤
    state.cursor.contents.length
  options : field state.cursor.data state.cursor.dataRemaining state'.cursor.contents =
    (swapOptions swapped skipped).apply
      (field state.cursor.data state.cursor.dataRemaining state.cursor.contents)

section Options

variable {p : NgSf} {skipped : Skipped} {unread unread' : List Byte} {file file' : File}
  {state state' : NgState} (alike : Alike unread unread' (file, state) (file', state'))
include alike

/-- **One option.** Both readers find the same header and values of the same length, and
the value that one of them has found is that of the other with its fields reversed. -/
theorem getOption_coupled (inOptions : InOptions p.swapped skipped state state') :
    Coupled (exec (getOption p) (file, state)) (exec (getOption p.flip) (file', state'))
      (fun option t option' t' => option' = option ∧
        ∃ n, t = (file, state.advance n) ∧ t' = (file', state'.advance n) ∧
          InOptions p.swapped skipped (state.advance n) (state'.advance n) ∧
          field option.2 (paddedOptionLen option.1) state'.cursor.contents =
            swapOptionValue skipped option.1
              (field option.2 (paddedOptionLen option.1) state.cursor.contents)) := by
  obtain ⟨place, inside, options⟩ := inOptions
  obtain ⟨header, -⟩ := (swapOptions p.swapped skipped).apply_parts
    (field state.cursor.data state.cursor.dataRemaining state.cursor.contents)
  obtain ⟨body, rest⟩ := (swapOptions p.swapped skipped).apply_body
    (field state.cursor.data state.cursor.dataRemaining state.cursor.contents)
  rw [← options] at header body rest
  have headers : Coupled (exec (getOpthdrFromBlockData p) (file, state))
      (exec (getOpthdrFromBlockData p.flip) (file', state'))
      (fun opthdr t opthdr' t' => opthdr' = opthdr ∧ 4 ≤ state.cursor.dataRemaining ∧
        opthdr = optionHeader p.swapped (field state.cursor.data 4 state.cursor.contents) ∧
        t = (file, state.advance 4) ∧ t' = (file', state'.advance 4)) := by
    refine (fixedPart_coupled alike place 4).bind ?_
    rintro _ _ _ _ ⟨within, _, rfl, rfl, rfl, rfl⟩
    have raw : field state.cursor.data 4 state'.cursor.contents =
        reverseWhole [2, 2] (field state.cursor.data 4 state.cursor.contents) := by
      rw [← take_field state'.cursor.contents within, ← take_field state.cursor.contents within]
      exact header
    have whole : sum [2, 2] ≤ (field state.cursor.data 4 state.cursor.contents).length := by
      rw [length_field (by omega)]
      decide
    simp (disch := decide) only [raw, p.short_flip whole]
    exact ⟨rfl, within, rfl, rfl, rfl⟩
  refine headers.bind ?_
  rintro _ _ opthdr _ ⟨rfl, within, isHeader, rfl, rfl⟩
  refine (getFromBlockData_coupled (place.advance 4) (paddedOptionLen opthdr)).bind ?_
  rintro pointer _ _ _ ⟨within', rfl, rfl, rfl, rfl⟩
  have first : (swapOptions p.swapped skipped).first
      (field state.cursor.data state.cursor.dataRemaining state.cursor.contents) =
        field state.cursor.data 4 state.cursor.contents := take_field _ within
  have size : (swapOptions p.swapped skipped).bodySize
      (field state.cursor.data 4 state.cursor.contents) = paddedOptionLen opthdr := by
    rw [isHeader]
    rfl
  have remaining : paddedOptionLen opthdr ≤ state.cursor.dataRemaining - 4 := within'
  have four : (swapOptions p.swapped skipped).size = 4 := rfl
  rw [first, size, four, drop_field, take_field _ remaining, Reframing.firstBody, first, size, four]
    at body
  rw [first, size, four, drop_field, drop_field, Reframing.next, first, size, four, drop_field]
    at rest
  refine ⟨rfl, 4 + paddedOptionLen opthdr, ?_, ?_, ⟨place.advance _, ?_, ?_⟩, ?_⟩
  · rw [NgState.advance_advance]
  · rw [NgState.advance_advance]
  · simp only [NgState.advance]
    omega
  · simp only [NgState.advance]
    rw [Nat.add_assoc, Nat.sub_sub] at rest
    exact rest
  · have value : field 4 (paddedOptionLen opthdr)
        (field state.cursor.data state.cursor.dataRemaining state.cursor.contents) =
          field (state.cursor.data + 4) (paddedOptionLen opthdr) state.cursor.contents := by
      rw [field, drop_field, take_field _ remaining]
    rw [value] at body
    refine body.trans ?_
    rw [isHeader]
    rfl

theorem ifTsresolOption_coupled {opthdr : OptionHeader} {optvalue : Nat} (seen : IdbOptions)
    (place : SamePlace state state')
    (value : opthdr.optionLength = 1 →
      field optvalue 4 state'.cursor.contents = field optvalue 4 state.cursor.contents) :
    Abreast (ifTsresolOption opthdr optvalue seen) (ifTsresolOption opthdr optvalue seen)
      (file, state) (file', state') fun _ t t' => t = (file, state) ∧ t' = (file', state') := by
  simp only [Abreast, ifTsresolOption, exec_ite, exec_fail]
  split
  · rfl
  rename_i length
  split
  · rfl
  refine (load_coupled alike place optvalue 4).bind ?_
  rintro _ _ _ _ ⟨_, rfl, rfl, rfl, rfl⟩
  rw [value (not_not.mp length), exec_ite, exec_ite]
  split
  · rfl
  · exact ⟨rfl, rfl, rfl⟩

theorem ifTsoffsetOption_coupled {opthdr : OptionHeader} {optvalue : Nat} (seen : IdbOptions)
    (place : SamePlace state state')
    (value : opthdr.optionLength = 8 → field optvalue 8 state'.cursor.contents =
      reverseWhole [8] (field optvalue 8 state.cursor.contents)) :
    Abreast (ifTsoffsetOption p opthdr optvalue seen) (ifTsoffsetOption p.flip opthdr optvalue seen)
      (file, state) (file', state') fun _ t t' => t = (file, state) ∧ t' = (file', state') := by
  simp only [Abreast, ifTsoffsetOption, exec_ite, exec_fail]
  split
  · rfl
  rename_i length
  split
  · rfl
  refine (load_coupled alike place optvalue 8).bind ?_
  rintro _ _ _ _ ⟨inside, rfl, rfl, rfl, rfl⟩
  have whole : sum [8] ≤ (field optvalue 8 state.cursor.contents).length := by
    rw [length_field (by omega)]
    decide
  simp (disch := decide) only [value (not_not.mp length), p.longlong_flip whole]
  exact ⟨rfl, rfl, rfl⟩

/-- **All options.** Both readers learn the same of an interface. -/
theorem idbOptions_coupled (iterations : Nat) (seen : IdbOptions)
    (inOptions : InOptions p.swapped skipped state state') :
    Abreast (idbOptions p iterations seen) (idbOptions p.flip iterations seen) (file, state)
      (file', state') fun _ => Alike unread unread' := by
  induction iterations generalizing seen state state' with
  | zero => rfl
  | succ iterations ih =>
    have remaining : state'.cursor.dataRemaining = state.cursor.dataRemaining :=
      inOptions.place.remaining
    simp only [Abreast, idbOptions, exec_own_bind, exec_ite, remaining]
    split
    · exact ⟨rfl, alike⟩
    refine (getOption_coupled alike inOptions).bind ?_
    rintro _ _ ⟨opthdr, optvalue⟩ _ ⟨rfl, n, rfl, rfl, inOptions', value⟩
    have alike' := alike.advance n
    simp only [exec_ite, exec_fail, exec_pure]
    split
    · split
      · rfl
      · exact ⟨rfl, alike'⟩
    split
    · rename_i isTsresol
      refine (ifTsresolOption_coupled alike' seen inOptions'.place ?_).bind ?_
      · intro length
        have padded : paddedOptionLen opthdr = 4 := by
          rw [paddedOptionLen, length]
          rfl
        simp only [swapOptionValue, padded, isTsresol] at value
        exact value
      · rintro seen' _ _ ⟨rfl, rfl⟩
        exact ih alike' seen' inOptions'
    split
    · rename_i isTsoffset
      refine (ifTsoffsetOption_coupled alike' seen inOptions'.place ?_).bind ?_
      · intro length
        have padded : paddedOptionLen opthdr = 8 := by
          rw [paddedOptionLen, length]
          rfl
        simp only [swapOptionValue, padded, isTsoffset] at value
        exact value
      · rintro seen' _ _ ⟨rfl, rfl⟩
        exact ih alike' seen' inOptions'
    · exact ih alike' seen inOptions'

omit alike in
theorem InOptions.congr {next next' : NgState} (inOptions : InOptions p.swapped skipped state state')
    (cursor : next.cursor = state.cursor) (cursor' : next'.cursor = state'.cursor) :
    InOptions p.swapped skipped next next' := by
  obtain ⟨⟨data, remaining, blockType, length⟩, inside, options⟩ := inOptions
  refine ⟨⟨?_, ?_, ?_, ?_⟩, ?_, ?_⟩ <;> rw [cursor] <;> try rw [cursor']
  all_goals assumption

theorem growIfaces_coupled :
    Abreast growIfaces growIfaces (file, state) (file', state') fun _ t t' =>
      Alike unread unread' t t' ∧ t.2.cursor = state.cursor ∧ t'.2.cursor = state'.cursor := by
  have table : state'.table = state.table := alike.table
  have heap : file'.heap = file.heap := alike.heap
  simp only [Abreast, growIfaces, exec_bind, exec_own, andThen_ok, exec_ite, exec_malloc,
    exec_updateTable, exec_fail, exec_pure, table, heap]
  split
  · split
    · rfl
    · exact ⟨trivial, { alike with heap := rfl, table := rfl }, rfl, rfl⟩
  · exact ⟨trivial, alike, rfl, rfl⟩

theorem setIface_coupled (i : Nat) (entry : NgIf) :
    Abreast (setIface i entry) (setIface i entry) (file, state) (file', state')
      fun _ => Alike unread unread' := by
  have table : state'.table = state.table := alike.table
  simp only [Abreast, setIface, exec_own_bind, exec_ite, exec_updateTable, exec_throw, table]
  split
  · exact ⟨trivial, { alike with table := rfl }⟩
  · rfl

/-- Both readers add the same interface to the table. -/
theorem addInterface_coupled (inOptions : InOptions p.swapped skipped state state') :
    Abreast (addInterface p) (addInterface p.flip) (file, state) (file', state')
      fun _ => Alike unread unread' := by
  have table : state'.table = state.table := alike.table
  have counted : Alike unread unread'
      (file, { state with table := state.table.countOne })
      (file', { state' with table := state.table.countOne }) :=
    { alike with table := rfl }
  simp only [Abreast, addInterface, exec_bind, exec_own, andThen_ok, exec_updateTable, table]
  rw [← exec_bind, ← exec_bind]
  refine (growIfaces_coupled counted).bind ?_
  rintro _ ⟨file₁, state₁⟩ ⟨file₁', state₁'⟩ ⟨alike₁, cursor, cursor'⟩
  have inOptions₁ := inOptions.congr cursor cursor'
  have iterations : state₁'.cursor.dataRemaining = state₁.cursor.dataRemaining :=
    inOptions₁.place.remaining
  have options : Abreast (processIdbOptions p) (processIdbOptions p.flip) (file₁, state₁)
      (file₁', state₁') fun _ => Alike unread unread' := by
    simp only [Abreast, processIdbOptions, exec_own_bind, iterations]
    exact (idbOptions_coupled alike₁ _ .default inOptions₁).bind fun _ _ _ alike₂ => ⟨rfl, alike₂⟩
  refine options.bind ?_
  rintro ⟨tsresol, tsoffset⟩ ⟨file₂, state₂⟩ ⟨file₂', state₂'⟩ alike₂
  have table₂ : state₂'.table = state₂.table := alike₂.table
  have precision : p.flip.tstampPrecision = p.tstampPrecision := rfl
  simp only [exec_own_bind, table₂, precision]
  refine (setIface_coupled alike₂ _ _).bind ?_
  rintro _ ⟨file₃, state₃⟩ ⟨file₃', state₃'⟩ alike₃
  have table₃ : state₃'.table = state₃.table := alike₃.table
  refine ⟨trivial, alike₃.unread, alike₃.unread', alike₃.heap, alike₃.buffer, ?_⟩
  simp only [table₃]

end Options

/-! ## The next packet -/

section NextPacket

variable {p : NgSf} {skipped : Skipped} {s s' : File × NgState}

theorem Between.of_alike {swapped : Bool} {unread : List Byte}
    (alike : Alike unread ((swapBlocks swapped skipped).apply unread) s s') :
    Between swapped skipped s s' := by
  obtain ⟨rfl, unread', heap, buffer, table⟩ := alike
  exact ⟨rfl, unread', heap, buffer, table⟩

/-- The fixed part of an interface block, in front of its options. -/
theorem Loaded.fixedPart_idb (loaded : Loaded p.swapped skipped s s')
    (isIdb : s.2.cursor.blockType = btIdb) :
    Coupled (exec (Savefile.fixedPart 8) s) (exec (Savefile.fixedPart 8) s')
      (fun raw t raw' t' => p.flip.short 0 raw' = p.short 0 raw ∧
        p.flip.long 4 raw' = p.long 4 raw ∧ Between p.swapped skipped t t' ∧
        InOptions p.swapped skipped t.2 t'.2) := by
  refine (loaded.fixedPart [2, 2, 4] (by rw [isIdb, swapContents, if_neg (by decide),
    if_neg (by decide), if_neg (by decide), if_pos rfl])).mono ?_
  rintro raw _ _ _ ⟨whole, _, rfl, within, rfl, rfl, behind⟩
  have start := loaded.data
  have length := loaded.length
  have eight : sum [2, 2, 4] = 8 := rfl
  have rest : (s.2.cursor.contents.drop 8).length - 4 = s.2.cursor.dataRemaining - 8 := by
    rw [length_drop, length, blockTrailerSize]
    omega
  rw [eight] at within behind
  rw [rest] at behind
  refine ⟨p.short_flip whole (by decide), p.long_flip whole (by decide),
    loaded.between.advance _, loaded.place.advance _, ?_, ?_⟩
  · simp only [NgState.advance, eight, start]
    omega
  · simp only [NgState.advance, eight, start, Nat.zero_add, field, behind]
    apply take_left'
    rw [Reframing.length_apply, length_take, length_drop, length, blockTrailerSize]
    omega

theorem idb_coupled (loaded : Loaded p.swapped skipped s s')
    (isIdb : s.2.cursor.blockType = btIdb) :
    Abreast (idb p) (idb p.flip) s s' fun _ => Between p.swapped skipped := by
  refine (loaded.fixedPart_idb isIdb).bind ?_
  rintro raw ⟨file, state⟩ raw' ⟨file', state'⟩ ⟨linktype, snaplen, between, inOptions⟩
  have known : p.flip.linktype = p.linktype ∧ p.flip.snapshot = p.snapshot := ⟨rfl, rfl⟩
  simp only [linktype, snaplen, known, exec_ite, exec_fail]
  split
  · rfl
  split
  · rfl
  · refine (addInterface_coupled between inOptions).mono ?_
    exact fun _ _ _ _ alike => ⟨trivial, .of_alike alike.2⟩

theorem shb_coupled (loaded : Loaded p.swapped skipped s s')
    (isShb : s.2.cursor.blockType = btShb) :
    Abreast (shb p) (shb p.flip) s s' fun _ => Between p.swapped skipped := by
  refine (loaded.fixedPart [4, 2, 2, 8] (by rw [isShb]; rfl)).bind ?_
  rintro raw _ _ _ ⟨whole, _, rfl, _, rfl, rfl, _⟩
  have between := loaded.between
  have table := between.table
  simp (disch := decide) only [p.long_flip whole, p.short_flip whole, exec_ite, exec_fail]
  split
  · rfl
  split
  · rfl
  split
  · rfl
  · refine ⟨trivial, rfl, between.unread', between.heap, between.buffer, ?_⟩
    simp only [NgState.advance, table]

/-- Both readers go through the blocks until they have found the same packet. -/
theorem nextFound_coupled (blocks : Nat) (between : Between p.swapped skipped s s') :
    Abreast (nextFound p blocks) (nextFound p.flip blocks) s s' fun found => match found with
      | none => Between p.swapped skipped
      | some packet => Delivers p.swapped skipped packet := by
  induction blocks generalizing s s' with
  | zero => rfl
  | succ blocks ih =>
    refine (readBlock_coupled between).bind ?_
    rintro more ⟨file, state⟩ ⟨file', state'⟩ ⟨between₁, loads⟩
    cases more with
    | false => exact ⟨rfl, between₁⟩
    | true =>
      have loaded := loads rfl
      have blockType : state'.cursor.blockType = state.cursor.blockType :=
        loaded.place.blockType
      simp only [if_true, exec_own_bind, exec_ite, blockType]
      split
      · rename_i isEpb
        exact (epb_coupled loaded isEpb).map fun _ _ _ delivers => ⟨rfl, delivers⟩
      split
      · rename_i isSpb
        exact (spb_coupled loaded isSpb).map fun _ _ _ delivers => ⟨rfl, delivers⟩
      split
      · rename_i isPb
        exact (pb_coupled loaded isPb).map fun _ _ _ delivers => ⟨rfl, delivers⟩
      split
      · rename_i isIdb
        exact (idb_coupled loaded isIdb).bind fun _ _ _ => ih
      split
      · rename_i isShb
        exact (shb_coupled loaded isShb).bind fun _ _ _ => ih
      · exact ih between₁

/-- **The next packet.** A call on the file in the other byte order returns the same packet,
the end of the file or the same error. -/
theorem pcapNgNextPacket_coupled
    (plain : p.linktype ≠ dltUsbLinux ∧ p.linktype ≠ dltUsbLinuxMmapped)
    (between : Between p.swapped skipped s s') :
    Abreast (pcapNgNextPacket p) (pcapNgNextPacket p.flip) s s'
      fun _ => Between p.swapped skipped := by
  have length : s'.1.unread.length = s.1.unread.length := by
    rw [between.unread', Reframing.length_apply]
  simp only [Abreast, pcapNgNextPacket, exec_bind, exec_get, andThen_ok, length]
  rw [← exec_bind, ← exec_bind]
  refine (nextFound_coupled (s.1.unread.length + 1) between).bind fun found t t' next => ?_
  cases found with
  | none => exact ⟨rfl, next⟩
  | some packet => exact (deliverFound_coupled plain next).map fun _ _ _ between => ⟨rfl, between⟩

end NextPacket

end Libpcap.Savefile
