/-
# pcap-ng files with several interfaces

A handle has one link type and one snapshot length, so `pcap_ng_next_packet` rejects an
interface whose values differ from those of the first one. It compares the link type
as the file has it with that of the first interface after `linktype_to_dlt`. A file in
which all interfaces are alike is therefore rejected when its link type is one that the
mapping changes, and accepted otherwise.

A file is described here by what it is made of: sections, each in a byte order of its
own, and blocks with their contents. Nothing is asked of blocks that are not interface
blocks, nor of options. While it looks for the first interface the reader does not look
at the byte order of a new section, so the sections up to that interface are those
that have to share one.
-/

import Libpcap.Savefile.Dump
import Libpcap.Savefile.OpenByteOrder
import Mathlib.Tactic.FinCases

namespace Libpcap.Savefile

open Libpcap.Semantics Libpcap.Gencode List

variable {swapped : Bool} {file : File} {s : File × NgState} {blocks : List NgBlock}
  {parts : List NgSection} {part : NgSection} {state : NgState}

/-! ## The two texts -/

/-- The text for a link type other than that of the first interface. -/
def typeMismatch (linktype : Nat) : String :=
  s!"an interface has a type {linktype} different from the type of the first interface"

/-- The text for another snapshot length. -/
def snaplenMismatch (snaplen : Nat) : String :=
  s!"an interface has a snapshot length {snaplen} " ++
    "different from the type of the first interface"

/-- A failure for an interface that differs from the first one. -/
def Stop.Mismatch (stop : Stop) : Prop :=
  ∃ n, stop = .error (typeMismatch n) ∨ stop = .error (snaplenMismatch n)

/-- The text begins as those two do. -/
def BeginsAn (errbuf : String) : Prop := errbuf.toList.take 2 = ['a', 'n']

@[simp]
theorem beginsAn_iff {errbuf : String} : BeginsAn errbuf ↔ errbuf.toList.take 2 = ['a', 'n'] :=
  Iff.rfl

@[simp]
theorem toString_text (text : String) : toString text = text := rfl

/-- How a text begins is decided by a first part that is long enough. -/
theorem beginsAn_append {front : String} (rest : String) (long : 2 ≤ front.toList.length) :
    BeginsAn (front ++ rest) ↔ BeginsAn front := by
  unfold BeginsAn
  rw [String.toList_append, take_append_of_le_length long]

theorem beginsAn_typeMismatch (linktype : Nat) : BeginsAn (typeMismatch linktype) := by
  unfold typeMismatch
  rw [toString_text, String.append_assoc]
  exact (beginsAn_append _ (by simp)).mpr (by simp)

theorem beginsAn_snaplenMismatch (snaplen : Nat) : BeginsAn (snaplenMismatch snaplen) := by
  unfold snaplenMismatch
  rw [toString_text, String.append_assoc, String.append_assoc]
  exact (beginsAn_append _ (by simp)).mpr (by simp)

theorem Stop.Mismatch.beginsAn {errbuf : String} (mismatch : (Stop.error errbuf).Mismatch) :
    BeginsAn errbuf := by
  obtain ⟨n, same | same⟩ := mismatch
  · rw [Stop.error.inj same]
    exact beginsAn_typeMismatch n
  · rw [Stop.error.inj same]
    exact beginsAn_snaplenMismatch n

theorem Stop.not_mismatch_error {errbuf : String} (other : ¬ BeginsAn errbuf) :
    ¬ (Stop.error errbuf).Mismatch :=
  fun mismatch => other mismatch.beginsAn

theorem Stop.not_mismatch_fault (how : Fault) : ¬ (Stop.fault how).Mismatch := by
  rintro ⟨n, same | same⟩ <;> cases same

/-! ## Routines that work on a block -/

/-- A routine that works on the block that has been read: it looks at the state, changes it,
allocates memory, and does not fail for a mismatch. -/
inductive BlockRoutine : {α : Type} → Ng α → Prop
  | pure {α : Type} (a : α) : BlockRoutine (pure a)
  | own : BlockRoutine own
  | update (f : NgState → NgState) : BlockRoutine (update f)
  | malloc : BlockRoutine malloc
  | fault {α : Type} (how : Fault) : BlockRoutine (throw (.fault how) : Ng α)
  | fail {α : Type} {errbuf : String} (other : ¬ BeginsAn errbuf) :
      BlockRoutine (fail errbuf : Ng α)
  | bind {α β : Type} {m : Ng α} {f : α → Ng β} (first : BlockRoutine m)
      (next : ∀ a, BlockRoutine (f a)) : BlockRoutine (m >>= f)

namespace BlockRoutine

variable {α β : Type}

theorem map {m : Ng α} (f : α → β) (routine : BlockRoutine m) : BlockRoutine (f <$> m) := by
  rw [map_eq_pure_bind]
  exact routine.bind fun a => pure (f a)

theorem ite {c : Prop} [Decidable c] {m m' : Ng α} (yes : BlockRoutine m)
    (no : BlockRoutine m') : BlockRoutine (if c then m else m') := by
  split
  · exact yes
  · exact no

end BlockRoutine

/-- The routine ends as stated, or fails for something else than a mismatch. -/
def Matches {α : Type} (m : Ng α) (s : File × NgState) (ends : α → File × NgState → Prop) :
    Prop :=
  Ends (exec m s) ends fun stop _ => ¬ stop.Mismatch

/-- A routine that reads nothing from the file and does not fail for a mismatch. -/
def Inner {α : Type} (m : Ng α) : Prop :=
  ∀ s, Ends (exec m s) (fun _ s' => s'.1.unread = s.1.unread) (fun stop _ => ¬ stop.Mismatch)

theorem BlockRoutine.inner {α : Type} {m : Ng α} (routine : BlockRoutine m) : Inner m := by
  induction routine with
  | pure | own | update | malloc => exact fun _ => rfl
  | fault how => exact fun _ => Stop.not_mismatch_fault how
  | fail other => exact fun _ => Stop.not_mismatch_error other
  | bind _ _ first next =>
    intro s
    refine (first s).seq ?_
    intro a s' kept
    refine (next a s').imp ?_
    intro b s'' kept'
    exact kept'.trans kept

theorem routine_getFromBlockData (n : Nat) : BlockRoutine (getFromBlockData n) := by
  have advance : ∀ (f : NgState → NgState) (pointer : Nat),
      BlockRoutine (do update f; pure pointer) :=
    fun f pointer => (BlockRoutine.update f).bind fun _ => .pure pointer
  apply BlockRoutine.own.bind
  intro state
  refine .ite ?_ (advance _ _)
  refine .bind ?_ fun _ => advance _ _
  exact .fail (by simp)

theorem routine_load (pointer n : Nat) : BlockRoutine (load pointer n) :=
  BlockRoutine.own.bind fun _ => .ite (.pure _) (.fault _)

theorem routine_fixedPart (n : Nat) : BlockRoutine (fixedPart n) :=
  (routine_getFromBlockData n).bind fun pointer => routine_load pointer n

theorem routine_getOption (p : NgSf) : BlockRoutine (getOption p) := by
  refine .bind ?_ ?_
  · exact (routine_fixedPart 4).bind fun _ => .pure _
  · intro opthdr
    exact (routine_getFromBlockData _).bind fun _ => .pure _

theorem not_beginsAn_tooHigh (tsresolOpt : BitVec 8) : ¬ BeginsAn (tooHigh tsresolOpt) := by
  unfold tooHigh
  split <;> simp

theorem routine_ifTsresolOption (opthdr : OptionHeader) (optvalue : Nat) (seen : IdbOptions) :
    BlockRoutine (ifTsresolOption opthdr optvalue seen) := by
  refine .ite ?_ ?_
  · exact .fail (by simp)
  refine .ite ?_ ?_
  · exact .fail (by simp)
  · apply (routine_load optvalue 4).bind
    intro raw
    exact .ite (.fail (not_beginsAn_tooHigh _)) (.pure _)

theorem routine_ifTsoffsetOption (p : NgSf) (opthdr : OptionHeader) (optvalue : Nat)
    (seen : IdbOptions) : BlockRoutine (ifTsoffsetOption p opthdr optvalue seen) := by
  refine .ite ?_ ?_
  · exact .fail (by simp)
  refine .ite ?_ ?_
  · exact .fail (by simp)
  · exact (routine_load optvalue 8).bind fun _ => .pure _

theorem routine_idbOptions (p : NgSf) (iterations : Nat) (seen : IdbOptions) :
    BlockRoutine (idbOptions p iterations seen) := by
  induction iterations generalizing seen with
  | zero => exact .fault _
  | succ iterations ih =>
    apply BlockRoutine.own.bind
    intro state
    refine .ite (.pure _) ?_
    apply (routine_getOption p).bind
    intro option
    refine .ite ?_ ?_
    · refine .ite ?_ (.pure _)
      exact .fail (by simp)
    refine .ite ?_ ?_
    · exact (routine_ifTsresolOption _ _ _).bind fun seen => ih seen
    refine .ite ?_ ?_
    · exact (routine_ifTsoffsetOption _ _ _ _).bind fun seen => ih seen
    · exact ih seen

theorem routine_growIfaces : BlockRoutine growIfaces := by
  apply BlockRoutine.own.bind
  intro state
  refine .ite ?_ (.pure _)
  apply BlockRoutine.malloc.bind
  intro granted
  apply (BlockRoutine.update _).bind
  intro _
  apply BlockRoutine.own.bind
  intro grown
  refine .ite ?_ (.pure _)
  exact .fail (by simp)

theorem routine_addInterface (p : NgSf) : BlockRoutine (addInterface p) := by
  apply BlockRoutine.own.bind
  intro before
  apply (BlockRoutine.update _).bind
  intro _
  apply routine_growIfaces.bind
  intro _
  refine .bind ?_ ?_
  · apply BlockRoutine.own.bind
    intro state
    exact (routine_idbOptions p _ _).bind fun _ => .pure _
  · intro options
    apply BlockRoutine.own.bind
    intro state
    refine .bind ?_ ?_
    · exact BlockRoutine.own.bind fun _ => .ite (.update _) (.fault _)
    · intro _
      exact .update _

theorem routine_shb (p : NgSf) : BlockRoutine (shb p) := by
  apply (routine_fixedPart 16).bind
  intro raw
  refine .ite ?_ ?_
  · exact .fail (by simp)
  refine .ite ?_ ?_
  · exact .fail (by simp)
  refine .ite ?_ (.update _)
  exact .fail (by simp)

theorem routine_deliverFound (p : NgSf) (found : Found) : BlockRoutine (deliverFound p found) := by
  apply BlockRoutine.own.bind
  intro state
  refine .ite ?_ ?_
  · exact .fail (by simp)
  refine .bind ?_ ?_
  · apply BlockRoutine.own.bind
    intro state
    cases state.table.entry found.interfaceId.toNat with
    | none => exact .fault _
    | some entry => exact .pure _
  · intro entry
    refine .ite (.fault _) ?_
    exact (routine_fixedPart _).bind fun _ => .pure _

theorem getFromBlockData_pointer (n : Nat) (file : File) (state : NgState) :
    Ends (exec (getFromBlockData n) (file, state))
      (fun pointer s => n ≤ state.cursor.dataRemaining ∧ pointer = state.cursor.data ∧
        s.2.cursor.contents = state.cursor.contents)
      (fun _ _ => True) := by
  refine (getFromBlockData_ends file state n).imp ?_
  rintro pointer _ ⟨enough, rfl, rfl⟩
  exact ⟨enough, rfl, rfl⟩

/-- The bytes that the cursor points to, if they are read at all. -/
theorem fixedPart_raw (n : Nat) (file : File) (state : NgState) :
    Ends (exec (fixedPart n) (file, state))
      (fun raw _ => n ≤ state.cursor.dataRemaining ∧
        raw = field state.cursor.data n state.cursor.contents)
      (fun _ _ => True) := by
  refine (getFromBlockData_pointer n file state).seq ?_
  rintro _ ⟨file', state'⟩ ⟨enough, rfl, same⟩
  simp only [load, exec_bind, exec_own, andThen_ok]
  split
  · exact ⟨enough, by rw [← same]⟩
  · trivial

/-! ## Blocks and sections -/

/-- A 32-bit field as a file of either byte order has it. -/
def putFileLong (swapped : Bool) (x : BitVec 32) : List Byte :=
  putLong (if swapped then swapLong x else x)

@[simp]
theorem length_putFileLong (swapped : Bool) (x : BitVec 32) :
    (putFileLong swapped x).length = 4 := length_putLong _

@[simp]
theorem fileLong_putFileLong (swapped : Bool) (x : BitVec 32) (rest : List Byte) :
    fileLong swapped 0 (putFileLong swapped x ++ rest) = x := by
  unfold fileLong putFileLong
  rw [long_putLong]
  cases swapped
  · rfl
  · exact swapLong_swapLong x

theorem fileLong_putFileLong_nil (swapped : Bool) (x : BitVec 32) :
    fileLong swapped 0 (putFileLong swapped x) = x := by
  have front := fileLong_putFileLong swapped x []
  rwa [append_nil] at front

/-- The second of two 32-bit fields. -/
theorem fileLong_second (swapped : Bool) (front record : List Byte) (four : front.length = 4) :
    fileLong swapped 4 (front ++ record) = fileLong swapped 0 record := by
  have behind : long 4 (front ++ record) = long 0 record := by
    rw [long, word_append_of_le front record (le_of_eq four), four]
  unfold fileLong
  rw [behind]

/-- Read in the wrong byte order. -/
theorem fileLong_putFileLong_not (swapped : Bool) (x : BitVec 32) (rest : List Byte) :
    fileLong swapped 0 (putFileLong (!swapped) x ++ rest) = swapLong x := by
  unfold fileLong putFileLong
  rw [long_putLong]
  cases swapped <;> rfl

/-- A block: its type, and what lies between its header and its trailer. -/
structure NgBlock where
  blockType : BitVec 32
  body : List Byte
  fits : body.length + 12 < 2 ^ 32

/-- The length that both ends of a block give. -/
def NgBlock.totalLength (block : NgBlock) : BitVec 32 := BitVec.ofNat 32 (block.body.length + 12)

def NgBlock.bytes (swapped : Bool) (block : NgBlock) : List Byte :=
  putFileLong swapped block.blockType ++ (putFileLong swapped block.totalLength ++
    (block.body ++ putFileLong swapped block.totalLength))

/-- A section: its byte order, its header block behind the byte-order magic, and its other
blocks. -/
structure NgSection where
  swapped : Bool
  header : List Byte
  blocks : List NgBlock
  fits : header.length + 16 < 2 ^ 32
  inside : ∀ block ∈ blocks, block.blockType ≠ btShb

/-- The section header block. -/
def NgSection.shb (part : NgSection) : NgBlock where
  blockType := btShb
  body := putFileLong part.swapped byteOrderMagic ++ part.header
  fits := by
    rw [List.length_append, length_putFileLong]
    have := part.fits
    omega

def NgSection.bytes (part : NgSection) : List Byte :=
  part.shb.bytes part.swapped ++ part.blocks.flatMap (NgBlock.bytes part.swapped)

/-- If the block describes an interface, then one of that link type and snapshot length. -/
def NgBlock.Carries (swapped : Bool) (linktype : BitVec 16) (snaplen : BitVec 32)
    (block : NgBlock) : Prop :=
  block.blockType = btIdb → 8 ≤ block.body.length ∧ fileShort swapped 0 block.body = linktype ∧
    fileLong swapped 4 block.body = snaplen

/-- All interfaces of the section have that link type and snapshot length. -/
def NgSection.Uniform (linktype : BitVec 16) (snaplen : BitVec 32) (part : NgSection) : Prop :=
  ∀ block ∈ part.blocks, block.Carries part.swapped linktype snaplen

/-- The sections have that byte order, up to the first that describes an interface. -/
def Legible (swapped : Bool) : List NgSection → Prop
  | [] => True
  | part :: parts =>
    part.swapped = swapped ∧
      ((∀ block ∈ part.blocks, block.blockType ≠ btIdb) → Legible swapped parts)

/-! ## Reading a block -/

theorem NgBlock.toNat_totalLength (block : NgBlock) :
    block.totalLength.toNat = block.body.length + 12 := by
  rw [NgBlock.totalLength, BitVec.toNat_ofNat]
  exact Nat.mod_eq_of_lt block.fits

theorem readBytes_not_mismatch (n : Nat) (failOnEof : Bool) (s : File × NgState) :
    Matches (readBytes n failOnEof) s fun _ _ => True := by
  obtain ⟨file, state⟩ := s
  simp only [Matches, readBytes, exec_bind, exec_fread, andThen_ok, exec_ite, exec_pure,
    exec_fail]
  split
  · split
    · trivial
    · exact Stop.not_mismatch_error (by simp)
  · trivial

theorem routine_growBuffer (p : NgSf) (totalLength : Nat) : BlockRoutine (growBuffer p totalLength) := by
  refine .ite ?_ (.pure _)
  apply BlockRoutine.malloc.bind
  intro granted
  refine .ite (.update _) ?_
  apply (BlockRoutine.update _).bind
  intro _
  exact .fail (by simp)

theorem routine_storeBlock (totalLength : Nat) : BlockRoutine (storeBlock totalLength) := by
  apply BlockRoutine.own.bind
  intro state
  cases state.buffer with
  | none => exact .fault _
  | some size => exact .ite (.fault _) (.pure _)

theorem readContents_at (p : NgSf) (blockType : BitVec 32) (totalLength : Nat)
    (s : File × NgState) :
    Matches (readContents p blockType totalLength) s fun _ s' =>
      totalLength - 8 ≤ s.1.unread.length ∧
        s'.1.unread = s.1.unread.drop (totalLength - 8) ∧
        s'.2.cursor = ⟨s.1.unread.take (totalLength - 8), 0, totalLength - 8 - 4, blockType⟩ := by
  refine ((routine_growBuffer p totalLength).inner s).seq ?_
  intro _ s' grown
  refine ((routine_storeBlock totalLength).inner s').seq ?_
  rintro _ ⟨file, state⟩ stored
  have unread : file.unread = s.1.unread := stored.trans grown
  apply Ends.bind ((readBytes_ends (totalLength - blockHeaderSize) true file state).and
    (readBytes_not_mismatch _ true (file, state)))
  · rintro bytes _ ⟨⟨rfl, ⟨whole, rfl⟩ | ⟨_, impossible, _⟩⟩, _⟩
    · rw [unread] at whole
      refine ⟨whole, ?_, ?_⟩
      · exact congrArg (drop _) unread
      · rw [← unread]
        rfl
    · cases impossible
  · intro stop s'' failed
    exact failed.2

/-- What a block header makes `read_block` do, whatever follows it. -/
theorem readBlock_header (p : NgSf) {header : List Byte} (whole : header.length = blockHeaderSize)
    (rest : List Byte) (heap : Nat → Bool) (state : NgState) :
    Matches (readBlock p) (⟨header ++ rest, heap⟩, state) fun more s =>
      more = true ∧ 12 ≤ (p.long 4 header).toNat ∧
        (p.long 4 header).toNat - 8 ≤ rest.length ∧
        s.1.unread = rest.drop ((p.long 4 header).toNat - 8) ∧
        s.2.cursor = ⟨rest.take ((p.long 4 header).toNat - 8), 0, (p.long 4 header).toNat - 8 - 4,
          p.long 0 header⟩ := by
  have first : exec (readBytes blockHeaderSize false) (⟨header ++ rest, heap⟩, state) =
      (.ok (some header), (⟨rest, heap⟩, state)) := by
    simp only [readBytes, exec_bind, exec_fread, andThen_ok, take_left' whole,
      drop_left' whole, whole, ne_eq, not_true_eq_false, if_false, exec_pure]
  rw [Matches, readBlock, exec_bind, first, andThen_ok]
  simp only [exec_ite, exec_fail]
  split
  · exact Stop.not_mismatch_error (by simp)
  split
  · exact Stop.not_mismatch_error (by simp)
  · rename_i least
    refine (readContents_at p (p.long 0 header) (p.long 4 header).toNat _).seq ?_
    intro _ s read
    exact ⟨rfl, not_lt.mp least, read⟩

/-- A block in the reader's byte order is read as a whole. -/
theorem readBlock_bytes (p : NgSf) (block : NgBlock) (rest : List Byte) (heap : Nat → Bool)
    (state : NgState) :
    Matches (readBlock p) (⟨block.bytes p.swapped ++ rest, heap⟩, state) fun more s =>
      more = true ∧ s.1.unread = rest ∧
        s.2.cursor = ⟨block.body ++ putFileLong p.swapped block.totalLength, 0, block.body.length,
          block.blockType⟩ := by
  let header := putFileLong p.swapped block.blockType ++ putFileLong p.swapped block.totalLength
  let body := block.body ++ putFileLong p.swapped block.totalLength
  have whole : header.length = blockHeaderSize := by simp [header, blockHeaderSize]
  have sequence : block.bytes p.swapped ++ rest = header ++ (body ++ rest) := by
    simp [NgBlock.bytes, header, body]
  have type : p.long 0 header = block.blockType := fileLong_putFileLong _ _ _
  have length : p.long 4 header = block.totalLength :=
    fileLong_second p.swapped _ _ (length_putFileLong _ _) |>.trans
      (fileLong_putFileLong_nil _ _)
  have sized : body.length = block.body.length + 12 - 8 := by simp [body]
  rw [sequence]
  refine (readBlock_header p whole (body ++ rest) heap state).imp ?_
  rintro more s ⟨rfl, _, _, unread, cursor⟩
  rw [length, block.toNat_totalLength] at unread cursor
  rw [drop_left' sized] at unread
  rw [take_left' sized, type] at cursor
  refine ⟨rfl, unread, ?_⟩
  rw [cursor]
  simp [body]

theorem swapLong_btShb : swapLong btShb = btShb := by decide

/-- The header of a section in the other byte order is taken for a block of another
length, which begins with the byte-order magic reversed. -/
theorem readBlock_otherOrder (p : NgSf) (other : part.swapped = !p.swapped) (rest : List Byte)
    (heap : Nat → Bool) (state : NgState) :
    Matches (readBlock p) (⟨part.bytes ++ rest, heap⟩, state) fun more s =>
      more = true ∧ s.2.cursor.blockType = btShb ∧ s.2.cursor.data = 0 ∧
        (16 ≤ s.2.cursor.dataRemaining →
          fileLong p.swapped 0 (field 0 16 s.2.cursor.contents) = swapLong byteOrderMagic) := by
  let header := putFileLong (!p.swapped) btShb ++ putFileLong (!p.swapped) part.shb.totalLength
  obtain ⟨behind, sequence⟩ : ∃ behind,
      part.bytes ++ rest = header ++ (putFileLong (!p.swapped) byteOrderMagic ++ behind) := by
    refine ⟨part.header ++ putFileLong (!p.swapped) part.shb.totalLength ++
      part.blocks.flatMap (NgBlock.bytes part.swapped) ++ rest, ?_⟩
    simp [NgSection.bytes, NgBlock.bytes, NgSection.shb, other, header]
  have whole : header.length = blockHeaderSize := by simp [header, blockHeaderSize]
  have type : p.long 0 header = btShb :=
    (fileLong_putFileLong_not p.swapped btShb _).trans swapLong_btShb
  rw [sequence]
  refine (readBlock_header p whole _ heap state).imp ?_
  rintro more s ⟨rfl, _, _, _, cursor⟩
  rw [cursor, type]
  refine ⟨rfl, rfl, rfl, ?_⟩
  intro enough
  have long : 16 ≤ (p.long 4 header).toNat - 8 := by
    have : 16 ≤ (p.long 4 header).toNat - 8 - 4 := enough
    omega
  have begins : ∃ tail, field 0 16 ((putFileLong (!p.swapped) byteOrderMagic ++ behind).take
      ((p.long 4 header).toNat - 8)) = putFileLong (!p.swapped) byteOrderMagic ++ tail := by
    refine ⟨behind.take 12, ?_⟩
    rw [field, drop_zero, take_take, Nat.min_eq_left long,
      take_append, take_of_length_le (by simp), length_putFileLong]
  obtain ⟨tail, begins⟩ := begins
  rw [begins]
  exact fileLong_putFileLong_not p.swapped byteOrderMagic tail

/-- A section in the other byte order is rejected, not for a mismatch. -/
theorem shb_otherOrder (p : NgSf) (start : state.cursor.data = 0)
    (magic : 16 ≤ state.cursor.dataRemaining →
      fileLong p.swapped 0 (field 0 16 state.cursor.contents) = swapLong byteOrderMagic) :
    Matches (shb p) (file, state) fun _ _ => False := by
  apply Ends.bind ((fixedPart_raw 16 file state).and ((routine_fixedPart 16).inner (file, state)))
  · rintro raw s ⟨⟨enough, rfl⟩, _⟩
    have reversed : p.long 0 (field 0 16 state.cursor.contents) = swapLong byteOrderMagic :=
      magic enough
    rw [start, exec_ite, if_pos reversed]
    exact Stop.not_mismatch_error (by simp)
  · intro stop s failed
    exact failed.2

/-! ## The next packet -/

section NextPacket

variable {p : NgSf} {linktype : BitVec 16} {snaplen : BitVec 32}

/-- What lies in front of a reader: the rest of a section in its byte order, and
sections, all with interfaces of one kind. -/
structure Ahead (swapped : Bool) (linktype : BitVec 16) (snaplen : BitVec 32)
    (blocks : List NgBlock) (parts : List NgSection) (unread : List Byte) : Prop where
  bytes : unread = blocks.flatMap (NgBlock.bytes swapped) ++ parts.flatMap NgSection.bytes
  inside : ∀ block ∈ blocks, block.blockType ≠ btShb
  carries : ∀ block ∈ blocks, block.Carries swapped linktype snaplen
  uniform : ∀ part ∈ parts, part.Uniform linktype snaplen

/-- Behind the header of a section come its blocks. -/
theorem Ahead.enter (same : part.swapped = swapped)
    (uniform : ∀ other ∈ part :: parts, other.Uniform linktype snaplen) :
    Ahead swapped linktype snaplen part.blocks parts
      (part.blocks.flatMap (NgBlock.bytes part.swapped) ++ parts.flatMap NgSection.bytes) := by
  subst same
  exact ⟨rfl, part.inside, uniform part mem_cons_self,
    fun other within => uniform other (mem_cons_of_mem _ within)⟩

theorem Ahead.tail {block : NgBlock} {unread : List Byte}
    (ahead : Ahead swapped linktype snaplen (block :: blocks) parts unread) :
    Ahead swapped linktype snaplen blocks parts
      (blocks.flatMap (NgBlock.bytes swapped) ++ parts.flatMap NgSection.bytes) :=
  ⟨rfl, fun other within => ahead.inside other (mem_cons_of_mem _ within),
    fun other within => ahead.carries other (mem_cons_of_mem _ within), ahead.uniform⟩

/-- The fields of an interface block as the reader finds them. -/
theorem idb_fields {block : NgBlock} (carries : block.Carries swapped linktype snaplen)
    (interface : block.blockType = btIdb) (trailer : List Byte) :
    fileShort swapped 0 (field 0 8 (block.body ++ trailer)) = linktype ∧
      fileLong swapped 4 (field 0 8 (block.body ++ trailer)) = snaplen := by
  obtain ⟨enough, type, length⟩ := carries interface
  have body : field 0 8 (block.body ++ trailer) = block.body.take 8 := by
    rw [field_append trailer (by omega), field, drop_zero]
  have short : Savefile.short 0 (block.body.take 8) = Savefile.short 0 block.body := by
    rw [Savefile.short, word, field_take _ (by omega), Savefile.short, word]
  have long : Savefile.long 4 (block.body.take 8) = Savefile.long 4 block.body := by
    rw [Savefile.long, word, field_take _ (by omega), Savefile.long, word]
  rw [body, ← type, ← length]
  unfold fileShort fileLong
  rw [short, long]
  exact ⟨rfl, rfl⟩

/-- An interface like the first one is not a mismatch. -/
theorem idb_carries {block : NgBlock} (carries : block.Carries p.swapped linktype snaplen)
    (interface : block.blockType = btIdb) (type : p.linktype = linktype.toNat)
    (length : p.snapshot = snaplen) {trailer : List Byte}
    (cursor : state.cursor = ⟨block.body ++ trailer, 0, block.body.length, block.blockType⟩) :
    Matches (idb p) (file, state) fun _ s => s.1.unread = file.unread := by
  obtain ⟨found, asked⟩ := idb_fields carries interface trailer
  apply Ends.bind ((fixedPart_raw 8 file state).and ((routine_fixedPart 8).inner (file, state)))
  · rintro raw s ⟨⟨_, rfl⟩, kept⟩
    rw [cursor]
    have sameType : p.linktype = (p.short 0 (field 0 8 (block.body ++ trailer))).toNat := by
      rw [type, ← found]
      rfl
    have sameLength : p.snapshot.toNat = (p.long 4 (field 0 8 (block.body ++ trailer))).toNat := by
      rw [length, ← asked]
      rfl
    rw [exec_ite, if_neg (not_not.mpr sameType), exec_ite, if_neg (not_not.mpr sameLength)]
    refine ((routine_addInterface p).inner s).imp ?_
    intro _ s' kept'
    exact kept'.trans kept
  · intro stop s failed
    exact failed.2

/-- The reader is between two blocks of such a file. -/
def BetweenBlocks (p : NgSf) (linktype : BitVec 16) (snaplen : BitVec 32) (unread : List Byte) :
    Prop :=
  ∃ blocks parts, Ahead p.swapped linktype snaplen blocks parts unread

theorem routine_epb (p : NgSf) : BlockRoutine (epb p) := (routine_fixedPart 20).bind fun _ => .pure _

theorem routine_spb (p : NgSf) : BlockRoutine (spb p) := (routine_fixedPart 4).bind fun _ => .pure _

theorem routine_pb (p : NgSf) : BlockRoutine (pb p) := (routine_fixedPart 20).bind fun _ => .pure _

/-- A routine that works on the block just read stays between two blocks. -/
theorem Inner.between {α : Type} {m : Ng α} (inner : Inner m)
    (between : BetweenBlocks p linktype snaplen s.1.unread) :
    Matches m s fun _ s' => BetweenBlocks p linktype snaplen s'.1.unread := by
  refine (inner s).imp ?_
  intro a s' kept
  rw [kept]
  exact between

/-- What the loop does with a number of blocks to go. -/
def LoopUniform (p : NgSf) (linktype : BitVec 16) (snaplen : BitVec 32) (n : Nat) : Prop :=
  ∀ s : File × NgState, BetweenBlocks p linktype snaplen s.1.unread →
    Ends (exec (nextFound p n) s) (fun _ s' => BetweenBlocks p linktype snaplen s'.1.unread)
      (fun stop _ => ¬ stop.Mismatch)

variable {n : Nat}

theorem LoopUniform.block (loop : LoopUniform p linktype snaplen n)
    (type : p.linktype = linktype.toNat) (length : p.snapshot = snaplen) {block : NgBlock}
    {unread : List Byte} {heap : Nat → Bool}
    (ahead : Ahead p.swapped linktype snaplen (block :: blocks) parts unread) :
    Matches (nextFound p (n + 1)) (⟨unread, heap⟩, state) fun _ s' =>
      BetweenBlocks p linktype snaplen s'.1.unread := by
  rw [ahead.bytes, flatMap_cons, append_assoc]
  refine (readBlock_bytes p block _ heap state).seq ?_
  rintro _ ⟨file, state⟩ ⟨rfl, unread, cursor⟩
  have next : BetweenBlocks p linktype snaplen file.unread := by
    refine ⟨blocks, parts, ?_⟩
    rw [unread]
    exact ahead.tail
  have kind : state.cursor.blockType = block.blockType := by rw [cursor]
  simp only [if_true, exec_bind, exec_own, andThen_ok, kind]
  split
  · exact ((routine_epb p).map some).inner.between next
  split
  · exact ((routine_spb p).map some).inner.between next
  split
  · exact ((routine_pb p).map some).inner.between next
  split
  · rename_i interface
    refine (idb_carries (ahead.carries block mem_cons_self) interface type length cursor).seq ?_
    intro _ s kept
    apply loop
    rw [kept]
    exact next
  split
  · rename_i header
    exact absurd header (ahead.inside block mem_cons_self)
  · exact loop _ next

/-- The header of a section in the reader's byte order. -/
theorem LoopUniform.enter (loop : LoopUniform p linktype snaplen n)
    (same : part.swapped = p.swapped)
    (uniform : ∀ other ∈ part :: parts, other.Uniform linktype snaplen) (heap : Nat → Bool)
    (state : NgState) :
    Matches (nextFound p (n + 1)) (⟨part.bytes ++ parts.flatMap NgSection.bytes, heap⟩, state)
      fun _ s' => BetweenBlocks p linktype snaplen s'.1.unread := by
  have rest := Ahead.enter same uniform
  rw [NgSection.bytes, append_assoc, same]
  rw [same] at rest
  refine (readBlock_bytes p part.shb _ heap state).seq ?_
  rintro _ ⟨file, state⟩ ⟨rfl, unread, cursor⟩
  have next : BetweenBlocks p linktype snaplen file.unread := by
    refine ⟨part.blocks, parts, ?_⟩
    rw [unread]
    exact rest
  have header : state.cursor.blockType = btShb := by rw [cursor]; rfl
  simp only [if_true, exec_bind, exec_own, andThen_ok, header]
  rw [if_neg (by decide), if_neg (by decide), if_neg (by decide), if_neg (by decide)]
  exact ((routine_shb p).inner.between next).bind (fun _ s => loop s) fun _ _ other => other

/-- The header of a section in the other byte order ends the reading. -/
theorem nextFound_otherOrder (other : part.swapped = !p.swapped) (rest : List Byte)
    (heap : Nat → Bool) (state : NgState) :
    Matches (nextFound p (n + 1)) (⟨part.bytes ++ rest, heap⟩, state) fun _ _ => False := by
  refine (readBlock_otherOrder p other rest heap state).seq ?_
  rintro _ ⟨file, state⟩ ⟨rfl, header, start, magic⟩
  have header : state.cursor.blockType = btShb := header
  simp only [if_true, exec_bind, exec_own, andThen_ok, header]
  rw [if_neg (by decide), if_neg (by decide), if_neg (by decide), if_neg (by decide)]
  refine (shb_otherOrder p start magic).seq ?_
  intro _ s impossible
  exact impossible.elim

/-- The loop meets no interface that differs from the first one. -/
theorem nextFound_uniform (type : p.linktype = linktype.toNat) (length : p.snapshot = snaplen)
    (n : Nat) : LoopUniform p linktype snaplen n := by
  induction n with
  | zero =>
    intro s _
    exact Stop.not_mismatch_fault _
  | succ n loop =>
    rintro ⟨⟨unread, heap⟩, state⟩ ⟨blocks, parts, ahead⟩
    rcases blocks with _ | ⟨block, blocks⟩
    · have sequence : unread = parts.flatMap NgSection.bytes := ahead.bytes
      subst sequence
      rcases parts with _ | ⟨part, parts⟩
      · exact ⟨[], [], ahead⟩
      rw [flatMap_cons]
      by_cases same : part.swapped = p.swapped
      · exact loop.enter same ahead.uniform heap state
      · refine (nextFound_otherOrder (Bool.eq_not_of_ne same) _ heap state).imp ?_
        intro _ s impossible
        exact impossible.elim
    · exact loop.block type length ahead

/-- **One call.** A call does not fail for a mismatch, and if it succeeds, the next one
does not either. -/
theorem pcapNgNextPacket_uniform (type : p.linktype = linktype.toNat)
    (length : p.snapshot = snaplen) (between : BetweenBlocks p linktype snaplen s.1.unread) :
    Matches (pcapNgNextPacket p) s fun _ s' =>
      BetweenBlocks p linktype snaplen s'.1.unread := by
  simp only [Matches, pcapNgNextPacket, exec_bind, exec_get, andThen_ok]
  rw [← exec_bind]
  refine (nextFound_uniform type length _ s between).seq ?_
  intro found s' next
  cases found with
  | none => exact next
  | some found => exact ((routine_deliverFound p found).map some).inner.between next

/-! ## Opening a file -/

/-- The loop that looks for the first interface finds one of the given kind. -/
theorem firstInterface_uniform (n : Nat)
    (ahead : Ahead p.swapped linktype snaplen blocks parts s.1.unread)
    (legible : (∀ block ∈ blocks, block.blockType ≠ btIdb) → Legible p.swapped parts) :
    Ends (exec (firstInterface p n) s)
      (fun found s' => found = (linktype, snaplen) ∧ BetweenBlocks p linktype snaplen s'.1.unread)
      (fun _ _ => True) := by
  induction n generalizing blocks parts s with
  | zero => trivial
  | succ n ih =>
    obtain ⟨⟨unread, heap⟩, state⟩ := s
    have sequence : unread = _ := ahead.bytes
    subst sequence
    rcases blocks with _ | ⟨block, blocks⟩
    · rcases parts with _ | ⟨part, parts⟩
      · trivial
      obtain ⟨same, further⟩ := legible (by simp)
      have rest := Ahead.enter same ahead.uniform
      rw [flatMap_nil, nil_append, flatMap_cons, NgSection.bytes, append_assoc, same]
      rw [same] at rest
      refine (readBlock_bytes p part.shb _ heap state).seq ?_
      rintro _ ⟨file, state⟩ ⟨rfl, unread, cursor⟩
      have header : state.cursor.blockType = btShb := by rw [cursor]; rfl
      simp only [if_true, exec_bind, exec_own, andThen_ok, header]
      rw [if_neg (by decide), if_neg (by decide)]
      apply ih _ further
      rw [unread]
      exact rest
    · rw [flatMap_cons, append_assoc]
      refine (readBlock_bytes p block _ heap state).seq ?_
      rintro _ ⟨file, state⟩ ⟨rfl, unread, cursor⟩
      have next : Ahead p.swapped linktype snaplen blocks parts file.unread := by
        rw [unread]
        exact ahead.tail
      have kind : state.cursor.blockType = block.blockType := by rw [cursor]
      simp only [if_true, exec_bind, exec_own, andThen_ok, kind]
      split
      · rename_i interface
        obtain ⟨found, asked⟩ := idb_fields (ahead.carries block mem_cons_self) interface
          (putFileLong p.swapped block.totalLength)
        refine ((fixedPart_raw 8 file state).and ((routine_fixedPart 8).inner (file, state))).seq ?_
        rintro raw s ⟨⟨_, rfl⟩, kept⟩
        refine ((routine_addInterface p).inner s).seq ?_
        intro _ s' kept'
        rw [cursor]
        refine ⟨Prod.ext found asked, blocks, parts, ?_⟩
        have unchanged : s'.1.unread = file.unread := kept'.trans kept
        rw [unchanged]
        exact next
      · rename_i other
        split
        · trivial
        · apply ih next
          intro none
          apply legible
          intro earlier within
          rcases mem_cons.mp within with rfl | within
          · exact other
          · exact none earlier within

end NextPacket

/-- The handle of an open file whose interfaces are of one kind. -/
structure NgSf.OpenedUniform (p : NgSf) (linktype : BitVec 16) (snaplen : BitVec 32)
    (unread : List Byte) : Prop where
  type : p.linktype = linktypeToDlt linktype.toNat
  length : p.snapshot = snaplen
  between : BetweenBlocks p linktype snaplen unread

section Open

variable {linktype : BitVec 16} {snaplen : BitVec 32} {part : NgSection} {parts : List NgSection}

/-- The rest of the first section header is passed over, up to the first interface. -/
theorem readSection_uniform {p : NgSf} (same : part.swapped = p.swapped)
    (uniform : ∀ other ∈ part :: parts, other.Uniform linktype snaplen)
    (legible : Legible p.swapped (part :: parts)) {behind : List Byte} (unread : s.1.unread = behind
      ++ (part.blocks.flatMap (NgBlock.bytes part.swapped) ++ parts.flatMap NgSection.bytes)) :
    Ends (exec (readSection p (behind.length + 12)) s)
      (fun p' s' => p'.OpenedUniform linktype snaplen s'.1.unread) (fun _ _ => True) := by
  refine ((BlockRoutine.update _).inner s).seq ?_
  intro _ s₁ kept₁
  refine ((BlockRoutine.update _).inner s₁).seq ?_
  intro _ s₂ kept₂
  refine ((routine_storeBlock _).inner s₂).seq ?_
  rintro _ ⟨file, state⟩ kept₃
  have unread : file.unread = _ := (kept₃.trans (kept₂.trans kept₁)).trans unread
  refine (readBytes_ends (behind.length + 12 - 12) true file state).seq ?_
  rintro bytes _ ⟨rfl, _⟩
  simp only [exec_ite]
  split
  · trivial
  · simp only [exec_bind, exec_get, andThen_ok]
    rw [← exec_bind]
    apply Ends.bind (firstInterface_uniform (p := p) _ (s := (_, state)) _ legible.2)
    · rintro _ s' ⟨rfl, between⟩
      exact ⟨rfl, rfl, between⟩
    · intro stop s' _
      trivial
    · have rest : file.unread.drop (behind.length + 12 - 12) =
          part.blocks.flatMap (NgBlock.bytes part.swapped) ++
            parts.flatMap NgSection.bytes := by
        rw [unread, Nat.add_sub_cancel, drop_left' rfl]
      rw [rest]
      exact Ahead.enter same uniform

variable (uniform : ∀ other ∈ part :: parts, other.Uniform linktype snaplen)
include uniform

/-- Opening such a file, once its byte order is known. -/
theorem openSection_uniform
    (legible : Legible part.swapped (part :: parts)) (precision : Nat) {behind : List Byte} (unread
      : s.1.unread = behind ++ (part.blocks.flatMap (NgBlock.bytes part.swapped) ++ parts.flatMap
      NgSection.bytes)) :
    Ends (exec (openSection part.swapped precision (behind.length + 12)) s)
      (fun p s' => p.OpenedUniform linktype snaplen s'.1.unread) (fun _ _ => True) := by
  rw [openSection, exec_ite]
  split
  · trivial
  refine (BlockRoutine.malloc.inner s).seq ?_
  intro handle s₁ kept₁
  simp only [exec_ite]
  split
  · trivial
  split
  · trivial
  refine (BlockRoutine.malloc.inner s₁).seq ?_
  intro buffer s₂ kept₂
  simp only [exec_ite]
  split
  · trivial
  · have unread : s₂.1.unread = _ := (kept₂.trans kept₁).trans unread
    exact readSection_uniform rfl uniform legible unread

omit uniform in
/-- A section from its first bytes: the block type, the length, the byte-order magic. -/
theorem NgSection.bytes_eq (part : NgSection) (rest : List Byte) :
    part.bytes ++ rest =
      putLong btShb ++ (putFileLong part.swapped (BitVec.ofNat 32 (part.header.length + 16)) ++
        (putFileLong part.swapped byteOrderMagic ++
          (part.header ++ putFileLong part.swapped part.shb.totalLength ++
            (part.blocks.flatMap (NgBlock.bytes part.swapped) ++ rest)))) := by
  have type : putFileLong part.swapped btShb = putLong btShb := by
    unfold putFileLong
    rw [swapLong_btShb, ite_self]
  have length : part.shb.totalLength = BitVec.ofNat 32 (part.header.length + 16) := by
    have sized : part.shb.body.length + 12 = part.header.length + 16 := by
      rw [NgSection.shb, length_append, length_putFileLong]
      omega
    rw [NgBlock.totalLength, sized]
  simp only [NgSection.bytes, NgBlock.bytes, append_assoc]
  rw [length]
  change putFileLong part.swapped btShb ++ _ = _
  rw [type]
  simp [NgSection.shb]

/-- The byte order of a section is found from its magic, and its length with it. -/
theorem pcapNgCheckHeader_uniform
    (legible : Legible part.swapped (part :: parts)) (precision : Nat)
    (unread : putLong btShb ++ s.1.unread = part.bytes ++ parts.flatMap NgSection.bytes) :
    Ends (exec (pcapNgCheckHeader btShb precision) s)
      (fun found s' => ∃ p, found = some p ∧ p.OpenedUniform linktype snaplen s'.1.unread)
      (fun _ _ => True) := by
  obtain ⟨⟨unread', heap⟩, state⟩ := s
  rw [part.bytes_eq] at unread
  have sequence : unread' = _ := append_cancel_left unread
  subst sequence
  let behind := part.header ++ putFileLong part.swapped part.shb.totalLength
  let rest := part.blocks.flatMap (NgBlock.bytes part.swapped) ++ parts.flatMap NgSection.bytes
  have total : (BitVec.ofNat 32 (part.header.length + 16)).toNat = behind.length + 12 := by
    rw [BitVec.toNat_ofNat, Nat.mod_eq_of_lt part.fits]
    simp [behind]
  have opens : ∀ state : NgState, Ends
      (exec (some <$> openSection part.swapped precision (behind.length + 12))
        (⟨behind ++ rest, heap⟩, state))
      (fun found s' => ∃ p, found = some p ∧ p.OpenedUniform linktype snaplen s'.1.unread)
      (fun _ _ => True) := by
    intro state
    apply Ends.map
    refine (openSection_uniform uniform legible precision (s := (_, state)) rfl).imp ?_
    intro p s' opened
    exact ⟨p, rfl, opened⟩
  have lengthRead := length_putFileLong part.swapped (BitVec.ofNat 32 (part.header.length + 16))
  have magicRead := length_putFileLong part.swapped byteOrderMagic
  rw [pcapNgCheckHeader, if_neg (by simp)]
  simp only [exec_bind, exec_fread, andThen_ok, take_left' lengthRead,
    drop_left' lengthRead, take_left' magicRead, drop_left' magicRead, lengthRead,
    magicRead, lt_self_iff_false, or_self, if_false]
  change Ends (exec _ ((⟨behind ++ rest, heap⟩ : File), state)) _ _
  generalize behind ++ rest = tail at opens ⊢
  cases order : part.swapped with
  | false =>
    rw [order] at opens
    simp only [putFileLong, Bool.false_eq_true, if_false, long_putLong_nil, if_true, total]
    exact opens state
  | true =>
    rw [order] at opens
    have other : swapLong byteOrderMagic ≠ byteOrderMagic := by decide
    simp only [putFileLong, if_true, long_putLong_nil, if_neg other, swapLong_swapLong, total]
    exact opens state

/-- Opening such a file gives a handle with the mapped link type. -/
theorem openFile_uniform
    (legible : Legible part.swapped (part :: parts)) (precision : Nat) (heap : Nat → Bool)
    (state : NgState) :
    Ends (exec (openFile precision)
        (⟨part.bytes ++ parts.flatMap NgSection.bytes, heap⟩, state))
      (fun opened s' => ∃ p, opened = .ng p ∧ p.OpenedUniform linktype snaplen s'.1.unread)
      (fun _ _ => True) := by
  obtain ⟨rest, sequence⟩ : ∃ rest,
      part.bytes ++ parts.flatMap NgSection.bytes = putLong btShb ++ rest :=
    ⟨_, part.bytes_eq _⟩
  have magic := length_putLong btShb
  rw [sequence]
  simp only [openFile, exec_bind, exec_fread, andThen_ok, take_left' magic,
    drop_left' magic, magic, ne_eq, not_true_eq_false, if_false, long_putLong_nil]
  have unknown : exec (ExceptT.adapt Stop.error (pcapCheckHeader btShb precision) : Ng _)
      (⟨rest, heap⟩, state) = (.ok none, (⟨rest, heap⟩, state)) := rfl
  rw [checkHeaders, exec_bind, unknown, andThen_ok]
  refine (pcapNgCheckHeader_uniform uniform legible precision sequence.symm).seq ?_
  rintro _ s' ⟨p, rfl, opened⟩
  exact ⟨p, rfl, opened⟩

end Open

/-! ## All calls -/

/-- A reply that rejects an interface. -/
def Reply.Mismatch (reply : Reply) : Prop := ∃ stop, reply = .error stop ∧ stop.Mismatch

/-- No call up to the first that fails reports a mismatch, if the link type is one that
the mapping leaves alone. -/
theorem calls_uniform {linktype : BitVec 16} {snaplen : BitVec 32} {p : NgSf} {salvage : Salvage}
    (same : linktypeToDlt linktype.toNat = linktype.toNat)
    (opened : p.OpenedUniform linktype snaplen file.unread) (n : Nat) :
    ∀ reply ∈ Session.calls n ⟨.ng p state, file, salvage⟩, ¬ Reply.Mismatch reply := by
  induction n generalizing state file with
  | zero =>
    intro reply within
    cases within
  | succ n ih =>
    have call := pcapNgNextPacket_uniform (opened.type.trans same) opened.length
      (s := (file, state)) opened.between
    intro reply within
    rw [Session.calls, Session.next] at within
    rcases outcome : exec (pcapNgNextPacket p) (file, state) with ⟨value, file', state'⟩
    rw [Matches, outcome] at call
    simp only [outcome] at within
    cases value with
    | ok packet =>
      rcases mem_cons.mp within with rfl | within
      · rintro ⟨stop, impossible, _⟩
        cases impossible
      · exact ih ⟨opened.type, opened.length, call⟩ reply within
    | error stop =>
      rcases mem_singleton.mp within with rfl
      rintro ⟨stop', same, mismatch⟩
      cases same
      exact call mismatch

/-- An interface block without options, for a snapshot length of 96. -/
def plainInterface (linktype : BitVec 16) : NgBlock where
  blockType := btIdb
  body := putShort linktype ++ ([0, 0] ++ putLong 96)
  fits := by
    rw [List.length_append, List.length_append, length_putShort, length_putLong]
    decide

/-- A section with two interfaces of one link type. -/
def twoInterfaces (linktype : BitVec 16) : NgSection where
  swapped := false
  header := [1, 0, 0, 0, 0xff, 0xff, 0xff, 0xff, 0xff, 0xff, 0xff, 0xff]
  blocks := [plainInterface linktype, plainInterface linktype]
  fits := by decide
  inside := by
    intro block within
    rw [List.eq_of_mem_replicate (n := 2) within]
    change btIdb ≠ btShb
    decide

theorem twoInterfaces_uniform (linktype : BitVec 16) :
    (twoInterfaces linktype).Uniform linktype 96 := by
  intro block within
  rw [eq_of_mem_replicate (n := 2) within]
  intro _
  refine ⟨?_, ?_, ?_⟩
  · simp [plainInterface]
  · exact short_putShort linktype _
  · change word 32 4 4 (putShort linktype ++ ([0, 0] ++ putLong 96)) = 96
    rw [← append_assoc, word_append_of_le _ _ (by simp)]
    simp

/-- The handle that opening such a file gives. -/
theorem pcapFopenOffline_uniform {linktype : BitVec 16} {snaplen : BitVec 32}
    (uniform : ∀ other ∈ part :: parts, other.Uniform linktype snaplen)
    (legible : Legible part.swapped (part :: parts)) {precision : Nat} {heap : Nat → Bool}
    {reader : Reader} (opened : pcapFopenOffline precision ⟨part.bytes ++ parts.flatMap
      NgSection.bytes, heap⟩ = (.ok reader, file)) :
    ∃ p state, reader = .ng p state ∧ p.OpenedUniform linktype snaplen file.unread := by
  have ends := openFile_uniform uniform legible precision heap NgState.init
  unfold pcapFopenOffline at opened
  split at opened
  · rename_i outcome
    rw [outcome] at ends
    obtain ⟨p, impossible, _⟩ := ends
    cases impossible
  · rename_i p file' state outcome
    rw [outcome] at ends
    obtain ⟨_, same, holds⟩ := ends
    cases same
    cases opened
    exact ⟨p, state, rfl, holds⟩
  · cases opened

/-- **Several interfaces of one kind.** The files of a link type whose interfaces all have
that link type and one snapshot length are read without a mismatch, up to the first
call that fails for another reason, exactly if `linktype_to_dlt` leaves the link type
alone. -/
theorem uniform_readable_iff (linktype : BitVec 16) :
    (∀ (snaplen : BitVec 32) (part : NgSection) (parts : List NgSection) (precision : Nat)
        (heap : Nat → Bool) (reader : Reader) (file : File) (salvage : Salvage) (n : Nat),
        (∀ other ∈ part :: parts, other.Uniform linktype snaplen) →
        Legible part.swapped (part :: parts) →
        pcapFopenOffline precision ⟨part.bytes ++ parts.flatMap NgSection.bytes, heap⟩ =
          (.ok reader, file) →
        ∀ reply ∈ Session.calls n ⟨reader, file, salvage⟩, ¬ Reply.Mismatch reply) ↔
      linktype.toNat ∉ [100, 101, 102, 103] := by
  constructor
  · intro readable changed
    have rejected : ∃ reader file,
        pcapFopenOffline 0 ⟨(twoInterfaces linktype).bytes ++ [], fun _ => true⟩ =
          (.ok reader, file) ∧
        Session.calls 1 ⟨reader, file, ⟨0⟩⟩ = [.error (.error (typeMismatch linktype.toNat))] := by
      have known : linktype ∈ [(100 : BitVec 16), 101, 102, 103] := by
        have recover : linktype = BitVec.ofNat 16 linktype.toNat := by simp
        rw [recover]
        have values : ∀ value ∈ [100, 101, 102, 103],
            BitVec.ofNat 16 value ∈ [(100 : BitVec 16), 101, 102, 103] := by decide
        exact values _ changed
      fin_cases known
      · exact ⟨_, _, rfl, rfl⟩
      · exact ⟨_, _, rfl, rfl⟩
      · exact ⟨_, _, rfl, rfl⟩
      · exact ⟨_, _, rfl, rfl⟩
    obtain ⟨reader, file, opened, calls⟩ := rejected
    apply readable 96 (twoInterfaces linktype) [] 0 (fun _ => true) reader file ⟨0⟩ 1 _ _ opened
      (.error (.error (typeMismatch linktype.toNat)))
    · rw [calls]
      exact mem_singleton_self _
    · exact ⟨_, rfl, _, Or.inl rfl⟩
    · intro other within
      rw [mem_singleton.mp within]
      exact twoInterfaces_uniform linktype
    · exact ⟨rfl, fun _ => trivial⟩
  · intro unchanged snaplen part parts precision heap reader file salvage n uniform legible opened
    obtain ⟨p, state, rfl, holds⟩ := pcapFopenOffline_uniform uniform legible opened
    exact calls_uniform ((linktypeToDlt_eq_self_iff _).mpr unchanged) holds n

/-- Two interfaces for raw IP: the second one has the type 101, the handle the type 12. -/
theorem two_raw_interfaces_rejected :
    (twoInterfaces 101).Uniform 101 96 ∧ ∃ reader file,
      pcapFopenOffline 0 ⟨(twoInterfaces 101).bytes, fun _ => true⟩ = (.ok reader, file) ∧
        reader.handle.linktype = dltRaw ∧
        Session.calls 1 ⟨reader, file, ⟨0⟩⟩ = [.error (.error (typeMismatch 101))] :=
  ⟨twoInterfaces_uniform 101, _, _, rfl, rfl, rfl⟩

end Libpcap.Savefile
