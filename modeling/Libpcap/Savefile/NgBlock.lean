/-
# Blocks of a pcap-ng file

`read_block` of `sf-pcap-ng.c` reads one block of a pcap-ng file into the buffer of
the handle, and a cursor walks over what lies between the block header and the
trailer. All that the parser reads of a block it reads through that cursor.

What the parser must not do is given a result of its own, a `Fault`: writing a block
to a buffer that is not there or too small, reading through the cursor outside the
contents of the block, using an entry of the interface table that is not there,
dividing by a resolution of zero. A file may make the parser fail, which is an
error with a text; whether it can make it fault is the subject of `NgSafety`.
-/

import Libpcap.Savefile.Common

namespace Libpcap.Savefile

open Libpcap.Semantics Libpcap.Gencode

variable {file : File} {totalLength : Nat} {p : NgSf} {state : NgState}

/-! ## The state of the parser -/

/-- `struct pcap_ng_if`, and the number of the section whose interface block has set
the entry. That number is a history variable: nothing reads it. -/
structure NgIf where
  tsresol : BitVec 32
  tsoffset : BitVec 64
  scaleType : TstampScaleType
  setIn : Nat
  deriving DecidableEq, Repr

/-- `struct block_cursor`. The contents are the bytes of the block behind its header,
the trailer included; the pointer is an offset into them. -/
structure Cursor where
  contents : List Byte
  data : Nat
  dataRemaining : Nat
  blockType : BitVec 32

/-- The interface table of `struct pcap_ng_sf`: an entry may be allocated without being
set. Two history variables follow: the number of section headers that were acted on,
and whether an interface was counted without its entry being filled in. -/
structure IfTable where
  ifcount : BitVec 32
  ifacesSize : BitVec 32
  ifaces : Option (List (Option NgIf))
  sections : Nat
  unfinished : Bool

/-- The entries of the table that are allocated. -/
def IfTable.entries (table : IfTable) : List (Option NgIf) := table.ifaces.getD []

/-- An entry of the table, if it is allocated and set. -/
def IfTable.entry (table : IfTable) (i : Nat) : Option NgIf := table.entries[i]?.join

/-- What the routines change: the buffer, `none` if it is `NULL` and otherwise its size,
the cursor and the interface table. -/
structure NgState where
  buffer : Option Nat
  cursor : Cursor
  table : IfTable

/-- The state of a handle that was just allocated. -/
def NgState.init : NgState where
  buffer := none
  cursor := ⟨[], 0, 0, 0⟩
  table := ⟨0, 0, none, 0, false⟩

/-- The handle of a pcap-ng file: `p->bufsize` and `user_tsresol` on top of the
members both formats use. -/
structure NgSf extends Pcap where
  bufsize : Nat
  userTsresol : BitVec 32
  deriving DecidableEq, Repr

/-- Behaviour that C leaves undefined. -/
inductive Fault
  | buffer
  | cursor
  | interfaces
  | division
  | loop
  deriving DecidableEq, Repr

/-- Why a routine does not return a value: it fails with a text, or it does something
undefined. -/
inductive Stop
  | error (errbuf : String)
  | fault (how : Fault)
  deriving DecidableEq, Repr

/-- A routine of the pcap-ng reader. -/
abbrev Ng (α : Type) := Reading NgState Stop α

/-- The state of the handle. -/
def own : Ng NgState := do
  let (_, state) ← get
  pure state

/-- Change the state of the handle. -/
def update (f : NgState → NgState) : Ng Unit :=
  modify fun (file, state) => (file, f state)

/-- Change the interface table. -/
def updateTable (f : IfTable → IfTable) : Ng Unit :=
  update fun state => { state with table := f state.table }

/-- Fail with a text in `errbuf`. -/
def fail {α : Type} (errbuf : String) : Ng α :=
  throw (.error errbuf)

@[simp]
theorem exec_own (file : File) (state : NgState) :
    exec own (file, state) = (.ok state, (file, state)) := rfl

theorem exec_own_bind {α : Type} (f : NgState → Ng α) (file : File) (state : NgState) :
    exec (own >>= f) (file, state) = exec (f state) (file, state) := rfl

@[simp]
theorem exec_update (f : NgState → NgState) (file : File) (state : NgState) :
    exec (update f) (file, state) = (.ok (), (file, f state)) := rfl

@[simp]
theorem exec_updateTable (f : IfTable → IfTable) (file : File) (state : NgState) :
    exec (updateTable f) (file, state) = (.ok (), (file, { state with table := f state.table })) :=
  rfl

@[simp]
theorem exec_fail {α : Type} (errbuf : String) (s : File × NgState) :
    exec (fail errbuf : Ng α) s = (.error (.error errbuf), s) := rfl

/-! ## Byte order -/

/-- A 16-bit field of the file in the host's byte order. -/
def Pcap.short (p : Pcap) (offset : Nat) (record : List Byte) : BitVec 16 :=
  if p.swapped then swapShort (Savefile.short offset record) else Savefile.short offset record

/-- A 32-bit field of the file in the host's byte order. -/
def Pcap.long (p : Pcap) (offset : Nat) (record : List Byte) : BitVec 32 :=
  if p.swapped then swapLong (Savefile.long offset record) else Savefile.long offset record

/-- A 64-bit field of the file in the host's byte order. -/
def Pcap.longlong (p : Pcap) (offset : Nat) (record : List Byte) : BitVec 64 :=
  if p.swapped then swapLL (Savefile.longlong offset record) else Savefile.longlong offset record

/-! ## Reading a block -/

/-- `read_bytes`: `none` at the end of the file, unless that is an error. -/
def readBytes (bytesToRead : Nat) (failOnEof : Bool) : Ng (Option (List Byte)) := do
  let bytes ← fread bytesToRead
  if bytes.length ≠ bytesToRead then
    if bytes.length = 0 ∧ failOnEof = false then
      pure none
    else
      fail s!"truncated dump file; tried to read {bytesToRead} bytes, only got {bytes.length}"
  else
    pure (some bytes)

/-- `sizeof (struct block_header)` -/
def blockHeaderSize : Nat := 8

/-- `sizeof (struct block_trailer)` -/
def blockTrailerSize : Nat := 4

/-- The largest block that is read. -/
def maxBlockSize : Nat := 16 * 1024 * 1024

/-- Make the buffer large enough for a block. The recorded size `bufsize` stays what
it was. -/
def growBuffer (p : NgSf) (totalLength : Nat) : Ng Unit := do
  if p.bufsize < totalLength then
    let granted ← malloc
    if granted then
      update fun state => { state with buffer := some totalLength }
    else
      update fun state => { state with buffer := none }
      fail "out of memory"

/-- Writing a block to the buffer. -/
def storeBlock (totalLength : Nat) : Ng Unit := do
  let state ← own
  match state.buffer with
  | none => throw (.fault .buffer)
  | some size => if size < totalLength then throw (.fault .buffer)

/-- The rest of `read_block`, once the header of the block has been looked at. -/
def readContents (p : NgSf) (blockType : BitVec 32) (totalLength : Nat) : Ng Unit := do
  growBuffer p totalLength
  storeBlock totalLength
  let contents ← readBytes (totalLength - blockHeaderSize) true
  update fun state =>
    { state with
      cursor :=
        ⟨contents.getD [], 0, totalLength - blockHeaderSize - blockTrailerSize, blockType⟩ }

/-- `read_block`: whether there was a block; the cursor is set to its contents. -/
def readBlock (p : NgSf) : Ng Bool := do
  match ← readBytes blockHeaderSize false with
  | none => pure false
  | some bhdr =>
    let totalLength := (p.long 4 bhdr).toNat
    if maxBlockSize < totalLength then
      fail s!"pcap-ng block size {totalLength} > maximum {maxBlockSize}"
    else if totalLength < blockHeaderSize + blockTrailerSize then
      fail s!"block in pcap-ng dump file has a length of {totalLength} < 12"
    else do
      readContents p (p.long 0 bhdr) totalLength
      pure true

/-! ## The cursor -/

/-- `get_from_block_data`: a pointer to the next bytes of the block. -/
def getFromBlockData (chunkSize : Nat) : Ng Nat := do
  let state ← own
  if state.cursor.dataRemaining < chunkSize then
    fail s!"block of type {state.cursor.blockType.toNat} in pcap-ng dump file is too short"
  update fun state =>
    { state with
      cursor :=
        { state.cursor with
          data := state.cursor.data + chunkSize
          dataRemaining := state.cursor.dataRemaining - chunkSize } }
  pure state.cursor.data

/-- The cursor may read the `n` bytes at a pointer: they lie inside the block, in
front of its trailer, and inside the buffer. -/
def NgState.MayRead (state : NgState) (pointer n : Nat) : Prop :=
  pointer + n + blockTrailerSize ≤ state.cursor.contents.length ∧
    ∃ size ∈ state.buffer, blockHeaderSize + pointer + n ≤ size

instance (state : NgState) (pointer n : Nat) : Decidable (state.MayRead pointer n) :=
  inferInstanceAs (Decidable (_ ∧ ∃ size ∈ state.buffer, _))

/-- The `n` bytes at a pointer into the block. -/
def load (pointer n : Nat) : Ng (List Byte) := do
  let state ← own
  if state.MayRead pointer n then
    pure (field pointer n state.cursor.contents)
  else
    throw (.fault .cursor)

/-- The next `n` bytes of the block, through a pointer to them. -/
def fixedPart (n : Nat) : Ng (List Byte) := do
  let pointer ← getFromBlockData n
  load pointer n

/-! ## What the cursor may do -/

namespace NgState

/-- The state with the cursor moved over some bytes. -/
def advance (state : NgState) (n : Nat) : NgState :=
  { state with
    cursor :=
      { state.cursor with
        data := state.cursor.data + n
        dataRemaining := state.cursor.dataRemaining - n } }

/-- The bytes still to be read lie in front of the trailer, and the block lies in the
buffer. -/
structure CursorOk (state : NgState) : Prop where
  inside : state.cursor.data + state.cursor.dataRemaining + blockTrailerSize ≤
    state.cursor.contents.length
  stored : ∃ size ∈ state.buffer, blockHeaderSize + state.cursor.contents.length ≤ size

/-- Only the cursor has moved, and not past the bytes that remained. -/
def Walks (state state' : NgState) : Prop :=
  ∃ n ≤ state.cursor.dataRemaining, state' = state.advance n

variable {state state' : NgState}

theorem advance_advance (state : NgState) (m n : Nat) :
    (state.advance m).advance n = state.advance (m + n) := by
  simp only [advance, Nat.add_assoc, Nat.sub_sub]

theorem Walks.refl (state : NgState) : state.Walks state := ⟨0, Nat.zero_le _, rfl⟩

theorem Walks.trans {state'' : NgState} (first : state.Walks state')
    (second : state'.Walks state'') : state.Walks state'' := by
  obtain ⟨m, within, rfl⟩ := first
  obtain ⟨n, further, rfl⟩ := second
  simp only [advance] at further
  exact ⟨m + n, by omega, state.advance_advance m n⟩

theorem CursorOk.walks (ok : state.CursorOk) (walks : state.Walks state') : state'.CursorOk := by
  obtain ⟨n, within, rfl⟩ := walks
  have inside := ok.inside
  refine ⟨?_, ok.stored⟩
  simp only [advance]
  omega

/-- Bytes that the cursor has not passed yet may be read. -/
theorem CursorOk.mayRead (ok : state.CursorOk) {n : Nat} (within : n ≤ state.cursor.dataRemaining) :
    state.MayRead state.cursor.data n := by
  obtain ⟨size, allocated, fits⟩ := ok.stored
  have inside := ok.inside
  exact ⟨by omega, size, allocated, by omega⟩

end NgState

/-- A stop with a text in `errbuf`, after which the handle may be used again. -/
def Stop.IsError (stop : Stop) : Prop := ∃ errbuf, stop = .error errbuf

section Cursor

variable {file : File} {state : NgState}

theorem getFromBlockData_ends (file : File) (state : NgState) (n : Nat) :
    Ends (exec (getFromBlockData n) (file, state))
      (fun pointer s => n ≤ state.cursor.dataRemaining ∧ pointer = state.cursor.data ∧
        s = (file, state.advance n))
      (fun stop s => stop.IsError ∧ state.cursor.dataRemaining < n ∧ s = (file, state)) := by
  simp only [getFromBlockData, exec_bind, exec_own, andThen_ok, exec_ite, exec_fail, exec_pure,
    exec_update]
  split
  · rename_i few
    exact ⟨⟨_, rfl⟩, few, rfl⟩
  · rename_i enough
    exact ⟨by omega, rfl, rfl⟩

theorem exec_load {pointer n : Nat} (may : state.MayRead pointer n) :
    exec (load pointer n) (file, state) =
      (.ok (field pointer n state.cursor.contents), (file, state)) := by
  simp [load, if_pos may]

theorem fixedPart_ends (ok : state.CursorOk) (n : Nat) :
    Ends (exec (fixedPart n) (file, state))
      (fun raw s => n ≤ state.cursor.dataRemaining ∧
        raw = field state.cursor.data n state.cursor.contents ∧ s = (file, state.advance n))
      (fun stop s => stop.IsError ∧ state.cursor.dataRemaining < n ∧ s = (file, state)) := by
  refine (getFromBlockData_ends file state n).seq ?_
  rintro _ _ ⟨within, rfl, rfl⟩
  have may : (state.advance n).MayRead state.cursor.data n := ok.mayRead within
  rw [exec_load may]
  exact ⟨within, rfl, rfl⟩

end Cursor

/-! ## What `read_block` does -/

namespace NgSf

variable (p : NgSf)

/-- The buffer, if there is one, has at least the recorded size. -/
def Roomy (state : NgState) : Prop := ∀ size ∈ state.buffer, p.bufsize ≤ size

/-- The length of the next block, as its header gives it. -/
def nextLength (file : File) : Nat :=
  (p.long 4 (file.unread.take blockHeaderSize)).toNat

/-- The buffer is gone, and the next block is one that it would have held: the reader
does not allocate it anew, and writes to it. -/
structure LostBuffer (file : File) (state : NgState) : Prop where
  lost : state.buffer = none
  header : blockHeaderSize ≤ file.unread.length
  least : blockHeaderSize + blockTrailerSize ≤ p.nextLength file
  most : p.nextLength file ≤ maxBlockSize
  fits : p.nextLength file ≤ p.bufsize

end NgSf

theorem readBytes_ends (n : Nat) (failOnEof : Bool) (file : File) (state : NgState) :
    Ends (exec (readBytes n failOnEof) (file, state))
      (fun bytes s => s = ({ file with unread := file.unread.drop n }, state) ∧
        ((n ≤ file.unread.length ∧ bytes = some (file.unread.take n)) ∨
          (file.unread.length < n ∧ failOnEof = false ∧ bytes = none)))
      (fun stop s => stop.IsError ∧ s = ({ file with unread := file.unread.drop n }, state) ∧
        file.unread.length < n) := by
  simp only [readBytes, exec_bind, exec_fread, andThen_ok, exec_ite, exec_pure, exec_fail,
    List.length_take]
  split
  · rename_i short
    split
    · rename_i eof
      exact ⟨rfl, Or.inr ⟨by omega, eof.2, rfl⟩⟩
    · exact ⟨⟨_, rfl⟩, rfl, by omega⟩
  · rename_i whole
    exact ⟨rfl, Or.inl ⟨by omega, rfl⟩⟩

/-- Growing the buffer makes it large enough for the block, unless the block fits the
recorded size. -/
theorem growBuffer_ends (roomy : p.Roomy state) :
    Ends (exec (growBuffer p totalLength) (file, state))
      (fun _ s => s.1.unread = file.unread ∧ s.2.table = state.table ∧ p.Roomy s.2 ∧
        (∀ size ∈ s.2.buffer, totalLength ≤ size) ∧
        (s.2.buffer = none ↔ state.buffer = none ∧ totalLength ≤ p.bufsize))
      (fun stop s => stop.IsError ∧ s.2.table = state.table ∧ p.Roomy s.2 ∧
        p.bufsize < totalLength) := by
  simp only [growBuffer, exec_ite, exec_bind, exec_malloc, andThen_ok, exec_update, exec_fail,
    exec_pure]
  split
  · rename_i grow
    split
    · refine ⟨rfl, rfl, ?_, ?_, ?_⟩
      · rintro size ⟨⟩
        omega
      · rintro size ⟨⟩
        omega
      · constructor
        · rintro ⟨⟩
        · rintro ⟨_, small⟩
          omega
    · exact ⟨⟨_, rfl⟩, rfl, by rintro size ⟨⟩, grow⟩
  · rename_i small
    refine ⟨rfl, rfl, roomy, ?_, ?_⟩
    · intro size allocated
      have := roomy size allocated
      omega
    · constructor
      · intro lost
        exact ⟨lost, by omega⟩
      · intro lost
        exact lost.1

/-- Writing a block to a buffer that is large enough if it is there. -/
theorem storeBlock_ends (large : ∀ size ∈ state.buffer, totalLength ≤ size) :
    Ends (exec (storeBlock totalLength) (file, state))
      (fun _ s => s = (file, state) ∧ ∃ size ∈ state.buffer, totalLength ≤ size)
      (fun stop s => stop = .fault .buffer ∧ s = (file, state) ∧ state.buffer = none) := by
  simp only [storeBlock, exec_bind, exec_own, andThen_ok]
  cases buffer : state.buffer with
  | none => exact ⟨rfl, rfl, rfl⟩
  | some size =>
    have fits := large size (by rw [buffer]; rfl)
    rw [exec_ite, if_neg (by omega)]
    exact ⟨rfl, size, rfl, fits⟩

/-- Reading the contents of a block whose length is not too small. -/
theorem readContents_ends {blockType : BitVec 32} (roomy : p.Roomy state)
    (least : blockHeaderSize + blockTrailerSize ≤ totalLength) :
    Ends (exec (readContents p blockType totalLength) (file, state))
      (fun _ s => s.2.table = state.table ∧ p.Roomy s.2 ∧ s.2.CursorOk ∧
        s.1.unread.length + totalLength = file.unread.length + blockHeaderSize ∧
        ¬ (state.buffer = none ∧ totalLength ≤ p.bufsize))
      (fun stop s => s.2.table = state.table ∧ p.Roomy s.2 ∧
        ((stop.IsError ∧ ¬ (state.buffer = none ∧ totalLength ≤ p.bufsize)) ∨
          (stop = .fault .buffer ∧ state.buffer = none ∧ totalLength ≤ p.bufsize))) := by
  apply Ends.bind (growBuffer_ends roomy)
  · rintro _ ⟨file', grown⟩ ⟨unread, table, roomy', large, lost⟩
    apply Ends.bind (storeBlock_ends large)
    · rintro _ _ ⟨rfl, size, allocated, fits⟩
      have there : ¬ (state.buffer = none ∧ totalLength ≤ p.bufsize) := by
        intro gone
        rw [lost.mpr gone] at allocated
        cases allocated
      apply Ends.bind (readBytes_ends (totalLength - blockHeaderSize) true file' grown)
      · rintro bytes _ ⟨rfl, ⟨whole, rfl⟩ | ⟨_, impossible, _⟩⟩
        · have length : (file'.unread.take (totalLength - blockHeaderSize)).length =
              totalLength - blockHeaderSize := List.length_take_of_le whole
          refine ⟨table, roomy', ⟨?_, size, allocated, ?_⟩, ?_, there⟩
          · simp only [Option.getD_some, length]
            omega
          · simp only [Option.getD_some, length]
            omega
          · simp only [List.length_drop, ← unread]
            omega
        · cases impossible
      · rintro stop _ ⟨isError, rfl, _⟩
        exact ⟨table, roomy', Or.inl ⟨isError, there⟩⟩
    · rintro stop _ ⟨rfl, rfl, gone⟩
      exact ⟨table, roomy', Or.inr ⟨rfl, lost.mp gone⟩⟩
  · rintro stop s ⟨isError, table, roomy', grow⟩
    exact ⟨table, roomy', Or.inl ⟨isError, fun small => by omega⟩⟩

/-- **One block.** Reading a block leaves the interface table alone. It sets the cursor to
bytes that lie in the block and in the buffer, fails with a text, or, exactly when the
buffer was lost, writes to a buffer that is not there. -/
theorem readBlock_ends (roomy : p.Roomy state) :
    Ends (exec (readBlock p) (file, state))
      (fun more s => s.2.table = state.table ∧ p.Roomy s.2 ∧ ¬ p.LostBuffer file state ∧
        (more = true → s.2.CursorOk ∧ s.1.unread.length + 12 ≤ file.unread.length) ∧
        (more = false → s.2 = state))
      (fun stop s => s.2.table = state.table ∧ p.Roomy s.2 ∧
        ((stop.IsError ∧ ¬ p.LostBuffer file state) ∨
          (stop = .fault .buffer ∧ p.LostBuffer file state))) := by
  apply Ends.bind (readBytes_ends blockHeaderSize false file state)
  · rintro bytes _ ⟨rfl, ⟨whole, rfl⟩ | ⟨short, _, rfl⟩⟩
    · rw [exec_ite, exec_ite]
      split
      · rename_i large
        refine ⟨rfl, roomy, Or.inl ⟨⟨_, rfl⟩, fun lost => ?_⟩⟩
        exact absurd lost.most (not_le.mpr large)
      split
      · rename_i small
        refine ⟨rfl, roomy, Or.inl ⟨⟨_, rfl⟩, fun lost => ?_⟩⟩
        exact absurd lost.least (not_le.mpr small)
      · rename_i small large
        have lost : p.LostBuffer file state ↔ state.buffer = none ∧ p.nextLength file ≤ p.bufsize :=
          ⟨fun lost => ⟨lost.lost, lost.fits⟩,
            fun lost => ⟨lost.1, whole, not_lt.mp large, not_lt.mp small, lost.2⟩⟩
        rw [lost]
        refine (readContents_ends roomy (not_lt.mp large)).seq ?_
        rintro _ s ⟨table, roomy', ok, consumed, there⟩
        refine ⟨table, roomy', there, fun _ => ⟨ok, ?_⟩, by simp⟩
        rw [List.length_drop] at consumed
        have least := not_lt.mp large
        simp only [blockHeaderSize, blockTrailerSize] at *
        omega
    · refine ⟨rfl, roomy, ?_, by simp, by simp⟩
      intro lost
      have := lost.header
      omega
  · rintro stop _ ⟨isError, rfl, short⟩
    refine ⟨rfl, roomy, Or.inl ⟨isError, ?_⟩⟩
    intro lost
    have := lost.header
    omega

end Libpcap.Savefile
