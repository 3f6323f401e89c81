/-
# The transmit ring of the card

The host writes into a ring and moves the limit pointer on; the card sends the bytes from
its record pointer up to the limit pointer. `nac_stream.c` has two ways to write. With
`nac_tx_stream_copy_bytes` the host copies a buffer into the ring. With
`nac_tx_get_stream_space` and `nac_tx_stream_commit_bytes` it gets a pointer into the ring,
writes there and commits what it has written.

Both wait for room. What they know of it is a signed number that is remembered between the
calls and computed anew, from the two pointers, when it is too small. Two equal pointers
may mean an empty ring or a full one, and the code takes them for an empty ring. Each way by
itself is right because it never fills the ring: it leaves a margin free, 128 bytes in one
case and 2048 in the other, and with a margin the computed number is never too large.
-/

import Mathlib.Data.List.GetD
import Libpcap.Nac.Records

namespace Libpcap.Nac

open Libpcap.Semantics Libpcap.Semantics.Ring List

variable {i n : Nat}

/-! ## Free space -/

/-- The conversion to `int32_t`. -/
def int32 (x : Int) : Int := Int.bmod x (2 ^ 32)

theorem int32_eq {x : Int} (least : -2 ^ 31 ≤ x) (less : x < 2 ^ 31) : int32 x = x :=
  Int.bmod_eq_of_le least less

/-- What `nac_tx_stream_copy_bytes` computes from the record pointer and the limit pointer. -/
def copyFree (size record limit : Nat) : Int :=
  let free := int32 ((record : Int) - (limit + safetyWindow))
  if free < 0 then int32 (free + size) else free

/-- What `nac_tx_get_stream_space` computes from the record pointer and the limit pointer. -/
def spaceFree (size record limit : Nat) : Int :=
  let free := int32 ((record : Int) - limit)
  if free ≤ 0 then int32 (free + size) else free

/-- `(int32_t)size+2048` -/
def spaceNeed (n : Nat) : Int := int32 (int32 n + 2048)

theorem spaceNeed_eq (small : n + 2048 < 2 ^ 31) : spaceNeed n = n + 2048 := by
  have same : int32 n = n := int32_eq (by omega) (by omega)
  rw [spaceNeed, same, int32_eq (by omega) (by omega)]

/-! ## The card and the host -/

/-- The ring of an attached and started transmit stream. Its size is an `int`. -/
structure TxStream where
  size : Nat
  size_pos : 0 < size
  size_lt : size < 2 ^ 31

/-- A ring that is mapped twice, one mapping behind the other, is made of whole pages. -/
structure MappedStream extends TxStream where
  pages : 4096 ∣ size

/-- Where the host is: outside the calls, waiting for room for a buffer, copying it, waiting
for space, or with a pointer to space that it may write. -/
inductive TxPhase
  | idle
  | copyWaiting (orig : List Byte)
  | copying (orig : List Byte) (done : Nat)
  | spaceWaiting (n : Nat)
  | granted (n : Nat)
  deriving DecidableEq, Repr

/-- The two pointer registers, as offsets, the ring, and the members of the stream that are
used; the bytes that the card has sent, and the buffers that the host has committed. -/
structure TxState where
  record : Nat
  limit : Nat
  buf : Nat → Byte
  offset : Nat
  freeSpace : Int
  phase : TxPhase
  took : List Byte
  buffers : List (List Byte)

/-- The events of the card and of the host. -/
inductive TxEvent
  | send (n : Nat)
  | copyBytes (orig : List Byte)
  | getSpace (n : Nat)
  | poll
  | proceed
  | copyByte
  | publish
  | write (i : Nat) (item : Byte)
  | commitBytes (n : Nat)
  deriving DecidableEq, Repr

namespace TxStream

variable (stream : TxStream)

/-- `nac_tx_attach_stream` and `nac_tx_start_stream` -/
def start (cells : Nat → Byte) : TxState where
  record := 0
  limit := 0
  buf := cells
  offset := 0
  freeSpace := 0
  phase := .idle
  took := []
  buffers := []

/-- The buffer, which is mapped twice. -/
def view (s : TxState) : Nat → Byte := fun offset => s.buf (offset % stream.size)

/-- The card sends bytes. -/
def sendBytes (n : Nat) (s : TxState) : TxState :=
  { s with
    record := (s.record + n) % stream.size
    took := s.took ++ bytesAt (stream.view s) s.record n }

/-- The cell that a byte of a copied buffer goes to: in the first of the two calls of
`memcpy` or in the second. -/
def copyCell (offset i : Nat) : Nat :=
  if i < stream.size - offset then offset + i else i - (stream.size - offset)

/-- `nac_tx_stream_copy_bytes` keeps the offset below the size. -/
def wrapCopied (offset : Nat) : Nat :=
  if stream.size ≤ offset then offset - stream.size else offset

/-- `nac_tx_stream_commit_bytes` keeps the offset up to the size. -/
def wrapCommitted (offset : Nat) : Nat :=
  if stream.size < offset then offset - stream.size else offset

/-- The offset moves on, and the limit pointer with it. -/
def publish (offset : Nat) (bytes : List Byte) (s : TxState) : TxState :=
  { s with
    offset := offset
    limit := offset
    phase := .idle
    buffers := s.buffers ++ [bytes] }

/-- One event. The card sends up to the limit pointer. A call with a size that is rejected
changes nothing. -/
def step : Transition TxEvent TxState
  | .send n, s =>
    if n ≤ distance stream.size s.record s.limit then
      some (stream.sendBytes n s)
    else none
  | .copyBytes orig, s =>
    match s.phase with
    | .idle =>
      if stream.size < orig.length then some s
      else some { s with phase := .copyWaiting orig }
    | _ => none
  | .getSpace n, s =>
    match s.phase with
    | .idle =>
      if n = 0 then some s
      else if n < 2 ^ 32 then some { s with phase := .spaceWaiting n }
      else none
    | _ => none
  | .poll, s =>
    match s.phase with
    | .copyWaiting orig =>
      if s.freeSpace < int32 orig.length then
        some { s with freeSpace := copyFree stream.size s.record s.limit }
      else none
    | .spaceWaiting n =>
      if s.freeSpace < spaceNeed n then
        some { s with freeSpace := spaceFree stream.size s.record s.limit }
      else none
    | _ => none
  | .proceed, s =>
    match s.phase with
    | .copyWaiting orig =>
      if s.freeSpace < int32 orig.length then none
      else some { s with
        freeSpace := int32 (s.freeSpace - orig.length)
        phase := .copying orig 0 }
    | .spaceWaiting n =>
      if s.freeSpace < spaceNeed n then none
      else some { s with freeSpace := int32 (s.freeSpace - n), phase := .granted n }
    | _ => none
  | .copyByte, s =>
    match s.phase with
    | .copying orig done =>
      match orig[done]? with
      | some item =>
        some { s with
          buf := Function.update s.buf (stream.copyCell s.offset done) item
          phase := .copying orig (done + 1) }
      | none => none
    | _ => none
  | .publish, s =>
    match s.phase with
    | .copying orig done =>
      if done = orig.length then
        some (publish (stream.wrapCopied (s.offset + orig.length)) orig s)
      else none
    | _ => none
  | .write i item, s =>
    match s.phase with
    | .granted n =>
      if i < n then
        some { s with buf := Function.update s.buf ((s.offset + i) % stream.size) item }
      else none
    | _ => none
  | .commitBytes n, s =>
    match s.phase with
    | .idle | .granted _ =>
      if stream.size < n then some s
      else some (publish (stream.wrapCommitted (s.offset + n))
        (bytesAt (stream.view s) s.offset n) s)
    | _ => none

/-- What an event does where it is possible. -/
inductive Move (s : TxState) : TxEvent → TxState → Prop
  | rejected (event : TxEvent) : Move s event s
  | send {n : Nat} (enough : n ≤ distance stream.size s.record s.limit) :
      Move s (.send n) (stream.sendBytes n s)
  | copyWaits {orig : List Byte} (phase : s.phase = .idle) (fits : orig.length ≤ stream.size) :
      Move s (.copyBytes orig) { s with phase := .copyWaiting orig }
  | spaceWaits {n : Nat} (phase : s.phase = .idle) (small : n < 2 ^ 32) :
      Move s (.getSpace n) { s with phase := .spaceWaiting n }
  | copyPolls {orig : List Byte} (phase : s.phase = .copyWaiting orig) :
      Move s .poll { s with freeSpace := copyFree stream.size s.record s.limit }
  | spacePolls {n : Nat} (phase : s.phase = .spaceWaiting n) :
      Move s .poll { s with freeSpace := spaceFree stream.size s.record s.limit }
  | copyProceeds {orig : List Byte} (phase : s.phase = .copyWaiting orig)
      (enough : int32 orig.length ≤ s.freeSpace) :
      Move s .proceed
        { s with
          freeSpace := int32 (s.freeSpace - orig.length)
          phase := .copying orig 0 }
  | spaceProceeds {n : Nat} (phase : s.phase = .spaceWaiting n)
      (enough : spaceNeed n ≤ s.freeSpace) :
      Move s .proceed { s with freeSpace := int32 (s.freeSpace - n), phase := .granted n }
  | copyByte {orig : List Byte} {done : Nat} (phase : s.phase = .copying orig done)
      (more : done < orig.length) :
      Move s .copyByte
        { s with
          buf := Function.update s.buf (stream.copyCell s.offset done) orig[done]
          phase := .copying orig (done + 1) }
  | publish {orig : List Byte} (phase : s.phase = .copying orig orig.length) :
      Move s .publish (publish (stream.wrapCopied (s.offset + orig.length)) orig s)
  | write {n i : Nat} {item : Byte} (phase : s.phase = .granted n) (within : i < n) :
      Move s (.write i item)
        { s with buf := Function.update s.buf ((s.offset + i) % stream.size) item }
  | commit {n : Nat} (phase : s.phase = .idle ∨ ∃ m, s.phase = .granted m)
      (fits : n ≤ stream.size) :
      Move s (.commitBytes n)
        (publish (stream.wrapCommitted (s.offset + n)) (bytesAt (stream.view s) s.offset n) s)

section Moves

variable {stream}

theorem move_of_step {event : TxEvent} {s target : TxState}
    (moved : stream.step event s = some target) : stream.Move s event target := by
  -- `rintro` closes the branches without a target
  revert moved
  fun_cases step stream event s <;> rintro ⟨⟩
  · exact .send (by assumption)
  · exact .rejected _
  · exact .copyWaits (by assumption) (by omega)
  · exact .rejected _
  · exact .spaceWaits (by assumption) (by assumption)
  · exact .copyPolls (by assumption)
  · exact .spacePolls (by assumption)
  · exact .copyProceeds (by assumption) (by omega)
  · exact .spaceProceeds (by assumption) (by omega)
  · rename_i found phase
    obtain ⟨more, rfl⟩ := List.getElem?_eq_some_iff.mp found
    exact .copyByte phase more
  · exact .publish (by assumption)
  · exact .write (by assumption) (by assumption)
  · exact .rejected _
  · exact .commit (.inl (by assumption)) (by omega)
  · exact .rejected _
  · exact .commit (.inr ⟨_, by assumption⟩) (by omega)

end Moves

end TxStream

/-! ## What fits into the ring -/

section Free

variable {size record limit : Nat}

/-- If the ring is empty or keeps the safety window free, the free space for copying is
never more than there is. -/
theorem copyFree_le (size_lt : size < 2 ^ 31) (less : record < size) (within : limit < size)
    (margin : distance size record limit = 0 ∨ distance size record limit + 128 ≤ size) :
    copyFree size record limit + distance size record limit + 128 ≤ size := by
  have cases := distance_cases less within.le
  -- the limit pointer is ahead by no more than the margin allows, so the difference fits
  have first : int32 ((record : Int) - (limit + safetyWindow)) = record - (limit + 128) :=
    int32_eq (by simp only [safetyWindow]; omega) (by simp only [safetyWindow]; omega)
  simp only [copyFree, first]
  split
  · rw [int32_eq (by omega) (by omega)]
    omega
  · omega

/-- The space to hand out is never more than there is, unless the ring is full. -/
theorem spaceFree_le (size_lt : size < 2 ^ 31) (less : record < size) (within : limit ≤ size) :
    spaceFree size record limit + distance size record limit ≤ size := by
  have cases := distance_cases less within
  have first : int32 ((record : Int) - limit) = record - limit :=
    int32_eq (by omega) (by omega)
  simp only [spaceFree, first]
  split
  · rw [int32_eq (by omega) (by omega)]
    omega
  · omega

end Free

/-! ## What both ways of writing keep -/

/-- A list as a stream. -/
def itemsOf (items : List Byte) : Nat → Byte := fun i => items.getD i 0

theorem itemsOf_append_left {items : List Byte} (more : List Byte) (less : i < items.length) :
    itemsOf (items ++ more) i = itemsOf items i :=
  getD_append items more 0 i less

theorem itemsOf_append_right (items more : List Byte) (le : items.length ≤ i) :
    itemsOf (items ++ more) i = itemsOf more (i - items.length) :=
  getD_append_right items more 0 i le

/-- Items of a list, taken one by one. -/
theorem bytesAt_itemsOf {items : List Byte} {first : Nat} (fits : first + n ≤ items.length) :
    bytesAt (itemsOf items) first n = (items.drop first).take n := by
  apply ext_getElem
  · rw [length_bytesAt, length_take, length_drop]
    omega
  · intro i below below'
    have less : first + i < items.length := by
      rw [length_bytesAt] at below
      omega
    simp [bytesAt, itemsOf, less]

namespace TxPhase

/-- How many bytes the host may be writing behind the committed ones. -/
def reserved : TxPhase → Nat
  | .copying orig _ => orig.length
  | .granted n => n
  | _ => 0

/-- Those that it has copied. -/
def staged : TxPhase → List Byte
  | .copying orig done => orig.take done
  | _ => []

/-- How many bytes a call that waits has asked for. -/
def asked : TxPhase → Nat
  | .copyWaiting orig => orig.length
  | .spaceWaiting n => n
  | _ => 0

end TxPhase

namespace TxState

/-- The bytes that the host has committed. -/
def sent (s : TxState) : List Byte := s.buffers.flatten

/-- How many committed bytes the card has not sent. -/
def used (s : TxState) : Nat := s.sent.length - s.took.length

/-- The invariant of a ring that is only written in one way, by calls that wait for
`surplus` more bytes than they use, with a free space that leaves out `slack` bytes. -/
structure Inv (stream : TxStream) (slack surplus : Nat) (s : TxState) : Prop where
  record : s.record = s.took.length % stream.size
  limit : s.limit = s.offset
  within : s.offset ≤ stream.size
  same : s.offset % stream.size = s.sent.length % stream.size
  sends : s.took <+: s.sent
  holds : Holds stream.size s.buf (itemsOf (s.sent ++ s.phase.staged)) s.took.length
    (s.sent.length + s.phase.staged.length)
  asked : s.phase.asked ≤ stream.size
  room : s.used + s.phase.reserved = 0 ∨ s.used + s.phase.reserved + (slack + surplus) ≤ stream.size
  cached : s.freeSpace ≤ 0 ∨ s.freeSpace + s.used + s.phase.reserved + slack ≤ stream.size

namespace Inv

variable {stream : TxStream} {slack surplus : Nat} {s : TxState}

theorem start (stream : TxStream) (slack surplus : Nat) (cells : Nat → Byte) :
    (TxStream.start cells).Inv stream slack surplus where
  record := (Nat.zero_mod _).symm
  limit := rfl
  within := Nat.zero_le _
  same := rfl
  sends := prefix_refl _
  holds i _ below := absurd below (Nat.not_lt_zero i)
  asked := Nat.zero_le _
  room := .inl rfl
  cached := .inl le_rfl

variable (inv : s.Inv stream slack surplus)
include inv

theorem record_lt : s.record < stream.size := by
  rw [inv.record]
  exact Nat.mod_lt _ stream.size_pos

theorem order : s.took.length ≤ s.sent.length :=
  inv.sends.length_le

/-- What the card finds between its pointers is what it has not sent. -/
theorem distance_eq (positive : 0 < slack + surplus) :
    distance stream.size s.record s.limit = s.used := by
  have left : s.record % stream.size = s.took.length % stream.size := by
    rw [inv.record, Nat.mod_mod]
  have right : s.limit % stream.size = s.sent.length % stream.size := by
    rw [inv.limit, inv.same]
  have less : s.used < stream.size := by
    have := stream.size_pos
    have := inv.room
    omega
  rw [distance_congr left right, distance_of_le stream.size_pos inv.order]
  exact Nat.mod_eq_of_lt less

/-- The committed bytes that the card has not sent are in the ring. -/
theorem unsent : Holds stream.size s.buf (itemsOf s.sent) s.took.length s.sent.length :=
  (inv.holds.mono le_rfl (Nat.le_add_right _ _)).congr
    fun _ below => itemsOf_append_left _ below

/-- The card reads committed bytes. -/
theorem bytesAt_view
    (committed : s.took.length + n ≤ s.sent.length) :
    bytesAt (stream.view s) s.record n = (s.sent.drop s.took.length).take n := by
  rw [← bytesAt_itemsOf committed]
  apply map_congr_left
  intro i within
  have cell : (s.record + i) % stream.size = (s.took.length + i) % stream.size := by
    rw [inv.record, Nat.mod_add_mod]
  rw [TxStream.view, cell]
  exact inv.unsent _ (Nat.le_add_right _ _) (by have := mem_range.mp within; omega)

theorem send (positive : 0 < slack + surplus)
    (enough : n ≤ distance stream.size s.record s.limit) :
    (stream.sendBytes n s).Inv stream slack surplus := by
  rw [inv.distance_eq positive, used] at enough
  have order := inv.order
  have grown : (stream.sendBytes n s).took.length = s.took.length + n := by
    rw [TxStream.sendBytes, length_append, length_bytesAt]
  have fewer : (stream.sendBytes n s).used ≤ s.used := by
    rw [used, used, grown]
    exact Nat.sub_le_sub_left (Nat.le_add_right _ _) _
  have reserved : (stream.sendBytes n s).phase.reserved = s.phase.reserved := rfl
  exact
    { inv with
      record := by
        rw [grown, TxStream.sendBytes, inv.record, Nat.mod_add_mod]
      sends := by
        change s.took ++ _ <+: s.sent
        rw [inv.bytesAt_view (by omega)]
        nth_rewrite 2 [← prefix_iff_eq_append.mp inv.sends]
        exact (prefix_append_right_inj _).mpr ( take_prefix _ _)
      holds := inv.holds.mono (by omega) le_rfl
      room := by
        have := inv.room
        omega
      cached := by
        have := inv.cached
        change s.freeSpace ≤ 0 ∨ s.freeSpace + _ + _ + _ ≤ _
        omega }

/-- A turn of the host that writes nothing. -/
theorem turn {free : Int} {phase : TxPhase}
    (before : s.phase.staged = []) (after : phase.staged = []) (asked : phase.asked ≤ stream.size)
    (room : s.used + phase.reserved = 0 ∨
      s.used + phase.reserved + (slack + surplus) ≤ stream.size)
    (cached : free ≤ 0 ∨ free + s.used + phase.reserved + slack ≤ stream.size) :
    Inv stream slack surplus { s with freeSpace := free, phase := phase } :=
  { inv with
    holds := by
      have holds := inv.holds
      rw [before] at holds
      change Holds _ _ (itemsOf (s.sent ++ phase.staged)) _ (s.sent.length + phase.staged.length)
      rwa [after]
    asked := asked
    room := room
    cached := cached }

/-- A call begins to wait. -/
theorem wait (phase : TxPhase)
    (before : s.phase.staged = []) (unreserved : s.phase.reserved = 0) (after : phase.staged = [])
    (asked : phase.asked ≤ stream.size) (none : phase.reserved = 0) :
    Inv stream slack surplus { s with phase := phase } := by
  have room := inv.room
  have cached := inv.cached
  rw [unreserved] at room cached
  exact inv.turn before after asked (by rwa [none]) (by rwa [none])

/-- A call that waits computes the free space anew. -/
theorem poll {free : Int} (before : s.phase.staged = [])
    (none : s.phase.reserved = 0) (bounded : free + s.used + slack ≤ stream.size) :
    Inv stream slack surplus { s with freeSpace := free } :=
  inv.turn before before inv.asked inv.room (.inr (by rw [none]; omega))

/-- A call that has waited takes what it has asked for. -/
theorem reserve (phase : TxPhase) (n : Nat)
    (before : s.phase.staged = []) (none : s.phase.reserved = 0) (after : phase.staged = [])
    (asked : phase.asked = 0) (takes : phase.reserved = n)
    (enough : (n : Int) + surplus ≤ s.freeSpace) :
    Inv stream slack surplus
      { s with freeSpace := int32 (s.freeSpace - n), phase := phase } := by
  have room := inv.room
  have cached := inv.cached
  have size_lt := stream.size_lt
  rw [none] at room cached
  rw [int32_eq (by omega) (by omega)]
  exact inv.turn before after (asked ▸ Nat.zero_le _) (by omega) (by omega)

/-- The host writes into what it has reserved. -/
theorem write (item : Byte) (before : s.phase.staged = [])
    (reserved : i < s.phase.reserved) :
    Inv stream slack surplus
      { s with buf := Function.update s.buf ((s.offset + i) % stream.size) item } := by
  have cell : (s.offset + i) % stream.size = (s.sent.length + i) % stream.size :=
    Nat.ModEq.add_right i inv.same
  have holds := inv.holds
  have room := inv.room
  have order := inv.order
  have used : s.used = s.sent.length - s.took.length := rfl
  rw [before] at holds
  exact
    { inv with
      holds := by
        change Holds _ (Function.update _ _ _) (itemsOf (s.sent ++ s.phase.staged)) _
          (s.sent.length + s.phase.staged.length)
        rw [before, cell]
        exact holds.update (Nat.add_le_add_left (Nat.zero_le i) _) (by omega) item }

/-- One more byte of a buffer is copied. -/
theorem copyByte {orig : List Byte} {done : Nat}
    (phase : s.phase = .copying orig done) (more : done < orig.length) :
    Inv stream slack surplus
      { s with
        buf := Function.update s.buf ((s.offset + done) % stream.size) orig[done]
        phase := .copying orig (done + 1) } := by
  have holds := inv.holds
  have room := inv.room
  have cached := inv.cached
  have order := inv.order
  have used : s.used = s.sent.length - s.took.length := rfl
  rw [phase] at holds room cached
  simp only [TxPhase.staged, TxPhase.reserved] at holds room cached
  have length : (orig.take done).length = done := by
    rw [length_take]
    omega
  have cell : (s.offset + done) % stream.size = (s.sent.length + done) % stream.size :=
    Nat.ModEq.add_right done inv.same
  have longer : s.sent ++ orig.take (done + 1) = (s.sent ++ orig.take done) ++ [orig[done]] := by
    rw [append_assoc, take_append_getElem]
  have item : itemsOf (s.sent ++ orig.take (done + 1)) (s.sent.length + done) = orig[done] := by
    rw [itemsOf_append_right _ _ (Nat.le_add_right _ _), Nat.add_sub_cancel_left, itemsOf]
    simp [more]
  have known : Holds stream.size s.buf (itemsOf (s.sent ++ orig.take (done + 1))) s.took.length
      (s.sent.length + done) := by
    rw [length] at holds
    refine holds.congr fun i below => ?_
    have less : i < (s.sent ++ orig.take done).length := by
      rw [length_append, length]
      exact below
    rw [longer, itemsOf_append_left _ less]
  exact
    { inv with
      holds := by
        have next : (orig.take (done + 1)).length = done + 1 := by
          rw [length_take]
          omega
        change Holds _ (Function.update _ _ _) (itemsOf (s.sent ++ orig.take (done + 1))) _
          (s.sent.length + (orig.take (done + 1)).length)
        rw [next, cell, ← item]
        exact known.push (by omega)
      asked := Nat.zero_le _
      room := room
      cached := cached }

/-- The host commits what it has written. -/
theorem publish {offset : Nat} {bytes : List Byte}
    (takes : s.phase.reserved = bytes.length) (within : offset ≤ stream.size)
    (same : offset % stream.size = (s.offset + bytes.length) % stream.size)
    (holds : Holds stream.size s.buf (itemsOf (s.sent ++ bytes)) s.took.length
      (s.sent.length + bytes.length)) :
    (TxStream.publish offset bytes s).Inv stream slack surplus := by
  have sent : (TxStream.publish offset bytes s).sent = s.sent ++ bytes := by
    simp [TxStream.publish, TxState.sent]
  have used : (TxStream.publish offset bytes s).used = s.used + bytes.length := by
    have := inv.order
    rw [TxState.used, sent, length_append]
    change _ - s.took.length = s.sent.length - s.took.length + _
    omega
  have room := inv.room
  have cached := inv.cached
  rw [takes] at room cached
  exact
    { record := inv.record
      limit := rfl
      within := within
      same := by
        rw [sent, length_append]
        exact same.trans (Nat.ModEq.add_right _ inv.same)
      sends := by
        rw [sent]
        exact inv.sends.trans (prefix_append _ _)
      holds := by
        change Holds _ _ (itemsOf (_ ++ [])) _ (_ + 0)
        rwa [sent, append_nil, length_append]
      asked := Nat.zero_le _
      room := by
        rw [used]
        exact room
      cached := by
        rw [used]
        change s.freeSpace ≤ 0 ∨ s.freeSpace + ((s.used + bytes.length : Nat) : Int) + 0 + _ ≤ _
        omega }

end Inv

end TxState

end Libpcap.Nac
