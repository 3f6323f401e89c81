/-
# Setting up the streams of a card

A card has a receive stream, a transmit stream and a stream for its flow table, each
with a part of one large buffer. A stream is configured, which programs the registers of
the card and allocates a block that maps the registers of the stream; it is attached,
which maps its part of the buffer into the program; then it is started and stopped, and
at last detached, which releases the block and the mapping.

The block and the mapping are kept in pools, so that the model goes on where the program
would use something that was released. What went wrong is recorded.
-/

import Libpcap.Semantics.Interleaving
import Libpcap.Semantics.Pool

namespace Libpcap.Nac

open Libpcap.Semantics

/-! ## Cards -/

def numStream : Nat := 1

/-- The number of the flow table's stream, `NUM_STREAM * 2`. -/
def rftNum : Nat := numStream * 2

/-- `RFT_SIZE`, 8 MB. -/
def rftSize : BitVec 32 := 8 * (1 * 1024 * 1024)

/-- `STREAM_REG_DIFF_0x40` -/
def streamRegDiff : Nat := 0x40

/-- How packets are forwarded. -/
inductive FwdType
  | overlapFwd
  | copyFwd
  deriving DecidableEq, Repr

/-- The registers of a stream, `nacpbm_stream_t`. -/
structure Pbm where
  dmaBufStart : Nat
  dmaBufEnd : Nat
  dmaCtlReg : Nat
  recordPtr : Nat
  limitPtr : Nat
  deriving DecidableEq, Repr, Inhabited

/-- The registers of a receive stream. -/
def rxPbm (i : Nat) : Pbm where
  dmaBufStart := 0x80004 + i * streamRegDiff
  dmaBufEnd := 0x8000c + i * streamRegDiff
  dmaCtlReg := 0x80000 + i * streamRegDiff
  recordPtr := 0x80020 + i * streamRegDiff
  limitPtr := 0x80014 + i * streamRegDiff

/-- The registers of a transmit stream. -/
def txPbm (i : Nat) : Pbm where
  dmaBufStart := 0x80204 + i * streamRegDiff
  dmaBufEnd := 0x8020c + i * streamRegDiff
  dmaCtlReg := 0x80200 + i * streamRegDiff
  recordPtr := 0x8021c + i * streamRegDiff
  limitPtr := 0x80214 + i * streamRegDiff

/-- The registers of the flow table's stream. -/
def rftPbm : Pbm where
  dmaBufStart := 0x50304
  dmaBufEnd := 0x5030c
  dmaCtlReg := 0x50300
  recordPtr := 0x50320
  limitPtr := 0x50314

/-- `stream_t`; the pointers to the mapping and to the block are numbers in their pools, or `none`
for `NULL`. -/
structure CardStream where
  buf : Option Nat
  size : BitVec 32
  extraWindowSize : BitVec 32
  pbm : Option Nat
  phyaddr : BitVec 32
  attached : Bool
  started : Bool
  deriving DecidableEq, Repr, Inhabited

/-- What goes wrong with a pointer. -/
inductive Fault
  | nullPointer
  | useAfterFree
  | doubleFree
  | doubleUnmap
  deriving DecidableEq, Repr

/-- `sheep_t` with `nacinf_t`, the registers of the card, the memory, and the faults so far. -/
structure Card where
  opened : Bool
  phyAddr : BitVec 32
  bufSize : BitVec 32
  stream : Nat → CardStream
  regs : Nat → BitVec 32
  pbms : Nat → Pbm
  heap : Pool
  maps : Pool
  faults : List Fault

namespace Card

variable (c : Card) (n : Nat)

def regWrite (offset : Nat) (value : BitVec 32) : Card :=
  { c with regs := Function.update c.regs offset value }

/-- Change a stream. -/
def setStream (change : CardStream → CardStream) : Card :=
  { c with stream := Function.update c.stream n (change (c.stream n)) }

def fail (fault : Fault) : Card := { c with faults := c.faults ++ [fault] }

/-- The block of a stream, as it is or as it was. -/
def pbmOf : Pbm := (c.stream n).pbm.elim default c.pbms

/-- The block of a stream is allocated. -/
def configured : Bool := (c.stream n).pbm.any c.heap.live

/-- Look into the block of a stream. -/
def usePbm : Card :=
  match (c.stream n).pbm with
  | none => c.fail .nullPointer
  | some block => if c.heap.live block then c else c.fail .useAfterFree

/-- `free(stream->pbm)`, unless it is `NULL`. -/
def freePbm : Card :=
  match (c.stream n).pbm with
  | none => c
  | some block =>
    if c.heap.live block then { c with heap := c.heap.release block } else c.fail .doubleFree

/-- `munmap(stream->buf, …)` -/
def unmapBuf : Card :=
  match (c.stream n).buf with
  | none => c
  | some map => if c.maps.live map then { c with maps := c.maps.release map } else c.fail .doubleUnmap

end Card

/-! ## Configuring -/

/-- The value of the control register that loads the addresses and clears the status. -/
def ctlLoad : BitVec 32 := 0b110

/-- The value that only loads the addresses. -/
def ctlAddrLoad : BitVec 32 := 0b10

/-- The bit of the control register that lets the stream run, `dma_pause_n`. -/
def ctlRun : BitVec 32 := 0b1000

section Configure

variable (bufSize : BitVec 32)

/-- `malloc` for a block with the given registers, and the size of the stream. -/
def allocPbm (c : Card) (n : Nat) (pbm : Pbm) : Card :=
  { c with
    heap := c.heap.alloc
    pbms := Function.update c.pbms c.heap.next pbm
    stream := Function.update c.stream n
      { c.stream n with pbm := some c.heap.next, size := bufSize } }

/-- One turn of the loop over the receive streams. -/
def configureRx (c : Card) (i : Nat) : Card :=
  let c := allocPbm bufSize c i (rxPbm i)
  let pbm := c.pbmOf i
  let c := c.regWrite pbm.dmaCtlReg 0
  let c := c.regWrite pbm.dmaBufStart (c.phyAddr + BitVec.ofNat 32 i * bufSize)
  let c := c.regWrite pbm.dmaBufEnd (c.phyAddr + bufSize + BitVec.ofNat 32 i * bufSize)
  c.regWrite pbm.dmaCtlReg ctlLoad

/-- One turn of the loop over the transmit streams. -/
def configureTx (flags : FwdType) (c : Card) (i : Nat) : Card :=
  let c := allocPbm bufSize c (i + numStream) (txPbm i)
  let pbm := c.pbmOf (i + numStream)
  let c := c.regWrite pbm.dmaCtlReg 0
  let c :=
    match flags with
    | .overlapFwd =>
      let c := c.regWrite pbm.dmaBufStart (c.phyAddr + BitVec.ofNat 32 i * bufSize)
      -- the end goes to the register of the receive stream
      c.regWrite (c.pbmOf i).dmaBufEnd (c.phyAddr + bufSize + BitVec.ofNat 32 i * bufSize)
    | .copyFwd =>
      let c := c.regWrite pbm.dmaBufStart (c.phyAddr + BitVec.ofNat 32 (i + numStream) * bufSize)
      c.regWrite pbm.dmaBufEnd
        (c.phyAddr + bufSize + BitVec.ofNat 32 (i + numStream) * bufSize)
  c.regWrite pbm.dmaCtlReg ctlLoad

def streamSize (c : Card) (flags : FwdType) : BitVec 32 :=
  match flags with
  | .overlapFwd => c.bufSize / BitVec.ofNat 32 numStream
  | .copyFwd => c.bufSize / BitVec.ofNat 32 (numStream * 2)

/-- `nac_inline_msu_configure`; `none` where it exits. -/
def nacInlineMsuConfigure (c : Card) (streams : Int) (flags : FwdType) : Option Card :=
  if streams ≤ 0 ∨ numStream < streams then none
  else if ¬ c.opened then some (c.fail .nullPointer)
  else
    let size := streamSize c flags
    let numbers := List.range streams.toNat
    some (numbers.foldl (configureTx size flags) (numbers.foldl (configureRx size) c))

/-- `capture_stop` -/
def captureStop (c : Card) : Card := c.regWrite 0x90028 (c.regs 0x90028 &&& 0xfffffe00)

/-- The size of a stream beside the flow table. -/
def sizeBesideTable (c : Card) (streams : Nat) : BitVec 32 :=
  (c.bufSize - rftSize) / BitVec.ofNat 32 streams

/-- One turn of the loop of `nac_msu_configure`. -/
def configureStream (c : Card) (i : Nat) : Card :=
  let c := allocPbm bufSize c i (rxPbm i)
  let pbm := c.pbmOf i
  let c := c.regWrite pbm.dmaBufStart (c.phyAddr + BitVec.ofNat 32 i * bufSize)
  let c := c.regWrite pbm.dmaBufEnd (c.phyAddr + bufSize + BitVec.ofNat 32 i * bufSize)
  c.regWrite pbm.dmaCtlReg ctlLoad

/-- `nac_msu_configure`, from where the flow table's stream is configured and runs. -/
def configureRft (c : Card) (n : Nat) : Card :=
  let c := allocPbm rftSize c n rftPbm
  let pbm := c.pbmOf n
  let start := c.phyAddr + BitVec.ofNat 32 n * bufSize
  let c := (c.regWrite pbm.dmaCtlReg 0).regWrite pbm.dmaCtlReg ctlAddrLoad
  let c := (c.regWrite pbm.dmaBufStart start).regWrite pbm.dmaBufEnd (start + rftSize)
  (c.regWrite pbm.limitPtr start).regWrite pbm.dmaCtlReg ctlRun

def nacMsuConfigure (c : Card) (streams : Int) : Card × Int :=
  if streams ≤ 0 ∨ 8 < streams ∨ streams = 3 then (c, -1)
  else if ¬ c.opened then (c.fail .nullPointer, 0)
  else
    let n := streams.toNat
    let size := sizeBesideTable c n
    (configureRft size ((List.range n).foldl (configureStream size) (captureStop c)) n, 0)

/-- `nac_proc_config`; `none` where it divides by zero. -/
def nacProcConfig (c : Card) (streams n : Nat) : Option Card :=
  if ¬ c.opened then some (c.fail .nullPointer)
  else if streams = 0 then none
  else some ((allocPbm (sizeBesideTable c streams) c n (rxPbm n)).regWrite (rxPbm n).dmaCtlReg ctlLoad)

/-- `nac_proc_rft_config`; `none` where it divides by zero. -/
def nacProcRftConfig (c : Card) (streams : Nat) : Option Card :=
  if ¬ c.opened then some (c.fail .nullPointer)
  else if streams = 0 then none
  else some (allocPbm rftSize c streams rftPbm)

end Configure

/-! ## Attaching -/

section Attach

variable (c : Card) (n : Nat)

/-- A new mapping is stored in a stream. -/
def mapBuf (size extra phyaddr : BitVec 32) : Card :=
  { c with
    maps := c.maps.alloc
    stream := Function.update c.stream n
      { c.stream n with
        buf := some c.maps.next
        size := size
        extraWindowSize := extra
        phyaddr := phyaddr
        attached := true
        started := false } }

/-- The second window, if it is not larger than the first one. -/
def extraWindow (size extra : BitVec 32) : Option (BitVec 32) :=
  let extra := if extra = 0 then size else extra
  if size.toInt < extra.toInt then none else some extra

/-- `nac_attach_stream`, where `mapped` says whether the calls of `mmap` succeed. -/
def nacAttachStream (extra : BitVec 32) (mapped : Bool) : Card × Int :=
  let size := (c.stream n).size
  if ¬ c.opened then (c, -1)
  else
    match extraWindow size extra with
    | none => (c, -1)
    | some extra =>
      if ¬ mapped then (c, -1)
      else (mapBuf c n size extra (c.phyAddr + BitVec.ofNat 32 n * size), 0)

/-- `nac_tx_attach_stream`. In overlap mode the stream keeps the address and the mapping that it
has. -/
def nacTxAttachStream (flags : FwdType) (extra : BitVec 32) (mapped : Bool) : Card × Int :=
  let size := (c.stream n).size
  if ¬ c.opened then (c, -1)
  else if n < numStream then (c, -1)
  else
    match extraWindow size extra with
    | none => (c, -1)
    | some extra =>
      match flags with
      | .overlapFwd =>
        (c.setStream n fun stream =>
          { stream with extraWindowSize := extra, attached := true, started := false }, 0)
      | .copyFwd =>
        if ¬ mapped then (c, -1)
        else (mapBuf c n size extra (c.phyAddr + BitVec.ofNat 32 n * size), 0)

def nacRftAttachStream (mapped : Bool) : Card × Int :=
  if ¬ c.opened then (c, -1)
  else
    let size := sizeBesideTable c rftNum
    let sized := c.setStream rftNum fun stream => { stream with size := rftSize }
    if ¬ mapped then (sized, -1)
    else (mapBuf sized rftNum rftSize 0 (c.phyAddr + BitVec.ofNat 32 rftNum * size), 0)

end Attach

/-! ## Running and detaching -/

section Run

variable (c : Card) (n : Nat)

/-- Clear the bit that lets a stream run. -/
def pauseDma : Card :=
  let ctl := (c.pbmOf n).dmaCtlReg
  (c.usePbm n).regWrite ctl (c.regs ctl &&& ~~~ctlRun)

/-- Write the limit pointer and let a stream run. -/
def runDma (limit : BitVec 32) : Card :=
  ((c.regWrite (c.pbmOf n).limitPtr limit).regWrite (c.pbmOf n).dmaCtlReg ctlRun).setStream n
    fun stream => { stream with started := true }

/-- `nac_start_stream`, which looks into the block before it tests anything. -/
def nacStartStream : Card × Int :=
  let stream := c.stream n
  let c := c.usePbm n
  if ¬ c.opened ∨ ¬ stream.attached ∨ stream.started then (c, -1)
  else (runDma c n (stream.phyaddr + stream.size), 0)

/-- `nac_tx_start_stream`, with the limit pointer at the start of the buffer. -/
def nacTxStartStream : Card × Int :=
  let stream := c.stream n
  let c := c.usePbm n
  if ¬ c.opened ∨ ¬ stream.attached ∨ stream.started ∨ n < numStream then (c, -1)
  else (runDma c n stream.phyaddr, 0)

/-- `nac_rft_start`, after the card has read the table. It does not test whether the stream is
attached. -/
def nacRftStart : Card :=
  let c := c.usePbm rftNum
  if ¬ c.opened then c.fail .nullPointer
  else
    let start := c.phyAddr + BitVec.ofNat 32 rftNum * sizeBesideTable c rftNum
    let limit := (c.pbmOf rftNum).limitPtr
    ((c.regWrite limit (start + rftSize / 2)).regWrite limit (start + rftSize)).setStream rftNum
      fun stream => { stream with started := true }

def nacStopStream : Card × Int :=
  if ¬ c.opened ∨ ¬ (c.stream n).attached ∨ ¬ (c.stream n).started then (c, -1)
  else ((pauseDma c n).setStream n fun stream => { stream with started := false }, 0)

/-- `nac_tx_stop_stream`, after the card has sent everything. -/
def nacTxStopStream : Card × Int :=
  if ¬ c.opened ∨ ¬ (c.stream n).attached ∨ ¬ (c.stream n).started ∨ n < numStream then (c, -1)
  else ((pauseDma c n).setStream n fun stream => { stream with started := false }, 0)

/-- Release the block of a stream, and the mapping unless it is shared. -/
def releaseStream (unmaps : Bool) : Card :=
  if (c.stream n).buf = none then c
  else
    let c := (pauseDma c n).freePbm n
    if unmaps then c.unmapBuf n else c

/-- The flags of a stream that was detached. The pointers stay. -/
def clearFlags : Card := c.setStream n fun stream => { stream with started := false, attached := false }

def nacDetachStream : Card × Int :=
  if ¬ c.opened then (c, -1) else (clearFlags (releaseStream c n true) n, 0)

def nacTxDetachStream (flags : FwdType) : Card × Int :=
  if ¬ c.opened then (c, -1)
  else if n < numStream then (c, -1)
  else (clearFlags (releaseStream c n (flags ≠ .overlapFwd)) n, 0)

end Run

/-! ## Calls -/

/-- The calls on a stream. -/
inductive Call
  | configure (streams : Int) (flags : FwdType)
  | msuConfigure (streams : Int)
  | procConfig (streams n : Nat)
  | procRftConfig (streams : Nat)
  | attach (n : Nat) (extra : BitVec 32) (mapped : Bool)
  | txAttach (n : Nat) (flags : FwdType) (extra : BitVec 32) (mapped : Bool)
  | rftAttach (mapped : Bool)
  | start (n : Nat)
  | txStart (n : Nat)
  | rftStart
  | stop (n : Nat)
  | txStop (n : Nat)
  | detach (n : Nat)
  | txDetach (n : Nat) (flags : FwdType)
  deriving DecidableEq, Repr

/-- The calls, in any order. -/
def step : Transition Call Card
  | .configure streams flags, c => nacInlineMsuConfigure c streams flags
  | .msuConfigure streams, c => some (nacMsuConfigure c streams).1
  | .procConfig streams n, c => nacProcConfig c streams n
  | .procRftConfig streams, c => nacProcRftConfig c streams
  | .attach n extra mapped, c => some (nacAttachStream c n extra mapped).1
  | .txAttach n flags extra mapped, c => some (nacTxAttachStream c n flags extra mapped).1
  | .rftAttach mapped, c => some (nacRftAttachStream c mapped).1
  | .start n, c => some (nacStartStream c n).1
  | .txStart n, c => some (nacTxStartStream c n).1
  | .rftStart, c => some (nacRftStart c)
  | .stop n, c => some (nacStopStream c n).1
  | .txStop n, c => some (nacTxStopStream c n).1
  | .detach n, c => some (nacDetachStream c n).1
  | .txDetach n flags, c => some (nacTxDetachStream c n flags).1

/-- A card that was opened. -/
def openCard (phyAddr bufSize : BitVec 32) (regs : Nat → BitVec 32) : Card where
  opened := true
  phyAddr := phyAddr
  bufSize := bufSize
  stream _ := default
  regs := regs
  pbms _ := default
  heap := .empty
  maps := .empty
  faults := []

end Libpcap.Nac
