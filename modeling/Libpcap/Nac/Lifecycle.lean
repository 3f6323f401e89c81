/-
# The life of a stream

A stream that was started is attached, whatever the order of the calls, as long as
`nac_rft_start`, which does not look, is called for an attached stream only. But when a
stream is detached, the pointers to what is released are kept, and a second call follows
them again. This happens when `qnf_stream_config` fails, which detaches the streams, and
`qnf_stream_close` is called then. No call uses what was released if a stream is started
only after it was configured, and detached only while it is attached and configured.
-/

import Libpcap.Nac.Stream

namespace Libpcap.Nac

open Libpcap.Semantics Function

variable {c d : Card} {flags : FwdType} {streams : Int} {n : Nat}

/-! ## Setting up and closing a capture -/

section Qnf

variable (c : Card)

/-- The numbers of the streams of a capture. -/
def rxStream : Nat := 0

/-- The number of the transmit stream. -/
def txStream : Nat := 0 + numStream

/-- `nac_set_stream_poll` and `nac_tx_set_stream_poll`, which change nothing that is modelled. -/
def setsPoll (n : Nat) : Bool := c.opened ∧ (c.stream n).attached

/-- The exit `rx_attach_fail` of `qnf_stream_config`. -/
def rxAttachFail : Card × Int := ((nacDetachStream c rxStream).1, -1)

/-- The exit `tx_attach_fail` of `qnf_stream_config`. -/
def txAttachFail : Card × Int := rxAttachFail (nacTxDetachStream c txStream .copyFwd).1

/-- `qnf_stream_config`, from where the transmit stream is attached. -/
def qnfConfigTx (txMapped : Bool) : Card × Int :=
  let (c, ret) := nacTxAttachStream c txStream .copyFwd 0 txMapped
  if ret ≠ 0 then txAttachFail c
  else if ¬ setsPoll c txStream then txAttachFail c
  else
    let (c, ret) := nacTxStartStream c txStream
    if ret < 0 then txAttachFail c else (c, 0)

/-- `qnf_stream_config`, where the arguments say which mappings succeed. -/
def qnfStreamConfig (rxMapped txMapped : Bool) : Card × Int :=
  let (c, ret) := nacAttachStream c rxStream 0 rxMapped
  if ret < 0 then rxAttachFail c
  else if ¬ setsPoll c rxStream then rxAttachFail c
  else
    let (c, ret) := nacStartStream c rxStream
    if ret < 0 then rxAttachFail c else qnfConfigTx c txMapped

def qnfStreamClose : Card :=
  let c := (nacStopStream c rxStream).1
  let c := (nacDetachStream c rxStream).1
  let c := (nacTxStopStream c txStream).1
  (nacTxDetachStream c txStream .copyFwd).1

def qnfCardConfig : Option Card := nacInlineMsuConfigure c numStream .copyFwd

end Qnf

/-- A call is a step. -/
theorem reaches_step (call : Call) {e : Card} (moved : step call c = some d)
    (rest : step.Reaches d e) : step.Reaches c e :=
  Relation.ReflTransGen.head ⟨call, moved⟩ rest

theorem reaches_rxAttachFail (c : Card) : step.Reaches c (rxAttachFail c).1 :=
  reaches_step (.detach rxStream) rfl (.refl _)

theorem reaches_txAttachFail (c : Card) : step.Reaches c (txAttachFail c).1 :=
  reaches_step (.txDetach txStream .copyFwd) rfl (reaches_rxAttachFail _)

theorem reaches_qnfConfigTx (c : Card) (txMapped : Bool) :
    step.Reaches c (qnfConfigTx c txMapped).1 := by
  refine reaches_step (.txAttach txStream .copyFwd 0 txMapped) rfl ?_
  unfold qnfConfigTx
  dsimp only
  split
  case isTrue => exact reaches_txAttachFail _
  case isFalse =>
    split
    case isTrue => exact reaches_txAttachFail _
    case isFalse =>
      refine reaches_step (.txStart txStream) rfl ?_
      split
      case isTrue => exact reaches_txAttachFail _
      case isFalse => exact .refl _

/-- `qnf_stream_config` is a sequence of calls, on every path. -/
theorem reaches_qnfStreamConfig (c : Card) (rxMapped txMapped : Bool) :
    step.Reaches c (qnfStreamConfig c rxMapped txMapped).1 := by
  refine reaches_step (.attach rxStream 0 rxMapped) rfl ?_
  unfold qnfStreamConfig
  dsimp only
  split
  case isTrue => exact reaches_rxAttachFail _
  case isFalse =>
    split
    case isTrue => exact reaches_rxAttachFail _
    case isFalse =>
      refine reaches_step (.start rxStream) rfl ?_
      split
      case isTrue => exact reaches_rxAttachFail _
      case isFalse => exact reaches_qnfConfigTx _ txMapped

/-- So is `qnf_stream_close`. -/
theorem reaches_qnfStreamClose (c : Card) : step.Reaches c (qnfStreamClose c) :=
  reaches_step (.stop rxStream) rfl <|
    reaches_step (.detach rxStream) rfl <|
    reaches_step (.txStop txStream) rfl <|
    reaches_step (.txDetach txStream .copyFwd) rfl (.refl _)

/-- What both loops of `nac_inline_msu_configure` keep is kept. -/
theorem configure_invariant {P : Card → Prop} (start : P c)
    (closed : c.opened = false → P (c.fail .nullPointer))
    (rx : ∀ c size i, P c → P (configureRx size c i))
    (tx : ∀ c size i, P c → P (configureTx size flags c i))
    (moved : nacInlineMsuConfigure c streams flags = some d) : P d := by
  unfold nacInlineMsuConfigure at moved
  split at moved
  case isTrue => cases moved
  case isFalse =>
    split at moved
    case isTrue notOpened =>
      cases moved
      exact closed (Bool.eq_false_iff.mpr notOpened)
    case isFalse =>
      cases moved
      refine List.foldlRecOn _ _ (List.foldlRecOn _ _ start fun c kept i _ => ?_)
        fun c kept i _ => ?_
      · exact rx c _ i kept
      · exact tx c _ i kept

/-- What allocating a block and writing registers keep, `nac_msu_configure` keeps. -/
theorem msuConfigure_invariant {P : Card → Prop} (start : P c)
    (closed : c.opened = false → P (c.fail .nullPointer))
    (alloc : ∀ c size n pbm, P c → P (allocPbm size c n pbm))
    (write : ∀ c offset value, P c → P (c.regWrite offset value)) (streams : Int) :
    P (nacMsuConfigure c streams).1 := by
  unfold nacMsuConfigure
  split
  case isTrue => exact start
  case isFalse =>
    split
    case isTrue notOpened => exact closed (Bool.eq_false_iff.mpr notOpened)
    case isFalse =>
      have stopped : P (captureStop c) := write _ _ _ start
      have streamsDone := List.foldlRecOn (List.range streams.toNat)
        (configureStream (sizeBesideTable c streams.toNat)) stopped fun c kept i _ =>
          write _ _ _ (write _ _ _ (write _ _ _ (alloc _ _ _ _ kept)))
      exact write _ _ _ (write _ _ _ (write _ _ _ (write _ _ _ (write _ _ _ (write _ _ _
        (alloc _ _ _ _ streamsDone))))))

section Cases

variable (c : Card) (n : Nat)

/-- Starting a stream looks into its block, and then lets it run if it is attached. -/
def Starts (d : Card) : Prop :=
  d = c.usePbm n ∨
    ((c.stream n).attached = true ∧ ∃ limit, d = runDma (c.usePbm n) n limit)

/-- Stopping a stream does nothing unless it was started. -/
def StopsStream (d : Card) : Prop :=
  d = c ∨ ((c.stream n).started = true ∧
    d = (pauseDma c n).setStream n fun stream => { stream with started := false })

/-- Detaching a stream releases what it has. -/
def Detaches (d : Card) : Prop :=
  d = c ∨ ∃ unmaps, d = clearFlags (releaseStream c n unmaps) n

theorem nacStartStream_cases : Starts c n (nacStartStream c n).1 := by
  unfold nacStartStream
  dsimp only
  split
  case isTrue => exact .inl rfl
  case isFalse allowed =>
    rw [not_or, not_or, not_not] at allowed
    exact .inr ⟨not_not.mp allowed.2.1, _, rfl⟩

theorem nacTxStartStream_cases : Starts c n (nacTxStartStream c n).1 := by
  unfold nacTxStartStream
  dsimp only
  split
  case isTrue => exact .inl rfl
  case isFalse allowed =>
    rw [not_or, not_or, not_not] at allowed
    exact .inr ⟨not_not.mp allowed.2.1, _, rfl⟩

theorem nacStopStream_cases : StopsStream c n (nacStopStream c n).1 := by
  unfold nacStopStream
  split
  case isTrue => exact .inl rfl
  case isFalse allowed =>
    rw [not_or, not_or, not_not] at allowed
    exact .inr ⟨not_not.mp allowed.2.2, rfl⟩

theorem nacTxStopStream_cases : StopsStream c n (nacTxStopStream c n).1 := by
  unfold nacTxStopStream
  split
  case isTrue => exact .inl rfl
  case isFalse allowed =>
    rw [not_or, not_or, not_or, not_not] at allowed
    exact .inr ⟨not_not.mp allowed.2.2.1, rfl⟩

theorem nacDetachStream_cases : Detaches c n (nacDetachStream c n).1 := by
  unfold nacDetachStream
  split
  case isTrue => exact .inl rfl
  case isFalse => exact .inr ⟨true, rfl⟩

theorem nacTxDetachStream_cases (flags : FwdType) :
    Detaches c n (nacTxDetachStream c n flags).1 := by
  unfold nacTxDetachStream
  split
  case isTrue => exact .inl rfl
  case isFalse =>
    split
    case isTrue => exact .inl rfl
    case isFalse => exact .inr ⟨_, rfl⟩

end Cases

/-! ## Flags -/

namespace Card

variable (c : Card) (n : Nat)

@[simp]
theorem usePbm_stream : (c.usePbm n).stream = c.stream := by
  unfold usePbm
  split
  · rfl
  · split <;> rfl

@[simp]
theorem freePbm_stream : (c.freePbm n).stream = c.stream := by
  unfold freePbm
  split
  · rfl
  · split <;> rfl

@[simp]
theorem unmapBuf_stream : (c.unmapBuf n).stream = c.stream := by
  unfold unmapBuf
  split
  · rfl
  · split <;> rfl

end Card

theorem releaseStream_stream (c : Card) (n : Nat) (unmaps : Bool) :
    (releaseStream c n unmaps).stream = c.stream := by
  unfold releaseStream
  split
  · rfl
  · dsimp only
    split <;> simp [pauseDma, Card.regWrite]

/-- A stream that was started is attached. -/
def StartedAttached (stream : Nat → CardStream) : Prop :=
  ∀ n, (stream n).started = true → (stream n).attached = true

namespace StartedAttached

variable {stream : Nat → CardStream} {n : Nat} {new : CardStream}

/-- A stream is changed. -/
theorem update (kept : StartedAttached stream) (here : new.started = true → new.attached = true) :
    StartedAttached (update stream n new) := by
  intro k started
  by_cases same : k = n
  · subst same
    rw [update_self] at started ⊢
    exact here started
  · rw [update_of_ne same] at started ⊢
    exact kept k started

variable (kept : StartedAttached c.stream)
include kept

theorem allocPbm (size : BitVec 32) (n : Nat) (pbm : Pbm) :
    StartedAttached (allocPbm size c n pbm).stream :=
  kept.update (kept n)

theorem configureTx (size : BitVec 32) (flags : FwdType) (i : Nat) :
    StartedAttached (configureTx size flags c i).stream := by
  have here := kept.allocPbm size (i + numStream) (txPbm i)
  cases flags <;> exact here

theorem configure
    (moved : nacInlineMsuConfigure c streams flags = some d) : StartedAttached d.stream :=
  configure_invariant (P := fun c => StartedAttached c.stream) kept (fun _ => kept)
    (fun _ size i kept => kept.allocPbm size i (rxPbm i)) (fun _ size i kept => kept.configureTx size flags i)
    moved

theorem msuConfigure (streams : Int) : StartedAttached (nacMsuConfigure c streams).1.stream :=
  msuConfigure_invariant (P := fun c => StartedAttached c.stream) kept (fun _ => kept)
    (fun _ size n pbm kept => kept.allocPbm size n pbm) (fun _ _ _ kept => kept) streams

theorem procConfig {streams n : Nat} (moved : nacProcConfig c streams n = some d) :
    StartedAttached d.stream := by
  unfold nacProcConfig at moved
  repeat' split at moved
  all_goals cases moved
  · exact kept
  · exact kept.allocPbm _ n (rxPbm n)

theorem procRftConfig {streams : Nat} (moved : nacProcRftConfig c streams = some d) :
    StartedAttached d.stream := by
  unfold nacProcRftConfig at moved
  repeat' split at moved
  all_goals cases moved
  · exact kept
  · exact kept.allocPbm _ streams rftPbm

theorem attach (n : Nat) (extra : BitVec 32) (mapped : Bool) :
    StartedAttached (nacAttachStream c n extra mapped).1.stream := by
  unfold nacAttachStream
  dsimp only
  repeat' split
  all_goals
    first
      | exact kept
      | exact kept.update nofun

theorem txAttach (n : Nat) (flags : FwdType) (extra : BitVec 32)
    (mapped : Bool) :
    StartedAttached (nacTxAttachStream c n flags extra mapped).1.stream := by
  unfold nacTxAttachStream
  dsimp only
  repeat' split
  all_goals
    first
      | exact kept
      | exact kept.update nofun

theorem rftAttach (mapped : Bool) : StartedAttached (nacRftAttachStream c mapped).1.stream := by
  have sized : StartedAttached
      (c.setStream rftNum fun stream => { stream with size := rftSize }).stream :=
    kept.update (kept rftNum)
  unfold nacRftAttachStream
  dsimp only
  repeat' split
  · exact kept
  · exact sized
  · exact sized.update nofun

theorem starts {n : Nat} (starts : Starts c n d) : StartedAttached d.stream := by
  rcases starts with rfl | ⟨attached, limit, rfl⟩
  · rwa [Card.usePbm_stream]
  · have same : StartedAttached (c.usePbm n).stream := by rwa [Card.usePbm_stream]
    refine same.update fun _ => ?_
    change ((c.usePbm n).stream n).attached = true
    rwa [Card.usePbm_stream]

theorem rftStart (attached : (c.stream rftNum).attached = true) :
    StartedAttached (nacRftStart c).stream := by
  have same : StartedAttached (c.usePbm rftNum).stream := by rwa [Card.usePbm_stream]
  unfold nacRftStart
  dsimp only
  split
  · exact same
  · refine same.update fun _ => ?_
    change ((c.usePbm rftNum).stream rftNum).attached = true
    rwa [Card.usePbm_stream]

theorem stopsStream {n : Nat} (stops : StopsStream c n d) : StartedAttached d.stream := by
  rcases stops with rfl | ⟨-, rfl⟩
  · exact kept
  · have same : StartedAttached (pauseDma c n).stream := by
      change StartedAttached (c.usePbm n).stream
      rwa [Card.usePbm_stream]
    exact same.update nofun

theorem detaches {n : Nat} (detaches : Detaches c n d) : StartedAttached d.stream := by
  rcases detaches with rfl | ⟨unmaps, rfl⟩
  · exact kept
  · have same : StartedAttached (releaseStream c n unmaps).stream := by
      rwa [releaseStream_stream]
    exact same.update nofun

theorem step {call : Call} (tested : call = .rftStart → (c.stream rftNum).attached = true)
    (moved : step call c = some d) : StartedAttached d.stream := by
  cases call with
  | configure streams flags => exact kept.configure moved
  | msuConfigure streams =>
    cases moved
    exact kept.msuConfigure streams
  | procConfig streams n => exact kept.procConfig moved
  | procRftConfig streams => exact kept.procRftConfig moved
  | attach n extra mapped =>
    cases moved
    exact kept.attach n extra mapped
  | txAttach n flags extra mapped =>
    cases moved
    exact kept.txAttach n flags extra mapped
  | rftAttach mapped =>
    cases moved
    exact kept.rftAttach mapped
  | start n =>
    cases moved
    exact kept.starts (nacStartStream_cases c n)
  | txStart n =>
    cases moved
    exact kept.starts (nacTxStartStream_cases c n)
  | rftStart =>
    cases moved
    exact kept.rftStart (tested rfl)
  | stop n =>
    cases moved
    exact kept.stopsStream (nacStopStream_cases c n)
  | txStop n =>
    cases moved
    exact kept.stopsStream (nacTxStopStream_cases c n)
  | detach n =>
    cases moved
    exact kept.detaches (nacDetachStream_cases c n)
  | txDetach n flags =>
    cases moved
    exact kept.detaches (nacTxDetachStream_cases c n flags)

end StartedAttached

/-! ## Pointers -/

theorem pbm_update (stream : Nat → CardStream) (n : Nat) (new : CardStream) :
    (fun k => (update stream n new k).pbm) =
      update (fun k => (stream k).pbm) n new.pbm :=
  funext fun _ => apply_update (fun _ s => s.pbm) stream n new _

theorem buf_update (stream : Nat → CardStream) (n : Nat) (new : CardStream) :
    (fun k => (update stream n new k).buf) =
      update (fun k => (stream k).buf) n new.buf :=
  funext fun _ => apply_update (fun _ s => s.buf) stream n new _

theorem Card.configured_iff :
    c.configured n = true ↔ ∃ block, (c.stream n).pbm = some block ∧ c.heap.live block = true := by
  unfold configured
  cases (c.stream n).pbm <;> simp

/-- No call has gone wrong, and the streams that are in use have what they need. -/
structure Sound (c : Card) : Prop where
  opened : c.opened = true
  blocks : Owned c.heap fun n => (c.stream n).pbm
  mappings : Owned c.maps fun n => (c.stream n).buf
  started : ∀ n, (c.stream n).started = true → c.configured n = true
  attached : ∀ n, (c.stream n).attached = true → ((c.stream n).buf.all c.maps.live) = true
  faults : c.faults = []

namespace Sound

variable {c : Card} {n : Nat}

variable (sound : Sound c)
include sound

theorem regWrite (offset : Nat) (value : BitVec 32) : Sound (c.regWrite offset value) :=
  ⟨sound.opened, sound.blocks, sound.mappings, sound.started, sound.attached, sound.faults⟩

/-- One stream changes, and the pools so that the others keep what they have. -/
theorem change {new : CardStream}
    (stream : d.stream = update c.stream n new) (opened : d.opened = c.opened)
    (faults : d.faults = c.faults)
    (blocks : Owned d.heap (update (fun k => (c.stream k).pbm) n new.pbm))
    (mappings : Owned d.maps (update (fun k => (c.stream k).buf) n new.buf)) (heap : ∀ k
      block, k ≠ n → (c.stream k).pbm = some block → c.heap.live block = true → d.heap.live block =
      true) (maps : ∀ k map, k ≠ n → (c.stream k).buf = some map → c.maps.live map = true →
      d.maps.live map = true) (started : new.started = true → (new.pbm.any d.heap.live) = true)
    (attached : new.attached = true → (new.buf.all d.maps.live) = true) : Sound d := by
  constructor
  case opened => rw [opened, sound.opened]
  case blocks => rwa [stream, pbm_update]
  case mappings => rwa [stream, buf_update]
  case started =>
    intro k runs
    rw [Card.configured]
    rw [stream] at runs ⊢
    by_cases here : k = n
    · subst here
      rw [update_self] at runs ⊢
      exact started runs
    · rw [update_of_ne here] at runs ⊢
      obtain ⟨block, stores, live⟩ := Card.configured_iff.mp (sound.started k runs)
      rw [stores]
      exact heap k block here stores live
  case attached =>
    intro k uses
    rw [stream] at uses ⊢
    by_cases here : k = n
    · subst here
      rw [update_self] at uses ⊢
      exact attached uses
    · rw [update_of_ne here] at uses ⊢
      have live := sound.attached k uses
      cases stores : (c.stream k).buf with
      | none => rfl
      | some map =>
        rw [stores] at live
        exact maps k map here stores live
  case faults => rw [faults, sound.faults]

/-- A stream changes, but not its pointers. -/
theorem setStream {edit : CardStream → CardStream}
    (pbm : (edit (c.stream n)).pbm = (c.stream n).pbm)
    (buf : (edit (c.stream n)).buf = (c.stream n).buf)
    (started : (edit (c.stream n)).started = true → c.configured n = true)
    (attached : (edit (c.stream n)).attached = true →
      ((c.stream n).buf.all c.maps.live) = true) : Sound (c.setStream n edit) := by
  refine sound.change rfl rfl rfl ?_ ?_ (fun _ _ _ _ live => live) (fun _ _ _ _ live => live) ?_ ?_
  · rw [pbm, update_eq_self_iff.mpr rfl]
    exact sound.blocks
  · rw [buf, update_eq_self_iff.mpr rfl]
    exact sound.mappings
  · rw [pbm]
    exact started
  · rw [buf]
    exact attached

/-- A stream gets a new block. -/
theorem allocPbm (size : BitVec 32) (n : Nat) (pbm : Pbm) : Sound (allocPbm size c n pbm) := by
  refine sound.change rfl rfl rfl (sound.blocks.alloc n) ?_ (fun _ _ _ _ => Pool.live_alloc)
    (fun _ _ _ _ live => live) (fun _ => Pool.live_alloc_next _) (sound.attached n)
  rw [update_eq_self_iff.mpr rfl]
  exact sound.mappings

/-- A stream gets a new mapping. -/
theorem mapBuf (n : Nat) (size extra phyaddr : BitVec 32) :
    Sound (mapBuf c n size extra phyaddr) := by
  refine sound.change rfl rfl rfl ?_ (sound.mappings.alloc n) (fun _ _ _ _ live => live)
    (fun _ _ _ _ => Pool.live_alloc) nofun (fun _ => Pool.live_alloc_next _)
  rw [update_eq_self_iff.mpr rfl]
  exact sound.blocks

theorem configure (moved : nacInlineMsuConfigure c streams flags = some d) : Sound d := by
  refine configure_invariant sound (fun closed => absurd (closed.symm.trans sound.opened) nofun)
    (fun c size i sound => ?_) (fun c size i sound => ?_) moved
  · exact ((((sound.allocPbm size i _).regWrite _ _).regWrite _ _).regWrite _ _).regWrite _ _
  · have block := (sound.allocPbm size (i + numStream) (txPbm i)).regWrite
    cases flags with
    | overlapFwd | copyFwd => exact (((block _ _).regWrite _ _).regWrite _ _).regWrite _ _

theorem msuConfigure (streams : Int) : Sound (nacMsuConfigure c streams).1 :=
  msuConfigure_invariant sound (fun closed => absurd (closed.symm.trans sound.opened) nofun)
    (fun _ size n pbm sound => sound.allocPbm size n pbm)
    (fun _ offset value sound => sound.regWrite offset value) streams

theorem procConfig {streams n : Nat} (moved : nacProcConfig c streams n = some d) : Sound d := by
  rw [nacProcConfig, if_neg (not_not.mpr sound.opened)] at moved
  split at moved
  · cases moved
  · cases moved
    exact (sound.allocPbm _ n _).regWrite _ _

theorem procRftConfig {streams : Nat} (moved : nacProcRftConfig c streams = some d) : Sound d := by
  rw [nacProcRftConfig, if_neg (not_not.mpr sound.opened)] at moved
  split at moved
  · cases moved
  · cases moved
    exact sound.allocPbm _ streams _

theorem attach (n : Nat) (extra : BitVec 32) (mapped : Bool) :
    Sound (nacAttachStream c n extra mapped).1 := by
  unfold nacAttachStream
  dsimp only
  repeat' split
  all_goals
    first
      | exact sound
      | exact sound.mapBuf _ _ _ _

theorem txAttach (n : Nat) (flags : FwdType) (extra : BitVec 32) (mapped : Bool)
    (whole : flags = .overlapFwd → ((c.stream n).buf.all c.maps.live) = true) :
    Sound (nacTxAttachStream c n flags extra mapped).1 := by
  unfold nacTxAttachStream
  dsimp only
  split
  · exact sound
  split
  · exact sound
  split
  · exact sound
  · cases flags with
    | overlapFwd =>
      dsimp only
      refine Sound.setStream sound ?_ ?_ ?_ ?_
      · rfl
      · rfl
      · exact nofun
      · exact fun _ => whole rfl
    | copyFwd =>
      dsimp only
      split
      · exact sound
      · exact sound.mapBuf _ _ _ _

theorem rftAttach (mapped : Bool) : Sound (nacRftAttachStream c mapped).1 := by
  have sized : Sound (c.setStream rftNum fun stream => { stream with size := rftSize }) :=
    sound.setStream rfl rfl (sound.started rftNum) (sound.attached rftNum)
  unfold nacRftAttachStream
  dsimp only
  repeat' split
  · exact sound
  · exact sized
  · exact sized.mapBuf _ _ _ _

end Sound

/-- Looking into a block that is allocated. -/
theorem usePbm_of_configured (live : c.configured n = true) : c.usePbm n = c := by
  obtain ⟨block, stores, live⟩ := Card.configured_iff.mp live
  simp [Card.usePbm, stores, live]

/-- Releasing a block and a mapping that are there. -/
theorem releaseStream_eq {block map : Nat} (configured : c.configured n = true)
    (hasBlock : (c.stream n).pbm = some block) (blockLive : c.heap.live block = true)
    (hasMap : (c.stream n).buf = some map) (mapLive : c.maps.live map = true) (unmaps : Bool) :
    ∃ regs, releaseStream c n unmaps =
      { c with
        regs := regs
        heap := c.heap.release block
        maps := if unmaps then c.maps.release map else c.maps } := by
  have mapped : (c.stream n).buf ≠ none := by simp [hasMap]
  unfold releaseStream pauseDma
  rw [if_neg mapped, usePbm_of_configured configured]
  let ctl := (c.pbmOf n).dmaCtlReg
  refine ⟨(c.regWrite ctl (c.regs ctl &&& ~~~ctlRun)).regs, ?_⟩
  cases unmaps <;>
    simp [ctl, Card.freePbm, Card.unmapBuf, Card.regWrite, hasBlock, blockLive, hasMap, mapLive]

namespace Sound

variable {c : Card} {n : Nat}

theorem starts (sound : Sound c) (live : c.configured n = true) (starts : Starts c n d) :
    Sound d := by
  rw [Starts, usePbm_of_configured live] at starts
  rcases starts with rfl | ⟨attached, limit, rfl⟩
  · exact sound
  · exact ((sound.regWrite _ _).regWrite _ _).setStream rfl rfl (fun _ => live) (sound.attached n)

theorem rftStart (sound : Sound c) (live : c.configured rftNum = true) :
    Sound (nacRftStart c) := by
  unfold nacRftStart
  rw [usePbm_of_configured live]
  dsimp only
  rw [if_neg (not_not.mpr sound.opened)]
  exact ((sound.regWrite _ _).regWrite _ _).setStream rfl rfl (fun _ => live)
    (sound.attached rftNum)

theorem pauseDma (sound : Sound c) (live : c.configured n = true) : Sound (pauseDma c n) := by
  unfold Nac.pauseDma
  rw [usePbm_of_configured live]
  exact sound.regWrite _ _

theorem stopsStream (sound : Sound c) (stops : StopsStream c n d) : Sound d := by
  rcases stops with rfl | ⟨started, rfl⟩
  · exact sound
  · have live := sound.started n started
    have paused := sound.pauseDma live
    refine paused.setStream rfl rfl nofun fun uses => ?_
    exact paused.attached n uses

/-- A stream that is attached and configured is detached. -/
theorem detaches (sound : Sound c)
    (inUse : (c.stream n).buf = none ∨ ((c.stream n).attached = true ∧ c.configured n = true))
    (detaches : Detaches c n d) : Sound d := by
  rcases detaches with rfl | ⟨unmaps, rfl⟩
  · exact sound
  by_cases mapped : (c.stream n).buf = none
  · rw [releaseStream, if_pos mapped]
    exact sound.setStream rfl rfl nofun nofun
  obtain ⟨attached, live⟩ := inUse.resolve_left mapped
  obtain ⟨map, hasMap⟩ := Option.ne_none_iff_exists'.mp mapped
  obtain ⟨block, hasBlock, blockLive⟩ := Card.configured_iff.mp live
  have mapLive : c.maps.live map = true := by
    have all := sound.attached n attached
    rwa [hasMap] at all
  obtain ⟨regs, released⟩ := releaseStream_eq live hasBlock blockLive hasMap mapLive unmaps
  rw [released]
  refine sound.change rfl rfl rfl ?_ ?_ ?_ ?_ nofun nofun
  · rw [update_eq_self_iff.mpr rfl]
    exact sound.blocks.release block
  · rw [update_eq_self_iff.mpr rfl]
    cases unmaps with
    | true => exact sound.mappings.release map
    | false => exact sound.mappings
  · intro k other differs stores otherLive
    exact sound.blocks.live_release hasBlock stores differs otherLive
  · intro k other differs stores otherLive
    cases unmaps with
    | true => exact sound.mappings.live_release hasMap stores differs otherLive
    | false => exact otherLive

end Sound

/-! ## Whole runs -/

/-- A stream has nothing to release, or it is attached and its block is allocated. -/
def Card.releasable (c : Card) (n : Nat) : Bool :=
  (c.stream n).buf = none ∨ ((c.stream n).attached ∧ c.configured n)

/-- A stream is started only while its block is allocated, and detached only while it is attached
and its block is allocated. In overlap mode it is not attached with a mapping that is gone. The
flow table's stream is also started only while it is attached. -/
def inOrder : Call → Card → Bool
  | .txAttach n .overlapFwd _ _, c => (c.stream n).buf.all c.maps.live
  | .start n, c | .txStart n, c => c.configured n
  | .rftStart, c => c.configured rftNum && (c.stream rftNum).attached
  | .detach n, c | .txDetach n _, c => c.releasable n
  | _, _ => true

namespace Sound

theorem step (sound : Sound c) (call : Call) (ordered : inOrder call c = true)
    (moved : step call c = some d) : Sound d := by
  cases call with
  | configure streams flags => exact sound.configure moved
  | msuConfigure streams =>
    cases moved
    exact sound.msuConfigure streams
  | procConfig streams n => exact sound.procConfig moved
  | procRftConfig streams => exact sound.procRftConfig moved
  | attach n extra mapped =>
    cases moved
    exact sound.attach n extra mapped
  | txAttach n flags extra mapped =>
    cases moved
    refine sound.txAttach n flags extra mapped fun overlap => ?_
    subst overlap
    exact ordered
  | rftAttach mapped =>
    cases moved
    exact sound.rftAttach mapped
  | start n =>
    cases moved
    exact sound.starts ordered (nacStartStream_cases c n)
  | txStart n =>
    cases moved
    exact sound.starts ordered (nacTxStartStream_cases c n)
  | rftStart =>
    cases moved
    exact sound.rftStart (Bool.and_eq_true_iff.mp ordered).1
  | stop n =>
    cases moved
    exact sound.stopsStream (nacStopStream_cases c n)
  | txStop n =>
    cases moved
    exact sound.stopsStream (nacTxStopStream_cases c n)
  | detach n =>
    cases moved
    exact sound.detaches (of_decide_eq_true ordered) (nacDetachStream_cases c n)
  | txDetach n flags =>
    cases moved
    exact sound.detaches (of_decide_eq_true ordered) (nacTxDetachStream_cases c n flags)

theorem openCard (phyAddr bufSize : BitVec 32) (regs : Nat → BitVec 32) :
    Sound (openCard phyAddr bufSize regs) where
  opened := rfl
  blocks := Owned.none _
  mappings := Owned.none _
  started := nofun
  attached := nofun
  faults := rfl

end Sound

/-- A card with a buffer of one page for each stream. -/
def smallCard : Card := openCard 0x1000 0x2000 fun _ => 0

@[simp]
theorem usePbm_opened (c : Card) (n : Nat) : (c.usePbm n).opened = c.opened := by
  unfold Card.usePbm
  repeat' split
  all_goals rfl

@[simp]
theorem releaseStream_opened (c : Card) (n : Nat) (unmaps : Bool) :
    (releaseStream c n unmaps).opened = c.opened := by
  unfold releaseStream Card.freePbm Card.unmapBuf
  dsimp only
  repeat' split
  all_goals simp [pauseDma, Card.regWrite, Card.fail]

/-- Both streams of a capture are running and the call returns 0, or it returns -1 and both
are detached. -/
def AllOrNothing (r : Card × Int) : Prop :=
  ∃ up : Bool, r.2 = (if up then 0 else -1) ∧
    ∀ n ∈ [rxStream, txStream], (r.1.stream n).attached = up ∧ (r.1.stream n).started = up

theorem rxAttachFail_allOrNothing (opened : c.opened = true)
    (idle : (c.stream txStream).attached = false ∧ (c.stream txStream).started = false) :
    AllOrNothing (rxAttachFail c) := by
  refine ⟨false, rfl, ?_⟩
  simpa [rxAttachFail, nacDetachStream, opened, clearFlags, Card.setStream,
    releaseStream_stream, rxStream, txStream, numStream] using idle

theorem txAttachFail_allOrNothing (opened : c.opened = true) : AllOrNothing (txAttachFail c) := by
  apply rxAttachFail_allOrNothing <;>
    simp [nacTxDetachStream, opened, clearFlags, Card.setStream, txStream, numStream]

/-- No second window is asked for, so that there is always room. -/
@[simp]
theorem extraWindow_zero (size : BitVec 32) : extraWindow size 0#32 = some size := by
  simp [extraWindow]

/-- On an opened card the outcome depends on the mapping only. -/
theorem qnfConfigTx_eq (opened : c.opened = true) (txMapped : Bool) :
    qnfConfigTx c txMapped =
      if txMapped then
        ((nacTxStartStream (nacTxAttachStream c txStream .copyFwd 0 true).1 txStream).1, 0)
      else txAttachFail c := by
  have above : ¬ txStream < numStream := by decide
  cases txMapped <;>
    simp [qnfConfigTx, nacTxAttachStream, above, setsPoll, nacTxStartStream, mapBuf, opened]

theorem qnfStreamConfig_eq (opened : c.opened = true) (rxMapped txMapped : Bool) :
    qnfStreamConfig c rxMapped txMapped =
      if rxMapped then
        qnfConfigTx (nacStartStream (nacAttachStream c rxStream 0 true).1 rxStream).1 txMapped
      else rxAttachFail c := by
  cases rxMapped <;>
    simp [qnfStreamConfig, nacAttachStream, nacStartStream, setsPoll, mapBuf, opened]

theorem qnfConfigTx_allOrNothing (opened : c.opened = true)
    (up : (c.stream rxStream).attached = true ∧ (c.stream rxStream).started = true)
    (txMapped : Bool) : AllOrNothing (qnfConfigTx c txMapped) := by
  have above : ¬ txStream < numStream := by decide
  have apart : rxStream ≠ txStream := by decide
  rw [qnfConfigTx_eq opened]
  cases txMapped with
  | false => exact txAttachFail_allOrNothing opened
  | true =>
    refine ⟨true, ?_⟩
    simpa [nacTxAttachStream, above, nacTxStartStream, mapBuf, opened, runDma, Card.setStream,
      Card.regWrite, apart] using up

/-- The transmit stream has no buffer yet, so that nothing is released twice if it cannot be
mapped. -/
theorem qnfConfigTx_sound (sound : Sound c) (tx : c.configured txStream = true)
    (unmapped : (c.stream txStream).buf = none)
    (rx : (c.stream rxStream).attached = true ∧ c.configured rxStream = true) (txMapped : Bool) :
    Sound (qnfConfigTx c txMapped).1 := by
  have above : ¬ txStream < numStream := by decide
  have apart : rxStream ≠ txStream := by decide
  rw [qnfConfigTx_eq sound.opened]
  cases txMapped with
  | false =>
    have cleared : (nacTxDetachStream c txStream .copyFwd).1 = clearFlags c txStream := by
      simp [nacTxDetachStream, sound.opened, above, releaseStream, unmapped]
    have detached := sound.step (.txDetach txStream .copyFwd)
      (by simp [inOrder, Card.releasable, unmapped]) rfl
    refine detached.step (.detach rxStream) ?_ rfl
    rw [cleared]
    simpa [inOrder, Card.releasable, Card.configured, clearFlags, Card.setStream, apart]
      using .inr rx
  | true =>
    have mapped := sound.step (.txAttach txStream .copyFwd 0 true) rfl rfl
    refine mapped.step (.txStart txStream) ?_ rfl
    simpa [inOrder, Card.configured, nacTxAttachStream, sound.opened, above, mapBuf] using tx

/-- On a card whose streams are configured `qnf_stream_config` sets both streams up, or neither,
and follows no pointer to what is not there. -/
theorem qnfStreamConfig_allOrNothing (sound : Sound c) (rx : c.configured rxStream = true)
    (tx : c.configured txStream = true) (rxFree : c.releasable rxStream = true)
    (txFree : (c.stream txStream).buf = none ∧ (c.stream txStream).attached = false ∧
      (c.stream txStream).started = false)
    (rxMapped txMapped : Bool) :
    AllOrNothing (qnfStreamConfig c rxMapped txMapped) ∧
      (qnfStreamConfig c rxMapped txMapped).1.faults = [] := by
  have opened := sound.opened
  rw [qnfStreamConfig_eq opened]
  cases rxMapped with
  | false =>
    exact ⟨rxAttachFail_allOrNothing opened txFree.2,
      (sound.step (.detach rxStream) rxFree rfl).faults⟩
  | true =>
    have apart : txStream ≠ rxStream := by decide
    have attached := sound.step (.attach rxStream 0 true) rfl rfl
    have live : (nacAttachStream c rxStream 0 true).1.configured rxStream = true := by
      simpa [Card.configured, nacAttachStream, opened, mapBuf] using rx
    have started := attached.step (.start rxStream) live rfl
    constructor
    · apply qnfConfigTx_allOrNothing started.opened
      simp [nacStartStream, nacAttachStream, mapBuf, opened, runDma, Card.setStream, Card.regWrite]
    · refine (qnfConfigTx_sound started ?_ ?_ ?_ txMapped).faults
      all_goals
        rw [nacStartStream]
        simp only [usePbm_of_configured live]
      · simpa [nacAttachStream, mapBuf, opened, runDma, Card.setStream, Card.regWrite,
          Card.configured, apart] using tx
      · simpa [nacAttachStream, mapBuf, opened, runDma, Card.setStream, Card.regWrite, apart]
          using txFree.1
      · simpa [nacAttachStream, mapBuf, opened, runDma, Card.setStream, Card.regWrite,
          Card.configured] using rx

theorem qnfStreamConfig_allOrNothing_small :
    ∃ configured, qnfCardConfig smallCard = some configured ∧
      AllOrNothing (qnfStreamConfig configured true false) ∧
      (qnfStreamConfig configured true false).1.faults = [] := by
  have ready : qnfCardConfig smallCard = some _ := rfl
  have sound := (Sound.openCard 0x1000 0x2000 fun _ => 0).configure ready
  exact ⟨_, ready,
    qnfStreamConfig_allOrNothing sound rfl rfl rfl ⟨rfl, rfl, rfl⟩ true false⟩

end Libpcap.Nac
