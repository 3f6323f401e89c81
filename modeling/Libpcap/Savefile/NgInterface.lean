/-
# Interfaces of a pcap-ng file

`process_idb_options` and `add_interface` of `sf-pcap-ng.c`. The options of an
interface description block give the resolution and the offset of the time stamps
of the packets captured on that interface. `add_interface` counts the interface,
grows the table, parses the options and only then fills in the entry.
-/

import Libpcap.Savefile.NgBlock

namespace Libpcap.Savefile

open Libpcap.Semantics Libpcap.Gencode

/-! ## Options -/

/-- `struct option_header` -/
structure OptionHeader where
  optionCode : BitVec 16
  optionLength : BitVec 16

def getOpthdrFromBlockData (p : NgSf) : Ng OptionHeader := do
  let raw ← fixedPart 4
  pure ⟨p.short 0 raw, p.short 2 raw⟩

/-- The length of an option value with its padding. -/
def paddedOptionLen (opthdr : OptionHeader) : Nat :=
  (opthdr.optionLength.toNat + 3) / 4 * 4

def getOptvalueFromBlockData (opthdr : OptionHeader) : Ng Nat :=
  getFromBlockData (paddedOptionLen opthdr)

/-- The next option: its header, and a pointer to its value. -/
def getOption (p : NgSf) : Ng (OptionHeader × Nat) := do
  let opthdr ← getOpthdrFromBlockData p
  let optvalue ← getOptvalueFromBlockData opthdr
  pure (opthdr, optvalue)

def optEndofopt : BitVec 16 := 0
def ifTsresol : BitVec 16 := 9
def ifTsoffset : BitVec 16 := 14

/-- The units in a second, as the code computes them from the value of an
`if_tsresol` option: a power of two by a shift, whose count the machine takes modulo
32, a power of ten by repeated multiplication of a `u_int`. -/
def tsresolOf (tsresolOpt : BitVec 8) : BitVec 32 :=
  if tsresolOpt &&& 0x80 ≠ 0 then
    1 <<< ((tsresolOpt &&& 0x7F).toNat % 32)
  else
    (List.replicate tsresolOpt.toNat (10 : BitVec 32)).foldl (· * ·) 1

/-- What is known of an interface while its options are parsed. -/
structure IdbOptions where
  tsresol : BitVec 32
  tsoffset : BitVec 64
  sawTsresol : Bool
  sawTsoffset : Bool

/-- Microseconds from the epoch, as long as no option says otherwise. -/
def IdbOptions.default : IdbOptions where
  tsresol := 1000000
  tsoffset := 0
  sawTsresol := false
  sawTsoffset := false

/-- The text for a resolution that is too high. -/
def tooHigh (tsresolOpt : BitVec 8) : String :=
  let power := (tsresolOpt &&& 0x7F).toNat
  if tsresolOpt &&& 0x80 ≠ 0 then
    s!"Interface Description Block if_tsresol option resolution 2^-{power} is too high"
  else
    s!"Interface Description Block if_tsresol option resolution 10^-{power} is too high"

/-- The `IF_TSRESOL` case. The value is read as a `u_int` and cut to its low byte. -/
def ifTsresolOption (opthdr : OptionHeader) (optvalue : Nat) (seen : IdbOptions) : Ng IdbOptions :=
  let length := opthdr.optionLength.toNat
  if opthdr.optionLength ≠ 1 then
    fail s!"Interface Description Block has if_tsresol option with length {length} != 1"
  else if seen.sawTsresol then
    fail "Interface Description Block has more than one if_tsresol option"
  else do
    let raw ← load optvalue 4
    let tsresolOpt := (long 0 raw).setWidth 8
    if tsresolOf tsresolOpt = 0 then
      fail (tooHigh tsresolOpt)
    else
      pure { seen with tsresol := tsresolOf tsresolOpt, sawTsresol := true }

/-- The `IF_TSOFFSET` case. -/
def ifTsoffsetOption (p : NgSf) (opthdr : OptionHeader) (optvalue : Nat) (seen : IdbOptions) :
    Ng IdbOptions :=
  let length := opthdr.optionLength.toNat
  if opthdr.optionLength ≠ 8 then
    fail s!"Interface Description Block has if_tsoffset option with length {length} != 8"
  else if seen.sawTsoffset then
    fail "Interface Description Block has more than one if_tsoffset option"
  else do
    let raw ← load optvalue 8
    pure { seen with tsoffset := p.longlong 0 raw, sawTsoffset := true }

/-- The loop of `process_idb_options`. The first argument bounds the number of
iterations. -/
def idbOptions (p : NgSf) : Nat → IdbOptions → Ng IdbOptions
  | 0, _ => throw (.fault .loop)
  | iterations + 1, seen => do
      let state ← own
      if state.cursor.dataRemaining = 0 then
        pure seen
      else
        let (opthdr, optvalue) ← getOption p
        if opthdr.optionCode = optEndofopt then
          let length := opthdr.optionLength.toNat
          if opthdr.optionLength ≠ 0 then
            fail s!"Interface Description Block has opt_endofopt option with length {length} != 0"
          else
            pure seen
        else if opthdr.optionCode = ifTsresol then
          let seen ← ifTsresolOption opthdr optvalue seen
          idbOptions p iterations seen
        else if opthdr.optionCode = ifTsoffset then
          let seen ← ifTsoffsetOption p opthdr optvalue seen
          idbOptions p iterations seen
        else
          idbOptions p iterations seen

/-- `process_idb_options`: the resolution and the offset. Every iteration takes four
bytes at least. -/
def processIdbOptions (p : NgSf) : Ng (BitVec 32 × BitVec 64) := do
  let state ← own
  let seen ← idbOptions p (state.cursor.dataRemaining + 1) IdbOptions.default
  pure (seen.tsresol, seen.tsoffset)

/-! ## The interface table -/

/-- The table after `realloc` to a number of entries; those that are new are not set. -/
def resized (entries : List (Option NgIf)) (size : Nat) : List (Option NgIf) :=
  entries.take size ++ List.replicate (size - entries.length) none

/-- The table after its size was set to one or doubled, and memory for it was asked for.
A request for no bytes at all yields `NULL`. -/
def IfTable.grow (table : IfTable) (granted : Bool) : IfTable :=
  match table.ifaces with
  | none =>
    { table with
      ifacesSize := 1
      ifaces := if granted then some [none] else none }
  | some entries =>
    let size := table.ifacesSize * 2
    { table with
      ifacesSize := size
      ifaces := if granted && size != 0 then some (resized entries size.toNat) else none }

/-- Grow the table if the interfaces counted so far do not fit. -/
def growIfaces : Ng Unit := do
  let state ← own
  if state.table.ifacesSize < state.table.ifcount then do
    let granted ← malloc
    updateTable fun table => table.grow granted
    let state ← own
    if state.table.ifaces.isNone then
      let count := state.table.ifcount.toNat
      fail s!"out of memory for per-interface information ({count} interfaces)"
    else
      pure ()
  else
    pure ()

/-- The units in a second that the user asked for. A handle has one of two precisions. -/
def userTsresolOf (precision : Nat) : BitVec 32 :=
  if precision = tstampPrecisionNano then 1000000000 else 1000000

/-- How time stamps of a resolution are scaled to the unit the user asked for. -/
def scaleTypeOf (tstampPrecision : Nat) (tsresol : BitVec 32) : TstampScaleType :=
  if tsresol = userTsresolOf tstampPrecision then .passThrough
  else if userTsresolOf tstampPrecision < tsresol then .scaleDown
  else .scaleUp

/-- Fill in an entry of the table. -/
def setIface (i : Nat) (entry : NgIf) : Ng Unit := do
  let state ← own
  if i < state.table.entries.length then
    updateTable fun table => { table with ifaces := some (table.entries.set i (some entry)) }
  else
    throw (.fault .interfaces)

/-- Count one more interface; it is unfinished until its entry is set. -/
def IfTable.countOne (table : IfTable) : IfTable :=
  { table with ifcount := table.ifcount + 1, unfinished := true }

def addInterface (p : NgSf) : Ng Unit := do
  let before ← own
  updateTable IfTable.countOne
  growIfaces
  let (tsresol, tsoffset) ← processIdbOptions p
  let state ← own
  setIface (state.table.ifcount - 1).toNat
    ⟨tsresol, tsoffset, scaleTypeOf p.tstampPrecision tsresol, state.table.sections⟩
  updateTable fun table => { table with unfinished := before.table.unfinished }

/-! ## What the options do -/

section Options

variable {p : NgSf} {file : File} {state : NgState} {opthdr : OptionHeader} {optvalue : Nat}

theorem ifTsresolOption_ends (seen : IdbOptions)
    (may : opthdr.optionLength = 1 → state.MayRead optvalue 4) :
    Ends (exec (ifTsresolOption opthdr optvalue seen) (file, state))
      (fun seen' s => s = (file, state) ∧ seen'.tsresol ≠ 0)
      (fun stop s => stop.IsError ∧ s = (file, state)) := by
  simp only [ifTsresolOption, exec_ite, exec_fail, exec_bind]
  split
  · exact ⟨⟨_, rfl⟩, rfl⟩
  rename_i length
  split
  · exact ⟨⟨_, rfl⟩, rfl⟩
  rw [exec_load (may (not_not.mp length)), andThen_ok, exec_ite]
  split
  · exact ⟨⟨_, rfl⟩, rfl⟩
  · rename_i accepted
    exact ⟨rfl, accepted⟩

theorem ifTsoffsetOption_ends (seen : IdbOptions)
    (may : opthdr.optionLength = 8 → state.MayRead optvalue 8) :
    Ends (exec (ifTsoffsetOption p opthdr optvalue seen) (file, state))
      (fun seen' s => s = (file, state) ∧ seen'.tsresol = seen.tsresol)
      (fun stop s => stop.IsError ∧ s = (file, state)) := by
  simp only [ifTsoffsetOption, exec_ite, exec_fail, exec_bind]
  split
  · exact ⟨⟨_, rfl⟩, rfl⟩
  rename_i length
  split
  · exact ⟨⟨_, rfl⟩, rfl⟩
  rw [exec_load (may (not_not.mp length)), andThen_ok]
  exact ⟨rfl, rfl⟩

/-- The header of an option and its padded value are in the block, or the block is too
short. -/
theorem getOption_ends (ok : state.CursorOk) :
    Ends (exec (getOption p) (file, state))
      (fun option s => ∃ state', s = (file, state') ∧ state.Walks state' ∧
        state'.cursor.dataRemaining < state.cursor.dataRemaining ∧
        state'.MayRead option.2 (paddedOptionLen option.1))
      (fun stop s => stop.IsError ∧ ∃ state', s = (file, state') ∧ state.Walks state') := by
  have header : Ends (exec (getOpthdrFromBlockData p) (file, state))
      (fun _ s => 4 ≤ state.cursor.dataRemaining ∧ s = (file, state.advance 4))
      (fun stop s => stop.IsError ∧ s = (file, state)) := by
    apply Ends.bind (fixedPart_ends ok 4)
    · rintro raw _ ⟨within, _, rfl⟩
      exact ⟨within, rfl⟩
    · rintro stop _ ⟨isError, _, rfl⟩
      exact ⟨isError, rfl⟩
  apply Ends.bind header
  · rintro opthdr _ ⟨within, rfl⟩
    have walks : state.Walks (state.advance 4) := ⟨4, within, rfl⟩
    apply Ends.bind (getFromBlockData_ends file (state.advance 4) (paddedOptionLen opthdr))
    · rintro _ _ ⟨value, rfl, rfl⟩
      refine ⟨_, rfl, walks.trans ⟨_, value, rfl⟩, ?_, (ok.walks walks).mayRead value⟩
      simp only [NgState.advance]
      omega
    · rintro stop _ ⟨isError, _, rfl⟩
      exact ⟨isError, _, rfl, walks⟩
  · rintro stop _ ⟨isError, rfl⟩
    exact ⟨isError, _, rfl, NgState.Walks.refl state⟩

/-- The loop over the options stays in the block, ends, and keeps the resolution from
being zero. -/
theorem idbOptions_ends (ok : state.CursorOk) {iterations : Nat} {seen : IdbOptions}
    (enough : state.cursor.dataRemaining < iterations) (known : seen.tsresol ≠ 0) :
    Ends (exec (idbOptions p iterations seen) (file, state))
      (fun seen' s => seen'.tsresol ≠ 0 ∧ ∃ state', s = (file, state') ∧ state.Walks state')
      (fun stop s => stop.IsError ∧ ∃ state', s = (file, state') ∧ state.Walks state') := by
  induction iterations generalizing state seen with
  | zero => omega
  | succ iterations ih =>
    rw [idbOptions, exec_bind, exec_own, andThen_ok, exec_ite]
    split
    · exact ⟨known, _, rfl, NgState.Walks.refl state⟩
    refine (getOption_ends ok).seq ?_
    rintro ⟨opthdr, optvalue⟩ _ ⟨state', rfl, walks, shorter, may⟩
    have again : ∀ seen' : IdbOptions, seen'.tsresol ≠ 0 →
        Ends (exec (idbOptions p iterations seen') (file, state'))
          (fun seen' s => seen'.tsresol ≠ 0 ∧ ∃ state', s = (file, state') ∧ state.Walks state')
          (fun stop s => stop.IsError ∧ ∃ state', s = (file, state') ∧ state.Walks state') := by
      intro seen' known'
      apply (ih (ok.walks walks) (by omega) known').mono
      · rintro seen'' _ ⟨known'', state'', rfl, further⟩
        exact ⟨known'', state'', rfl, walks.trans further⟩
      · rintro stop _ ⟨isError, state'', rfl, further⟩
        exact ⟨isError, state'', rfl, walks.trans further⟩
    have stays : ∀ (stop : Stop) s, stop.IsError ∧ s = (file, state') →
        stop.IsError ∧ ∃ state', s = (file, state') ∧ state.Walks state' := by
      rintro stop _ ⟨isError, rfl⟩
      exact ⟨isError, state', rfl, walks⟩
    simp only [exec_ite]
    split
    · split
      · exact ⟨⟨_, rfl⟩, state', rfl, walks⟩
      · exact ⟨known, state', rfl, walks⟩
    split
    · have four : opthdr.optionLength = 1 → state'.MayRead optvalue 4 := by
        intro length
        rwa [paddedOptionLen, length] at may
      apply Ends.bind (ifTsresolOption_ends seen four)
      · rintro seen' _ ⟨rfl, known'⟩
        exact again seen' known'
      · exact stays
    split
    · have eight : opthdr.optionLength = 8 → state'.MayRead optvalue 8 := by
        intro length
        rwa [paddedOptionLen, length] at may
      apply Ends.bind (ifTsoffsetOption_ends seen eight)
      · rintro seen' _ ⟨rfl, same⟩
        exact again seen' (same ▸ known)
      · exact stays
    · exact again seen known

theorem processIdbOptions_ends (ok : state.CursorOk) :
    Ends (exec (processIdbOptions p) (file, state))
      (fun times s => times.1 ≠ 0 ∧ ∃ state', s = (file, state') ∧ state.Walks state')
      (fun stop s => stop.IsError ∧ ∃ state', s = (file, state') ∧ state.Walks state') := by
  rw [processIdbOptions, exec_bind, exec_own, andThen_ok]
  refine (idbOptions_ends ok (Nat.lt_succ_self _) (by decide)).seq ?_
  intro seen s ended
  exact ended

end Options

end Libpcap.Savefile
