/-
# What a pcap-ng file cannot make the reader do

The reader of a pcap-ng file may be called again after a call that failed. Two of its
errors leave the handle in a state that later calls do not expect. When the block
buffer cannot be enlarged, its pointer is lost while its recorded size stays, and the
next small block is written through a null pointer. When an interface cannot be added,
because memory for the table is lacking or because its options are malformed, it has
been counted already, and its entry is never set.

Apart from these, no file and no sequence of calls makes the reader leave the block it
has read, loop, or use an entry of the interface table that was not set by an interface
block of the current section.
-/

import Libpcap.Savefile.Ng

namespace Libpcap.Savefile

open Libpcap.Semantics Libpcap.Gencode

variable {table : IfTable}

/-! ## The interface table -/

namespace IfTable

/-- The size of the table is what was allocated, a power of two if there is a table. -/
def Sized (table : IfTable) : Prop :=
  (table.ifaces = none ∧ table.ifacesSize = 0) ∨
    ∃ k, table.ifaces = some table.entries ∧ table.ifacesSize.toNat = 2 ^ k ∧
      table.entries.length = 2 ^ k

/-- An interface number refers to an entry that was set by an interface block of the
current section, with a resolution other than zero. -/
def Refers (table : IfTable) (i : Nat) : Prop :=
  ∃ entry, table.entry i = some entry ∧ entry.tsresol ≠ 0 ∧ entry.setIn = table.sections

/-- The table as it is when no interface was left unfinished. -/
structure Ok (table : IfTable) : Prop where
  sized : table.Sized
  counted : table.ifcount.toNat ≤ table.ifacesSize.toNat
  refers : ∀ i < table.ifcount.toNat, table.Refers i

/-- There is room for the interfaces counted, and no entry was lost. -/
structure Grown (table table' : IfTable) : Prop where
  sized : table'.Sized
  room : table.ifcount.toNat ≤ table'.entries.length
  kept : ∀ i entry, table.entry i = some entry → table'.entry i = some entry

theorem entry_resized {entries : List (Option NgIf)} {size i : Nat} {entry : NgIf}
    (larger : entries.length ≤ size) (set : entries[i]?.join = some entry) :
    (resized entries size)[i]?.join = some entry := by
  have inside : i < entries.length := by
    by_contra outside
    rw [List.getElem?_eq_none (by omega)] at set
    cases set
  rw [resized, List.take_of_length_le larger, List.getElem?_append_left inside]
  exact set

theorem length_resized {entries : List (Option NgIf)} {size : Nat} (larger : entries.length ≤ size) :
    (resized entries size).length = size := by
  rw [resized, List.length_append, List.length_take, List.length_replicate]
  omega

/-- Doubling a power of two that stays below `2 ^ 32`. -/
theorem double_toNat {size : BitVec 32} {k : Nat} (power : size.toNat = 2 ^ k)
    (positive : size * 2 ≠ 0) : (size * 2).toNat = 2 ^ (k + 1) := by
  have product : (size * 2).toNat = 2 ^ (k + 1) % 2 ^ 32 := by
    rw [BitVec.toNat_mul, power, pow_succ]
    rfl
  have small : k < 32 := by
    have bound := size.isLt
    rw [power] at bound
    exact (Nat.pow_lt_pow_iff_right (by decide)).mp bound
  have notLast : k ≠ 31 := by
    rintro rfl
    exact positive (BitVec.eq_of_toNat_eq product)
  rw [product, Nat.mod_eq_of_lt (Nat.pow_lt_pow_right (by decide) (by omega))]

/-- Growing a full table makes room for one more interface. -/
theorem Sized.grow (sized : table.Sized) (full : table.ifcount.toNat = table.ifacesSize.toNat + 1)
    {granted : Bool} (there : (table.grow granted).ifaces.isNone = false) :
    table.Grown (table.grow granted) := by
  rcases sized with ⟨empty, zero⟩ | ⟨k, allocated, power, length⟩
  · have grown : table.grow granted =
        { table with ifacesSize := 1, ifaces := if granted then some [none] else none } := by
      rw [IfTable.grow, empty]
    rw [grown] at there ⊢
    cases granted with
    | false => cases there
    | true =>
      refine ⟨Or.inr ⟨0, rfl, rfl, rfl⟩, ?_, ?_⟩
      · rw [full, zero]
        exact Nat.le_refl 1
      · intro i entry set
        rw [IfTable.entry, IfTable.entries, empty] at set
        cases set
  · have grown : table.grow granted =
        { table with
          ifacesSize := table.ifacesSize * 2
          ifaces := if granted && table.ifacesSize * 2 != 0
            then some (resized table.entries (table.ifacesSize * 2).toNat) else none } := by
      rw [IfTable.grow, allocated]
    rw [grown] at there ⊢
    by_cases answered : (granted && table.ifacesSize * 2 != 0) = true
    · have double := double_toNat power (by simpa using (Bool.and_eq_true_iff.mp answered).2)
      have larger : table.entries.length ≤ (table.ifacesSize * 2).toNat := by
        rw [double, length, pow_succ]
        omega
      have entries : ∀ i entry, table.entry i = some entry →
          (resized table.entries (table.ifacesSize * 2).toNat)[i]?.join = some entry :=
        fun i entry set => entry_resized larger set
      simp only [answered, if_true]
      refine ⟨Or.inr ⟨k + 1, rfl, double, (length_resized larger).trans double⟩, ?_, entries⟩
      change _ ≤ (resized table.entries (table.ifacesSize * 2).toNat).length
      have positive := Nat.one_le_two_pow (n := k)
      rw [length_resized larger, double, full, power, pow_succ]
      omega
    · rw [if_neg answered] at there
      cases there

theorem Sized.length (sized : table.Sized) : table.entries.length = table.ifacesSize.toNat := by
  rcases sized with ⟨empty, zero⟩ | ⟨k, _, power, length⟩
  · rw [IfTable.entries, empty, zero]
    rfl
  · rw [power, length]

/-- A table that is large enough need not grow. -/
theorem Sized.grown (sized : table.Sized) (fits : table.ifcount.toNat ≤ table.ifacesSize.toNat) :
    table.Grown table :=
  ⟨sized, sized.length ▸ fits, fun _ _ set => set⟩

/-- Counting one more interface does not wrap. -/
theorem Ok.count (ok : table.Ok) : (table.ifcount + 1).toNat = table.ifcount.toNat + 1 := by
  have counted := ok.counted
  have small : table.ifcount.toNat + 1 < 2 ^ 32 := by
    rcases ok.sized with ⟨_, zero⟩ | ⟨k, _, power, _⟩
    · rw [zero] at counted
      exact Nat.lt_of_le_of_lt (Nat.succ_le_succ counted) (by decide)
    · have bound := table.ifacesSize.isLt
      rw [power] at bound counted
      have last : 2 ^ k ≤ 2 ^ 31 :=
        Nat.pow_le_pow_right (by decide) (Nat.le_of_lt_succ
          ((Nat.pow_lt_pow_iff_right (by decide)).mp bound))
      omega
  rw [BitVec.toNat_add]
  exact Nat.mod_eq_of_lt small

/-- Setting the entry of an interface that was just counted completes the table. -/
theorem Ok.complete {grown : IfTable} (ok : table.Ok) {before : Bool} {entry : NgIf}
    (room : table.countOne.Grown grown) (count : grown.ifcount = table.ifcount + 1)
    (same : grown.sections = table.sections) (known : entry.tsresol ≠ 0)
    (current : entry.setIn = grown.sections) :
    IfTable.Ok { grown with
      ifaces := some (grown.entries.set table.ifcount.toNat (some entry))
      unfinished := before } := by
  have inside : table.ifcount.toNat < grown.entries.length := by
    have fits : (table.ifcount + 1).toNat ≤ _ := room.room
    rw [ok.count] at fits
    omega
  have length := room.sized.length
  refine ⟨?_, ?_, ?_⟩
  · rcases room.sized with ⟨empty, _⟩ | ⟨k, _, power, entries⟩
    · rw [IfTable.entries, empty] at inside
      cases inside
    · exact Or.inr ⟨k, rfl, power, (List.length_set).trans entries⟩
  · change grown.ifcount.toNat ≤ grown.ifacesSize.toNat
    rw [count, ok.count]
    omega
  · intro i counted
    change i < grown.ifcount.toNat at counted
    rw [count, ok.count] at counted
    by_cases new : i = table.ifcount.toNat
    · subst new
      refine ⟨entry, ?_, known, current⟩
      change (grown.entries.set _ _)[_]?.join = _
      rw [List.getElem?_set_self inside]
      rfl
    · obtain ⟨old, set, resolution, section'⟩ := ok.refers i (by omega)
      refine ⟨old, ?_, resolution, section'.trans same.symm⟩
      change (grown.entries.set _ _)[_]?.join = _
      rw [List.getElem?_set_ne (Ne.symm new)]
      exact room.kept i old set

end IfTable

/-- Growing the table touches nothing else, and leaves room for an interface that was
just counted. -/
theorem growIfaces_ends (file : File) (state : NgState) :
    Ends (exec growIfaces (file, state))
      (fun _ s => ∃ file' table', s = (file', { state with table := table' }) ∧
        file'.unread = file.unread ∧ table'.ifcount = state.table.ifcount ∧
        table'.sections = state.table.sections ∧ table'.unfinished = state.table.unfinished ∧
        (state.table.Sized → state.table.ifcount.toNat ≤ state.table.ifacesSize.toNat + 1 →
          state.table.Grown table'))
      (fun stop s => stop.IsError ∧ s.2.buffer = state.buffer ∧
        s.2.table.unfinished = state.table.unfinished) := by
  have kept : ∀ granted, (state.table.grow granted).ifcount = state.table.ifcount ∧
      (state.table.grow granted).sections = state.table.sections ∧
      (state.table.grow granted).unfinished = state.table.unfinished := by
    intro granted
    unfold IfTable.grow
    split <;> exact ⟨rfl, rfl, rfl⟩
  rw [growIfaces, exec_bind, exec_own, andThen_ok, exec_ite]
  split
  · rename_i crowded
    simp only [exec_bind, exec_malloc, andThen_ok, exec_updateTable, exec_own, exec_ite, exec_fail,
      exec_pure]
    split
    · exact ⟨⟨_, rfl⟩, rfl, (kept _).2.2⟩
    · rename_i there
      refine ⟨_, _, rfl, rfl, (kept _).1, (kept _).2.1, (kept _).2.2, fun sized counted => ?_⟩
      rw [BitVec.lt_def] at crowded
      exact sized.grow (by omega) (Bool.not_eq_true _ ▸ there)
  · rename_i fits
    refine ⟨_, _, rfl, rfl, rfl, rfl, rfl, fun sized _ => sized.grown ?_⟩
    rw [BitVec.lt_def] at fits
    omega

/-- **One interface.** Adding an interface keeps the table in order, or fails and leaves
the interface unfinished. It never leaves the block; only with a table that is not in
order can it use an entry that is not there. -/
theorem addInterface_ends {p : NgSf} {file : File} {state : NgState} (ok : state.CursorOk) :
    Ends (exec (addInterface p) (file, state))
      (fun _ s => s.1.unread = file.unread ∧ s.2.buffer = state.buffer ∧
        s.2.table.unfinished = state.table.unfinished ∧ (state.table.Ok → s.2.table.Ok))
      (fun stop s => s.2.buffer = state.buffer ∧ s.2.table.unfinished = true ∧
        (stop.IsError ∨ (stop = .fault .interfaces ∧ ¬ state.table.Ok))) := by
  rw [addInterface, exec_bind, exec_own, andThen_ok, exec_bind, exec_updateTable, andThen_ok]
  apply Ends.bind (growIfaces_ends file _)
  · rintro _ _ ⟨file', grown, rfl, unread, count, sections, unfinished, grows⟩
    have cursor : NgState.CursorOk { state with table := grown } := ⟨ok.inside, ok.stored⟩
    apply Ends.bind (processIdbOptions_ends cursor)
    · rintro ⟨tsresol, tsoffset⟩ _ ⟨known, _, rfl, _, _, rfl⟩
      have room : state.table.Ok → state.table.countOne.Grown grown := by
        intro inOrder
        apply grows inOrder.sized
        change (state.table.ifcount + 1).toNat ≤ state.table.ifacesSize.toNat + 1
        rw [inOrder.count]
        exact Nat.succ_le_succ inOrder.counted
      have index : (grown.ifcount - 1).toNat = state.table.ifcount.toNat := by
        rw [count]
        change (state.table.ifcount + 1 - 1).toNat = _
        rw [BitVec.add_sub_cancel]
      simp only [setIface, exec_bind, exec_own, andThen_ok, exec_ite, exec_updateTable, exec_throw]
      split
      · refine ⟨unread, rfl, rfl, fun inOrder => ?_⟩
        simp only [NgState.advance, index]
        exact inOrder.complete (room inOrder) count sections known rfl
      · rename_i outside
        refine ⟨rfl, unfinished, Or.inr ⟨rfl, fun inOrder => outside ?_⟩⟩
        have fits : (state.table.ifcount + 1).toNat ≤ _ := (room inOrder).room
        rw [inOrder.count] at fits
        simp only [NgState.advance, index]
        omega
    · rintro stop _ ⟨isError, _, rfl, _, _, rfl⟩
      exact ⟨rfl, unfinished, Or.inl isError⟩
  · rintro stop s ⟨isError, buffer, unfinished⟩
    exact ⟨buffer, unfinished, Or.inl isError⟩

/-! ## One call -/

/-- What every call keeps: the size of the buffer, if there is one, and the order of the
table, unless an interface was left unfinished. -/
structure NgSf.Inv (p : NgSf) (state : NgState) : Prop where
  roomy : p.Roomy state
  table : state.table.unfinished = false → state.table.Ok

section Call

variable {p : NgSf} {file : File} {state : NgState}

theorem NgSf.Inv.walks {state' : NgState} (inv : p.Inv state) (walks : state.Walks state') :
    p.Inv state' := by
  obtain ⟨_, _, rfl⟩ := walks
  exact ⟨inv.roomy, inv.table⟩

theorem NgState.CursorOk.allocated (ok : state.CursorOk) : state.buffer ≠ none := by
  intro lost
  obtain ⟨size, allocated, _⟩ := ok.stored
  rw [lost] at allocated
  cases allocated

/-- The outcome of an interface or section block: what the loop needs to go on, and what
a caller finds after an error. -/
def BlockEnds (p : NgSf) (file : File) (state : NgState) (ended : Except Stop Unit × File × NgState) :
    Prop :=
  Ends ended
    (fun _ s => p.Inv s.2 ∧ s.1.unread = file.unread ∧ s.2.buffer = state.buffer ∧
      s.2.table.unfinished = state.table.unfinished)
    (fun stop s => p.Inv s.2 ∧
      (stop.IsError ∨ (stop = .fault .interfaces ∧ state.table.unfinished = true)))

theorem idb_ends (inv : p.Inv state) (ok : state.CursorOk) :
    BlockEnds p file state (exec (idb p) (file, state)) := by
  apply Ends.bind (fixedPart_ends ok 8)
  · rintro raw _ ⟨within, _, rfl⟩
    have inv' : p.Inv (state.advance 8) := inv.walks ⟨8, within, rfl⟩
    simp only [exec_ite]
    split
    · exact ⟨inv', Or.inl ⟨_, rfl⟩⟩
    split
    · exact ⟨inv', Or.inl ⟨_, rfl⟩⟩
    apply (addInterface_ends (ok.walks ⟨8, within, rfl⟩)).mono
    · rintro _ s ⟨unread, buffer, unfinished, keeps⟩
      refine ⟨⟨?_, fun finished => ?_⟩, unread, buffer, unfinished⟩
      · rw [NgSf.Roomy, buffer]
        exact inv.roomy
      · rw [unfinished] at finished
        exact keeps (inv.table finished)
    · rintro stop s ⟨buffer, unfinished, stopped⟩
      refine ⟨⟨?_, fun finished => ?_⟩, ?_⟩
      · rw [NgSf.Roomy, buffer]
        exact inv.roomy
      · rw [unfinished] at finished
        cases finished
      · rcases stopped with isError | ⟨fault, disorder⟩
        · exact Or.inl isError
        · refine Or.inr ⟨fault, ?_⟩
          by_contra finished
          exact disorder (inv.table (by simpa using finished))
  · rintro stop _ ⟨isError, _, rfl⟩
    exact ⟨inv, Or.inl isError⟩

theorem shb_ends (inv : p.Inv state) (ok : state.CursorOk) :
    BlockEnds p file state (exec (shb p) (file, state)) := by
  apply Ends.bind (fixedPart_ends ok 16)
  · rintro raw _ ⟨within, _, rfl⟩
    have inv' : p.Inv (state.advance 16) := inv.walks ⟨16, within, rfl⟩
    simp only [exec_ite]
    split
    · exact ⟨inv', Or.inl ⟨_, rfl⟩⟩
    split
    · exact ⟨inv', Or.inl ⟨_, rfl⟩⟩
    split
    · exact ⟨inv', Or.inl ⟨_, rfl⟩⟩
    · refine ⟨⟨inv.roomy, fun finished => ?_⟩, rfl, rfl, rfl⟩
      exact ⟨(inv.table finished).sized, Nat.zero_le _, fun i counted => absurd counted (by simp)⟩
  · rintro stop _ ⟨isError, _, rfl⟩
    exact ⟨inv, Or.inl isError⟩

/-- A packet block is read through the cursor. -/
theorem found_ends (ok : state.CursorOk) (n : Nat) (read : List Byte → Found) :
    Ends (exec (do
        let raw ← fixedPart n
        pure (read raw)) (file, state))
      (fun _ s => ∃ state', s = (file, state') ∧ state.Walks state')
      (fun stop s => stop.IsError ∧ s = (file, state)) := by
  apply Ends.bind (fixedPart_ends ok n)
  · rintro raw _ ⟨within, _, rfl⟩
    exact ⟨_, rfl, n, within, rfl⟩
  · rintro stop _ ⟨isError, _, rfl⟩
    exact ⟨isError, rfl⟩

/-- How the loop over the blocks ends. A buffer that was lost is only met by the first
block, which allocates it or writes to it. -/
def LoopEnds (p : NgSf) (file : File) (state : NgState)
    (ended : Except Stop (Option Found) × File × NgState) : Prop :=
  Ends ended
    (fun found s => p.Inv s.2 ∧ ¬ p.LostBuffer file state ∧
      s.2.table.unfinished = state.table.unfinished ∧ (found ≠ none → s.2.CursorOk))
    (fun stop s => p.Inv s.2 ∧
      ((stop.IsError ∧ ¬ p.LostBuffer file state) ∨
        (stop = .fault .buffer ∧ p.LostBuffer file state) ∨
        (stop = .fault .interfaces ∧ ¬ p.LostBuffer file state ∧
          state.table.unfinished = true)))

/-- The loop goes on behind a block it has read. -/
theorem LoopEnds.after {file' : File} {state' : NgState} {ended : Except Stop (Option Found) × _}
    (later : LoopEnds p file' state' ended) (found : ¬ p.LostBuffer file state)
    (there : state'.buffer ≠ none)
    (same : state'.table.unfinished = state.table.unfinished) : LoopEnds p file state ended := by
  apply Ends.mono later
  · rintro packet s ⟨inv, _, unfinished, ok⟩
    exact ⟨inv, found, unfinished.trans same, ok⟩
  · rintro stop s ⟨inv, stopped⟩
    rcases stopped with ⟨isError, _⟩ | ⟨_, lost⟩ | ⟨fault, _, unfinished⟩
    · exact ⟨inv, Or.inl ⟨isError, found⟩⟩
    · exact absurd lost.lost there
    · exact ⟨inv, Or.inr (Or.inr ⟨fault, found, same ▸ unfinished⟩)⟩

theorem nextFound_ends (inv : p.Inv state) {blocks : Nat} (enough : file.unread.length < blocks) :
    LoopEnds p file state (exec (nextFound p blocks) (file, state)) := by
  induction blocks generalizing file state with
  | zero => omega
  | succ blocks ih =>
    rw [nextFound]
    apply Ends.bind (readBlock_ends inv.roomy)
    · rintro more ⟨file', state'⟩ ⟨table, roomy, found, inBlock, _⟩
      have inv' : p.Inv state' := ⟨roomy, by rw [table]; exact inv.table⟩
      have same : state'.table.unfinished = state.table.unfinished := by rw [table]
      cases more with
      | false => exact ⟨inv', found, same, fun some => absurd rfl some⟩
      | true =>
        obtain ⟨ok, shorter⟩ := inBlock rfl
        change file'.unread.length + 12 ≤ _ at shorter
        -- a packet block ends the loop
        have packet : ∀ (n : Nat) (read : List Byte → Found),
            LoopEnds p file state (exec (some <$> (do
              let raw ← fixedPart n
              pure (read raw))) (file', state')) := by
          intro n read
          apply Ends.map
          apply (found_ends ok n read).mono
          · rintro found' _ ⟨_, rfl, k, within, rfl⟩
            exact ⟨inv'.walks ⟨k, within, rfl⟩, found, same, fun _ => ok.walks ⟨k, within, rfl⟩⟩
          · rintro stop _ ⟨isError, rfl⟩
            exact ⟨inv', Or.inl ⟨isError, found⟩⟩
        -- an interface or section block lets it go on
        have other : ∀ m : Ng Unit, BlockEnds p file' state' (exec m (file', state')) →
            LoopEnds p file state (exec (do
              m
              nextFound p blocks) (file', state')) := by
          intro m ends
          apply Ends.bind ends
          · rintro _ ⟨file'', state''⟩ ⟨inv'', unread, buffer, unfinished⟩
            change file''.unread = _ at unread
            exact (ih inv'' (by rw [unread]; omega)).after found (buffer ▸ ok.allocated)
              (unfinished.trans same)
          · rintro stop s ⟨inv'', stopped⟩
            rcases stopped with isError | ⟨fault, unfinished⟩
            · exact ⟨inv'', Or.inl ⟨isError, found⟩⟩
            · exact ⟨inv'', Or.inr (Or.inr ⟨fault, found, same ▸ unfinished⟩)⟩
        change LoopEnds p file state _
        rw [if_pos rfl, exec_bind, exec_own, andThen_ok]
        simp only [exec_ite]
        split
        · exact packet 20 _
        split
        · exact packet 4 _
        split
        · exact packet 20 _
        split
        · exact other (idb p) (idb_ends inv' ok)
        split
        · exact other (shb p) (shb_ends inv' ok)
        · exact (ih inv' (by omega)).after found ok.allocated same
    · rintro stop s ⟨table, roomy, stopped⟩
      have inv' : p.Inv s.2 := ⟨roomy, by rw [table]; exact inv.table⟩
      rcases stopped with isError | lost
      · exact ⟨inv', Or.inl isError⟩
      · exact ⟨inv', Or.inr (Or.inl lost)⟩

/-- Delivering a packet stays in the block. With a table in order, the entry of a known
interface is there, and its resolution is not zero. -/
theorem deliverFound_ends (inv : p.Inv state) (ok : state.CursorOk) (found : Found) :
    Ends (exec (deliverFound p found) (file, state))
      (fun _ s => p.Inv s.2)
      (fun stop s => p.Inv s.2 ∧
        (stop.IsError ∨ ((stop = .fault .interfaces ∨ stop = .fault .division) ∧
          state.table.unfinished = true))) := by
  rw [deliverFound, exec_bind, exec_own, andThen_ok, exec_ite]
  split
  · exact ⟨inv, Or.inl ⟨_, rfl⟩⟩
  rename_i checked
  rw [BitVec.le_def, not_le] at checked
  have known : state.table.unfinished = false →
      ∃ entry, state.table.entry found.interfaceId.toNat = some entry ∧ entry.tsresol ≠ 0 := by
    intro finished
    obtain ⟨entry, set, resolution, _⟩ := (inv.table finished).refers _ checked
    exact ⟨entry, set, resolution⟩
  simp only [ifaceAt, exec_bind, exec_own, andThen_ok]
  cases set : state.table.entry found.interfaceId.toNat with
  | none =>
    refine ⟨inv, Or.inr ⟨Or.inl rfl, ?_⟩⟩
    by_contra finished
    obtain ⟨entry, there, _⟩ := known (by simpa using finished)
    rw [set] at there
    cases there
  | some entry =>
    rw [exec_pure, andThen_ok, exec_ite]
    split
    · rename_i zero
      refine ⟨inv, Or.inr ⟨Or.inr rfl, ?_⟩⟩
      by_contra finished
      obtain ⟨entry', there, resolution⟩ := known (by simpa using finished)
      rw [set] at there
      cases there
      exact resolution zero
    · apply Ends.bind (fixedPart_ends ok found.caplen.toNat)
      · rintro data _ ⟨within, _, rfl⟩
        exact inv.walks ⟨_, within, rfl⟩
      · rintro stop _ ⟨isError, _, rfl⟩
        exact ⟨inv, Or.inl isError⟩

/-- **One call.** A call keeps what it found. It returns or fails with a text, except that
it writes to a lost buffer exactly if the next block would have fit it, and may use an
entry that is not there if an interface was left unfinished. -/
theorem pcapNgNextPacket_ends (inv : p.Inv state) :
    Ends (exec (pcapNgNextPacket p) (file, state))
      (fun _ s => p.Inv s.2 ∧ ¬ p.LostBuffer file state)
      (fun stop s => p.Inv s.2 ∧
        ((stop.IsError ∧ ¬ p.LostBuffer file state) ∨
          (stop = .fault .buffer ∧ p.LostBuffer file state) ∨
          ((stop = .fault .interfaces ∨ stop = .fault .division) ∧ ¬ p.LostBuffer file state ∧
            state.table.unfinished = true))) := by
  rw [pcapNgNextPacket, exec_bind, exec_get, andThen_ok]
  apply Ends.bind (nextFound_ends inv (Nat.lt_succ_self _))
  · rintro packet ⟨file', state'⟩ ⟨inv', there, same, ok⟩
    cases packet with
    | none => exact ⟨inv', there⟩
    | some found =>
      apply Ends.map
      apply (deliverFound_ends inv' (ok (by simp)) found).mono
      · intro _ s inv''
        exact ⟨inv'', there⟩
      · rintro stop s ⟨inv'', stopped⟩
        rcases stopped with isError | ⟨fault, unfinished⟩
        · exact ⟨inv'', Or.inl ⟨isError, there⟩⟩
        · exact ⟨inv'', Or.inr (Or.inr ⟨fault, there, same ▸ unfinished⟩)⟩
  · rintro stop s ⟨inv', stopped⟩
    rcases stopped with isError | lost | ⟨fault, there, unfinished⟩
    · exact ⟨inv', Or.inl isError⟩
    · exact ⟨inv', Or.inr (Or.inl lost)⟩
    · exact ⟨inv', Or.inr (Or.inr ⟨Or.inl fault, there, unfinished⟩)⟩

/-! ## Opening a file -/

/-- Opening finds the first interface, or fails with a text. -/
theorem firstInterface_ends (inv : p.Inv state) (there : state.buffer ≠ none)
    (finished : state.table.unfinished = false) {blocks : Nat}
    (enough : file.unread.length < blocks) :
    Ends (exec (firstInterface p blocks) (file, state))
      (fun _ s => p.Inv s.2 ∧ s.2.table.unfinished = false)
      (fun stop _ => stop.IsError) := by
  induction blocks generalizing file state with
  | zero => omega
  | succ blocks ih =>
    rw [firstInterface]
    apply Ends.bind (readBlock_ends inv.roomy)
    · rintro more ⟨file', state'⟩ ⟨table, roomy, _, inBlock, _⟩
      change state'.table = _ at table
      have inv' : p.Inv state' := ⟨roomy, by rw [table]; exact inv.table⟩
      have finished' : state'.table.unfinished = false := by rw [table, finished]
      cases more with
      | false => exact ⟨_, rfl⟩
      | true =>
        obtain ⟨ok, shorter⟩ := inBlock rfl
        change file'.unread.length + 12 ≤ _ at shorter
        rw [if_pos rfl, exec_bind, exec_own, andThen_ok]
        simp only [exec_ite]
        split
        · apply Ends.bind (fixedPart_ends ok 8)
          · rintro raw _ ⟨within, _, rfl⟩
            apply Ends.bind (addInterface_ends (ok.walks ⟨8, within, rfl⟩))
            · rintro _ s ⟨_, buffer, unfinished, keeps⟩
              refine ⟨⟨?_, fun _ => keeps (inv'.table finished')⟩, unfinished.trans finished'⟩
              rw [NgSf.Roomy, buffer]
              exact inv'.roomy
            · rintro stop s ⟨_, _, isError | ⟨_, disorder⟩⟩
              · exact isError
              · exact absurd (inv'.table finished') disorder
          · rintro stop _ ⟨isError, _, rfl⟩
            exact isError
        split
        · exact ⟨_, rfl⟩
        · exact ih inv' ok.allocated finished' (by omega)
    · rintro stop s ⟨_, _, ⟨isError, _⟩ | ⟨_, lost⟩⟩
      · exact isError
      · exact absurd lost.lost there

/-- A handle that was opened has a buffer and a table in order. -/
theorem readSection_ends {totalLength : Nat} (large : totalLength ≤ p.bufsize) :
    Ends (exec (readSection p totalLength) (file, NgState.init))
      (fun p' s => p'.Inv s.2 ∧ s.2.table.unfinished = false)
      (fun stop _ => stop.IsError) := by
  have inv : p.Inv ⟨some p.bufsize, ⟨[], 0, 0, 0⟩, ⟨0, 0, none, 1, false⟩⟩ :=
    ⟨by rintro size ⟨⟩; exact le_refl _, fun _ =>
      ⟨Or.inl ⟨rfl, rfl⟩, Nat.le_refl 0, fun i counted => absurd counted (Nat.not_lt_zero i)⟩⟩
  rw [readSection, exec_bind, exec_update, andThen_ok, exec_bind, exec_updateTable, andThen_ok]
  apply Ends.bind (storeBlock_ends (by rintro size ⟨⟩; exact large))
  · rintro _ _ ⟨rfl, _⟩
    apply Ends.bind (readBytes_ends (totalLength - 12) true _ _)
    · rintro rest _ ⟨rfl, _⟩
      rw [exec_ite]
      split
      · exact ⟨_, rfl⟩
      · rw [exec_bind, exec_get, andThen_ok]
        refine (firstInterface_ends inv (by simp) rfl (Nat.lt_succ_self _)).seq ?_
        rintro ⟨linktype, snaplen⟩ s ⟨inv', finished⟩
        exact ⟨⟨inv'.roomy, inv'.table⟩, finished⟩
    · rintro stop s ⟨isError, _⟩
      exact isError
  · rintro stop s ⟨_, _, lost⟩
    cases lost

end Call

theorem openSection_ends (swapped : Bool) (precision totalLength : Nat) (file : File) :
    Ends (exec (openSection swapped precision totalLength) (file, NgState.init))
      (fun p s => p.Inv s.2 ∧ s.2.table.unfinished = false)
      (fun stop _ => stop.IsError) := by
  simp only [openSection, exec_ite, exec_bind, andThen_ok, exec_fail, exec_malloc]
  split
  · exact ⟨_, rfl⟩
  split
  · exact ⟨_, rfl⟩
  split
  · exact ⟨_, rfl⟩
  split
  · exact ⟨_, rfl⟩
  · exact readSection_ends (le_max_right 2048 totalLength)

/-- A handle that `pcap_ng_check_header` has opened is as the calls expect it. -/
theorem pcapNgCheckHeader_ends (magic : BitVec 32) (precision : Nat) (file : File) :
    Ends (exec (pcapNgCheckHeader magic precision) (file, NgState.init))
      (fun opened s => ∀ p ∈ opened, p.Inv s.2 ∧ s.2.table.unfinished = false)
      (fun stop _ => stop.IsError) := by
  have opens : ∀ (swapped : Bool) (totalLength : Nat) (file : File),
      Ends (exec (some <$> openSection swapped precision totalLength) (file, NgState.init))
        (fun opened s => ∀ p ∈ opened, p.Inv s.2 ∧ s.2.table.unfinished = false)
        (fun stop _ => stop.IsError) := by
    intro swapped totalLength file
    apply Ends.map
    refine (openSection_ends swapped precision totalLength file).imp ?_
    rintro p s opened _ ⟨⟩
    exact opened
  simp only [pcapNgCheckHeader, exec_ite, exec_bind, exec_fread, andThen_ok, exec_pure]
  split
  · rintro p ⟨⟩
  split
  · rintro p ⟨⟩
  split
  · exact opens _ _ _
  split
  · exact opens _ _ _
  · rintro p ⟨⟩

/-! ## All calls -/

/-- The states of a handle between calls: after it was opened, and after every call,
whether it returned a packet, met the end of the file or failed. -/
inductive NgReached (p : NgSf) : File × NgState → Prop
  | opened {magic : BitVec 32} {precision : Nat} {file : File} {s : File × NgState}
      (opens : exec (pcapNgCheckHeader magic precision) (file, NgState.init) = (.ok (some p), s)) :
      NgReached p s
  | called {s : File × NgState} (reached : NgReached p s) :
      NgReached p (exec (pcapNgNextPacket p) s).2

theorem NgReached.inv {p : NgSf} {s : File × NgState} (reached : NgReached p s) : p.Inv s.2 := by
  induction reached with
  | opened opens => exact ((pcapNgCheckHeader_ends _ _ _).of_ok opens p rfl).1
  | @called s reached inv =>
    have ends : Ends (exec (pcapNgNextPacket p) s) (fun _ s => p.Inv s.2) (fun _ s => p.Inv s.2) :=
      (pcapNgNextPacket_ends inv).mono (fun _ _ ended => ended.1) (fun _ _ ended => ended.1)
    exact ends.state

/-! ## Small files -/

/-- A section header, without its first four bytes, and an Ethernet interface. -/
def oneInterface : List Byte :=
  [28, 0, 0, 0, 0x4D, 0x3C, 0x2B, 0x1A, 1, 0, 0, 0, 255, 255, 255, 255, 255, 255, 255, 255,
    28, 0, 0, 0, 1, 0, 0, 0, 20, 0, 0, 0, 1, 0, 0, 0, 96, 0, 0, 0, 20, 0, 0, 0]

/-- The handle of a file that begins so. -/
def oneInterfaceSf : NgSf where
  swapped := false
  tzoff := 0
  snapshot := 96
  linktype := 1
  linktypeExt := 0
  tstampPrecision := tstampPrecisionMicro
  bufsize := 2048
  userTsresol := 1000000

/-- A packet block for an interface, with an empty packet. -/
def emptyPacket (interfaceId : Byte) : List Byte :=
  [6, 0, 0, 0, 32, 0, 0, 0, interfaceId, 0, 0, 0, 0, 0, 0, 0, 0, 0, 0, 0, 0, 0, 0, 0, 0, 0, 0, 0,
    32, 0, 0, 0]

/-- An interface block whose `if_tsresol` option has a length of two. -/
def malformedInterface : List Byte :=
  [1, 0, 0, 0, 28, 0, 0, 0, 1, 0, 0, 0, 96, 0, 0, 0, 9, 0, 2, 0, 6, 6, 0, 0, 28, 0, 0, 0]

/-- The state in which such a file is opened. -/
def openedWith (rest : List Byte) (heap : Nat → Bool) : File × NgState :=
  (exec (pcapNgCheckHeader btShb tstampPrecisionMicro)
    (⟨oneInterface ++ rest, heap⟩, NgState.init)).2

theorem reached_openedWith {rest : List Byte} {heap : Nat → Bool}
    (opens : (exec (pcapNgCheckHeader btShb tstampPrecisionMicro)
      (⟨oneInterface ++ rest, heap⟩, NgState.init)).1 = .ok (some oneInterfaceSf)) :
    NgReached oneInterfaceSf (openedWith rest heap) :=
  .opened (Prod.ext opens rfl)

/-! ## The results -/

/-- **Every call stays in its block.** In every state that calls can reach, a call writes
nothing outside the buffer, reads nothing through the cursor outside the block or the
buffer, and ends, exactly if the next block does not meet a lost buffer. If moreover no
interface was left unfinished, it does nothing undefined at all. -/
theorem pcapNgNextPacket_inBlock_iff {p : NgSf} {s : File × NgState} (reached : NgReached p s) :
    ((∀ how ∈ [Fault.buffer, .cursor, .loop],
        (exec (pcapNgNextPacket p) s).1 ≠ .error (.fault how)) ↔ ¬ p.LostBuffer s.1 s.2) ∧
      (¬ p.LostBuffer s.1 s.2 → s.2.table.unfinished = false →
        ∀ how, (exec (pcapNgNextPacket p) s).1 ≠ .error (.fault how)) := by
  have ends : Ends (exec (pcapNgNextPacket p) s) _ _ := pcapNgNextPacket_ends reached.inv
  rcases outcome : exec (pcapNgNextPacket p) s with ⟨packet | stop, s'⟩
  · rw [outcome] at ends
    obtain ⟨_, stopped⟩ := ends
    rcases stopped with ⟨⟨errbuf, rfl⟩, there⟩ | ⟨rfl, lost⟩ | ⟨fault, there, unfinished⟩
    · refine ⟨⟨fun _ => there, fun _ how _ => by simp⟩, fun _ _ how => by simp⟩
    · refine ⟨⟨fun safe => absurd rfl (safe .buffer (by simp)), fun there => absurd lost there⟩,
        fun there => absurd lost there⟩
    · refine ⟨⟨fun _ => there, fun _ how listed => ?_⟩, fun _ finished => ?_⟩
      · rcases fault with rfl | rfl
        · rintro ⟨⟩
          simp at listed
        · rintro ⟨⟩
          simp at listed
      · rw [unfinished] at finished
        cases finished
  · rw [outcome] at ends
    exact ⟨⟨fun _ => ends.2, fun _ how _ => by simp⟩, fun _ _ how => by simp⟩

theorem pcapNgNextPacket_inBlock_packet :
    ¬ oneInterfaceSf.LostBuffer (openedWith (emptyPacket 0) fun _ => true).1
        (openedWith (emptyPacket 0) fun _ => true).2 ∧
      ∀ how ∈ [Fault.buffer, .cursor, .loop],
        (exec (pcapNgNextPacket oneInterfaceSf) (openedWith (emptyPacket 0) fun _ => true)).1 ≠
          .error (.fault how) := by
  have there : ¬ oneInterfaceSf.LostBuffer (openedWith (emptyPacket 0) fun _ => true).1
      (openedWith (emptyPacket 0) fun _ => true).2 := by
    intro lost
    cases lost.lost
  have reached : NgReached oneInterfaceSf (openedWith (emptyPacket 0) fun _ => true) :=
    reached_openedWith rfl
  exact ⟨there, (pcapNgNextPacket_inBlock_iff reached).1.mpr there⟩

/-- Enlarging the buffer for a block of 2052 bytes fails with an error; the next call
writes a block of 12 bytes to the buffer that was lost. -/
theorem enlarging_loses_buffer :
    let s := openedWith [0x63, 0, 0, 0, 4, 8, 0, 0, 0x63, 0, 0, 0, 12, 0, 0, 0, 12, 0, 0, 0]
      fun i => i != 3
    let first := exec (pcapNgNextPacket oneInterfaceSf) s
    NgReached oneInterfaceSf first.2 ∧ first.1 = .error (.error "out of memory") ∧
      (exec (pcapNgNextPacket oneInterfaceSf) first.2).1 = .error (.fault .buffer) :=
  ⟨.called (reached_openedWith rfl), rfl, rfl⟩

/-- **A known interface has an entry.** After any calls none of which failed while it was
adding an interface, a packet whose interface number passes the check refers to an
entry that an interface block of the current section has set. -/
theorem known_interface_refers {p : NgSf} {s s' : File × NgState} (reached : NgReached p s)
    (finished : s.2.table.unfinished = false) {found : Found}
    (next : exec (nextFound p (s.1.unread.length + 1)) s = (.ok (some found), s'))
    (known : found.interfaceId < s'.2.table.ifcount) :
    s'.2.table.Refers found.interfaceId.toNat := by
  have ends : LoopEnds p s.1 s.2 (exec (nextFound p (s.1.unread.length + 1)) s) :=
    nextFound_ends reached.inv (Nat.lt_succ_self _)
  obtain ⟨inv, _, unfinished, _⟩ := Ends.of_ok ends next
  exact (inv.table (unfinished.trans finished)).refers _ (BitVec.lt_def.mp known)

theorem known_interface_refers_packet :
    let s := openedWith (emptyPacket 0) fun _ => true
    let next := exec (nextFound oneInterfaceSf (s.1.unread.length + 1)) s
    next.1 = .ok (some ⟨0, 0, 0, 0⟩) ∧ next.2.2.table.Refers 0 := by
  intro s next
  have found : next = (.ok (some ⟨0, 0, 0, 0⟩), next.2) := rfl
  exact ⟨rfl, known_interface_refers (reached_openedWith rfl) rfl found (by decide)⟩

/-- An interface whose options are malformed is counted, and a packet that arrived on it
passes the check, though the entry of that interface was never set. -/
theorem malformed_interface_passes_check :
    let s := openedWith (malformedInterface ++ emptyPacket 1) fun _ => true
    let first := exec (pcapNgNextPacket oneInterfaceSf) s
    let next := exec (nextFound oneInterfaceSf (first.2.1.unread.length + 1)) first.2
    NgReached oneInterfaceSf first.2 ∧ (∃ errbuf, first.1 = .error (.error errbuf)) ∧
      next.1 = .ok (some ⟨1, 0, 0, 0⟩) ∧ next.2.2.table.ifcount = 2 ∧
      ¬ next.2.2.table.Refers 1 := by
  intro s first next
  refine ⟨.called (reached_openedWith rfl), ⟨_, rfl⟩, rfl, rfl, ?_⟩
  rintro ⟨entry, set, _⟩
  cases set

end Libpcap.Savefile
