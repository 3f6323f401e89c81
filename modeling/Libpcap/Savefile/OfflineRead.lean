/-
# Reading a savefile in pieces

`pcap_offline_read` of `savefile.c` hands the packets of a savefile that pass the
filter to a callback, up to a count; `pcap_loop` of `pcap.c` calls it until a count is
exhausted. Either may be told by `pcap_breakloop`, called from the callback, to return
early, and is then called again.

However a program divides its reading into calls, the packets that it has been handed
are those that its calls of the next-packet routine have yielded and that pass the
filter, in their order. So they are a prefix of what the file holds for it, and all of
it when the end of the file has been reported.
-/

import Libpcap.Bpf.Filter
import Libpcap.Savefile.NgLinktype

namespace Libpcap.Savefile

open Libpcap.Semantics Libpcap.Gencode Libpcap.Bpf List

variable {ended : Except Halt Int32 × Offline} {base : Nat} {session : Session}

/-! ## What a call takes from the file -/

/-- The number of bytes that are still to be read. -/
def unreadBytes {σ : Type} (s : File × σ) : Nat := s.1.unread.length

section Shrinking

variable {σ ε : Type}

theorem shrinks_fread (n : Nat) : Shrinks unreadBytes (fread n : Reading σ ε (List Byte)) := by
  intro s
  change (s.1.unread.drop n).length ≤ s.1.unread.length
  rw [length_drop]
  omega

theorem shrinks_malloc : Shrinks unreadBytes (malloc : Reading σ ε Bool) := fun _ => le_rfl

theorem shrinks_own : Shrinks unreadBytes own := fun _ => le_rfl

theorem shrinks_update (f : NgState → NgState) : Shrinks unreadBytes (update f) := fun _ => le_rfl

theorem shrinks_fail {α : Type} (errbuf : String) : Shrinks unreadBytes (fail errbuf : Ng α) :=
  Shrinks.throw _

theorem shrinks_readCaptured (caplen : Nat) : Shrinks unreadBytes (readCaptured caplen) := by
  apply (shrinks_fread caplen).bind
  intro data
  apply Shrinks.ite
  · exact (Shrinks.throw _).bind fun _ => Shrinks.pure _
  · exact Shrinks.pure _

theorem shrinks_growSalvage (caplen : Nat) : Shrinks unreadBytes (growSalvage caplen) := by
  apply Shrinks.get.bind
  intro s
  apply Shrinks.ite _ (Shrinks.pure _)
  apply shrinks_malloc.bind
  intro granted
  apply Shrinks.ite
  · exact fun _ => le_rfl
  · apply Shrinks.bind (fun _ => le_rfl)
    exact fun _ => Shrinks.throw _

theorem shrinks_readBytes (n : Nat) (failOnEof : Bool) :
    Shrinks unreadBytes (readBytes n failOnEof) := by
  apply (shrinks_fread n).bind
  intro bytes
  apply Shrinks.ite _ (Shrinks.pure _)
  exact Shrinks.ite (Shrinks.pure _) (shrinks_fail _)

/-- A routine that works on a block takes nothing from the file. -/
theorem BlockRoutine.shrinks {α : Type} {m : Ng α} (routine : BlockRoutine m) :
    Shrinks unreadBytes m := by
  induction routine with
  | pure | own | update | malloc | fault | fail => exact fun _ => le_rfl
  | bind _ _ first next => exact first.bind next

theorem shrinks_readContents (p : NgSf) (blockType : BitVec 32) (totalLength : Nat) :
    Shrinks unreadBytes (readContents p blockType totalLength) := by
  apply (routine_growBuffer p totalLength).shrinks.bind
  intro _
  apply (routine_storeBlock totalLength).shrinks.bind
  intro _
  apply (shrinks_readBytes _ _).bind
  intro contents
  exact shrinks_update _

theorem shrinks_idb (p : NgSf) : Shrinks unreadBytes (idb p) := by
  apply (routine_fixedPart 8).shrinks.bind
  intro raw
  apply Shrinks.ite (shrinks_fail _)
  exact Shrinks.ite (shrinks_fail _) (routine_addInterface p).shrinks

end Shrinking

/-- How a call ends, as far as the file is concerned: at the end of the file nothing is
left of it, and otherwise there is less than before. -/
def Takes {σ ε α : Type} (before : Nat) (ended : Except ε (Option α) × File × σ) : Prop :=
  match ended with
  | (.ok none, file, _) => file.unread = []
  | (_, file, _) => file.unread.length < before

namespace Takes

variable {σ ε α β : Type} {before : Nat} {s : File × σ}

theorem some (a : α) (less : unreadBytes s < before) :
    Takes before (exec (pure (some a) : Reading σ ε (Option α)) s) := less

theorem bind {m : Reading σ ε β} {f : β → Reading σ ε (Option α)}
    (shrinks : Shrinks unreadBytes m) (less : unreadBytes s < before)
    (next : ∀ b s', unreadBytes s' < before → Takes before (exec (f b) s')) :
    Takes before (exec (m >>= f) s) := by
  rw [exec_bind]
  have less' := (shrinks s).trans_lt less
  generalize exec m s = ended at less' ⊢
  obtain ⟨outcome, s'⟩ := ended
  cases outcome with
  | ok b => exact next b s' less'
  | error e => exact less'

theorem map_some {m : Reading σ ε α} (shrinks : Shrinks unreadBytes m)
    (less : unreadBytes s < before) : Takes before (exec (Option.some <$> m) s) := by
  rw [map_eq_pure_bind]
  exact bind shrinks less fun a _ less' => some a less'

end Takes

theorem pcapNextPacket_takes (sf : PcapSf) (file : File) (salvage : Salvage) :
    Takes file.unread.length (exec (pcapNextPacket sf) (file, salvage)) := by
  have wide : 16 ≤ sf.hdrsize := sf.pktHdrSize_le
  rw [pcapNextPacket, exec_bind, exec_fread, andThen_ok, exec_ite]
  split
  · rename_i short
    rw [length_take] at short
    simp only [exec_ite]
    split
    · rename_i nonempty
      change (file.unread.drop sf.hdrsize).length < file.unread.length
      rw [length_take] at nonempty
      rw [length_drop]
      omega
    · change file.unread.drop sf.hdrsize = []
      rw [drop_eq_nil_iff]
      omega
  · rename_i whole
    rw [length_take] at whole
    have less : unreadBytes (({ file with unread := file.unread.drop sf.hdrsize } : File), salvage) <
        file.unread.length := by
      change (file.unread.drop sf.hdrsize).length < _
      rw [length_drop]
      omega
    simp only [exec_ite]
    split
    · split
      · exact less
      · apply Takes.bind (shrinks_growSalvage _) less
        intro _ s less
        apply Takes.bind (shrinks_readCaptured _) less
        intro data s less
        exact Takes.some _ less
    · apply Takes.bind (shrinks_readCaptured _) less
      intro data s less
      exact Takes.some _ less

/-- A block takes its header from the file, at least. -/
theorem readBlock_takes (p : NgSf) (s : File × NgState) :
    Ends (exec (readBlock p) s)
      (fun more s' => if more then unreadBytes s' < unreadBytes s else s'.1.unread = [])
      (fun _ s' => unreadBytes s' < unreadBytes s) := by
  obtain ⟨file, state⟩ := s
  rw [readBlock, readBytes, bind_assoc, exec_bind, exec_fread, andThen_ok, exec_bind, exec_ite]
  split
  · rename_i short
    rw [length_take] at short
    rw [exec_ite]
    split
    · change file.unread.drop blockHeaderSize = []
      rw [drop_eq_nil_iff]
      omega
    · rename_i nonempty
      have some : (file.unread.take blockHeaderSize).length ≠ 0 := fun none => nonempty ⟨none, rfl⟩
      change (file.unread.drop blockHeaderSize).length < file.unread.length
      rw [length_take] at some
      rw [length_drop]
      omega
  · rename_i whole
    rw [length_take] at whole
    have less : unreadBytes (({ file with unread := file.unread.drop blockHeaderSize } : File),
        state) < unreadBytes (file, state) := by
      change (file.unread.drop blockHeaderSize).length < file.unread.length
      rw [length_drop]
      simp only [blockHeaderSize] at *
      omega
    rw [exec_pure, andThen_ok, exec_ite, exec_ite]
    split
    · exact less
    split
    · exact less
    · rw [exec_bind]
      have less' := (shrinks_readContents p (p.long 0 (file.unread.take blockHeaderSize))
        (p.long 4 (file.unread.take blockHeaderSize)).toNat _).trans_lt less
      generalize exec (readContents p _ _) _ = ended at less' ⊢
      obtain ⟨outcome, s'⟩ := ended
      cases outcome with
      | ok _ => exact less'
      | error stop => exact less'

/-- The loop over the blocks takes something from the file, unless it is not entered. -/
theorem nextFound_takes (p : NgSf) (blocks before : Nat) (s : File × NgState)
    (least : unreadBytes s < before ∨ (0 < blocks ∧ unreadBytes s ≤ before)) :
    Takes before (exec (nextFound p blocks) s) := by
  induction blocks generalizing s with
  | zero =>
    have less : unreadBytes s < before := by omega
    exact less
  | succ blocks ih =>
    have loop : ∀ s', unreadBytes s' < before → Takes before (exec (nextFound p blocks) s') :=
      fun s' less => ih s' (Or.inl less)
    have most : unreadBytes s ≤ before := by omega
    rw [nextFound, exec_bind]
    have taken := readBlock_takes p s
    generalize exec (readBlock p) s = ended at taken ⊢
    obtain ⟨outcome, s'⟩ := ended
    cases outcome with
    | error stop => exact lt_of_lt_of_le taken most
    | ok more =>
      cases more with
      | false => exact taken
      | true =>
        have less : unreadBytes s' < before := lt_of_lt_of_le taken most
        rw [andThen_ok, if_pos rfl]
        apply Takes.bind shrinks_own less
        intro state s' less
        simp only [exec_ite]
        split
        · exact Takes.map_some (routine_epb p).shrinks less
        split
        · exact Takes.map_some (routine_spb p).shrinks less
        split
        · exact Takes.map_some (routine_pb p).shrinks less
        split
        · exact Takes.bind (shrinks_idb p) less fun _ s' less => loop s' less
        split
        · exact Takes.bind (routine_shb p).shrinks less fun _ s' less => loop s' less
        · exact loop s' less

theorem pcapNgNextPacket_takes (p : NgSf) (s : File × NgState) :
    Takes (unreadBytes s) (exec (pcapNgNextPacket p) s) := by
  rw [pcapNgNextPacket, exec_bind, exec_get, andThen_ok]
  have taken := nextFound_takes p (unreadBytes s + 1) (unreadBytes s) s
    (Or.inr ⟨Nat.succ_pos _, le_rfl⟩)
  change Takes _ (exec (nextFound p (unreadBytes s + 1) >>= _) s)
  rw [exec_bind]
  generalize exec (nextFound p _) s = ended at taken ⊢
  obtain ⟨outcome, s'⟩ := ended
  cases outcome with
  | error stop => exact taken
  | ok found =>
    cases found with
    | none => exact taken
    | some found => exact Takes.map_some (routine_deliverFound p found).shrinks taken

namespace Session

variable {session session' : Session}

/-- The end of the file is reported only when all of it has been read. -/
theorem unread_of_next_eof (eof : session.next = (.ok none, session')) :
    session'.file.unread = [] := by
  obtain ⟨reader, file, salvage⟩ := session
  cases reader with
  | pcap sf =>
    have taken := pcapNextPacket_takes sf file salvage
    simp only [next] at eof
    generalize exec (pcapNextPacket sf) (file, salvage) = ended at taken eof
    obtain ⟨outcome, file', salvage'⟩ := ended
    cases outcome with
    | error errbuf => cases eof
    | ok packet =>
      cases eof
      exact taken
  | ng sf state =>
    have taken := pcapNgNextPacket_takes sf (file, state)
    simp only [next] at eof
    generalize exec (pcapNgNextPacket sf) (file, state) = ended at taken eof
    obtain ⟨outcome, file', state'⟩ := ended
    cases eof
    exact taken

/-- Every other call has read something. -/
theorem unread_lt_of_next {reply : Reply} (replied : session.next = (reply, session'))
    (more : reply ≠ .ok none) : session'.file.unread.length < session.file.unread.length := by
  obtain ⟨reader, file, salvage⟩ := session
  cases reader with
  | pcap sf =>
    have taken := pcapNextPacket_takes sf file salvage
    simp only [next] at replied
    generalize exec (pcapNextPacket sf) (file, salvage) = ended at taken replied
    obtain ⟨outcome, file', salvage'⟩ := ended
    cases replied
    cases outcome with
    | error errbuf => exact taken
    | ok packet =>
      cases packet with
      | none => exact absurd rfl more
      | some packet => exact taken
  | ng sf state =>
    have taken := pcapNgNextPacket_takes sf (file, state)
    simp only [next] at replied
    generalize exec (pcapNgNextPacket sf) (file, state) = ended at taken replied
    obtain ⟨outcome, file', state'⟩ := ended
    cases replied
    cases outcome with
    | error stop => exact taken
    | ok packet =>
      cases packet with
      | none => exact absurd rfl more
      | some packet => exact taken

/-- Once all of the file has been read, every call reports its end. -/
theorem next_of_unread_nil (nothing : session.file.unread = []) :
    session.next.1 = .ok none ∧ session.next.2.file.unread = [] := by
  have eof : session.next.1 = .ok none := by
    by_contra more
    have less : session.next.2.file.unread.length < session.file.unread.length :=
      unread_lt_of_next rfl more
    rw [nothing] at less
    exact absurd less (Nat.not_lt_zero _)
  exact ⟨eof, unread_of_next_eof (Prod.ext eof rfl)⟩

/-- The session after some calls. -/
def after : Nat → Session → Session
  | 0, session => session
  | calls + 1, session => after calls session.next.2

theorem after_succ (calls : Nat) (session : Session) :
    session.after (calls + 1) = (session.after calls).next.2 := by
  induction calls generalizing session with
  | zero => rfl
  | succ calls ih => exact ih session.next.2

end Session

/-! ## The filter and the callback -/

/-- What a program sets up before it reads: the filter, and a callback that may call
`pcap_breakloop`, depending on the packets that it has been handed.

A run of the filter may also depend on what it finds in its scratch words and in the
memory around the packet; that is given for each packet that is read, by its number.
`fuel` bounds the instructions of one run. -/
structure Setting where
  fcode : Option (List Insn)
  fuel : Nat
  scratch : Nat → Fin memWords → Word
  around : Nat → Int → BitVec 8
  breaks : List (Pkthdr × List Byte) → Bool

/-- `bpf_filter(fcode, data, h.len, h.caplen)`, with the `i`th packet: whether it passes, if
the run ends. -/
def Setting.passes (setting : Setting) (i : Nat) (packet : Pkthdr × List Byte) : Option Bool :=
  let data : Packet :=
    { data := packet.2.take packet.1.caplen.toNat
      wirelen := packet.1.len
      around := setting.around i
      length_lt := (List.length_take_le _ _).trans_lt packet.1.caplen.isLt }
  match setting.fcode with
  | none => some true
  | some insns =>
    match bpfFilter setting.fuel (some insns) data (setting.scratch i) with
    | .stop result => result.returned.map (· != 0)
    | .go _ => none

/-- What the `i`th reply contributes to the filtered packets. -/
def Setting.accepted (setting : Setting) (i : Nat) : Reply → List (Pkthdr × List Byte)
  | .ok (some packet) => if setting.passes i packet = some true then [packet] else []
  | _ => []

/-- The packets that the next calls yield and that pass the filter; `i` calls have been
made before. After a call that fails, reading goes on where it has left the file. -/
def Setting.sequence (setting : Setting) (i : Nat) : Nat → Session → List (Pkthdr × List Byte)
  | 0, _ => []
  | calls + 1, session =>
    setting.accepted i session.next.1 ++ setting.sequence (i + 1) calls session.next.2

/-- The filtered packet sequence of the file. A call takes at least a byte from the file, or
reports its end. -/
def Setting.packets (setting : Setting) (session : Session) : List (Pkthdr × List Byte) :=
  setting.sequence 0 session.file.unread.length session

section Sequence

variable (setting : Setting)

theorem Setting.sequence_add (i first more : Nat) (session : Session) :
    setting.sequence i (first + more) session =
      setting.sequence i first session ++ setting.sequence (i + first) more (session.after first) := by
  induction first generalizing i session with
  | zero => simp [sequence, Session.after]
  | succ first ih =>
    rw [Nat.succ_add, sequence, sequence, ih, append_assoc, Session.after]
    congr 3
    omega

/-- One more call. -/
theorem Setting.sequence_succ (calls : Nat) (session : Session) :
    setting.sequence 0 (calls + 1) session =
      setting.sequence 0 calls session ++
        setting.accepted calls (session.after calls).next.1 := by
  rw [sequence_add, Nat.zero_add]
  simp [sequence]

theorem Setting.sequence_of_unread_nil (i calls : Nat) (nothing : session.file.unread = []) :
    setting.sequence i calls session = [] := by
  induction calls generalizing i session with
  | zero => rfl
  | succ calls ih =>
    obtain ⟨eof, nothing'⟩ := Session.next_of_unread_nil nothing
    rw [sequence, eof, ih (i + 1) nothing']
    rfl

/-- After as many calls as the file has bytes, all of it has been read. -/
theorem Session.unread_after {calls : Nat} (enough : session.file.unread.length ≤ calls) :
    (session.after calls).file.unread = [] := by
  induction calls generalizing session with
  | zero => exact eq_nil_of_length_eq_zero (Nat.le_zero.mp enough)
  | succ calls ih =>
    apply ih
    by_cases eof : session.next.1 = .ok none
    · rw [Session.unread_of_next_eof (Prod.ext eof rfl)]
      exact Nat.zero_le _
    · have less : session.next.2.file.unread.length < session.file.unread.length :=
        Session.unread_lt_of_next rfl eof
      omega

/-- No more calls are needed than the file has bytes. -/
theorem Setting.sequence_of_le {calls : Nat} (enough : session.file.unread.length ≤ calls) :
    setting.sequence 0 calls session = setting.packets session := by
  obtain ⟨rest, rfl⟩ := Nat.exists_eq_add_of_le enough
  rw [sequence_add, setting.sequence_of_unread_nil _ _ (Session.unread_after le_rfl),
    append_nil, packets]

/-- What some calls yield is the beginning of the sequence, and what the next ones yield is
the rest. -/
theorem Setting.packets_eq (calls : Nat) (session : Session) :
    ∃ more, setting.packets session =
      setting.sequence 0 calls session ++ setting.sequence calls more (session.after calls) := by
  rcases Nat.le_total calls session.file.unread.length with fewer | enough
  · obtain ⟨more, total⟩ := Nat.exists_eq_add_of_le fewer
    rw [packets, total, sequence_add, Nat.zero_add]
    exact ⟨more, rfl⟩
  · rw [sequence_of_le setting enough]
    exact ⟨0, (append_nil _).symm⟩

end Sequence

/-! ## The two loops -/

/-- A handle that is being read, with a record of what has happened: the number of calls of
the next-packet routine, and the packets that were handed to the callback. -/
structure Offline where
  session : Session
  breakLoop : Bool
  reads : Nat
  delivered : List (Pkthdr × List Byte)

/-- A handle that has just been opened. -/
def Offline.start (session : Session) : Offline := ⟨session, false, 0, []⟩

/-- Why a call does not return: the next-packet routine did something undefined, the run of
the filter does not end, or the bound of a loop of this model was reached. -/
inductive Halt
  | fault (how : Fault)
  | filter
  | bound
  deriving DecidableEq, Repr

/-- `p->next_packet_op(p, &h, &data)` -/
def Offline.nextPacket (p : Offline) : Reply × Offline :=
  (p.session.next.1, { p with session := p.session.next.2, reads := p.reads + 1 })

namespace Setting

variable (setting : Setting)

/-- `(*callback)(user, &h, data)` -/
def callback (packet : Pkthdr × List Byte) (p : Offline) : Offline :=
  { p with
    breakLoop := p.breakLoop || setting.breaks (p.delivered ++ [packet])
    delivered := p.delivered ++ [packet] }

/-- The loop of `pcap_offline_read`, for at most the given number of turns. -/
def readLoop (cnt : Int32) : Nat → Int32 → Offline → Except Halt Int32 × Offline
  | 0, _, p => (.error .bound, p)
  | turns + 1, n, p =>
    if p.breakLoop then
      if n = 0 then (.ok (-2), { p with breakLoop := false }) else (.ok n, p)
    else
      match p.nextPacket with
      | (.error (.error _), p) => (.ok (-1), p)
      | (.error (.fault how), p) => (.error (.fault how), p)
      | (.ok none, p) => (.ok 0, p)
      | (.ok (some packet), p) =>
        match setting.passes (p.reads - 1) packet with
        | none => (.error .filter, p)
        | some false => readLoop cnt turns n p
        | some true =>
          let p := setting.callback packet p
          if cnt ≤ n + 1 ∧ 0 < cnt then (.ok (n + 1), p) else readLoop cnt turns (n + 1) p

def pcapOfflineRead (cnt : Int32) (p : Offline) : Except Halt Int32 × Offline :=
  setting.readLoop cnt (p.session.file.unread.length + 1) 0 p

/-- The loop of `pcap_loop` for a savefile, for at most the given number of turns. -/
def loopTurns : Nat → Int32 → Offline → Except Halt Int32 × Offline
  | 0, _, p => (.error .bound, p)
  | turns + 1, cnt, p =>
    match setting.pcapOfflineRead cnt p with
    | (.error halt, p) => (.error halt, p)
    | (.ok n, p) =>
      if n ≤ 0 then (.ok n, p)
      else if 0 < cnt then
        if cnt - n ≤ 0 then (.ok 0, p) else loopTurns turns (cnt - n) p
      else loopTurns turns cnt p

/-- `pcap_loop`. It goes on only if it was told to break, and then returns. -/
def pcapLoop (cnt : Int32) (p : Offline) : Except Halt Int32 × Offline :=
  setting.loopTurns 2 cnt p

end Setting

/-! ## What the loops keep -/

section Loops

variable {setting : Setting} {session : Session} {p : Offline} {cnt n : Int32}

/-- The handle is where its calls of the next-packet routine have brought the file, and has
handed over what they yielded. -/
structure Offline.Follows (setting : Setting) (session : Session) (p : Offline) : Prop where
  session_eq : p.session = session.after p.reads
  delivered_eq : p.delivered = setting.sequence 0 p.reads session

theorem Offline.follows_start (setting : Setting) (session : Session) :
    (Offline.start session).Follows setting session :=
  ⟨rfl, rfl⟩

/-- One call of the next-packet routine. -/
theorem Offline.Follows.nextPacket (follows : p.Follows setting session) :
    p.nextPacket.2.session = session.after (p.reads + 1) ∧
      setting.sequence 0 (p.reads + 1) session =
        p.delivered ++ setting.accepted p.reads p.nextPacket.1 := by
  constructor
  · rw [Session.after_succ, ← follows.session_eq]
    rfl
  · rw [Setting.sequence_succ, ← follows.delivered_eq, ← follows.session_eq]
    rfl

/-- A packet that is not handed over. -/
theorem Offline.Follows.skip (follows : p.Follows setting session)
    (dropped : setting.accepted p.reads p.nextPacket.1 = []) :
    p.nextPacket.2.Follows setting session := by
  obtain ⟨moved, sequence⟩ := follows.nextPacket
  rw [dropped, append_nil] at sequence
  exact ⟨moved, sequence.symm⟩

/-- A packet that is. -/
theorem Offline.Follows.callback (follows : p.Follows setting session) {packet : Pkthdr × List Byte}
    (handed : setting.accepted p.reads p.nextPacket.1 = [packet]) :
    (setting.callback packet p.nextPacket.2).Follows setting session := by
  obtain ⟨moved, sequence⟩ := follows.nextPacket
  rw [handed] at sequence
  exact ⟨moved, sequence.symm⟩

/-- The counter as a number, where it cannot overflow. -/
theorem toInt_succ (nonneg : 0 ≤ n.toInt) (less : n.toInt < cnt.toInt) :
    (n + 1).toInt = n.toInt + 1 := by
  have most := cnt.toInt_lt
  rw [Int32.toInt_add]
  exact Int.bmod_eq_of_le (by change -(2 ^ 31 : Int) ≤ n.toInt + 1; omega)
    (by change n.toInt + 1 < (2 ^ 31 : Int); omega)

/-- The packet that is handed over is counted. -/
theorem count_succ {delivered : List (Pkthdr × List Byte)} (packet : Pkthdr × List Byte)
    (counts : delivered.length = base + n.toInt ∧ 0 ≤ n.toInt ∧ n < cnt) :
    (delivered ++ [packet]).length = base + (n + 1).toInt ∧ 0 ≤ (n + 1).toInt ∧
      (n + 1).toInt ≤ cnt.toInt := by
  obtain ⟨count, nonneg, less⟩ := counts
  have less := Int32.lt_iff_toInt_lt.mp less
  rw [toInt_succ nonneg less, length_append, length_singleton]
  omega

/-- How a call of `pcap_offline_read` ends that began when `base` packets had been handed
over. It returns 0 at the end of the file only. A positive result is the number of packets,
and if that is less than the count, then the break flag is left set. -/
structure ReadEnds (setting : Setting) (session : Session) (cnt : Int32) (base : Nat)
    (ended : Except Halt Int32 × Offline) : Prop where
  follows : ended.2.Follows setting session
  ends : ended.1 ≠ .error .bound
  whole : ended.1 = .ok 0 → ended.2.session.file.unread = []
  most : 0 < cnt → ended.2.delivered.length ≤ base + cnt.toInt
  counted : ∀ n, ended.1 = .ok n → 0 < n → 0 < cnt → ended.2.delivered.length = base + n.toInt
  broken : ∀ n, ended.1 = .ok n → 0 < n → cnt ≤ 0 ∨ n < cnt → ended.2.breakLoop = true

/-- A call that ends without a packet of its own and without a count. -/
theorem ReadEnds.of_not_pos (follows : ended.2.Follows setting session)
    (ends : ended.1 ≠ .error .bound) (whole : ended.1 = .ok 0 → ended.2.session.file.unread = [])
    (most : 0 < cnt → ended.2.delivered.length ≤ base + cnt.toInt)
    (other : ∀ n, ended.1 = .ok n → ¬ 0 < n) : ReadEnds setting session cnt base ended where
  follows := follows
  ends := ends
  whole := whole
  most := most
  counted n value positive := absurd positive (other n value)
  broken n value positive := absurd positive (other n value)

/-- A packet has been handed over: the count is exhausted, or the loop goes on. -/
theorem ReadEnds.hand (follows : p.Follows setting session) (counts : 0 < cnt → p.delivered.length =
      base + (n + 1).toInt ∧ 0 ≤ (n + 1).toInt ∧ (n + 1).toInt ≤ cnt.toInt)
    (later : (0 < cnt → n + 1 < cnt) → ReadEnds setting session cnt base ended) :
    ReadEnds setting session cnt base
      (if cnt ≤ n + 1 ∧ 0 < cnt then (.ok (n + 1), p) else ended) := by
  split
  · rename_i exhausted
    obtain ⟨reached, limited⟩ := exhausted
    obtain ⟨count, _, atMost⟩ := counts limited
    refine ⟨follows, by simp, ?_, ?_, ?_, ?_⟩
    · intro zero
      rw [Except.ok.inj zero] at reached
      exact absurd limited (Int32.not_lt.mpr reached)
    · intro _
      change (p.delivered.length : Int) ≤ _
      omega
    · rintro _ ⟨⟩ _ _
      exact count
    · rintro _ ⟨⟩ _ fewer
      rcases fewer with unlimited | less
      · exact absurd limited (Int32.not_lt.mpr unlimited)
      · exact absurd less (Int32.not_lt.mpr reached)
  · rename_i more
    apply later
    intro limited
    by_contra reached
    exact more ⟨Int32.not_lt.mp reached, limited⟩

theorem readLoop_ends {turns : Nat} (follows : p.Follows setting session)
    (enough : p.session.file.unread.length < turns)
    (counts : 0 < cnt → p.delivered.length = base + n.toInt ∧ 0 ≤ n.toInt ∧ n < cnt) :
    ReadEnds setting session cnt base (setting.readLoop cnt turns n p) := by
  induction turns generalizing n p with
  | zero => exact absurd enough (Nat.not_lt_zero _)
  | succ turns ih =>
    have most : 0 < cnt → (p.delivered.length : Int) ≤ base + cnt.toInt := by
      intro limited
      obtain ⟨count, _, less⟩ := counts limited
      have less := Int32.lt_iff_toInt_lt.mp less
      omega
    rw [Setting.readLoop]
    split
    · rename_i broken
      split
      · apply ReadEnds.of_not_pos ⟨follows.1, follows.2⟩ (by simp) (by simp) most
        rintro n ⟨⟩
        decide
      · rename_i some
        refine ⟨follows, by simp, ?_, most, ?_, ?_⟩
        · intro zero
          exact absurd (Except.ok.inj zero) some
        · rintro n ⟨⟩ _ limited
          exact (counts limited).1
        · intro _ _ _ _
          exact broken
    · cases replied : p.nextPacket.1 with
      | error stop =>
        have next : p.nextPacket = (.error stop, p.nextPacket.2) := Prod.ext replied rfl
        have follows' := follows.skip (by rw [replied]; rfl)
        rw [next]
        cases stop with
        | fault how => exact .of_not_pos follows' (by simp) (by simp) most (by simp)
        | error errbuf =>
          apply ReadEnds.of_not_pos follows' (by simp) (by simp) most
          rintro n ⟨⟩
          decide
      | ok packet =>
        have next : p.nextPacket = (.ok packet, p.nextPacket.2) := Prod.ext replied rfl
        cases packet with
        | none =>
          have follows' := follows.skip (by rw [replied]; rfl)
          rw [next]
          apply ReadEnds.of_not_pos follows' (by simp) _ most
          · rintro n ⟨⟩
            decide
          · intro _
            exact Session.unread_of_next_eof (Prod.ext replied rfl)
        | some packet =>
          have shorter : p.nextPacket.2.session.file.unread.length < turns := by
            have less : p.session.next.2.file.unread.length < p.session.file.unread.length :=
              Session.unread_lt_of_next (Prod.ext replied rfl) (by simp)
            change p.session.next.2.file.unread.length < turns
            omega
          rw [next]
          change ReadEnds _ _ _ _ (match setting.passes p.reads packet with
            | none => _ | some false => _ | some true => _)
          cases passes : setting.passes p.reads packet with
          | none =>
            have follows' := follows.skip (by simp [replied, Setting.accepted, passes])
            exact .of_not_pos follows' (by simp) (by simp) most (by simp)
          | some passed =>
            cases passed with
            | false =>
              have follows' := follows.skip (by simp [replied, Setting.accepted, passes])
              exact ih follows' shorter counts
            | true =>
              have follows' : (setting.callback packet p.nextPacket.2).Follows _ _ :=
                follows.callback (by simp [replied, Setting.accepted, passes])
              have counts' := fun limited => count_succ packet (counts limited)
              apply ReadEnds.hand follows' counts'
              intro more
              exact ih follows' shorter fun limited =>
                ⟨(counts' limited).1, (counts' limited).2.1, more limited⟩

theorem pcapOfflineRead_ends (cnt : Int32) (follows : p.Follows setting session) :
    ReadEnds setting session cnt p.delivered.length (setting.pcapOfflineRead cnt p) := by
  apply readLoop_ends follows (Nat.lt_succ_self _)
  intro limited
  exact ⟨(Int.add_zero _).symm, le_rfl, limited⟩

/-- A call that finds the break flag set clears it and returns at once. -/
theorem pcapOfflineRead_of_break (cnt : Int32) (broken : p.breakLoop = true) :
    setting.pcapOfflineRead cnt p = (.ok (-2), { p with breakLoop := false }) := by
  rw [Setting.pcapOfflineRead, Setting.readLoop, if_pos broken, if_pos rfl]

/-- How a call of `pcap_loop` ends that began when `base` packets had been handed over. It
returns 0 at the end of the file, or when the count is exhausted. -/
structure PcapLoopEnds (setting : Setting) (session : Session) (cnt : Int32) (base : Nat)
    (ended : Except Halt Int32 × Offline) : Prop where
  follows : ended.2.Follows setting session
  ends : ended.1 ≠ .error .bound
  whole : ended.1 = .ok 0 → ended.2.session.file.unread = [] ∨
    (0 < cnt ∧ ended.2.delivered.length = base + cnt.toInt)
  most : 0 < cnt → ended.2.delivered.length ≤ base + cnt.toInt

/-- A turn that ends the loop with what `pcap_offline_read` has returned. -/
theorem ReadEnds.pcapLoopEnds (read : ReadEnds setting session cnt base ended) :
    PcapLoopEnds setting session cnt base ended where
  follows := read.follows
  ends := read.ends
  whole zero := Or.inl (read.whole zero)
  most := read.most

/-- A further turn only finds the break flag set. -/
theorem loopTurns_of_break (cnt : Int32) (broken : p.breakLoop = true) :
    setting.loopTurns 1 cnt p = (.ok (-2), { p with breakLoop := false }) := by
  rw [Setting.loopTurns, pcapOfflineRead_of_break cnt broken]
  rfl

theorem pcapLoop_ends (cnt : Int32) (follows : p.Follows setting session) :
    PcapLoopEnds setting session cnt p.delivered.length (setting.pcapLoop cnt p) := by
  have read := pcapOfflineRead_ends cnt follows
  rw [Setting.pcapLoop, Setting.loopTurns]
  generalize setting.pcapOfflineRead cnt p = ended at read ⊢
  obtain ⟨outcome, q⟩ := ended
  -- the second turn returns `-2` with everything as it was
  have again : ∀ cnt' : Int32, q.breakLoop = true →
      PcapLoopEnds setting session cnt p.delivered.length (setting.loopTurns 1 cnt' q) := by
    intro cnt' broken
    rw [loopTurns_of_break cnt' broken]
    exact ⟨⟨read.follows.1, read.follows.2⟩, by simp, by simp, read.most⟩
  cases outcome with
  | error halt => exact read.pcapLoopEnds
  | ok n =>
    change PcapLoopEnds _ _ _ _ (if n ≤ 0 then _ else if 0 < cnt then
      if cnt - n ≤ 0 then _ else _ else _)
    split
    · exact read.pcapLoopEnds
    rename_i positive
    have positive := Int32.not_le.mp positive
    split
    · rename_i limited
      have count := read.counted n rfl positive limited
      have atMost := read.most limited
      change (q.delivered.length : Int) = _ at count
      change (q.delivered.length : Int) ≤ _ at atMost
      have difference : (cnt - n).toInt = cnt.toInt - n.toInt := by
        have positive := Int32.lt_iff_toInt_lt.mp positive
        have most := cnt.toInt_lt
        change 0 < n.toInt at positive
        rw [Int32.toInt_sub]
        exact Int.bmod_eq_of_le (by change -(2 ^ 31 : Int) ≤ cnt.toInt - n.toInt; omega)
          (by change cnt.toInt - n.toInt < (2 ^ 31 : Int); omega)
      split
      · rename_i exhausted
        have exhausted := Int32.le_iff_toInt_le.mp exhausted
        rw [difference] at exhausted
        change cnt.toInt - n.toInt ≤ 0 at exhausted
        refine ⟨read.follows, by simp, fun _ => Or.inr ⟨limited, ?_⟩, read.most⟩
        change (q.delivered.length : Int) = _
        omega
      · rename_i more
        apply again
        apply read.broken n rfl positive
        have more := Int32.lt_iff_toInt_lt.mp (Int32.not_le.mp more)
        rw [difference] at more
        change 0 < cnt.toInt - n.toInt at more
        exact Or.inr (Int32.lt_iff_toInt_lt.mpr (by omega))
    · rename_i unlimited
      exact again _ (read.broken n rfl positive (Or.inl (Int32.not_lt.mp unlimited)))

end Loops

/-! ## Any division into calls -/

/-- A call that reads, with its count. -/
inductive ReadCall
  | offlineRead (cnt : Int32)
  | loop (cnt : Int32)
  deriving DecidableEq, Repr

def ReadCall.cnt : ReadCall → Int32
  | .offlineRead cnt => cnt
  | .loop cnt => cnt

namespace Setting

variable (setting : Setting)

def perform : ReadCall → Offline → Except Halt Int32 × Offline
  | .offlineRead cnt, p => setting.pcapOfflineRead cnt p
  | .loop cnt, p => setting.pcapLoop cnt p

/-- The handle after some calls, or in the first of them that does not return. -/
def run : List ReadCall → Offline → Offline
  | [], p => p
  | call :: calls, p =>
    match setting.perform call p with
    | (.ok _, p) => run calls p
    | (.error _, p) => p

end Setting

/-- The call has reported the end of the file. `pcap_loop` also returns 0 when its count is
exhausted. -/
def ReadCall.ReportsEof (call : ReadCall) (before : Offline) (ended : Except Halt Int32 × Offline) :
    Prop :=
  match call with
  | .offlineRead _ => ended.1 = .ok 0
  | .loop cnt =>
    ended.1 = .ok 0 ∧
      (cnt ≤ 0 ∨ ended.2.delivered.length < before.delivered.length + cnt.toInt)

section Calls

variable {setting : Setting} {session : Session} {p : Offline}

theorem perform_ends (call : ReadCall) (follows : p.Follows setting session) :
    (setting.perform call p).2.Follows setting session ∧
      (setting.perform call p).1 ≠ .error .bound ∧
      (call.ReportsEof p (setting.perform call p) →
        (setting.perform call p).2.session.file.unread = []) ∧
      (0 < call.cnt →
        (setting.perform call p).2.delivered.length ≤ p.delivered.length + call.cnt.toInt) := by
  cases call with
  | offlineRead cnt =>
    have read := pcapOfflineRead_ends cnt follows
    exact ⟨read.follows, read.ends, read.whole, read.most⟩
  | loop cnt =>
    have loop := pcapLoop_ends cnt follows
    refine ⟨loop.follows, loop.ends, ?_, loop.most⟩
    rintro ⟨zero, fewer⟩
    rcases loop.whole zero with whole | ⟨limited, exhausted⟩
    · exact whole
    · rcases fewer with unlimited | fewer
      · exact absurd limited (Int32.not_lt.mpr unlimited)
      · exact absurd exhausted (ne_of_lt fewer)

theorem run_follows (calls : List ReadCall) (follows : p.Follows setting session) :
    (setting.run calls p).Follows setting session := by
  induction calls generalizing p with
  | nil => exact follows
  | cons call calls ih =>
    have later := (perform_ends call follows).1
    rw [Setting.run]
    generalize setting.perform call p = ended at later ⊢
    obtain ⟨outcome, q⟩ := ended
    cases outcome with
    | ok n => exact ih later
    | error halt => exact later

/-- What has been handed over stays so. -/
theorem delivered_readLoop (cnt n : Int32) (turns : Nat) (p : Offline) :
    p.delivered <+: (setting.readLoop cnt turns n p).2.delivered := by
  induction turns generalizing n p with
  | zero => exact prefix_refl _
  | succ turns ih =>
    rw [Setting.readLoop]
    split
    · split <;> exact prefix_refl _
    have same : p.nextPacket.2.delivered = p.delivered := rfl
    generalize p.nextPacket = moved at same ⊢
    obtain ⟨reply, q⟩ := moved
    change q.delivered = p.delivered at same
    rw [← same]
    rcases reply with (errbuf | how) | _ | packet
    · exact prefix_refl _
    · exact prefix_refl _
    · exact prefix_refl _
    · change _ <+: (match setting.passes (q.reads - 1) packet with
        | none => _ | some false => _ | some true => _ : Except Halt Int32 × Offline).2.delivered
      rcases setting.passes (q.reads - 1) packet with _ | _ | _
      · exact prefix_refl _
      · exact ih n q
      · have handed : q.delivered <+: (setting.callback packet q).delivered :=
          prefix_append _ _
        change _ <+: (if _ then _ else _ : Except Halt Int32 × Offline).2.delivered
        split
        · exact handed
        · exact handed.trans (ih (n + 1) _)

theorem delivered_loopTurns (cnt : Int32) (turns : Nat) (p : Offline) :
    p.delivered <+: (setting.loopTurns turns cnt p).2.delivered := by
  induction turns generalizing cnt p with
  | zero => exact prefix_refl _
  | succ turns ih =>
    have read : p.delivered <+: (setting.pcapOfflineRead cnt p).2.delivered :=
      delivered_readLoop cnt 0 _ p
    rw [Setting.loopTurns]
    generalize setting.pcapOfflineRead cnt p = ended at read ⊢
    obtain ⟨outcome, q⟩ := ended
    cases outcome with
    | error halt => exact read
    | ok n =>
      change _ <+: (if n ≤ 0 then _ else if 0 < cnt then
        if cnt - n ≤ 0 then _ else _ else _ : Except Halt Int32 × Offline).2.delivered
      split
      · exact read
      split
      · split
        · exact read
        · exact read.trans (ih _ q)
      · exact read.trans (ih _ q)

theorem delivered_perform (call : ReadCall) (p : Offline) :
    p.delivered <+: (setting.perform call p).2.delivered := by
  cases call with
  | offlineRead cnt => exact delivered_readLoop cnt 0 _ p
  | loop cnt => exact delivered_loopTurns cnt 2 p

end Calls

/-- **Reading does not depend on how it is divided.** However a program reads a savefile, the
packets that its callback has been handed are a prefix of the filtered packet sequence of the
file, to which each call adds at its end. They are all of it once a call has reported the
end of the file. A call with a positive count adds no more than that many, and a call returns,
unless the next-packet routine does something undefined or a run of the filter does not end. -/
theorem reading_in_pieces (setting : Setting) (session : Session) (calls : List ReadCall)
    (call : ReadCall) :
    let before := setting.run calls (.start session)
    let ended := setting.perform call before
    before.delivered <+: ended.2.delivered ∧
      ended.2.delivered <+: setting.packets session ∧
      (call.ReportsEof before ended → ended.2.delivered = setting.packets session) ∧
      (0 < call.cnt → ended.2.delivered.length ≤ before.delivered.length + call.cnt.toInt) ∧
      ended.1 ≠ .error .bound := by
  intro before ended
  have follows := run_follows calls (Offline.follows_start setting session)
  obtain ⟨follows', ends, whole, most⟩ := perform_ends call follows
  obtain ⟨more, packets⟩ := setting.packets_eq ended.2.reads session
  rw [← follows'.delivered_eq, ← follows'.session_eq] at packets
  refine ⟨delivered_perform call before, ?_, ?_, most, ends⟩
  · rw [packets]
    exact prefix_append _ _
  · intro eof
    rw [packets, setting.sequence_of_unread_nil _ _ (whole eof), append_nil]

/-- A savefile with two records of no bytes, one second apart. -/
def twoRecords : Session :=
  ⟨.pcap (.ofHeader 0xa1b2c3d4 false ⟨2, 4, 0, 0, 96, 1⟩ tstampPrecisionMicro .passThrough),
    ⟨1 :: replicate 15 0 ++ 2 :: replicate 15 0, fun _ => true⟩, ⟨0⟩⟩

/-- A call reads one packet, and the next the other and the end of the file. -/
theorem reading_in_pieces_twoRecords :
    let setting : Setting := ⟨none, 0, fun _ _ => 0, fun _ _ => 0, fun _ => false⟩
    let before := setting.run [.offlineRead 1] (.start twoRecords)
    let ended := setting.perform (.loop 0) before
    before.delivered.length = 1 ∧ ended.1 = .ok 0 ∧ ended.2.delivered.length = 2 ∧
      ended.2.delivered = setting.packets twoRecords := by
  intro setting before ended
  exact ⟨rfl, rfl, rfl,
    (reading_in_pieces setting twoRecords [.offlineRead 1] (.loop 0)).2.2.1 ⟨rfl, .inl (by decide)⟩⟩

end Libpcap.Savefile
