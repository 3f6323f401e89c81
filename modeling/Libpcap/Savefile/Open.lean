/-
# Opening a savefile and reading from it

`pcap_fopen_offline_with_tstamp_precision` of `savefile.c` reads the first four bytes
of a file and hands them to the routines of the two formats in turn, each of which
accepts the file, fails, or leaves it to the other. The handle then has the
next-packet routine of its format.

What follows a call that fails is up to the caller; `Reader.calls` stops there.
-/

import Libpcap.Savefile.Ng
import Libpcap.Savefile.Pcap

namespace Libpcap.Savefile

open Libpcap.Semantics Libpcap.Gencode

/-- A file that one of the formats has accepted. -/
inductive Opened
  | pcap (sf : PcapSf)
  | ng (sf : NgSf)

/-- The loop over `check_headers[]`. -/
def checkHeaders (magic : BitVec 32) (precision : Nat) : Ng Opened := do
  match ← ExceptT.adapt Stop.error (pcapCheckHeader magic precision) with
  | some sf => pure (.pcap sf)
  | none =>
    match ← pcapNgCheckHeader magic precision with
    | some sf => pure (.ng sf)
    | none => fail "unknown file format"

/-- Read the magic number and try the formats. -/
def openFile (precision : Nat) : Ng Opened := do
  let magic ← fread 4
  if magic.length ≠ 4 then
    fail s!"truncated dump file; tried to read 4 file header bytes, only got {magic.length}"
  else
    checkHeaders (long 0 magic) precision

/-- A handle that is open for reading. -/
inductive Reader
  | pcap (sf : PcapSf)
  | ng (sf : NgSf) (state : NgState)

/-- The members of the handle that both formats use. -/
def Reader.handle : Reader → Pcap
  | .pcap sf => sf.toPcap
  | .ng sf _ => sf.toPcap

/-- `pcap_fopen_offline_with_tstamp_precision` -/
def pcapFopenOffline (precision : Nat) (file : File) : Except Stop Reader × File :=
  match exec (openFile precision) (file, NgState.init) with
  | (.ok (.pcap sf), (file, _)) => (.ok (.pcap sf), file)
  | (.ok (.ng sf), (file, state)) => (.ok (.ng sf state), file)
  | (.error stop, (file, _)) => (.error stop, file)

/-- The state between two calls: the handle, the file and the static buffer. -/
structure Session where
  reader : Reader
  file : File
  salvage : Salvage

/-- The result of a call: a stop, the end of the file, or a packet. -/
abbrev Reply := Except Stop (Option (Pkthdr × List Byte))

/-- `next_packet_op` -/
def Session.next (session : Session) : Reply × Session :=
  match session.reader with
  | .pcap sf =>
    let (reply, file, salvage) := exec (pcapNextPacket sf) (session.file, session.salvage)
    (reply.mapError .error, ⟨.pcap sf, file, salvage⟩)
  | .ng sf state =>
    let (reply, file, state) := exec (pcapNgNextPacket sf) (session.file, state)
    (reply, ⟨.ng sf state, file, session.salvage⟩)

/-- The results of `n` calls, up to the first that fails. -/
def Session.calls : Nat → Session → List Reply
  | 0, _ => []
  | n + 1, session =>
    match session.next with
    | (.ok packet, session) => .ok packet :: calls n session
    | (.error stop, _) => [.error stop]

end Libpcap.Savefile
