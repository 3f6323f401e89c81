/-
# Reading packets from a netlink socket

A datagram of the netfilter log or queue holds several messages, each with a header that
gives its length. A message of a packet holds attributes, one of them with the bytes of
the packet. The library walks through all messages of a datagram, hands the packets that
the filter accepts to the program, and sends a verdict for each packet of a queue.
-/

import Libpcap.Linux.Frame
import Libpcap.Semantics.Bytes

namespace Libpcap.Linux

open Libpcap.Semantics

/-! ## Messages -/

/-- `NLMSG_ALIGN` and `NFA_ALIGN` -/
def nlmsgAlign (n : Nat) : Nat := (n + 3) / 4 * 4

/-- The length of `struct nlmsghdr`, and `NLMSG_SPACE(0)`. -/
def nlmsgHdrlen : Nat := 16

/-- `HDR_LENGTH`, the length with a `struct nfgenmsg` behind the header. -/
def hdrLength : Nat := 20

/-- `nlh->nlmsg_len` -/
def nlmsgLen (buf : List Byte) : Nat := (word 32 4 0 buf).toNat

/-- `nlh->nlmsg_type` -/
def nlmsgType (buf : List Byte) : BitVec 16 := word 16 2 4 buf

/-- The kinds of messages that hold a packet. -/
inductive NfType
  | nflog
  | nfqueue
  deriving DecidableEq, Repr

/-- The subsystem and the type of a message of a packet; other messages are skipped. -/
def nfType (type : BitVec 16) : Option NfType :=
  if type >>> 8 = 4 ∧ type &&& 0xff = 0 then some .nflog
  else if type >>> 8 = 3 ∧ type &&& 0xff = 0 then some .nfqueue
  else none

/-! ## Attributes -/

def nfaLen (attr : List Byte) : Nat := (word 16 2 0 attr).toNat

def nfaType (attr : List Byte) : BitVec 16 := word 16 2 2 attr &&& 0x7fff

/-- `NFA_DATA`, of the length `NFA_PAYLOAD`. -/
def nfaData (attr : List Byte) : List Byte := (attr.take (nfaLen attr)).drop 4

def nfaOk (attr : List Byte) : Bool :=
  0 < attr.length ∧ 4 ≤ nfaLen attr ∧ nfaLen attr ≤ attr.length

/-- The attributes of a message, each with all bytes from its start on. -/
def attrs (attr : List Byte) : List (List Byte) :=
  if nfaOk attr then attr :: attrs (attr.drop (nlmsgAlign (nfaLen attr))) else []
termination_by attr.length
decreasing_by
  rename_i ok
  simp only [nfaOk, decide_eq_true_eq] at ok
  simp only [List.length_drop, nlmsgAlign]
  omega

/-- `NFQA_PAYLOAD` and `NFULA_PAYLOAD` -/
def NfType.payload : NfType → BitVec 16
  | .nflog => 9
  | .nfqueue => 10

def dltNflog : Nat := 239

/-- What is read from a message: the packet, and for the verdict the group, which is not set for
`DLT_NFLOG`, and the id. -/
structure NfPacket where
  payload : Option (List Byte)
  group : Option (BitVec 16)
  id : BitVec 32
  deriving Repr

/-- The number of a big-endian field. -/
def beWord (w n offset : Nat) (record : List Byte) : BitVec w :=
  BitVec.ofNat w (leNat (field offset n record).reverse)

/-- The packet of a message. The last attribute of a kind counts. -/
def nfPacket (linktype : Nat) (type : NfType) (message : List Byte) : Except String NfPacket :=
  if linktype = dltNflog then .ok ⟨some (message.drop nlmsgHdrlen), none, 0⟩
  else if message.length < hdrLength then
    let nlmsgLen := message.length
    .error s!"Malformed message: (nlmsg_len: {nlmsgLen})"
  else
    let attributes := attrs (message.drop hdrLength)
    let payload := (attributes.filter fun attr => nfaType attr = type.payload).getLast?
    let header := (attributes.filter fun attr => type = .nfqueue ∧ nfaType attr = 1).getLast?
    .ok ⟨payload.map nfaData, some (beWord 16 2 18 message),
      (header.map (beWord 32 4 4)).getD 0⟩

/-! ## The loop -/

/-- What `netfilter_read_linux` looks at. -/
structure NfHandle where
  linktype : Nat
  fcode : Option Filter

/-- The result of a call, with the packets for the callback and the verdicts, each a group and an
id. -/
structure NfRead where
  ret : Int
  errbuf : Option String
  callbacks : List (List Byte)
  verdicts : List (Option (BitVec 16) × BitVec 32)

/-- Whether a packet passes the filter. -/
def NfHandle.passes (h : NfHandle) (payload : List Byte) : Bool :=
  h.fcode.all fun filter => filter ⟨payload, payload.length⟩ ≠ 0

/-- The call returns an error. -/
def NfRead.fail (message : String) : NfRead := ⟨-1, some message, [], []⟩

/-- A packet is handled before the rest. -/
def NfRead.after (h : NfHandle) (type : NfType) (packet : NfPacket) (rest : NfRead) : NfRead :=
  let called := packet.payload.toList.filter h.passes
  { ret := if rest.ret < 0 then rest.ret else called.length + rest.ret
    errbuf := rest.errbuf
    callbacks := called ++ rest.callbacks
    verdicts := (if type = .nfqueue then [(packet.group, packet.id)] else []) ++ rest.verdicts }

/-- A message is handled before the rest, which is not looked at if the message is malformed. -/
def handleMessage (h : NfHandle) (message : List Byte) (rest : NfRead) : NfRead :=
  match nfType (nlmsgType message) with
  | none => rest
  | some type =>
    match nfPacket h.linktype type message with
    | .error text => .fail text
    | .ok packet => rest.after h type packet

/-- The bytes behind the first message. -/
def nextMessage (buf : List Byte) : List Byte :=
  buf.drop (min (nlmsgAlign (nlmsgLen buf)) buf.length)

theorem length_nextMessage_lt {buf : List Byte} (long : nlmsgHdrlen ≤ buf.length)
    (header : nlmsgHdrlen ≤ nlmsgLen buf) : (nextMessage buf).length < buf.length := by
  simp only [nextMessage, List.length_drop, nlmsgAlign, nlmsgHdrlen] at *
  omega

/-- The error for a message that is longer than what was received. -/
def messageTruncated (got len : Nat) : String :=
  s!"Message truncated: (got: {got}) (nlmsg_len: {len})"

/-- The loop of `netfilter_read_linux` over the messages of a datagram. -/
def netfilterLoop (h : NfHandle) (buf : List Byte) : NfRead :=
  if buf.length < nlmsgHdrlen then ⟨0, none, [], []⟩
  else if nlmsgLen buf < nlmsgHdrlen ∨ buf.length < nlmsgLen buf then
    .fail (messageTruncated buf.length (nlmsgLen buf))
  else
    handleMessage h (buf.take (nlmsgLen buf)) (netfilterLoop h (nextMessage buf))
termination_by buf.length
decreasing_by
  rename_i short header
  exact length_nextMessage_lt (not_lt.mp short) (not_lt.mp (not_or.mp header).1)

/-- What `recv` returns. -/
inductive Recv
  | datagram (bytes : List Byte)
  | interrupted
  | failed (errno : Int) (text : String)

/-- `netfilter_read_linux`, for the results of `recv`, each with `break_loop` after it. The call
waits as long as there is none. -/
def netfilterRead (h : NfHandle) (_maxPackets : Int) : List (Recv × Bool) → Option NfRead
  | [] => none
  | (_, true) :: _ => some ⟨-2, none, [], []⟩
  | (.interrupted, false) :: rest => netfilterRead h _maxPackets rest
  | (.failed errno text, false) :: _ => some (.fail s!"Can't receive packet {errno}:{text}")
  | (.datagram buf, false) :: _ => some (netfilterLoop h buf)

/-! ## What a datagram holds -/

/-- The datagram that a call gets; nothing if it fails or is asked to break. -/
def received : List (Recv × Bool) → List Byte
  | [] => []
  | (_, true) :: _ => []
  | (.interrupted, false) :: rest => received rest
  | (.failed _ _, false) :: _ => []
  | (.datagram buf, false) :: _ => buf

/-- The messages of a datagram, up to one that is truncated. -/
def messages (buf : List Byte) : List (List Byte) :=
  if buf.length < nlmsgHdrlen then []
  else if nlmsgLen buf < nlmsgHdrlen ∨ buf.length < nlmsgLen buf then []
  else buf.take (nlmsgLen buf) :: messages (nextMessage buf)
termination_by buf.length
decreasing_by
  rename_i short header
  exact length_nextMessage_lt (not_lt.mp short) (not_lt.mp (not_or.mp header).1)

/-- The packets of messages, up to one that is malformed. -/
def payloads (linktype : Nat) : List (List Byte) → List (List Byte)
  | [] => []
  | message :: rest =>
    match nfType (nlmsgType message) with
    | none => payloads linktype rest
    | some type =>
      match nfPacket linktype type message with
      | .error _ => []
      | .ok packet => packet.payload.toList ++ payloads linktype rest

/-- The callback gets the packets of the datagram that pass the filter. -/
theorem netfilterLoop_callbacks (h : NfHandle) (buf : List Byte) :
    (netfilterLoop h buf).callbacks = (payloads h.linktype (messages buf)).filter h.passes := by
  fun_induction netfilterLoop h buf with
  | case1 buf short =>
    rw [messages, if_pos short]
    rfl
  | case2 buf short header =>
    rw [messages, if_neg short, if_pos header]
    rfl
  | case3 buf short header ih =>
    rw [messages, if_neg short, if_neg header]
    simp only [handleMessage, payloads]
    cases nfType (nlmsgType (buf.take (nlmsgLen buf))) with
    | none => exact ih
    | some type =>
      dsimp only
      cases nfPacket h.linktype type (buf.take (nlmsgLen buf)) with
      | error text => rfl
      | ok packet => simp only [NfRead.after, List.filter_append, ih]

theorem netfilterRead_callbacks {h : NfHandle} {max : Int} {recvs : List (Recv × Bool)}
    {result : NfRead} (returned : netfilterRead h max recvs = some result) :
    result.callbacks = (payloads h.linktype (messages (received recvs))).filter h.passes := by
  have nothing : ([] : List (List Byte)) = (payloads h.linktype (messages [])).filter h.passes := by
    rw [messages]
    rfl
  fun_induction netfilterRead h max recvs with
  | case1 => cases returned
  | case2 =>
    cases returned
    exact nothing
  | case3 rest ih => exact ih returned
  | case4 =>
    cases returned
    exact nothing
  | case5 buf rest =>
    cases returned
    exact netfilterLoop_callbacks h buf

end Libpcap.Linux
