/-
# Tests on the link-layer type

`gen_linktype` generates the test that a packet carries a protocol, given by an
Ethernet type or, up to `ETHERMTU`, by an 802.2 service access point. Each link
type has its own way of naming the protocol of its payload.

The build is the one for Linux on a little-endian machine with IPv6, so `htonl`
swaps bytes.
-/

import Libpcap.Gencode.Tests

namespace Libpcap.Gencode

open Libpcap.Bpf Libpcap.Semantics

/-! ## Protocol numbers -/

def etherMtu : Word := 1500

def ethertypeIp : Word := 0x0800
def ethertypeArp : Word := 0x0806
def ethertypeRevarp : Word := 0x8035
def ethertypeNs : Word := 0x0600
def ethertypeMopdl : Word := 0x6001
def ethertypeMoprc : Word := 0x6002
def ethertypeDn : Word := 0x6003
def ethertypeLat : Word := 0x6004
def ethertypeSca : Word := 0x6007
def ethertypeAtalk : Word := 0x809b
def ethertypeAarp : Word := 0x80f3
def ethertypeIpx : Word := 0x8137
def ethertypeIpv6 : Word := 0x86dd
def ethertypePppoes : Word := 0x8864

def llcsapIp : Word := 0x06
def llcsap8021d : Word := 0x42
def llcsapIpx : Word := 0xe0
def llcsapNetbeui : Word := 0xf0
def llcsapIsons : Word := 0xfe

def pppIp : Word := 0x0021
def pppOsi : Word := 0x0023
def pppNs : Word := 0x0025
def pppDecnet : Word := 0x0027
def pppApple : Word := 0x0029
def pppIpx : Word := 0x002b
def pppVjc : Word := 0x002d
def pppVjnc : Word := 0x002f
def pppBrpdu : Word := 0x0031
def pppIpv6 : Word := 0x0057

def arctypeIpOld : Word := 240
def arctypeArpOld : Word := 241
def arctypeIp : Word := 212
def arctypeArp : Word := 213
def arctypeRevarp : Word := 214
def arctypeAtalk : Word := 221
def arctypeInet6 : Word := 0xc4

def iso8473Clnp : Word := 0x81
def iso9542Esis : Word := 0x82
def iso10589Isis : Word := 0x83

def linuxSllP8023 : Word := 1
def linuxSllP8022 : Word := 4

def iphAfInet : Word := 2
def iphAfInet6 : Word := 26
def afInet : Word := 2
def afInet6 : Word := 10

def ptLlc : Word := 2

/-! ## Link types with 802.2 headers -/

def genSnap (orgcode ptype : Word) : GenM Formula := do
  let b ← genBcmp .macpl 0 [0xaa, 0xaa, 0x03, (orgcode >>> 16).setWidth 8,
    (orgcode >>> 8).setWidth 8, orgcode.setWidth 8, (ptype >>> 8).setWidth 8, ptype.setWidth 8]
  match b with
  | some b => return b
  | none => throw .null

def genLlcLinktype (proto : Word) : GenM Formula :=
  if proto ∈ [llcsapIp, llcsapIsons, llcsapNetbeui] then
    genCmp .macpl 0 .h ((proto <<< 8) ||| proto)
  else if proto = llcsapIpx then genCmp .macpl 0 .b llcsapIpx
  else if proto = ethertypeAtalk then genSnap 0x080007 ethertypeAtalk
  else if proto.toInt ≤ etherMtu.toInt then genCmp .macpl 0 .b proto
  else genCmp .macpl 6 .h proto

/-- The SNAP test for AppleTalk or its address resolution, which
`gen_ether_linktype` and `gen_linux_sll_linktype` share. -/
def genAtalkSnap (proto : Word) : GenM Formula :=
  if proto = ethertypeAtalk then genSnap 0x080007 ethertypeAtalk else genSnap 0 ethertypeAarp

def genEtherLinktype (proto : Word) : GenM Formula := do
  let l ← layout
  if proto ∈ [llcsapIsons, llcsapIp, llcsapNetbeui] then do
    let b0 ← genCmpGt .link l.offLinktype .h etherMtu
    let b1 ← genCmp .macpl 0 .h ((proto <<< 8) ||| proto)
    return .and (.not b0) b1
  else if proto = llcsapIpx then do
    let b0 ← genCmp .macpl 0 .b llcsapIpx
    let b1 ← genCmp .macpl 0 .h 0xffff
    let snap ← genSnap 0 ethertypeIpx
    let ether ← genCmpGt .link l.offLinktype .h etherMtu
    let ipx ← genCmp .link l.offLinktype .h ethertypeIpx
    return .or ipx (.and (.not ether) (.or snap (.or b0 b1)))
  else if proto ∈ [ethertypeAtalk, ethertypeAarp] then do
    let b0 ← genCmpGt .link l.offLinktype .h etherMtu
    let b1 ← genAtalkSnap proto
    let ether ← genCmp .link l.offLinktype .h proto
    return .or ether (.and (.not b0) b1)
  else if proto.toInt ≤ etherMtu.toInt then do
    let b0 ← genCmpGt .link l.offLinktype .h etherMtu
    let b1 ← genCmp .link (l.offLinktype + 2) .b proto
    return .and (.not b0) b1
  else genCmp .link l.offLinktype .h proto

def genLinuxSllLinktype (proto : Word) : GenM Formula := do
  let l ← layout
  if proto ∈ [llcsapIsons, llcsapIp, llcsapNetbeui] then do
    let b0 ← genCmp .link l.offLinktype .h linuxSllP8022
    let b1 ← genCmp .macpl 0 .h ((proto <<< 8) ||| proto)
    return .and b0 b1
  else if proto = llcsapIpx then do
    let b0 ← genCmp .macpl 0 .b llcsapIpx
    let b1 ← genSnap 0 ethertypeIpx
    let llc ← genCmp .link l.offLinktype .h linuxSllP8022
    let raw ← genCmp .link l.offLinktype .h linuxSllP8023
    let ipx ← genCmp .link l.offLinktype .h ethertypeIpx
    return .or ipx (.or raw (.and llc (.or b0 b1)))
  else if proto ∈ [ethertypeAtalk, ethertypeAarp] then do
    let b0 ← genCmp .link l.offLinktype .h linuxSllP8022
    let b1 ← genAtalkSnap proto
    let ether ← genCmp .link l.offLinktype .h proto
    return .or ether (.and b0 b1)
  else if proto.toInt ≤ etherMtu.toInt then do
    let b0 ← genCmp .link l.offLinktype .h linuxSllP8022
    let b1 ← genCmp .link l.offMacpl .b proto
    return .and b0 b1
  else genCmp .link l.offLinktype .h proto

def genCheck80211DataFrame : GenM Formula := do
  let s0 ← genLoadA .link 0 .b
  let s1 ← genLoadA .link 0 .b
  return .and (.not (.leaf ⟨s1, jmp bpfJset, 0x04⟩)) (.leaf ⟨s0, jmp bpfJset, 0x08⟩)

/-! ## Other link types -/

def genIpnetLinktype (proto : Word) : GenM Formula := do
  let l ← layout
  if proto = ethertypeIp then genCmp .link l.offLinktype .b iphAfInet
  else if proto = ethertypeIpv6 then genCmp .link l.offLinktype .b iphAfInet6
  else return genFalse

def ethertypeToPpptype (proto : Word) : Word :=
  if proto = ethertypeIp then pppIp
  else if proto = ethertypeIpv6 then pppIpv6
  else if proto = ethertypeDn then pppDecnet
  else if proto = ethertypeAtalk then pppApple
  else if proto = ethertypeNs then pppNs
  else if proto = llcsapIsons then pppOsi
  else if proto = llcsap8021d then pppBrpdu
  else if proto = llcsapIpx then pppIpx
  else proto

/-- `gen_mpls_linktype`, for IPv4 (`true`) and IPv6. -/
def genMplsLinktype (ipv4 : Bool) : GenM Formula := do
  let b0 ← genMcmp .net (-2) .b 0x01 0x01
  let b1 ← genMcmp .net 0 .b (if ipv4 then 0x40 else 0x60) 0xf0
  return .and b0 b1

/-- `gen_atmfield_code(A_PROTOTYPE, jvalue, jtype, reverse)` -/
def genAtmPrototype (jvalue : Word) (jtype : JmpOp) (reverse : Bool) : GenM Formula := do
  let l ← layout
  if l.offProto = -1 then throw .abort
  else genNcmp .link l.offProto .b 0x0f jtype reverse jvalue

/-- Link types without a type field, whose packets are IPv4 or IPv6. -/
def genRawLinktype (proto : Word) : GenM Formula :=
  if proto = ethertypeIp then genMcmp .link 0 .b 0x40 0xf0
  else if proto = ethertypeIpv6 then genMcmp .link 0 .b 0x60 0xf0
  else return genFalse

/-- `DLT_PPP_BSDOS` -/
def genPppBsdosLinktype (proto : Word) : GenM Formula := do
  let l ← layout
  if proto = ethertypeIp then do
    let b0 ← genCmp .link l.offLinktype .h pppIp
    let b1 ← genCmp .link l.offLinktype .h pppVjc
    let b2 ← genCmp .link l.offLinktype .h pppVjnc
    return .or (.or b0 b1) b2
  else genCmp .link l.offLinktype .h (ethertypeToPpptype proto)

/-- `DLT_NULL`, `DLT_LOOP` and `DLT_ENC`: an address family, in host byte order
but for `DLT_LOOP`. -/
def genNullLinktype (proto : Word) : GenM Formula := do
  let l ← layout
  if proto = ethertypeIp ∨ proto = ethertypeIpv6 then
    let family := if proto = ethertypeIp then afInet else afInet6
    if l.linktype = dltNull ∨ l.linktype = dltEnc then
      genCmp .link 0 .w (swaplong (if l.swapped then swaplong family else family))
    else genCmp .link 0 .w family
  else return genFalse

/-- `DLT_ARCNET` and `DLT_ARCNET_LINUX` -/
def genArcnetLinktype (proto : Word) : GenM Formula := do
  let l ← layout
  if proto = ethertypeIpv6 then genCmp .link l.offLinktype .b arctypeInet6
  else if proto = ethertypeIp then do
    let b0 ← genCmp .link l.offLinktype .b arctypeIp
    let b1 ← genCmp .link l.offLinktype .b arctypeIpOld
    return .or b0 b1
  else if proto = ethertypeArp then do
    let b0 ← genCmp .link l.offLinktype .b arctypeArp
    let b1 ← genCmp .link l.offLinktype .b arctypeArpOld
    return .or b0 b1
  else if proto = ethertypeRevarp then genCmp .link l.offLinktype .b arctypeRevarp
  else if proto = ethertypeAtalk then genCmp .link l.offLinktype .b arctypeAtalk
  else return genFalse

/-- `DLT_FRELAY` -/
def genFrelayLinktype (proto : Word) : GenM Formula :=
  if proto = ethertypeIp then genCmp .link 2 .h 0x03cc
  else if proto = ethertypeIpv6 then genCmp .link 2 .h 0x038e
  else if proto = llcsapIsons then do
    let b0 ← genCmp .link 2 .h ((0x03 <<< 8) ||| iso8473Clnp)
    let b1 ← genCmp .link 2 .h ((0x03 <<< 8) ||| iso9542Esis)
    let b2 ← genCmp .link 2 .h ((0x03 <<< 8) ||| iso10589Isis)
    return .or b0 (.or b1 b2)
  else return genFalse

/-- `DLT_SUNATM` -/
def genSunatmLinktype (proto : Word) : GenM Formula := do
  let l ← layout
  if l.isLane then do
    let b0 ← genCmp .link sunatmPktBeginPos .h 0xff00
    let b1 ← genEtherLinktype proto
    return .and (.not b0) b1
  else do
    let b0 ← genAtmPrototype ptLlc .jeq false
    let b1 ← genLlcLinktype proto
    return .and b0 b1

/-- The link types whose packet types cannot be tested. -/
def notImplemented : List (Nat × String) :=
  [(dltMfr, "Multi-link Frame Relay"),
   (dltLinuxIrda, "IrDA"),
   (dltDocsis, "DOCSIS"),
   (dltMtp2, "MTP2"),
   (dltMtp2WithPhdr, "MTP2"),
   (dltErf, "ERF"),
   (dltPfsync, "PFSYNC"),
   (dltLinuxLapd, "LAPD"),
   (dltUsb, "USB"),
   (dltUsbLinux, "USB"),
   (dltUsbLinuxMmapped, "USB"),
   (dltBluetoothHciH4, "Bluetooth"),
   (dltBluetoothHciH4WithPhdr, "Bluetooth"),
   (dltCan20b, "CAN"),
   (dltCanSocketcan, "CAN"),
   (dltIeee802154, "IEEE 802.15.4"),
   (dltIeee802154Linux, "IEEE 802.15.4"),
   (dltIeee802154NonaskPhy, "IEEE 802.15.4"),
   (dltIeee802154Nofcs, "IEEE 802.15.4"),
   (dltIeee80216MacCpsRadio, "IEEE 802.16"),
   (dltSita, "SITA"),
   (dltRaif1, "RAIF1"),
   (dltIpmb, "IPMB"),
   (dltAx25Kiss, "AX.25")].map fun (linktype, name) =>
    (linktype, name ++ " link-layer type filtering not implemented")

/-- The link types of Juniper routers, which share a magic number. -/
def juniperLinktypes : List Nat :=
  [dltJuniperMfr, dltJuniperMlfr, dltJuniperMlppp, dltJuniperAtm1, dltJuniperAtm2,
   dltJuniperPppoe, dltJuniperPppoeAtm, dltJuniperGgsn, dltJuniperEs, dltJuniperMonitor,
   dltJuniperServices, dltJuniperEther, dltJuniperPpp, dltJuniperFrelay, dltJuniperChdlc,
   dltJuniperVp, dltJuniperSt, dltJuniperIsm, dltJuniperVs, dltJuniperSrxE2e,
   dltJuniperFibrechannel, dltJuniperAtmCemic]

/-- The part of `gen_linktype` behind the checks for encapsulations. -/
def genPlainLinktype (proto : Word) : GenM Formula := do
  let l ← layout
  if l.linktype ∈ [dltEn10mb, dltNetanalyzer, dltNetanalyzerTransparent] then
    genEtherLinktype proto
  else if l.linktype = dltCHdlc then
    genCmp .link l.offLinktype .h
      (if proto = llcsapIsons then (proto <<< 8) ||| llcsapIsons else proto)
  else if is80211 l.linktype then do
    let b0 ← genCheck80211DataFrame
    let b1 ← genLlcLinktype proto
    return .and b0 b1
  else if l.linktype ∈ [dltFddi, dltIeee802, dltAtmRfc1483, dltAtmClip, dltIpOverFc] then
    genLlcLinktype proto
  else if l.linktype = dltSunatm then genSunatmLinktype proto
  else if l.linktype = dltLinuxSll then genLinuxSllLinktype proto
  else if l.linktype ∈ [dltSlip, dltSlipBsdos, dltRaw] then genRawLinktype proto
  else if l.linktype = dltIpv4 then
    return if proto = ethertypeIp then genTrue else genFalse
  else if l.linktype = dltIpv6 then
    return if proto = ethertypeIpv6 then genTrue else genFalse
  else if l.linktype ∈ [dltPpp, dltPppPppd, dltPppSerial, dltPppEther] then
    genCmp .link l.offLinktype .h (ethertypeToPpptype proto)
  else if l.linktype = dltPppBsdos then genPppBsdosLinktype proto
  else if l.linktype ∈ [dltNull, dltLoop, dltEnc] then genNullLinktype proto
  else if l.linktype ∈ [dltArcnet, dltArcnetLinux] then genArcnetLinktype proto
  else if l.linktype = dltLtalk then
    return if proto = ethertypeAtalk then genTrue else genFalse
  else if l.linktype = dltFrelay then genFrelayLinktype proto
  else if l.linktype ∈ juniperLinktypes then genMcmp .link 0 .w 0x4d474300 0xffffff00
  else if l.linktype = dltBacnetMsTp then genMcmp .link 0 .w 0x55ff0000 0xffff0000
  else if l.linktype = dltIpnet then genIpnetLinktype proto
  else
    match notImplemented.lookup l.linktype with
    | some message => bpfError message
    | none =>
      if l.offLinktype = -1 then throw .abort else genCmp .link l.offLinktype .h proto

def genLinktype (proto : Word) : GenM Formula := do
  let l ← layout
  if 0 < l.labelStackDepth then
    if proto = ethertypeIp ∨ proto = pppIp then genMplsLinktype true
    else if proto = ethertypeIpv6 ∨ proto = pppIpv6 then genMplsLinktype false
    else bpfError "unsupported protocol over mpls"
  else if l.isPppoes then genCmp .macpl l.offLinktype .h (ethertypeToPpptype proto)
  else genPlainLinktype proto

/-! ## What the functions above generate -/

theorem tests_genSnap (orgcode ptype : Word) :
    Generates (genSnap orgcode ptype) (LightTests 18) := by
  refine (tests_genBcmpPieces _ _ _ _ none 0 nofun).bind fun b tests => ?_
  cases b with
  | none => exact generates_throw
  | some c => exact generates_pure (tests c rfl)

theorem tests_genCheck80211DataFrame : Generates genCheck80211DataFrame (LightTests 16) := by
  refine (generates_genLoadA _ _ _).bind fun s0 ⟨loads0, short0⟩ => ?_
  refine (generates_genLoadA _ _ _).bind fun s1 ⟨loads1, short1⟩ => ?_
  refine generates_pure ⟨?_, by simp only [weight_and, weight_not, weight_leaf]; omega⟩
  rw [headerTests_and, headerTests_not]
  exact ⟨headerTests_leaf ⟨loads1, .jset, rfl⟩, headerTests_leaf ⟨loads0, .jset, rfl⟩⟩

theorem tests_genMplsLinktype (ipv4 : Bool) : Generates (genMplsLinktype ipv4) (LightTests 18) := by
  refine (tests_genMcmp _ _ _ _ _).bind fun b0 tests0 => ?_
  refine (tests_genMcmp _ _ _ _ _).bind fun b1 tests1 => ?_
  exact generates_pure (tests0.and tests1)

theorem tests_genAtmPrototype (jvalue : Word) (jtype : JmpOp) (reverse : Bool) :
    Generates (genAtmPrototype jvalue jtype reverse) (LightTests 9) := by
  apply generates_layout_bind
  intro l
  apply generates_ite
  · intro _
    exact generates_throw
  · intro _
    exact tests_genNcmp _ _ _ _ _ _ _

section Linktypes

variable (proto : Word)

theorem tests_genLlcLinktype : Generates (genLlcLinktype proto) (LightTests 18) := by
  unfold genLlcLinktype
  repeat' with_reducible first
    | exact (tests_genCmp _ _ _ _).le
    | exact tests_genSnap _ _
    | apply generates_ite <;> intro _

theorem tests_genAtalkSnap : Generates (genAtalkSnap proto) (LightTests 18) :=
  generates_ite (fun _ => tests_genSnap _ _) (fun _ => tests_genSnap _ _)

theorem tests_genEtherLinktype : Generates (genEtherLinktype proto) (LightTests 54) := by
  apply generates_layout_bind
  intro l
  repeat' with_reducible first
    | exact (tests_genCmp _ _ _ _).le
    | apply generates_ite <;> intro _
    | refine (tests_genCmp _ _ _ _).bind (fun _ ⟨_, _⟩ => ?_)
    | refine (tests_genCmpGt _ _ _ _).bind (fun _ ⟨_, _⟩ => ?_)
    | refine (tests_genSnap _ _).bind (fun _ ⟨_, _⟩ => ?_)
    | refine (tests_genAtalkSnap _).bind (fun _ ⟨_, _⟩ => ?_)
    | exact generates_pure ⟨by simp [*], by simp; omega⟩

theorem tests_genLinuxSllLinktype : Generates (genLinuxSllLinktype proto) (LightTests 54) := by
  apply generates_layout_bind
  intro l
  repeat' with_reducible first
    | exact (tests_genCmp _ _ _ _).le
    | apply generates_ite <;> intro _
    | refine (tests_genCmp _ _ _ _).bind (fun _ ⟨_, _⟩ => ?_)
    | refine (tests_genSnap _ _).bind (fun _ ⟨_, _⟩ => ?_)
    | refine (tests_genAtalkSnap _).bind (fun _ ⟨_, _⟩ => ?_)
    | exact generates_pure ⟨by simp [*], by simp; omega⟩

theorem tests_genIpnetLinktype : Generates (genIpnetLinktype proto) (LightTests 9) := by
  apply generates_layout_bind
  intro l
  repeat' with_reducible first
    | exact tests_genCmp _ _ _ _
    | apply generates_ite <;> intro _
    | exact generates_pure (tests_genFalse (by decide))

theorem tests_genRawLinktype : Generates (genRawLinktype proto) (LightTests 9) := by
  unfold genRawLinktype
  repeat' with_reducible first
    | exact tests_genMcmp _ _ _ _ _
    | apply generates_ite <;> intro _
    | exact generates_pure (tests_genFalse (by decide))

/-- At most three comparisons. -/
theorem tests_genPppBsdosLinktype : Generates (genPppBsdosLinktype proto) (LightTests 27) := by
  apply generates_layout_bind
  intro l
  repeat' with_reducible first
    | exact (tests_genCmp _ _ _ _).le
    | apply generates_ite <;> intro _
    | refine (tests_genCmp _ _ _ _).bind (fun _ ⟨_, _⟩ => ?_)
    | exact generates_pure ⟨by simp [*], by simp; omega⟩

theorem tests_genNullLinktype : Generates (genNullLinktype proto) (LightTests 9) := by
  apply generates_layout_bind
  intro l
  repeat' with_reducible first
    | exact tests_genCmp _ _ _ _
    | apply generates_ite <;> intro _
    | exact generates_pure (tests_genFalse (by decide))

theorem tests_genArcnetLinktype : Generates (genArcnetLinktype proto) (LightTests 18) := by
  apply generates_layout_bind
  intro l
  repeat' with_reducible first
    | exact (tests_genCmp _ _ _ _).le
    | apply generates_ite <;> intro _
    | refine (tests_genCmp _ _ _ _).bind (fun _ ⟨_, _⟩ => ?_)
    | exact generates_pure (tests_genFalse (by decide))
    | exact generates_pure ⟨by simp [*], by simp; omega⟩

theorem tests_genFrelayLinktype : Generates (genFrelayLinktype proto) (LightTests 27) := by
  unfold genFrelayLinktype
  repeat' with_reducible first
    | exact (tests_genCmp _ _ _ _).le
    | apply generates_ite <;> intro _
    | refine (tests_genCmp _ _ _ _).bind (fun _ ⟨_, _⟩ => ?_)
    | exact generates_pure (tests_genFalse (by decide))
    | exact generates_pure ⟨by simp [*], by simp; omega⟩

theorem tests_genSunatmLinktype : Generates (genSunatmLinktype proto) (LightTests 63) := by
  apply generates_layout_bind
  intro l
  apply generates_ite
  · intro _
    refine (tests_genCmp _ _ _ _).bind fun b0 tests0 => ?_
    refine (tests_genEtherLinktype proto).bind fun b1 tests1 => ?_
    exact generates_pure (LightTests.and ⟨headerTests_not.mpr tests0.headers, tests0.light⟩ tests1)
  · intro _
    refine (tests_genAtmPrototype _ _ _).bind fun b0 tests0 => ?_
    refine (tests_genLlcLinktype proto).bind fun b1 tests1 => ?_
    exact generates_pure ((tests0.and tests1).le (by decide))

theorem tests_uncondIf (c : Prop) [Decidable c] :
    LightTests 63 (if c then genTrue else genFalse) := by
  split
  · exact ⟨headerTests_genUncond _, by decide⟩
  · exact tests_genFalse (by decide)

theorem tests_genPlainLinktype : Generates (genPlainLinktype proto) (LightTests 63) := by
  apply generates_layout_bind
  intro l
  repeat' with_reducible first
    | exact tests_genSunatmLinktype _
    | exact (tests_genCmp _ _ _ _).le
    | exact (tests_genMcmp _ _ _ _ _).le
    | exact (tests_genEtherLinktype _).le
    | exact (tests_genLlcLinktype _).le
    | exact (tests_genLinuxSllLinktype _).le
    | exact (tests_genRawLinktype _).le
    | exact (tests_genPppBsdosLinktype _).le
    | exact (tests_genNullLinktype _).le
    | exact (tests_genArcnetLinktype _).le
    | exact (tests_genFrelayLinktype _).le
    | exact (tests_genIpnetLinktype _).le
    | exact generates_throw
    | exact generates_bpfError
    | exact generates_pure (tests_uncondIf _)
    | apply generates_ite <;> intro _
    | split
  refine tests_genCheck80211DataFrame.bind fun b0 tests0 => ?_
  refine (tests_genLlcLinktype proto).bind fun b1 tests1 => ?_
  exact generates_pure ((tests0.and tests1).le (by decide))

/-- The test for a link-layer type is made of header tests, and small. -/
theorem tests_genLinktype : Generates (genLinktype proto) (LightTests 63) := by
  apply generates_layout_bind
  intro l
  repeat' with_reducible first
    | exact (tests_genMplsLinktype _).le
    | exact (tests_genCmp _ _ _ _).le
    | exact tests_genPlainLinktype _
    | exact generates_bpfError
    | apply generates_ite <;> intro _

theorem generates_genLinktype : Generates (genLinktype proto) HeaderTests :=
  (tests_genLinktype proto).weaken fun _ => LightTests.headers

end Linktypes

end Libpcap.Gencode
