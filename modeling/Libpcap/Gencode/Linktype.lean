/-
# Link types and the layout of their headers

`init_linktype` sets the offsets of the headers from the link type of the
capture. Offsets are unsigned; `-1` marks one that does not exist. The link types
are those of `pcap/bpf.h` on Linux, where `DLT_PFLOG` has no header offsets and
`DLT_PFSYNC` is 246.
-/

import Libpcap.Bpf.Insn

namespace Libpcap.Gencode

open Libpcap.Bpf

variable {swapped : Bool} {l : Layout} {linktype : Nat} {fddipad : Word}

/-! ## Link types -/

def dltNull : Nat := 0
def dltEn10mb : Nat := 1
def dltIeee802 : Nat := 6
def dltArcnet : Nat := 7
def dltSlip : Nat := 8
def dltPpp : Nat := 9
def dltFddi : Nat := 10
def dltAtmRfc1483 : Nat := 11
def dltRaw : Nat := 12
def dltSlipBsdos : Nat := 15
def dltPppBsdos : Nat := 16
def dltAtmClip : Nat := 19
def dltPppSerial : Nat := 50
def dltPppEther : Nat := 51
def dltSymantecFirewall : Nat := 99
def dltMatchingMin : Nat := 104
def dltCHdlc : Nat := 104
def dltIeee80211 : Nat := 105
def dltFrelay : Nat := 107
def dltLoop : Nat := 108
def dltEnc : Nat := 109
def dltLinuxSll : Nat := 113
def dltLtalk : Nat := 114
def dltPrismHeader : Nat := 119
def dltIpOverFc : Nat := 122
def dltSunatm : Nat := 123
def dltIeee80211Radio : Nat := 127
def dltArcnetLinux : Nat := 129
def dltJuniperMlppp : Nat := 130
def dltJuniperMlfr : Nat := 131
def dltJuniperEs : Nat := 132
def dltJuniperGgsn : Nat := 133
def dltJuniperMfr : Nat := 134
def dltJuniperAtm2 : Nat := 135
def dltJuniperServices : Nat := 136
def dltJuniperAtm1 : Nat := 137
def dltAppleIpOverIeee1394 : Nat := 138
def dltMtp2WithPhdr : Nat := 139
def dltMtp2 : Nat := 140
def dltDocsis : Nat := 143
def dltLinuxIrda : Nat := 144
def dltIeee80211RadioAvs : Nat := 163
def dltJuniperMonitor : Nat := 164
def dltBacnetMsTp : Nat := 165
def dltPppPppd : Nat := 166
def dltJuniperPppoe : Nat := 167
def dltJuniperPppoeAtm : Nat := 168
def dltLinuxLapd : Nat := 177
def dltJuniperEther : Nat := 178
def dltJuniperPpp : Nat := 179
def dltJuniperFrelay : Nat := 180
def dltJuniperChdlc : Nat := 181
def dltMfr : Nat := 182
def dltJuniperVp : Nat := 183
def dltUsb : Nat := 186
def dltBluetoothHciH4 : Nat := 187
def dltUsbLinux : Nat := 189
def dltCan20b : Nat := 190
def dltIeee802154Linux : Nat := 191
def dltPpi : Nat := 192
def dltIeee80216MacCpsRadio : Nat := 193
def dltJuniperIsm : Nat := 194
def dltIeee802154 : Nat := 195
def dltSita : Nat := 196
def dltErf : Nat := 197
def dltRaif1 : Nat := 198
def dltIpmb : Nat := 199
def dltJuniperSt : Nat := 200
def dltBluetoothHciH4WithPhdr : Nat := 201
def dltAx25Kiss : Nat := 202
def dltIeee802154NonaskPhy : Nat := 215
def dltUsbLinuxMmapped : Nat := 220
def dltIpnet : Nat := 226
def dltCanSocketcan : Nat := 227
def dltIpv4 : Nat := 228
def dltIpv6 : Nat := 229
def dltIeee802154Nofcs : Nat := 230
def dltJuniperVs : Nat := 232
def dltJuniperSrxE2e : Nat := 233
def dltJuniperFibrechannel : Nat := 234
def dltJuniperAtmCemic : Nat := 238
def dltNetanalyzer : Nat := 240
def dltNetanalyzerTransparent : Nat := 241
def dltPfsync : Nat := 246
def dltMatchingMax : Nat := 252

def sunatmPktBeginPos : Word := 4

/-! ## The layout -/

/-- The variables that say how the headers of the link type are laid out.
`linktype` and the offsets are set by `init_linktype`; `is_pppoes`, `is_lane` and
the depth of the label stack by the primitives that open an encapsulation.
`swapped` says that the packets come from a savefile in the other byte order. -/
structure Layout where
  linktype : Nat
  offLl : Word
  offMacpl : Word
  offMacplIsVariable : Bool
  offLinktype : Word
  offNl : Word
  offNlNosnap : Word
  offProto : Word
  isLane : Bool
  isPppoes : Bool
  labelStackDepth : Nat
  swapped : Bool
  deriving DecidableEq, Repr

/-- The link types with an 802.11 header. -/
def is80211 (linktype : Nat) : Bool :=
  linktype == dltIeee80211 || linktype == dltPrismHeader || linktype == dltIeee80211RadioAvs ||
    linktype == dltIeee80211Radio || linktype == dltPpi

/-- The link types whose 802.11 header follows a header of variable length. -/
def hasRadioHeader (linktype : Nat) : Bool :=
  linktype == dltPrismHeader || linktype == dltIeee80211RadioAvs ||
    linktype == dltIeee80211Radio || linktype == dltPpi

/-- `off_linktype`, `off_macpl`, `off_nl` and `off_nl_nosnap` of a link type, given
the padding of FDDI headers. -/
def linktypeOffsets (linktype : Nat) (fddipad : Word) : Option (Word × Word × Word × Word) :=
  if linktype = dltArcnet then some (2, 6, 0, 0)
  else if linktype = dltArcnetLinux then some (4, 8, 0, 0)
  else if linktype = dltEn10mb then some (12, 14, 0, 3)
  else if linktype = dltSlip then some (-1, 16, 0, 0)
  else if linktype = dltSlipBsdos then some (-1, 24, 0, 0)
  else if linktype ∈ [dltNull, dltLoop] then some (0, 4, 0, 0)
  else if linktype = dltEnc then some (0, 12, 0, 0)
  else if linktype ∈ [dltPpp, dltPppPppd, dltCHdlc, dltPppSerial] then some (2, 4, 0, 0)
  else if linktype = dltPppEther then some (6, 8, 0, 0)
  else if linktype = dltPppBsdos then some (5, 24, 0, 0)
  else if linktype = dltFddi then some (13 + fddipad, 13 + fddipad, 8, 3)
  else if linktype = dltIeee802 then some (14, 14, 8, 3)
  else if is80211 linktype then some (24, 0, 8, 3)
  else if linktype ∈ [dltAtmRfc1483, dltAtmClip] then some (0, 0, 8, 3)
  else if linktype = dltSunatm then some (sunatmPktBeginPos, sunatmPktBeginPos, 8, 3)
  else if linktype ∈ [dltRaw, dltIpv4, dltIpv6] then some (-1, 0, 0, 0)
  else if linktype = dltLinuxSll then some (14, 16, 0, 0)
  else if linktype = dltLtalk then some (-1, 0, 0, 0)
  else if linktype = dltIpOverFc then some (16, 16, 8, 3)
  else if linktype = dltFrelay then some (-1, 0, 0, 0)
  else if linktype = dltMfr then some (-1, 0, 4, 0)
  else if linktype = dltAppleIpOverIeee1394 then some (16, 18, 0, 0)
  else if linktype = dltSymantecFirewall then some (6, 44, 0, 0)
  else if linktype ∈ [dltJuniperMfr, dltJuniperMlfr, dltJuniperMlppp, dltJuniperPpp,
      dltJuniperChdlc, dltJuniperFrelay] then some (4, 4, 0, -1)
  else if linktype = dltJuniperAtm1 then some (4, 4, 0, 10)
  else if linktype = dltJuniperAtm2 then some (8, 8, 0, 10)
  else if linktype ∈ [dltJuniperPppoe, dltJuniperEther] then some (16, 14, 18, 21)
  else if linktype = dltJuniperPppoeAtm then some (4, 6, 0, -1)
  else if linktype = dltJuniperGgsn then some (6, 12, 0, -1)
  else if linktype = dltJuniperEs then some (6, -1, -1, -1)
  else if linktype = dltJuniperMonitor then some (12, 12, 0, -1)
  else if linktype = dltBacnetMsTp then some (-1, -1, -1, -1)
  else if linktype = dltJuniperServices then some (12, -1, -1, -1)
  else if linktype = dltJuniperVp then some (18, -1, -1, -1)
  else if linktype = dltJuniperSt then some (18, -1, -1, -1)
  else if linktype ∈ [dltJuniperIsm, dltJuniperVs, dltJuniperSrxE2e, dltJuniperFibrechannel,
      dltJuniperAtmCemic] then some (8, -1, -1, -1)
  else if linktype ∈ [dltMtp2, dltMtp2WithPhdr, dltErf] then some (-1, -1, -1, -1)
  else if linktype = dltPfsync then some (-1, 4, 0, 0)
  else if linktype = dltAx25Kiss then some (-1, -1, -1, -1)
  else if linktype = dltIpnet then some (1, 24, 0, -1)
  else if linktype = dltNetanalyzer then some (16, 18, 0, 3)
  else if linktype = dltNetanalyzerTransparent then some (24, 26, 0, 3)
  else if dltMatchingMin ≤ linktype ∧ linktype ≤ dltMatchingMax then some (-1, -1, -1, -1)
  else none

/-- `init_linktype`, as far as it sets the variables that are modelled. -/
def initLinktype (linktype : Nat) (fddipad : Word) (swapped : Bool) : Except String Layout :=
  match linktypeOffsets linktype fddipad with
  | some (offLinktype, offMacpl, offNl, offNlNosnap) =>
    .ok {
      linktype, offLinktype, offMacpl, offNl, offNlNosnap, swapped
      offLl := 0
      offMacplIsVariable := is80211 linktype
      offProto := if linktype = dltSunatm then 0 else -1
      isLane := false
      isPppoes := false
      labelStackDepth := 0 }
  | none => .error s!"unknown data link type {linktype}"

def Layout.ethernet : Layout where
  linktype := dltEn10mb
  offLl := 0
  offMacpl := 14
  offMacplIsVariable := false
  offLinktype := 12
  offNl := 0
  offNlNosnap := 3
  offProto := -1
  isLane := false
  isPppoes := false
  labelStackDepth := 0
  swapped := false

/-- The layout of DLT_PPI. -/
def Layout.ppi : Layout where
  linktype := dltPpi
  offLl := 0
  offMacpl := 0
  offMacplIsVariable := true
  offLinktype := 24
  offNl := 8
  offNlNosnap := 3
  offProto := -1
  isLane := false
  isPppoes := false
  labelStackDepth := 0
  swapped := false

/-- The layout of DLT_IEEE802_11_RADIO. -/
def Layout.radiotap : Layout := { Layout.ppi with linktype := dltIeee80211Radio }

example : initLinktype dltEn10mb 0 false = .ok .ethernet := by rfl

example : initLinktype dltPpi 0 false = .ok .ppi := by rfl

example : initLinktype dltIeee80211Radio 0 false = .ok .radiotap := by rfl

/-! ## Fixed header offsets -/

/-- No header in front of the network-layer header has a variable length. -/
structure Layout.Fixed (l : Layout) : Prop where
  noRadioHeader : hasRadioHeader l.linktype = false
  macpl : l.offMacplIsVariable = false

variable (initialised : initLinktype linktype fddipad swapped = .ok l)
include initialised

/-- The link types with variable offsets are those with an 802.11 header. -/
theorem initLinktype_fixed_iff : l.Fixed ↔ is80211 linktype = false := by
  unfold initLinktype at initialised
  split at initialised
  · cases initialised
    constructor
    · intro fixed
      exact fixed.macpl
    · intro plain
      refine ⟨?_, plain⟩
      simp only [is80211, Bool.or_eq_false_iff] at plain
      simp [hasRadioHeader, plain]
  · cases initialised

theorem initLinktype_linktype : l.linktype = linktype := by
  unfold initLinktype at initialised
  split at initialised <;> cases initialised
  rfl

/-- No encapsulation has been entered. -/
theorem initLinktype_outermost : l.isPppoes = false ∧ l.labelStackDepth = 0 := by
  unfold initLinktype at initialised
  split at initialised <;> cases initialised
  exact ⟨rfl, rfl⟩

theorem fixed_of_initLinktype (plain : is80211 l.linktype = false) : l.Fixed := by
  rw [initLinktype_linktype initialised] at plain
  exact (initLinktype_fixed_iff initialised).mpr plain

end Libpcap.Gencode
