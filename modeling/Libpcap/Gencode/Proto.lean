/-
# Tests for protocols

`gen_proto` tests that a packet carries a protocol inside another one, and
`gen_proto_abbrev` gives the test for a protocol's name. `gen_ipfrag` tests that
an IPv4 packet is not a fragment other than the first.
-/

import Libpcap.Gencode.Linklayer

namespace Libpcap.Gencode

open Libpcap.Bpf Libpcap.Semantics

/-! ## Protocols -/

/-- The protocol qualifiers; `dflt` is `Q_DEFAULT`. -/
inductive Proto
  | dflt | link | ip | arp | rarp | sctp | tcp | udp | icmp | igmp | igrp | atalk | decnet
  | lat | sca | moprc | mopdl | ipv6 | icmpv6 | ah | esp | pim | vrrp | aarp | iso | esis
  | isis | clnp | stp | ipx | netbeui | isisL1 | isisL2 | isisIih | isisLanIih | isisPtpIih
  | isisSnp | isisCsnp | isisPsnp | isisLsp | radio | carp
  deriving DecidableEq, Repr

/-- The direction qualifiers. -/
inductive Dir
  | dflt | src | dst | or | and | addr1 | addr2 | addr3 | addr4 | ra | ta
  deriving DecidableEq, Repr

def ipprotoIcmp : Word := 1
def ipprotoIgmp : Word := 2
def ipprotoTcp : Word := 6
def ipprotoIgrp : Word := 9
def ipprotoUdp : Word := 17
def ipprotoFragment : Word := 44
def ipprotoEsp : Word := 50
def ipprotoAh : Word := 51
def ipprotoIcmpv6 : Word := 58
def ipprotoPim : Word := 103
def ipprotoVrrp : Word := 112
def ipprotoCarp : Word := 112
def ipprotoSctp : Word := 132

def isisL1LanIih : Word := 15
def isisL2LanIih : Word := 16
def isisPtpIih : Word := 17
def isisL1Lsp : Word := 18
def isisL2Lsp : Word := 20
def isisL1Csnp : Word := 24
def isisL2Csnp : Word := 25
def isisL1Psnp : Word := 26
def isisL2Psnp : Word := 27

/-! ## A protocol inside another -/

/-- `gen_proto(v, Q_IP, Q_DEFAULT)` -/
def genProtoIp (v : Word) : GenM Formula := do
  let b0 ← genLinktype ethertypeIp
  let b1 ← genCmp .net 9 .b v
  return .and b0 b1

/-- `gen_proto(v, Q_IPV6, Q_DEFAULT)` -/
def genProtoIpv6 (v : Word) : GenM Formula := do
  let b0 ← genLinktype ethertypeIpv6
  let fragment ← genCmp .net 6 .b ipprotoFragment
  let behind ← genCmp .net 40 .b v
  let direct ← genCmp .net 6 .b v
  return .and b0 (.or direct (.and fragment behind))

/-- `gen_proto(v, Q_ISO, Q_DEFAULT)` -/
def genProtoIso (v : Word) : GenM Formula := do
  let l ← layout
  if l.linktype = dltFrelay then genCmp .link 2 .h ((0x03 <<< 8) ||| v)
  else if l.linktype = dltCHdlc then do
    let b0 ← genLinktype ((llcsapIsons <<< 8) ||| llcsapIsons)
    let b1 ← genCmp .netNosnap 1 .b v
    return .and b0 b1
  else do
    let b0 ← genLinktype llcsapIsons
    let b1 ← genCmp .netNosnap 0 .b v
    return .and b0 b1

/-- `gen_proto(v, Q_ISIS, Q_DEFAULT)` -/
def genProtoIsis (v : Word) : GenM Formula := do
  let b0 ← genProtoIso iso10589Isis
  let b1 ← genCmp .netNosnap 4 .b v
  return .and b0 b1

def genProto (v : Word) (proto : Proto) (dir : Dir) : GenM Formula :=
  if dir ≠ .dflt then bpfError "direction applied to 'proto'"
  else
    match proto with
    | .dflt => do
        let b0 ← genProtoIp v
        let b1 ← genProtoIpv6 v
        return .or b0 b1
    | .ip => genProtoIp v
    | .iso => genProtoIso v
    | .isis => genProtoIsis v
    | .arp => bpfError "arp does not encapsulate another protocol"
    | .rarp => bpfError "rarp does not encapsulate another protocol"
    | .atalk => bpfError "atalk encapsulation is not specifiable"
    | .decnet => bpfError "decnet encapsulation is not specifiable"
    | .sca => bpfError "sca does not encapsulate another protocol"
    | .lat => bpfError "lat does not encapsulate another protocol"
    | .moprc => bpfError "moprc does not encapsulate another protocol"
    | .mopdl => bpfError "mopdl does not encapsulate another protocol"
    | .link => genLinktype v
    | .udp => bpfError "'udp proto' is bogus"
    | .tcp => bpfError "'tcp proto' is bogus"
    | .sctp => bpfError "'sctp proto' is bogus"
    | .icmp => bpfError "'icmp proto' is bogus"
    | .igmp => bpfError "'igmp proto' is bogus"
    | .igrp => bpfError "'igrp proto' is bogus"
    | .pim => bpfError "'pim proto' is bogus"
    | .vrrp => bpfError "'vrrp proto' is bogus"
    | .carp => bpfError "'carp proto' is bogus"
    | .ipv6 => genProtoIpv6 v
    | .icmpv6 => bpfError "'icmp6 proto' is bogus"
    | .ah => bpfError "'ah proto' is bogus"
    | .esp => bpfError "'ah proto' is bogus"
    | .stp => bpfError "'stp proto' is bogus"
    | .ipx => bpfError "'ipx proto' is bogus"
    | .netbeui => bpfError "'netbeui proto' is bogus"
    | .radio => bpfError "'radio proto' is bogus"
    | _ => throw .abort

/-! ## The test for a protocol's name -/

/-- A protocol over IPv4 and IPv6. -/
def genProtoBoth (v : Word) : GenM Formula := do
  let b1 ← genProto v .ip .dflt
  let b0 ← genProto v .ipv6 .dflt
  return .or b0 b1

/-- One of several IS-IS packet types: each further one is tested in front of
those before it. -/
def genProtoIsisAny : Formula → List Word → GenM Formula
  | b1, [] => return b1
  | b1, v :: rest => do
      let b0 ← genProto v .isis .dflt
      genProtoIsisAny (.or b0 b1) rest

/-- The IS-IS packet types of an abbreviation; the first two are generated in
this order and tested in it. -/
def genProtoIsisTypes (first second : Word) (rest : List Word) : GenM Formula := do
  let b0 ← genProto first .isis .dflt
  let b1 ← genProto second .isis .dflt
  genProtoIsisAny (.or b0 b1) rest

def genProtoAbbrev : Proto → GenM Formula
  | .sctp => genProtoBoth ipprotoSctp
  | .tcp => genProtoBoth ipprotoTcp
  | .udp => genProtoBoth ipprotoUdp
  | .icmp => genProto ipprotoIcmp .ip .dflt
  | .igmp => genProto ipprotoIgmp .ip .dflt
  | .igrp => genProto ipprotoIgrp .ip .dflt
  | .pim => genProtoBoth ipprotoPim
  | .vrrp => genProto ipprotoVrrp .ip .dflt
  | .carp => genProto ipprotoCarp .ip .dflt
  | .ip => genLinktype ethertypeIp
  | .arp => genLinktype ethertypeArp
  | .rarp => genLinktype ethertypeRevarp
  | .link => bpfError "link layer applied in wrong context"
  | .atalk => genLinktype ethertypeAtalk
  | .aarp => genLinktype ethertypeAarp
  | .decnet => genLinktype ethertypeDn
  | .sca => genLinktype ethertypeSca
  | .lat => genLinktype ethertypeLat
  | .mopdl => genLinktype ethertypeMopdl
  | .moprc => genLinktype ethertypeMoprc
  | .ipv6 => genLinktype ethertypeIpv6
  | .icmpv6 => genProto ipprotoIcmpv6 .ipv6 .dflt
  | .ah => genProtoBoth ipprotoAh
  | .esp => genProtoBoth ipprotoEsp
  | .iso => genLinktype llcsapIsons
  | .esis => genProto iso9542Esis .iso .dflt
  | .isis => genProto iso10589Isis .iso .dflt
  | .isisL1 =>
    genProtoIsisTypes isisL1LanIih isisPtpIih [isisL1Lsp, isisL1Csnp, isisL1Psnp]
  | .isisL2 =>
    genProtoIsisTypes isisL2LanIih isisPtpIih [isisL2Lsp, isisL2Csnp, isisL2Psnp]
  | .isisIih => genProtoIsisTypes isisL1LanIih isisL2LanIih [isisPtpIih]
  | .isisLsp => genProtoIsisTypes isisL1Lsp isisL2Lsp []
  | .isisSnp => genProtoIsisTypes isisL1Csnp isisL2Csnp [isisL1Psnp, isisL2Psnp]
  | .isisCsnp => genProtoIsisTypes isisL1Csnp isisL2Csnp []
  | .isisPsnp => genProtoIsisTypes isisL1Psnp isisL2Psnp []
  | .clnp => genProto iso8473Clnp .iso .dflt
  | .stp => genLinktype llcsap8021d
  | .ipx => genLinktype llcsapIpx
  | .netbeui => genLinktype llcsapNetbeui
  | .radio => bpfError "'radio' is not a valid protocol type"
  | .dflt => throw .abort
  | .isisLanIih => throw .abort
  | .isisPtpIih => throw .abort

def genIpfrag : GenM Formula := do
  let s ← genLoadA .net 6 .h
  return .not (.leaf ⟨s, jmp bpfJset, 0x1fff⟩)

/-! ## What the functions above generate -/

theorem generates_genProtoIp (v : Word) : Generates (genProtoIp v) HeaderTests := by
  refine (generates_genLinktype _).bind fun b0 tests0 => ?_
  refine (generates_genCmp _ _ _ _).bind fun b1 tests1 => ?_
  exact generates_pure (headerTests_and.mpr ⟨tests0, tests1⟩)

theorem generates_genProtoIpv6 (v : Word) : Generates (genProtoIpv6 v) HeaderTests := by
  refine (generates_genLinktype _).bind fun b0 tests0 => ?_
  refine (generates_genCmp _ _ _ _).bind fun fragment testsFragment => ?_
  refine (generates_genCmp _ _ _ _).bind fun behind testsBehind => ?_
  refine (generates_genCmp _ _ _ _).bind fun direct testsDirect => ?_
  refine generates_pure ?_
  simp only [headerTests_and, headerTests_or]
  exact ⟨tests0, testsDirect, testsFragment, testsBehind⟩

theorem generates_genProtoIso (v : Word) : Generates (genProtoIso v) HeaderTests := by
  apply generates_layout_bind
  intro l
  repeat' with_reducible first
    | exact generates_genCmp _ _ _ _
    | apply generates_ite <;> intro _
    | refine (generates_genLinktype _).bind (fun _ _ => ?_)
    | refine (generates_genCmp _ _ _ _).bind (fun _ _ => ?_)
    | exact generates_pure (by rw [headerTests_and]; tauto)

theorem generates_genProtoIsis (v : Word) : Generates (genProtoIsis v) HeaderTests := by
  refine (generates_genProtoIso _).bind fun b0 tests0 => ?_
  refine (generates_genCmp _ _ _ _).bind fun b1 tests1 => ?_
  exact generates_pure (headerTests_and.mpr ⟨tests0, tests1⟩)

theorem generates_genProto (v : Word) (proto : Proto) (dir : Dir) :
    Generates (genProto v proto dir) HeaderTests := by
  apply generates_ite
  · intro _
    exact generates_bpfError
  · intro _
    cases proto with
    | dflt =>
      refine (generates_genProtoIp v).bind fun b0 tests0 => ?_
      refine (generates_genProtoIpv6 v).bind fun b1 tests1 => ?_
      exact generates_pure (headerTests_or.mpr ⟨tests0, tests1⟩)
    | ip => exact generates_genProtoIp v
    | ipv6 => exact generates_genProtoIpv6 v
    | iso => exact generates_genProtoIso v
    | isis => exact generates_genProtoIsis v
    | link => exact generates_genLinktype v
    | _ => first | exact generates_bpfError | exact generates_throw

theorem generates_genProtoBoth (v : Word) : Generates (genProtoBoth v) HeaderTests := by
  refine (generates_genProto _ _ _).bind fun b1 tests1 => ?_
  refine (generates_genProto _ _ _).bind fun b0 tests0 => ?_
  exact generates_pure (headerTests_or.mpr ⟨tests0, tests1⟩)

theorem generates_genProtoIsisAny (types : List Word) {b1 : Formula} (tests1 : HeaderTests b1) :
    Generates (genProtoIsisAny b1 types) HeaderTests := by
  induction types generalizing b1 with
  | nil => exact generates_pure tests1
  | cons v rest ih =>
    refine (generates_genProto _ _ _).bind fun b0 tests0 => ?_
    exact ih (headerTests_or.mpr ⟨tests0, tests1⟩)

theorem generates_genProtoIsisTypes (first second : Word) (rest : List Word) :
    Generates (genProtoIsisTypes first second rest) HeaderTests := by
  refine (generates_genProto _ _ _).bind fun b0 tests0 => ?_
  refine (generates_genProto _ _ _).bind fun b1 tests1 => ?_
  exact generates_genProtoIsisAny rest (headerTests_or.mpr ⟨tests0, tests1⟩)

/-- The test for a protocol is made of header tests. -/
theorem generates_genProtoAbbrev (proto : Proto) :
    Generates (genProtoAbbrev proto) HeaderTests := by
  cases proto <;> rw [genProtoAbbrev] <;> with_reducible first
    | exact generates_genLinktype _
    | exact generates_genProto _ _ _
    | exact generates_genProtoBoth _
    | exact generates_genProtoIsisTypes _ _ _
    | exact generates_bpfError
    | exact generates_throw

theorem generates_genIpfrag : Generates genIpfrag HeaderTests := by
  refine (generates_genLoadA _ _ _).bind fun s ⟨loads, _⟩ => ?_
  exact generates_pure (headerTests_leaf ⟨loads, .jset, rfl⟩)

end Libpcap.Gencode
