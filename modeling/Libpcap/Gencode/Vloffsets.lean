/-
# Variable-length link-layer headers

For the 802.11 link types the offsets of the link-layer header and of its payload
differ from packet to packet. Tests that need them refer to a scratch register
(`gen_llprefixlen`, `gen_off_macpl`), and the statements that compute the
registers are put in front of the root block once the whole expression has been
parsed (`insert_compute_vloffsets`).
-/

import Libpcap.Gencode.State

namespace Libpcap.Gencode

open Libpcap.Bpf

/-! ## Code that uses the registers -/

/-- The body shared by `gen_prism_llprefixlen`, `gen_avs_llprefixlen`,
`gen_radiotap_llprefixlen` and `gen_ppi_llprefixlen`, which differ in comments
only. -/
def genRadioLlprefixlen : GenM (List Stmt) := do
  let g ← get
  match g.regOffLl with
  | some r => return [newStmt (bpfLdx ||| bpfMem) r.word]
  | none =>
    let r ← allocReg
    modify fun g => { g with regOffLl := some r }
    return [newStmt (bpfLdx ||| bpfMem) r.word]

/-- `gen_llprefixlen`: no statements when the prefix length is fixed. -/
def genLlprefixlen : GenM (List Stmt) := do
  let g ← get
  if g.layout.linktype = dltPrismHeader then genRadioLlprefixlen
  else if g.layout.linktype = dltIeee80211RadioAvs then genRadioLlprefixlen
  else if g.layout.linktype = dltIeee80211Radio then genRadioLlprefixlen
  else if g.layout.linktype = dltPpi then genRadioLlprefixlen
  else return []

/-- `gen_off_macpl`: no statements when the payload offset is fixed. -/
def genOffMacpl : GenM (List Stmt) := do
  let g ← get
  if g.layout.offMacplIsVariable then
    match g.regOffMacpl with
    | some r => return [newStmt (bpfLdx ||| bpfMem) r.word]
    | none =>
      let r ← allocReg
      modify fun g => { g with regOffMacpl := some r }
      return [newStmt (bpfLdx ||| bpfMem) r.word]
  else return []

/-! ## Code that computes the registers -/

/-- `gen_load_prism_llprefixlen`, given the register. The test jumps to the next
statement for an AVS header and over two statements otherwise; the jump target
the source also stores in the unconditional jump is never read. -/
def genLoadPrismLlprefixlen (r : Reg) : List Stmt :=
  [newStmt (bpfLd ||| bpfW ||| bpfAbs) 0,
   newStmt (bpfAlu ||| bpfAnd ||| bpfK) 0xFFFFF000,
   { code := jmp bpfJeq, jt := some 0, jf := some 2, k := 0x80211000 },
   newStmt (bpfLd ||| bpfW ||| bpfAbs) 4,
   newStmt (jmp bpfJa) 1,
   newStmt (bpfLd ||| bpfW ||| bpfImm) 144,
   newStmt bpfSt r.word,
   newStmt (bpfMisc ||| bpfTax) 0]

/-- `gen_load_avs_llprefixlen`, given the register. -/
def genLoadAvsLlprefixlen (r : Reg) : List Stmt :=
  [newStmt (bpfLd ||| bpfW ||| bpfAbs) 4,
   newStmt bpfSt r.word,
   newStmt (bpfMisc ||| bpfTax) 0]

/-- `gen_load_radiotap_llprefixlen` and `gen_load_ppi_llprefixlen`, given the
register. -/
def genLoadRadiotapLlprefixlen (r : Reg) : List Stmt :=
  [newStmt (bpfLd ||| bpfB ||| bpfAbs) 3,
   newStmt (bpfAlu ||| bpfLsh ||| bpfK) 8,
   newStmt (bpfMisc ||| bpfTax) 0,
   newStmt (bpfLd ||| bpfB ||| bpfAbs) 2,
   newStmt (bpfAlu ||| bpfOr ||| bpfX) 0,
   newStmt bpfSt r.word,
   newStmt (bpfMisc ||| bpfTax) 0]

/-- The statements for the radio header, and whether they make the program
unfit for the optimizer: `gen_load_prism_llprefixlen` says so before it looks at
the register. -/
def loadLlprefixlen (linktype : Nat) (regOffLl : Option Reg) : List Stmt :=
  match regOffLl with
  | none => []
  | some r =>
    if linktype = dltPrismHeader then genLoadPrismLlprefixlen r
    else if linktype = dltIeee80211RadioAvs then genLoadAvsLlprefixlen r
    else if linktype = dltIeee80211Radio then genLoadRadiotapLlprefixlen r
    else if linktype = dltPpi then genLoadRadiotapLlprefixlen r
    else []

/-- The code of `gen_load_802_11_header_len` behind the load of the link-layer
offset into `X`. The jumps out of it go to the first statement of the block, and
to nowhere when the block has none (`snext` is `NULL`). -/
def load80211HeaderLen (radiotap : Bool) (r : Reg) (hasNext : Bool) : List Stmt :=
  -- the distance from the statement at `i` to the end of the `n` statements here
  let snext (n i : Nat) : Option Int := if hasNext then some ((n : Int) - i - 1) else none
  let n := if radiotap then 21 else 10
  [newStmt (bpfMisc ||| bpfTxa) 0,
   newStmt (bpfAlu ||| bpfAdd ||| bpfK) 24,
   newStmt bpfSt r.word,
   newStmt (bpfLd ||| bpfInd ||| bpfB) 0,
   { code := jmp bpfJset, jt := some 0, jf := snext n 4, k := 0x08 },
   { code := jmp bpfJset, jt := snext n 5, jf := some 0, k := 0x04 },
   { code := jmp bpfJset, jt := some 0, jf := if radiotap then some 3 else snext n 6,
     k := 0x80 },
   newStmt (bpfLd ||| bpfMem) r.word,
   newStmt (bpfAlu ||| bpfAdd ||| bpfImm) 2,
   newStmt bpfSt r.word] ++
  if radiotap then
    [newStmt (bpfLd ||| bpfAbs ||| bpfW) 4,
     { code := jmp bpfJset, jt := some 0, jf := snext n 11, k := swaplong 0x00000002 },
     { code := jmp bpfJset, jt := some 0, jf := some 2, k := swaplong 0x00000001 },
     newStmt (bpfLd ||| bpfAbs ||| bpfB) 16,
     { code := jmp bpfJset, jt := some 2, jf := snext n 14, k := 0x20 },
     newStmt (bpfLd ||| bpfAbs ||| bpfB) 8,
     { code := jmp bpfJset, jt := some 0, jf := snext n 16, k := 0x20 },
     newStmt (bpfLd ||| bpfMem) r.word,
     newStmt (bpfAlu ||| bpfAdd ||| bpfImm) 3,
     newStmt (bpfAlu ||| bpfAnd ||| bpfImm) (~~~3),
     newStmt bpfSt r.word]
  else []

/-- `gen_load_802_11_header_len`, on the statements for the radio header. -/
def genLoad80211HeaderLen (g : Gen) (s : List Stmt) (hasNext : Bool) : List Stmt :=
  match g.regOffMacpl with
  | none => s
  | some r =>
    (if s.isEmpty then [newStmt (bpfLdx ||| bpfImm) g.layout.offLl] else s) ++
      load80211HeaderLen (g.layout.linktype == dltIeee80211Radio) r hasNext

/-- The statements `insert_compute_vloffsets` puts in front of a block; `hasNext`
tells whether the block has statements. -/
def vloffsets (g : Gen) (hasNext : Bool) : List Stmt :=
  let s := loadLlprefixlen g.layout.linktype g.regOffLl
  if is80211 g.layout.linktype then genLoad80211HeaderLen g s hasNext else s

/-- The code contains block-local jumps, which the optimizer does not follow. -/
def vloffsetsNoOptimize (g : Gen) : Bool :=
  g.layout.linktype == dltPrismHeader || (is80211 g.layout.linktype && g.regOffMacpl.isSome)

def insertComputeVloffsets (b : BlockId) : GenM Unit :=
  modify fun g =>
    let stmts := (g.heap.get b).stmts
    { g with
      heap := g.heap.setStmts b (vloffsets g (!stmts.isEmpty) ++ stmts)
      noOptimize := g.noOptimize || vloffsetsNoOptimize g }

end Libpcap.Gencode
