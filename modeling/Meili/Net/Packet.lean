/-
  Meili.Net.Packet — packets, their headers, and the keys of flows.

  `src/lib/net/meili_pkt.c` finds the headers of a packet, and `src/lib/net/meili_flow.h`
  takes the 5-tuple of its flow from them.

  Conventions of the embedding:

    • a pointer into the packet is the offset of the byte it points to;
    • `Load` keeps the offsets of the bytes that are read;
    • the machine is little-endian, and the 5-tuple holds addresses and ports as they
      stand in the packet.
-/
import Mathlib.Algebra.Order.Ring.Int
import Mathlib.Logic.Basic

namespace Meili.Net

/-! ## §1. Memory. -/

/-- `struct rte_mbuf`, as far as it is used here. -/
structure Pkt where
  /-- The `data_len` bytes from `rte_pktmbuf_mtod` on. -/
  data : List UInt8
  /-- What the memory behind the data holds. -/
  behind : ℕ → UInt8
  /-- `hash.rss`. -/
  rss : UInt32

def Pkt.byte (pkt : Pkt) (i : ℕ) : UInt8 := pkt.data.getD i (pkt.behind (i - pkt.data.length))

/-- A computation that reads a packet, with the offsets it has read. -/
abbrev Load := StateM (List ℕ)

def load8 (pkt : Pkt) (i : ℕ) : Load UInt8 := fun reads => (pkt.byte i, reads ++ [i])

/-- Two bytes as a `uint16_t`. -/
def le16 (lo hi : UInt8) : UInt16 := lo.toUInt16 ||| hi.toUInt16 <<< 8

/-- Four bytes as a `uint32_t`. -/
def le32 (b₀ b₁ b₂ b₃ : UInt8) : UInt32 :=
  b₀.toUInt32 ||| b₁.toUInt32 <<< 8 ||| b₂.toUInt32 <<< 16 ||| b₃.toUInt32 <<< 24

def load16 (pkt : Pkt) (i : ℕ) : Load UInt16 := do
  let lo ← load8 pkt i
  let hi ← load8 pkt (i + 1)
  return le16 lo hi

def load32 (pkt : Pkt) (i : ℕ) : Load UInt32 := do
  let b₀ ← load8 pkt i
  let b₁ ← load8 pkt (i + 1)
  let b₂ ← load8 pkt (i + 2)
  let b₃ ← load8 pkt (i + 3)
  return le32 b₀ b₁ b₂ b₃

/-! ## §2. Headers. -/

/-- `sizeof(struct rte_ether_hdr)` and `sizeof(struct rte_ipv4_hdr)`. -/
def sizeofEtherHdr : ℕ := 14

def sizeofIpv4Hdr : ℕ := 20

/-- Where the fields of `struct rte_ipv4_hdr` are; `version_ihl` is its first byte. -/
def offNextProtoId : ℕ := 9

def offSrcAddr : ℕ := 12

def offDstAddr : ℕ := 16

/-- Where the ports are in `struct rte_tcp_hdr` and in `struct rte_udp_hdr`. -/
def offSrcPort : ℕ := 0

def offDstPort : ℕ := 2

/-- `IP_PROTO_TCP` and `IP_PROTO_UDP`. -/
def ipProtoTcp : UInt8 := 0x06

def ipProtoUdp : UInt8 := 0x11

/-- `meili_ipv4_hdr_safe`. -/
def meiliIpv4HdrSafe (pkt : Pkt) : Load (Option ℕ) := do
  let ipv4 := sizeofEtherHdr
  let versionIhl ← load8 pkt ipv4
  let version := (versionIhl >>> 4) &&& 0b1111
  if version ≠ 4 then return none
  return some ipv4

/-- `meili_pkt_is_ipv4`. -/
def meiliPktIsIpv4 (pkt : Pkt) : Load Bool := do
  let ipv4 ← meiliIpv4HdrSafe pkt
  return ipv4.isSome

/-- The header behind the IPv4 header, where the packet has this protocol. -/
def transportHdrSafe (proto : UInt8) (pkt : Pkt) : Load (Option ℕ) := do
  match ← meiliIpv4HdrSafe pkt with
  | none => return none
  | some ipv4 =>
      let next ← load8 pkt (ipv4 + offNextProtoId)
      if next ≠ proto then return none
      return some (sizeofEtherHdr + sizeofIpv4Hdr)

/-- `meili_tcp_hdr_safe`. -/
def meiliTcpHdrSafe (pkt : Pkt) : Load (Option ℕ) := transportHdrSafe ipProtoTcp pkt

/-- `meili_udp_hdr_safe`. -/
def meiliUdpHdrSafe (pkt : Pkt) : Load (Option ℕ) := transportHdrSafe ipProtoUdp pkt

/-! ## §3. Keys. -/

/-- `struct ipv4_5tuple`. -/
structure Ipv4FiveTuple where
  proto : UInt8
  /-- The three bytes behind `proto`. -/
  pad : UInt8 × UInt8 × UInt8
  srcAddr : UInt32
  dstAddr : UInt32
  srcPort : UInt16
  dstPort : UInt16
  deriving Repr, DecidableEq

/-- `memset(key, 0, sizeof(struct ipv4_5tuple))`. -/
def Ipv4FiveTuple.zero : Ipv4FiveTuple where
  proto := 0
  pad := (0, 0, 0)
  srcAddr := 0
  dstAddr := 0
  srcPort := 0
  dstPort := 0

/-- `-EPROTONOSUPPORT`. -/
def errProtonosupport : ℤ := -93

/-- `key->src_port` and `key->dst_port` from a transport header.  The callers do not check
for a null pointer; they have seen the protocol (`flowTableFillKey_run`). -/
def loadPorts (key : Ipv4FiveTuple) (pkt : Pkt) : Option ℕ → Load Ipv4FiveTuple
  | none => return key
  | some hdr => do
      let src ← load16 pkt (hdr + offSrcPort)
      let dst ← load16 pkt (hdr + offDstPort)
      return { key with srcPort := src, dstPort := dst }

/-- `flow_table_fill_key`: what it returns, and the key behind it. -/
def flowTableFillKey (key : Ipv4FiveTuple) (pkt : Pkt) : Load (ℤ × Ipv4FiveTuple) := do
  if !(← meiliPktIsIpv4 pkt) then return (errProtonosupport, key)
  match ← meiliIpv4HdrSafe pkt with
  | none => return (errProtonosupport, key)
  | some ipv4 =>
      let key := Ipv4FiveTuple.zero
      let proto ← load8 pkt (ipv4 + offNextProtoId)
      let src ← load32 pkt (ipv4 + offSrcAddr)
      let dst ← load32 pkt (ipv4 + offDstAddr)
      let key := { key with proto := proto, srcAddr := src, dstAddr := dst }
      if key.proto = ipProtoTcp then
        let key ← loadPorts key pkt (← meiliTcpHdrSafe pkt)
        return (0, key)
      else if key.proto = ipProtoUdp then
        let key ← loadPorts key pkt (← meiliUdpHdrSafe pkt)
        return (0, key)
      else return (0, { key with srcPort := 0, dstPort := 0 })

/-- `flow_table_fill_key_symmetric`. -/
def flowTableFillKeySymmetric (key : Ipv4FiveTuple) (pkt : Pkt) : Load (ℤ × Ipv4FiveTuple) := do
  let (err, key) ← flowTableFillKey key pkt
  if err < 0 then return (errProtonosupport, key)
  let key := if key.dstAddr > key.srcAddr then
    { key with srcAddr := key.dstAddr, dstAddr := key.srcAddr } else key
  let key := if key.dstPort > key.srcPort then
    { key with srcPort := key.dstPort, dstPort := key.srcPort } else key
  return (0, key)

/-! ## §4. What is read. -/

/-- What the version field says. -/
def Pkt.version (pkt : Pkt) : UInt8 := (pkt.byte 14 >>> 4) &&& 0b1111

def Pkt.word16 (pkt : Pkt) (i : ℕ) : UInt16 := le16 (pkt.byte i) (pkt.byte (i + 1))

def Pkt.word32 (pkt : Pkt) (i : ℕ) : UInt32 :=
  le32 (pkt.byte i) (pkt.byte (i + 1)) (pkt.byte (i + 2)) (pkt.byte (i + 3))

/-- The protocol has ports. -/
def HasPorts (proto : UInt8) : Prop := proto = ipProtoTcp ∨ proto = ipProtoUdp

instance (proto : UInt8) : Decidable (HasPorts proto) := instDecidableOr

/-- The key that is filled from a packet of IP version 4. -/
def Pkt.filledKey (pkt : Pkt) : Ipv4FiveTuple where
  proto := pkt.byte 23
  pad := (0, 0, 0)
  srcAddr := pkt.word32 26
  dstAddr := pkt.word32 30
  srcPort := if HasPorts (pkt.byte 23) then pkt.word16 34 else 0
  dstPort := if HasPorts (pkt.byte 23) then pkt.word16 36 else 0

/-- The offsets that are read for it. -/
def Pkt.filledReads (pkt : Pkt) : List ℕ :=
  [14, 14, 23, 26, 27, 28, 29, 30, 31, 32, 33]
    ++ if HasPorts (pkt.byte 23) then [14, 23, 34, 35, 36, 37] else []

section Reads

variable (key : Ipv4FiveTuple) (pkt : Pkt) (reads : List ℕ)

theorem load_bind {α β : Type} (x : Load α) (f : α → Load β) :
    (x >>= f) reads = f (x reads).1 (x reads).2 := rfl

theorem load_pure {α : Type} (a : α) : (pure a : Load α) reads = (a, reads) := rfl

theorem load8_run (i : ℕ) : load8 pkt i reads = (pkt.byte i, reads ++ [i]) := rfl

theorem load16_run (i : ℕ) : load16 pkt i reads = (pkt.word16 i, reads ++ [i, i + 1]) := by
  simp only [load16, load_bind, load_pure, load8_run, List.append_assoc]
  rfl

theorem load32_run (i : ℕ) :
    load32 pkt i reads = (pkt.word32 i, reads ++ [i, i + 1, i + 2, i + 3]) := by
  simp only [load32, load_bind, load_pure, load8_run, List.append_assoc]
  rfl

theorem meiliIpv4HdrSafe_run :
    meiliIpv4HdrSafe pkt reads
      = (if pkt.version = 4 then some 14 else none, reads ++ [14]) := by
  show (if pkt.version ≠ 4 then pure none else pure (some 14) : Load (Option ℕ)) (reads ++ [14])
    = _
  by_cases h : pkt.version = 4
  · rw [if_neg (not_not.mpr h), if_pos h]
    rfl
  · rw [if_pos h, if_neg h]
    rfl

theorem meiliPktIsIpv4_run :
    meiliPktIsIpv4 pkt reads = (decide (pkt.version = 4), reads ++ [14]) := by
  simp only [meiliPktIsIpv4, load_bind, load_pure, meiliIpv4HdrSafe_run]
  by_cases h : pkt.version = 4
  · rw [if_pos h, decide_eq_true h]
    rfl
  · rw [if_neg h, decide_eq_false h]
    rfl

/-- The header of the protocol that the packet has. -/
theorem transportHdrSafe_run (hversion : pkt.version = 4) {proto : UInt8}
    (hproto : pkt.byte 23 = proto) :
    transportHdrSafe proto pkt reads = (some 34, reads ++ [14, 23]) := by
  simp only [transportHdrSafe, load_bind, meiliIpv4HdrSafe_run, if_pos hversion, load8_run]
  show (if pkt.byte 23 ≠ proto then pure none else pure (some 34) : Load (Option ℕ))
    (reads ++ [14] ++ [23]) = _
  rw [if_neg (not_not.mpr hproto), List.append_assoc]
  rfl

theorem loadPorts_run :
    loadPorts key pkt (some 34) reads
      = ({ key with srcPort := pkt.word16 34, dstPort := pkt.word16 36 },
          reads ++ [34, 35, 36, 37]) := by
  simp only [loadPorts, load_bind, load_pure, load16_run, List.append_assoc]
  rfl

/-- **What `flow_table_fill_key` does**: it looks at the version, and then at fixed places. -/
theorem flowTableFillKey_run :
    flowTableFillKey key pkt reads
      = if pkt.version = 4 then ((0, pkt.filledKey), reads ++ pkt.filledReads)
        else ((errProtonosupport, key), reads ++ [14]) := by
  by_cases hversion : pkt.version = 4
  · rw [if_pos hversion]
    have hproto : 14 + offNextProtoId = 23 := rfl
    have hsrc : 14 + offSrcAddr = 26 := rfl
    have hdst : 14 + offDstAddr = 30 := rfl
    simp only [flowTableFillKey, load_bind, meiliPktIsIpv4_run, decide_eq_true hversion,
      Bool.not_true, Bool.false_eq_true, if_false, meiliIpv4HdrSafe_run, if_pos hversion,
      load8_run, load32_run, List.append_assoc, hproto, hsrc, hdst]
    -- the two protocols with ports are read alike
    by_cases htcp : pkt.byte 23 = ipProtoTcp
    · have hports : HasPorts (pkt.byte 23) := Or.inl htcp
      rw [if_pos htcp]
      simp only [load_bind, load_pure, meiliTcpHdrSafe, transportHdrSafe_run _ _ hversion htcp,
        loadPorts_run, List.append_assoc]
      rw [Pkt.filledKey, Pkt.filledReads, if_pos hports, if_pos hports, if_pos hports]
      rfl
    · by_cases hudp : pkt.byte 23 = ipProtoUdp
      · have hports : HasPorts (pkt.byte 23) := Or.inr hudp
        rw [if_neg htcp, if_pos hudp]
        simp only [load_bind, load_pure, meiliUdpHdrSafe, transportHdrSafe_run _ _ hversion hudp,
          loadPorts_run, List.append_assoc]
        rw [Pkt.filledKey, Pkt.filledReads, if_pos hports, if_pos hports, if_pos hports]
        rfl
      · have hports : ¬ HasPorts (pkt.byte 23) := not_or.mpr ⟨htcp, hudp⟩
        rw [if_neg htcp, if_neg hudp, Pkt.filledKey, Pkt.filledReads, if_neg hports,
          if_neg hports, if_neg hports]
        rfl
  · rw [if_neg hversion]
    simp only [flowTableFillKey, load_bind, meiliPktIsIpv4_run, decide_eq_false hversion]
    rfl

end Reads

end Meili.Net
