/-
  Meili.Net.FlowKey — keys for the two directions of a flow.

  `flow_table_fill_key_symmetric` puts the greater address first and, apart from that, the
  greater port.  A packet and an answer to it get the same key, and so do two packets that
  have the same addresses and the same ports in another pairing.

    • `sortedKey_eq_iff` — which packets have the same key;
    • `symmetricKey_iff` — the pairs of packets for which that means the same flow.
-/
import Meili.Net.Extraction
import Mathlib.Data.Sym.Sym2

namespace Meili.Net

/-! ## §1. Flows. -/

/-- A TCP or UDP packet over IPv4 whose IP header has 20 bytes. -/
structure TransportPacket where
  pkt : Pkt
  isIpv4 : IsIpv4 pkt.data
  noOptions : ihl pkt.data = 5
  hasPorts : HasPorts (pkt.byte 23)
  complete : 38 ≤ pkt.data.length

namespace TransportPacket

def proto (p : TransportPacket) : UInt8 := p.pkt.byte 23

/-- The endpoint that sends the packet, with its address and port. -/
def src (p : TransportPacket) : UInt32 × UInt16 := (p.pkt.word32 26, p.pkt.word16 34)

/-- The endpoint it is sent to. -/
def dst (p : TransportPacket) : UInt32 × UInt16 := (p.pkt.word32 30, p.pkt.word16 36)

/-- The key of `flow_table_fill_key_symmetric`, behind what it returns. -/
def symmetricKey (p : TransportPacket) (key : Ipv4FiveTuple) : ℤ × Ipv4FiveTuple :=
  (flowTableFillKeySymmetric key p.pkt []).1

/-- The same flow, in the same or in the opposite direction. -/
def SameFlow (p q : TransportPacket) : Prop :=
  p.proto = q.proto ∧ s(p.src, p.dst) = s(q.src, q.dst)

/-- Two different addresses and two different ports, which `q` pairs the other way. -/
def Crossed (p q : TransportPacket) : Prop :=
  p.proto = q.proto ∧ p.src.1 ≠ p.dst.1 ∧ p.src.2 ≠ p.dst.2
    ∧ s(q.src, q.dst) = s((p.src.1, p.dst.2), (p.dst.1, p.src.2))

end TransportPacket

/-! ## §2. Pairs without an order. -/

/-- Two values, the greater one first. -/
def greaterFirst {α : Type} (f : α → ℕ) (a b : α) : α × α := if f a < f b then (b, a) else (a, b)

/-- **Putting the greater one first** forgets the order of a pair, and no more. -/
theorem greaterFirst_eq_iff {α : Type} {f : α → ℕ} (hf : Function.Injective f) (a b c d : α) :
    greaterFirst f a b = greaterFirst f c d ↔ s(a, b) = s(c, d) := by
  unfold greaterFirst
  rw [Sym2.eq_iff]
  have heq : f a = f b → a = b := fun h => hf h
  have heq' : f c = f d → c = d := fun h => hf h
  constructor
  · intro h
    split at h
    · split at h
      · exact Or.inl ⟨congrArg Prod.snd h, congrArg Prod.fst h⟩
      · exact Or.inr ⟨congrArg Prod.snd h, congrArg Prod.fst h⟩
    · split at h
      · exact Or.inr ⟨congrArg Prod.fst h, congrArg Prod.snd h⟩
      · exact Or.inl ⟨congrArg Prod.fst h, congrArg Prod.snd h⟩
  · intro h
    rcases h with ⟨rfl, rfl⟩ | ⟨rfl, rfl⟩
    · rfl
    · rcases Nat.lt_trichotomy (f a) (f b) with hlt | hsame | hgt
      · rw [if_pos hlt, if_neg hlt.asymm]
      · rw [heq hsame]
      · rw [if_neg hgt.asymm, if_pos hgt]

/-- **Two pairs of pairs**: the same on either side, then the same together, or crossed. -/
theorem pairs_eq_iff {α β : Type} (a b c d : α) (x y z w : β) :
    s(a, b) = s(c, d) ∧ s(x, y) = s(z, w)
      ↔ s((a, x), (b, y)) = s((c, z), (d, w)) ∨ s((a, y), (b, x)) = s((c, z), (d, w)) := by
  simp only [Sym2.eq_iff, Prod.mk.injEq]
  constructor
  · intro h
    obtain ⟨⟨rfl, rfl⟩ | ⟨rfl, rfl⟩, ⟨rfl, rfl⟩ | ⟨rfl, rfl⟩⟩ := h
    · exact Or.inl (Or.inl ⟨⟨rfl, rfl⟩, rfl, rfl⟩)
    · exact Or.inr (Or.inl ⟨⟨rfl, rfl⟩, rfl, rfl⟩)
    · exact Or.inr (Or.inr ⟨⟨rfl, rfl⟩, rfl, rfl⟩)
    · exact Or.inl (Or.inr ⟨⟨rfl, rfl⟩, rfl, rfl⟩)
  · rintro ((⟨⟨rfl, rfl⟩, rfl, rfl⟩ | ⟨⟨rfl, rfl⟩, rfl, rfl⟩)
      | (⟨⟨rfl, rfl⟩, rfl, rfl⟩ | ⟨⟨rfl, rfl⟩, rfl, rfl⟩))
    · exact ⟨Or.inl ⟨rfl, rfl⟩, Or.inl ⟨rfl, rfl⟩⟩
    · exact ⟨Or.inr ⟨rfl, rfl⟩, Or.inr ⟨rfl, rfl⟩⟩
    · exact ⟨Or.inl ⟨rfl, rfl⟩, Or.inr ⟨rfl, rfl⟩⟩
    · exact ⟨Or.inr ⟨rfl, rfl⟩, Or.inl ⟨rfl, rfl⟩⟩

/-! ## §3. The symmetric key. -/

/-- A key with its greater address and its greater port first. -/
def Ipv4FiveTuple.sorted (key : Ipv4FiveTuple) : Ipv4FiveTuple :=
  let key := if key.dstAddr > key.srcAddr then
    { key with srcAddr := key.dstAddr, dstAddr := key.srcAddr } else key
  if key.dstPort > key.srcPort then
    { key with srcPort := key.dstPort, dstPort := key.srcPort } else key

theorem flowTableFillKeySymmetric_run (key : Ipv4FiveTuple) (pkt : Pkt) (reads : List ℕ) :
    flowTableFillKeySymmetric key pkt reads
      = if pkt.version = 4 then ((0, pkt.filledKey.sorted), reads ++ pkt.filledReads)
        else ((errProtonosupport, key), reads ++ [14]) := by
  simp only [flowTableFillKeySymmetric, load_bind, flowTableFillKey_run]
  by_cases hversion : pkt.version = 4
  · simp only [if_pos hversion]
    rfl
  · simp only [if_neg hversion]
    rfl

/-- The addresses and the ports are sorted apart. -/
theorem Ipv4FiveTuple.sorted_eq (key : Ipv4FiveTuple) :
    key.sorted =
      { key with
        srcAddr := (greaterFirst UInt32.toNat key.srcAddr key.dstAddr).1
        dstAddr := (greaterFirst UInt32.toNat key.srcAddr key.dstAddr).2
        srcPort := (greaterFirst UInt16.toNat key.srcPort key.dstPort).1
        dstPort := (greaterFirst UInt16.toNat key.srcPort key.dstPort).2 } := by
  have haddr : (key.srcAddr.toNat < key.dstAddr.toNat) = (key.dstAddr > key.srcAddr) := rfl
  have hport : (key.srcPort.toNat < key.dstPort.toNat) = (key.dstPort > key.srcPort) := rfl
  unfold sorted greaterFirst
  simp only [haddr, hport]
  by_cases ha : key.dstAddr > key.srcAddr
  · by_cases hp : key.dstPort > key.srcPort
    · simp only [if_pos ha, if_pos hp]
    · simp only [if_pos ha, if_neg hp]
  · by_cases hp : key.dstPort > key.srcPort
    · simp only [if_neg ha, if_pos hp]
    · simp only [if_neg ha, if_neg hp]

/-- **The same sorted key.** -/
theorem sortedKey_eq_iff {key key' : Ipv4FiveTuple} (hpad : key.pad = key'.pad) :
    key.sorted = key'.sorted ↔ key.proto = key'.proto
      ∧ s(key.srcAddr, key.dstAddr) = s(key'.srcAddr, key'.dstAddr)
      ∧ s(key.srcPort, key.dstPort) = s(key'.srcPort, key'.dstPort) := by
  rw [← greaterFirst_eq_iff (fun _ _ h => UInt32.toNat.inj h),
    ← greaterFirst_eq_iff (fun _ _ h => UInt16.toNat.inj h), key.sorted_eq, key'.sorted_eq,
    Ipv4FiveTuple.mk.injEq]
  constructor
  · intro h
    obtain ⟨hproto, -, hsrc, hdst, hsport, hdport⟩ := h
    exact ⟨hproto, Prod.ext hsrc hdst, Prod.ext hsport hdport⟩
  · intro h
    obtain ⟨hproto, haddrs, hports⟩ := h
    obtain ⟨hsrc, hdst⟩ := Prod.ext_iff.mp haddrs
    obtain ⟨hsport, hdport⟩ := Prod.ext_iff.mp hports
    exact ⟨hproto, hpad, hsrc, hdst, hsport, hdport⟩

namespace TransportPacket

variable {p q : TransportPacket} {key key' : Ipv4FiveTuple}

/-- The endpoints are those of the packet's 5-tuple. -/
theorem extracts (p : TransportPacket) (key : Ipv4FiveTuple) : ExtractsFiveTuple key p.pkt := by
  refine InPlace.extracts ⟨p.isIpv4.length, fun _ => ⟨p.isIpv4, ?_⟩, fun _ _ =>
    ⟨p.complete, fun _ => ?_⟩⟩
  · exact Nat.le_trans (by decide) p.complete
  · rw [p.noOptions]
    exact ⟨rfl, rfl⟩

theorem symmetricKey_eq (p : TransportPacket) (key : Ipv4FiveTuple) :
    p.symmetricKey key = (0, p.pkt.filledKey.sorted) := by
  unfold symmetricKey
  rw [flowTableFillKeySymmetric_run,
    if_pos ((Pkt.version_iff p.isIpv4.length).mpr p.isIpv4.version)]

theorem symmetricKey_eq_iff :
    p.symmetricKey key = q.symmetricKey key' ↔ p.proto = q.proto
      ∧ (s(p.src, p.dst) = s(q.src, q.dst)
        ∨ s((p.src.1, p.dst.2), (p.dst.1, p.src.2)) = s(q.src, q.dst)) := by
  rw [symmetricKey_eq, symmetricKey_eq, Prod.mk.injEq,
    @sortedKey_eq_iff p.pkt.filledKey q.pkt.filledKey rfl]
  simp only [Pkt.filledKey, if_pos p.hasPorts, if_pos q.hasPorts, true_and]
  rw [pairs_eq_iff]
  rfl

/-- **When the same key means the same flow.**  For all pairs of TCP or UDP packets over IPv4:
their symmetric keys are the same exactly if they belong to the same flow, unless the packets
have the same two addresses and the same two ports, differently paired. -/
theorem symmetricKey_iff (p q : TransportPacket) (key key' : Ipv4FiveTuple) :
    (p.symmetricKey key = q.symmetricKey key' ↔ p.SameFlow q) ↔ ¬ p.Crossed q := by
  rw [symmetricKey_eq_iff]
  constructor
  · rintro h ⟨hproto, haddr, hport, hcross⟩
    obtain ⟨-, hsame⟩ := h.mp ⟨hproto, Or.inr hcross.symm⟩
    rw [hcross, Sym2.eq_iff] at hsame
    rcases hsame with ⟨hsrc, -⟩ | ⟨hsrc, -⟩
    · exact hport (Prod.ext_iff.mp hsrc).2
    · exact haddr (Prod.ext_iff.mp hsrc).1
  · intro hcross
    refine ⟨?_, fun h => ⟨h.1, Or.inl h.2⟩⟩
    intro h
    obtain ⟨hproto, hsame | hother⟩ := h
    · exact ⟨hproto, hsame⟩
    · refine ⟨hproto, ?_⟩
      -- where the addresses or the ports are equal, the two pairings are the same
      by_cases haddr : p.src.1 = p.dst.1
      · rw [← hother, Sym2.eq_iff]
        exact Or.inr ⟨Prod.ext haddr rfl, Prod.ext haddr.symm rfl⟩
      · by_cases hport : p.src.2 = p.dst.2
        · rw [← hother, Sym2.eq_iff]
          exact Or.inl ⟨Prod.ext rfl hport, Prod.ext rfl hport.symm⟩
        · exact absurd ⟨hproto, haddr, hport, hother.symm⟩ hcross

end TransportPacket

/-- A UDP packet from 10.0.0.1 to 10.0.0.2, with these ports (below 256). -/
def udpFrame (srcPort dstPort : UInt8) : List UInt8 :=
  [0, 0, 0, 0, 0, 1, 0, 0, 0, 0, 0, 2, 0x08, 0x00,
    0x45, 0, 0, 28, 0, 0, 0, 0, 64, 0x11, 0, 0, 10, 0, 0, 1, 10, 0, 0, 2,
    0, srcPort, 0, dstPort, 0, 8, 0, 0]

def udpPacket (srcPort dstPort : UInt8) : TransportPacket where
  pkt := ⟨udpFrame srcPort dstPort, fun _ => 0, 0⟩
  isIpv4 := ⟨by simp [udpFrame], by simp [udpFrame], by simp [udpFrame, ipVersion]⟩
  noOptions := by simp [udpFrame, ihl]
  hasPorts := Or.inr rfl
  complete := by simp [udpFrame]

/-- Ports 1 and 2, and the same two ports at the other addresses. -/
theorem crossed_not_sameFlow :
    ¬ ((udpPacket 1 2).symmetricKey .zero = (udpPacket 2 1).symmetricKey .zero
      ↔ (udpPacket 1 2).SameFlow (udpPacket 2 1)) := by
  intro h
  obtain ⟨-, hsame⟩ := h.mp (by decide)
  exact absurd hsame (by decide)

end Meili.Net
