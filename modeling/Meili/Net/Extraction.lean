/-
  Meili.Net.Extraction — the 5-tuple of a frame.

  `flow_table_fill_key` takes every packet whose byte 14 has the version 4 for an IPv4
  packet whose header has no options, whatever the EtherType is and however short the
  packet.

    • `ExtractsFiveTuple` — what the key of a frame should be, and what may be read for it;
    • `extracts_iff` — the frames for which `flow_table_fill_key` does that.
-/
import Meili.Net.Packet

namespace Meili.Net

/-! ## §1. Frames. -/

/-- Two bytes of a frame. -/
def bytes16 (data : List UInt8) (i : ℕ) : Option UInt16 := do
  let lo ← data[i]?
  let hi ← data[i + 1]?
  return le16 lo hi

/-- Four bytes of a frame. -/
def bytes32 (data : List UInt8) (i : ℕ) : Option UInt32 := do
  let b₀ ← data[i]?
  let b₁ ← data[i + 1]?
  let b₂ ← data[i + 2]?
  let b₃ ← data[i + 3]?
  return le32 b₀ b₁ b₂ b₃

/-- The IP version of a frame that has byte 14. -/
def ipVersion (data : List UInt8) : ℕ := (data.getD 14 0).toNat / 16

/-- The length of the IPv4 header, in words of 32 bits. -/
def ihl (data : List UInt8) : ℕ := (data.getD 14 0).toNat % 16

/-- An Ethernet frame with EtherType 0x0800 and IP version 4. -/
structure IsIpv4 (data : List UInt8) : Prop where
  length : 14 < data.length
  etherType : data[12]? = some 0x08 ∧ data[13]? = some 0x00
  version : ipVersion data = 4

/-- `key` is the 5-tuple of the IPv4 frame `data`; the ports stand behind the header, which
has `ihl` words, and there is no such header with less than five. -/
structure FiveTupleOf (data : List UInt8) (key : Ipv4FiveTuple) : Prop where
  proto : data[23]? = some key.proto
  srcAddr : bytes32 data 26 = some key.srcAddr
  dstAddr : bytes32 data 30 = some key.dstAddr
  ports : HasPorts key.proto → 5 ≤ ihl data →
    bytes16 data (14 + 4 * ihl data) = some key.srcPort
      ∧ bytes16 data (14 + 4 * ihl data + 2) = some key.dstPort
  pad : key.pad = (0, 0, 0)

/-- `flow_table_fill_key` on the packet `pkt`, whatever `key` is before. -/
structure ExtractsFiveTuple (key : Ipv4FiveTuple) (pkt : Pkt) : Prop where
  accepts : (flowTableFillKey key pkt []).1.1 = 0 ↔ IsIpv4 pkt.data
  fields : IsIpv4 pkt.data → FiveTupleOf pkt.data (flowTableFillKey key pkt []).1.2
  inside : ∀ i ∈ (flowTableFillKey key pkt []).2, i < pkt.data.length

/-- What is read of the frame is in it, and in its place. -/
structure InPlace (data : List UInt8) : Prop where
  version : 14 < data.length
  ipv4 : ipVersion data = 4 → IsIpv4 data ∧ 34 ≤ data.length
  /-- The ports are where they are behind a header of five words. -/
  ports : ipVersion data = 4 → HasPorts (data.getD 23 0) → 38 ≤ data.length
    ∧ (5 ≤ ihl data → bytes16 data (14 + 4 * ihl data) = bytes16 data 34
      ∧ bytes16 data (14 + 4 * ihl data + 2) = bytes16 data 36)

/-! ## §2. Bytes of the packet and of the frame. -/

section Bytes

variable {pkt : Pkt} {i : ℕ}

theorem Pkt.getElem?_eq (h : i < pkt.data.length) : pkt.data[i]? = some (pkt.byte i) := by
  unfold Pkt.byte
  rw [List.getD_eq_getElem?_getD, List.getElem?_eq_getElem h, Option.getD_some]

theorem Pkt.getD_eq (h : i < pkt.data.length) (d : UInt8) : pkt.data.getD i d = pkt.byte i := by
  rw [List.getD_eq_getElem?_getD, Pkt.getElem?_eq h, Option.getD_some]

theorem Pkt.bytes16_eq (h : i + 1 < pkt.data.length) :
    bytes16 pkt.data i = some (pkt.word16 i) := by
  unfold bytes16
  rw [Pkt.getElem?_eq (by omega : i < pkt.data.length), Pkt.getElem?_eq h]
  rfl

theorem Pkt.bytes32_eq (h : i + 3 < pkt.data.length) :
    bytes32 pkt.data i = some (pkt.word32 i) := by
  unfold bytes32
  rw [Pkt.getElem?_eq (by omega : i < pkt.data.length),
    Pkt.getElem?_eq (by omega : i + 1 < pkt.data.length),
    Pkt.getElem?_eq (by omega : i + 2 < pkt.data.length), Pkt.getElem?_eq h]
  rfl

/-- The version field as a number. -/
theorem Pkt.version_iff (h : 14 < pkt.data.length) : pkt.version = 4 ↔ ipVersion pkt.data = 4 := by
  have hlt := (pkt.byte 14).toNat_lt
  have hnat : pkt.version.toNat = (pkt.byte 14).toNat / 16 := by
    unfold Pkt.version
    rw [UInt8.toNat_and, UInt8.toNat_shiftRight]
    show (pkt.byte 14).toNat >>> 4 &&& (2 ^ 4 - 1) = _
    rw [Nat.and_two_pow_sub_one_eq_mod, Nat.shiftRight_eq_div_pow]
    omega
  unfold ipVersion
  rw [Pkt.getD_eq h, ← UInt8.toNat_inj, hnat]
  rfl

end Bytes

/-! ## §3. The frames that are read in place. -/

section InPlace

variable {key : Ipv4FiveTuple} {pkt : Pkt}

/-- **A frame that is read in place** has its 5-tuple extracted. -/
theorem InPlace.extracts (h : InPlace pkt.data) : ExtractsFiveTuple key pkt := by
  obtain ⟨hlen, hipv4, hports⟩ := h
  have hrun := flowTableFillKey_run key pkt []
  rw [List.nil_append, List.nil_append] at hrun
  by_cases hversion : pkt.version = 4
  · rw [if_pos hversion] at hrun
    have hip := (Pkt.version_iff hlen).mp hversion
    obtain ⟨his, h34⟩ := hipv4 hip
    have hports' := hports hip
    rw [Pkt.getD_eq (by omega)] at hports'
    refine ⟨?_, fun _ => ?_, ?_⟩
    · rw [hrun]
      exact iff_of_true rfl his
    · rw [hrun]
      refine ⟨Pkt.getElem?_eq (by omega), Pkt.bytes32_eq (by omega), Pkt.bytes32_eq (by omega),
        fun hp hihl => ?_, rfl⟩
      have hp' : HasPorts (pkt.byte 23) := hp
      obtain ⟨h38, hplace⟩ := hports' hp'
      obtain ⟨hsrc, hdst⟩ := hplace hihl
      rw [hsrc, hdst, Pkt.bytes16_eq (by omega), Pkt.bytes16_eq (by omega)]
      dsimp only [Pkt.filledKey]
      rw [if_pos hp', if_pos hp']
      exact ⟨rfl, rfl⟩
    · rw [hrun]
      intro i hi
      rcases List.mem_append.mp hi with hi | hi
      · simp only [List.mem_cons, List.not_mem_nil, or_false] at hi
        omega
      · by_cases hp : HasPorts (pkt.byte 23)
        · have h38 := (hports' hp).1
          rw [if_pos hp] at hi
          simp only [List.mem_cons, List.not_mem_nil, or_false] at hi
          omega
        · rw [if_neg hp] at hi
          cases hi
  · rw [if_neg hversion] at hrun
    have hnot : ¬ IsIpv4 pkt.data := fun his => hversion ((Pkt.version_iff hlen).mpr his.version)
    refine ⟨?_, fun his => absurd his hnot, ?_⟩
    · rw [hrun]
      have herr : errProtonosupport ≠ 0 := by decide
      exact iff_of_false herr hnot
    · rw [hrun]
      intro i hi
      rw [List.mem_singleton.mp hi]
      exact hlen

/-- Where the 5-tuple is the frame's, it has been read in place. -/
theorem ExtractsFiveTuple.inPlace (h : ExtractsFiveTuple key pkt) : InPlace pkt.data := by
  obtain ⟨haccepts, hfields, hinside⟩ := h
  have hrun := flowTableFillKey_run key pkt []
  rw [List.nil_append, List.nil_append] at hrun
  rw [hrun] at haccepts hfields hinside
  have hlen : 14 < pkt.data.length := by
    refine hinside 14 ?_
    split
    · exact List.mem_append_left _ List.mem_cons_self
    · exact List.mem_singleton.mpr rfl
  refine ⟨hlen, fun hversion => ?_, fun hversion hports => ?_⟩
  · rw [if_pos ((Pkt.version_iff hlen).mpr hversion)] at haccepts hinside
    have h33 : 33 < pkt.data.length := hinside 33 (List.mem_append_left _ (by decide))
    exact ⟨haccepts.mp rfl, h33⟩
  · rw [if_pos ((Pkt.version_iff hlen).mpr hversion)] at haccepts hfields hinside
    have h33 : 33 < pkt.data.length := hinside 33 (List.mem_append_left _ (by decide))
    rw [Pkt.getD_eq (by omega)] at hports
    have h37 : 37 < pkt.data.length := by
      refine hinside 37 (List.mem_append_right _ ?_)
      rw [if_pos hports]
      decide
    refine ⟨h37, fun hihl => ?_⟩
    obtain ⟨hsrc, hdst⟩ := (hfields (haccepts.mp rfl)).ports hports hihl
    dsimp only [Pkt.filledKey] at hsrc hdst
    rw [if_pos hports] at hsrc hdst
    rw [hsrc, hdst, Pkt.bytes16_eq (by omega), Pkt.bytes16_eq h37]
    exact ⟨rfl, rfl⟩

end InPlace

/-- **When the 5-tuple is the frame's.**  For every packet: `flow_table_fill_key` accepts the
IPv4 frames, takes their 5-tuple and reads no byte behind them, if and only if what it reads
is in the frame and in its place. -/
theorem extracts_iff (key : Ipv4FiveTuple) (pkt : Pkt) :
    ExtractsFiveTuple key pkt ↔ InPlace pkt.data :=
  ⟨ExtractsFiveTuple.inPlace, InPlace.extracts⟩

/-- A TCP segment with source port 80, behind a header with one word of options. -/
def optionsFrame : List UInt8 :=
  [0, 0, 0, 0, 0, 1, 0, 0, 0, 0, 0, 2, 0x08, 0x00,
    0x46, 0, 0, 44, 0, 0, 0, 0, 64, 0x06, 0, 0, 10, 0, 0, 1, 10, 0, 0, 2, 1, 1, 1, 1,
    0, 80, 1, 187, 0, 0, 0, 0, 0, 0, 0, 0, 0x50, 0x10, 0, 0, 0, 0, 0, 0]

/-- The options are taken for the ports. -/
theorem optionsFrame_misread :
    ¬ ExtractsFiveTuple .zero ⟨optionsFrame, fun _ => 0, 0⟩ := by
  intro h
  obtain ⟨hsrc, -⟩ := (h.fields ⟨by decide, by decide, by decide⟩).ports (by decide) (by decide)
  exact absurd hsrc (by decide)

end Meili.Net
