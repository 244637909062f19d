/-
  Meili.Example.Ddos — the DDoS check of `src/example/example_utils.c`.

  `ddos_check` counts the one bits of each packet, keeps the counts of the last `p_window`
  packets in a ring, and compares the entropies once the ring is full.  `count_bits_64` reads
  whole words of 64 bits, so it also counts what stands behind a packet whose length is not a
  multiple of eight.

    §1  the source; `simple_entropy` calculates with `log2`, and is a parameter;
    §2  `toNat_wordBits`: the parallel count of a word;
    §3  `countBits64_eq`: the count of a packet, with the bytes behind it;
    §4  the ring and the sums over it;
    §5  `statisticsMatch_iff`: when the sums are those of the last packets.
-/
import Meili.Lib.Popcount
import Meili.Lib.Ring
import Meili.Net.Packet

namespace Meili.Example

open Meili.Lib Meili.Lib.Popcount
open Meili.Net (Pkt)

/-! ## §1. The source. -/

/-- `DDOS_DEFAULT_WINDOW` and `DDOS_DEFAULT_THRESH`. -/
def ddosDefaultWindow : UInt32 := 0xFFF

def ddosDefaultThresh : UInt32 := 1200

/-- `meili_pkt`; its `data_len` is a `uint16_t`. -/
structure MeiliPkt extends Pkt where
  dataLen_lt : data.length < 65536

/-- `meili_pkt_payload_len`; `meili_pkt_payload` is where the data begins. -/
def MeiliPkt.payloadLen (pkt : MeiliPkt) : ℕ := pkt.data.length

/-- `struct EXAMPLE_state`. -/
structure ExampleState where
  threshold : UInt32
  pWindow : UInt32
  pSet : ℕ → UInt32
  pTot : ℕ → UInt32
  pEntropy : ℕ → UInt32
  head : UInt32
  packetCount : UInt32

/-- What `EXAMPLE_stage_init` stores. -/
def exampleStageInit : ExampleState where
  threshold := ddosDefaultThresh
  pWindow := ddosDefaultWindow
  pSet := fun _ => 0
  pTot := fun _ => 0
  pEntropy := fun _ => 0
  head := 0
  packetCount := 0

/-- `*ptr` of a `uint64_t *`, on a little-endian machine. -/
def load64 (pkt : Pkt) (ptr : ℕ) : UInt64 :=
  UInt64.ofNat (value ((List.range 8).map fun i => pkt.byte (ptr + i)))

/-- The body of the loop of `count_bits_64`: what a word adds to `set_bits`. -/
def wordBits (v : UInt64) : UInt64 :=
  let v : UInt64 := v - ((v >>> 1) &&& 0x5555555555555555 : UInt64)
  let v : UInt64 :=
    (v &&& 0x3333333333333333 : UInt64) + ((v >>> 2) &&& 0x3333333333333333 : UInt64)
  let v : UInt64 := (v + (v >>> 4)) &&& 0x0F0F0F0F0F0F0F0F
  (v * 0x0101010101010101) >>> 56

/-- The loop, with so many iterations at most. -/
def countLoop (pkt : Pkt) (last : ℕ) : ℕ → ℕ → UInt64 → UInt64
  | 0, _, setBits => setBits
  | k + 1, ptr, setBits =>
      if last > ptr then countLoop pkt last k (ptr + 8) (setBits + wordBits (load64 pkt ptr))
      else setBits

/-- `count_bits_64(packet, p_len)`.  Every iteration moves `ptr`, so `p_len` iterations are
enough. -/
def countBits64 (pkt : Pkt) (pLen : ℕ) : UInt32 := (countLoop pkt pLen pLen 0 0).toUInt32

/-- The variables of the loop over the window. -/
structure Sums where
  totalSet : UInt32
  totalBits : UInt32
  sumEntropy : UInt32

/-- The body of the loop. -/
def ExampleState.addSlot (s : ExampleState) (t : Sums) (k : ℕ) : Sums where
  totalSet := t.totalSet + s.pSet k
  totalBits := t.totalBits + s.pTot k
  sumEntropy := t.sumEntropy + s.pEntropy k

/-- The loop over the window. -/
def ExampleState.sums (s : ExampleState) : Sums :=
  (List.range s.pWindow.toNat).foldl s.addSlot ⟨0, 0, 0⟩

/-- What a call of `ddos_check` leaves behind, computes and returns. -/
structure DdosCheck where
  state : ExampleState
  sums : Option Sums
  flag : Bool

/-- The state with the counts of a packet, before the head moves. -/
def ExampleState.store (simpleEntropy : UInt32 → UInt32 → UInt32) (s : ExampleState)
    (pkt : MeiliPkt) : ExampleState :=
  let pLen := pkt.payloadLen
  let bits := UInt32.ofNat pLen * 8
  let set := countBits64 pkt.toPkt pLen
  { s with
    pTot := Function.update s.pTot s.head.toNat bits
    pSet := Function.update s.pSet s.head.toNat set
    pEntropy := Function.update s.pEntropy s.head.toNat (simpleEntropy set bits)
    packetCount := s.packetCount + 1 }

/-- `ddos_check(self, pkt)`. -/
def ddosCheck (simpleEntropy : UInt32 → UInt32 → UInt32) (s : ExampleState) (pkt : MeiliPkt) :
    DdosCheck :=
  let s := s.store simpleEntropy pkt
  let sums := if s.packetCount ≥ s.pWindow then some s.sums else none
  let flag := match sums with
    | none => false
    | some t => s.threshold < t.sumEntropy - simpleEntropy t.totalSet t.totalBits
  ⟨{ s with head := (s.head + 1) % s.pWindow }, sums, flag⟩

/-- The state after some packets. -/
def stateAfter (simpleEntropy : UInt32 → UInt32 → UInt32) (pkts : List MeiliPkt) :
    ExampleState :=
  pkts.foldl (fun s pkt => (ddosCheck simpleEntropy s pkt).state) exampleStageInit

/-! ### What the statistics stand for. -/

/-- The packets in the window after `pkts`. -/
def lastPackets (pkts : List MeiliPkt) : List MeiliPkt :=
  pkts.drop (pkts.length - exampleStageInit.pWindow.toNat)

/-- The statistics match the traffic: with a full window the sums are the number of one bits
and of bits in the payloads of the last packets, and no packet has more one bits than
bits. -/
structure StatisticsMatch (simpleEntropy : UInt32 → UInt32 → UInt32) (pkts : List MeiliPkt) :
    Prop where
  window : ∀ seen pkt, seen ++ [pkt] <+: pkts →
    exampleStageInit.pWindow.toNat ≤ (seen ++ [pkt]).length →
    ∃ sums, (ddosCheck simpleEntropy (stateAfter simpleEntropy seen) pkt).sums = some sums
      ∧ sums.totalSet
          = UInt32.ofNat ((lastPackets (seen ++ [pkt])).map fun p => onesIn p.data).sum
      ∧ sums.totalBits
          = UInt32.ofNat ((lastPackets (seen ++ [pkt])).map fun p => 8 * p.data.length).sum
  set_le : ∀ pkt ∈ pkts,
    countBits64 pkt.toPkt pkt.payloadLen ≤ UInt32.ofNat pkt.payloadLen * 8

/-- The bytes behind the payload, up to the next multiple of eight. -/
def MeiliPkt.padding (pkt : MeiliPkt) : List UInt8 :=
  (List.range ((8 - pkt.data.length % 8) % 8)).map pkt.behind

/-- Every packet is followed by zeros up to the next multiple of eight; where the window never
gets full, by no more one bits than there are zero bits in the packet. -/
def QuietPadding (pkts : List MeiliPkt) : Prop :=
  if exampleStageInit.pWindow.toNat ≤ pkts.length then
    ∀ pkt ∈ pkts, ∀ b ∈ pkt.padding, b = 0
  else
    ∀ pkt ∈ pkts, onesIn pkt.data + onesIn pkt.padding ≤ 8 * pkt.data.length

/-! ## §2. The count of a word. -/

/-- The same steps on one byte: pairs of bits, then halves, then all of it. -/
def pairBits (b : UInt8) : UInt8 := b - ((b >>> 1) &&& 0x55 : UInt8)

def halfBits (b : UInt8) : UInt8 := (b &&& 0x33 : UInt8) + ((b >>> 2) &&& 0x33 : UInt8)

def byteBits (b : UInt8) : UInt8 := (b + (b >>> 4)) &&& 0x0F

theorem toNat_byteBits : ∀ b, (byteBits (halfBits (pairBits b))).toNat = onesOf b := by
  apply forall_uint8
  decide +kernel

theorem pairs_le : ∀ b : UInt8, (b >>> 1) &&& 0x55 ≤ b := by
  apply forall_uint8
  decide +kernel

theorem halves_lt : ∀ b : UInt8,
    (b &&& 0x33).toNat + ((b >>> 2) &&& 0x33 : UInt8).toNat < 256 := by
  apply forall_uint8
  decide +kernel

theorem bytes_lt : ∀ b, (halfBits (pairBits b)).toNat % 16 < 8
    ∧ (halfBits (pairBits b)).toNat / 16 < 8 := by
  apply forall_uint8
  decide +kernel

/-- The masks, and the factor of the last step. -/
theorem lanes_55 : Lanes 0x5555555555555555 (List.replicate 8 0x55) := lanes_mask (by decide)

theorem lanes_33 : Lanes 0x3333333333333333 (List.replicate 8 0x33) := lanes_mask (by decide)

theorem lanes_0F : Lanes 0x0F0F0F0F0F0F0F0F (List.replicate 8 0x0F) := lanes_mask (by decide)

theorem lanes_01 : Lanes 0x0101010101010101 (List.replicate 8 0x01) := lanes_mask (by decide)

section Word

variable {v : UInt64} {bytes : List UInt8}

theorem lanes_pairs (h : Lanes v bytes) :
    Lanes (v - ((v >>> 1) &&& 0x5555555555555555 : UInt64)) (bytes.map pairBits) := by
  have hself : Lanes v (bytes.map id) := by rwa [List.map_id]
  have hshift := h.shift_and lanes_55 (s := 1) (t := 1) rfl (by decide) (by decide)
  exact hself.sub hshift fun b _ => pairs_le b

theorem lanes_halves (h : Lanes v bytes) :
    Lanes ((v &&& 0x3333333333333333 : UInt64) + ((v >>> 2) &&& 0x3333333333333333 : UInt64))
      (bytes.map halfBits) := by
  have hshift := h.shift_and lanes_33 (s := 2) (t := 2) rfl (by decide) (by decide)
  exact (h.and lanes_33).add hshift fun b _ => halves_lt b

/-- **A word**: the number of one bits of its bytes. -/
theorem toNat_wordBits (h : Lanes v bytes) : (wordBits v).toNat = onesIn bytes := by
  have hpairs := lanes_pairs h
  unfold wordBits
  generalize v - ((v >>> 1) &&& 0x5555555555555555 : UInt64) = w at hpairs
  have hhalves := lanes_halves hpairs
  dsimp only
  generalize (w &&& 0x3333333333333333 : UInt64) + ((w >>> 2) &&& 0x3333333333333333 : UInt64) = x
    at hhalves
  have hbytes := hhalves.halves lanes_0F (by
    rw [List.map_map, List.forall_mem_map]
    exact fun b _ => bytes_lt b)
  have hsum : ((((bytes.map pairBits).map halfBits).map byteBits).map UInt8.toNat).sum
      = onesIn bytes := by
    rw [List.map_map, List.map_map, List.map_map]
    exact congrArg List.sum (List.map_congr_left fun b _ => toNat_byteBits b)
  have hle := onesIn_le bytes
  rw [h.length_eq, ← hsum] at hle
  rw [← hsum]
  exact hbytes.top lanes_01 (Nat.lt_of_le_of_lt hle (by decide))

end Word

/-! ## §3. The count of a packet. -/

section Packet

variable (pkt : Pkt)

/-- The `n` bytes from `ptr` on. -/
def bytesFrom (ptr n : ℕ) : List UInt8 := (List.range n).map fun i => pkt.byte (ptr + i)

theorem bytesFrom_add (ptr m n : ℕ) :
    bytesFrom pkt ptr (m + n) = bytesFrom pkt ptr m ++ bytesFrom pkt (ptr + m) n := by
  unfold bytesFrom
  rw [List.range_add, List.map_append, List.map_map]
  congr 1
  apply List.map_congr_left
  intro i _
  rw [Function.comp_apply, Nat.add_assoc]

theorem wordBits_load64 (ptr : ℕ) :
    wordBits (load64 pkt ptr) = UInt64.ofNat (onesIn (bytesFrom pkt ptr 8)) := by
  have hlength : (bytesFrom pkt ptr 8).length = 8 := by
    rw [bytesFrom, List.length_map, List.length_range]
  have hcount := toNat_wordBits (lanes_ofNat hlength)
  rw [← hcount, UInt64.ofNat_toNat]
  rfl

/-- The number of words that begin before `last`. -/
def wordsTo (last ptr : ℕ) : ℕ := (last - ptr + 7) / 8

/-- **The loop** counts the bits of all words that begin before the end. -/
theorem countLoop_eq (last : ℕ) :
    ∀ (k ptr : ℕ) (setBits : UInt64), last ≤ k + ptr →
      countLoop pkt last k ptr setBits
        = setBits + UInt64.ofNat (onesIn (bytesFrom pkt ptr (8 * wordsTo last ptr))) := by
  have hend : ∀ ptr, ¬ last > ptr → wordsTo last ptr = 0 := by
    intro ptr hptr
    unfold wordsTo
    omega
  intro k
  induction k with
  | zero =>
      intro ptr setBits hk
      rw [hend ptr (by omega)]
      exact (UInt64.add_zero setBits).symm
  | succ k ih =>
      intro ptr setBits hk
      unfold countLoop
      split
      · next hlast =>
          -- one word, also where only its first byte is before the end
          have hwords : 8 * wordsTo last ptr = 8 + 8 * wordsTo last (ptr + 8) := by
            unfold wordsTo
            omega
          rw [ih _ _ (by omega), hwords, bytesFrom_add, onesIn_append, UInt64.ofNat_add,
            wordBits_load64, UInt64.add_assoc]
      · next hlast =>
          rw [hend ptr hlast]
          exact (UInt64.add_zero setBits).symm

end Packet

theorem bytesFrom_zero (pkt : Pkt) : bytesFrom pkt 0 pkt.data.length = pkt.data := by
  apply List.ext_getElem
  · rw [bytesFrom, List.length_map, List.length_range]
  · intro i _ hi
    simp only [bytesFrom, List.getElem_map, List.getElem_range, Nat.zero_add]
    rw [Pkt.byte, List.getD_eq_getElem?_getD, List.getElem?_eq_getElem hi, Option.getD_some]

theorem byte_behind (pkt : Pkt) (i : ℕ) : pkt.byte (pkt.data.length + i) = pkt.behind i := by
  rw [Pkt.byte, List.getD_eq_getElem?_getD, List.getElem?_eq_none (Nat.le_add_right _ _),
    Option.getD_none, Nat.add_sub_cancel_left]

/-- The words of a packet: its payload, and the padding. -/
theorem MeiliPkt.bytesFrom_eq (pkt : MeiliPkt) :
    bytesFrom pkt.toPkt 0 (8 * wordsTo pkt.payloadLen 0) = pkt.data ++ pkt.padding := by
  have hwords : 8 * wordsTo pkt.payloadLen 0
      = pkt.data.length + (8 - pkt.data.length % 8) % 8 := by
    unfold wordsTo payloadLen
    omega
  have hbehind : bytesFrom pkt.toPkt pkt.data.length ((8 - pkt.data.length % 8) % 8)
      = pkt.padding := List.map_congr_left fun i _ => byte_behind pkt.toPkt i
  rw [hwords, bytesFrom_add, bytesFrom_zero, Nat.zero_add, hbehind]

/-- **`count_bits_64`** counts the one bits of the payload, and of the padding. -/
theorem countBits64_eq (pkt : MeiliPkt) :
    countBits64 pkt.toPkt pkt.payloadLen
      = UInt32.ofNat (onesIn pkt.data + onesIn pkt.padding) := by
  unfold countBits64
  rw [countLoop_eq pkt.toPkt pkt.payloadLen pkt.payloadLen 0 0 (Nat.le_refl _), UInt64.zero_add,
    UInt64.toUInt32_ofNat', pkt.bytesFrom_eq, onesIn_append]

theorem MeiliPkt.onesIn_padding_le (pkt : MeiliPkt) : onesIn pkt.padding ≤ 56 := by
  have hle := onesIn_le pkt.padding
  rw [padding, List.length_map, List.length_range] at hle
  unfold padding
  omega

/-! ## §4. The ring. -/

/-- What is stored for a packet. -/
def setOf (pkt : MeiliPkt) : UInt32 := countBits64 pkt.toPkt pkt.payloadLen

def totOf (pkt : MeiliPkt) : UInt32 := UInt32.ofNat pkt.payloadLen * 8

section Sums

variable {α : Type*}

/-- Numbers of 32 bits are added up modulo 2^32. -/
theorem ofNat_sum_toNat (f : α → ℕ) (l : List α) :
    UInt32.ofNat (l.map fun x => (UInt32.ofNat (f x)).toNat).sum = UInt32.ofNat (l.map f).sum := by
  induction l with
  | nil => rfl
  | cons x l ih =>
      rw [List.map_cons, List.map_cons, List.sum_cons, List.sum_cons, UInt32.ofNat_add,
        UInt32.ofNat_add, UInt32.ofNat_toNat, ih]

theorem foldl_addSlot (s : ExampleState) (l : List ℕ) (t : Sums) :
    (l.foldl s.addSlot t).totalSet
        = t.totalSet + UInt32.ofNat (l.map fun k => (s.pSet k).toNat).sum
      ∧ (l.foldl s.addSlot t).totalBits
        = t.totalBits + UInt32.ofNat (l.map fun k => (s.pTot k).toNat).sum := by
  induction l generalizing t with
  | nil => exact ⟨(UInt32.add_zero _).symm, (UInt32.add_zero _).symm⟩
  | cons k l ih =>
      rw [List.foldl_cons, (ih _).1, (ih _).2]
      simp only [ExampleState.addSlot, List.map_cons, List.sum_cons, UInt32.ofNat_add,
        UInt32.ofNat_toNat, UInt32.add_assoc, and_self]

end Sums

/-- The sum over all slots is the sum over the window. -/
theorem sum_window (n h : ℕ) (e : ℕ → UInt32) :
    ((List.range n).map fun k => (e k).toNat).sum = ((window n h e).map UInt32.toNat).sum := by
  have hperm := (window_perm n h e).map UInt32.toNat
  rw [hperm.sum_nat, List.map_map]
  rfl

/-- The state after `pkts`: both rings end with what was stored for them. -/
structure Seen (pkts : List MeiliPkt) (s : ExampleState) : Prop where
  pWindow : s.pWindow = exampleStageInit.pWindow
  packetCount : s.packetCount = UInt32.ofNat pkts.length
  head_lt : s.head.toNat < s.pWindow.toNat
  pSet : window s.pWindow.toNat s.head.toNat s.pSet
    = (List.replicate s.pWindow.toNat 0 ++ pkts.map setOf).drop pkts.length
  pTot : window s.pWindow.toNat s.head.toNat s.pTot
    = (List.replicate s.pWindow.toNat 0 ++ pkts.map totOf).drop pkts.length

section Ring

variable {simpleEntropy : UInt32 → UInt32 → UInt32} {pkts seen : List MeiliPkt} {pkt : MeiliPkt}
  {s : ExampleState}

theorem seen_init : Seen [] exampleStageInit where
  pWindow := rfl
  packetCount := rfl
  head_lt := by decide
  pSet := by
    rw [List.map_nil, List.append_nil, List.length_nil, List.drop_zero]
    exact window_const ..
  pTot := by
    rw [List.map_nil, List.append_nil, List.length_nil, List.drop_zero]
    exact window_const ..

/-- The head after a packet. -/
theorem Seen.head_next (h : Seen pkts s) :
    ((s.head + 1) % s.pWindow).toNat = (s.head.toNat + 1) % s.pWindow.toNat := by
  have hlt := h.head_lt
  have hwindow := s.pWindow.toNat_lt
  rw [UInt32.toNat_mod, UInt32.toNat_add]
  show (s.head.toNat + 1) % 2 ^ 32 % _ = _
  rw [Nat.mod_eq_of_lt (by omega : s.head.toNat + 1 < 2 ^ 32)]

/-- A slot of a ring is written, and the head moves. -/
theorem Seen.push (h : Seen pkts s) {e : ℕ → UInt32} {f : MeiliPkt → UInt32}
    (he : window s.pWindow.toNat s.head.toNat e
      = (List.replicate s.pWindow.toNat 0 ++ pkts.map f).drop pkts.length) (pkt : MeiliPkt) :
    window s.pWindow.toNat ((s.head + 1) % s.pWindow).toNat
        (Function.update e s.head.toNat (f pkt))
      = (List.replicate s.pWindow.toNat 0 ++ (pkts ++ [pkt]).map f).drop
          (pkts ++ [pkt]).length := by
  have hlength : (List.replicate s.pWindow.toNat 0 ++ pkts.map f).length
      = s.pWindow.toNat + pkts.length := by
    rw [List.length_append, List.length_replicate, List.length_map]
  rw [h.head_next, window_push (f pkt) h.head_lt hlength he, List.map_append, List.append_assoc,
    List.length_append]
  rfl

/-- **One call** of `ddos_check`. -/
theorem Seen.check (h : Seen pkts s) (simpleEntropy : UInt32 → UInt32 → UInt32)
    (pkt : MeiliPkt) : Seen (pkts ++ [pkt]) (ddosCheck simpleEntropy s pkt).state where
  pWindow := h.pWindow
  packetCount := by
    show s.packetCount + 1 = _
    rw [h.packetCount, List.length_append, UInt32.ofNat_add]
    rfl
  head_lt := by
    show ((s.head + 1) % s.pWindow).toNat < s.pWindow.toNat
    rw [h.head_next]
    exact Nat.mod_lt _ (Nat.zero_lt_of_lt h.head_lt)
  pSet := h.push h.pSet pkt
  pTot := h.push h.pTot pkt

/-- **Every run.** -/
theorem seen_stateAfter (simpleEntropy : UInt32 → UInt32 → UInt32) (pkts : List MeiliPkt) :
    Seen pkts (stateAfter simpleEntropy pkts) := by
  induction pkts using List.reverseRecOn with
  | nil => exact seen_init
  | append_singleton pkts pkt ih =>
      have hcheck := ih.check simpleEntropy pkt
      unfold stateAfter at hcheck ⊢
      rwa [List.foldl_append]

/-- With a full window a ring holds what was stored for the last packets. -/
theorem drop_lastPackets (f : MeiliPkt → UInt32) {pkts : List MeiliPkt}
    (hfull : exampleStageInit.pWindow.toNat ≤ pkts.length) :
    (List.replicate exampleStageInit.pWindow.toNat 0 ++ pkts.map f).drop pkts.length
      = (lastPackets pkts).map f := by
  rw [List.drop_append, List.length_replicate, lastPackets, List.map_drop,
    List.drop_eq_nil_of_le (by rwa [List.length_replicate]), List.nil_append]

/-- A sum over a ring. -/
theorem Seen.sum_eq (h : Seen seen s) {e : ℕ → UInt32} {f : MeiliPkt → UInt32}
    {g : MeiliPkt → ℕ} (hfg : ∀ p, f p = UInt32.ofNat (g p))
    (he : window s.pWindow.toNat s.head.toNat e
      = (List.replicate s.pWindow.toNat 0 ++ seen.map f).drop seen.length) (pkt : MeiliPkt)
    (hfull : exampleStageInit.pWindow.toNat ≤ (seen ++ [pkt]).length) :
    UInt32.ofNat ((List.range s.pWindow.toNat).map fun k =>
        (Function.update e s.head.toNat (f pkt) k).toNat).sum
      = UInt32.ofNat ((lastPackets (seen ++ [pkt])).map g).sum := by
  have hlast := drop_lastPackets f hfull
  rw [← h.pWindow] at hlast
  have hstored : UInt32.toNat ∘ f = fun p => (UInt32.ofNat (g p)).toNat := by
    funext p
    rw [Function.comp_apply, hfg]
  rw [sum_window _ ((s.head + 1) % s.pWindow).toNat, h.push he, hlast, List.map_map, hstored,
    ofNat_sum_toNat]

/-- **The sums** of a full window: the padding is counted with the payloads. -/
theorem ddosCheck_sums (simpleEntropy : UInt32 → UInt32 → UInt32) (seen : List MeiliPkt)
    (pkt : MeiliPkt) (hcount : (seen ++ [pkt]).length < 2 ^ 32)
    (hfull : exampleStageInit.pWindow.toNat ≤ (seen ++ [pkt]).length) :
    ∃ sums, (ddosCheck simpleEntropy (stateAfter simpleEntropy seen) pkt).sums = some sums
      ∧ sums.totalSet = UInt32.ofNat ((lastPackets (seen ++ [pkt])).map fun p =>
          onesIn p.data + onesIn p.padding).sum
      ∧ sums.totalBits
          = UInt32.ofNat ((lastPackets (seen ++ [pkt])).map fun p => 8 * p.data.length).sum := by
  have h := seen_stateAfter simpleEntropy seen
  generalize stateAfter simpleEntropy seen = s at h
  -- the counter has not wrapped, so the sums are computed
  have hge : (s.store simpleEntropy pkt).packetCount ≥ (s.store simpleEntropy pkt).pWindow := by
    have hstored := (h.check simpleEntropy pkt).packetCount
    rw [ge_iff_le, UInt32.le_iff_toNat_le]
    show s.pWindow.toNat ≤ (s.packetCount + 1).toNat
    rw [h.pWindow, show s.packetCount + 1 = _ from hstored, UInt32.toNat_ofNat_of_lt' hcount]
    exact hfull
  have htot : ∀ p, totOf p = UInt32.ofNat (8 * p.data.length) := by
    intro p
    rw [Nat.mul_comm, UInt32.ofNat_mul]
    rfl
  obtain ⟨hset, hbits⟩ := foldl_addSlot (s.store simpleEntropy pkt)
    (List.range (s.store simpleEntropy pkt).pWindow.toNat) ⟨0, 0, 0⟩
  refine ⟨(s.store simpleEntropy pkt).sums, if_pos hge, ?_, ?_⟩
  · refine (hset.trans (UInt32.zero_add _)).trans ?_
    exact h.sum_eq countBits64_eq h.pSet pkt hfull
  · refine (hbits.trans (UInt32.zero_add _)).trans ?_
    exact h.sum_eq htot h.pTot pkt hfull

end Ring

/-! ## §5. When the statistics match. -/

section Match

variable {pkts : List MeiliPkt} {pkt : MeiliPkt}

/-- The count of a packet and its number of bits are far from 2^32. -/
theorem countBits64_le_iff (pkt : MeiliPkt) :
    countBits64 pkt.toPkt pkt.payloadLen ≤ UInt32.ofNat pkt.payloadLen * 8
      ↔ onesIn pkt.data + onesIn pkt.padding ≤ 8 * pkt.data.length := by
  have hlen := pkt.dataLen_lt
  have hdata := onesIn_le pkt.data
  have hpadding := pkt.onesIn_padding_le
  have hbytes : (UInt32.ofNat pkt.payloadLen).toNat = pkt.data.length :=
    UInt32.toNat_ofNat_of_lt' (hlen.trans (by decide))
  have hbits : (UInt32.ofNat pkt.payloadLen * 8).toNat = 8 * pkt.data.length := by
    rw [UInt32.toNat_mul, hbytes]
    show pkt.data.length * 8 % 2 ^ 32 = _
    omega
  rw [UInt32.le_iff_toNat_le, countBits64_eq, hbits, UInt32.toNat_ofNat_of_lt']
  show _ < 2 ^ 32
  omega

theorem sum_add (f g : MeiliPkt → ℕ) (l : List MeiliPkt) :
    (l.map fun p => f p + g p).sum = (l.map f).sum + (l.map g).sum := by
  induction l with
  | nil => rfl
  | cons p l ih =>
      simp only [List.map_cons, List.sum_cons, ih]
      omega

/-- The sum of what the paddings add is 0 only if none of them adds anything. -/
theorem sum_padding (l : List MeiliPkt) :
    (l.map fun p => onesIn p.padding).sum ≤ 56 * l.length
      ∧ ((l.map fun p => onesIn p.padding).sum = 0 ↔ ∀ p ∈ l, ∀ b ∈ p.padding, b = 0) := by
  induction l with
  | nil => exact ⟨le_refl _, by simp⟩
  | cons p l ih =>
      have hp := p.onesIn_padding_le
      rw [List.map_cons, List.sum_cons, List.length_cons]
      refine ⟨by omega, ?_⟩
      rw [Nat.add_eq_zero_iff, onesIn_eq_zero_iff, ih.2, List.forall_mem_cons]

theorem lastPackets_length_le (pkts : List MeiliPkt) :
    (lastPackets pkts).length ≤ exampleStageInit.pWindow.toNat := by
  rw [lastPackets, List.length_drop]
  omega

theorem mem_of_mem_lastPackets (h : pkt ∈ lastPackets pkts) : pkt ∈ pkts :=
  List.mem_of_mem_drop h

/-- The padding does not show in the sum of a window only if there is nothing in it: a window
has not enough packets for 2^32 bits of padding. -/
theorem totalSet_exact_iff (pkts : List MeiliPkt) :
    UInt32.ofNat ((lastPackets pkts).map fun p => onesIn p.data + onesIn p.padding).sum
        = UInt32.ofNat ((lastPackets pkts).map fun p => onesIn p.data).sum
      ↔ ∀ p ∈ lastPackets pkts, ∀ b ∈ p.padding, b = 0 := by
  obtain ⟨hle, hzero⟩ := sum_padding (lastPackets pkts)
  have hlength := lastPackets_length_le pkts
  have hwindow : exampleStageInit.pWindow.toNat = 4095 := by decide
  rw [← hzero, sum_add, UInt32.ofNat_add]
  generalize ((lastPackets pkts).map fun p => onesIn p.padding).sum = extra at hle
  constructor
  · intro heq
    -- at most 4095 paddings of 56 bits
    have hnone : UInt32.ofNat extra = 0 := by grind
    have hnat := congrArg UInt32.toNat hnone
    rw [UInt32.toNat_ofNat', UInt32.toNat_zero] at hnat
    omega
  · rintro rfl
    exact UInt32.add_zero _

/-- Where the window gets full, every packet is in it at some time. -/
theorem exists_window (hfull : exampleStageInit.pWindow.toNat ≤ pkts.length) (hpkt : pkt ∈ pkts) :
    ∃ seen last, seen ++ [last] <+: pkts
      ∧ exampleStageInit.pWindow.toNat ≤ (seen ++ [last]).length
      ∧ pkt ∈ lastPackets (seen ++ [last]) := by
  obtain ⟨i, hi, rfl⟩ := List.mem_iff_getElem.mp hpkt
  have hpos : 0 < exampleStageInit.pWindow.toNat := by decide
  unfold lastPackets
  generalize exampleStageInit.pWindow.toNat = width at hfull hpos ⊢
  -- up to the packet, or up to the first full window
  obtain ⟨n, hn, hin, hwidth, hback⟩ :
      ∃ n, n ≤ pkts.length ∧ i < n ∧ width ≤ n ∧ n - width ≤ i := by
    rcases Nat.lt_or_ge i width with hlt | hge
    · exact ⟨width, hfull, hlt, le_refl _, by omega⟩
    · exact ⟨i + 1, hi, Nat.lt_succ_self i, by omega, by omega⟩
  have hlength : (pkts.take n).length = n := by
    rw [List.length_take]
    omega
  have hne : pkts.take n ≠ [] := by
    intro hnil
    rw [hnil, List.length_nil] at hlength
    omega
  have hsplit := List.dropLast_append_getLast hne
  refine ⟨(pkts.take n).dropLast, (pkts.take n).getLast hne, ?_, ?_, ?_⟩
  · rw [hsplit]
    exact List.take_prefix n pkts
  · rw [hsplit, hlength]
    exact hwidth
  · rw [hsplit, hlength]
    apply List.mem_of_getElem? (i := i - (n - width))
    rw [List.getElem?_drop, Nat.add_sub_cancel' hback, List.getElem?_take_of_lt hin,
      List.getElem?_eq_getElem hi]

/-- **When the statistics match**: no packet is followed by one bits in its last word, or the
window never gets full and those that follow are fewer than the zero bits of the packet. -/
theorem statisticsMatch_iff (simpleEntropy : UInt32 → UInt32 → UInt32) (pkts : List MeiliPkt)
    (hcount : pkts.length < 2 ^ 32) :
    StatisticsMatch simpleEntropy pkts ↔ QuietPadding pkts := by
  unfold QuietPadding
  by_cases hfull : exampleStageInit.pWindow.toNat ≤ pkts.length
  · rw [if_pos hfull]
    constructor
    · intro h pkt hpkt
      -- the sums of a window that the packet is in
      obtain ⟨seen, last, hpre, hwindow, hmem⟩ := exists_window hfull hpkt
      obtain ⟨sums, hsums, hset, -⟩ := h.window seen last hpre hwindow
      obtain ⟨sums', hsums', hset', -⟩ := ddosCheck_sums simpleEntropy seen last
        (hpre.length_le.trans_lt hcount) hwindow
      obtain rfl : sums = sums' := Option.some.inj (hsums.symm.trans hsums')
      exact (totalSet_exact_iff _).mp (hset'.symm.trans hset) pkt hmem
    · intro h
      refine ⟨?_, ?_⟩
      · intro seen last hpre hwindow
        obtain ⟨sums, hsums, hset, hbits⟩ := ddosCheck_sums simpleEntropy seen last
          (hpre.length_le.trans_lt hcount) hwindow
        refine ⟨sums, hsums, hset.trans ((totalSet_exact_iff _).mpr ?_), hbits⟩
        intro p hp
        exact h p (hpre.subset (mem_of_mem_lastPackets hp))
      · intro pkt hpkt
        -- without padding the count is that of the payload
        have hzero := (onesIn_eq_zero_iff pkt.padding).mpr (h pkt hpkt)
        rw [countBits64_le_iff, hzero, Nat.add_zero]
        exact onesIn_le pkt.data
  · rw [if_neg hfull]
    constructor
    · intro h pkt hpkt
      exact (countBits64_le_iff pkt).mp (h.set_le pkt hpkt)
    · intro h
      refine ⟨?_, ?_⟩
      · -- no window gets full
        intro seen last hpre hwindow
        exact absurd (hwindow.trans hpre.length_le) hfull
      · intro pkt hpkt
        exact (countBits64_le_iff pkt).mpr (h pkt hpkt)

end Match

/-- A packet of one byte, with all bits set, as those behind it are. -/
def oneByte : MeiliPkt where
  data := [0xFF]
  behind := fun _ => 0xFF
  rss := 0
  dataLen_lt := by decide

/-- A packet of one word. -/
def oneWord : MeiliPkt where
  data := [1, 2, 3, 4, 5, 6, 7, 8]
  behind := fun _ => 0xFF
  rss := 0
  dataLen_lt := by decide

/-- As many of them as the window holds. -/
theorem oneWord_match : StatisticsMatch (fun _ _ => 0) (List.replicate 4095 oneWord) := by
  have hlen : (List.replicate 4095 oneWord).length = 4095 := List.length_replicate
  apply (statisticsMatch_iff _ (List.replicate 4095 oneWord) (by rw [hlen]; decide)).mpr
  have hfull : exampleStageInit.pWindow.toNat ≤ (List.replicate 4095 oneWord).length := by
    rw [hlen]
    decide
  unfold QuietPadding
  rw [if_pos hfull]
  intro pkt hpkt b hb
  have hpadding : oneWord.padding = [] := rfl
  rw [List.eq_of_mem_replicate hpkt, hpadding] at hb
  cases hb

/-- 64 one bits are counted in 8 bits. -/
theorem oneByte_not_match :
    ¬ ∀ (simpleEntropy : UInt32 → UInt32 → UInt32) (pkts : List MeiliPkt),
      pkts.length < 2 ^ 32 → StatisticsMatch simpleEntropy pkts := by
  intro hclaim
  have hle := (hclaim (fun _ _ => 0) [oneByte] (by decide)).set_le oneByte
    (List.mem_singleton.mpr rfl)
  exact absurd ((countBits64_le_iff oneByte).mp hle) (by decide)

end Meili.Example
