/-
  Meili.Net.Rss — the hash of a flow.

  `calculate_softrss` (`src/lib/net/meili_flow.h`) computes in software what receive side
  scaling computes in the network card: the Toeplitz hash of the 5-tuple.  Its key repeats
  two bytes, which makes the hash the same for both directions of a flow.

  `rte_thash.h` is a parameter; `Thash.Documented` says what it does.
-/
import Meili.Lib.Toeplitz
import Meili.Net.Packet

namespace Meili.Net

open Meili.Lib

/-! ## §1. The hash. -/

/-- `rss_symmetric_key`. -/
def rssSymmetricKey : List UInt8 :=
  [0x6d, 0x5a, 0x6d, 0x5a, 0x6d, 0x5a, 0x6d, 0x5a, 0x6d, 0x5a, 0x6d, 0x5a, 0x6d, 0x5a,
    0x6d, 0x5a, 0x6d, 0x5a, 0x6d, 0x5a, 0x6d, 0x5a, 0x6d, 0x5a, 0x6d, 0x5a, 0x6d, 0x5a,
    0x6d, 0x5a, 0x6d, 0x5a, 0x6d, 0x5a, 0x6d, 0x5a, 0x6d, 0x5a, 0x6d, 0x5a]

/-- Bytes, read as `uint32_t`s. -/
def words32 : List UInt8 → List UInt32
  | b₀ :: b₁ :: b₂ :: b₃ :: rest => le32 b₀ b₁ b₂ b₃ :: words32 rest
  | _ => []

/-- A word with its bytes in the opposite order: `rte_be_to_cpu_32`. -/
def rteBeToCpu32 (x : UInt32) : UInt32 :=
  le32 (x >>> 24).toUInt8 (x >>> 16).toUInt8 (x >>> 8).toUInt8 x.toUInt8

/-- `rte_be_to_cpu_16`. -/
def rteBeToCpu16 (x : UInt16) : UInt16 := le16 (x >>> 8).toUInt8 x.toUInt8

/-- `tuple.v4` of `union rte_thash_tuple`, as words; `dport` stands before `sport`. -/
def thashTuple (srcAddr dstAddr : UInt32) (sport dport : UInt16) : List UInt32 :=
  [srcAddr, dstAddr, UInt32.ofBitVec (sport.toBitVec ++ dport.toBitVec)]

/-- What `rte_thash.h` provides. -/
structure Thash where
  rteConvertRssKey : List UInt32 → List UInt32
  rteSoftrssBe : List UInt32 → List UInt32 → UInt32

/-- `calculate_softrss`. -/
def calculateSoftrss (t : Thash) (key : Ipv4FiveTuple) : UInt32 :=
  let rssKeyBe := t.rteConvertRssKey (words32 rssSymmetricKey)
  let tuple := thashTuple (rteBeToCpu32 key.srcAddr) (rteBeToCpu32 key.dstAddr)
    (rteBeToCpu16 key.srcPort) (rteBeToCpu16 key.dstPort)
  t.rteSoftrssBe tuple rssKeyBe

/-! ## §2. The Toeplitz hash. -/

/-- The bits of words, the most significant one of each first. -/
def bitsOf (words : List UInt32) : List Bool := words.flatMap fun w => msbBits w.toBitVec

/-- The Toeplitz hash of the words of a tuple under the words of a key. -/
def toeplitzHash (tuple key : List UInt32) : UInt32 :=
  UInt32.ofNat (ofMsbBits (toeplitz 32 (fun n => (bitsOf key).getD n false) (bitsOf tuple)))

/-- What `rte_thash.h` says: the key is converted by a swap of the bytes of its words, and
`rte_softrss_be` is the Toeplitz hash under a converted key that is longer than the tuple. -/
structure Thash.Documented (t : Thash) : Prop where
  convert : ∀ key, t.rteConvertRssKey key = key.map rteBeToCpu32
  softrss : ∀ tuple key : List UInt32, tuple.length < key.length →
    t.rteSoftrssBe tuple key = toeplitzHash tuple key

/-- The two bytes that the key repeats. -/
def rssPeriod (n : ℕ) : Bool := (0x6d5a : BitVec 16).getMsbD (n % 16)

theorem rssPeriod_periodic : Function.Periodic rssPeriod 16 := by
  intro n
  unfold rssPeriod
  rw [Nat.add_mod_right]

/-- The words of the converted key. -/
theorem rssKey_converted :
    (words32 rssSymmetricKey).map rteBeToCpu32 = List.replicate 10 0x6d5a6d5a := by decide

/-- The bits of a word that is repeated. -/
theorem bitsOf_replicate (m : ℕ) (w : UInt32) (n : ℕ) (h : n < 32 * m) :
    (bitsOf (List.replicate m w))[n]? = some (w.toBitVec.getMsbD (n % 32)) := by
  induction m generalizing n with
  | zero => omega
  | succ m ih =>
      rw [List.replicate_succ]
      show (msbBits w.toBitVec ++ bitsOf (List.replicate m w))[n]? = _
      by_cases hn : n < 32
      · rw [List.getElem?_append_left (by rwa [msbBits_length]), Nat.mod_eq_of_lt hn]
        simp [msbBits, hn]
      · rw [List.getElem?_append_right (by rw [msbBits_length]; omega), msbBits_length,
          ih (n - 32) (by omega), Nat.mod_eq_sub_mod (Nat.not_lt.mp hn)]

/-- Where the hash of three words looks, the key is periodic. -/
theorem rssKey_bits (n : ℕ) (h : n < 128) :
    (bitsOf (List.replicate 10 0x6d5a6d5a)).getD n false = rssPeriod n := by
  have hhalves : ∀ i, i < 32 →
      (0x6d5a6d5a : UInt32).toBitVec.getMsbD i = (0x6d5a : BitVec 16).getMsbD (i % 16) := by decide
  rw [List.getD_eq_getElem?_getD, bitsOf_replicate 10 _ n (by omega), Option.getD_some,
    hhalves _ (Nat.mod_lt n (by decide)), Nat.mod_mod_of_dvd n (by decide)]
  rfl

theorem bitsOf_thashTuple (srcAddr dstAddr : UInt32) (sport dport : UInt16) :
    bitsOf (thashTuple srcAddr dstAddr sport dport)
      = msbBits srcAddr.toBitVec ++ (msbBits dstAddr.toBitVec
        ++ (msbBits sport.toBitVec ++ msbBits dport.toBitVec)) := by
  unfold bitsOf thashTuple
  rw [List.flatMap_cons, List.flatMap_cons, List.flatMap_cons, List.flatMap_nil, List.append_nil]
  show _ ++ (_ ++ msbBits (sport.toBitVec ++ dport.toBitVec)) = _
  rw [msbBits_append]

/-- The Toeplitz hash of a tuple under a key of period 16. -/
def periodicHash (srcAddr dstAddr : UInt32) (sport dport : UInt16) : UInt32 :=
  UInt32.ofNat (ofMsbBits (toeplitz 32 rssPeriod
    (bitsOf (thashTuple srcAddr dstAddr sport dport))))

/-- Addresses are 32 bits apart and ports 16, so both may be exchanged. -/
theorem periodicHash_comm (srcAddr dstAddr : UInt32) (sport dport : UInt16) :
    periodicHash srcAddr dstAddr sport dport = periodicHash dstAddr srcAddr dport sport := by
  have haddrs := toeplitz_exchange (w := 32) (a := []) (x := msbBits srcAddr.toBitVec) (b := [])
    (y := msbBits dstAddr.toBitVec) (c := msbBits sport.toBitVec ++ msbBits dport.toBitVec)
    rssPeriod_periodic (by simp) (by simp)
  have hports := toeplitz_exchange (w := 32)
    (a := msbBits dstAddr.toBitVec ++ msbBits srcAddr.toBitVec) (x := msbBits sport.toBitVec)
    (b := []) (y := msbBits dport.toBitVec) (c := []) rssPeriod_periodic (by simp) (by simp)
  simp only [List.nil_append, List.append_nil, List.append_assoc] at haddrs hports
  unfold periodicHash
  rw [bitsOf_thashTuple, bitsOf_thashTuple, haddrs, hports]

section Softrss

variable {t : Thash}

/-- **The software hash** is the hash under a key of period 16. -/
theorem calculateSoftrss_eq (ht : t.Documented) (key : Ipv4FiveTuple) :
    calculateSoftrss t key
      = periodicHash (rteBeToCpu32 key.srcAddr) (rteBeToCpu32 key.dstAddr)
        (rteBeToCpu16 key.srcPort) (rteBeToCpu16 key.dstPort) := by
  unfold calculateSoftrss periodicHash
  dsimp only
  rw [ht.convert, rssKey_converted, ht.softrss _ _ (by simp [thashTuple]), toeplitzHash]
  refine congrArg (fun bits => UInt32.ofNat (ofMsbBits bits)) (toeplitz_congr fun n hn => ?_)
  rw [bitsOf_thashTuple] at hn
  simp only [List.length_append, msbBits_length] at hn
  exact rssKey_bits n hn

/-- The key of the opposite direction. -/
def Ipv4FiveTuple.reversed (key : Ipv4FiveTuple) : Ipv4FiveTuple :=
  { key with
    srcAddr := key.dstAddr
    dstAddr := key.srcAddr
    srcPort := key.dstPort
    dstPort := key.srcPort }

/-- **The software hash does not see directions.**  For every 5-tuple, the hash is that of the
5-tuple with its addresses and its ports exchanged. -/
theorem calculateSoftrss_reversed (ht : t.Documented) (key : Ipv4FiveTuple) :
    calculateSoftrss t key = calculateSoftrss t key.reversed := by
  rw [calculateSoftrss_eq ht, calculateSoftrss_eq ht]
  exact periodicHash_comm _ _ _ _

end Softrss

/-- `rte_thash.h` as it is documented. -/
def softThash : Thash where
  rteConvertRssKey key := key.map rteBeToCpu32
  rteSoftrssBe := toeplitzHash

theorem softThash_documented : softThash.Documented where
  convert _ := rfl
  softrss _ _ _ := rfl

/-- From 10.0.0.1, port 80, to 10.0.0.2, port 443. -/
def httpsKey : Ipv4FiveTuple := ⟨6, (0, 0, 0), 0x100000a, 0x200000a, 0x5000, 0xbb01⟩

theorem httpsKey_reversed :
    softThash.Documented
      ∧ calculateSoftrss softThash httpsKey = calculateSoftrss softThash httpsKey.reversed :=
  ⟨softThash_documented, calculateSoftrss_reversed softThash_documented httpsKey⟩

end Meili.Net
