/-
  Meili.Example.Sha1Stream — hashing a stream with `src/example/libs/sha/sha1.c`.

  `SHA1Update` collects bytes in the 64-byte buffer of its context and transforms whole blocks,
  the first from the buffer and the others straight from the data; `SHA1Final` appends the
  padding byte by byte, through `SHA1Update`.  The number of bits is kept in two words, and the
  lower one says how much of the buffer is in use.

    §1  the source;
    §2  the digest of the standard;
    §3  `Buffered`: what a context has absorbed, kept by `SHA1Update`;
    §4  `sha1Final_eq`: the padding;
    §5  `sha1_digest`: the digest of a stream does not depend on the pieces.
-/
import Mathlib.Tactic.Ring
import Meili.Example.Ddos
import Meili.Example.Sha1
import Meili.Lib.Blocks

namespace Meili.Example

open Meili.Lib

/-! ## §1. The source. -/

/-- `SHA1_CTX`. -/
structure Sha1Ctx where
  state : Sha1State
  /-- `count[0]` and `count[1]`: the lower and the upper half of the number of bits. -/
  count0 : UInt32
  count1 : UInt32
  buffer : List UInt8
  deriving Repr, DecidableEq

/-- `memcpy(&dst[j], src, n)`, with `src` the `n` bytes. -/
def memcpyAt (dst : List UInt8) (j : ℕ) (src : List UInt8) : List UInt8 :=
  dst.take j ++ src ++ dst.drop (j + src.length)

/-- `SHA1Init(context)`; the buffer keeps what is in it. -/
def sha1Init (context : Sha1Ctx) : Sha1Ctx :=
  { context with
    state := ⟨0x67452301, 0xEFCDAB89, 0x98BADCFE, 0x10325476, 0xC3D2E1F0⟩
    count0 := 0
    count1 := 0 }

/-- The `n` bytes from `&data[i]` on. -/
def dataAt (data : List UInt8) (i n : ℕ) : List UInt8 := (data.drop i).take n

/-- The loop of `SHA1Update` over the whole blocks of `data`, with the iterations left. -/
def blockLoop (data : List UInt8) (len : UInt32) : ℕ → Sha1State → UInt32 → Sha1State × UInt32
  | 0, state, i => (state, i)
  | k + 1, state, i =>
      if i + 63 < len then
        blockLoop data len k (sha1Transform state (dataAt data i.toNat 64)) (i + 64)
      else (state, i)

/-- `SHA1Update(context, data, len)`. -/
def sha1Update (context : Sha1Ctx) (data : List UInt8) : Sha1Ctx :=
  let len := UInt32.ofNat data.length
  let j := context.count0
  let count0 := j + len <<< 3
  let count1 := if count0 < j then context.count1 + 1 else context.count1
  let count1 := count1 + len >>> 29
  let j := (j >>> 3) &&& 63
  if j + len > 63 then
    let i := 64 - j
    let buffer := memcpyAt context.buffer j.toNat (dataAt data 0 i.toNat)
    let state := sha1Transform context.state buffer
    let (state, i) := blockLoop data len (data.length / 64 + 1) state i
    { state := state
      count0 := count0
      count1 := count1
      buffer := memcpyAt buffer 0 (dataAt data i.toNat (len - i).toNat) }
  else
    { context with
      count0 := count0
      count1 := count1
      buffer := memcpyAt context.buffer j.toNat (dataAt data 0 len.toNat) }

/-- Byte `3 - (i & 3)` of a word. -/
def bigEndianByte (x : UInt32) (i : ℕ) : UInt8 :=
  ((x >>> UInt32.ofNat ((3 - (i &&& 3)) * 8)) &&& 255).toUInt8

/-- `finalcount`. -/
def finalCount (context : Sha1Ctx) : List UInt8 :=
  (List.range 8).map fun i =>
    bigEndianByte (if i ≥ 4 then context.count0 else context.count1) i

/-- The loop of `SHA1Final` that appends zeros, with the iterations left. -/
def padLoop : ℕ → Sha1Ctx → Option Sha1Ctx
  | 0, _ => none
  | k + 1, context =>
      if (context.count0 &&& 504) ≠ 448 then padLoop k (sha1Update context [0]) else some context

/-- `state[i]`. -/
def Sha1State.word (s : Sha1State) : ℕ → UInt32
  | 0 => s.s0
  | 1 => s.s1
  | 2 => s.s2
  | 3 => s.s3
  | _ => s.s4

/-- The `digest` that `SHA1Final` writes. -/
def Sha1State.digest (s : Sha1State) : List UInt8 :=
  (List.range 20).map fun i => bigEndianByte (s.word (i >>> 2)) i

/-- `SHA1Final(digest, context)`: the digest, and the context wiped; `none` when the padding
loop has not ended after 64 iterations. -/
def sha1Final (context : Sha1Ctx) : Option (List UInt8 × Sha1Ctx) := do
  let finalcount := finalCount context
  let context := sha1Update context [0x80]
  let context ← padLoop 64 context
  let context := sha1Update context finalcount
  return (context.state.digest, ⟨⟨0, 0, 0, 0, 0⟩, 0, 0, List.replicate 64 0⟩)

/-- `SHA1(hash_out, str, len)`: what is written to `hash_out`; `ctx` is the context before its
initialization. -/
def sha1 (ctx : Sha1Ctx) (str : List UInt8) : Option (List UInt8) := do
  let ctx := str.foldl (fun ctx byte => sha1Update ctx [byte]) (sha1Init ctx)
  let (digest, _) ← sha1Final ctx
  return digest ++ [0]

/-- `SHA_HASH_SIZE`. -/
def shaHashSize : ℕ := 20

/-- `ipsec(self, pkt)`: what is left of `hash_out[SHA_HASH_SIZE+2]`; the packet stays as it is. -/
def ipsec (ctx : Sha1Ctx) (hashOut : List UInt8) (pkt : MeiliPkt) : Option (List UInt8) := do
  let hash ← sha1 ctx pkt.data
  return memcpyAt hashOut 0 hash

/-! ## §2. The standard. -/

/-- The number of bits, as 8 bytes, most significant first. -/
def lengthField (n : ℕ) : List UInt8 :=
  (List.range 8).map fun i => UInt8.ofNat (8 * n / 256 ^ (7 - i))

/-- The padded message: a one bit, zeros up to 8 bytes before the end of a block, and the
number of bits. -/
def padded (message : List UInt8) : List UInt8 :=
  message ++ [0x80] ++ List.replicate ((119 - message.length % 64) % 64) 0
    ++ lengthField message.length

/-- The digest of a message. -/
def sha1Digest (message : List UInt8) : List UInt8 :=
  ((blocks 64 ((padded message).length / 64) (padded message)).foldl compress
    ⟨0x67452301, 0xEFCDAB89, 0x98BADCFE, 0x10325476, 0xC3D2E1F0⟩).digest

/-! ## §3. What a context has absorbed. -/

theorem memcpyAt_length {dst src : List UInt8} {j : ℕ} (h : j + src.length ≤ dst.length) :
    (memcpyAt dst j src).length = dst.length := by
  unfold memcpyAt
  rw [List.length_append, List.length_append, List.length_take, List.length_drop]
  omega

/-- Up to the end of what is copied. -/
theorem memcpyAt_take {dst src : List UInt8} {j : ℕ} (h : j ≤ dst.length) :
    (memcpyAt dst j src).take (j + src.length) = dst.take j ++ src := by
  have hlen : (dst.take j ++ src).length = j + src.length := by
    rw [List.length_append, List.length_take, Nat.min_eq_left h]
  unfold memcpyAt
  rw [← hlen, List.take_left]

/-- The two words of the bit count are one number of 64 bits. -/
theorem bits_add (count0 count1 len : UInt32) :
    (count0 + len <<< 3).toNat + 2 ^ 32
        * ((if count0 + len <<< 3 < count0 then count1 + 1 else count1) + len >>> 29).toNat
      = (count0.toNat + 2 ^ 32 * count1.toNat + 8 * len.toNat) % 2 ^ 64 := by
  have h0 := count0.toNat_lt
  have h1 := count1.toNat_lt
  have hlen := len.toNat_lt
  have hshl : (len <<< 3).toNat = len.toNat * 8 % 2 ^ 32 := by
    simp [Nat.shiftLeft_eq]
  have hshr : (len >>> 29).toNat = len.toNat / 2 ^ 29 := by
    simp [Nat.shiftRight_eq_div_pow]
  have hlow : (count0 + len <<< 3).toNat = (count0.toNat + len.toNat * 8 % 2 ^ 32) % 2 ^ 32 := by
    rw [UInt32.toNat_add, hshl]
  split
  next hcarry =>
    rw [UInt32.lt_iff_toNat_lt, hlow] at hcarry
    rw [hlow, UInt32.toNat_add, UInt32.toNat_add, hshr, UInt32.toNat_one]
    omega
  next hcarry =>
    rw [UInt32.lt_iff_toNat_lt, hlow] at hcarry
    rw [hlow, UInt32.toNat_add, hshr]
    omega

/-- The context has absorbed the message: the state is that of its whole blocks, the rest is
in the buffer, and the count is its number of bits. -/
structure Buffered (context : Sha1Ctx) (message : List UInt8) : Prop where
  absorbed : absorb 64 sha1Transform
      (⟨0x67452301, 0xEFCDAB89, 0x98BADCFE, 0x10325476, 0xC3D2E1F0⟩, []) message
    = (context.state, context.buffer.take (message.length % 64))
  buffer : context.buffer.length = 64
  bits : context.count0.toNat + 2 ^ 32 * context.count1.toNat = 8 * message.length % 2 ^ 64

namespace Buffered

variable {context : Sha1Ctx} {message data : List UInt8}

theorem init (h : context.buffer.length = 64) : Buffered (sha1Init context) [] where
  absorbed := rfl
  buffer := h
  bits := rfl

/-- `(j >> 3) & 63` is the length of what is in the buffer. -/
theorem used (h : Buffered context message) :
    ((context.count0 >>> 3) &&& 63).toNat = message.length % 64 := by
  have hbits := h.bits
  have hlow := context.count0.toNat_lt
  have hand : ∀ x : ℕ, x &&& 63 = x % 64 := fun x => Nat.and_two_pow_sub_one_eq_mod x 6
  rw [UInt32.toNat_and, UInt32.toNat_shiftRight]
  show (context.count0.toNat >>> 3) &&& 63 = _
  rw [hand, Nat.shiftRight_eq_div_pow]
  omega

end Buffered

/-- The loop over the whole blocks absorbs them, and stops before the last bytes. -/
theorem blockLoop_spec {data : List UInt8} {len : UInt32} (hlen : len.toNat = data.length)
    (hmax : data.length ≤ 2 ^ 32 - 64) {k : ℕ} {s : Sha1State} {i : UInt32}
    (hi : i.toNat ≤ data.length) (hk : data.length - i.toNat < 64 * k) :
    ∃ state' i', blockLoop data len k s i = (state', i') ∧ i'.toNat ≤ data.length ∧
      data.length - i'.toNat < 64 ∧
      absorb 64 sha1Transform (s, []) (data.drop i.toNat) = (state', data.drop i'.toNat) := by
  induction k generalizing s i with
  | zero => omega
  | succ k ih =>
      have hadd : (i + 63).toNat = i.toNat + 63 := by
        rw [UInt32.toNat_add]
        exact Nat.mod_eq_of_lt (by show i.toNat + 63 < 2 ^ 32; omega)
      unfold blockLoop
      split
      next hgo =>
        rw [UInt32.lt_iff_toNat_lt, hadd, hlen] at hgo
        have hnext : (i + 64).toNat = i.toNat + 64 := by
          rw [UInt32.toNat_add]
          exact Nat.mod_eq_of_lt (by show i.toNat + 64 < 2 ^ 32; omega)
        obtain ⟨state', i', hloop, hle, hrest, habs⟩ :=
          ih (s := sha1Transform s (dataAt data i.toNat 64)) (i := i + 64)
            (by omega) (by omega)
        have hblock : (dataAt data i.toNat 64).length = 64 := by
          unfold dataAt
          rw [List.length_take, List.length_drop]
          omega
        have hsplit : data.drop i.toNat = dataAt data i.toNat 64 ++ data.drop (i + 64).toNat := by
          unfold dataAt
          rw [hnext, ← List.drop_drop, List.take_append_drop]
        have hfill : absorb 64 sha1Transform (s, []) (dataAt data i.toNat 64)
            = (sha1Transform s (dataAt data i.toNat 64), []) :=
          absorb_fill (by decide) (by rw [hblock]; rfl)
        refine ⟨state', i', hloop, hle, hrest, ?_⟩
        rw [hsplit, absorb_append, hfill, habs]
      next hstop =>
        rw [UInt32.lt_iff_toNat_lt, hadd, hlen] at hstop
        refine ⟨s, i, rfl, hi, by omega, ?_⟩
        rw [absorb_short (by rw [List.length_nil, List.length_drop]; omega), List.nil_append]

section Update

variable {context : Sha1Ctx} {data : List UInt8} {u : ℕ}

/-- What an update does to the buffer: the state takes the whole blocks, the rest is at the
start of the buffer. -/
structure Absorbs (context : Sha1Ctx) (u : ℕ) (data : List UInt8) (context' : Sha1Ctx) :
    Prop where
  absorbed : ∃ rest, absorb 64 sha1Transform (context.state, context.buffer.take u) data
      = (context'.state, rest) ∧ context'.buffer.take rest.length = rest
  buffer : context'.buffer.length = 64

theorem toNat_ofNat_length (hmax : data.length ≤ 2 ^ 32 - 64) :
    (UInt32.ofNat data.length).toNat = data.length :=
  UInt32.toNat_ofNat_of_lt' (by show data.length < 2 ^ 32; omega)

/-- The data fit behind what is in the buffer. -/
theorem absorbs_room (hbuffer : context.buffer.length = 64) (hroom : u + data.length < 64)
    {count0 count1 : UInt32} :
    Absorbs context u data
      { context with
        count0 := count0
        count1 := count1
        buffer := memcpyAt context.buffer u data } where
  absorbed := by
    have hlive : (context.buffer.take u).length = u := by
      rw [List.length_take]
      omega
    refine ⟨context.buffer.take u ++ data, absorb_short (by omega), ?_⟩
    rw [List.length_append, hlive, memcpyAt_take (by omega)]
  buffer := by rw [memcpyAt_length (by omega), hbuffer]

/-- The data complete the block in the buffer. -/
theorem absorbs_full (hbuffer : context.buffer.length = 64) (hu : u < 64)
    (hfull : 64 ≤ u + data.length) (hmax : data.length ≤ 2 ^ 32 - 64)
    {i i' count0 count1 : UInt32} {state' : Sha1State} (hi : i.toNat = 64 - u)
    (hloop : blockLoop data (UInt32.ofNat data.length) (data.length / 64 + 1)
        (sha1Transform context.state (memcpyAt context.buffer u (dataAt data 0 i.toNat))) i
      = (state', i')) :
    Absorbs context u data
      { state := state'
        count0 := count0
        count1 := count1
        buffer := memcpyAt (memcpyAt context.buffer u (dataAt data 0 i.toNat)) 0
          (dataAt data i'.toNat (UInt32.ofNat data.length - i').toNat) } := by
  have hlen := toNat_ofNat_length hmax
  have hlive : (context.buffer.take u).length = u := by
    rw [List.length_take]
    omega
  have hfirst : (dataAt data 0 i.toNat).length = 64 - u := by
    unfold dataAt
    rw [List.length_take, List.drop_zero]
    omega
  -- the first block is completed in the buffer
  have hlength : (memcpyAt context.buffer u (dataAt data 0 i.toNat)).length = 64 := by
    rw [memcpyAt_length (by omega), hbuffer]
  have hblock : memcpyAt context.buffer u (dataAt data 0 i.toNat)
      = context.buffer.take u ++ dataAt data 0 i.toNat := by
    rw [← memcpyAt_take (by omega), hfirst, Nat.add_sub_cancel' hu.le,
      List.take_of_length_le hlength.le]
  have hfill : absorb 64 sha1Transform (context.state, context.buffer.take u)
      (dataAt data 0 i.toNat) = (sha1Transform context.state
        (memcpyAt context.buffer u (dataAt data 0 i.toNat)), []) := by
    rw [absorb_fill (by omega) (by omega), hblock]
  -- the other whole blocks are taken from the data
  obtain ⟨state'', i'', hloop', hle, hrest, habs⟩ :=
    blockLoop_spec hlen hmax (k := data.length / 64 + 1)
      (s := sha1Transform context.state (memcpyAt context.buffer u (dataAt data 0 i.toNat)))
      (i := i) (by omega) (by omega)
  rw [hloop] at hloop'
  obtain ⟨rfl, rfl⟩ := Prod.mk.inj hloop'
  have hleft : dataAt data i'.toNat (UInt32.ofNat data.length - i').toNat
      = data.drop i'.toNat := by
    unfold dataAt
    rw [UInt32.toNat_sub_of_le _ _ (by rw [UInt32.le_iff_toNat_le, hlen]; exact hle), hlen,
      List.take_of_length_le (by rw [List.length_drop])]
  have hsplit : data = dataAt data 0 i.toNat ++ data.drop i.toNat := by
    unfold dataAt
    rw [List.drop_zero, List.take_append_drop]
  rw [hleft]
  constructor
  · refine ⟨data.drop i'.toNat, ?_, ?_⟩
    · conv_lhs => rw [hsplit]
      rw [absorb_append, hfill, habs]
    · have htake : (memcpyAt _ 0 (data.drop i'.toNat)).take (0 + (data.drop i'.toNat).length) = _ :=
        memcpyAt_take
          (Nat.zero_le (memcpyAt context.buffer u (dataAt data 0 i.toNat)).length)
      rw [Nat.zero_add, List.take_zero, List.nil_append] at htake
      exact htake
  · rw [memcpyAt_length (by rw [List.length_drop]; omega), hlength]

/-- `SHA1Update`, as long as `j + len` does not wrap. -/
theorem sha1Update_absorbs (hbuffer : context.buffer.length = 64)
    (hmax : data.length ≤ 2 ^ 32 - 64) (hu : ((context.count0 >>> 3) &&& 63 : UInt32).toNat = u)
    (hlt : u < 64) : Absorbs context u data (sha1Update context data) := by
  have hlen := toNat_ofNat_length hmax
  unfold sha1Update
  simp only
  generalize ((context.count0 >>> 3) &&& 63 : UInt32) = j at hu ⊢
  have hsum : (j + UInt32.ofNat data.length).toNat = u + data.length := by
    rw [UInt32.toNat_add, hu, hlen]
    exact Nat.mod_eq_of_lt (by show u + data.length < 2 ^ 32; omega)
  have hi : (64 - j).toNat = 64 - u := by
    rw [UInt32.toNat_sub_of_le _ _ (by rw [UInt32.le_iff_toNat_le, hu]; exact hlt.le), hu]
    rfl
  split
  next hfull =>
    rw [gt_iff_lt, UInt32.lt_iff_toNat_lt, hsum] at hfull
    obtain ⟨state', i', hloop⟩ : ∃ state' i',
        blockLoop data (UInt32.ofNat data.length) (data.length / 64 + 1)
          (sha1Transform context.state
            (memcpyAt context.buffer j.toNat (dataAt data 0 (64 - j).toNat))) (64 - j)
        = (state', i') := ⟨_, _, rfl⟩
    rw [hloop, hu]
    rw [hu] at hloop
    exact absorbs_full hbuffer hlt hfull hmax hi hloop
  next hroom =>
    rw [gt_iff_lt, UInt32.lt_iff_toNat_lt, hsum] at hroom
    have hall : dataAt data 0 data.length = data := by
      unfold dataAt
      rw [List.drop_zero, List.take_length]
    rw [hu, hlen, hall]
    exact absorbs_room hbuffer (Nat.lt_of_not_le hroom)

/-- The bit count after `SHA1Update`. -/
theorem sha1Update_bits (hmax : data.length ≤ 2 ^ 32 - 64) :
    (sha1Update context data).count0.toNat + 2 ^ 32 * (sha1Update context data).count1.toNat
      = (context.count0.toNat + 2 ^ 32 * context.count1.toNat + 8 * data.length) % 2 ^ 64 := by
  have hbits := bits_add context.count0 context.count1 (UInt32.ofNat data.length)
  rw [toNat_ofNat_length hmax] at hbits
  unfold sha1Update
  simp only
  split <;> exact hbits

end Update

/-- **`SHA1Update` absorbs its data.** -/
theorem Buffered.update {context : Sha1Ctx} {message data : List UInt8}
    (h : Buffered context message) (hmax : data.length ≤ 2 ^ 32 - 64) :
    Buffered (sha1Update context data) (message ++ data) := by
  have hupdate := sha1Update_absorbs h.buffer hmax h.used (Nat.mod_lt _ (by decide))
  obtain ⟨rest, hrest, htake⟩ := hupdate.absorbed
  rw [← h.absorbed, ← absorb_append] at hrest
  have hlength := absorb_length (B := 64) (f := sha1Transform)
    (s := (⟨0x67452301, 0xEFCDAB89, 0x98BADCFE, 0x10325476, 0xC3D2E1F0⟩, []))
    (by decide) (message ++ data)
  rw [hrest, List.length_nil, Nat.zero_add] at hlength
  refine ⟨?_, hupdate.buffer, ?_⟩
  · rw [hrest, ← hlength, htake]
  · rw [sha1Update_bits hmax, h.bits, List.length_append]
    omega

/-- Any number of updates. -/
theorem Buffered.updates {context : Sha1Ctx} {message : List UInt8} {pieces : List (List UInt8)}
    (h : Buffered context message) (hmax : ∀ p ∈ pieces, p.length ≤ 2 ^ 32 - 64) :
    Buffered (pieces.foldl sha1Update context) (message ++ pieces.flatten) := by
  induction pieces generalizing context message with
  | nil => rwa [List.flatten_nil, List.append_nil]
  | cons p pieces ih =>
      rw [List.flatten_cons, ← List.append_assoc]
      exact ih (h.update (hmax p List.mem_cons_self))
        fun q hq => hmax q (List.mem_cons_of_mem p hq)

/-! ## §4. The padding. -/

/-- `finalcount` is the number of bits. -/
theorem Buffered.finalCount_eq {context : Sha1Ctx} {message : List UInt8}
    (h : Buffered context message) : finalCount context = lengthField message.length := by
  have hbits := h.bits
  have hlow := context.count0.toNat_lt
  have hhigh := context.count1.toNat_lt
  have hand : ∀ x : ℕ, x &&& 255 = x % 256 := fun x => Nat.and_two_pow_sub_one_eq_mod x 8
  apply List.map_congr_left
  intro i hi
  rw [List.mem_range] at hi
  apply UInt8.toNat_inj.mp
  interval_cases i <;>
  · simp [bigEndianByte, hand, Nat.shiftRight_eq_div_pow]
    omega

/-- The test of the padding loop. -/
theorem Buffered.pad_test {context : Sha1Ctx} {message : List UInt8}
    (h : Buffered context message) :
    (context.count0 &&& 504) = 448 ↔ message.length % 64 = 56 := by
  have hmask : (context.count0 &&& 504 : UInt32)
      = ((context.count0 >>> 3) &&& 63 : UInt32) <<< 3 := by
    apply eq_of_bits
    intro n hn
    interval_cases n <;> simp
  have hlt : message.length % 64 < 64 := Nat.mod_lt _ (by decide)
  rw [hmask, ← UInt32.toNat_inj, UInt32.toNat_shiftLeft, h.used]
  show (message.length % 64) <<< 3 % 2 ^ 32 = 448 ↔ _
  rw [Nat.shiftLeft_eq]
  omega

/-- The padding loop appends zeros up to 8 bytes before the end of a block. -/
theorem Buffered.padLoop {context : Sha1Ctx} {message : List UInt8} {z k : ℕ}
    (h : Buffered context message) (hz : z < 64) (hend : (message.length + z) % 64 = 56)
    (hk : z < k) :
    ∃ context', padLoop k context = some context' ∧
      Buffered context' (message ++ List.replicate z 0) := by
  induction z generalizing context message k with
  | zero =>
      obtain ⟨k, rfl⟩ : ∃ n, k = n + 1 := ⟨k - 1, by omega⟩
      refine ⟨context, if_neg (not_not.mpr (h.pad_test.mpr hend)), ?_⟩
      rwa [List.replicate_zero, List.append_nil]
  | succ z ih =>
      obtain ⟨k, rfl⟩ : ∃ n, k = n + 1 := ⟨k - 1, by omega⟩
      have hgo : (context.count0 &&& 504) ≠ 448 := by
        rw [Ne, h.pad_test]
        omega
      have hzero : Buffered (sha1Update context [0]) (message ++ [0]) := h.update (by decide)
      obtain ⟨context', hloop, hbuffered⟩ := ih hzero (by omega)
        (by rw [List.length_append, List.length_singleton]; omega) (k := k) (by omega)
      refine ⟨context', ?_, ?_⟩
      · unfold Example.padLoop
        rw [if_pos hgo, hloop]
      · rwa [List.append_assoc, List.singleton_append, ← List.replicate_succ] at hbuffered

theorem lengthField_length (n : ℕ) : (lengthField n).length = 8 := by
  rw [lengthField, List.length_map, List.length_range]

/-- The padded message is a number of whole blocks. -/
theorem padded_length (message : List UInt8) : (padded message).length % 64 = 0 := by
  unfold padded
  rw [List.length_append, List.length_append, List.length_append, List.length_replicate,
    lengthField_length, List.length_singleton]
  omega

/-- **`SHA1Final` writes the digest** of what the context has absorbed. -/
theorem Buffered.final {context : Sha1Ctx} {message : List UInt8} (h : Buffered context message) :
    sha1Final context
      = some (sha1Digest message, ⟨⟨0, 0, 0, 0, 0⟩, 0, 0, List.replicate 64 0⟩) := by
  have hone : Buffered (sha1Update context [0x80]) (message ++ [0x80]) := h.update (by decide)
  obtain ⟨context', hloop, hbuffered⟩ := hone.padLoop
    (z := (119 - message.length % 64) % 64) (k := 64) (Nat.mod_lt _ (by decide))
    (by rw [List.length_append, List.length_singleton]; omega) (Nat.mod_lt _ (by decide))
  have hlast : Buffered (sha1Update context' (lengthField message.length)) _ :=
    hbuffered.update (by rw [lengthField_length]; decide)
  have hlength := padded_length message
  have habsorbed := hlast.absorbed
  rw [show message ++ [0x80] ++ List.replicate ((119 - message.length % 64) % 64) 0
    ++ lengthField message.length = padded message from rfl,
    absorb_blocks (by decide) _ (k := (padded message).length / 64) (by omega)] at habsorbed
  have hstate : (sha1Update context' (lengthField message.length)).state
      = (blocks 64 ((padded message).length / 64) (padded message)).foldl sha1Transform
        ⟨0x67452301, 0xEFCDAB89, 0x98BADCFE, 0x10325476, 0xC3D2E1F0⟩ :=
    (congrArg Prod.fst habsorbed).symm
  have hcompress : sha1Transform = compress := funext fun s => funext fun b => sha1Transform_eq s b
  unfold sha1Final sha1Digest
  simp only [hloop, h.finalCount_eq, Option.bind_eq_bind, Option.bind_some]
  rw [hstate, hcompress]
  rfl

/-! ## §5. The digest of a stream. -/

/-- **The digest does not depend on how the message is cut**: whatever pieces it is handed to
`SHA1Update` in, `SHA1Final` writes the digest of the standard. -/
theorem sha1_digest (context : Sha1Ctx) (pieces : List (List UInt8))
    (hbuffer : context.buffer.length = 64) (hmax : ∀ p ∈ pieces, p.length ≤ 2 ^ 32 - 64) :
    sha1Final (pieces.foldl sha1Update (sha1Init context))
      = some (sha1Digest pieces.flatten, ⟨⟨0, 0, 0, 0, 0⟩, 0, 0, List.replicate 64 0⟩) := by
  have h := (Buffered.init hbuffer).updates hmax
  rw [List.nil_append] at h
  exact h.final

/-- A context with an empty buffer. -/
def emptyCtx : Sha1Ctx := ⟨⟨0, 0, 0, 0, 0⟩, 0, 0, List.replicate 64 0⟩

/-- The message `abc` in two pieces. -/
theorem twoPieces_digest :
    sha1Final ([[0x61], [0x62, 0x63]].foldl sha1Update (sha1Init emptyCtx))
      = some (sha1Digest [0x61, 0x62, 0x63], ⟨⟨0, 0, 0, 0, 0⟩, 0, 0, List.replicate 64 0⟩) :=
  sha1_digest emptyCtx [[0x61], [0x62, 0x63]] rfl (by decide)

/-- `SHA1` on a message. -/
theorem sha1_eq {ctx : Sha1Ctx} (hbuffer : ctx.buffer.length = 64) (str : List UInt8) :
    sha1 ctx str = some (sha1Digest str ++ [0]) := by
  have hmax : ∀ p ∈ str.map fun byte => [byte], p.length ≤ 2 ^ 32 - 64 := by
    intro p hp
    obtain ⟨byte, -, rfl⟩ := List.mem_map.mp hp
    exact Nat.le_of_ble_eq_true rfl
  have h := (Buffered.init hbuffer).updates hmax
  rw [List.nil_append, ← List.flatMap_def, List.flatMap_singleton', List.foldl_map] at h
  unfold sha1
  simp only [h.final, Option.bind_eq_bind, Option.bind_some]
  rfl

theorem sha1Digest_length (message : List UInt8) : (sha1Digest message).length = shaHashSize := by
  rw [sha1Digest, Sha1State.digest, List.length_map, List.length_range, shaHashSize]

/-- `ipsec` hashes the payload and stays inside `hash_out`. -/
theorem ipsec_eq {ctx : Sha1Ctx} (hbuffer : ctx.buffer.length = 64) {hashOut : List UInt8}
    (hout : hashOut.length = shaHashSize + 2) (pkt : MeiliPkt) :
    ∃ hash, ipsec ctx hashOut pkt = some hash ∧ hash.length = hashOut.length ∧
      hash.take (shaHashSize + 1) = sha1Digest pkt.data ++ [0] := by
  have hlength : (sha1Digest pkt.data ++ [0]).length = shaHashSize + 1 := by
    rw [List.length_append, sha1Digest_length, List.length_singleton]
  refine ⟨memcpyAt hashOut 0 (sha1Digest pkt.data ++ [0]), ?_, ?_, ?_⟩
  · unfold ipsec
    rw [sha1_eq hbuffer]
    rfl
  · exact memcpyAt_length (by omega)
  · have htake : (memcpyAt hashOut 0 (sha1Digest pkt.data ++ [0])).take _ = _ :=
      memcpyAt_take (Nat.zero_le _)
    rw [hlength, Nat.zero_add, List.take_zero, List.nil_append] at htake
    exact htake

end Meili.Example
