/-
  Meili.Lib.Popcount — the bytes of a word, worked on side by side.

  A 64-bit word is read as its eight bytes, the lowest first (`Lanes`).  Each operation of a
  parallel bit count does to every byte what the same operation on bytes does, as long as no
  byte overflows into the next one:

    §1  `value`: the number that a list of bytes stands for;
    §2  masks, differences and sums of such numbers;
    §3  the operations on words, one lemma each;
    §4  the number of one bits of a byte.
-/
import Mathlib.Data.Nat.Digits.Defs
import Mathlib.Tactic.Ring

namespace Meili.Lib.Popcount

/-! ## §1. Bytes. -/

/-- The number with these bytes, the lowest first. -/
def value (bytes : List UInt8) : ℕ := Nat.ofDigits 256 (bytes.map UInt8.toNat)

@[simp] theorem value_nil : value [] = 0 := rfl

@[simp] theorem value_cons (b : UInt8) (bytes : List UInt8) :
    value (b :: bytes) = b.toNat + 256 * value bytes := by
  unfold value
  rw [List.map_cons, Nat.ofDigits_cons]

theorem value_lt (bytes : List UInt8) : value bytes < 256 ^ bytes.length := by
  induction bytes with
  | nil => simp
  | cons b bytes ih =>
      have hb := b.toNat_lt
      rw [value_cons, List.length_cons, Nat.pow_succ]
      omega

/-! ## §2. Byte by byte. -/

/-- The lowest byte of a conjunction, and the others. -/
theorem and_split (x y : ℕ) :
    x &&& y = (x % 2 ^ 8 &&& y % 2 ^ 8) + 256 * (x / 2 ^ 8 &&& y / 2 ^ 8) := by
  rw [← Nat.and_mod_two_pow, ← Nat.and_div_two_pow]
  omega

/-- A mask looks at the bits below its highest one only. -/
theorem and_eq_mod_and {k c : ℕ} (hc : c < 2 ^ k) (x : ℕ) : x &&& c = x % 2 ^ k &&& c := by
  -- a conjunction is no larger than the mask
  have hmod : (x &&& c) % 2 ^ k = x &&& c := Nat.mod_eq_of_lt (Nat.and_le_right.trans_lt hc)
  rw [← hmod, Nat.and_mod_two_pow, Nat.mod_eq_of_lt hc]

section Bytes

variable {c : UInt8} {j : ℕ}

theorem toNat_shift_and {t : UInt8} (ht : t.toNat < 8) (b c : UInt8) :
    ((b >>> t) &&& c).toNat = b.toNat / 2 ^ t.toNat &&& c.toNat := by
  rw [UInt8.toNat_and, UInt8.toNat_shiftRight, Nat.mod_eq_of_lt ht, Nat.shiftRight_eq_div_pow]

/-- What is shifted in from the next byte is masked away. -/
theorem shift_and_low (hj : j < 8) (hc : c.toNat < 2 ^ (8 - j)) (b : UInt8) (rest : ℕ) :
    (b.toNat + 256 * rest) / 2 ^ j % 2 ^ 8 &&& c.toNat = b.toNat / 2 ^ j &&& c.toNat := by
  have hsplit : 256 = 2 ^ j * 2 ^ (8 - j) := by
    rw [← Nat.pow_add, Nat.add_sub_cancel' hj.le]
  have hdvd : 2 ^ (8 - j) ∣ 2 ^ 8 := Nat.pow_dvd_pow 2 (Nat.sub_le 8 j)
  rw [and_eq_mod_and hc, Nat.mod_mod_of_dvd _ hdvd, hsplit, Nat.mul_assoc,
    Nat.add_mul_div_left _ _ (Nat.two_pow_pos j), Nat.add_mul_mod_self_left,
    ← and_eq_mod_and hc]

theorem value_shift_and {t : UInt8} (ht : t.toNat < 8) (hc : c.toNat < 2 ^ (8 - t.toNat))
    (bytes : List UInt8) :
    value bytes / 2 ^ t.toNat &&& value (List.replicate bytes.length c)
      = value (bytes.map fun b => (b >>> t) &&& c) := by
  induction bytes with
  | nil => rw [value_nil, Nat.zero_div, Nat.zero_and]
           rfl
  | cons b bytes ih =>
      have hb := b.toNat_lt
      have hclt := c.toNat_lt
      have hhigh : (b.toNat + 256 * value bytes) / 2 ^ t.toNat / 2 ^ 8
          = value bytes / 2 ^ t.toNat := by
        rw [Nat.div_div_eq_div_mul, Nat.mul_comm (2 ^ t.toNat), ← Nat.div_div_eq_div_mul]
        congr 1
        omega
      have hmaskLow : (c.toNat + 256 * value (List.replicate bytes.length c)) % 2 ^ 8
          = c.toNat := by omega
      have hmaskHigh : (c.toNat + 256 * value (List.replicate bytes.length c)) / 2 ^ 8
          = value (List.replicate bytes.length c) := by omega
      rw [List.length_cons, List.replicate_succ, List.map_cons, value_cons, value_cons,
        value_cons, and_split, hmaskLow, hmaskHigh, hhigh, shift_and_low ht hc, ih,
        toNat_shift_and ht]

theorem value_le {f g : UInt8 → UInt8} (bytes : List UInt8)
    (h : ∀ b ∈ bytes, f b ≤ g b) : value (bytes.map f) ≤ value (bytes.map g) := by
  induction bytes with
  | nil => exact le_refl _
  | cons b bytes ih =>
      rw [List.forall_mem_cons] at h
      have hb := UInt8.le_iff_toNat_le.mp h.1
      have hrest := ih h.2
      rw [List.map_cons, List.map_cons, value_cons, value_cons]
      omega

theorem value_add {f g : UInt8 → UInt8} (bytes : List UInt8)
    (h : ∀ b ∈ bytes, (f b).toNat + (g b).toNat < 256) :
    value (bytes.map f) + value (bytes.map g) = value (bytes.map fun b => f b + g b) := by
  induction bytes with
  | nil => rfl
  | cons b bytes ih =>
      rw [List.forall_mem_cons] at h
      have hb : (f b + g b).toNat = (f b).toNat + (g b).toNat := by
        rw [UInt8.toNat_add]
        exact Nat.mod_eq_of_lt h.1
      have hrest := ih h.2
      simp only [List.map_cons, value_cons, hb]
      omega

theorem value_sub {f g : UInt8 → UInt8} (bytes : List UInt8) (h : ∀ b ∈ bytes, f b ≤ g b) :
    value (bytes.map g) - value (bytes.map f) = value (bytes.map fun b => g b - f b) := by
  have hsum : value (bytes.map f) + value (bytes.map fun b => g b - f b)
      = value (bytes.map g) := by
    rw [value_add bytes (g := fun b => g b - f b)]
    · congr 1
      apply List.map_congr_left
      intro b _
      rw [UInt8.add_comm, UInt8.sub_add_cancel]
    · intro b hb
      have hle := h b hb
      rw [UInt8.toNat_sub_of_le _ _ hle]
      have hlt := (g b).toNat_lt
      have hnat := UInt8.le_iff_toNat_le.mp hle
      omega
  omega

theorem toNat_halves {b : UInt8} (h : b.toNat / 16 < 8) :
    ((b + (b >>> 4)) &&& 0x0F).toNat = (b.toNat + b.toNat / 2 ^ 4) &&& 15 := by
  have hshift : (b >>> 4).toNat = b.toNat / 2 ^ 4 := by
    rw [UInt8.toNat_shiftRight, Nat.shiftRight_eq_div_pow]
    rfl
  have hsum : (b + (b >>> 4)).toNat = b.toNat + b.toNat / 2 ^ 4 := by
    rw [UInt8.toNat_add, hshift]
    omega
  rw [UInt8.toNat_and, hsum]
  rfl

/-- The next byte comes in above the low half. -/
theorem halves_low (n rest : ℕ) :
    ((n + 256 * rest) + (n + 256 * rest) / 2 ^ 4) % 2 ^ 8 &&& 15 = (n + n / 2 ^ 4) &&& 15 := by
  rw [and_eq_mod_and (k := 4) (by decide) (_ % 2 ^ 8),
    and_eq_mod_and (k := 4) (by decide) (n + _)]
  congr 1
  omega

/-- And it does not carry into the byte after it. -/
theorem halves_high {n rest : ℕ} (hn : n % 16 < 8 ∧ n / 16 < 8) (hrest : rest % 16 < 8) :
    ((n + 256 * rest) + (n + 256 * rest) / 2 ^ 4) / 2 ^ 8 = rest + rest / 2 ^ 4 := by omega

/-- The lowest half of all bytes is that of the first one. -/
theorem value_mod_lt {bytes : List UInt8} (h : ∀ b ∈ bytes, b.toNat % 16 < 8) :
    value bytes % 16 < 8 := by
  cases bytes with
  | nil => decide
  | cons b bytes =>
      have hb := h b List.mem_cons_self
      rw [value_cons]
      omega

/-- Both halves of each byte are added up. -/
theorem value_halves (bytes : List UInt8)
    (h : ∀ b ∈ bytes, b.toNat % 16 < 8 ∧ b.toNat / 16 < 8) :
    (value bytes + value bytes / 2 ^ 4) &&& value (List.replicate bytes.length 0x0F)
      = value (bytes.map fun b : UInt8 => (b + (b >>> 4)) &&& 0x0F) := by
  induction bytes with
  | nil => rfl
  | cons b bytes ih =>
      rw [List.forall_mem_cons] at h
      obtain ⟨hb, hrest⟩ := h
      have hnext := value_mod_lt fun b' hb' => (hrest b' hb').1
      have hmask : value (List.replicate (bytes.length + 1) 0x0F)
          = 15 + 256 * value (List.replicate bytes.length 0x0F) := by
        rw [List.replicate_succ, value_cons]
        rfl
      have hmaskLow : (15 + 256 * value (List.replicate bytes.length 0x0F)) % 2 ^ 8 = 15 := by
        omega
      have hmaskHigh : (15 + 256 * value (List.replicate bytes.length 0x0F)) / 2 ^ 8
          = value (List.replicate bytes.length 0x0F) := by omega
      rw [List.length_cons, hmask, List.map_cons, value_cons, value_cons, and_split, hmaskLow,
        hmaskHigh, halves_low, halves_high hb hnext, ih hrest, toNat_halves hb.2]

/-- Bytes that are all one: one more of them, at the bottom or at the top. -/
theorem value_ones_cons (n : ℕ) :
    value (List.replicate (n + 1) 1) = 1 + 256 * value (List.replicate n 1) := by
  rw [List.replicate_succ, value_cons]
  rfl

theorem value_ones_succ (n : ℕ) :
    value (List.replicate (n + 1) 1) = value (List.replicate n 1) + 256 ^ n := by
  induction n with
  | zero => rfl
  | succ n ih =>
      have hcons := value_ones_cons n
      rw [value_ones_cons (n + 1), Nat.pow_succ]
      omega

/-- **The product with bytes that are all one**: the sum of all bytes stands at the place of
the last one. -/
theorem value_mul_ones (b : UInt8) (bytes : List UInt8) :
    ∃ low high, value (b :: bytes) * value (List.replicate (bytes.length + 1) 1)
        = low + 256 ^ bytes.length * (((b :: bytes).map UInt8.toNat).sum + 256 * high)
      ∧ low ≤ ((b :: bytes).map UInt8.toNat).sum * value (List.replicate bytes.length 1) := by
  induction bytes generalizing b with
  | nil => exact ⟨0, 0, by simp, le_refl _⟩
  | cons b' bytes ih =>
      obtain ⟨low, high, hmul, hlow⟩ := ih b'
      have hcons := value_ones_cons bytes.length
      refine ⟨b.toNat * value (List.replicate (bytes.length + 1) 1) + 256 * low,
        high + value (b' :: bytes), ?_, ?_⟩
      · -- the new byte meets every one, and the other bytes one more of them
        rw [value_cons b, List.map_cons, List.sum_cons, List.length_cons, value_ones_succ]
        calc (b.toNat + 256 * value (b' :: bytes))
              * (value (List.replicate (bytes.length + 1) 1) + 256 ^ (bytes.length + 1))
            = b.toNat * value (List.replicate (bytes.length + 1) 1)
              + 256 * (value (b' :: bytes) * value (List.replicate (bytes.length + 1) 1))
              + 256 ^ (bytes.length + 1) * (b.toNat + 256 * value (b' :: bytes)) := by ring
          _ = _ := by
              rw [hmul, Nat.pow_succ]
              ring
      · -- one place further up the lower part is smaller than one more byte
        have hpart : 256 * low ≤ ((b' :: bytes).map UInt8.toNat).sum
            * value (List.replicate (bytes.length + 1) 1) :=
          calc 256 * low
              ≤ 256 * (((b' :: bytes).map UInt8.toNat).sum
                * value (List.replicate bytes.length 1)) := Nat.mul_le_mul_left 256 hlow
            _ = ((b' :: bytes).map UInt8.toNat).sum
                * (256 * value (List.replicate bytes.length 1)) := by ring
            _ ≤ _ := Nat.mul_le_mul_left _ (by omega)
        rw [List.map_cons, List.sum_cons, List.length_cons, Nat.add_mul]
        exact Nat.add_le_add_left hpart _

end Bytes

/-! ## §3. Words. -/

/-- `v` is the word with these eight bytes. -/
structure Lanes (v : UInt64) (bytes : List UInt8) : Prop where
  length_eq : bytes.length = 8
  value_eq : v.toNat = value bytes

/-- A word that is loaded from memory. -/
theorem lanes_ofNat {bytes : List UInt8} (h : bytes.length = 8) :
    Lanes (UInt64.ofNat (value bytes)) bytes where
  length_eq := h
  value_eq := by
    have hlt := value_lt bytes
    rw [h] at hlt
    exact UInt64.toNat_ofNat_of_lt' hlt

/-- A word whose bytes are all the same. -/
theorem lanes_mask {m : UInt64} {c : UInt8} (h : m.toNat = value (List.replicate 8 c)) :
    Lanes m (List.replicate 8 c) := ⟨List.length_replicate, h⟩

namespace Lanes

variable {v w m : UInt64} {bytes : List UInt8} {c : UInt8} {f g : UInt8 → UInt8}

theorem shift_and (h : Lanes v bytes) (hm : Lanes m (List.replicate 8 c)) {s : UInt64} {t : UInt8}
    (hs : s.toNat = t.toNat) (ht : t.toNat < 8) (hc : c.toNat < 2 ^ (8 - t.toNat)) :
    Lanes ((v >>> s) &&& m) (bytes.map fun b => (b >>> t) &&& c) where
  length_eq := by rw [List.length_map, h.length_eq]
  value_eq := by
    have hvalue := value_shift_and ht hc bytes
    rw [h.length_eq] at hvalue
    rw [UInt64.toNat_and, UInt64.toNat_shiftRight, hs, Nat.mod_eq_of_lt (by omega),
      Nat.shiftRight_eq_div_pow, h.value_eq, hm.value_eq, hvalue]

theorem and (h : Lanes v bytes) (hm : Lanes m (List.replicate 8 c)) :
    Lanes (v &&& m) (bytes.map fun b => b &&& c) := by
  have hshift := h.shift_and hm (s := 0) (t := 0) rfl (by decide) c.toNat_lt
  rw [UInt64.shiftRight_zero] at hshift
  simpa only [UInt8.shiftRight_zero] using hshift

theorem sub (h : Lanes v (bytes.map g)) (hw : Lanes w (bytes.map f))
    (hle : ∀ b ∈ bytes, f b ≤ g b) : Lanes (v - w) (bytes.map fun b => g b - f b) where
  length_eq := by rw [List.length_map, ← h.length_eq, List.length_map]
  value_eq := by
    have hvalue := value_le bytes hle
    rw [UInt64.toNat_sub_of_le, h.value_eq, hw.value_eq, value_sub bytes hle]
    rwa [UInt64.le_iff_toNat_le, h.value_eq, hw.value_eq]

theorem add (h : Lanes v (bytes.map f)) (hw : Lanes w (bytes.map g))
    (hlt : ∀ b ∈ bytes, (f b).toNat + (g b).toNat < 256) :
    Lanes (v + w) (bytes.map fun b => f b + g b) where
  length_eq := by rw [List.length_map, ← h.length_eq, List.length_map]
  value_eq := by
    have hlength := h.length_eq
    have hvalue := value_lt (bytes.map fun b => f b + g b)
    rw [List.length_map] at hlength hvalue
    rw [hlength] at hvalue
    rw [UInt64.toNat_add, h.value_eq, hw.value_eq, value_add bytes hlt]
    exact Nat.mod_eq_of_lt hvalue

/-- Both halves of each byte are added up. -/
theorem halves (h : Lanes v bytes) (hm : Lanes m (List.replicate 8 0x0F))
    (hlt : ∀ b ∈ bytes, b.toNat % 16 < 8 ∧ b.toNat / 16 < 8) :
    Lanes ((v + (v >>> 4)) &&& m) (bytes.map fun b : UInt8 => (b + (b >>> 4)) &&& 0x0F) where
  length_eq := by rw [List.length_map, h.length_eq]
  value_eq := by
    have hvalue := value_halves bytes hlt
    have hmask := value_lt (List.replicate 8 0x0F)
    rw [List.length_replicate] at hmask
    rw [h.length_eq] at hvalue
    have hshift : (v >>> 4).toNat = value bytes / 2 ^ 4 := by
      rw [UInt64.toNat_shiftRight, Nat.shiftRight_eq_div_pow, h.value_eq]
      rfl
    -- a carry out of the word is masked away, too
    rw [UInt64.toNat_and, UInt64.toNat_add, hshift, hm.value_eq, h.value_eq,
      ← and_eq_mod_and hmask, hvalue]

/-- The product with `0x0101010101010101` has the sum of all bytes in its highest one. -/
theorem top (h : Lanes v bytes) (hm : Lanes m (List.replicate 8 1))
    (hsum : (bytes.map UInt8.toNat).sum < 256) :
    ((v * m) >>> 56).toNat = (bytes.map UInt8.toNat).sum := by
  obtain ⟨b, rest, rfl⟩ := List.exists_cons_of_length_eq_add_one h.length_eq
  have hrest : rest.length = 7 := by simpa using h.length_eq
  obtain ⟨low, high, hmul, hlow⟩ := value_mul_ones b rest
  have hseven : value (List.replicate 7 1) = 0x01010101010101 := by decide
  rw [hrest] at hmul hlow
  rw [hseven] at hlow
  have hshift : (56 : UInt64).toNat % 64 = 56 := rfl
  rw [UInt64.toNat_shiftRight, UInt64.toNat_mul, hshift, Nat.shiftRight_eq_div_pow, h.value_eq,
    hm.value_eq, hmul]
  generalize ((b :: rest).map UInt8.toNat).sum = sum at hsum hlow ⊢
  omega

end Lanes

/-! ## §4. One bits. -/

/-- The number of one bits of a byte. -/
def onesOf (b : UInt8) : ℕ := (List.range 8).countP b.toNat.testBit

/-- The number of one bits of some bytes. -/
def onesIn (bytes : List UInt8) : ℕ := (bytes.map onesOf).sum

theorem forall_uint8 {P : UInt8 → Prop} (h : ∀ n < 256, P (UInt8.ofNat n)) (b : UInt8) : P b := by
  have hb := h b.toNat b.toNat_lt
  rwa [UInt8.ofNat_toNat] at hb

theorem onesOf_le (b : UInt8) : onesOf b ≤ 8 := by
  unfold onesOf
  exact List.countP_le_length.trans (by rw [List.length_range])

@[simp] theorem onesIn_nil : onesIn [] = 0 := rfl

@[simp] theorem onesIn_cons (b : UInt8) (bytes : List UInt8) :
    onesIn (b :: bytes) = onesOf b + onesIn bytes := rfl

@[simp] theorem onesIn_append (bytes bytes' : List UInt8) :
    onesIn (bytes ++ bytes') = onesIn bytes + onesIn bytes' := by
  unfold onesIn
  rw [List.map_append, List.sum_append]

theorem onesIn_le (bytes : List UInt8) : onesIn bytes ≤ 8 * bytes.length := by
  induction bytes with
  | nil => exact le_refl _
  | cons b bytes ih =>
      have hb := onesOf_le b
      rw [onesIn_cons, List.length_cons]
      omega

theorem onesOf_eq_zero_iff : ∀ b : UInt8, onesOf b = 0 ↔ b = 0 := by
  apply forall_uint8
  decide +kernel

/-- No bit is one if all bytes are zero. -/
theorem onesIn_eq_zero_iff (bytes : List UInt8) : onesIn bytes = 0 ↔ ∀ b ∈ bytes, b = 0 := by
  induction bytes with
  | nil => simp
  | cons b bytes ih =>
      rw [onesIn_cons, Nat.add_eq_zero_iff, onesOf_eq_zero_iff, ih, List.forall_mem_cons]

end Meili.Lib.Popcount
