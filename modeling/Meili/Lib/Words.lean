/-
  Meili.Lib.Words — a memory of 32-bit words.

    • `upper32`, `lower32`, `join32` — 64 bits as two words;
    • `store64`, `load64` — a 64-bit access, low word first;
    • what a load finds behind a store, at the same place or elsewhere.
-/
import Mathlib.Logic.Function.Basic
import Mathlib.Data.Nat.Bitwise

namespace Meili.Lib

/-! ## §1. The halves of a 64-bit number. -/

def upper32 (val : UInt64) : UInt32 := (val >>> 32).toUInt32

def lower32 (val : UInt64) : UInt32 := val.toUInt32

def join32 (upper lower : UInt32) : UInt64 := (upper.toUInt64 <<< 32) ||| lower.toUInt64

theorem toNat_upper32 (val : UInt64) : (upper32 val).toNat = val.toNat / 2 ^ 32 := by
  have hlt := val.toNat_lt
  unfold upper32
  rw [UInt64.toNat_toUInt32, UInt64.toNat_shiftRight, Nat.shiftRight_eq_div_pow]
  show val.toNat / 2 ^ 32 % 2 ^ 32 = _
  omega

theorem toNat_lower32 (val : UInt64) : (lower32 val).toNat = val.toNat % 2 ^ 32 :=
  UInt64.toNat_toUInt32 val

theorem toNat_join32 (upper lower : UInt32) :
    (join32 upper lower).toNat = upper.toNat * 2 ^ 32 + lower.toNat := by
  have hupper := upper.toNat_lt
  have hlower := lower.toNat_lt
  unfold join32
  rw [UInt64.toNat_or, UInt64.toNat_shiftLeft, UInt32.toNat_toUInt64, UInt32.toNat_toUInt64]
  show (upper.toNat <<< 32) % 2 ^ 64 ||| lower.toNat = _
  -- the halves do not meet, so `or` is a sum
  rw [Nat.mod_eq_of_lt (by rw [Nat.shiftLeft_eq]; omega), ← Nat.shiftLeft_add_eq_or_of_lt hlower,
    Nat.shiftLeft_eq]

@[simp] theorem join32_halves (val : UInt64) : join32 (upper32 val) (lower32 val) = val := by
  apply UInt64.toNat.inj
  rw [toNat_join32, toNat_upper32, toNat_lower32]
  omega

@[simp] theorem upper32_join32 (upper lower : UInt32) : upper32 (join32 upper lower) = upper := by
  have hlower := lower.toNat_lt
  apply UInt32.toNat.inj
  rw [toNat_upper32, toNat_join32]
  omega

@[simp] theorem lower32_join32 (upper lower : UInt32) : lower32 (join32 upper lower) = lower := by
  have hlower := lower.toNat_lt
  apply UInt32.toNat.inj
  rw [toNat_lower32, toNat_join32]
  omega

/-! ## §2. Stores and loads. -/

/-- The words of a memory, by index. -/
abbrev Words := ℕ → UInt32

def Words.store64 (m : Words) (a : ℕ) (val : UInt64) : Words :=
  Function.update (Function.update m a (lower32 val)) (a + 1) (upper32 val)

def Words.load64 (m : Words) (a : ℕ) : UInt64 := join32 (m (a + 1)) (m a)

section Stores

variable {m m' : Words} {a b : ℕ} {val : UInt64}

/-- **A load behind a store** at the same place. -/
theorem Words.load64_store64 (m : Words) (a : ℕ) (val : UInt64) :
    (m.store64 a val).load64 a = val := by
  unfold Words.load64 Words.store64
  rw [Function.update_self, Function.update_of_ne (Nat.ne_of_lt (Nat.lt_succ_self a)),
    Function.update_self, join32_halves]

/-- **A store elsewhere.** -/
theorem Words.store64_of_ne (hlow : b ≠ a) (hhigh : b ≠ a + 1) : m.store64 a val b = m b := by
  unfold Words.store64
  rw [Function.update_of_ne hhigh, Function.update_of_ne hlow]

/-- A load depends on its two words. -/
theorem Words.load64_congr (hlow : m' a = m a) (hhigh : m' (a + 1) = m (a + 1)) :
    m'.load64 a = m.load64 a := by
  unfold Words.load64
  rw [hlow, hhigh]

end Stores

end Meili.Lib
