/-
  Meili.Lib.Toeplitz — Toeplitz hashes.

  The hash of a string of bits is the sum (`xor`) of windows of a key, one for every bit
  that is set: the window that starts in the key where the bit stands in the string.

    • `dot` — one bit of a hash, and how it goes over the parts of the string;
    • `toeplitz_exchange` — under a periodic key, two parts of a string that are a multiple
      of the period apart may change places;
    • `msbBits`, `ofMsbBits` — the bits of a word, the most significant one first.
-/
import Mathlib.Algebra.Ring.Periodic

namespace Meili.Lib

/-! ## §1. One bit. -/

/-- The sum of the key's bits from `off` on where a bit of the string is set. -/
def dot (key : ℕ → Bool) : ℕ → List Bool → Bool
  | _, [] => false
  | off, b :: bs => (b && key off) ^^ dot key (off + 1) bs

section Dot

variable {key key' : ℕ → Bool} {off p : ℕ} {a b c x y : List Bool}

theorem dot_append (key : ℕ → Bool) (off : ℕ) (a b : List Bool) :
    dot key off (a ++ b) = (dot key off a ^^ dot key (off + a.length) b) := by
  induction a generalizing off with
  | nil => exact (Bool.false_xor _).symm
  | cons d a ih =>
      show ((d && key off) ^^ dot key (off + 1) (a ++ b)) = _
      rw [ih, ← Bool.xor_assoc, List.length_cons, Nat.add_assoc, Nat.add_comm 1]
      rfl

/-- Only the part of the key beside the string counts. -/
theorem dot_congr (h : ∀ n, off ≤ n → n < off + a.length → key n = key' n) :
    dot key off a = dot key' off a := by
  induction a generalizing off with
  | nil => rfl
  | cons d a ih =>
      rw [List.length_cons] at h
      have hrest : dot key (off + 1) a = dot key' (off + 1) a :=
        ih fun n hn hlt => h n (by omega) (by omega)
      show ((d && key off) ^^ dot key (off + 1) a) = ((d && key' off) ^^ dot key' (off + 1) a)
      rw [h off (Nat.le_refl off) (by omega), hrest]

/-- A whole number of periods further on, the sum is the same. -/
theorem dot_periodic (hkey : Function.Periodic key p) (off m : ℕ) (a : List Bool) :
    dot key (off + m * p) a = dot key off a := by
  induction a generalizing off with
  | nil => rfl
  | cons d a ih =>
      show ((d && key (off + m * p)) ^^ dot key (off + m * p + 1) a)
        = ((d && key off) ^^ dot key (off + 1) a)
      have hoff : key (off + m * p) = key off := hkey.nat_mul m off
      rw [hoff, Nat.add_right_comm, ih]

/-- **Two parts change places.** -/
theorem dot_exchange (hkey : Function.Periodic key p) (hlen : x.length = y.length)
    (hp : p ∣ (x ++ b).length) :
    dot key off (a ++ (x ++ b ++ (y ++ c))) = dot key off (a ++ (y ++ b ++ (x ++ c))) := by
  obtain ⟨m, hm⟩ := hp
  rw [Nat.mul_comm] at hm
  have hm' : (y ++ b).length = m * p := by
    rw [← hm, List.length_append, List.length_append, hlen]
  have hsum : ∀ s t u v r : Bool, (s ^^ (t ^^ u ^^ (v ^^ r))) = (s ^^ (v ^^ u ^^ (t ^^ r))) := by
    decide
  simp only [dot_append key, hm, hm', dot_periodic hkey, hlen]
  exact hsum _ _ _ _ _

end Dot

/-! ## §2. Hashes. -/

/-- The Toeplitz hash of `input`, `w` bits wide. -/
def toeplitz (w : ℕ) (key : ℕ → Bool) (input : List Bool) : List Bool :=
  (List.range w).map fun k => dot key k input

section Hash

variable {w p : ℕ} {key key' : ℕ → Bool} {a b c x y input : List Bool}

theorem toeplitz_congr (h : ∀ n, n < w + input.length → key n = key' n) :
    toeplitz w key input = toeplitz w key' input := by
  refine List.map_congr_left fun k hk => dot_congr fun n _ hlt => h n ?_
  rw [List.mem_range] at hk
  omega

/-- **Under a periodic key**, two parts that are a multiple of the period apart may change
places. -/
theorem toeplitz_exchange (hkey : Function.Periodic key p) (hlen : x.length = y.length)
    (hp : p ∣ (x ++ b).length) :
    toeplitz w key (a ++ (x ++ b ++ (y ++ c))) = toeplitz w key (a ++ (y ++ b ++ (x ++ c))) :=
  List.map_congr_left fun _ _ => dot_exchange hkey hlen hp

end Hash

/-! ## §3. The bits of a word. -/

/-- The number that bits stand for, the most significant one first. -/
def ofMsbBits (bits : List Bool) : ℕ := bits.foldl (fun n b => 2 * n + b.toNat) 0

/-- The bits of a word, from the most significant one on. -/
def msbBits {w : ℕ} (x : BitVec w) : List Bool := (List.range w).map x.getMsbD

@[simp] theorem msbBits_length {w : ℕ} (x : BitVec w) : (msbBits x).length = w := by
  unfold msbBits
  rw [List.length_map, List.length_range]

theorem msbBits_append {v w : ℕ} (x : BitVec v) (y : BitVec w) :
    msbBits (x ++ y) = msbBits x ++ msbBits y := by
  unfold msbBits
  rw [List.range_add, List.map_append, List.map_map]
  congr 1
  · apply List.map_congr_left
    intro i hi
    rw [BitVec.getMsbD_append, if_neg (Nat.not_le.mpr (List.mem_range.mp hi))]
  · apply List.map_congr_left
    intro i _
    show (x ++ y).getMsbD (v + i) = y.getMsbD i
    rw [BitVec.getMsbD_append, if_pos (Nat.le_add_right v i),
      Nat.add_sub_cancel_left]

end Meili.Lib
