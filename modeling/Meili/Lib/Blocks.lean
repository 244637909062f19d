/-
  Meili.Lib.Blocks — a stream that is worked on block by block.

  A state and a buffer take the elements of a stream one after the other (`absorb`); whenever
  the buffer holds `B` elements, `f` takes them into the state and the buffer is empty again.
  How the stream is cut into pieces does not matter (`absorb_append`), a piece that leaves the
  buffer short is only stored (`absorb_short`), one that fills it is one use of `f`
  (`absorb_fill`), and a stream of whole blocks is the fold of `f` over them (`absorb_blocks`).
-/
import Mathlib.Algebra.Order.Group.Nat
import Mathlib.Data.List.Basic

namespace Meili.Lib

variable {α σ : Type*} {B : ℕ} {f : σ → List α → σ}

/-! ## §1. One element, and a piece of the stream. -/

/-- One more element. -/
def absorbOne (B : ℕ) (f : σ → List α → σ) (s : σ × List α) (a : α) : σ × List α :=
  if s.2.length + 1 = B then (f s.1 (s.2 ++ [a]), []) else (s.1, s.2 ++ [a])

/-- A piece of the stream. -/
def absorb (B : ℕ) (f : σ → List α → σ) (s : σ × List α) (xs : List α) : σ × List α :=
  xs.foldl (absorbOne B f) s

@[simp] theorem absorb_nil (s : σ × List α) : absorb B f s [] = s := rfl

@[simp] theorem absorb_cons (s : σ × List α) (a : α) (xs : List α) :
    absorb B f s (a :: xs) = absorb B f (absorbOne B f s a) xs := rfl

/-- **Where the stream is cut does not matter.** -/
theorem absorb_append (s : σ × List α) (xs ys : List α) :
    absorb B f s (xs ++ ys) = absorb B f (absorb B f s xs) ys := List.foldl_append

/-- A piece that does not fill the buffer. -/
theorem absorb_short {s : σ} {buf xs : List α} (h : buf.length + xs.length < B) :
    absorb B f (s, buf) xs = (s, buf ++ xs) := by
  induction xs generalizing buf with
  | nil => rw [absorb_nil, List.append_nil]
  | cons a xs ih =>
      rw [List.length_cons] at h
      have hone : absorbOne B f (s, buf) a = (s, buf ++ [a]) :=
        if_neg (by show buf.length + 1 ≠ B; omega)
      rw [absorb_cons, hone, ih (by rw [List.length_append, List.length_singleton]; omega),
        List.append_assoc, List.singleton_append]

/-- A piece that fills the buffer. -/
theorem absorb_fill {s : σ} {buf xs : List α} (hbuf : buf.length < B)
    (h : buf.length + xs.length = B) : absorb B f (s, buf) xs = (f s (buf ++ xs), []) := by
  obtain ⟨ys, a, rfl⟩ : ∃ ys a, xs = ys ++ [a] := by
    refine ⟨xs.dropLast, xs.getLast ?_, (List.dropLast_append_getLast ?_).symm⟩ <;>
    · intro hnil
      rw [hnil, List.length_nil] at h
      omega
  rw [List.length_append, List.length_singleton] at h
  have hshort : absorb B f (s, buf) ys = (s, buf ++ ys) := absorb_short (by omega)
  rw [absorb_append, hshort, absorb_cons, absorb_nil]
  unfold absorbOne
  rw [if_pos (by rw [List.length_append]; omega), List.append_assoc]

/-- How many elements are in the buffer. -/
theorem absorb_length {s : σ × List α} (hbuf : s.2.length < B) (xs : List α) :
    (absorb B f s xs).2.length = (s.2.length + xs.length) % B := by
  induction xs generalizing s with
  | nil => exact (Nat.mod_eq_of_lt hbuf).symm
  | cons a xs ih =>
      rw [absorb_cons, List.length_cons]
      unfold absorbOne
      split
      next hfull =>
        rw [ih (by show 0 < B; omega), List.length_nil, ← Nat.add_mod_right (0 + xs.length) B]
        congr 1
        omega
      next hroom =>
        rw [ih (by rw [List.length_append, List.length_singleton]; omega), List.length_append,
          List.length_singleton]
        congr 1
        omega

/-! ## §2. Whole blocks. -/

/-- The first `k` blocks of a stream. -/
def blocks (B : ℕ) : ℕ → List α → List (List α)
  | 0, _ => []
  | k + 1, xs => xs.take B :: blocks B k (xs.drop B)

/-- **A stream of whole blocks** is the fold over its blocks. -/
theorem absorb_blocks (hB : 0 < B) (s : σ) {k : ℕ} {xs : List α} (h : xs.length = k * B) :
    absorb B f (s, []) xs = ((blocks B k xs).foldl f s, []) := by
  induction k generalizing s xs with
  | zero =>
      rw [Nat.zero_mul, List.length_eq_zero_iff] at h
      rw [h]
      rfl
  | succ k ih =>
      rw [Nat.succ_mul] at h
      have htake : (xs.take B).length = B := by rw [List.length_take]; omega
      have hdrop : (xs.drop B).length = k * B := by rw [List.length_drop]; omega
      have hfirst : absorb B f (s, []) (xs.take B) = (f s (xs.take B), []) :=
        absorb_fill hB (by rw [htake]; exact Nat.zero_add B)
      calc absorb B f (s, []) xs
          = absorb B f (absorb B f (s, []) (xs.take B)) (xs.drop B) := by
            rw [← absorb_append, List.take_append_drop]
        _ = absorb B f (f s (xs.take B), []) (xs.drop B) := by rw [hfirst]
        _ = ((blocks B (k + 1) xs).foldl f s, []) := ih _ hdrop

end Meili.Lib
