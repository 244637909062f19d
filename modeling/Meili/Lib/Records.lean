/-
  Meili.Lib.Records — an array of records of one size, as one block of cells.

    • `overwrite`: some cells of a list are written anew;
    • `record`: the cells of one record; a write inside of one record is a write to it
      (`record_overwrite_self`) and leaves the others alone (`record_overwrite_of_ne`).
-/
import Mathlib.Data.List.Basic

namespace Meili.Lib

variable {α : Type*} {l new : List α} {pos n i j k : ℕ}

/-! ## §1. Writing. -/

/-- `l` with `new` from `pos` on. -/
def overwrite (l : List α) (pos : ℕ) (new : List α) : List α :=
  l.take pos ++ new ++ l.drop (pos + new.length)

theorem length_overwrite (h : pos + new.length ≤ l.length) :
    (overwrite l pos new).length = l.length := by
  unfold overwrite
  rw [List.length_append, List.length_append, List.length_take, List.length_drop]
  omega

/-- **What a write leaves**, cell by cell. -/
theorem getElem?_overwrite (h : pos + new.length ≤ l.length) (k : ℕ) :
    (overwrite l pos new)[k]?
      = if pos ≤ k ∧ k < pos + new.length then new[k - pos]? else l[k]? := by
  have htake : (l.take pos).length = pos := List.length_take_of_le (by omega)
  unfold overwrite
  rw [List.append_assoc]
  by_cases hlow : pos ≤ k
  · rw [List.getElem?_append_right (by omega), htake]
    by_cases hhigh : k < pos + new.length
    · rw [if_pos ⟨hlow, hhigh⟩, List.getElem?_append_left (by omega)]
    · rw [if_neg fun hin => hhigh hin.2, List.getElem?_append_right (by omega),
        List.getElem?_drop]
      congr 1
      omega
  · rw [if_neg fun hin => hlow hin.1, List.getElem?_append_left (by omega),
      List.getElem?_take, if_pos (by omega)]

/-! ## §2. Records. -/

/-- Record `i` of an array of records of `n` cells. -/
def record (n : ℕ) (l : List α) (i : ℕ) : List α := (l.drop (i * n)).take n

theorem getElem?_record (k : ℕ) :
    (record n l i)[k]? = if k < n then l[i * n + k]? else none := by
  unfold record
  rw [List.getElem?_take, List.getElem?_drop]

theorem length_record (h : (i + 1) * n ≤ l.length) : (record n l i).length = n := by
  rw [Nat.add_mul, Nat.one_mul] at h
  unfold record
  rw [List.length_take, List.length_drop]
  omega

/-- **A write to a record.** -/
theorem record_overwrite_self (hi : (i + 1) * n ≤ l.length) (hpos : pos + new.length ≤ n) :
    record n (overwrite l (i * n + pos) new) i = overwrite (record n l i) pos new := by
  have hlen := length_record hi
  rw [Nat.add_mul, Nat.one_mul] at hi
  refine List.ext_getElem? fun k => ?_
  rw [getElem?_record, getElem?_overwrite (by omega), getElem?_overwrite (by omega),
    getElem?_record]
  by_cases hk : k < n
  · rw [if_pos hk, if_pos hk, Nat.add_sub_add_left]
    simp only [Nat.add_le_add_iff_left, Nat.add_assoc, Nat.add_lt_add_iff_left]
  · rw [if_neg hk, if_neg hk, if_neg (by omega)]

/-- **The other records.** -/
theorem record_overwrite_of_ne (hi : (i + 1) * n ≤ l.length) (hpos : pos + new.length ≤ n)
    (hij : j ≠ i) : record n (overwrite l (i * n + pos) new) j = record n l j := by
  rw [Nat.add_mul, Nat.one_mul] at hi
  refine List.ext_getElem? fun k => ?_
  rw [getElem?_record, getElem?_record]
  by_cases hk : k < n
  · rw [if_pos hk, if_pos hk, getElem?_overwrite (by omega), if_neg]
    -- the records in front of `i` end before it, those behind it begin after it
    rcases Nat.lt_or_gt_of_ne hij with hlt | hgt
    · have hend : (j + 1) * n ≤ i * n := Nat.mul_le_mul_right n hlt
      rw [Nat.add_mul, Nat.one_mul] at hend
      omega
    · have hbegin : (i + 1) * n ≤ j * n := Nat.mul_le_mul_right n hgt
      rw [Nat.add_mul, Nat.one_mul] at hbegin
      omega
  · rw [if_neg hk, if_neg hk]

theorem record_replicate (x : α) {m : ℕ} (h : (i + 1) * n ≤ m) :
    record n (List.replicate m x) i = List.replicate n x := by
  rw [Nat.add_mul, Nat.one_mul] at h
  unfold record
  rw [List.drop_replicate, List.take_replicate, Nat.min_eq_left (by omega)]

end Meili.Lib
