/-
  Meili.Lib.Comparator — comparators, sorting, and order statistics.

  A comparator returns a number below, at or above zero, or nothing where it is
  undefined.

    §1  comparators that a sort can rely on, and those that agree with an order;
    §2  what a sort makes of a list, and a sort that does;
    §3  the entries of an ascending list as order statistics.
-/
import Mathlib.Data.List.Sort
import Mathlib.Order.Basic
import Mathlib.Data.Int.Order.Basic

namespace Meili.Lib

/-- A comparison of two values. -/
abbrev Comparator (α : Type) := α → α → Option ℤ

namespace Comparator

variable {α : Type} {cmp : Comparator α} {xs ys : List α}

/-! ## §1. Consistent comparators. -/

/-- On the entries of `xs`, `cmp` is a total preorder. -/
structure Consistent (cmp : Comparator α) (xs : List α) : Prop where
  defined : ∀ a ∈ xs, ∀ b ∈ xs, ∃ d, cmp a b = some d
  antisymm : ∀ a ∈ xs, ∀ b ∈ xs, ∀ d e, cmp a b = some d → cmp b a = some e →
    (d < 0 ↔ 0 < e)
  trans : ∀ a ∈ xs, ∀ b ∈ xs, ∀ c ∈ xs, ∀ d e f, cmp a b = some d → cmp b c = some e →
    cmp a c = some f → d ≤ 0 → e ≤ 0 → f ≤ 0

/-- On the entries of `xs`, `cmp` says what the order of the values is. -/
def Agrees [LinearOrder α] (cmp : Comparator α) (xs : List α) : Prop :=
  ∀ a ∈ xs, ∀ b ∈ xs, ∃ d, cmp a b = some d ∧ (d < 0 ↔ a < b) ∧ (0 < d ↔ b < a)

theorem Agrees.le_iff [LinearOrder α] (h : Agrees cmp xs) {a b : α} (ha : a ∈ xs) (hb : b ∈ xs)
    {d : ℤ} (hd : cmp a b = some d) : d ≤ 0 ↔ a ≤ b := by
  obtain ⟨d', hd', -, hgt⟩ := h a ha b hb
  rw [hd] at hd'
  cases hd'
  rw [← not_lt, ← not_lt, hgt]

/-- **A comparator that agrees with an order** is consistent. -/
theorem Agrees.consistent [LinearOrder α] (h : Agrees cmp xs) : Consistent cmp xs where
  defined a ha b hb := (h a ha b hb).imp fun _ hd => hd.1
  antisymm a ha b hb d e hd he := by
    obtain ⟨d', hd', hlt, -⟩ := h a ha b hb
    obtain ⟨e', he', -, hgt⟩ := h b hb a ha
    rw [hd] at hd'
    rw [he] at he'
    cases hd'
    cases he'
    rw [hlt, hgt]
  trans a ha b hb c hc d e f hd he hf hd0 he0 := by
    have hab := (h.le_iff ha hb hd).mp hd0
    have hbc := (h.le_iff hb hc he).mp he0
    exact (h.le_iff ha hc hf).mpr (hab.trans hbc)

/-! ## §2. Sorting. -/

/-- `ys` is `xs` sorted by `cmp`. -/
structure Sorts (cmp : Comparator α) (xs ys : List α) : Prop where
  perm : ys.Perm xs
  sorted : ys.Pairwise fun a b => ∃ d, cmp a b = some d ∧ d ≤ 0

/-- **Sorted by a comparator that agrees**, a list is ascending. -/
theorem Sorts.ascending [LinearOrder α] (h : Sorts cmp xs ys) (hcmp : Agrees cmp xs) :
    ys.Pairwise (· ≤ ·) := by
  apply h.sorted.imp_of_mem
  intro a b ha hb hab
  obtain ⟨d, hd, hle⟩ := hab
  exact (hcmp.le_iff (h.perm.mem_iff.mp ha) (h.perm.mem_iff.mp hb) hd).mp hle

/-- What a sort may be relied on for: it sorts wherever the comparator is consistent. -/
def SortsConsistent (sort : Comparator α → List α → List α) : Prop :=
  ∀ cmp xs, Consistent cmp xs → Sorts cmp xs (sort cmp xs)

/-- A merge sort by `cmp`. -/
def sort (cmp : Comparator α) (xs : List α) : List α :=
  xs.mergeSort fun a b => (cmp a b).all (· ≤ 0)

/-- The comparisons of a list's own entries. -/
def leOn (cmp : Comparator α) (xs : List α) (a b : {x // x ∈ xs}) : Bool :=
  (cmp a.1 b.1).all (· ≤ 0)

theorem Consistent.leOn_iff (h : Consistent cmp xs) (a b : {x // x ∈ xs}) :
    leOn cmp xs a b = true ↔ ∃ d, cmp a.1 b.1 = some d ∧ d ≤ 0 := by
  obtain ⟨d, hd⟩ := h.defined a.1 a.2 b.1 b.2
  unfold leOn
  rw [hd]
  simp

theorem Consistent.leOn_trans (h : Consistent cmp xs) (a b c : {x // x ∈ xs})
    (hab : leOn cmp xs a b = true) (hbc : leOn cmp xs b c = true) : leOn cmp xs a c = true := by
  obtain ⟨d, hd, hd0⟩ := (h.leOn_iff a b).mp hab
  obtain ⟨e, he, he0⟩ := (h.leOn_iff b c).mp hbc
  obtain ⟨f, hf⟩ := h.defined a.1 a.2 c.1 c.2
  exact (h.leOn_iff a c).mpr ⟨f, hf, h.trans a.1 a.2 b.1 b.2 c.1 c.2 d e f hd he hf hd0 he0⟩

theorem Consistent.leOn_total (h : Consistent cmp xs) (a b : {x // x ∈ xs}) :
    (leOn cmp xs a b || leOn cmp xs b a) = true := by
  obtain ⟨d, hd⟩ := h.defined a.1 a.2 b.1 b.2
  obtain ⟨e, he⟩ := h.defined b.1 b.2 a.1 a.2
  rw [Bool.or_eq_true]
  by_cases hle : d ≤ 0
  · exact Or.inl ((h.leOn_iff a b).mpr ⟨d, hd, hle⟩)
  · have hanti := h.antisymm b.1 b.2 a.1 a.2 e d he hd
    exact Or.inr ((h.leOn_iff b a).mpr ⟨e, he, by omega⟩)

/-- **The merge sort** can be relied on. -/
theorem sort_sorts : SortsConsistent (sort (α := α)) := by
  intro cmp xs h
  refine ⟨List.mergeSort_perm xs _, ?_⟩
  have hsorted := List.pairwise_mergeSort h.leOn_trans h.leOn_total xs.attach
  have hval : (xs.attach.mergeSort (leOn cmp xs)).map Subtype.val = sort cmp xs := by
    unfold sort
    rw [List.map_mergeSort (r := leOn cmp xs) (s := fun a b => (cmp a b).all (· ≤ 0))
      (fun _ _ _ _ => rfl), List.attach_map_subtype_val]
  rw [← hval, List.pairwise_map]
  exact hsorted.imp fun {a b} hab => (h.leOn_iff a b).mp hab

end Comparator

/-! ## §3. Order statistics. -/

section OrderStatistics

variable {α : Type} [LinearOrder α] {ys : List α}

/-- **Entry `i` of an ascending list** has `i + 1` entries that are not above it. -/
theorem lt_countP_of_ascending (h : ys.Pairwise (· ≤ ·)) {i : ℕ} (hi : i < ys.length) :
    i < ys.countP (· ≤ ys[i]) := by
  have hfirst : ∀ y ∈ ys.take (i + 1), decide (y ≤ ys[i]) = true := by
    intro y hy
    obtain ⟨j, hj, rfl⟩ := List.getElem_of_mem hy
    rw [List.length_take] at hj
    rw [List.getElem_take, decide_eq_true_eq]
    rcases Nat.lt_or_ge j i with hlt | hge
    · exact List.pairwise_iff_getElem.mp h j i _ hi hlt
    · exact le_of_eq (by congr 1; omega)
  have hcount : (ys.take (i + 1)).countP (· ≤ ys[i]) = i + 1 := by
    rw [List.countP_eq_length.mpr hfirst, List.length_take]
    omega
  have hle : (ys.take (i + 1)).countP (· ≤ ys[i]) ≤ ys.countP (· ≤ ys[i]) :=
    (List.take_sublist _ _).countP_le
  omega

end OrderStatistics

end Meili.Lib
