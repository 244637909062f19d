/-
  Meili.Lib.Gaps — what is missing in an increasing list of numbers.

  `gaps e xs` are the places where a list that should count up from `e` does not: what was
  expected, and what stands there.

    • `not_mem_iff_gap` — the numbers that are missing are those in the gaps;
    • `gaps_eq_nil_iff` — without a gap the list counts up.
-/
import Mathlib.Data.List.Basic
import Mathlib.Data.List.Range

namespace Meili.Lib

/-- What was expected, and what stands there. -/
def gaps : ℕ → List ℕ → List (ℕ × ℕ)
  | _, [] => []
  | e, x :: xs => (if x ≠ e then [(e, x)] else []) ++ gaps (x + 1) xs

variable {e n : ℕ} {xs : List ℕ}

theorem mem_gaps_cons {x : ℕ} {g : ℕ × ℕ} :
    g ∈ gaps e (x :: xs) ↔ (x ≠ e ∧ g = (e, x)) ∨ g ∈ gaps (x + 1) xs := by
  rw [gaps, List.mem_append]
  by_cases hx : x = e
  · simp [hx]
  · simp [hx]

/-- Gaps lie behind what was expected first. -/
theorem le_of_mem_gaps (hsorted : xs.Pairwise (· < ·)) (hlow : ∀ x ∈ xs, e ≤ x) {g : ℕ × ℕ}
    (hg : g ∈ gaps e xs) : e ≤ g.1 := by
  induction xs generalizing e with
  | nil => cases hg
  | cons x xs ih =>
      rw [List.pairwise_cons] at hsorted
      rw [List.forall_mem_cons] at hlow
      rcases mem_gaps_cons.mp hg with ⟨-, rfl⟩ | hrest
      · exact le_refl _
      · exact hlow.1.trans ((Nat.le_succ x).trans (ih hsorted.2 hsorted.1 hrest))

/-- **What is missing** up to the last number is in a gap. -/
theorem not_mem_iff_gap (hsorted : xs.Pairwise (· < ·)) (hlow : ∀ x ∈ xs, e ≤ x) (hn : e ≤ n)
    (hlast : ∃ x ∈ xs, n ≤ x) : n ∉ xs ↔ ∃ g ∈ gaps e xs, g.1 ≤ n ∧ n < g.2 := by
  induction xs generalizing e with
  | nil =>
      obtain ⟨x, hx, -⟩ := hlast
      cases hx
  | cons x xs ih =>
      rw [List.pairwise_cons] at hsorted
      rw [List.forall_mem_cons] at hlow
      rcases Nat.lt_trichotomy n x with hlt | rfl | hgt
      · -- in front of the first number
        have hgap : (e, x) ∈ gaps e (x :: xs) := mem_gaps_cons.mpr (Or.inl ⟨by omega, rfl⟩)
        refine ⟨fun _ => ⟨(e, x), hgap, hn, hlt⟩, fun _ hmem => ?_⟩
        rcases List.mem_cons.mp hmem with rfl | hrest
        · omega
        · have hx := hsorted.1 n hrest
          omega
      · refine ⟨fun h => absurd List.mem_cons_self h, fun h => ?_⟩
        obtain ⟨g, hg, hlow', hhigh⟩ := h
        rcases mem_gaps_cons.mp hg with ⟨-, rfl⟩ | hrest
        · exact absurd hhigh (Nat.lt_irrefl n)
        · have hbehind := le_of_mem_gaps hsorted.2 hsorted.1 hrest
          omega
      · -- behind it
        obtain ⟨y, hy, hle⟩ := hlast
        have hlast' : ∃ y ∈ xs, n ≤ y := by
          rcases List.mem_cons.mp hy with rfl | hrest
          · omega
          · exact ⟨y, hrest, hle⟩
        rw [List.mem_cons, not_or, ih hsorted.2 hsorted.1 hgt hlast']
        constructor
        · intro h
          obtain ⟨-, g, hg, hbounds⟩ := h
          exact ⟨g, mem_gaps_cons.mpr (Or.inr hg), hbounds⟩
        · intro h
          obtain ⟨g, hg, hlow', hhigh⟩ := h
          rcases mem_gaps_cons.mp hg with ⟨-, rfl⟩ | hrest
          · exact absurd hhigh (by omega)
          · exact ⟨by omega, g, hrest, hlow', hhigh⟩

theorem gaps_eq_nil_iff : gaps e xs = [] ↔ xs = List.range' e xs.length := by
  induction xs generalizing e with
  | nil => simp [gaps]
  | cons x xs ih =>
      rw [gaps, List.append_eq_nil_iff, ih, List.length_cons, List.range'_succ, List.cons.injEq]
      by_cases hx : x = e
      · simp [hx]
      · simp [hx]

end Meili.Lib
