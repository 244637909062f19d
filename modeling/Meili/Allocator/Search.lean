/-
  Meili.Allocator.Search — `find_next_snic` returns the best snic that passes its tests.

  The sort of `find_next_snic` ranks all snics, those that its tests skip as well;
  the loop behind it takes the first one that is not skipped.  That is a selection
  (`Meili.Lib.Selection`): the snic found has the greatest key of the eligible ones,
  and comes first in `N` among those with this key.

  What the key and the tests mean is stated apart from the tuples of the script:
  `RanksUpTo` compares two snics by co-location, allocatable bandwidth and resources,
  the demanded kind first, and `keySnic_le_iff` says that the tuples compare so.
-/
import Meili.Allocator.Model
import Meili.Lib.Selection

namespace Meili.Allocator

open Meili.Lib

variable {k m : ℕ} (S : List (Fin m)) (N : List (Fin k)) (W : Fin m → Vec) (σ : Alloc k m)
  (s : Fin m)

theorem sortedSnics_eq_descending : sortedSnics S N W σ s = descending (keySnic S W σ s) N := rfl

/-- The loop of `find_next_snic` is a selection by `key_snic`. -/
theorem findNextSnic_firstBest {n : Fin k} (h : findNextSnic S N W σ s = some n) :
    FirstBest (keySnic S W σ s) (fun n => !skips W σ s n) N n := by
  unfold findNextSnic at h
  rw [sortedSnics_eq_descending] at h
  exact firstBest_of_find? h

theorem not_skips_iff (n : Fin k) : (!skips W σ s n) = true ↔ Eligible W σ s n := by
  rw [Bool.not_eq_true', skips_eq_false_iff]

/-! ## What the keys and the tests say. -/

/-- Another stage of the application is on snic `n`. -/
def Colocated (n : Fin k) : Prop := ∃ stage ∈ S, stage ≠ s ∧ ∃ i, σ.A stage n i ≠ 0

/-- The bandwidth snic `n` can give to stage `s`: what it has left, and what the
parent stage already brings to it. -/
def allocatableBw (n : Fin k) : ℚ :=
  σ.B n + if h : s.val = 0 then 0
    else Finset.univ.sup' Finset.univ_nonempty fun i => σ.A (parent s h) n i * W (parent s h) i

/-- Kind `i` is the only one the demand `g` asks for. -/
def DemandsOnly (g : Vec) (i : Fin 3) : Prop := g i ≠ 0 ∧ ∀ j, j ≠ i → g j = 0

instance (g : Vec) (i : Fin 3) : Decidable (DemandsOnly g i) :=
  inferInstanceAs (Decidable (_ ∧ _))

/-- The kinds of resources as the demand `g` ranks them: the one it asks for first, when
it asks for one only. -/
def kindsByDemand (g : Vec) : List (Fin 3) :=
  match (List.finRange 3).find? fun i => decide (DemandsOnly g i) with
  | some i => i :: (List.finRange 3).erase i
  | none => List.finRange 3

theorem kindsByDemand_of_only {g : Vec} {i : Fin 3} (h : DemandsOnly g i) :
    kindsByDemand g = i :: (List.finRange 3).erase i := by
  have hunique : ∀ j, DemandsOnly g j → j = i := by
    intro j hj
    by_contra hne
    exact hj.1 (h.2 j hne)
  unfold kindsByDemand
  cases hfind : (List.finRange 3).find? fun i => decide (DemandsOnly g i) with
  | none =>
      have hnone := List.find?_eq_none.mp hfind i (List.mem_finRange i)
      exact absurd (decide_eq_true h) hnone
  | some j =>
      have honly : decide (DemandsOnly g j) = true :=
        List.find?_some (p := fun i => decide (DemandsOnly g i)) hfind
      rw [hunique j (of_decide_eq_true honly)]

theorem kindsByDemand_of_none {g : Vec} (h : ∀ i, ¬ DemandsOnly g i) :
    kindsByDemand g = List.finRange 3 := by
  unfold kindsByDemand
  rw [List.find?_eq_none.mpr fun i _ => by simpa using h i]

/-- The resources of snic `n` in the order in which stage `s` ranks their kinds. -/
def rankedResources (n : Fin k) : List ℚ := (kindsByDemand (σ.G s)).map (σ.T n)

/-- Snic `n'` ranks no higher than `n` for stage `s`: by co-location, then allocatable
bandwidth, then resources. -/
def RanksUpTo (n' n : Fin k) : Prop :=
  ¬ Colocated S σ s n' ∧ Colocated S σ s n
    ∨ (Colocated S σ s n' ↔ Colocated S σ s n)
        ∧ (allocatableBw W σ s n' < allocatableBw W σ s n
          ∨ allocatableBw W σ s n' = allocatableBw W σ s n
              ∧ rankedResources σ s n' ≤ rankedResources σ s n)

theorem locationKey_eq (n : Fin k) :
    locationKey S n σ.A s = 1 ∧ Colocated S σ s n
      ∨ locationKey S n σ.A s = 0 ∧ ¬ Colocated S σ s n := by
  have hany : S.any (fun stage => decide (stage ≠ s) && !resourceEq (σ.A stage n) zeroVec)
      = true ↔ Colocated S σ s n := by
    simp [Colocated, List.any_eq_true, Bool.eq_false_iff, funext_iff]
  unfold locationKey
  by_cases h : Colocated S σ s n
  · exact Or.inl ⟨if_pos (hany.mpr h), h⟩
  · exact Or.inr ⟨if_neg fun hkey => h (hany.mp hkey), h⟩

theorem sup'_kinds (f : Fin 3 → ℚ) :
    Finset.univ.sup' Finset.univ_nonempty f = max (max (f 0) (f 1)) (f 2) := by
  apply le_antisymm
  · apply Finset.sup'_le
    intro i _
    fin_cases i <;> simp
  · exact max_le (max_le (Finset.le_sup' f (Finset.mem_univ 0))
      (Finset.le_sup' f (Finset.mem_univ 1))) (Finset.le_sup' f (Finset.mem_univ 2))

theorem bwKey_eq (n : Fin k) : bwKey W n σ.B σ.A s = allocatableBw W σ s n := by
  unfold bwKey calculateSharableBw allocatableBw
  rw [add_comm]
  split
  · rfl
  · rw [sup'_kinds]

/-- The tuple of `key_snic`: location, bandwidth, and the resources by rank. -/
theorem keySnic_eq (n : Fin k) :
    ∃ x y z, rankedResources σ s n = [x, y, z]
      ∧ keySnic S W σ s n
          = toLex (locationKey S n σ.A s, toLex (allocatableBw W σ s n,
              toLex (x, toLex (y, z)))) := by
  rw [← bwKey_eq]
  unfold keySnic rankedResources
  dsimp only
  -- one case for each kind that is demanded alone, and the default order
  split_ifs with h0 h1 h2
  · rw [kindsByDemand_of_only ⟨h0.1, by simp [Fin.forall_fin_succ, h0]⟩]
    exact ⟨_, _, _, rfl, rfl⟩
  · rw [kindsByDemand_of_only (i := 1) ⟨h1.2.1, by simp [Fin.forall_fin_succ, h1]⟩]
    exact ⟨_, _, _, rfl, rfl⟩
  · rw [kindsByDemand_of_only (i := 2) ⟨h2.2.2, by simp [Fin.forall_fin_succ, h2]⟩]
    exact ⟨_, _, _, rfl, rfl⟩
  · rw [kindsByDemand_of_none]
    · exact ⟨_, _, _, rfl, rfl⟩
    · intro i honly
      fin_cases i
      · exact h0 ⟨honly.1, honly.2 1 (by decide), honly.2 2 (by decide)⟩
      · exact h1 ⟨honly.2 0 (by decide), honly.1, honly.2 2 (by decide)⟩
      · exact h2 ⟨honly.2 0 (by decide), honly.2 1 (by decide), honly.1⟩

theorem keySnic_le_iff (n' n : Fin k) :
    keySnic S W σ s n' ≤ keySnic S W σ s n ↔ RanksUpTo S W σ s n' n := by
  obtain ⟨x', y', z', hres', hkey'⟩ := keySnic_eq S W σ s n'
  obtain ⟨x, y, z, hres, hkey⟩ := keySnic_eq S W σ s n
  have hlist : rankedResources σ s n' ≤ rankedResources σ s n
      ↔ x' < x ∨ x' = x ∧ (y' < y ∨ y' = y ∧ z' ≤ z) := by
    rw [hres', hres]
    simp only [le_iff_lt_or_eq, List.cons_lt_cons_iff, List.cons.injEq, lt_self_iff_false]
    tauto
  rw [hkey', hkey]
  simp only [Prod.Lex.toLex_le_toLex]
  unfold RanksUpTo
  rw [hlist]
  rcases locationKey_eq S σ s n' with ⟨hl', hc'⟩ | ⟨hl', hc'⟩ <;>
    rcases locationKey_eq S σ s n with ⟨hl, hc⟩ | ⟨hl, hc⟩ <;>
    simp [hl', hl, hc', hc]

/-- The tests of the ladder in plain terms. -/
theorem eligible_iff (n : Fin k) :
    Eligible W σ s n ↔
      (∃ i, 0 < σ.T n i) ∧ (∀ i, σ.A s n i ≤ 0) ∧ (∀ i, σ.G s i ≠ 0 → σ.T n i ≠ 0)
        ∧ allocatableBw W σ s n ≠ 0 := by
  have hres : resourceGeq zeroVec (σ.T n) = false ↔ ∃ i, 0 < σ.T n i := by
    rw [← Bool.not_eq_true, resourceGeq_iff]
    simp
  have hused : resourceGeq zeroVec (σ.A s n) = true ↔ ∀ i, σ.A s n i ≤ 0 := by
    rw [resourceGeq_iff]
    simp
  rw [← hres, ← hused, ← bwKey_eq]
  exact ⟨fun h => ⟨h.resource, h.unused, h.available, h.bandwidth⟩,
    fun ⟨h1, h2, h3, h4⟩ => ⟨h1, h2, h3, h4⟩⟩

/-- **`find_next_snic` returns the best eligible snic.**  It returns -1 when no snic of
`N` passes the tests, and only then; otherwise the snic it returns passes them, no
other that does has a greater key, and every one in front of it in `N` has a smaller
key.  The keys compare by co-location, bandwidth and resources, and the tests are those of
resources, use, demand and bandwidth. -/
theorem findNextSnic_best :
    (findNextSnic S N W σ s = none ↔ ∀ n ∈ N, ¬ Eligible W σ s n)
      ∧ (∀ n, findNextSnic S N W σ s = some n →
          Eligible W σ s n
            ∧ (∀ n' ∈ N, Eligible W σ s n' → keySnic S W σ s n' ≤ keySnic S W σ s n)
            ∧ ∃ i : ℕ, N[i]? = some n ∧ ∀ j < i, ∀ n', N[j]? = some n' →
                Eligible W σ s n' → keySnic S W σ s n' < keySnic S W σ s n)
      ∧ (∀ n' n, keySnic S W σ s n' ≤ keySnic S W σ s n ↔ RanksUpTo S W σ s n' n)
      ∧ ∀ n, Eligible W σ s n ↔
          (∃ i, 0 < σ.T n i) ∧ (∀ i, σ.A s n i ≤ 0) ∧ (∀ i, σ.G s i ≠ 0 → σ.T n i ≠ 0)
            ∧ allocatableBw W σ s n ≠ 0 := by
  refine ⟨?_, ?_, keySnic_le_iff S W σ s, eligible_iff W σ s⟩
  · constructor
    · exact findNextSnic_none S N W
    · intro hnone
      unfold findNextSnic
      rw [sortedSnics_eq_descending, find?_descending_eq_none_iff]
      intro n hn
      by_contra hskip
      rw [Bool.not_eq_false, not_skips_iff] at hskip
      exact hnone n hn hskip
  · intro n h
    have hbest := findNextSnic_firstBest S N W σ s h
    refine ⟨(not_skips_iff W σ s n).mp hbest.pass, ?_, ?_⟩
    · intro n' hn' helig
      exact hbest.best n' hn' ((not_skips_iff W σ s n').mpr helig)
    · obtain ⟨i, hi, hearlier⟩ := hbest.first
      refine ⟨i, hi, fun j hj n' hn' helig => ?_⟩
      exact hearlier j hj n' hn' ((not_skips_iff W σ s n').mpr helig)

end Meili.Allocator
