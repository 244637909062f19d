/-
  Meili.Allocator.Conservation — no resource unit is created or lost.

  `Ledger` is the double-entry invariant of one call: what a snic has left
  and what was booked on it add up to what it started with, and so do the
  open demand of a stage and what was booked for it.  Every branch of
  `allocate_one_snic` is a `grant`, and a grant is one entry on both sides.

  `resourceAllocation_conserves` carries it over the calls of a
  `ClusterRun`: nothing is over-booked across applications.
-/
import Meili.Allocator.Run

namespace Meili.Allocator

open Meili.Lib

variable {k : ℕ}

/-- The books of one call are balanced against its initial `T₀` and `G₀`. -/
structure Ledger {m : ℕ} (T₀ : Fin k → Vec) (G₀ : Fin m → Vec) (σ : Alloc k m) : Prop where
  supply : ∀ n i, σ.T n i + ∑ s, σ.A s n i = T₀ n i
  demand : ∀ s i, σ.G s i + ∑ n, σ.A s n i = G₀ s i

/-- A grant of any amount keeps the books balanced. -/
theorem Ledger.grant {m : ℕ} {T₀ : Fin k → Vec} {G₀ : Fin m → Vec} {σ : Alloc k m}
    (hL : Ledger T₀ G₀ σ) (hot : Fin m → Fin 3) (W : Fin m → Vec) (n : Fin k) (s : Fin m) (x : ℚ) :
    Ledger T₀ G₀ (grant hot W σ n s x) where
  supply := by
    intro n' i
    -- one entry of column `n` grows by what `T[n]` loses
    have hsum : ∑ s', (Allocator.grant hot W σ n s x).A s' n' i
        = ∑ s', σ.A s' n' i + if n' = n ∧ i = hot s then x else 0 := by
      simp only [grant_A, Finset.sum_add_distrib]
      congr 1
      simp only [ite_and, Finset.sum_ite_eq', Finset.mem_univ, if_true]
    rw [hsum, grant_T, ← hL.supply n' i]
    ring
  demand := by
    intro s' i
    -- one entry of row `s` grows by what `G[s]` loses
    have hsum : ∑ n', (Allocator.grant hot W σ n s x).A s' n' i
        = ∑ n', σ.A s' n' i + if s' = s ∧ i = hot s then x else 0 := by
      simp only [grant_A, Finset.sum_add_distrib]
      congr 1
      by_cases hs : s' = s
      · simp only [hs, true_and, ite_and, Finset.sum_ite_eq', Finset.mem_univ, if_true]
      · simp [hs]
    rw [hsum, grant_G, ← hL.demand s' i]
    ring

theorem Ledger.step {m : ℕ} {T₀ : Fin k → Vec} {G₀ : Fin m → Vec} {hot : Fin m → Fin 3}
    {S : List (Fin m)} {N : List (Fin k)} {W : Fin m → Vec} (hW : UnitCost hot W)
    {c c' : Conf k m} (hσ : Sane hot c.state) (hL : Ledger T₀ G₀ c.state)
    (hstep : resourceAllocationStep S N W c = some c') : Ledger T₀ G₀ c'.state := by
  obtain ⟨-, hcase⟩ := step_cases hW hσ hstep
  cases hcase with
  | leave s rest htodo hG heq => rw [heq]; exact hL
  | noSnic s rest htodo hG hpy heq => rw [heq]; exact hL
  | book s rest n htodo hG hpy hroom heq => rw [heq]; exact hL.grant hot W n s _
  | short s rest n htodo hG hpy hroom heq => rw [heq]; exact hL

section Call

variable {app : Application} {N : List (Fin k)} {T : Fin k → Vec} {B : Fin k → ℚ}
  {c : Conf k app.m}

/-- The books are balanced in every configuration of a call. -/
theorem Application.Reach.ledger (h : app.Reach N T B c)
    (hT : ∀ n i, 0 ≤ T n i) (hB : ∀ n, 0 ≤ B n) : Ledger T app.G c.state := by
  refine Reaches.invariant_reachable (fun c => Ledger T app.G c.state) ?_ ?_ h
  · constructor
    · intro n i
      simp [Application.start]
    · intro s i
      simp [Application.start]
  · intro x y hx hL hs
    exact hL.step app.unitCost (Application.Reach.sane hx hT hB) hs

end Call

/-- Between two calls `T` and `B` are non-negative and the books of the
finished calls balance `T` against the initial `T₀`. -/
theorem ClusterRun.balanced {N : List (Fin k)} {T₀ T : Fin k → Vec} {B₀ B : Fin k → ℚ}
    {past : List (Placement k)} (hT₀ : ∀ n i, 0 ≤ T₀ n i) (hB₀ : ∀ n, 0 ≤ B₀ n)
    (h : ClusterRun N T₀ B₀ past T B) :
    (∀ n i, 0 ≤ T n i) ∧ (∀ n, 0 ≤ B n)
      ∧ (∀ n i, T n i + (past.map fun p => p.total n i).sum = T₀ n i)
      ∧ (∀ p ∈ past, ∀ s n i, 0 ≤ p.A s n i) := by
  induction h with
  | init => exact ⟨hT₀, hB₀, fun n i => by simp, fun p hp => absurd hp (by simp)⟩
  | @call past T B app c hpast hreach hret ih =>
      obtain ⟨hT, hB, hsum, hpos⟩ := ih
      have hσ := hreach.sane hT hB
      have hL := hreach.ledger hT hB
      refine ⟨hσ.T_nonneg, hσ.B_nonneg, ?_, ?_⟩
      · intro n i
        -- the books of this call on top of those of the calls before it
        rw [← hsum n i, ← hL.supply n i, List.map_append, List.sum_append]
        simp only [List.map_cons, List.map_nil, List.sum_cons, List.sum_nil, Placement.total]
        ring
      · intro p hp
        rcases List.mem_append.mp hp with hp | hp
        · exact hpos p hp
        · rw [List.mem_singleton.mp hp]
          exact hσ.A_nonneg

/-- **Resource conservation.**  In every configuration of every call of a
sequence of applications on one cluster, supply and demand are exactly
accounted for and nothing is negative; when the call returns, each of its
stages got its demand, and no snic is booked beyond what it had. -/
theorem resourceAllocation_conserves (N : List (Fin k)) (T₀ : Fin k → Vec) (B₀ : Fin k → ℚ)
    (hT₀ : ∀ n i, 0 ≤ T₀ n i) (hB₀ : ∀ n, 0 ≤ B₀ n)
    (past : List (Placement k)) (T : Fin k → Vec) (B : Fin k → ℚ)
    (hrun : ClusterRun N T₀ B₀ past T B)
    (app : Application) (c : Conf k app.m) (hc : app.Reach N T B c) :
    (∀ n i, c.state.T n i + ((past.map fun p => p.total n i).sum + ∑ s, c.state.A s n i)
        = T₀ n i)
      ∧ (∀ s i, c.state.G s i + ∑ n, c.state.A s n i = app.G s i)
      ∧ (∀ n i, 0 ≤ c.state.T n i) ∧ (∀ s i, 0 ≤ c.state.G s i)
      ∧ (∀ s n i, 0 ≤ c.state.A s n i) ∧ (∀ p ∈ past, ∀ s n i, 0 ≤ p.A s n i)
      ∧ (c.Returned → ∀ s ∈ app.S, ∀ i, ∑ n, c.state.A s n i = app.G s i)
      ∧ (∀ n i, (past.map fun p => p.total n i).sum + ∑ s, c.state.A s n i ≤ T₀ n i) := by
  obtain ⟨hT, hB, hsum, hpos⟩ := hrun.balanced hT₀ hB₀
  have hσ := hc.sane hT hB
  have hL := hc.ledger hT hB
  have hsupply : ∀ n i, c.state.T n i
      + ((past.map fun p => p.total n i).sum + ∑ s, c.state.A s n i) = T₀ n i := by
    intro n i
    rw [← hsum n i, ← hL.supply n i]
    ring
  refine ⟨hsupply, hL.demand, hσ.T_nonneg, hσ.G_nonneg, hσ.A_nonneg, hpos, ?_, ?_⟩
  · intro hret s hs i
    -- the loop has left every stage, with its demand met
    have hz := hc.met_of_returned hT hB hret s hs
    rw [← hL.demand s i, hz, zeroVec_apply, zero_add]
  · intro n i
    linarith [hsupply n i, hσ.T_nonneg n i]

/-! ## Two applications on one snic. -/

/-- `oneCore` on a snic with 20 cores, run to its end. -/
def firstCall : Conf 1 oneCore.m :=
  runFor (oneCore.step oneSnic) 2 (oneCore.start twentyCores fun _ => 100)

/-- `twoStages` on what `firstCall` leaves, after its first booking. -/
def secondCall : Conf 1 twoStages.m :=
  runFor (twoStages.step oneSnic) 1 (twoStages.start firstCall.state.T firstCall.state.B)

theorem secondCall_conserves :
    (∀ n i, secondCall.state.T n i
        + (([⟨1, firstCall.state.A⟩] : List (Placement 1)).map fun p => p.total n i).sum
        + ∑ s, secondCall.state.A s n i = twentyCores n i)
      ∧ secondCall.state.A (0 : Fin 2) 0 0 = 5 := by
  have hpast : ClusterRun oneSnic twentyCores (fun _ => 100)
      ([] ++ [⟨oneCore.m, firstCall.state.A⟩]) firstCall.state.T firstCall.state.B :=
    .call oneCore firstCall .init (reaches_runFor 2 _) ⟨by decide +kernel, by decide +kernel⟩
  refine ⟨fun n i => ?_, by decide +kernel⟩
  rw [add_assoc]
  exact (resourceAllocation_conserves oneSnic twentyCores (fun _ => 100)
    (by decide +kernel) (by decide +kernel) _ _ _ hpast twoStages secondCall
    (reaches_runFor 1 _)).1 n i

end Meili.Allocator
