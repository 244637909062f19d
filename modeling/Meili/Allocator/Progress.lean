/-
  Meili.Allocator.Progress — what one call of `allocate_one_snic` achieves.

  `find_next_snic` rejects a snic whose allocatable bandwidth is exactly zero,
  and accepts every smaller amount than one unit needs.  There
  `allocate_on_bw` rounds down to no unit at all, and the cost that
  `resource_get_one_hot` recovers from it is `None`.  So a call on the snic
  found makes progress exactly when the bandwidth does not bind, or carries at
  least one unit (`HasRoom`).
-/
import Meili.Allocator.Termination

namespace Meili.Allocator

open Meili.Lib

variable {k : ℕ}

/-- The call of `allocate_one_snic` for stage `s` on snic `n` raises nothing
and places something: demand and supply of the demanded component shrink, and
the entry of the stage on that snic grows. -/
structure MakesProgress (app : Application) (σ : Alloc k app.m) (n : Fin k) (s : Fin app.m) :
    Prop where
  noError : (allocateOneSnic app.W σ n s).2 = none
  demand : (allocateOneSnic app.W σ n s).1.G s (app.hot s) < σ.G s (app.hot s)
  supply : (allocateOneSnic app.W σ n s).1.T n (app.hot s) < σ.T n (app.hot s)
  placed : σ.A s n (app.hot s) < (allocateOneSnic app.W σ n s).1.A s n (app.hot s)

section Call

variable {app : Application} {σ : Alloc k app.m} {n : Fin k} {s : Fin app.m}

/-- With room the offer is booked, and it is positive. -/
theorem MakesProgress.of_hasRoom (hσ : Sane app.hot σ) (hG : 0 < σ.G s (app.hot s))
    (hT : 0 < σ.T n (app.hot s)) (hroom : HasRoom app.hot app.W σ n s) :
    MakesProgress app σ n s := by
  have hpos := offer_pos app.unitCost hroom hG hT
  have hcall : allocateOneSnic app.W σ n s
      = (grant app.hot app.W σ n s (offer app.hot app.W σ n s), none) := by
    rw [allocateOneSnic_eq app.unitCost hσ, if_pos hroom]
  refine ⟨by rw [hcall], ?_, ?_, ?_⟩
  · rw [hcall, grant_G, if_pos ⟨rfl, rfl⟩]
    linarith
  · rw [hcall, grant_T, if_pos ⟨rfl, rfl⟩]
    linarith
  · rw [hcall, grant_A, if_pos ⟨rfl, rfl, rfl⟩]
    linarith

/-- Without room the subtraction of the bandwidth raises a TypeError. -/
theorem MakesProgress.hasRoom (hσ : Sane app.hot σ) (h : MakesProgress app σ n s) :
    HasRoom app.hot app.W σ n s := by
  by_contra hroom
  have herr := h.noError
  rw [allocateOneSnic_eq app.unitCost hσ, if_neg hroom] at herr
  exact absurd herr (by simp)

end Call

/-- **When an allocation step makes progress.**  In every reachable state, for
every stage with a demand and the snic that `find_next_snic` returns for it:
the call raises nothing and places something if and only if the bandwidth does
not bind there, or carries at least one unit. -/
theorem allocateOneSnic_progress_iff (app : Application) (N : List (Fin k)) (T : Fin k → Vec)
    (B : Fin k → ℚ) (hT : ∀ n i, 0 ≤ T n i) (hB : ∀ n, 0 ≤ B n) (c : Conf k app.m)
    (hc : app.Reach N T B c) (s : Fin app.m) (hG : c.state.G s ≠ zeroVec) (n : Fin k)
    (hfind : findNextSnic app.S N app.W c.state s = some n) :
    MakesProgress app c.state n s ↔ HasRoom app.hot app.W c.state n s := by
  have hσ := hc.sane hT hB
  obtain ⟨-, helig⟩ := findNextSnic_some app.S N app.W hfind
  have hsupply := helig.supply_pos hσ hG
  exact ⟨fun h => h.hasRoom hσ, .of_hasRoom hσ (hσ.demand_pos hG) hsupply⟩

/-- One core at unit cost 1, on a snic with bandwidth 1/2: `find_next_snic`
returns the snic, and `allocate_one_snic` raises. -/
theorem oneCore_no_progress :
    ¬ ∀ (c : Conf 1 oneCore.m) (s : Fin oneCore.m) (n : Fin 1),
        oneCore.Reach oneSnic twentyCores (fun _ => 1 / 2) c → c.state.G s ≠ zeroVec →
          findNextSnic oneCore.S oneSnic oneCore.W c.state s = some n →
            MakesProgress oneCore c.state n s := by
  intro h
  have hG : (oneCore.start (k := 1) twentyCores (fun _ => 1 / 2)).state.G (0 : Fin 1)
      ≠ zeroVec := fun h0 => absurd (congrFun h0 0) (by decide +kernel)
  have hprog := h (oneCore.start twentyCores fun _ => 1 / 2) (0 : Fin 1) 0
    Relation.ReflTransGen.refl hG (by decide +kernel)
  exact absurd hprog.noError (by decide +kernel)

/-- The equivalence on a snic with 20 cores and bandwidth 100. -/
theorem oneCore_progress_iff :
    MakesProgress oneCore (oneCore.start (k := 1) twentyCores fun _ => 100).state 0 (0 : Fin 1)
      ↔ HasRoom oneCore.hot oneCore.W
          (oneCore.start (k := 1) twentyCores fun _ => 100).state 0 (0 : Fin 1) :=
  allocateOneSnic_progress_iff oneCore oneSnic twentyCores (fun _ => 100)
    (by decide +kernel) (by decide +kernel) (oneCore.start twentyCores fun _ => 100)
    Relation.ReflTransGen.refl (0 : Fin 1)
    (fun h0 => absurd (congrFun h0 0) (by decide +kernel)) 0 (by decide +kernel)

end Meili.Allocator
