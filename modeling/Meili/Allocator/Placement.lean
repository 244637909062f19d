/-
  Meili.Allocator.Placement — where the allocator may book.

  `SoundPlacement` says that units are only placed on a snic of `N` that
  passed the tests of `find_next_snic` in that very state, which was unused
  for the stage, and that a failed search leaves all four lists alone.  The
  code books through the index `-1` instead, so this holds exactly for the
  runs in which the last snic has nothing to give whenever the search fails
  (`LastSnicIdle`).
-/
import Meili.Allocator.Termination

namespace Meili.Allocator

open Meili.Lib

variable {k : ℕ}

/-- Every placement of the run is on a snic that was eligible and unused for
the stage, and a failed search changes none of `A`, `T`, `B`, `G`. -/
structure SoundPlacement (app : Application) (N : List (Fin k)) (T : Fin k → Vec)
    (B : Fin k → ℚ) : Prop where
  eligible : ∀ c c', app.Reach N T B c → app.step N c = some c' →
    ∀ s n i, c'.state.A s n i ≠ c.state.A s n i →
      n ∈ N ∧ Eligible app.W c.state s n ∧ ∀ j, c.state.A s n j = 0
  untouched : ∀ c c' s, app.Reach N T B c → c.Entering s →
    findNextSnic app.S N app.W c.state s = none → app.step N c = some c' →
      c'.state = c.state

/-- Whenever the search fails, the last snic has none of the demanded
component, or its bandwidth binds and does not carry one unit. -/
def LastSnicIdle (app : Application) (N : List (Fin k)) (T : Fin k → Vec) (B : Fin k → ℚ) :
    Prop :=
  ∀ c s ℓ, app.Reach N T B c → c.Entering s →
    findNextSnic app.S N app.W c.state s = none → lastSnic k = some ℓ →
      c.state.T ℓ (app.hot s) = 0 ∨ ¬ HasRoom app.hot app.W c.state ℓ s

section Call

variable {app : Application} {N : List (Fin k)} {T : Fin k → Vec} {B : Fin k → ℚ}

/-- Under `LastSnicIdle` a failed search is harmless. -/
theorem LastSnicIdle.untouched (hidle : LastSnicIdle app N T B) (hT : ∀ n i, 0 ≤ T n i)
    (hB : ∀ n, 0 ≤ B n) {c c' : Conf k app.m} {s : Fin app.m} (hc : app.Reach N T B c)
    (hent : c.Entering s) (hfind : findNextSnic app.S N app.W c.state s = none)
    (hstep : app.step N c = some c') : c'.state = c.state := by
  have hσ := hc.sane hT hB
  obtain ⟨rest, htodo⟩ := hent.cons
  obtain ⟨hr, -, hG⟩ := id hent
  cases hlast : lastSnic k with
  | none =>
      -- an empty cluster: IndexError, before anything is booked
      have hpy : pySnic (findNextSnic app.S N app.W c.state s) = none := by rw [hfind]; exact hlast
      rw [← Option.some.inj ((step_call_none hr htodo hG hpy).symm.trans hstep)]
  | some ℓ =>
      have hpy : pySnic (findNextSnic app.S N app.W c.state s) = some ℓ := by
        rw [hfind]
        exact hlast
      rcases hidle c s ℓ hc hent hfind hlast with hT0 | hroom
      · -- the amount booked is 0
        have hs := step_idle app.unitCost hσ hr htodo hG hpy hT0
        rw [← Option.some.inj (hs.symm.trans hstep)]
      · -- the bandwidth carries no unit: TypeError, nothing booked
        have hs := step_short app.unitCost hσ hr htodo hG hpy hroom
        rw [← Option.some.inj (hs.symm.trans hstep)]

theorem soundPlacement_of_lastSnicIdle (hT : ∀ n i, 0 ≤ T n i) (hB : ∀ n, 0 ≤ B n)
    (hidle : LastSnicIdle app N T B) : SoundPlacement app N T B := by
  refine ⟨?_, fun c c' s hc hent hfind hs => hidle.untouched hT hB hc hent hfind hs⟩
  intro c c' hc hstep s n i hne
  have hσ := hc.sane hT hB
  obtain ⟨hr, hcase⟩ := step_cases app.unitCost hσ hstep
  cases hcase with
  | leave s₁ rest htodo hG heq => rw [heq] at hne; exact absurd rfl hne
  | noSnic s₁ rest htodo hG hpy heq => rw [heq] at hne; exact absurd rfl hne
  | short s₁ rest n₁ htodo hG hpy hroom heq => rw [heq] at hne; exact absurd rfl hne
  | book s₁ rest n₁ htodo hG hpy hroom heq =>
      have hent : c.Entering s₁ := ⟨hr, by rw [htodo]; rfl, hG⟩
      cases hfind : findNextSnic app.S N app.W c.state s₁ with
      | none =>
          -- a failed search changed nothing, so no entry differs
          rw [hidle.untouched hT hB hc hent hfind hstep] at hne
          exact absurd rfl hne
      | some n₂ =>
          rw [hfind] at hpy
          obtain rfl : n₂ = n₁ := Option.some.inj hpy
          -- the only entry that differs is the one booked
          obtain ⟨rfl, rfl, -⟩ : s = s₁ ∧ n = n₂ ∧ i = app.hot s₁ := by
            by_contra hno
            rw [heq, grant_A, if_neg hno, add_zero] at hne
            exact hne rfl
          obtain ⟨hmem, helig⟩ := findNextSnic_some app.S N app.W hfind
          exact ⟨hmem, helig, helig.free hσ⟩

/-- A snic with room and supply gets booked, so a harmless failed search had
neither. -/
theorem lastSnicIdle_of_soundPlacement (hT : ∀ n i, 0 ≤ T n i) (hB : ∀ n, 0 ≤ B n)
    (hsound : SoundPlacement app N T B) : LastSnicIdle app N T B := by
  intro c s ℓ hc hent hfind hlast
  have hσ := hc.sane hT hB
  obtain ⟨rest, htodo⟩ := hent.cons
  obtain ⟨hr, -, hG⟩ := id hent
  by_contra hcon
  push Not at hcon
  obtain ⟨hT0, hroom⟩ := hcon
  have hpy : pySnic (findNextSnic app.S N app.W c.state s) = some ℓ := by
    rw [hfind]
    exact hlast
  have hs := step_book app.unitCost hσ hr htodo hG hpy hroom
  have hsame := hsound.untouched c _ s hc hent hfind hs
  have hpos := offer_pos app.unitCost hroom (hσ.demand_pos hG)
    (lt_of_le_of_ne (hσ.T_nonneg ℓ _) (Ne.symm hT0))
  -- the entry booked would have stayed and grown at once
  have hA : (grant app.hot app.W c.state ℓ s (offer app.hot app.W c.state ℓ s)).A s ℓ (app.hot s)
      = c.state.A s ℓ (app.hot s) := by
    rw [show grant app.hot app.W c.state ℓ s (offer app.hot app.W c.state ℓ s) = c.state
      from hsame]
  rw [grant_A, if_pos ⟨rfl, rfl, rfl⟩] at hA
  linarith

end Call

/-- **When placements are sound.**  A run of the allocator only places units on
eligible, unused snics and survives failed searches unchanged if and only if
the last snic has nothing to give whenever a search fails. -/
theorem resourceAllocation_placement_iff (app : Application) (N : List (Fin k))
    (T : Fin k → Vec) (B : Fin k → ℚ) (hT : ∀ n i, 0 ≤ T n i) (hB : ∀ n, 0 ≤ B n) :
    SoundPlacement app N T B ↔ LastSnicIdle app N T B :=
  ⟨lastSnicIdle_of_soundPlacement hT hB, soundPlacement_of_lastSnicIdle hT hB⟩

/-! ## A parent's bandwidth granted twice. -/

/-- The equivalence on a cluster with cores and bandwidth to spare. -/
theorem twoStages_placement_iff :
    SoundPlacement twoStages oneSnic twentyCores (fun _ => 100)
      ↔ LastSnicIdle twoStages oneSnic twentyCores (fun _ => 100) :=
  resourceAllocation_placement_iff twoStages oneSnic twentyCores (fun _ => 100)
    (by decide +kernel) (by decide +kernel)

/-- One snic with 20 cores and bandwidth 5: stage 0 takes 5 cores, stage 1 takes
5 more through the bandwidth stage 0 brings in; the third search fails, and
the index `-1` gives stage 1 its last 3 cores through the same bandwidth. -/
theorem twoStages_overbooks :
    ¬ SoundPlacement twoStages oneSnic twentyCores (fun _ => 5) := by
  intro h
  let c := runFor (twoStages.step oneSnic) 3
    (twoStages.start twentyCores (fun _ => 5))
  have hc : twoStages.Reach oneSnic twentyCores (fun _ => 5) c :=
    reaches_runFor 3 _
  have hent : c.Entering (1 : Fin 2) := by
    refine ⟨by decide +kernel, by decide +kernel, fun h0 => ?_⟩
    exact absurd (congrFun h0 0) (by decide +kernel)
  have hfind : findNextSnic twoStages.S oneSnic twoStages.W c.state (1 : Fin 2) = none := by
    decide +kernel
  have hsome : (twoStages.step oneSnic c).map
      (fun d => (d.state.A (1 : Fin 2) 0 0, c.state.A (1 : Fin 2) 0 0)) = some (8, 5) := by
    decide +kernel
  obtain ⟨d, hd, hval⟩ := Option.map_eq_some_iff.mp hsome
  rw [h.untouched c d (1 : Fin 2) hc hent hfind hd] at hval
  obtain ⟨h8, h5⟩ := Prod.mk.inj hval
  rw [h8] at h5
  exact absurd h5 (by norm_num)

end Meili.Allocator
