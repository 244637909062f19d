/-
  Meili.Allocator.Bandwidth — exact bandwidth accounting.

  A snic is charged, for each stage, what the stage's booking requires beyond
  what its co-located parent stage already brought in (`charge`).  The code
  spreads this over its branches; `grant` has one formula for all of them.

  The induction runs along the `for` loop: the stages behind the current one
  are final, those ahead of it still have an all-zero row (`Frontier`), so a
  grant changes exactly one summand of the closed form
  (`charge_grant`).
-/
import Meili.Allocator.Run

namespace Meili.Allocator

open Meili.Lib

variable {k m : ℕ}

/-! ## §1. The closed form. -/

/-- `u(s, n)`: the bandwidth the booking of stage `s` on snic `n` requires. -/
def stageBw (W : Fin m → Vec) (A : Fin m → Fin k → Vec) (s : Fin m) (n : Fin k) : ℚ :=
  calculateRequiredBw (A s n) (W s)

/-- `p(s, n)`: the same for the parent stage, 0 for the first stage. -/
def parentBw (W : Fin m → Vec) (A : Fin m → Fin k → Vec) (s : Fin m) (n : Fin k) : ℚ :=
  if h : s.val = 0 then 0 else stageBw W A (parent s h) n

/-- What stage `s` costs snic `n` beyond its parent's bandwidth. -/
def charge (W : Fin m → Vec) (A : Fin m → Fin k → Vec) (s : Fin m) (n : Fin k) : ℚ :=
  max 0 (stageBw W A s n - parentBw W A s n)

theorem charge_nonneg (W : Fin m → Vec) (A : Fin m → Fin k → Vec) (s : Fin m) (n : Fin k) :
    0 ≤ charge W A s n := le_max_left _ _

variable {hot : Fin m → Fin 3} {W : Fin m → Vec} {σ : Alloc k m}

theorem parentBw_eq_sharable (hW : UnitCost hot W) {A : Fin m → Fin k → Vec}
    (hA : ∀ s n i, 0 ≤ A s n i) (s : Fin m) (n : Fin k) :
    parentBw W A s n = calculateSharableBw W A n s := by
  by_cases hs : s.val = 0
  · simp [parentBw, calculateSharableBw, hs]
  · rw [calculateSharableBw_eq hW hA n s hs]
    simp [parentBw, stageBw, hs]

/-- A stage with nothing booked on a snic costs it nothing. -/
theorem charge_eq_zero (hW : UnitCost hot W) {A : Fin m → Fin k → Vec}
    (hA : ∀ s n i, 0 ≤ A s n i) {s : Fin m} {n : Fin k} (h0 : A s n (hot s) = 0) :
    charge W A s n = 0 := by
  have hu : stageBw W A s n = 0 := by
    unfold stageBw
    rw [calculateRequiredBw_eq hW s (hA s n _), h0, zero_mul]
  have hp : 0 ≤ parentBw W A s n := by
    rw [parentBw_eq_sharable hW hA]
    exact calculateSharableBw_nonneg hW hA n s
  unfold charge
  rw [hu]
  exact max_eq_left (by linarith)

/-! ## §2. One grant changes one summand. -/

/-- Off the booked pair, a grant leaves `u` alone. -/
theorem stageBw_grant_of_ne {n : Fin k} {s : Fin m} (x : ℚ) {s' : Fin m} {n' : Fin k}
    (h : ¬ (s' = s ∧ n' = n)) :
    stageBw W (grant hot W σ n s x).A s' n' = stageBw W σ.A s' n' := by
  have hA : (grant hot W σ n s x).A s' n' = σ.A s' n' := by
    funext i
    rw [grant_A, if_neg fun hi => h ⟨hi.1, hi.2.1⟩, add_zero]
  unfold stageBw
  rw [hA]

/-- The parent of a stage is a stage before it. -/
theorem parent_ne {s s' : Fin m} (h : s'.val ≠ 0) (hne : s'.val ≠ s.val + 1) :
    parent s' h ≠ s := by
  intro heq
  have hval : s'.val - 1 = s.val := congrArg Fin.val heq
  omega

/-- **The grant step of the accounting**: with nothing booked yet for `(s, n)`
and for the next stage, the summand of `(s, n)` becomes what `grant` charges,
and all other summands stay. -/
theorem charge_grant (hW : UnitCost hot W) (hσ : Sane hot σ) {n : Fin k} {s : Fin m}
    (hfree : σ.A s n (hot s) = 0)
    (hnext : ∀ s' : Fin m, s'.val = s.val + 1 → σ.A s' n (hot s') = 0)
    (s' : Fin m) (n' : Fin k) :
    charge W (grant hot W σ n s (offer hot W σ n s)).A s' n'
      = charge W σ.A s' n' + if s' = s ∧ n' = n then
          max 0 (offer hot W σ n s * W s (hot s) - calculateSharableBw W σ.A n s) else 0 := by
  have hσ' := hσ.grant hW n s
  have hx := offer_nonneg hW hσ n s
  by_cases hpair : s' = s ∧ n' = n
  · -- the booked pair: `u` becomes what the offer needs, `p` stays
    obtain ⟨rfl, rfl⟩ := hpair
    rw [if_pos ⟨rfl, rfl⟩, charge_eq_zero hW hσ.A_nonneg hfree, zero_add]
    have hu : stageBw W (grant hot W σ n' s' (offer hot W σ n' s')).A s' n'
        = offer hot W σ n' s' * W s' (hot s') := by
      unfold stageBw
      rw [calculateRequiredBw_eq hW s' (hσ'.A_nonneg _ _ _), grant_A, if_pos ⟨rfl, rfl, rfl⟩,
        hfree, zero_add]
    have hp : parentBw W (grant hot W σ n' s' (offer hot W σ n' s')).A s' n'
        = calculateSharableBw W σ.A n' s' := by
      rw [← parentBw_eq_sharable hW hσ.A_nonneg]
      unfold parentBw
      split
      next => rfl
      next h =>
        have hne : parent s' h ≠ s' := parent_ne h (by omega)
        exact stageBw_grant_of_ne _ fun hi => hne hi.1
    unfold charge
    rw [hu, hp]
  · rw [if_neg hpair, add_zero]
    by_cases hs : s'.val = s.val + 1 ∧ n' = n
    · -- the next stage has nothing on this snic, so its summand is 0 before and after
      obtain ⟨hs, rfl⟩ := hs
      have h0 := hnext s' hs
      have h0' : (grant hot W σ n' s (offer hot W σ n' s)).A s' n' (hot s') = 0 := by
        rw [grant_A, if_neg (fun hi => hpair ⟨hi.1, rfl⟩), add_zero, h0]
      rw [charge_eq_zero hW hσ.A_nonneg h0, charge_eq_zero hW hσ'.A_nonneg h0']
    · -- any other pair: neither `u` nor `p` changes
      have hp : parentBw W (grant hot W σ n s (offer hot W σ n s)).A s' n'
          = parentBw W σ.A s' n' := by
        unfold parentBw
        split
        next => rfl
        next h =>
          refine stageBw_grant_of_ne _ fun hi => hs ⟨?_, hi.2⟩
          by_contra hne
          exact parent_ne h hne hi.1
      unfold charge
      rw [stageBw_grant_of_ne _ hpair, hp]

/-! ## §3. Along the `for` loop. -/

/-- The `for` loop is at stage `i` of `0, …, m-1`, and the stages after it
have nothing booked. -/
def Frontier (c : Conf k m) : Prop :=
  ∃ i, c.todo = (List.finRange m).drop i ∧ ∀ s : Fin m, i < s.val → ∀ n j, c.state.A s n j = 0

theorem finRange_drop_cons {i : ℕ} {s : Fin m} {rest : List (Fin m)}
    (h : (List.finRange m).drop i = s :: rest) :
    s.val = i ∧ rest = (List.finRange m).drop (i + 1) := by
  have hi : i < (List.finRange m).length := by
    by_contra hge
    rw [List.drop_eq_nil_of_le (not_lt.mp hge)] at h
    exact absurd h (by simp)
  rw [List.drop_eq_getElem_cons hi] at h
  obtain ⟨hs, hr⟩ := List.cons.inj h
  refine ⟨?_, hr.symm⟩
  rw [← hs]
  simp

section Call

variable {app : Application} {N : List (Fin k)} {T : Fin k → Vec} {B : Fin k → ℚ}

/-- Every call so far was made for a snic that `find_next_snic` returned, and
none raised. -/
def AllFound (c : Conf k m) : Prop :=
  c.raised = none ∧ ∀ x ∈ c.calls, x.2.isSome

/-- The accounting invariant: the frontier, and the closed form. -/
def Accounted (app : Application) (B : Fin k → ℚ) (c : Conf k app.m) : Prop :=
  Frontier c ∧ ∀ n, B n - c.state.B n = ∑ s, charge app.W c.state.A s n

theorem Accounted.step {c c' : Conf k app.m} (hσ : Sane app.hot c.state)
    (hacc : Accounted app B c) (hstep : app.step N c = some c') (hfound : AllFound c') :
    Accounted app B c' := by
  obtain ⟨⟨i, htodo', hzero⟩, hsum⟩ := hacc
  obtain ⟨-, hcase⟩ := step_cases app.unitCost hσ hstep
  cases hcase with
  | leave s rest htodo hG heq =>
      -- the frontier moves on, and nothing is booked
      obtain ⟨-, hrest⟩ := finRange_drop_cons (htodo'.symm.trans htodo)
      rw [heq]
      exact ⟨⟨i + 1, hrest, fun s hs => hzero s (by omega)⟩, hsum⟩
  | noSnic s rest htodo hG hpy heq =>
      have hr := hfound.1
      rw [heq] at hr
      exact absurd hr (by simp)
  | short s rest n htodo hG hpy hroom heq =>
      have hr := hfound.1
      rw [heq] at hr
      exact absurd hr (by simp)
  | book s rest n htodo hG hpy hroom heq =>
      obtain ⟨hsi, -⟩ := finRange_drop_cons (htodo'.symm.trans htodo)
      -- this call's result is a snic, so it is the eligible one that was found
      have hsome : (findNextSnic app.S N app.W c.state s).isSome := by
        refine hfound.2 (s, findNextSnic app.S N app.W c.state s) ?_
        rw [heq]
        exact List.mem_append_right _ (List.mem_singleton.mpr rfl)
      obtain ⟨n₁, hn₁⟩ := Option.isSome_iff_exists.mp hsome
      have hn : n₁ = n := by
        rw [hn₁] at hpy
        exact Option.some.inj hpy
      have helig := (findNextSnic_some app.S N app.W (hn ▸ hn₁)).2
      have hcharge := charge_grant app.unitCost hσ (helig.free hσ (app.hot s))
        (fun s' hs' => hzero s' (by omega) n _)
      rw [heq]
      refine ⟨⟨i, htodo', ?_⟩, ?_⟩
      · intro s' hs' n' j
        -- the rows ahead of the loop are untouched
        have hne : s' ≠ s := fun h => by rw [h] at hs'; omega
        rw [grant_A, if_neg (fun h => hne h.1), add_zero]
        exact hzero s' hs' n' j
      · intro n'
        -- the closed form gains what `B[n]` loses
        simp only [hcharge, Finset.sum_add_distrib, grant_B]
        by_cases hn' : n' = n
        · simp only [hn', and_true, Finset.sum_ite_eq', Finset.mem_univ, if_true]
          linarith [hsum n]
        · simp only [hn', and_false, if_false, Finset.sum_const_zero, add_zero]
          exact hsum n'

theorem AllFound.of_step {hot : Fin m → Fin 3} {S : List (Fin m)} {N : List (Fin k)}
    {W : Fin m → Vec} (hW : UnitCost hot W) {c c' : Conf k m} (hσ : Sane hot c.state)
    (hstep : resourceAllocationStep S N W c = some c') (h : AllFound c') : AllFound c := by
  obtain ⟨hr, hcase⟩ := step_cases hW hσ hstep
  refine ⟨hr, ?_⟩
  cases hcase with
  | leave s rest htodo hG heq => rw [heq] at h; exact h.2
  | noSnic s rest htodo hG hpy heq =>
      rw [heq] at h
      exact fun x hx => h.2 x (List.mem_append_left _ hx)
  | book s rest n htodo hG hpy hroom heq =>
      rw [heq] at h
      exact fun x hx => h.2 x (List.mem_append_left _ hx)
  | short s rest n htodo hG hpy hroom heq =>
      rw [heq] at h
      exact fun x hx => h.2 x (List.mem_append_left _ hx)

theorem Application.Reach.accounted {c : Conf k app.m} (h : app.Reach N T B c)
    (hT : ∀ n i, 0 ≤ T n i) (hB : ∀ n, 0 ≤ B n) (hS : app.S = List.finRange app.m)
    (hfound : AllFound c) : Accounted app B c := by
  revert hfound
  refine Reaches.invariant_reachable (fun c => AllFound c → Accounted app B c) ?_ ?_ h
  · intro _
    have hA : ∀ s n i, (app.start T B).state.A s n i = 0 := fun _ _ _ => rfl
    refine ⟨⟨0, hS, fun s _ n j => hA s n j⟩, fun n => ?_⟩
    rw [Finset.sum_eq_zero fun s _ =>
      charge_eq_zero app.unitCost (fun s n i => (hA s n i).ge) (hA s n _)]
    show B n - B n = 0
    exact sub_self _
  · intro x y hx ih hs hy
    have hσ := Application.Reach.sane hx hT hB
    exact (ih (hy.of_step app.unitCost hσ hs)).step hσ hs hy

/-- **Exact bandwidth accounting.**  For stages allocated in order, as long as
every `find_next_snic` call returned a snic and nothing raised, each snic has
been charged exactly what each stage needs on it beyond its co-located parent
stage, and its bandwidth stays between 0 and the initial one. -/
theorem resourceAllocation_bandwidth (app : Application) (N : List (Fin k)) (T : Fin k → Vec)
    (B : Fin k → ℚ) (hT : ∀ n i, 0 ≤ T n i) (hB : ∀ n, 0 ≤ B n)
    (hS : app.S = List.finRange app.m) (c : Conf k app.m) (hc : app.Reach N T B c)
    (hraised : c.raised = none) (hfound : ∀ x ∈ c.calls, x.2.isSome) :
    (∀ n, B n - c.state.B n
        = ∑ s, max 0 (stageBw app.W c.state.A s n - parentBw app.W c.state.A s n))
      ∧ ∀ n, 0 ≤ c.state.B n ∧ c.state.B n ≤ B n := by
  obtain ⟨-, hsum⟩ := hc.accounted hT hB hS ⟨hraised, hfound⟩
  refine ⟨hsum, fun n => ⟨(hc.sane hT hB).B_nonneg n, ?_⟩⟩
  have hpos : 0 ≤ ∑ s, charge app.W c.state.A s n :=
    Finset.sum_nonneg fun s _ => charge_nonneg app.W c.state.A s n
  linarith [hsum n]

end Call

/-- `twoStages` on one snic, after its two bookings: stage 1 is charged the 3
units it needs beyond the 5 that stage 0 brings in. -/
def bothBooked : Conf 1 twoStages.m :=
  runFor (twoStages.step oneSnic) 3 (twoStages.start twentyCores fun _ => 100)

theorem bothBooked_bandwidth :
    (∀ n, (100 : ℚ) - bothBooked.state.B n
        = ∑ s, max 0 (stageBw twoStages.W bothBooked.state.A s n
            - parentBw twoStages.W bothBooked.state.A s n))
      ∧ bothBooked.state.B 0 = 92 :=
  ⟨(resourceAllocation_bandwidth twoStages oneSnic twentyCores (fun _ => 100)
      (by decide +kernel) (by decide +kernel) rfl bothBooked (reaches_runFor 3 _)
      (by decide +kernel) (by decide +kernel)).1, by decide +kernel⟩

end Meili.Allocator
