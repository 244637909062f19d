/-
  Meili.Allocator.Run — runs of `resource_allocation`.

  `Application` is one call of `resource_allocation`: its stages, demands and
  unit costs, one-hot on the same component as the script assumes.  A run
  starts from the shared `T`, `B` and an all-zero `A` and takes
  `resourceAllocationStep`s; `ClusterRun` strings the calls of the script
  together, each one on the `T` and `B` the previous one left behind.

  `step_cases` says once what a step can do (through `allocateOneSnic_eq`);
  every invariant of the allocator is derived from it.
-/
import Meili.Allocator.Grant
import Meili.Lib.Runs

namespace Meili.Allocator

open Meili.Lib

/-! ## §1. Applications and their runs. -/

/-- One application handed to `resource_allocation`. -/
structure Application where
  /-- Number of stages the lists `G`, `W`, `A` have. -/
  m : ℕ
  /-- The stages to allocate, in order. -/
  S : List (Fin m)
  /-- Demands. -/
  G : Fin m → Vec
  /-- Unit bandwidth consumption. -/
  W : Fin m → Vec
  /-- The component on which demand and unit cost of a stage are one-hot. -/
  hot : Fin m → Fin 3
  unitCost : UnitCost hot W
  G_nonneg : ∀ s, 0 ≤ G s (hot s)
  G_off : ∀ s i, i ≠ hot s → G s i = 0

variable {k : ℕ}

/-- The function has returned: no exception, and no stage is left. -/
def Conf.Returned {m : ℕ} (c : Conf k m) : Prop := c.raised = none ∧ c.todo = []

namespace Application

/-- The call's initial configuration: fresh all-zero `A`. -/
def start (app : Application) (T : Fin k → Vec) (B : Fin k → ℚ) : Conf k app.m where
  state := { T := T, B := B, G := app.G, A := fun _ _ => zeroVec }
  todo := app.S
  calls := []
  raised := none

/-- One step of the call, over the snics `N`. -/
def step (app : Application) (N : List (Fin k)) : Conf k app.m → Option (Conf k app.m) :=
  resourceAllocationStep app.S N app.W

/-- The configuration `c` occurs in the call on `T` and `B`. -/
def Reach (app : Application) (N : List (Fin k)) (T : Fin k → Vec) (B : Fin k → ℚ)
    (c : Conf k app.m) : Prop :=
  Reaches (app.step N) (app.start T B) c

end Application

/-- What the calls before the current one have placed: their `A`. -/
structure Placement (k : ℕ) where
  m : ℕ
  A : Fin m → Fin k → Vec

/-- What a finished call has booked on snic `n`, over all its stages. -/
def Placement.total (p : Placement k) (n : Fin k) (i : Fin 3) : ℚ := ∑ s, p.A s n i

/-- Applications run one after another on the same `T` and `B`: the placements
of the calls that have returned, and the `T` and `B` they leave. -/
inductive ClusterRun (N : List (Fin k)) (T₀ : Fin k → Vec) (B₀ : Fin k → ℚ) :
    List (Placement k) → (Fin k → Vec) → (Fin k → ℚ) → Prop
  | init : ClusterRun N T₀ B₀ [] T₀ B₀
  | call {past : List (Placement k)} {T : Fin k → Vec} {B : Fin k → ℚ}
      (app : Application) (c : Conf k app.m) :
      ClusterRun N T₀ B₀ past T B → app.Reach N T B c → c.Returned →
      ClusterRun N T₀ B₀ (past ++ [⟨app.m, c.state.A⟩]) c.state.T c.state.B

/-! ## §2. Two small applications. -/

/-- A cluster of one snic. -/
def oneSnic : List (Fin 1) := [0]

/-- The snic has 20 cores. -/
def twentyCores : Fin 1 → Vec := fun _ => unitVec core 20

/-- One stage that demands one core, at unit cost 1. -/
def oneCore : Application where
  m := 1
  S := [0]
  G := fun _ => unitVec core 1
  W := fun _ => unitVec core 1
  hot := fun _ => core
  unitCost := ⟨fun _ => by simp, fun _ _ hi => unitVec_of_ne hi 1⟩
  G_nonneg := fun _ => by simp
  G_off := fun _ _ hi => unitVec_of_ne hi 1

/-- Two stages on cores, demanding 5 and 8, at unit cost 1. -/
def twoStages : Application where
  m := 2
  S := [0, 1]
  G := fun s => unitVec core (if s = 0 then 5 else 8)
  W := fun _ => unitVec core 1
  hot := fun _ => core
  unitCost := ⟨fun _ => by simp, fun _ _ hi => unitVec_of_ne hi 1⟩
  G_nonneg := fun s => by rw [unitVec_self]; split <;> norm_num
  G_off := fun _ _ hi => unitVec_of_ne hi _

/-! ## §3. What one step can do. -/

section Step

variable {m : ℕ} {hot : Fin m → Fin 3} {S : List (Fin m)} {N : List (Fin k)} {W : Fin m → Vec}

/-- The four things a step of `resource_allocation` can do. -/
inductive StepCase (hot : Fin m → Fin 3) (S : List (Fin m)) (N : List (Fin k))
    (W : Fin m → Vec) (c c' : Conf k m) : Prop
  /-- The demand of the stage is met: go to the next stage. -/
  | leave (s : Fin m) (rest : List (Fin m)) (htodo : c.todo = s :: rest)
      (hG : c.state.G s = zeroVec) (heq : c' = { c with todo := rest })
  /-- `-1` on an empty cluster: IndexError. -/
  | noSnic (s : Fin m) (rest : List (Fin m)) (htodo : c.todo = s :: rest)
      (hG : c.state.G s ≠ zeroVec) (hpy : pySnic (findNextSnic S N W c.state s) = none)
      (heq : c' = { c with
        calls := c.calls ++ [(s, findNextSnic S N W c.state s)], raised := some .indexError })
  /-- `allocate_one_snic` books the offer of snic `n`. -/
  | book (s : Fin m) (rest : List (Fin m)) (n : Fin k) (htodo : c.todo = s :: rest)
      (hG : c.state.G s ≠ zeroVec) (hpy : pySnic (findNextSnic S N W c.state s) = some n)
      (hroom : HasRoom hot W c.state n s)
      (heq : c' = { c with
        state := grant hot W c.state n s (offer hot W c.state n s)
        calls := c.calls ++ [(s, findNextSnic S N W c.state s)] })
  /-- The bandwidth of snic `n` carries no unit: TypeError, nothing booked. -/
  | short (s : Fin m) (rest : List (Fin m)) (n : Fin k) (htodo : c.todo = s :: rest)
      (hG : c.state.G s ≠ zeroVec) (hpy : pySnic (findNextSnic S N W c.state s) = some n)
      (hroom : ¬ HasRoom hot W c.state n s)
      (heq : c' = { c with
        calls := c.calls ++ [(s, findNextSnic S N W c.state s)], raised := some .typeError })

/-- A step is taken exactly while no exception was raised and a stage is left. -/
theorem step_eq_none_iff (c : Conf k m) :
    resourceAllocationStep S N W c = none ↔ c.raised ≠ none ∨ c.todo = [] := by
  unfold resourceAllocationStep
  cases hr : c.raised with
  | some e => simp
  | none =>
      cases ht : c.todo with
      | nil => simp
      | cons s rest =>
          dsimp only
          split
          · simp
          · split <;> simp

theorem step_leave {c : Conf k m} {s : Fin m} {rest : List (Fin m)} (hr : c.raised = none)
    (htodo : c.todo = s :: rest) (hG : c.state.G s = zeroVec) :
    resourceAllocationStep S N W c = some { c with todo := rest } := by
  unfold resourceAllocationStep
  rw [hr, htodo]
  dsimp only
  rw [if_pos ((resourceEq_iff _ _).mpr hG)]

theorem step_call_none {c : Conf k m} {s : Fin m} {rest : List (Fin m)} (hr : c.raised = none)
    (htodo : c.todo = s :: rest) (hG : c.state.G s ≠ zeroVec)
    (hpy : pySnic (findNextSnic S N W c.state s) = none) :
    resourceAllocationStep S N W c = some { c with
      calls := c.calls ++ [(s, findNextSnic S N W c.state s)], raised := some .indexError } := by
  unfold resourceAllocationStep
  rw [hr, htodo]
  dsimp only
  rw [if_neg (fun h => hG ((resourceEq_iff _ _).mp h)), hpy]

theorem step_call_some {c : Conf k m} {s : Fin m} {rest : List (Fin m)} {n : Fin k}
    (hr : c.raised = none) (htodo : c.todo = s :: rest) (hG : c.state.G s ≠ zeroVec)
    (hpy : pySnic (findNextSnic S N W c.state s) = some n) :
    resourceAllocationStep S N W c = some { c with
      state := (allocateOneSnic W c.state n s).1
      calls := c.calls ++ [(s, findNextSnic S N W c.state s)]
      raised := (allocateOneSnic W c.state n s).2 } := by
  unfold resourceAllocationStep
  rw [hr, htodo]
  dsimp only
  rw [if_neg (fun h => hG ((resourceEq_iff _ _).mp h)), hpy]

/-- With room, the iteration books the offer. -/
theorem step_book (hW : UnitCost hot W) {c : Conf k m} (hσ : Sane hot c.state) {s : Fin m}
    {rest : List (Fin m)} {n : Fin k} (hr : c.raised = none) (htodo : c.todo = s :: rest)
    (hG : c.state.G s ≠ zeroVec) (hpy : pySnic (findNextSnic S N W c.state s) = some n)
    (hroom : HasRoom hot W c.state n s) :
    resourceAllocationStep S N W c = some { c with
      state := grant hot W c.state n s (offer hot W c.state n s)
      calls := c.calls ++ [(s, findNextSnic S N W c.state s)] } := by
  rw [step_call_some hr htodo hG hpy, allocateOneSnic_eq hW hσ n s, if_pos hroom, hr]

/-- Without room, it raises and books nothing. -/
theorem step_short (hW : UnitCost hot W) {c : Conf k m} (hσ : Sane hot c.state) {s : Fin m}
    {rest : List (Fin m)} {n : Fin k} (hr : c.raised = none) (htodo : c.todo = s :: rest)
    (hG : c.state.G s ≠ zeroVec) (hpy : pySnic (findNextSnic S N W c.state s) = some n)
    (hroom : ¬ HasRoom hot W c.state n s) :
    resourceAllocationStep S N W c = some { c with
      calls := c.calls ++ [(s, findNextSnic S N W c.state s)], raised := some .typeError } := by
  rw [step_call_some hr htodo hG hpy, allocateOneSnic_eq hW hσ n s, if_neg hroom]

/-- Without any of the demanded component on the snic, it changes nothing but
the record of the calls. -/
theorem step_idle (hW : UnitCost hot W) {c : Conf k m} (hσ : Sane hot c.state) {s : Fin m}
    {rest : List (Fin m)} {n : Fin k} (hr : c.raised = none) (htodo : c.todo = s :: rest)
    (hG : c.state.G s ≠ zeroVec) (hpy : pySnic (findNextSnic S N W c.state s) = some n)
    (hT : c.state.T n (hot s) = 0) :
    resourceAllocationStep S N W c = some { c with
      calls := c.calls ++ [(s, findNextSnic S N W c.state s)] } := by
  rw [step_book hW hσ hr htodo hG hpy (hasRoom_of_no_supply hW hσ hT), offer_eq_zero hW hσ hT,
    grant_zero hW hσ]

/-- **What a step can do**, from a state with one-hot demands. -/
theorem step_cases (hW : UnitCost hot W) {c c' : Conf k m} (hσ : Sane hot c.state)
    (hstep : resourceAllocationStep S N W c = some c') :
    c.raised = none ∧ StepCase hot S N W c c' := by
  -- a step was taken, so the run has not stopped
  have hrun : ¬ (c.raised ≠ none ∨ c.todo = []) := fun h =>
    absurd (hstep.symm.trans ((step_eq_none_iff c).mpr h)) (by simp)
  push Not at hrun
  obtain ⟨hr, ht⟩ := hrun
  refine ⟨hr, ?_⟩
  obtain ⟨s, rest, htodo⟩ := List.exists_cons_of_ne_nil ht
  by_cases hG : c.state.G s = zeroVec
  · -- the `while` test fails
    rw [step_leave hr htodo hG] at hstep
    exact .leave s rest htodo hG (Option.some.inj hstep).symm
  · cases hpy : pySnic (findNextSnic S N W c.state s) with
    | none =>
        rw [step_call_none hr htodo hG hpy] at hstep
        exact .noSnic s rest htodo hG hpy (Option.some.inj hstep).symm
    | some n =>
        by_cases hroom : HasRoom hot W c.state n s
        · rw [step_book hW hσ hr htodo hG hpy hroom] at hstep
          exact .book s rest n htodo hG hpy hroom (Option.some.inj hstep).symm
        · rw [step_short hW hσ hr htodo hG hpy hroom] at hstep
          exact .short s rest n htodo hG hpy hroom (Option.some.inj hstep).symm

/-- **Sanity is an invariant of the loop.** -/
theorem Sane.step (hW : UnitCost hot W) {c c' : Conf k m} (hσ : Sane hot c.state)
    (hstep : resourceAllocationStep S N W c = some c') : Sane hot c'.state := by
  obtain ⟨-, hcase⟩ := step_cases hW hσ hstep
  cases hcase with
  | leave s rest htodo hG heq => rw [heq]; exact hσ
  | noSnic s rest htodo hG hpy heq => rw [heq]; exact hσ
  | book s rest n htodo hG hpy hroom heq => rw [heq]; exact hσ.grant hW n s
  | short s rest n htodo hG hpy hroom heq => rw [heq]; exact hσ

end Step

/-- The start of a call is sane when the cluster is. -/
theorem Application.start_sane (app : Application) {T : Fin k → Vec} {B : Fin k → ℚ}
    (hT : ∀ n i, 0 ≤ T n i) (hB : ∀ n, 0 ≤ B n) : Sane app.hot (app.start T B).state where
  T_nonneg := hT
  B_nonneg := hB
  G_nonneg := by
    intro s i
    show 0 ≤ app.G s i
    -- off the demanded component a demand is 0
    by_cases hi : i = app.hot s
    · rw [hi]
      exact app.G_nonneg s
    · rw [app.G_off s i hi]
  A_nonneg := fun _ _ _ => le_refl 0
  G_off := app.G_off

/-- Every configuration of a call is sane. -/
theorem Application.Reach.sane {app : Application} {N : List (Fin k)} {T : Fin k → Vec}
    {B : Fin k → ℚ} {c : Conf k app.m} (h : app.Reach N T B c)
    (hT : ∀ n i, 0 ≤ T n i) (hB : ∀ n, 0 ≤ B n) : Sane app.hot c.state :=
  Reaches.invariant (fun c => Sane app.hot c.state) (app.start_sane hT hB)
    (fun _ _ hx hs => hx.step app.unitCost hs) h

/-- The demand of a stage the `for` loop has left is met. -/
theorem Application.Reach.met {app : Application} {N : List (Fin k)} {T : Fin k → Vec}
    {B : Fin k → ℚ} {c : Conf k app.m} (h : app.Reach N T B c)
    (hT : ∀ n i, 0 ≤ T n i) (hB : ∀ n, 0 ≤ B n) :
    ∀ s ∈ app.S, s ∈ c.todo ∨ c.state.G s = zeroVec := by
  refine Reaches.invariant_reachable
    (fun c => ∀ s ∈ app.S, s ∈ c.todo ∨ c.state.G s = zeroVec) ?_ ?_ h
  · intro s hs
    exact Or.inl hs
  · intro x y hx ih hs s hS
    have hσ := Application.Reach.sane hx hT hB
    obtain ⟨-, hcase⟩ := step_cases app.unitCost hσ hs
    cases hcase with
    | leave s₁ rest htodo hG heq =>
        rw [heq]
        rcases ih s hS with hmem | hz
        · rw [htodo] at hmem
          rcases List.mem_cons.mp hmem with rfl | hrest
          · exact Or.inr hG
          · exact Or.inl hrest
        · exact Or.inr hz
    | noSnic s₁ rest htodo hG hpy heq => rw [heq]; exact ih s hS
    | book s₁ rest n htodo hG hpy hroom heq =>
        rw [heq]
        rcases ih s hS with hmem | hz
        · exact Or.inl hmem
        · right
          -- only an open demand is booked for, so a met one stays met
          have hne : s ≠ s₁ := fun h => hG (h ▸ hz)
          funext i
          rw [grant_G, if_neg (fun h => hne h.1), sub_zero, hz]
    | short s₁ rest n htodo hG hpy hroom heq => rw [heq]; exact ih s hS

/-- When the call returns, every demand is met. -/
theorem Application.Reach.met_of_returned {app : Application} {N : List (Fin k)}
    {T : Fin k → Vec} {B : Fin k → ℚ} {c : Conf k app.m} (h : app.Reach N T B c)
    (hT : ∀ n i, 0 ≤ T n i) (hB : ∀ n, 0 ≤ B n) (hret : c.Returned) :
    ∀ s ∈ app.S, c.state.G s = zeroVec := by
  intro s hs
  rcases h.met hT hB s hs with hmem | hz
  · rw [hret.2] at hmem
    exact absurd hmem (by simp)
  · exact hz

end Meili.Allocator
