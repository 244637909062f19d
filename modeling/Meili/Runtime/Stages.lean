/-
  Meili.Runtime.Stages — the instances that `pipeline_free` goes through.

  `pipeline_init_safe` sets `nb_inst_per_pl_stage` before it creates the instances, and
  `pipeline_free` goes by that number.  Main results:
    * `createStage_each` — the loop creates all instances, or one is missing;
    * `initPipeline_strays` — a missing one is read from a slot nobody has written;
    * `strayed_iff` — the same for a whole start-up.
-/
import Meili.Runtime.Release

namespace Meili.Runtime

open Meili.Conf Meili.Lib Meili.Lib.Ledger Meili.Lib.Action

/-! ## §1. The loop over the stages. -/

def isStage : Resource → Bool
  | .stage _ => true
  | _ => false

theorem isStage_of_not_tracked (r : Resource) (h : tracked r = false) : isStage r = false := by
  cases r <;> first | rfl | cases h

/-- The first `n` stages, created and stored. -/
def made (n : ℕ) : Ledger Resource where
  acquired := (List.range n).map .stage
  written := (List.range n).map .stage
  released := []
  strays := []

theorem mem_made {n j : ℕ} : .stage j ∈ (made n).written ↔ j < n := by
  constructor
  · intro h
    obtain ⟨i, hi, heq⟩ := List.mem_map.mp h
    rw [← Resource.stage.inj heq]
    exact List.mem_range.mp hi
  · exact fun h => List.mem_map.mpr ⟨j, List.mem_range.mpr h, rfl⟩

theorem made_succ (n : ℕ) : ((made n).alloc (.stage n)).write (.stage n) = made (n + 1) := by
  unfold made Ledger.alloc Ledger.write
  rw [List.range_succ, List.map_append]
  rfl

section Stages

variable {m : Machine} {conf : PlConf} {w : ℕ}

theorem spares_pipelineStageInitSafe (j : ℕ) :
    Spares isStage (pipelineStageInitSafe m j).effect :=
  spares_andThen (spares_acquire _ rfl) (spares_acquire _ rfl)

/-- A round that succeeds has one more stage. -/
theorem createStage_of_ok {j : ℕ} {l : Ledger Resource} (hl : l.restrict isStage = made j)
    (hok : (createStage m j).ok = true) :
    ((createStage m j).effect l).restrict isStage = made (j + 1) := by
  unfold createStage at hok ⊢
  simp only [andThen_ok, void_ok, unchecked_ok, Bool.and_true, Bool.and_eq_true,
    Bool.not_eq_true'] at hok
  rw [andThen_effect_of_ok (by simp [hok.1]), andThen_effect_of_ok hok.2, hok.1]
  -- the stage is written behind what leaves the stages alone
  have hinit := spares_pipelineStageInitSafe (m := m) j (alloc (.stage j) l)
  have hwrite : ∀ l' : Ledger Resource,
      (write (.stage j) l').restrict isStage = write (.stage j) (l'.restrict isStage) := by
    intro l'
    simp [restrict, write, isStage]
  have halloc : (alloc (.stage j) l).restrict isStage = alloc (.stage j) (l.restrict isStage) := by
    simp [restrict, alloc, isStage]
  show Ledger.restrict isStage
    (write (.stage j) ((pipelineStageInitSafe m j).effect (alloc (.stage j) l))) = _
  rw [hwrite, hinit, halloc, hl, made_succ]

/-- A round that fails has not stored its stage. -/
theorem createStage_of_fail {j : ℕ} {l : Ledger Resource} (hl : l.restrict isStage = made j)
    (hfail : (createStage m j).ok = false) :
    .stage j ∉ ((createStage m j).effect l).written := by
  have hwritten : ∀ l' : Ledger Resource, l'.written = l.written → .stage j ∉ l'.written := by
    intro l' hl' hmem
    have hin : .stage j ∈ (l.restrict isStage).written :=
      List.mem_filter.mpr ⟨hl' ▸ hmem, rfl⟩
    rw [hl] at hin
    exact absurd (mem_made.mp hin) (Nat.lt_irrefl j)
  unfold createStage at hfail ⊢
  cases hmem : m.noMem (.stage j) with
  | true =>
      rw [andThen_effect_of_fail (by simp)]
      exact hwritten _ rfl
  | false =>
      have hinit : (pipelineStageInitSafe m j).ok = false := by simpa [hmem] using hfail
      rw [andThen_effect_of_ok (by simp), andThen_effect_of_fail hinit]
      have hsame := spares_pipelineStageInitSafe (m := m) j (alloc (.stage j) l)
      intro hin
      have hin' : .stage j ∈ (((pipelineStageInitSafe m j).effect
          (alloc (.stage j) l)).restrict isStage).written := List.mem_filter.mpr ⟨hin, rfl⟩
      rw [hsame] at hin'
      exact hwritten (alloc (.stage j) l) rfl (List.mem_of_mem_filter hin')

/-- **The loop over the stages**: all of them, or one that is missing. -/
theorem createStage_each {n : ℕ} {l : Ledger Resource} (hl : l.restrict isStage = Ledger.empty) :
    if (each n (createStage m)).ok then
      ((each n (createStage m)).effect l).restrict isStage = made n
    else ∃ k < n, .stage k ∉ ((each n (createStage m)).effect l).written := by
  apply each_rule (I := fun i l => l.restrict isStage = made i)
    (Q := fun l => ∃ k < n, .stage k ∉ l.written)
  · exact hl
  · exact fun i _ l hi hok => createStage_of_ok hi hok
  · exact fun i hi l hinv hfail => ⟨i, hi, createStage_of_fail hinv hfail⟩

theorem not_written_of_empty {l : Ledger Resource} (hl : l.restrict isStage = Ledger.empty)
    (k : ℕ) : .stage k ∉ l.written := by
  intro hmem
  have hin : .stage k ∈ (l.restrict isStage).written := List.mem_filter.mpr ⟨hmem, rfl⟩
  rw [hl] at hin
  exact List.not_mem_nil hin

/-- Behind `createStages`: all of the stages are there, or one of those that
`pipeline_free` goes through is not. -/
theorem createStages_stages {l : Ledger Resource} (hl : l.restrict isStage = Ledger.empty) :
    ((createStages m conf).ok = true →
        ((createStages m conf).effect l).restrict isStage = made (nbInst conf).toNat) ∧
      ((createStages m conf).ok = false → 0 < (nbInst conf).toNat →
        ∃ k < (nbInst conf).toNat, .stage k ∉ ((createStages m conf).effect l).written) := by
  unfold createStages
  have hspares : Spares isStage (createPool m conf).effect :=
    spares_createPool isStage_of_not_tracked m conf
  have hl' : ((createPool m conf).effect l).restrict isStage = Ledger.empty :=
    (hspares l).trans hl
  cases hok : (createPool m conf).ok with
  | false =>
      rw [andThen_ok, hok, Bool.false_and, andThen_effect_of_fail hok]
      exact ⟨fun h => absurd h (by decide), fun _ hn => ⟨0, hn, not_written_of_empty hl' 0⟩⟩
  | true =>
      rw [andThen_ok, hok, Bool.true_and, andThen_effect_of_ok hok]
      -- the check of the number of instances
      cases hcheck : decide (nbInstancePerPipelineStageMax < nbInst conf ∨ nbInst conf < 0) with
      | true =>
          rw [andThen_ok, check_ok, Bool.not_true, Bool.false_and, andThen_effect_of_fail rfl]
          exact ⟨fun h => absurd h (by decide), fun _ hn => ⟨0, hn, not_written_of_empty hl' 0⟩⟩
      | false =>
          rw [andThen_ok, check_ok, Bool.not_false, Bool.true_and, andThen_effect_of_ok rfl]
          have hloop := createStage_each (m := m) (n := (nbInst conf).toNat) hl'
          refine ⟨fun h => ?_, fun h _ => ?_⟩
          · rwa [if_pos h] at hloop
          · rwa [if_neg (by rw [h]; decide)] at hloop

/-! ## §2. What `pipeline_free` finds. -/

theorem pipelineStageFreeSafe_written (j : ℕ) (l : Ledger Resource) :
    (pipelineStageFreeSafe m j l).written = l.written := by
  unfold pipelineStageFreeSafe
  split
  · rfl
  · split <;> rfl

theorem pipelineStageFreeSafe_strays {j : ℕ} {l : Ledger Resource} (h : .stage j ∈ l.written) :
    (pipelineStageFreeSafe m j l).strays = l.strays := by
  unfold pipelineStageFreeSafe
  rw [if_neg (not_not.mpr h)]
  split <;> rfl

theorem mem_strays_pipelineStageFreeSafe {r : Resource} {j : ℕ} {l : Ledger Resource}
    (h : r ∈ l.strays) : r ∈ (pipelineStageFreeSafe m j l).strays := by
  unfold pipelineStageFreeSafe
  split
  · exact List.mem_append_left _ h
  · split <;> exact h

/-- Stages that have been stored are freed without a stray access. -/
theorem freeStages_of_written {js : List ℕ} {l : Ledger Resource}
    (h : ∀ j ∈ js, .stage j ∈ l.written) :
    (l.forEach js (pipelineStageFreeSafe m)).strays = l.strays := by
  induction js generalizing l with
  | nil => rfl
  | cons j js ih =>
      show (forEach js (pipelineStageFreeSafe m) (pipelineStageFreeSafe m j l)).strays = _
      rw [ih, pipelineStageFreeSafe_strays (h j List.mem_cons_self)]
      intro i hi
      rw [pipelineStageFreeSafe_written]
      exact h i (List.mem_cons_of_mem j hi)

theorem mem_strays_freeStages {r : Resource} {js : List ℕ} {l : Ledger Resource}
    (h : r ∈ l.strays) : r ∈ (l.forEach js (pipelineStageFreeSafe m)).strays := by
  induction js generalizing l with
  | nil => exact h
  | cons j js ih => exact ih (mem_strays_pipelineStageFreeSafe h)

/-- A stage that has not been stored is a stray access. -/
theorem freeStages_of_not_written {j : ℕ} {js : List ℕ} {l : Ledger Resource} (hj : j ∈ js)
    (h : .stage j ∉ l.written) : .stage j ∈ (l.forEach js (pipelineStageFreeSafe m)).strays := by
  induction js generalizing l with
  | nil => exact absurd hj List.not_mem_nil
  | cons i js ih =>
      rcases List.mem_cons.mp hj with rfl | hrest
      · have hnow : .stage j ∈ (pipelineStageFreeSafe m j l).strays := by
          unfold pipelineStageFreeSafe
          rw [if_pos h]
          exact List.mem_append_right _ (List.mem_singleton.mpr rfl)
        have hlater : .stage j ∈
            ((pipelineStageFreeSafe m j l).forEach js (pipelineStageFreeSafe m)).strays :=
          mem_strays_freeStages hnow
        exact hlater
      · apply ih hrest
        rw [pipelineStageFreeSafe_written]
        exact h

theorem mem_strays_restrict {j : ℕ} {l : Ledger Resource} :
    .stage j ∈ (l.restrict isStage).strays ↔ .stage j ∈ l.strays := by
  simp [restrict, isStage]

theorem mem_written_restrict {j : ℕ} {l : Ledger Resource} :
    .stage j ∈ (l.restrict isStage).written ↔ .stage j ∈ l.written := by
  simp [restrict, isStage]

/-- Without instances the loop over the stages does nothing. -/
theorem createStages_of_no_inst (h : (nbInst conf).toNat = 0) :
    Spares isStage (createStages m conf).effect := by
  unfold createStages
  rw [h]
  exact spares_andThen (spares_createPool isStage_of_not_tracked m conf)
    (spares_andThen (spares_check _) Spares.id)

/-- **A pipeline that fails**: `pipeline_free` touches only what has been created when
there are no instances, or when all of them have been. -/
theorem initPipeline_strays {l : Ledger Resource} (hl : l.restrict isStage = Ledger.empty)
    (hfail : (initPipeline m conf).ok = false) :
    (∀ j, .stage j ∉ ((initPipeline m conf).effect l).strays) ↔
      (nbInst conf).toNat = 0 ∨ (createStages m conf).ok = true := by
  have hp := isStage_of_not_tracked
  have hrest : Spares isStage (forEach [.seqState, .reorderState, .preloadedPool] free) := by
    have hspecial : ∀ r ∈ [Resource.seqState, .reorderState, .preloadedPool],
        isStage r = false := by decide
    exact Spares.forEach fun r hr => Spares.free (hspecial r hr)
  have hfail' : ((pipelineInitSafe m conf).andThen (runModeRegister m conf)).ok = false := hfail
  generalize hl' : ((pipelineInitSafe m conf).andThen (runModeRegister m conf)).effect l = l'
  -- the stages of `l'` are those that `createStages` leaves
  have hsame : l'.restrict isStage = ((createStages m conf).effect l).restrict isStage := by
    rw [← hl', restrict_andThen (spares_runModeRegister hp m conf), pipelineInitSafe,
      restrict_andThen (spares_createRings hp (fun _ => rfl) (fun _ => rfl) m conf)]
  have hfree : ∀ j, .stage j ∈ ((initPipeline m conf).effect l).strays ↔
      .stage j ∈
        (l'.forEach (List.range (nbInst conf).toNat) (pipelineStageFreeSafe m)).strays := by
    intro j
    rw [initPipeline, onFail_effect_of_fail hfail', hl', ← mem_strays_restrict, pipelineFree,
      hrest _, mem_strays_restrict]
  have hnone : ∀ n, l'.restrict isStage = made n → ∀ j, .stage j ∉ l'.strays := by
    intro n hmade j hmem
    have hin := mem_strays_restrict.mpr hmem
    rw [hmade] at hin
    exact List.not_mem_nil hin
  simp only [hfree]
  obtain ⟨hall, hsome⟩ := @createStages_stages m conf l hl
  rcases Nat.eq_zero_or_pos (nbInst conf).toNat with hzero | hpos
  · have hmade : l'.restrict isStage = made 0 :=
      hsame.trans ((createStages_of_no_inst hzero l).trans hl)
    rw [hzero]
    exact ⟨fun _ => Or.inl rfl, fun _ => hnone 0 hmade⟩
  cases hok : (createStages m conf).ok with
  | true =>
      have hmade := hsame.trans (hall hok)
      refine ⟨fun _ => Or.inr rfl, fun _ j => ?_⟩
      rw [freeStages_of_written]
      · exact hnone _ hmade j
      · intro i hi
        rw [← mem_written_restrict, hmade]
        exact mem_made.mpr (List.mem_range.mp hi)
  | false =>
      obtain ⟨k, hk, hnot⟩ := hsome hok hpos
      have hnot' : .stage k ∉ l'.written := by
        rwa [← mem_written_restrict, hsame, mem_written_restrict]
      constructor
      · intro h
        exact absurd (freeStages_of_not_written (List.mem_range.mpr hk) hnot') (h k)
      · intro h
        rcases h with h | h
        · omega
        · cases h

/-- All of the instances get created, and the pool before them. -/
def AllCreated (m : Machine) (conf : PlConf) : Prop :=
  (conf.inputMode ∈ [.textFile, .pcapFile] → m.noMem .preloadedPool = false) ∧
    nbInst conf ≤ nbInstancePerPipelineStageMax ∧
    ∀ j < (nbInst conf).toNat, m.noMem (.stage j) = false ∧ m.noMem (.funcs j) = false ∧
      m.fails (.stageInit j) = false

theorem createStages_ok_iff (h : 0 ≤ nbInst conf) :
    (createStages m conf).ok = true ↔ AllCreated m conf := by
  have hpool : (createPool m conf).ok = true ↔
      (conf.inputMode ∈ [.textFile, .pcapFile] → m.noMem .preloadedPool = false) := by
    unfold createPool
    split
    · simp_all
    · simp_all
  have hstage : ∀ j, (createStage m j).ok = true ↔
      m.noMem (.stage j) = false ∧ m.noMem (.funcs j) = false ∧ m.fails (.stageInit j) = false := by
    intro j
    simp [createStage, pipelineStageInitSafe]
  unfold createStages AllCreated
  rw [andThen_ok, andThen_ok, Bool.and_eq_true, Bool.and_eq_true, hpool, each_ok]
  simp only [hstage, check_ok, Bool.not_eq_true', decide_eq_false_iff_not, not_or, not_lt]
  tauto

/-! ## §3. The whole start-up. -/

/-- **What `pipeline_free` goes through** in a failed start-up. -/
theorem strayed_iff (hfail : (meiliRuntimeInit m conf w).ok = false) :
    (∀ j, .stage j ∉ (runtimeInit m conf w).strays) ↔
      (reachesPipeline m conf = true →
        cores (clampCores m conf) ≤ 1 ∨ AllCreated m (clampCores m conf)) := by
  have hp := isStage_of_not_tracked
  have hleads : Leads isStage (meiliRuntimeInit m conf w) fun s =>
      (∀ j, .stage j ∉ s.strays) ↔ (reachesPipeline m conf = true →
        cores (clampCores m conf) ≤ 1 ∨ AllCreated m (clampCores m conf)) := by
    refine leads_meiliRuntimeInit hp rfl ?_ ?_
    · intro hbefore
      rw [hbefore]
      exact ⟨fun _ h => absurd h (by decide), fun _ j => List.not_mem_nil⟩
    · intro hreach l hl
      rw [meiliRuntimeInit_ok, hreach, Bool.true_and] at hfail
      simp only [mem_strays_restrict, initPipeline_strays hl hfail, hreach, forall_const]
      rcases Nat.lt_or_ge 1 (cores (clampCores m conf)) with hmany | hone
      · have hpos : 0 ≤ nbInst (clampCores m conf) := by
          unfold nbInst
          omega
        have hne : (nbInst (clampCores m conf)).toNat ≠ 0 := by
          unfold nbInst
          omega
        rw [createStages_ok_iff hpos]
        constructor
        · exact Or.imp_left fun h => absurd h hne
        · exact Or.imp_left fun h => absurd h (by omega)
      · have hzero : (nbInst (clampCores m conf)).toNat = 0 := by
          unfold nbInst
          omega
        exact ⟨fun _ => Or.inl hone, fun _ => Or.inl hzero⟩
  have hrun := hleads (start conf w) (start_restrict hp fun _ => rfl)
  simp only [mem_strays_restrict] at hrun
  exact hrun

end Stages

end Meili.Runtime
