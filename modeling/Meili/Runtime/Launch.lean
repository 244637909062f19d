/-
  Meili.Runtime.Launch — the workers that `pipeline_run` starts.

  `pipeline_run` (`src/runtime/pipeline.c`) goes through the worker lcores and the
  stage instances side by side; `run_dpdk` (`src/runtime/run_dpdk.c`) then goes round
  the rings of the first and of the last stage.  Main results:
    * `launchLoop_eq` — with enough worker lcores the loop launches each instance once;
    * `meiliRuntimeInit_pipeline` — what a start-up that succeeds has created;
    * `runnable_iff` — an accepted configuration can be run when it asks for two cores
      or more and there is a worker lcore.
-/
import Meili.Conf.Sources
import Meili.Runtime.Stages

namespace Meili.Runtime

open Meili.Conf Meili.Lib Meili.Lib.Ledger Meili.Lib.Action

/-! ## §1. `pipeline_run` and `run_dpdk`. -/

/-- A worker that is launched: `pl->stages[0][inst]` on an lcore. -/
structure Launch where
  lcoreId : ℕ
  inst : ℕ
  workerQid : ℕ
  deriving Repr, DecidableEq

/-- `nb_pl_stages`. -/
def nbPlStages : ℕ := 1

/-- The loop of `pipeline_run` over the worker lcores, with `i`, `j` and `worker_qid`.
`rte_eal_remote_launch` is told which lcores are running. -/
def launchLoop (rteEalRemoteLaunch : List ℕ → ℕ → Bool) (nbInst : ℤ) :
    ℕ → ℕ → ℕ → List Launch → List ℕ → List Launch × Bool
  | _, _, _, launched, [] => (launched, true)
  | i, j, workerQid, launched, lcoreId :: rest =>
      if nbPlStages ≤ i then (launched, true)
      else if rteEalRemoteLaunch (launched.map Launch.lcoreId) lcoreId = false then
        (launched, false)
      else
        let launched := launched ++ [⟨lcoreId, j, workerQid⟩]
        if nbInst ≤ j + 1 then
          launchLoop rteEalRemoteLaunch nbInst (i + 1) 0 (workerQid + 1) launched rest
        else launchLoop rteEalRemoteLaunch nbInst i (j + 1) (workerQid + 1) launched rest

/-- `pipeline_run`: the workers that are running when `run_mode_launch` is called. -/
def pipelineRun (rteEalRemoteLaunch : List ℕ → ℕ → Bool) (m : Machine) (conf : PlConf) :
    Option (List Launch) :=
  -- "Not enough cores for workers"
  if (cores conf : ℤ) ≤ nbInst conf then none
  else
    match launchLoop rteEalRemoteLaunch (nbInst conf) 0 0 1 [] m.workers with
    | (launched, true) => some launched
    | (_, false) => none

/-- `nb_first_stage` and `nb_last_stage` in `run_dpdk`. -/
def nbFirstStage (conf : PlConf) : ℤ := if nbPlStages ≠ 0 then nbInst conf else 1

def nbLastStage (conf : PlConf) : ℤ := if nbPlStages ≠ 0 then nbInst conf else 1

/-- `ring_in_index` or `ring_out_index` behind `k` updates. -/
def ringIndex (nbStage : ℤ) : ℕ → ℤ
  | 0 => 0
  | k + 1 => (ringIndex nbStage k + 1).tmod nbStage

/-- **A runnable pipeline**: with these workers, and with the resources of `l`. -/
structure Runnable (conf : PlConf) (l : Ledger Resource) (launched : List Launch) : Prop where
  once : ∀ j : ℕ, (j : ℤ) < nbInst conf → (launched.map Launch.inst).count j = 1
  lcores : (launched.map Launch.lcoreId).Nodup
  qids : (launched.map Launch.workerQid).Nodup
  qids_range : ∀ x ∈ launched, 1 ≤ x.workerQid ∧ x.workerQid ≤ cores conf - 1
  stages : ∀ x ∈ launched, .stage x.inst ∈ l.written
  workerRings : ∀ x ∈ launched, .ringIn x.inst ∈ l.acquired ∧ .ringOut x.inst ∈ l.acquired
  ringsIn : ∀ k, .ringIn (ringIndex (nbFirstStage conf) k).toNat ∈ l.acquired
  ringsOut : ∀ k, .ringOut (ringIndex (nbLastStage conf) k).toNat ∈ l.acquired
  divisors : nbFirstStage conf ≠ 0 ∧ nbLastStage conf ≠ 0

/-! ## §2. The loop over the lcores. -/

/-- Worker `j` of the lcores in order. -/
def launchOf (lcoreId j : ℕ) : Launch where
  lcoreId := lcoreId
  inst := j
  workerQid := j + 1

/-- Instances `j`, `j + 1`, ... on the lcores in order. -/
def launches : ℕ → List ℕ → List Launch
  | _, [] => []
  | j, lcoreId :: rest => launchOf lcoreId j :: launches (j + 1) rest

theorem launches_lcoreId (j : ℕ) (lcores : List ℕ) :
    (launches j lcores).map Launch.lcoreId = lcores := by
  induction lcores generalizing j with
  | nil => rfl
  | cons lcoreId rest ih =>
      show lcoreId :: (launches (j + 1) rest).map Launch.lcoreId = _
      rw [ih]

theorem launches_inst (j : ℕ) (lcores : List ℕ) :
    (launches j lcores).map Launch.inst = List.range' j lcores.length := by
  induction lcores generalizing j with
  | nil => rfl
  | cons lcoreId rest ih =>
      show j :: (launches (j + 1) rest).map Launch.inst = _
      rw [ih]
      rfl

theorem launches_workerQid (j : ℕ) (lcores : List ℕ) :
    (launches j lcores).map Launch.workerQid = List.range' (j + 1) lcores.length := by
  induction lcores generalizing j with
  | nil => rfl
  | cons lcoreId rest ih =>
      show (j + 1) :: (launches (j + 1) rest).map Launch.workerQid = _
      rw [ih]
      rfl

section Loop

variable {rteEalRemoteLaunch : List ℕ → ℕ → Bool}
  (hlaunch : ∀ running lcoreId, lcoreId ∉ running → rteEalRemoteLaunch running lcoreId = true)

include hlaunch

/-- **The loop** launches the instances from `j` on, each on the next lcore. -/
theorem launchLoop_eq {n j : ℕ} {launched : List Launch} {lcores : List ℕ} (hj : j < n)
    (henough : n - j ≤ lcores.length) (hnodup : (launched.map Launch.lcoreId ++ lcores).Nodup) :
    launchLoop rteEalRemoteLaunch n 0 j (j + 1) launched lcores
      = (launched ++ launches j (lcores.take (n - j)), true) := by
  induction lcores generalizing j launched with
  | nil =>
      simp only [List.length_nil] at henough
      omega
  | cons lcoreId rest ih =>
      have hfresh : lcoreId ∉ launched.map Launch.lcoreId := by
        intro hmem
        exact (List.nodup_append.mp hnodup).2.2 lcoreId hmem lcoreId List.mem_cons_self rfl
      have hnodup' : ((launched ++ [launchOf lcoreId j]).map Launch.lcoreId ++ rest).Nodup := by
        rw [List.map_append, List.append_assoc]
        exact hnodup
      have hok := hlaunch (launched.map Launch.lcoreId) lcoreId hfresh
      unfold launchLoop
      rw [if_neg (by decide), if_neg (by rw [hok]; decide)]
      show (if (n : ℤ) ≤ j + 1 then _ else _) = _
      by_cases hlast : n = j + 1
      · -- the last instance: `i` is 1 from now on
        have hone : n - j = 1 := by omega
        rw [if_pos (by omega), hone]
        cases rest with
        | nil => rfl
        | cons next rest => rfl
      · have hmore : n - j = (n - (j + 1)) + 1 := by omega
        rw [if_neg (by omega), hmore, List.take_succ_cons]
        have hlen : n - (j + 1) ≤ rest.length := by
          simp only [List.length_cons] at henough
          omega
        show launchLoop rteEalRemoteLaunch n 0 (j + 1) (j + 1 + 1)
          (launched ++ [launchOf lcoreId j]) rest = _
        rw [ih (by omega) hlen hnodup', List.append_assoc]
        rfl

end Loop

/-! ## §3. What a start-up that succeeds has created. -/

/-- The rings at both ends of the pipeline. -/
def isRing : Resource → Bool
  | .ringIn _ => true
  | .ringOut _ => true
  | _ => false

theorem isRing_of_not_tracked (r : Resource) (h : tracked r = false) : isRing r = false := by
  cases r <;> first | rfl | cases h

section Created

variable {m : Machine} {conf : PlConf} {w : ℕ}

/-- The number of instances has been checked. -/
theorem nbInst_of_ok (h : (createStages m conf).ok = true) :
    0 ≤ nbInst conf ∧ nbInst conf ≤ nbInstancePerPipelineStageMax := by
  simp only [createStages, andThen_ok, check_ok, Bool.and_eq_true, Bool.not_eq_true',
    decide_eq_false_iff_not, not_or, not_lt] at h
  exact ⟨h.2.1.2, h.2.1.1⟩

/-- A loop of acquisitions that succeeds has acquired all of its resources. -/
theorem each_acquire {n : ℕ} {r : ℕ → Resource} {fails : ℕ → Bool} {l : Ledger Resource}
    (h : (each n fun i => acquire (fails i) (r i)).ok = true) :
    (∀ x ∈ l.acquired, x ∈ ((each n fun i => acquire (fails i) (r i)).effect l).acquired) ∧
      ∀ i < n, r i ∈ ((each n fun i => acquire (fails i) (r i)).effect l).acquired := by
  have hloop := each_rule (n := n) (f := fun i => acquire (fails i) (r i)) (l := l)
    (I := fun k l' => (∀ x ∈ l.acquired, x ∈ l'.acquired) ∧ ∀ i < k, r i ∈ l'.acquired)
    (Q := fun _ => True) ⟨fun _ hx => hx, fun i hi => absurd hi (Nat.not_lt_zero i)⟩ ?_
    (fun _ _ _ _ _ => trivial)
  · rwa [if_pos h] at hloop
  · intro k _ l' hl' hok
    have hfails : fails k = false := by simpa using hok
    rw [hfails]
    show (∀ x ∈ l.acquired, x ∈ l'.acquired ++ [r k]) ∧ ∀ i < k + 1, r i ∈ l'.acquired ++ [r k]
    refine ⟨fun x hx => List.mem_append_left _ (hl'.1 x hx), fun i hi => ?_⟩
    rcases Nat.lt_succ_iff_lt_or_eq.mp hi with hlt | rfl
    · exact List.mem_append_left _ (hl'.2 i hlt)
    · exact List.mem_append_right _ (List.mem_singleton.mpr rfl)

/-- Both loops over the rings. -/
theorem createRings_rings {l : Ledger Resource} (h : (createRings m conf).ok = true) :
    ∀ j < (nbInst conf).toNat, .ringIn j ∈ ((createRings m conf).effect l).acquired ∧
      .ringOut j ∈ ((createRings m conf).effect l).acquired := by
  unfold createRings at h ⊢
  simp only [andThen_ok, Bool.and_eq_true] at h
  obtain ⟨hts, hseq, hreorder, hin, hout⟩ := h
  rw [andThen_effect_of_ok hts, andThen_effect_of_ok hseq, andThen_effect_of_ok hreorder,
    andThen_effect_of_ok hin]
  intro j hj
  exact ⟨(each_acquire hout).1 _ ((each_acquire hin).2 j hj), (each_acquire hout).2 j hj⟩

theorem initPipeline_ok (h : (initPipeline m conf).ok = true) :
    (createStages m conf).ok = true ∧ (createRings m conf).ok = true ∧
      (runModeRegister m conf).ok = true := by
  simp only [initPipeline, pipelineInitSafe, onFail_ok, andThen_ok, Bool.and_eq_true] at h
  exact ⟨h.1.1, h.1.2, h.2⟩

theorem initPipeline_effect (h : (initPipeline m conf).ok = true) (l : Ledger Resource) :
    (initPipeline m conf).effect l = (runModeRegister m conf).effect
      ((createRings m conf).effect ((createStages m conf).effect l)) := by
  obtain ⟨hstages, hrings, -⟩ := initPipeline_ok h
  have hpipeline : (pipelineInitSafe m conf).ok = true := by
    rw [pipelineInitSafe, andThen_ok, hstages, hrings]
    rfl
  have hboth : ((pipelineInitSafe m conf).andThen (runModeRegister m conf)).ok = true := h
  rw [initPipeline, onFail_effect_of_ok hboth, andThen_effect_of_ok hpipeline, pipelineInitSafe,
    andThen_effect_of_ok hstages]

/-- **A start-up that succeeds** has stored every instance and created its rings. -/
theorem meiliRuntimeInit_pipeline (h : (meiliRuntimeInit m conf w).ok = true) :
    (0 ≤ nbInst (clampCores m conf) ∧
        nbInst (clampCores m conf) ≤ nbInstancePerPipelineStageMax) ∧
      ∀ j < (nbInst (clampCores m conf)).toNat, .stage j ∈ (runtimeInit m conf w).written ∧
        .ringIn j ∈ (runtimeInit m conf w).acquired ∧
        .ringOut j ∈ (runtimeInit m conf w).acquired := by
  rw [meiliRuntimeInit_ok, Bool.and_eq_true] at h
  obtain ⟨hreach, hok⟩ := h
  have hrest := initPipeline_ok hok
  refine ⟨nbInst_of_ok hrest.1, fun j hj => ⟨?_, ?_⟩⟩
  · have hleads : Leads isStage (meiliRuntimeInit m conf w) fun s => .stage j ∈ s.written := by
      refine leads_meiliRuntimeInit isStage_of_not_tracked rfl ?_ ?_
      · intro hnot
        rw [hreach] at hnot
        cases hnot
      · intro _ l hl
        rw [initPipeline_effect hok, spares_runModeRegister isStage_of_not_tracked m _ _,
          spares_createRings isStage_of_not_tracked (fun _ => rfl) (fun _ => rfl) m _ _,
          (createStages_stages hl).1 hrest.1]
        exact mem_made.mpr hj
    exact mem_written_restrict.mp
      (hleads _ (start_restrict isStage_of_not_tracked fun _ => rfl))
  · have hleads : Leads isRing (meiliRuntimeInit m conf w) fun s =>
        .ringIn j ∈ s.acquired ∧ .ringOut j ∈ s.acquired := by
      refine leads_meiliRuntimeInit isRing_of_not_tracked rfl ?_ ?_
      · intro hnot
        rw [hreach] at hnot
        cases hnot
      · intro _ l _
        rw [initPipeline_effect hok, spares_runModeRegister isRing_of_not_tracked m _ _]
        have hrings := createRings_rings
          (l := (createStages m (clampCores m conf)).effect l) hrest.2.1 j hj
        exact ⟨List.mem_filter.mpr ⟨hrings.1, rfl⟩, List.mem_filter.mpr ⟨hrings.2, rfl⟩⟩
    have hrings := hleads (start conf w) (start_restrict isRing_of_not_tracked fun _ => rfl)
    exact ⟨List.mem_of_mem_filter hrings.1, List.mem_of_mem_filter hrings.2⟩

end Created

/-! ## §4. Runnable configurations. -/

theorem cores_clampCores (m : Machine) (conf : PlConf) :
    cores (clampCores m conf) = min (cores conf) m.lcoreCount := by
  unfold clampCores
  split
  next hfew =>
    have hsmall : m.lcoreCount < 2 ^ 32 := hfew.trans (conf.num .cores).toNat_lt
    show (Function.update conf.num .cores (UInt32.ofNat m.lcoreCount) .cores).toNat = _
    rw [Function.update_self, UInt32.toNat_ofNat', Nat.mod_eq_of_lt hsmall]
    omega
  next henough => omega

theorem coresGiven_pos (env : Env) (prgname : Str) (argv : List Str) :
    1 ≤ (coresGiven env prgname argv).toNat := by
  have hne : coresGiven env prgname argv ≠ 0 := by
    unfold coresGiven
    cases hfirst : (values (.num .cores) (given env prgname argv)).findSome? nonzeroOf with
    | none => decide
    | some n =>
        obtain ⟨v, -, hv⟩ := List.exists_of_findSome?_eq_some hfirst
        rintro rfl
        exact nonzeroOf_ne hv
  by_contra hzero
  exact hne (UInt32.toNat_inj.mp (by rw [UInt32.toNat_zero]; omega))

/-- The ring index stays below the divisor. -/
theorem ringIndex_lt {nbStage : ℤ} (h : 0 < nbStage) (k : ℕ) :
    0 ≤ ringIndex nbStage k ∧ ringIndex nbStage k < nbStage := by
  induction k with
  | zero => exact ⟨le_refl 0, h⟩
  | succ k ih =>
      have hnonneg : 0 ≤ ringIndex nbStage k + 1 := by omega
      exact ⟨Int.tmod_nonneg nbStage hnonneg, Int.tmod_lt_of_pos _ h⟩

section Main

variable {rteEalRemoteLaunch : List ℕ → ℕ → Bool} {m : Machine} {conf : PlConf}

theorem nbFirstStage_eq : nbFirstStage conf = nbInst conf := if_pos (by decide)

theorem nbLastStage_eq : nbLastStage conf = nbInst conf := if_pos (by decide)

/-- **A worker for every instance**: the launches of `pipeline_run`. -/
theorem pipelineRun_eq
    (hlaunch : ∀ running lcoreId, lcoreId ∉ running → rteEalRemoteLaunch running lcoreId = true)
    (hcores : 2 ≤ cores conf) (henough : cores conf ≤ m.lcoreCount) :
    pipelineRun rteEalRemoteLaunch m conf
      = some (launches 0 (m.workers.take (cores conf - 1))) := by
  have hinst : nbInst conf = ((cores conf - 1 : ℕ) : ℤ) := by
    unfold nbInst
    omega
  have hworkers : cores conf - 1 - 0 ≤ m.workers.length := by
    unfold Machine.lcoreCount at henough
    omega
  have hfresh : (([] : List Launch).map Launch.lcoreId ++ m.workers).Nodup := m.workers_nodup
  unfold pipelineRun
  rw [if_neg (by unfold nbInst; omega), hinst,
    launchLoop_eq hlaunch (by omega) hworkers hfresh]
  rfl

/-- The instances of a pipeline that was created are launched, each once. -/
theorem runnable_launches {l : Ledger Resource} (hcores : 2 ≤ cores conf)
    (henough : cores conf ≤ m.lcoreCount)
    (hcreated : ∀ j < (nbInst conf).toNat,
      .stage j ∈ l.written ∧ .ringIn j ∈ l.acquired ∧ .ringOut j ∈ l.acquired) :
    Runnable conf l (launches 0 (m.workers.take (cores conf - 1))) := by
  have hlen : (m.workers.take (cores conf - 1)).length = cores conf - 1 := by
    unfold Machine.lcoreCount at henough
    rw [List.length_take]
    omega
  have hinst : ∀ x ∈ launches 0 (m.workers.take (cores conf - 1)),
      x.inst < (nbInst conf).toNat := by
    intro x hx
    have hmem : x.inst ∈ List.range' 0 (cores conf - 1) := by
      rw [← hlen, ← launches_inst]
      exact List.mem_map_of_mem hx
    rw [List.mem_range'_1] at hmem
    unfold nbInst
    omega
  have hpos : 0 < nbInst conf := by
    unfold nbInst
    omega
  have hring : ∀ k, (ringIndex (nbInst conf) k).toNat < (nbInst conf).toNat := by
    intro k
    have hlt := ringIndex_lt hpos k
    omega
  constructor
  · intro j hj
    rw [launches_inst, hlen]
    apply List.count_eq_one_of_mem List.nodup_range'
    rw [List.mem_range'_1]
    unfold nbInst at hj
    omega
  · rw [launches_lcoreId]
    exact (List.take_sublist _ _).nodup m.workers_nodup
  · rw [launches_workerQid]
    exact List.nodup_range'
  · intro x hx
    have hmem : x.workerQid ∈ List.range' 1 (cores conf - 1) := by
      rw [← hlen, ← launches_workerQid]
      exact List.mem_map_of_mem hx
    rw [List.mem_range'_1] at hmem
    omega
  · exact fun x hx => (hcreated x.inst (hinst x hx)).1
  · exact fun x hx => (hcreated x.inst (hinst x hx)).2
  · intro k
    rw [nbFirstStage_eq]
    exact (hcreated _ (hring k)).2.1
  · intro k
    rw [nbLastStage_eq]
    exact (hcreated _ (hring k)).2.2
  · rw [nbFirstStage_eq, nbLastStage_eq]
    omega

/-- **Which accepted configurations can be run**: those that ask for two cores or more,
on a machine with a worker lcore. -/
theorem runnable_iff {rteMaxLcore : ℕ} {env : Env} {prgname : Str} {argv : List Str}
    {noConfWarnings : ℕ}
    (hlaunch : ∀ running lcoreId, lcoreId ∉ running → rteEalRemoteLaunch running lcoreId = true)
    (hsetup : confSetup rteMaxLcore env prgname argv = .ok conf)
    (hinit : (meiliRuntimeInit m conf noConfWarnings).ok = true) :
    (∃ launched, pipelineRun rteEalRemoteLaunch m (clampCores m conf) = some launched ∧
        Runnable (clampCores m conf) (runtimeInit m conf noConfWarnings) launched) ↔
      2 ≤ (coresGiven env prgname argv).toNat ∧ m.workers ≠ [] := by
  have hgiven : cores conf = (coresGiven env prgname argv).toNat := by
    unfold cores
    rw [confSetup_cores hsetup]
  have hclamp := cores_clampCores m conf
  have hpos := coresGiven_pos env prgname argv
  constructor
  · intro h
    obtain ⟨launched, -, hrun⟩ := h
    have hdiv := hrun.divisors.1
    rw [nbFirstStage_eq, nbInst, hclamp, hgiven] at hdiv
    unfold Machine.lcoreCount at hdiv
    refine ⟨by omega, fun hnone => ?_⟩
    rw [hnone, List.length_nil] at hdiv
    omega
  · intro h
    obtain ⟨htwo, hsome⟩ := h
    have hworkers := List.length_pos_iff.mpr hsome
    have hcores : 2 ≤ cores (clampCores m conf) := by
      unfold Machine.lcoreCount at hclamp
      omega
    have henough : cores (clampCores m conf) ≤ m.lcoreCount := by omega
    exact ⟨_, pipelineRun_eq hlaunch hcores henough,
      runnable_launches hcores henough (meiliRuntimeInit_pipeline hinit).2⟩

end Main

/-- `rte_eal_remote_launch`, with every lcore waiting at first. -/
def launchWaiting (running : List ℕ) (lcoreId : ℕ) : Bool := lcoreId ∉ running

/-- `dpdk_port` mode, with what it needs and no more. -/
def liveArgs : List Str :=
  ["-D".toList, "-n 4".toList, "-m".toList, "dpdk_port".toList, "-1".toList, "port".toList,
    "-d".toList, "rxp".toList, "-r".toList, "rules".toList]

/-- Three cores: two workers are launched, and the pipeline is runnable. -/
theorem threeCores_runnable : ∃ conf launched,
    confSetup 128 (oneFile []) meili (liveArgs ++ ["-c".toList, "3".toList]) = .ok conf ∧
      pipelineRun launchWaiting
        (twoWorkers (fun _ => false) fun _ => false)
        (clampCores (twoWorkers (fun _ => false) fun _ => false) conf) = some launched ∧
      Runnable (clampCores (twoWorkers (fun _ => false) fun _ => false) conf)
        (runtimeInit (twoWorkers (fun _ => false) fun _ => false) conf 0) launched := by
  obtain ⟨conf, hsetup, hinit⟩ := ok_of_map
    (e := confSetup 128 (oneFile []) meili (liveArgs ++ ["-c".toList, "3".toList]))
    (f := fun conf => (meiliRuntimeInit (twoWorkers (fun _ => false) fun _ => false) conf 0).ok)
    (a := true) (by decide +kernel)
  have hlaunch : ∀ running lcoreId, lcoreId ∉ running → launchWaiting running lcoreId = true :=
    fun _ _ h => decide_eq_true h
  obtain ⟨launched, hrun⟩ := (runnable_iff hlaunch hsetup hinit).mpr
    ⟨by decide +kernel, by decide⟩
  exact ⟨conf, launched, hsetup, hrun⟩

/-- **The default number of cores**, one: an instance is launched that has never been
created, with a `worker_qid` that there is no statistics entry for, and `run_dpdk`
divides by 0. -/
theorem defaultCores_not_runnable : ∃ conf, confSetup 128 (oneFile []) meili liveArgs = .ok conf ∧
    conf.inputMode = .live ∧
    (meiliRuntimeInit (twoWorkers (fun _ => false) fun _ => false) conf 0).ok = true ∧
    pipelineRun launchWaiting
      (twoWorkers (fun _ => false) fun _ => false)
      (clampCores (twoWorkers (fun _ => false) fun _ => false) conf) = some [⟨1, 0, 1⟩] ∧
    cores (clampCores (twoWorkers (fun _ => false) fun _ => false) conf) = 1 ∧
    .stage 0 ∉ (runtimeInit (twoWorkers (fun _ => false) fun _ => false) conf 0).written ∧
    nbFirstStage (clampCores (twoWorkers (fun _ => false) fun _ => false) conf) = 0 ∧
    ¬ Runnable (clampCores (twoWorkers (fun _ => false) fun _ => false) conf)
      (runtimeInit (twoWorkers (fun _ => false) fun _ => false) conf 0) [⟨1, 0, 1⟩] := by
  obtain ⟨conf, hsetup, hx⟩ := ok_of_map (e := confSetup 128 (oneFile []) meili liveArgs)
    (f := fun conf => decide (conf.inputMode = .live ∧
      (meiliRuntimeInit (twoWorkers (fun _ => false) fun _ => false) conf 0).ok = true ∧
      pipelineRun launchWaiting
        (twoWorkers (fun _ => false) fun _ => false)
        (clampCores (twoWorkers (fun _ => false) fun _ => false) conf) = some [⟨1, 0, 1⟩] ∧
      cores (clampCores (twoWorkers (fun _ => false) fun _ => false) conf) = 1 ∧
      .stage 0 ∉ (runtimeInit (twoWorkers (fun _ => false) fun _ => false) conf 0).written ∧
      nbFirstStage (clampCores (twoWorkers (fun _ => false) fun _ => false) conf) = 0))
    (a := true) (by decide +kernel)
  obtain ⟨hmode, hinit, hrun, hcores, hstage, hdiv⟩ := of_decide_eq_true hx
  exact ⟨conf, hsetup, hmode, hinit, hrun, hcores, hstage, hdiv, fun h => h.divisors.1 hdiv⟩

end Meili.Runtime
