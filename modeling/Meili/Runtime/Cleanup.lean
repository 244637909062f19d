/-
  Meili.Runtime.Cleanup — when the cleanup chain does its work.

  A start-up that fails goes to one of the labels of `meili_runtime_init` and falls
  through the ones below: `pipeline_free`, `input_clean`, `stats_clean`, `conf_clean`.
-/
import Meili.Runtime.Stages

namespace Meili.Runtime

open Meili.Conf Meili.Lib Meili.Lib.Ledger Meili.Lib.Action

section Main

variable {m : Machine} {conf : PlConf} {w : ℕ}

theorem initDpdk_fails_iff :
    (initDpdk m conf).ok = false ↔ conf.dpdkArgv.length ≤ 1 ∨ m.fails .ealInit = true := by
  simp only [initDpdk, andThen_ok, check_ok, Bool.and_eq_false_iff, Bool.not_eq_false',
    decide_eq_true_eq]

theorem statsInit_fails_iff : (statsInit m).ok = false ↔ ∃ r ∈ statsSlots, m.noMem r = true := by
  simp only [statsInit, andThen_ok, onFail_ok, acquire_ok, Bool.and_eq_false_iff,
    Bool.not_eq_false']
  simp [statsSlots]

/-- **The cleanup chain of a failed start-up** frees all that was acquired only when
there are no arguments for the EAL.  Apart from their copies, which nothing frees, the
failure has to come before the input; and `pipeline_free` keeps to the instances
there are only when it is not reached, or there are to be none, or all of them have
been created. -/
theorem startup_cleanup_iff (m : Machine) (conf : PlConf) (noConfWarnings : ℕ)
    (hfail : (meiliRuntimeInit m conf noConfWarnings).ok = false) :
    ((runtimeInit m conf noConfWarnings).Exact (fun _ => false) ↔ conf.dpdkArgv.length ≤ 1) ∧
      ((runtimeInit m conf noConfWarnings).Exact isDpdkArg ↔
        conf.dpdkArgv.length ≤ 1 ∨ m.fails .ealInit = true ∨
          ∃ r ∈ statsSlots, m.noMem r = true) ∧
      ((∀ j, .stage j ∉ (runtimeInit m conf noConfWarnings).strays) ↔
        (reachesPipeline m conf = true →
          cores (clampCores m conf) ≤ 1 ∨ AllCreated m (clampCores m conf))) := by
  refine ⟨⟨?_, ?_⟩, ⟨?_, ?_⟩, strayed_iff hfail⟩
  · intro hexact
    by_contra hargs
    obtain ⟨hacq, hrel⟩ := leak_dpdkArg (m := m) (w := noConfWarnings) (not_le.mp hargs)
    exact not_exact_of_leak hacq rfl hrel hexact
  · intro hargs
    apply exact_of_initDpdk_failed (initDpdk_fails_iff.mpr (Or.inl hargs))
    intro i hi
    omega
  · intro hexact
    by_contra hlate
    rw [← or_assoc, ← initDpdk_fails_iff, ← statsInit_fails_iff, not_or,
      Bool.not_eq_false, Bool.not_eq_false] at hlate
    obtain ⟨hacq, hrel⟩ := leak_latStats hfail hlate.1 hlate.2
    exact not_exact_of_leak hacq rfl hrel hexact
  · rw [← or_assoc, ← initDpdk_fails_iff, ← statsInit_fails_iff]
    intro hearly
    cases hdpdk : (initDpdk m conf).ok with
    | false => exact exact_of_initDpdk_failed hdpdk fun _ _ => rfl
    | true =>
        have hstats := hearly.resolve_left (by rw [hdpdk]; decide)
        exact exact_of_statsInit_failed hdpdk hstats fun _ _ => rfl

end Main

/-- Three cores in `dpdk_port` mode, with one argument for the EAL. -/
def liveConf : PlConf where
  dpdkArgv := [['m'], ['-', 'n']]
  regexPcie := none
  num f := if f = .cores then 3 else if f = .inputBatches then 4 else 0
  str f := if f = .port1 ∨ f = .compiledRulesFile then some ['f'] else none
  flag _ := false
  regexDevType := .dpdkRegex
  inputMode := .live

/-- No memory for `lat_stats`: all is freed again, but for the argument of the EAL. -/
theorem liveConf_latStats_failed :
    (runtimeInit (twoWorkers (· = .latStats) fun _ => false) liveConf 0).Exact isDpdkArg ∧
      ¬ (runtimeInit (twoWorkers (· = .latStats) fun _ => false) liveConf 0).Exact
        (fun _ => false) ∧
      ∀ j, .stage j ∉
        (runtimeInit (twoWorkers (· = .latStats) fun _ => false) liveConf 0).strays := by
  obtain ⟨hall, hargs, hstages⟩ :=
    startup_cleanup_iff (twoWorkers (· = .latStats) fun _ => false) liveConf 0 (by decide +kernel)
  refine ⟨hargs.mpr (Or.inr (Or.inr ⟨.latStats, by decide, rfl⟩)), ?_, ?_⟩
  · rw [hall]
    decide
  · rw [hstages]
    intro hreach
    exact absurd hreach (by decide +kernel)

/-- The second instance cannot be initialised: `lat_stats` stays behind, and
`pipeline_free` reads the slot of that instance, which has never been written. -/
theorem liveConf_stage_failed :
    (meiliRuntimeInit (twoWorkers (fun _ => false) (· = .stageInit 1)) liveConf 0).ok = false ∧
      ¬ (runtimeInit (twoWorkers (fun _ => false) (· = .stageInit 1)) liveConf 0).Exact
        isDpdkArg ∧
      .stage 1 ∈ (runtimeInit (twoWorkers (fun _ => false) (· = .stageInit 1)) liveConf 0).strays :=
  ⟨by decide +kernel,
    not_exact_of_leak (r := .latStats) (by decide +kernel) rfl (by decide +kernel),
    by decide +kernel⟩

end Meili.Runtime
