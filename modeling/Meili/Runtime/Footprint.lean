/-
  Meili.Runtime.Footprint — which resources a step of the start-up leaves alone.

  Some kinds of resources are followed through a whole start-up; every step but the
  one that is about them spares them.
-/
import Meili.Runtime.Startup

namespace Meili.Runtime

open Meili.Conf Meili.Lib Meili.Lib.Ledger Meili.Lib.Action

/-! ## §1. DPDK, the statistics and the configuration. -/

/-- The resources that are followed through a start-up: those that the cleanup chain
has trouble with, and those that the pipeline runs on. -/
def tracked : Resource → Bool
  | .dpdkArg _ => true
  | .latStats => true
  | .stage _ => true
  | .ringIn _ => true
  | .ringOut _ => true
  | _ => false

theorem spares_initDpdk {p : Resource → Bool} (m : Machine) (conf : PlConf) :
    Spares p (initDpdk m conf).effect :=
  spares_andThen (spares_check _) (spares_check _)

section Footprint

variable {p : Resource → Bool} (hp : ∀ r, tracked r = false → p r = false)

include hp

theorem spares_warnCores (m : Machine) (conf : PlConf) (w : ℕ) :
    Spares p (warnCores m conf w).effect := by
  unfold warnCores meiliLogRecord
  split
  · show Spares p (Action.effect (if w = maxWarnings then skip else _))
    split
    · exact Spares.id
    · exact spares_acquire _ (hp _ rfl)
  · exact Spares.id

theorem spares_statsInit (hlat : p .latStats = false) (m : Machine) :
    Spares p (statsInit m).effect :=
  spares_andThen (spares_acquire _ (hp _ rfl)) <|
    spares_onFail
      (spares_andThen (spares_acquire _ (hp _ rfl)) <|
        spares_onFail
          (spares_andThen (spares_acquire _ (hp _ rfl)) <|
            spares_onFail (spares_acquire _ hlat) (Spares.release (hp _ rfl)))
          (Spares.release (hp _ rfl)))
      (Spares.release (hp _ rfl))

theorem spares_statsClean : Spares p statsClean := by
  have hfree : ∀ r ∈ [Resource.rmStats, .stats, .inputPktStats], tracked r = false := by decide
  exact Spares.forEach fun r hr => Spares.free (hp r (hfree r hr))

theorem spares_confClean (w : ℕ) : Spares p (confClean w) := by
  have hfree : ∀ r ∈ confOwned, tracked r = false := by decide
  have hwarnings : Spares p (forEach ((List.range w).map .warning) free) := by
    apply Spares.forEach
    intro r hr
    obtain ⟨i, -, rfl⟩ := List.mem_map.mp hr
    exact Spares.free (hp _ rfl)
  have howned : Spares p (forEach confOwned free) :=
    Spares.forEach fun r hr => Spares.free (hp r (hfree r hr))
  exact fun l => (howned _).trans (hwarnings l)

theorem spares_utilLoadFileToBuffer (m : Machine) {buf : Resource} (hbuf : tracked buf = false) :
    Spares p (utilLoadFileToBuffer m buf).effect :=
  spares_andThen (spares_check _) <|
    spares_andThen (spares_acquire _ (hp _ hbuf)) <|
      spares_onFail (spares_check _) (Spares.release (hp _ hbuf))

/-! ## §2. Input. -/

theorem spares_inputDpdkPortInit (m : Machine) (conf : PlConf) (portIdx : ℕ) :
    Spares p (inputDpdkPortInit m conf portIdx).effect := by
  refine spares_andThen (spares_check _) (spares_andThen (spares_andThen ?_ ?_) (spares_check _))
  · split
    · exact spares_acquire _ (hp _ rfl)
    · exact Spares.ite Spares.id (Spares.comp (Spares.alloc (hp _ rfl)) (Spares.stray (hp _ rfl)))
  · exact spares_andThen (spares_check _) (spares_check _)

theorem spares_inputDpdkPortClean (conf : PlConf) : Spares p (inputDpdkPortClean conf) := by
  refine Spares.ite (Spares.comp (Spares.forEach ?_) (Spares.free (hp _ rfl))) Spares.id
  intro i _
  refine Spares.comp (Spares.forEach ?_) (Spares.free (hp _ rfl))
  intro j _
  split
  · exact Spares.free (hp _ rfl)
  · exact Spares.stray (hp _ rfl)

theorem spares_inputRegister (m : Machine) (conf : PlConf) :
    Spares p (inputRegister m conf).effect :=
  spares_andThen (spares_acquire _ (hp _ rfl)) <|
    spares_onFail (spares_check _) (Spares.release (hp _ rfl))

theorem spares_inputInit (m : Machine) (conf : PlConf) : Spares p (inputInit m conf).effect := by
  unfold inputInit
  split
  · exact spares_utilLoadFileToBuffer hp m rfl
  · exact Spares.id
  · refine spares_andThen (spares_check _) <|
      spares_andThen (spares_acquire _ (hp _ rfl)) <|
        spares_andThen (spares_each ?_) <|
          spares_onFail (spares_each ?_) (spares_inputDpdkPortClean hp conf)
    · exact fun i _ => spares_acquire _ (hp _ rfl)
    · exact fun i _ => spares_inputDpdkPortInit hp m conf i
  · exact spares_check _

theorem spares_inputClean (conf : PlConf) : Spares p (inputClean conf) := by
  unfold inputClean
  refine Spares.comp ?_ (Spares.free (hp _ rfl))
  cases conf.inputMode with
  | textFile => exact Spares.free (hp _ rfl)
  | live => exact spares_inputDpdkPortClean hp conf
  | pcapFile => exact Spares.id
  | jobFormat => exact Spares.id
  | remoteMmap => exact Spares.id
  | unknown => exact Spares.id

/-! ## §3. The regex device. -/

theorem spares_freeArray {arr : Resource} {entry : ℕ → Resource} (harr : tracked arr = false)
    (hentry : ∀ i, tracked (entry i) = false) (n : ℕ) : Spares p (freeArray arr entry n) :=
  Spares.ite
    (Spares.comp (Spares.forEach fun i _ => Spares.freeSlot false (hp _ (hentry i)))
      (Spares.free (hp _ harr)))
    Spares.id

theorem spares_regexDevDpdkBfClean (conf : PlConf) : Spares p (regexDevDpdkBfClean conf) := by
  have htx : Spares p (freeArray .opsArrTx .opTx (numEntries conf)) :=
    spares_freeArray hp rfl (fun _ => rfl) _
  have hrx : Spares p (freeArray .opsArrRx .opRx (numEntries conf)) :=
    spares_freeArray hp rfl (fun _ => rfl) _
  have hpools : Spares p (freeArray .regexPools .regexPool (cores conf)) :=
    spares_freeArray hp rfl (fun _ => rfl) _
  intro l
  -- the last effect first
  exact (Spares.free (hp _ rfl) _).trans <| (Spares.free (hp _ rfl) _).trans <|
    (hpools _).trans <| (hrx _).trans (htx l)

theorem spares_regexDevDpdkBfConfig (m : Machine) (conf : PlConf) :
    Spares p (regexDevDpdkBfConfig m conf).effect :=
  spares_andThen (spares_check _) <|
    spares_andThen (spares_check _) <|
      spares_andThen (spares_utilLoadFileToBuffer hp m rfl) <|
        spares_onFail
          (spares_andThen (spares_check _) (spares_each fun _ _ => spares_check _))
          (Spares.release (hp _ rfl))

theorem spares_regexDevInitOps (m : Machine) (conf : PlConf) :
    Spares p (regexDevInitOps m conf).effect := by
  refine spares_andThen (spares_acquire _ (hp _ rfl)) <|
    spares_andThen (spares_acquire _ (hp _ rfl)) <|
      spares_andThen (spares_each ?_) <|
        spares_andThen (spares_acquire _ (hp _ rfl)) <|
          spares_andThen (spares_each ?_) (spares_acquire _ (hp _ rfl))
  · exact fun i _ => spares_andThen (spares_acquire _ (hp _ rfl)) (spares_acquire _ (hp _ rfl))
  · exact fun i _ => spares_acquire _ (hp _ rfl)

theorem spares_meiliRegexInit (m : Machine) (conf : PlConf) :
    Spares p (meiliRegexInit m conf).effect := by
  have hregister : Spares p (regexDevRegister m conf).effect :=
    spares_andThen (spares_acquire _ (hp _ rfl)) <|
      spares_onFail (spares_check _) (Spares.release (hp _ rfl))
  have hinit : Spares p (regexDevDpdkBfInit m conf).effect :=
    spares_andThen (spares_check _) <|
      spares_andThen (spares_regexDevDpdkBfConfig hp m conf) <|
        spares_onFail (spares_regexDevInitOps hp m conf) (spares_regexDevDpdkBfClean hp conf)
  exact spares_andThen hregister (spares_andThen (spares_check _) hinit)

/-! ## §4. The pipeline, but for its stages. -/

theorem spares_createRings (hin : ∀ j, p (.ringIn j) = false) (hout : ∀ j, p (.ringOut j) = false)
    (m : Machine) (conf : PlConf) : Spares p (createRings m conf).effect := by
  have hreorder : Spares p (reorderInit m).effect :=
    spares_andThen (spares_acquire _ (hp _ rfl)) (spares_unchecked _ (hp _ rfl))
  exact spares_andThen (spares_check _) <|
    spares_andThen (spares_acquire _ (hp _ rfl)) <|
      spares_andThen hreorder <|
        spares_andThen (spares_each fun j _ => spares_acquire _ (hin j))
          (spares_each fun j _ => spares_acquire _ (hout j))

theorem spares_createPool (m : Machine) (conf : PlConf) : Spares p (createPool m conf).effect := by
  unfold createPool
  split
  · exact spares_acquire _ (hp _ rfl)
  · exact Spares.id

/-- The loop over the stages, for what is none of the stages. -/
theorem spares_createStages (hstage : ∀ j, p (.stage j) = false) (m : Machine) (conf : PlConf) :
    Spares p (createStages m conf).effect := by
  refine spares_andThen (spares_createPool hp m conf)
    (spares_andThen (spares_check _) (spares_each fun j _ => ?_))
  exact spares_andThen (spares_unchecked _ (hstage j)) <|
    spares_andThen (spares_andThen (spares_acquire _ (hp _ rfl)) (spares_acquire _ (hp _ rfl)))
      (Spares.write (hstage j))

theorem spares_pipelineFree (hstage : ∀ j, p (.stage j) = false) (m : Machine) (conf : PlConf) :
    Spares p (pipelineFree m conf) := by
  have hspecial : ∀ r ∈ [Resource.seqState, .reorderState, .preloadedPool], tracked r = false := by
    decide
  have hone : ∀ j, Spares p (pipelineStageFreeSafe m j) := by
    intro j
    refine Spares.ite (Spares.stray (hstage j))
      (Spares.ite (c := fun _ => m.fails (.stageFree j) = true) Spares.id ?_)
    intro l
    exact (Spares.release (hstage j) _).trans <| (Spares.release (hp _ rfl) _).trans <|
      Spares.release (hp _ rfl) l
  have hstages : Spares p
      (forEach (List.range (nbInst conf).toNat) (pipelineStageFreeSafe m)) :=
    Spares.forEach fun j _ => hone j
  have hrest : Spares p (forEach [.seqState, .reorderState, .preloadedPool] free) :=
    Spares.forEach fun r hr => Spares.free (hp r (hspecial r hr))
  exact fun l => (hrest _).trans (hstages l)

theorem spares_runModeRegister (m : Machine) (conf : PlConf) :
    Spares p (runModeRegister m conf).effect :=
  spares_andThen (spares_acquire _ (hp _ rfl)) <|
    spares_onFail (spares_check _) (Spares.release (hp _ rfl))

/-- From the input on, what is not of the pipeline. -/
theorem spares_initInput (hstage : ∀ j, p (.stage j) = false)
    (hin : ∀ j, p (.ringIn j) = false) (hout : ∀ j, p (.ringOut j) = false) (m : Machine)
    (conf : PlConf) : Spares p (initInput m conf).effect := by
  have hpipeline : Spares p (initPipeline m conf).effect :=
    spares_onFail
      (spares_andThen
        (spares_andThen (spares_createStages hp hstage m conf)
          (spares_createRings hp hin hout m conf))
        (spares_runModeRegister hp m conf))
      (spares_pipelineFree hp hstage m conf)
  exact spares_andThen (spares_inputRegister hp m conf) <|
    spares_andThen (spares_inputInit hp m conf) <|
      spares_onFail (spares_andThen (spares_meiliRegexInit hp m conf) hpipeline)
        (spares_inputClean hp conf)

end Footprint

/-! ## §5. The way to the pipeline. -/

theorem warnCores_ok {m : Machine} {conf : PlConf} {w : ℕ} : (warnCores m conf w).ok = true := by
  unfold warnCores
  split <;> rfl

/-- The start-up gets to the pipeline. -/
def reachesPipeline (m : Machine) (conf : PlConf) : Bool :=
  (initDpdk m conf).ok && (statsInit m).ok && (inputRegister m (clampCores m conf)).ok
    && (inputInit m (clampCores m conf)).ok && (meiliRegexInit m (clampCores m conf)).ok

theorem meiliRuntimeInit_ok {m : Machine} {conf : PlConf} {w : ℕ} :
    (meiliRuntimeInit m conf w).ok
      = (reachesPipeline m conf && (initPipeline m (clampCores m conf)).ok) := by
  simp only [meiliRuntimeInit, initAll, initInput, reachesPipeline, onFail_ok, andThen_ok,
    warnCores_ok, Bool.true_and, Bool.and_assoc]

/-- **The start-up from the pipeline's side.**  What holds of a part of the resources
when the pipeline is not reached, and what holds behind the pipeline, holds behind
the start-up. -/
theorem leads_meiliRuntimeInit {p : Resource → Bool} (hp : ∀ r, tracked r = false → p r = false)
    (hlat : p .latStats = false) {m : Machine} {conf : PlConf} {w : ℕ}
    {Q : Ledger Resource → Prop} (hbefore : reachesPipeline m conf = false → Q Ledger.empty)
    (hpipeline : reachesPipeline m conf = true →
      Leads p (initPipeline m (clampCores m conf)) Q) :
    Leads p (meiliRuntimeInit m conf w) Q := by
  refine leads_onFail (spares_confClean hp _) ?_
  refine leads_andThen (spares_initDpdk m conf)
    (fun h => hbefore (by simp [reachesPipeline, h])) fun hok₁ => ?_
  refine leads_andThen (spares_warnCores hp m conf w)
    (fun h => absurd (warnCores_ok.symm.trans h) (by decide)) fun _ => ?_
  refine leads_andThen (spares_statsInit hp hlat m)
    (fun h => hbefore (by simp [reachesPipeline, h])) fun hok₂ => ?_
  refine leads_onFail (spares_statsClean hp) ?_
  refine leads_andThen (spares_inputRegister hp m _)
    (fun h => hbefore (by simp [reachesPipeline, h])) fun hok₃ => ?_
  refine leads_andThen (spares_inputInit hp m _)
    (fun h => hbefore (by simp [reachesPipeline, h])) fun hok₄ => ?_
  refine leads_onFail (spares_inputClean hp _) ?_
  refine leads_andThen (spares_meiliRegexInit hp m _)
    (fun h => hbefore (by simp [reachesPipeline, h])) fun hok₅ => ?_
  exact hpipeline (by simp [reachesPipeline, hok₁, hok₂, hok₃, hok₄, hok₅])

end Meili.Runtime
