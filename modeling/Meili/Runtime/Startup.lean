/-
  Meili.Runtime.Startup — `meili_runtime_init` and its cleanup chain.

  `meili_runtime_init` (`src/runtime/meili_runtime.c`) brings up DPDK, the statistics,
  the input, the regex device and the pipeline; where a step fails it goes to one of
  its cleanup labels, and falls through the ones below.

  Conventions of the embedding:

    • a resource has the name of the variable that its handle is kept in;
    • which allocations and which calls fail is a parameter, as are the lcores and
      the devices of the machine;
    • an access through a null pointer is a stray and ends the step, as a failure;
    • what the EAL keeps for itself and the state of devices are left out, and so is
      the state of the application, apart from the one allocation of `MEILI_INIT`.
-/
import Meili.Lib.Ledger
import Meili.Conf.Setup

namespace Meili.Runtime

open Meili.Conf Meili.Lib Meili.Lib.Ledger Meili.Lib.Action

/-! ## §1. Resources and calls. -/

/-- What is acquired between the start of `main` and the end of `meili_runtime_init`. -/
inductive Resource where
  -- `meili_conf.c`, `meili_log.c`
  | warning (i : ℕ) | regexPcie | str (f : StrField) | confFile | dpdkArg (i : ℕ)
  -- `stats.c`
  | inputPktStats | stats | rmStats | latStats
  -- `input.h`, `input_txt_file.c`, `input_dpdk_port.c`
  | inputFuncs | inputData | mbufPools | portPools (i : ℕ) | mbufPool (portIdx qId : ℕ)
  -- `meili_regex.h`, `dpdk_bf_regex.c`
  | regexFuncs | rules | opsArrTx | opsArrRx | opTx (i : ℕ) | opRx (i : ℕ) | regexPools
  | regexPool (i : ℕ) | coreVars
  -- `pipeline.c`, `packet_ordering.c`, `run_mode.h`
  | preloadedPool | stage (j : ℕ) | funcs (j : ℕ) | state (j : ℕ) | seqState | reorderState
  | reorderBuf | ringIn (j : ℕ) | ringOut (j : ℕ) | runFuncs
  deriving Repr, DecidableEq

/-- The calls that may fail without an allocation. -/
inductive Call where
  | ealInit
  -- `util_load_file_to_buffer`, before and behind its allocation
  | openFile (r : Resource) | readFile (r : Resource)
  | isValidPort (dev : ℕ) | devInfoGet (dev : ℕ) | devConfigure (dev : ℕ) | adjustDesc (dev : ℕ)
  | rxQueueSetup (dev : ℕ) | txQueueSetup (dev : ℕ) | devStart (dev : ℕ) | promiscuous (dev : ℕ)
  | regexInfoGet | regexConfigure | queuePairSetup (i : ℕ)
  | stageInit (j : ℕ) | stageFree (j : ℕ) | tsInit (i : ℕ)
  deriving Repr, DecidableEq

/-- The machine the program starts on. -/
structure Machine where
  noMem : Resource → Bool
  fails : Call → Bool
  /-- The lcores of `RTE_LCORE_FOREACH_WORKER`. -/
  workers : List ℕ
  workers_nodup : workers.Nodup
  /-- `rte_eth_dev_count_avail`. -/
  ethDevs : ℕ
  /-- `rte_regexdev_count`. -/
  regexDevs : ℕ
  maxQueuePairs : ℕ

/-- `rte_lcore_count`: the workers and the main lcore. -/
def Machine.lcoreCount (m : Machine) : ℕ := m.workers.length + 1

/-- `run_conf->cores`. -/
def cores (conf : PlConf) : ℕ := (conf.num .cores).toNat

/-! ## §2. DPDK and the number of cores. -/

/-- `init_dpdk`. -/
def initDpdk (m : Machine) (conf : PlConf) : Action Resource :=
  (check (conf.dpdkArgv.length ≤ 1)).andThen (check (m.fails .ealInit))

/-- "Confirm there are enough DPDK lcores for user core request." -/
def clampCores (m : Machine) (conf : PlConf) : PlConf :=
  if m.lcoreCount < cores conf then
    { conf with num := Function.update conf.num .cores (UInt32.ofNat m.lcoreCount) }
  else conf

/-- `MAX_WARNINGS`. -/
def maxWarnings : ℕ := 10

/-- `meili_log_record`, with `confPos` warnings before this one. -/
def meiliLogRecord (m : Machine) (confPos : ℕ) : Action Resource :=
  if confPos = maxWarnings then skip
  else acquire (m.noMem (.warning confPos)) (.warning confPos)

/-- The warning of the clamp, which cannot make the start-up fail. -/
def warnCores (m : Machine) (conf : PlConf) (noConfWarnings : ℕ) : Action Resource :=
  if m.lcoreCount < cores conf then void (meiliLogRecord m noConfWarnings).effect else skip

/-- `run_conf->no_conf_warnings` behind the clamp. -/
def warningsClamped (m : Machine) (conf : PlConf) (noConfWarnings : ℕ) : ℕ :=
  if m.lcoreCount < cores conf ∧ noConfWarnings ≠ maxWarnings
      ∧ m.noMem (.warning noConfWarnings) = false then noConfWarnings + 1
  else noConfWarnings

/-! ## §3. Statistics. -/

/-- `stats_init`. -/
def statsInit (m : Machine) : Action Resource :=
  (acquire (m.noMem .inputPktStats) .inputPktStats).andThen <|
    ((acquire (m.noMem .stats) .stats).andThen <|
      ((acquire (m.noMem .rmStats) .rmStats).andThen <|
        (acquire (m.noMem .latStats) .latStats).onFail (release .rmStats)).onFail
      (release .stats)).onFail
    (release .inputPktStats)

/-- `stats_clean`. -/
def statsClean : Ledger Resource → Ledger Resource :=
  forEach [.rmStats, .stats, .inputPktStats] free

/-! ## §4. Input. -/

/-- `util_load_file_to_buffer`. -/
def utilLoadFileToBuffer (m : Machine) (buf : Resource) : Action Resource :=
  (check (m.fails (.openFile buf))).andThen <|
    (acquire (m.noMem buf) buf).andThen <|
      (check (m.fails (.readFile buf))).onFail (release buf)

/-- `num_ports`. -/
def numPorts (conf : PlConf) : ℕ := if (conf.str .port2).isSome then 2 else 1

/-- `input_dpdk_port_init_queues`, for queue 0; `mbuf_pools` has a row for every port. -/
def inputDpdkPortInitQueues (m : Machine) (conf : PlConf) (portIdx : ℕ) : Action Resource :=
  (if portIdx < numPorts conf then acquire (m.noMem (.mbufPool portIdx 0)) (.mbufPool portIdx 0)
   else
    { ok := !m.noMem (.mbufPool portIdx 0)
      effect := fun l => if m.noMem (.mbufPool portIdx 0) then l
        else (l.alloc (.mbufPool portIdx 0)).stray (.portPools portIdx) }).andThen <|
    (check (m.fails (.rxQueueSetup portIdx))).andThen (check (m.fails (.txQueueSetup portIdx)))

/-- `input_dpdk_port_init`. -/
def inputDpdkPortInit (m : Machine) (conf : PlConf) (portIdx : ℕ) : Action Resource :=
  (check (m.fails (.isValidPort portIdx) || m.fails (.devInfoGet portIdx)
      || m.fails (.devConfigure portIdx) || m.fails (.adjustDesc portIdx))).andThen <|
    (inputDpdkPortInitQueues m conf portIdx).andThen <|
      check (m.fails (.devStart portIdx) || m.fails (.promiscuous portIdx))

/-- The inner loop of `input_dpdk_port_clean`, over a row with `nb_queues_per_port` slots. -/
def freePortPools (conf : PlConf) (i : ℕ) : Ledger Resource → Ledger Resource :=
  forEach (List.range (cores conf)) fun j =>
    if j < nbQueuesPerPort then free (.mbufPool i j) else stray (.mbufPool i j)

/-- `input_dpdk_port_clean`. -/
def inputDpdkPortClean (conf : PlConf) (l : Ledger Resource) : Ledger Resource :=
  if .mbufPools ∈ l.acquired then
    (l.forEach (List.range (numPorts conf))
      fun i l => (freePortPools conf i l).free (.portPools i)).free .mbufPools
  else l

/-- `input_dpdk_port_init_ports`. -/
def inputDpdkPortInitPorts (m : Machine) (conf : PlConf) : Action Resource :=
  (check (m.ethDevs = 0)).andThen <|
    (acquire (m.noMem .mbufPools) .mbufPools).andThen <|
      (each (numPorts conf) fun i => acquire (m.noMem (.portPools i)) (.portPools i)).andThen <|
        (each m.ethDevs (inputDpdkPortInit m conf)).onFail (inputDpdkPortClean conf)

/-- `input_register`. -/
def inputRegister (m : Machine) (conf : PlConf) : Action Resource :=
  (acquire (m.noMem .inputFuncs) .inputFuncs).andThen <|
    (check (conf.inputMode ∉ [.textFile, .pcapFile, .live])).onFail (release .inputFuncs)

/-- `input_init`. -/
def inputInit (m : Machine) (conf : PlConf) : Action Resource :=
  match conf.inputMode with
  | .textFile => utilLoadFileToBuffer m .inputData
  | .pcapFile => skip
  | .live => inputDpdkPortInitPorts m conf
  | _ => check true

/-- `input_clean`. -/
def inputClean (conf : PlConf) (l : Ledger Resource) : Ledger Resource :=
  free .inputFuncs <|
    match conf.inputMode with
    | .textFile => free .inputData l
    | .live => inputDpdkPortClean conf l
    | _ => l

/-! ## §5. The regex device. -/

/-- `regex_dev_register`. -/
def regexDevRegister (m : Machine) (conf : PlConf) : Action Resource :=
  (acquire (m.noMem .regexFuncs) .regexFuncs).andThen <|
    (check (conf.regexDevType ≠ .dpdkRegex)).onFail (release .regexFuncs)

/-- `regex_dev_compile_rules`. -/
def regexDevCompileRules (conf : PlConf) : Action Resource :=
  check (conf.str .compiledRulesFile = none ∧ conf.str .rawRulesFile = none)

/-- `regex_dev_dpdk_bf_config`; the number of matches asked for is never set. -/
def regexDevDpdkBfConfig (m : Machine) (conf : PlConf) : Action Resource :=
  (check (m.fails .regexInfoGet)).andThen <|
    (check (m.maxQueuePairs < cores conf)).andThen <|
      (utilLoadFileToBuffer m .rules).andThen <|
        ((check (m.fails .regexConfigure)).andThen <|
          each (cores conf) fun i => check (m.fails (.queuePairSetup i))).onFail (release .rules)

/-- `batch_size * num_queues`. -/
def numEntries (conf : PlConf) : ℕ := (conf.num .inputBatches).toNat * cores conf

/-- `regex_dev_init_ops`. -/
def regexDevInitOps (m : Machine) (conf : PlConf) : Action Resource :=
  (acquire (m.noMem .opsArrTx) .opsArrTx).andThen <|
    (acquire (m.noMem .opsArrRx) .opsArrRx).andThen <|
      (each (numEntries conf) fun i =>
        (acquire (m.noMem (.opTx i)) (.opTx i)).andThen
          (acquire (m.noMem (.opRx i)) (.opRx i))).andThen <|
        (acquire (m.noMem .regexPools) .regexPools).andThen <|
          (each (cores conf) fun i =>
            acquire (m.noMem (.regexPool i)) (.regexPool i)).andThen <|
            acquire (m.noMem .coreVars) .coreVars

/-- An array of `regex_dev_dpdk_bf_clean`, which has not been zeroed. -/
def freeArray (arr : Resource) (entry : ℕ → Resource) (n : ℕ) (l : Ledger Resource) :
    Ledger Resource :=
  if arr ∈ l.acquired then
    (l.forEach (List.range n) fun i => freeSlot false (entry i)).free arr
  else l

/-- `regex_dev_dpdk_bf_clean`. -/
def regexDevDpdkBfClean (conf : PlConf) (l : Ledger Resource) : Ledger Resource :=
  ((freeArray .regexPools .regexPool (cores conf)
    (freeArray .opsArrRx .opRx (numEntries conf)
      (freeArray .opsArrTx .opTx (numEntries conf) l))).free .coreVars).free .rules

/-- `regex_dev_dpdk_bf_init`. -/
def regexDevDpdkBfInit (m : Machine) (conf : PlConf) : Action Resource :=
  (check (m.regexDevs ≠ 1)).andThen <|
    (regexDevDpdkBfConfig m conf).andThen <|
      (regexDevInitOps m conf).onFail (regexDevDpdkBfClean conf)

/-- `meili_regex_init`. -/
def meiliRegexInit (m : Machine) (conf : PlConf) : Action Resource :=
  (regexDevRegister m conf).andThen <|
    (regexDevCompileRules conf).andThen (regexDevDpdkBfInit m conf)

/-! ## §6. The pipeline. -/

/-- `nb_inst_per_pl_stage[0]`, which is an `int`. -/
def nbInst (conf : PlConf) : ℤ := (cores conf : ℤ) - 1

/-- `NB_INSTANCE_PER_PIPELINE_STAGE_MAX`. -/
def nbInstancePerPipelineStageMax : ℤ := 8

/-- `pipeline_stage_init_safe`, for instance `j`. -/
def pipelineStageInitSafe (m : Machine) (j : ℕ) : Action Resource :=
  (acquire (m.noMem (.funcs j)) (.funcs j)).andThen
    (acquire (m.fails (.stageInit j)) (.state j))

/-- The body of the loop over `j` in `pipeline_init_safe`; `self` is not checked, and
`pl->stages[0][j]` is written last. -/
def createStage (m : Machine) (j : ℕ) : Action Resource :=
  (unchecked (m.noMem (.stage j)) (.stage j)).andThen <|
    (pipelineStageInitSafe m j).andThen (void (write (.stage j)))

/-- `reorder_init`; what `rte_reorder_create` returns is not checked. -/
def reorderInit (m : Machine) : Action Resource :=
  (acquire (m.noMem .reorderState) .reorderState).andThen
    (unchecked (m.noMem .reorderBuf) .reorderBuf)

/-- The mempool of the local run modes. -/
def createPool (m : Machine) (conf : PlConf) : Action Resource :=
  if conf.inputMode ∈ [.textFile, .pcapFile] then
    acquire (m.noMem .preloadedPool) .preloadedPool
  else skip

/-- `pipeline_init_safe` up to the end of the loop over the stages. -/
def createStages (m : Machine) (conf : PlConf) : Action Resource :=
  (createPool m conf).andThen <|
    (check (nbInstancePerPipelineStageMax < nbInst conf ∨ nbInst conf < 0)).andThen <|
      each (nbInst conf).toNat (createStage m)

/-- The rest of `pipeline_init_safe`: the special stages and the rings. -/
def createRings (m : Machine) (conf : PlConf) : Action Resource :=
  (check (m.fails (.tsInit 0) || m.fails (.tsInit 1))).andThen <|
    (acquire (m.noMem .seqState) .seqState).andThen <|
      (reorderInit m).andThen <|
        (each (nbInst conf).toNat fun j => acquire (m.noMem (.ringIn j)) (.ringIn j)).andThen <|
          each (nbInst conf).toNat fun j => acquire (m.noMem (.ringOut j)) (.ringOut j)

/-- `pipeline_init_safe`. -/
def pipelineInitSafe (m : Machine) (conf : PlConf) : Action Resource :=
  (createStages m conf).andThen (createRings m conf)

/-- `pipeline_stage_free_safe`, for what `pl->stages[0][j]` holds. -/
def pipelineStageFreeSafe (m : Machine) (j : ℕ) (l : Ledger Resource) : Ledger Resource :=
  if .stage j ∉ l.written then l.stray (.stage j)
  else if m.fails (.stageFree j) then l
  else ((l.release (.state j)).release (.funcs j)).release (.stage j)

/-- `pipeline_free`; `reorder_free` leaves the buffer behind. -/
def pipelineFree (m : Machine) (conf : PlConf) (l : Ledger Resource) : Ledger Resource :=
  (l.forEach (List.range (nbInst conf).toNat) (pipelineStageFreeSafe m)).forEach
    [.seqState, .reorderState, .preloadedPool] free

/-- `run_mode_register`. -/
def runModeRegister (m : Machine) (conf : PlConf) : Action Resource :=
  (acquire (m.noMem .runFuncs) .runFuncs).andThen <|
    (check (conf.inputMode = .unknown)).onFail (release .runFuncs)

/-! ## §7. The whole start-up. -/

/-- What `conf_clean` frees besides the warnings. -/
def confOwned : List Resource :=
  [.regexPcie, .str .inputFile, .str .compiledRulesFile, .str .rawRulesFile, .str .port1,
    .str .port2, .confFile]

/-- `conf_clean`. -/
def confClean (noConfWarnings : ℕ) (l : Ledger Resource) : Ledger Resource :=
  (l.forEach ((List.range noConfWarnings).map .warning) free).forEach confOwned free

/-- The steps that go to `clean_pipeline`. -/
def initPipeline (m : Machine) (conf : PlConf) : Action Resource :=
  ((pipelineInitSafe m conf).andThen (runModeRegister m conf)).onFail (pipelineFree m conf)

/-- From `input_register` on; the label `clean_regex` cleans nothing of its own, and a
failure of the input itself goes past `clean_input`. -/
def initInput (m : Machine) (conf : PlConf) : Action Resource :=
  (inputRegister m conf).andThen <|
    (inputInit m conf).andThen <|
      ((meiliRegexInit m conf).andThen (initPipeline m conf)).onFail (inputClean conf)

/-- All of the steps, up to `clean_stats`. -/
def initAll (m : Machine) (conf : PlConf) (noConfWarnings : ℕ) : Action Resource :=
  (initDpdk m conf).andThen <|
    (warnCores m conf noConfWarnings).andThen <|
      (statsInit m).andThen <|
        (initInput m (clampCores m conf)).onFail statsClean

/-- `meili_runtime_init`. -/
def meiliRuntimeInit (m : Machine) (conf : PlConf) (noConfWarnings : ℕ) : Action Resource :=
  (initAll m conf noConfWarnings).onFail
    (confClean (if (initDpdk m conf).ok then warningsClamped m conf noConfWarnings
      else noConfWarnings))

/-- Whether a field that `conf_clean` frees is set. -/
def isSet (conf : PlConf) : Resource → Bool
  | .regexPcie => conf.regexPcie.isSome
  | .str f => (conf.str f).isSome
  | .confFile => true
  | _ => false

/-- What `conf_setup` has acquired: the warnings, the strings, and the arguments of the
EAL behind the first, which is the program's name. -/
def confAcquired (conf : PlConf) (noConfWarnings : ℕ) : List Resource :=
  (List.range noConfWarnings).map .warning ++ confOwned.filter (isSet conf)
    ++ (List.range (conf.dpdkArgv.length - 1)).map .dpdkArg

/-- The ledger `meili_runtime_init` starts with. -/
def start (conf : PlConf) (noConfWarnings : ℕ) : Ledger Resource where
  acquired := confAcquired conf noConfWarnings
  written := confAcquired conf noConfWarnings
  released := []
  strays := []

/-- The ledger `meili_runtime_init` returns with. -/
def runtimeInit (m : Machine) (conf : PlConf) (noConfWarnings : ℕ) : Ledger Resource :=
  (meiliRuntimeInit m conf noConfWarnings).effect (start conf noConfWarnings)

/-- A main lcore and two workers, with one port and one regex device. -/
def twoWorkers (noMem : Resource → Bool) (fails : Call → Bool) : Machine where
  noMem := noMem
  fails := fails
  workers := [1, 2]
  workers_nodup := by decide
  ethDevs := 1
  regexDevs := 1
  maxQueuePairs := 16

end Meili.Runtime
