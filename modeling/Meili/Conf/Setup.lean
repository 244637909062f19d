/-
  Meili.Conf.Setup — the rest of `conf_setup`: checks and defaults.

  Behind the two passes the configuration is checked (`conf_validate`) and completed
  (`conf_set_defaults`).  The warnings of the checks are left out; `RTE_MAX_LCORE`,
  which the build of DPDK sets, is a parameter.
-/
import Meili.Conf.Priority

namespace Meili.Conf

/-! ## §1. Checks and defaults. -/

/-- `TX_RING_SIZE`. -/
def txRingSize : ℕ := 1024

/-- `MAX_REGEX_BUF_SIZE`. -/
def maxRegexBufSize : ℕ := 16384

/-- `DEFAULT_BUF_LEN`, `DEFAULT_BATCH_SIZE`, `DEFAULT_ITERATIONS`, `DEFAULT_CORES` and
`DEFAULT_SLIDING_WINDOW`. -/
def defaultBufLen : UInt32 := 1024

def defaultBatchSize : UInt32 := 64

def defaultIterations : UInt32 := 1

def defaultCores : UInt32 := 1

def defaultSlidingWindow : UInt32 := 32

/-- `UINT_MAX`. -/
def uintMax : UInt32 := 4294967295

/-- `conf_validate`: `none`, or the error it returns. -/
def confValidate (rteMaxLcore : ℕ) (conf : PlConf) : Option ℤ :=
  if rteMaxLcore ≤ (conf.num .cores).toNat then some errInval
  else if 3 < conf.num .verbose then some errInval
  else if txRingSize < (conf.num .inputBatches).toNat then some errInval
  else if conf.inputMode ∈ [.pcapFile, .textFile, .jobFormat, .remoteMmap]
      ∧ (if conf.num .inputBufLen ≠ 0 then conf.num .inputBufLen else defaultBufLen)
        ≤ conf.num .inputOverlap then some errInval
  else if conf.inputMode ∈ [.pcapFile, .textFile, .jobFormat, .remoteMmap]
      ∧ conf.str .inputFile = none then some errInval
  else if conf.inputMode = .remoteMmap ∧ conf.regexDevType ≠ .docaRegex then some errInval
  else if conf.inputMode = .live ∧ conf.str .port1 = none then some errInval
  else if conf.inputMode = .live ∧ conf.num .inputBatches ≠ 0 ∧ conf.num .inputBatches < 4 then
    some errInval
  else if conf.regexDevType = .hyperscan ∧ conf.inputMode = .jobFormat then some errNotsup
  else if conf.regexDevType = .hyperscan ∧ conf.flag .hsSinglematch ∧ conf.flag .hsLeftmost then
    some errInval
  else if maxRegexBufSize ≤ (conf.num .slidingWindow).toNat then some errInval
  else if conf.regexDevType ≠ .docaRegex ∧ maxRegexBufSize < (conf.num .inputBufLen).toNat then
    some errInval
  else none

/-- A field, or its default where it is 0. -/
def orDefault (n default : UInt32) : UInt32 := if n = 0 then default else n

/-- `conf_set_defaults`; `nb_queues_per_port` is `nbQueuesPerPort`. -/
def confSetDefaults (conf : PlConf) : PlConf :=
  { conf with
    num := fun f => match f with
      | .inputIterations =>
          orDefault (conf.num f)
            (if conf.num .inputDuration ≠ 0 then uintMax else defaultIterations)
      | .inputBufLen => orDefault (conf.num f) defaultBufLen
      | .inputBatches => orDefault (conf.num f) defaultBatchSize
      | .cores => orDefault (conf.num f) defaultCores
      | .slidingWindow => orDefault (conf.num f) defaultSlidingWindow
      | _ => conf.num f }

/-- `NB_QUEUE_PER_PORT`, which `nb_queues_per_port` is set to. -/
def nbQueuesPerPort : ℕ := 1

/-- `conf_setup`. -/
def confSetup (rteMaxLcore : ℕ) (env : Env) (prgname : Str) (argv : List Str) :
    Except Stop PlConf :=
  match confParse env prgname argv with
  | .error e => .error e
  | .ok x =>
      match confValidate rteMaxLcore x.conf with
      | some ret => .error (.err ret)
      | none => .ok (confSetDefaults x.conf)

/-! ## §2. The number of cores. -/

/-- The options given, on the command line and then in the config file. -/
def given (env : Env) (prgname : Str) (argv : List Str) : List Given :=
  cmdOpts env prgname argv ++ fileOpts env prgname (configFile (cmdOpts env prgname argv))

/-- The first number of cores given, or the default. -/
def coresGiven (env : Env) (prgname : Str) (argv : List Str) : UInt32 :=
  ((values (.num .cores) (given env prgname argv)).findSome? nonzeroOf).getD defaultCores

theorem orDefault_getD {o : Option UInt32} {default : UInt32} (h : o ≠ some 0) :
    orDefault (o.getD 0) default = o.getD default := by
  unfold orDefault
  cases o with
  | none => rfl
  | some n =>
      have hn : n ≠ 0 := fun hn => h (by rw [hn])
      show (if n = 0 then default else n) = n
      rw [if_neg hn]

theorem nonzeroOf_ne {v : Str} : nonzeroOf v ≠ some 0 := by
  intro h
  unfold nonzeroOf at h
  have hpred := (Option.filter_eq_some_iff.mp h).2
  exact absurd hpred (by decide)

/-- **What `conf_setup` accepts** has the number of cores that was given, or the default. -/
theorem confSetup_cores {rteMaxLcore : ℕ} {env : Env} {prgname : Str} {argv : List Str}
    {conf : PlConf} (h : confSetup rteMaxLcore env prgname argv = .ok conf) :
    conf.num .cores = coresGiven env prgname argv := by
  unfold confSetup at h
  cases hparse : confParse env prgname argv with
  | error e =>
      rw [hparse] at h
      cases h
  | ok x =>
      rw [hparse] at h
      dsimp only at h
      split at h
      · cases h
      · cases h
        obtain ⟨y, hpasses⟩ := confParse_passes hparse
        have hcores := hpasses.firstWins.num .cores
        have hne : (values (.num .cores) (given env prgname argv)).findSome? nonzeroOf
            ≠ some 0 := by
          intro hzero
          obtain ⟨v, -, hv⟩ := List.exists_of_findSome?_eq_some hzero
          exact nonzeroOf_ne hv
        show orDefault (x.conf.num .cores) defaultCores = _
        rw [hcores]
        exact orDefault_getD hne

end Meili.Conf
