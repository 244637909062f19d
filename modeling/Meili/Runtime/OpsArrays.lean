/-
  Meili.Runtime.OpsArrays — the ops of the regex device, when memory runs out.

  `regex_dev_init_ops` (`src/lib/regex/dpdk_bf_regex.c`) allocates two arrays of ops and
  fills them in step, then an array of mempools and the mempools, then the variables of the
  cores; all of the arrays come from `rte_malloc` and are not zeroed.  Where an allocation
  fails, `regex_dev_dpdk_bf_clean` goes through every array that is there to its full length.

    • `regexDevInitOps_eq` — the set-up is one series of allocations;
    • `numEntries_lt` — the number of entries is an `int`;
    • `clean_exact_iff` — the cleanup is exact if every array that is there is full;
    • `opsCleaned_iff` — at which failures this is so.
-/
import Mathlib.Algebra.Group.Nat.Defs
import Meili.Runtime.Startup

namespace Meili.Runtime

open Meili.Conf Meili.Lib Meili.Lib.Ledger Meili.Lib.Action

/-! ## §1. A series of allocations. -/

/-- What `regex_dev_init_ops` allocates, in order. -/
def opsOrder (conf : PlConf) : List Resource :=
  [.opsArrTx, .opsArrRx]
    ++ ((List.range (numEntries conf)).flatMap (fun i => [.opTx i, .opRx i])
      ++ ([.regexPools] ++ ((List.range (cores conf)).flatMap (fun i => [.regexPool i])
        ++ [.coreVars])))

theorem regexDevInitOps_eq (m : Machine) (conf : PlConf) :
    regexDevInitOps m conf = acquireAll m.noMem (opsOrder conf) := by
  unfold opsOrder
  rw [acquireAll_append, acquireAll_append, acquireAll_append, acquireAll_append,
    ← each_acquireAll, ← each_acquireAll]
  simp only [acquireAll, andThen_skip, andThen_assoc]
  rfl

/-- With what `conf_setup` lets through, `batch_size * num_queues` is the product. -/
theorem numEntries_lt {rteMaxLcore : ℕ} (hmax : rteMaxLcore ≤ 2 ^ 20) {conf : PlConf}
    (h : confValidate rteMaxLcore conf = none) : numEntries (confSetDefaults conf) < 2 ^ 31 := by
  have hcores : (conf.num .cores).toNat < rteMaxLcore := by
    by_contra hc
    rw [confValidate, if_pos (not_lt.mp hc)] at h
    cases h
  rw [confValidate, if_neg (not_le.mpr hcores)] at h
  have hbatches : (conf.num .inputBatches).toNat ≤ txRingSize := by
    by_contra hc
    by_cases hverbose : 3 < conf.num .verbose
    · rw [if_pos hverbose] at h
      cases h
    · rw [if_neg hverbose, if_pos (not_le.mp hc)] at h
      cases h
  have hbatch : (orDefault (conf.num .inputBatches) defaultBatchSize).toNat ≤ 1024 := by
    unfold orDefault
    split
    · decide
    · exact hbatches
  have hcore : (orDefault (conf.num .cores) defaultCores).toNat < 2 ^ 20 + 1 := by
    unfold orDefault
    split
    · decide
    · omega
  show (orDefault (conf.num .inputBatches) defaultBatchSize).toNat
    * (orDefault (conf.num .cores) defaultCores).toNat < 2 ^ 31
  calc _ ≤ 1024 * (orDefault (conf.num .cores) defaultCores).toNat :=
        Nat.mul_le_mul_right _ hbatch
    _ < 2 ^ 31 := by omega

/-- `rte_malloc` has nothing to give for an array without entries. -/
def Machine.sized (m : Machine) (conf : PlConf) : Machine :=
  { m with noMem := fun r => m.noMem r || (r = .opsArrTx && numEntries conf = 0) }

/-- Behind `regex_dev_dpdk_bf_config`. -/
def rulesLoaded : Ledger Resource := (acquire false .rules).effect Ledger.empty

/-- The ledger behind the cleanup. -/
def opsRun (m : Machine) (conf : PlConf) : Ledger Resource :=
  regexDevDpdkBfClean conf ((regexDevInitOps (m.sized conf) conf).effect rulesLoaded)

/-- If an allocation fails, the cleanup frees exactly what was allocated. -/
def OpsCleaned (m : Machine) (conf : PlConf) : Prop :=
  (regexDevInitOps (m.sized conf) conf).ok = false → (opsRun m conf).Exact fun _ => false

/-! ## §2. The cleanup. -/

/-- Every array that is there is full: a handle or NULL is in each of its slots. -/
structure Full (conf : PlConf) (l : Ledger Resource) : Prop where
  tx : .opsArrTx ∈ l.acquired → ∀ i < numEntries conf, .opTx i ∈ l.written
  rx : .opsArrRx ∈ l.acquired → ∀ i < numEntries conf, .opRx i ∈ l.written
  pools : .regexPools ∈ l.acquired → ∀ i < cores conf, .regexPool i ∈ l.written

/-- The slots that the cleanup goes through, in order. -/
def opsSlots (conf : PlConf) : List Resource :=
  (List.range (numEntries conf)).map .opTx ++ [.opsArrTx]
    ++ ((List.range (numEntries conf)).map .opRx ++ [.opsArrRx])
    ++ ((List.range (cores conf)).map .regexPool ++ [.regexPools])
    ++ [.coreVars, .rules]

theorem opsSlots_nodup (conf : PlConf) : (opsSlots conf).Nodup := by
  have htx : ((List.range (numEntries conf)).map Resource.opTx).Nodup :=
    List.nodup_range.map fun i j h => Resource.opTx.inj h
  have hrx : ((List.range (numEntries conf)).map Resource.opRx).Nodup :=
    List.nodup_range.map fun i j h => Resource.opRx.inj h
  have hpools : ((List.range (cores conf)).map Resource.regexPool).Nodup :=
    List.nodup_range.map fun i j h => Resource.regexPool.inj h
  unfold opsSlots
  -- slots of different kinds are different
  simp only [List.nodup_append, htx, hrx, hpools, List.mem_append, List.mem_map, List.mem_range,
    List.mem_cons, List.not_mem_nil, or_false]
  grind

/-- An array that is full where it is there, and that is there before its entries are. -/
theorem freeArray_eq {arr : Resource} {entry : ℕ → Resource} {n : ℕ} {l : Ledger Resource}
    (hfull : arr ∈ l.acquired → ∀ i < n, entry i ∈ l.written)
    (hnone : arr ∉ l.acquired → ∀ i < n, entry i ∉ l.acquired) :
    freeArray arr entry n l
      = { l with released := l.released ++ l.held ((List.range n).map entry ++ [arr]) } := by
  unfold freeArray
  rw [held_append]
  by_cases harr : arr ∈ l.acquired
  · have hentries : l.forEach (List.range n) (fun i => freeSlot false (entry i))
        = { l with released := l.released ++ l.held ((List.range n).map entry) } := by
      rw [← forEach_map]
      refine forEach_freeSlot (Or.inr fun r hr => ?_)
      obtain ⟨i, hi, rfl⟩ := List.mem_map.mp hr
      exact hfull harr i (List.mem_range.mp hi)
    rw [if_pos harr, hentries, ← List.append_assoc]
    exact @forEach_freeSlot _ _ true [arr] _ (Or.inl rfl)
  · have hentries : l.held ((List.range n).map entry) = [] := by
      apply held_eq_nil
      intro r hr
      obtain ⟨i, hi, rfl⟩ := List.mem_map.mp hr
      exact hnone harr i (List.mem_range.mp hi)
    have harrNone : l.held [arr] = [] := by
      apply held_eq_nil
      intro r hr
      rwa [List.mem_singleton.mp hr]
    rw [if_neg harr, hentries, harrNone, List.append_nil, List.append_nil]

/-- An array that is there and not full. -/
theorem freeArray_strays {arr : Resource} {entry : ℕ → Resource} {n i : ℕ} {l : Ledger Resource}
    (harr : arr ∈ l.acquired) (hi : i < n) (hentry : entry i ∉ l.written) :
    (freeArray arr entry n l).strays ≠ [] := by
  unfold freeArray
  rw [if_pos harr]
  refine keepsStrays_freeSlot true _ _ (forEach_strays (P := fun l => entry i ∉ l.written)
    (fun j _ => keepsStrays_freeSlot false _) (fun j _ l hl => by rwa [freeSlot_written])
    (List.mem_range.mpr hi) (fun l hl => ?_) hentry)
  unfold freeSlot
  rw [if_neg hl]
  exact List.concat_ne_nil _ _

theorem keepsStrays_freeArray (arr : Resource) (entry : ℕ → Resource) (n : ℕ) :
    KeepsStrays (freeArray arr entry n) := by
  intro l hl
  unfold freeArray
  split
  · exact keepsStrays_freeSlot true _ _
      (KeepsStrays.forEach (fun i _ => keepsStrays_freeSlot false _) l hl)
  · exact hl

/-- No entry is there before its array is. -/
structure ArraysFirst (l : Ledger Resource) : Prop where
  tx : .opsArrTx ∉ l.acquired → ∀ i, .opTx i ∉ l.acquired
  rx : .opsArrRx ∉ l.acquired → ∀ i, .opRx i ∉ l.acquired
  pools : .regexPools ∉ l.acquired → ∀ i, .regexPool i ∉ l.acquired

/-- **Full arrays** are freed with their entries, and so is the rest. -/
theorem clean_of_full {conf : PlConf} {l : Ledger Resource} (h : Full conf l)
    (hfirst : ArraysFirst l) :
    regexDevDpdkBfClean conf l = { l with released := l.released ++ l.held (opsSlots conf) } := by
  have htx := freeArray_eq h.tx fun harr i _ => hfirst.tx harr i
  have hrx : ∀ released, freeArray .opsArrRx .opRx (numEntries conf) { l with released := released }
      = { l with released := released
          ++ l.held ((List.range (numEntries conf)).map .opRx ++ [.opsArrRx]) } :=
    fun _ => freeArray_eq h.rx fun harr i _ => hfirst.rx harr i
  have hpools : ∀ released, freeArray .regexPools .regexPool (cores conf)
      { l with released := released }
      = { l with released := released
          ++ l.held ((List.range (cores conf)).map .regexPool ++ [.regexPools]) } :=
    fun _ => freeArray_eq h.pools fun harr i _ => hfirst.pools harr i
  unfold regexDevDpdkBfClean
  rw [htx, hrx, hpools]
  refine (@forEach_freeSlot Resource _ true [.coreVars, .rules] _ (Or.inl rfl)).trans ?_
  unfold opsSlots
  simp only [held_append, List.append_assoc]
  rfl

theorem freeArray_keeps (arr : Resource) (entry : ℕ → Resource) (n : ℕ) (l : Ledger Resource) :
    (freeArray arr entry n l).acquired = l.acquired
      ∧ (freeArray arr entry n l).written = l.written := by
  unfold freeArray
  split
  · unfold free
    rw [freeSlot_acquired, freeSlot_written, ← forEach_map]
    exact ⟨forEach_freeSlot_acquired _ _ l, forEach_freeSlot_written _ _ l⟩
  · exact ⟨rfl, rfl⟩

/-- **An array that is not full** makes the cleanup read a slot that nothing was written to. -/
theorem clean_of_not_full {conf : PlConf} {l : Ledger Resource} (h : ¬ Full conf l) :
    (regexDevDpdkBfClean conf l).strays ≠ [] := by
  obtain ⟨htxAcq, htxWritten⟩ := freeArray_keeps .opsArrTx .opTx (numEntries conf) l
  obtain ⟨hrxAcq, hrxWritten⟩ := freeArray_keeps .opsArrRx .opRx (numEntries conf)
    (freeArray .opsArrTx .opTx (numEntries conf) l)
  unfold regexDevDpdkBfClean
  refine keepsStrays_freeSlot true _ _ (keepsStrays_freeSlot true _ _ ?_)
  by_cases htx : .opsArrTx ∈ l.acquired → ∀ i < numEntries conf, .opTx i ∈ l.written
  swap
  · simp only [Classical.not_imp, not_forall] at htx
    obtain ⟨harr, i, hi, hentry⟩ := htx
    exact keepsStrays_freeArray _ _ _ _ (keepsStrays_freeArray _ _ _ _
      (freeArray_strays harr hi hentry))
  by_cases hrx : .opsArrRx ∈ l.acquired → ∀ i < numEntries conf, .opRx i ∈ l.written
  swap
  · simp only [Classical.not_imp, not_forall] at hrx
    obtain ⟨harr, i, hi, hentry⟩ := hrx
    exact keepsStrays_freeArray _ _ _ _ (freeArray_strays (htxAcq ▸ harr) hi (htxWritten ▸ hentry))
  by_cases hpools : .regexPools ∈ l.acquired → ∀ i < cores conf, .regexPool i ∈ l.written
  swap
  · simp only [Classical.not_imp, not_forall] at hpools
    obtain ⟨harr, i, hi, hentry⟩ := hpools
    refine freeArray_strays ?_ hi ?_
    · rwa [hrxAcq, htxAcq]
    · rwa [hrxWritten, htxWritten]
  · exact absurd ⟨htx, hrx, hpools⟩ h

/-! ## §3. The place of the failure. -/

/-- The place of an allocation in the order. -/
def rank (conf : PlConf) : Resource → ℕ
  | .opsArrRx => 1
  | .opTx i => 2 + 2 * i
  | .opRx i => 3 + 2 * i
  | .regexPools => 2 + 2 * numEntries conf
  | .regexPool i => 3 + 2 * numEntries conf + i
  | .coreVars => 3 + 2 * numEntries conf + cores conf
  | _ => 0

/-- The ops, in step. -/
def opEntries (conf : PlConf) : List Resource :=
  (List.range (numEntries conf)).flatMap fun i => [.opTx i, .opRx i]

/-- The mempools. -/
def poolEntries (conf : PlConf) : List Resource :=
  (List.range (cores conf)).flatMap fun i => [.regexPool i]

section Order

variable {conf : PlConf} {r : Resource}

theorem rank_opEntries (h : r ∈ opEntries conf) :
    2 ≤ rank conf r ∧ rank conf r < 2 + 2 * numEntries conf := by
  obtain ⟨i, hi, hr⟩ := List.mem_flatMap.mp h
  rw [List.mem_range] at hi
  rcases List.mem_pair.mp hr with rfl | rfl
  · show 2 ≤ 2 + 2 * i ∧ 2 + 2 * i < 2 + 2 * numEntries conf
    omega
  · show 2 ≤ 3 + 2 * i ∧ 3 + 2 * i < 2 + 2 * numEntries conf
    omega

theorem rank_poolEntries (h : r ∈ poolEntries conf) :
    2 + 2 * numEntries conf < rank conf r
      ∧ rank conf r < 3 + 2 * numEntries conf + cores conf := by
  obtain ⟨i, hi, hr⟩ := List.mem_flatMap.mp h
  rw [List.mem_range] at hi
  obtain rfl := List.mem_singleton.mp hr
  show 2 + 2 * numEntries conf < 3 + 2 * numEntries conf + i
    ∧ 3 + 2 * numEntries conf + i < 3 + 2 * numEntries conf + cores conf
  omega

theorem opEntries_pairwise (conf : PlConf) :
    (opEntries conf).Pairwise fun r s => rank conf r < rank conf s := by
  apply List.pairwise_flatMap.mpr
  constructor
  · intro i _
    simp [rank]
  · apply List.pairwise_lt_range.imp
    intro i j hij
    simp only [List.mem_cons, List.not_mem_nil, or_false, forall_eq_or_imp, forall_eq, rank]
    omega

theorem poolEntries_pairwise (conf : PlConf) :
    (poolEntries conf).Pairwise fun r s => rank conf r < rank conf s := by
  apply List.pairwise_flatMap.mpr
  constructor
  · intro i _
    exact List.pairwise_singleton _ _
  · apply List.pairwise_lt_range.imp
    intro i j hij
    simp only [List.mem_singleton, forall_eq, rank]
    omega

/-- The mempools, and what comes behind them. -/
theorem poolsOrder_pairwise (conf : PlConf) :
    (poolEntries conf ++ [Resource.coreVars]).Pairwise fun r s => rank conf r < rank conf s := by
  apply List.pairwise_append.mpr
  refine ⟨poolEntries_pairwise conf, List.pairwise_singleton _ _, ?_⟩
  intro r hr s hs
  rw [List.mem_singleton.mp hs]
  exact (rank_poolEntries hr).2

theorem rank_poolsOrder (h : r ∈ poolEntries conf ++ [Resource.coreVars]) :
    2 + 2 * numEntries conf < rank conf r := by
  rcases List.mem_append.mp h with h | h
  · exact (rank_poolEntries h).1
  · rw [List.mem_singleton.mp h]
    show 2 + 2 * numEntries conf < 3 + 2 * numEntries conf + cores conf
    omega

/-- **The order** is that of the ranks. -/
theorem opsOrder_pairwise (conf : PlConf) :
    (opsOrder conf).Pairwise fun r s => rank conf r < rank conf s := by
  have hpools : ([Resource.regexPools] ++ (poolEntries conf ++ [Resource.coreVars])).Pairwise
      fun r s => rank conf r < rank conf s := by
    apply List.pairwise_append.mpr
    refine ⟨List.pairwise_singleton _ _, poolsOrder_pairwise conf, ?_⟩
    intro r hr s hs
    rw [List.mem_singleton.mp hr]
    exact rank_poolsOrder hs
  have hlow : ∀ s ∈ [Resource.regexPools] ++ (poolEntries conf ++ [Resource.coreVars]),
      2 + 2 * numEntries conf ≤ rank conf s := by
    intro s hs
    rcases List.mem_append.mp hs with hs | hs
    · rw [List.mem_singleton.mp hs]
      exact le_rfl
    · exact (rank_poolsOrder hs).le
  have hops : (opEntries conf
      ++ ([Resource.regexPools] ++ (poolEntries conf ++ [Resource.coreVars]))).Pairwise
      fun r s => rank conf r < rank conf s := by
    apply List.pairwise_append.mpr
    refine ⟨opEntries_pairwise conf, hpools, ?_⟩
    intro r hr s hs
    exact (rank_opEntries hr).2.trans_le (hlow s hs)
  apply List.pairwise_append.mpr
  refine ⟨by simp [rank], hops, ?_⟩
  intro r hr s hs
  have hr2 : rank conf r < 2 := by
    rcases List.mem_pair.mp hr with rfl | rfl
    · exact Nat.zero_lt_two
    · exact Nat.one_lt_two
  apply hr2.trans_le
  rcases List.mem_append.mp hs with hs | hs
  · exact (rank_opEntries hs).1
  · exact (Nat.le_add_right _ _).trans (hlow s hs)

end Order

/-- The allocations whose failure the cleanup can deal with: the first one, the last one of
the ops, the array of the mempools, the last mempool, and the variables of the cores. -/
def Harmless (conf : PlConf) (r : Resource) : Prop :=
  r = .opsArrTx ∨ r = .opRx (numEntries conf - 1) ∨ r = .regexPools
    ∨ r = .regexPool (cores conf - 1) ∨ r = .coreVars

/-- The allocation that fails. -/
def firstFailure (m : Machine) (conf : PlConf) : Option Resource :=
  (opsOrder conf).find? (m.sized conf).noMem

/-- What stands before the failure, and what does not. -/
theorem rank_lt_iff {conf : PlConf} {pre post : List Resource} {r : Resource}
    (h : opsOrder conf = pre ++ r :: post) {s : Resource} (hs : s ∈ opsOrder conf) :
    (s ∈ pre ↔ rank conf s < rank conf r) ∧ (s ∈ pre ++ [r] ↔ rank conf s ≤ rank conf r) := by
  have hpairs := opsOrder_pairwise conf
  rw [h, List.pairwise_append, List.pairwise_cons] at hpairs
  obtain ⟨-, ⟨hpost, -⟩, hpre⟩ := hpairs
  have hbefore : s ∈ pre → rank conf s < rank conf r := fun hmem =>
    hpre s hmem r List.mem_cons_self
  rw [h, List.mem_append, List.mem_cons] at hs
  rw [List.mem_append, List.mem_singleton]
  rcases hs with hmem | rfl | hmem
  · exact ⟨iff_of_true hmem (hbefore hmem), iff_of_true (Or.inl hmem) (hbefore hmem).le⟩
  · exact ⟨iff_of_false (fun hmem => lt_irrefl _ (hbefore hmem)) (lt_irrefl _),
      iff_of_true (Or.inr rfl) le_rfl⟩
  · have hafter := hpost s hmem
    refine ⟨iff_of_false (fun hmem => hafter.not_gt (hbefore hmem)) hafter.not_gt,
      iff_of_false ?_ hafter.not_ge⟩
    intro h
    rcases h with hmem | rfl
    · exact hafter.not_gt (hbefore hmem)
    · exact lt_irrefl _ hafter

theorem mem_opsOrder {conf : PlConf} {r : Resource} :
    r ∈ opsOrder conf ↔ r = .opsArrTx ∨ r = .opsArrRx
      ∨ (∃ i < numEntries conf, r = .opTx i ∨ r = .opRx i) ∨ r = .regexPools
      ∨ (∃ i < cores conf, r = .regexPool i) ∨ r = .coreVars := by
  simp [opsOrder]

/-- The ledger where `r` has failed behind `pre`. -/
def failedLedger (pre : List Resource) (r : Resource) : Ledger Resource where
  acquired := .rules :: pre
  written := .rules :: (pre ++ [r])
  released := []
  strays := []

theorem mem_failedLedger {conf : PlConf} {pre post : List Resource} {r : Resource}
    (h : opsOrder conf = pre ++ r :: post) {s : Resource} (hs : s ∈ opsOrder conf) :
    (s ∈ (failedLedger pre r).acquired ↔ rank conf s < rank conf r)
      ∧ (s ∈ (failedLedger pre r).written ↔ rank conf s ≤ rank conf r) := by
  obtain ⟨hacq, hwritten⟩ := rank_lt_iff h hs
  have hne : s ≠ .rules := by
    rintro rfl
    simp [mem_opsOrder] at hs
  rw [← hacq, ← hwritten]
  exact ⟨by simp [failedLedger, hne], by simp [failedLedger, hne]⟩

/-- The places at which every array is full. -/
theorem full_iff {conf : PlConf} {pre post : List Resource} {r : Resource}
    (h : opsOrder conf = pre ++ r :: post) :
    Full conf (failedLedger pre r)
      ↔ (0 < rank conf r → ∀ i < numEntries conf, 2 + 2 * i ≤ rank conf r)
        ∧ (1 < rank conf r → ∀ i < numEntries conf, 3 + 2 * i ≤ rank conf r)
        ∧ (2 + 2 * numEntries conf < rank conf r →
            ∀ i < cores conf, 3 + 2 * numEntries conf + i ≤ rank conf r) := by
  have hentry : ∀ {arr : Resource} {entry : ℕ → Resource} {n : ℕ}, arr ∈ opsOrder conf →
      (∀ i < n, entry i ∈ opsOrder conf) →
      ((arr ∈ (failedLedger pre r).acquired → ∀ i < n, entry i ∈ (failedLedger pre r).written)
        ↔ (rank conf arr < rank conf r → ∀ i < n, rank conf (entry i) ≤ rank conf r)) := by
    intro arr entry n harr hentries
    rw [(mem_failedLedger h harr).1]
    refine imp_congr_right fun _ => forall₂_congr fun i hi => ?_
    exact (mem_failedLedger h (hentries i hi)).2
  have htx := @hentry .opsArrTx .opTx (numEntries conf) (by simp [mem_opsOrder])
    (fun i hi => mem_opsOrder.mpr (by simp [hi]))
  have hrx := @hentry .opsArrRx .opRx (numEntries conf) (by simp [mem_opsOrder])
    (fun i hi => mem_opsOrder.mpr (by simp [hi]))
  have hpools := @hentry .regexPools .regexPool (cores conf) (by simp [mem_opsOrder])
    (fun i hi => mem_opsOrder.mpr (by simp [hi]))
  constructor
  · intro h
    obtain ⟨hfullTx, hfullRx, hfullPools⟩ := h
    exact ⟨htx.mp hfullTx, hrx.mp hfullRx, hpools.mp hfullPools⟩
  · intro h
    obtain ⟨hfullTx, hfullRx, hfullPools⟩ := h
    exact ⟨htx.mpr hfullTx, hrx.mpr hfullRx, hpools.mpr hfullPools⟩

theorem failedLedger_arraysFirst {conf : PlConf} {pre post : List Resource} {r : Resource}
    (h : opsOrder conf = pre ++ r :: post) : ArraysFirst (failedLedger pre r) := by
  have hfirst : ∀ {arr s : Resource}, arr ∈ opsOrder conf → s ≠ .rules →
      rank conf arr < rank conf s → arr ∉ (failedLedger pre r).acquired →
      s ∉ (failedLedger pre r).acquired := by
    intro arr s harr hne hlt hnot hs
    rcases List.mem_cons.mp hs with heq | hpre
    · exact hne heq
    have hin : s ∈ opsOrder conf := h ▸ List.mem_append_left _ hpre
    exact hnot ((mem_failedLedger h harr).1.mpr (hlt.trans ((rank_lt_iff h hin).1.mp hpre)))
  refine ⟨fun harr i => ?_, fun harr i => ?_, fun harr i => ?_⟩
  · refine hfirst (mem_opsOrder.mpr (by simp)) nofun ?_ harr
    show 0 < 2 + 2 * i
    omega
  · refine hfirst (mem_opsOrder.mpr (by simp)) nofun ?_ harr
    show 1 < 3 + 2 * i
    omega
  · refine hfirst (mem_opsOrder.mpr (by simp)) nofun ?_ harr
    show 2 + 2 * numEntries conf < 3 + 2 * numEntries conf + i
    omega

theorem mem_opsSlots {conf : PlConf} {s : Resource} (h : s = .rules ∨ s ∈ opsOrder conf) :
    s ∈ opsSlots conf := by
  rcases h with rfl | h
  · simp [opsSlots]
  rcases mem_opsOrder.mp h with rfl | rfl | ⟨i, hi, rfl | rfl⟩ | rfl | ⟨i, hi, rfl⟩ | rfl
  · simp [opsSlots]
  · simp [opsSlots]
  · simp [opsSlots, hi]
  · simp [opsSlots, hi]
  · simp [opsSlots]
  · simp [opsSlots, hi]
  · simp [opsSlots]

/-- **The cleanup is exact if every array is full**, and only then. -/
theorem clean_exact_iff {conf : PlConf} {pre post : List Resource} {r : Resource}
    (h : opsOrder conf = pre ++ r :: post) :
    (regexDevDpdkBfClean conf (failedLedger pre r)).Exact (fun _ => false)
      ↔ Full conf (failedLedger pre r) := by
  constructor
  · intro hexact
    by_contra hfull
    exact clean_of_not_full hfull hexact.untouched
  · intro hfull
    rw [clean_of_full hfull (failedLedger_arraysFirst h)]
    refine Exact.of_nodup ((opsSlots_nodup conf).filter _) ?_ ?_ rfl
    · intro s hs
      exact (mem_held.mp hs).2.2
    · intro s hs _
      refine mem_held.mpr ⟨mem_opsSlots ?_, ?_, hs⟩
      · exact (List.mem_cons.mp hs).imp_right fun hpre => h ▸ List.mem_append_left _ hpre
      · rcases List.mem_cons.mp hs with heq | hpre
        · exact List.mem_cons.mpr (Or.inl heq)
        · exact List.mem_cons_of_mem _ (List.mem_append_left _ hpre)

/-- The harmless places are those at which every array is full. -/
theorem full_iff_harmless {conf : PlConf} {pre post : List Resource} {r : Resource}
    (h : opsOrder conf = pre ++ r :: post) (hn : r = .opsArrTx ∨ 0 < numEntries conf) :
    Full conf (failedLedger pre r) ↔ Harmless conf r := by
  have hr : r ∈ opsOrder conf := h ▸ List.mem_append_right _ List.mem_cons_self
  rw [full_iff h]
  unfold Harmless
  rcases mem_opsOrder.mp hr with rfl | rfl | ⟨i, hi, rfl | rfl⟩ | rfl | ⟨i, hi, rfl⟩ | rfl
  · -- the first array
    exact iff_of_true ⟨nofun, nofun, nofun⟩ (Or.inl rfl)
  · -- nothing is in the first array yet
    have hpos : 0 < numEntries conf := hn.resolve_left nofun
    refine iff_of_false (fun hall => ?_) (by simp)
    exact absurd (hall.1 Nat.one_pos 0 hpos) (by simp [rank])
  · -- the entry of the second array is not written
    refine iff_of_false (fun hall => ?_) (by simp)
    have hlt := hall.2.1 (by simp only [rank]; omega) i hi
    simp only [rank] at hlt
    omega
  · -- the entries behind this one are not written
    constructor
    · intro hall
      have hlast := hall.2.1 (by simp only [rank]; omega) (numEntries conf - 1) (by omega)
      simp only [rank] at hlast
      refine Or.inr (Or.inl (congrArg Resource.opRx ?_))
      omega
    · intro hharmless
      obtain rfl : i = numEntries conf - 1 := by simpa using hharmless
      simp only [rank]
      exact ⟨fun _ j hj => by omega, fun _ j hj => by omega, fun hlt => by omega⟩
  · -- the ops are all there
    refine iff_of_true ?_ (Or.inr (Or.inr (Or.inl rfl)))
    simp only [rank]
    exact ⟨fun _ j hj => by omega, fun _ j hj => by omega, fun hlt => absurd hlt (lt_irrefl _)⟩
  · -- the mempools behind this one are not written
    constructor
    · intro hall
      have hlast := hall.2.2 (by simp only [rank]; omega) (cores conf - 1) (by omega)
      simp only [rank] at hlast
      refine Or.inr (Or.inr (Or.inr (Or.inl (congrArg Resource.regexPool ?_))))
      omega
    · intro hharmless
      obtain rfl : i = cores conf - 1 := by simpa using hharmless
      simp only [rank]
      exact ⟨fun _ j hj => by omega, fun _ j hj => by omega, fun _ j hj => by omega⟩
  · -- the mempools are all there
    refine iff_of_true ?_ (Or.inr (Or.inr (Or.inr (Or.inr rfl))))
    simp only [rank]
    exact ⟨fun _ j hj => by omega, fun _ j hj => by omega, fun _ j hj => by omega⟩

/-- **When the cleanup is exact**: the allocation that fails, if any, is a harmless one. -/
theorem opsCleaned_iff (m : Machine) (conf : PlConf) :
    OpsCleaned m conf ↔ ∀ r, firstFailure m conf = some r → Harmless conf r := by
  unfold OpsCleaned opsRun firstFailure
  rw [regexDevInitOps_eq]
  cases hfirst : (opsOrder conf).find? (m.sized conf).noMem with
  | none =>
      have hok : (acquireAll (m.sized conf).noMem (opsOrder conf)).ok = true :=
        acquireAll_ok.mpr fun r hr => by simpa using List.find?_eq_none.mp hfirst r hr
      rw [hok]
      exact iff_of_true nofun nofun
  | some r =>
      obtain ⟨hr, pre, post, horder, hpre⟩ := List.find?_eq_some_iff_append.mp hfirst
      replace hpre : ∀ s ∈ pre, (m.sized conf).noMem s = false := by simpa using hpre
      have hok : (acquireAll (m.sized conf).noMem (opsOrder conf)).ok = false := by
        by_contra hok
        rw [Bool.not_eq_false, acquireAll_ok] at hok
        have hmem : r ∈ opsOrder conf := horder ▸ List.mem_append_right _ List.mem_cons_self
        rw [hok r hmem] at hr
        cases hr
      have hledger : (acquireAll (m.sized conf).noMem (opsOrder conf)).effect rulesLoaded
          = failedLedger pre r := by
        rw [horder, acquireAll_effect_of_fail hpre hr]
        rfl
      -- an array without entries is the first failure
      have hn : r = .opsArrTx ∨ 0 < numEntries conf := by
        by_contra hnot
        rw [not_or, Nat.not_lt, Nat.le_zero] at hnot
        obtain ⟨hne, hzero⟩ := hnot
        have hfails : (m.sized conf).noMem .opsArrTx = true := by simp [Machine.sized, hzero]
        have hmem : .opsArrTx ∈ pre := by
          rcases pre with - | ⟨s, pre⟩
          · exact absurd (List.cons.inj horder).1.symm hne
          · exact (List.cons.inj horder).1 ▸ List.mem_cons_self
        rw [hpre _ hmem] at hfails
        cases hfails
      rw [hok, hledger, clean_exact_iff horder, full_iff_harmless horder hn]
      constructor
      · rintro hharmless s hs
        cases hs
        exact hharmless rfl
      · intro hharmless _
        exact hharmless r rfl

/-- One core with one op of each kind. -/
def oneOp : PlConf := { Parser.init.conf with num := fun _ => 1 }

theorem secondArray_not_cleaned :
    ¬ OpsCleaned (twoWorkers (fun r => r = .opsArrRx) (fun _ => false)) oneOp := by
  intro h
  have hfails : (regexDevInitOps ((twoWorkers (fun r => r = .opsArrRx) (fun _ => false)).sized
      oneOp) oneOp).ok = false := by decide
  exact absurd (h hfails).untouched (by decide)

end Meili.Runtime
