/-
  Meili.Runtime.PortPools — the mbuf pools of the ports.

  `input_dpdk_port_init_ports` (`src/utils/input_mode/input_dpdk_port.c`) allocates a table
  of `num_ports` rows with `nb_queues_per_port` slots each, and stores a pool for queue 0 of
  each device it finds; `input_dpdk_port_clean` goes through `num_ports` rows of `cores`
  slots.  Here the number of queues is a parameter; `portInitPorts_eq` says that with the one
  that `conf_setup` sets this is `inputDpdkPortInitPorts`.

    • `devices_pools` — which pools there are behind the loop over the devices;
    • `poolsAgree_iff` — when both sides agree on the table.
-/
import Meili.Runtime.Startup

namespace Meili.Runtime

open Meili.Conf Meili.Lib Meili.Lib.Ledger Meili.Lib.Action

/-! ## §1. The table. -/

/-- The inner loop of `input_dpdk_port_clean`, over a row with `numQueues` slots. -/
def freePortRow (numQueues : ℕ) (conf : PlConf) (i : ℕ) : Ledger Resource → Ledger Resource :=
  forEach (List.range (cores conf)) fun j =>
    if j < numQueues then free (.mbufPool i j) else stray (.mbufPool i j)

/-- `input_dpdk_port_clean`. -/
def portClean (numQueues : ℕ) (conf : PlConf) (l : Ledger Resource) : Ledger Resource :=
  if .mbufPools ∈ l.acquired then
    (l.forEach (List.range (numPorts conf))
      fun i l => (freePortRow numQueues conf i l).free (.portPools i)).free .mbufPools
  else l

/-- The rows of the table; `rte_zmalloc` has nothing to give for a size of 0. -/
def portRows (m : Machine) (conf : PlConf) (numQueues : ℕ) : Action Resource :=
  each (numPorts conf) fun i => acquire (m.noMem (.portPools i) || numQueues = 0) (.portPools i)

/-- `input_dpdk_port_init_ports`. -/
def portInitPorts (m : Machine) (conf : PlConf) (numQueues : ℕ) : Action Resource :=
  (check (m.ethDevs = 0)).andThen <|
    (acquire (m.noMem .mbufPools) .mbufPools).andThen <|
      (portRows m conf numQueues).andThen <|
        (each m.ethDevs (inputDpdkPortInit m conf)).onFail (portClean numQueues conf)

theorem portClean_eq (conf : PlConf) : portClean nbQueuesPerPort conf = inputDpdkPortClean conf :=
  rfl

theorem portInitPorts_eq (m : Machine) (conf : PlConf) :
    portInitPorts m conf nbQueuesPerPort = inputDpdkPortInitPorts m conf := by
  have hrow : ∀ i, (m.noMem (.portPools i) || decide (nbQueuesPerPort = 0))
      = m.noMem (.portPools i) := fun i => Bool.or_false _
  unfold portInitPorts portRows inputDpdkPortInitPorts
  simp only [hrow]
  rfl

/-- The input is set up and, if that has not failed, cleaned at the end. -/
def portRun (m : Machine) (conf : PlConf) (numQueues : ℕ) : Ledger Resource :=
  let l := (portInitPorts m conf numQueues).effect Ledger.empty
  if (portInitPorts m conf numQueues).ok then portClean numQueues conf l else l

/-- Every access is inside of the table, and each pool that was created is freed once. -/
structure PoolsAgree (l : Ledger Resource) : Prop where
  inside : l.strays = []
  once : ∀ i j, .mbufPool i j ∈ l.acquired → l.released.count (.mbufPool i j) = 1

/-! ## §2. The devices. -/

/-- The calls before the pool of a device do not fail. -/
def Machine.devReady (m : Machine) (i : ℕ) : Bool :=
  !(m.fails (.isValidPort i) || m.fails (.devInfoGet i) || m.fails (.devConfigure i)
    || m.fails (.adjustDesc i))

/-- The calls behind the pool of a device do not fail. -/
def Machine.devStarts (m : Machine) (i : ℕ) : Bool :=
  !(m.fails (.rxQueueSetup i) || m.fails (.txQueueSetup i) || m.fails (.devStart i)
    || m.fails (.promiscuous i))

/-- A device gets its pool, if it is its turn. -/
def Machine.poolCreated (m : Machine) (i : ℕ) : Bool := m.devReady i && !m.noMem (.mbufPool i 0)

/-- The devices before `i` start, and `i` gets its pool. -/
def Machine.Creates (m : Machine) (i : ℕ) : Prop :=
  (∀ k < i, m.poolCreated k = true ∧ m.devStarts k = true) ∧ m.poolCreated i = true

theorem inputDpdkPortInit_ok (m : Machine) (conf : PlConf) (i : ℕ) :
    (inputDpdkPortInit m conf i).ok = (m.poolCreated i && m.devStarts i) := by
  unfold inputDpdkPortInit inputDpdkPortInitQueues Machine.poolCreated Machine.devReady
    Machine.devStarts
  split <;> simp [Bool.and_assoc, Bool.or_assoc]

/-- The pool of a device is stored, or it is stored outside of the table. -/
def storePool (m : Machine) (conf : PlConf) (i : ℕ) (l : Ledger Resource) : Ledger Resource :=
  if i < numPorts conf then
    if m.noMem (.mbufPool i 0) then l.write (.mbufPool i 0)
    else (l.alloc (.mbufPool i 0)).write (.mbufPool i 0)
  else if m.noMem (.mbufPool i 0) then l
  else (l.alloc (.mbufPool i 0)).stray (.portPools i)

/-- What comes last and touches nothing. -/
theorem andThen_effect_of_id (a : Action Resource) {b : Action Resource} (hb : b.effect = id) :
    (a.andThen b).effect = a.effect := by
  funext l
  cases h : a.ok with
  | true =>
      rw [andThen_effect_of_ok h, hb]
      rfl
  | false => exact andThen_effect_of_fail h l

theorem inputDpdkPortInit_effect (m : Machine) (conf : PlConf) (i : ℕ) (l : Ledger Resource) :
    (inputDpdkPortInit m conf i).effect l = if m.devReady i then storePool m conf i l else l := by
  have hqueues : (inputDpdkPortInitQueues m conf i).effect l = storePool m conf i l := by
    unfold inputDpdkPortInitQueues storePool
    rw [andThen_effect_of_id _ (andThen_effect_of_id _ rfl)]
    split
    · rfl
    · rfl
  unfold inputDpdkPortInit Machine.devReady
  cases hready : (m.fails (.isValidPort i) || m.fails (.devInfoGet i) || m.fails (.devConfigure i)
      || m.fails (.adjustDesc i)) with
  | true => exact andThen_effect_of_fail rfl l
  | false =>
      rw [andThen_effect_of_ok rfl, andThen_effect_of_id _ rfl]
      exact hqueues

/-- The pools behind the first `n` devices. -/
structure Pools (m : Machine) (conf : PlConf) (n : ℕ) (l : Ledger Resource) : Prop where
  acquired : ∀ i j, .mbufPool i j ∈ l.acquired ↔ j = 0 ∧ i < n ∧ m.Creates i
  written : ∀ i < numPorts conf, .mbufPool i 0 ∈ l.acquired → .mbufPool i 0 ∈ l.written
  strays : l.strays = [] ↔ ∀ i < n, m.Creates i → i < numPorts conf
  released : l.released = []
  table : .mbufPools ∈ l.acquired

variable {m : Machine} {conf : PlConf}

theorem Pools.skip {n : ℕ} {l : Ledger Resource} (h : Pools m conf n l) (hnot : ¬ m.Creates n) :
    Pools m conf (n + 1) l where
  acquired i j := by
    rw [h.acquired]
    refine and_congr_right fun _ => and_congr_left fun hi => ?_
    have hne : i ≠ n := fun heq => hnot (heq ▸ hi)
    omega
  written := h.written
  strays := by
    rw [h.strays]
    refine forall_congr' fun i => ⟨fun hi hlt hc => ?_, fun hi hlt => hi (Nat.lt_succ_of_lt hlt)⟩
    have hne : i ≠ n := fun heq => hnot (heq ▸ hc)
    exact hi (by omega) hc
  released := h.released
  table := h.table

theorem Pools.write {n i j : ℕ} {l : Ledger Resource} (h : Pools m conf n l) :
    Pools m conf n (l.write (.mbufPool i j)) where
  acquired := h.acquired
  written k hk hacq := List.mem_append_left _ (h.written k hk hacq)
  strays := h.strays
  released := h.released
  table := h.table

theorem Pools.acquired_succ {n : ℕ} {l : Ledger Resource} (h : Pools m conf n l)
    (hc : m.Creates n) (i j : ℕ) :
    .mbufPool i j ∈ l.acquired ++ [Resource.mbufPool n 0] ↔ j = 0 ∧ i < n + 1 ∧ m.Creates i := by
  rw [List.mem_append, List.mem_singleton, h.acquired, Resource.mbufPool.injEq]
  constructor
  · intro h
    rcases h with ⟨rfl, hi, hci⟩ | ⟨rfl, rfl⟩
    · exact ⟨rfl, Nat.lt_succ_of_lt hi, hci⟩
    · exact ⟨rfl, Nat.lt_succ_self _, hc⟩
  · intro h
    obtain ⟨rfl, hi, hci⟩ := h
    rcases Nat.lt_succ_iff_lt_or_eq.mp hi with hlt | rfl
    · exact Or.inl ⟨rfl, hlt, hci⟩
    · exact Or.inr ⟨rfl, rfl⟩

/-- The next device stores its pool in its row. -/
theorem Pools.store {n : ℕ} {l : Ledger Resource} (h : Pools m conf n l) (hc : m.Creates n)
    (hrow : n < numPorts conf) :
    Pools m conf (n + 1) ((l.alloc (.mbufPool n 0)).write (.mbufPool n 0)) where
  acquired := h.acquired_succ hc
  written i hi hacq := by
    show .mbufPool i 0 ∈ l.written ++ [Resource.mbufPool n 0]
    rcases List.mem_append.mp hacq with hold | hnew
    · exact List.mem_append_left _ (h.written i hi hold)
    · exact List.mem_append_right _ hnew
  strays := by
    show l.strays = [] ↔ _
    rw [h.strays]
    refine forall_congr' fun i => ⟨fun hi hlt hci => ?_, fun hi hlt => hi (Nat.lt_succ_of_lt hlt)⟩
    rcases Nat.lt_succ_iff_lt_or_eq.mp hlt with hbefore | rfl
    · exact hi hbefore hci
    · exact hrow
  released := h.released
  table := List.mem_append_left _ h.table

/-- The next device stores its pool behind the table. -/
theorem Pools.storeOutside {n : ℕ} {l : Ledger Resource} (h : Pools m conf n l) (hc : m.Creates n)
    (hrow : ¬ n < numPorts conf) :
    Pools m conf (n + 1) ((l.alloc (.mbufPool n 0)).stray (.portPools n)) where
  acquired := h.acquired_succ hc
  written i hi hacq := by
    rcases List.mem_append.mp hacq with hold | hnew
    · exact h.written i hi hold
    · obtain ⟨rfl, -⟩ := Resource.mbufPool.inj (List.mem_singleton.mp hnew)
      exact absurd hi hrow
  strays := by
    refine iff_of_false (List.concat_ne_nil _ _) fun hall => hrow ?_
    exact hall n (Nat.lt_succ_self n) hc
  released := h.released
  table := List.mem_append_left _ h.table

/-- **One device**, whether it starts or not. -/
theorem Pools.step {n : ℕ} {l : Ledger Resource} (h : Pools m conf n l)
    (hbefore : ∀ k < n, m.poolCreated k = true ∧ m.devStarts k = true) :
    Pools m conf (n + 1) ((inputDpdkPortInit m conf n).effect l) := by
  rw [inputDpdkPortInit_effect]
  by_cases hready : m.devReady n = true
  · rw [if_pos hready]
    unfold storePool
    by_cases hmem : m.noMem (.mbufPool n 0) = true
    · have hnot : ¬ m.Creates n := by
        intro h
        obtain ⟨-, hpool⟩ := h
        simp [Machine.poolCreated, hmem] at hpool
      rw [if_pos hmem, if_pos hmem]
      split
      · exact (h.skip hnot).write
      · exact h.skip hnot
    · have hc : m.Creates n := ⟨hbefore, by simp [Machine.poolCreated, hready, hmem]⟩
      rw [if_neg hmem, if_neg hmem]
      split
      · rename_i hrow
        exact h.store hc hrow
      · rename_i hrow
        exact h.storeOutside hc hrow
  · rw [if_neg hready]
    refine h.skip ?_
    intro h
    obtain ⟨-, hpool⟩ := h
    simp [Machine.poolCreated, hready] at hpool

/-- **The loop over the devices** creates the pools of those whose turn comes. -/
theorem devices_pools {l : Ledger Resource} (h : Pools m conf 0 l) (n : ℕ) :
    Pools m conf n ((each n (inputDpdkPortInit m conf)).effect l) := by
  have hrule := each_rule (n := n) (f := inputDpdkPortInit m conf)
    (I := fun i l => (∀ k < i, m.poolCreated k = true ∧ m.devStarts k = true) ∧ Pools m conf i l)
    (Q := fun l => Pools m conf n l) ⟨by simp, h⟩ ?_ ?_
  · split at hrule
    · exact hrule.2
    · exact hrule
  · rintro i _ l ⟨hbefore, hpools⟩ hok
    rw [inputDpdkPortInit_ok, Bool.and_eq_true] at hok
    refine ⟨fun k hk => ?_, hpools.step hbefore⟩
    rcases Nat.lt_succ_iff_lt_or_eq.mp hk with hlt | rfl
    · exact hbefore k hlt
    · exact hok
  · -- no device behind the one that fails has its turn
    rintro i hi l ⟨hbefore, hpools⟩ hfail
    have hnot : ∀ k, i < k → ¬ m.Creates k := by
      intro k hk h
      obtain ⟨hall, -⟩ := h
      rw [inputDpdkPortInit_ok, (hall i hk).1, (hall i hk).2] at hfail
      cases hfail
    obtain ⟨d, rfl⟩ := Nat.exists_eq_add_of_le (Nat.succ_le_of_lt hi)
    clear hi
    induction d with
    | zero => exact hpools.step hbefore
    | succ d ih => exact ih.skip (hnot _ (by omega))

/-! ## §3. The cleanup. -/

/-- The slots that `input_dpdk_port_clean` frees. -/
def portSlots (conf : PlConf) : List Resource :=
  (List.range (numPorts conf)).flatMap
    (fun i => (List.range (cores conf)).map (.mbufPool i) ++ [.portPools i]) ++ [.mbufPools]

theorem mem_portSlots {i j : ℕ} :
    .mbufPool i j ∈ portSlots conf ↔ i < numPorts conf ∧ j < cores conf := by
  simp [portSlots]

theorem portSlots_nodup (conf : PlConf) : (portSlots conf).Nodup := by
  unfold portSlots
  refine List.nodup_append.mpr ⟨List.nodup_flatMap.mpr ⟨fun i _ => ?_, ?_⟩, by simp, ?_⟩
  · refine List.nodup_append.mpr ⟨List.nodup_range.map fun j k h => ?_, by simp, by simp⟩
    exact (Resource.mbufPool.inj h).2
  · apply List.nodup_range.imp
    intro i k hne r hi hk
    simp only [List.mem_append, List.mem_map, List.mem_singleton] at hi hk
    rcases hi with ⟨j, -, rfl⟩ | rfl
    · simp [hne.symm] at hk
    · simp [hne] at hk
  · rintro r hr s hs rfl
    obtain rfl := List.mem_singleton.mp hs
    simp at hr

/-- Where a row has a slot for every core, the cleanup is a series of frees. -/
theorem portClean_of_le {numQueues : ℕ} (h : cores conf ≤ numQueues) {l : Ledger Resource}
    (htable : .mbufPools ∈ l.acquired) :
    portClean numQueues conf l = l.forEach (portSlots conf) free := by
  have hrow : ∀ i, freePortRow numQueues conf i
      = forEach ((List.range (cores conf)).map (.mbufPool i)) free := by
    intro i
    funext l
    rw [forEach_map]
    refine forEach_congr (fun j hj => if_pos ?_) l
    exact (List.mem_range.mp hj).trans_le h
  unfold portClean portSlots
  rw [if_pos htable, forEach_append, forEach_flatMap]
  refine congrArg (free .mbufPools) (forEach_congr (fun i _ => ?_) l)
  funext l
  rw [hrow, forEach_append]
  rfl

theorem numPorts_pos (conf : PlConf) : 0 < numPorts conf := by
  unfold numPorts
  split <;> decide

theorem portClean_strays {numQueues : ℕ} (h : numQueues < cores conf) {l : Ledger Resource}
    (htable : .mbufPools ∈ l.acquired) : (portClean numQueues conf l).strays ≠ [] := by
  have hslot : ∀ i j, KeepsStrays
      (if j < numQueues then free (.mbufPool i j) else stray (.mbufPool i j) :
        Ledger Resource → Ledger Resource) := by
    intro i j
    split
    · exact keepsStrays_freeSlot true _
    · exact keepsStrays_stray _
  have hrow : ∀ i, KeepsStrays (freePortRow numQueues conf i) := fun i =>
    KeepsStrays.forEach fun j _ => hslot i j
  unfold portClean
  rw [if_pos htable]
  refine keepsStrays_freeSlot true _ _ (forEach_strays (P := fun _ => True) (fun i _ l hl => ?_)
    (fun _ _ _ _ => trivial) (List.mem_range.mpr (numPorts_pos conf)) (fun l _ => ?_) trivial)
  · exact keepsStrays_freeSlot true _ _ (hrow i l hl)
  · -- the slot behind the first row
    refine keepsStrays_freeSlot true _ _ (forEach_strays (P := fun _ => True)
      (fun j _ => hslot 0 j) (fun _ _ _ _ => trivial) (List.mem_range.mpr h) (fun l _ => ?_)
      trivial)
    rw [if_neg (lt_irrefl numQueues)]
    exact List.concat_ne_nil _ _

/-! ## §4. Both together. -/

/-- The table and all of its rows are there. -/
structure TableReady (m : Machine) (conf : PlConf) (numQueues : ℕ) : Prop where
  devs : m.ethDevs ≠ 0
  table : m.noMem .mbufPools = false
  rows : ∀ i < numPorts conf, m.noMem (.portPools i) = false
  queues : numQueues ≠ 0

/-- The table is there, and nothing is in it. -/
def emptyTable : Ledger Resource := (acquire false .mbufPools).effect Ledger.empty

theorem Pools.acquire_row {n i : ℕ} {l : Ledger Resource} (h : Pools m conf n l) (fails : Bool) :
    Pools m conf n ((acquire fails (.portPools i)).effect l) := by
  cases fails with
  | true => exact
      { acquired := h.acquired
        written := fun k hk hacq => List.mem_append_left _ (h.written k hk hacq)
        strays := h.strays
        released := h.released
        table := h.table }
  | false => exact
      { acquired := fun k j => by
          show .mbufPool k j ∈ l.acquired ++ [Resource.portPools i] ↔ _
          rw [List.mem_append, h.acquired]
          simp
        written := fun k hk hacq => by
          refine List.mem_append_left _ (h.written k hk ?_)
          rcases List.mem_append.mp hacq with hold | hnew
          · exact hold
          · cases List.mem_singleton.mp hnew
        strays := h.strays
        released := h.released
        table := List.mem_append_left _ h.table }

theorem portRows_pools (m : Machine) (conf : PlConf) (numQueues : ℕ) :
    Pools m conf 0 ((portRows m conf numQueues).effect emptyTable) := by
  have hempty : Pools m conf 0 emptyTable :=
    { acquired := by simp [emptyTable, acquire, alloc, write, Ledger.empty]
      written := by simp [emptyTable, acquire, alloc, write, Ledger.empty]
      strays := by simp [emptyTable, acquire, alloc, write, Ledger.empty]
      released := rfl
      table := List.mem_append_right _ (List.mem_singleton.mpr rfl) }
  have hrule := each_rule (n := numPorts conf)
    (f := fun i => acquire (m.noMem (.portPools i) || numQueues = 0) (.portPools i))
    (I := fun _ l => Pools m conf 0 l) (Q := fun l => Pools m conf 0 l) hempty
    (fun i _ l h _ => h.acquire_row _) (fun i _ l h _ => h.acquire_row _)
  split at hrule <;> exact hrule

theorem portRows_ok {numQueues : ℕ} :
    (portRows m conf numQueues).ok = true
      ↔ (∀ i < numPorts conf, m.noMem (.portPools i) = false) ∧ numQueues ≠ 0 := by
  unfold portRows
  rw [each_ok]
  simp only [acquire_ok, Bool.not_eq_true', Bool.or_eq_false_iff, decide_eq_false_iff_not]
  constructor
  · intro h
    exact ⟨fun i hi => (h i hi).1, (h 0 (numPorts_pos conf)).2⟩
  · rintro ⟨hmem, hq⟩ i hi
    exact ⟨hmem i hi, hq⟩

/-- The run with the table. -/
theorem portRun_of_ready {numQueues : ℕ} (h : TableReady m conf numQueues) :
    portRun m conf numQueues = portClean numQueues conf
      ((each m.ethDevs (inputDpdkPortInit m conf)).effect
        ((portRows m conf numQueues).effect emptyTable)) := by
  have hdevs : (check (m.ethDevs = 0) : Action Resource).ok = true := by simp [h.devs]
  have htable : (acquire (m.noMem .mbufPools) .mbufPools : Action Resource).ok = true := by
    rw [acquire_ok, h.table]
    rfl
  have hrows : (portRows m conf numQueues).ok = true := portRows_ok.mpr ⟨h.rows, h.queues⟩
  have hempty : (acquire (m.noMem .mbufPools) .mbufPools).effect Ledger.empty = emptyTable := by
    rw [h.table]
    rfl
  have hok : (portInitPorts m conf numQueues).ok
      = (each m.ethDevs (inputDpdkPortInit m conf)).ok := by
    show ((check (m.ethDevs = 0) : Action Resource).ok
      && ((acquire (m.noMem .mbufPools) .mbufPools : Action Resource).ok
        && ((portRows m conf numQueues).ok && _))) = _
    rw [hdevs, htable, hrows]
    rfl
  have heffect : (portInitPorts m conf numQueues).effect Ledger.empty
      = ((each m.ethDevs (inputDpdkPortInit m conf)).onFail (portClean numQueues conf)).effect
        ((portRows m conf numQueues).effect emptyTable) := by
    unfold portInitPorts
    rw [andThen_effect_of_ok hdevs, andThen_effect_of_ok htable, andThen_effect_of_ok hrows]
    exact congrArg _ (congrArg _ hempty)
  unfold portRun
  dsimp only
  rw [hok, heffect]
  cases heach : (each m.ethDevs (inputDpdkPortInit m conf)).ok with
  | true =>
      rw [onFail_effect_of_ok heach]
      rfl
  | false =>
      rw [onFail_effect_of_fail heach]
      rfl

theorem portRun_of_fail {numQueues : ℕ} (h : (portInitPorts m conf numQueues).ok = false) :
    portRun m conf numQueues = (portInitPorts m conf numQueues).effect Ledger.empty := by
  unfold portRun
  rw [h]
  rfl

/-- Without the table there is no pool. -/
theorem portRun_of_not_ready {numQueues : ℕ} (h : ¬ TableReady m conf numQueues) :
    PoolsAgree (portRun m conf numQueues) := by
  by_cases hdevs : m.ethDevs = 0
  · have hcheck : (check (m.ethDevs = 0) : Action Resource).ok = false := by simp [hdevs]
    rw [portRun_of_fail (by unfold portInitPorts; rw [andThen_ok, hcheck, Bool.false_and])]
    unfold portInitPorts
    rw [andThen_effect_of_fail hcheck]
    exact ⟨rfl, by simp [Ledger.empty, check]⟩
  have hcheck : (check (m.ethDevs = 0) : Action Resource).ok = true := by simp [hdevs]
  by_cases htable : m.noMem .mbufPools = true
  · have hacquire : (acquire (m.noMem .mbufPools) .mbufPools : Action Resource).ok = false := by
      rw [acquire_ok, htable]
      rfl
    rw [portRun_of_fail (by
      unfold portInitPorts
      rw [andThen_ok, andThen_ok, hacquire, Bool.false_and, Bool.and_false])]
    unfold portInitPorts
    rw [andThen_effect_of_ok hcheck, andThen_effect_of_fail hacquire, htable]
    exact ⟨rfl, by simp [Ledger.empty, check, acquire, write]⟩
  rw [Bool.not_eq_true] at htable
  have hacquire : (acquire (m.noMem .mbufPools) .mbufPools : Action Resource).ok = true := by
    rw [acquire_ok, htable]
    rfl
  have hrows : (portRows m conf numQueues).ok = false := by
    by_contra hok
    obtain ⟨hmem, hq⟩ := portRows_ok.mp (Bool.not_eq_false _ ▸ hok)
    exact h ⟨hdevs, htable, hmem, hq⟩
  have hpools := portRows_pools m conf numQueues
  rw [portRun_of_fail (by
    unfold portInitPorts
    rw [andThen_ok, andThen_ok, andThen_ok, hrows, Bool.false_and, Bool.and_false, Bool.and_false])]
  unfold portInitPorts
  rw [andThen_effect_of_ok hcheck, andThen_effect_of_ok hacquire, andThen_effect_of_fail hrows,
    htable]
  refine ⟨hpools.strays.mpr fun i hi => absurd hi (Nat.not_lt_zero i), fun i j hacq => ?_⟩
  exact absurd ((hpools.acquired i j).mp hacq).2.1 (Nat.not_lt_zero i)

/-- **When the cleanup agrees with the table**: there are no more cores than queues, and each
device that gets a pool has a row for it, and its first slot is cleaned. -/
theorem poolsAgree_iff (m : Machine) (conf : PlConf) (numQueues : ℕ) :
    PoolsAgree (portRun m conf numQueues)
      ↔ (TableReady m conf numQueues → cores conf ≤ numQueues
          ∧ ∀ i < m.ethDevs, m.Creates i → i < numPorts conf ∧ 1 ≤ cores conf) := by
  by_cases hready : TableReady m conf numQueues
  swap
  · exact iff_of_true (portRun_of_not_ready hready) fun h => absurd h hready
  rw [portRun_of_ready hready]
  have hpools := devices_pools (portRows_pools m conf numQueues) m.ethDevs
  generalize (each m.ethDevs (inputDpdkPortInit m conf)).effect
    ((portRows m conf numQueues).effect emptyTable) = l at hpools
  by_cases hcores : cores conf ≤ numQueues
  swap
  · -- the cleanup goes on behind the first row
    refine iff_of_false (fun h => ?_) fun h => hcores (h hready).1
    exact portClean_strays (not_le.mp hcores) hpools.table h.inside
  have hclean : portClean numQueues conf l = { l with released := l.held (portSlots conf) } := by
    rw [portClean_of_le hcores hpools.table]
    refine (forEach_freeSlot (Or.inl rfl)).trans ?_
    rw [hpools.released, List.nil_append]
  rw [hclean]
  constructor
  · rintro ⟨hinside, honce⟩ -
    refine ⟨hcores, fun i hi hc => ⟨hpools.strays.mp hinside i hi hc, ?_⟩⟩
    have hcount := honce i 0 ((hpools.acquired i 0).mpr ⟨rfl, hi, hc⟩)
    have hmem := mem_held.mp (List.count_pos_iff.mp (hcount ▸ Nat.one_pos))
    exact (mem_portSlots.mp hmem.1).2
  · intro h
    obtain ⟨-, hrow⟩ := h hready
    refine ⟨hpools.strays.mpr fun i hi hc => (hrow i hi hc).1, fun i j hacq => ?_⟩
    obtain ⟨rfl, hi, hc⟩ := (hpools.acquired i j).mp hacq
    obtain ⟨hport, hcore⟩ := hrow i hi hc
    exact List.count_eq_one_of_mem ((portSlots_nodup conf).filter _)
      (mem_held.mpr ⟨mem_portSlots.mpr ⟨hport, hcore⟩, hpools.written i hport hacq, hacq⟩)

/-- Two cores on the one queue of a port. -/
def twoCores : PlConf := { Parser.init.conf with num := fun _ => 2 }

theorem twoCores_not_agree :
    ¬ PoolsAgree (portRun (twoWorkers (fun _ => false) (fun _ => false)) twoCores
      nbQueuesPerPort) :=
  fun h => absurd h.inside (by decide)

end Meili.Runtime
