/-
  Meili.DataPlane.Progress — main and a worker never wait for each other.

  Both enqueue loops spin while their ring is full: main's on a head ring, a
  worker's on its tail ring.  Main serves the head rings in turn and drains the
  tail rings in turn (`batch_size_out` is at least the capacity of a ring), one
  drain at least for each slice it deals out.  So a ring pair never holds more
  than a full head ring, a batch and one slice: `load_le`.  With a head ring and
  its tail ring both full it would hold more.

  The slice main is dealing out counts as loaded from the start (`claimed`),
  which makes the steps of the enqueue loop invisible to the invariant.
-/
import Meili.DataPlane.Counters

namespace Meili.DataPlane

open Meili.Lib

variable {W : ℕ}

/-! ## §1. Bounds on the single places. -/

/-- No place holds more than the program gives it. -/
structure Bounds (cfg : Config) (s : State W) : Prop where
  mbufIn : s.main.mbufIn.length ≤ defaultEthBatchSize
  head : ∀ j, (s.head j).length ≤ cfg.ring.capacity
  batch : ∀ j, (s.worker j).batch.length ≤ cfg.burstSize
  tail : ∀ j, (s.tail j).length ≤ cfg.ring.capacity

theorem Bounds.init (W : ℕ) [NeZero W] (cfg : Config) : Bounds cfg (State.init W) :=
  ⟨Nat.zero_le _, fun _ => Nat.zero_le _, fun _ => Nat.zero_le _, fun _ => Nat.zero_le _⟩

section BoundsSteps

variable {cfg : Config} {s : State W}

theorem Bounds.receive (h : Bounds cfg s) {burst : List Mbuf}
    (hlen : burst.length ≤ defaultEthBatchSize) : Bounds cfg (s.receive burst) := by
  unfold State.receive
  split
  · split
    · exact ⟨h.mbufIn, h.head, h.batch, h.tail⟩
    · exact h
  · exact ⟨hlen, h.head, h.batch, h.tail⟩

theorem Bounds.inner (h : Bounds cfg s) : Bounds cfg (s.inner cfg) := by
  unfold State.inner
  split
  · exact ⟨h.mbufIn, h.head, h.batch, h.tail⟩
  · exact ⟨h.mbufIn, h.head, h.batch, h.tail⟩

theorem Bounds.enqueue (h : Bounds cfg s) {k : ℕ}
    (hk : s.main.totEnq < s.main.batchCntEnq →
      cfg.ring.enq s.main.toEnq (s.head s.main.ringInIndex).length k) :
    Bounds cfg (s.enqueue k) := by
  unfold State.enqueue
  split
  next hlt =>
    refine ⟨h.mbufIn, update_le List.length h.head ?_, h.batch, h.tail⟩
    have hroom := cfg.ring.enq_room (hk hlt) (h.head _)
    rw [List.length_append, List.length_take]
    omega
  next => exact ⟨h.mbufIn, h.head, h.batch, h.tail⟩

theorem Bounds.aggregate (h : Bounds cfg s) (k : ℕ) : Bounds cfg (s.aggregate k) := by
  refine ⟨h.mbufIn, h.head, h.batch, update_le List.length h.tail ?_⟩
  have htail := h.tail s.main.ringOutIndex
  rw [List.length_drop]
  omega

theorem Bounds.workerDequeue (h : Bounds cfg s) {j : Fin W} {k : ℕ}
    (hk : cfg.ring.deq cfg.burstSize (s.head j).length k) :
    Bounds cfg (s.workerDequeue j k) := by
  have hle := cfg.ring.deq_le hk
  have hhead := h.head j
  refine ⟨h.mbufIn, update_le List.length h.head ?_,
    update_le (fun w : Worker => w.batch.length) h.batch ?_, h.tail⟩
  · rw [List.length_drop]
    omega
  · show ((s.head j).take k).length ≤ cfg.burstSize
    rw [List.length_take]
    omega

theorem Bounds.workerExec (h : Bounds cfg s) (hflow : Flow s) {j : Fin W}
    (hpc : (s.worker j).pc = .exec) : Bounds cfg (s.workerExec j) := by
  obtain ⟨hle, hout, hnum⟩ := (hflow.worker j).exec hpc
  have hbatch := h.batch j
  rw [Worker.batch_exec hpc] at hbatch
  unfold State.workerExec
  dsimp only
  split
  · refine ⟨h.mbufIn, h.head, update_le (fun w : Worker => w.batch.length) h.batch ?_, h.tail⟩
    simp only [Worker.batch, hpc]
    exact hbatch
  · refine ⟨h.mbufIn, h.head, update_le (fun w : Worker => w.batch.length) h.batch ?_, h.tail⟩
    simp only [Worker.batch, List.drop_zero, hout, List.length_take]
    omega

theorem Bounds.workerEnqueue (h : Bounds cfg s) {j : Fin W} {k : ℕ}
    (hpc : (s.worker j).pc = .enqueue)
    (hk : 0 < (s.worker j).outNum →
      cfg.ring.enq (min (s.worker j).outNum cfg.burstSize) (s.tail j).length k) :
    Bounds cfg (s.workerEnqueue j k) := by
  have hbatch := h.batch j
  rw [Worker.batch_enqueue hpc, List.length_drop] at hbatch
  unfold State.workerEnqueue
  dsimp only
  split
  next hpos =>
    have hroom := cfg.ring.enq_room (hk hpos) (h.tail j)
    refine ⟨h.mbufIn, h.head, update_le (fun w : Worker => w.batch.length) h.batch ?_,
      update_le List.length h.tail ?_⟩
    · simp only [Worker.batch, hpc, List.length_drop]
      omega
    · rw [List.length_append, List.length_take]
      omega
  next =>
    refine ⟨h.mbufIn, h.head, update_le (fun w : Worker => w.batch.length) h.batch ?_, h.tail⟩
    simp only [Worker.batch]
    exact Nat.zero_le _

theorem Bounds.step {s' : State W} (h : Bounds cfg s) (hflow : Flow s) (hstep : Step cfg s s') :
    Bounds cfg s' := by
  cases hstep with
  | receive burst hpc hlen hnodup hfresh => exact h.receive hlen
  | inner hpc => exact h.inner
  | enqueue k hpc hk => exact h.enqueue hk
  | aggregate k hpc hk => exact h.aggregate k
  | workerDequeue j k hpc hk => exact h.workerDequeue hk
  | workerExec j hpc => exact h.workerExec hflow hpc
  | workerEnqueue j k hpc hk => exact h.workerEnqueue hpc hk

end BoundsSteps

theorem Reachable.bounds [NeZero W] {cfg : Config} {s : State W} (h : Reachable cfg s) :
    Bounds cfg s :=
  ReflTransGen.invariant_reachable (Bounds cfg) (Bounds.init W cfg)
    (fun _ _ hreach hx hs => hx.step (Reachable.flow hreach) hs) h

/-! ## §2. The turns of main. -/

/-- The load of ring pair `j`, the slice main is dealing out to it included. -/
def State.claimed (s : State W) (j : Fin W) : ℕ :=
  s.load j + if j = s.main.ringInIndex then s.main.offered else 0

/-- The head ring of the next slice. -/
def Main.nextIn (m : Main W) : Fin W :=
  match m.pc with
  | .enqueue => roundNext m.ringInIndex
  | _ => m.ringInIndex

/-- The loads are balanced between two slices, and a drain is owed from the start
of a slice to its end. -/
structure Served (cfg : Config) (s : State W) : Prop where
  balanced : s.main.pc ≠ .enqueue → s.main.pc ≠ .aggregate →
    Balanced defaultEthBatchSize (cfg.ring.capacity + cfg.burstSize) s.main.nextIn
      s.main.ringOutIndex s.claimed
  owed : Owed defaultEthBatchSize (cfg.ring.capacity + cfg.burstSize) s.main.nextIn
    s.main.ringOutIndex s.claimed

section Outside

variable {cfg : Config} {s : State W}

theorem Main.nextIn_eq {m : Main W} (hpc : m.pc ≠ .enqueue) : m.nextIn = m.ringInIndex := by
  unfold Main.nextIn
  split
  next henq => exact absurd henq hpc
  next => rfl

/-- Outside the enqueue loop nothing is claimed in advance. -/
theorem State.claimed_eq (hpc : s.main.pc ≠ .enqueue) : s.claimed = s.load := by
  funext j
  unfold State.claimed
  rw [Main.offered_eq_zero hpc, ite_self, Nat.add_zero]

theorem Served.of_balanced (hpc : s.main.pc ≠ .enqueue)
    (h : Balanced defaultEthBatchSize (cfg.ring.capacity + cfg.burstSize) s.main.ringInIndex
      s.main.ringOutIndex s.load) : Served cfg s := by
  rw [← Main.nextIn_eq hpc, ← State.claimed_eq hpc] at h
  exact ⟨fun _ _ => h, h.owed⟩

theorem Served.of_owed (hpc : s.main.pc = .aggregate)
    (h : Owed defaultEthBatchSize (cfg.ring.capacity + cfg.burstSize) s.main.ringInIndex
      s.main.ringOutIndex s.load) : Served cfg s := by
  have henq : s.main.pc ≠ .enqueue := by
    rw [hpc]
    decide
  rw [← Main.nextIn_eq henq, ← State.claimed_eq henq] at h
  exact ⟨fun _ hne => absurd hpc hne, h⟩

/-- Between two slices the loads themselves are balanced. -/
theorem Served.load_balanced (h : Served cfg s) (henq : s.main.pc ≠ .enqueue)
    (hagg : s.main.pc ≠ .aggregate) :
    Balanced defaultEthBatchSize (cfg.ring.capacity + cfg.burstSize) s.main.ringInIndex
      s.main.ringOutIndex s.load := by
  have hbal := h.balanced henq hagg
  rw [Main.nextIn_eq henq, State.claimed_eq henq] at hbal
  exact hbal

/-- At `aggregate_packets` a drain is owed to the loads themselves. -/
theorem Served.load_owed (h : Served cfg s) (henq : s.main.pc ≠ .enqueue) :
    Owed defaultEthBatchSize (cfg.ring.capacity + cfg.burstSize) s.main.ringInIndex
      s.main.ringOutIndex s.load := by
  have howed := h.owed
  rw [Main.nextIn_eq henq, State.claimed_eq henq] at howed
  exact howed

end Outside

/-! ## §3. Steps. -/

theorem Served.init (W : ℕ) [NeZero W] (cfg : Config) : Served cfg (State.init W) :=
  Served.of_balanced (by simp [State.init]) (balanced_zero _ _ _ _)

section ServedSteps

variable {cfg : Config} {s : State W}

theorem Served.receive (h : Served cfg s) (hpc : s.main.pc = .receive) (burst : List Mbuf) :
    Served cfg (s.receive burst) := by
  have hbal := h.load_balanced (by rw [hpc]; decide) (by rw [hpc]; decide)
  unfold State.receive
  split
  · split
    · -- an idle poll: a drain without a slice
      exact Served.of_owed rfl hbal.owed
    · exact h
  · exact Served.of_balanced (by simp) hbal

theorem Served.inner (h : Served cfg s) (hflow : Flow s) (hbounds : Bounds cfg s)
    (hpc : s.main.pc = .inner) : Served cfg (s.inner cfg) := by
  have hbal := h.load_balanced (by rw [hpc]; decide) (by rw [hpc]; decide)
  unfold State.inner
  split
  next hpos =>
    have hslice : min cfg.batchSizeIn s.main.batchCntWaitOnEnq.toNat ≤ defaultEthBatchSize := by
      have hsum := hflow.main.sum
      have hin := hbounds.mbufIn
      omega
    -- the slice is claimed for the next head ring at once
    refine ⟨fun hne _ => absurd rfl hne, ?_⟩
    refine hbal.fill ?_ ?_
    · show s.load _ + (if _ = s.main.ringInIndex then _ else 0) ≤ _
      rw [if_pos rfl]
      exact Nat.add_le_add_left hslice _
    · intro j hj
      show s.load j + (if j = s.main.ringInIndex then _ else 0) ≤ _
      rw [if_neg hj, Nat.add_zero]
  next => exact Served.of_balanced (by simp) hbal

theorem Served.enqueue (h : Served cfg s) (hflow : Flow s) (hpc : s.main.pc = .enqueue) {k : ℕ}
    (hk : s.main.totEnq < s.main.batchCntEnq → k ≤ s.main.toEnq) : Served cfg (s.enqueue k) := by
  obtain ⟨hle, heq⟩ := hflow.main.enqueue hpc
  have hoffered := Main.offered_enqueue hpc
  have hnext : s.main.nextIn = roundNext s.main.ringInIndex := by
    unfold Main.nextIn
    rw [hpc]
  have howed := h.owed
  rw [hnext] at howed
  unfold State.enqueue
  split
  next hlt =>
    have hk' := hk hlt
    refine ⟨fun hne _ => absurd hpc hne, ?_⟩
    dsimp only
    rw [show Main.nextIn _ = roundNext s.main.ringInIndex by simp only [Main.nextIn, hpc]]
    -- what is stored was claimed before
    intro j
    refine le_trans (Nat.add_le_add_right ?_ _) (howed j)
    show (Function.update s.head s.main.ringInIndex _ j).length + (s.worker j).batch.length
        + (s.tail j).length + (if j = s.main.ringInIndex then Main.offered _ else 0)
      ≤ s.load j + (if j = s.main.ringInIndex then s.main.offered else 0)
    by_cases hj : j = s.main.ringInIndex
    · subst hj
      rw [Function.update_self, if_pos rfl, if_pos rfl, hoffered, List.length_append,
        List.length_take]
      simp only [Main.offered, hpc, State.load]
      omega
    · rw [Function.update_of_ne hj, if_neg hj, if_neg hj]
      exact le_refl _
  next hge =>
    have hzero : s.main.toEnq = 0 := by omega
    have hclaimed : s.claimed = s.load := by
      funext j
      unfold State.claimed
      rw [hoffered, hzero, ite_self, Nat.add_zero]
    rw [hclaimed] at howed
    exact Served.of_owed rfl howed

theorem Served.aggregate (h : Served cfg s) (hbounds : Bounds cfg s)
    (hpc : s.main.pc = .aggregate) {k : ℕ}
    (hk : k = (s.tail s.main.ringOutIndex).length) : Served cfg (s.aggregate k) := by
  have howed := h.load_owed (by rw [hpc]; decide)
  have hpc' : (s.aggregate k).main.pc ≠ .enqueue :=
    Main.finish_pc_ne _ (by decide) (by decide)
  have hload : ∀ j, (s.aggregate k).load j
      = (s.head j).length + (s.worker j).batch.length
        + (Function.update s.tail s.main.ringOutIndex
            ((s.tail s.main.ringOutIndex).drop k) j).length := fun _ => rfl
  refine Served.of_balanced hpc' (howed.drain ?_ ?_)
  · -- drained: only a head ring and a batch are left
    have hhead := hbounds.head s.main.ringOutIndex
    have hbatch := hbounds.batch s.main.ringOutIndex
    rw [hload, Function.update_self, List.length_drop, hk]
    omega
  · intro j
    rw [hload]
    by_cases hj : j = s.main.ringOutIndex
    · subst hj
      rw [Function.update_self, List.length_drop]
      unfold State.load
      omega
    · rw [Function.update_of_ne hj]
      exact le_refl _

theorem Served.of_worker {s' : State W} (h : Served cfg s) (hsame : SameMain s s')
    (hflow : Flow s) (hflow' : Flow s') : Served cfg s' := by
  -- a worker moves packets within its own ring pair
  have hclaimed : s'.claimed = s.claimed := by
    funext j
    have hj := hflow.load_add j
    have hj' := hflow'.load_add j
    rw [hsame.collected, hsame.dispatched] at hj'
    unfold State.claimed
    rw [hsame.main]
    omega
  constructor
  · rw [hsame.main, hclaimed]
    exact h.balanced
  · rw [hsame.main, hclaimed]
    exact h.owed

/-- **Every step keeps the turns**, when main takes all of a tail ring at once. -/
theorem Served.step {s' : State W} (h : Served cfg s) (hflow : Flow s) (hbounds : Bounds cfg s)
    (hfull : ∀ {len k}, cfg.ring.deq maxPktsBurst len k → len ≤ cfg.ring.capacity → k = len)
    (hstep : Step cfg s s') : Served cfg s' := by
  have hflow' := hflow.step hstep
  cases hstep with
  | receive burst hpc hlen hnodup hfresh => exact h.receive hpc burst
  | inner hpc => exact h.inner hflow hbounds hpc
  | enqueue k hpc hk => exact h.enqueue hflow hpc fun hlt => cfg.ring.enq_le (hk hlt)
  | aggregate k hpc hk => exact h.aggregate hbounds hpc (hfull hk (hbounds.tail _))
  | workerDequeue j k hpc hk => exact h.of_worker (sameMain_workerDequeue s j k) hflow hflow'
  | workerExec j hpc => exact h.of_worker (sameMain_workerExec s j) hflow hflow'
  | workerEnqueue j k hpc hk => exact h.of_worker (sameMain_workerEnqueue s j k) hflow hflow'

end ServedSteps

/-! ## §4. Every interleaving. -/

theorem Reachable.served [NeZero W] {cfg : Config} {s : State W}
    (hfull : ∀ {len k}, cfg.ring.deq maxPktsBurst len k → len ≤ cfg.ring.capacity → k = len)
    (h : Reachable cfg s) : Served cfg s :=
  ReflTransGen.invariant_reachable (Served cfg) (Served.init W cfg)
    (fun _ _ hreach hx hs =>
      hx.step (Reachable.flow hreach) (Reachable.bounds hreach) hfull hs) h

/-- **A ring pair holds a full head ring, a batch and a slice at most.** -/
theorem Reachable.load_le [NeZero W] {cfg : Config} {s : State W}
    (hfull : ∀ {len k}, cfg.ring.deq maxPktsBurst len k → len ≤ cfg.ring.capacity → k = len)
    (h : Reachable cfg s) (j : Fin W) :
    s.load j ≤ cfg.ring.capacity + cfg.burstSize + defaultEthBatchSize :=
  (Nat.le_add_right _ _).trans ((Reachable.served hfull h).owed.le j)

/-- Main spins in its enqueue loop on head ring `j`, which is full. -/
def MainBlocked (s : State W) (j : Fin W) : Prop :=
  s.main.pc = .enqueue ∧ s.main.totEnq < s.main.batchCntEnq ∧ s.main.ringInIndex = j
    ∧ (s.head j).length = ringSize - 1

/-- Worker `j` spins in its enqueue loop on tail ring `j`, which is full. -/
def WorkerBlocked (s : State W) (j : Fin W) : Prop :=
  (s.worker j).pc = .enqueue ∧ 0 < (s.worker j).outNum ∧ (s.tail j).length = ringSize - 1

/-- **Main and a worker never block each other.** -/
theorem never_both_blocked [NeZero W] {cfg : Config} {s : State W}
    (hring : cfg.ring = atomicMin (ringSize - 1)) (hburst : cfg.burstSize ≤ defaultEthBatchSize)
    (h : Reachable cfg s) (j : Fin W) : ¬ (MainBlocked s j ∧ WorkerBlocked s j) := by
  intro h
  obtain ⟨⟨-, -, -, hhead⟩, -, -, htail⟩ := h
  -- `batch_size_out` exceeds the capacity, so a tail ring is drained at once
  have hfull : ∀ {len k}, cfg.ring.deq maxPktsBurst len k → len ≤ cfg.ring.capacity → k = len := by
    intro len k hdeq hlen
    rw [hring] at hdeq hlen
    have hk : k = min maxPktsBurst len := hdeq
    have hcap : len ≤ ringSize - 1 := hlen
    simp only [maxPktsBurst, ringSize] at hk hcap
    omega
  -- two full rings hold more than that
  have hle := Reachable.load_le hfull h j
  have hcap : cfg.ring.capacity = ringSize - 1 := by
    rw [hring]
    rfl
  rw [hcap] at hle
  unfold State.load at hle
  simp only [ringSize, defaultEthBatchSize] at *
  omega

/-- Slices and bursts of up to 64, on rings that store and give what they can. -/
def fullBursts : Config where
  batchSizeIn := 64
  burstSize := 64
  ring := atomicMin (ringSize - 1)

/-- Worker 0 is about to enqueue what it has processed, main polls for more. -/
def oneSlice (W : ℕ) [NeZero W] : State W :=
  State.init W |>.receive [7] |>.inner fullBursts |>.enqueue 1 |>.enqueue 0
    |>.workerDequeue 0 1 |>.workerExec 0 |>.workerExec 0 |>.aggregate 0 |>.inner fullBursts
    |>.receive [8] |>.inner fullBursts

theorem oneSlice_reachable : Reachable fullBursts (oneSlice 2) :=
  Reachable.init 2 fullBursts
    |>.step (.receive _ [7] rfl (by decide) (by decide) (by decide))
    |>.step (.inner _ rfl)
    |>.step (.enqueue _ 1 rfl fun _ => rfl)
    |>.step (.enqueue _ 0 rfl fun h => absurd h (by decide))
    |>.step (.workerDequeue _ 0 1 rfl rfl)
    |>.step (.workerExec _ 0 rfl)
    |>.step (.workerExec _ 0 rfl)
    |>.step (.aggregate _ 0 rfl rfl)
    |>.step (.inner _ rfl)
    |>.step (.receive _ [8] rfl (by decide) (by decide) (by decide))
    |>.step (.inner _ rfl)

/-- Both are in their enqueue loops, and neither is blocked by the other. -/
theorem oneSlice_never_blocked :
    (oneSlice 2).main.pc = .enqueue ∧ ((oneSlice 2).worker 0).pc = .enqueue
      ∧ ∀ j, ¬ (MainBlocked (oneSlice 2) j ∧ WorkerBlocked (oneSlice 2) j) :=
  ⟨rfl, rfl, never_both_blocked rfl (by decide) oneSlice_reachable⟩

end Meili.DataPlane
