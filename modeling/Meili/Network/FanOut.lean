/-
  Meili.Network.FanOut — no deadlock where only the last stage has several instances.

  When all stages but the last have one instance, every tail ring has one way to it, a lane.  What
  is on the lane of a tail ring has come from main, a slice at a time, and main comes back to the
  ring after `nb_last_stage` slices and takes all that is there.  So a lane never holds much more
  than its rings without the tail ring (`LaneBound`), while a deadlock would need all of them full.

    • `fanOut_settles` — no reachable state is deadlocked, so from every reachable state a run
      without a receive frees everything.
-/
import Meili.DataPlane.Progress
import Meili.Network.Settling

namespace Meili.Network

open Meili.Lib Meili.DataPlane Meili.Runtime

/-! ## §1. Lanes. -/

/-- All stages but the last have one instance. -/
def Pipeline.FansOut (pl : Pipeline) : Prop :=
  ∀ i, i + 1 < pl.nbPlStages → pl.nbInstPerPlStage i = 1

/-- The instance of stage `i` on the way to tail ring `q`. -/
def laneInst (n q i : ℕ) : ℕ := if i + 1 = n then q else 0

/-- The ring behind `d` stages on the way to tail ring `q`. -/
def laneSite (n q : ℕ) : ℕ → Site
  | 0 => if n = 0 then .sole else .head (laneInst n q 0)
  | d + 1 => if d + 1 = n then .tail q else .inter d (laneInst n q d) (laneInst n q (d + 1))

def Pipeline.laneRing (pl : Pipeline) (q d : ℕ) : RingId :=
  (sites pl.nbPlStages pl.nbInstPerPlStage).idxOf (laneSite pl.nbPlStages q d)

/-- The lane of tail ring `q`: the places behind main from which a packet can come to it. -/
def Pipeline.lane (pl : Pipeline) (q : ℕ) : Finset Place :=
  (Finset.range (pl.nbPlStages + 1)).image (fun d => Place.ring (pl.laneRing q d))
    ∪ ((Finset.range pl.nbPlStages).image (fun i => Place.todo i (laneInst pl.nbPlStages q i))
      ∪ (Finset.range pl.nbPlStages).image fun i => Place.done i (laneInst pl.nbPlStages q i))

section Lanes

variable {fails : ℕ → Bool} {pl : Pipeline} {n q : ℕ}

theorem laneInst_lt (hpl : pl.Started fails) (hq : q < pl.nbLastStage) {i : ℕ}
    (hi : i < pl.nbPlStages) : laneInst pl.nbPlStages q i < pl.nbInstPerPlStage i := by
  unfold laneInst
  split
  next heq =>
    have hlast : pl.nbLastStage = pl.nbInstPerPlStage (pl.nbPlStages - 1) := if_pos (by omega)
    rw [hlast, show pl.nbPlStages - 1 = i by omega] at hq
    exact hq
  next => exact hpl.staffed i hi

theorem laneSite_sole (hn : n = 0) : laneSite n q 0 = .sole := if_pos hn

theorem laneSite_head (hn : n ≠ 0) : laneSite n q 0 = .head (laneInst n q 0) := if_neg hn

theorem laneSite_tail {d : ℕ} (hd : d + 1 = n) : laneSite n q (d + 1) = .tail q := if_pos hd

theorem laneSite_inter {d : ℕ} (hd : d + 1 ≠ n) :
    laneSite n q (d + 1) = .inter d (laneInst n q d) (laneInst n q (d + 1)) := if_neg hd

theorem laneSite_mem (hpl : pl.Started fails) (hq : q < pl.nbLastStage) {d : ℕ}
    (hd : d ≤ pl.nbPlStages) :
    laneSite pl.nbPlStages q d ∈ sites pl.nbPlStages pl.nbInstPerPlStage := by
  refine mem_sites.mpr ?_
  cases d with
  | zero =>
      by_cases hn : pl.nbPlStages = 0
      · rw [laneSite_sole hn]
        exact hn
      · rw [laneSite_head hn]
        exact ⟨by omega, laneInst_lt hpl hq (by omega)⟩
  | succ d =>
      by_cases hlast : d + 1 = pl.nbPlStages
      · have hnb : pl.nbLastStage = pl.nbInstPerPlStage (pl.nbPlStages - 1) := if_pos (by omega)
        rw [laneSite_tail hlast]
        exact ⟨by omega, hnb ▸ hq⟩
      · rw [laneSite_inter hlast]
        exact ⟨by omega, laneInst_lt hpl hq (by omega), laneInst_lt hpl hq (by omega)⟩

theorem laneSite_producer_zero : (laneSite n q 0).producer n = .main := by
  by_cases hn : n = 0
  · rw [laneSite_sole hn]
    rfl
  · rw [laneSite_head hn]
    rfl

theorem laneSite_producer_succ (d : ℕ) :
    (laneSite n q (d + 1)).producer n = .inst d (laneInst n q d) := by
  by_cases hlast : d + 1 = n
  · rw [laneSite_tail hlast, laneInst, if_pos hlast, ← hlast]
    rfl
  · rw [laneSite_inter hlast]
    rfl

theorem laneSite_depth {d : ℕ} (hd : d ≤ n) : siteDepth n (laneSite n q d) = d := by
  cases d with
  | zero =>
      by_cases hn : n = 0
      · rw [laneSite_sole hn]
        rfl
      · rw [laneSite_head hn]
        rfl
  | succ d =>
      by_cases hlast : d + 1 = n
      · rw [laneSite_tail hlast]
        exact hlast.symm
      · rw [laneSite_inter hlast]
        rfl

theorem Pipeline.Started.laneRing_inj (hpl : pl.Started fails) (hq : q < pl.nbLastStage)
    {d d' : ℕ} (hd : d ≤ pl.nbPlStages) (hd' : d' ≤ pl.nbPlStages)
    (heq : pl.laneRing q d = pl.laneRing q d') : d = d' := by
  have hsite := (List.idxOf_inj (laneSite_mem hpl hq hd)).mp heq
  have hdepth := congrArg (siteDepth pl.nbPlStages) hsite
  rwa [laneSite_depth hd, laneSite_depth hd'] at hdepth

/-- Where only the last stage has several instances, a ring is on the lane of its consumer. -/
theorem eq_laneSite (hfan : pl.FansOut) {x : Site}
    (hx : x ∈ sites pl.nbPlStages pl.nbInstPerPlStage) {i : ℕ} (hi : i < pl.nbPlStages)
    (hconsumer : x.consumer = .inst i (laneInst pl.nbPlStages q i)) :
    x = laneSite pl.nbPlStages q i := by
  have hx := mem_sites.mp hx
  cases x with
  | sole => cases hconsumer
  | tail j => cases hconsumer
  | head j =>
      cases hconsumer
      exact (laneSite_head (by omega)).symm
  | inter a b c =>
      cases hconsumer
      -- the producer is the only instance of its stage
      have hb : b < 1 := by
        rw [← hfan a hx.1]
        exact hx.2.1
      have hzero : laneInst pl.nbPlStages q a = 0 := if_neg (by omega)
      rw [laneSite_inter (by omega), hzero, Nat.lt_one_iff.mp hb]

theorem mem_lane_ring {r : RingId} :
    Place.ring r ∈ pl.lane q ↔ ∃ d ≤ pl.nbPlStages, pl.laneRing q d = r := by
  have hrings : Place.ring r ∈ pl.lane q
      ↔ ∃ d, d ∈ Finset.range (pl.nbPlStages + 1) ∧ pl.laneRing q d = r := by
    simp [Pipeline.lane]
  simp only [hrings, Finset.mem_range, Nat.lt_succ_iff]

theorem mem_lane_todo {i j : ℕ} :
    Place.todo i j ∈ pl.lane q ↔ i < pl.nbPlStages ∧ laneInst pl.nbPlStages q i = j := by
  simp [Pipeline.lane]

theorem mem_lane_done {i j : ℕ} :
    Place.done i j ∈ pl.lane q ↔ i < pl.nbPlStages ∧ laneInst pl.nbPlStages q i = j := by
  simp [Pipeline.lane]

theorem pending_not_mem_lane : Place.pending ∉ pl.lane q := by
  simp [Pipeline.lane]

theorem freed_not_mem_lane : Place.freed ∉ pl.lane q := by
  simp [Pipeline.lane]

/-- **Only main puts packets on a lane.** -/
theorem Edge.mem_lane (hpl : pl.Started fails) (hfan : pl.FansOut) {a b : Place}
    (hedge : Edge pl a b) (ha : a ≠ .pending) (hb : b ∈ pl.lane q) : a ∈ pl.lane q := by
  cases hedge with
  | enqueue _ => exact absurd rfl ha
  | workerDequeue _ hslot =>
      obtain ⟨hi, rfl⟩ := mem_lane_todo.mp hb
      obtain ⟨x, hx, hconsumer, rfl⟩ := hpl.mem_inSlots.mp hslot
      refine mem_lane_ring.mpr ⟨_, hi.le, ?_⟩
      unfold Pipeline.laneRing
      rw [eq_laneSite hfan hx hi hconsumer]
  | workerExec _ => exact mem_lane_todo.mpr (mem_lane_done.mp hb)
  | @workerEnqueue i j r hruns hslot =>
      obtain ⟨d, hd, hr⟩ := mem_lane_ring.mp hb
      obtain ⟨x, hx, hproducer, hxr⟩ := hpl.mem_outSlots.mp hslot
      rw [(List.idxOf_inj hx).mp (hxr.trans hr.symm)] at hproducer
      cases d with
      | zero =>
          rw [laneSite_producer_zero] at hproducer
          cases hproducer
      | succ d =>
          rw [laneSite_producer_succ] at hproducer
          cases hproducer
          exact mem_lane_done.mpr ⟨hd, rfl⟩
  | aggregate _ => exact absurd hb freed_not_mem_lane

end Lanes

/-! ## §2. How much a lane holds. -/

section Load

variable {fails : ℕ → Bool} {cfg : Config} {pl : Pipeline} {s s' : State} {q : ℕ}

/-- The places of a lane, one after the other. -/
theorem load_lane (hpl : pl.Started fails) (hq : q < pl.nbLastStage)
    (contents : Place → List Mbuf) :
    Places.load (pl.lane q) contents
      = ∑ d ∈ Finset.range (pl.nbPlStages + 1), (contents (.ring (pl.laneRing q d))).length
        + (∑ i ∈ Finset.range pl.nbPlStages,
              (contents (.todo i (laneInst pl.nbPlStages q i))).length
          + ∑ i ∈ Finset.range pl.nbPlStages,
              (contents (.done i (laneInst pl.nbPlStages q i))).length) := by
  unfold Places.load Pipeline.lane
  rw [Finset.sum_union, Finset.sum_union, Finset.sum_image, Finset.sum_image, Finset.sum_image]
  · intro i _ i' _ heq
    exact (Place.done.inj heq).1
  · intro i _ i' _ heq
    exact (Place.todo.inj heq).1
  · intro d hd d' hd' heq
    have hd : d < pl.nbPlStages + 1 := Finset.mem_range.mp hd
    have hd' : d' < pl.nbPlStages + 1 := Finset.mem_range.mp hd'
    exact hpl.laneRing_inj hq (by omega) (by omega) (Place.ring.inj heq)
  · refine Finset.disjoint_left.mpr fun x hx hx' => ?_
    obtain ⟨i, -, rfl⟩ := Finset.mem_image.mp hx
    simp at hx'
  · refine Finset.disjoint_left.mpr fun x hx hx' => ?_
    obtain ⟨d, -, rfl⟩ := Finset.mem_image.mp hx
    simp at hx'

/-- What an instance holds is a batch. -/
theorem Bounds.todo_add_done (h : Bounds cfg s) (i j : ℕ) :
    (s.contents (.todo i j)).length + (s.contents (.done i j)).length ≤ cfg.burstSize := by
  have hbatch := h.batch i j
  show (todo (s.stages i j).toWorker).length + (s.stages i j).processed.length ≤ _
  cases hpc : (s.stages i j).pc with
  | dequeue =>
      rw [todo_eq_nil (by rw [hpc]; decide), Worker.processed_dequeue hpc]
      exact Nat.zero_le _
  | exec =>
      rw [Worker.batch_exec hpc] at hbatch
      rw [todo_exec hpc, Worker.processed_exec hpc, List.length_drop, List.length_take]
      omega
  | enqueue =>
      rw [Worker.batch_enqueue hpc] at hbatch
      rw [todo_eq_nil (by rw [hpc]; decide), Worker.processed_enqueue hpc, List.length_nil]
      omega

/-- A lane holds at most a ring and a batch for each stage, behind a visit of main. -/
theorem Bounds.load_lane_le (h : Bounds cfg s) (hpl : pl.Started fails) (hq : q < pl.nbLastStage)
    (hempty : s.ring (pl.laneRing q pl.nbPlStages) = []) :
    Places.load (pl.lane q) s.contents
      ≤ pl.nbPlStages * (cfg.ring.capacity + cfg.burstSize) := by
  rw [load_lane hpl hq, Finset.sum_range_succ, ← Finset.sum_add_distrib]
  have hrings : ∑ d ∈ Finset.range pl.nbPlStages, (s.ring (pl.laneRing q d)).length
      ≤ pl.nbPlStages * cfg.ring.capacity := by
    have hle := Finset.sum_le_card_nsmul (Finset.range pl.nbPlStages)
      (fun d => (s.ring (pl.laneRing q d)).length) cfg.ring.capacity fun d _ => h.ring _
    rwa [Finset.card_range] at hle
  have hbatches : ∑ i ∈ Finset.range pl.nbPlStages,
      ((s.contents (.todo i (laneInst pl.nbPlStages q i))).length
        + (s.contents (.done i (laneInst pl.nbPlStages q i))).length)
      ≤ pl.nbPlStages * cfg.burstSize := by
    have hle := Finset.sum_le_card_nsmul (Finset.range pl.nbPlStages) _ cfg.burstSize
      fun i _ => h.todo_add_done i (laneInst pl.nbPlStages q i)
    rwa [Finset.card_range] at hle
  have htail : (s.contents (.ring (pl.laneRing q pl.nbPlStages))).length = 0 :=
    congrArg List.length hempty
  rw [Nat.mul_add, htail]
  exact Nat.add_le_add hrings hbatches

/-- In a lane whose rings are all full there is a ring more. -/
theorem le_load_lane (hpl : pl.Started fails) (hq : q < pl.nbLastStage)
    (hfull : ∀ d ≤ pl.nbPlStages, cfg.ring.capacity ≤ (s.ring (pl.laneRing q d)).length) :
    (pl.nbPlStages + 1) * cfg.ring.capacity ≤ Places.load (pl.lane q) s.contents := by
  rw [load_lane hpl hq]
  have hle := Finset.card_nsmul_le_sum (Finset.range (pl.nbPlStages + 1))
    (fun d => (s.ring (pl.laneRing q d)).length) cfg.ring.capacity
    fun d hd => hfull d (Nat.lt_succ_iff.mp (Finset.mem_range.mp hd))
  rw [Finset.card_range] at hle
  exact hle.trans (Nat.le_add_right _ _)

/-- A step of an instance adds nothing to a lane. -/
theorem Moves.load_lane_le (hpl : pl.Started fails) (hfan : pl.FansOut) {a b : Place} {k : ℕ}
    (hmoves : Moves s s' a b k) (hab : a ≠ b) (hedge : Edge pl a b) (ha : a ≠ .pending) :
    Places.load (pl.lane q) s'.contents ≤ Places.load (pl.lane q) s.contents :=
  Places.load_move_le hab (hedge.mem_lane hpl hfan ha) hmoves.source hmoves.target hmoves.other

end Load

/-! ## §3. Main comes back to a tail ring. -/

/-- How many slices main has dealt out since it has polled tail ring `q`, when the next one that
it polls is `o`. -/
def since (nb o q : ℕ) : ℕ := if q < o then o - q - 1 else o + nb - q - 1

/-- What main is about to do, or has done, with the slice at hand. -/
def current (m : Main nbMaxRing) : ℕ :=
  match m.pc with
  | .enqueue | .aggregate => 1
  | _ => 0

/-- A lane holds at most what it held behind the last poll of its tail ring, and the slices since
then. -/
def LaneBound (cfg : Config) (pl : Pipeline) (q : ℕ) (s : State) : Prop :=
  Places.load (pl.lane q) s.contents + s.main.offered
    ≤ pl.nbPlStages * (cfg.ring.capacity + cfg.burstSize)
      + defaultEthBatchSize
        * (since pl.nbLastStage s.main.ringOutIndex q + current s.main)

/-- The rings and the sizes under which a whole tail ring is taken at once, and the slices of a
round and the batches of a lane fit into one ring. -/
structure Draining (cfg : Config) (pl : Pipeline) : Prop extends Moving cfg where
  drains : ∀ {len k}, len ≤ cfg.ring.capacity → cfg.ring.deq maxPktsBurst len k → k = len
  small : pl.nbPlStages * cfg.burstSize + defaultEthBatchSize * pl.nbLastStage
    < cfg.ring.capacity

section Bound

variable {fails : ℕ → Bool} {cfg : Config} {pl : Pipeline} {s s' : State} {q : ℕ}

theorem since_lt {nb o : ℕ} (ho : o < nb) (hq : q < nb) : since nb o q < nb := by
  unfold since
  split
  · omega
  · omega

theorem since_succ {nb o : ℕ} (ho : o < nb) (hq : q < nb) (hne : q ≠ o) :
    since nb ((o + 1) % nb) q = since nb o q + 1 := by
  unfold since
  by_cases hlast : o + 1 = nb
  · rw [hlast, Nat.mod_self, if_neg (by omega), if_pos (by omega)]
    omega
  · rw [Nat.mod_eq_of_lt (by omega)]
    split
    · rw [if_pos (by omega)]
      omega
    · rw [if_neg (by omega)]
      omega

/-- Nothing is on a lane in the beginning. -/
theorem LaneBound.init : LaneBound cfg pl q .init := by
  have hload : Places.load (pl.lane q) State.init.contents = 0 := by
    refine Finset.sum_eq_zero fun x _ => ?_
    cases x <;> rfl
  unfold LaneBound
  rw [hload]
  exact Nat.zero_le _

/-- Main's counters stay, and the lane holds no more. -/
theorem LaneBound.of_le (h : LaneBound cfg pl q s) (hmain : s'.main = s.main)
    (hload : Places.load (pl.lane q) s'.contents ≤ Places.load (pl.lane q) s.contents) :
    LaneBound cfg pl q s' := by
  unfold LaneBound at h ⊢
  rw [hmain]
  omega

/-- A local step of main: what it offers from now on is paid for by a slice. -/
theorem LaneBound.of_main (h : LaneBound cfg pl q s) (hring : s'.ring = s.ring)
    (hstages : s'.stages = s.stages) (hindex : s'.main.ringOutIndex = s.main.ringOutIndex)
    (hpaid : s'.main.offered + defaultEthBatchSize * current s.main
      ≤ s.main.offered + defaultEthBatchSize * current s'.main) : LaneBound cfg pl q s' := by
  have hload : Places.load (pl.lane q) s'.contents = Places.load (pl.lane q) s.contents := by
    refine Finset.sum_congr rfl fun x hx => ?_
    cases x with
    | pending => exact absurd hx pending_not_mem_lane
    | ring r => exact congrArg List.length (congrFun hring r)
    | todo i j =>
        show (todo (s'.stages i j).toWorker).length = _
        rw [hstages]
        rfl
    | done i j =>
        show (s'.stages i j).processed.length = _
        rw [hstages]
        rfl
    | freed => exact absurd hx freed_not_mem_lane
  unfold LaneBound at h ⊢
  rw [hload, hindex]
  rw [Nat.mul_add defaultEthBatchSize] at h ⊢
  omega

theorem current_eq_zero {m : Main nbMaxRing} (hpc : m.pc = .receive ∨ m.pc = .inner) :
    current m = 0 := by
  unfold current
  rcases hpc with hpc | hpc
  · rw [hpc]
  · rw [hpc]

theorem current_eq_one {m : Main nbMaxRing} (hpc : m.pc = .enqueue ∨ m.pc = .aggregate) :
    current m = 1 := by
  unfold current
  rcases hpc with hpc | hpc
  · rw [hpc]
  · rw [hpc]

theorem LaneBound.receive (h : LaneBound cfg pl q s) (hpc : s.main.pc = .receive)
    (burst : List Mbuf) : LaneBound cfg pl q (s.receive burst) := by
  have hcurrent := current_eq_zero (Or.inl hpc)
  unfold State.receive
  split
  · split
    · refine h.of_main rfl rfl rfl ?_
      rw [Main.offered_eq_zero (by simp), hcurrent]
      exact Nat.zero_le _
    · exact h
  · refine h.of_main rfl rfl rfl ?_
    rw [Main.offered_eq_zero (by simp), hcurrent]
    exact Nat.zero_le _

theorem LaneBound.inner (h : LaneBound cfg pl q s) (hbounds : Bounds cfg (s.inner cfg))
    (hpc : s.main.pc = .inner) : LaneBound cfg pl q (s.inner cfg) := by
  have hcurrent := current_eq_zero (Or.inr hpc)
  have hslice := hbounds.slice
  unfold State.inner at hslice ⊢
  split
  next hpos =>
    rw [if_pos hpos] at hslice
    refine h.of_main rfl rfl rfl ?_
    rw [hcurrent, current_eq_one (Or.inl rfl), Main.offered_enqueue rfl]
    show min cfg.batchSizeIn s.main.batchCntWaitOnEnq.toNat + defaultEthBatchSize * 0 ≤ _
    have hslice : min cfg.batchSizeIn s.main.batchCntWaitOnEnq.toNat ≤ defaultEthBatchSize := hslice
    omega
  next =>
    refine h.of_main rfl rfl rfl ?_
    rw [Main.offered_eq_zero (by simp), hcurrent]
    exact Nat.zero_le _

theorem LaneBound.enqueue (h : LaneBound cfg pl q s) (hpc : s.main.pc = .enqueue) {r : RingId}
    {k : ℕ} (hk : s.main.totEnq < s.main.batchCntEnq → k ≤ s.main.toEnq) :
    LaneBound cfg pl q (s.enqueue pl.nbFirstStage r k) := by
  by_cases hlt : s.main.totEnq < s.main.batchCntEnq
  · -- what comes in is offered no more
    have hmoves : Moves s (s.enqueue pl.nbFirstStage r k) .pending (.ring r) k :=
      moves_enqueue hpc hlt r k
    have hload : Places.load (pl.lane q) (s.enqueue pl.nbFirstStage r k).contents
        ≤ Places.load (pl.lane q) s.contents + k := by
      refine Places.load_le_add (b := .ring r) ?_ fun x hx => ?_
      · rw [hmoves.target, List.length_append, List.length_take]
        omega
      · by_cases hpending : x = .pending
        · rw [hpending, hmoves.source, List.length_drop]
          omega
        · rw [hmoves.other x hpending hx]
    have hk := hk hlt
    unfold LaneBound at h ⊢
    rw [Main.offered_enqueue hpc] at h
    unfold State.enqueue at hload ⊢
    rw [if_pos hlt] at hload ⊢
    rw [Main.offered_enqueue (by exact hpc)]
    show _ + (s.main.toEnq - k) ≤ _ + _ * (since _ s.main.ringOutIndex q + _)
    rw [current_eq_one (Or.inl hpc)] at h
    rw [current_eq_one (Or.inl (by exact hpc))]
    omega
  · unfold State.enqueue
    rw [if_neg hlt]
    refine h.of_main rfl rfl rfl ?_
    rw [Main.offered_eq_zero (by simp), current_eq_one (Or.inl hpc), current_eq_one (Or.inr rfl)]
    omega

/-- The slot of the ring at the end of a lane. -/
theorem Pipeline.Started.ringOut_eq (hpl : pl.Started fails) (hq : q < pl.nbLastStage) :
    pl.topology.ringOut q = some (pl.laneRing q pl.nbPlStages) := by
  have hmem := laneSite_mem hpl hq (le_refl pl.nbPlStages)
  have hring := hpl.everyCreated.ringOf hmem
  refine Eq.trans ?_ hring
  by_cases hn : pl.nbPlStages = 0
  · have hlast : pl.nbLastStage = 1 := if_neg (not_not.mpr hn)
    obtain rfl : q = 0 := by omega
    have hsite : laneSite pl.nbPlStages 0 pl.nbPlStages = .sole := by
      conv_lhs => rw [hn]
      exact laneSite_sole rfl
    rw [hsite] at hmem ⊢
    exact (hpl.connected.sole hmem).2
  · have hsite : laneSite pl.nbPlStages q pl.nbPlStages = .tail q := by
      obtain ⟨n, hn⟩ := Nat.exists_eq_succ_of_ne_zero hn
      rw [hn]
      exact laneSite_tail rfl
    rw [hsite] at hmem ⊢
    exact hpl.connected.tail q hmem

theorem LaneBound.aggregate (h : LaneBound cfg pl q s) (hpl : pl.Started fails)
    (hcfg : Draining cfg pl) (hq : q < pl.nbLastStage) (hsane : Sane pl s)
    (hbounds : Bounds cfg s) (hpc : s.main.pc = .aggregate) {r : RingId} {k : ℕ}
    (hslot : pl.topology.ringOut s.main.ringOutIndex = some r)
    (hk : cfg.ring.deq maxPktsBurst (s.ring r).length k) :
    LaneBound cfg pl q (s.aggregate pl.nbLastStage r k) := by
  have hmoves : Moves s (s.aggregate pl.nbLastStage r k) (.ring r) .freed k :=
    moves_aggregate hpc r k
  have hoffered : (s.aggregate pl.nbLastStage r k).main.offered = 0 := Main.finish_offered _
  unfold LaneBound at h ⊢
  rw [hoffered, Nat.add_zero]
  by_cases heq : q = s.main.ringOutIndex
  · -- the whole tail ring is taken
    rw [← heq, hpl.ringOut_eq hq] at hslot
    obtain rfl := Option.some.inj hslot
    have hempty : (s.aggregate pl.nbLastStage (pl.laneRing q pl.nbPlStages) k).ring
        (pl.laneRing q pl.nbPlStages) = [] := by
      refine hmoves.source.trans ?_
      rw [hcfg.drains (hbounds.ring _) hk]
      exact List.drop_length
    exact ((hbounds.aggregate hpc hk).load_lane_le hpl hq hempty).trans (Nat.le_add_right _ _)
  · have hload : Places.load (pl.lane q) (s.aggregate pl.nbLastStage r k).contents
        ≤ Places.load (pl.lane q) s.contents :=
      Places.load_move_le (by simp) (fun hb => absurd hb freed_not_mem_lane) hmoves.source
        hmoves.target hmoves.other
    have hindex : ((s.aggregate pl.nbLastStage r k).main.ringOutIndex : ℕ)
        = (s.main.ringOutIndex + 1) % pl.nbLastStage :=
      nextRing_val hpl.ringed.last.1 hpl.ringed.last.2 _
    rw [current_eq_one (Or.inr hpc)] at h
    rw [hindex, since_succ hsane.ringOut hq heq, Nat.mul_add defaultEthBatchSize]
    omega

/-- **Every step keeps the bound of a lane.** -/
theorem LaneBound.step (h : LaneBound cfg pl q s) (hpl : pl.Started fails) (hfan : pl.FansOut)
    (hcfg : Draining cfg pl) (hq : q < pl.nbLastStage) (hsane : Sane pl s)
    (hbounds : Bounds cfg s) (hstep : Step cfg pl s s') : LaneBound cfg pl q s' := by
  have hbounds' := hbounds.step hsane hstep
  cases hstep with
  | receive burst hpc _ _ _ => exact h.receive hpc burst
  | inner hpc => exact h.inner hbounds' hpc
  | enqueue r k hpc hk => exact h.enqueue hpc fun hlt => cfg.ring.enq_le (hk hlt).2
  | aggregate r k hpc hslot hk => exact h.aggregate hpl hcfg hq hsane hbounds hpc hslot hk
  | workerDequeue i j r k hruns hpc hslot _ =>
      exact h.of_le rfl ((moves_workerDequeue hpc r k).load_lane_le hpl hfan (by simp)
        (.workerDequeue hruns (mem_inSlots hsane hruns hslot)) (by simp))
  | workerExec i j hruns hpc =>
      cases hget : (s.stages i j).mbufsIn[(s.stages i j).i]? with
      | some mbuf =>
          refine h.of_le ?_ ((moves_workerExec hpc hget).load_lane_le hpl hfan (by simp)
            (.workerExec hruns) (by simp))
          rw [workerExec_some hget]
          rfl
      | none =>
          refine h.of_le ?_ ?_
          · rw [workerExec_none hget]
            rfl
          · rw [contents_workerExec hsane hpc hget]
  | workerEnqueue i j r k hruns hpc hk =>
      have hmain : (s.workerEnqueue (pl.nbRingOut i j) i j r k).main = s.main := by
        unfold State.workerEnqueue
        dsimp only
        split
        · rfl
        · rfl
      by_cases hpos : 0 < (s.stages i j).outNum
      · exact h.of_le hmain ((moves_workerEnqueue hpc hpos r k).load_lane_le hpl hfan (by simp)
          (.workerEnqueue hruns (mem_outSlots hsane hruns (hk hpos).1)) (by simp))
      · refine h.of_le hmain ?_
        rw [contents_workerEnqueue hsane hpc hpos r k]

theorem Reachable.laneBound (hreach : Reachable cfg pl s) (hpl : pl.Started fails)
    (hfan : pl.FansOut) (hcfg : Draining cfg pl) (hq : q < pl.nbLastStage) :
    LaneBound cfg pl q s :=
  ReflTransGen.invariant_reachable (LaneBound cfg pl q) LaneBound.init
    (fun _ _ hx hinv hstep => hinv.step hpl hfan hcfg hq (Reachable.sane hpl.ringed hx)
      (Reachable.bounds hpl.ringed hx) hstep) hreach

end Bound

/-! ## §4. No deadlock. -/

section FanOut

variable {fails : ℕ → Bool} {cfg : Config} {pl : Pipeline} {s : State}

/-- A ring that main takes from is at the end of a lane. -/
theorem exists_laneSite {x : Site} (hx : x ∈ sites pl.nbPlStages pl.nbInstPerPlStage)
    (hconsumer : x.consumer = .main) :
    ∃ q < pl.nbLastStage, x = laneSite pl.nbPlStages q pl.nbPlStages := by
  have hx := mem_sites.mp hx
  cases x with
  | sole =>
      have hn : pl.nbPlStages = 0 := hx
      have hlast : pl.nbLastStage = 1 := if_neg (not_not.mpr hn)
      refine ⟨0, by omega, ?_⟩
      rw [hn]
      exact (laneSite_sole rfl).symm
  | tail j =>
      obtain ⟨hn, hj⟩ := hx
      have hlast : pl.nbLastStage = pl.nbInstPerPlStage (pl.nbPlStages - 1) := if_pos (by omega)
      refine ⟨j, hlast ▸ hj, ?_⟩
      obtain ⟨n, hn⟩ := Nat.exists_eq_succ_of_ne_zero hn.ne'
      rw [hn]
      exact (laneSite_tail rfl).symm
  | head j => cases hconsumer
  | inter a b c => cases hconsumer

/-- **A clogged ring clogs its lane**: behind it, all rings to one tail ring are full. -/
theorem Clogged.lane (hpl : pl.Started fails) (hfan : pl.FansOut) (hreach : Reachable cfg pl s)
    {r : RingId} (h : Clogged cfg pl s r) {x : Site}
    (hx : x ∈ sites pl.nbPlStages pl.nbInstPerPlStage)
    (hxr : (sites pl.nbPlStages pl.nbInstPerPlStage).idxOf x = r) :
    ∃ q < pl.nbLastStage, x = laneSite pl.nbPlStages q (siteDepth pl.nbPlStages x)
      ∧ ∀ d, siteDepth pl.nbPlStages x ≤ d → d ≤ pl.nbPlStages →
          cfg.ring.capacity ≤ (s.ring (pl.laneRing q d)).length := by
  induction h generalizing x with
  | @tail r hslot hfull =>
      obtain ⟨y, hy, hconsumer, hyr⟩ := hpl.mem_inSlots.mp hslot
      obtain rfl := (List.idxOf_inj hx).mp (hxr.trans hyr.symm)
      obtain ⟨q, hq, hsite⟩ := exists_laneSite hx hconsumer
      have hdepth : siteDepth pl.nbPlStages x = pl.nbPlStages := by
        rw [hsite]
        exact laneSite_depth (le_refl _)
      refine ⟨q, hq, by rw [hdepth]; exact hsite, fun d hge hle => ?_⟩
      obtain rfl : d = pl.nbPlStages := by omega
      unfold Pipeline.laneRing
      rw [← hsite, hxr]
      exact hfull
  | @inst i j r r' hruns hslot hfull hwait _ ih =>
      obtain ⟨y, hy, hproducer, hyr⟩ := hpl.mem_outSlots.mp
        (mem_outSlots (hreach.sane hpl.ringed) hruns hwait.slot)
      obtain ⟨q, hq, hsite, hrest⟩ := ih hy hyr
      have hdepth := siteDepth_producer hy
      rw [hproducer] at hdepth
      have hdepth : siteDepth pl.nbPlStages y = i + 1 := hdepth
      -- the instance is the one of the lane
      rw [hsite, hdepth, laneSite_producer_succ] at hproducer
      cases hproducer
      obtain ⟨z, hz, hconsumer, hzr⟩ := hpl.mem_inSlots.mp hslot
      obtain rfl := (List.idxOf_inj hx).mp (hxr.trans hzr.symm)
      have hxsite := eq_laneSite hfan hx hruns.1 hconsumer
      have hxdepth : siteDepth pl.nbPlStages x = i := by
        rw [hxsite]
        exact laneSite_depth hruns.1.le
      refine ⟨q, hq, by rw [hxdepth]; exact hxsite, fun d hge hle => ?_⟩
      by_cases heq : d = i
      · unfold Pipeline.laneRing
        rw [heq, ← hxsite, hxr]
        exact hfull
      · exact hrest d (by omega) hle

/-- **No deadlock.**  A lane that is full from end to end would hold more than it can. -/
theorem not_deadlocked (hpl : pl.Started fails) (hfan : pl.FansOut) (hcfg : Draining cfg pl)
    (hreach : Reachable cfg pl s) : ¬ Deadlocked cfg pl s := by
  intro hdead
  have hsane := hreach.sane hpl.ringed
  obtain ⟨r, hr, hclogged⟩ := hdead.clogged
  obtain ⟨x, hx, hproducer, hxr⟩ := hpl.mem_outSlots.mp (mem_outSlots_main hsane hr)
  have hdepth := siteDepth_producer hx
  rw [hproducer] at hdepth
  have hdepth : siteDepth pl.nbPlStages x = 0 := hdepth
  obtain ⟨q, hq, -, hfull⟩ := hclogged.lane hpl hfan hreach hx hxr
  have hload := le_load_lane hpl hq fun d hd => hfull d (by omega) hd
  have hbound := hreach.laneBound hpl hfan hcfg hq
  have hsince := since_lt hsane.ringOut hq
  have hround : defaultEthBatchSize * (since pl.nbLastStage s.main.ringOutIndex q + current s.main)
      ≤ defaultEthBatchSize * pl.nbLastStage := by
    rw [current_eq_one (Or.inl hdead.pc)]
    exact Nat.mul_le_mul_left _ hsince
  have hsmall := hcfg.small
  unfold LaneBound at hbound
  rw [Nat.succ_mul] at hload
  rw [Nat.mul_add pl.nbPlStages] at hbound
  omega

/-- **A pipeline without fan-in always settles.**  When only the last stage has several instances,
and a slice of main for each of them and a batch for each stage fit into one ring, no reachable
state is deadlocked, and from every reachable state with room for the idle polls there is a run
that receives nothing more and frees everything. -/
theorem fanOut_settles (hpl : pl.Started fails) (hfan : pl.FansOut) (hcfg : Draining cfg pl)
    (hreach : Reachable cfg pl s) :
    ¬ Deadlocked cfg pl s
      ∧ (Slack s (pl.nbLastStage * s.left + 1) → ∃ s', Settles cfg pl s s'
          ∧ (∀ p ∈ s.received, p ∈ s'.freed) ∧ ∀ x, x ≠ .freed → s'.contents x = []) := by
  refine ⟨not_deadlocked hpl hfan hcfg hreach, fun hslack => ?_⟩
  obtain ⟨s', hrun, hdead | heq⟩ := exists_settled hpl hcfg.toMoving hreach hslack
  · exact absurd hdead (not_deadlocked hpl hfan hcfg (hreach.settles hrun))
  · obtain ⟨hfreed, hempty⟩ := (hreach.settles hrun).all_freed hpl heq
    exact ⟨s', hrun, fun p hp => hfreed p (hrun.received ▸ hp), hempty⟩

end FanOut

theorem fullBursts_draining : Draining fullBursts oneByTwo where
  ring := atomicMin_productive (by decide)
  burst := by decide
  slice := by decide
  drains := by
    intro len k hlen hk
    have hlen : len ≤ 8191 := hlen
    have hk : k = min 8192 len := hk
    omega
  small := by decide

theorem oneByTwo_fansOut : oneByTwo.FansOut := by
  intro i hi
  have hi : i + 1 < 2 := hi
  obtain rfl : i = 0 := by omega
  rfl

/-- Packets 7 and 8 are with the instance of the first stage. -/
def underWay : State :=
  State.init |>.receive [7, 8] |>.inner fullBursts |>.enqueue 1 0 2 |>.workerDequeue 1 0 0 0 2

theorem underWay_reachable : Reachable fullBursts oneByTwo underWay :=
  have h₀ := oneByTwo_runs (i := 0) (j := 0) (by decide) (by decide)
  Relation.ReflTransGen.refl
    |>.tail (.receive _ [7, 8] rfl (by decide) (by decide) (by decide))
    |>.tail (.inner _ rfl)
    |>.tail (.enqueue _ 0 2 rfl fun _ => ⟨rfl, rfl⟩)
    |>.tail (.workerDequeue _ 0 0 0 2 h₀ rfl rfl rfl)

theorem underWay_settles :
    underWay.contents (.todo 0 0) = [7, 8] ∧ ∃ s', Settles fullBursts oneByTwo underWay s'
      ∧ (∀ p ∈ underWay.received, p ∈ s'.freed) ∧ ∀ x, x ≠ .freed → s'.contents x = [] :=
  have h := fanOut_settles oneByTwo_started oneByTwo_fansOut fullBursts_draining underWay_reachable
  ⟨rfl, h.2 ⟨by decide, by decide⟩⟩

end Meili.Network
