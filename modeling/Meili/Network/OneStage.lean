/-
  Meili.Network.OneStage — the pipeline that `pipeline_init_safe` sets up by default.

  `pl->nb_pl_stages = 1` and `pl->nb_inst_per_pl_stage[0] = run_conf->cores-1`: one stage, whose
  instance `j` takes from head ring `j` and puts into tail ring `j`.  The general loops of this
  directory and the loops of `Meili.DataPlane.Model` then run in step (`oneStage_bisimilar`), so
  that what is proved there holds of the general model as well.
-/
import Meili.Network.Routes

namespace Meili.Network

open Meili.Lib Meili.DataPlane Meili.Runtime

variable {W : ℕ}

/-! ## §1. What the two models share. -/

/-- Main's variables, with indices into `W` rings. -/
def mainOf (W : ℕ) [NeZero W] (m : Main nbMaxRing) : Main W where
  pc := m.pc
  mbufIn := m.mbufIn
  batchCntEnq := m.batchCntEnq
  batchCntWaitOnEnq := m.batchCntWaitOnEnq
  batchCntWaitOnDeq := m.batchCntWaitOnDeq
  batchCntTotEnq := m.batchCntTotEnq
  totEnq := m.totEnq
  toEnq := m.toEnq
  ringInIndex := Fin.ofNat W m.ringInIndex
  ringOutIndex := Fin.ofNat W m.ringOutIndex
  rxBufCnt := m.rxBufCnt
  txBufCnt := m.txBufCnt

/-- The pipeline has one stage of `W` instances, and has started. -/
structure Pipeline.OneStage (fails : ℕ → Bool) (W : ℕ) (pl : Pipeline) : Prop where
  started : pl.Started fails
  stages : pl.nbPlStages = 1
  instances : pl.nbInstPerPlStage 0 = W

/-- Head ring and tail ring `j`. -/
def Pipeline.headRing (pl : Pipeline) (j : ℕ) : RingId :=
  (sites pl.nbPlStages pl.nbInstPerPlStage).idxOf (.head j)

def Pipeline.tailRing (pl : Pipeline) (j : ℕ) : RingId :=
  (sites pl.nbPlStages pl.nbInstPerPlStage).idxOf (.tail j)

/-- The two states agree on main, the workers, the rings and the packets received and freed. -/
structure Shows [NeZero W] (pl : Pipeline) (s : State) (x : DataPlane.State W) : Prop where
  main : x.main = mainOf W s.main
  worker : ∀ j : Fin W, x.worker j = (s.stages 0 j).toWorker
  head : ∀ j : Fin W, x.head j = s.ring (pl.headRing j)
  tail : ∀ j : Fin W, x.tail j = s.ring (pl.tailRing j)
  received : x.received = s.received
  freed : x.freed = s.freed

theorem Shows.init [NeZero W] (pl : Pipeline) : Shows pl .init (DataPlane.State.init W) where
  main := rfl
  worker := fun _ => rfl
  head := fun _ => rfl
  tail := fun _ => rfl
  received := rfl
  freed := rfl

/-! ## §2. The rings of one stage. -/

section Rings

variable {fails : ℕ → Bool} {pl : Pipeline}

theorem Pipeline.OneStage.first (h : pl.OneStage fails W) : pl.nbFirstStage = W :=
  (if_pos (by rw [h.stages]; decide)).trans h.instances

theorem Pipeline.OneStage.last (h : pl.OneStage fails W) : pl.nbLastStage = W := by
  refine (if_pos (by rw [h.stages]; decide)).trans ?_
  rw [h.stages]
  exact h.instances

theorem Pipeline.OneStage.head_mem (h : pl.OneStage fails W) (j : Fin W) :
    Site.head j ∈ sites pl.nbPlStages pl.nbInstPerPlStage :=
  mem_sites.mpr ⟨by rw [h.stages]; decide, by rw [h.instances]; exact j.isLt⟩

theorem Pipeline.OneStage.tail_mem (h : pl.OneStage fails W) (j : Fin W) :
    Site.tail j ∈ sites pl.nbPlStages pl.nbInstPerPlStage := by
  refine mem_sites.mpr ⟨by rw [h.stages]; decide, ?_⟩
  rw [h.stages]
  show (j : ℕ) < pl.nbInstPerPlStage 0
  rw [h.instances]
  exact j.isLt

theorem Pipeline.OneStage.headRing_inj (h : pl.OneStage fails W) {i j : Fin W} :
    pl.headRing i = pl.headRing j ↔ i = j := by
  constructor
  · intro heq
    exact Fin.ext (Site.head.inj ((List.idxOf_inj (h.head_mem i)).mp heq))
  · rintro rfl
    rfl

theorem Pipeline.OneStage.tailRing_inj (h : pl.OneStage fails W) {i j : Fin W} :
    pl.tailRing i = pl.tailRing j ↔ i = j := by
  constructor
  · intro heq
    exact Fin.ext (Site.tail.inj ((List.idxOf_inj (h.tail_mem i)).mp heq))
  · rintro rfl
    rfl

theorem Pipeline.OneStage.headRing_ne (h : pl.OneStage fails W) (i j : Fin W) :
    pl.headRing i ≠ pl.tailRing j := by
  intro heq
  have hsite := (List.idxOf_inj (h.head_mem i)).mp heq
  cases hsite

theorem Pipeline.OneStage.ringIn_eq (h : pl.OneStage fails W) (j : Fin W) :
    pl.topology.ringIn j = some (pl.headRing j) :=
  (h.started.connected.head j (h.head_mem j)).trans
    (h.started.everyCreated.ringOf (h.head_mem j))

theorem Pipeline.OneStage.ringOut_eq (h : pl.OneStage fails W) (j : Fin W) :
    pl.topology.ringOut j = some (pl.tailRing j) :=
  (h.started.connected.tail j (h.tail_mem j)).trans
    (h.started.everyCreated.ringOf (h.tail_mem j))

theorem Pipeline.OneStage.runs (h : pl.OneStage fails W) (j : Fin W) : pl.Runs 0 j :=
  h.started.runs (by rw [h.stages]; decide) (by rw [h.instances]; exact j.isLt)

theorem Pipeline.OneStage.le (hpl : pl.OneStage fails W) : W ≤ nbMaxRing := by
  have hringed := hpl.started.ringed
  rw [← hpl.first]
  exact hringed.first.2

/-- An instance takes from its head ring, whatever its index. -/
theorem Pipeline.OneStage.slotIn_eq (h : pl.OneStage fails W) {s : State} (hsane : Sane pl s)
    (j : Fin W) : pl.slotIn s 0 j = some (pl.headRing j) := by
  have hmem := hsane.inInUse_mem (p := .inst 0 j) h.started
    ⟨(h.runs j).1, (h.runs j).2.1⟩
  rw [h.started.connected.inSlots_eq] at hmem
  obtain ⟨x, hx, hslot⟩ := List.mem_map.mp hmem
  obtain ⟨hx, hconsumer⟩ := List.mem_filter.mp hx
  obtain rfl := consumer_eq_first (of_decide_eq_true hconsumer)
  rw [h.started.everyCreated.ringOf hx] at hslot
  exact hslot.symm

theorem Pipeline.OneStage.slotOut_eq (h : pl.OneStage fails W) {s : State} (hsane : Sane pl s)
    (j : Fin W) : pl.slotOut s 0 j = some (pl.tailRing j) := by
  have hmem := hsane.outInUse_mem (p := .inst 0 j) h.started
    ⟨(h.runs j).1, (h.runs j).2.1⟩
  rw [h.started.connected.outSlots_eq] at hmem
  obtain ⟨x, hx, hslot⟩ := List.mem_map.mp hmem
  obtain ⟨hx, hproducer⟩ := List.mem_filter.mp hx
  have hproducer := of_decide_eq_true hproducer
  have hlast : x.producer pl.nbPlStages = .inst (pl.nbPlStages - 1) j := by
    rw [hproducer, h.stages]
  obtain rfl := producer_eq_last hx hlast
  rw [h.started.everyCreated.ringOf hx] at hslot
  exact hslot.symm

end Rings

/-! ## §3. Steps. -/

section Steps

variable [NeZero W] {fails : ℕ → Bool} {pl : Pipeline} {s : State} {x : DataPlane.State W}

theorem roundNext_ofNat {index : Fin nbMaxRing} (hW : W ≤ nbMaxRing) (hlt : (index : ℕ) < W) :
    roundNext (Fin.ofNat W index) = Fin.ofNat W (nextRing W index) := by
  apply Fin.ext
  have hmod : ((index : ℕ) + 1) % W < W := Nat.mod_lt _ (Nat.pos_of_neZero W)
  show ((index : ℕ) % W + 1) % W = ((index + 1) % W % nbMaxRing) % W
  rw [Nat.mod_eq_of_lt hlt, Nat.mod_eq_of_lt (hmod.trans_le hW), Nat.mod_mod]

theorem Shows.receive (h : Shows pl s x) (burst : List Mbuf) :
    Shows pl (s.receive burst) (x.receive burst) := by
  have hmain := h.main
  unfold State.receive DataPlane.State.receive
  rw [hmain]
  by_cases hburst : burst.length = 0
  · rw [if_pos hburst, if_pos hburst]
    by_cases hwait : s.main.batchCntWaitOnDeq > 0
    · have hwait' : (mainOf W s.main).batchCntWaitOnDeq > 0 := hwait
      rw [if_pos hwait, if_pos hwait']
      exact ⟨rfl, h.worker, h.head, h.tail, h.received, h.freed⟩
    · have hwait' : ¬ (mainOf W s.main).batchCntWaitOnDeq > 0 := hwait
      rw [if_neg hwait, if_neg hwait']
      exact h
  · rw [if_neg hburst, if_neg hburst]
    exact ⟨rfl, h.worker, h.head, h.tail, congrArg (· ++ burst) h.received, h.freed⟩

theorem Shows.inner (h : Shows pl s x) (cfg : Config) :
    Shows pl (s.inner cfg) (x.inner cfg) := by
  have hmain := h.main
  unfold State.inner DataPlane.State.inner
  rw [hmain]
  by_cases hwait : s.main.batchCntWaitOnEnq > 0
  · have hwait' : (mainOf W s.main).batchCntWaitOnEnq > 0 := hwait
    rw [if_pos hwait, if_pos hwait']
    exact ⟨rfl, h.worker, h.head, h.tail, h.received, h.freed⟩
  · have hwait' : ¬ (mainOf W s.main).batchCntWaitOnEnq > 0 := hwait
    rw [if_neg hwait, if_neg hwait']
    exact ⟨rfl, h.worker, h.head, h.tail, h.received, h.freed⟩

/-- A head ring that changes in both models. -/
theorem Shows.setHead (h : Shows pl s x) (hpl : pl.OneStage fails W) {j : Fin W}
    (mbufs : List Mbuf) :
    Shows pl (s.setRing (pl.headRing j) mbufs)
      { x with head := Function.update x.head j mbufs } where
  main := h.main
  worker := h.worker
  head := by
    intro i
    by_cases hi : i = j
    · subst hi
      rw [setRing_ring_self]
      exact Function.update_self ..
    · rw [setRing_ring_of_ne s mbufs fun heq => hi (hpl.headRing_inj.mp heq)]
      exact (Function.update_of_ne hi ..).trans (h.head i)
  tail := by
    intro i
    rw [setRing_ring_of_ne s mbufs fun heq => hpl.headRing_ne j i heq.symm]
    exact h.tail i
  received := h.received
  freed := h.freed

/-- A tail ring that changes in both models. -/
theorem Shows.setTail (h : Shows pl s x) (hpl : pl.OneStage fails W) {j : Fin W}
    (mbufs : List Mbuf) :
    Shows pl (s.setRing (pl.tailRing j) mbufs)
      { x with tail := Function.update x.tail j mbufs } where
  main := h.main
  worker := h.worker
  head := by
    intro i
    rw [setRing_ring_of_ne s mbufs fun heq => hpl.headRing_ne i j heq]
    exact h.head i
  tail := by
    intro i
    by_cases hi : i = j
    · subst hi
      rw [setRing_ring_self]
      exact Function.update_self ..
    · rw [setRing_ring_of_ne s mbufs fun heq => hi (hpl.tailRing_inj.mp heq)]
      exact (Function.update_of_ne hi ..).trans (h.tail i)
  received := h.received
  freed := h.freed

/-- An instance that changes in both models. -/
theorem Shows.setStage (h : Shows pl s x) (j : Fin W) (self : Instance) :
    Shows pl (s.setStage 0 j self)
      { x with worker := Function.update x.worker j self.toWorker } where
  main := h.main
  worker := by
    intro i
    by_cases hi : i = j
    · subst hi
      rw [setStage_stages_self]
      exact Function.update_self ..
    · rw [setStage_stages_of_ne _ _ fun heq => hi (Fin.ext heq.2)]
      exact (Function.update_of_ne hi ..).trans (h.worker i)
  head := h.head
  tail := h.tail
  received := h.received
  freed := h.freed

/-- Main's ring index stands for the same head ring in both models. -/
theorem Shows.headIndex (h : Shows pl s x) (hpl : pl.OneStage fails W) (hsane : Sane pl s) :
    pl.topology.ringIn s.main.ringInIndex = some (pl.headRing x.main.ringInIndex)
      ∧ (s.main.ringInIndex : ℕ) < W := by
  have hlt : (s.main.ringInIndex : ℕ) < W := hpl.first ▸ hsane.ringIn
  have hval : ((x.main.ringInIndex : Fin W) : ℕ) = s.main.ringInIndex := by
    rw [h.main]
    exact Nat.mod_eq_of_lt hlt
  refine ⟨?_, hlt⟩
  rw [← hval]
  exact hpl.ringIn_eq x.main.ringInIndex

theorem Shows.tailIndex (h : Shows pl s x) (hpl : pl.OneStage fails W) (hsane : Sane pl s) :
    pl.topology.ringOut s.main.ringOutIndex = some (pl.tailRing x.main.ringOutIndex)
      ∧ (s.main.ringOutIndex : ℕ) < W := by
  have hlt : (s.main.ringOutIndex : ℕ) < W := hpl.last ▸ hsane.ringOut
  have hval : ((x.main.ringOutIndex : Fin W) : ℕ) = s.main.ringOutIndex := by
    rw [h.main]
    exact Nat.mod_eq_of_lt hlt
  refine ⟨?_, hlt⟩
  rw [← hval]
  exact hpl.ringOut_eq x.main.ringOutIndex

theorem Shows.enqueue (h : Shows pl s x) (hpl : pl.OneStage fails W) (hsane : Sane pl s)
    {r : RingId} {k : ℕ}
    (hr : s.main.totEnq < s.main.batchCntEnq → r = pl.headRing x.main.ringInIndex) :
    Shows pl (s.enqueue pl.nbFirstStage r k) (x.enqueue k) := by
  have hmain := h.main
  unfold State.enqueue DataPlane.State.enqueue
  by_cases hlt : s.main.totEnq < s.main.batchCntEnq
  · have hlt' : x.main.totEnq < x.main.batchCntEnq := by
      rw [hmain]
      exact hlt
    rw [if_pos hlt, if_pos hlt', hr hlt, ← h.head x.main.ringInIndex]
    have hset := h.setHead hpl (j := x.main.ringInIndex) (x.head x.main.ringInIndex
      ++ (s.main.mbufIn.drop (s.main.batchCntTotEnq + s.main.totEnq)).take k)
    have hbufs : (x.main.mbufIn.drop (x.main.batchCntTotEnq + x.main.totEnq)).take k
        = (s.main.mbufIn.drop (s.main.batchCntTotEnq + s.main.totEnq)).take k := by
      rw [hmain]
      rfl
    dsimp only
    rw [hbufs]
    refine ⟨?_, hset.worker, hset.head, hset.tail, hset.received, hset.freed⟩
    dsimp only
    rw [hmain]
    rfl
  · have hlt' : ¬ x.main.totEnq < x.main.batchCntEnq := by
      rw [hmain]
      exact hlt
    rw [if_neg hlt, if_neg hlt']
    refine ⟨?_, h.worker, h.head, h.tail, h.received, h.freed⟩
    dsimp only
    rw [hmain, hpl.first]
    show Main.mk .aggregate _ _ _ _ _ _ _ (roundNext (Fin.ofNat W s.main.ringInIndex)) _ _ _ = _
    rw [roundNext_ofNat hpl.le (h.headIndex hpl hsane).2]
    rfl

theorem Shows.aggregate (h : Shows pl s x) (hpl : pl.OneStage fails W) (hsane : Sane pl s)
    (k : ℕ) :
    Shows pl (s.aggregate pl.nbLastStage (pl.tailRing x.main.ringOutIndex) k) (x.aggregate k) := by
  have hset := h.setTail hpl (j := x.main.ringOutIndex) ((x.tail x.main.ringOutIndex).drop k)
  unfold State.aggregate DataPlane.State.aggregate
  dsimp only
  rw [← h.tail x.main.ringOutIndex]
  refine ⟨?_, hset.worker, hset.head, hset.tail, hset.received, ?_⟩
  · have hnext : roundNext x.main.ringOutIndex
        = Fin.ofNat W (nextRing pl.nbLastStage s.main.ringOutIndex) := by
      rw [h.main, hpl.last]
      exact roundNext_ofNat hpl.le (h.tailIndex hpl hsane).2
    dsimp only
    rw [hnext, h.main]
    rfl
  · show x.freed ++ _ = s.freed ++ _
    rw [h.freed]

theorem Shows.workerDequeue (h : Shows pl s x) (hpl : pl.OneStage fails W) (j : Fin W) (k : ℕ) :
    Shows pl (s.workerDequeue (pl.nbRingIn 0 j) 0 j (pl.headRing j) k) (x.workerDequeue j k) := by
  unfold State.workerDequeue DataPlane.State.workerDequeue
  dsimp only
  rw [← h.head j, h.worker j]
  exact (h.setHead hpl ((x.head j).drop k)).setStage j _

theorem Shows.workerExec (h : Shows pl s x) (j : Fin W) :
    Shows pl (s.workerExec 0 j) (x.workerExec j) := by
  unfold State.workerExec DataPlane.State.workerExec
  dsimp only
  rw [h.worker j]
  cases (s.stages 0 j).mbufsIn[(s.stages 0 j).i]? with
  | some mbuf =>
      have hlog : Shows pl { s with log := s.log ++ [(mbuf, 0, (j : ℕ))] } x :=
        ⟨h.main, h.worker, h.head, h.tail, h.received, h.freed⟩
      have hset := hlog.setStage j { s.stages 0 j with
        i := (s.stages 0 j).i + 1
        mbufsOut := (s.stages 0 j).mbufsOut ++ [mbuf]
        outNum := (s.stages 0 j).outNum + 1 }
      exact ⟨hset.main, hset.worker, hset.head, hset.tail, hset.received, hset.freed⟩
  | none => exact h.setStage j _

theorem Shows.workerEnqueue (h : Shows pl s x) (hpl : pl.OneStage fails W) (j : Fin W)
    {r : RingId} {k : ℕ} (hr : 0 < (s.stages 0 j).outNum → r = pl.tailRing j) :
    Shows pl (s.workerEnqueue (pl.nbRingOut 0 j) 0 j r k) (x.workerEnqueue j k) := by
  unfold State.workerEnqueue DataPlane.State.workerEnqueue
  dsimp only
  rw [h.worker j]
  by_cases hpos : 0 < (s.stages 0 j).outNum
  · rw [if_pos hpos, if_pos hpos, hr hpos, ← h.tail j]
    exact (h.setTail hpl _).setStage j _
  · rw [if_neg hpos, if_neg hpos]
    exact h.setStage j _

/-- A step of the pipeline is a step of the data plane. -/
theorem Shows.forward {cfg : Config} {s' : State} (h : Shows pl s x)
    (hpl : pl.OneStage fails W) (hsane : Sane pl s) (hstep : Step cfg pl s s') :
    ∃ x', DataPlane.Step cfg x x' ∧ Shows pl s' x' := by
  have hmain := h.main
  have hinstance : ∀ i j, pl.Runs i j → i = 0 ∧ j < W := by
    intro i j hruns
    have hi := hruns.1
    rw [hpl.stages] at hi
    obtain rfl : i = 0 := by omega
    exact ⟨rfl, hpl.instances ▸ hruns.2.1⟩
  cases hstep with
  | receive burst hpc hlen hnodup hfresh =>
      refine ⟨_, .receive x burst (by rw [hmain]; exact hpc) hlen hnodup ?_, h.receive burst⟩
      rw [h.received]
      exact hfresh
  | inner hpc => exact ⟨_, .inner x (by rw [hmain]; exact hpc), h.inner cfg⟩
  | enqueue r k hpc hk =>
      have hhead := (h.headIndex hpl hsane).1
      refine ⟨_, .enqueue x k (by rw [hmain]; exact hpc) fun hlt => ?_,
        h.enqueue hpl hsane fun hlt => ?_⟩
      · have hlt' : s.main.totEnq < s.main.batchCntEnq := by
          rw [hmain] at hlt
          exact hlt
        obtain ⟨hring, henq⟩ := hk hlt'
        rw [hhead] at hring
        obtain rfl := Option.some.inj hring
        rw [h.head]
        rw [hmain] at henq ⊢
        exact henq
      · obtain ⟨hring, -⟩ := hk hlt
        rw [hhead] at hring
        exact (Option.some.inj hring).symm
  | aggregate r k hpc hring hk =>
      rw [(h.tailIndex hpl hsane).1] at hring
      obtain rfl := Option.some.inj hring
      refine ⟨_, .aggregate x k (by rw [hmain]; exact hpc) ?_, h.aggregate hpl hsane k⟩
      rw [h.tail]
      exact hk
  | workerDequeue i j r k hruns hpc hring hk =>
      obtain ⟨rfl, hj⟩ := hinstance i j hruns
      lift j to Fin W using hj
      rw [hpl.slotIn_eq hsane j] at hring
      obtain rfl := Option.some.inj hring
      refine ⟨_, .workerDequeue x j k (by rw [h.worker]; exact hpc) ?_, h.workerDequeue hpl j k⟩
      rw [h.head]
      exact hk
  | workerExec i j hruns hpc =>
      obtain ⟨rfl, hj⟩ := hinstance i j hruns
      lift j to Fin W using hj
      exact ⟨_, .workerExec x j (by rw [h.worker]; exact hpc), h.workerExec j⟩
  | workerEnqueue i j r k hruns hpc hk =>
      obtain ⟨rfl, hj⟩ := hinstance i j hruns
      lift j to Fin W using hj
      have htail := hpl.slotOut_eq hsane j
      refine ⟨_, .workerEnqueue x j k (by rw [h.worker]; exact hpc) fun hpos => ?_,
        h.workerEnqueue hpl j fun hpos => ?_⟩
      · rw [h.worker] at hpos ⊢
        obtain ⟨hring, henq⟩ := hk hpos
        rw [htail] at hring
        obtain rfl := Option.some.inj hring
        rw [h.tail]
        exact henq
      · obtain ⟨hring, -⟩ := hk hpos
        rw [htail] at hring
        exact (Option.some.inj hring).symm

/-- A step of the data plane is a step of the pipeline. -/
theorem Shows.backward {cfg : Config} {x' : DataPlane.State W} (h : Shows pl s x)
    (hpl : pl.OneStage fails W) (hsane : Sane pl s) (hstep : DataPlane.Step cfg x x') :
    ∃ s', Step cfg pl s s' ∧ Shows pl s' x' := by
  have hmain := h.main
  cases hstep with
  | receive burst hpc hlen hnodup hfresh =>
      rw [hmain] at hpc
      rw [h.received] at hfresh
      exact ⟨_, .receive s burst hpc hlen hnodup hfresh, h.receive burst⟩
  | inner hpc =>
      rw [hmain] at hpc
      exact ⟨_, .inner s hpc, h.inner cfg⟩
  | enqueue k hpc hk =>
      refine ⟨_, .enqueue s (pl.headRing x.main.ringInIndex) k ?_ fun hlt => ?_,
        h.enqueue hpl hsane fun _ => rfl⟩
      · rw [hmain] at hpc
        exact hpc
      · refine ⟨(h.headIndex hpl hsane).1, ?_⟩
        have henq := hk (by rw [hmain]; exact hlt)
        rw [h.head] at henq
        rw [hmain] at henq ⊢
        exact henq
  | aggregate k hpc hk =>
      refine ⟨_, .aggregate s (pl.tailRing x.main.ringOutIndex) k ?_ (h.tailIndex hpl hsane).1 ?_,
        h.aggregate hpl hsane k⟩
      · rw [hmain] at hpc
        exact hpc
      · rw [h.tail] at hk
        exact hk
  | workerDequeue j k hpc hk =>
      rw [h.worker] at hpc
      rw [h.head] at hk
      exact ⟨_, .workerDequeue s 0 j (pl.headRing j) k (hpl.runs j) hpc (hpl.slotIn_eq hsane j) hk,
        h.workerDequeue hpl j k⟩
  | workerExec j hpc =>
      rw [h.worker] at hpc
      exact ⟨_, .workerExec s 0 j (hpl.runs j) hpc, h.workerExec j⟩
  | workerEnqueue j k hpc hk =>
      rw [h.worker] at hpc hk
      refine ⟨_, .workerEnqueue s 0 j (pl.tailRing j) k (hpl.runs j) hpc fun hpos => ?_,
        h.workerEnqueue hpl j fun _ => rfl⟩
      refine ⟨hpl.slotOut_eq hsane j, ?_⟩
      have henq := hk hpos
      rw [h.tail] at henq
      exact henq

end Steps

/-! ## §4. Every interleaving. -/

/-- **The default pipeline is the one-stage data plane.**  For `W = cores - 1` instances of one
stage, every reachable state of the general loops shows a reachable state of
`Meili.DataPlane.Model`, and every reachable state there is shown by one of the general loops. -/
theorem oneStage_bisimilar [NeZero W] {fails : ℕ → Bool} {pl : Pipeline}
    (hpl : pl.OneStage fails W) (cfg : Config) :
    (∀ s, Reachable cfg pl s → ∃ x : DataPlane.State W, DataPlane.Reachable cfg x ∧ Shows pl s x)
      ∧ ∀ x : DataPlane.State W, DataPlane.Reachable cfg x →
          ∃ s, Reachable cfg pl s ∧ Shows pl s x := by
  constructor
  · intro s h
    induction h with
    | refl => exact ⟨_, DataPlane.Reachable.init W cfg, Shows.init pl⟩
    | tail hreach hstep ih =>
        obtain ⟨x, hx, hshows⟩ := ih
        obtain ⟨x', hstep', hshows'⟩ :=
          hshows.forward hpl (Reachable.sane hpl.started.ringed hreach) hstep
        exact ⟨x', hx.step hstep', hshows'⟩
  · intro x h
    induction h with
    | refl => exact ⟨_, Relation.ReflTransGen.refl, Shows.init pl⟩
    | tail hreach hstep ih =>
        obtain ⟨s, hs, hshows⟩ := ih
        obtain ⟨s', hstep', hshows'⟩ :=
          hshows.backward hpl (Reachable.sane hpl.started.ringed hs) hstep
        exact ⟨s', hs.tail hstep', hshows'⟩

/-- One stage of two instances. -/
def twoWorkers : Pipeline where
  nbPlStages := 1
  nbInstPerPlStage := fun _ => 2
  topology := (buildTopology (fun _ => false) 1 fun _ => 2).getD .init

theorem twoWorkers_oneStage : twoWorkers.OneStage (fun _ => false) 2 where
  started := ⟨rfl, fun _ => rfl, fun _ _ => Nat.succ_pos 1⟩
  stages := rfl
  instances := rfl

/-- The packets of a run of the data plane are on the same rings here. -/
theorem twoWorkers_bisimilar :
    ∃ s, Reachable slices twoWorkers s ∧ Shows twoWorkers s (twoPackets 2) :=
  (oneStage_bisimilar twoWorkers_oneStage slices).2 _ twoPackets_reachable

end Meili.Network
