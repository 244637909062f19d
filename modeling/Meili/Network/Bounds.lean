/-
  Meili.Network.Bounds — how much the places of a pipeline hold, and what main's counters count.

  `Bounds` is kept by every step: no ring holds more than its capacity, no instance more than a
  batch, no slice of main more than a receive; and `batch_cnt_wait_on_deq` is what main has
  offered to the head rings and not freed yet.
-/
import Meili.DataPlane.Counters
import Meili.Network.Routes

namespace Meili.Network

open Meili.Lib Meili.DataPlane Meili.Runtime

/-- What the places hold, and what the counters of main count. -/
structure Bounds (cfg : Config) (s : State) : Prop where
  mbufIn : s.main.mbufIn.length ≤ defaultEthBatchSize
  slice : s.main.batchCntEnq ≤ defaultEthBatchSize
  offering : s.main.pc = .enqueue → 0 < s.main.batchCntWaitOnEnq
  /-- Behind a slice, and not behind an idle poll, the slice is part of what waits. -/
  whole : s.main.pc = .aggregate → 0 < s.main.batchCntWaitOnEnq →
    (s.main.batchCntEnq : ℤ) ≤ s.main.batchCntWaitOnEnq
  counted : s.main.batchCntWaitOnDeq + s.freed.length + s.main.pending.length
    = s.received.length + s.main.offered
  ring : ∀ r, (s.ring r).length ≤ cfg.ring.capacity
  batch : ∀ i j, (s.stages i j).batch.length ≤ cfg.burstSize

section Steps

variable {cfg : Config} {pl : Pipeline} {s : State}

theorem Bounds.init : Bounds cfg .init where
  mbufIn := Nat.zero_le _
  slice := Nat.zero_le _
  offering := fun h => absurd h (by simp [State.init])
  whole := fun h => absurd h (by simp [State.init])
  counted := rfl
  ring := fun _ => Nat.zero_le _
  batch := fun _ _ => Nat.zero_le _

/-- A ring with new contents, within its capacity. -/
theorem Bounds.setRing (h : Bounds cfg s) {r : RingId} {mbufs : List Mbuf}
    (hmbufs : mbufs.length ≤ cfg.ring.capacity) (x : RingId) :
    ((s.setRing r mbufs).ring x).length ≤ cfg.ring.capacity := by
  by_cases hx : x = r
  · rw [hx, setRing_ring_self]
    exact hmbufs
  · rw [setRing_ring_of_ne s mbufs hx]
    exact h.ring x

/-- A step of an instance that keeps its batch and the rings within bounds. -/
theorem Bounds.setStage (h : Bounds cfg s) {s' : State} {i j : ℕ} {self : Instance}
    (hmain : s'.main = s.main) (hreceived : s'.received = s.received) (hfreed : s'.freed = s.freed)
    (hstages : s'.stages = (s.setStage i j self).stages)
    (hring : ∀ r, (s'.ring r).length ≤ cfg.ring.capacity)
    (hself : self.batch.length ≤ cfg.burstSize) : Bounds cfg s' where
  mbufIn := hmain ▸ h.mbufIn
  slice := hmain ▸ h.slice
  offering := hmain ▸ h.offering
  whole := hmain ▸ h.whole
  counted := by
    rw [hmain, hreceived, hfreed]
    exact h.counted
  ring := hring
  batch := by
    intro i' j'
    rw [hstages, setStage_stages]
    split
    · exact hself
    · exact h.batch i' j'

theorem Bounds.receive (h : Bounds cfg s) (hsane : Sane pl s) (hpc : s.main.pc = .receive)
    {burst : List Mbuf} (hlen : burst.length ≤ defaultEthBatchSize) :
    Bounds cfg (s.receive burst) := by
  have hnone := hsane.main.none_pending hpc
  have hcounted := h.counted
  rw [Main.offered_eq_zero (by rw [hpc]; decide), hnone] at hcounted
  by_cases hburst : burst.length = 0
  · have hpending : (s.receive burst).main.pending = s.main.pending :=
      congrFun (contents_receive_nil hsane hpc hburst) .pending
    unfold State.receive at hpending ⊢
    rw [if_pos hburst] at hpending ⊢
    split
    next hwait =>
      rw [if_pos hwait] at hpending
      refine ⟨h.mbufIn, h.slice, fun hp => absurd hp (by simp), fun _ hpos => ?_, ?_, h.ring,
        h.batch⟩
      · -- between two receives nothing waits
        exact absurd (hsane.main.receive hpc) (not_le.mpr hpos)
      · rw [hpending, hnone]
        exact hcounted
    next => exact h
  · unfold State.receive
    rw [if_neg hburst]
    refine ⟨hlen, h.slice, fun hp => absurd hp (by simp), fun hp => absurd hp (by simp), ?_,
      h.ring, h.batch⟩
    rw [Main.pending_inner rfl, Main.offered_eq_zero (by simp), List.drop_zero]
    show s.main.batchCntWaitOnDeq + s.freed.length + burst.length
      = ((s.received ++ burst).length : ℕ) + ((0 : ℕ) : ℤ)
    rw [List.length_append]
    push_cast at hcounted ⊢
    simp only [List.length_nil, Nat.cast_zero, add_zero] at hcounted
    omega

theorem Bounds.inner (h : Bounds cfg s) (hsane : Sane pl s) (hpc : s.main.pc = .inner) :
    Bounds cfg (s.inner cfg) := by
  have hpending : (s.inner cfg).main.pending = s.main.pending :=
    congrFun (contents_inner hpc) .pending
  have hcounted := h.counted
  rw [Main.offered_eq_zero (by rw [hpc]; decide)] at hcounted
  have hsum := hsane.main.sum
  have hin := h.mbufIn
  unfold State.inner at hpending ⊢
  split
  next hpos =>
    rw [if_pos hpos] at hpending
    refine ⟨h.mbufIn, ?_, fun _ => hpos, fun hp => absurd hp (by simp), ?_, h.ring, h.batch⟩
    · show min cfg.batchSizeIn s.main.batchCntWaitOnEnq.toNat ≤ defaultEthBatchSize
      omega
    · rw [hpending, Main.offered_enqueue rfl]
      show s.main.batchCntWaitOnDeq + (min cfg.batchSizeIn s.main.batchCntWaitOnEnq.toNat : ℕ)
        + s.freed.length + s.main.pending.length = s.received.length + _
      push_cast at hcounted ⊢
      omega
  next hneg =>
    rw [if_neg hneg] at hpending
    refine ⟨h.mbufIn, h.slice, fun hp => absurd hp (by simp), fun hp => absurd hp (by simp), ?_,
      h.ring, h.batch⟩
    rw [hpending, Main.offered_eq_zero (by simp)]
    exact hcounted

theorem Bounds.enqueue (h : Bounds cfg s) (hsane : Sane pl s) (hpc : s.main.pc = .enqueue)
    {r : RingId} {k : ℕ}
    (hk : s.main.totEnq < s.main.batchCntEnq → cfg.ring.enq s.main.toEnq (s.ring r).length k) :
    Bounds cfg (s.enqueue pl.nbFirstStage r k) := by
  obtain ⟨hle, heq⟩ := hsane.main.enqueue hpc
  have hcounted := h.counted
  rw [Main.offered_enqueue hpc] at hcounted
  by_cases hlt : s.main.totEnq < s.main.batchCntEnq
  · have hpending : (s.enqueue pl.nbFirstStage r k).main.pending = s.main.pending.drop k :=
      (moves_enqueue hpc hlt r k).source
    have hoffer := hsane.main.offered_le hpc
    have hlen : s.main.pending.length
        = s.main.mbufIn.length - (s.main.batchCntTotEnq + s.main.totEnq) := by
      rw [Main.pending_enqueue hpc, List.length_drop]
    have hle := cfg.ring.enq_le (hk hlt)
    unfold State.enqueue at hpending ⊢
    rw [if_pos hlt] at hpending ⊢
    refine ⟨h.mbufIn, h.slice, h.offering, fun hp => absurd (hpc.symm.trans hp) (by decide), ?_,
      h.setRing ?_, h.batch⟩
    · rw [hpending, List.length_drop, Main.offered_enqueue (by exact hpc)]
      show s.main.batchCntWaitOnDeq + s.freed.length + ((s.main.pending.length - k : ℕ) : ℤ)
        = s.received.length + ((s.main.toEnq - k : ℕ) : ℤ)
      omega
    · have hroom := cfg.ring.enq_room (hk hlt) (h.ring r)
      rw [List.length_append, List.length_take]
      omega
  · have hpending : (s.enqueue pl.nbFirstStage r k).main.pending = s.main.pending :=
      congrFun (contents_enqueue hsane hpc hlt r k) .pending
    unfold State.enqueue at hpending ⊢
    rw [if_neg hlt] at hpending ⊢
    refine ⟨h.mbufIn, h.slice, fun hp => absurd hp (by simp), fun _ _ => hle, ?_, h.ring, h.batch⟩
    rw [hpending, Main.offered_eq_zero (by simp)]
    show s.main.batchCntWaitOnDeq + s.freed.length + s.main.pending.length
      = s.received.length + ((0 : ℕ) : ℤ)
    omega

theorem Bounds.aggregate (h : Bounds cfg s) (hpc : s.main.pc = .aggregate) {r : RingId} {k : ℕ}
    (hk : cfg.ring.deq maxPktsBurst (s.ring r).length k) :
    Bounds cfg (s.aggregate pl.nbLastStage r k) := by
  have hpending : (s.aggregate pl.nbLastStage r k).main.pending = s.main.pending :=
    (moves_aggregate hpc r k).other .pending (by simp) (by simp)
  have hle := (cfg.ring.deq_le hk).2
  have hring := h.ring r
  have hcounted := h.counted
  rw [Main.offered_eq_zero (by rw [hpc]; decide)] at hcounted
  refine ⟨h.mbufIn, h.slice, fun hp => ?_, fun hp => ?_, ?_, h.setRing ?_, h.batch⟩
  · exact absurd hp (Main.finish_pc_ne _ (by decide) (by decide))
  · exact absurd hp (Main.finish_pc_ne _ (by decide) (by decide))
  · rw [hpending]
    show s.main.batchCntWaitOnDeq - k + (s.freed ++ (s.ring r).take k).length
      + s.main.pending.length = s.received.length + (Main.finish _).offered
    rw [Main.finish_offered, List.length_append, List.length_take, Nat.min_eq_left hle]
    push_cast at hcounted ⊢
    omega
  · rw [List.length_drop]
    omega

theorem Bounds.workerDequeue (h : Bounds cfg s) {i j : ℕ} {r : RingId} {k : ℕ}
    (hk : cfg.ring.deq cfg.burstSize (s.ring r).length k) :
    Bounds cfg (s.workerDequeue (pl.nbRingIn i j) i j r k) := by
  have hle := cfg.ring.deq_le hk
  have hring := h.ring r
  refine h.setStage (i := i) (j := j) rfl rfl rfl rfl (h.setRing ?_) ?_
  · rw [List.length_drop]
    omega
  · show ((s.ring r).take k).length ≤ cfg.burstSize
    rw [List.length_take]
    omega

theorem Bounds.workerExec (h : Bounds cfg s) (hsane : Sane pl s) {i j : ℕ}
    (hpc : (s.stages i j).pc = .exec) : Bounds cfg (s.workerExec i j) := by
  obtain ⟨hle, hout, hnum⟩ := (hsane.worker i j).exec hpc
  have hbatch := h.batch i j
  rw [Worker.batch_exec hpc] at hbatch
  unfold State.workerExec
  dsimp only
  split
  · refine h.setStage (i := i) (j := j) rfl rfl rfl rfl h.ring ?_
    simp only [Worker.batch, hpc]
    exact hbatch
  · refine h.setStage (i := i) (j := j) rfl rfl rfl rfl h.ring ?_
    simp only [Worker.batch, List.drop_zero, hout, List.length_take]
    omega

theorem Bounds.workerEnqueue (h : Bounds cfg s) {i j : ℕ} (hpc : (s.stages i j).pc = .enqueue)
    {r : RingId} {k : ℕ}
    (hk : 0 < (s.stages i j).outNum →
      cfg.ring.enq (min (s.stages i j).outNum cfg.burstSize) (s.ring r).length k) :
    Bounds cfg (s.workerEnqueue (pl.nbRingOut i j) i j r k) := by
  have hbatch := h.batch i j
  rw [Worker.batch_enqueue hpc, List.length_drop] at hbatch
  unfold State.workerEnqueue
  dsimp only
  split
  next hpos =>
    have hroom := cfg.ring.enq_room (hk hpos) (h.ring r)
    refine h.setStage (i := i) (j := j) rfl rfl rfl rfl (h.setRing ?_) ?_
    · rw [List.length_append, List.length_take]
      omega
    · simp only [Worker.batch, hpc, List.length_drop]
      omega
  next =>
    refine h.setStage (i := i) (j := j) rfl rfl rfl rfl h.ring ?_
    simp only [Worker.batch]
    exact Nat.zero_le _

/-- **Every step keeps the bounds.** -/
theorem Bounds.step {s' : State} (h : Bounds cfg s) (hsane : Sane pl s)
    (hstep : Step cfg pl s s') : Bounds cfg s' := by
  cases hstep with
  | receive burst hpc hlen _ _ => exact h.receive hsane hpc hlen
  | inner hpc => exact h.inner hsane hpc
  | enqueue r k hpc hk => exact h.enqueue hsane hpc fun hlt => (hk hlt).2
  | aggregate r k hpc _ hk => exact h.aggregate hpc hk
  | workerDequeue i j r k _ _ _ hk => exact h.workerDequeue hk
  | workerExec i j _ hpc => exact h.workerExec hsane hpc
  | workerEnqueue i j r k _ hpc hk => exact h.workerEnqueue hpc fun hpos => (hk hpos).2

end Steps

theorem Reachable.bounds {cfg : Config} {pl : Pipeline} (hpl : pl.Ringed) {s : State}
    (h : Reachable cfg pl s) : Bounds cfg s :=
  ReflTransGen.invariant_reachable (Bounds cfg) Bounds.init
    (fun _ _ hreach hx hs => hx.step (Reachable.sane hpl hreach) hs) h

end Meili.Network
