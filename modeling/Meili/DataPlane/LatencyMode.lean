/-
  Meili.DataPlane.LatencyMode — the data plane of a build with `LATENCY_MODE_ON`.

  In this build main goes on polling one tail ring until `batch_cnt_wait_on_deq` is down to
  zero, and moves on to the next pair of rings only then.  The workers are those of the normal
  build, and so are main's receive, the test of its inner loop and its enqueue loop.

  A slice is dealt out to the head ring whose tail ring is polled next (`LockStep`), so that
  only one pair of rings is ever in use.  It follows that packets are released in the order of
  their arrival, with any number of workers, and that the counters of the inner loop stay in
  range: after a slice there is nothing to wait for, so an idle receive never jumps to
  `aggregate_packets`.
-/
import Meili.DataPlane.Counters

namespace Meili.DataPlane

open Meili.Lib

variable {W : ℕ} {cfg : Config}

/-! ## §1. The inner-inner loop. -/

/-- One test of the inner-inner loop: a burst dequeue that takes `k` entries, which are counted
and freed; or on to the next pair of rings and to the test of the inner loop. -/
def State.latencyAggregate (s : State W) (k : ℕ) : State W :=
  if s.main.batchCntWaitOnDeq > 0 then
    let j := s.main.ringOutIndex
    let mbufs := (s.tail j).take k
    { s with
      main := { s.main with
        txBufCnt := s.main.txBufCnt + UInt64.ofNat k
        batchCntWaitOnDeq := s.main.batchCntWaitOnDeq - k }
      tail := Function.update s.tail j ((s.tail j).drop k)
      collected := Function.update s.collected j (s.collected j ++ mbufs)
      freed := s.freed ++ mbufs }
  else
    { s with main := Main.finish { s.main with ringOutIndex := roundNext s.main.ringOutIndex } }

/-- One step of main or of a worker. -/
inductive LatencyStep (cfg : Config) : State W → State W → Prop
  | receive (s : State W) (burst : List Mbuf) :
      s.main.pc = .receive → burst.length ≤ defaultEthBatchSize → burst.Nodup →
      (∀ p ∈ burst, p ∉ s.received) → LatencyStep cfg s (s.receive burst)
  | inner (s : State W) : s.main.pc = .inner → LatencyStep cfg s (s.inner cfg)
  | enqueue (s : State W) (k : ℕ) :
      s.main.pc = .enqueue →
      (s.main.totEnq < s.main.batchCntEnq →
        cfg.ring.enq s.main.toEnq (s.head s.main.ringInIndex).length k) →
      LatencyStep cfg s (s.enqueue k)
  | aggregate (s : State W) (k : ℕ) :
      s.main.pc = .aggregate →
      (s.main.batchCntWaitOnDeq > 0 →
        cfg.ring.deq maxPktsBurst (s.tail s.main.ringOutIndex).length k) →
      LatencyStep cfg s (s.latencyAggregate k)
  | workerDequeue (s : State W) (j : Fin W) (k : ℕ) :
      (s.worker j).pc = .dequeue → cfg.ring.deq cfg.burstSize (s.head j).length k →
      LatencyStep cfg s (s.workerDequeue j k)
  | workerExec (s : State W) (j : Fin W) :
      (s.worker j).pc = .exec → LatencyStep cfg s (s.workerExec j)
  | workerEnqueue (s : State W) (j : Fin W) (k : ℕ) :
      (s.worker j).pc = .enqueue →
      (0 < (s.worker j).outNum →
        cfg.ring.enq (min (s.worker j).outNum cfg.burstSize) (s.tail j).length k) →
      LatencyStep cfg s (s.workerEnqueue j k)

/-- `s` occurs in some interleaving. -/
def LatencyReachable [NeZero W] (cfg : Config) (s : State W) : Prop :=
  Relation.ReflTransGen (LatencyStep cfg) (State.init W) s

/-! ## §2. No packet is lost. -/

section Flow

variable {s : State W}

/-- Main's counters may change as long as the slice that is pending does not. -/
theorem Flow.withMain (h : Flow s) {m : Main W} (hsane : m.Sane)
    (hpending : m.pending = s.main.pending) : Flow { s with main := m } where
  main := hsane
  worker := h.worker
  route := fun j => ⟨(h.route j).fifo, (h.route j).executed⟩
  accounts := ⟨h.accounts.nodup, fun p => (h.accounts.received p).trans (by rw [hpending]),
    h.accounts.freed⟩

theorem Flow.latencyAggregate (h : Flow s) (hpc : s.main.pc = .aggregate) (k : ℕ) :
    Flow (s.latencyAggregate k) := by
  have hpending := Main.pending_aggregate hpc
  unfold State.latencyAggregate
  split
  · -- the same packets move as in the normal build
    refine (h.aggregate hpc k).withMain ⟨h.main.sum, fun hp => ?_, fun hp => ?_⟩ ?_
    · exact absurd (hpc.symm.trans hp) (by decide)
    · exact absurd (hpc.symm.trans hp) (by decide)
    · refine (Main.pending_aggregate ?_).trans (Main.finish_pending _).symm
      exact hpc
  · refine h.withMain (Main.Sane.finish ⟨h.main.sum, fun hp => ?_, fun hp => ?_⟩) ?_
    · exact absurd (hpc.symm.trans hp) (by decide)
    · exact absurd (hpc.symm.trans hp) (by decide)
    · rw [Main.finish_pending, hpending]

theorem Flow.latencyStep {s' : State W} (h : Flow s) (hstep : LatencyStep cfg s s') : Flow s' := by
  cases hstep with
  | receive burst hpc _ hnodup hfresh => exact h.receive hpc hnodup hfresh
  | inner hpc => exact h.inner hpc cfg
  | enqueue k hpc hk => exact h.enqueue hpc fun hlt => cfg.ring.enq_le (hk hlt)
  | aggregate k hpc _ => exact h.latencyAggregate hpc k
  | workerDequeue j k hpc _ => exact h.workerDequeue hpc k
  | workerExec j hpc => exact h.workerExec hpc
  | workerEnqueue j k hpc hk =>
      exact h.workerEnqueue hpc fun hpos => (cfg.ring.enq_le (hk hpos)).trans (min_le_left _ _)

end Flow

theorem LatencyReachable.flow [NeZero W] {s : State W} (h : LatencyReachable cfg s) : Flow s :=
  ReflTransGen.invariant Flow (Flow.init W) (fun _ _ hx hs => hx.latencyStep hs) h

/-! ## §3. One pair of rings at a time. -/

/-- What main has dispatched to the head ring whose tail ring it polls next, and not collected. -/
def State.onRoute (s : State W) : List Mbuf :=
  (s.dispatched s.main.ringOutIndex).drop (s.collected s.main.ringOutIndex).length

/-- What main knows of the rings, in terms of what it has dispatched and collected. -/
structure LockStep (cfg : Config) (s : State W) : Prop where
  running : s.main.pc ≠ .overflow
  turn : s.main.ringInIndex
    = if s.main.pc = .aggregate then roundNext s.main.ringOutIndex else s.main.ringOutIndex
  others : ∀ i, i ≠ s.main.ringOutIndex → s.dispatched i = s.collected i
  order : s.received = s.freed ++ s.onRoute ++ s.main.pending
  wait : s.main.batchCntWaitOnDeq = s.onRoute.length + s.main.offered
  quiet : s.main.pc = .receive ∨ s.main.pc = .inner → s.onRoute = []
  slice : s.main.batchCntWaitOnDeq ≤ cfg.batchSizeIn
  burst : s.main.mbufIn.length ≤ defaultEthBatchSize
  waiting : 0 ≤ s.main.batchCntWaitOnEnq
  taken : s.main.pc = .aggregate → (s.main.batchCntEnq : ℤ) ≤ s.main.batchCntWaitOnEnq

theorem LockStep.init (W : ℕ) [NeZero W] (cfg : Config) : LockStep cfg (State.init W) where
  running := by simp [State.init]
  turn := rfl
  others := fun _ _ => rfl
  order := rfl
  wait := rfl
  quiet := fun _ => rfl
  slice := Int.natCast_nonneg _
  burst := Nat.zero_le _
  waiting := le_refl _
  taken := fun h => absurd h (by simp [State.init])

section Steps

variable {s : State W}

/-- A burst enqueue stores the entries behind those of the slice that are stored already. -/
theorem State.enqueue_stored (s : State W) (hlt : s.main.totEnq < s.main.batchCntEnq) (k : ℕ) :
    (s.enqueue k).main
        = { s.main with totEnq := s.main.totEnq + k, toEnq := s.main.toEnq - k }
      ∧ (s.enqueue k).dispatched = Function.update s.dispatched s.main.ringInIndex
          (s.dispatched s.main.ringInIndex
            ++ (s.main.mbufIn.drop (s.main.batchCntTotEnq + s.main.totEnq)).take k)
      ∧ (s.enqueue k).collected = s.collected ∧ (s.enqueue k).received = s.received
      ∧ (s.enqueue k).freed = s.freed := by
  unfold State.enqueue
  rw [if_pos hlt]
  exact ⟨rfl, rfl, rfl, rfl, rfl⟩

/-- A burst dequeue takes the front of the tail ring. -/
theorem State.latencyAggregate_poll (s : State W) (hpos : s.main.batchCntWaitOnDeq > 0) (k : ℕ) :
    (s.latencyAggregate k).main
        = { s.main with
            txBufCnt := s.main.txBufCnt + UInt64.ofNat k
            batchCntWaitOnDeq := s.main.batchCntWaitOnDeq - k }
      ∧ (s.latencyAggregate k).dispatched = s.dispatched
      ∧ (s.latencyAggregate k).collected = Function.update s.collected s.main.ringOutIndex
          (s.collected s.main.ringOutIndex ++ (s.tail s.main.ringOutIndex).take k)
      ∧ (s.latencyAggregate k).received = s.received
      ∧ (s.latencyAggregate k).freed = s.freed ++ (s.tail s.main.ringOutIndex).take k := by
  unfold State.latencyAggregate
  rw [if_pos hpos]
  exact ⟨rfl, rfl, rfl, rfl, rfl⟩

/-- Between the two rings of the pair, in the order of arrival. -/
theorem Flow.onRoute_eq (h : Flow s) :
    s.onRoute = s.tail s.main.ringOutIndex ++ (s.worker s.main.ringOutIndex).batch
      ++ s.head s.main.ringOutIndex := by
  unfold State.onRoute
  rw [(h.route s.main.ringOutIndex).fifo, List.append_assoc, List.append_assoc,
    List.drop_left, List.append_assoc]

/-- With nothing on the route, all that was dispatched has been collected. -/
theorem Flow.dispatched_eq (h : Flow s) (hempty : s.onRoute = []) :
    s.dispatched s.main.ringOutIndex = s.collected s.main.ringOutIndex := by
  have hsplit : s.dispatched s.main.ringOutIndex
      = s.collected s.main.ringOutIndex ++ s.onRoute := by
    rw [h.onRoute_eq, (h.route s.main.ringOutIndex).fifo, List.append_assoc, List.append_assoc,
      List.append_assoc]
  rw [hsplit, hempty, List.append_nil]

theorem LockStep.receive (h : LockStep cfg s) (hflow : Flow s) (hpc : s.main.pc = .receive)
    {burst : List Mbuf} (hlen : burst.length ≤ defaultEthBatchSize) :
    LockStep cfg (s.receive burst) := by
  have hempty := h.quiet (Or.inl hpc)
  have hwait := h.wait
  rw [hempty, Main.offered_eq_zero (by rw [hpc]; decide)] at hwait
  have hturn := h.turn
  rw [if_neg (by rw [hpc]; decide)] at hturn
  have horder := h.order
  rw [hempty, hflow.main.none_pending hpc] at horder
  unfold State.receive
  split
  · -- there is nothing to wait for
    rw [if_neg (by rw [hwait]; decide)]
    exact h
  · refine ⟨by simp, ?_, h.others, ?_, ?_, fun _ => hempty, h.slice, hlen, ?_,
      fun hp => absurd hp (by simp)⟩
    · rw [if_neg (by simp)]
      exact hturn
    · show s.received ++ burst = s.freed ++ s.onRoute ++ burst
      rw [horder, hempty]
      simp only [List.append_nil]
    · show s.main.batchCntWaitOnDeq = s.onRoute.length + ((0 : ℕ) : ℤ)
      rw [hwait, hempty]
    · exact Int.natCast_nonneg _

theorem LockStep.inner (h : LockStep cfg s) (hpc : s.main.pc = .inner) :
    LockStep cfg (s.inner cfg) := by
  have hempty := h.quiet (Or.inr hpc)
  have hwait := h.wait
  rw [hempty, Main.offered_eq_zero (by rw [hpc]; decide)] at hwait
  have hturn := h.turn
  rw [if_neg (by rw [hpc]; decide)] at hturn
  have horder := h.order
  rw [Main.pending_inner hpc] at horder
  unfold State.inner
  split
  · refine ⟨by simp, ?_, h.others, horder, ?_, fun hp => absurd hp (by simp), ?_, h.burst,
      h.waiting, fun hp => absurd hp (by simp)⟩
    · rw [if_neg (by simp)]
      exact hturn
    · -- the slice is offered, and none of it is on the route yet
      show s.main.batchCntWaitOnDeq
          + ((min cfg.batchSizeIn s.main.batchCntWaitOnEnq.toNat : ℕ) : ℤ)
        = s.onRoute.length + ((min cfg.batchSizeIn s.main.batchCntWaitOnEnq.toNat : ℕ) : ℤ)
      rw [hwait, hempty]
      rfl
    · show s.main.batchCntWaitOnDeq
          + ((min cfg.batchSizeIn s.main.batchCntWaitOnEnq.toNat : ℕ) : ℤ) ≤ cfg.batchSizeIn
      rw [hwait]
      simp only [List.length_nil]
      omega
  · refine ⟨by simp, ?_, h.others, horder, ?_, fun _ => hempty, h.slice, h.burst, h.waiting,
      fun hp => absurd hp (by simp)⟩
    · rw [if_neg (by simp)]
      exact hturn
    · show s.main.batchCntWaitOnDeq = s.onRoute.length + ((0 : ℕ) : ℤ)
      rw [hwait, hempty]

theorem LockStep.enqueue (h : LockStep cfg s) (hflow : Flow s) (hpc : s.main.pc = .enqueue)
    {k : ℕ} (hk : s.main.totEnq < s.main.batchCntEnq → k ≤ s.main.toEnq) :
    LockStep cfg (s.enqueue k) := by
  obtain ⟨hle, heq⟩ := hflow.main.enqueue hpc
  have hwait := h.wait
  rw [Main.offered_enqueue hpc] at hwait
  have hturn := h.turn
  rw [if_neg (by rw [hpc]; decide)] at hturn
  have horder := h.order
  rw [Main.pending_enqueue hpc] at horder
  by_cases hlt : s.main.totEnq < s.main.batchCntEnq
  · have hk' := hk hlt
    have hroom := hflow.main.offered_le hpc
    obtain ⟨hmain, hdispatched, hcollected, hreceived, hfreed⟩ := s.enqueue_stored hlt k
    set mbufs := (s.main.mbufIn.drop (s.main.batchCntTotEnq + s.main.totEnq)).take k with hmbufs
    have hlen : mbufs.length = k := by
      rw [hmbufs, List.length_take, List.length_drop]
      omega
    -- the slice goes to the ring that is polled next
    have hroute : (s.enqueue k).onRoute = s.onRoute ++ mbufs := by
      have hload := hflow.load_add s.main.ringOutIndex
      unfold State.onRoute
      rw [hmain, hdispatched, hcollected, hturn]
      dsimp only
      rw [Function.update_self, List.drop_append_of_le_length (by omega)]
    have hpc' : (s.enqueue k).main.pc = .enqueue := by
      rw [hmain]
      exact hpc
    refine ⟨by rw [hpc']; decide, ?_, ?_, ?_, ?_, fun hp => ?_, by rw [hmain]; exact h.slice,
      by rw [hmain]; exact h.burst, by rw [hmain]; exact h.waiting,
      fun hp => absurd (hpc'.symm.trans hp) (by decide)⟩
    · rw [if_neg (by rw [hpc']; decide), hmain]
      exact hturn
    · intro i hi
      rw [hmain] at hi
      rw [hdispatched, hcollected, hturn, Function.update_of_ne hi]
      exact h.others i hi
    · have hpending : (s.enqueue k).main.pending
          = s.main.mbufIn.drop (s.main.batchCntTotEnq + s.main.totEnq + k) := by
        rw [Main.pending_enqueue hpc', hmain, Nat.add_assoc]
      rw [hroute, hreceived, hfreed, hpending, horder, ← List.append_assoc s.freed,
        List.append_assoc _ mbufs, hmbufs, take_append_drop_add]
    · rw [hroute, List.length_append, hlen, Main.offered_enqueue hpc', hmain, hwait]
      push_cast [Nat.cast_sub hk']
      omega
    · rcases hp with hp | hp
      · exact absurd (hpc'.symm.trans hp) (by decide)
      · exact absurd (hpc'.symm.trans hp) (by decide)
  · unfold State.enqueue
    rw [if_neg hlt]
    -- the whole slice is on the route
    refine ⟨by simp, ?_, h.others, ?_, ?_, fun hp => absurd hp (by simp), h.slice, h.burst,
      h.waiting, fun _ => hle⟩
    · rw [if_pos rfl]
      show roundNext s.main.ringInIndex = roundNext s.main.ringOutIndex
      rw [hturn]
    · show s.received = s.freed ++ s.onRoute
        ++ s.main.mbufIn.drop (s.main.batchCntTotEnq + s.main.batchCntEnq)
      rw [horder, show s.main.totEnq = s.main.batchCntEnq by omega]
    · show s.main.batchCntWaitOnDeq = s.onRoute.length + ((0 : ℕ) : ℤ)
      omega

/-- A poll of the tail ring: the front of the route is collected. -/
theorem LockStep.poll (h : LockStep cfg s) (hflow : Flow s) (hpc : s.main.pc = .aggregate)
    (hpos : s.main.batchCntWaitOnDeq > 0) {k : ℕ} (hk : k ≤ (s.tail s.main.ringOutIndex).length) :
    LockStep cfg (s.latencyAggregate k) := by
  have hwait := h.wait
  rw [Main.offered_eq_zero (by rw [hpc]; decide)] at hwait
  have horder := h.order
  rw [Main.pending_aggregate hpc] at horder
  obtain ⟨hmain, hdispatched, hcollected, hreceived, hfreed⟩ := s.latencyAggregate_poll hpos k
  have hpc' : (s.latencyAggregate k).main.pc = .aggregate := by
    rw [hmain]
    exact hpc
  have hroute := hflow.onRoute_eq
  have hfront : (s.tail s.main.ringOutIndex).take k = s.onRoute.take k := by
    rw [hroute, List.append_assoc, List.take_append_of_le_length hk]
  have hrest : (s.latencyAggregate k).onRoute = s.onRoute.drop k := by
    unfold State.onRoute
    rw [hmain, hdispatched, hcollected, Function.update_self, List.length_append,
      List.length_take, Nat.min_eq_left hk, List.drop_drop]
  have hlong : k ≤ s.onRoute.length := by
    rw [hroute]
    simp only [List.length_append]
    omega
  refine ⟨by rw [hpc']; decide, ?_, ?_, ?_, ?_, fun hp => ?_, ?_, by rw [hmain]; exact h.burst,
    by rw [hmain]; exact h.waiting, fun _ => by rw [hmain]; exact h.taken hpc⟩
  · have hturn := h.turn
    rw [if_pos hpc] at hturn
    rw [if_pos hpc', hmain]
    exact hturn
  · intro i hi
    rw [hmain] at hi
    rw [hdispatched, hcollected, Function.update_of_ne hi]
    exact h.others i hi
  · have hpending : (s.latencyAggregate k).main.pending
        = s.main.mbufIn.drop (s.main.batchCntTotEnq + s.main.batchCntEnq) := by
      rw [Main.pending_aggregate hpc', hmain]
    rw [hrest, hpending, hreceived, hfreed, hfront, List.append_assoc s.freed,
      List.take_append_drop]
    exact horder
  · rw [hrest, List.length_drop, Main.offered_eq_zero (by rw [hpc']; decide), hmain]
    show s.main.batchCntWaitOnDeq - k = _
    push_cast [Nat.cast_sub hlong]
    omega
  · rcases hp with hp | hp
    · exact absurd (hpc'.symm.trans hp) (by decide)
    · exact absurd (hpc'.symm.trans hp) (by decide)
  · have hslice := h.slice
    rw [hmain]
    show s.main.batchCntWaitOnDeq - k ≤ cfg.batchSizeIn
    omega

/-- The end of the inner-inner loop: nothing is left on the route, and the next pair of rings is
empty as well. -/
theorem LockStep.moveOn (h : LockStep cfg s) (hflow : Flow s) (hpc : s.main.pc = .aggregate)
    (hzero : ¬ s.main.batchCntWaitOnDeq > 0) (k : ℕ) : LockStep cfg (s.latencyAggregate k) := by
  have hwait := h.wait
  rw [Main.offered_eq_zero (by rw [hpc]; decide)] at hwait
  have hturn := h.turn
  rw [if_pos hpc] at hturn
  have horder := h.order
  rw [Main.pending_aggregate hpc] at horder
  have htaken := h.taken hpc
  have hempty : s.onRoute = [] := List.length_eq_zero_iff.mp (by omega)
  have hall : ∀ i, s.dispatched i = s.collected i := by
    intro i
    by_cases hi : i = s.main.ringOutIndex
    · rw [hi]
      exact hflow.dispatched_eq hempty
    · exact h.others i hi
  have hstep : s.latencyAggregate k = { s with
      main := Main.finish { s.main with ringOutIndex := roundNext s.main.ringOutIndex } } :=
    if_neg hzero
  have hroute : (s.latencyAggregate k).onRoute = [] := by
    rw [hstep]
    show (s.dispatched _).drop (s.collected _).length = []
    rw [hall]
    exact List.drop_length
  have hpc' : (s.latencyAggregate k).main.pc = .inner := by
    rw [hstep]
    refine if_neg ?_
    have hsum := hflow.main.sum
    have hburst : s.main.mbufIn.length ≤ 64 := h.burst
    have hlow : intMin < 0 := by decide
    have hhigh : (64 : ℤ) < intMax := by decide
    push_cast
    omega
  refine ⟨by rw [hpc']; decide, ?_, ?_, ?_, ?_, fun _ => hroute, ?_, ?_, ?_,
    fun hp => absurd (hpc'.symm.trans hp) (by decide)⟩
  · rw [if_neg (by rw [hpc']; decide), hstep]
    exact hturn
  · intro i _
    rw [hstep]
    exact hall i
  · rw [hroute, hstep]
    show s.received = s.freed ++ [] ++ Main.pending (Main.finish _)
    rw [Main.finish_pending, horder, hempty]
  · rw [hroute, hstep]
    show s.main.batchCntWaitOnDeq = ((0 : ℕ) : ℤ) + ((Main.offered (Main.finish _) : ℕ) : ℤ)
    rw [Main.finish_offered, hwait, hempty]
    rfl
  · rw [hstep]
    exact h.slice
  · rw [hstep]
    exact h.burst
  · rw [hstep]
    show 0 ≤ s.main.batchCntWaitOnEnq - s.main.batchCntEnq
    omega

theorem LockStep.of_worker {s' : State W} (h : LockStep cfg s) (hsame : SameMain s s') :
    LockStep cfg s' := by
  have hroute : s'.onRoute = s.onRoute := by
    unfold State.onRoute
    rw [hsame.main, hsame.dispatched, hsame.collected]
  constructor
  · rw [hsame.main]
    exact h.running
  · rw [hsame.main]
    exact h.turn
  · rw [hsame.main, hsame.dispatched, hsame.collected]
    exact h.others
  · rw [hsame.received, hsame.freed, hroute, hsame.main]
    exact h.order
  · rw [hsame.main, hroute]
    exact h.wait
  · rw [hsame.main, hroute]
    exact h.quiet
  · rw [hsame.main]
    exact h.slice
  · rw [hsame.main]
    exact h.burst
  · rw [hsame.main]
    exact h.waiting
  · rw [hsame.main]
    exact h.taken

/-- **Every step keeps main and its rings in step.** -/
theorem LockStep.step {s' : State W} (h : LockStep cfg s) (hflow : Flow s)
    (hstep : LatencyStep cfg s s') : LockStep cfg s' := by
  cases hstep with
  | receive burst hpc hlen _ _ => exact h.receive hflow hpc hlen
  | inner hpc => exact h.inner hpc
  | enqueue k hpc hk => exact h.enqueue hflow hpc fun hlt => cfg.ring.enq_le (hk hlt)
  | aggregate k hpc hk =>
      by_cases hpos : s.main.batchCntWaitOnDeq > 0
      · exact h.poll hflow hpc hpos (cfg.ring.deq_le (hk hpos)).2
      · exact h.moveOn hflow hpc hpos k
  | workerDequeue j k _ _ => exact h.of_worker (sameMain_workerDequeue s j k)
  | workerExec j _ => exact h.of_worker (sameMain_workerExec s j)
  | workerEnqueue j k _ _ => exact h.of_worker (sameMain_workerEnqueue s j k)

end Steps

theorem LatencyReachable.lockStep [NeZero W] {s : State W} (h : LatencyReachable cfg s) :
    LockStep cfg s :=
  ReflTransGen.invariant_reachable (LockStep cfg) (LockStep.init W cfg)
    (fun _ _ hreach hx hs => hx.step (LatencyReachable.flow hreach) hs) h

/-! ## §4. Every interleaving. -/

/-- **Latency mode releases packets in the order of their arrival**, with any number of workers.
What was received is what was freed, then the tail ring, the batch and the head ring of the pair
that main polls, then the pending slice; all other rings and workers are empty, and at most
`batch_size_in` packets are inside the pipeline.  Before every receive the pipeline is empty, so
`batch_cnt_wait_on_deq` is zero; and main's counters never overflow. -/
theorem latencyMode_inOrder [NeZero W] {s : State W} (h : LatencyReachable cfg s) :
    s.received = s.freed ++ (s.tail s.main.ringOutIndex ++ (s.worker s.main.ringOutIndex).batch
        ++ s.head s.main.ringOutIndex) ++ s.main.pending
      ∧ (∀ i, i ≠ s.main.ringOutIndex →
          s.head i = [] ∧ (s.worker i).batch = [] ∧ s.tail i = [])
      ∧ s.inFlight ≤ cfg.batchSizeIn
      ∧ (s.main.pc = .receive → s.freed = s.received ∧ s.main.batchCntWaitOnDeq = 0)
      ∧ s.main.pc ≠ .overflow := by
  have hflow := h.flow
  have hlock := h.lockStep
  have hothers : ∀ i, i ≠ s.main.ringOutIndex → s.load i = 0 := by
    intro i hi
    have hload := hflow.load_add i
    rw [hlock.others i hi] at hload
    omega
  refine ⟨?_, fun i hi => State.load_eq_zero_iff.mp (hothers i hi), ?_, ?_, hlock.running⟩
  · rw [← hflow.onRoute_eq]
    exact hlock.order
  · have hone : s.inFlight = s.load s.main.ringOutIndex :=
      Finset.sum_eq_single_of_mem _ (Finset.mem_univ _) fun i _ hi => hothers i hi
    have hload : s.load s.main.ringOutIndex = s.onRoute.length := by
      rw [hflow.onRoute_eq]
      simp only [List.length_append, State.load]
      omega
    have hwait := hlock.wait
    have hslice := hlock.slice
    omega
  · intro hpc
    have hempty := hlock.quiet (Or.inl hpc)
    have horder := hlock.order
    have hwait := hlock.wait
    rw [hempty, hflow.main.none_pending hpc] at horder
    rw [hempty, Main.offered_eq_zero (by rw [hpc]; decide)] at hwait
    simp only [List.append_nil] at horder
    exact ⟨horder.symm, hwait⟩

/-- Slices of one packet, the `DEFAULT_BATCH_SIZE` of this build. -/
def perPacket : Config where
  batchSizeIn := 1
  burstSize := 1
  ring := atomicMin (ringSize - 1)

/-- Packet 7 has been through ring pair 0, packet 8 is on head ring 1. -/
def onePair (W : ℕ) [NeZero W] : State W :=
  State.init W |>.receive [7, 8] |>.inner perPacket |>.enqueue 1 |>.enqueue 0
    |>.workerDequeue 0 1 |>.workerExec 0 |>.workerExec 0 |>.workerEnqueue 0 1
    |>.latencyAggregate 1 |>.latencyAggregate 0 |>.inner perPacket |>.enqueue 1

theorem onePair_reachable : LatencyReachable perPacket (onePair 2) :=
  Relation.ReflTransGen.refl
    |>.tail (.receive _ [7, 8] rfl (by decide) (by decide) (by decide))
    |>.tail (.inner _ rfl)
    |>.tail (.enqueue _ 1 rfl fun _ => rfl)
    |>.tail (.enqueue _ 0 rfl fun h => absurd h (by decide))
    |>.tail (.workerDequeue _ 0 1 rfl rfl)
    |>.tail (.workerExec _ 0 rfl)
    |>.tail (.workerExec _ 0 rfl)
    |>.tail (.workerEnqueue _ 0 1 rfl fun _ => rfl)
    |>.tail (.aggregate _ 1 rfl fun _ => rfl)
    |>.tail (.aggregate _ 0 rfl fun h => absurd h (by decide))
    |>.tail (.inner _ rfl)
    |>.tail (.enqueue _ 1 rfl fun _ => rfl)

/-- Packet 7 is freed, packet 8 is next, and nothing else is inside the pipeline. -/
theorem onePair_inOrder :
    (onePair 2).freed = [7] ∧ (onePair 2).head 1 = [8]
      ∧ (onePair 2).received = (onePair 2).freed
        ++ ((onePair 2).tail 1 ++ ((onePair 2).worker 1).batch ++ (onePair 2).head 1)
        ++ (onePair 2).main.pending
      ∧ (onePair 2).inFlight ≤ 1 :=
  have h := latencyMode_inOrder onePair_reachable
  ⟨rfl, rfl, h.1, h.2.2.1⟩

end Meili.DataPlane
