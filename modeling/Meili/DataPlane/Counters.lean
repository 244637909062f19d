/-
  Meili.DataPlane.Counters — main's counters say what is inside the pipeline.

  `batch_cnt_wait_on_deq` is raised by a whole slice before the slice is
  enqueued, and lowered at `aggregate_packets`, on the normal pass and on the
  `goto` of an idle poll alike.  The invariant (`Counters`) therefore counts
  what main still offers beside what is between the rings.  What is between
  them is dispatched and not collected, so a step of a worker leaves it alone.
-/
import Mathlib.Algebra.BigOperators.Group.Finset.Defs
import Meili.DataPlane.Conservation

namespace Meili.DataPlane

open Meili.Lib

variable {W : ℕ}

/-! ## §1. What is in flight. -/

section InFlight

variable {s : State W}

/-- A ring pair holds what was dispatched and not collected. -/
theorem Flow.load_add (h : Flow s) (j : Fin W) :
    s.load j + (s.collected j).length = (s.dispatched j).length := by
  rw [(h.route j).fifo]
  simp only [List.length_append, State.load]
  omega

theorem Flow.inFlight_add (h : Flow s) :
    s.inFlight + ∑ j, (s.collected j).length = ∑ j, (s.dispatched j).length := by
  unfold State.inFlight
  rw [← Finset.sum_add_distrib]
  exact Finset.sum_congr rfl fun j _ => h.load_add j

theorem Flow.freed_length (h : Flow s) : s.freed.length = ∑ j, (s.collected j).length := by
  -- equal counts of every packet make equal multisets
  have heq : (s.freed : Multiset Mbuf) = ∑ j, (s.collected j : Multiset Mbuf) := by
    ext p
    rw [Multiset.count_sum', Multiset.coe_count, h.accounts.freed p]
    exact Finset.sum_congr rfl fun j _ => (Multiset.coe_count p _).symm
  have hcard := congrArg Multiset.card heq
  rw [Multiset.card_sum, Multiset.coe_card] at hcard
  exact hcard

theorem Flow.received_length (h : Flow s) :
    s.received.length = s.main.pending.length + ∑ j, (s.dispatched j).length := by
  have heq : (s.received : Multiset Mbuf)
      = (s.main.pending : Multiset Mbuf) + ∑ j, (s.dispatched j : Multiset Mbuf) := by
    ext p
    rw [Multiset.count_add, Multiset.count_sum', Multiset.coe_count, Multiset.coe_count,
      h.accounts.received p]
    congr 1
    exact Finset.sum_congr rfl fun j _ => (Multiset.coe_count p _).symm
  have hcard := congrArg Multiset.card heq
  rw [Multiset.card_add, Multiset.card_sum, Multiset.coe_card, Multiset.coe_card] at hcard
  exact hcard

/-- What was received and not freed is pending or in flight. -/
theorem Flow.received_eq (h : Flow s) :
    s.received.length = s.freed.length + s.main.pending.length + s.inFlight := by
  have hin := h.inFlight_add
  have hfreed := h.freed_length
  have hrec := h.received_length
  omega

theorem State.load_eq_zero_iff {j : Fin W} :
    s.load j = 0 ↔ s.head j = [] ∧ (s.worker j).batch = [] ∧ s.tail j = [] := by
  unfold State.load
  rw [Nat.add_eq_zero_iff, Nat.add_eq_zero_iff, List.length_eq_zero_iff, List.length_eq_zero_iff,
    List.length_eq_zero_iff, and_assoc]

theorem State.inFlight_eq_zero_iff :
    s.inFlight = 0 ↔ ∀ j, s.head j = [] ∧ (s.worker j).batch = [] ∧ s.tail j = [] := by
  unfold State.inFlight
  rw [Finset.sum_eq_zero_iff]
  constructor
  · intro h j
    exact State.load_eq_zero_iff.mp (h j (Finset.mem_univ j))
  · intro h j _
    exact State.load_eq_zero_iff.mpr (h j)

end InFlight

/-! ## §2. The invariant of the counters. -/

/-- What main has counted as waiting and not stored in a head ring yet. -/
def Main.offered (m : Main W) : ℕ :=
  match m.pc with
  | .enqueue => m.toEnq
  | _ => 0

theorem Main.offered_enqueue {m : Main W} (hpc : m.pc = .enqueue) : m.offered = m.toEnq := by
  unfold Main.offered
  rw [hpc]

theorem Main.offered_eq_zero {m : Main W} (hpc : m.pc ≠ .enqueue) : m.offered = 0 := by
  unfold Main.offered
  split
  next henq => exact absurd henq hpc
  next => rfl

/-- Main's counters, in terms of what happened so far. -/
structure Counters (s : State W) : Prop where
  wait : s.main.batchCntWaitOnDeq + (∑ j, (s.collected j).length : ℕ)
    = (∑ j, (s.dispatched j).length : ℕ) + s.main.offered
  rx : s.main.rxBufCnt = UInt64.ofNat s.received.length
  tx : s.main.txBufCnt = UInt64.ofNat s.freed.length

theorem Counters.init (W : ℕ) [NeZero W] : Counters (State.init W) :=
  ⟨by simp [State.init, Main.offered], rfl, rfl⟩

/-! ## §3. Steps. -/

theorem Main.finish_offered (m : Main W) : m.finish.offered = 0 :=
  Main.offered_eq_zero (m.finish_pc_ne (by decide) (by decide))

section Steps

variable {s : State W}

theorem Counters.receive (h : Counters s) (hpc : s.main.pc = .receive) (burst : List Mbuf) :
    Counters (s.receive burst) := by
  have hwait := h.wait
  rw [Main.offered_eq_zero (by rw [hpc]; decide)] at hwait
  unfold State.receive
  split
  · split
    · exact ⟨hwait, h.rx, h.tx⟩
    · exact h
  · refine ⟨hwait, ?_, h.tx⟩
    -- both counts wrap alike
    show s.main.rxBufCnt + UInt64.ofNat burst.length = UInt64.ofNat (s.received ++ burst).length
    rw [List.length_append, UInt64.ofNat_add, h.rx]

theorem Counters.inner (h : Counters s) (hpc : s.main.pc = .inner) (cfg : Config) :
    Counters (s.inner cfg) := by
  have hwait := h.wait
  rw [Main.offered_eq_zero (by rw [hpc]; decide)] at hwait
  unfold State.inner
  split
  · -- the slice is counted before it is enqueued
    refine ⟨?_, h.rx, h.tx⟩
    show s.main.batchCntWaitOnDeq + (min cfg.batchSizeIn s.main.batchCntWaitOnEnq.toNat : ℕ)
        + (∑ j, (s.collected j).length : ℕ)
      = (∑ j, (s.dispatched j).length : ℕ)
        + (min cfg.batchSizeIn s.main.batchCntWaitOnEnq.toNat : ℕ)
    omega
  · exact ⟨hwait, h.rx, h.tx⟩

theorem Counters.enqueue (h : Counters s) (hflow : Flow s) (hpc : s.main.pc = .enqueue) {k : ℕ}
    (hk : s.main.totEnq < s.main.batchCntEnq → k ≤ s.main.toEnq) : Counters (s.enqueue k) := by
  obtain ⟨hle, heq⟩ := hflow.main.enqueue hpc
  have hwait := h.wait
  rw [Main.offered_enqueue hpc] at hwait
  unfold State.enqueue
  split
  next hlt =>
    have hk' := hk hlt
    have hroom := hflow.main.offered_le hpc
    -- the offered slice lies in `mbuf_in`, so all `k` entries are there
    have hlen : ((s.main.mbufIn.drop (s.main.batchCntTotEnq + s.main.totEnq)).take k).length
        = k := by
      rw [List.length_take, List.length_drop]
      omega
    refine ⟨?_, h.rx, h.tx⟩
    dsimp only
    rw [sum_update_append List.length fun _ _ => List.length_append, hlen]
    simp only [Main.offered, hpc]
    push_cast [Nat.cast_sub hk'] at hwait ⊢
    omega
  next hge =>
    -- the loop ends with the whole slice stored
    have hzero : s.main.toEnq = 0 := by omega
    rw [hzero] at hwait
    exact ⟨hwait, h.rx, h.tx⟩

theorem Counters.aggregate (h : Counters s) (hpc : s.main.pc = .aggregate) {k : ℕ}
    (hk : k ≤ (s.tail s.main.ringOutIndex).length) : Counters (s.aggregate k) := by
  have hwait := h.wait
  rw [Main.offered_eq_zero (by rw [hpc]; decide)] at hwait
  -- a burst dequeue takes what is there
  have hlen : ((s.tail s.main.ringOutIndex).take k).length = k := by
    rw [List.length_take]
    omega
  have hcoll : ∑ i, ((s.aggregate k).collected i).length = ∑ i, (s.collected i).length + k := by
    show ∑ i, (Function.update s.collected _ _ i).length = _
    rw [sum_update_append List.length fun _ _ => List.length_append, hlen]
  refine ⟨?_, h.rx, ?_⟩
  · rw [hcoll]
    show (s.main.batchCntWaitOnDeq - k) + ((∑ j, (s.collected j).length + k : ℕ) : ℤ)
      = (∑ j, (s.dispatched j).length : ℕ) + (Main.finish _).offered
    rw [Main.finish_offered]
    push_cast at hwait ⊢
    omega
  · show s.main.txBufCnt + UInt64.ofNat k
      = UInt64.ofNat (s.freed ++ (s.tail s.main.ringOutIndex).take k).length
    rw [List.length_append, hlen, UInt64.ofNat_add, h.tx]

theorem Counters.of_worker {s' : State W} (h : Counters s) (hsame : SameMain s s') :
    Counters s' := by
  constructor
  · rw [hsame.main, hsame.dispatched, hsame.collected]
    exact h.wait
  · rw [hsame.main, hsame.received]
    exact h.rx
  · rw [hsame.main, hsame.freed]
    exact h.tx

/-- **Every step keeps the counters exact.** -/
theorem Counters.step {cfg : Config} {s' : State W} (h : Counters s) (hflow : Flow s)
    (hstep : Step cfg s s') : Counters s' := by
  cases hstep with
  | receive burst hpc hlen hnodup hfresh => exact h.receive hpc burst
  | inner hpc => exact h.inner hpc cfg
  | enqueue k hpc hk => exact h.enqueue hflow hpc fun hlt => cfg.ring.enq_le (hk hlt)
  | aggregate k hpc hk => exact h.aggregate hpc (cfg.ring.deq_le hk).2
  | workerDequeue j k hpc hk => exact h.of_worker (sameMain_workerDequeue s j k)
  | workerExec j hpc => exact h.of_worker (sameMain_workerExec s j)
  | workerEnqueue j k hpc hk => exact h.of_worker (sameMain_workerEnqueue s j k)

end Steps

/-! ## §4. Every interleaving. -/

theorem Reachable.counters [NeZero W] {cfg : Config} {s : State W} (h : Reachable cfg s) :
    Counters s :=
  ReflTransGen.invariant_reachable Counters (Counters.init W)
    (fun _ _ hreach hx hs => hx.step (Reachable.flow hreach) hs) h

/-- Outside the enqueue loop, what waits to be dequeued is what is in flight. -/
theorem Counters.wait_eq {s : State W} (h : Counters s) (hflow : Flow s)
    (hpc : s.main.pc ≠ .enqueue) : s.main.batchCntWaitOnDeq = s.inFlight := by
  have hwait := h.wait
  have hin := hflow.inFlight_add
  rw [Main.offered_eq_zero hpc] at hwait
  omega

theorem uint64_ofInt_natCast (n : ℕ) : UInt64.ofInt n = UInt64.ofNat n := by
  have hmod : ((n : ℤ) % 2 ^ 64).toNat = n % 2 ^ 64 := by omega
  unfold UInt64.ofInt
  rw [hmod, UInt64.ofNat_mod_size]

/-- **The in-flight counter is exact.**  At the top of the outer loop
`batch_cnt_wait_on_deq` is the number of packets in the head rings, the workers'
batches and the tail rings; it is `rx_buf_cnt - tx_buf_cnt`, as unsigned 64-bit
numbers and, before the first of them wraps around, as integers; it is not
negative; and when an idle receive leaves main where it is, the pipeline is
empty. -/
theorem waitOnDeq_eq_inFlight [NeZero W] {cfg : Config} {s : State W} (h : Reachable cfg s)
    (hpc : s.main.pc = .receive) :
    s.main.batchCntWaitOnDeq = s.inFlight
      ∧ UInt64.ofInt s.main.batchCntWaitOnDeq = s.main.rxBufCnt - s.main.txBufCnt
      ∧ (s.received.length < 2 ^ 64 →
          s.main.batchCntWaitOnDeq = s.main.rxBufCnt.toNat - s.main.txBufCnt.toNat)
      ∧ 0 ≤ s.main.batchCntWaitOnDeq
      ∧ (s.receive [] = s →
          ∀ j, s.head j = [] ∧ (s.worker j).batch = [] ∧ s.tail j = []) := by
  have hflow := h.flow
  have hcnt := h.counters
  have hwait := hcnt.wait_eq hflow (by rw [hpc]; decide)
  have htotal := hflow.received_eq
  rw [hflow.main.none_pending hpc] at htotal
  have hsub : s.inFlight = s.received.length - s.freed.length := by
    rw [List.length_nil] at htotal
    omega
  refine ⟨hwait, ?_, ?_, ?_, ?_⟩
  · rw [hwait, hcnt.rx, hcnt.tx, hsub, uint64_ofInt_natCast,
      UInt64.ofNat_sub (by omega)]
  · intro hlt
    have hle : s.freed.length < UInt64.size := by
      show s.freed.length < 2 ^ 64
      omega
    rw [hwait, hcnt.rx, hcnt.tx, UInt64.toNat_ofNat_of_lt' hlt, UInt64.toNat_ofNat_of_lt' hle]
    omega
  · rw [hwait]
    exact Int.natCast_nonneg _
  · intro hidle
    refine State.inFlight_eq_zero_iff.mp ?_
    by_contra hne
    -- with packets in flight an idle receive goes to `aggregate_packets`
    have hgo : (s.receive []).main.pc = .aggregate := by
      unfold State.receive
      rw [if_pos (List.length_nil), if_pos (by omega)]
    rw [hidle, hpc] at hgo
    exact absurd hgo (by decide)

/-- One packet has come out, the other is on tail ring 0. -/
theorem twoPackets_counts :
    (twoPackets 2).main.batchCntWaitOnDeq = 1 ∧ (twoPackets 2).inFlight = 1
      ∧ (twoPackets 2).main.batchCntWaitOnDeq = (twoPackets 2).inFlight
      ∧ UInt64.ofInt (twoPackets 2).main.batchCntWaitOnDeq
          = (twoPackets 2).main.rxBufCnt - (twoPackets 2).main.txBufCnt :=
  have h := waitOnDeq_eq_inFlight twoPackets_reachable rfl
  ⟨rfl, rfl, h.1, h.2.1⟩

end Meili.DataPlane
