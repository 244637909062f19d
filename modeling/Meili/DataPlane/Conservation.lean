/-
  Meili.DataPlane.Conservation — no packet is lost or duplicated on its way.

  Every ring pair is a FIFO route: what main has dispatched to head ring `j`
  is, in order, what it has collected from tail ring `j`, then the tail ring,
  then the batch of worker `j`, then the head ring (`Route`).  Main's pending
  slice and the dispatched packets are what was received, the collected ones
  what was freed (`Accounts`).  The offsets of partial burst enqueues are in
  `Main.Sane` and `Worker.Sane`; the sum in the first also holds after an idle
  poll, where the counters of the previous burst are moved once more.
-/
import Mathlib.Algebra.Order.BigOperators.Group.Finset
import Meili.DataPlane.Model
import Meili.Lib.Runs

namespace Meili.DataPlane

open Meili.Lib

variable {W : ℕ}

/-! ## §1. The offsets of main and of a worker. -/

/-- A burst of `k` taken at offset `a`, and what is left behind it. -/
theorem take_append_drop_add {α : Type*} (l : List α) (a k : ℕ) :
    (l.drop a).take k ++ l.drop (a + k) = l.drop a := by
  rw [← List.drop_drop, List.take_append_drop]

/-- What holds of main's counters. -/
structure Main.Sane (m : Main W) : Prop where
  sum : (m.batchCntTotEnq : ℤ) + m.batchCntWaitOnEnq = m.mbufIn.length
  receive : m.pc = .receive → m.batchCntWaitOnEnq ≤ 0
  enqueue : m.pc = .enqueue →
    (m.batchCntEnq : ℤ) ≤ m.batchCntWaitOnEnq ∧ m.totEnq + m.toEnq = m.batchCntEnq

/-- What holds of a worker's counters. -/
structure Worker.Sane (w : Worker) : Prop where
  dequeue : w.pc = .dequeue → w.outNum = 0
  exec : w.pc = .exec → w.i ≤ w.mbufsIn.length ∧ w.mbufsOut = w.mbufsIn.take w.i ∧ w.outNum = w.i
  enqueue : w.pc = .enqueue → w.totEnq + w.outNum = w.mbufsOut.length

/-- At the top of the outer loop nothing is pending. -/
theorem Main.Sane.none_pending {m : Main W} (h : m.Sane) (hpc : m.pc = .receive) :
    m.pending = [] := by
  have hsum := h.sum
  have hwait := h.receive hpc
  rw [Main.pending_receive hpc]
  exact List.drop_of_length_le (by omega)

/-- In the enqueue loop the slice main offers is pending. -/
theorem Main.Sane.offered_le {m : Main W} (h : m.Sane) (hpc : m.pc = .enqueue) :
    m.batchCntTotEnq + m.totEnq + m.toEnq ≤ m.mbufIn.length := by
  have hsum := h.sum
  obtain ⟨hle, heq⟩ := h.enqueue hpc
  omega

/-- Behind `finish_pipeline_batch` comes the test of the inner loop. -/
theorem Main.finish_pc (m : Main W) : m.finish.pc = .overflow ∨ m.finish.pc = .inner := by
  show (if _ then MainPc.overflow else MainPc.inner) = _
    ∨ (if _ then MainPc.overflow else MainPc.inner) = _
  split
  · exact Or.inl rfl
  · exact Or.inr rfl

theorem Main.finish_pc_ne (m : Main W) {pc : MainPc} (hover : pc ≠ .overflow)
    (hinner : pc ≠ .inner) : m.finish.pc ≠ pc := by
  intro hpc
  rcases m.finish_pc with hp | hp
  · exact hover (hpc.symm.trans hp)
  · exact hinner (hpc.symm.trans hp)

/-- `finish_pipeline_batch` keeps the sum of the two counters. -/
theorem Main.Sane.finish {m : Main W} (h : m.Sane) : m.finish.Sane where
  sum := by
    have hsum := h.sum
    show ((m.batchCntTotEnq + m.batchCntEnq : ℕ) : ℤ)
      + (m.batchCntWaitOnEnq - m.batchCntEnq) = m.mbufIn.length
    push_cast
    omega
  receive := fun hpc => absurd hpc (m.finish_pc_ne (by decide) (by decide))
  enqueue := fun hpc => absurd hpc (m.finish_pc_ne (by decide) (by decide))

theorem Main.finish_pending (m : Main W) :
    m.finish.pending = m.mbufIn.drop (m.batchCntTotEnq + m.batchCntEnq) := by
  unfold Main.pending
  rcases m.finish_pc with hpc | hpc
  · rw [hpc]
    rfl
  · rw [hpc]
    rfl

/-! ## §2. The invariant. -/

/-- The route of ring pair `j` is a FIFO, and worker `j` has processed its part
of it in order. -/
structure Route (s : State W) (j : Fin W) : Prop where
  fifo : s.dispatched j = s.collected j ++ s.tail j ++ (s.worker j).batch ++ s.head j
  executed : s.executed j = s.collected j ++ s.tail j ++ (s.worker j).processed

/-- Received packets are pending or dispatched, freed ones were collected. -/
structure Accounts (s : State W) : Prop where
  nodup : s.received.Nodup
  received : ∀ p, s.received.count p = s.main.pending.count p + ∑ j, (s.dispatched j).count p
  freed : ∀ p, s.freed.count p = ∑ j, (s.collected j).count p

/-- The invariant of the data plane. -/
structure Flow (s : State W) : Prop where
  main : s.main.Sane
  worker : ∀ j, (s.worker j).Sane
  route : ∀ j, Route s j
  accounts : Accounts s

theorem Flow.init (W : ℕ) [NeZero W] : Flow (State.init W) where
  main := ⟨rfl, fun _ => le_refl 0, fun h => absurd h (by simp [State.init])⟩
  worker := fun _ => ⟨fun _ => rfl, fun h => absurd h (by simp [State.init]),
    fun h => absurd h (by simp [State.init])⟩
  route := fun _ => ⟨rfl, rfl⟩
  accounts := ⟨List.nodup_nil, fun p => by simp [State.init, Main.pending],
    fun p => by simp [State.init]⟩

/-! ## §3. Steps of main. -/

section MainSteps

variable {s : State W}

theorem Flow.receive (h : Flow s) (hpc : s.main.pc = .receive) {burst : List Mbuf}
    (hnodup : burst.Nodup) (hfresh : ∀ p ∈ burst, p ∉ s.received) : Flow (s.receive burst) := by
  have hnone := h.main.none_pending hpc
  have hsum := h.main.sum
  have hwait := h.main.receive hpc
  unfold State.receive
  split
  · split
    · -- idle poll: main goes for the tail ring with the counters as they are
      refine ⟨⟨hsum, fun hp => absurd hp (by simp), fun hp => absurd hp (by simp)⟩, h.worker,
        fun j => ⟨(h.route j).fifo, (h.route j).executed⟩, h.accounts.nodup, ?_, h.accounts.freed⟩
      intro p
      rw [h.accounts.received p, hnone]
      have hempty : s.main.mbufIn.drop (s.main.batchCntTotEnq + s.main.batchCntEnq) = [] :=
        List.drop_of_length_le (by omega)
      simp only [Main.pending, hempty]
    · exact h
  · refine ⟨⟨?_, fun hp => absurd hp (by simp), fun hp => absurd hp (by simp)⟩, h.worker,
      fun j => ⟨(h.route j).fifo, (h.route j).executed⟩, ?_, ?_, h.accounts.freed⟩
    · -- a new burst: the counters start over
      show ((0 : ℕ) : ℤ) + _ = _
      simp
    · -- the device hands out what was not received before
      refine List.nodup_append.mpr ⟨h.accounts.nodup, hnodup, ?_⟩
      rintro a ha b hb rfl
      exact hfresh a hb ha
    · intro p
      show (s.received ++ burst).count p = _
      rw [List.count_append, h.accounts.received p, hnone]
      simp only [Main.pending, List.drop_zero, List.count_nil]
      omega

theorem Flow.inner (h : Flow s) (hpc : s.main.pc = .inner) (cfg : Config) :
    Flow (s.inner cfg) := by
  have hsum := h.main.sum
  have hpending := Main.pending_inner hpc
  unfold State.inner
  split
  next hpos =>
    refine ⟨⟨hsum, fun hp => absurd hp (by simp), fun _ => ⟨?_, Nat.zero_add _⟩⟩, h.worker,
      fun j => ⟨(h.route j).fifo, (h.route j).executed⟩, h.accounts.nodup, ?_, h.accounts.freed⟩
    · show ((min cfg.batchSizeIn s.main.batchCntWaitOnEnq.toNat : ℕ) : ℤ)
        ≤ s.main.batchCntWaitOnEnq
      omega
    · intro p
      rw [h.accounts.received p, hpending]
      simp only [Main.pending, Nat.add_zero]
  next hle =>
    refine ⟨⟨hsum, fun _ => by show s.main.batchCntWaitOnEnq ≤ 0; omega,
      fun hp => absurd hp (by simp)⟩, h.worker,
      fun j => ⟨(h.route j).fifo, (h.route j).executed⟩, h.accounts.nodup, ?_, h.accounts.freed⟩
    intro p
    rw [h.accounts.received p, hpending]
    rfl

theorem Flow.enqueue (h : Flow s) (hpc : s.main.pc = .enqueue) {k : ℕ}
    (hk : s.main.totEnq < s.main.batchCntEnq → k ≤ s.main.toEnq) : Flow (s.enqueue k) := by
  obtain ⟨hle, heq⟩ := h.main.enqueue hpc
  have hpending := Main.pending_enqueue hpc
  unfold State.enqueue
  split
  next hlt =>
    have hk' := hk hlt
    refine ⟨⟨h.main.sum, fun hp => absurd (hpc.symm.trans hp) (by decide), fun _ => ⟨hle, ?_⟩⟩,
      h.worker, ?_, h.accounts.nodup, ?_, h.accounts.freed⟩
    · show s.main.totEnq + k + (s.main.toEnq - k) = s.main.batchCntEnq
      omega
    · intro j
      refine ⟨?_, (h.route j).executed⟩
      have hfifo := (h.route j).fifo
      by_cases hj : j = s.main.ringInIndex
      · subst hj
        simp only [Function.update_self]
        -- behind what is on the head ring already
        rw [hfifo, List.append_assoc]
      · simp only [Function.update_of_ne hj]
        exact hfifo
    · intro p
      -- the entries stored leave the pending slice
      have hsplit : s.main.pending.count p
          = ((s.main.mbufIn.drop (s.main.batchCntTotEnq + s.main.totEnq)).take k).count p
            + (s.main.mbufIn.drop (s.main.batchCntTotEnq + (s.main.totEnq + k))).count p := by
        rw [hpending, ← List.count_append, ← Nat.add_assoc, take_append_drop_add]
      have hrec := h.accounts.received p
      dsimp only
      rw [sum_update_append (List.count p) fun _ _ => List.count_append]
      simp only [Main.pending, hpc]
      omega
  next hge =>
    refine ⟨⟨h.main.sum, fun hp => absurd hp (by simp), fun hp => absurd hp (by simp)⟩, h.worker,
      fun j => ⟨(h.route j).fifo, (h.route j).executed⟩, h.accounts.nodup, ?_, h.accounts.freed⟩
    intro p
    rw [h.accounts.received p, hpending]
    simp only [Main.pending]
    rw [show s.main.totEnq = s.main.batchCntEnq by omega]

theorem Flow.aggregate (h : Flow s) (hpc : s.main.pc = .aggregate) (k : ℕ) :
    Flow (s.aggregate k) := by
  have hmain : (s.aggregate k).main.pending = s.main.pending := by
    rw [Main.pending_aggregate hpc]
    exact Main.finish_pending _
  refine ⟨?_, h.worker, ?_, h.accounts.nodup, ?_, ?_⟩
  · refine Main.Sane.finish ⟨h.main.sum, fun hp => ?_, fun hp => ?_⟩
    · exact absurd (hpc.symm.trans hp) (by decide)
    · exact absurd (hpc.symm.trans hp) (by decide)
  · intro j
    have hroute := h.route j
    by_cases hj : j = s.main.ringOutIndex
    · subst hj
      constructor
      · -- the front of the tail ring becomes the end of what was collected
        show s.dispatched _ = Function.update s.collected _ _ _ ++ Function.update s.tail _ _ _
          ++ (s.worker _).batch ++ s.head _
        rw [Function.update_self, Function.update_self, hroute.fifo,
          List.append_assoc (s.collected _) (List.take k _), List.take_append_drop]
      · show s.executed _ = Function.update s.collected _ _ _ ++ Function.update s.tail _ _ _
          ++ (s.worker _).processed
        rw [Function.update_self, Function.update_self, hroute.executed,
          List.append_assoc (s.collected _) (List.take k _), List.take_append_drop]
    · constructor
      · show s.dispatched j = Function.update s.collected _ _ j ++ Function.update s.tail _ _ j
          ++ (s.worker j).batch ++ s.head j
        rw [Function.update_of_ne hj, Function.update_of_ne hj]
        exact hroute.fifo
      · show s.executed j = Function.update s.collected _ _ j ++ Function.update s.tail _ _ j
          ++ (s.worker j).processed
        rw [Function.update_of_ne hj, Function.update_of_ne hj]
        exact hroute.executed
  · intro p
    rw [hmain]
    exact h.accounts.received p
  · intro p
    show (s.freed ++ (s.tail s.main.ringOutIndex).take k).count p = _
    rw [List.count_append, h.accounts.freed p]
    exact (sum_update_append (List.count p) (fun _ _ => List.count_append) s.collected
      s.main.ringOutIndex _).symm

end MainSteps

/-! ## §4. Steps of a worker. -/

section WorkerSteps

variable {s : State W} {j : Fin W}

/-- Nothing of main's has changed from `s` to `s'`. -/
structure SameMain (s s' : State W) : Prop where
  main : s'.main = s.main
  received : s'.received = s.received
  dispatched : s'.dispatched = s.dispatched
  collected : s'.collected = s.collected
  freed : s'.freed = s.freed

theorem sameMain_workerDequeue (s : State W) (j : Fin W) (k : ℕ) :
    SameMain s (s.workerDequeue j k) :=
  ⟨rfl, rfl, rfl, rfl, rfl⟩

theorem sameMain_workerExec (s : State W) (j : Fin W) : SameMain s (s.workerExec j) := by
  unfold State.workerExec
  dsimp only
  split
  · exact ⟨rfl, rfl, rfl, rfl, rfl⟩
  · exact ⟨rfl, rfl, rfl, rfl, rfl⟩

theorem sameMain_workerEnqueue (s : State W) (j : Fin W) (k : ℕ) :
    SameMain s (s.workerEnqueue j k) := by
  unfold State.workerEnqueue
  dsimp only
  split
  · exact ⟨rfl, rfl, rfl, rfl, rfl⟩
  · exact ⟨rfl, rfl, rfl, rfl, rfl⟩

/-- Nothing of the workers' has changed from `s` to `s'`, and main has collected nothing. -/
structure SameWorkers (s s' : State W) : Prop where
  worker : s'.worker = s.worker
  tail : s'.tail = s.tail
  executed : s'.executed = s.executed
  collected : s'.collected = s.collected

theorem sameWorkers_receive (s : State W) (burst : List Mbuf) :
    SameWorkers s (s.receive burst) := by
  unfold State.receive
  split
  · split
    · exact ⟨rfl, rfl, rfl, rfl⟩
    · exact ⟨rfl, rfl, rfl, rfl⟩
  · exact ⟨rfl, rfl, rfl, rfl⟩

theorem sameWorkers_inner (cfg : Config) (s : State W) : SameWorkers s (s.inner cfg) := by
  unfold State.inner
  split
  · exact ⟨rfl, rfl, rfl, rfl⟩
  · exact ⟨rfl, rfl, rfl, rfl⟩

theorem sameWorkers_enqueue (s : State W) (k : ℕ) : SameWorkers s (s.enqueue k) := by
  unfold State.enqueue
  split
  · exact ⟨rfl, rfl, rfl, rfl⟩
  · exact ⟨rfl, rfl, rfl, rfl⟩

theorem inner_received (cfg : Config) (s : State W) : (s.inner cfg).received = s.received := by
  unfold State.inner
  split
  · rfl
  · rfl

theorem enqueue_received (s : State W) (k : ℕ) : (s.enqueue k).received = s.received := by
  unfold State.enqueue
  split
  · rfl
  · rfl

/-- A step of worker `j` keeps what main has and the routes of the other workers. -/
theorem Flow.of_worker {s' : State W} (h : Flow s) (hsame : SameMain s s')
    (hother : ∀ i, i ≠ j → s'.worker i = s.worker i ∧ s'.head i = s.head i ∧ s'.tail i = s.tail i
      ∧ s'.executed i = s.executed i)
    (hsane : (s'.worker j).Sane) (hroute : Route s' j) : Flow s' where
  main := hsame.main ▸ h.main
  worker := by
    intro i
    by_cases hi : i = j
    · rw [hi]
      exact hsane
    · rw [(hother i hi).1]
      exact h.worker i
  route := by
    intro i
    by_cases hi : i = j
    · rw [hi]
      exact hroute
    · obtain ⟨hw, hh, ht, he⟩ := hother i hi
      have hr := h.route i
      exact ⟨by rw [hsame.dispatched, hsame.collected, ht, hw, hh]; exact hr.fifo,
        by rw [he, hsame.collected, ht, hw]; exact hr.executed⟩
  accounts := by
    refine ⟨hsame.received ▸ h.accounts.nodup, ?_, ?_⟩
    · intro p
      rw [hsame.received, hsame.main, hsame.dispatched]
      exact h.accounts.received p
    · intro p
      rw [hsame.freed, hsame.collected]
      exact h.accounts.freed p

theorem Flow.workerDequeue (h : Flow s) (hpc : (s.worker j).pc = .dequeue) (k : ℕ) :
    Flow (s.workerDequeue j k) := by
  have hout := (h.worker j).dequeue hpc
  have hbatch := Worker.batch_dequeue hpc
  have hproc := Worker.processed_dequeue hpc
  have hr := h.route j
  refine h.of_worker (j := j) ⟨rfl, rfl, rfl, rfl, rfl⟩ ?_ ?_ ?_
  · intro i hi
    exact ⟨Function.update_of_ne hi _ _, Function.update_of_ne hi _ _, rfl, rfl⟩
  · show (Function.update s.worker j _ j).Sane
    rw [Function.update_self]
    refine ⟨fun hp => absurd hp (by simp), fun _ => ⟨Nat.zero_le _, rfl, hout⟩,
      fun hp => absurd hp (by simp)⟩
  · constructor
    · show s.dispatched j = s.collected j ++ s.tail j ++ (Function.update s.worker j _ j).batch
        ++ Function.update s.head j _ j
      rw [Function.update_self, Function.update_self, hr.fifo, hbatch, List.append_nil]
      simp only [Worker.batch]
      -- the front of the head ring becomes the batch
      rw [List.append_assoc _ (List.take k _), List.take_append_drop]
    · show s.executed j = s.collected j ++ s.tail j ++ (Function.update s.worker j _ j).processed
      rw [Function.update_self, hr.executed, hproc]
      simp only [Worker.processed, List.take_zero]

theorem Flow.workerExec (h : Flow s) (hpc : (s.worker j).pc = .exec) :
    Flow (s.workerExec j) := by
  obtain ⟨hle, hout, hnum⟩ := (h.worker j).exec hpc
  have hbatch := Worker.batch_exec hpc
  have hproc := Worker.processed_exec hpc
  have hr := h.route j
  unfold State.workerExec
  dsimp only
  split
  next mbuf hget =>
    have hlt : (s.worker j).i < (s.worker j).mbufsIn.length :=
      (List.getElem?_eq_some_iff.mp hget).1
    have htake : (s.worker j).mbufsIn.take ((s.worker j).i + 1)
        = (s.worker j).mbufsIn.take (s.worker j).i ++ [mbuf] := by
      rw [List.take_add_one, hget]
      rfl
    refine h.of_worker (j := j) ⟨rfl, rfl, rfl, rfl, rfl⟩ ?_ ?_ ?_
    · intro i hi
      exact ⟨Function.update_of_ne hi _ _, rfl, rfl, Function.update_of_ne hi _ _⟩
    · dsimp only
      rw [Function.update_self]
      refine ⟨fun hp => absurd (hpc.symm.trans hp) (by decide), fun _ => ⟨hlt, ?_, ?_⟩,
        fun hp => absurd (hpc.symm.trans hp) (by decide)⟩
      · show (s.worker j).mbufsOut ++ [mbuf] = (s.worker j).mbufsIn.take ((s.worker j).i + 1)
        rw [htake, hout]
      · show (s.worker j).outNum + 1 = (s.worker j).i + 1
        rw [hnum]
    · constructor
      · dsimp only
        rw [Function.update_self, hr.fifo, hbatch]
        simp only [Worker.batch, hpc]
      · dsimp only
        rw [Function.update_self, Function.update_self, hr.executed, hproc]
        simp only [Worker.processed, hpc]
        rw [htake, List.append_assoc]
  next hget =>
    -- the whole batch has been processed
    have hi : (s.worker j).i = (s.worker j).mbufsIn.length := by
      have hge := List.getElem?_eq_none_iff.mp hget
      omega
    have hall : (s.worker j).mbufsOut = (s.worker j).mbufsIn := by
      rw [hout, hi, List.take_length]
    refine h.of_worker (j := j) ⟨rfl, rfl, rfl, rfl, rfl⟩ ?_ ?_ ?_
    · intro i hne
      exact ⟨Function.update_of_ne hne _ _, rfl, rfl, rfl⟩
    · dsimp only
      rw [Function.update_self]
      refine ⟨fun hp => absurd hp (by simp), fun hp => absurd hp (by simp), fun _ => ?_⟩
      show 0 + (s.worker j).outNum = (s.worker j).mbufsOut.length
      rw [hnum, hi, hall, Nat.zero_add]
    · constructor
      · dsimp only
        rw [Function.update_self, hr.fifo, hbatch]
        simp only [Worker.batch, List.drop_zero, hall]
      · dsimp only
        rw [Function.update_self, hr.executed, hproc, hi, List.take_length]
        simp only [Worker.processed, List.drop_zero, hall]

theorem Flow.workerEnqueue (h : Flow s) (hpc : (s.worker j).pc = .enqueue) {k : ℕ}
    (hk : 0 < (s.worker j).outNum → k ≤ (s.worker j).outNum) : Flow (s.workerEnqueue j k) := by
  have hsum := (h.worker j).enqueue hpc
  have hbatch := Worker.batch_enqueue hpc
  have hproc := Worker.processed_enqueue hpc
  have hr := h.route j
  unfold State.workerEnqueue
  dsimp only
  split
  next hpos =>
    have hk' := hk hpos
    -- the entries stored leave the batch
    have hsplit := take_append_drop_add (s.worker j).mbufsOut (s.worker j).totEnq k
    refine h.of_worker (j := j) ⟨rfl, rfl, rfl, rfl, rfl⟩ ?_ ?_ ?_
    · intro i hi
      exact ⟨Function.update_of_ne hi _ _, rfl, Function.update_of_ne hi _ _, rfl⟩
    · dsimp only
      rw [Function.update_self]
      refine ⟨fun hp => absurd (hpc.symm.trans hp) (by decide),
        fun hp => absurd (hpc.symm.trans hp) (by decide), fun _ => ?_⟩
      show (s.worker j).totEnq + k + ((s.worker j).outNum - k) = (s.worker j).mbufsOut.length
      omega
    · constructor
      · dsimp only
        rw [Function.update_self, Function.update_self, hr.fifo, hbatch]
        simp only [Worker.batch, hpc]
        rw [← List.append_assoc (s.collected j) (s.tail j),
          List.append_assoc (s.collected j ++ s.tail j) (List.take k _), hsplit]
      · dsimp only
        rw [Function.update_self, Function.update_self, hr.executed, hproc]
        simp only [Worker.processed, hpc]
        rw [← List.append_assoc (s.collected j) (s.tail j),
          List.append_assoc (s.collected j ++ s.tail j) (List.take k _), hsplit]
  next hzero =>
    -- the whole batch is on the tail ring
    have hnone : (s.worker j).mbufsOut.drop (s.worker j).totEnq = [] :=
      List.drop_of_length_le (by omega)
    refine h.of_worker (j := j) ⟨rfl, rfl, rfl, rfl, rfl⟩ ?_ ?_ ?_
    · intro i hi
      exact ⟨Function.update_of_ne hi _ _, rfl, rfl, rfl⟩
    · dsimp only
      rw [Function.update_self]
      refine ⟨fun _ => ?_, fun hp => absurd hp (by simp), fun hp => absurd hp (by simp)⟩
      show (s.worker j).outNum = 0
      omega
    · constructor
      · dsimp only
        rw [Function.update_self, hr.fifo, hbatch, hnone]
        simp only [Worker.batch]
      · dsimp only
        rw [Function.update_self, hr.executed, hproc, hnone]
        simp only [Worker.processed]

end WorkerSteps

/-! ## §5. Every interleaving. -/

/-- **Every step keeps the invariant.** -/
theorem Flow.step {cfg : Config} {s s' : State W} (h : Flow s) (hstep : Step cfg s s') :
    Flow s' := by
  cases hstep with
  | receive burst hpc hlen hnodup hfresh => exact h.receive hpc hnodup hfresh
  | inner hpc => exact h.inner hpc cfg
  | enqueue k hpc hk => exact h.enqueue hpc fun hlt => cfg.ring.enq_le (hk hlt)
  | aggregate k hpc hk => exact h.aggregate hpc k
  | workerDequeue j k hpc hk => exact h.workerDequeue hpc k
  | workerExec j hpc => exact h.workerExec hpc
  | workerEnqueue j k hpc hk =>
      exact h.workerEnqueue hpc fun hpos => (cfg.ring.enq_le (hk hpos)).trans (Nat.min_le_left _ _)

theorem Reachable.flow [NeZero W] {cfg : Config} {s : State W} (h : Reachable cfg s) : Flow s :=
  ReflTransGen.invariant Flow (Flow.init W) (fun _ _ hx hs => hx.step hs) h

/-! ## §6. Where a received packet is. -/

/-- `p` went through `pipeline_stage_exec` once, at worker `j`. -/
def ExecutedOnceBy (s : State W) (j : Fin W) (p : Mbuf) : Prop :=
  (s.executed j).count p = 1 ∧ ∀ i, i ≠ j → p ∉ s.executed i

/-- A worker processes its batch from the front. -/
theorem Worker.processed_sublist_batch (w : Worker) : w.processed.Sublist w.batch := by
  unfold Worker.processed Worker.batch
  cases w.pc with
  | dequeue => exact List.Sublist.refl _
  | exec => exact List.take_sublist _ _
  | enqueue => exact List.Sublist.refl _

section Where

variable {s : State W}

/-- Only dispatched packets are processed, each as often as it was dispatched. -/
theorem Flow.executed_count_le (h : Flow s) (j : Fin W) (p : Mbuf) :
    (s.executed j).count p ≤ (s.dispatched j).count p := by
  have hproc := (Worker.processed_sublist_batch (s.worker j)).count_le p
  rw [(h.route j).executed, (h.route j).fifo]
  simp only [List.count_append]
  omega

theorem Flow.received_count_le (h : Flow s) (p : Mbuf) : s.received.count p ≤ 1 :=
  List.nodup_iff_count_le_one.mp h.accounts.nodup p

/-- A packet is dispatched at most once, to at most one head ring. -/
theorem Flow.dispatched_count_le (h : Flow s) (p : Mbuf) :
    ∑ j, (s.dispatched j).count p ≤ 1 := by
  have hrec := h.accounts.received p
  have hle := h.received_count_le p
  omega

/-- Behind its worker, a packet has been processed once. -/
theorem Flow.executedOnceBy (h : Flow s) {j : Fin W} {p : Mbuf}
    (hp : p ∈ s.collected j ++ s.tail j) : ExecutedOnceBy s j p := by
  have hpos : 0 < (s.executed j).count p := by
    rw [(h.route j).executed, List.count_append]
    have hcount := List.count_pos_iff.mpr hp
    omega
  have hj := h.executed_count_le j p
  have hall := h.dispatched_count_le p
  constructor
  · have hle : (s.dispatched j).count p ≤ ∑ i, (s.dispatched i).count p :=
      Finset.single_le_sum (f := fun i => (s.dispatched i).count p) (fun _ _ => Nat.zero_le _)
        (Finset.mem_univ j)
    omega
  · intro i hne hi
    have hi' := h.executed_count_le i p
    have hipos := List.count_pos_iff.mpr hi
    -- two workers would need the packet dispatched twice
    have hle : (s.dispatched i).count p + (s.dispatched j).count p
        ≤ ∑ i, (s.dispatched i).count p :=
      Finset.add_le_sum (f := fun i => (s.dispatched i).count p) (fun _ _ => Nat.zero_le _)
        (Finset.mem_univ i) (Finset.mem_univ j) hne
    omega

/-- The places of the route, and the pending and freed packets, hold what was
received. -/
theorem Flow.places_count (h : Flow s) (p : Mbuf) :
    s.main.pending.count p + ∑ j, (s.head j).count p + ∑ j, (s.worker j).batch.count p
      + ∑ j, (s.tail j).count p + s.freed.count p = s.received.count p := by
  have hroute : ∑ j, (s.dispatched j).count p
      = ∑ j, (s.collected j).count p + ∑ j, (s.tail j).count p
        + ∑ j, (s.worker j).batch.count p + ∑ j, (s.head j).count p := by
    rw [← Finset.sum_add_distrib, ← Finset.sum_add_distrib, ← Finset.sum_add_distrib]
    apply Finset.sum_congr rfl
    intro j _
    rw [(h.route j).fifo, List.count_append, List.count_append, List.count_append]
  have hrec := h.accounts.received p
  have hfreed := h.accounts.freed p
  omega

theorem Flow.mem_collected (h : Flow s) {p : Mbuf} (hp : p ∈ s.freed) :
    ∃ j, p ∈ s.collected j := by
  have hpos : 0 < ∑ j, (s.collected j).count p := by
    rw [← h.accounts.freed p]
    exact List.count_pos_iff.mpr hp
  obtain ⟨j, -, hj⟩ := Finset.exists_ne_zero_of_sum_ne_zero (Nat.pos_iff_ne_zero.mp hpos)
  exact ⟨j, List.count_pos_iff.mp (Nat.pos_of_ne_zero hj)⟩

/-- A packet is in one place: not twice with a worker and behind it. -/
theorem Flow.batch_disjoint (h : Flow s) {j : Fin W} {p : Mbuf} (hp : p ∈ (s.worker j).batch) :
    (∀ i, p ∉ s.tail i) ∧ p ∉ s.freed := by
  have hplaces := h.places_count p
  have hle := h.received_count_le p
  have hbatch : 0 < ∑ i, (s.worker i).batch.count p := by
    have hone := Finset.single_le_sum (f := fun i => (s.worker i).batch.count p)
      (fun _ _ => Nat.zero_le _) (Finset.mem_univ j)
    exact Nat.lt_of_lt_of_le (List.count_pos_iff.mpr hp) hone
  constructor
  · intro i hi
    have hone := Finset.single_le_sum (f := fun i => (s.tail i).count p)
      (fun _ _ => Nat.zero_le _) (Finset.mem_univ i)
    have hpos := List.count_pos_iff.mpr hi
    omega
  · intro hfreed
    have hpos := List.count_pos_iff.mpr hfreed
    omega

end Where

/-- **Packet conservation.**  In every reachable state a received packet is in
one place: main's pending slice, a head ring, a worker's batch, a tail ring, or
freed once.  What is on tail ring `j` and what is freed was processed once, by
one worker.  Ring pair `j` with its worker holds, in order, what was dispatched to
head ring `j` and has not left tail ring `j`. -/
theorem reachable_conserves [NeZero W] {cfg : Config} {s : State W} (h : Reachable cfg s) :
    (∀ p ∈ s.received,
        s.main.pending.count p + ∑ j, (s.head j).count p + ∑ j, (s.worker j).batch.count p
          + ∑ j, (s.tail j).count p + s.freed.count p = 1)
      ∧ (∀ j, ∀ p ∈ s.tail j, ExecutedOnceBy s j p)
      ∧ (∀ p ∈ s.freed, ∃ j, ExecutedOnceBy s j p)
      ∧ (∀ j, s.dispatched j
          = s.collected j ++ s.tail j ++ (s.worker j).batch ++ s.head j)
      ∧ ∀ j, s.collected j <+: s.dispatched j := by
  have hflow := h.flow
  refine ⟨?_, ?_, ?_, fun j => (hflow.route j).fifo, ?_⟩
  · intro p hp
    rw [hflow.places_count p]
    exact List.count_eq_one_of_mem hflow.accounts.nodup hp
  · intro j p hp
    exact hflow.executedOnceBy (List.mem_append_right _ hp)
  · intro p hp
    obtain ⟨j, hj⟩ := hflow.mem_collected hp
    exact ⟨j, hflow.executedOnceBy (List.mem_append_left _ hj)⟩
  · intro j
    rw [(hflow.route j).fifo, List.append_assoc, List.append_assoc]
    exact List.prefix_append _ _

/-- Slices of up to 32 packets, and rings that may store any part of a burst. -/
def slices : Config where
  batchSizeIn := 32
  burstSize := 32
  ring := anyPrefix (ringSize - 1)

/-- Two packets on their way: stored in two bursts, processed by worker 0, and the
first one freed. -/
def twoPackets (W : ℕ) [NeZero W] : State W :=
  State.init W |>.receive [7, 8] |>.inner slices |>.enqueue 1 |>.enqueue 1 |>.enqueue 0
    |>.workerDequeue 0 2 |>.workerExec 0 |>.workerExec 0 |>.workerExec 0 |>.workerEnqueue 0 2
    |>.aggregate 1 |>.inner slices

theorem twoPackets_reachable : Reachable slices (twoPackets 2) :=
  Reachable.init 2 slices
    |>.step (.receive _ [7, 8] rfl (by decide) (by decide) (by decide))
    |>.step (.inner _ rfl)
    |>.step (.enqueue _ 1 rfl fun _ => ⟨by decide, by decide⟩)
    |>.step (.enqueue _ 1 rfl fun _ => ⟨by decide, by decide⟩)
    |>.step (.enqueue _ 0 rfl fun h => absurd h (by decide))
    |>.step (.workerDequeue _ 0 2 rfl ⟨by decide, by decide⟩)
    |>.step (.workerExec _ 0 rfl)
    |>.step (.workerExec _ 0 rfl)
    |>.step (.workerExec _ 0 rfl)
    |>.step (.workerEnqueue _ 0 2 rfl fun _ => ⟨by decide, by decide⟩)
    |>.step (.aggregate _ 1 rfl ⟨by decide, by decide⟩)
    |>.step (.inner _ rfl)

/-- One packet is on tail ring 0, the other is freed. -/
theorem twoPackets_conserves :
    (twoPackets 2).tail 0 = [8] ∧ (twoPackets 2).freed = [7]
      ∧ (∀ p ∈ (twoPackets 2).received,
          (twoPackets 2).main.pending.count p + ∑ j, ((twoPackets 2).head j).count p
            + ∑ j, ((twoPackets 2).worker j).batch.count p + ∑ j, ((twoPackets 2).tail j).count p
            + (twoPackets 2).freed.count p = 1)
      ∧ ∀ p ∈ (twoPackets 2).freed, ∃ j, ExecutedOnceBy (twoPackets 2) j p :=
  have h := reachable_conserves twoPackets_reachable
  ⟨rfl, rfl, h.1, h.2.2.1⟩

end Meili.DataPlane
