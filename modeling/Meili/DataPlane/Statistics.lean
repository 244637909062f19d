/-
  Meili.DataPlane.Statistics — what the workers count.

  A worker sums up `data_len` of the packets of a pass behind its enqueue loop,
  when main may have freed them and the device may have received other packets
  into the same buffers.  The model adds to the data plane the buffer every
  packet lies in, the `data_len` of every buffer, and the statistics loop of
  every worker, one read a step (`CountStep`).

  The invariant (`Tally`) splits what a worker has forwarded into what it has
  counted and what it has not counted yet (`uncounted`).  Only an arrival can
  break it, and only in a buffer of an uncounted packet (`Untouched`).
-/
import Meili.DataPlane.Rounds

namespace Meili.DataPlane

open Meili.Lib

variable {W : ℕ}

/-! ## §1. Buffers and counters. -/

/-- The data plane with the memory of the packets and the workers' counters. -/
structure Counted (W : ℕ) where
  st : State W
  /-- The buffer a packet lies in. -/
  buf : Mbuf → ℕ
  /-- `data_len` of a buffer. -/
  dataLen : ℕ → UInt16
  /-- `k` of the statistics loop, while a worker is in it. -/
  counting : Fin W → Option ℕ
  /-- `rm_stats->tx_buf_bytes` of the workers. -/
  txBufBytes : Fin W → UInt64
  /-- `rm_stats->tx_buf_cnt` of the workers. -/
  txBufCnt : Fin W → UInt64
  /-- `data_len` of the packets a worker has put on its tail ring, as it put them
  there: a ghost. -/
  forwarded : Fin W → List UInt16

def Counted.init (W : ℕ) [NeZero W] : Counted W where
  st := State.init W
  buf := fun _ => 0
  dataLen := fun _ => 0
  counting := fun _ => none
  txBufBytes := fun _ => 0
  txBufCnt := fun _ => 0
  forwarded := fun _ => []

/-- A burst of the device: the packets, their buffers and their lengths. -/
structure Arrival where
  burst : List Mbuf
  buf : Mbuf → ℕ
  len : Mbuf → UInt16

/-- `data_len` of the buffers after the packets `burst` are written to them. -/
def writeLens (buf : Mbuf → ℕ) (len : Mbuf → UInt16) (dataLen : ℕ → UInt16) :
    List Mbuf → ℕ → UInt16
  | [] => dataLen
  | p :: burst => writeLens buf len (Function.update dataLen (buf p) (len p)) burst

/-- What a worker has stored in this pass and not counted, `counting` being where it
is in the statistics loop. -/
def Worker.uncounted (w : Worker) (counting : Option ℕ) : List Mbuf :=
  match counting with
  | some k => (w.mbufsOut.take w.totEnq).drop k
  | none => if w.pc = .enqueue then w.mbufsOut.take w.totEnq else []

namespace Counted

/-- `mbuf->data_len`. -/
def lenOf (x : Counted W) (mbuf : Mbuf) : UInt16 := x.dataLen (x.buf mbuf)

/-- The pool hands out buffers that are free, each of them once. -/
def Free (x : Counted W) (a : Arrival) : Prop :=
  (∀ p ∈ a.burst, ∀ q ∈ x.st.received, q ∉ x.st.freed → a.buf p ≠ x.buf q)
    ∧ ∀ p ∈ a.burst, ∀ q ∈ a.burst, a.buf p = a.buf q → p = q

/-- The device writes the packets of `a` to their buffers. -/
def receive (x : Counted W) (a : Arrival) : Counted W :=
  { x with
    st := x.st.receive a.burst
    buf := fun p => if p ∈ a.burst then a.buf p else x.buf p
    dataLen := writeLens a.buf a.len x.dataLen a.burst }

/-- The enqueue loop of worker `j`, one test; behind it comes the statistics loop. -/
def workerEnqueue (x : Counted W) (j : Fin W) (k : ℕ) : Counted W :=
  let w := x.st.worker j
  if 0 < w.outNum then
    { x with
      st := x.st.workerEnqueue j k
      forwarded := Function.update x.forwarded j
        (x.forwarded j ++ ((w.mbufsOut.drop w.totEnq).take k).map x.lenOf) }
  else
    { x with
      st := x.st.workerEnqueue j k
      counting := Function.update x.counting j (some 0) }

/-- One test of the statistics loop of worker `j`: `mbufs_out[k]` is read, or
`tot_enq` packets are counted and the pass is over. -/
def count (x : Counted W) (j : Fin W) (k : ℕ) : Counted W :=
  let w := x.st.worker j
  -- the entries of `mbufs_out` below `tot_enq`
  match (w.mbufsOut.take w.totEnq)[k]? with
  | some mbuf =>
      { x with
        counting := Function.update x.counting j (some (k + 1))
        txBufBytes := Function.update x.txBufBytes j
          (x.txBufBytes j + (x.lenOf mbuf).toUInt64) }
  | none =>
      { x with
        counting := Function.update x.counting j none
        txBufCnt := Function.update x.txBufCnt j (x.txBufCnt j + UInt64.ofNat w.totEnq) }

/-- The packets worker `j` has put on its tail ring and not read `data_len` of. -/
def uncounted (x : Counted W) (j : Fin W) : List Mbuf :=
  (x.st.worker j).uncounted (x.counting j)

/-- No packet of `a` changes `data_len` in the buffer of an uncounted packet. -/
def Untouched (x : Counted W) (a : Arrival) : Prop :=
  ∀ p ∈ a.burst, ∀ j, ∀ q ∈ x.uncounted j, a.buf p = x.buf q → a.len p = x.lenOf q

end Counted

/-- One step of main or of a worker, where the device makes the arrivals that are
`allowed`. -/
inductive CountStep (cfg : Config) (allowed : Counted W → Arrival → Prop) :
    Counted W → Counted W → Prop
  | receive (x : Counted W) (a : Arrival) :
      x.st.main.pc = .receive → a.burst.length ≤ defaultEthBatchSize → a.burst.Nodup →
      (∀ p ∈ a.burst, p ∉ x.st.received) → x.Free a → allowed x a →
      CountStep cfg allowed x (x.receive a)
  | inner (x : Counted W) :
      x.st.main.pc = .inner → CountStep cfg allowed x { x with st := x.st.inner cfg }
  | enqueue (x : Counted W) (k : ℕ) :
      x.st.main.pc = .enqueue →
      (x.st.main.totEnq < x.st.main.batchCntEnq →
        cfg.ring.enq x.st.main.toEnq (x.st.head x.st.main.ringInIndex).length k) →
      CountStep cfg allowed x { x with st := x.st.enqueue k }
  | aggregate (x : Counted W) (k : ℕ) :
      x.st.main.pc = .aggregate →
      cfg.ring.deq maxPktsBurst (x.st.tail x.st.main.ringOutIndex).length k →
      CountStep cfg allowed x { x with st := x.st.aggregate k }
  | workerDequeue (x : Counted W) (j : Fin W) (k : ℕ) :
      (x.st.worker j).pc = .dequeue → x.counting j = none →
      cfg.ring.deq cfg.burstSize (x.st.head j).length k →
      CountStep cfg allowed x { x with st := x.st.workerDequeue j k }
  | workerExec (x : Counted W) (j : Fin W) :
      (x.st.worker j).pc = .exec →
      CountStep cfg allowed x { x with st := x.st.workerExec j }
  | workerEnqueue (x : Counted W) (j : Fin W) (k : ℕ) :
      (x.st.worker j).pc = .enqueue →
      (0 < (x.st.worker j).outNum →
        cfg.ring.enq (min (x.st.worker j).outNum cfg.burstSize) (x.st.tail j).length k) →
      CountStep cfg allowed x (x.workerEnqueue j k)
  | count (x : Counted W) (j : Fin W) (k : ℕ) :
      x.counting j = some k → CountStep cfg allowed x (x.count j k)

/-- `x` occurs in some interleaving with `allowed` arrivals. -/
def CountReachable [NeZero W] (cfg : Config) (allowed : Counted W → Arrival → Prop)
    (x : Counted W) : Prop :=
  Relation.ReflTransGen (CountStep cfg allowed) (Counted.init W) x

theorem CountReachable.init (W : ℕ) [NeZero W] (cfg : Config)
    (allowed : Counted W → Arrival → Prop) : CountReachable cfg allowed (Counted.init W) :=
  Relation.ReflTransGen.refl

theorem CountReachable.step [NeZero W] {cfg : Config} {allowed : Counted W → Arrival → Prop}
    {x y : Counted W} (h : CountReachable cfg allowed x) (hstep : CountStep cfg allowed x y) :
    CountReachable cfg allowed y :=
  Relation.ReflTransGen.tail h hstep

/-- Worker `j` is between two passes of its loop. -/
def Counted.AtTop (x : Counted W) (j : Fin W) : Prop :=
  (x.st.worker j).pc = .dequeue ∧ x.counting j = none

/-- Number and bytes of the packets with the lengths `lens`, as 64-bit counters. -/
def sumLens (lens : List UInt16) : UInt64 := UInt64.ofNat (lens.map UInt16.toNat).sum

/-- The counters of worker `j` are those of the packets it has forwarded. -/
def Counted.Exact (x : Counted W) (j : Fin W) : Prop :=
  x.txBufCnt j = UInt64.ofNat (x.st.collected j ++ x.st.tail j).length
    ∧ (x.forwarded j).length = (x.st.collected j ++ x.st.tail j).length
    ∧ x.txBufBytes j = sumLens (x.forwarded j)

/-! ## §2. What is forwarded is counted, or still to be counted. -/

theorem sumLens_append (xs ys : List UInt16) : sumLens (xs ++ ys) = sumLens xs + sumLens ys := by
  unfold sumLens
  rw [List.map_append, List.sum_append, UInt64.ofNat_add]

theorem sumLens_cons (len : UInt16) (lens : List UInt16) :
    sumLens (len :: lens) = len.toUInt64 + sumLens lens := by
  unfold sumLens
  rw [List.map_cons, List.sum_cons, UInt64.ofNat_add, UInt64.ofNat_uInt16ToNat]

/-- A buffer is as before if whatever is written to it has the same length. -/
theorem writeLens_of_same (buf : Mbuf → ℕ) (len : Mbuf → UInt16) {addr : ℕ} :
    ∀ (burst : List Mbuf) (dataLen : ℕ → UInt16),
      (∀ p ∈ burst, buf p = addr → len p = dataLen addr) →
      writeLens buf len dataLen burst addr = dataLen addr := by
  intro burst
  induction burst with
  | nil => exact fun _ _ => rfl
  | cons p burst ih =>
      intro dataLen hsame
      have hhead : Function.update dataLen (buf p) (len p) addr = dataLen addr := by
        by_cases haddr : buf p = addr
        · rw [haddr, Function.update_self]
          exact hsame p List.mem_cons_self haddr
        · exact Function.update_of_ne (Ne.symm haddr) _ _
      show writeLens buf len (Function.update dataLen (buf p) (len p)) burst addr = dataLen addr
      rw [ih _ fun q hq hqaddr => by rw [hhead]; exact hsame q (List.mem_cons_of_mem p hq) hqaddr]
      exact hhead

/-- The batch of a worker was received. -/
theorem Flow.mem_received {s : State W} (h : Flow s) {j : Fin W} {p : Mbuf}
    (hp : p ∈ (s.worker j).batch) : p ∈ s.received := by
  have hdisp : p ∈ s.dispatched j := by
    rw [(h.route j).fifo]
    exact List.mem_append_left _ (List.mem_append_right _ hp)
  have hle : (s.dispatched j).count p ≤ ∑ i, (s.dispatched i).count p :=
    Finset.single_le_sum (f := fun i => (s.dispatched i).count p) (fun _ _ => Nat.zero_le _)
      (Finset.mem_univ j)
  have hpos := List.count_pos_iff.mpr hdisp
  have hrec := h.accounts.received p
  exact List.count_pos_iff.mp (by omega)

/-- The packets of the pass that `tx_buf_cnt` does not count yet. -/
def Worker.owed (w : Worker) (counting : Option ℕ) : ℕ :=
  match counting with
  | some _ => w.totEnq
  | none => if w.pc = .enqueue then w.totEnq else 0

section Cases

variable {w : Worker}

theorem Worker.uncounted_some (k : ℕ) :
    w.uncounted (some k) = (w.mbufsOut.take w.totEnq).drop k :=
  rfl

theorem Worker.uncounted_enqueue (hpc : w.pc = .enqueue) :
    w.uncounted none = w.mbufsOut.take w.totEnq :=
  if_pos hpc

theorem Worker.uncounted_none (hpc : w.pc ≠ .enqueue) : w.uncounted none = [] :=
  if_neg hpc

theorem Worker.owed_enqueue (hpc : w.pc = .enqueue) : w.owed none = w.totEnq :=
  if_pos hpc

theorem Worker.owed_none (hpc : w.pc ≠ .enqueue) : w.owed none = 0 :=
  if_neg hpc

theorem Worker.mem_uncounted {counting : Option ℕ} {p : Mbuf} (hp : p ∈ w.uncounted counting) :
    p ∈ w.mbufsOut := by
  unfold Worker.uncounted at hp
  split at hp
  · exact List.mem_of_mem_take (List.mem_of_mem_drop hp)
  · split at hp
    · exact List.mem_of_mem_take hp
    · exact absurd hp List.not_mem_nil

end Cases

namespace Counted

/-- What holds of worker `j` and its counters. -/
structure Tally (x : Counted W) (j : Fin W) : Prop where
  bytes : x.txBufBytes j + sumLens ((x.uncounted j).map x.lenOf) = sumLens (x.forwarded j)
  cnt : x.txBufCnt j + UInt64.ofNat ((x.st.worker j).owed (x.counting j))
    = UInt64.ofNat (x.forwarded j).length
  ghost : (x.forwarded j).length = (x.st.collected j ++ x.st.tail j).length
  received : ∀ p ∈ (x.st.worker j).mbufsOut, p ∈ x.st.received
  counting : ∀ k, x.counting j = some k → (x.st.worker j).pc = .dequeue

theorem Tally.init (W : ℕ) [NeZero W] (j : Fin W) : Tally (Counted.init W) j :=
  ⟨rfl, rfl, rfl, fun _ hp => absurd hp List.not_mem_nil,
    fun k hk => absurd hk.symm (Option.some_ne_none k)⟩

/-- **Between two passes nothing is owed.** -/
theorem Tally.exact {x : Counted W} {j : Fin W} (h : Tally x j) (htop : x.AtTop j) : x.Exact j := by
  obtain ⟨hpc, hnone⟩ := htop
  have hne : (x.st.worker j).pc ≠ .enqueue := by
    rw [hpc]
    decide
  have hbytes := h.bytes
  have hcnt := h.cnt
  unfold Counted.uncounted at hbytes
  rw [hnone, Worker.uncounted_none hne] at hbytes
  rw [hnone, Worker.owed_none hne] at hcnt
  refine ⟨?_, h.ghost, ?_⟩
  · rw [← h.ghost, ← hcnt]
    exact (UInt64.add_zero _).symm
  · rw [← hbytes]
    exact (UInt64.add_zero _).symm

/-! ## §3. Steps. -/

theorem workerEnqueue_st (x : Counted W) (j : Fin W) (k : ℕ) :
    (x.workerEnqueue j k).st = x.st.workerEnqueue j k := by
  unfold Counted.workerEnqueue
  dsimp only
  split <;> rfl

theorem count_st (x : Counted W) (j : Fin W) (k : ℕ) : (x.count j k).st = x.st := by
  unfold Counted.count
  dsimp only
  split <;> rfl

/-- From `x` to `y`, worker `j` has neither forwarded nor counted anything. -/
structure SameCounts (x y : Counted W) (j : Fin W) : Prop where
  uncounted : (y.uncounted j).map y.lenOf = (x.uncounted j).map x.lenOf
  owed : (y.st.worker j).owed (y.counting j) = (x.st.worker j).owed (x.counting j)
  txBufBytes : y.txBufBytes j = x.txBufBytes j
  txBufCnt : y.txBufCnt j = x.txBufCnt j
  forwarded : y.forwarded j = x.forwarded j
  passed : (y.st.collected j ++ y.st.tail j).length = (x.st.collected j ++ x.st.tail j).length

theorem Tally.of_counts {x y : Counted W} {j : Fin W} (hx : Tally x j) (h : SameCounts x y j)
    (hrec : ∀ p ∈ (y.st.worker j).mbufsOut, p ∈ y.st.received)
    (hcounting : ∀ k, y.counting j = some k → (y.st.worker j).pc = .dequeue) : Tally y j where
  bytes := by
    rw [h.txBufBytes, h.uncounted, h.forwarded]
    exact hx.bytes
  cnt := by
    rw [h.txBufCnt, h.owed, h.forwarded]
    exact hx.cnt
  ghost := by
    rw [h.forwarded, h.passed]
    exact hx.ghost
  received := hrec
  counting := hcounting

/-- From `x` to `y`, worker `j` has not moved. -/
structure SameWorker (x y : Counted W) (j : Fin W) : Prop where
  worker : y.st.worker j = x.st.worker j
  counting : y.counting j = x.counting j
  txBufBytes : y.txBufBytes j = x.txBufBytes j
  txBufCnt : y.txBufCnt j = x.txBufCnt j
  forwarded : y.forwarded j = x.forwarded j
  passed : (y.st.collected j ++ y.st.tail j).length = (x.st.collected j ++ x.st.tail j).length
  received : x.st.received ⊆ y.st.received

section Frame

variable {x y : Counted W} {j : Fin W}

/-- A worker that has not moved keeps its tally, where its uncounted packets keep
their lengths. -/
theorem Tally.of_same (hx : Tally x j) (h : SameWorker x y j)
    (hlen : ∀ p ∈ x.uncounted j, y.lenOf p = x.lenOf p) : Tally y j := by
  have hun : y.uncounted j = x.uncounted j := by
    unfold Counted.uncounted
    rw [h.worker, h.counting]
  have howed : (y.st.worker j).owed (y.counting j) = (x.st.worker j).owed (x.counting j) := by
    rw [h.worker, h.counting]
  refine hx.of_counts ⟨?_, howed, h.txBufBytes, h.txBufCnt, h.forwarded, h.passed⟩ ?_ ?_
  · rw [hun]
    exact List.map_congr_left hlen
  · intro p hp
    rw [h.worker] at hp
    exact h.received (hx.received p hp)
  · intro k hk
    rw [h.counting] at hk
    rw [h.worker]
    exact hx.counting k hk

/-- **An arrival** outside the buffers of uncounted packets. -/
theorem Tally.receive (hx : Tally x j) {a : Arrival} (hfresh : ∀ p ∈ a.burst, p ∉ x.st.received)
    (hfar : x.Untouched a) : Tally (x.receive a) j := by
  have hst : (x.st.receive a.burst).worker = x.st.worker
      ∧ (x.st.receive a.burst).collected = x.st.collected
      ∧ (x.st.receive a.burst).tail = x.st.tail
      ∧ x.st.received ⊆ (x.st.receive a.burst).received := by
    unfold State.receive
    split
    · split
      · exact ⟨rfl, rfl, rfl, fun _ hp => hp⟩
      · exact ⟨rfl, rfl, rfl, fun _ hp => hp⟩
    · exact ⟨rfl, rfl, rfl, fun _ hp => List.mem_append_left _ hp⟩
  obtain ⟨hworker, hcoll, htail, hrec⟩ := hst
  refine hx.of_same ⟨congrFun hworker j, rfl, rfl, rfl, rfl, ?_, hrec⟩ ?_
  · show ((x.st.receive a.burst).collected j ++ (x.st.receive a.burst).tail j).length = _
    rw [hcoll, htail]
  · intro q hq
    -- an uncounted packet was received before, and has not moved
    have hold : q ∉ a.burst := fun hmem => hfresh q hmem (hx.received q (Worker.mem_uncounted hq))
    show writeLens a.buf a.len x.dataLen a.burst (if q ∈ a.burst then a.buf q else x.buf q) = _
    rw [if_neg hold]
    refine writeLens_of_same a.buf a.len a.burst x.dataLen ?_
    intro p hp haddr
    exact hfar p hp j q hq haddr

/-- A step of main leaves the workers alone. -/
theorem Tally.main (hx : Tally x j) {s' : State W} (hworker : s'.worker = x.st.worker)
    (hrec : s'.received = x.st.received)
    (hpassed : (s'.collected j ++ s'.tail j).length = (x.st.collected j ++ x.st.tail j).length) :
    Tally { x with st := s' } j := by
  refine hx.of_same ⟨congrFun hworker j, rfl, rfl, rfl, rfl, hpassed, ?_⟩ fun _ _ => rfl
  show x.st.received ⊆ s'.received
  rw [hrec]
  exact List.Subset.refl _

/-- What main collects moves from the tail ring to the collected packets. -/
theorem aggregate_passed (s : State W) (k : ℕ) (j : Fin W) :
    ((s.aggregate k).collected j ++ (s.aggregate k).tail j).length
      = (s.collected j ++ s.tail j).length := by
  show (Function.update s.collected _ _ j ++ Function.update s.tail _ _ j).length = _
  by_cases hj : j = s.main.ringOutIndex
  · subst hj
    rw [Function.update_self, Function.update_self, List.append_assoc, List.take_append_drop]
  · rw [Function.update_of_ne hj, Function.update_of_ne hj]

/-- A step of worker `j` leaves the other workers alone. -/
theorem Tally.of_other {i : Fin W} (hx : Tally x i) (hi : i ≠ j)
    (honly : OnlyWorker j x.st y.st) (hsame : SameMain x.st y.st)
    (hcounting : y.counting i = x.counting i) (hbytes : y.txBufBytes i = x.txBufBytes i)
    (hcnt : y.txBufCnt i = x.txBufCnt i) (hfwd : y.forwarded i = x.forwarded i)
    (hlen : y.lenOf = x.lenOf) : Tally y i := by
  obtain ⟨hworker, -, htail⟩ := honly.others i hi
  refine hx.of_same ⟨hworker, hcounting, hbytes, hcnt, hfwd, ?_, ?_⟩ fun p _ => congrFun hlen p
  · rw [hsame.collected, htail]
  · rw [hsame.received]
    exact List.Subset.refl _

end Frame

section WorkerSteps

variable {x : Counted W} {j : Fin W}

theorem Tally.counting_none (hx : Tally x j) (hpc : (x.st.worker j).pc ≠ .dequeue) :
    x.counting j = none := by
  cases hcounting : x.counting j with
  | none => rfl
  | some k => exact absurd (hx.counting k hcounting) hpc

theorem Tally.workerDequeue (hx : Tally x j) (hpc : (x.st.worker j).pc = .dequeue)
    (hnone : x.counting j = none) (k : ℕ) :
    Tally { x with st := x.st.workerDequeue j k } j := by
  have hworker : (x.st.workerDequeue j k).worker j = { x.st.worker j with
      pc := .exec, mbufsIn := (x.st.head j).take k, i := 0, mbufsOut := [] } :=
    Function.update_self _ _ _
  have hne : (x.st.worker j).pc ≠ .enqueue := by
    rw [hpc]
    decide
  have hne' : ((x.st.workerDequeue j k).worker j).pc ≠ .enqueue := by
    rw [hworker]
    exact WorkerPc.noConfusion
  refine hx.of_counts ⟨?_, ?_, rfl, rfl, rfl, rfl⟩ ?_ ?_
  · unfold Counted.uncounted
    dsimp only
    rw [hnone, Worker.uncounted_none hne, Worker.uncounted_none hne']
    rfl
  · dsimp only
    rw [hnone, Worker.owed_none hne, Worker.owed_none hne']
  · intro p hp
    dsimp only at hp
    rw [hworker] at hp
    exact absurd hp List.not_mem_nil
  · intro i hi
    exact absurd (hi.symm.trans hnone) (Option.some_ne_none i)

theorem Tally.workerExec (hx : Tally x j) (hflow : Flow x.st)
    (hpc : (x.st.worker j).pc = .exec) : Tally { x with st := x.st.workerExec j } j := by
  have hnone := hx.counting_none (by rw [hpc]; decide)
  have hne : (x.st.worker j).pc ≠ .enqueue := by
    rw [hpc]
    decide
  have hcount : ∀ i, x.counting j = some i → ((x.st.workerExec j).worker j).pc = .dequeue :=
    fun i hi => absurd (hi.symm.trans hnone) (Option.some_ne_none i)
  have hsame := sameMain_workerExec x.st j
  cases hget : (x.st.worker j).mbufsIn[(x.st.worker j).i]? with
  | some mbuf =>
      have hst := workerExec_some hget
      have hworker : (x.st.workerExec j).worker j = (x.st.worker j).advance mbuf := by
        rw [hst]
        exact Function.update_self _ _ _
      have hne' : ((x.st.workerExec j).worker j).pc ≠ .enqueue := by
        rw [hworker]
        exact hne
      refine hx.of_counts ⟨?_, ?_, rfl, rfl, rfl, by rw [hst]⟩ ?_ hcount
      · unfold Counted.uncounted
        dsimp only
        rw [hnone, Worker.uncounted_none hne, Worker.uncounted_none hne']
        rfl
      · dsimp only
        rw [hnone, Worker.owed_none hne, Worker.owed_none hne']
      · intro p hp
        dsimp only at hp ⊢
        rw [hworker] at hp
        rw [hsame.received]
        rcases List.mem_append.mp hp with hout | hlast
        · exact hx.received p hout
        · -- the packet just processed is of the batch
          rw [List.mem_singleton.mp hlast]
          refine hflow.mem_received (j := j) ?_
          rw [Worker.batch_exec hpc]
          exact List.mem_of_getElem? hget
  | none =>
      have hst := workerExec_none hget
      have hworker : (x.st.workerExec j).worker j
          = { x.st.worker j with pc := .enqueue, totEnq := 0 } := by
        rw [hst]
        exact Function.update_self _ _ _
      refine hx.of_counts ⟨?_, ?_, rfl, rfl, rfl, by rw [hst]⟩ ?_ hcount
      · unfold Counted.uncounted
        dsimp only
        rw [hnone, Worker.uncounted_none hne, hworker, Worker.uncounted_enqueue rfl]
        rfl
      · dsimp only
        rw [hnone, Worker.owed_none hne, hworker, Worker.owed_enqueue rfl]
      · intro p hp
        dsimp only at hp ⊢
        rw [hworker] at hp
        rw [hsame.received]
        exact hx.received p hp

/-- **The enqueue loop**: what is forwarded waits to be counted. -/
theorem Tally.workerEnqueue (hx : Tally x j) (hflow : Flow x.st)
    (hpc : (x.st.worker j).pc = .enqueue) {k : ℕ}
    (hk : 0 < (x.st.worker j).outNum → k ≤ (x.st.worker j).outNum) :
    Tally (x.workerEnqueue j k) j := by
  have hnone := hx.counting_none (by rw [hpc]; decide)
  have hsum := (hflow.worker j).enqueue hpc
  have hbytes := hx.bytes
  have hcnt := hx.cnt
  unfold Counted.uncounted at hbytes
  rw [hnone, Worker.uncounted_enqueue hpc] at hbytes
  rw [hnone, Worker.owed_enqueue hpc] at hcnt
  unfold Counted.workerEnqueue State.workerEnqueue
  dsimp only
  split
  next hpos =>
    have hk' := hk hpos
    have hlen : (((x.st.worker j).mbufsOut.drop (x.st.worker j).totEnq).take k).length = k := by
      rw [List.length_take, List.length_drop]
      omega
    constructor
    · unfold Counted.uncounted
      dsimp only
      rw [Function.update_self, Function.update_self, hnone]
      show x.txBufBytes j + sumLens ((if (x.st.worker j).pc = .enqueue
        then (x.st.worker j).mbufsOut.take ((x.st.worker j).totEnq + k) else []).map x.lenOf) = _
      -- the burst stored lies behind what was stored before
      rw [if_pos hpc, List.take_add, List.map_append, sumLens_append, sumLens_append, ← hbytes,
        UInt64.add_assoc]
    · dsimp only
      rw [Function.update_self, Function.update_self, hnone]
      show x.txBufCnt j + UInt64.ofNat (if (x.st.worker j).pc = .enqueue
        then (x.st.worker j).totEnq + k else 0) = _
      rw [if_pos hpc, List.length_append, List.length_map, hlen, UInt64.ofNat_add,
        UInt64.ofNat_add, ← hcnt, UInt64.add_assoc]
    · dsimp only
      rw [Function.update_self, Function.update_self, List.length_append, List.length_map,
        ← List.append_assoc, List.length_append, hx.ghost]
    · intro p hp
      dsimp only at hp ⊢
      rw [Function.update_self] at hp
      exact hx.received p hp
    · intro i hi
      exact absurd (hi.symm.trans hnone) (Option.some_ne_none i)
  next hzero =>
    -- the pass is enqueued, the statistics loop begins
    refine hx.of_counts ⟨?_, ?_, rfl, rfl, rfl, rfl⟩ ?_ ?_
    · unfold Counted.uncounted
      dsimp only
      rw [Function.update_self, Function.update_self, hnone, Worker.uncounted_enqueue hpc]
      rfl
    · dsimp only
      rw [Function.update_self, Function.update_self, hnone, Worker.owed_enqueue hpc]
      rfl
    · intro p hp
      dsimp only at hp ⊢
      rw [Function.update_self] at hp
      exact hx.received p hp
    · intro i _
      dsimp only
      rw [Function.update_self]

/-- **The statistics loop**: one packet is counted, or the pass is. -/
theorem Tally.count (hx : Tally x j) {k : ℕ} (hk : x.counting j = some k) :
    Tally (x.count j k) j := by
  have hpc := hx.counting k hk
  have hbytes := hx.bytes
  have hcnt := hx.cnt
  unfold Counted.uncounted at hbytes
  rw [hk, Worker.uncounted_some] at hbytes
  rw [hk] at hcnt
  unfold Counted.count
  dsimp only
  split
  next mbuf hget =>
    obtain ⟨hlt, hmbuf⟩ := List.getElem?_eq_some_iff.mp hget
    -- the packet read is the first of the uncounted ones
    rw [List.drop_eq_getElem_cons hlt, hmbuf, List.map_cons, sumLens_cons, ← UInt64.add_assoc]
      at hbytes
    refine ⟨?_, ?_, hx.ghost, hx.received, fun _ _ => hpc⟩
    · unfold Counted.uncounted
      dsimp only
      rw [Function.update_self, Function.update_self]
      exact hbytes
    · dsimp only
      rw [Function.update_self]
      exact hcnt
  next hget =>
    have hne : (x.st.worker j).pc ≠ .enqueue := by
      rw [hpc]
      decide
    rw [List.drop_of_length_le (List.getElem?_eq_none_iff.mp hget)] at hbytes
    refine ⟨?_, ?_, hx.ghost, hx.received, fun _ _ => hpc⟩
    · unfold Counted.uncounted
      dsimp only
      rw [Function.update_self, Worker.uncounted_none hne]
      exact hbytes
    · dsimp only
      rw [Function.update_self, Function.update_self, Worker.owed_none hne, ← hcnt]
      exact UInt64.add_zero _

end WorkerSteps

end Counted

/-! ## §4. Every interleaving. -/

section Runs

variable {cfg : Config} {allowed : Counted W → Arrival → Prop} {x y : Counted W}

/-- Under the counters runs the data plane. -/
theorem CountStep.underlying (h : CountStep cfg allowed x y) :
    Step cfg x.st y.st ∨ y.st = x.st := by
  cases h with
  | receive a hpc hlen hnodup hfresh hfree hok =>
      exact Or.inl (.receive x.st a.burst hpc hlen hnodup hfresh)
  | inner hpc => exact Or.inl (.inner x.st hpc)
  | enqueue k hpc hk => exact Or.inl (.enqueue x.st k hpc hk)
  | aggregate k hpc hk => exact Or.inl (.aggregate x.st k hpc hk)
  | workerDequeue j k hpc hnone hk => exact Or.inl (.workerDequeue x.st j k hpc hk)
  | workerExec j hpc => exact Or.inl (.workerExec x.st j hpc)
  | workerEnqueue j k hpc hk =>
      left
      rw [Counted.workerEnqueue_st]
      exact .workerEnqueue x.st j k hpc hk
  | count j k hk => exact Or.inr (Counted.count_st x j k)

theorem CountReachable.flow [NeZero W] (h : CountReachable cfg allowed x) : Flow x.st := by
  refine ReflTransGen.invariant (fun x => Flow x.st) (Flow.init W) ?_ h
  intro x y hx hstep
  rcases hstep.underlying with hs | hs
  · exact hx.step hs
  · rw [hs]
    exact hx

/-- **Every step keeps the tallies**, where the device keeps away from uncounted
packets. -/
theorem Counted.Tally.step (hx : ∀ j, x.Tally j) (hflow : Flow x.st)
    (h : CountStep cfg Counted.Untouched x y) (i : Fin W) : y.Tally i := by
  cases h with
  | receive a hpc hlen hnodup hfresh hfree hfar => exact (hx i).receive hfresh hfar
  | inner hpc =>
      have hsame := sameWorkers_inner cfg x.st
      refine (hx i).main hsame.worker (inner_received cfg x.st) ?_
      rw [hsame.collected, hsame.tail]
  | enqueue k hpc hk =>
      have hsame := sameWorkers_enqueue x.st k
      refine (hx i).main hsame.worker (enqueue_received x.st k) ?_
      rw [hsame.collected, hsame.tail]
  | aggregate k hpc hk => exact (hx i).main rfl rfl (aggregate_passed x.st k i)
  | workerDequeue j k hpc hnone hk =>
      by_cases hi : i = j
      · rw [hi]
        exact (hx j).workerDequeue hpc hnone k
      · exact (hx i).of_other hi (onlyWorker_dequeue x.st j k) (sameMain_workerDequeue x.st j k)
          rfl rfl rfl rfl rfl
  | workerExec j hpc =>
      by_cases hi : i = j
      · rw [hi]
        exact (hx j).workerExec hflow hpc
      · exact (hx i).of_other hi (onlyWorker_exec x.st j) (sameMain_workerExec x.st j)
          rfl rfl rfl rfl rfl
  | workerEnqueue j k hpc hk =>
      by_cases hi : i = j
      · rw [hi]
        exact (hx j).workerEnqueue hflow hpc fun hpos =>
          (cfg.ring.enq_le (hk hpos)).trans (Nat.min_le_left _ _)
      · have honly := onlyWorker_enqueue x.st j k
        have hsame := sameMain_workerEnqueue x.st j k
        rw [← Counted.workerEnqueue_st] at honly hsame
        unfold Counted.workerEnqueue at honly hsame ⊢
        dsimp only at honly hsame ⊢
        split
        next hpos =>
          rw [if_pos hpos] at honly hsame
          exact (hx i).of_other hi honly hsame rfl rfl rfl (Function.update_of_ne hi _ _) rfl
        next hzero =>
          rw [if_neg hzero] at honly hsame
          exact (hx i).of_other hi honly hsame (Function.update_of_ne hi _ _) rfl rfl rfl rfl
  | count j k hk =>
      by_cases hi : i = j
      · rw [hi]
        exact (hx j).count hk
      · unfold Counted.count
        dsimp only
        split
        · exact (hx i).of_same ⟨rfl, Function.update_of_ne hi _ _, Function.update_of_ne hi _ _,
            rfl, rfl, rfl, List.Subset.refl _⟩ fun _ _ => rfl
        · exact (hx i).of_same ⟨rfl, Function.update_of_ne hi _ _, rfl,
            Function.update_of_ne hi _ _, rfl, rfl, List.Subset.refl _⟩ fun _ _ => rfl

end Runs

/-- **The workers' counters are exact**, between two passes of the loop, in every
run in which no arrival changes `data_len` in the buffer of a packet that a worker
has put on its tail ring and not counted yet. -/
theorem workerCounters_exact [NeZero W] {cfg : Config} {x : Counted W}
    (h : CountReachable cfg Counted.Untouched x) (j : Fin W) (htop : x.AtTop j) : x.Exact j := by
  have htally : ∀ i, x.Tally i :=
    ReflTransGen.invariant_reachable (fun x => ∀ i, Counted.Tally x i) (Counted.Tally.init W)
      (fun _ _ hreach hx hs => Counted.Tally.step hx (CountReachable.flow hreach) hs) h
  exact (htally j).exact htop

/-! ## §5. A buffer that is used again. -/

/-- Before the first arrival nothing is uncounted. -/
theorem Counted.init_untouched (W : ℕ) [NeZero W] (a : Arrival) : (Counted.init W).Untouched a :=
  fun _ _ _ _ hq => absurd hq List.not_mem_nil

/-- A packet of 60 bytes, on tail ring 0. -/
def onePassed (W : ℕ) [NeZero W] : Counted W :=
  let x := (Counted.init W).receive ⟨[7], fun _ => 0, fun _ => 60⟩
  let s := x.st.inner slices |>.enqueue 1 |>.enqueue 0 |>.workerDequeue 0 1
    |>.workerExec 0 |>.workerExec 0
  Counted.workerEnqueue { x with st := s } 0 1

theorem onePassed_reachable (allowed : Counted 1 → Arrival → Prop)
    (hok : allowed (Counted.init 1) ⟨[7], fun _ => 0, fun _ => 60⟩) :
    CountReachable slices allowed (onePassed 1) :=
  CountReachable.init 1 slices allowed
    |>.step (.receive _ ⟨[7], fun _ => 0, fun _ => 60⟩ rfl (by decide) (by decide) (by decide)
      ⟨by decide, by decide⟩ hok)
    |>.step (.inner _ rfl)
    |>.step (.enqueue _ 1 rfl fun _ => ⟨by decide, by decide⟩)
    |>.step (.enqueue _ 0 rfl fun h => absurd h (by decide))
    |>.step (.workerDequeue _ 0 1 rfl rfl ⟨by decide, by decide⟩)
    |>.step (.workerExec _ 0 rfl)
    |>.step (.workerExec _ 0 rfl)
    |>.step (.workerEnqueue _ 0 1 rfl fun _ => ⟨by decide, by decide⟩)

/-- The packet is counted while its buffer is as it was. -/
def onePassedCounted (W : ℕ) [NeZero W] : Counted W :=
  onePassed W |>.workerEnqueue 0 0 |>.count 0 0 |>.count 0 1

theorem onePassed_exact :
    (onePassedCounted 1).txBufBytes 0 = 60 ∧ (onePassedCounted 1).Exact 0 :=
  ⟨by decide, workerCounters_exact
    (onePassed_reachable Counted.Untouched (Counted.init_untouched 1 _)
      |>.step (.workerEnqueue _ 0 0 rfl fun h => absurd h (by decide))
      |>.step (.count _ 0 0 rfl)
      |>.step (.count _ 0 1 rfl)) 0 ⟨rfl, rfl⟩⟩

/-- Main frees the packet, and the device receives one of 1500 bytes into its
buffer, before the worker has counted the first. -/
def bufferReused (W : ℕ) [NeZero W] : Counted W :=
  let x := onePassed W
  Counted.receive { x with st := x.st.aggregate 1 |>.inner slices } ⟨[8], fun _ => 0, fun _ => 1500⟩
    |>.workerEnqueue 0 0 |>.count 0 0 |>.count 0 1

/-- The worker counts the bytes of a packet it has not seen. -/
theorem bufferReused_inexact :
    CountReachable slices (fun _ _ => True) (bufferReused 1) ∧ (bufferReused 1).AtTop 0
      ∧ (bufferReused 1).forwarded 0 = [60] ∧ (bufferReused 1).txBufBytes 0 = 1500
      ∧ ¬ (bufferReused 1).Exact 0 :=
  ⟨onePassed_reachable _ trivial
      |>.step (.aggregate _ 1 rfl ⟨by decide, by decide⟩)
      |>.step (.inner _ rfl)
      |>.step (.receive _ ⟨[8], fun _ => 0, fun _ => 1500⟩ rfl (by decide) (by decide)
        (by decide) ⟨by decide, by decide⟩ trivial)
      |>.step (.workerEnqueue _ 0 0 rfl fun h => absurd h (by decide))
      |>.step (.count _ 0 0 rfl)
      |>.step (.count _ 0 1 rfl),
    ⟨rfl, rfl⟩, by decide, by decide, fun h => absurd h.2.2 (by decide)⟩

end Meili.DataPlane
