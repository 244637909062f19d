/-
  Meili.DataPlane.Model — main and the workers in MEILI_MODE.

  `run_dpdk` (`src/runtime/run_dpdk.c`) receives bursts of mbufs, deals them
  out to head rings in slices of `batch_size_in`, and takes what the workers
  have put on the tail rings; `pipeline_stage_run_safe`
  (`src/runtime/pipeline.c`) is the loop of a worker.  `pipeline_init_safe`
  makes one stage of `cores - 1` instances, instance `j` with head ring `j`
  and tail ring `j` (rings are not shared).

  Every transition is a function on the state, named after the code it runs;
  `Step` says when it can be taken.  A step does at most one operation on a
  ring or on the device, together with the local code up to the next one.

  Conventions of the embedding:

    • an mbuf is a number; the device hands out numbers it has not used;
    • `force_quit` stays false and `max_cycles` is not reached;
    • `int` counters that stay between 0 and the length of a burst are `ℕ`,
      the others `ℤ`; where a signed counter leaves the range of `int` the
      behaviour of the program is undefined, and the run ends (`overflow`);
      `batch_cnt_wait_on_deq` stays within what the rings and the workers hold;
    • a worker has one ring on either side, so its ring indices stay 0;
    • time stamps, statistics other than main's packet counters, and prints
      are left out;
    • the fields behind `mainRxBufCnt` are ghosts: what happened so far.
-/
import Mathlib.Data.Int.Order.Basic
import Mathlib.Data.Fintype.Basic
import Meili.Lib.Burst

namespace Meili.DataPlane

open Meili.Lib

/-! ## §1. Constants and configuration. -/

/-- `DEFAULT_ETH_BATCH_SIZE`. -/
def defaultEthBatchSize : ℕ := 64

/-- `MAX_PKTS_BURST`, which is also `batch_size_out`. -/
def maxPktsBurst : ℕ := 8192

/-- `RING_SIZE`; an `rte_ring` stores one entry less. -/
def ringSize : ℕ := 8192

/-- The largest and the smallest `int`. -/
def intMax : ℤ := 2 ^ 31 - 1

def intMin : ℤ := -2 ^ 31

/-- What a run is configured with. -/
structure Config where
  /-- `batch_size_in`, the `input_batches` of the configuration. -/
  batchSizeIn : ℕ
  /-- `burst_size` of the workers, their `batch_size`. -/
  burstSize : ℕ
  /-- How many entries a burst operation on a ring moves. -/
  ring : BurstRule

/-- A packet buffer. -/
abbrev Mbuf := ℕ

/-! ## §2. State. -/

/-- Where main is in `run_dpdk`. -/
inductive MainPc where
  /-- Top of the outer loop, before `rte_eth_rx_burst`. -/
  | receive
  /-- The test of the inner loop. -/
  | inner
  /-- The loop that enqueues to a head ring. -/
  | enqueue
  /-- The label `aggregate_packets`. -/
  | aggregate
  /-- A signed counter has overflowed. -/
  | overflow
  deriving Repr, DecidableEq

/-- The local variables of main. -/
structure Main (W : ℕ) where
  pc : MainPc
  /-- The entries of `mbuf_in` that the last receive has written. -/
  mbufIn : List Mbuf
  batchCntEnq : ℕ
  batchCntWaitOnEnq : ℤ
  batchCntWaitOnDeq : ℤ
  batchCntTotEnq : ℕ
  totEnq : ℕ
  toEnq : ℕ
  ringInIndex : Fin W
  ringOutIndex : Fin W
  /-- `rm_stats->rx_buf_cnt`. -/
  rxBufCnt : UInt64
  /-- `rm_stats->tx_buf_cnt`. -/
  txBufCnt : UInt64

/-- Where a worker is in `pipeline_stage_run_safe`. -/
inductive WorkerPc where
  /-- Top of the main loop, before the dequeue. -/
  | dequeue
  /-- The loop over the batch. -/
  | exec
  /-- The loop that enqueues to the tail ring. -/
  | enqueue
  deriving Repr, DecidableEq

/-- The local variables of a worker. -/
structure Worker where
  pc : WorkerPc
  /-- The `nb_deq` entries of `mbufs_in`. -/
  mbufsIn : List Mbuf
  i : ℕ
  /-- The entries of `mbufs_out` written for this batch. -/
  mbufsOut : List Mbuf
  outNum : ℕ
  totEnq : ℕ

/-- Main, `W` workers and their rings. -/
structure State (W : ℕ) where
  main : Main W
  worker : Fin W → Worker
  /-- `pl->ring_in`: the head rings. -/
  head : Fin W → List Mbuf
  /-- `pl->ring_out`: the tail rings. -/
  tail : Fin W → List Mbuf
  /-- What `rte_eth_rx_burst` has handed out, in order. -/
  received : List Mbuf
  /-- What `seq_exec` has stamped, in order. -/
  sequenced : List Mbuf
  /-- What main has enqueued to head ring `j`, in order. -/
  dispatched : Fin W → List Mbuf
  /-- What worker `j` has handed to `pipeline_stage_exec`, in order. -/
  executed : Fin W → List Mbuf
  /-- What main has dequeued from tail ring `j`, in order. -/
  collected : Fin W → List Mbuf
  /-- What main has freed, in order. -/
  freed : List Mbuf

variable {W : ℕ}

/-- The start of a run, with `W = cores - 1` workers. -/
def State.init (W : ℕ) [NeZero W] : State W where
  main :=
    { pc := .receive, mbufIn := [], batchCntEnq := 0, batchCntWaitOnEnq := 0
      batchCntWaitOnDeq := 0, batchCntTotEnq := 0, totEnq := 0, toEnq := 0
      ringInIndex := 0, ringOutIndex := 0, rxBufCnt := 0, txBufCnt := 0 }
  worker := fun _ =>
    { pc := .dequeue, mbufsIn := [], i := 0, mbufsOut := [], outNum := 0, totEnq := 0 }
  head := fun _ => []
  tail := fun _ => []
  received := []
  sequenced := []
  dispatched := fun _ => []
  executed := fun _ => []
  collected := fun _ => []
  freed := []

/-! ## §3. Main. -/

/-- The updates of the inner loop's counters behind `finish_pipeline_batch`. -/
def Main.finish (m : Main W) : Main W :=
  let wait := m.batchCntWaitOnEnq - m.batchCntEnq
  let tot := m.batchCntTotEnq + m.batchCntEnq
  { m with
    pc := if wait < intMin ∨ intMax < tot then .overflow else .inner
    batchCntWaitOnEnq := wait
    batchCntTotEnq := tot }

namespace State

/-- `rte_eth_rx_burst` hands out `burst`; up to the test of the inner loop, or
to `aggregate_packets`, or to the next receive. -/
def receive (s : State W) (burst : List Mbuf) : State W :=
  if burst.length = 0 then
    if s.main.batchCntWaitOnDeq > 0 then
      { s with main := { s.main with pc := .aggregate } }
    else s
  else
    { s with
      main := { s.main with
        pc := .inner
        mbufIn := burst
        rxBufCnt := s.main.rxBufCnt + UInt64.ofNat burst.length
        batchCntWaitOnEnq := burst.length
        batchCntTotEnq := 0 }
      received := s.received ++ burst }

/-- The test of the inner loop, up to the enqueue loop or back to the top. -/
def inner (cfg : Config) (s : State W) : State W :=
  if s.main.batchCntWaitOnEnq > 0 then
    let batchCntEnq := min cfg.batchSizeIn s.main.batchCntWaitOnEnq.toNat
    { s with
      main := { s.main with
        pc := .enqueue
        batchCntEnq := batchCntEnq
        batchCntWaitOnDeq := s.main.batchCntWaitOnDeq + batchCntEnq
        totEnq := 0
        toEnq := batchCntEnq }
      -- `seq_exec(seq_stage, &mbuf_in[batch_cnt_tot_enq], batch_cnt_enq)`
      sequenced := s.sequenced ++ (s.main.mbufIn.drop s.main.batchCntTotEnq).take batchCntEnq }
  else { s with main := { s.main with pc := .receive } }

/-- The enqueue loop of main, one test: a burst enqueue of which `k` entries are
stored, or on to `aggregate_packets` with the next head ring. -/
def enqueue (s : State W) (k : ℕ) : State W :=
  if s.main.totEnq < s.main.batchCntEnq then
    let j := s.main.ringInIndex
    let mbufs := (s.main.mbufIn.drop (s.main.batchCntTotEnq + s.main.totEnq)).take k
    { s with
      main := { s.main with totEnq := s.main.totEnq + k, toEnq := s.main.toEnq - k }
      head := Function.update s.head j (s.head j ++ mbufs)
      dispatched := Function.update s.dispatched j (s.dispatched j ++ mbufs) }
  else
    { s with main := { s.main with pc := .aggregate, ringInIndex := roundNext s.main.ringInIndex } }

/-- `aggregate_packets`: a burst dequeue that takes `k` entries, which are
counted and freed, up to the test of the inner loop. -/
def aggregate (s : State W) (k : ℕ) : State W :=
  let j := s.main.ringOutIndex
  let mbufs := (s.tail j).take k
  { s with
    main := Main.finish { s.main with
      ringOutIndex := roundNext s.main.ringOutIndex
      txBufCnt := s.main.txBufCnt + UInt64.ofNat k
      batchCntWaitOnDeq := s.main.batchCntWaitOnDeq - k }
    tail := Function.update s.tail j ((s.tail j).drop k)
    collected := Function.update s.collected j (s.collected j ++ mbufs)
    freed := s.freed ++ mbufs }

/-! ## §4. A worker. -/

/-- The dequeue of worker `j`, which takes `k` entries. -/
def workerDequeue (s : State W) (j : Fin W) (k : ℕ) : State W :=
  { s with
    worker := Function.update s.worker j { s.worker j with
      pc := .exec
      mbufsIn := (s.head j).take k
      i := 0
      mbufsOut := [] }
    head := Function.update s.head j ((s.head j).drop k) }

/-- One iteration of the loop over the batch, or on to the enqueue loop. -/
def workerExec (s : State W) (j : Fin W) : State W :=
  let w := s.worker j
  match w.mbufsIn[w.i]? with
  | some mbuf =>
      { s with
        worker := Function.update s.worker j { w with
          i := w.i + 1
          mbufsOut := w.mbufsOut ++ [mbuf]
          outNum := w.outNum + 1 }
        executed := Function.update s.executed j (s.executed j ++ [mbuf]) }
  | none =>
      { s with worker := Function.update s.worker j { w with pc := .enqueue, totEnq := 0 } }

/-- The enqueue loop of worker `j`, one test: a burst enqueue of which `k`
entries are stored, or back to the top. -/
def workerEnqueue (s : State W) (j : Fin W) (k : ℕ) : State W :=
  let w := s.worker j
  if 0 < w.outNum then
    let mbufs := (w.mbufsOut.drop w.totEnq).take k
    { s with
      worker := Function.update s.worker j { w with
        totEnq := w.totEnq + k
        outNum := w.outNum - k }
      tail := Function.update s.tail j (s.tail j ++ mbufs) }
  else
    { s with worker := Function.update s.worker j { w with pc := .dequeue } }

end State

/-! ## §5. Interleavings. -/

/-- One step of main or of a worker. -/
inductive Step (cfg : Config) : State W → State W → Prop
  /-- The device hands out up to `DEFAULT_ETH_BATCH_SIZE` mbufs it has not used. -/
  | receive (s : State W) (burst : List Mbuf) :
      s.main.pc = .receive → burst.length ≤ defaultEthBatchSize → burst.Nodup →
      (∀ p ∈ burst, p ∉ s.received) → Step cfg s (s.receive burst)
  | inner (s : State W) : s.main.pc = .inner → Step cfg s (s.inner cfg)
  | enqueue (s : State W) (k : ℕ) :
      s.main.pc = .enqueue →
      (s.main.totEnq < s.main.batchCntEnq →
        cfg.ring.enq s.main.toEnq (s.head s.main.ringInIndex).length k) →
      Step cfg s (s.enqueue k)
  | aggregate (s : State W) (k : ℕ) :
      s.main.pc = .aggregate →
      cfg.ring.deq maxPktsBurst (s.tail s.main.ringOutIndex).length k →
      Step cfg s (s.aggregate k)
  | workerDequeue (s : State W) (j : Fin W) (k : ℕ) :
      (s.worker j).pc = .dequeue → cfg.ring.deq cfg.burstSize (s.head j).length k →
      Step cfg s (s.workerDequeue j k)
  | workerExec (s : State W) (j : Fin W) :
      (s.worker j).pc = .exec → Step cfg s (s.workerExec j)
  | workerEnqueue (s : State W) (j : Fin W) (k : ℕ) :
      (s.worker j).pc = .enqueue →
      (0 < (s.worker j).outNum →
        cfg.ring.enq (min (s.worker j).outNum cfg.burstSize) (s.tail j).length k) →
      Step cfg s (s.workerEnqueue j k)

/-- `s` occurs in some interleaving. -/
def Reachable [NeZero W] (cfg : Config) (s : State W) : Prop :=
  Relation.ReflTransGen (Step cfg) (State.init W) s

theorem Reachable.init (W : ℕ) [NeZero W] (cfg : Config) : Reachable cfg (State.init W) :=
  Relation.ReflTransGen.refl

theorem Reachable.step [NeZero W] {cfg : Config} {s s' : State W} (h : Reachable cfg s)
    (hstep : Step cfg s s') : Reachable cfg s' :=
  Relation.ReflTransGen.tail h hstep

/-! ## §6. Where a packet is. -/

/-- The slice of `mbuf_in` that main has not enqueued yet. -/
def Main.pending (m : Main W) : List Mbuf :=
  match m.pc with
  | .enqueue => m.mbufIn.drop (m.batchCntTotEnq + m.totEnq)
  | .aggregate => m.mbufIn.drop (m.batchCntTotEnq + m.batchCntEnq)
  | _ => m.mbufIn.drop m.batchCntTotEnq

/-- The batch a worker holds: all of `mbufs_in` until it has been processed,
then what of `mbufs_out` is not enqueued yet. -/
def Worker.batch (w : Worker) : List Mbuf :=
  match w.pc with
  | .dequeue => []
  | .exec => w.mbufsIn
  | .enqueue => w.mbufsOut.drop w.totEnq

/-- The part of the batch that went through `pipeline_stage_exec`. -/
def Worker.processed (w : Worker) : List Mbuf :=
  match w.pc with
  | .dequeue => []
  | .exec => w.mbufsIn.take w.i
  | .enqueue => w.mbufsOut.drop w.totEnq

theorem Main.pending_receive {m : Main W} (hpc : m.pc = .receive) :
    m.pending = m.mbufIn.drop m.batchCntTotEnq := by
  unfold Main.pending
  rw [hpc]

theorem Main.pending_inner {m : Main W} (hpc : m.pc = .inner) :
    m.pending = m.mbufIn.drop m.batchCntTotEnq := by
  unfold Main.pending
  rw [hpc]

theorem Main.pending_enqueue {m : Main W} (hpc : m.pc = .enqueue) :
    m.pending = m.mbufIn.drop (m.batchCntTotEnq + m.totEnq) := by
  unfold Main.pending
  rw [hpc]

theorem Main.pending_aggregate {m : Main W} (hpc : m.pc = .aggregate) :
    m.pending = m.mbufIn.drop (m.batchCntTotEnq + m.batchCntEnq) := by
  unfold Main.pending
  rw [hpc]

section Batch

variable {w : Worker}

theorem Worker.batch_dequeue (hpc : w.pc = .dequeue) : w.batch = [] := by
  unfold Worker.batch
  rw [hpc]

theorem Worker.batch_exec (hpc : w.pc = .exec) : w.batch = w.mbufsIn := by
  unfold Worker.batch
  rw [hpc]

theorem Worker.batch_enqueue (hpc : w.pc = .enqueue) : w.batch = w.mbufsOut.drop w.totEnq := by
  unfold Worker.batch
  rw [hpc]

theorem Worker.processed_dequeue (hpc : w.pc = .dequeue) : w.processed = [] := by
  unfold Worker.processed
  rw [hpc]

theorem Worker.processed_exec (hpc : w.pc = .exec) : w.processed = w.mbufsIn.take w.i := by
  unfold Worker.processed
  rw [hpc]

theorem Worker.processed_enqueue (hpc : w.pc = .enqueue) :
    w.processed = w.mbufsOut.drop w.totEnq := by
  unfold Worker.processed
  rw [hpc]

end Batch

/-- The number of packets between head ring `j` and tail ring `j`, both
included. -/
def State.load (s : State W) (j : Fin W) : ℕ :=
  (s.head j).length + (s.worker j).batch.length + (s.tail j).length

/-- The number of packets inside the pipeline. -/
def State.inFlight (s : State W) : ℕ := ∑ j, s.load j

end Meili.DataPlane
