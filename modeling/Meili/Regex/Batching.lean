/-
  Meili.Regex.Batching — jobs of the regex device, sent in batches.

  `regex()` (`src/lib/meili.c`) puts a packet into the next op of the worker's
  slice of `ops_arr_tx` and, when the slice is full, sends all of it to the
  device; else it looks for answers (`src/lib/regex/dpdk_bf_regex.c`).  A step is
  one submission, one burst offered to the device, or one burst of answers.

  The invariant of a queue (`Batch`): what the device has accepted, and then the
  pending part of the slice, is what was submitted.  A queue stays inside its own
  slice, so the steps of the others leave it alone (`SameQueue`).

  `regex()` passes statistics on that it has never set, and some steps add to a counter
  through the pointer `custom` in them.  Such a write may hit anything (`Stray`), and
  then the invariant is lost: `regexBatching_exact_iff`.

  Conventions of the embedding:

    • queue `q` is that of the worker with `worker_qid = q`;
    • an op is what the sources read of it: its mbuf and its user pointer;
    • group ids are left out, and so is the time, which only the counters hold;
    • a stray write hits one thing at a time, and none of the local variables; where it
      hits no memory the process ends, and there is no step;
    • the device may take any prefix of a burst and answer in any order.
-/
import Mathlib.Algebra.Order.BigOperators.Group.Finset
import Meili.DataPlane.Metadata
import Meili.Lib.Burst

namespace Meili.Regex

open Meili.Lib Meili.DataPlane

/-! ## §1. Queues. -/

/-- The flags of an answer that `rte_regexdev.h` defines. -/
structure RspFlags where
  /-- `RTE_REGEX_OPS_RSP_MAX_SCAN_TIMEOUT_F`. -/
  maxScanTimeout : UInt16
  /-- `RTE_REGEX_OPS_RSP_MAX_MATCH_F`. -/
  maxMatch : UInt16
  /-- `RTE_REGEX_OPS_RSP_MAX_PREFIX_F`. -/
  maxPrefix : UInt16

/-- What the regex functions are configured with. -/
structure RegexConfig where
  /-- `max_batch_size`, the `input_batches` of the configuration. -/
  maxBatchSize : ℕ
  layout : Layout
  rspFlags : RspFlags

/-- `struct rte_regex_ops`. -/
structure RegexOp where
  mbuf : Option Mbuf
  userPtr : Option Mbuf

/-- `struct per_core_globals`; `buf_id` is with the memory of the mbufs. -/
structure CoreVars where
  totalEnqueued : UInt64
  totalDequeued : UInt64
  opOffset : UInt16

/-- Where a worker is in `regex()`. -/
inductive Pc where
  /-- Not in `regex()`. -/
  | idle
  /-- At the test of the loop in `regex_dev_dpdk_bf_send_ops_pipeline`. -/
  | send (toEnqueue numEnqueued : UInt16) (txFull : Bool)
  /-- Before the dequeue in that loop. -/
  | poll (toEnqueue numEnqueued : UInt16) (txFull : Bool)
  /-- Before the dequeue of `regex_dev_dpdk_bf_force_batch_pull`. -/
  | pull
  deriving DecidableEq

/-- `Q` queues, and the device. -/
structure Queues (Q : ℕ) where
  /-- First `max_batch_size` entries are queue 0, next queue 1 etc. -/
  opsArrTx : ℕ → RegexOp
  coreVars : Fin Q → CoreVars
  mem : Memory
  pc : Fin Q → Pc
  /-- What the device has accepted from a queue and not answered. -/
  inDevice : Fin Q → List (Option Mbuf)
  /-- What was handed to `regex()`, in order: a ghost, as the next two. -/
  submitted : Fin Q → List Mbuf
  /-- The job numbers found in these packets behind the submission. -/
  jobIds : Fin Q → List UInt64
  /-- The mbufs of the ops the device has accepted, in order. -/
  accepted : Fin Q → List (Option Mbuf)

variable {Q : ℕ}

/-- Behind `regex_dev_init_ops`; the ops and the mbufs hold anything. -/
def Queues.init (ops : ℕ → RegexOp) (words : Mbuf → Words) : Queues Q where
  opsArrTx := ops
  coreVars := fun _ => { totalEnqueued := 0, totalDequeued := 0, opOffset := 0 }
  mem := (Traced.init words).mem
  pc := fun _ => .idle
  inDevice := fun _ => []
  submitted := fun _ => []
  jobIds := fun _ => []
  accepted := fun _ => []

/-- An op that the device has answered. -/
structure Answer where
  userPtr : Option Mbuf
  rspFlags : UInt16

/-- The counters in `rxp_stats_t` that are added to. -/
inductive RxpStat where
  | rxInvalid | rxTimeout | rxMaxMatch | rxMaxPrefix | rxResourceLimit | txBusy
  deriving DecidableEq

/-- `RTE_REGEX_OPS_RSP_RESOURCE_LIMIT_REACHED_F`, which the source defines as `1 << 4`. -/
def rspResourceLimitReachedF : UInt16 := 16

/-- `regex_dev_dpdk_bf_process_resp`: the counters it adds to. -/
def processResp (f : RspFlags) (resFlags : UInt16) : List RxpStat :=
  if resFlags ≠ 0 then
    (if resFlags &&& f.maxScanTimeout ≠ 0 then [.rxTimeout]
      else if resFlags &&& f.maxMatch ≠ 0 then [.rxMaxMatch]
      else if resFlags &&& f.maxPrefix ≠ 0 then [.rxMaxPrefix]
      else if resFlags &&& rspResourceLimitReachedF ≠ 0 then [.rxResourceLimit]
      else []) ++ [.rxInvalid]
  else []

/-- What `rxp_stats->counter += n` does, where `rxp_stats` was never set. -/
inductive Stray (Q : ℕ) where
  /-- It hits memory that none of this is in. -/
  | elsewhere
  | coreVars (i : Fin Q) (coreVars : CoreVars)
  | bufId (i : Fin Q) (bufId : UInt64)
  | op (i : ℕ) (op : RegexOp)
  | dynfield (mbuf : Mbuf) (words : Words)

/-- The pointer may be anything. -/
def anywhere : Stray Q → Prop := fun _ => True

/-- The pointer happens to hit nothing of this. -/
def harmless : Stray Q → Prop := (· = .elsewhere)

/-- `-ENOMEM`. -/
def errNoMem : ℤ := -12

namespace Queues

/-- One stray write. -/
def hit (x : Queues Q) : Stray Q → Queues Q
  | .elsewhere => x
  | .coreVars i coreVars => { x with coreVars := Function.update x.coreVars i coreVars }
  | .bufId i bufId =>
      { x with mem := { x.mem with bufId := Function.update x.mem.bufId i bufId } }
  | .op i op => { x with opsArrTx := Function.update x.opsArrTx i op }
  | .dynfield mbuf words =>
      { x with mem := { x.mem with words := Function.update x.mem.words mbuf words } }

/-- `regex_dev_dpdk_bf_search_live`, with what it returns. -/
def searchLive (cfg : RegexConfig) (x : Queues Q) (q : Fin Q) (pkt : Option Mbuf) :
    Queues Q × ℤ :=
  let perQOffset := (x.coreVars q).opOffset
  let i := q.val * cfg.maxBatchSize + perQOffset.toNat
  match pkt with
  | none =>
      ({ x with opsArrTx := Function.update x.opsArrTx i { x.opsArrTx i with mbuf := none } },
        errNoMem)
  | some mbuf =>
      let mem := x.mem.prepOp cfg.layout q mbuf
      let opOffset := perQOffset + 1
      ({ x with
          opsArrTx := Function.update x.opsArrTx i { mbuf := some mbuf, userPtr := some mbuf }
          mem := mem
          coreVars := Function.update x.coreVars q { x.coreVars q with opOffset := opOffset }
          submitted := Function.update x.submitted q (x.submitted q ++ [mbuf])
          jobIds := Function.update x.jobIds q (x.jobIds q ++ [mem.jobId cfg.layout mbuf]) },
        if opOffset.toNat = cfg.maxBatchSize then 1 else 0)

/-- `regex()`, up to the first operation on the device. -/
def regex (cfg : RegexConfig) (x : Queues Q) (q : Fin Q) (pkt : Option Mbuf) : Queues Q :=
  let (y, toSend) := x.searchLive cfg q pkt
  { y with
    pc := Function.update y.pc q
      (if toSend ≠ 0 then .send (y.coreVars q).opOffset 0 false else .pull) }

/-- The counters that the loop of `regex_dev_dpdk_bf_send_ops_pipeline` adds to, where the
device accepts `k` ops of a burst. -/
def sendCounters (toEnqueue numEnqueued : UInt16) (txFull : Bool) (k : ℕ) : List RxpStat :=
  if numEnqueued < toEnqueue ∧ k ≠ 0 ∧ txFull then [.txBusy] else []

/-- The loop of `regex_dev_dpdk_bf_send_ops_pipeline`, one test: a burst of which the
device accepts `k` ops, or the end of the batch.  `strays` are the writes to `tx_busy`. -/
def sendOps (cfg : RegexConfig) (x : Queues Q) (q : Fin Q) (toEnqueue numEnqueued : UInt16)
    (k : ℕ) (strays : List (Stray Q)) : Queues Q :=
  if numEnqueued < toEnqueue then
    let ops := (List.range' (q.val * cfg.maxBatchSize + numEnqueued.toNat) k).map x.opsArrTx
    strays.foldl hit
      { x with
        pc := Function.update x.pc q (.poll toEnqueue (numEnqueued + UInt16.ofNat k) (k = 0))
        inDevice := Function.update x.inDevice q (x.inDevice q ++ ops.map (·.mbuf))
        accepted := Function.update x.accepted q (x.accepted q ++ ops.map (·.mbuf)) }
  else
    { x with
      coreVars := Function.update x.coreVars q { x.coreVars q with
        totalEnqueued := (x.coreVars q).totalEnqueued + numEnqueued.toUInt64
        opOffset := 0 }
      pc := Function.update x.pc q .idle }

/-- `regex_dev_dpdk_bf_dequeue_pipeline`: `answers` are taken, `rest` stays.  `strays` are the
writes of `regex_dev_dpdk_bf_process_resp`; the counters of the queue are added to behind
them. -/
def dequeue (x : Queues Q) (q : Fin Q) (answers : List Answer) (rest : List (Option Mbuf))
    (strays : List (Stray Q)) : Queues Q :=
  let y := strays.foldl hit x
  { y with
    coreVars := Function.update y.coreVars q { y.coreVars q with
      totalDequeued := (y.coreVars q).totalDequeued + UInt64.ofNat answers.length }
    inDevice := Function.update x.inDevice q rest
    pc := Function.update x.pc q (match x.pc q with
      | .poll toEnqueue numEnqueued txFull => .send toEnqueue numEnqueued txFull
      | _ => .idle) }

end Queues

/-- What the caller and the device do. -/
inductive Event where
  | regex (pkt : Option Mbuf)
  /-- `rte_regexdev_enqueue_burst` accepts `k` ops. -/
  | send (k : ℕ)
  /-- `rte_regexdev_dequeue_burst` hands out `answers`. -/
  | dequeue (answers : List Answer) (rest : List (Option Mbuf))

/-- One step on queue `q`; what is written through `custom` satisfies `hits`. -/
inductive QueueStep (cfg : RegexConfig) (hits : Stray Q → Prop) (q : Fin Q) :
    Event → Queues Q → Queues Q → Prop
  | regex (x : Queues Q) (pkt : Option Mbuf) :
      x.pc q = .idle → QueueStep cfg hits q (.regex pkt) x (x.regex cfg q pkt)
  /-- `rte_regexdev_enqueue_burst` accepts any prefix of the burst. -/
  | send (x : Queues Q) (toEnqueue numEnqueued : UInt16) (txFull : Bool) (k : ℕ)
      (strays : List (Stray Q)) :
      x.pc q = .send toEnqueue numEnqueued txFull → k ≤ toEnqueue.toNat - numEnqueued.toNat →
      strays.length = (Queues.sendCounters toEnqueue numEnqueued txFull k).length →
      (∀ w ∈ strays, hits w) →
      QueueStep cfg hits q (.send k) x (x.sendOps cfg q toEnqueue numEnqueued k strays)
  /-- `rte_regexdev_dequeue_burst` hands out any answers, up to a batch of them. -/
  | dequeue (x : Queues Q) (answers : List Answer) (rest : List (Option Mbuf))
      (strays : List (Stray Q)) :
      ((∃ toEnqueue numEnqueued txFull, x.pc q = .poll toEnqueue numEnqueued txFull)
        ∨ x.pc q = .pull) →
      (x.inDevice q).Perm (answers.map (·.userPtr) ++ rest) → answers.length ≤ cfg.maxBatchSize →
      strays.length = (answers.flatMap fun a => processResp cfg.rspFlags a.rspFlags).length →
      (∀ w ∈ strays, hits w) →
      QueueStep cfg hits q (.dequeue answers rest) x (x.dequeue q answers rest strays)

/-- `x` occurs in some interleaving of the queues. -/
def QueuesReachable (cfg : RegexConfig) (hits : Stray Q → Prop) (x : Queues Q) : Prop :=
  ∃ ops words, Relation.ReflTransGen (fun x y => ∃ q ev, QueueStep cfg hits q ev x y)
    (Queues.init ops words) x

/-- Nothing is written through `custom`: no op is accepted behind a burst of the same batch of
which none was, and no answer has a flag. -/
def Queues.Quiet (x : Queues Q) (q : Fin Q) : Event → Prop
  | .regex _ => True
  | .send k => ∀ toEnqueue numEnqueued, x.pc q = .send toEnqueue numEnqueued true →
      numEnqueued < toEnqueue → k = 0
  | .dequeue answers _ => ∀ a ∈ answers, a.rspFlags = 0

/-- `x` occurs in an interleaving whose steps are all quiet. -/
def QuietReachable (cfg : RegexConfig) (x : Queues Q) : Prop :=
  ∃ ops words, Relation.ReflTransGen
    (fun x y => ∃ q ev, x.Quiet q ev ∧ QueueStep cfg anywhere q ev x y) (Queues.init ops words) x

/-- How many ops of the slice the device has accepted already. -/
def Pc.sent : Pc → ℕ
  | .send _ numEnqueued _ => numEnqueued.toNat
  | .poll _ numEnqueued _ => numEnqueued.toNat
  | _ => 0

/-- The pending part of a queue's slice. -/
def Queues.pendingOps (cfg : RegexConfig) (x : Queues Q) (q : Fin Q) : List RegexOp :=
  (List.range' (q.val * cfg.maxBatchSize + (x.pc q).sent)
    ((x.coreVars q).opOffset.toNat - (x.pc q).sent)).map x.opsArrTx

/-- From `x` to `y`, nothing has changed in the slice of queue `q`, nor in its
counters and its part of the device. -/
structure SameQueue (cfg : RegexConfig) (x y : Queues Q) (q : Fin Q) : Prop where
  ops : ∀ i < cfg.maxBatchSize, y.opsArrTx (q.val * cfg.maxBatchSize + i)
    = x.opsArrTx (q.val * cfg.maxBatchSize + i)
  coreVars : y.coreVars q = x.coreVars q
  bufId : y.mem.bufId q = x.mem.bufId q
  pc : y.pc q = x.pc q
  inDevice : y.inDevice q = x.inDevice q
  submitted : y.submitted q = x.submitted q
  jobIds : y.jobIds q = x.jobIds q
  accepted : y.accepted q = x.accepted q

/-! ## §2. The invariant of a queue. -/

/-- What holds of the counters in `regex()`. -/
def Pc.Fits (maxBatchSize opOffset : ℕ) : Pc → Prop
  | .idle => opOffset < maxBatchSize
  | .pull => opOffset < maxBatchSize
  | .send toEnqueue numEnqueued _ =>
      toEnqueue.toNat = opOffset ∧ numEnqueued.toNat ≤ opOffset ∧ opOffset ≤ maxBatchSize
  | .poll toEnqueue numEnqueued _ =>
      toEnqueue.toNat = opOffset ∧ numEnqueued.toNat ≤ opOffset ∧ opOffset ≤ maxBatchSize

/-- The job numbers 1, 2, 3, ... -/
def firstIds (n : ℕ) : List UInt64 := (List.range n).map fun i => UInt64.ofNat (i + 1)

/-- The invariant of queue `q`. -/
structure Batch (cfg : RegexConfig) (x : Queues Q) (q : Fin Q) : Prop where
  fits : (x.pc q).Fits cfg.maxBatchSize (x.coreVars q).opOffset.toNat
  fifo : x.accepted q ++ (x.pendingOps cfg q).map (·.mbuf) = (x.submitted q).map some
  bufId : x.mem.bufId q = UInt64.ofNat (x.submitted q).length
  jobIds : x.jobIds q = firstIds (x.submitted q).length

section Invariant

variable {cfg : RegexConfig} {x y : Queues Q} {q : Fin Q}

theorem Pc.Fits.le {maxBatchSize opOffset : ℕ} {pc : Pc} (h : pc.Fits maxBatchSize opOffset) :
    opOffset ≤ maxBatchSize := by
  cases pc with
  | idle => exact Nat.le_of_lt h
  | pull => exact Nat.le_of_lt h
  | send _ _ _ => exact h.2.2
  | poll _ _ _ => exact h.2.2

theorem Pc.Fits.sent_le {maxBatchSize opOffset : ℕ} {pc : Pc} (h : pc.Fits maxBatchSize opOffset) :
    pc.sent ≤ opOffset := by
  cases pc with
  | idle => exact Nat.zero_le _
  | pull => exact Nat.zero_le _
  | send _ _ _ => exact h.2.1
  | poll _ _ _ => exact h.2.1

theorem firstIds_succ (n : ℕ) : firstIds (n + 1) = firstIds n ++ [UInt64.ofNat (n + 1)] := by
  unfold firstIds
  rw [List.range_succ, List.map_append]
  rfl

/-- Two slices do not meet. -/
theorem slice_ne {m a b : ℕ} {i j : ℕ} (hij : i ≠ j) (ha : a < m) (hb : b < m) :
    i * m + a ≠ j * m + b := by
  intro heq
  have hm : 0 < m := Nat.zero_lt_of_lt ha
  have hdiv := congrArg (· / m) heq
  rw [Nat.mul_comm i, Nat.mul_comm j, Nat.mul_add_div hm, Nat.mul_add_div hm,
    Nat.div_eq_of_lt ha, Nat.div_eq_of_lt hb] at hdiv
  exact hij hdiv

/-- The pending part reads the slice at the entries it consists of. -/
theorem pendingOps_congr (hx : (x.pc q).Fits cfg.maxBatchSize (x.coreVars q).opOffset.toNat)
    (hpc : (y.pc q).sent = (x.pc q).sent)
    (hoff : (y.coreVars q).opOffset = (x.coreVars q).opOffset)
    (hops : ∀ i < (x.coreVars q).opOffset.toNat, y.opsArrTx (q.val * cfg.maxBatchSize + i)
      = x.opsArrTx (q.val * cfg.maxBatchSize + i)) :
    y.pendingOps cfg q = x.pendingOps cfg q := by
  have hle := hx.sent_le
  unfold Queues.pendingOps
  rw [hpc, hoff]
  apply List.map_congr_left
  intro n hn
  obtain ⟨hlow, hhigh⟩ := List.mem_range'_1.mp hn
  obtain ⟨i, rfl⟩ : ∃ i, n = q.val * cfg.maxBatchSize + i :=
    ⟨n - q.val * cfg.maxBatchSize, by omega⟩
  exact hops i (by omega)

/-- **What the other queues do** leaves the invariant as it is. -/
theorem Batch.of_same (h : Batch cfg x q) (hsame : SameQueue cfg x y q) : Batch cfg y q where
  fits := by
    rw [hsame.pc, hsame.coreVars]
    exact h.fits
  fifo := by
    have hops := pendingOps_congr (y := y) h.fits (by rw [hsame.pc]) (by rw [hsame.coreVars])
      fun i hi => hsame.ops i (Nat.lt_of_lt_of_le hi h.fits.le)
    rw [hsame.accepted, hops, hsame.submitted]
    exact h.fifo
  bufId := by
    rw [hsame.bufId, hsame.submitted]
    exact h.bufId
  jobIds := by
    rw [hsame.jobIds, hsame.submitted]
    exact h.jobIds

theorem Batch.init (hpos : 0 < cfg.maxBatchSize) (ops : ℕ → RegexOp) (words : Mbuf → Words)
    (q : Fin Q) : Batch cfg (Queues.init ops words) q :=
  ⟨hpos, rfl, rfl, rfl⟩

/-- An offset inside a batch does not wrap. -/
theorem toNat_add_of_le {a : UInt16} {k : ℕ} (h : a.toNat + k ≤ 1024) :
    (a + UInt16.ofNat k).toNat = a.toNat + k := by
  rw [UInt16.toNat_add, UInt16.toNat_ofNat']
  omega

/-! ## §3. Steps. -/

/-- **A packet that is not there** makes `regex()` send the batch as it is. -/
theorem Batch.regex_none (h : Batch cfg x q) (hpc : x.pc q = .idle) :
    Batch cfg (x.regex cfg q none) q := by
  have hfits := h.fits
  rw [hpc] at hfits
  have hlt : (x.coreVars q).opOffset.toNat < cfg.maxBatchSize := hfits
  have hpc' : (x.regex cfg q none).pc q = .send (x.coreVars q).opOffset 0 false :=
    Function.update_self _ _ _
  refine ⟨?_, ?_, h.bufId, h.jobIds⟩
  · rw [hpc']
    exact ⟨rfl, Nat.zero_le _, Nat.le_of_lt hlt⟩
  · -- the op that was touched is not of the pending part
    have hops : (x.regex cfg q none).pendingOps cfg q = x.pendingOps cfg q := by
      refine pendingOps_congr h.fits ?_ rfl fun i hi => ?_
      · rw [hpc', hpc]
        rfl
      · exact Function.update_of_ne (by omega) _ _
    rw [hops]
    exact h.fifo

/-- Behind a submission the batch is sent if it is full. -/
theorem regex_some_pc (hmax : cfg.maxBatchSize ≤ 1024)
    (hlt : (x.coreVars q).opOffset.toNat < cfg.maxBatchSize) (p : Mbuf) :
    (((x.regex cfg q (some p)).coreVars q).opOffset.toNat = (x.coreVars q).opOffset.toNat + 1)
      ∧ ((x.regex cfg q (some p)).pc q).sent = 0
      ∧ ((x.regex cfg q (some p)).pc q).Fits cfg.maxBatchSize
          ((x.coreVars q).opOffset.toNat + 1) := by
  have hcv : (x.regex cfg q (some p)).coreVars q
      = { x.coreVars q with opOffset := (x.coreVars q).opOffset + 1 } :=
    Function.update_self _ _ _
  have hone : ((x.coreVars q).opOffset + 1).toNat = (x.coreVars q).opOffset.toNat + 1 :=
    toNat_add_of_le (k := 1) (by omega)
  have hpc : (x.regex cfg q (some p)).pc q
      = if (if ((x.coreVars q).opOffset + 1).toNat = cfg.maxBatchSize then (1 : ℤ) else 0) ≠ 0
        then .send ((x.regex cfg q (some p)).coreVars q).opOffset 0 false else .pull :=
    Function.update_self _ _ _
  rw [hcv, hone] at hpc
  rw [hpc, hcv]
  by_cases hfull : (x.coreVars q).opOffset.toNat + 1 = cfg.maxBatchSize
  · rw [if_pos hfull, if_pos (by decide)]
    exact ⟨hone, rfl, hone, Nat.zero_le _, Nat.le_of_eq hfull⟩
  · rw [if_neg hfull, if_neg (by decide)]
    exact ⟨hone, rfl, by show _ + 1 < _; omega⟩

/-- **A packet** becomes the last pending op, with the next job number. -/
theorem Batch.regex_some (hmax : cfg.maxBatchSize ≤ 1024) (h : Batch cfg x q)
    (hpc : x.pc q = .idle) (p : Mbuf) : Batch cfg (x.regex cfg q (some p)) q := by
  have hfits := h.fits
  rw [hpc] at hfits
  have hlt : (x.coreVars q).opOffset.toNat < cfg.maxBatchSize := hfits
  obtain ⟨hoff, hsent, hfits'⟩ := regex_some_pc hmax hlt p
  have hsub : (x.regex cfg q (some p)).submitted q = x.submitted q ++ [p] :=
    Function.update_self _ _ _
  have hid : (x.regex cfg q (some p)).mem.bufId q = x.mem.bufId q + 1 :=
    Function.update_self _ _ _
  have hnext : x.mem.bufId q + 1 = UInt64.ofNat ((x.submitted q).length + 1) := by
    rw [h.bufId, UInt64.ofNat_add]
    rfl
  constructor
  · rw [hoff]
    exact hfits'
  · -- the entry behind the pending part is written, and becomes part of it
    have hold : x.pendingOps cfg q
        = (List.range' (q.val * cfg.maxBatchSize) (x.coreVars q).opOffset.toNat).map
          x.opsArrTx := by
      unfold Queues.pendingOps
      rw [hpc]
      rfl
    have hnew : (x.regex cfg q (some p)).pendingOps cfg q
        = x.pendingOps cfg q ++ [{ mbuf := some p, userPtr := some p }] := by
      unfold Queues.pendingOps at hold ⊢
      rw [hsent, hoff, hold, Nat.add_zero, Nat.sub_zero, List.range'_1_concat, List.map_append]
      congr 1
      · apply List.map_congr_left
        intro n hn
        have hbound := List.mem_range'_1.mp hn
        exact Function.update_of_ne (by omega) _ _
      · show [Function.update x.opsArrTx _ _ _] = _
        rw [Function.update_self]
    rw [hnew, hsub, List.map_append, List.map_append, ← h.fifo, List.append_assoc]
    rfl
  · rw [hid, hsub, List.length_append]
    exact hnext
  · have hjob : (x.regex cfg q (some p)).jobIds q
        = x.jobIds q ++ [(x.mem.prepOp cfg.layout q p).jobId cfg.layout p] :=
      Function.update_self _ _ _
    rw [hjob, Memory.jobId_prepOp, Function.update_self, hsub, List.length_append, h.jobIds, hnext]
    exact (firstIds_succ _).symm

/-- **A burst**: what the device accepts leaves the pending part at its front. -/
theorem Batch.send (hpos : 0 < cfg.maxBatchSize) (hmax : cfg.maxBatchSize ≤ 1024)
    (h : Batch cfg x q) {toEnqueue numEnqueued : UInt16} {txFull : Bool} {k : ℕ}
    (hpc : x.pc q = .send toEnqueue numEnqueued txFull)
    (hk : k ≤ toEnqueue.toNat - numEnqueued.toNat) :
    Batch cfg (x.sendOps cfg q toEnqueue numEnqueued k []) q := by
  have hfits := h.fits
  rw [hpc] at hfits
  obtain ⟨hto, hnum, hle⟩ := hfits
  have hold : x.pendingOps cfg q
      = (List.range' (q.val * cfg.maxBatchSize + numEnqueued.toNat)
          ((x.coreVars q).opOffset.toNat - numEnqueued.toNat)).map x.opsArrTx := by
    unfold Queues.pendingOps
    rw [hpc]
    rfl
  have hfifo := h.fifo
  unfold Queues.sendOps
  split
  next hlt =>
    dsimp only [List.foldl_nil]
    have hsum : (numEnqueued + UInt16.ofNat k).toNat = numEnqueued.toNat + k :=
      toNat_add_of_le (by omega)
    refine ⟨?_, ?_, h.bufId, h.jobIds⟩
    · dsimp only
      rw [Function.update_self]
      exact ⟨hto, by rw [hsum]; omega, hle⟩
    · dsimp only [Queues.pendingOps]
      rw [Function.update_self, Function.update_self]
      show _ ++ List.map _ (List.map x.opsArrTx (List.range'
        (q.val * cfg.maxBatchSize + (numEnqueued + UInt16.ofNat k).toNat)
        ((x.coreVars q).opOffset.toNat - (numEnqueued + UInt16.ofNat k).toNat))) = _
      rw [hsum]
      -- the slice from `numEnqueued` on is the burst, and what is left
      have hsplit : List.range' (q.val * cfg.maxBatchSize + numEnqueued.toNat)
          ((x.coreVars q).opOffset.toNat - numEnqueued.toNat)
          = List.range' (q.val * cfg.maxBatchSize + numEnqueued.toNat) k
            ++ List.range' (q.val * cfg.maxBatchSize + (numEnqueued.toNat + k))
              ((x.coreVars q).opOffset.toNat - (numEnqueued.toNat + k)) := by
        rw [← Nat.add_assoc, List.range'_append_1]
        congr 1
        omega
      rw [hold, hsplit, List.map_append, List.map_append] at hfifo
      rw [List.append_assoc]
      exact hfifo
  next hge =>
    -- the whole batch is sent
    have hge' : toEnqueue.toNat ≤ numEnqueued.toNat :=
      UInt16.le_iff_toNat_le.mp (UInt16.not_lt.mp hge)
    have hnone : x.pendingOps cfg q = [] := by
      rw [hold, show (x.coreVars q).opOffset.toNat - numEnqueued.toNat = 0 by omega]
      rfl
    rw [hnone] at hfifo
    refine ⟨?_, ?_, h.bufId, h.jobIds⟩
    · dsimp only
      rw [Function.update_self, Function.update_self]
      exact hpos
    · dsimp only [Queues.pendingOps]
      rw [Function.update_self, Function.update_self]
      exact hfifo

theorem opOffset_dequeue (x : Queues Q) (q : Fin Q) (answers : List Answer)
    (rest : List (Option Mbuf)) (strays : List (Stray Q)) :
    ((x.dequeue q answers rest strays).coreVars q).opOffset
      = ((strays.foldl Queues.hit x).coreVars q).opOffset := by
  unfold Queues.dequeue
  dsimp only
  rw [Function.update_self]

/-- **Answers** leave the slice alone. -/
theorem Batch.dequeue (h : Batch cfg x q) {answers : List Answer} {rest : List (Option Mbuf)}
    (hpc : (∃ toEnqueue numEnqueued txFull, x.pc q = .poll toEnqueue numEnqueued txFull)
      ∨ x.pc q = .pull) :
    Batch cfg (x.dequeue q answers rest []) q := by
  have hfits := h.fits
  have hoff : ((x.dequeue q answers rest []).coreVars q).opOffset = (x.coreVars q).opOffset :=
    opOffset_dequeue x q answers rest []
  have hpc' : (x.dequeue q answers rest []).pc q = match x.pc q with
      | .poll toEnqueue numEnqueued txFull => .send toEnqueue numEnqueued txFull
      | _ => .idle :=
    Function.update_self _ _ _
  have hboth : ((x.dequeue q answers rest []).pc q).sent = (x.pc q).sent
      ∧ ((x.dequeue q answers rest []).pc q).Fits cfg.maxBatchSize
          (x.coreVars q).opOffset.toNat := by
    rcases hpc with ⟨toEnqueue, numEnqueued, txFull, hpc⟩ | hpc
    · rw [hpc', hpc]
      rw [hpc] at hfits
      exact ⟨rfl, hfits⟩
    · rw [hpc', hpc]
      rw [hpc] at hfits
      exact ⟨rfl, hfits⟩
  refine ⟨?_, ?_, h.bufId, h.jobIds⟩
  · rw [hoff]
    exact hboth.2
  · rw [pendingOps_congr (y := x.dequeue q answers rest []) h.fits hboth.1 hoff fun _ _ => rfl]
    exact h.fifo

/-! ## §4. A queue stays inside its slice. -/

theorem foldl_hit_harmless {strays : List (Stray Q)} (h : ∀ w ∈ strays, harmless w)
    (x : Queues Q) : strays.foldl Queues.hit x = x := by
  induction strays with
  | nil => rfl
  | cons w strays ih =>
      rw [List.forall_mem_cons] at h
      rw [List.foldl_cons, h.1]
      exact ih h.2

theorem sendOps_harmless {strays : List (Stray Q)} (h : ∀ w ∈ strays, harmless w)
    (toEnqueue numEnqueued : UInt16) (k : ℕ) :
    x.sendOps cfg q toEnqueue numEnqueued k strays
      = x.sendOps cfg q toEnqueue numEnqueued k [] := by
  unfold Queues.sendOps
  simp only [foldl_hit_harmless h, List.foldl_nil]

theorem dequeue_harmless {strays : List (Stray Q)} (h : ∀ w ∈ strays, harmless w)
    (answers : List Answer) (rest : List (Option Mbuf)) :
    x.dequeue q answers rest strays = x.dequeue q answers rest [] := by
  unfold Queues.dequeue
  simp only [foldl_hit_harmless h, List.foldl_nil]

/-- **A step of queue `q`** leaves the other queues alone. -/
theorem QueueStep.same {ev : Event} (h : Batch cfg x q)
    (hstep : QueueStep cfg harmless q ev x y) {i : Fin Q} (hi : i ≠ q) :
    SameQueue cfg x y i := by
  have hval : i.val ≠ q.val := fun heq => hi (Fin.ext heq)
  cases hstep with
  | regex _ pkt hpc =>
      have hfits := h.fits
      rw [hpc] at hfits
      -- the entry written is one of the queue's own slice
      have hne : ∀ n < cfg.maxBatchSize, i.val * cfg.maxBatchSize + n
          ≠ q.val * cfg.maxBatchSize + (x.coreVars q).opOffset.toNat :=
        fun n hn => slice_ne hval hn hfits
      cases pkt with
      | none =>
          exact ⟨fun n hn => Function.update_of_ne (hne n hn) _ _, rfl, rfl,
            Function.update_of_ne hi _ _, rfl, rfl, rfl, rfl⟩
      | some p =>
          exact ⟨fun n hn => Function.update_of_ne (hne n hn) _ _, Function.update_of_ne hi _ _,
            Function.update_of_ne hval _ _, Function.update_of_ne hi _ _, rfl,
            Function.update_of_ne hi _ _, Function.update_of_ne hi _ _, rfl⟩
  | send _ toEnqueue numEnqueued txFull k strays hpc hk hlen hhits =>
      rw [sendOps_harmless hhits]
      unfold Queues.sendOps
      split
      · exact ⟨fun _ _ => rfl, rfl, rfl, Function.update_of_ne hi _ _,
          Function.update_of_ne hi _ _, rfl, rfl, Function.update_of_ne hi _ _⟩
      · exact ⟨fun _ _ => rfl, Function.update_of_ne hi _ _, rfl, Function.update_of_ne hi _ _,
          rfl, rfl, rfl, rfl⟩
  | dequeue _ answers rest strays hpc hperm hlen hcount hhits =>
      rw [dequeue_harmless hhits]
      exact ⟨fun _ _ => rfl, Function.update_of_ne hi _ _, rfl, Function.update_of_ne hi _ _,
        Function.update_of_ne hi _ _, rfl, rfl, rfl⟩

/-- **Every step keeps the invariants** of all queues. -/
theorem Batch.step {ev : Event} (hpos : 0 < cfg.maxBatchSize) (hmax : cfg.maxBatchSize ≤ 1024)
    (h : ∀ i, Batch cfg x i) (hstep : QueueStep cfg harmless q ev x y) (i : Fin Q) :
    Batch cfg y i := by
  by_cases hi : i = q
  · subst hi
    cases hstep with
    | regex _ pkt hpc =>
        cases pkt with
        | none => exact (h i).regex_none hpc
        | some p => exact (h i).regex_some hmax hpc p
    | send _ toEnqueue numEnqueued txFull k strays hpc hk hlen hhits =>
        rw [sendOps_harmless hhits]
        exact (h i).send hpos hmax hpc hk
    | dequeue _ answers rest strays hpc hperm hlen hcount hhits =>
        rw [dequeue_harmless hhits]
        exact (h i).dequeue hpc
  · exact (h i).of_same (QueueStep.same (h q) hstep hi)

theorem QueuesReachable.batch (hpos : 0 < cfg.maxBatchSize) (hmax : cfg.maxBatchSize ≤ 1024)
    (h : QueuesReachable cfg harmless x) (q : Fin Q) : Batch cfg x q := by
  obtain ⟨ops, words, hrun⟩ := h
  have hall : ∀ i, Batch cfg x i := by
    refine ReflTransGen.invariant (fun x => ∀ i, Batch cfg x i) (Batch.init hpos ops words) ?_ hrun
    intro x y hx h
    obtain ⟨i, ev, hstep⟩ := h
    exact Batch.step hpos hmax hx hstep
  exact hall q

end Invariant

/-! ## §5. The numbers in the packets. -/

/-- A packet that was submitted once carries the number of its job. -/
def Marked (cfg : RegexConfig) (x : Queues Q) : Prop :=
  ∀ q n p, (x.submitted q)[n]? = some p → ∑ i, (x.submitted i).count p = 1 →
    x.mem.jobId cfg.layout p = UInt64.ofNat (n + 1)

section Marks

variable {cfg : RegexConfig} {x y : Queues Q} {q : Fin Q}

theorem Marked.regex_some (h : Marked cfg x) (hbatch : Batch cfg x q) (p : Mbuf) :
    Marked cfg (x.regex cfg q (some p)) := by
  intro i n r hget hone
  have hsub : (x.regex cfg q (some p)).submitted
      = Function.update x.submitted q (x.submitted q ++ [p]) := rfl
  have hmem : (x.regex cfg q (some p)).mem = x.mem.prepOp cfg.layout q p := rfl
  rw [hsub] at hget hone
  rw [sum_update_append (List.count r) fun _ _ => List.count_append] at hone
  rw [hmem, Memory.jobId_prepOp]
  by_cases hr : r = p
  · -- the packet just submitted was not submitted before
    subst hr
    rw [List.count_singleton_self] at hone
    have hnone : ∀ k, r ∉ x.submitted k := by
      intro k hk
      have hle := Finset.single_le_sum (f := fun j => (x.submitted j).count r)
        (fun _ _ => Nat.zero_le _) (Finset.mem_univ k)
      have hpos := List.count_pos_iff.mpr hk
      omega
    rw [Function.update_self, hbatch.bufId]
    by_cases hi : i = q
    · subst hi
      rw [Function.update_self] at hget
      rcases Nat.lt_or_ge n (x.submitted i).length with hlt | hge
      · rw [List.getElem?_append_left hlt] at hget
        exact absurd (List.mem_of_getElem? hget) (hnone i)
      · rw [List.getElem?_append_right hge] at hget
        have hn : n = (x.submitted i).length := by
          have hlt := (List.getElem?_eq_some_iff.mp hget).1
          rw [List.length_singleton] at hlt
          omega
        rw [hn, UInt64.ofNat_add]
        rfl
    · rw [Function.update_of_ne hi] at hget
      exact absurd (List.mem_of_getElem? hget) (hnone i)
  · rw [Function.update_of_ne hr]
    have hcount : List.count r [p] = 0 := List.count_eq_zero.mpr fun hmem =>
      hr (List.mem_singleton.mp hmem)
    rw [hcount, Nat.add_zero] at hone
    refine h i n r ?_ hone
    by_cases hi : i = q
    · subst hi
      rw [Function.update_self] at hget
      rcases Nat.lt_or_ge n (x.submitted i).length with hlt | hge
      · rwa [List.getElem?_append_left hlt] at hget
      · rw [List.getElem?_append_right hge] at hget
        exact absurd (List.mem_singleton.mp (List.mem_of_getElem? hget)) hr
    · rwa [Function.update_of_ne hi] at hget

theorem Marked.step {ev : Event} (h : Marked cfg x) (hbatch : Batch cfg x q)
    (hstep : QueueStep cfg harmless q ev x y) : Marked cfg y := by
  cases hstep with
  | regex _ pkt hpc =>
      cases pkt with
      | none => exact h
      | some p => exact h.regex_some hbatch p
  | send _ toEnqueue numEnqueued txFull k strays hpc hk hlen hhits =>
      rw [sendOps_harmless hhits]
      unfold Queues.sendOps
      split
      · exact h
      · exact h
  | dequeue _ answers rest strays hpc hperm hlen hcount hhits =>
      rw [dequeue_harmless hhits]
      exact h

end Marks

/-- What batching is to achieve.  On every queue, what the device has accepted and then the
pending part of the slice is what was submitted, in order; the job numbers written at the
submissions are 1, 2, 3, ..., and a packet submitted once still carries its own; and before a
submission there is room in the slice. -/
structure Exact (cfg : RegexConfig) (x : Queues Q) : Prop where
  fifo : ∀ q, x.accepted q ++ (x.pendingOps cfg q).map (·.mbuf) = (x.submitted q).map some
  jobIds : ∀ q, x.jobIds q = firstIds (x.submitted q).length
  marked : Marked cfg x
  room : ∀ q, x.pc q = .idle → (x.coreVars q).opOffset.toNat < cfg.maxBatchSize
  inside : ∀ q, (x.pc q).sent ≤ (x.coreVars q).opOffset.toNat
    ∧ (x.coreVars q).opOffset.toNat ≤ cfg.maxBatchSize

/-- **Batching sends every packet once**, as long as what is written through `custom` hits
nothing of the queues. -/
theorem QueuesReachable.exact {cfg : RegexConfig} (hpos : 0 < cfg.maxBatchSize)
    (hmax : cfg.maxBatchSize ≤ 1024) {x : Queues Q} (h : QueuesReachable cfg harmless x) :
    Exact cfg x where
  fifo q := (h.batch hpos hmax q).fifo
  jobIds q := (h.batch hpos hmax q).jobIds
  marked := by
    obtain ⟨ops, words, hrun⟩ := h
    refine ReflTransGen.invariant_reachable (Marked cfg) ?_ ?_ hrun
    · intro q n p hget _
      exact absurd hget (by simp [Queues.init])
    · intro x y hreach hx h
      obtain ⟨q, ev, hstep⟩ := h
      exact hx.step (QueuesReachable.batch hpos hmax ⟨ops, words, hreach⟩ q) hstep
  room q hpc := by
    have hfits := (h.batch hpos hmax q).fits
    rw [hpc] at hfits
    exact hfits
  inside q := ⟨(h.batch hpos hmax q).fits.sent_le, (h.batch hpos hmax q).fits.le⟩

/-! ## §6. Stray writes. -/

section Strays

variable {cfg : RegexConfig} {x y : Queues Q} {q : Fin Q} {ev : Event}

theorem processResp_zero (f : RspFlags) : processResp f 0 = [] := rfl

/-- **A quiet step** writes nothing through `custom`. -/
theorem QueueStep.of_quiet (hstep : QueueStep cfg anywhere q ev x y) (hquiet : x.Quiet q ev) :
    QueueStep cfg harmless q ev x y := by
  cases hstep with
  | regex _ pkt hpc => exact .regex x pkt hpc
  | send _ toEnqueue numEnqueued txFull k strays hpc hk hlen _ =>
      have hnone : Queues.sendCounters toEnqueue numEnqueued txFull k = [] := by
        refine if_neg fun h => ?_
        obtain ⟨hlt, hne, hfull⟩ := h
        rw [hfull] at hpc
        exact hne (hquiet toEnqueue numEnqueued hpc hlt)
      have hnil : strays = [] := by
        rw [hnone] at hlen
        exact List.eq_nil_of_length_eq_zero hlen
      exact .send x toEnqueue numEnqueued txFull k strays hpc hk hlen (by simp [hnil])
  | dequeue _ answers rest strays hpc hperm hmany hlen _ =>
      have hnone : (answers.flatMap fun a => processResp cfg.rspFlags a.rspFlags) = [] := by
        rw [List.flatMap_eq_nil_iff]
        intro a ha
        rw [hquiet a ha, processResp_zero]
      have hnil : strays = [] := by
        rw [hnone] at hlen
        exact List.eq_nil_of_length_eq_zero hlen
      exact .dequeue x answers rest strays hpc hperm hmany hlen (by simp [hnil])

theorem QuietReachable.harmless (h : QuietReachable cfg x) : QueuesReachable cfg harmless x := by
  obtain ⟨ops, words, hrun⟩ := h
  refine ⟨ops, words, Relation.ReflTransGen.mono ?_ _ _ hrun⟩
  rintro x y ⟨q, ev, hquiet, hstep⟩
  exact ⟨q, ev, hstep.of_quiet hquiet⟩

/-- An offset that no batch has. -/
def wildOffset (i : Fin Q) : Stray Q :=
  .coreVars i { totalEnqueued := 0, totalDequeued := 0, opOffset := 65535 }

theorem hit_wildOffset (i : Fin Q) (x : Queues Q) :
    ((x.hit (wildOffset i)).coreVars i).opOffset = 65535 := by
  unfold wildOffset Queues.hit
  dsimp only
  rw [Function.update_self]

theorem foldl_hit_wildOffset (i : Fin Q) {n : ℕ} (hn : n ≠ 0) (x : Queues Q) :
    (((List.replicate n (wildOffset i)).foldl Queues.hit x).coreVars i).opOffset = 65535 := by
  obtain ⟨n, rfl⟩ := Nat.exists_eq_succ_of_ne_zero hn
  -- the last of the writes decides
  rw [List.replicate_succ', List.foldl_append]
  exact hit_wildOffset i _

/-- **A step that is not quiet** can spoil its own queue. -/
theorem QueueStep.spoils (hstep : QueueStep cfg anywhere q ev x y) (hloud : ¬ x.Quiet q ev) :
    ∃ z, QueueStep cfg anywhere q ev x z ∧ (z.coreVars q).opOffset = 65535 := by
  cases hstep with
  | regex _ pkt hpc => exact absurd trivial hloud
  | send _ toEnqueue numEnqueued txFull k strays hpc hk hlen _ =>
      simp only [Queues.Quiet, not_forall] at hloud
      obtain ⟨toEnqueue', numEnqueued', hpc', hlt, hne⟩ := hloud
      obtain ⟨rfl, rfl, rfl⟩ := Pc.send.inj (hpc.symm.trans hpc')
      -- ops are accepted behind a burst that took nothing, so `tx_busy` is written
      have hcount : Queues.sendCounters toEnqueue numEnqueued true k = [.txBusy] :=
        if_pos ⟨hlt, hne, rfl⟩
      refine ⟨_, .send x toEnqueue numEnqueued true k (List.replicate 1 (wildOffset q)) hpc hk
        (by rw [hcount]; rfl) fun _ _ => trivial, ?_⟩
      unfold Queues.sendOps
      rw [if_pos hlt]
      exact foldl_hit_wildOffset q Nat.one_ne_zero _
  | dequeue _ answers rest strays hpc hperm hmany hlen _ =>
      simp only [Queues.Quiet, not_forall] at hloud
      obtain ⟨a, ha, hflags⟩ := hloud
      -- an answer with flags is counted in `rx_invalid` at least
      have hcount : (answers.flatMap fun a => processResp cfg.rspFlags a.rspFlags).length ≠ 0 := by
        intro hzero
        have hnone := List.flatMap_eq_nil_iff.mp (List.eq_nil_of_length_eq_zero hzero) a ha
        unfold processResp at hnone
        rw [if_pos hflags] at hnone
        exact absurd (List.append_eq_nil_iff.mp hnone).2 (List.cons_ne_nil _ _)
      refine ⟨_, .dequeue x answers rest (List.replicate _ (wildOffset q)) hpc hperm hmany
        List.length_replicate fun _ _ => trivial, ?_⟩
      rw [opOffset_dequeue]
      exact foldl_hit_wildOffset q hcount x

end Strays

/-- **Batching sends every packet once** in the runs whose steps are all quiet.  In such a run, a
step on one queue keeps that and changes nothing of another queue, wherever `custom` points, if
and only if it is quiet too. -/
theorem regexBatching_exact_iff {cfg : RegexConfig} (hpos : 0 < cfg.maxBatchSize)
    (hmax : cfg.maxBatchSize ≤ 1024) {x : Queues Q} (h : QuietReachable cfg x) :
    Exact cfg x
      ∧ ∀ q ev, (∃ y, QueueStep cfg anywhere q ev x y) →
          ((∀ y, QueueStep cfg anywhere q ev x y →
              Exact cfg y ∧ ∀ i, i ≠ q → SameQueue cfg x y i)
            ↔ x.Quiet q ev) := by
  refine ⟨h.harmless.exact hpos hmax, fun q ev hcan => ⟨fun hexact => ?_, fun hquiet y hstep => ?_⟩⟩
  · by_contra hloud
    obtain ⟨y, hstep⟩ := hcan
    obtain ⟨z, hz, hoff⟩ := hstep.spoils hloud
    have hle := ((hexact z hz).1.inside q).2
    rw [hoff] at hle
    have hwild : (65535 : UInt16).toNat = 65535 := rfl
    omega
  · have hnext : QuietReachable cfg y := by
      obtain ⟨ops, words, hrun⟩ := h
      exact ⟨ops, words, hrun.tail ⟨q, ev, hquiet, hstep⟩⟩
    exact ⟨hnext.harmless.exact hpos hmax, fun i hi =>
      QueueStep.same (h.harmless.batch hpos hmax q) (hstep.of_quiet hquiet) hi⟩

/-- Batches of two jobs. -/
def pairs : RegexConfig where
  maxBatchSize := 2
  layout := fieldsBehind
  rspFlags := { maxScanTimeout := 4, maxMatch := 8, maxPrefix := 16 }

/-- Ops and mbufs that hold nothing. -/
def blank : Queues Q := Queues.init (fun _ => { mbuf := none, userPtr := none }) fun _ _ => 0

/-- A full batch on queue `q`. -/
def fullBatch (q : Fin Q) : Queues Q :=
  blank |>.regex pairs q (some 7) |>.dequeue q [] [] [] |>.regex pairs q (some 8)

/-- The device has accepted the first packet of the batch. -/
def twoJobs (q : Fin Q) : Queues Q := (fullBatch q).sendOps pairs q 2 0 1 []

theorem twoJobs_quiet : QuietReachable pairs (twoJobs (1 : Fin 2)) := by
  have hquiet : (fullBatch (1 : Fin 2)).Quiet 1 (.send 1) := by
    intro toEnqueue numEnqueued hpc
    have hfull : (fullBatch (1 : Fin 2)).pc 1 = .send 2 0 false := by decide
    rw [hfull] at hpc
    cases hpc
  exact ⟨_, _, Relation.ReflTransGen.refl
    |>.tail ⟨1, .regex (some 7), trivial, .regex blank (some 7) rfl⟩
    |>.tail ⟨1, .dequeue [] [], by simp [Queues.Quiet],
      .dequeue _ [] [] [] (Or.inr (by decide)) (List.Perm.refl _) (by decide) rfl (by simp)⟩
    |>.tail ⟨1, .regex (some 8), trivial, .regex _ (some 8) (by decide)⟩
    |>.tail ⟨1, .send 1, hquiet,
      .send (fullBatch 1) 2 0 false 1 [] (by decide) (by decide) (by decide) (by simp)⟩⟩

theorem twoJobs_exact :
    (twoJobs (1 : Fin 2)).accepted 1 = [some 7] ∧ (twoJobs (1 : Fin 2)).jobIds 1 = [1, 2]
      ∧ Exact pairs (twoJobs (1 : Fin 2)) :=
  ⟨by decide, by decide, (regexBatching_exact_iff (by decide) (by decide) twoJobs_quiet).1⟩

/-- A packet waits on queue `i`.  On queue `q` the device accepts nothing of a batch, and then all
of it; `tx_busy` is where `op_offset` of queue `i` is. -/
def lostJob (i q : Fin Q) : Queues Q :=
  blank |>.regex pairs i (some 5) |>.dequeue i [] [] []
    |>.regex pairs q (some 7) |>.dequeue q [] [] [] |>.regex pairs q (some 8)
    |>.sendOps pairs q 2 0 0 [] |>.dequeue q [] [] []
    |>.sendOps pairs q 2 0 2
      [.coreVars i { totalEnqueued := 0, totalDequeued := 0, opOffset := 0 }]

theorem lostJob_reachable : QueuesReachable pairs anywhere (lostJob (0 : Fin 2) 1) :=
  have hpoll : ∀ w ∈ ([] : List (Stray 2)), anywhere w := by simp
  ⟨_, _, Relation.ReflTransGen.refl
    |>.tail ⟨0, _, .regex blank (some 5) rfl⟩
    |>.tail ⟨0, _, .dequeue _ [] [] [] (Or.inr (by decide)) (List.Perm.refl _) (by decide) rfl
      hpoll⟩
    |>.tail ⟨1, _, .regex _ (some 7) (by decide)⟩
    |>.tail ⟨1, _, .dequeue _ [] [] [] (Or.inr (by decide)) (List.Perm.refl _) (by decide) rfl
      hpoll⟩
    |>.tail ⟨1, _, .regex _ (some 8) (by decide)⟩
    |>.tail ⟨1, _, .send _ 2 0 false 0 [] (by decide) (by decide) (by decide) hpoll⟩
    |>.tail ⟨1, _, .dequeue _ [] [] [] (Or.inl ⟨2, 0, true, by decide⟩) (List.Perm.refl _)
      (by decide) rfl hpoll⟩
    |>.tail ⟨1, _, .send _ 2 0 true 2 _ (by decide) (by decide) (by decide) fun _ _ => trivial⟩⟩

/-- **The packet on queue 0 is lost**: it is neither pending nor has the device accepted it. -/
theorem lostJob_not_exact : QueuesReachable pairs anywhere (lostJob (0 : Fin 2) 1)
    ∧ (lostJob (0 : Fin 2) 1).submitted 0 = [5] ∧ (lostJob (0 : Fin 2) 1).accepted 0 = []
    ∧ (lostJob (0 : Fin 2) 1).pendingOps pairs 0 = [] ∧ ¬ Exact pairs (lostJob (0 : Fin 2) 1) := by
  refine ⟨lostJob_reachable, rfl, rfl, rfl, fun h => ?_⟩
  exact absurd (h.fifo 0) (by decide)

end Meili.Regex
