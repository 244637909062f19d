/-
  Meili.Network.Model — main and the workers of a pipeline of several stages.

  `pipeline_init_safe` connects the instances of consecutive stages by rings; main puts packets
  into the rings of the first stage and takes them from the rings of the last one.  This is the
  data plane for any number of stages and instances: every loop goes round the rings of its own
  array, `pl->ring_in` and `pl->ring_out` for main and `self->ring_in` and `self->ring_out` for
  an instance.

    • main's counters and a worker's batch are those of `Meili.DataPlane.Model`, and so are the
      conventions: time stamps, statistics other than main's packet counters and the sequence
      numbers are left out, `force_quit` stays false and `conf->running` true;
    • an instance takes part when its loop starts, with a ring on either side (`Runs`);
    • a NULL ring stops the party that is about to use it, so there is no step for it;
    • `log` is a ghost: the calls of `pipeline_stage_exec`, in order.
-/
import Meili.DataPlane.Conservation
import Meili.Runtime.Topology

namespace Meili.Network

open Meili.Lib Meili.DataPlane Meili.Runtime

/-! ## §1. State. -/

/-- The local variables of a worker with several rings. -/
structure Instance extends Worker where
  ringInIndex : ℕ
  ringOutIndex : ℕ

instance : NeZero nbMaxRing := ⟨Nat.succ_ne_zero 15⟩

/-- Main, the instances of all stages and the rings. -/
structure State where
  main : Main nbMaxRing
  /-- `pl->stages[i][j]`. -/
  stages : ℕ → ℕ → Instance
  ring : RingId → List Mbuf
  received : List Mbuf
  log : List (Mbuf × ℕ × ℕ)
  freed : List Mbuf

/-- The start of a run. -/
def State.init : State where
  main :=
    { pc := .receive, mbufIn := [], batchCntEnq := 0, batchCntWaitOnEnq := 0
      batchCntWaitOnDeq := 0, batchCntTotEnq := 0, totEnq := 0, toEnq := 0
      ringInIndex := 0, ringOutIndex := 0, rxBufCnt := 0, txBufCnt := 0 }
  stages := fun _ _ =>
    { pc := .dequeue, mbufsIn := [], i := 0, mbufsOut := [], outNum := 0, totEnq := 0
      ringInIndex := 0, ringOutIndex := 0 }
  ring := fun _ => []
  received := []
  log := []
  freed := []

/-- `*pl->stages[i][j] = self`. -/
def State.setStage (s : State) (i j : ℕ) (self : Instance) : State :=
  { s with stages := Function.update s.stages i (Function.update (s.stages i) j self) }

/-- Ring `r` holds `mbufs` from now on. -/
def State.setRing (s : State) (r : RingId) (mbufs : List Mbuf) : State :=
  { s with ring := Function.update s.ring r mbufs }

/-! ## §2. Main. -/

/-- `(index+1) % nb`, an index into an array of `NB_MAX_RING` entries. -/
def nextRing (nb : ℕ) (index : Fin nbMaxRing) : Fin nbMaxRing :=
  Fin.ofNat nbMaxRing ((index + 1) % nb)

namespace State

/-- `rte_eth_rx_burst` hands out `burst`. -/
def receive (s : State) (burst : List Mbuf) : State :=
  if burst.length = 0 then
    if s.main.batchCntWaitOnDeq > 0 then
      { s with main := { s.main with pc := .aggregate } }
    else s
  else
    { s with
      main := { s.main with
        pc := .inner
        mbufIn := burst
        rxBufCnt := s.main.rxBufCnt + UInt64.ofNat burst.length
        batchCntWaitOnEnq := burst.length
        batchCntTotEnq := 0 }
      received := s.received ++ burst }

/-- The test of the inner loop. -/
def inner (cfg : Config) (s : State) : State :=
  if s.main.batchCntWaitOnEnq > 0 then
    let batchCntEnq := min cfg.batchSizeIn s.main.batchCntWaitOnEnq.toNat
    { s with
      main := { s.main with
        pc := .enqueue
        batchCntEnq := batchCntEnq
        batchCntWaitOnDeq := s.main.batchCntWaitOnDeq + batchCntEnq
        totEnq := 0
        toEnq := batchCntEnq } }
  else { s with main := { s.main with pc := .receive } }

/-- The enqueue loop of main, one test: a burst enqueue that stores `k` entries in ring `r`, or
on to `aggregate_packets` with the next head ring. -/
def enqueue (nbFirstStage : ℕ) (s : State) (r : RingId) (k : ℕ) : State :=
  if s.main.totEnq < s.main.batchCntEnq then
    let mbufs := (s.main.mbufIn.drop (s.main.batchCntTotEnq + s.main.totEnq)).take k
    { s.setRing r (s.ring r ++ mbufs) with
      main := { s.main with totEnq := s.main.totEnq + k, toEnq := s.main.toEnq - k } }
  else
    { s with main := { s.main with
        pc := .aggregate
        ringInIndex := nextRing nbFirstStage s.main.ringInIndex } }

/-- `aggregate_packets`: a burst dequeue that takes `k` entries from ring `r`. -/
def aggregate (nbLastStage : ℕ) (s : State) (r : RingId) (k : ℕ) : State :=
  { s.setRing r ((s.ring r).drop k) with
    main := Main.finish { s.main with
      ringOutIndex := nextRing nbLastStage s.main.ringOutIndex
      txBufCnt := s.main.txBufCnt + UInt64.ofNat k
      batchCntWaitOnDeq := s.main.batchCntWaitOnDeq - k }
    freed := s.freed ++ (s.ring r).take k }

/-! ## §3. An instance. -/

/-- The dequeue of instance `j` of stage `i`, which takes `k` entries from ring `r`. -/
def workerDequeue (nbRingIn : ℕ) (s : State) (i j : ℕ) (r : RingId) (k : ℕ) : State :=
  let self := s.stages i j
  (s.setRing r ((s.ring r).drop k)).setStage i j { self with
    pc := .exec
    mbufsIn := (s.ring r).take k
    i := 0
    mbufsOut := []
    ringInIndex := (self.ringInIndex + 1) % nbRingIn }

/-- One iteration of the loop over the batch, or on to the enqueue loop. -/
def workerExec (s : State) (i j : ℕ) : State :=
  let self := s.stages i j
  match self.mbufsIn[self.i]? with
  | some mbuf =>
      State.setStage { s with log := s.log ++ [(mbuf, i, j)] } i j { self with
        i := self.i + 1
        mbufsOut := self.mbufsOut ++ [mbuf]
        outNum := self.outNum + 1 }
  | none => s.setStage i j { self with pc := .enqueue, totEnq := 0 }

/-- The enqueue loop of an instance, one test: a burst enqueue that stores `k` entries in ring
`r`, or back to the top with the next ring. -/
def workerEnqueue (nbRingOut : ℕ) (s : State) (i j : ℕ) (r : RingId) (k : ℕ) : State :=
  let self := s.stages i j
  if 0 < self.outNum then
    let mbufs := (self.mbufsOut.drop self.totEnq).take k
    (s.setRing r (s.ring r ++ mbufs)).setStage i j { self with
      totEnq := self.totEnq + k
      outNum := self.outNum - k }
  else
    s.setStage i j { self with
      pc := .dequeue
      ringOutIndex := (self.ringOutIndex + 1) % nbRingOut }

end State

/-! ## §4. Interleavings. -/

/-- A pipeline as `pipeline_init_safe` leaves it. -/
structure Pipeline where
  nbPlStages : ℕ
  nbInstPerPlStage : ℕ → ℕ
  topology : Topology

namespace Pipeline

def nbFirstStage (pl : Pipeline) : ℕ := nbFirst pl.nbPlStages pl.nbInstPerPlStage

def nbLastStage (pl : Pipeline) : ℕ := nbLast pl.nbPlStages pl.nbInstPerPlStage

/-- `self->nb_ring_in` and `self->nb_ring_out` of an instance. -/
def nbRingIn (pl : Pipeline) (i j : ℕ) : ℕ := (pl.topology.stages i j).nbRingIn

def nbRingOut (pl : Pipeline) (i j : ℕ) : ℕ := (pl.topology.stages i j).nbRingOut

/-- The slot `ring_in[ring_in_index]` of an instance, and the slot
`ring_out[ring_out_index]`. -/
def slotIn (pl : Pipeline) (s : State) (i j : ℕ) : Option RingId :=
  (pl.topology.stages i j).ringIn (s.stages i j).ringInIndex

def slotOut (pl : Pipeline) (s : State) (i j : ℕ) : Option RingId :=
  (pl.topology.stages i j).ringOut (s.stages i j).ringOutIndex

/-- Instance `j` of stage `i` exists, and `pipeline_stage_run_safe` enters its main loop. -/
def Runs (pl : Pipeline) (i j : ℕ) : Prop :=
  i < pl.nbPlStages ∧ j < pl.nbInstPerPlStage i ∧ pl.nbRingIn i j ≠ 0 ∧ pl.nbRingOut i j ≠ 0

end Pipeline

/-- One step of main or of an instance. -/
inductive Step (cfg : Config) (pl : Pipeline) : State → State → Prop
  | receive (s : State) (burst : List Mbuf) :
      s.main.pc = .receive → burst.length ≤ defaultEthBatchSize → burst.Nodup →
      (∀ p ∈ burst, p ∉ s.received) → Step cfg pl s (s.receive burst)
  | inner (s : State) : s.main.pc = .inner → Step cfg pl s (s.inner cfg)
  | enqueue (s : State) (r : RingId) (k : ℕ) :
      s.main.pc = .enqueue →
      (s.main.totEnq < s.main.batchCntEnq →
        pl.topology.ringIn s.main.ringInIndex = some r
          ∧ cfg.ring.enq s.main.toEnq (s.ring r).length k) →
      Step cfg pl s (s.enqueue pl.nbFirstStage r k)
  | aggregate (s : State) (r : RingId) (k : ℕ) :
      s.main.pc = .aggregate → pl.topology.ringOut s.main.ringOutIndex = some r →
      cfg.ring.deq maxPktsBurst (s.ring r).length k →
      Step cfg pl s (s.aggregate pl.nbLastStage r k)
  | workerDequeue (s : State) (i j : ℕ) (r : RingId) (k : ℕ) :
      pl.Runs i j → (s.stages i j).pc = .dequeue → pl.slotIn s i j = some r →
      cfg.ring.deq cfg.burstSize (s.ring r).length k →
      Step cfg pl s (s.workerDequeue (pl.nbRingIn i j) i j r k)
  | workerExec (s : State) (i j : ℕ) :
      pl.Runs i j → (s.stages i j).pc = .exec → Step cfg pl s (s.workerExec i j)
  | workerEnqueue (s : State) (i j : ℕ) (r : RingId) (k : ℕ) :
      pl.Runs i j → (s.stages i j).pc = .enqueue →
      (0 < (s.stages i j).outNum →
        pl.slotOut s i j = some r
          ∧ cfg.ring.enq (min (s.stages i j).outNum cfg.burstSize) (s.ring r).length k) →
      Step cfg pl s (s.workerEnqueue (pl.nbRingOut i j) i j r k)

/-- `s` occurs in some interleaving. -/
def Reachable (cfg : Config) (pl : Pipeline) (s : State) : Prop :=
  Relation.ReflTransGen (Step cfg pl) .init s

/-- The instances that have processed `p`, in order. -/
def State.history (s : State) (p : Mbuf) : List (ℕ × ℕ) :=
  (s.log.filter (·.1 = p)).map Prod.snd

end Meili.Network
