/-
  Meili.DataPlane.Shutdown — how a run ends.

  Main leaves `run_dpdk` on `force_quit` or past its time limit, clears
  `running`, takes what it finds on the tail rings (`pipeline_post_search`) and
  waits for the workers (`pipeline_run`).  A worker tests the two flags at the
  top of its loop only, not in its enqueue loop.

  The model adds to the data plane the flags, the phases of main and the test of
  every worker (`SystemStep`).  What a worker may still store (`Worker.toCome`)
  is at most one burst; with one worker the last poll of the flush finds its tail
  ring empty, so there is room for that burst (`Orderly`).
-/
import Meili.DataPlane.Rounds

namespace Meili.DataPlane

open Meili.Lib

variable {W : ℕ}

/-! ## §1. Flags and phases. -/

/-- Where main is in `pipeline_run`. -/
inductive Phase (W : ℕ) where
  /-- Before the loop of `run_dpdk`. -/
  | setup
  /-- In the loop of `run_dpdk`. -/
  | run
  /-- At `post_run`. -/
  | left
  /-- In `pipeline_post_search`. -/
  | flush (ringOutIndex : Fin W)
  /-- In `rte_eal_wait_lcore`. -/
  | wait
  /-- Every worker has returned. -/
  | done
  deriving DecidableEq

/-- The data plane with what starts and stops it. -/
structure System (W : ℕ) where
  st : State W
  forceQuit : Bool
  /-- `conf->running`. -/
  running : Bool
  phase : Phase W
  /-- The worker has passed the test of its loop and not dequeued yet. -/
  admitted : Fin W → Bool
  /-- The worker has returned. -/
  exited : Fin W → Bool

def System.init (W : ℕ) [NeZero W] : System W where
  st := State.init W
  forceQuit := false
  running := true
  phase := .setup
  admitted := fun _ => false
  exited := fun _ => false

/-- The inner loop of main ends on `force_quit`. -/
def State.quitInner (s : State W) : State W :=
  { s with main := { s.main with pc := .receive } }

/-- The enqueue loop of main ends on `force_quit`, with the next head ring. -/
def State.quitEnqueue (s : State W) : State W :=
  { s with main := { s.main with pc := .aggregate, ringInIndex := roundNext s.main.ringInIndex } }

namespace System

/-- One pass of the loop in `pipeline_post_search`: `k` mbufs are taken from tail
ring `i` and freed. -/
def poll (x : System W) (i : Fin W) (k : ℕ) : System W :=
  let mbufs := (x.st.tail i).take k
  { x with
    st := { x.st with
      tail := Function.update x.st.tail i ((x.st.tail i).drop k)
      collected := Function.update x.st.collected i (x.st.collected i ++ mbufs)
      freed := x.st.freed ++ mbufs }
    phase := if k = 0 then .wait else .flush (roundNext i) }

/-- The test of worker `j`'s main loop. -/
def test (x : System W) (j : Fin W) : System W :=
  if x.forceQuit = false ∧ x.running = true then
    { x with admitted := Function.update x.admitted j true }
  else
    { x with exited := Function.update x.exited j true }

end System

/-- One step of the system; the run is limited to `maxDuration` seconds, where
that is not 0. -/
inductive SystemStep (cfg : Config) (maxDuration : ℕ) : System W → System W → Prop
  /-- The handler of `SIGINT`. -/
  | signal (x : System W) : SystemStep cfg maxDuration x { x with forceQuit := true }
  | start (x : System W) : x.phase = .setup → SystemStep cfg maxDuration x { x with phase := .run }
  /-- A worker could not be launched, or a port not be found. -/
  | fail (x : System W) : x.phase = .setup → SystemStep cfg maxDuration x { x with phase := .left }
  | receive (x : System W) (burst : List Mbuf) :
      x.phase = .run → x.forceQuit = false → x.st.main.pc = .receive →
      burst.length ≤ defaultEthBatchSize → burst.Nodup → (∀ p ∈ burst, p ∉ x.st.received) →
      SystemStep cfg maxDuration x { x with st := x.st.receive burst }
  | inner (x : System W) :
      x.phase = .run → x.st.main.pc = .inner →
      SystemStep cfg maxDuration x
        { x with st := if x.forceQuit then x.st.quitInner else x.st.inner cfg }
  | enqueue (x : System W) (k : ℕ) :
      x.phase = .run → x.st.main.pc = .enqueue →
      (x.st.main.totEnq < x.st.main.batchCntEnq →
        cfg.ring.enq x.st.main.toEnq (x.st.head x.st.main.ringInIndex).length k) →
      SystemStep cfg maxDuration x
        { x with st := if x.forceQuit then x.st.quitEnqueue else x.st.enqueue k }
  | aggregate (x : System W) (k : ℕ) :
      x.phase = .run → x.st.main.pc = .aggregate →
      cfg.ring.deq maxPktsBurst (x.st.tail x.st.main.ringOutIndex).length k →
      SystemStep cfg maxDuration x { x with st := x.st.aggregate k }
  /-- The test of the outer loop fails. -/
  | leave (x : System W) :
      x.phase = .run → x.st.main.pc = .receive → x.forceQuit = true ∨ 0 < maxDuration →
      SystemStep cfg maxDuration x { x with phase := .left }
  | stop (x : System W) (i : Fin W) :
      x.phase = .left → i.val = 0 →
      SystemStep cfg maxDuration x { x with running := false, phase := .flush i }
  | poll (x : System W) (i : Fin W) (k : ℕ) :
      x.phase = .flush i → cfg.ring.deq cfg.batchSizeIn (x.st.tail i).length k →
      SystemStep cfg maxDuration x (x.poll i k)
  | join (x : System W) :
      x.phase = .wait → (∀ j, x.exited j = true) →
      SystemStep cfg maxDuration x { x with phase := .done }
  | test (x : System W) (j : Fin W) :
      (x.st.worker j).pc = .dequeue → x.admitted j = false → x.exited j = false →
      SystemStep cfg maxDuration x (x.test j)
  | workerDequeue (x : System W) (j : Fin W) (k : ℕ) :
      (x.st.worker j).pc = .dequeue → x.admitted j = true →
      cfg.ring.deq cfg.burstSize (x.st.head j).length k →
      SystemStep cfg maxDuration x
        { x with
          st := x.st.workerDequeue j k
          admitted := Function.update x.admitted j false }
  | workerExec (x : System W) (j : Fin W) :
      (x.st.worker j).pc = .exec →
      SystemStep cfg maxDuration x { x with st := x.st.workerExec j }
  | workerEnqueue (x : System W) (j : Fin W) (k : ℕ) :
      (x.st.worker j).pc = .enqueue →
      (0 < (x.st.worker j).outNum →
        cfg.ring.enq (min (x.st.worker j).outNum cfg.burstSize) (x.st.tail j).length k) →
      SystemStep cfg maxDuration x { x with st := x.st.workerEnqueue j k }

/-- `x` occurs in some interleaving. -/
def SystemReachable [NeZero W] (cfg : Config) (maxDuration : ℕ) (x : System W) : Prop :=
  Relation.ReflTransGen (SystemStep cfg maxDuration) (System.init W) x

/-- Main waits for worker `j`, which is in its enqueue loop with a full tail ring. -/
structure HungAt (cfg : Config) (x : System W) (j : Fin W) : Prop where
  phase : x.phase = .wait
  pc : (x.st.worker j).pc = .enqueue
  left : 0 < (x.st.worker j).outNum
  full : (x.st.tail j).length = cfg.ring.capacity
  inside : x.exited j = false

/-! ## §2. Nobody drains the ring of a worker that main waits for. -/

section Forever

variable {cfg : Config} {maxDuration : ℕ}

/-- A step of another worker leaves the worker and its tail ring alone. -/
theorem HungAt.of_other {x y : System W} {i j : Fin W} (h : HungAt cfg x j)
    (honly : OnlyWorker i x.st y.st) (hphase : y.phase = x.phase)
    (hexited : y.exited j = x.exited j) (hij : j ≠ i) : HungAt cfg y j := by
  obtain ⟨hworker, -, htail⟩ := honly.others j hij
  refine ⟨hphase.trans h.phase, ?_, ?_, ?_, hexited.trans h.inside⟩
  · rw [hworker]
    exact h.pc
  · rw [hworker]
    exact h.left
  · rw [htail]
    exact h.full

/-- An attempt to store something in the full ring changes nothing. -/
theorem HungAt.enqueue {x : System W} {j : Fin W} (hring : cfg.ring = atomicMin cfg.ring.capacity)
    (h : HungAt cfg x j) {k : ℕ}
    (hk : cfg.ring.enq (min (x.st.worker j).outNum cfg.burstSize) (x.st.tail j).length k) :
    x.st.workerEnqueue j k = x.st := by
  have hzero : k = 0 := by
    rw [hring, h.full] at hk
    have hmin : k = min (min (x.st.worker j).outNum cfg.burstSize)
      (cfg.ring.capacity - cfg.ring.capacity) := hk
    omega
  unfold State.workerEnqueue
  dsimp only
  rw [hzero, if_pos h.left, List.take_zero, List.append_nil, Function.update_eq_self]
  show { x.st with worker := Function.update x.st.worker j (x.st.worker j) } = x.st
  rw [Function.update_eq_self]

/-- **The worker stays where it is**, whatever step is taken. -/
theorem HungAt.step {x y : System W} {j : Fin W} (hring : cfg.ring = atomicMin cfg.ring.capacity)
    (h : HungAt cfg x j) (hstep : SystemStep cfg maxDuration x y) : HungAt cfg y j := by
  have hne : ∀ {i}, (x.st.worker i).pc ≠ .enqueue → j ≠ i := by
    rintro i hpc rfl
    exact hpc h.pc
  cases hstep with
  | signal => exact ⟨h.phase, h.pc, h.left, h.full, h.inside⟩
  | start hphase => exact absurd (h.phase.symm.trans hphase) (by simp)
  | fail hphase => exact absurd (h.phase.symm.trans hphase) (by simp)
  | receive burst hphase => exact absurd (h.phase.symm.trans hphase) (by simp)
  | inner hphase => exact absurd (h.phase.symm.trans hphase) (by simp)
  | enqueue k hphase => exact absurd (h.phase.symm.trans hphase) (by simp)
  | aggregate k hphase => exact absurd (h.phase.symm.trans hphase) (by simp)
  | leave hphase => exact absurd (h.phase.symm.trans hphase) (by simp)
  | stop i hphase => exact absurd (h.phase.symm.trans hphase) (by simp)
  | poll i k hphase => exact absurd (h.phase.symm.trans hphase) (by simp)
  | join hphase hall => exact absurd (h.inside.symm.trans (hall j)) Bool.noConfusion
  | test i hpc hadm hexit =>
      have hij : j ≠ i := hne (by rw [hpc]; decide)
      unfold System.test
      split
      · exact ⟨h.phase, h.pc, h.left, h.full, h.inside⟩
      · refine ⟨h.phase, h.pc, h.left, h.full, ?_⟩
        show Function.update x.exited i true j = false
        rw [Function.update_of_ne hij]
        exact h.inside
  | workerDequeue i k hpc hadm hk =>
      exact h.of_other (onlyWorker_dequeue x.st i k) rfl rfl (hne (by rw [hpc]; decide))
  | workerExec i hpc =>
      exact h.of_other (onlyWorker_exec x.st i) rfl rfl (hne (by rw [hpc]; decide))
  | workerEnqueue i k hpc hk =>
      by_cases hij : j = i
      · subst hij
        rw [h.enqueue hring (hk h.left)]
        exact h
      · exact h.of_other (onlyWorker_enqueue x.st i k) rfl rfl hij

/-- **It stays there forever.** -/
theorem HungAt.forever {x y : System W} {j : Fin W} (hring : cfg.ring = atomicMin cfg.ring.capacity)
    (h : HungAt cfg x j) (hrun : Relation.ReflTransGen (SystemStep cfg maxDuration) x y) :
    HungAt cfg y j :=
  ReflTransGen.invariant (fun x => HungAt cfg x j) h (fun _ _ hx hs => hx.step hring hs) hrun

end Forever

/-! ## §3. What a worker may still store. -/

/-- The packets a worker puts on its tail ring before it tests the flags again, if
it takes `burst` of them. -/
def Worker.toCome (w : Worker) (burst : ℕ) (admitted : Bool) : ℕ :=
  match w.pc with
  | .dequeue => w.outNum + if admitted then burst else 0
  | .exec => w.outNum + (w.mbufsIn.length - w.i)
  | .enqueue => w.outNum

section ToCome

variable {w : Worker} {burst : ℕ} {admitted : Bool}

theorem Worker.toCome_dequeue (hpc : w.pc = .dequeue) :
    w.toCome burst admitted = w.outNum + if admitted then burst else 0 := by
  unfold Worker.toCome
  rw [hpc]

theorem Worker.toCome_exec (hpc : w.pc = .exec) :
    w.toCome burst admitted = w.outNum + (w.mbufsIn.length - w.i) := by
  unfold Worker.toCome
  rw [hpc]

theorem Worker.toCome_enqueue (hpc : w.pc = .enqueue) : w.toCome burst admitted = w.outNum := by
  unfold Worker.toCome
  rw [hpc]

end ToCome

/-- What is on tail ring `j`, and what its worker may still store there. -/
def System.due (cfg : Config) (x : System W) (j : Fin W) : ℕ :=
  (x.st.tail j).length + (x.st.worker j).toCome cfg.burstSize (x.admitted j)

section Due

variable (cfg : Config) {x : System W} {j : Fin W}

/-- A dequeue uses up the admission. -/
theorem toCome_workerDequeue (hpc : (x.st.worker j).pc = .dequeue) (hadm : x.admitted j = true)
    {k : ℕ} (hk : k ≤ cfg.burstSize) :
    ((x.st.workerDequeue j k).worker j).toCome cfg.burstSize false
      ≤ (x.st.worker j).toCome cfg.burstSize (x.admitted j) := by
  have hworker : (x.st.workerDequeue j k).worker j = { x.st.worker j with
      pc := .exec, mbufsIn := (x.st.head j).take k, i := 0, mbufsOut := [] } :=
    Function.update_self _ _ _
  have hlen : ((x.st.head j).take k).length ≤ k := List.length_take_le _ _
  rw [hworker, Worker.toCome_exec rfl, Worker.toCome_dequeue hpc, hadm]
  show (x.st.worker j).outNum + (((x.st.head j).take k).length - 0)
    ≤ (x.st.worker j).outNum + cfg.burstSize
  omega

/-- The batch is processed, and stays to come. -/
theorem due_workerExec (hpc : (x.st.worker j).pc = .exec) :
    ((x.st.workerExec j).worker j).pc ≠ .dequeue ∧ (x.st.workerExec j).tail = x.st.tail
      ∧ ((x.st.workerExec j).worker j).toCome cfg.burstSize (x.admitted j)
        ≤ (x.st.worker j).toCome cfg.burstSize (x.admitted j) := by
  rw [Worker.toCome_exec hpc]
  cases hget : (x.st.worker j).mbufsIn[(x.st.worker j).i]? with
  | some mbuf =>
      have hlt := (List.getElem?_eq_some_iff.mp hget).1
      have hworker : (x.st.workerExec j).worker j = (x.st.worker j).advance mbuf := by
        rw [workerExec_some hget]
        exact Function.update_self _ _ _
      have hpc' : ((x.st.worker j).advance mbuf).pc = .exec := hpc
      refine ⟨?_, by rw [workerExec_some hget], ?_⟩
      · rw [hworker, hpc']
        decide
      · rw [hworker, Worker.toCome_exec hpc']
        show (x.st.worker j).outNum + 1
            + ((x.st.worker j).mbufsIn.length - ((x.st.worker j).i + 1))
          ≤ (x.st.worker j).outNum + ((x.st.worker j).mbufsIn.length - (x.st.worker j).i)
        omega
  | none =>
      have hworker : (x.st.workerExec j).worker j
          = { x.st.worker j with pc := .enqueue, totEnq := 0 } := by
        rw [workerExec_none hget]
        exact Function.update_self _ _ _
      refine ⟨?_, by rw [workerExec_none hget], ?_⟩
      · rw [hworker]
        exact WorkerPc.noConfusion
      · rw [hworker, Worker.toCome_enqueue rfl]
        exact Nat.le_add_right _ _

/-- What is stored is not to come any more. -/
theorem due_workerEnqueue (hpc : (x.st.worker j).pc = .enqueue) {k : ℕ}
    (hk : 0 < (x.st.worker j).outNum → k ≤ (x.st.worker j).outNum)
    (hadm : x.admitted j = false) :
    System.due cfg { x with st := x.st.workerEnqueue j k } j ≤ x.due cfg j
      ∧ ((x.st.workerEnqueue j k).worker j).toCome cfg.burstSize (x.admitted j)
        ≤ (x.st.worker j).toCome cfg.burstSize (x.admitted j)
      ∧ (((x.st.workerEnqueue j k).worker j).pc = .dequeue →
          ((x.st.workerEnqueue j k).worker j).outNum = 0) := by
  have hold : (x.st.worker j).toCome cfg.burstSize (x.admitted j) = (x.st.worker j).outNum :=
    Worker.toCome_enqueue hpc
  unfold System.due
  rw [hold]
  by_cases hpos : 0 < (x.st.worker j).outNum
  · have hk' := hk hpos
    have hlen : (((x.st.worker j).mbufsOut.drop (x.st.worker j).totEnq).take k).length ≤ k :=
      List.length_take_le _ _
    have hnew : ((x.st.worker j).stored k).toCome cfg.burstSize (x.admitted j)
        = (x.st.worker j).outNum - k :=
      Worker.toCome_enqueue hpc
    dsimp only
    rw [workerEnqueue_pos hpos k]
    dsimp only
    rw [Function.update_self, Function.update_self, hnew, List.length_append]
    refine ⟨by omega, by omega, fun hp => absurd (hpc.symm.trans hp) (by decide)⟩
  · dsimp only
    rw [workerEnqueue_zero hpos k]
    dsimp only
    rw [Function.update_self, Worker.toCome_dequeue rfl, hadm]
    exact ⟨le_refl _, le_refl _, fun _ => Nat.eq_zero_of_not_pos hpos⟩

end Due

/-! ## §4. One worker. -/

/-- Main has cleared `running`. -/
def Phase.stopped : Phase W → Bool
  | .setup => false
  | .run => false
  | .left => false
  | .flush _ => true
  | .wait => true
  | .done => true

/-- The invariant of the shutdown; `drained` is for a single tail ring. -/
structure Orderly (cfg : Config) (x : System W) : Prop where
  admitted : ∀ j, x.admitted j = true → (x.st.worker j).pc = .dequeue
  idle : ∀ j, (x.st.worker j).pc = .dequeue → (x.st.worker j).outNum = 0
  toCome : ∀ j, (x.st.worker j).toCome cfg.burstSize (x.admitted j) ≤ cfg.burstSize
  stopped : x.phase.stopped = true → x.running = false
  drained : x.phase = .wait → ∀ j, x.due cfg j ≤ cfg.burstSize

section Orderly

variable {cfg : Config} {maxDuration : ℕ} {x : System W}

theorem Orderly.init [NeZero W] (cfg : Config) : Orderly cfg (System.init W) where
  admitted _ h := absurd h Bool.noConfusion
  idle _ _ := rfl
  toCome _ := Nat.zero_le _
  stopped h := absurd h Bool.noConfusion
  drained h := absurd h (by simp [System.init])

/-- A step of main before it waits. -/
theorem Orderly.main (h : Orderly cfg x) {s' : State W} {phase : Phase W} {running forceQuit : Bool}
    (hworker : s'.worker = x.st.worker) (hwait : phase ≠ .wait)
    (hstopped : phase.stopped = true → running = false) :
    Orderly cfg { x with
      st := s', phase := phase, running := running, forceQuit := forceQuit } where
  admitted j hj := by
    show (s'.worker j).pc = _
    rw [hworker]
    exact h.admitted j hj
  idle j hj := by
    dsimp only at hj ⊢
    rw [hworker] at hj ⊢
    exact h.idle j hj
  toCome j := by
    dsimp only
    rw [hworker]
    exact h.toCome j
  stopped := hstopped
  drained hphase := absurd hphase hwait

/-- A step of worker `j`. -/
theorem Orderly.worker (h : Orderly cfg x) {y : System W} {j : Fin W}
    (honly : OnlyWorker j x.st y.st) (hphase : y.phase = x.phase) (hrunning : y.running = x.running)
    (hothers : ∀ i, i ≠ j → y.admitted i = x.admitted i)
    (hadm : y.admitted j = true → (y.st.worker j).pc = .dequeue)
    (hidle : (y.st.worker j).pc = .dequeue → (y.st.worker j).outNum = 0)
    (hcome : (y.st.worker j).toCome cfg.burstSize (y.admitted j) ≤ cfg.burstSize)
    (hdue : x.phase = .wait → y.due cfg j ≤ cfg.burstSize) : Orderly cfg y where
  admitted i hi := by
    by_cases hij : i = j
    · subst hij
      exact hadm hi
    · rw [hothers i hij] at hi
      rw [(honly.others i hij).1]
      exact h.admitted i hi
  idle i hi := by
    by_cases hij : i = j
    · subst hij
      exact hidle hi
    · rw [(honly.others i hij).1] at hi ⊢
      exact h.idle i hi
  toCome i := by
    by_cases hij : i = j
    · subst hij
      exact hcome
    · rw [(honly.others i hij).1, hothers i hij]
      exact h.toCome i
  stopped hs := by
    rw [hphase] at hs
    rw [hrunning]
    exact h.stopped hs
  drained hw i := by
    rw [hphase] at hw
    by_cases hij : i = j
    · subst hij
      exact hdue hw
    · have hsame : y.due cfg i = x.due cfg i := by
        unfold System.due
        rw [(honly.others i hij).1, (honly.others i hij).2.2, hothers i hij]
      rw [hsame]
      exact h.drained hw i

theorem Orderly.not_admitted (h : Orderly cfg x) {j : Fin W}
    (hpc : (x.st.worker j).pc ≠ .dequeue) : x.admitted j = false := by
  cases hadm : x.admitted j with
  | false => rfl
  | true => exact absurd (h.admitted j hadm) hpc

/-- **The flush ends** on an empty tail ring: what comes is one burst. -/
theorem Orderly.poll (h : Orderly cfg x) [Subsingleton (Fin W)] (hin : 0 < cfg.batchSizeIn)
    (hring : cfg.ring = atomicMin cfg.ring.capacity) {i : Fin W} (hphase : x.phase = .flush i)
    {k : ℕ} (hk : cfg.ring.deq cfg.batchSizeIn (x.st.tail i).length k) :
    Orderly cfg (x.poll i k) := by
  have hrunning : x.running = false := h.stopped (by rw [hphase]; rfl)
  by_cases hzero : k = 0
  · have hempty : x.st.tail i = [] := by
      rw [hring] at hk
      have hmin : k = min cfg.batchSizeIn (x.st.tail i).length := hk
      exact List.length_eq_zero_iff.mp (by omega)
    refine ⟨h.admitted, h.idle, h.toCome, fun _ => hrunning, ?_⟩
    intro _ j
    obtain rfl : j = i := Subsingleton.elim j i
    unfold System.due System.poll
    dsimp only
    rw [Function.update_self, hempty, List.drop_nil]
    show 0 + _ ≤ _
    rw [Nat.zero_add]
    exact h.toCome j
  · have hpoll : x.poll i k = { x with st := (x.poll i k).st, phase := .flush (roundNext i) } := by
      unfold System.poll
      dsimp only
      rw [if_neg hzero]
    rw [hpoll]
    exact h.main rfl (by simp) fun _ => hrunning

/-- **Every step keeps the invariant**, where there is one worker. -/
theorem Orderly.step [Subsingleton (Fin W)] (hin : 0 < cfg.batchSizeIn)
    (hring : cfg.ring = atomicMin cfg.ring.capacity) (h : Orderly cfg x) {y : System W}
    (hstep : SystemStep cfg maxDuration x y) : Orderly cfg y := by
  have hfalse : ∀ {p : Phase W}, p.stopped = false → p.stopped = true → x.running = false :=
    fun hp hq => absurd (hp.symm.trans hq) Bool.noConfusion
  cases hstep with
  | signal => exact ⟨h.admitted, h.idle, h.toCome, h.stopped, h.drained⟩
  | start hphase => exact h.main rfl (by simp) (hfalse rfl)
  | fail hphase => exact h.main rfl (by simp) (hfalse rfl)
  | receive burst hphase hquit hpc hlen hnodup hfresh =>
      exact h.main (sameWorkers_receive x.st burst).worker (by rw [hphase]; simp) h.stopped
  | inner hphase hpc =>
      refine h.main ?_ (by rw [hphase]; simp) h.stopped
      split
      · rfl
      · exact (sameWorkers_inner cfg x.st).worker
  | enqueue k hphase hpc hk =>
      refine h.main ?_ (by rw [hphase]; simp) h.stopped
      split
      · rfl
      · exact (sameWorkers_enqueue x.st k).worker
  | aggregate k hphase hpc hk => exact h.main rfl (by rw [hphase]; simp) h.stopped
  | leave hphase hpc hwhy => exact h.main rfl (by simp) (hfalse rfl)
  | stop i hphase hi => exact h.main rfl (by simp) fun _ => rfl
  | poll i k hphase hk => exact h.poll hin hring hphase hk
  | join hphase hall => exact h.main rfl (by simp) fun _ => h.stopped (by rw [hphase]; rfl)
  | test j hpc hadm hexit =>
      unfold System.test
      split
      next hflags =>
        -- `running` is set, so main does not wait
        have hphase : x.phase ≠ .wait := fun hw => by
          rw [h.stopped (by rw [hw]; rfl)] at hflags
          exact Bool.noConfusion hflags.2
        refine h.worker (j := j) ⟨rfl, rfl, rfl, rfl, fun _ _ => ⟨rfl, rfl, rfl⟩⟩ rfl rfl
          (fun i hi => Function.update_of_ne hi _ _) (fun _ => hpc) (h.idle j) ?_
          (fun hw => absurd hw hphase)
        rw [Worker.toCome_dequeue hpc, h.idle j hpc, Nat.zero_add]
        split
        · exact le_refl _
        · exact Nat.zero_le _
      next => exact ⟨h.admitted, h.idle, h.toCome, h.stopped, h.drained⟩
  | workerDequeue j k hpc hadm hk =>
      have hcome := toCome_workerDequeue cfg hpc hadm (cfg.ring.deq_le hk).1
      have hexec : ((x.st.workerDequeue j k).worker j).pc = .exec := by
        show (Function.update x.st.worker j _ j).pc = _
        rw [Function.update_self]
      refine h.worker (onlyWorker_dequeue x.st j k) rfl rfl
        (fun i hi => Function.update_of_ne hi _ _) ?_ ?_ ?_ ?_
      · dsimp only
        rw [Function.update_self]
        exact fun hp => absurd hp Bool.noConfusion
      · exact fun hp => absurd (hexec.symm.trans hp) (by decide)
      · dsimp only
        rw [Function.update_self]
        exact hcome.trans (h.toCome j)
      · intro hw
        refine le_trans ?_ (h.drained hw j)
        unfold System.due
        dsimp only
        rw [Function.update_self]
        exact Nat.add_le_add_left hcome _
  | workerExec j hpc =>
      have hadm := h.not_admitted (by rw [hpc]; decide)
      obtain ⟨hne, htail, hcome⟩ := due_workerExec cfg hpc
      refine h.worker (onlyWorker_exec x.st j) rfl rfl (fun _ _ => rfl)
        (fun hp => absurd (hadm.symm.trans hp) Bool.noConfusion) (fun hp => absurd hp hne)
        (hcome.trans (h.toCome j)) ?_
      intro hw
      refine le_trans ?_ (h.drained hw j)
      unfold System.due
      dsimp only
      rw [htail]
      exact Nat.add_le_add_left hcome _
  | workerEnqueue j k hpc hk =>
      have hadm := h.not_admitted (by rw [hpc]; decide)
      obtain ⟨hdue, hcome, hidle⟩ := due_workerEnqueue cfg hpc
        (fun hpos => (cfg.ring.enq_le (hk hpos)).trans (Nat.min_le_left _ _)) hadm
      exact h.worker (onlyWorker_enqueue x.st j k) rfl rfl (fun _ _ => rfl)
        (fun hp => absurd (hadm.symm.trans hp) Bool.noConfusion) hidle (hcome.trans (h.toCome j))
        fun hw => hdue.trans (h.drained hw j)

/-- **With one worker main does not wait in vain.** -/
theorem SystemReachable.not_hung [NeZero W] (hW : W = 1) (hin : 0 < cfg.batchSizeIn)
    (hring : cfg.ring = atomicMin cfg.ring.capacity) (hburst : cfg.burstSize ≤ cfg.ring.capacity)
    (hx : SystemReachable cfg maxDuration x) (j : Fin W) : ¬ HungAt cfg x j := by
  subst hW
  intro hung
  have horderly : Orderly cfg x :=
    ReflTransGen.invariant (Orderly cfg) (Orderly.init cfg)
      (fun _ _ hy hs => hy.step hin hring hs) hx
  have hdue := horderly.drained hung.phase j
  unfold System.due at hdue
  rw [Worker.toCome_enqueue hung.pc, hung.full] at hdue
  have hleft := hung.left
  omega

end Orderly

end Meili.DataPlane
