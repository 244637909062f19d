/-
  Meili.Regex.Lifetime — mbufs that the regex device still refers to.

  A worker hands a packet to `regex()` and forwards it when the call is over;
  main frees what it takes from a tail ring (`src/runtime/run_dpdk.c`).  The call
  returns before the device has the op, or has answered it, and
  `regex_dev_dpdk_bf_search_live` takes no reference to the mbuf (the update of its
  reference count is commented out), while `regex_dev_dpdk_bf_prep_op` relies on
  "mbuf is not released until response is handled".

  A step is one of the data plane, one of a queue, or the call that joins the two.

  Conventions of the embedding:

    • a stage calls `regex()` on packet `p` `regexCalls p` times, then returns;
    • worker `j` has queue `j + 1`, as queue 0 is main's;
    • what `regex()` writes through the pointer it never sets (`Meili.Regex.Stray`) hits
      nothing of this: the steps of the queues are the `harmless` ones.
-/
import Meili.DataPlane.Rounds
import Meili.Regex.Batching

namespace Meili.Regex

open Meili.Lib Meili.DataPlane

/-! ## §1. Workers, main and the device. -/

/-- The data plane, whose `W` workers share a regex device. -/
structure Offload (W : ℕ) where
  st : State W
  queues : Queues (W + 1)
  /-- How often a worker has called `regex()` on the packet it is at. -/
  calls : Fin W → ℕ

variable {W : ℕ}

/-- The start of a run. -/
def Offload.init (W : ℕ) [NeZero W] (ops : ℕ → RegexOp) (words : Mbuf → Words) : Offload W where
  st := State.init W
  queues := Queues.init ops words
  calls := fun _ => 0

/-- Worker `j` is inside `pipeline_stage_exec`, with packet `p`. -/
structure Offload.At (x : Offload W) (j : Fin W) (p : Mbuf) : Prop where
  pc : (x.st.worker j).pc = .exec
  mbuf : (x.st.worker j).mbufsIn[(x.st.worker j).i]? = some p

/-- One step of main, of a worker, or of the device. -/
inductive OffloadStep (cfg : Config) (rcfg : RegexConfig) (regexCalls : Mbuf → ℕ) :
    Offload W → Offload W → Prop
  /-- Everything but the loop over a batch. -/
  | move (x : Offload W) (s' : State W) :
      Step cfg x.st s' → s'.executed = x.st.executed →
      OffloadStep cfg rcfg regexCalls x { x with st := s' }
  /-- The stage calls `regex()` on the packet it is at. -/
  | call (x : Offload W) (j : Fin W) (p : Mbuf) :
      x.At j p → x.calls j < regexCalls p → x.queues.pc j.succ = .idle →
      OffloadStep cfg rcfg regexCalls x { x with
        queues := x.queues.regex rcfg j.succ (some p)
        calls := Function.update x.calls j (x.calls j + 1) }
  /-- The call goes on, with an operation on the device. -/
  | device (x : Offload W) (q : Fin (W + 1)) (ev : Event) (y : Queues (W + 1)) :
      x.queues.pc q ≠ .idle → QueueStep rcfg harmless q ev x.queues y →
      OffloadStep cfg rcfg regexCalls x { x with queues := y }
  /-- `pipeline_stage_exec` returns. -/
  | ret (x : Offload W) (j : Fin W) (p : Mbuf) :
      x.At j p → regexCalls p ≤ x.calls j → x.queues.pc j.succ = .idle →
      OffloadStep cfg rcfg regexCalls x { x with
        st := x.st.workerExec j
        calls := Function.update x.calls j 0 }

/-- `x` occurs in some interleaving. -/
def OffloadReachable [NeZero W] (cfg : Config) (rcfg : RegexConfig) (regexCalls : Mbuf → ℕ)
    (x : Offload W) : Prop :=
  ∃ ops words, Relation.ReflTransGen (OffloadStep cfg rcfg regexCalls)
    (Offload.init W ops words) x

/-- An op of queue `q` refers to `p`, in the slice or in the device. -/
def Queues.Holds {Q : ℕ} (rcfg : RegexConfig) (x : Queues Q) (q : Fin Q) (p : Mbuf) : Prop :=
  some p ∈ (x.pendingOps rcfg q).map (·.mbuf) ∨ some p ∈ x.inDevice q

/-- A pending op refers to `p`. -/
def Offload.Pending (rcfg : RegexConfig) (x : Offload W) (p : Mbuf) : Prop :=
  ∃ q, x.queues.Holds rcfg q p

/-- No freed mbuf is referenced by a pending op. -/
def Offload.Outlived (rcfg : RegexConfig) (x : Offload W) : Prop :=
  ∀ p ∈ x.st.freed, ¬ x.Pending rcfg p

/-- From `x` to `y`, a worker forwards no packet that a pending op refers to. -/
def Offload.Waits (rcfg : RegexConfig) (x y : Offload W) : Prop :=
  ∀ j, ∀ p ∈ y.st.tail j, p ∉ x.st.tail j → ¬ x.Pending rcfg p

/-! ## §2. What a step adds to the pending ops. -/

section Holds

variable {Q : ℕ} {rcfg : RegexConfig} {x y : Queues Q} {q : Fin Q} {p : Mbuf}

/-- **What the other queues do** adds nothing. -/
theorem Queues.Holds.of_same (hbatch : Batch rcfg x q) (hsame : SameQueue rcfg x y q)
    (h : y.Holds rcfg q p) : x.Holds rcfg q p := by
  have hops : y.pendingOps rcfg q = x.pendingOps rcfg q :=
    pendingOps_congr hbatch.fits (by rw [hsame.pc]) (by rw [hsame.coreVars])
      fun i hi => hsame.ops i (Nat.lt_of_lt_of_le hi hbatch.fits.le)
  unfold Queues.Holds at h ⊢
  rwa [hops, hsame.inDevice] at h

/-- **A submission** adds its packet. -/
theorem Queues.Holds.regex (hmax : rcfg.maxBatchSize ≤ 1024) (hbatch : Batch rcfg x q)
    (hpc : x.pc q = .idle) {r : Mbuf} (h : (x.regex rcfg q (some r)).Holds rcfg q p) :
    x.Holds rcfg q p ∨ p = r := by
  have hfifo := (hbatch.regex_some hmax hpc r).fifo
  have hsub : (x.regex rcfg q (some r)).submitted q = x.submitted q ++ [r] :=
    Function.update_self _ _ _
  have hacc : (x.regex rcfg q (some r)).accepted q = x.accepted q := rfl
  rw [hsub, hacc, List.map_append, ← hbatch.fifo, List.append_assoc] at hfifo
  have hops := List.append_cancel_left hfifo
  rcases h with hmem | hmem
  · rw [hops, List.mem_append] at hmem
    rcases hmem with hold | hnew
    · exact Or.inl (Or.inl hold)
    · exact Or.inr (Option.some.inj (List.mem_singleton.mp hnew))
  · exact Or.inl (Or.inr hmem)

/-- **An operation on the device** adds nothing. -/
theorem Queues.Holds.device (hpos : 0 < rcfg.maxBatchSize) (hmax : rcfg.maxBatchSize ≤ 1024)
    (hbatch : Batch rcfg x q) (hpc : x.pc q ≠ .idle) {ev : Event}
    (hstep : QueueStep rcfg harmless q ev x y) (h : y.Holds rcfg q p) : x.Holds rcfg q p := by
  cases hstep with
  | regex _ pkt hidle => exact absurd hidle hpc
  | send _ toEnqueue numEnqueued txFull k strays hsend hk _ hhits =>
      rw [sendOps_harmless hhits] at h
      have hfifo := (hbatch.send hpos hmax hsend hk).fifo
      have hold := hbatch.fifo
      unfold Queues.sendOps at h hfifo
      split at h
      next hlt =>
        rw [if_pos hlt] at hfifo
        dsimp only [List.foldl_nil] at hfifo
        rw [Function.update_self, ← hold, List.append_assoc] at hfifo
        -- the burst and what is left of the slice are what was pending
        have hops := List.append_cancel_left hfifo
        unfold Queues.Holds
        rw [← hops, List.mem_append]
        rcases h with hmem | hmem
        · exact Or.inl (Or.inr hmem)
        · dsimp only [List.foldl_nil] at hmem
          rw [Function.update_self, List.mem_append] at hmem
          rcases hmem with hin | hburst
          · exact Or.inr hin
          · exact Or.inl (Or.inl hburst)
      next hge =>
        rw [if_neg hge] at hfifo
        have hops := List.append_cancel_left (hfifo.trans hold.symm)
        rcases h with hmem | hmem
        · rw [hops] at hmem
          exact Or.inl hmem
        · exact Or.inr hmem
  | dequeue _ answers rest strays hpoll hperm hlen _ hhits =>
      rw [dequeue_harmless hhits] at h
      have hbatch' : Batch rcfg (x.dequeue q answers rest []) q := hbatch.dequeue hpoll
      have hops := List.append_cancel_left (hbatch'.fifo.trans hbatch.fifo.symm)
      rcases h with hmem | hmem
      · rw [hops] at hmem
        exact Or.inl hmem
      · have hrest : some p ∈ rest := by
          rwa [show (x.dequeue q answers rest []).inDevice q = rest from
            Function.update_self _ _ _] at hmem
        exact Or.inr (hperm.mem_iff.mpr (List.mem_append_right _ hrest))

end Holds

/-! ## §3. Workers that wait. -/

section Waiting

variable {cfg : Config} {rcfg : RegexConfig} {regexCalls : Mbuf → ℕ} {x y : Offload W}

/-- The invariants of the two parts. -/
structure Offload.Sound (rcfg : RegexConfig) (x : Offload W) : Prop where
  flow : Flow x.st
  batch : ∀ q, Batch rcfg x.queues q

theorem Offload.Sound.init [NeZero W] (hpos : 0 < rcfg.maxBatchSize) (ops : ℕ → RegexOp)
    (words : Mbuf → Words) : (Offload.init W ops words).Sound rcfg :=
  ⟨Flow.init W, Batch.init hpos ops words⟩

theorem Offload.Sound.step (hpos : 0 < rcfg.maxBatchSize) (hmax : rcfg.maxBatchSize ≤ 1024)
    (h : x.Sound rcfg) (hstep : OffloadStep cfg rcfg regexCalls x y) : y.Sound rcfg := by
  cases hstep with
  | move s' hstep _ => exact ⟨h.flow.step hstep, h.batch⟩
  | call j p hat hlt hidle =>
      exact ⟨h.flow, Batch.step hpos hmax h.batch (.regex x.queues (some p) hidle)⟩
  | device q ev z hbusy hstep => exact ⟨h.flow, Batch.step hpos hmax h.batch hstep⟩
  | ret j p hat hge hidle =>
      have hexec : Step cfg x.st (x.st.workerExec j) := .workerExec x.st j hat.pc
      exact ⟨h.flow.step hexec, h.batch⟩

/-- Every packet that a pending op refers to is with a worker. -/
def Offload.Held (rcfg : RegexConfig) (x : Offload W) : Prop :=
  ∀ p, x.Pending rcfg p → ∃ j, p ∈ (x.st.worker j).batch

theorem Offload.Held.outlived (hflow : Flow x.st) (h : x.Held rcfg) : x.Outlived rcfg := by
  intro p hfreed hpending
  obtain ⟨j, hj⟩ := h p hpending
  exact (hflow.batch_disjoint hj).2 hfreed

/-- **If the workers wait**, a packet stays with its worker until it is answered. -/
theorem Offload.Held.step (hpos : 0 < rcfg.maxBatchSize) (hmax : rcfg.maxBatchSize ≤ 1024)
    (hsound : x.Sound rcfg) (h : x.Held rcfg) (hstep : OffloadStep cfg rcfg regexCalls x y)
    (hwaits : x.Waits rcfg y) : y.Held rcfg := by
  -- the data plane moves, and the queues do not
  have hmove : Step cfg x.st y.st → y.queues = x.queues → y.Held rcfg := by
    intro hst hqueues p hpending
    have hpending' : x.Pending rcfg p := by
      unfold Offload.Pending at hpending ⊢
      rwa [hqueues] at hpending
    obtain ⟨j, hj⟩ := h p hpending'
    rcases hst.batch_or_tail hsound.flow hj with hstay | hleave
    · exact ⟨j, hstay⟩
    · exact absurd hpending' (hwaits j p hleave ((hsound.flow.batch_disjoint hj).1 j))
  cases hstep with
  | move s' hst _ => exact hmove hst rfl
  | call j p hat hlt hidle =>
      intro r h
      obtain ⟨q, hq⟩ := h
      by_cases hqj : q = j.succ
      · subst hqj
        rcases Queues.Holds.regex hmax (hsound.batch _) hidle hq with hold | hnew
        · exact h r ⟨_, hold⟩
        · -- the packet is the one the worker is at
          subst hnew
          refine ⟨j, ?_⟩
          rw [Worker.batch_exec hat.pc]
          exact List.mem_of_getElem? hat.mbuf
      · have hsame := QueueStep.same (hsound.batch _) (.regex x.queues (some p) hidle) hqj
        exact h r ⟨q, Queues.Holds.of_same (hsound.batch q) hsame hq⟩
  | device i ev z hbusy hst =>
      intro r h
      obtain ⟨q, hq⟩ := h
      by_cases hqi : q = i
      · subst hqi
        exact h r ⟨q, Queues.Holds.device hpos hmax (hsound.batch q) hbusy hst hq⟩
      · have hsame := QueueStep.same (hsound.batch i) hst hqi
        exact h r ⟨q, Queues.Holds.of_same (hsound.batch q) hsame hq⟩
  | ret j p hat hge hidle => exact hmove (.workerExec x.st j hat.pc) rfl

/-- **A run of workers that wait.** -/
theorem Offload.Held.run (hpos : 0 < rcfg.maxBatchSize) (hmax : rcfg.maxBatchSize ≤ 1024)
    (hsound : x.Sound rcfg) (h : x.Held rcfg)
    (hrun : Relation.ReflTransGen
      (fun x y => OffloadStep cfg rcfg regexCalls x y ∧ x.Waits rcfg y) x y) :
    y.Sound rcfg ∧ y.Held rcfg := by
  refine ReflTransGen.invariant (fun z => z.Sound rcfg ∧ z.Held rcfg) ⟨hsound, h⟩ ?_ hrun
  rintro z z' ⟨hs, hh⟩ ⟨hstep, hwaits⟩
  exact ⟨hs.step hpos hmax hstep, Offload.Held.step hpos hmax hs hh hstep hwaits⟩

theorem Offload.not_pending_init [NeZero W] (ops : ℕ → RegexOp) (words : Mbuf → Words) (p : Mbuf) :
    ¬ (Offload.init W ops words).Pending rcfg p := by
  intro h
  obtain ⟨q, hmem | hmem⟩ := h
  · exact absurd hmem List.not_mem_nil
  · exact absurd hmem List.not_mem_nil

/-- **Without a call** the queues stay as they are. -/
theorem Offload.queues_eq [NeZero W] (hnone : ∀ p, regexCalls p = 0) {ops : ℕ → RegexOp}
    {words : Mbuf → Words}
    (hrun : Relation.ReflTransGen (OffloadStep cfg rcfg regexCalls) (Offload.init W ops words) x) :
    x.queues = Queues.init ops words := by
  refine ReflTransGen.invariant (fun z => z.queues = Queues.init ops words) rfl ?_ hrun
  intro z z' hz hstep
  cases hstep with
  | move s' _ _ => exact hz
  | call j p hat hlt hidle =>
      rw [hnone p] at hlt
      exact absurd hlt (Nat.not_lt_zero _)
  | device q ev w hbusy hstep =>
      rw [hz] at hbusy
      exact absurd rfl hbusy
  | ret j p hat hge hidle => exact hz

end Waiting

/-! ## §4. A device that does not answer. -/

section Silence

variable {Q : ℕ} {rcfg : RegexConfig} {x : Queues Q} {q : Fin Q} {p : Mbuf}

/-- The device has answered nothing on queue `q`. -/
structure Queues.Silent (rcfg : RegexConfig) (x : Queues Q) (q : Fin Q) : Prop where
  batch : ∀ i, Batch rcfg x i
  kept : x.inDevice q = x.accepted q

theorem Queues.Silent.holds (h : x.Silent rcfg q) (hp : p ∈ x.submitted q) :
    x.Holds rcfg q p := by
  have hmem : some p ∈ (x.submitted q).map some := List.mem_map_of_mem hp
  rw [← (h.batch q).fifo, List.mem_append, ← h.kept] at hmem
  exact hmem.symm

/-- Operations on the device that a call of `regex()` makes on queue `q`. -/
abbrev DeviceRun (rcfg : RegexConfig) (q : Fin Q) : Queues Q → Queues Q → Prop :=
  Relation.ReflTransGen fun x y => x.pc q ≠ .idle ∧ ∃ ev, QueueStep rcfg harmless q ev x y

/-- A poll that finds nothing. -/
theorem Queues.Silent.poll (hpos : 0 < rcfg.maxBatchSize) (hmax : rcfg.maxBatchSize ≤ 1024)
    (h : x.Silent rcfg q)
    (hpc : (∃ toEnqueue numEnqueued txFull, x.pc q = .poll toEnqueue numEnqueued txFull)
      ∨ x.pc q = .pull) :
    DeviceRun rcfg q x (x.dequeue q [] (x.inDevice q) [])
      ∧ (x.dequeue q [] (x.inDevice q) []).Silent rcfg q := by
  have hbusy : x.pc q ≠ .idle := by
    rcases hpc with ⟨toEnqueue, numEnqueued, txFull, hpc⟩ | hpc
    · rw [hpc]
      simp
    · rw [hpc]
      simp
  have hstep : QueueStep rcfg harmless q (.dequeue [] (x.inDevice q)) x
      (x.dequeue q [] (x.inDevice q) []) :=
    .dequeue x [] (x.inDevice q) [] hpc (List.Perm.refl _) (Nat.zero_le _) rfl (by simp)
  refine ⟨.single ⟨hbusy, _, hstep⟩, Batch.step hpos hmax h.batch hstep, ?_⟩
  show Function.update x.inDevice q (x.inDevice q) q = x.accepted q
  rw [Function.update_self]
  exact h.kept

/-- The end of a batch. -/
theorem Queues.Silent.stop (hpos : 0 < rcfg.maxBatchSize) (hmax : rcfg.maxBatchSize ≤ 1024)
    (h : x.Silent rcfg q) {toEnqueue numEnqueued : UInt16} {txFull : Bool}
    (hpc : x.pc q = .send toEnqueue numEnqueued txFull) (hge : ¬ numEnqueued < toEnqueue) :
    ∃ y, DeviceRun rcfg q x y ∧ y.Silent rcfg q ∧ y.pc q = .idle
      ∧ y.submitted = x.submitted := by
  have hnone : Queues.sendCounters toEnqueue numEnqueued txFull 0 = [] := if_neg (by simp)
  have hstep : QueueStep rcfg harmless q (.send 0) x
      (x.sendOps rcfg q toEnqueue numEnqueued 0 []) :=
    .send x toEnqueue numEnqueued txFull 0 [] hpc (Nat.zero_le _) (by rw [hnone]; rfl) (by simp)
  have hbatch := Batch.step hpos hmax h.batch hstep
  have hbusy : x.pc q ≠ .idle := by
    rw [hpc]
    simp
  refine ⟨x.sendOps rcfg q toEnqueue numEnqueued 0 [], .single ⟨hbusy, _, hstep⟩, ⟨hbatch, ?_⟩,
    ?_, ?_⟩
  · unfold Queues.sendOps
    rw [if_neg hge]
    exact h.kept
  · unfold Queues.sendOps
    rw [if_neg hge]
    exact Function.update_self _ _ _
  · unfold Queues.sendOps
    rw [if_neg hge]

/-- **A call comes to its end**: the device accepts what it is offered. -/
theorem Queues.Silent.finish (hpos : 0 < rcfg.maxBatchSize) (hmax : rcfg.maxBatchSize ≤ 1024)
    (h : x.Silent rcfg q)
    (hpc : x.pc q = .pull
      ∨ ∃ toEnqueue numEnqueued, x.pc q = .send toEnqueue numEnqueued false) :
    ∃ y, DeviceRun rcfg q x y ∧ y.Silent rcfg q ∧ y.pc q = .idle
      ∧ y.submitted = x.submitted := by
  rcases hpc with hpull | ⟨toEnqueue, numEnqueued, hsend⟩
  · obtain ⟨hrun, hsilent⟩ := h.poll hpos hmax (Or.inr hpull)
    refine ⟨_, hrun, hsilent, ?_, rfl⟩
    show Function.update x.pc q _ q = _
    rw [Function.update_self, hpull]
  · by_cases hlt : numEnqueued < toEnqueue
    · -- all of the batch in one burst, one poll, and the end
      let k := toEnqueue.toNat - numEnqueued.toNat
      let y := x.sendOps rcfg q toEnqueue numEnqueued k []
      have hbusy : x.pc q ≠ .idle := by
        rw [hsend]
        simp
      have hnone : Queues.sendCounters toEnqueue numEnqueued false k = [] := if_neg (by simp)
      have hstep : QueueStep rcfg harmless q (.send k) x y :=
        .send x toEnqueue numEnqueued false k [] hsend (le_refl _) (by rw [hnone]; rfl) (by simp)
      have hy : y = { x with
          pc := Function.update x.pc q (.poll toEnqueue (numEnqueued + UInt16.ofNat k) (k = 0))
          inDevice := y.inDevice
          accepted := y.accepted } := by
        show x.sendOps rcfg q toEnqueue numEnqueued k [] = _
        unfold y Queues.sendOps
        rw [if_pos hlt]
        rfl
      have hpc : y.pc q = .poll toEnqueue (numEnqueued + UInt16.ofNat k) (k = 0) := by
        rw [hy]
        exact Function.update_self _ _ _
      have hsub : y.submitted = x.submitted := by rw [hy]
      have hsilent : y.Silent rcfg q := by
        refine ⟨Batch.step hpos hmax h.batch hstep, ?_⟩
        show (x.sendOps rcfg q toEnqueue numEnqueued k []).inDevice q = _
        unfold y Queues.sendOps
        rw [if_pos hlt]
        dsimp only [List.foldl_nil]
        rw [Function.update_self, Function.update_self, h.kept]
      obtain ⟨hrun, hsilent'⟩ := hsilent.poll hpos hmax (Or.inl ⟨_, _, _, hpc⟩)
      have hpc' : (y.dequeue q [] (y.inDevice q) []).pc q
          = .send toEnqueue (numEnqueued + UInt16.ofNat k) (k = 0) := by
        show Function.update y.pc q _ q = _
        rw [Function.update_self, hpc]
      have hdone : ¬ numEnqueued + UInt16.ofNat k < toEnqueue := by
        rw [UInt16.lt_iff_toNat_lt, UInt16.toNat_add, UInt16.toNat_ofNat']
        have hto := toEnqueue.toNat_lt
        have hnum := UInt16.lt_iff_toNat_lt.mp hlt
        omega
      obtain ⟨z, hrun', hz, hidle, hsub'⟩ := hsilent'.stop hpos hmax hpc' hdone
      exact ⟨z, (Relation.ReflTransGen.head ⟨hbusy, _, hstep⟩ hrun).trans hrun', hz, hidle,
        hsub'.trans hsub⟩
    · exact h.stop hpos hmax hsend hlt

end Silence

/-! ## §5. Forwarded before the answer. -/

section Hazard

variable {cfg : Config} {rcfg : RegexConfig} {regexCalls : Mbuf → ℕ}

/-- A run of the data plane in which no packet is processed. -/
theorem OffloadStep.moves {s s' : State W} (hrun : Run cfg s s')
    (hexec : s'.executed = s.executed) (queues : Queues (W + 1)) (calls : Fin W → ℕ) :
    Relation.ReflTransGen (OffloadStep cfg rcfg regexCalls) ⟨s, queues, calls⟩
      ⟨s', queues, calls⟩ := by
  induction hrun with
  | refl => exact Relation.ReflTransGen.refl
  | @tail t u hrun hstep ih =>
      -- in between, `executed` can only be the same
      have hmid : t.executed = s.executed := by
        funext j
        have hle := (hstep.executed_prefix j).length_le
        rw [hexec] at hle
        exact ((Run.executed_prefix hrun j).eq_of_length_le hle).symm
      exact (ih hmid).tail (.move ⟨t, queues, calls⟩ u hstep (hexec.trans hmid.symm))

/-- A call, as far as the device is concerned. -/
theorem OffloadStep.devices {z z' : Queues (W + 1)} {q : Fin (W + 1)}
    (hrun : DeviceRun rcfg q z z') (s : State W) (calls : Fin W → ℕ) :
    Relation.ReflTransGen (OffloadStep cfg rcfg regexCalls) ⟨s, z, calls⟩ ⟨s, z', calls⟩ := by
  induction hrun with
  | refl => exact Relation.ReflTransGen.refl
  | @tail t u _ hstep ih =>
      obtain ⟨hbusy, ev, hstep⟩ := hstep
      exact ih.tail (.device ⟨s, t, calls⟩ q ev u hbusy hstep)

/-- **One call**, of which the op is pending when it is over. -/
theorem Offload.callOnce (cfg : Config) (hpos : 0 < rcfg.maxBatchSize)
    (hmax : rcfg.maxBatchSize ≤ 1024) {x : Offload W} {j : Fin W} {p : Mbuf} (hat : x.At j p)
    (hlt : x.calls j < regexCalls p) (hidle : x.queues.pc j.succ = .idle)
    (hsilent : x.queues.Silent rcfg j.succ) :
    ∃ z, Relation.ReflTransGen (OffloadStep cfg rcfg regexCalls) x
        ⟨x.st, z, Function.update x.calls j (x.calls j + 1)⟩
      ∧ z.Silent rcfg j.succ ∧ z.pc j.succ = .idle ∧ p ∈ z.submitted j.succ := by
  let y := x.queues.regex rcfg j.succ (some p)
  have hstep : QueueStep rcfg harmless j.succ (.regex (some p)) x.queues y :=
    .regex x.queues (some p) hidle
  have hy : y.Silent rcfg j.succ := ⟨Batch.step hpos hmax hsilent.batch hstep, hsilent.kept⟩
  have hpc : y.pc j.succ = .pull
      ∨ ∃ toEnqueue numEnqueued, y.pc j.succ = .send toEnqueue numEnqueued false := by
    show Function.update x.queues.pc j.succ _ j.succ = _
      ∨ ∃ _ _, Function.update x.queues.pc j.succ _ j.succ = _
    rw [Function.update_self]
    split
    · exact Or.inr ⟨_, _, rfl⟩
    · exact Or.inl rfl
  obtain ⟨z, hrun, hz, hpcz, hsub⟩ := hy.finish hpos hmax hpc
  refine ⟨z, Relation.ReflTransGen.head (.call x j p hat hlt hidle)
    (OffloadStep.devices hrun x.st _), hz, hpcz, ?_⟩
  rw [hsub]
  show p ∈ Function.update x.queues.submitted j.succ _ j.succ
  rw [Function.update_self]
  exact List.mem_append_right _ (List.mem_singleton_self p)

/-- **All the calls** for a packet. -/
theorem Offload.callAll (cfg : Config) (hpos : 0 < rcfg.maxBatchSize)
    (hmax : rcfg.maxBatchSize ≤ 1024) {x : Offload W} {j : Fin W} {p : Mbuf} (hat : x.At j p)
    (hlt : x.calls j < regexCalls p) (hidle : x.queues.pc j.succ = .idle)
    (hsilent : x.queues.Silent rcfg j.succ) :
    ∃ z calls, Relation.ReflTransGen (OffloadStep cfg rcfg regexCalls) x ⟨x.st, z, calls⟩
      ∧ z.Silent rcfg j.succ ∧ z.pc j.succ = .idle ∧ p ∈ z.submitted j.succ
      ∧ regexCalls p ≤ calls j := by
  -- induction on the calls that come behind the next one
  obtain ⟨left, hleft⟩ : ∃ left, regexCalls p = x.calls j + 1 + left :=
    ⟨regexCalls p - (x.calls j + 1), by omega⟩
  induction left generalizing x with
  | zero =>
      obtain ⟨z, hrun, hz, hpc, hsub⟩ := Offload.callOnce cfg hpos hmax hat hlt hidle hsilent
      refine ⟨z, _, hrun, hz, hpc, hsub, ?_⟩
      rw [Function.update_self]
      omega
  | succ left ih =>
      obtain ⟨z, hrun, hz, hpc, -⟩ := Offload.callOnce cfg hpos hmax hat hlt hidle hsilent
      have hcalls : Function.update x.calls j (x.calls j + 1) j = x.calls j + 1 :=
        Function.update_self _ _ _
      obtain ⟨z', calls, hrun', hz', hpc', hsub, hge⟩ :=
        ih (x := ⟨x.st, z, Function.update x.calls j (x.calls j + 1)⟩) ⟨hat.pc, hat.mbuf⟩
          (by show Function.update x.calls j _ j < _; omega) hpc hz
          (by show _ = Function.update x.calls j _ j + 1 + left; omega)
      exact ⟨z', calls, hrun.trans hrun', hz', hpc', hsub, hge⟩

/-- **A processed packet is forwarded and freed.** -/
theorem forward_freed (hring : cfg.ring.Productive) (hburst : 0 < cfg.burstSize) {s : State W}
    {j : Fin W} {p : Mbuf} (hpc : s.main.pc = .aggregate) (hout : s.main.ringOutIndex = j)
    (hworker : s.worker j
      = { pc := .exec, mbufsIn := [p], i := 1, mbufsOut := [p], outNum := 1, totEnq := 0 })
    (htail : s.tail j = []) :
    ∃ s', Run cfg s s' ∧ s'.executed = s.executed ∧ p ∈ s'.freed := by
  -- the loop over the batch ends
  have hnone : (s.worker j).mbufsIn[(s.worker j).i]? = none := by
    rw [hworker]
    rfl
  let s₁ := s.workerExec j
  have hs₁ : s₁ = { s with
      worker := Function.update s.worker j { s.worker j with pc := .enqueue, totEnq := 0 } } :=
    workerExec_none hnone
  have hw₁ : s₁.worker j
      = { pc := .enqueue, mbufsIn := [p], i := 1, mbufsOut := [p], outNum := 1, totEnq := 0 } := by
    rw [hs₁]
    show Function.update s.worker j _ j = _
    rw [Function.update_self, hworker]
  -- the packet is stored
  let s₂ := s₁.workerEnqueue j 1
  have hs₂ := workerEnqueue_pos (s := s₁) (j := j) (by rw [hw₁]; exact Nat.one_pos) 1
  have htail₁ : s₁.tail j = [] := by
    rw [hs₁]
    exact htail
  have htail₂ : s₂.tail j = [p] := by
    show (s₁.workerEnqueue j 1).tail j = _
    rw [hs₂]
    show Function.update s₁.tail j _ j = _
    rw [Function.update_self, htail₁, hw₁]
    rfl
  have hmain₂ : s₂.main = s.main := by
    show (s₁.workerEnqueue j 1).main = _
    rw [hs₂]
    show s₁.main = _
    rw [hs₁]
  have hexec₂ : s₂.executed = s.executed := by
    show (s₁.workerEnqueue j 1).executed = _
    rw [hs₂]
    show s₁.executed = _
    rw [hs₁]
  -- main takes it
  have hlen : (s₂.tail s₂.main.ringOutIndex).length = 1 := by
    rw [hmain₂, hout, htail₂]
    rfl
  obtain ⟨k, hk, hdeq⟩ := hring.deq_pos (n := maxPktsBurst) (by decide) Nat.one_pos
  have hone : k = 1 := by
    have hle := (cfg.ring.deq_le hdeq).2
    omega
  subst hone
  have r₁ : Step cfg s s₁ := .workerExec s j (by rw [hworker])
  have r₂ : Step cfg s₁ s₂ := .workerEnqueue s₁ j 1 (by rw [hw₁]) fun _ => by
    rw [htail₁, hw₁, show min 1 cfg.burstSize = 1 by omega]
    exact hring.enq_one hring.capacity_pos
  have r₃ : Step cfg s₂ (s₂.aggregate 1) := .aggregate s₂ 1 (by rw [hmain₂]; exact hpc) (by
    rw [hlen]
    exact hdeq)
  refine ⟨s₂.aggregate 1, .tail (.tail (.single r₁) r₂) r₃, hexec₂, ?_⟩
  show p ∈ s₂.freed ++ (s₂.tail s₂.main.ringOutIndex).take 1
  rw [hmain₂, hout, htail₂]
  exact List.mem_append_right _ (List.mem_singleton_self p)

/-- **One packet, from the device to its end.**  Main receives it, worker 0 calls
`regex()` for it and forwards it, and main frees it; its op is still pending. -/
theorem freed_pending [NeZero W] (hring : cfg.ring.Productive) (hin : 0 < cfg.batchSizeIn)
    (hburst : 0 < cfg.burstSize) (hpos : 0 < rcfg.maxBatchSize) (hmax : rcfg.maxBatchSize ≤ 1024)
    {p : Mbuf} (hcalls : 0 < regexCalls p) (ops : ℕ → RegexOp) (words : Mbuf → Words) :
    ∃ x : Offload W, Relation.ReflTransGen (OffloadStep cfg rcfg regexCalls)
      (Offload.init W ops words) x ∧ p ∈ x.st.freed ∧ x.Pending rcfg p := by
  -- the packet is on head ring 0
  obtain ⟨s, hrun, hdisp⟩ := dispatch hring hin (s := State.init W) rfl (p := p)
    List.not_mem_nil hring.capacity_pos
  have hhead : s.head 0 = [p] := by
    rw [hdisp.head]
    exact Function.update_self _ _ _
  obtain ⟨k, hk, hdeq⟩ := hring.deq_pos hburst Nat.one_pos
  have hone : k = 1 := by
    have hle := (cfg.ring.deq_le hdeq).2
    omega
  subst hone
  -- worker 0 takes it
  let t := s.workerDequeue 0 1
  have hdeq' : Step cfg s t := .workerDequeue s 0 1 (by rw [hdisp.worker]; rfl) (by
    rw [hhead]
    exact hdeq)
  have hworker : t.worker 0
      = { pc := .exec, mbufsIn := [p], i := 0, mbufsOut := [], outNum := 0, totEnq := 0 } := by
    have htaken : t.worker 0 = { s.worker 0 with
        pc := .exec, mbufsIn := (s.head 0).take 1, i := 0, mbufsOut := [] } :=
      Function.update_self (0 : Fin W) _ s.worker
    rw [htaken, hhead, hdisp.worker]
    rfl
  have htail : t.tail 0 = [] := by
    show s.tail 0 = []
    rw [hdisp.tail]
    rfl
  have hmoves : Relation.ReflTransGen (OffloadStep cfg rcfg regexCalls)
      (Offload.init W ops words) ⟨t, Queues.init ops words, fun _ => 0⟩ :=
    OffloadStep.moves (hrun.tail hdeq') hdisp.executed _ _
  -- the calls
  let x : Offload W := ⟨t, Queues.init ops words, fun _ => 0⟩
  have hat : x.At 0 p := ⟨by rw [hworker], by rw [hworker]; rfl⟩
  obtain ⟨z, calls, hrun₁, hz, hpc, hsub, hge⟩ :=
    Offload.callAll cfg hpos hmax hat hcalls rfl ⟨Batch.init hpos ops words, rfl⟩
  -- and behind them
  have hret : OffloadStep cfg rcfg regexCalls ⟨t, z, calls⟩
      ⟨t.workerExec 0, z, Function.update calls 0 0⟩ :=
    .ret ⟨t, z, calls⟩ 0 p ⟨hat.pc, hat.mbuf⟩ hge hpc
  have hexec := workerExec_some (s := t) (j := 0) hat.mbuf
  obtain ⟨u, hrun₂, hexec₂, hfreed⟩ := forward_freed hring hburst (s := t.workerExec 0) (j := 0)
    (p := p) (by rw [hexec]; exact hdisp.pc) (by rw [hexec]; exact hdisp.ringOut)
    (by
      rw [hexec]
      show Function.update t.worker 0 _ 0 = _
      rw [Function.update_self, hworker]
      rfl)
    (by rw [hexec]; exact htail)
  exact ⟨⟨u, z, Function.update calls 0 0⟩,
    ((hmoves.trans hrun₁).tail hret).trans (OffloadStep.moves hrun₂ hexec₂ z _),
    hfreed, _, hz.holds hsub⟩

end Hazard

/-! ## §6. When a packet outlives its job. -/

section Ends

variable {cfg : Config} {rcfg : RegexConfig} {regexCalls : Mbuf → ℕ}

/-- **A packet outlives its job if no job is made, and only then.**  A stage that calls
`regex()` for a packet has a run in which the packet is freed with its op pending.
It would be enough that workers forward no packet that a pending op refers to. -/
theorem outlived_iff [NeZero W] (hring : cfg.ring.Productive) (hin : 0 < cfg.batchSizeIn)
    (hburst : 0 < cfg.burstSize) (hpos : 0 < rcfg.maxBatchSize)
    (hmax : rcfg.maxBatchSize ≤ 1024) :
    ((∀ x : Offload W, OffloadReachable cfg rcfg regexCalls x → x.Outlived rcfg)
        ↔ ∀ p, regexCalls p = 0)
      ∧ ∀ ops words (x : Offload W), Relation.ReflTransGen
          (fun x y => OffloadStep cfg rcfg regexCalls x y ∧ x.Waits rcfg y)
          (Offload.init W ops words) x → x.Outlived rcfg := by
  constructor
  · constructor
    · intro h p
      by_contra hne
      obtain ⟨x, hrun, hfreed, hpending⟩ := freed_pending (W := W) hring hin hburst hpos hmax
        (Nat.pos_of_ne_zero hne) (fun _ => { mbuf := none, userPtr := none }) fun _ _ => 0
      exact h x ⟨_, _, hrun⟩ p hfreed hpending
    · rintro hnone x ⟨ops, words, hrun⟩ p hfreed ⟨q, hq⟩
      rw [Offload.queues_eq hnone hrun] at hq
      exact Offload.not_pending_init (W := W) ops words p ⟨q, hq⟩
  · intro ops words x hrun
    obtain ⟨hsound, hheld⟩ := Offload.Held.run hpos hmax (Offload.Sound.init hpos ops words)
      (fun p hp => absurd hp (Offload.not_pending_init ops words p)) hrun
    exact hheld.outlived hsound.flow

end Ends

theorem pairs_outlived_iff :
    ((∀ x : Offload 1, OffloadReachable slices pairs (fun _ => 1) x → x.Outlived pairs)
        ↔ ∀ p : Mbuf, (fun _ => 1 : Mbuf → ℕ) p = 0)
      ∧ ∀ ops words (x : Offload 1), Relation.ReflTransGen
          (fun x y => OffloadStep slices pairs (fun _ => 1) x y ∧ x.Waits pairs y)
          (Offload.init 1 ops words) x → x.Outlived pairs :=
  outlived_iff (anyPrefix_productive (by decide)) (by decide) (by decide) (by decide) (by decide)

/-- A batch of two that one packet does not fill: it is freed before it is sent. -/
theorem pairs_freed_pending :
    ∃ x : Offload 1, OffloadReachable slices pairs (fun _ => 1) x ∧ 7 ∈ x.st.freed
      ∧ x.Pending pairs 7 := by
  have hrun : ∃ x : Offload 1, Relation.ReflTransGen (OffloadStep slices pairs fun _ => 1)
      (Offload.init 1 (fun _ => { mbuf := none, userPtr := none }) fun _ _ => 0) x
      ∧ 7 ∈ x.st.freed ∧ x.Pending pairs 7 :=
    freed_pending (anyPrefix_productive (by decide)) (by decide) (by decide) (by decide)
      (by decide) Nat.one_pos _ _
  obtain ⟨x, hrun, hfreed, hpending⟩ := hrun
  exact ⟨x, ⟨_, _, hrun⟩, hfreed, hpending⟩

end Meili.Regex
