/-
  Meili.DataPlane.Rounds — runs of the data plane, built round by round.

  A round of main takes one packet from the device, hands it to the head ring
  that is next (`dispatch`) and polls the tail ring that is next (`collect`).
  A round of a worker takes a burst from its head ring, processes it
  (`workerBatch`) and forwards some of it (`serve`).  Each of them leaves the
  rest of the system as it is; `Dispatched`, `Collected` and `OnlyWorker` say
  what it does leave.  `AfterRounds` counts the rounds of main from the start.
-/
import Meili.DataPlane.Conservation

namespace Meili.DataPlane

open Meili.Lib

variable {W : ℕ} {cfg : Config}

/-- `s'` comes after `s` in some interleaving. -/
abbrev Run (cfg : Config) : State W → State W → Prop := Relation.ReflTransGen (Step cfg)

/-! ## §1. A round of main. -/

/-- From `s` to `s'`, one packet `p` was received and enqueued, and the poll of a
tail ring comes next. -/
structure Dispatched (s s' : State W) (p : Mbuf) : Prop where
  pc : s'.main.pc = .aggregate
  batchCntEnq : s'.main.batchCntEnq = 1
  batchCntWaitOnEnq : s'.main.batchCntWaitOnEnq = 1
  batchCntTotEnq : s'.main.batchCntTotEnq = 0
  ringIn : s'.main.ringInIndex = roundNext s.main.ringInIndex
  ringOut : s'.main.ringOutIndex = s.main.ringOutIndex
  head : s'.head
    = Function.update s.head s.main.ringInIndex (s.head s.main.ringInIndex ++ [p])
  tail : s'.tail = s.tail
  worker : s'.worker = s.worker
  received : s'.received = s.received ++ [p]
  sequenced : s'.sequenced = s.sequenced ++ [p]
  executed : s'.executed = s.executed
  freed : s'.freed = s.freed

/-- From `s` to `s'`, `k` packets were taken from the tail ring that is next, and
main is back at the top. -/
structure Collected (s s' : State W) (k : ℕ) : Prop where
  pc : s'.main.pc = .receive
  ringIn : s'.main.ringInIndex = s.main.ringInIndex
  ringOut : s'.main.ringOutIndex = roundNext s.main.ringOutIndex
  head : s'.head = s.head
  tail : s'.tail
    = Function.update s.tail s.main.ringOutIndex ((s.tail s.main.ringOutIndex).drop k)
  worker : s'.worker = s.worker
  received : s'.received = s.received
  sequenced : s'.sequenced = s.sequenced
  freed : s'.freed = s.freed ++ (s.tail s.main.ringOutIndex).take k

/-- **A dispatch.**  The packet must be fresh, and the head ring have room. -/
theorem dispatch (hring : cfg.ring.Productive) (hin : 0 < cfg.batchSizeIn) {s : State W}
    (hpc : s.main.pc = .receive) {p : Mbuf} (hfresh : p ∉ s.received)
    (hroom : (s.head s.main.ringInIndex).length < cfg.ring.capacity) :
    ∃ s', Run cfg s s' ∧ Dispatched s s' p := by
  let s₁ := s.receive [p]
  let s₂ := s₁.inner cfg
  let s₃ := s₂.enqueue 1
  have hmin : min cfg.batchSizeIn 1 = 1 := by omega
  -- one packet is one slice of one entry, whatever `batch_size_in` is
  have h₁ : s₁.main.pc = .inner := rfl
  have h₂ : s₂.main.pc = .enqueue ∧ s₂.main.toEnq = 1 ∧ s₂.main.totEnq = 0
      ∧ s₂.main.batchCntEnq = 1 := ⟨rfl, hmin, rfl, hmin⟩
  have hlt₂ : s₂.main.totEnq < s₂.main.batchCntEnq := by
    rw [h₂.2.2.1, h₂.2.2.2]
    exact Nat.one_pos
  have hs₃ : s₃ = { s₂ with
      main := { s₂.main with totEnq := s₂.main.totEnq + 1, toEnq := s₂.main.toEnq - 1 }
      head := Function.update s.head s.main.ringInIndex (s.head s.main.ringInIndex ++ [p])
      dispatched := Function.update s.dispatched s.main.ringInIndex
        (s.dispatched s.main.ringInIndex ++ [p]) } :=
    if_pos hlt₂
  have hstop : ¬ s₃.main.totEnq < s₃.main.batchCntEnq := by
    rw [hs₃]
    show ¬ 0 + 1 < s₂.main.batchCntEnq
    rw [h₂.2.2.2]
    exact Nat.lt_irrefl 1
  have hs₄ : s₃.enqueue 0
      = { s₃ with main := { s₃.main with
            pc := .aggregate, ringInIndex := roundNext s₃.main.ringInIndex } } :=
    if_neg hstop
  have hrun : Run cfg s (s₃.enqueue 0) := by
    have r₁ : Step cfg s s₁ := .receive s [p] hpc (Nat.le_of_ble_eq_true rfl)
      (List.nodup_singleton p) (fun q hq => by rwa [List.mem_singleton.mp hq])
    have r₂ : Step cfg s₁ s₂ := .inner s₁ h₁
    have r₃ : Step cfg s₂ s₃ := .enqueue s₂ 1 h₂.1 fun _ => by
      rw [h₂.2.1]
      exact hring.enq_one hroom
    have r₄ : Step cfg s₃ (s₃.enqueue 0) := .enqueue s₃ 0 (by rw [hs₃]; exact h₂.1)
      fun h => absurd h hstop
    exact .tail (.tail (.tail (.single r₁) r₂) r₃) r₄
  refine ⟨s₃.enqueue 0, hrun, ?_⟩
  rw [hs₄, hs₃]
  refine ⟨rfl, hmin, rfl, rfl, rfl, rfl, rfl, rfl, rfl, rfl, ?_, rfl, rfl⟩
  show s.sequenced ++ ([p].drop 0).take (min cfg.batchSizeIn 1) = s.sequenced ++ [p]
  rw [hmin]
  rfl

/-- **A collection**, behind a dispatch. -/
theorem collect (cfg : Config) {s : State W} (hpc : s.main.pc = .aggregate)
    (henq : s.main.batchCntEnq = 1) (hwait : s.main.batchCntWaitOnEnq = 1)
    (htot : s.main.batchCntTotEnq = 0) {k : ℕ}
    (hk : cfg.ring.deq maxPktsBurst (s.tail s.main.ringOutIndex).length k) :
    ∃ s', Run cfg s s' ∧ Collected s s' k := by
  -- the counters of the slice run out, without leaving the range of `int`
  have hpc₁ : (s.aggregate k).main.pc = .inner := by
    show (if s.main.batchCntWaitOnEnq - s.main.batchCntEnq < intMin
        ∨ intMax < ((s.main.batchCntTotEnq + s.main.batchCntEnq : ℕ) : ℤ)
      then MainPc.overflow else MainPc.inner) = _
    rw [henq, hwait, htot]
    decide
  have hdone : ¬ (s.aggregate k).main.batchCntWaitOnEnq > 0 := by
    show ¬ s.main.batchCntWaitOnEnq - s.main.batchCntEnq > 0
    rw [henq, hwait]
    decide
  have hs₂ : (s.aggregate k).inner cfg
      = { s.aggregate k with main := { (s.aggregate k).main with pc := .receive } } :=
    if_neg hdone
  have hrun : Run cfg s ((s.aggregate k).inner cfg) :=
    .tail (.single (.aggregate s k hpc hk)) (.inner _ hpc₁)
  refine ⟨(s.aggregate k).inner cfg, hrun, ?_⟩
  rw [hs₂]
  exact ⟨rfl, rfl, rfl, rfl, rfl, rfl, rfl, rfl, rfl⟩

/-! ## §2. A round of a worker. -/

/-- From `s` to `s'`, nothing has changed but worker `j` and its two rings. -/
structure OnlyWorker (j : Fin W) (s s' : State W) : Prop where
  main : s'.main = s.main
  received : s'.received = s.received
  sequenced : s'.sequenced = s.sequenced
  freed : s'.freed = s.freed
  others : ∀ i, i ≠ j → s'.worker i = s.worker i ∧ s'.head i = s.head i ∧ s'.tail i = s.tail i

theorem OnlyWorker.trans {j : Fin W} {s s' s'' : State W} (h : OnlyWorker j s s')
    (h' : OnlyWorker j s' s'') : OnlyWorker j s s'' where
  main := h'.main.trans h.main
  received := h'.received.trans h.received
  sequenced := h'.sequenced.trans h.sequenced
  freed := h'.freed.trans h.freed
  others i hi := by
    obtain ⟨hw, hh, ht⟩ := h.others i hi
    obtain ⟨hw', hh', ht'⟩ := h'.others i hi
    exact ⟨hw'.trans hw, hh'.trans hh, ht'.trans ht⟩

theorem onlyWorker_dequeue (s : State W) (j : Fin W) (k : ℕ) :
    OnlyWorker j s (s.workerDequeue j k) :=
  ⟨rfl, rfl, rfl, rfl, fun _ hi =>
    ⟨Function.update_of_ne hi _ _, Function.update_of_ne hi _ _, rfl⟩⟩

theorem onlyWorker_exec (s : State W) (j : Fin W) : OnlyWorker j s (s.workerExec j) := by
  unfold State.workerExec
  dsimp only
  split
  · exact ⟨rfl, rfl, rfl, rfl, fun _ hi => ⟨Function.update_of_ne hi _ _, rfl, rfl⟩⟩
  · exact ⟨rfl, rfl, rfl, rfl, fun _ hi => ⟨Function.update_of_ne hi _ _, rfl, rfl⟩⟩

theorem onlyWorker_enqueue (s : State W) (j : Fin W) (k : ℕ) :
    OnlyWorker j s (s.workerEnqueue j k) := by
  unfold State.workerEnqueue
  dsimp only
  split
  · exact ⟨rfl, rfl, rfl, rfl, fun _ hi =>
      ⟨Function.update_of_ne hi _ _, rfl, Function.update_of_ne hi _ _⟩⟩
  · exact ⟨rfl, rfl, rfl, rfl, fun _ hi => ⟨Function.update_of_ne hi _ _, rfl, rfl⟩⟩

/-- The batch `batch` is processed, none of it forwarded yet. -/
def Worker.ready (batch : List Mbuf) : Worker where
  pc := .enqueue
  mbufsIn := batch
  i := batch.length
  mbufsOut := batch
  outNum := batch.length
  totEnq := 0

/-- The worker has processed `mbuf`, the next one of its batch. -/
def Worker.advance (w : Worker) (mbuf : Mbuf) : Worker :=
  { w with i := w.i + 1, mbufsOut := w.mbufsOut ++ [mbuf], outNum := w.outNum + 1 }

theorem workerExec_some {s : State W} {j : Fin W} {mbuf : Mbuf}
    (hget : (s.worker j).mbufsIn[(s.worker j).i]? = some mbuf) :
    s.workerExec j = { s with
      worker := Function.update s.worker j ((s.worker j).advance mbuf)
      executed := Function.update s.executed j (s.executed j ++ [mbuf]) } := by
  unfold State.workerExec
  dsimp only
  rw [hget]
  rfl

theorem workerExec_none {s : State W} {j : Fin W}
    (hget : (s.worker j).mbufsIn[(s.worker j).i]? = none) :
    s.workerExec j = { s with
      worker := Function.update s.worker j { s.worker j with pc := .enqueue, totEnq := 0 } } := by
  unfold State.workerExec
  dsimp only
  rw [hget]

/-- The worker has stored `k` of its packets. -/
def Worker.stored (w : Worker) (k : ℕ) : Worker :=
  { w with totEnq := w.totEnq + k, outNum := w.outNum - k }

theorem workerEnqueue_pos {s : State W} {j : Fin W} (hpos : 0 < (s.worker j).outNum) (k : ℕ) :
    s.workerEnqueue j k = { s with
      worker := Function.update s.worker j ((s.worker j).stored k)
      tail := Function.update s.tail j
        (s.tail j ++ ((s.worker j).mbufsOut.drop (s.worker j).totEnq).take k) } :=
  if_pos hpos

theorem workerEnqueue_zero {s : State W} {j : Fin W} (hzero : ¬ 0 < (s.worker j).outNum) (k : ℕ) :
    s.workerEnqueue j k = { s with
      worker := Function.update s.worker j { s.worker j with pc := .dequeue } } :=
  if_neg hzero

/-- **A packet leaves a worker** by its tail ring. -/
theorem Step.batch_or_tail {s s' : State W} (h : Flow s) (hstep : Step cfg s s') {j : Fin W}
    {p : Mbuf} (hp : p ∈ (s.worker j).batch) : p ∈ (s'.worker j).batch ∨ p ∈ s'.tail j := by
  -- a step of another worker, or of main, leaves the batch alone
  have hkeep : s'.worker j = s.worker j → p ∈ (s'.worker j).batch := by
    intro heq
    rwa [heq]
  cases hstep with
  | receive burst hpc hlen hnodup hfresh =>
      exact Or.inl (hkeep (congrFun (sameWorkers_receive s burst).worker j))
  | inner hpc =>
      exact Or.inl (hkeep (congrFun (sameWorkers_inner cfg s).worker j))
  | enqueue k hpc hk =>
      exact Or.inl (hkeep (congrFun (sameWorkers_enqueue s k).worker j))
  | aggregate k hpc hk => exact Or.inl (hkeep rfl)
  | workerDequeue i k hpc hk =>
      by_cases hji : j = i
      · subst hji
        rw [Worker.batch_dequeue hpc] at hp
        exact absurd hp List.not_mem_nil
      · exact Or.inl (hkeep ((onlyWorker_dequeue s i k).others j hji).1)
  | workerExec i hpc =>
      by_cases hji : j = i
      · subst hji
        rw [Worker.batch_exec hpc] at hp
        obtain ⟨hle, hout, hnum⟩ := (h.worker j).exec hpc
        left
        cases hget : (s.worker j).mbufsIn[(s.worker j).i]? with
        | some mbuf =>
            rw [workerExec_some hget]
            show p ∈ (Function.update s.worker j _ j).batch
            rw [Function.update_self, Worker.batch_exec (by exact hpc)]
            exact hp
        | none =>
            -- the whole batch has been processed
            have hall : (s.worker j).mbufsOut = (s.worker j).mbufsIn := by
              rw [hout, List.take_of_length_le (List.getElem?_eq_none_iff.mp hget)]
            rw [workerExec_none hget]
            show p ∈ (Function.update s.worker j _ j).batch
            rw [Function.update_self, Worker.batch_enqueue (by rfl)]
            show p ∈ (s.worker j).mbufsOut.drop 0
            rw [List.drop_zero, hall]
            exact hp
      · exact Or.inl (hkeep ((onlyWorker_exec s i).others j hji).1)
  | workerEnqueue i k hpc hk =>
      by_cases hji : j = i
      · subst hji
        rw [Worker.batch_enqueue hpc] at hp
        by_cases hpos : 0 < (s.worker j).outNum
        · rw [workerEnqueue_pos hpos]
          show p ∈ (Function.update s.worker j _ j).batch ∨ p ∈ Function.update s.tail j _ j
          rw [Function.update_self, Function.update_self, Worker.batch_enqueue (by exact hpc)]
          rw [← List.take_append_drop k ((s.worker j).mbufsOut.drop (s.worker j).totEnq),
            List.mem_append, List.drop_drop] at hp
          rcases hp with hstored | hleft
          · exact Or.inr (List.mem_append_right _ hstored)
          · exact Or.inl hleft
        · -- nothing is left
          have hsum := (h.worker j).enqueue hpc
          rw [List.drop_of_length_le (by omega)] at hp
          exact absurd hp List.not_mem_nil
      · exact Or.inl (hkeep ((onlyWorker_enqueue s i k).others j hji).1)

/-- Nothing that was processed is forgotten. -/
theorem Step.executed_prefix {s s' : State W} (hstep : Step cfg s s') (j : Fin W) :
    s.executed j <+: s'.executed j := by
  cases hstep with
  | receive burst hpc hlen hnodup hfresh =>
      rw [(sameWorkers_receive s burst).executed]
  | inner hpc => rw [(sameWorkers_inner cfg s).executed]
  | enqueue k hpc hk => rw [(sameWorkers_enqueue s k).executed]
  | aggregate k hpc hk => exact List.prefix_refl _
  | workerDequeue i k hpc hk => exact List.prefix_refl _
  | workerExec i hpc =>
      cases hget : (s.worker i).mbufsIn[(s.worker i).i]? with
      | some mbuf =>
          rw [workerExec_some hget]
          show s.executed j <+: Function.update s.executed i _ j
          by_cases hji : j = i
          · subst hji
            rw [Function.update_self]
            exact List.prefix_append _ _
          · rw [Function.update_of_ne hji]
      | none =>
          rw [workerExec_none hget]
  | workerEnqueue i k hpc hk =>
      unfold State.workerEnqueue
      dsimp only
      split
      · exact List.prefix_refl _
      · exact List.prefix_refl _

theorem Run.executed_prefix {s s' : State W} (hrun : Run cfg s s') (j : Fin W) :
    s.executed j <+: s'.executed j := by
  induction hrun with
  | refl => exact List.prefix_refl _
  | tail _ hstep ih => exact ih.trans (hstep.executed_prefix j)

/-- **The loop over the batch** runs to its end. -/
theorem workerBatch (cfg : Config) {s : State W} {j : Fin W} (hpc : (s.worker j).pc = .exec)
    (hsane : (s.worker j).Sane) :
    ∃ s', Run cfg s s' ∧ OnlyWorker j s s' ∧ s'.head j = s.head j ∧ s'.tail j = s.tail j
      ∧ s'.worker j = Worker.ready (s.worker j).mbufsIn := by
  -- induction on what is left of the batch
  generalize hleft : (s.worker j).mbufsIn.length - (s.worker j).i = left
  induction left generalizing s with
  | zero =>
      obtain ⟨hle, hout, hnum⟩ := hsane.exec hpc
      have hi : (s.worker j).i = (s.worker j).mbufsIn.length := by omega
      have hnone : (s.worker j).mbufsIn[(s.worker j).i]? = none := by
        rw [hi]
        exact List.getElem?_eq_none (le_refl _)
      have hall : (s.worker j).mbufsOut = (s.worker j).mbufsIn := by
        rw [hout, hi, List.take_length]
      have hs' := workerExec_none hnone
      refine ⟨s.workerExec j, .single (.workerExec s j hpc), onlyWorker_exec s j, ?_, ?_, ?_⟩
      · rw [hs']
      · rw [hs']
      · rw [hs']
        show Function.update s.worker j _ j = _
        rw [Function.update_self]
        unfold Worker.ready
        rw [hall, hnum, hi]
  | succ left ih =>
      obtain ⟨hle, hout, hnum⟩ := hsane.exec hpc
      have hlt : (s.worker j).i < (s.worker j).mbufsIn.length := by omega
      have hs₁ := workerExec_some (List.getElem?_eq_getElem hlt)
      have hworker : (s.workerExec j).worker j
          = (s.worker j).advance (s.worker j).mbufsIn[(s.worker j).i] := by
        rw [hs₁]
        exact Function.update_self _ _ _
      have hsane₁ : ((s.workerExec j).worker j).Sane := by
        rw [hworker]
        refine ⟨fun hp => absurd (hpc.symm.trans hp) (by decide), fun _ => ⟨hlt, ?_, ?_⟩,
          fun hp => absurd (hpc.symm.trans hp) (by decide)⟩
        · show (s.worker j).mbufsOut ++ [_] = (s.worker j).mbufsIn.take ((s.worker j).i + 1)
          rw [hout]
          exact List.take_append_getElem hlt
        · show (s.worker j).outNum + 1 = (s.worker j).i + 1
          rw [hnum]
      have hleft₁ : ((s.workerExec j).worker j).mbufsIn.length - ((s.workerExec j).worker j).i
          = left := by
        rw [hworker]
        show (s.worker j).mbufsIn.length - ((s.worker j).i + 1) = left
        omega
      obtain ⟨s', hrun, honly, hhead, htail, hready⟩ :=
        ih (by rw [hworker]; exact hpc) hsane₁ hleft₁
      refine ⟨s', .head (.workerExec s j hpc) hrun, (onlyWorker_exec s j).trans honly, ?_, ?_, ?_⟩
      · rw [hhead, hs₁]
      · rw [htail, hs₁]
      · rw [hready, hworker]
        rfl

/-- **A worker's round** on an empty tail ring: it forwards `k` packets from the
front of its head ring. -/
theorem serve (hring : cfg.ring.Productive) (hburst : 0 < cfg.burstSize) {s : State W}
    {j : Fin W} (hpc : (s.worker j).pc = .dequeue) (hsane : (s.worker j).Sane)
    (hhead : 0 < (s.head j).length) (htail : s.tail j = []) :
    ∃ s' k, Run cfg s s' ∧ OnlyWorker j s s' ∧ 0 < k ∧ s'.tail j = (s.head j).take k := by
  obtain ⟨n, hn, hdeq⟩ := hring.deq_pos hburst hhead
  -- the burst is taken
  let s₁ := s.workerDequeue j n
  have hw₁ : s₁.worker j
      = { s.worker j with pc := .exec, mbufsIn := (s.head j).take n, i := 0, mbufsOut := [] } :=
    Function.update_self _ _ _
  have hsane₁ : (s₁.worker j).Sane := by
    rw [hw₁]
    exact ⟨fun hp => absurd hp (by simp), fun _ => ⟨Nat.zero_le _, rfl, hsane.dequeue hpc⟩,
      fun hp => absurd hp (by simp)⟩
  -- it is processed
  obtain ⟨s₂, hrun₂, honly₂, -, htail₂, hready⟩ :=
    workerBatch cfg (by rw [hw₁]) hsane₁
  have hlen : ((s.head j).take n).length = n := by
    rw [List.length_take]
    exact min_eq_left (cfg.ring.deq_le hdeq).2
  rw [hw₁] at hready
  have hnum : (s₂.worker j).outNum = n := by
    rw [hready]
    exact hlen
  have htail₂' : s₂.tail j = [] := htail₂.trans htail
  -- and some of it is stored
  obtain ⟨k, hk, henq⟩ := hring.enq_pos (lt_min hn hburst) hring.capacity_pos
  have hs₃ : (s₂.workerEnqueue j k).tail j = (s.head j).take (min k n) := by
    unfold State.workerEnqueue
    dsimp only
    rw [hnum, if_pos hn]
    show Function.update s₂.tail j _ j = _
    rw [Function.update_self, htail₂', hready]
    show [] ++ (((s.head j).take n).drop 0).take k = _
    rw [List.nil_append, List.drop_zero, List.take_take]
  have hstep₃ : Step cfg s₂ (s₂.workerEnqueue j k) :=
    .workerEnqueue s₂ j k (by rw [hready]; rfl) fun _ => by
      rw [hnum, htail₂']
      exact henq
  exact ⟨s₂.workerEnqueue j k, min k n,
    .tail (.head (.workerDequeue s j n hpc hdeq) hrun₂) hstep₃,
    ((onlyWorker_dequeue s j n).trans honly₂).trans (onlyWorker_enqueue s₂ j k),
    lt_min hk hn, hs₃⟩

/-! ## §3. Round after round. -/

/-- Main has made `i` rounds, with the packets below `i`, and is at the top. -/
structure AfterRounds (s : State W) (i : ℕ) : Prop where
  pc : s.main.pc = .receive
  ringIn : s.main.ringInIndex.val = i % W
  ringOut : s.main.ringOutIndex.val = i % W
  received : s.received = List.range i
  sequenced : s.sequenced = List.range i

theorem AfterRounds.ring_eq {s : State W} {i : ℕ} (h : AfterRounds s i) :
    s.main.ringOutIndex = s.main.ringInIndex :=
  Fin.ext (h.ringOut.trans h.ringIn.symm)

/-- The round of packet `i` puts it on a head ring. -/
theorem AfterRounds.dispatch (hring : cfg.ring.Productive) (hin : 0 < cfg.batchSizeIn)
    {s : State W} {i : ℕ} (h : AfterRounds s i)
    (hroom : (s.head s.main.ringInIndex).length < cfg.ring.capacity) :
    ∃ s', Run cfg s s' ∧ Dispatched s s' i :=
  DataPlane.dispatch hring hin h.pc (by rw [h.received]; simp) hroom

/-- Behind the round of packet `i` the next ring pair is served. -/
theorem AfterRounds.next {s s' s'' : State W} {i k : ℕ} (h : AfterRounds s i)
    (hdisp : Dispatched s s' i) {j : Fin W} {t : State W} (honly : OnlyWorker j s' t)
    (hcoll : Collected t s'' k) : AfterRounds s'' (i + 1) where
  pc := hcoll.pc
  ringIn := by
    rw [hcoll.ringIn, honly.main, hdisp.ringIn]
    show (s.main.ringInIndex.val + 1) % W = (i + 1) % W
    rw [h.ringIn, Nat.mod_add_mod]
  ringOut := by
    rw [hcoll.ringOut, honly.main, hdisp.ringOut]
    show (s.main.ringOutIndex.val + 1) % W = (i + 1) % W
    rw [h.ringOut, Nat.mod_add_mod]
  received := by
    rw [hcoll.received, honly.received, hdisp.received, h.received, List.range_succ]
  sequenced := by
    rw [hcoll.sequenced, honly.sequenced, hdisp.sequenced, h.sequenced, List.range_succ]

/-- **A round in which no worker moves.**  The packet stays on its head ring. -/
theorem AfterRounds.lazy (hring : cfg.ring.Productive) (hin : 0 < cfg.batchSizeIn)
    {s : State W} {i : ℕ} (h : AfterRounds s i)
    (hroom : (s.head s.main.ringInIndex).length < cfg.ring.capacity)
    (htail : s.tail s.main.ringInIndex = []) :
    ∃ s', Run cfg s s' ∧ AfterRounds s' (i + 1)
      ∧ s'.head = Function.update s.head s.main.ringInIndex (s.head s.main.ringInIndex ++ [i])
      ∧ s'.tail = s.tail ∧ s'.worker = s.worker ∧ s'.freed = s.freed := by
  obtain ⟨t, hrun, hdisp⟩ := h.dispatch hring hin hroom
  have hempty : t.tail t.main.ringOutIndex = [] := by
    rw [hdisp.tail, hdisp.ringOut, h.ring_eq]
    exact htail
  obtain ⟨s', hrun', hcoll⟩ := collect cfg hdisp.pc hdisp.batchCntEnq
    hdisp.batchCntWaitOnEnq hdisp.batchCntTotEnq (k := 0)
    (by rw [hempty]; exact hring.deq_empty maxPktsBurst)
  refine ⟨s', hrun.trans hrun', h.next hdisp (j := t.main.ringOutIndex)
    ⟨rfl, rfl, rfl, rfl, fun _ _ => ⟨rfl, rfl, rfl⟩⟩ hcoll, ?_, ?_, ?_, ?_⟩
  · rw [hcoll.head, hdisp.head]
  · rw [hcoll.tail, List.drop_zero, Function.update_eq_self, hdisp.tail]
  · rw [hcoll.worker, hdisp.worker]
  · rw [hcoll.freed, List.take_zero, List.append_nil, hdisp.freed]

/-- **A round in which the worker of the ring pair moves.**  Main collects some of
what is on its head ring. -/
theorem AfterRounds.served (hring : cfg.ring.Productive) (hin : 0 < cfg.batchSizeIn)
    (hburst : 0 < cfg.burstSize) {s : State W} {i : ℕ} (h : AfterRounds s i)
    (hsane : (s.worker s.main.ringInIndex).Sane)
    (hidle : (s.worker s.main.ringInIndex).pc = .dequeue)
    (hroom : (s.head s.main.ringInIndex).length < cfg.ring.capacity)
    (htail : s.tail s.main.ringInIndex = []) :
    ∃ s' k, Run cfg s s' ∧ AfterRounds s' (i + 1) ∧ 0 < k
      ∧ s'.freed = s.freed ++ (s.head s.main.ringInIndex ++ [i]).take k
      ∧ ∀ j, j ≠ s.main.ringInIndex →
          s'.worker j = s.worker j ∧ s'.head j = s.head j ∧ s'.tail j = s.tail j := by
  obtain ⟨t, hrun, hdisp⟩ := h.dispatch hring hin hroom
  have hhead : t.head s.main.ringInIndex = s.head s.main.ringInIndex ++ [i] := by
    rw [hdisp.head, Function.update_self]
  obtain ⟨u, k, hrun', honly, hk, htail'⟩ := serve hring hburst
    (s := t) (j := s.main.ringInIndex) (by rw [hdisp.worker]; exact hidle)
    (by rw [hdisp.worker]; exact hsane)
    (by rw [hhead, List.length_append]; exact Nat.succ_pos _) (by rw [hdisp.tail]; exact htail)
  rw [hhead] at htail'
  have hout : u.main.ringOutIndex = s.main.ringInIndex := by
    rw [honly.main, hdisp.ringOut, h.ring_eq]
  -- what the worker has forwarded is collected, or some of it
  have hpos : 0 < (u.tail u.main.ringOutIndex).length := by
    rw [hout, htail', List.length_take, List.length_append]
    exact lt_min hk (Nat.succ_pos _)
  obtain ⟨n, hn, hdeq⟩ := hring.deq_pos (n := maxPktsBurst) (by decide) hpos
  obtain ⟨s', hrun'', hcoll⟩ := collect cfg (by rw [honly.main]; exact hdisp.pc)
    (by rw [honly.main]; exact hdisp.batchCntEnq)
    (by rw [honly.main]; exact hdisp.batchCntWaitOnEnq)
    (by rw [honly.main]; exact hdisp.batchCntTotEnq) hdeq
  refine ⟨s', min n k, (hrun.trans hrun').trans hrun'', h.next hdisp honly hcoll, lt_min hn hk,
    ?_, ?_⟩
  · rw [hcoll.freed, honly.freed, hdisp.freed, hout, htail', List.take_take]
  · intro j hj
    obtain ⟨hw, hh, ht⟩ := honly.others j hj
    refine ⟨?_, ?_, ?_⟩
    · rw [hcoll.worker, hw, hdisp.worker]
    · rw [hcoll.head, hh, hdisp.head, Function.update_of_ne hj]
    · rw [hcoll.tail, hout, Function.update_of_ne hj, ht, hdisp.tail]

theorem AfterRounds.init (W : ℕ) [NeZero W] : AfterRounds (State.init W) 0 :=
  ⟨rfl, (Nat.zero_mod W).symm, (Nat.zero_mod W).symm, rfl, rfl⟩

end Meili.DataPlane
