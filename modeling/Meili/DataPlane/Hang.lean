/-
  Meili.DataPlane.Hang — a shutdown that does not end.

  `pipeline_post_search` stops at the first tail ring it finds empty.  With two
  workers or more that may be ring 0, while the worker behind it has filled its
  tail ring and holds more packets.

  The run: workers 0 and 1 take one packet each and pause; main deals out packets
  in turn until the head rings are full (`Filled`); then worker 1 moves all it can
  to its tail ring (`Brimful`), and the user ends the program.
-/
import Mathlib.Data.Int.CardIntervalMod
import Meili.DataPlane.Shutdown

namespace Meili.DataPlane

open Meili.Lib

variable {W : ℕ} {cfg : Config}

/-! ## §1. A worker that fills its tail ring. -/

/-- Tail ring `j` is full, and its worker holds more. -/
structure Brimful (cfg : Config) (s : State W) (j : Fin W) : Prop where
  pc : (s.worker j).pc = .enqueue
  left : 0 < (s.worker j).outNum
  full : (s.tail j).length = cfg.ring.capacity

section Fill

variable {s : State W} {j : Fin W}

/-- **The enqueue loop** of worker `j` stores what it can: it gets to the top of its
main loop, or the tail ring is full. -/
theorem storeBatch (hring : cfg.ring = atomicMin cfg.ring.capacity)
    (hpc : (s.worker j).pc = .enqueue) (hsane : (s.worker j).Sane)
    (hout : (s.worker j).outNum ≤ cfg.burstSize) (htail : (s.tail j).length ≤ cfg.ring.capacity) :
    ∃ s', Run cfg s s' ∧ OnlyWorker j s s' ∧ s'.head j = s.head j
      ∧ (Brimful cfg s' j
        ∨ (s'.worker j).pc = .dequeue ∧ (s'.worker j).outNum = 0
          ∧ (s'.tail j).length = (s.tail j).length + (s.worker j).outNum
          ∧ (s'.tail j).length ≤ cfg.ring.capacity) := by
  have hsum := hsane.enqueue hpc
  by_cases hpos : 0 < (s.worker j).outNum
  · let k := min (s.worker j).outNum (cfg.ring.capacity - (s.tail j).length)
    have henq : cfg.ring.enq (min (s.worker j).outNum cfg.burstSize) (s.tail j).length k := by
      rw [hring]
      show k = min (min (s.worker j).outNum cfg.burstSize) (cfg.ring.capacity - (s.tail j).length)
      rw [min_eq_left hout]
    have hs₁ := workerEnqueue_pos hpos k
    have hworker₁ : (s.workerEnqueue j k).worker j = (s.worker j).stored k := by
      rw [hs₁]
      exact Function.update_self _ _ _
    have htail₁ : ((s.workerEnqueue j k).tail j).length = (s.tail j).length + k := by
      rw [hs₁]
      dsimp only
      rw [Function.update_self, List.length_append, List.length_take, List.length_drop]
      omega
    have hhead₁ : (s.workerEnqueue j k).head j = s.head j := by
      rw [hs₁]
    have hnum₁ : ((s.workerEnqueue j k).worker j).outNum = (s.worker j).outNum - k := by
      rw [hworker₁]
      rfl
    have hpc₁ : ((s.workerEnqueue j k).worker j).pc = .enqueue := by
      rw [hworker₁]
      exact hpc
    have hstep₁ : Step cfg s (s.workerEnqueue j k) := .workerEnqueue s j k hpc fun _ => henq
    by_cases hlt : k < (s.worker j).outNum
    · -- the ring was the limit
      refine ⟨s.workerEnqueue j k, .single hstep₁, onlyWorker_enqueue s j k, hhead₁, Or.inl ?_⟩
      exact ⟨hpc₁, by omega, by omega⟩
    · have hzero : ¬ 0 < ((s.workerEnqueue j k).worker j).outNum := by omega
      have hs₂ := workerEnqueue_zero hzero 0
      refine ⟨(s.workerEnqueue j k).workerEnqueue j 0,
        .tail (.single hstep₁) (.workerEnqueue _ j 0 hpc₁ fun h => absurd h hzero),
        (onlyWorker_enqueue s j k).trans (onlyWorker_enqueue _ j 0), ?_, Or.inr ⟨?_, ?_, ?_, ?_⟩⟩
      · rw [hs₂, ← hhead₁]
      · rw [hs₂]
        dsimp only
        rw [Function.update_self]
      · rw [hs₂]
        dsimp only
        rw [Function.update_self]
        exact Nat.eq_zero_of_not_pos hzero
      · rw [hs₂]
        dsimp only
        omega
      · rw [hs₂]
        dsimp only
        omega
  · have hs₁ := workerEnqueue_zero hpos 0
    refine ⟨s.workerEnqueue j 0, .single (.workerEnqueue s j 0 hpc fun h => absurd h hpos),
      onlyWorker_enqueue s j 0, by rw [hs₁], Or.inr ⟨?_, ?_, ?_, ?_⟩⟩
    · rw [hs₁]
      dsimp only
      rw [Function.update_self]
    · rw [hs₁]
      dsimp only
      rw [Function.update_self]
      exact Nat.eq_zero_of_not_pos hpos
    · rw [hs₁]
      dsimp only
      omega
    · rw [hs₁]
      exact htail

/-- **Pass after pass**, worker `j` fills its tail ring, if it has more than fits. -/
theorem fillTail (hring : cfg.ring = atomicMin cfg.ring.capacity) (hburst : 0 < cfg.burstSize)
    (hpc : (s.worker j).pc = .enqueue) (hsane : (s.worker j).Sane)
    (hout : (s.worker j).outNum ≤ cfg.burstSize) (htail : (s.tail j).length ≤ cfg.ring.capacity)
    (hmore : cfg.ring.capacity < (s.tail j).length + (s.worker j).outNum + (s.head j).length) :
    ∃ s', Run cfg s s' ∧ OnlyWorker j s s' ∧ Brimful cfg s' j := by
  -- induction on what is left on the head ring
  generalize hleft : (s.head j).length = left
  induction left using Nat.strongRecOn generalizing s with
  | _ left ih =>
      obtain ⟨s₁, hrun₁, honly₁, hhead₁, hbrim | ⟨hpc₁, hnum₁, hlen₁, hle₁⟩⟩ :=
        storeBatch hring hpc hsane hout htail
      · exact ⟨s₁, hrun₁, honly₁, hbrim⟩
      · -- the next burst
        let n := min cfg.burstSize (s₁.head j).length
        have hheadlen : (s₁.head j).length = left := by rw [hhead₁, hleft]
        have hn : 0 < n := by
          show 0 < min cfg.burstSize (s₁.head j).length
          omega
        have hdeq : cfg.ring.deq cfg.burstSize (s₁.head j).length n := by
          rw [hring]
          rfl
        have hworker₂ : (s₁.workerDequeue j n).worker j = { s₁.worker j with
            pc := .exec, mbufsIn := (s₁.head j).take n, i := 0, mbufsOut := [] } :=
          Function.update_self _ _ _
        have hsane₂ : ((s₁.workerDequeue j n).worker j).Sane := by
          rw [hworker₂]
          exact ⟨fun hp => absurd hp (by simp), fun _ => ⟨Nat.zero_le _, rfl, hnum₁⟩,
            fun hp => absurd hp (by simp)⟩
        have hhead₂ : (s₁.workerDequeue j n).head j = (s₁.head j).drop n :=
          Function.update_self _ _ _
        have htaken : ((s₁.head j).take n).length = n := by
          rw [List.length_take]
          exact min_eq_left (Nat.min_le_right _ _)
        obtain ⟨s₃, hrun₃, honly₃, hhead₃, htail₃, hready⟩ :=
          workerBatch cfg (by rw [hworker₂]) hsane₂
        rw [hworker₂] at hready
        have hnum₃ : (s₃.worker j).outNum = n := by
          rw [hready]
          exact htaken
        have htail₃' : (s₃.tail j).length = (s₁.tail j).length := by
          rw [htail₃]
          rfl
        have hhead₃' : (s₃.head j).length = left - n := by
          rw [hhead₃, hhead₂, List.length_drop, hheadlen]
        have hsane₃ : (s₃.worker j).Sane := by
          rw [hready]
          exact ⟨fun hp => absurd hp (by simp [Worker.ready]),
            fun hp => absurd hp (by simp [Worker.ready]), fun _ => Nat.zero_add _⟩
        obtain ⟨s', hrun', honly', hbrim⟩ := ih (left - n) (by omega)
          (by rw [hready]; rfl) hsane₃ (by rw [hnum₃]; exact Nat.min_le_left _ _)
          (by omega) (by omega) hhead₃'
        refine ⟨s', ?_, ?_, hbrim⟩
        · exact (hrun₁.trans (.head (.workerDequeue s₁ j n hpc₁ hdeq) hrun₃)).trans hrun'
        · exact ((honly₁.trans (onlyWorker_dequeue s₁ j n)).trans honly₃).trans honly'

end Fill

/-! ## §2. Two workers pause, and the head rings fill up. -/

/-- The round in which ring pair `j` is served has come so often in `i` rounds. -/
def turns (j : Fin W) (i : ℕ) : ℕ := Nat.count (fun n => n ≡ j.val [MOD W]) i

theorem turns_succ (j : Fin W) (i : ℕ) :
    turns j (i + 1) = turns j i + if i ≡ j.val [MOD W] then 1 else 0 :=
  Nat.count_succ _ _

theorem turns_eq (j : Fin W) (i : ℕ) :
    turns j i = i / W + if j.val < i % W then 1 else 0 := by
  unfold turns
  rw [Nat.count_modEq_card i (Nat.zero_lt_of_lt j.isLt) j.val, Nat.mod_eq_of_lt j.isLt]

/-- Worker `j` has taken the packet `p` and not processed it. -/
structure Holds (s : State W) (j : Fin W) (p : Mbuf) : Prop where
  pc : (s.worker j).pc = .exec
  sane : (s.worker j).Sane
  batch : (s.worker j).mbufsIn = [p]

/-- Behind `i` rounds the tail rings are empty, and the head rings hold all that was
dispatched but for a packet each of workers 0 and 1. -/
structure Filled (s : State W) (i : ℕ) : Prop where
  rounds : AfterRounds s i
  head : ∀ j, (s.head j).length + (if j.val < 2 then 1 else 0) = turns j i
  tail : ∀ j, s.tail j = []
  held : ∀ j, j.val = 1 → Holds s j 1

/-- What a worker does leaves main's rounds as they are. -/
theorem AfterRounds.of_worker {s s' : State W} {i : ℕ} {j : Fin W} (h : AfterRounds s i)
    (honly : OnlyWorker j s s') : AfterRounds s' i where
  pc := by
    rw [honly.main]
    exact h.pc
  ringIn := by
    rw [honly.main]
    exact h.ringIn
  ringOut := by
    rw [honly.main]
    exact h.ringOut
  received := by
    rw [honly.received]
    exact h.received
  sequenced := by
    rw [honly.sequenced]
    exact h.sequenced

/-- A round whose packet is taken by the worker and not processed. -/
theorem AfterRounds.pause (hring : cfg.ring = atomicMin cfg.ring.capacity)
    (hcap : 0 < cfg.ring.capacity) (hin : 0 < cfg.batchSizeIn) (hburst : 0 < cfg.burstSize)
    {s : State W} {i : ℕ} (h : AfterRounds s i) {j : Fin W} (hj : s.main.ringInIndex = j)
    (hhead : s.head j = []) (htail : s.tail j = []) (hpc : (s.worker j).pc = .dequeue)
    (hsane : (s.worker j).Sane) :
    ∃ s', Run cfg s s' ∧ AfterRounds s' (i + 1) ∧ s'.head = s.head ∧ s'.tail = s.tail
      ∧ Holds s' j i ∧ ∀ k, k ≠ j → s'.worker k = s.worker k := by
  subst hj
  have hprod : cfg.ring.Productive := by
    rw [hring]
    exact atomicMin_productive hcap
  obtain ⟨t, hrun, hrounds, hhead', htail', hworker', -⟩ :=
    h.lazy hprod hin (by rw [hhead]; exact hcap) htail
  have hone : t.head s.main.ringInIndex = [i] := by
    rw [hhead', Function.update_self, hhead]
    rfl
  have hdeq : cfg.ring.deq cfg.burstSize (t.head s.main.ringInIndex).length 1 := by
    rw [hring, hone]
    show 1 = min cfg.burstSize 1
    omega
  have hw : (t.workerDequeue s.main.ringInIndex 1).worker s.main.ringInIndex
      = { s.worker s.main.ringInIndex with
          pc := .exec, mbufsIn := [i], i := 0, mbufsOut := [] } := by
    show Function.update t.worker s.main.ringInIndex _ s.main.ringInIndex = _
    rw [Function.update_self, hone, hworker']
    rfl
  refine ⟨t.workerDequeue s.main.ringInIndex 1,
    .tail hrun (.workerDequeue t _ 1 (by rw [hworker']; exact hpc) hdeq),
    hrounds.of_worker (onlyWorker_dequeue t _ 1), ?_, htail', ⟨?_, ?_, ?_⟩, ?_⟩
  · show Function.update t.head s.main.ringInIndex ((t.head s.main.ringInIndex).drop 1) = s.head
    rw [hone, hhead', Function.update_idem]
    -- the head ring is as empty as it was
    show Function.update s.head s.main.ringInIndex [] = s.head
    rw [← hhead, Function.update_eq_self]
  · rw [hw]
  · rw [hw]
    exact ⟨fun hp => absurd hp (by simp), fun _ => ⟨Nat.zero_le _, rfl, hsane.dequeue hpc⟩,
      fun hp => absurd hp (by simp)⟩
  · rw [hw]
  · intro k hk
    show Function.update t.worker s.main.ringInIndex _ k = _
    rw [Function.update_of_ne hk, hworker']

/-- **A round** fills the head ring that is next, while it has room. -/
theorem Filled.next (hring : cfg.ring = atomicMin cfg.ring.capacity)
    (hcap : 0 < cfg.ring.capacity) (hin : 0 < cfg.batchSizeIn) (hW : 1 < W) {s : State W} {i : ℕ}
    (h : Filled s i) (hi : i < W * cfg.ring.capacity + 2) :
    ∃ s', Run cfg s s' ∧ Filled s' (i + 1) := by
  have hprod : cfg.ring.Productive := by
    rw [hring]
    exact atomicMin_productive hcap
  have hroom : (s.head s.main.ringInIndex).length < cfg.ring.capacity := by
    have hhead := h.head s.main.ringInIndex
    rw [turns_eq, h.rounds.ringIn, if_neg (Nat.lt_irrefl _)] at hhead
    have hdiv := Nat.div_add_mod i W
    by_cases hfirst : i % W < 2
    · -- one packet of this ring is with its worker
      rw [if_pos hfirst] at hhead
      have hlt : W * (i / W) < W * (cfg.ring.capacity + 1) := by
        rw [Nat.mul_succ]
        omega
      have hq := Nat.lt_of_mul_lt_mul_left hlt
      omega
    · rw [if_neg hfirst] at hhead
      have hlt : W * (i / W) < W * cfg.ring.capacity := by omega
      have hq := Nat.lt_of_mul_lt_mul_left hlt
      omega
  obtain ⟨s', hrun, hrounds, hhead, htail, hworker, -⟩ :=
    h.rounds.lazy hprod hin hroom (h.tail _)
  refine ⟨s', hrun, hrounds, ?_, ?_, ?_⟩
  · intro j
    rw [turns_succ, ← h.head j, hhead]
    by_cases hj : j = s.main.ringInIndex
    · have hmod : i ≡ j.val [MOD W] := by
        rw [hj, h.rounds.ringIn]
        exact (Nat.mod_modEq i W).symm
      rw [if_pos hmod, hj, Function.update_self, List.length_append]
      show (s.head s.main.ringInIndex).length + 1 + _ = _ + _ + 1
      omega
    · have hmod : ¬ i ≡ j.val [MOD W] := fun hmod => by
        refine hj (Fin.ext ?_)
        rw [h.rounds.ringIn, hmod, Nat.mod_eq_of_lt j.isLt]
      rw [if_neg hmod, Function.update_of_ne hj, Nat.add_zero]
  · intro j
    rw [htail]
    exact h.tail j
  · intro j hj
    obtain ⟨hpc, hsane, hbatch⟩ := h.held j hj
    exact ⟨by rw [hworker]; exact hpc, by rw [hworker]; exact hsane,
      by rw [hworker]; exact hbatch⟩

section Rounds

variable [NeZero W]

/-- **The first two rounds.** -/
theorem filled_two (hring : cfg.ring = atomicMin cfg.ring.capacity)
    (hcap : 0 < cfg.ring.capacity) (hin : 0 < cfg.batchSizeIn) (hburst : 0 < cfg.burstSize)
    (hW : 1 < W) : ∃ s : State W, Reachable cfg s ∧ Filled s 2 := by
  have hinit := AfterRounds.init W
  have hsane := (Flow.init W).worker
  obtain ⟨s, hrun, hone, hhead, htail, -, hworker⟩ :=
    hinit.pause hring hcap hin hburst (j := 0) rfl rfl rfl rfl (hsane 0)
  let j₁ : Fin W := ⟨1, hW⟩
  have hne : j₁ ≠ 0 := fun h => by
    have hval := congrArg Fin.val h
    exact absurd hval (by simp [j₁])
  have hidx : s.main.ringInIndex = j₁ := Fin.ext (hone.ringIn.trans (Nat.mod_eq_of_lt hW))
  obtain ⟨t, hrun', htwo, hhead', htail', hholds, -⟩ :=
    hone.pause hring hcap hin hburst hidx (by rw [hhead]; rfl) (by rw [htail]; rfl)
      (by rw [hworker j₁ hne]; rfl) (by rw [hworker j₁ hne]; exact hsane j₁)
  refine ⟨t, hrun.trans hrun', htwo, ?_, ?_, ?_⟩
  · intro j
    have hturns : turns j 2 = if j.val < 2 then 1 else 0 := by
      rw [turns_eq]
      rcases Nat.lt_or_ge 2 W with hlt | hge
      · rw [Nat.div_eq_of_lt hlt, Nat.mod_eq_of_lt hlt, Nat.zero_add]
      · obtain rfl : W = 2 := by omega
        have hj := j.isLt
        rw [if_pos hj]
        rfl
    rw [hhead', hhead, hturns]
    show 0 + _ = _
    rw [Nat.zero_add]
  · intro j
    rw [htail', htail]
    rfl
  · intro j hj
    obtain rfl : j = j₁ := Fin.ext hj
    exact hholds

/-- **The rounds go on** until head ring 1 is full. -/
theorem filled_all (hring : cfg.ring = atomicMin cfg.ring.capacity)
    (hcap : 0 < cfg.ring.capacity) (hin : 0 < cfg.batchSizeIn) (hburst : 0 < cfg.burstSize)
    (hW : 1 < W) (i : ℕ) (hi : i ≤ W * cfg.ring.capacity) :
    ∃ s : State W, Reachable cfg s ∧ Filled s (i + 2) := by
  induction i with
  | zero => exact filled_two hring hcap hin hburst hW
  | succ i ih =>
      obtain ⟨s, hreach, hfilled⟩ := ih (by omega)
      obtain ⟨s', hrun, hnext⟩ := hfilled.next hring hcap hin hW (by omega)
      exact ⟨s', hreach.trans hrun, hnext⟩

/-- **Worker 1 is stuck** behind its tail ring, main is at the top of its loop, and
tail ring 0 is empty. -/
theorem brimful_one (hring : cfg.ring = atomicMin cfg.ring.capacity)
    (hcap : 0 < cfg.ring.capacity) (hin : 0 < cfg.batchSizeIn) (hburst : 0 < cfg.burstSize)
    (hW : 1 < W) :
    ∃ (s : State W) (j : Fin W), Reachable cfg s ∧ s.main.pc = .receive ∧ s.tail 0 = []
      ∧ Brimful cfg s j := by
  obtain ⟨s, hreach, hfilled⟩ := filled_all hring hcap hin hburst hW _ (le_refl _)
  let j : Fin W := ⟨1, hW⟩
  have hj0 : (0 : Fin W) ≠ j := fun h => by
    have hval := congrArg Fin.val h
    exact absurd hval (by simp [j])
  obtain ⟨hpc, hsane, hbatch⟩ := hfilled.held j rfl
  -- head ring 1 is full
  have hhead : (s.head j).length = cfg.ring.capacity := by
    have hlen := hfilled.head j
    rw [turns_eq, if_pos (show j.val < 2 from Nat.one_lt_two)] at hlen
    have hdiv : (W * cfg.ring.capacity + 2) / W = cfg.ring.capacity + 2 / W :=
      Nat.mul_add_div (by omega) _ _
    have hmod : (W * cfg.ring.capacity + 2) % W = 2 % W := Nat.mul_add_mod _ _ _
    rw [hdiv, hmod] at hlen
    rcases Nat.lt_or_ge 2 W with hlt | hge
    · rw [Nat.div_eq_of_lt hlt, Nat.mod_eq_of_lt hlt,
        if_pos (show j.val < 2 from Nat.one_lt_two)] at hlen
      omega
    · obtain rfl : W = 2 := by omega
      rw [if_neg (by simp)] at hlen
      omega
  obtain ⟨t, hrun, honly, hheadt, htailt, hready⟩ := workerBatch cfg hpc hsane
  rw [hbatch] at hready
  have hnum : (t.worker j).outNum = 1 := by
    rw [hready]
    rfl
  have hsanet : (t.worker j).Sane := (Reachable.flow (hreach.trans hrun)).worker j
  have htail0 : t.tail j = [] := htailt.trans (hfilled.tail j)
  obtain ⟨u, hrun', honly', hbrim⟩ := fillTail hring hburst (by rw [hready]; rfl) hsanet
    (by rw [hnum]; exact hburst) (by rw [htail0]; exact Nat.zero_le _)
    (by rw [htail0, hnum, hheadt, hhead]; show _ < 0 + 1 + _; omega)
  have hboth := honly.trans honly'
  refine ⟨u, j, (hreach.trans hrun).trans hrun', ?_, ?_, hbrim⟩
  · rw [hboth.main]
    exact hfilled.rounds.pc
  · rw [(hboth.others 0 hj0).2.2]
    exact hfilled.tail 0

end Rounds

/-! ## §3. The end of the run. -/

/-- The system in the loop of `run_dpdk`, no worker between test and dequeue. -/
def System.of (s : State W) : System W where
  st := s
  forceQuit := false
  running := true
  phase := .run
  admitted := fun _ => false
  exited := fun _ => false

section Ends

variable {maxDuration : ℕ}

/-- A step of the data plane is one of the system, or two with the worker's test. -/
theorem Step.system {s s' : State W} (h : Step cfg s s') :
    Relation.ReflTransGen (SystemStep cfg maxDuration) (System.of s) (System.of s') := by
  cases h with
  | receive burst hpc hlen hnodup hfresh =>
      exact .single (.receive (System.of s) burst rfl rfl hpc hlen hnodup hfresh)
  | inner hpc => exact .single (.inner (System.of s) rfl hpc)
  | enqueue k hpc hk => exact .single (.enqueue (System.of s) k rfl hpc hk)
  | aggregate k hpc hk => exact .single (.aggregate (System.of s) k rfl hpc hk)
  | workerDequeue j k hpc hk =>
      have htest : SystemStep cfg maxDuration (System.of s) ((System.of s).test j) :=
        .test (System.of s) j hpc rfl rfl
      have hadm : ((System.of s).test j).admitted = Function.update (fun _ => false) j true := rfl
      have hdeq : SystemStep cfg maxDuration ((System.of s).test j) { (System.of s).test j with
          st := s.workerDequeue j k
          admitted := Function.update ((System.of s).test j).admitted j false } :=
        .workerDequeue ((System.of s).test j) j k hpc (by rw [hadm, Function.update_self]) hk
      rw [hadm, Function.update_idem, Function.update_eq_self_iff.mpr rfl] at hdeq
      exact .tail (.single htest) hdeq
  | workerExec j hpc => exact .single (.workerExec (System.of s) j hpc)
  | workerEnqueue j k hpc hk => exact .single (.workerEnqueue (System.of s) j k hpc hk)

theorem Reachable.system [NeZero W] {s : State W} (h : Reachable cfg s) :
    SystemReachable cfg maxDuration (System.of s) := by
  induction h with
  | refl => exact .single (.start (System.init W) rfl)
  | tail _ hstep ih => exact ih.trans hstep.system

/-- **The user ends the run.**  Main finds tail ring 0 empty, and waits for a worker
that is stuck. -/
theorem Brimful.hung [NeZero W] (maxDuration : ℕ)
    (hring : cfg.ring = atomicMin cfg.ring.capacity) {s : State W} {j : Fin W}
    (hreach : Reachable cfg s) (hpc : s.main.pc = .receive) (hempty : s.tail 0 = [])
    (h : Brimful cfg s j) :
    ∃ x : System W, SystemReachable cfg maxDuration x ∧ HungAt cfg x j := by
  let x₁ : System W := { System.of s with forceQuit := true }
  let x₂ : System W := { x₁ with phase := .left }
  let x₃ : System W := { x₂ with running := false, phase := .flush 0 }
  have hdeq : cfg.ring.deq cfg.batchSizeIn (x₃.st.tail 0).length 0 := by
    rw [hring]
    show 0 = min cfg.batchSizeIn (s.tail 0).length
    rw [hempty]
    exact (Nat.min_zero _).symm
  have hx : SystemReachable cfg maxDuration (x₃.poll 0 0) :=
    hreach.system
      |>.tail (.signal (System.of s))
      |>.tail (.leave x₁ rfl hpc (Or.inl rfl))
      |>.tail (.stop x₂ 0 rfl rfl)
      |>.tail (.poll x₃ 0 0 rfl hdeq)
  refine ⟨x₃.poll 0 0, hx, rfl, h.pc, h.left, ?_, rfl⟩
  show (Function.update s.tail 0 ((s.tail 0).drop 0) j).length = _
  rw [List.drop_zero, Function.update_eq_self]
  exact h.full

end Ends

/-- **A shutdown can hang with two workers or more, and only then.**  The rings are
those of the code, the batches not empty, and a worker's burst fits into a ring. -/
theorem shutdown_never_hangs_iff [NeZero W] {maxDuration : ℕ}
    (hring : cfg.ring = atomicMin (ringSize - 1)) (hin : 0 < cfg.batchSizeIn)
    (hburst : 0 < cfg.burstSize) (hfits : cfg.burstSize ≤ ringSize - 1) :
    (∀ x : System W, SystemReachable cfg maxDuration x → ∀ j, ¬ HungAt cfg x j) ↔ W = 1 := by
  have hcap : cfg.ring.capacity = ringSize - 1 := by rw [hring]; rfl
  have hring' : cfg.ring = atomicMin cfg.ring.capacity := by rw [hcap, hring]
  constructor
  · intro hnever
    by_contra hne
    have hW : 1 < W := by
      have hpos := NeZero.pos W
      omega
    obtain ⟨s, j, hreach, hpc, hempty, hbrim⟩ :=
      brimful_one (W := W) hring' (by rw [hcap]; decide) hin hburst hW
    obtain ⟨x, hx, hung⟩ := hbrim.hung maxDuration hring' hreach hpc hempty
    exact hnever x hx j hung
  · intro hW x hx j
    exact hx.not_hung hW hin hring' (by rw [hcap]; exact hfits) j

/-- Batches and bursts of 64, as configured by default, and rings of the code. -/
def defaultBatches : Config where
  batchSizeIn := 64
  burstSize := 64
  ring := atomicMin (ringSize - 1)

theorem oneWorker_never_hangs_iff :
    (∀ x : System 1, SystemReachable defaultBatches 0 x → ∀ j, ¬ HungAt defaultBatches x j)
      ↔ 1 = 1 :=
  shutdown_never_hangs_iff rfl (by decide) (by decide) (by decide)

/-- With two workers the program may wait forever. -/
theorem twoWorkers_hang :
    ∃ (x : System 2) (j : Fin 2), SystemReachable defaultBatches 0 x
      ∧ ∀ y, Relation.ReflTransGen (SystemStep defaultBatches 0) x y →
          HungAt defaultBatches y j := by
  have hring : defaultBatches.ring = atomicMin defaultBatches.ring.capacity := rfl
  obtain ⟨s, j, hreach, hpc, hempty, hbrim⟩ :=
    brimful_one (W := 2) hring (by decide) (by decide) (by decide) (by decide)
  obtain ⟨x, hx, hung⟩ := hbrim.hung 0 rfl hreach hpc hempty
  exact ⟨x, j, hx, fun y hrun => hung.forever rfl hrun⟩

end Meili.DataPlane
