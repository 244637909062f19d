/-
  Meili.Network.Settling — a pipeline settles, or it deadlocks.

  When nothing more arrives, main and the instances bring what is on its way to main's hands, one
  move after the other, unless main comes to wait for room in a ring that is clogged.

    • `Deadlocked.run` — a deadlock is for ever;
    • `settles_or_deadlocks` — from every reachable state a run without a receive leads to a
      state where everything is freed, or to a deadlock.

  Idle polls of main lower `batch_cnt_wait_on_enq`, which overflows in the end, so the counter
  must have room for the polls that this takes (`Room`).
-/
import Meili.Network.Advance

namespace Meili.Network

open Meili.Lib Meili.DataPlane Meili.Runtime

/-! ## §1. Deadlocks. -/

/-- Main waits for room in a head ring that is clogged. -/
structure Deadlocked (cfg : Config) (pl : Pipeline) (s : State) : Prop where
  pc : s.main.pc = .enqueue
  offers : s.main.totEnq < s.main.batchCntEnq
  clogged : ∃ r, pl.topology.ringIn s.main.ringInIndex = some r ∧ Clogged cfg pl s r

section Deadlocked

variable {fails : ℕ → Bool} {cfg : Config} {pl : Pipeline} {s s' : State}

/-- A ring has one consumer. -/
theorem Pipeline.Started.consumer_eq (hpl : pl.Started fails) {r : RingId} {p q : Party}
    (hp : some r ∈ pl.topology.inSlots pl.nbPlStages pl.nbInstPerPlStage p)
    (hq : some r ∈ pl.topology.inSlots pl.nbPlStages pl.nbInstPerPlStage q) : p = q := by
  obtain ⟨x, hx, rfl, hxr⟩ := hpl.mem_inSlots.mp hp
  obtain ⟨y, hy, rfl, hyr⟩ := hpl.mem_inSlots.mp hq
  rw [(List.idxOf_inj hx).mp (hxr.trans hyr.symm)]

theorem length_le_setRing (s : State) (r : RingId) (mbufs : List Mbuf) (x : RingId) :
    (s.ring x).length ≤ ((s.setRing r (s.ring r ++ mbufs)).ring x).length := by
  by_cases hx : x = r
  · rw [hx, setRing_ring_self, List.length_append]
    omega
  · rw [setRing_ring_of_ne s _ hx]

/-- While main and the consumer of a ring do not dequeue, the ring only grows. -/
theorem Step.ring_le (hpl : pl.Started fails) (hsane : Sane pl s) (hstep : Step cfg pl s s')
    (hmain : s.main.pc = .enqueue) {r : RingId} {p : Party}
    (hconsumer : some r ∈ pl.topology.inSlots pl.nbPlStages pl.nbInstPerPlStage p)
    (hidle : ∀ i j, p = .inst i j → (s.stages i j).pc ≠ .dequeue) :
    (s.ring r).length ≤ (s'.ring r).length := by
  cases hstep with
  | receive burst hpc _ _ _ => exact absurd (hmain.symm.trans hpc) (by decide)
  | inner hpc => exact absurd (hmain.symm.trans hpc) (by decide)
  | enqueue r' k _ _ =>
      unfold State.enqueue
      split
      · exact length_le_setRing s r' _ r
      · exact le_refl _
  | aggregate r' k hpc _ _ => exact absurd (hmain.symm.trans hpc) (by decide)
  | workerDequeue i j r' k hruns hpc hslot _ =>
      have hr : r ≠ r' := by
        rintro rfl
        exact hidle i j (hpl.consumer_eq hconsumer (mem_inSlots hsane hruns hslot)) hpc
      exact (congrArg List.length (setRing_ring_of_ne s _ hr)).ge
  | workerExec i j _ _ =>
      unfold State.workerExec
      dsimp only
      split
      · exact le_refl _
      · exact le_refl _
  | workerEnqueue i j r' k _ _ _ =>
      unfold State.workerEnqueue
      dsimp only
      split
      · exact length_le_setRing s r' _ r
      · exact le_refl _

theorem Waits.pc_ne {i j : ℕ} {r : RingId} (h : Waits cfg pl s i j r) :
    (s.stages i j).pc ≠ .dequeue :=
  fun hpc => h.done (Worker.processed_dequeue hpc)

/-- What an instance waits with does not change when it is not its turn. -/
theorem Waits.of_stages {i j : ℕ} {r : RingId} (h : Waits cfg pl s i j r)
    (hstages : s'.stages i j = s.stages i j) (hfull : cfg.ring.capacity ≤ (s'.ring r).length) :
    Waits cfg pl s' i j r := by
  obtain ⟨htodo, hdone, hslot, -⟩ := h
  unfold State.contents at htodo hdone
  unfold Pipeline.slotOut at hslot
  dsimp only at htodo hdone
  rw [← hstages] at htodo hdone hslot
  exact ⟨htodo, hdone, hslot, hfull⟩

/-- **Who waits for room in a full ring goes on waiting.** -/
theorem Waits.step (hreach : Reachable cfg pl s) (hpl : pl.Started fails) {i j : ℕ} {r : RingId}
    (h : Waits cfg pl s i j r) (hstep : Step cfg pl s s')
    (hfull : cfg.ring.capacity ≤ (s'.ring r).length) : Waits cfg pl s' i j r := by
  have hsane := hreach.sane hpl.ringed
  cases hstep with
  | receive burst _ _ _ _ =>
      refine h.of_stages ?_ hfull
      unfold State.receive
      split
      · split
        · rfl
        · rfl
      · rfl
  | inner _ =>
      refine h.of_stages ?_ hfull
      unfold State.inner
      split
      · rfl
      · rfl
  | enqueue r' k _ _ =>
      refine h.of_stages ?_ hfull
      unfold State.enqueue
      split
      · rfl
      · rfl
  | aggregate r' k _ _ _ => exact h.of_stages rfl hfull
  | workerDequeue i' j' r' k hruns hpc _ _ =>
      have hne : ¬(i = i' ∧ j = j') := by
        rintro ⟨rfl, rfl⟩
        exact h.pc_ne hpc
      exact h.of_stages (setStage_stages_of_ne _ _ hne) hfull
  | workerExec i' j' hruns hpc =>
      by_cases hsame : i = i' ∧ j = j'
      · obtain ⟨rfl, rfl⟩ := hsame
        cases hget : (s.stages i j).mbufsIn[(s.stages i j).i]? with
        | some mbuf =>
            -- there would be a packet to process
            have hfront := take_todo_exec hpc hget
            rw [h.todo] at hfront
            cases hfront
        | none =>
            have hcontents := contents_workerExec hsane hpc hget
            refine ⟨hcontents ▸ h.todo, hcontents ▸ h.done, ?_, hfull⟩
            unfold Pipeline.slotOut
            rw [workerExec_none hget, setStage_stages_self]
            exact h.slot
      · refine h.of_stages ?_ hfull
        unfold State.workerExec
        dsimp only
        split
        · exact setStage_stages_of_ne _ _ hsame
        · exact setStage_stages_of_ne _ _ hsame
  | workerEnqueue i' j' r' k hruns hpc hk =>
      by_cases hsame : i = i' ∧ j = j'
      · obtain ⟨rfl, rfl⟩ := hsame
        by_cases hpos : 0 < (s.stages i j).outNum
        · -- the ring takes nothing
          have hslot := (hk hpos).1
          rw [h.slot] at hslot
          obtain rfl := Option.some.inj hslot
          have hroom := cfg.ring.enq_room (hk hpos).2 ((hreach.bounds hpl.ringed).ring r)
          have hzero : k = 0 := by
            have hle := h.full
            omega
          subst hzero
          have hmoves : Moves s (s.workerEnqueue (pl.nbRingOut i j) i j r 0) (.done i j)
              (.ring r) 0 := moves_workerEnqueue hpc hpos r 0
          refine ⟨?_, ?_, ?_, hfull⟩
          · rw [hmoves.other _ (by simp) (by simp)]
            exact h.todo
          · rw [hmoves.source]
            exact h.done
          · have hslot := h.slot
            unfold Pipeline.slotOut State.workerEnqueue at *
            dsimp only
            rw [if_pos hpos, setStage_stages_self]
            exact hslot
        · -- there would be nothing in hand
          have hsum := (hsane.worker i j).enqueue hpc
          refine absurd ?_ h.done
          rw [contents_done_enqueue hpc]
          exact List.drop_of_length_le (by omega)
      · refine h.of_stages ?_ hfull
        unfold State.workerEnqueue
        dsimp only
        split
        · exact setStage_stages_of_ne _ _ hsame
        · exact setStage_stages_of_ne _ _ hsame

/-- **While main enqueues, a clogged ring stays clogged.** -/
theorem Clogged.step (hpl : pl.Started fails) (hreach : Reachable cfg pl s)
    (hmain : s.main.pc = .enqueue) (hstep : Step cfg pl s s') {r : RingId}
    (h : Clogged cfg pl s r) : Clogged cfg pl s' r := by
  have hsane := hreach.sane hpl.ringed
  induction h with
  | tail hslot hfull =>
      refine .tail hslot (hfull.trans (hstep.ring_le hpl hsane hmain hslot ?_))
      intro i j heq
      cases heq
  | inst hruns hslot hfull hwait _ ih =>
      refine .inst hruns hslot (hfull.trans (hstep.ring_le hpl hsane hmain hslot ?_))
        (hwait.step hreach hpl hstep ih.full) ih
      intro i j heq
      cases heq
      exact hwait.pc_ne

/-- A step in a deadlock. -/
theorem Deadlocked.step (hpl : pl.Started fails) (hreach : Reachable cfg pl s)
    (h : Deadlocked cfg pl s) (hstep : Step cfg pl s s') :
    Deadlocked cfg pl s' ∧ s'.received = s.received ∧ s'.freed = s.freed := by
  obtain ⟨r, hr, hclogged⟩ := h.clogged
  have hclogged' := hclogged.step hpl hreach h.pc hstep
  have hinst : s'.main = s.main → s'.received = s.received → s'.freed = s.freed →
      Deadlocked cfg pl s' ∧ s'.received = s.received ∧ s'.freed = s.freed := by
    intro hmain hreceived hfreed
    refine ⟨⟨hmain ▸ h.pc, hmain ▸ h.offers, r, ?_, hclogged'⟩, hreceived, hfreed⟩
    rw [hmain]
    exact hr
  cases hstep with
  | receive burst hpc _ _ _ => exact absurd (h.pc.symm.trans hpc) (by decide)
  | inner hpc => exact absurd (h.pc.symm.trans hpc) (by decide)
  | enqueue r' k hpc hk =>
      -- the ring takes nothing
      obtain ⟨hslot, henq⟩ := hk h.offers
      rw [hr] at hslot
      obtain rfl := Option.some.inj hslot
      have hroom := cfg.ring.enq_room henq ((hreach.bounds hpl.ringed).ring r)
      have hzero : k = 0 := by
        have hle := hclogged.full
        omega
      subst hzero
      unfold State.enqueue at hclogged' ⊢
      rw [if_pos h.offers] at hclogged' ⊢
      exact ⟨⟨h.pc, h.offers, r, hr, hclogged'⟩, rfl, rfl⟩
  | aggregate r' k hpc _ _ => exact absurd (h.pc.symm.trans hpc) (by decide)
  | workerDequeue i j r' k _ _ _ _ => exact hinst rfl rfl rfl
  | workerExec i j _ _ =>
      refine hinst ?_ ?_ ?_
      all_goals
        unfold State.workerExec
        dsimp only
        split
        · rfl
        · rfl
  | workerEnqueue i j r' k _ _ _ =>
      refine hinst ?_ ?_ ?_
      all_goals
        unfold State.workerEnqueue
        dsimp only
        split
        · rfl
        · rfl

/-- **A deadlock is for ever**: nothing is received or freed any more. -/
theorem Deadlocked.run (hpl : pl.Started fails) (hreach : Reachable cfg pl s)
    (h : Deadlocked cfg pl s) (hrun : Relation.ReflTransGen (Step cfg pl) s s') :
    Deadlocked cfg pl s' ∧ s'.received = s.received ∧ s'.freed = s.freed := by
  refine ReflTransGen.invariant_reachable
    (fun x => Deadlocked cfg pl x ∧ x.received = s.received ∧ x.freed = s.freed) ⟨h, rfl, rfl⟩
    (fun x y hx hinv hstep => ?_) hrun
  obtain ⟨hdead, hreceived, hfreed⟩ := hinv.1.step hpl (hreach.trans hx) hstep
  exact ⟨hdead, hreceived.trans hinv.2.1, hfreed.trans hinv.2.2⟩

end Deadlocked

/-! ## §2. Idle polls. -/

/-- How many packets main has received and not freed. -/
def State.left (s : State) : ℕ := s.received.length - s.freed.length

/-- Main's counters have room for `n` idle polls. -/
structure Slack (s : State) (n : ℕ) : Prop where
  running : s.main.pc ≠ .overflow
  idle : intMin + defaultEthBatchSize + 1 + defaultEthBatchSize * n
    ≤ min s.main.batchCntWaitOnEnq 0

/-- Main is not at `aggregate_packets`, and has room for the polls that it takes to collect what
is left: at most one round of the tail rings for each packet. -/
structure Room (pl : Pipeline) (s : State) : Prop where
  pc : s.main.pc ≠ .aggregate
  slack : Slack s (pl.nbLastStage * s.left)

section Slack

variable {fails : ℕ → Bool} {cfg : Config} {pl : Pipeline} {s s' : State} {n n' : ℕ}

theorem Slack.mono (h : Slack s n') (hle : n ≤ n') : Slack s n where
  running := h.running
  idle := by
    have hsize : defaultEthBatchSize = 64 := rfl
    have hidle := h.idle
    rw [hsize] at hidle ⊢
    omega

theorem Slack.congr (h : Slack s n) (hpc : s'.main.pc ≠ .overflow)
    (hwait : s'.main.batchCntWaitOnEnq = s.main.batchCntWaitOnEnq) : Slack s' n :=
  ⟨hpc, by rw [hwait]; exact h.idle⟩

/-- `aggregate_packets`, with room for the idle poll that it may be. -/
theorem Slack.aggregate (h : Slack s n') (hsane : Sane pl s) (hbounds : Bounds cfg s)
    (hpc : s.main.pc = .aggregate) (hle : n ≤ n') (hidle : s.main.batchCntWaitOnEnq ≤ 0 → n < n')
    (r : RingId) (k : ℕ) :
    (s.aggregate pl.nbLastStage r k).main.pc = .inner
      ∧ Slack (s.aggregate pl.nbLastStage r k) n
      ∧ (s.main.batchCntWaitOnEnq ≤ 0 →
          (s.aggregate pl.nbLastStage r k).main.batchCntWaitOnEnq ≤ 0) := by
  have hsum := hsane.main.sum
  have hin := hbounds.mbufIn
  have hslice := hbounds.slice
  have hwhole := hbounds.whole hpc
  have hroom := h.idle
  have hsize : defaultEthBatchSize = 64 := rfl
  have hmin : intMin = -2147483648 := rfl
  have hmax : intMax = 2147483647 := rfl
  rw [hsize] at hin hslice hroom
  -- the counters behind the poll
  have hwait : (s.aggregate pl.nbLastStage r k).main.batchCntWaitOnEnq
      = s.main.batchCntWaitOnEnq - s.main.batchCntEnq := rfl
  have hlow : intMin + 64 + 1 + 64 * n
      ≤ min (s.main.batchCntWaitOnEnq - s.main.batchCntEnq) 0 := by
    by_cases hpos : 0 < s.main.batchCntWaitOnEnq
    · have hwhole := hwhole hpos
      omega
    · have hidle := hidle (not_lt.mp hpos)
      omega
  have hinner : (s.aggregate pl.nbLastStage r k).main.pc = .inner := by
    refine if_neg ?_
    show ¬ (s.main.batchCntWaitOnEnq - s.main.batchCntEnq < intMin
      ∨ intMax < ((s.main.batchCntTotEnq + s.main.batchCntEnq : ℕ) : ℤ))
    push_cast
    omega
  refine ⟨hinner, ⟨by rw [hinner]; decide, ?_⟩, fun hneg => ?_⟩
  · rw [hwait, hsize]
    exact hlow
  · rw [hwait]
    omega

end Slack

/-! ## §3. Somewhere a packet moves. -/

/-- Without a receive a packet moves, or everything is freed, or the pipeline deadlocks. -/
def Proceeds (cfg : Config) (pl : Pipeline) (s : State) : Prop :=
  ∃ s', Settles cfg pl s s'
    ∧ (Room pl s' ∧ Nearer pl s s' ∨ Deadlocked cfg pl s' ∨ s'.freed.length = s'.received.length)

section Proceeds

variable {fails : ℕ → Bool} {cfg : Config} {pl : Pipeline} {s s' : State}

theorem Proceeds.of_level (hrun : Settles cfg pl s s') (hlevel : Level pl s s')
    (h : Proceeds cfg pl s') : Proceeds cfg pl s := by
  obtain ⟨s'', hrun', h⟩ := h
  refine ⟨s'', hrun.trans hrun', ?_⟩
  rcases h with ⟨hroom, hnearer⟩ | h
  · exact Or.inl ⟨hroom, .of_level hlevel hnearer⟩
  · exact Or.inr h

theorem Proceeds.of_advances (hroom : Room pl s) (h : Advances cfg pl s) :
    Proceeds cfg pl s := by
  obtain ⟨s', hrun, hmain, hfreed, hnearer⟩ := h
  have hleft : s'.left = s.left := by
    unfold State.left
    rw [hrun.received, hfreed]
  refine ⟨s', hrun, Or.inl ⟨⟨hmain ▸ hroom.pc, ?_⟩, hnearer⟩⟩
  rw [hleft]
  exact hroom.slack.congr (hmain ▸ hroom.slack.running) (by rw [hmain])

/-- Something is left exactly when it is somewhere. -/
theorem Reachable.left_iff (hreach : Reachable cfg pl s) (hpl : pl.Started fails) :
    s.freed.length < s.received.length ↔ ∃ x, x ≠ .freed ∧ s.contents x ≠ [] := by
  obtain ⟨t, ht⟩ := hreach.tracked hpl.ringed
  have hiff := ht.reachable.length_lt_iff .freed
  rw [ht.contents, ht.arrived] at hiff
  exact hiff

/-- A packet has come to its place along an edge. -/
theorem Reachable.exists_edge (hreach : Reachable cfg pl s) (hpl : pl.Started fails) {x : Place}
    (hx : x ≠ .pending) (hne : s.contents x ≠ []) : ∃ a, Edge pl a x := by
  obtain ⟨t, ht⟩ := hreach.tracked hpl.ringed
  obtain ⟨p, hp⟩ := List.exists_mem_of_ne_nil _ hne
  rcases (ht.walk hp).1.cases with ⟨-, hpending⟩ | ⟨front, a, -, -, hedge, -⟩
  · exact absurd hpending hx
  · exact ⟨a, hedge⟩

/-- **A packet behind main** moves, or some packet waits on a tail ring. -/
theorem advances_or_tail (hpl : pl.Started fails) (hcfg : Moving cfg)
    (hreach : Reachable cfg pl s) {x : Place} (hpending : x ≠ .pending) (hfreed : x ≠ .freed)
    (hne : s.contents x ≠ []) :
    Advances cfg pl s ∨ ∃ r,
      some r ∈ pl.topology.inSlots pl.nbPlStages pl.nbInstPerPlStage .main ∧ s.ring r ≠ [] := by
  have hinst : ∀ i j, pl.Runs i j → (s.contents (.todo i j) ≠ [] ∨ s.contents (.done i j) ≠ []
      ∨ ∃ r, some r ∈ pl.topology.inSlots pl.nbPlStages pl.nbInstPerPlStage (.inst i j)
          ∧ s.ring r ≠ []) →
      Advances cfg pl s ∨ ∃ r,
        some r ∈ pl.topology.inSlots pl.nbPlStages pl.nbInstPerPlStage .main
          ∧ s.ring r ≠ [] := by
    intro i j hruns hwork
    rcases advances_or_waits hpl hcfg hreach hruns hwork with hgo | ⟨r, hwait⟩
    · exact Or.inl hgo
    · obtain ⟨y, hy, -, rfl⟩ := hpl.mem_outSlots.mp
        (mem_outSlots (hreach.sane hpl.ringed) hruns hwait.slot)
      rcases advances_or_clogged hpl hcfg hreach pl.nbPlStages hy (Nat.le_add_left _ _)
        hwait.full with hgo | hclogged
      · exact Or.inl hgo
      · obtain ⟨r', hr', hfull⟩ := hclogged.exists_tail
        exact Or.inr ⟨r', hr',
          List.ne_nil_of_length_pos (Nat.lt_of_lt_of_le hcfg.ring.capacity_pos hfull)⟩
  obtain ⟨a, hedge⟩ := hreach.exists_edge hpl hpending hne
  have hring : ∀ r p, some r ∈ pl.topology.outSlots pl.nbPlStages pl.nbInstPerPlStage p →
      s.ring r ≠ [] → Advances cfg pl s ∨ ∃ r,
        some r ∈ pl.topology.inSlots pl.nbPlStages pl.nbInstPerPlStage .main
          ∧ s.ring r ≠ [] := by
    intro r p hslot hr
    obtain ⟨y, hy, -, rfl⟩ := hpl.mem_outSlots.mp hslot
    cases hconsumer : y.consumer with
    | main => exact Or.inr ⟨_, hpl.mem_inSlots.mpr ⟨y, hy, hconsumer, rfl⟩, hr⟩
    | inst i j =>
        obtain ⟨hi, hj⟩ := Site.consumer_inRange hy hconsumer
        exact hinst i j (hpl.runs hi hj)
          (Or.inr (Or.inr ⟨_, hpl.mem_inSlots.mpr ⟨y, hy, hconsumer, rfl⟩, hr⟩))
  cases hedge with
  | enqueue hslot => exact hring _ _ hslot hne
  | workerDequeue hruns _ => exact hinst _ _ hruns (Or.inl hne)
  | workerExec hruns => exact hinst _ _ hruns (Or.inr (Or.inl hne))
  | workerEnqueue _ hslot => exact hring _ _ hslot hne
  | aggregate _ => exact absurd rfl hfreed

end Proceeds

/-! ## §4. Main. -/

section Main

variable {fails : ℕ → Bool} {cfg : Config} {pl : Pipeline} {s : State} {n n' : ℕ}

theorem nextRing_val {nb : ℕ} (hpos : 0 < nb) (hle : nb ≤ nbMaxRing) (index : Fin nbMaxRing) :
    (nextRing nb index : ℕ) = (index + 1) % nb := by
  have hlt := Nat.mod_lt ((index : ℕ) + 1) hpos
  show (index + 1) % nb % nbMaxRing = _
  exact Nat.mod_eq_of_lt (by omega)

/-- `aggregate_packets`: a packet is freed, or the tail ring in use is empty. -/
theorem poll_tail (hpl : pl.Started fails) (hcfg : Moving cfg) (hreach : Reachable cfg pl s)
    (hpc : s.main.pc = .aggregate) (hslack : Slack s n') (hle : n ≤ n')
    (hidle : s.main.batchCntWaitOnEnq ≤ 0 → n < n') {r : RingId}
    (hslot : pl.topology.ringOut s.main.ringOutIndex = some r) :
    ∃ s', Settles cfg pl s s' ∧ s'.main.pc = .inner ∧ Slack s' n
      ∧ (s.main.batchCntWaitOnEnq ≤ 0 → s'.main.batchCntWaitOnEnq ≤ 0)
      ∧ (Nearer pl s s' ∧ s'.left < s.left
        ∨ s.ring r = [] ∧ Level pl s s' ∧ s'.freed = s.freed
          ∧ (s'.main.ringOutIndex : ℕ) = (s.main.ringOutIndex + 1) % pl.nbLastStage) := by
  have hsane := hreach.sane hpl.ringed
  by_cases hempty : s.ring r = []
  · obtain ⟨hinner, hslack', hwait⟩ :=
      hslack.aggregate hsane (hreach.bounds hpl.ringed) hpc hle hidle r 0
    have hdeq : cfg.ring.deq maxPktsBurst (s.ring r).length 0 := by
      rw [hempty]
      exact hcfg.ring.deq_empty _
    refine ⟨_, .single ⟨.aggregate s r 0 hpc hslot hdeq, rfl⟩, hinner, hslack', hwait,
      Or.inr ⟨hempty, fun t ht => ?_, ?_, ?_⟩⟩
    · have hmove := ht.aggregate hsane hpc hslot 0
      rwa [Places.move_zero] at hmove
    · show s.freed ++ (s.ring r).take 0 = s.freed
      rw [List.take_zero, List.append_nil]
    · exact nextRing_val hpl.ringed.last.1 hpl.ringed.last.2 _
  · obtain ⟨k, hpos, hk⟩ :=
      hcfg.ring.deq_pos (n := maxPktsBurst) (by decide) (List.length_pos_iff.mpr hempty)
    obtain ⟨hinner, hslack', hwait⟩ :=
      hslack.aggregate hsane (hreach.bounds hpl.ringed) hpc hle hidle r k
    have hleft := (hreach.left_iff hpl).mpr ⟨.ring r, by simp, hempty⟩
    refine ⟨_, .single ⟨.aggregate s r k hpc hslot hk, rfl⟩, hinner, hslack', hwait,
      Or.inl ⟨.of_move hpl (.aggregate (List.mem_map.mpr ⟨_, List.mem_range.mpr hsane.ringOut,
        hslot⟩)) hpos hempty fun t ht => ht.aggregate hsane hpc hslot k, ?_⟩⟩
    have htake := (cfg.ring.deq_le hk).2
    show s.received.length - (s.freed ++ (s.ring r).take k).length
      < s.received.length - s.freed.length
    rw [List.length_append, List.length_take]
    omega

/-- The end of a burst. -/
theorem inner_receive (hneg : s.main.batchCntWaitOnEnq ≤ 0) :
    s.inner cfg = { s with main := { s.main with pc := .receive } } := by
  unfold State.inner
  rw [if_neg (not_lt.mpr hneg)]

/-- An idle receive with something in flight, and the poll behind it. -/
theorem idle_poll (hpl : pl.Started fails) (hcfg : Moving cfg) (hreach : Reachable cfg pl s)
    (hpc : s.main.pc = .receive) (hslack : Slack s (n + 1))
    (hleft : s.freed.length < s.received.length) {r : RingId}
    (hslot : pl.topology.ringOut s.main.ringOutIndex = some r) :
    ∃ s', Settles cfg pl s s' ∧ s'.main.pc = .inner ∧ Slack s' n
      ∧ s'.main.batchCntWaitOnEnq ≤ 0
      ∧ (Nearer pl s s' ∧ s'.left < s.left
        ∨ s.ring r = [] ∧ Level pl s s' ∧ s'.freed = s.freed
          ∧ (s'.main.ringOutIndex : ℕ) = (s.main.ringOutIndex + 1) % pl.nbLastStage) := by
  have hsane := hreach.sane hpl.ringed
  have hneg := hsane.main.receive hpc
  have hwait : s.main.batchCntWaitOnDeq > 0 := by
    have hcounted := (hreach.bounds hpl.ringed).counted
    rw [hsane.main.none_pending hpc, Main.offered_eq_zero (by rw [hpc]; decide),
      List.length_nil] at hcounted
    omega
  have hself : s.receive [] = { s with main := { s.main with pc := .aggregate } } := by
    unfold State.receive
    rw [if_pos List.length_nil, if_pos hwait]
  have hstep : Step cfg pl s (s.receive []) :=
    .receive s [] hpc (Nat.zero_le _) List.nodup_nil fun p hp => absurd hp List.not_mem_nil
  have hlevel : Level pl s (s.receive []) := fun t ht =>
    ht.stay (contents_receive_nil hsane hpc rfl) (receive_nil rfl s).1 (receive_nil rfl s).2
  generalize s.receive [] = s₁ at hself hstep hlevel
  subst hself
  obtain ⟨s', hrun, hinner, hslack', hwait', hmove⟩ :=
    poll_tail (n := n) hpl hcfg (hreach.tail hstep) rfl (hslack.congr (by simp) rfl)
      (Nat.le_succ n) (fun _ => Nat.lt_succ_self n) hslot
  refine ⟨s', .head ⟨hstep, rfl⟩ hrun, hinner, hslack', hwait' hneg, ?_⟩
  rcases hmove with ⟨hnearer, hlt⟩ | ⟨hempty, hlevel', hfreed, hindex⟩
  · exact Or.inl ⟨.of_level hlevel hnearer, hlt⟩
  · exact Or.inr ⟨hempty, hlevel.trans hlevel', hfreed, hindex⟩

/-- **Main comes to a tail ring that holds something**, after `d` idle polls at most. -/
theorem proceeds_collect (hpl : pl.Started fails) (hcfg : Moving cfg) (d : ℕ)
    (hreach : Reachable cfg pl s) (hpc : s.main.pc = .receive)
    (hslack : Slack s (d + 1 + pl.nbLastStage * (s.left - 1))) {r : RingId}
    (hslot : pl.topology.ringOut ((s.main.ringOutIndex + d) % pl.nbLastStage) = some r)
    (hne : s.ring r ≠ []) : Proceeds cfg pl s := by
  induction d generalizing s with
  | zero =>
      have hsane := hreach.sane hpl.ringed
      have hleft := (hreach.left_iff hpl).mpr ⟨.ring r, by simp, hne⟩
      rw [Nat.add_zero, Nat.mod_eq_of_lt hsane.ringOut] at hslot
      obtain ⟨s', hrun, hinner, hslack', -, hmove⟩ :=
        idle_poll (n := pl.nbLastStage * (s.left - 1)) hpl hcfg hreach hpc
          (hslack.mono (by omega)) hleft hslot
      rcases hmove with ⟨hnearer, hlt⟩ | ⟨hempty, -⟩
      · refine ⟨s', hrun, Or.inl ⟨⟨by rw [hinner]; decide, hslack'.mono ?_⟩, hnearer⟩⟩
        exact Nat.mul_le_mul_left _ (by omega)
      · exact absurd hempty hne
  | succ d ih =>
      have hsane := hreach.sane hpl.ringed
      have hleft := (hreach.left_iff hpl).mpr ⟨.ring r, by simp, hne⟩
      obtain ⟨r', hr'⟩ := hsane.inInUse_some (p := .main) hpl trivial
      obtain ⟨s', hrun, hinner, hslack', hneg, hmove⟩ :=
        idle_poll (n := d + 1 + pl.nbLastStage * (s.left - 1)) hpl hcfg hreach hpc
          (hslack.mono (by omega)) hleft hr'
      rcases hmove with ⟨hnearer, hlt⟩ | ⟨-, hlevel, hfreed, hindex⟩
      · refine ⟨s', hrun, Or.inl ⟨⟨by rw [hinner]; decide, hslack'.mono ?_⟩, hnearer⟩⟩
        refine (Nat.mul_le_mul_left _ ?_).trans (Nat.le_add_left _ _)
        omega
      · -- nothing there: back to the receive, with the next tail ring
        have hreach' := hreach.settles hrun
        have hself : s'.inner cfg = _ := inner_receive hneg
        have hstep : Step cfg pl s' (s'.inner cfg) := .inner s' hinner
        have hlevel' : Level pl s' (s'.inner cfg) := fun t ht => ht.inner hinner
        have hring : s'.ring r = s.ring r := by
          obtain ⟨t, ht⟩ := hreach.tracked hpl.ringed
          exact congrFun (hlevel.contents ht) (.ring r)
        generalize s'.inner cfg = s'' at hself hstep hlevel'
        subst hself
        refine .of_level (hrun.tail ⟨hstep, rfl⟩) (hlevel.trans hlevel')
          (ih (hreach'.tail hstep) rfl ?_ ?_ ?_)
        · have hsame : State.left { s' with main := { s'.main with pc := .receive } } = s.left := by
            show s'.received.length - s'.freed.length = _
            rw [hrun.received, hfreed]
            rfl
          rw [hsame]
          exact hslack'.congr (by simp) rfl
        · show pl.topology.ringOut (((s'.main.ringOutIndex : ℕ) + d) % pl.nbLastStage) = some r
          rw [hindex, Nat.mod_add_mod, Nat.add_assoc, Nat.add_comm 1 d]
          exact hslot
        · exact hring ▸ hne

theorem proceeds_collect_of_mem (hpl : pl.Started fails) (hcfg : Moving cfg)
    (hreach : Reachable cfg pl s) (hpc : s.main.pc = .receive) (hroom : Room pl s) {r : RingId}
    (hmem : some r ∈ pl.topology.inSlots pl.nbPlStages pl.nbInstPerPlStage .main)
    (hne : s.ring r ≠ []) : Proceeds cfg pl s := by
  obtain ⟨x, hx, hslot⟩ := List.mem_map.mp hmem
  have hx : x < pl.nbLastStage := List.mem_range.mp hx
  have hindex := (hreach.sane hpl.ringed).ringOut
  have hleft := (hreach.left_iff hpl).mpr ⟨.ring r, by simp, hne⟩
  have hsplit : pl.nbLastStage * s.left = pl.nbLastStage + pl.nbLastStage * (s.left - 1) := by
    have hpos : s.left = s.left - 1 + 1 := by
      unfold State.left
      omega
    rw [hpos, Nat.mul_add, Nat.mul_one, Nat.add_comm]
    rfl
  by_cases hge : (s.main.ringOutIndex : ℕ) ≤ x
  · refine proceeds_collect hpl hcfg (x - s.main.ringOutIndex) hreach hpc
      (hroom.slack.mono (by omega)) ?_ hne
    rw [Nat.add_sub_cancel' hge, Nat.mod_eq_of_lt hx]
    exact hslot
  · refine proceeds_collect hpl hcfg (x + pl.nbLastStage - s.main.ringOutIndex) hreach hpc
      (hroom.slack.mono (by omega)) ?_ hne
    rw [Nat.add_sub_cancel' (by omega), Nat.add_mod_right, Nat.mod_eq_of_lt hx]
    exact hslot

/-- The ring that main enqueues to lies in front of the first stage. -/
theorem mem_outSlots_main (hsane : Sane pl s) {r : RingId}
    (hslot : pl.topology.ringIn s.main.ringInIndex = some r) :
    some r ∈ pl.topology.outSlots pl.nbPlStages pl.nbInstPerPlStage .main :=
  List.mem_map.mpr ⟨_, List.mem_range.mpr hsane.ringIn, hslot⟩

/-- At the top of the outer loop. -/
theorem proceeds_receive (hpl : pl.Started fails) (hcfg : Moving cfg)
    (hreach : Reachable cfg pl s) (hpc : s.main.pc = .receive) (hroom : Room pl s) :
    Proceeds cfg pl s := by
  by_cases hleft : s.freed.length < s.received.length
  · obtain ⟨x, hfreed, hne⟩ := (hreach.left_iff hpl).mp hleft
    have hpending : x ≠ .pending := by
      rintro rfl
      exact hne ((hreach.sane hpl.ringed).main.none_pending hpc)
    rcases advances_or_tail hpl hcfg hreach hpending hfreed hne with hgo | ⟨r, hmem, hring⟩
    · exact .of_advances hroom hgo
    · exact proceeds_collect_of_mem hpl hcfg hreach hpc hroom hmem hring
  · -- nothing is left
    have hle := (hreach.bounds hpl.ringed).counted
    obtain ⟨t, ht⟩ := hreach.tracked hpl.ringed
    have hsub : (t.contents .freed).length ≤ t.arrived.length :=
      (ht.reachable.sound.nodup .freed).length_le_of_subset
        fun x hx => ht.reachable.sound.mem_arrived hx
    rw [ht.contents, ht.arrived] at hsub
    exact ⟨s, .refl, Or.inr (Or.inr (le_antisymm hsub (not_lt.mp hleft)))⟩

/-- In the enqueue loop, with packets to enqueue: here main can get stuck. -/
theorem proceeds_enqueue_lt (hpl : pl.Started fails) (hcfg : Moving cfg)
    (hreach : Reachable cfg pl s) (hpc : s.main.pc = .enqueue)
    (hlt : s.main.totEnq < s.main.batchCntEnq) (hroom : Room pl s) : Proceeds cfg pl s := by
  have hsane := hreach.sane hpl.ringed
  obtain ⟨r, hr⟩ := hsane.outInUse_some (p := .main) hpl trivial
  have hmem := mem_outSlots_main hsane hr
  by_cases hfull : (s.ring r).length < cfg.ring.capacity
  · have hsum := (hsane.main.enqueue hpc).2
    have hoffer := hsane.main.offered_le hpc
    obtain ⟨k, hpos, hk⟩ := hcfg.ring.enq_pos (n := s.main.toEnq) (by omega) hfull
    have hne : s.contents .pending ≠ [] := by
      refine List.ne_nil_of_length_pos ?_
      show 0 < s.main.pending.length
      rw [Main.pending_enqueue hpc, List.length_drop]
      omega
    have hstep : Step cfg pl s (s.enqueue pl.nbFirstStage r k) :=
      .enqueue s r k hpc fun _ => ⟨hr, hk⟩
    have hnearer : Nearer pl s (s.enqueue pl.nbFirstStage r k) :=
      .of_move hpl (.enqueue hmem) hpos hne fun t ht => ht.enqueue_lt hsane hpc hlt hr k
    have hreceived := (enqueue_received s pl.nbFirstStage r k).1
    refine ⟨_, .single ⟨hstep, hreceived⟩, Or.inl ⟨?_, hnearer⟩⟩
    unfold State.enqueue
    rw [if_pos hlt]
    exact ⟨hroom.pc, hroom.slack.congr hroom.slack.running rfl⟩
  · obtain ⟨x, hx, -, rfl⟩ := hpl.mem_outSlots.mp hmem
    rcases advances_or_clogged hpl hcfg hreach pl.nbPlStages hx (Nat.le_add_left _ _)
      (not_lt.mp hfull) with hgo | hclogged
    · exact .of_advances hroom hgo
    · exact ⟨s, .refl, Or.inr (Or.inl ⟨hpc, hlt, _, hr, hclogged⟩)⟩

/-- At the test of the inner loop. -/
theorem proceeds_inner (hpl : pl.Started fails) (hcfg : Moving cfg) (hreach : Reachable cfg pl s)
    (hpc : s.main.pc = .inner) (hroom : Room pl s) : Proceeds cfg pl s := by
  have hstep : Step cfg pl s (s.inner cfg) := .inner s hpc
  have hlevel : Level pl s (s.inner cfg) := fun t ht => ht.inner hpc
  have hreach' : Reachable cfg pl (s.inner cfg) := hreach.tail hstep
  refine .of_level (.single ⟨hstep, (inner_received s cfg).1⟩) hlevel ?_
  by_cases hpos : 0 < s.main.batchCntWaitOnEnq
  · -- a slice of one packet or more
    have hslice := hcfg.slice
    have hself : s.inner cfg = _ := if_pos hpos
    refine proceeds_enqueue_lt hpl hcfg hreach' ?_ ?_ ?_
    · rw [hself]
    · rw [hself]
      show 0 < min cfg.batchSizeIn s.main.batchCntWaitOnEnq.toNat
      omega
    · rw [hself]
      exact ⟨by simp, hroom.slack.congr (by simp) rfl⟩
  · have hself : s.inner cfg = _ := inner_receive (not_lt.mp hpos)
    refine proceeds_receive hpl hcfg hreach' ?_ ?_
    · rw [hself]
    · rw [hself]
      exact ⟨by simp, hroom.slack.congr (by simp) rfl⟩

/-- At `aggregate_packets`. -/
theorem proceeds_aggregate (hpl : pl.Started fails) (hcfg : Moving cfg)
    (hreach : Reachable cfg pl s) (hpc : s.main.pc = .aggregate) (hslack : Slack s n)
    (hle : pl.nbLastStage * s.left ≤ n)
    (hidle : s.main.batchCntWaitOnEnq ≤ 0 → pl.nbLastStage * s.left < n) :
    Proceeds cfg pl s := by
  obtain ⟨r, hr⟩ := (hreach.sane hpl.ringed).inInUse_some (p := .main) hpl trivial
  obtain ⟨s', hrun, hinner, hslack', -, hmove⟩ :=
    poll_tail hpl hcfg hreach hpc hslack hle hidle hr
  have hpc' : s'.main.pc ≠ .aggregate := by
    rw [hinner]
    decide
  rcases hmove with ⟨hnearer, hlt⟩ | ⟨-, hlevel, hfreed, -⟩
  · exact ⟨s', hrun, Or.inl ⟨⟨hpc', hslack'.mono (Nat.mul_le_mul_left _ hlt.le)⟩, hnearer⟩⟩
  · have hleft : s'.left = s.left := by
      unfold State.left
      rw [hrun.received, hfreed]
    exact .of_level hrun hlevel
      (proceeds_inner hpl hcfg (hreach.settles hrun) hinner ⟨hpc', hleft ▸ hslack'⟩)

/-- In the enqueue loop. -/
theorem proceeds_enqueue (hpl : pl.Started fails) (hcfg : Moving cfg)
    (hreach : Reachable cfg pl s) (hpc : s.main.pc = .enqueue) (hroom : Room pl s) :
    Proceeds cfg pl s := by
  by_cases hlt : s.main.totEnq < s.main.batchCntEnq
  · exact proceeds_enqueue_lt hpl hcfg hreach hpc hlt hroom
  · have hsane := hreach.sane hpl.ringed
    have hstep : Step cfg pl s (s.enqueue pl.nbFirstStage 0 0) :=
      .enqueue s 0 0 hpc fun h => absurd h hlt
    have hlevel : Level pl s (s.enqueue pl.nbFirstStage 0 0) :=
      fun t ht => ht.enqueue_ge hsane hpc hlt 0 0
    have hself : s.enqueue pl.nbFirstStage 0 0 = _ := if_neg hlt
    -- this poll is not an idle one
    have hpos := (hreach.bounds hpl.ringed).offering hpc
    refine .of_level (.single ⟨hstep, (enqueue_received s _ 0 0).1⟩) hlevel
      (proceeds_aggregate (n := pl.nbLastStage * s.left) hpl hcfg (hreach.tail hstep) ?_ ?_ ?_ ?_)
    · rw [hself]
    · rw [hself]
      exact hroom.slack.congr (by simp) rfl
    · rw [hself]
      exact le_refl _
    · rw [hself]
      exact fun hneg => absurd hneg (not_le.mpr hpos)

/-- **Everywhere a packet moves**, unless nothing is left or main is stuck. -/
theorem proceeds (hpl : pl.Started fails) (hcfg : Moving cfg) (hreach : Reachable cfg pl s)
    (hroom : Room pl s) : Proceeds cfg pl s := by
  cases hpc : s.main.pc with
  | receive => exact proceeds_receive hpl hcfg hreach hpc hroom
  | inner => exact proceeds_inner hpl hcfg hreach hpc hroom
  | enqueue => exact proceeds_enqueue hpl hcfg hreach hpc hroom
  | aggregate => exact absurd hpc hroom.pc
  | overflow => exact absurd hpc hroom.slack.running

/-! ## §5. All the way. -/

/-- One packet after the other, by induction on how far they have to go. -/
theorem settles_of_room (hpl : pl.Started fails) (hcfg : Moving cfg) {w : ℕ}
    (hreach : Reachable cfg pl s) (hroom : Room pl s) {t : Places Place Mbuf}
    (ht : Tracked pl s t) (hw : t.weight pl.rank = w) :
    ∃ s', Settles cfg pl s s'
      ∧ (Deadlocked cfg pl s' ∨ s'.freed.length = s'.received.length) := by
  induction w using Nat.strong_induction_on generalizing s t with
  | _ w ih =>
      obtain ⟨s', hrun, hroom' | hdone⟩ := proceeds hpl hcfg hreach hroom
      · obtain ⟨t', ht', hlt⟩ := hroom'.2 t ht
        obtain ⟨s'', hrun', hdone⟩ :=
          ih _ (hw ▸ hlt) (hreach.settles hrun) hroom'.1 ht' rfl
        exact ⟨s'', hrun.trans hrun', hdone⟩
      · exact ⟨s', hrun, hdone⟩

/-- From `aggregate_packets` on, too. -/
theorem exists_settled (hpl : pl.Started fails) (hcfg : Moving cfg) (hreach : Reachable cfg pl s)
    (hslack : Slack s (pl.nbLastStage * s.left + 1)) :
    ∃ s', Settles cfg pl s s'
      ∧ (Deadlocked cfg pl s' ∨ s'.freed.length = s'.received.length) := by
  obtain ⟨t, ht⟩ := hreach.tracked hpl.ringed
  by_cases hpc : s.main.pc = .aggregate
  · obtain ⟨s', hrun, hroom | hdone⟩ := proceeds_aggregate hpl hcfg hreach hpc hslack
      (Nat.le_succ _) fun _ => Nat.lt_succ_self _
    · obtain ⟨t', ht', -⟩ := hroom.2 t ht
      obtain ⟨s'', hrun', hdone⟩ :=
        settles_of_room hpl hcfg (hreach.settles hrun) hroom.1 ht' rfl
      exact ⟨s'', hrun.trans hrun', hdone⟩
    · exact ⟨s', hrun, hdone⟩
  · exact settles_of_room hpl hcfg hreach ⟨hpc, hslack.mono (Nat.le_succ _)⟩ ht rfl

/-- When as many packets are freed as were received, they are the same, and all places behind
the device are empty. -/
theorem Reachable.all_freed (hreach : Reachable cfg pl s) (hpl : pl.Started fails)
    (heq : s.freed.length = s.received.length) :
    (∀ p ∈ s.received, p ∈ s.freed) ∧ ∀ x, x ≠ .freed → s.contents x = [] := by
  have hnone : ∀ x, x ≠ .freed → s.contents x = [] := by
    intro x hx
    by_contra hne
    exact (hreach.left_iff hpl).mpr ⟨x, hx, hne⟩ |>.ne heq
  refine ⟨fun p hp => ?_, hnone⟩
  obtain ⟨t, ht⟩ := hreach.tracked hpl.ringed
  obtain ⟨x, hx, -⟩ := ht.reachable.existsUnique (ht.arrived ▸ hp)
  rw [ht.contents] at hx
  by_cases hfreed : x = .freed
  · rw [hfreed] at hx
    exact hx
  · rw [hnone x hfreed] at hx
    cases hx

/-- **A pipeline settles, or it deadlocks.**  From every reachable state of a started pipeline in
which main's counters have room for the idle polls that this can take, there is a run that
receives nothing more and ends with all packets freed and everything empty, or with main waiting
for room in a head ring that is full, as are the rings behind it all the way to a tail ring of
main; and from such a state on nothing is ever received or freed again. -/
theorem settles_or_deadlocks (hpl : pl.Started fails) (hcfg : Moving cfg)
    (hreach : Reachable cfg pl s) (hslack : Slack s (pl.nbLastStage * s.left + 1)) :
    ∃ s', Settles cfg pl s s'
      ∧ ((∀ p ∈ s.received, p ∈ s'.freed) ∧ (∀ x, x ≠ .freed → s'.contents x = [])
        ∨ Deadlocked cfg pl s' ∧ ∀ s'', Relation.ReflTransGen (Step cfg pl) s' s'' →
            Deadlocked cfg pl s'' ∧ s''.received = s'.received ∧ s''.freed = s'.freed) := by
  obtain ⟨s', hrun, hdead | heq⟩ := exists_settled hpl hcfg hreach hslack
  · have hreach' := hreach.settles hrun
    exact ⟨s', hrun, Or.inr ⟨hdead, fun s'' hrun' => hdead.run hpl hreach' hrun'⟩⟩
  · obtain ⟨hfreed, hempty⟩ := (hreach.settles hrun).all_freed hpl heq
    exact ⟨s', hrun, Or.inl ⟨fun p hp => hfreed p (hrun.received ▸ hp), hempty⟩⟩

end Main

theorem slices_moving : Moving slices where
  ring := anyPrefix_productive (by decide)
  burst := by decide
  slice := by decide

/-- Packet 8 still waits in front of the second stage. -/
theorem twoStages_settles :
    twoStages.freed = [7] ∧ ∃ s', Settles slices oneByTwo twoStages s'
      ∧ ((∀ p ∈ twoStages.received, p ∈ s'.freed) ∧ (∀ x, x ≠ .freed → s'.contents x = [])
        ∨ Deadlocked slices oneByTwo s'
          ∧ ∀ s'', Relation.ReflTransGen (Step slices oneByTwo) s' s'' →
            Deadlocked slices oneByTwo s'' ∧ s''.received = s'.received ∧ s''.freed = s'.freed) :=
  ⟨rfl, settles_or_deadlocks oneByTwo_started slices_moving twoStages_reachable
    ⟨by decide, by decide⟩⟩

end Meili.Network
