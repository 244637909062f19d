/-
  Meili.DataPlane.Receive — main's counters of the packets of a receive.

  A receive sets `batch_cnt_wait_on_enq` and `batch_cnt_tot_enq`, and the inner loop moves
  them slice by slice.  An idle poll that finds packets in the pipeline jumps to
  `aggregate_packets` and falls through the same updates, with the slice of an earlier
  receive in `batch_cnt_enq`.

    • While main polls in vain only with nothing to wait for, the two counters divide the
      packets of the receive (`OnTrack`).
    • One poll in vain with packets in the pipeline leaves them out of range at the next
      test of the inner loop (`idlePoll_drifts`): they still add up to an earlier receive
      (`Carried`).
-/
import Meili.DataPlane.Shutdown

namespace Meili.DataPlane

open Meili.Lib

variable {W : ℕ}

/-! ## §1. Runs with their receives. -/

/-- A system, and the number of packets of the current receive. -/
structure Received (W : ℕ) where
  sys : System W
  current : ℕ

namespace Received

/-- The local variables of main. -/
def main (x : Received W) : Main W := x.sys.st.main

def init (W : ℕ) [NeZero W] : Received W where
  sys := System.init W
  current := 0

/-- `rte_eth_rx_burst` hands out `burst`. -/
def receive (x : Received W) (burst : List Mbuf) : Received W where
  sys := { x.sys with st := x.sys.st.receive burst }
  current := burst.length

/-- The burst dequeue at `aggregate_packets` takes `k` entries. -/
def aggregate (x : Received W) (k : ℕ) : Received W :=
  { x with sys := { x.sys with st := x.sys.st.aggregate k } }

end Received

/-- One step of the system, with its receives; `mayPoll` says whether main may poll in vain
while it waits for packets of the pipeline. -/
inductive ReceivedStep (cfg : Config) (maxDuration : ℕ) (mayPoll : Bool) :
    Received W → Received W → Prop
  | receive (x : Received W) (burst : List Mbuf) :
      x.sys.phase = .run → x.sys.forceQuit = false → x.main.pc = .receive →
      burst.length ≤ defaultEthBatchSize → burst.Nodup → (∀ p ∈ burst, p ∉ x.sys.st.received) →
      (burst.length = 0 → x.main.batchCntWaitOnDeq > 0 → mayPoll = true) →
      ReceivedStep cfg maxDuration mayPoll x (x.receive burst)
  /-- Any step that is no receive. -/
  | other (x : Received W) (y : System W) :
      SystemStep cfg maxDuration x.sys y → (x.main.pc = .receive → y.st.main = x.main) →
      ReceivedStep cfg maxDuration mayPoll x { x with sys := y }

/-- `x` occurs in some interleaving. -/
def ReceivedReachable [NeZero W] (cfg : Config) (maxDuration : ℕ) (mayPoll : Bool)
    (x : Received W) : Prop :=
  Relation.ReflTransGen (ReceivedStep cfg maxDuration mayPoll) (Received.init W) x

/-- When the condition of the inner loop is evaluated, the counters divide the packets of the
current receive; and no counter has overflowed. -/
structure CountersInRange (x : Received W) : Prop where
  wait : x.main.pc = .inner → 0 ≤ x.main.batchCntWaitOnEnq
  sum : x.main.pc = .inner → x.main.batchCntTotEnq + x.main.batchCntWaitOnEnq = (x.current : ℤ)
  no_overflow : x.main.pc ≠ .overflow

/-- The steps with receives are the steps of the system. -/
theorem ReceivedStep.system {cfg : Config} {maxDuration : ℕ} {mayPoll : Bool} {x y : Received W}
    (h : ReceivedStep cfg maxDuration mayPoll x y) : SystemStep cfg maxDuration x.sys y.sys := by
  cases h with
  | receive burst hphase hquit hpc hlen hnodup hfresh _ =>
      exact .receive x.sys burst hphase hquit hpc hlen hnodup hfresh
  | other y hstep _ => exact hstep

/-! ## §2. What a step does to main. -/

/-- A step that is no receive: one of main behind the receive, or one that leaves main
alone. -/
inductive MainMove (cfg : Config) : State W → State W → Prop
  | same {s s' : State W} : s'.main = s.main → MainMove cfg s s'
  | inner {s : State W} : s.main.pc = .inner → MainMove cfg s (s.inner cfg)
  | quitInner {s : State W} : s.main.pc = .inner → MainMove cfg s s.quitInner
  | enqueue {s : State W} (k : ℕ) : s.main.pc = .enqueue → MainMove cfg s (s.enqueue k)
  | quitEnqueue {s : State W} : s.main.pc = .enqueue → MainMove cfg s s.quitEnqueue
  | aggregate {s : State W} (k : ℕ) : s.main.pc = .aggregate → MainMove cfg s (s.aggregate k)

section Moves

variable {cfg : Config} {maxDuration : ℕ} {mayPoll : Bool}

theorem MainMove.main_eq {s s' : State W} (h : MainMove cfg s s') (hpc : s.main.pc = .receive) :
    s'.main = s.main := by
  cases h with
  | same heq => exact heq
  | inner hpc' => exact absurd (hpc.symm.trans hpc') (by decide)
  | quitInner hpc' => exact absurd (hpc.symm.trans hpc') (by decide)
  | enqueue k hpc' => exact absurd (hpc.symm.trans hpc') (by decide)
  | quitEnqueue hpc' => exact absurd (hpc.symm.trans hpc') (by decide)
  | aggregate k hpc' => exact absurd (hpc.symm.trans hpc') (by decide)

theorem SystemStep.main_move {x y : System W} (h : SystemStep cfg maxDuration x y) :
    (∃ burst : List Mbuf, x.phase = .run ∧ x.forceQuit = false ∧ x.st.main.pc = .receive
      ∧ burst.length ≤ defaultEthBatchSize ∧ burst.Nodup ∧ (∀ p ∈ burst, p ∉ x.st.received)
      ∧ y = { x with st := x.st.receive burst })
    ∨ MainMove cfg x.st y.st := by
  cases h with
  | receive burst hphase hquit hpc hlen hnodup hfresh =>
      exact Or.inl ⟨burst, hphase, hquit, hpc, hlen, hnodup, hfresh, rfl⟩
  | inner _ hpc =>
      refine Or.inr ?_
      dsimp only
      split
      · exact .quitInner hpc
      · exact .inner hpc
  | enqueue k _ hpc _ =>
      refine Or.inr ?_
      dsimp only
      split
      · exact .quitEnqueue hpc
      · exact .enqueue k hpc
  | aggregate k _ hpc _ => exact Or.inr (.aggregate k hpc)
  | test j _ _ _ =>
      refine Or.inr (.same ?_)
      unfold System.test
      split <;> rfl
  | workerDequeue j k _ _ _ => exact Or.inr (.same (sameMain_workerDequeue x.st j k).main)
  | workerExec j _ => exact Or.inr (.same (sameMain_workerExec x.st j).main)
  | workerEnqueue j k _ _ => exact Or.inr (.same (sameMain_workerEnqueue x.st j k).main)
  | signal => exact Or.inr (.same rfl)
  | start _ => exact Or.inr (.same rfl)
  | fail _ => exact Or.inr (.same rfl)
  | leave _ _ _ => exact Or.inr (.same rfl)
  | stop _ _ _ => exact Or.inr (.same rfl)
  | poll _ _ _ _ => exact Or.inr (.same rfl)
  | join _ _ => exact Or.inr (.same rfl)

/-- **Every run of the system** is a run with its receives. -/
theorem SystemStep.received {x y : System W} (h : SystemStep cfg maxDuration x y)
    (current : ℕ) :
    ∃ current', ReceivedStep cfg maxDuration true ⟨x, current⟩ ⟨y, current'⟩ := by
  rcases h.main_move with ⟨burst, hphase, hquit, hpc, hlen, hnodup, hfresh, rfl⟩ | hmove
  · exact ⟨burst.length,
      .receive ⟨x, current⟩ burst hphase hquit hpc hlen hnodup hfresh fun _ _ => rfl⟩
  · exact ⟨current, .other ⟨x, current⟩ y h hmove.main_eq⟩

/-- A step with receives, by what it does to main. -/
theorem ReceivedStep.move {x y : Received W} (h : ReceivedStep cfg maxDuration mayPoll x y) :
    (∃ burst : List Mbuf, x.main.pc = .receive ∧ burst.length ≤ defaultEthBatchSize
      ∧ (burst.length = 0 → x.main.batchCntWaitOnDeq > 0 → mayPoll = true)
      ∧ y = x.receive burst)
    ∨ (MainMove cfg x.sys.st y.sys.st ∧ y.current = x.current) := by
  cases h with
  | receive burst _ _ hpc hlen _ _ hpoll => exact Or.inl ⟨burst, hpc, hlen, hpoll, rfl⟩
  | other y hstep hsame =>
      refine Or.inr ⟨?_, rfl⟩
      rcases hstep.main_move with ⟨burst, _, _, hpc, _, _, _, rfl⟩ | hmove
      · exact .same (hsame hpc)
      · exact hmove

end Moves

/-! ## §3. Runs in which main does not poll in vain. -/

/-- The slice of `mbuf_in` that is on its way. -/
def Main.slice (m : Main W) : ℕ :=
  match m.pc with
  | .enqueue => m.batchCntEnq
  | .aggregate => m.batchCntEnq
  | _ => 0

/-- Behind a receive, the counters divide its packets, and the slice on its way is counted
as waiting. -/
structure OnTrack (current : ℕ) (m : Main W) : Prop where
  sum : m.pc ≠ .receive → m.batchCntTotEnq + m.batchCntWaitOnEnq = (current : ℤ)
  wait : m.pc ≠ .receive → m.slice ≤ m.batchCntWaitOnEnq
  no_overflow : m.pc ≠ .overflow

section OnTrack

variable {cfg : Config} {current : ℕ}

/-- `finish_pipeline_batch` moves a slice from one counter to the other. -/
theorem OnTrack.finish {m : Main W} (hcurrent : current ≤ defaultEthBatchSize)
    (hsum : m.batchCntTotEnq + m.batchCntWaitOnEnq = (current : ℤ))
    (hwait : (m.batchCntEnq : ℤ) ≤ m.batchCntWaitOnEnq) : OnTrack current m.finish := by
  have hsmall : (current : ℤ) ≤ 64 := by exact_mod_cast hcurrent
  have hpc : m.finish.pc = .inner := by
    refine if_neg ?_
    unfold intMin intMax
    push_cast
    omega
  refine ⟨fun _ => ?_, fun _ => ?_, by rw [hpc]; decide⟩
  · show ((m.batchCntTotEnq + m.batchCntEnq : ℕ) : ℤ) + (m.batchCntWaitOnEnq - m.batchCntEnq) = _
    push_cast
    omega
  · unfold Main.slice
    rw [hpc]
    show ((0 : ℕ) : ℤ) ≤ m.batchCntWaitOnEnq - m.batchCntEnq
    omega

theorem OnTrack.move {s s' : State W} (hcurrent : current ≤ defaultEthBatchSize)
    (h : OnTrack current s.main) (hmove : MainMove cfg s s') : OnTrack current s'.main := by
  cases hmove with
  | same heq =>
      rw [heq]
      exact h
  | inner hpc =>
      have hsum := h.sum (by rw [hpc]; decide)
      unfold State.inner
      split
      · -- the next slice
        refine ⟨fun _ => hsum, fun _ => ?_, by simp⟩
        show ((min cfg.batchSizeIn s.main.batchCntWaitOnEnq.toNat : ℕ) : ℤ) ≤ _
        show _ ≤ s.main.batchCntWaitOnEnq
        omega
      · exact ⟨fun hne => absurd rfl hne, fun hne => absurd rfl hne, by simp⟩
  | quitInner hpc =>
      exact ⟨fun hne => absurd rfl hne, fun hne => absurd rfl hne, by simp [State.quitInner]⟩
  | enqueue k hpc =>
      have hsum := h.sum (by rw [hpc]; decide)
      have hwait := h.wait (by rw [hpc]; decide)
      unfold Main.slice at hwait
      rw [hpc] at hwait
      unfold State.enqueue
      split
      · refine ⟨fun _ => hsum, fun _ => ?_, ?_⟩
        · show ((Main.slice _ : ℕ) : ℤ) ≤ s.main.batchCntWaitOnEnq
          unfold Main.slice
          dsimp only
          rw [hpc]
          exact hwait
        · show s.main.pc ≠ .overflow
          rw [hpc]
          decide
      · exact ⟨fun _ => hsum, fun _ => hwait, by simp⟩
  | quitEnqueue hpc =>
      have hsum := h.sum (by rw [hpc]; decide)
      have hwait := h.wait (by rw [hpc]; decide)
      unfold Main.slice at hwait
      rw [hpc] at hwait
      exact ⟨fun _ => hsum, fun _ => hwait, by simp [State.quitEnqueue]⟩
  | aggregate k hpc =>
      have hsum := h.sum (by rw [hpc]; decide)
      have hwait := h.wait (by rw [hpc]; decide)
      unfold Main.slice at hwait
      rw [hpc] at hwait
      exact OnTrack.finish hcurrent hsum hwait

/-- **A receive that hands out packets**, or one with nothing to wait for. -/
theorem OnTrack.receive {s : State W} (h : OnTrack current s.main) (hpc : s.main.pc = .receive)
    {burst : List Mbuf} (hpoll : burst.length = 0 → ¬ s.main.batchCntWaitOnDeq > 0) :
    OnTrack burst.length (s.receive burst).main := by
  unfold State.receive
  split
  next hzero =>
    rw [if_neg (hpoll hzero)]
    exact ⟨fun hne => absurd hpc hne, fun hne => absurd hpc hne, h.no_overflow⟩
  next hsome =>
    refine ⟨fun _ => ?_, fun _ => ?_, by simp⟩
    · show ((0 : ℕ) : ℤ) + burst.length = burst.length
      omega
    · show ((0 : ℕ) : ℤ) ≤ burst.length
      omega

theorem OnTrack.inRange {x : Received W} (h : OnTrack x.current x.main) : CountersInRange x := by
  refine ⟨fun hpc => ?_, fun hpc => h.sum (by rw [hpc]; decide), h.no_overflow⟩
  have hwait := h.wait (by rw [hpc]; decide)
  unfold Main.slice at hwait
  rw [hpc] at hwait
  exact hwait

end OnTrack

/-- The counters after every step of a run without polls in vain. -/
theorem ReceivedReachable.onTrack [NeZero W] {cfg : Config} {maxDuration : ℕ} {x : Received W}
    (h : ReceivedReachable cfg maxDuration false x) :
    x.current ≤ defaultEthBatchSize ∧ OnTrack x.current x.main := by
  refine ReflTransGen.invariant
    (fun x : Received W => x.current ≤ defaultEthBatchSize ∧ OnTrack x.current x.main) ?_ ?_ h
  · exact ⟨Nat.zero_le _, fun hne => absurd rfl hne, fun hne => absurd rfl hne,
      fun hpc => absurd (show MainPc.receive = .overflow from hpc) (by decide)⟩
  · rintro x y ⟨hcurrent, htrack⟩ hstep
    rcases hstep.move with ⟨burst, hpc, hlen, hpoll, rfl⟩ | ⟨hmove, heq⟩
    · refine ⟨hlen, htrack.receive hpc fun hzero hwait => ?_⟩
      exact absurd (hpoll hzero hwait) (by decide)
    · rw [heq]
      exact ⟨hcurrent, htrack.move hcurrent hmove⟩

/-! ## §4. Polls in vain. -/

/-- In every run the counters add up to the packets of the last receive that was not
empty. -/
structure Carried (m : Main W) : Prop where
  sum : m.batchCntTotEnq + m.batchCntWaitOnEnq = (m.mbufIn.length : ℤ)
  /-- Before the first packet there is nothing to wait for. -/
  fresh : m.mbufIn = [] → m.pc = .receive ∧ m.batchCntWaitOnDeq ≤ 0

section Carried

variable {cfg : Config}

theorem Carried.move {s s' : State W} (h : Carried s.main) (hmove : MainMove cfg s s') :
    Carried s'.main := by
  -- before the first packet main does not get behind the receive
  have hfresh : ∀ {pc : MainPc}, s.main.pc = pc → pc ≠ .receive → s.main.mbufIn ≠ [] := by
    intro pc hpc hne hnil
    exact hne (hpc.symm.trans (h.fresh hnil).1)
  cases hmove with
  | same heq =>
      rw [heq]
      exact h
  | inner hpc =>
      have hne := hfresh hpc (by decide)
      unfold State.inner
      split
      · exact ⟨h.sum, fun hnil => absurd hnil hne⟩
      · exact ⟨h.sum, fun hnil => absurd hnil hne⟩
  | quitInner hpc => exact ⟨h.sum, fun hnil => absurd hnil (hfresh hpc (by decide))⟩
  | enqueue k hpc =>
      have hne := hfresh hpc (by decide)
      unfold State.enqueue
      split
      · exact ⟨h.sum, fun hnil => absurd hnil hne⟩
      · exact ⟨h.sum, fun hnil => absurd hnil hne⟩
  | quitEnqueue hpc => exact ⟨h.sum, fun hnil => absurd hnil (hfresh hpc (by decide))⟩
  | aggregate k hpc =>
      refine ⟨?_, fun hnil => absurd hnil (hfresh hpc (by decide))⟩
      have hsum := h.sum
      show ((s.main.batchCntTotEnq + s.main.batchCntEnq : ℕ) : ℤ)
        + (s.main.batchCntWaitOnEnq - s.main.batchCntEnq) = s.main.mbufIn.length
      push_cast
      omega

theorem Carried.receive {s : State W} (h : Carried s.main) (burst : List Mbuf) :
    Carried (s.receive burst).main := by
  unfold State.receive
  split
  next hzero =>
    split
    next hwait => exact ⟨h.sum, fun hnil => absurd (h.fresh hnil).2 (by omega)⟩
    next => exact h
  next hsome =>
    refine ⟨?_, fun hnil => absurd (congrArg List.length hnil) hsome⟩
    show ((0 : ℕ) : ℤ) + burst.length = burst.length
    omega

/-- **One poll in vain** with packets in the pipeline: whatever the dequeue takes, the
counters are out of range at the next test. -/
theorem idlePoll_drifts {x : Received W} (h : Carried x.main)
    (hwait : x.main.batchCntWaitOnDeq > 0) (k : ℕ) :
    ¬ CountersInRange ((x.receive []).aggregate k) := by
  have hpoll : (x.receive []).main = { x.main with pc := .aggregate } := by
    have hwait' : x.sys.st.main.batchCntWaitOnDeq > 0 := hwait
    show (x.sys.st.receive []).main = _
    unfold State.receive
    rw [if_pos (show ([] : List Mbuf).length = 0 from rfl), if_pos hwait']
    rfl
  have hcarried : Carried ((x.receive []).aggregate k).main := by
    have hpc : (x.receive []).main.pc = .aggregate := by rw [hpoll]
    exact @Carried.move W ⟨0, 0, anyPrefix 0⟩ _ _ (h.receive []) (.aggregate k hpc)
  have hmbufs : ((x.receive []).aggregate k).main.mbufIn = x.main.mbufIn := by
    show (x.receive []).main.mbufIn = _
    rw [hpoll]
  have hne : x.main.mbufIn ≠ [] := fun hnil => absurd (h.fresh hnil).2 (by omega)
  intro h
  obtain ⟨-, hsum, hover⟩ := h
  rcases Main.finish_pc _ with hp | hp
  · exact hover hp
  · -- the sum is still that of an earlier receive
    have hzero := hsum hp
    rw [hcarried.sum, hmbufs] at hzero
    have hpos := List.length_pos_iff.mpr hne
    have hcurrent : ((x.receive []).aggregate k).current = 0 := rfl
    rw [hcurrent] at hzero
    omega

end Carried

theorem ReceivedReachable.carried [NeZero W] {cfg : Config} {maxDuration : ℕ} {mayPoll : Bool}
    {x : Received W} (h : ReceivedReachable cfg maxDuration mayPoll x) : Carried x.main := by
  refine ReflTransGen.invariant (fun x : Received W => Carried x.main) ?_ ?_ h
  · exact ⟨rfl, fun _ => ⟨rfl, le_refl 0⟩⟩
  · intro x y hx hstep
    rcases hstep.move with ⟨burst, -, -, -, rfl⟩ | ⟨hmove, -⟩
    · exact hx.receive burst
    · exact hx.move hmove

/-- **When main's receive counters stay in range.**  In every run in which no receive comes
back empty while main waits for packets of the pipeline, they divide the packets of the
current receive whenever the condition of the inner loop is evaluated, and no counter
overflows.  And in every run, an empty receive while main waits leaves them out of range at
the next test. -/
theorem counters_inRange [NeZero W] (cfg : Config) (maxDuration : ℕ) :
    (∀ x : Received W, ReceivedReachable cfg maxDuration false x → CountersInRange x)
      ∧ ∀ x : Received W, ReceivedReachable cfg maxDuration true x → x.main.pc = .receive →
          x.main.batchCntWaitOnDeq > 0 → ∀ k, ¬ CountersInRange ((x.receive []).aggregate k) :=
  ⟨fun _ h => h.onTrack.2.inRange, fun _ h _ hwait => idlePoll_drifts h.carried hwait⟩

/-- One packet was received and enqueued, and the poll of its tail ring was too early. -/
def onePacketWaits (W : ℕ) [NeZero W] : Received W :=
  let x := { Received.init W with sys := { System.init W with phase := .run } }
  let x := x.receive [7]
  let x := { x with sys := { x.sys with st := x.sys.st.inner slices } }
  let x := { x with sys := { x.sys with st := x.sys.st.enqueue 1 } }
  let x := { x with sys := { x.sys with st := x.sys.st.enqueue 0 } }
  let x := x.aggregate 0
  { x with sys := { x.sys with st := x.sys.st.inner slices } }

theorem onePacketWaits_reachable (mayPoll : Bool) :
    ReceivedReachable slices 0 mayPoll (onePacketWaits 1) := by
  have hpoll : ([7] : List Mbuf).length = 0 → ∀ c : ℤ, c > 0 → mayPoll = true :=
    fun h => absurd h (by decide)
  exact Relation.ReflTransGen.refl
    |>.tail (.other (Received.init 1) _ (.start _ rfl) fun _ => rfl)
    |>.tail (.receive _ [7] rfl rfl rfl (by decide) (by decide) (by decide) fun h => hpoll h _)
    |>.tail (.other _ _ (.inner _ rfl rfl) fun h => absurd h (by decide))
    |>.tail (.other _ _ (.enqueue _ 1 rfl rfl fun _ => ⟨by decide, by decide⟩)
        fun h => absurd h (by decide))
    |>.tail (.other _ _ (.enqueue _ 0 rfl rfl fun h => absurd h (by decide))
        fun h => absurd h (by decide))
    |>.tail (.other _ _ (.aggregate _ 0 rfl rfl ⟨Nat.zero_le _, Nat.zero_le _⟩)
        fun h => absurd h (by decide))
    |>.tail (.other _ _ (.inner _ rfl rfl) fun h => absurd h (by decide))

/-- In range while the packet is under way, and out of range behind a poll in vain. -/
theorem onePacketWaits_counters :
    CountersInRange (onePacketWaits 1)
      ∧ ¬ CountersInRange (((onePacketWaits 1).receive []).aggregate 0) :=
  have h := counters_inRange (W := 1) slices 0
  ⟨h.1 _ (onePacketWaits_reachable false),
    h.2 _ (onePacketWaits_reachable true) rfl (by decide) 0⟩

/-- The next receive comes back empty: at the next test of the inner loop `-1` packets wait
to be enqueued. -/
theorem emptyReceive_drifts :
    ∃ x : Received 1, ReceivedReachable slices 0 true x ∧ x.main.pc = .inner
      ∧ x.main.batchCntWaitOnEnq = -1 ∧ ¬ CountersInRange x := by
  refine ⟨((onePacketWaits 1).receive []).aggregate 0, ?_, by decide, by decide, ?_⟩
  · exact onePacketWaits_reachable true
      |>.tail (.receive _ [] rfl rfl rfl (by decide) (by decide) (by decide) fun _ _ => rfl)
      |>.tail (.other _ _ (.aggregate _ 0 rfl rfl ⟨Nat.zero_le _, Nat.zero_le _⟩)
          fun h => absurd h (by decide))
  · intro h
    exact absurd (h.wait (by decide)) (by decide)

end Meili.DataPlane
