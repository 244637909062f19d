/-
  Meili.Network.Tracking — the packets of a pipeline as tokens that move between queues.

  The places of a packet are main's pending slice, the rings, the two parts of the batch of an
  instance and, in the end, main's hands.  Every step of the program moves the front of one place
  to the end of another one, along the edges that the slots of the rings make (`Edge`), or moves
  nothing (`Tracked.step`).  The counters behind the places are in `Sane`.
-/
import Meili.Lib.Places
import Meili.Network.Model

namespace Meili.Network

open Meili.Lib Meili.DataPlane Meili.Runtime

/-! ## §1. Places. -/

/-- Where a packet can be. -/
inductive Place where
  /-- In the slice of `mbuf_in` that main has not enqueued yet. -/
  | pending
  | ring (r : RingId)
  /-- With instance `j` of stage `i`, before and after `pipeline_stage_exec`. -/
  | todo (i j : ℕ)
  | done (i j : ℕ)
  | freed
  deriving Repr, DecidableEq

/-- The part of the batch that is not processed yet. -/
def todo (w : Worker) : List Mbuf :=
  match w.pc with
  | .exec => w.mbufsIn.drop w.i
  | _ => []

theorem todo_exec {w : Worker} (hpc : w.pc = .exec) : todo w = w.mbufsIn.drop w.i := by
  unfold todo
  rw [hpc]

theorem todo_eq_nil {w : Worker} (hpc : w.pc ≠ .exec) : todo w = [] := by
  unfold todo
  split
  next h => exact absurd h hpc
  next => rfl

/-- What is at a place, front first. -/
def State.contents (s : State) : Place → List Mbuf
  | .pending => s.main.pending
  | .ring r => s.ring r
  | .todo i j => todo (s.stages i j).toWorker
  | .done i j => (s.stages i j).processed
  | .freed => s.freed

/-- The moves that the slots of the rings make possible. -/
inductive Edge (pl : Pipeline) : Place → Place → Prop
  | enqueue {r : RingId} :
      some r ∈ pl.topology.outSlots pl.nbPlStages pl.nbInstPerPlStage .main →
      Edge pl .pending (.ring r)
  | workerDequeue {i j : ℕ} {r : RingId} :
      pl.Runs i j → some r ∈ pl.topology.inSlots pl.nbPlStages pl.nbInstPerPlStage (.inst i j) →
      Edge pl (.ring r) (.todo i j)
  | workerExec {i j : ℕ} : pl.Runs i j → Edge pl (.todo i j) (.done i j)
  | workerEnqueue {i j : ℕ} {r : RingId} :
      pl.Runs i j → some r ∈ pl.topology.outSlots pl.nbPlStages pl.nbInstPerPlStage (.inst i j) →
      Edge pl (.done i j) (.ring r)
  | aggregate {r : RingId} :
      some r ∈ pl.topology.inSlots pl.nbPlStages pl.nbInstPerPlStage .main →
      Edge pl (.ring r) .freed

/-- The instance that a packet at this place has been processed by last, if this is where it
goes from there. -/
def Place.exec? : Place → Option (ℕ × ℕ)
  | .done i j => some (i, j)
  | _ => none

/-! ## §2. Counters and indices. -/

/-- Main has a ring on either side, within its arrays. -/
structure Pipeline.Ringed (pl : Pipeline) : Prop where
  first : 0 < pl.nbFirstStage ∧ pl.nbFirstStage ≤ nbMaxRing
  last : 0 < pl.nbLastStage ∧ pl.nbLastStage ≤ nbMaxRing

/-- The counters are sane, and every index is one of a ring. -/
structure Sane (pl : Pipeline) (s : State) : Prop where
  main : s.main.Sane
  worker : ∀ i j, (s.stages i j).toWorker.Sane
  ringIn : s.main.ringInIndex < pl.nbFirstStage
  ringOut : s.main.ringOutIndex < pl.nbLastStage
  index : ∀ i j, pl.Runs i j → (s.stages i j).ringInIndex < pl.nbRingIn i j
    ∧ (s.stages i j).ringOutIndex < pl.nbRingOut i j

theorem nextRing_lt {nb : ℕ} (hpos : 0 < nb) (hle : nb ≤ nbMaxRing) (index : Fin nbMaxRing) :
    (nextRing nb index : ℕ) < nb := by
  have hlt := Nat.mod_lt ((index : ℕ) + 1) hpos
  show (index + 1) % nb % nbMaxRing < nb
  rw [Nat.mod_eq_of_lt (by omega)]
  exact hlt

theorem setStage_stages (s : State) (i j : ℕ) (self : Instance) (i' j' : ℕ) :
    (s.setStage i j self).stages i' j' = if i' = i ∧ j' = j then self else s.stages i' j' := by
  unfold State.setStage
  by_cases hi : i' = i
  · subst hi
    by_cases hj : j' = j
    · subst hj
      simp
    · simp [hj]
  · simp [hi]

theorem setStage_stages_self (s : State) (i j : ℕ) (self : Instance) :
    (s.setStage i j self).stages i j = self := by
  rw [setStage_stages, if_pos ⟨rfl, rfl⟩]

theorem setStage_stages_of_ne (s : State) {i j i' j' : ℕ} (self : Instance)
    (hne : ¬(i' = i ∧ j' = j)) : (s.setStage i j self).stages i' j' = s.stages i' j' := by
  rw [setStage_stages, if_neg hne]

section Sane

variable {cfg : Config} {pl : Pipeline} {s : State}

theorem Sane.init (hpl : pl.Ringed) : Sane pl .init where
  main := ⟨rfl, fun _ => le_refl 0, fun h => absurd h (by simp [State.init])⟩
  worker := fun _ _ => ⟨fun _ => rfl, fun h => absurd h (by simp [State.init]),
    fun h => absurd h (by simp [State.init])⟩
  ringIn := hpl.first.1
  ringOut := hpl.last.1
  index := fun _ _ hruns => ⟨Nat.pos_of_ne_zero hruns.2.2.1, Nat.pos_of_ne_zero hruns.2.2.2⟩

/-- A step of an instance keeps main and the other instances. -/
theorem Sane.setStage (h : Sane pl s) {s' : State} {i j : ℕ} {self : Instance}
    (hmain : s'.main = s.main) (hstages : s'.stages = (s.setStage i j self).stages)
    (hself : self.toWorker.Sane)
    (hindex : pl.Runs i j → self.ringInIndex < pl.nbRingIn i j
      ∧ self.ringOutIndex < pl.nbRingOut i j) : Sane pl s' where
  main := hmain ▸ h.main
  worker := by
    intro i' j'
    rw [hstages, setStage_stages]
    split
    · exact hself
    · exact h.worker i' j'
  ringIn := hmain ▸ h.ringIn
  ringOut := hmain ▸ h.ringOut
  index := by
    intro i' j' hruns
    rw [hstages, setStage_stages]
    split
    next heq =>
      obtain ⟨rfl, rfl⟩ := heq
      exact hindex hruns
    next => exact h.index i' j' hruns

theorem Sane.receive (h : Sane pl s) (burst : List Mbuf) : Sane pl (s.receive burst) := by
  unfold State.receive
  split
  · split
    · exact ⟨⟨h.main.sum, fun hp => absurd hp (by simp), fun hp => absurd hp (by simp)⟩, h.worker,
        h.ringIn, h.ringOut, h.index⟩
    · exact h
  · refine ⟨⟨?_, fun hp => absurd hp (by simp), fun hp => absurd hp (by simp)⟩, h.worker, h.ringIn,
      h.ringOut, h.index⟩
    show ((0 : ℕ) : ℤ) + _ = _
    simp

theorem Sane.inner (h : Sane pl s) (cfg : Config) : Sane pl (s.inner cfg) := by
  have hsum := h.main.sum
  unfold State.inner
  split
  · refine ⟨⟨hsum, fun hp => absurd hp (by simp), fun _ => ⟨?_, Nat.zero_add _⟩⟩, h.worker,
      h.ringIn, h.ringOut, h.index⟩
    show ((min cfg.batchSizeIn s.main.batchCntWaitOnEnq.toNat : ℕ) : ℤ)
      ≤ s.main.batchCntWaitOnEnq
    omega
  · refine ⟨⟨hsum, fun _ => ?_, fun hp => absurd hp (by simp)⟩, h.worker, h.ringIn, h.ringOut,
      h.index⟩
    show s.main.batchCntWaitOnEnq ≤ 0
    omega

theorem Sane.enqueue (h : Sane pl s) (hpl : pl.Ringed) (hpc : s.main.pc = .enqueue) (r : RingId)
    {k : ℕ} (hk : s.main.totEnq < s.main.batchCntEnq → k ≤ s.main.toEnq) :
    Sane pl (s.enqueue pl.nbFirstStage r k) := by
  obtain ⟨hle, heq⟩ := h.main.enqueue hpc
  unfold State.enqueue
  split
  next hlt =>
    have hk' := hk hlt
    refine ⟨⟨h.main.sum, fun hp => absurd (hpc.symm.trans hp) (by decide), fun _ => ⟨hle, ?_⟩⟩,
      h.worker, h.ringIn, h.ringOut, h.index⟩
    show s.main.totEnq + k + (s.main.toEnq - k) = s.main.batchCntEnq
    omega
  next =>
    exact ⟨⟨h.main.sum, fun hp => absurd hp (by simp), fun hp => absurd hp (by simp)⟩, h.worker,
      nextRing_lt hpl.first.1 hpl.first.2 _, h.ringOut, h.index⟩

theorem Sane.aggregate (h : Sane pl s) (hpl : pl.Ringed) (hpc : s.main.pc = .aggregate)
    (r : RingId) (k : ℕ) : Sane pl (s.aggregate pl.nbLastStage r k) := by
  refine ⟨Main.Sane.finish ⟨h.main.sum, fun hp => ?_, fun hp => ?_⟩, h.worker, h.ringIn,
    nextRing_lt hpl.last.1 hpl.last.2 _, h.index⟩
  · exact absurd (hpc.symm.trans hp) (by decide)
  · exact absurd (hpc.symm.trans hp) (by decide)

theorem Sane.workerDequeue (h : Sane pl s) {i j : ℕ} (hruns : pl.Runs i j)
    (hpc : (s.stages i j).pc = .dequeue) (r : RingId) (k : ℕ) :
    Sane pl (s.workerDequeue (pl.nbRingIn i j) i j r k) := by
  have hout := (h.worker i j).dequeue hpc
  refine h.setStage (i := i) (j := j) rfl rfl ⟨fun hp => absurd hp (by simp),
    fun _ => ⟨Nat.zero_le _, rfl, hout⟩, fun hp => absurd hp (by simp)⟩ fun _ => ?_
  exact ⟨Nat.mod_lt _ (Nat.pos_of_ne_zero hruns.2.2.1), (h.index i j hruns).2⟩

theorem Sane.workerExec (h : Sane pl s) {i j : ℕ} (hpc : (s.stages i j).pc = .exec) :
    Sane pl (s.workerExec i j) := by
  obtain ⟨hle, hout, hnum⟩ := (h.worker i j).exec hpc
  unfold State.workerExec
  dsimp only
  split
  next mbuf hget =>
    have hlt := (List.getElem?_eq_some_iff.mp hget).1
    refine h.setStage (i := i) (j := j) rfl rfl ⟨fun hp => absurd (hpc.symm.trans hp) (by decide),
      fun _ => ⟨hlt, ?_, ?_⟩, fun hp => absurd (hpc.symm.trans hp) (by decide)⟩ (h.index i j)
    · show (s.stages i j).mbufsOut ++ [mbuf] = (s.stages i j).mbufsIn.take ((s.stages i j).i + 1)
      rw [List.take_add_one, hget, hout]
      rfl
    · show (s.stages i j).outNum + 1 = (s.stages i j).i + 1
      rw [hnum]
  next hget =>
    have hge := List.getElem?_eq_none_iff.mp hget
    refine h.setStage (i := i) (j := j) rfl rfl ⟨fun hp => absurd hp (by simp),
      fun hp => absurd hp (by simp), fun _ => ?_⟩ (h.index i j)
    show 0 + (s.stages i j).outNum = (s.stages i j).mbufsOut.length
    rw [hnum, hout, List.length_take]
    omega

theorem Sane.workerEnqueue (h : Sane pl s) {i j : ℕ} (hruns : pl.Runs i j)
    (hpc : (s.stages i j).pc = .enqueue) (r : RingId) {k : ℕ}
    (hk : 0 < (s.stages i j).outNum → k ≤ (s.stages i j).outNum) :
    Sane pl (s.workerEnqueue (pl.nbRingOut i j) i j r k) := by
  have hsum := (h.worker i j).enqueue hpc
  unfold State.workerEnqueue
  dsimp only
  split
  next hpos =>
    have hk' := hk hpos
    refine h.setStage (i := i) (j := j) rfl rfl ⟨fun hp => absurd (hpc.symm.trans hp) (by decide),
      fun hp => absurd (hpc.symm.trans hp) (by decide), fun _ => ?_⟩ (h.index i j)
    show (s.stages i j).totEnq + k + ((s.stages i j).outNum - k) = (s.stages i j).mbufsOut.length
    omega
  next hzero =>
    refine h.setStage (i := i) (j := j) rfl rfl ⟨fun _ => ?_, fun hp => absurd hp (by simp),
      fun hp => absurd hp (by simp)⟩ fun _ => ?_
    · show (s.stages i j).outNum = 0
      omega
    · exact ⟨(h.index i j hruns).1, Nat.mod_lt _ (Nat.pos_of_ne_zero hruns.2.2.2)⟩

/-- **Every step keeps the counters and the indices.** -/
theorem Sane.step (h : Sane pl s) (hpl : pl.Ringed) {s' : State} (hstep : Step cfg pl s s') :
    Sane pl s' := by
  cases hstep with
  | receive burst _ _ _ _ => exact h.receive burst
  | inner _ => exact h.inner cfg
  | enqueue r k hpc hk => exact h.enqueue hpl hpc r fun hlt => cfg.ring.enq_le (hk hlt).2
  | aggregate r k hpc _ _ => exact h.aggregate hpl hpc r k
  | workerDequeue i j r k hruns hpc _ _ => exact h.workerDequeue hruns hpc r k
  | workerExec i j _ hpc => exact h.workerExec hpc
  | workerEnqueue i j r k hruns hpc hk =>
      exact h.workerEnqueue hruns hpc r fun hpos =>
        (cfg.ring.enq_le (hk hpos).2).trans (min_le_left _ _)

end Sane

theorem Reachable.sane {cfg : Config} {pl : Pipeline} (hpl : pl.Ringed) {s : State}
    (h : Reachable cfg pl s) : Sane pl s :=
  ReflTransGen.invariant (Sane pl) (Sane.init hpl) (fun _ _ hx hs => hx.step hpl hs) h

/-! ## §3. What a step leaves alone. -/

/-- The places of the other instances are left alone. -/
theorem contents_setStage_of_ne (s : State) {i j : ℕ} (self : Instance) {x : Place}
    (htodo : x ≠ .todo i j) (hdone : x ≠ .done i j) :
    (s.setStage i j self).contents x = s.contents x := by
  cases x with
  | pending => rfl
  | ring r => rfl
  | todo i' j' =>
      show todo ((s.setStage i j self).stages i' j').toWorker = _
      rw [setStage_stages_of_ne s self fun ⟨hi, hj⟩ => htodo (by rw [hi, hj])]
      rfl
  | done i' j' =>
      show ((s.setStage i j self).stages i' j').processed = _
      rw [setStage_stages_of_ne s self fun ⟨hi, hj⟩ => hdone (by rw [hi, hj])]
      rfl
  | freed => rfl

theorem contents_setStage_todo (s : State) (i j : ℕ) (self : Instance) :
    (s.setStage i j self).contents (.todo i j) = todo self.toWorker := by
  show todo ((s.setStage i j self).stages i j).toWorker = _
  rw [setStage_stages_self]

theorem contents_setStage_done (s : State) (i j : ℕ) (self : Instance) :
    (s.setStage i j self).contents (.done i j) = self.processed := by
  show ((s.setStage i j self).stages i j).processed = _
  rw [setStage_stages_self]

/-- An instance that keeps its two places keeps all. -/
theorem contents_setStage (s : State) {i j : ℕ} {self : Instance}
    (htodo : todo self.toWorker = todo (s.stages i j).toWorker)
    (hdone : self.processed = (s.stages i j).processed) :
    (s.setStage i j self).contents = s.contents := by
  funext x
  by_cases hxt : x = .todo i j
  · rw [hxt, contents_setStage_todo]
    exact htodo
  · by_cases hxd : x = .done i j
    · rw [hxd, contents_setStage_done]
      exact hdone
    · exact contents_setStage_of_ne s self hxt hxd

/-- A step of main that keeps its pending slice. -/
theorem contents_main (s : State) {m : Main nbMaxRing} (hpending : m.pending = s.main.pending) :
    ({ s with main := m } : State).contents = s.contents := by
  funext x
  cases x with
  | pending => exact hpending
  | ring r => rfl
  | todo i j => rfl
  | done i j => rfl
  | freed => rfl

theorem setRing_ring_self (s : State) (r : RingId) (mbufs : List Mbuf) :
    (s.setRing r mbufs).ring r = mbufs :=
  Function.update_self ..

theorem setRing_ring_of_ne (s : State) {r r' : RingId} (mbufs : List Mbuf) (hr : r' ≠ r) :
    (s.setRing r mbufs).ring r' = s.ring r' :=
  Function.update_of_ne hr ..

/-- A ring changes nothing elsewhere. -/
theorem contents_setRing_of_ne (s : State) {r : RingId} (mbufs : List Mbuf) {x : Place}
    (hx : x ≠ .ring r) : (s.setRing r mbufs).contents x = s.contents x := by
  cases x with
  | ring r' => exact setRing_ring_of_ne s mbufs fun h => hx (by rw [h])
  | pending => rfl
  | todo i j => rfl
  | done i j => rfl
  | freed => rfl

/-! ## §4. What a step moves. -/

/-- The first `k` packets of `a` go to the end of `b`. -/
structure Moves (s s' : State) (a b : Place) (k : ℕ) : Prop where
  source : s'.contents a = (s.contents a).drop k
  target : s'.contents b = s.contents b ++ (s.contents a).take k
  other : ∀ x, x ≠ a → x ≠ b → s'.contents x = s.contents x

section Moves

variable {cfg : Config} {pl : Pipeline} {s : State}

theorem contents_inner (hpc : s.main.pc = .inner) : (s.inner cfg).contents = s.contents := by
  have hpending := Main.pending_inner hpc
  unfold State.inner
  split
  · exact contents_main s ((Main.pending_enqueue rfl).trans hpending.symm)
  · exact contents_main s ((Main.pending_receive rfl).trans hpending.symm)

/-- An idle poll. -/
theorem contents_receive_nil (hsane : Sane pl s) (hpc : s.main.pc = .receive) {burst : List Mbuf}
    (hburst : burst.length = 0) : (s.receive burst).contents = s.contents := by
  have hnone := hsane.main.none_pending hpc
  -- at `aggregate_packets` the counters of the last burst still leave nothing pending
  have hsum := hsane.main.sum
  have hwait := hsane.main.receive hpc
  unfold State.receive
  rw [if_pos hburst]
  split
  · refine contents_main s ((Main.pending_aggregate rfl).trans ?_)
    rw [hnone]
    exact List.drop_of_length_le (by dsimp only; omega)
  · rfl

theorem moves_enqueue (hpc : s.main.pc = .enqueue) (hlt : s.main.totEnq < s.main.batchCntEnq)
    (r : RingId) (k : ℕ) : Moves s (s.enqueue pl.nbFirstStage r k) .pending (.ring r) k := by
  have hpending := Main.pending_enqueue hpc
  unfold State.enqueue
  rw [if_pos hlt]
  refine ⟨?_, ?_, ?_⟩
  · refine (Main.pending_enqueue ?_).trans ?_
    · exact hpc
    · show _ = s.main.pending.drop k
      rw [hpending, List.drop_drop, Nat.add_assoc]
  · show Function.update s.ring r _ r = s.ring r ++ s.main.pending.take k
    rw [Function.update_self, hpending]
  · intro x hx hxr
    cases x with
    | pending => exact absurd rfl hx
    | ring r' => exact Function.update_of_ne (fun h => hxr (by rw [h])) ..
    | todo i j => rfl
    | done i j => rfl
    | freed => rfl

/-- The whole slice has been enqueued. -/
theorem contents_enqueue (hsane : Sane pl s) (hpc : s.main.pc = .enqueue)
    (hge : ¬ s.main.totEnq < s.main.batchCntEnq) (r : RingId) (k : ℕ) :
    (s.enqueue pl.nbFirstStage r k).contents = s.contents := by
  obtain ⟨hle, heq⟩ := hsane.main.enqueue hpc
  unfold State.enqueue
  rw [if_neg hge]
  refine contents_main s ((Main.pending_aggregate rfl).trans ?_)
  rw [Main.pending_enqueue hpc, show s.main.totEnq = s.main.batchCntEnq by omega]

theorem moves_aggregate (hpc : s.main.pc = .aggregate) (r : RingId) (k : ℕ) :
    Moves s (s.aggregate pl.nbLastStage r k) (.ring r) .freed k := by
  refine ⟨Function.update_self .., rfl, ?_⟩
  intro x hx hxf
  cases x with
  | pending => exact (Main.finish_pending _).trans (Main.pending_aggregate hpc).symm
  | ring r' => exact Function.update_of_ne (fun h => hx (by rw [h])) ..
  | todo i j => rfl
  | done i j => rfl
  | freed => exact absurd rfl hxf

theorem moves_workerDequeue {i j : ℕ} (hpc : (s.stages i j).pc = .dequeue) (r : RingId) (k : ℕ) :
    Moves s (s.workerDequeue (pl.nbRingIn i j) i j r k) (.ring r) (.todo i j) k := by
  refine ⟨Function.update_self .., ?_, ?_⟩
  · -- the whole of the new batch is still to do
    unfold State.workerDequeue
    rw [contents_setStage_todo, todo_exec rfl, List.drop_zero]
    show _ = todo (s.stages i j).toWorker ++ (s.ring r).take k
    rw [todo_eq_nil (by rw [hpc]; decide), List.nil_append]
  · intro x hxr hxt
    unfold State.workerDequeue
    by_cases hxd : x = .done i j
    · rw [hxd, contents_setStage_done, Worker.processed_exec rfl, List.take_zero]
      exact (Worker.processed_dequeue hpc).symm
    · rw [contents_setStage_of_ne _ _ hxt hxd, contents_setRing_of_ne s _ hxr]

/-- One packet goes through `pipeline_stage_exec`. -/
theorem workerExec_some {i j : ℕ} {mbuf : Mbuf}
    (hget : (s.stages i j).mbufsIn[(s.stages i j).i]? = some mbuf) :
    s.workerExec i j = State.setStage { s with log := s.log ++ [(mbuf, i, j)] } i j
      { s.stages i j with
        i := (s.stages i j).i + 1
        mbufsOut := (s.stages i j).mbufsOut ++ [mbuf]
        outNum := (s.stages i j).outNum + 1 } := by
  unfold State.workerExec
  dsimp only
  rw [hget]

theorem contents_todo_exec {i j : ℕ} (hpc : (s.stages i j).pc = .exec) :
    s.contents (.todo i j) = (s.stages i j).mbufsIn.drop (s.stages i j).i :=
  todo_exec hpc

theorem take_todo_exec {i j : ℕ} (hpc : (s.stages i j).pc = .exec) {mbuf : Mbuf}
    (hget : (s.stages i j).mbufsIn[(s.stages i j).i]? = some mbuf) :
    (s.contents (.todo i j)).take 1 = [mbuf] := by
  rw [contents_todo_exec hpc, List.take_one, List.head?_drop, hget]
  rfl

theorem moves_workerExec {i j : ℕ} (hpc : (s.stages i j).pc = .exec) {mbuf : Mbuf}
    (hget : (s.stages i j).mbufsIn[(s.stages i j).i]? = some mbuf) :
    Moves s (s.workerExec i j) (.todo i j) (.done i j) 1 := by
  rw [workerExec_some hget]
  refine ⟨?_, ?_, ?_⟩
  · rw [contents_todo_exec hpc, List.drop_drop, contents_setStage_todo]
    exact todo_exec hpc
  · rw [take_todo_exec hpc hget, contents_setStage_done]
    refine (Worker.processed_exec ?_).trans ?_
    · exact hpc
    · show _ = (s.stages i j).processed ++ [mbuf]
      rw [List.take_add_one, hget, Worker.processed_exec hpc]
      rfl
  · intro x hxt hxd
    exact contents_setStage_of_ne _ _ hxt hxd

/-- The whole batch has been processed. -/
theorem contents_workerExec (hsane : Sane pl s) {i j : ℕ} (hpc : (s.stages i j).pc = .exec)
    (hget : (s.stages i j).mbufsIn[(s.stages i j).i]? = none) :
    (s.workerExec i j).contents = s.contents := by
  obtain ⟨hle, hout, hnum⟩ := (hsane.worker i j).exec hpc
  have hge := List.getElem?_eq_none_iff.mp hget
  unfold State.workerExec
  dsimp only
  rw [hget]
  refine contents_setStage s ?_ ?_
  · rw [todo_eq_nil (by simp), todo_exec hpc, List.drop_of_length_le hge]
  · rw [Worker.processed_enqueue rfl, Worker.processed_exec hpc, List.drop_zero, hout]

theorem contents_done_enqueue {i j : ℕ} (hpc : (s.stages i j).pc = .enqueue) :
    s.contents (.done i j) = (s.stages i j).mbufsOut.drop (s.stages i j).totEnq :=
  Worker.processed_enqueue hpc

theorem moves_workerEnqueue {i j : ℕ} (hpc : (s.stages i j).pc = .enqueue)
    (hpos : 0 < (s.stages i j).outNum) (r : RingId) (k : ℕ) :
    Moves s (s.workerEnqueue (pl.nbRingOut i j) i j r k) (.done i j) (.ring r) k := by
  unfold State.workerEnqueue
  dsimp only
  rw [if_pos hpos]
  refine ⟨?_, ?_, ?_⟩
  · rw [contents_done_enqueue hpc, List.drop_drop, contents_setStage_done]
    exact Worker.processed_enqueue hpc
  · rw [contents_done_enqueue hpc]
    exact Function.update_self ..
  · intro x hxd hxr
    by_cases hxt : x = .todo i j
    · rw [hxt, contents_setStage_todo]
      refine (todo_eq_nil ?_).trans (todo_eq_nil ?_).symm
      · rw [hpc]
        decide
      · rw [hpc]
        decide
    · rw [contents_setStage_of_ne _ _ hxt hxd, contents_setRing_of_ne s _ hxr]

/-- The whole batch has been enqueued. -/
theorem contents_workerEnqueue (hsane : Sane pl s) {i j : ℕ}
    (hpc : (s.stages i j).pc = .enqueue) (hzero : ¬ 0 < (s.stages i j).outNum) (r : RingId)
    (k : ℕ) : (s.workerEnqueue (pl.nbRingOut i j) i j r k).contents = s.contents := by
  have hsum := (hsane.worker i j).enqueue hpc
  unfold State.workerEnqueue
  dsimp only
  rw [if_neg hzero]
  refine contents_setStage s ?_ ?_
  · rw [todo_eq_nil (by simp), todo_eq_nil (by rw [hpc]; decide)]
  · rw [Worker.processed_dequeue rfl, Worker.processed_enqueue hpc,
      List.drop_of_length_le (by omega)]

end Moves

/-! ## §5. The packets as tokens. -/

/-- The tokens of `t` are the packets of `s`. -/
structure Tracked (pl : Pipeline) (s : State) (t : Places Place Mbuf) : Prop where
  reachable : Places.Reachable .pending (Edge pl) t
  contents : t.contents = s.contents
  arrived : t.arrived = s.received
  history : ∀ p, (t.trail p).filterMap Place.exec? = s.history p

theorem history_of_log {s s' : State} (hlog : s'.log = s.log) (p : Mbuf) :
    s'.history p = s.history p := by
  unfold State.history
  rw [hlog]

section Steps

variable {cfg : Config} {pl : Pipeline} {s s' : State} {t : Places Place Mbuf}

theorem Tracked.init : Tracked pl .init Places.init where
  reachable := Relation.ReflTransGen.refl
  contents := by
    funext x
    cases x <;> rfl
  arrived := rfl
  history := fun _ => rfl

/-- Nothing moves. -/
theorem Tracked.stay (h : Tracked pl s t) (hcontents : s'.contents = s.contents)
    (hreceived : s'.received = s.received) (hlog : s'.log = s.log) : Tracked pl s' t where
  reachable := h.reachable
  contents := by rw [hcontents, h.contents]
  arrived := by rw [hreceived, h.arrived]
  history := fun p => by rw [history_of_log hlog, h.history]

/-- The front of a place moves on, and nothing is processed. -/
theorem Tracked.move (h : Tracked pl s t) {a b : Place} {k : ℕ} (hab : a ≠ b)
    (hedge : Edge pl a b) (hexec : b.exec? = none) (hmoves : Moves s s' a b k)
    (hreceived : s'.received = s.received) (hlog : s'.log = s.log) :
    Tracked pl s' (t.move a b k) where
  reachable := h.reachable.tail (.move t a b k hab hedge)
  contents := by
    obtain ⟨hsource, htarget, hother⟩ := hmoves
    rw [← h.contents] at hsource htarget hother
    exact Places.eq_move_contents t hab hsource htarget hother
  arrived := by
    rw [hreceived]
    exact h.arrived
  history := by
    intro p
    rw [history_of_log hlog, ← h.history]
    by_cases hp : p ∈ (t.contents a).take k
    · rw [Places.move_trail_of_mem t b hp, List.filterMap_append, List.filterMap_cons_none hexec,
        List.filterMap_nil, List.append_nil]
    · rw [Places.move_trail_of_not_mem t b hp]

/-- Where nothing has been received, only main has moved. -/
theorem receive_nil {burst : List Mbuf} (hburst : burst.length = 0) (s : State) :
    (s.receive burst).received = s.received ∧ (s.receive burst).log = s.log := by
  unfold State.receive
  rw [if_pos hburst]
  split
  · exact ⟨rfl, rfl⟩
  · exact ⟨rfl, rfl⟩

theorem Tracked.receive (h : Tracked pl s t) (hsane : Sane pl s) (hpc : s.main.pc = .receive)
    {burst : List Mbuf} (hnodup : burst.Nodup) (hfresh : ∀ p ∈ burst, p ∉ s.received) :
    ∃ t', Tracked pl (s.receive burst) t' := by
  have hnone := hsane.main.none_pending hpc
  by_cases hburst : burst.length = 0
  · obtain ⟨hreceived, hlog⟩ := receive_nil hburst s
    exact ⟨t, h.stay (contents_receive_nil hsane hpc hburst) hreceived hlog⟩
  · have hnew : ∀ p ∈ burst, p ∉ t.arrived := by
      rw [h.arrived]
      exact hfresh
    refine ⟨t.arrive .pending burst, h.reachable.tail (.arrive t burst hnodup hnew), ?_, ?_, ?_⟩
    · unfold State.receive
      rw [if_neg hburst]
      funext x
      cases x with
      | pending =>
          rw [Places.arrive_contents_self, h.contents]
          show s.main.pending ++ burst = burst
          rw [hnone, List.nil_append]
      | ring r => exact congrFun h.contents _
      | todo i j => exact congrFun h.contents _
      | done i j => exact congrFun h.contents _
      | freed => exact congrFun h.contents _
    · unfold State.receive
      rw [if_neg hburst, ← h.arrived]
      rfl
    · intro p
      have hlog : (s.receive burst).log = s.log := by
        unfold State.receive
        rw [if_neg hburst]
      rw [history_of_log hlog, ← h.history]
      by_cases hp : p ∈ burst
      · -- a fresh packet has no history
        have htrail : t.trail p = [] := by
          by_contra hne
          exact hnew p hp ((h.reachable.sound.arrived_iff p).mpr hne)
        rw [Places.arrive_trail_of_mem t _ hp, htrail]
        rfl
      · rw [Places.arrive_trail_of_not_mem t _ hp]

theorem inner_received (s : State) (cfg : Config) :
    (s.inner cfg).received = s.received ∧ (s.inner cfg).log = s.log := by
  unfold State.inner
  split
  · exact ⟨rfl, rfl⟩
  · exact ⟨rfl, rfl⟩

theorem enqueue_received (s : State) (nbFirstStage : ℕ) (r : RingId) (k : ℕ) :
    (s.enqueue nbFirstStage r k).received = s.received
      ∧ (s.enqueue nbFirstStage r k).log = s.log := by
  unfold State.enqueue
  split
  · exact ⟨rfl, rfl⟩
  · exact ⟨rfl, rfl⟩

theorem workerExec_none {i j : ℕ}
    (hget : (s.stages i j).mbufsIn[(s.stages i j).i]? = none) :
    s.workerExec i j = s.setStage i j { s.stages i j with pc := .enqueue, totEnq := 0 } := by
  unfold State.workerExec
  dsimp only
  rw [hget]

theorem workerEnqueue_received (s : State) (nbRingOut i j : ℕ) (r : RingId) (k : ℕ) :
    (s.workerEnqueue nbRingOut i j r k).received = s.received
      ∧ (s.workerEnqueue nbRingOut i j r k).log = s.log := by
  unfold State.workerEnqueue
  dsimp only
  split
  · exact ⟨rfl, rfl⟩
  · exact ⟨rfl, rfl⟩

theorem Tracked.inner (h : Tracked pl s t) (hpc : s.main.pc = .inner) :
    Tracked pl (s.inner cfg) t :=
  h.stay (contents_inner hpc) (inner_received s cfg).1 (inner_received s cfg).2

/-- A burst enqueue of main. -/
theorem Tracked.enqueue_lt (h : Tracked pl s t) (hsane : Sane pl s) (hpc : s.main.pc = .enqueue)
    (hlt : s.main.totEnq < s.main.batchCntEnq) {r : RingId}
    (hring : pl.topology.ringIn s.main.ringInIndex = some r) (k : ℕ) :
    Tracked pl (s.enqueue pl.nbFirstStage r k) (t.move .pending (.ring r) k) := by
  have hslot : some r ∈ pl.topology.outSlots pl.nbPlStages pl.nbInstPerPlStage .main :=
    List.mem_map.mpr ⟨_, List.mem_range.mpr hsane.ringIn, hring⟩
  obtain ⟨hreceived, hlog⟩ := enqueue_received s pl.nbFirstStage r k
  exact h.move (by simp) (.enqueue hslot) rfl (moves_enqueue hpc hlt r k) hreceived hlog

theorem Tracked.enqueue_ge (h : Tracked pl s t) (hsane : Sane pl s) (hpc : s.main.pc = .enqueue)
    (hge : ¬ s.main.totEnq < s.main.batchCntEnq) (r : RingId) (k : ℕ) :
    Tracked pl (s.enqueue pl.nbFirstStage r k) t := by
  obtain ⟨hreceived, hlog⟩ := enqueue_received s pl.nbFirstStage r k
  exact h.stay (contents_enqueue hsane hpc hge r k) hreceived hlog

theorem Tracked.aggregate (h : Tracked pl s t) (hsane : Sane pl s)
    (hpc : s.main.pc = .aggregate) {r : RingId}
    (hring : pl.topology.ringOut s.main.ringOutIndex = some r) (k : ℕ) :
    Tracked pl (s.aggregate pl.nbLastStage r k) (t.move (.ring r) .freed k) := by
  have hslot : some r ∈ pl.topology.inSlots pl.nbPlStages pl.nbInstPerPlStage .main :=
    List.mem_map.mpr ⟨_, List.mem_range.mpr hsane.ringOut, hring⟩
  exact h.move (by simp) (.aggregate hslot) rfl (moves_aggregate hpc r k) rfl rfl

theorem mem_inSlots (hsane : Sane pl s) {i j : ℕ} (hruns : pl.Runs i j) {r : RingId}
    (hring : pl.slotIn s i j = some r) :
    some r ∈ pl.topology.inSlots pl.nbPlStages pl.nbInstPerPlStage (.inst i j) :=
  List.mem_map.mpr ⟨_, List.mem_range.mpr (hsane.index i j hruns).1, hring⟩

theorem mem_outSlots (hsane : Sane pl s) {i j : ℕ} (hruns : pl.Runs i j) {r : RingId}
    (hring : pl.slotOut s i j = some r) :
    some r ∈ pl.topology.outSlots pl.nbPlStages pl.nbInstPerPlStage (.inst i j) :=
  List.mem_map.mpr ⟨_, List.mem_range.mpr (hsane.index i j hruns).2, hring⟩

theorem Tracked.workerDequeue (h : Tracked pl s t) (hsane : Sane pl s) {i j : ℕ}
    (hruns : pl.Runs i j) (hpc : (s.stages i j).pc = .dequeue) {r : RingId}
    (hring : pl.slotIn s i j = some r) (k : ℕ) :
    Tracked pl (s.workerDequeue (pl.nbRingIn i j) i j r k) (t.move (.ring r) (.todo i j) k) :=
  h.move (by simp) (.workerDequeue hruns (mem_inSlots hsane hruns hring)) rfl
    (moves_workerDequeue hpc r k) rfl rfl

theorem Tracked.workerExec_some (h : Tracked pl s t) {i j : ℕ} (hruns : pl.Runs i j)
    (hpc : (s.stages i j).pc = .exec) {mbuf : Mbuf}
    (hget : (s.stages i j).mbufsIn[(s.stages i j).i]? = some mbuf) :
    Tracked pl (s.workerExec i j) (t.move (.todo i j) (.done i j) 1) := by
  have hmoves := moves_workerExec hpc hget
  have hlog : (s.workerExec i j).log = s.log ++ [(mbuf, i, j)] := by
    rw [Network.workerExec_some hget]
    rfl
  refine ⟨h.reachable.tail (.move t _ _ 1 (by simp) (.workerExec hruns)), ?_, ?_, ?_⟩
  · obtain ⟨hsource, htarget, hother⟩ := hmoves
    rw [← h.contents] at hsource htarget hother
    exact Places.eq_move_contents t (by simp) hsource htarget hother
  · rw [Network.workerExec_some hget]
    exact h.arrived
  · intro p
    have hhistory : (s.workerExec i j).history p
        = s.history p ++ (if mbuf = p then [(i, j)] else []) := by
      unfold State.history
      rw [hlog, List.filter_append, List.map_append]
      congr 1
      by_cases hp : mbuf = p
      · simp [hp]
      · simp [hp]
    have hmem : p ∈ (t.contents (.todo i j)).take 1 ↔ mbuf = p := by
      rw [h.contents, take_todo_exec hpc hget, List.mem_singleton, eq_comm]
    rw [hhistory, ← h.history]
    by_cases hp : mbuf = p
    · rw [Places.move_trail_of_mem t _ (hmem.mpr hp), List.filterMap_append, if_pos hp]
      rfl
    · rw [Places.move_trail_of_not_mem t _ (fun h => hp (hmem.mp h)), if_neg hp, List.append_nil]

theorem Tracked.workerExec_none (h : Tracked pl s t) {i j : ℕ} (hsane : Sane pl s)
    (hpc : (s.stages i j).pc = .exec)
    (hget : (s.stages i j).mbufsIn[(s.stages i j).i]? = none) :
    Tracked pl (s.workerExec i j) t := by
  refine h.stay (contents_workerExec hsane hpc hget) ?_ ?_
  · rw [Network.workerExec_none hget]
    rfl
  · rw [Network.workerExec_none hget]
    rfl

/-- A burst enqueue of an instance. -/
theorem Tracked.workerEnqueue_pos (h : Tracked pl s t) (hsane : Sane pl s) {i j : ℕ}
    (hruns : pl.Runs i j) (hpc : (s.stages i j).pc = .enqueue)
    (hpos : 0 < (s.stages i j).outNum) {r : RingId} (hring : pl.slotOut s i j = some r) (k : ℕ) :
    Tracked pl (s.workerEnqueue (pl.nbRingOut i j) i j r k) (t.move (.done i j) (.ring r) k) := by
  obtain ⟨hreceived, hlog⟩ := workerEnqueue_received s (pl.nbRingOut i j) i j r k
  exact h.move (by simp) (.workerEnqueue hruns (mem_outSlots hsane hruns hring)) rfl
    (moves_workerEnqueue hpc hpos r k) hreceived hlog

theorem Tracked.workerEnqueue_zero (h : Tracked pl s t) (hsane : Sane pl s) {i j : ℕ}
    (hpc : (s.stages i j).pc = .enqueue) (hzero : ¬ 0 < (s.stages i j).outNum) (r : RingId)
    (k : ℕ) : Tracked pl (s.workerEnqueue (pl.nbRingOut i j) i j r k) t := by
  obtain ⟨hreceived, hlog⟩ := workerEnqueue_received s (pl.nbRingOut i j) i j r k
  exact h.stay (contents_workerEnqueue hsane hpc hzero r k) hreceived hlog

/-- **Every step is a move**, an arrival or nothing. -/
theorem Tracked.step (h : Tracked pl s t) (hsane : Sane pl s) (hstep : Step cfg pl s s') :
    ∃ t', Tracked pl s' t' := by
  cases hstep with
  | receive burst hpc _ hnodup hfresh => exact h.receive hsane hpc hnodup hfresh
  | inner hpc => exact ⟨t, h.inner hpc⟩
  | enqueue r k hpc hk =>
      by_cases hlt : s.main.totEnq < s.main.batchCntEnq
      · exact ⟨_, h.enqueue_lt hsane hpc hlt (hk hlt).1 k⟩
      · exact ⟨t, h.enqueue_ge hsane hpc hlt r k⟩
  | aggregate r k hpc hring _ => exact ⟨_, h.aggregate hsane hpc hring k⟩
  | workerDequeue i j r k hruns hpc hring _ => exact ⟨_, h.workerDequeue hsane hruns hpc hring k⟩
  | workerExec i j hruns hpc =>
      cases hget : (s.stages i j).mbufsIn[(s.stages i j).i]? with
      | some mbuf => exact ⟨_, h.workerExec_some hruns hpc hget⟩
      | none => exact ⟨t, h.workerExec_none hsane hpc hget⟩
  | workerEnqueue i j r k hruns hpc hk =>
      by_cases hpos : 0 < (s.stages i j).outNum
      · exact ⟨_, h.workerEnqueue_pos hsane hruns hpc hpos (hk hpos).1 k⟩
      · exact ⟨t, h.workerEnqueue_zero hsane hpc hpos r k⟩

end Steps

/-- **The packets of a reachable state are the tokens of a run.** -/
theorem Reachable.tracked {cfg : Config} {pl : Pipeline} (hpl : pl.Ringed) {s : State}
    (h : Reachable cfg pl s) : ∃ t, Tracked pl s t :=
  ReflTransGen.invariant_reachable (fun s => ∃ t, Tracked pl s t) ⟨_, Tracked.init⟩
    (fun _ _ hreach hx hs => hx.elim fun _ ht => ht.step (Reachable.sane hpl hreach) hs) h

end Meili.Network
