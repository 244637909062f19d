/-
  Meili.DataPlane.Sequencing — the sequence numbers of the packets.

  `seq_exec` stamps every slice of packets before it is enqueued to a head
  ring.  A step of the data plane that appends to `sequenced` hands the new
  part to `seq_exec` (`Stamped.next`); the number of a packet is its place in
  the stream of arrivals (`Stamps`).
-/
import Meili.DataPlane.Rounds

namespace Meili.DataPlane

open Meili.Lib

variable {W : ℕ} {cfg : Config}

/-! ## §1. Sequence numbers. -/

/-- `seq_exec` on the mbufs of a slice: `seqn` is `mystate->seqn`, `field` the
field `*rte_reorder_seqn(mbuf)` of every mbuf. -/
def seqExec (seqn : UInt32) (field : Mbuf → UInt32) : List Mbuf → UInt32 × (Mbuf → UInt32)
  | [] => (seqn, field)
  | mbuf :: mbufs => seqExec (seqn + 1) (Function.update field mbuf seqn) mbufs

/-- The data plane with the state of the sequencing stage. -/
structure Stamped (W : ℕ) where
  st : State W
  seqn : UInt32
  field : Mbuf → UInt32

/-- `SEQ_NUM_START`. -/
def seqNumStart : UInt32 := 0

def Stamped.init (W : ℕ) [NeZero W] : Stamped W where
  st := State.init W
  seqn := seqNumStart
  field := fun _ => 0

/-- A step to `s'`, with the stamps of the slice it hands to `seq_exec`. -/
def Stamped.next (x : Stamped W) (s' : State W) : Stamped W :=
  let slice := s'.sequenced.drop x.st.sequenced.length
  let (seqn, field) := seqExec x.seqn x.field slice
  { st := s', seqn := seqn, field := field }

/-- One step of main or of a worker, stamps included. -/
def StampedStep (cfg : Config) (x y : Stamped W) : Prop :=
  ∃ s', Step cfg x.st s' ∧ y = x.next s'

/-- `x` occurs in some interleaving. -/
def StampedReachable [NeZero W] (cfg : Config) (x : Stamped W) : Prop :=
  Relation.ReflTransGen (StampedStep cfg) (Stamped.init W) x

/-- The sequence numbers of the packets main has released, in order. -/
def Stamped.released (x : Stamped W) : List UInt32 := x.st.freed.map x.field

/-- **`seq_exec` counts on**, and stamps the mbufs of the slice only. -/
theorem seqExec_spec (seqn : UInt32) (field : Mbuf → UInt32) (mbufs : List Mbuf)
    (hnodup : mbufs.Nodup) :
    (seqExec seqn field mbufs).1 = seqn + UInt32.ofNat mbufs.length
      ∧ (∀ i p, mbufs[i]? = some p → (seqExec seqn field mbufs).2 p = seqn + UInt32.ofNat i)
      ∧ ∀ p, p ∉ mbufs → (seqExec seqn field mbufs).2 p = field p := by
  induction mbufs generalizing seqn field with
  | nil => exact ⟨(UInt32.add_zero seqn).symm, fun i p h => by simp at h, fun _ _ => rfl⟩
  | cons mbuf mbufs ih =>
      obtain ⟨hnotin, hrest⟩ := List.nodup_cons.mp hnodup
      obtain ⟨hcount, hin, hout⟩ := ih (seqn + 1) (Function.update field mbuf seqn) hrest
      have hsucc : ∀ n : ℕ, seqn + 1 + UInt32.ofNat n = seqn + UInt32.ofNat (n + 1) := by
        intro n
        rw [UInt32.ofNat_add, UInt32.add_assoc, UInt32.add_comm 1]
        rfl
      refine ⟨?_, ?_, ?_⟩
      · show (seqExec (seqn + 1) _ mbufs).1 = seqn + UInt32.ofNat (mbufs.length + 1)
        rw [hcount, hsucc]
      · intro i p hget
        show (seqExec (seqn + 1) _ mbufs).2 p = _
        cases i with
        | zero =>
            -- the mbuf just stamped is not stamped again
            obtain rfl : mbuf = p := by simpa using hget
            rw [hout mbuf hnotin, Function.update_self]
            exact (UInt32.add_zero seqn).symm
        | succ i =>
            rw [hin i p (by simpa using hget), hsucc]
      · intro p hp
        obtain ⟨hne, hnot⟩ := List.ne_and_not_mem_of_not_mem_cons hp
        show (seqExec (seqn + 1) _ mbufs).2 p = _
        rw [hout p hnot, Function.update_of_ne hne]

/-! ## §2. What was received is stamped in order. -/

/-- The part of `mbuf_in` that `seq_exec` has not seen yet. -/
def Main.unsequenced (m : Main W) : List Mbuf :=
  match m.pc with
  | .enqueue | .aggregate => m.mbufIn.drop (m.batchCntTotEnq + m.batchCntEnq)
  | _ => m.mbufIn.drop m.batchCntTotEnq

/-- Packets are stamped in the order of their arrival. -/
def Sequenced (s : State W) : Prop := s.received = s.sequenced ++ s.main.unsequenced

theorem Main.finish_unsequenced (m : Main W) :
    m.finish.unsequenced = m.mbufIn.drop (m.batchCntTotEnq + m.batchCntEnq) := by
  unfold Main.unsequenced
  rcases m.finish_pc with hpc | hpc
  · rw [hpc]
    rfl
  · rw [hpc]
    rfl

section Steps

variable {s : State W}

theorem Sequenced.receive (h : Sequenced s) (hmain : s.main.Sane) (hpc : s.main.pc = .receive)
    (burst : List Mbuf) : Sequenced (s.receive burst) := by
  have hsum := hmain.sum
  have hwait := hmain.receive hpc
  have hnone : s.main.mbufIn.drop s.main.batchCntTotEnq = [] :=
    List.drop_of_length_le (by omega)
  have hall : s.received = s.sequenced := by
    have h' := h
    unfold Sequenced Main.unsequenced at h'
    rw [hpc] at h'
    dsimp only at h'
    rwa [hnone, List.append_nil] at h'
  unfold State.receive
  split
  · split
    · show s.received = s.sequenced
        ++ s.main.mbufIn.drop (s.main.batchCntTotEnq + s.main.batchCntEnq)
      rw [List.drop_of_length_le (by omega), List.append_nil, hall]
    · exact h
  · show s.received ++ burst = s.sequenced ++ burst.drop 0
    rw [hall, List.drop_zero]

theorem Sequenced.inner (h : Sequenced s) (hpc : s.main.pc = .inner) (cfg : Config) :
    Sequenced (s.inner cfg) := by
  have h' : s.received = s.sequenced ++ s.main.mbufIn.drop s.main.batchCntTotEnq := by
    unfold Sequenced Main.unsequenced at h
    rw [hpc] at h
    exact h
  unfold State.inner
  split
  · -- the slice that is stamped leaves the rest
    show s.received = s.sequenced ++ (s.main.mbufIn.drop s.main.batchCntTotEnq).take _
      ++ s.main.mbufIn.drop (s.main.batchCntTotEnq + _)
    rw [h', List.append_assoc, take_append_drop_add]
  · exact h'

theorem Sequenced.enqueue (h : Sequenced s) (hpc : s.main.pc = .enqueue) (k : ℕ) :
    Sequenced (s.enqueue k) := by
  have h' : s.received
      = s.sequenced ++ s.main.mbufIn.drop (s.main.batchCntTotEnq + s.main.batchCntEnq) := by
    unfold Sequenced Main.unsequenced at h
    rw [hpc] at h
    exact h
  unfold State.enqueue
  split
  · unfold Sequenced Main.unsequenced
    dsimp only
    rw [hpc]
    exact h'
  · exact h'

theorem Sequenced.aggregate (h : Sequenced s) (hpc : s.main.pc = .aggregate) (k : ℕ) :
    Sequenced (s.aggregate k) := by
  unfold Sequenced Main.unsequenced at h
  rw [hpc] at h
  show s.received = s.sequenced ++ Main.unsequenced (Main.finish _)
  rw [Main.finish_unsequenced]
  exact h

theorem Sequenced.of_worker {s' : State W} {j : Fin W} (h : Sequenced s)
    (hsame : OnlyWorker j s s') : Sequenced s' := by
  unfold Sequenced
  rw [hsame.received, hsame.sequenced, hsame.main]
  exact h

theorem Sequenced.step {s' : State W} (h : Sequenced s) (hflow : Flow s)
    (hstep : Step cfg s s') : Sequenced s' := by
  cases hstep with
  | receive burst hpc hlen hnodup hfresh => exact h.receive hflow.main hpc burst
  | inner hpc => exact h.inner hpc cfg
  | enqueue k hpc hk => exact h.enqueue hpc k
  | aggregate k hpc hk => exact h.aggregate hpc k
  | workerDequeue j k hpc hk => exact h.of_worker (onlyWorker_dequeue s j k)
  | workerExec j hpc => exact h.of_worker (onlyWorker_exec s j)
  | workerEnqueue j k hpc hk => exact h.of_worker (onlyWorker_enqueue s j k)

/-- What was stamped stays stamped, in order. -/
theorem Step.sequenced_prefix {s' : State W} (hstep : Step cfg s s') :
    s.sequenced <+: s'.sequenced := by
  cases hstep with
  | receive burst hpc hlen hnodup hfresh =>
      unfold State.receive
      split
      · split
        · exact List.prefix_refl _
        · exact List.prefix_refl _
      · exact List.prefix_refl _
  | inner hpc =>
      unfold State.inner
      split
      · exact List.prefix_append _ _
      · exact List.prefix_refl _
  | enqueue k hpc hk =>
      unfold State.enqueue
      split
      · exact List.prefix_refl _
      · exact List.prefix_refl _
  | aggregate k hpc hk => exact List.prefix_refl _
  | workerDequeue j k hpc hk => rw [(onlyWorker_dequeue s j k).sequenced]
  | workerExec j hpc => rw [(onlyWorker_exec s j).sequenced]
  | workerEnqueue j k hpc hk => rw [(onlyWorker_enqueue s j k).sequenced]

end Steps

theorem Reachable.sequenced [NeZero W] {s : State W} (h : Reachable cfg s) : Sequenced s :=
  (ReflTransGen.invariant (fun s => Flow s ∧ Sequenced s) ⟨Flow.init W, rfl⟩
    (fun _ _ hx hs => ⟨hx.1.step hs, hx.2.step hx.1 hs⟩) h).2

theorem Reachable.sequenced_nodup [NeZero W] {s : State W} (h : Reachable cfg s) :
    s.sequenced.Nodup := by
  have hnodup := h.flow.accounts.nodup
  rw [h.sequenced] at hnodup
  exact (List.nodup_append.mp hnodup).1

/-! ## §3. The stamp of a packet is its place in the stream. -/

/-- The `i`-th packet handed to `seq_exec` has number `i`. -/
structure Stamps (x : Stamped W) : Prop where
  seqn : x.seqn = UInt32.ofNat x.st.sequenced.length
  field : ∀ i p, x.st.sequenced[i]? = some p → x.field p = UInt32.ofNat i

/-- Every stamped run is a run of the data plane. -/
theorem StampedReachable.reachable [NeZero W] {x : Stamped W} (h : StampedReachable cfg x) :
    Reachable cfg x.st := by
  refine ReflTransGen.invariant (fun x : Stamped W => Reachable cfg x.st) (Reachable.init W cfg)
    ?_ h
  intro x y hx h
  obtain ⟨s', hs, rfl⟩ := h
  exact hx.step hs

/-- And every run of the data plane is stamped. -/
theorem Reachable.stamped [NeZero W] {s : State W} (h : Reachable cfg s) :
    ∃ x, StampedReachable cfg x ∧ x.st = s := by
  induction h with
  | refl => exact ⟨Stamped.init W, .refl, rfl⟩
  | tail _ hstep ih =>
      obtain ⟨x, hx, rfl⟩ := ih
      exact ⟨x.next _, .tail hx ⟨_, hstep, rfl⟩, rfl⟩

theorem Stamps.step {x y : Stamped W} (h : Stamps x) (hstep : StampedStep cfg x y)
    (hnodup : y.st.sequenced.Nodup) : Stamps y := by
  obtain ⟨s', hs, rfl⟩ := hstep
  obtain ⟨slice, hslice⟩ := hs.sequenced_prefix
  have hnodup' : (x.st.sequenced ++ slice).Nodup := by
    rw [hslice]
    exact hnodup
  obtain ⟨-, hslicenodup, hdisj⟩ := List.nodup_append.mp hnodup'
  have hdrop : s'.sequenced.drop x.st.sequenced.length = slice := by
    rw [← hslice]
    exact List.drop_left
  obtain ⟨hcount, hin, hout⟩ := seqExec_spec x.seqn x.field slice hslicenodup
  have hnext : x.next s' = ⟨s', (seqExec x.seqn x.field slice).1,
      (seqExec x.seqn x.field slice).2⟩ := by
    unfold Stamped.next
    rw [hdrop]
  constructor
  · rw [hnext]
    show (seqExec x.seqn x.field slice).1 = UInt32.ofNat s'.sequenced.length
    rw [hcount, h.seqn, ← hslice, List.length_append, UInt32.ofNat_add]
  · intro i p hget
    rw [hnext] at hget ⊢
    dsimp only at hget ⊢
    rw [← hslice] at hget
    by_cases hlt : i < x.st.sequenced.length
    · -- stamped earlier, and not touched now
      rw [List.getElem?_append_left hlt] at hget
      have hmem := List.mem_of_getElem? hget
      rw [hout p fun hp => hdisj p hmem p hp rfl]
      exact h.field i p hget
    · rw [List.getElem?_append_right (by omega)] at hget
      rw [hin _ p hget, h.seqn, ← UInt32.ofNat_add]
      congr 1
      omega

theorem StampedReachable.stamps [NeZero W] {x : Stamped W} (h : StampedReachable cfg x) :
    Stamps x := by
  induction h with
  | refl => exact ⟨rfl, fun i p hget => by simp [Stamped.init, State.init] at hget⟩
  | tail hx hstep ih =>
      have hy := StampedReachable.reachable (.tail hx hstep)
      exact ih.step hstep hy.sequenced_nodup

end Meili.DataPlane
