/-
  Meili.Reorder.Reach — the states of a reorder buffer that its users can bring about.

  A buffer is created, and then any inserts and drains follow, of any mbufs and with any
  limits; `rte_reorder_min_seqn_set` may set the first sequence number.  Before the first
  insert the buffer is not initialised: the insert takes the number of its mbuf for
  `min_seqn`.

    `BufferReachable.holds` — every such buffer holds a resequencer.
-/
import Meili.Lib.Runs
import Meili.Reorder.Conservation

namespace Meili.Reorder

open Meili.Lib

/-! ## §1. Steps. -/

/-- One call on a reorder buffer. -/
inductive BufferStep : ReorderBuffer → ReorderBuffer → Prop
  | insert (b : ReorderBuffer) (mbuf : Option Mbuf) : BufferStep b (rteReorderInsert b mbuf).1
  | drain (b : ReorderBuffer) (max : ℕ) : BufferStep b (rteReorderDrain b max).1
  | minSeqnSet (b : ReorderBuffer) (minSeqn : UInt32) :
      BufferStep b (rteReorderMinSeqnSet b minSeqn).1

/-- `b` is what some calls make of a new buffer of `size` places. -/
def BufferReachable (size : UInt32) (b : ReorderBuffer) : Prop :=
  ∃ b₀, rteReorderCreate size = some b₀ ∧ Relation.ReflTransGen BufferStep b₀ b

theorem BufferReachable.step {size : UInt32} {b b' : ReorderBuffer} (h : BufferReachable size b)
    (hstep : BufferStep b b') : BufferReachable size b' := by
  obtain ⟨b₀, hcreate, hrun⟩ := h
  exact ⟨b₀, hcreate, hrun.tail hstep⟩

/-! ## §2. Buffers that are not initialised yet. -/

/-- `b` with its flag set. -/
def ReorderBuffer.initialized (b : ReorderBuffer) : ReorderBuffer :=
  { b with isInitialized := true }

/-- The buffer that an insert of `m` starts from. -/
def ReorderBuffer.startAt (b : ReorderBuffer) (m : Mbuf) : ReorderBuffer :=
  if !b.isInitialized then { b with minSeqn := m.seqn, isInitialized := true } else b

theorem rteReorderInsert_startAt (b : ReorderBuffer) (m : Mbuf) :
    rteReorderInsert b (some m) = rteReorderInsert (b.startAt m) (some m) := by
  cases hinit : b.isInitialized with
  | true =>
      have hsame : b.startAt m = b := by simp [ReorderBuffer.startAt, hinit]
      rw [hsame]
  | false =>
      have hstart : b.startAt m = { b with minSeqn := m.seqn, isInitialized := true } := by
        simp [ReorderBuffer.startAt, hinit]
      rw [hstart]
      simp only [rteReorderInsert, hinit, Bool.not_false, if_true, Bool.not_true,
        Bool.false_eq_true, if_false]

/-- `b`, initialised or not, holds the resequencer `q`. -/
structure Holds (size : ℕ) (b : ReorderBuffer) (q : Resequencer) : Prop where
  refines : Refines size b.initialized q
  fresh : b.isInitialized = false → q.held = []

section Holds

variable {size : ℕ} {b : ReorderBuffer} {q : Resequencer}

theorem Refines.holds (h : Refines size b q) : Holds size b q := by
  refine ⟨?_, fun hfalse => absurd (h.initialized.symm.trans hfalse) (by decide)⟩
  exact { h with initialized := rfl }

theorem Holds.initialized (h : Holds size b q) (hinit : b.isInitialized = true) :
    Refines size b q := by
  have hsame : b.initialized = b := by
    unfold ReorderBuffer.initialized
    rw [← hinit]
  exact hsame ▸ h.refines

/-- The resequencer that an insert of `m` starts from. -/
def Resequencer.startAt (q : Resequencer) (b : ReorderBuffer) (m : Mbuf) : Resequencer :=
  { q with minSeqn := if b.isInitialized then q.minSeqn else m.seqn }

theorem Holds.startAt (h : Holds size b q) (m : Mbuf) :
    Refines size (b.startAt m) (q.startAt b m) := by
  cases hinit : b.isInitialized with
  | true =>
      have hb : b.startAt m = b := by simp [ReorderBuffer.startAt, hinit]
      have hq : q.startAt b m = q := by simp [Resequencer.startAt, hinit]
      rw [hb, hq]
      exact h.initialized hinit
  | false =>
      have hb : b.startAt m = { b.initialized with minSeqn := m.seqn } := by
        simp [ReorderBuffer.startAt, ReorderBuffer.initialized, hinit]
      have hq : q.startAt b m = { q with minSeqn := m.seqn } := by
        simp [Resequencer.startAt, hinit]
      rw [hb, hq]
      exact { h.refines with minSeqn := rfl }

/-- The drain looks at the flag in no place. -/
theorem drainOrder_initialized (k : ℕ) (b : ReorderBuffer) :
    drainOrder k b.initialized = ((drainOrder k b).1.initialized, (drainOrder k b).2)
      ∧ (drainOrder k b).1.isInitialized = b.isInitialized := by
  induction k generalizing b with
  | zero => exact ⟨rfl, rfl⟩
  | succ k ih =>
      have hget : b.initialized.orderBuf.get b.initialized.orderBuf.head
          = b.orderBuf.get b.orderBuf.head := rfl
      unfold drainOrder
      rw [hget]
      cases hx : b.orderBuf.get b.orderBuf.head with
      | none => exact ⟨rfl, rfl⟩
      | some m =>
          obtain ⟨hstep, hflag⟩ := ih { b with
            minSeqn := b.minSeqn + 1
            orderBuf := (b.orderBuf.set b.orderBuf.head none).stepHead }
          refine ⟨?_, hflag⟩
          exact congrArg (fun r => (r.1, some m :: r.2)) hstep

theorem rteReorderDrain_initialized (b : ReorderBuffer) (max : ℕ) :
    rteReorderDrain b.initialized max
        = ((rteReorderDrain b max).1.initialized, (rteReorderDrain b max).2)
      ∧ (rteReorderDrain b max).1.isInitialized = b.isInitialized := by
  obtain ⟨hstep, hflag⟩ := drainOrder_initialized (max - (drainReady max b.readyBuf).2.length)
    { b with readyBuf := (drainReady max b.readyBuf).1 }
  refine ⟨?_, hflag⟩
  exact congrArg (fun r => (r.1, (drainReady max b.readyBuf).2 ++ r.2)) hstep

/-- **`rte_reorder_insert`** leaves a buffer that holds a resequencer, initialised. -/
theorem Holds.insert (h : Holds size b q) (m : Mbuf) :
    Refines size (rteReorderInsert b (some m)).1 ((q.startAt b m).insert m).1
      ∧ (rteReorderInsert b (some m)).2 = ((q.startAt b m).insert m).2 := by
  rw [rteReorderInsert_startAt]
  exact rteReorderInsert_refines (h.startAt m) m

/-- **`rte_reorder_drain`** does so too. -/
theorem Holds.drain (h : Holds size b q) (max : ℕ) :
    Holds size (rteReorderDrain b max).1 (q.drain max).1
      ∧ (rteReorderDrain b max).2 = (q.drain max).2.map some := by
  obtain ⟨hsame, hflag⟩ := rteReorderDrain_initialized b max
  obtain ⟨href, hout⟩ := rteReorderDrain_refines h.refines max
  rw [hsame] at href hout
  refine ⟨⟨href, fun hfalse => ?_⟩, hout⟩
  -- from an empty buffer nothing is drained
  have hheld := q.drain_held max
  rw [h.fresh (hflag.symm.trans hfalse)] at hheld
  exact (List.append_eq_nil_iff.mp hheld).2

theorem Holds.minSeqnSet (h : Holds size b q) (minSeqn : UInt32) :
    ∃ q', Holds size (rteReorderMinSeqnSet b minSeqn).1 q' := by
  unfold rteReorderMinSeqnSet
  split
  · exact ⟨q, h⟩
  · refine ⟨{ q with minSeqn := minSeqn }, Refines.holds ?_⟩
    exact { h.refines with minSeqn := rfl }

theorem rteReorderCreate_eq {size : UInt32} (h : rteReorderCreate size = some b) :
    b = {
      minSeqn := 0
      isInitialized := false
      readyBuf := .init size
      orderBuf := .init size } := by
  unfold rteReorderCreate at h
  split at h
  · cases h
  · exact (Option.some.inj h).symm

/-- **A new buffer** holds nothing. -/
theorem rteReorderCreate_holds {size : UInt32} (h : rteReorderCreate size = some b) :
    Holds size.toNat b (.empty size.toNat) := by
  have hinit : reorderInitWith size 0
      = some ⟨0, (rteReorderMinSeqnSet b seqNumStart).1⟩ := by
    rw [reorderInitWith, h]
    rfl
  have href := (reorderInitWith_refines hinit).2
  have hempty : rteReorderIsEmpty b = true := by
    rw [rteReorderCreate_eq h]
    simp [rteReorderIsEmpty, CirBuffer.init]
  have hset : (rteReorderMinSeqnSet b seqNumStart).1 = b.initialized := by
    rw [rteReorderMinSeqnSet_empty hempty, rteReorderCreate_eq h]
    rfl
  dsimp only at href
  rw [hset] at href
  exact ⟨href, fun _ => by simp [Resequencer.held, Resequencer.empty]⟩

end Holds

/-! ## §3. Every reachable buffer. -/

/-- **A reachable buffer holds a resequencer.** -/
theorem BufferReachable.holds {size : UInt32} {b : ReorderBuffer} (h : BufferReachable size b) :
    ∃ q, Holds size.toNat b q := by
  obtain ⟨b₀, hcreate, hrun⟩ := h
  refine ReflTransGen.invariant (fun b => ∃ q, Holds size.toNat b q)
    ⟨_, rteReorderCreate_holds hcreate⟩ ?_ hrun
  rintro x y ⟨q, hq⟩ hstep
  cases hstep with
  | insert mbuf =>
      cases mbuf with
      | none => exact ⟨q, hq⟩
      | some m => exact ⟨_, (hq.insert m).1.holds⟩
  | drain max => exact ⟨_, (hq.drain max).1⟩
  | minSeqnSet minSeqn => exact hq.minSeqnSet minSeqn

end Meili.Reorder
