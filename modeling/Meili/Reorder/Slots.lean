/-
  Meili.Reorder.Slots — how many slots point to an mbuf, over all calls.

  `rte_reorder_free` and `rte_reorder_reset` free what all slots of the two circular buffers point
  to, whether the slots are in use or not.  So here every slot counts, also an entry that a full
  ready buffer has left behind its head: no call makes two slots of one, and what a drain hands
  out is in no slot any more.

    • `refs_insert`, `refs_drain`, `refs_drainUpTo` — what a call does to the number of slots that
      point to an mbuf.
-/
import Mathlib.Algebra.Order.BigOperators.Group.Finset
import Meili.Reorder.OrderSlots

namespace Meili.Reorder

open Meili.Lib

/-! ## §1. Slots. -/

/-- 1 for a pointer to the mbuf at address `a`. -/
def ref (a : ℕ) (x : Option Mbuf) : ℕ := if x.map Mbuf.addr = some a then 1 else 0

/-- How many pointers of an array point there. -/
def refsOut (a : ℕ) (mbufs : List (Option Mbuf)) : ℕ := (mbufs.map (ref a)).sum

/-- How many of the first `size` slots point there. -/
def CirBuffer.refs (size a : ℕ) (c : CirBuffer) : ℕ :=
  ∑ i ∈ Finset.range size, ref a (c.entries i)

/-- How many slots of either buffer point there. -/
def ReorderBuffer.refs (size a : ℕ) (b : ReorderBuffer) : ℕ :=
  b.orderBuf.refs size a + b.readyBuf.refs size a

/-- Both circular buffers have `size` slots and their indices in range. -/
structure Sized (size : ℕ) (b : ReorderBuffer) : Prop where
  readyWF : b.readyBuf.WF size
  orderWF : b.orderBuf.WF size

section Slots

variable {size a : ℕ} {c : CirBuffer} {b : ReorderBuffer}

@[simp] theorem ref_none (a : ℕ) : ref a none = 0 := if_neg (by simp)

theorem ref_some (a : ℕ) (m : Mbuf) : ref a (some m) = if m.addr = a then 1 else 0 := by
  simp [ref]

@[simp] theorem refsOut_nil (a : ℕ) : refsOut a [] = 0 := rfl

@[simp] theorem refsOut_cons (a : ℕ) (x : Option Mbuf) (mbufs : List (Option Mbuf)) :
    refsOut a (x :: mbufs) = ref a x + refsOut a mbufs := by
  simp [refsOut]

@[simp] theorem refsOut_append (a : ℕ) (mbufs mbufs' : List (Option Mbuf)) :
    refsOut a (mbufs ++ mbufs') = refsOut a mbufs + refsOut a mbufs' := by
  simp [refsOut]

/-- Writing a slot. -/
theorem CirBuffer.refs_set (c : CirBuffer) {i : UInt32} (hi : i.toNat < size)
    (x : Option Mbuf) :
    (c.set i x).refs size a + ref a (c.get i) = c.refs size a + ref a x := by
  have hmem : i.toNat ∈ Finset.range size := Finset.mem_range.mpr hi
  have hnew : (c.set i x).refs size a
      = ref a x + ∑ j ∈ (Finset.range size).erase i.toNat, ref a (c.entries j) := by
    unfold refs
    rw [← Finset.add_sum_erase _ _ hmem]
    show ref a (Function.update c.entries i.toNat x i.toNat) + _ = _
    rw [Function.update_self]
    refine congrArg _ (Finset.sum_congr rfl fun j hj => ?_)
    exact congrArg (ref a) (Function.update_of_ne (Finset.ne_of_mem_erase hj) ..)
  have hold : c.refs size a
      = ref a (c.get i) + ∑ j ∈ (Finset.range size).erase i.toNat, ref a (c.entries j) :=
    (Finset.add_sum_erase _ _ hmem).symm
  omega

/-- Clearing a slot. -/
theorem CirBuffer.refs_clear (c : CirBuffer) {i : UInt32} (hi : i.toNat < size) :
    (c.set i none).refs size a + ref a (c.get i) = c.refs size a := by
  have hset := c.refs_set (a := a) hi none
  rwa [ref_none, Nat.add_zero] at hset

/-! ## §2. `rte_reorder_insert`. -/

/-- **The inner loop** of `rte_reorder_fill_overflow`: a pointer that goes to the ready buffer
leaves the order buffer. -/
theorem refs_fillMove (k : ℕ) (h : Sized size b) (adv : UInt32) :
    Sized size (fillMove k b adv).1
      ∧ (fillMove k b adv).1.refs size a ≤ b.refs size a := by
  induction k generalizing b adv with
  | zero => exact ⟨h, le_refl _⟩
  | succ k ih =>
      cases hget : b.orderBuf.get b.orderBuf.head with
      | none =>
          unfold fillMove
          rw [hget]
          exact ⟨h, le_refl _⟩
      | some m =>
          have hready := b.readyBuf.refs_set (a := a) h.readyWF.head_lt (some m)
          have horder := b.orderBuf.refs_clear (a := a) h.orderWF.head_lt
          rw [hget] at horder
          rw [fillMove_some hget]
          split
          · -- the entry stays behind the head
            refine ⟨⟨h.readyWF.set _ _, (h.orderWF.set _ _).stepHead⟩, ?_⟩
            show (b.orderBuf.set b.orderBuf.head none).refs size a
              + (b.readyBuf.set b.readyBuf.head (some m)).refs size a ≤ _
            unfold ReorderBuffer.refs
            omega
          · obtain ⟨hsized, hle⟩ := ih (b := { b with
                readyBuf := (b.readyBuf.set b.readyBuf.head (some m)).stepHead
                orderBuf := (b.orderBuf.set b.orderBuf.head none).stepHead })
              ⟨(h.readyWF.set _ _).stepHead, (h.orderWF.set _ _).stepHead⟩ (adv + 1)
            refine ⟨hsized, hle.trans ?_⟩
            show (b.orderBuf.set b.orderBuf.head none).refs size a
              + (b.readyBuf.set b.readyBuf.head (some m)).refs size a ≤ _
            unfold ReorderBuffer.refs
            omega

/-- **The outer loop.** -/
theorem refs_fillLoop (n : UInt32) (k : ℕ) (h : Sized size b) (adv : UInt32) :
    Sized size (fillLoop n k b adv).1
      ∧ (fillLoop n k b adv).1.refs size a ≤ b.refs size a := by
  induction k generalizing b adv with
  | zero => exact ⟨h, le_refl _⟩
  | succ k ih =>
      unfold fillLoop
      split
      · by_cases hgap : b.orderBuf.get b.orderBuf.head = none
        · simp only [if_pos hgap]
          obtain ⟨hsized, hle⟩ := refs_fillMove (a := a) b.orderBuf.stepHead.size.toNat
            (b := { b with orderBuf := b.orderBuf.stepHead }) ⟨h.readyWF, h.orderWF.stepHead⟩
            (adv + 1)
          obtain ⟨hsized', hle'⟩ := ih hsized _
          exact ⟨hsized', hle'.trans hle⟩
        · simp only [if_neg hgap]
          obtain ⟨hsized, hle⟩ := refs_fillMove (a := a) b.orderBuf.size.toNat h adv
          obtain ⟨hsized', hle'⟩ := ih hsized _
          exact ⟨hsized', hle'.trans hle⟩
      · exact ⟨h, le_refl _⟩

theorem refs_fillOverflow (h : Sized size b) (n : UInt32) :
    Sized size (rteReorderFillOverflow b n).1
      ∧ (rteReorderFillOverflow b n).1.refs size a ≤ b.refs size a := by
  obtain ⟨hsized, hle⟩ := refs_fillLoop (a := a) n n.toNat h 0
  exact ⟨⟨hsized.readyWF, hsized.orderWF⟩, hle⟩

/-- One slot more points to what is stored, and what was there is gone. -/
theorem refs_storeAt (h : Sized size b) (offset : UInt32) (m : Mbuf) :
    (storeAt b offset m).refs size a ≤ b.refs size a + ref a (some m) := by
  have hlt : ((b.orderBuf.head + offset) &&& b.orderBuf.mask).toNat < size := by
    rw [h.orderWF.add_and_mask]
    exact Nat.mod_lt _ h.orderWF.size_lt.1
  have hset := b.orderBuf.refs_set (a := a) hlt (some m)
  show (b.orderBuf.set _ (some m)).refs size a + b.readyBuf.refs size a ≤ _
  unfold ReorderBuffer.refs
  omega

/-- **An insert** points one slot more to the mbuf that it accepts, and none to another one. -/
theorem refs_insert (h : Sized size b) (mbuf : Option Mbuf) :
    (rteReorderInsert b mbuf).1.refs size a
      ≤ b.refs size a + if (rteReorderInsert b mbuf).2 = none then ref a mbuf else 0 := by
  cases mbuf with
  | none => exact Nat.le_add_right _ _
  | some m =>
      rw [rteReorderInsert_startAt]
      have hstart : Sized size (b.startAt m) ∧ (b.startAt m).refs size a = b.refs size a
          ∧ (b.startAt m).isInitialized = true := by
        unfold ReorderBuffer.startAt
        split
        · exact ⟨⟨h.readyWF, h.orderWF⟩, rfl, rfl⟩
        · next hinit => exact ⟨h, rfl, by simpa using hinit⟩
      generalize b.startAt m = b' at hstart
      obtain ⟨h', hrefs, hinit⟩ := hstart
      rw [← hrefs]
      unfold rteReorderInsert
      simp only [hinit, Bool.not_true, Bool.false_eq_true, if_false]
      by_cases hin : m.seqn - b'.minSeqn < b'.orderBuf.size
      · rw [if_pos hin]
        exact refs_storeAt h' _ m
      · rw [if_neg hin]
        by_cases hnear : m.seqn - b'.minSeqn < 2 * b'.orderBuf.size
        · rw [if_pos hnear]
          obtain ⟨hsized, hle⟩ := refs_fillOverflow (a := a) h'
            (m.seqn - b'.minSeqn + 1 - b'.orderBuf.size)
          by_cases hshort : (rteReorderFillOverflow b'
              (m.seqn - b'.minSeqn + 1 - b'.orderBuf.size)).2
                < m.seqn - b'.minSeqn + 1 - b'.orderBuf.size
          · rw [if_pos hshort]
            exact hle.trans (Nat.le_add_right _ _)
          · rw [if_neg hshort]
            refine (refs_storeAt hsized _ m).trans ?_
            rw [if_pos rfl]
            omega
        · rw [if_neg hnear]
          exact Nat.le_add_right _ _

/-! ## §3. The drains. -/

theorem refs_drainReady (k : ℕ) (h : c.WF size) :
    (drainReady k c).1.refs size a + refsOut a (drainReady k c).2 = c.refs size a := by
  induction k generalizing c with
  | zero => exact Nat.add_zero _
  | succ k ih =>
      have hclear := c.refs_clear (a := a) h.tail_lt
      unfold drainReady
      split
      · have hrest := ih (h.set c.tail none).stepTail
        have hsame : (c.set c.tail none).stepTail.refs size a
            = (c.set c.tail none).refs size a := rfl
        dsimp only
        rw [refsOut_cons]
        omega
      · exact Nat.add_zero _

theorem refs_drainOrder (k : ℕ) (h : Sized size b) :
    (drainOrder k b).1.refs size a + refsOut a (drainOrder k b).2 = b.refs size a := by
  induction k generalizing b with
  | zero => exact Nat.add_zero _
  | succ k ih =>
      have hclear := b.orderBuf.refs_clear (a := a) h.orderWF.head_lt
      unfold drainOrder
      cases hget : b.orderBuf.get b.orderBuf.head with
      | none => exact Nat.add_zero _
      | some m =>
          rw [hget] at hclear
          have hrest := ih (b := { b with
              minSeqn := b.minSeqn + 1
              orderBuf := (b.orderBuf.set b.orderBuf.head none).stepHead })
            ⟨h.readyWF, (h.orderWF.set _ _).stepHead⟩
          have hsame : ReorderBuffer.refs size a { b with
              minSeqn := b.minSeqn + 1
              orderBuf := (b.orderBuf.set b.orderBuf.head none).stepHead }
            = (b.orderBuf.set b.orderBuf.head none).refs size a + b.readyBuf.refs size a := rfl
          dsimp only
          rw [refsOut_cons]
          unfold ReorderBuffer.refs at hrest hsame ⊢
          omega

/-- **A drain** hands out what leaves the slots. -/
theorem refs_drain (h : Sized size b) (max : ℕ) :
    (rteReorderDrain b max).1.refs size a + refsOut a (rteReorderDrain b max).2
      = b.refs size a := by
  have hready := refs_drainReady (a := a) max h.readyWF
  have horder := refs_drainOrder (a := a) (max - (drainReady max b.readyBuf).2.length)
    (b := { b with readyBuf := (drainReady max b.readyBuf).1 })
    ⟨drainReady_wf max h.readyWF, h.orderWF⟩
  have hsame : ReorderBuffer.refs size a { b with readyBuf := (drainReady max b.readyBuf).1 }
      = b.orderBuf.refs size a + (drainReady max b.readyBuf).1.refs size a := rfl
  unfold rteReorderDrain
  dsimp only
  rw [refsOut_append]
  have hold : b.refs size a = b.orderBuf.refs size a + b.readyBuf.refs size a := rfl
  omega

theorem refs_drainOffset (k m : ℕ) (i : UInt32) (h : c.WF size) :
    (drainOffset k m i c).1.refs size a + refsOut a (drainOffset k m i c).2.2
      = c.refs size a := by
  induction k generalizing m i c with
  | zero => exact Nat.add_zero _
  | succ k ih =>
      cases m with
      | zero => exact Nat.add_zero _
      | succ m =>
          have hlt : ((c.tail + i) &&& c.mask).toNat < size := by
            rw [h.add_and_mask]
            exact Nat.mod_lt _ h.size_lt.1
          have hclear := c.refs_clear (a := a) hlt
          have hrest := ih m (i + 1) (h.set ((c.tail + i) &&& c.mask) none)
          show (drainOffset k m (i + 1) (c.set ((c.tail + i) &&& c.mask) none)).1.refs size a
            + refsOut a (c.get ((c.tail + i) &&& c.mask)
              :: (drainOffset k m (i + 1) (c.set ((c.tail + i) &&& c.mask) none)).2.2) = _
          rw [refsOut_cons]
          omega

theorem refs_drainPlaces (k m : ℕ) (i : UInt32) (h : c.WF size) :
    (drainPlaces k m i c).1.refs size a + refsOut a (drainPlaces k m i c).2.2
      = c.refs size a := by
  induction k generalizing m i c with
  | zero => exact Nat.add_zero _
  | succ k ih =>
      cases m with
      | zero => exact Nat.add_zero _
      | succ m =>
          have hlt : ((c.head + i) &&& c.mask).toNat < size := by
            rw [h.add_and_mask]
            exact Nat.mod_lt _ h.size_lt.1
          have hclear := c.refs_clear (a := a) hlt
          cases hget : c.get ((c.head + i) &&& c.mask) with
          | none =>
              rw [drainPlaces_none hget]
              exact ih (m + 1) (i + 1) h
          | some mbuf =>
              rw [hget] at hclear
              have hrest := ih m (i + 1) (h.set ((c.head + i) &&& c.mask) none)
              rw [drainPlaces_some hget]
              dsimp only
              rw [refsOut_cons]
              omega

/-- **A drain up to a sequence number** does so too, where it completes. -/
theorem refs_drainUpTo (h : Sized size b) {max : ℕ} {seqn : UInt32} {b' : ReorderBuffer}
    {mbufs : List (Option Mbuf)}
    (hresult : (rteReorderDrainUpToSeqn b max seqn).result = some (b', mbufs)) :
    b'.refs size a + refsOut a mbufs = b.refs size a := by
  unfold rteReorderDrainUpToSeqn at hresult
  split at hresult
  · split at hresult
    · obtain ⟨rfl, rfl⟩ := Prod.mk.inj (Option.some.inj hresult)
      exact Nat.add_zero _
    · split at hresult
      · cases hresult
      · split at hresult
        · obtain ⟨rfl, rfl⟩ := Prod.mk.inj (Option.some.inj hresult)
          exact Nat.add_zero _
        · dsimp only at hresult
          split at hresult
          · cases hresult
          · next offset _ =>
              obtain ⟨rfl, rfl⟩ := Prod.mk.inj (Option.some.inj hresult)
              have hready := refs_drainOffset (a := a) offset.toNat max 0 h.readyWF
              show b.orderBuf.refs size a
                + (drainOffset offset.toNat max 0 b.readyBuf).1.refs size a
                + refsOut a (drainOffset offset.toNat max 0 b.readyBuf).2.2 = _
              unfold ReorderBuffer.refs
              omega
  · obtain ⟨rfl, rfl⟩ := Prod.mk.inj (Option.some.inj hresult)
    have hready := refs_drainReady (a := a) max h.readyWF
    have hplaces := refs_drainPlaces (a := a) (min (seqn - b.minSeqn) b.orderBuf.size).toNat
      (max - (drainReady max b.readyBuf).2.length) 0 h.orderWF
    rw [refsOut_append]
    show (drainPlaces (min (seqn - b.minSeqn) b.orderBuf.size).toNat
        (max - (drainReady max b.readyBuf).2.length) 0 b.orderBuf).1.refs size a
      + (drainReady max b.readyBuf).1.refs size a
      + (refsOut a (drainReady max b.readyBuf).2
        + refsOut a (drainPlaces (min (seqn - b.minSeqn) b.orderBuf.size).toNat
            (max - (drainReady max b.readyBuf).2.length) 0 b.orderBuf).2.2) = _
    unfold ReorderBuffer.refs
    omega

end Slots

end Meili.Reorder
