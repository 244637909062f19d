/-
  Meili.Reorder.Retry — what a failed insert leaves room for.

  An insert that fails with ENOSPC has already moved a part of the window, as far as the
  ready buffer had room.  A drain that takes everything available then leaves the ready
  buffer empty and a gap at the front of the window.

    • The mbuf has not become late: the failed move stops in front of the places it
      needs, and the drain passes at most the window that is left.
    • It can be placed: with an empty ready buffer and a gap in front, there is room
      for all mbufs of the window (`walk_reaches`).
-/
import Meili.Reorder.Reach

namespace Meili.Reorder

open Meili.Lib

/-! ## §1. Walks with enough room. -/

/-- **A walk with room for the whole window** goes as far as it may. -/
theorem walk_reaches (n : ℕ) (w : List (Option Mbuf)) :
    ∀ a f, w.length ≤ f → min n (a + w.length) ≤ (walk n a f w).adv := by
  induction w with
  | nil =>
      intro a f _
      exact Nat.min_le_right _ _
  | cons x w ih =>
      intro a f hf
      rw [List.length_cons] at hf ⊢
      cases x with
      | none =>
          by_cases hlt : a < n
          · -- a gap that is passed
            rw [walk_none ⟨hlt, by omega⟩]
            have hrest := ih (a + 1) f (by omega)
            omega
          · rw [walk_stop rfl (fun h => hlt h.1)]
            show min n (a + (w.length + 1)) ≤ a
            omega
      | some m =>
          rw [walk_some (by omega)]
          have hrest := ih (a + 1) (f - 1) (by omega)
          dsimp only
          omega

/-- A front that is shorter than its limit ends at a gap. -/
theorem leading_gap {k : ℕ} {w : List (Option Mbuf)} (h : (leading k w).length < k) :
    w[(leading k w).length]?.join = none := by
  induction w generalizing k with
  | nil => rw [List.getElem?_nil, Option.join_none]
  | cons x w ih =>
      cases k with
      | zero => exact absurd h (Nat.not_lt_zero _)
      | succ k =>
          cases x with
          | none => rfl
          | some m =>
              simp only [leading, List.length_cons] at h ⊢
              rw [List.getElem?_cons_succ]
              exact ih (by omega)

namespace Resequencer

/-- Nothing is ready, and the window starts with a gap. -/
structure Drained (q : Resequencer) : Prop where
  ready : q.ready = []
  gap : q.window[0]?.join = none

/-- With a large limit a drain takes all there is. -/
theorem drained_of_le {q : Resequencer} {max : ℕ} (hpos : 0 < q.window.length)
    (hready : q.ready.length < q.window.length) (hmax : 2 * q.window.length ≤ max) :
    (q.drain max).1.Drained := by
  have hle := (leading_length_le (max - q.ready.length) q.window).2
  refine ⟨List.drop_of_length_le (by omega), ?_⟩
  show (slide q.window (leading (max - q.ready.length) q.window).length)[0]?.join = none
  rw [slide_eq_cons hpos hle, List.getElem?_cons_zero, Option.join_some]
  exact leading_gap (by omega)

/-- A drained resequencer has room for everything in its window. -/
theorem Drained.fillWalk_adv {q : Resequencer} (h : q.Drained) (hsize : 2 ≤ q.window.length)
    {n : ℕ} (hpos : 0 < n) (hn : n ≤ q.window.length) : n ≤ (q.fillWalk n).adv := by
  have hfree : q.free = q.window.length - 1 := by
    rw [free, h.ready]
    rfl
  obtain ⟨x, w, hw⟩ := List.exists_cons_of_length_pos (by omega : 0 < q.window.length)
  obtain rfl : x = none := by
    have hgap := h.gap
    rw [hw] at hgap
    simpa using hgap
  have hlen : q.window.length = w.length + 1 := by rw [hw, List.length_cons]
  have hreach := walk_reaches n w 1 q.free (by omega)
  unfold fillWalk
  rw [if_neg (by omega), hw, walk_none ⟨hpos, by omega⟩, Nat.zero_add]
  omega

/-- How far ahead `m` is, once `min_seqn` has moved by `k`. -/
theorem offset_moved {q q' : Resequencer} {m : Mbuf} {k : ℕ}
    (hmin : q'.minSeqn = q.minSeqn + UInt32.ofNat k) (hk : k ≤ q.offset m) :
    q'.offset m = q.offset m - k := by
  have hlt : q.offset m < 2 ^ 32 := (m.seqn - q.minSeqn).toNat_lt
  have hsmall : (UInt32.ofNat k).toNat = k := uint32_toNat_ofNat (by omega)
  have hsub : m.seqn - q'.minSeqn = m.seqn - q.minSeqn - UInt32.ofNat k := by
    rw [hmin]
    grind
  show (m.seqn - q'.minSeqn).toNat = _
  rw [hsub, UInt32.toNat_sub_of_le, hsmall]
  · rfl
  · rw [UInt32.le_iff_toNat_le, hsmall]
    exact hk

/-! ## §2. What an insert returns. -/

/-- ENOSPC: the window was moved, but not far enough. -/
theorem insert_enospc {q : Resequencer} {m : Mbuf} (h : (q.insert m).2 = some .ENOSPC) :
    q.window.length ≤ q.offset m ∧ q.offset m < q.twice
      ∧ (q.fillWalk (q.offset m + 1 - q.window.length)).adv < q.offset m + 1 - q.window.length
      ∧ (q.insert m).1 = q.fill (q.offset m + 1 - q.window.length) := by
  unfold insert at h ⊢
  dsimp only at h ⊢
  split at h
  · exact absurd h (by simp)
  next hin =>
    split at h
    next hnear =>
      split at h
      next hshort =>
        rw [if_neg hin, if_pos hnear, if_pos hshort]
        exact ⟨Nat.le_of_not_lt hin, hnear, hshort, rfl⟩
      · exact absurd h (by simp)
    · exact absurd h (by simp)

/-- **Where an accepted mbuf is**: in the place of its sequence number. -/
theorem insert_placed {q : Resequencer} {m : Mbuf} (h : (q.insert m).2 = none) :
    (q.insert m).1.offset m < q.window.length
      ∧ (q.insert m).1.window[(q.insert m).1.offset m]? = some (some m) := by
  have hwalk := q.fillWalk_adv_le (q.offset m + 1 - q.window.length)
  unfold insert at h ⊢
  dsimp only at h ⊢
  split at h
  next hin =>
    rw [if_pos hin]
    exact ⟨hin, List.getElem?_set_self hin⟩
  next hin =>
    split at h
    next hnear =>
      split at h
      · exact absurd h (by simp)
      next hshort =>
        rw [if_neg hin, if_pos hnear, if_neg hshort]
        -- the window starts `adv` places later, and so does the offset
        have hoff : ({ q.fill (q.offset m + 1 - q.window.length) with
              window := (q.fill (q.offset m + 1 - q.window.length)).window.set
                (q.offset m - (q.fillWalk (q.offset m + 1 - q.window.length)).adv) (some m) } :
              Resequencer).offset m
            = q.offset m - (q.fillWalk (q.offset m + 1 - q.window.length)).adv :=
          offset_moved rfl (by omega)
        rw [hoff]
        have hlen : (q.fill (q.offset m + 1 - q.window.length)).window.length = q.window.length :=
          slide_length hwalk
        refine ⟨by omega, List.getElem?_set_self ?_⟩
        rw [hlen]
        omega
    · exact absurd h (by simp)

/-- With room for everything in the window, an mbuf that is not twice as far ahead is
accepted. -/
theorem Drained.insert {q : Resequencer} (h : q.Drained) (hsize : 2 ≤ q.window.length)
    {m : Mbuf} (hoff : q.offset m < 2 * q.window.length)
    (htwice : q.twice = 2 * q.window.length) : (q.insert m).2 = none := by
  unfold Resequencer.insert
  dsimp only
  split
  · rfl
  next hin =>
    have hreach := h.fillWalk_adv hsize (n := q.offset m + 1 - q.window.length) (by omega)
      (by omega)
    rw [if_pos (by omega), if_neg (by omega)]

/-- **The retry.**  After ENOSPC and a drain that took everything, the insert succeeds. -/
theorem insert_retry {q : Resequencer} {m : Mbuf} {max : ℕ} (hsize : 2 ≤ q.window.length)
    (htwice : q.twice = 2 * q.window.length) (hfail : (q.insert m).2 = some .ENOSPC)
    (hdrained : ((q.insert m).1.drain max).1.Drained) :
    (((q.insert m).1.drain max).1.insert m).2 = none := by
  obtain ⟨hin, hnear, hshort, hfill⟩ := insert_enospc hfail
  rw [hfill] at hdrained ⊢
  generalize hn : q.offset m + 1 - q.window.length = n at *
  have hwalk := q.fillWalk_adv_le n
  have hlen : (q.fill n).window.length = q.window.length := slide_length hwalk
  have hfront := (leading_length_le (max - (q.fill n).ready.length) (q.fill n).window).2
  -- the failed move ends in front of the places that are needed, so `m` is not late
  have hmoved : (q.fill n).offset m = q.offset m - (q.fillWalk n).adv :=
    offset_moved rfl (by omega)
  have hoff : ((q.fill n).drain max).1.offset m = (q.fill n).offset m
      - (leading (max - (q.fill n).ready.length) (q.fill n).window).length :=
    offset_moved rfl (by omega)
  have hlen' : ((q.fill n).drain max).1.window.length = q.window.length := by
    show (slide (q.fill n).window _).length = _
    rw [slide_length hfront, hlen]
  have htwice' : ((q.fill n).drain max).1.twice = 2 * ((q.fill n).drain max).1.window.length := by
    unfold twice at htwice ⊢
    rw [hlen']
    exact htwice
  exact hdrained.insert (by omega) (by omega) htwice'

end Resequencer

/-! ## §3. The source. -/

/-- Nothing more can be drained: the ready buffer is empty, and the entry at the order
head is NULL. -/
def NothingAvailable (b : ReorderBuffer) : Prop :=
  b.readyBuf.tail = b.readyBuf.head ∧ b.orderBuf.get b.orderBuf.head = none

/-- `m` is in the slot of `order_buf` that belongs to its sequence number. -/
def InItsSlot (b : ReorderBuffer) (m : Mbuf) : Prop :=
  let offset := m.seqn - b.minSeqn
  offset < b.orderBuf.size
    ∧ b.orderBuf.get ((b.orderBuf.head + offset) &&& b.orderBuf.mask) = some m

section Source

variable {size : ℕ} {b : ReorderBuffer} {q : Resequencer}

theorem Refines.get_place (h : Refines size b q) {offset : UInt32} (hlt : offset.toNat < size) :
    q.window[offset.toNat]? = some (b.orderBuf.get ((b.orderBuf.head + offset) &&& b.orderBuf.mask))
    := by
  rw [← h.window]
  show (Lib.window size b.orderBuf.head.toNat b.orderBuf.entries)[offset.toNat]? = _
  rw [window_getElem? _ hlt, CirBuffer.get, h.orderWF.add_and_mask]

theorem Holds.nothingAvailable_iff (h : Holds size b q) : NothingAvailable b ↔ q.Drained := by
  have href := h.refines
  have hready : b.readyBuf.tail = b.readyBuf.head ↔ q.ready = [] := by
    have hiff := href.readyWF.empty_iff
    rw [href.ready] at hiff
    rw [List.map_eq_nil_iff] at hiff
    exact hiff
  have hgap : q.window[0]?.join = b.orderBuf.get b.orderBuf.head := by
    rw [href.get_head]
    rfl
  constructor
  · intro h
    obtain ⟨hr, hg⟩ := h
    exact ⟨hready.mp hr, hgap.trans hg⟩
  · intro hd
    exact ⟨hready.mpr hd.ready, hgap.symm.trans hd.gap⟩

end Source

/-- **ENOSPC is recoverable.**  For every power-of-two buffer size from 2 to 2^30 and
every reachable buffer in which the insert of `m` fails with ENOSPC: a drain whose limit
is twice the buffer size takes everything available, and after every drain that takes
everything available the insert of `m` succeeds and puts it in the slot of its sequence
number. -/
theorem enospc_recoverable (size : UInt32) (b : ReorderBuffer) (m : Mbuf)
    (hlo : 2 ≤ size.toNat) (hhi : size.toNat ≤ 2 ^ 30) (hb : BufferReachable size b)
    (hfail : (rteReorderInsert b (some m)).2 = some .ENOSPC) :
    (∀ max, 2 * size.toNat ≤ max →
        NothingAvailable (rteReorderDrain (rteReorderInsert b (some m)).1 max).1)
      ∧ ∀ max, NothingAvailable (rteReorderDrain (rteReorderInsert b (some m)).1 max).1 →
          let retry := rteReorderInsert (rteReorderDrain (rteReorderInsert b (some m)).1 max).1
            (some m)
          retry.2 = none ∧ InItsSlot retry.1 m := by
  obtain ⟨q₀, hq₀⟩ := hb.holds
  -- the failing insert, in terms of lists
  generalize hq : q₀.startAt b m = q
  have href := hq₀.startAt m
  obtain ⟨hins, hret⟩ := hq₀.insert m
  rw [hq] at href hins hret
  have hlen := href.window_length
  have hinslen := hins.window_length
  have hinsready := hins.ready_length
  have hdrain := fun max => (hins.holds.drain max).1
  refine ⟨fun max hmax => ?_, fun max hall => ?_⟩
  · rw [(hdrain max).nothingAvailable_iff]
    exact Resequencer.drained_of_le (by omega) (by omega) (by omega)
  · have hdrained := (hdrain max).nothingAvailable_iff.mp hall
    have htwice : q.twice = 2 * q.window.length := by
      unfold Resequencer.twice
      exact Nat.mod_eq_of_lt (by omega)
    have hok := Resequencer.insert_retry (by omega) htwice (hret.symm.trans hfail) hdrained
    -- an initialised buffer stays initialised, so the retry starts where the drain ended
    have hretry := rteReorderInsert_refines
      ((hdrain max).initialized
        ((rteReorderDrain_initialized _ max).2.trans hins.initialized)) m
    dsimp only
    refine ⟨hretry.2.trans hok, ?_⟩
    obtain ⟨hlt, hplace⟩ := Resequencer.insert_placed hok
    have hlen' := (hdrain max).refines.window_length
    have hoff : (m.seqn - (rteReorderInsert (rteReorderDrain (rteReorderInsert b (some m)).1 max).1
        (some m)).1.minSeqn).toNat = (((q.insert m).1.drain max).1.insert m).1.offset m := by
      rw [hretry.1.minSeqn]
      rfl
    refine ⟨?_, ?_⟩
    · rw [UInt32.lt_iff_toNat_lt, hretry.1.orderWF.size_eq, hoff]
      omega
    · rw [← hoff, hretry.1.get_place (by rw [hoff]; omega)] at hplace
      exact Option.some.inj hplace

/-- A buffer with 2 places that has got packet 0. -/
def onePacket : ReorderBuffer :=
  (rteReorderInsert ((rteReorderCreate 2).get (by decide)) (some (pkt 0))).1

/-- Packet 3 needs both places: packet 0 fills the ready buffer, and the insert fails.  A
drain of 4 takes packet 0, and the retry succeeds. -/
theorem onePacket_recovers :
    (rteReorderInsert onePacket (some (pkt 3))).2 = some .ENOSPC
      ∧ (rteReorderInsert (rteReorderDrain (rteReorderInsert onePacket (some (pkt 3))).1 4).1
          (some (pkt 3))).2 = none
      ∧ InItsSlot (rteReorderInsert
          (rteReorderDrain (rteReorderInsert onePacket (some (pkt 3))).1 4).1 (some (pkt 3))).1
          (pkt 3) := by
  have hfail : (rteReorderInsert onePacket (some (pkt 3))).2 = some .ENOSPC := by decide +kernel
  have hreach : BufferReachable 2 onePacket :=
    ⟨_, (Option.some_get _).symm, .single (.insert _ _)⟩
  obtain ⟨hall, hretry⟩ :=
    enospc_recoverable 2 onePacket (pkt 3) (by decide) (by decide) hreach hfail
  exact ⟨hfail, hretry 4 (hall 4 (by decide))⟩

end Meili.Reorder
