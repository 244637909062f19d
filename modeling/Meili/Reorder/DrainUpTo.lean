/-
  Meili.Reorder.DrainUpTo — `rte_reorder_drain_up_to_seqn`.

  The mbufs before a sequence number leave the buffer.  The source asks first whether the
  number is below `min_seqn`: then it looks in the ready buffer only, by a binary search;
  otherwise it empties the ready buffer and scans the window.

    • `seqnFindLoop_eq`, `CirBuffer.WF.readyBufferSeqnFind_eq` — the loop is a binary search;
    • `drainOffset_spec`, `drainPlaces_spec` — the loops that fetch;
    • `Holds.drainUpTo_order`, `Holds.drainUpTo_none`, `Holds.drainUpTo_found` — what the
      drain does with the resequencer that the buffer holds.
-/
import Meili.Lib.Bisect
import Meili.Reorder.Positions

namespace Meili.Reorder

open Meili.Lib

/-! ## §1. The source. -/

/-- The ready entries that `ready_buffer_seqn_find` reads, and its result; `none` behind an
access through NULL. -/
structure SeqnFind where
  reads : List UInt32
  offset : Option UInt32

/-- The loop of `ready_buffer_seqn_find`, with so many iterations at most. -/
def seqnFindLoop (readyBuf : CirBuffer) (seqn : UInt32) : ℕ → UInt32 → UInt32 → SeqnFind
  | 0, _, _ => ⟨[], none⟩
  | k + 1, low, high =>
      if low ≤ high then
        let mid := low + (high - low) / 2
        let position := (readyBuf.tail + mid) &&& readyBuf.mask
        match readyBuf.get position with
        | none => ⟨[position], none⟩
        | some mbuf =>
            if seqn = mbuf.seqn then ⟨[position], some mid⟩
            else if seqn > mbuf.seqn then
              let find := seqnFindLoop readyBuf seqn k (mid + 1) high
              { find with reads := position :: find.reads }
            else
              let find := seqnFindLoop readyBuf seqn k low (mid - 1)
              { find with reads := position :: find.reads }
      else ⟨[], some low⟩

/-- `high` before the first iteration. -/
def seqnFindHigh (readyBuf : CirBuffer) : UInt32 :=
  if readyBuf.tail > readyBuf.head then readyBuf.tail - readyBuf.head
  else readyBuf.head - readyBuf.tail

/-- `ready_buffer_seqn_find(ready_buf, seqn)`.  Every iteration halves the range of 2^32
values. -/
def readyBufferSeqnFind (readyBuf : CirBuffer) (seqn : UInt32) : SeqnFind :=
  seqnFindLoop readyBuf seqn 34 0 (seqnFindHigh readyBuf)

/-- The loop over the entries before the offset, with `i` and what it fetches. -/
def drainOffset : ℕ → ℕ → UInt32 → CirBuffer → CirBuffer × UInt32 × List (Option Mbuf)
  | k + 1, m + 1, i, readyBuf =>
      let position := (readyBuf.tail + i) &&& readyBuf.mask
      let mbuf := readyBuf.get position
      let (readyBuf, i, mbufs) := drainOffset k m (i + 1) (readyBuf.set position none)
      (readyBuf, i, mbuf :: mbufs)
  | _, _, i, readyBuf => (readyBuf, i, [])

/-- The loop over the places of the order buffer, with `i` and what it fetches. -/
def drainPlaces : ℕ → ℕ → UInt32 → CirBuffer → CirBuffer × UInt32 × List (Option Mbuf)
  | k + 1, m + 1, i, orderBuf =>
      let position := (orderBuf.head + i) &&& orderBuf.mask
      match orderBuf.get position with
      | none => drainPlaces k (m + 1) (i + 1) orderBuf
      | some mbuf =>
          let (orderBuf, i, mbufs) := drainPlaces k m (i + 1) (orderBuf.set position none)
          (orderBuf, i, some mbuf :: mbufs)
  | _, _, i, orderBuf => (orderBuf, i, [])

/-- The entry `i` places behind the tail. -/
def slotAt (readyBuf : CirBuffer) (i : ℕ) : UInt32 :=
  (readyBuf.tail + UInt32.ofNat i) &&& readyBuf.mask

/-- The first `n` entries from the tail on. -/
def slotsFrom (readyBuf : CirBuffer) (n : ℕ) : List UInt32 :=
  (List.range n).map (slotAt readyBuf)

/-- The ready entries that a drain reads, the buffer it leaves, and the pointers written to
`mbufs`; `none` behind an access through NULL. -/
structure DrainUpTo where
  reads : List UInt32
  result : Option (ReorderBuffer × List (Option Mbuf))

/-- `rte_reorder_drain_up_to_seqn(b, mbufs, max_mbufs, seqn)`. -/
def rteReorderDrainUpToSeqn (b : ReorderBuffer) (maxMbufs : ℕ) (seqn : UInt32) : DrainUpTo :=
  if seqn < b.minSeqn then
    if b.readyBuf.tail = b.readyBuf.head then ⟨[], some (b, [])⟩
    else
      match b.readyBuf.get b.readyBuf.tail with
      | none => ⟨[b.readyBuf.tail], none⟩
      | some mbuf =>
          if mbuf.seqn > seqn then ⟨[b.readyBuf.tail], some (b, [])⟩
          else
            let find := readyBufferSeqnFind b.readyBuf seqn
            match find.offset with
            | none => ⟨b.readyBuf.tail :: find.reads, none⟩
            | some offset =>
                let (readyBuf, i, mbufs) := drainOffset offset.toNat maxMbufs 0 b.readyBuf
                let readyBuf := { readyBuf with tail := (readyBuf.tail + i) &&& readyBuf.mask }
                ⟨b.readyBuf.tail :: find.reads ++ slotsFrom b.readyBuf i.toNat,
                  some ({ b with readyBuf := readyBuf }, mbufs)⟩
  else
    let (readyBuf, ready) := drainReady maxMbufs b.readyBuf
    let offset := min (seqn - b.minSeqn) b.orderBuf.size
    let (orderBuf, i, ordered) :=
      drainPlaces offset.toNat (maxMbufs - ready.length) 0 b.orderBuf
    let orderBuf := { orderBuf with head := (orderBuf.head + i) &&& orderBuf.mask }
    ⟨slotsFrom b.readyBuf ready.length,
      some ({ b with minSeqn := b.minSeqn + i, readyBuf := readyBuf, orderBuf := orderBuf },
        ready ++ ordered)⟩

/-! ## §2. Contents and entries. -/

/-- The mbufs of the ready buffer, from its tail on. -/
def queued (b : ReorderBuffer) : List Mbuf := (readySlots b).reduceOption

/-- All mbufs of `b`, in the order of the stream. -/
def buffered (b : ReorderBuffer) : List Mbuf :=
  queued b ++ (b.orderBuf.places b.orderBuf.size.toNat).reduceOption

/-- An entry of the ready buffer that is in use. -/
def LiveSlot (b : ReorderBuffer) (position : UInt32) : Prop :=
  ∃ i, i < (readySlots b).length
    ∧ position.toNat = (b.readyBuf.tail.toNat + i) % b.readyBuf.size.toNat

/-! ## §3. The binary search. -/

section Search

variable {readyBuf : CirBuffer} {seqn : UInt32}

/-- How `seqn` compares with the number `i` places behind the tail. -/
def seqnCmp (readyBuf : CirBuffer) (seqn : UInt32) (i : ℕ) : Option Ordering :=
  (readyBuf.get (slotAt readyBuf i)).map fun mbuf =>
    if seqn = mbuf.seqn then .eq else if seqn > mbuf.seqn then .gt else .lt

theorem seqnFind_mid {low high : UInt32} {len : ℕ} (hlen : len ≠ 0)
    (hrange : high.toNat + 1 = low.toNat + len) :
    (low + (high - low) / 2).toNat = low.toNat + (len - 1) / 2 := by
  have hlt := high.toNat_lt
  have hle : low ≤ high := by
    rw [UInt32.le_iff_toNat_le]
    omega
  rw [UInt32.toNat_add, UInt32.toNat_div, UInt32.toNat_sub_of_le _ _ hle]
  show (low.toNat + (high.toNat - low.toNat) / 2) % 2 ^ 32 = _
  omega

/-- Behind the last place the loop ends. -/
theorem seqnFindLoop_empty (k : ℕ) {low high : UInt32} (hrange : high.toNat + 1 = low.toNat) :
    seqnFindLoop readyBuf seqn (k + 1) low high
      = ⟨(bisect (seqnCmp readyBuf seqn) low.toNat 0).probes.map (slotAt readyBuf),
        (bisect (seqnCmp readyBuf seqn) low.toNat 0).result.map UInt32.ofNat⟩ := by
  have hle : ¬ low ≤ high := by
    rw [UInt32.le_iff_toNat_le]
    omega
  rw [seqnFindLoop, if_neg hle, bisect_zero, Option.map_some, UInt32.ofNat_toNat]
  rfl

/-- **The loop is a binary search**: the number at the tail is not too large, so that `high`
stays a number. -/
theorem seqnFindLoop_eq (hfirst : seqnCmp readyBuf seqn 0 ≠ some .lt) :
    ∀ (k : ℕ) (low high : UInt32) (len : ℕ), len < 2 ^ k →
      high.toNat + 1 = low.toNat + len → high.toNat + 1 < 2 ^ 32 →
      seqnFindLoop readyBuf seqn (k + 1) low high
        = ⟨(bisect (seqnCmp readyBuf seqn) low.toNat len).probes.map (slotAt readyBuf),
          (bisect (seqnCmp readyBuf seqn) low.toNat len).result.map UInt32.ofNat⟩ := by
  intro k
  induction k with
  | zero =>
      intro low high len hlen hrange hhigh
      obtain rfl : len = 0 := by omega
      exact seqnFindLoop_empty 0 hrange
  | succ k ih =>
      intro low high len hlen hrange hhigh
      by_cases hzero : len = 0
      · subst hzero
        exact seqnFindLoop_empty (k + 1) hrange
      · have hle : low ≤ high := by
          rw [UInt32.le_iff_toNat_le]
          omega
        have hmid := seqnFind_mid hzero hrange
        generalize hm : low + (high - low) / 2 = mid at hmid
        have hslot : (readyBuf.tail + mid) &&& readyBuf.mask = slotAt readyBuf mid.toNat := by
          rw [slotAt, UInt32.ofNat_toNat]
        rw [seqnFindLoop, if_pos hle]
        simp only [hm, hslot]
        cases hget : readyBuf.get (slotAt readyBuf mid.toNat) with
        | none =>
            have hcmp : seqnCmp readyBuf seqn mid.toNat = none := by simp [seqnCmp, hget]
            rw [bisect_none hzero hmid hcmp]
            rfl
        | some mbuf =>
            have hcmp : seqnCmp readyBuf seqn mid.toNat = some
                (if seqn = mbuf.seqn then .eq else if seqn > mbuf.seqn then .gt else .lt) := by
              simp only [seqnCmp, hget, Option.map_some]
            by_cases heq : seqn = mbuf.seqn
            · rw [if_pos heq] at hcmp
              simp only [if_pos heq]
              rw [bisect_eq hzero hmid hcmp, Option.map_some, UInt32.ofNat_toNat]
              rfl
            · by_cases hgt : seqn > mbuf.seqn
              · rw [if_neg heq, if_pos hgt] at hcmp
                have hnext : (mid + 1).toNat = mid.toNat + 1 := by
                  rw [UInt32.toNat_add, UInt32.toNat_one]
                  exact Nat.mod_eq_of_lt (by omega)
                simp only [if_neg heq, if_pos hgt]
                rw [bisect_gt hzero hmid hcmp,
                  ih (mid + 1) high (len / 2) (by omega) (by omega) hhigh, hnext]
                rfl
              · rw [if_neg heq, if_neg hgt] at hcmp
                have hpos : mid.toNat ≠ 0 := by
                  intro hmid0
                  rw [hmid0] at hcmp
                  exact hfirst hcmp
                have hprev : (mid - 1).toNat = mid.toNat - 1 := by
                  rw [UInt32.toNat_sub_of_le, UInt32.toNat_one]
                  rw [UInt32.le_iff_toNat_le, UInt32.toNat_one]
                  omega
                simp only [if_neg heq, if_neg hgt]
                rw [bisect_lt hzero hmid hcmp,
                  ih low (mid - 1) ((len - 1) / 2) (by omega) (by omega) (by omega)]
                rfl

end Search

/-! ## §4. The two loops that fetch. -/

/-- One place of the window after the other, `k` at most and `m` mbufs at most: the number of
places passed, and the mbufs. -/
def fetch : ℕ → ℕ → List (Option Mbuf) → ℕ × List Mbuf
  | k + 1, m + 1, none :: w => ((fetch k (m + 1) w).1 + 1, (fetch k (m + 1) w).2)
  | k + 1, m + 1, some mbuf :: w => ((fetch k m w).1 + 1, mbuf :: (fetch k m w).2)
  | _, _, _ => (0, [])

theorem fetch_none (k m : ℕ) (w : List (Option Mbuf)) :
    fetch (k + 1) (m + 1) (none :: w) = ((fetch k (m + 1) w).1 + 1, (fetch k (m + 1) w).2) := by
  rw [fetch]

theorem fetch_some (k m : ℕ) (mbuf : Mbuf) (w : List (Option Mbuf)) :
    fetch (k + 1) (m + 1) (some mbuf :: w) = ((fetch k m w).1 + 1, mbuf :: (fetch k m w).2) := by
  rw [fetch]

theorem fetch_stop {k m : ℕ} (h : k = 0 ∨ m = 0) (w : List (Option Mbuf)) :
    fetch k m w = (0, []) := by
  rcases h with rfl | rfl
  · simp [fetch]
  · cases k <;> rfl

theorem fetch_nil (k m : ℕ) : fetch k m [] = (0, []) := by
  cases k <;> cases m <;> rfl

/-- **What is fetched**: the first `m` mbufs of the first `k` places. -/
theorem fetch_spec (w : List (Option Mbuf)) :
    ∀ k m, (fetch k m w).1 ≤ k ∧ (fetch k m w).1 ≤ w.length
      ∧ (fetch k m w).2 = (w.take (fetch k m w).1).reduceOption
      ∧ (fetch k m w).2 = ((w.take k).reduceOption).take m := by
  induction w with
  | nil => intro k m; simp [fetch_nil]
  | cons x w ih =>
      intro k m
      cases k with
      | zero => simp [fetch_stop]
      | succ k =>
          cases m with
          | zero => simp [fetch_stop]
          | succ m =>
              cases x with
              | none =>
                  obtain ⟨hk, hw, htake, hfirst⟩ := ih k (m + 1)
                  rw [fetch_none]
                  refine ⟨by simpa using hk, by simpa using hw, ?_, ?_⟩
                  · simpa [List.reduceOption_cons_of_none] using htake
                  · simpa [List.reduceOption_cons_of_none] using hfirst
              | some mbuf =>
                  obtain ⟨hk, hw, htake, hfirst⟩ := ih k m
                  rw [fetch_some]
                  refine ⟨by simpa using hk, by simpa using hw, ?_, ?_⟩
                  · simpa [List.reduceOption_cons_of_some] using htake
                  · simpa [List.reduceOption_cons_of_some] using hfirst

/-- Places behind the first `k` do not matter. -/
theorem fetch_append {k m : ℕ} {w : List (Option Mbuf)} (hk : k ≤ w.length)
    (w' : List (Option Mbuf)) : fetch k m (w ++ w') = fetch k m w := by
  induction w generalizing k m with
  | nil =>
      obtain rfl : k = 0 := by simpa using hk
      rw [fetch_stop (Or.inl rfl), fetch_stop (Or.inl rfl)]
  | cons x w ih =>
      cases k with
      | zero => rw [fetch_stop (Or.inl rfl), fetch_stop (Or.inl rfl)]
      | succ k =>
          have hle : k ≤ w.length := by simpa using hk
          cases m with
          | zero => rw [fetch_stop (Or.inr rfl), fetch_stop (Or.inr rfl)]
          | succ m =>
              cases x with
              | none => rw [List.cons_append, fetch_none, fetch_none, ih hle]
              | some mbuf => rw [List.cons_append, fetch_some, fetch_some, ih hle]

section Loops

variable {size : ℕ}

/-- A mask that is applied once more. -/
theorem CirBuffer.WF.and_mask_add_one {c : CirBuffer} (h : c.WF size) (x i : UInt32) :
    (((x + i) &&& c.mask) + 1) &&& c.mask = (x + (i + 1)) &&& c.mask := by
  apply UInt32.toNat.inj
  rw [h.add_and_mask, h.and_mask, Nat.mod_add_mod, ← UInt32.add_assoc, h.add_and_mask]

theorem add_one_add_ofNat (i : UInt32) (n : ℕ) :
    i + 1 + UInt32.ofNat n = i + UInt32.ofNat (n + 1) := by
  rw [UInt32.ofNat_add, UInt32.add_assoc, UInt32.add_comm 1]
  rfl

/-- The tail `i` places further on. -/
def CirBuffer.tailOn (c : CirBuffer) (i : UInt32) : CirBuffer :=
  { c with tail := (c.tail + i) &&& c.mask }

/-- The head `i` places further on. -/
def CirBuffer.headOn (c : CirBuffer) (i : UInt32) : CirBuffer :=
  { c with head := (c.head + i) &&& c.mask }

/-- One place further on is the next place. -/
theorem CirBuffer.tailOn_add_one {c : CirBuffer} {i : UInt32} (h : (c.tailOn i).WF size) :
    c.tailOn (i + 1) = (c.tailOn i).stepTail := by
  have htail : (c.tail + (i + 1)) &&& c.mask = (((c.tail + i) &&& c.mask) + 1) &&& c.mask :=
    (h.and_mask_add_one c.tail i).symm
  show ({ c with tail := (c.tail + (i + 1)) &&& c.mask } : CirBuffer) = _
  rw [htail]
  rfl

theorem CirBuffer.headOn_add_one {c : CirBuffer} {i : UInt32} (h : (c.headOn i).WF size) :
    c.headOn (i + 1) = (c.headOn i).stepHead := by
  have hhead : (c.head + (i + 1)) &&& c.mask = (((c.head + i) &&& c.mask) + 1) &&& c.mask :=
    (h.and_mask_add_one c.head i).symm
  show ({ c with head := (c.head + (i + 1)) &&& c.mask } : CirBuffer) = _
  rw [hhead]
  rfl

theorem CirBuffer.WF.tailOn_zero {c : CirBuffer} (h : c.WF size) : c.tailOn 0 = c := by
  have htail : (c.tail + 0) &&& c.mask = c.tail := by
    apply UInt32.toNat.inj
    rw [UInt32.add_zero, h.and_mask, Nat.mod_eq_of_lt h.tail_lt]
  show ({ c with tail := (c.tail + 0) &&& c.mask } : CirBuffer) = c
  rw [htail]

theorem CirBuffer.WF.headOn_zero {c : CirBuffer} (h : c.WF size) : c.headOn 0 = c := by
  have hhead : (c.head + 0) &&& c.mask = c.head := by
    apply UInt32.toNat.inj
    rw [UInt32.add_zero, h.and_mask, Nat.mod_eq_of_lt h.head_lt]
  show ({ c with head := (c.head + 0) &&& c.mask } : CirBuffer) = c
  rw [hhead]

/-- **The first `k` entries leave the queue.** -/
theorem drainOffset_spec :
    ∀ (k m : ℕ) (i : UInt32) (c : CirBuffer) (ready : List Mbuf), (c.tailOn i).WF size →
      (c.tailOn i).queue size = ready.map some → k ≤ ready.length →
      ((drainOffset k m i c).1.tailOn (drainOffset k m i c).2.1).WF size
        ∧ ((drainOffset k m i c).1.tailOn (drainOffset k m i c).2.1).queue size
            = (ready.drop (min k m)).map some
        ∧ (drainOffset k m i c).2.1 = i + UInt32.ofNat (min k m)
        ∧ (drainOffset k m i c).2.2 = (ready.take (min k m)).map some := by
  intro k
  induction k with
  | zero =>
      intro m i c ready hc hqueue hk
      rw [Nat.zero_min]
      exact ⟨hc, hqueue, (UInt32.add_zero i).symm, rfl⟩
  | succ k ih =>
      intro m i c ready hc hqueue hk
      cases m with
      | zero => exact ⟨hc, hqueue, (UInt32.add_zero i).symm, rfl⟩
      | succ m =>
          cases ready with
          | nil => exact absurd hk (by simp)
          | cons mbuf ready =>
              have hne : (c.tailOn i).tail ≠ (c.tailOn i).head := by
                intro hmeet
                rw [hc.empty_iff.mp hmeet] at hqueue
                exact absurd hqueue (by simp)
              have hpop := hc.queue_pop none hne
              rw [hqueue, List.map_cons] at hpop
              obtain ⟨hmbuf, hrest⟩ := List.cons.inj hpop
              -- the next entry is the one behind
              have hnext : (c.set ((c.tail + i) &&& c.mask) none).tailOn (i + 1)
                  = ((c.tailOn i).set (c.tailOn i).tail none).stepTail :=
                congrArg (fun o : CirBuffer => o.set ((c.tail + i) &&& c.mask) none)
                  (CirBuffer.tailOn_add_one hc)
              obtain ⟨hwf, hq, hi, hout⟩ :=
                ih m (i + 1) (c.set ((c.tail + i) &&& c.mask) none) ready
                  (hnext ▸ (hc.set _ none).stepTail) (hnext ▸ hrest.symm) (by simpa using hk)
              rw [drainOffset, Nat.succ_min_succ]
              refine ⟨hwf, hq, ?_, ?_⟩
              · exact hi.trans (add_one_add_ofNat i (min k m))
              · rw [List.take_succ_cons, List.map_cons, hmbuf, ← hout]
                rfl

theorem drainPlaces_none {k m : ℕ} {i : UInt32} {c : CirBuffer}
    (hget : c.get ((c.head + i) &&& c.mask) = none) :
    drainPlaces (k + 1) (m + 1) i c = drainPlaces k (m + 1) (i + 1) c := by
  rw [drainPlaces]
  simp only [hget]

theorem drainPlaces_some {k m : ℕ} {i : UInt32} {c : CirBuffer} {mbuf : Mbuf}
    (hget : c.get ((c.head + i) &&& c.mask) = some mbuf) :
    drainPlaces (k + 1) (m + 1) i c
      = ((drainPlaces k m (i + 1) (c.set ((c.head + i) &&& c.mask) none)).1,
        (drainPlaces k m (i + 1) (c.set ((c.head + i) &&& c.mask) none)).2.1,
        some mbuf :: (drainPlaces k m (i + 1) (c.set ((c.head + i) &&& c.mask) none)).2.2) := by
  rw [drainPlaces]
  simp only [hget]

/-- **The places that `fetch` passes leave the window.** -/
theorem drainPlaces_spec :
    ∀ (k m : ℕ) (i : UInt32) (c : CirBuffer) (w : List (Option Mbuf)), (c.headOn i).WF size →
      (c.headOn i).places size = w → k ≤ size →
      ((drainPlaces k m i c).1.headOn (drainPlaces k m i c).2.1).WF size
        ∧ ((drainPlaces k m i c).1.headOn (drainPlaces k m i c).2.1).places size
            = slide w (fetch k m w).1
        ∧ (drainPlaces k m i c).2.1 = i + UInt32.ofNat (fetch k m w).1
        ∧ (drainPlaces k m i c).2.2 = (fetch k m w).2.map some := by
  intro k
  induction k with
  | zero =>
      intro m i c w hc hplaces hk
      rw [fetch_stop (Or.inl rfl), slide_zero]
      exact ⟨hc, hplaces, (UInt32.add_zero i).symm, rfl⟩
  | succ k ih =>
      intro m i c w hc hplaces hk
      cases m with
      | zero =>
          rw [fetch_stop (Or.inr rfl), slide_zero]
          exact ⟨hc, hplaces, (UInt32.add_zero i).symm, rfl⟩
      | succ m =>
          have hcons := hc.places_eq_cons
          have hnext := CirBuffer.headOn_add_one hc
          have hlength : w.length = size := by
            rw [← hplaces, CirBuffer.places, Lib.window_length]
          have htail : k ≤ w.tail.length := by
            rw [List.length_tail]
            omega
          rw [hplaces] at hcons
          cases hget : c.get ((c.head + i) &&& c.mask) with
          | none =>
              -- a gap: the head passes it
              have hgap : (c.headOn i).get (c.headOn i).head = none := hget
              have hrest : (c.headOn (i + 1)).places size = w.tail ++ [none] := by
                rw [hnext, hc.places_step, hplaces, hgap]
              obtain ⟨hwf, hp, hi, hout⟩ :=
                ih (m + 1) (i + 1) c _ (hnext ▸ hc.stepHead) hrest (by omega)
              have hfetch : fetch (k + 1) (m + 1) w
                  = ((fetch k (m + 1) w.tail).1 + 1, (fetch k (m + 1) w.tail).2) := by
                conv_lhs => rw [hcons, hgap]
                exact fetch_none k m w.tail
              have hpassed := (fetch_spec w.tail k (m + 1)).1
              rw [fetch_append htail] at hp hi hout
              rw [slide_slide_one (by omega)] at hp
              rw [drainPlaces_none hget, hfetch]
              exact ⟨hwf, hp, hi.trans (add_one_add_ofNat i _), hout⟩
          | some mbuf =>
              -- an mbuf: it is fetched, and its place is cleared
              have hsome : (c.headOn i).get (c.headOn i).head = some mbuf := hget
              have hclear : (c.set ((c.head + i) &&& c.mask) none).headOn (i + 1)
                  = ((c.headOn i).set (c.headOn i).head none).stepHead :=
                congrArg (fun o : CirBuffer => o.set ((c.head + i) &&& c.mask) none) hnext
              have hrest : ((c.set ((c.head + i) &&& c.mask) none).headOn (i + 1)).places size
                  = w.tail ++ [none] := by
                rw [hclear, hc.places_pass, hplaces]
              obtain ⟨hwf, hp, hi, hout⟩ :=
                ih m (i + 1) _ _ (hclear ▸ (hc.set _ none).stepHead) hrest (by omega)
              have hfetch : fetch (k + 1) (m + 1) w
                  = ((fetch k m w.tail).1 + 1, mbuf :: (fetch k m w.tail).2) := by
                conv_lhs => rw [hcons, hsome]
                exact fetch_some k m mbuf w.tail
              have hpassed := (fetch_spec w.tail k m).1
              rw [fetch_append htail] at hp hi hout
              rw [slide_slide_one (by omega)] at hp
              rw [drainPlaces_some hget, hfetch]
              refine ⟨hwf, hp, hi.trans (add_one_add_ofNat i _), ?_⟩
              exact congrArg (some mbuf :: ·) hout

end Loops

/-! ## §5. What the drain does. -/

section Drain

variable {size : ℕ} {b : ReorderBuffer} {q : Resequencer} {seqn : UInt32} {max : ℕ}

theorem Holds.readySlots_eq (h : Holds size b q) : readySlots b = q.ready.map some :=
  h.refines.readySlots_eq

theorem Holds.queued_eq (h : Holds size b q) : queued b = q.ready := by
  rw [queued, h.readySlots_eq, reduceOption_map_some]

theorem Holds.buffered_eq (h : Holds size b q) : buffered b = q.held := by
  have hsize : b.orderBuf.size.toNat = size := h.refines.orderWF.size_eq
  have hplaces : b.orderBuf.places size = q.window := h.refines.window
  rw [buffered, h.queued_eq, hsize, hplaces]
  rfl

/-- The buffer with other contents. -/
theorem Holds.replace (h : Holds size b q) {q' : Resequencer} {readyBuf orderBuf : CirBuffer}
    (hreadyWF : readyBuf.WF size) (horderWF : orderBuf.WF size)
    (hready : readyBuf.queue size = q'.ready.map some)
    (hwindow : orderBuf.places size = q'.window) (hheld : q.held = [] → q'.held = []) :
    Holds size { b with minSeqn := q'.minSeqn, readyBuf := readyBuf, orderBuf := orderBuf } q' :=
  ⟨⟨rfl, rfl, hreadyWF, horderWF, hready, hwindow⟩, fun hinit => hheld (h.fresh hinit)⟩

theorem toNat_min (x y : UInt32) : (min x y).toNat = min x.toNat y.toNat := by
  show (if x ≤ y then x else y).toNat = _
  split
  · next hle => rw [Nat.min_eq_left (UInt32.le_iff_toNat_le.mp hle)]
  · next hle =>
      rw [UInt32.le_iff_toNat_le] at hle
      rw [Nat.min_eq_right (by omega)]

theorem Holds.toNat_slotAt (h : Holds size b q) {i : ℕ} (hi : i < size) :
    (slotAt b.readyBuf i).toNat = (b.readyBuf.tail.toNat + i) % size := by
  have hWF : b.readyBuf.WF size := h.refines.readyWF
  have hsize := hWF.size_lt
  rw [slotAt, hWF.add_and_mask, uint32_toNat_ofNat (by omega)]

/-- The entries in use are those in front of the head. -/
theorem Holds.liveSlot_iff (h : Holds size b q) {i : ℕ} (hi : i < size) :
    LiveSlot b (slotAt b.readyBuf i) ↔ i < q.ready.length := by
  have hsize : b.readyBuf.size.toNat = size := h.refines.readyWF.size_eq
  have hlength : q.ready.length ≤ size - 1 := h.refines.ready_length
  unfold LiveSlot
  rw [h.readySlots_eq, List.length_map, hsize, h.toNat_slotAt hi]
  constructor
  · intro h
    obtain ⟨j, hj, heq⟩ := h
    rwa [(ringPos_inj hi (by omega)).mp heq]
  · intro hlt
    exact ⟨i, hlt, rfl⟩

theorem Holds.live_slotsFrom (h : Holds size b q) {n : ℕ} (hn : n ≤ q.ready.length) :
    ∀ position ∈ slotsFrom b.readyBuf n, LiveSlot b position := by
  have hlength : q.ready.length ≤ size - 1 := h.refines.ready_length
  intro position hposition
  obtain ⟨i, hi, rfl⟩ := List.mem_map.mp hposition
  have hlt := List.mem_range.mp hi
  rw [h.liveSlot_iff (by omega)]
  omega

theorem Holds.liveSlot_tail (h : Holds size b q) (hpos : 0 < q.ready.length) :
    LiveSlot b b.readyBuf.tail := by
  have hWF : b.readyBuf.WF size := h.refines.readyWF
  refine ⟨0, by rwa [h.readySlots_eq, List.length_map], ?_⟩
  rw [hWF.size_eq, Nat.add_zero, Nat.mod_eq_of_lt hWF.tail_lt]

/-- The number at the tail is that of the first mbuf. -/
theorem Holds.get_tail (h : Holds size b q) {m : Mbuf} {rest : List Mbuf}
    (hready : q.ready = m :: rest) :
    b.readyBuf.tail ≠ b.readyBuf.head ∧ b.readyBuf.get b.readyBuf.tail = some m := by
  have hWF : b.readyBuf.WF size := h.refines.readyWF
  have hqueue : b.readyBuf.queue size = q.ready.map some := h.refines.ready
  have hne : b.readyBuf.tail ≠ b.readyBuf.head := by
    intro hmeet
    rw [hWF.empty_iff.mp hmeet, hready] at hqueue
    exact absurd hqueue (by simp)
  refine ⟨hne, ?_⟩
  rw [hWF.queue_pop none hne, hready, List.map_cons] at hqueue
  exact (List.cons.inj hqueue).1

/-- What is fetched leaves, and everything else stays. -/
theorem fetch_held (q : Resequencer) (k max : ℕ) (minSeqn : UInt32) :
    q.ready.take max ++ (fetch k (max - q.ready.length) q.window).2
        ++ Resequencer.held ⟨minSeqn, q.ready.drop max,
          slide q.window (fetch k (max - q.ready.length) q.window).1⟩
      = q.held := by
  have htake := (fetch_spec q.window k (max - q.ready.length)).2.2.1
  unfold Resequencer.held
  dsimp only
  rw [slide_reduceOption]
  rcases Nat.lt_or_ge max q.ready.length with hlt | hge
  · -- the window is not reached
    rw [fetch_stop (Or.inr (by omega)), List.append_nil, List.drop_zero, ← List.append_assoc,
      List.take_append_drop]
  · rw [List.drop_eq_nil_of_le hge, List.take_of_length_le hge, List.nil_append, htake,
      List.append_assoc, ← List.reduceOption_append, List.take_append_drop]

/-- **From `min_seqn` on**: the ready buffer, and then the window up to `seqn`. -/
theorem Holds.drainUpTo_order (h : Holds size b q) (hge : ¬ seqn < b.minSeqn) (max : ℕ) :
    let got := fetch (min (seqn - b.minSeqn) b.orderBuf.size).toNat (max - q.ready.length) q.window
    ∃ b', rteReorderDrainUpToSeqn b max seqn
        = ⟨slotsFrom b.readyBuf (min max q.ready.length),
          some (b', (q.ready.take max ++ got.2).map some)⟩
      ∧ Holds size b'
        ⟨q.minSeqn + UInt32.ofNat got.1, q.ready.drop max, slide q.window got.1⟩ := by
  intro got
  have hreadyWF : b.readyBuf.WF size := h.refines.readyWF
  have horderWF : b.orderBuf.WF size := h.refines.orderWF
  obtain ⟨hwf, hqueue, hout⟩ := drainReady_spec max b.readyBuf q.ready hreadyWF h.refines.ready
  have hlength : (drainReady max b.readyBuf).2.length = min max q.ready.length := by
    rw [hout, List.length_map, List.length_take]
  have hleft : max - min max q.ready.length = max - q.ready.length := by omega
  have hoffset : (min (seqn - b.minSeqn) b.orderBuf.size).toNat ≤ size := by
    rw [toNat_min, horderWF.size_eq]
    exact Nat.min_le_right _ _
  obtain ⟨hwf', hplaces, hi, hout'⟩ := drainPlaces_spec
    (min (seqn - b.minSeqn) b.orderBuf.size).toNat (max - q.ready.length) 0 b.orderBuf q.window
    (horderWF.headOn_zero.symm ▸ horderWF) (horderWF.headOn_zero.symm ▸ h.refines.window) hoffset
  rw [UInt32.zero_add] at hi
  refine ⟨_, ?_, h.replace hwf hwf' hqueue hplaces fun hheld => ?_⟩
  · unfold rteReorderDrainUpToSeqn
    rw [if_neg hge]
    dsimp only
    rw [hlength, hleft, hout, hout', hi, ← List.map_append]
    have hmin : b.minSeqn + UInt32.ofNat got.1 = q.minSeqn + UInt32.ofNat got.1 :=
      congrArg (· + UInt32.ofNat got.1) h.refines.minSeqn
    rw [← hmin]
    rfl
  · rw [← fetch_held q (min (seqn - b.minSeqn) b.orderBuf.size).toNat max
      (q.minSeqn + UInt32.ofNat got.1)] at hheld
    exact (List.append_eq_nil_iff.mp hheld).2

/-- **Below `min_seqn`, and nothing ready is**: the drain ends at once. -/
theorem Holds.drainUpTo_none (h : Holds size b q) (hlt : seqn < b.minSeqn)
    (hnone : ∀ m, q.ready.head? = some m → seqn < m.seqn) (max : ℕ) :
    ∃ reads, rteReorderDrainUpToSeqn b max seqn = ⟨reads, some (b, [])⟩
      ∧ ∀ position ∈ reads, LiveSlot b position := by
  have hWF : b.readyBuf.WF size := h.refines.readyWF
  have hqueue : b.readyBuf.queue size = q.ready.map some := h.refines.ready
  unfold rteReorderDrainUpToSeqn
  rw [if_pos hlt]
  cases hready : q.ready with
  | nil =>
      rw [hready] at hqueue
      rw [if_pos (hWF.empty_iff.mpr hqueue)]
      exact ⟨[], rfl, by simp⟩
  | cons m rest =>
      obtain ⟨hne, htail⟩ := h.get_tail hready
      have hgt : m.seqn > seqn := hnone m (by rw [hready]; rfl)
      rw [if_neg hne]
      simp only [htail, if_pos hgt]
      refine ⟨[b.readyBuf.tail], rfl, ?_⟩
      intro position hposition
      rw [List.mem_singleton.mp hposition]
      exact h.liveSlot_tail (by rw [hready]; simp)

theorem CirBuffer.WF.seqnFindHigh_lt {c : CirBuffer} (h : c.WF size) :
    (seqnFindHigh c).toNat < size := by
  have hhead := h.head_lt
  have htail := h.tail_lt
  unfold seqnFindHigh
  split
  · next hgt =>
      have hle : c.head ≤ c.tail := UInt32.le_of_lt hgt
      rw [UInt32.toNat_sub_of_le _ _ hle]
      omega
  · next hgt =>
      have hle : c.tail ≤ c.head := UInt32.not_lt.mp hgt
      rw [UInt32.toNat_sub_of_le _ _ hle]
      omega

/-- The search of `ready_buffer_seqn_find`. -/
def seqnBisect (readyBuf : CirBuffer) (seqn : UInt32) : Bisect :=
  bisect (seqnCmp readyBuf seqn) 0 ((seqnFindHigh readyBuf).toNat + 1)

/-- **`ready_buffer_seqn_find`** behind the test of the entry at the tail. -/
theorem CirBuffer.WF.readyBufferSeqnFind_eq {c : CirBuffer} (h : c.WF size) {m : Mbuf}
    (hget : c.get c.tail = some m) (hm : m.seqn ≤ seqn) :
    readyBufferSeqnFind c seqn
      = ⟨(seqnBisect c seqn).probes.map (slotAt c),
        (seqnBisect c seqn).result.map UInt32.ofNat⟩ := by
  have hsize := h.size_lt
  have hhigh := h.seqnFindHigh_lt
  have hfirst : seqnCmp c seqn 0 ≠ some .lt := by
    have hslot : slotAt c 0 = c.tail := congrArg CirBuffer.tail h.tailOn_zero
    rw [seqnCmp, hslot, hget, Option.map_some]
    split
    · simp
    · next hne =>
        have hgt : seqn > m.seqn := UInt32.lt_of_le_of_ne hm (Ne.symm hne)
        rw [if_pos hgt]
        simp
  exact seqnFindLoop_eq hfirst 33 0 (seqnFindHigh c) _ (by omega)
    (by rw [UInt32.toNat_zero, Nat.zero_add]) (by omega)

section Found

variable {m : Mbuf} {rest : List Mbuf}

theorem Holds.readyBufferSeqnFind_eq (h : Holds size b q) (hready : q.ready = m :: rest)
    (hm : m.seqn ≤ seqn) :
    readyBufferSeqnFind b.readyBuf seqn
      = ⟨(seqnBisect b.readyBuf seqn).probes.map (slotAt b.readyBuf),
        (seqnBisect b.readyBuf seqn).result.map UInt32.ofNat⟩ := by
  have hWF : b.readyBuf.WF size := h.refines.readyWF
  exact hWF.readyBufferSeqnFind_eq (h.get_tail hready).2 hm

/-- The search reads entries in use only, if it looks at no place from the head on. -/
theorem Holds.reads_live_iff (h : Holds size b q) (hready : q.ready = m :: rest)
    (hm : m.seqn ≤ seqn) :
    (∀ position ∈ (readyBufferSeqnFind b.readyBuf seqn).reads, LiveSlot b position)
      ↔ ∀ i ∈ (seqnBisect b.readyBuf seqn).probes, i < q.ready.length := by
  have hWF : b.readyBuf.WF size := h.refines.readyWF
  have hhigh := hWF.seqnFindHigh_lt
  rw [h.readyBufferSeqnFind_eq hready hm, List.forall_mem_map]
  refine forall₂_congr fun i hi => h.liveSlot_iff ?_
  have hrange := (bisect_probes _ _ _ i hi).2
  omega

/-- What the drain does behind the search. -/
theorem Holds.drainUpTo_search (h : Holds size b q) (hlt : seqn < b.minSeqn)
    (hready : q.ready = m :: rest) (hm : m.seqn ≤ seqn) (max : ℕ) :
    (∀ position ∈ (readyBufferSeqnFind b.readyBuf seqn).reads,
        position ∈ (rteReorderDrainUpToSeqn b max seqn).reads)
      ∧ ((readyBufferSeqnFind b.readyBuf seqn).offset = none →
        (rteReorderDrainUpToSeqn b max seqn).result = none) := by
  obtain ⟨hne, htail⟩ := h.get_tail hready
  unfold rteReorderDrainUpToSeqn
  rw [if_pos hlt, if_neg hne]
  simp only [htail, if_neg (UInt32.not_lt.mpr hm)]
  cases hfind : (readyBufferSeqnFind b.readyBuf seqn).offset with
  | none => exact ⟨fun position hp => List.mem_cons_of_mem _ hp, fun _ => rfl⟩
  | some offset =>
      refine ⟨fun position hp => ?_, fun hnone => absurd hnone (by simp)⟩
      exact List.mem_append_left _ (List.mem_cons_of_mem _ hp)

/-- **Below `min_seqn`, with an offset that the search has found**. -/
theorem Holds.drainUpTo_found (h : Holds size b q) (hlt : seqn < b.minSeqn)
    (hready : q.ready = m :: rest) (hm : m.seqn ≤ seqn) {offset : UInt32}
    (hfind : (readyBufferSeqnFind b.readyBuf seqn).offset = some offset)
    (hoffset : offset.toNat ≤ q.ready.length) (max : ℕ) :
    ∃ b', rteReorderDrainUpToSeqn b max seqn
        = ⟨b.readyBuf.tail :: (readyBufferSeqnFind b.readyBuf seqn).reads
            ++ slotsFrom b.readyBuf (min offset.toNat max),
          some (b', (q.ready.take (min offset.toNat max)).map some)⟩
      ∧ Holds size b' { q with ready := q.ready.drop (min offset.toNat max) } := by
  have hWF : b.readyBuf.WF size := h.refines.readyWF
  obtain ⟨hne, htail⟩ := h.get_tail hready
  obtain ⟨hwf, hqueue, hi, hout⟩ := drainOffset_spec offset.toNat max 0 b.readyBuf q.ready
    (hWF.tailOn_zero.symm ▸ hWF) (hWF.tailOn_zero.symm ▸ h.refines.ready) hoffset
  have hlt' := offset.toNat_lt
  rw [UInt32.zero_add] at hi
  refine ⟨_, ?_, h.replace hwf h.refines.orderWF hqueue h.refines.window fun hheld => ?_⟩
  · unfold rteReorderDrainUpToSeqn
    rw [if_pos hlt, if_neg hne]
    simp only [htail, if_neg (UInt32.not_lt.mpr hm), hfind]
    rw [hi, hout, uint32_toNat_ofNat (by omega)]
    have hmin : b.minSeqn = q.minSeqn := h.refines.minSeqn
    rw [← hmin]
    rfl
  · rw [Resequencer.held, hready] at hheld
    exact absurd hheld (by simp)

end Found

end Drain

end Meili.Reorder
