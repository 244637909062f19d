/-
  Meili.Reorder.OrderSlots — every slot of `order_buf` belongs to one sequence number.

  Whatever calls a user makes, with whatever sequence numbers, an mbuf in the window lies in
  the slot of its number.  The ready buffer plays no part in this: a full queue may have lost
  an mbuf, and a drain may have left an entry behind, so that nothing is known of what it
  holds.  What is followed is the window alone:

    • `Aligned` — the places of the window carry consecutive numbers;
    • `fillMove_passed`, `fillLoop_passed` — the nested loop of `rte_reorder_fill_overflow`
      only slides the window, and by no more than its size;
    • `Seated` — the invariant of all calls;
    • `Seated.drainUpTo_stuck` — only a drain that follows an empty entry does not complete.
-/
import Meili.Reorder.DrainExact
import Meili.Reorder.Reach

namespace Meili.Reorder

open Meili.Lib

/-! ## §1. Calls. -/

/-- One call on a reorder buffer that completes.  `rte_reorder_drain_up_to_seqn` does so
unless it follows an empty entry of the ready buffer. -/
inductive CallStep : ReorderBuffer → ReorderBuffer → Prop
  | call {b b' : ReorderBuffer} (h : BufferStep b b') : CallStep b b'
  | drainUpTo {b b' : ReorderBuffer} {max : ℕ} {seqn : UInt32} {mbufs : List (Option Mbuf)}
      (h : (rteReorderDrainUpToSeqn b max seqn).result = some (b', mbufs)) : CallStep b b'

/-- `b` is what some calls make of a new buffer of `size` places. -/
def CallReachable (size : UInt32) (b : ReorderBuffer) : Prop :=
  ∃ b₀, rteReorderCreate size = some b₀ ∧ Relation.ReflTransGen CallStep b₀ b

/-- Slot `p` of `order_buf` holds an mbuf of the number
`min_seqn + ((p - head) mod size) mod 2^32`, or none. -/
def InSlots (b : ReorderBuffer) : Prop :=
  ∀ (p : ℕ) (m : Mbuf), p < b.orderBuf.size.toNat → b.orderBuf.entries p = some m →
    (m.seqn.toNat : ℤ)
      = (b.minSeqn.toNat
          + ((p : ℤ) - b.orderBuf.head.toNat) % b.orderBuf.size.toNat) % 2 ^ 32

/-- An insert behind the window moves it by its size at most, and where it moves it far
enough, the offset that is computed again lies in the window. -/
def OverflowFits (b : ReorderBuffer) : Prop :=
  ∀ m : Mbuf,
    let offset := m.seqn - b.minSeqn
    let filled := rteReorderFillOverflow b (offset + 1 - b.orderBuf.size)
    ¬ offset < b.orderBuf.size → offset < 2 * b.orderBuf.size →
      filled.2 ≤ b.orderBuf.size
        ∧ (¬ filled.2 < offset + 1 - b.orderBuf.size →
          m.seqn - filled.1.minSeqn < b.orderBuf.size)

/-! ## §2. Windows with consecutive numbers. -/

/-- Place `i` of the window holds an mbuf of the number `minSeqn + i`, or none. -/
def Aligned (minSeqn : UInt32) (w : List (Option Mbuf)) : Prop :=
  ∀ i m, w[i]? = some (some m) → m.seqn = minSeqn + UInt32.ofNat i

section Windows

variable {minSeqn : UInt32} {w : List (Option Mbuf)}

theorem aligned_of_none (minSeqn : UInt32) (h : ∀ x ∈ w, x = none) : Aligned minSeqn w := by
  intro i m hi
  exact absurd (h _ (List.mem_of_getElem? hi)) (by simp)

/-- A fresh place holds nothing. -/
theorem slide_getElem?_some {k i : ℕ} {m : Mbuf} (h : (slide w k)[i]? = some (some m)) :
    w[k + i]? = some (some m) := by
  unfold slide at h
  rcases Nat.lt_or_ge i (w.drop k).length with hlt | hge
  · rwa [List.getElem?_append_left hlt, List.getElem?_drop] at h
  · rw [List.getElem?_append_right hge] at h
    have hmem := List.mem_of_getElem? h
    exact absurd (List.eq_of_mem_replicate hmem) (by simp)

/-- Passing `k` places: the numbers move with the window. -/
theorem Aligned.slide (h : Aligned minSeqn w) (k : ℕ) :
    Aligned (minSeqn + UInt32.ofNat k) (slide w k) := by
  intro i m hi
  rw [h (k + i) m (slide_getElem?_some hi), UInt32.ofNat_add, UInt32.add_assoc]

/-- Storing an mbuf at its own place. -/
theorem Aligned.set (h : Aligned minSeqn w) {i : ℕ} {m : Mbuf}
    (hm : m.seqn = minSeqn + UInt32.ofNat i) : Aligned minSeqn (w.set i (some m)) := by
  intro j m' hj
  rw [List.getElem?_set] at hj
  split at hj
  · next heq =>
      split at hj
      · obtain rfl : m = m' := Option.some.inj (Option.some.inj hj)
        rw [hm, heq]
      · cases hj
  · exact h j m' hj

theorem slide_none (h : ∀ x ∈ w, x = none) (k : ℕ) : ∀ x ∈ slide w k, x = none := by
  intro x hx
  rcases List.mem_append.mp hx with hdrop | hfresh
  · exact h x (List.mem_of_mem_drop hdrop)
  · exact List.eq_of_mem_replicate hfresh

end Windows

/-! ## §3. `rte_reorder_fill_overflow` slides the window. -/

section Fill

variable {size : ℕ}

/-- `b` is `start` after `adv` places of its window were passed.  Nothing is said of what the
ready buffer holds. -/
structure Passed (size : ℕ) (start b : ReorderBuffer) (adv : UInt32) : Prop where
  minSeqn : b.minSeqn = start.minSeqn
  isInitialized : b.isInitialized = start.isInitialized
  readyWF : b.readyBuf.WF size
  orderWF : b.orderBuf.WF size
  places : b.orderBuf.places size = slide (start.orderBuf.places size) adv.toNat
  adv_le : adv.toNat ≤ size

variable {start b : ReorderBuffer} {adv : UInt32}

theorem CirBuffer.places_length (size : ℕ) (c : CirBuffer) : (c.places size).length = size :=
  Lib.window_length size c.head.toNat c.entries

/-- What the slot at the order head says about the next place. -/
theorem Passed.get_head (h : Passed size start b adv) :
    b.orderBuf.get b.orderBuf.head = (start.orderBuf.places size)[adv.toNat]?.join := by
  have hcons := h.orderWF.places_eq_cons
  have hlength := start.orderBuf.places_length size
  rw [h.places, slide_eq_cons (by rw [hlength]; exact h.orderWF.size_lt.1)
    (by rw [hlength]; exact h.adv_le)] at hcons
  exact (List.cons.inj hcons).1.symm

/-- Behind the last place nothing is met. -/
theorem Passed.lt_of_get (h : Passed size start b adv)
    (hget : b.orderBuf.get b.orderBuf.head ≠ none) : adv.toNat < size := by
  have hle := h.adv_le
  by_contra hge
  apply hget
  rw [h.get_head, List.getElem?_eq_none (by rw [CirBuffer.places_length]; omega),
    Option.join_none]

/-- The counter of the order head does not wrap. -/
theorem Passed.toNat_add_one (h : Passed size start b adv) (hlt : adv.toNat < size) :
    (adv + 1).toNat = adv.toNat + 1 := by
  have hsize := h.orderWF.size_lt.2
  exact uint32_toNat_add_ofNat (k := 1) (by omega)

/-- Passing one more place, whether its slot is cleared or empty before. -/
theorem Passed.next (h : Passed size start b adv) (hlt : adv.toNat < size)
    {readyBuf orderBuf : CirBuffer} (hready : readyBuf.WF size) (horder : orderBuf.WF size)
    (hplaces : orderBuf.places size = (b.orderBuf.places size).tail ++ [none]) :
    Passed size start { b with readyBuf := readyBuf, orderBuf := orderBuf } (adv + 1) where
  minSeqn := h.minSeqn
  isInitialized := h.isInitialized
  readyWF := hready
  orderWF := horder
  places := by
    show orderBuf.places size = _
    rw [hplaces, h.places, slide_tail (by rwa [CirBuffer.places_length]),
      h.toNat_add_one hlt]
  adv_le := by
    rw [h.toNat_add_one hlt]
    exact hlt

/-- **The inner loop** only slides the window.  It ends by its own tests: at a gap, or with
the ready buffer full. -/
theorem fillMove_passed :
    ∀ (k : ℕ) (b : ReorderBuffer) (adv : UInt32), Passed size start b adv →
      size ≤ k + adv.toNat →
      Passed size start (fillMove k b adv).1 (fillMove k b adv).2
        ∧ adv.toNat ≤ (fillMove k b adv).2.toNat
        ∧ (b.orderBuf.get b.orderBuf.head ≠ none → adv.toNat < (fillMove k b adv).2.toNat)
        ∧ ((fillMove k b adv).1.orderBuf.get (fillMove k b adv).1.orderBuf.head = none
          ∨ (fillMove k b adv).1.readyBuf.next (fillMove k b adv).1.readyBuf.head
            = (fillMove k b adv).1.readyBuf.tail) := by
  intro k
  induction k with
  | zero =>
      intro b adv h hk
      -- all places were passed, and the slot at the head is a fresh one
      have hgap : b.orderBuf.get b.orderBuf.head = none := by
        by_contra hget
        have hlt := h.lt_of_get hget
        omega
      exact ⟨h, le_refl _, fun hget => absurd hgap hget, Or.inl hgap⟩
  | succ k ih =>
      intro b adv h hk
      cases hget : b.orderBuf.get b.orderBuf.head with
      | none =>
          -- a gap: the loop ends here
          have hstop : fillMove (k + 1) b adv = (b, adv) := by
            unfold fillMove
            rw [hget]
          rw [hstop]
          exact ⟨h, le_refl _, fun hne => absurd rfl hne, Or.inl hget⟩
      | some m =>
          have hlt := h.lt_of_get (by rw [hget]; simp)
          have hadv := h.toNat_add_one hlt
          have hplaces := h.orderWF.places_pass none
          have horder := (h.orderWF.set b.orderBuf.head none).stepHead
          have hready := h.readyWF.set b.readyBuf.head (some m)
          rw [fillMove_some hget]
          by_cases hfull : b.readyBuf.next b.readyBuf.head = b.readyBuf.tail
          · rw [if_pos hfull]
            -- the mbuf is lost, and its place is passed all the same
            refine ⟨h.next hlt hready horder hplaces, ?_, fun _ => ?_, Or.inr hfull⟩
            · show adv.toNat ≤ (adv + 1).toNat
              omega
            · show adv.toNat < (adv + 1).toNat
              omega
          · rw [if_neg hfull]
            -- the mbuf is queued, and the loop goes on behind it
            obtain ⟨hpassed, hle, -, hend⟩ :=
              ih _ _ (h.next hlt hready.stepHead horder hplaces) (by omega)
            exact ⟨hpassed, by omega, fun _ => by omega, hend⟩

/-- The gap before the inner loop, where there is one. -/
theorem Passed.skip (h : Passed size start b adv) (hlt : adv.toNat < size)
    (hgap : b.orderBuf.get b.orderBuf.head = none) :
    Passed size start { b with orderBuf := b.orderBuf.stepHead } (adv + 1) := by
  apply h.next hlt h.readyWF h.orderWF.stepHead
  rw [h.orderWF.places_step, hgap]

/-- One pass of the outer loop. -/
theorem fillLoop_pass {n : UInt32} (hn : n.toNat ≤ size) (k : ℕ) (h : Passed size start b adv)
    (hgo : adv < n ∧ b.readyBuf.next b.readyBuf.head ≠ b.readyBuf.tail) :
    ∃ b' adv', fillLoop n (k + 1) b adv = fillLoop n k b' adv' ∧ Passed size start b' adv'
      ∧ adv.toNat < adv'.toNat := by
  have hadvn := UInt32.lt_iff_toNat_lt.mp hgo.1
  have hlt : adv.toNat < size := by omega
  by_cases hgap : b.orderBuf.get b.orderBuf.head = none
  · -- the gap is passed first, and what is ready behind it with it
    have hskip := h.skip hlt hgap
    have hadv := h.toNat_add_one hlt
    obtain ⟨hpassed, hle, -, -⟩ := fillMove_passed b.orderBuf.stepHead.size.toNat _ _ hskip
      (by rw [h.orderWF.stepHead.size_eq]; omega)
    refine ⟨_, _, ?_, hpassed, by omega⟩
    rw [fillLoop, if_pos hgo, if_pos hgap]
  · -- no gap: the inner loop passes one place at least
    obtain ⟨hpassed, -, hmoved, -⟩ := fillMove_passed b.orderBuf.size.toNat _ _ h
      (by rw [h.orderWF.size_eq]; omega)
    refine ⟨_, _, ?_, hpassed, hmoved hgap⟩
    rw [fillLoop, if_pos hgo, if_neg hgap]

/-- **The outer loop** only slides the window, and ends by its own test. -/
theorem fillLoop_passed {n : UInt32} (hn : n.toNat ≤ size) :
    ∀ (k : ℕ) (b : ReorderBuffer) (adv : UInt32), Passed size start b adv →
      n.toNat ≤ k + adv.toNat →
      Passed size start (fillLoop n k b adv).1 (fillLoop n k b adv).2
        ∧ ¬ ((fillLoop n k b adv).2 < n
          ∧ (fillLoop n k b adv).1.readyBuf.next (fillLoop n k b adv).1.readyBuf.head
            ≠ (fillLoop n k b adv).1.readyBuf.tail) := by
  intro k
  induction k with
  | zero =>
      intro b adv h hk
      refine ⟨h, fun hgo => ?_⟩
      have hlt := UInt32.lt_iff_toNat_lt.mp hgo.1
      have hadv : (fillLoop n 0 b adv).2 = adv := rfl
      rw [hadv] at hlt
      omega
  | succ k ih =>
      intro b adv h hk
      by_cases hgo : adv < n ∧ b.readyBuf.next b.readyBuf.head ≠ b.readyBuf.tail
      · obtain ⟨b', adv', hpass, h', hlt⟩ := fillLoop_pass hn k h hgo
        rw [hpass]
        exact ih b' adv' h' (by omega)
      · have hstop : fillLoop n (k + 1) b adv = (b, adv) := by
          rw [fillLoop]
          exact if_neg hgo
        rw [hstop]
        exact ⟨h, hgo⟩

/-- **`rte_reorder_fill_overflow`**: the window has slid by what is returned, which is its
size at most, and `min_seqn` with it. -/
theorem rteReorderFillOverflow_passed {n : UInt32} (hready : start.readyBuf.WF size)
    (horder : start.orderBuf.WF size) (hn : n.toNat ≤ size) :
    Passed size start (fillLoop n n.toNat start 0).1 (rteReorderFillOverflow start n).2
      ∧ (rteReorderFillOverflow start n).1.minSeqn
          = start.minSeqn + (rteReorderFillOverflow start n).2 := by
  have hstart : Passed size start start 0 :=
    { minSeqn := rfl
      isInitialized := rfl
      readyWF := hready
      orderWF := horder
      places := (slide_zero _).symm
      adv_le := Nat.zero_le size }
  obtain ⟨hpassed, -⟩ := fillLoop_passed hn n.toNat start 0 hstart (Nat.le_add_right _ _)
  refine ⟨hpassed, ?_⟩
  show (fillLoop n n.toNat start 0).1.minSeqn + (fillLoop n n.toNat start 0).2 = _
  rw [hpassed.minSeqn]
  rfl

end Fill

/-! ## §4. The invariant of all calls. -/

/-- What every call keeps: the mbufs in the window lie at the places of their numbers, and
before the first number is known there are none. -/
structure Seated (size : ℕ) (b : ReorderBuffer) : Prop where
  readyWF : b.readyBuf.WF size
  orderWF : b.orderBuf.WF size
  aligned : Aligned b.minSeqn (b.orderBuf.places size)
  fresh : b.isInitialized = false → ∀ x ∈ b.orderBuf.places size, x = none

section Seated

variable {size : ℕ} {b b' : ReorderBuffer} {m : Mbuf}

/-- What slides the window, and `min_seqn` with it, keeps the invariant. -/
theorem Seated.slide (h : Seated size b) (hinit : b'.isInitialized = b.isInitialized)
    (hready : b'.readyBuf.WF size) (horder : b'.orderBuf.WF size) {k : ℕ}
    (hmin : b'.minSeqn = b.minSeqn + UInt32.ofNat k)
    (hplaces : b'.orderBuf.places size = slide (b.orderBuf.places size) k) : Seated size b' where
  readyWF := hready
  orderWF := horder
  aligned := by
    rw [hmin, hplaces]
    exact h.aligned.slide k
  fresh := by
    intro hfalse
    rw [hplaces]
    exact slide_none (h.fresh (hinit.symm.trans hfalse)) k

/-- Another ready buffer. -/
theorem Seated.withReady (h : Seated size b) {readyBuf : CirBuffer} (hready : readyBuf.WF size) :
    Seated size { b with readyBuf := readyBuf } :=
  { h with readyWF := hready }

/-- An mbuf in the window is stored at its own place. -/
theorem Seated.storeAt (h : Seated size b) (hinit : b.isInitialized = true)
    (hlt : (m.seqn - b.minSeqn).toNat < size) :
    Seated size (Reorder.storeAt b (m.seqn - b.minSeqn) m) where
  readyWF := h.readyWF
  orderWF := h.orderWF.set _ _
  aligned := by
    unfold Reorder.storeAt
    rw [h.orderWF.places_store hlt]
    apply h.aligned.set
    rw [UInt32.ofNat_toNat, UInt32.add_comm, UInt32.sub_add_cancel]
  fresh := fun hfalse => absurd (hinit.symm.trans hfalse) (by decide)

theorem Seated.fillOverflow (h : Seated size b) {n : UInt32} (hn : n.toNat ≤ size) :
    Seated size (rteReorderFillOverflow b n).1 := by
  obtain ⟨hpassed, hmin⟩ := rteReorderFillOverflow_passed h.readyWF h.orderWF hn
  have hmin' : (rteReorderFillOverflow b n).1.minSeqn
      = b.minSeqn + UInt32.ofNat (rteReorderFillOverflow b n).2.toNat := by
    rw [hmin, UInt32.ofNat_toNat]
  exact h.slide hpassed.isInitialized hpassed.readyWF hpassed.orderWF hmin' hpassed.places

/-! ### Inserts. -/

/-- The number of places that an insert behind the window asks for. -/
theorem Seated.toNat_overflow (h : Seated size b)
    (hin : ¬ m.seqn - b.minSeqn < b.orderBuf.size)
    (hnear : m.seqn - b.minSeqn < 2 * b.orderBuf.size) :
    size ≤ (m.seqn - b.minSeqn).toNat ∧ (m.seqn - b.minSeqn).toNat < 2 * size
      ∧ (m.seqn - b.minSeqn + 1 - b.orderBuf.size).toNat
          = (m.seqn - b.minSeqn).toNat + 1 - size := by
  have hsize : b.orderBuf.size.toNat = size := h.orderWF.size_eq
  rw [UInt32.lt_iff_toNat_lt, hsize] at hin
  rw [UInt32.lt_iff_toNat_lt, UInt32.toNat_mul, hsize] at hnear
  have htwice : (2 : UInt32).toNat * size % 2 ^ 32 ≤ 2 * size := Nat.mod_le _ _
  have htop : (2 : UInt32).toNat * size % 2 ^ 32 < 2 ^ 32 := Nat.mod_lt _ (by norm_num)
  have hone : (m.seqn - b.minSeqn + 1).toNat = (m.seqn - b.minSeqn).toNat + 1 :=
    uint32_toNat_add_ofNat (k := 1) (by omega)
  refine ⟨by omega, by omega, ?_⟩
  rw [UInt32.toNat_sub_of_le _ _ (by rw [UInt32.le_iff_toNat_le, hone, hsize]; omega), hone,
    hsize]

/-- **Behind the window**: it slides by its size at most, and where that is far enough, the
new offset lies in it. -/
theorem Seated.overflowFits (h : Seated size b) : OverflowFits b := by
  intro m offset filled hin hnear
  obtain ⟨hge, hlt, hn⟩ := h.toNat_overflow hin hnear
  obtain ⟨hpassed, hmin⟩ := rteReorderFillOverflow_passed h.readyWF h.orderWF
    (n := offset + 1 - b.orderBuf.size) (by rw [hn]; omega)
  have hsize : b.orderBuf.size.toNat = size := h.orderWF.size_eq
  have hadv : filled.2.toNat ≤ size := hpassed.adv_le
  refine ⟨by rwa [UInt32.le_iff_toNat_le, hsize], fun hfar => ?_⟩
  rw [UInt32.lt_iff_toNat_lt, hn] at hfar
  -- the offset is smaller by as much as `min_seqn` has moved
  have hoffset : m.seqn - filled.1.minSeqn = offset - filled.2 := by
    show m.seqn - (rteReorderFillOverflow b (offset + 1 - b.orderBuf.size)).1.minSeqn = _
    rw [hmin]
    show m.seqn - (b.minSeqn + filled.2) = m.seqn - b.minSeqn - filled.2
    grind
  rw [hoffset, UInt32.lt_iff_toNat_lt, hsize,
    UInt32.toNat_sub_of_le _ _ (by rw [UInt32.le_iff_toNat_le]; exact hadv.trans hge)]
  show (m.seqn - b.minSeqn).toNat - filled.2.toNat < size
  omega

theorem Seated.insert_initialized (h : Seated size b) (hinit : b.isInitialized = true)
    (m : Mbuf) : Seated size (rteReorderInsert b (some m)).1 := by
  have hsize : b.orderBuf.size.toNat = size := h.orderWF.size_eq
  unfold rteReorderInsert
  simp only [hinit, Bool.not_true, Bool.false_eq_true, if_false]
  by_cases hin : m.seqn - b.minSeqn < b.orderBuf.size
  · -- in the window
    rw [if_pos hin]
    exact h.storeAt hinit (by rwa [UInt32.lt_iff_toNat_lt, hsize] at hin)
  · rw [if_neg hin]
    by_cases hnear : m.seqn - b.minSeqn < 2 * b.orderBuf.size
    · -- behind it: places are freed before the test
      rw [if_pos hnear]
      obtain ⟨hge, hlt, hn⟩ := h.toNat_overflow hin hnear
      have hfilled := h.fillOverflow (n := m.seqn - b.minSeqn + 1 - b.orderBuf.size) (by omega)
      by_cases hshort : (rteReorderFillOverflow b (m.seqn - b.minSeqn + 1 - b.orderBuf.size)).2
          < m.seqn - b.minSeqn + 1 - b.orderBuf.size
      · -- ENOSPC, with the places freed all the same
        rw [if_pos hshort]
        exact hfilled
      · rw [if_neg hshort]
        obtain ⟨hpassed, -⟩ := rteReorderFillOverflow_passed h.readyWF h.orderWF
          (n := m.seqn - b.minSeqn + 1 - b.orderBuf.size) (by omega)
        have hfits := (h.overflowFits m hin hnear).2 hshort
        rw [UInt32.lt_iff_toNat_lt, hsize] at hfits
        exact hfilled.storeAt (hpassed.isInitialized.trans hinit) hfits
    · -- ERANGE
      rw [if_neg hnear]
      exact h

theorem Seated.startAt (h : Seated size b) (m : Mbuf) :
    Seated size (b.startAt m) ∧ (b.startAt m).isInitialized = true := by
  cases hinit : b.isInitialized with
  | true =>
      have hsame : b.startAt m = b := by simp [ReorderBuffer.startAt, hinit]
      rw [hsame]
      exact ⟨h, hinit⟩
  | false =>
      -- the first number, with nothing in the window
      have hstart : b.startAt m = { b with minSeqn := m.seqn, isInitialized := true } := by
        simp [ReorderBuffer.startAt, hinit]
      rw [hstart]
      exact ⟨⟨h.readyWF, h.orderWF, aligned_of_none m.seqn (h.fresh hinit),
        fun hfalse => by cases hfalse⟩, rfl⟩

/-- **`rte_reorder_insert`**, of any mbuf and whatever it returns. -/
theorem Seated.insert (h : Seated size b) (mbuf : Option Mbuf) :
    Seated size (rteReorderInsert b mbuf).1 := by
  cases mbuf with
  | none => exact h
  | some m =>
      obtain ⟨hstart, hinit⟩ := h.startAt m
      rw [rteReorderInsert_startAt]
      exact hstart.insert_initialized hinit m

/-! ### Drains. -/

theorem drainReady_wf (k : ℕ) {c : CirBuffer} (h : c.WF size) : (drainReady k c).1.WF size := by
  induction k generalizing c with
  | zero => exact h
  | succ k ih =>
      rw [drainReady]
      split
      · exact ih (h.set c.tail none).stepTail
      · exact h

theorem drainOffset_wf (k m : ℕ) (i : UInt32) {c : CirBuffer} (h : c.WF size) :
    (drainOffset k m i c).1.WF size := by
  induction k generalizing m i c with
  | zero => exact h
  | succ k ih =>
      cases m with
      | zero => exact h
      | succ m => exact ih m (i + 1) (h.set _ none)

theorem CirBuffer.WF.tailOn {c : CirBuffer} (h : c.WF size) (i : UInt32) :
    (c.tailOn i).WF size where
  pow := h.pow
  size_eq := h.size_eq
  mask_eq := h.mask_eq
  head_lt := h.head_lt
  tail_lt := by
    show ((c.tail + i) &&& c.mask).toNat < size
    rw [h.add_and_mask]
    exact Nat.mod_lt _ h.size_lt.1

/-- Taking the mbuf at the order head. -/
theorem Seated.takeHead (h : Seated size b) :
    Seated size { b with
      minSeqn := b.minSeqn + 1
      orderBuf := (b.orderBuf.set b.orderBuf.head none).stepHead } := by
  have hpos : 0 < (b.orderBuf.places size).length := by
    rw [CirBuffer.places_length]
    exact h.orderWF.size_lt.1
  have hplaces := h.orderWF.places_pass none
  have hslide := slide_tail hpos
  rw [slide_zero] at hslide
  exact h.slide rfl h.readyWF (h.orderWF.set _ none).stepHead rfl (hplaces.trans hslide)

theorem Seated.drainOrder (h : Seated size b) (k : ℕ) : Seated size (drainOrder k b).1 := by
  induction k generalizing b with
  | zero => exact h
  | succ k ih =>
      unfold Reorder.drainOrder
      split
      · exact h
      · exact ih h.takeHead

/-- **`rte_reorder_drain`**, with any limit. -/
theorem Seated.drain (h : Seated size b) (max : ℕ) : Seated size (rteReorderDrain b max).1 :=
  (h.withReady (drainReady_wf max h.readyWF)).drainOrder _

/-- **`rte_reorder_drain_up_to_seqn`**, where it completes. -/
theorem Seated.drainUpTo (h : Seated size b) {max : ℕ} {seqn : UInt32}
    {mbufs : List (Option Mbuf)}
    (hresult : (rteReorderDrainUpToSeqn b max seqn).result = some (b', mbufs)) :
    Seated size b' := by
  unfold rteReorderDrainUpToSeqn at hresult
  split at hresult
  · -- below `min_seqn` the window is not touched
    split at hresult
    · obtain ⟨rfl, -⟩ := Prod.mk.inj (Option.some.inj hresult)
      exact h
    · split at hresult
      · cases hresult
      · split at hresult
        · obtain ⟨rfl, -⟩ := Prod.mk.inj (Option.some.inj hresult)
          exact h
        · dsimp only at hresult
          split at hresult
          · cases hresult
          · -- from the ready buffer alone
            obtain ⟨rfl, -⟩ := Prod.mk.inj (Option.some.inj hresult)
            exact h.withReady ((drainOffset_wf _ max 0 h.readyWF).tailOn _)
  · obtain ⟨rfl, -⟩ := Prod.mk.inj (Option.some.inj hresult)
    have hsize : b.orderBuf.size.toNat = size := h.orderWF.size_eq
    have hzero := h.orderWF.headOn_zero
    have hoffset : (min (seqn - b.minSeqn) b.orderBuf.size).toNat ≤ size := by
      rw [toNat_min, hsize]
      exact Nat.min_le_right _ _
    -- the window up to `seqn`, past its gaps
    obtain ⟨hwf, hplaces, hi, -⟩ := drainPlaces_spec
      (min (seqn - b.minSeqn) b.orderBuf.size).toNat (max - (drainReady max b.readyBuf).2.length)
      0 b.orderBuf (b.orderBuf.places size) (hzero.symm ▸ h.orderWF) (by rw [hzero]) hoffset
    rw [UInt32.zero_add] at hi
    exact h.slide rfl (drainReady_wf max h.readyWF) hwf (congrArg (b.minSeqn + ·) hi) hplaces

/-- **A drain that does not complete** has followed an empty entry of the ready buffer. -/
theorem Seated.drainUpTo_stuck (h : Seated size b) {max : ℕ} {seqn : UInt32}
    (hresult : (rteReorderDrainUpToSeqn b max seqn).result = none) :
    ∃ position ∈ (rteReorderDrainUpToSeqn b max seqn).reads,
      b.readyBuf.get position = none := by
  unfold rteReorderDrainUpToSeqn at hresult ⊢
  split at hresult
  · next hlt =>
      rw [if_pos hlt]
      split at hresult
      · cases hresult
      · next hne =>
          rw [if_neg hne]
          cases htail : b.readyBuf.get b.readyBuf.tail with
          | none => exact ⟨b.readyBuf.tail, List.mem_singleton.mpr rfl, htail⟩
          | some m =>
              simp only [htail] at hresult ⊢
              split at hresult
              · cases hresult
              · next hle =>
                  -- the entry at the tail is there, so the search has met the empty one
                  have hsearch := h.readyWF.readyBufferSeqnFind_eq htail (UInt32.not_lt.mp hle)
                  rw [if_neg hle, hsearch]
                  rw [hsearch] at hresult
                  cases hfound : (seqnBisect b.readyBuf seqn).result with
                  | some r =>
                      rw [hfound] at hresult
                      cases hresult
                  | none =>
                      obtain ⟨i, hi, hnone⟩ := bisect_result_none hfound
                      refine ⟨slotAt b.readyBuf i,
                        List.mem_cons_of_mem _ (List.mem_map_of_mem hi), ?_⟩
                      exact Option.map_eq_none_iff.mp hnone
  · cases hresult

/-! ### The first number. -/

/-- An empty buffer has an empty window. -/
theorem places_of_isEmpty (horder : b.orderBuf.WF size) (h : rteReorderIsEmpty b = true) :
    ∀ x ∈ b.orderBuf.places size, x = none := by
  intro x hx
  obtain ⟨i, -, rfl⟩ := List.mem_map.mp hx
  unfold rteReorderIsEmpty at h
  split at h
  · cases h
  · have hlt : (b.orderBuf.head.toNat + i) % size < size := Nat.mod_lt _ horder.size_lt.1
    rw [List.all_eq_true] at h
    have hnone := h _ (List.mem_range.mpr (hlt.trans_eq horder.size_eq.symm))
    exact Option.isNone_iff_eq_none.mp hnone

/-- **`rte_reorder_min_seqn_set`**. -/
theorem Seated.minSeqnSet (h : Seated size b) (minSeqn : UInt32) :
    Seated size (rteReorderMinSeqnSet b minSeqn).1 := by
  cases hempty : rteReorderIsEmpty b with
  | false =>
      have hsame : rteReorderMinSeqnSet b minSeqn = (b, some .ENOTEMPTY) := by
        rw [rteReorderMinSeqnSet, hempty]
        rfl
      rw [hsame]
      exact h
  | true =>
      have hnone := places_of_isEmpty h.orderWF hempty
      rw [rteReorderMinSeqnSet_empty hempty]
      exact ⟨h.readyWF, h.orderWF, aligned_of_none minSeqn hnone, fun _ => hnone⟩

/-- A new buffer. -/
theorem rteReorderCreate_seated {size : UInt32} (h : rteReorderCreate size = some b) :
    Seated size.toNat b := by
  have hholds := rteReorderCreate_holds h
  have hnone : ∀ x ∈ b.orderBuf.places size.toNat, x = none := by
    intro x hx
    have hwindow : b.orderBuf.places size.toNat = List.replicate size.toNat none :=
      hholds.refines.window
    rw [hwindow] at hx
    exact List.eq_of_mem_replicate hx
  exact ⟨hholds.refines.readyWF, hholds.refines.orderWF, aligned_of_none b.minSeqn hnone,
    fun _ => hnone⟩

end Seated

/-! ## §5. Every reachable buffer. -/

section Reachable

variable {size : UInt32} {b : ReorderBuffer}

/-- **Every call keeps the invariant.** -/
theorem Seated.step {size : ℕ} {b b' : ReorderBuffer} (h : Seated size b)
    (hstep : CallStep b b') : Seated size b' := by
  cases hstep with
  | drainUpTo hresult => exact h.drainUpTo hresult
  | call hcall =>
      cases hcall with
      | insert mbuf => exact h.insert mbuf
      | drain max => exact h.drain max
      | minSeqnSet minSeqn => exact h.minSeqnSet minSeqn

theorem CallReachable.seated (h : CallReachable size b) : Seated size.toNat b := by
  obtain ⟨b₀, hcreate, hrun⟩ := h
  apply ReflTransGen.invariant (Seated size.toNat) (rteReorderCreate_seated hcreate) _ hrun
  intro x y hx hstep
  exact hx.step hstep

/-- Slot `p` is the place `(p - head) mod size`. -/
theorem CirBuffer.WF.places_slot {size : ℕ} {c : CirBuffer} (h : c.WF size) {p : ℕ}
    (hp : p < size) :
    ∃ i : ℕ, (c.places size)[i]? = some (c.entries p)
      ∧ (i : ℤ) = ((p : ℤ) - c.head.toNat) % size := by
  have hhead := h.head_lt
  refine ⟨(p + size - c.head.toNat) % size, ?_, ?_⟩
  · have hslot : (c.head.toNat + (p + size - c.head.toNat) % size) % size = p := by
      rw [Nat.add_mod_mod, show c.head.toNat + (p + size - c.head.toNat) = p + size by omega,
        Nat.add_mod_right, Nat.mod_eq_of_lt hp]
    rw [CirBuffer.places, window_getElem? _ (Nat.mod_lt _ h.size_lt.1), hslot]
  · rw [Int.natCast_mod, Int.natCast_sub (by omega), Int.natCast_add, add_sub_right_comm,
      Int.add_emod_right]

theorem Seated.inSlots {size : ℕ} (h : Seated size b) : InSlots b := by
  intro p m hp hm
  have hsize : b.orderBuf.size.toNat = size := h.orderWF.size_eq
  rw [hsize] at hp ⊢
  obtain ⟨i, hplace, hi⟩ := h.orderWF.places_slot hp
  rw [hm] at hplace
  rw [h.aligned i m hplace, ← hi, UInt32.toNat_add, UInt32.toNat_ofNat', Nat.add_mod_mod]
  rfl

/-- **Every slot belongs to one number**, in every buffer that calls can bring about, and an
insert behind the window finds the right one. -/
theorem order_slots (h : CallReachable size b) : InSlots b ∧ OverflowFits b :=
  ⟨h.seated.inSlots, h.seated.overflowFits⟩

end Reachable

/-- The last number, and then one behind the window. -/
def wrapping : ReorderBuffer :=
  (rteReorderInsert (rteReorderInsert newBuffer (some (pkt 4294967295))).1 (some (pkt 4))).1

theorem wrapping_reachable : CallReachable 4 wrapping := by
  refine ⟨newBuffer, newBuffer_create, ?_⟩
  exact (Relation.ReflTransGen.single (.call (.insert _ _))).tail (.call (.insert _ _))

theorem order_slots_wrapping :
    wrapping.orderBuf.entries 1 = some (pkt 4) ∧ wrapping.minSeqn = 1
      ∧ InSlots wrapping ∧ OverflowFits wrapping := by
  refine ⟨by decide, by decide, ?_⟩
  exact order_slots wrapping_reachable

end Meili.Reorder
