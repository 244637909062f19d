/-
  Meili.Reorder.Order — the output is in sequence order.

  The invariant (`Ordered`): what was put out and what is queued is strictly
  increasing and below `min_seqn`; place `i` of the window holds nothing but
  sequence number `min_seqn + i`; and `min_seqn` stays so low that a late
  packet is at least twice the window away in 32-bit arithmetic and gets
  ERANGE.  Every operation passes some places of the window and lets some of
  the mbufs there through (`Ordered.advance`), or writes one place.
-/
import Meili.Reorder.Run

namespace Meili.Reorder

/-! ## §1. Windows in sequence order. -/

/-- Place `i` of the window holds sequence number `base + i`, or nothing. -/
def Placed (base : ℕ) (w : List (Option Mbuf)) : Prop :=
  ∀ i m, w[i]? = some (some m) → m.seqn.toNat = base + i

theorem Placed.set {base : ℕ} {w : List (Option Mbuf)} (h : Placed base w) {i : ℕ} {m : Mbuf}
    (hm : m.seqn.toNat = base + i) : Placed base (w.set i (some m)) := by
  intro j m' hj
  rw [List.getElem?_set] at hj
  split at hj
  next hij =>
    split at hj
    · rw [← hij, ← Option.some.inj (Option.some.inj hj), hm]
    · exact absurd hj (by simp)
  next => exact h j m' hj

theorem Placed.drop {base : ℕ} {w : List (Option Mbuf)} (h : Placed base w) (k : ℕ) :
    Placed (base + k) (w.drop k) := by
  intro i m hi
  rw [List.getElem?_drop] at hi
  rw [h (k + i) m hi]
  omega

theorem Placed.take {base : ℕ} {w : List (Option Mbuf)} (h : Placed base w) (k : ℕ) :
    Placed base (w.take k) := by
  intro i m hi
  rw [List.getElem?_take] at hi
  split at hi
  · exact h i m hi
  · exact absurd hi (by simp)

theorem Placed.slide {base : ℕ} {w : List (Option Mbuf)} (h : Placed base w) (k : ℕ) :
    Placed (base + k) (slide w k) := by
  intro i m hi
  unfold Reorder.slide at hi
  rw [List.getElem?_append] at hi
  split at hi
  · exact h.drop k i m hi
  · -- the places that were freed are gaps
    rw [List.getElem?_replicate] at hi
    split at hi <;> simp at hi

theorem Placed.tail {base : ℕ} {x : Option Mbuf} {w : List (Option Mbuf)}
    (h : Placed base (x :: w)) : Placed (base + 1) w := h.drop 1

/-- The mbufs of such a window are in order and in its range. -/
theorem Placed.sorted {w : List (Option Mbuf)} :
    ∀ {base : ℕ}, Placed base w →
      w.reduceOption.Pairwise (fun a b => a.seqn < b.seqn)
        ∧ ∀ m ∈ w.reduceOption, base ≤ m.seqn.toNat ∧ m.seqn.toNat < base + w.length := by
  induction w with
  | nil => intro base _; simp
  | cons x w ih =>
      intro base h
      obtain ⟨hsorted, hrange⟩ := ih h.tail
      cases x with
      | none =>
          rw [List.reduceOption_cons_of_none, List.length_cons]
          refine ⟨hsorted, fun m hm => ?_⟩
          have hr := hrange m hm
          omega
      | some m =>
          have hm : m.seqn.toNat = base + 0 := h 0 m rfl
          rw [List.reduceOption_cons_of_some, List.length_cons]
          constructor
          · refine List.pairwise_cons.mpr ⟨fun m' hm' => ?_, hsorted⟩
            have hr := hrange m' hm'
            rw [UInt32.lt_iff_toNat_lt]
            omega
          · intro m' hm'
            rcases List.mem_cons.mp hm' with rfl | hm'
            · omega
            · have hr := hrange m' hm'
              omega

/-! ## §2. The invariant. -/

/-- `xs` was put out or is queued, and `minSeqn`, `window` follow it; all mbufs
satisfy `P`. -/
structure Ordered (size : ℕ) (P : Mbuf → Prop) (xs : List Mbuf) (minSeqn : UInt32)
    (window : List (Option Mbuf)) : Prop where
  sorted : xs.Pairwise (fun a b => a.seqn < b.seqn)
  below : ∀ m ∈ xs, m.seqn.toNat < minSeqn.toNat
  placed : Placed minSeqn.toNat window
  length : window.length = size
  room : minSeqn.toNat + 2 * size ≤ 2 ^ 32
  origin : ∀ m ∈ xs ++ window.reduceOption, P m

section Steps

variable {size : ℕ} {P : Mbuf → Prop} {xs : List Mbuf} {minSeqn : UInt32}
  {window : List (Option Mbuf)}

/-- **Passing `k` places** and letting through some of the mbufs there. -/
theorem Ordered.advance (h : Ordered size P xs minSeqn window) {k : ℕ} {ms : List Mbuf}
    (hms : ms.Sublist (window.take k).reduceOption) (hk : k ≤ size)
    (hroom : minSeqn.toNat + k + 2 * size ≤ 2 ^ 32) :
    Ordered size P (xs ++ ms) (minSeqn + UInt32.ofNat k) (slide window k) := by
  obtain ⟨hsorted, hrange⟩ := (h.placed.take k).sorted
  have hmin : (minSeqn + UInt32.ofNat k).toNat = minSeqn.toNat + k := by
    have hlt := minSeqn.toNat_lt
    rcases Nat.eq_zero_or_pos size with h0 | hpos
    · have hk0 : k = 0 := by omega
      rw [hk0]
      exact congrArg UInt32.toNat (UInt32.add_zero minSeqn)
    · exact uint32_toNat_add_ofNat (by omega)
  have hmem : ∀ m ∈ ms, minSeqn.toNat ≤ m.seqn.toNat ∧ m.seqn.toNat < minSeqn.toNat + k := by
    intro m hm
    have hr := hrange m (hms.subset hm)
    rw [List.length_take] at hr
    omega
  refine ⟨?_, ?_, ?_, ?_, ?_, ?_⟩
  · -- what is let through lies behind everything that was put out
    refine List.pairwise_append.mpr ⟨h.sorted, hsorted.sublist hms, fun a ha b hb => ?_⟩
    have hlo := h.below a ha
    have hhi := (hmem b hb).1
    rw [UInt32.lt_iff_toNat_lt]
    omega
  · intro m hm
    rw [hmin]
    rcases List.mem_append.mp hm with hm | hm
    · have hlo := h.below m hm
      omega
    · exact (hmem m hm).2
  · rw [hmin]
    exact h.placed.slide k
  · rw [slide_length (by rw [h.length]; exact hk), h.length]
  · rw [hmin]
    exact hroom
  · intro m hm
    -- an mbuf that is let through or stays was in the window before
    refine h.origin m ?_
    rw [slide_reduceOption, List.append_assoc] at hm
    rw [← List.take_append_drop k window, List.reduceOption_append]
    rcases List.mem_append.mp hm with hm | hm
    · exact List.mem_append_left _ hm
    · refine List.mem_append_right _ ?_
      rcases List.mem_append.mp hm with hm | hm
      · exact List.mem_append_left _ (hms.subset hm)
      · exact List.mem_append_right _ hm

theorem mem_reduceOption_set {w : List (Option Mbuf)} {i : ℕ} {m m' : Mbuf}
    (h : m' ∈ (w.set i (some m)).reduceOption) : m' = m ∨ m' ∈ w.reduceOption := by
  rw [List.reduceOption_mem_iff] at h ⊢
  rcases List.mem_or_eq_of_mem_set h with h | h
  · exact Or.inr h
  · exact Or.inl (Option.some.inj h)

/-- **Writing the place** that belongs to a sequence number. -/
theorem Ordered.store (h : Ordered size P xs minSeqn window) {i : ℕ} {m : Mbuf} (hP : P m)
    (hm : m.seqn.toNat = minSeqn.toNat + i) :
    Ordered size P xs minSeqn (window.set i (some m)) where
  sorted := h.sorted
  below := h.below
  placed := h.placed.set hm
  length := by rw [List.length_set, h.length]
  room := h.room
  origin := by
    intro m' hm'
    rcases List.mem_append.mp hm' with hm' | hm'
    · exact h.origin m' (List.mem_append_left _ hm')
    · rcases mem_reduceOption_set hm' with rfl | hm'
      · exact hP
      · exact h.origin m' (List.mem_append_right _ hm')

end Steps

/-! ## §3. Every operation keeps it. -/

section Operations

variable {size : ℕ} {P : Mbuf → Prop} {out : List Mbuf} {q : Resequencer}

/-- The offset of a packet that is not late is a difference of numbers; a late
packet is out of the range of the buffer. -/
theorem Ordered.offset_cases (h : Ordered size P (out ++ q.ready) q.minSeqn q.window) (m : Mbuf) :
    (q.minSeqn.toNat ≤ m.seqn.toNat ∧ q.offset m = m.seqn.toNat - q.minSeqn.toNat)
      ∨ (m.seqn.toNat < q.minSeqn.toNat ∧ 2 * size ≤ q.offset m) := by
  have hlt := m.seqn.toNat_lt
  have hroom := h.room
  rcases Nat.lt_or_ge m.seqn.toNat q.minSeqn.toNat with hlate | hge
  · refine Or.inr ⟨hlate, ?_⟩
    -- late: the difference wraps, and stays above the range of the buffer
    have hoff : q.offset m = 2 ^ 32 - q.minSeqn.toNat + m.seqn.toNat := by
      unfold Resequencer.offset
      rw [UInt32.toNat_sub]
      exact Nat.mod_eq_of_lt (by omega)
    omega
  · exact Or.inl ⟨hge, UInt32.toNat_sub_of_le _ _ (UInt32.le_iff_toNat_le.mpr hge)⟩

theorem Ordered.twice_le (h : Ordered size P (out ++ q.ready) q.minSeqn q.window) :
    q.twice ≤ 2 * size := by
  rw [← h.length]
  exact Nat.mod_le _ _

/-- `insert` keeps the order. -/
theorem Ordered.insert (h : Ordered size P (out ++ q.ready) q.minSeqn q.window)
    (hsmall : ∀ m, P m → m.seqn.toNat + 2 * size < 2 ^ 32) {m : Mbuf} (hP : P m) :
    Ordered size P (out ++ (q.insert m).1.ready) (q.insert m).1.minSeqn (q.insert m).1.window := by
  have htwice := h.twice_le
  have hm := hsmall m hP
  unfold Resequencer.insert
  simp only [h.length]
  by_cases hin : q.offset m < size
  · rw [if_pos hin]
    rcases h.offset_cases m with ⟨hge, hoff⟩ | ⟨-, hoff⟩
    · -- the place is the one of its sequence number
      exact h.store hP (by omega)
    · omega
  · rw [if_neg hin]
    by_cases hnear : q.offset m < q.twice
    · rw [if_pos hnear]
      -- not late, since a late packet is out of range
      obtain ⟨hge, hoff⟩ := (h.offset_cases m).resolve_right (by omega)
      have hadv : (q.fillWalk (q.offset m + 1 - size)).adv ≤ size :=
        h.length ▸ q.fillWalk_adv_le _
      -- the walk ends before the packet that made it necessary
      have hfill : Ordered size P (out ++ (q.fill (q.offset m + 1 - size)).ready)
          (q.fill (q.offset m + 1 - size)).minSeqn (q.fill (q.offset m + 1 - size)).window := by
        have hmoved : (q.fillWalk (q.offset m + 1 - size)).moved.Sublist
            (q.window.take (q.fillWalk (q.offset m + 1 - size)).adv).reduceOption := by
          rw [← q.fillWalk_takes]
          exact List.sublist_append_left _ _
        have hadvance := h.advance hmoved hadv (by omega)
        rw [List.append_assoc] at hadvance
        exact hadvance
      by_cases hshort : (q.fillWalk (q.offset m + 1 - size)).adv < q.offset m + 1 - size
      · rw [if_pos hshort]
        exact hfill
      · rw [if_neg hshort]
        refine hfill.store hP ?_
        -- the window starts at the new `min_seqn`, and so does the offset
        have hmin : (q.fill (q.offset m + 1 - size)).minSeqn.toNat
            = q.minSeqn.toNat + (q.fillWalk (q.offset m + 1 - size)).adv :=
          uint32_toNat_add_ofNat (by omega)
        rw [hmin]
        omega
    · rw [if_neg hnear]
      exact h

/-- What leaves the queue and what follows it from the window. -/
theorem Resequencer.drain_queue (q : Resequencer) (max : ℕ) :
    (q.drain max).2 ++ (q.drain max).1.ready
      = q.ready ++ leading (max - q.ready.length) q.window := by
  unfold drain
  rcases Nat.lt_or_ge max q.ready.length with hlt | hge
  · have hnil : leading (max - q.ready.length) q.window = [] := by
      rw [Nat.sub_eq_zero_of_le hlt.le]
      cases q.window <;> rfl
    simp only [hnil, List.append_nil, List.take_append_drop]
  · simp only [List.take_of_length_le hge, List.drop_of_length_le hge, List.append_nil]

/-- `drain` keeps the order. -/
theorem Ordered.drain (h : Ordered size P (out ++ q.ready) q.minSeqn q.window)
    (hsmall : ∀ m, P m → m.seqn.toNat + 2 * size < 2 ^ 32) (max : ℕ) :
    Ordered size P (out ++ (q.drain max).2 ++ (q.drain max).1.ready) (q.drain max).1.minSeqn
      (q.drain max).1.window := by
  have hlen := (leading_length_le (max - q.ready.length) q.window).2
  have hfront : (leading (max - q.ready.length) q.window).Sublist
      (q.window.take (leading (max - q.ready.length) q.window).length).reduceOption := by
    rw [← leading_eq_reduceOption]
  have hroom : q.minSeqn.toNat + (leading (max - q.ready.length) q.window).length + 2 * size
      ≤ 2 ^ 32 := by
    -- the last mbuf that leaves is the one at the last place passed
    rcases Nat.eq_zero_or_pos (leading (max - q.ready.length) q.window).length with h0 | hpos
    · -- nothing leaves the window
      rw [h0]
      exact h.room
    · have hlast : q.window[(leading (max - q.ready.length) q.window).length - 1]?
          = some (some ((leading (max - q.ready.length) q.window).getLast
              (List.ne_nil_of_length_pos hpos))) := by
        have htake : ((leading (max - q.ready.length) q.window).map some)[
            (leading (max - q.ready.length) q.window).length - 1]?
            = q.window[(leading (max - q.ready.length) q.window).length - 1]? := by
          rw [leading_eq_take, List.getElem?_take, if_pos (by omega)]
        rw [← htake, List.getElem?_map, List.getLast_eq_getElem,
          List.getElem?_eq_getElem (by omega)]
        rfl
      have hseq := h.placed _ _ hlast
      have hP := h.origin _ (List.mem_append_right _
        (List.reduceOption_mem_iff.mpr (List.mem_of_getElem? hlast)))
      have hs := hsmall _ hP
      omega
  have hadv := h.advance hfront (h.length ▸ hlen) hroom
  rw [List.append_assoc, ← q.drain_queue max, ← List.append_assoc] at hadv
  exact hadv

end Operations

/-! ## §4. Every run. -/

/-- The order invariant of a trace. -/
def Trace.Ordered (size : ℕ) (P : Mbuf → Prop) (t : Trace) : Prop :=
  Reorder.Ordered size P (t.out ++ t.q.ready) t.q.minSeqn t.q.window

theorem Trace.run_ordered {size batchSize : ℕ} {evs : List Event} {P : Mbuf → Prop}
    (hsize : 2 * size ≤ 2 ^ 32) (hsmall : ∀ m, P m → m.seqn.toNat + 2 * size < 2 ^ 32)
    (hP : ∀ m ∈ inserted evs, P m) :
    (Trace.run size batchSize evs).Ordered size P := by
  refine Trace.invariant (fun t => t.Ordered size P) ?_ ?_
  · have hplaced : Placed 0 (List.replicate size none) := by
      intro i m hi
      rw [List.getElem?_replicate] at hi
      split at hi <;> simp at hi
    have hroom : 0 + 2 * size ≤ 2 ^ 32 := by omega
    refine ⟨List.Pairwise.nil, ?_, hplaced, List.length_replicate, hroom, ?_⟩
    · intro m hm
      exact absurd hm (by simp [Resequencer.empty])
    · intro m hm
      exact absurd hm (by simp [Resequencer.empty])
  · intro pre e hpre h
    cases e with
    | insert m =>
        have hm : m ∈ inserted evs := by
          obtain ⟨rest, hrest⟩ := hpre
          rw [← hrest, inserted_append, inserted_append]
          simp [inserted]
        exact Reorder.Ordered.insert h hsmall (hP m hm)
    | drain => exact Reorder.Ordered.drain h hsmall batchSize

/-- **Reordered output is in sequence order.**  For every power-of-two buffer
size and every run of `reorder_exec` calls with sequence numbers below
`2^32 - 2 * size`, in any order and with any gaps, the concatenated outputs
are mbufs that were passed in, with strictly increasing sequence numbers. -/
theorem reorderRun_sorted (size : UInt32) (batchSize : ℕ) (self : ReorderStage)
    (hinit : reorderInitWith size batchSize = some self) (batches : List (List Mbuf))
    (hsmall : ∀ m ∈ batches.flatten, m.seqn.toNat + 2 * size.toNat < 2 ^ 32) :
    ∃ ms : List Mbuf, (reorderRun self batches).2 = ms.map some
      ∧ ms.Pairwise (fun a b => a.seqn < b.seqn) ∧ ∀ m ∈ ms, m ∈ batches.flatten := by
  have hbuf := (reorderInitWith_refines hinit).2
  have hrun := runEvents_refines hinit (batches.flatMap execEvents)
  have hord : (Trace.run size.toNat batchSize (batches.flatMap execEvents)).Ordered size.toNat
      (fun m => m ∈ batches.flatten) :=
    Trace.run_ordered hbuf.orderWF.size_lt.2 hsmall
      (fun m hm => by rwa [inserted_flatMap] at hm)
  obtain ⟨-, hout⟩ := reorderRun_events batches self ⟨self.reorderBuf, [], []⟩ rfl
  refine ⟨(Trace.run size.toNat batchSize (batches.flatMap execEvents)).out, ?_, ?_, ?_⟩
  · rw [← hrun.out]
    exact hout.symm
  · exact (List.pairwise_append.mp hord.sorted).1
  · intro m hm
    exact hord.origin m (List.mem_append_left _ (List.mem_append_left _ hm))

/-- The gap at 1 is skipped when 5 arrives, and 1 comes too late. -/
theorem fourPlaces_sorted :
    (reorderRun fourPlaces [[pkt 2, pkt 0], [pkt 5, pkt 3], [pkt 1]]).2
        = [some (pkt 0), some (pkt 2), some (pkt 3)]
      ∧ ∃ ms : List Mbuf,
        (reorderRun fourPlaces [[pkt 2, pkt 0], [pkt 5, pkt 3], [pkt 1]]).2 = ms.map some
          ∧ ms.Pairwise (fun a b => a.seqn < b.seqn)
          ∧ ∀ m ∈ ms, m ∈ [[pkt 2, pkt 0], [pkt 5, pkt 3], [pkt 1]].flatten :=
  ⟨by decide +kernel, reorderRun_sorted 4 2 fourPlaces (Option.some_get _).symm _
    (by decide +kernel)⟩

end Meili.Reorder
