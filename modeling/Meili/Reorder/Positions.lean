/-
  Meili.Reorder.Positions — sequence numbers as places in the stream.

  A sequence number is a place in the stream modulo 2^32.  `Numbered` gives every mbuf that a
  resequencer holds its place: those of the queue lie in increasing order in front of the
  window, and place `i` of the window is `i` places behind its start.

    `BufferReachable.numbered` — every buffer that insert and drain bring about has such
    places.
-/
import Meili.Reorder.Reach

namespace Meili.Reorder

open Meili.Lib

/-! ## §1. Numbers of places. -/

/-- The sequence number of a place in the stream. -/
def seqnAt (p : ℤ) : UInt32 := UInt32.ofNat (p % 2 ^ 32).toNat

theorem toNat_seqnAt (p : ℤ) : ((seqnAt p).toNat : ℤ) = p % 2 ^ 32 := by
  unfold seqnAt
  rw [UInt32.toNat_ofNat']
  omega

theorem seqnAt_toNat (x : UInt32) : seqnAt x.toNat = x := by
  have hlt := x.toNat_lt
  have heq := toNat_seqnAt x.toNat
  apply UInt32.toNat.inj
  omega

theorem seqnAt_add (p : ℤ) (k : ℕ) : seqnAt p + UInt32.ofNat k = seqnAt (p + k) := by
  have hp := toNat_seqnAt p
  have hsum := toNat_seqnAt (p + k)
  apply UInt32.toNat.inj
  rw [UInt32.toNat_add, UInt32.toNat_ofNat']
  omega

theorem seqnAt_sub (p q : ℤ) : seqnAt p - seqnAt q = seqnAt (p - q) := by
  have hp := toNat_seqnAt p
  have hq := toNat_seqnAt q
  have hdiff := toNat_seqnAt (p - q)
  apply UInt32.toNat.inj
  rw [UInt32.toNat_sub]
  omega

/-! ## §2. The places of a window. -/

/-- The mbufs of a window that starts at `p`, with their places. -/
def seats : ℤ → List (Option Mbuf) → List (ℤ × Mbuf)
  | _, [] => []
  | p, none :: w => seats (p + 1) w
  | p, some m :: w => (p, m) :: seats (p + 1) w

theorem seats_snd (p : ℤ) (w : List (Option Mbuf)) : (seats p w).map Prod.snd = w.reduceOption := by
  induction w generalizing p with
  | nil => rfl
  | cons x w ih =>
      cases x with
      | none => rw [List.reduceOption_cons_of_none]; exact ih (p + 1)
      | some m => rw [List.reduceOption_cons_of_some, ← ih (p + 1)]; rfl

theorem mem_seats {p : ℤ} {w : List (Option Mbuf)} {x : ℤ × Mbuf} :
    x ∈ seats p w ↔ ∃ i : ℕ, w[i]? = some (some x.2) ∧ x.1 = p + i := by
  induction w generalizing p with
  | nil => simp [seats]
  | cons y w ih =>
      have hrest : (∃ i : ℕ, w[i]? = some (some x.2) ∧ x.1 = p + 1 + i)
          ↔ ∃ i : ℕ, (y :: w)[i + 1]? = some (some x.2) ∧ x.1 = p + ((i + 1 : ℕ) : ℤ) := by
        refine exists_congr fun i => and_congr (by rw [List.getElem?_cons_succ]) ?_
        rw [Nat.cast_succ]
        constructor <;> intro h <;> omega
      cases y with
      | none =>
          show x ∈ seats (p + 1) w ↔ _
          rw [ih, hrest]
          constructor
          · intro h
            obtain ⟨i, hi⟩ := h
            exact ⟨i + 1, hi⟩
          · intro h
            obtain ⟨i, hi⟩ := h
            cases i with
            | zero => exact absurd hi.1 (by simp)
            | succ i => exact ⟨i, hi⟩
      | some m =>
          show x ∈ (p, m) :: seats (p + 1) w ↔ _
          rw [List.mem_cons, ih, hrest]
          constructor
          · intro h
            rcases h with rfl | ⟨i, hi⟩
            · exact ⟨0, by simp⟩
            · exact ⟨i + 1, hi⟩
          · intro h
            obtain ⟨i, hi⟩ := h
            cases i with
            | zero =>
                refine Or.inl (Prod.ext ?_ ?_)
                · simpa using hi.2
                · simpa using hi.1.symm
            | succ i => exact Or.inr ⟨i, hi⟩

theorem seats_append (p : ℤ) (w w' : List (Option Mbuf)) :
    seats p (w ++ w') = seats p w ++ seats (p + w.length) w' := by
  induction w generalizing p with
  | nil => simp [seats]
  | cons x w ih =>
      have hend : p + ((x :: w).length : ℤ) = p + 1 + w.length := by
        rw [List.length_cons, Nat.cast_succ]
        omega
      rw [hend]
      cases x with
      | none => exact ih (p + 1)
      | some m => exact congrArg ((p, m) :: ·) (ih (p + 1))

theorem seats_replicate_none (p : ℤ) (k : ℕ) : seats p (List.replicate k none) = [] := by
  induction k generalizing p with
  | zero => rfl
  | succ k ih => exact ih (p + 1)

/-- The places of a window that slides are those behind the places passed. -/
theorem seats_slide {w : List (Option Mbuf)} {k : ℕ} (hk : k ≤ w.length) (p : ℤ) :
    seats p w = seats p (w.take k) ++ seats (p + k) (slide w k) := by
  have hlength : (w.take k).length = k := by rw [List.length_take, Nat.min_eq_left hk]
  conv_lhs => rw [← List.take_append_drop k w]
  rw [seats_append, hlength, slide, seats_append, seats_replicate_none, List.append_nil]

theorem seats_sorted (p : ℤ) (w : List (Option Mbuf)) :
    (seats p w).Pairwise fun x y => x.1 < y.1 := by
  induction w generalizing p with
  | nil => exact List.Pairwise.nil
  | cons x w ih =>
      cases x with
      | none => exact ih (p + 1)
      | some m =>
          refine List.pairwise_cons.mpr ⟨fun y hy => ?_, ih (p + 1)⟩
          obtain ⟨i, -, hi⟩ := mem_seats.mp hy
          show p < y.1
          omega

/-- The places of a window lie in its range. -/
theorem seats_range {p : ℤ} {w : List (Option Mbuf)} {x : ℤ × Mbuf} (hx : x ∈ seats p w) :
    p ≤ x.1 ∧ x.1 < p + w.length := by
  obtain ⟨i, hi, hpos⟩ := mem_seats.mp hx
  have hlt := (List.getElem?_eq_some_iff.mp hi).1
  omega

/-! ## §3. The places of a resequencer. -/

/-- The window of `q` starts at place `base`, and `placed` gives the queue its places. -/
structure Numbered (q : Resequencer) (base : ℤ) (placed : List (ℤ × Mbuf)) : Prop where
  minSeqn : q.minSeqn = seqnAt base
  ready : q.ready = placed.map Prod.snd
  sorted : placed.Pairwise fun x y => x.1 < y.1
  below : ∀ x ∈ placed, x.1 < base
  seqn : ∀ x ∈ placed ++ seats base q.window, x.2.seqn = seqnAt x.1

section Numbered

variable {q : Resequencer} {base : ℤ} {placed : List (ℤ × Mbuf)}

/-- A resequencer that holds nothing may start anywhere. -/
theorem numbered_of_empty (h : q.held = []) : Numbered q q.minSeqn.toNat [] := by
  obtain ⟨hready, hwindow⟩ := List.append_eq_nil_iff.mp h
  refine ⟨(seqnAt_toNat _).symm, hready, List.Pairwise.nil, by simp, fun x hx => ?_⟩
  rw [← seats_snd q.minSeqn.toNat, List.map_eq_nil_iff] at hwindow
  rw [hwindow] at hx
  exact absurd hx (by simp)

/-- **Passing `k` places** and queueing some of the mbufs there. -/
theorem Numbered.advance (h : Numbered q base placed) {k : ℕ} {ms : List Mbuf}
    (hms : ms.Sublist (q.window.take k).reduceOption) (hk : k ≤ q.window.length) :
    ∃ moved, Numbered
      ⟨q.minSeqn + UInt32.ofNat k, q.ready ++ ms, slide q.window k⟩ (base + k)
      (placed ++ moved) := by
  rw [← seats_snd base, List.sublist_map_iff] at hms
  obtain ⟨moved, hsub, rfl⟩ := hms
  have hsplit := seats_slide hk base
  have hrange : ∀ x ∈ moved, base ≤ x.1 ∧ x.1 < base + k := by
    intro x hx
    have hr := seats_range (hsub.subset hx)
    rw [List.length_take, Nat.min_eq_left hk] at hr
    exact hr
  refine ⟨moved, ?_, ?_, ?_, ?_, ?_⟩
  · rw [h.minSeqn, seqnAt_add]
  · rw [h.ready, List.map_append]
  · refine List.pairwise_append.mpr ⟨h.sorted, (seats_sorted _ _).sublist hsub, ?_⟩
    intro x hx y hy
    exact (h.below x hx).trans_le (hrange y hy).1
  · intro x hx
    rcases List.mem_append.mp hx with hx | hx
    · have hlt := h.below x hx
      omega
    · exact (hrange x hx).2
  · intro x hx
    refine h.seqn x ?_
    rw [hsplit]
    rcases List.mem_append.mp hx with hx | hx
    · rcases List.mem_append.mp hx with hx | hx
      · exact List.mem_append_left _ hx
      · exact List.mem_append_right _ (List.mem_append_left _ (hsub.subset hx))
    · exact List.mem_append_right _ (List.mem_append_right _ hx)

/-- Some of the queue leaves. -/
theorem Numbered.dropReady (h : Numbered q base placed) (k : ℕ) :
    Numbered { q with ready := q.ready.drop k } base (placed.drop k) where
  minSeqn := h.minSeqn
  ready := by rw [h.ready, List.map_drop]
  sorted := h.sorted.sublist (List.drop_sublist k placed)
  below := fun x hx => h.below x (List.mem_of_mem_drop hx)
  seqn := by
    intro x hx
    refine h.seqn x ?_
    rcases List.mem_append.mp hx with hx | hx
    · exact List.mem_append_left _ (List.mem_of_mem_drop hx)
    · exact List.mem_append_right _ hx

/-- An mbuf is stored at the place of its number. -/
theorem Numbered.store (h : Numbered q base placed) {m : Mbuf} {i : ℕ}
    (hm : m.seqn = q.minSeqn + UInt32.ofNat i) :
    Numbered { q with window := q.window.set i (some m) } base placed where
  minSeqn := h.minSeqn
  ready := h.ready
  sorted := h.sorted
  below := h.below
  seqn := by
    intro x hx
    rcases List.mem_append.mp hx with hx | hx
    · exact h.seqn x (List.mem_append_left _ hx)
    · obtain ⟨j, hj, hpos⟩ := mem_seats.mp hx
      rw [List.getElem?_set] at hj
      split at hj
      · next hij =>
          split at hj
          · rw [← Option.some.inj (Option.some.inj hj), hm, h.minSeqn, seqnAt_add, hpos, hij]
          · exact absurd hj (by simp)
      · exact h.seqn x (List.mem_append_right _ (mem_seats.mpr ⟨j, hj, hpos⟩))

theorem Numbered.fill (h : Numbered q base placed) (n : ℕ) :
    ∃ moved, Numbered (q.fill n) (base + (q.fillWalk n).adv) (placed ++ moved) := by
  refine h.advance ?_ (q.fillWalk_adv_le n)
  rw [← q.fillWalk_takes n]
  exact List.sublist_append_left _ _

theorem Numbered.insert (h : Numbered q base placed) (m : Mbuf) :
    ∃ base' placed', Numbered (q.insert m).1 base' placed' := by
  have hm : m.seqn = q.minSeqn + UInt32.ofNat (q.offset m) := by
    unfold Resequencer.offset
    rw [UInt32.ofNat_toNat, UInt32.add_comm, UInt32.sub_add_cancel]
  unfold Resequencer.insert
  dsimp only
  split
  · exact ⟨base, placed, h.store hm⟩
  · next hfar =>
    split
    · obtain ⟨moved, hfill⟩ := h.fill (q.offset m + 1 - q.window.length)
      split
      · exact ⟨_, _, hfill⟩
      · next hadv =>
          -- the place of `m`, counted from the new start of the window
          have hle := q.fillWalk_adv_le (q.offset m + 1 - q.window.length)
          refine ⟨_, _, hfill.store ?_⟩
          show m.seqn = q.minSeqn + UInt32.ofNat _ + UInt32.ofNat _
          rw [UInt32.add_assoc, ← UInt32.ofNat_add, Nat.add_sub_of_le (by omega)]
          exact hm
    · exact ⟨base, placed, h⟩

theorem Numbered.drain (h : Numbered q base placed) (max : ℕ) :
    ∃ base' placed', Numbered (q.drain max).1 base' placed' := by
  have hle := leading_length_le (max - q.ready.length) q.window
  obtain ⟨moved, hadv⟩ := h.advance (List.nil_sublist _) hle.2
  rw [List.append_nil] at hadv
  exact ⟨_, _, hadv.dropReady max⟩

end Numbered

/-! ## §4. Every reachable buffer has places. -/

/-- The mbufs that `b` holds have places in the stream. -/
def HasPlaces (size : ℕ) (b : ReorderBuffer) : Prop :=
  ∃ q base placed, Holds size b q ∧ Numbered q base placed

section HasPlaces

variable {size : ℕ} {b b' : ReorderBuffer} {q : Resequencer}

/-- `rte_reorder_is_empty` -/
theorem Holds.held_nil (h : Holds size b q) (hempty : rteReorderIsEmpty b = true) :
    q.held = [] := by
  have hready : b.readyBuf.queue size = q.ready.map some := h.refines.ready
  have hwindow : b.orderBuf.places size = q.window := h.refines.window
  have hsize : b.orderBuf.size.toNat = size := h.refines.orderWF.size_eq
  unfold rteReorderIsEmpty at hempty
  split at hempty
  · exact absurd hempty (by decide)
  · next hmeet =>
      have hnil : b.readyBuf.queue size = [] :=
        h.refines.readyWF.empty_iff.mp (not_not.mp hmeet)
      rw [hnil] at hready
      rw [hsize, List.all_eq_true] at hempty
      have hnone : ∀ x ∈ q.window, x = none := by
        intro x hx
        rw [← hwindow, CirBuffer.places, (window_perm _ _ _).mem_iff, List.mem_map] at hx
        obtain ⟨i, hi, rfl⟩ := hx
        exact Option.isNone_iff_eq_none.mp (hempty i hi)
      unfold Resequencer.held
      rw [List.map_eq_nil_iff.mp hready.symm, List.nil_append, List.eq_nil_iff_forall_not_mem]
      intro m hm
      exact absurd (hnone _ (List.reduceOption_mem_iff.mp hm)) (by simp)

theorem HasPlaces.insert (h : HasPlaces size b) (m : Mbuf) :
    HasPlaces size (rteReorderInsert b (some m)).1 := by
  obtain ⟨q, base, placed, hq, hnum⟩ := h
  have hstart : ∃ base placed, Numbered (q.startAt b m) base placed := by
    cases hinit : b.isInitialized with
    | true =>
        have hsame : q.startAt b m = q := by simp [Resequencer.startAt, hinit]
        rw [hsame]
        exact ⟨base, placed, hnum⟩
    | false => exact ⟨_, _, numbered_of_empty (hq.fresh hinit)⟩
  obtain ⟨_, _, hstart⟩ := hstart
  obtain ⟨_, _, hinsert⟩ := hstart.insert m
  exact ⟨_, _, _, (hq.insert m).1.holds, hinsert⟩

theorem HasPlaces.minSeqnSet (h : HasPlaces size b) (minSeqn : UInt32) :
    HasPlaces size (rteReorderMinSeqnSet b minSeqn).1 := by
  obtain ⟨q, base, placed, hq, hnum⟩ := h
  cases hempty : rteReorderIsEmpty b with
  | false =>
      have hsame : (rteReorderMinSeqnSet b minSeqn).1 = b := by simp [rteReorderMinSeqnSet, hempty]
      rw [hsame]
      exact ⟨q, base, placed, hq, hnum⟩
  | true =>
      rw [rteReorderMinSeqnSet_empty hempty]
      refine ⟨{ q with minSeqn := minSeqn }, _, _, Refines.holds ?_,
        numbered_of_empty (hq.held_nil hempty)⟩
      exact { hq.refines with minSeqn := rfl }

theorem HasPlaces.step (h : HasPlaces size b) (hstep : BufferStep b b') : HasPlaces size b' := by
  cases hstep with
  | insert mbuf =>
      cases mbuf with
      | none => exact h
      | some m => exact h.insert m
  | drain max =>
      obtain ⟨q, base, placed, hq, hnum⟩ := h
      obtain ⟨_, _, hdrain⟩ := hnum.drain max
      exact ⟨_, _, _, (hq.drain max).1, hdrain⟩
  | minSeqnSet minSeqn => exact h.minSeqnSet minSeqn

theorem hasPlaces_create {size : UInt32} (h : rteReorderCreate size = some b) :
    HasPlaces size.toNat b :=
  ⟨_, _, _, rteReorderCreate_holds h,
    numbered_of_empty (by simp [Resequencer.held, Resequencer.empty])⟩

end HasPlaces

end Meili.Reorder
