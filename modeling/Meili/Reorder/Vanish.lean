/-
  Meili.Reorder.Vanish — when `reorder_exec` keeps hold of every mbuf of its batch.

  `reorder_exec` looks at what `rte_reorder_insert` returned and prints it; it neither
  passes a rejected mbuf on nor frees it.  An insert that is accepted may drop an mbuf as
  well: one that was in the place of its sequence number, or one that the walk of
  `rte_reorder_fill_overflow` clears with the ready buffer full.

  `Takes` is the condition on the state before an insert under which none of this
  happens:

    • `insert_takes`, `insert_not_takes` — an insert adds its mbuf to what is held, or some
      mbuf is held no more;
    • `reorderExec_vanish_iff` — no mbuf vanishes in a call if and only if the buffer takes
      every mbuf of the batch.
-/
import Meili.Reorder.Reach

namespace Meili.Reorder

open Meili.Lib

/-! ## §1. How far a walk goes. -/

/-- **A walk that loses nothing passes `n` places** if and only if the queue does not fill
up in front of the last of them. -/
theorem walk_adv_iff (n : ℕ) (w : List (Option Mbuf)) :
    ∀ a f, n - a ≤ w.length → (walk n a f w).lost = none →
      (n ≤ (walk n a f w).adv ↔ n ≤ a ∨ (w.take (n - 1 - a)).reduceOption.length < f) := by
  induction w with
  | nil =>
      intro a f hlen _
      have hna : n ≤ a := Nat.le_of_sub_eq_zero (Nat.le_zero.mp hlen)
      exact ⟨fun _ => Or.inl hna, fun _ => hna⟩
  | cons x w ih =>
      intro a f hlen hlost
      rw [List.length_cons] at hlen
      by_cases hna : n ≤ a
      · have hle := (walk_adv_bounds n (x :: w) a f).1
        exact ⟨fun _ => Or.inl hna, fun _ => by omega⟩
      · cases x with
        | none =>
            by_cases hf : f = 0
            · -- a full queue stops at the gap
              rw [walk_stop rfl (fun h => h.2 hf), hf]
              simp only [Nat.not_lt_zero, or_false]
            · have hgo : a < n ∧ f ≠ 0 := ⟨by omega, hf⟩
              rw [walk_none hgo] at hlost ⊢
              rw [ih (a + 1) f (by omega) hlost]
              by_cases hlast : n = a + 1
              · simp only [hlast, le_refl, true_or, true_iff]
                right
                simpa using Nat.pos_of_ne_zero hf
              · rw [show n - 1 - a = n - 1 - (a + 1) + 1 by omega, List.take_succ_cons,
                  List.reduceOption_cons_of_none]
                constructor
                · intro h
                  rcases h with h | h
                  · omega
                  · exact Or.inr h
                · intro h
                  rcases h with h | h
                  · omega
                  · exact Or.inr h
        | some m =>
            by_cases hf : f = 0
            · -- the mbuf met with a full queue is lost
              rw [hf] at hlost
              exact absurd hlost (by simp [walk])
            · rw [walk_some hf] at hlost ⊢
              dsimp only at hlost ⊢
              rw [ih (a + 1) (f - 1) (by omega) hlost]
              by_cases hlast : n = a + 1
              · simp only [hlast, le_refl, true_or, true_iff]
                right
                simpa using Nat.pos_of_ne_zero hf
              · rw [show n - 1 - a = n - 1 - (a + 1) + 1 by omega, List.take_succ_cons,
                  List.reduceOption_cons_of_some, List.length_cons]
                constructor
                · intro h
                  rcases h with h | h
                  · omega
                  · exact Or.inr (by omega)
                · intro h
                  rcases h with h | h
                  · omega
                  · exact Or.inr (by omega)

/-! ## §2. Which inserts take their mbuf and drop none. -/

/-- What is not in the remaining part of a list without repetitions was taken out. -/
theorem not_mem_of_perm_append {α : Type*} {new out old : List α} {x : α}
    (h : (new ++ out).Perm old) (hnodup : old.Nodup) (hx : x ∈ out) : x ∉ new := by
  intro hnew
  exact (List.nodup_append.mp (h.nodup_iff.mpr hnodup)).2.2 x hnew x hx rfl

/-- Writing to an occupied place drops what was there. -/
theorem reduceOption_set_replace {w : List (Option Mbuf)} {i : ℕ} {x : Mbuf} (m : Mbuf)
    (h : w[i]? = some (some x)) :
    ((w.set i (some m)).reduceOption ++ [x]).Perm (w.reduceOption ++ [m]) := by
  induction w generalizing i with
  | nil => exact absurd h (by simp)
  | cons y w ih =>
      cases i with
      | zero =>
          obtain rfl : y = some x := by simpa using h
          rw [List.set_cons_zero, List.reduceOption_cons_of_some, List.reduceOption_cons_of_some]
          refine List.Perm.trans ?_ (List.perm_append_singleton m _).symm
          refine (List.perm_append_singleton x (m :: w.reduceOption)).trans ?_
          exact List.Perm.swap m x _
      | succ i =>
          have hw := ih (i := i) (by simpa using h)
          cases y with
          | none => simpa using hw
          | some y => simpa using hw

namespace Resequencer

/-- The buffer takes `m`: its place is empty; or it lies behind the window, and the queue
has room for all mbufs that the window has to pass, but for one at the last place. -/
def Takes (q : Resequencer) (m : Mbuf) : Prop :=
  if q.offset m < q.window.length then q.window[q.offset m]? = some none
  else q.offset m < q.twice ∧ 0 < q.free
    ∧ (q.window.take (q.offset m - q.window.length)).reduceOption.length < q.free
    ∧ ∀ j, 0 < j → ¬ OverrunAt (q.offset m + 1 - q.window.length) q.free q.window j

variable {q : Resequencer} {m : Mbuf}

theorem twice_le (q : Resequencer) : q.twice ≤ 2 * q.window.length := Nat.mod_le _ _

theorem fillWalk_reaches_iff {n : ℕ} (hpos : 0 < n) (hn : n ≤ q.window.length)
    (hlost : (q.fillWalk n).lost = none) :
    n ≤ (q.fillWalk n).adv
      ↔ 0 < q.free ∧ (q.window.take (n - 1)).reduceOption.length < q.free := by
  unfold fillWalk at hlost ⊢
  split
  next hfull =>
    constructor
    · intro h
      exact absurd h (Nat.not_le.mpr hpos)
    · intro h
      obtain ⟨hfree, -⟩ := h
      omega
  next hfree =>
    rw [if_neg hfree] at hlost
    rw [walk_adv_iff n q.window 0 q.free (by omega) hlost, Nat.sub_zero]
    constructor
    · intro h
      rcases h with h | h
      · omega
      · exact ⟨Nat.pos_of_ne_zero hfree, h⟩
    · intro h
      obtain ⟨-, h⟩ := h
      exact Or.inr h

theorem mem_fill_held {n : ℕ} {x : Mbuf} (h : x ∈ (q.fill n).held) : x ∈ q.held :=
  (q.fill_held n).subset (List.mem_append_left _ h)

/-- The place of an mbuf behind the window is one of those that are freed. -/
theorem slide_free_place {w : List (Option Mbuf)} {adv offset : ℕ} (hadv : adv ≤ w.length)
    (hlo : w.length ≤ offset) (hhi : offset < w.length + adv) :
    (slide w adv)[offset - adv]? = some none := by
  unfold slide
  rw [List.getElem?_append_right (by rw [List.length_drop]; omega), List.length_drop,
    List.getElem?_replicate, if_pos (by omega)]

/-- **An insert that is taken** adds its mbuf to what is held. -/
theorem insert_takes (h : q.Takes m) :
    (q.insert m).2 = none ∧ (q.insert m).1.held.Perm (q.held ++ [m]) := by
  have htwice := q.twice_le
  unfold Takes at h
  unfold insert
  dsimp only
  split at h
  next hin =>
    rw [if_pos hin]
    refine ⟨rfl, ?_⟩
    show (q.ready ++ (q.window.set (q.offset m) (some m)).reduceOption).Perm _
    rw [held, List.append_assoc]
    exact List.Perm.append_left _ (reduceOption_set_perm m h)
  next hin =>
    obtain ⟨hnear, hfree, hroom, hover⟩ := h
    have hlost : (q.fillWalk (q.offset m + 1 - q.window.length)).lost = none := by
      by_contra hne
      obtain ⟨j, hpos, hj⟩ := (q.fillWalk_lost_iff _).mp hne
      exact hover j hpos hj
    have hreach : q.offset m + 1 - q.window.length
        ≤ (q.fillWalk (q.offset m + 1 - q.window.length)).adv := by
      rw [fillWalk_reaches_iff (by omega) (by omega) hlost,
        show q.offset m + 1 - q.window.length - 1 = q.offset m - q.window.length by omega]
      exact ⟨hfree, hroom⟩
    have hadv := q.fillWalk_adv_le (q.offset m + 1 - q.window.length)
    have hfill := q.fill_held (q.offset m + 1 - q.window.length)
    rw [hlost, Option.toList_none, List.append_nil] at hfill
    rw [if_neg hin, if_pos hnear, if_neg (by omega)]
    refine ⟨rfl, ?_⟩
    have hplace : (q.fill (q.offset m + 1 - q.window.length)).window[
        q.offset m - (q.fillWalk (q.offset m + 1 - q.window.length)).adv]? = some none :=
      slide_free_place hadv (by omega) (by omega)
    have hset := reduceOption_set_perm m hplace
    show ((q.fill (q.offset m + 1 - q.window.length)).ready ++ (List.set _ _ (some m)).reduceOption
      ).Perm _
    refine (List.Perm.append_left _ hset).trans ?_
    rw [← List.append_assoc]
    exact hfill.append_right [m]

theorem mem_held_set {q : Resequencer} {i : ℕ} {m x : Mbuf}
    (h : x ∈ ({ q with window := q.window.set i (some m) } : Resequencer).held) :
    x ∈ q.held ∨ x = m := by
  rcases List.mem_append.mp h with h | h
  · exact Or.inl (List.mem_append_left _ h)
  · exact (mem_reduceOption_set h).symm.imp_left (List.mem_append_right _)

/-- Behind the window, an insert holds what the walk has left and perhaps its mbuf. -/
theorem mem_insert_held_of_near {x : Mbuf} (hin : ¬ q.offset m < q.window.length)
    (hnear : q.offset m < q.twice) (h : x ∈ (q.insert m).1.held) :
    x ∈ (q.fill (q.offset m + 1 - q.window.length)).held ∨ (x = m ∧ (q.insert m).2 = none) := by
  unfold insert at h ⊢
  dsimp only at h ⊢
  rw [if_neg hin, if_pos hnear] at h ⊢
  split
  next hshort =>
    rw [if_pos hshort] at h
    exact Or.inl h
  next hshort =>
    rw [if_neg hshort] at h
    exact (mem_held_set h).imp_right fun hx => ⟨hx, rfl⟩

/-- Whatever an insert returns, it holds nothing new but its mbuf, and that one only when
it returns 0. -/
theorem mem_insert_held {x : Mbuf} (h : x ∈ (q.insert m).1.held) :
    x ∈ q.held ∨ (x = m ∧ (q.insert m).2 = none) := by
  by_cases hin : q.offset m < q.window.length
  · unfold insert at h ⊢
    dsimp only at h ⊢
    rw [if_pos hin] at h ⊢
    exact (mem_held_set h).imp_right fun hx => ⟨hx, rfl⟩
  · by_cases hnear : q.offset m < q.twice
    · exact (mem_insert_held_of_near hin hnear h).imp_left mem_fill_held
    · unfold insert at h
      dsimp only at h
      rw [if_neg hin, if_neg hnear] at h
      exact Or.inl h

/-- A rejected mbuf has no place. -/
theorem insert_rejected_lost (hm : m ∉ q.held) (hret : (q.insert m).2 ≠ none) :
    ∃ x ∈ q.held ++ [m], x ∉ (q.insert m).1.held := by
  refine ⟨m, List.mem_append_right _ (List.mem_singleton.mpr rfl), fun hmem => ?_⟩
  rcases mem_insert_held hmem with hheld | ⟨-, hnone⟩
  · exact hm hheld
  · exact hret hnone

/-- An insert into an occupied place overwrites what is there. -/
theorem insert_occupied_lost (hnodup : (q.held ++ [m]).Nodup)
    (hin : q.offset m < q.window.length) (hocc : q.window[q.offset m]? ≠ some none) :
    ∃ x ∈ q.held ++ [m], x ∉ (q.insert m).1.held := by
  obtain ⟨x, hx⟩ : ∃ x, q.window[q.offset m]? = some (some x) := by
    rw [List.getElem?_eq_getElem hin] at hocc ⊢
    obtain ⟨x, hx⟩ := Option.ne_none_iff_exists'.mp fun h0 => hocc (congrArg some h0)
    exact ⟨x, congrArg some hx⟩
  have hins : (q.insert m).1 = { q with window := q.window.set (q.offset m) (some m) } := by
    unfold insert
    dsimp only
    rw [if_pos hin]
  have hperm : ((q.insert m).1.held ++ [x]).Perm (q.held ++ [m]) := by
    rw [hins, held, held, List.append_assoc, List.append_assoc]
    exact List.Perm.append_left _ (reduceOption_set_replace m hx)
  have hmem : x ∈ q.held ++ [m] :=
    hperm.subset (List.mem_append_right _ (List.mem_singleton.mpr rfl))
  exact ⟨x, hmem, not_mem_of_perm_append hperm hnodup (List.mem_singleton.mpr rfl)⟩

/-- What the walk of an insert loses is not held behind the insert. -/
theorem insert_walk_lost (hnodup : q.held.Nodup) (hm : m ∉ q.held)
    (hin : ¬ q.offset m < q.window.length) (hnear : q.offset m < q.twice) {x : Mbuf}
    (hlost : (q.fillWalk (q.offset m + 1 - q.window.length)).lost = some x) :
    ∃ x ∈ q.held ++ [m], x ∉ (q.insert m).1.held := by
  have hperm := q.fill_held (q.offset m + 1 - q.window.length)
  rw [hlost, Option.toList_some] at hperm
  have hx : x ∈ q.held := hperm.subset (List.mem_append_right _ (List.mem_singleton.mpr rfl))
  have hgone : x ∉ (q.fill (q.offset m + 1 - q.window.length)).held :=
    not_mem_of_perm_append hperm hnodup (List.mem_singleton.mpr rfl)
  refine ⟨x, List.mem_append_left _ hx, fun hmem => ?_⟩
  rcases mem_insert_held_of_near hin hnear hmem with hfill | ⟨rfl, -⟩
  · exact hgone hfill
  · exact hm hx

/-- **An insert that is not taken** leaves some mbuf without a place. -/
theorem insert_not_takes (hnodup : (q.held ++ [m]).Nodup) (h : ¬ q.Takes m) :
    ∃ x ∈ q.held ++ [m], x ∉ (q.insert m).1.held := by
  have htwice := q.twice_le
  have hm : m ∉ q.held := fun hmem =>
    (List.nodup_append.mp hnodup).2.2 m hmem m (List.mem_singleton.mpr rfl) rfl
  unfold Takes at h
  split at h
  next hin => exact insert_occupied_lost hnodup hin h
  next hin =>
    by_cases hnear : q.offset m < q.twice
    · cases hlost : (q.fillWalk (q.offset m + 1 - q.window.length)).lost with
      | some x => exact insert_walk_lost (List.nodup_append.mp hnodup).1 hm hin hnear hlost
      | none =>
          -- nothing is lost, so the walk does not get far enough
          have hover : ∀ j, 0 < j →
              ¬ OverrunAt (q.offset m + 1 - q.window.length) q.free q.window j := by
            intro j hpos hj
            exact (q.fillWalk_lost_iff _).mpr ⟨j, hpos, hj⟩ hlost
          have hreach := fillWalk_reaches_iff (q := q)
            (n := q.offset m + 1 - q.window.length) (by omega) (by omega) hlost
          rw [show q.offset m + 1 - q.window.length - 1 = q.offset m - q.window.length by omega]
            at hreach
          refine insert_rejected_lost hm ?_
          unfold insert
          dsimp only
          rw [if_neg hin, if_pos hnear, if_pos]
          · simp
          · by_contra hge
            obtain ⟨hfree, hroom⟩ := hreach.mp (Nat.le_of_not_lt hge)
            exact h ⟨hnear, hfree, hroom, hover⟩
    · refine insert_rejected_lost hm ?_
      unfold insert
      dsimp only
      rw [if_neg hin, if_neg hnear]
      simp

end Resequencer

/-! ## §3. Owners in the source. -/

/-- How often `m` is in the buffer: in the slots of `order_buf` and in the live slots of
`ready_buf`. -/
def owners (b : ReorderBuffer) (m : Mbuf) : ℕ :=
  (orderSlots b).count (some m) + (readySlots b).count (some m)

/-- The buffer takes `m`, in terms of the two circular buffers.  An insert into a buffer
that is not initialised first sets `min_seqn`. -/
def Takes (b : ReorderBuffer) (m : Mbuf) : Prop :=
  let size := b.orderBuf.size.toNat
  let places := b.orderBuf.places size
  let offset := (m.seqn - (b.startAt m).minSeqn).toNat
  let free := size - 1 - (readySlots b).length
  if offset < size then places[offset]? = some none
  else offset < 2 * size % 2 ^ 32 ∧ 0 < free
    ∧ (places.take (offset - size)).reduceOption.length < free
    ∧ ∀ j, 0 < j → ¬ OverrunAt (offset + 1 - size) free places j

/-- No mbuf of the batch vanishes in the call.  `reorder_exec` frees nothing, so an mbuf it
does not keep must be in `mbuf_drain`. -/
structure NoneVanishes (stage : ReorderStage) (mbufs : List Mbuf) : Prop where
  /-- A rejected mbuf is passed on. -/
  rejected : ∀ (i : ℕ) (m : Mbuf) (ret : RteErrno), mbufs[i]? = some m →
    (reorderExec stage mbufs).2.1[i]? = some (some ret) → some m ∈ (reorderExec stage mbufs).2.2
  /-- What had one owner, the buffer or the caller, still has one. -/
  owned : ∀ m, owners stage.reorderBuf m + mbufs.count m = 1 →
    owners (reorderExec stage mbufs).1.reorderBuf m
      + (reorderExec stage mbufs).2.2.count (some m) = 1

section Source

variable {size : ℕ} {b : ReorderBuffer} {q : Resequencer}

theorem Holds.owners_eq (h : Holds size b q) (m : Mbuf) : owners b m = q.held.count m :=
  h.refines.slots_count m

theorem Holds.takes_iff (h : Holds size b q) (m : Mbuf) : Takes b m ↔ (q.startAt b m).Takes m := by
  have href := h.refines
  have hoff : (m.seqn - (b.startAt m).minSeqn).toNat = (q.startAt b m).offset m := by
    rw [(h.startAt m).minSeqn]
    rfl
  have hfree : size - 1 - (readySlots b).length = (q.startAt b m).free := href.free_eq
  have hwindow : b.orderBuf.places size = (q.startAt b m).window := href.window
  have hlen : (q.startAt b m).window.length = size := href.window_length
  unfold Takes Resequencer.Takes Resequencer.twice
  dsimp only
  rw [show b.orderBuf.size.toNat = size from href.orderWF.size_eq, hoff, hfree, hwindow, hlen]

/-- **A batch that is taken** is added to what is held, and no insert fails. -/
theorem Holds.insertAll_takes (mbufs : List Mbuf) :
    ∀ (b : ReorderBuffer) (q : Resequencer), Holds size b q →
      (∀ pre m, pre ++ [m] <+: mbufs → Takes (insertAll b pre).1 m) →
      (∀ ret ∈ (insertAll b mbufs).2, ret = none)
        ∧ ∃ q', Holds size (insertAll b mbufs).1 q' ∧ q'.held.Perm (q.held ++ mbufs) := by
  induction mbufs with
  | nil =>
      intro b q h _
      refine ⟨fun ret hret => absurd hret (by simp [insertAll]), q, h, ?_⟩
      rw [List.append_nil]
  | cons m mbufs ih =>
      intro b q h htakes
      have hm : Takes b m := htakes [] m ⟨mbufs, rfl⟩
      obtain ⟨hnone, hheld⟩ := Resequencer.insert_takes ((h.takes_iff m).mp hm)
      obtain ⟨hins, hret⟩ := h.insert m
      obtain ⟨hrets, q', hq', hheld'⟩ := ih _ _ hins.holds
        fun pre m' hpre => htakes (m :: pre) m' (List.cons_prefix_cons.mpr ⟨rfl, hpre⟩)
      refine ⟨?_, q', hq', ?_⟩
      · intro ret hmem
        rcases List.mem_cons.mp hmem with rfl | hmem
        · exact hret.trans hnone
        · exact hrets ret hmem
      · refine hheld'.trans ((hheld.append_right mbufs).trans ?_)
        rw [List.append_assoc]
        rfl

/-- Nothing that the buffer does not hold is held after a batch that it is not in. -/
theorem Holds.mem_insertAll {x : Mbuf} (mbufs : List Mbuf) :
    ∀ (b : ReorderBuffer) (q : Resequencer), Holds size b q → x ∉ q.held → x ∉ mbufs →
      ∃ q', Holds size (insertAll b mbufs).1 q' ∧ x ∉ q'.held := by
  induction mbufs with
  | nil =>
      intro b q h hx _
      exact ⟨q, h, hx⟩
  | cons m mbufs ih =>
      intro b q h hx hbatch
      refine ih _ _ (h.insert m).1.holds ?_ fun hmem => hbatch (List.mem_cons_of_mem _ hmem)
      intro hmem
      rcases Resequencer.mem_insert_held hmem with hheld | ⟨rfl, -⟩
      · exact hx hheld
      · exact hbatch (List.mem_cons_self ..)

/-- **A batch that is not taken** leaves some mbuf without an owner. -/
theorem Holds.insertAll_not_takes (mbufs : List Mbuf) :
    ∀ (b : ReorderBuffer) (q : Resequencer), Holds size b q → (q.held ++ mbufs).Nodup →
      (¬ ∀ pre m, pre ++ [m] <+: mbufs → Takes (insertAll b pre).1 m) →
      ∃ x ∈ q.held ++ mbufs, ∃ q', Holds size (insertAll b mbufs).1 q' ∧ x ∉ q'.held := by
  induction mbufs with
  | nil =>
      intro b q _ _ hnot
      refine absurd (fun pre m hpre => ?_) hnot
      exact absurd (List.prefix_nil.mp hpre) (by simp)
  | cons m mbufs ih =>
      intro b q h hnodup hnot
      have hsplit : q.held ++ m :: mbufs = q.held ++ [m] ++ mbufs := by
        rw [List.append_assoc, List.singleton_append]
      rw [hsplit] at hnodup ⊢
      by_cases hm : Takes b m
      · -- the first insert keeps all, so the batch behind it loses one
        obtain ⟨-, hheld⟩ := Resequencer.insert_takes ((h.takes_iff m).mp hm)
        have hall := hheld.append_right mbufs
        have hrest : ¬ ∀ pre m', pre ++ [m'] <+: mbufs →
            Takes (insertAll (rteReorderInsert b (some m)).1 pre).1 m' := by
          intro hrest
          apply hnot
          intro pre m' hpre
          cases pre with
          | nil =>
              obtain ⟨rfl, -⟩ := List.cons_prefix_cons.mp hpre
              exact hm
          | cons m₀ pre =>
              obtain ⟨rfl, hpre'⟩ := List.cons_prefix_cons.mp hpre
              exact hrest pre m' hpre'
        obtain ⟨x, hx, hgone⟩ := ih _ _ (h.insert m).1.holds (hall.nodup_iff.mpr hnodup) hrest
        exact ⟨x, hall.subset hx, hgone⟩
      · -- the first insert loses one, which does not come back
        have hnodup' : ((q.startAt b m).held ++ [m]).Nodup := (List.nodup_append.mp hnodup).1
        obtain ⟨x, hx, hgone⟩ :=
          Resequencer.insert_not_takes hnodup' (mt (h.takes_iff m).mpr hm)
        refine ⟨x, List.mem_append_left _ hx, ?_⟩
        apply mem_insertAll mbufs _ _ (h.insert m).1.holds hgone
        intro hmem
        exact (List.nodup_append.mp hnodup).2.2 x hx x hmem rfl

/-- The drain at the end of a call: what was held is held or drained. -/
theorem Holds.exec_owners {stage : ReorderStage} {mbufs : List Mbuf}
    (h : Holds size (insertAll stage.reorderBuf mbufs).1 q) (m : Mbuf) :
    owners (reorderExec stage mbufs).1.reorderBuf m
      + (reorderExec stage mbufs).2.2.count (some m) = q.held.count m := by
  obtain ⟨hafter, hout⟩ := h.drain stage.batchSize
  have howner : owners (reorderExec stage mbufs).1.reorderBuf m = _ := hafter.owners_eq m
  have hcount : (reorderExec stage mbufs).2.2.count (some m)
      = (q.drain stage.batchSize).2.count m := by
    show (rteReorderDrain (insertAll stage.reorderBuf mbufs).1 stage.batchSize).2.count (some m) = _
    rw [hout, count_map_some]
  rw [howner, hcount, ← q.drain_held stage.batchSize, List.count_append, Nat.add_comm]

end Source

/-- **When no packet vanishes in `reorder_exec`.**  For every reachable buffer, every
`batch_size` and every batch of mbufs, none of which is in the buffer or twice in the
batch: each rejected mbuf is passed on and every mbuf keeps exactly one owner if and only
if the buffer takes each mbuf of the batch when it is inserted. -/
theorem reorderExec_vanish_iff (size : UInt32) (stage : ReorderStage)
    (hb : BufferReachable size stage.reorderBuf) (mbufs : List Mbuf)
    (howned : ∀ m, owners stage.reorderBuf m + mbufs.count m ≤ 1) :
    NoneVanishes stage mbufs
      ↔ ∀ pre m, pre ++ [m] <+: mbufs → Takes (insertAll stage.reorderBuf pre).1 m := by
  obtain ⟨q, hq⟩ := hb.holds
  have hcount : ∀ m, owners stage.reorderBuf m + mbufs.count m = (q.held ++ mbufs).count m := by
    intro m
    rw [hq.owners_eq, List.count_append]
  simp only [hcount] at howned
  constructor
  · intro hnone
    by_contra hnot
    obtain ⟨x, hx, q', hq', hgone⟩ :=
      hq.insertAll_not_takes mbufs _ _ (List.nodup_iff_count_le_one.mpr howned) hnot
    -- `x` had an owner and has none
    have hone := hnone.owned x (by
      rw [hcount]
      exact List.count_eq_one_of_mem (List.nodup_iff_count_le_one.mpr howned) hx)
    rw [hq'.exec_owners, List.count_eq_zero_of_not_mem hgone] at hone
    exact absurd hone (by decide)
  · intro htakes
    obtain ⟨hrets, q', hq', hheld⟩ := hq.insertAll_takes mbufs _ _ htakes
    refine ⟨fun i m ret _ hret => ?_, fun m hone => ?_⟩
    · exact absurd (hrets _ (List.mem_of_getElem? hret)) (by simp)
    · rw [hq'.exec_owners, hheld.count_eq, ← hcount]
      exact hone

/-- The equivalence for a batch of which the buffer takes the first mbuf only. -/
theorem fourPlaces_vanish_iff :
    NoneVanishes fourPlaces [pkt 0, pkt 9]
      ↔ ∀ pre m, pre ++ [m] <+: [pkt 0, pkt 9] →
          Takes (insertAll fourPlaces.reorderBuf pre).1 m := by
  have hreach : BufferReachable 4 fourPlaces.reorderBuf :=
    ⟨_, (Option.some_get (by decide)).symm, .single (.minSeqnSet _ seqNumStart)⟩
  have hempty : ∀ m, owners fourPlaces.reorderBuf m = 0 := by
    intro m
    have hslots : orderSlots fourPlaces.reorderBuf = List.replicate 4 none := by decide +kernel
    have hready : readySlots fourPlaces.reorderBuf = [] := by decide +kernel
    rw [owners, hslots, hready]
    simp
  apply reorderExec_vanish_iff 4 fourPlaces hreach _
  intro m
  rw [hempty, Nat.zero_add]
  exact List.nodup_iff_count_le_one.mp (by decide) m

/-- The reorder stage as `reorder_init` makes it. -/
def reorderStage : ReorderStage := reorderInit.get (by decide)

theorem reorderStage_eq :
    reorderStage
      = { batchSize := reorderDefaultBatchSize
          reorderBuf :=
            { minSeqn := seqNumStart
              isInitialized := true
              readyBuf := .init reorderBufferSize
              orderBuf := .init reorderBufferSize } } := by
  have hempty : rteReorderIsEmpty
      ⟨0, false, .init reorderBufferSize, .init reorderBufferSize⟩ = true := by
    simp [rteReorderIsEmpty, CirBuffer.init]
  refine Option.get_of_eq_some _ ?_
  rw [reorderInit, reorderInitWith, rteReorderCreate, if_neg (by decide), Option.map_some,
    rteReorderMinSeqnSet_empty hempty]

/-- An mbuf more than twice the buffer ahead is rejected with ERANGE, and `mbuf_drain`
stays empty. -/
theorem farAhead_vanishes : ¬ NoneVanishes reorderStage [pkt 200000] := by
  intro h
  rw [reorderStage_eq] at h
  have hmem := h.rejected 0 (pkt 200000) .ERANGE rfl (by decide +kernel)
  revert hmem
  decide +kernel

end Meili.Reorder
