/-
  Meili.Reorder.Conservation — which accepted packets are kept.

  `rte_reorder_fill_overflow` writes an mbuf at the ready head and clears its
  place in the window before it looks whether the queue is full; when the
  queue is full, the head stays, and the mbuf is in no live slot any more.
  `Overruns` is the condition on the state before an insert under which this
  happens: the queue fills up on an mbuf whose successor has arrived as well,
  at a place the walk may go to.

    • `walk_lost_iff` — a walk loses an mbuf exactly there;
    • `insert_held` — what an insert keeps, loses and takes in;
    • `reorder_conserves_iff` — in a run of `reorder_exec` calls every
      accepted mbuf is in one place after every step if and only if no insert
      of the run overruns the queue.
-/
import Meili.Reorder.Order

namespace Meili.Reorder

open Meili.Lib

/-! ## §1. Where a walk loses an mbuf. -/

/-- Place `i` of the window holds an mbuf. -/
def Occupied (w : List (Option Mbuf)) (i : ℕ) : Prop := w[i]?.join ≠ none

@[simp] theorem occupied_some_zero (m : Mbuf) (w : List (Option Mbuf)) :
    Occupied (some m :: w) 0 := by
  simp [Occupied]

@[simp] theorem not_occupied_none_zero (w : List (Option Mbuf)) : ¬ Occupied (none :: w) 0 := by
  simp [Occupied]

@[simp] theorem occupied_succ (x : Option Mbuf) (w : List (Option Mbuf)) (i : ℕ) :
    Occupied (x :: w) (i + 1) ↔ Occupied w i := by
  simp [Occupied]

/-- An occupied place below `j` counts. -/
theorem reduceOption_take_pos {w : List (Option Mbuf)} {i j : ℕ} (hi : i < j)
    (h : Occupied w i) : 0 < (w.take j).reduceOption.length := by
  obtain ⟨m, hm⟩ := Option.ne_none_iff_exists'.mp h
  obtain ⟨hlt, hdrop⟩ := drop_of_some hm
  refine List.length_pos_of_mem (a := m) (List.reduceOption_mem_iff.mpr ?_)
  refine List.mem_of_getElem? (i := i) ?_
  rw [List.getElem?_take, if_pos hi]
  have h0 : (w.drop i)[0]? = some (some m) := by rw [hdrop]; rfl
  rwa [List.getElem?_drop, Nat.add_zero] at h0

/-- The queue with `f` places left fills up in front of place `j`, the walk gets
there, and there is an mbuf. -/
structure OverrunAt (n f : ℕ) (w : List (Option Mbuf)) (j : ℕ) : Prop where
  here : Occupied w j
  before : 0 < j → Occupied w (j - 1)
  fills : (w.take j).reduceOption.length = f
  /-- From place `n` on, the walk does not pass gaps. -/
  joined : ∀ i, n ≤ i → i < j → Occupied w i

theorem OverrunAt.ne_zero {n f : ℕ} {w : List (Option Mbuf)} {j : ℕ} (h : OverrunAt n f w j)
    (hj : 0 < j) : f ≠ 0 := by
  rw [← h.fills]
  exact (reduceOption_take_pos (by omega) (h.before hj)).ne'

/-- With room in the queue, the first place does not overrun it. -/
theorem OverrunAt.pos {n f : ℕ} {w : List (Option Mbuf)} {j : ℕ} (h : OverrunAt n f w j)
    (hf : f ≠ 0) : 0 < j := by
  rcases Nat.eq_zero_or_pos j with h0 | hpos
  · have hfills := h.fills
    rw [h0] at hfills
    exact absurd hfills.symm hf
  · exact hpos

/-- The first place is no gap, or there is none to overrun it behind a gap that
is not passed. -/
theorem not_overrunAt_none {n f : ℕ} {w : List (Option Mbuf)} {j : ℕ}
    (hstop : ¬ (0 < n ∧ f ≠ 0)) : ¬ OverrunAt n f (none :: w) j := by
  intro h
  rcases Nat.eq_zero_or_pos j with h0 | hpos
  · have hhere := h.here
    rw [h0] at hhere
    exact not_occupied_none_zero w hhere
  · have hf := h.ne_zero hpos
    exact not_occupied_none_zero w (h.joined 0 (by omega) hpos)

/-- Behind a gap that is passed. -/
theorem exists_overrunAt_none {n f : ℕ} {w : List (Option Mbuf)} (hn : 0 < n) (hf : f ≠ 0) :
    (∃ j, OverrunAt n f (none :: w) j) ↔ ∃ j, OverrunAt (n - 1) f w j := by
  constructor
  · intro h
    obtain ⟨j, hj⟩ := h
    have hpos := hj.pos hf
    obtain ⟨j', rfl⟩ : ∃ j', j = j' + 1 := ⟨j - 1, by omega⟩
    refine ⟨j', (occupied_succ _ _ _).mp hj.here, fun hj' => ?_, hj.fills, ?_⟩
    · have hb := hj.before hpos
      rw [show j' + 1 - 1 = j' - 1 + 1 by omega] at hb
      exact (occupied_succ _ _ _).mp hb
    · intro i hi hij
      exact (occupied_succ none w i).mp (hj.joined (i + 1) (by omega) (by omega))
  · intro h
    obtain ⟨j, hj⟩ := h
    have hpos := hj.pos hf
    refine ⟨j + 1, (occupied_succ _ _ _).mpr hj.here, fun _ => ?_, hj.fills, ?_⟩
    · rw [show j + 1 - 1 = j - 1 + 1 by omega]
      exact (occupied_succ _ _ _).mpr (hj.before hpos)
    · intro i hi hij
      obtain ⟨i', rfl⟩ : ∃ i', i = i' + 1 := ⟨i - 1, by omega⟩
      exact (occupied_succ _ _ _).mpr (hj.joined i' (by omega) (by omega))

/-- Behind an mbuf that is queued. -/
theorem exists_overrunAt_some {n f : ℕ} {m : Mbuf} {w : List (Option Mbuf)} (hf : f ≠ 0) :
    (∃ j, OverrunAt n f (some m :: w) j) ↔ ∃ j, OverrunAt (n - 1) (f - 1) w j := by
  constructor
  · intro h
    obtain ⟨j, hj⟩ := h
    have hpos := hj.pos hf
    obtain ⟨j', rfl⟩ : ∃ j', j = j' + 1 := ⟨j - 1, by omega⟩
    refine ⟨j', (occupied_succ _ _ _).mp hj.here, fun hj' => ?_, ?_, ?_⟩
    · have hb := hj.before hpos
      rw [show j' + 1 - 1 = j' - 1 + 1 by omega] at hb
      exact (occupied_succ _ _ _).mp hb
    · have hfills := hj.fills
      rw [List.take_succ_cons, List.reduceOption_cons_of_some, List.length_cons] at hfills
      omega
    · intro i hi hij
      exact (occupied_succ (some m) w i).mp (hj.joined (i + 1) (by omega) (by omega))
  · intro h
    obtain ⟨j, hj⟩ := h
    refine ⟨j + 1, (occupied_succ _ _ _).mpr hj.here, fun _ => ?_, ?_, ?_⟩
    · rcases Nat.eq_zero_or_pos j with h0 | hpos
      · rw [h0]
        exact occupied_some_zero m w
      · rw [show j + 1 - 1 = j - 1 + 1 by omega]
        exact (occupied_succ _ _ _).mpr (hj.before hpos)
    · rw [List.take_succ_cons, List.reduceOption_cons_of_some, List.length_cons, hj.fills]
      omega
    · intro i hi hij
      rcases Nat.eq_zero_or_pos i with h0 | hpos
      · rw [h0]
        exact occupied_some_zero m w
      · obtain ⟨i', rfl⟩ : ∃ i', i = i' + 1 := ⟨i - 1, by omega⟩
        exact (occupied_succ _ _ _).mpr (hj.joined i' (by omega) (by omega))

/-- **Where a walk loses an mbuf.**  By induction along the window; the bound
`n` is counted from the start of the walk. -/
theorem walk_lost_iff (n : ℕ) (w : List (Option Mbuf)) :
    ∀ a f, (walk n a f w).lost ≠ none ↔ ∃ j, OverrunAt (n - a) f w j := by
  induction w with
  | nil =>
      intro a f
      constructor
      · intro h
        exact absurd rfl h
      · intro h
        obtain ⟨j, hj⟩ := h
        exact absurd rfl hj.here
  | cons x w ih =>
      intro a f
      cases x with
      | none =>
          by_cases hgo : a < n ∧ f ≠ 0
          · -- a gap that is passed counts towards the bound, not towards the queue
            rw [walk_none hgo, ih (a + 1) f, exists_overrunAt_none (by omega) hgo.2, Nat.sub_sub]
          · -- a gap that ends the walk keeps it from every place behind
            rw [walk_stop rfl hgo]
            constructor
            · intro h
              exact absurd rfl h
            · intro h
              obtain ⟨j, hj⟩ := h
              exact absurd hj (not_overrunAt_none (by omega))
      | some m =>
          by_cases hf : f = 0
          · rw [hf]
            constructor
            · intro _
              -- the mbuf in front is the one that is lost
              exact ⟨0, occupied_some_zero m w, fun h => absurd h (by omega), rfl,
                fun i _ hi => absurd hi (by omega)⟩
            · intro _
              simp [walk]
          · -- an mbuf that is queued takes one place of the queue and of the bound
            rw [walk_some hf]
            dsimp only
            rw [ih (a + 1) (f - 1), exists_overrunAt_some hf, Nat.sub_sub]

/-- A queue that is full from the start is not walked into. -/
theorem Resequencer.fillWalk_lost_iff (q : Resequencer) (n : ℕ) :
    (q.fillWalk n).lost ≠ none ↔ ∃ j, 0 < j ∧ OverrunAt n q.free q.window j := by
  unfold fillWalk
  split
  next h0 =>
    constructor
    · intro h
      exact absurd rfl h
    · intro h
      obtain ⟨j, hpos, hj⟩ := h
      exact absurd h0 (hj.ne_zero hpos)
  next h0 =>
    rw [walk_lost_iff, Nat.sub_zero]
    constructor
    · intro h
      obtain ⟨j, hj⟩ := h
      exact ⟨j, hj.pos h0, hj⟩
    · intro h
      obtain ⟨j, -, hj⟩ := h
      exact ⟨j, hj⟩

/-! ## §2. What the operations keep. -/

/-- Filling an empty place. -/
theorem reduceOption_set_perm {w : List (Option Mbuf)} {i : ℕ} (m : Mbuf)
    (h : w[i]? = some none) : (w.set i (some m)).reduceOption.Perm (w.reduceOption ++ [m]) := by
  induction w generalizing i with
  | nil => exact absurd h (by simp)
  | cons x w ih =>
      cases i with
      | zero =>
          obtain rfl : x = none := by simpa using h
          rw [List.set_cons_zero, List.reduceOption_cons_of_some, List.reduceOption_cons_of_none]
          exact (List.perm_append_singleton m w.reduceOption).symm
      | succ i =>
          have hw : (w.set i (some m)).reduceOption.Perm (w.reduceOption ++ [m]) :=
            ih (by simpa using h)
          cases x with
          | none => simpa using hw
          | some m' => simpa using hw

namespace Resequencer

/-- The mbuf that the insert of `m` loses. -/
def lostBy (q : Resequencer) (m : Mbuf) : List Mbuf :=
  if q.window.length ≤ q.offset m ∧ q.offset m < q.twice then
    (q.fillWalk (q.offset m + 1 - q.window.length)).lost.toList
  else []

/-- `drain` keeps everything. -/
theorem drain_held (q : Resequencer) (max : ℕ) :
    (q.drain max).2 ++ (q.drain max).1.held = q.held := by
  unfold held
  rw [← List.append_assoc, q.drain_queue max, List.append_assoc]
  congr 1
  show _ ++ (slide q.window _).reduceOption = _
  rw [slide_reduceOption]
  nth_rewrite 1 [leading_eq_reduceOption]
  rw [← List.reduceOption_append, List.take_append_drop]

/-- `fill` keeps everything but the mbuf its walk loses. -/
theorem fill_held (q : Resequencer) (n : ℕ) :
    ((q.fill n).held ++ (q.fillWalk n).lost.toList).Perm q.held := by
  have htake := q.fillWalk_takes n
  have hsplit : q.window.reduceOption
      = (q.fillWalk n).moved ++ (q.fillWalk n).lost.toList
        ++ (q.window.drop (q.fillWalk n).adv).reduceOption := by
    rw [htake, ← List.reduceOption_append, List.take_append_drop]
  show (q.ready ++ (q.fillWalk n).moved ++ (slide q.window (q.fillWalk n).adv).reduceOption
    ++ (q.fillWalk n).lost.toList).Perm (q.ready ++ q.window.reduceOption)
  rw [slide_reduceOption, hsplit]
  simp only [List.append_assoc]
  refine List.Perm.append_left _ (List.Perm.append_left _ ?_)
  exact List.perm_append_comm

end Resequencer

section Insert

variable {size : ℕ} {P : Mbuf → Prop} {out : List Mbuf} {q : Resequencer}

/-- The place of a sequence number that is not held is empty. -/
theorem Placed.empty_place {base : ℕ} {w : List (Option Mbuf)} (h : Placed base w) {i : ℕ}
    {m : Mbuf} (hi : i < w.length) (hm : m.seqn.toNat = base + i)
    (hfresh : ∀ m' ∈ w.reduceOption, m'.seqn ≠ m.seqn) : w[i]? = some none := by
  rw [List.getElem?_eq_getElem hi]
  cases hx : w[i] with
  | none => rfl
  | some m' =>
      have hw : w[i]? = some (some m') := by rw [List.getElem?_eq_getElem hi, hx]
      refine absurd ?_ (hfresh m' (List.reduceOption_mem_iff.mpr (List.mem_of_getElem? hw)))
      rw [← UInt32.toNat_inj, hm, h i m' hw]

/-- **What an insert keeps, loses and takes in.** -/
theorem insert_held (h : Ordered size P (out ++ q.ready) q.minSeqn q.window)
    (hsmall : ∀ m, P m → m.seqn.toNat + 2 * size < 2 ^ 32) {m : Mbuf} (hP : P m)
    (hfresh : ∀ m' ∈ q.held, m'.seqn ≠ m.seqn) :
    ((q.insert m).1.held ++ q.lostBy m).Perm
      (q.held ++ if (q.insert m).2 = none then [m] else []) := by
  have htwice := h.twice_le
  have hm := hsmall m hP
  have hwindow : ∀ m' ∈ q.window.reduceOption, m'.seqn ≠ m.seqn :=
    fun m' hm' => hfresh m' (List.mem_append_right _ hm')
  unfold Resequencer.insert Resequencer.lostBy
  simp only [h.length]
  by_cases hin : q.offset m < size
  · rw [if_pos hin, if_neg (by omega)]
    -- in the window: an empty place is filled
    obtain ⟨hge, hoff⟩ := (h.offset_cases m).resolve_right (by omega)
    have hempty := h.placed.empty_place (i := q.offset m) (by rw [h.length]; exact hin) (by omega)
      hwindow
    rw [if_pos rfl, List.append_nil]
    show (q.ready ++ (q.window.set (q.offset m) (some m)).reduceOption).Perm _
    rw [Resequencer.held, List.append_assoc]
    exact List.Perm.append_left _ (reduceOption_set_perm m hempty)
  · rw [if_neg hin]
    by_cases hnear : q.offset m < q.twice
    · have hboth : size ≤ q.offset m ∧ q.offset m < q.twice := ⟨by omega, hnear⟩
      rw [if_pos hnear, if_pos hboth]
      obtain ⟨hge, hoff⟩ := (h.offset_cases m).resolve_right (by omega)
      -- past the window: the walk first, which may lose one mbuf
      have hfill := q.fill_held (q.offset m + 1 - size)
      have hadv : (q.fillWalk (q.offset m + 1 - size)).adv ≤ size :=
        h.length ▸ q.fillWalk_adv_le _
      by_cases hshort : (q.fillWalk (q.offset m + 1 - size)).adv < q.offset m + 1 - size
      · rw [if_pos hshort, if_neg (by simp), List.append_nil]
        exact hfill
      · rw [if_neg hshort, if_pos rfl]
        -- the place that has come into the window is empty
        have hslide := (h.placed.slide (q.fillWalk (q.offset m + 1 - size)).adv)
        have hempty := hslide.empty_place
          (i := q.offset m - (q.fillWalk (q.offset m + 1 - size)).adv) (m := m)
          (by rw [slide_length (by rw [h.length]; exact hadv), h.length]; omega) (by omega)
          (by
            intro m' hm'
            rw [slide_reduceOption] at hm'
            refine hwindow m' ?_
            rw [← List.take_append_drop (q.fillWalk (q.offset m + 1 - size)).adv q.window,
              List.reduceOption_append]
            exact List.mem_append_right _ hm')
        have hset := reduceOption_set_perm m hempty
        have hheld : ({ q.fill (q.offset m + 1 - size) with
              window := (q.fill (q.offset m + 1 - size)).window.set
                (q.offset m - (q.fillWalk (q.offset m + 1 - size)).adv) (some m) } :
              Resequencer).held.Perm ((q.fill (q.offset m + 1 - size)).held ++ [m]) := by
          unfold Resequencer.held
          rw [List.append_assoc]
          exact List.Perm.append_left _ hset
        refine (hheld.append_right _).trans ?_
        rw [List.append_assoc]
        refine (List.Perm.append_left _ List.perm_append_comm).trans ?_
        rw [← List.append_assoc]
        exact hfill.append_right [m]
    · -- ERANGE: nothing changes
      rw [if_neg hnear, if_neg (fun hc => hnear hc.2)]
      simp

end Insert

/-! ## §3. Runs of the resequencer. -/

namespace Trace

/-- What was accepted is what was put out and what is held. -/
def Kept (t : Trace) : Prop := t.accepted.Perm (t.out ++ t.q.held)

/-- Every accepted mbuf is in exactly one place. -/
def Once (t : Trace) : Prop := ∀ m ∈ t.accepted, (t.out ++ t.q.held).count m = 1

theorem run_accepted_sublist (size batchSize : ℕ) (evs : List Event) :
    (run size batchSize evs).accepted.Sublist (inserted evs) := by
  induction evs using List.reverseRecOn with
  | nil => exact List.Sublist.refl _
  | append_singleton evs e ih =>
      rw [run_append_singleton, inserted_append]
      cases e with
      | insert m =>
          show (if _ then _ else _ : List Mbuf).Sublist (inserted evs ++ [m])
          split
          · exact ih.append_right [m]
          · exact ih.trans (List.sublist_append_left _ _)
      | drain => exact ih.trans (List.sublist_append_left _ _)

theorem Kept.drain {t : Trace} (h : t.Kept) (batchSize : ℕ) : (t.step batchSize .drain).Kept := by
  show t.accepted.Perm (t.out ++ (t.q.drain batchSize).2 ++ (t.q.drain batchSize).1.held)
  rw [List.append_assoc, t.q.drain_held]
  exact h

section Events

variable {size batchSize : ℕ} {evs : List Event}

/-- The assumptions on what is passed in. -/
structure Input (size : ℕ) (evs : List Event) : Prop where
  window_le : 2 * size ≤ 2 ^ 32
  distinct : ((inserted evs).map (·.seqn)).Nodup
  small : ∀ m ∈ inserted evs, m.seqn.toNat + 2 * size < 2 ^ 32

theorem inserted_mono {pre : List Event} (h : pre <+: evs) : inserted pre <+: inserted evs := by
  obtain ⟨rest, rfl⟩ := h
  rw [inserted_append]
  exact List.prefix_append _ _

theorem Input.ordered (h : Input size evs) {pre : List Event} (hpre : pre <+: evs) :
    (run size batchSize pre).Ordered size (fun m => m ∈ inserted evs) :=
  run_ordered h.window_le h.small fun _ hm => (inserted_mono hpre).subset hm

theorem Input.accepted_nodup (h : Input size evs) {pre : List Event} (hpre : pre <+: evs) :
    (run size batchSize pre).accepted.Nodup := by
  refine List.Nodup.of_map (·.seqn) (h.distinct.sublist ?_)
  exact ((run_accepted_sublist size batchSize pre).trans (inserted_mono hpre).sublist).map _

/-- What a step with an insert does to the balance. -/
theorem Input.step_insert (h : Input size evs) {pre : List Event} {m : Mbuf}
    (hpre : pre ++ [.insert m] <+: evs) (hkept : (run size batchSize pre).Kept) :
    ((run size batchSize (pre ++ [.insert m])).accepted).Perm
      ((run size batchSize (pre ++ [.insert m])).out
        ++ (run size batchSize (pre ++ [.insert m])).q.held
        ++ (run size batchSize pre).q.lostBy m) := by
  have hpre' : pre <+: evs := (List.prefix_append _ _).trans hpre
  have hins := inserted_mono hpre
  rw [inserted_append] at hins
  -- a sequence number that comes now is not held
  have hfresh : ∀ m' ∈ (run size batchSize pre).q.held, m'.seqn ≠ m.seqn := by
    intro m' hm' heq
    have hacc : m' ∈ inserted pre :=
      (run_accepted_sublist size batchSize pre).subset
        (hkept.mem_iff.mpr (List.mem_append_right _ hm'))
    have hnd := h.distinct.sublist (hins.sublist.map _)
    rw [List.map_append] at hnd
    exact (List.nodup_append.mp hnd).2.2 _ (List.mem_map_of_mem hacc) _
      (List.mem_singleton.mpr rfl) heq
  have hm : m ∈ inserted evs := hins.subset (List.mem_append_right _ (List.mem_singleton.mpr rfl))
  have hbal := insert_held (h.ordered hpre') h.small hm hfresh
  rw [run_append_singleton]
  show (if ((run size batchSize pre).q.insert m).2 = none then
      (run size batchSize pre).accepted ++ [m] else (run size batchSize pre).accepted).Perm
    ((run size batchSize pre).out ++ ((run size batchSize pre).q.insert m).1.held ++ _)
  rw [List.append_assoc]
  refine List.Perm.trans ?_ (List.Perm.append_left _ hbal.symm)
  rw [← List.append_assoc]
  split
  · exact hkept.append_right [m]
  · rw [List.append_nil]
    exact hkept

theorem Input.once (h : Input size evs) {pre : List Event} (hpre : pre <+: evs)
    (hkept : (run size batchSize pre).Kept) : (run size batchSize pre).Once := by
  intro m hm
  rw [← hkept.count_eq]
  exact List.count_eq_one_of_mem (h.accepted_nodup hpre) hm

/-- A lost mbuf was accepted and is nowhere any more. -/
theorem Input.lost_nil (h : Input size evs) {pre : List Event} {m : Mbuf}
    (hpre : pre ++ [.insert m] <+: evs) (hkept : (run size batchSize pre).Kept)
    (honce : (run size batchSize (pre ++ [.insert m])).Once) :
    (run size batchSize pre).q.lostBy m = [] := by
  rw [List.eq_nil_iff_forall_not_mem]
  intro m' hm'
  have hperm := h.step_insert hpre hkept
  have hacc : m' ∈ (run size batchSize (pre ++ [.insert m])).accepted :=
    hperm.mem_iff.mpr (List.mem_append_right _ hm')
  have hcount := hperm.count_eq m'
  have hone := List.count_eq_one_of_mem (h.accepted_nodup hpre) hacc
  have hplaces := honce m' hacc
  have hlost := List.count_pos_iff.mpr hm'
  rw [List.count_append, hone, hplaces] at hcount
  omega

/-- **Nothing is lost if and only if no insert loses anything.** -/
theorem Input.kept_of_lost (h : Input size evs)
    (hlost : ∀ pre m, pre ++ [.insert m] <+: evs → (run size batchSize pre).Kept →
      (run size batchSize pre).q.lostBy m = []) :
    ∀ pre, pre <+: evs → (run size batchSize pre).Kept := by
  intro pre hpre
  refine Trace.invariant Kept (by simp [Kept, Resequencer.held, Resequencer.empty]) ?_
  intro pre' e hpre' hkept
  have hevs := hpre'.trans hpre
  cases e with
  | insert m =>
      have hperm := h.step_insert hevs hkept
      rw [hlost pre' m hevs hkept, List.append_nil, run_append_singleton] at hperm
      exact hperm
  | drain => exact hkept.drain batchSize

/-- A drain that does not find everything done puts something out. -/
theorem drain_progress (q : Resequencer) {max : ℕ} (hmax : 0 < max)
    (h : ¬ (q.ready = [] ∧ q.window[0]?.join = none)) : (q.drain max).2 ≠ [] := by
  unfold Resequencer.drain
  cases hr : q.ready with
  | cons m ready =>
      obtain ⟨k, rfl⟩ : ∃ k, max = k + 1 := ⟨max - 1, by omega⟩
      simp
  | nil =>
      obtain ⟨k, rfl⟩ : ∃ k, max = k + 1 := ⟨max - 1, by omega⟩
      cases hw : q.window with
      | nil =>
          rw [hr, hw] at h
          exact absurd ⟨rfl, rfl⟩ h
      | cons x w =>
          cases x with
          | none =>
              rw [hr, hw] at h
              exact absurd ⟨rfl, rfl⟩ h
          | some m => simp [leading]

/-- **Draining repeatedly** empties the queue and the window up to its first
gap. -/
theorem exists_drained (hbatch : 0 < batchSize) :
    ∀ (n : ℕ) (t : Trace), t.q.held.length ≤ n → t.Kept →
      ∃ k, let t' := (List.replicate k Event.drain).foldl (step batchSize) t
        t'.q.ready = [] ∧ t'.q.window[0]?.join = none ∧ t'.accepted = t.accepted ∧ t'.Kept := by
  intro n
  induction n with
  | zero =>
      intro t hlen hkept
      have hnil : t.q.held = [] := List.length_eq_zero_iff.mp (by omega)
      obtain ⟨hr, hw⟩ := List.append_eq_nil_iff.mp hnil
      have hgap : t.q.window[0]?.join = none := by
        by_contra hx
        obtain ⟨m, hm⟩ := Option.ne_none_iff_exists'.mp hx
        obtain ⟨hlt, hdrop⟩ := drop_of_some hm
        rw [List.drop_zero] at hdrop
        rw [hdrop] at hw
        exact absurd hw (by simp)
      exact ⟨0, hr, hgap, rfl, hkept⟩
  | succ n ih =>
      intro t hlen hkept
      by_cases hdone : t.q.ready = [] ∧ t.q.window[0]?.join = none
      · -- nothing is left to drain
        exact ⟨0, hdone.1, hdone.2, rfl, hkept⟩
      · -- each drain makes what is held smaller
        have hout := drain_progress t.q hbatch hdone
        have hheld := congrArg List.length (t.q.drain_held batchSize)
        rw [List.length_append] at hheld
        have hpos := List.length_pos_iff.mpr hout
        obtain ⟨k, hk⟩ := ih (t.step batchSize .drain)
          (show (t.q.drain batchSize).1.held.length ≤ n by omega) (hkept.drain batchSize)
        exact ⟨k + 1, hk⟩

end Events

end Trace

/-! ## §4. Runs of the source. -/

/-- All slots of `order_buf`. -/
def orderSlots (b : ReorderBuffer) : List (Option Mbuf) :=
  (List.range b.orderBuf.size.toNat).map b.orderBuf.entries

/-- The live slots of `ready_buf`, from its tail to its head. -/
def readySlots (b : ReorderBuffer) : List (Option Mbuf) :=
  b.readyBuf.queue b.readyBuf.size.toNat

/-- Every accepted mbuf is in exactly one place: in one slot of `order_buf`, in
one live slot of `ready_buf`, or once in the output. -/
def EachOnce (h : History) : Prop :=
  ∀ m ∈ h.accepted, (orderSlots h.buf).count (some m) + (readySlots h.buf).count (some m)
    + h.out.count (some m) = 1

/-- After every step of the run every accepted mbuf is in exactly one place; and
enough further drains leave only those that wait behind a gap in
`order_buf`. -/
structure NothingLost (stage : ReorderStage) (evs : List Event) : Prop where
  once : ∀ pre, pre <+: evs → EachOnce (runEvents stage pre)
  drained : ∃ k, let h := runEvents stage (evs ++ List.replicate k .drain)
    h.buf.readyBuf.tail = h.buf.readyBuf.head ∧ h.buf.orderBuf.get h.buf.orderBuf.head = none
      ∧ h.accepted = (runEvents stage evs).accepted ∧ EachOnce h

/-- The insert of `m` overruns the ready buffer: `m` is past the window but not
twice as far, and the walk that frees the `n` places it needs fills the ready
buffer right in front of an mbuf at the next place. -/
def Overruns (b : ReorderBuffer) (m : Mbuf) : Prop :=
  let size := b.orderBuf.size.toNat
  let offset := (m.seqn - b.minSeqn).toNat
  let free := size - 1 - (readySlots b).length
  size ≤ offset ∧ offset < 2 * size
    ∧ ∃ j, 0 < j ∧ OverrunAt (offset + 1 - size) free (b.orderBuf.places size) j

theorem count_reduceOption (w : List (Option Mbuf)) (m : Mbuf) :
    w.count (some m) = w.reduceOption.count m := by
  induction w with
  | nil => rfl
  | cons x w ih =>
      cases x with
      | none => rw [List.reduceOption_cons_of_none, List.count_cons_of_ne (by simp), ih]
      | some m' =>
          rw [List.reduceOption_cons_of_some, List.count_cons, List.count_cons, ih]
          simp

theorem count_map_some (l : List Mbuf) (m : Mbuf) : (l.map some).count (some m) = l.count m := by
  rw [count_reduceOption, reduceOption_map_some]

section Source

variable {size : ℕ} {b : ReorderBuffer} {q : Resequencer}

theorem Refines.readySlots_eq (h : Refines size b q) : readySlots b = q.ready.map some := by
  unfold readySlots
  rw [h.readyWF.size_eq, h.ready]

/-- The free places of the ready buffer. -/
theorem Refines.free_eq (h : Refines size b q) : size - 1 - (readySlots b).length = q.free := by
  unfold Resequencer.free
  rw [h.readySlots_eq, List.length_map, h.window_length]

/-- The two circular buffers hold what the resequencer holds. -/
theorem Refines.slots_count (h : Refines size b q) (m : Mbuf) :
    (orderSlots b).count (some m) + (readySlots b).count (some m) = q.held.count m := by
  -- the window lists the slots of `order_buf` from its head on
  have horder : (orderSlots b).count (some m) = q.window.reduceOption.count m := by
    unfold orderSlots
    rw [h.orderWF.size_eq, ← count_reduceOption, ← h.window]
    exact ((window_perm size b.orderBuf.head.toNat b.orderBuf.entries).count_eq _).symm
  rw [horder, h.readySlots_eq, count_map_some, Resequencer.held, List.count_append, Nat.add_comm]

theorem HistoryRefines.eachOnce_iff {h : History} {t : Trace} (href : HistoryRefines size h t) :
    EachOnce h ↔ t.Once := by
  have hplaces : ∀ m, (orderSlots h.buf).count (some m) + (readySlots h.buf).count (some m)
      + h.out.count (some m) = (t.out ++ t.q.held).count m := by
    intro m
    rw [href.buf.slots_count m, href.out, count_map_some, List.count_append, Nat.add_comm]
  unfold EachOnce Trace.Once
  rw [href.accepted]
  simp only [hplaces]

theorem Refines.overruns_iff (h : Refines size b q) {m : Mbuf}
    (hm : m.seqn.toNat + 2 * size < 2 ^ 32) : Overruns b m ↔ q.lostBy m ≠ [] := by
  have htwice : q.twice = 2 * size := by
    unfold Resequencer.twice
    rw [h.window_length]
    exact Nat.mod_eq_of_lt (by omega)
  have hoff : (m.seqn - b.minSeqn).toNat = q.offset m := by rw [h.minSeqn]; rfl
  unfold Overruns Resequencer.lostBy
  dsimp only
  rw [h.orderWF.size_eq, hoff, h.free_eq, h.window, h.window_length, htwice,
    ← q.fillWalk_lost_iff (q.offset m + 1 - size)]
  split
  next hin =>
    constructor
    · intro h
      obtain ⟨-, -, hl⟩ := h
      exact fun h0 => hl (Option.toList_eq_nil_iff.mp h0)
    · intro hl
      exact ⟨hin.1, hin.2, fun h0 => hl (Option.toList_eq_nil_iff.mpr h0)⟩
  next hin =>
    constructor
    · intro h
      obtain ⟨hlo, hhi, -⟩ := h
      exact absurd ⟨hlo, hhi⟩ hin
    · intro hl
      exact absurd rfl hl

end Source

/-- **When no accepted packet is lost or duplicated.**  In a run of
`reorder_exec` calls with distinct sequence numbers below `2^32 - 2 * size`,
every accepted mbuf is in exactly one place after every step, and repeated
draining puts out all that do not wait behind a gap, if and only if no insert
of the run overruns the ready buffer. -/
theorem reorder_conserves_iff (size : UInt32) (batchSize : ℕ) (self : ReorderStage)
    (hinit : reorderInitWith size batchSize = some self) (hbatch : 0 < batchSize)
    (batches : List (List Mbuf)) (hdistinct : (batches.flatten.map (·.seqn)).Nodup)
    (hsmall : ∀ m ∈ batches.flatten, m.seqn.toNat + 2 * size.toNat < 2 ^ 32) :
    NothingLost self (batches.flatMap execEvents)
      ↔ ∀ pre m, pre ++ [.insert m] <+: batches.flatMap execEvents →
          ¬ Overruns (runEvents self pre).buf m := by
  have hrun := runEvents_refines hinit
  have hinput : Trace.Input size.toNat (batches.flatMap execEvents) :=
    ⟨(reorderInitWith_refines hinit).2.orderWF.size_lt.2, by rwa [inserted_flatMap],
      by rwa [inserted_flatMap]⟩
  have hover : ∀ pre m, pre ++ [.insert m] <+: batches.flatMap execEvents →
      (Overruns (runEvents self pre).buf m
        ↔ (Trace.run size.toNat batchSize pre).q.lostBy m ≠ []) := by
    intro pre m hpre
    refine (hrun pre).buf.overruns_iff (hsmall m ?_)
    rw [← inserted_flatMap]
    refine (Trace.inserted_mono hpre).subset ?_
    rw [inserted_append]
    exact List.mem_append_right _ (List.mem_singleton.mpr rfl)
  constructor
  · intro hnothing
    -- one place each after every step, so the balance holds and no step can lose
    have hlost : ∀ pre m, pre ++ [.insert m] <+: batches.flatMap execEvents →
        (Trace.run size.toNat batchSize pre).Kept →
        (Trace.run size.toNat batchSize pre).q.lostBy m = [] := by
      intro pre m hpre hkept
      exact hinput.lost_nil hpre hkept ((hrun _).eachOnce_iff.mp (hnothing.once _ hpre))
    intro pre m hpre ho
    refine (hover pre m hpre).mp ho (hlost pre m hpre ?_)
    exact hinput.kept_of_lost hlost pre ((List.prefix_append _ _).trans hpre)
  · intro hnone
    have hkept : ∀ pre, pre <+: batches.flatMap execEvents →
        (Trace.run size.toNat batchSize pre).Kept := by
      apply hinput.kept_of_lost
      intro pre m hpre _
      by_contra hne
      exact hnone pre m hpre ((hover pre m hpre).mpr hne)
    refine ⟨fun pre hpre => (hrun pre).eachOnce_iff.mpr (hinput.once hpre (hkept pre hpre)), ?_⟩
    obtain ⟨k, hready, hwindow, hacc, hk⟩ := Trace.exists_drained hbatch _
      (Trace.run size.toNat batchSize (batches.flatMap execEvents)) (le_refl _)
      (hkept _ (List.prefix_refl _))
    have hfold : (List.replicate k Event.drain).foldl (Trace.step batchSize)
        (Trace.run size.toNat batchSize (batches.flatMap execEvents))
        = Trace.run size.toNat batchSize
            (batches.flatMap execEvents ++ List.replicate k .drain) := by
      rw [Trace.run, Trace.run, List.foldl_append]
    rw [hfold] at hready hwindow hacc hk
    have href := hrun (batches.flatMap execEvents ++ List.replicate k .drain)
    refine ⟨k, ?_, ?_, ?_, ?_⟩
    · rw [href.buf.readyWF.empty_iff, href.buf.ready, hready]
      rfl
    · rw [href.buf.get_head] at hwindow
      exact hwindow
    · rw [href.accepted, hacc, (hrun _).accepted]
    · rw [href.eachOnce_iff]
      intro m hm
      rw [← hk.count_eq]
      refine List.count_eq_one_of_mem ?_ hm
      rw [hacc]
      exact hinput.accepted_nodup (List.prefix_refl _)

/-- The equivalence for a run that skips a gap and gets a late packet. -/
theorem fourPlaces_conserves_iff :
    NothingLost fourPlaces ([[pkt 2, pkt 0], [pkt 5, pkt 3], [pkt 1]].flatMap execEvents)
      ↔ ∀ pre m, pre ++ [.insert m]
            <+: [[pkt 2, pkt 0], [pkt 5, pkt 3], [pkt 1]].flatMap execEvents →
          ¬ Overruns (runEvents fourPlaces pre).buf m :=
  reorder_conserves_iff 4 2 fourPlaces (Option.some_get _).symm (by decide) _
    (by decide +kernel) (by decide +kernel)

/-- A stage with 2 places that drains 2 mbufs at a time. -/
def twoPlaces : ReorderStage := (reorderInitWith 2 2).get (by decide)

/-- Packets 0, 1, 2 on 2 places: the insert of 2 moves 0 to the ready buffer,
which is then full, and clears the place of 1, which has been accepted. -/
theorem twoPlaces_loses :
    ¬ NothingLost twoPlaces ([[pkt 0, pkt 1, pkt 2]].flatMap execEvents) := by
  intro h
  have hpre : [Event.insert (pkt 0), .insert (pkt 1), .insert (pkt 2)]
      <+: [[pkt 0, pkt 1, pkt 2]].flatMap execEvents := ⟨[.drain], by decide⟩
  have honce := h.once _ hpre (pkt 1) (by decide +kernel)
  revert honce
  decide +kernel

end Meili.Reorder
