/-
  Meili.Reorder.Refinement — the two circular buffers are a `Resequencer`.

  `Refines size b q` reads the live slots of `ready_buf` and all slots of
  `order_buf` from its head on.  One lemma for each write of the source, one
  for each loop, and from them the three operations:

    `rteReorderInsert_refines`, `rteReorderDrain_refines`,
    `reorderInitWith_refines`.
-/
import Mathlib.Data.Nat.Bitwise
import Meili.Reorder.Resequencer

namespace Meili.Reorder

open Meili.Lib

/-! ## §1. Well-formed circular buffers. -/

/-- A sum that does not wrap. -/
theorem uint32_toNat_add_ofNat {x : UInt32} {k : ℕ} (h : x.toNat + k < 2 ^ 32) :
    (x + UInt32.ofNat k).toNat = x.toNat + k := by
  rw [UInt32.toNat_add, UInt32.toNat_ofNat', Nat.add_mod_mod]
  exact Nat.mod_eq_of_lt h

theorem uint32_toNat_ofNat {k : ℕ} (h : k < 2 ^ 32) : (UInt32.ofNat k).toNat = k :=
  UInt32.toNat_ofNat_of_lt' h

/-- A circular buffer of `size` slots: a power of two, the mask that belongs
to it, and both indices in range. -/
structure CirBuffer.WF (size : ℕ) (c : CirBuffer) : Prop where
  pow : ∃ k, k < 32 ∧ size = 2 ^ k
  size_eq : c.size.toNat = size
  mask_eq : c.mask.toNat = size - 1
  head_lt : c.head.toNat < size
  tail_lt : c.tail.toNat < size

namespace CirBuffer.WF

variable {size : ℕ} {c : CirBuffer}

theorem size_lt (h : c.WF size) : 0 < size ∧ 2 * size ≤ 2 ^ 32 := by
  obtain ⟨k, hk, rfl⟩ := h.pow
  have hle : 2 ^ k ≤ 2 ^ 31 := Nat.pow_le_pow_right (by norm_num) (by omega)
  exact ⟨Nat.two_pow_pos k, by omega⟩

/-- The mask takes the remainder, also of a sum that has wrapped. -/
theorem and_mask (h : c.WF size) (x : UInt32) : (x &&& c.mask).toNat = x.toNat % size := by
  obtain ⟨k, hk, hsize⟩ := h.pow
  rw [UInt32.toNat_and, h.mask_eq, hsize, Nat.and_two_pow_sub_one_eq_mod]

theorem add_and_mask (h : c.WF size) (x y : UInt32) :
    ((x + y) &&& c.mask).toNat = (x.toNat + y.toNat) % size := by
  obtain ⟨k, hk, hsize⟩ := h.pow
  rw [h.and_mask, UInt32.toNat_add]
  refine Nat.mod_mod_of_dvd _ ?_
  rw [hsize]
  exact Nat.pow_dvd_pow 2 (by omega)

theorem next_toNat (h : c.WF size) (i : UInt32) : (c.next i).toNat = (i.toNat + 1) % size :=
  h.add_and_mask i 1

theorem next_lt (h : c.WF size) (i : UInt32) : (c.next i).toNat < size := by
  rw [h.next_toNat]
  exact Nat.mod_lt _ h.size_lt.1

theorem set (h : c.WF size) (i : UInt32) (x : Option Mbuf) : (c.set i x).WF size :=
  ⟨h.pow, h.size_eq, h.mask_eq, h.head_lt, h.tail_lt⟩

theorem stepHead (h : c.WF size) : c.stepHead.WF size :=
  ⟨h.pow, h.size_eq, h.mask_eq, h.next_lt c.head, h.tail_lt⟩

theorem stepTail (h : c.WF size) : c.stepTail.WF size :=
  ⟨h.pow, h.size_eq, h.mask_eq, h.head_lt, h.next_lt c.tail⟩

end CirBuffer.WF

namespace CirBuffer

/-- The queue a circular buffer holds. -/
def queue (size : ℕ) (c : CirBuffer) : List (Option Mbuf) :=
  live size c.tail.toNat c.head.toNat c.entries

/-- All places of a circular buffer, from its head on. -/
def places (size : ℕ) (c : CirBuffer) : List (Option Mbuf) :=
  window size c.head.toNat c.entries

variable {size : ℕ} {c : CirBuffer}

theorem WF.places_eq_cons (h : c.WF size) :
    c.places size = c.get c.head :: (c.places size).tail :=
  window_eq_cons c.entries h.head_lt

/-- Writing the slot at the head and stepping past it. -/
theorem WF.places_pass (h : c.WF size) (x : Option Mbuf) :
    (c.set c.head x).stepHead.places size = (c.places size).tail ++ [x] := by
  show window size (c.next c.head).toNat (Function.update c.entries c.head.toNat x) = _
  rw [h.next_toNat]
  exact window_advance c.entries x h.head_lt

theorem WF.places_step (h : c.WF size) :
    c.stepHead.places size = (c.places size).tail ++ [c.get c.head] := by
  show window size (c.next c.head).toNat c.entries = _
  rw [h.next_toNat]
  exact window_rotate c.entries h.head_lt

/-- Writing `offset` places after the head. -/
theorem WF.places_store (h : c.WF size) {offset : UInt32} (hlt : offset.toNat < size)
    (x : Option Mbuf) :
    (c.set ((c.head + offset) &&& c.mask) x).places size
      = (c.places size).set offset.toNat x := by
  show window size c.head.toNat (Function.update c.entries _ x) = _
  rw [h.add_and_mask]
  exact window_update c.entries x hlt

theorem WF.queue_length (h : c.WF size) : (c.queue size).length < size := by
  rw [queue, live_length]
  exact liveCount_lt h.tail_lt h.head_lt

theorem WF.full_iff (h : c.WF size) :
    c.next c.head = c.tail ↔ (c.queue size).length = size - 1 := by
  rw [← UInt32.toNat_inj, h.next_toNat, succ_eq_tail_iff h.tail_lt h.head_lt, queue, live_length]

theorem WF.empty_iff (h : c.WF size) : c.tail = c.head ↔ c.queue size = [] := by
  rw [← List.length_eq_zero_iff, queue, live_length, liveCount_eq_zero_iff h.tail_lt,
    UInt32.toNat_inj]

/-- Writing the slot at the head queues nothing. -/
theorem WF.queue_write (h : c.WF size) (x : Option Mbuf) :
    (c.set c.head x).queue size = c.queue size :=
  live_update_head c.entries x h.tail_lt h.head_lt

/-- Writing it and stepping the head does. -/
theorem WF.queue_push (h : c.WF size) (x : Option Mbuf) (hroom : c.next c.head ≠ c.tail) :
    (c.set c.head x).stepHead.queue size = c.queue size ++ [x] := by
  have hne : (c.head.toNat + 1) % size ≠ c.tail.toNat := by
    rw [← h.next_toNat, Ne, UInt32.toNat_inj]
    exact hroom
  show live size c.tail.toNat (c.next c.head).toNat (Function.update c.entries c.head.toNat x) = _
  rw [h.next_toNat]
  exact live_push c.entries x h.tail_lt h.head_lt hne

/-- Taking the slot at the tail. -/
theorem WF.queue_pop (h : c.WF size) (x : Option Mbuf) (hne : c.tail ≠ c.head) :
    c.queue size = c.get c.tail :: (c.set c.tail x).stepTail.queue size := by
  have hpop := live_pop c.entries x h.tail_lt h.head_lt (by rwa [Ne, UInt32.toNat_inj])
  rw [← h.next_toNat] at hpop
  exact hpop

end CirBuffer

/-! ## §2. The refinement relation and the writes of the source. -/

/-- The reorder buffer `b` holds the resequencer `q`. -/
structure Refines (size : ℕ) (b : ReorderBuffer) (q : Resequencer) : Prop where
  initialized : b.isInitialized = true
  minSeqn : b.minSeqn = q.minSeqn
  readyWF : b.readyBuf.WF size
  orderWF : b.orderBuf.WF size
  ready : b.readyBuf.queue size = q.ready.map some
  window : b.orderBuf.places size = q.window

namespace Refines

variable {size : ℕ} {b : ReorderBuffer} {q : Resequencer}

theorem window_length (h : Refines size b q) : q.window.length = size := by
  rw [← h.window, CirBuffer.places, Lib.window_length]

theorem ready_length (h : Refines size b q) : q.ready.length ≤ size - 1 := by
  have hlt := h.readyWF.queue_length
  rw [h.ready, List.length_map] at hlt
  omega

/-- The slot at the order head is place 0 of the window. -/
theorem get_head (h : Refines size b q) :
    q.window = b.orderBuf.get b.orderBuf.head :: q.window.tail := by
  rw [← h.window]
  exact h.orderWF.places_eq_cons

/-- Clearing the slot at the order head and stepping past it. -/
theorem passHead (h : Refines size b q) :
    Refines size { b with orderBuf := (b.orderBuf.set b.orderBuf.head none).stepHead }
      { q with window := q.window.tail ++ [none] } where
  initialized := h.initialized
  minSeqn := h.minSeqn
  readyWF := h.readyWF
  orderWF := (h.orderWF.set _ _).stepHead
  ready := h.ready
  window := by rw [h.orderWF.places_pass, h.window]

/-- Stepping the order head over a gap. -/
theorem skipHead (h : Refines size b q) (hgap : b.orderBuf.get b.orderBuf.head = none) :
    Refines size { b with orderBuf := b.orderBuf.stepHead }
      { q with window := q.window.tail ++ [none] } where
  initialized := h.initialized
  minSeqn := h.minSeqn
  readyWF := h.readyWF
  orderWF := h.orderWF.stepHead
  ready := h.ready
  window := by rw [h.orderWF.places_step, h.window, hgap]

/-- The test for a full ready buffer. -/
theorem full_iff (h : Refines size b q) :
    b.readyBuf.next b.readyBuf.head = b.readyBuf.tail ↔ q.free = 0 := by
  have hle := h.ready_length
  rw [h.readyWF.full_iff, h.ready, List.length_map, Resequencer.free, h.window_length]
  omega

/-- An entry written at the ready head is not queued yet. -/
theorem writeReady (h : Refines size b q) (x : Option Mbuf) :
    Refines size { b with readyBuf := b.readyBuf.set b.readyBuf.head x } q where
  initialized := h.initialized
  minSeqn := h.minSeqn
  readyWF := h.readyWF.set _ _
  orderWF := h.orderWF
  ready := by rw [h.readyWF.queue_write, h.ready]
  window := h.window

/-- Once the ready head has stepped past it, it is. -/
theorem pushReady (h : Refines size b q) (hroom : q.free ≠ 0) (m : Mbuf) :
    Refines size { b with readyBuf := (b.readyBuf.set b.readyBuf.head (some m)).stepHead }
      { q with ready := q.ready ++ [m] } where
  initialized := h.initialized
  minSeqn := h.minSeqn
  readyWF := (h.readyWF.set _ _).stepHead
  orderWF := h.orderWF
  ready := by
    rw [h.readyWF.queue_push _ (fun hfull => hroom (h.full_iff.mp hfull)), h.ready]
    simp
  window := h.window

/-- Storing an mbuf `offset` places after the order head. -/
theorem storeAt (h : Refines size b q) {offset : UInt32} (hlt : offset.toNat < size) (m : Mbuf) :
    Refines size (Reorder.storeAt b offset m)
      { q with window := q.window.set offset.toNat (some m) } where
  initialized := h.initialized
  minSeqn := h.minSeqn
  readyWF := h.readyWF
  orderWF := h.orderWF.set _ _
  ready := h.ready
  window := by
    unfold Reorder.storeAt
    rw [h.orderWF.places_store hlt, h.window]

end Refines

/-! ## §3. `rte_reorder_fill_overflow` walks along the window. -/

section Fill

variable {size : ℕ} {q : Resequencer}

/-- Passing place `a`, with nothing queued. -/
theorem passed_succ (hq : q.window.length = size) {a : ℕ} (ha : a < size) (moved : List Mbuf) :
    { q.passed a moved with window := (q.passed a moved).window.tail ++ [none] }
      = q.passed (a + 1) moved := by
  simp only [Resequencer.passed, slide_tail (hq ▸ ha)]

theorem passed_free (hq : q.window.length = size) {a : ℕ} (ha : a ≤ size) (moved : List Mbuf) :
    (q.passed a moved).free = size - 1 - (q.ready.length + moved.length) := by
  simp only [Resequencer.free, Resequencer.passed, slide_length (hq ▸ ha), List.length_append, hq]

/-- What the slot at the order head says about place `a`. -/
theorem Refines.get_passed {b : ReorderBuffer} {a : ℕ} {moved : List Mbuf}
    (h : Refines size b (q.passed a moved)) (hq : q.window.length = size) (ha : a ≤ size) :
    b.orderBuf.get b.orderBuf.head = q.window[a]?.join := by
  have hcons := h.get_head
  rw [show (q.passed a moved).window = slide q.window a from rfl,
    slide_eq_cons (by rw [hq]; exact h.orderWF.size_lt.1) (hq ▸ ha)] at hcons
  exact (List.cons.inj hcons).1.symm

/-- A place that holds an mbuf is in the window, and the walk meets it next. -/
theorem drop_of_some {w : List (Option Mbuf)} {a : ℕ} {m : Mbuf} (h : w[a]?.join = some m) :
    a < w.length ∧ w.drop a = some m :: w.drop (a + 1) := by
  rcases Nat.lt_or_ge a w.length with hlt | hge
  · refine ⟨hlt, ?_⟩
    rw [List.getElem?_eq_getElem hlt, Option.join_some] at h
    rw [List.drop_eq_getElem_cons hlt, h]
  · rw [List.getElem?_eq_none hge] at h
    exact absurd h (by simp)

theorem drop_of_none {w : List (Option Mbuf)} {a : ℕ} (h : w[a]?.join = none)
    (hlt : a < w.length) : w.drop a = none :: w.drop (a + 1) := by
  rw [List.getElem?_eq_getElem hlt, Option.join_some] at h
  rw [List.drop_eq_getElem_cons hlt, h]

/-- Moving the mbuf at place `a` to the ready queue. -/
theorem Refines.movePlace {b : ReorderBuffer} {a : ℕ} {moved : List Mbuf}
    (h : Refines size b (q.passed a moved)) (hq : q.window.length = size) (hlt : a < size)
    (hroom : (q.passed a moved).free ≠ 0) (m : Mbuf) :
    Refines size { b with
        readyBuf := (b.readyBuf.set b.readyBuf.head (some m)).stepHead
        orderBuf := (b.orderBuf.set b.orderBuf.head none).stepHead }
      (q.passed (a + 1) (moved ++ [m])) := by
  have hpush := (h.pushReady hroom m).passHead
  have heq := passed_succ hq hlt (moved ++ [m])
  simp only [Resequencer.passed, ← List.append_assoc] at hpush heq ⊢
  rw [heq] at hpush
  exact hpush

/-- The body of the inner loop at an mbuf: the full test comes behind the writes. -/
theorem fillMove_some {k : ℕ} {b : ReorderBuffer} {adv : UInt32} {m : Mbuf}
    (hget : b.orderBuf.get b.orderBuf.head = some m) :
    fillMove (k + 1) b adv
      = if b.readyBuf.next b.readyBuf.head = b.readyBuf.tail then
          ({ b with
              readyBuf := b.readyBuf.set b.readyBuf.head (some m)
              orderBuf := (b.orderBuf.set b.orderBuf.head none).stepHead }, adv + 1)
        else
          fillMove k { b with
              readyBuf := (b.readyBuf.set b.readyBuf.head (some m)).stepHead
              orderBuf := (b.orderBuf.set b.orderBuf.head none).stepHead } (adv + 1) := by
  rw [fillMove, hget]
  rfl

/-- The inner loop, from place `a` on: it ends at a gap, or with a full queue
after a last mbuf that it clears but does not queue. -/
theorem fillMove_spec (n : ℕ) (hq : q.window.length = size) :
    ∀ (k a : ℕ) (moved : List Mbuf) (b : ReorderBuffer) (adv : UInt32),
      Refines size b (q.passed a moved) → a ≤ size → size ≤ k + a → adv.toNat = a →
      ∃ a' moved', Refines size (fillMove k b adv).1 (q.passed a' (moved ++ moved'))
        ∧ (fillMove k b adv).2.toNat = a' ∧ a ≤ a' ∧ a' ≤ size
        ∧ (q.window[a]?.join ≠ none → a < a')
        ∧ ((q.window[a']?.join = none
              ∧ walk n a (q.passed a moved).free (q.window.drop a)
                = let r := walk n a' (q.passed a' (moved ++ moved')).free (q.window.drop a')
                  { r with moved := moved' ++ r.moved })
          ∨ ((q.passed a' (moved ++ moved')).free = 0
              ∧ ∃ m, walk n a (q.passed a moved).free (q.window.drop a)
                = ⟨moved', some m, a'⟩)) := by
  intro k
  induction k with
  | zero =>
      intro a moved b adv hb ha hk hadv
      -- all places have been passed
      obtain rfl : a = size := by omega
      have hgap : q.window[a]?.join = none := by
        rw [List.getElem?_eq_none (by omega), Option.join_none]
      refine ⟨a, [], ?_, hadv, le_refl a, le_refl a, fun h => absurd hgap h, Or.inl ⟨hgap, ?_⟩⟩
      · rw [List.append_nil]
        exact hb
      · rw [List.append_nil]
        rfl
  | succ k ih =>
      intro a moved b adv hb ha hk hadv
      have hget := hb.get_passed hq ha
      cases hx : q.window[a]?.join with
      | none =>
          -- a gap: the loop ends here
          have hstop : fillMove (k + 1) b adv = (b, adv) := by
            unfold fillMove
            rw [hget, hx]
          rw [hstop]
          refine ⟨a, [], ?_, hadv, le_refl a, ha, fun h => absurd rfl h, Or.inl ⟨hx, ?_⟩⟩
          · rw [List.append_nil]
            exact hb
          · rw [List.append_nil]
            rfl
      | some m =>
          -- an mbuf: written at the ready head, cleared, and only then the full test
          obtain ⟨hlt, hdrop⟩ := drop_of_some hx
          rw [hq] at hlt
          have hsize := hb.orderWF.size_lt.2
          have hadv' : (adv + 1).toNat = a + 1 :=
            (uint32_toNat_add_ofNat (k := 1) (by omega)).trans (by rw [hadv])
          rw [fillMove_some (hget.trans hx), hdrop]
          by_cases hfull : (q.passed a moved).free = 0
          · -- no room: the entry is written and cleared, but never queued
            rw [if_pos (hb.full_iff.mpr hfull)]
            refine ⟨a + 1, [], ?_, hadv', by omega, by omega, fun _ => by omega, Or.inr ⟨?_, m, ?_⟩⟩
            · rw [List.append_nil, ← passed_succ hq hlt moved]
              exact (hb.writeReady (some m)).passHead
            · rw [List.append_nil, passed_free hq hlt]
              rwa [passed_free hq ha] at hfull
            · rw [hfull]
              rfl
          · rw [if_neg (fun h => hfull (hb.full_iff.mp h))]
            -- room: the mbuf is queued, and the loop goes on behind it
            obtain ⟨a', moved', hr, hadv'', hle, hsz, -, hwalk⟩ :=
              ih (a + 1) (moved ++ [m]) _ (adv + 1) (hb.movePlace hq hlt hfull m) hlt (by omega)
                hadv'
            -- the walk has one place less in the queue, and so has the loop
            have hfree : (q.passed a moved).free - 1 = (q.passed (a + 1) (moved ++ [m])).free := by
              rw [passed_free hq ha, passed_free hq hlt, List.length_append, List.length_singleton]
              omega
            have hassoc : moved ++ [m] ++ moved' = moved ++ m :: moved' := by simp
            rw [hassoc] at hr hwalk
            refine ⟨a', m :: moved', hr, hadv'', by omega, hsz, fun _ => by omega, ?_⟩
            rw [walk_some hfull, hfree]
            rcases hwalk with ⟨hgap, hw⟩ | ⟨hfull', m', hw⟩
            · exact Or.inl ⟨hgap, by rw [hw]; rfl⟩
            · exact Or.inr ⟨hfull', m', by rw [hw]⟩

/-- What is left of the walk at place `a`: nothing, when the queue is full. -/
def restWalk (q : Resequencer) (n a : ℕ) (moved : List Mbuf) : Walk :=
  if (q.passed a moved).free = 0 then ⟨[], none, a⟩
  else walk n a (q.passed a moved).free (q.window.drop a)

/-- Where the outer loop ends, the walk ends. -/
theorem restWalk_stop {n a : ℕ} {moved : List Mbuf}
    (hgap : (q.passed a moved).free ≠ 0 → a < n ∨ q.window[a]?.join = none)
    (hstop : ¬ (a < n ∧ (q.passed a moved).free ≠ 0)) :
    restWalk q n a moved = ⟨[], none, a⟩ := by
  unfold restWalk
  split
  · rfl
  · next hfree =>
      refine walk_stop ?_ hstop
      rw [List.getElem?_drop, Nat.add_zero]
      exact (hgap hfree).resolve_left fun hlt => hstop ⟨hlt, hfree⟩

/-- At a gap the walk ends with the queue, so nothing is left of it. -/
theorem restWalk_gap {n a : ℕ} {moved : List Mbuf} (hgap : q.window[a]?.join = none) :
    restWalk q n a moved = walk n a (q.passed a moved).free (q.window.drop a) := by
  unfold restWalk
  split
  · next hfull =>
      refine (walk_stop ?_ fun h => h.2 hfull).symm
      rw [List.getElem?_drop, Nat.add_zero]
      exact hgap
  · rfl

/-- One pass of the outer loop up to the inner one: a gap at the order head is skipped,
and the walk skips it too. -/
theorem fillLoop_gap {n adv : UInt32} (hq : q.window.length = size) (hn : n.toNat ≤ size)
    {k a : ℕ} {moved : List Mbuf} {b : ReorderBuffer} (hb : Refines size b (q.passed a moved))
    (ha : a ≤ size) (hadv : adv.toNat = a)
    (hgo : a < n.toNat ∧ (q.passed a moved).free ≠ 0) :
    ∃ a₁ b₁ adv₁,
      fillLoop n (k + 1) b adv
          = fillLoop n k (fillMove b₁.orderBuf.size.toNat b₁ adv₁).1
              (fillMove b₁.orderBuf.size.toNat b₁ adv₁).2
        ∧ Refines size b₁ (q.passed a₁ moved) ∧ a ≤ a₁ ∧ a₁ ≤ size ∧ adv₁.toNat = a₁
        ∧ walk n.toNat a (q.passed a moved).free (q.window.drop a)
            = walk n.toNat a₁ (q.passed a₁ moved).free (q.window.drop a₁)
        ∧ (a < a₁ ∨ q.window[a₁]?.join ≠ none) := by
  have hcond : adv < n ∧ b.readyBuf.next b.readyBuf.head ≠ b.readyBuf.tail := by
    rw [UInt32.lt_iff_toNat_lt, hadv, Ne, hb.full_iff]
    exact hgo
  have hlt : a < size := lt_of_lt_of_le hgo.1 hn
  have hget := hb.get_passed hq ha
  by_cases hx : q.window[a]?.join = none
  · -- a gap: the source skips it before the inner loop
    have hsize := hb.orderWF.size_lt.2
    have hfree : (q.passed (a + 1) moved).free = (q.passed a moved).free := by
      rw [passed_free hq hlt, passed_free hq ha]
    refine ⟨a + 1, { b with orderBuf := b.orderBuf.stepHead }, adv + 1, ?_, ?_, by omega,
      hlt, ?_, ?_, Or.inl (by omega)⟩
    · rw [fillLoop, if_pos hcond, if_pos (hget.trans hx)]
    · rw [← passed_succ hq hlt moved]
      exact hb.skipHead (hget.trans hx)
    · exact (uint32_toNat_add_ofNat (k := 1) (by omega)).trans (by rw [hadv])
    · rw [drop_of_none hx (hq ▸ hlt), walk_none hgo, hfree]
  · -- no gap: the inner loop starts at `a` itself
    refine ⟨a, b, adv, ?_, hb, le_refl a, ha, hadv, rfl, Or.inr hx⟩
    rw [fillLoop, if_pos hcond, if_neg (fun h => hx (hget.symm.trans h))]

/-- The outer loop, from place `a` on, is the rest of the walk.  It is entered
behind a gap-bounded move, so where it may not go on it is at a gap or the
queue is full. -/
theorem fillLoop_spec (n : UInt32) (hq : q.window.length = size) (hn : n.toNat ≤ size) :
    ∀ (k a : ℕ) (moved : List Mbuf) (b : ReorderBuffer) (adv : UInt32),
      Refines size b (q.passed a moved) → a ≤ size → n.toNat ≤ k + a → adv.toNat = a →
      ((q.passed a moved).free ≠ 0 → a < n.toNat ∨ q.window[a]?.join = none) →
      Refines size (fillLoop n k b adv).1
          (q.passed (restWalk q n.toNat a moved).adv (moved ++ (restWalk q n.toNat a moved).moved))
        ∧ (fillLoop n k b adv).2.toNat = (restWalk q n.toNat a moved).adv := by
  intro k
  induction k with
  | zero =>
      intro a moved b adv hb ha hk hadv hgap
      rw [restWalk_stop hgap (by omega), List.append_nil]
      exact ⟨hb, hadv⟩
  | succ k ih =>
      intro a moved b adv hb ha hk hadv hgap
      by_cases hgo : a < n.toNat ∧ (q.passed a moved).free ≠ 0
      · -- after the gap, if there is one, the walk is at `a₁`
        obtain ⟨a₁, b₁, adv₁, hbody, hb₁, hle₁, ha₁, hadv₁, hwalk₁, hprog⟩ :=
          fillLoop_gap (k := k) hq hn hb ha hadv hgo
        rw [hb₁.orderWF.size_eq] at hbody
        obtain ⟨a₂, moved₂, hb₂, hadv₂, hle₂, ha₂, hprog₂, hcase⟩ :=
          fillMove_spec n.toNat hq size a₁ moved b₁ adv₁ hb₁ ha₁ (by omega) hadv₁
        -- either the gap or the inner loop has moved the order head
        have hlt₂ : a < a₂ := by
          rcases hprog with h | h
          · omega
          · have hmove := hprog₂ h
            omega
        have hrest := ih a₂ (moved ++ moved₂) _ _ hb₂ ha₂ (by omega) hadv₂ (by
          intro hfree
          rcases hcase with ⟨hgap₂, -⟩ | ⟨hfull, -⟩
          · exact Or.inr hgap₂
          · exact absurd hfull hfree)
        rw [hbody]
        rcases hcase with ⟨hgap₂, hw⟩ | ⟨hfull, m, hw⟩
        · -- the inner loop ended at a gap, with or without room left
          have hr : restWalk q n.toNat a moved
              = { restWalk q n.toNat a₂ (moved ++ moved₂) with
                  moved := moved₂ ++ (restWalk q n.toNat a₂ (moved ++ moved₂)).moved } := by
            rw [restWalk_gap hgap₂, restWalk, if_neg hgo.2, hwalk₁, hw]
          rw [hr]
          dsimp only
          rw [← List.append_assoc]
          exact hrest
        · -- it ended with the queue full
          have hr : restWalk q n.toNat a moved = ⟨moved₂, some m, a₂⟩ := by
            rw [restWalk, if_neg hgo.2, hwalk₁, hw]
          have hnone : restWalk q n.toNat a₂ (moved ++ moved₂) = ⟨[], none, a₂⟩ := by
            rw [restWalk, if_pos hfull]
          rw [hnone, List.append_nil] at hrest
          rw [hr]
          exact hrest
      · -- the loop test fails
        have hstop : fillLoop n (k + 1) b adv = (b, adv) := by
          rw [fillLoop, if_neg]
          rw [UInt32.lt_iff_toNat_lt, hadv, Ne, hb.full_iff]
          exact hgo
        rw [hstop, restWalk_stop hgap hgo, List.append_nil]
        exact ⟨hb, hadv⟩

/-- **`rte_reorder_fill_overflow` is `fill`**, and returns how far the walk
went. -/
theorem rteReorderFillOverflow_refines {b : ReorderBuffer} (hb : Refines size b q) {n : UInt32}
    (hpos : 0 < n.toNat) (hn : n.toNat ≤ size) :
    Refines size (rteReorderFillOverflow b n).1 (q.fill n.toNat)
      ∧ (rteReorderFillOverflow b n).2.toNat = (q.fillWalk n.toNat).adv := by
  have hq := hb.window_length
  have h0 : q.passed 0 [] = q := by simp [Resequencer.passed]
  have hspec := fillLoop_spec n hq hn n.toNat 0 [] b 0 (by rw [h0]; exact hb) (by omega)
    (by omega) rfl (fun _ => Or.inl hpos)
  rw [restWalk, h0, List.drop_zero] at hspec
  obtain ⟨href, hadv⟩ := hspec
  refine ⟨?_, hadv⟩
  refine ⟨href.initialized, ?_, href.readyWF, href.orderWF, href.ready, href.window⟩
  show (fillLoop n n.toNat b 0).1.minSeqn + (fillLoop n n.toNat b 0).2
    = q.minSeqn + UInt32.ofNat (q.fillWalk n.toNat).adv
  have hmin : (fillLoop n n.toNat b 0).1.minSeqn = q.minSeqn := href.minSeqn
  have hadv' : (fillLoop n n.toNat b 0).2.toNat = (q.fillWalk n.toNat).adv := hadv
  rw [hmin, ← hadv', UInt32.ofNat_toNat]

end Fill

/-! ## §4. `rte_reorder_insert`, `rte_reorder_drain` and `reorder_init`. -/

section Operations

variable {size : ℕ} {b : ReorderBuffer} {q : Resequencer}

/-- **`rte_reorder_insert` is `insert`.** -/
theorem rteReorderInsert_refines (hb : Refines size b q) (m : Mbuf) :
    Refines size (rteReorderInsert b (some m)).1 (q.insert m).1
      ∧ (rteReorderInsert b (some m)).2 = (q.insert m).2 := by
  have hq := hb.window_length
  have hsz := hb.orderWF.size_eq
  have hsize := hb.orderWF.size_lt
  have hoff : (m.seqn - b.minSeqn).toNat = q.offset m := by rw [hb.minSeqn]; rfl
  have htwice : (2 * b.orderBuf.size).toNat = q.twice := by
    rw [UInt32.toNat_mul, hsz, Resequencer.twice, hq]
    rfl
  unfold rteReorderInsert Resequencer.insert
  simp only [hb.initialized, Bool.not_true, Bool.false_eq_true, if_false, UInt32.lt_iff_toNat_lt,
    hoff, hsz, htwice, hq]
  by_cases hin : q.offset m < size
  · rw [if_pos hin, if_pos hin]
    refine ⟨?_, rfl⟩
    rw [← hoff]
    -- in the window
    exact hb.storeAt (by rw [hoff]; exact hin) m
  · rw [if_neg hin, if_neg hin]
    by_cases hnear : q.offset m < q.twice
    · -- past the window, less than twice as far
      rw [if_pos hnear, if_pos hnear]
      have hlt : q.offset m < 2 * size := by
        have hmod : q.twice ≤ 2 * q.window.length := Nat.mod_le _ _
        omega
      -- the number of places to free, without a wrap
      have hn : (m.seqn - b.minSeqn + 1 - b.orderBuf.size).toNat = q.offset m + 1 - size := by
        have htop : q.twice < 2 ^ 32 := Nat.mod_lt _ (by norm_num)
        have hone : (m.seqn - b.minSeqn + 1).toNat = q.offset m + 1 :=
          (uint32_toNat_add_ofNat (k := 1) (by omega)).trans (by rw [hoff])
        rw [UInt32.toNat_sub_of_le _ _ (by rw [UInt32.le_iff_toNat_le, hone, hsz]; omega), hone,
          hsz]
      obtain ⟨hfill, hadv⟩ := rteReorderFillOverflow_refines hb
        (n := m.seqn - b.minSeqn + 1 - b.orderBuf.size) (by omega) (by omega)
      rw [hn] at hfill hadv
      simp only [hadv, hn]
      by_cases hshort : (q.fillWalk (q.offset m + 1 - size)).adv < q.offset m + 1 - size
      · rw [if_pos hshort, if_pos hshort]
        -- ENOSPC: the window could not be moved far enough
        exact ⟨hfill, rfl⟩
      · rw [if_neg hshort, if_neg hshort]
        refine ⟨?_, rfl⟩
        -- the window has been moved, so the offset is smaller by as much
        have hle : (q.fillWalk (q.offset m + 1 - size)).adv ≤ size :=
          hq ▸ q.fillWalk_adv_le (q.offset m + 1 - size)
        have hoff' : (m.seqn - (rteReorderFillOverflow b
              (m.seqn - b.minSeqn + 1 - b.orderBuf.size)).1.minSeqn).toNat
            = q.offset m - (q.fillWalk (q.offset m + 1 - size)).adv := by
          have hsmall : (UInt32.ofNat (q.fillWalk (q.offset m + 1 - size)).adv).toNat
              = (q.fillWalk (q.offset m + 1 - size)).adv := uint32_toNat_ofNat (by omega)
          rw [hfill.minSeqn]
          show (m.seqn - (q.minSeqn + UInt32.ofNat _)).toNat = _
          rw [show m.seqn - (q.minSeqn + UInt32.ofNat (q.fillWalk (q.offset m + 1 - size)).adv)
              = m.seqn - q.minSeqn - UInt32.ofNat (q.fillWalk (q.offset m + 1 - size)).adv by grind,
            UInt32.toNat_sub_of_le, hsmall]
          · rfl
          · rw [UInt32.le_iff_toNat_le, hsmall]
            show _ ≤ q.offset m
            omega
        rw [← hoff']
        exact hfill.storeAt (by rw [hoff']; omega) m
    · rw [if_neg hnear, if_neg hnear]
      -- ERANGE
      exact ⟨hb, rfl⟩

/-- The first loop of the drain takes from the queue. -/
theorem drainReady_spec :
    ∀ (k : ℕ) (c : CirBuffer) (ready : List Mbuf), c.WF size →
      c.queue size = ready.map some →
      (drainReady k c).1.WF size ∧ (drainReady k c).1.queue size = (ready.drop k).map some
        ∧ (drainReady k c).2 = (ready.take k).map some := by
  intro k
  induction k with
  | zero =>
      intro c ready hc hqueue
      exact ⟨hc, hqueue, rfl⟩
  | succ k ih =>
      intro c ready hc hqueue
      by_cases hempty : c.tail = c.head
      · -- the indices meet: nothing is queued
        have hnil : ready = [] := by
          rw [hc.empty_iff.mp hempty] at hqueue
          exact List.map_eq_nil_iff.mp hqueue.symm
        have hstop : drainReady (k + 1) c = (c, []) := by
          rw [drainReady, if_neg (not_not.mpr hempty)]
        rw [hstop, hnil]
        rw [hnil] at hqueue
        exact ⟨hc, hqueue, rfl⟩
      · -- the slot at the tail is the first of the queue
        have hpop := hc.queue_pop none hempty
        cases ready with
        | nil =>
            rw [hqueue] at hpop
            exact absurd hpop (by simp)
        | cons m ready =>
            rw [hqueue, List.map_cons] at hpop
            obtain ⟨hm, hrest⟩ := List.cons.inj hpop
            obtain ⟨hwf, hq, hout⟩ := ih _ ready (hc.set c.tail none).stepTail hrest.symm
            rw [drainReady, if_pos hempty]
            refine ⟨hwf, hq, ?_⟩
            rw [List.take_succ_cons, List.map_cons, hm, ← hout]

/-- The second loop takes from the front of the window. -/
theorem drainOrder_spec :
    ∀ (k : ℕ) (b : ReorderBuffer) (q : Resequencer), Refines size b q →
      Refines size (drainOrder k b).1
          { q with
            minSeqn := q.minSeqn + UInt32.ofNat (leading k q.window).length
            window := slide q.window (leading k q.window).length }
        ∧ (drainOrder k b).2 = (leading k q.window).map some := by
  have hzero : ∀ x : UInt32, x + UInt32.ofNat 0 = x := UInt32.add_zero
  intro k
  induction k with
  | zero =>
      intro b q hb
      have hnil : leading 0 q.window = [] := by cases q.window <;> rfl
      rw [hnil, List.length_nil, slide_zero, hzero]
      exact ⟨hb, rfl⟩
  | succ k ih =>
      intro b q hb
      have hcons := hb.get_head
      cases hx : b.orderBuf.get b.orderBuf.head with
      | none =>
          rw [hx] at hcons
          have hnil : leading (k + 1) q.window = [] := by
            rw [hcons]
            rfl
          -- a gap at the order head: the loop ends
          have hstop : drainOrder (k + 1) b = (b, []) := by
            unfold drainOrder
            rw [hx]
          rw [hnil, hstop, List.length_nil, slide_zero, hzero]
          exact ⟨hb, rfl⟩
      | some m =>
          rw [hx] at hcons
          -- the mbuf at the order head leaves, and `min_seqn` moves past it
          have hlead : leading (k + 1) q.window = m :: leading k q.window.tail := by
            rw [hcons]
            rfl
          have hb' : Refines size
              { b with
                minSeqn := b.minSeqn + 1
                orderBuf := (b.orderBuf.set b.orderBuf.head none).stepHead }
              { q with minSeqn := q.minSeqn + 1, window := q.window.tail ++ [none] } :=
            { hb.passHead with minSeqn := by rw [hb.minSeqn] }
          obtain ⟨href, hout⟩ := ih _ _ hb'
          have hbody : drainOrder (k + 1) b
              = ((drainOrder k
                    { b with
                      minSeqn := b.minSeqn + 1
                      orderBuf := (b.orderBuf.set b.orderBuf.head none).stepHead }).1,
                 some m :: (drainOrder k
                    { b with
                      minSeqn := b.minSeqn + 1
                      orderBuf := (b.orderBuf.set b.orderBuf.head none).stepHead }).2) := by
            rw [drainOrder, hx]
          have hlen : (leading k q.window.tail).length < q.window.length := by
            have hle := (leading_length_le k q.window.tail).2
            have hpos := hb.orderWF.size_lt.1
            rw [List.length_tail, hb.window_length] at hle
            rw [hb.window_length]
            omega
          rw [leading_append_none, slide_slide_one hlen] at href
          rw [leading_append_none] at hout
          rw [hbody, hlead, hout]
          refine ⟨?_, rfl⟩
          have hsum : q.minSeqn + UInt32.ofNat (m :: leading k q.window.tail).length
              = q.minSeqn + 1 + UInt32.ofNat (leading k q.window.tail).length := by
            rw [List.length_cons, UInt32.ofNat_add, UInt32.add_assoc,
              UInt32.add_comm (UInt32.ofNat _)]
            rfl
          rw [hsum]
          exact href

/-- **`rte_reorder_drain` is `drain`**, and every pointer it outputs is an mbuf. -/
theorem rteReorderDrain_refines (hb : Refines size b q) (max : ℕ) :
    Refines size (rteReorderDrain b max).1 (q.drain max).1
      ∧ (rteReorderDrain b max).2 = (q.drain max).2.map some := by
  obtain ⟨hwf, hqueue, hout⟩ := drainReady_spec max b.readyBuf q.ready hb.readyWF hb.ready
  have hb' : Refines size { b with readyBuf := (drainReady max b.readyBuf).1 }
      { q with ready := q.ready.drop max } :=
    { hb with readyWF := hwf, ready := hqueue }
  have hlen : max - (drainReady max b.readyBuf).2.length = max - q.ready.length := by
    rw [hout, List.length_map, List.length_take]
    omega
  obtain ⟨href, hout'⟩ := drainOrder_spec (max - q.ready.length) _ _ hb'
  unfold rteReorderDrain Resequencer.drain
  dsimp only
  rw [hlen, hout', hout, List.map_append]
  exact ⟨href, rfl⟩

/-- The check of `rte_reorder_create` accepts powers of two. -/
theorem rteIsPowerOf2_iff (n : UInt32) :
    rteIsPowerOf2 n = true ↔ ∃ k, k < 32 ∧ n.toNat = 2 ^ k := by
  have hand : ((n &&& (n - 1)) == 0) = true ↔ n.toNat &&& (n.toNat - 1) = 0 ∨ n = 0 := by
    by_cases hn : n = 0
    · simp [hn]
    · -- for `n = 0` the subtraction wraps, and the first test answers
      have hle : (1 : UInt32) ≤ n := by
        rw [UInt32.le_iff_toNat_le, UInt32.toNat_one]
        have h0 : n.toNat ≠ 0 := fun h => hn (UInt32.toNat_inj.mp h)
        omega
      rw [beq_iff_eq, ← UInt32.toNat_inj, UInt32.toNat_and, UInt32.toNat_sub_of_le _ _ hle]
      simp [hn]
  have hpow : (n.toNat ≠ 0 ∧ n.toNat &&& (n.toNat - 1) = 0) ↔ n.toNat.isPowerOfTwo :=
    Nat.ne_zero_and_sub_one_eq_zero_iff_isPowerOfTwo
  have hlt := n.toNat_lt
  have hzero : n = 0 ↔ n.toNat = 0 := UInt32.toNat_inj.symm
  constructor
  · intro h
    unfold rteIsPowerOf2 at h
    rw [Bool.and_eq_true, bne_iff_ne, hand] at h
    obtain ⟨k, hk⟩ := hpow.mp ⟨fun h0 => h.1 (hzero.mpr h0), h.2.resolve_right h.1⟩
    refine ⟨k, ?_, hk⟩
    rw [hk] at hlt
    exact (Nat.pow_lt_pow_iff_right (by norm_num)).mp hlt
  · intro h
    obtain ⟨k, hk, hn⟩ := h
    obtain ⟨h0, hz⟩ := hpow.mpr ⟨k, hn⟩
    unfold rteIsPowerOf2
    rw [Bool.and_eq_true, bne_iff_ne, hand]
    exact ⟨fun h => h0 (hzero.mp h), Or.inl hz⟩

/-- Setting the first sequence number of an empty buffer. -/
theorem rteReorderMinSeqnSet_empty {b : ReorderBuffer} (h : rteReorderIsEmpty b = true)
    (minSeqn : UInt32) :
    rteReorderMinSeqnSet b minSeqn
      = ({ b with minSeqn := minSeqn, isInitialized := true }, none) := by
  rw [rteReorderMinSeqnSet, h]
  rfl

/-- A resequencer with nothing in it. -/
def Resequencer.empty (size : ℕ) : Resequencer where
  minSeqn := seqNumStart
  ready := []
  window := List.replicate size none

/-- **`reorder_init`** starts with an empty resequencer of a power-of-two size. -/
theorem reorderInitWith_refines {size : UInt32} {batchSize : ℕ} {st : ReorderStage}
    (h : reorderInitWith size batchSize = some st) :
    st.batchSize = batchSize ∧ Refines size.toNat st.reorderBuf (.empty size.toNat) := by
  unfold reorderInitWith rteReorderCreate at h
  split at h
  · exact absurd h (by simp)
  · next hpow =>
      rw [Option.map_some, Option.some.injEq] at h
      rw [Bool.not_eq_true', Bool.not_eq_false] at hpow
      obtain ⟨k, hk, hsize⟩ := (rteIsPowerOf2_iff size).mp hpow
      have hpos : 0 < size.toNat := by
        rw [hsize]
        exact Nat.two_pow_pos k
      -- both circular buffers are zeroed, with the same size and mask
      have hwf : (CirBuffer.init size).WF size.toNat :=
        { pow := ⟨k, hk, hsize⟩
          size_eq := rfl
          mask_eq := by
            show (size - 1).toNat = _
            rw [UInt32.toNat_sub_of_le, UInt32.toNat_one]
            rw [UInt32.le_iff_toNat_le, UInt32.toNat_one]
            omega
          head_lt := hpos
          tail_lt := hpos }
      have hplaces : (CirBuffer.init size).places size.toNat = List.replicate size.toNat none := by
        unfold CirBuffer.places Lib.window
        simp [CirBuffer.init]
      rw [← h]
      refine ⟨rfl, ?_⟩
      rw [rteReorderMinSeqnSet_empty (by simp [rteReorderIsEmpty, CirBuffer.init])]
      exact ⟨rfl, rfl, hwf, hwf, live_self _ _ _, hplaces⟩

end Operations

end Meili.Reorder
