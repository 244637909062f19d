/-
  Meili.Reorder.Resequencer — what the reorder buffer is for, as lists.

  A `Resequencer` is a queue of mbufs that are ready to leave and a window of
  places for the next sequence numbers, the first of which is `minSeqn`.
  `Refines` connects it with the two circular buffers, and each operation of
  the source is an operation on the lists:

    • `fill`  — walk along the window, past gaps and moving what is there,
      until enough places are freed or the queue is full (`walk`);
    • `insert`, `drain`.

  The walk says what happens at a full queue: an mbuf that is met when no
  room is left leaves the window and is not queued (`Walk.lost`).
-/
import Mathlib.Data.List.ReduceOption
import Meili.Lib.Ring
import Meili.Reorder.Buffer

namespace Meili.Reorder

open Meili.Lib

/-! ## §1. The abstract operations. -/

/-- The mbufs that are ready to leave, and the window from `minSeqn` on. -/
structure Resequencer where
  minSeqn : UInt32
  ready : List Mbuf
  window : List (Option Mbuf)

/-- What a walk along the window does: the mbufs it queues, the one it loses,
and the number of places it passes. -/
structure Walk where
  moved : List Mbuf
  lost : Option Mbuf
  adv : ℕ
  deriving DecidableEq

/-- The walk from place `a` on, with `f` places free in the queue: gaps are
only passed before place `n` and with room in the queue. -/
def walk (n : ℕ) : ℕ → ℕ → List (Option Mbuf) → Walk
  | a, _, [] => ⟨[], none, a⟩
  | a, f, none :: w => if a < n ∧ f ≠ 0 then walk n (a + 1) f w else ⟨[], none, a⟩
  | a, 0, some m :: _ => ⟨[], some m, a + 1⟩
  | a, f + 1, some m :: w =>
      let r := walk n (a + 1) f w
      { r with moved := m :: r.moved }

/-- The window after its first `k` places were passed. -/
def slide (w : List (Option Mbuf)) (k : ℕ) : List (Option Mbuf) :=
  w.drop k ++ List.replicate k none

/-- The mbufs in front of the first gap, `k` at most. -/
def leading : ℕ → List (Option Mbuf) → List Mbuf
  | k + 1, some m :: w => m :: leading k w
  | _, _ => []

namespace Resequencer

/-- Free places of the queue: a ring of the window's size keeps one slot empty. -/
def free (q : Resequencer) : ℕ := q.window.length - 1 - q.ready.length

/-- The walk that `fill` takes; a full queue is not walked into. -/
def fillWalk (q : Resequencer) (n : ℕ) : Walk :=
  if q.free = 0 then ⟨[], none, 0⟩ else walk n 0 q.free q.window

/-- After `a` places of the window were passed and `moved` was queued. -/
def passed (q : Resequencer) (a : ℕ) (moved : List Mbuf) : Resequencer :=
  { q with ready := q.ready ++ moved, window := slide q.window a }

/-- Free `n` places of the window. -/
def fill (q : Resequencer) (n : ℕ) : Resequencer :=
  let r := q.fillWalk n
  { q.passed r.adv r.moved with minSeqn := q.minSeqn + UInt32.ofNat r.adv }

/-- How far ahead of the window's start the sequence number of `m` is. -/
def offset (q : Resequencer) (m : Mbuf) : ℕ := (m.seqn - q.minSeqn).toNat

/-- Twice the window, as the 32-bit comparison sees it. -/
def twice (q : Resequencer) : ℕ := 2 * q.window.length % 2 ^ 32

/-- Place an mbuf in the window, making room for one up to twice as far ahead. -/
def insert (q : Resequencer) (m : Mbuf) : Resequencer × Option RteErrno :=
  let size := q.window.length
  let offset := q.offset m
  if offset < size then
    ({ q with window := q.window.set offset (some m) }, none)
  else if offset < q.twice then
    let n := offset + 1 - size
    let adv := (q.fillWalk n).adv
    if adv < n then (q.fill n, some .ENOSPC)
    else
      let q' := q.fill n
      ({ q' with window := q'.window.set (offset - adv) (some m) }, none)
  else (q, some .ERANGE)

/-- Take `max` mbufs: first the queue, then the front of the window. -/
def drain (q : Resequencer) (max : ℕ) : Resequencer × List Mbuf :=
  let front := leading (max - q.ready.length) q.window
  ({ minSeqn := q.minSeqn + UInt32.ofNat front.length
     ready := q.ready.drop max
     window := slide q.window front.length },
   q.ready.take max ++ front)

end Resequencer

/-! ## §2. Lists. -/

@[simp] theorem slide_length {w : List (Option Mbuf)} {k : ℕ} (hk : k ≤ w.length) :
    (slide w k).length = w.length := by
  simp [slide]
  omega

@[simp] theorem slide_zero (w : List (Option Mbuf)) : slide w 0 = w := by simp [slide]

/-- Passing one more place. -/
theorem slide_tail {w : List (Option Mbuf)} {k : ℕ} (hk : k < w.length) :
    (slide w k).tail ++ [none] = slide w (k + 1) := by
  unfold slide
  rw [List.drop_eq_getElem_cons hk, List.cons_append, List.tail_cons, List.append_assoc,
    List.replicate_succ']

/-- Place 0 of the window after `k` places were passed is place `k`, or a gap
when all were. -/
theorem slide_eq_cons {w : List (Option Mbuf)} {k : ℕ} (hpos : 0 < w.length) (hk : k ≤ w.length) :
    slide w k = (w[k]?.join) :: (slide w k).tail := by
  rcases Nat.lt_or_ge k w.length with hlt | hge
  · unfold slide
    rw [List.drop_eq_getElem_cons hlt, List.cons_append, List.tail_cons,
      List.getElem?_eq_getElem hlt, Option.join_some]
  · -- all places were passed: only fresh ones are left
    obtain rfl : k = w.length := by omega
    have hall : slide w w.length = List.replicate w.length none := by
      unfold slide
      rw [List.drop_length, List.nil_append]
    obtain ⟨j, hj⟩ : ∃ j, w.length = j + 1 := ⟨w.length - 1, by omega⟩
    rw [hall, List.getElem?_eq_none (le_refl _), Option.join_none, hj, List.replicate_succ,
      List.tail_cons]

/-- Passing place 0 and then `k` more. -/
theorem slide_slide_one {w : List (Option Mbuf)} {k : ℕ} (hk : k < w.length) :
    slide (w.tail ++ [none]) k = slide w (k + 1) := by
  unfold slide
  have hle : k ≤ w.tail.length := by
    rw [List.length_tail]
    omega
  rw [List.drop_append_of_le_length hle, List.drop_tail, List.append_assoc, List.replicate_succ,
    List.singleton_append]

theorem leading_length_le (k : ℕ) (w : List (Option Mbuf)) :
    (leading k w).length ≤ k ∧ (leading k w).length ≤ w.length := by
  induction w generalizing k with
  | nil => cases k <;> simp [leading]
  | cons x w ih =>
      cases k with
      | zero => simp [leading]
      | succ k =>
          cases x with
          | none => simp [leading]
          | some m =>
              have h := ih k
              simp only [leading, List.length_cons]
              omega

/-- A gap at the end is never reached. -/
theorem leading_append_none (k : ℕ) (w : List (Option Mbuf)) :
    leading k (w ++ [none]) = leading k w := by
  induction w generalizing k with
  | nil => cases k <;> rfl
  | cons x w ih =>
      cases k with
      | zero => rfl
      | succ k =>
          cases x with
          | none => rfl
          | some m =>
              show m :: leading k (w ++ [none]) = m :: leading k w
              rw [ih k]

/-- What is in front of the first gap is a prefix of the window. -/
theorem leading_eq_take (k : ℕ) (w : List (Option Mbuf)) :
    (leading k w).map some = w.take (leading k w).length := by
  induction w generalizing k with
  | nil => cases k <;> rfl
  | cons x w ih =>
      cases k with
      | zero => rfl
      | succ k =>
          cases x with
          | none => rfl
          | some m =>
              show some m :: (leading k w).map some = some m :: w.take (leading k w).length
              rw [ih k]

theorem reduceOption_map_some (l : List Mbuf) : (l.map some).reduceOption = l := by
  induction l with
  | nil => rfl
  | cons m l ih => rw [List.map_cons, List.reduceOption_cons_of_some, ih]

theorem leading_eq_reduceOption (k : ℕ) (w : List (Option Mbuf)) :
    leading k w = (w.take (leading k w).length).reduceOption := by
  rw [← leading_eq_take, reduceOption_map_some]

theorem slide_reduceOption (w : List (Option Mbuf)) (k : ℕ) :
    (slide w k).reduceOption = (w.drop k).reduceOption := by
  rw [slide, List.reduceOption_append, List.reduceOption_replicate_none, List.append_nil]

/-! ## §3. The walk. -/

/-- A walk past an mbuf that is queued first does what the rest of it does. -/
theorem walk_some {n a f : ℕ} (hf : f ≠ 0) (m : Mbuf) (w : List (Option Mbuf)) :
    walk n a f (some m :: w)
      = { walk n (a + 1) (f - 1) w with moved := m :: (walk n (a + 1) (f - 1) w).moved } := by
  obtain ⟨f', rfl⟩ : ∃ f', f = f' + 1 := ⟨f - 1, by omega⟩
  rfl

theorem walk_none {n a f : ℕ} (hgo : a < n ∧ f ≠ 0) (w : List (Option Mbuf)) :
    walk n a f (none :: w) = walk n (a + 1) f w := by
  simp only [walk, if_pos hgo]

/-- A walk stays in the window. -/
theorem walk_adv_bounds (n : ℕ) (w : List (Option Mbuf)) :
    ∀ a f, a ≤ (walk n a f w).adv ∧ (walk n a f w).adv ≤ a + w.length := by
  induction w with
  | nil => intro a f; simp [walk]
  | cons x w ih =>
      intro a f
      cases x with
      | none =>
          unfold walk
          have h := ih (a + 1) f
          split <;> simp only [List.length_cons] <;> omega
      | some m =>
          cases f with
          | zero => simp only [walk, List.length_cons]; omega
          | succ f =>
              have h := ih (a + 1) f
              simp only [walk, List.length_cons]
              omega

/-- At a gap that may not be passed, the walk ends. -/
theorem walk_stop {n a f : ℕ} {w : List (Option Mbuf)} (hgap : w[0]?.join = none)
    (hstop : ¬ (a < n ∧ f ≠ 0)) : walk n a f w = ⟨[], none, a⟩ := by
  cases w with
  | nil => rfl
  | cons x w =>
      cases x with
      | none => simp only [walk, if_neg hstop]
      | some m => exact absurd hgap (by simp)

/-- **What a walk does with the mbufs it passes**: it queues them all, or all
but the last. -/
theorem walk_takes (n : ℕ) (w : List (Option Mbuf)) :
    ∀ a f, (walk n a f w).moved ++ (walk n a f w).lost.toList
      = (w.take ((walk n a f w).adv - a)).reduceOption := by
  induction w with
  | nil => intro a f; simp [walk]
  | cons x w ih =>
      intro a f
      have hstep : ∀ f', (x :: w).take ((walk n (a + 1) f' w).adv - a)
          = x :: w.take ((walk n (a + 1) f' w).adv - (a + 1)) := by
        intro f'
        have hle := (walk_adv_bounds n w (a + 1) f').1
        rw [show (walk n (a + 1) f' w).adv - a = (walk n (a + 1) f' w).adv - (a + 1) + 1 by omega,
          List.take_succ_cons]
      cases x with
      | none =>
          by_cases hgo : a < n ∧ f ≠ 0
          · -- a gap that is passed: no mbuf, one place
            rw [walk_none hgo, hstep, List.reduceOption_cons_of_none]
            exact ih (a + 1) f
          · -- a gap that ends the walk
            rw [walk_stop rfl hgo]
            simp
      | some m =>
          by_cases hf : f = 0
          · -- no room: the mbuf met here is the one that is lost
            rw [hf]
            simp [walk]
          · rw [walk_some hf]
            dsimp only
            rw [hstep, List.reduceOption_cons_of_some, List.cons_append, ih (a + 1) (f - 1)]

namespace Resequencer

theorem fillWalk_adv_le (q : Resequencer) (n : ℕ) : (q.fillWalk n).adv ≤ q.window.length := by
  unfold fillWalk
  split
  · exact Nat.zero_le _
  · have h := (walk_adv_bounds n q.window 0 q.free).2
    omega

theorem fillWalk_takes (q : Resequencer) (n : ℕ) :
    (q.fillWalk n).moved ++ (q.fillWalk n).lost.toList
      = (q.window.take (q.fillWalk n).adv).reduceOption := by
  unfold fillWalk
  split
  · rfl
  · exact walk_takes n q.window 0 q.free

/-- Everything the resequencer holds. -/
def held (q : Resequencer) : List Mbuf := q.ready ++ q.window.reduceOption

end Resequencer

end Meili.Reorder
