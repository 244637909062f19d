/-
  Meili.Lib.Ring — circular buffers over an array of slots.

  A ring of `n` slots is a slot function `e : ℕ → α` with indices below `n`.
  Two readings of it:

    • `window n h e` — all `n` slots, read from index `h` on (a ring whose
      head moves over gaps and occupied slots alike);
    • `live n t h e` — the slots from the tail `t` up to the head `h` (a
      queue; one slot stays free, so `t = h` is the empty queue).

  Each update of a slot or an index is one list operation of a reading, so a
  client reasons about lists and never about indices modulo `n`.
-/
import Mathlib.Data.List.Basic
import Mathlib.Data.List.Rotate
import Mathlib.Data.Nat.ModEq
import Mathlib.Logic.Function.Basic
import Mathlib.Tactic.Ring

namespace Meili.Lib

variable {α : Type*}

/-! ## §1. Indices modulo `n`. -/

/-- Positions less than `n` apart are different slots. -/
theorem ringPos_inj {n h i j : ℕ} (hi : i < n) (hj : j < n) :
    (h + i) % n = (h + j) % n ↔ i = j := by
  constructor
  · intro heq
    have hmod : i ≡ j [MOD n] := Nat.ModEq.add_left_cancel' h heq
    exact Nat.ModEq.eq_of_lt_of_lt hmod hi hj
  · rintro rfl
    rfl

/-- The slot after the last is the first. -/
theorem succ_mod_cases {n h : ℕ} (hh : h < n) :
    (h + 1 < n ∧ (h + 1) % n = h + 1) ∨ (h + 1 = n ∧ (h + 1) % n = 0) := by
  rcases Nat.lt_or_ge (h + 1) n with hlt | hge
  · exact Or.inl ⟨hlt, Nat.mod_eq_of_lt hlt⟩
  · have heq : h + 1 = n := by omega
    exact Or.inr ⟨heq, by rw [heq, Nat.mod_self]⟩

/-! ## §2. The window. -/

/-- All slots, from index `h` on. -/
def window (n h : ℕ) (e : ℕ → α) : List α := (List.range n).map fun i => e ((h + i) % n)

@[simp] theorem window_length (n h : ℕ) (e : ℕ → α) : (window n h e).length = n := by
  simp [window]

theorem window_getElem? {n h i : ℕ} (e : ℕ → α) (hi : i < n) :
    (window n h e)[i]? = some (e ((h + i) % n)) := by
  simp [window, hi]

theorem window_const (n h : ℕ) (a : α) : window n h (fun _ => a) = List.replicate n a := by
  rw [window, List.map_const', List.length_range]

/-- Two lists of `n` entries that agree at every index below `n`. -/
theorem eq_of_getElem?_lt {n : ℕ} {l₁ l₂ : List α} (h₁ : l₁.length = n) (h₂ : l₂.length = n)
    (h : ∀ i, i < n → l₁[i]? = l₂[i]?) : l₁ = l₂ := by
  apply List.ext_getElem?
  intro i
  rcases Nat.lt_or_ge i n with hi | hi
  · exact h i hi
  · rw [List.getElem?_eq_none (h₁.trans_le hi), List.getElem?_eq_none (h₂.trans_le hi)]

/-- Writing the slot `i` places after `h` writes entry `i` of the window. -/
theorem window_update {n h i : ℕ} (e : ℕ → α) (v : α) (hi : i < n) :
    window n h (Function.update e ((h + i) % n) v) = (window n h e).set i v := by
  apply eq_of_getElem?_lt (n := n) (by simp) (by simp)
  intro j hj
  rw [window_getElem? _ hj, List.getElem?_set]
  by_cases hij : i = j
  · subst hij
    simp [hi]
  · -- another place is another slot
    have hne : (h + j) % n ≠ (h + i) % n := fun heq => hij ((ringPos_inj hj hi).mp heq).symm
    rw [Function.update_of_ne hne, if_neg hij, window_getElem? _ hj]

/-- Entry 0 of the window is the slot at `h`. -/
theorem window_eq_cons {n h : ℕ} (e : ℕ → α) (hh : h < n) :
    window n h e = e h :: (window n h e).tail := by
  obtain ⟨k, rfl⟩ : ∃ k, n = k + 1 := ⟨n - 1, by omega⟩
  simp [window, List.range_succ_eq_map, Nat.mod_eq_of_lt hh]

/-- Writing the slot at `h` and moving past it moves the entry to the end. -/
theorem window_advance {n h : ℕ} (e : ℕ → α) (v : α) (hh : h < n) :
    window n ((h + 1) % n) (Function.update e h v) = (window n h e).tail ++ [v] := by
  have hpos : 0 < n := by omega
  apply eq_of_getElem?_lt (n := n) (by simp) (by simp; omega)
  intro i hi
  have hpos_eq : ((h + 1) % n + i) % n = (h + (i + 1)) % n := by
    rw [Nat.mod_add_mod]
    congr 1
    ring
  rw [window_getElem? _ hi, hpos_eq]
  rcases Nat.lt_or_ge (i + 1) n with hlt | hge
  · -- entries 0 to n - 2 come from the entries behind the first
    have hne : (h + (i + 1)) % n ≠ h := by
      intro heq
      have h0 : (h + (i + 1)) % n = (h + 0) % n := by
        rw [heq, Nat.add_zero, Nat.mod_eq_of_lt hh]
      exact absurd ((ringPos_inj hlt hpos).mp h0) (by omega)
    rw [Function.update_of_ne hne, List.getElem?_append_left (by simp; omega),
      List.getElem?_tail, window_getElem? _ hlt]
  · -- the last entry is the slot just written
    have hin : i + 1 = n := by omega
    have hlast : (h + (i + 1)) % n = h := by
      rw [hin, Nat.add_mod_right, Nat.mod_eq_of_lt hh]
    rw [hlast, Function.update_self, List.getElem?_append_right (by simp; omega)]
    simp [show i - (n - 1) = 0 by omega]

/-- Moving past a slot without a write. -/
theorem window_rotate {n h : ℕ} (e : ℕ → α) (hh : h < n) :
    window n ((h + 1) % n) e = (window n h e).tail ++ [e h] := by
  have hadv := window_advance e (e h) hh
  rwa [Function.update_eq_self] at hadv

/-- A window that is the end of a list stays so when both grow. -/
theorem window_push {n h k : ℕ} {e : ℕ → α} {l : List α} (v : α) (hh : h < n)
    (hl : l.length = n + k) (hwindow : window n h e = l.drop k) :
    window n ((h + 1) % n) (Function.update e h v) = (l ++ [v]).drop (k + 1) := by
  rw [window_advance e v hh, hwindow, List.tail_drop,
    List.drop_append_of_le_length (by omega)]

/-- The window holds every slot once. -/
theorem window_perm (n h : ℕ) (e : ℕ → α) : (window n h e).Perm ((List.range n).map e) := by
  have hrot : (List.range n).map (fun i => (h + i) % n) = (List.range n).rotate h := by
    apply List.ext_getElem
    · simp
    · intro i hi hi'
      simp [List.getElem_rotate, Nat.add_comm]
  have hwin : window n h e = ((List.range n).rotate h).map e := by
    rw [← hrot, List.map_map]
    rfl
  rw [hwin]
  exact (List.rotate_perm (List.range n) h).map e

/-! ## §3. The live slots. -/

/-- The number of slots from `t` up to `h`. -/
def liveCount (n t h : ℕ) : ℕ := if t ≤ h then h - t else h + n - t

/-- The slots from the tail `t` up to the head `h`. -/
def live (n t h : ℕ) (e : ℕ → α) : List α :=
  (List.range (liveCount n t h)).map fun i => e ((t + i) % n)

@[simp] theorem live_length (n t h : ℕ) (e : ℕ → α) : (live n t h e).length = liveCount n t h := by
  simp [live]

theorem liveCount_lt {n t h : ℕ} (ht : t < n) (hh : h < n) : liveCount n t h < n := by
  unfold liveCount
  split <;> omega

theorem liveCount_eq_zero_iff {n t h : ℕ} (ht : t < n) : liveCount n t h = 0 ↔ t = h := by
  unfold liveCount
  split <;> omega

/-- The queue is full when one slot is left. -/
theorem succ_eq_tail_iff {n t h : ℕ} (ht : t < n) (hh : h < n) :
    (h + 1) % n = t ↔ liveCount n t h = n - 1 := by
  unfold liveCount
  rcases succ_mod_cases hh with ⟨hlt, hs⟩ | ⟨heq, hs⟩ <;> rw [hs] <;> split <;> omega

theorem liveCount_push {n t h : ℕ} (ht : t < n) (hh : h < n) (hroom : (h + 1) % n ≠ t) :
    liveCount n t ((h + 1) % n) = liveCount n t h + 1 := by
  unfold liveCount
  rcases succ_mod_cases hh with ⟨hlt, hs⟩ | ⟨heq, hs⟩ <;> rw [hs] at hroom ⊢ <;> split <;>
    split <;> omega

theorem liveCount_pop {n t h : ℕ} (ht : t < n) (hh : h < n) (hne : t ≠ h) :
    liveCount n t h = liveCount n ((t + 1) % n) h + 1 := by
  unfold liveCount
  rcases succ_mod_cases ht with ⟨hlt, hs⟩ | ⟨heq, hs⟩ <;> rw [hs] <;> split <;> split <;> omega

/-- The slot at the head lies `liveCount` places after the tail. -/
theorem head_eq {n t h : ℕ} (ht : t < n) (hh : h < n) : (t + liveCount n t h) % n = h := by
  unfold liveCount
  split
  · rw [show t + (h - t) = h by omega, Nat.mod_eq_of_lt hh]
  · rw [show t + (h + n - t) = h + n by omega, Nat.add_mod_right, Nat.mod_eq_of_lt hh]

/-- The slot at the head is not live, so writing it changes nothing live. -/
theorem live_update_head {n t h : ℕ} (e : ℕ → α) (v : α) (ht : t < n) (hh : h < n) :
    live n t h (Function.update e h v) = live n t h e := by
  apply List.map_congr_left
  intro i hi
  have hlt : i < liveCount n t h := List.mem_range.mp hi
  have hcount := liveCount_lt ht hh
  refine Function.update_of_ne (fun heq => ?_) _ _
  rw [← head_eq ht hh] at heq
  exact absurd ((ringPos_inj (hlt.trans hcount) hcount).mp heq) hlt.ne

/-- **Enqueue**: write the slot at the head, then move the head. -/
theorem live_push {n t h : ℕ} (e : ℕ → α) (v : α) (ht : t < n) (hh : h < n)
    (hroom : (h + 1) % n ≠ t) :
    live n t ((h + 1) % n) (Function.update e h v) = live n t h e ++ [v] := by
  have hold := live_update_head e v ht hh
  unfold live at hold ⊢
  rw [liveCount_push ht hh hroom, List.range_succ, List.map_append, hold]
  simp [head_eq ht hh]

/-- **Dequeue**: take the slot at the tail, write it, then move the tail. -/
theorem live_pop {n t h : ℕ} (e : ℕ → α) (v : α) (ht : t < n) (hh : h < n) (hne : t ≠ h) :
    live n t h e = e t :: live n ((t + 1) % n) h (Function.update e t v) := by
  have hcount := liveCount_lt ht hh
  have hpop := liveCount_pop ht hh hne
  unfold live
  rw [hpop, List.range_succ_eq_map, List.map_cons, List.map_map, Nat.add_zero,
    Nat.mod_eq_of_lt ht]
  congr 1
  apply List.map_congr_left
  intro i hi
  have hlt : i < liveCount n ((t + 1) % n) h := List.mem_range.mp hi
  -- counted from the new tail, every live slot is one place nearer
  have hpos : ((t + 1) % n + i) % n = (t + (i + 1)) % n := by
    rw [Nat.mod_add_mod]
    congr 1
    ring
  have hne : (t + (i + 1)) % n ≠ t := by
    intro heq
    have h0 : (t + (i + 1)) % n = (t + 0) % n := by
      rw [heq, Nat.add_zero, Nat.mod_eq_of_lt ht]
    exact absurd ((ringPos_inj (by omega) (by omega)).mp h0) (by omega)
  rw [hpos, Function.update_of_ne hne]
  rfl

/-- Nothing is live when the indices meet. -/
theorem live_self (n t : ℕ) (e : ℕ → α) : live n t t e = [] := by
  simp [live, liveCount]

end Meili.Lib
