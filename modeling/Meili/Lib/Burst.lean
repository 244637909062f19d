/-
  Meili.Lib.Burst — bounded FIFOs with burst operations, served in turn.

    • `BurstRule` — how many of the offered entries a burst enqueue stores and
      how many of the stored entries a burst dequeue takes.  `anyPrefix` leaves
      it open, `atomicMin` is as much as possible; both are `Productive`;
    • `roundNext`, `ahead` — round-robin indices, and how many turns an index
      is away;
    • `visits` — how often a rotation that starts at index 0 has come to an
      index in its first turns;
    • `Balanced`, `Owed` — a family of loads that one index fills and another
      one drains, in turn, stays bounded;
    • `sum_update`, `update_le` — what an update of one member of a family does
      to a total, and to a bound.
-/
import Mathlib.Algebra.BigOperators.Group.Finset.Basic
import Mathlib.Algebra.BigOperators.Fin
import Mathlib.Tactic.Ring

namespace Meili.Lib

/-! ## §1. Burst operations. -/

/-- A rule for burst operations on a FIFO: `enq n len k` when `k` of `n` offered
entries may be stored beside `len` others, `deq n len k` when `k` of `len`
stored entries may be taken by a caller that asks for `n`. -/
structure BurstRule where
  /-- The number of entries the FIFO can store. -/
  capacity : ℕ
  enq : ℕ → ℕ → ℕ → Prop
  deq : ℕ → ℕ → ℕ → Prop
  enq_le : ∀ {n len k}, enq n len k → k ≤ n
  enq_room : ∀ {n len k}, enq n len k → len ≤ capacity → len + k ≤ capacity
  deq_le : ∀ {n len k}, deq n len k → k ≤ n ∧ k ≤ len

/-- Any prefix that fits may be stored, any prefix may be taken. -/
def anyPrefix (capacity : ℕ) : BurstRule where
  capacity := capacity
  enq n len k := k ≤ n ∧ len + k ≤ capacity
  deq n len k := k ≤ n ∧ k ≤ len
  enq_le h := h.1
  enq_room h _ := h.2
  deq_le h := h

/-- As many entries as possible are stored, and taken. -/
def atomicMin (capacity : ℕ) : BurstRule where
  capacity := capacity
  enq n len k := k = min n (capacity - len)
  deq n len k := k = min n len
  enq_le h := by omega
  enq_room h hle := by omega
  deq_le h := by omega

/-- A burst can move something where there is something to move and room for it. -/
structure BurstRule.Productive (r : BurstRule) : Prop where
  capacity_pos : 0 < r.capacity
  enq_pos : ∀ {n len}, 0 < n → len < r.capacity → ∃ k, 0 < k ∧ r.enq n len k
  deq_pos : ∀ {n len}, 0 < n → 0 < len → ∃ k, 0 < k ∧ r.deq n len k
  deq_empty : ∀ n, r.deq n 0 0

theorem anyPrefix_productive {capacity : ℕ} (h : 0 < capacity) :
    (anyPrefix capacity).Productive where
  capacity_pos := h
  enq_pos hn hlen := ⟨1, Nat.one_pos, hn, hlen⟩
  deq_pos hn hlen := ⟨1, Nat.one_pos, hn, hlen⟩
  deq_empty n := ⟨Nat.zero_le n, le_refl 0⟩

theorem atomicMin_productive {capacity : ℕ} (h : 0 < capacity) :
    (atomicMin capacity).Productive where
  capacity_pos := h
  enq_pos {n len} hn hlen := ⟨min n (capacity - len), lt_min hn (Nat.sub_pos_of_lt hlen), rfl⟩
  deq_pos {n len} hn hlen := ⟨min n len, lt_min hn hlen, rfl⟩
  deq_empty n := (Nat.min_zero n).symm

/-- A burst of one entry is stored where there is room. -/
theorem BurstRule.Productive.enq_one {r : BurstRule} (h : r.Productive) {len : ℕ}
    (hlen : len < r.capacity) : r.enq 1 len 1 := by
  obtain ⟨k, hpos, hk⟩ := h.enq_pos Nat.one_pos hlen
  have hle := r.enq_le hk
  rwa [show k = 1 by omega] at hk

/-! ## §2. Round-robin. -/

variable {n : ℕ}

/-- The index after `i`, in turn. -/
def roundNext (i : Fin n) : Fin n := ⟨(i.val + 1) % n, Nat.mod_lt _ i.pos⟩

/-- How many turns `j` is ahead of `i`. -/
def ahead (i j : Fin n) : ℕ := if i ≤ j then j.val - i.val else j.val + n - i.val

theorem ahead_lt (i j : Fin n) : ahead i j < n := by
  have hi := i.isLt
  have hj := j.isLt
  unfold ahead
  split
  · omega
  next h =>
    rw [Fin.le_def] at h
    omega

@[simp] theorem ahead_self (i : Fin n) : ahead i i = 0 := by simp [ahead]

theorem ahead_eq_zero_iff {i j : Fin n} : ahead i j = 0 ↔ i = j := by
  have hi := i.isLt
  constructor
  · intro h
    unfold ahead at h
    split at h
    next hle =>
      rw [Fin.le_def] at hle
      exact Fin.ext (by omega)
    next => omega
  · rintro rfl
    exact ahead_self i

/-- One turn later, the index just served is last, and every other one turn
nearer. -/
theorem ahead_roundNext (i j : Fin n) :
    ahead (roundNext i) j = if i = j then n - 1 else ahead i j - 1 := by
  have hi := i.isLt
  have hj := j.isLt
  have hval : (roundNext i).val = if i.val + 1 = n then 0 else i.val + 1 := by
    show (i.val + 1) % n = _
    split
    next h => rw [h, Nat.mod_self]
    next h => exact Nat.mod_eq_of_lt (by omega)
  unfold ahead
  simp only [Fin.le_def, Fin.ext_iff, hval]
  split_ifs <;> omega

/-- How often index `i` had its turn in the first `t` turns from index 0 on. -/
def visits (n t i : ℕ) : ℕ := if i < t % n then t / n + 1 else t / n

@[simp] theorem visits_zero (n i : ℕ) : visits n 0 i = 0 := by simp [visits]

/-- The turns before that of the index served next. -/
theorem visits_self (n t : ℕ) : visits n t (t % n) = t / n := if_neg (Nat.lt_irrefl _)

/-- One turn counts for one index. -/
theorem visits_succ {n i : ℕ} (hi : i < n) (t : ℕ) :
    visits n (t + 1) i = if i = t % n then visits n t i + 1 else visits n t i := by
  have hlt := Nat.mod_lt t (Nat.zero_lt_of_lt hi)
  have hsum := Nat.div_add_mod t n
  rcases Nat.lt_or_ge (t % n + 1) n with hin | hlast
  · -- within a round
    have hmod : (t + 1) % n = t % n + 1 := by
      rw [← Nat.mod_add_mod, Nat.mod_eq_of_lt hin]
    have hdiv : (t + 1) / n = t / n := by
      rw [← hsum, Nat.add_assoc, Nat.mul_add_div (by omega), Nat.div_eq_of_lt hin, hsum,
        Nat.add_zero]
    unfold visits
    rw [hmod, hdiv]
    split_ifs <;> omega
  · -- the last turn of a round
    have hone : t % n + 1 = n := by omega
    have hmod : (t + 1) % n = 0 := by
      rw [← Nat.mod_add_mod, hone, Nat.mod_self]
    have hdiv : (t + 1) / n = t / n + 1 := by
      rw [← hsum, Nat.add_assoc, hone, Nat.mul_add_div (by omega), Nat.div_self (by omega), hsum]
    unfold visits
    rw [hmod, hdiv]
    split_ifs <;> omega

/-- The last turn an index had. -/
theorem visits_last {n t i : ℕ} (hi : i < n) (hpos : 0 < visits n t i) :
    (visits n t i - 1) * n + i < t := by
  have hsum := Nat.div_add_mod t n
  rw [Nat.mul_comm] at hsum
  unfold visits at hpos ⊢
  split
  next hlt =>
    rw [Nat.add_sub_cancel]
    omega
  next hge =>
    rw [if_neg hge] at hpos
    obtain ⟨r, hr⟩ : ∃ r, t / n = r + 1 := ⟨t / n - 1, by omega⟩
    rw [hr] at hsum ⊢
    rw [Nat.add_mul, Nat.one_mul] at hsum
    rw [Nat.add_sub_cancel]
    omega

theorem visits_of {n r j i : ℕ} (hj : j < n) :
    visits n (r * n + j) i = if i < j then r + 1 else r := by
  have hmod : (r * n + j) % n = j := by
    rw [Nat.mul_comm, Nat.mul_add_mod, Nat.mod_eq_of_lt hj]
  have hdiv : (r * n + j) / n = r := by
    rw [Nat.mul_comm, Nat.mul_add_div (by omega), Nat.div_eq_of_lt hj, Nat.add_zero]
  unfold visits
  rw [hmod, hdiv]

/-! ## §3. Filling and draining in turn.

Index `i` fills the loads in turn, by up to `b` each, and index `o` drains them in
turn, down to `c` or less.  A fill is always followed by a drain, a drain need not
follow a fill: `o` never falls behind, so between two drains of a load there is at
most one fill of it. -/

/-- Every load that `i` comes to before `o`, or with it, has room for a fill. -/
def Balanced (b c : ℕ) (i o : Fin n) (load : Fin n → ℕ) : Prop :=
  ∀ j, load j + (if ahead i j ≤ ahead o j then b else 0) ≤ c + b

/-- Every load that `i` comes to before `o` has room for a fill, when `o` has one
turn more to go than `i`. -/
def Owed (b c : ℕ) (i o : Fin n) (load : Fin n → ℕ) : Prop :=
  ∀ j, load j + (if ahead i j < ahead o j then b else 0) ≤ c + b

section InTurn

variable {b c : ℕ} {i o : Fin n} {load load' : Fin n → ℕ}

theorem balanced_zero (b c : ℕ) (i o : Fin n) : Balanced b c i o fun _ => 0 := by
  intro j
  show 0 + _ ≤ c + b
  split <;> omega

theorem Owed.le (h : Owed b c i o load) (j : Fin n) : load j ≤ c + b :=
  (Nat.le_add_right _ _).trans (h j)

/-- `i` may miss its turn. -/
theorem Balanced.owed (h : Balanced b c i o load) : Owed b c i o load := by
  intro j
  have hj := h j
  by_cases hlt : ahead i j < ahead o j
  · rw [if_pos hlt.le] at hj
    rw [if_pos hlt]
    exact hj
  · rw [if_neg hlt]
    omega

/-- **A fill.** -/
theorem Balanced.fill (h : Balanced b c i o load) (hi : load' i ≤ load i + b)
    (hne : ∀ j, j ≠ i → load' j ≤ load j) : Owed b c (roundNext i) o load' := by
  intro j
  have hj := h j
  have hnext := ahead_roundNext i j
  have hlt := ahead_lt o j
  by_cases heq : i = j
  · -- the load just filled is the farthest from `i`, so nothing is owed to it
    subst heq
    rw [ahead_self, if_pos (Nat.zero_le _)] at hj
    rw [hnext, if_pos rfl, if_neg (by omega)]
    omega
  · have hle := hne j (Ne.symm heq)
    have hpos : ahead i j ≠ 0 := fun h0 => heq (ahead_eq_zero_iff.mp h0)
    rw [hnext, if_neg heq]
    by_cases hahead : ahead i j ≤ ahead o j
    · rw [if_pos hahead] at hj
      rw [if_pos (by omega)]
      omega
    · rw [if_neg (by omega)]
      omega

/-- **A drain.** -/
theorem Owed.drain (h : Owed b c i o load) (ho : load' o ≤ c)
    (hle : ∀ j, load' j ≤ load j) : Balanced b c i (roundNext o) load' := by
  intro j
  have hj := h j
  have hnext := ahead_roundNext o j
  by_cases heq : o = j
  · subst heq
    split <;> omega
  · have hlej := hle j
    have hpos : ahead o j ≠ 0 := fun h0 => heq (ahead_eq_zero_iff.mp h0)
    rw [hnext, if_neg heq]
    by_cases hahead : ahead i j < ahead o j
    · rw [if_pos hahead] at hj
      rw [if_pos (by omega)]
      omega
    · rw [if_neg (by omega)]
      omega

end InTurn

/-! ## §4. Updates of one member of a family. -/

/-- Updating one member of a family changes a total by that member. -/
theorem sum_update {α : Type*} (g : α → ℕ) (f : Fin n → α) (i : Fin n) (x : α) :
    (∑ j, g (Function.update f i x j)) + g (f i) = (∑ j, g (f j)) + g x := by
  rw [← Finset.add_sum_erase _ _ (Finset.mem_univ i),
    ← Finset.add_sum_erase _ (fun j => g (f j)) (Finset.mem_univ i), Function.update_self]
  have hrest : ∑ j ∈ Finset.univ.erase i, g (Function.update f i x j)
      = ∑ j ∈ Finset.univ.erase i, g (f j) := by
    apply Finset.sum_congr rfl
    intro j hj
    rw [Function.update_of_ne (Finset.ne_of_mem_erase hj)]
  rw [hrest]
  ring

/-- Appending to one member adds what is appended, in every additive measure. -/
theorem sum_update_append {α : Type*} (g : List α → ℕ)
    (hg : ∀ xs ys, g (xs ++ ys) = g xs + g ys) (f : Fin n → List α) (i : Fin n) (xs : List α) :
    ∑ j, g (Function.update f i (f i ++ xs) j) = ∑ j, g (f j) + g xs := by
  have hsum := sum_update g f i (f i ++ xs)
  rw [hg] at hsum
  omega

/-- A bound on every member survives an update within the bound. -/
theorem update_le {α : Type*} (g : α → ℕ) {f : Fin n → α} {c : ℕ} (h : ∀ j, g (f j) ≤ c)
    {i : Fin n} {x : α} (hx : g x ≤ c) : ∀ j, g (Function.update f i x j) ≤ c :=
  (Function.forall_update_iff f fun _ y => g y ≤ c).mpr ⟨hx, fun j _ => h j⟩

end Meili.Lib
