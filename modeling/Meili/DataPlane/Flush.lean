/-
  Meili.DataPlane.Flush — what `pipeline_post_search` leaves on the tail rings.

  The loop takes up to `batch_size` packets from one tail ring after the other and ends with
  the first ring it takes nothing from.  With the workers at rest this depends on the rings
  alone: visit `t` of the rotation is visit `t / n` of ring `t % n`, which takes nothing if
  the visits before it have taken all there was.

    • `flush_ends` — the loop ends, at the first such visit, with the visits before it taken
      off every ring;
    • `flushes_iff` — all rings are empty then if and only if the rings need equally many
      visits, but for a first few rings that need one more.
-/
import Meili.DataPlane.Shutdown

namespace Meili.DataPlane

open Meili.Lib

variable {W : ℕ}

/-! ## §1. The loop. -/

/-- One pass of the loop, with no worker adding anything: `rte_ring_dequeue_burst` takes as
much as there is and fits the batch. -/
def flushStep (cfg : Config) (x : System W) : Option (System W) :=
  match x.phase with
  | .flush i => some (x.poll i (min cfg.batchSizeIn (x.st.tail i).length))
  | _ => none

/-- `pipeline_post_search`, called with the system `x`, returns with all tail rings empty,
and has taken every packet out once. -/
def Flushes (cfg : Config) (x : System W) : Prop :=
  ∃ y, Reaches (flushStep cfg) x y ∧ y.phase = .wait ∧ (∀ i, y.st.tail i = [])
    ∧ ∀ i, y.st.collected i = x.st.collected i ++ x.st.tail i

/-- A pass of the loop is a step of the whole system, for rings that hand out all they
can. -/
theorem flushStep_systemStep {capacity : ℕ} {cfg : Config} (hring : cfg.ring = atomicMin capacity)
    {x y : System W} (h : flushStep cfg x = some y) (maxDuration : ℕ) :
    SystemStep cfg maxDuration x y := by
  unfold flushStep at h
  split at h
  next i hphase =>
    rw [← Option.some.inj h]
    refine .poll x i _ hphase ?_
    rw [hring]
    rfl
  next => exact absurd h (by simp)

/-- A ring of `len` packets is emptied by `v` visits that take `b` packets each, and by no
fewer. -/
def Bursts (b len v : ℕ) : Prop := len ≤ v * b ∧ (v = 0 ∨ (v - 1) * b < len)

instance (b len v : ℕ) : Decidable (Bursts b len v) :=
  inferInstanceAs (Decidable (len ≤ v * b ∧ (v = 0 ∨ (v - 1) * b < len)))

/-! ## §2. Visit by visit. -/

section Visits

variable {cfg : Config} {x y : System W} {t : ℕ}

/-- Visit `t` takes nothing. -/
def Stops (cfg : Config) (x : System W) (t : ℕ) : Prop :=
  ∀ i : Fin W, i.val = t % W → cfg.batchSizeIn = 0 ∨ (x.st.tail i).length ≤ t / W * cfg.batchSizeIn

/-- `y` is the system after `t` visits, the next of which is to come. -/
structure Visited (cfg : Config) (x : System W) (t : ℕ) (y : System W) : Prop where
  phase : ∃ i, y.phase = .flush i ∧ i.val = t % W
  tail : ∀ i, y.st.tail i = (x.st.tail i).drop (visits W t i * cfg.batchSizeIn)
  collected : ∀ i, y.st.collected i
    = x.st.collected i ++ (x.st.tail i).take (visits W t i * cfg.batchSizeIn)

theorem Visited.length (h : Visited cfg x t y) {i : Fin W} (hi : i.val = t % W) :
    (y.st.tail i).length = (x.st.tail i).length - t / W * cfg.batchSizeIn := by
  rw [h.tail, List.length_drop, hi, visits_self]

/-- What a visit to ring `i` does to the rings: with a limit of `b` it takes the first `b`. -/
theorem poll_rings (y : System W) (i : Fin W) (b : ℕ) :
    (y.poll i (min b (y.st.tail i).length)).st.tail
        = Function.update y.st.tail i ((y.st.tail i).drop b)
      ∧ (y.poll i (min b (y.st.tail i).length)).st.collected
        = Function.update y.st.collected i (y.st.collected i ++ (y.st.tail i).take b) := by
  rw [List.drop_eq_drop_min, List.take_eq_take_min]
  exact ⟨rfl, rfl⟩

/-- The rings after one more visit. -/
theorem Visited.poll (h : Visited cfg x t y) {i : Fin W} (hi : i.val = t % W) (i' : Fin W) :
    (y.poll i (min cfg.batchSizeIn (y.st.tail i).length)).st.tail i'
        = (x.st.tail i').drop (visits W (t + 1) i' * cfg.batchSizeIn)
      ∧ (y.poll i (min cfg.batchSizeIn (y.st.tail i).length)).st.collected i'
        = x.st.collected i' ++ (x.st.tail i').take (visits W (t + 1) i' * cfg.batchSizeIn) := by
  obtain ⟨htail, hcollected⟩ := poll_rings y i cfg.batchSizeIn
  rw [htail, hcollected, visits_succ i'.isLt]
  by_cases hii : i' = i
  · -- the ring that is visited
    rw [hii, if_pos hi, Function.update_self, Function.update_self, h.tail, h.collected,
      Nat.add_mul, Nat.one_mul, List.drop_drop, List.append_assoc, ← List.take_add]
    exact ⟨rfl, rfl⟩
  · have hne : i'.val ≠ t % W := fun heq => hii (Fin.ext (heq.trans hi.symm))
    rw [if_neg hne, Function.update_of_ne hii, Function.update_of_ne hii]
    exact ⟨h.tail i', h.collected i'⟩

theorem Visited.step (h : Visited cfg x t y) :
    ∃ i, i.val = t % W
      ∧ flushStep cfg y = some (y.poll i (min cfg.batchSizeIn (y.st.tail i).length)) := by
  obtain ⟨i, hphase, hi⟩ := h.phase
  refine ⟨i, hi, ?_⟩
  unfold flushStep
  rw [hphase]

/-- **A visit that takes something** goes on to the next ring. -/
theorem Visited.next (h : Visited cfg x t y) (hgo : ¬ Stops cfg x t) :
    ∃ z, flushStep cfg y = some z ∧ Visited cfg x (t + 1) z := by
  obtain ⟨i, hi, hstep⟩ := h.step
  have hlen := h.length hi
  have hk : min cfg.batchSizeIn (y.st.tail i).length ≠ 0 := by
    intro hzero
    apply hgo
    intro i' hi'
    obtain rfl : i' = i := Fin.ext (hi'.trans hi.symm)
    omega
  refine ⟨_, hstep, ⟨roundNext i, if_neg hk, ?_⟩, fun i' => (h.poll hi i').1,
    fun i' => (h.poll hi i').2⟩
  show (i.val + 1) % W = (t + 1) % W
  rw [hi, Nat.mod_add_mod]

/-- **A visit that takes nothing** ends the loop and leaves the rings as they are. -/
theorem Visited.stop (h : Visited cfg x t y) (hstop : Stops cfg x t) :
    ∃ z, flushStep cfg y = some z ∧ z.phase = .wait ∧ z.st.tail = y.st.tail
      ∧ z.st.collected = y.st.collected := by
  obtain ⟨i, hi, hstep⟩ := h.step
  have hlen := h.length hi
  have hk : min cfg.batchSizeIn (y.st.tail i).length = 0 := by
    rcases hstop i hi with hzero | hle
    · omega
    · omega
  refine ⟨_, hstep, if_pos hk, ?_, ?_⟩
  · show Function.update y.st.tail i _ = _
    rw [hk, List.drop_zero, Function.update_eq_self]
  · show Function.update y.st.collected i _ = _
    rw [hk, List.take_zero, List.append_nil, Function.update_eq_self]

/-- The visits before the first that takes nothing. -/
theorem visited_of_go (hphase : ∃ i, x.phase = .flush i ∧ i.val = 0) (t : ℕ)
    (hgo : ∀ t', t' < t → ¬ Stops cfg x t') :
    ∃ y, Reaches (flushStep cfg) x y ∧ Visited cfg x t y := by
  induction t with
  | zero =>
      refine ⟨x, Reaches.refl x, ?_, fun i => ?_, fun i => ?_⟩
      · obtain ⟨i, hi, h0⟩ := hphase
        exact ⟨i, hi, h0.trans (Nat.zero_mod W).symm⟩
      · rw [visits_zero, Nat.zero_mul, List.drop_zero]
      · rw [visits_zero, Nat.zero_mul, List.take_zero, List.append_nil]
  | succ t ih =>
      obtain ⟨y, hy, hvisited⟩ := ih fun t' ht' => hgo t' (Nat.lt_succ_of_lt ht')
      obtain ⟨z, hstep, hz⟩ := hvisited.next (hgo t (Nat.lt_succ_self t))
      exact ⟨z, hy.tail hstep, hz⟩

/-- **The loop ends**, at the first visit that takes nothing. -/
theorem flush_ends (hphase : ∃ i, x.phase = .flush i ∧ i.val = 0) :
    ∃ t z, Stops cfg x t ∧ (∀ t', t' < t → ¬ Stops cfg x t') ∧ Reaches (flushStep cfg) x z
      ∧ z.phase = .wait
      ∧ (∀ i, z.st.tail i = (x.st.tail i).drop (visits W t i * cfg.batchSizeIn))
      ∧ ∀ i, z.st.collected i
          = x.st.collected i ++ (x.st.tail i).take (visits W t i * cfg.batchSizeIn) := by
  -- a ring is empty after as many visits as it has packets
  have hex : ∃ t, Stops cfg x t := by
    obtain ⟨i, -, hi⟩ := hphase
    refine ⟨(x.st.tail i).length * W, fun i' hi' => ?_⟩
    rw [Nat.mul_mod_left] at hi'
    obtain rfl : i' = i := Fin.ext (hi'.trans hi.symm)
    rw [Nat.mul_div_cancel _ i'.pos]
    rcases Nat.eq_zero_or_pos cfg.batchSizeIn with hzero | hpos
    · exact Or.inl hzero
    · exact Or.inr (Nat.le_mul_of_pos_right _ hpos)
  classical
  have hfirst : ∀ t', t' < Nat.find hex → ¬ Stops cfg x t' := fun t' ht' => Nat.find_min hex ht'
  obtain ⟨y, hy, hvisited⟩ := visited_of_go hphase (Nat.find hex) hfirst
  obtain ⟨z, hstep, hwait, htail, hcollected⟩ := hvisited.stop (Nat.find_spec hex)
  refine ⟨Nat.find hex, z, Nat.find_spec hex, hfirst, hy.tail hstep, hwait, ?_, ?_⟩
  · rw [htail]
    exact hvisited.tail
  · rw [hcollected]
    exact hvisited.collected

end Visits

/-! ## §3. Every content of the rings. -/

section Contents

variable {cfg : Config} {x : System W}

/-- The loop leaves all rings empty if and only if the visits were enough for each. -/
theorem flushes_iff_le (hphase : ∃ i, x.phase = .flush i ∧ i.val = 0) {t : ℕ}
    (hstop : Stops cfg x t) (hgo : ∀ t', t' < t → ¬ Stops cfg x t') :
    Flushes cfg x ↔ ∀ i : Fin W, (x.st.tail i).length ≤ visits W t i * cfg.batchSizeIn := by
  obtain ⟨y, hy, hvisited⟩ := visited_of_go hphase t hgo
  obtain ⟨z, hstep, hwait, htail, hcollected⟩ := hvisited.stop hstop
  have hz : Reaches (flushStep cfg) x z := hy.tail hstep
  have hhalt : ∀ z' : System W, z'.phase = .wait → flushStep cfg z' = none := by
    intro z' hz'
    unfold flushStep
    rw [hz']
  constructor
  · rintro ⟨z', hz', hwait', hempty, -⟩ i
    -- the loop ends in one state only
    obtain rfl : z' = z :=
      Reaches.eq_of_halted (hhalt z hwait) (Reaches.of_halted (hhalt z' hwait') hz' hz)
    have hnil := hempty i
    rw [htail, hvisited.tail, List.drop_eq_nil_iff] at hnil
    exact hnil
  · intro hle
    refine ⟨z, hz, hwait, fun i => ?_, fun i => ?_⟩
    · rw [htail, hvisited.tail, List.drop_eq_nil_iff]
      exact hle i
    · rw [hcollected, hvisited.collected, List.take_of_length_le (hle i)]

/-- Every visit before the first that takes nothing was needed. -/
theorem bursts_of_first {t : ℕ} (hgo : ∀ t', t' < t → ¬ Stops cfg x t') {i : Fin W}
    (hle : (x.st.tail i).length ≤ visits W t i * cfg.batchSizeIn) :
    Bursts cfg.batchSizeIn (x.st.tail i).length (visits W t i) := by
  refine ⟨hle, ?_⟩
  rw [or_iff_not_imp_left]
  intro hne
  have hlast := visits_last i.isLt (Nat.pos_of_ne_zero hne)
  by_contra hshort
  refine hgo _ hlast fun i' hi' => Or.inr ?_
  rw [Nat.mul_comm, Nat.mul_add_mod, Nat.mod_eq_of_lt i.isLt] at hi'
  obtain rfl : i' = i := Fin.ext hi'
  rw [Nat.mul_comm _ W, Nat.mul_add_div i'.pos, Nat.div_eq_of_lt i'.isLt, Nat.add_zero]
  exact Nat.le_of_not_lt hshort

/-- Visit `r * W + j` is the first that takes nothing, when the rings before `j` need `r + 1`
visits and the others `r`. -/
theorem first_of_bursts {r j : ℕ} (hj : j < W)
    (h : ∀ i : Fin W,
      Bursts cfg.batchSizeIn (x.st.tail i).length (if i.val < j then r + 1 else r)) :
    Stops cfg x (r * W + j) ∧ ∀ t, t < r * W + j → ¬ Stops cfg x t := by
  constructor
  · intro i hi
    rw [Nat.mul_comm, Nat.mul_add_mod, Nat.mod_eq_of_lt hj] at hi
    have hle := (h i).1
    rw [if_neg (by omega)] at hle
    rw [Nat.mul_comm r W, Nat.mul_add_div (by omega), Nat.div_eq_of_lt hj, Nat.add_zero]
    exact Or.inr hle
  · intro t ht hstop
    have hpos : 0 < W := Nat.zero_lt_of_lt hj
    have hsum := Nat.div_add_mod t W
    rw [Nat.mul_comm] at hsum
    generalize hv : (if t % W < j then r + 1 else r) = v
    have hb := h ⟨t % W, Nat.mod_lt t hpos⟩
    rw [show (⟨t % W, Nat.mod_lt t hpos⟩ : Fin W).val = t % W from rfl, hv] at hb
    -- the ring of visit `t` needs a later visit too
    have hlt : t / W < v := by
      rw [← hv]
      split
      next hin =>
        by_contra hge
        have hmul : (r + 1) * W ≤ t / W * W := Nat.mul_le_mul_right W (by omega)
        rw [Nat.add_mul] at hmul
        omega
      next hout =>
        by_contra hge
        have hmul : r * W ≤ t / W * W := Nat.mul_le_mul_right W (by omega)
        omega
    obtain ⟨hle, hmore⟩ := hb
    have hmore' := hmore.resolve_left (Nat.ne_zero_of_lt hlt)
    have hmul : t / W * cfg.batchSizeIn ≤ (v - 1) * cfg.batchSizeIn :=
      Nat.mul_le_mul_right _ (Nat.le_sub_one_of_lt hlt)
    rcases hstop ⟨t % W, Nat.mod_lt t hpos⟩ rfl with hzero | hle'
    · rw [hzero, Nat.mul_zero] at hle hmore'
      exact Nat.lt_irrefl _ (lt_of_lt_of_le hmore' hle)
    · exact Nat.lt_irrefl _ (lt_of_lt_of_le hmore' (hle'.trans hmul))

end Contents

/-- **When the shutdown flush empties every tail ring.**  For every number of last-stage
instances, every batch size and every content of the tail rings, with no worker adding any
more: `pipeline_post_search` returns with all tail rings empty and every packet taken out
once, if and only if the first rings, up to some ring `j`, need `r + 1` visits and the other
rings `r` visits each. -/
theorem flushes_iff (cfg : Config) (x : System W) (hphase : ∃ i, x.phase = .flush i ∧ i.val = 0) :
    Flushes cfg x
      ↔ ∃ r j, j < W ∧ ∀ i : Fin W,
          Bursts cfg.batchSizeIn (x.st.tail i).length (if i.val < j then r + 1 else r) := by
  constructor
  · intro hflush
    obtain ⟨t, -, hstop, hgo, -⟩ := @flush_ends _ cfg _ hphase
    have hle := (flushes_iff_le hphase hstop hgo).mp hflush
    obtain ⟨i, -, -⟩ := hphase
    exact ⟨t / W, t % W, Nat.mod_lt t i.pos, fun i => bursts_of_first hgo (hle i)⟩
  · intro h
    obtain ⟨r, j, hj, hbursts⟩ := h
    obtain ⟨hstop, hgo⟩ := first_of_bursts hj hbursts
    rw [flushes_iff_le hphase hstop hgo]
    intro i
    rw [visits_of hj]
    exact (hbursts i).1

/-- Main in the flush, with these tail rings. -/
def flushing [NeZero W] (tail : Fin W → List Mbuf) : System W :=
  { System.init W with
    st := { State.init W with tail := tail }
    running := false
    phase := .flush 0 }

/-- Batches of two packets. -/
def pairs : Config where
  batchSizeIn := 2
  burstSize := 2
  ring := atomicMin (ringSize - 1)

/-- Two visits to ring 0 and one to ring 1 are enough. -/
theorem unevenRings_flushed : Flushes pairs (flushing ![[1, 2, 3], [4, 5]]) :=
  (flushes_iff pairs _ ⟨0, rfl, rfl⟩).mpr ⟨1, 1, by decide, by decide⟩

/-- Ring 0 is empty, and what is on ring 1 stays there. -/
theorem emptyFirst_not_flushed : ¬ Flushes pairs (flushing ![[], [1]]) := by
  intro h
  have hstop : Stops pairs (flushing ![[], [1]]) 0 := by
    intro i hi
    obtain rfl : i = 0 := Fin.ext hi
    exact Or.inr (le_refl 0)
  have hle := (flushes_iff_le ⟨0, rfl, rfl⟩ hstop fun t ht => absurd ht (Nat.not_lt_zero t)).mp h 1
  revert hle
  decide

end Meili.DataPlane
