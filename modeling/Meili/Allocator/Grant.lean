/-
  Meili.Allocator.Grant — what one `allocate_one_snic` call does, said once.

  For one-hot demands and unit costs the four branches of
  `allocate_one_snic` and `allocate_on_bw` all come down to one abstract
  operation, `grant`: move an amount of the demanded component from the snic
  and the open demand into the allocation scheme, and charge the snic the
  bandwidth that the parent stage has not already brought in.

    • `offer`     — the amount: demand and supply, cut to whole units of
                    bandwidth when the bandwidth binds;
    • `HasRoom`   — the bandwidth carries at least one unit, or does not bind;
    • `allocateOneSnic_eq` — the code is `grant` of `offer` when there is
                    room, and leaves the state alone and raises otherwise;
    • `Sane.grant` — the state invariant survives.
-/
import Meili.Allocator.Model

namespace Meili.Allocator

/-! ## §1. One-hot vectors. -/

/-- The vector with `x` at component `c` and 0 elsewhere. -/
def unitVec (c : Fin 3) (x : ℚ) : Vec := Pi.single c x

@[simp] theorem unitVec_self (c : Fin 3) (x : ℚ) : unitVec c x c = x := by
  simp [unitVec]

@[simp] theorem unitVec_of_ne {c i : Fin 3} (h : i ≠ c) (x : ℚ) : unitVec c x i = 0 := by
  simp [unitVec, h]

theorem eq_unitVec {v : Vec} {c : Fin 3} (h : ∀ i, i ≠ c → v i = 0) :
    v = unitVec c (v c) := by
  funext i
  by_cases hi : i = c
  · rw [hi, unitVec_self]
  · rw [h i hi, unitVec_of_ne hi]

theorem calculateRequiredBw_oneHot (r : Vec) {w : Vec} {c : Fin 3}
    (hw : ∀ i, i ≠ c → w i = 0) : calculateRequiredBw r w = max 0 (r c * w c) := by
  rw [eq_unitVec hw]
  -- two of the three products are 0
  fin_cases c <;> simp [calculateRequiredBw, List.finRange_succ, unitVec]

theorem resourceDivide_oneHot {a : ℚ} {w : Vec} {c : Fin 3} (ha : 0 ≤ a) (hc : 0 < w c)
    (hw : ∀ i, i ≠ c → w i = 0) :
    resourceDivide a w = unitVec c (⌊a / w c⌋ : ℤ) := by
  funext i
  by_cases hi : i = c
  · have hdiv : 0 ≤ a / w c := div_nonneg ha hc.le
    rw [hi, unitVec_self]
    simp [resourceDivide, hc.ne', pyInt, hdiv]
  · rw [unitVec_of_ne hi]
    simp [resourceDivide, hw i hi]

theorem resourceMultiply_unitVec (c : Fin 3) (x : ℚ) (w : Vec) :
    resourceMultiply (unitVec c x) w = unitVec c (x * w c) := by
  funext i
  by_cases hi : i = c
  · rw [hi]
    simp [resourceMultiply]
  · simp [resourceMultiply, hi]

theorem resourceGetOneHot_unitVec (c : Fin 3) (x : ℚ) :
    resourceGetOneHot (unitVec c x) = if x = 0 then none else some x := by
  by_cases hx : x = 0
  · fin_cases c <;> simp [resourceGetOneHot, List.finRange_succ, unitVec, hx]
  · fin_cases c <;> simp [resourceGetOneHot, List.finRange_succ, unitVec, hx]

/-! ## §2. The state invariant. -/

/-- Unit costs are one-hot on the component `hot s`, and positive there. -/
structure UnitCost {m : ℕ} (hot : Fin m → Fin 3) (W : Fin m → Vec) : Prop where
  pos : ∀ s, 0 < W s (hot s)
  off : ∀ s i, i ≠ hot s → W s i = 0

/-- Nothing is negative, and open demands are one-hot on `hot`. -/
structure Sane {k m : ℕ} (hot : Fin m → Fin 3) (σ : Alloc k m) : Prop where
  T_nonneg : ∀ n i, 0 ≤ σ.T n i
  B_nonneg : ∀ n, 0 ≤ σ.B n
  G_nonneg : ∀ s i, 0 ≤ σ.G s i
  A_nonneg : ∀ s n i, 0 ≤ σ.A s n i
  G_off : ∀ s i, i ≠ hot s → σ.G s i = 0

section Stage

variable {k m : ℕ} {hot : Fin m → Fin 3} {W : Fin m → Vec} {σ : Alloc k m}

theorem UnitCost.nonneg (hW : UnitCost hot W) (s : Fin m) (i : Fin 3) : 0 ≤ W s i := by
  by_cases hi : i = hot s
  · rw [hi]
    exact (hW.pos s).le
  · rw [hW.off s i hi]

theorem calculateRequiredBw_eq (hW : UnitCost hot W) {r : Vec} (s : Fin m)
    (hr : 0 ≤ r (hot s)) : calculateRequiredBw r (W s) = r (hot s) * W s (hot s) := by
  rw [calculateRequiredBw_oneHot r (hW.off s)]
  exact max_eq_right (mul_nonneg hr (hW.pos s).le)

/-- The parent's sharable bandwidth is what the parent's own row requires. -/
theorem calculateSharableBw_eq (hW : UnitCost hot W) {A : Fin m → Fin k → Vec}
    (hA : ∀ s n i, 0 ≤ A s n i) (n : Fin k) (s : Fin m) (hs : s.val ≠ 0) :
    calculateSharableBw W A n s = calculateRequiredBw (A (parent s hs) n) (W (parent s hs)) := by
  have hpos : ∀ i, 0 ≤ A (parent s hs) n i * W (parent s hs) i := fun i =>
    mul_nonneg (hA _ _ _) (hW.nonneg _ _)
  simp [calculateSharableBw, hs, calculateRequiredBw, List.finRange_succ, hpos 0]

theorem calculateSharableBw_nonneg (hW : UnitCost hot W) {A : Fin m → Fin k → Vec}
    (hA : ∀ s n i, 0 ≤ A s n i) (n : Fin k) (s : Fin m) :
    0 ≤ calculateSharableBw W A n s := by
  by_cases hs : s.val = 0
  · simp [calculateSharableBw, hs]
  · rw [calculateSharableBw_eq hW hA n s hs, calculateRequiredBw_eq hW _ (hA _ _ _)]
    exact mul_nonneg (hA _ _ _) (hW.pos _).le

theorem bwKey_nonneg (hW : UnitCost hot W) (hσ : Sane hot σ) (n : Fin k) (s : Fin m) :
    0 ≤ bwKey W n σ.B σ.A s :=
  add_nonneg (calculateSharableBw_nonneg hW hσ.A_nonneg n s) (hσ.B_nonneg n)

/-- A snic found for a stage has nothing booked for it yet. -/
theorem Eligible.free {s : Fin m} {n : Fin k} (hσ : Sane hot σ) (h : Eligible W σ s n)
    (i : Fin 3) : σ.A s n i = 0 :=
  le_antisymm ((resourceGeq_iff _ _).mp h.unused i) (hσ.A_nonneg s n i)

/-! ## §3. The abstract step. -/

/-- The bandwidth of snic `n` matters for stage `s`: it is the first stage,
or it requires more than the parent brings in. -/
def BwBound (W : Fin m → Vec) (σ : Alloc k m) (n : Fin k) (s : Fin m) : Prop :=
  (s.val ≠ 0 ∧ calculateRequiredBw (σ.G s) (W s) > calculateSharableBw W σ.A n s) ∨ s.val = 0

instance (W : Fin m → Vec) (σ : Alloc k m) (n : Fin k) (s : Fin m) :
    Decidable (BwBound W σ n s) :=
  inferInstanceAs (Decidable (_ ∨ _))

/-- Demand and supply of the demanded component, whichever is smaller. -/
def want (hot : Fin m → Fin 3) (σ : Alloc k m) (n : Fin k) (s : Fin m) : ℚ :=
  min (σ.G s (hot s)) (σ.T n (hot s))

/-- The bandwidth binds: the wanted amount needs more than is allocatable. -/
def Short (hot : Fin m → Fin 3) (W : Fin m → Vec) (σ : Alloc k m) (n : Fin k) (s : Fin m) :
    Prop :=
  BwBound W σ n s ∧ bwKey W n σ.B σ.A s < want hot σ n s * W s (hot s)

instance (hot : Fin m → Fin 3) (W : Fin m → Vec) (σ : Alloc k m) (n : Fin k) (s : Fin m) :
    Decidable (Short hot W σ n s) :=
  inferInstanceAs (Decidable (_ ∧ _))

/-- The amount snic `n` gives to stage `s`. -/
def offer (hot : Fin m → Fin 3) (W : Fin m → Vec) (σ : Alloc k m) (n : Fin k) (s : Fin m) : ℚ :=
  if Short hot W σ n s then (⌊bwKey W n σ.B σ.A s / W s (hot s)⌋ : ℤ) else want hot σ n s

/-- The bandwidth does not bind, or carries at least one unit. -/
def HasRoom (hot : Fin m → Fin 3) (W : Fin m → Vec) (σ : Alloc k m) (n : Fin k) (s : Fin m) :
    Prop :=
  Short hot W σ n s → W s (hot s) ≤ bwKey W n σ.B σ.A s

instance (hot : Fin m → Fin 3) (W : Fin m → Vec) (σ : Alloc k m) (n : Fin k) (s : Fin m) :
    Decidable (HasRoom hot W σ n s) :=
  inferInstanceAs (Decidable (_ → _))

/-- Book the vector `r` of snic `n` for stage `s`. -/
def move (σ : Alloc k m) (n : Fin k) (s : Fin m) (r : Vec) : Alloc k m :=
  ((σ.addA s n r).minusG s r).minusT n r

/-- **The abstract allocation step**: book `x` units of the demanded
component, and charge what they need beyond the parent's bandwidth. -/
def grant (hot : Fin m → Fin 3) (W : Fin m → Vec) (σ : Alloc k m) (n : Fin k) (s : Fin m)
    (x : ℚ) : Alloc k m :=
  (move σ n s (unitVec (hot s) x)).setB n
    (σ.B n - max 0 (x * W s (hot s) - calculateSharableBw W σ.A n s))

theorem want_nonneg (hσ : Sane hot σ) (n : Fin k) (s : Fin m) : 0 ≤ want hot σ n s :=
  le_min (hσ.G_nonneg s _) (hσ.T_nonneg n _)

theorem offer_nonneg (hW : UnitCost hot W) (hσ : Sane hot σ) (n : Fin k) (s : Fin m) :
    0 ≤ offer hot W σ n s := by
  unfold offer
  split
  · have hdiv := div_nonneg (bwKey_nonneg hW hσ n s) (hW.pos s).le
    exact_mod_cast Int.floor_nonneg.mpr hdiv
  · exact want_nonneg hσ n s

/-- Whole units that fit into the allocatable bandwidth stay within it. -/
theorem floor_mul_le (a : ℚ) {w : ℚ} (hw : 0 < w) : ((⌊a / w⌋ : ℤ) : ℚ) * w ≤ a := by
  have hfl : ((⌊a / w⌋ : ℤ) : ℚ) ≤ a / w := Int.floor_le _
  calc ((⌊a / w⌋ : ℤ) : ℚ) * w ≤ a / w * w := mul_le_mul_of_nonneg_right hfl hw.le
    _ = a := div_mul_cancel₀ a hw.ne'

/-- **The floor argument**: `⌊B_allocable / W⌋` stays below demand and supply. -/
theorem offer_le_want (hW : UnitCost hot W) (σ : Alloc k m) (n : Fin k) (s : Fin m) :
    offer hot W σ n s ≤ want hot σ n s := by
  unfold offer
  split
  next hshort =>
    -- the units booked need less bandwidth than the wanted amount
    have hmul := floor_mul_le (bwKey W n σ.B σ.A s) (hW.pos s)
    have hlt := lt_of_le_of_lt hmul hshort.2
    exact (lt_of_mul_lt_mul_right hlt (hW.pos s).le).le
  next => exact le_refl _

theorem offer_le_demand (hW : UnitCost hot W) (σ : Alloc k m) (n : Fin k) (s : Fin m) :
    offer hot W σ n s ≤ σ.G s (hot s) :=
  (offer_le_want hW σ n s).trans (min_le_left _ _)

theorem offer_le_supply (hW : UnitCost hot W) (σ : Alloc k m) (n : Fin k) (s : Fin m) :
    offer hot W σ n s ≤ σ.T n (hot s) :=
  (offer_le_want hW σ n s).trans (min_le_right _ _)

/-- A stage that is not bandwidth-bound needs no more than its parent brings. -/
theorem demand_le_sharable (hW : UnitCost hot W) (hσ : Sane hot σ) {n : Fin k} {s : Fin m}
    (h : ¬ BwBound W σ n s) :
    σ.G s (hot s) * W s (hot s) ≤ calculateSharableBw W σ.A n s := by
  rw [← calculateRequiredBw_eq hW s (hσ.G_nonneg s _)]
  unfold BwBound at h
  push Not at h
  exact h.1 h.2

/-- What is booked never needs more than the allocatable bandwidth. -/
theorem offer_mul_le (hW : UnitCost hot W) (hσ : Sane hot σ) (n : Fin k) (s : Fin m) :
    offer hot W σ n s * W s (hot s) ≤ bwKey W n σ.B σ.A s := by
  by_cases hshort : Short hot W σ n s
  · rw [offer, if_pos hshort]
    exact floor_mul_le _ (hW.pos s)
  · by_cases hb : BwBound W σ n s
    · rw [offer, if_neg hshort]
      by_contra hlt
      exact hshort ⟨hb, not_le.mp hlt⟩
    · -- not bound by bandwidth: the parent alone brings enough
      have hle := mul_le_mul_of_nonneg_right (offer_le_demand hW σ n s) (hW.pos s).le
      have hsh := demand_le_sharable hW hσ hb
      have hB := hσ.B_nonneg n
      show _ ≤ calculateSharableBw W σ.A n s + σ.B n
      linarith

/-- With room, and demand and supply left, the amount is positive. -/
theorem offer_pos (hW : UnitCost hot W) {n : Fin k} {s : Fin m} (hroom : HasRoom hot W σ n s)
    (hG : 0 < σ.G s (hot s)) (hT : 0 < σ.T n (hot s)) : 0 < offer hot W σ n s := by
  unfold offer
  split
  next hshort =>
    have hone : 1 ≤ bwKey W n σ.B σ.A s / W s (hot s) := by
      rw [le_div_iff₀ (hW.pos s), one_mul]
      exact hroom hshort
    have hfl : (1 : ℤ) ≤ ⌊bwKey W n σ.B σ.A s / W s (hot s)⌋ := by
      rw [Int.le_floor]
      exact_mod_cast hone
    exact_mod_cast hfl
  next => exact lt_min hG hT

/-- Without supply of the demanded component nothing is booked. -/
theorem offer_eq_zero (hW : UnitCost hot W) (hσ : Sane hot σ) {n : Fin k} {s : Fin m}
    (hT : σ.T n (hot s) = 0) : offer hot W σ n s = 0 := by
  have hle := offer_le_supply hW σ n s
  rw [hT] at hle
  exact le_antisymm hle (offer_nonneg hW hσ n s)

/-- Without supply of the demanded component the bandwidth cannot bind. -/
theorem hasRoom_of_no_supply (hW : UnitCost hot W) (hσ : Sane hot σ) {n : Fin k} {s : Fin m}
    (hT : σ.T n (hot s) = 0) : HasRoom hot W σ n s := by
  intro hshort
  have hwant : want hot σ n s = 0 := by
    unfold want
    rw [hT]
    exact min_eq_right (hσ.G_nonneg s _)
  have hlt := hshort.2
  rw [hwant, zero_mul] at hlt
  exact absurd (bwKey_nonneg hW hσ n s) (not_le.mpr hlt)

/-! ## §4. The code is the abstract step. -/

/-- The order in which the three lists are updated does not matter. -/
theorem move_eq (σ : Alloc k m) (n : Fin k) (s : Fin m) (r : Vec) :
    ((σ.addA s n r).minusT n r).minusG s r = move σ n s r := rfl

/-- Off the demanded component there is nothing to compare. -/
theorem resourceGeq_supply (hσ : Sane hot σ) (n : Fin k) (s : Fin m) :
    resourceGeq (σ.T n) (σ.G s) = decide (σ.G s (hot s) ≤ σ.T n (hot s)) := by
  rw [Bool.eq_iff_iff, resourceGeq_iff, decide_eq_true_eq]
  constructor
  · intro h
    exact h (hot s)
  · intro h i
    by_cases hi : i = hot s
    · rw [hi]
      exact h
    · rw [hσ.G_off s i hi]
      exact hσ.T_nonneg n i

theorem resourceMin_oneHot (hσ : Sane hot σ) (n : Fin k) (s : Fin m) :
    resourceMin (σ.G s) (σ.T n) = unitVec (hot s) (want hot σ n s) := by
  apply eq_unitVec
  intro i hi
  show min (σ.G s i) (σ.T n i) = 0
  rw [hσ.G_off s i hi]
  exact min_eq_left (hσ.T_nonneg n i)

theorem allocateOnBw_eq (hW : UnitCost hot W) (σ : Alloc k m) {a : ℚ} (ha : 0 ≤ a)
    (n : Fin k) (s : Fin m) :
    allocateOnBw W σ a n s
      = (move σ n s (unitVec (hot s) (⌊a / W s (hot s)⌋ : ℤ)),
         if ((⌊a / W s (hot s)⌋ : ℤ) : ℚ) * W s (hot s) = 0 then none
         else some (((⌊a / W s (hot s)⌋ : ℤ) : ℚ) * W s (hot s))) := by
  unfold allocateOnBw
  rw [resourceDivide_oneHot ha (hW.pos s) (hW.off s)]
  simp only [resourceMultiply_unitVec, resourceGetOneHot_unitVec, move_eq]

/-- The bandwidth-bound branch: book the offer, and report its bandwidth
unless the bandwidth carries no unit at all. -/
theorem allocateOneSnic_bound (hW : UnitCost hot W) (hσ : Sane hot σ) {n : Fin k} {s : Fin m}
    (hb : BwBound W σ n s) :
    allocateOneSnic W σ n s =
      let x := offer hot W σ n s
      let σ' := move σ n s (unitVec (hot s) x)
      if Short hot W σ n s ∧ x * W s (hot s) = 0 then (σ', some .typeError)
      else (σ'.setB n (min (σ.B n) (bwKey W n σ.B σ.A s - x * W s (hot s))), none) := by
  have hkey := bwKey_nonneg hW hσ n s
  have hbw : calculateSharableBw W σ.A n s + σ.B n = bwKey W n σ.B σ.A s := rfl
  have hGeq := resourceGeq_supply hσ n s
  have hG : σ.G s = unitVec (hot s) (σ.G s (hot s)) := eq_unitVec (hσ.G_off s)
  unfold allocateOneSnic
  rw [if_pos (show _ ∨ _ from hb)]
  dsimp only
  rw [hbw, allocateOnBw_eq hW σ hkey n s, calculateRequiredBw_eq hW s (hσ.G_nonneg s _),
    calculateRequiredBw_eq hW s (hσ.T_nonneg n _)]
  by_cases hle : σ.G s (hot s) ≤ σ.T n (hot s)
  · -- resource enough: the wanted amount is the whole demand
    have hwant : want hot σ n s = σ.G s (hot s) := min_eq_left hle
    rw [if_neg (by rw [hGeq]; simp [hle])]
    by_cases hshort : Short hot W σ n s
    · -- the bandwidth binds: `allocate_on_bw`
      have hlt := hshort.2
      rw [hwant] at hlt
      rw [if_neg (not_le.mpr hlt), offer, if_pos hshort]
      by_cases hz : ((⌊bwKey W n σ.B σ.A s / W s (hot s)⌋ : ℤ) : ℚ) * W s (hot s) = 0
      · rw [if_pos hz, if_pos ⟨hshort, hz⟩]
      · rw [if_neg hz, if_neg fun h => hz h.2]
    · -- the bandwidth carries the whole demand
      have hge : σ.G s (hot s) * W s (hot s) ≤ bwKey W n σ.B σ.A s := by
        by_contra hlt
        exact hshort ⟨hb, by rw [hwant]; exact not_le.mp hlt⟩
      rw [if_pos hge, offer, if_neg hshort, hwant, if_neg (fun h => hshort h.1), ← hG]
      rfl
  · -- resource not enough: the wanted amount is all the snic has
    have hwant : want hot σ n s = σ.T n (hot s) := min_eq_right (not_le.mp hle).le
    rw [if_pos (by rw [hGeq]; simp [hle])]
    by_cases hshort : Short hot W σ n s
    · have hlt := hshort.2
      rw [hwant] at hlt
      rw [if_neg (not_le.mpr hlt), offer, if_pos hshort]
      by_cases hz : ((⌊bwKey W n σ.B σ.A s / W s (hot s)⌋ : ℤ) : ℚ) * W s (hot s) = 0
      · rw [if_pos hz, if_pos ⟨hshort, hz⟩]
      · rw [if_neg hz, if_neg fun h => hz h.2]
    · -- the bandwidth carries all that is left on the snic
      have hge : σ.T n (hot s) * W s (hot s) ≤ bwKey W n σ.B σ.A s := by
        by_contra hlt
        exact hshort ⟨hb, by rw [hwant]; exact not_le.mp hlt⟩
      rw [if_pos hge, offer, if_neg hshort, if_neg (fun h => hshort h.1),
        resourceMin_oneHot hσ n s, calculateRequiredBw_eq hW s (by simpa using want_nonneg hσ n s),
        unitVec_self]
      rfl

/-- The branch in which the parent already brought enough bandwidth. -/
theorem allocateOneSnic_free (hσ : Sane hot σ) {n : Fin k} {s : Fin m}
    (hb : ¬ BwBound W σ n s) :
    allocateOneSnic W σ n s = (move σ n s (unitVec (hot s) (want hot σ n s)), none) := by
  have hGeq := resourceGeq_supply hσ n s
  have hG : σ.G s = unitVec (hot s) (σ.G s (hot s)) := eq_unitVec (hσ.G_off s)
  unfold allocateOneSnic
  rw [if_neg (show ¬ (_ ∨ _) from hb)]
  by_cases hle : σ.G s (hot s) ≤ σ.T n (hot s)
  · -- the snic has enough
    have hwant : want hot σ n s = σ.G s (hot s) := min_eq_left hle
    rw [if_neg (by rw [hGeq]; simp [hle]), hwant, ← hG]
    rfl
  · rw [if_pos (by rw [hGeq]; simp [hle]), resourceMin_oneHot hσ n s]
    rfl

theorem setB_self (σ : Alloc k m) (n : Fin k) : σ.setB n (σ.B n) = σ := by
  ext <;> simp [Alloc.setB]

theorem move_zero (σ : Alloc k m) (n : Fin k) (s : Fin m) (c : Fin 3) :
    move σ n s (unitVec c 0) = σ := by
  have hz : unitVec c 0 = 0 := Pi.single_zero c
  have hadd : ∀ v : Vec, resourceAdd v 0 = v := fun v => by funext i; simp [resourceAdd]
  have hsub : ∀ v : Vec, resourceMinus v 0 = v := fun v => by funext i; simp [resourceMinus]
  rw [hz]
  ext <;> simp [move, Alloc.addA, Alloc.minusG, Alloc.minusT, hadd, hsub]

theorem grant_zero (hW : UnitCost hot W) (hσ : Sane hot σ) (n : Fin k) (s : Fin m) :
    grant hot W σ n s 0 = σ := by
  have hsh := calculateSharableBw_nonneg hW hσ.A_nonneg n s
  unfold grant
  rw [zero_mul, max_eq_left (by linarith), sub_zero, move_zero, setB_self]

/-- **`allocate_one_snic` is the abstract step**: with room it books the offer,
and without room it raises and changes nothing. -/
theorem allocateOneSnic_eq (hW : UnitCost hot W) (hσ : Sane hot σ) (n : Fin k) (s : Fin m) :
    allocateOneSnic W σ n s =
      if HasRoom hot W σ n s then (grant hot W σ n s (offer hot W σ n s), none)
      else (σ, some .typeError) := by
  have hkey := bwKey_nonneg hW hσ n s
  have hWs := hW.pos s
  by_cases hb : BwBound W σ n s
  · rw [allocateOneSnic_bound hW hσ hb]
    dsimp only
    by_cases hroom : HasRoom hot W σ n s
    · -- with room, the bandwidth reported is not `None`
      have hnz : ¬ (Short hot W σ n s ∧ offer hot W σ n s * W s (hot s) = 0) := by
        intro h
        obtain ⟨hshort, hz⟩ := h
        have hG : 0 < want hot σ n s := by
          have hlt := lt_of_le_of_lt hkey hshort.2
          exact (mul_pos_iff_of_pos_right hWs).mp hlt
        have hpos := offer_pos hW hroom (lt_of_lt_of_le hG (min_le_left _ _))
          (lt_of_lt_of_le hG (min_le_right _ _))
        exact absurd hz (mul_pos hpos hWs).ne'
      rw [if_neg hnz, if_pos hroom]
      -- the new `B[n]` of the code is the charge of `grant`
      have hmin : min (σ.B n) (bwKey W n σ.B σ.A s - offer hot W σ n s * W s (hot s))
          = σ.B n - max 0 (offer hot W σ n s * W s (hot s) - calculateSharableBw W σ.A n s) := by
        show min (σ.B n) (calculateSharableBw W σ.A n s + σ.B n - _) = _
        rcases le_total (offer hot W σ n s * W s (hot s)) (calculateSharableBw W σ.A n s) with h | h
        · rw [max_eq_left (by linarith), min_eq_left (by linarith), sub_zero]
        · rw [max_eq_right (by linarith), min_eq_right (by linarith)]
          ring
      rw [hmin]
      rfl
    · -- no room: no unit is booked, and the bandwidth reported is `None`
      have hshort : Short hot W σ n s := by
        by_contra h
        exact hroom fun h' => absurd h' h
      have hlt : bwKey W n σ.B σ.A s < W s (hot s) := not_le.mp fun h => hroom fun _ => h
      have hfl : ⌊bwKey W n σ.B σ.A s / W s (hot s)⌋ = 0 := by
        rw [Int.floor_eq_zero_iff]
        exact ⟨div_nonneg hkey hWs.le, (div_lt_one hWs).mpr hlt⟩
      have hoffer : offer hot W σ n s = 0 := by
        rw [offer, if_pos hshort, hfl]
        norm_num
      rw [hoffer, if_pos ⟨hshort, zero_mul _⟩, if_neg hroom, move_zero]
  · -- the parent brings all the bandwidth, so nothing is charged
    have hroom : HasRoom hot W σ n s := fun hshort => absurd hshort.1 hb
    have hoffer : offer hot W σ n s = want hot σ n s := if_neg fun hshort => hb hshort.1
    have hle : want hot σ n s * W s (hot s) ≤ calculateSharableBw W σ.A n s :=
      (mul_le_mul_of_nonneg_right (min_le_left _ _) hWs.le).trans (demand_le_sharable hW hσ hb)
    have hset := setB_self (move σ n s (unitVec (hot s) (want hot σ n s))) n
    rw [allocateOneSnic_free hσ hb, if_pos hroom, hoffer, grant, max_eq_left (by linarith),
      sub_zero]
    exact congrArg (·, none) hset.symm

/-! ## §5. What the abstract step changes. -/

@[simp] theorem grant_T (n : Fin k) (s : Fin m) (x : ℚ) (n' : Fin k) (i : Fin 3) :
    (grant hot W σ n s x).T n' i
      = σ.T n' i - if n' = n ∧ i = hot s then x else 0 := by
  by_cases hn : n' = n
  · subst hn
    by_cases hi : i = hot s
    · subst hi
      simp [grant, move, Alloc.setB, Alloc.minusT, Alloc.minusG, Alloc.addA, resourceMinus]
    · simp [grant, move, Alloc.setB, Alloc.minusT, Alloc.minusG, Alloc.addA, resourceMinus, hi]
  · simp [grant, move, Alloc.setB, Alloc.minusT, Alloc.minusG, Alloc.addA, hn]

@[simp] theorem grant_G (n : Fin k) (s : Fin m) (x : ℚ) (s' : Fin m) (i : Fin 3) :
    (grant hot W σ n s x).G s' i
      = σ.G s' i - if s' = s ∧ i = hot s then x else 0 := by
  by_cases hs : s' = s
  · subst hs
    by_cases hi : i = hot s'
    · subst hi
      simp [grant, move, Alloc.setB, Alloc.minusT, Alloc.minusG, Alloc.addA, resourceMinus]
    · simp [grant, move, Alloc.setB, Alloc.minusT, Alloc.minusG, Alloc.addA, resourceMinus, hi]
  · simp [grant, move, Alloc.setB, Alloc.minusT, Alloc.minusG, Alloc.addA, hs]

@[simp] theorem grant_A (n : Fin k) (s : Fin m) (x : ℚ) (s' : Fin m) (n' : Fin k) (i : Fin 3) :
    (grant hot W σ n s x).A s' n' i
      = σ.A s' n' i + if s' = s ∧ n' = n ∧ i = hot s then x else 0 := by
  by_cases hs : s' = s
  · subst hs
    by_cases hn : n' = n
    · subst hn
      by_cases hi : i = hot s'
      · subst hi
        simp [grant, move, Alloc.setB, Alloc.minusT, Alloc.minusG, Alloc.addA, resourceAdd]
      · simp [grant, move, Alloc.setB, Alloc.minusT, Alloc.minusG, Alloc.addA, resourceAdd, hi]
    · simp [grant, move, Alloc.setB, Alloc.minusT, Alloc.minusG, Alloc.addA, hn]
  · simp [grant, move, Alloc.setB, Alloc.minusT, Alloc.minusG, Alloc.addA, hs]

@[simp] theorem grant_B (n : Fin k) (s : Fin m) (x : ℚ) (n' : Fin k) :
    (grant hot W σ n s x).B n'
      = if n' = n then σ.B n - max 0 (x * W s (hot s) - calculateSharableBw W σ.A n s)
        else σ.B n' := by
  by_cases hn : n' = n
  · subst hn
    simp [grant, Alloc.setB]
  · simp [grant, move, Alloc.setB, Alloc.minusT, Alloc.minusG, Alloc.addA, hn]

/-- **The invariant survives a step**: the offer is below demand and supply,
and its bandwidth below what is allocatable. -/
theorem Sane.grant (hW : UnitCost hot W) (hσ : Sane hot σ) (n : Fin k) (s : Fin m) :
    Sane hot (grant hot W σ n s (offer hot W σ n s)) where
  T_nonneg := by
    intro n' i
    have hT := hσ.T_nonneg n' i
    rw [grant_T]
    split
    next h =>
      obtain ⟨rfl, rfl⟩ := h
      linarith [offer_le_supply hW σ n' s]
    next => linarith
  B_nonneg := by
    intro n'
    rw [grant_B]
    split
    · have hle : offer hot W σ n s * W s (hot s) ≤ calculateSharableBw W σ.A n s + σ.B n :=
        offer_mul_le hW hσ n s
      have hmax : max 0 (offer hot W σ n s * W s (hot s) - calculateSharableBw W σ.A n s)
          ≤ σ.B n := max_le (hσ.B_nonneg n) (by linarith)
      linarith
    · exact hσ.B_nonneg n'
  G_nonneg := by
    intro s' i
    have hG := hσ.G_nonneg s' i
    rw [grant_G]
    split
    next h =>
      obtain ⟨rfl, rfl⟩ := h
      linarith [offer_le_demand hW σ n s']
    next => linarith
  A_nonneg := by
    intro s' n' i
    have hA := hσ.A_nonneg s' n' i
    have hx := offer_nonneg hW hσ n s
    rw [grant_A]
    split <;> linarith
  G_off := by
    intro s' i hi
    rw [grant_G, hσ.G_off s' i hi, if_neg, sub_zero]
    intro h
    obtain ⟨rfl, rfl⟩ := h
    exact hi rfl

end Stage

end Meili.Allocator
