/-
  Meili.Lib.Bisect — binary search over places that may have nothing to compare with.

  The search knows a place only by how the key compares with the value there, or that there
  is no value.  It goes on in the `len` places from `low` on, and looks at the one in the
  middle.

    • `bisect` — the places it looks at, and the place it ends with;
    • `bisect_result` — where the values are in order up to `c` and it looks at no place
      from `c` on, it ends with the number of smaller values, cut off at the end of the range;
    • `bisect_live_iff` — when it looks at no place from `c` on.  A search that always goes
      to the right looks at `high - (high + 1) / 2 ^ k`; the first of these places that is
      not too small decides.
-/
import Mathlib.Data.Nat.Basic
import Mathlib.Tactic.Ring

namespace Meili.Lib

/-! ## §1. The search. -/

/-- The places a search looks at, and the place it ends with; `none` is a place without a
value. -/
structure Bisect where
  probes : List ℕ
  result : Option ℕ

/-- A look at `i` in front of `s`. -/
def Bisect.after (s : Bisect) (i : ℕ) : Bisect := { s with probes := i :: s.probes }

/-- The search among the `len` places from `low` on; `cmp i` compares the key with the value
at `i`. -/
def bisect (cmp : ℕ → Option Ordering) (low len : ℕ) : Bisect :=
  if len = 0 then ⟨[], some low⟩
  else
    let mid := low + (len - 1) / 2
    match cmp mid with
    | none => ⟨[mid], none⟩
    | some .eq => ⟨[mid], some mid⟩
    | some .gt => (bisect cmp (mid + 1) (len / 2)).after mid
    | some .lt => (bisect cmp low ((len - 1) / 2)).after mid
termination_by len

section Step

variable {cmp : ℕ → Option Ordering} {low len mid : ℕ}

theorem bisect_zero (cmp : ℕ → Option Ordering) (low : ℕ) :
    bisect cmp low 0 = ⟨[], some low⟩ := by
  rw [bisect, if_pos rfl]

theorem bisect_none (hlen : len ≠ 0) (hmid : mid = low + (len - 1) / 2) (h : cmp mid = none) :
    bisect cmp low len = ⟨[mid], none⟩ := by
  subst hmid
  rw [bisect, if_neg hlen]
  simp only [h]

theorem bisect_eq (hlen : len ≠ 0) (hmid : mid = low + (len - 1) / 2)
    (h : cmp mid = some .eq) : bisect cmp low len = ⟨[mid], some mid⟩ := by
  subst hmid
  rw [bisect, if_neg hlen]
  simp only [h]

theorem bisect_gt (hlen : len ≠ 0) (hmid : mid = low + (len - 1) / 2)
    (h : cmp mid = some .gt) :
    bisect cmp low len = (bisect cmp (mid + 1) (len / 2)).after mid := by
  subst hmid
  rw [bisect, if_neg hlen]
  simp only [h]

theorem bisect_lt (hlen : len ≠ 0) (hmid : mid = low + (len - 1) / 2)
    (h : cmp mid = some .lt) :
    bisect cmp low len = (bisect cmp low ((len - 1) / 2)).after mid := by
  subst hmid
  rw [bisect, if_neg hlen]
  simp only [h]

theorem Bisect.forall_probes_after {s : Bisect} {i : ℕ} {P : ℕ → Prop} :
    (∀ j ∈ (s.after i).probes, P j) ↔ P i ∧ ∀ j ∈ s.probes, P j := List.forall_mem_cons

/-- The search stays in its range. -/
theorem bisect_probes (cmp : ℕ → Option Ordering) (low len : ℕ) :
    ∀ i ∈ (bisect cmp low len).probes, low ≤ i ∧ i < low + len := by
  induction low, len using bisect.induct cmp with
  | case1 low => simp [bisect_zero]
  | case2 low len hlen mid hcmp =>
      rw [bisect_none hlen rfl hcmp]
      simp only [List.mem_singleton, forall_eq]
      omega
  | case3 low len hlen mid hcmp =>
      rw [bisect_eq hlen rfl hcmp]
      simp only [List.mem_singleton, forall_eq]
      omega
  | case4 low len hlen mid hcmp ih =>
      rw [bisect_gt hlen rfl hcmp, Bisect.forall_probes_after]
      refine ⟨by omega, fun i hi => ?_⟩
      have hrange := ih i hi
      omega
  | case5 low len hlen mid hcmp ih =>
      rw [bisect_lt hlen rfl hcmp, Bisect.forall_probes_after]
      refine ⟨by omega, fun i hi => ?_⟩
      have hrange := ih i hi
      omega

/-- The search ends behind the places it has looked at. -/
theorem bisect_result_le {c r : ℕ} (hlow : low ≤ c)
    (hlive : ∀ i ∈ (bisect cmp low len).probes, i < c)
    (hresult : (bisect cmp low len).result = some r) : r ≤ c := by
  induction low, len using bisect.induct cmp with
  | case1 low =>
      rw [bisect_zero] at hresult
      exact Option.some.inj hresult ▸ hlow
  | case2 low len hlen mid hcmp =>
      rw [bisect_none hlen rfl hcmp] at hresult
      cases hresult
  | case3 low len hlen mid hcmp =>
      rw [bisect_eq hlen rfl hcmp] at hresult hlive
      rw [← Option.some.inj hresult]
      exact (hlive mid (List.mem_singleton.mpr rfl)).le
  | case4 low len hlen mid hcmp ih =>
      rw [bisect_gt hlen rfl hcmp] at hresult hlive
      rw [Bisect.forall_probes_after] at hlive
      exact ih hlive.1 hlive.2 hresult
  | case5 low len hlen mid hcmp ih =>
      rw [bisect_lt hlen rfl hcmp] at hresult hlive
      rw [Bisect.forall_probes_after] at hlive
      exact ih hlow hlive.2 hresult

/-- A search without a result has looked at a place without a value. -/
theorem bisect_result_none (h : (bisect cmp low len).result = none) :
    ∃ i ∈ (bisect cmp low len).probes, cmp i = none := by
  induction low, len using bisect.induct cmp with
  | case1 low =>
      rw [bisect_zero] at h
      cases h
  | case2 low len hlen mid hcmp =>
      rw [bisect_none hlen rfl hcmp]
      exact ⟨mid, List.mem_singleton.mpr rfl, hcmp⟩
  | case3 low len hlen mid hcmp =>
      rw [bisect_eq hlen rfl hcmp] at h
      cases h
  | case4 low len hlen mid hcmp ih =>
      rw [bisect_gt hlen rfl hcmp] at h ⊢
      obtain ⟨i, hi, hnone⟩ := ih h
      exact ⟨i, List.mem_cons_of_mem mid hi, hnone⟩
  | case5 low len hlen mid hcmp ih =>
      rw [bisect_lt hlen rfl hcmp] at h ⊢
      obtain ⟨i, hi, hnone⟩ := ih h
      exact ⟨i, List.mem_cons_of_mem mid hi, hnone⟩

end Step

/-! ## §2. Values in order. -/

/-- The values below `c` are in order, and `t` of them are smaller than the key. -/
structure Cut (cmp : ℕ → Option Ordering) (t c : ℕ) : Prop where
  le : t ≤ c
  small : ∀ i, i < t → cmp i = some .gt
  large : ∀ i, t < i → i < c → cmp i = some .lt
  first : t < c → cmp t = some .eq ∨ cmp t = some .lt

section Sorted

variable {cmp : ℕ → Option Ordering} {low len t c : ℕ}

/-- Every value below `c` compares. -/
theorem Cut.ne_none (h : Cut cmp t c) {i : ℕ} (hi : i < c) : cmp i ≠ none := by
  rcases Nat.lt_trichotomy i t with hlt | rfl | hgt
  · simp [h.small i hlt]
  · rcases h.first hi with heq | hlt <;> simp [*]
  · simp [h.large i hgt hi]

theorem Cut.lt_of_gt (h : Cut cmp t c) {i : ℕ} (hi : i < c) (hcmp : cmp i = some .gt) : i < t := by
  rcases Nat.lt_trichotomy i t with hlt | rfl | hgt
  · exact hlt
  · rcases h.first hi with hf | hf <;> simp [hf] at hcmp
  · simp [h.large i hgt hi] at hcmp

theorem Cut.le_of_lt (h : Cut cmp t c) {i : ℕ} (hcmp : cmp i = some .lt) : t ≤ i := by
  by_contra hlt
  simp [h.small i (by omega)] at hcmp

theorem Cut.eq_of_eq (h : Cut cmp t c) {i : ℕ} (hi : i < c) (hcmp : cmp i = some .eq) : i = t := by
  rcases Nat.lt_trichotomy i t with hlt | heq | hgt
  · simp [h.small i hlt] at hcmp
  · exact heq
  · simp [h.large i hgt hi] at hcmp

/-- **Where the search ends**, if it looks at values in order only. -/
theorem bisect_result (h : Cut cmp t c) (hlow : low ≤ t)
    (hlive : ∀ i ∈ (bisect cmp low len).probes, i < c) :
    (bisect cmp low len).result = some (min t (low + len)) := by
  induction low, len using bisect.induct cmp with
  | case1 low =>
      rw [bisect_zero, Nat.add_zero, Nat.min_eq_right hlow]
  | case2 low len hlen mid hcmp =>
      rw [bisect_none hlen rfl hcmp] at hlive
      exact absurd hcmp (h.ne_none (hlive mid (List.mem_singleton.mpr rfl)))
  | case3 low len hlen mid hcmp =>
      rw [bisect_eq hlen rfl hcmp] at hlive ⊢
      have heq := h.eq_of_eq (hlive mid (List.mem_singleton.mpr rfl)) hcmp
      refine congrArg some ?_
      omega
  | case4 low len hlen mid hcmp ih =>
      rw [bisect_gt hlen rfl hcmp, Bisect.forall_probes_after] at hlive
      rw [bisect_gt hlen rfl hcmp]
      refine (ih (h.lt_of_gt hlive.1 hcmp) hlive.2).trans (congrArg some ?_)
      omega
  | case5 low len hlen mid hcmp ih =>
      rw [bisect_lt hlen rfl hcmp, Bisect.forall_probes_after] at hlive
      have hlarge := h.le_of_lt hcmp
      rw [bisect_lt hlen rfl hcmp]
      refine (ih hlow hlive.2).trans (congrArg some ?_)
      omega

/-- The place looked at after `k` turns to the right. -/
def rightProbe (low len k : ℕ) : ℕ := low + len - 1 - len / 2 ^ (k + 1)

theorem rightProbe_zero {low len : ℕ} (hlen : len ≠ 0) :
    rightProbe low len 0 = low + (len - 1) / 2 := by
  unfold rightProbe
  rw [Nat.zero_add, pow_one]
  omega

theorem rightProbe_succ {low len : ℕ} (hlen : len ≠ 0) (k : ℕ) :
    rightProbe low len (k + 1) = rightProbe (low + (len - 1) / 2 + 1) (len / 2) k := by
  have hpow : len / 2 / 2 ^ (k + 1) = len / 2 ^ (k + 2) := by
    rw [Nat.div_div_eq_div_mul]
    congr 1
    ring
  have hend : low + (len - 1) / 2 + 1 + len / 2 = low + len := by omega
  unfold rightProbe
  rw [hpow, hend]

/-- The places are looked at from left to right. -/
theorem rightProbe_mono (low len : ℕ) {k l : ℕ} (h : k ≤ l) :
    rightProbe low len k ≤ rightProbe low len l := by
  have hpow : 2 ^ (k + 1) ≤ 2 ^ (l + 1) := Nat.pow_le_pow_right (by decide) (by omega)
  have hdiv : len / 2 ^ (l + 1) ≤ len / 2 ^ (k + 1) :=
    Nat.div_le_div_left hpow (Nat.two_pow_pos _)
  unfold rightProbe
  omega

/-- The search looks at the place in the middle. -/
theorem mid_mem_probes (cmp : ℕ → Option Ordering) (low : ℕ) (hlen : len ≠ 0) :
    low + (len - 1) / 2 ∈ (bisect cmp low len).probes := by
  cases hcmp : cmp (low + (len - 1) / 2) with
  | none => simp [bisect_none hlen rfl hcmp]
  | some o =>
      cases o with
      | eq => simp [bisect_eq hlen rfl hcmp]
      | gt => simp [bisect_gt hlen rfl hcmp, Bisect.after]
      | lt => simp [bisect_lt hlen rfl hcmp, Bisect.after]

/-- From a value that is not too small the search goes to the left. -/
theorem probes_le_mid (h : Cut cmp t c) (hlen : len ≠ 0) (hcut : t ≤ low + (len - 1) / 2)
    (hmid : low + (len - 1) / 2 < c) :
    ∀ i ∈ (bisect cmp low len).probes, i ≤ low + (len - 1) / 2 := by
  have hcmp : cmp (low + (len - 1) / 2) = some .eq ∨ cmp (low + (len - 1) / 2) = some .lt := by
    rcases hcut.eq_or_lt with heq | hlt
    · exact heq ▸ h.first (heq ▸ hmid)
    · exact Or.inr (h.large _ hlt hmid)
  rcases hcmp with heq | hlt
  · simp [bisect_eq hlen rfl heq]
  · rw [bisect_lt hlen rfl hlt, Bisect.forall_probes_after]
    refine ⟨le_refl _, fun i hi => ?_⟩
    have hrange := bisect_probes _ _ _ i hi
    omega

/-- **When the search looks at values in order only**, in a range that goes beyond them. -/
theorem bisect_live_iff (h : Cut cmp t c) (hlow : low ≤ t) (hend : c < low + len) :
    (∀ i ∈ (bisect cmp low len).probes, i < c)
      ↔ ∃ k, t ≤ rightProbe low len k ∧ rightProbe low len k < c := by
  induction len using Nat.strongRecOn generalizing low with
  | _ len ih =>
      have hle := h.le
      have hlen : len ≠ 0 := by omega
      have hzero : rightProbe low len 0 = low + (len - 1) / 2 := rightProbe_zero hlen
      rcases Nat.lt_or_ge (low + (len - 1) / 2) t with hsmall | hcut
      · -- too small: the rest of the search is on the right
        rw [bisect_gt hlen rfl (h.small _ hsmall), Bisect.forall_probes_after,
          ih (len / 2) (by omega) (by omega) (by omega)]
        constructor
        · intro h
          obtain ⟨-, k, hk⟩ := h
          exact ⟨k + 1, by rwa [rightProbe_succ hlen]⟩
        · intro h
          obtain ⟨k, hk⟩ := h
          refine ⟨by omega, ?_⟩
          cases k with
          | zero => omega
          | succ k => exact ⟨k, by rwa [rightProbe_succ hlen] at hk⟩
      · constructor
        · intro hlive
          exact ⟨0, hzero.symm ▸ hcut, hzero.symm ▸ hlive _ (mid_mem_probes cmp low hlen)⟩
        · rintro ⟨k, -, hk⟩ i hi
          have hmono := rightProbe_mono low len (Nat.zero_le k)
          have hmid := probes_le_mid h hlen hcut (by omega) i hi
          omega

end Sorted

end Meili.Lib
