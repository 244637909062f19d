/-
  Meili.DataPlane.TailLatency — the tail latencies of `src/utils/stats/stats.c`.

  `stats_print_lat` sorts `time_diff_sample` and prints the entries at 90, 95, 99 and
  99.9 percent.  The samples are 64 bits wide; `cmpfunc`, which the sort compares them
  with, looks at the lower half of each as an `int`, and subtracts.

    • `cmpfunc_agrees_iff` — the samples for which the comparison is the right one;
    • `tails_true_iff` — for these the printed entries are what their names say, and for
      no others can the sort be relied on.

  The latencies are left in ticks; `qsort` is a parameter.
-/
import Meili.DataPlane.Latency
import Meili.Lib.Comparator

namespace Meili.DataPlane

open Meili.Lib Meili.Lib.Comparator

/-! ## §1. The report. -/

/-- `*(int*)a`. -/
def intAt (a : UInt64) : ℤ := (lower32 a).toInt32.toInt

/-- `cmpfunc`; a difference that is no `int` is undefined. -/
def cmpfunc (a b : UInt64) : Option ℤ :=
  if -2 ^ 31 ≤ intAt a - intAt b ∧ intAt a - intAt b < 2 ^ 31 then some (intAt a - intAt b)
  else none

/-- `(int)(nb_samples*num)/den`. -/
def tailIndex (nbSamples num den : ℤ) : ℤ := (nbSamples * num).tdiv den

/-- What `stats_print_lat` prints. -/
structure LatReport where
  totalBufs : UInt64
  nbSamples : ℤ
  maxLat : UInt64
  minLat : UInt64
  averageLat : UInt64
  tail90 : UInt64
  tail95 : UInt64
  tail99 : UInt64
  tail999 : UInt64
  averageInLat : UInt64
  /-- The samples from `tail_99_index` on, one a line. -/
  slowest : List UInt64

namespace LatStats

/-- `RTE_MIN(lat_stats->nb_sampled, NUMBER_OF_SAMPLE)`. -/
def nbSamples (s : LatStats) : ℤ := min s.nbSampled.toInt numberOfSample

/-- The first `nb_samples` entries of `time_diff_sample`. -/
def samples (s : LatStats) : List UInt64 :=
  (List.range s.nbSamples.toNat).map s.timeDiffSample

/-- `qsort(lat_stats->time_diff_sample,nb_samples,sizeof(uint64_t),cmpfunc)`. -/
def sortSamples (qsort : Comparator UInt64 → List UInt64 → List UInt64) (s : LatStats) :
    LatStats :=
  { s with
    timeDiffSample := fun i =>
      if i < s.nbSamples.toNat then (qsort cmpfunc s.samples).getD i 0 else s.timeDiffSample i }

end LatStats

/-- `stats_print_lat`, with `tx_buf_cnt` of the first queue: the record it leaves behind,
with its samples sorted, and the report. -/
def statsPrintLat (qsort : Comparator UInt64 → List UInt64 → List UInt64) (txBufCnt : UInt64)
    (s : LatStats) : LatStats × LatReport :=
  let sorted := s.sortSamples qsort
  let minLat := if s.minLat < 0xFFFFFFFFFFFFFFFF then s.minLat else 0xFFFFFFFFFFFFFFFF
  let tail90Index := tailIndex s.nbSamples 90 100
  let tail95Index := tailIndex s.nbSamples 95 100
  let tail99Index := tailIndex s.nbSamples 99 100
  let tail999Index := tailIndex s.nbSamples 999 1000
  (sorted,
    { totalBufs := txBufCnt
      nbSamples := s.nbSamples
      maxLat := if s.maxLat > 0 then s.maxLat else 0
      minLat := if minLat = 0xFFFFFFFFFFFFFFFF then 0 else minLat
      averageLat := if txBufCnt ≠ 0 then s.totLat / txBufCnt else 0
      tail90 := sorted.timeDiffSample tail90Index.toNat
      tail95 := sorted.timeDiffSample tail95Index.toNat
      tail99 := sorted.timeDiffSample tail99Index.toNat
      tail999 := sorted.timeDiffSample tail999Index.toNat
      averageInLat := if txBufCnt ≠ 0 then s.totInLat / txBufCnt else 0
      slowest := (List.range' tail99Index.toNat (s.nbSamples - tail99Index).toNat).map
        sorted.timeDiffSample })

/-! ## §2. What the tails should be. -/

instance uint64LinearOrder : LinearOrder UInt64 where
  le_refl := UInt64.le_refl
  le_trans _ _ _ := UInt64.le_trans
  le_antisymm _ _ := UInt64.le_antisymm
  le_total := UInt64.le_total
  lt_iff_le_not_ge _ _ := Nat.lt_iff_le_and_not_ge
  toDecidableLE := inferInstance

/-- The entry `tail`, which is printed for `num / den` of the samples, is one of them, and
as many as that are not above it. -/
structure IsTail (samples : List UInt64) (num den : ℕ) (index : ℤ) (tail : UInt64) : Prop where
  inside : 0 ≤ index ∧ index < samples.length
  sampled : tail ∈ samples
  below : samples.length * num / den ≤ samples.countP (· ≤ tail)

/-- The report on `s` is right about its tails. -/
structure TailsTrue (qsort : Comparator UInt64 → List UInt64 → List UInt64) (txBufCnt : UInt64)
    (s : LatStats) : Prop where
  consistent : Consistent cmpfunc s.samples
  agrees : Agrees cmpfunc s.samples
  ascending : (statsPrintLat qsort txBufCnt s).1.samples.Pairwise (· ≤ ·)
  sorted : (statsPrintLat qsort txBufCnt s).1.samples.Perm s.samples
  tail90 : IsTail s.samples 90 100 (tailIndex s.nbSamples 90 100)
    (statsPrintLat qsort txBufCnt s).2.tail90
  tail95 : IsTail s.samples 95 100 (tailIndex s.nbSamples 95 100)
    (statsPrintLat qsort txBufCnt s).2.tail95
  tail99 : IsTail s.samples 99 100 (tailIndex s.nbSamples 99 100)
    (statsPrintLat qsort txBufCnt s).2.tail99
  tail999 : IsTail s.samples 999 1000 (tailIndex s.nbSamples 999 1000)
    (statsPrintLat qsort txBufCnt s).2.tail999

/-- As `int`s, the lower halves of the samples are in the order of the samples, and less
than `2^31` apart. -/
def HalvesInOrder (samples : List UInt64) : Prop :=
  ∀ x ∈ samples, ∀ y ∈ samples, x < y → intAt x < intAt y ∧ intAt y - intAt x < 2 ^ 31

/-! ## §3. The comparison. -/

theorem cmpfunc_self (x : UInt64) : cmpfunc x x = some 0 := by
  unfold cmpfunc
  rw [Int.sub_self]
  rfl

/-- **Where the comparison is right.** -/
theorem cmpfunc_agrees_iff (samples : List UInt64) :
    Agrees cmpfunc samples ↔ HalvesInOrder samples := by
  constructor
  · intro h x hx y hy hxy
    obtain ⟨d, hd, hlt, -⟩ := h x hx y hy
    obtain ⟨e, he, -, -⟩ := h y hy x hx
    unfold cmpfunc at hd he
    split at hd
    next hrange =>
      split at he
      next hrange' =>
        cases hd
        have hneg := hlt.mpr hxy
        omega
      next => cases he
    next => cases hd
  · intro h x hx y hy
    rcases lt_trichotomy x y with hxy | rfl | hyx
    · obtain ⟨hlt, hnear⟩ := h x hx y hy hxy
      refine ⟨intAt x - intAt y, if_pos (by omega), ?_, ?_⟩
      · exact iff_of_true (by omega) hxy
      · exact iff_of_false (by omega) hxy.asymm
    · refine ⟨0, cmpfunc_self x, ?_, ?_⟩
      · exact iff_of_false (by omega) (lt_irrefl x)
      · exact iff_of_false (by omega) (lt_irrefl x)
    · obtain ⟨hlt, hnear⟩ := h y hy x hx hyx
      refine ⟨intAt x - intAt y, if_pos (by omega), ?_, ?_⟩
      · exact iff_of_false (by omega) hyx.asymm
      · exact iff_of_true (by omega) hyx

/-- Samples below `2^31` are in order. -/
theorem halvesInOrder_of_lt {samples : List UInt64} (h : ∀ x ∈ samples, x.toNat < 2 ^ 31) :
    HalvesInOrder samples := by
  have hint : ∀ x ∈ samples, intAt x = x.toNat := by
    intro x hx
    have hlow : (lower32 x).toNat = x.toNat := by
      have hlt := h x hx
      rw [toNat_lower32]
      omega
    unfold intAt
    show (lower32 x).toBitVec.toInt = _
    have hnat : (lower32 x).toBitVec.toNat = x.toNat := hlow
    have hlt := h x hx
    rw [BitVec.toInt_eq_toNat_of_lt (by omega), hnat]
  intro x hx y hy hxy
  have hlt : x.toNat < y.toNat := hxy
  have hy31 := h y hy
  rw [hint x hx, hint y hy]
  omega

/-! ## §4. The tails. -/

section Tails

variable {qsort : Comparator UInt64 → List UInt64 → List UInt64} {s : LatStats}

theorem LatStats.samples_length (s : LatStats) : s.samples.length = s.nbSamples.toNat := by
  unfold LatStats.samples
  rw [List.length_map, List.length_range]

theorem LatStats.samples_getElem {i : ℕ} (hi : i < s.samples.length) :
    s.samples[i] = s.timeDiffSample i := by
  simp only [LatStats.samples, List.getElem_map, List.getElem_range]

/-- A sorted record has what the sort has made as its samples. -/
theorem LatStats.sortSamples_samples (h : (qsort cmpfunc s.samples).length = s.samples.length) :
    (s.sortSamples qsort).samples = qsort cmpfunc s.samples := by
  rw [s.samples_length] at h
  have hnb : (s.sortSamples qsort).nbSamples = s.nbSamples := rfl
  refine List.ext_getElem ?_ fun i hi hi' => ?_
  · rw [LatStats.samples_length, hnb, h]
  · rw [LatStats.samples_getElem]
    rw [LatStats.samples_length, hnb] at hi
    show (if i < s.nbSamples.toNat then (qsort cmpfunc s.samples).getD i 0 else _) = _
    rw [if_pos hi, List.getD_eq_getElem _ _ hi']

/-- **A tail of an ascending list.** -/
theorem isTail_of_ascending {samples ys : List UInt64} {num den : ℕ} {entry : ℕ → UInt64}
    (hperm : ys.Perm samples) (hasc : ys.Pairwise (· ≤ ·))
    (hentry : ∀ i (hi : i < ys.length), entry i = ys[i]) (hpos : samples ≠ []) (hnum : num < den) :
    IsTail samples num den (tailIndex samples.length num den)
      (entry (tailIndex samples.length num den).toNat) := by
  have hlen : 0 < samples.length := List.length_pos_iff.mpr hpos
  have hindex : tailIndex samples.length num den = (samples.length * num / den : ℕ) := by
    unfold tailIndex
    rw [← Int.natCast_mul]
    exact (Int.ofNat_tdiv _ _).symm
  have hlt : samples.length * num / den < ys.length := by
    rw [hperm.length_eq]
    refine Nat.div_lt_of_lt_mul ?_
    rw [Nat.mul_comm den]
    exact Nat.mul_lt_mul_of_pos_left hnum hlen
  rw [hindex, Int.toNat_natCast, hentry _ hlt]
  refine ⟨⟨Int.natCast_nonneg _, ?_⟩, ?_, ?_⟩
  · rw [hperm.length_eq] at hlt
    exact_mod_cast hlt
  · exact hperm.mem_iff.mp (List.getElem_mem hlt)
  · rw [← hperm.countP_eq]
    exact (lt_countP_of_ascending hasc hlt).le

/-- **When the tail latencies are true.**  For every record with samples: `cmpfunc` compares
them consistently and by their order, the sort leaves them ascending, and the printed entries
are the tails of the samples, if and only if the lower halves of the samples, read as `int`s,
are in the order of the samples and less than `2^31` apart. -/
theorem tails_true_iff (hqsort : SortsConsistent qsort) (txBufCnt : UInt64) (s : LatStats)
    (hpos : 0 < s.nbSampled.toInt) : TailsTrue qsort txBufCnt s ↔ HalvesInOrder s.samples := by
  rw [← cmpfunc_agrees_iff]
  refine ⟨fun h => h.agrees, fun hagrees => ?_⟩
  have hsorts := hqsort cmpfunc s.samples hagrees.consistent
  have hsamples : (s.sortSamples qsort).samples = qsort cmpfunc s.samples :=
    LatStats.sortSamples_samples hsorts.perm.length_eq
  have hasc := hsorts.ascending hagrees
  rw [← hsamples] at hasc
  have hperm := hsorts.perm
  rw [← hsamples] at hperm
  have hnb : 0 < s.nbSamples := lt_min hpos (by decide)
  have hlen : s.nbSamples = s.samples.length := by
    rw [s.samples_length]
    omega
  have hne : s.samples ≠ [] := by
    intro hnil
    rw [hlen, hnil] at hnb
    exact absurd hnb (by decide)
  have hentry : ∀ i (hi : i < (s.sortSamples qsort).samples.length),
      (s.sortSamples qsort).timeDiffSample i = (s.sortSamples qsort).samples[i] :=
    fun i hi => (LatStats.samples_getElem hi).symm
  have htail : ∀ num den : ℕ, num < den →
      IsTail s.samples num den (tailIndex s.nbSamples num den)
        ((s.sortSamples qsort).timeDiffSample (tailIndex s.nbSamples num den).toNat) := by
    intro num den hnum
    rw [hlen]
    exact isTail_of_ascending hperm hasc hentry hne hnum
  exact
    { consistent := hagrees.consistent
      agrees := hagrees
      ascending := hasc
      sorted := hperm
      tail90 := htail 90 100 (by decide)
      tail95 := htail 95 100 (by decide)
      tail99 := htail 99 100 (by decide)
      tail999 := htail 999 1000 (by decide) }

end Tails

/-- A record with these samples. -/
def sampled (lats : List UInt64) : LatStats :=
  { statsInitLat with
    timeDiffSample := fun i => lats.getD i 0
    nbSampled := Int32.ofNat lats.length }

theorem threeSamples_tails :
    0 < (sampled [7, 5, 9]).nbSampled.toInt
      ∧ TailsTrue Comparator.sort 3 (sampled [7, 5, 9]) := by
  have hpos : 0 < (sampled [7, 5, 9]).nbSampled.toInt := by decide
  have hsamples : (sampled [7, 5, 9]).samples = [7, 5, 9] := by decide
  have hsmall : ∀ x ∈ (sampled [7, 5, 9]).samples, x.toNat < 2 ^ 31 := by
    rw [hsamples]
    simp only [List.forall_mem_cons, List.not_mem_nil, false_imp_iff, implies_true, and_true]
    decide
  exact ⟨hpos, (tails_true_iff sort_sorts 3 (sampled [7, 5, 9]) hpos).mpr
    (halvesInOrder_of_lt hsmall)⟩

/-- Of a latency of `2^32` ticks the comparison sees 0. -/
theorem longLatency_not_tails : ¬ TailsTrue Comparator.sort 2 (sampled [0x100000000, 1]) := by
  intro h
  obtain ⟨d, hd, -, hgt⟩ := h.agrees 0x100000000 (by decide) 1 (by decide)
  rw [show cmpfunc 0x100000000 1 = some (-1) by decide] at hd
  cases hd
  exact absurd (hgt.mpr (by decide)) (by decide)

end Meili.DataPlane
