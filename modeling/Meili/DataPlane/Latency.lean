/-
  Meili.DataPlane.Latency — the latency record of `src/utils/stats/stats.c`.

  `stats_update_time_main` takes the latency of every packet into `lat_stats` and stores it
  in `time_diff_sample`, at `nb_sampled & NUMBER_OF_SAMPLE`.  The constant is the length of
  the array too, so the index that has all its bits set lies behind the array, where
  `nb_sampled` is.

    • `Recorded.update` — what one packet does to the record while the index is in range;
    • `LatStats.update_overrun` — what the first packet does whose index is not;
    • `sampleRing_sound_iff` — the record is right in every run of 16383 packets at most,
      and in no longer one.
-/
import Meili.DataPlane.Metadata

namespace Meili.DataPlane

open Meili.Lib

/-! ## §1. The record. -/

/-- `NUMBER_OF_SAMPLE`. -/
def numberOfSample : ℕ := (1 <<< 14) - 1

/-- `struct lat_stats`. -/
structure LatStats where
  totLat : UInt64
  maxLat : UInt64
  minLat : UInt64
  totInLat : UInt64
  /-- `NUMBER_OF_SAMPLE` entries, with `nb_sampled` right behind them. -/
  timeDiffSample : ℕ → UInt64
  nbSampled : Int32

/-- What `stats_init` makes of `lat_stats`. -/
def statsInitLat : LatStats where
  totLat := 0
  maxLat := 0
  minLat := 0xFFFFFFFFFFFFFFFF
  totInLat := 0
  timeDiffSample := fun _ => 0
  nbSampled := 0

namespace LatStats

/-- `nb_sampled & NUMBER_OF_SAMPLE`. -/
def sampleIndex (s : LatStats) : ℕ := (s.nbSampled &&& Int32.ofNat numberOfSample).toNatClampNeg

/-- `time_diff_sample[i] = time_diff`.  Behind the array, the lower half of the eight bytes
is `nb_sampled` and the upper half padding. -/
def storeSample (s : LatStats) (i : ℕ) (timeDiff : UInt64) : LatStats :=
  if i < numberOfSample then
    { s with timeDiffSample := Function.update s.timeDiffSample i timeDiff }
  else { s with nbSampled := (lower32 timeDiff).toInt32 }

/-- The loop body of `stats_update_time_main` on a packet with this latency. -/
def update (s : LatStats) (timeDiff : UInt64) : LatStats :=
  let s := { s with totLat := s.totLat + timeDiff }
  let s := if timeDiff < s.minLat then { s with minLat := timeDiff } else s
  let s := if timeDiff > s.maxLat then { s with maxLat := timeDiff } else s
  let s := s.storeSample s.sampleIndex timeDiff
  { s with nbSampled := s.nbSampled + 1 }

end LatStats

/-- `time_end - time_start`. -/
def timeDiff (l : Layout) (x : Memory) (mbuf : Mbuf) : UInt64 :=
  x.readTs l .done mbuf - x.readTs l .start mbuf

/-- `stats_update_time_main(mbuf, nb_mbuf, pl)`, with the memory at the time of the call. -/
def statsUpdateTimeMain (l : Layout) (s : LatStats) (x : Memory) (mbufs : List Mbuf) : LatStats :=
  mbufs.foldl (fun s mbuf => s.update (timeDiff l x mbuf)) s

/-! ## §2. Runs. -/

/-- One call of `stats_update_time_main`. -/
structure StatsCall where
  mem : Memory
  mbufs : List Mbuf

/-- The record after some calls. -/
def statsRun (l : Layout) (calls : List StatsCall) : LatStats :=
  calls.foldl (fun s c => statsUpdateTimeMain l s c.mem c.mbufs) statsInitLat

/-- The latencies of the packets of some calls, in order. -/
def latencies (l : Layout) (calls : List StatsCall) : List UInt64 :=
  calls.flatMap fun c => c.mbufs.map (timeDiff l c.mem)

/-- The record after packets with these latencies. -/
def latAfter (lats : List UInt64) : LatStats := lats.foldl LatStats.update statsInitLat

theorem latencies_length (l : Layout) (calls : List StatsCall) :
    (latencies l calls).length = (calls.map fun c => c.mbufs.length).sum := by
  unfold latencies
  rw [List.length_flatMap]
  simp only [List.length_map]

/-- A run goes packet by packet. -/
theorem statsRun_eq (l : Layout) (calls : List StatsCall) :
    statsRun l calls = latAfter (latencies l calls) := by
  unfold statsRun latAfter latencies
  rw [List.foldl_flatMap]
  congr 1
  funext s c
  rw [List.foldl_map]
  rfl

/-- The record `s` is right after packets with the latencies `lats`. -/
structure Recorded (lats : List UInt64) (s : LatStats) : Prop where
  nbSampled : s.nbSampled.toInt = lats.length
  /-- The samples are the latencies of the last packets, as many as there is room for. -/
  samples : ((List.range (min lats.length numberOfSample)).map s.timeDiffSample).Perm
    (lats.drop (lats.length - numberOfSample))
  totLat : s.totLat.toNat = (lats.map UInt64.toNat).sum % 2 ^ 64
  minLat : (∀ x ∈ lats, s.minLat ≤ x) ∧ (lats ≠ [] → s.minLat ∈ lats)
  maxLat : (∀ x ∈ lats, x ≤ s.maxLat) ∧ (lats ≠ [] → s.maxLat ∈ lats)

/-- The latency record is sound in a run of calls. -/
structure SampleRingSound (l : Layout) (calls : List StatsCall) : Prop where
  /-- Every sample is written to an entry of the array. -/
  index : ∀ pre x, pre ++ [x] <+: latencies l calls →
    (latAfter pre).sampleIndex < numberOfSample
  /-- A sample write alters nothing but `time_diff_sample`. -/
  frame : ∀ pre x, pre ++ [x] <+: latencies l calls → ∃ samples,
    (latAfter pre).storeSample (latAfter pre).sampleIndex x
      = { latAfter pre with timeDiffSample := samples }
  /-- After every call the record is right. -/
  recorded : ∀ done, done <+: calls → Recorded (latencies l done) (statsRun l done)

/-! ## §3. One packet. -/

theorem int32_ofNat_and (a b : ℕ) : Int32.ofNat a &&& Int32.ofNat b = Int32.ofNat (a &&& b) := by
  apply Int32.toBitVec.inj
  rw [Int32.toBitVec_and]
  exact BitVec.ofNat_and.symm

namespace LatStats

/-- The index that belongs to a value of `nb_sampled`. -/
theorem sampleIndex_eq {s : LatStats} {n : ℕ} (h : s.nbSampled = Int32.ofNat n) :
    s.sampleIndex = n % (numberOfSample + 1) := by
  have hlt : n % 2 ^ 14 < 2 ^ 14 := Nat.mod_lt _ (Nat.two_pow_pos 14)
  unfold sampleIndex
  rw [h, int32_ofNat_and, show n &&& numberOfSample = n % 2 ^ 14 from
    Nat.and_two_pow_sub_one_eq_mod n 14, Int32.toNatClampNeg_ofNat_of_lt (by omega)]
  rfl

theorem storeSample_of_lt {s : LatStats} {i : ℕ} (h : i < numberOfSample) (x : UInt64) :
    s.storeSample i x = { s with timeDiffSample := Function.update s.timeDiffSample i x } := by
  rw [storeSample, if_pos h]

/-- What is done before a sample is stored. -/
def total (s : LatStats) (x : UInt64) : LatStats :=
  { s with
    totLat := s.totLat + x
    minLat := if x < s.minLat then x else s.minLat
    maxLat := if x > s.maxLat then x else s.maxLat }

theorem update_eq (s : LatStats) (x : UInt64) :
    s.update x
      = { (s.total x).storeSample s.sampleIndex x with
          nbSampled := ((s.total x).storeSample s.sampleIndex x).nbSampled + 1 } := by
  unfold update total
  dsimp only
  split <;> split <;> rfl

/-- **A packet whose index is in range** changes the totals, its sample and the counter. -/
theorem update_in_range {s : LatStats} (h : s.sampleIndex < numberOfSample) (x : UInt64) :
    s.update x
      = { s.total x with
          timeDiffSample := Function.update s.timeDiffSample s.sampleIndex x
          nbSampled := s.nbSampled + 1 } := by
  rw [update_eq, storeSample_of_lt h]
  rfl

/-- **A packet whose index is behind the array** overwrites the counter with its latency. -/
theorem update_overrun {s : LatStats} (h : ¬ s.sampleIndex < numberOfSample) (x : UInt64) :
    s.update x = { s.total x with nbSampled := (lower32 x).toInt32 + 1 } := by
  rw [update_eq, storeSample, if_neg h]

end LatStats

/-- The record after `n` packets that all had an entry of their own. -/
structure Sampled (lats : List UInt64) (s : LatStats) : Prop where
  nbSampled : s.nbSampled = Int32.ofNat lats.length
  samples : (List.range lats.length).map s.timeDiffSample = lats
  totLat : s.totLat.toNat = (lats.map UInt64.toNat).sum % 2 ^ 64
  minLat : (∀ x ∈ lats, s.minLat ≤ x) ∧ (lats ≠ [] → s.minLat ∈ lats)
  maxLat : (∀ x ∈ lats, x ≤ s.maxLat) ∧ (lats ≠ [] → s.maxLat ∈ lats)
  /-- Before the first packet the extremes are those of all latencies. -/
  fresh : lats = [] → (∀ x, x ≤ s.minLat) ∧ ∀ x, s.maxLat ≤ x

theorem sampled_init : Sampled [] statsInitLat := by
  refine ⟨rfl, rfl, rfl, ⟨by simp, by simp⟩, ⟨by simp, by simp⟩,
    fun _ => ⟨fun x => ?_, fun x => ?_⟩⟩
  · rw [UInt64.le_iff_toNat_le]
    exact Nat.le_of_lt_succ x.toNat_lt
  · rw [UInt64.le_iff_toNat_le]
    exact Nat.zero_le _

section Sampled

variable {lats : List UInt64} {s : LatStats}

theorem Sampled.sampleIndex (h : Sampled lats s) (hlen : lats.length ≤ numberOfSample) :
    s.sampleIndex = lats.length := by
  rw [LatStats.sampleIndex_eq h.nbSampled]
  exact Nat.mod_eq_of_lt (Nat.lt_succ_of_le hlen)

/-- The smaller of the minimum so far and a further latency. -/
theorem Sampled.minLat_total (h : Sampled lats s) (x : UInt64) :
    (∀ y ∈ lats ++ [x], (s.total x).minLat ≤ y) ∧ (s.total x).minLat ∈ lats ++ [x] := by
  have hmin : (s.total x).minLat = if x < s.minLat then x else s.minLat := rfl
  rw [hmin]
  split
  next hlt =>
    refine ⟨fun y hy => ?_, List.mem_append_right _ (List.mem_singleton.mpr rfl)⟩
    rcases List.mem_append.mp hy with hy | hy
    · exact UInt64.le_trans (UInt64.le_of_lt hlt) (h.minLat.1 y hy)
    · rw [List.mem_singleton.mp hy]
      exact UInt64.le_refl x
  next hge =>
    have hle := UInt64.not_lt.mp hge
    refine ⟨fun y hy => ?_, ?_⟩
    · rcases List.mem_append.mp hy with hy | hy
      · exact h.minLat.1 y hy
      · rw [List.mem_singleton.mp hy]
        exact hle
    · by_cases hnil : lats = []
      · -- the first packet has the largest latency there is
        have hx : s.minLat = x := UInt64.le_antisymm hle ((h.fresh hnil).1 x)
        exact List.mem_append_right _ (List.mem_singleton.mpr hx)
      · exact List.mem_append_left _ (h.minLat.2 hnil)

/-- The larger of the maximum so far and a further latency. -/
theorem Sampled.maxLat_total (h : Sampled lats s) (x : UInt64) :
    (∀ y ∈ lats ++ [x], y ≤ (s.total x).maxLat) ∧ (s.total x).maxLat ∈ lats ++ [x] := by
  have hmax : (s.total x).maxLat = if x > s.maxLat then x else s.maxLat := rfl
  rw [hmax]
  split
  next hlt =>
    refine ⟨fun y hy => ?_, List.mem_append_right _ (List.mem_singleton.mpr rfl)⟩
    rcases List.mem_append.mp hy with hy | hy
    · exact UInt64.le_trans (h.maxLat.1 y hy) (UInt64.le_of_lt hlt)
    · rw [List.mem_singleton.mp hy]
      exact UInt64.le_refl x
  next hge =>
    have hle := UInt64.not_lt.mp hge
    refine ⟨fun y hy => ?_, ?_⟩
    · rcases List.mem_append.mp hy with hy | hy
      · exact h.maxLat.1 y hy
      · rw [List.mem_singleton.mp hy]
        exact hle
    · by_cases hnil : lats = []
      · -- the first packet has latency 0
        have hx : s.maxLat = x := UInt64.le_antisymm ((h.fresh hnil).2 x) hle
        exact List.mem_append_right _ (List.mem_singleton.mpr hx)
      · exact List.mem_append_left _ (h.maxLat.2 hnil)

/-- **One packet** is recorded while there is an entry left. -/
theorem Sampled.update (h : Sampled lats s) (hlen : lats.length < numberOfSample) (x : UInt64) :
    Sampled (lats ++ [x]) (s.update x) := by
  have hindex := h.sampleIndex (le_of_lt hlen)
  rw [LatStats.update_in_range (by rw [hindex]; exact hlen), hindex]
  have hne : lats ++ [x] ≠ [] := by simp
  refine ⟨?_, ?_, ?_, ?_, ?_, fun hnil => absurd hnil hne⟩
  · show s.nbSampled + 1 = _
    rw [h.nbSampled, List.length_append, List.length_singleton, Int32.ofNat_add]
    rfl
  · -- the new sample is behind the others
    show (List.range (lats ++ [x]).length).map (Function.update s.timeDiffSample lats.length x) = _
    rw [List.length_append, List.length_singleton, List.range_succ, List.map_append,
      List.map_singleton, Function.update_self]
    congr 1
    nth_rewrite 3 [← h.samples]
    apply List.map_congr_left
    intro i hi
    exact Function.update_of_ne (Nat.ne_of_lt (List.mem_range.mp hi)) _ _
  · show (s.totLat + x).toNat = _
    rw [UInt64.toNat_add, h.totLat, List.map_append, List.sum_append, List.map_singleton,
      List.sum_singleton]
    omega
  · exact ⟨(h.minLat_total x).1, fun _ => (h.minLat_total x).2⟩
  · exact ⟨(h.maxLat_total x).1, fun _ => (h.maxLat_total x).2⟩

theorem Sampled.recorded (h : Sampled lats s) (hlen : lats.length ≤ numberOfSample) :
    Recorded lats s := by
  refine ⟨?_, ?_, h.totLat, h.minLat, h.maxLat⟩
  · rw [h.nbSampled]
    exact Int32.toInt_ofNat_of_lt (lt_of_le_of_lt hlen (by decide))
  · rw [Nat.min_eq_left hlen, Nat.sub_eq_zero_of_le hlen, List.drop_zero, h.samples]

/-- **The record after up to 16383 packets.** -/
theorem sampled_latAfter (lats : List UInt64) (hlen : lats.length ≤ numberOfSample) :
    Sampled lats (latAfter lats) := by
  induction lats using List.reverseRecOn with
  | nil => exact sampled_init
  | append_singleton lats x ih =>
      rw [List.length_append, List.length_singleton] at hlen
      have hstep := (ih (by omega)).update (by omega) x
      have hafter : latAfter (lats ++ [x]) = (latAfter lats).update x := by
        unfold latAfter
        rw [List.foldl_append]
        rfl
      rw [hafter]
      exact hstep

end Sampled

/-! ## §4. Every run. -/

/-- **When the latency record is sound.**  For every layout and every run of
`stats_update_time_main` calls with batches of any sizes: all samples are written inside the
array, and the record is right after every call, if and only if there are no more than
`NUMBER_OF_SAMPLE` packets in the run. -/
theorem sampleRing_sound_iff (l : Layout) (calls : List StatsCall) :
    SampleRingSound l calls ↔ (calls.map fun c => c.mbufs.length).sum ≤ numberOfSample := by
  rw [← latencies_length l]
  constructor
  · intro h
    by_contra hlong
    rw [Nat.not_le] at hlong
    -- the packet behind the first 16383 has its index behind the array
    have htake : ((latencies l calls).take numberOfSample).length = numberOfSample := by
      rw [List.length_take]
      omega
    have hindex := h.index ((latencies l calls).take numberOfSample)
      ((latencies l calls)[numberOfSample]) (by
        rw [List.take_append_getElem]
        exact List.take_prefix _ _)
    rw [(sampled_latAfter _ htake.le).sampleIndex htake.le, htake] at hindex
    exact Nat.lt_irrefl _ hindex
  · intro hlen
    have hindex : ∀ pre x, pre ++ [x] <+: latencies l calls →
        (latAfter pre).sampleIndex < numberOfSample := by
      intro pre x hpre
      have hle := hpre.length_le
      rw [List.length_append, List.length_singleton] at hle
      rw [(sampled_latAfter pre (by omega)).sampleIndex (by omega)]
      omega
    refine ⟨hindex, fun pre x hpre => ?_, fun done hdone => ?_⟩
    · exact ⟨_, LatStats.storeSample_of_lt (hindex pre x hpre) x⟩
    · obtain ⟨rest, hrest⟩ := hdone
      have hle : (latencies l done).length ≤ numberOfSample := by
        rw [← hrest, latencies, List.flatMap_append, List.length_append] at hlen
        exact (Nat.le_add_right _ _).trans hlen
      rw [statsRun_eq]
      exact (sampled_latAfter _ hle).recorded hle

/-- A memory in which the timestamps of every mbuf are 5 ticks apart. -/
def fiveTicks : Memory where
  words := fun _ => Function.update (fun _ => 0) 24 5
  seqn := 0
  bufId := fun _ => 0

/-- The sample of packet 16384 is written to `nb_sampled`, which is 6 behind it. -/
theorem fiveTicks_overrun :
    ¬ SampleRingSound fieldsFirst [⟨fiveTicks, List.replicate 16384 7⟩] := by
  intro h
  have hlats : latencies fieldsFirst [⟨fiveTicks, List.replicate 16384 7⟩]
      = List.replicate numberOfSample 5 ++ [5] := by
    have hfive : timeDiff fieldsFirst fiveTicks 7 = 5 := by decide
    rw [latencies, List.flatMap_singleton, List.map_replicate, hfive, ← List.replicate_succ']
    rfl
  have hlen : (List.replicate numberOfSample (5 : UInt64)).length = numberOfSample :=
    List.length_replicate
  have hover : ¬ (latAfter (List.replicate numberOfSample 5)).sampleIndex < numberOfSample := by
    rw [(sampled_latAfter _ hlen.le).sampleIndex hlen.le, hlen]
    exact Nat.lt_irrefl _
  have hsix : (statsRun fieldsFirst [⟨fiveTicks, List.replicate 16384 7⟩]).nbSampled
      = 6 := by
    rw [statsRun_eq, hlats, latAfter, List.foldl_append]
    show ((latAfter (List.replicate numberOfSample 5)).update 5).nbSampled = 6
    rw [LatStats.update_overrun hover]
    rfl
  have hcount := (h.recorded _ (List.prefix_refl _)).nbSampled
  rw [hsix, hlats, List.length_append, hlen] at hcount
  revert hcount
  decide

end Meili.DataPlane
