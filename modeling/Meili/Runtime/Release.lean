/-
  Meili.Runtime.Release — what a failed start-up releases.

  Main results:
    * `exact_of_initDpdk_failed`, `exact_of_statsInit_failed` — a failure before the
      input is cleaned up, but for the copied arguments of the EAL;
    * `leak_latStats` — behind `stats_init`, `lat_stats` is never freed;
    * `leak_dpdkArg` — the copied arguments are never freed.
-/
import Meili.Runtime.Footprint

namespace Meili.Runtime

open Meili.Conf Meili.Lib Meili.Lib.Ledger Meili.Lib.Action

/-! ## §1. A failure before the input. -/

/-- What `conf_clean` goes through. -/
def cleaned (noConfWarnings : ℕ) : List Resource :=
  (List.range noConfWarnings).map .warning ++ confOwned

theorem cleaned_nodup (w : ℕ) : (cleaned w).Nodup := by
  refine List.nodup_append.mpr ⟨?_, by decide, ?_⟩
  · exact List.nodup_range.map fun i j h => Resource.warning.inj h
  · intro r hr r' hr'
    obtain ⟨i, -, rfl⟩ := List.mem_map.mp hr
    rintro rfl
    revert hr'
    simp [confOwned]

theorem warning_not_mem_cleaned (w : ℕ) : Resource.warning w ∉ cleaned w := by
  simp [cleaned, confOwned]

theorem mem_confAcquired_succ {conf : PlConf} {w : ℕ} {r : Resource} :
    r ∈ confAcquired conf (w + 1) ↔ r ∈ confAcquired conf w ∨ r = .warning w := by
  simp only [confAcquired, List.range_succ, List.map_append, List.map_cons, List.map_nil,
    List.mem_append, List.mem_singleton]
  tauto

/-- What `conf_setup` has acquired, `conf_clean` frees, but for the EAL's arguments. -/
theorem mem_confAcquired_cases {conf : PlConf} {w : ℕ} {r : Resource}
    (hr : r ∈ confAcquired conf w) :
    r ∈ cleaned w ∨ ∃ i < conf.dpdkArgv.length - 1, r = .dpdkArg i := by
  rcases List.mem_append.mp hr with hfront | harg
  · left
    rcases List.mem_append.mp hfront with hwarning | howned
    · exact List.mem_append_left _ hwarning
    · exact List.mem_append_right _ (List.mem_of_mem_filter howned)
  · right
    obtain ⟨i, hi, rfl⟩ := List.mem_map.mp harg
    exact ⟨i, List.mem_range.mp hi, rfl⟩

/-- Nothing of the pipeline is there when the start-up begins. -/
theorem start_restrict {p : Resource → Bool} (hp : ∀ r, tracked r = false → p r = false)
    (hargs : ∀ i, p (.dpdkArg i) = false) {conf : PlConf} {w : ℕ} :
    (start conf w).restrict p = Ledger.empty := by
  have howned : ∀ r ∈ confOwned, tracked r = false := by decide
  have hfalse : ∀ r ∈ confAcquired conf w, p r = false := by
    intro r hr
    rcases mem_confAcquired_cases hr with hclean | ⟨i, -, rfl⟩
    · rcases List.mem_append.mp hclean with hwarning | hown
      · obtain ⟨i, -, rfl⟩ := List.mem_map.mp hwarning
        exact hp _ rfl
      · exact hp r (howned r hown)
    · exact hargs i
  have hnone : (confAcquired conf w).filter p = [] := by
    apply List.filter_eq_nil_iff.mpr
    intro r hr
    rw [hfalse r hr]
    exact Bool.false_ne_true
  unfold start restrict
  rw [hnone]
  rfl

/-- The slots of `stats_init`, in its order. -/
def statsSlots : List Resource := [.inputPktStats, .stats, .rmStats, .latStats]

theorem statsSlots_not_cleaned {w : ℕ} : ∀ r ∈ statsSlots, r ∉ cleaned w := by
  simp [statsSlots, cleaned, confOwned]

/-- **Ready for `conf_clean`**: what is still held is what the configuration holds. -/
structure ReadyToClean (conf : PlConf) (w : ℕ) (l : Ledger Resource) : Prop where
  acquired : ∀ r, r ∈ l.acquired ↔ r ∈ confAcquired conf w ∨ r ∈ l.released
  written : ∀ r ∈ cleaned w, (r ∈ l.written ↔ r ∈ l.acquired)
  released : ∀ r ∈ l.released, r ∈ statsSlots
  nodup : l.released.Nodup
  untouched : l.strays = []

theorem confClean_eq {w : ℕ} {l : Ledger Resource}
    (h : ∀ r ∈ cleaned w, r ∈ l.written → r ∈ l.acquired) :
    confClean w l = { l with released := l.released ++ (cleaned w).filter (· ∈ l.written) } := by
  have hone : confClean w l = l.forEach (cleaned w) free := (forEach_append _ _ _ _).symm
  rw [hone, forEach_free h]

/-- **`conf_clean` finishes the cleanup**, but for the EAL's arguments. -/
theorem ReadyToClean.exact {conf : PlConf} {w : ℕ} {l : Ledger Resource}
    {exempt : Resource → Bool} (h : ReadyToClean conf w l)
    (hargs : ∀ i < conf.dpdkArgv.length - 1, exempt (.dpdkArg i) = true) :
    (confClean w l).Exact exempt := by
  have hheld : ∀ r ∈ cleaned w, r ∈ l.written → r ∈ l.acquired :=
    fun r hr hw => (h.written r hr).mp hw
  rw [confClean_eq hheld]
  apply Exact.of_nodup
  · -- the statistics were released before, and `conf_clean` goes through each slot once
    refine List.nodup_append.mpr ⟨h.nodup, (cleaned_nodup w).filter _, ?_⟩
    intro r hr r' hr' heq
    subst heq
    exact statsSlots_not_cleaned r (h.released r hr) (List.mem_of_mem_filter hr')
  · intro r hr
    rcases List.mem_append.mp hr with hbefore | hnow
    · exact (h.acquired r).mpr (Or.inr hbefore)
    · exact hheld r (List.mem_of_mem_filter hnow) (by simpa using (List.mem_filter.mp hnow).2)
  · intro r hr hex
    rcases (h.acquired r).mp hr with hconf | hbefore
    · rcases mem_confAcquired_cases hconf with hclean | ⟨i, hi, rfl⟩
      · have hw : r ∈ l.written := (h.written r hclean).mpr hr
        exact List.mem_append_right _ (List.mem_filter.mpr ⟨hclean, by simpa using hw⟩)
      · rw [hargs i hi] at hex
        cases hex
    · exact List.mem_append_left _ hbefore
  · exact h.untouched

theorem readyToClean_start (conf : PlConf) (w : ℕ) : ReadyToClean conf w (start conf w) where
  acquired r := by simp [start]
  written r _ := Iff.rfl
  released r hr := absurd hr List.not_mem_nil
  nodup := List.nodup_nil
  untouched := rfl

/-- The warning of the clamp is one more for `conf_clean`. -/
theorem readyToClean_warnCores (m : Machine) (conf : PlConf) (w : ℕ) :
    ReadyToClean conf (warningsClamped m conf w) ((warnCores m conf w).effect (start conf w)) ∧
      ((warnCores m conf w).effect (start conf w)).released = [] := by
  unfold warnCores warningsClamped meiliLogRecord
  by_cases hclamp : m.lcoreCount < cores conf
  swap
  · rw [if_neg hclamp, if_neg fun h => hclamp h.1]
    exact ⟨readyToClean_start conf w, rfl⟩
  by_cases hmax : w = maxWarnings
  · rw [if_pos hclamp, if_pos hmax, if_neg fun h => h.2.1 hmax]
    exact ⟨readyToClean_start conf w, rfl⟩
  rw [if_pos hclamp, if_neg hmax]
  have hstart := readyToClean_start conf w
  cases hmem : m.noMem (.warning w) with
  | true =>
      -- nothing is recorded, and the slot is not counted
      rw [if_neg fun h => absurd h.2.2 (by decide)]
      refine ⟨?_, rfl⟩
      constructor
      · exact hstart.acquired
      · intro r hr
        have hne : r ≠ .warning w := fun h => warning_not_mem_cleaned w (h ▸ hr)
        show r ∈ confAcquired conf w ++ [.warning w] ↔ r ∈ confAcquired conf w
        simp [hne]
      · exact hstart.released
      · exact hstart.nodup
      · rfl
  | false =>
      rw [if_pos ⟨hclamp, hmax, rfl⟩]
      refine ⟨?_, rfl⟩
      constructor
      · intro r
        show r ∈ confAcquired conf w ++ [.warning w] ↔ _ ∨ r ∈ []
        rw [mem_confAcquired_succ]
        simp
      · exact fun r _ => Iff.rfl
      · exact hstart.released
      · exact hstart.nodup
      · rfl

/-- **`stats_init` cleans up behind itself**: of its four slots it has written `k + 1`,
and it releases the `k` it has acquired. -/
theorem statsInit_effect_of_fail {m : Machine} (h : (statsInit m).ok = false)
    (l : Ledger Resource) :
    ∃ k, (statsInit m).effect l =
      { acquired := l.acquired ++ statsSlots.take k
        written := l.written ++ statsSlots.take (k + 1)
        released := l.released ++ (statsSlots.take k).reverse
        strays := l.strays } := by
  simp only [statsInit, andThen_ok, onFail_ok, acquire_ok, Bool.and_eq_false_iff,
    Bool.not_eq_false'] at h
  simp only [statsInit, andThen, onFail, acquire]
  cases hpkt : m.noMem .inputPktStats with
  | true => exact ⟨0, by simp [statsSlots, write]⟩
  | false =>
      cases hstats : m.noMem .stats with
      | true => exact ⟨1, by simp [statsSlots, write, alloc, release]⟩
      | false =>
          cases hrm : m.noMem .rmStats with
          | true => exact ⟨2, by simp [statsSlots, write, alloc, release]⟩
          | false =>
              have hlat : m.noMem .latStats = true := by simpa [hpkt, hstats, hrm] using h
              exact ⟨3, by simp [statsSlots, write, alloc, release, hlat]⟩

theorem statsInit_effect_of_ok {m : Machine} (h : (statsInit m).ok = true)
    (l : Ledger Resource) :
    (statsInit m).effect l =
      { l with acquired := l.acquired ++ statsSlots, written := l.written ++ statsSlots } := by
  simp only [statsInit, andThen_ok, onFail_ok, acquire_ok, Bool.and_eq_true,
    Bool.not_eq_true'] at h
  obtain ⟨hpkt, hstats, hrm, hlat⟩ := h
  simp [statsInit, andThen, onFail, acquire, hpkt, hstats, hrm, hlat, statsSlots, write, alloc]

theorem readyToClean_statsInit {m : Machine} {conf : PlConf} {w : ℕ} {l : Ledger Resource}
    (h : ReadyToClean conf w l) (hrel : l.released = []) (hfail : (statsInit m).ok = false) :
    ReadyToClean conf w ((statsInit m).effect l) := by
  obtain ⟨k, heq⟩ := statsInit_effect_of_fail hfail l
  have hnodup : statsSlots.Nodup := by decide
  rw [heq, hrel]
  constructor
  · intro r
    have hacq := h.acquired r
    rw [hrel] at hacq
    simp only [List.mem_append, List.nil_append, List.mem_reverse, hacq]
    simp
  · intro r hr
    have hother : r ∉ statsSlots := fun hmem => statsSlots_not_cleaned r hmem hr
    have htake : ∀ n, r ∉ statsSlots.take n := fun n hmem => hother (List.mem_of_mem_take hmem)
    simp only [List.mem_append, htake, or_false]
    exact h.written r hr
  · intro r hr
    rw [List.nil_append, List.mem_reverse] at hr
    exact List.mem_of_mem_take hr
  · rw [List.nil_append, List.nodup_reverse]
    exact (List.take_sublist k statsSlots).nodup hnodup
  · exact h.untouched

section Run

variable {m : Machine} {conf : PlConf} {w : ℕ} {exempt : Resource → Bool}

theorem initDpdk_effect (l : Ledger Resource) : (initDpdk m conf).effect l = l := by
  unfold initDpdk andThen
  dsimp only
  split <;> rfl

/-- **A failure of `init_dpdk`** is cleaned up. -/
theorem exact_of_initDpdk_failed (h : (initDpdk m conf).ok = false)
    (hargs : ∀ i < conf.dpdkArgv.length - 1, exempt (.dpdkArg i) = true) :
    (runtimeInit m conf w).Exact exempt := by
  have hall : (initAll m conf w).ok = false := by
    unfold initAll
    rw [andThen_ok, h, Bool.false_and]
  have hrun : runtimeInit m conf w = confClean w (start conf w) := by
    unfold runtimeInit meiliRuntimeInit
    rw [onFail_effect_of_fail hall, h, initAll, andThen_effect_of_fail h, initDpdk_effect]
    rfl
  rw [hrun]
  exact (readyToClean_start conf w).exact hargs

/-- **A failure of `stats_init`** is cleaned up. -/
theorem exact_of_statsInit_failed (hdpdk : (initDpdk m conf).ok = true)
    (h : (statsInit m).ok = false)
    (hargs : ∀ i < conf.dpdkArgv.length - 1, exempt (.dpdkArg i) = true) :
    (runtimeInit m conf w).Exact exempt := by
  have hall : (initAll m conf w).ok = false := by
    unfold initAll
    rw [andThen_ok, andThen_ok, andThen_ok, h, Bool.false_and, Bool.and_false, Bool.and_false]
  have hrun : runtimeInit m conf w = confClean (warningsClamped m conf w)
      ((statsInit m).effect ((warnCores m conf w).effect (start conf w))) := by
    unfold runtimeInit meiliRuntimeInit
    rw [onFail_effect_of_fail hall, if_pos hdpdk, initAll, andThen_effect_of_ok hdpdk,
      andThen_effect_of_ok warnCores_ok, andThen_effect_of_fail h, initDpdk_effect]
  obtain ⟨hready, hrel⟩ := readyToClean_warnCores m conf w
  rw [hrun]
  exact (readyToClean_statsInit hready hrel h).exact hargs

end Run

/-! ## §2. What is never freed. -/

/-- `lat_stats` alone. -/
def isLatStats : Resource → Bool
  | .latStats => true
  | _ => false

/-- The copied arguments of the EAL. -/
def isDpdkArg : Resource → Bool
  | .dpdkArg _ => true
  | _ => false

theorem isLatStats_of_not_tracked (r : Resource) (h : tracked r = false) :
    isLatStats r = false := by
  cases r <;> first | rfl | cases h

theorem isDpdkArg_of_not_tracked (r : Resource) (h : tracked r = false) :
    isDpdkArg r = false := by
  cases r <;> first | rfl | cases h

section Leaks

variable {m : Machine} {conf : PlConf} {w : ℕ}

/-- **`stats_clean` does not free `lat_stats`**: a failure behind `stats_init` leaks it. -/
theorem leak_latStats (hfail : (meiliRuntimeInit m conf w).ok = false)
    (hdpdk : (initDpdk m conf).ok = true) (hstats : (statsInit m).ok = true) :
    .latStats ∈ (runtimeInit m conf w).acquired ∧
      .latStats ∉ (runtimeInit m conf w).released := by
  have hp := isLatStats_of_not_tracked
  obtain ⟨-, hrel⟩ := readyToClean_warnCores m conf w
  have hall : (initAll m conf w).ok = false := hfail
  have hinput : (initInput m (clampCores m conf)).ok = false := by
    unfold initAll at hall
    simpa [hdpdk, warnCores_ok, hstats] using hall
  -- behind `stats_init`
  have hafter : (statsInit m).effect ((warnCores m conf w).effect (start conf w)) = _ :=
    statsInit_effect_of_ok hstats _
  have hrun : runtimeInit m conf w = confClean (warningsClamped m conf w) (statsClean
      ((initInput m (clampCores m conf)).effect
        ((statsInit m).effect ((warnCores m conf w).effect (start conf w))))) := by
    unfold runtimeInit meiliRuntimeInit
    rw [onFail_effect_of_fail hall, if_pos hdpdk, initAll, andThen_effect_of_ok hdpdk,
      andThen_effect_of_ok warnCores_ok, andThen_effect_of_ok hstats,
      onFail_effect_of_fail hinput, initDpdk_effect]
  have hspares : Spares isLatStats fun l =>
      confClean (warningsClamped m conf w)
        (statsClean ((initInput m (clampCores m conf)).effect l)) :=
    fun l => (spares_confClean hp _ _).trans <| (spares_statsClean hp _).trans <|
      spares_initInput hp (fun _ => rfl) (fun _ => rfl) (fun _ => rfl) m (clampCores m conf) l
  rw [hrun, hafter]
  apply hspares.leak rfl
  · exact List.mem_append_right _ (by decide)
  · show Resource.latStats ∉ ((warnCores m conf w).effect (start conf w)).released
    rw [hrel]
    exact List.not_mem_nil

/-- **`conf_clean` does not free `dpdk_argv`**: a copied argument is leaked by any failure. -/
theorem leak_dpdkArg (hargs : 1 < conf.dpdkArgv.length) :
    .dpdkArg 0 ∈ (runtimeInit m conf w).acquired ∧
      .dpdkArg 0 ∉ (runtimeInit m conf w).released := by
  have hp := isDpdkArg_of_not_tracked
  have hspares : Spares isDpdkArg (meiliRuntimeInit m conf w).effect :=
    spares_onFail
      (spares_andThen (spares_initDpdk m conf) <| spares_andThen (spares_warnCores hp m conf w) <|
        spares_andThen (spares_statsInit hp rfl m) <|
          spares_onFail
            (spares_initInput hp (fun _ => rfl) (fun _ => rfl) (fun _ => rfl) m (clampCores m conf))
            (spares_statsClean hp))
      (spares_confClean hp _)
  apply hspares.leak rfl
  · refine List.mem_append_right _ (List.mem_map.mpr ⟨0, List.mem_range.mpr ?_, rfl⟩)
    omega
  · exact List.not_mem_nil

end Leaks

end Meili.Runtime
