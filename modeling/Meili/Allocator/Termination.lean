/-
  Meili.Allocator.Termination — when the allocator ends on a demand.

  The `while` loop of `resource_allocation` has no bound of its own, and
  nothing looks at the failure value of `find_next_snic`: `-1` is used as an
  index and denotes the last snic.  So the loop ends with every demand met,
  after at most one call per snic and stage (`EndsOnDemand`), exactly when in
  every configuration that enters the loop body a snic is found and its
  bandwidth carries at least one unit (`CanServe`).

    • `endsOnDemand_of_canServe` — each call then uses a fresh (stage, snic)
      pair, so the number of pairs left is a measure;
    • `canServe_of_endsOnDemand` — a body entered without a snic raises,
      repeats a pair, or changes nothing and is entered again.
-/
import Meili.Allocator.Run

namespace Meili.Allocator

open Meili.Lib

variable {k : ℕ}

/-! ## §1. The property and the condition. -/

/-- The (stage, snic) pairs of the calls made so far, the index `-1` read as
Python reads it. -/
def Conf.pairs {m : ℕ} (c : Conf k m) : List (Fin m × Option (Fin k)) :=
  c.calls.map fun x => (x.1, pySnic x.2)

/-- The call ends: it returns with every demand met, after at most one
`allocate_one_snic` call per stage and snic, and no iteration leaves the lists
unchanged.  (The script reports a lack of capacity nowhere.) -/
def EndsOnDemand (app : Application) (N : List (Fin k)) (T : Fin k → Vec) (B : Fin k → ℚ) :
    Prop :=
  (∃ c, app.Reach N T B c ∧ c.Returned ∧ c.pairs.Nodup ∧ ∀ s ∈ app.S, c.state.G s = zeroVec)
    ∧ ∀ c c', app.Reach N T B c → app.step N c = some c' →
        c'.calls ≠ c.calls → c'.state ≠ c.state

/-- The loop body is about to run for stage `s`. -/
def Conf.Entering {m : ℕ} (c : Conf k m) (s : Fin m) : Prop :=
  c.raised = none ∧ c.todo.head? = some s ∧ c.state.G s ≠ zeroVec

/-- In every configuration that enters the loop body, a snic of `N` passes the
tests of `find_next_snic`, and the one found has bandwidth for at least one
unit (or is not limited by bandwidth). -/
def CanServe (app : Application) (N : List (Fin k)) (T : Fin k → Vec) (B : Fin k → ℚ) : Prop :=
  ∀ c s, app.Reach N T B c → c.Entering s →
    ∃ n, findNextSnic app.S N app.W c.state s = some n ∧ HasRoom app.hot app.W c.state n s

section Stage

variable {m : ℕ} {hot : Fin m → Fin 3} {S : List (Fin m)} {N : List (Fin k)} {W : Fin m → Vec}

theorem Conf.Entering.cons {c : Conf k m} {s : Fin m} (h : c.Entering s) :
    ∃ rest, c.todo = s :: rest := by
  cases ht : c.todo with
  | nil =>
      have h1 := h.2.1
      rw [ht] at h1
      exact absurd h1 (by simp)
  | cons a rest =>
      have h1 := h.2.1
      rw [ht] at h1
      exact ⟨rest, by rw [Option.some.inj h1]⟩

/-- A demanded stage demands its hot component. -/
theorem Sane.demand_pos {σ : Alloc k m} (hσ : Sane hot σ) {s : Fin m}
    (hG : σ.G s ≠ zeroVec) : 0 < σ.G s (hot s) := by
  refine lt_of_le_of_ne (hσ.G_nonneg s _) fun h0 => hG ?_
  funext i
  by_cases hi : i = hot s
  · rw [hi]
    exact h0.symm
  · exact hσ.G_off s i hi

/-- An eligible snic has some of the demanded component. -/
theorem Eligible.supply_pos {σ : Alloc k m} (hσ : Sane hot σ) {s : Fin m} {n : Fin k}
    (hG : σ.G s ≠ zeroVec) (h : Eligible W σ s n) : 0 < σ.T n (hot s) :=
  lt_of_le_of_ne (hσ.T_nonneg n _)
    (h.available (hot s) (hσ.demand_pos hG).ne').symm

/-- A snic that is not eligible was used for the stage already, or has nothing
of the demanded component, or no bandwidth for a unit. -/
theorem not_eligible_cases (hW : UnitCost hot W) {σ : Alloc k m} (hσ : Sane hot σ) {s : Fin m}
    {n : Fin k} (hG : σ.G s ≠ zeroVec) (h : ¬ Eligible W σ s n) :
    (∃ i, σ.A s n i ≠ 0) ∨ σ.T n (hot s) = 0 ∨ ¬ HasRoom hot W σ n s := by
  by_contra hcon
  push Not at hcon
  obtain ⟨hA, hT, hroom⟩ := hcon
  have hTpos : 0 < σ.T n (hot s) := lt_of_le_of_ne (hσ.T_nonneg n _) hT.symm
  have hGpos := hσ.demand_pos hG
  refine h ⟨?_, ?_, ?_, ?_⟩
  · rw [← Bool.not_eq_true, resourceGeq_iff]
    intro hle
    exact absurd (hle (hot s)) (not_le.mpr hTpos)
  · rw [resourceGeq_iff]
    exact fun i => (hA i).le
  · intro i hi
    by_cases hc : i = hot s
    · rw [hc]
      exact hT
    · exact absurd (hσ.G_off s i hc) hi
  · -- without any bandwidth the offer is cut to nothing, so there is no room
    intro hbw
    have hsh := calculateSharableBw_nonneg hW hσ.A_nonneg n s
    have hB := hσ.B_nonneg n
    have hsh0 : calculateSharableBw W σ.A n s = 0 := by
      have hsum : calculateSharableBw W σ.A n s + σ.B n = 0 := hbw
      linarith
    have hbound : BwBound W σ n s := by
      by_cases hs : s.val = 0
      · exact Or.inr hs
      · left
        refine ⟨hs, ?_⟩
        rw [hsh0, calculateRequiredBw_eq hW s (hσ.G_nonneg s _)]
        exact mul_pos hGpos (hW.pos s)
    have hshort : Short hot W σ n s := by
      refine ⟨hbound, ?_⟩
      rw [hbw]
      exact mul_pos (lt_min hGpos hTpos) (hW.pos s)
    have hle := hroom hshort
    rw [hbw] at hle
    exact absurd (hW.pos s) (not_lt.mpr hle)

/-- What an iteration of the loop body appends to the calls. -/
theorem step_calls (hW : UnitCost hot W) {c c' : Conf k m} (hσ : Sane hot c.state)
    (hstep : resourceAllocationStep S N W c = some c') : c.calls <+: c'.calls := by
  obtain ⟨-, hcase⟩ := step_cases hW hσ hstep
  cases hcase with
  | leave s rest htodo hG heq => rw [heq]
  | noSnic s rest htodo hG hpy heq => rw [heq]; exact List.prefix_append _ _
  | book s rest n htodo hG hpy hroom heq => rw [heq]; exact List.prefix_append _ _
  | short s rest n htodo hG hpy hroom heq => rw [heq]; exact List.prefix_append _ _

end Stage

section Call

variable {app : Application} {N : List (Fin k)} {T : Fin k → Vec} {B : Fin k → ℚ}

/-- Calls are only ever appended. -/
theorem Application.Reach.calls_mono {c d : Conf k app.m} (hc : app.Reach N T B c)
    (hT : ∀ n i, 0 ≤ T n i) (hB : ∀ n, 0 ≤ B n) (hcd : Reaches (app.step N) c d) :
    c.calls <+: d.calls := by
  refine Reaches.invariant_reachable (fun d => c.calls <+: d.calls) (List.prefix_refl _) ?_ hcd
  intro x y hx ih hs
  exact ih.trans (step_calls app.unitCost (Application.Reach.sane (hc.trans hx) hT hB) hs)

/-- Booked pairs were called for. -/
theorem Application.Reach.mem_pairs {c : Conf k app.m} (h : app.Reach N T B c)
    (hT : ∀ n i, 0 ≤ T n i) (hB : ∀ n, 0 ≤ B n) :
    ∀ s n i, c.state.A s n i ≠ 0 → (s, some n) ∈ c.pairs := by
  refine Reaches.invariant_reachable
    (fun c => ∀ s n i, c.state.A s n i ≠ 0 → (s, some n) ∈ c.pairs) ?_ ?_ h
  · intro s n i hne
    exact absurd rfl hne
  · intro x y hx ih hs s n i hne
    have hσ := Application.Reach.sane hx hT hB
    have hmono : x.pairs ⊆ y.pairs :=
      List.map_subset _ (step_calls app.unitCost hσ hs).subset
    obtain ⟨-, hcase⟩ := step_cases app.unitCost hσ hs
    cases hcase with
    | leave s₁ rest htodo hG heq => rw [heq] at hne; exact hmono (ih s n i hne)
    | noSnic s₁ rest htodo hG hpy heq => rw [heq] at hne; exact hmono (ih s n i hne)
    | short s₁ rest n₁ htodo hG hpy hroom heq => rw [heq] at hne; exact hmono (ih s n i hne)
    | book s₁ rest n₁ htodo hG hpy hroom heq =>
        by_cases hold : x.state.A s n i = 0
        · -- booked by this very call
          rw [heq, grant_A, hold, zero_add] at hne
          obtain ⟨rfl, rfl, -⟩ : s = s₁ ∧ n = n₁ ∧ i = app.hot s₁ := by
            by_contra hno
            exact hne (if_neg hno)
          rw [heq]
          unfold Conf.pairs
          rw [List.map_append]
          refine List.mem_append_right _ (List.mem_singleton.mpr ?_)
          exact Prod.ext rfl hpy.symm
        · exact hmono (ih s n i hold)

/-! ## §2. With a snic to serve every iteration, the loop ends. -/

/-- The invariant under `CanServe`: no exception, and the calls so far are for
distinct pairs that all got something. -/
structure Served (app : Application) (c : Conf k app.m) : Prop where
  quiet : c.raised = none
  nodup : c.calls.Nodup
  booked : ∀ s r, (s, r) ∈ c.calls → ∃ n, r = some n ∧ 0 < c.state.A s n (app.hot s)

/-- A step under `CanServe`: the loop moves on to the next stage, or books a
positive offer of an eligible snic. -/
theorem CanServe.step_cases {c c' : Conf k app.m} (hserve : CanServe app N T B)
    (hc : app.Reach N T B c) (hT : ∀ n i, 0 ≤ T n i) (hB : ∀ n, 0 ≤ B n)
    (hstep : app.step N c = some c') :
    (∃ s rest, c.todo = s :: rest ∧ c' = { c with todo := rest })
      ∨ ∃ s n, Eligible app.W c.state s n ∧ 0 < offer app.hot app.W c.state n s
          ∧ c' = { c with
              state := grant app.hot app.W c.state n s (offer app.hot app.W c.state n s)
              calls := c.calls ++ [(s, some n)] } := by
  have hσ := hc.sane hT hB
  obtain ⟨hr, hcase⟩ := Allocator.step_cases app.unitCost hσ hstep
  have hfind : ∀ s rest, c.todo = s :: rest → c.state.G s ≠ zeroVec →
      ∃ n, findNextSnic app.S N app.W c.state s = some n
        ∧ HasRoom app.hot app.W c.state n s := by
    intro s rest htodo hG
    exact hserve c s hc ⟨hr, by rw [htodo]; rfl, hG⟩
  cases hcase with
  | leave s rest htodo hG heq => exact Or.inl ⟨s, rest, htodo, heq⟩
  | noSnic s rest htodo hG hpy heq =>
      -- excluded: a snic is found
      obtain ⟨n, hn, -⟩ := hfind s rest htodo hG
      rw [hn] at hpy
      exact absurd hpy (by simp [pySnic])
  | short s rest n htodo hG hpy hroom heq =>
      -- excluded: the snic found has room
      obtain ⟨n₁, hn, hroom₁⟩ := hfind s rest htodo hG
      rw [hn] at hpy
      rw [← Option.some.inj hpy] at hroom
      exact absurd hroom₁ hroom
  | book s rest n htodo hG hpy hroom heq =>
      obtain ⟨n₁, hn, -⟩ := hfind s rest htodo hG
      rw [hn] at hpy
      obtain rfl : n₁ = n := Option.some.inj hpy
      have helig := (findNextSnic_some app.S N app.W hn).2
      have hpos := offer_pos app.unitCost hroom (hσ.demand_pos hG) (helig.supply_pos hσ hG)
      rw [hn] at heq
      exact Or.inr ⟨s, n₁, helig, hpos, heq⟩

theorem CanServe.served {c : Conf k app.m} (hserve : CanServe app N T B)
    (hT : ∀ n i, 0 ≤ T n i) (hB : ∀ n, 0 ≤ B n) (h : app.Reach N T B c) : Served app c := by
  refine Reaches.invariant_reachable (fun c => Served app c) ?_ ?_ h
  · exact ⟨rfl, List.nodup_nil, fun s r hm => absurd hm (by simp [Application.start])⟩
  · intro x y hx ih hs
    have hσ := Application.Reach.sane hx hT hB
    rcases hserve.step_cases hx hT hB hs with ⟨s, rest, -, heq⟩ | ⟨s, n, helig, hpos, heq⟩
    · rw [heq]
      exact ⟨ih.quiet, ih.nodup, ih.booked⟩
    · rw [heq]
      refine ⟨ih.quiet, ?_, ?_⟩
      · -- the pair is new: its row is still zero
        refine List.nodup_append.mpr ⟨ih.nodup, List.nodup_singleton _, ?_⟩
        rintro a ha b hb rfl
        rw [List.mem_singleton.mp hb] at ha
        obtain ⟨n₁, hn₁, hA⟩ := ih.booked s (some n) ha
        rw [← Option.some.inj hn₁] at hA
        exact absurd ((resourceGeq_iff _ _).mp helig.unused (app.hot s)) (not_le.mpr hA)
      · intro s' r hm
        rcases List.mem_append.mp hm with hm | hm
        · -- an earlier booking only grows
          obtain ⟨n', hn', hA⟩ := ih.booked s' r hm
          refine ⟨n', hn', ?_⟩
          rw [grant_A]
          split <;> linarith
        · obtain ⟨rfl, rfl⟩ := Prod.mk.inj (List.mem_singleton.mp hm)
          refine ⟨n, rfl, ?_⟩
          have hA := hσ.A_nonneg s' n (app.hot s')
          rw [grant_A, if_pos ⟨rfl, rfl, rfl⟩]
          linarith

/-- There are only so many (stage, snic) pairs. -/
theorem Served.length_le {c : Conf k app.m} (h : Served app c) :
    c.calls.length ≤ app.m * (k + 1) := by
  have hcard := h.nodup.length_le_card
  simpa using hcard

/-- A served iteration changes the lists. -/
theorem CanServe.state_ne {c c' : Conf k app.m} (hserve : CanServe app N T B)
    (hT : ∀ n i, 0 ≤ T n i) (hB : ∀ n, 0 ≤ B n) (hc : app.Reach N T B c)
    (hstep : app.step N c = some c') (hcalls : c'.calls ≠ c.calls) : c'.state ≠ c.state := by
  rcases hserve.step_cases hc hT hB hstep with ⟨s, rest, -, heq⟩ | ⟨s, n, helig, hpos, heq⟩
  · rw [heq] at hcalls
    exact absurd rfl hcalls
  · intro hst
    -- the booked entry has grown by a positive offer
    have hA : c'.state.A s n (app.hot s) = c.state.A s n (app.hot s) := by rw [hst]
    rw [heq, grant_A, if_pos ⟨rfl, rfl, rfl⟩] at hA
    linarith

/-- **The loop ends when every iteration can be served.** -/
theorem endsOnDemand_of_canServe (hT : ∀ n i, 0 ≤ T n i) (hB : ∀ n, 0 ≤ B n)
    (hserve : CanServe app N T B) : EndsOnDemand app N T B := by
  refine ⟨?_, fun c c' hc hs => hserve.state_ne hT hB hc hs⟩
  -- every step uses up a stage or one of the `m * (k + 1)` pairs
  obtain ⟨c, hc, hhalt⟩ : ∃ c, app.Reach N T B c ∧ app.step N c = none :=
    exists_halted_of_measure (fun c => app.m * (k + 1) - c.calls.length + c.todo.length)
      (app.start T B) (by
      intro x y hx hs
      have hy := (hserve.served hT hB (Reaches.tail hx hs)).length_le
      rcases hserve.step_cases hx hT hB hs with ⟨s, rest, htodo, heq⟩ | ⟨s, n, -, -, heq⟩
      · rw [heq, htodo]
        simp
      · rw [heq] at hy ⊢
        simp only [List.length_append, List.length_singleton] at hy ⊢
        omega)
  have hsv := hserve.served hT hB hc
  have hret : c.Returned := by
    rcases (step_eq_none_iff c).mp hhalt with hr | ht
    · exact absurd hsv.quiet hr
    · exact ⟨hsv.quiet, ht⟩
  refine ⟨c, hc, hret, ?_, ?_⟩
  · -- every call was for a snic, which is the one Python indexes
    have hpairs : c.pairs = c.calls := by
      unfold Conf.pairs
      rw [List.map_congr_left (g := id), List.map_id]
      rintro ⟨s, r⟩ hm
      obtain ⟨n, rfl, -⟩ := hsv.booked s r hm
      rfl
    rw [hpairs]
    exact hsv.nodup
  · exact hc.met_of_returned hT hB hret

/-! ## §3. Without one, it does not. -/

/-- Two calls for one pair are one too many. -/
theorem pairs_dup {c d : Conf k app.m} (hc : app.Reach N T B c) (hT : ∀ n i, 0 ≤ T n i)
    (hB : ∀ n, 0 ≤ B n) (hcd : Reaches (app.step N) c d) {x : Fin app.m × Option (Fin k)}
    {xs : List (Fin app.m × Option (Fin k))} (hxs : c.calls = xs ++ [x])
    (hdup : (x.1, pySnic x.2) ∈ xs.map fun x => (x.1, pySnic x.2)) : ¬ d.pairs.Nodup := by
  intro hnd
  have hpre : c.pairs <+: d.pairs := (hc.calls_mono hT hB hcd).map _
  have hc' := hnd.sublist hpre.sublist
  unfold Conf.pairs at hc'
  rw [hxs, List.map_append] at hc'
  exact (List.nodup_append.mp hc').2.2 _ hdup _ (List.mem_singleton.mpr rfl) rfl

/-- **A loop that ends could serve every iteration.**  The snics `N` are all of
the cluster, so the last one is among those `find_next_snic` has rejected. -/
theorem canServe_of_endsOnDemand (hN : ∀ n, n ∈ N) (hT : ∀ n i, 0 ≤ T n i) (hB : ∀ n, 0 ≤ B n)
    (hends : EndsOnDemand app N T B) : CanServe app N T B := by
  obtain ⟨⟨cEnd, hEnd, hret, hnd, -⟩, -⟩ := hends
  have hhalt : app.step N cEnd = none := (step_eq_none_iff cEnd).mpr (Or.inr hret.2)
  intro c s hc hent
  have hσ := hc.sane hT hB
  obtain ⟨rest, htodo⟩ := hent.cons
  obtain ⟨hr, -, hG⟩ := hent
  -- a call that raises would be the end of the run
  have hnoraise : ∀ d e, app.step N c = some d → d.raised = some e → False := by
    intro d e hs hd
    have hdhalt : app.step N d = none :=
      (step_eq_none_iff d).mpr (Or.inl (by rw [hd]; simp))
    have heq := Reaches.eq_of_halted hdhalt (Reaches.of_halted hhalt hEnd (hc.tail hs))
    have hquiet := hret.1
    rw [heq, hd] at hquiet
    exact absurd hquiet (by simp)
  have hroom : ∀ n, pySnic (findNextSnic app.S N app.W c.state s) = some n →
      HasRoom app.hot app.W c.state n s := by
    intro n hpy
    by_contra hno
    exact hnoraise _ _ (step_short app.unitCost hσ hr htodo hG hpy hno) rfl
  cases hfind : findNextSnic app.S N app.W c.state s with
  | some n => exact ⟨n, rfl, hroom n (by rw [hfind]; rfl)⟩
  | none =>
      exfalso
      cases hpy : pySnic (findNextSnic app.S N app.W c.state s) with
      | none => exact hnoraise _ _ (step_call_none hr htodo hG hpy) rfl
      | some ℓ =>
          -- the index -1: snic `ℓ` is called for although it was rejected
          have hrej := findNextSnic_none app.S N app.W hfind ℓ (hN ℓ)
          rcases not_eligible_cases app.unitCost hσ hG hrej with ⟨i, hA⟩ | hT0 | hno
          · -- used for this stage before
            have hc₁ : app.Reach N T B _ :=
              hc.tail (step_book app.unitCost hσ hr htodo hG hpy (hroom ℓ hpy))
            refine pairs_dup hc₁ hT hB (Reaches.of_halted hhalt hEnd hc₁) rfl ?_ hnd
            rw [hpy]
            exact hc.mem_pairs hT hB s ℓ i hA
          · -- nothing to book: the state stays, and the same call is made again
            have hstep := step_idle app.unitCost hσ hr htodo hG hpy hT0
            have hstep₂ := step_idle (c := { c with
                calls := c.calls ++ [(s, findNextSnic app.S N app.W c.state s)] })
              app.unitCost hσ hr htodo hG hpy hT0
            have hc₂ : app.Reach N T B _ := (hc.tail hstep).tail hstep₂
            refine pairs_dup hc₂ hT hB (Reaches.of_halted hhalt hEnd hc₂) rfl ?_ hnd
            rw [List.map_append]
            exact List.mem_append_right _ (List.mem_singleton.mpr rfl)
          · exact hno (hroom ℓ hpy)

/-- **When the allocator ends.**  On a cluster whose snics are `N`, the call
ends on its demand if and only if every iteration can be served. -/
theorem resourceAllocation_ends_iff (app : Application) (N : List (Fin k)) (T : Fin k → Vec)
    (B : Fin k → ℚ) (hN : ∀ n, n ∈ N) (hT : ∀ n i, 0 ≤ T n i) (hB : ∀ n, 0 ≤ B n) :
    EndsOnDemand app N T B ↔ CanServe app N T B :=
  ⟨canServe_of_endsOnDemand hN hT hB, endsOnDemand_of_canServe hT hB⟩

/-- **The endless loop.**  Once no snic is found and the last one has nothing
of the demanded component, every later iteration makes the same call, and the
lists, the stage and the absence of an exception stay as they are. -/
theorem spins_forever {c d : Conf k app.m} (hσ : Sane app.hot c.state) {s : Fin app.m}
    {rest : List (Fin app.m)} {ℓ : Fin k} (hr : c.raised = none) (htodo : c.todo = s :: rest)
    (hG : c.state.G s ≠ zeroVec)
    (hpy : pySnic (findNextSnic app.S N app.W c.state s) = some ℓ)
    (hT0 : c.state.T ℓ (app.hot s) = 0) (hcd : Reaches (app.step N) c d) :
    d.state = c.state ∧ d.todo = c.todo ∧ d.raised = none := by
  refine Reaches.invariant (fun d => d.state = c.state ∧ d.todo = c.todo ∧ d.raised = none)
    ⟨rfl, rfl, hr⟩ ?_ hcd
  rintro x y ⟨hst, htd, hra⟩ hs
  have hidle := step_idle (S := app.S) (N := N) (c := x) app.unitCost (hst ▸ hσ) hra
    (htd.trans htodo) (hst ▸ hG) (hst ▸ hpy) (hst ▸ hT0)
  rw [← Option.some.inj (hidle.symm.trans hs)]
  exact ⟨hst, htd, hra⟩

end Call

/-! ## §4. A demand no snic can meet. -/

/-- On a snic without cores the allocator never ends, and reports nothing. -/
theorem oneCore_never_ends :
    ¬ EndsOnDemand oneCore oneSnic (fun _ => zeroVec) (fun _ => 100) := by
  intro h
  obtain ⟨⟨c, hc, hret, -, -⟩, -⟩ := h
  have hσ : Sane oneCore.hot (oneCore.start (k := 1) (fun _ => zeroVec) (fun _ => 100)).state :=
    oneCore.start_sane (fun _ _ => le_refl 0) (fun _ => by norm_num)
  have hG : (oneCore.start (k := 1) (fun _ => zeroVec) (fun _ => 100)).state.G (0 : Fin 1)
      ≠ zeroVec := fun h => absurd (congrFun h 0) (by decide +kernel)
  have hpy : pySnic (findNextSnic oneCore.S oneSnic oneCore.W
      (oneCore.start (fun _ => zeroVec) (fun _ => 100)).state (0 : Fin 1)) = some 0 := by
    decide +kernel
  -- the stage is never left, but a call that returns has left it
  have hspin := spins_forever hσ rfl rfl hG hpy rfl hc
  have htodo := hspin.2.1
  rw [hret.2] at htodo
  exact absurd htodo (by decide)

/-- The equivalence on a snic that has the core: both sides are decided there. -/
theorem oneCore_ends_iff :
    EndsOnDemand oneCore oneSnic (fun _ => unitVec core 1) (fun _ => 100)
      ↔ CanServe oneCore oneSnic (fun _ => unitVec core 1) (fun _ => 100) :=
  resourceAllocation_ends_iff oneCore oneSnic (fun _ => unitVec core 1) (fun _ => 100)
    (by decide) (by decide +kernel) (by decide +kernel)

end Meili.Allocator
