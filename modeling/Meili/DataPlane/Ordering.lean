/-
  Meili.DataPlane.Ordering — in which order packets leave the pipeline.

  Behind the tail rings `reorder_exec` is commented out: `mbuf_out = mbuf`, so
  main releases packets in the order in which it happens to collect them.  With
  a single worker that is the order of entry, as the route is one FIFO
  (`OneRoute`); with more workers a later packet on a fast route overtakes an
  earlier one on a slow route (`overtakes`).
-/
import Meili.DataPlane.Progress
import Meili.DataPlane.Sequencing

namespace Meili.DataPlane

open Meili.Lib

variable {W : ℕ} {cfg : Config}

/-! ## §1. One worker. -/

/-- The part of the slice that main still offers to the head ring. -/
def Main.offeredSlice (m : Main W) : List Mbuf :=
  match m.pc with
  | .enqueue => (m.mbufIn.drop (m.batchCntTotEnq + m.totEnq)).take m.toEnq
  | _ => []

/-- All packets take the route of worker `j`. -/
structure OneRoute (j : Fin W) (s : State W) : Prop where
  sequenced : s.sequenced = s.dispatched j ++ s.main.offeredSlice
  freed : s.freed = s.collected j

theorem Main.offeredSlice_enqueue {m : Main W} (hpc : m.pc = .enqueue) :
    m.offeredSlice = (m.mbufIn.drop (m.batchCntTotEnq + m.totEnq)).take m.toEnq := by
  unfold Main.offeredSlice
  rw [hpc]

theorem Main.offeredSlice_eq_nil {m : Main W} (hpc : m.pc ≠ .enqueue) : m.offeredSlice = [] := by
  unfold Main.offeredSlice
  split
  next h => exact absurd h hpc
  next => rfl

/-- A slice of `n` entries is its first `k` ones and the others. -/
theorem take_drop_split {α : Type*} (l : List α) (a : ℕ) {n k : ℕ} (hk : k ≤ n) :
    (l.drop a).take n = (l.drop a).take k ++ (l.drop (a + k)).take (n - k) := by
  rw [← List.drop_drop, ← List.take_add, Nat.add_sub_cancel' hk]

section OneRoute

variable {s : State W} {j : Fin W}

theorem OneRoute.receive (h : OneRoute j s) (hpc : s.main.pc = .receive) (burst : List Mbuf) :
    OneRoute j (s.receive burst) := by
  have hseq := h.sequenced
  rw [Main.offeredSlice_eq_nil (by rw [hpc]; decide)] at hseq
  unfold State.receive
  split
  · split
    · exact ⟨hseq, h.freed⟩
    · exact h
  · exact ⟨hseq, h.freed⟩

theorem OneRoute.inner (h : OneRoute j s) (hpc : s.main.pc = .inner) (cfg : Config) :
    OneRoute j (s.inner cfg) := by
  have hseq := h.sequenced
  rw [Main.offeredSlice_eq_nil (by rw [hpc]; decide), List.append_nil] at hseq
  unfold State.inner
  split
  · refine ⟨?_, h.freed⟩
    show s.sequenced ++ _ = s.dispatched j ++ _
    rw [hseq]
    rfl
  · refine ⟨?_, h.freed⟩
    show s.sequenced = s.dispatched j ++ []
    rw [hseq, List.append_nil]

theorem OneRoute.enqueue (h : OneRoute j s) (hone : ∀ i, i = j) (hmain : s.main.Sane)
    (hpc : s.main.pc = .enqueue) {k : ℕ}
    (hk : s.main.totEnq < s.main.batchCntEnq → k ≤ s.main.toEnq) : OneRoute j (s.enqueue k) := by
  have hseq := h.sequenced
  obtain ⟨-, hsum⟩ := hmain.enqueue hpc
  rw [Main.offeredSlice_enqueue hpc] at hseq
  unfold State.enqueue
  split
  next hlt =>
    have hk' := hk hlt
    have hj := hone s.main.ringInIndex
    refine ⟨?_, h.freed⟩
    -- the entries stored move from the offered slice to the route
    have hoffered : Main.offeredSlice
        { s.main with totEnq := s.main.totEnq + k, toEnq := s.main.toEnq - k }
        = (s.main.mbufIn.drop (s.main.batchCntTotEnq + (s.main.totEnq + k))).take
            (s.main.toEnq - k) :=
      Main.offeredSlice_enqueue hpc
    dsimp only
    rw [hoffered, hj, Function.update_self, List.append_assoc, ← Nat.add_assoc,
      ← take_drop_split _ _ hk']
    exact hseq
  next hge =>
    refine ⟨?_, h.freed⟩
    -- nothing is offered any more
    have hnone : s.main.toEnq = 0 := by omega
    rw [hnone, List.take_zero] at hseq
    exact hseq

theorem OneRoute.aggregate (h : OneRoute j s) (hone : ∀ i, i = j) (hpc : s.main.pc = .aggregate)
    (k : ℕ) : OneRoute j (s.aggregate k) := by
  have hseq := h.sequenced
  rw [Main.offeredSlice_eq_nil (by rw [hpc]; decide)] at hseq
  have hj := hone s.main.ringOutIndex
  constructor
  · show s.sequenced = s.dispatched j ++ Main.offeredSlice (Main.finish _)
    rw [Main.offeredSlice_eq_nil (Main.finish_pc_ne _ (by decide) (by decide))]
    exact hseq
  · show s.freed ++ (s.tail s.main.ringOutIndex).take k
      = Function.update s.collected s.main.ringOutIndex _ j
    rw [h.freed, hj, Function.update_self]

theorem OneRoute.of_worker {s' : State W} (h : OneRoute j s) (hsame : SameMain s s')
    (hseq : s'.sequenced = s.sequenced) : OneRoute j s' := by
  constructor
  · rw [hseq, hsame.dispatched, hsame.main]
    exact h.sequenced
  · rw [hsame.freed, hsame.collected]
    exact h.freed

theorem OneRoute.step {s' : State W} (h : OneRoute j s) (hone : ∀ i, i = j) (hflow : Flow s)
    (hstep : Step cfg s s') : OneRoute j s' := by
  cases hstep with
  | receive burst hpc hlen hnodup hfresh => exact h.receive hpc burst
  | inner hpc => exact h.inner hpc cfg
  | enqueue k hpc hk => exact h.enqueue hone hflow.main hpc fun hlt => cfg.ring.enq_le (hk hlt)
  | aggregate k hpc hk => exact h.aggregate hone hpc k
  | workerDequeue i k hpc hk =>
      exact h.of_worker (sameMain_workerDequeue s i k) (onlyWorker_dequeue s i k).sequenced
  | workerExec i hpc => exact h.of_worker (sameMain_workerExec s i) (onlyWorker_exec s i).sequenced
  | workerEnqueue i k hpc hk =>
      exact h.of_worker (sameMain_workerEnqueue s i k) (onlyWorker_enqueue s i k).sequenced

end OneRoute

theorem Reachable.oneRoute [NeZero W] {s : State W} (h : Reachable cfg s) {j : Fin W}
    (hone : ∀ i, i = j) : OneRoute j s :=
  (ReflTransGen.invariant (fun s => Flow s ∧ OneRoute j s) ⟨Flow.init W, rfl, rfl⟩
    (fun _ _ hx hs => ⟨hx.1.step hs, hx.2.step hone hx.1 hs⟩) h).2

/-- With one worker, packets leave in the order in which they were stamped. -/
theorem Reachable.freed_prefix [NeZero W] {s : State W} (h : Reachable cfg s) {j : Fin W}
    (hone : ∀ i, i = j) : s.freed <+: s.sequenced := by
  have hroute := h.oneRoute hone
  rw [hroute.freed, hroute.sequenced, (h.flow.route j).fifo, List.append_assoc, List.append_assoc,
    List.append_assoc]
  exact List.prefix_append _ _

/-- Below `2^32` packets, numbers grow with the place in the stream. -/
theorem StampedReachable.released_sorted [NeZero W] {x : Stamped W}
    (h : StampedReachable cfg x) {j : Fin W} (hone : ∀ i, i = j)
    (hfew : x.st.received.length < 2 ^ 32) : x.released.Pairwise (· < ·) := by
  have hreach := h.reachable
  have hstamps := h.stamps
  obtain ⟨rest, hrest⟩ := hreach.freed_prefix hone
  have hlen : x.st.sequenced.length ≤ x.st.received.length := by
    rw [hreach.sequenced, List.length_append]
    exact Nat.le_add_right _ _
  have hplace : ∀ i (hi : i < x.released.length), x.released[i] = UInt32.ofNat i
      ∧ i < x.st.sequenced.length := by
    intro i hi
    have hi' : i < x.st.freed.length := by
      rw [← List.length_map (f := x.field)]
      exact hi
    have hget : x.st.sequenced[i]? = some x.st.freed[i] := by
      rw [← hrest, List.getElem?_append_left hi']
      exact List.getElem?_eq_getElem hi'
    refine ⟨?_, (List.getElem?_eq_some_iff.mp hget).1⟩
    rw [← hstamps.field i _ hget]
    exact List.getElem_map x.field
  rw [List.pairwise_iff_getElem]
  intro a b ha hb hab
  obtain ⟨hva, hla⟩ := hplace a ha
  obtain ⟨hvb, hlb⟩ := hplace b hb
  rw [hva, hvb, UInt32.lt_iff_toNat_lt, UInt32.toNat_ofNat', UInt32.toNat_ofNat',
    Nat.mod_eq_of_lt (by omega), Nat.mod_eq_of_lt (by omega)]
  exact hab

/-! ## §2. Two workers and more. -/

/-- Packet 1 is released, and packet 0 waits on head ring 0, with `i` rounds made. -/
structure Overtaken [NeZero W] (s : State W) (i : ℕ) : Prop where
  rounds : AfterRounds s i
  freed : s.freed = [1]
  head : s.head 0 = [0]
  tail : s.tail 0 = []
  worker : (s.worker 0).pc = .dequeue
  fresh : ∀ j : Fin W, i ≤ j.val → s.head j = [] ∧ s.tail j = []

section Overtakes

variable [NeZero W]

/-- Two rounds, of which only the second one is served. -/
theorem overtaken_two (hring : cfg.ring.Productive) (hin : 0 < cfg.batchSizeIn)
    (hburst : 0 < cfg.burstSize) (hW : 1 < W) :
    ∃ s : State W, Reachable cfg s ∧ Overtaken s 2 := by
  have hinit := AfterRounds.init W
  obtain ⟨t, hrun, hone, hhead, htail, hworker, hfreed⟩ :=
    hinit.lazy hring hin hring.capacity_pos rfl
  have hring₁ : t.main.ringInIndex.val = 1 := by
    rw [hone.ringIn]
    exact Nat.mod_eq_of_lt hW
  have hne : t.main.ringInIndex ≠ 0 := fun h0 => by
    rw [h0] at hring₁
    exact absurd hring₁ (by simp)
  have hhead₁ : t.head t.main.ringInIndex = [] := by
    rw [hhead]
    exact Function.update_of_ne hne _ _
  have hsane : (t.worker t.main.ringInIndex).Sane := by
    rw [hworker]
    exact (Flow.init W).worker _
  obtain ⟨s, k, hrun', htwo, hk, hfreed', hothers⟩ :=
    hone.served hring hin hburst hsane (by rw [hworker]; rfl)
      (by rw [hhead₁]; exact hring.capacity_pos) (by rw [htail]; rfl)
  obtain ⟨hw, hh, ht⟩ := hothers 0 (Ne.symm hne)
  have hhead₀ : t.head 0 = [0] := by
    rw [hhead]
    exact Function.update_self _ _ _
  refine ⟨s, hrun.trans hrun', htwo, ?_, by rw [hh, hhead₀], by rw [ht, htail]; rfl,
    by rw [hw, hworker]; rfl, ?_⟩
  · rw [hfreed', hfreed, hhead₁]
    show ([] : List Mbuf) ++ ([] ++ [1]).take k = [1]
    rw [List.nil_append, List.nil_append, List.take_of_length_le hk]
  · intro j hj
    have hj₁ : j ≠ t.main.ringInIndex := fun h => by
      rw [h, hring₁] at hj
      omega
    have hj₀ : j ≠ 0 := fun h => by
      rw [h] at hj
      exact absurd hj (by simp)
    obtain ⟨-, hhj, htj⟩ := hothers j hj₁
    rw [hhj, htj, htail, hhead]
    exact ⟨Function.update_of_ne hj₀ _ _, rfl⟩

/-- The other rings take their turns, and no worker moves. -/
theorem Overtaken.rotate (hring : cfg.ring.Productive) (hin : 0 < cfg.batchSizeIn)
    {s : State W} {i : ℕ} (h : Overtaken s i) (hi : 0 < i) (hiW : i ≤ W) :
    ∃ s', Run cfg s s' ∧ Overtaken s' W := by
  -- induction on the rings that are left
  generalize hleft : W - i = left
  induction left generalizing s i with
  | zero =>
      obtain rfl : i = W := by omega
      exact ⟨s, .refl, h⟩
  | succ left ih =>
      have hidx : s.main.ringInIndex.val = i := by
        rw [h.rounds.ringIn]
        exact Nat.mod_eq_of_lt (by omega)
      have hne : s.main.ringInIndex ≠ 0 := fun h0 => by
        rw [h0] at hidx
        exact absurd hidx (by simp; omega)
      obtain ⟨hhead₀, htail₀⟩ := h.fresh s.main.ringInIndex (by omega)
      obtain ⟨t, hrun, hrounds, hhead, htail, hworker, hfreed⟩ :=
        h.rounds.lazy hring hin (by rw [hhead₀]; exact hring.capacity_pos) htail₀
      have hnext : Overtaken t (i + 1) := by
        refine ⟨hrounds, by rw [hfreed]; exact h.freed, ?_, by rw [htail]; exact h.tail,
          by rw [hworker]; exact h.worker, ?_⟩
        · rw [hhead, Function.update_of_ne (Ne.symm hne)]
          exact h.head
        · intro j hj
          have hjne : j ≠ s.main.ringInIndex := fun heq => by
            rw [heq, hidx] at hj
            omega
          rw [hhead, htail, Function.update_of_ne hjne]
          exact h.fresh j (by omega)
      obtain ⟨s', hrun', hdone⟩ := ih hnext (by omega) (by omega) (by omega)
      exact ⟨s', hrun.trans hrun', hdone⟩

/-- **A packet on a fast route overtakes one on a slow route.** -/
theorem overtakes (hring : cfg.ring.Productive) (hcap : 1 < cfg.ring.capacity)
    (hin : 0 < cfg.batchSizeIn) (hburst : 0 < cfg.burstSize) (hW : 1 < W) :
    ∃ (s : State W) (rest : List Mbuf), Reachable cfg s ∧ s.received = List.range (W + 1)
      ∧ s.sequenced = List.range (W + 1) ∧ s.freed = 1 :: 0 :: rest := by
  obtain ⟨s, hreach, htwo⟩ := overtaken_two hring hin hburst hW
  obtain ⟨t, hrun, hdone⟩ := htwo.rotate hring hin (by omega) (by omega)
  have hreach' : Reachable cfg t := hreach.trans hrun
  -- ring 0 has its turn again, and now its worker moves
  have hidx : t.main.ringInIndex = 0 := by
    refine Fin.ext ?_
    rw [hdone.rounds.ringIn, Nat.mod_self]
    rfl
  obtain ⟨u, k, hrun', hrounds, hk, hfreed, -⟩ := hdone.rounds.served hring hin hburst
    (hreach'.flow.worker _) (by rw [hidx]; exact hdone.worker)
    (by rw [hidx, hdone.head]; exact hcap) (by rw [hidx]; exact hdone.tail)
  obtain ⟨n, rfl⟩ : ∃ n, k = n + 1 := ⟨k - 1, by omega⟩
  refine ⟨u, ([] ++ [W]).take n, hreach'.trans hrun', hrounds.received, hrounds.sequenced, ?_⟩
  rw [hfreed, hidx, hdone.head, hdone.freed]
  rfl

end Overtakes

/-! ## §3. When packets leave in order. -/

/-- **Packets leave in sequence order** (below `2^32` of them, in every
interleaving) if and only if there is one worker. -/
theorem released_sorted_iff [NeZero W] {cfg : Config} (hring : cfg.ring.Productive)
    (hcap : cfg.ring.capacity = ringSize - 1) (hin : 0 < cfg.batchSizeIn)
    (hburst : 0 < cfg.burstSize) (hW : (W : ℤ) ≤ intMax) :
    (∀ x : Stamped W, StampedReachable cfg x → x.st.received.length < 2 ^ 32 →
        x.released.Pairwise (· < ·)) ↔ W = 1 := by
  constructor
  · intro h
    by_contra hne
    have hpos : 0 < W := Nat.pos_of_ne_zero (NeZero.ne W)
    obtain ⟨s, rest, hreach, hrec, hseq, hfreed⟩ :=
      overtakes hring (by rw [hcap]; decide) hin hburst (show 1 < W by omega)
    obtain ⟨x, hx, rfl⟩ := hreach.stamped
    have hsorted := h x hx (by
      rw [hrec, List.length_range]
      unfold intMax at hW
      omega)
    have hstamps := hx.stamps
    have hstamp : ∀ i, i < W + 1 → x.field i = UInt32.ofNat i := by
      intro i hi
      refine hstamps.field i i ?_
      rw [hseq, List.getElem?_range hi]
    unfold Stamped.released at hsorted
    rw [hfreed, List.map_cons, List.map_cons, hstamp 1 (by omega), hstamp 0 (by omega)] at hsorted
    have hlt := (List.pairwise_cons.mp hsorted).1 _ (List.mem_cons_self ..)
    exact absurd hlt (by decide)
  · rintro rfl x hx hfew
    exact hx.released_sorted (j := 0) (fun i => Subsingleton.elim i 0) hfew

/-- Packet 7 is dispatched to head ring 0 and packet 8 to head ring 1; worker 1 is
faster than worker 0, and the idle poll that follows collects packet 7. -/
def overtaking (W : ℕ) [NeZero W] : State W :=
  State.init W |>.receive [7] |>.inner fullBursts |>.enqueue 1 |>.enqueue 0 |>.aggregate 0
    |>.inner fullBursts |>.receive [8] |>.inner fullBursts |>.enqueue 1 |>.enqueue 0
    |>.workerDequeue 1 1 |>.workerExec 1 |>.workerExec 1 |>.workerEnqueue 1 1
    |>.aggregate 1 |>.inner fullBursts
    |>.workerDequeue 0 1 |>.workerExec 0 |>.workerExec 0 |>.workerEnqueue 0 1
    |>.receive [] |>.aggregate 1

theorem overtaking_reachable : Reachable fullBursts (overtaking 2) :=
  Reachable.init 2 fullBursts
    |>.step (.receive _ [7] rfl (by decide) (by decide) (by decide))
    |>.step (.inner _ rfl)
    |>.step (.enqueue _ 1 rfl fun _ => rfl)
    |>.step (.enqueue _ 0 rfl fun h => absurd h (by decide))
    |>.step (.aggregate _ 0 rfl rfl)
    |>.step (.inner _ rfl)
    |>.step (.receive _ [8] rfl (by decide) (by decide) (by decide))
    |>.step (.inner _ rfl)
    |>.step (.enqueue _ 1 rfl fun _ => rfl)
    |>.step (.enqueue _ 0 rfl fun h => absurd h (by decide))
    |>.step (.workerDequeue _ 1 1 rfl rfl)
    |>.step (.workerExec _ 1 rfl)
    |>.step (.workerExec _ 1 rfl)
    |>.step (.workerEnqueue _ 1 1 rfl fun _ => rfl)
    |>.step (.aggregate _ 1 rfl rfl)
    |>.step (.inner _ rfl)
    |>.step (.workerDequeue _ 0 1 rfl rfl)
    |>.step (.workerExec _ 0 rfl)
    |>.step (.workerExec _ 0 rfl)
    |>.step (.workerEnqueue _ 0 1 rfl fun _ => rfl)
    |>.step (.receive _ [] rfl (by decide) (by decide) (by decide))
    |>.step (.aggregate _ 1 rfl rfl)

/-- Packet 8, with number 1, is released before packet 7, with number 0. -/
theorem overtaking_unsorted :
    ¬ ∀ x : Stamped 2, StampedReachable fullBursts x → x.st.received.length < 2 ^ 32 →
        x.released.Pairwise (· < ·) := by
  intro h
  obtain ⟨x, hx, hst⟩ := overtaking_reachable.stamped
  have hsorted := h x hx (by rw [hst]; decide)
  have h7 : x.field 7 = 0 := hx.stamps.field 0 7 (by rw [hst]; rfl)
  have h8 : x.field 8 = 1 := hx.stamps.field 1 8 (by rw [hst]; rfl)
  unfold Stamped.released at hsorted
  rw [hst] at hsorted
  have hfreed : (overtaking 2).freed = [8, 7] := rfl
  rw [hfreed, List.map_cons, List.map_cons, List.map_nil, h7, h8] at hsorted
  exact absurd hsorted (by decide)

/-- The equivalence for one worker. -/
theorem oneWorker_sorted_iff :
    (∀ x : Stamped 1, StampedReachable fullBursts x → x.st.received.length < 2 ^ 32 →
        x.released.Pairwise (· < ·)) ↔ 1 = 1 :=
  released_sorted_iff (atomicMin_productive (by decide)) rfl (by decide) (by decide) (by decide)

end Meili.DataPlane
