/-
  Meili.Network.Advance — what the instances can do while main stands still.

  All loops poll, so a party can always take a step; the question is whether a packet moves.
  An instance that has a packet before it, or a batch in hand, moves one after some idle polls at
  most, or it has processed its whole batch and waits for room in the ring that it enqueues to
  (`advances_or_waits`).  Behind a full ring this goes on from stage to stage: either a packet
  moves or the rings are full all the way to main (`Clogged`, `advances_or_clogged`).

  While main waits for room in a ring that is clogged, the ring stays so (`Clogged.step`).
-/
import Meili.Network.Bounds

namespace Meili.Network

open Meili.Lib Meili.DataPlane Meili.Runtime

/-! ## §1. Runs that receive nothing. -/

/-- A step that receives nothing. -/
def Settle (cfg : Config) (pl : Pipeline) (s s' : State) : Prop :=
  Step cfg pl s s' ∧ s'.received = s.received

/-- `s'` lies ahead of `s`, and nothing is received in between. -/
abbrev Settles (cfg : Config) (pl : Pipeline) : State → State → Prop :=
  Relation.ReflTransGen (Settle cfg pl)

/-- The rings and the sizes of the bursts allow packets to move. -/
structure Moving (cfg : Config) : Prop where
  ring : cfg.ring.Productive
  burst : 0 < cfg.burstSize
  slice : 0 < cfg.batchSizeIn

/-- How many moves a packet has to go at most. -/
def Pipeline.rank (pl : Pipeline) : Place → ℕ
  | .pending => 3 * pl.nbPlStages + 2
  | .ring r => 3 * (pl.nbPlStages - pl.depth r) + 1
  | .todo i _ => 3 * (pl.nbPlStages - i)
  | .done i _ => 3 * (pl.nbPlStages - i) - 1
  | .freed => 0

/-- No packet moves from `s` to `s'`. -/
def Level (pl : Pipeline) (s s' : State) : Prop := ∀ t, Tracked pl s t → Tracked pl s' t

/-- From `s` to `s'` the packets come nearer to the exit. -/
def Nearer (pl : Pipeline) (s s' : State) : Prop :=
  ∀ t, Tracked pl s t → ∃ t', Tracked pl s' t' ∧ t'.weight pl.rank < t.weight pl.rank

/-- The instances can move a packet. -/
def Advances (cfg : Config) (pl : Pipeline) (s : State) : Prop :=
  ∃ s', Settles cfg pl s s' ∧ s'.main = s.main ∧ s'.freed = s.freed ∧ Nearer pl s s'

section Runs

variable {fails : ℕ → Bool} {cfg : Config} {pl : Pipeline} {s s' s'' : State}

theorem Settles.received (h : Settles cfg pl s s') : s'.received = s.received :=
  ReflTransGen.invariant (fun x => x.received = s.received) rfl
    (fun _ _ hx hstep => hstep.2.trans hx) h

theorem Reachable.settles (hs : Reachable cfg pl s) (h : Settles cfg pl s s') :
    Reachable cfg pl s' :=
  hs.trans (Relation.ReflTransGen.mono (fun _ _ hstep => hstep.1) _ _ h)

theorem Level.trans (h : Level pl s s') (h' : Level pl s' s'') : Level pl s s'' :=
  fun t ht => h' t (h t ht)

/-- The places hold the same. -/
theorem Level.contents (h : Level pl s s') {t : Places Place Mbuf} (ht : Tracked pl s t) :
    s'.contents = s.contents :=
  (h t ht).contents.symm.trans ht.contents

theorem Nearer.of_level (h : Level pl s s') (h' : Nearer pl s' s'') : Nearer pl s s'' :=
  fun t ht => h' t (h t ht)

theorem Advances.of_level (hrun : Settles cfg pl s s') (hmain : s'.main = s.main)
    (hfreed : s'.freed = s.freed) (hlevel : Level pl s s') (h : Advances cfg pl s') :
    Advances cfg pl s := by
  obtain ⟨s'', hrun', hmain', hfreed', hnearer⟩ := h
  exact ⟨s'', hrun.trans hrun', hmain'.trans hmain, hfreed'.trans hfreed, .of_level hlevel hnearer⟩

/-- **Ranks fall along the edges.** -/
theorem Edge.rank_lt (h : pl.Started fails) {a b : Place} (hedge : Edge pl a b) :
    pl.rank b < pl.rank a := by
  have hlevel := congrArg List.length (hedge.level h)
  rw [List.length_append, List.length_range, List.length_range, List.length_map] at hlevel
  cases hedge with
  | enqueue _ =>
      simp only [Pipeline.level, Place.exec?, Option.toList_none, List.length_nil] at hlevel
      simp only [Pipeline.rank]
      omega
  | workerDequeue hruns _ =>
      have hi := hruns.1
      simp only [Pipeline.level, Place.exec?, Option.toList_none, List.length_nil] at hlevel
      simp only [Pipeline.rank]
      omega
  | workerExec hruns =>
      have hi := hruns.1
      simp only [Pipeline.rank]
      omega
  | workerEnqueue hruns _ =>
      have hi := hruns.1
      simp only [Pipeline.level, Place.exec?, Option.toList_none, List.length_nil] at hlevel
      simp only [Pipeline.rank]
      omega
  | aggregate _ =>
      simp only [Pipeline.rank]
      omega

/-- A move of a packet or more. -/
theorem Nearer.of_move (hpl : pl.Started fails) {a b : Place} {k : ℕ} (hedge : Edge pl a b)
    (hk : 0 < k) (hne : s.contents a ≠ [])
    (h : ∀ t, Tracked pl s t → Tracked pl s' (t.move a b k)) : Nearer pl s s' := by
  intro t ht
  refine ⟨_, h t ht, ht.reachable.sound.weight_move_lt (hedge.rank_lt hpl) hk ?_⟩
  rw [ht.contents]
  exact hne

end Runs

/-! ## §2. An instance. -/

/-- Instance `j` of stage `i` has processed its batch and waits for room in ring `r`. -/
structure Waits (cfg : Config) (pl : Pipeline) (s : State) (i j : ℕ) (r : RingId) : Prop where
  todo : s.contents (.todo i j) = []
  done : s.contents (.done i j) ≠ []
  slot : pl.slotOut s i j = some r
  full : cfg.ring.capacity ≤ (s.ring r).length

section Instance

variable {fails : ℕ → Bool} {cfg : Config} {pl : Pipeline} {s : State} {i j : ℕ}

/-- One packet goes through `pipeline_stage_exec`. -/
theorem advances_exec (hpl : pl.Started fails) (hruns : pl.Runs i j)
    (hpc : (s.stages i j).pc = .exec) {mbuf : Mbuf}
    (hget : (s.stages i j).mbufsIn[(s.stages i j).i]? = some mbuf) : Advances cfg pl s := by
  have heq := workerExec_some hget
  have hne : s.contents (.todo i j) ≠ [] := by
    intro hnil
    have hfront := take_todo_exec hpc hget
    rw [hnil] at hfront
    cases hfront
  refine ⟨_, .single ⟨.workerExec s i j hruns hpc, ?_⟩, ?_, ?_,
    .of_move hpl (.workerExec hruns) Nat.one_pos hne fun t ht => ht.workerExec_some hruns hpc hget⟩
  · rw [heq]
    rfl
  · rw [heq]
    rfl
  · rw [heq]
    rfl

/-- A poll of a ring that is not empty. -/
theorem advances_dequeue (hpl : pl.Started fails) (hcfg : Moving cfg) (hsane : Sane pl s)
    (hruns : pl.Runs i j) (hpc : (s.stages i j).pc = .dequeue) {r : RingId}
    (hslot : pl.slotIn s i j = some r) (hne : s.ring r ≠ []) : Advances cfg pl s := by
  obtain ⟨k, hpos, hk⟩ := hcfg.ring.deq_pos hcfg.burst (List.length_pos_iff.mpr hne)
  refine ⟨_, .single ⟨.workerDequeue s i j r k hruns hpc hslot hk, rfl⟩, rfl, rfl, ?_⟩
  exact .of_move hpl (.workerDequeue hruns (mem_inSlots hsane hruns hslot)) hpos hne
    fun t ht => ht.workerDequeue hsane hruns hpc hslot k

/-- A burst enqueue to a ring with room. -/
theorem advances_enqueue (hpl : pl.Started fails) (hcfg : Moving cfg) (hsane : Sane pl s)
    (hruns : pl.Runs i j) (hpc : (s.stages i j).pc = .enqueue)
    (hpos : 0 < (s.stages i j).outNum) {r : RingId} (hslot : pl.slotOut s i j = some r)
    (hroom : (s.ring r).length < cfg.ring.capacity) : Advances cfg pl s := by
  obtain ⟨k, hk, henq⟩ := hcfg.ring.enq_pos (lt_min hpos hcfg.burst) hroom
  have heq := workerEnqueue_received s (pl.nbRingOut i j) i j r k
  have hsum := (hsane.worker i j).enqueue hpc
  have hne : s.contents (.done i j) ≠ [] := by
    rw [contents_done_enqueue hpc]
    refine List.ne_nil_of_length_pos ?_
    rw [List.length_drop]
    omega
  refine ⟨_, .single ⟨.workerEnqueue s i j r k hruns hpc fun _ => ⟨hslot, henq⟩, heq.1⟩, ?_, ?_,
    .of_move hpl (.workerEnqueue hruns (mem_outSlots hsane hruns hslot)) hk hne
      fun t ht => ht.workerEnqueue_pos hsane hruns hpc hpos hslot k⟩
  · unfold State.workerEnqueue
    dsimp only
    rw [if_pos hpos]
    rfl
  · unfold State.workerEnqueue
    dsimp only
    rw [if_pos hpos]
    rfl

/-- The end of a batch. -/
theorem workerEnqueue_zero {nbRingOut : ℕ} (hzero : ¬ 0 < (s.stages i j).outNum) (r : RingId)
    (k : ℕ) : s.workerEnqueue nbRingOut i j r k = s.setStage i j { s.stages i j with
      pc := .dequeue
      ringOutIndex := ((s.stages i j).ringOutIndex + 1) % nbRingOut } := by
  unfold State.workerEnqueue
  dsimp only
  rw [if_neg hzero]

/-- **A poll that finds nothing** brings the instance to its next ring. -/
theorem poll_empty (hpl : pl.Started fails) (hcfg : Moving cfg) (hreach : Reachable cfg pl s)
    (hruns : pl.Runs i j) (hpc : (s.stages i j).pc = .dequeue) {r : RingId}
    (hslot : pl.slotIn s i j = some r) (hempty : s.ring r = []) :
    ∃ s', Settles cfg pl s s' ∧ s'.main = s.main ∧ s'.freed = s.freed ∧ Level pl s s'
      ∧ (s'.stages i j).pc = .dequeue
      ∧ (s'.stages i j).ringInIndex = ((s.stages i j).ringInIndex + 1) % pl.nbRingIn i j := by
  have hout := ((hreach.sane hpl.ringed).worker i j).dequeue hpc
  have hnone : (s.ring r).take 0 = [] := rfl
  -- nothing is taken
  have hstep₁ : Step cfg pl s (s.workerDequeue (pl.nbRingIn i j) i j r 0) :=
    .workerDequeue s i j r 0 hruns hpc hslot (by rw [hempty]; exact hcfg.ring.deq_empty _)
  have hself₁ : (s.workerDequeue (pl.nbRingIn i j) i j r 0).stages i j = { s.stages i j with
      pc := .exec
      mbufsIn := (s.ring r).take 0
      i := 0
      mbufsOut := []
      ringInIndex := ((s.stages i j).ringInIndex + 1) % pl.nbRingIn i j } :=
    setStage_stages_self ..
  generalize hs₁ : s.workerDequeue (pl.nbRingIn i j) i j r 0 = s₁ at hstep₁ hself₁
  have hreach₁ : Reachable cfg pl s₁ := hreach.tail hstep₁
  have hpc₁ : (s₁.stages i j).pc = .exec := by rw [hself₁]
  have hget₁ : (s₁.stages i j).mbufsIn[(s₁.stages i j).i]? = none := by
    rw [hself₁]
    rfl
  -- nothing is processed
  have hstep₂ : Step cfg pl s₁ (s₁.workerExec i j) := .workerExec s₁ i j hruns hpc₁
  have hself₂ : (s₁.workerExec i j).stages i j
      = { s₁.stages i j with pc := .enqueue, totEnq := 0 } := by
    rw [workerExec_none hget₁, setStage_stages_self]
  have hmain₂ : (s₁.workerExec i j).main = s₁.main ∧ (s₁.workerExec i j).freed = s₁.freed
      ∧ (s₁.workerExec i j).received = s₁.received := by
    rw [workerExec_none hget₁]
    exact ⟨rfl, rfl, rfl⟩
  generalize hs₂ : s₁.workerExec i j = s₂ at hstep₂ hself₂ hmain₂
  have hreach₂ : Reachable cfg pl s₂ := hreach₁.tail hstep₂
  have hpc₂ : (s₂.stages i j).pc = .enqueue := by rw [hself₂]
  have hzero : ¬ 0 < (s₂.stages i j).outNum := by
    rw [hself₂, hself₁]
    show ¬ 0 < (s.stages i j).outNum
    omega
  -- nothing is enqueued
  have hstep₃ : Step cfg pl s₂ (s₂.workerEnqueue (pl.nbRingOut i j) i j r 0) :=
    .workerEnqueue s₂ i j r 0 hruns hpc₂ fun h => absurd h hzero
  refine ⟨s₂.workerEnqueue (pl.nbRingOut i j) i j r 0, ?_, ?_, ?_, ?_, ?_, ?_⟩
  · refine ((Relation.ReflTransGen.single ⟨hstep₁, ?_⟩).tail ⟨hstep₂, hmain₂.2.2⟩).tail
      ⟨hstep₃, (workerEnqueue_received s₂ _ i j r 0).1⟩
    rw [← hs₁]
    rfl
  · rw [workerEnqueue_zero hzero]
    show s₂.main = s.main
    rw [hmain₂.1, ← hs₁]
    rfl
  · rw [workerEnqueue_zero hzero]
    show s₂.freed = s.freed
    rw [hmain₂.2.1, ← hs₁]
    rfl
  · intro t ht
    have ht₁ : Tracked pl s₁ t := by
      have hmove := ht.workerDequeue (hreach.sane hpl.ringed) hruns hpc hslot 0
      rwa [Places.move_zero, hs₁] at hmove
    have ht₂ : Tracked pl s₂ t := by
      rw [← hs₂]
      exact ht₁.workerExec_none (hreach₁.sane hpl.ringed) hpc₁ hget₁
    exact ht₂.workerEnqueue_zero (hreach₂.sane hpl.ringed) hpc₂ hzero r 0
  · rw [workerEnqueue_zero hzero, setStage_stages_self]
  · rw [workerEnqueue_zero hzero, setStage_stages_self, hself₂, hself₁]

/-- **An instance comes to a ring that holds something**, after `d` idle polls at most. -/
theorem advances_poll (hpl : pl.Started fails) (hcfg : Moving cfg) (hruns : pl.Runs i j) (d : ℕ)
    (hreach : Reachable cfg pl s) (hpc : (s.stages i j).pc = .dequeue) {r : RingId}
    (hslot : (pl.topology.stages i j).ringIn
      (((s.stages i j).ringInIndex + d) % pl.nbRingIn i j) = some r)
    (hne : s.ring r ≠ []) : Advances cfg pl s := by
  induction d generalizing s with
  | zero =>
      have hsane := hreach.sane hpl.ringed
      rw [Nat.add_zero, Nat.mod_eq_of_lt (hsane.index i j hruns).1] at hslot
      exact advances_dequeue hpl hcfg hsane hruns hpc hslot hne
  | succ d ih =>
      have hsane := hreach.sane hpl.ringed
      obtain ⟨r', hr'⟩ := hsane.inInUse_some (p := .inst i j) hpl ⟨hruns.1, hruns.2.1⟩
      by_cases hempty : s.ring r' = []
      · obtain ⟨s', hrun, hmain, hfreed, hlevel, hpc', hindex⟩ :=
          poll_empty hpl hcfg hreach hruns hpc hr' hempty
        obtain ⟨t, ht⟩ := hreach.tracked hpl.ringed
        have hring : s'.ring r = s.ring r := congrFun (hlevel.contents ht) (.ring r)
        refine .of_level hrun hmain hfreed hlevel (ih (hreach.settles hrun) hpc' ?_ ?_)
        · rw [hindex, Nat.mod_add_mod, Nat.add_assoc, Nat.add_comm 1 d]
          exact hslot
        · rw [hring]
          exact hne
      · exact advances_dequeue hpl hcfg hsane hruns hpc hr' hempty

theorem advances_poll_of_mem (hpl : pl.Started fails) (hcfg : Moving cfg)
    (hreach : Reachable cfg pl s) (hruns : pl.Runs i j) (hpc : (s.stages i j).pc = .dequeue)
    {r : RingId}
    (hmem : some r ∈ pl.topology.inSlots pl.nbPlStages pl.nbInstPerPlStage (.inst i j))
    (hne : s.ring r ≠ []) : Advances cfg pl s := by
  obtain ⟨x, hx, hslot⟩ := List.mem_map.mp hmem
  have hx : x < pl.nbRingIn i j := List.mem_range.mp hx
  have hindex := ((hreach.sane hpl.ringed).index i j hruns).1
  refine advances_poll hpl hcfg hruns (x + pl.nbRingIn i j - (s.stages i j).ringInIndex) hreach
    hpc ?_ hne
  rw [Nat.add_sub_cancel' (by omega), Nat.add_mod_right, Nat.mod_eq_of_lt hx]
  exact hslot

/-- Behind the exec loop: the batch can be enqueued, or the instance polls. -/
theorem advances_or_waits_enqueue (hpl : pl.Started fails) (hcfg : Moving cfg)
    (hreach : Reachable cfg pl s) (hruns : pl.Runs i j) (hpc : (s.stages i j).pc = .enqueue)
    (hwork : s.contents (.done i j) ≠ []
      ∨ ∃ r, some r ∈ pl.topology.inSlots pl.nbPlStages pl.nbInstPerPlStage (.inst i j)
          ∧ s.ring r ≠ []) :
    Advances cfg pl s ∨ ∃ r, Waits cfg pl s i j r := by
  have hsane := hreach.sane hpl.ringed
  have hsum := (hsane.worker i j).enqueue hpc
  have hdone := contents_done_enqueue hpc
  by_cases hpos : 0 < (s.stages i j).outNum
  · obtain ⟨r, hr⟩ := hsane.outInUse_some (p := .inst i j) hpl ⟨hruns.1, hruns.2.1⟩
    by_cases hroom : (s.ring r).length < cfg.ring.capacity
    · exact Or.inl (advances_enqueue hpl hcfg hsane hruns hpc hpos hr hroom)
    · refine Or.inr ⟨r, todo_eq_nil (by rw [hpc]; decide), ?_, hr, Nat.le_of_not_lt hroom⟩
      rw [hdone]
      refine List.ne_nil_of_length_pos ?_
      rw [List.length_drop]
      omega
  · -- nothing in hand: back to the polls
    have hnil : s.contents (.done i j) = [] := by
      rw [hdone]
      exact List.drop_of_length_le (by omega)
    obtain ⟨r, hmem, hne⟩ := hwork.resolve_left (not_not.mpr hnil)
    have hstep : Step cfg pl s (s.workerEnqueue (pl.nbRingOut i j) i j r 0) :=
      .workerEnqueue s i j r 0 hruns hpc fun h => absurd h hpos
    have hlevel : Level pl s (s.workerEnqueue (pl.nbRingOut i j) i j r 0) :=
      fun t ht => ht.workerEnqueue_zero hsane hpc hpos r 0
    have hself : s.workerEnqueue (pl.nbRingOut i j) i j r 0 = _ := workerEnqueue_zero hpos r 0
    have hreceived := (workerEnqueue_received s (pl.nbRingOut i j) i j r 0).1
    generalize s.workerEnqueue (pl.nbRingOut i j) i j r 0 = s' at hstep hlevel hself hreceived
    refine Or.inl (.of_level (.single ⟨hstep, hreceived⟩) (by rw [hself]; rfl) (by rw [hself]; rfl)
      hlevel ?_)
    exact advances_poll_of_mem hpl hcfg (hreach.tail hstep) hruns
      (by rw [hself, setStage_stages_self]) hmem (by rw [hself]; exact hne)

/-- **An instance with something to do** moves a packet, or waits for room. -/
theorem advances_or_waits (hpl : pl.Started fails) (hcfg : Moving cfg)
    (hreach : Reachable cfg pl s) (hruns : pl.Runs i j)
    (hwork : s.contents (.todo i j) ≠ [] ∨ s.contents (.done i j) ≠ []
      ∨ ∃ r, some r ∈ pl.topology.inSlots pl.nbPlStages pl.nbInstPerPlStage (.inst i j)
          ∧ s.ring r ≠ []) :
    Advances cfg pl s ∨ ∃ r, Waits cfg pl s i j r := by
  have hsane := hreach.sane hpl.ringed
  cases hpc : (s.stages i j).pc with
  | dequeue =>
      have htodo : s.contents (.todo i j) = [] := todo_eq_nil (by rw [hpc]; decide)
      have hdone : s.contents (.done i j) = [] := Worker.processed_dequeue hpc
      obtain ⟨r, hmem, hne⟩ :=
        (hwork.resolve_left (not_not.mpr htodo)).resolve_left (not_not.mpr hdone)
      exact Or.inl (advances_poll_of_mem hpl hcfg hreach hruns hpc hmem hne)
  | exec =>
      cases hget : (s.stages i j).mbufsIn[(s.stages i j).i]? with
      | some mbuf => exact Or.inl (advances_exec hpl hruns hpc hget)
      | none =>
          -- the batch has been processed
          have htodo : s.contents (.todo i j) = [] := by
            rw [contents_todo_exec hpc]
            exact List.drop_of_length_le (List.getElem?_eq_none_iff.mp hget)
          have hlevel : Level pl s (s.workerExec i j) :=
            fun t ht => ht.workerExec_none hsane hpc hget
          have hcontents := contents_workerExec hsane hpc hget
          have hself := workerExec_none hget
          have hstep : Step cfg pl s (s.workerExec i j) := .workerExec s i j hruns hpc
          generalize s.workerExec i j = s' at hlevel hcontents hself hstep
          have hring : s'.ring = s.ring := by rw [hself]; rfl
          have hwork' : s'.contents (.done i j) ≠ []
              ∨ ∃ r, some r ∈ pl.topology.inSlots pl.nbPlStages pl.nbInstPerPlStage (.inst i j)
                  ∧ s'.ring r ≠ [] := by
            rw [hcontents, hring]
            exact hwork.resolve_left (not_not.mpr htodo)
          rcases advances_or_waits_enqueue hpl hcfg (hreach.tail hstep) hruns
            (by rw [hself, setStage_stages_self]) hwork' with hgo | ⟨r, hwait⟩
          · exact Or.inl (.of_level (.single ⟨hstep, by rw [hself]; rfl⟩) (by rw [hself]; rfl)
              (by rw [hself]; rfl) hlevel hgo)
          · refine Or.inr ⟨r, htodo, hcontents ▸ hwait.done, ?_, hring ▸ hwait.full⟩
            have hslot := hwait.slot
            unfold Pipeline.slotOut at hslot ⊢
            rw [hself, setStage_stages_self] at hslot
            exact hslot
  | enqueue =>
      have htodo : s.contents (.todo i j) = [] := todo_eq_nil (by rw [hpc]; decide)
      exact advances_or_waits_enqueue hpl hcfg hreach hruns hpc
        (hwork.resolve_left (not_not.mpr htodo))

end Instance

/-! ## §3. Full rings. -/

/-- Ring `r` is full, and so are the rings behind it that keep it full, all the way to main. -/
inductive Clogged (cfg : Config) (pl : Pipeline) (s : State) : RingId → Prop
  | tail {r : RingId} :
      some r ∈ pl.topology.inSlots pl.nbPlStages pl.nbInstPerPlStage .main →
      cfg.ring.capacity ≤ (s.ring r).length → Clogged cfg pl s r
  | inst {i j : ℕ} {r r' : RingId} :
      pl.Runs i j →
      some r ∈ pl.topology.inSlots pl.nbPlStages pl.nbInstPerPlStage (.inst i j) →
      cfg.ring.capacity ≤ (s.ring r).length → Waits cfg pl s i j r' → Clogged cfg pl s r' →
      Clogged cfg pl s r

section Clogged

variable {fails : ℕ → Bool} {cfg : Config} {pl : Pipeline} {s : State}

theorem Clogged.full {r : RingId} (h : Clogged cfg pl s r) :
    cfg.ring.capacity ≤ (s.ring r).length := by
  cases h with
  | tail _ hfull => exact hfull
  | inst _ _ hfull _ _ => exact hfull

/-- Behind a clogged ring a tail ring is full. -/
theorem Clogged.exists_tail {r : RingId} (h : Clogged cfg pl s r) :
    ∃ r', some r' ∈ pl.topology.inSlots pl.nbPlStages pl.nbInstPerPlStage .main
      ∧ cfg.ring.capacity ≤ (s.ring r').length := by
  induction h with
  | tail hslot hfull => exact ⟨_, hslot, hfull⟩
  | inst _ _ _ _ _ ih => exact ih

/-- **Behind a full ring** a packet moves, or the ring is clogged.  The induction is on the
number of stages behind the ring. -/
theorem advances_or_clogged (hpl : pl.Started fails) (hcfg : Moving cfg)
    (hreach : Reachable cfg pl s) (n : ℕ) {x : Site}
    (hx : x ∈ sites pl.nbPlStages pl.nbInstPerPlStage)
    (hn : pl.nbPlStages ≤ siteDepth pl.nbPlStages x + n)
    (hfull : cfg.ring.capacity
      ≤ (s.ring ((sites pl.nbPlStages pl.nbInstPerPlStage).idxOf x)).length) :
    Advances cfg pl s
      ∨ Clogged cfg pl s ((sites pl.nbPlStages pl.nbInstPerPlStage).idxOf x) := by
  induction n generalizing x with
  | zero =>
      have hdepth := siteDepth_consumer hx
      cases hconsumer : x.consumer with
      | main => exact Or.inr (.tail (hpl.mem_inSlots.mpr ⟨x, hx, hconsumer, rfl⟩) hfull)
      | inst i j =>
          rw [hconsumer] at hdepth
          have hi := (Site.consumer_inRange hx hconsumer).1
          dsimp only at hdepth
          omega
  | succ n ih =>
      have hdepth := siteDepth_consumer hx
      cases hconsumer : x.consumer with
      | main => exact Or.inr (.tail (hpl.mem_inSlots.mpr ⟨x, hx, hconsumer, rfl⟩) hfull)
      | inst i j =>
          rw [hconsumer] at hdepth
          obtain ⟨hi, hj⟩ := Site.consumer_inRange hx hconsumer
          have hruns := hpl.runs hi hj
          have hslot := hpl.mem_inSlots.mpr ⟨x, hx, hconsumer, rfl⟩
          have hne : s.ring ((sites pl.nbPlStages pl.nbInstPerPlStage).idxOf x) ≠ [] :=
            List.ne_nil_of_length_pos (Nat.lt_of_lt_of_le hcfg.ring.capacity_pos hfull)
          rcases advances_or_waits hpl hcfg hreach hruns (Or.inr (Or.inr ⟨_, hslot, hne⟩)) with
            hgo | ⟨r, hwait⟩
          · exact Or.inl hgo
          · -- the ring that it waits for is one stage further
            obtain ⟨y, hy, hproducer, rfl⟩ := hpl.mem_outSlots.mp
              (mem_outSlots (hreach.sane hpl.ringed) hruns hwait.slot)
            have hdepth' := siteDepth_producer hy
            rw [hproducer] at hdepth'
            have hdepth : siteDepth pl.nbPlStages x = i := hdepth
            have hdepth' : siteDepth pl.nbPlStages y = i + 1 := hdepth'
            rcases ih hy (by omega) hwait.full with hgo | hclogged
            · exact Or.inl hgo
            · exact Or.inr (.inst hruns hslot hfull hwait hclogged)

end Clogged

end Meili.Network
