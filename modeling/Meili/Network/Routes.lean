/-
  Meili.Network.Routes — the way of a packet through a pipeline that has started.

  In a topology in which every ring has been created, a ring lies between two parties of
  consecutive stages, and two parties share one ring at most (`Site.eq_of_parties`).  So a
  packet gains one stage with each instance that processes it (`Edge.level`), and the instances
  of its history determine the places it has been at (`trail_eq`).

    • `network_conserves` — a received packet is at one place, and has been through the stages
      before this place, in order and once each;
    • `network_inOrder` — packets that have been through the same instances are freed in the
      order of their arrival;
    • `network_noNull` — no party ever uses an index behind its rings, or a NULL ring.
-/
import Meili.Network.Tracking

namespace Meili.Network

open Meili.Lib Meili.DataPlane Meili.Runtime

/-! ## §1. A pipeline that has started. -/

/-- `pipeline_init_safe` has returned 0, with every ring created and an instance in every
stage. -/
structure Pipeline.Started (fails : ℕ → Bool) (pl : Pipeline) : Prop where
  built : buildTopology fails pl.nbPlStages pl.nbInstPerPlStage = some pl.topology
  created : ∀ c, fails c = false
  staffed : ∀ i < pl.nbPlStages, 0 < pl.nbInstPerPlStage i

/-- How many stages lie in front of the ring of a place. -/
def siteDepth (nbPlStages : ℕ) : Site → ℕ
  | .sole | .head _ => 0
  | .tail _ => nbPlStages
  | .inter i _ _ => i + 1

/-- How many stages lie in front of a ring. -/
def Pipeline.depth (pl : Pipeline) (r : RingId) : ℕ :=
  ((sites pl.nbPlStages pl.nbInstPerPlStage)[r]?).elim 0 (siteDepth pl.nbPlStages)

/-- How many stages a packet at this place has been through. -/
def Pipeline.level (pl : Pipeline) : Place → ℕ
  | .pending => 0
  | .ring r => pl.depth r
  | .todo i _ => i
  | .done i _ => i + 1
  | .freed => pl.nbPlStages

section Started

variable {fails : ℕ → Bool} {pl : Pipeline}

theorem Pipeline.Started.valid (h : pl.Started fails) :
    plParamsValid pl.nbPlStages pl.nbInstPerPlStage = true := by
  by_contra hinvalid
  have hbuilt := h.built
  unfold buildTopology at hbuilt
  rw [if_pos (by simpa using hinvalid)] at hbuilt
  cases hbuilt

theorem Pipeline.Started.everyCreated (h : pl.Started fails) :
    EveryCreated fails pl.nbPlStages pl.nbInstPerPlStage :=
  fun c _ => h.created c

/-- The rings lie in the slots of their parties. -/
theorem Pipeline.Started.connected (h : pl.Started fails) :
    Built fails pl.nbPlStages pl.nbInstPerPlStage
      (sites pl.nbPlStages pl.nbInstPerPlStage) pl.topology := by
  obtain ⟨topology, hrun, hbuilt⟩ := Built.connects (n := pl.nbPlStages)
    (List.nil_append _).symm Built.init fun c _ _ _ => h.created c
  rw [← buildTopology_eq fails h.valid, h.built] at hrun
  rw [Option.some.inj hrun]
  exact hbuilt

theorem Pipeline.Started.mem_outSlots (h : pl.Started fails) {r : RingId} {p : Party} :
    some r ∈ pl.topology.outSlots pl.nbPlStages pl.nbInstPerPlStage p ↔
      ∃ x ∈ sites pl.nbPlStages pl.nbInstPerPlStage, x.producer pl.nbPlStages = p
        ∧ (sites pl.nbPlStages pl.nbInstPerPlStage).idxOf x = r := by
  rw [h.connected.outSlots_eq, h.everyCreated.mem_slots]
  simp only [decide_eq_true_eq]

theorem Pipeline.Started.mem_inSlots (h : pl.Started fails) {r : RingId} {p : Party} :
    some r ∈ pl.topology.inSlots pl.nbPlStages pl.nbInstPerPlStage p ↔
      ∃ x ∈ sites pl.nbPlStages pl.nbInstPerPlStage, x.consumer = p
        ∧ (sites pl.nbPlStages pl.nbInstPerPlStage).idxOf x = r := by
  rw [h.connected.inSlots_eq, h.everyCreated.mem_slots]
  simp only [decide_eq_true_eq]

theorem Pipeline.Started.nb_le (h : pl.Started fails) {i : ℕ} (hi : i < pl.nbPlStages) :
    pl.nbInstPerPlStage i ≤ 8 :=
  (plParamsValid_iff.mp h.valid).2 i hi

theorem Pipeline.Started.ringed (h : pl.Started fails) : pl.Ringed := by
  by_cases hn : pl.nbPlStages = 0
  · have hfirst : pl.nbFirstStage = 1 := if_neg (fun hne => hne hn)
    have hlast : pl.nbLastStage = 1 := if_neg (fun hne => hne hn)
    constructor
    · rw [hfirst]
      decide
    · rw [hlast]
      decide
  · have hfirst : pl.nbFirstStage = pl.nbInstPerPlStage 0 := if_pos hn
    have hlast : pl.nbLastStage = pl.nbInstPerPlStage (pl.nbPlStages - 1) := if_pos hn
    have hmax : nbMaxRing = 16 := rfl
    have h₀ := h.nb_le (Nat.pos_of_ne_zero hn)
    have h₁ := h.nb_le (Nat.sub_one_lt hn)
    constructor
    · rw [hfirst]
      exact ⟨h.staffed 0 (Nat.pos_of_ne_zero hn), by omega⟩
    · rw [hlast]
      exact ⟨h.staffed _ (Nat.sub_one_lt hn), by omega⟩

/-- Every instance has a ring on either side, so that its loop starts. -/
theorem Pipeline.Started.runs (h : pl.Started fails) {i j : ℕ} (hi : i < pl.nbPlStages)
    (hj : j < pl.nbInstPerPlStage i) : pl.Runs i j := by
  refine ⟨hi, hj, ?_, ?_⟩
  · -- the ring from the first instance of the stage before, or the head ring
    intro hzero
    have hslots : pl.topology.inSlots pl.nbPlStages pl.nbInstPerPlStage (.inst i j) = [] := by
      show (List.range (pl.nbRingIn i j)).map _ = []
      rw [hzero]
      rfl
    have hmem : ∃ x ∈ sites pl.nbPlStages pl.nbInstPerPlStage, x.consumer = .inst i j := by
      cases i with
      | zero => exact ⟨.head j, mem_sites.mpr ⟨hi, hj⟩, rfl⟩
      | succ i =>
          exact ⟨.inter i 0 j, mem_sites.mpr ⟨hi, h.staffed i (by omega), hj⟩, rfl⟩
    obtain ⟨x, hx, hconsumer⟩ := hmem
    have hin := h.mem_inSlots.mpr ⟨x, hx, hconsumer, rfl⟩
    rw [hslots] at hin
    cases hin
  · intro hzero
    have hslots : pl.topology.outSlots pl.nbPlStages pl.nbInstPerPlStage (.inst i j) = [] := by
      show (List.range (pl.nbRingOut i j)).map _ = []
      rw [hzero]
      rfl
    have hmem : ∃ x ∈ sites pl.nbPlStages pl.nbInstPerPlStage,
        x.producer pl.nbPlStages = .inst i j := by
      by_cases hlast : i = pl.nbPlStages - 1
      · refine ⟨.tail j, mem_sites.mpr ⟨by omega, hlast ▸ hj⟩, ?_⟩
        rw [hlast]
        rfl
      · exact ⟨.inter i j 0, mem_sites.mpr ⟨by omega, hj, h.staffed _ (by omega)⟩, rfl⟩
    obtain ⟨x, hx, hproducer⟩ := hmem
    have hout := h.mem_outSlots.mpr ⟨x, hx, hproducer, rfl⟩
    rw [hslots] at hout
    cases hout

/-- A place is known by its two parties. -/
theorem Site.eq_of_parties {n : ℕ} {nb : ℕ → ℕ} {x y : Site} (hx : x ∈ sites n nb)
    (hy : y ∈ sites n nb) (hproducer : x.producer n = y.producer n)
    (hconsumer : x.consumer = y.consumer) : x = y := by
  have hx := mem_sites.mp hx
  have hy := mem_sites.mp hy
  cases x <;> cases y <;> simp_all [Site.producer, Site.consumer, Site.InRange]

theorem Pipeline.depth_idxOf (pl : Pipeline) {x : Site}
    (hx : x ∈ sites pl.nbPlStages pl.nbInstPerPlStage) :
    pl.depth ((sites pl.nbPlStages pl.nbInstPerPlStage).idxOf x) = siteDepth pl.nbPlStages x := by
  unfold Pipeline.depth
  rw [List.getElem?_eq_getElem (List.idxOf_lt_length_of_mem hx), List.getElem_idxOf]
  rfl

/-- A ring lies behind the stage of its producer. -/
theorem siteDepth_producer {n : ℕ} {nb : ℕ → ℕ} {x : Site} (hx : x ∈ sites n nb) :
    siteDepth n x = match x.producer n with
      | .main => 0
      | .inst i _ => i + 1 := by
  have hx := mem_sites.mp hx
  cases x with
  | tail j =>
      show n = n - 1 + 1
      have hpos := hx.1
      omega
  | _ => rfl

/-- A ring lies in front of the stage of its consumer. -/
theorem siteDepth_consumer {n : ℕ} {nb : ℕ → ℕ} {x : Site} (hx : x ∈ sites n nb) :
    siteDepth n x = match x.consumer with
      | .main => n
      | .inst i _ => i := by
  have hx := mem_sites.mp hx
  cases x with
  | sole => exact hx.symm
  | _ => rfl

/-- The consumer of a ring is an instance of the pipeline, or main. -/
theorem Site.consumer_inRange {n : ℕ} {nb : ℕ → ℕ} {x : Site} (hx : x ∈ sites n nb) {i j : ℕ}
    (hconsumer : x.consumer = .inst i j) : i < n ∧ j < nb i := by
  have hx := mem_sites.mp hx
  cases x with
  | sole => cases hconsumer
  | head k =>
      cases hconsumer
      exact hx
  | tail k => cases hconsumer
  | inter a b k =>
      cases hconsumer
      exact ⟨hx.1, hx.2.2⟩

/-! ## §2. One stage after the other. -/

/-- **A move along an edge adds the stage that it goes through.** -/
theorem Edge.level (h : pl.Started fails) {a b : Place} (hedge : Edge pl a b) :
    List.range (pl.level b) = List.range (pl.level a) ++ (b.exec?.toList.map Prod.fst) := by
  cases hedge with
  | enqueue hslot =>
      obtain ⟨x, hx, hproducer, rfl⟩ := h.mem_outSlots.mp hslot
      have hdepth := siteDepth_producer hx
      rw [hproducer] at hdepth
      show List.range (pl.depth _) = _
      rw [pl.depth_idxOf hx, hdepth]
      rfl
  | @workerDequeue i j r hruns hslot =>
      obtain ⟨x, hx, hconsumer, rfl⟩ := h.mem_inSlots.mp hslot
      have hdepth := siteDepth_consumer hx
      rw [hconsumer] at hdepth
      show List.range i = List.range (pl.depth _) ++ []
      rw [pl.depth_idxOf hx, hdepth, List.append_nil]
  | workerExec hruns => exact List.range_succ
  | @workerEnqueue i j r hruns hslot =>
      obtain ⟨x, hx, hproducer, rfl⟩ := h.mem_outSlots.mp hslot
      have hdepth := siteDepth_producer hx
      rw [hproducer] at hdepth
      show List.range (pl.depth _) = List.range (i + 1) ++ []
      rw [pl.depth_idxOf hx, hdepth, List.append_nil]
  | aggregate hslot =>
      obtain ⟨x, hx, hconsumer, rfl⟩ := h.mem_inSlots.mp hslot
      have hdepth := siteDepth_consumer hx
      rw [hconsumer] at hdepth
      show List.range pl.nbPlStages = List.range (pl.depth _) ++ []
      rw [pl.depth_idxOf hx, hdepth, List.append_nil]

/-- A walk from main's pending slice. -/
structure Walk (pl : Pipeline) (trail : List Place) (a : Place) : Prop where
  head : trail.head? = some .pending
  chain : trail.IsChain (Edge pl)
  last : trail.getLast? = some a

/-- The instances on a walk. -/
def execs (trail : List Place) : List (ℕ × ℕ) := trail.filterMap Place.exec?

/-- A walk is main's pending slice alone, or a walk with one more edge. -/
theorem Walk.cases {trail : List Place} {b : Place} (h : Walk pl trail b) :
    (trail = [.pending] ∧ b = .pending)
      ∨ ∃ front a, trail = front ++ [b] ∧ Walk pl front a ∧ Edge pl a b
        ∧ execs trail = execs front ++ b.exec?.toList := by
  obtain ⟨front, rfl⟩ := List.getLast?_eq_some_iff.mp h.last
  have hhead := h.head
  have hchain := h.chain
  rcases List.eq_nil_or_concat' front with rfl | ⟨front, a, rfl⟩
  · obtain rfl : b = .pending := by simpa using hhead
    exact Or.inl ⟨rfl, rfl⟩
  · refine Or.inr ⟨front ++ [a], a, rfl, ⟨?_, ?_, List.getLast?_concat⟩, ?_, ?_⟩
    · rw [List.head?_append_of_ne_nil _ (by simp)] at hhead
      exact hhead
    · exact (List.isChain_append.mp hchain).1
    · exact (List.isChain_append.mp hchain).2.2 a (by simp) b rfl
    · unfold execs
      rw [List.filterMap_append]
      cases hexec : b.exec? with
      | none => simp [hexec]
      | some c => simp [hexec]

/-- Nothing leads back to the start. -/
theorem Edge.ne_pending {a b : Place} (h : Edge pl a b) : b ≠ .pending := by
  cases h <;> simp

/-- **The stages of a walk**: all in front of its end, in order. -/
theorem Walk.stages (h : pl.Started fails) {trail : List Place} {b : Place}
    (hwalk : Walk pl trail b) : (execs trail).map Prod.fst = List.range (pl.level b) := by
  induction hlen : trail.length generalizing trail b with
  | zero =>
      have hhead := hwalk.head
      rw [List.length_eq_zero_iff.mp hlen] at hhead
      cases hhead
  | succ len ih =>
      rcases hwalk.cases with ⟨rfl, rfl⟩ | ⟨front, a, rfl, hfront, hedge, hexecs⟩
      · rfl
      · rw [hexecs, List.map_append, ih hfront (by simpa using hlen), hedge.level h]

/-- The instances on a walk are instances of the pipeline. -/
theorem Walk.runs {trail : List Place} {b : Place} (hwalk : Walk pl trail b) :
    ∀ c ∈ execs trail, pl.Runs c.1 c.2 := by
  induction hlen : trail.length generalizing trail b with
  | zero =>
      have hhead := hwalk.head
      rw [List.length_eq_zero_iff.mp hlen] at hhead
      cases hhead
  | succ len ih =>
      intro c hc
      rcases hwalk.cases with ⟨rfl, rfl⟩ | ⟨front, a, rfl, hfront, hedge, hexecs⟩
      · cases hc
      · rw [hexecs, List.mem_append] at hc
        rcases hc with hc | hc
        · exact ih hfront (by simpa using hlen) c hc
        · cases hedge with
          | @workerExec i j hruns =>
              obtain rfl : c = (i, j) := by simpa [Place.exec?] using hc
              exact hruns
          | _ => cases hc

/-! ## §3. The instances determine the way. -/

/-- Who processed the packets on a ring last. -/
def Party.last? : Party → Option (ℕ × ℕ)
  | .main => none
  | .inst i j => some (i, j)

theorem Party.last?_inj {p q : Party} (h : Party.last? p = Party.last? q) : p = q := by
  cases p <;> cases q <;> simp_all [Party.last?]

/-- A walk to a ring has come from the producer of the ring. -/
theorem Walk.last_exec (h : pl.Started fails) {trail : List Place} {x : Site}
    (hx : x ∈ sites pl.nbPlStages pl.nbInstPerPlStage)
    (hwalk : Walk pl trail
      (.ring ((sites pl.nbPlStages pl.nbInstPerPlStage).idxOf x))) :
    (execs trail).getLast? = Party.last? (x.producer pl.nbPlStages) := by
  have hinj : ∀ y ∈ sites pl.nbPlStages pl.nbInstPerPlStage,
      (sites pl.nbPlStages pl.nbInstPerPlStage).idxOf y
        = (sites pl.nbPlStages pl.nbInstPerPlStage).idxOf x → y = x :=
    fun y hy heq => (List.idxOf_inj hy).mp heq
  rcases hwalk.cases with ⟨-, hb⟩ | ⟨front, a, -, hfront, hedge, hexecs⟩
  · cases hb
  · have hsame : execs trail = execs front := by
      rw [hexecs]
      exact List.append_nil _
    rw [hsame]
    cases hedge with
    | enqueue hslot =>
        obtain ⟨y, hy, hproducer, heq⟩ := h.mem_outSlots.mp hslot
        obtain rfl := hinj y hy heq
        rw [hproducer]
        rcases hfront.cases with ⟨rfl, -⟩ | ⟨_, _, -, -, hedge, -⟩
        · rfl
        · exact absurd rfl hedge.ne_pending
    | @workerEnqueue i j r hruns hslot =>
        obtain ⟨y, hy, hproducer, heq⟩ := h.mem_outSlots.mp hslot
        obtain rfl := hinj y hy heq
        rw [hproducer]
        rcases hfront.cases with ⟨-, hb⟩ | ⟨_, _, -, -, -, hexecs⟩
        · cases hb
        · rw [hexecs]
          exact List.getLast?_concat

/-- The last edge of a walk, from its instances. -/
theorem Walk.source_eq (h : pl.Started fails) {front front' : List Place} {a a' b : Place}
    (hfront : Walk pl front a) (hfront' : Walk pl front' a') (hedge : Edge pl a b)
    (hedge' : Edge pl a' b) (hexecs : execs front = execs front') : a = a' := by
  have hring : ∀ x ∈ sites pl.nbPlStages pl.nbInstPerPlStage,
      ∀ y ∈ sites pl.nbPlStages pl.nbInstPerPlStage,
      a = .ring ((sites pl.nbPlStages pl.nbInstPerPlStage).idxOf x) →
      a' = .ring ((sites pl.nbPlStages pl.nbInstPerPlStage).idxOf y) →
      x.consumer = y.consumer → a = a' := by
    intro x hx y hy ha ha' hconsumer
    have hlast : (execs front).getLast? = _ := Walk.last_exec h hx (ha ▸ hfront)
    have hlast' : (execs front').getLast? = _ := Walk.last_exec h hy (ha' ▸ hfront')
    rw [hexecs, hlast'] at hlast
    rw [ha, ha', Site.eq_of_parties hx hy (Party.last?_inj hlast).symm hconsumer]
  cases hedge with
  | enqueue hslot =>
      obtain ⟨x, hx, hproducer, heq⟩ := h.mem_outSlots.mp hslot
      cases hedge' with
      | enqueue _ => rfl
      | workerEnqueue _ hslot' =>
          obtain ⟨y, hy, hproducer', heq'⟩ := h.mem_outSlots.mp hslot'
          obtain rfl := (List.idxOf_inj hx).mp (heq.trans heq'.symm)
          rw [hproducer] at hproducer'
          cases hproducer'
  | workerDequeue _ hslot =>
      obtain ⟨x, hx, hconsumer, heq⟩ := h.mem_inSlots.mp hslot
      cases hedge' with
      | workerDequeue _ hslot' =>
          obtain ⟨y, hy, hconsumer', heq'⟩ := h.mem_inSlots.mp hslot'
          exact hring x hx y hy (by rw [heq]) (by rw [heq']) (hconsumer.trans hconsumer'.symm)
  | workerExec _ =>
      cases hedge' with
      | workerExec _ => rfl
  | workerEnqueue _ hslot =>
      obtain ⟨x, hx, hproducer, heq⟩ := h.mem_outSlots.mp hslot
      cases hedge' with
      | enqueue hslot' =>
          obtain ⟨y, hy, hproducer', heq'⟩ := h.mem_outSlots.mp hslot'
          obtain rfl := (List.idxOf_inj hx).mp (heq.trans heq'.symm)
          rw [hproducer] at hproducer'
          cases hproducer'
      | workerEnqueue _ hslot' =>
          obtain ⟨y, hy, hproducer', heq'⟩ := h.mem_outSlots.mp hslot'
          obtain rfl := (List.idxOf_inj hx).mp (heq.trans heq'.symm)
          rw [hproducer] at hproducer'
          cases hproducer'
          rfl
  | aggregate hslot =>
      obtain ⟨x, hx, hconsumer, heq⟩ := h.mem_inSlots.mp hslot
      cases hedge' with
      | aggregate hslot' =>
          obtain ⟨y, hy, hconsumer', heq'⟩ := h.mem_inSlots.mp hslot'
          exact hring x hx y hy (by rw [heq]) (by rw [heq']) (hconsumer.trans hconsumer'.symm)

/-- **Two walks to one place through the same instances are the same walk.** -/
theorem Walk.unique (h : pl.Started fails) {trail trail' : List Place} {b : Place}
    (hwalk : Walk pl trail b) (hwalk' : Walk pl trail' b)
    (hexecs : execs trail = execs trail') : trail = trail' := by
  induction hlen : trail.length generalizing trail trail' b with
  | zero =>
      have hhead := hwalk.head
      rw [List.length_eq_zero_iff.mp hlen] at hhead
      cases hhead
  | succ len ih =>
      rcases hwalk.cases with ⟨rfl, rfl⟩ | ⟨front, a, rfl, hfront, hedge, hexecs₁⟩
      · rcases hwalk'.cases with ⟨rfl, -⟩ | ⟨_, _, -, -, hedge', -⟩
        · rfl
        · exact absurd rfl hedge'.ne_pending
      · rcases hwalk'.cases with ⟨-, rfl⟩ | ⟨front', a', rfl, hfront', hedge', hexecs₂⟩
        · exact absurd rfl hedge.ne_pending
        · rw [hexecs₁, hexecs₂] at hexecs
          have hexecs := List.append_cancel_right hexecs
          obtain rfl := hfront.source_eq h hfront' hedge hedge' hexecs
          rw [ih hfront hfront' hexecs (by simpa using hlen)]

/-- With one instance in every stage there is one way on from every place. -/
theorem Edge.target_eq (h : pl.Started fails)
    (hone : ∀ i < pl.nbPlStages, pl.nbInstPerPlStage i = 1) {a b b' : Place} (hedge : Edge pl a b)
    (hedge' : Edge pl a b') : b = b' := by
  have hproducer : ∀ x ∈ sites pl.nbPlStages pl.nbInstPerPlStage,
      ∀ y ∈ sites pl.nbPlStages pl.nbInstPerPlStage,
      x.producer pl.nbPlStages = y.producer pl.nbPlStages → x = y := by
    intro x hx y hy heq
    have hx' := mem_sites.mp hx
    have hy' := mem_sites.mp hy
    refine Site.eq_of_parties hx hy heq ?_
    cases x <;> cases y <;> grind [Site.producer, Site.consumer, Site.InRange]
  cases hedge with
  | enqueue hslot =>
      obtain ⟨x, hx, hp, rfl⟩ := h.mem_outSlots.mp hslot
      cases hedge' with
      | enqueue hslot' =>
          obtain ⟨y, hy, hp', rfl⟩ := h.mem_outSlots.mp hslot'
          rw [hproducer x hx y hy (hp.trans hp'.symm)]
  | workerDequeue _ hslot =>
      obtain ⟨x, hx, hc, heq⟩ := h.mem_inSlots.mp hslot
      cases hedge' with
      | workerDequeue _ hslot' =>
          obtain ⟨y, hy, hc', heq'⟩ := h.mem_inSlots.mp hslot'
          obtain rfl := (List.idxOf_inj hx).mp (heq.trans heq'.symm)
          rw [hc] at hc'
          cases hc'
          rfl
      | aggregate hslot' =>
          obtain ⟨y, hy, hc', heq'⟩ := h.mem_inSlots.mp hslot'
          obtain rfl := (List.idxOf_inj hx).mp (heq.trans heq'.symm)
          rw [hc] at hc'
          cases hc'
  | workerExec _ =>
      cases hedge' with
      | workerExec _ => rfl
  | workerEnqueue _ hslot =>
      obtain ⟨x, hx, hp, rfl⟩ := h.mem_outSlots.mp hslot
      cases hedge' with
      | workerEnqueue _ hslot' =>
          obtain ⟨y, hy, hp', rfl⟩ := h.mem_outSlots.mp hslot'
          rw [hproducer x hx y hy (hp.trans hp'.symm)]
  | aggregate hslot =>
      obtain ⟨x, hx, hc, heq⟩ := h.mem_inSlots.mp hslot
      cases hedge' with
      | workerDequeue _ hslot' =>
          obtain ⟨y, hy, hc', heq'⟩ := h.mem_inSlots.mp hslot'
          obtain rfl := (List.idxOf_inj hx).mp (heq.trans heq'.symm)
          rw [hc] at hc'
          cases hc'
      | aggregate _ => rfl

/-! ## §4. Every interleaving. -/

variable {cfg : Config} {s : State}

/-- The trail of a packet is a walk to where the packet is. -/
theorem Tracked.walk {t : Places Place Mbuf} (ht : Tracked pl s t) {x : Place} {p : Mbuf}
    (hp : p ∈ s.contents x) : Walk pl (t.trail p) x ∧ execs (t.trail p) = s.history p := by
  have hsound := ht.reachable.sound
  rw [← ht.contents] at hp
  exact ⟨⟨hsound.head p (hsound.mem_arrived hp), hsound.chain p, (hsound.mem_iff x p).mp hp⟩,
    ht.history p⟩

/-- **No packet is lost or duplicated, and every stage sees it once, in its turn.**  In every
reachable state a received packet is at one place, once: pending, on a ring, with an instance
before or after its `pipeline_stage_exec`, or freed.  It has been through all stages in front of
this place, in order and once each, and through no others; so a freed packet has been through
all. -/
theorem network_conserves (hpl : pl.Started fails) (h : Reachable cfg pl s) :
    (∀ p ∈ s.received, ∃! x, p ∈ s.contents x)
      ∧ (∀ x, (s.contents x).Nodup)
      ∧ ∀ x, ∀ p ∈ s.contents x, p ∈ s.received
          ∧ (s.history p).map Prod.fst = List.range (pl.level x)
          ∧ ∀ c ∈ s.history p, pl.Runs c.1 c.2 := by
  obtain ⟨t, ht⟩ := h.tracked hpl.ringed
  have hsound := ht.reachable.sound
  refine ⟨fun p hp => ?_, fun x => ?_, fun x p hp => ?_⟩
  · rw [← ht.arrived] at hp
    rw [← ht.contents]
    exact ht.reachable.existsUnique hp
  · rw [← ht.contents]
    exact hsound.nodup x
  · obtain ⟨hwalk, hexecs⟩ := ht.walk hp
    refine ⟨?_, ?_, ?_⟩
    · rw [← ht.contents] at hp
      rw [← ht.arrived]
      exact hsound.mem_arrived hp
    · rw [← hexecs]
      exact hwalk.stages hpl
    · rw [← hexecs]
      exact hwalk.runs

/-- **Packets do not overtake each other on one way through the instances.**  Those of the freed
packets that the same instances have processed were freed in the order of their arrival; and
with one instance in every stage this is so for all, and none is left behind. -/
theorem network_inOrder (hpl : pl.Started fails) (h : Reachable cfg pl s) :
    (∀ way, (s.freed.filter (s.history · = way)).Sublist s.received)
      ∧ ((∀ i < pl.nbPlStages, pl.nbInstPerPlStage i = 1) → s.freed <+: s.received) := by
  obtain ⟨t, ht⟩ := h.tracked hpl.ringed
  have hfreed : t.contents .freed = s.freed := congrFun ht.contents .freed
  constructor
  · intro way
    rw [← ht.arrived]
    refine ht.reachable.sublist_arrived (a := .freed) ?_ ?_
    · rw [hfreed]
      exact List.filter_sublist
    · intro p hp q hq
      obtain ⟨hp, hpway⟩ := List.mem_filter.mp hp
      obtain ⟨hq, hqway⟩ := List.mem_filter.mp hq
      obtain ⟨hwalk, hexecs⟩ := ht.walk (x := .freed) hp
      obtain ⟨hwalk', hexecs'⟩ := ht.walk (x := .freed) hq
      refine hwalk.unique hpl hwalk' ?_
      rw [hexecs, hexecs', of_decide_eq_true hpway, of_decide_eq_true hqway]
  · intro hone
    rw [← ht.arrived, ← hfreed]
    exact ht.reachable.prefix_arrived (fun _ _ _ => Edge.target_eq hpl hone) fun b hedge => by
      cases hedge

/-- The party is part of the pipeline. -/
def Pipeline.Member (pl : Pipeline) : Party → Prop
  | .main => True
  | .inst i j => i < pl.nbPlStages ∧ j < pl.nbInstPerPlStage i

/-- The ring slot a party enqueues to next, and the one it dequeues from next. -/
def Pipeline.outInUse (pl : Pipeline) (s : State) : Party → Option RingId
  | .main => pl.topology.ringIn s.main.ringInIndex
  | .inst i j => pl.slotOut s i j

def Pipeline.inInUse (pl : Pipeline) (s : State) : Party → Option RingId
  | .main => pl.topology.ringOut s.main.ringOutIndex
  | .inst i j => pl.slotIn s i j

theorem Sane.outInUse_mem (hsane : Sane pl s) (hpl : pl.Started fails) {p : Party}
    (hp : pl.Member p) :
    pl.outInUse s p ∈ pl.topology.outSlots pl.nbPlStages pl.nbInstPerPlStage p := by
  cases p with
  | main => exact List.mem_map.mpr ⟨_, List.mem_range.mpr hsane.ringIn, rfl⟩
  | inst i j =>
      have hindex := hsane.index i j (hpl.runs hp.1 hp.2)
      exact List.mem_map.mpr ⟨_, List.mem_range.mpr hindex.2, rfl⟩

theorem Sane.inInUse_mem (hsane : Sane pl s) (hpl : pl.Started fails) {p : Party}
    (hp : pl.Member p) :
    pl.inInUse s p ∈ pl.topology.inSlots pl.nbPlStages pl.nbInstPerPlStage p := by
  cases p with
  | main => exact List.mem_map.mpr ⟨_, List.mem_range.mpr hsane.ringOut, rfl⟩
  | inst i j =>
      have hindex := hsane.index i j (hpl.runs hp.1 hp.2)
      exact List.mem_map.mpr ⟨_, List.mem_range.mpr hindex.1, rfl⟩

/-- The slot that a party uses next holds a ring. -/
theorem Sane.outInUse_some (hsane : Sane pl s) (hpl : pl.Started fails) {p : Party}
    (hp : pl.Member p) : ∃ r, pl.outInUse s p = some r := by
  have hgood := hpl.connected.good hpl.valid hpl.everyCreated
  have hmem := hsane.outInUse_mem hpl hp
  refine Option.ne_none_iff_exists'.mp fun hnone => ?_
  rw [hnone] at hmem
  exact (hgood.outSlots p).non_null hmem

theorem Sane.inInUse_some (hsane : Sane pl s) (hpl : pl.Started fails) {p : Party}
    (hp : pl.Member p) : ∃ r, pl.inInUse s p = some r := by
  have hgood := hpl.connected.good hpl.valid hpl.everyCreated
  have hmem := hsane.inInUse_mem hpl hp
  refine Option.ne_none_iff_exists'.mp fun hnone => ?_
  rw [hnone] at hmem
  exact (hgood.inSlots p).non_null hmem

/-- **Every ring keeps to one producer and one consumer**, as it was created to
(`RING_F_SP_ENQ | RING_F_SC_DEQ`).  In every reachable state, the slots that main and the
instances use next hold rings, no two parties are about to enqueue to the same one, and no two
are about to dequeue from the same one; and every instance passes the guard of its loop. -/
theorem network_rings (hpl : pl.Started fails) (h : Reachable cfg pl s) :
    (∀ p, pl.Member p → (∃ r, pl.outInUse s p = some r) ∧ ∃ r, pl.inInUse s p = some r)
      ∧ (∀ p q, pl.Member p → pl.Member q → pl.outInUse s p = pl.outInUse s q → p = q)
      ∧ (∀ p q, pl.Member p → pl.Member q → pl.inInUse s p = pl.inInUse s q → p = q)
      ∧ ∀ i j, pl.Member (.inst i j) → pl.Runs i j := by
  have hsane := h.sane hpl.ringed
  refine ⟨fun p hp => ⟨hsane.outInUse_some hpl hp, hsane.inInUse_some hpl hp⟩,
    fun p q hp hq heq => ?_, fun p q hp hq heq => ?_, fun i j hmem => hpl.runs hmem.1 hmem.2⟩
  · obtain ⟨r, hr⟩ := hsane.outInUse_some hpl hp
    have hp' := hsane.outInUse_mem hpl hp
    have hq' := hsane.outInUse_mem hpl hq
    rw [← heq] at hq'
    rw [hr] at hp' hq'
    obtain ⟨x, hx, rfl, hxr⟩ := hpl.mem_outSlots.mp hp'
    obtain ⟨y, hy, rfl, hyr⟩ := hpl.mem_outSlots.mp hq'
    rw [(List.idxOf_inj hx).mp (hxr.trans hyr.symm)]
  · obtain ⟨r, hr⟩ := hsane.inInUse_some hpl hp
    have hp' := hsane.inInUse_mem hpl hp
    have hq' := hsane.inInUse_mem hpl hq
    rw [← heq] at hq'
    rw [hr] at hp' hq'
    obtain ⟨x, hx, rfl, hxr⟩ := hpl.mem_inSlots.mp hp'
    obtain ⟨y, hy, rfl, hyr⟩ := hpl.mem_inSlots.mp hq'
    rw [(List.idxOf_inj hx).mp (hxr.trans hyr.symm)]

end Started

/-! ## §5. A run of two stages. -/

/-- Two stages, the first with one instance and the second with two. -/
def oneByTwo : Pipeline where
  nbPlStages := 2
  nbInstPerPlStage := fun i => i + 1
  topology := (buildTopology (fun _ => false) 2 fun i => i + 1).getD .init

theorem oneByTwo_started : oneByTwo.Started (fun _ => false) where
  built := rfl
  created := fun _ => rfl
  staffed := fun i _ => Nat.succ_pos i

/-- Packet 7 has been through both stages and is freed, packet 8 waits in front of the second
one. -/
def twoStages : State :=
  State.init |>.receive [7, 8] |>.inner slices |>.enqueue 1 0 2 |>.enqueue 1 0 0
    |>.workerDequeue 1 0 0 0 1 |>.workerExec 0 0 |>.workerExec 0 0 |>.workerEnqueue 2 0 0 3 1
    |>.workerEnqueue 2 0 0 3 0
    |>.workerDequeue 1 0 0 0 1 |>.workerExec 0 0 |>.workerExec 0 0 |>.workerEnqueue 2 0 0 4 1
    |>.workerDequeue 1 1 0 3 1 |>.workerExec 1 0 |>.workerExec 1 0 |>.workerEnqueue 1 1 0 1 1
    |>.aggregate 2 1 1

theorem oneByTwo_runs {i j : ℕ} (hi : i < 2) (hj : j < i + 1) : oneByTwo.Runs i j :=
  oneByTwo_started.runs hi hj

theorem twoStages_reachable : Reachable slices oneByTwo twoStages :=
  have h₀ := oneByTwo_runs (i := 0) (j := 0) (by decide) (by decide)
  have h₁ := oneByTwo_runs (i := 1) (j := 0) (by decide) (by decide)
  Relation.ReflTransGen.refl
    |>.tail (.receive _ [7, 8] rfl (by decide) (by decide) (by decide))
    |>.tail (.inner _ rfl)
    |>.tail (.enqueue _ 0 2 rfl fun _ => ⟨rfl, by decide, by decide⟩)
    |>.tail (.enqueue _ 0 0 rfl fun h => absurd h (by decide))
    |>.tail (.workerDequeue _ 0 0 0 1 h₀ rfl rfl ⟨by decide, by decide⟩)
    |>.tail (.workerExec _ 0 0 h₀ rfl)
    |>.tail (.workerExec _ 0 0 h₀ rfl)
    |>.tail (.workerEnqueue _ 0 0 3 1 h₀ rfl fun _ => ⟨rfl, by decide, by decide⟩)
    |>.tail (.workerEnqueue _ 0 0 3 0 h₀ rfl fun h => absurd h (by decide))
    |>.tail (.workerDequeue _ 0 0 0 1 h₀ rfl rfl ⟨by decide, by decide⟩)
    |>.tail (.workerExec _ 0 0 h₀ rfl)
    |>.tail (.workerExec _ 0 0 h₀ rfl)
    |>.tail (.workerEnqueue _ 0 0 4 1 h₀ rfl fun _ => ⟨rfl, by decide, by decide⟩)
    |>.tail (.workerDequeue _ 1 0 3 1 h₁ rfl rfl ⟨by decide, by decide⟩)
    |>.tail (.workerExec _ 1 0 h₁ rfl)
    |>.tail (.workerExec _ 1 0 h₁ rfl)
    |>.tail (.workerEnqueue _ 1 0 1 1 h₁ rfl fun _ => ⟨rfl, by decide, by decide⟩)
    |>.tail (.aggregate _ 1 1 rfl rfl ⟨by decide, by decide⟩)

/-- Packet 7 has been through both stages, packet 8 through the first one. -/
theorem twoStages_conserves :
    twoStages.freed = [7] ∧ twoStages.ring 4 = [8] ∧ (∃! x, 8 ∈ twoStages.contents x)
      ∧ (twoStages.history 7).map Prod.fst = List.range 2
      ∧ (twoStages.history 8).map Prod.fst = List.range 1 :=
  have h := network_conserves oneByTwo_started twoStages_reachable
  ⟨rfl, rfl, h.1 8 (by decide), (h.2.2 .freed 7 (by decide)).2.1,
    (h.2.2 (.ring 4) 8 (by decide)).2.1⟩

theorem twoStages_inOrder :
    (twoStages.freed.filter (twoStages.history · = [(0, 0), (1, 0)])).Sublist
      twoStages.received :=
  (network_inOrder oneByTwo_started twoStages_reachable).1 _

/-- The first stage is at its second ring, and main polls the second tail ring. -/
theorem twoStages_rings :
    (∃ r, oneByTwo.outInUse twoStages (.inst 0 0) = some r)
      ∧ oneByTwo.outInUse twoStages (.inst 0 0) = some 4
      ∧ oneByTwo.inInUse twoStages .main = some 2
      ∧ oneByTwo.Runs 1 1 :=
  have h := network_rings oneByTwo_started twoStages_reachable
  ⟨(h.1 (.inst 0 0) ⟨by decide, by decide⟩).1, rfl, rfl, h.2.2.2 1 1 ⟨by decide, by decide⟩⟩

end Meili.Network
