/-
  Meili.Runtime.Topology — the rings that `pipeline_init_safe` creates between the stages.

  The source takes `nb_pl_stages` and `nb_inst_per_pl_stage` from the control plane; here
  they are any numbers its range checks admit.  A ring is known by the number of the
  `rte_ring_create` call that made it, and which calls fail is a parameter.

    • `buildTopology_eq` — the loops make the rings of `sites`, one after the other;
    • `Built` — the rings made so far lie in the slots of their producer and their consumer,
      in the order in which they were made (`Built.connect`);
    • `topology_sound_iff` — what comes of it.  The loop of the inter-worker rings tests the
      array `self->ring_out` and not its new entry, so that a failure there goes unseen.
-/
import Mathlib.Data.List.Nodup
import Mathlib.Data.List.Perm.Subperm
import Meili.Runtime.Startup

namespace Meili.Runtime

/-! ## §1. Rings and their slots. -/

/-- `NB_MAX_RING`. -/
def nbMaxRing : ℕ := 16

/-- `NB_PIPELINE_STAGE_MAX`. -/
def nbPipelineStageMax : ℕ := 8

/-- A ring: the number of the call that created it. -/
abbrev RingId := ℕ

/-- The rings of an instance. -/
structure StageRings where
  ringIn : ℕ → Option RingId
  nbRingIn : ℕ
  ringOut : ℕ → Option RingId
  nbRingOut : ℕ

/-- The rings of the pipeline. -/
structure Topology where
  /-- `pl->ring_in`. -/
  ringIn : ℕ → Option RingId
  /-- `pl->ring_out`. -/
  ringOut : ℕ → Option RingId
  /-- `pl->stages[i][j]`. -/
  stages : ℕ → ℕ → StageRings
  /-- The names given to `rte_ring_create` so far. -/
  ringNames : List String

/-- Behind the initialization of the stages, before the first ring. -/
def Topology.init : Topology where
  ringIn := fun _ => none
  ringOut := fun _ => none
  stages := fun _ _ => ⟨fun _ => none, 0, fun _ => none, 0⟩
  ringNames := []

namespace Topology

/-- `rte_ring_create(name, ..)`, whose call number `c` returns NULL when `fails c`. -/
def rteRingCreate (fails : ℕ → Bool) (name : String) (pl : Topology) :
    Topology × Option RingId :=
  let number := pl.ringNames.length
  ({ pl with ringNames := pl.ringNames ++ [name] }, if fails number then none else some number)

/-- `*pl->stages[i][j] = self`. -/
def setStage (pl : Topology) (i j : ℕ) (self : StageRings) : Topology :=
  { pl with stages := Function.update pl.stages i (Function.update (pl.stages i) j self) }

end Topology

/-- The only ring of a pipeline without stages. -/
def soleRing (fails : ℕ → Bool) (pl : Topology) : Option Topology :=
  let (pl, ring) := pl.rteRingCreate fails "head_ring_in"
  if ring = none then none
  else some { pl with
    ringIn := Function.update pl.ringIn 0 ring
    ringOut := Function.update pl.ringOut 0 ring }

/-- `snprintf` of a head ring. -/
def headRingName (j : ℕ) : String := s!"head_ring_in_{j}"

/-- The loop body of the head rings. -/
def headRing (fails : ℕ → Bool) (pl : Topology) (j : ℕ) : Option Topology :=
  let (pl, ring) := pl.rteRingCreate fails (headRingName j)
  let pl := { pl with ringIn := Function.update pl.ringIn j ring }
  if ring = none then none
  else
    let self := pl.stages 0 j
    some (pl.setStage 0 j { self with
      ringIn := Function.update self.ringIn 0 ring
      nbRingIn := self.nbRingIn + 1 })

/-- `snprintf` of a tail ring. -/
def tailRingName (j : ℕ) : String := s!"tail_ring_out_{j}"

/-- The loop body of the tail rings. -/
def tailRing (fails : ℕ → Bool) (nbPlStages : ℕ) (pl : Topology) (j : ℕ) : Option Topology :=
  let (pl, ring) := pl.rteRingCreate fails (tailRingName j)
  let pl := { pl with ringOut := Function.update pl.ringOut j ring }
  if ring = none then none
  else
    let self := pl.stages (nbPlStages - 1) j
    some (pl.setStage (nbPlStages - 1) j { self with
      ringOut := Function.update self.ringOut 0 ring
      nbRingOut := self.nbRingOut + 1 })

/-- `snprintf` of an inter-worker ring. -/
def interWorkerRingName (i j k : ℕ) : String := s!"inter_worker_ring_{i}_{i + 1}_{j}_{k}"

/-- The loop body of the inter-worker rings.  `self->ring_out` is an array, so the test
`self->ring_out == NULL` never holds. -/
def interWorkerRing (fails : ℕ → Bool) (i j : ℕ) (pl : Topology) (k : ℕ) : Topology :=
  let (pl, ring) := pl.rteRingCreate fails (interWorkerRingName i j k)
  let self := pl.stages i j
  let pl := pl.setStage i j { self with
    ringOut := Function.update self.ringOut self.nbRingOut ring
    nbRingOut := self.nbRingOut + 1 }
  let child := pl.stages (i + 1) k
  pl.setStage (i + 1) k { child with
    ringIn := Function.update child.ringIn child.nbRingIn ring
    nbRingIn := child.nbRingIn + 1 }

/-- The range checks of `pipeline_init_safe`. -/
def plParamsValid (nbPlStages : ℕ) (nb : ℕ → ℕ) : Bool :=
  nbPlStages ≤ nbPipelineStageMax
    && (List.range nbPlStages).all fun i => (nb i : ℤ) ≤ nbInstancePerPipelineStageMax

/-- The topology construction of `pipeline_init_safe`, with separate rings; `none` is an
error. -/
def buildTopology (fails : ℕ → Bool) (nbPlStages : ℕ) (nb : ℕ → ℕ) : Option Topology :=
  if !plParamsValid nbPlStages nb then none
  else if nbPlStages = 0 then soleRing fails .init
  else do
    let pl ← (List.range (nb 0)).foldlM (headRing fails) .init
    let pl ← (List.range (nb (nbPlStages - 1))).foldlM (tailRing fails nbPlStages) pl
    return (List.range (nbPlStages - 1)).foldl (fun pl i =>
      (List.range (nb i)).foldl (fun pl j =>
        (List.range (nb (i + 1))).foldl (interWorkerRing fails i j) pl) pl) pl

/-! ## §2. What a topology should be. -/

/-- Main, or an instance of a stage. -/
inductive Party where
  | main
  | inst (i j : ℕ)
  deriving Repr, DecidableEq

/-- `nb_first_stage` and `nb_last_stage` of main. -/
def nbFirst (nbPlStages : ℕ) (nb : ℕ → ℕ) : ℕ := if nbPlStages ≠ 0 then nb 0 else 1

def nbLast (nbPlStages : ℕ) (nb : ℕ → ℕ) : ℕ := if nbPlStages ≠ 0 then nb (nbPlStages - 1) else 1

namespace Topology

/-- The slots a party puts packets into. -/
def outSlots (pl : Topology) (nbPlStages : ℕ) (nb : ℕ → ℕ) : Party → List (Option RingId)
  | .main => (List.range (nbFirst nbPlStages nb)).map pl.ringIn
  | .inst i j => (List.range (pl.stages i j).nbRingOut).map (pl.stages i j).ringOut

/-- The slots a party takes packets from. -/
def inSlots (pl : Topology) (nbPlStages : ℕ) (nb : ℕ → ℕ) : Party → List (Option RingId)
  | .main => (List.range (nbLast nbPlStages nb)).map pl.ringOut
  | .inst i j => (List.range (pl.stages i j).nbRingIn).map (pl.stages i j).ringIn

end Topology

/-- Slots without NULL, all different, and as many as there is room for. -/
structure SlotsGood (slots : List (Option RingId)) : Prop where
  non_null : none ∉ slots
  nodup : slots.Nodup
  room : slots.length ≤ nbMaxRing

/-- The topology is complete, and every ring has one producer and one consumer. -/
structure Topology.Good (pl : Topology) (nbPlStages : ℕ) (nb : ℕ → ℕ) : Prop where
  /-- Instances of consecutive stages are connected by one ring. -/
  connected : ∀ i j k, i + 1 < nbPlStages → j < nb i → k < nb (i + 1) →
    ∃! r, some r ∈ pl.outSlots nbPlStages nb (.inst i j)
      ∧ some r ∈ pl.inSlots nbPlStages nb (.inst (i + 1) k)
  /-- Each instance of the first stage has a head ring of its own. -/
  head : ∀ j, 0 < nbPlStages → j < nb 0 →
    ∃ r, pl.ringIn j = some r ∧ pl.inSlots nbPlStages nb (.inst 0 j) = [some r]
  /-- Each instance of the last stage has a tail ring of its own. -/
  tail : ∀ j, 0 < nbPlStages → j < nb (nbPlStages - 1) →
    ∃ r, pl.ringOut j = some r ∧ pl.outSlots nbPlStages nb (.inst (nbPlStages - 1) j) = [some r]
  producer : ∀ r, r < pl.ringNames.length → ∃! p, some r ∈ pl.outSlots nbPlStages nb p
  consumer : ∀ r, r < pl.ringNames.length → ∃! p, some r ∈ pl.inSlots nbPlStages nb p
  outSlots : ∀ p, SlotsGood (pl.outSlots nbPlStages nb p)
  inSlots : ∀ p, SlotsGood (pl.inSlots nbPlStages nb p)
  ringNames : pl.ringNames.Nodup

/-- If `pipeline_init_safe` returns 0, the topology is good and no creation has failed. -/
def TopologySound (fails : ℕ → Bool) (nbPlStages : ℕ) (nb : ℕ → ℕ) : Prop :=
  ∀ pl, buildTopology fails nbPlStages nb = some pl →
    pl.Good nbPlStages nb ∧ ∀ c, c < pl.ringNames.length → fails c = false

/-! ## §3. The rings one after the other. -/

/-- A place where a ring belongs. -/
inductive Site where
  | sole
  | head (j : ℕ)
  | tail (j : ℕ)
  | inter (i j k : ℕ)
  deriving Repr, DecidableEq

namespace Site

/-- The name its ring is given. -/
def name : Site → String
  | sole => "head_ring_in"
  | head j => headRingName j
  | tail j => tailRingName j
  | inter i j k => interWorkerRingName i j k

/-- Who puts packets into its ring. -/
def producer (nbPlStages : ℕ) : Site → Party
  | sole | head _ => .main
  | tail j => .inst (nbPlStages - 1) j
  | inter i j _ => .inst i j

/-- Who takes packets out of it. -/
def consumer : Site → Party
  | sole | tail _ => .main
  | head j => .inst 0 j
  | inter i _ k => .inst (i + 1) k

/-- Whether a failed creation is noticed. -/
def checked : Site → Bool
  | inter _ _ _ => false
  | _ => true

end Site

/-- The places of the inter-worker rings. -/
def interSites (nbPlStages : ℕ) (nb : ℕ → ℕ) : List Site :=
  (List.range (nbPlStages - 1)).flatMap fun i =>
    (List.range (nb i)).flatMap fun j =>
      (List.range (nb (i + 1))).map (Site.inter i j)

/-- All places, in the order in which their rings are created. -/
def sites (nbPlStages : ℕ) (nb : ℕ → ℕ) : List Site :=
  if nbPlStages = 0 then [.sole]
  else (List.range (nb 0)).map .head ++ (List.range (nb (nbPlStages - 1))).map .tail
    ++ interSites nbPlStages nb

/-- The creation of the ring of a place. -/
def connect (fails : ℕ → Bool) (nbPlStages : ℕ) (pl : Topology) : Site → Option Topology
  | .sole => soleRing fails pl
  | .head j => headRing fails pl j
  | .tail j => tailRing fails nbPlStages pl j
  | .inter i j k => some (interWorkerRing fails i j pl k)

theorem foldlM_flatMap {α β σ : Type} (f : σ → β → Option σ) (g : α → List β) (l : List α)
    (s : σ) : (l.flatMap g).foldlM f s = l.foldlM (fun s a => (g a).foldlM f s) s := by
  induction l generalizing s with
  | nil => rfl
  | cons a l ih =>
      rw [List.flatMap_cons, List.foldlM_append, List.foldlM_cons]
      exact congrArg _ (funext ih)

theorem interSites_foldlM (fails : ℕ → Bool) (n : ℕ) (nb : ℕ → ℕ) (pl : Topology) :
    (interSites n nb).foldlM (connect fails n) pl
      = some ((List.range (n - 1)).foldl (fun pl i =>
          (List.range (nb i)).foldl (fun pl j =>
            (List.range (nb (i + 1))).foldl (interWorkerRing fails i j) pl) pl) pl) := by
  have hrow : ∀ (i j : ℕ) (pl : Topology),
      ((List.range (nb (i + 1))).map (Site.inter i j)).foldlM (connect fails n) pl
        = some ((List.range (nb (i + 1))).foldl (interWorkerRing fails i j) pl) := by
    intro i j pl
    rw [List.foldlM_map]
    exact List.foldlM_pure
  unfold interSites
  rw [foldlM_flatMap]
  simp only [foldlM_flatMap, hrow]
  simp only [← Option.pure_def, List.foldlM_pure]

/-- **The loops make the rings of the places**, one after the other. -/
theorem buildTopology_eq (fails : ℕ → Bool) {n : ℕ} {nb : ℕ → ℕ}
    (hvalid : plParamsValid n nb = true) :
    buildTopology fails n nb = (sites n nb).foldlM (connect fails n) .init := by
  unfold buildTopology sites
  rw [hvalid]
  by_cases hn : n = 0
  · rw [if_pos hn, if_pos hn]
    exact (bind_pure _).symm
  · rw [if_neg hn, if_neg hn, List.foldlM_append, List.foldlM_append]
    simp only [List.foldlM_map, interSites_foldlM, bind_assoc]
    rfl

/-! ## §4. The places are all different, and so are the names. -/

section Sites

variable {n : ℕ} {nb : ℕ → ℕ}

theorem plParamsValid_iff :
    plParamsValid n nb = true ↔ n ≤ 8 ∧ ∀ i < n, nb i ≤ 8 := by
  simp only [plParamsValid, Bool.and_eq_true, List.all_eq_true, List.mem_range, decide_eq_true_eq]
  exact and_congr_right fun _ => forall₂_congr fun i _ => Int.ofNat_le (n := 8)

/-- What the ranges of the loops say of a place. -/
def Site.InRange (n : ℕ) (nb : ℕ → ℕ) : Site → Prop
  | .sole => n = 0
  | .head j => 0 < n ∧ j < nb 0
  | .tail j => 0 < n ∧ j < nb (n - 1)
  | .inter i j k => i + 1 < n ∧ j < nb i ∧ k < nb (i + 1)

theorem mem_interSites {x : Site} : x ∈ interSites n nb ↔
    ∃ i j k, x = .inter i j k ∧ i + 1 < n ∧ j < nb i ∧ k < nb (i + 1) := by
  simp only [interSites, List.mem_flatMap, List.mem_map, List.mem_range]
  constructor
  · intro h
    obtain ⟨i, hi, j, hj, k, hk, rfl⟩ := h
    exact ⟨i, j, k, rfl, by omega, hj, hk⟩
  · intro h
    obtain ⟨i, j, k, rfl, hi, hj, hk⟩ := h
    exact ⟨i, by omega, j, hj, k, hk, rfl⟩

theorem mem_sites {x : Site} : x ∈ sites n nb ↔ x.InRange n nb := by
  unfold sites
  split
  · next hn => cases x <;> simp [Site.InRange, hn]
  · next hn =>
      simp only [List.mem_append, List.mem_map, List.mem_range, mem_interSites]
      cases x <;> simp [Site.InRange, hn] <;> omega

theorem sites_zero (hn : n = 0) : sites n nb = [.sole] := if_pos hn

theorem sites_pos (hn : n ≠ 0) : sites n nb = (List.range (nb 0)).map .head
    ++ (List.range (nb (n - 1))).map .tail ++ interSites n nb := if_neg hn

/-- A choice of places without inter-worker rings. -/
theorem filter_interSites {P : Site → Bool} (h : ∀ i j k, P (.inter i j k) = false) :
    (interSites n nb).filter P = [] := by
  apply List.filter_eq_nil_iff.mpr
  intro x hx
  obtain ⟨i, j, k, rfl, -⟩ := mem_interSites.mp hx
  simp [h]

theorem interSites_nodup : (interSites n nb).Nodup := by
  unfold interSites
  rw [List.nodup_flatMap]
  refine ⟨fun i _ => ?_, ?_⟩
  · rw [List.nodup_flatMap]
    refine ⟨fun j _ => ?_, ?_⟩
    · exact List.nodup_range.map fun k k' h => by simpa using h
    · apply List.nodup_range.imp
      intro j j' hne
      simp only [Function.onFun, List.disjoint_left, List.mem_map]
      rintro _ ⟨k, _, rfl⟩ ⟨k', _, h⟩
      exact hne (Site.inter.inj h).2.1.symm
  · apply List.nodup_range.imp
    intro i i' hne
    simp only [Function.onFun, List.disjoint_left, List.mem_flatMap, List.mem_map]
    rintro _ ⟨j, _, k, _, rfl⟩ ⟨j', _, k', _, h⟩
    exact hne (Site.inter.inj h).1.symm

theorem sites_nodup : (sites n nb).Nodup := by
  unfold sites
  split
  · exact List.nodup_singleton _
  · rw [List.nodup_append, List.nodup_append]
    refine ⟨⟨?_, ?_, ?_⟩, interSites_nodup, ?_⟩
    · exact List.nodup_range.map fun j j' h => by simpa using h
    · exact List.nodup_range.map fun j j' h => by simpa using h
    · simp
    · intro x hx y hy hxy
      obtain ⟨i, j, k, rfl, -⟩ := mem_interSites.mp hy
      rw [hxy] at hx
      simp at hx

/-! ### Names. -/

/-- Numbers below ten are written with one digit. -/
theorem toString_toList_digit : ∀ j < 10, (toString j).toList = [Nat.digitChar j] := by decide

theorem digitChar_inj : ∀ j < 10, ∀ j' < 10, Nat.digitChar j = Nat.digitChar j' → j = j' := by
  decide

/-- The indices of a place are single digits. -/
def Site.Digits : Site → Prop
  | .sole => True
  | .head j | .tail j => j < 10
  | .inter i j k => i < 9 ∧ j < 10 ∧ k < 10

theorem Site.digits_of_mem (hvalid : plParamsValid n nb = true) {x : Site}
    (hx : x ∈ sites n nb) : x.Digits := by
  obtain ⟨hn, hnb⟩ := plParamsValid_iff.mp hvalid
  have hx := mem_sites.mp hx
  cases x with
  | sole => exact trivial
  | head j =>
      have := hnb 0 hx.1
      exact Nat.lt_of_lt_of_le hx.2 (by omega)
  | tail j =>
      have := hnb (n - 1) (by have := hx.1; omega)
      exact Nat.lt_of_lt_of_le hx.2 (by omega)
  | inter i j k =>
      obtain ⟨hi, hj, hk⟩ := hx
      have hnb_i := hnb i (by omega)
      have hnb_next := hnb (i + 1) hi
      exact ⟨by omega, by omega, by omega⟩

/-- The text of a name in front of the indices. -/
def Site.word : Site → String
  | .sole => "head_ring_in"
  | .head _ => "head_ring_in_"
  | .tail _ => "tail_ring_out_"
  | .inter _ _ _ => "inter_worker_ring_"

/-- The indices as they are written. -/
def Site.indices : Site → List Char
  | .sole => []
  | .head j | .tail j => [Nat.digitChar j]
  | .inter i j k =>
      [Nat.digitChar i, '_', Nat.digitChar (i + 1), '_', Nat.digitChar j, '_', Nat.digitChar k]

theorem Site.name_toList {x : Site} (hx : x.Digits) :
    x.name.toList = x.word.toList ++ x.indices := by
  cases x with
  | sole => rfl
  | head j =>
      have happend : (head j).name.toList = (head j).word.toList ++ (toString j).toList :=
        String.toList_append
      exact happend.trans (congrArg _ (toString_toList_digit j hx))
  | tail j =>
      have happend : (tail j).name.toList = (tail j).word.toList ++ (toString j).toList :=
        String.toList_append
      exact happend.trans (congrArg _ (toString_toList_digit j hx))
  | inter i j k =>
      have hi := toString_toList_digit i (by have := hx.1; omega)
      have hnext := toString_toList_digit (i + 1) (by have := hx.1; omega)
      have hj := toString_toList_digit j hx.2.1
      have hk := toString_toList_digit k hx.2.2
      have hname : (inter i j k).name = (inter i j k).word ++ toString i ++ "_"
          ++ toString (i + 1) ++ "_" ++ toString j ++ "_" ++ toString k := rfl
      rw [hname]
      simp only [String.toList_append, hi, hnext, hj, hk, List.append_assoc]
      rfl

theorem Site.name_inj {x y : Site} (hx : x.Digits) (hy : y.Digits) (h : x.name = y.name) :
    x = y := by
  have hchars : x.word.toList ++ x.indices = y.word.toList ++ y.indices := by
    rw [← name_toList hx, ← name_toList hy, h]
  -- two kinds of places differ in the first character, or in the length
  cases x <;> cases y <;> simp [word, indices] at hchars ⊢
  case head.head j j' => exact digitChar_inj j hx j' hy hchars
  case tail.tail j j' => exact digitChar_inj j hx j' hy hchars
  case inter.inter i j k i' j' k' =>
      have hi := digitChar_inj i (by have := hx.1; omega) i' (by have := hy.1; omega) hchars.1
      have hj := digitChar_inj j hx.2.1 j' hy.2.1 hchars.2.2.1
      have hk := digitChar_inj k hx.2.2 k' hy.2.2 hchars.2.2.2
      exact ⟨hi, hj, hk⟩

/-- **No name repeats.** -/
theorem names_nodup (hvalid : plParamsValid n nb = true) :
    ((sites n nb).map Site.name).Nodup :=
  sites_nodup.map_on fun _ hx _ hy h =>
    Site.name_inj (Site.digits_of_mem hvalid hx) (Site.digits_of_mem hvalid hy) h

end Sites

/-! ## §5. What one creation changes. -/

namespace StageRings

/-- `ring_out[0 .. nb_ring_out - 1]`. -/
def outs (s : StageRings) : List (Option RingId) := (List.range s.nbRingOut).map s.ringOut

/-- `ring_in[0 .. nb_ring_in - 1]`. -/
def ins (s : StageRings) : List (Option RingId) := (List.range s.nbRingIn).map s.ringIn

/-- One more slot of `ring_out`. -/
def addOut (s : StageRings) (ring : Option RingId) : StageRings :=
  { s with ringOut := Function.update s.ringOut s.nbRingOut ring, nbRingOut := s.nbRingOut + 1 }

/-- One more slot of `ring_in`. -/
def addIn (s : StageRings) (ring : Option RingId) : StageRings :=
  { s with ringIn := Function.update s.ringIn s.nbRingIn ring, nbRingIn := s.nbRingIn + 1 }

theorem map_range_update {α : Type} (f : ℕ → α) (c : ℕ) (a : α) :
    (List.range (c + 1)).map (Function.update f c a) = (List.range c).map f ++ [a] := by
  rw [List.range_succ, List.map_append, List.map_singleton, Function.update_self]
  refine congrArg (· ++ [a]) (List.map_congr_left fun i hi => ?_)
  exact Function.update_of_ne (List.mem_range.mp hi).ne a f

@[simp] theorem addOut_outs (s : StageRings) (ring : Option RingId) :
    (s.addOut ring).outs = s.outs ++ [ring] := map_range_update _ _ _

@[simp] theorem addOut_ins (s : StageRings) (ring : Option RingId) :
    (s.addOut ring).ins = s.ins := rfl

@[simp] theorem addIn_ins (s : StageRings) (ring : Option RingId) :
    (s.addIn ring).ins = s.ins ++ [ring] := map_range_update _ _ _

@[simp] theorem addIn_outs (s : StageRings) (ring : Option RingId) :
    (s.addIn ring).outs = s.outs := rfl

theorem nbRingOut_eq_zero {s : StageRings} (h : s.outs = []) : s.nbRingOut = 0 := by
  simpa [outs] using h

theorem nbRingIn_eq_zero {s : StageRings} (h : s.ins = []) : s.nbRingIn = 0 := by
  simpa [ins] using h

end StageRings

theorem Topology.setStage_stages (pl : Topology) (i j : ℕ) (s : StageRings) (i' j' : ℕ) :
    (pl.setStage i j s).stages i' j' = if i' = i ∧ j' = j then s else pl.stages i' j' := by
  unfold setStage
  by_cases hi : i' = i
  · subst hi
    simp [Function.update_apply]
  · simp [hi]

/-- The ring of `x` is in the slots of its producer and its consumer. -/
structure Joined (n : ℕ) (pl : Topology) (x : Site) (ring : Option RingId) (pl' : Topology) :
    Prop where
  ringNames : pl'.ringNames = pl.ringNames ++ [x.name]
  outs : ∀ i j, (pl'.stages i j).outs
    = (pl.stages i j).outs ++ if x.producer n = .inst i j then [ring] else []
  ins : ∀ i j, (pl'.stages i j).ins
    = (pl.stages i j).ins ++ if x.consumer = .inst i j then [ring] else []
  ringIn : pl'.ringIn = match x with
    | .sole => Function.update pl.ringIn 0 ring
    | .head j => Function.update pl.ringIn j ring
    | _ => pl.ringIn
  ringOut : pl'.ringOut = match x with
    | .sole => Function.update pl.ringOut 0 ring
    | .tail j => Function.update pl.ringOut j ring
    | _ => pl.ringOut

section Connect

variable {fails : ℕ → Bool} {n : ℕ} {pl : Topology}

/-- What creation number `c` returns. -/
def created (fails : ℕ → Bool) (c : ℕ) : Option RingId := if fails c then none else some c

theorem connect_none {x : Site} (hchecked : x.checked = true)
    (hfails : fails pl.ringNames.length = true) : connect fails n pl x = none := by
  cases x with
  | sole => simp [connect, soleRing, Topology.rteRingCreate, hfails]
  | head j => simp [connect, headRing, Topology.rteRingCreate, hfails]
  | tail j => simp [connect, tailRing, Topology.rteRingCreate, hfails]
  | inter i j k => exact absurd hchecked (by simp [Site.checked])

theorem created_of_not_fails {c : ℕ} (h : fails c = false) : created fails c = some c := by
  simp [created, h]

theorem inst_ne {i j i' j' : ℕ} (h : ¬(i' = i ∧ j' = j)) : Party.inst i j ≠ .inst i' j' :=
  fun he => h (by simpa [eq_comm] using he)

theorem soleRing_joined (hfails : fails pl.ringNames.length = false) :
    ∃ pl', soleRing fails pl = some pl'
      ∧ Joined n pl .sole (created fails pl.ringNames.length) pl' := by
  refine ⟨{ pl with
    ringNames := pl.ringNames ++ [Site.sole.name]
    ringIn := Function.update pl.ringIn 0 (some pl.ringNames.length)
    ringOut := Function.update pl.ringOut 0 (some pl.ringNames.length) }, ?_, ?_⟩
  · simp [soleRing, Topology.rteRingCreate, hfails, Site.name]
  · rw [created_of_not_fails hfails]
    refine ⟨rfl, fun i j => ?_, fun i j => ?_, rfl, rfl⟩
    · simp [Site.producer]
    · simp [Site.consumer]

theorem headRing_joined {j : ℕ} (hins : (pl.stages 0 j).ins = [])
    (hfails : fails pl.ringNames.length = false) :
    ∃ pl', headRing fails pl j = some pl'
      ∧ Joined n pl (.head j) (created fails pl.ringNames.length) pl' := by
  have hzero := StageRings.nbRingIn_eq_zero hins
  refine ⟨({ pl with
      ringNames := pl.ringNames ++ [(Site.head j).name]
      ringIn := Function.update pl.ringIn j (some pl.ringNames.length) } : Topology).setStage 0 j
        ((pl.stages 0 j).addIn (some pl.ringNames.length)), ?_, ?_⟩
  · simp [headRing, Topology.rteRingCreate, hfails, StageRings.addIn, hzero, Site.name]
  · rw [created_of_not_fails hfails]
    refine ⟨rfl, fun i j' => ?_, fun i j' => ?_, rfl, rfl⟩
    · rw [Topology.setStage_stages]
      split
      · next h => simp [h, Site.producer]
      · simp [Site.producer]
    · rw [Topology.setStage_stages]
      split
      · next h => simp [h, Site.consumer]
      · next h => simp [Site.consumer, inst_ne h]

theorem tailRing_joined {j : ℕ} (houts : (pl.stages (n - 1) j).outs = [])
    (hfails : fails pl.ringNames.length = false) :
    ∃ pl', tailRing fails n pl j = some pl'
      ∧ Joined n pl (.tail j) (created fails pl.ringNames.length) pl' := by
  have hzero := StageRings.nbRingOut_eq_zero houts
  refine ⟨({ pl with
      ringNames := pl.ringNames ++ [(Site.tail j).name]
      ringOut := Function.update pl.ringOut j (some pl.ringNames.length) } : Topology).setStage
        (n - 1) j ((pl.stages (n - 1) j).addOut (some pl.ringNames.length)), ?_, ?_⟩
  · simp [tailRing, Topology.rteRingCreate, hfails, StageRings.addOut, hzero, Site.name]
  · rw [created_of_not_fails hfails]
    refine ⟨rfl, fun i j' => ?_, fun i j' => ?_, rfl, rfl⟩
    · rw [Topology.setStage_stages]
      split
      · next h => simp [h, Site.producer]
      · next h => simp [Site.producer, inst_ne h]
    · rw [Topology.setStage_stages]
      split
      · next h => simp [h, Site.consumer]
      · simp [Site.consumer]

/-- The inter-worker ring joins its two instances also where its creation has failed. -/
theorem interWorkerRing_joined (fails : ℕ → Bool) (i j k : ℕ) :
    Joined n pl (.inter i j k) (created fails pl.ringNames.length)
      (interWorkerRing fails i j pl k) := by
  have heq : interWorkerRing fails i j pl k
      = (({ pl with ringNames := pl.ringNames ++ [(Site.inter i j k).name] } : Topology).setStage
          i j ((pl.stages i j).addOut (created fails pl.ringNames.length))).setStage (i + 1) k
          ((pl.stages (i + 1) k).addIn (created fails pl.ringNames.length)) := by
    have hchild : ∀ (pl : Topology) (s : StageRings),
        (pl.setStage i j s).stages (i + 1) k = pl.stages (i + 1) k := fun pl s => by
      rw [Topology.setStage_stages, if_neg (by simp)]
    simp only [interWorkerRing, Topology.rteRingCreate, hchild]
    rfl
  rw [heq]
  refine ⟨rfl, fun i' j' => ?_, fun i' j' => ?_, rfl, rfl⟩
  · rw [Topology.setStage_stages, Topology.setStage_stages]
    split
    · next h => simp [h, Site.producer]
    · split
      · next h => simp [h, Site.producer]
      · next h => simp [Site.producer, inst_ne h]
  · rw [Topology.setStage_stages, Topology.setStage_stages]
    split
    · next h => simp [h, Site.consumer]
    · next hchild =>
        split
        · next h => simp [h, Site.consumer]
        · next h => simp [Site.consumer, inst_ne hchild]

/-- **One creation.** -/
theorem connect_joined {x : Site} (hins : ∀ j, x = .head j → (pl.stages 0 j).ins = [])
    (houts : ∀ j, x = .tail j → (pl.stages (n - 1) j).outs = [])
    (hfails : x.checked = true → fails pl.ringNames.length = false) :
    ∃ pl', connect fails n pl x = some pl'
      ∧ Joined n pl x (created fails pl.ringNames.length) pl' := by
  cases x with
  | sole => exact soleRing_joined (hfails rfl)
  | head j => exact headRing_joined (hins j rfl) (hfails rfl)
  | tail j => exact tailRing_joined (houts j rfl) (hfails rfl)
  | inter i j k => exact ⟨_, rfl, interWorkerRing_joined fails i j k⟩

end Connect

/-! ## §6. All creations. -/

section Built

variable {fails : ℕ → Bool} {n : ℕ} {nb : ℕ → ℕ}

/-- The ring of a place. -/
def ringOf (fails : ℕ → Bool) (n : ℕ) (nb : ℕ → ℕ) (x : Site) : Option RingId :=
  created fails ((sites n nb).idxOf x)

/-- The rings of `done` are made: each is in the slots of its producer and its consumer, in
the order of the places. -/
structure Built (fails : ℕ → Bool) (n : ℕ) (nb : ℕ → ℕ) (done : List Site) (pl : Topology) :
    Prop where
  ringNames : pl.ringNames = done.map Site.name
  outs : ∀ i j, (pl.stages i j).outs
    = (done.filter fun x => x.producer n = .inst i j).map (ringOf fails n nb)
  ins : ∀ i j, (pl.stages i j).ins
    = (done.filter fun x => x.consumer = .inst i j).map (ringOf fails n nb)
  sole : .sole ∈ done → pl.ringIn 0 = ringOf fails n nb .sole
    ∧ pl.ringOut 0 = ringOf fails n nb .sole
  head : ∀ j, .head j ∈ done → pl.ringIn j = ringOf fails n nb (.head j)
  tail : ∀ j, .tail j ∈ done → pl.ringOut j = ringOf fails n nb (.tail j)

theorem Built.init : Built fails n nb [] .init := by
  refine ⟨rfl, fun _ _ => rfl, fun _ _ => rfl, ?_, ?_, ?_⟩ <;> simp

/-- Only the place itself puts a ring where a head ring goes. -/
theorem consumer_eq_first {x : Site} {j : ℕ} (h : x.consumer = .inst 0 j) : x = .head j := by
  cases x <;> simp_all [Site.consumer]

/-- Only the place itself puts a ring where a tail ring goes. -/
theorem producer_eq_last {x : Site} {j : ℕ} (hx : x ∈ sites n nb)
    (h : x.producer n = .inst (n - 1) j) : x = .tail j := by
  cases x with
  | inter i j' k =>
      have hi := (mem_sites.mp hx).1
      have heq : i = n - 1 := (Party.inst.inj h).1
      omega
  | _ => simp_all [Site.producer]

/-- The sole ring is the only one. -/
theorem eq_sole {x : Site} (hsole : .sole ∈ sites n nb) (hx : x ∈ sites n nb) : x = .sole := by
  have hn : n = 0 := mem_sites.mp hsole
  have hin := mem_sites.mp hx
  cases x <;> simp_all [Site.InRange]

/-- **One more ring.** -/
theorem Built.connect {done rest : List Site} {x : Site} {pl : Topology}
    (hsites : sites n nb = done ++ x :: rest) (h : Built fails n nb done pl)
    (hfails : x.checked = true → fails done.length = false) :
    ∃ pl', connect fails n pl x = some pl' ∧ Built fails n nb (done ++ [x]) pl' := by
  have hmem : ∀ y ∈ done, y ∈ sites n nb := fun y hy => by simp [hsites, hy]
  have hmem_x : x ∈ sites n nb := by simp [hsites]
  have hall : ∀ y ∈ done ++ [x], y ∈ sites n nb := fun y hy => by
    rcases List.mem_append.mp hy with hy | hy
    · exact hmem y hy
    · exact List.mem_singleton.mp hy ▸ hmem_x
  have hnew : x ∉ done := by
    have hnodup : (sites n nb).Nodup := sites_nodup
    rw [hsites, List.nodup_append] at hnodup
    exact fun hx => hnodup.2.2 x hx x (by simp) rfl
  have hlength : pl.ringNames.length = done.length := by rw [h.ringNames, List.length_map]
  have hring : created fails pl.ringNames.length = ringOf fails n nb x := by
    rw [ringOf, hsites, List.idxOf_append_of_notMem hnew, List.idxOf_cons_self, hlength]
    rfl
  have hins : ∀ j, x = .head j → (pl.stages 0 j).ins = [] := by
    rintro j rfl
    rw [h.ins, List.filter_eq_nil_iff.mpr, List.map_nil]
    intro y hy hconsumer
    exact hnew (consumer_eq_first (of_decide_eq_true hconsumer) ▸ hy)
  have houts : ∀ j, x = .tail j → (pl.stages (n - 1) j).outs = [] := by
    rintro j rfl
    rw [h.outs, List.filter_eq_nil_iff.mpr, List.map_nil]
    intro y hy hproducer
    exact hnew (producer_eq_last (hmem y hy) (of_decide_eq_true hproducer) ▸ hy)
  obtain ⟨pl', hconnect, hjoined⟩ := connect_joined hins houts (hlength ▸ hfails)
  rw [hring] at hjoined
  refine ⟨pl', hconnect, ?_, fun i j => ?_, fun i j => ?_, fun hsole => ?_, fun j hhead => ?_,
    fun j htail => ?_⟩
  · rw [hjoined.ringNames, h.ringNames, List.map_append, List.map_singleton]
  · rw [hjoined.outs, h.outs, List.filter_append, List.map_append]
    by_cases hp : x.producer n = .inst i j <;> simp [hp]
  · rw [hjoined.ins, h.ins, List.filter_append, List.map_append]
    by_cases hc : x.consumer = .inst i j <;> simp [hc]
  · obtain rfl := eq_sole (hall _ hsole) hmem_x
    rw [hjoined.ringIn, hjoined.ringOut]
    exact ⟨Function.update_self _ _ _, Function.update_self _ _ _⟩
  · rw [hjoined.ringIn]
    rcases List.mem_append.mp hhead with hold | hlast
    · cases x with
      | sole => cases eq_sole hmem_x (hall _ hhead)
      | head j' =>
          have hne : j ≠ j' := by rintro rfl; exact hnew hold
          exact (Function.update_of_ne hne _ _).trans (h.head j hold)
      | _ => exact h.head j hold
    · obtain rfl := List.mem_singleton.mp hlast
      exact Function.update_self _ _ _
  · rw [hjoined.ringOut]
    rcases List.mem_append.mp htail with hold | hlast
    · cases x with
      | sole => cases eq_sole hmem_x (hall _ htail)
      | tail j' =>
          have hne : j ≠ j' := by rintro rfl; exact hnew hold
          exact (Function.update_of_ne hne _ _).trans (h.tail j hold)
      | _ => exact h.tail j hold
    · obtain rfl := List.mem_singleton.mp hlast
      exact Function.update_self _ _ _

/-- **The run.** -/
theorem Built.connects {done rest : List Site} {pl : Topology}
    (hsites : sites n nb = done ++ rest) (h : Built fails n nb done pl)
    (hfails : ∀ c x, (sites n nb)[c]? = some x → x.checked = true → fails c = false) :
    ∃ pl', rest.foldlM (Runtime.connect fails n) pl = some pl'
      ∧ Built fails n nb (sites n nb) pl' := by
  induction rest generalizing done pl with
  | nil => exact ⟨pl, rfl, by rw [hsites, List.append_nil]; exact h⟩
  | cons x rest ih =>
      have hx : (sites n nb)[done.length]? = some x := by simp [hsites]
      obtain ⟨pl₁, hconnect, hbuilt⟩ := h.connect hsites (hfails _ x hx)
      obtain ⟨pl', hrest, hall⟩ := ih (by simp [hsites]) hbuilt
      refine ⟨pl', ?_, hall⟩
      rw [List.foldlM_cons, hconnect]
      exact hrest

/-- With a failure that is noticed, the run ends. -/
theorem Built.connects_none {done rest : List Site} {pl : Topology}
    (hsites : sites n nb = done ++ rest) (h : Built fails n nb done pl) {c : ℕ} {x : Site}
    (hc : done.length ≤ c) (hx : (sites n nb)[c]? = some x) (hchecked : x.checked = true)
    (hfails : fails c = true) : rest.foldlM (Runtime.connect fails n) pl = none := by
  induction rest generalizing done pl with
  | nil =>
      rw [List.append_nil] at hsites
      rw [hsites, List.getElem?_eq_none hc] at hx
      cases hx
  | cons y rest ih =>
      have hlength : pl.ringNames.length = done.length := by rw [h.ringNames, List.length_map]
      have hy : (sites n nb)[done.length]? = some y := by simp [hsites]
      rw [List.foldlM_cons]
      by_cases hstop : y.checked = true ∧ fails done.length = true
      · rw [connect_none hstop.1 (hlength ▸ hstop.2)]
        rfl
      · have hgo : y.checked = true → fails done.length = false := fun hcheck => by
          simpa [hcheck] using hstop
        obtain ⟨pl₁, hconnect, hbuilt⟩ := h.connect hsites hgo
        rw [hconnect]
        refine ih (by simp [hsites]) hbuilt ?_
        -- the failure is not that of `y`
        have hne : c ≠ done.length := by
          rintro rfl
          obtain rfl := Option.some.inj (hy.symm.trans hx)
          rw [hgo hchecked] at hfails
          cases hfails
        rw [List.length_append, List.length_singleton]
        omega

/-! ## §7. The finished topology. -/

/-- Every creation succeeds. -/
def EveryCreated (fails : ℕ → Bool) (n : ℕ) (nb : ℕ → ℕ) : Prop :=
  ∀ c, c < (sites n nb).length → fails c = false

theorem EveryCreated.ringOf (hall : EveryCreated fails n nb) {x : Site} (hx : x ∈ sites n nb) :
    ringOf fails n nb x = some ((sites n nb).idxOf x) :=
  created_of_not_fails (hall _ (List.idxOf_lt_length_of_mem hx))

section Finished

variable {pl : Topology}

theorem Built.outSlots_eq (h : Built fails n nb (sites n nb) pl) (p : Party) :
    pl.outSlots n nb p
      = ((sites n nb).filter fun x => x.producer n = p).map (Runtime.ringOf fails n nb) := by
  cases p with
  | inst i j => exact h.outs i j
  | main =>
      by_cases hn : n = 0
      · have hsites : sites n nb = [.sole] := sites_zero hn
        have hsole := h.sole (by simp [hsites])
        simp only [Topology.outSlots, nbFirst, hn, ne_eq, not_true_eq_false, if_false]
        rw [← hn, hsites]
        exact congrArg (fun r => [r]) hsole.1
      · have hheads : ((sites n nb).filter fun x => x.producer n = .main)
            = (List.range (nb 0)).map .head := by
          rw [sites_pos hn, List.filter_append, List.filter_append,
            filter_interSites (by simp [Site.producer])]
          simp [List.filter_map, Function.comp_def, Site.producer]
        rw [hheads, List.map_map]
        simp only [Topology.outSlots, nbFirst, ne_eq, hn, not_false_eq_true, if_true]
        refine List.map_congr_left fun j hj => h.head j ?_
        exact mem_sites.mpr ⟨by omega, List.mem_range.mp hj⟩

theorem Built.inSlots_eq (h : Built fails n nb (sites n nb) pl) (p : Party) :
    pl.inSlots n nb p
      = ((sites n nb).filter fun x => x.consumer = p).map (Runtime.ringOf fails n nb) := by
  cases p with
  | inst i j => exact h.ins i j
  | main =>
      by_cases hn : n = 0
      · have hsites : sites n nb = [.sole] := sites_zero hn
        have hsole := h.sole (by simp [hsites])
        simp only [Topology.inSlots, nbLast, hn, ne_eq, not_true_eq_false, if_false]
        rw [← hn, hsites]
        exact congrArg (fun r => [r]) hsole.2
      · have htails : ((sites n nb).filter fun x => x.consumer = .main)
            = (List.range (nb (n - 1))).map .tail := by
          rw [sites_pos hn, List.filter_append, List.filter_append,
            filter_interSites (by simp [Site.consumer])]
          simp [List.filter_map, Function.comp_def, Site.consumer]
        rw [htails, List.map_map]
        simp only [Topology.inSlots, nbLast, ne_eq, hn, not_false_eq_true, if_true]
        refine List.map_congr_left fun j hj => h.tail j ?_
        exact mem_sites.mpr ⟨by omega, List.mem_range.mp hj⟩

/-- The slots that hold the rings of some places. -/
theorem EveryCreated.mem_slots (hall : EveryCreated fails n nb) {P : Site → Bool} {r : RingId} :
    some r ∈ ((sites n nb).filter P).map (Runtime.ringOf fails n nb)
      ↔ ∃ x ∈ sites n nb, P x = true ∧ (sites n nb).idxOf x = r := by
  rw [List.mem_map]
  constructor
  · intro h
    obtain ⟨x, hx, hr⟩ := h
    obtain ⟨hmem, hp⟩ := List.mem_filter.mp hx
    rw [hall.ringOf hmem] at hr
    exact ⟨x, hmem, hp, Option.some.inj hr⟩
  · intro h
    obtain ⟨x, hmem, hp, rfl⟩ := h
    exact ⟨x, List.mem_filter.mpr ⟨hmem, hp⟩, hall.ringOf hmem⟩

theorem EveryCreated.slotsGood (hall : EveryCreated fails n nb) {P : Site → Bool}
    {cover : List Site} (hcover : ∀ x ∈ sites n nb, P x = true → x ∈ cover)
    (hroom : cover.length ≤ nbMaxRing) :
    SlotsGood (((sites n nb).filter P).map (Runtime.ringOf fails n nb)) where
  non_null := by
    intro hnone
    obtain ⟨x, hx, hring⟩ := List.mem_map.mp hnone
    rw [hall.ringOf (List.mem_filter.mp hx).1] at hring
    cases hring
  nodup := by
    apply (sites_nodup.filter P).map_on
    intro x hx y hy hxy
    have hmem_x := (List.mem_filter.mp hx).1
    rw [hall.ringOf hmem_x, hall.ringOf (List.mem_filter.mp hy).1] at hxy
    exact (List.idxOf_inj hmem_x).mp (Option.some.inj hxy)
  room := by
    have hsub : (sites n nb).filter P ⊆ cover := fun x hx =>
      hcover x (List.mem_filter.mp hx).1 (List.mem_filter.mp hx).2
    rw [List.length_map]
    exact (List.subperm_of_subset (sites_nodup.filter P) hsub).length_le.trans hroom

theorem filter_eq_singleton {α : Type} [DecidableEq α] {l : List α} {P : α → Bool} {x : α}
    (hl : l.Nodup) (hx : x ∈ l) (hP : ∀ y ∈ l, P y = true ↔ y = x) : l.filter P = [x] := by
  have hcongr : l.filter P = l.filter (· == x) :=
    List.filter_congr fun y hy => by rw [Bool.eq_iff_iff, hP y hy, beq_iff_eq]
  rw [hcongr, List.filter_beq, List.count_eq_one_of_mem hl hx]
  rfl

/-- A place is known by its two parties, when both are instances. -/
theorem eq_inter {x : Site} {i j k : ℕ} (hx : x ∈ sites n nb)
    (hproducer : x.producer n = .inst i j) (hconsumer : x.consumer = .inst (i + 1) k) :
    x = .inter i j k := by
  cases x <;> simp_all [Site.producer, Site.consumer]

/-- The places a party may put packets into. -/
def outCover : Party → List Site
  | .main => .sole :: (List.range nbPipelineStageMax).map .head
  | .inst i j => .tail j :: (List.range nbPipelineStageMax).map (.inter i j)

/-- The places a party may take packets from. -/
def inCover : Party → List Site
  | .main => .sole :: (List.range nbPipelineStageMax).map .tail
  | .inst i k => .head k :: (List.range nbPipelineStageMax).map fun j => .inter (i - 1) j k

theorem mem_outCover (hvalid : plParamsValid n nb = true) {x : Site} (hx : x ∈ sites n nb) :
    x ∈ outCover (x.producer n) := by
  obtain ⟨_, hnb⟩ := plParamsValid_iff.mp hvalid
  have hin := mem_sites.mp hx
  cases x with
  | sole => simp [outCover, Site.producer]
  | head j =>
      have hj : j < 8 := Nat.lt_of_lt_of_le hin.2 (hnb 0 hin.1)
      simp [outCover, Site.producer, nbPipelineStageMax, hj]
  | tail j => simp [outCover, Site.producer]
  | inter i j k =>
      have hk : k < 8 := Nat.lt_of_lt_of_le hin.2.2 (hnb (i + 1) hin.1)
      simp [outCover, Site.producer, nbPipelineStageMax, hk]

theorem mem_inCover (hvalid : plParamsValid n nb = true) {x : Site} (hx : x ∈ sites n nb) :
    x ∈ inCover x.consumer := by
  obtain ⟨_, hnb⟩ := plParamsValid_iff.mp hvalid
  have hin := mem_sites.mp hx
  cases x with
  | sole => simp [inCover, Site.consumer]
  | head j => simp [inCover, Site.consumer]
  | tail j =>
      have hj : j < 8 := Nat.lt_of_lt_of_le hin.2 (hnb (n - 1) (by have := hin.1; omega))
      simp [inCover, Site.consumer, nbPipelineStageMax, hj]
  | inter i j k =>
      have hj : j < 8 := Nat.lt_of_lt_of_le hin.2.1 (hnb i (by have := hin.1; omega))
      simp [inCover, Site.consumer, nbPipelineStageMax, hj]

/-- **With every ring created, the topology is good.** -/
theorem Built.good (hvalid : plParamsValid n nb = true) (hall : EveryCreated fails n nb)
    (h : Built fails n nb (sites n nb) pl) : pl.Good n nb where
  connected := by
    intro i j k hi hj hk
    have hmem : Site.inter i j k ∈ sites n nb := mem_sites.mpr ⟨hi, hj, hk⟩
    refine ⟨(sites n nb).idxOf (.inter i j k), ⟨?_, ?_⟩, ?_⟩
    · rw [h.outSlots_eq, hall.mem_slots]
      exact ⟨_, hmem, by simp [Site.producer], rfl⟩
    · rw [h.inSlots_eq, hall.mem_slots]
      exact ⟨_, hmem, by simp [Site.consumer], rfl⟩
    · intro r h
      obtain ⟨hout, hin⟩ := h
      rw [h.outSlots_eq, hall.mem_slots] at hout
      rw [h.inSlots_eq, hall.mem_slots] at hin
      obtain ⟨x, hx, hproducer, rfl⟩ := hout
      obtain ⟨y, hy, hconsumer, hidx⟩ := hin
      obtain rfl := (List.idxOf_inj hy).mp hidx
      rw [eq_inter hx (of_decide_eq_true hproducer) (of_decide_eq_true hconsumer)]
  head := by
    intro j hn hj
    have hmem : Site.head j ∈ sites n nb := mem_sites.mpr ⟨hn, hj⟩
    refine ⟨_, (h.head j hmem).trans (hall.ringOf hmem), ?_⟩
    rw [h.inSlots_eq, filter_eq_singleton sites_nodup hmem, List.map_singleton, hall.ringOf hmem]
    intro y _
    rw [decide_eq_true_iff]
    exact ⟨consumer_eq_first, fun hy => hy ▸ rfl⟩
  tail := by
    intro j hn hj
    have hmem : Site.tail j ∈ sites n nb := mem_sites.mpr ⟨hn, hj⟩
    refine ⟨_, (h.tail j hmem).trans (hall.ringOf hmem), ?_⟩
    rw [h.outSlots_eq, filter_eq_singleton sites_nodup hmem, List.map_singleton, hall.ringOf hmem]
    intro y hy
    rw [decide_eq_true_iff]
    exact ⟨producer_eq_last hy, fun hy => hy ▸ rfl⟩
  producer := by
    intro r hr
    rw [h.ringNames, List.length_map] at hr
    refine ⟨(sites n nb)[r].producer n, ?_, ?_⟩
    · change some r ∈ pl.outSlots n nb _
      rw [h.outSlots_eq, hall.mem_slots]
      exact ⟨_, List.getElem_mem hr, by simp, sites_nodup.idxOf_getElem r hr⟩
    · intro p hp
      rw [h.outSlots_eq, hall.mem_slots] at hp
      obtain ⟨x, hx, hproducer, rfl⟩ := hp
      rw [List.getElem_idxOf]
      exact (of_decide_eq_true hproducer).symm
  consumer := by
    intro r hr
    rw [h.ringNames, List.length_map] at hr
    refine ⟨(sites n nb)[r].consumer, ?_, ?_⟩
    · change some r ∈ pl.inSlots n nb _
      rw [h.inSlots_eq, hall.mem_slots]
      exact ⟨_, List.getElem_mem hr, by simp, sites_nodup.idxOf_getElem r hr⟩
    · intro p hp
      rw [h.inSlots_eq, hall.mem_slots] at hp
      obtain ⟨x, hx, hconsumer, rfl⟩ := hp
      rw [List.getElem_idxOf]
      exact (of_decide_eq_true hconsumer).symm
  outSlots := by
    intro p
    rw [h.outSlots_eq]
    have hcover : ∀ x ∈ sites n nb, decide (x.producer n = p) = true → x ∈ outCover p :=
      fun x hx hp => of_decide_eq_true hp ▸ mem_outCover hvalid hx
    refine hall.slotsGood hcover ?_
    cases p <;> simp [outCover, nbPipelineStageMax, nbMaxRing]
  inSlots := by
    intro p
    rw [h.inSlots_eq]
    have hcover : ∀ x ∈ sites n nb, decide (x.consumer = p) = true → x ∈ inCover p :=
      fun x hx hp => of_decide_eq_true hp ▸ mem_inCover hvalid hx
    refine hall.slotsGood hcover ?_
    cases p <;> simp [inCover, nbPipelineStageMax, nbMaxRing]
  ringNames := by
    rw [h.ringNames]
    exact names_nodup hvalid

end Finished

end Built

/-! ## §8. When the topology is sound. -/

/-- **A pipeline that starts has a good topology, and no creation has failed, exactly when a
head or tail ring fails or no inter-worker ring does.** -/
theorem topology_sound_iff (fails : ℕ → Bool) (n : ℕ) (nb : ℕ → ℕ)
    (hvalid : plParamsValid n nb = true) :
    TopologySound fails n nb ↔
      (∃ c x, (sites n nb)[c]? = some x ∧ x.checked = true ∧ fails c = true)
        ∨ ∀ c x, (sites n nb)[c]? = some x → x.checked = false → fails c = false := by
  have hbuild := buildTopology_eq fails hvalid
  by_cases hnoticed : ∃ c x, (sites n nb)[c]? = some x ∧ x.checked = true ∧ fails c = true
  · obtain ⟨c, x, hx, hchecked, hfails⟩ := hnoticed
    have hnone : buildTopology fails n nb = none := by
      rw [hbuild]
      exact Built.connects_none (List.nil_append _).symm Built.init (Nat.zero_le c) hx hchecked
        hfails
    refine iff_of_true ?_ (Or.inl ⟨c, x, hx, hchecked, hfails⟩)
    intro pl hpl
    rw [hnone] at hpl
    cases hpl
  · have hchecked : ∀ c x, (sites n nb)[c]? = some x → x.checked = true → fails c = false := by
      intro c x hx hcheck
      by_contra hc
      exact hnoticed ⟨c, x, hx, hcheck, by simpa using hc⟩
    obtain ⟨pl, hrun, hbuilt⟩ :=
      Built.connects (List.nil_append _).symm Built.init hchecked
    rw [← hbuild] at hrun
    have hlength : pl.ringNames.length = (sites n nb).length := by
      rw [hbuilt.ringNames, List.length_map]
    constructor
    · intro hsound
      apply Or.inr
      intro c x hx _
      have hc := (List.getElem?_eq_some_iff.mp hx).1
      exact (hsound pl hrun).2 c (hlength ▸ hc)
    · intro h
      rcases h with hfailed | hunchecked
      · exact absurd hfailed hnoticed
      · have hall : EveryCreated fails n nb := by
          intro c hc
          have hx := List.getElem?_eq_getElem hc
          cases hcheck : (sites n nb)[c].checked with
          | true => exact hchecked c _ hx hcheck
          | false => exact hunchecked c _ hx hcheck
        intro pl' hpl'
        obtain rfl := Option.some.inj (hrun.symm.trans hpl')
        exact ⟨hbuilt.good hvalid hall, fun c hc => hall c (hlength ▸ hc)⟩

/-- Two stages with two instances each: all eight rings are made. -/
theorem twoByTwo_sound : TopologySound (fun _ => false) 2 (fun _ => 2) :=
  (topology_sound_iff _ 2 (fun _ => 2) (by decide)).mpr
    (Or.inr fun _ _ _ _ => rfl)

/-- Of two stages with one instance each, the ring between them fails: the pipeline starts
without it. -/
theorem betweenFails_starts : ¬ TopologySound (fun c => c = 2) 2 (fun _ => 1) := by
  intro hsound
  obtain ⟨_, hcreated⟩ := hsound _ rfl
  exact absurd (hcreated 2 (by decide)) (by decide)

end Meili.Runtime
