/-
  Meili.Reorder.DrainExact — when `rte_reorder_drain_up_to_seqn` drains what it should.

  The mbufs before a sequence number are those whose place in the stream is before its
  place.  `seqn` has a place near those of the buffer, and then wrap-around order is the order
  of the places (`Near.before_iff`).

    `drainUpTo_exact_iff` — the drain returns the first mbufs before `seqn` and nothing
    else, and reads no entry that is not in use, exactly when `DrainSafe`.

  The source compares `seqn` with `min_seqn` as numbers, so that it takes the wrong regime
  across the wrap; and the range of its search has one entry too many, the one at the head,
  and the wrong length where the ready buffer is wrapped.
-/
import Meili.Reorder.DrainUpTo
import Meili.Reorder.Run

namespace Meili.Reorder

open Meili.Lib

/-! ## §1. What the drain should do. -/

/-- `a` is before `b` in wrap-around order. -/
def Before (a b : UInt32) : Prop := 2 ^ 31 < (a - b).toNat

instance (a b : UInt32) : Decidable (Before a b) := inferInstanceAs (Decidable (_ < _))

/-- The mbufs before `seqn`. -/
def beforeSeqn (b : ReorderBuffer) (seqn : UInt32) : List Mbuf :=
  (buffered b).filter fun m => Before m.seqn seqn

/-- The drain returns the first `max` mbufs before `seqn`, in increasing order, takes them
out and nothing else, and reads no entry of the ready buffer that is not in use. -/
def DrainsUpTo (b : ReorderBuffer) (maxMbufs : ℕ) (seqn : UInt32) : Prop :=
  let drain := rteReorderDrainUpToSeqn b maxMbufs seqn
  (∃ b' out, drain.result = some (b', out.map some) ∧ out = (beforeSeqn b seqn).take maxMbufs
      ∧ out.Pairwise (fun m m' => Before m.seqn m'.seqn)
      ∧ (out ++ buffered b').Perm (buffered b))
    ∧ ∀ position ∈ drain.reads, LiveSlot b position

/-- The binary search stays in front of the head, and finds all it should. -/
def SearchFinds (b : ReorderBuffer) (maxMbufs : ℕ) (seqn : UInt32) : Prop :=
  let c := (queued b).length
  let t := (beforeSeqn b seqn).length
  let high := (seqnFindHigh b.readyBuf).toNat
  (high < c ∧ (t ≤ high + 1 ∨ maxMbufs ≤ high + 1))
    ∨ (c ≤ high ∧ ∃ k, t ≤ rightProbe 0 (high + 1) k ∧ rightProbe 0 (high + 1) k < c)

/-- When the drain does what it should.  As numbers, either `seqn` is not below `min_seqn`:
then it must not be before it, or there is nothing that the drain takes too much.  Or it is:
then the search must find it, or there is nothing to drain. -/
def DrainSafe (b : ReorderBuffer) (maxMbufs : ℕ) (seqn : UInt32) : Prop :=
  if seqn < b.minSeqn then
    if ∃ m, (queued b).head? = some m ∧ m.seqn ≤ seqn then SearchFinds b maxMbufs seqn
    else maxMbufs = 0 ∨ beforeSeqn b seqn = []
  else
    Before seqn b.minSeqn →
      maxMbufs ≤ (beforeSeqn b seqn).length ∨ beforeSeqn b seqn = buffered b

/-! ## §2. Places near that of `seqn`. -/

/-- Place `σ` is less than 2^31 ahead of or behind the window's start and every mbuf. -/
structure Near (σ base : ℤ) (xs : List (ℤ × Mbuf)) : Prop where
  start : |σ - base| < 2 ^ 31
  mbufs : ∀ x ∈ xs, |σ - x.1| < 2 ^ 31

theorem before_seqnAt {p σ : ℤ} (h : |σ - p| < 2 ^ 31) : Before (seqnAt p) (seqnAt σ) ↔ p < σ := by
  have hdiff := toNat_seqnAt (p - σ)
  rw [abs_lt] at h
  unfold Before
  rw [seqnAt_sub]
  omega

/-- A list in order is what is before a place, and then the rest. -/
theorem filter_append_of_sorted {l : List (ℤ × Mbuf)} (h : l.Pairwise fun x y => x.1 < y.1)
    (σ : ℤ) : l.filter (fun x => x.1 < σ) ++ l.filter (fun x => ¬ x.1 < σ) = l := by
  induction l with
  | nil => rfl
  | cons x l ih =>
      obtain ⟨hx, hl⟩ := List.pairwise_cons.mp h
      by_cases hlt : x.1 < σ
      · rw [List.filter_cons_of_pos (by simpa using hlt),
          List.filter_cons_of_neg (by simpa using hlt), List.cons_append, ih hl]
      · -- what is behind `x` is not before `σ` either
        have hall : ∀ y ∈ x :: l, ¬ y.1 < σ := by
          intro y hy
          rcases List.mem_cons.mp hy with rfl | hy
          · exact hlt
          · have hxy := hx y hy
            omega
        rw [List.filter_eq_nil_iff.mpr (by simpa using hall),
          List.filter_eq_self.mpr (by simpa using hall), List.nil_append]

section Near

variable {size : ℕ} {b : ReorderBuffer} {q : Resequencer} {base σ : ℤ}
  {placed : List (ℤ × Mbuf)}

/-- All mbufs are in the order of the stream. -/
theorem Numbered.all_sorted (h : Numbered q base placed) :
    (placed ++ seats base q.window).Pairwise fun x y => x.1 < y.1 :=
  List.pairwise_append.mpr ⟨h.sorted, seats_sorted _ _, fun x hx _ hy =>
    (h.below x hx).trans_le (seats_range hy).1⟩

theorem Numbered.held_eq (h : Numbered q base placed) :
    q.held = (placed ++ seats base q.window).map Prod.snd := by
  rw [List.map_append, seats_snd, Resequencer.held, h.ready]

/-- What is held and before `σ`. -/
def beforePlace (σ base : ℤ) (placed : List (ℤ × Mbuf)) (q : Resequencer) : List (ℤ × Mbuf) :=
  (placed ++ seats base q.window).filter fun x => x.1 < σ

theorem Near.beforeSeqn_eq (hnear : Near σ base (placed ++ seats base q.window))
    (h : Holds size b q) (hnum : Numbered q base placed) :
    beforeSeqn b (seqnAt σ) = (beforePlace σ base placed q).map Prod.snd := by
  unfold beforeSeqn beforePlace
  rw [h.buffered_eq, hnum.held_eq, List.filter_map]
  refine congrArg (List.map Prod.snd) (List.filter_congr fun x hx => ?_)
  rw [Function.comp_apply, hnum.seqn x hx]
  exact decide_eq_decide.mpr (before_seqnAt (hnear.mbufs x hx))

/-- The mbufs before `seqn` are the first. -/
theorem Near.beforeSeqn_prefix (hnear : Near σ base (placed ++ seats base q.window))
    (h : Holds size b q) (hnum : Numbered q base placed) :
    ∃ rest, q.held = beforeSeqn b (seqnAt σ) ++ rest := by
  refine ⟨((placed ++ seats base q.window).filter fun x => ¬ x.1 < σ).map Prod.snd, ?_⟩
  rw [hnear.beforeSeqn_eq h hnum, ← List.map_append, beforePlace,
    filter_append_of_sorted hnum.all_sorted, hnum.held_eq]

/-- They are in increasing order. -/
theorem Near.beforeSeqn_sorted (hnear : Near σ base (placed ++ seats base q.window))
    (h : Holds size b q) (hnum : Numbered q base placed) :
    (beforeSeqn b (seqnAt σ)).Pairwise fun m m' => Before m.seqn m'.seqn := by
  have hsorted := hnum.all_sorted.sublist
    (List.filter_sublist (p := fun x : ℤ × Mbuf => x.1 < σ))
  rw [hnear.beforeSeqn_eq h hnum, List.pairwise_map]
  apply hsorted.imp_of_mem
  intro x y hx hy hlt
  obtain ⟨hx, hxσ⟩ := List.mem_filter.mp hx
  obtain ⟨hy, hyσ⟩ := List.mem_filter.mp hy
  have hnear_x := abs_lt.mp (hnear.mbufs x hx)
  have hnear_y := abs_lt.mp (hnear.mbufs y hy)
  have hxσ := of_decide_eq_true hxσ
  have hyσ := of_decide_eq_true hyσ
  rw [hnum.seqn x hx, hnum.seqn y hy]
  exact (before_seqnAt (abs_lt.mpr ⟨by omega, by omega⟩)).mpr hlt

/-- The drain is right if it returns the right mbufs, leaves the others and reads what is in
use. -/
theorem Near.drainsUpTo_iff (hnear : Near σ base (placed ++ seats base q.window))
    (h : Holds size b q) (hnum : Numbered q base placed) {max : ℕ} {b' : ReorderBuffer}
    {q' : Resequencer} {reads : List UInt32} {out : List Mbuf}
    (hdrain : rteReorderDrainUpToSeqn b max (seqnAt σ) = ⟨reads, some (b', out.map some)⟩)
    (hlive : ∀ position ∈ reads, LiveSlot b position) (h' : Holds size b' q')
    (hheld : out ++ q'.held = q.held) :
    DrainsUpTo b max (seqnAt σ) ↔ out = (beforeSeqn b (seqnAt σ)).take max := by
  unfold DrainsUpTo
  rw [hdrain]
  constructor
  · intro h
    obtain ⟨⟨b₁, out₁, hresult, hout, -⟩, -⟩ := h
    have hpair := Option.some.inj hresult
    have heq : out = out₁ :=
      List.map_injective_iff.mpr (Option.some_injective _) (Prod.mk.inj hpair).2
    rw [heq, hout]
  · intro hout
    refine ⟨⟨b', out, rfl, hout, ?_, ?_⟩, hlive⟩
    · rw [hout]
      exact (hnear.beforeSeqn_sorted h hnum).sublist (List.take_sublist _ _)
    · rw [h'.buffered_eq, h.buffered_eq, hheld]

/-! ## §3. From `min_seqn` on. -/

theorem toNat_seqnAt_sub {p r : ℤ} (hle : r ≤ p) (hlt : p - r < 2 ^ 32) :
    ((seqnAt p - seqnAt r).toNat : ℤ) = p - r := by
  rw [seqnAt_sub, toNat_seqnAt]
  exact Int.emod_eq_of_lt (by omega) hlt

/-- What the drain returns here: the first `max` of the queue and the places it may scan. -/
theorem fetch_eq_take (q : Resequencer) (k max : ℕ) :
    q.ready.take max ++ (fetch k (max - q.ready.length) q.window).2
      = (q.ready ++ (q.window.take k).reduceOption).take max := by
  rw [(fetch_spec q.window k (max - q.ready.length)).2.2.2, List.take_append]

/-- Up to a place in or behind the window, the mbufs before it are those that the drain may
take. -/
theorem Near.beforeSeqn_window (hnear : Near σ base (placed ++ seats base q.window))
    (h : Holds size b q) (hnum : Numbered q base placed) (hle : base ≤ σ) :
    q.ready ++ (q.window.take (min (σ - base).toNat q.window.length)).reduceOption
      = beforeSeqn b (seqnAt σ) := by
  generalize hk : min (σ - base).toNat q.window.length = k
  have hlength : k ≤ q.window.length := hk ▸ Nat.min_le_right _ _
  have htake : (q.window.take k).length = k := by rw [List.length_take, Nat.min_eq_left hlength]
  rw [hnear.beforeSeqn_eq h hnum, beforePlace, seats_slide hlength base, List.filter_append,
    List.filter_append, List.map_append, List.map_append, hnum.ready, ← seats_snd base]
  have hfirst : placed.filter (fun x => x.1 < σ) = placed := by
    refine List.filter_eq_self.mpr fun x hx => decide_eq_true ?_
    have hlt := hnum.below x hx
    omega
  have hscanned : (seats base (q.window.take k)).filter (fun x => x.1 < σ)
      = seats base (q.window.take k) := by
    refine List.filter_eq_self.mpr fun x hx => decide_eq_true ?_
    have hrange := seats_range hx
    omega
  have hrest : (seats (base + k) (slide q.window k)).filter (fun x => x.1 < σ) = [] := by
    apply List.filter_eq_nil_iff.mpr
    intro x hx
    have hmem : x ∈ seats base q.window := by
      rw [seats_slide hlength base]
      exact List.mem_append_right _ hx
    have hrange := seats_range hx
    have hend := seats_range hmem
    rw [decide_eq_true_iff]
    omega
  rw [hfirst, hscanned, hrest, List.map_nil, List.append_nil]

theorem take_prefix_iff {α : Type*} {before rest : List α} {max : ℕ} :
    (before ++ rest).take max = before.take max ↔ max ≤ before.length ∨ rest = [] := by
  rw [List.take_append, List.append_right_eq_self, List.take_eq_nil_iff, Nat.sub_eq_zero_iff_le]

/-- **Where `seqn` is not below `min_seqn` as a number.** -/
theorem Near.order_iff (hnear : Near σ base (placed ++ seats base q.window))
    (h : Holds size b q) (hnum : Numbered q base placed) (hge : ¬ seqnAt σ < b.minSeqn) (max : ℕ) :
    DrainsUpTo b max (seqnAt σ) ↔
      (Before (seqnAt σ) b.minSeqn →
        max ≤ (beforeSeqn b (seqnAt σ)).length ∨ beforeSeqn b (seqnAt σ) = buffered b) := by
  obtain ⟨b', hdrain, h'⟩ := h.drainUpTo_order hge max
  have hmin : b.minSeqn = seqnAt base := h.refines.minSeqn.trans hnum.minSeqn
  have hsize : b.orderBuf.size.toNat = q.window.length :=
    h.refines.orderWF.size_eq.trans h.refines.window_length.symm
  have hlive := h.live_slotsFrom (Nat.min_le_right max q.ready.length)
  rw [hnear.drainsUpTo_iff h hnum hdrain hlive h' (fetch_held q _ max _), fetch_eq_take, hmin,
    before_seqnAt (by rw [abs_sub_comm]; exact hnear.start), toNat_min, hsize]
  obtain ⟨rest, hrest⟩ := hnear.beforeSeqn_prefix h hnum
  have hnear_start := abs_lt.mp hnear.start
  rcases lt_or_ge σ base with hlt | hle
  · -- before the window: the drain takes what it can get
    have hoffset : q.window.length ≤ (seqnAt σ - seqnAt base).toNat := by
      have hdiff := toNat_seqnAt (σ - base)
      have hwindow := h.refines.orderWF.size_lt
      rw [← h.refines.window_length] at hwindow
      rw [seqnAt_sub]
      omega
    rw [Nat.min_eq_right hoffset, List.take_length]
    show q.held.take max = _ ↔ _
    rw [h.buffered_eq, hrest, take_prefix_iff, List.self_eq_append_right]
    exact (imp_iff_right hlt).symm
  · have hoffset : (seqnAt σ - seqnAt base).toNat = (σ - base).toNat := by
      have hdiff := toNat_seqnAt_sub hle (by omega)
      omega
    rw [hoffset, hnear.beforeSeqn_window h hnum hle]
    apply iff_of_true rfl
    intro hbefore
    omega

/-! ## §4. Below `min_seqn`. -/

/-- **Where nothing ready is below `seqn` as a number.** -/
theorem Near.none_iff (hnear : Near σ base (placed ++ seats base q.window))
    (h : Holds size b q) (hnum : Numbered q base placed) (hlt : seqnAt σ < b.minSeqn)
    (hnone : ∀ m, q.ready.head? = some m → seqnAt σ < m.seqn) (max : ℕ) :
    DrainsUpTo b max (seqnAt σ) ↔ max = 0 ∨ beforeSeqn b (seqnAt σ) = [] := by
  obtain ⟨reads, hdrain, hlive⟩ := h.drainUpTo_none hlt hnone max
  have hnil : rteReorderDrainUpToSeqn b max (seqnAt σ)
      = ⟨reads, some (b, ([] : List Mbuf).map some)⟩ := hdrain
  rw [hnear.drainsUpTo_iff h hnum hnil hlive h (List.nil_append _), eq_comm,
    List.take_eq_nil_iff]

/-- On one turn of the numbers they are in the order of the places. -/
theorem seqnAt_lt_iff {p r : ℤ} (hturn : p / 2 ^ 32 = r / 2 ^ 32) :
    seqnAt p < seqnAt r ↔ p < r := by
  have hp := toNat_seqnAt p
  have hr := toNat_seqnAt r
  rw [UInt32.lt_iff_toNat_lt]
  omega

theorem seqnAt_eq_iff {p r : ℤ} (hturn : p / 2 ^ 32 = r / 2 ^ 32) :
    seqnAt p = seqnAt r ↔ p = r := by
  have hp := toNat_seqnAt p
  have hr := toNat_seqnAt r
  rw [← UInt32.toNat_inj]
  omega

/-- The entry `i` places behind the tail. -/
theorem Holds.get_slotAt (h : Holds size b q) {i : ℕ} {m : Mbuf} (hi : q.ready[i]? = some m) :
    b.readyBuf.get (slotAt b.readyBuf i) = some m := by
  have hqueue : b.readyBuf.queue size = q.ready.map some := h.refines.ready
  have hlength : q.ready.length ≤ size - 1 := h.refines.ready_length
  have hlt := (List.getElem?_eq_some_iff.mp hi).1
  have hentry : (b.readyBuf.queue size)[i]? = some (some m) := by
    rw [hqueue, List.getElem?_map, hi]
    rfl
  have hcount : i < liveCount size b.readyBuf.tail.toNat b.readyBuf.head.toNat := by
    have hc := congrArg List.length hqueue
    rw [CirBuffer.queue, live_length, List.length_map] at hc
    omega
  rw [CirBuffer.queue, live, List.getElem?_map, List.getElem?_range hcount] at hentry
  rw [CirBuffer.get, h.toNat_slotAt (by omega)]
  exact Option.some.inj hentry

/-- In a list in order, the entries before a place are the first. -/
theorem lt_iff_of_sorted {l : List (ℤ × Mbuf)} (h : l.Pairwise fun x y => x.1 < y.1) {i : ℕ}
    {x : ℤ × Mbuf} (hi : l[i]? = some x) :
    x.1 < σ ↔ i < (l.filter fun x => x.1 < σ).length := by
  rw [← filter_append_of_sorted h σ, List.getElem?_append] at hi
  split at hi
  · next hlt =>
      have hx := (List.mem_filter.mp (List.mem_of_getElem? hi)).2
      exact iff_of_true (of_decide_eq_true hx) hlt
  · next hge =>
      have hx := (List.mem_filter.mp (List.mem_of_getElem? hi)).2
      exact iff_of_false (of_decide_eq_true hx) hge

section Found

variable {m : Mbuf} {rest : List Mbuf}

/-- Behind the test of the entry at the tail, the ready buffer is on the turn of `σ`, and the
window begins behind `σ`. -/
theorem Near.same_turn (hnear : Near σ base (placed ++ seats base q.window))
    (h : Holds size b q) (hnum : Numbered q base placed) (hlt : seqnAt σ < b.minSeqn)
    (hready : q.ready = m :: rest) (hm : m.seqn ≤ seqnAt σ) :
    σ < base ∧ ∀ x ∈ placed, x.1 / 2 ^ 32 = σ / 2 ^ 32 := by
  have hmin : b.minSeqn = seqnAt base := h.refines.minSeqn.trans hnum.minSeqn
  cases placed with
  | nil =>
      have hnil := hnum.ready
      rw [hready] at hnil
      exact absurd hnil (by simp)
  | cons x placed =>
      have hx : x.2 = m := by
        have hcons := hnum.ready
        rw [hready] at hcons
        exact (List.cons.inj hcons).1.symm
      -- the numbers at the tail, of `σ` and of the window's start
      have hseqn := hnum.seqn x (by simp)
      have hfirst := toNat_seqnAt x.1
      have hσ := toNat_seqnAt σ
      have hbase := toNat_seqnAt base
      rw [hx] at hseqn
      rw [hseqn, UInt32.le_iff_toNat_le] at hm
      rw [hmin, UInt32.lt_iff_toNat_lt] at hlt
      have hnear_start := abs_lt.mp hnear.start
      have hnear_x := abs_lt.mp (hnear.mbufs x (by simp))
      have hbelow := hnum.below x (by simp)
      refine ⟨by omega, fun y hy => ?_⟩
      have hy_below := hnum.below y hy
      have hxy : x.1 ≤ y.1 := by
        rcases List.mem_cons.mp hy with rfl | hy
        · exact le_refl _
        · exact ((List.pairwise_cons.mp hnum.sorted).1 y hy).le
      omega

/-- **The numbers in use are in order**, so that the search may find `seqn`. -/
theorem Near.cut (hnear : Near σ base (placed ++ seats base q.window))
    (h : Holds size b q) (hnum : Numbered q base placed) (hlt : seqnAt σ < b.minSeqn)
    (hready : q.ready = m :: rest) (hm : m.seqn ≤ seqnAt σ) :
    beforeSeqn b (seqnAt σ) = (placed.filter fun x => x.1 < σ).map Prod.snd
      ∧ Cut (seqnCmp b.readyBuf (seqnAt σ)) (beforeSeqn b (seqnAt σ)).length q.ready.length := by
  obtain ⟨hbase, hturn⟩ := hnear.same_turn h hnum hlt hready hm
  have hbefore : beforeSeqn b (seqnAt σ) = (placed.filter fun x => x.1 < σ).map Prod.snd := by
    have hwindow : (seats base q.window).filter (fun x => x.1 < σ) = [] := by
      apply List.filter_eq_nil_iff.mpr
      intro x hx
      have hrange := seats_range hx
      rw [decide_eq_true_iff]
      omega
    rw [hnear.beforeSeqn_eq h hnum, beforePlace, List.filter_append, hwindow, List.append_nil]
  have hcount : (beforeSeqn b (seqnAt σ)).length = (placed.filter fun x => x.1 < σ).length := by
    rw [hbefore, List.length_map]
  have hlength : q.ready.length = placed.length := by rw [hnum.ready, List.length_map]
  have hentry : ∀ i (hi : i < placed.length), seqnCmp b.readyBuf (seqnAt σ) i
      = some (if σ = placed[i].1 then .eq else if placed[i].1 < σ then .gt else .lt) := by
    intro i hi
    have hmem : placed[i] ∈ placed := List.getElem_mem hi
    have hget : q.ready[i]? = some placed[i].2 := by
      rw [hnum.ready, List.getElem?_map, List.getElem?_eq_getElem hi]
      rfl
    have hseqn := hnum.seqn placed[i] (List.mem_append_left _ hmem)
    have hsame := hturn placed[i] hmem
    rw [seqnCmp, h.get_slotAt hget, Option.map_some, hseqn]
    simp only [seqnAt_eq_iff hsame.symm, gt_iff_lt, seqnAt_lt_iff hsame]
  rw [hcount, hlength]
  refine ⟨hbefore, List.length_filter_le _ _, fun i hi => ?_, fun i hti hi => ?_, fun ht => ?_⟩
  · have hlt : i < placed.length := hi.trans_le (List.length_filter_le _ _)
    have hless := (lt_iff_of_sorted hnum.sorted (List.getElem?_eq_getElem hlt)).mpr hi
    rw [hentry i hlt, if_neg (by omega), if_pos hless]
  · have ht := hti.trans hi
    have hnot := mt (lt_iff_of_sorted hnum.sorted (List.getElem?_eq_getElem ht)).mp (lt_irrefl _)
    have hsorted := List.pairwise_iff_getElem.mp hnum.sorted _ _ ht hi hti
    rw [hentry i hi, if_neg (by omega), if_neg (by omega)]
  · have hnot := mt (lt_iff_of_sorted hnum.sorted (List.getElem?_eq_getElem ht)).mp (lt_irrefl _)
    rw [hentry _ ht, if_neg hnot]
    split
    · exact Or.inl rfl
    · exact Or.inr rfl

/-- A search that looks at entries in use finds the number of mbufs before `seqn`, or its range
ends before. -/
theorem Near.live_iff (hnear : Near σ base (placed ++ seats base q.window))
    (h : Holds size b q) (hnum : Numbered q base placed) (hlt : seqnAt σ < b.minSeqn)
    (hready : q.ready = m :: rest) (hm : m.seqn ≤ seqnAt σ)
    (hlive : ∀ i ∈ (seqnBisect b.readyBuf (seqnAt σ)).probes, i < q.ready.length) (max : ℕ) :
    DrainsUpTo b max (seqnAt σ) ↔
      (beforeSeqn b (seqnAt σ)).length ≤ (seqnFindHigh b.readyBuf).toNat + 1
        ∨ max ≤ (seqnFindHigh b.readyBuf).toNat + 1 := by
  obtain ⟨hbefore, hcut⟩ := hnear.cut h hnum hlt hready hm
  have hle := hcut.le
  have hlength : q.ready.length ≤ size - 1 := h.refines.ready_length
  have hsize : 2 * size ≤ 2 ^ 32 := h.refines.readyWF.size_lt.2
  generalize ht : (beforeSeqn b (seqnAt σ)).length = t at hcut hle
  generalize hhigh : (seqnFindHigh b.readyBuf).toNat = high
  have hresult : (seqnBisect b.readyBuf (seqnAt σ)).result = some (min t (high + 1)) := by
    have hends := bisect_result hcut (Nat.zero_le _) hlive
    rw [Nat.zero_add, hhigh] at hends
    rw [seqnBisect, hhigh, hends]
  have hfind : (readyBufferSeqnFind b.readyBuf (seqnAt σ)).offset
      = some (UInt32.ofNat (min t (high + 1))) := by
    rw [h.readyBufferSeqnFind_eq hready hm, hresult]
    rfl
  have hoffset : (UInt32.ofNat (min t (high + 1))).toNat = min t (high + 1) :=
    uint32_toNat_ofNat (by omega)
  obtain ⟨b', hdrain, h'⟩ := h.drainUpTo_found hlt hready hm hfind (by omega) max
  have hreads : ∀ position ∈ b.readyBuf.tail :: (readyBufferSeqnFind b.readyBuf (seqnAt σ)).reads
      ++ slotsFrom b.readyBuf (min (UInt32.ofNat (min t (high + 1))).toNat max),
      LiveSlot b position := by
    intro position hposition
    rcases List.mem_append.mp hposition with hposition | hposition
    · rcases List.mem_cons.mp hposition with rfl | hposition
      · exact h.liveSlot_tail (by rw [hready]; simp)
      · exact (h.reads_live_iff hready hm).mpr hlive position hposition
    · exact h.live_slotsFrom (by omega) position hposition
  have hheld : q.ready.take (min (UInt32.ofNat (min t (high + 1))).toNat max)
      ++ Resequencer.held { q with
        ready := q.ready.drop (min (UInt32.ofNat (min t (high + 1))).toNat max) } = q.held := by
    unfold Resequencer.held
    rw [← List.append_assoc, List.take_append_drop]
  -- the mbufs before `seqn` are the first of the ready buffer
  have hfirst : ∀ n, n ≤ t → q.ready.take n = (beforeSeqn b (seqnAt σ)).take n := by
    intro n hn
    rw [hbefore] at ht ⊢
    rw [hnum.ready]
    conv_lhs => rw [← filter_append_of_sorted hnum.sorted σ, List.map_append]
    exact List.take_append_of_le_length (by omega)
  rw [hnear.drainsUpTo_iff h hnum hdrain hreads h' hheld, hoffset, hfirst _ (by omega),
    List.take_eq_take_iff, ht]
  omega

/-- **Where the first ready number is not above `seqn`.** -/
theorem Near.found_iff (hnear : Near σ base (placed ++ seats base q.window))
    (h : Holds size b q) (hnum : Numbered q base placed) (hlt : seqnAt σ < b.minSeqn)
    (hready : q.ready = m :: rest) (hm : m.seqn ≤ seqnAt σ) (max : ℕ) :
    DrainsUpTo b max (seqnAt σ) ↔ SearchFinds b max (seqnAt σ) := by
  obtain ⟨-, hcut⟩ := hnear.cut h hnum hlt hready hm
  have hle := hcut.le
  unfold SearchFinds
  rw [h.queued_eq]
  dsimp only
  by_cases hlive : ∀ i ∈ (seqnBisect b.readyBuf (seqnAt σ)).probes, i < q.ready.length
  · rw [hnear.live_iff h hnum hlt hready hm hlive]
    rcases Nat.lt_or_ge (seqnFindHigh b.readyBuf).toNat q.ready.length with hshort | hlong
    · exact ⟨fun hends => Or.inl ⟨hshort, hends⟩, fun hfinds => by
        rcases hfinds with hfinds | hfinds
        · exact hfinds.2
        · exact absurd hfinds.1 (by omega)⟩
    · refine iff_of_true (Or.inl (by omega)) (Or.inr ⟨hlong, ?_⟩)
      exact (bisect_live_iff hcut (Nat.zero_le _) (by omega)).mp hlive
  · refine iff_of_false (fun hdrains => hlive ?_) fun hfinds => hlive ?_
    · -- what the search reads, the drain reads
      rw [← h.reads_live_iff hready hm]
      intro position hposition
      exact hdrains.2 position ((h.drainUpTo_search hlt hready hm max).1 position hposition)
    · rcases hfinds with ⟨hshort, -⟩ | ⟨hlong, hright⟩
      · intro i hi
        have hrange := (bisect_probes _ _ _ i hi).2
        omega
      · exact (bisect_live_iff hcut (Nat.zero_le _) (by omega)).mpr hright

end Found

end Near

/-! ## §5. Every reachable buffer. -/

/-- One call on a reorder buffer; behind a drain that reads an entry that is not in use,
nothing is known. -/
inductive DrainStep : ReorderBuffer → ReorderBuffer → Prop
  | call {b b' : ReorderBuffer} (h : BufferStep b b') : DrainStep b b'
  | drainUpTo {b b' : ReorderBuffer} {mbufs : List (Option Mbuf)} (maxMbufs : ℕ) (seqn : UInt32)
      (hlive : ∀ position ∈ (rteReorderDrainUpToSeqn b maxMbufs seqn).reads, LiveSlot b position)
      (hresult : (rteReorderDrainUpToSeqn b maxMbufs seqn).result = some (b', mbufs)) :
      DrainStep b b'

/-- `b` is what some calls make of a new buffer of `size` places. -/
def DrainReachable (size : UInt32) (b : ReorderBuffer) : Prop :=
  ∃ b₀, rteReorderCreate size = some b₀ ∧ Relation.ReflTransGen DrainStep b₀ b

section Reachable

variable {size : ℕ} {b b' : ReorderBuffer}

/-- The drain leaves the mbufs in their places. -/
theorem HasPlaces.drainUpTo (h : HasPlaces size b) {max : ℕ} {seqn : UInt32}
    {mbufs : List (Option Mbuf)}
    (hlive : ∀ position ∈ (rteReorderDrainUpToSeqn b max seqn).reads, LiveSlot b position)
    (hresult : (rteReorderDrainUpToSeqn b max seqn).result = some (b', mbufs)) :
    HasPlaces size b' := by
  obtain ⟨q, base, placed, hq, hnum⟩ := h
  by_cases hlt : seqn < b.minSeqn
  · by_cases hfirst : ∃ m, q.ready.head? = some m ∧ m.seqn ≤ seqn
    · obtain ⟨m, hhead, hm⟩ := hfirst
      obtain ⟨rest, hready⟩ := List.head?_eq_some_iff.mp hhead
      obtain ⟨hreads, hnone⟩ := hq.drainUpTo_search hlt hready hm max
      have hprobes := (hq.reads_live_iff hready hm).mp fun p hp => hlive p (hreads p hp)
      have hfind := hq.readyBufferSeqnFind_eq hready hm
      cases hoff : (seqnBisect b.readyBuf seqn).result with
      | none =>
          rw [hnone (by rw [hfind, hoff]; rfl)] at hresult
          cases hresult
      | some r =>
          have hle := bisect_result_le (Nat.zero_le _) hprobes hoff
          have hlength : q.ready.length ≤ size - 1 := hq.refines.ready_length
          have hsize : 2 * size ≤ 2 ^ 32 := hq.refines.readyWF.size_lt.2
          have hoffset : (UInt32.ofNat r).toNat = r := uint32_toNat_ofNat (by omega)
          have hfound : (readyBufferSeqnFind b.readyBuf seqn).offset = some (UInt32.ofNat r) := by
            rw [hfind, hoff]
            rfl
          obtain ⟨b₁, hdrain, hb₁⟩ := hq.drainUpTo_found hlt hready hm hfound (by omega) max
          rw [hdrain] at hresult
          obtain ⟨rfl, -⟩ := Prod.mk.inj (Option.some.inj hresult)
          exact ⟨_, _, _, hb₁, hnum.dropReady _⟩
    · obtain ⟨reads, hdrain, -⟩ := hq.drainUpTo_none hlt (fun m hhead => by
        by_contra hle
        exact hfirst ⟨m, hhead, UInt32.not_lt.mp hle⟩) max
      rw [hdrain] at hresult
      obtain ⟨rfl, -⟩ := Prod.mk.inj (Option.some.inj hresult)
      exact ⟨q, base, placed, hq, hnum⟩
  · obtain ⟨b₁, hdrain, hb₁⟩ := hq.drainUpTo_order hlt max
    rw [hdrain] at hresult
    obtain ⟨rfl, -⟩ := Prod.mk.inj (Option.some.inj hresult)
    obtain ⟨moved, hadv⟩ := hnum.advance (List.nil_sublist _) (fetch_spec q.window _ _).2.1
    rw [List.append_nil] at hadv
    exact ⟨_, _, _, hb₁, hadv.dropReady max⟩

theorem DrainReachable.hasPlaces {size : UInt32} (h : DrainReachable size b) :
    HasPlaces size.toNat b := by
  obtain ⟨b₀, hcreate, hrun⟩ := h
  refine ReflTransGen.invariant (HasPlaces size.toNat) (hasPlaces_create hcreate) ?_ hrun
  intro x y hx hstep
  cases hstep with
  | call hcall => exact hx.step hcall
  | drainUpTo maxMbufs seqn hlive hresult => exact hx.drainUpTo hlive hresult

end Reachable

/-- **`rte_reorder_drain_up_to_seqn`**, from every reachable buffer, with any limit and any
`seqn` whose place is near: the mbufs of the buffer have places, and the drain takes those
before `seqn` exactly when `DrainSafe`. -/
theorem drainUpTo_exact_iff (size : UInt32) (b : ReorderBuffer) (h : DrainReachable size b) :
    HasPlaces size.toNat b
      ∧ ∀ q base placed σ max, Holds size.toNat b q → Numbered q base placed →
        Near σ base (placed ++ seats base q.window) →
        (DrainsUpTo b max (seqnAt σ) ↔ DrainSafe b max (seqnAt σ)) := by
  refine ⟨h.hasPlaces, fun q base placed σ max hq hnum hnear => ?_⟩
  unfold DrainSafe
  rw [hq.queued_eq]
  split
  · next hlt =>
      split
      · next hfirst =>
          obtain ⟨m, hhead, hm⟩ := hfirst
          obtain ⟨rest, hready⟩ := List.head?_eq_some_iff.mp hhead
          exact hnear.found_iff hq hnum hlt hready hm max
      · next hfirst =>
          refine hnear.none_iff hq hnum hlt (fun m hhead => ?_) max
          by_contra hle
          exact hfirst ⟨m, hhead, UInt32.not_lt.mp hle⟩
  · next hge => exact hnear.order_iff hq hnum hge max

/-! ### A buffer that waits for a packet. -/

/-- A new buffer of four places. -/
def newBuffer : ReorderBuffer := (rteReorderCreate 4).get (by decide)

/-- Packet 0 has gone to the ready buffer, packet 5 waits in the window, which begins at 2. -/
def waiting : ReorderBuffer :=
  (rteReorderInsert (rteReorderInsert newBuffer (some (pkt 0))).1 (some (pkt 5))).1

/-- What it holds. -/
def waitingFor : Resequencer := ⟨2, [pkt 0], [none, none, none, some (pkt 5)]⟩

theorem newBuffer_create : rteReorderCreate 4 = some newBuffer := (Option.some_get _).symm

theorem waiting_reachable : DrainReachable 4 waiting := by
  refine ⟨newBuffer, newBuffer_create, ?_⟩
  exact (Relation.ReflTransGen.single (.call (.insert _ (some (pkt 0))))).tail
    (.call (.insert _ (some (pkt 5))))

theorem waiting_holds : Holds 4 waiting waitingFor := by
  have hnew := rteReorderCreate_holds newBuffer_create
  have hone := (hnew.insert (pkt 0)).1.holds
  exact (hone.insert (pkt 5)).1.holds

theorem waiting_numbered : Numbered waitingFor 2 [(0, pkt 0)] :=
  ⟨by decide, rfl, by decide, by decide, by decide⟩

theorem waiting_near {σ : ℤ} (h : 0 ≤ σ ∧ σ ≤ 7) :
    Near σ 2 ([(0, pkt 0)] ++ seats 2 waitingFor.window) := by
  have hseats : seats 2 waitingFor.window = [(5, pkt 5)] := rfl
  rw [hseats]
  refine ⟨abs_lt.mpr ⟨by omega, by omega⟩, fun x hx => abs_lt.mpr ?_⟩
  rcases List.mem_cons.mp hx with rfl | hx
  · exact ⟨by show _ < σ - 0; omega, by show σ - 0 < _; omega⟩
  · rw [List.mem_singleton.mp hx]
    exact ⟨by show _ < σ - 5; omega, by show σ - 5 < _; omega⟩

/-- Up to 7, both packets are drained. -/
theorem waiting_drains : DrainsUpTo waiting 4 (seqnAt 7) := by
  refine ((drainUpTo_exact_iff 4 waiting waiting_reachable).2 waitingFor 2 [(0, pkt 0)] 7 4
    waiting_holds waiting_numbered (waiting_near (by decide))).mpr ?_
  have hge : ¬ seqnAt 7 < waiting.minSeqn := by decide
  have hahead : ¬ Before (seqnAt 7) waiting.minSeqn := by decide
  unfold DrainSafe
  rw [if_neg hge]
  exact fun hbefore => absurd hbefore hahead

/-- Up to 1 the search looks at the entry at the head, which is NULL. -/
theorem upToOne_fails : ¬ ∀ (size : UInt32) (b : ReorderBuffer), DrainReachable size b →
    ∀ q base placed σ max, Holds size.toNat b q → Numbered q base placed →
      Near σ base (placed ++ seats base q.window) → DrainsUpTo b max (seqnAt σ) := by
  intro hclaim
  obtain ⟨⟨b', out, hresult, -⟩, -⟩ := hclaim 4 waiting waiting_reachable waitingFor 2 [(0, pkt 0)]
    1 4 waiting_holds waiting_numbered (waiting_near (by decide))
  have hnull : (rteReorderDrainUpToSeqn waiting 4 (seqnAt 1)).result.isNone = true := by decide
  rw [hresult] at hnull
  cases hnull

end Meili.Reorder
