/-
  Meili.Reorder.InOrder — an ordered stream through the reorder stage.

  The packets 0, 1, 2, ... of a stream come in order, in `reorder_exec` calls of any sizes.
  Each call inserts all it is given and drains `batch_size` mbufs at most, so the packets
  that stay behind (`backlog`) depend on all calls so far.

    • While call and backlog fit the buffer, the window holds the backlog and nothing else
      (`InOrder.exec`), and no packet is dropped.
    • The first packet that does not fit is not taken (`Windowed.full_not_takes`): it is
      rejected, or `rte_reorder_fill_overflow` clears the last place with the ready buffer
      full.

  Hence `inOrder_kept_iff`: nothing is ever dropped if and only if backlog and call fit the
  buffer every time.
-/
import Meili.DataPlane.Model
import Meili.Reorder.Stream
import Meili.Reorder.Vanish

namespace Meili.Reorder

open Meili.Lib

/-! ## §1. The calls. -/

/-- Packets handed in before call `c`, when call `i` gets `ns i` packets. -/
def handedIn (ns : ℕ → ℕ) : ℕ → ℕ
  | 0 => 0
  | c + 1 => handedIn ns c + ns c

/-- The batch of call `c`. -/
def callBatch (pkts : ℕ → Mbuf) (ns : ℕ → ℕ) (c : ℕ) : List Mbuf :=
  (List.range' (handedIn ns c) (ns c)).map pkts

/-- The stage before call `c`. -/
def stageBefore (stage : ReorderStage) (pkts : ℕ → Mbuf) (ns : ℕ → ℕ) : ℕ → ReorderStage
  | 0 => stage
  | c + 1 => (reorderExec (stageBefore stage pkts ns c) (callBatch pkts ns c)).1

/-- What the inserts of call `c` return. -/
def callRets (stage : ReorderStage) (pkts : ℕ → Mbuf) (ns : ℕ → ℕ) (c : ℕ) :
    List (Option RteErrno) :=
  (reorderExec (stageBefore stage pkts ns c) (callBatch pkts ns c)).2.1

/-- The mbufs that call `c` puts out. -/
def callOut (stage : ReorderStage) (pkts : ℕ → Mbuf) (ns : ℕ → ℕ) (c : ℕ) :
    List (Option Mbuf) :=
  (reorderExec (stageBefore stage pkts ns c) (callBatch pkts ns c)).2.2

/-- No insert fails, and every packet handed in is put out by some call. -/
structure NeverDropped (stage : ReorderStage) (pkts : ℕ → Mbuf) (ns : ℕ → ℕ) : Prop where
  accepted : ∀ c, ∀ ret ∈ callRets stage pkts ns c, ret = none
  output : ∀ c i, i < handedIn ns c → ∃ c', some (pkts i) ∈ callOut stage pkts ns c'

/-- The packets that wait in the buffer before call `c`, when nothing is dropped. -/
def backlog (batchSize : ℕ) (ns : ℕ → ℕ) : ℕ → ℕ
  | 0 => 0
  | c + 1 => backlog batchSize ns c + ns c - batchSize

theorem backlog_le_handedIn (batchSize : ℕ) (ns : ℕ → ℕ) (c : ℕ) :
    backlog batchSize ns c ≤ handedIn ns c := by
  induction c with
  | zero => exact le_refl 0
  | succ c ih =>
      simp only [backlog, handedIn]
      omega

/-- The packets put out before call `c`, when nothing is dropped. -/
def passedOn (batchSize : ℕ) (ns : ℕ → ℕ) (c : ℕ) : ℕ := handedIn ns c - backlog batchSize ns c

theorem passedOn_add_backlog (batchSize : ℕ) (ns : ℕ → ℕ) (c : ℕ) :
    passedOn batchSize ns c + backlog batchSize ns c = handedIn ns c :=
  Nat.sub_add_cancel (backlog_le_handedIn batchSize ns c)

theorem passedOn_succ (batchSize : ℕ) (ns : ℕ → ℕ) (c : ℕ) :
    passedOn batchSize ns (c + 1)
      = passedOn batchSize ns c + min batchSize (backlog batchSize ns c + ns c) := by
  have hle := backlog_le_handedIn batchSize ns c
  simp only [passedOn, handedIn, backlog]
  omega

theorem passedOn_mono {batchSize : ℕ} {ns : ℕ → ℕ} {c c' : ℕ} (h : c ≤ c') :
    passedOn batchSize ns c ≤ passedOn batchSize ns c' := by
  induction h with
  | refl => exact le_refl _
  | step _ ih =>
      rw [passedOn_succ]
      exact ih.trans (Nat.le_add_right _ _)

theorem handedIn_mono {ns : ℕ → ℕ} {c c' : ℕ} (h : c ≤ c') : handedIn ns c ≤ handedIn ns c' := by
  induction h with
  | refl => exact le_refl _
  | step _ ih => exact ih.trans (Nat.le_add_right _ _)

/-! ## §2. The window of an ordered stream. -/

/-- The first `N` packets of the stream. -/
def firstPackets (pkts : ℕ → Mbuf) (N : ℕ) : List Mbuf := (List.range N).map pkts

section Windowed

variable {pkts : ℕ → Mbuf} {size N d k : ℕ} {b : ReorderBuffer} {q : Resequencer}

theorem firstPackets_getElem? {i : ℕ} (h : i < N) : (firstPackets pkts N)[i]? = some (pkts i) := by
  simp [firstPackets, h]

/-- The window holds the packets from `d` on that have arrived, and nothing else. -/
theorem Windowed.window_eq (h : Windowed size (firstPackets pkts N) (List.range (d + k)) d q)
    (hk : k ≤ size) (hN : d + k ≤ N) :
    q.window = ((List.range' d k).map pkts).map some ++ List.replicate (size - k) none := by
  refine eq_of_getElem?_lt h.length (by simp; omega) fun i hi => ?_
  have hplace := h.place i hi
  simp only [List.mem_range, Nat.add_lt_add_iff_left] at hplace
  have hget := List.getElem?_eq_getElem (l := q.window) (i := i) (by rw [h.length]; exact hi)
  rw [hget, Option.join_some] at hplace
  rw [hget, hplace, List.getElem?_append]
  by_cases hik : i < k
  · rw [if_pos hik, firstPackets_getElem? (by omega), if_pos (by simpa using hik)]
    simp [hik]
  · rw [if_neg hik, if_neg (by simpa using hik), List.getElem?_replicate, if_pos]
    rw [List.length_map, List.length_map, List.length_range']
    omega

theorem Windowed.held_eq (h : Windowed size (firstPackets pkts N) (List.range (d + k)) d q)
    (hk : k ≤ size) (hN : d + k ≤ N) : q.held = (List.range' d k).map pkts := by
  rw [Resequencer.held, h.ready, h.window_eq hk hN, List.nil_append, List.reduceOption_append,
    reduceOption_map_some, List.reduceOption_replicate_none, List.append_nil]

/-- **Inserts that fit** extend the run in the window. -/
theorem Windowed.insertRun (hsize : 2 * size ≤ 2 ^ 32)
    (hseqn : ∀ i, (pkts i).seqn = UInt32.ofNat i) (n : ℕ) :
    ∀ (k : ℕ) (b : ReorderBuffer) (q : Resequencer), Refines size b q →
      Windowed size (firstPackets pkts N) (List.range (d + k)) d q → k + n ≤ size →
      d + (k + n) ≤ N →
      (∀ ret ∈ (Reorder.insertAll b ((List.range' (d + k) n).map pkts)).2, ret = none)
        ∧ ∃ q', Refines size (Reorder.insertAll b ((List.range' (d + k) n).map pkts)).1 q'
          ∧ Windowed size (firstPackets pkts N) (List.range (d + (k + n))) d q' := by
  induction n with
  | zero =>
      intro k b q hb hw _ _
      exact ⟨fun ret hret => absurd hret (by simp [Reorder.insertAll]), q, hb, hw⟩
  | succ n ih =>
      intro k b q hb hw hfit hN
      obtain ⟨hret, hw'⟩ := hw.insert hsize (firstPackets_getElem? (i := d + k) (by omega))
        (hseqn _) (by omega) (by omega)
      obtain ⟨hb', hret'⟩ := rteReorderInsert_refines hb (pkts (d + k))
      have hgrown : List.range (d + k) ++ [d + k] = List.range (d + (k + 1)) :=
        List.range_succ.symm
      rw [hgrown] at hw'
      obtain ⟨hrets, hafter⟩ := ih (k + 1) _ _ hb' hw' (by omega) (by omega)
      rw [List.range'_succ, List.map_cons]
      rw [show k + 1 + n = k + (n + 1) by omega] at hafter
      refine ⟨fun ret hmem => ?_, hafter⟩
      rcases List.mem_cons.mp hmem with rfl | hmem
      · exact hret'.trans hret
      · exact hrets ret hmem

/-- **A drain** puts out the first packets of the run. -/
theorem Windowed.drainRun (h : Windowed size (firstPackets pkts N) (List.range (d + k)) d q)
    (hN : d + k ≤ N) (max : ℕ) :
    (q.drain max).2 = (List.range' d (min max k)).map pkts
      ∧ Windowed size (firstPackets pkts N) (List.range (d + k)) (d + min max k)
        (q.drain max).1 := by
  -- the run ends where the packets that have arrived end
  obtain ⟨hrun, hend⟩ := h.isRun
  have hlead : (leading q.window.length q.window).length = k := by
    rw [List.mem_range, Nat.add_lt_add_iff_left] at hend
    rcases Nat.lt_or_ge k (leading q.window.length q.window).length with hlt | hge
    · have hno := hrun k hlt
      simp at hno
    · omega
  obtain ⟨hout, hlen, hw⟩ := h.drain max
  rw [hlead] at hlen
  rw [hlen] at hout hw
  refine ⟨?_, hw⟩
  rw [hout]
  apply List.ext_getElem?
  intro i
  rw [List.getElem?_take]
  split
  next hi =>
    rw [List.getElem?_drop, firstPackets_getElem? (by omega)]
    simp [hi]
  next hi =>
    rw [List.getElem?_eq_none]
    rw [List.length_map, List.length_range']
    exact Nat.le_of_not_lt hi

/-- **The packet behind a full window** is not taken. -/
theorem Windowed.full_not_takes
    (h : Windowed size (firstPackets pkts N) (List.range (d + size)) d q) (hN : d + size ≤ N)
    (hsize : 2 * size ≤ 2 ^ 32) (hpos : 0 < size) {m : Mbuf}
    (hm : m.seqn = UInt32.ofNat (d + size)) : ¬ q.Takes m := by
  have hwindow := h.window_eq (le_refl size) hN
  rw [Nat.sub_self, List.replicate_zero, List.append_nil] at hwindow
  have hoff : q.offset m = size := by
    unfold Resequencer.offset
    rw [hm, h.minSeqn, offset_of_index (by omega) (by omega)]
    omega
  have hfree : q.free = size - 1 := by
    rw [Resequencer.free, h.length, h.ready]
    rfl
  have hocc : ∀ i, i < size → Occupied q.window i := by
    intro i hi
    unfold Occupied
    rw [hwindow]
    simp [hi]
  unfold Resequencer.Takes
  rw [if_neg (by rw [hoff, h.length]; omega), hfree]
  intro h
  obtain ⟨-, hroom, -, hover⟩ := h
  -- the ready buffer fills up in front of the last place
  refine hover (size - 1) hroom ⟨hocc _ (by omega), fun _ => hocc _ (by omega), ?_, ?_⟩
  · rw [hwindow, ← List.map_take, reduceOption_map_some]
    simp
  · intro i _ hi
    exact hocc i (by omega)

end Windowed

/-! ## §3. Runs. -/

/-- The stage holds the packets from `d` up to `d + k`, in the front of its window. -/
structure InOrder (size batchSize : ℕ) (pkts : ℕ → Mbuf) (d k : ℕ) (stage : ReorderStage) :
    Prop where
  batch : stage.batchSize = batchSize
  fits : k ≤ size
  window : ∀ N, d + k ≤ N → ∃ q, Refines size stage.reorderBuf q
    ∧ Windowed size (firstPackets pkts N) (List.range (d + k)) d q

section Runs

variable {pkts : ℕ → Mbuf} {ns : ℕ → ℕ} {size batchSize d k : ℕ} {stage : ReorderStage}

/-- **A call that fits** puts out the next packets of the stream, `batch_size` at most. -/
theorem InOrder.exec (h : InOrder size batchSize pkts d k stage) (hsize : 2 * size ≤ 2 ^ 32)
    (hseqn : ∀ i, (pkts i).seqn = UInt32.ofNat i) {n : ℕ} (hfit : k + n ≤ size) :
    (∀ ret ∈ (reorderExec stage ((List.range' (d + k) n).map pkts)).2.1, ret = none)
      ∧ (reorderExec stage ((List.range' (d + k) n).map pkts)).2.2
          = ((List.range' d (min batchSize (k + n))).map pkts).map some
      ∧ InOrder size batchSize pkts (d + min batchSize (k + n)) (k + n - batchSize)
          (reorderExec stage ((List.range' (d + k) n).map pkts)).1 := by
  have hstep : ∀ N, d + (k + n) ≤ N →
      (∀ ret ∈ (reorderExec stage ((List.range' (d + k) n).map pkts)).2.1, ret = none)
        ∧ (reorderExec stage ((List.range' (d + k) n).map pkts)).2.2
            = ((List.range' d (min batchSize (k + n))).map pkts).map some
        ∧ ∃ q, Refines size (reorderExec stage ((List.range' (d + k) n).map pkts)).1.reorderBuf q
          ∧ Windowed size (firstPackets pkts N) (List.range (d + (k + n)))
              (d + min batchSize (k + n)) q := by
    intro N hN
    obtain ⟨q, hq, hw⟩ := h.window N (by omega)
    obtain ⟨hrets, q₁, hq₁, hw₁⟩ := Windowed.insertRun hsize hseqn n k _ q hq hw hfit hN
    obtain ⟨hq₂, hout⟩ := rteReorderDrain_refines hq₁ stage.batchSize
    rw [h.batch] at hq₂ hout
    obtain ⟨hdrain, hw₂⟩ := hw₁.drainRun hN batchSize
    refine ⟨hrets, ?_, _, ?_, hw₂⟩
    · show (rteReorderDrain _ stage.batchSize).2 = _
      rw [h.batch, hout, hdrain]
    · show Refines size (rteReorderDrain _ stage.batchSize).1 _
      rw [h.batch]
      exact hq₂
  obtain ⟨hrets, hout, -⟩ := hstep _ (le_refl _)
  have hsplit : d + min batchSize (k + n) + (k + n - batchSize) = d + (k + n) := by omega
  refine ⟨hrets, hout, h.batch, by omega, fun N hN => ?_⟩
  rw [hsplit] at hN ⊢
  exact (hstep N hN).2.2

/-- The calls so far have fitted, so the stage holds the backlog. -/
theorem inOrder_stageBefore (hstart : InOrder size batchSize pkts 0 0 stage)
    (hsize : 2 * size ≤ 2 ^ 32) (hseqn : ∀ i, (pkts i).seqn = UInt32.ofNat i) (c : ℕ)
    (hfit : ∀ i, i < c → backlog batchSize ns i + ns i ≤ size) :
    InOrder size batchSize pkts (passedOn batchSize ns c) (backlog batchSize ns c)
      (stageBefore stage pkts ns c) := by
  induction c with
  | zero => exact hstart
  | succ c ih =>
      have hcall := (ih fun i hi => hfit i (Nat.lt_succ_of_lt hi)).exec hsize hseqn
        (hfit c (Nat.lt_succ_self c))
      rw [passedOn_add_backlog] at hcall
      rw [passedOn_succ]
      exact hcall.2.2

/-- What a call puts out while the calls fit. -/
theorem callOut_inOrder (hstart : InOrder size batchSize pkts 0 0 stage)
    (hsize : 2 * size ≤ 2 ^ 32) (hseqn : ∀ i, (pkts i).seqn = UInt32.ofNat i) (c : ℕ)
    (hfit : ∀ i, i ≤ c → backlog batchSize ns i + ns i ≤ size) :
    (∀ ret ∈ callRets stage pkts ns c, ret = none)
      ∧ callOut stage pkts ns c
        = ((List.range' (passedOn batchSize ns c)
            (min batchSize (backlog batchSize ns c + ns c))).map pkts).map some := by
  have hcall := (inOrder_stageBefore hstart hsize hseqn c fun i hi => hfit i (le_of_lt hi)).exec
    hsize hseqn (hfit c (le_refl c))
  rw [passedOn_add_backlog] at hcall
  exact ⟨hcall.1, hcall.2.1⟩

/-- With something drained in every call, every packet has its turn. -/
theorem exists_turn (hbatch : 0 < batchSize) (ns : ℕ → ℕ) {i c : ℕ} (hi : i < handedIn ns c) :
    ∃ c', passedOn batchSize ns c' ≤ i ∧ i < passedOn batchSize ns (c' + 1) := by
  -- each call from `c` on passes one more packet, or has passed all
  have hpassed : ∀ t, i < passedOn batchSize ns (c + t) ∨ t ≤ passedOn batchSize ns (c + t) := by
    intro t
    induction t with
    | zero => exact Or.inr (Nat.zero_le _)
    | succ t ih =>
        have hsum := passedOn_add_backlog batchSize ns (c + t)
        have hmono : handedIn ns c ≤ handedIn ns (c + t) := handedIn_mono (Nat.le_add_right c t)
        rw [← Nat.add_assoc, passedOn_succ]
        omega
  -- so some call passes `i`; the first one that does puts it out
  have hex : ∃ c', i < passedOn batchSize ns c' := by
    refine ⟨c + (i + 1), ?_⟩
    rcases hpassed (i + 1) with h | h
    · exact h
    · omega
  have hfirst := Nat.find_spec hex
  obtain ⟨c', hc'⟩ : ∃ c', Nat.find hex = c' + 1 := by
    refine ⟨Nat.find hex - 1, (Nat.succ_pred_eq_of_ne_zero fun h0 => ?_).symm⟩
    rw [h0] at hfirst
    exact absurd hfirst (Nat.not_lt_zero i)
  have hbefore := Nat.find_min hex (m := c') (by omega)
  rw [hc'] at hfirst
  exact ⟨c', Nat.le_of_not_lt hbefore, hfirst⟩

/-- What is not held after the inserts of a call is not put out and not held behind it. -/
theorem Holds.exec_not_mem {mbufs : List Mbuf} {x : Mbuf} {q : Resequencer}
    (h : Holds size (insertAll stage.reorderBuf mbufs).1 q) (hx : x ∉ q.held) :
    some x ∉ (reorderExec stage mbufs).2.2
      ∧ ∃ q', Holds size (reorderExec stage mbufs).1.reorderBuf q' ∧ x ∉ q'.held := by
  obtain ⟨hafter, hout⟩ := h.drain stage.batchSize
  rw [← q.drain_held stage.batchSize, List.mem_append, not_or] at hx
  refine ⟨fun hmem => hx.1 ?_, _, hafter, hx.2⟩
  have hmem' : some x ∈ (q.drain stage.batchSize).2.map some := hout ▸ hmem
  exact (List.mem_map_of_injective (Option.some_injective _)).mp hmem'

/-- What the buffer does not hold and no later call hands in is never put out. -/
theorem Holds.never_out {x : Mbuf} {c : ℕ} {q : Resequencer}
    (h : Holds size (stageBefore stage pkts ns c).reorderBuf q) (hx : x ∉ q.held)
    (hlater : ∀ c', c ≤ c' → x ∉ callBatch pkts ns c') :
    ∀ c', c ≤ c' → some x ∉ callOut stage pkts ns c' := by
  have hcall : ∀ c' q', Holds size (stageBefore stage pkts ns c').reorderBuf q' → x ∉ q'.held →
      c ≤ c' → some x ∉ callOut stage pkts ns c'
        ∧ ∃ q'', Holds size (stageBefore stage pkts ns (c' + 1)).reorderBuf q''
          ∧ x ∉ q''.held := by
    intro c' q' hq' hx' hc'
    obtain ⟨q₁, hq₁, hx₁⟩ := Holds.mem_insertAll _ _ _ hq' hx' (hlater c' hc')
    exact hq₁.exec_not_mem hx₁
  have hheld : ∀ c', c ≤ c' → ∃ q', Holds size (stageBefore stage pkts ns c').reorderBuf q'
      ∧ x ∉ q'.held := by
    intro c' hc'
    induction hc' with
    | refl => exact ⟨q, h, hx⟩
    | step hc' ih =>
        obtain ⟨q', hq', hx'⟩ := ih
        exact (hcall _ q' hq' hx' hc').2
  intro c' hc'
  obtain ⟨q', hq', hx'⟩ := hheld c' hc'
  exact (hcall c' q' hq' hx' hc').1

/-- Where a call hands in more than fits, the packet right behind the window is not taken. -/
theorem call_not_taken {c : ℕ} (hpos : 0 < size) (hsize : 2 * size ≤ 2 ^ 32)
    (hseqn : ∀ i, (pkts i).seqn = UInt32.ofNat i) (hdk : d + k = handedIn ns c) (hk : k ≤ size)
    (hover : size < k + ns c) {q : Resequencer}
    (hq : Refines size (stageBefore stage pkts ns c).reorderBuf q)
    (hw : Windowed size (firstPackets pkts (d + size)) (List.range (d + k)) d q) :
    ¬ ∀ pre m, pre ++ [m] <+: callBatch pkts ns c →
      Takes (insertAll (stageBefore stage pkts ns c).reorderBuf pre).1 m := by
  intro htakes
  have hbatch : callBatch pkts ns c = (List.range' (d + k) (size - k)).map pkts
      ++ [pkts (d + size)]
      ++ (List.range' (d + size + 1) (ns c - (size - k) - 1)).map pkts := by
    rw [callBatch, ← hdk, ← List.map_singleton, ← List.map_append, ← List.map_append]
    congr 1
    rw [show [d + size] = List.range' (d + k + (size - k)) 1 by simp; omega,
      List.range'_append_1, show d + size + 1 = d + k + (size - k + 1) by omega,
      List.range'_append_1]
    congr 1
    omega
  have htake := htakes _ _ ⟨_, hbatch.symm⟩
  -- the packets before it fill the window
  obtain ⟨-, q₁, hq₁, hw₁⟩ := Windowed.insertRun (N := d + size) hsize hseqn (size - k) k _ q
    hq hw (by omega) (by omega)
  rw [show k + (size - k) = size by omega] at hw₁
  refine hw₁.full_not_takes (le_refl _) hsize hpos (hseqn (d + size)) ?_
  have hiff := hq₁.holds.takes_iff (pkts (d + size))
  rw [Resequencer.startAt, hq₁.initialized] at hiff
  exact hiff.mp htake

/-- **The first call that does not fit** drops a packet. -/
theorem not_neverDropped (hstart : InOrder size batchSize pkts 0 0 stage) (hpos : 0 < size)
    (hsize : 2 * size ≤ 2 ^ 32) (hseqn : ∀ i, (pkts i).seqn = UInt32.ofNat i)
    (hinj : Function.Injective pkts) {c : ℕ}
    (hfit : ∀ i, i < c → backlog batchSize ns i + ns i ≤ size)
    (hover : size < backlog batchSize ns c + ns c) : ¬ NeverDropped stage pkts ns := by
  intro hkept
  have hdk := passedOn_add_backlog batchSize ns c
  obtain ⟨-, hk, hwin⟩ := inOrder_stageBefore hstart hsize hseqn c hfit
  generalize hd : passedOn batchSize ns c = d at hwin hdk
  generalize backlog batchSize ns c = k at hwin hk hover hdk
  obtain ⟨q, hq, hw⟩ := hwin (d + size) (by omega)
  -- packets `d` to the end of the call, each once
  have hall : q.held ++ callBatch pkts ns c = (List.range' d (k + ns c)).map pkts := by
    rw [hw.held_eq hk (by omega), callBatch, ← hdk, ← List.map_append, List.range'_append_1]
  have hnodup : (q.held ++ callBatch pkts ns c).Nodup := by
    rw [hall]
    exact (List.nodup_range' 1).map hinj
  have hnot := call_not_taken hpos hsize hseqn hdk hk hover hq hw
  obtain ⟨x, hx, q', hq', hgone⟩ := hq.holds.insertAll_not_takes _ _ _ hnodup hnot
  -- `x` is a packet handed in that is not put out yet
  rw [hall, List.mem_map] at hx
  obtain ⟨i, hi, rfl⟩ := hx
  rw [List.mem_range'_1] at hi
  have hin : i < handedIn ns (c + 1) := by
    simp only [handedIn]
    omega
  obtain ⟨c', hout⟩ := hkept.output (c + 1) i hin
  obtain ⟨hnow, q₁, hq₁, hx₁⟩ := hq'.exec_not_mem hgone
  rcases Nat.lt_trichotomy c' c with hlt | rfl | hgt
  · -- an earlier call puts out earlier packets
    have hearly := (callOut_inOrder hstart hsize hseqn c' fun i hi => hfit i (by omega)).2
    rw [hearly, List.mem_map_of_injective (Option.some_injective _), List.mem_map] at hout
    obtain ⟨j, hj, hij⟩ := hout
    have hmono : passedOn batchSize ns (c' + 1) ≤ d := hd ▸ passedOn_mono hlt
    rw [passedOn_succ] at hmono
    rw [hinj hij, List.mem_range'_1] at hj
    omega
  · exact hnow hout
  · refine Holds.never_out (c := c + 1) hq₁ hx₁ (fun c₁ hc₁ hmem => ?_) c' hgt hout
    obtain ⟨j, hj, hij⟩ := List.mem_map.mp hmem
    have hmono : handedIn ns (c + 1) ≤ handedIn ns c₁ := handedIn_mono hc₁
    rw [hinj hij, List.mem_range'_1] at hj
    omega

end Runs

/-! ## §4. The stage of `reorder_init`. -/

theorem reorderInitWith_inOrder {size : UInt32} {batchSize : ℕ} {stage : ReorderStage}
    (hinit : reorderInitWith size batchSize = some stage) (pkts : ℕ → Mbuf) :
    InOrder size.toNat batchSize pkts 0 0 stage := by
  obtain ⟨hbatch, hbuf⟩ := reorderInitWith_refines hinit
  refine ⟨hbatch, Nat.zero_le _, fun N _ => ⟨_, hbuf, hbuf.window_length, rfl, rfl, ?_, ?_⟩⟩
  · intro i hi
    simp [Resequencer.empty, hi]
  · intro i hi
    exact absurd hi (by simp)

/-- **When an ordered stream is never dropped.**  The packets of the stream are different
mbufs, packet `i` with the number `i` modulo 2^32, and they are handed to the stage in
order, `ns c` of them in call `c`.  For every power-of-two buffer size and every positive
`batch_size`, no insert ever fails and every packet is put out if and only if in every call
the packets still waiting and those of the call fit the buffer. -/
theorem inOrder_kept_iff (size : UInt32) (batchSize : ℕ) (stage : ReorderStage)
    (hinit : reorderInitWith size batchSize = some stage) (hbatch : 0 < batchSize)
    (pkts : ℕ → Mbuf) (hseqn : ∀ i, (pkts i).seqn = UInt32.ofNat i)
    (hinj : Function.Injective pkts) (ns : ℕ → ℕ) :
    NeverDropped stage pkts ns ↔ ∀ c, backlog batchSize ns c + ns c ≤ size.toNat := by
  have hstart := reorderInitWith_inOrder hinit pkts
  obtain ⟨hpos, hsize⟩ := (reorderInitWith_refines hinit).2.orderWF.size_lt
  constructor
  · intro hkept c
    induction c using Nat.strong_induction_on with
    | _ c ih =>
        by_contra hover
        exact not_neverDropped hstart hpos hsize hseqn hinj ih (Nat.lt_of_not_le hover) hkept
  · intro hfit
    refine ⟨fun c => (callOut_inOrder hstart hsize hseqn c fun i _ => hfit i).1, ?_⟩
    intro c i hi
    obtain ⟨c', hlo, hhi⟩ := exists_turn hbatch ns hi
    refine ⟨c', ?_⟩
    rw [(callOut_inOrder hstart hsize hseqn c' fun i _ => hfit i).2,
      List.mem_map_of_injective (Option.some_injective _), List.mem_map]
    rw [passedOn_succ] at hhi
    exact ⟨i, List.mem_range'_1.mpr ⟨hlo, hhi⟩, rfl⟩

theorem pkt_injective : Function.Injective pkt := fun _ _ h => congrArg Mbuf.addr h

/-- Calls of 2 packets, drained 2 at a time, leave no backlog. -/
theorem fourPlaces_neverDropped : NeverDropped fourPlaces pkt fun _ => 2 := by
  have hbacklog : ∀ c, backlog 2 (fun _ => 2) c = 0 := by
    intro c
    induction c with
    | zero => rfl
    | succ c ih => rw [backlog, ih]
  refine (inOrder_kept_iff 4 2 fourPlaces (Option.some_get _).symm (by decide) pkt
    (fun _ => rfl) pkt_injective fun _ => 2).mpr fun c => ?_
  rw [hbacklog]
  decide

/-- The stage of `reorder_init` gets full bursts: each leaves all but 64 packets behind,
and the ninth does not fit. -/
theorem fullBursts_dropped : ¬ NeverDropped reorderStage pkt fun _ => DataPlane.maxPktsBurst := by
  refine not_neverDropped (c := 8) (reorderInitWith_inOrder (Option.some_get _).symm pkt)
    (by decide) (by decide) (fun _ => rfl) pkt_injective ?_ (by decide)
  decide

end Meili.Reorder
