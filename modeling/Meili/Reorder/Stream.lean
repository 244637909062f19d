/-
  Meili.Reorder.Stream — sequencing followed by reordering is the identity.

  A `StreamState` has a `seq_exec` stage that stamps a stream of packets, in
  batches of any sizes, and a reorder stage that gets stamped packets in any
  order and any batches.  As long as the stream index of each packet, when
  inserted, lies in the `size` indices behind those already put out
  (`InWindow`), the 32-bit window is a window on the unbounded stream:

    `Windowed` — the queue is never used, `min_seqn` is the number of packets
    put out so far modulo 2^32, and place `i` holds packet `out + i` of the
    stream if it has arrived, and nothing otherwise.
-/
import Meili.Lib.Runs
import Meili.Reorder.Run

namespace Meili.Reorder

open Meili.Lib

/-! ## §1. A sequencing and a reordering stage. -/

structure StreamState where
  /-- The counter of `seq_state`. -/
  seqn : UInt32
  /-- The stream: every packet `seq_exec` has stamped, in order. -/
  stamped : List Mbuf
  stage : ReorderStage
  /-- Stream indices of the packets passed to `reorder_exec` so far. -/
  arrived : List ℕ
  /-- The concatenated outputs of the `reorder_exec` calls. -/
  out : List (Option Mbuf)

/-- A batch of packets of the stream, by their indices. -/
abbrev StreamState.Batch (s : StreamState) := List (Fin s.stamped.length)

/-- `seq_exec` on the next packets of the stream. -/
def StreamState.seq (s : StreamState) (mbufs : List Mbuf) : StreamState :=
  { s with
    seqn := (seqExec s.seqn mbufs).1
    stamped := s.stamped ++ (seqExec s.seqn mbufs).2 }

/-- What `reorder_exec` does with a batch. -/
def StreamState.exec (s : StreamState) (batch : s.Batch) :
    ReorderStage × List (Option RteErrno) × List (Option Mbuf) :=
  reorderExec s.stage (batch.map s.stamped.get)

/-- `reorder_exec` on a batch of packets of the stream. -/
def StreamState.reorder (s : StreamState) (batch : s.Batch) : StreamState :=
  { s with
    stage := (s.exec batch).1
    arrived := s.arrived ++ batch.map Fin.val
    out := s.out ++ (s.exec batch).2.2 }

/-- Every packet of the batch lies in the window behind the packets put out. -/
def StreamState.InWindow (s : StreamState) (size : ℕ) (batch : s.Batch) : Prop :=
  ∀ i ∈ batch, s.out.length ≤ i.val ∧ i.val < s.out.length + size

instance (s : StreamState) (size : ℕ) (batch : s.Batch) : Decidable (s.InWindow size batch) :=
  inferInstanceAs (Decidable (∀ i ∈ batch, s.out.length ≤ i.val ∧ i.val < s.out.length + size))

/-- The two stages run in any order. -/
inductive StreamStep (size : ℕ) : StreamState → StreamState → Prop
  | seq (s : StreamState) (mbufs : List Mbuf) : StreamStep size s (s.seq mbufs)
  | reorder (s : StreamState) (batch : s.Batch) :
      s.InWindow size batch → StreamStep size s (s.reorder batch)

/-- Both stages as they are initialised. -/
def StreamState.start (stage : ReorderStage) : StreamState where
  seqn := seqNumStart
  stamped := []
  stage := stage
  arrived := []
  out := []

/-- The packets from index `d` on that have arrived without a gap are `L`. -/
def IsRun (arrived : List ℕ) (d L : ℕ) : Prop :=
  (∀ i, i < L → d + i ∈ arrived) ∧ d + L ∉ arrived

/-! ## §2. Sequence numbers are stream indices modulo 2^32. -/

/-- `seq_exec` stamps consecutive numbers. -/
theorem seqExec_spec (mbufs : List Mbuf) :
    ∀ d : ℕ, (seqExec (UInt32.ofNat d) mbufs).1 = UInt32.ofNat (d + mbufs.length)
      ∧ (seqExec (UInt32.ofNat d) mbufs).2.length = mbufs.length
      ∧ ∀ i m, (seqExec (UInt32.ofNat d) mbufs).2[i]? = some m → m.seqn = UInt32.ofNat (d + i) := by
  induction mbufs with
  | nil =>
      intro d
      exact ⟨rfl, rfl, fun i m hi => absurd hi (by simp [seqExec])⟩
  | cons m mbufs ih =>
      intro d
      have hsucc : UInt32.ofNat d + 1 = UInt32.ofNat (d + 1) := by
        rw [UInt32.ofNat_add]
        rfl
      obtain ⟨hnext, hlen, hstamp⟩ := ih (d + 1)
      have hbody : seqExec (UInt32.ofNat d) (m :: mbufs)
          = ((seqExec (UInt32.ofNat (d + 1)) mbufs).1,
             { m with seqn := UInt32.ofNat d } :: (seqExec (UInt32.ofNat (d + 1)) mbufs).2) := by
        rw [seqExec, hsucc]
      rw [hbody]
      refine ⟨?_, ?_, ?_⟩
      · show (seqExec (UInt32.ofNat (d + 1)) mbufs).1 = _
        rw [hnext, List.length_cons]
        congr 1
        omega
      · rw [List.length_cons, List.length_cons, hlen]
      · intro i m' hi
        cases i with
        | zero => rw [← Option.some.inj hi, Nat.add_zero]
        | succ i =>
            rw [hstamp i m' hi]
            congr 1
            omega

/-- 32-bit subtraction of two indices less than 2^32 apart. -/
theorem offset_of_index {i d : ℕ} (hle : d ≤ i) (hlt : i - d < 2 ^ 32) :
    (UInt32.ofNat i - UInt32.ofNat d).toNat = i - d := by
  have hsum : UInt32.ofNat i = UInt32.ofNat d + UInt32.ofNat (i - d) := by
    rw [← UInt32.ofNat_add]
    congr 1
    omega
  have hsub : UInt32.ofNat i - UInt32.ofNat d = UInt32.ofNat (i - d) := by
    rw [hsum]
    grind
  rw [hsub, uint32_toNat_ofNat hlt]

/-! ## §3. The window on the stream. -/

/-- The resequencer `q` is the window on the stream behind its first `d`
packets. -/
structure Windowed (size : ℕ) (stamped : List Mbuf) (arrived : List ℕ) (d : ℕ)
    (q : Resequencer) : Prop where
  length : q.window.length = size
  ready : q.ready = []
  minSeqn : q.minSeqn = UInt32.ofNat d
  place : ∀ i, i < size →
    q.window[i]?.join = if d + i ∈ arrived then stamped[d + i]? else none
  range : ∀ i ∈ arrived, i < stamped.length ∧ i < d + size

section Windowed

variable {size d : ℕ} {stamped : List Mbuf} {arrived : List ℕ} {q : Resequencer}

/-- **An insert in the window** succeeds and fills the place of its packet. -/
theorem Windowed.insert (h : Windowed size stamped arrived d q) (hsize : 2 * size ≤ 2 ^ 32)
    {i : ℕ} {m : Mbuf} (hm : stamped[i]? = some m) (hseqn : m.seqn = UInt32.ofNat i)
    (hlo : d ≤ i) (hhi : i < d + size) :
    (q.insert m).2 = none ∧ Windowed size stamped (arrived ++ [i]) d (q.insert m).1 := by
  have hoff : q.offset m = i - d := by
    unfold Resequencer.offset
    rw [hseqn, h.minSeqn]
    exact offset_of_index hlo (by omega)
  have hins : q.insert m = ({ q with window := q.window.set (i - d) (some m) }, none) := by
    unfold Resequencer.insert
    dsimp only
    rw [hoff, h.length, if_pos (by omega)]
  rw [hins]
  refine ⟨rfl, ?_, h.ready, h.minSeqn, ?_, ?_⟩
  · rw [List.length_set, h.length]
  · intro j hj
    show (q.window.set (i - d) (some m))[j]?.join = _
    rw [List.getElem?_set]
    by_cases hij : i - d = j
    · -- the place of the packet itself
      have hdj : d + j = i := by omega
      rw [if_pos hij, if_pos (by rw [h.length]; omega), hdj,
        if_pos (List.mem_append_right _ (List.mem_singleton.mpr rfl)), hm]
      rfl
    · -- any other place is as before
      have hne : d + j ≠ i := by omega
      rw [if_neg hij, h.place j hj]
      simp [hne]
  · intro j hj
    rcases List.mem_append.mp hj with hj | hj
    · exact h.range j hj
    · rw [List.mem_singleton.mp hj]
      exact ⟨(List.getElem?_eq_some_iff.mp hm).1, hhi⟩

/-- The run at the front of the window. -/
theorem leading_length (k : ℕ) (w : List (Option Mbuf)) :
    (leading k w).length = min k (leading w.length w).length := by
  induction w generalizing k with
  | nil => cases k <;> simp [leading]
  | cons x w ih =>
      cases k with
      | zero => simp [leading]
      | succ k =>
          cases x with
          | none => simp [leading]
          | some m =>
              simp only [List.length_cons, leading]
              rw [ih k]
              omega

/-- It ends at a gap, or at the end of the window. -/
theorem leading_end (w : List (Option Mbuf)) :
    w[(leading w.length w).length]?.join = none := by
  induction w with
  | nil => rfl
  | cons x w ih =>
      cases x with
      | none => rfl
      | some m => simpa [leading] using ih

theorem leading_getElem? {k i : ℕ} {w : List (Option Mbuf)} (hi : i < (leading k w).length) :
    w[i]?.join = (leading k w)[i]? := by
  have htake : ((leading k w).map some)[i]? = w[i]? := by
    rw [leading_eq_take, List.getElem?_take, if_pos hi]
  rw [← htake, List.getElem?_map, List.getElem?_eq_getElem hi]
  rfl

/-- **The run of the window is the run of the stream.** -/
theorem Windowed.isRun (h : Windowed size stamped arrived d q) :
    IsRun arrived d (leading q.window.length q.window).length := by
  have hlen : (leading q.window.length q.window).length ≤ size :=
    (leading_length_le q.window.length q.window).2.trans h.length.le
  constructor
  · intro i hi
    have hplace := h.place i (by omega)
    rw [leading_getElem? hi, List.getElem?_eq_getElem hi] at hplace
    -- an occupied place belongs to a packet that has arrived
    by_contra hno
    rw [if_neg hno] at hplace
    exact absurd hplace (by simp)
  · intro harr
    -- the packet behind the run has arrived, so its place is no gap
    obtain ⟨hst, hlt⟩ := h.range _ harr
    have hplace := h.place (leading q.window.length q.window).length (by omega)
    rw [leading_end, if_pos harr, List.getElem?_eq_getElem hst] at hplace
    exact absurd hplace (by simp)

/-- **A drain** puts out the next packets of the stream and moves the window. -/
theorem Windowed.drain (h : Windowed size stamped arrived d q) (max : ℕ) :
    (q.drain max).2 = (stamped.drop d).take (q.drain max).2.length
      ∧ (q.drain max).2.length = min max (leading q.window.length q.window).length
      ∧ Windowed size stamped arrived (d + (q.drain max).2.length) (q.drain max).1 := by
  have hdrain : q.drain max
      = ({ minSeqn := q.minSeqn + UInt32.ofNat (leading max q.window).length
           ready := []
           window := slide q.window (leading max q.window).length }, leading max q.window) := by
    unfold Resequencer.drain
    simp [h.ready]
  have hlen := (leading_length_le max q.window).2
  rw [h.length] at hlen
  -- place `i` of the front holds packet `d + i` of the stream
  have hfront : ∀ i, i < (leading max q.window).length →
      (leading max q.window)[i]? = stamped[d + i]? := by
    intro i hi
    have hplace := h.place i (by omega)
    rw [leading_getElem? hi] at hplace
    split at hplace
    · exact hplace
    · rw [List.getElem?_eq_getElem hi] at hplace
      exact absurd hplace (by simp)
  rw [hdrain]
  refine ⟨?_, leading_length max q.window, ?_, rfl, ?_, ?_, ?_⟩
  · apply List.ext_getElem?
    intro i
    show (leading max q.window)[i]? = ((stamped.drop d).take (leading max q.window).length)[i]?
    rw [List.getElem?_take]
    split
    next hi => rw [hfront i hi, List.getElem?_drop]
    next hi => exact List.getElem?_eq_none (by omega)
  · show (slide q.window (leading max q.window).length).length = size
    rw [slide_length (by rw [h.length]; exact hlen), h.length]
  · show q.minSeqn + UInt32.ofNat (leading max q.window).length = _
    rw [h.minSeqn, ← UInt32.ofNat_add]
  · intro i hi
    show (slide q.window (leading max q.window).length)[i]?.join = _
    unfold slide
    rw [List.getElem?_append, List.length_drop, h.length]
    split
    next hlt =>
      rw [List.getElem?_drop, h.place _ (by omega), Nat.add_assoc]
    next hge =>
      -- behind the old window nothing has arrived yet
      have hno : d + (leading max q.window).length + i ∉ arrived := by
        intro harr
        have hr := (h.range _ harr).2
        omega
      rw [if_neg hno, List.getElem?_replicate]
      split <;> rfl
  · intro i hi
    have hr := h.range i hi
    show i < stamped.length ∧ i < d + (leading max q.window).length + size
    omega

end Windowed

/-! ## §4. Every run. -/

/-- The invariant: the reorder stage is the window on the stream, and the
output its beginning. -/
structure Streaming (size batchSize : ℕ) (s : StreamState) : Prop where
  batch : s.stage.batchSize = batchSize
  counter : s.seqn = UInt32.ofNat s.stamped.length
  stamps : ∀ i m, s.stamped[i]? = some m → m.seqn = UInt32.ofNat i
  window : ∃ q, Refines size s.stage.reorderBuf q
    ∧ Windowed size s.stamped s.arrived s.out.length q
  out : s.out = (s.stamped.take s.out.length).map some

section Run

variable {size batchSize : ℕ} {s : StreamState}

theorem Streaming.seq (h : Streaming size batchSize s) (mbufs : List Mbuf) :
    Streaming size batchSize (s.seq mbufs) := by
  obtain ⟨hnext, hlen, hstamp⟩ := seqExec_spec mbufs s.stamped.length
  rw [← h.counter] at hnext hlen hstamp
  -- the stream only grows at its end
  have hold : ∀ i, i < s.stamped.length →
      (s.stamped ++ (seqExec s.seqn mbufs).2)[i]? = s.stamped[i]? := by
    intro i hi
    exact List.getElem?_append_left hi
  refine ⟨h.batch, ?_, ?_, ?_, ?_⟩
  · show (seqExec s.seqn mbufs).1 = UInt32.ofNat (s.stamped ++ (seqExec s.seqn mbufs).2).length
    rw [hnext, List.length_append, hlen]
  · intro i m hi
    have hi' : (s.stamped ++ (seqExec s.seqn mbufs).2)[i]? = some m := hi
    rw [List.getElem?_append] at hi'
    split at hi'
    · exact h.stamps i m hi'
    · next hge =>
        rw [hstamp _ m hi']
        congr 1
        omega
  · obtain ⟨q, hq, hw⟩ := h.window
    refine ⟨q, hq, hw.length, hw.ready, hw.minSeqn, ?_, ?_⟩
    · intro i hi
      rw [hw.place i hi]
      show _ = if s.out.length + i ∈ s.arrived then
        (s.stamped ++ (seqExec s.seqn mbufs).2)[s.out.length + i]? else none
      split
      next harr => exact (hold _ (hw.range _ harr).1).symm
      next => rfl
    · intro i hi
      have hr := hw.range i hi
      refine ⟨?_, hr.2⟩
      show i < (s.stamped ++ (seqExec s.seqn mbufs).2).length
      rw [List.length_append]
      omega
  · show s.out = ((s.stamped ++ (seqExec s.seqn mbufs).2).take s.out.length).map some
    have hle : s.out.length ≤ s.stamped.length := by
      have hl := congrArg List.length h.out
      rw [List.length_map, List.length_take] at hl
      omega
    rw [List.take_append_of_le_length hle]
    exact h.out

/-- The inserts of a batch in the window: none fails. -/
theorem Windowed.insertAll {d : ℕ} {stamped : List Mbuf} (hsize : 2 * size ≤ 2 ^ 32)
    (hstamps : ∀ i m, stamped[i]? = some m → m.seqn = UInt32.ofNat i)
    (batch : List (Fin stamped.length)) (hin : ∀ i ∈ batch, d ≤ i.val ∧ i.val < d + size) :
    ∀ (b : ReorderBuffer) (q : Resequencer) (arrived : List ℕ), Refines size b q →
      Windowed size stamped arrived d q →
      (∀ ret ∈ (Reorder.insertAll b (batch.map stamped.get)).2, ret = none)
        ∧ ∃ q', Refines size (Reorder.insertAll b (batch.map stamped.get)).1 q'
          ∧ Windowed size stamped (arrived ++ batch.map Fin.val) d q' := by
  induction batch with
  | nil =>
      intro b q arrived hb hw
      refine ⟨fun ret hret => absurd hret (by simp [Reorder.insertAll]), q, hb, ?_⟩
      rw [List.map_nil, List.append_nil]
      exact hw
  | cons i batch ih =>
      intro b q arrived hb hw
      have hi := hin i (List.mem_cons_self ..)
      have hget : stamped[i.val]? = some (stamped.get i) := List.getElem?_eq_getElem i.isLt
      obtain ⟨hret, hw'⟩ := hw.insert hsize hget (hstamps _ _ hget) hi.1 hi.2
      obtain ⟨hb', hret'⟩ := rteReorderInsert_refines hb (stamped.get i)
      obtain ⟨hrets, q', hq', hwq'⟩ :=
        ih (fun j hj => hin j (List.mem_cons_of_mem _ hj)) _ _ _ hb' hw'
      refine ⟨?_, q', hq', ?_⟩
      · intro ret hmem
        rcases List.mem_cons.mp hmem with rfl | hmem
        · exact hret'.trans hret
        · exact hrets ret hmem
      · rw [List.append_assoc] at hwq'
        exact hwq'

/-- What one `reorder_exec` call does. -/
theorem Streaming.exec (h : Streaming size batchSize s) (hsize : 2 * size ≤ 2 ^ 32)
    {batch : s.Batch} (hin : s.InWindow size batch) :
    (∀ ret ∈ (s.exec batch).2.1, ret = none)
      ∧ (∃ L, IsRun (s.arrived ++ batch.map Fin.val) s.out.length L
          ∧ (s.exec batch).2.2.length = min batchSize L)
      ∧ Streaming size batchSize (s.reorder batch) := by
  obtain ⟨q, hq, hw⟩ := h.window
  obtain ⟨hrets, q₁, hq₁, hw₁⟩ := Windowed.insertAll hsize h.stamps batch hin _ q s.arrived hq hw
  obtain ⟨hq₂, hout⟩ := rteReorderDrain_refines hq₁ batchSize
  obtain ⟨hnext, hlen, hw₂⟩ := hw₁.drain batchSize
  have hexec : (s.exec batch).2.2 = (q₁.drain batchSize).2.map some := by
    rw [← hout, ← h.batch]
    rfl
  refine ⟨hrets, ⟨_, hw₁.isRun, ?_⟩, h.batch, h.counter, h.stamps, ?_, ?_⟩
  · rw [hexec, List.length_map, hlen]
  · refine ⟨(q₁.drain batchSize).1, ?_, ?_⟩
    · rw [← h.batch] at hq₂ ⊢
      exact hq₂
    · show Windowed size s.stamped _ (s.out ++ (s.exec batch).2.2).length _
      rw [hexec, List.length_append, List.length_map]
      exact hw₂
  · show s.out ++ (s.exec batch).2.2
      = (s.stamped.take (s.out ++ (s.exec batch).2.2).length).map some
    -- the output so far and the drained packets are consecutive
    rw [hexec, List.length_append, List.length_map, List.take_add, List.map_append, ← h.out,
      ← hnext]

theorem Streaming.start {size : UInt32} {stage : ReorderStage}
    (hinit : reorderInitWith size batchSize = some stage) :
    Streaming size.toNat batchSize (StreamState.start stage) := by
  obtain ⟨hbatch, hbuf⟩ := reorderInitWith_refines hinit
  refine ⟨hbatch, rfl, fun i m hi => absurd hi (by simp [StreamState.start]), ?_, rfl⟩
  refine ⟨.empty size.toNat, hbuf, hbuf.window_length, rfl, rfl, ?_, ?_⟩
  · intro i hi
    have hno : (StreamState.start stage).out.length + i ∉ (StreamState.start stage).arrived := by
      simp [StreamState.start]
    rw [if_neg hno]
    simp [Resequencer.empty, hi]
  · intro i hi
    exact absurd hi (by simp [StreamState.start])

end Run

/-- **Sequencing followed by reordering is the identity on the stream.**  While
every packet is inserted inside the window behind the packets put out so far,
the output is the stream itself from packet 0 on; no insert fails, and every
`reorder_exec` call puts out the smaller of `batch_size` and the run of packets
available without a gap.  The stream index is not bounded, so the sequence
number may wrap any number of times. -/
theorem seq_reorder_identity (size : UInt32) (batchSize : ℕ) (stage : ReorderStage)
    (hinit : reorderInitWith size batchSize = some stage) (s : StreamState)
    (hs : Relation.ReflTransGen (StreamStep size.toNat) (StreamState.start stage) s) :
    s.out = (s.stamped.take s.out.length).map some
      ∧ ∀ batch : s.Batch, s.InWindow size.toNat batch →
          (∀ ret ∈ (s.exec batch).2.1, ret = none)
            ∧ ∃ L, IsRun (s.arrived ++ batch.map Fin.val) s.out.length L
              ∧ (s.exec batch).2.2.length = min batchSize L := by
  have hsize := (reorderInitWith_refines hinit).2.orderWF.size_lt.2
  have hinv : Streaming size.toNat batchSize s := by
    refine ReflTransGen.invariant (Streaming size.toNat batchSize) (Streaming.start hinit) ?_ hs
    intro x y hx hxy
    cases hxy with
    | seq mbufs => exact hx.seq mbufs
    | reorder batch hin => exact (hx.exec hsize hin).2.2
  refine ⟨hinv.out, fun batch hin => ?_⟩
  obtain ⟨hrets, hrun, -⟩ := hinv.exec hsize hin
  exact ⟨hrets, hrun⟩

/-- Three packets of the stream are stamped. -/
def threeStamped : StreamState :=
  (StreamState.start fourPlaces).seq [pkt 10, pkt 11, pkt 12]

/-- Packet 1 arrives before packet 0; both leave in order. -/
theorem threeStamped_identity :
    (threeStamped.reorder [⟨1, by decide⟩, ⟨0, by decide⟩]).out
        = [some ⟨10, 0⟩, some ⟨11, 1⟩]
      ∧ (threeStamped.reorder [⟨1, by decide⟩, ⟨0, by decide⟩]).out
        = ((threeStamped.reorder [⟨1, by decide⟩, ⟨0, by decide⟩]).stamped.take
            (threeStamped.reorder [⟨1, by decide⟩, ⟨0, by decide⟩]).out.length).map some := by
  refine ⟨by decide +kernel, ?_⟩
  have hin : threeStamped.InWindow (4 : UInt32).toNat [⟨1, by decide⟩, ⟨0, by decide⟩] := by
    decide +kernel
  have hrun : Relation.ReflTransGen (StreamStep (4 : UInt32).toNat) (StreamState.start fourPlaces)
      (threeStamped.reorder [⟨1, by decide⟩, ⟨0, by decide⟩]) :=
    .tail (.tail .refl (.seq _ _)) (.reorder threeStamped _ hin)
  exact (seq_reorder_identity 4 2 fourPlaces (Option.some_get _).symm _ hrun).1

end Meili.Reorder
