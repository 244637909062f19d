/-
  Meili.Reorder.Run — runs of the reorder stage.

  A `reorder_exec` call is its inserts and one drain (`execEvents`), so a run
  of calls is a list of events, and "after every step" means after every
  prefix of it.  A `History` keeps, beside the reorder buffer, what was accepted
  and what was put out; `Trace` is the same over the resequencer, and
  `runEvents_refines` carries every statement about traces to the circular
  buffers.
-/
import Mathlib.Data.List.Induction
import Meili.Reorder.Refinement

namespace Meili.Reorder

/-! ## §1. Events. -/

/-- A step of `reorder_exec`. -/
inductive Event where
  | insert (m : Mbuf)
  | drain
  deriving DecidableEq

/-- The steps of one `reorder_exec` call. -/
def execEvents (mbufs : List Mbuf) : List Event := mbufs.map .insert ++ [.drain]

/-- The mbufs that events pass in. -/
def inserted : List Event → List Mbuf
  | [] => []
  | .insert m :: evs => m :: inserted evs
  | .drain :: evs => inserted evs

@[simp] theorem inserted_append (xs ys : List Event) :
    inserted (xs ++ ys) = inserted xs ++ inserted ys := by
  induction xs with
  | nil => rfl
  | cons x xs ih => cases x <;> simp [inserted, ih]

@[simp] theorem inserted_map (mbufs : List Mbuf) : inserted (mbufs.map .insert) = mbufs := by
  induction mbufs with
  | nil => rfl
  | cons m mbufs ih => simp [inserted, ih]

theorem inserted_flatMap (batches : List (List Mbuf)) :
    inserted (batches.flatMap execEvents) = batches.flatten := by
  induction batches with
  | nil => rfl
  | cons batch batches ih => simp [execEvents, ih, inserted]

/-! ## §2. Runs of the source. -/

/-- A reorder buffer and what happened to it so far. -/
structure History where
  buf : ReorderBuffer
  /-- The mbufs for which `rte_reorder_insert` returned 0. -/
  accepted : List Mbuf
  /-- Everything written to `mbuf_drain`, in order. -/
  out : List (Option Mbuf)

/-- One step of `reorder_exec`. -/
def History.step (batchSize : ℕ) (h : History) : Event → History
  | .insert m =>
      let (b, ret) := rteReorderInsert h.buf (some m)
      { h with buf := b, accepted := if ret = none then h.accepted ++ [m] else h.accepted }
  | .drain =>
      let (b, mbufs) := rteReorderDrain h.buf batchSize
      { h with buf := b, out := h.out ++ mbufs }

/-- A run, from a buffer nothing happened to yet. -/
def runEvents (st : ReorderStage) (evs : List Event) : History :=
  evs.foldl (History.step st.batchSize) ⟨st.reorderBuf, [], []⟩

/-- A run of `reorder_exec` calls: the stage it leaves, and all it put out. -/
def reorderRun : ReorderStage → List (List Mbuf) → ReorderStage × List (Option Mbuf)
  | self, [] => (self, [])
  | self, mbufs :: rest =>
      let (self', _, mbufDrain) := reorderExec self mbufs
      let (self'', out) := reorderRun self' rest
      (self'', mbufDrain ++ out)

theorem insertAll_events (batchSize : ℕ) (mbufs : List Mbuf) :
    ∀ h : History, ((mbufs.map Event.insert).foldl (History.step batchSize) h).buf
          = (insertAll h.buf mbufs).1
        ∧ ((mbufs.map Event.insert).foldl (History.step batchSize) h).out = h.out := by
  induction mbufs with
  | nil => intro h; exact ⟨rfl, rfl⟩
  | cons m mbufs ih =>
      intro h
      obtain ⟨hbuf, hout⟩ := ih (h.step batchSize (.insert m))
      exact ⟨hbuf, hout⟩

/-- A run of calls is the run of their events. -/
theorem reorderRun_events (batches : List (List Mbuf)) :
    ∀ (self : ReorderStage) (h : History), h.buf = self.reorderBuf →
      ((batches.flatMap execEvents).foldl (History.step self.batchSize) h).buf
          = (reorderRun self batches).1.reorderBuf
        ∧ ((batches.flatMap execEvents).foldl (History.step self.batchSize) h).out
          = h.out ++ (reorderRun self batches).2 := by
  induction batches with
  | nil =>
      intro self h hbuf
      exact ⟨hbuf, (List.append_nil _).symm⟩
  | cons mbufs rest ih =>
      intro self h hbuf
      obtain ⟨hins, hout⟩ := insertAll_events self.batchSize mbufs h
      have hcall : (execEvents mbufs).foldl (History.step self.batchSize) h
          = History.step self.batchSize
              ((mbufs.map Event.insert).foldl (History.step self.batchSize) h) .drain := by
        rw [execEvents, List.foldl_append]
        rfl
      rw [List.flatMap_cons, List.foldl_append, hcall]
      rw [hbuf] at hins
      obtain ⟨hbuf', hout'⟩ := ih (reorderExec self mbufs).1
        (History.step self.batchSize
          ((mbufs.map Event.insert).foldl (History.step self.batchSize) h) .drain)
        (by
          show (rteReorderDrain _ self.batchSize).1 = _
          rw [hins]
          rfl)
      refine ⟨hbuf', ?_⟩
      refine hout'.trans ?_
      show _ ++ (rteReorderDrain _ self.batchSize).2 ++ _ = _
      rw [hins, hout, List.append_assoc]
      rfl

/-! ## §3. Runs of the resequencer. -/

/-- A resequencer and what happened to it so far. -/
structure Trace where
  q : Resequencer
  accepted : List Mbuf
  out : List Mbuf

def Trace.step (batchSize : ℕ) (t : Trace) : Event → Trace
  | .insert m =>
      { q := (t.q.insert m).1
        accepted := if (t.q.insert m).2 = none then t.accepted ++ [m] else t.accepted
        out := t.out }
  | .drain =>
      { t with q := (t.q.drain batchSize).1, out := t.out ++ (t.q.drain batchSize).2 }

/-- A run of the empty resequencer with `size` places. -/
def Trace.run (size batchSize : ℕ) (evs : List Event) : Trace :=
  evs.foldl (Trace.step batchSize) ⟨.empty size, [], []⟩

/-- The history `h` is the trace `t`. -/
structure HistoryRefines (size : ℕ) (h : History) (t : Trace) : Prop where
  buf : Refines size h.buf t.q
  accepted : h.accepted = t.accepted
  out : h.out = t.out.map some

theorem HistoryRefines.step {size : ℕ} {h : History} {t : Trace} (href : HistoryRefines size h t)
    (batchSize : ℕ) (e : Event) :
    HistoryRefines size (h.step batchSize e) (t.step batchSize e) := by
  cases e with
  | insert m =>
      obtain ⟨hbuf, hret⟩ := rteReorderInsert_refines href.buf m
      refine ⟨hbuf, ?_, href.out⟩
      show (if (rteReorderInsert h.buf (some m)).2 = none then h.accepted ++ [m] else h.accepted)
        = if (t.q.insert m).2 = none then t.accepted ++ [m] else t.accepted
      rw [hret, href.accepted]
  | drain =>
      obtain ⟨hbuf, hout⟩ := rteReorderDrain_refines href.buf batchSize
      refine ⟨hbuf, href.accepted, ?_⟩
      show h.out ++ (rteReorderDrain h.buf batchSize).2
        = (t.out ++ (t.q.drain batchSize).2).map some
      rw [hout, href.out, List.map_append]

/-- **A run of the source is a run of the resequencer.** -/
theorem runEvents_refines {size : UInt32} {batchSize : ℕ} {st : ReorderStage}
    (hinit : reorderInitWith size batchSize = some st) (evs : List Event) :
    HistoryRefines size.toNat (runEvents st evs) (Trace.run size.toNat batchSize evs) := by
  obtain ⟨hbatch, hbuf⟩ := reorderInitWith_refines hinit
  unfold runEvents Trace.run
  rw [hbatch]
  have hstart : HistoryRefines size.toNat ⟨st.reorderBuf, [], []⟩ ⟨.empty size.toNat, [], []⟩ :=
    ⟨hbuf, rfl, rfl⟩
  revert hstart
  generalize (⟨st.reorderBuf, [], []⟩ : History) = h
  generalize (⟨.empty size.toNat, [], []⟩ : Trace) = t
  induction evs generalizing h t with
  | nil => exact id
  | cons e evs ih => exact fun hstart => ih _ _ (hstart.step batchSize e)

@[simp] theorem Trace.run_append_singleton (size batchSize : ℕ) (evs : List Event) (e : Event) :
    Trace.run size batchSize (evs ++ [e]) = (Trace.run size batchSize evs).step batchSize e := by
  simp [Trace.run, List.foldl_append]

/-- **The invariant rule for traces**: what the empty resequencer satisfies and
every next event preserves. -/
theorem Trace.invariant {size batchSize : ℕ} (I : Trace → Prop) {evs : List Event}
    (h0 : I ⟨.empty size, [], []⟩)
    (hstep : ∀ pre e, pre ++ [e] <+: evs → I (Trace.run size batchSize pre) →
      I ((Trace.run size batchSize pre).step batchSize e)) :
    I (Trace.run size batchSize evs) := by
  have key : ∀ pre, pre <+: evs → I (Trace.run size batchSize pre) := by
    intro pre
    induction pre using List.reverseRecOn with
    | nil => exact fun _ => h0
    | append_singleton pre e ih =>
        intro hpre
        rw [Trace.run_append_singleton]
        exact hstep pre e hpre (ih ((List.prefix_append pre [e]).trans hpre))
  exact key evs (List.prefix_refl evs)

/-! ## §4. A small stage. -/

/-- A packet with sequence number `i`. -/
def pkt (i : ℕ) : Mbuf := ⟨i, UInt32.ofNat i⟩

/-- A stage with 4 places that drains 2 mbufs at a time. -/
def fourPlaces : ReorderStage := (reorderInitWith 4 2).get (by decide)

end Meili.Reorder
