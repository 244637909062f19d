/-
  Meili.Reorder.Verify — what `reorder_verify` of `src/packet_ordering/packet_ordering.c` reports.

  With `REORDER_VERIFY_ON`, `reorder_exec` looks at what each drain hands out: the first number has
  to follow the last one of the drain before, and every other the one in front of it.  An error is
  logged with the number before and the number found.

    `reorderVerify_reports` — over a run of calls, these are the numbers that reordering has
    skipped, all of them and no others.
-/
import Meili.Lib.Gaps
import Meili.Reorder.Order

namespace Meili.Reorder

open Meili.Lib

/-! ## §1. The check. -/

/-- The errors of a call: the number before, and the number found. -/
abbrev VerifyLog := List (UInt32 × UInt32)

/-- One comparison. -/
def verifyPair (before seqn : UInt32) : VerifyLog :=
  if before + 1 ≠ seqn then [(before, seqn)] else []

/-- The loop over the mbufs behind `mbuf[i-1]`, with the number of the last one; `none` where
NULL is read. -/
def verifyLoop : Mbuf → List (Option Mbuf) → Option (UInt32 × VerifyLog)
  | before, [] => some (before.seqn, [])
  | _, none :: _ => none
  | before, some mbuf :: mbufs =>
      (verifyLoop mbuf mbufs).map fun (last, log) =>
        (last, verifyPair before.seqn mbuf.seqn ++ log)

/-- `reorder_verify(self, mbuf, nb_mbuf)`: `last_seq_nb` and the errors. -/
def reorderVerify (lastSeqNb : UInt32) : List (Option Mbuf) → Option (UInt32 × VerifyLog)
  | [] => some (lastSeqNb, [])
  | none :: _ => none
  | some mbuf :: mbufs =>
      (verifyLoop mbuf mbufs).map fun (last, log) => (last, verifyPair lastSeqNb mbuf.seqn ++ log)

/-- A run of `reorder_exec` calls with the check: all errors. -/
def verifyRun : ReorderStage → UInt32 → List (List Mbuf) → Option VerifyLog
  | _, _, [] => some []
  | self, lastSeqNb, mbufs :: rest => do
      let (self, _, mbufDrain) := reorderExec self mbufs
      let (lastSeqNb, log) ← reorderVerify lastSeqNb mbufDrain
      let logs ← verifyRun self lastSeqNb rest
      return log ++ logs

/-! ## §2. One stream. -/

/-- What the check reports on numbers. -/
def breaks : UInt32 → List UInt32 → VerifyLog
  | _, [] => []
  | before, seqn :: seqns => verifyPair before seqn ++ breaks seqn seqns

/-- The last number. -/
def lastOf (before : UInt32) (seqns : List UInt32) : UInt32 := seqns.getLast?.getD before

@[simp] theorem lastOf_cons (before seqn : UInt32) (seqns : List UInt32) :
    lastOf before (seqn :: seqns) = lastOf seqn seqns := by
  unfold lastOf
  rw [List.getLast?_cons, Option.getD_some]

theorem breaks_append (before : UInt32) (xs ys : List UInt32) :
    breaks before (xs ++ ys) = breaks before xs ++ breaks (lastOf before xs) ys := by
  induction xs generalizing before with
  | nil => rfl
  | cons x xs ih =>
      rw [List.cons_append, breaks, breaks, ih, List.append_assoc, lastOf_cons]

theorem verifyLoop_eq (before : Mbuf) (ms : List Mbuf) :
    verifyLoop before (ms.map some)
      = some (lastOf before.seqn (ms.map Mbuf.seqn), breaks before.seqn (ms.map Mbuf.seqn)) := by
  induction ms generalizing before with
  | nil => rfl
  | cons m ms ih =>
      rw [List.map_cons, List.map_cons, verifyLoop, ih, lastOf_cons, breaks]
      rfl

theorem reorderVerify_eq (lastSeqNb : UInt32) (ms : List Mbuf) :
    reorderVerify lastSeqNb (ms.map some)
      = some (lastOf lastSeqNb (ms.map Mbuf.seqn), breaks lastSeqNb (ms.map Mbuf.seqn)) := by
  cases ms with
  | nil => rfl
  | cons m ms =>
      rw [List.map_cons, List.map_cons, reorderVerify, verifyLoop_eq, lastOf_cons, breaks]
      rfl

/-- **The calls check one stream**: it does not matter how it is cut into drains. -/
theorem verifyRun_eq (batches : List (List Mbuf)) (self : ReorderStage) (lastSeqNb : UInt32)
    {ms : List Mbuf} (hout : (reorderRun self batches).2 = ms.map some) :
    verifyRun self lastSeqNb batches = some (breaks lastSeqNb (ms.map Mbuf.seqn)) := by
  induction batches generalizing self lastSeqNb ms with
  | nil =>
      have hnil : ms = [] := List.map_eq_nil_iff.mp hout.symm
      rw [hnil]
      rfl
  | cons mbufs rest ih =>
      have hsplit : (reorderExec self mbufs).2.2 ++ (reorderRun (reorderExec self mbufs).1 rest).2
          = ms.map some := hout
      obtain ⟨drained, later, rfl, hdrain, hlater⟩ := List.map_eq_append_iff.mp hsplit.symm
      unfold verifyRun
      dsimp only
      rw [← hdrain, reorderVerify_eq]
      dsimp only [Option.bind_eq_bind, Option.bind_some]
      rw [ih _ _ hlater.symm, List.map_append, breaks_append]
      rfl

/-! ## §3. Gaps. -/

/-- The numbers that an error says are missing: from the first to behind the last. -/
def missing (error : UInt32 × UInt32) : ℕ × ℕ := ((error.1 + 1).toNat, error.2.toNat)

/-- **The errors are the gaps**, as long as the numbers do not wrap. -/
theorem map_missing_breaks (before : UInt32) (seqns : List UInt32)
    (hsmall : ∀ seqn ∈ seqns, seqn.toNat + 1 < 2 ^ 32) :
    (breaks before seqns).map missing
      = gaps (before + 1).toNat (seqns.map UInt32.toNat) := by
  induction seqns generalizing before with
  | nil => rfl
  | cons seqn seqns ih =>
      rw [List.forall_mem_cons] at hsmall
      have hnext : (seqn + 1).toNat = seqn.toNat + 1 := by
        rw [UInt32.toNat_add]
        exact Nat.mod_eq_of_lt hsmall.1
      rw [breaks, List.map_append, ih seqn hsmall.2, hnext, List.map_cons, gaps]
      unfold verifyPair
      by_cases heq : before + 1 = seqn
      · rw [if_neg (not_not.mpr heq), if_neg (not_not.mpr (congrArg UInt32.toNat heq).symm)]
        rfl
      · rw [if_pos heq, if_pos fun h => heq (UInt32.toNat_inj.mp h.symm)]
        rfl

/-! ## §4. Every run. -/

/-- The errors of a run, as gaps in what it hands out. -/
theorem verifyRun_gaps {size : UInt32} {batchSize : ℕ} {self : ReorderStage}
    (hinit : reorderInitWith size batchSize = some self) (batches : List (List Mbuf))
    (hsmall : ∀ m ∈ batches.flatten, m.seqn.toNat + 2 * size.toNat < 2 ^ 32) :
    ∃ ms log, (reorderRun self batches).2 = List.map some ms
      ∧ verifyRun self (seqNumStart - 1) batches = some log
      ∧ (ms.map fun m => m.seqn.toNat).Pairwise (· < ·)
      ∧ log.map missing = gaps 0 (ms.map fun m => m.seqn.toNat) := by
  have hbuf := (reorderInitWith_refines hinit).2
  have hord : (Trace.run size.toNat batchSize (batches.flatMap execEvents)).Ordered size.toNat
      (fun m => m ∈ batches.flatten) :=
    Trace.run_ordered hbuf.orderWF.size_lt.2 hsmall
      (fun m hm => by rwa [inserted_flatMap] at hm)
  have hout : (reorderRun self batches).2
      = (Trace.run size.toNat batchSize (batches.flatMap execEvents)).out.map some := by
    rw [← (runEvents_refines hinit (batches.flatMap execEvents)).out]
    exact (reorderRun_events batches self ⟨self.reorderBuf, [], []⟩ rfl).2.symm
  generalize Trace.run size.toNat batchSize (batches.flatMap execEvents) = trace at hord hout
  have hroom : ∀ seqn ∈ trace.out.map Mbuf.seqn, seqn.toNat + 1 < 2 ^ 32 := by
    intro seqn hseqn
    obtain ⟨m, hm, rfl⟩ := List.mem_map.mp hseqn
    have hlt := hsmall m (hord.origin m (List.mem_append_left _ (List.mem_append_left _ hm)))
    have hpos := hbuf.orderWF.size_lt.1
    omega
  refine ⟨trace.out, _, hout, verifyRun_eq batches self _ hout, ?_, ?_⟩
  · rw [List.pairwise_map]
    exact (List.pairwise_append.mp hord.sorted).1.imp fun h => UInt32.lt_iff_toNat_lt.mp h
  · rw [map_missing_breaks _ _ hroom, List.map_map]
    rfl

/-- **The check reports what reordering has skipped**, over every run of calls with any batches:
it never reads NULL; the numbers that do not come out, up to the last one that does, are those
that an error says are missing; and without an error the numbers 0, 1, 2, ... come out. -/
theorem reorderVerify_reports (size : UInt32) (batchSize : ℕ) (self : ReorderStage)
    (hinit : reorderInitWith size batchSize = some self) (batches : List (List Mbuf))
    (hsmall : ∀ m ∈ batches.flatten, m.seqn.toNat + 2 * size.toNat < 2 ^ 32) :
    ∃ ms log, (reorderRun self batches).2 = List.map some ms
      ∧ verifyRun self (seqNumStart - 1) batches = some log
      ∧ (∀ n, (∃ m ∈ ms, n ≤ m.seqn.toNat) →
          ((∀ m ∈ ms, m.seqn.toNat ≠ n) ↔
            ∃ error ∈ log, (missing error).1 ≤ n ∧ n < (missing error).2))
      ∧ (log = [] ↔ (ms.map fun m => m.seqn.toNat) = List.range ms.length) := by
  obtain ⟨ms, log, hout, hlog, hsorted, hgaps⟩ := verifyRun_gaps hinit batches hsmall
  refine ⟨ms, log, hout, hlog, fun n hlast => ?_, ?_⟩
  · obtain ⟨m, hm, hle⟩ := hlast
    have hgap := not_mem_iff_gap hsorted (fun _ _ => Nat.zero_le _) (Nat.zero_le n)
      ⟨m.seqn.toNat, List.mem_map_of_mem (f := fun m : Mbuf => m.seqn.toNat) hm, hle⟩
    rw [← hgaps, List.mem_map, not_exists] at hgap
    simp only [not_and] at hgap
    refine hgap.trans ⟨fun h => ?_, fun h => ?_⟩
    · obtain ⟨_, hg, hbounds⟩ := h
      obtain ⟨error, herror, rfl⟩ := List.mem_map.mp hg
      exact ⟨error, herror, hbounds⟩
    · obtain ⟨error, herror, hbounds⟩ := h
      exact ⟨missing error, List.mem_map_of_mem herror, hbounds⟩
  · have hnil : log = [] ↔ log.map missing = [] := List.map_eq_nil_iff.symm
    rw [hnil, hgaps, gaps_eq_nil_iff, List.length_map, List.range_eq_range']

/-- The gap at 1 is skipped when 5 arrives, and 1 comes too late. -/
theorem reorderVerify_reports_fourPlaces :
    verifyRun fourPlaces (seqNumStart - 1) [[pkt 2, pkt 0], [pkt 5, pkt 3], [pkt 1]]
        = some [(0, 2)]
      ∧ ∃ ms log, (reorderRun fourPlaces [[pkt 2, pkt 0], [pkt 5, pkt 3], [pkt 1]]).2
          = List.map some ms
        ∧ verifyRun fourPlaces (seqNumStart - 1) [[pkt 2, pkt 0], [pkt 5, pkt 3], [pkt 1]]
          = some log
        ∧ (∀ n, (∃ m ∈ ms, n ≤ m.seqn.toNat) →
            ((∀ m ∈ ms, m.seqn.toNat ≠ n) ↔
              ∃ error ∈ log, (missing error).1 ≤ n ∧ n < (missing error).2))
        ∧ (log = [] ↔ (ms.map fun m => m.seqn.toNat) = List.range ms.length) :=
  ⟨by decide +kernel, reorderVerify_reports 4 2 fourPlaces (Option.some_get _).symm _
    (by decide +kernel)⟩

end Meili.Reorder
