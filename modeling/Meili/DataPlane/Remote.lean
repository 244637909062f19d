/-
  Meili.DataPlane.Remote — the transmission loops of the two remote run modes.

  Main offers a batch to the NIC until all of it is accepted, and frees the mbufs of the
  batch then.  `rte_eth_tx_burst` may accept any first part of the array it is given, and
  what it has accepted belongs to the NIC.

    • ALL_REMOTE_ON_ARRIVAL offers the rest of the batch, `&mbuf_in[tot_enq]`
      (`onArrival_loop`);
    • ALL_REMOTE_AFTER_PROCESSING offers the first `to_tx` entries of `mbuf_out` every time,
      so that a burst behind one that accepted something offers packets again
      (`afterProcessing_loop_iff`);
    • both free mbufs that the NIC owns.

  `remote_handover_iff` says exactly when nothing of this happens.
-/
import Meili.DataPlane.Model

namespace Meili.DataPlane

/-! ## §1. The loops. -/

/-- What main does with mbufs of the batch. -/
inductive TxEvent where
  /-- `rte_eth_tx_burst(.., mbufs, nb_pkts)` and its result. -/
  | burst (mbufs : List Mbuf) (nbTx : ℕ)
  /-- `rte_pktmbuf_free(mbuf)`. -/
  | free (mbuf : Mbuf)
  deriving Repr, DecidableEq

namespace TxEvent

/-- The mbufs that are handed to the NIC. -/
def accepted : TxEvent → List Mbuf
  | .burst mbufs nbTx => mbufs.take nbTx
  | .free _ => []

/-- The mbufs that main offers or frees. -/
def touched : TxEvent → List Mbuf
  | .burst mbufs _ => mbufs
  | .free mbuf => [mbuf]

end TxEvent

inductive RemoteMode where
  /-- `ALL_REMOTE_AFTER_PROCESSING`. -/
  | afterProcessing
  /-- `ALL_REMOTE_ON_ARRIVAL`. -/
  | onArrival
  deriving Repr, DecidableEq

/-- The array of the next `rte_eth_tx_burst`, when `totTx` mbufs are counted as sent and `toTx`
are left. -/
def RemoteMode.offer (mode : RemoteMode) (batch : List Mbuf) (totTx toTx : ℕ) : List Mbuf :=
  match mode with
  | .afterProcessing => batch.take toTx
  | .onArrival => (batch.drop totTx).take toTx

/-- The `while` loop, with the results of `rte_eth_tx_burst`: its bursts, and whether it has
been left. -/
def txLoop (offer : ℕ → ℕ → List Mbuf) (n : ℕ) : ℕ → ℕ → List ℕ → List TxEvent × Bool
  | totTx, _, [] => ([], decide (n ≤ totTx))
  | totTx, toTx, nbTx :: rest =>
      if totTx < n then
        let (events, left) := txLoop offer n (totTx + nbTx) (toTx - nbTx) rest
        (.burst (offer totTx toTx) nbTx :: events, left)
      else ([], true)

/-- `rest` are results that `rte_eth_tx_burst` may have in the loop: no more than it was
offered. -/
def Accepts (offer : ℕ → ℕ → List Mbuf) (n : ℕ) : ℕ → ℕ → List ℕ → Prop
  | _, _, [] => True
  | totTx, toTx, nbTx :: rest =>
      totTx < n ∧ nbTx ≤ (offer totTx toTx).length
        ∧ Accepts offer n (totTx + nbTx) (toTx - nbTx) rest

instance decidableAccepts (offer : ℕ → ℕ → List Mbuf) (n : ℕ) :
    ∀ (totTx toTx : ℕ) (rest : List ℕ), Decidable (Accepts offer n totTx toTx rest)
  | _, _, [] => isTrue trivial
  | totTx, toTx, nbTx :: rest =>
      have := decidableAccepts offer n (totTx + nbTx) (toTx - nbTx) rest
      inferInstanceAs (Decidable (totTx < n ∧ nbTx ≤ (offer totTx toTx).length ∧ _))

/-- What main does with the mbufs of a batch: the bursts, and behind the loop the frees. -/
def remoteTx (mode : RemoteMode) (batch : List Mbuf) (nbTxs : List ℕ) : List TxEvent :=
  let (events, left) := txLoop (mode.offer batch) batch.length 0 batch.length nbTxs
  events ++ if left then batch.map .free else []

/-! ## §2. What is handed over. -/

/-- The mbufs the NIC has accepted, in order. -/
def acceptedOf (events : List TxEvent) : List Mbuf := events.flatMap TxEvent.accepted

/-- No event touches an mbuf of `owned` or one that an earlier event has handed over. -/
def Untouched (owned : List Mbuf) : List TxEvent → Prop
  | [] => True
  | e :: events => (∀ m ∈ e.touched, m ∉ owned) ∧ Untouched (owned ++ e.accepted) events

/-- Each mbuf of the batch is handed over once and in order, and main leaves alone what it
has handed over. -/
structure HandedOver (mode : RemoteMode) (batch : List Mbuf) (nbTxs : List ℕ) : Prop where
  inOrder : acceptedOf (remoteTx mode batch nbTxs) <+: batch
  /-- Once everything is counted as sent, everything has been accepted. -/
  complete : batch.length ≤ nbTxs.sum → acceptedOf (remoteTx mode batch nbTxs) = batch
  untouched : Untouched [] (remoteTx mode batch nbTxs)

theorem acceptedOf_append (xs ys : List TxEvent) :
    acceptedOf (xs ++ ys) = acceptedOf xs ++ acceptedOf ys := List.flatMap_append

theorem acceptedOf_frees (batch : List Mbuf) : acceptedOf (batch.map .free) = [] := by
  simp [acceptedOf, TxEvent.accepted, List.flatMap_map]

theorem untouched_append (xs ys : List TxEvent) :
    ∀ owned, Untouched owned (xs ++ ys)
      ↔ Untouched owned xs ∧ Untouched (owned ++ acceptedOf xs) ys := by
  induction xs with
  | nil =>
      intro owned
      simp [Untouched, acceptedOf]
  | cons e xs ih =>
      intro owned
      simp only [List.cons_append, Untouched, ih, acceptedOf, List.flatMap_cons,
        List.append_assoc, and_assoc]

/-- The loop is left when all is counted as sent. -/
theorem txLoop_left (offer : ℕ → ℕ → List Mbuf) (n : ℕ) (nbTxs : List ℕ) :
    ∀ totTx toTx, Accepts offer n totTx toTx nbTxs →
      (txLoop offer n totTx toTx nbTxs).2 = decide (n ≤ totTx + nbTxs.sum) := by
  induction nbTxs with
  | nil =>
      intro totTx toTx _
      rfl
  | cons nbTx rest ih =>
      intro totTx toTx h
      obtain ⟨hlt, -, hrest⟩ := h
      unfold txLoop
      rw [if_pos hlt]
      show (txLoop offer n (totTx + nbTx) (toTx - nbTx) rest).2 = _
      rw [ih _ _ hrest, List.sum_cons, Nat.add_assoc]

theorem txLoop_cons {offer : ℕ → ℕ → List Mbuf} {n totTx toTx nbTx : ℕ} {rest : List ℕ}
    (h : totTx < n) :
    (txLoop offer n totTx toTx (nbTx :: rest)).1
      = .burst (offer totTx toTx) nbTx
        :: (txLoop offer n (totTx + nbTx) (toTx - nbTx) rest).1 := by
  conv_lhs => unfold txLoop
  rw [if_pos h]

/-! ## §3. The bursts. -/

section Bursts

variable {batch : List Mbuf} {nbTxs : List ℕ}

/-- **ALL_REMOTE_ON_ARRIVAL**: the bursts hand over the batch from `tot_enq` on. -/
theorem onArrival_loop (hnodup : batch.Nodup) (nbTxs : List ℕ) :
    ∀ totTx toTx, totTx + toTx = batch.length →
      Accepts (RemoteMode.onArrival.offer batch) batch.length totTx toTx nbTxs →
      let events := (txLoop (RemoteMode.onArrival.offer batch) batch.length totTx toTx nbTxs).1
      Untouched (batch.take totTx) events
        ∧ acceptedOf events = (batch.drop totTx).take nbTxs.sum := by
  induction nbTxs with
  | nil =>
      intro totTx toTx _ _
      exact ⟨trivial, rfl⟩
  | cons nbTx rest ih =>
      intro totTx toTx hsum h
      obtain ⟨hlt, hle, hrest⟩ := h
      have hoffer : RemoteMode.onArrival.offer batch totTx toTx = batch.drop totTx := by
        refine List.take_of_length_le ?_
        rw [List.length_drop]
        omega
      rw [hoffer, List.length_drop] at hle
      obtain ⟨huntouched, haccepted⟩ := ih _ _ (by omega) hrest
      dsimp only at huntouched haccepted ⊢
      rw [txLoop_cons hlt, hoffer]
      refine ⟨⟨fun m hm hold => ?_, ?_⟩, ?_⟩
      · -- what was handed over is in front of what is offered
        rw [← List.take_append_drop totTx batch, List.nodup_append] at hnodup
        exact hnodup.2.2 m hold m hm rfl
      · show Untouched (batch.take totTx ++ (batch.drop totTx).take nbTx) _
        rw [← List.take_add]
        exact huntouched
      · show (batch.drop totTx).take nbTx ++ acceptedOf _ = _
        rw [haccepted, List.sum_cons, List.take_add, List.drop_drop]

/-- **ALL_REMOTE_AFTER_PROCESSING**: the bursts touch nothing that was handed over if and
only if none but the last accepts anything; then they hand over the front of the batch. -/
theorem afterProcessing_loop_iff (nbTxs : List ℕ)
    (h : Accepts (RemoteMode.afterProcessing.offer batch) batch.length 0 batch.length nbTxs) :
    let events :=
      (txLoop (RemoteMode.afterProcessing.offer batch) batch.length 0 batch.length nbTxs).1
    (Untouched [] events ↔ ∀ nbTx ∈ nbTxs.dropLast, nbTx = 0)
      ∧ ((∀ nbTx ∈ nbTxs.dropLast, nbTx = 0) → acceptedOf events = batch.take nbTxs.sum) := by
  have hall : RemoteMode.afterProcessing.offer batch 0 batch.length = batch := List.take_length
  induction nbTxs with
  | nil => exact ⟨⟨fun _ nbTx hmem => absurd hmem (by simp), fun _ => trivial⟩, fun _ => rfl⟩
  | cons nbTx rest ih =>
      obtain ⟨hlt, hle, hrest⟩ := h
      dsimp only at ih ⊢
      rw [txLoop_cons hlt, hall]
      cases rest with
      | nil =>
          -- the last burst
          refine ⟨⟨fun _ nbTx hmem => absurd hmem (by simp), fun _ => ⟨by simp, trivial⟩⟩, ?_⟩
          intro _
          simp [txLoop, acceptedOf, TxEvent.accepted]
      | cons nbTx' rest =>
          rcases Nat.eq_zero_or_pos nbTx with rfl | hpos
          · -- nothing is accepted, and the same is offered again
            obtain ⟨hiff, haccepted⟩ := ih hrest
            have hdrop : (∀ k ∈ (0 :: nbTx' :: rest).dropLast, k = 0)
                ↔ ∀ k ∈ (nbTx' :: rest).dropLast, k = 0 := by
              simp
            rw [hdrop]
            refine ⟨?_, fun hzero => ?_⟩
            · rw [← hiff]
              exact ⟨fun hu => hu.2, fun hu => ⟨by simp, hu⟩⟩
            · show batch.take 0 ++ acceptedOf _ = _
              have hsum : (0 :: nbTx' :: rest).sum = (nbTx' :: rest).sum := Nat.zero_add _
              rw [List.take_zero, List.nil_append, hsum]
              exact haccepted hzero
          · -- the first packet was accepted, and is offered again
            have hno : ¬ ∀ k ∈ (nbTx :: nbTx' :: rest).dropLast, k = 0 := by
              intro hzero
              have hmem : nbTx ∈ (nbTx :: nbTx' :: rest).dropLast := by simp
              exact hpos.ne' (hzero nbTx hmem)
            refine ⟨⟨fun hu => absurd ?_ id, fun hzero => absurd hzero hno⟩,
              fun hzero => absurd hzero hno⟩
            obtain ⟨hlt', -, -⟩ := hrest
            obtain ⟨m, ms, hbatch⟩ := List.exists_cons_of_length_pos (by omega : 0 < batch.length)
            have htouch := hu.2
            rw [txLoop_cons hlt'] at htouch
            refine htouch.1 m ?_ ?_
            · show m ∈ batch.take (batch.length - nbTx)
              obtain ⟨k, hk⟩ : ∃ k, batch.length - nbTx = k + 1 :=
                ⟨batch.length - nbTx - 1, by omega⟩
              rw [hk, hbatch, List.take_succ_cons]
              exact List.mem_cons_self ..
            · show m ∈ [] ++ batch.take nbTx
              obtain ⟨k, hk⟩ : ∃ k, nbTx = k + 1 := ⟨nbTx - 1, by omega⟩
              rw [hk, hbatch, List.take_succ_cons]
              exact List.mem_cons_self ..

/-- **Setting aside the frees**, only the array offered decides. -/
theorem bursts_sound_iff {mode : RemoteMode} (hnodup : batch.Nodup)
    (h : Accepts (mode.offer batch) batch.length 0 batch.length nbTxs) :
    let events := (txLoop (mode.offer batch) batch.length 0 batch.length nbTxs).1
    (Untouched [] events ↔ mode = .onArrival ∨ ∀ nbTx ∈ nbTxs.dropLast, nbTx = 0)
      ∧ (Untouched [] events → acceptedOf events = batch.take nbTxs.sum) := by
  cases mode with
  | afterProcessing =>
      obtain ⟨hiff, haccepted⟩ := afterProcessing_loop_iff nbTxs h
      refine ⟨?_, fun hu => haccepted (hiff.mp hu)⟩
      rw [hiff]
      simp
  | onArrival =>
      obtain ⟨huntouched, haccepted⟩ := onArrival_loop hnodup nbTxs 0 batch.length (by simp) h
      rw [List.take_zero] at huntouched
      exact ⟨⟨fun _ => Or.inl rfl, fun _ => huntouched⟩, fun _ => haccepted⟩

end Bursts

/-! ## §4. Batches. -/

/-- Frees behind the loop touch what the NIC owns, unless there is nothing to free. -/
theorem untouched_frees (batch : List Mbuf) : Untouched batch (batch.map .free) ↔ batch = [] := by
  constructor
  · intro h
    cases batch with
    | nil => rfl
    | cons m batch => exact absurd (List.mem_cons_self ..) (h.1 m (List.mem_singleton.mpr rfl))
  · rintro rfl
    exact trivial

/-- **When remote transmission hands over each packet exactly once.**  For every batch of
different mbufs and every sequence of partial acceptances so far: the NIC has accepted the
front of the batch in order, all of it once the loop is left, and main touches nothing that
the NIC has accepted, if and only if

  • the batch is empty or the loop is not left yet, and
  • the mode is ALL_REMOTE_ON_ARRIVAL or no burst but the last has accepted anything. -/
theorem remote_handover_iff (mode : RemoteMode) (batch : List Mbuf) (hnodup : batch.Nodup)
    (nbTxs : List ℕ)
    (h : Accepts (mode.offer batch) batch.length 0 batch.length nbTxs) :
    HandedOver mode batch nbTxs
      ↔ (batch = [] ∨ nbTxs.sum < batch.length)
        ∧ (mode = .onArrival ∨ ∀ nbTx ∈ nbTxs.dropLast, nbTx = 0) := by
  have hleft := txLoop_left _ _ nbTxs 0 batch.length h
  rw [Nat.zero_add] at hleft
  obtain ⟨hiff, haccepted⟩ := bursts_sound_iff hnodup h
  have hrun : remoteTx mode batch nbTxs
      = (txLoop (mode.offer batch) batch.length 0 batch.length nbTxs).1
        ++ if batch.length ≤ nbTxs.sum then batch.map .free else [] := by
    show _ ++ (if (txLoop (mode.offer batch) batch.length 0 batch.length nbTxs).2 then _ else _) = _
    rw [hleft]
    simp only [decide_eq_true_eq]
  have hall : acceptedOf (remoteTx mode batch nbTxs)
      = acceptedOf (txLoop (mode.offer batch) batch.length 0 batch.length nbTxs).1 := by
    rw [hrun, acceptedOf_append]
    split
    · rw [acceptedOf_frees, List.append_nil]
    · exact List.append_nil _
  rw [← hiff]
  constructor
  · intro h
    obtain ⟨-, hcomplete, huntouched⟩ := h
    rw [hrun, untouched_append] at huntouched
    refine ⟨?_, huntouched.1⟩
    rw [← Nat.not_le, or_iff_not_imp_right, Classical.not_not]
    intro hle
    have hfrees := huntouched.2
    rw [if_pos hle, List.nil_append, ← hall, hcomplete hle] at hfrees
    exact (untouched_frees batch).mp hfrees
  · intro h
    obtain ⟨hmore, huntouched⟩ := h
    have hfront := haccepted huntouched
    refine ⟨?_, fun hle => ?_, ?_⟩
    · rw [hall, hfront]
      exact List.take_prefix _ _
    · rw [hall, hfront, List.take_of_length_le hle]
    · rw [hrun, untouched_append]
      refine ⟨huntouched, ?_⟩
      rcases hmore with rfl | hlt
      · simp [Untouched]
      · rw [if_neg (Nat.not_le.mpr hlt)]
        exact trivial

/-- Two packets on arrival, of which the NIC has accepted one. -/
theorem onArrival_one :
    HandedOver .onArrival [1, 2] [1]
      ↔ ([1, 2] = [] ∨ [1].sum < [1, 2].length)
        ∧ (RemoteMode.onArrival = .onArrival ∨ ∀ nbTx ∈ [1].dropLast, nbTx = 0) :=
  remote_handover_iff .onArrival [1, 2] (by decide) [1] (by decide)

/-- The NIC accepts one packet, and then another one: after processing it gets packet 1
twice and packet 2 never; on arrival it gets both, and main frees them. -/
theorem oneByOne_not_handedOver :
    acceptedOf (remoteTx .afterProcessing [1, 2] [1, 1]) = [1, 1]
      ∧ ¬ HandedOver .afterProcessing [1, 2] [1, 1]
      ∧ ¬ HandedOver .onArrival [1, 2] [1, 1] := by
  have htwice : acceptedOf (remoteTx .afterProcessing [1, 2] [1, 1]) = [1, 1] := by decide
  refine ⟨htwice, fun h => ?_, fun h => ?_⟩
  · have hall := h.complete (by decide)
    rw [htwice] at hall
    exact absurd hall (by decide)
  · -- the first free
    have hfree := h.untouched.2.2.1 1 (by decide)
    exact hfree (by decide)

end Meili.DataPlane
