/-
  Meili.Reorder.Buffer — the reorder buffer of
  `src/utils/rte_reorder/rte_reorder.c`.

  A reorder buffer holds two circular buffers of pointers to mbufs:
  `order_buf` is the window of sequence numbers that starts at `min_seqn`,
  `ready_buf` a queue of mbufs that wait for the next drain.  `uint32_t` and
  `unsigned int` are `UInt32`, a NULL entry is `none`, and
  `*rte_reorder_seqn(mbuf)` is the field `seqn`.

  Conventions of the embedding:

    • the arrays `entries` have as many slots as `size` says: memory for
      `size` entries is assumed, which the 32-bit byte count of
      `rte_reorder_create` gives for sizes up to 2^27 only
      (`Registry.fits_iff`);
    • the allocation itself, the name and the global list of buffers are in
      `Meili.Reorder.Registry`; a buffer handle is never NULL;
    • a loop of the source is a recursion on the number of its iterations
      that are left (`fillMove`, `fillLoop`, `drainReady`, `drainOrder`);
    • `rte_errno` is returned beside the new buffer, `none` for the result 0.
-/
import Mathlib.Data.List.Basic
import Mathlib.Logic.Function.Basic

namespace Meili.Reorder

/-! ## §1. Data. -/

/-- A packet buffer: its address, and the dynamic field with its sequence number. -/
structure Mbuf where
  addr : ℕ
  seqn : UInt32
  deriving Repr, DecidableEq

/-- The values of `rte_errno` the reorder buffer sets. -/
inductive RteErrno where
  | EINVAL
  | ENOSPC
  | ERANGE
  | ENOTEMPTY
  deriving Repr, DecidableEq

/-- `struct cir_buffer`: a generic circular buffer. -/
structure CirBuffer where
  /-- Number of entries that can be stored. -/
  size : UInt32
  /-- `size - 1`, used for the wrap-around. -/
  mask : UInt32
  /-- Insertion point. -/
  head : UInt32
  /-- Extraction point. -/
  tail : UInt32
  entries : ℕ → Option Mbuf

namespace CirBuffer

/-- `entries[i]`. -/
def get (c : CirBuffer) (i : UInt32) : Option Mbuf := c.entries i.toNat

/-- `entries[i] = x`. -/
def set (c : CirBuffer) (i : UInt32) (x : Option Mbuf) : CirBuffer :=
  { c with entries := Function.update c.entries i.toNat x }

/-- `(i + 1) & mask`. -/
def next (c : CirBuffer) (i : UInt32) : UInt32 := (i + 1) &&& c.mask

/-- `head = (head + 1) & mask`. -/
def stepHead (c : CirBuffer) : CirBuffer := { c with head := c.next c.head }

/-- `tail = (tail + 1) & mask`. -/
def stepTail (c : CirBuffer) : CirBuffer := { c with tail := c.next c.tail }

end CirBuffer

/-- `struct rte_reorder_buffer`. -/
structure ReorderBuffer where
  /-- Lowest sequence number that can be in the buffer. -/
  minSeqn : UInt32
  isInitialized : Bool
  /-- Queue of dequeued entries. -/
  readyBuf : CirBuffer
  /-- Window in which entries are reordered. -/
  orderBuf : CirBuffer

/-! ## §2. Creation. -/

/-- `rte_is_power_of_2(n)`. -/
def rteIsPowerOf2 (n : UInt32) : Bool := n != 0 && (n &&& (n - 1)) == 0

/-- A zeroed `cir_buffer` with its `size` and `mask` set. -/
def CirBuffer.init (size : UInt32) : CirBuffer where
  size := size
  mask := size - 1
  head := 0
  tail := 0
  entries := fun _ => none

/-- `rte_reorder_create(name, socket_id, size)`: NULL when `size` is not a
power of two. -/
def rteReorderCreate (size : UInt32) : Option ReorderBuffer :=
  if !rteIsPowerOf2 size then none
  else some
    { minSeqn := 0
      isInitialized := false
      readyBuf := .init size
      orderBuf := .init size }

/-- `rte_reorder_is_empty(b)`. -/
def rteReorderIsEmpty (b : ReorderBuffer) : Bool :=
  if b.readyBuf.tail ≠ b.readyBuf.head then false
  else (List.range b.orderBuf.size.toNat).all fun i => (b.orderBuf.entries i).isNone

/-- `rte_reorder_min_seqn_set(b, min_seqn)`. -/
def rteReorderMinSeqnSet (b : ReorderBuffer) (minSeqn : UInt32) :
    ReorderBuffer × Option RteErrno :=
  if !rteReorderIsEmpty b then (b, some .ENOTEMPTY)
  else ({ b with minSeqn := minSeqn, isInitialized := true }, none)

/-! ## §3. `rte_reorder_fill_overflow`. -/

/-- The inner loop of `rte_reorder_fill_overflow`: move ready entries that fit
to the ready buffer.  The test for a full ready buffer stands between the
write of an entry and the step of the ready head. -/
def fillMove : ℕ → ReorderBuffer → UInt32 → ReorderBuffer × UInt32
  | 0, b, orderHeadAdv => (b, orderHeadAdv)
  | k + 1, b, orderHeadAdv =>
      match b.orderBuf.get b.orderBuf.head with
      | none => (b, orderHeadAdv)
      | some mbuf =>
          let readyBuf := b.readyBuf.set b.readyBuf.head (some mbuf)
          let orderBuf := (b.orderBuf.set b.orderBuf.head none).stepHead
          if readyBuf.next readyBuf.head = readyBuf.tail then
            ({ b with readyBuf := readyBuf, orderBuf := orderBuf }, orderHeadAdv + 1)
          else
            fillMove k { b with readyBuf := readyBuf.stepHead, orderBuf := orderBuf }
              (orderHeadAdv + 1)

/-- The outer loop: skip a gap, then move what is ready behind it.  No inner
loop makes more moves than the order buffer has slots. -/
def fillLoop (n : UInt32) : ℕ → ReorderBuffer → UInt32 → ReorderBuffer × UInt32
  | 0, b, orderHeadAdv => (b, orderHeadAdv)
  | k + 1, b, orderHeadAdv =>
      if orderHeadAdv < n ∧ b.readyBuf.next b.readyBuf.head ≠ b.readyBuf.tail then
        -- blocked waiting on a packet: skip it
        let (b, orderHeadAdv) :=
          if b.orderBuf.get b.orderBuf.head = none then
            ({ b with orderBuf := b.orderBuf.stepHead }, orderHeadAdv + 1)
          else (b, orderHeadAdv)
        let (b, orderHeadAdv) := fillMove b.orderBuf.size.toNat b orderHeadAdv
        fillLoop n k b orderHeadAdv
      else (b, orderHeadAdv)

/-- `rte_reorder_fill_overflow(b, n)`: the number of positions the order head
has moved.  Every iteration moves it, so `n` iterations are enough. -/
def rteReorderFillOverflow (b : ReorderBuffer) (n : UInt32) : ReorderBuffer × UInt32 :=
  let (b, orderHeadAdv) := fillLoop n n.toNat b 0
  ({ b with minSeqn := b.minSeqn + orderHeadAdv }, orderHeadAdv)

/-! ## §4. `rte_reorder_insert`. -/

/-- `entries[(head + offset) & mask] = mbuf` in the order buffer. -/
def storeAt (b : ReorderBuffer) (offset : UInt32) (mbuf : Mbuf) : ReorderBuffer :=
  let position := (b.orderBuf.head + offset) &&& b.orderBuf.mask
  { b with orderBuf := b.orderBuf.set position (some mbuf) }

/-- `rte_reorder_insert(b, mbuf)`. -/
def rteReorderInsert (b : ReorderBuffer) (mbuf : Option Mbuf) :
    ReorderBuffer × Option RteErrno :=
  match mbuf with
  | none => (b, some .EINVAL)
  | some mbuf =>
      let b :=
        if !b.isInitialized then { b with minSeqn := mbuf.seqn, isInitialized := true } else b
      let offset := mbuf.seqn - b.minSeqn
      if offset < b.orderBuf.size then
        (storeAt b offset mbuf, none)
      else if offset < 2 * b.orderBuf.size then
        let (b', adv) := rteReorderFillOverflow b (offset + 1 - b.orderBuf.size)
        if adv < offset + 1 - b.orderBuf.size then
          (b', some .ENOSPC)
        else
          (storeAt b' (mbuf.seqn - b'.minSeqn) mbuf, none)
      else
        (b, some .ERANGE)

/-! ## §5. `rte_reorder_drain`. -/

/-- The first loop of `rte_reorder_drain`, on the ready buffer. -/
def drainReady : ℕ → CirBuffer → CirBuffer × List (Option Mbuf)
  | 0, r => (r, [])
  | k + 1, r =>
      if r.tail ≠ r.head then
        let mbuf := r.get r.tail
        let (r', mbufs) := drainReady k (r.set r.tail none).stepTail
        (r', mbuf :: mbufs)
      else (r, [])

/-- The second loop of `rte_reorder_drain`, on the order buffer. -/
def drainOrder : ℕ → ReorderBuffer → ReorderBuffer × List (Option Mbuf)
  | 0, b => (b, [])
  | k + 1, b =>
      match b.orderBuf.get b.orderBuf.head with
      | none => (b, [])
      | some mbuf =>
          let orderBuf := (b.orderBuf.set b.orderBuf.head none).stepHead
          let (b', mbufs) := drainOrder k { b with minSeqn := b.minSeqn + 1, orderBuf := orderBuf }
          (b', some mbuf :: mbufs)

/-- `rte_reorder_drain(b, mbufs, max_mbufs)`: the pointers written to `mbufs`;
their number is the result of the function. -/
def rteReorderDrain (b : ReorderBuffer) (maxMbufs : ℕ) : ReorderBuffer × List (Option Mbuf) :=
  let (readyBuf, ready) := drainReady maxMbufs b.readyBuf
  let (b, ordered) := drainOrder (maxMbufs - ready.length) { b with readyBuf := readyBuf }
  (b, ready ++ ordered)

/-! ## §6. The sequencing and reordering stages of `src/packet_ordering/packet_ordering.c`. -/

/-- `SEQ_NUM_START`. -/
def seqNumStart : UInt32 := 0

/-- `REORDER_BUFFER_SIZE`. -/
def reorderBufferSize : UInt32 := (1 : UInt32) <<< (16 : UInt32)

/-- `REORDER_DEFAULT_BATCH_SIZE`. -/
def reorderDefaultBatchSize : ℕ := 64

/-- `seq_exec` on a batch: each mbuf gets the counter of `seq_state`, which is
then incremented. -/
def seqExec : UInt32 → List Mbuf → UInt32 × List Mbuf
  | seqn, [] => (seqn, [])
  | seqn, mbuf :: mbufs =>
      let (seqn', mbufs') := seqExec (seqn + 1) mbufs
      (seqn', { mbuf with seqn := seqn } :: mbufs')

/-- A reorder stage: `self->batch_size` and `mystate->reorder_buf`. -/
structure ReorderStage where
  batchSize : ℕ
  reorderBuf : ReorderBuffer

/-- `reorder_init`, for any values of its two macros; `none` when
`rte_reorder_create` returns NULL. -/
def reorderInitWith (size : UInt32) (batchSize : ℕ) : Option ReorderStage :=
  (rteReorderCreate size).map fun b =>
    { batchSize := batchSize
      reorderBuf := (rteReorderMinSeqnSet b seqNumStart).1 }

/-- `reorder_init`. -/
def reorderInit : Option ReorderStage :=
  reorderInitWith reorderBufferSize reorderDefaultBatchSize

/-- The loop of `reorder_exec` over its batch, with what each insert returned. -/
def insertAll : ReorderBuffer → List Mbuf → ReorderBuffer × List (Option RteErrno)
  | b, [] => (b, [])
  | b, mbuf :: mbufs =>
      let (b', ret) := rteReorderInsert b (some mbuf)
      let (b'', rets) := insertAll b' mbufs
      (b'', ret :: rets)

/-- `reorder_exec(self, mbuf, nb_mbuf, mbuf_drain, nb_deq)`: the results of the
inserts (which are only printed), and the contents of `mbuf_drain`. -/
def reorderExec (self : ReorderStage) (mbufs : List Mbuf) :
    ReorderStage × List (Option RteErrno) × List (Option Mbuf) :=
  let (b, rets) := insertAll self.reorderBuf mbufs
  let (b', mbufDrain) := rteReorderDrain b self.batchSize
  ({ self with reorderBuf := b' }, rets, mbufDrain)

end Meili.Reorder
