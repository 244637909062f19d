/-
  Meili.DataPlane.Metadata — the words of an mbuf that the pipeline writes.

  The sequence number and the two timestamps lie in fields that DPDK has
  registered inside `dynfield1`, at offsets it chooses (`Layout.Registered`).
  `regex()` stores the number of its job in the first two words of `dynfield1`,
  which nobody has registered.

  `Traced` runs the operations on the memory of all mbufs beside a record of what
  was last written; `Intact` says that the memory agrees with the record.
-/
import Meili.DataPlane.Sequencing
import Meili.Lib.Words

namespace Meili.DataPlane

open Meili.Lib

/-! ## §1. Where the fields are. -/

/-- The words of `dynfield1`. -/
def dynfield1Words : ℕ := 9

/-- `DF_USER_ID_HIGH`. -/
def dfUserIdHigh : ℕ := 0

/-- The two timestamps of a packet. -/
inductive Stamp where
  | start
  | done
  deriving Repr, DecidableEq

/-- Offsets in an mbuf, in bytes. -/
structure Layout where
  /-- Of the member `dynfield1`. -/
  dynfield1 : ℕ
  /-- `rte_reorder_seqn_dynfield_offset`. -/
  seqn : ℕ
  /-- `pl->ts_start_offset`. -/
  tsStart : ℕ
  /-- `pl->ts_end_offset`. -/
  tsEnd : ℕ
  deriving Repr

def Layout.ts (l : Layout) : Stamp → ℕ
  | .start => l.tsStart
  | .done => l.tsEnd

/-- A field at `offset` lies inside `dynfield1` and is aligned. -/
structure Layout.Fits (l : Layout) (offset size align : ℕ) : Prop where
  lower : l.dynfield1 ≤ offset
  upper : offset + size ≤ l.dynfield1 + 4 * dynfield1Words
  aligned : align ∣ offset

/-- Two fields do not overlap. -/
def Apart (offset size offset' size' : ℕ) : Prop :=
  offset + size ≤ offset' ∨ offset' + size' ≤ offset

/-- What `rte_mbuf_dynfield_register` may return for the three fields. -/
structure Layout.Registered (l : Layout) : Prop where
  words : 4 ∣ l.dynfield1
  tsStart : l.Fits l.tsStart 8 8
  tsEnd : l.Fits l.tsEnd 8 8
  seqn : l.Fits l.seqn 4 4
  startEnd : Apart l.tsStart 8 l.tsEnd 8
  startSeqn : Apart l.tsStart 8 l.seqn 4
  endSeqn : Apart l.tsEnd 8 l.seqn 4

/-- No field overlaps the two words of the job number. -/
structure Layout.Clear (l : Layout) : Prop where
  seqn : l.dynfield1 + 8 ≤ l.seqn
  tsStart : l.dynfield1 + 8 ≤ l.tsStart
  tsEnd : l.dynfield1 + 8 ≤ l.tsEnd

/-! ## §2. The operations. -/

/-- The mbufs, and the counters the operations take their values from. -/
structure Memory where
  /-- The words of every mbuf. -/
  words : Mbuf → Words
  /-- `seqn` of the sequencing stage. -/
  seqn : UInt32
  /-- `core_vars[qid].buf_id`. -/
  bufId : ℕ → UInt64

/-- `util_store_64_bit_as_2_32`. -/
def utilStore64BitAs232 (dst : ℕ) (val : UInt64) (m : Words) : Words :=
  Function.update (Function.update m dst (upper32 val)) (dst + 1) (lower32 val)

/-- `util_get_64_bit_from_2_32`. -/
def utilGet64BitFrom232 (src : ℕ) (m : Words) : UInt64 := join32 (m src) (m (src + 1))

theorem utilGet_utilStore (dst : ℕ) (val : UInt64) (m : Words) :
    utilGet64BitFrom232 dst (utilStore64BitAs232 dst val m) = val := by
  unfold utilGet64BitFrom232 utilStore64BitAs232
  rw [Function.update_self, Function.update_of_ne (Nat.ne_of_lt (Nat.lt_succ_self dst)),
    Function.update_self, join32_halves]

namespace Memory

/-- The number of the last job on an mbuf. -/
def jobId (l : Layout) (x : Memory) (mbuf : Mbuf) : UInt64 :=
  utilGet64BitFrom232 (l.dynfield1 / 4 + dfUserIdHigh) (x.words mbuf)

/-- `*rte_reorder_seqn(mbuf)`. -/
def readSeqn (l : Layout) (x : Memory) (mbuf : Mbuf) : UInt32 := x.words mbuf (l.seqn / 4)

/-- `*RTE_MBUF_DYNFIELD(mbuf, offset, uint64_t *)` at the offset of a timestamp. -/
def readTs (l : Layout) (x : Memory) (f : Stamp) (mbuf : Mbuf) : UInt64 :=
  (x.words mbuf).load64 (l.ts f / 4)

/-- The loop body of `seq_exec`. -/
def seqExec (l : Layout) (x : Memory) (mbuf : Mbuf) : Memory :=
  { x with
    words := Function.update x.words mbuf
      (Function.update (x.words mbuf) (l.seqn / 4) x.seqn)
    seqn := x.seqn + 1 }

/-- The loop body of `pkt_ts_exec`. -/
def pktTsExec (l : Layout) (f : Stamp) (time : UInt64) (x : Memory) (mbuf : Mbuf) : Memory :=
  { x with words := Function.update x.words mbuf ((x.words mbuf).store64 (l.ts f / 4) time) }

/-- What `regex_dev_dpdk_bf_prep_op` writes to the mbuf. -/
def prepOp (l : Layout) (x : Memory) (qid : ℕ) (mbuf : Mbuf) : Memory :=
  let bufId := x.bufId qid + 1
  { x with
    words := Function.update x.words mbuf
      (utilStore64BitAs232 (l.dynfield1 / 4 + dfUserIdHigh) bufId (x.words mbuf))
    bufId := Function.update x.bufId qid bufId }

end Memory

/-- An operation of the pipeline on the mbufs. -/
inductive Op where
  | seqExec (mbufs : List Mbuf)
  | pktTsExec (f : Stamp) (time : UInt64) (mbufs : List Mbuf)
  /-- `regex()` on a packet, at the worker with this `worker_qid`. -/
  | regex (qid : ℕ) (mbuf : Mbuf)

/-- The memory, and what was last written to the fields of every mbuf. -/
structure Traced where
  mem : Memory
  lastSeqn : Mbuf → Option UInt32
  lastTs : Stamp → Mbuf → Option UInt64

namespace Traced

/-- The memory before the first operation, which holds anything. -/
def init (words : Mbuf → Words) : Traced where
  mem := { words := words, seqn := seqNumStart, bufId := fun _ => 0 }
  lastSeqn := fun _ => none
  lastTs := fun _ _ => none

def seqOne (l : Layout) (x : Traced) (mbuf : Mbuf) : Traced :=
  { x with
    mem := x.mem.seqExec l mbuf
    lastSeqn := Function.update x.lastSeqn mbuf (some x.mem.seqn) }

def tsOne (l : Layout) (f : Stamp) (time : UInt64) (x : Traced) (mbuf : Mbuf) : Traced :=
  { x with
    mem := x.mem.pktTsExec l f time mbuf
    lastTs := Function.update x.lastTs f (Function.update (x.lastTs f) mbuf (some time)) }

def exec (l : Layout) (x : Traced) : Op → Traced
  | .seqExec mbufs => mbufs.foldl (seqOne l) x
  | .pktTsExec f time mbufs => mbufs.foldl (tsOne l f time) x
  | .regex qid mbuf => { x with mem := x.mem.prepOp l qid mbuf }

/-- The operations `ops`, one after the other. -/
def run (l : Layout) (words : Mbuf → Words) (ops : List Op) : Traced :=
  ops.foldl (exec l) (init words)

/-- Every field holds what was last written to it. -/
structure Intact (l : Layout) (x : Traced) : Prop where
  seqn : ∀ mbuf seqn, x.lastSeqn mbuf = some seqn → x.mem.readSeqn l mbuf = seqn
  ts : ∀ f mbuf time, x.lastTs f mbuf = some time → x.mem.readTs l f mbuf = time

end Traced

/-- The metadata survives every sequence of operations. -/
def Layout.Survives (l : Layout) : Prop :=
  ∀ (words : Mbuf → Words) (ops : List Op), (Traced.run l words ops).Intact l

/-! ## §3. The words of the fields. -/

section FieldWords

variable {l : Layout}

/-- The words of the registered fields are pairwise different. -/
theorem Layout.Registered.seqn_ne_ts (h : l.Registered) (f : Stamp) :
    l.seqn / 4 ≠ l.ts f / 4 ∧ l.seqn / 4 ≠ l.ts f / 4 + 1 := by
  obtain ⟨n, hn⟩ := h.seqn.aligned
  cases f with
  | start =>
      obtain ⟨k, hk⟩ := h.tsStart.aligned
      have hapart : l.tsStart + 8 ≤ l.seqn ∨ l.seqn + 4 ≤ l.tsStart := h.startSeqn
      simp only [Layout.ts]
      omega
  | done =>
      obtain ⟨k, hk⟩ := h.tsEnd.aligned
      have hapart : l.tsEnd + 8 ≤ l.seqn ∨ l.seqn + 4 ≤ l.tsEnd := h.endSeqn
      simp only [Layout.ts]
      omega

theorem Layout.Registered.ts_ne_ts (h : l.Registered) {f g : Stamp} (hfg : f ≠ g) :
    l.ts f / 4 ≠ l.ts g / 4 ∧ l.ts f / 4 ≠ l.ts g / 4 + 1 ∧ l.ts f / 4 + 1 ≠ l.ts g / 4 := by
  obtain ⟨n, hn⟩ := h.tsStart.aligned
  obtain ⟨k, hk⟩ := h.tsEnd.aligned
  have hapart : l.tsStart + 8 ≤ l.tsEnd ∨ l.tsEnd + 8 ≤ l.tsStart := h.startEnd
  cases f <;> cases g <;> simp only [Layout.ts] <;> first | omega | exact absurd rfl hfg

/-- A clear layout keeps its fields off the words of the job number. -/
theorem Layout.Clear.off (hreg : l.Registered) (h : l.Clear) :
    (l.seqn / 4 ≠ l.dynfield1 / 4 ∧ l.seqn / 4 ≠ l.dynfield1 / 4 + 1)
      ∧ ∀ f, l.dynfield1 / 4 + 1 < l.ts f / 4 := by
  obtain ⟨n, hn⟩ := hreg.words
  have hseqn := h.seqn
  have hstart := h.tsStart
  have hend := h.tsEnd
  refine ⟨by omega, ?_⟩
  intro f
  cases f with
  | start =>
      show l.dynfield1 / 4 + 1 < l.tsStart / 4
      omega
  | done =>
      show l.dynfield1 / 4 + 1 < l.tsEnd / 4
      omega

end FieldWords

/-! ## §4. What an operation leaves as it is. -/

namespace Memory

variable {l : Layout} {x y : Memory} {mbuf : Mbuf} {w : Words}

/-- A write to one mbuf that keeps the word of the sequence number. -/
theorem readSeqn_of_same (hy : y.words = Function.update x.words mbuf w)
    (hw : w (l.seqn / 4) = x.words mbuf (l.seqn / 4)) (p : Mbuf) :
    y.readSeqn l p = x.readSeqn l p := by
  unfold readSeqn
  rw [hy]
  by_cases hp : p = mbuf
  · rw [hp, Function.update_self, hw]
  · rw [Function.update_of_ne hp]

/-- A write to one mbuf that keeps the words of a timestamp. -/
theorem readTs_of_same {f : Stamp} (hy : y.words = Function.update x.words mbuf w)
    (hlow : w (l.ts f / 4) = x.words mbuf (l.ts f / 4))
    (hhigh : w (l.ts f / 4 + 1) = x.words mbuf (l.ts f / 4 + 1)) (p : Mbuf) :
    y.readTs l f p = x.readTs l f p := by
  unfold readTs
  rw [hy]
  by_cases hp : p = mbuf
  · rw [hp, Function.update_self]
    exact Words.load64_congr hlow hhigh
  · rw [Function.update_of_ne hp]

theorem readSeqn_seqExec (l : Layout) (x : Memory) (mbuf : Mbuf) :
    (x.seqExec l mbuf).readSeqn l = Function.update (x.readSeqn l) mbuf x.seqn := by
  funext p
  unfold readSeqn Memory.seqExec
  dsimp only
  by_cases hp : p = mbuf
  · rw [hp, Function.update_self, Function.update_self, Function.update_self]
  · rw [Function.update_of_ne hp, Function.update_of_ne hp]

end Memory

theorem Memory.jobId_prepOp (l : Layout) (x : Memory) (qid : ℕ) (mbuf : Mbuf) :
    (x.prepOp l qid mbuf).jobId l = Function.update (x.jobId l) mbuf (x.bufId qid + 1) := by
  funext p
  unfold Memory.jobId Memory.prepOp
  dsimp only
  by_cases hp : p = mbuf
  · rw [hp, Function.update_self, Function.update_self, utilGet_utilStore]
  · rw [Function.update_of_ne hp, Function.update_of_ne hp]

/-- **The stamps of the data plane are the fields of the mbufs**: `seq_exec` on the
words is `seqExec` on what is read there. -/
theorem readSeqn_foldl_seqExec (l : Layout) (mbufs : List Mbuf) (x : Memory) :
    ((mbufs.foldl (Memory.seqExec l) x).seqn, (mbufs.foldl (Memory.seqExec l) x).readSeqn l)
      = DataPlane.seqExec x.seqn (x.readSeqn l) mbufs := by
  induction mbufs generalizing x with
  | nil => rfl
  | cons mbuf mbufs ih =>
      rw [List.foldl_cons, ih, Memory.readSeqn_seqExec]
      rfl

namespace Traced

section Steps

variable {l : Layout} {x : Traced}

/-- **A sequence number** is written. -/
theorem Intact.seqOne (hreg : l.Registered) (h : x.Intact l) (mbuf : Mbuf) :
    (x.seqOne l mbuf).Intact l where
  seqn p seqn hp := by
    show (x.mem.seqExec l mbuf).readSeqn l p = seqn
    rw [Memory.readSeqn_seqExec]
    have hp' : Function.update x.lastSeqn mbuf (some x.mem.seqn) p = some seqn := hp
    by_cases heq : p = mbuf
    · rw [heq, Function.update_self] at hp' ⊢
      exact Option.some.inj hp'
    · rw [Function.update_of_ne heq] at hp' ⊢
      exact h.seqn p seqn hp'
  ts f p time hp := by
    obtain ⟨hlow, hhigh⟩ := hreg.seqn_ne_ts f
    have hsame : (x.mem.seqExec l mbuf).readTs l f p = x.mem.readTs l f p :=
      Memory.readTs_of_same rfl (Function.update_of_ne (Ne.symm hlow) _ _)
        (Function.update_of_ne (Ne.symm hhigh) _ _) p
    exact hsame.trans (h.ts f p time hp)

/-- **A timestamp** is written. -/
theorem Intact.tsOne (hreg : l.Registered) (h : x.Intact l) (f : Stamp) (time : UInt64)
    (mbuf : Mbuf) : (x.tsOne l f time mbuf).Intact l where
  seqn p seqn hp := by
    obtain ⟨hlow, hhigh⟩ := hreg.seqn_ne_ts f
    have hsame : (x.mem.pktTsExec l f time mbuf).readSeqn l p = x.mem.readSeqn l p :=
      Memory.readSeqn_of_same rfl (Words.store64_of_ne hlow hhigh) p
    exact hsame.trans (h.seqn p seqn hp)
  ts g p time' hp := by
    show (x.mem.pktTsExec l f time mbuf).readTs l g p = time'
    have hp' : Function.update x.lastTs f (Function.update (x.lastTs f) mbuf (some time)) g p
        = some time' := hp
    by_cases hg : g = f
    · subst hg
      rw [Function.update_self] at hp'
      unfold Memory.readTs Memory.pktTsExec
      dsimp only
      by_cases heq : p = mbuf
      · rw [heq, Function.update_self] at hp' ⊢
        rw [Words.load64_store64]
        exact Option.some.inj hp'
      · rw [Function.update_of_ne heq] at hp' ⊢
        exact h.ts g p time' hp'
    · rw [Function.update_of_ne hg] at hp'
      -- the other timestamp has words of its own
      obtain ⟨hne, hlow, hhigh⟩ := hreg.ts_ne_ts hg
      have hsame : (x.mem.pktTsExec l f time mbuf).readTs l g p = x.mem.readTs l g p :=
        Memory.readTs_of_same rfl (Words.store64_of_ne hne hlow)
          (Words.store64_of_ne hhigh fun h1 => hne (Nat.succ.inj h1)) p
      exact hsame.trans (h.ts g p time' hp')

/-- **A job number** is written, off the fields. -/
theorem Intact.prepOp (hreg : l.Registered) (hclear : l.Clear) (h : x.Intact l) (qid : ℕ)
    (mbuf : Mbuf) : Intact l { x with mem := x.mem.prepOp l qid mbuf } := by
  obtain ⟨⟨hlow, hhigh⟩, hts⟩ := hclear.off hreg
  have hkeep : ∀ a, a ≠ l.dynfield1 / 4 → a ≠ l.dynfield1 / 4 + 1 →
      utilStore64BitAs232 (l.dynfield1 / 4 + dfUserIdHigh) (x.mem.bufId qid + 1)
        (x.mem.words mbuf) a = x.mem.words mbuf a := by
    intro a ha ha'
    show Function.update (Function.update (x.mem.words mbuf) (l.dynfield1 / 4) _)
      (l.dynfield1 / 4 + 1) _ a = x.mem.words mbuf a
    rw [Function.update_of_ne ha', Function.update_of_ne ha]
  constructor
  · intro p seqn hp
    have hsame : (x.mem.prepOp l qid mbuf).readSeqn l p = x.mem.readSeqn l p :=
      Memory.readSeqn_of_same rfl (hkeep _ hlow hhigh) p
    exact hsame.trans (h.seqn p seqn hp)
  · intro f p time hp
    have hlt := hts f
    have hsame : (x.mem.prepOp l qid mbuf).readTs l f p = x.mem.readTs l f p :=
      Memory.readTs_of_same rfl (hkeep _ (by omega) (by omega)) (hkeep _ (by omega) (by omega)) p
    exact hsame.trans (h.ts f p time hp)

/-- A loop over mbufs keeps what its body keeps. -/
theorem foldl_intact {body : Traced → Mbuf → Traced}
    (hbody : ∀ x mbuf, Intact l x → Intact l (body x mbuf)) (mbufs : List Mbuf) (x : Traced)
    (h : x.Intact l) : (mbufs.foldl body x).Intact l := by
  induction mbufs generalizing x with
  | nil => exact h
  | cons mbuf mbufs ih => exact ih (body x mbuf) (hbody x mbuf h)

theorem Intact.exec (hreg : l.Registered) (hclear : l.Clear) (h : x.Intact l) (op : Op) :
    (x.exec l op).Intact l := by
  cases op with
  | seqExec mbufs => exact foldl_intact (fun _ mbuf hx => hx.seqOne hreg mbuf) mbufs x h
  | pktTsExec f time mbufs =>
      exact foldl_intact (fun _ mbuf hx => hx.tsOne hreg f time mbuf) mbufs x h
  | regex qid mbuf => exact h.prepOp hreg hclear qid mbuf

end Steps

end Traced

/-- **A clear layout keeps the metadata.** -/
theorem Layout.Clear.survives {l : Layout} (hreg : l.Registered) (h : l.Clear) : l.Survives := by
  intro words ops
  -- induction on the operations, from the end
  induction ops using List.reverseRecOn with
  | nil => exact ⟨fun _ _ hp => absurd hp.symm (Option.some_ne_none _),
      fun _ _ _ hp => absurd hp.symm (Option.some_ne_none _)⟩
  | append_singleton ops op ih =>
      unfold Traced.run at ih ⊢
      rw [List.foldl_concat]
      exact ih.exec hreg h op

/-! ## §5. A field in the words of the job number. -/

/-- The words of `dynfield1` behind the first job of a queue. -/
theorem prepOp_words {l : Layout} {x : Memory} (qid : ℕ) (hid : x.bufId qid = 0) (mbuf : Mbuf) :
    (x.prepOp l qid mbuf).words mbuf (l.dynfield1 / 4) = 0
      ∧ (x.prepOp l qid mbuf).words mbuf (l.dynfield1 / 4 + 1) = 1 := by
  have hwords : (x.prepOp l qid mbuf).words mbuf
      = Function.update (Function.update (x.words mbuf) (l.dynfield1 / 4) (upper32 (0 + 1)))
        (l.dynfield1 / 4 + 1) (lower32 (0 + 1)) := by
    unfold Memory.prepOp
    dsimp only
    rw [Function.update_self, hid]
    rfl
  rw [hwords]
  constructor
  · rw [Function.update_of_ne (Nat.ne_of_lt (Nat.lt_succ_self _)), Function.update_self]
    rfl
  · rw [Function.update_self]
    rfl

/-- **A timestamp of ones** does not survive a job, if it has a word of the job
number. -/
theorem Layout.Survives.ts_clear {l : Layout} (hreg : l.Registered) (h : l.Survives) (f : Stamp) :
    l.dynfield1 + 8 ≤ l.ts f := by
  obtain ⟨n, hn⟩ := hreg.words
  have hfits : l.Fits (l.ts f) 8 8 := by
    cases f with
    | start => exact hreg.tsStart
    | done => exact hreg.tsEnd
  obtain ⟨k, hk⟩ := hfits.aligned
  have hlower := hfits.lower
  by_contra hlt
  let time : UInt64 := join32 (-1) (-1)
  let x := Traced.run l (fun _ _ => 0) [.pktTsExec f time [0], .regex 0 0]
  have hlast : x.lastTs f 0 = some time := by
    have hts : x.lastTs
        = Function.update (fun _ _ => none) f (Function.update (fun _ => none) 0 (some time)) := rfl
    rw [hts, Function.update_self, Function.update_self]
  have hread := (h (fun _ _ => 0) [.pktTsExec f time [0], .regex 0 0]).ts f 0 time hlast
  have hwords : x.mem.words 0 (l.ts f / 4) = -1 ∧ x.mem.words 0 (l.ts f / 4 + 1) = -1 := by
    have hload : (x.mem.words 0).load64 (l.ts f / 4) = join32 (-1) (-1) := hread
    unfold Words.load64 at hload
    constructor
    · have hlow := congrArg lower32 hload
      rwa [lower32_join32, lower32_join32] at hlow
    · have hhigh := congrArg upper32 hload
      rwa [upper32_join32, upper32_join32] at hhigh
  obtain ⟨hhigh, hlow⟩ := prepOp_words (l := l)
    (x := (Traced.run l (fun _ _ => 0) [.pktTsExec f time [0]]).mem) 0 rfl 0
  -- one of the two words is one of the job number
  have hcases : l.ts f / 4 = l.dynfield1 / 4 ∨ l.ts f / 4 = l.dynfield1 / 4 + 1 := by omega
  rcases hcases with heq | heq
  · rw [heq] at hwords
    exact absurd (hhigh.symm.trans hwords.1) (by decide)
  · rw [heq] at hwords
    exact absurd (hlow.symm.trans hwords.1) (by decide)

/-- **The sequence number 2** does not survive the first job of a queue, if it has a
word of the job number. -/
theorem Layout.Survives.seqn_clear {l : Layout} (hreg : l.Registered) (h : l.Survives) :
    l.dynfield1 + 8 ≤ l.seqn := by
  obtain ⟨n, hn⟩ := hreg.words
  obtain ⟨k, hk⟩ := hreg.seqn.aligned
  have hlower := hreg.seqn.lower
  by_contra hlt
  let x := Traced.run l (fun _ _ => 0) [.seqExec [0, 1, 2], .regex 0 2]
  have hlast : x.lastSeqn 2 = some 2 := rfl
  have hread : x.mem.words 2 (l.seqn / 4) = 2 :=
    (h (fun _ _ => 0) [.seqExec [0, 1, 2], .regex 0 2]).seqn 2 2 hlast
  obtain ⟨hhigh, hlow⟩ := prepOp_words (l := l)
    (x := (Traced.run l (fun _ _ => 0) [.seqExec [0, 1, 2]]).mem) 0 rfl 2
  have hcases : l.seqn / 4 = l.dynfield1 / 4 ∨ l.seqn / 4 = l.dynfield1 / 4 + 1 := by omega
  rcases hcases with heq | heq
  · rw [heq] at hread
    exact absurd (hhigh.symm.trans hread) (by decide)
  · rw [heq] at hread
    exact absurd (hlow.symm.trans hread) (by decide)

/-- **The metadata survives the pipeline**, whatever it does, exactly where DPDK has put
no field into the first two words of `dynfield1`. -/
theorem metadata_survives_iff {l : Layout} (hreg : l.Registered) : l.Survives ↔ l.Clear := by
  constructor
  · intro h
    exact ⟨h.seqn_clear hreg, h.ts_clear hreg .start, h.ts_clear hreg .done⟩
  · exact fun h => h.survives hreg

/-- Fields behind the words of the job number. -/
def fieldsBehind : Layout where
  dynfield1 := 88
  seqn := 112
  tsStart := 96
  tsEnd := 104

theorem fieldsBehind_survives_iff : fieldsBehind.Survives ↔ fieldsBehind.Clear :=
  metadata_survives_iff
    { words := by decide
      tsStart := ⟨by decide, by decide, by decide⟩
      tsEnd := ⟨by decide, by decide, by decide⟩
      seqn := ⟨by decide, by decide, by decide⟩
      startEnd := Or.inl (by decide)
      startSeqn := Or.inl (by decide)
      endSeqn := Or.inl (by decide) }

/-- Fields from the start of `dynfield1` on. -/
def fieldsFirst : Layout where
  dynfield1 := 88
  seqn := 104
  tsStart := 88
  tsEnd := 96

theorem fieldsFirst_registered : fieldsFirst.Registered where
  words := by decide
  tsStart := ⟨by decide, by decide, by decide⟩
  tsEnd := ⟨by decide, by decide, by decide⟩
  seqn := ⟨by decide, by decide, by decide⟩
  startEnd := Or.inl (by decide)
  startSeqn := Or.inl (by decide)
  endSeqn := Or.inl (by decide)

/-- A packet that enters at time 5 seems to have entered at time 2 ^ 32: the first job
has written its number over the timestamp. -/
theorem fieldsFirst_clobbered :
    let x := Traced.run fieldsFirst (fun _ _ => 0) [.pktTsExec .start 5 [7], .regex 1 7]
    fieldsFirst.Registered ∧ x.lastTs .start 7 = some 5
      ∧ x.mem.readTs fieldsFirst .start 7 = 4294967296 ∧ ¬ fieldsFirst.Survives :=
  ⟨fieldsFirst_registered, rfl, by decide, fun h => by
    have hread := (h (fun _ _ => 0) [.pktTsExec .start 5 [7], .regex 1 7]).ts .start 7 5 rfl
    exact absurd hread (by decide)⟩

end Meili.DataPlane
