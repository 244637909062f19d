/-
  Meili.Reorder.Registry — the reorder buffers of the process: their names, and who owns an mbuf.

  `rte_reorder_create` enters each buffer in a list under its name, `rte_reorder_find_existing`
  looks it up there, and `rte_reorder_free` takes it out and frees every mbuf that a slot of it
  points to; `rte_reorder_reset` frees them too and makes the buffer new.  The mbufs come from one
  pool: a caller gets one from there, hands it to a buffer with an insert that succeeds, and gets it
  back from a drain.

  Conventions of the embedding:

    • a name is the string without its NUL, an address a number; the answers of the allocators and
      of `rte_mbuf_dynfield_register` are arguments;
    • an mbuf is one segment with one reference, so that `rte_pktmbuf_free` returns it to the pool;
    • the locks of the list are left out: a call is one step.

    • `registry_owns` — whatever the calls, no mbuf is owned twice;
    • `name_leads_to_buffer` — a name leads to one buffer until that is freed.
-/
import Mathlib.Algebra.GroupWithZero.Nat
import Meili.Lib.CString
import Meili.Reorder.Slots

namespace Meili.Reorder.Registry

open Meili.Lib
open Meili.Lib.CString

/-! ## §1. Making a buffer. -/

/-- The values of `rte_errno` that these functions set. -/
inductive Errno where
  | EINVAL
  | ENOMEM
  | ENOENT
  deriving Repr, DecidableEq

/-- `RTE_REORDER_NAMESIZE`. -/
def rteReorderNamesize : ℕ := 32

/-- `sizeof(struct rte_reorder_buffer)`, where a cache line has 64 bytes. -/
def sizeofReorderBuffer : ℕ := 192

/-- `rte_reorder_memory_footprint_get(size)`: the result and `2 * size` have 32 bits. -/
def rteReorderMemoryFootprintGet (size : UInt32) : UInt32 :=
  UInt32.ofNat (sizeofReorderBuffer + (2 * size).toNat * 8)

/-- A buffer in memory. -/
structure Entry where
  addr : ℕ
  name : List Char
  memsize : UInt32
  buffer : ReorderBuffer

/-- `strncmp(name, b->name, RTE_REORDER_NAMESIZE) == 0`. -/
def Entry.called (name : List Char) (b : Entry) : Bool :=
  strncmpEq rteReorderNamesize name b.name

/-- `rte_reorder_init(b, bufsize, name, size)`; `dynfield` says whether
`rte_mbuf_dynfield_register` succeeds. -/
def rteReorderInit (b : Option ℕ) (bufsize : UInt32) (name : Option (List Char)) (size : UInt32)
    (dynfield : Bool) : Except Errno Entry :=
  match b with
  | none => .error .EINVAL
  | some addr =>
      if !rteIsPowerOf2 size then .error .EINVAL
      else
        match name with
        | none => .error .EINVAL
        | some name =>
            if bufsize < rteReorderMemoryFootprintGet size then .error .EINVAL
            else if !dynfield then .error .ENOMEM
            else .ok
              { addr := addr
                name := strlcpy name rteReorderNamesize
                memsize := bufsize
                buffer :=
                  { minSeqn := 0
                    isInitialized := false
                    readyBuf := .init size
                    orderBuf := .init size } }

/-! ## §2. The list. -/

/-- What the calls of `rte_reorder_create` to other libraries return. -/
structure Answers where
  /-- Memory for the list element. -/
  te : Bool
  /-- Memory for the buffer. -/
  memory : Option ℕ
  dynfield : Bool

/-- `rte_reorder_entry_insert(new_te)`: the list, and the buffer of the element returned. -/
def rteReorderEntryInsert (list : List Entry) (new : Entry) : List Entry × Entry :=
  match list.find? (Entry.called new.name) with
  | some e => (list, e)
  | none => (list ++ [new], new)

/-- `rte_reorder_create(name, socket_id, size)`. -/
def rteReorderCreateIn (list : List Entry) (name : Option (List Char)) (size : UInt32)
    (answers : Answers) : List Entry × Except Errno ℕ :=
  let bufsize := rteReorderMemoryFootprintGet size
  if !rteIsPowerOf2 size then (list, .error .EINVAL)
  else if name = none then (list, .error .EINVAL)
  else if !answers.te then (list, .error .ENOMEM)
  else if answers.memory = none then (list, .error .ENOMEM)
  else
    match rteReorderInit answers.memory bufsize name size answers.dynfield with
    | .error errno => (list, .error errno)
    | .ok new =>
        -- where the element returned is another one, the new one is freed again
        let (list, e) := rteReorderEntryInsert list new
        (list, .ok e.addr)

/-- `rte_reorder_find_existing(name)`. -/
def rteReorderFindExisting (list : List Entry) (name : Option (List Char)) : Except Errno ℕ :=
  match name with
  | none => .error .EINVAL
  | some name =>
      match list.find? (Entry.called name) with
      | none => .error .ENOENT
      | some e => .ok e.addr

/-- The mbufs that some pointers point to. -/
def mbufsOf (pointers : List (Option Mbuf)) : List ℕ := pointers.reduceOption.map Mbuf.addr

/-- `rte_reorder_free_mbufs(b)`: the mbufs it frees; freeing NULL does nothing. -/
def rteReorderFreeMbufs (b : ReorderBuffer) : List ℕ :=
  (List.range b.orderBuf.size.toNat).flatMap fun i =>
    mbufsOf [b.orderBuf.entries i, b.readyBuf.entries i]

/-! ## §3. The process. -/

/-- The buffers, the mbufs that callers own, and the mbufs in the pool. -/
structure State where
  list : List Entry
  held : List ℕ
  pool : List ℕ

namespace State

/-- The buffer at an address. -/
def lookup (s : State) (addr : ℕ) : Option Entry := s.list.find? fun e => e.addr == addr

/-- Another content of the buffer at `e.addr`. -/
def put (s : State) (e : Entry) : State :=
  { s with list := s.list.map fun e' => if e'.addr = e.addr then e else e' }

/-- `rte_reorder_free(b)`. -/
def rteReorderFree (s : State) (b : Option ℕ) : State :=
  match b with
  | none => s
  | some addr =>
      match s.lookup addr with
      | none => s
      | some e =>
          { s with
            list := s.list.eraseP fun e => e.addr == addr
            pool := s.pool ++ rteReorderFreeMbufs e.buffer }

/-- `rte_reorder_reset(b)`.  `create` has registered the field, so registering it again
succeeds. -/
def rteReorderReset (s : State) (e : Entry) : State :=
  let s := { s with pool := s.pool ++ rteReorderFreeMbufs e.buffer }
  let name := strlcpy e.name rteReorderNamesize
  match rteReorderInit (some e.addr) e.memsize (some name) e.buffer.orderBuf.size true with
  | .error _ => s
  | .ok e' => s.put e'

end State

/-- What the process does next. -/
inductive Call where
  /-- `rte_pktmbuf_alloc`. -/
  | alloc (mbuf : ℕ)
  /-- `rte_pktmbuf_free`. -/
  | release (mbuf : ℕ)
  | create (name : Option (List Char)) (size : UInt32) (answers : Answers)
  | free (b : Option ℕ)
  | reset (b : ℕ)
  | insert (b : ℕ) (mbuf : Option Mbuf)
  | drain (b : ℕ) (maxMbufs : ℕ)
  | drainUpTo (b : ℕ) (maxMbufs : ℕ) (seqn : UInt32)
  | minSeqnSet (b : ℕ) (minSeqn : UInt32)

/-- What a call on the buffer `e` does. -/
def State.onBuffer (s : State) (e : Entry) : Call → State
  | .reset _ => s.rteReorderReset e
  | .insert _ mbuf =>
      let (b, errno) := rteReorderInsert e.buffer mbuf
      let s := s.put { e with buffer := b }
      -- what is accepted belongs to the buffer
      match mbuf, errno with
      | some m, none => { s with held := s.held.erase m.addr }
      | _, _ => s
  | .drain _ maxMbufs =>
      let (b, mbufs) := rteReorderDrain e.buffer maxMbufs
      let s := s.put { e with buffer := b }
      { s with held := s.held ++ mbufsOf mbufs }
  | .drainUpTo _ maxMbufs seqn =>
      match (rteReorderDrainUpToSeqn e.buffer maxMbufs seqn).result with
      -- such a call does not return
      | none => s
      | some (b, mbufs) =>
          let s := s.put { e with buffer := b }
          { s with held := s.held ++ mbufsOf mbufs }
  | .minSeqnSet _ minSeqn => s.put { e with buffer := (rteReorderMinSeqnSet e.buffer minSeqn).1 }
  | _ => s

/-- The buffer that a call is made on. -/
def Call.target : Call → Option ℕ
  | .reset b | .insert b _ | .drain b _ | .drainUpTo b _ _ | .minSeqnSet b _ => some b
  | _ => none

/-- What a call leaves. -/
def State.after (s : State) : Call → State
  | .alloc mbuf => { s with held := mbuf :: s.held, pool := s.pool.erase mbuf }
  | .release mbuf => { s with held := s.held.erase mbuf, pool := s.pool ++ [mbuf] }
  | .create name size answers =>
      { s with list := (rteReorderCreateIn s.list name size answers).1 }
  | .free b => s.rteReorderFree b
  | call =>
      match call.target.bind s.lookup with
      | none => s
      | some e => s.onBuffer e call

/-- The memory of a buffer holds both of its arrays; in one that is too small they overlap with
what lies behind it, which is not modelled. -/
def Fits (size : UInt32) : Prop :=
  (rteReorderMemoryFootprintGet size).toNat = sizeofReorderBuffer + 2 * size.toNat * 8

/-- No power of two above `2 ^ 27` does. -/
theorem fits_iff (size : UInt32) : Fits size ↔ size.toNat ≤ 2 ^ 28 - 13 := by
  have hlt := size.toNat_lt
  unfold Fits rteReorderMemoryFootprintGet sizeofReorderBuffer
  rw [UInt32.toNat_ofNat', UInt32.toNat_mul]
  show (192 + 2 * size.toNat % 2 ^ 32 * 8) % 2 ^ 32 = _ ↔ _
  omega

/-- What callers and allocators observe: mbufs are given away by who owns them, a call is made on
a buffer that exists, and new memory is that of no buffer. -/
def Permitted (s : State) : Call → Prop
  | .alloc mbuf => mbuf ∈ s.pool
  | .release mbuf => mbuf ∈ s.held
  | .create _ size answers =>
      Fits size ∧ ∀ e ∈ s.list, answers.memory ≠ some e.addr
  | .free _ => True
  | .insert b mbuf => (∀ m, mbuf = some m → m.addr ∈ s.held) ∧ ∃ e ∈ s.list, e.addr = b
  | .reset b | .drain b _ | .drainUpTo b _ _ | .minSeqnSet b _ => ∃ e ∈ s.list, e.addr = b

/-- One step of the process. -/
def Step (s s' : State) : Prop := ∃ call, Permitted s call ∧ s' = s.after call

/-- What comes of a pool of mbufs that nobody uses yet. -/
def Reachable (pool : List ℕ) (s : State) : Prop :=
  Relation.ReflTransGen Step ⟨[], [], pool⟩ s

/-! ## §4. Owners. -/

/-- How many slots of a buffer point to the mbuf at address `a`. -/
def Entry.refs (a : ℕ) (e : Entry) : ℕ := e.buffer.refs e.buffer.orderBuf.size.toNat a

/-- How many owners the mbuf at address `a` has: slots, callers and the pool. -/
def State.owners (s : State) (a : ℕ) : ℕ :=
  (s.list.map (Entry.refs a)).sum + s.held.count a + s.pool.count a

/-- A buffer in the list. -/
structure Entry.Sound (e : Entry) : Prop where
  seated : Seated e.buffer.orderBuf.size.toNat e.buffer
  pow : rteIsPowerOf2 e.buffer.orderBuf.size = true
  name_lt : e.name.length < rteReorderNamesize
  memsize_eq : e.memsize = rteReorderMemoryFootprintGet e.buffer.orderBuf.size

/-- The list. -/
structure Listed (list : List Entry) : Prop where
  sound : ∀ e ∈ list, e.Sound
  addrs : (list.map Entry.addr).Nodup
  names : (list.map Entry.name).Nodup

/-- **The invariant**: no two buffers have one name, and no mbuf has two owners. -/
structure State.Sound (s : State) : Prop where
  listed : Listed s.list
  owned : ∀ a, s.owners a ≤ 1

section Owners

variable {a : ℕ} {e e' : Entry} {s : State} {list : List Entry} {b : ReorderBuffer}

theorem count_mbufsOf (a : ℕ) (pointers : List (Option Mbuf)) :
    (mbufsOf pointers).count a = refsOut a pointers := by
  induction pointers with
  | nil => rfl
  | cons x pointers ih =>
      rw [refsOut_cons, ← ih]
      cases x with
      | none => exact (Nat.zero_add _).symm
      | some m =>
          show (m.addr :: mbufsOf pointers).count a = _
          rw [List.count_cons, Nat.add_comm, ref_some]
          simp

/-- What is freed is what the slots point to. -/
theorem count_rteReorderFreeMbufs (a : ℕ) (b : ReorderBuffer) :
    (rteReorderFreeMbufs b).count a = b.refs b.orderBuf.size.toNat a := by
  unfold rteReorderFreeMbufs ReorderBuffer.refs CirBuffer.refs
  induction b.orderBuf.size.toNat with
  | zero => rfl
  | succ n ih =>
      rw [List.range_succ, List.flatMap_append, List.count_append, ih, Finset.sum_range_succ,
        Finset.sum_range_succ, List.flatMap_singleton, count_mbufsOf, refsOut_cons, refsOut_cons,
        refsOut_nil]
      omega

/-- A call that keeps the buffer as it should be keeps its element so. -/
theorem Entry.Sound.withBuffer (h : e.Sound)
    (hb : Seated e.buffer.orderBuf.size.toNat b) : ({ e with buffer := b } : Entry).Sound := by
  have hsize : b.orderBuf.size = e.buffer.orderBuf.size := UInt32.toNat_inj.mp hb.orderWF.size_eq
  refine ⟨?_, ?_, h.name_lt, ?_⟩
  · show Seated b.orderBuf.size.toNat b
    rwa [hsize]
  · show rteIsPowerOf2 b.orderBuf.size = true
    rw [hsize]
    exact h.pow
  · show e.memsize = rteReorderMemoryFootprintGet b.orderBuf.size
    rw [hsize]
    exact h.memsize_eq

theorem Entry.Sound.sized (h : e.Sound) : Sized e.buffer.orderBuf.size.toNat e.buffer :=
  ⟨h.seated.readyWF, h.seated.orderWF⟩

/-- The element at `e.addr` is the only one there. -/
theorem Listed.ne_addr {pre post : List Entry} (h : Listed (pre ++ e :: post)) :
    (∀ e' ∈ pre, e'.addr ≠ e.addr) ∧ ∀ e' ∈ post, e'.addr ≠ e.addr := by
  have hnodup := h.addrs
  rw [List.map_append, List.map_cons, List.nodup_append, List.nodup_cons] at hnodup
  obtain ⟨-, ⟨hpost, -⟩, hdisj⟩ := hnodup
  constructor
  · intro e' he'
    exact hdisj _ (List.mem_map_of_mem he') _ List.mem_cons_self
  · intro e' he' heq
    exact hpost (heq ▸ List.mem_map_of_mem he')

/-- **What `put` changes.** -/
theorem State.put_list (h : Listed s.list) (he : e ∈ s.list) (b : ReorderBuffer) :
    ∃ pre post, s.list = pre ++ e :: post
      ∧ (s.put { e with buffer := b }).list = pre ++ { e with buffer := b } :: post := by
  obtain ⟨pre, post, hlist⟩ := List.append_of_mem he
  refine ⟨pre, post, hlist, ?_⟩
  rw [hlist] at h
  obtain ⟨hpre, hpost⟩ := h.ne_addr
  have hsame : ∀ l : List Entry, (∀ x ∈ l, x.addr ≠ e.addr) →
      l.map (fun x => if x.addr = e.addr then { e with buffer := b } else x) = l := by
    intro l hl
    have hother : ∀ x ∈ l, (if x.addr = e.addr then { e with buffer := b } else x) = x :=
      fun x hx => if_neg (hl x hx)
    exact (List.map_congr_left hother).trans (List.map_id' l)
  show s.list.map (fun x => if x.addr = e.addr then { e with buffer := b } else x) = _
  rw [hlist, List.map_append, List.map_cons, hsame pre hpre, hsame post hpost, if_pos rfl]

/-- The elements in front of and behind one. -/
theorem Listed.replace {pre post : List Entry} (h : Listed (pre ++ e :: post)) (he' : e'.Sound)
    (haddr : e'.addr = e.addr) (hname : e'.name = e.name) : Listed (pre ++ e' :: post) where
  sound := by
    have hsound := h.sound
    simp only [List.forall_mem_append, List.forall_mem_cons] at hsound ⊢
    exact ⟨hsound.1, he', hsound.2.2⟩
  addrs := by
    have haddrs := h.addrs
    rw [List.map_append, List.map_cons] at haddrs ⊢
    rwa [haddr]
  names := by
    have hnames := h.names
    rw [List.map_append, List.map_cons] at hnames ⊢
    rwa [hname]

theorem Listed.remove {pre post : List Entry} (h : Listed (pre ++ e :: post)) :
    Listed (pre ++ post) := by
  have hsub : (pre ++ post).Sublist (pre ++ e :: post) :=
    (List.sublist_cons_self e post).append_left pre
  exact ⟨fun x hx => h.sound x (hsub.subset hx), h.addrs.sublist (hsub.map _),
    h.names.sublist (hsub.map _)⟩

theorem Listed.concat (h : Listed list) (he : e.Sound) (haddr : ∀ x ∈ list, x.addr ≠ e.addr)
    (hname : ∀ x ∈ list, x.name ≠ e.name) : Listed (list ++ [e]) where
  sound := by
    simp only [List.forall_mem_append, List.forall_mem_singleton]
    exact ⟨h.sound, he⟩
  addrs := by
    rw [List.map_append, List.map_singleton, ← List.concat_eq_append]
    refine h.addrs.concat fun hmem => ?_
    obtain ⟨x, hx, heq⟩ := List.mem_map.mp hmem
    exact haddr x hx heq
  names := by
    rw [List.map_append, List.map_singleton, ← List.concat_eq_append]
    refine h.names.concat fun hmem => ?_
    obtain ⟨x, hx, heq⟩ := List.mem_map.mp hmem
    exact hname x hx heq

theorem refs_split (a : ℕ) (pre post : List Entry) (e : Entry) :
    ((pre ++ e :: post).map (Entry.refs a)).sum
      = ((pre ++ post).map (Entry.refs a)).sum + e.refs a := by
  simp only [List.map_append, List.map_cons, List.sum_append, List.sum_cons]
  omega

theorem State.lookup_eq_some {addr : ℕ} (h : s.lookup addr = some e) :
    e ∈ s.list ∧ e.addr = addr := by
  unfold State.lookup at h
  exact ⟨List.mem_of_find?_eq_some h, by simpa using List.find?_some h⟩

/-- **A call on a buffer** that moves mbufs between its slots, the callers and the pool. -/
theorem State.Sound.put (h : s.Sound) (he : e ∈ s.list) (hb : Seated e.buffer.orderBuf.size.toNat b)
    {s' : State} (hlist : s'.list = (s.put { e with buffer := b }).list)
    (howners : ∀ a, b.refs e.buffer.orderBuf.size.toNat a + s'.held.count a + s'.pool.count a
      ≤ e.refs a + s.held.count a + s.pool.count a) : s'.Sound := by
  obtain ⟨pre, post, hold, hnew⟩ := State.put_list h.listed he b
  have hlisted := h.listed
  rw [hold] at hlisted
  refine ⟨?_, fun a => ?_⟩
  · rw [hlist, hnew]
    exact hlisted.replace ((hlisted.sound e (by simp)).withBuffer hb) rfl rfl
  · have hle := h.owned a
    have hmore := howners a
    have hsize : b.orderBuf.size = e.buffer.orderBuf.size := UInt32.toNat_inj.mp hb.orderWF.size_eq
    have hrefs : Entry.refs a { e with buffer := b } = b.refs e.buffer.orderBuf.size.toNat a := by
      show b.refs b.orderBuf.size.toNat a = _
      rw [hsize]
    unfold State.owners at hle ⊢
    rw [hold, refs_split] at hle
    rw [hlist, hnew, refs_split, hrefs]
    omega

/-! ### The calls. -/

/-- What the caller gives away, it does not own any more. -/
theorem count_erase_add (a : ℕ) {mbuf : ℕ} {mbufs : List ℕ} (h : mbuf ∈ mbufs) :
    (mbufs.erase mbuf).count a + (if mbuf = a then 1 else 0) = mbufs.count a := by
  by_cases ha : mbuf = a
  · have hpos : 0 < mbufs.count a := List.count_pos_iff.mpr (ha ▸ h)
    rw [if_pos ha, ha, List.count_erase_self]
    omega
  · rw [if_neg ha, List.count_erase_of_ne (Ne.symm ha), Nat.add_zero]

/-- **An insert** makes the buffer the owner of what it accepts. -/
theorem State.Sound.insert (h : s.Sound) (he : e ∈ s.list) {mbuf : Option Mbuf}
    (hheld : ∀ m, mbuf = some m → m.addr ∈ s.held) (addr : ℕ) :
    (s.onBuffer e (.insert addr mbuf)).Sound := by
  have hsound := h.listed.sound e he
  have hseated := hsound.seated.insert mbuf
  have hrefs := fun a => refs_insert (a := a) hsound.sized mbuf
  unfold State.onBuffer
  dsimp only
  cases mbuf with
  | none =>
      refine h.put he hseated rfl fun a => ?_
      exact Nat.add_le_add_right (Nat.add_le_add_right (hrefs a) _) _
  | some m =>
      cases hret : (rteReorderInsert e.buffer (some m)).2 with
      | none =>
          refine h.put he hseated rfl fun a => ?_
          have hle := hrefs a
          have hcount := count_erase_add a (hheld m rfl)
          rw [hret, if_pos rfl, ref_some] at hle
          show (rteReorderInsert e.buffer (some m)).1.refs _ a + (s.held.erase m.addr).count a
            + s.pool.count a ≤ e.buffer.refs _ a + _ + _
          omega
      | some errno =>
          refine h.put he hseated rfl fun a => ?_
          have hle := hrefs a
          rw [hret, if_neg (by simp)] at hle
          exact Nat.add_le_add_right (Nat.add_le_add_right hle _) _

/-- **A drain** makes the caller the owner of what it hands out. -/
theorem State.Sound.handOut (h : s.Sound) (he : e ∈ s.list) {mbufs : List (Option Mbuf)}
    (hb : Seated e.buffer.orderBuf.size.toNat b)
    (hrefs : ∀ a, b.refs e.buffer.orderBuf.size.toNat a + refsOut a mbufs = e.refs a) :
    ({ s.put { e with buffer := b } with held := s.held ++ mbufsOf mbufs } : State).Sound := by
  refine h.put he hb rfl fun a => ?_
  have hsum := hrefs a
  show _ + (s.held ++ mbufsOf mbufs).count a + s.pool.count a ≤ _
  rw [List.count_append, count_mbufsOf]
  omega

theorem rteReorderInit_eq (addr : ℕ) (name : List Char) {size : UInt32}
    (hpow : rteIsPowerOf2 size = true) :
    ∃ b, rteReorderCreate size = some b
      ∧ rteReorderInit (some addr) (rteReorderMemoryFootprintGet size) (some name) size true
        = .ok ⟨addr, strlcpy name rteReorderNamesize, rteReorderMemoryFootprintGet size, b⟩ := by
  unfold rteReorderCreate rteReorderInit
  simp only [hpow, Bool.not_true, Bool.false_eq_true, if_false, UInt32.lt_irrefl]
  exact ⟨_, rfl, rfl⟩

/-- A new buffer points to nothing. -/
theorem rteReorderCreate_refs {size : UInt32} (h : rteReorderCreate size = some b) (n a : ℕ) :
    b.refs n a = 0 ∧ b.orderBuf.size = size := by
  unfold rteReorderCreate at h
  split at h
  · cases h
  · obtain rfl := Option.some.inj h
    have hnone : ∀ c : CirBuffer, c.entries = (fun _ => none) → c.refs n a = 0 := by
      intro c hc
      unfold CirBuffer.refs
      exact Finset.sum_eq_zero fun i _ => by rw [hc, ref_none]
    refine ⟨?_, rfl⟩
    unfold ReorderBuffer.refs
    rw [hnone _ rfl]

/-- **A reset** keeps the name and the size. -/
theorem State.rteReorderReset_eq (h : e.Sound) :
    ∃ b, rteReorderCreate e.buffer.orderBuf.size = some b
      ∧ s.rteReorderReset e
        = ({ s with pool := s.pool ++ rteReorderFreeMbufs e.buffer } : State).put
            { e with buffer := b } := by
  obtain ⟨b, hcreate, hinit⟩ := rteReorderInit_eq e.addr (strlcpy e.name rteReorderNamesize) h.pow
  have hname : strlcpy e.name rteReorderNamesize = e.name := strlcpy_of_lt h.name_lt
  refine ⟨b, hcreate, ?_⟩
  unfold State.rteReorderReset
  dsimp only
  rw [h.memsize_eq, hinit, hname, hname, ← h.memsize_eq]

/-- It makes the pool the owner of all mbufs of the buffer. -/
theorem State.Sound.reset (h : s.Sound) (he : e ∈ s.list) : (s.rteReorderReset e).Sound := by
  obtain ⟨b, hcreate, hreset⟩ := State.rteReorderReset_eq (s := s) (h.listed.sound e he)
  rw [hreset]
  refine h.put (b := b) he (rteReorderCreate_seated hcreate) rfl fun a => ?_
  show _ + s.held.count a + (s.pool ++ rteReorderFreeMbufs e.buffer).count a ≤ _
  rw [(rteReorderCreate_refs hcreate _ a).1, List.count_append, count_rteReorderFreeMbufs]
  show _ ≤ e.buffer.refs _ a + _ + _
  omega

theorem rteReorderMinSeqnSet_refs (b : ReorderBuffer) (minSeqn : UInt32) (n a : ℕ) :
    (rteReorderMinSeqnSet b minSeqn).1.refs n a = b.refs n a := by
  unfold rteReorderMinSeqnSet
  split
  · rfl
  · rfl

theorem Listed.lookup_eq (h : Listed s.list) (he : e ∈ s.list) : s.lookup e.addr = some e := by
  unfold State.lookup
  obtain ⟨x, hx⟩ := Option.isSome_iff_exists.mp
    (List.find?_isSome (p := fun x : Entry => x.addr == e.addr).mpr ⟨e, he, by simp⟩)
  have hxmem := List.mem_of_find?_eq_some hx
  have hxaddr : x.addr = e.addr := by simpa using List.find?_some hx
  rw [hx, List.inj_on_of_nodup_map h.addrs hxmem he hxaddr]

/-- **Free** takes the buffer out of the list. -/
theorem State.rteReorderFree_eq (h : Listed s.list) (he : e ∈ s.list) :
    ∃ pre post, s.list = pre ++ e :: post
      ∧ s.rteReorderFree (some e.addr)
        = ⟨pre ++ post, s.held, s.pool ++ rteReorderFreeMbufs e.buffer⟩ := by
  obtain ⟨pre, post, hlist⟩ := List.append_of_mem he
  have hlookup := h.lookup_eq he
  rw [hlist] at h
  refine ⟨pre, post, hlist, ?_⟩
  have hpre : ∀ x ∈ pre, ¬ (x.addr == e.addr) = true := by
    intro x hx
    rw [beq_iff_eq]
    exact h.ne_addr.1 x hx
  have hpost : List.eraseP (fun x : Entry => x.addr == e.addr) (e :: post) = post :=
    List.eraseP_cons_of_pos (beq_self_eq_true e.addr)
  unfold State.rteReorderFree
  dsimp only
  rw [hlookup, hlist]
  dsimp only
  rw [List.eraseP_append_right _ hpre, hpost]

/-- It makes the pool the owner of all mbufs of the buffer. -/
theorem State.Sound.free (h : s.Sound) (b : Option ℕ) : (s.rteReorderFree b).Sound := by
  cases b with
  | none => exact h
  | some addr =>
      cases hlookup : s.lookup addr with
      | none =>
          unfold State.rteReorderFree
          dsimp only
          rw [hlookup]
          exact h
      | some e =>
          obtain ⟨he, rfl⟩ := State.lookup_eq_some hlookup
          obtain ⟨pre, post, hlist, hfree⟩ := State.rteReorderFree_eq h.listed he
          have hlisted := h.listed
          rw [hlist] at hlisted
          rw [hfree]
          refine ⟨hlisted.remove, fun a => ?_⟩
          have hle := h.owned a
          unfold State.owners at hle ⊢
          dsimp only
          rw [hlist, refs_split] at hle
          rw [List.count_append, count_rteReorderFreeMbufs]
          show _ + _ + (_ + e.refs a) ≤ 1
          omega

theorem rteReorderInit_eq_ok {addr : Option ℕ} {bufsize size : UInt32}
    {name : Option (List Char)} {dynfield : Bool}
    (h : rteReorderInit addr bufsize name size dynfield = .ok e) :
    ∃ n, name = some n ∧ e.name = strlcpy n rteReorderNamesize ∧ addr = some e.addr
      ∧ e.memsize = bufsize ∧ rteIsPowerOf2 size = true
      ∧ rteReorderCreate size = some e.buffer := by
  unfold rteReorderInit at h
  split at h
  · cases h
  · split at h
    · cases h
    · next hpow =>
        have hpow' : rteIsPowerOf2 size = true := by simpa using hpow
        split at h
        · cases h
        · next n =>
            split at h
            · cases h
            · split at h
              · cases h
              · obtain rfl := Except.ok.inj h
                refine ⟨n, rfl, rfl, rfl, rfl, hpow', ?_⟩
                unfold rteReorderCreate
                rw [if_neg hpow]

/-- What a created element is. -/
theorem Entry.sound_of_init {addr : Option ℕ} {size : UInt32} {name : Option (List Char)}
    {dynfield : Bool}
    (h : rteReorderInit addr (rteReorderMemoryFootprintGet size) name size dynfield = .ok e) :
    e.Sound := by
  obtain ⟨n, -, hname, -, hmemsize, hpow, hcreate⟩ := rteReorderInit_eq_ok h
  obtain ⟨-, hsize⟩ := rteReorderCreate_refs hcreate 0 0
  refine ⟨?_, ?_, ?_, ?_⟩
  · rw [hsize]
    exact rteReorderCreate_seated hcreate
  · rwa [hsize]
  · rw [hname]
    exact strlcpy_length_lt n (by decide)
  · rw [hmemsize, hsize]

/-- **The lookup** of a short name compares all of it. -/
theorem Listed.find_iff (h : Listed list) (name : List Char) :
    list.find? (Entry.called name) = some e
      ↔ e ∈ list ∧ e.name = name := by
  have hsame : ∀ x ∈ list, (x.called name = true ↔ name = x.name) :=
    fun x hx => strncmpEq_of_lt (h.sound x hx).name_lt
  constructor
  · intro hfind
    have he := List.mem_of_find?_eq_some hfind
    exact ⟨he, ((hsame e he).mp (List.find?_some hfind)).symm⟩
  · intro hmem
    obtain ⟨he, hname⟩ := hmem
    obtain ⟨x, hx⟩ := Option.isSome_iff_exists.mp
      (List.find?_isSome.mpr ⟨e, he, (hsame e he).mpr hname.symm⟩)
    have hxmem := List.mem_of_find?_eq_some hx
    have hxname := (hsame x hxmem).mp (List.find?_some hx)
    rw [hx, List.inj_on_of_nodup_map h.names hxmem he (hxname.symm.trans hname.symm)]

theorem Listed.find_none_iff (h : Listed list) (name : List Char) :
    list.find? (Entry.called name) = none
      ↔ ∀ e ∈ list, e.name ≠ name := by
  rw [List.find?_eq_none]
  refine forall₂_congr fun x hx => ?_
  rw [Entry.called, strncmpEq_of_lt (h.sound x hx).name_lt]
  exact ne_comm

/-- **The element** that an insertion returns: it has the name of the new one. -/
theorem rteReorderEntryInsert_cases (h : Listed list) (new : Entry) :
    (∃ e ∈ list, e.name = new.name ∧ rteReorderEntryInsert list new = (list, e))
    ∨ (∀ e ∈ list, e.name ≠ new.name) ∧ rteReorderEntryInsert list new = (list ++ [new], new) := by
  unfold rteReorderEntryInsert
  cases hfind : list.find? (Entry.called new.name) with
  | some e =>
      obtain ⟨he, hname⟩ := (h.find_iff new.name).mp hfind
      exact Or.inl ⟨e, he, hname, rfl⟩
  | none => exact Or.inr ⟨(h.find_none_iff new.name).mp hfind, rfl⟩

/-- **What create does**: it fails, or a new buffer goes to the list. -/
theorem rteReorderCreateIn_cases (list : List Entry) (name : Option (List Char)) (size : UInt32)
    (answers : Answers) :
    (∃ errno, rteReorderCreateIn list name size answers = (list, .error errno))
    ∨ ∃ new, rteReorderInit answers.memory (rteReorderMemoryFootprintGet size) name size
          answers.dynfield = .ok new
        ∧ rteReorderCreateIn list name size answers
          = ((rteReorderEntryInsert list new).1, .ok (rteReorderEntryInsert list new).2.addr) := by
  unfold rteReorderCreateIn
  dsimp only
  split
  · exact Or.inl ⟨_, rfl⟩
  · split
    · exact Or.inl ⟨_, rfl⟩
    · split
      · exact Or.inl ⟨_, rfl⟩
      · split
        · exact Or.inl ⟨_, rfl⟩
        · cases rteReorderInit answers.memory (rteReorderMemoryFootprintGet size) name size
              answers.dynfield with
          | error errno => exact Or.inl ⟨errno, rfl⟩
          | ok new => exact Or.inr ⟨new, rfl, rfl⟩

theorem State.Sound.create (h : s.Sound) {name : Option (List Char)} {size : UInt32}
    {answers : Answers} (hmemory : ∀ e ∈ s.list, answers.memory ≠ some e.addr) :
    (s.after (.create name size answers)).Sound := by
  have hafter : s.after (.create name size answers)
      = { s with list := (rteReorderCreateIn s.list name size answers).1 } := rfl
  rw [hafter]
  rcases rteReorderCreateIn_cases s.list name size answers with ⟨errno, herror⟩ | ⟨new, hinit, hok⟩
  · rw [herror]
    exact h
  · rw [hok]
    rcases rteReorderEntryInsert_cases h.listed new with ⟨e, -, -, hold⟩ | ⟨hname, hnew⟩
    · rw [hold]
      exact h
    · obtain ⟨-, -, -, haddr, -, -, hcreate⟩ := rteReorderInit_eq_ok hinit
      rw [hnew]
      refine ⟨h.listed.concat (Entry.sound_of_init hinit)
        (fun x hx heq => hmemory x hx (heq ▸ haddr)) hname, fun a => ?_⟩
      have hzero : Entry.refs a new = 0 := (rteReorderCreate_refs hcreate _ a).1
      have hle := h.owned a
      unfold State.owners at hle ⊢
      rw [List.map_append, List.sum_append, List.map_singleton, List.sum_singleton, hzero]
      exact hle

/-- **A call on a buffer** keeps the invariant. -/
theorem State.Sound.onBuffer (h : s.Sound) (he : e ∈ s.list) (call : Call)
    (hinsert : ∀ b mbuf, call = .insert b mbuf → ∀ m, mbuf = some m → m.addr ∈ s.held) :
    (s.onBuffer e call).Sound := by
  have hsound := h.listed.sound e he
  cases call with
  | reset b => exact h.reset he
  | insert b mbuf => exact h.insert he (hinsert b mbuf rfl) b
  | drain b maxMbufs =>
      exact h.handOut he (hsound.seated.drain maxMbufs)
        fun a => refs_drain hsound.sized maxMbufs
  | drainUpTo b maxMbufs seqn =>
      unfold State.onBuffer
      dsimp only
      cases hresult : (rteReorderDrainUpToSeqn e.buffer maxMbufs seqn).result with
      | none => exact h
      | some r =>
          exact h.handOut he (hsound.seated.drainUpTo hresult)
            fun a => refs_drainUpTo hsound.sized hresult
  | minSeqnSet b minSeqn =>
      refine h.put he (hsound.seated.minSeqnSet minSeqn) rfl fun a => ?_
      rw [rteReorderMinSeqnSet_refs]
      exact le_refl _
  | _ => exact h

/-- **Every step** keeps the invariant. -/
theorem State.Sound.step (h : s.Sound) {s' : State} (hstep : Step s s') : s'.Sound := by
  obtain ⟨call, hpermitted, rfl⟩ := hstep
  have hon : ∀ b : ℕ, (∀ b mbuf, call = .insert b mbuf → ∀ m, mbuf = some m → m.addr ∈ s.held) →
      (match (some b).bind s.lookup with
        | none => s
        | some e => s.onBuffer e call).Sound := by
    intro b hinsert
    cases hlookup : s.lookup b with
    | none =>
        rw [Option.bind_some, hlookup]
        exact h
    | some e =>
        rw [Option.bind_some, hlookup]
        exact h.onBuffer (State.lookup_eq_some hlookup).1 call hinsert
  cases call with
  | alloc mbuf =>
      refine ⟨h.listed, fun a => ?_⟩
      have hle := h.owned a
      have hcount := count_erase_add a hpermitted
      unfold State.owners at hle ⊢
      show (s.list.map (Entry.refs a)).sum + (mbuf :: s.held).count a
        + (s.pool.erase mbuf).count a ≤ 1
      rw [List.count_cons]
      simp only [beq_iff_eq]
      omega
  | release mbuf =>
      refine ⟨h.listed, fun a => ?_⟩
      have hle := h.owned a
      have hcount := count_erase_add a hpermitted
      unfold State.owners at hle ⊢
      show (s.list.map (Entry.refs a)).sum + (s.held.erase mbuf).count a
        + (s.pool ++ [mbuf]).count a ≤ 1
      rw [List.count_append, List.count_singleton]
      simp only [beq_iff_eq]
      omega
  | create name size answers => exact h.create hpermitted.2
  | free b => exact h.free b
  | reset b => exact hon b (by simp)
  | insert b mbuf =>
      exact hon b fun _ _ hcall m hm => by
        cases hcall
        exact hpermitted.1 m hm
  | drain b maxMbufs => exact hon b (by simp)
  | drainUpTo b maxMbufs seqn => exact hon b (by simp)
  | minSeqnSet b minSeqn => exact hon b (by simp)

/-- A pool alone. -/
theorem State.Sound.initial {pool : List ℕ} (h : pool.Nodup) : State.Sound ⟨[], [], pool⟩ := by
  refine ⟨⟨by simp, List.nodup_nil, List.nodup_nil⟩, fun a => ?_⟩
  show 0 + 0 + pool.count a ≤ 1
  rw [Nat.zero_add]
  exact List.nodup_iff_count_le_one.mp h a

theorem Reachable.sound {pool : List ℕ} (h : pool.Nodup) (hs : Reachable pool s) : s.Sound :=
  ReflTransGen.invariant State.Sound (State.Sound.initial h) (fun _ _ hx => hx.step) hs

end Owners

/-! ## §5. Names. -/

/-- The buffer at `addr` has a name. -/
def Named (list : List Entry) (name : List Char) (addr : ℕ) : Prop :=
  ∃ e ∈ list, e.name = name ∧ e.addr = addr

section Names

variable {s s' : State} {list : List Entry} {name : List Char} {addr : ℕ}

theorem Listed.findExisting_eq_ok (h : Listed list) (hnamed : Named list name addr) :
    rteReorderFindExisting list (some name) = .ok addr := by
  obtain ⟨e, he, hname, rfl⟩ := hnamed
  unfold rteReorderFindExisting
  dsimp only
  rw [(h.find_iff name).mpr ⟨he, hname⟩]

theorem Listed.findExisting_eq_error (h : Listed list) (hnone : ∀ e ∈ list, e.name ≠ name) :
    rteReorderFindExisting list (some name) = .error .ENOENT := by
  unfold rteReorderFindExisting
  dsimp only
  rw [(h.find_none_iff name).mpr hnone]

/-- **A create that succeeds** leaves a buffer of that name. -/
theorem Listed.named_of_create (h : Listed list) {size : UInt32} {answers : Answers}
    (hok : (rteReorderCreateIn list (some name) size answers).2 = .ok addr) :
    Named (rteReorderCreateIn list (some name) size answers).1
      (strlcpy name rteReorderNamesize) addr := by
  rcases rteReorderCreateIn_cases list (some name) size answers with
    ⟨errno, herror⟩ | ⟨new, hinit, hcreated⟩
  · rw [herror] at hok
    cases hok
  · obtain ⟨n, hn, hnew, -⟩ := rteReorderInit_eq_ok hinit
    obtain rfl := Option.some.inj hn
    rw [hcreated] at hok ⊢
    obtain rfl := Except.ok.inj hok
    rcases rteReorderEntryInsert_cases h new with ⟨e, he, hname, hold⟩ | ⟨-, hconcat⟩
    · rw [hold]
      exact ⟨e, he, hname.trans hnew, rfl⟩
    · rw [hconcat]
      exact ⟨new, by simp, hnew, rfl⟩

/-- **A second create** of a name returns the buffer that has it. -/
theorem Listed.create_existing (h : Listed list) {size : UInt32} {answers : Answers}
    (hnamed : Named list (strlcpy name rteReorderNamesize) addr)
    (hpow : rteIsPowerOf2 size = true) (hte : answers.te = true)
    (hmemory : answers.memory ≠ none) (hdynfield : answers.dynfield = true) :
    rteReorderCreateIn list (some name) size answers = (list, .ok addr) := by
  obtain ⟨e, he, hname, rfl⟩ := hnamed
  obtain ⟨new, hnew⟩ := Option.ne_none_iff_exists'.mp hmemory
  obtain ⟨b, -, hinit⟩ := rteReorderInit_eq new name hpow
  have hinsert := (h.find_iff (strlcpy name rteReorderNamesize)).mpr ⟨he, hname⟩
  unfold rteReorderCreateIn rteReorderEntryInsert
  simp only [hpow, hte, hnew, hdynfield, hinit, hinsert, Bool.not_true, Bool.false_eq_true,
    if_false, reduceCtorEq]

/-! ### Runs. -/

theorem State.put_named (h : Listed s.list) {e : Entry} (he : e ∈ s.list) (b : ReorderBuffer)
    (hnamed : Named s.list name addr) :
    Named (s.put { e with buffer := b }).list name addr := by
  obtain ⟨pre, post, hold, hnew⟩ := State.put_list h he b
  obtain ⟨x, hx, hname, haddr⟩ := hnamed
  rw [hold, List.mem_append, List.mem_cons] at hx
  rw [hnew]
  rcases hx with hx | rfl | hx
  · exact ⟨x, by simp [hx], hname, haddr⟩
  · exact ⟨{ x with buffer := b }, by simp, hname, haddr⟩
  · exact ⟨x, by simp [hx], hname, haddr⟩

/-- A call on a buffer changes its content alone. -/
theorem State.onBuffer_list {e : Entry} (h : e.Sound) (call : Call) :
    (s.onBuffer e call).list = s.list
      ∨ ∃ b, (s.onBuffer e call).list = (s.put { e with buffer := b }).list := by
  cases call with
  | reset b =>
      obtain ⟨b, -, hreset⟩ := State.rteReorderReset_eq (s := s) h
      exact Or.inr ⟨b, by rw [State.onBuffer, hreset]; rfl⟩
  | insert b mbuf =>
      refine Or.inr ⟨(rteReorderInsert e.buffer mbuf).1, ?_⟩
      unfold State.onBuffer
      dsimp only
      split
      · rfl
      · rfl
  | drain b maxMbufs => exact Or.inr ⟨_, rfl⟩
  | drainUpTo b maxMbufs seqn =>
      unfold State.onBuffer
      dsimp only
      split
      · exact Or.inl rfl
      · exact Or.inr ⟨_, rfl⟩
  | minSeqnSet b minSeqn => exact Or.inr ⟨_, rfl⟩
  | _ => exact Or.inl rfl

/-- **No call but its free** takes a buffer its name. -/
theorem State.Sound.named_after (h : s.Sound) (call : Call) (hcall : call ≠ .free (some addr))
    (hnamed : Named s.list name addr) : Named (s.after call).list name addr := by
  have hon : Named (match call.target.bind s.lookup with
      | none => s
      | some e => s.onBuffer e call).list name addr := by
    cases hlookup : call.target.bind s.lookup with
    | none => exact hnamed
    | some e =>
        obtain ⟨b, -, hb⟩ := Option.bind_eq_some_iff.mp hlookup
        obtain ⟨he, -⟩ := State.lookup_eq_some hb
        dsimp only
        rcases State.onBuffer_list (s := s) (h.listed.sound e he) call with hsame | ⟨b', hput⟩
        · rw [hsame]
          exact hnamed
        · rw [hput]
          exact State.put_named h.listed he b' hnamed
  cases call with
  | alloc mbuf => exact hnamed
  | release mbuf => exact hnamed
  | create n size answers =>
      show Named (rteReorderCreateIn s.list n size answers).1 name addr
      rcases rteReorderCreateIn_cases s.list n size answers with ⟨errno, herror⟩ | ⟨new, -, hok⟩
      · rw [herror]
        exact hnamed
      · rw [hok]
        rcases rteReorderEntryInsert_cases h.listed new with ⟨e, -, -, hold⟩ | ⟨-, hconcat⟩
        · rw [hold]
          exact hnamed
        · rw [hconcat]
          obtain ⟨x, hx, hfound⟩ := hnamed
          exact ⟨x, List.mem_append_left _ hx, hfound⟩
  | free b =>
      show Named (s.rteReorderFree b).list name addr
      cases b with
      | none => exact hnamed
      | some addr' =>
          cases hlookup : s.lookup addr' with
          | none =>
              unfold State.rteReorderFree
              dsimp only
              rw [hlookup]
              exact hnamed
          | some e =>
              obtain ⟨he, rfl⟩ := State.lookup_eq_some hlookup
              obtain ⟨pre, post, hlist, hfree⟩ := State.rteReorderFree_eq h.listed he
              obtain ⟨x, hx, hname, haddr⟩ := hnamed
              rw [hlist, List.mem_append, List.mem_cons] at hx
              rw [hfree]
              refine ⟨x, List.mem_append.mpr ?_, hname, haddr⟩
              rcases hx with hx | rfl | hx
              · exact Or.inl hx
              · exact absurd (by rw [haddr]) hcall
              · exact Or.inr hx
  | _ => exact hon

/-- **Its free** takes it the name. -/
theorem State.Sound.named_free (h : s.Sound) (hnamed : Named s.list name addr) :
    ∀ e ∈ (s.after (.free (some addr))).list, e.name ≠ name := by
  obtain ⟨x, hx, rfl, rfl⟩ := hnamed
  obtain ⟨pre, post, hlist, hfree⟩ := State.rteReorderFree_eq h.listed hx
  have hnames := h.listed.names
  rw [hlist, List.map_append, List.map_cons, List.nodup_middle, List.nodup_cons] at hnames
  intro e he heq
  have hlist' : (s.after (.free (some x.addr))).list = pre ++ post := congrArg State.list hfree
  rw [hlist'] at he
  rw [← List.map_append] at hnames
  exact hnames.1 (heq ▸ List.mem_map_of_mem he)

/-- A step that does not free the buffer at `addr`. -/
def StepKeeping (addr : ℕ) (s s' : State) : Prop :=
  ∃ call, Permitted s call ∧ call ≠ .free (some addr) ∧ s' = s.after call

theorem State.Sound.named_run (h : s.Sound) (hnamed : Named s.list name addr)
    (hrun : Relation.ReflTransGen (StepKeeping addr) s s') :
    s'.Sound ∧ Named s'.list name addr := by
  refine ReflTransGen.invariant (fun s => s.Sound ∧ Named s.list name addr) ⟨h, hnamed⟩ ?_ hrun
  intro x y hx hstep
  obtain ⟨call, hpermitted, hkeep, rfl⟩ := hstep
  exact ⟨hx.1.step ⟨call, hpermitted, rfl⟩, hx.1.named_after call hkeep hx.2⟩

end Names

/-! ## §6. Main results. -/

section Main

variable {pool : List ℕ} {s s' : State}

/-- **Every mbuf has one owner at most**, whatever calls are made: it is in one slot of one buffer,
or with a caller, or in the pool.  So no drain hands out an mbuf twice, and neither
`rte_reorder_reset` nor `rte_reorder_free` frees one that is in use or free already. -/
theorem registry_owns (hpool : pool.Nodup) (hs : Reachable pool s) :
    (∀ a, s.owners a ≤ 1) ∧ ∀ e ∈ s.list, Seated e.buffer.orderBuf.size.toNat e.buffer :=
  ⟨(hs.sound hpool).owned, fun e he => ((hs.sound hpool).listed.sound e he).seated⟩

/-- The allocators have memory. -/
def granted : Answers := ⟨true, some 4096, true⟩

/-- A caller with one mbuf has made a buffer of four places. -/
def created : State :=
  State.after ⟨[], [7], [8]⟩ (.create (some "PKT_RO".toList) 4 granted)

theorem created_reachable : Reachable [7, 8] created := by
  have halloc : Step ⟨[], [], [7, 8]⟩ ⟨[], [7], [8]⟩ := ⟨.alloc 7, by simp [Permitted], rfl⟩
  have hcreate : Step ⟨[], [7], [8]⟩ created :=
    ⟨.create (some "PKT_RO".toList) 4 granted, ⟨(fits_iff 4).mpr (by decide), by simp⟩, rfl⟩
  exact (Relation.ReflTransGen.single halloc).tail hcreate

/-- The buffer has the mbuf. -/
def stored : State := created.after (.insert 4096 (some ⟨7, 0⟩))

theorem stored_reachable : Reachable [7, 8] stored := by
  refine created_reachable.tail ⟨.insert 4096 (some ⟨7, 0⟩), ⟨?_, ?_⟩, rfl⟩
  · intro m hm
    obtain rfl := Option.some.inj hm
    decide
  · exact ⟨_, List.mem_cons_self, rfl⟩

theorem registry_owns_stored :
    stored.held = [] ∧ (stored.after (.free (some 4096))).pool = [8, 7]
      ∧ (∀ a, stored.owners a ≤ 1)
      ∧ ∀ e ∈ stored.list, Seated e.buffer.orderBuf.size.toNat e.buffer := by
  refine ⟨by decide, by decide, ?_⟩
  exact registry_owns (by decide) stored_reachable

/-- **A name leads to the buffer** that was created with it, until that is freed: to
`rte_reorder_find_existing` if it has fewer than 32 characters, for a longer one finds nothing; to
`rte_reorder_create`, which makes nothing then, if the first 31 characters are the same. -/
theorem name_leads_to_buffer (hpool : pool.Nodup) (hs : Reachable pool s) {name : List Char}
    {size : UInt32} {answers : Answers} {addr : ℕ}
    (hpermitted : Permitted s (.create (some name) size answers))
    (hcreate : (rteReorderCreateIn s.list (some name) size answers).2 = .ok addr)
    (hrun : Relation.ReflTransGen (StepKeeping addr) (s.after (.create (some name) size answers))
      s') :
    (name.length < 32 → rteReorderFindExisting s'.list (some name) = .ok addr)
    ∧ (32 ≤ name.length → rteReorderFindExisting s'.list (some name) = .error .ENOENT)
    ∧ (∀ name' size' answers', name'.take 31 = name.take 31 → rteIsPowerOf2 size' = true →
        answers'.te = true → answers'.memory ≠ none → answers'.dynfield = true →
        rteReorderCreateIn s'.list (some name') size' answers' = (s'.list, .ok addr))
    ∧ rteReorderFindExisting (s'.after (.free (some addr))).list (some (name.take 31))
        = .error .ENOENT := by
  have hsound := hs.sound hpool
  have hcreated := hsound.step ⟨_, hpermitted, rfl⟩
  obtain ⟨hsound', hnamed⟩ := hcreated.named_run (hsound.listed.named_of_create hcreate) hrun
  refine ⟨fun hshort => ?_, fun hlong => ?_, fun name' size' answers' hname => ?_, ?_⟩
  · have hwhole : strlcpy name rteReorderNamesize = name := strlcpy_of_lt hshort
    rw [hwhole] at hnamed
    exact hsound'.listed.findExisting_eq_ok hnamed
  · refine hsound'.listed.findExisting_eq_error fun e he heq => ?_
    have hlt : e.name.length < 32 := (hsound'.listed.sound e he).name_lt
    rw [heq] at hlt
    omega
  · have hsame : strlcpy name' rteReorderNamesize = strlcpy name rteReorderNamesize := hname
    rw [← hsame] at hnamed
    exact hsound'.listed.create_existing hnamed
  · have hfreed := hsound'.free (some addr)
    exact hfreed.listed.findExisting_eq_error (hsound'.named_free hnamed)

end Main

theorem name_leads_to_buffer_stored :
    rteReorderFindExisting stored.list (some "PKT_RO".toList) = .ok 4096 := by
  have halloc : Reachable [7, 8] ⟨[], [7], [8]⟩ :=
    Relation.ReflTransGen.single ⟨.alloc 7, by simp [Permitted], rfl⟩
  have hpermitted : Permitted ⟨[], [7], [8]⟩ (.create (some "PKT_RO".toList) 4 granted) :=
    ⟨(fits_iff 4).mpr (by decide), by simp⟩
  have hinsert : StepKeeping 4096 created stored := by
    refine ⟨.insert 4096 (some ⟨7, 0⟩), ⟨?_, _, List.mem_cons_self, rfl⟩, by simp, rfl⟩
    intro m hm
    obtain rfl := Option.some.inj hm
    decide
  have hleads := name_leads_to_buffer (by decide) halloc hpermitted rfl
    (Relation.ReflTransGen.single hinsert)
  exact hleads.1 (by decide)

end Meili.Reorder.Registry
