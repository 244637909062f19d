/-
  Meili.Net.FlowStore — the records of a flow table.

  Beside its `rte_hash` a flow table has an array `data` of `cnt` records of `entry_size` bytes.
  The hash gives every flow an index, and the caller reads and writes the record there through the
  pointer that an add or a lookup hands out.  Nothing in `src/lib/net/meili_flow.c` writes to
  `data`: an add leaves the record of its flow as the flow before has left it.

    • `flow_keeps_record` — as long as a flow is in the table, its record is where it was, and
      what is written to it is what its own user writes;
    • `slot_keeps_bytes` — a record is what has been written to its slot since `rte_calloc`, by
      whatever flows.

  `rte_hash` is a parameter; `RteHash.Keeps` says what is assumed of it, for tables in which every
  flow is used under one hash (`sigOf`).  Under two hashes a flow may have two records or one
  (`Meili.Net.FlowTable`).  The offset of a record is a product of two `int`s, and `IntSizes`
  bounds it; what `flow_table_create` gives back when an allocation fails is left out, and so is
  the name of the hash.
-/
import Meili.Lib.Records
import Meili.Net.FlowTable

namespace Meili.Net

open Meili.Lib

/-! ## §1. The table with its data. -/

/-- `meili_flow_table`. -/
structure FlowStore (σ : Type) extends FlowTable σ where
  cnt : Int32
  data : List UInt8

/-- What the allocators return to `flow_table_create`. -/
structure CreateAnswers (σ : Type) where
  /-- Memory for the hash's parameters. -/
  params : Bool
  /-- `rte_hash_create`. -/
  hash : Option σ
  table : Bool
  data : Bool

/-- `flow_table_create(cnt, entry_size)`; `rte_calloc` multiplies as `size_t`. -/
def flowTableCreate {σ : Type} (cnt entrySize : Int32) (answers : CreateAnswers σ) :
    Option (FlowStore σ) :=
  if !answers.params then none
  else
    match answers.hash with
    | none => none
    | some hash =>
        if !answers.table then none
        else if !answers.data then none
        else some
          { hash := hash
            entrySize := entrySize
            cnt := cnt
            data := List.replicate (cnt.toInt * entrySize.toInt % 2 ^ 64).toNat 0 }

/-- What users of the table do. -/
inductive FlowEvent where
  /-- One of the operations, through either interface. -/
  | op (o : Op)
  /-- The flow is looked up, and bytes are written at `data[pos]` and behind. -/
  | write (key : Ipv4FiveTuple) (sig : UInt32) (pos : ℕ) (bytes : List UInt8)

section Events

variable {σ : Type} (h : RteHash σ) (t : Thash)

def FlowStore.after (s : FlowStore σ) : FlowEvent → FlowStore σ
  | .op o => { s with toFlowTable := (o.run h t s.toFlowTable).1 }
  | .write key sig pos bytes =>
      match (slot s.toFlowTable (h.lookupWithHash s.hash key sig)).data with
      | none => s
      | some data => { s with data := overwrite s.data (data.toNat + pos) bytes }

/-- The table after some events. -/
def FlowStore.run (s : FlowStore σ) (evs : List FlowEvent) : FlowStore σ :=
  evs.foldl (FlowStore.after h t) s

/-- The operation uses its flow under the flow's one hash: the software hash is that of the key,
and a packet carries it. -/
def Op.Under (sigOf : Ipv4FiveTuple → UInt32) : Op → Prop
  | .pkt _ p => ∀ key, keyOf p = .ok key → p.rss = sigOf key
  | .key _ k => calculateSoftrss t k = sigOf k

/-- A flow is used under its hash, and a user stays inside of its record. -/
def FlowEvent.Proper (sigOf : Ipv4FiveTuple → UInt32) (size : ℕ) : FlowEvent → Prop
  | .op o => o.Under t sigOf
  | .write key sig pos bytes => sig = sigOf key ∧ pos + bytes.length ≤ size

/-- The operation removes this flow. -/
def Op.Removes (key : Ipv4FiveTuple) : Op → Prop
  | .pkt .remove p => keyOf p = .ok key
  | .key .remove k => k = key
  | _ => False

def FlowEvent.Removes (key : Ipv4FiveTuple) : FlowEvent → Prop
  | .op o => o.Removes key
  | .write .. => False

/-- Bytes, and where they are written in a record. -/
abbrev Patch := ℕ × List UInt8

def patch (record : List UInt8) (p : Patch) : List UInt8 := overwrite record p.1 p.2

/-- What the user of this flow writes. -/
def FlowEvent.patches (key : Ipv4FiveTuple) : FlowEvent → List Patch
  | .op _ => []
  | .write key' _ pos bytes => if key' = key then [(pos, bytes)] else []

/-- What is written to record `i`. -/
def FlowStore.slotPatches (s : FlowStore σ) (i : ℕ) : FlowEvent → List Patch
  | .op _ => []
  | .write key sig pos bytes =>
      if h.lookupWithHash s.hash key sig = i then [(pos, bytes)] else []

/-- The same in a run. -/
def FlowStore.runPatches (i : ℕ) : FlowStore σ → List FlowEvent → List Patch
  | _, [] => []
  | s, ev :: evs => s.slotPatches h i ev ++ runPatches i (s.after h t ev) evs

end Events

/-! ## §2. What `rte_hash` does. -/

/-- What is assumed of a table of `cnt` keys, as long as only its functions change it and every
key is used under its hash: every key in it has an index of its own, which it keeps until it is
deleted.  `rte_hash.h` says so, but for the bound: that the indices, which it calls offsets into
an array of user data, are those of an array of `entries` records. -/
structure RteHash.Keeps {σ : Type} (h : RteHash σ) (sigOf : Ipv4FiveTuple → UInt32) (fresh : σ)
    (cnt : ℕ) (valid : σ → Prop) (stored : σ → Ipv4FiveTuple → Option ℕ) : Prop where
  fresh_valid : valid fresh
  fresh_empty : ∀ key, stored fresh key = none
  add_valid : ∀ s key, valid s → valid (h.addKeyWithHash s key (sigOf key)).1
  del_valid : ∀ s key, valid s → valid (h.delKeyWithHash s key (sigOf key)).1
  lookup : ∀ s key, valid s →
    h.lookupWithHash s key (sigOf key) = (stored s key).elim errNoent fun i => (i : ℤ)
  add_ret : ∀ s key, valid s → 0 ≤ (h.addKeyWithHash s key (sigOf key)).2 →
    stored (h.addKeyWithHash s key (sigOf key)).1 key
      = some (h.addKeyWithHash s key (sigOf key)).2.toNat
  /-- A key that is there already keeps its index. -/
  add_stored : ∀ s key key' i, valid s → stored s key' = some i →
    stored (h.addKeyWithHash s key (sigOf key)).1 key' = some i
  /-- What an add stores has an index that is free. -/
  add_free : ∀ s key key' i, valid s → stored s key' = none →
    stored (h.addKeyWithHash s key (sigOf key)).1 key' = some i →
      key' = key ∧ i < cnt ∧ ∀ key'', stored s key'' ≠ some i
  del_stored : ∀ s key key', valid s → key' ≠ key →
    stored (h.delKeyWithHash s key (sigOf key)).1 key' = stored s key'
  del_none : ∀ s key, valid s → stored (h.delKeyWithHash s key (sigOf key)).1 key = none

/-- The sizes are `int`s, and so is the offset of the last record. -/
structure IntSizes (cnt size : ℕ) : Prop where
  cnt_lt : cnt < 2 ^ 31
  size_lt : size < 2 ^ 31
  last_lt : (cnt - 1) * size < 2 ^ 31

section Sizes

variable {cnt size i : ℕ}

/-- **The offset of a record**: the product of the `int`s does not overflow. -/
theorem IntSizes.offset (hsizes : IntSizes cnt size) (hi : i < cnt) :
    (Int32.ofInt (i : ℤ) * Int32.ofNat size).toInt = ((i * size : ℕ) : ℤ) := by
  have hcnt := hsizes.cnt_lt
  have hle : i * size ≤ (cnt - 1) * size := Nat.mul_le_mul_right size (by omega)
  have hlt : ((i * size : ℕ) : ℤ) < 2 ^ 31 := by exact_mod_cast hle.trans_lt hsizes.last_lt
  have hindex : (Int32.ofInt (i : ℤ)).toInt = i := Int32.toInt_ofInt_of_le (by omega) (by omega)
  rw [Int32.toInt_mul, hindex, Int32.toInt_ofNat_of_lt hsizes.size_lt, ← Int.natCast_mul]
  exact Int.bmod_eq_of_le_mul_two (by push_cast; omega) (by push_cast; omega)

/-- Behind the bound it does, here for record 2^19 of records of 4096 bytes. -/
example : flowTableGetData (⟨(), 4096⟩ : FlowTable Unit) 524288 = -2147483648 := by decide

/-- The size of `data`. -/
theorem IntSizes.cells (hsizes : IntSizes cnt size) :
    ((Int32.ofNat cnt).toInt * (Int32.ofNat size).toInt % 2 ^ 64).toNat = cnt * size := by
  have hlt : cnt * size < 2 ^ 64 := by
    calc cnt * size ≤ 2 ^ 31 * 2 ^ 31 := Nat.mul_le_mul hsizes.cnt_lt.le hsizes.size_lt.le
      _ < 2 ^ 64 := by decide
  rw [Int32.toInt_ofNat_of_lt hsizes.cnt_lt, Int32.toInt_ofNat_of_lt hsizes.size_lt,
    ← Int.natCast_mul]
  omega

end Sizes

/-! ## §3. The invariant. -/

/-- The indices are those of the array, and every flow has its own. -/
structure FlowStore.Sound {σ : Type} (valid : σ → Prop)
    (stored : σ → Ipv4FiveTuple → Option ℕ) (cnt size : ℕ) (s : FlowStore σ) : Prop where
  valid : valid s.hash
  sizes : IntSizes cnt size
  entrySize : s.entrySize = Int32.ofNat size
  length : s.data.length = cnt * size
  lt : ∀ key i, stored s.hash key = some i → i < cnt
  own : ∀ key key' i, stored s.hash key = some i → stored s.hash key' = some i → key' = key

section Sound

variable {σ : Type} {h : RteHash σ} {t : Thash} {sigOf : Ipv4FiveTuple → UInt32} {fresh : σ}
  {cnt size : ℕ} {valid : σ → Prop} {stored : σ → Ipv4FiveTuple → Option ℕ} {s : FlowStore σ}
  {key : Ipv4FiveTuple} {i : ℕ}

/-- **What an operation does to the hash**: nothing, or an add or a delete. -/
theorem run_hash (h : RteHash σ) {o : Op} (hunder : o.Under t sigOf) (table : FlowTable σ) :
    (o.run h t table).1 = table
    ∨ (∃ key, (o.run h t table).1
        = { table with hash := (h.addKeyWithHash table.hash key (sigOf key)).1 })
    ∨ ∃ key, o.Removes key ∧ (o.run h t table).1
        = { table with hash := (h.delKeyWithHash table.hash key (sigOf key)).1 } := by
  cases o with
  | pkt kind p =>
      cases kind with
      | add =>
          have hrun : (Op.run h t table (.pkt .add p)).1 = (flowTableAddPkt h table p).1 := rfl
          rw [hrun]
          unfold flowTableAddPkt
          cases hkey : keyOf p with
          | error err => exact Or.inl rfl
          | ok key =>
              refine Or.inr (Or.inl ⟨key, ?_⟩)
              rw [← hunder key hkey]
      | lookup =>
          left
          show (flowTableLookupPkt h table p).1 = table
          unfold flowTableLookupPkt
          cases keyOf p with
          | error err => rfl
          | ok key => rfl
      | remove =>
          have hrun : (Op.run h t table (.pkt .remove p)).1
              = (flowTableRemovePkt h table p).1 := rfl
          rw [hrun]
          unfold flowTableRemovePkt
          cases hkey : keyOf p with
          | error err => exact Or.inl rfl
          | ok key =>
              refine Or.inr (Or.inr ⟨key, hkey, ?_⟩)
              rw [← hunder key hkey]
  | key kind k =>
      have hsig : calculateSoftrss t k = sigOf k := hunder
      cases kind with
      | add =>
          refine Or.inr (Or.inl ⟨k, ?_⟩)
          rw [← hsig]
          rfl
      | lookup => exact Or.inl rfl
      | remove =>
          refine Or.inr (Or.inr ⟨k, rfl, ?_⟩)
          rw [← hsig]
          rfl

theorem FlowStore.sound_create (hsizes : IntSizes cnt size)
    (hh : h.Keeps sigOf fresh cnt valid stored) {answers : CreateAnswers σ}
    (hhash : answers.hash = some fresh)
    (hcreate : flowTableCreate (Int32.ofNat cnt) (Int32.ofNat size) answers = some s) :
    s.Sound valid stored cnt size ∧ s.data = List.replicate (cnt * size) 0 := by
  unfold flowTableCreate at hcreate
  rw [hhash] at hcreate
  split at hcreate
  · cases hcreate
  · dsimp only at hcreate
    split at hcreate
    · cases hcreate
    · split at hcreate
      · cases hcreate
      · obtain rfl := Option.some.inj hcreate
        rw [hsizes.cells]
        refine ⟨⟨hh.fresh_valid, hsizes, rfl, List.length_replicate, ?_, ?_⟩, rfl⟩
        · intro key i hi
          rw [hh.fresh_empty] at hi
          cases hi
        · intro key key' i hi
          rw [hh.fresh_empty] at hi
          cases hi

/-- An add keeps what the hash has to keep. -/
theorem FlowStore.Sound.add (hs : s.Sound valid stored cnt size)
    (hh : h.Keeps sigOf fresh cnt valid stored) (key : Ipv4FiveTuple) :
    ({ s with hash := (h.addKeyWithHash s.hash key (sigOf key)).1 } : FlowStore σ).Sound
      valid stored cnt size where
  valid := hh.add_valid _ _ hs.valid
  sizes := hs.sizes
  entrySize := hs.entrySize
  length := hs.length
  lt key' i hi := by
    cases hold : stored s.hash key' with
    | none => exact (hh.add_free _ _ _ _ hs.valid hold hi).2.1
    | some i' =>
        have hkept := hh.add_stored _ key _ _ hs.valid hold
        obtain rfl := Option.some.inj (hkept.symm.trans hi)
        exact hs.lt _ _ hold
  own key' key'' i hi' hi'' := by
    -- of two keys at one index at most one is new, and a new key has a free index
    cases hold' : stored s.hash key' with
    | none =>
        obtain ⟨hkey, -, hfree⟩ := hh.add_free _ _ _ _ hs.valid hold' hi'
        cases hold'' : stored s.hash key'' with
        | none =>
            obtain ⟨hkey', -⟩ := hh.add_free _ _ _ _ hs.valid hold'' hi''
            exact hkey'.trans hkey.symm
        | some j =>
            have hkept := hh.add_stored _ key _ _ hs.valid hold''
            rw [hkept] at hi''
            exact absurd (hold''.trans hi'') (hfree _)
    | some j =>
        have hkept := hh.add_stored _ key _ _ hs.valid hold'
        rw [hkept] at hi'
        cases hold'' : stored s.hash key'' with
        | none =>
            obtain ⟨-, -, hfree⟩ := hh.add_free _ _ _ _ hs.valid hold'' hi''
            exact absurd (hold'.trans hi') (hfree _)
        | some j' =>
            have hkept' := hh.add_stored _ key _ _ hs.valid hold''
            rw [hkept'] at hi''
            exact hs.own _ _ _ (hold'.trans hi') (hold''.trans hi'')

/-- A key that is stored behind a delete was stored before. -/
theorem RteHash.Keeps.stored_of_del (hh : h.Keeps sigOf fresh cnt valid stored) {x : σ}
    (hx : valid x) {key' : Ipv4FiveTuple}
    (hi : stored (h.delKeyWithHash x key (sigOf key)).1 key' = some i) :
    stored x key' = some i := by
  by_cases hsame : key' = key
  · rw [hsame, hh.del_none _ _ hx] at hi
    cases hi
  · rwa [hh.del_stored _ _ _ hx hsame] at hi

theorem FlowStore.Sound.del (hs : s.Sound valid stored cnt size)
    (hh : h.Keeps sigOf fresh cnt valid stored) (key : Ipv4FiveTuple) :
    ({ s with hash := (h.delKeyWithHash s.hash key (sigOf key)).1 } : FlowStore σ).Sound
      valid stored cnt size where
  valid := hh.del_valid _ _ hs.valid
  sizes := hs.sizes
  entrySize := hs.entrySize
  length := hs.length
  lt _ _ hi := hs.lt _ _ (hh.stored_of_del hs.valid hi)
  own _ _ _ hi' hi'' :=
    hs.own _ _ _ (hh.stored_of_del hs.valid hi') (hh.stored_of_del hs.valid hi'')

/-- The data at an index of the table. -/
theorem FlowStore.Sound.slot_of_lt (hs : s.Sound valid stored cnt size) (hi : i < cnt) :
    (slot s.toFlowTable (i : ℤ)).data = some ((i * size : ℕ) : ℤ) := by
  have hentry : s.toFlowTable.entrySize = Int32.ofNat size := hs.entrySize
  unfold slot flowTableGetData
  rw [hentry]
  dsimp only
  rw [if_pos (Int.natCast_nonneg i), hs.sizes.offset hi]

/-- **The pointer** of a lookup. -/
theorem FlowStore.Sound.slot_data (hs : s.Sound valid stored cnt size)
    (hh : h.Keeps sigOf fresh cnt valid stored) (key : Ipv4FiveTuple) :
    (slot s.toFlowTable (h.lookupWithHash s.hash key (sigOf key))).data
      = (stored s.hash key).map fun i => ((i * size : ℕ) : ℤ) := by
  rw [hh.lookup _ _ hs.valid]
  cases hstored : stored s.hash key with
  | none => rfl
  | some i => exact hs.slot_of_lt (hs.lt _ _ hstored)

/-- **A write** goes to the record of its flow. -/
theorem FlowStore.Sound.after_write (hs : s.Sound valid stored cnt size)
    (hh : h.Keeps sigOf fresh cnt valid stored) (key : Ipv4FiveTuple) (pos : ℕ)
    (bytes : List UInt8) :
    s.after h t (.write key (sigOf key) pos bytes)
      = (stored s.hash key).elim s
          fun i => { s with data := overwrite s.data (i * size + pos) bytes } := by
  unfold FlowStore.after
  dsimp only
  rw [hs.slot_data hh]
  cases stored s.hash key with
  | none => rfl
  | some i => rfl

/-- A record lies in the array. -/
theorem FlowStore.Sound.record_le (hs : s.Sound valid stored cnt size) (hi : i < cnt) :
    (i + 1) * size ≤ s.data.length := by
  rw [hs.length]
  exact Nat.mul_le_mul_right size hi

/-- **Every event** keeps the invariant. -/
theorem FlowStore.Sound.after (hs : s.Sound valid stored cnt size)
    (hh : h.Keeps sigOf fresh cnt valid stored) {ev : FlowEvent}
    (hproper : ev.Proper t sigOf size) :
    (s.after h t ev).Sound valid stored cnt size := by
  cases ev with
  | op o =>
      have hafter : s.after h t (.op o) = { s with toFlowTable := (o.run h t s.toFlowTable).1 } :=
        rfl
      rw [hafter]
      rcases run_hash h hproper s.toFlowTable with hsame | ⟨key, hadd⟩ | ⟨key, -, hdel⟩
      · rw [hsame]
        exact hs
      · rw [hadd]
        exact hs.add hh key
      · rw [hdel]
        exact hs.del hh key
  | write key sig pos bytes =>
      obtain ⟨rfl, hpos⟩ := hproper
      rw [hs.after_write hh]
      cases hstored : stored s.hash key with
      | none => exact hs
      | some i =>
          have hrecord := hs.record_le (hs.lt _ _ hstored)
          rw [Nat.add_mul, Nat.one_mul] at hrecord
          -- the write ends inside the record, so it does not make the array longer
          refine ⟨hs.valid, hs.sizes, hs.entrySize, ?_, hs.lt, hs.own⟩
          exact (length_overwrite (by omega)).trans hs.length

/-- **A flow stays** where it is until it is removed. -/
theorem FlowStore.Sound.stored_after (hs : s.Sound valid stored cnt size)
    (hh : h.Keeps sigOf fresh cnt valid stored) {ev : FlowEvent}
    (hproper : ev.Proper t sigOf size) (hnot : ¬ ev.Removes key)
    (hstored : stored s.hash key = some i) :
    stored (s.after h t ev).hash key = some i := by
  cases ev with
  | op o =>
      show stored (o.run h t s.toFlowTable).1.hash key = some i
      rcases run_hash h hproper s.toFlowTable with hsame | ⟨k, hadd⟩ | ⟨k, hremoves, hdel⟩
      · rwa [hsame]
      · rw [hadd]
        exact hh.add_stored _ _ _ _ hs.valid hstored
      · rw [hdel]
        have hother : key ≠ k := by
          rintro rfl
          exact hnot hremoves
        exact (hh.del_stored _ _ _ hs.valid hother).trans hstored
  | write k sig pos bytes =>
      obtain ⟨rfl, -⟩ := hproper
      rw [hs.after_write hh]
      cases stored s.hash k with
      | none => exact hstored
      | some j => exact hstored

/-- What an event writes to a record. -/
theorem FlowStore.Sound.slotPatches_write (hs : s.Sound valid stored cnt size)
    (hh : h.Keeps sigOf fresh cnt valid stored) (key : Ipv4FiveTuple) (pos : ℕ)
    (bytes : List UInt8) (i : ℕ) :
    s.slotPatches h i (.write key (sigOf key) pos bytes)
      = if stored s.hash key = some i then [(pos, bytes)] else [] := by
  unfold FlowStore.slotPatches
  dsimp only
  rw [hh.lookup _ _ hs.valid]
  cases stored s.hash key with
  | none =>
      rw [Option.elim_none, if_neg (by unfold errNoent; omega), if_neg (by simp)]
  | some j =>
      rw [Option.elim_some]
      simp only [Nat.cast_inj, Option.some_inj]

/-- **One event and one record.** -/
theorem FlowStore.Sound.record_after (hs : s.Sound valid stored cnt size)
    (hh : h.Keeps sigOf fresh cnt valid stored) {ev : FlowEvent}
    (hproper : ev.Proper t sigOf size) (i : ℕ) :
    record size (s.after h t ev).data i
      = (s.slotPatches h i ev).foldl patch (record size s.data i) := by
  cases ev with
  | op o => rfl
  | write key sig pos bytes =>
      obtain ⟨rfl, hpos⟩ := hproper
      rw [hs.after_write hh, hs.slotPatches_write hh]
      cases hstored : stored s.hash key with
      | none => rw [if_neg (by simp)]; rfl
      | some j =>
          have hrecord := hs.record_le (hs.lt _ _ hstored)
          dsimp only [Option.elim_some]
          by_cases hij : j = i
          · rw [hij, if_pos rfl]
            rw [hij] at hrecord
            exact record_overwrite_self hrecord hpos
          · rw [if_neg fun heq => hij (Option.some.inj heq)]
            exact record_overwrite_of_ne hrecord hpos (Ne.symm hij)

/-- The user of a flow writes to the record of the flow, and nobody else does. -/
theorem FlowStore.Sound.slotPatches_eq (hs : s.Sound valid stored cnt size)
    (hh : h.Keeps sigOf fresh cnt valid stored) (hstored : stored s.hash key = some i)
    {ev : FlowEvent} (hproper : ev.Proper t sigOf size) :
    s.slotPatches h i ev = ev.patches key := by
  cases ev with
  | op o => rfl
  | write k sig pos bytes =>
      obtain ⟨rfl, -⟩ := hproper
      rw [hs.slotPatches_write hh]
      unfold FlowEvent.patches
      dsimp only
      by_cases hsame : k = key
      · rw [if_pos hsame, hsame, if_pos hstored]
      · -- two flows have no index in common
        rw [if_neg hsame, if_neg fun heq => hsame (hs.own _ _ _ hstored heq)]

/-! ## §4. Runs. -/

variable {evs evs' : List FlowEvent}

theorem FlowStore.Sound.run (hs : s.Sound valid stored cnt size)
    (hh : h.Keeps sigOf fresh cnt valid stored) (hproper : ∀ ev ∈ evs, ev.Proper t sigOf size) :
    (s.run h t evs).Sound valid stored cnt size := by
  induction evs generalizing s with
  | nil => exact hs
  | cons ev evs ih =>
      rw [List.forall_mem_cons] at hproper
      exact ih (hs.after hh hproper.1) hproper.2

theorem FlowStore.Sound.record_run (hs : s.Sound valid stored cnt size)
    (hh : h.Keeps sigOf fresh cnt valid stored) (hproper : ∀ ev ∈ evs, ev.Proper t sigOf size)
    (i : ℕ) :
    record size (s.run h t evs).data i
      = (s.runPatches h t i evs).foldl patch (record size s.data i) := by
  induction evs generalizing s with
  | nil => rfl
  | cons ev evs ih =>
      rw [List.forall_mem_cons] at hproper
      show record size ((s.after h t ev).run h t evs).data i
        = (s.slotPatches h i ev ++ (s.after h t ev).runPatches h t i evs).foldl patch _
      rw [ih (hs.after hh hproper.1) hproper.2, List.foldl_append, hs.record_after hh hproper.1]

theorem FlowStore.Sound.stored_run (hs : s.Sound valid stored cnt size)
    (hh : h.Keeps sigOf fresh cnt valid stored) (hproper : ∀ ev ∈ evs, ev.Proper t sigOf size)
    (hnot : ∀ ev ∈ evs, ¬ ev.Removes key) (hstored : stored s.hash key = some i) :
    stored (s.run h t evs).hash key = some i
      ∧ s.runPatches h t i evs = evs.flatMap (FlowEvent.patches key) := by
  induction evs generalizing s with
  | nil => exact ⟨hstored, rfl⟩
  | cons ev evs ih =>
      rw [List.forall_mem_cons] at hproper hnot
      obtain ⟨hlast, hpatches⟩ := ih (hs.after hh hproper.1) hproper.2 hnot.2
        (hs.stored_after hh hproper.1 hnot.1 hstored)
      refine ⟨hlast, ?_⟩
      show s.slotPatches h i ev ++ (s.after h t ev).runPatches h t i evs = _
      rw [hpatches, hs.slotPatches_eq hh hstored hproper.1, List.flatMap_cons]

/-- What an operation sets `*data` to. -/
theorem run_data (h : RteHash σ) {o : Op} (hunder : o.Under t sigOf) (table : FlowTable σ) :
    (o.run h t table).2.data = none
    ∨ (∃ key, (o.run h t table).2.data
        = (slot table (h.addKeyWithHash table.hash key (sigOf key)).2).data)
    ∨ ∃ key, (o.run h t table).2.data
        = (slot table (h.lookupWithHash table.hash key (sigOf key))).data := by
  cases o with
  | pkt kind p =>
      cases kind with
      | add =>
          have hrun : Op.run h t table (.pkt .add p) = flowTableAddPkt h table p := rfl
          rw [hrun]
          unfold flowTableAddPkt
          cases hkey : keyOf p with
          | error err => exact Or.inl rfl
          | ok key =>
              refine Or.inr (Or.inl ⟨key, ?_⟩)
              rw [← hunder key hkey]
      | lookup =>
          have hrun : Op.run h t table (.pkt .lookup p) = flowTableLookupPkt h table p := rfl
          rw [hrun]
          unfold flowTableLookupPkt
          cases hkey : keyOf p with
          | error err => exact Or.inl rfl
          | ok key =>
              refine Or.inr (Or.inr ⟨key, ?_⟩)
              rw [← hunder key hkey]
      | remove =>
          left
          have hrun : Op.run h t table (.pkt .remove p) = flowTableRemovePkt h table p := rfl
          rw [hrun]
          unfold flowTableRemovePkt
          cases keyOf p with
          | error err => rfl
          | ok key => rfl
  | key kind k =>
      have hsig : calculateSoftrss t k = sigOf k := hunder
      cases kind with
      | add =>
          refine Or.inr (Or.inl ⟨k, ?_⟩)
          rw [← hsig]
          rfl
      | lookup =>
          refine Or.inr (Or.inr ⟨k, ?_⟩)
          rw [← hsig]
          rfl
      | remove => exact Or.inl rfl

/-- **What an operation hands out** is a pointer to a record. -/
theorem FlowStore.Sound.pointer (hs : s.Sound valid stored cnt size)
    (hh : h.Keeps sigOf fresh cnt valid stored) {o : Op} (hunder : o.Under t sigOf) {off : ℤ}
    (hoff : (o.run h t s.toFlowTable).2.data = some off) :
    ∃ i < cnt, off = (i * size : ℕ) := by
  rcases run_data h hunder s.toFlowTable with hnone | ⟨key, hadd⟩ | ⟨key, hlookup⟩
  · rw [hnone] at hoff
    cases hoff
  · rw [hadd] at hoff
    by_cases hnonneg : 0 ≤ (h.addKeyWithHash s.hash key (sigOf key)).2
    · -- the index is that of the key behind the add
      have hlt := (hs.add hh key).lt key _ (hh.add_ret _ _ hs.valid hnonneg)
      have hslot := hs.slot_of_lt hlt
      rw [Int.toNat_of_nonneg hnonneg] at hslot
      exact ⟨_, hlt, Option.some.inj (hoff.symm.trans hslot)⟩
    · have hslot : (slot s.toFlowTable (h.addKeyWithHash s.hash key (sigOf key)).2).data = none :=
        if_neg hnonneg
      rw [hslot] at hoff
      cases hoff
  · rw [hlookup, hs.slot_data hh] at hoff
    obtain ⟨i, hi, heq⟩ := Option.map_eq_some_iff.mp hoff
    exact ⟨i, hs.lt _ _ hi, heq.symm⟩

end Sound

/-! ## §5. Main results. -/

section Main

variable {σ : Type} {h : RteHash σ} {t : Thash} {sigOf : Ipv4FiveTuple → UInt32} {fresh : σ}
  {cnt size : ℕ} {valid : σ → Prop} {stored : σ → Ipv4FiveTuple → Option ℕ} {s : FlowStore σ}
  {answers : CreateAnswers σ}

/-- **A flow keeps its record.**  From any state of a table, while a flow is not removed, lookups
of it return the same pointer, inside of `data`; and what the record holds is what it held and the
writes of the flow's own user, in order, whatever others do. -/
theorem flow_keeps_record (hsizes : IntSizes cnt size)
    (hh : h.Keeps sigOf fresh cnt valid stored) (hhash : answers.hash = some fresh)
    (hcreate : flowTableCreate (Int32.ofNat cnt) (Int32.ofNat size) answers = some s)
    (evs evs' : List FlowEvent) (hproper : ∀ ev ∈ evs ++ evs', ev.Proper t sigOf size)
    {key : Ipv4FiveTuple} {i : ℕ} (hstored : stored (s.run h t evs).hash key = some i)
    (hnot : ∀ ev ∈ evs', ¬ ev.Removes key) :
    (slot ((s.run h t evs).run h t evs').toFlowTable
        (h.lookupWithHash ((s.run h t evs).run h t evs').hash key (sigOf key))).data
      = some ((i * size : ℕ) : ℤ)
    ∧ (i + 1) * size ≤ ((s.run h t evs).run h t evs').data.length
    ∧ record size ((s.run h t evs).run h t evs').data i
        = (evs'.flatMap (FlowEvent.patches key)).foldl patch
            (record size (s.run h t evs).data i) := by
  rw [List.forall_mem_append] at hproper
  obtain ⟨hs, -⟩ := FlowStore.sound_create hsizes hh hhash hcreate
  have hs₁ := hs.run hh hproper.1
  have hs₂ := hs₁.run hh hproper.2
  obtain ⟨hlast, hpatches⟩ := hs₁.stored_run hh hproper.2 hnot hstored
  refine ⟨?_, hs₂.record_le (hs₂.lt _ _ hlast), ?_⟩
  · rw [hs₂.slot_data hh, hlast]
    rfl
  · rw [hs₁.record_run hh hproper.2, hpatches]

/-- **A slot keeps its bytes.**  Every record is what has been written to it since `rte_calloc`, by
the users of all flows that have had it: an add leaves it as the last of them has left it.  And
every pointer that an operation hands out is to a record. -/
theorem slot_keeps_bytes (hsizes : IntSizes cnt size)
    (hh : h.Keeps sigOf fresh cnt valid stored) (hhash : answers.hash = some fresh)
    (hcreate : flowTableCreate (Int32.ofNat cnt) (Int32.ofNat size) answers = some s)
    (evs : List FlowEvent) (hproper : ∀ ev ∈ evs, ev.Proper t sigOf size) :
    (∀ i < cnt, record size (s.run h t evs).data i
        = (s.runPatches h t i evs).foldl patch (List.replicate size 0))
    ∧ ∀ o : Op, o.Under t sigOf → ∀ off,
        (o.run h t (s.run h t evs).toFlowTable).2.data = some off →
        ∃ i < cnt, off = (i * size : ℕ) := by
  obtain ⟨hs, hdata⟩ := FlowStore.sound_create hsizes hh hhash hcreate
  refine ⟨fun i hi => ?_, fun o hunder off hoff => (hs.run hh hproper).pointer hh hunder hoff⟩
  rw [hs.record_run hh hproper, hdata, record_replicate _ (Nat.mul_le_mul_right size hi)]

end Main

/-! ## §6. A hash table. -/

/-- What the functions of a table of `cnt` keys keep. -/
structure Slots.Valid (cnt : ℕ) (s : Slots) : Prop where
  nodup : s.free.Nodup
  free_lt : ∀ i ∈ s.free, i < cnt
  free_none : ∀ i ∈ s.free, ∀ key sig, s.held key sig ≠ some i
  lt : ∀ key sig i, s.held key sig = some i → i < cnt
  own : ∀ key sig key' sig' i, s.held key sig = some i → s.held key' sig' = some i →
    key' = key ∧ sig' = sig

section Slots

variable {cnt : ℕ} {s : Slots} {key : Ipv4FiveTuple} {sig : UInt32}

/-- Another index for one key. -/
theorem Slots.hold_of_ne {key' : Ipv4FiveTuple} {sig' : UInt32} (i : Option ℕ)
    (hne : ¬ (key' = key ∧ sig' = sig)) : s.hold key sig i key' sig' = s.held key' sig' :=
  if_neg hne

theorem Slots.hold_self (i : Option ℕ) : s.hold key sig i key sig = i := if_pos ⟨rfl, rfl⟩

theorem Slots.valid_empty (n : ℕ) : (emptySlots n).Valid (n + 1) where
  nodup := List.nodup_range'
  free_lt i hi := by simpa [emptySlots] using hi
  free_none _ _ _ _ h := nomatch h
  lt _ _ _ h := nomatch h
  own _ _ _ _ _ h := nomatch h

theorem Slots.Valid.add (hs : s.Valid cnt) (key : Ipv4FiveTuple) (sig : UInt32) :
    Slots.Valid cnt (slotHash.addKeyWithHash s key sig).1 := by
  dsimp only [slotHash]
  split
  · exact hs
  · exact hs
  · next i free hnone hfree =>
      obtain ⟨hnotin, hnodup⟩ := List.nodup_cons.mp (hfree ▸ hs.nodup)
      have hmem : i ∈ s.free := hfree ▸ List.mem_cons_self
      have hsub : ∀ j ∈ free, j ∈ s.free := fun j hj => hfree ▸ List.mem_cons_of_mem _ hj
      refine ⟨hnodup, fun j hj => hs.free_lt j (hsub j hj), fun j hj k g => ?_,
        fun k g j => ?_, fun k g k' g' j => ?_⟩
      · show s.hold key sig (some i) k g ≠ some j
        by_cases hkey : k = key ∧ g = sig
        · rw [hkey.1, hkey.2, Slots.hold_self]
          intro heq
          exact hnotin (Option.some.inj heq ▸ hj)
        · rw [Slots.hold_of_ne _ hkey]
          exact hs.free_none j (hsub j hj) k g
      · show s.hold key sig (some i) k g = some j → _
        by_cases hkey : k = key ∧ g = sig
        · rw [hkey.1, hkey.2, Slots.hold_self]
          intro heq
          exact Option.some.inj heq ▸ hs.free_lt i hmem
        · rw [Slots.hold_of_ne _ hkey]
          exact hs.lt k g j
      · show s.hold key sig (some i) k g = some j → s.hold key sig (some i) k' g' = some j → _
        by_cases hkey : k = key ∧ g = sig
        · by_cases hkey' : k' = key ∧ g' = sig
          · exact fun _ _ => ⟨hkey'.1.trans hkey.1.symm, hkey'.2.trans hkey.2.symm⟩
          · rw [hkey.1, hkey.2, Slots.hold_self, Slots.hold_of_ne _ hkey']
            intro heq hheld
            exact absurd (hheld.trans heq.symm) (hs.free_none i hmem k' g')
        · rw [Slots.hold_of_ne _ hkey]
          by_cases hkey' : k' = key ∧ g' = sig
          · rw [hkey'.1, hkey'.2, Slots.hold_self]
            intro hheld heq
            exact absurd (hheld.trans heq.symm) (hs.free_none i hmem k g)
          · rw [Slots.hold_of_ne _ hkey']
            exact hs.own k g k' g' j

theorem Slots.Valid.del (hs : s.Valid cnt) (key : Ipv4FiveTuple) (sig : UInt32) :
    Slots.Valid cnt (slotHash.delKeyWithHash s key sig).1 := by
  dsimp only [slotHash]
  cases hheld : s.held key sig with
  | none => exact hs
  | some i =>
      have hold : ∀ k g j, s.hold key sig none k g = some j →
          s.held k g = some j ∧ ¬ (k = key ∧ g = sig) := by
        intro k g j h
        by_cases hkey : k = key ∧ g = sig
        · rw [hkey.1, hkey.2, Slots.hold_self] at h
          cases h
        · rw [Slots.hold_of_ne _ hkey] at h
          exact ⟨h, hkey⟩
      refine ⟨?_, fun j hj => ?_, fun j hj k g h => ?_, fun k g j h => hs.lt k g j (hold k g j h).1,
        fun k g k' g' j h h' => hs.own k g k' g' j (hold k g j h).1 (hold k' g' j h').1⟩
      · refine List.nodup_append.mpr ⟨hs.nodup, List.nodup_singleton i, fun j hj j' hj' heq => ?_⟩
        rw [List.mem_singleton] at hj'
        exact hs.free_none j hj key sig (hheld.trans (congrArg some (heq.trans hj').symm))
      · rcases List.mem_append.mp hj with hfree | hi
        · exact hs.free_lt j hfree
        · rw [List.mem_singleton.mp hi]
          exact hs.lt key sig i hheld
      · obtain ⟨hsome, hkey⟩ := hold k g j h
        rcases List.mem_append.mp hj with hfree | hi
        · exact hs.free_none j hfree k g hsome
        · rw [List.mem_singleton.mp hi] at hsome
          exact hkey (hs.own key sig k g i hheld hsome)

/-- The index of a flow in a table, under its hash. -/
def Slots.storedUnder (sigOf : Ipv4FiveTuple → UInt32) (s : Slots) (key : Ipv4FiveTuple) :
    Option ℕ := s.held key (sigOf key)

theorem slotHash_keeps (sigOf : Ipv4FiveTuple → UInt32) (n : ℕ) :
    slotHash.Keeps sigOf (emptySlots n) (n + 1) (Slots.Valid (n + 1))
      (Slots.storedUnder sigOf) where
  fresh_valid := Slots.valid_empty n
  fresh_empty _ := rfl
  add_valid _ key hs := hs.add key (sigOf key)
  del_valid _ key hs := hs.del key (sigOf key)
  lookup _ _ _ := rfl
  add_ret s key _ hret := (slotHash_documented n).add s key (sigOf key) hret
  add_stored s key key' i _ hheld := by
    unfold Slots.storedUnder at hheld ⊢
    dsimp only [slotHash]
    split
    · exact hheld
    · exact hheld
    · next j free hnone hfree =>
        refine (Slots.hold_of_ne _ fun hkey => ?_).trans hheld
        rw [hkey.1, hnone] at hheld
        cases hheld
  add_free s key key' i hs hnone hheld := by
    unfold Slots.storedUnder at hheld hnone
    dsimp only [slotHash] at hheld
    split at hheld
    · rw [hnone] at hheld
      cases hheld
    · rw [hnone] at hheld
      cases hheld
    · next j free _ hfree =>
        have hmem : j ∈ s.free := hfree ▸ List.mem_cons_self
        by_cases hkey : key' = key
        · have hi : s.hold key (sigOf key) (some j) key' (sigOf key') = some i := hheld
          rw [hkey, Slots.hold_self] at hi
          obtain rfl := Option.some.inj hi
          exact ⟨hkey, hs.free_lt j hmem, fun key'' => hs.free_none j hmem key'' (sigOf key'')⟩
        · have hi : s.hold key (sigOf key) (some j) key' (sigOf key') = some i := hheld
          rw [Slots.hold_of_ne _ fun hsame => hkey hsame.1, hnone] at hi
          cases hi
  del_stored s key key' _ hkey := by
    unfold Slots.storedUnder
    dsimp only [slotHash]
    split
    · exact Slots.hold_of_ne _ fun hsame => hkey hsame.1
    · rfl
  del_none s key _ := by
    unfold Slots.storedUnder
    dsimp only [slotHash]
    split
    · exact Slots.hold_self none
    · next hnone => exact hnone

end Slots

/-- The allocators have memory for a table of `n + 1` keys. -/
def enough (n : ℕ) : CreateAnswers Slots := ⟨true, some (emptySlots n), true, true⟩

/-- Tables of two records and of one record of four bytes. -/
def twoRecords : FlowStore Slots := (flowTableCreate 2 4 (enough 1)).get rfl

def oneRecord : FlowStore Slots := (flowTableCreate 1 4 (enough 0)).get rfl

/-- The software hash. -/
def softSig (key : Ipv4FiveTuple) : UInt32 := calculateSoftrss softThash key

/-- What happens while the flow is there: its own writes, and another flow that comes. -/
def meanwhile : List FlowEvent :=
  [.write httpsKey (softSig httpsKey) 1 [7, 7], .op (.key .remove .zero), .op (.key .add .zero),
    .write httpsKey (softSig httpsKey) 2 [9]]

theorem flow_keeps_record_https :
    record 4 ((twoRecords.run slotHash softThash [.op (.key .add httpsKey)]).run slotHash
      softThash meanwhile).data 0 = [0, 7, 9, 0] := by
  have hcreate : flowTableCreate (Int32.ofNat 2) (Int32.ofNat 4) (enough 1) = some twoRecords :=
    rfl
  have hstored : (twoRecords.run slotHash softThash [.op (.key .add httpsKey)]).hash.storedUnder
      softSig httpsKey = some 0 := by decide +kernel
  have hproper : ∀ ev ∈ [.op (.key .add httpsKey)] ++ meanwhile,
      FlowEvent.Proper softThash softSig 4 ev := by
    simp [meanwhile, FlowEvent.Proper, Op.Under, softSig]
  have hnot : ∀ ev ∈ meanwhile, ¬ ev.Removes httpsKey := by
    simp [meanwhile, FlowEvent.Removes, Op.Removes]
    decide +kernel
  have hkeeps := flow_keeps_record ⟨by decide, by decide, by decide⟩ (slotHash_keeps softSig 1)
    rfl hcreate _ meanwhile hproper hstored hnot
  rw [hkeeps.2.2]
  decide +kernel

/-- A flow comes, writes and goes, and another one comes. -/
def inTurn : List FlowEvent :=
  [.op (.key .add httpsKey), .write httpsKey (softSig httpsKey) 0 [1, 2, 3, 4],
    .op (.key .remove httpsKey), .op (.key .add .zero)]

/-- The record of the new flow holds what the flow before has written. -/
theorem slot_keeps_bytes_inTurn :
    record 4 (oneRecord.run slotHash softThash inTurn).data 0 = [1, 2, 3, 4] := by
  have hcreate : flowTableCreate (Int32.ofNat 1) (Int32.ofNat 4) (enough 0) = some oneRecord :=
    rfl
  have hkeeps := slot_keeps_bytes (t := softThash) ⟨by decide, by decide, by decide⟩
    (slotHash_keeps softSig 0) rfl hcreate inTurn
    (by simp [inTurn, FlowEvent.Proper, Op.Under, softSig])
  rw [hkeeps.1 0 (by decide)]
  decide +kernel

end Meili.Net
