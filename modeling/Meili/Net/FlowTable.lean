/-
  Meili.Net.FlowTable — the flow table and its two interfaces.

  A flow table (`src/lib/net/meili_flow.c`) is an `rte_hash` beside an array of data.  Its
  operations come in two variants.  The `_pkt` variants take the 5-tuple from a packet and
  look it up under the hash that the network card has left in the packet; the `_key`
  variants take a 5-tuple and compute the hash in software.

    • `Driver.rss` — what the card computes on a port that `input_dpdk_port_init` has set up;
    • `interfaces_agree_iff` — the packets on which the two variants are the same.

  `rte_hash` is a parameter; `RteHash.Documented` says what is assumed of it.
-/
import Meili.Net.FlowKey
import Meili.Net.Rss
import Mathlib.Data.Set.Defs

namespace Meili.Net

/-! ## §1. The table. -/

/-- What `rte_hash.h` provides, on states of type `σ`. -/
structure RteHash (σ : Type) where
  addKeyWithHash : σ → Ipv4FiveTuple → UInt32 → σ × ℤ
  lookupWithHash : σ → Ipv4FiveTuple → UInt32 → ℤ
  delKeyWithHash : σ → Ipv4FiveTuple → UInt32 → σ × ℤ

/-- `meili_flow_table`, without the contents of `data`. -/
structure FlowTable (σ : Type) where
  hash : σ
  entrySize : Int32

/-- What an operation returns, and the offset in `data` that it sets `*data` to, if it does. -/
structure Result where
  ret : ℤ
  data : Option ℤ
  deriving Repr, DecidableEq

section Operations

variable {σ : Type} (h : RteHash σ) (t : Thash) (table : FlowTable σ)

/-- `flow_table_get_data`: the offset is a product of two `int`s, taken to wrap around. -/
def flowTableGetData (index : Int32) : ℤ := (index * table.entrySize).toInt

/-- The index in a table, an `int32_t`, with the data at it. -/
def slot (tblIndex : ℤ) : Result where
  ret := tblIndex
  data := if 0 ≤ tblIndex then some (flowTableGetData table (Int32.ofInt tblIndex)) else none

/-- The 5-tuple of a packet, or the error of `flow_table_fill_key`.  What the caller's key
holds before does not matter (`flowTableFillKey_run`). -/
def keyOf (pkt : Pkt) : Except ℤ Ipv4FiveTuple :=
  let (err, key) := (flowTableFillKey .zero pkt []).1
  if err < 0 then .error err else .ok key

/-- `flow_table_add_pkt`. -/
def flowTableAddPkt (pkt : Pkt) : FlowTable σ × Result :=
  match keyOf pkt with
  | .error err => (table, ⟨err, none⟩)
  | .ok key =>
      let (hash, tblIndex) := h.addKeyWithHash table.hash key pkt.rss
      ({ table with hash := hash }, slot table tblIndex)

/-- `flow_table_lookup_pkt`. -/
def flowTableLookupPkt (pkt : Pkt) : FlowTable σ × Result :=
  match keyOf pkt with
  | .error ret => (table, ⟨ret, none⟩)
  | .ok key => (table, slot table (h.lookupWithHash table.hash key pkt.rss))

/-- `flow_table_remove_pkt`. -/
def flowTableRemovePkt (pkt : Pkt) : FlowTable σ × Result :=
  match keyOf pkt with
  | .error ret => (table, ⟨ret, none⟩)
  | .ok key =>
      let (hash, tblIndex) := h.delKeyWithHash table.hash key pkt.rss
      ({ table with hash := hash }, ⟨tblIndex, none⟩)

/-- `flow_table_add_key`. -/
def flowTableAddKey (key : Ipv4FiveTuple) : FlowTable σ × Result :=
  let softrss := calculateSoftrss t key
  let (hash, tblIndex) := h.addKeyWithHash table.hash key softrss
  ({ table with hash := hash }, slot table tblIndex)

/-- `flow_table_lookup_key`. -/
def flowTableLookupKey (key : Ipv4FiveTuple) : FlowTable σ × Result :=
  let softrss := calculateSoftrss t key
  (table, slot table (h.lookupWithHash table.hash key softrss))

/-- `flow_table_remove_key`. -/
def flowTableRemoveKey (key : Ipv4FiveTuple) : FlowTable σ × Result :=
  let softrss := calculateSoftrss t key
  let (hash, tblIndex) := h.delKeyWithHash table.hash key softrss
  ({ table with hash := hash }, ⟨tblIndex, none⟩)

end Operations

/-- The three operations. -/
inductive Kind where
  | add | lookup | remove
  deriving Repr, DecidableEq

/-- An operation through one of the interfaces. -/
inductive Op where
  | pkt (kind : Kind) (pkt : Pkt)
  | key (kind : Kind) (key : Ipv4FiveTuple)

section Runs

variable {σ : Type} (h : RteHash σ) (t : Thash)

def Op.run (table : FlowTable σ) : Op → FlowTable σ × Result
  | .pkt .add p => flowTableAddPkt h table p
  | .pkt .lookup p => flowTableLookupPkt h table p
  | .pkt .remove p => flowTableRemovePkt h table p
  | .key .add k => flowTableAddKey h t table k
  | .key .lookup k => flowTableLookupKey h t table k
  | .key .remove k => flowTableRemoveKey h t table k

/-- The table after some operations. -/
def afterOps (table : FlowTable σ) (ops : List Op) : FlowTable σ :=
  ops.foldl (fun table o => (o.run h t table).1) table

/-- The packets that the operations are given are among these. -/
def Op.On (pkts : Set Pkt) : Op → Prop
  | .pkt _ p => p ∈ pkts
  | .key _ _ => True

/-- The two interfaces on a packet and on its 5-tuple. -/
def interfaces (kind : Kind) (pkt : Pkt) (key : Ipv4FiveTuple) : List Op :=
  [.pkt kind pkt, .key kind key]

/-- The interfaces agree on a table, for a packet that has this 5-tuple. -/
structure Agree (table : FlowTable σ) (pkt : Pkt) (key : Ipv4FiveTuple) : Prop where
  /-- The same result and the same effect. -/
  same : ∀ kind, (Op.pkt kind pkt).run h t table = (Op.key kind key).run h t table
  /-- What one of them has added the other one finds, in the same slot, and removes. -/
  found : ∀ add ∈ interfaces .add pkt key, 0 ≤ (add.run h t table).2.ret →
    (∀ lookup ∈ interfaces .lookup pkt key,
      (lookup.run h t (add.run h t table).1).2 = (add.run h t table).2)
    ∧ ∀ remove ∈ interfaces .remove pkt key,
      (remove.run h t (add.run h t table).1).2.ret = (add.run h t table).2.ret

end Runs

/-! ## §2. What is outside of the repository. -/

/-- `-ENOENT`. -/
def errNoent : ℤ := -2

/-- What is assumed of `rte_hash`.  `rte_hash.h` says that a table holds keys, each at an index
of its own, and asks for the hash of the key.  That a key is found under the hash it was added
with and no other is not documented: it is the assumption of the comparison, without which
another hash might find the key by chance.  `fresh` is a table of `rte_hash_create`, with room
for one key at least. -/
structure RteHash.Documented {σ : Type} (h : RteHash σ) (fresh : σ)
    (stored : σ → Ipv4FiveTuple → UInt32 → Option ℕ) : Prop where
  lookup : ∀ s key sig,
    h.lookupWithHash s key sig = (stored s key sig).elim errNoent fun i => (i : ℤ)
  del : ∀ s key sig,
    (h.delKeyWithHash s key sig).2 = (stored s key sig).elim errNoent fun i => (i : ℤ)
  add : ∀ s key sig, 0 ≤ (h.addKeyWithHash s key sig).2 →
    stored (h.addKeyWithHash s key sig).1 key sig = some (h.addKeyWithHash s key sig).2.toNat
  add_other : ∀ s key sig sig', sig' ≠ sig →
    stored (h.addKeyWithHash s key sig).1 key sig' = stored s key sig'
  fresh_empty : ∀ key sig, stored fresh key sig = none
  fresh_room : ∀ key sig, 0 ≤ (h.addKeyWithHash fresh key sig).2

/-- The fields of a packet that receive side scaling can hash. -/
inductive RssField where
  | srcAddr | dstAddr | srcPort | dstPort
  deriving Repr, DecidableEq

/-- `ETH_RSS_IP`. -/
def ethRssIp : List RssField := [.srcAddr, .dstAddr]

/-- `struct rte_eth_rss_conf`; without a key, the driver takes its own. -/
structure RssConf where
  rssKey : Option (List UInt8)
  rssHf : List RssField

/-- `port_conf_default.rx_adv_conf.rss_conf`. -/
def portConfDefault : RssConf where
  rssKey := none
  rssHf := ethRssIp

/-- A field as the driver hashes it. -/
def RssField.value (key : Ipv4FiveTuple) : RssField → UInt32
  | .srcAddr => rteBeToCpu32 key.srcAddr
  | .dstAddr => rteBeToCpu32 key.dstAddr
  | .srcPort => (rteBeToCpu16 key.srcPort).toUInt32
  | .dstPort => (rteBeToCpu16 key.dstPort).toUInt32

/-- A driver: its hash of the fields, under the key it is given or its own. -/
structure Driver where
  hash : Option (List UInt8) → List UInt32 → UInt32

/-- What the network card computes under `conf`. -/
def Driver.rss (d : Driver) (conf : RssConf) (key : Ipv4FiveTuple) : UInt32 :=
  d.hash conf.rssKey (conf.rssHf.map (RssField.value key))

/-- `pkt` has been received on a port of `input_dpdk_port_init`. -/
def Received (d : Driver) (pkt : Pkt) : Prop :=
  IsIpv4 pkt.data → pkt.rss = d.rss portConfDefault pkt.filledKey

/-! ## §3. The interfaces. -/

section Interfaces

variable {σ : Type} {h : RteHash σ} {t : Thash} {table : FlowTable σ} {pkt : Pkt}
  {key : Ipv4FiveTuple}

theorem keyOf_eq (pkt : Pkt) :
    keyOf pkt = if pkt.version = 4 then .ok pkt.filledKey else .error errProtonosupport := by
  unfold keyOf
  rw [flowTableFillKey_run]
  by_cases hversion : pkt.version = 4
  · rw [if_pos hversion, if_pos hversion]
    rfl
  · rw [if_neg hversion, if_neg hversion]
    rfl

/-- **Under the same hash** the two interfaces do the same. -/
theorem run_pkt_eq_key (hkey : keyOf pkt = .ok key) (hrss : pkt.rss = calculateSoftrss t key)
    (kind : Kind) (table : FlowTable σ) :
    (Op.pkt kind pkt).run h t table = (Op.key kind key).run h t table := by
  cases kind with
  | add =>
      show flowTableAddPkt h table pkt = flowTableAddKey h t table key
      unfold flowTableAddPkt flowTableAddKey
      rw [hkey]
      dsimp only
      rw [hrss]
  | lookup =>
      show flowTableLookupPkt h table pkt = flowTableLookupKey h t table key
      unfold flowTableLookupPkt flowTableLookupKey
      rw [hkey]
      dsimp only
      rw [hrss]
  | remove =>
      show flowTableRemovePkt h table pkt = flowTableRemoveKey h t table key
      unfold flowTableRemovePkt flowTableRemoveKey
      rw [hkey]
      dsimp only
      rw [hrss]

variable {fresh : σ} {stored : σ → Ipv4FiveTuple → UInt32 → Option ℕ}

/-- What has been added by key is found by key, and can be removed. -/
theorem addKey_found (hh : h.Documented fresh stored)
    (hadd : 0 ≤ (flowTableAddKey h t table key).2.ret) :
    (flowTableLookupKey h t (flowTableAddKey h t table key).1 key).2
        = (flowTableAddKey h t table key).2
      ∧ (flowTableRemoveKey h t (flowTableAddKey h t table key).1 key).2.ret
        = (flowTableAddKey h t table key).2.ret := by
  have hstored := hh.add table.hash key (calculateSoftrss t key) hadd
  have hidx : (((h.addKeyWithHash table.hash key (calculateSoftrss t key)).2.toNat : ℕ) : ℤ)
      = (h.addKeyWithHash table.hash key (calculateSoftrss t key)).2 := Int.toNat_of_nonneg hadd
  constructor
  · show slot _ (h.lookupWithHash (h.addKeyWithHash table.hash key _).1 key _) = slot table _
    rw [hh.lookup, hstored, Option.elim_some, hidx]
    rfl
  · show (h.delKeyWithHash (h.addKeyWithHash table.hash key _).1 key _).2
      = (h.addKeyWithHash table.hash key _).2
    rw [hh.del, hstored, Option.elim_some, hidx]

theorem agree_of_rss (hh : h.Documented fresh stored) (hkey : keyOf pkt = .ok key)
    (hrss : pkt.rss = calculateSoftrss t key) (table : FlowTable σ) :
    Agree h t table pkt key := by
  have hsame := run_pkt_eq_key (σ := σ) (h := h) hkey hrss
  refine ⟨fun kind => hsame kind table, fun add hadd hret => ?_⟩
  have haddKey : add.run h t table = (Op.key .add key).run h t table := by
    rcases List.mem_cons.mp hadd with rfl | hadd
    · exact hsame .add table
    · rw [List.mem_singleton.mp hadd]
  rw [haddKey] at hret ⊢
  obtain ⟨hlookup, hremove⟩ := addKey_found hh hret
  constructor
  · intro lookup hmem
    rcases List.mem_cons.mp hmem with rfl | hmem
    · rw [hsame]
      exact hlookup
    · rw [List.mem_singleton.mp hmem]
      exact hlookup
  · intro remove hmem
    rcases List.mem_cons.mp hmem with rfl | hmem
    · rw [hsame]
      exact hremove
    · rw [List.mem_singleton.mp hmem]
      exact hremove

theorem lookupPkt_ret (hkey : keyOf pkt = .ok key) :
    (flowTableLookupPkt h table pkt).2.ret = h.lookupWithHash table.hash key pkt.rss := by
  unfold flowTableLookupPkt
  rw [hkey]
  rfl

/-- **Under another hash** a flow that has been added by key is not found by packet. -/
theorem rss_of_agree (hh : h.Documented fresh stored) (entrySize : Int32)
    (hkey : keyOf pkt = .ok key) (hagree : Agree h t ⟨fresh, entrySize⟩ pkt key) :
    pkt.rss = calculateSoftrss t key := by
  by_contra hrss
  have hroom := hh.fresh_room key (calculateSoftrss t key)
  have hfound := (hagree.found (.key .add key) (by simp [interfaces]) hroom).1 (.pkt .lookup pkt)
    (by simp [interfaces])
  have hret : (flowTableLookupPkt h (flowTableAddKey h t ⟨fresh, entrySize⟩ key).1 pkt).2.ret
      = (h.addKeyWithHash fresh key (calculateSoftrss t key)).2 := congrArg Result.ret hfound
  rw [lookupPkt_ret hkey] at hret
  have hmiss := hh.lookup (h.addKeyWithHash fresh key (calculateSoftrss t key)).1 key pkt.rss
  rw [hh.add_other _ _ _ _ hrss, hh.fresh_empty, Option.elim_none] at hmiss
  rw [← hret] at hroom
  exact absurd (hmiss ▸ hroom) (by decide)

/-- **When the interfaces agree.**  In all tables that operations on these packets and on any
keys lead to, the variants of an operation agree on every packet that has a 5-tuple, if and
only if in each of them `hash.rss` is the software hash of its 5-tuple. -/
theorem interfaces_agree_iff (hh : h.Documented fresh stored) (entrySize : Int32) (pkts : Set Pkt) :
    (∀ ops : List Op, (∀ o ∈ ops, o.On pkts) → ∀ pkt ∈ pkts, ∀ key, keyOf pkt = .ok key →
        Agree h t (afterOps h t ⟨fresh, entrySize⟩ ops) pkt key)
      ↔ ∀ pkt ∈ pkts, ∀ key, keyOf pkt = .ok key → pkt.rss = calculateSoftrss t key := by
  constructor
  · intro hagree pkt hpkt key hkey
    exact rss_of_agree hh entrySize hkey (hagree [] (by simp) pkt hpkt key hkey)
  · intro hrss ops _ pkt hpkt key hkey
    exact agree_of_rss hh hkey (hrss pkt hpkt key hkey) _

end Interfaces

/-! ## §4. Drivers. -/

/-- A UDP packet as it is received. -/
def receivedUdp (d : Driver) (srcPort dstPort : UInt8) : Pkt :=
  { (udpPacket srcPort dstPort).pkt with
    rss := d.rss portConfDefault (udpPacket srcPort dstPort).pkt.filledKey }

theorem receivedUdp_received (d : Driver) (srcPort dstPort : UInt8) :
    Received d (receivedUdp d srcPort dstPort) := fun _ => rfl

theorem receivedUdp_keyOf (d : Driver) (srcPort dstPort : UInt8) :
    keyOf (receivedUdp d srcPort dstPort) = .ok (udpPacket srcPort dstPort).pkt.filledKey := by
  have his : IsIpv4 (receivedUdp d srcPort dstPort).data := (udpPacket srcPort dstPort).isIpv4
  rw [keyOf_eq, if_pos ((Pkt.version_iff his.length).mpr his.version)]
  rfl

/-- **No driver's hash will do**: it does not see the ports, and the software hash does. -/
theorem driver_disagrees {t : Thash} (ht : t.Documented) (d : Driver) :
    ∃ pkt, Received d pkt ∧ ∃ key, keyOf pkt = .ok key ∧ pkt.rss ≠ calculateSoftrss t key := by
  by_contra hall
  have hsoft : ∀ dstPort, (receivedUdp d 0 dstPort).rss
      = calculateSoftrss t (udpPacket 0 dstPort).pkt.filledKey := by
    intro dstPort
    by_contra hne
    exact hall ⟨_, receivedUdp_received d 0 dstPort, _, receivedUdp_keyOf d 0 dstPort, hne⟩
  -- the two packets differ in the destination port
  have hsame : (receivedUdp d 0 0).rss = (receivedUdp d 0 1).rss := rfl
  rw [hsoft 0, hsoft 1, calculateSoftrss_eq ht, calculateSoftrss_eq ht] at hsame
  revert hsame
  decide +kernel

/-- A hash table: what it holds, and the free indices. -/
structure Slots where
  held : Ipv4FiveTuple → UInt32 → Option ℕ
  free : List ℕ

def Slots.hold (s : Slots) (key : Ipv4FiveTuple) (sig : UInt32) (i : Option ℕ) :
    Ipv4FiveTuple → UInt32 → Option ℕ :=
  fun key' sig' => if key' = key ∧ sig' = sig then i else s.held key' sig'

/-- `-ENOSPC`. -/
def errNospc : ℤ := -28

/-- `rte_hash.h` as it is documented. -/
def slotHash : RteHash Slots where
  addKeyWithHash s key sig :=
    match s.held key sig, s.free with
    | some i, _ => (s, i)
    | none, [] => (s, errNospc)
    | none, i :: free => (⟨s.hold key sig (some i), free⟩, i)
  lookupWithHash s key sig := (s.held key sig).elim errNoent fun i => (i : ℤ)
  delKeyWithHash s key sig :=
    match s.held key sig with
    | some i => (⟨s.hold key sig none, s.free ++ [i]⟩, i)
    | none => (s, errNoent)

/-- An empty table with `n + 1` indices. -/
def emptySlots (n : ℕ) : Slots where
  held _ _ := none
  free := List.range' 0 (n + 1)

theorem slotHash_documented (n : ℕ) : slotHash.Documented (emptySlots n) Slots.held where
  lookup _ _ _ := rfl
  del s key sig := by
    dsimp only [slotHash]
    cases s.held key sig with
    | some i => rfl
    | none => rfl
  add s key sig hadd := by
    dsimp only [slotHash] at hadd ⊢
    split
    next i hi => exact hi
    next hfree =>
      rw [‹s.held key sig = none›, hfree] at hadd
      exact absurd (show 0 ≤ errNospc from hadd) (by decide)
    next i free hnone hfree => exact if_pos ⟨rfl, rfl⟩
  add_other s key sig sig' hsig := by
    dsimp only [slotHash]
    split
    next => rfl
    next => rfl
    next => exact if_neg fun h => hsig h.2
  fresh_empty _ _ := rfl
  fresh_room _ _ := Int.natCast_nonneg 0

/-- A driver that computes the Toeplitz hash, and whose own key is that of the software. -/
def toeplitzDriver : Driver where
  hash rssKey fields :=
    toeplitzHash fields ((words32 (rssKey.getD rssSymmetricKey)).map rteBeToCpu32)

/-- Between ports 0 the two hashes are the same, and the interfaces agree. -/
theorem zeroPorts_agree : slotHash.Documented (emptySlots 7) Slots.held
    ∧ ∀ ops : List Op, (∀ o ∈ ops, o.On {receivedUdp toeplitzDriver 0 0}) →
        ∀ pkt ∈ ({receivedUdp toeplitzDriver 0 0} : Set Pkt), ∀ key, keyOf pkt = .ok key →
          Agree slotHash softThash (afterOps slotHash softThash ⟨emptySlots 7, 8⟩ ops) pkt key := by
  refine ⟨slotHash_documented 7, (interfaces_agree_iff (slotHash_documented 7) 8 _).mpr ?_⟩
  rintro pkt rfl key hkey
  rw [receivedUdp_keyOf] at hkey
  cases hkey
  decide +kernel

/-- A packet from port 0 to port 1, which is not found by its 5-tuple. -/
theorem ports_not_agree : Received toeplitzDriver (receivedUdp toeplitzDriver 0 1)
    ∧ ¬ ∀ ops : List Op, (∀ o ∈ ops, o.On {receivedUdp toeplitzDriver 0 1}) →
        ∀ pkt ∈ ({receivedUdp toeplitzDriver 0 1} : Set Pkt), ∀ key, keyOf pkt = .ok key →
          Agree slotHash softThash (afterOps slotHash softThash ⟨emptySlots 7, 8⟩ ops) pkt key := by
  refine ⟨receivedUdp_received toeplitzDriver 0 1, fun hagree => ?_⟩
  have hrss := rss_of_agree (slotHash_documented 7) 8 (receivedUdp_keyOf toeplitzDriver 0 1)
    (hagree [] (by simp) _ rfl _ (receivedUdp_keyOf toeplitzDriver 0 1))
  rw [calculateSoftrss_eq softThash_documented] at hrss
  revert hrss
  decide +kernel

end Meili.Net
