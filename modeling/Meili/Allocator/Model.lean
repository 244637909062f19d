/-
  Meili.Allocator.Model — the SmartNIC resource allocator of
  `src/control/resource_allocation.py`.

  The script keeps four shared, mutated lists: `T` (available resources of
  the snics), `B` (their available bandwidth), `G` (the demands of the
  stages that are still open) and `A` (the allocation scheme).  They are the
  record `Alloc`; an in-place update of a row is a function update.  All
  numbers are exact rationals.

  Conventions of the embedding:

    • a cluster has `k` snics and an application `m` stages, so an index into
      `T`, `B`, `A[s]` is a `Fin k` and an index into `G`, `W`, `A` a `Fin m`:
      the only out-of-range index the script ever forms is the failure value
      `-1` of `find_next_snic`, which Python reads as the last snic
      (`pySnic`), or as an IndexError when there is none;
    • the arguments `S` and `G` of `location_key` and `find_next_snic` are
      the module-level names of the script; they are those of the running
      application in every call;
    • a raised exception is kept beside the state it leaves behind, because
      the lists have been mutated by then;
    • printing is left out.
-/
import Mathlib

namespace Meili.Allocator

/-! ## §1. Resource vectors. -/

/-- A resource vector: core, regex, compression. -/
abbrev Vec := Fin 3 → ℚ

/-- The component of the cores. -/
abbrev core : Fin 3 := 0

/-- `calculate_required_bw(r, w)`: the largest entry of the element-wise
product, and at least 0. -/
def calculateRequiredBw (r w : Vec) : ℚ :=
  (List.finRange 3).foldl (fun bw i => max bw (r i * w i)) 0

/-- `resource_geq(G, T)`. -/
def resourceGeq (g t : Vec) : Bool :=
  (List.finRange 3).all fun i => !decide (g i < t i)

/-- `resource_eq(G, T)`. -/
def resourceEq (g t : Vec) : Bool :=
  (List.finRange 3).all fun i => !decide (g i ≠ t i)

/-- `resource_min(r1, r2)`. -/
def resourceMin (r1 r2 : Vec) : Vec := fun i => min (r1 i) (r2 i)

/-- `resource_add(r1, r2)`: the new contents of `r1`. -/
def resourceAdd (r1 r2 : Vec) : Vec := fun i => r1 i + r2 i

/-- `resource_minus(r1, r2)`: the new contents of `r1`. -/
def resourceMinus (r1 r2 : Vec) : Vec := fun i => r1 i - r2 i

/-- `resource_multiply(r1, r2)`. -/
def resourceMultiply (r1 r2 : Vec) : Vec := fun i => r1 i * r2 i

/-- Python's `int(q)`: truncation towards zero. -/
def pyInt (q : ℚ) : ℤ := if 0 ≤ q then ⌊q⌋ else ⌈q⌉

/-- `resource_divide(num, r1)`. -/
def resourceDivide (num : ℚ) (r1 : Vec) : Vec := fun i =>
  if r1 i ≠ 0 then (pyInt (num / r1 i) : ℚ) else 0

/-- `resource_get_one_hot(r1)`: the first non-zero entry, `None` when there
is none. -/
def resourceGetOneHot (r1 : Vec) : Option ℚ :=
  ((List.finRange 3).map r1).find? fun i => decide (i ≠ 0)

/-- The zero vector `(0,0,0)` the script compares with. -/
def zeroVec : Vec := fun _ => 0

@[simp] theorem resourceGeq_iff (g t : Vec) :
    resourceGeq g t = true ↔ ∀ i, t i ≤ g i := by
  simp [resourceGeq, List.all_eq_true]

@[simp] theorem resourceEq_iff (g t : Vec) :
    resourceEq g t = true ↔ g = t := by
  simp [resourceEq, List.all_eq_true, funext_iff]

@[simp] theorem zeroVec_apply (i : Fin 3) : zeroVec i = 0 := rfl

/-! ## §2. The shared state. -/

/-- The lists the allocator mutates: `T`, `B`, `G`, `A`. -/
@[ext] structure Alloc (k m : ℕ) where
  /-- Available resources of snics. -/
  T : Fin k → Vec
  /-- Available bandwidth of snics. -/
  B : Fin k → ℚ
  /-- Resources the stages still require. -/
  G : Fin m → Vec
  /-- Allocation scheme. -/
  A : Fin m → Fin k → Vec

/-- What the script can raise: `B_allocable - None`, or an index into the
lists of an empty cluster. -/
inductive PyError where
  | typeError
  | indexError
  deriving Repr, DecidableEq

namespace Alloc

variable {k m : ℕ}

/-- `resource_add(A[s][n], r)`. -/
def addA (σ : Alloc k m) (s : Fin m) (n : Fin k) (r : Vec) : Alloc k m :=
  { σ with
    A := Function.update σ.A s (Function.update (σ.A s) n (resourceAdd (σ.A s n) r)) }

/-- `resource_minus(T[n], r)`. -/
def minusT (σ : Alloc k m) (n : Fin k) (r : Vec) : Alloc k m :=
  { σ with T := Function.update σ.T n (resourceMinus (σ.T n) r) }

/-- `resource_minus(G[s], r)`. -/
def minusG (σ : Alloc k m) (s : Fin m) (r : Vec) : Alloc k m :=
  { σ with G := Function.update σ.G s (resourceMinus (σ.G s) r) }

/-- `B[n] = b`. -/
def setB (σ : Alloc k m) (n : Fin k) (b : ℚ) : Alloc k m :=
  { σ with B := Function.update σ.B n b }

end Alloc

section Stage

variable {k m : ℕ} (S : List (Fin m)) (N : List (Fin k)) (W : Fin m → Vec)

/-! ## §3. Keys of a snic. -/

/-- The parent stage `s-1` of a stage other than the first. -/
def parent (s : Fin m) (_ : s.val ≠ 0) : Fin m := ⟨s.val - 1, by omega⟩

/-- `location_key(n, A, s)`: 1 when another stage of the pipeline is on the
snic. -/
def locationKey (n : Fin k) (A : Fin m → Fin k → Vec) (s : Fin m) : ℚ :=
  if S.any (fun stage => decide (stage ≠ s) && !resourceEq (A stage n) zeroVec)
  then 1 else 0

/-- `calculate_sharable_bw(W, A, n, s)`: the bandwidth the parent stage
already brings to snic `n`. -/
def calculateSharableBw (A : Fin m → Fin k → Vec) (n : Fin k) (s : Fin m) : ℚ :=
  if h : s.val = 0 then 0
  else
    let p := parent s h
    max (max (A p n 0 * W p 0) (A p n 1 * W p 1)) (A p n 2 * W p 2)

/-- `bw_key(W, n, B, A, s)`: the bandwidth snic `n` can allocate to `s`. -/
def bwKey (n : Fin k) (B : Fin k → ℚ) (A : Fin m → Fin k → Vec) (s : Fin m) : ℚ :=
  let bIdle := B n
  let bSharable := calculateSharableBw W A n s
  bSharable + bIdle

/-- The tuple of `key_snic`, compared lexicographically. -/
abbrev SnicKey := ℚ ×ₗ ℚ ×ₗ ℚ ×ₗ ℚ ×ₗ ℚ

/-- `key_snic(n, B, T, A, G, s, W)`. -/
def keySnic (σ : Alloc k m) (s : Fin m) (n : Fin k) : SnicKey :=
  let loc := locationKey S n σ.A s
  let bw := bwKey W n σ.B σ.A s
  let tuple (x y z : ℚ) : SnicKey := toLex (loc, toLex (bw, toLex (x, toLex (y, z))))
  if σ.G s 0 ≠ 0 ∧ σ.G s 1 = 0 ∧ σ.G s 2 = 0 then
    tuple (σ.T n 0) (σ.T n 1) (σ.T n 2)
  else if σ.G s 0 = 0 ∧ σ.G s 1 ≠ 0 ∧ σ.G s 2 = 0 then
    tuple (σ.T n 1) (σ.T n 0) (σ.T n 2)
  else if σ.G s 0 = 0 ∧ σ.G s 1 = 0 ∧ σ.G s 2 ≠ 0 then
    tuple (σ.T n 2) (σ.T n 0) (σ.T n 1)
  else
    tuple (σ.T n 0) (σ.T n 1) (σ.T n 2)

/-! ## §4. `find_next_snic`. -/

/-- The skip ladder of `find_next_snic`: no resource, already allocated, one
of the demanded components missing, no bandwidth. -/
def skips (σ : Alloc k m) (s : Fin m) (n : Fin k) : Bool :=
  if resourceGeq zeroVec (σ.T n) then true
  else if !resourceGeq zeroVec (σ.A s n) then true
  else if σ.G s 0 ≠ 0 ∧ σ.T n 0 = 0 then true
  else if σ.G s 1 ≠ 0 ∧ σ.T n 1 = 0 then true
  else if σ.G s 2 ≠ 0 ∧ σ.T n 2 = 0 then true
  else if bwKey W n σ.B σ.A s = 0 then true
  else false

/-- The tests a snic passes when the ladder does not skip it. -/
structure Eligible (σ : Alloc k m) (s : Fin m) (n : Fin k) : Prop where
  /-- Some resource is left. -/
  resource : resourceGeq zeroVec (σ.T n) = false
  /-- Nothing of the snic is used for this stage yet. -/
  unused : resourceGeq zeroVec (σ.A s n) = true
  /-- Every demanded component is available. -/
  available : ∀ i, σ.G s i ≠ 0 → σ.T n i ≠ 0
  /-- Some bandwidth can be allocated. -/
  bandwidth : bwKey W n σ.B σ.A s ≠ 0

theorem skips_eq_false_iff (σ : Alloc k m) (s : Fin m) (n : Fin k) :
    skips W σ s n = false ↔ Eligible W σ s n := by
  have h3 : (∀ i, σ.G s i ≠ 0 → σ.T n i ≠ 0) ↔
      ¬ (σ.G s 0 ≠ 0 ∧ σ.T n 0 = 0) ∧ ¬ (σ.G s 1 ≠ 0 ∧ σ.T n 1 = 0)
        ∧ ¬ (σ.G s 2 ≠ 0 ∧ σ.T n 2 = 0) := by
    simp only [Fin.forall_fin_succ, Fin.succ_zero_eq_one, Fin.succ_one_eq_two, not_and]
    simp
  constructor
  · intro h
    unfold skips at h
    split_ifs at h with h1 h2 h30 h31 h32 h4
    rw [Bool.not_eq_true] at h1
    rw [Bool.not_eq_true', Bool.not_eq_false] at h2
    exact ⟨h1, h2, h3.mpr ⟨h30, h31, h32⟩, h4⟩
  · intro h
    obtain ⟨h30, h31, h32⟩ := h3.mp h.available
    unfold skips
    rw [if_neg (by rw [h.resource]; simp), if_neg (by rw [h.unused]; simp), if_neg h30,
      if_neg h31, if_neg h32, if_neg h.bandwidth]

/-- `sorted(N, key=key_snic, reverse=True)`: descending and stable. -/
def sortedSnics (σ : Alloc k m) (s : Fin m) : List (Fin k) :=
  N.insertionSort fun a b => keySnic S W σ s b ≤ keySnic S W σ s a

/-- `find_next_snic(N, T, B, W, A, s)`; `none` is the result `-1`. -/
def findNextSnic (σ : Alloc k m) (s : Fin m) : Option (Fin k) :=
  (sortedSnics S N W σ s).find? fun n => !skips W σ s n

/-- The snic found is one of `N`, and passes every test. -/
theorem findNextSnic_some {σ : Alloc k m} {s : Fin m} {n : Fin k}
    (h : findNextSnic S N W σ s = some n) : n ∈ N ∧ Eligible W σ s n := by
  unfold findNextSnic at h
  constructor
  · exact (List.mem_insertionSort _).mp (List.mem_of_find?_eq_some h)
  · rw [← skips_eq_false_iff]
    simpa using List.find?_some h

/-- `-1` means that no snic of `N` passes the tests. -/
theorem findNextSnic_none {σ : Alloc k m} {s : Fin m}
    (h : findNextSnic S N W σ s = none) : ∀ n ∈ N, ¬ Eligible W σ s n := by
  intro n hn he
  unfold findNextSnic at h
  have hskip := List.find?_eq_none.mp h n ((List.mem_insertionSort _).mpr hn)
  rw [(skips_eq_false_iff W σ s n).mpr he] at hskip
  exact hskip rfl

/-! ## §5. `allocate_one_snic`. -/

/-- `allocate_on_bw(G, T, B_allocable, W, A, n, s)`: book as many whole units
as the bandwidth carries; the result is their bandwidth, `None` when it is
no unit. -/
def allocateOnBw (σ : Alloc k m) (bAllocable : ℚ) (n : Fin k) (s : Fin m) :
    Alloc k m × Option ℚ :=
  let d := resourceDivide bAllocable (W s)
  let σ := ((σ.addA s n d).minusT n d).minusG s d
  let bw := resourceMultiply d (W s)
  (σ, resourceGetOneHot bw)

/-- `allocate_one_snic(G, T, B, W, A, n, s)`. -/
def allocateOneSnic (σ : Alloc k m) (n : Fin k) (s : Fin m) :
    Alloc k m × Option PyError :=
  if (s.val ≠ 0 ∧ calculateRequiredBw (σ.G s) (W s) > calculateSharableBw W σ.A n s)
      ∨ s.val = 0 then
    let bIdle := σ.B n
    let bSharable := calculateSharableBw W σ.A n s
    let bAllocable := bSharable + bIdle
    let (σ', bw) : Alloc k m × Option ℚ :=
      if !resourceGeq (σ.T n) (σ.G s) then
        -- resource not enough: as much as the snic has, if the bandwidth carries it
        if calculateRequiredBw (σ.T n) (W s) ≤ bAllocable then
          let r := resourceMin (σ.G s) (σ.T n)
          let bw := calculateRequiredBw r (W s)
          (((σ.addA s n r).minusG s r).minusT n r, some bw)
        else
          allocateOnBw W σ bAllocable n s
      else
        if calculateRequiredBw (σ.G s) (W s) ≤ bAllocable then
          let bw := calculateRequiredBw (σ.G s) (W s)
          let σ₁ := σ.addA s n (σ.G s)
          let σ₂ := σ₁.minusT n (σ₁.G s)
          -- `resource_minus(G[s], G[s])`: both arguments are the same list
          (σ₂.minusG s (σ₂.G s), some bw)
        else
          allocateOnBw W σ bAllocable n s
    match bw with
    | some bw => (σ'.setB n (min bIdle (bAllocable - bw)), none)
    | none => (σ', some .typeError)
  else
    -- the parent stage already brought enough bandwidth
    if !resourceGeq (σ.T n) (σ.G s) then
      let r := resourceMin (σ.G s) (σ.T n)
      (((σ.addA s n r).minusG s r).minusT n r, none)
    else
      let σ₁ := σ.addA s n (σ.G s)
      let σ₂ := σ₁.minusT n (σ₁.G s)
      (σ₂.minusG s (σ₂.G s), none)

/-! ## §6. `resource_allocation`. -/

/-- The last snic, which the index `-1` denotes. -/
def lastSnic : (k : ℕ) → Option (Fin k)
  | 0 => none
  | k + 1 => some (Fin.last k)

/-- The snic a result of `find_next_snic` indexes; `none` is an IndexError. -/
def pySnic : Option (Fin k) → Option (Fin k)
  | some n => some n
  | none => lastSnic k

/-- A configuration of `resource_allocation`: the lists, the stages the `for`
loop has not left yet (its head is the stage of the `while` loop), the
`allocate_one_snic` calls made so far with what `find_next_snic` returned
for them, and the exception that ended the run, if any. -/
structure Conf (k m : ℕ) where
  state : Alloc k m
  todo : List (Fin m)
  calls : List (Fin m × Option (Fin k))
  raised : Option PyError

/-- One test of the `while` condition of `resource_allocation`, with the loop
body when it holds and the move to the next stage when it does not; `none`
when the function has returned or raised. -/
def resourceAllocationStep (c : Conf k m) : Option (Conf k m) :=
  match c.raised, c.todo with
  | some _, _ => none
  | none, [] => none
  | none, s :: rest =>
      if resourceEq (c.state.G s) zeroVec then
        some { c with todo := rest }
      else
        let n := findNextSnic S N W c.state s
        match pySnic n with
        | none => some { c with calls := c.calls ++ [(s, n)], raised := some .indexError }
        | some i =>
            let (σ', e) := allocateOneSnic W c.state i s
            some { c with state := σ', calls := c.calls ++ [(s, n)], raised := e }

end Stage

end Meili.Allocator
