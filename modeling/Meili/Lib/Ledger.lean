/-
  Meili.Lib.Ledger — what a program acquires and releases.

  A ledger records, for the resources of a program, what has been acquired, which
  slots for a handle have been written, what has been released, and which slots have
  been read before anything was written to them.

    §1  the ledger and what a program does to it;
    §2  `Exact`: everything that was acquired is released exactly once;
    §3  actions, which may fail, and their composition;
    §4  `Spares`: a part of the resources is left alone;
    §5  a rule for loops;
    §6  series of acquisitions.
-/
import Mathlib.Data.List.Count
import Mathlib.Data.List.Nodup
import Mathlib.Data.List.Range

namespace Meili.Lib

/-! ## §1. Ledgers. -/

/-- The resources a program has acquired and released, in order. -/
structure Ledger (R : Type) where
  acquired : List R
  /-- The slots that a handle, or NULL where there is none, has been written to. -/
  written : List R
  released : List R
  /-- The accesses through slots that nothing has been written to. -/
  strays : List R
  deriving DecidableEq

namespace Ledger

variable {R : Type}

def empty : Ledger R where
  acquired := []
  written := []
  released := []
  strays := []

def alloc (r : R) (l : Ledger R) : Ledger R := { l with acquired := l.acquired ++ [r] }

def write (r : R) (l : Ledger R) : Ledger R := { l with written := l.written ++ [r] }

def release (r : R) (l : Ledger R) : Ledger R := { l with released := l.released ++ [r] }

def stray (r : R) (l : Ledger R) : Ledger R := { l with strays := l.strays ++ [r] }

/-- One effect for each of the items, in order. -/
def forEach {α : Type} (items : List α) (f : α → Ledger R → Ledger R) (l : Ledger R) : Ledger R :=
  items.foldl (fun l a => f a l) l

theorem forEach_append {α : Type} (xs ys : List α) (f : α → Ledger R → Ledger R) (l : Ledger R) :
    l.forEach (xs ++ ys) f = (l.forEach xs f).forEach ys f := List.foldl_append

theorem forEach_map {α β : Type} (g : α → β) (xs : List α) (f : β → Ledger R → Ledger R)
    (l : Ledger R) : l.forEach (xs.map g) f = l.forEach xs fun a => f (g a) := List.foldl_map

theorem forEach_flatMap {α β : Type} (g : α → List β) (xs : List α) (f : β → Ledger R → Ledger R)
    (l : Ledger R) : l.forEach (xs.flatMap g) f = l.forEach xs fun a l => l.forEach (g a) f :=
  List.foldl_flatMap

theorem forEach_congr {α : Type} {xs : List α} {f g : α → Ledger R → Ledger R}
    (h : ∀ a ∈ xs, f a = g a) (l : Ledger R) : l.forEach xs f = l.forEach xs g :=
  List.foldl_ext _ _ _ fun l a ha => congrFun (h a ha) l

/-- What went astray stays so. -/
def KeepsStrays (f : Ledger R → Ledger R) : Prop := ∀ l, l.strays ≠ [] → (f l).strays ≠ []

theorem keepsStrays_stray (r : R) : KeepsStrays (stray r) := fun _ _ => List.concat_ne_nil _ _

theorem KeepsStrays.forEach {α : Type} {items : List α} {f : α → Ledger R → Ledger R}
    (h : ∀ a ∈ items, KeepsStrays (f a)) : KeepsStrays (Ledger.forEach items f) := by
  induction items with
  | nil => exact fun _ hl => hl
  | cons a items ih =>
      intro l hl
      exact ih (fun b hb => h b (List.mem_cons_of_mem a hb)) _ (h a List.mem_cons_self l hl)

/-- One item that goes astray, in the ledgers that the items before it lead to. -/
theorem forEach_strays {α : Type} {items : List α} {f : α → Ledger R → Ledger R}
    {P : Ledger R → Prop} (h : ∀ a ∈ items, KeepsStrays (f a))
    (hP : ∀ a ∈ items, ∀ l, P l → P (f a l))
    {a : α} (ha : a ∈ items) (hstray : ∀ l, P l → (f a l).strays ≠ []) {l : Ledger R} (hl : P l) :
    (l.forEach items f).strays ≠ [] := by
  induction items generalizing l with
  | nil => cases ha
  | cons b items ih =>
      have hrest : ∀ c ∈ items, KeepsStrays (f c) := fun c hc => h c (List.mem_cons_of_mem b hc)
      rcases List.mem_cons.mp ha with rfl | ha
      · exact KeepsStrays.forEach hrest _ (hstray l hl)
      · exact ih hrest (fun c hc => hP c (List.mem_cons_of_mem b hc)) ha
          (hP b List.mem_cons_self l hl)

section Free

variable [DecidableEq R]

/-- What a slot holds is released.  Without a write there is NULL in a slot that has
been zeroed, and in another one there is not. -/
def freeSlot (zeroed : Bool) (r : R) (l : Ledger R) : Ledger R :=
  if r ∈ l.written then
    if r ∈ l.acquired then l.release r else l
  else if zeroed then l
  else l.stray r

/-- A slot that has been zeroed. -/
def free (r : R) (l : Ledger R) : Ledger R := l.freeSlot true r

/-- What is held, of some resources. -/
def held (l : Ledger R) (rs : List R) : List R :=
  rs.filter fun r => r ∈ l.written ∧ r ∈ l.acquired

theorem held_append (l : Ledger R) (xs ys : List R) :
    l.held (xs ++ ys) = l.held xs ++ l.held ys := List.filter_append xs ys

theorem mem_held {l : Ledger R} {rs : List R} {r : R} :
    r ∈ l.held rs ↔ r ∈ rs ∧ r ∈ l.written ∧ r ∈ l.acquired := by
  unfold held
  rw [List.mem_filter, decide_eq_true_eq]

theorem held_eq_nil {l : Ledger R} {rs : List R} (h : ∀ r ∈ rs, r ∉ l.acquired) :
    l.held rs = [] := by
  apply List.eq_nil_iff_forall_not_mem.mpr
  intro r hr
  obtain ⟨hmem, -, hacq⟩ := mem_held.mp hr
  exact h r hmem hacq

/-- **A series of frees** releases what is held, in order, where no slot holds garbage. -/
theorem forEach_freeSlot {zeroed : Bool} {rs : List R} {l : Ledger R}
    (h : zeroed = true ∨ ∀ r ∈ rs, r ∈ l.written) :
    l.forEach rs (freeSlot zeroed) = { l with released := l.released ++ l.held rs } := by
  induction rs generalizing l with
  | nil => simp [forEach, held]
  | cons r rs ih =>
      show forEach rs (freeSlot zeroed) (l.freeSlot zeroed r) = _
      have hrest : zeroed = true ∨ ∀ r' ∈ rs, r' ∈ l.written :=
        h.imp_right fun hall r' hr' => hall r' (List.mem_cons_of_mem r hr')
      by_cases hheld : r ∈ l.written ∧ r ∈ l.acquired
      · have hcons : l.held (r :: rs) = r :: l.held rs :=
          List.filter_cons_of_pos (by simpa using hheld)
        have hstep : l.freeSlot zeroed r = l.release r := by
          unfold freeSlot
          rw [if_pos hheld.1, if_pos hheld.2]
        rw [hstep, ih (l := l.release r) hrest, hcons]
        show { l with released := (l.released ++ [r]) ++ l.held rs } = _
        rw [List.append_assoc]
        rfl
      · have hcons : l.held (r :: rs) = l.held rs :=
          List.filter_cons_of_neg (by simpa using hheld)
        have hstep : l.freeSlot zeroed r = l := by
          unfold freeSlot
          by_cases hw : r ∈ l.written
          · rw [if_pos hw, if_neg fun ha => hheld ⟨hw, ha⟩]
          · rw [if_neg hw, if_pos (h.resolve_right fun hall => hw (hall r List.mem_cons_self))]
        rw [hstep, ih hrest, hcons]

/-- A series of frees of what is held wherever something was written. -/
theorem forEach_free {rs : List R} {l : Ledger R} (h : ∀ r ∈ rs, r ∈ l.written → r ∈ l.acquired) :
    l.forEach rs free = { l with released := l.released ++ rs.filter (· ∈ l.written) } := by
  refine (forEach_freeSlot (Or.inl rfl)).trans ?_
  have hsame : l.held rs = rs.filter (· ∈ l.written) := by
    apply List.filter_congr
    intro r hr
    rw [decide_eq_decide]
    exact and_iff_left_of_imp (h r hr)
  rw [hsame]

@[simp] theorem freeSlot_written (zeroed : Bool) (r : R) (l : Ledger R) :
    (l.freeSlot zeroed r).written = l.written := by
  unfold freeSlot
  split
  · split <;> rfl
  · split <;> rfl

@[simp] theorem freeSlot_acquired (zeroed : Bool) (r : R) (l : Ledger R) :
    (l.freeSlot zeroed r).acquired = l.acquired := by
  unfold freeSlot
  split
  · split <;> rfl
  · split <;> rfl

theorem forEach_freeSlot_written (zeroed : Bool) (rs : List R) (l : Ledger R) :
    (l.forEach rs (freeSlot zeroed)).written = l.written := by
  induction rs generalizing l with
  | nil => rfl
  | cons r rs ih => exact (ih (l.freeSlot zeroed r)).trans (freeSlot_written zeroed r l)

theorem forEach_freeSlot_acquired (zeroed : Bool) (rs : List R) (l : Ledger R) :
    (l.forEach rs (freeSlot zeroed)).acquired = l.acquired := by
  induction rs generalizing l with
  | nil => rfl
  | cons r rs ih => exact (ih (l.freeSlot zeroed r)).trans (freeSlot_acquired zeroed r l)

theorem keepsStrays_freeSlot (zeroed : Bool) (r : R) : KeepsStrays (freeSlot zeroed r) := by
  intro l h
  unfold freeSlot
  split
  · split <;> exact h
  · split
    · exact h
    · exact keepsStrays_stray r l h

end Free

/-! ## §2. Exactness. -/

/-- **Exactly what was acquired is released, once**, and nothing else is touched.  What
is `exempt` is left to someone else. -/
structure Exact [DecidableEq R] (exempt : R → Bool) (l : Ledger R) : Prop where
  once : ∀ r ∈ l.acquired, exempt r = false → l.released.count r = 1
  only : ∀ r ∈ l.released, r ∈ l.acquired
  untouched : l.strays = []

theorem Exact.of_nodup [DecidableEq R] {exempt : R → Bool} {l : Ledger R}
    (hnodup : l.released.Nodup) (hsub : ∀ r ∈ l.released, r ∈ l.acquired)
    (hall : ∀ r ∈ l.acquired, exempt r = false → r ∈ l.released) (hstrays : l.strays = []) :
    l.Exact exempt where
  once r hr hex := List.count_eq_one_of_mem hnodup (hall r hr hex)
  only := hsub
  untouched := hstrays

/-- What is acquired and not released is a leak. -/
theorem not_exact_of_leak [DecidableEq R] {exempt : R → Bool} {l : Ledger R} {r : R}
    (hr : r ∈ l.acquired) (hex : exempt r = false) (hleak : r ∉ l.released) :
    ¬ l.Exact exempt := by
  intro h
  have hone := h.once r hr hex
  rw [List.count_eq_zero_of_not_mem hleak] at hone
  exact absurd hone (by decide)

/-- The part of a ledger about some of the resources. -/
def restrict (p : R → Bool) (l : Ledger R) : Ledger R where
  acquired := l.acquired.filter p
  written := l.written.filter p
  released := l.released.filter p
  strays := l.strays.filter p

end Ledger

/-! ## §3. Actions. -/

/-- A piece of a program: whether it succeeds, and what it does until then. -/
structure Action (R : Type) where
  ok : Bool
  effect : Ledger R → Ledger R

namespace Action

open Ledger

variable {R : Type}

/-- What cannot fail. -/
def void (f : Ledger R → Ledger R) : Action R where
  ok := true
  effect := f

def skip : Action R := void id

/-- A call that acquires nothing. -/
def check (fails : Bool) : Action R where
  ok := !fails
  effect := id

/-- An acquisition, with the result written to its slot. -/
def acquire (fails : Bool) (r : R) : Action R where
  ok := !fails
  effect l := if fails then l.write r else (l.alloc r).write r

/-- An allocation whose handle is used without a check. -/
def unchecked (fails : Bool) (r : R) : Action R where
  ok := !fails
  effect := if fails then stray r else alloc r

/-- One after the other, up to the first that fails. -/
def andThen (a b : Action R) : Action R where
  ok := a.ok && b.ok
  effect l := if a.ok then b.effect (a.effect l) else a.effect l

/-- An action with a cleanup for when it fails. -/
def onFail (a : Action R) (clean : Ledger R → Ledger R) : Action R where
  ok := a.ok
  effect l := if a.ok then a.effect l else clean (a.effect l)

/-- A loop over `0 ≤ i < n`, left at the first failure. -/
def each : ℕ → (ℕ → Action R) → Action R
  | 0, _ => skip
  | n + 1, f => (each n f).andThen (f n)

@[simp] theorem void_ok (f : Ledger R → Ledger R) : (void f).ok = true := rfl

@[simp] theorem skip_ok : (skip : Action R).ok = true := rfl

@[simp] theorem check_ok (fails : Bool) : (check fails : Action R).ok = !fails := rfl

@[simp] theorem acquire_ok (fails : Bool) (r : R) : (acquire fails r).ok = !fails := rfl

@[simp] theorem unchecked_ok (fails : Bool) (r : R) : (unchecked fails r).ok = !fails := rfl

@[simp] theorem andThen_ok (a b : Action R) : (a.andThen b).ok = (a.ok && b.ok) := rfl

@[simp] theorem onFail_ok (a : Action R) (clean : Ledger R → Ledger R) :
    (a.onFail clean).ok = a.ok := rfl

theorem andThen_effect_of_ok {a b : Action R} (h : a.ok = true) (l : Ledger R) :
    (a.andThen b).effect l = b.effect (a.effect l) := by
  show (if a.ok = true then b.effect (a.effect l) else a.effect l) = _
  rw [if_pos h]

theorem andThen_effect_of_fail {a b : Action R} (h : a.ok = false) (l : Ledger R) :
    (a.andThen b).effect l = a.effect l := by
  show (if a.ok = true then b.effect (a.effect l) else a.effect l) = _
  rw [h]
  rfl

theorem onFail_effect_of_ok {a : Action R} {clean : Ledger R → Ledger R} (h : a.ok = true)
    (l : Ledger R) : (a.onFail clean).effect l = a.effect l := by
  show (if a.ok = true then a.effect l else clean (a.effect l)) = _
  rw [if_pos h]

theorem onFail_effect_of_fail {a : Action R} {clean : Ledger R → Ledger R} (h : a.ok = false)
    (l : Ledger R) : (a.onFail clean).effect l = clean (a.effect l) := by
  show (if a.ok = true then a.effect l else clean (a.effect l)) = _
  rw [h]
  rfl

/-- A loop succeeds when all of its rounds do. -/
theorem each_ok {n : ℕ} {f : ℕ → Action R} :
    (each n f).ok = true ↔ ∀ i < n, (f i).ok = true := by
  induction n with
  | zero =>
      constructor
      · intro _ i hi
        exact absurd hi (Nat.not_lt_zero i)
      · intro _
        rfl
  | succ n ih =>
      rw [each, andThen_ok, Bool.and_eq_true, ih]
      constructor
      · intro h i hi
        rcases Nat.lt_succ_iff_lt_or_eq.mp hi with hlt | rfl
        · exact h.1 i hlt
        · exact h.2
      · intro h
        exact ⟨fun i hi => h i (Nat.lt_succ_of_lt hi), h n (Nat.lt_succ_self n)⟩

/-! ## §4. What is left alone. -/

end Action

/-- The resources with `p` are left alone. -/
def Ledger.Spares {R : Type} (p : R → Bool) (f : Ledger R → Ledger R) : Prop :=
  ∀ l, (f l).restrict p = l.restrict p

namespace Ledger

variable {R : Type} {p : R → Bool} {r : R}

theorem Spares.id : Spares p id := fun _ => rfl

theorem Spares.comp {f g : Ledger R → Ledger R} (hf : Spares p f) (hg : Spares p g) :
    Spares p fun l => g (f l) := fun l => (hg (f l)).trans (hf l)

theorem Spares.ite {c : Ledger R → Prop} [DecidablePred c] {f g : Ledger R → Ledger R}
    (hf : Spares p f) (hg : Spares p g) : Spares p fun l => if c l then f l else g l := by
  intro l
  dsimp only
  split
  · exact hf l
  · exact hg l

/-- What is left alone after it was acquired stays a leak. -/
theorem Spares.leak {f : Ledger R → Ledger R} (hf : Spares p f) (hr : p r = true) {l : Ledger R}
    (hacq : r ∈ l.acquired) (hrel : r ∉ l.released) :
    r ∈ (f l).acquired ∧ r ∉ (f l).released := by
  have hsame := hf l
  constructor
  · have hmem : r ∈ ((f l).restrict p).acquired := by
      rw [hsame]
      exact List.mem_filter.mpr ⟨hacq, hr⟩
    exact List.mem_of_mem_filter hmem
  · intro hmem
    have hin : r ∈ ((f l).restrict p).released := List.mem_filter.mpr ⟨hmem, hr⟩
    rw [hsame] at hin
    exact hrel (List.mem_of_mem_filter hin)

theorem Spares.alloc (h : p r = false) : Spares p (Ledger.alloc r) := by
  intro l
  simp [Ledger.alloc, restrict, h]

theorem Spares.write (h : p r = false) : Spares p (Ledger.write r) := by
  intro l
  simp [Ledger.write, restrict, h]

theorem Spares.release (h : p r = false) : Spares p (Ledger.release r) := by
  intro l
  simp [Ledger.release, restrict, h]

theorem Spares.stray (h : p r = false) : Spares p (Ledger.stray r) := by
  intro l
  simp [Ledger.stray, restrict, h]

theorem Spares.freeSlot [DecidableEq R] (zeroed : Bool) (h : p r = false) :
    Spares p (Ledger.freeSlot zeroed r) :=
  Spares.ite (Spares.ite (Spares.release h) Spares.id)
    (Spares.ite (c := fun _ => zeroed = true) Spares.id (Spares.stray h))

theorem Spares.free [DecidableEq R] (h : p r = false) : Spares p (Ledger.free r) :=
  Spares.freeSlot true h

theorem Spares.forEach {α : Type} {items : List α} {f : α → Ledger R → Ledger R}
    (h : ∀ a ∈ items, Spares p (f a)) : Spares p (Ledger.forEach items f) := by
  induction items with
  | nil => exact Spares.id
  | cons a items ih =>
      have hrest : Spares p (Ledger.forEach items f) :=
        ih fun b hb => h b (List.mem_cons_of_mem a hb)
      exact Spares.comp (f := f a) (h a List.mem_cons_self) hrest

end Ledger

namespace Action

open Ledger

variable {R : Type} {p : R → Bool} {r : R}

theorem spares_check (fails : Bool) : Spares p (check fails : Action R).effect := Spares.id

theorem spares_acquire (fails : Bool) (h : p r = false) : Spares p (acquire fails r).effect :=
  Spares.ite (c := fun _ => fails = true) (Spares.write h)
    (Spares.comp (Spares.alloc h) (Spares.write h))

theorem spares_unchecked (fails : Bool) (h : p r = false) :
    Spares p (unchecked fails r).effect := by
  cases fails with
  | true => exact Spares.stray h
  | false => exact Spares.alloc h

theorem spares_andThen {a b : Action R} (ha : Spares p a.effect) (hb : Spares p b.effect) :
    Spares p (a.andThen b).effect :=
  Spares.ite (c := fun _ => a.ok = true) (Spares.comp ha hb) ha

/-- What comes behind an action and leaves a part alone can be forgotten there. -/
theorem restrict_andThen {a b : Action R} (hb : Spares p b.effect) (l : Ledger R) :
    ((a.andThen b).effect l).restrict p = (a.effect l).restrict p := by
  show Ledger.restrict p (if a.ok = true then b.effect (a.effect l) else a.effect l) = _
  split
  · exact hb _
  · rfl

theorem spares_onFail {a : Action R} {clean : Ledger R → Ledger R} (ha : Spares p a.effect)
    (hclean : Spares p clean) : Spares p (a.onFail clean).effect :=
  Spares.ite (c := fun _ => a.ok = true) ha (Spares.comp ha hclean)

theorem spares_each {n : ℕ} {f : ℕ → Action R} (h : ∀ i < n, Spares p (f i).effect) :
    Spares p (each n f).effect := by
  induction n with
  | zero => exact Spares.id
  | succ n ih =>
      exact spares_andThen (ih fun i hi => h i (Nat.lt_succ_of_lt hi)) (h n (Nat.lt_succ_self n))

/-- `Q` of the part `p` behind an action that finds nothing there. -/
def Leads (p : R → Bool) (a : Action R) (Q : Ledger R → Prop) : Prop :=
  ∀ l : Ledger R, l.restrict p = Ledger.empty → Q ((a.effect l).restrict p)

theorem leads_andThen {a b : Action R} {Q : Ledger R → Prop} (ha : Spares p a.effect)
    (hfail : a.ok = false → Q Ledger.empty) (hb : a.ok = true → Leads p b Q) :
    Leads p (a.andThen b) Q := by
  intro l hl
  have hrest : (a.effect l).restrict p = Ledger.empty := (ha l).trans hl
  cases hok : a.ok with
  | true =>
      rw [andThen_effect_of_ok hok]
      exact hb hok _ hrest
  | false =>
      rw [andThen_effect_of_fail hok, hrest]
      exact hfail hok

theorem leads_onFail {a : Action R} {clean : Ledger R → Ledger R} {Q : Ledger R → Prop}
    (hclean : Spares p clean) (ha : Leads p a Q) : Leads p (a.onFail clean) Q := by
  intro l hl
  have hsame : ((a.onFail clean).effect l).restrict p = (a.effect l).restrict p := by
    show Ledger.restrict p (if a.ok = true then a.effect l else clean (a.effect l)) = _
    split
    · rfl
    · exact hclean _
  rw [hsame]
  exact ha l hl

/-! ## §5. Loops. -/

/-- **The loop rule.**  `I i` holds before round `i`; `Q` is what a failing round leaves. -/
theorem each_rule {n : ℕ} {f : ℕ → Action R} {I : ℕ → Ledger R → Prop} {Q : Ledger R → Prop}
    {l : Ledger R} (hinit : I 0 l)
    (hok : ∀ i < n, ∀ l, I i l → (f i).ok = true → I (i + 1) ((f i).effect l))
    (hfail : ∀ i < n, ∀ l, I i l → (f i).ok = false → Q ((f i).effect l)) :
    if (each n f).ok then I n ((each n f).effect l) else Q ((each n f).effect l) := by
  induction n with
  | zero => exact hinit
  | succ n ih =>
      have hbefore := ih (fun i hi => hok i (Nat.lt_succ_of_lt hi))
        (fun i hi => hfail i (Nat.lt_succ_of_lt hi))
      cases hn : (each n f).ok with
      | false =>
          rw [hn] at hbefore
          have hsucc : (each (n + 1) f).ok = false := by
            rw [each, andThen_ok, hn, Bool.false_and]
          rw [hsucc, each, andThen_effect_of_fail hn]
          exact hbefore
      | true =>
          rw [hn, if_pos rfl] at hbefore
          have hsucc : (each (n + 1) f).ok = (f n).ok := by
            rw [each, andThen_ok, hn, Bool.true_and]
          rw [hsucc, each, andThen_effect_of_ok hn]
          -- the last round
          cases hlast : (f n).ok with
          | true => exact hok n (Nat.lt_succ_self n) _ hbefore hlast
          | false => exact hfail n (Nat.lt_succ_self n) _ hbefore hlast

/-! ## §6. Series of acquisitions. -/

theorem andThen_skip (a : Action R) : a.andThen skip = a := by
  unfold andThen
  rw [skip_ok, Bool.and_true]
  congr
  funext l
  exact ite_id _

theorem andThen_assoc (a b c : Action R) :
    (a.andThen b).andThen c = a.andThen (b.andThen c) := by
  unfold andThen
  rw [Action.mk.injEq]
  refine ⟨Bool.and_assoc _ _ _, ?_⟩
  funext l
  cases a.ok with
  | true => rfl
  | false => rfl

/-- One acquisition after the other, up to the first that fails. -/
def acquireAll (noMem : R → Bool) : List R → Action R
  | [] => skip
  | r :: rs => (acquire (noMem r) r).andThen (acquireAll noMem rs)

theorem acquireAll_append (noMem : R → Bool) (xs ys : List R) :
    acquireAll noMem (xs ++ ys) = (acquireAll noMem xs).andThen (acquireAll noMem ys) := by
  induction xs with
  | nil => rfl
  | cons r xs ih => rw [List.cons_append, acquireAll, acquireAll, ih, andThen_assoc]

/-- A loop of such series is one series. -/
theorem each_acquireAll (noMem : R → Bool) (n : ℕ) (rs : ℕ → List R) :
    each n (fun i => acquireAll noMem (rs i)) = acquireAll noMem ((List.range n).flatMap rs) := by
  induction n with
  | zero => rfl
  | succ n ih =>
      rw [each, ih, List.range_succ, List.flatMap_append, acquireAll_append]
      simp

theorem acquireAll_ok {noMem : R → Bool} {rs : List R} :
    (acquireAll noMem rs).ok = true ↔ ∀ r ∈ rs, noMem r = false := by
  induction rs with
  | nil => simp [acquireAll]
  | cons r rs ih =>
      rw [acquireAll, andThen_ok, Bool.and_eq_true, ih, acquire_ok, Bool.not_eq_true',
        List.forall_mem_cons]

/-- **The first failure** leaves what comes before it, and a NULL in its own slot. -/
theorem acquireAll_effect_of_fail {noMem : R → Bool} {pre : List R} {r : R} {post : List R}
    (hpre : ∀ r ∈ pre, noMem r = false) (hr : noMem r = true) (l : Ledger R) :
    (acquireAll noMem (pre ++ r :: post)).effect l
      = { l with acquired := l.acquired ++ pre, written := l.written ++ (pre ++ [r]) } := by
  induction pre generalizing l with
  | nil =>
      have hok : (acquire (noMem r) r).ok = false := by rw [acquire_ok, hr, Bool.not_true]
      rw [List.nil_append, acquireAll, andThen_effect_of_fail hok, hr]
      simp [acquire, write]
  | cons q pre ih =>
      rw [List.forall_mem_cons] at hpre
      have hok : (acquire (noMem q) q).ok = true := by rw [acquire_ok, hpre.1, Bool.not_false]
      rw [List.cons_append, acquireAll, andThen_effect_of_ok hok, ih hpre.2, hpre.1]
      simp [acquire, alloc, write]

end Action

end Meili.Lib
