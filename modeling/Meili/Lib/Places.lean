/-
  Meili.Lib.Places — tokens that move between queues.

  A place is a queue of tokens.  Tokens arrive at one place, and from then on the front of a
  place moves to the end of another one, along the edges of a graph (`Step`).  Besides what is
  at each place the state keeps the places each token has been at, its trail.

    • `Reachable.existsUnique` — a token that has arrived is at one place, once;
    • `Reachable.chain` — its trail is a walk in the graph, up to the place where it is;
    • `Reachable.sublist_arrived` — tokens with the same trail do not overtake each other;
    • `weight` — how far the tokens have to go, by the rank of their places; a move lowers it
      (`Sound.weight_move_lt`);
    • `load` — how many tokens are in a region; a move that does not enter it never adds
      (`load_move_le`).
-/
import Mathlib.Algebra.GroupWithZero.Nat
import Mathlib.Algebra.Order.BigOperators.Group.Finset
import Mathlib.Algebra.Order.BigOperators.Group.List
import Mathlib.Data.List.Chain
import Mathlib.Data.List.Sort
import Mathlib.Data.List.Sublists
import Mathlib.Logic.Function.Basic
import Meili.Lib.Runs

namespace Meili.Lib

variable {P α : Type*}

/-! ## §1. Pairs of entries. -/

section Pairs

variable {l l₁ l₂ : List α} {x y : α}

theorem pair_sublist_append :
    [x, y].Sublist (l₁ ++ l₂) ↔
      [x, y].Sublist l₁ ∨ (x ∈ l₁ ∧ y ∈ l₂) ∨ [x, y].Sublist l₂ := by
  rw [List.sublist_append_iff]
  constructor
  · intro h
    obtain ⟨r₁, r₂, heq, h₁, h₂⟩ := h
    match r₁, heq with
    | [], heq =>
        rw [List.nil_append] at heq
        exact Or.inr (Or.inr (heq ▸ h₂))
    | [a], heq =>
        obtain ⟨rfl, rfl⟩ : x = a ∧ [y] = r₂ := by simpa using heq
        exact Or.inr (Or.inl ⟨List.singleton_sublist.mp h₁, List.singleton_sublist.mp h₂⟩)
    | a :: b :: r, heq =>
        obtain ⟨rfl, rfl, rfl, rfl⟩ : x = a ∧ y = b ∧ r = [] ∧ r₂ = [] := by simpa using heq
        exact Or.inl h₁
  · intro h
    rcases h with h | ⟨hx, hy⟩ | h
    · exact ⟨[x, y], [], rfl, h, List.nil_sublist _⟩
    · exact ⟨[x], [y], rfl, List.singleton_sublist.mpr hx, List.singleton_sublist.mpr hy⟩
    · exact ⟨[], [x, y], rfl, List.nil_sublist _, h⟩

theorem left_mem_of_pair (h : [x, y].Sublist l) : x ∈ l := h.subset (by simp)

theorem right_mem_of_pair (h : [x, y].Sublist l) : y ∈ l := h.subset (by simp)

/-- Two entries of a list stand in one order or the other. -/
theorem pair_sublist_or (hx : x ∈ l) (hy : y ∈ l) (hne : x ≠ y) :
    [x, y].Sublist l ∨ [y, x].Sublist l := by
  obtain ⟨l₁, l₂, rfl⟩ := List.append_of_mem hx
  rcases List.mem_append.mp hy with hy | hy
  · exact Or.inr (pair_sublist_append.mpr (Or.inr (Or.inl ⟨hy, List.mem_cons_self ..⟩)))
  · have hy' : y ∈ l₂ := (List.mem_cons.mp hy).resolve_left hne.symm
    exact Or.inl (pair_sublist_append.mpr (Or.inr (Or.inr
      (List.Sublist.cons_cons x (List.singleton_sublist.mpr hy')))))

/-- In a list without repetition they do not stand in both. -/
theorem pair_sublist_asymm (hl : l.Nodup) (h : [x, y].Sublist l) : ¬ [y, x].Sublist l := by
  induction l with
  | nil => exact absurd (left_mem_of_pair h) (List.not_mem_nil)
  | cons a l ih =>
      obtain ⟨ha, hl⟩ := List.nodup_cons.mp hl
      intro h'
      cases h with
      | cons _ h =>
          cases h' with
          | cons _ h' => exact ih hl h h'
          | cons_cons _ h' => exact ha (right_mem_of_pair h)
      | cons_cons _ h =>
          cases h' with
          | cons _ h' => exact ha (right_mem_of_pair h')
          | cons_cons _ h' => exact ha (List.singleton_sublist.mp h)

/-- A selection of the entries of `l` in the order of `l` is a sublist of `l`. -/
theorem sublist_of_pairs {s : List α} (hs : s.Nodup) (hl : l.Nodup) (hmem : ∀ x ∈ s, x ∈ l)
    (hpairs : ∀ x y, x ∈ s → y ∈ s → [x, y].Sublist l → [x, y].Sublist s) : s.Sublist l := by
  classical
  have hfilter : s = l.filter (· ∈ s) := by
    have hasymm : ∀ x y, x ∈ s → y ∈ l.filter (· ∈ s) → [x, y].Sublist l → [y, x].Sublist l →
        x = y := fun x y _ _ hxy hyx => absurd hyx (pair_sublist_asymm hl hxy)
    refine List.Perm.eq_of_pairwise hasymm ?_ ?_ ?_
    · refine List.pairwise_iff_forall_sublist.mpr fun {x y} hxy => ?_
      have hx := left_mem_of_pair hxy
      have hy := right_mem_of_pair hxy
      have hne : x ≠ y := by
        rintro rfl
        exact absurd hxy (pair_sublist_asymm hs hxy)
      -- the other order would hold in `s` as well
      rcases pair_sublist_or (hmem x hx) (hmem y hy) hne with h | h
      · exact h
      · exact absurd (hpairs y x hy hx h) (pair_sublist_asymm hs hxy)
    · exact List.pairwise_iff_forall_sublist.mpr fun hxy => hxy.trans List.filter_sublist
    · refine (List.perm_ext_iff_of_nodup hs (hl.filter _)).mpr fun x => ?_
      simp only [List.mem_filter, decide_eq_true_eq]
      exact ⟨fun hx => ⟨hmem x hx, hx⟩, And.right⟩
  rw [hfilter]
  exact List.filter_sublist

/-- A sublist of `l` that holds everything in front of its entries is a prefix of `l`. -/
theorem prefix_of_sublist {s : List α} (hs : s.Sublist l) (hl : l.Nodup)
    (hfront : ∀ x y, [x, y].Sublist l → y ∈ s → x ∈ s) : s <+: l := by
  induction hs with
  | slnil => exact List.prefix_rfl
  | @cons s l a hs ih =>
      obtain ⟨ha, hl⟩ := List.nodup_cons.mp hl
      cases s with
      | nil => exact List.nil_prefix
      | cons y s =>
          -- `a` is in front of `y` and not in `s`
          have hy := hs.subset (List.mem_cons_self ..)
          have hpair : [a, y].Sublist (a :: l) :=
            List.Sublist.cons_cons a (List.singleton_sublist.mpr hy)
          exact absurd (hs.subset (hfront a y hpair (List.mem_cons_self ..))) ha
  | @cons_cons s l a hs ih =>
      obtain ⟨ha, hl⟩ := List.nodup_cons.mp hl
      refine List.cons_prefix_cons.mpr ⟨rfl, ih hl fun x y hxy hy => ?_⟩
      have hx := hfront x y (hxy.cons a) (List.mem_cons_of_mem a hy)
      refine (List.mem_cons.mp hx).resolve_left ?_
      rintro rfl
      exact ha (left_mem_of_pair hxy)

/-- Where every place has one way on, walks from one place are the same as far as they go. -/
theorem prefix_or_of_chain {R : α → α → Prop} (hR : ∀ a b c, R a b → R a c → b = c) {a : α}
    (h₁ : (a :: l₁).IsChain R) (h₂ : (a :: l₂).IsChain R) : l₁ <+: l₂ ∨ l₂ <+: l₁ := by
  induction l₁ generalizing a l₂ with
  | nil => exact Or.inl List.nil_prefix
  | cons b l₁ ih =>
      cases l₂ with
      | nil => exact Or.inr List.nil_prefix
      | cons c l₂ =>
          obtain ⟨hb, h₁⟩ := List.isChain_cons_cons.mp h₁
          obtain ⟨hc, h₂⟩ := List.isChain_cons_cons.mp h₂
          obtain rfl := hR a b c hb hc
          rcases ih h₁ h₂ with h | h
          · exact Or.inl (List.cons_prefix_cons.mpr ⟨rfl, h⟩)
          · exact Or.inr (List.cons_prefix_cons.mpr ⟨rfl, h⟩)

end Pairs

/-! ## §2. Tokens and places. -/

/-- What is at each place, front first; what has arrived, in order; and the places each token
has been at. -/
structure Places (P α : Type*) where
  contents : P → List α
  arrived : List α
  trail : α → List P

namespace Places

/-- Nothing has arrived. -/
def init : Places P α where
  contents := fun _ => []
  arrived := []
  trail := fun _ => []

section Moves

variable [DecidableEq P] [DecidableEq α]

/-- `xs` arrives at `a`. -/
def arrive (t : Places P α) (a : P) (xs : List α) : Places P α where
  contents := Function.update t.contents a (t.contents a ++ xs)
  arrived := t.arrived ++ xs
  trail := fun x => if x ∈ xs then [a] else t.trail x

/-- The first `k` tokens of `a` go to the end of `b`. -/
def move (t : Places P α) (a b : P) (k : ℕ) : Places P α where
  contents :=
    let rest := Function.update t.contents a ((t.contents a).drop k)
    Function.update rest b (rest b ++ (t.contents a).take k)
  arrived := t.arrived
  trail := fun x => if x ∈ (t.contents a).take k then t.trail x ++ [b] else t.trail x

/-- Tokens arrive at `entry`, and move along the edges. -/
inductive Step (entry : P) (edge : P → P → Prop) : Places P α → Places P α → Prop
  | arrive (t : Places P α) (xs : List α) :
      xs.Nodup → (∀ x ∈ xs, x ∉ t.arrived) → Step entry edge t (t.arrive entry xs)
  | move (t : Places P α) (a b : P) (k : ℕ) :
      a ≠ b → edge a b → Step entry edge t (t.move a b k)

/-- `t` occurs in some run. -/
def Reachable (entry : P) (edge : P → P → Prop) (t : Places P α) : Prop :=
  Relation.ReflTransGen (Step entry edge) init t

end Moves

/-! ## §3. The invariant. -/

/-- Every token is where its trail ends, its trail is a walk in the graph, and a token is not
ahead of an earlier one on the same trail. -/
structure Sound (entry : P) (edge : P → P → Prop) (t : Places P α) : Prop where
  arrived : t.arrived.Nodup
  nodup : ∀ a, (t.contents a).Nodup
  mem_iff : ∀ a x, x ∈ t.contents a ↔ (t.trail x).getLast? = some a
  arrived_iff : ∀ x, x ∈ t.arrived ↔ t.trail x ≠ []
  head : ∀ x, x ∈ t.arrived → (t.trail x).head? = some entry
  chain : ∀ x, (t.trail x).IsChain edge
  ordered : ∀ x y, [x, y].Sublist t.arrived → t.trail x <+: t.trail y →
    t.trail x = t.trail y ∧ ∀ a, x ∈ t.contents a → [x, y].Sublist (t.contents a)

variable {entry : P} {edge : P → P → Prop} {t : Places P α}

theorem Sound.init : Sound entry edge (Places.init : Places P α) where
  arrived := List.nodup_nil
  nodup := fun _ => List.nodup_nil
  mem_iff := fun _ _ => by simp [Places.init]
  arrived_iff := fun _ => by simp [Places.init]
  head := fun _ h => absurd h (List.not_mem_nil)
  chain := fun _ => List.isChain_nil
  ordered := fun _ _ h => absurd (left_mem_of_pair h) (List.not_mem_nil)

/-- A token at a place has arrived. -/
theorem Sound.mem_arrived (h : Sound entry edge t) {a : P} {x : α} (hx : x ∈ t.contents a) :
    x ∈ t.arrived := by
  rw [h.arrived_iff]
  intro hnil
  have hlast := (h.mem_iff a x).mp hx
  rw [hnil] at hlast
  cases hlast

/-- A token is not at two places. -/
theorem Sound.place_eq (h : Sound entry edge t) {a b : P} {x : α} (ha : x ∈ t.contents a)
    (hb : x ∈ t.contents b) : a = b := by
  have hla := (h.mem_iff a x).mp ha
  rw [(h.mem_iff b x).mp hb] at hla
  exact (Option.some.inj hla).symm

/-- The front of a place and the rest of it have nothing in common. -/
theorem Sound.front_disjoint (h : Sound entry edge t) (a : P) (k : ℕ) :
    List.Disjoint ((t.contents a).take k) ((t.contents a).drop k) := by
  have hnodup := h.nodup a
  rw [← List.take_append_drop k (t.contents a)] at hnodup
  exact List.disjoint_of_nodup_append hnodup

variable [DecidableEq P] [DecidableEq α]

theorem arrive_contents_self (t : Places P α) (a : P) (xs : List α) :
    (t.arrive a xs).contents a = t.contents a ++ xs :=
  Function.update_self ..

theorem arrive_contents_of_ne (t : Places P α) {a b : P} (xs : List α) (hb : b ≠ a) :
    (t.arrive a xs).contents b = t.contents b :=
  Function.update_of_ne hb ..

theorem arrive_trail_of_mem (t : Places P α) (a : P) {xs : List α} {x : α} (hx : x ∈ xs) :
    (t.arrive a xs).trail x = [a] :=
  if_pos hx

theorem arrive_trail_of_not_mem (t : Places P α) (a : P) {xs : List α} {x : α} (hx : x ∉ xs) :
    (t.arrive a xs).trail x = t.trail x :=
  if_neg hx

/-- An arrival adds to the end of one place. -/
theorem arrive_contents_sublist (t : Places P α) (a b : P) (xs : List α) :
    (t.contents b).Sublist ((t.arrive a xs).contents b) := by
  by_cases hb : b = a
  · rw [hb, arrive_contents_self]
    exact List.sublist_append_left _ _
  · rw [arrive_contents_of_ne t xs hb]

theorem Sound.arrive (h : Sound entry edge t) {xs : List α} (hxs : xs.Nodup)
    (hfresh : ∀ x ∈ xs, x ∉ t.arrived) : Sound entry edge (t.arrive entry xs) := by
  have hnew : ∀ x ∈ t.arrived, (t.arrive entry xs).trail x = t.trail x := fun x hx =>
    arrive_trail_of_not_mem t entry fun hmem => hfresh x hmem hx
  refine ⟨?_, fun a => ?_, fun a x => ?_, fun x => ?_, fun x hx => ?_, fun x => ?_,
    fun x y hxy hpre => ?_⟩
  · refine List.nodup_append.mpr ⟨h.arrived, hxs, ?_⟩
    rintro a ha b hb rfl
    exact hfresh a hb ha
  · by_cases ha : a = entry
    · rw [ha, arrive_contents_self]
      refine List.nodup_append.mpr ⟨h.nodup entry, hxs, ?_⟩
      rintro a ha b hb rfl
      exact hfresh a hb (h.mem_arrived ha)
    · rw [arrive_contents_of_ne t xs ha]
      exact h.nodup a
  · by_cases hx : x ∈ xs
    · rw [arrive_trail_of_mem t entry hx, List.getLast?_singleton, Option.some_inj]
      constructor
      · intro hmem
        by_contra hne
        rw [arrive_contents_of_ne t xs (Ne.symm hne)] at hmem
        exact hfresh x hx (h.mem_arrived hmem)
      · rintro rfl
        rw [arrive_contents_self]
        exact List.mem_append_right _ hx
    · rw [arrive_trail_of_not_mem t entry hx, ← h.mem_iff]
      by_cases ha : a = entry
      · rw [ha, arrive_contents_self, List.mem_append, or_iff_left hx]
      · rw [arrive_contents_of_ne t xs ha]
  · show x ∈ t.arrived ++ xs ↔ _
    by_cases hx : x ∈ xs
    · rw [arrive_trail_of_mem t entry hx]
      exact iff_of_true (List.mem_append_right _ hx) (List.cons_ne_nil _ _)
    · rw [arrive_trail_of_not_mem t entry hx, ← h.arrived_iff, List.mem_append, or_iff_left hx]
  · rcases List.mem_append.mp hx with hx | hx
    · rw [hnew x hx]
      exact h.head x hx
    · rw [arrive_trail_of_mem t entry hx]
      rfl
  · by_cases hx : x ∈ xs
    · rw [arrive_trail_of_mem t entry hx]
      exact List.isChain_singleton _
    · rw [arrive_trail_of_not_mem t entry hx]
      exact h.chain x
  · rcases pair_sublist_append.mp hxy with hxy | ⟨hx, hy⟩ | hxy
    · -- both have been there before
      rw [hnew x (left_mem_of_pair hxy), hnew y (right_mem_of_pair hxy)] at hpre ⊢
      obtain ⟨heq, hsub⟩ := h.ordered x y hxy hpre
      refine ⟨heq, fun a hmem => (hsub a ?_).trans (arrive_contents_sublist t entry a xs)⟩
      have hx := left_mem_of_pair hxy
      by_cases ha : a = entry
      · rw [ha, arrive_contents_self, List.mem_append] at hmem
        rw [ha]
        exact hmem.resolve_right fun hmem => hfresh x hmem hx
      · rwa [arrive_contents_of_ne t xs ha] at hmem
    · -- `x` has not left `entry`, and `y` is new
      rw [hnew x hx, arrive_trail_of_mem t entry hy] at hpre ⊢
      have hnil := (h.arrived_iff x).mp hx
      have heq : t.trail x = [entry] := by
        have hpre : t.trail x <+: [] ++ [entry] := hpre
        rcases List.prefix_concat_iff.mp hpre with heq | heq
        · exact heq
        · exact absurd (List.prefix_nil.mp heq) hnil
      have hat : x ∈ t.contents entry := (h.mem_iff entry x).mpr (by rw [heq]; rfl)
      refine ⟨heq, fun a hmem => ?_⟩
      have ha : a = entry := by
        by_contra hne
        rw [arrive_contents_of_ne t xs hne] at hmem
        exact hne (h.place_eq hmem hat)
      rw [ha, arrive_contents_self]
      exact pair_sublist_append.mpr (Or.inr (Or.inl ⟨hat, hy⟩))
    · have hx := left_mem_of_pair hxy
      rw [arrive_trail_of_mem t entry hx, arrive_trail_of_mem t entry (right_mem_of_pair hxy)]
      refine ⟨rfl, fun a hmem => ?_⟩
      have ha : a = entry := by
        by_contra hne
        rw [arrive_contents_of_ne t xs hne] at hmem
        exact hfresh x hx (h.mem_arrived hmem)
      rw [ha, arrive_contents_self]
      exact hxy.trans (List.sublist_append_right _ _)

section Move

variable {a b : P} {k : ℕ}

theorem move_contents_source (t : Places P α) (hab : a ≠ b) (k : ℕ) :
    (t.move a b k).contents a = (t.contents a).drop k := by
  show Function.update _ b _ a = _
  rw [Function.update_of_ne hab, Function.update_self]

theorem move_contents_target (t : Places P α) (hab : a ≠ b) (k : ℕ) :
    (t.move a b k).contents b = t.contents b ++ (t.contents a).take k := by
  show Function.update _ b _ b = _
  rw [Function.update_self, Function.update_of_ne hab.symm]

theorem move_contents_of_ne (t : Places P α) {c : P} (hca : c ≠ a) (hcb : c ≠ b) (k : ℕ) :
    (t.move a b k).contents c = t.contents c := by
  show Function.update _ b _ c = _
  rw [Function.update_of_ne hcb, Function.update_of_ne hca]

theorem eq_move_contents (t : Places P α) (hab : a ≠ b) {c : P → List α}
    (hsource : c a = (t.contents a).drop k) (htarget : c b = t.contents b ++ (t.contents a).take k)
    (hother : ∀ x, x ≠ a → x ≠ b → c x = t.contents x) : (t.move a b k).contents = c := by
  funext x
  by_cases hxa : x = a
  · rw [hxa, move_contents_source t hab, hsource]
  · by_cases hxb : x = b
    · rw [hxb, move_contents_target t hab, htarget]
    · rw [move_contents_of_ne t hxa hxb, hother x hxa hxb]

theorem move_trail_of_mem (t : Places P α) (b : P) {x : α} (hx : x ∈ (t.contents a).take k) :
    (t.move a b k).trail x = t.trail x ++ [b] :=
  if_pos hx

theorem move_trail_of_not_mem (t : Places P α) (b : P) {x : α}
    (hx : x ∉ (t.contents a).take k) : (t.move a b k).trail x = t.trail x :=
  if_neg hx

/-- What stays in its place keeps its order there. -/
theorem pair_of_stayed (t : Places P α) (hab : a ≠ b) {x y : α} {c : P}
    (hx : x ∉ (t.contents a).take k) (hpair : [x, y].Sublist (t.contents c)) :
    [x, y].Sublist ((t.move a b k).contents c) := by
  by_cases hca : c = a
  · subst hca
    rw [← List.take_append_drop k (t.contents c), pair_sublist_append] at hpair
    rw [move_contents_source t hab]
    rcases hpair with hpair | ⟨hmem, -⟩ | hpair
    · exact absurd (left_mem_of_pair hpair) hx
    · exact absurd hmem hx
    · exact hpair
  · by_cases hcb : c = b
    · rw [hcb, move_contents_target t hab]
      exact (hcb ▸ hpair).trans (List.sublist_append_left _ _)
    · rw [move_contents_of_ne t hca hcb]
      exact hpair

/-- What has moved on is at the new place only. -/
theorem Sound.place_of_moved (h : Sound entry edge t) (hab : a ≠ b) {x : α} {c : P}
    (hx : x ∈ (t.contents a).take k) (hc : x ∈ (t.move a b k).contents c) : c = b := by
  have hxa := List.mem_of_mem_take hx
  by_contra hcb
  by_cases hca : c = a
  · rw [hca, move_contents_source t hab] at hc
    exact h.front_disjoint a k hx hc
  · rw [move_contents_of_ne t hca hcb] at hc
    exact hca (h.place_eq hc hxa)

/-- What stays is where it was. -/
theorem mem_of_stayed (t : Places P α) (hab : a ≠ b) {x : α} {c : P}
    (hx : x ∉ (t.contents a).take k) : x ∈ (t.move a b k).contents c ↔ x ∈ t.contents c := by
  by_cases hca : c = a
  · rw [hca, move_contents_source t hab]
    conv_rhs => rw [← List.take_append_drop k (t.contents a), List.mem_append, or_iff_right hx]
  · by_cases hcb : c = b
    · rw [hcb, move_contents_target t hab, List.mem_append, or_iff_left hx]
    · rw [move_contents_of_ne t hca hcb]

theorem Sound.move_mem_iff (h : Sound entry edge t) (hab : a ≠ b) (k : ℕ) (c : P) (x : α) :
    x ∈ (t.move a b k).contents c ↔ ((t.move a b k).trail x).getLast? = some c := by
  by_cases hx : x ∈ (t.contents a).take k
  · rw [move_trail_of_mem t b hx, List.getLast?_append_of_ne_nil _ (List.cons_ne_nil _ _),
      List.getLast?_singleton, Option.some_inj]
    constructor
    · intro hc
      exact (h.place_of_moved hab hx hc).symm
    · rintro rfl
      rw [move_contents_target t hab]
      exact List.mem_append_right _ hx
  · rw [move_trail_of_not_mem t b hx, mem_of_stayed t hab hx]
    exact h.mem_iff c x

/-- **A move keeps the order**: it takes the front of a place, and everything of the same trail
that is ahead of the front has moved before. -/
theorem Sound.move_ordered (h : Sound entry edge t) (hab : a ≠ b) (k : ℕ) {x y : α}
    (hxy : [x, y].Sublist t.arrived)
    (hpre : (t.move a b k).trail x <+: (t.move a b k).trail y) :
    (t.move a b k).trail x = (t.move a b k).trail y
      ∧ ∀ c, x ∈ (t.move a b k).contents c → [x, y].Sublist ((t.move a b k).contents c) := by
  by_cases hx : x ∈ (t.contents a).take k
  · have hxa := List.mem_of_mem_take hx
    by_cases hy : y ∈ (t.contents a).take k
    · -- both move on
      rw [move_trail_of_mem t b hx, move_trail_of_mem t b hy] at hpre ⊢
      have hpre' : t.trail x <+: t.trail y := by
        rcases List.prefix_concat_iff.mp hpre with heq | hpre
        · exact ⟨[], (List.append_nil _).trans (List.append_inj_left' heq rfl)⟩
        · exact (List.prefix_append _ _).trans hpre
      obtain ⟨heq, hsub⟩ := h.ordered x y hxy hpre'
      refine ⟨by rw [heq], fun c hc => ?_⟩
      have hcb := h.place_of_moved hab hx hc
      have hpair := hsub a hxa
      rw [← List.take_append_drop k (t.contents a), pair_sublist_append] at hpair
      rw [hcb, move_contents_target t hab]
      refine List.Sublist.trans ?_ (List.sublist_append_right _ _)
      have hdisjoint := h.front_disjoint a k
      rcases hpair with hpair | ⟨-, hmem⟩ | hpair
      · exact hpair
      · exact absurd hmem (hdisjoint hy)
      · exact absurd (right_mem_of_pair hpair) (hdisjoint hy)
    · -- `y` would have been ahead of `x`
      rw [move_trail_of_mem t b hx, move_trail_of_not_mem t b hy] at hpre
      obtain ⟨heq, -⟩ := h.ordered x y hxy ((List.prefix_append _ _).trans hpre)
      have hlen := hpre.length_le
      rw [heq, List.length_append, List.length_singleton] at hlen
      omega
  · rw [move_trail_of_not_mem t b hx] at hpre ⊢
    by_cases hy : y ∈ (t.contents a).take k
    · have hya := List.mem_of_mem_take hy
      rw [move_trail_of_mem t b hy] at hpre ⊢
      rcases List.prefix_concat_iff.mp hpre with heq | hpre
      · -- `x` has moved to `b` before
        have hxb : x ∈ t.contents b := (h.mem_iff b x).mpr (by
          rw [heq, List.getLast?_append_of_ne_nil _ (List.cons_ne_nil _ _),
            List.getLast?_singleton])
        refine ⟨heq, fun c hc => ?_⟩
        have hcb : c = b := h.place_eq ((mem_of_stayed t hab hx).mp hc) hxb
        rw [hcb, move_contents_target t hab]
        exact pair_sublist_append.mpr (Or.inr (Or.inl ⟨hxb, hy⟩))
      · -- `x` is before `y` at `a`, so it moves when `y` does
        obtain ⟨heq, hsub⟩ := h.ordered x y hxy hpre
        have hxa : x ∈ t.contents a := (h.mem_iff a x).mpr (by
          rw [heq]
          exact (h.mem_iff a y).mp hya)
        have hpair := hsub a hxa
        have hdisjoint := h.front_disjoint a k
        rw [← List.take_append_drop k (t.contents a), pair_sublist_append] at hpair
        rcases hpair with hpair | ⟨hmem, -⟩ | hpair
        · exact absurd (left_mem_of_pair hpair) hx
        · exact absurd hmem hx
        · exact absurd (right_mem_of_pair hpair) (hdisjoint hy)
    · rw [move_trail_of_not_mem t b hy] at hpre ⊢
      obtain ⟨heq, hsub⟩ := h.ordered x y hxy hpre
      exact ⟨heq, fun c hc =>
        pair_of_stayed t hab hx (hsub c ((mem_of_stayed t hab hx).mp hc))⟩

theorem Sound.move (h : Sound entry edge t) (hab : a ≠ b) (hedge : edge a b) (k : ℕ) :
    Sound entry edge (t.move a b k) where
  arrived := h.arrived
  nodup := by
    intro c
    by_cases hca : c = a
    · rw [hca, move_contents_source t hab]
      exact (h.nodup a).sublist (List.drop_sublist _ _)
    · by_cases hcb : c = b
      · rw [hcb, move_contents_target t hab]
        refine List.nodup_append.mpr ⟨h.nodup b, (h.nodup a).sublist (List.take_sublist _ _), ?_⟩
        rintro x hxb y hy rfl
        exact hab (h.place_eq (List.mem_of_mem_take hy) hxb)
      · rw [move_contents_of_ne t hca hcb]
        exact h.nodup c
  mem_iff := h.move_mem_iff hab k
  arrived_iff := by
    intro x
    show x ∈ t.arrived ↔ _
    by_cases hx : x ∈ (t.contents a).take k
    · rw [move_trail_of_mem t b hx]
      exact iff_of_true (h.mem_arrived (List.mem_of_mem_take hx)) (by simp)
    · rw [move_trail_of_not_mem t b hx]
      exact h.arrived_iff x
  head := by
    intro x hx
    have hhead := h.head x hx
    by_cases hmem : x ∈ (t.contents a).take k
    · rw [move_trail_of_mem t b hmem, List.head?_append, hhead]
      rfl
    · rw [move_trail_of_not_mem t b hmem]
      exact hhead
  chain := by
    intro x
    by_cases hx : x ∈ (t.contents a).take k
    · rw [move_trail_of_mem t b hx, List.isChain_append]
      refine ⟨h.chain x, List.isChain_singleton _, ?_⟩
      intro c hc d hd
      -- the trail of a token at `a` ends there
      rw [(h.mem_iff a x).mp (List.mem_of_mem_take hx)] at hc
      obtain rfl : a = c := by simpa using hc
      obtain rfl : b = d := by simpa using hd
      exact hedge
    · rw [move_trail_of_not_mem t b hx]
      exact h.chain x
  ordered := fun x y hxy hpre => h.move_ordered hab k hxy hpre

end Move

/-! ## §4. Every run. -/

theorem Sound.step {t' : Places P α} (h : Sound entry edge t) (hstep : Step entry edge t t') :
    Sound entry edge t' := by
  cases hstep with
  | arrive xs hxs hfresh => exact h.arrive hxs hfresh
  | move a b k hab hedge => exact h.move hab hedge k

theorem Reachable.sound (h : Reachable entry edge t) : Sound entry edge t :=
  ReflTransGen.invariant (Sound entry edge) Sound.init (fun _ _ hx hs => hx.step hs) h

/-- **What has arrived is at one place.** -/
theorem Reachable.existsUnique (h : Reachable entry edge t) {x : α} (hx : x ∈ t.arrived) :
    ∃! a, x ∈ t.contents a := by
  have hsound := h.sound
  have hne := (hsound.arrived_iff x).mp hx
  refine ⟨(t.trail x).getLast hne, ?_, ?_⟩
  · exact (hsound.mem_iff _ x).mpr (List.getLast?_eq_some_getLast hne)
  · intro a ha
    have hlast := (hsound.mem_iff a x).mp ha
    rw [List.getLast?_eq_some_getLast hne] at hlast
    exact (Option.some.inj hlast).symm

/-- Fewer tokens are at a place than have arrived, exactly when there are others elsewhere. -/
theorem Reachable.length_lt_iff (h : Reachable entry edge t) (f : P) :
    (t.contents f).length < t.arrived.length ↔ ∃ a, a ≠ f ∧ t.contents a ≠ [] := by
  have hsound := h.sound
  constructor
  · intro hlt
    by_contra hnone
    have hsub : t.arrived ⊆ t.contents f := by
      intro x hx
      obtain ⟨a, ha, -⟩ := h.existsUnique hx
      by_contra hf
      exact hnone ⟨a, fun heq => hf (heq ▸ ha), List.ne_nil_of_mem ha⟩
    have hle := hsound.arrived.length_le_of_subset hsub
    omega
  · intro ⟨a, hne, hcontents⟩
    obtain ⟨x, hx⟩ := List.exists_mem_of_ne_nil _ hcontents
    have hf : x ∉ t.contents f := fun hf => hne (hsound.place_eq hx hf)
    -- one more token than those at `f`
    have hle : (x :: t.contents f).length ≤ t.arrived.length := by
      refine (List.nodup_cons.mpr ⟨hf, hsound.nodup f⟩).length_le_of_subset ?_
      refine List.cons_subset.mpr ⟨hsound.mem_arrived hx, fun y hy => hsound.mem_arrived hy⟩
    rw [List.length_cons] at hle
    omega

/-- **Tokens with the same trail do not overtake each other.** -/
theorem Reachable.sublist_arrived (h : Reachable entry edge t) {s : List α} {a : P}
    (hs : s.Sublist (t.contents a))
    (htrail : ∀ x ∈ s, ∀ y ∈ s, t.trail x = t.trail y) : s.Sublist t.arrived := by
  have hsound := h.sound
  have hnodup := (hsound.nodup a).sublist hs
  refine sublist_of_pairs hnodup hsound.arrived
    (fun x hx => hsound.mem_arrived (hs.subset hx)) fun x y hx hy hxy => ?_
  have hpre : t.trail x <+: t.trail y := ⟨[], (List.append_nil _).trans (htrail x hx y hy)⟩
  have hpair := (hsound.ordered x y hxy hpre).2 a (hs.subset hx)
  -- both are in the selection, which keeps the order of the place
  have hne : x ≠ y := by
    rintro rfl
    exact pair_sublist_asymm hsound.arrived hxy hxy
  rcases pair_sublist_or hx hy hne with h | h
  · exact h
  · exact absurd (h.trans hs) (pair_sublist_asymm (hsound.nodup a) hpair)

/-- **Where every place has one way on, tokens leave in the order of their arrival**, and none is
left behind. -/
theorem Reachable.prefix_arrived (h : Reachable entry edge t)
    (hedge : ∀ a b c, edge a b → edge a c → b = c) {f : P} (hf : ∀ b, ¬ edge f b) :
    t.contents f <+: t.arrived := by
  have hsound := h.sound
  -- from one place on, the trail of a token at `f` is the longest
  have hlongest : ∀ x y, x ∈ t.arrived → y ∈ t.contents f → t.trail x <+: t.trail y := by
    intro x y hx hy
    have hx₀ := hsound.head x hx
    have hy₀ := hsound.head y (hsound.mem_arrived hy)
    have hlast := (hsound.mem_iff f y).mp hy
    have hchain := hsound.chain x
    obtain ⟨l₁, h₁⟩ := List.head?_eq_some_iff.mp hx₀
    obtain ⟨l₂, h₂⟩ := List.head?_eq_some_iff.mp hy₀
    rw [h₁] at hchain
    rcases prefix_or_of_chain hedge hchain (h₂ ▸ hsound.chain y) with hpre | hpre
    · rw [h₁, h₂]
      exact List.cons_prefix_cons.mpr ⟨rfl, hpre⟩
    · obtain ⟨l, rfl⟩ := hpre
      cases l with
      | nil =>
          refine ⟨[], ?_⟩
          rw [h₁, h₂, List.append_nil, List.append_nil]
      | cons b l =>
          -- there is no way on from `f`
          rw [← List.cons_append, ← h₂, List.isChain_append] at hchain
          exact absurd (hchain.2.2 f hlast b rfl) (hf b)
  have hsame : ∀ x y, [x, y].Sublist t.arrived → y ∈ t.contents f → x ∈ t.contents f := by
    intro x y hxy hy
    obtain ⟨heq, -⟩ := hsound.ordered x y hxy (hlongest x y (left_mem_of_pair hxy) hy)
    rw [hsound.mem_iff, heq]
    exact (hsound.mem_iff f y).mp hy
  refine prefix_of_sublist (h.sublist_arrived (List.Sublist.refl _) fun x hx y hy => ?_)
    hsound.arrived hsame
  exact (hlongest x y (hsound.mem_arrived hx) hy).eq_of_length_le
    (hlongest y x (hsound.mem_arrived hy) hx).length_le

/-! ## §5. How far the tokens have to go. -/

/-- The ranks of the places where the tokens are, added up. -/
def weight (rank : P → ℕ) (t : Places P α) : ℕ :=
  (t.arrived.map fun x => (t.trail x).getLast?.elim 0 rank).sum

/-- **A move lowers the weight** when ranks fall along the edges. -/
theorem Sound.weight_move_lt (h : Sound entry edge t) {rank : P → ℕ} {a b : P}
    (hrank : rank b < rank a) {k : ℕ} (hk : 0 < k) (hne : t.contents a ≠ []) :
    (t.move a b k).weight rank < t.weight rank := by
  have hlast : ∀ x ∈ (t.contents a).take k, (t.trail x).getLast? = some a := fun x hx =>
    (h.mem_iff a x).mp (List.mem_of_mem_take hx)
  have hmoved : ∀ x ∈ (t.contents a).take k,
      ((t.move a b k).trail x).getLast?.elim 0 rank < (t.trail x).getLast?.elim 0 rank := by
    intro x hx
    rw [move_trail_of_mem t b hx, List.getLast?_concat, hlast x hx]
    exact hrank
  refine List.sum_lt_sum _ _ (fun x _ => ?_) ?_
  · by_cases hx : x ∈ (t.contents a).take k
    · exact (hmoved x hx).le
    · rw [move_trail_of_not_mem t b hx]
  · -- the token in front
    obtain ⟨x, l, hcons⟩ := List.exists_cons_of_ne_nil hne
    have hx : x ∈ (t.contents a).take k := by
      rw [hcons, List.take_cons hk]
      exact List.mem_cons_self
    exact ⟨x, h.mem_arrived (List.mem_of_mem_take hx), hmoved x hx⟩

/-- A move of no tokens. -/
theorem move_zero (t : Places P α) (a b : P) : t.move a b 0 = t := by
  have hcontents : (t.move a b 0).contents = t.contents := by
    unfold move
    dsimp only
    rw [List.drop_zero, List.take_zero, Function.update_eq_self, List.append_nil,
      Function.update_eq_self]
  have htrail : (t.move a b 0).trail = t.trail := by
    funext x
    exact move_trail_of_not_mem t b (by simp)
  show Places.mk (t.move a b 0).contents t.arrived (t.move a b 0).trail = t
  rw [hcontents, htrail]

/-! ## §6. Regions. -/

/-- How many tokens are in a region. -/
def load (region : Finset P) (contents : P → List α) : ℕ :=
  ∑ a ∈ region, (contents a).length

section Load

variable {region : Finset P} {contents contents' : P → List α} {a b : P} {k : ℕ}

omit [DecidableEq α] in
/-- `k` tokens at most come in where a place gains `k`, and the others none. -/
theorem load_le_add (hb : (contents' b).length ≤ (contents b).length + k)
    (hother : ∀ x, x ≠ b → (contents' x).length ≤ (contents x).length) :
    load region contents' ≤ load region contents + k := by
  by_cases hmem : b ∈ region
  · unfold load
    rw [← Finset.add_sum_erase _ _ hmem, ← Finset.add_sum_erase region _ hmem]
    have hrest : ∑ x ∈ region.erase b, (contents' x).length
        ≤ ∑ x ∈ region.erase b, (contents x).length :=
      Finset.sum_le_sum fun x hx => hother x (Finset.ne_of_mem_erase hx)
    omega
  · have hle : load region contents' ≤ load region contents :=
      Finset.sum_le_sum fun x hx => hother x fun heq => hmem (heq ▸ hx)
    omega

omit [DecidableEq α] in
/-- **A move that does not enter the region** adds nothing to it. -/
theorem load_move_le (hab : a ≠ b) (henter : b ∈ region → a ∈ region)
    (hsource : contents' a = (contents a).drop k)
    (htarget : contents' b = contents b ++ (contents a).take k)
    (hother : ∀ x, x ≠ a → x ≠ b → contents' x = contents x) :
    load region contents' ≤ load region contents := by
  by_cases hmem : b ∈ region
  · have ha := henter hmem
    have ha' : a ∈ region.erase b := Finset.mem_erase.mpr ⟨hab, ha⟩
    unfold load
    rw [← Finset.add_sum_erase _ _ hmem, ← Finset.add_sum_erase region _ hmem,
      ← Finset.add_sum_erase _ _ ha', ← Finset.add_sum_erase (region.erase b) _ ha']
    have hrest : ∑ x ∈ (region.erase b).erase a, (contents' x).length
        = ∑ x ∈ (region.erase b).erase a, (contents x).length := by
      refine Finset.sum_congr rfl fun x hx => ?_
      obtain ⟨hxa, hx⟩ := Finset.mem_erase.mp hx
      rw [hother x hxa (Finset.ne_of_mem_erase hx)]
    rw [hrest, hsource, htarget, List.length_append, List.length_take, List.length_drop]
    omega
  · refine Finset.sum_le_sum fun x hx => ?_
    have hxb : x ≠ b := fun heq => hmem (heq ▸ hx)
    by_cases hxa : x = a
    · rw [hxa, hsource, List.length_drop]
      omega
    · rw [hother x hxa hxb]

end Load

end Places

end Meili.Lib
