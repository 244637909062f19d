/-
  Meili.Lib.Selection — sort by a key, then take the first that passes a test.

  A selection sorts a list by a key, the greatest first and equal keys in the order of
  the list, and takes the first entry that passes a test.  The sort ranks the
  entries that fail the test as well; `FirstBest` says that the entry found is
  nevertheless the best of those that pass, and the earliest of the best.
-/
import Mathlib.Data.List.Sort
import Mathlib.Order.Basic

namespace Meili.Lib

variable {α κ : Type*} [LinearOrder κ]

/-- The entries of `l`, the greatest keys first; equal keys keep their order. -/
def descending (key : α → κ) (l : List α) : List α :=
  l.insertionSort fun a b => key b ≤ key a

/-- `a` is the earliest of the best entries of `l` that pass `p`. -/
structure FirstBest (key : α → κ) (p : α → Bool) (l : List α) (a : α) : Prop where
  pass : p a = true
  best : ∀ b ∈ l, p b = true → key b ≤ key a
  first : ∃ i : ℕ, l[i]? = some a ∧
    ∀ j < i, ∀ b, l[j]? = some b → p b = true → key b < key a

section Descending

variable {key : α → κ} {p : α → Bool} {l : List α} {a : α}

theorem mem_descending : a ∈ descending key l ↔ a ∈ l := List.mem_insertionSort _

theorem descending_pairwise (key : α → κ) (l : List α) :
    (descending key l).Pairwise fun a b => key b ≤ key a := by
  have htotal : Std.Total fun a b : α => key b ≤ key a := ⟨fun a b => le_total (key b) (key a)⟩
  have htrans : IsTrans α fun a b => key b ≤ key a := ⟨fun a b c hab hbc => hbc.trans hab⟩
  exact List.pairwise_insertionSort _ l

/-- **Stability**: the entries of one key are in their old order. -/
theorem descending_filter (key : α → κ) (l : List α) (k : κ) :
    (descending key l).filter (fun b => key b = k) = l.filter (fun b => key b = k) := by
  have hequal : (l.filter fun b => key b = k).Pairwise fun a b => key b ≤ key a := by
    rw [List.pairwise_filter]
    apply List.pairwise_of_forall_mem_list
    intro a _ b _ ha hb
    rw [of_decide_eq_true ha, of_decide_eq_true hb]
  have hsub : (l.filter fun b => key b = k).Sublist (descending key l) :=
    List.sublist_insertionSort hequal List.filter_sublist
  have hfilter := hsub.filter fun b => key b = k
  rw [List.filter_filter] at hfilter
  simp only [Bool.and_self] at hfilter
  have hperm : (descending key l).Perm l := List.perm_insertionSort _ l
  exact (hfilter.eq_of_length (hperm.filter _).length_eq.symm).symm

/-- **The entry found is the earliest of the best.** -/
theorem firstBest_of_find? (h : (descending key l).find? p = some a) :
    FirstBest key p l a := by
  obtain ⟨hpass, as, bs, hsplit, hbefore⟩ := List.find?_eq_some_iff_append.mp h
  have hbest : ∀ b ∈ l, p b = true → key b ≤ key a := by
    intro b hb hpb
    have hmem : b ∈ descending key l := mem_descending.mpr hb
    rw [hsplit] at hmem
    have hsorted := descending_pairwise key l
    rw [hsplit] at hsorted
    rcases List.mem_append.mp hmem with hb | hb
    · -- in front of the entry found nothing passes
      have hfail := hbefore b hb
      rw [hpb] at hfail
      exact absurd hfail (by decide)
    · rcases List.mem_cons.mp hb with rfl | hb
      · exact le_refl _
      · exact (List.pairwise_cons.mp (List.pairwise_append.mp hsorted).2.1).1 b hb
  refine ⟨hpass, hbest, ?_⟩
  -- among the entries with this key, the order is the one of the list
  have hfound : ((descending key l).filter fun b => key b = key a).find? p = some a := by
    rw [List.find?_filter]
    refine List.find?_eq_some_iff_append.mpr ⟨by simp [hpass], as, bs, hsplit, ?_⟩
    intro b hb
    have hfail := hbefore b hb
    rw [Bool.not_eq_true'] at hfail
    simp [hfail]
  rw [descending_filter, List.find?_filter] at hfound
  obtain ⟨-, i, hi, hget, hearlier⟩ := List.find?_eq_some_iff_getElem.mp hfound
  refine ⟨i, by rw [List.getElem?_eq_getElem hi, hget], ?_⟩
  intro j hj b hb hpb
  obtain ⟨hjl, rfl⟩ := List.getElem?_eq_some_iff.mp hb
  have hne : key l[j] ≠ key a := by
    intro heq
    have hfail := hearlier j hj
    simp [heq, hpb] at hfail
  exact lt_of_le_of_ne (hbest _ (List.getElem_mem hjl) hpb) hne

/-- Nothing is found when nothing passes. -/
theorem find?_descending_eq_none_iff :
    (descending key l).find? p = none ↔ ∀ b ∈ l, p b = false := by
  rw [List.find?_eq_none]
  simp only [mem_descending, Bool.not_eq_true]

end Descending

end Meili.Lib
