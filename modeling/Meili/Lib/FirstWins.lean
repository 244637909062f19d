/-
  Meili.Lib.FirstWins — folds in which the first value stays.

  A fold that may fail goes through a list of writes.  Where a write fills a
  register only when it is empty, the register ends up with the first value that
  was written, and a write to a full register may as well not be there.
-/
import Mathlib.Data.List.Basic

namespace Meili.Lib

section FirstWins

variable {σ ω ε α : Type*} {step : σ → ω → Except ε σ}

/-- **The first value stays.**  `get` is the register and `val` what a write has for it. -/
theorem foldlM_first (get : σ → Option α) (val : ω → Option α)
    (hstep : ∀ s o s', step s o = .ok s' → get s' = (get s).or (val o)) {l : List ω} {s s' : σ}
    (h : l.foldlM step s = .ok s') : get s' = (get s).or (l.findSome? val) := by
  induction l generalizing s with
  | nil =>
      cases h
      rw [List.findSome?_nil, Option.or_none]
  | cons o l ih =>
      rw [List.foldlM_cons] at h
      cases hs : step s o with
      | error e =>
          rw [hs] at h
          cases h
      | ok t =>
          rw [hs] at h
          rw [ih h, hstep s o t hs, Option.or_assoc, List.findSome?_cons]
          cases val o with
          | none => rw [Option.none_or]
          | some v => rw [Option.some_or]

/-- **A write without an effect** can be left out. -/
theorem foldlM_skip {l l' : List ω} {o : ω} {s t : σ} (h : l.foldlM step s = .ok t)
    (ho : step t o = .ok t) : (l ++ o :: l').foldlM step s = (l ++ l').foldlM step s := by
  rw [List.foldlM_append, List.foldlM_append, h]
  show (step t o >>= fun u => l'.foldlM step u) = l'.foldlM step t
  rw [ho]
  rfl

end FirstWins

end Meili.Lib
