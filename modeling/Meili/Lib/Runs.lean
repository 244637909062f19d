/-
  Meili.Lib.Runs — runs of a transition relation and of a partial step function.

  Two readings of "the program runs":

    • a RELATION `r` between states (interleavings, environment choices):
      the reachable states are `Relation.ReflTransGen r`;
    • a partial FUNCTION `step : σ → Option σ` (a deterministic loop):
      `step a = none` means the loop has stopped in `a`.

  `ReflTransGen.invariant` packages the induction over a run once; for the
  functional reading, `Reaches.of_halted` says that the stopping state lies
  ahead of every reachable state, and `exists_halted_of_measure` turns a
  decreasing measure into termination.
-/
import Mathlib.Logic.Relation
import Mathlib.Order.Basic

namespace Meili.Lib

/-! ## §1. Invariants of a relation. -/

/-- **The invariant rule.**  What holds initially and is preserved by every
step holds in every reachable state. -/
theorem ReflTransGen.invariant {σ : Type*} {r : σ → σ → Prop} (I : σ → Prop) {a b : σ}
    (h0 : I a) (hstep : ∀ x y, I x → r x y → I y)
    (h : Relation.ReflTransGen r a b) : I b := by
  induction h with
  | refl => exact h0
  | tail _ hxy ih => exact hstep _ _ ih hxy

/-- The invariant rule where a step may use that its source is reachable. -/
theorem ReflTransGen.invariant_reachable {σ : Type*} {r : σ → σ → Prop} (I : σ → Prop) {a b : σ}
    (h0 : I a) (hstep : ∀ x y, Relation.ReflTransGen r a x → I x → r x y → I y)
    (h : Relation.ReflTransGen r a b) : I b := by
  induction h with
  | refl => exact h0
  | tail hax hxy ih => exact hstep _ _ hax ih hxy

/-! ## §2. Runs of a partial step function. -/

section Partial

variable {σ : Type*} {step : σ → Option σ}

/-- `b` is reached from `a` in finitely many steps. -/
def Reaches (step : σ → Option σ) : σ → σ → Prop :=
  Relation.ReflTransGen (fun a b => step a = some b)

theorem Reaches.refl (a : σ) : Reaches step a a := Relation.ReflTransGen.refl

theorem Reaches.tail {a b c : σ} (h : Reaches step a b) (hs : step b = some c) :
    Reaches step a c := Relation.ReflTransGen.tail h hs

theorem Reaches.head {a b c : σ} (hs : step a = some b) (h : Reaches step b c) :
    Reaches step a c := Relation.ReflTransGen.head hs h

theorem Reaches.trans {a b c : σ} (h : Reaches step a b) (h' : Reaches step b c) :
    Reaches step a c := Relation.ReflTransGen.trans h h'

/-- The two invariant rules for runs of a step function. -/
theorem Reaches.invariant (I : σ → Prop) {a b : σ} (h0 : I a)
    (hstep : ∀ x y, I x → step x = some y → I y) (h : Reaches step a b) : I b :=
  ReflTransGen.invariant I h0 hstep h

theorem Reaches.invariant_reachable (I : σ → Prop) {a b : σ} (h0 : I a)
    (hstep : ∀ x y, Reaches step a x → I x → step x = some y → I y)
    (h : Reaches step a b) : I b :=
  ReflTransGen.invariant_reachable I h0 hstep h

/-- Nothing lies ahead of a stopped state. -/
theorem Reaches.eq_of_halted {a b : σ} (ha : step a = none) (h : Reaches step a b) : b = a := by
  rcases Relation.ReflTransGen.cases_head h with heq | ⟨d, hd, _⟩
  · exact heq.symm
  · exact absurd (ha.symm.trans hd) (by simp)

/-- A stopped state lies ahead of every state the run reaches. -/
theorem Reaches.of_halted {a b c : σ} (hc : step c = none)
    (hac : Reaches step a c) (hab : Reaches step a b) : Reaches step b c := by
  -- a function has one next state, so two runs are one inside the other
  have huniq : Relator.RightUnique (fun x y : σ => step x = some y) := by
    intro x y z hy hz
    exact Option.some.inj (hy.symm.trans hz)
  rcases Relation.ReflTransGen.total_of_right_unique huniq hab hac with h | h
  · exact h
  · rw [Reaches.eq_of_halted hc h]
    exact Reaches.refl c

/-- The state after `t` steps, or the stopping state when it comes earlier. -/
def runFor (step : σ → Option σ) : ℕ → σ → σ
  | 0, a => a
  | t + 1, a =>
      match step a with
      | none => a
      | some b => runFor step t b

theorem reaches_runFor (t : ℕ) : ∀ a : σ, Reaches step a (runFor step t a) := by
  induction t with
  | zero => exact Reaches.refl
  | succ t ih =>
      intro a
      unfold runFor
      cases hs : step a with
      | none => exact Reaches.refl a
      | some b => exact Reaches.head hs (ih b)

/-- **Termination by a measure.**  If every step from a reachable state
decreases `μ`, the run stops. -/
theorem exists_halted_of_measure (μ : σ → ℕ) (a : σ)
    (hμ : ∀ x y, Reaches step a x → step x = some y → μ y < μ x) :
    ∃ b, Reaches step a b ∧ step b = none := by
  have key : ∀ n x, μ x = n → Reaches step a x → ∃ b, Reaches step a b ∧ step b = none := by
    intro n
    induction n using Nat.strongRecOn with
    | _ n ih =>
        intro x hx hax
        cases hs : step x with
        | none => exact ⟨x, hax, hs⟩
        | some y => exact ih (μ y) (hx ▸ hμ x y hax hs) y rfl (hax.tail hs)
  exact key (μ a) a rfl (Reaches.refl a)

end Partial

end Meili.Lib
