import Mathlib.Logic.Relation
import Mathlib.Tactic

/-! # Invariants of transition systems -/
namespace Yaos2.Foundation

variable {σ : Type*} {Step : σ → σ → Prop}

theorem Reaches.invariant {I : σ → Prop} (hrun : Relation.ReflTransGen Step s t)
    (h0 : I s) (hs : ∀ a b, I a → Step a b → I b) : I t := by
  induction hrun with
  | refl => exact h0
  | tail _ hab ih => exact hs _ _ ih hab

/-- Apply the body to `0, 1, …, n - 1` in this order. -/
def foldRange {α : Type*} : ℕ → (ℕ → α → α) → α → α
  | 0, _, a => a
  | n+1, f, a => f n (foldRange n f a)

theorem foldRange_invariant {I : ℕ → α → Prop}
    (h0 : I 0 a) (hs : ∀ k b, k<n → I k b → I (k+1) (f k b)) : I n (foldRange n f a) := by
  induction n with
  | zero => exact h0
  | succ n ih => exact hs n _ (by omega) (ih (fun k b hk=>hs k b (by omega)))

end Yaos2.Foundation
