import Yaos2.Foundation.Exec

/-! # Comparing computations

A computation on a larger state projects to one on a part of it when it does the same to that part, with
the same result. -/
namespace Yaos2.Foundation

variable {σ τ α β : Type}

/-- What `x` does to the part `view` of its state is what `y` does. -/
def Projects (view : τ → σ) (x : Exec τ α) (y : Exec σ α) : Prop := ∀ t, y (view t) =
    match x t with
    | .ok a t' => .ok a (view t')
    | .error e t' => .error e (view t')

variable {view : τ → σ} {x x' : Exec τ α} {y y' : Exec σ α}

namespace Projects

theorem pure (a : α) : Projects view (pure a) (pure a) := fun _=>rfl

theorem abort (reason : String) : Projects view (abort reason : Exec τ α) (abort reason) := fun _=>rfl

theorem bind (hx : Projects view x y)
    (hf : ∀ a, Projects view (f a) (g a)) : Projects view (x >>= f) (y >>= g) := by
  intro t
  have h := hx t
  simp only [Bind.bind,EStateM.bind,h]
  cases hrun : x t with
  | ok a t' => exact hf a t'
  | error e t' => rfl

theorem ite [Decidable c] (hx : Projects view x y) (hx' : Projects view x' y') :
    Projects view (if c then x else x') (if c then y else y') := by
  split
  · exact hx
  · exact hx'

theorem record (hf : ∀ t, view (f t)=view t) (hx : Projects view x y) :
    Projects view (do modify f; x) y := by
  intro t
  have h := hx (f t)
  rw [hf] at h
  exact h

theorem zoom (hput : ∀ s t, view (put s t)=s) (y : Exec σ α) : Projects view (zoom view put y) y := by
  intro t
  rw [Foundation.zoom]
  cases y (view t) with
  | ok a s =>
    dsimp only
    rw [hput]
  | error e s =>
    dsimp only
    rw [hput]

theorem ensures (hx : Projects view x y)
    (h : Ensures x t (fun a u=>Q a (view u)) (fun u=>E (view u))) : Ensures y (view t) Q E := by
  unfold Ensures at h ⊢
  rw [hx t]
  cases hrun : x t with
  | ok a u =>
    rw [hrun] at h
    exact h
  | error e u =>
    rw [hrun] at h
    exact h
end Projects

def Mimics (R : α → β → Prop) (x : Exec σ α) (y : Exec σ β) : Prop :=
  ∀ s a t, x s=.ok a t → ∃ b, y s=.ok b t ∧ R a b

section
variable {γ : Type} {R : α → β → Prop} {u u' : Exec σ α} {v v' : Exec σ β}

theorem Mimics.pure (h : R a b) : Mimics R (pure a : Exec σ α) (pure b) := by
  intro s c t hc
  obtain ⟨rfl,rfl⟩ := EStateM.Result.ok.inj hc
  exact ⟨b,rfl,h⟩

theorem Mimics.abort (reason : String) : Mimics R (abort reason : Exec σ α) v := by
  intro s c t hc
  cases hc

theorem Mimics.bind (h : ∀ c, Mimics R (f c) (g c)) : Mimics R (z >>= f) (z >>= g) := by
  intro s a t ha
  simp only [Bind.bind,EStateM.bind] at ha ⊢
  cases hz : z s with
  | ok c s' =>
    rw [hz] at ha
    exact h c s' a t ha
  | error e s' =>
    rw [hz] at ha
    cases ha

theorem Mimics.ite [Decidable c] (h : Mimics R u v) (h' : Mimics R u' v') :
    Mimics R (if c then u else u') (if c then v else v') := by
  split
  · exact h
  · exact h'
end

end Yaos2.Foundation
