import Yaos2.Foundation.Exec

/-! # Why a computation aborts, and that it leaves the state alone -/
namespace Yaos2.Foundation

variable {σ α β : Type} {x y : Exec σ α} {f : α → Exec σ β} {s : σ} {r : String}

def Raises (x : Exec σ α) (s : σ) (r : String) : Prop := ∃ t, x s=.error r t

theorem raises_abort : Raises (abort r : Exec σ α) s r := ⟨s,rfl⟩

theorem bind_of_ok (hx : x s=.ok a t) : (x >>= f) s=f a t := by simp only [Bind.bind,EStateM.bind,hx]

theorem bind_of_error (hx : x s=.error r t) : (x >>= f) s=.error r t := by
  simp only [Bind.bind,EStateM.bind,hx]

theorem Raises.bind (hx : x s=.ok a t) (hf : Raises (f a) t r) : Raises (x >>= f) s r := by
  rwa [Raises,bind_of_ok hx]

theorem Raises.bind_cases (h : Raises (x >>= f) s r) :
    Raises x s r ∨ ∃ a t, x s=.ok a t ∧ Raises (f a) t r := by
  obtain ⟨u,hu⟩ := h
  simp only [Bind.bind,EStateM.bind] at hu
  cases hx : x s with
  | ok a t =>
    rw [hx] at hu
    exact .inr ⟨a,t,rfl,u,hu⟩
  | error e t =>
    rw [hx] at hu
    obtain ⟨rfl,-⟩ := EStateM.Result.error.inj hu
    exact .inl ⟨t,hx⟩

theorem bind_eq_ok : (x >>= f) s=.ok b u ↔ ∃ a t, x s=.ok a t ∧ f a t=.ok b u := by
  simp only [Bind.bind,EStateM.bind]
  cases hx : x s with
  | ok a t =>
    constructor
    · intro h
      exact ⟨a,t,rfl,h⟩
    · rintro ⟨a',t',heq,h⟩
      obtain ⟨rfl,rfl⟩ := EStateM.Result.ok.inj heq
      exact h
  | error e t => simp

theorem Returns.not_raises (h : Returns x s Q) : ¬ Raises x s r := by
  rintro ⟨t,ht⟩
  obtain ⟨a,u,hok,-⟩ := h.exists_ok
  rw [hok] at ht
  cases ht

theorem returns_of_not_raises (h : Ensures x s Q (fun _=>True)) (hx : ∀ r, ¬ Raises x s r) :
    Returns x s Q := by
  apply h.with_result.mono
  · exact fun a t ha=>ha.2
  · rintro t ⟨⟨e,he⟩,-⟩
    exact hx e ⟨t,he⟩

def Avoids (r : String) (x : Exec σ α) : Prop := ∀ s, ¬ Raises x s r

theorem Avoids.pure (a : α) : Avoids r (pure a : Exec σ α) := by
  rintro s ⟨t,ht⟩
  cases ht

theorem Avoids.get : Avoids r (get : Exec σ σ) := by
  rintro s ⟨t,ht⟩
  cases ht

theorem Avoids.abort (h : r'≠r) : Avoids r (abort r' : Exec σ α) := by
  rintro s ⟨t,ht⟩
  obtain ⟨rfl,-⟩ := EStateM.Result.error.inj ht
  exact h rfl

theorem Avoids.bind (hx : Avoids r x) (hf : ∀ a, Avoids r (f a)) : Avoids r (x >>= f) := by
  intro s h
  obtain hr | ⟨a,t,-,hr⟩ := h.bind_cases
  · exact hx s hr
  · exact hf a t hr

theorem Avoids.ite [Decidable c] (hx : Avoids r x) (hy : Avoids r y) : Avoids r (if c then x else y) := by
  split
  · exact hx
  · exact hy

/-- Whether it returns or aborts, the state is the same. -/
def ReadOnly (x : Exec σ α) : Prop := ∀ s, Ensures x s (fun _ t=>t=s) (fun t=>t=s)

namespace ReadOnly

theorem pure (a : α) : ReadOnly (pure a : Exec σ α) := fun _=>(wp_pure ..).mpr rfl

theorem abort (r : String) : ReadOnly (abort r : Exec σ α) := fun _=>(wp_abort ..).mpr rfl

theorem get : ReadOnly (get : Exec σ σ) := fun _=>(wp_get ..).mpr rfl

theorem bind (hx : ReadOnly x) (hf : ∀ a, ReadOnly (f a)) : ReadOnly (x >>= f) := by
  intro s
  apply Ensures.bind (hx s)
  rintro a t rfl
  exact hf a t

theorem ite [Decidable c] (hx : ReadOnly x) (hy : ReadOnly y) : ReadOnly (if c then x else y) := by
  split
  · exact hx
  · exact hy

theorem eq_of_ok (hx : ReadOnly x) (h : x s=.ok a t) : t=s := (hx s).of_ok h

theorem and (hx : ReadOnly x) (h : Ensures x s Q E) :
    Ensures x s (fun a t=>t=s ∧ Q a s) (fun t=>t=s ∧ E s) := by
  apply ((hx s).and h).mono
  · rintro a t ⟨rfl,ha⟩
    exact ⟨rfl,ha⟩
  · rintro t ⟨rfl,ht⟩
    exact ⟨rfl,ht⟩
end ReadOnly

end Yaos2.Foundation
