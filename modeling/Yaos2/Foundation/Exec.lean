import Mathlib.Tactic

/-! # Stateful computations that may abort

An abort keeps the state it was raised in. `Ensures x s Q E` is the weakest precondition: `Q` of the
value and final state when `x` returns from `s`, `E` of the state when it aborts. -/
namespace Yaos2.Foundation

abbrev Exec (σ α : Type) := EStateM String σ α

variable {σ α β : Type}

def abort (reason : String) : Exec σ α := throw reason

def Ensures (x : Exec σ α) (s : σ) (Q : α → σ → Prop) (E : σ → Prop) : Prop :=
  match x s with
  | .ok a s' => Q a s'
  | .error _ s' => E s'

/-- The computation returns and the result satisfies `Q`. -/
abbrev Returns (x : Exec σ α) (s : σ) (Q : α → σ → Prop) : Prop := Ensures x s Q (fun _=>False)

variable {x : Exec σ α} {f : α → Exec σ β} {s s' t : σ} {a : α} {Q Q' : α → σ → Prop} {E E' : σ → Prop}

theorem Ensures.mono (h : Ensures x s Q E) (hQ : ∀ a s', Q a s' → Q' a s') (hE : ∀ s', E s' → E' s') :
    Ensures x s Q' E' := by
  unfold Ensures at *
  cases hx : x s with
  | ok a s' =>
    rw [hx] at h
    exact hQ a s' h
  | error e s' =>
    rw [hx] at h
    exact hE s' h

theorem Ensures.imp (h : Ensures x s Q E)
    (hQ : ∀ a s', Q a s' → Q' a s') : Ensures x s Q' E := h.mono hQ (fun _ hE=>hE)

theorem Ensures.and (h : Ensures x s Q E) (h' : Ensures x s Q' E') :
    Ensures x s (fun a t=>Q a t ∧ Q' a t) (fun t=>E t ∧ E' t) := by
  unfold Ensures at *
  cases hx : x s with
  | ok a s' =>
    rw [hx] at h h'
    exact ⟨h,h'⟩
  | error e s' =>
    rw [hx] at h h'
    exact ⟨h,h'⟩

theorem Ensures.trivial (x : Exec σ α) (s : σ) : Ensures x s (fun _ _=>True) (fun _=>True) := by
  unfold Ensures
  cases x s <;> exact True.intro

theorem Ensures.of_ok (h : Ensures x s Q E) (hx : x s=.ok a s') : Q a s' := by
  unfold Ensures at h
  rwa [hx] at h

theorem wp_of_ok (hx : x s=.ok a s') : Ensures x s Q E ↔ Q a s' := by
  unfold Ensures
  rw [hx]

/-- The state in which the computation ends, however it ends. -/
def finalState (x : Exec σ α) (s : σ) : σ :=
  match x s with
  | .ok _ s' => s'
  | .error _ s' => s'

theorem Ensures.finalState (h : Ensures x s (fun _ t=>P t) P) : P (finalState x s) := by
  unfold Ensures at h
  unfold Foundation.finalState
  cases hx : x s with
  | ok a s' =>
    rw [hx] at h
    exact h
  | error e s' =>
    rw [hx] at h
    exact h

theorem Ensures.with_result (h : Ensures x s Q E) :
    Ensures x s (fun a t=>x s=.ok a t ∧ Q a t) (fun t=>(∃ e, x s=.error e t) ∧ E t) := by
  unfold Ensures at *
  cases hx : x s with
  | ok a s' =>
    rw [hx] at h
    exact ⟨rfl,h⟩
  | error e s' =>
    rw [hx] at h
    exact ⟨⟨e,rfl⟩,h⟩

theorem Returns.exists_ok (h : Returns x s Q) : ∃ a s', x s=.ok a s' ∧ Q a s' := by
  unfold Returns Ensures at h
  cases hx : x s with
  | ok a s' =>
    rw [hx] at h
    exact ⟨a,s',rfl,h⟩
  | error e s' =>
    rw [hx] at h
    exact h.elim

/-- Run a computation and test the outcome. -/
def passes (x : Exec σ α) (s : σ) (p : α → σ → Bool) : Bool :=
  match x s with
  | .ok a s' => p a s'
  | .error _ _ => false

theorem exists_ok_of_passes (h : passes x s p=true) : ∃ a s', x s=.ok a s' ∧ p a s'=true := by
  unfold passes at h
  cases hx : x s with
  | ok a s' =>
    rw [hx] at h
    exact ⟨a,s',rfl,h⟩
  | error e s' =>
    rw [hx] at h
    cases h

theorem exists_ok_eq_of_passes [DecidableEq α] [DecidablePred p]
    (h : passes x s (fun b t=>decide (b=a ∧ p t))=true) : ∃ t, x s=.ok a t ∧ p t := by
  obtain ⟨b,t,hrun,ht⟩ := exists_ok_of_passes h
  obtain ⟨rfl,hp⟩ := of_decide_eq_true ht
  exact ⟨t,hrun,hp⟩

theorem ok_finalState (h : x s=.ok a t) : x s=.ok a (finalState x s) := by rw [finalState,h]

theorem Returns.ensures (h : Returns x s Q) : Ensures x s Q E := h.mono (fun _ _ hq=>hq) (fun _ hf=>hf.elim)

@[simp] theorem wp_pure (a : α) (s : σ) (Q : α → σ → Prop) (E : σ → Prop) :
    Ensures (pure a : Exec σ α) s Q E ↔ Q a s := Iff.rfl

@[simp] theorem wp_abort (r : String) (s : σ) (Q : α → σ → Prop) (E : σ → Prop) :
    Ensures (abort r : Exec σ α) s Q E ↔ E s := Iff.rfl

@[simp] theorem wp_get (s : σ) (Q : σ → σ → Prop) (E : σ → Prop) :
    Ensures (get : Exec σ σ) s Q E ↔ Q s s := Iff.rfl

@[simp] theorem wp_set (s t : σ) (Q : PUnit → σ → Prop) (E : σ → Prop) :
    Ensures (set t : Exec σ PUnit) s Q E ↔ Q ⟨⟩ t := Iff.rfl

@[simp] theorem wp_modify (f : σ → σ) (s : σ) (Q : PUnit → σ → Prop) (E : σ → Prop) :
    Ensures (modify f : Exec σ PUnit) s Q E ↔ Q ⟨⟩ (f s) := Iff.rfl

@[simp] theorem wp_bind (x : Exec σ α) (f : α → Exec σ β) (s : σ) (Q : β → σ → Prop) (E : σ → Prop) :
    Ensures (x >>= f) s Q E ↔ Ensures x s (fun a s'=>Ensures (f a) s' Q E) E := by
  change (match EStateM.bind x f s with | .ok a s' => Q a s' | .error _ s' => E s') ↔ _
  unfold Ensures EStateM.bind
  cases x s <;> rfl

@[simp] theorem wp_map (f : α → β) (x : Exec σ α) (s : σ) (Q : β → σ → Prop) (E : σ → Prop) :
    Ensures (f <$> x) s Q E ↔ Ensures x s (fun a s'=>Q (f a) s') E := by
  rw [map_eq_pure_bind,wp_bind]
  simp only [wp_pure]

theorem Ensures.bind {Q : β → σ → Prop} (hx : Ensures x s R E)
    (hf : ∀ a s', R a s' → Ensures (f a) s' Q E) : Ensures (x >>= f) s Q E :=
  (wp_bind x f s Q E).mpr (hx.mono hf (fun _ h=>h))

theorem bind_congr_left (h : x s=y s) (f : α → Exec σ β) : (x >>= f) s=(y >>= f) s := by
  change EStateM.bind x f s=EStateM.bind y f s
  unfold EStateM.bind
  rw [h]

theorem Ensures.bind_congr
    (h : Ensures x s Q E) (hfg : ∀ a t, Q a t → f a t=g a t) : (x >>= f) s=(x >>= g) s := by
  change EStateM.bind x f s=EStateM.bind x g s
  unfold Ensures at h
  unfold EStateM.bind
  cases hx : x s with
  | ok a t =>
    rw [hx] at h
    exact hfg a t h
  | error e t => rfl

theorem Ensures.ite [Decidable c] (hx : c → Ensures x s Q E) (hy : ¬ c → Ensures y s Q E) :
    Ensures (if c then x else y) s Q E := by
  split
  · exact hx ‹c›
  · exact hy ‹¬ c›

/-- Run the body on `0, 1, …, n - 1` in this order. -/
def forRange : ℕ → (ℕ → Exec σ PUnit) → Exec σ PUnit
  | 0, _ => pure ⟨⟩
  | n+1, body => do
    forRange n body
    body n

theorem Ensures.forRange {I : ℕ → σ → Prop} (h0 : I 0 s)
    (hs : ∀ k t, k<n → I k t → Ensures (body k) t (fun _ t'=>I (k+1) t') E) :
    Ensures (forRange n body) s (fun _ t=>I n t) E := by
  induction n with
  | zero => exact h0
  | succ n ih =>
    have hn := ih (fun k t hk=>hs k t (by omega))
    exact hn.bind (fun _ t ht=>hs n t (by omega) ht)

/-- Run a computation on a component of a larger state. -/
def zoom {τ : Type} (view : τ → σ) (put : σ → τ → τ) (x : Exec σ α) : Exec τ α := fun t =>
  match x (view t) with
  | .ok a s => .ok a (put s t)
  | .error e s => .error e (put s t)

theorem wp_zoom (view : τ → σ) (put : σ → τ → τ) (x : Exec σ α) (t : τ) (Q : α → τ → Prop) (E : τ → Prop) :
    Ensures (zoom view put x) t Q E ↔
      Ensures x (view t) (fun a s=>Q a (put s t)) (fun s=>E (put s t)) := by
  unfold Ensures zoom
  cases x (view t) <;> rfl

-- proofs about programs go through the rules; unfolding would run the program
attribute [irreducible] Ensures

end Yaos2.Foundation
