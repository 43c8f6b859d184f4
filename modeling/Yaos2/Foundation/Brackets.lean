import Mathlib.Algebra.BigOperators.Group.List.Basic
import Mathlib.Algebra.Order.Ring.Int
import Mathlib.Data.List.Infix

/-! # Nested words

Each bracket of a type `B` has a letter that opens and one that closes it. -/
namespace Yaos2.Foundation

open List

variable {α B : Type*} {opening closing : B → α}

inductive Nested (opening closing : B → α) : List α → Prop
  | nil : Nested opening closing []
  | append {u v : List α} : Nested opening closing u → Nested opening closing v →
      Nested opening closing (u++v)
  | bracket {u : List α} (b : B) : Nested opening closing u →
      Nested opening closing (opening b::(u++[closing b]))

def depth (w : α → ℤ) (u : List α) : ℤ := (u.map w).sum

variable {w : α → ℤ} {u v : List α}

@[simp] theorem depth_nil (w : α → ℤ) : depth w []=0 := rfl

@[simp] theorem depth_cons (w : α → ℤ) (a : α) (u : List α) : depth w (a::u)=w a+depth w u := sum_cons

@[simp] theorem depth_append (w : α → ℤ) (u v : List α) : depth w (u++v)=depth w u+depth w v := by
  simp [depth]

/-- Every bracket closes what it opens. -/
structure Weighs (opening closing : B → α) (w : α → ℤ) : Prop where
  opens : ∀ b, 0≤w (opening b)
  closes : ∀ b, w (opening b)+w (closing b)=0

section
variable (hw : Weighs opening closing w) (hu : Nested opening closing u)
include hw hu
theorem Nested.depth_eq_zero : depth w u=0 := by
  induction hu with
  | nil => rfl
  | append _ _ ihu ihv => rw [depth_append,ihu,ihv,add_zero]
  | bracket b _ ih =>
    have hb := hw.closes b
    simp only [depth_cons,depth_append,depth_nil,ih]
    omega

theorem Nested.depth_nonneg (hv : v <+: u) : 0≤depth w v := by
  induction hu generalizing v with
  | nil =>
    rw [prefix_nil.mp hv]
    exact le_rfl
  | @append u1 u2 h1 _ ih1 ih2 =>
    rcases prefix_or_prefix_of_prefix hv (prefix_append u1 u2) with hsh | ⟨v,rfl⟩
    · exact ih1 hsh
    · rw [depth_append,h1.depth_eq_zero hw,zero_add]
      exact ih2 ((prefix_append_right_inj u1).mp hv)
  | @bracket u b h ih =>
    have hop := hw.opens b
    cases v with
    | nil => exact le_rfl
    | cons a v =>
      obtain ⟨rfl,hbd⟩ := cons_prefix_cons.mp hv
      rw [depth_cons]
      rcases prefix_concat_iff.mp hbd with rfl | hbd
      · have hcl := hw.closes b
        simp only [depth_append,depth_cons,depth_nil,h.depth_eq_zero hw]
        omega
      · exact add_nonneg hop (ih hbd)
end

end Yaos2.Foundation
