import Mathlib.Data.List.DropRight
import Mathlib.Tactic

/-! # Blocks that tile an interval -/
namespace Yaos2.Foundation

open List

variable {β : Type*} {start stop : β → ℕ} {lo mid hi : ℕ} {b c : β} {l r : List β}

def Tiles (start stop : β → ℕ) : ℕ → List β → ℕ → Prop
  | lo, [], hi => lo=hi
  | lo, b::l, hi => start b=lo ∧ lo ≤ stop b ∧ Tiles start stop (stop b) l hi

theorem Tiles.le (h : Tiles start stop lo l hi) : lo≤hi := by
  induction l generalizing lo with
  | nil => exact h.le
  | cons b l ih => exact h.2.1.trans (ih h.2.2)

theorem tiles_append : Tiles start stop lo (l++r) hi ↔
    ∃ mid, Tiles start stop lo l mid ∧ Tiles start stop mid r hi := by
  induction l generalizing lo with
  | nil => exact ⟨fun h=>⟨lo,rfl,h⟩,fun ⟨_,h,h'⟩=>h▸h'⟩
  | cons b l ih =>
    constructor
    · rintro ⟨hs,hle,h⟩
      obtain ⟨mid,h1,h2⟩ := ih.mp h
      exact ⟨mid,⟨hs,hle,h1⟩,h2⟩
    · rintro ⟨mid,⟨hs,hle,h1⟩,h2⟩
      exact ⟨hs,hle,ih.mpr ⟨mid,h1,h2⟩⟩

theorem Tiles.snoc (h : Tiles start stop lo l mid) (hs : start b=mid) (hle : mid ≤ stop b) :
    Tiles start stop lo (l++[b]) (stop b) :=
  tiles_append.mpr ⟨mid,h,hs,hle,rfl⟩

theorem Tiles.of_snoc (h : Tiles start stop lo (l++[b]) hi) :
    Tiles start stop lo l (start b) ∧ start b ≤ stop b ∧ stop b=hi := by
  obtain ⟨mid,h1,hs,hle,he⟩ := tiles_append.mp h
  exact ⟨hs▸h1,hs▸hle,he⟩

section
variable (h : Tiles start stop lo l hi)
include h
theorem Tiles.bounds (hb : b ∈ l) : lo ≤ start b ∧ start b ≤ stop b ∧ stop b≤hi := by
  obtain ⟨l,r,rfl⟩ := append_of_mem hb
  obtain ⟨mid,h1,hs,hle,h2⟩ := tiles_append.mp h
  exact ⟨hs▸h1.le,hs▸hle,h2.le⟩

theorem Tiles.apart (hb : b ∈ l) (hc : c ∈ l) (hne : b≠c) : stop b ≤ start c ∨ stop c ≤ start b := by
  obtain ⟨l,r,rfl⟩ := append_of_mem hb
  obtain ⟨mid,h1,hs,hle,h2⟩ := tiles_append.mp h
  rcases mem_append.mp hc with hc | hc
  · exact .inr (hs▸(h1.bounds hc).2.2)
  · rcases mem_cons.mp hc with rfl | hc
    · exact absurd rfl hne
    · exact .inl (h2.bounds hc).1

theorem Tiles.length_le (hk : ∀ b ∈ l, start b+k ≤ stop b) : lo+k*l.length≤hi := by
  induction l generalizing lo with
  | nil => exact h.le
  | cons b l ih =>
    obtain ⟨h1,-,h3⟩ := h
    have hb := hk b (by simp)
    have hl := ih h3 (fun c hc=>hk c (by simp [hc]))
    rw [length_cons,Nat.mul_succ]
    omega

theorem Tiles.congr (hs : ∀ b ∈ l, start' b=start b)
    (ht : ∀ b ∈ l, stop' b=stop b) : Tiles start' stop' lo l hi := by
  induction l generalizing lo with
  | nil => exact h
  | cons b l ih =>
    obtain ⟨h1,h2,h3⟩ := h
    refine ⟨(hs b (by simp)).trans h1,(ht b (by simp)).symm▸h2,(ht b (by simp)).symm ▸ ?_⟩
    exact ih h3 (fun c hc=>hs c (by simp [hc])) (fun c hc=>ht c (by simp [hc]))
end

theorem tiles_map (f : β → β) : Tiles start stop lo (l.map f) hi ↔ Tiles (start ∘ f) (stop ∘ f) lo l hi := by
  induction l generalizing lo with
  | nil => rfl
  | cons b l ih =>
    rw [map_cons,Tiles,Tiles,ih]
    rfl

theorem Tiles.map (h : Tiles start stop lo l hi) (hs : ∀ b ∈ l, start (f b)=start b)
    (ht : ∀ b ∈ l, stop (f b)=stop b) : Tiles start stop lo (l.map f) hi :=
  (tiles_map f).mpr (h.congr hs ht)

theorem mem_rdropWhile (hb : b ∈ l) (hp : p b=false) : b ∈ l.rdropWhile p := by
  rw [← rdropWhile_append_rtakeWhile (p := p) (l := l),mem_append] at hb
  refine hb.resolve_right (fun hin=>?_)
  have ht := mem_rtakeWhile_imp hin
  rw [hp] at ht
  cases ht

end Yaos2.Foundation
