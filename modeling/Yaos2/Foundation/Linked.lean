import Mathlib.Tactic

/-! # Doubly linked lists given by two link functions

Zero is the null link. `Linked next prev b l` says that the nodes `l` are linked in this order in both
directions, the first one pointing back to `b`. -/
namespace Yaos2.Foundation

open List

/-- Following `next` from `p` visits exactly `l` and then stops at null. -/
def Chain (next : ℕ → ℕ) : ℕ → List ℕ → Prop
  | p, [] => p=0
  | p, x::xs => p=x ∧ x≠0 ∧ Chain next (next x) xs

def Linked (next prev : ℕ → ℕ) : ℕ → List ℕ → Prop
  | _, [] => True
  | b, x::xs => x≠0 ∧ prev x=b ∧ next x=xs.headD 0 ∧ Linked next prev x xs

variable {next next' prev prev' : ℕ → ℕ} {b b' p x : ℕ} {l r : List ℕ}

theorem Chain.unique (h : Chain next p l) (h' : Chain next p l') : l=l' := by
  induction l generalizing p l' with
  | nil =>
    cases l' with
    | nil => rfl
    | cons y ys =>
      simp only [Chain] at h h'
      exact absurd (h'.1.symm.trans h) h'.2.1
  | cons x xs ih =>
    cases l' with
    | nil =>
      simp only [Chain] at h h'
      exact absurd (h.1.symm.trans h') h.2.1
    | cons y ys =>
      obtain ⟨rfl,_,hx⟩ := h
      obtain ⟨rfl,_,hy⟩ := h'
      rw [ih hx hy]

private theorem Chain.suffix (h : Chain next p l) (hy : y ∈ l) : ∃ r, Chain next y r ∧ r.length≤l.length := by
  induction l generalizing p with
  | nil => simp at hy
  | cons x xs ih =>
    obtain ⟨rfl,hx,hxs⟩ := h
    rcases mem_cons.mp hy with rfl | hy
    · exact ⟨y::xs,⟨rfl,hx,hxs⟩,le_rfl⟩
    · obtain ⟨r,hr,hl⟩ := ih hxs hy
      exact ⟨r,hr,hl.trans (Nat.le_succ _)⟩

theorem Chain.nodup (h : Chain next p l) : l.Nodup := by
  induction l generalizing p with
  | nil => exact nodup_nil
  | cons x xs ih =>
    obtain ⟨rfl,hx,hxs⟩ := h
    refine nodup_cons.mpr ⟨fun hmem=>?_,ih hxs⟩
    -- a second visit of the node would start a strictly shorter chain from it
    obtain ⟨r,hr,hl⟩ := hxs.suffix hmem
    have he := hr.unique (show Chain next p (p::xs) from ⟨rfl,hx,hxs⟩)
    rw [he,length_cons] at hl
    omega

namespace Linked

theorem ne_zero (h : Linked next prev b l) (hx : x ∈ l) : x≠0 := by
  induction l generalizing b with
  | nil => simp at hx
  | cons y ys ih =>
    rcases mem_cons.mp hx with rfl | hx
    · exact h.1
    · exact ih h.2.2.2 hx

theorem chain_next (h : Linked next prev b l) : Chain next (l.headD 0) l := by
  induction l generalizing b with
  | nil => rfl
  | cons y ys ih =>
    obtain ⟨hy,_,hn,hys⟩ := h
    exact ⟨rfl,hy,hn▸ih hys⟩

private theorem chain_prev_append (h : Linked next prev b l) (hr : Chain prev b r) :
    Chain prev (l.getLastD b) (l.reverse++r) := by
  induction l generalizing b r with
  | nil => simpa using hr
  | cons y ys ih =>
    obtain ⟨hy,hp,_,hys⟩ := h
    have hc : Chain prev y (y::r) := ⟨rfl,hy,hp▸hr⟩
    have ht := ih hys hc
    rw [getLastD_cons,reverse_cons,append_assoc]
    exact ht

theorem chain_prev (h : Linked next prev 0 l) : Chain prev (l.getLastD 0) l.reverse := by
  have hc := h.chain_prev_append (r := []) rfl
  rwa [append_nil] at hc

theorem nodup (h : Linked next prev b l) : l.Nodup := h.chain_next.nodup

section
variable (h : Linked next prev b l) (hn : ∀ y ∈ l, next' y=next y)
include h hn
theorem rebase (hh : ∀ y, l.head? = some y → prev' y=b') (ht : ∀ y ∈ l.tail, prev' y=prev y) :
    Linked next' prev' b' l := by
  induction l generalizing b b' with
  | nil => trivial
  | cons y ys ih =>
    obtain ⟨hy,_,hny,hys⟩ := h
    refine ⟨hy,hh y rfl,(hn y (by simp)).trans hny,?_⟩
    apply ih hys (fun z hz=>hn z (by simp [hz]))
    · intro z hz
      obtain ⟨zs,rfl⟩ : ∃ zs, ys=z::zs := by
        cases ys with
        | nil => simp at hz
        | cons w ws => exact ⟨ws,by simpa using hz⟩
      exact (ht z (by simp)).trans hys.2.1
    · intro z hz
      exact ht z (mem_of_mem_tail hz)

theorem congr (hp : ∀ y ∈ l, prev' y=prev y) : Linked next' prev' b l := by
  refine h.rebase hn (fun y hy=>?_) (fun y hy=>hp y (mem_of_mem_tail hy))
  cases l with
  | nil => simp at hy
  | cons z zs =>
    obtain rfl : z=y := by simpa using hy
    exact (hp z (by simp)).trans h.2.1
end

theorem cut (h : Linked next prev b (l++r)) (hn : ∀ y ∈ l.dropLast, next' y=next y)
    (hls : ∀ y, l.getLast? = some y → next' y=0) (hp : ∀ y ∈ l, prev' y=prev y) :
    Linked next' prev' b l := by
  induction l generalizing b with
  | nil => trivial
  | cons y ys ih =>
    obtain ⟨hy,hpy,hny,hys⟩ := h
    refine ⟨hy,(hp y (by simp)).trans hpy,?_,?_⟩
    · cases ys with
      | nil => exact hls y rfl
      | cons z zs => exact (hn y (by simp)).trans hny
    · cases ys with
      | nil => trivial
      | cons z zs =>
        exact ih hys (fun w hw=>hn w (by simp [hw])) (fun w hw=>hls w (by simpa using hw))
          (fun w hw=>hp w (by simp [hw]))

theorem snoc (h : Linked next prev b l) (hx : x≠0)
    (hn : ∀ y ∈ l.dropLast, next' y=next y) (hls : ∀ y, l.getLast? = some y → next' y=x)
    (hp : ∀ y ∈ l, prev' y=prev y) (hpx : prev' x=l.getLastD b) (hnx : next' x=0) :
    Linked next' prev' b (l++[x]) := by
  induction l generalizing b with
  | nil => exact ⟨hx,hpx,hnx,trivial⟩
  | cons y ys ih =>
    obtain ⟨hy,hpy,hny,hys⟩ := h
    refine ⟨hy,(hp y (by simp)).trans hpy,?_,?_⟩
    · cases ys with
      | nil => exact hls y rfl
      | cons z zs => exact (hn y (by simp)).trans hny
    · apply ih hys
      · intro w hw
        cases ys with
        | nil => simp at hw
        | cons z zs => exact hn w (by simp [hw])
      · intro w hw
        cases ys with
        | nil => simp at hw
        | cons z zs => exact hls w (by simpa using hw)
      · exact fun w hw=>hp w (by simp [hw])
      · rwa [getLastD_cons] at hpx

theorem next_eq (h : Linked next prev b (l++x::r)) : next x=r.headD 0 := by
  induction l generalizing b with
  | nil => exact h.2.2.1
  | cons y ys ih => exact ih h.2.2.2
end Linked

end Yaos2.Foundation
