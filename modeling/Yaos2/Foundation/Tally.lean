import Mathlib.Data.Fintype.Card
import Mathlib.Data.Fintype.Basic
import Mathlib.Data.List.Nodup

/-! # Counting holders

Each member of a finite population holds at most one object; the tally of an object is the number of
its holders. -/
namespace Yaos2.Foundation
open Function List Finset

variable {T I : Type*} [Fintype T] [DecidableEq I] {f : T → Option I} {t : T} {i : I}

def tally (f : T → Option I) (i : I) : ℕ := (Finset.univ.filter (fun t=>f t=some i)).card

theorem tally_le_card (f : T → Option I) (i : I) : tally f i≤Fintype.card T := card_le_univ _

theorem tally_pos (h : f t=some i) : 0<tally f i := card_pos.mpr ⟨t,by simp [h]⟩

theorem exists_of_tally_pos (h : 0<tally f i) : ∃ t, f t=some i := by
  obtain ⟨t,ht⟩ := card_pos.mp h
  exact ⟨t,(mem_filter.mp ht).2⟩

theorem eq_of_tally_le_one (h : tally f i≤1) (ht : f t=some i) (hu : f u=some i) : u=t :=
  card_le_one.mp h u (by simp [hu]) t (by simp [ht])

theorem tally_eq_zero (h : ∀ t, f t≠some i) : tally f i=0 :=
  card_eq_zero.mpr (filter_eq_empty_iff.mpr (fun t _=>h t))

/-- What one holder adds to the tally. -/
def share (x : Option I) (i : I) : ℕ := if x=some i then 1 else 0

@[simp] theorem share_none (i : I) : share none i=0 := rfl

@[simp] theorem share_self (i : I) : share (some i) i=1 := if_pos rfl

theorem share_of_ne (h : x≠some i) : share x i=0 := if_neg h

variable [DecidableEq T]

theorem tally_update_take (h : f t≠some i) : tally (update f t (some i)) i=tally f i+1 := by
  have hset : Finset.univ.filter (fun u=>update f t (some i) u=some i) =
      insert t (Finset.univ.filter (fun u=>f u=some i)) := by
    ext u
    by_cases hu : u=t
    · simp [hu]
    · simp [hu]
  rw [tally,hset,card_insert_of_notMem (by simp [h])]
  rfl

theorem tally_update_drop (h : f t=some i) (hx : x≠some i) : tally (update f t x) i+1=tally f i := by
  have hb : update (update f t x) t (some i)=f := by rw [update_idem,← h,update_eq_self]
  have ht := tally_update_take (f := update f t x) (t := t) (i := i) (by simpa using hx)
  rw [hb] at ht
  exact ht.symm

theorem tally_update_of_ne (h : f t≠some i) (hx : x≠some i) : tally (update f t x) i=tally f i := by
  refine congrArg Finset.card (filter_congr (fun u _=>?_))
  by_cases hu : u=t
  · subst hu
    simp [h,hx]
  · rw [update_of_ne hu]

theorem tally_update (f : T → Option I) (t : T) (x : Option I) (i : I) :
    tally (update f t x) i+share (f t) i=tally f i+share x i := by
  by_cases hf : f t=some i
  · by_cases hx : x=some i
    · rw [hx,← hf,update_eq_self]
    · rw [hf,share_self,share_of_ne hx,tally_update_drop hf hx,Nat.add_zero]
  · by_cases hx : x=some i
    · rw [hx,share_self,share_of_ne hf,tally_update_take hf,Nat.add_zero]
    · rw [share_of_ne hf,share_of_ne hx,tally_update_of_ne hf hx]

section
variable {α : Type*} [DecidableEq α] {l : List α} {p q : α → Bool} {b : α}

theorem countP_erase (hb : b ∈ l) (p : α → Bool) : l.countP p=(l.erase b).countP p+if p b then 1 else 0 := by
  rw [(perm_cons_erase hb).countP_eq p,countP_cons]

theorem countP_flip (hl : l.Nodup) (hb : b ∈ l) (hsm : ∀ x ∈ l, x≠b → p x=q x) (hp : p b=true)
    (hq : q b=false) : l.countP p=l.countP q+1 := by
  have hrs : (l.erase b).countP p=(l.erase b).countP q := by
    refine countP_congr (fun x hx=>?_)
    obtain ⟨hne,hmem⟩ := (List.Nodup.mem_erase_iff hl).mp hx
    rw [hsm x hmem hne]
  rw [countP_erase hb p,countP_erase hb q,hrs,hp,hq]
  rfl

theorem countP_update (hl : l.Nodup) (hb : b ∈ l) (p : β → Bool) (f : α → β) (v : β) :
    l.countP (fun x=>p (update f b v x))+(p (f b)).toNat=l.countP (fun x=>p (f x))+(p v).toNat := by
  have hr : (l.erase b).countP (fun x=>p (update f b v x))=(l.erase b).countP (fun x=>p (f x)) := by
    refine countP_congr (fun x hx=>?_)
    rw [update_of_ne ((List.Nodup.mem_erase_iff hl).mp hx).1]
  rw [countP_erase hb,countP_erase hb (fun x=>p (f x)),hr,update_self]
  cases p v <;> cases p (f b) <;> simp

omit [DecidableEq α] in
theorem of_countP_eq (himp : ∀ x, p x=true → q x=true) (hcn : l.countP q≤l.countP p) (hb : b ∈ l)
    (hq : q b=true) : p b=true := by
  have hsub := monotone_filter_right l himp
  have heq : l.filter p=l.filter q := by
    apply hsub.eq_of_length_le
    rwa [← countP_eq_length_filter,← countP_eq_length_filter]
  have hmem := heq▸mem_filter.mpr ⟨hb,hq⟩
  exact (mem_filter.mp hmem).2
end

end Yaos2.Foundation
