import Yaos2.Memory.AddressSpace

/-! # Freeing an address space -/
namespace Yaos2.Memory
open Foundation Function

variable {L : Layout}

/-- Frames of `pd` with a role in `gone` may have been freed; the others keep their contents. -/
structure Released (L : Layout) (live : List ℕ) (pd : ℕ) (gone : Role → Prop) (s : Machine)
    (role : ℕ → Role) (t : Machine) (fl : List ℕ) (role' : ℕ → Role) : Prop where
  owned : Owned L t fl live role'
  effect : Effect L (some pd) role role' s.mem t.mem
  trace : t.trace=s.trace
  roles : ∀ q, role' q=role q ∨ role' q=.free ∧ gone (role q)
  same : ∀ q, IsFrame L q → role' q≠.free → SameOn s.mem t.mem q pageSize

variable {s u : Machine} {fl live : List ℕ} {role role' : ℕ → Role} {pd q i j t : ℕ}
  {gone gone' : Role → Prop}

namespace Released

theorem refl (h : Owned L s fl live role) (pd : ℕ) (gone : Role → Prop) :
    Released L live pd gone s role s fl role :=
  ⟨h,.refl _ _ _,rfl,fun _=>.inl rfl,fun _ _ _ _ _ _=>rfl⟩

section
variable (h : Released L live pd gone s role u fl role')
include h
theorem mono (hg : ∀ r, gone r → gone' r) :
    Released L live pd gone' s role u fl role' :=
  ⟨h.owned,h.effect,h.trace,fun q=>(h.roles q).imp id (fun ⟨hf,hr⟩=>⟨hf,hg _ hr⟩),h.same⟩

theorem keep (hq : IsFrame L q) (hr : role q≠.free) (hg : ¬ gone (role q)) :
    role' q=role q ∧ SameOn s.mem u.mem q pageSize := by
  have hrl := (h.roles q).resolve_right (fun hc=>hg hc.2)
  exact ⟨hrl,h.same q hq (hrl▸hr)⟩

theorem pfree_spec (hpd : pd ∉ live)
    (hq : IsFrame L q) (hown : (role q).owner=some pd) (hg : ¬ gone (role q)) :
    Returns (pfree L q) u (fun _ w=>∃ fl' role'',
      Released L live pd (fun r=>gone r ∨ r=role q) s role w fl' role'') := by
  have hne : role q≠.free := fun hf=>by rw [hf] at hown; cases hown
  obtain ⟨hrl,-⟩ := h.keep hq hne hg
  refine (pfree_owned h.owned hq (hrl▸hne) (fun pd' hpd' hc=>?_)).imp ?_
  · rw [hrl,hown] at hc
    exact hpd (Option.some.inj hc▸hpd')
  rintro - w ⟨hw,he,⟨-,htr⟩,hm⟩
  rw [hrl,hown] at he
  refine ⟨_,_,hw,h.effect.trans he,htr.trans h.trace,fun q'=>?_,fun q' hq' hr'=>?_⟩
  · by_cases hqq : q'=q
    · exact .inr ⟨by rw [hqq,update_self],.inr (by rw [hqq])⟩
    · rw [update_of_ne hqq]
      exact (h.roles q').imp id (fun ⟨hf,hr⟩=>⟨hf,.inl hr⟩)
  · have hqq : q'≠q := fun hqq=>hr' (by rw [hqq,update_self])
    rw [update_of_ne hqq] at hr'
    intro x hx hx'
    refine (hm x ?_).trans (h.same q' hq' hr' x hx hx')
    rw [Outside,maskToPage_eq hq'.aligned hx hx',List.mem_cons,not_or]
    exact ⟨hqq,h.owned.not_mem hr'⟩
end

end Released

theorem wp_pfree_null : Ensures (pfree L physNull) s Q E ↔ E s := by
  have hb := L.kmFreePhysBase_bounds
  have hn : ¬ isMappable L physNull=true := fun h=>by
    have := Layout.pallocRegion_containsP.mp h
    simp only [physNull] at this
    omega
  simp [pfree,wp_panicIf_true hn]

/-- What the walk has freed when it is at entry `j` of table `i`. -/
def passed (pd i j : ℕ) (r : Role) : Prop :=
  (∃ i' < i, r=.table pd i' ∨ ∃ j', r=.page pd i' j') ∨ ∃ j'<j, r=.page pd i j'

theorem not_passed_dir : ¬ passed pd i j (.dir pd) := by rintro (⟨_,_,hc | ⟨_,hc⟩⟩ | ⟨_,_,hc⟩) <;> cases hc

theorem not_passed_table : ¬ passed pd i j (.table pd i) := by
  rintro (⟨i',hi',hc | ⟨_,hc⟩⟩ | ⟨_,_,hc⟩)
  · injection hc with _ hii
    omega
  · cases hc
  · cases hc

theorem not_passed_page : ¬ passed pd i j (.page pd i j) := by
  rintro (⟨i',hi',hc | ⟨_,hc⟩⟩ | ⟨j',hj',hc⟩)
  · cases hc
  · injection hc with _ hii _
    omega
  · injection hc with _ _ hjj
    omega

theorem passed.succ (h : passed pd i j r ∨ r=.page pd i j) : passed pd i (j+1) r := by
  rcases h with (h | ⟨j',hj',hr⟩) | hr
  · exact .inl h
  · exact .inr ⟨j',by omega,hr⟩
  · exact .inr ⟨j,by omega,hr⟩

theorem passed.next (h : passed pd i j r ∨ r=.table pd i) : passed pd (i+1) 0 r := by
  rcases h with (⟨i',hi',hr⟩ | ⟨j',_,hr⟩) | hr
  · exact .inl ⟨i',by omega,hr⟩
  · exact .inl ⟨i,by omega,.inr ⟨j',hr⟩⟩
  · exact .inl ⟨i,by omega,.inl hr⟩

section
variable (hdir : DirOk L s.mem role pd) (hpd : pd ∉ live)
include hdir hpd
section
variable (hi : i<pdLength) (hg : isGlobal (entryAt s.mem L.physKernelPd i)=false)
  (hne : pteGetPaddr (entryAt s.mem pd i)≠physNull)
include hi hg hne
theorem freeEntryPage_spec (hj : j<pdLength) (h : Released L live pd (passed pd i j) s role u fl role') :
    Ensures (freeEntryPage L (L.vmMapWalk (pteGetPaddr (entryAt s.mem pd i))) j) u
      (fun _ w=>∃ fl' role'', Released L live pd (passed pd i (j+1)) s role w fl' role'')
      (fun w=>w.trace=s.trace) := by
  obtain ⟨hf,hrl⟩ := (hdir.tables i hi hg).resolve_left hne
  have hkp := (h.keep hf (by rw [hrl]; simp) (hrl▸not_passed_table)).2
  simp only [freeEntryPage,wp_bind,wp_readEntry hf.isTable hj,entryAt_congr hkp hj]
  refine Ensures.ite (fun _=>?_) (fun _=>?_)
  · rcases hdir.pages i hi hg hne j hj with h0 | ⟨hq,hr⟩
    · rw [h0,wp_pfree_null]
      exact h.trace
    · apply (h.pfree_spec hpd hq (by rw [hr]; rfl) (hr▸not_passed_page)).ensures.imp
      rintro - w ⟨fl',role'',hw⟩
      exact ⟨fl',role'',hw.mono (fun r hr'=>passed.succ (hr▸hr'))⟩
  · rw [wp_pure]
    exact ⟨fl,role',h.mono (fun r hr=>passed.succ (.inl hr))⟩

theorem pagingFreeTable_spec (h : Released L live pd (passed pd i 0) s role u fl role') :
    Ensures (pagingFreeTable L (pteGetPaddr (entryAt s.mem pd i))) u
      (fun _ w=>∃ fl' role'', Released L live pd (passed pd (i+1) 0) s role w fl' role'')
      (fun w=>w.trace=s.trace) := by
  obtain ⟨hf,hrl⟩ := (hdir.tables i hi hg).resolve_left hne
  simp only [pagingFreeTable,wp_bind,wp_translateOrPanic hf.isTable h.owned.kernelTables]
  refine Ensures.imp (Ensures.forRange (I := fun j w=>∃ fl' role'',
    Released L live pd (passed pd i j) s role w fl' role'') ⟨fl,role',h⟩ ?_) ?_
  · rintro j w hj ⟨fl',role'',hw⟩
    exact freeEntryPage_spec hdir hpd hi hg hne hj hw
  · rintro - w ⟨fl',role'',hw⟩
    apply (hw.pfree_spec hpd hf (by rw [hrl]; rfl) (hrl▸not_passed_table)).ensures.imp
    rintro - x ⟨fl'',roleₓ,hx⟩
    exact ⟨fl'',roleₓ,hx.mono (fun r hr=>passed.next (hrl▸hr))⟩
end

theorem freeEntryTable_spec (hi : i<pdLength) (h : Released L live pd (passed pd i 0) s role u fl role') :
    Ensures (freeEntryTable L (L.vmMapWalk pd) i) u
      (fun _ w=>∃ fl' role'', Released L live pd (passed pd (i+1) 0) s role w fl' role'')
      (fun w=>w.trace=s.trace) := by
  have hkp := (h.keep hdir.frame (by rw [hdir.isDir]; simp) (hdir.isDir▸not_passed_dir)).2
  simp only [freeEntryTable,wp_bind,wp_readEntry hdir.frame.isTable hi,entryAt_congr hkp hi,pdeGetPaddr]
  refine Ensures.ite (fun hown=>?_) (fun _=>?_)
  · obtain ⟨hpr,hng⟩ : isPresent (entryAt s.mem pd i)=true ∧ isGlobal (entryAt s.mem pd i)=false := by
      simpa [isOwned] using hown
    have hg := hdir.kernel_not_global hi hng
    exact pagingFreeTable_spec hdir hpd hi hg (hdir.present i hi hg hpr) h
  · rw [wp_pure]
    exact ⟨fl,role',h.mono (fun r hr=>passed.next (.inl hr))⟩
end

theorem pagingFreeDir_spec (h : Owned L s fl live role) (hin : pd ∈ live)
    (hsub : ∀ p ∈ live', p ∈ live) (hpd : pd ∉ live') :
    Ensures (pagingFreeDir L pd) s
      (fun _ t=>∃ fl' role', Owned L t fl' live' role' ∧
        Effect L (some pd) role role' s.mem t.mem ∧ t.trace=s.trace)
      (fun t=>t.trace=s.trace) := by
  have hdir := h.dirs pd hin
  have hst := Released.refl (h.subset hsub) pd (passed pd 0 0)
  simp only [pagingFreeDir,wp_bind,wp_isUsingKernelPageTables,
    wp_kassert h.kernelTables,checkPallocLock_spec h.unlocked,
    wp_panicIf hdir.frame.ne_physKernelPd.symm,
    wp_translateOrPanic hdir.frame.isTable h.kernelTables]
  refine Ensures.imp (Ensures.forRange (I := fun i w=>∃ fl' role',
    Released L live' pd (passed pd i 0) s role w fl' role') ⟨fl,role,hst⟩ ?_) ?_
  · rintro i w hi ⟨fl',role',hw⟩
    exact freeEntryTable_spec hdir hpd hi hw
  · rintro - w ⟨fl',role',hw⟩
    refine (hw.pfree_spec hpd hdir.frame (by rw [hdir.isDir]; rfl)
      (hdir.isDir▸not_passed_dir)).ensures.imp ?_
    rintro - x ⟨fl'',role'',hx⟩
    exact ⟨fl'',role'',hx.owned,hx.effect,hx.trace⟩

end Yaos2.Memory
