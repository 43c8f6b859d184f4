import Yaos2.Process.Image

/-! # Freeing a process

The frames are given back in two walks, neither of which clears an entry. -/
namespace Yaos2.Process
open Foundation Memory List Nat

variable (L : Layout)

/-- The loop `while (v <= proc->arch->vto)` of `proc_free`. -/
def freeRange (pd vto : ℕ) : ℕ → ℕ → Kernel Unit
  | 0, _ => abort "endless loop"
  | fuel+1, v =>
    if v≤vto then do
      let pte ← pagingGetEntry L pd v
      if isOwned pte then
        pfree L (pteGetPaddr pte)
      freeRange pd vto fuel ((v+pageSize)%2^32)
    else
      pure ()

/-- `proc_free`, as far as the memory of the process is concerned. -/
def procFree (proc : Proc) : Kernel Unit := do
  kassert "is_using_kernel_page_tables()" (← isUsingKernelPageTables L)
  panicIf (← get).env.pallocLockHeld "proc_vmreserve(): holding palloc lock"
  freeRange L proc.pd proc.vto addressPages proc.vfrom
  pagingFreeDir L proc.pd

/-- Calling `pfree` for the frames of the list, one after the other, leads from `s` to the last state. -/
inductive Frees (s : Machine) : List ℕ → Machine → Prop
  | nil : Frees s [] s
  | snoc {l : List ℕ} {t u : Machine} {q : ℕ} : Frees s l t → pfree L q t=.ok () u → Frees s (l++[q]) u

/-- What the present and non-global ones of the first `n` entries of a table lead to. -/
def pagesOf (m : Mem) (pt n : ℕ) : List ℕ :=
  (((List.range n).map (entryAt m pt)).filter isOwned).map pteGetPaddr

/-- The frames of one page table, itself the last. -/
def tableFrames (m : Mem) (pt : ℕ) : List ℕ := pagesOf m pt pdLength++[pt]

/-- The frames of an address space: for every page table its pages and the table, then the directory. -/
def ownFrames (m : Mem) (pd : ℕ) : List ℕ := (pagesOf m pd pdLength).flatMap (tableFrames m)++[pd]

/-- The frames that the walk over the addresses finds. -/
def rangeFrames (m : Mem) (pd vto : ℕ) : ℕ → ℕ → List ℕ
  | 0, _ => []
  | fuel+1, v =>
    if v≤vto then
      (if isOwned (walk m pd v) then [pteGetPaddr (walk m pd v)] else []) ++
        rangeFrames m pd vto fuel ((v+pageSize)%2^32)
    else []

def foundFrames (m : Mem) (proc : Proc) : List ℕ := rangeFrames m proc.pd proc.vto addressPages proc.vfrom

/-- The directory, the table of a present non-global entry, or a page of such a table. -/
def OwnFrame (m : Mem) (pd q : ℕ) : Prop :=
  q=pd ∨ ∃ i<pdLength, isOwned (entryAt m pd i)=true ∧ (q=pteGetPaddr (entryAt m pd i) ∨
    ∃ j<pdLength, isOwned (entryAt m (pteGetPaddr (entryAt m pd i)) j)=true ∧
      q=pteGetPaddr (entryAt m (pteGetPaddr (entryAt m pd i)) j))

structure Procs where
  machine : Machine
  procs : List Proc

/-- One step in the making of the processes' memory. There are frames enough for an address space that is
duplicated. -/
inductive BuildStep : Procs → Procs → Prop
  | alloc {s t : Machine} {ps : List Proc} {pd : ℕ} : pagingAllocDir L s=.ok pd t →
      BuildStep ⟨s,ps⟩ ⟨t,⟨pd,0,0,0,0⟩::ps⟩
  | setBreak {s : Machine} {ps : List Proc} {proc : Proc} {v : ℕ} : proc ∈ ps → v<2^32 →
      BuildStep ⟨s,ps⟩ ⟨s,{proc with vbreak := v, curVbreak := v}::ps.erase proc⟩
  | reserve {s t : Machine} {ps : List Proc} {proc proc' : Proc} {v flags : ℕ} : proc ∈ ps → v<2^32 →
      procVmreserve L proc v flags s=.ok proc' t → BuildStep ⟨s,ps⟩ ⟨t,proc'::ps.erase proc⟩
  | brk {s t : Machine} {ps : List Proc} {proc proc' : Proc} {v : ℕ} {r : ℤ} : proc ∈ ps → v<2^32 →
      proc.curVbreak<2^32 → procBrk L proc v s=.ok (r, proc') t →
      BuildStep ⟨s,ps⟩ ⟨t,proc'::ps.erase proc⟩
  | dup {s t : Machine} {ps : List Proc} {dst src : Proc} : dst ∈ ps → src ∈ ps → src.pd≠dst.pd →
      dupCost s.mem src.pd ≤ s.remainingPages → vmdup L dst.pd src.pd s=.ok () t →
      BuildStep ⟨s,ps⟩ ⟨t,ps⟩
  /-- The assignments of `proc_fork` to the new process. -/
  | inherit {s : Machine} {ps : List Proc} {dst src : Proc} : dst ∈ ps → src ∈ ps →
      BuildStep ⟨s,ps⟩ ⟨s,{src with pd := dst.pd}::ps.erase dst⟩

def BuildRun : Procs → Procs → Prop := Relation.ReflTransGen (BuildStep L)

/-- The machine after the boot, without processes. -/
structure BuildStart (a : Procs) : Prop where
  machine : SpacesStart L ⟨a.machine,[],[]⟩
  procs : a.procs=[]

variable {L} {s t u : Machine} {fl live l : List ℕ} {role : ℕ → Role} {pd vto v q i j n fuel : ℕ} {m : Mem}
  {proc : Proc}

section

theorem pagesOf_succ (m : Mem) (pt n : ℕ) : pagesOf m pt (n+1)=pagesOf m pt n ++
    if isOwned (entryAt m pt n) then [pteGetPaddr (entryAt m pt n)] else [] := by
  simp only [pagesOf,range_succ,map_append,filter_append,map_cons,map_nil,filter_singleton]
  cases isOwned (entryAt m pt n) <;> rfl

theorem mem_pagesOf : q ∈ pagesOf m pd n ↔
    ∃ i<n, isOwned (entryAt m pd i)=true ∧ pteGetPaddr (entryAt m pd i)=q := by
  simp only [pagesOf,mem_map,mem_filter,mem_range]
  constructor
  · rintro ⟨_,⟨⟨i,hi,rfl⟩,ho⟩,hq⟩
    exact ⟨i,hi,ho,hq⟩
  · rintro ⟨i,hi,ho,hq⟩
    exact ⟨_,⟨⟨i,hi,rfl⟩,ho⟩,hq⟩

theorem mem_ownFrames : q ∈ ownFrames m pd ↔ OwnFrame m pd q := by
  rw [ownFrames,mem_append,mem_singleton,or_comm,OwnFrame,mem_flatMap]
  refine or_congr_right ⟨?_,?_⟩
  · rintro ⟨_,ht,hq⟩
    obtain ⟨i,hi,hown,rfl⟩ := mem_pagesOf.mp ht
    refine ⟨i,hi,hown,?_⟩
    rcases mem_append.mp hq with hin | hin
    · obtain ⟨j,hj,hown',rfl⟩ := mem_pagesOf.mp hin
      exact .inr ⟨j,hj,hown',rfl⟩
    · exact .inl (mem_singleton.mp hin)
  · rintro ⟨i,hi,hown,hq⟩
    refine ⟨_,mem_pagesOf.mpr ⟨i,hi,hown,rfl⟩,mem_append.mpr ?_⟩
    rcases hq with rfl | ⟨j,hj,hown',rfl⟩
    · exact .inr (mem_singleton_self _)
    · exact .inl (mem_pagesOf.mpr ⟨j,hj,hown',rfl⟩)

theorem mem_rangeFrames (hvto : vto<userTop) (h : q ∈ rangeFrames m pd vto fuel v) :
    ∃ w, v≤w ∧ w≤vto ∧ isOwned (walk m pd w)=true ∧ q=pteGetPaddr (walk m pd w) := by
  induction fuel generalizing v with
  | zero => simp [rangeFrames] at h
  | succ fuel ih =>
    rw [rangeFrames] at h
    split at h
    · next hle =>
      have hnx : (v+pageSize)%2^32=v+pageSize := mod_eq_of_lt (by
        simp only [userTop,pageSize] at *
        omega)
      rw [hnx] at h
      rcases mem_append.mp h with hin | hin
      · split at hin
        · next hown => exact ⟨v,le_rfl,hle,hown,mem_singleton.mp hin⟩
        · simp at hin
      · obtain ⟨w,hw,hrs⟩ := ih hin
        exact ⟨w,by omega,hrs⟩
    · simp at h

theorem rangeFrames_eq_nil (hvto : vto<userTop)
    (h : ∀ w, v≤w → w≤vto → isOwned (walk m pd w)=false) : rangeFrames m pd vto fuel v=[] := by
  refine eq_nil_iff_forall_not_mem.mpr (fun q hq=>?_)
  obtain ⟨w,hw,hw',hown,-⟩ := mem_rangeFrames hvto hq
  rw [h w hw hw'] at hown
  cases hown

theorem pagesOf_nodup (h : ∀ i<n, ∀ j<n, isOwned (entryAt m pd i)=true → isOwned (entryAt m pd j)=true →
    pteGetPaddr (entryAt m pd i)=pteGetPaddr (entryAt m pd j) → i=j) : (pagesOf m pd n).Nodup := by
  induction n with
  | zero => exact nodup_nil
  | succ n ih =>
    have ih := ih (fun i hi j hj=>h i (by omega) j (by omega))
    rw [pagesOf_succ]
    split
    · next hown =>
      refine nodup_append.mpr ⟨ih,nodup_singleton _,fun q hq q' hq' hqq=>?_⟩
      obtain ⟨i,hi,hown',hi'⟩ := mem_pagesOf.mp hq
      rw [hqq,mem_singleton.mp hq'] at hi'
      have := h i (by omega) n (by omega) hown' hown hi'
      omega
    · rwa [append_nil]
end

section

section
variable (h : Frees L s l t) (ho : Owned L s fl live role) (hl : ∀ q ∈ l, IsFrame L q)
include h ho hl
theorem Frees.spec : SameEnv s t ∧ t.remainingPages=s.remainingPages+l.length ∧
      (t.firstFreePage=0 ∨ t.firstFreePage ∈ l++fl) ∧
      ∀ x, pageSize≤x → maskToPage x ∉ l++fl → t.mem x=s.mem x := by
  induction h with
  | nil =>
    refine ⟨⟨rfl,rfl⟩,rfl,?_,fun _ _ _=>rfl⟩
    rw [ho.list.first]
    cases fl with
    | nil => exact .inl rfl
    | cons p rest => exact .inr (by simp)
  | @snoc l t u q _ hok ih =>
    obtain ⟨henv,hrem,hfr,hmem⟩ := ih (fun q hq=>hl q (by simp [hq]))
    have hfm : t.firstFreePage=0 ∨ IsFrame L t.firstFreePage := by
      refine hfr.imp id (fun hin=>?_)
      rcases mem_append.mp hin with hin | hin
      · exact hl _ (by simp [hin])
      · exact ho.list.frame _ hin
    have hk : t.env.isUsingKernelPageTables L=true := by
      rw [henv.1]
      exact ho.kernelTables
    obtain ⟨hf,hr,he,hm⟩ := (pfree_frame hk (hl q (by simp)) hfm).of_ok hok
    refine ⟨⟨he.1.trans henv.1,he.2.trans henv.2⟩,?_,.inr (by simp [hf]),fun x hx hout=>?_⟩
    · rw [hr,hrem,length_append,length_singleton,add_assoc]
    · simp only [mem_append,mem_singleton,not_or] at hout
      rw [hm x hout.1.2 ?_,hmem x hx (by simp [hout])]
      rintro hc
      rcases hfr with h0 | hin
      · have := maskToPage_le x
        have := lt_maskToPage_add x
        omega
      · simp_all

theorem Frees.list (hnd : (l.reverse++fl).Nodup) : FreeList L t (l.reverse++fl) := by
  induction h with
  | nil => exact ho.list
  | @snoc l t u q hfr hok ih =>
    rw [reverse_append,reverse_singleton,singleton_append,cons_append,nodup_cons] at hnd
    have hl' : ∀ q ∈ l, IsFrame L q := fun q hq=>hl q (by simp [hq])
    have hk : t.env.isUsingKernelPageTables L=true := by
      rw [(hfr.spec ho hl').1.1]
      exact ho.kernelTables
    have hps := ((pfree_spec (ih hl' hnd.2) hk (hl q (by simp)) hnd.1).of_ok hok).1
    rwa [reverse_append,reverse_singleton,singleton_append,cons_append]
end

end

section

/-- Only pages of `pd` and tables before `i` have been given to `pfree`. -/
structure Handed (L : Layout) (s : Machine) (role : ℕ → Role) (pd i : ℕ) (l : List ℕ) (t : Machine) : Prop where
  frees : Frees L s l t
  frame : ∀ q ∈ l, IsFrame L q
  below : ∀ q ∈ l, (∃ i' j, role q=.page pd i' j) ∨ ∃ i' < i, role q=.table pd i'

variable (ho : Owned L s fl live role) (hpd : pd ∈ live)

theorem Handed.next (h : Handed L s role pd i l t) : Handed L s role pd (i+1) l t :=
  ⟨h.frees,h.frame,fun q hq=>(h.below q hq).imp id (fun ⟨i',hi',hr⟩=>⟨i',by omega,hr⟩)⟩

include ho
namespace Handed

section
variable (h : Handed L s role pd i l t)
include h
theorem env : t.env=s.env := (h.frees.spec ho h.frame).1.1

theorem keep (hq : IsFrame L q) (hus : role q≠.free) (hl : q ∉ l) :
    SameOn s.mem t.mem q pageSize := by
  intro x hx hx'
  have hb := hq.bounds
  have hlow := L.kmFreePhysBase_bounds
  apply (h.frees.spec ho h.frame).2.2.2 x (by simp only [pageSize] at *; omega)
  rw [maskToPage_eq hq.aligned hx hx',mem_append,not_or]
  exact ⟨hl,ho.not_mem hus⟩

theorem keep_dir (hq : IsFrame L q) (hrl : role q=.dir pd) :
    SameOn s.mem t.mem q pageSize := by
  refine h.keep ho hq (by rw [hrl]; simp) (fun hin=>?_)
  rcases h.below q hin with ⟨i',j,hr⟩ | ⟨i',-,hr⟩ <;> rw [hrl] at hr <;> cases hr

theorem keep_table (hq : IsFrame L q) (hrl : role q=.table pd n)
    (hn : i≤n) : SameOn s.mem t.mem q pageSize := by
  refine h.keep ho hq (by rw [hrl]; simp) (fun hin=>?_)
  rcases h.below q hin with ⟨i',j,hr⟩ | ⟨i',hi',hr⟩ <;> rw [hrl] at hr
  · cases hr
  · injection hr with _ hii
    omega

theorem pfree_frees (hq : IsFrame L q) : Returns (pfree L q) t (fun _ u=>Frees L s (l++[q]) u) := by
  obtain ⟨henv,-,hfr,-⟩ := h.frees.spec ho h.frame
  have hfm : t.firstFreePage=0 ∨ IsFrame L t.firstFreePage := by
    refine hfr.imp id (fun hin=>?_)
    exact (mem_append.mp hin).elim (h.frame _) (ho.list.frame _)
  have hk : t.env.isUsingKernelPageTables L=true := by
    rw [henv.1]
    exact ho.kernelTables
  obtain ⟨⟨⟩,u,hok,-⟩ := (pfree_frame hk hq hfm).exists_ok
  exact (wp_of_ok hok).mpr (.snoc h.frees hok)

theorem pfree_spec (hq : IsFrame L q) (hn : i≤n)
    (hrl : (∃ i' j, role q=.page pd i' j) ∨ ∃ i'<n, role q=.table pd i') :
    Returns (pfree L q) t (fun _ u=>Handed L s role pd n (l++[q]) u) := by
  refine (h.pfree_frees ho hq).imp (fun _ u hu=>⟨hu,fun q' hq'=>?_,fun q' hq'=>?_⟩)
  · rcases mem_append.mp hq' with hin | hin
    · exact h.frame q' hin
    · exact mem_singleton.mp hin▸hq
  · rcases mem_append.mp hq' with hin | hin
    · exact (h.below q' hin).imp id (fun ⟨i',hi',hr⟩=>⟨i',by omega,hr⟩)
    · exact mem_singleton.mp hin▸hrl
end

end Handed

include hpd
section
variable (hi : i<pdLength) (hg : isGlobal (entryAt s.mem L.physKernelPd i)=false)
  (hne : pteGetPaddr (entryAt s.mem pd i)≠physNull)
include hi hg hne
theorem freeEntryPage_frees (hj : j<pdLength)
    (h : Handed L s role pd i (l++pagesOf s.mem (pteGetPaddr (entryAt s.mem pd i)) j) t) :
    Ensures (freeEntryPage L (L.vmMapWalk (pteGetPaddr (entryAt s.mem pd i))) j) t
      (fun _ u=>Handed L s role pd i (l++pagesOf s.mem (pteGetPaddr (entryAt s.mem pd i)) (j+1)) u)
      (fun _=>physNull ∈ pagesOf s.mem (pteGetPaddr (entryAt s.mem pd i)) pdLength) := by
  have hdir := ho.dirs pd hpd
  obtain ⟨hf,hrl⟩ := (hdir.tables i hi hg).resolve_left hne
  have hkp := h.keep_table ho hf hrl le_rfl
  simp only [freeEntryPage,wp_bind,wp_readEntry hf.isTable hj,entryAt_congr hkp hj]
  rw [pagesOf_succ,← append_assoc]
  refine Ensures.ite (fun hown=>?_) (fun hown=>?_)
  · rw [if_pos hown]
    rcases hdir.pages i hi hg hne j hj with h0 | ⟨hq,hr⟩
    · rw [h0,wp_pfree_null]
      exact mem_pagesOf.mpr ⟨j,hj,hown,h0⟩
    · exact (h.pfree_spec ho hq le_rfl (.inl ⟨i,j,hr⟩)).ensures
  · rwa [if_neg hown,append_nil,wp_pure]

theorem pagingFreeTable_frees (h : Handed L s role pd i l t) :
    Ensures (pagingFreeTable L (pteGetPaddr (entryAt s.mem pd i))) t
      (fun _ u=>Handed L s role pd (i+1) (l++tableFrames s.mem (pteGetPaddr (entryAt s.mem pd i))) u)
      (fun _=>physNull ∈ tableFrames s.mem (pteGetPaddr (entryAt s.mem pd i))) := by
  obtain ⟨hf,hrl⟩ := ((ho.dirs pd hpd).tables i hi hg).resolve_left hne
  have hk : t.env.isUsingKernelPageTables L=true := by
    rw [h.env ho]
    exact ho.kernelTables
  simp only [pagingFreeTable,wp_bind,wp_translateOrPanic hf.isTable hk]
  refine Ensures.mono (Ensures.forRange (I := fun j u =>
    Handed L s role pd i (l++pagesOf s.mem (pteGetPaddr (entryAt s.mem pd i)) j) u) ?_ ?_) ?_ ?_
    (E := fun _=>physNull ∈ pagesOf s.mem (pteGetPaddr (entryAt s.mem pd i)) pdLength)
  · rwa [pagesOf,range_zero,map_nil,filter_nil,map_nil,append_nil]
  · exact fun j u hj hu=>freeEntryPage_frees ho hpd hi hg hne hj hu
  · intro _ u hu
    rw [tableFrames,← append_assoc]
    exact (hu.pfree_spec ho hf (le_succ i) (.inr ⟨i,by omega,hrl⟩)).ensures
  · exact fun _ hnull=>mem_append_left _ hnull
end

theorem own_table (hi : i<pdLength) (hown : isOwned (entryAt s.mem pd i)=true) :
    isGlobal (entryAt s.mem L.physKernelPd i)=false ∧ pteGetPaddr (entryAt s.mem pd i)≠physNull ∧
      IsFrame L (pteGetPaddr (entryAt s.mem pd i)) ∧ role (pteGetPaddr (entryAt s.mem pd i))=.table pd i := by
  have hdir := ho.dirs pd hpd
  obtain ⟨hpr,hng⟩ : isPresent (entryAt s.mem pd i)=true ∧ isGlobal (entryAt s.mem pd i)=false := by
    simpa [isOwned] using hown
  have hg := hdir.kernel_not_global hi hng
  have hne := hdir.present i hi hg hpr
  exact ⟨hg,hne,(hdir.tables i hi hg).resolve_left hne⟩

theorem freeEntryTable_frees (hi : i<pdLength)
    (h : Handed L s role pd i (l++(pagesOf s.mem pd i).flatMap (tableFrames s.mem)) t) :
    Ensures (freeEntryTable L (L.vmMapWalk pd) i) t
      (fun _ u=>Handed L s role pd (i+1) (l++(pagesOf s.mem pd (i+1)).flatMap (tableFrames s.mem)) u)
      (fun _=>physNull ∈ ownFrames s.mem pd) := by
  have hdir := ho.dirs pd hpd
  have hkp := h.keep_dir ho hdir.frame hdir.isDir
  simp only [freeEntryTable,wp_bind,wp_readEntry hdir.frame.isTable hi,entryAt_congr hkp hi,pdeGetPaddr]
  rw [pagesOf_succ,flatMap_append,← append_assoc]
  refine Ensures.ite (fun hown=>?_) (fun hown=>?_)
  · obtain ⟨hg,hne,-⟩ := own_table ho hpd hi hown
    rw [if_pos hown,flatMap_singleton]
    refine (pagingFreeTable_frees ho hpd hi hg hne h).mono (fun _ _ hu=>hu)
      (fun _ hnull=>mem_append_left _ ?_)
    exact mem_flatMap.mpr ⟨_,mem_pagesOf.mpr ⟨i,hi,hown,rfl⟩,hnull⟩
  · rw [if_neg hown,flatMap_nil,append_nil,wp_pure]
    exact h.next

section
variable (h : Handed L s role pd 0 l t)
include h
theorem pagingFreeDir_frees : Ensures (pagingFreeDir L pd) t
      (fun _ u=>Frees L s (l++ownFrames s.mem pd) u ∧ ∀ q ∈ l++ownFrames s.mem pd, IsFrame L q)
      (fun _=>physNull ∈ ownFrames s.mem pd) := by
  have hdir := ho.dirs pd hpd
  have henv := h.env ho
  have hk : t.env.isUsingKernelPageTables L=true := by
    rw [henv]
    exact ho.kernelTables
  have hlc : t.env.pallocLockHeld=false := by
    rw [henv]
    exact ho.unlocked
  simp only [pagingFreeDir,wp_bind,wp_isUsingKernelPageTables,wp_kassert hk,
    checkPallocLock_spec hlc,wp_panicIf hdir.frame.ne_physKernelPd.symm,
    wp_translateOrPanic hdir.frame.isTable hk]
  refine Ensures.imp (Ensures.forRange (I := fun i u =>
    Handed L s role pd i (l++(pagesOf s.mem pd i).flatMap (tableFrames s.mem)) u) ?_ ?_) ?_
  · rwa [pagesOf,range_zero,map_nil,filter_nil,map_nil,flatMap_nil,append_nil]
  · exact fun i u hi hu=>freeEntryTable_frees ho hpd hi hu
  · intro _ u hu
    rw [ownFrames,← append_assoc]
    refine (hu.pfree_frees ho hdir.frame).ensures.imp (fun _ _ hw=>⟨hw,fun q hq=>?_⟩)
    rcases mem_append.mp hq with hin | hin
    · exact hu.frame q hin
    · exact mem_singleton.mp hin▸hdir.frame

theorem Handed.lookup (hv : v<userTop) : Ensures (pagingGetEntry L pd v) t Q E ↔ Q (walk s.mem pd v) t := by
  have hdir := ho.dirs pd hpd
  have hlt : v<2^32 := hv.trans (by decide)
  have hi := getPdIndex_lt hlt
  have hg := ho.kernel.user _ (getPdIndex_user hv)
  have hk : t.env.isUsingKernelPageTables L=true := by
    rw [h.env ho]
    exact ho.kernelTables
  have hen := entryAt_congr (h.keep_dir ho hdir.frame hdir.isDir) hi
  have hwl : walk t.mem pd v=walk s.mem pd v := by
    rw [walk,walk,hen]
    split
    · rfl
    · next hne =>
      obtain ⟨hf,hrl⟩ := (hdir.tables _ hi hg).resolve_left hne
      exact entryAt_congr (h.keep_table ho hf hrl (zero_le _)) (getPtIndex_lt _)
  rw [wp_pagingGetEntry hdir.frame.isTable hk hlt,hwl]
  intro e he hne
  rw [hen] at he
  subst he
  exact hdir.isTable ho.kernel hi hne

theorem freeRange_frees (hvto : vto<userTop) (hfl : vto<v+pageSize*fuel) :
    Ensures (freeRange L pd vto (fuel+1) v) t
      (fun _ u=>Handed L s role pd 0 (l++rangeFrames s.mem pd vto (fuel+1) v) u)
      (fun _=>physNull ∈ rangeFrames s.mem pd vto (fuel+1) v) := by
  induction fuel generalizing v l t with
  | zero =>
    have hgt : ¬ v≤vto := by omega
    rwa [freeRange,rangeFrames,if_neg hgt,if_neg hgt,wp_pure,append_nil]
  | succ fuel ih =>
    rw [freeRange,rangeFrames]
    by_cases hle : v≤vto
    · have hv := hle.trans_lt hvto
      have hnx : (v+pageSize)%2^32=v+pageSize := mod_eq_of_lt (by
        simp only [userTop,pageSize] at *
        omega)
      have hfl' : vto<v+pageSize+pageSize*fuel := by
        rw [mul_succ] at hfl
        omega
      rw [if_pos hle,if_pos hle,wp_bind,h.lookup ho hpd hv,hnx,← append_assoc]
      refine Ensures.ite (fun hown=>?_) (fun hown=>?_)
      · rw [if_pos hown,wp_bind]
        by_cases hnull : pteGetPaddr (walk s.mem pd v)=physNull
        · simp [hnull,wp_pfree_null]
        · obtain ⟨hf,hrl⟩ := frame_of_present ho hpd hv hnull
          refine (h.pfree_spec ho hf le_rfl (.inl ⟨_,_,hrl⟩)).ensures.imp (fun _ u hu=>?_)
          exact (ih hu hfl').mono (fun _ _ hw=>hw) (fun _ hnull=>mem_append_right _ hnull)
      · rw [if_neg hown,append_nil]
        exact (ih h hfl').mono (fun _ _ hw=>hw) (fun _ hnull=>mem_append_right _ hnull)
    · rwa [if_neg hle,if_neg hle,wp_pure,append_nil]
end

omit hpd

theorem procFree_frees (hpd : proc.pd ∈ live) (hvto : proc.vto<userTop) : Ensures (procFree L proc) s
      (fun _ t=>Frees L s (foundFrames s.mem proc++ownFrames s.mem proc.pd) t ∧
        ∀ q ∈ foundFrames s.mem proc++ownFrames s.mem proc.pd, IsFrame L q)
      (fun _=>physNull ∈ foundFrames s.mem proc++ownFrames s.mem proc.pd) := by
  have hst : Handed L s role proc.pd 0 [] s := ⟨.nil,by simp,by simp⟩
  simp only [procFree,wp_bind,wp_isUsingKernelPageTables,wp_kassert ho.kernelTables,wp_get]
  rw [ho.unlocked,wp_panicIf (by simp)]
  refine (freeRange_frees ho hpd hst hvto ?_).mono ?_ (fun _ hnull=>mem_append_left _ hnull)
  · simp only [userTop,pageSize] at *
    omega
  · intro _ t ht
    exact (pagingFreeDir_frees ho hpd ht).mono (fun _ _ hu=>hu) (fun _ hnull=>mem_append_right _ hnull)
end

section
variable (ho : Owned L s fl live role) (hpd : pd ∈ live) (hnull : physNull ∉ ownFrames s.mem pd)
include ho hpd
include hnull

theorem mem_tableFrames (hi : i<pdLength) (hown : isOwned (entryAt s.mem pd i)=true)
    (hq : q ∈ tableFrames s.mem (pteGetPaddr (entryAt s.mem pd i))) :
    role q=.table pd i ∨ ∃ j, role q=.page pd i j := by
  obtain ⟨hg,hne,-,hrl⟩ := own_table ho hpd hi hown
  rcases mem_append.mp hq with hin | hin
  · obtain ⟨j,hj,hown',rfl⟩ := mem_pagesOf.mp hin
    have hpg := ((ho.dirs pd hpd).pages i hi hg hne j hj).resolve_left (fun h0=>hnull ?_)
    · exact .inr ⟨j,hpg.2⟩
    · refine mem_append_left _ (mem_flatMap.mpr ⟨_,mem_pagesOf.mpr ⟨i,hi,hown,rfl⟩,?_⟩)
      exact mem_append_left _ (mem_pagesOf.mpr ⟨j,hj,hown',h0⟩)
  · simp_all

theorem role_of_mem_ownFrames (hq : q ∈ ownFrames s.mem pd) : role q≠.free := by
  intro hfr
  rcases mem_append.mp hq with hin | hin
  · obtain ⟨_,htb,hin⟩ := mem_flatMap.mp hin
    obtain ⟨i,hi,hown,rfl⟩ := mem_pagesOf.mp htb
    rcases mem_tableFrames ho hpd hnull hi hown hin with hr | ⟨j,hr⟩ <;> rw [hfr] at hr <;> cases hr
  · simp_all [(ho.dirs pd hpd).isDir]

theorem tableFrames_nodup (hi : i<pdLength) (hown : isOwned (entryAt s.mem pd i)=true) :
    (tableFrames s.mem (pteGetPaddr (entryAt s.mem pd i))).Nodup := by
  obtain ⟨hg,hne,-,hrl⟩ := own_table ho hpd hi hown
  have hpg : ∀ j<pdLength, isOwned (entryAt s.mem (pteGetPaddr (entryAt s.mem pd i)) j)=true →
      role (pteGetPaddr (entryAt s.mem (pteGetPaddr (entryAt s.mem pd i)) j))=.page pd i j := by
    intro j hj hown'
    refine (((ho.dirs pd hpd).pages i hi hg hne j hj).resolve_left (fun h0=>hnull ?_)).2
    refine mem_append_left _ (mem_flatMap.mpr ⟨_,mem_pagesOf.mpr ⟨i,hi,hown,rfl⟩,?_⟩)
    exact mem_append_left _ (mem_pagesOf.mpr ⟨j,hj,hown',h0⟩)
  refine nodup_append.mpr ⟨pagesOf_nodup (fun j hj j' hj' ho1 ho2 he=>?_),nodup_singleton _,
    fun q hq q' hq' hqq=>?_⟩
  · have hr := hpg j hj ho1
    rw [he,hpg j' hj' ho2] at hr
    injection hr with _ _ hjj
    exact hjj.symm
  · obtain ⟨j,hj,hown',rfl⟩ := mem_pagesOf.mp hq
    rw [mem_singleton.mp hq'] at hqq
    have hr := hpg j hj hown'
    rw [hqq,hrl] at hr
    cases hr

theorem ownFrames_nodup : (ownFrames s.mem pd).Nodup := by
  have hdir := ho.dirs pd hpd
  have hrl : ∀ p ∈ (pagesOf s.mem pd pdLength).flatMap (tableFrames s.mem), role p≠.dir pd := by
    intro q hq hc
    obtain ⟨_,htl,hin⟩ := mem_flatMap.mp hq
    obtain ⟨i,hi,hown,rfl⟩ := mem_pagesOf.mp htl
    rcases mem_tableFrames ho hpd hnull hi hown hin with hr | ⟨j,hr⟩ <;> rw [hc] at hr <;> cases hr
  have htb : (pagesOf s.mem pd pdLength).Nodup := by
    refine pagesOf_nodup (fun i hi j hj ho1 ho2 he=>?_)
    have hr := (own_table ho hpd hi ho1).2.2.2
    rw [he,(own_table ho hpd hj ho2).2.2.2] at hr
    injection hr with _ hij
    exact hij.symm
  have hfl : ((pagesOf s.mem pd pdLength).flatMap (tableFrames s.mem)).Nodup := by
    rw [nodup_flatMap]
    constructor
    · intro p hp
      obtain ⟨i,hi,hown,rfl⟩ := mem_pagesOf.mp hp
      exact tableFrames_nodup ho hpd hnull hi hown
    · refine htb.imp_of_mem (fun {p p'} hp hp' hne q hq hq'=>?_)
      obtain ⟨i,hi,hown,rfl⟩ := mem_pagesOf.mp hp
      obtain ⟨i',hi',hown',rfl⟩ := mem_pagesOf.mp hp'
      have hii : i≠i' := fun he=>hne (by rw [he])
      rcases mem_tableFrames ho hpd hnull hi hown hq with hr | ⟨j,hr⟩ <;>
        rcases mem_tableFrames ho hpd hnull hi' hown' hq' with hr' | ⟨j',hr'⟩ <;> rw [hr] at hr'
      · simp_all
      · cases hr'
      · cases hr'
      · injection hr' with _ h _
        exact hii h
  refine hfl.append (nodup_singleton _) (fun q hq hq'=>?_)
  exact hrl q hq (by rw [mem_singleton.mp hq',hdir.isDir])
end

section
variable {a b : Procs}

theorem erase_pds {ps : List Proc} (hp : proc ∈ ps) (hpd : proc'.pd=proc.pd) :
    ∀ pd ∈ (proc'::ps.erase proc).map Proc.pd, pd ∈ ps.map Proc.pd := by
  intro pd hin
  rw [map_cons,mem_cons] at hin
  rcases hin with rfl | hin
  · exact hpd▸mem_map_of_mem hp
  · obtain ⟨q,hq,rfl⟩ := mem_map.mp hin
    exact mem_map_of_mem (mem_of_mem_erase hq)

theorem BuildStep.owned (hst : BuildStep L a b) (ho : Owned L a.machine fl (a.procs.map Proc.pd) role) :
    ∃ fl' role', Owned L b.machine fl' (b.procs.map Proc.pd) role' := by
  cases hst with
  | @alloc s t ps pd hok =>
    have hinv : SpacesInv L ⟨s,ps.map Proc.pd,[]⟩ fl role := ⟨ho,by simp,nodup_nil⟩
    obtain ⟨fl',role',hinv',-⟩ := (SpaceStep.allocDir hok).spec hinv
    exact ⟨fl',role',hinv'.owned⟩
  | setBreak hpr _ => exact ⟨fl,role,ho.subset (erase_pds hpr rfl)⟩
  | reserve hpr hv hok =>
    obtain ⟨hpd,⟨fl',role',ho',-⟩,-⟩ := (procVmreserve_spec ho (mem_map_of_mem hpr) hv).of_ok hok
    exact ⟨fl',role',ho'.subset (erase_pds hpr hpd)⟩
  | brk hpr _ hcur hok =>
    obtain ⟨hpd,⟨fl',role',ho',-⟩,-⟩ := (procBrk_spec ho (mem_map_of_mem hpr) hcur).of_ok hok
    exact ⟨fl',role',ho'.subset (erase_pds hpr hpd)⟩
  | @dup s t ps dst src hdst hsrc hne hcs hok =>
    have hinv : SpacesInv L ⟨s,ps.map Proc.pd,[]⟩ fl role := ⟨ho,by simp,nodup_nil⟩
    obtain ⟨fl',role',hinv',-⟩ := (SpaceStep.dup (mem_map_of_mem hdst) (mem_map_of_mem hsrc) hne hcs
      hok).spec hinv
    exact ⟨fl',role',hinv'.owned⟩
  | inherit hdst _ => exact ⟨fl,role,ho.subset (erase_pds hdst rfl)⟩

theorem BuildRun.owned (hrun : BuildRun L a b) (h0 : BuildStart L a) :
    ∃ fl role, Owned L b.machine fl (b.procs.map Proc.pd) role := by
  refine Reaches.invariant (I := fun c : Procs=>∃ fl role, Owned L c.machine fl (c.procs.map Proc.pd) role) hrun
    ?_ ?_
  · obtain ⟨fl,hinv⟩ := h0.machine.inv
    rw [h0.procs]
    exact ⟨fl,_,hinv.owned⟩
  · rintro c d ⟨fl,role,ho⟩ hs
    exact hs.owned ho

theorem exists_newProcess : ∃ (a b : Procs) (pd : ℕ) (fl : List ℕ) (role : ℕ → Role),
    BuildStart .smallImage a ∧ BuildRun .smallImage a b ∧ b.procs=[⟨pd,0,0,0,0⟩] ∧
      Owned .smallImage b.machine fl [pd] role ∧ 15≤fl.length ∧
      (∀ i<pdLength, isOwned (entryAt b.machine.mem pd i)=false) ∧
      ∀ w<userTop, walk b.machine.mem pd w=0 := by
  obtain ⟨s,fl,hst,hinv,hlen,-⟩ := exists_spacesStart 16 le_rfl
  obtain ⟨pd,t,rest,role',hsp,ht,-,hrs,hown,hzr⟩ := hinv.allocDir hlen
  cases hsp with
  | allocDir hok =>
    exact ⟨⟨s,[]⟩,⟨t,[⟨pd,0,0,0,0⟩]⟩,pd,rest,role',⟨hst,rfl⟩,.single (.alloc hok),rfl,ht.owned,
      hrs.ge,hown,fun w hw=>walk_of_null hzr hw⟩

theorem isOwned_pteConstruct (p f : ℕ) : isOwned (pteConstruct p f)=isOwned f := by
  rw [isOwned,isOwned,isGlobal_pteConstruct,isPresent_eq,isPresent_eq,testBit_pteConstruct p f (by decide)]

theorem exists_onePage : ∃ (a b : Procs) (proc : Proc) (fl : List ℕ) (role : ℕ → Role),
    BuildStart .smallImage a ∧ BuildRun .smallImage a b ∧ b.procs=[proc] ∧ proc.vfrom=0x1000 ∧
      proc.vto=0x1000 ∧ Owned .smallImage b.machine fl [proc.pd] role ∧
      isOwned (walk b.machine.mem proc.pd 0x1000)=true ∧
      pteGetPaddr (walk b.machine.mem proc.pd 0x1000)≠physNull ∧ ¬ OwnFrame b.machine.mem proc.pd physNull := by
  obtain ⟨a,b,pd,fl,role,h0,hrun,hpr,ho,hlen,hnn,hwl⟩ := exists_newProcess
  have hpd := mem_singleton_self pd
  have hrs : Returns (procVmreserve .smallImage ⟨pd,0,0,0,0⟩ 0x1000 (vmUser ||| vmWrite)) b.machine
      (fun proc' t=>proc'=⟨pd,0x1000,0x1000,0,0⟩ ∧ ∃ fl', NewPage .smallImage [pd] pd 0x1000
        (vmPflags (vmUser ||| vmWrite) ||| pageBitPresent) b.machine t fl fl') := by
    simp only [procVmreserve,Returns,wp_bind,wp_isUsingKernelPageTables,wp_get,wp_kassert ho.kernelTables]
    rw [wp_panicIf (by rw [ho.unlocked]; simp)]
    refine (unsafeVmreserve_cases ho hpd (by decide)).mono ?_ (fun _ hc=>by omega)
    rintro proc' t (⟨hp,-⟩ | ⟨-,rfl,⟨rfl,-⟩ | hnew⟩)
    · rw [hwl _ (by decide)] at hp
      exact absurd pteGetPaddr_zero hp
    · simp at hlen
    · exact ⟨rfl,hnew⟩
  obtain ⟨_,t,hok,rfl,fl',hnew⟩ := hrs.exists_ok
  obtain ⟨role',ho'⟩ := hnew.owned
  obtain ⟨p,hf,hwp,-⟩ := hnew.frame
  have hb := hf.bounds
  have hpa : pteGetPaddr (walk t.mem pd 0x1000)=p := by
    rw [hwp]
    exact (pteConstruct_frame hf.aligned (by omega) (by decide)).2.2
  refine ⟨a,⟨t,[⟨pd,0x1000,0x1000,0,0⟩]⟩,⟨pd,0x1000,0x1000,0,0⟩,fl',role',h0,hrun.tail ?_,rfl,rfl,
    rfl,ho',?_,?_,?_⟩
  · have hpc : (⟨pd,0,0,0,0⟩ : Proc) ∈ b.procs := by simp [hpr]
    have hst : BuildStep .smallImage b ⟨t,_::b.procs.erase _⟩ := .reserve hpc (by decide) hok
    rwa [hpr,erase_cons_head] at hst
  · rw [hwp,isOwned_pteConstruct]
    decide
  · rw [hpa]
    exact hf.ne_zero
  · rintro (hc | ⟨i,hi,hown,hc | ⟨j,hj,hown',hc⟩⟩)
    · exact (ho'.dirs pd hpd).frame.ne_zero hc.symm
    · exact (own_table ho' hpd hi hown).2.1 hc.symm
    · have hi0 : i=0 := by
        by_contra hne
        rw [hnew.pdes i hi hne,hnn i hi] at hown
        cases hown
      subst hi0
      rw [← walk_firstTable hj (own_table ho' hpd hi hown).2.1] at hown' hc
      by_cases hj1 : j=1
      · rw [hj1,mul_one] at hc
        exact hf.ne_zero (hpa.symm.trans hc.symm)
      · have hpg : maskToPage (pageSize*j)≠maskToPage 0x1000 := by
          simp only [maskToPage,pageSize]
          omega
        have hlt : pageSize*j<userTop := by
          simp only [userTop,pageSize,pdLength] at *
          omega
        rw [hnew.other _ (hlt.trans (by decide)) hpg,hwl _ hlt] at hown'
        exact absurd hown' (by decide)

end

end Yaos2.Process
