import Yaos2.Process.Image

/-! # Moving the break

The code compares the distance from the base break with the free memory. -/
namespace Yaos2.Process
open Foundation Memory Finset

variable (L : Layout)

/-- The pages from `vfrom` to `vto`, both included. -/
def pagesTo (vfrom vto : ℕ) : Finset ℕ :=
  (Finset.range ((vto+pageSize-vfrom)/pageSize)).image (fun k=>vfrom+pageSize*k)

/-- The pages that are not mapped to a frame. -/
def missingPages (m : Mem) (pd : ℕ) (pages : Finset ℕ) : Finset ℕ :=
  pages.filter (fun w=>pteGetPaddr (walk m pd w)=physNull)

/-- The page tables of these pages that are not there. -/
def missingTables (m : Mem) (pd : ℕ) (pages : Finset ℕ) : Finset ℕ :=
  (pages.image (fun w=>getPdIndex (maskToPage w))).filter (fun i=>pteGetPaddr (entryAt m pd i)=physNull)

/-- The frames it takes to map the pages. -/
def framesMissing (m : Mem) (pd : ℕ) (pages : Finset ℕ) : ℕ :=
  (missingPages m pd pages).card+(missingTables m pd pages).card

def breakPages (proc : Proc) (v : ℕ) : Finset ℕ := pagesTo (maskToPage proc.curVbreak) (maskToPage v)

/-- It is not below the base break, it is in user memory, and there are frames for the pages. -/
def Grantable (s : Machine) (proc : Proc) (v : ℕ) : Prop :=
  proc.vbreak≤v ∧ v<userTop ∧ framesMissing s.mem proc.pd (breakPages proc v) ≤ s.remainingPages

/-- Mapped pages stay where they are, with what is in them. -/
def Kept (pd : ℕ) (s t : Machine) : Prop := ∀ w<userTop, pteGetPaddr (walk s.mem pd w)≠physNull →
    walk t.mem pd w=walk s.mem pd w ∧ t.mem (userByte s.mem pd w)=s.mem (userByte s.mem pd w)

/-- The addresses in the pages from the base break to `v`. -/
def InHeap (proc : Proc) (v w : ℕ) : Prop := maskToPage proc.vbreak≤w ∧ maskToPage w≤v

/-- The break is at `v`, and the pages up to it have frames of their own. -/
structure Moved (live : List ℕ) (proc : Proc) (v : ℕ) (s : Machine) (proc' : Proc) (t : Machine) : Prop where
  pd : proc'.pd=proc.pd
  vbreak : proc'.vbreak=proc.vbreak
  curVbreak : proc'.curVbreak=v
  kept : Kept proc.pd s t
  frame : ∀ w, InHeap proc v w → IsFrame L (pteGetPaddr (walk t.mem proc.pd w))
  distinct : ∀ w w', InHeap proc v w → InHeap proc v w' →
    pteGetPaddr (walk t.mem proc.pd w)=pteGetPaddr (walk t.mem proc.pd w') → maskToPage w=maskToPage w'
  unshared : ∀ w, InHeap proc v w → ∀ pd' ∈ live, pd'≠proc.pd → ∀ w'<userTop,
    pteGetPaddr (walk t.mem pd' w')≠pteGetPaddr (walk t.mem proc.pd w)
  taken : ∃ fl, FreeList L t fl ∧ ∀ w, InHeap proc v w → pteGetPaddr (walk t.mem proc.pd w) ∉ fl
  count : t.remainingPages+framesMissing s.mem proc.pd (breakPages proc v)=s.remainingPages

/-- The call answers `ok` and moves the break when that is possible, or `refused` and does nothing.
-/
def MovesBreak {α : Type} (live : List ℕ) (proc : Proc) (v : ℕ) (s : Machine) (ok refused : α → Prop)
    (r : α × Proc) (t : Machine) : Prop :=
  (Grantable s proc v → ok r.1 ∧ Moved L live proc v s r.2 t) ∧
    (¬ Grantable s proc v → refused r.1 ∧ r.2=proc ∧ t=s)

/-- The machine, the address spaces that are in use, and a process. -/
structure BreakState where
  machine : Machine
  live : List ℕ
  proc : Proc

/-- The machine is in order, and so is the address space of the process. -/
def BreakState.Sound (x : BreakState) : Prop := ∃ fl role, Owned L x.machine fl x.live role ∧ x.proc.pd ∈ x.live

/-- The process is new, and its break has been set with `proc_set_break`. -/
structure BreakStart (x : BreakState) : Prop where
  sound : x.Sound L
  standing : x.proc.curVbreak=x.proc.vbreak

/-- What can happen to the process. No call is accepted that cannot be granted. -/
inductive BreakStep : BreakState → BreakState → Prop
  | brk {x : BreakState} {v : ℕ} {r : Int × Proc} {t : Machine} :
      (brkRefused L x.proc v x.machine=false → Grantable x.machine x.proc v) →
      procBrk L x.proc v x.machine=.ok r t → BreakStep x ⟨t,x.live,r.2⟩
  | sbrk {x : BreakState} {diff : Int} {r : ℕ × Proc} {t : Machine} :
      (brkRefused L x.proc (x.proc.moved diff) x.machine=false →
        Grantable x.machine x.proc (x.proc.moved diff)) →
      procSbrk L x.proc diff x.machine=.ok r t → BreakStep x ⟨t,x.live,r.2⟩
  /-- Anything else that happens, to this process or to others, as long as its pages stay mapped. The process
  after it can be a child that has been forked. -/
  | other {x y : BreakState} : y.Sound L → y.proc.vbreak=x.proc.vbreak →
      y.proc.curVbreak=x.proc.curVbreak →
      (∀ w<userTop, pteGetPaddr (walk x.machine.mem x.proc.pd w)≠physNull →
        pteGetPaddr (walk y.machine.mem y.proc.pd w)≠physNull) → BreakStep x y

def BreakRun : BreakState → BreakState → Prop := Relation.ReflTransGen (BreakStep L)

variable {L} {s t u : Machine} {fl fl' live : List ℕ} {role : ℕ → Role} {pd v w fuel vfrom vto f : ℕ} {m : Mem}
  {proc proc' : Proc} {pages : Finset ℕ}

section

theorem pagesTo_of_le (h : vfrom≤vto) : pagesTo vfrom vto=insert vfrom (pagesTo (vfrom+pageSize) vto) := by
  have hn : (vto+pageSize-vfrom)/pageSize=(vto+pageSize-(vfrom+pageSize))/pageSize+1 := by
    simp only [pageSize]
    omega
  rw [pagesTo,pagesTo,hn]
  ext w
  simp only [mem_image,mem_range,mem_insert]
  constructor
  · rintro ⟨k,hk,rfl⟩
    cases k with
    | zero => exact .inl rfl
    | succ k => exact .inr ⟨k,by omega,by rw [Nat.mul_succ]; omega⟩
  · rintro (rfl | ⟨k,hk,rfl⟩)
    · exact ⟨0,Nat.succ_pos _,rfl⟩
    · exact ⟨k+1,by omega,by rw [Nat.mul_succ]; omega⟩

theorem pagesTo_of_gt (h : vto<vfrom) : pagesTo vfrom vto = ∅ := by
  have hn : (vto+pageSize-vfrom)/pageSize=0 := by
    simp only [pageSize]
    omega
  rw [pagesTo,hn,range_zero,image_empty]

theorem mem_pagesTo (h : w ∈ pagesTo vfrom vto) : vfrom≤w ∧ w≤vto := by
  obtain ⟨k,hk,rfl⟩ := mem_image.mp h
  rw [mem_range] at hk
  simp only [pageSize] at *
  omega

theorem pde_of_walk (h : pteGetPaddr (walk m pd v)≠physNull) :
    pteGetPaddr (entryAt m pd (getPdIndex (maskToPage v)))≠physNull := by
  intro hc
  rw [walk,if_pos hc] at h
  exact h pteGetPaddr_zero

theorem framesMissing_le : framesMissing m pd pages≤2*pages.card := by
  have hp : (missingPages m pd pages).card≤pages.card := card_filter_le _ _
  have ht : (missingTables m pd pages).card≤pages.card := (card_filter_le _ _).trans card_image_le
  rw [framesMissing]
  omega

theorem framesMissing_insert_mapped (h : pteGetPaddr (walk m pd v)≠physNull) :
    framesMissing m pd (insert v pages)=framesMissing m pd pages := by
  rw [framesMissing,framesMissing,missingPages,missingTables,image_insert,filter_insert,
    filter_insert,if_neg h,if_neg (pde_of_walk h)]
  rfl

theorem le_framesMissing (hv : v ∈ pages) (h : pteGetPaddr (walk m pd v)=physNull) :
    (1+if pteGetPaddr (entryAt m pd (getPdIndex (maskToPage v)))=physNull then 1 else 0) ≤
      framesMissing m pd pages := by
  have hpg : v ∈ missingPages m pd pages := mem_filter.mpr ⟨hv,h⟩
  have hps := card_pos.mpr ⟨v,hpg⟩
  rw [framesMissing]
  split
  · next hnl =>
    have htb : getPdIndex (maskToPage v) ∈ missingTables m pd pages :=
      mem_filter.mpr ⟨mem_image_of_mem _ hv,hnl⟩
    have htl := card_pos.mpr ⟨_,htb⟩
    omega
  · omega
end

section

section
variable (h : NewPage L live pd v f s t fl fl')
include h
theorem NewPage.isFrame (hf : f<pageSize) : IsFrame L (pteGetPaddr (walk t.mem pd v)) := by
  obtain ⟨p,hp,hw,-⟩ := h.frame
  have hb := hp.bounds
  rwa [hw,(pteConstruct_frame hp.aligned (show p<2^32 by omega) hf).2.2]

theorem NewPage.kept (hnl : pteGetPaddr (walk s.mem pd v)=physNull) :
    Kept pd s t := by
  intro w hw hne
  have hpg : maskToPage w≠maskToPage v := fun hc=>hne (by rw [walk_page hc]; exact hnl)
  have hoff : w%pageSize<pageSize := Nat.mod_lt w (by decide)
  refine ⟨h.other w (hw.trans (by decide)) hpg,h.pages w hw hne _ ?_ ?_⟩
  · exact Nat.le_add_right _ _
  · rw [userByte]
    omega

theorem NewPage.framesMissing (hf : f<pageSize) (hnl : pteGetPaddr (walk s.mem pd v)=physNull)
    (hpg : ∀ w ∈ pages, w<userTop ∧ maskToPage w≠maskToPage v) :
    framesMissing s.mem pd (insert v pages)+fl'.length=framesMissing t.mem pd pages+fl.length := by
  have hwl : ∀ w ∈ pages, walk t.mem pd w=walk s.mem pd w := fun w hw =>
    h.other w ((hpg w hw).1.trans (by decide)) (hpg w hw).2
  have hms : missingPages s.mem pd (insert v pages)=insert v (missingPages t.mem pd pages) := by
    rw [missingPages,missingPages,filter_insert,if_pos hnl]
    exact congrArg (insert v) (filter_congr (fun w hw=>by rw [hwl w hw]))
  have hnot : v ∉ missingPages t.mem pd pages := fun hc=>(hpg v (mem_filter.mp hc).1).2 rfl
  have htl := pde_of_walk (h.isFrame hf).ne_zero
  have htb : missingTables t.mem pd pages =
      (missingTables s.mem pd (insert v pages)).erase (getPdIndex (maskToPage v)) := by
    ext i
    simp only [missingTables,image_insert,mem_erase,mem_filter,mem_insert]
    by_cases hi : i=getPdIndex (maskToPage v)
    · simp [hi,htl,not_true,false_and]
    · simp only [hi,ne_eq,not_false_eq_true,true_and,false_or]
      refine and_congr_right (fun hin=>?_)
      obtain ⟨w,hw,rfl⟩ := mem_image.mp hin
      rw [h.pdes _ ((getPdIndex_user (hpg w hw).1).trans (by decide)) hi]
  have hmem : getPdIndex (maskToPage v) ∈ missingTables s.mem pd (insert v pages) ↔
      pteGetPaddr (pdeOf s pd v)=physNull := by
    simp [missingTables]
  have hcn := h.count
  rw [Process.framesMissing,Process.framesMissing,hms,card_insert_of_notMem hnot,htb]
  by_cases hpde : pteGetPaddr (pdeOf s pd v)=physNull
  · have hcr := card_erase_add_one (hmem.mpr hpde)
    rw [if_pos hpde] at hcn
    omega
  · rw [erase_eq_of_notMem (fun hc=>hpde (hmem.mp hc))]
    rw [if_neg hpde] at hcn
    omega
end

end

section

theorem Kept.refl (pd : ℕ) (s : Machine) : Kept pd s s := fun _ _ _=>⟨rfl,rfl⟩

theorem Kept.mapped (h : Kept pd s t) (hw : w<userTop) (hne : pteGetPaddr (walk s.mem pd w)≠physNull) :
    pteGetPaddr (walk t.mem pd w)≠physNull := by
  rwa [(h w hw hne).1]

theorem Kept.trans (h : Kept pd s t) (h' : Kept pd t u) : Kept pd s u := by
  intro w hw hne
  obtain ⟨hwl,hb⟩ := h w hw hne
  obtain ⟨hwl',hb'⟩ := h' w hw (h.mapped hw hne)
  have ha : userByte t.mem pd w=userByte s.mem pd w := by rw [userByte,userByte,hwl]
  rw [ha] at hb'
  exact ⟨hwl'.trans hwl,hb'.trans hb⟩

/-- The pages up to `vto` are there, and it took just the frames that were missing. -/
structure Reserved (L : Layout) (live : List ℕ) (proc : Proc) (vfrom vto : ℕ) (s : Machine) (fl : List ℕ)
    (proc' : Proc) (t : Machine) : Prop where
  pd : proc'.pd=proc.pd
  vbreak : proc'.vbreak=proc.vbreak
  kept : Kept proc.pd s t
  owned : ∃ fl' role', Owned L t fl' live role' ∧
    fl'.length+framesMissing s.mem proc.pd (pagesTo vfrom vto)=fl.length
  mapped : ∀ w, vfrom≤w → maskToPage w≤vto → pteGetPaddr (walk t.mem proc.pd w)≠physNull

section
variable (ho : Owned L s fl live role)
include ho
theorem reserved_of_gt (hal : vfrom%pageSize=0) (hgt : vto<vfrom) :
    Reserved L live proc vfrom vto s fl proc s := by
  refine ⟨rfl,rfl,.refl _ _,⟨fl,role,ho,by rw [pagesTo_of_gt hgt]; rfl⟩,fun w hw hw'=>?_⟩
  simp only [maskToPage,pageSize] at *
  omega

theorem unsafeVmreserve_first (hpd : proc.pd ∈ live) (hal : vfrom%pageSize=0)
    (hle : vfrom≤vto) (hto : vto<userTop)
    (hrm : framesMissing s.mem proc.pd (pagesTo vfrom vto)≤fl.length) :
    Returns (unsafeVmreserve L proc vfrom (vmUser ||| vmWrite)) s (fun proc' t =>
      proc'.pd=proc.pd ∧ proc'.vbreak=proc.vbreak ∧ Kept proc.pd s t ∧
        pteGetPaddr (walk t.mem proc.pd vfrom)≠physNull ∧ ∃ fl' role', Owned L t fl' live role' ∧
          framesMissing s.mem proc.pd (pagesTo vfrom vto)+fl'.length =
            framesMissing t.mem proc.pd (pagesTo (vfrom+pageSize) vto)+fl.length) := by
  have hfl : vmPflags (vmUser ||| vmWrite) ||| pageBitPresent<pageSize := by decide
  have hms := maskToPage_of_aligned hal
  have hin : vfrom ∈ pagesTo vfrom vto := by simp [pagesTo_of_le hle]
  have hrs : ∀ w ∈ pagesTo (vfrom+pageSize) vto, w<userTop ∧ maskToPage w≠maskToPage vfrom := by
    intro w hw
    obtain ⟨h1,h2⟩ := mem_pagesTo hw
    refine ⟨h2.trans_lt hto,?_⟩
    rw [hms]
    simp only [maskToPage,pageSize] at *
    omega
  refine (unsafeVmreserve_cases ho hpd (hle.trans_lt hto)).mono ?_ ?_
  · rintro proc' t (⟨hp,rfl,rfl⟩ | ⟨hnl,rfl,⟨rfl,-⟩ | ⟨fl',hnew⟩⟩)
    · refine ⟨rfl,rfl,.refl _ _,hp,fl,role,ho,?_⟩
      rw [pagesTo_of_le hle,framesMissing_insert_mapped hp]
    · have hone := le_framesMissing hin hnl
      rw [List.length_nil] at hrm
      omega
    · obtain ⟨role',ho'⟩ := hnew.owned
      refine ⟨proc.extend_pd _,proc.extend_vbreak _,hnew.kept hnl,(hnew.isFrame hfl).ne_zero,fl',role',
        ho',?_⟩
      rw [pagesTo_of_le hle]
      exact hnew.framesMissing hfl hnl hrs
  · rintro u ⟨hnl,hpde,hlt⟩
    have htwo := le_framesMissing hin hnl
    rw [if_pos hpde] at htwo
    omega

theorem reserveRange_returns (hpd : proc.pd ∈ live) (hal : vfrom%pageSize=0)
    (hto : vto<userTop) (hfl : vto<vfrom+pageSize*fuel)
    (hrm : framesMissing s.mem proc.pd (pagesTo vfrom vto)≤fl.length) :
    Returns (reserveRange L (fuel+1) proc vfrom vto) s (Reserved L live proc vfrom vto s fl) := by
  induction fuel generalizing s fl role proc vfrom with
  | zero =>
    have hgt : vto<vfrom := by simpa using hfl
    rw [reserveRange,if_neg (by omega),Returns,wp_pure]
    exact reserved_of_gt ho hal hgt
  | succ fuel ih =>
    by_cases hle : vfrom≤vto
    · have hwr : (vfrom+pageSize)%2^32=vfrom+pageSize := by
        simp only [pageSize,userTop] at *
        omega
      rw [reserveRange,if_pos hle,Returns,wp_bind,hwr]
      apply (unsafeVmreserve_first ho hpd hal hle hto hrm).imp
      rintro proc' t ⟨hpd',hvb,hkp,hfr,fl',role',ho',hcn⟩
      have hnx : Returns (reserveRange L (fuel+1) proc' (vfrom+pageSize) vto) t
          (Reserved L live proc' (vfrom+pageSize) vto t fl') :=
        ih ho' (by rw [hpd']; exact hpd) (by simp only [pageSize] at *; omega)
          (by rw [Nat.mul_succ] at hfl; omega) (by rw [hpd']; omega)
      apply hnx.imp
      rintro proc'' u ⟨hpd'',hvb',hkp',⟨fl'',role'',ho'',hcn'⟩,hmp⟩
      rw [hpd'] at hkp' hcn' hmp
      refine ⟨hpd''.trans hpd',hvb'.trans hvb,hkp.trans hkp',⟨fl'',role'',ho'',by omega⟩,fun w hw hw'=>?_⟩
      by_cases hpg : w<vfrom+pageSize
      · have hsm : maskToPage w=maskToPage vfrom := by
          rw [maskToPage_eq hal hw hpg,maskToPage_of_aligned hal]
        rw [walk_page hsm]
        exact hkp'.mapped (hle.trans_lt hto) hfr
      · exact hmp w (by omega) hw'
    · rw [reserveRange,if_neg hle,Returns,wp_pure]
      exact reserved_of_gt ho hal (by omega)
end

end

section

/-- The heap of the process is mapped, but for the page of a break that has never been moved. -/
def HeapMapped (m : Mem) (proc : Proc) : Prop := proc.vbreak≤proc.curVbreak ∧ (proc.curVbreak=proc.vbreak ∨
    ∀ w<userTop, InHeap proc proc.curVbreak w → pteGetPaddr (walk m proc.pd w)≠physNull)

theorem InHeap.lt_userTop (h : InHeap proc v w) (hv : v<userTop) : w<userTop := by
  have hle := h.2
  simp only [maskToPage,pageSize,userTop] at *
  omega

section
variable (h : Reserved L live proc (maskToPage proc.curVbreak) (maskToPage v) s fl proc' t)
include h
theorem Reserved.heap (hhp : HeapMapped s.mem proc) (hv : v<userTop) (hw : InHeap proc v w) :
    pteGetPaddr (walk t.mem proc.pd w)≠physNull := by
  have hlt := hw.lt_userTop hv
  have hpg : maskToPage w ≤ maskToPage v := by
    have hle := hw.2
    simp only [maskToPage,pageSize] at *
    omega
  by_cases hcur : maskToPage proc.curVbreak≤w
  · exact h.mapped w hcur hpg
  · rcases hhp.2 with hst | hmp
    · rw [hst] at hcur
      exact absurd hw.1 hcur
    · refine h.kept.mapped hlt (hmp w hlt ⟨hw.1,?_⟩)
      have hle := maskToPage_le w
      have hle' := maskToPage_le proc.curVbreak
      omega

theorem Reserved.moved (ho : Owned L s fl live role) (hpd : proc.pd ∈ live) (hhp : HeapMapped s.mem proc) (hv : v<userTop)
    (hpd' : proc''.pd=proc'.pd) (hvb : proc''.vbreak=proc'.vbreak) (hcur : proc''.curVbreak=v) :
    Moved L live proc v s proc'' t := by
  obtain ⟨fl',role',ho',hcn⟩ := h.owned
  have hfr : ∀ w, InHeap proc v w → IsFrame L (pteGetPaddr (walk t.mem proc.pd w)) ∧
      role' (pteGetPaddr (walk t.mem proc.pd w)) =
        .page proc.pd (getPdIndex (maskToPage w)) (getPtIndex (maskToPage w)) :=
    fun w hw=>frame_of_present ho' hpd (hw.lt_userTop hv) (h.heap hhp hv hw)
  refine ⟨hpd'.trans h.pd,hvb.trans h.vbreak,hcur,h.kept,fun w hw=>(hfr w hw).1,fun w w' hw hw' heq=>?_,
    fun w hw pd' hpd' hne w' hw' heq=>?_,⟨fl',ho'.list,fun w hw hin=>?_⟩,?_⟩
  · have hrl := (hfr w hw).2
    rw [heq,(hfr w' hw').2] at hrl
    injection hrl with _ hi hj
    exact maskToPage_of_indices hi.symm hj.symm
  · have hne' : pteGetPaddr (walk t.mem pd' w')≠physNull := by
      rw [heq]
      exact h.heap hhp hv hw
    have hrl := (frame_of_present ho' hpd' hw' hne').2
    rw [heq,(hfr w hw).2] at hrl
    injection hrl with hdir
    exact hne hdir.symm
  · have hrl := (hfr w hw).2
    rw [ho'.free _ hin] at hrl
    cases hrl
  · rwa [ho'.list.remaining,ho.list.remaining]
end

theorem unsafeBrk_grants (ho : Owned L s fl live role) (hpd : proc.pd ∈ live) (hhp : HeapMapped s.mem proc)
    (hg : Grantable s proc v) (hac : brkRefused L proc v s=false) :
    Returns (unsafeBrk L proc v) s (fun r t=>r.1=0 ∧ Moved L live proc v s r.2 t ∧
      ∃ fl' role', Owned L t fl' live role') := by
  obtain ⟨-,hv,hrm⟩ := hg
  rw [ho.list.remaining] at hrm
  have hto := (maskToPage_le v).trans_lt hv
  have hfl : maskToPage v < maskToPage proc.curVbreak+pageSize*2^20 := by
    simp only [pageSize,userTop] at *
    omega
  simp only [unsafeBrk,Returns,wp_bind,wp_get,hac,Bool.false_eq_true,if_false,wp_pure]
  apply (reserveRange_returns ho hpd (maskToPage_mod _) hto hfl hrm).imp
  intro proc' t hres
  obtain ⟨fl',role',ho',-⟩ := hres.owned
  exact ⟨trivial,hres.moved ho hpd hhp hv rfl rfl rfl,fl',role',ho'⟩

theorem unsafeBrk_refuses (h : brkRefused L proc v s=true) :
    Returns (unsafeBrk L proc v) s (fun r t=>r=(-eUnspec, proc) ∧ t=s) := by
  simp [unsafeBrk,h]

section
variable (ho : Owned L s fl live role)
include ho
theorem unsafeBrk_cases (hpd : proc.pd ∈ live) (hhp : HeapMapped s.mem proc)
    (hrg : brkRefused L proc v s=false → Grantable s proc v) :
    Returns (unsafeBrk L proc v) s (fun r t =>
      brkRefused L proc v s=true ∧ r=(-eUnspec, proc) ∧ t=s ∨
        Grantable s proc v ∧ brkRefused L proc v s=false ∧ r.1=0 ∧ Moved L live proc v s r.2 t ∧
          ∃ fl' role', Owned L t fl' live role') := by
  cases hcs : brkRefused L proc v s with
  | false =>
    have hg := hrg hcs
    exact (unsafeBrk_grants ho hpd hhp hg hcs).imp (fun r t hQ=>.inr ⟨hg,rfl,hQ⟩)
  | true => exact (unsafeBrk_refuses hcs).imp (fun r t hQ=>.inl ⟨rfl,hQ⟩)

theorem procBrk_eq (Q : Int × Proc → Machine → Prop) :
    Returns (procBrk L proc v) s Q ↔ Returns (unsafeBrk L proc v) s Q := by
  simp [procBrk,wp_kassert ho.kernelTables]

theorem procSbrk_eq (Q : ℕ × Proc → Machine → Prop) :
    Returns (procSbrk L proc diff) s Q ↔ Returns (unsafeBrk L proc (proc.moved diff)) s (fun r t =>
      Q (if r.1<0 then (r.1%2^32).toNat else proc.curVbreak, r.2) t) := by
  simp [procSbrk,wp_bind,wp_isUsingKernelPageTables,wp_kassert ho.kernelTables,wp_pure]

theorem unsafeBrk_movesBreak (hpd : proc.pd ∈ live) (hhp : HeapMapped s.mem proc)
    (hag : Grantable s proc v ↔ brkRefused L proc v s=false) :
    Returns (unsafeBrk L proc v) s (MovesBreak L live proc v s (· = 0) (· = -eUnspec)) := by
  apply (unsafeBrk_cases ho hpd hhp hag.mpr).imp
  rintro r t (⟨href,rfl,rfl⟩ | ⟨hg,-,hr,hmv,-⟩)
  · refine ⟨fun hg=>?_,fun _=>⟨rfl,rfl,rfl⟩⟩
    rw [hag.mp hg] at href
    cases href
  · exact ⟨fun _=>⟨hr,hmv⟩,fun hno=>absurd hg hno⟩
end

end

section
variable {a b x y : BreakState}

def BreakInv (L : Layout) (x : BreakState) : Prop := x.Sound L ∧ HeapMapped x.machine.mem x.proc

theorem BreakStart.inv (h : BreakStart L x) : BreakInv L x := ⟨h.sound,h.standing.ge,.inl h.standing⟩

theorem Moved.heapMapped (h : Moved L live proc v s proc' t) (hv : proc.vbreak≤v) : HeapMapped t.mem proc' := by
  refine ⟨by rw [h.vbreak,h.curVbreak]; exact hv,.inr fun w _ hw=>?_⟩
  rw [InHeap,h.vbreak,h.curVbreak] at hw
  rw [h.pd]
  exact (h.frame w hw).ne_zero

theorem BreakInv.unsafeBrk (h : BreakInv L x) (hr : brkRefused L x.proc v x.machine=false →
    Grantable x.machine x.proc v) :
    Returns (unsafeBrk L x.proc v) x.machine (fun r t=>BreakInv L ⟨t,x.live,r.2⟩) := by
  obtain ⟨⟨fl,role,ho,hpd⟩,hhp⟩ := h
  apply (unsafeBrk_cases ho hpd hhp hr).imp
  rintro r t (⟨-,rfl,rfl⟩ | ⟨hg,-,-,hm,fl',role',ho'⟩)
  · exact ⟨⟨fl,role,ho,hpd⟩,hhp⟩
  · exact ⟨⟨fl',role',ho',by rw [hm.pd]; exact hpd⟩,hm.heapMapped hg.1⟩

theorem BreakStep.inv (h : BreakInv L x) (hst : BreakStep L x y) : BreakInv L y := by
  obtain ⟨fl,role,ho,hpd⟩ := h.1
  cases hst with
  | brk hrg hok => exact ((procBrk_eq ho _).mpr (h.unsafeBrk hrg)).of_ok hok
  | sbrk hrg hok =>
    have hinv := h.unsafeBrk hrg
    exact ((procSbrk_eq ho fun r t=>BreakInv L ⟨t,x.live,r.2⟩).mpr hinv).of_ok hok
  | other hsn hvb hcur hmp =>
    refine ⟨hsn,by rw [hvb,hcur]; exact h.2.1,?_⟩
    simpa [InHeap,hvb,hcur] using h.2.2.imp_right (fun hhp w hw hin=>hmp w hw (hhp w hw hin))

theorem exists_twoFrames : ∃ (pd : ℕ) (s : Machine), BreakStart .smallImage ⟨s,[pd],⟨pd,0,0,0x1000,0x1000⟩⟩ ∧
    s.remainingPages=2 ∧ pteGetPaddr (walk s.mem pd 0x1000)=physNull ∧
    pteGetPaddr (entryAt s.mem pd 0)=physNull := by
  obtain ⟨s,fl,hs,hinv,hlen,-⟩ := exists_spacesStart 3 (by decide)
  obtain ⟨pd,t,rest,role',-,hinv',-,hr,-,hn⟩ := hinv.allocDir hlen
  refine ⟨pd,t,⟨⟨rest,role',hinv'.owned,by simp⟩,rfl⟩,hinv'.owned.list.remaining.trans hr,?_,?_⟩
  · rw [walk_of_null hn (by decide)]
    exact pteGetPaddr_zero
  · rw [hn 0 (by decide)]
    exact pteGetPaddr_zero

theorem breakPages_firstPage (hcur : proc.curVbreak=0x1000) (hv : maskToPage v=0x1000) :
    breakPages proc v = {0x1000} := by
  rw [breakPages,hcur,hv]
  decide

theorem firstPage_agrees (pd : ℕ) (hrem : s.remainingPages=2) : Grantable s ⟨pd,0,0,0x1000,0x1000⟩ 0x1000 ∧
    brkRefused .smallImage ⟨pd,0,0,0x1000,0x1000⟩ 0x1000 s=false := by
  refine ⟨⟨le_rfl,show 0x1000<userTop by decide,?_⟩,?_⟩
  · rw [breakPages_firstPage rfl (by decide),hrem]
    exact framesMissing_le
  · rfl

end

end Yaos2.Process
