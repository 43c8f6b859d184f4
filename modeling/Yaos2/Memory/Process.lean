import Yaos2.Memory.Isolation

/-! # Reserving user memory

A call runs under the mutex of the process, so it is one computation. -/
namespace Yaos2.Memory
open Foundation

def vmUser : ℕ := 0x01
def vmWrite : ℕ := 0x02
def vmExec : ℕ := 0x04

def eUnspec : Int := 2

/-- The memory of a process, `struct arch_proc`. -/
structure Proc where
  pd : ℕ
  vfrom : ℕ
  vto : ℕ
  vbreak : ℕ
  curVbreak : ℕ
  deriving DecidableEq, Repr

variable (L : Layout)

/-- The paging flags for the flags of a request. -/
def vmPflags (flags : ℕ) : ℕ :=
  let pflags := pageBitPresent
  let pflags := if flags &&& vmUser≠0 then pflags ||| pageBitUser else pflags
  if flags &&& vmWrite≠0 then pflags ||| pageBitRw else pflags

/-- Update the bounds of the process's memory after the page at `v` was mapped. -/
def Proc.extend (proc : Proc) (v : ℕ) : Proc :=
  let proc := if proc.vfrom=0 then {proc with vfrom := v} else proc
  let proc := if proc.vto=0 then {proc with vto := v} else proc
  let proc := if proc.vfrom > v then {proc with vfrom := v} else proc
  if proc.vto<v then {proc with vto := v} else proc

/-- `unsafe_vmreserve`. Telling the other CPUs of the change leaves memory alone. -/
def unsafeVmreserve (proc : Proc) (v flags : ℕ) : Kernel Proc := do
  let v := maskToPage v
  let p ← pagingGet L proc.pd v
  if p≠physNull then
    return proc
  else
    pagingMap L proc.pd v (← palloc L) (vmPflags flags)
    return proc.extend v

def procVmreserve (proc : Proc) (v flags : ℕ) : Kernel Proc := do
  kassert "is_using_kernel_page_tables()" (← isUsingKernelPageTables L)
  panicIf (← get).env.pallocLockHeld "proc_vmreserve(): holding palloc lock"
  unsafeVmreserve L proc v flags

/-- One more than there are pages: a loop over pages that is longer runs in circles. -/
def addressPages : ℕ := 2^20+1

/-- The loop `while (vfrom <= vto)` of `unsafe_brk`. -/
def reserveRange : ℕ → Proc → ℕ → ℕ → Kernel Proc
  | 0, _, _, _ => abort "endless loop"
  | fuel+1, proc, vfrom, vto =>
    if vfrom≤vto then do
      let proc ← unsafeVmreserve L proc vfrom (vmUser ||| vmWrite)
      reserveRange fuel proc ((vfrom+pageSize)%2^32) vto
    else
      pure proc

/-- The two checks of `unsafe_brk`. -/
def brkRefused (proc : Proc) (v : ℕ) (s : Machine) : Bool :=
  decide (v<proc.vbreak) || isGlobal (L.vmGetPflags v) ||
    decide (v-proc.vbreak > s.remainingPages*pageSize)

def unsafeBrk (proc : Proc) (v : ℕ) : Kernel (Int × Proc) := do
  if brkRefused L proc v (← get) then
    return (-eUnspec, proc)
  else
    let vto := maskToPage v
    let proc ← reserveRange L addressPages proc (maskToPage proc.curVbreak) vto
    return (0, {proc with
      curVbreak := v
      vto := if proc.vto<vto then vto else proc.vto})

def procBrk (proc : Proc) (v : ℕ) : Kernel (Int × Proc) := do
  kassert "is_using_kernel_page_tables()" (← isUsingKernelPageTables L)
  unsafeBrk L proc v

def Proc.moved (proc : Proc) (diff : Int) : ℕ := ((proc.curVbreak+diff)%2^32).toNat

def procSbrk (proc : Proc) (diff : Int) : Kernel (ℕ × Proc) := do
  kassert "is_using_kernel_page_tables()" (← isUsingKernelPageTables L)
  let (result, proc') ← unsafeBrk L proc (proc.moved diff)
  return (if result<0 then (result%2^32).toNat else proc.curVbreak, proc')

variable {L} {s t u : Machine} {fl live : List ℕ} {role : ℕ → Role} {c c' : Prop} {pd v flags fuel vfrom vto : ℕ}
  {proc : Proc}

/-- Physical page zero was mapped on the way from `s` to `t` unless `c` holds. -/
def CleanIff (c : Prop) (s t : Machine) : Prop := c ∧ Clean s t ∨ ¬ c ∧ Tainted s t

theorem CleanIff.iff (h : CleanIff c s t) : Clean s t ↔ c := by
  rcases h with ⟨hc,h⟩ | ⟨hc,h⟩
  · exact ⟨fun _=>hc,fun _=>h⟩
  · exact ⟨fun hcl=>absurd hcl (not_clean_of_tainted h),fun h=>absurd h hc⟩

theorem CleanIff.extends (h : CleanIff c s t) : Extends s t :=
  h.elim (fun h=>h.2.extends) (fun h=>⟨h.2.choose,h.2.choose_spec.1⟩)

theorem CleanIff.trans (h : CleanIff c s t) (h' : CleanIff c' t u) : CleanIff (c ∧ c') s u := by
  rcases h with ⟨hc,h⟩ | ⟨hc,h⟩
  · rcases h' with ⟨hc',h'⟩ | ⟨hc',h'⟩
    · exact .inl ⟨⟨hc,hc'⟩,h.trans h'⟩
    · exact .inr ⟨fun hcc=>hc' hcc.2,h.extends.tainted h'⟩
  · exact .inr ⟨fun hcc=>hc hcc.1,h.extends h'.extends⟩

/-- What has been done for the process: only its own address space has changed. -/
def Served (L : Layout) (live : List ℕ) (pd : ℕ) (s : Machine) (role : ℕ → Role) (t : Machine) : Prop :=
  ∃ fl' role', Owned L t fl' live role' ∧ Effect L (some pd) role role' s.mem t.mem

theorem Served.refl (h : Owned L s fl live role) : Served L live pd s role s := ⟨fl,role,h,.refl ..⟩

theorem vmPflags_spec (flags : ℕ) : vmPflags flags<pageSize ∧ isGlobal (vmPflags flags)=false := by
  simp only [vmPflags]
  split <;> split <;> decide

/-- The page is there, or there is a frame for it, or the call panics. -/
def ReserveClean (s : Machine) (pd v : ℕ) : Prop :=
  pteGetPaddr (walk s.mem pd v)≠physNull ∨ s.remainingPages≠0 ∨
    pteGetPaddr (pdeOf s pd v)=physNull ∨ isGlobal (pdeOf s pd v)=true

theorem Proc.extend_pd (proc : Proc) (v : ℕ) : (proc.extend v).pd=proc.pd := by
  simp only [Proc.extend]
  split_ifs <;> rfl

theorem Proc.extend_vbreak (proc : Proc) (v : ℕ) : (proc.extend v).vbreak=proc.vbreak := by
  simp only [Proc.extend]
  split_ifs <;> rfl

section
variable (h : Owned L s fl live role) (hpd : proc.pd ∈ live) (hv : v<2^32)
include h hpd hv
theorem unsafeVmreserve_spec : Ensures (unsafeVmreserve L proc v flags) s
      (fun proc' t=>proc'.pd=proc.pd ∧ Served L live proc.pd s role t ∧
        CleanIff (ReserveClean s proc.pd (maskToPage v)) s t)
      (CleanIff (ReserveClean s proc.pd (maskToPage v)) s) := by
  have hv' := (maskToPage_le v).trans_lt hv
  have hrem := h.list.remaining
  obtain ⟨hlt,hg⟩ := vmPflags_spec flags
  simp only [unsafeVmreserve,pagingGet,wp_bind,h.wp_lookup hpd hv',wp_pure]
  refine Ensures.ite (fun hp=>?_) (fun hp=>?_)
  · rw [wp_pure]
    exact ⟨rfl,.refl h,.inl ⟨.inl hp,.of_eq rfl⟩⟩
  rw [not_ne_iff] at hp
  simp only [wp_bind,wp_pure]
  apply (palloc_owned h).ensures.imp
  rintro p t (⟨hfl,rfl,rfl⟩ | ⟨rest,hfl,ht,he,hf,⟨henv,htr⟩,-⟩)
  · -- no frame: the mapping of page zero goes through unless the page table is missing
    rw [hfl] at hrem
    refine (pagingMap_spec h hpd hv' hlt (.inl rfl)).mono ?_ ?_
    · rintro - u ⟨-,hgp,hrm,role',hu,heu,-,htn,-⟩
      refine ⟨proc.extend_pd _,⟨_,role',hu,heu⟩,.inr ⟨?_,htn rfl⟩⟩
      rintro (hc | hc | hc | hc)
      · exact hc hp
      · exact hc hrem
      · exact hrm hc hfl
      · rw [hgp] at hc
        cases hc
    · rintro u ⟨hcl,hc⟩
      refine .inl ⟨?_,hcl⟩
      rcases hc with hc | hc | ⟨hc,-⟩
      · rw [hg] at hc
        cases hc
      · exact .inr (.inr (.inr hc))
      · exact .inr (.inr (.inl hc))
  · have hrm : ReserveClean s proc.pd (maskToPage v) := .inr (.inl (by rw [hrem,hfl]; simp))
    refine (pagingMap_spec ht hpd hv' hlt (.inr ⟨hf,Function.update_self ..⟩)).mono ?_ ?_
    · rintro - u ⟨-,-,-,role',hu,heu,-,-,hcl,-⟩
      exact ⟨proc.extend_pd _,⟨_,role',hu,he.of_none.trans heu⟩,
        .inl ⟨hrm,(Clean.of_eq htr).trans (hcl hf.ne_zero)⟩⟩
    · rintro u ⟨hcl,-⟩
      exact .inl ⟨hrm,(Clean.of_eq htr).trans hcl⟩

theorem procVmreserve_spec : Ensures (procVmreserve L proc v flags) s
      (fun proc' t=>proc'.pd=proc.pd ∧ Served L live proc.pd s role t ∧
        CleanIff (ReserveClean s proc.pd (maskToPage v)) s t)
      (CleanIff (ReserveClean s proc.pd (maskToPage v)) s) := by
  simp only [procVmreserve,wp_bind,wp_isUsingKernelPageTables,wp_get,wp_kassert h.kernelTables]
  rw [wp_panicIf (by rw [h.unlocked]; simp)]
  exact unsafeVmreserve_spec h hpd hv
end

section

/-- Every page the loop of `unsafe_brk` comes to can be reserved without mapping page zero. -/
def RangeClean (L : Layout) : ℕ → Proc → ℕ → ℕ → Machine → Prop
  | 0, _, _, _, _ => True
  | fuel+1, proc, vfrom, vto, s => vfrom≤vto → ReserveClean s proc.pd (maskToPage vfrom) ∧
    ∀ proc' t, unsafeVmreserve L proc vfrom (vmUser ||| vmWrite) s=.ok proc' t →
      RangeClean L fuel proc' ((vfrom+pageSize)%2^32) vto t

theorem CleanIff.congr (h : CleanIff c s t) (hc : c' ↔ c) : CleanIff c' s t := by
  rw [CleanIff,hc]
  exact h

theorem reserveRange_spec (h : Owned L s fl live role) (hpd : proc.pd ∈ live) (hv : vfrom<2^32) :
    Ensures (reserveRange L fuel proc vfrom vto) s
      (fun proc' t=>proc'.pd=proc.pd ∧ Served L live proc.pd s role t ∧
        CleanIff (RangeClean L fuel proc vfrom vto s) s t)
      (CleanIff (RangeClean L fuel proc vfrom vto s) s) := by
  induction fuel generalizing s fl role proc vfrom with
  | zero =>
    rw [reserveRange,wp_abort]
    exact .inl ⟨trivial,.of_eq rfl⟩
  | succ fuel ih =>
    rw [reserveRange]
    refine Ensures.ite (fun hle=>?_) (fun hgt=>?_)
    · rw [wp_bind]
      refine (unsafeVmreserve_spec h hpd hv).with_result.mono ?_ ?_
      · rintro proc' t ⟨hok,hpd',⟨fl',role',ht,he⟩,hc⟩
        -- the next state is the one the condition speaks of
        have hcn : RangeClean L (fuel+1) proc vfrom vto s ↔ ReserveClean s proc.pd (maskToPage vfrom) ∧
              RangeClean L fuel proc' ((vfrom+pageSize)%2^32) vto t := by
          refine ⟨fun hr=>⟨(hr hle).1,(hr hle).2 proc' t hok⟩,fun hr _=>⟨hr.1,fun q u hq=>?_⟩⟩
          rw [hok] at hq
          injection hq with hq hu
          exact hq▸hu▸hr.2
        refine (ih ht (hpd'▸hpd) (Nat.mod_lt _ (by decide))).mono ?_ ?_
        · rintro proc'' u ⟨hpd'',⟨fl'',role'',hu,heu⟩,hcu⟩
          rw [hpd'] at heu
          exact ⟨hpd''.trans hpd',⟨fl'',role'',hu,he.trans heu⟩,(hc.trans hcu).congr hcn⟩
        · exact fun u hcu=>(hc.trans hcu).congr hcn
      · rintro t ⟨⟨e,herr⟩,hc⟩
        refine hc.congr ⟨fun hr=>(hr hle).1,fun hr _=>⟨hr,fun q u hq=>?_⟩⟩
        rw [herr] at hq
        cases hq
    · rw [wp_pure]
      exact ⟨rfl,.refl h,.inl ⟨fun hle=>absurd hle hgt,.of_eq rfl⟩⟩

/-- The call is refused, or every page up to the new break can be had. -/
def BrkClean (L : Layout) (proc : Proc) (v : ℕ) (s : Machine) : Prop := brkRefused L proc v s=false →
    RangeClean L addressPages proc (maskToPage proc.curVbreak) (maskToPage v) s

section
variable (h : Owned L s fl live role) (hpd : proc.pd ∈ live) (hcur : proc.curVbreak<2^32)
include h hpd hcur
theorem unsafeBrk_spec : Ensures (unsafeBrk L proc v) s
      (fun r t=>r.2.pd=proc.pd ∧ Served L live proc.pd s role t ∧ CleanIff (BrkClean L proc v s) s t)
      (CleanIff (BrkClean L proc v s) s) := by
  simp only [unsafeBrk,wp_bind,wp_get]
  cases hrf : brkRefused L proc v s with
  | true =>
    rw [if_pos rfl,wp_pure]
    refine ⟨rfl,.refl h,.inl ⟨fun hc=>?_,.of_eq rfl⟩⟩
    rw [hrf] at hc
    cases hc
  | false =>
    have hcn : BrkClean L proc v s ↔
        RangeClean L addressPages proc (maskToPage proc.curVbreak) (maskToPage v) s :=
      ⟨fun hb=>hb hrf,fun hr _=>hr⟩
    simp only [Bool.false_eq_true,if_false,wp_bind,wp_pure]
    refine (reserveRange_spec h hpd ((maskToPage_le _).trans_lt hcur)).mono ?_
      (fun t hc=>hc.congr hcn)
    rintro proc' t ⟨hpd',hsr,hc⟩
    exact ⟨hpd',hsr,hc.congr hcn⟩

theorem procBrk_spec : Ensures (procBrk L proc v) s
      (fun r t=>r.2.pd=proc.pd ∧ Served L live proc.pd s role t ∧ CleanIff (BrkClean L proc v s) s t)
      (CleanIff (BrkClean L proc v s) s) := by
  simp only [procBrk,wp_bind,wp_isUsingKernelPageTables,wp_kassert h.kernelTables]
  exact unsafeBrk_spec h hpd hcur

theorem procSbrk_spec : Ensures (procSbrk L proc diff) s
      (fun r t=>r.2.pd=proc.pd ∧ Served L live proc.pd s role t ∧
        CleanIff (BrkClean L proc (proc.moved diff) s) s t)
      (CleanIff (BrkClean L proc (proc.moved diff) s) s) := by
  simp only [procSbrk,wp_bind,wp_isUsingKernelPageTables,wp_kassert h.kernelTables,wp_pure]
  exact unsafeBrk_spec h hpd hcur
end

end

section

/-- The page at `v` is mapped, or its page table is there or can be had. -/
def Reservable (s : Machine) (pd v : ℕ) : Prop :=
  pteGetPaddr (walk s.mem pd v)≠physNull ∨ isGlobal (pdeOf s pd v)=false ∧
    (pteGetPaddr (pdeOf s pd v)=physNull → 2 ≤ s.remainingPages)

theorem unsafeVmreserve_returns_iff (h : Owned L s fl live role) (hpd : proc.pd ∈ live) (hv : v<2^32) :
    Ensures (unsafeVmreserve L proc v flags) s (fun _ _=>Reservable s proc.pd (maskToPage v))
      (fun _=>¬ Reservable s proc.pd (maskToPage v)) := by
  have hv' := (maskToPage_le v).trans_lt hv
  have hrem := h.list.remaining
  obtain ⟨hlt,hg⟩ := vmPflags_spec flags
  simp only [unsafeVmreserve,pagingGet,wp_bind,h.wp_lookup hpd hv',wp_pure]
  refine Ensures.ite (fun hp=>(wp_pure ..).mpr (.inl hp)) (fun hp=>?_)
  simp only [wp_bind,wp_pure]
  apply (palloc_owned h).ensures.imp
  rintro p t (⟨hfl,rfl,rfl⟩ | ⟨rest,hfl,ht,he,hf,-⟩)
  · rw [hfl,List.length_nil] at hrem
    refine (pagingMap_spec h hpd hv' hlt (.inl rfl)).mono ?_ ?_
    · rintro - u ⟨-,hgp,hrm,-⟩
      exact .inr ⟨hgp,fun hnl=>absurd hfl (hrm hnl)⟩
    · rintro u ⟨-,hc⟩ (hmp | ⟨hgp,hrm⟩)
      · exact hp hmp
      · rcases hc with hc | hc | ⟨hc,-⟩
        · exact Bool.false_ne_true (hg.symm.trans hc)
        · exact Bool.false_ne_true (hgp.symm.trans hc)
        · have := hrm hc
          omega
  · have hdir := h.dirs proc.pd hpd
    have hpde : pdeOf t proc.pd (maskToPage v)=pdeOf s proc.pd (maskToPage v) :=
      entryAt_congr (he.foreign hdir.frame (by rw [hdir.isDir]; rfl) (by simp)).2 (getPdIndex_lt hv')
    rw [hfl,List.length_cons] at hrem
    refine (pagingMap_spec ht hpd hv' hlt (.inr ⟨hf,Function.update_self ..⟩)).mono ?_ ?_
    · rintro - u ⟨-,hgp,hrm,-⟩
      rw [hpde] at hgp hrm
      refine .inr ⟨hgp,fun hnl=>?_⟩
      have := List.length_pos_iff.mpr (hrm hnl)
      omega
    · rintro u ⟨-,hc⟩ (hmp | ⟨hgp,hrm⟩)
      · exact hp hmp
      · rw [hpde] at hc
        rcases hc with hc | hc | ⟨hc,hnil⟩
        · exact Bool.false_ne_true (hg.symm.trans hc)
        · exact Bool.false_ne_true (hgp.symm.trans hc)
        · have := hrm hc
          rw [hnil,List.length_nil] at hrem
          omega

theorem reserveRange_lastPage (hal : vfrom%pageSize=0) (hle : vfrom<2^32) :
    Ensures (reserveRange L fuel proc vfrom 0xFFFFF000) s (fun _ _=>False) (fun _=>True) := by
  induction fuel generalizing s proc vfrom with
  | zero =>
    rw [reserveRange,wp_abort]
    trivial
  | succ fuel ih =>
    have hin : vfrom≤0xFFFFF000 := by
      simp only [pageSize] at hal
      omega
    rw [reserveRange,if_pos hin,wp_bind]
    refine (Ensures.trivial _ _).imp (fun proc' t _=>ih ?_ (Nat.mod_lt _ (by decide)))
    simp only [pageSize] at hal ⊢
    omega

/-- What `sbrk(0)` takes to return. -/
def StandingBreak (L : Layout) (proc : Proc) (s : Machine) : Prop :=
  brkRefused L proc proc.curVbreak s=true ∨
    Reservable s proc.pd (maskToPage proc.curVbreak) ∧ maskToPage proc.curVbreak≠0xFFFFF000

/-- What `sbrk(0)` returns. -/
def standingBreak (L : Layout) (proc : Proc) (s : Machine) : ℕ :=
  if brkRefused L proc proc.curVbreak s then 2^32-2 else proc.curVbreak

theorem procSbrk_zero_returns_iff (h : Owned L s fl live role) (hpd : proc.pd ∈ live)
    (hcur : proc.curVbreak<2^32) :
    Ensures (procSbrk L proc 0) s (fun r _=>StandingBreak L proc s ∧ r.1=standingBreak L proc s)
      (fun _=>¬ StandingBreak L proc s) := by
  have hmv : proc.moved 0=proc.curVbreak := by
    simp only [Proc.moved]
    omega
  have hms := (maskToPage_le _).trans_lt hcur
  have hal := maskToPage_mod proc.curVbreak
  simp only [procSbrk,unsafeBrk,hmv,wp_bind,wp_isUsingKernelPageTables,
    wp_kassert h.kernelTables,wp_get,wp_pure]
  cases hrf : brkRefused L proc proc.curVbreak s with
  | true =>
    rw [if_pos rfl,wp_pure]
    exact ⟨.inl hrf,by rw [standingBreak,hrf]; rfl⟩
  | false =>
    simp only [Bool.false_eq_true,if_false,wp_bind,wp_pure]
    have hiff : StandingBreak L proc s ↔
        Reservable s proc.pd (maskToPage proc.curVbreak) ∧ maskToPage proc.curVbreak≠0xFFFFF000 := by
      rw [StandingBreak,hrf,or_iff_right Bool.false_ne_true]
    have hret : standingBreak L proc s=proc.curVbreak := by
      rw [standingBreak,hrf]
      rfl
    rw [hiff,hret]
    by_cases hls : maskToPage proc.curVbreak=0xFFFFF000
    · rw [hls]
      exact (reserveRange_lastPage (by decide) (by decide)).mono (fun _ _ hF=>hF.elim)
        (fun _ _ hc=>hc.2 rfl)
    · obtain ⟨n,hn⟩ : ∃ n, addressPages=n+2 := ⟨2^20-1,rfl⟩
      rw [hn,reserveRange,if_pos le_rfl,wp_bind]
      refine (unsafeVmreserve_returns_iff h hpd hms).mono (fun proc' t hr=>?_)
        (fun t hr hc=>hr ?_)
      · have hnx : ¬ (maskToPage proc.curVbreak+pageSize)%2^32 ≤ maskToPage proc.curVbreak := by
          simp only [pageSize] at hal ⊢
          omega
        rw [reserveRange,if_neg hnx,wp_pure]
        rw [maskToPage_of_aligned hal] at hr
        exact ⟨⟨hr,hls⟩,rfl⟩
      · rw [maskToPage_of_aligned hal]
        exact hc.1
end

end Yaos2.Memory
