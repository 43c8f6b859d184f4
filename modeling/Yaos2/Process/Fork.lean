import Yaos2.Memory.Fork
import Yaos2.Memory.Process
import Yaos2.Process.Context

/-! # Forking a process -/
namespace Yaos2.Process
open Foundation Memory

def procMaxFiles : ℕ := 16
def pidKernel : ℕ := 0

/-- `opened_files`, with the file objects as numbers. -/
abbrev FileTable := Fin procMaxFiles → Option ℕ

/-- `struct arch_proc`: the memory of the process, its stack and its environment. -/
structure ArchProc extends Memory.Proc where
  vstack : ℕ
  stackSize : ℕ
  venvironment : ℕ
  deriving DecidableEq, Repr

/-- `struct proc`. -/
structure UserProc where
  pid : ℕ
  parent : ℕ
  arch : ArchProc
  openedFiles : FileTable

/-- The machine, the kernel stacks, the counts of open files and the scheduler's counters. -/
structure Kern where
  machine : Machine
  kernelStacks : Mem
  refs : ℕ → ℕ
  nextPid : ℕ
  nextTid : ℕ

variable (L : Layout) (text : KernelText)

/-- A computation on the page tables. -/
def onMachine {α : Type} (x : Kernel α) : Exec Kern α := zoom Kern.machine (fun s k=>{k with machine := s}) x

def procSetKvm : Exec Kern PUnit := modify fun k=>{k with machine := k.machine.setCr3 L.physKernelPd}

def procSetUvm (proc : UserProc) : Exec Kern PUnit :=
  modify fun k=>{k with machine := k.machine.setCr3 proc.arch.pd}

/-- `proc_alloc`. The objects come from `kzualloc`, so that what is not set here is zero. -/
def procAlloc : Exec Kern UserProc := do
  kassert "is_using_kernel_page_tables()" (← onMachine (isUsingKernelPageTables L))
  let pd ← onMachine (pagingAllocDir L)
  return {
    pid := 0
    parent := 0
    arch := {
      pd := pd
      vfrom := 0
      vto := 0
      vbreak := 0
      curVbreak := 0
      vstack := 0
      stackSize := 0
      venvironment := 0}
    openedFiles := fun _=>none}

def vfsFileDup (f : ℕ) : Exec Kern ℕ := do
  modify fun k=>{k with refs := Function.update k.refs f (k.refs f+1)}
  return f

def dupFiles (files : FileTable) : List (Fin procMaxFiles) → FileTable → Exec Kern FileTable
  | [], new => pure new
  | i::rest, new =>
    match files i with
    | none => dupFiles files rest new
    | some f => do
      let f' ← vfsFileDup f
      dupFiles files rest (Function.update new i (some f'))

/-- `uthread_fork_create`, with the kernel stack that `kalloc` returned. -/
def uthreadForkCreate (stack0 : ℕ) (new : UserProc) (template : ArchThread) (frame : IsrFrame) :
    Exec Kern ArchThread := do
  let thread ← x86ThreadConstructThread stack0 4096 new.arch.vstack new.arch.stackSize template.tentry
    true userCodeSelector userDataSelector new.arch.pd
  let (kernelStacks, thread) := setupUthreadStack text (← get).kernelStacks thread (some {frame with eax := 0})
  modify fun k=>{k with kernelStacks := kernelStacks}
  return thread

def procFork (stack0 : ℕ) (cp : UserProc) (ct : ArchThread) (frame : IsrFrame) :
    Exec Kern (UserProc × ArchThread) := do
  panicIf (cp.pid=pidKernel) "proc_fork(): attempted to fork kernel process"
  panicIf (ct.cs≠userCodeSelector) "proc_fork(): thread has non-user selector"
  kassert "is_using_kernel_page_tables()" (← onMachine (isUsingKernelPageTables L))
  let new ← procAlloc L
  onMachine (vmdup L new.arch.pd cp.arch.pd)
  let arch : ArchProc := {new.arch with
    vfrom := cp.arch.vfrom
    vto := cp.arch.vto
    vstack := cp.arch.vstack
    stackSize := cp.arch.stackSize
    vbreak := cp.arch.vbreak
    curVbreak := cp.arch.curVbreak}
  let new : UserProc := {new with arch := arch}
  let thread ← uthreadForkCreate text stack0 new ct frame
  let files ← dupFiles cp.openedFiles (List.finRange procMaxFiles) new.openedFiles
  return ({new with openedFiles := files}, thread)

/-- `schedule_proc`, as far as the process is concerned. -/
def scheduleProc (parent proc : UserProc) : Exec Kern UserProc := do
  let k ← get
  set {k with nextPid := (k.nextPid+1)%2^32, nextTid := (k.nextTid+1)%2^32}
  return {proc with pid := k.nextPid, parent := parent.pid}

/-- The new process and its thread, with the number that the parent gets. -/
def syscallFork (stack0 : ℕ) (proc : UserProc) (ct : ArchThread) (frame : IsrFrame) :
    Exec Kern (ℕ × UserProc × ArchThread) := do
  procSetKvm L
  let (np, nt) ← procFork L text stack0 proc ct frame
  let np ← scheduleProc proc np
  procSetUvm proc
  return (np.pid, np, nt)

def syscallGetenvptr (proc : UserProc) : Exec Kern ℕ := do
  procSetKvm L
  let ret := proc.arch.venvironment
  procSetUvm proc
  return ret

def syscallSbrk (proc : UserProc) (diff : Int) : Exec Kern (ℕ × UserProc) := do
  procSetKvm L
  let (ret, mem) ← onMachine (procSbrk L proc.arch.toProc diff)
  procSetUvm proc
  return (ret, {proc with arch := {proc.arch with toProc := mem}})

/-- What a user program finds at an address, or nothing if the access faults. -/
def userView (m : Mem) (pd v : ℕ) : Option UInt8 :=
  let pde := entryAt m pd (getPdIndex (maskToPage v))
  if isPresent pde && isUser pde && isPresent (walk m pd v) && isUser (walk m pd v) then
    some (m (userByte m pd v))
  else none

/-- Why a user program has not returned: it faulted, or it is still running. -/
inductive Stop
  | pageFault
  | running
  deriving DecidableEq, Repr

def userRead (m : Mem) (pd v : ℕ) : Except Stop UInt8 :=
  match userView m pd (v%2^32) with
  | some b => .ok b
  | none => .error .pageFault

section
variable (readByte : ℕ → Except Stop UInt8)

def readWord (v : ℕ) : Except Stop ℕ := do
  let b₀ ← readByte v
  let b₁ ← readByte (v+1)
  let b₂ ← readByte (v+2)
  let b₃ ← readByte (v+3)
  return b₀.toNat+256*(b₁.toNat+256*(b₂.toNat+256*b₃.toNat))

/-- Whether `strncmp` finds the characters of the name at `env`. -/
def strncmpEq (env : ℕ) : List UInt8 → Except Stop Bool
  | [] => return true
  | c::cs => do
    if (← readByte env)=c then
      strncmpEq (env+1) cs
    else
      return false

/-- The condition under which `getenv` takes the entry at `env`. -/
def isVariable (env : ℕ) (name : List UInt8) : Except Stop Bool := do
  if ← strncmpEq readByte env name then
    return (← readByte (env+name.length)) == 0x3D
  else
    return false

/-- The loop of `getenv`, from entry `i` on. -/
def getenvFrom (envt : ℕ) (name : List UInt8) : ℕ → ℕ → Except Stop (Option ℕ)
  | 0, _ => .error .running
  | fuel+1, i => do
    let env ← readWord readByte (envt+4*i)
    if env=0 then
      return none
    else if ← isVariable readByte env name then
      return some (env+name.length+1)
    else
      getenvFrom envt name fuel (i+1)

/-- The string at an address, up to the terminating zero. -/
def stringAt (a : ℕ) : ℕ → Except Stop (List UInt8)
  | 0 => .error .running
  | fuel+1 => do
    let c ← readByte a
    if c=0 then
      return []
    else
      return c::(← stringAt (a+1) fuel)

/-- The string that `getenv` returns to a program that was given `envt` by `SYSCALL_GETENVPTR`. -/
def getenv (envt : ℕ) (name : List UInt8) (fuel : ℕ) : Except Stop (Option (List UInt8)) := do
  match ← getenvFrom readByte envt name fuel 0 with
  | none => return none
  | some a => return some (← stringAt readByte a fuel)
end

/-- The scheduler has switched to a thread of the process. -/
def Kern.running (k : Kern) (proc : UserProc) : Kern := {k with machine := k.machine.setCr3 proc.arch.pd}

/-- What a child has in common with its parent; both are asked in the state `k`. -/
structure Inherits (k : Kern) (parent child : UserProc) (nt : ArchThread) (frame : IsrFrame) : Prop where
  breakLimit : child.arch.vbreak=parent.arch.vbreak
  stack : child.arch.vstack=parent.arch.vstack ∧ child.arch.stackSize=parent.arch.stackSize
  files : child.openedFiles=parent.openedFiles
  sbrk : ∀ r, (∃ p u, syscallSbrk L child 0 (k.running child)=.ok (r, p) u) ↔
    ∃ p u, syscallSbrk L parent 0 (k.running parent)=.ok (r, p) u
  thread : nt.cr3=child.arch.pd
  registers : resumeUser text k.kernelStacks nt.esp0=some {frame.registers with eax := 0}
  memory : ∀ v<2^32, userView k.machine.mem child.arch.pd v=userView k.machine.mem parent.arch.pd v

variable {L text} {k : Kern} {s t : Machine} {fl live : List ℕ} {role : ℕ → Role}
  {proc parent child : UserProc} {ct nt : ArchThread} {frame : IsrFrame} {stack0 pd src dst v : ℕ}
  {a b : Spaces}

section
variable {α : Type} {x : Kernel α} {Q : α → Kern → Prop} {E : Kern → Prop}

theorem wp_onMachine : Ensures (onMachine x) k Q E ↔
    Ensures x k.machine (fun r s=>Q r {k with machine := s}) (fun s=>E {k with machine := s}) :=
  wp_zoom ..

theorem setCr3_kernel (h : Owned L s fl live role) (p : ℕ) : (s.setCr3 p).setCr3 L.physKernelPd=s :=
  setCr3_self (by simpa [Env.isUsingKernelPageTables] using h.kernelTables)
end

theorem dupFiles_spec (files : FileTable) (is : List (Fin procMaxFiles)) (new : FileTable) (k : Kern) :
    Returns (dupFiles files is new) k (fun r k'=>k'.machine=k.machine ∧ k'.kernelStacks=k.kernelStacks ∧
      ∀ j, r j=if j ∈ is ∧ (files j).isSome then files j else new j) := by
  induction is generalizing new k with
  | nil => exact (wp_pure ..).mpr ⟨rfl,rfl,fun j=>by simp⟩
  | cons i rest ih =>
    rw [dupFiles]
    cases hf : files i with
    | none =>
      apply (ih new k).imp
      rintro r k' ⟨hm,hs,hr⟩
      refine ⟨hm,hs,fun j=>?_⟩
      rw [hr j]
      by_cases hj : j=i
      · simp [hj,hf]
      · simp [hj]
    | some f =>
      simp only [vfsFileDup,Returns,wp_bind,wp_modify,wp_pure]
      apply (ih _ _).imp
      rintro r k' ⟨hm,hs,hr⟩
      refine ⟨hm,hs,fun j=>?_⟩
      rw [hr j]
      by_cases hj : j=i
      · simp [hj,hf]
      · simp [hj]

theorem uthreadForkCreate_spec (hal : new.arch.vstack%16=0)
    (hne : new.arch.vstack≠0) (hal0 : stack0%16=0) (hlt : stack0+4096<2^32)
    (hf : ∀ w ∈ frame.words, w<2^32) :
    Returns (uthreadForkCreate text stack0 new ct frame) k (fun nt k'=>k'.machine=k.machine ∧
      nt.cr3=new.arch.pd ∧
      resumeUser text k'.kernelStacks nt.esp0=some {frame.registers with eax := 0}) := by
  have hw : ∀ w ∈ ({frame with eax := 0} : IsrFrame).words, w<2^32 := by
    simp only [IsrFrame.words,List.mem_cons,List.not_mem_nil,or_false,forall_eq_or_imp,forall_eq] at hf ⊢
    simp only [hf,true_and,and_true]
    decide
  simp only [uthreadForkCreate,x86ThreadConstructThread,Returns,wp_bind,
    wp_kassert (show (new.arch.vstack%16 == 0)=true by simp [hal]),
    wp_kassert (show (stack0%16 == 0)=true by simp [hal0]),
    show (userCodeSelector == userCodeSelector)=true from rfl,if_true,
    wp_kassert (show (new.arch.vstack != 0)=true by simp [hne]),wp_pure,wp_get,
    wp_modify]
  refine ⟨trivial,rfl,resumeUser_setup text k.kernelStacks ?_ hw⟩
  show 104≤(stack0+4096)%2^32
  omega

theorem syscallFork_spec (h : Owned L s fl live role) (hk : k.machine=s.setCr3 parent.arch.pd)
    (hpid : parent.pid≠pidKernel) (hcs : ct.cs=userCodeSelector)
    (hal : parent.arch.vstack%16=0) (hne : parent.arch.vstack≠0)
    (hal0 : stack0%16=0) (hlt : stack0+4096<2^32) (hfr : ∀ w ∈ frame.words, w<2^32)
    (hac : pagingAllocDir L s=.ok dst s')
    (hdup : vmdup L dst parent.arch.pd s'=.ok () t) :
    Returns (syscallFork L text stack0 parent ct frame) k (fun r k' =>
      k'.machine=t.setCr3 parent.arch.pd ∧
      r.2.1.arch = {parent.arch with pd := dst, venvironment := 0} ∧
      r.2.1.openedFiles=parent.openedFiles ∧ r.2.2.cr3=dst ∧
      resumeUser text k'.kernelStacks r.2.2.esp0=some {frame.registers with eax := 0}) := by
  have hkr : k.machine.setCr3 L.physKernelPd=s := by
    rw [hk]
    exact setCr3_kernel h _
  simp only [syscallFork,procFork,procAlloc,procSetKvm,procSetUvm,Returns,wp_bind,wp_modify,
    wp_onMachine,hkr,wp_panicIf hpid,wp_panicIf (not_not.mpr hcs),
    wp_isUsingKernelPageTables,wp_kassert h.kernelTables,wp_of_ok hac,
    wp_of_ok hdup,wp_pure]
  apply (uthreadForkCreate_spec (by exact hal) (by exact hne) hal0 hlt hfr).imp
  rintro nt k1 ⟨hm1,hcr3,hres⟩
  apply (dupFiles_spec ..).imp
  rintro files k2 ⟨hm2,hs2,hfl⟩
  have hall : files=parent.openedFiles := by
    funext j
    rw [hfl j]
    cases parent.openedFiles j <;> simp
  simp only [scheduleProc,wp_bind,wp_get,wp_set,wp_pure,hm2,hm1,hs2]
  exact ⟨trivial,trivial,hall,hcr3,hres⟩

section

/-- A directory and its duplicate, in the state after the fork. -/
structure Twins (L : Layout) (t : Machine) (src dst : ℕ) : Prop where
  owned : ∃ fl live role, Owned L t fl live role ∧ src ∈ live ∧ dst ∈ live
  tidy : Tidy L t.mem src ∧ Tidy L t.mem dst
  tables : TablesDuplicated L t.mem src dst
  pages : ∀ v, IsUserAddress L t.mem v → isPresent (walk t.mem dst v)=isPresent (walk t.mem src v) ∧
    isUser (walk t.mem dst v)=isUser (walk t.mem src v) ∧
    (isPresent (walk t.mem src v)=true → t.mem (userByte t.mem dst v)=t.mem (userByte t.mem src v))

section
variable (h : Twins L t src dst) (hv : v<2^32)
include h hv
theorem Twins.shared_or_user :
    pdeOf t dst v=pdeOf t src v ∧ walk t.mem dst v=walk t.mem src v ∨ IsUserAddress L t.mem v := by
  obtain ⟨fl,live,role,ho,hsrc,hdst⟩ := h.owned
  have hi := getPdIndex_lt hv
  cases hg : isGlobal (entryAt t.mem L.physKernelPd (getPdIndex (maskToPage v))) with
  | true =>
    refine .inl ⟨?_,?_⟩
    · rw [pdeOf,pdeOf,(ho.dirs dst hdst).shared _ hi hg,(ho.dirs src hsrc).shared _ hi hg]
    · rw [(ho.dirs dst hdst).walk_shared hv hg,(ho.dirs src hsrc).walk_shared hv hg]
  | false => exact .inr ⟨hv,hg⟩

theorem Twins.userView_eq :
    userView t.mem dst v=userView t.mem src v := by
  rcases h.shared_or_user hv with ⟨hpde,hwl⟩ | hur
  · simp [userView,hpde,userByte,hwl]
  · obtain ⟨hpr,hus,hby⟩ := h.pages v hur
    simp only [userView,hpr,hus]
    cases hp : isPresent (walk t.mem src v) with
    | false => simp
    | true =>
      -- something is mapped there, so there is a page table, with the same flags in both
      have hne : pteGetPaddr (entryAt t.mem src (getPdIndex (maskToPage v)))≠physNull := fun hc=>by
        rw [walk,if_pos hc] at hp
        exact Bool.false_ne_true ((isPresent_zero.symm).trans hp)
      obtain ⟨hpp,-,hpu⟩ := isPresent_of_flags ((h.tables _ (getPdIndex_lt hv) hur.2).2 hne)
      rw [hpp,hpu,hby hp]

theorem Twins.reservable_iff : Reservable t dst v ↔ Reservable t src v := by
  rcases h.shared_or_user hv with ⟨hpde,hwl⟩ | hus
  · rw [Reservable,Reservable,hpde,hwl]
  · obtain ⟨fl,live,role,ho,hsrc,hdst⟩ := h.owned
    have hi := getPdIndex_lt hv
    have hnl : pteGetPaddr (walk t.mem dst v)=physNull ↔ pteGetPaddr (walk t.mem src v)=physNull := by
      rw [← h.tidy.2.absent_iff hus,← h.tidy.1.absent_iff hus,(h.pages v hus).1]
    have htab := (h.tables _ hi hus.2).1
    have hgd := (ho.dirs dst hdst).own _ hi hus.2
    have hgs := (ho.dirs src hsrc).own _ hi hus.2
    rw [Reservable,Reservable,hgd,hgs,Ne,Ne,hnl,htab]
end

end

theorem syscallGetenvptr_returns (L : Layout) (proc : UserProc) (k : Kern) :
    ∃ u, syscallGetenvptr L proc k=.ok proc.arch.venvironment u := ⟨_,rfl⟩

theorem syscallSbrk_zero_iff (h : Owned L t fl live role) (hpd : proc.arch.pd ∈ live)
    (hcur : proc.arch.curVbreak<2^32) (hk : k.machine=t.setCr3 p) (r : ℕ) :
    (∃ q u, syscallSbrk L proc 0 (k.running proc)=.ok (r, q) u) ↔
      StandingBreak L proc.arch.toProc t ∧ r=standingBreak L proc.arch.toProc t := by
  have hkr : (k.running proc).machine.setCr3 L.physKernelPd=t := by
    rw [Kern.running,hk]
    exact setCr3_kernel h _
  have hsp : Ensures (syscallSbrk L proc 0) (k.running proc)
      (fun r _=>StandingBreak L proc.arch.toProc t ∧ r.1=standingBreak L proc.arch.toProc t)
      (fun _=>¬ StandingBreak L proc.arch.toProc t) := by
    simp only [syscallSbrk,procSetKvm,procSetUvm,wp_bind,wp_modify,wp_onMachine,hkr,wp_pure]
    exact procSbrk_zero_returns_iff h hpd hcur
  constructor
  · rintro ⟨q,u,hok⟩
    exact hsp.of_ok hok
  · rintro ⟨hc,rfl⟩
    obtain ⟨⟨r,q⟩,u,hok,-,hr⟩ := Returns.exists_ok (hsp.mono (fun _ _ hq=>hq) (fun _ hn=>hn hc))
    exact ⟨q,u,hr▸hok⟩

theorem twins_of_fork (h0 : SpacesStart L a) (hrun : CopyRun L a b) (hsrc : src ∈ b.live)
    (hal : pagingAllocDir L b.machine=.ok dst s) (hrm : dupCost s.mem src ≤ s.remainingPages) :
    ∃ t, vmdup L dst src s=.ok () t ∧ Twins L t src dst := by
  obtain ⟨t,fl1,role1,fl2,role2,hok,ho1,ho2,hdup,htd,-,htab,hkpd⟩ := owned_of_fork h0 hrun hsrc hal hrm
  have hsrc' : src ∈ dst::b.live := List.mem_cons_of_mem _ hsrc
  have hdst' : dst ∈ dst::b.live := List.mem_cons_self
  refine ⟨t,hok,⟨_,_,_,ho2,hsrc',hdst'⟩,⟨htd src hsrc',htd dst hdst'⟩,htab,fun v hv=>?_⟩
  have hv' := (IsUserAddress.congr hkpd).mp hv
  obtain ⟨e,e',-,hs,hd,hpr,hfl,hby⟩ := hdup.entries v hv'
  rw [ho2.lookup hsrc' hv.1] at hs
  rw [ho2.lookup hdst' hv.1] at hd
  injection hs with hs _
  injection hd with hd _
  subst hs hd
  exact ⟨hpr,(isPresent_of_flags hfl).2.2,fun hp=>hby hp _ (Nat.mod_lt _ (by decide))⟩

/-- The child finds what the parent finds, in memory, files and registers; the environment iff the
parent has none. -/
theorem syscallFork_inherits_iff (text : KernelText) (k : Kern) (parent : UserProc) (ct : ArchThread)
    (frame : IsrFrame) (stack0 : ℕ) (h0 : SpacesStart L a) (hrun : CopyRun L a b)
    (hpd : parent.arch.pd ∈ b.live) (halloc : pagingAllocDir L b.machine=.ok dst s)
    (hroom : dupCost s.mem parent.arch.pd ≤ s.remainingPages)
    (hk : k.machine=b.machine.setCr3 parent.arch.pd)
    (hpid : parent.pid≠pidKernel) (hcs : ct.cs=userCodeSelector)
    (hal : parent.arch.vstack%16=0) (hne : parent.arch.vstack≠0)
    (hcur : parent.arch.curVbreak<2^32)
    (hal0 : stack0%16=0) (hlt : stack0+4096<2^32) (hframe : ∀ w ∈ frame.words, w<2^32) :
    ∃ pid child nt k', syscallFork L text stack0 parent ct frame k=.ok (pid, child, nt) k' ∧
      Inherits L text k' parent child nt frame ∧
      ∃ e e' u u', syscallGetenvptr L parent (k'.running parent)=.ok e u ∧
        syscallGetenvptr L child (k'.running child)=.ok e' u' ∧
        (e'=e ↔ parent.arch.venvironment=0) ∧
        (e'=e → ∀ name fuel, getenv (userRead k'.machine.mem child.arch.pd) e' name fuel =
          getenv (userRead k'.machine.mem parent.arch.pd) e name fuel) := by
  obtain ⟨fl,role,hinv⟩ := h0.copyInv.elim (fun _ h=>hrun.inv h)
  obtain ⟨t,hdup,htw⟩ := twins_of_fork h0 hrun hpd halloc hroom
  obtain ⟨fl₂,live₂,role₂,ho,hsrc,hdst⟩ := htw.owned
  have hsp : Returns (syscallFork L text stack0 parent ct frame) k _ :=
    syscallFork_spec hinv.1.owned hk hpid hcs hal hne hal0 hlt hframe halloc hdup
  obtain ⟨⟨pid,child,nt⟩,k',hok,hm,har,hfl,hcr3,hres⟩ := hsp.exists_ok
  simp only at har hfl hcr3 hres
  have hcpd : child.arch.pd=dst := by rw [har]
  have hmem : k'.machine.mem=t.mem := by rw [hm]; rfl
  have hvw : ∀ v<2^32,
      userView k'.machine.mem child.arch.pd v=userView k'.machine.mem parent.arch.pd v := fun v hv=>by
    rw [hmem,hcpd]
    exact htw.userView_eq hv
  -- the break of the child is in the same place, and its page can be had or not as the parent's
  have hst : StandingBreak L child.arch.toProc t ↔ StandingBreak L parent.arch.toProc t := by
    rw [har,StandingBreak,StandingBreak]
    exact or_congr Iff.rfl (and_congr (htw.reservable_iff ((maskToPage_le _).trans_lt hcur)) Iff.rfl)
  have hbr : standingBreak L child.arch.toProc t=standingBreak L parent.arch.toProc t := by
    rw [har]
    rfl
  obtain ⟨u,hpn⟩ := syscallGetenvptr_returns L parent (k'.running parent)
  obtain ⟨u',hcn⟩ := syscallGetenvptr_returns L child (k'.running child)
  refine ⟨pid,child,nt,k',hok,⟨?_,?_,hfl,fun r=>?_,hcr3.trans hcpd.symm,hres,hvw⟩,
    parent.arch.venvironment,child.arch.venvironment,_,_,hpn,hcn,?_,fun heq name fuel=>?_⟩
  · rw [har]
  · simp_all
  · rw [syscallSbrk_zero_iff ho hsrc hcur hm r,
      syscallSbrk_zero_iff ho (hcpd▸hdst) (by rw [har]; exact hcur) hm r,hst,hbr]
  · rw [har]
    exact eq_comm
  · have hrd : userRead k'.machine.mem child.arch.pd=userRead k'.machine.mem parent.arch.pd := by
      funext v
      rw [userRead,userRead,hvw _ (Nat.mod_lt _ (by decide))]
    rw [hrd,heq]

section

/-- A process with this directory and environment, a stack of one page and no open file. -/
def plainProc (pd venvironment : ℕ) : UserProc where
  pid := 2
  parent := 1
  arch := {
    pd := pd
    vfrom := 0x1000
    vto := 0x1000
    vbreak := 0x2000
    curVbreak := 0x2000
    vstack := 0x8000
    stackSize := 0x1000
    venvironment := venvironment}
  openedFiles := fun _=>none

theorem plainProc_ready (pd e : ℕ) : (plainProc pd e).pid≠pidKernel ∧
    (plainProc pd e).arch.vstack%16=0 ∧ (plainProc pd e).arch.vstack≠0 ∧
    (plainProc pd e).arch.curVbreak<2^32 := by
  simp [plainProc,pidKernel]

def plainThread (cr3 : ℕ) : ArchThread where
  cs := userCodeSelector
  ds := userDataSelector
  ebp := 0x9000
  stack := 0x8000
  stackSize := 0x1000
  ebp0 := 0xD0002000
  esp0 := 0xD0002000
  stack0 := 0xD0001000
  stack0Size := 0x1000
  intEnabled := true
  cliStack := 0
  cr3 := cr3
  tentry := 0x1000

def plainKern (s : Machine) : Kern where
  machine := s
  kernelStacks := fun _=>0
  refs := fun _=>0
  nextPid := 3
  nextTid := 3

def plainText : KernelText where
  uthreadSwitchEntry := 0xC0100000
  isrExit := 0xC0100100
  entry_lt := by decide
  exit_lt := by decide

/-- The frame of a system call with `k` in the word number `k`. -/
def plainFrame : IsrFrame := .ofWords id

/-- A process without an environment forks, and the child has what the parent has. -/
theorem syscallFork_inherits_iff_noEnvironment : ∃ s b src pid child nt k',
    SpacesStart .smallImage ⟨s,[],[]⟩ ∧ CopyRun .smallImage ⟨s,[],[]⟩ b ∧ src ∈ b.live ∧
    syscallFork .smallImage plainText 0xD0003000 (plainProc src 0) (plainThread src) plainFrame
      (plainKern (b.machine.setCr3 src))=.ok (pid, child, nt) k' ∧
    Inherits .smallImage plainText k' (plainProc src 0) child nt plainFrame ∧
    ∃ u, syscallGetenvptr .smallImage child (k'.running child)=.ok 0 u := by
  obtain ⟨s,b,s₁,src,dst,h0,hrun,hsrc,hok,hrm,-⟩ := exists_fork
  obtain ⟨pid,child,nt,k',hfr,hin,e,e',u,u',hp,hc,hiff,-⟩ :=
    syscallFork_inherits_iff plainText (plainKern (b.machine.setCr3 src)) (plainProc src 0)
      (plainThread src) plainFrame 0xD0003000 h0 hrun hsrc hok hrm rfl (plainProc_ready src 0).1 rfl
      (plainProc_ready src 0).2.1 (plainProc_ready src 0).2.2.1 (plainProc_ready src 0).2.2.2 (by decide)
      (by decide) (by decide)
  have he : e=0 := by
    injection hp with hp
    exact hp.symm
  have he' := (hiff.mpr rfl).trans he
  exact ⟨s,b,src,pid,child,nt,k',h0,hrun,hsrc,hfr,hin,u',he'▸hc⟩

/-- A process with an environment forks, and `getenv` faults in the child. -/
theorem getenv_faults_in_child : ∃ s b src pid child nt k',
    SpacesStart .smallImage ⟨s,[],[]⟩ ∧ CopyRun .smallImage ⟨s,[],[]⟩ b ∧ src ∈ b.live ∧
    syscallFork .smallImage plainText 0xD0003000 (plainProc src 0x1000) (plainThread src) plainFrame
      (plainKern (b.machine.setCr3 src))=.ok (pid, child, nt) k' ∧
    (∃ u, syscallGetenvptr .smallImage (plainProc src 0x1000) (k'.running (plainProc src 0x1000)) =
      .ok 0x1000 u) ∧
    (∃ u, syscallGetenvptr .smallImage child (k'.running child)=.ok 0 u) ∧
    ∀ name, getenv (userRead k'.machine.mem src) 0x1000 name 1=.ok none ∧
      getenv (userRead k'.machine.mem child.arch.pd) 0 name 1=.error .pageFault := by
  obtain ⟨s,b,s₁,src,dst,h0,hrun,hsrc,hac,hrm,hpr,hzr,hus,hpde₀,hpde₂,hby⟩ := exists_fork
  obtain ⟨fl,role,hinv⟩ := h0.copyInv.elim (fun _ h=>hrun.inv h)
  obtain ⟨t,hdp,htw⟩ := twins_of_fork h0 hrun hsrc hac hrm
  obtain ⟨t',fl₁,role₁,fl₂,role₂,hok',ho₁,ho₂,hdup,-⟩ := owned_of_fork h0 hrun hsrc hac hrm
  rw [hdp] at hok'
  injection hok' with _ htt
  subst htt
  have hsrc' : src ∈ dst::b.live := List.mem_cons_of_mem _ hsrc
  obtain ⟨hpid,hal,hne,-⟩ := plainProc_ready src 0x1000
  have hsp : Returns (syscallFork .smallImage plainText 0xD0003000 (plainProc src 0x1000) (plainThread src)
      plainFrame) (plainKern (b.machine.setCr3 src)) _ :=
    syscallFork_spec hinv.1.owned rfl hpid rfl hal hne (by decide) (by decide) (by decide) hac hdp
  obtain ⟨⟨pid,child,nt⟩,k',hok,hm,har,-⟩ := hsp.exists_ok
  simp only at har
  have hmem : k'.machine.mem=t.mem := by rw [hm]; rfl
  have hcpd : child.arch.pd=dst := by rw [har]
  -- lookups through the parent's directory are as before the fork
  have hwl : ∀ v<0x400000, walk t.mem src v=walk s₁.mem src v := by
    intro v hv
    have huv : IsUserAddress .smallImage s₁.mem v := ho₁.kernel.userRange (n := 1) (by omega) 0 Nat.one_pos
    obtain ⟨e,-,hs,ht,-⟩ := hdup.entries v huv
    rw [ho₁.lookup hsrc' (by omega)] at hs
    rw [ho₂.lookup hsrc' (by omega)] at ht
    injection hs with hs _
    injection ht with ht _
    rw [ht,hs]
  have hen : entryAt t.mem src 0=entryAt s₁.mem src 0 :=
    entryAt_congr (hdup.unchanged src (.inl rfl)).2 (by decide)
  have hpn : ∀ j<4, userView t.mem src (0x1000+j)=some 0 := by
    intro j hj
    have hv : 0x1000+j<0x400000 := by omega
    have huv := ho₁.kernel.userRange (v := 0x1000) (n := 4) (by decide) j hj
    have huv' := ho₂.kernel.userRange (v := 0x1000) (n := 4) (by decide) j hj
    have hpg : maskToPage (0x1000+j)=0x1000 := maskToPage_add (by decide) (by simp only [pageSize]; omega)
    have hwp : walk s₁.mem src (0x1000+j)=walk s₁.mem src 0x1000 := walk_page (hpg.trans (by decide))
    have hmp : pteGetPaddr (walk s₁.mem src (0x1000+j))≠physNull := by
      rw [← hwl _ hv,Ne,← htw.tidy.1.absent_iff huv',hwl _ hv,hwp,hpr]
      exact Bool.noConfusion
    have hfr := (hdup.unchanged _ (.inr ⟨hmp,.inr ⟨_,huv,rfl⟩⟩)).2
    have hbt : t.mem (userByte t.mem src (0x1000+j))=0 := by
      rw [userByte,hwl _ hv,hfr _ (Nat.le_add_right _ _) (Nat.add_lt_add_left (Nat.mod_lt _ (by decide)) _)]
      exact hby j hj
    rw [userView,hwl _ hv,hwp,hpg,show getPdIndex 0x1000=0 by decide,hen,hpr,hus,
      isPresent_eq,hpde₀,isUser_eq,hpde₂,hbt]
    rfl
  have hch : userView t.mem dst 0=none := by
    rw [htw.userView_eq (by decide),userView,hwl _ (by decide),hzr _ (by decide) (by decide),isPresent_zero]
    simp
  have hnl : child.arch.venvironment=0 := by rw [har]
  have hrd : ∀ j<4, userRead t.mem src (0x1000+j)=.ok 0 := fun j hj=>by
    rw [userRead,Nat.mod_eq_of_lt (by omega),hpn j hj]
  have hwr : readWord (userRead t.mem src) 0x1000=.ok 0 := by
    have hfs := hrd 0 (by decide)
    rw [readWord,hfs,hrd 1 (by decide),hrd 2 (by decide),hrd 3 (by decide)]
    rfl
  have hfl : readWord (userRead t.mem dst) 0=.error .pageFault := by
    rw [readWord,userRead,Nat.zero_mod,hch]
    rfl
  refine ⟨s,b,src,pid,child,nt,k',h0,hrun,hsrc,hok,syscallGetenvptr_returns ..,?_,fun name=>⟨?_,?_⟩⟩
  · exact hnl▸syscallGetenvptr_returns .smallImage child (k'.running child)
  · rw [hmem,getenv,getenvFrom,hwr]
    rfl
  · rw [hmem,hcpd,getenv,getenvFrom,hfl]
    rfl
end

end Yaos2.Process
