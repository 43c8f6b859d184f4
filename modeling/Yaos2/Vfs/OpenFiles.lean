import Yaos2.Foundation.Tally
import Yaos2.Process.Fork
import Yaos2.Vfs.References

/-! # Open files of many processes

The calls are cut where a mutex is taken or released. -/
namespace Yaos2.Vfs
open Foundation Process Function

set_option linter.unusedSectionVars false

/-- A process before `proc_fork` has made it, while its table is being copied, and after that. -/
inductive Status
  | unused
  | created
  | running
  deriving DecidableEq, Repr

def procGetFile (files : FileTable) (fd : ℤ) : Option ℕ :=
  if h : 0≤fd ∧ fd<procMaxFiles then files ⟨fd.toNat,by omega⟩ else none

def procGetVacantFd (files : FileTable) : Option (Fin procMaxFiles) :=
  (List.finRange procMaxFiles).find? (fun fd=>(files fd).isNone)

def procBind (files : FileTable) (fd : Fin procMaxFiles) (f : ℕ) : FileTable :=
  if (files fd).isSome then files else update files fd (some f)

/-- The table without the descriptor. The file is what `procGetFile` finds. -/
def procUnbind (files : FileTable) (fd : ℤ) : FileTable :=
  if h : 0≤fd ∧ fd<procMaxFiles then update files ⟨fd.toNat,by omega⟩ none else files

/-- Where a thread is in a call. `locked`: it holds the mutex of its process while it closes the
file. -/
inductive Pc (V P : Type)
  | idle
  /-- `vfs_get` has returned to `vfs_open`. -/
  | gotNode (n : VfsNode V)
  /-- `vfs_open` has returned to `syscall_open`. -/
  | opened (f : ℕ)
  | openLocked (f : ℕ)
  | closeLocked (fd : ℤ)
  /-- `syscall_read`, `syscall_write` or `syscall_lseek` has locked the process. -/
  | accessLocked (fd : ℤ)
  | found (fd : ℤ) (f : ℕ)
  | duplicated (f : ℕ)
  | accessing (f : ℕ)
  /-- `vfs_close` has been called. -/
  | dropping (f : ℕ) (locked : Bool)
  /-- The last reference is gone; `LIST_REMOVE`, `vfs_put` or `kfree` is next. -/
  | removing (f : ℕ) (locked : Bool)
  | putting (f : ℕ) (locked : Bool)
  | freeing (f : ℕ) (locked : Bool)
  | unlocking
  /-- `proc_fork` has come to descriptor `i`. -/
  | forking (child : P) (i : ℕ)

/-- What `vfs_close` does when the last reference is gone. -/
inductive Stage
  | remove
  | put
  | free
  deriving DecidableEq, Repr

/-- The file systems, the files that are in memory, and for each process its descriptors and its mutex. -/
structure OpenFiles (V P T : Type) where
  fs : FileSystems V
  allocated : List ℕ
  table : P → FileTable
  owner : P → Option T
  status : P → Status
  pc : T → Pc V P

variable {V P T : Type} [DecidableEq V] [DecidableEq P] [DecidableEq T]

namespace Pc

/-- Where a thread is when `vfs_close` has returned. -/
def closed (locked : Bool) : Pc V P := if locked then .unlocking else .idle

/-- The file that a call holds a reference to. -/
def held : Pc V P → Option ℕ
  | opened f | openLocked f | duplicated f | accessing f | dropping f _ => some f
  | _ => none

/-- What is left to do with a file that nobody holds. -/
def finishing : Pc V P → Option (Stage × ℕ)
  | removing f _ => some (.remove, f)
  | putting f _ => some (.put, f)
  | freeing f _ => some (.free, f)
  | _ => none

def node : Pc V P → Option (VfsNode V)
  | gotNode n => some n
  | _ => none

def locks : Pc V P → Bool
  | openLocked _ | closeLocked _ | accessLocked _ | found .. | duplicated _ | unlocking | forking .. => true
  | dropping _ locked | removing _ locked | putting _ locked | freeing _ locked => locked
  | _ => false
end Pc

/-- One step of a thread `t`. The process of each thread is fixed. -/
inductive FileStep (proc : T → P) (t : T) : OpenFiles V P T → OpenFiles V P T → Prop
  | openGet {s : OpenFiles V P T} {c : Setup V} {mounts : List (Mount (Super V))} {path : List UInt8}
      {n : VfsNode V} {fs : FileSystems V} : s.pc t=.idle → s.status (proc t)=.running →
      vfsGetNode c mounts path s.fs=.ok (some n) fs → n≠.devfsRoot → s.fs.refs n+1<2^32 →
      FileStep proc t s {s with fs := fs, pc := update s.pc t (.gotNode n)}
  | openMiss {s : OpenFiles V P T} {c : Setup V} {mounts : List (Mount (Super V))} {path : List UInt8}
      {fs : FileSystems V} : s.pc t=.idle → s.status (proc t)=.running →
      vfsGetNode c mounts path s.fs=.ok none fs → FileStep proc t s {s with fs := fs}
  | openCreate {s : OpenFiles V P T} {n : VfsNode V} {f : ℕ} : s.pc t=.gotNode n → f ∉ s.allocated →
      FileStep proc t s {s with
        fs := s.fs.insertFile f n, allocated := f::s.allocated, pc := update s.pc t (.opened f)}
  | openLock {s : OpenFiles V P T} {f : ℕ} : s.pc t=.opened f → s.owner (proc t)=none →
      FileStep proc t s {s with
        owner := update s.owner (proc t) (some t), pc := update s.pc t (.openLocked f)}
  | openBind {s : OpenFiles V P T} {f : ℕ} {fd : Fin procMaxFiles} : s.pc t=.openLocked f →
      procGetVacantFd (s.table (proc t))=some fd →
      FileStep proc t s {s with
        table := update s.table (proc t) (procBind (s.table (proc t)) fd f)
        pc := update s.pc t .unlocking}
  | openFull {s : OpenFiles V P T} {f : ℕ} : s.pc t=.openLocked f →
      procGetVacantFd (s.table (proc t))=none →
      FileStep proc t s {s with pc := update s.pc t (.dropping f true)}
  | closeLock {s : OpenFiles V P T} {fd : ℤ} : s.pc t=.idle → s.status (proc t)=.running →
      s.owner (proc t)=none →
      FileStep proc t s {s with
        owner := update s.owner (proc t) (some t), pc := update s.pc t (.closeLocked fd)}
  | closeNone {s : OpenFiles V P T} {fd : ℤ} : s.pc t=.closeLocked fd →
      procGetFile (s.table (proc t)) fd=none →
      FileStep proc t s {s with
        table := update s.table (proc t) (procUnbind (s.table (proc t)) fd)
        pc := update s.pc t .unlocking}
  | closeUnbind {s : OpenFiles V P T} {fd : ℤ} {f : ℕ} : s.pc t=.closeLocked fd →
      procGetFile (s.table (proc t)) fd=some f →
      FileStep proc t s {s with
        table := update s.table (proc t) (procUnbind (s.table (proc t)) fd)
        pc := update s.pc t (.dropping f true)}
  | accessLock {s : OpenFiles V P T} {fd : ℤ} : s.pc t=.idle → s.status (proc t)=.running →
      s.owner (proc t)=none →
      FileStep proc t s {s with
        owner := update s.owner (proc t) (some t), pc := update s.pc t (.accessLocked fd)}
  | accessNone {s : OpenFiles V P T} {fd : ℤ} : s.pc t=.accessLocked fd →
      procGetFile (s.table (proc t)) fd=none →
      FileStep proc t s {s with pc := update s.pc t .unlocking}
  | accessFind {s : OpenFiles V P T} {fd : ℤ} {f : ℕ} : s.pc t=.accessLocked fd →
      procGetFile (s.table (proc t)) fd=some f →
      FileStep proc t s {s with pc := update s.pc t (.found fd f)}
  | accessDup {s : OpenFiles V P T} {fd : ℤ} {f f' : ℕ} {fs : FileSystems V} : s.pc t=.found fd f →
      vfsFileDup f s.fs=.ok f' fs →
      FileStep proc t s {s with fs := fs, pc := update s.pc t (.duplicated f')}
  | accessUnlock {s : OpenFiles V P T} {f : ℕ} : s.pc t=.duplicated f →
      FileStep proc t s {s with
        owner := update s.owner (proc t) none, pc := update s.pc t (.accessing f)}
  /-- A read, write or seek takes the lock of the node. -/
  | access {s : OpenFiles V P T} {f : ℕ} {fs fs' : FileSystems V} : s.pc t=.accessing f →
      lock (s.fs.file f).node s.fs=.ok () fs → unlock (s.fs.file f).node fs=.ok () fs' →
      FileStep proc t s {s with fs := fs'}
  | accessClose {s : OpenFiles V P T} {f : ℕ} : s.pc t=.accessing f →
      FileStep proc t s {s with pc := update s.pc t (.dropping f false)}
  | drop {s : OpenFiles V P T} {f : ℕ} {locked last : Bool} {fs : FileSystems V} : s.pc t=.dropping f locked →
      dropRef f s.fs=.ok last fs →
      FileStep proc t s {s with
        fs := fs, pc := update s.pc t (if last then .removing f locked else .closed locked)}
  | remove {s : OpenFiles V P T} {f : ℕ} {locked : Bool} : s.pc t=.removing f locked →
      FileStep proc t s {s with fs := s.fs.removeFile f, pc := update s.pc t (.putting f locked)}
  | put {s : OpenFiles V P T} {f : ℕ} {locked : Bool} {fs : FileSystems V} : s.pc t=.putting f locked →
      vfsPut (s.fs.file f).node s.fs=.ok () fs →
      FileStep proc t s {s with fs := fs, pc := update s.pc t (.freeing f locked)}
  | free {s : OpenFiles V P T} {f : ℕ} {locked : Bool} : s.pc t=.freeing f locked →
      FileStep proc t s {s with
        allocated := s.allocated.erase f, pc := update s.pc t (.closed locked)}
  | unlock {s : OpenFiles V P T} : s.pc t=.unlocking →
      FileStep proc t s {s with
        owner := update s.owner (proc t) none, pc := update s.pc t .idle}
  | forkLock {s : OpenFiles V P T} {child : P} : s.pc t=.idle → s.status (proc t)=.running →
      s.owner (proc t)=none → s.status child=.unused →
      FileStep proc t s {s with
        table := update s.table child (fun _=>none)
        status := update s.status child .created
        owner := update s.owner (proc t) (some t)
        pc := update s.pc t (.forking child 0)}
  | forkSkip {s : OpenFiles V P T} {child : P} {i : Fin procMaxFiles} : s.pc t=.forking child i →
      s.table (proc t) i=none →
      FileStep proc t s {s with pc := update s.pc t (.forking child (i+1))}
  | forkDup {s : OpenFiles V P T} {child : P} {i : Fin procMaxFiles} {f f' : ℕ} {fs : FileSystems V} :
      s.pc t=.forking child i → s.table (proc t) i=some f → vfsFileDup f s.fs=.ok f' fs →
      FileStep proc t s {s with
        fs := fs
        table := update s.table child (update (s.table child) i (some f'))
        pc := update s.pc t (.forking child (i+1))}
  | forkDone {s : OpenFiles V P T} {child : P} : s.pc t=.forking child procMaxFiles →
      FileStep proc t s {s with
        status := update s.status child .running
        owner := update s.owner (proc t) none
        pc := update s.pc t .idle}

section
variable {files : FileTable} {fd : ℤ} {f : ℕ}

theorem procUnbind_of_none (h : procGetFile files fd=none) : procUnbind files fd=files := by
  unfold procGetFile at h
  unfold procUnbind
  split
  · next hfd =>
    rw [dif_pos hfd] at h
    rw [← h,update_eq_self]
  · rfl

theorem procUnbind_of_some (h : procGetFile files fd=some f) :
    ∃ j, files j=some f ∧ procUnbind files fd=update files j none := by
  unfold procGetFile at h
  unfold procUnbind
  split at h
  · next hfd => exact ⟨_,h,dif_pos hfd⟩
  · cases h

theorem procBind_of_vacant (h : procGetVacantFd files=some j) :
    files j=none ∧ procBind files j f=update files j (some f) := by
  have hn : files j=none := by simpa using List.find?_some h
  exact ⟨hn,if_neg (by simp [hn])⟩
end

section
variable {proc : T → P} {s s' : OpenFiles V P T} {t : T}

/-- What a step of the thread `t` does apart from the counts. -/
structure Shape (proc : T → P) (s : OpenFiles V P T) (t : T) (s' : OpenFiles V P T) : Prop where
  pc : s'.pc=update s.pc t (s'.pc t)
  starts : s.pc t=.idle → s.status (proc t)=.running
  owner : ((s'.pc t).locks=(s.pc t).locks ∧ s'.owner=s.owner) ∨
    ((s'.pc t).locks=true ∧ s.owner (proc t)=none ∧ s'.owner=update s.owner (proc t) (some t)) ∨
    ((s.pc t).locks=true ∧ (s'.pc t).locks=false ∧ s'.owner=update s.owner (proc t) none)
  table : ∀ p, s'.table p=s.table p ∨ (p=proc t ∧ (s.pc t).locks=true) ∨
    (s.status p=.unused ∧ ∀ i, s'.table p i=none) ∨ ∃ i, s.pc t=.forking p i
  found : ∀ fd f, s'.pc t=.found fd f → procGetFile (s'.table (proc t)) fd=some f
  status : ∀ p, s'.status p=s.status p ∨
    (s.status p=.unused ∧ s'.pc t=.forking p 0 ∧ s'.status p=.created) ∨
    ((∃ i, s.pc t=.forking p i) ∧ s'.pc t=.idle ∧ s'.status p=.running)
  fork : ∀ p i, s'.pc t=.forking p i →
    (s.pc t=.idle ∧ s.status p=.unused ∧ s'.status p=.created ∧ ∀ j, s'.table p j=none) ∨
    ∃ k, s.pc t=.forking p k ∧ k < i ∧ s'.status p=s.status p ∧
      ∀ j : Fin procMaxFiles, i≤j → s'.table p j=s.table p j

theorem FileStep.shape (h : FileStep proc t s s') : Shape proc s t s' := by
  cases h with
  | openGet hpc | openMiss hpc | openCreate hpc | openLock hpc | openFull hpc | closeLock hpc | accessLock hpc
  | accessNone hpc | accessFind hpc | accessDup hpc | accessUnlock hpc | access hpc | accessClose hpc | remove hpc
  | put hpc | unlock hpc => constructor <;> simp_all [Pc.locks]
  | openBind hpc | closeNone hpc | closeUnbind hpc =>
    refine ⟨by simp,by simp [hpc],by simp [hpc,Pc.locks],fun p=>?_,by simp,by simp,by simp⟩
    by_cases hp : p=proc t <;> simp [hp,hpc,Pc.locks]
  | @drop f locked last fs hpc hdr =>
    cases last <;> cases locked <;> constructor <;> simp_all [Pc.locks,Pc.closed]
  | @free f locked hpc => cases locked <;> constructor <;> simp_all [Pc.locks,Pc.closed]
  | @forkLock child hpc hrun hown hch =>
    refine ⟨by simp,by simp [hpc,hrun],by simp [hpc,Pc.locks,hown],fun p=>?_,by simp,fun p=>?_,?_⟩
    · by_cases hp : p=child <;> simp [hp,hch]
    · by_cases hp : p=child <;> simp [hp,hch]
    · intro p i hi
      simp only [update_self,Pc.forking.injEq] at hi
      obtain ⟨rfl,-⟩ := hi
      exact .inl ⟨hpc,hch,by simp,by simp⟩
  | @forkSkip child i hpc hi =>
    refine ⟨by simp,by simp [hpc],by simp [hpc,Pc.locks],by simp,by simp,by simp,fun p k hk=>?_⟩
    simp only [update_self,Pc.forking.injEq] at hk
    obtain ⟨rfl,rfl⟩ := hk
    exact .inr ⟨i,hpc,Nat.lt_succ_self _,rfl,fun _ _=>rfl⟩
  | @forkDup child i f f' fs hpc hi hdup =>
    refine ⟨by simp,by simp [hpc],by simp [hpc,Pc.locks],fun p=>?_,by simp,by simp,fun p k hk=>?_⟩
    · by_cases hp : p=child <;> simp [hp,hpc]
    · simp only [update_self,Pc.forking.injEq] at hk
      obtain ⟨rfl,rfl⟩ := hk
      refine .inr ⟨i,hpc,Nat.lt_succ_self _,rfl,fun j hj=>?_⟩
      have hne : j≠i := fun hc=>by simp [hc] at hj
      simp [hne]
  | @forkDone child hpc =>
    refine ⟨by simp,by simp [hpc],by simp [hpc,Pc.locks],by simp,by simp,fun p=>?_,by simp⟩
    by_cases hp : p=child <;> simp [hp,hpc]

/-- The mutexes exclude, and a process that is being made is touched by nobody else. -/
structure Control (proc : T → P) (s : OpenFiles V P T) : Prop where
  mutex : ∀ t, (s.pc t).locks=true → s.owner (proc t)=some t
  active : ∀ t, s.pc t≠.idle → s.status (proc t)=.running
  found : ∀ t fd f, s.pc t=.found fd f → procGetFile (s.table (proc t)) fd=some f
  unused : ∀ p, s.status p=.unused → ∀ i, s.table p i=none
  fork : ∀ t p i, s.pc t=.forking p i → s.status p=.created ∧ ∀ j : Fin procMaxFiles, i≤j → s.table p j=none
  forkers : ∀ t u p i j, s.pc t=.forking p i → s.pc u=.forking p j → t=u

variable {u : T} {p : P} {i : ℕ}

theorem Control.exclusive (h : Control proc s) (ht : (s.pc t).locks=true) (hu : (s.pc u).locks=true)
    (hp : proc u=proc t) : u=t := by
  have ho := h.mutex u hu
  rw [hp,h.mutex t ht] at ho
  exact (Option.some.inj ho).symm

theorem Control.running_of_locks (h : Control proc s) (ht : (s.pc t).locks=true) : s.status (proc t)=.running :=
  h.active t (fun hc=>by rw [hc] at ht; cases ht)

theorem Shape.table_eq (hs : Shape proc s t s') (hp : s.status p≠.unused)
    (hown : p=proc t → (s.pc t).locks=false) (hfr : ∀ i, s.pc t≠.forking p i) : s'.table p=s.table p := by
  rcases hs.table p with heq | ⟨rfl,hlc⟩ | ⟨hun,-⟩ | ⟨i,hi⟩
  · exact heq
  · rw [hown rfl] at hlc
    cases hlc
  · exact absurd hun hp
  · exact absurd hi (hfr i)

theorem Shape.pc_of_ne (hs : Shape proc s t s') (hu : u≠t) : s'.pc u=s.pc u := by rw [hs.pc,update_of_ne hu]

theorem Shape.status_running (hs : Shape proc s t s') (hp : s.status p=.running) :
    s'.status p=.running := by
  rcases hs.status p with heq | ⟨hu,-⟩ | ⟨-,-,hnew⟩
  · rw [heq,hp]
  · rw [hp] at hu
    cases hu
  · exact hnew

namespace Control

section
variable (h : Control proc s) (hs : Shape proc s t s')
include h hs
theorem mutex_step (hu : (s'.pc u).locks=true) : s'.owner (proc u)=some u := by
  by_cases hut : u=t
  · subst hut
    rcases hs.owner with ⟨hlc,how⟩ | ⟨-,-,how⟩ | ⟨-,hlc,-⟩
    · rw [how]
      exact h.mutex u (hlc▸hu)
    · rw [how,update_self]
    · rw [hlc] at hu
      cases hu
  · rw [hs.pc_of_ne hut] at hu
    have hold := h.mutex u hu
    rcases hs.owner with ⟨-,how⟩ | ⟨-,hnn,how⟩ | ⟨hlc,-,how⟩
    · rw [how,hold]
    · have hne : proc u≠proc t := fun hc=>by rw [hc,hnn] at hold; cases hold
      rw [how,update_of_ne hne,hold]
    · have hne : proc u≠proc t := fun hc=>hut (h.exclusive hlc hu hc)
      rw [how,update_of_ne hne,hold]

theorem active_step (hu : s'.pc u≠.idle) : s'.status (proc u)=.running := by
  by_cases hut : u=t
  · subst hut
    by_cases hi : s.pc u=.idle
    · exact hs.status_running (hs.starts hi)
    · exact hs.status_running (h.active u hi)
  · rw [hs.pc_of_ne hut] at hu
    exact hs.status_running (h.active u hu)

theorem found_step (hu : s'.pc u=.found fd f) : procGetFile (s'.table (proc u)) fd=some f := by
  by_cases hut : u=t
  · subst hut
    exact hs.found fd f hu
  · rw [hs.pc_of_ne hut] at hu
    have hlc : (s.pc u).locks=true := by rw [hu]; rfl
    have hrun := h.running_of_locks hlc
    rw [hs.table_eq (by simp [hrun]) (fun hc=>?_) (fun i hi=>?_)]
    · exact h.found u fd f hu
    · by_contra hlk
      exact hut (h.exclusive (by simpa using hlk) hlc hc)
    · have hcr := (h.fork t _ i hi).1
      rw [hrun] at hcr
      cases hcr

theorem unused_step (hp : s'.status p=.unused) (i : Fin procMaxFiles) : s'.table p i=none := by
  have hold : s.status p=.unused := by
    rcases hs.status p with heq | ⟨-,-,hnew⟩ | ⟨-,-,hnew⟩
    · rw [← heq,hp]
    · rw [hnew] at hp
      cases hp
    · rw [hnew] at hp
      cases hp
  rcases hs.table p with heq | ⟨rfl,hlc⟩ | ⟨-,hnn⟩ | ⟨k,hk⟩
  · rw [heq]
    exact h.unused p hold i
  · rw [h.running_of_locks hlc] at hold
    cases hold
  · exact hnn i
  · rw [(h.fork t p k hk).1] at hold
    cases hold

theorem fork_of_ne (hut : u≠t)
    (hu : s.pc u=.forking p i) : s'.table p=s.table p ∧ s'.status p=s.status p := by
  obtain ⟨hcr,-⟩ := h.fork u p i hu
  have hfr : ∀ k, s.pc t≠.forking p k := fun k hk=>hut (h.forkers u t p i k hu hk)
  constructor
  · refine hs.table_eq (by simp [hcr]) (fun hc=>?_) hfr
    by_contra hlc
    have hrun := h.running_of_locks (t := t) (by simpa using hlc)
    rw [← hc,hcr] at hrun
    cases hrun
  · rcases hs.status p with heq | ⟨hun,-⟩ | ⟨⟨k,hk⟩,-⟩
    · exact heq
    · rw [hcr] at hun
      cases hun
    · exact absurd hk (hfr k)

theorem fork_step (hu : s'.pc u=.forking p i) :
    s'.status p=.created ∧ ∀ j : Fin procMaxFiles, i≤j → s'.table p j=none := by
  by_cases hut : u=t
  · subst hut
    rcases hs.fork p i hu with ⟨-,-,hnew,hnn⟩ | ⟨k,hk,hki,hst,htb⟩
    · exact ⟨hnew,fun j _=>hnn j⟩
    · obtain ⟨hcr,hnn⟩ := h.fork u p k hk
      exact ⟨hst.trans hcr,fun j hj=>(htb j hj).trans (hnn j (by omega))⟩
  · rw [hs.pc_of_ne hut] at hu
    obtain ⟨htb,hst⟩ := h.fork_of_ne hs hut hu
    rw [htb,hst]
    exact h.fork u p i hu

theorem forkers_step (hu : s'.pc u=.forking p i) (hv : s'.pc v=.forking p j) : u=v := by
  have hfr : ∀ {u i j}, u≠t → s'.pc t=.forking p i → s.pc u=.forking p j → False := by
    intro u i j hut hi hj
    rcases hs.fork p i hi with ⟨-,hun,-⟩ | ⟨k,hk,-⟩
    · rw [(h.fork u p j hj).1] at hun
      cases hun
    · exact hut (h.forkers u t p j k hj hk)
  by_cases hut : u=t
  · by_cases hvt : v=t
    · rw [hut,hvt]
    · subst hut
      exact (hfr hvt hu (hs.pc_of_ne hvt▸hv)).elim
  · by_cases hvt : v=t
    · subst hvt
      exact (hfr hut hv (hs.pc_of_ne hut▸hu)).elim
    · exact h.forkers u v p i j (hs.pc_of_ne hut▸hu) (hs.pc_of_ne hvt▸hv)

theorem step : Control proc s' where
  mutex _ := h.mutex_step hs
  active _ := h.active_step hs
  found _ _ _ := h.found_step hs
  unused _ := h.unused_step hs
  fork _ _ _ := h.fork_step hs
  forkers _ _ _ _ _ := h.forkers_step hs
end

end Control
end

end Yaos2.Vfs
