import Yaos2.Process.SyscallRead
import Yaos2.Vfs.OpenFiles

/-! # Opening a file by a user's path

`kmstrlen` gives up with `-1` only at the second character behind the limit, and nobody looks at the `-1`. -/
namespace Yaos2.Process
open Foundation Memory Vfs List Nat

def syscallMaxPathLen : ℕ := 511

/-- What `syscall_open` asks other parts of the kernel for. -/
inductive OpenEvent
  /-- `kualloc` for the path -/
  | alloc (size : ℕ)
  /-- `proc_vmread` to the buffer -/
  | copy (num : ℕ)
  /-- `vfs_open` -/
  | opened (path : List UInt8)
  /-- `vfs_close` -/
  | closed (f : ℕ)
  deriving DecidableEq, Repr

/-- The machine and the descriptors of the process, with what has been asked for. -/
structure Opening where
  machine : Machine
  files : FileTable
  events : List OpenEvent

def Opening.onMachine {α : Type} (x : Kernel α) : Exec Opening α :=
  zoom Opening.machine (fun m t=>{t with machine := m}) x

def Opening.note (e : OpenEvent) : Exec Opening Unit := modify fun t=>{t with events := t.events++[e]}

/-- `kmstrlen`, on memory with holes. -/
def kmstrlen {σ : Type} (mem : ℕ → Option UInt8) (max : ℤ) : ℕ → ℕ → ℤ → Exec σ ℤ
  | 0, _, _ => abort "endless loop"
  | fuel+1, p, result =>
    match mem p with
    | none => abort "page fault"
    | some c =>
      if c≠0 then
        if result > max then return -1
        else kmstrlen mem max fuel (p+1) (result+1)
      else return result

variable (L : Layout)

/-- `syscall_open`, with the memory that `kualloc` returns. A copy that does not fit ends the run.
-/
def syscallOpen (pd : ℕ) (stale : ℕ → UInt8) (vfsOpen : List UInt8 → Option ℕ) (path : ℕ) : Exec Opening ℤ := do
  let len ← kmstrlen (userView (← get).machine.mem pd) syscallMaxPathLen (syscallMaxPathLen+2) path 0
  let _ ← Opening.onMachine (cpuSetCr3 L.physKernelPd)
  let size := ((len+1)%2^32).toNat
  let num := (len%2^32).toNat
  Opening.note (.alloc size)
  let kpath := (List.range size).map stale
  Opening.note (.copy num)
  panicIf (size<num) "proc_vmread(): the buffer is too small"
  let part ← Opening.onMachine (procVmread L pd path (kpath.take num))
  let kpath := cString ((part++kpath.drop num).set num 0)
  Opening.note (.opened kpath)
  match vfsOpen kpath with
  | none =>
    let _ ← Opening.onMachine (cpuSetCr3 pd)
    return -eUnspec
  | some f =>
    match procGetVacantFd (← get).files with
    | none =>
      Opening.note (.closed f)
      let _ ← Opening.onMachine (cpuSetCr3 pd)
      return -eUnspec
    | some fd =>
      modify fun t=>{t with files := procBind t.files fd f}
      let _ ← Opening.onMachine (cpuSetCr3 pd)
      return fd.val

/-- The string is in memory, with a zero behind it. -/
structure HoldsString (mem : ℕ → Option UInt8) (p : ℕ) (str : List UInt8) : Prop where
  nonzero : ∀ c ∈ str, c≠0
  bytes : ∀ k ≤ str.length, mem (p+k)=some (str.getD k 0)

/-- The answer and the descriptors when `vfs_open` has answered. -/
def Bound (answer : Option ℕ) (files : FileTable) (fd : ℤ) (files' : FileTable) : Prop :=
  (∃ f d, answer=some f ∧ procGetVacantFd files=some d ∧ fd=d.val ∧ files'=procBind files d f) ∨
    ((answer=none ∨ procGetVacantFd files=none) ∧ fd = -eUnspec ∧ files'=files)

variable {L} {s : Machine} {t : Opening} {live : List ℕ} {pd path p fuel : ℕ} {im : Image} {str : List UInt8}
  {stale : ℕ → UInt8} {vfsOpen : List UInt8 → Option ℕ} {files : FileTable} {mem : ℕ → Option UInt8}

theorem Opening.wp_onMachine {α : Type} {x : Kernel α} {Q : α → Opening → Prop} {E : Opening → Prop} :
    Ensures (Opening.onMachine x) t Q E ↔
      Ensures x t.machine (fun a u=>Q a {t with machine := u}) (fun u=>E {t with machine := u}) :=
  wp_zoom _ _ _ _ _ _

theorem Opening.wp_note {e : OpenEvent} {Q : Unit → Opening → Prop} {E : Opening → Prop} :
    Ensures (Opening.note e) t Q E ↔ Q () {t with events := t.events++[e]} :=
  wp_modify ..

section

theorem HoldsString.tail {c : UInt8} (h : HoldsString mem p (c::str)) : HoldsString mem (p+1) str where
  nonzero d hd := h.nonzero d (mem_cons_of_mem c hd)
  bytes k hk := by
    have hb := h.bytes (k+1) (succ_le_succ hk)
    rw [getD_cons_succ] at hb
    rw [← hb,add_right_comm,add_assoc]

theorem kmstrlen_spec {σ : Type} {s : σ} {max result : ℤ} (h : HoldsString mem p str) (hr : result ≤ max+1)
    (hf : max+2≤fuel+result) : Returns (kmstrlen mem max fuel p result) s (fun len u =>
      len=(if result+str.length ≤ max+1 then result+str.length else -1) ∧ u=s) := by
  induction str generalizing p fuel result with
  | nil =>
    obtain ⟨n,rfl⟩ : ∃ n, fuel=n+1 := ⟨fuel-1,by omega⟩
    have hb := h.bytes 0 le_rfl
    rw [add_zero,getD_nil] at hb
    unfold kmstrlen Returns
    rw [hb]
    dsimp only
    rw [if_neg (by decide),wp_pure]
    simp [hr]
  | cons c str ih =>
    obtain ⟨n,rfl⟩ : ∃ n, fuel=n+1 := ⟨fuel-1,by omega⟩
    have hb := h.bytes 0 (zero_le _)
    rw [add_zero,getD_cons_zero] at hb
    unfold kmstrlen Returns
    rw [hb]
    dsimp only
    rw [if_pos (h.nonzero c mem_cons_self),length_cons]
    by_cases hl : result > max
    · rw [if_pos hl,if_neg (by omega),wp_pure]
      exact ⟨rfl,rfl⟩
    · have hlen : result+((str.length+1 : ℕ) : ℤ)=result+1+str.length := by omega
      rw [if_neg hl,hlen]
      exact ih h.tail (by omega) (by omega)
end

section

theorem Running.view (h : Running L s live pd im) (hp : p<userTop) : userView s.mem pd p=im p := by
  have hv := Backs.view h p hp
  rwa [setCr3_mem] at hv

theorem procVmread_string {buf : List UInt8} (h : Backs L s live pd im 0) (hstr : HoldsString im p str)
    (htop : p+str.length<userTop) (hbuf : buf.length=str.length) :
    Returns (procVmread L pd p buf) s (fun r _=>r=str) := by
  obtain ⟨fl,role,hown,-⟩ := h.owned
  have hrn : UserRange L s.mem p buf.length := hown.kernel.userRange (by
    rw [hbuf]
    exact htop.le)
  simp only [procVmread,Returns,wp_bind,wp_isUsingKernelPageTables,wp_kassert hown.kernelTables]
  apply (vmread_user hown h.live buf hrn).mono
  · intro r _ hr
    rw [hr,hbuf]
    apply ext_getElem length_userBytes
    intro k hk hk'
    have hby := hstr.bytes k hk'.le
    have hmem := h.byte (w := p+k) (by omega) (by rw [hby]; simp)
    rw [hby,Option.some.injEq,getD_eq_getElem _ _ hk'] at hmem
    simp [userBytes,hmem]
  · exact fun _ hF=>hF.elim

theorem cString_kpath (hstr : ∀ c ∈ str, c≠0) :
    cString ((str++((List.range (str.length+1)).map stale).drop str.length).set str.length 0)=str := by
  have hl : ((List.range (str.length+1)).map stale).drop str.length=[stale str.length] := by
    rw [range_succ,map_append,drop_left' (by simp),map_singleton]
  have hset : (str++[stale str.length]).set str.length 0=str++[0] := by
    rw [set_append_right _ _ le_rfl,Nat.sub_self,set_cons_zero]
  have hall : ∀ c ∈ str, (c != 0)=true := fun c hc=>bne_iff_ne.mpr (hstr c hc)
  rw [hl,hset,cString,takeWhile_append_of_pos hall]
  simp

section
variable (h : Running L s live pd im) (hstr : HoldsString im path str) (htop : path+str.length<userTop)
include h hstr htop
theorem kmstrlen_path :
    Returns (do kmstrlen (userView (← get).machine.mem pd) syscallMaxPathLen (syscallMaxPathLen+2) path 0)
      (⟨s,files,[]⟩ : Opening) (fun len u =>
        len=(if str.length ≤ syscallMaxPathLen+1 then (str.length : ℤ) else -1) ∧ u=⟨s,files,[]⟩) := by
  have hvw : HoldsString (userView s.mem pd) path str :=
    ⟨hstr.nonzero,fun k hk=>(h.view (by omega)).trans (hstr.bytes k hk)⟩
  rw [Returns,wp_bind,wp_get]
  apply (kmstrlen_spec hvw (by omega) (by omega)).mono
  · rintro len u ⟨hlen,hu⟩
    refine ⟨?_,hu⟩
    rw [hlen,Int.zero_add]
    norm_cast
  · exact fun _ hF=>hF.elim

theorem syscallOpen_accepts (hlen : str.length ≤ syscallMaxPathLen+1) :
    Returns (syscallOpen L pd stale vfsOpen path) ⟨s,files,[]⟩ (fun fd u =>
      Bound (vfsOpen str) files fd u.files ∧
      ∃ rest, u.events=.alloc (str.length+1)::.copy str.length::.opened str::rest ∧
        ∀ e ∈ rest, ∃ f, e=.closed f) := by
  unfold syscallOpen
  apply Ensures.bind (kmstrlen_path h hstr htop)
  · rintro len u ⟨hnum,rfl⟩
    rw [if_pos hlen] at hnum
    subst hnum
    have hsz : (((str.length : ℤ)+1)%2^32).toNat=str.length+1 := by
      simp only [syscallMaxPathLen] at hlen
      omega
    have hcp : ((str.length : ℤ)%2^32).toNat=str.length := by
      simp only [syscallMaxPathLen] at hlen
      omega
    simp only [wp_bind,Opening.wp_onMachine,wp_cpuSetCr3,Opening.wp_note,hsz,hcp]
    rw [wp_panicIf (by omega)]
    have hbuf : (((List.range (str.length+1)).map stale).take str.length).length=str.length := by simp
    apply (procVmread_string h hstr htop hbuf).mono
    · rintro part u rfl
      rw [cString_kpath hstr.nonzero]
      cases hop : vfsOpen part with
      | none =>
        simp only [wp_bind,Opening.wp_onMachine,wp_cpuSetCr3,wp_pure]
        exact ⟨.inr ⟨.inl rfl,rfl,rfl⟩,[],rfl,by simp⟩
      | some f =>
        dsimp only
        rw [wp_bind,wp_get]
        dsimp only
        cases hfd : procGetVacantFd files with
        | none =>
          simp only [wp_bind,Opening.wp_note,Opening.wp_onMachine,wp_cpuSetCr3,wp_pure]
          exact ⟨.inr ⟨.inr hfd,rfl,rfl⟩,[.closed f],rfl,by simp⟩
        | some fd =>
          simp only [wp_bind,wp_modify,Opening.wp_onMachine,wp_cpuSetCr3,wp_pure]
          exact ⟨.inl ⟨f,fd,rfl,hfd,rfl,rfl⟩,[],rfl,by simp⟩
    · exact fun _ hF=>hF.elim

theorem syscallOpen_overflows (hlen : syscallMaxPathLen+1<str.length) :
    Ensures (syscallOpen L pd stale vfsOpen path) ⟨s,files,[]⟩ (fun _ _=>False)
      (fun u=>u.events=[.alloc 0, .copy (2^32-1)]) := by
  unfold syscallOpen
  apply Ensures.bind (kmstrlen_path h hstr htop).ensures
  rintro len u ⟨hnum,rfl⟩
  rw [if_neg (by omega)] at hnum
  subst hnum
  simp only [wp_bind,Opening.wp_onMachine,wp_cpuSetCr3,Opening.wp_note]
  rw [wp_panicIf_true (by decide)]
  rfl
end

theorem onePage_holds (hstr : ∀ c ∈ str, c≠0) (hlen : str.length<pageSize) :
    HoldsString (onePage str) 0x1000 str where
  nonzero := hstr
  bytes k hk := by
    have hpg : Image.reserve (fun _=>none) 0x1000 (0x1000+k)=some 0 := by
      have hms : maskToPage (0x1000+k)=maskToPage 0x1000 := maskToPage_add (by decide) (by omega)
      rw [Image.reserve,if_pos hms,Option.getD_none]
    unfold onePage
    rcases hk.lt_or_eq with hlt | rfl
    · rw [Image.write_inside hlt (by rw [hpg]; simp),List.getElem?_eq_getElem hlt,getD_eq_getElem _ _ hlt]
    · rw [Image.write_outside _ (.inr le_rfl),hpg,getD_eq_default _ _ le_rfl]

end

end Yaos2.Process
