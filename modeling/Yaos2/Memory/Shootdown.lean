import Yaos2.Memory.Process

/-! # Telling the other CPUs of a changed page

With `CR4.PGE` set, loading `CR3` drops the cached translations without the global bit, and `INVLPG` drops
the one of a single page. -/
namespace Yaos2.Memory
open Foundation Function
set_option linter.unusedSectionVars false

/-- What one CPU has of paging: its directory, and the entries it has cached, by page. -/
structure CpuTlb where
  active : Bool
  cr3 : ℕ
  tlb : ℕ → Option ℕ

namespace CpuTlb

def loadCr3 (c : CpuTlb) (pd : ℕ) : CpuTlb := {c with cr3 := pd, tlb := fun v=>(c.tlb v).filter isGlobal}

def setCr3 (c : CpuTlb) (pd : ℕ) : CpuTlb := if pd=c.cr3 then c else c.loadCr3 pd

def flushTlb (c : CpuTlb) : CpuTlb := c.loadCr3 c.cr3

def invlpg (c : CpuTlb) (v : ℕ) : CpuTlb := {c with tlb := update c.tlb (maskToPage v) none}

def cache (c : CpuTlb) (v e : ℕ) : CpuTlb := {c with tlb := update c.tlb (maskToPage v) (some e)}
end CpuTlb

variable (L : Layout)

def ipiFlushTlbHandler (pd v : ℕ) (global : Bool) (c : CpuTlb) : CpuTlb :=
  if global=true ∧ pd=L.physKernelPd ∧ c.cr3≠L.physKernelPd then c.flushTlb
  else if pd=c.cr3 then
    if v≠0 then c.invlpg v else c.flushTlb
  else c

/-- The calls that change an entry and tell the other CPUs. -/
inductive PageChange
  | kpMap (v p : ℕ)
  | vmreserve (proc : Proc) (v flags : ℕ)

namespace PageChange

/-- The arguments of `paging_propagate_changes`. -/
def pd : PageChange → ℕ
  | kpMap _ _ => L.physKernelPd
  | vmreserve proc _ _ => proc.pd

def addr : PageChange → ℕ
  | kpMap v _ => v
  | vmreserve _ v _ => maskToPage v

def global : PageChange → Bool
  | kpMap v _ => isGlobal (L.vmGetPflags v)
  | vmreserve _ _ _ => false

/-- What the caller does to its own CPU before the change. -/
def enter : PageChange → CpuTlb → CpuTlb
  | kpMap _ _, c => c.setCr3 L.physKernelPd
  | vmreserve _ _ _, c => c

/-- `unsafe_vmreserve` leaves a page alone that has a frame. -/
def Needed : PageChange → Machine → Prop
  | kpMap _ _, _ => True
  | vmreserve proc v _, s => pagingGet L proc.pd (maskToPage v) s=.ok physNull s

def map : PageChange → Kernel Unit
  | kpMap v p => pagingMap L L.physKernelPd v p (L.vmGetPflags v)
  | vmreserve proc v flags => do pagingMap L proc.pd (maskToPage v) (← palloc L) (vmPflags flags)

/-- What the caller does to its own CPU in the end; it was on the directory `prev`. -/
def leave (prev : ℕ) : PageChange → CpuTlb → CpuTlb
  | kpMap v _, c => (if prev=L.physKernelPd then c.invlpg v else c).setCr3 prev
  | vmreserve _ _ _, c => c

/-- The caller drops the translation of its own CPU for certain. -/
def Invalidates (prev : ℕ) : PageChange → Prop
  | kpMap _ _ => prev=L.physKernelPd
  | vmreserve _ _ _ => False
end PageChange

inductive ShootPhase
  | idle
  | entered
  | mapped
  | done
  deriving DecidableEq

/-- The CPUs while one of them changes an entry. `waiting` are those that have not answered yet. -/
structure Smp (K : Type) where
  machine : Machine
  cpus : K → CpuTlb
  prev : ℕ
  phase : ShootPhase
  waiting : K → Bool

/-- The directory has the page table of the address from the directory `pd`. -/
def SharesTable (m : Mem) (pd v d : ℕ) : Prop :=
  pteGetPaddr (entryAt m d (getPdIndex (maskToPage v)))=pteGetPaddr (entryAt m pd (getPdIndex (maskToPage v)))

inductive ShootEvent (K : Type)
  | enter
  | change
  | ipi (j : K)
  | leave
  | fill (j : K) (w : ℕ)
  | load (j : K) (pd : ℕ)
  | other

section
variable {K : Type} [DecidableEq K]

def Smp.setCpu (s : Smp K) (j : K) (c : CpuTlb) : Smp K := {s with cpus := update s.cpus j c}

/-- The steps of the call `chg` on the CPU `k`, and of the other CPUs. -/
inductive ShootStep (chg : PageChange) (k : K) : Smp K → ShootEvent K → Smp K → Prop
  | enter {s : Smp K} : s.phase=.idle → ShootStep chg k s .enter
        {s.setCpu k (chg.enter L (s.cpus k)) with prev := (s.cpus k).cr3, phase := .entered}
  | change {s : Smp K} {m : Machine} : s.phase=.entered → chg.Needed L (s.machine.setCr3 (s.cpus k).cr3) →
      chg.map L (s.machine.setCr3 (s.cpus k).cr3)=.ok () m →
      ShootStep chg k s .change
        {s with machine := m, phase := .mapped, waiting := fun j=>j≠k && (s.cpus j).active}
  | ipi {s : Smp K} {j : K} : s.phase=.mapped → s.waiting j=true → ShootStep chg k s (.ipi j)
        {s.setCpu j (ipiFlushTlbHandler L (chg.pd L) chg.addr (chg.global L) (s.cpus j)) with
          waiting := update s.waiting j false}
  | leave {s : Smp K} : s.phase=.mapped → (∀ j, s.waiting j=false) →
      ShootStep chg k s .leave {s.setCpu k (chg.leave L s.prev (s.cpus k)) with phase := .done}
  | fill {s : Smp K} {j : K} {w : ℕ} : isPresent (walk s.machine.mem (s.cpus j).cr3 w)=true →
      ShootStep chg k s (.fill j w)
        (s.setCpu j ((s.cpus j).cache w (walk s.machine.mem (s.cpus j).cr3 w)))
  | load {s : Smp K} {j : K} {pd : ℕ} : j≠k →
      ShootStep chg k s (.load j pd) (s.setCpu j ((s.cpus j).loadCr3 pd))
  | other {s : Smp K} {m : Machine} : (∀ d, entryAt m.mem d (getPdIndex (maskToPage chg.addr)) =
        entryAt s.machine.mem d (getPdIndex (maskToPage chg.addr)) ∧
        walk m.mem d chg.addr=walk s.machine.mem d chg.addr) →
      ShootStep chg k s .other {s with machine := m}
end

section
variable {L} {K : Type} [DecidableEq K] {chg : PageChange} {k j : K} {s s' : Smp K} {ev : ShootEvent K} {e : ℕ}
  {c : CpuTlb}

/-- The CPU has a translation of the page other than the entry in the tables. -/
def Smp.Stale (L : Layout) (chg : PageChange) (s : Smp K) (j : K) (e : ℕ) : Prop :=
  (s.cpus j).tlb (maskToPage chg.addr)=some e ∧ e≠walk s.machine.mem (chg.pd L) chg.addr

def Smp.Uses (L : Layout) (chg : PageChange) (k : K) (s : Smp K) (j : K) : Prop :=
  ((s.cpus j).active=true ∨ j=k) ∧ SharesTable s.machine.mem (chg.pd L) chg.addr (s.cpus j).cr3

/-- A CPU with the old translation is on the directory of the call, or is the caller; one with a
global translation loads no other directory. -/
def Calm (L : Layout) (chg : PageChange) (k : K) (s : Smp K) : ShootEvent K → Smp K → Prop
  | .change, s' => ∀ j e, s'.Uses L chg k j → s'.Stale L chg j e → j=k ∧ chg.Invalidates L s'.prev ∨
        j≠k ∧ (s'.cpus j).cr3=chg.pd L ∧ (chg.addr≠0 ∨ isGlobal e=false)
  | .load j _, _ => s.phase=.mapped ∨ s.phase=.done → ∀ e, s.Stale L chg j e → isGlobal e=false
  | _, _ => True

/-- The old translation is about to be dropped. -/
def Smp.Pending (L : Layout) (chg : PageChange) (k : K) (s : Smp K) (j : K) (e : ℕ) : Prop :=
  s.phase=.mapped ∧ (j=k ∧ chg.Invalidates L s.prev ∨
    j≠k ∧ s.waiting j=true ∧ (s.cpus j).cr3=chg.pd L ∧ (chg.addr≠0 ∨ isGlobal e=false))

structure Smp.Inv (L : Layout) (chg : PageChange) (k : K) (s : Smp K) : Prop where
  caller : s.phase=.entered ∨ s.phase=.mapped → ∀ v p, chg=.kpMap v p → (s.cpus k).cr3=L.physKernelPd
  answered : s.phase=.mapped → s.waiting k=false
  stale : s.phase=.mapped ∨ s.phase=.done → ∀ j e, s.Uses L chg k j → s.Stale L chg j e → s.Pending L chg k j e

theorem walk_eq_of_shares (h : SharesTable m pd v d) : walk m d v=walk m pd v := by
  simp only [walk]
  rw [h]

@[simp] theorem setCpu_self (s : Smp K) (j : K) (c : CpuTlb) : (s.setCpu j c).cpus j=c := update_self ..

theorem setCpu_of_ne (h : i≠j) : (s.setCpu j c).cpus i=s.cpus i := update_of_ne h ..

namespace CpuTlb

theorem loadCr3_tlb (h : (c.loadCr3 pd).tlb v=some e) : c.tlb v=some e ∧ isGlobal e=true :=
  Option.filter_eq_some_iff.mp h

theorem cache_tlb (c : CpuTlb) (v e : ℕ) : (c.cache v e).tlb (maskToPage v)=some e := update_self ..

theorem cache_tlb_of_ne (h : v≠maskToPage w) : (c.cache w e).tlb v=c.tlb v := update_of_ne h ..

theorem invlpg_tlb (c : CpuTlb) (v : ℕ) : (c.invlpg v).tlb (maskToPage v)=none := update_self ..

theorem setCr3_cr3 (c : CpuTlb) (pd : ℕ) : (c.setCr3 pd).cr3=pd := by
  rw [setCr3]
  split
  case isTrue h => exact h.symm
  case isFalse => rfl
end CpuTlb

theorem ipiFlushTlbHandler_stale (h : (ipiFlushTlbHandler L pd v global c).tlb (maskToPage v)=some e) :
    c.tlb (maskToPage v)=some e ∧ (c.cr3=pd → v=0 ∧ isGlobal e=true) := by
  rw [ipiFlushTlbHandler] at h
  split at h
  case isTrue hg =>
    obtain ⟨-,hk,hne⟩ := hg
    exact ⟨(CpuTlb.loadCr3_tlb h).1,fun he=>absurd (he.trans hk) hne⟩
  case isFalse =>
    split at h
    case isTrue =>
      split at h
      case isTrue =>
        rw [CpuTlb.invlpg_tlb] at h
        cases h
      case isFalse hv =>
        obtain ⟨htlb,hgl⟩ := CpuTlb.loadCr3_tlb h
        exact ⟨htlb,fun _=>⟨not_not.mp hv,hgl⟩⟩
    case isFalse hcr3 => exact ⟨h,fun he=>absurd he.symm hcr3⟩

theorem ipiFlushTlbHandler_keeps (pd v : ℕ) (global : Bool) (c : CpuTlb) :
    (ipiFlushTlbHandler L pd v global c).cr3=c.cr3 ∧ (ipiFlushTlbHandler L pd v global c).active=c.active := by
  rw [ipiFlushTlbHandler]
  split
  · exact ⟨rfl,rfl⟩
  · split
    · split <;> exact ⟨rfl,rfl⟩
    · exact ⟨rfl,rfl⟩

namespace Smp

section
variable (h : s.Inv L chg k)
include h
theorem Inv.fill (w : ℕ) :
    Inv L chg k (s.setCpu j ((s.cpus j).cache w (walk s.machine.mem (s.cpus j).cr3 w))) := by
  have hsm : ∀ i, ((s.setCpu j ((s.cpus j).cache w (walk s.machine.mem (s.cpus j).cr3 w))).cpus i).cr3 =
      (s.cpus i).cr3 ∧ ((s.setCpu j ((s.cpus j).cache w (walk s.machine.mem (s.cpus j).cr3 w))).cpus i).active =
      (s.cpus i).active := by
    intro i
    by_cases hi : i=j
    · subst hi
      rw [setCpu_self]
      exact ⟨rfl,rfl⟩
    · rw [setCpu_of_ne hi]
      exact ⟨rfl,rfl⟩
  refine ⟨fun hp v p hchg=>?_,h.answered,fun hp i e huse hst=>?_⟩
  · rw [(hsm k).1]
    exact h.caller hp v p hchg
  · have huse' : s.Uses L chg k i := by
      rw [Uses,(hsm i).1,(hsm i).2] at huse
      exact huse
    have hst' : s.Stale L chg i e := by
      by_cases hi : i=j
      · subst hi
        obtain ⟨htlb,hne⟩ := hst
        rw [setCpu_self] at htlb
        by_cases hw : maskToPage w=maskToPage chg.addr
        · rw [← hw,CpuTlb.cache_tlb,walk_page hw,walk_eq_of_shares huse'.2] at htlb
          exact absurd (Option.some.inj htlb).symm hne
        · rw [CpuTlb.cache_tlb_of_ne (Ne.symm hw)] at htlb
          exact ⟨htlb,hne⟩
      · rw [Stale,setCpu_of_ne hi] at hst
        exact hst
    have hpn := h.stale hp i e huse' hst'
    rw [Pending] at hpn ⊢
    rw [(hsm i).1]
    exact hpn

theorem Inv.load (hj : j≠k)
    (hcl : s.phase=.mapped ∨ s.phase=.done → ∀ e, s.Stale L chg j e → isGlobal e=false) :
    Inv L chg k (s.setCpu j ((s.cpus j).loadCr3 pd)) := by
  refine ⟨fun hp v p hchg=>?_,h.answered,fun hp i e huse hst=>?_⟩
  · rw [setCpu_of_ne (Ne.symm hj)]
    exact h.caller hp v p hchg
  · by_cases hi : i=j
    · subst hi
      obtain ⟨htlb,hne⟩ := hst
      rw [setCpu_self] at htlb
      obtain ⟨htlb,hgl⟩ := CpuTlb.loadCr3_tlb htlb
      have hnot := hcl hp e ⟨htlb,hne⟩
      rw [hgl] at hnot
      cases hnot
    · rw [Uses,setCpu_of_ne hi] at huse
      rw [Stale,setCpu_of_ne hi] at hst
      have hpn := h.stale hp i e huse hst
      rw [Pending] at hpn ⊢
      rw [setCpu_of_ne hi]
      exact hpn

theorem Inv.ipi (hp : s.phase=.mapped) (hw : s.waiting j=true) :
    Inv L chg k {s.setCpu j (ipiFlushTlbHandler L (chg.pd L) chg.addr (chg.global L) (s.cpus j)) with
      waiting := update s.waiting j false} := by
  have hj : j≠k := by
    rintro rfl
    rw [h.answered hp] at hw
    cases hw
  obtain ⟨hcr3,hac⟩ := ipiFlushTlbHandler_keeps (L := L) (chg.pd L) chg.addr (chg.global L) (s.cpus j)
  refine ⟨fun _ v p hchg=>?_,fun _=>?_,fun _ i e huse hst=>?_⟩
  · change ((s.setCpu j _).cpus k).cr3=L.physKernelPd
    rw [setCpu_of_ne (Ne.symm hj)]
    exact h.caller (.inr hp) v p hchg
  · change update s.waiting j false k=false
    rw [update_of_ne (Ne.symm hj)]
    exact h.answered hp
  · by_cases hi : i=j
    · subst hi
      obtain ⟨hact,hsh⟩ := huse
      obtain ⟨htlb,hne⟩ := hst
      simp only [setCpu_self] at hact hsh htlb
      rw [hcr3] at hsh
      rw [hac] at hact
      obtain ⟨hold,hkp⟩ := ipiFlushTlbHandler_stale htlb
      rcases (h.stale (.inl hp) i e ⟨hact,hsh⟩ ⟨hold,hne⟩).2 with ⟨hk,-⟩ | ⟨-,-,hon,hdr⟩
      · exact absurd hk hj
      · obtain ⟨hv,hgl⟩ := hkp hon
        rcases hdr with hv' | hnot
        · exact absurd hv hv'
        · rw [hgl] at hnot
          cases hnot
    · rw [Uses] at huse
      rw [Stale] at hst
      simp only [setCpu_of_ne hi] at huse hst
      obtain ⟨-,hpn⟩ := h.stale (.inl hp) i e huse hst
      refine ⟨hp,?_⟩
      simp only [setCpu_of_ne hi,update_of_ne hi]
      exact hpn

theorem Inv.leave (hp : s.phase=.mapped) (hw : ∀ j, s.waiting j=false) :
    Inv L chg k {s.setCpu k (chg.leave L s.prev (s.cpus k)) with phase := .done} := by
  refine ⟨fun hph=>by simp at hph,fun hph=>by simp at hph,fun _ i e huse hst=>?_⟩
  exfalso
  obtain ⟨hact,hsh⟩ := huse
  obtain ⟨htlb,hne⟩ := hst
  simp only at hact hsh htlb hne
  by_cases hi : i=k
  · subst hi
    rw [setCpu_self] at hsh htlb
    cases chg with
    | kpMap v p =>
      have hcr3 := h.caller (.inr hp) v p rfl
      rw [PageChange.leave] at htlb
      split at htlb
      case isTrue hpr =>
        have hsm : s.prev=((s.cpus i).invlpg v).cr3 := hpr.trans hcr3.symm
        rw [CpuTlb.setCr3,if_pos hsm] at htlb
        have hnn := CpuTlb.invlpg_tlb (s.cpus i) v
        rw [PageChange.addr,hnn] at htlb
        cases htlb
      case isFalse hpr =>
        rw [CpuTlb.setCr3,if_neg (by rw [hcr3]; exact hpr)] at htlb
        have hon : SharesTable s.machine.mem L.physKernelPd v (s.cpus i).cr3 := by rw [hcr3]; rfl
        rcases (h.stale (.inl hp) i e ⟨.inr rfl,hon⟩ ⟨(CpuTlb.loadCr3_tlb htlb).1,hne⟩).2 with
          ⟨-,hinv⟩ | ⟨hk,-⟩
        · exact hpr hinv
        · exact hk rfl
    | vmreserve proc v flags =>
      rcases (h.stale (.inl hp) i e ⟨.inr rfl,hsh⟩ ⟨htlb,hne⟩).2 with ⟨-,hinv⟩ | ⟨hk,-⟩
      · exact hinv
      · exact hk rfl
  · rw [setCpu_of_ne hi] at hact hsh htlb
    rcases (h.stale (.inl hp) i e ⟨hact,hsh⟩ ⟨htlb,hne⟩).2 with ⟨hk,-⟩ | ⟨-,hwt,-⟩
    · exact hi hk
    · rw [hw i] at hwt
      cases hwt

theorem Inv.change (hp : s.phase=.entered) (hcl : Calm L chg k s .change
      {s with machine := m, phase := .mapped, waiting := fun j=>j≠k && (s.cpus j).active}) :
    Inv L chg k {s with machine := m, phase := .mapped, waiting := fun j=>j≠k && (s.cpus j).active} := by
  refine ⟨fun _ v p hchg=>h.caller (.inl hp) v p hchg,fun _=>by simp,fun _ j e huse hst=>⟨rfl,?_⟩⟩
  rcases hcl j e huse hst with hk | ⟨hj,hon,hdr⟩
  · exact .inl hk
  · have hac := huse.1.resolve_right hj
    exact .inr ⟨hj,by simpa [hj] using hac,hon,hdr⟩

theorem Inv.other (hm : ∀ d, entryAt m.mem d (getPdIndex (maskToPage chg.addr)) =
      entryAt s.machine.mem d (getPdIndex (maskToPage chg.addr)) ∧
      walk m.mem d chg.addr=walk s.machine.mem d chg.addr) : Inv L chg k {s with machine := m} := by
  refine ⟨h.caller,h.answered,fun hp j e huse hst=>?_⟩
  refine h.stale hp j e ⟨huse.1,?_⟩ ⟨hst.1,?_⟩
  · have hsh := huse.2
    rw [SharesTable,(hm _).1,(hm _).1] at hsh
    exact hsh
  · have hne := hst.2
    rw [(hm _).2] at hne
    exact hne
end

end Smp

theorem ShootStep.inv (hst : ShootStep L chg k s ev s') (hcl : Calm L chg k s ev s') (h : s.Inv L chg k) :
    s'.Inv L chg k := by
  cases hst with
  | enter hp =>
    refine ⟨fun _ v p hchg=>?_,fun hph=>by simp at hph,fun hph=>by simp at hph⟩
    subst hchg
    simp only [setCpu_self]
    exact CpuTlb.setCr3_cr3 ..
  | change hp hnd hok => exact h.change hp hcl
  | ipi hp hw => exact h.ipi hp hw
  | leave hp hw => exact h.leave hp hw
  | @fill j w hpr => exact h.fill w
  | load hj => exact h.load hj hcl
  | other hm => exact h.other hm

/-- The call on one CPU, with everything the other ones do meanwhile. -/
def ShootRun (L : Layout) (chg : PageChange) (k : K) : Smp K → Smp K → Prop :=
  Relation.ReflTransGen (fun s s'=>∃ ev, ShootStep L chg k s ev s' ∧ Calm L chg k s ev s')

theorem ShootRun.inv (hrun : ShootRun L chg k s s') (h0 : s.phase=.idle) : s'.Inv L chg k := by
  refine Reaches.invariant (I := Smp.Inv L chg k) hrun ?_ (fun _ _ h ⟨_,hs,hc⟩=>hs.inv hc h)
  exact ⟨fun hp=>by simp [h0] at hp,fun hp=>by simp [h0] at hp,fun hp=>by simp [h0] at hp⟩
end

/-- After the call no CPU that uses the table has a translation other than the new entry. -/
theorem shootdown_complete {K : Type} [DecidableEq K] {chg : PageChange} {k : K} {s s' : Smp K}
    (h0 : s.phase=.idle) (hrun : ShootRun L chg k s s') (hdone : s'.phase=.done) {j : K}
    (huse : s'.Uses L chg k j) {e : ℕ} (he : (s'.cpus j).tlb (maskToPage chg.addr)=some e) :
    e=walk s'.machine.mem (chg.pd L) chg.addr := by
  by_contra hne
  have hpn := (hrun.inv h0).stale (.inr hdone) j e huse ⟨he,hne⟩
  rw [hpn.1] at hdone
  cases hdone

section

/-- `0xD0000000` is mapped to `0xA00000`, through a table that the directory `0x900000` shares. -/
def remapMachine : Machine where
  mem := store (store (store (fun _=>0) (0x200000+4*832) 4 0x541103) (0x900000+4*832) 4 0x541103)
    0x541000 4 0xA00103
  firstFreePage := 0
  remainingPages := 0
  env := ⟨0x200000,false,false,true,true⟩
  trace := []

def remapping : PageChange := .kpMap 0xD0000000 0xB00000

/-- The caller is on the kernel's directory, the other CPU on `cr3`, both with the translation. -/
def twoCpus (cr3 : ℕ) : Smp Bool where
  machine := remapMachine
  cpus := fun j=>⟨true,if j then cr3 else 0x200000,fun v=>if v=0xD0000000 then some 0xA00103 else none⟩
  prev := 0
  phase := .idle
  waiting := fun _=>false

theorem remapMachine_map : ∃ m, remapping.map .smallImage remapMachine=.ok () m ∧
    walk m.mem 0x200000 0xD0000000=0xB00103 ∧ walk m.mem 0x900000 0xD0000000=0xB00103 ∧
    SharesTable m.mem 0x200000 0xD0000000 0x900000 := ⟨_,rfl,rfl,rfl,rfl⟩

theorem remapping_steps (cr3 : ℕ) (hm : remapping.map .smallImage remapMachine=.ok () m) :
    ∃ s1 s2 s3 s4, ShootStep .smallImage remapping false (twoCpus cr3) .enter s1 ∧
      ShootStep .smallImage remapping false s1 .change s2 ∧
      ShootStep .smallImage remapping false s2 (.ipi true) s3 ∧
      ShootStep .smallImage remapping false s3 .leave s4 ∧
      s2.prev=0x200000 ∧ (s2.cpus true).cr3=cr3 ∧ s4.machine=m ∧ s4.phase=.done ∧
      s4.cpus true=ipiFlushTlbHandler .smallImage (remapping.pd .smallImage) remapping.addr
        (remapping.global .smallImage) ((twoCpus cr3).cpus true) := by
  refine ⟨_,_,_,_,.enter rfl,.change rfl trivial hm,.ipi (j := true) rfl rfl,.leave rfl ?_,rfl,rfl,rfl,rfl,rfl⟩
  intro j
  cases j <;> rfl

/-- The other CPU is on the kernel's directory too, and has the new translation afterwards or none. -/
theorem shootdown_complete_kernel : ∃ s', ShootRun .smallImage remapping false (twoCpus 0x200000) s' ∧
    s'.phase=.done ∧ s'.Uses .smallImage remapping false true ∧
    ∀ e, (s'.cpus true).tlb (maskToPage 0xD0000000)=some e → e=0xB00103 := by
  obtain ⟨m,hm,hwl,-⟩ := remapMachine_map
  obtain ⟨s₁,s₂,s₃,s₄,h1,h2,h3,h4,hpr,hcr3,hmem,hdn,hcpu⟩ := remapping_steps 0x200000 hm
  have hcl : Calm .smallImage remapping false s₁ .change s₂ := by
    intro j e _ _
    cases j with
    | false => exact .inl ⟨rfl,hpr⟩
    | true => exact .inr ⟨by decide,hcr3,.inl (by decide)⟩
  have hrun : ShootRun .smallImage remapping false (twoCpus 0x200000) s₄ :=
    (((Relation.ReflTransGen.single ⟨_,h1,trivial⟩).tail ⟨_,h2,hcl⟩).tail ⟨_,h3,trivial⟩).tail ⟨_,h4,trivial⟩
  have huse : s₄.Uses .smallImage remapping false true := by
    constructor
    · rw [hcpu]
      exact .inl rfl
    · rw [hcpu]
      rfl
  refine ⟨s₄,hrun,hdn,huse,fun e he=>?_⟩
  have hnew := shootdown_complete .smallImage rfl hrun hdn huse he
  rw [hmem] at hnew
  exact hnew.trans hwl

/-- The handler reloads `CR3` on another directory, which keeps the global translation. -/
theorem shootdown_keeps_global : ∃ s', Relation.ReflTransGen
      (fun s s'=>∃ ev, ShootStep .smallImage remapping false s ev s') (twoCpus 0x900000) s' ∧
    s'.phase=.done ∧ s'.Uses .smallImage remapping false true ∧
    (s'.cpus true).tlb (maskToPage 0xD0000000)=some 0xA00103 ∧
    walk s'.machine.mem (s'.cpus true).cr3 0xD0000000=0xB00103 := by
  obtain ⟨m,hm,-,hw,hs⟩ := remapMachine_map
  obtain ⟨s₁,s₂,s₃,s₄,h1,h2,h3,h4,-,-,hmem,hd,hcpu⟩ := remapping_steps 0x900000 hm
  refine ⟨s₄,(((Relation.ReflTransGen.single ⟨_,h1⟩).tail ⟨_,h2⟩).tail ⟨_,h3⟩).tail ⟨_,h4⟩,hd,⟨?_,?_⟩,?_,?_⟩
  · rw [hcpu]
    exact .inl rfl
  · rw [hcpu,hmem]
    exact hs
  · rw [hcpu]
    rfl
  · rw [hcpu,hmem]
    exact hw
end

end Yaos2.Memory
