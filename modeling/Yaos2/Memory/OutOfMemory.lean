import Yaos2.Memory.HeapInvariant
import Yaos2.Memory.Process

/-! # Running out of frames

`palloc` answers with the null address when there is no frame left, and not every caller looks. -/
namespace Yaos2.Memory
open Foundation

/-- The heap with its clients, the user directories, and the frames the kernel has taken. -/
structure MemSystem where
  heap : HeapState
  allocs : List Allocation
  dirs : List ℕ
  held : List ℕ

namespace MemSystem

def machine (c : MemSystem) : Machine := c.heap.machine
def clients (c : MemSystem) : HeapClients := ⟨c.heap,c.allocs⟩
def spaces (c : MemSystem) : Spaces := ⟨c.machine,c.dirs,c.held⟩
end MemSystem

/-- The requests that take frames. -/
inductive Request where
  | kalloc (alignment size : ℕ)
  | vmreserve (proc : Proc) (v flags : ℕ)
  | brk (proc : Proc) (v : ℕ)
  | sbrk (proc : Proc) (diff : Int)
  | map (pd v p flags : ℕ)
  | dup (dst src : ℕ)

variable (L : Layout)

namespace Request

def run : Request → HeapM Unit
  | .kalloc alignment size => do let _ ← Memory.kalloc L .normal alignment size
  | .vmreserve proc v flags => onMachine (do let _ ← procVmreserve L proc v flags)
  | .brk proc v => onMachine (do let _ ← procBrk L proc v)
  | .sbrk proc diff => onMachine (do let _ ← procSbrk L proc diff)
  | .map pd v p flags => onMachine (pagingMap L pd v p flags)
  | .dup dst src => onMachine (vmdup L dst src)

/-- Sizes and addresses are 32-bit numbers, directories are in use, and pages have been taken. -/
def Valid (c : MemSystem) : Request → Prop
  | .kalloc alignment size => 1≤alignment ∧ alignment≤pageSize ∧ (newBlock c.heap alignment size).stop<2^32
  | .vmreserve proc v _ => proc.pd ∈ c.dirs ∧ v<2^32
  | .brk proc _ => proc.pd ∈ c.dirs ∧ proc.curVbreak<2^32
  | .sbrk proc _ => proc.pd ∈ c.dirs ∧ proc.curVbreak<2^32
  | .map pd v p flags => pd ∈ c.dirs ∧ p ∈ c.held ∧ v<2^32 ∧ flags<pageSize
  | .dup dst src => dst ∈ c.dirs ∧ src ∈ c.dirs ∧ src≠dst

def proc : Request → Option Proc
  | .vmreserve proc _ _ => some proc
  | .brk proc _ => some proc
  | .sbrk proc _ => some proc
  | _ => none

/-- There are frames for the request, or it fails before it maps a page. -/
def Affordable (c : MemSystem) : Request → Prop
  | .kalloc alignment size => MayAllocate L c.heap → (newBlock c.heap alignment size).stop≤kmDevVirtBase →
      growthPages c.heap ((newBlock c.heap alignment size).stop-c.heap.heap)≤c.machine.remainingPages
  | .vmreserve proc v _ => ReserveClean c.machine proc.pd (maskToPage v)
  | .brk proc v => BrkClean L proc v c.machine
  | .sbrk proc diff => BrkClean L proc (proc.moved diff) c.machine
  | .map _ _ _ _ => True
  | .dup _ src => dupCost c.machine.mem src≤c.machine.remainingPages
end Request

/-- A call of the heap, an operation on address spaces, or a request for user memory. -/
inductive MemStep : MemSystem → MemSystem → Prop
  | heap {c : MemSystem} {h : HeapState} {allocs : List Allocation} :
      HeapStep L c.clients ⟨h,allocs⟩ → MemStep c {c with heap := h, allocs := allocs}
  | space {c : MemSystem} {op : SpaceOp} {m : Machine} {dirs held : List ℕ} :
      (∀ v p, op≠.kpMap v p) → SpaceStep L c.spaces op ⟨m,dirs,held⟩ →
      MemStep c {c with heap := {c.heap with machine := m}, dirs := dirs, held := held}
  | process {c : MemSystem} {r : Request} {proc : Proc} {h : HeapState} : r.proc=some proc →
      r.Valid c → r.Affordable L c → r.run L c.heap=.ok () h → MemStep c {c with heap := h}

def MemRun : MemSystem → MemSystem → Prop := Relation.ReflTransGen (MemStep L)

structure MemStart (c : MemSystem) : Prop where
  heap : HeapStart L c.clients
  dirs : c.dirs=[]
  held : c.held=[]

structure MemInv (c : MemSystem) (bs : List Block) (fl : List ℕ) (role : ℕ → Role) : Prop where
  heap : HeapInv L c.heap c.allocs bs
  spaces : SpacesInv L c.spaces fl role

variable {L} {c d : MemSystem} {bs : List Block} {fl : List ℕ} {role : ℕ → Role} {r : Request}
  {proc : Proc}

theorem Request.process_spec (h : MemInv L c bs fl role) (hr : r.proc=some proc) (hv : r.Valid c) :
    Ensures (r.run L) c.heap
      (fun _ t=>∃ m, t = {c.heap with machine := m} ∧ proc.pd ∈ c.dirs ∧
        Served L c.dirs proc.pd c.machine role m ∧ CleanIff (r.Affordable L c) c.machine m)
      (fun t=>CleanIff (r.Affordable L c) c.machine t.machine) := by
  have ho := h.spaces.owned
  cases r with
  | vmreserve q v flags =>
    obtain rfl := Option.some.inj hr
    simp only [Request.run,wp_onMachine,wp_bind,wp_pure]
    apply (procVmreserve_spec ho hv.1 hv.2).imp
    exact fun _ m hm=>⟨m,rfl,hv.1,hm.2⟩
  | brk q v =>
    obtain rfl := Option.some.inj hr
    simp only [Request.run,wp_onMachine,wp_bind,wp_pure]
    apply (procBrk_spec ho hv.1 hv.2).imp
    exact fun _ m hm=>⟨m,rfl,hv.1,hm.2⟩
  | sbrk q diff =>
    obtain rfl := Option.some.inj hr
    simp only [Request.run,wp_onMachine,wp_bind,wp_pure]
    apply (procSbrk_spec ho hv.1 hv.2).imp
    exact fun _ m hm=>⟨m,rfl,hv.1,hm.2⟩
  | kalloc _ _ => cases hr
  | map _ _ _ _ => cases hr
  | dup _ _ => cases hr

theorem Request.cleanIff (h : MemInv L c bs fl role) (hv : r.Valid c) :
    CleanIff (r.Affordable L c) c.machine (finalState (r.run L) c.heap).machine := by
  have ho := h.spaces.owned
  have hrem : c.machine.remainingPages=fl.length := ho.list.remaining
  apply Ensures.finalState (P := fun t : HeapState=>CleanIff (r.Affordable L c) c.machine t.machine)
  cases hp : r.proc with
  | some proc =>
    apply (process_spec h hp hv).imp
    rintro - _ ⟨m,rfl,-,-,hc⟩
    exact hc
  | none =>
    cases r with
    | kalloc alignment size =>
      simp only [Request.run,wp_bind,wp_pure]
      refine (kalloc_spec h.heap.base h.heap.blocks ho hv.2.1 hv.2.2).mono ?_ ?_
      · rintro - t ⟨hend,hmay,-,role',hA⟩
        obtain ⟨u,hu,hg⟩ := hA.machine
        rw [hu]
        rcases hg.trace with ⟨hle,hc⟩ | ⟨hlt,hc⟩
        · exact .inl ⟨fun _ _=>hrem▸hle,hc⟩
        · refine .inr ⟨fun hall=>?_,hc⟩
          have hle := hall (hmay (by omega)) hend
          omega
      · rintro t ⟨hno,rfl⟩
        refine .inl ⟨fun hmay hle=>?_,.of_eq rfl⟩
        rcases hno with hno | hlt
        · exact absurd hmay hno
        · exact absurd hlt (not_lt.mpr hle)
    | map pd v p flags =>
      obtain ⟨hpd,hpin,hv,hfl⟩ := hv
      obtain ⟨hf,hrl⟩ := h.spaces.kept p hpin
      simp only [Request.run,wp_onMachine]
      refine (pagingMap_spec (ho.takeKept hrl) hpd hv hfl (.inr ⟨hf,Function.update_self ..⟩)).mono ?_ ?_
      · rintro - m ⟨-,-,-,role',-,-,-,-,hcl,-⟩
        exact .inl ⟨trivial,hcl hf.ne_zero⟩
      · exact fun m hm=>.inl ⟨trivial,hm.1⟩
    | dup dst src =>
      simp only [Request.run,wp_onMachine]
      have hrn : ∀ m, RanOut c.machine fl (dupCost c.machine.mem src) m →
          CleanIff (dupCost c.machine.mem src≤c.machine.remainingPages) c.machine m :=
        fun m hm=>.inr ⟨by rw [hrem]; exact not_le.mpr hm.2,hm.1⟩
      refine (vmdup_spec ho hv.2.1 hv.1 hv.2.2).mono ?_ hrn
      rintro - m (⟨fl',role',hcp,-⟩ | hout)
      · have hcn : fl'.length+dupCost c.machine.mem src=fl.length := hcp.count
        refine .inl ⟨?_,hcp.clean⟩
        change dupCost c.machine.mem src≤c.machine.remainingPages
        omega
      · exact hrn m hout
    | vmreserve _ _ _ => cases hp
    | brk _ _ => cases hp
    | sbrk _ _ => cases hp

theorem MemStep.inv (hst : MemStep L c d) (h : MemInv L c bs fl role) :
    (∃ bs' fl' role', MemInv L d bs' fl' role') ∧ Clean c.machine d.machine := by
  have ho := h.spaces.owned
  cases hst with
  | @heap t allocs hst =>
    obtain ⟨⟨bs',hinv⟩,fl',role',ho',hkp,hcl⟩ := hst.inv h.heap ho
    refine ⟨⟨bs',fl',role',hinv,ho',fun p hp=>?_,h.spaces.nodup⟩,hcl⟩
    obtain ⟨hf,hr⟩ := h.spaces.kept p hp
    exact ⟨hf,(hkp p (by rw [hr]; simp [Role.owner])).trans hr⟩
  | @space op m dirs held hop hst =>
    obtain ⟨fl',role',hinv,-⟩ := hst.spec h.spaces
    exact ⟨⟨bs,fl',role',h.heap.machine (fun v hv=>hst.walk_kernel h.spaces hop hv),hinv⟩,
      hst.clean h.spaces hop⟩
  | @process r proc t hr hv haff hok =>
    obtain ⟨m,rfl,hpd,⟨fl',role',ho',he⟩,hc⟩ := (Request.process_spec h hr hv).of_ok hok
    refine ⟨⟨bs,fl',role',h.heap.machine (fun v hv=>?_),ho',?_,h.spaces.nodup⟩,hc.iff.mpr haff⟩
    · exact ho.kernel.walk_of_effect he hv
    · exact he.kept (ho.dir_ne_null hpd) h.spaces.kept

theorem MemStart.inv (h : MemStart L a) : ∃ fl role, MemInv L a [] fl role := by
  obtain ⟨fl,hinv⟩ := h.heap.machine.inv
  have hs : a.spaces=⟨a.heap.machine,[],[]⟩ := by
    rw [MemSystem.spaces,h.dirs,h.held]
    rfl
  exact ⟨fl,_,h.heap.inv.1,hs▸hinv⟩

theorem MemRun.inv (hrun : MemRun L a c) (h0 : MemStart L a) :
    (∃ bs fl role, MemInv L c bs fl role) ∧ Clean a.machine c.machine := by
  obtain ⟨fl,role,hinv⟩ := h0.inv
  refine Reaches.invariant (I := fun c=>(∃ bs fl role, MemInv L c bs fl role) ∧
    Clean a.machine c.machine) hrun ⟨⟨[],fl,role,hinv⟩,.of_eq rfl⟩ ?_
  rintro c d ⟨⟨bs,fl,role,hc⟩,hcl⟩ hs
  obtain ⟨hd,hcl'⟩ := hs.inv hc
  exact ⟨hd,hcl.trans hcl'⟩

section

/-- The system after boot, in a kernel with checks on one CPU. -/
def bootSystem (L : Layout) (m : Machine) : MemSystem :=
  ⟨initKernelHeap L.dynamicRegion (freshHeap m),[],[],[]⟩

theorem bootSystem_start (h : SpacesStart L ⟨m,[],[]⟩) : MemStart L (bootSystem L m) :=
  ⟨⟨h,⟨freshHeap m,rfl,rfl⟩,rfl⟩,rfl,rfl⟩

theorem bootSystem_mayAllocate (h : SpacesStart L ⟨m,[],[]⟩)
    (hkp : m.env.kpLockHeld=false) : MayAllocate L (bootSystem L m).heap :=
  ⟨.inl rfl,h.kernelTables,h.unlocked,hkp⟩

theorem bootSystem_block (m : Machine) :
    newBlock (bootSystem .smallImage m).heap 16 100=⟨0xC0800000,4,100,false⟩ ∧
      growthPages (bootSystem .smallImage m).heap
        ((newBlock (bootSystem .smallImage m).heap 16 100).stop-(bootSystem .smallImage m).heap.heap)=1 := by
  have hhp : (bootSystem .smallImage m).heap.heap=0xC0800000 := rfl
  have hcur : (bootSystem .smallImage m).heap.curSize=0 := rfl
  have hs : (bootSystem .smallImage m).heap.heapSize=0 := rfl
  have hb : newBlock (bootSystem .smallImage m).heap 16 100=⟨0xC0800000,4,100,false⟩ := by
    rw [newBlock,hhp,hcur]
    rfl
  refine ⟨hb,?_⟩
  rw [hb,growthPages,hhp,hs]
  decide

theorem bootSystem_valid (m : Machine) : (Request.kalloc 16 100).Valid (bootSystem .smallImage m) := by
  refine ⟨by decide,by decide,?_⟩
  rw [(bootSystem_block m).1]
  decide

end

end Yaos2.Memory
