import Yaos2.Memory.HeapInvariant

/-! # The end of the heap's region -/
namespace Yaos2.Memory
open Foundation

/-- A `kalloc` whose end is a 32-bit address, a `kfree`, or a write of a client to its areas. -/
inductive BoundedStep (L : Layout) : HeapClients → HeapClients → Prop
  | kalloc {s t : HeapState} {live : List Allocation} {alignment size v : ℕ} : 1≤alignment →
      (wordBlock s alignment size).stop<2^32 →
      growthPages s ((wordBlock s alignment size).stop-s.heap) ≤ s.machine.remainingPages →
      kalloc L .normal alignment size s=.ok v t →
      BoundedStep L ⟨s,live⟩ ⟨t,⟨v,1,size⟩::live⟩
  | kfree {s t : HeapState} {live : List Allocation} {al : Allocation} : al ∈ live →
      kfree L al.addr s=.ok () t → BoundedStep L ⟨s,live⟩ ⟨t,live.erase al⟩
  | write {s : HeapState} {live : List Allocation} {m : Mem} :
      (∀ x, m x≠s.vmem x → ∃ al ∈ live, al.Owns x) →
      BoundedStep L ⟨s,live⟩ ⟨{s with vmem := m},live⟩

def BoundedRun (L : Layout) : HeapClients → HeapClients → Prop := Relation.ReflTransGen (BoundedStep L)

/-- The block is after the used part, in the region and apart from what the clients hold. -/
structure Fits (c : HeapClients) (v size : ℕ) : Prop where
  start : c.heap.heap+c.heap.curSize+sizeofHeapAlloc≤v
  stop : v+size≤c.heap.region.vbase+c.heap.region.size
  apart : ∀ al ∈ c.live, ∀ x, al.Owns x → ¬ (v-sizeofHeapAlloc≤x ∧ x<v+size)

variable {L : Layout} {s t : HeapState} {a c d : HeapClients} {live : List Allocation} {bs : List Block}
  {fl dirs : List ℕ} {role : ℕ → Role} {mode : HeapMode} {alignment size n v : ℕ}

theorem BoundedStep.inv (hst : BoundedStep L c d) (h : HeapInv L c.heap c.live bs)
    (ho : Owned L c.heap.machine fl dirs role) :
    (∃ bs', HeapInv L d.heap d.live bs') ∧ ∃ fl' role', Owned L d.heap.machine fl' dirs role' := by
  cases hst with
  | @kalloc s t live alignment size v ha hend hpg hok =>
    obtain ⟨-,-,rfl,role',hA⟩ := (kalloc_word_spec h.base h.blocks ho hend).of_ok hok
    obtain ⟨u,hu,hg⟩ := hA.machine
    exact ⟨⟨_,h.append hA rfl rfl (Nat.one_dvd _)⟩,_,role',hu▸hg.owned⟩
  | @kfree s t live al hal hok =>
    obtain ⟨hm,-,-,bs',hinv⟩ := (h.kfree hal).of_ok hok
    exact ⟨⟨bs',hinv⟩,fl,role,hm▸ho⟩
  | @write s live m hm => exact ⟨⟨bs,h.write hm⟩,fl,role,ho⟩

theorem BoundedRun.inv (hrun : BoundedRun L a c) (h0 : HeapStart L a) :
    (∃ bs, HeapInv L c.heap c.live bs) ∧ ∃ fl role, Owned L c.heap.machine fl [] role := by
  refine Reaches.invariant (I := fun c=>(∃ bs, HeapInv L c.heap c.live bs) ∧
    ∃ fl role, Owned L c.heap.machine fl [] role) hrun ⟨⟨[],h0.inv.1⟩,h0.inv.2⟩ ?_
  rintro c d ⟨⟨bs,hinv⟩,fl,role,ho⟩ hs
  exact hs.inv hinv ho

theorem kalloc_continuous (s : HeapState) :
    Ensures (kalloc L .continuous alignment size) s (fun _ _=>False) (fun t=>t=s) := by
  simp only [kalloc,checkCaller,wp_bind,wp_get,wp_panicIf_iff]
  exact ⟨fun _=>trivial,fun _=>⟨fun _=>trivial,fun hc=>absurd trivial hc⟩⟩

theorem HeapInv.owns_lt (h : HeapInv L s live bs) (hal : al ∈ live)
    (hx : al.Owns x) : x<s.heap+s.curSize := by
  obtain ⟨b,hb,-,hu,hsz⟩ := h.block al hal
  have hbb := h.blocks.bounds hb
  have hbd := b.bounds
  simp only [Allocation.Owns] at hx
  omega

theorem exists_boundedRun : ∃ (a : HeapClients) (t : HeapState), HeapStart .smallImage a ∧
    BoundedRun .smallImage a ⟨t,[⟨0xC0800020,1,100⟩]⟩ ∧ MayAllocate .smallImage t ∧ t.debug=false ∧
    t.heap=0xC0800000 ∧ t.curSize=132 := by
  obtain ⟨s,t,h0,-,hb,hp,hok,hr⟩ := exists_firstAllocation false
  have hw : wordBlock s 16 100=newBlock s 16 100 := wordBlock_eq_newBlock h0.inv.1.base (by decide)
  refine ⟨⟨s,[]⟩,t,h0,.single (.kalloc (by decide) ?_ ?_ hok),hr⟩
  · rw [hw,hb]
    decide
  · rw [hw]
    exact hp

theorem kalloc_wrapped (h : HeapBase L s) (hbs : BlocksAt s.vmem s.heap (s.heap+s.curSize) s.first s.last bs)
    (hmay : MayAllocate L s) (hdb : s.debug=false)
    (hle : (s.curSize+sizeofHeapAlloc+size)%2^32 ≤ s.heapSize)
    (hacc : ∀ {o k : ℕ}, 0<k → o+k≤28 → s.accessible L (s.heap+s.curSize+o) k=true) :
    Returns (kalloc L .normal 1 size) s (fun v t=>v=s.heap+s.curSize+sizeofHeapAlloc ∧
      t.curSize=(s.curSize+sizeofHeapAlloc+size)%2^32) := by
  have hsz := h.size
  have hbn := h.bound
  have hls : s.last≠0 → s.accessible L (s.last+nextOff) 4=true := by
    intro hl
    obtain ⟨-,-,hl'⟩ | ⟨l,d,rfl,hd,-⟩ := hbs.cases
    · exact absurd hl' hl
    · rw [hd]
      exact h.accessible_header hbs (by simp) (by decide) (by decide)
  have hv : (s.heap+s.curSize+sizeofHeapAlloc)%2^32=s.heap+s.curSize+sizeofHeapAlloc := by
    simp only [sizeofHeapAlloc]
    omega
  have hal : (s.heap+s.curSize+sizeofHeapAlloc+2^32-sizeofHeapAlloc)%2^32=s.heap+s.curSize := by
    simp only [sizeofHeapAlloc]
    omega
  have hdbg : ∀ {t : HeapState} {Q : Unit → HeapState → Prop}, t.debug=false → Q () t →
      Ensures (checkIfDebug L) t Q (fun _=>False) := by
    intro t Q ht hQ
    simp only [checkIfDebug,wp_bind,wp_get,ht]
    exact (wp_pure ..).mpr hQ
  simp only [kalloc,Returns,wp_bind]
  refine (checkCaller_spec h.initialized).mono ?_ (fun _ hE=>hE.1 hmay)
  rintro - s' ⟨-,-,hs'⟩
  rw [hs']
  apply hdbg hdb
  simp only [wp_get,Nat.mod_one,Nat.sub_self,Nat.add_zero,hv,hal]
  simp only [growIfNeeded,wp_bind,wp_get]
  refine Ensures.ite (fun hlt=>absurd hlt (not_lt.mpr hle)) (fun _=>(wp_pure ..).mpr ?_)
  apply (buildPlace_spec hacc hls).mpr
  rw [wp_modify]
  refine hdbg hdb ?_
  rw [wp_pure]
  refine ⟨rfl,?_⟩
  change (s.curSize+(0+sizeofHeapAlloc+size))%2^32=_
  rw [Nat.zero_add,Nat.add_assoc]

theorem HeapBase.accessible_page (h : HeapBase L s) (hv : s.heap≤v) (hn : 0<n)
    (hpg : maskToPage v<s.heap+s.heapSize) (hle : v%pageSize+n≤pageSize) :
    s.accessible L v n=true := by
  have hhp := h.heap
  have hb := h.bound
  have hv' := mask_add_mod v
  have hmod := maskToPage_mod v
  have hin : ∀ w, v≤w → w<v+n → s.region.containsV w=true ∧
      isPresent (walk s.machine.mem L.physKernelPd w)=true := by
    intro w hw hw'
    have hw1 := mask_add_mod w
    have hw2 := maskToPage_mod w
    have hsm : maskToPage w=maskToPage v := by
      simp only [pageSize] at hle hv' hmod hw1 hw2
      omega
    refine ⟨?_,h.mapped w (by omega) (by rw [hsm]; exact hpg)⟩
    rw [h.region]
    refine Layout.dynamicRegion_containsV.mpr ⟨by omega,?_⟩
    simp only [pageSize] at *
    omega
  obtain ⟨h1,h2⟩ := hin v le_rfl (by omega)
  obtain ⟨h3,h4⟩ := hin (v+n-1) (by omega) (by omega)
  simp [HeapState.accessible,h1,h2,h3,h4]

end Yaos2.Memory
