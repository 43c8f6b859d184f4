import Yaos2.Memory.HeapCalls
import Yaos2.Memory.Isolation

/-! # The kernel heap over whole runs -/
namespace Yaos2.Memory
open Foundation List

/-- An address returned by `kalloc` and not freed since, with what was asked for. -/
structure Allocation where
  addr : ℕ
  alignment : ℕ
  size : ℕ
  deriving DecidableEq

structure HeapClients where
  heap : HeapState
  live : List Allocation

/-- `x` lies in the area handed out. -/
def Allocation.Owns (al : Allocation) (x : ℕ) : Prop := al.addr≤x ∧ x<al.addr+al.size

/-- A call whose end stays in the region, with enough frames; or a write of a client to its areas.
-/
inductive HeapStep (L : Layout) : HeapClients → HeapClients → Prop
  | kalloc {s t : HeapState} {live : List Allocation} {alignment size v : ℕ} : 1≤alignment →
      alignment≤pageSize →
      (newBlock s alignment size).stop ≤ s.region.vbase+s.region.size →
      growthPages s ((newBlock s alignment size).stop-s.heap) ≤ s.machine.remainingPages →
      kalloc L .normal alignment size s=.ok v t →
      HeapStep L ⟨s,live⟩ ⟨t,⟨v,alignment,size⟩::live⟩
  | kfree {s t : HeapState} {live : List Allocation} {al : Allocation} : al ∈ live →
      kfree L al.addr s=.ok () t → HeapStep L ⟨s,live⟩ ⟨t,live.erase al⟩
  | write {s : HeapState} {live : List Allocation} {m : Mem} :
      (∀ x, m x≠s.vmem x → ∃ al ∈ live, al.Owns x) →
      HeapStep L ⟨s,live⟩ ⟨{s with vmem := m},live⟩

/-- The heap as `init_kernel_heap` leaves it. -/
structure HeapStart (L : Layout) (c : HeapClients) : Prop where
  machine : SpacesStart L ⟨c.heap.machine,[],[]⟩
  init : ∃ s, s.curSize=0 ∧ c.heap=initKernelHeap L.dynamicRegion s
  live : c.live=[]

def HeapRun (L : Layout) : HeapClients → HeapClients → Prop := Relation.ReflTransGen (HeapStep L)

structure HeapInv (L : Layout) (s : HeapState) (live : List Allocation) (bs : List Block) : Prop where
  base : HeapBase L s
  blocks : BlocksAt s.vmem s.heap (s.heap+s.curSize) s.first s.last bs
  lastUsed : ∀ d, bs.getLast? = some d → d.free=false
  aligned : ∀ al ∈ live, al.alignment ∣ al.addr
  block : ∀ al ∈ live, ∃ b ∈ bs, b.free=false ∧ b.user=al.addr ∧ b.size=al.size
  nodup : (live.map Allocation.addr).Nodup

variable {L : Layout} {s t : HeapState} {live : List Allocation} {al : Allocation} {b c : Block}
  {bs : List Block} {fl dirs : List ℕ} {role role' : ℕ → Role} {alignment size : ℕ}

namespace HeapInv

section
variable (h : HeapInv L s live bs)
include h
theorem append (hA : Allocated L dirs s fl role bs b t role')
    (hst : b.start=s.heap+s.curSize) (hfr : b.free=false) (hdvd : alignment ∣ b.user) :
    HeapInv L t (⟨b.user,alignment,b.size⟩::live) (bs++[b]) := by
  refine ⟨hA.base,hA.blocks,fun d hd=>?_,fun al hal=>?_,fun al hal=>?_,?_⟩
  · rw [List.getLast?_concat] at hd
    obtain rfl := Option.some.inj hd
    exact hfr
  · rcases mem_cons.mp hal with rfl | hal
    · exact hdvd
    · exact h.aligned al hal
  · rcases mem_cons.mp hal with rfl | hal
    · exact ⟨b,by simp,hfr,rfl,rfl⟩
    · obtain ⟨c,hc,hrs⟩ := h.block al hal
      exact ⟨c,by simp [hc],hrs⟩
  · rw [map_cons]
    refine nodup_cons.mpr ⟨fun hin=>?_,h.nodup⟩
    -- another live allocation ends before the new block starts
    obtain ⟨al,hal,had⟩ := mem_map.mp hin
    obtain ⟨c,hc,-,hu,-⟩ := h.block al hal
    have hcb := h.blocks.bounds hc
    have hcd := c.bounds
    have hbd := b.bounds
    dsimp only at had
    omega

theorem kalloc (ha : 1≤alignment) (hA : Allocated L dirs s fl role bs (newBlock s alignment size) t role') :
    HeapInv L t (⟨(newBlock s alignment size).user,alignment,size⟩::live)
      (bs++[newBlock s alignment size]) := by
  have hdvd := (alignOffset_spec (s.heap+s.curSize+sizeofHeapAlloc) ha).1
  rw [Nat.add_right_comm] at hdvd
  exact h.append hA rfl rfl hdvd

theorem kfree (hal : al ∈ live) : Ensures (kfree L al.addr) s
      (fun _ t=>t.machine=s.machine ∧ t.eflagsIf=s.eflagsIf ∧ t.nofActiveCpus=s.nofActiveCpus ∧
        ∃ bs', HeapInv L t (live.erase al) bs')
      (fun t=>al.addr=0xFE000000 ∧ t=s) := by
  obtain ⟨b,hb,-,hu,-⟩ := h.block al hal
  rw [← hu]
  apply (kfree_spec h.base h.blocks h.lastUsed hb).imp
  rintro - _ ⟨m,cur,first,last,rfl,hbs,hbl⟩
  have hnd := h.nodup.of_map _
  refine ⟨rfl,rfl,rfl,_,hbs,hbl,fun d hd=>?_,fun a ha=>h.aligned a (mem_of_mem_erase ha),fun a ha=>?_,
    h.nodup.sublist (erase_sublist.map _)⟩
  · have hne := ne_nil_of_mem (mem_of_getLast? hd)
    have hls := rdropWhile_last_not _ _ hne
    rw [List.getLast?_eq_some_getLast hne] at hd
    rw [Option.some.inj hd] at hls
    exact Bool.eq_false_of_not_eq_true hls
  · obtain ⟨hne,ha⟩ := hnd.mem_erase_iff.mp ha
    obtain ⟨c,hc,hf,hcu,hsz⟩ := h.block a ha
    have hcb : c≠b := fun he=>hne (inj_on_of_nodup_map h.nodup ha hal (by rw [← hcu,← hu,he]))
    refine ⟨c,mem_rdropWhile (mem_map.mpr ⟨c,hc,markFree_of_ne hcb⟩) hf,hf,hcu,hsz⟩

theorem header_apart (hal : al ∈ live) (hb : b ∈ bs) :
    al.addr+al.size≤b.addr ∨ b.addr+sizeofHeapAlloc≤al.addr := by
  obtain ⟨c,hc,-,hu,hsz⟩ := h.block al hal
  have hbb := b.bounds
  have hcb := c.bounds
  simp only [sizeofHeapAlloc]
  by_cases he : b=c
  · rw [he]
    omega
  · have hap := h.blocks.tiles.apart hb hc he
    omega

theorem write (hm : ∀ x, m x≠s.vmem x → ∃ al ∈ live, al.Owns x) : HeapInv L {s with vmem := m} live bs := by
  refine ⟨h.base.congr rfl rfl rfl rfl h.base.size rfl,h.blocks.congr (fun b hb x hx hx'=>?_),
    h.lastUsed,h.aligned,h.block,h.nodup⟩
  by_contra hne
  obtain ⟨al,hal,ho⟩ := hm x hne
  have hap := h.header_apart hal hb
  simp only [Allocation.Owns] at ho
  omega

theorem machine (hm : ∀ v<2^32, walk m.mem L.physKernelPd v=walk s.machine.mem L.physKernelPd v) :
    HeapInv L {s with machine := m} live bs := by
  refine ⟨⟨h.base.initialized,h.base.region,h.base.heap,h.base.size,h.base.bound,fun v hv hv'=>?_⟩,
    h.blocks,h.lastUsed,h.aligned,h.block,h.nodup⟩
  change maskToPage v<s.heap+s.heapSize at hv'
  have hb := h.base.bound
  have hlt := lt_maskToPage_add v
  rw [hm v (by simp only [pageSize] at *; omega)]
  exact h.base.mapped v hv hv'

theorem disjoint : live.Pairwise (fun a a'=>∀ x, ¬ (a.Owns x ∧ a'.Owns x)) := by
  refine (pairwise_map.mp h.nodup).imp_of_mem (fun {a a'} ha ha' hne x hx=>?_)
  obtain ⟨b,hb,-,hu,hsz⟩ := h.block a ha
  obtain ⟨b',hb',-,hu',hsz'⟩ := h.block a' ha'
  have hbb : b≠b' := fun he=>hne (by rw [← hu,← hu',he])
  have hap := h.blocks.tiles.apart hb hb' hbb
  have hbd := b.bounds
  have hbd' := b'.bounds
  simp only [Allocation.Owns] at hx
  omega
end

end HeapInv

section
variable {a c c' : HeapClients}

theorem HeapStart.inv (h : HeapStart L a) :
    HeapInv L a.heap a.live [] ∧ ∃ fl role, Owned L a.heap.machine fl [] role := by
  obtain ⟨s,hcur,hs⟩ := h.init
  have hb := L.order
  have hm : ∀ v, L.memBreak≤v → ¬ maskToPage v<L.memBreak+0 := by
    intro v hv hv'
    have hal := L.break_aligned
    have hlt := lt_maskToPage_add v
    have hmod := maskToPage_mod v
    simp only [pageSize] at *
    omega
  refine ⟨⟨⟨?_,?_,?_,?_,?_,?_⟩,⟨?_,by simp,trivial,?_,?_⟩,by simp,?_,?_,?_⟩,?_⟩
  · rw [hs,initKernelHeap]
  · rw [hs,initKernelHeap]
  · rw [hs,initKernelHeap]
    rfl
  · rw [hs,initKernelHeap,hcur]
  · rw [hs,initKernelHeap]
    change L.memBreak+0≤0xFE000000
    omega
  · rw [hs,initKernelHeap]
    exact fun v hv hv'=>absurd hv' (hm v hv)
  · rw [hs,initKernelHeap,hcur]
    rfl
  · rw [hs,initKernelHeap]
    rfl
  · rw [hs,initKernelHeap]
    rfl
  · simp [h.live]
  · simp [h.live]
  · simp [h.live]
  · obtain ⟨fl,hinv⟩ := h.machine.inv
    exact ⟨fl,_,hinv.owned⟩

theorem HeapStep.inv (hst : HeapStep L c c') (h : HeapInv L c.heap c.live bs)
    (ho : Owned L c.heap.machine fl dirs role) : (∃ bs', HeapInv L c'.heap c'.live bs') ∧
      ∃ fl' role', Owned L c'.heap.machine fl' dirs role' ∧
        (∀ p, (role p).owner≠none → role' p=role p) ∧ Clean c.heap.machine c'.heap.machine := by
  cases hst with
  | @kalloc s t live alignment size v ha ha' hend hpg hok =>
    rw [h.base.region_end] at hend
    obtain ⟨-,-,rfl,role',hA⟩ := (kalloc_spec h.base h.blocks ho ha' (hend.trans_lt (by decide))).of_ok hok
    obtain ⟨u,hu,hg⟩ := hA.machine
    have hcl : Clean s.machine u.machine := by
      refine hg.trace.elim (fun hc=>hc.2) (fun hc=>absurd hc.1 (not_lt.mpr ?_))
      have hrem := ho.list.remaining
      exact hrem▸hpg
    exact ⟨⟨_,h.kalloc ha hA⟩,_,role',by rw [hu]; exact hg.owned,hg.keep,by rw [hu]; exact hcl⟩
  | @kfree s t live al hal hok =>
    obtain ⟨hm,-,-,bs',hinv⟩ := (h.kfree hal).of_ok hok
    refine ⟨⟨bs',hinv⟩,fl,role,?_⟩
    rw [hm]
    exact ⟨ho,fun _ _=>rfl,.of_eq rfl⟩
  | @write s live m hm => exact ⟨⟨bs,h.write hm⟩,fl,role,ho,fun _ _=>rfl,.of_eq rfl⟩

theorem HeapRun.inv (hrun : HeapRun L a c) (h0 : HeapStart L a) :
    (∃ bs, HeapInv L c.heap c.live bs) ∧ ∃ fl role, Owned L c.heap.machine fl [] role := by
  refine Reaches.invariant (I := fun c=>(∃ bs, HeapInv L c.heap c.live bs) ∧
    ∃ fl role, Owned L c.heap.machine fl [] role) hrun ⟨⟨[],h0.inv.1⟩,h0.inv.2⟩ ?_
  rintro c d ⟨⟨bs,hinv⟩,fl,role,ho⟩ hs
  obtain ⟨hinv',fl',role',ho',-⟩ := hs.inv hinv ho
  exact ⟨hinv',fl',role',ho'⟩

/-- The heap is in order: `bs` are its blocks from the first to the last. -/
structure HeapSound (L : Layout) (c : HeapClients) (bs : List Block) : Prop where
  next : Chain (hdrNext c.heap.vmem) c.heap.first (bs.map Block.addr)
  prev : Chain (hdrPrev c.heap.vmem) c.heap.last (bs.map Block.addr).reverse
  header : ∀ b ∈ bs, HeaderOk c.heap.vmem b
  tiles : Tiles Block.start Block.stop c.heap.heap bs (c.heap.heap+c.heap.curSize)
  size : c.heap.curSize≤c.heap.heapSize
  last : c.heap.last=0 ∧ c.heap.first=0 ∧ c.heap.curSize=0 ∨ ∃ b ∈ bs, b.addr=c.heap.last ∧ b.free=false
  aligned : ∀ al ∈ c.live, al.alignment ∣ al.addr
  block : ∀ al ∈ c.live, ∃ b ∈ bs, b.free=false ∧ b.user=al.addr ∧ b.size=al.size
  disjoint : c.live.Pairwise (fun al al'=>∀ x, ¬ (al.Owns x ∧ al'.Owns x))
  headerFree : ∀ al ∈ c.live, ∀ b ∈ bs, ∀ x, b.addr≤x → x<b.addr+sizeofHeapAlloc → ¬ al.Owns x
  kallocReturns : ∀ alignment size, MayAllocate L c.heap → 1≤alignment → alignment≤pageSize →
    (newBlock c.heap alignment size).stop≤c.heap.region.vbase+c.heap.region.size →
    ∃ v t, kalloc L .normal alignment size c.heap=.ok v t
  kfreeReturns : ∀ al ∈ c.live, al.addr<c.heap.region.vbase+c.heap.region.size →
    ∃ t, kfree L al.addr c.heap=.ok () t

theorem HeapInv.sound (h : HeapInv L c.heap c.live bs) (ho : Owned L c.heap.machine fl dirs role) :
    HeapSound L c bs where
  next := h.blocks.first▸h.blocks.links.chain_next
  prev := h.blocks.last▸h.blocks.links.chain_prev
  header := h.blocks.header
  tiles := h.blocks.tiles
  size := h.base.size
  last := by
    obtain ⟨rfl,hf,hl⟩ | ⟨l,d,rfl,hd,-⟩ := h.blocks.cases
    · have htl : c.heap.heap=c.heap.heap+c.heap.curSize := h.blocks.tiles
      exact .inl ⟨hl,hf,by omega⟩
    · exact .inr ⟨d,by simp,hd.symm,h.lastUsed d (by simp)⟩
  aligned := h.aligned
  block := h.block
  disjoint := h.disjoint
  headerFree := by
    intro al hal b hb x hx hx' hown
    have hap := h.header_apart hal hb
    simp only [Allocation.Owns] at hown
    omega
  kallocReturns := by
    intro alignment size hmay ha ha' hend
    rw [h.base.region_end] at hend
    obtain ⟨v,t,hok,-⟩ := Returns.exists_ok ((kalloc_spec h.base h.blocks ho ha'
      (hend.trans_lt (by decide))).mono (fun _ _ hQ=>hQ)
      (fun _ hE=>hE.1.elim (fun hno=>hno hmay) hend.not_gt))
    exact ⟨v,t,hok⟩
  kfreeReturns := by
    intro al hal hlt
    rw [h.base.region_end] at hlt
    obtain ⟨⟨⟩,t,hok,-⟩ := Returns.exists_ok ((h.kfree hal).mono (fun _ _ hQ=>hQ) (fun _ hE=>hlt.ne hE.1))
    exact ⟨t,hok⟩
end

/-- In every run of `kalloc`, `kfree` and writes of the clients, the heap is in order. -/
theorem heap_sound {a c : HeapClients} (h0 : HeapStart L a) (hrun : HeapRun L a c) :
    ∃ bs, HeapSound L c bs := by
  obtain ⟨⟨bs,hinv⟩,fl,role,ho⟩ := hrun.inv h0
  exact ⟨bs,hinv.sound ho⟩

/-- The heap's variables before `init_kernel_heap`, in a kernel with checks on one CPU. -/
def freshHeap (m : Machine) : HeapState where
  machine := m
  vmem := fun _=>0
  eflagsIf := true
  nofActiveCpus := 1
  debug := true
  initialized := false
  region := ⟨0,0,0,0,0⟩
  heapSize := 0
  curSize := 0
  heap := 0
  first := 0
  last := 0

theorem exists_firstAllocation (debug : Bool) : ∃ s t : HeapState,
    HeapStart .smallImage ⟨s,[]⟩ ∧ s.heap=0xC0800000 ∧ newBlock s 16 100=⟨0xC0800000,4,100,false⟩ ∧
      growthPages s ((newBlock s 16 100).stop-s.heap) ≤ s.machine.remainingPages ∧
      Memory.kalloc .smallImage .normal 16 100 s=.ok 0xC0800020 t ∧
      MayAllocate .smallImage t ∧ t.debug=debug ∧ t.heap=0xC0800000 ∧ t.curSize=132 := by
  obtain ⟨m,fl,hst,hm0,hlen,hkp⟩ := exists_spacesStart 16 le_rfl
  obtain ⟨s,hs⟩ : ∃ s, s=initKernelHeap Layout.smallImage.dynamicRegion {freshHeap m with debug := debug} :=
    ⟨_,rfl⟩
  have hm : s.machine=m := by rw [hs,initKernelHeap,freshHeap]
  have hhp : s.heap=0xC0800000 := by rw [hs,initKernelHeap]; rfl
  have hcur : s.curSize=0 := by rw [hs,initKernelHeap,freshHeap]
  have hsz : s.heapSize=0 := by rw [hs,initKernelHeap]
  have hbl : newBlock s 16 100=⟨0xC0800000,4,100,false⟩ := by
    rw [newBlock,hhp,hcur]
    rfl
  have h0 : HeapStart .smallImage ⟨s,[]⟩ :=
    ⟨by rw [hm]; exact hst,⟨{freshHeap m with debug := debug},rfl,hs⟩,rfl⟩
  obtain ⟨hinv,fl',role,ho⟩ := h0.inv
  have hmay : MayAllocate .smallImage s :=
    ⟨.inl (by rw [hs]; rfl),by rw [hm]; exact hst.kernelTables,by rw [hm]; exact hst.unlocked,
      by rw [hm]; exact hkp⟩
  have hend : (newBlock s 16 100).stop≤0xFE000000 := by
    rw [hbl]
    decide
  obtain ⟨v,t,hok,-,-,rfl,role',hA⟩ := Returns.exists_ok ((kalloc_spec hinv.base hinv.blocks ho
    (by decide) (hend.trans_lt (by decide))).mono (fun _ _ hQ=>hQ)
    (fun _ hE=>hE.1.elim (fun hno=>hno hmay) hend.not_gt))
  have hpg : growthPages s ((newBlock s 16 100).stop-s.heap) ≤ s.machine.remainingPages := by
    rw [growthPages,hsz,hhp,hbl,hm,hm0.owned.list.remaining,hlen]
    decide
  obtain ⟨u,hu,hg⟩ := hA.machine
  have hmay' : MayAllocate .smallImage t := by
    refine ⟨by rw [hA.caller.1,hA.caller.2.1]; exact hmay.interrupts,?_,?_,?_⟩ <;> rw [hu,hg.env]
    · exact hmay.kernelTables
    · exact hmay.pallocUnlocked
    · exact hmay.kpUnlocked
  have htl := hA.blocks.tiles.of_snoc.2.2
  rw [hbl,hA.heap,hhp] at htl
  have husr : (newBlock s 16 100).user=0xC0800020 := by
    rw [hbl]
    rfl
  rw [husr] at hok
  refine ⟨s,t,h0,hhp,hbl,hpg,hok,hmay',?_,hA.heap.trans hhp,?_⟩
  · rw [hA.caller.2.2,hs]
    rfl
  · simp only [Block.stop,sizeofHeapAlloc] at htl
    omega

theorem heap_sound_smallImage : ∃ a c, HeapStart .smallImage a ∧ HeapRun .smallImage a c ∧
    c.live=[⟨0xC0800020,16,100⟩] ∧ ∃ bs, HeapSound .smallImage c bs := by
  obtain ⟨s,t,h0,-,hb,hp,hok,-⟩ := exists_firstAllocation true
  have hrun : HeapRun .smallImage ⟨s,[]⟩ ⟨t,[⟨0xC0800020,16,100⟩]⟩ := by
    refine .single (.kalloc (by decide) (by decide) ?_ hp hok)
    rw [h0.inv.1.base.region_end,hb]
    decide
  exact ⟨_,_,h0,hrun,rfl,heap_sound h0 hrun⟩

end Yaos2.Memory
