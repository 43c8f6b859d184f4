import Yaos2.Memory.EarlyPaging

/-! # The memory map in the kernel's page tables -/
namespace Yaos2.Memory
open Foundation List Nat

def pteWord (L : Layout) (m : Mem) (k : ℕ) : ℕ := load m (newKernelPageTables L k) 4

/-- The kernel's page table entry for an address. -/
def kernelPte (L : Layout) (m : Mem) (v : ℕ) : ℕ := pteWord L m (getPdIndex v*ptLength+getPtIndex v)

/-- The entry that a static region asks for. -/
def VmRegion.pte (r : VmRegion) (v : ℕ) : ℕ :=
  pteConstruct (r.pbase+(v-r.vbase)) (r.pflags ||| pageBitPresent)

variable {L : Layout} {m m' : Mem} {i j k v p flags e : ℕ} {r : VmRegion}

section

theorem pageNumber_eq (v : ℕ) : getPdIndex v*ptLength+getPtIndex v=v/pageSize := by
  have hm : v >>> 12 &&& 0x3FF=v >>> 12%1024 := and_two_pow_sub_one_eq_mod _ 10
  rw [getPdIndex,getPtIndex,hm,shiftRight_eq_div_pow,shiftRight_eq_div_pow]
  simp only [ptLength,pageSize]
  omega

theorem pteWord_store_pde (hi : i<pdLength) : pteWord L (store m (newKernelPd L i) 4 e) k=pteWord L m k := by
  rw [pteWord,pteWord,newKernelPd_eq,newKernelPageTables_eq]
  refine load_store_disjoint (.inr ?_)
  simp only [pdLength,pageSize] at *
  omega

theorem pteWord_store_self (he : e<2^32) : pteWord L (store m (newKernelPageTables L k) 4 e) k=e :=
  load_store_of_lt he

theorem pteWord_store_ne (hne : k≠i) :
    pteWord L (store m (newKernelPageTables L i) 4 e) k=pteWord L m k := by
  rw [pteWord,pteWord,newKernelPageTables_eq,newKernelPageTables_eq]
  exact load_store_disjoint (by omega)

theorem pteWord_earlyMap (hv : v<0xFFC00000) (hal : v%pageSize=0) : pteWord L (earlyMap L m v p flags) k =
      if k=v/pageSize then pteConstruct p (flags ||| pageBitPresent) else pteWord L m k := by
  have hlt : getPdIndex (maskToPage v)<pdLength := (getPdIndex_lt_current hv).trans (by decide)
  rw [maskToPage_of_aligned hal] at hlt
  simp only [earlyMap,maskToPage_of_aligned hal,pageNumber_eq]
  by_cases hk : k=v/pageSize
  · rw [if_pos hk,hk,pteWord_store_self (pteConstruct_lt _ _)]
  · rw [if_neg hk,pteWord_store_ne hk]
    split <;> split <;> simp only [pteWord_store_pde hlt]
end

section

theorem pteWord_mapRegionObject (m : Mem) (hr : r ∈ L.vmMap) : pteWord L (mapRegionObject L m r) k =
      if r.containsV (pageSize*k) then r.pte (pageSize*k) else pteWord L m k := by
  obtain ⟨hend,-⟩ := vmMap_bounds hr
  obtain ⟨hv,-,hs⟩ := vmMap_aligned hr
  -- after `n` rounds the first `n` pages are mapped
  have hrn : pteWord L (mapRegionObject L m r) k =
      if r.vbase≤pageSize*k ∧ pageSize*k<r.vbase+pageSize*pageSteps r.pbase (r.pbase+r.size) then
        r.pte (pageSize*k) else pteWord L m k := by
    refine foldRange_invariant (I := fun n m'=>pteWord L m' k =
      if r.vbase≤pageSize*k ∧ pageSize*k<r.vbase+pageSize*n then r.pte (pageSize*k)
      else pteWord L m k) (by rw [if_neg (by omega)]) ?_
    intro n m' hn hm
    have hlt := lt_of_lt_pageSteps hn
    have hal : (r.vbase+pageSize*n)%pageSize=0 := by rw [add_mul_mod_self_left,hv]
    have hpg : k=(r.vbase+pageSize*n)/pageSize ↔ pageSize*k=r.vbase+pageSize*n := by
      simp only [pageSize] at *
      omega
    rw [pteWord_earlyMap (by omega) hal,hm]
    by_cases hk : pageSize*k=r.vbase+pageSize*n
    · have hin : r.vbase≤pageSize*k ∧ pageSize*k<r.vbase+pageSize*(n+1) := by
        simp only [pageSize] at *
        omega
      rw [if_pos (hpg.mpr hk),if_pos hin,VmRegion.pte,hk,Nat.add_sub_cancel_left]
    · have hiff : (r.vbase≤pageSize*k ∧ pageSize*k<r.vbase+pageSize*(n+1)) ↔
          (r.vbase≤pageSize*k ∧ pageSize*k<r.vbase+pageSize*n) := by
        simp only [pageSize] at *
        omega
      rw [if_neg (fun h=>hk (hpg.mp h))]
      simp only [hiff]
  have hsz : pageSize*pageSteps r.pbase (r.pbase+r.size)=r.size := by
    simp only [pageSteps,pageSize] at *
    omega
  rw [hrn,hsz]
  simp [VmRegion.containsV]

theorem pteWord_mapRegions_outside (sel : VmRegion → Bool) (rs : List VmRegion) (hrs : ∀ r ∈ rs, r ∈ L.vmMap)
    (hout : ∀ r ∈ rs, sel r=true → r.containsV (pageSize*k)=false) (m : Mem) :
    pteWord L (rs.foldl (fun m r=>if sel r then mapRegionObject L m r else m) m) k=pteWord L m k := by
  refine List.foldlRecOn (motive := fun m'=>pteWord L m' k=pteWord L m k) rs _ rfl (fun m' hm r hr=>?_)
  by_cases hsel : sel r=true
  · have hcn := hout r hr hsel
    rw [if_pos hsel,pteWord_mapRegionObject m' (hrs r hr),hcn,← hm]
    rfl
  · rw [if_neg hsel,hm]

theorem pteWord_mapRegions_inside {sel : VmRegion → Bool} (hr : r ∈ L.vmMap) (hsel : sel r=true)
    (hin : r.containsV (pageSize*k)=true)
    (hon : ∀ r' ∈ L.vmMap, sel r'=true → r'.containsV (pageSize*k)=true → r'=r) (m : Mem) :
    pteWord L (L.vmMap.foldl (fun m r=>if sel r then mapRegionObject L m r else m) m) k =
      r.pte (pageSize*k) := by
  obtain ⟨before,after,hsp⟩ := append_of_mem hr
  have haf : ∀ r' ∈ after, r' ∈ L.vmMap := fun r' h=>by rw [hsp]; simp [h]
  rw [hsp,foldl_append,foldl_cons]
  refine List.foldlRecOn (motive := fun m'=>pteWord L m' k=r.pte (pageSize*k)) after _ ?_
    (fun m' hm r' hr'=>?_)
  · rw [if_pos hsel,pteWord_mapRegionObject _ hr,if_pos hin]
  · by_cases hsel' : sel r'=true
    · rw [if_pos hsel',pteWord_mapRegionObject m' (haf r' hr')]
      split
      · next hin' => rw [hon r' (haf r' hr') hsel' hin']
      · exact hm
    · rw [if_neg hsel',hm]

theorem pteWord_addSelfRef (m : Mem) : pteWord L (addSelfRef L m currentPdIndex 0) k=pteWord L m k :=
  pteWord_store_pde (by decide)

theorem pteWord_fillTables (m : Mem) : pteWord L (foldRange pdLength (fillTable L) m) k=pteWord L m k := by
  refine foldRange_invariant (I := fun _ m'=>pteWord L m' k=pteWord L m k) rfl (fun i m' hi hm=>?_)
  simp only [fillTable]
  split
  · rw [pteWord_store_pde hi,hm]
  · exact hm

theorem pteWord_markRegions (m : Mem) :
    pteWord L (L.vmMap.foldl (fun m r=>markRegionObject L m r pageBitPresent) m) k=pteWord L m k := by
  refine List.foldlRecOn (motive := fun m'=>pteWord L m' k=pteWord L m k) L.vmMap _ rfl
    (fun m' hm r hr=>?_)
  have hend := (vmMap_bounds hr).1
  refine foldRange_invariant (I := fun _ m''=>pteWord L m'' k=pteWord L m k) hm (fun n m'' hn hm''=>?_)
  have hlt := lt_of_lt_pageSteps hn
  rw [mark,pteWord_store_pde ((getPdIndex_lt_current (by omega)).trans (by decide)),hm'']
end

theorem vmMap_phys (hr : r ∈ L.vmMap) : r.pbase+r.size<2^32 := by
  have ho := L.order
  simp only [Layout.vmMap_eq,mem_cons,not_mem_nil,or_false] at hr
  rcases hr with rfl | rfl | rfl | rfl | rfl | rfl | rfl | rfl | rfl <;> dsimp only <;> omega

theorem VmRegion.pte_eq (hr : r ∈ L.vmMap) (hoff : off%pageSize=0) (hlt : off<r.size) :
    r.pte (r.vbase+off)=(r.pbase+off) ||| r.pflags ||| pageBitPresent := by
  obtain ⟨-,hp,-⟩ := vmMap_aligned hr
  have hph := vmMap_phys hr
  have hfl : (r.pflags ||| pageBitPresent) &&& 0xfff=r.pflags ||| pageBitPresent := by
    rw [show 0xfff=2^12-1 by decide,and_two_pow_sub_one_eq_mod]
    exact mod_eq_of_lt (or_present_lt (vmMap_bounds hr).2.1.1)
  have hpd : (r.pbase+off) &&& 0xfffff000=r.pbase+off := by
    have hal : (r.pbase+off)%pageSize=0 := by rw [add_mod,hp,hoff]; rfl
    exact (pteGetPaddr_eq (by omega)).trans (maskToPage_of_aligned hal)
  rw [VmRegion.pte,Nat.add_sub_cancel_left,pteConstruct,hfl,hpd,Nat.or_assoc]

theorem pteWord_early (m : Mem) (k : ℕ) : (∀ r ∈ L.vmMap, r.isStatic=true → r.containsV (pageSize*k)=true →
      pteWord L (earlyInitKernelPaging L m) k=r.pte (pageSize*k)) ∧
    ((∀ r ∈ L.vmMap, r.isStatic=true → r.containsV (pageSize*k)=false) →
      pteWord L (earlyInitKernelPaging L m) k=pteWord L m k) := by
  simp only [earlyInitKernelPaging,pteWord_markRegions,pteWord_fillTables]
  refine ⟨fun r hr hs hin=>?_,fun hout=>?_⟩
  · cases hx : r.isExecutable with
    | true =>
      -- mapped in the first pass, and no region of the second pass has the page
      rw [pteWord_mapRegions_outside _ _ (fun _ h=>h) (fun r' hr' hsel=>?_),pteWord_addSelfRef]
      · exact pteWord_mapRegions_inside hr (by rw [hs,hx]; rfl) hin
          (fun r' hr' _ hin'=>Layout.vmMap_disjoint hr hr' hin hin') m
      · by_contra hin'
        have heq := Layout.vmMap_disjoint hr hr' hin (by simpa using hin')
        rw [heq,hx,Bool.not_true,Bool.and_false] at hsel
        cases hsel
    | false =>
      exact pteWord_mapRegions_inside hr (by rw [hs,hx]; rfl) hin
        (fun r' hr' _ hin'=>Layout.vmMap_disjoint hr hr' hin hin') _
  · have hsel : ∀ b : VmRegion → Bool, ∀ r ∈ L.vmMap, (r.isStatic && b r)=true →
        r.containsV (pageSize*k)=false := fun b r hr h=>hout r hr (Bool.and_eq_true_iff.mp h).1
    rw [pteWord_mapRegions_outside _ _ (fun _ h=>h) (hsel _),pteWord_addSelfRef,
      pteWord_mapRegions_outside _ _ (fun _ h=>h) (hsel _)]

theorem kernelPte_eq (m : Mem) (v : ℕ) : kernelPte L m v=pteWord L m (v/pageSize) := by
  rw [kernelPte,pageNumber_eq]

theorem containsV_page (hr : r ∈ L.vmMap) (v : ℕ) : r.containsV (pageSize*(v/pageSize))=r.containsV v := by
  obtain ⟨hv,-,hs⟩ := vmMap_aligned hr
  rw [VmRegion.containsV,VmRegion.containsV,decide_eq_decide]
  simp only [pageSize] at *
  omega

theorem getPdIndex_page (v : ℕ) : getPdIndex (maskToPage v)=getPdIndex v := by
  rw [getPdIndex,getPdIndex,shiftRight_eq_div_pow,shiftRight_eq_div_pow]
  simp only [maskToPage,pageSize]
  omega

theorem Marked.and_eq (h : Marked L m f i) : kernelPde L m i &&& f=f := by
  rw [← h]
  refine eq_of_testBit_eq (fun b=>?_)
  rw [testBit_and,testBit_or]
  cases (kernelPde L m i).testBit b <;> cases f.testBit b <;> rfl

theorem isGlobal_or_left (h : isGlobal e=true) : isGlobal (e ||| f)=true := by
  rw [isGlobal,bne_iff_ne] at *
  rw [and_or_distrib_right]
  intro h0
  exact h (or_eq_zero_iff.mp h0).1

theorem Marked.isGlobal (h : Marked L m f i) (hf : isGlobal f=true) :
    isGlobal (kernelPde L m i)=true := by
  rw [Memory.isGlobal,bne_iff_ne] at *
  intro h0
  rw [← h.and_eq,Nat.and_comm (kernelPde L m i),Nat.and_assoc,h0,and_zero] at hf
  exact hf rfl

section

theorem kernelPte_early (m : Mem) (hr : r ∈ L.vmMap) (hs : r.isStatic=true) (hv : r.containsV v=true) :
    kernelPte L (earlyInitKernelPaging L m) v=r.pte (pageSize*(v/pageSize)) := by
  rw [kernelPte_eq]
  exact (pteWord_early m _).1 r hr hs (by rwa [containsV_page hr])

theorem early_marked (m : Mem) (hr : r ∈ L.vmMap) (hv : r.containsV v=true) :
    Marked L (earlyInitKernelPaging L m) (r.pflags ||| pageBitPresent) (getPdIndex v) := by
  rw [← getPdIndex_page,earlyInitKernelPaging]
  exact markRegions_marks _ hr hv

theorem early_table (h0 : ∀ x, InKernelTables L x → m x=0) (hi : i<currentPdIndex) :
    pdeGetPaddr (kernelPde L (earlyInitKernelPaging L m) i)=newKernelPageTables L (i*ptLength) := by
  rw [newKernelPageTables_table hi]
  exact (earlyInitKernelPaging_kernelTables h0).paddr i (hi.trans (by decide))
end

/-- The page tables at boot realise the memory map. -/
theorem boot_tables_map (h0 : ∀ x, InKernelTables L x → m x=0) :
    (∀ r ∈ L.vmMap, r.isStatic=true → ∀ off, off%pageSize=0 → off<r.size →
      kernelPte L (earlyInitKernelPaging L m) (r.vbase+off)=(r.pbase+off) ||| r.pflags ||| pageBitPresent) ∧
    (∀ v, v<0xFFC00000 → (∀ r ∈ L.vmMap, r.isStatic=true → r.containsV v=false) →
      kernelPte L (earlyInitKernelPaging L m) v=0) ∧
    (∀ i<pdLength, i≠currentPdIndex →
      pdeGetPaddr (kernelPde L (earlyInitKernelPaging L m) i)=newKernelPageTables L (i*ptLength)) ∧
    ∀ r ∈ L.vmMap, ∀ v, r.containsV v=true →
      kernelPde L (earlyInitKernelPaging L m) (getPdIndex v) &&& (r.pflags ||| pageBitPresent) =
        r.pflags ||| pageBitPresent ∧
      (isGlobal r.pflags=true → isGlobal (kernelPde L (earlyInitKernelPaging L m) (getPdIndex v))=true) := by
  refine ⟨fun r hr hs off hoff hlt=>?_,fun v hv hout=>?_,fun i hi hne=>?_,fun r hr v hv=>?_⟩
  · have hin : r.containsV (r.vbase+off)=true := decide_eq_true (by omega)
    have hal : pageSize*((r.vbase+off)/pageSize)=r.vbase+off := by
      have hbs := (vmMap_aligned hr).1
      simp only [pageSize] at *
      omega
    rw [kernelPte_early m hr hs hin,hal,VmRegion.pte_eq hr hoff hlt]
  · have hpte := (pteWord_early m (v/pageSize)).2 (fun r hr hs=>by rw [containsV_page hr,hout r hr hs])
    rw [kernelPte_eq,hpte,pteWord,newKernelPageTables_eq]
    refine load_zero (fun x hx hx'=>h0 x ?_)
    simp only [InKernelTables,pageSize] at *
    omega
  · refine early_table h0 ?_
    simp only [currentPdIndex,pdLength] at *
    omega
  · have hmr := early_marked m hr hv
    exact ⟨hmr.and_eq,fun hgl=>hmr.isGlobal (isGlobal_or_left hgl)⟩

/-- The first page of the boot stack and the first page of the heap, in a cleared memory. -/
theorem boot_tables_map_smallImage :
    kernelPte .smallImage (earlyInitKernelPaging .smallImage (fun _=>0)) 0xC0101000 =
        0x101000 ||| (pageBitRw ||| pageBitGlobal) ||| pageBitPresent ∧
      kernelPte .smallImage (earlyInitKernelPaging .smallImage (fun _=>0)) 0xC0800000=0 := by
  obtain ⟨hs,hz,-⟩ := boot_tables_map (L := .smallImage) (m := fun _=>0) (fun _ _=>rfl)
  refine ⟨?_,hz 0xC0800000 (by decide) (by decide)⟩
  exact hs Layout.smallImage.bootStackRegion (by simp [Layout.vmMap]) (by decide) 0 (by decide) (by decide)

section

def IsStaticP (L : Layout) (p : ℕ) : Prop := ∃ r ∈ L.vmMap, r.isStatic=true ∧ r.containsP p=true

/-- The page tables lead from `v` to `p`: both entries are present, and the page has the byte. -/
def Leads (L : Layout) (m : Mem) (v p : ℕ) : Prop :=
  let pde := kernelPde L m (getPdIndex v)
  let pte := load m (pdeGetPaddr pde+4*getPtIndex v) 4
  isPresent pde=true ∧ isPresent pte=true ∧ pteGetPaddr pte+v%pageSize=p

theorem IsStaticP.region (h : IsStaticP L p) : ∃ r ∈ L.vmMap, L.getRegionP p=some r ∧ r.isStatic=true ∧
    r.containsP p=true ∧ (r.vbase=r.pbase+0xC0000000 ∨ r.vbase=r.pbase ∧ 0<p) := by
  have ho := L.order
  obtain ⟨r,hr,hs,hp⟩ := h
  by_cases hi : L.InImage p
  · obtain ⟨r,hr,hf,hs,hp,hv⟩ := Layout.getRegionP_image hi
    exact ⟨r,hr,hf,hs,hp,.inl hv⟩
  have hid : L.InIdentity p := by
    rw [Layout.containsP_iff] at hp
    rw [Layout.InImage] at hi
    rw [Layout.InIdentity,Layout.kmFreePhysBase_eq]
    simp only [Layout.vmMap_eq,mem_cons,not_mem_nil,or_false] at hr
    rcases hr with rfl | rfl | rfl | rfl | rfl | rfl | rfl | rfl | rfl <;> dsimp only at hp
    iterate 6 omega
    · simp [VmRegion.isStatic] at hs
    iterate 2 omega
  obtain ⟨r,hr,hf,hs,hp,hv⟩ := Layout.getRegionP_identity hid
  have hb := L.kmFreePhysBase_bounds
  rw [Layout.InIdentity] at hid
  exact ⟨r,hr,hf,hs,hp,.inr ⟨hv,by omega⟩⟩

theorem vmMapWalk_ne_zero (h : IsStaticP L p) : L.vmMapWalk p≠0 := by
  obtain ⟨r,-,hf,-,hp,hv⟩ := h.region
  rw [Layout.containsP_iff] at hp
  simp only [Layout.vmMapWalk,hf]
  omega

theorem vmMapWalk_containsV (h : IsStaticP L p) : ∃ r ∈ L.vmMap, r.isStatic=true ∧
    r.containsV (L.vmMapWalk p)=true ∧ p=r.pbase+(L.vmMapWalk p-r.vbase) := by
  obtain ⟨r,hr,hf,hs,hp,-⟩ := h.region
  rw [Layout.containsP_iff] at hp
  have hw : L.vmMapWalk p=r.vbase+(p-r.pbase) := by simp only [Layout.vmMapWalk,hf]
  exact ⟨r,hr,hs,Layout.containsV_iff.mpr (by omega),by omega⟩

theorem vmMapWalk_dynamic (h : ¬ IsStaticP L p) : L.vmMapWalk p≠0 ↔ L.dynamicRegion.containsP p=true := by
  have ho := L.order
  have hi : ¬ L.InImage p := fun hi=>h <| by
    obtain ⟨r,hr,-,hs,hp,-⟩ := Layout.getRegionP_image hi
    exact ⟨r,hr,hs,hp⟩
  have hid : ¬ L.InIdentity p := fun hid=>h <| by
    obtain ⟨r,hr,-,hs,hp,-⟩ := Layout.getRegionP_identity hid
    exact ⟨r,hr,hs,hp⟩
  rw [Layout.InIdentity,not_or] at hid
  rw [Layout.vmMapWalk,Layout.getRegionP_outside hi,if_neg hid.1,if_neg hid.2,Layout.dynamicRegion_containsP]
  split_ifs with hd
  · have hne : L.dynamicRegion.vbase+(p-L.dynamicRegion.pbase)≠0 := by
      change L.memBreak+(p-0)≠0
      omega
    exact iff_of_true hne hd
  · exact iff_of_false (not_not.mpr rfl) hd

theorem leads_of_static (h0 : ∀ x, InKernelTables L x → m x=0) (hr : r ∈ L.vmMap) (hs : r.isStatic=true)
    (hv : r.containsV v=true) : Leads L (earlyInitKernelPaging L m) v (r.pbase+(v-r.vbase)) := by
  obtain ⟨hend,⟨hfl,-⟩,-⟩ := vmMap_bounds hr
  have hph := vmMap_phys hr
  obtain ⟨hvb,hpb,-⟩ := vmMap_aligned hr
  have hin := Layout.containsV_iff.mp hv
  have hpg : pageSize*(v/pageSize)=v-v%pageSize := by
    simp only [pageSize]
    omega
  have hidx : getPdIndex v<currentPdIndex := by
    rw [← getPdIndex_page]
    exact getPdIndex_lt_current (by omega)
  have hpte : load (earlyInitKernelPaging L m) (newKernelPageTables L (getPdIndex v*ptLength)+4*getPtIndex v) 4 =
      r.pte (pageSize*(v/pageSize)) := by
    rw [← kernelPte_early m hr hs hv,kernelPte,pteWord,newKernelPageTables_eq,newKernelPageTables_eq,Nat.add_assoc,
      ← Nat.mul_add]
  have hal : (r.pbase+(pageSize*(v/pageSize)-r.vbase))%pageSize=0 := by
    simp only [pageSize] at *
    omega
  obtain ⟨-,-,had⟩ := pteConstruct_frame hal (by omega) (or_present_lt hfl)
  simp only [Leads,early_table h0 hidx,hpte]
  refine ⟨?_,?_,?_⟩
  · have hbit := congrArg (·.testBit 0) (early_marked m hr hv).and_eq
    simp only [testBit_and,isPresent_or_present,Bool.and_true] at hbit
    rw [isPresent_eq,hbit]
  · rw [isPresent_eq,VmRegion.pte,testBit_pteConstruct _ _ (by decide),isPresent_or_present]
  · rw [VmRegion.pte,had]
    simp only [pageSize] at *
    omega

/-- The walk answers for the addresses of the static regions, and for the gaps between these that the dynamic
region claims. -/
theorem vmMapWalk_iff_static (h0 : ∀ x, InKernelTables L x → m x=0) (p : ℕ) :
    ((L.vmMapWalk p≠0 ↔ IsStaticP L p) ↔ IsStaticP L p ∨ L.dynamicRegion.containsP p=false) ∧
    (IsStaticP L p → Leads L (earlyInitKernelPaging L m) (L.vmMapWalk p) p ∧ L.vmMapRevWalk (L.vmMapWalk p)=p) ∧
    (ptranslate L p≠0 → ptranslate L p=L.vmMapWalk p) := by
  refine ⟨?_,fun h=>?_,fun h=>?_⟩
  · by_cases h : IsStaticP L p
    · exact iff_of_true (iff_of_true (vmMapWalk_ne_zero h) h) (.inl h)
    · rw [iff_false_right h,vmMapWalk_dynamic h,or_iff_right h,Bool.not_eq_true]
  · obtain ⟨r,hr,hs,hv,hp⟩ := vmMapWalk_containsV h
    rw [Layout.vmMapRevWalk,Layout.getRegionV_of_mem hr hv]
    have hld := leads_of_static h0 hr hs hv
    rw [← hp] at hld
    exact ⟨hld,hp.symm⟩
  · rw [ptranslate] at h ⊢
    split at h
    next hm =>
      obtain ⟨hlo,hhi⟩ := Layout.pallocRegion_containsP.mp hm
      rw [if_pos hm,Layout.vmMapWalk_palloc hlo hhi]
      exact Nat.add_sub_of_le hlo
    next => exact absurd rfl h

/-- The first page of free memory, in a cleared memory. -/
theorem vmMapWalk_iff_static_free : IsStaticP .smallImage 0x800000 ∧ Layout.smallImage.vmMapWalk 0x800000≠0 ∧
    Leads .smallImage (earlyInitKernelPaging .smallImage fun _=>0) (Layout.smallImage.vmMapWalk 0x800000) 0x800000 := by
  have hs : IsStaticP .smallImage 0x800000 := ⟨Layout.smallImage.pallocRegion,by simp [Layout.vmMap],by decide,by decide⟩
  obtain ⟨hiff,hl,-⟩ := vmMapWalk_iff_static (L := .smallImage) (m := fun _=>0) (fun _ _=>rfl) 0x800000
  exact ⟨hs,(hiff.mpr (.inl hs)).mpr hs,(hl hs).1⟩

/-- Between the end of the image and the next 4 MiB the walk answers with a heap address. -/
theorem vmMapWalk_gap : ¬ IsStaticP .smallImage 0x601000 ∧ Layout.smallImage.vmMapWalk 0x601000=0xC0E01000 := by
  refine ⟨?_,by decide⟩
  rintro ⟨r,hr,hs,hp⟩
  simp only [Layout.vmMap,mem_cons,not_mem_nil,or_false] at hr
  rcases hr with rfl | rfl | rfl | rfl | rfl | rfl | rfl | rfl | rfl <;> revert hs hp <;> decide
end
end Yaos2.Memory
