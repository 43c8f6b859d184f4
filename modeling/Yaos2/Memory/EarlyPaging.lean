import Yaos2.Memory.AddressSpace

/-! # The kernel's page tables at boot

The code reaches the tables first through one scratch page and later through the mapping it has just
made; both lead to the same physical words, so it is modelled on physical memory. -/
namespace Yaos2.Memory
open Foundation List Nat

variable (L : Layout)

def currentPdIndex : ℕ := pdLength-1

/-- The words `enable` gives access to: entry `i` of the directory, and word `i` of the tables. -/
def newKernelPd (i : ℕ) : ℕ := Layout.kmPaddr (L.kernelPd+4*i)
def newKernelPageTables (i : ℕ) : ℕ := Layout.kmPaddr (L.kernelPageTables+4*i)

/-- `map`: point the directory entry to its table, force the write bit, set the table's entry. -/
def earlyMap (m : Mem) (v p flags : ℕ) : Mem :=
  let v := maskToPage v
  let pdi := getPdIndex v
  let pti := getPtIndex v
  let pde := newKernelPd L pdi
  let m := if pdeGetPaddr (load m pde 4)=physNull then
      store m pde 4 (pdeConstruct (newKernelPageTables L (pdi*ptLength)) (flags ||| pageBitPresent))
    else m
  let m := if flags &&& pageBitRw≠0 ∧ load m pde 4 &&& pageBitRw=0 then
      store m pde 4 (load m pde 4 ||| pageBitRw)
    else m
  store m (newKernelPageTables L (pdi*ptLength+pti)) 4 (pteConstruct p (flags ||| pageBitPresent))

def mapRegion (m : Mem) (vfrom pfrom pto flags : ℕ) : Mem := foldRange (pageSteps pfrom pto)
    (fun k m=>earlyMap L m (vfrom+pageSize*k) (pfrom+pageSize*k) flags) m

def mapRegionObject (m : Mem) (r : VmRegion) : Mem := mapRegion L m r.vbase r.pbase (r.pbase+r.size) r.pflags

def mark (m : Mem) (v pflags : ℕ) : Mem :=
  let pde := newKernelPd L (getPdIndex (maskToPage v))
  store m pde 4 (load m pde 4 ||| pflags)

def markRegion (m : Mem) (vfrom vto pflags : ℕ) : Mem :=
  foldRange (pageSteps vfrom vto) (fun k m=>mark L m (vfrom+pageSize*k) pflags) m

def markRegionObject (m : Mem) (r : VmRegion) (pflags : ℕ) : Mem :=
  markRegion L m r.vbase (r.vbase+r.size) (r.pflags ||| pflags)

def addSelfRef (m : Mem) (pdi flags : ℕ) : Mem := store m (newKernelPd L pdi) 4
    (pdeConstruct (newKernelPd L 0) (flags ||| pageBitRw ||| pageBitPresent))

/-- One round of the loop that gives every directory entry a page table. -/
def fillTable (i : ℕ) (m : Mem) : Mem :=
  let pde := newKernelPd L i
  if pdeGetPaddr (load m pde 4)=physNull then
    store m pde 4 (load m pde 4 ||| newKernelPageTables L (i*ptLength))
  else m

def earlyInitKernelPaging (m : Mem) : Mem :=
  let m := L.vmMap.foldl (fun m r=>if r.isStatic && r.isExecutable then mapRegionObject L m r else m) m
  let m := addSelfRef L m currentPdIndex 0
  let m := L.vmMap.foldl (fun m r=>if r.isStatic && !r.isExecutable then mapRegionObject L m r else m) m
  let m := foldRange pdLength (fillTable L) m
  L.vmMap.foldl (fun m r=>markRegionObject L m r pageBitPresent) m

variable {L} {m m' m'' : Mem} {i j v p flags e f : ℕ}

section

theorem newKernelPd_eq (i : ℕ) : newKernelPd L i=L.physKernelPd+4*i := by
  have ho := L.order
  have hc := numerals
  have h1 : newKernelPd L i=L.kernelPd+4*i-kmVirtBase := rfl
  have h2 := physKernelPd_eq (L := L)
  omega

theorem newKernelPageTables_eq (i : ℕ) : newKernelPageTables L i=L.physKernelPd+pageSize+4*i := by
  have ho := L.order
  have hc := numerals
  have h1 : newKernelPageTables L i=L.kernelPd+pageSize+4*i-kmVirtBase := rfl
  have h2 := physKernelPd_eq (L := L)
  omega

abbrev kernelPde (L : Layout) (m : Mem) (i : ℕ) : ℕ := entryAt m L.physKernelPd i

theorem load_newKernelPd (m : Mem) (i : ℕ) : load m (newKernelPd L i) 4=kernelPde L m i := by
  rw [newKernelPd_eq]
  rfl

theorem kernelPde_store_self (he : e<2^32) : kernelPde L (store m (newKernelPd L i) 4 e) i=e := by
  rw [newKernelPd_eq]
  exact load_store_of_lt he

theorem kernelPde_store_ne (hne : j≠i) : kernelPde L (store m (newKernelPd L i) 4 e) j=kernelPde L m j := by
  rw [newKernelPd_eq]
  exact load_store_disjoint (by omega)

theorem kernelPde_store_table (hj : j<pdLength) :
    kernelPde L (store m (newKernelPageTables L i) 4 e) j=kernelPde L m j := by
  rw [newKernelPageTables_eq]
  refine load_store_disjoint (.inl ?_)
  simp only [pdLength,pageSize] at *
  omega
end

/-- The page table the kernel's directory gives to entry `i`. -/
def tableOf (L : Layout) (i : ℕ) : ℕ :=
  if i=currentPdIndex then L.physKernelPd else L.physPageTables+pageSize*i

def UserPart (L : Layout) (m : Mem) : Prop := ∀ i<768, isGlobal (kernelPde L m i)=false

/-- Entries keep their tables, the user part stays without global entries, and no user code is let
in. -/
structure Advances (L : Layout) (m m' : Mem) : Prop where
  table : ∀ i<pdLength, pteGetPaddr (kernelPde L m' i)=pteGetPaddr (kernelPde L m i) ∨
    pteGetPaddr (kernelPde L m i)=physNull ∧ pteGetPaddr (kernelPde L m' i)=tableOf L i
  user : UserPart L m → UserPart L m'
  supervisor : Supervisor L m → Supervisor L m'

/-- Every entry is null or has its own page table. -/
def Started (L : Layout) (m : Mem) : Prop := ∀ i<pdLength, pteGetPaddr (kernelPde L m i)=physNull ∨
    pteGetPaddr (kernelPde L m i)=tableOf L i

section

theorem Advances.refl (m : Mem) : Advances L m m := ⟨fun _ _=>.inl rfl,fun h=>h,fun h=>h⟩

theorem Advances.trans (h : Advances L m m') (h' : Advances L m' m'') : Advances L m m'' := by
  refine ⟨fun i hi=>?_,fun hs=>h'.user (h.user hs),fun hs=>h'.supervisor (h.supervisor hs)⟩
  rcases h.table i hi with h1 | ⟨h0,h1⟩ <;> rcases h'.table i hi with h2 | ⟨h0',h2⟩
  · exact .inl (h2.trans h1)
  · exact .inr ⟨h1.symm.trans h0',h2⟩
  · exact .inr ⟨h0,h2.trans h1⟩
  · exact .inr ⟨h0,h2⟩

theorem Started.advance (h : Started L m) (ha : Advances L m m') : Started L m' := by
  intro i hi
  rcases ha.table i hi with he | ⟨-,he⟩
  · rw [he]
    exact h i hi
  · exact .inr he

theorem tableOf_isTable (hi : i<pdLength) : tableOf L i%pageSize=0 ∧ tableOf L i<2^32 ∧
    tableOf L i≠physNull := by
  have hb := physKernelPd_bounds (L := L)
  have hf := L.kmFreePhysBase_bounds
  have ht := physPageTables_eq (L := L)
  rw [tableOf]
  simp only [pdLength,pageSize,physNull] at *
  split <;> omega

theorem Advances.ne_null (h : Advances L m m') (hi : i<pdLength)
    (hne : pteGetPaddr (kernelPde L m i)≠physNull) : pteGetPaddr (kernelPde L m' i)≠physNull := by
  rcases h.table i hi with he | ⟨h0,-⟩
  · rwa [he]
  · exact absurd h0 hne

theorem advances_store (hi : i<pdLength) (he : e<2^32)
    (hu : isUser (kernelPde L m i)=false → isUser e=false)
    (hg : i<768 → isGlobal (kernelPde L m i)=false → isGlobal e=false)
    (h : pteGetPaddr e=pteGetPaddr (kernelPde L m i) ∨
      pteGetPaddr (kernelPde L m i)=physNull ∧ pteGetPaddr e=tableOf L i) :
    Advances L m (store m (newKernelPd L i) 4 e) := by
  refine ⟨fun j _=>?_,fun hs j hj=>?_,fun hs=>?_⟩
  · by_cases hji : j=i
    · subst hji
      rwa [kernelPde_store_self he]
    · exact .inl (by rw [kernelPde_store_ne hji])
  · by_cases hji : j=i
    · subst hji
      rw [kernelPde_store_self he]
      exact hg hj (hs j hj)
    · rw [kernelPde_store_ne hji]
      exact hs j hj
  · rw [newKernelPd_eq]
    exact hs.store he (hu (hs i (hi.trans (by decide))))

theorem advances_store_table (he : e<2^32) (hu : isUser e=false) :
    Advances L m (store m (newKernelPageTables L i) 4 e) := by
  refine ⟨fun j hj=>.inl (congrArg pteGetPaddr (kernelPde_store_table hj)),fun hs j hj=>?_,fun hs=>?_⟩
  · rw [kernelPde_store_table (hj.trans (by decide))]
    exact hs j hj
  have ha : newKernelPageTables L i=L.physKernelPd+4*(1024+i) := by
    rw [newKernelPageTables_eq]
    simp only [pageSize]
    omega
  rw [ha]
  exact hs.store he hu

theorem getPdIndex_lt_current (hv : v<0xFFC00000) : getPdIndex (maskToPage v)<currentPdIndex := by
  have hm := maskToPage_le v
  rw [getPdIndex,shiftRight_eq_div_pow]
  simp only [currentPdIndex,pdLength,pageSize]
  omega

theorem getPdIndex_lt_user (h : getPdIndex (maskToPage v)<768) : v<0xC0000000 := by
  have hm := lt_maskToPage_add v
  have hal := maskToPage_mod v
  rw [getPdIndex,shiftRight_eq_div_pow] at h
  simp only [pageSize] at *
  omega

theorem newKernelPageTables_table (hi : i<currentPdIndex) :
    newKernelPageTables L (i*ptLength)=tableOf L i := by
  have ht := physPageTables_eq (L := L)
  rw [newKernelPageTables_eq,tableOf,if_neg (by omega)]
  simp only [ptLength,pageSize]
  omega

theorem earlyMap_advances (m : Mem) (p : ℕ) (hv : v<0xFFC00000) (hf : flags<pageSize)
    (hu : isUser flags=false) (hg : v<0xC0000000 → isGlobal flags=false) :
    Advances L m (earlyMap L m v p flags) := by
  have hi := getPdIndex_lt_current hv
  have hlt : getPdIndex (maskToPage v)<pdLength := hi.trans (by decide)
  obtain ⟨hal,hb,-⟩ := tableOf_isTable (L := L) hlt
  have hu' : isUser (flags ||| pageBitPresent)=false := isUser_or hu (by decide)
  have hg' : getPdIndex (maskToPage v)<768 → isGlobal (flags ||| pageBitPresent)=false :=
    fun h=>isGlobal_or (hg (getPdIndex_lt_user h)) (by decide)
  simp only [earlyMap,load_newKernelPd,pdeGetPaddr,newKernelPageTables_table hi]
  generalize getPdIndex (maskToPage v)=i at *
  have htb : ∀ m, Advances L m (if pteGetPaddr (kernelPde L m i)=physNull then
      store m (newKernelPd L i) 4 (pdeConstruct (tableOf L i) (flags ||| pageBitPresent)) else m) := by
    intro m
    split
    · next hnl =>
      obtain ⟨-,he,ha⟩ := pteConstruct_frame hal hb (or_present_lt hf)
      exact advances_store hlt he (fun _=>(isUser_pteConstruct _ _).trans hu')
        (fun h _=>(isGlobal_pteConstruct _ _).trans (hg' h)) (.inr ⟨hnl,ha⟩)
    · exact .refl m
  have hwr : ∀ m, Advances L m (if flags &&& pageBitRw≠0 ∧ kernelPde L m i &&& pageBitRw=0 then
      store m (newKernelPd L i) 4 (kernelPde L m i ||| pageBitRw) else m) := by
    intro m
    split
    · obtain ⟨he,ha⟩ := pteGetPaddr_or (f := pageBitRw) (entryAt_lt m L.physKernelPd i) (by decide)
      exact advances_store hlt he (fun h=>isUser_or h (by decide))
        (fun _ h=>isGlobal_or h (by decide)) (.inl ha)
    · exact .refl m
  exact ((htb m).trans (hwr _)).trans
    (advances_store_table (pteConstruct_lt _ _) ((isUser_pteConstruct _ _).trans hu'))

theorem lt_of_lt_pageSteps (hk : k<pageSteps lo hi) : lo+pageSize*k<hi := by
  simp only [pageSteps,pageSize] at *
  omega

theorem foldRange_advances
    (h : ∀ k m, k<n → Advances L m (body k m)) (m : Mem) : Advances L m (foldRange n body m) :=
  foldRange_invariant (I := fun _ m'=>Advances L m m') (.refl m)
    (fun k m' hk hm=>hm.trans (h k m' hk))

theorem mark_advances (m : Mem) (hv : v<0xFFC00000) (hf : flags<pageSize)
    (hu : isUser flags=false) (hg : v<0xC0000000 → isGlobal flags=false) :
    Advances L m (mark L m v flags) := by
  rw [mark,load_newKernelPd]
  obtain ⟨he,ha⟩ := pteGetPaddr_or (entryAt_lt m L.physKernelPd (getPdIndex (maskToPage v))) hf
  exact advances_store ((getPdIndex_lt_current hv).trans (by decide)) he (fun h=>isUser_or h hu)
    (fun hi h=>isGlobal_or h (hg (getPdIndex_lt_user hi))) (.inl ha)

theorem vmMap_bounds (hr : r ∈ L.vmMap) :
    r.vbase+r.size≤0xFFC00000 ∧ (r.pflags<pageSize ∧ isUser r.pflags=false) ∧
      (0xC0000000≤r.vbase ∨ isGlobal r.pflags=false) := by
  have ho := L.order
  simp only [Layout.vmMap_eq,mem_cons,not_mem_nil,or_false] at hr
  rcases hr with rfl | rfl | rfl | rfl | rfl | rfl | rfl | rfl | rfl <;> dsimp only <;>
    refine ⟨by omega,by decide,?_⟩
  iterate 5 exact .inl (by omega)
  · exact .inr (by decide)
  iterate 2 exact .inl (by omega)
  · exact .inr (by decide)

theorem vmMap_aligned (hr : r ∈ L.vmMap) :
    r.vbase%pageSize=0 ∧ r.pbase%pageSize=0 ∧ r.size%pageSize=0 := by
  have ho := L.order
  have h1 := L.top_aligned
  have h2 := L.bottom_aligned
  have h3 := L.apBegin_aligned
  have h4 := L.apEnd_aligned
  have h5 := L.roEnd_aligned
  have h6 := L.rwBegin_aligned
  have h7 := L.rwEnd_aligned
  have h8 := L.break_aligned
  rw [numerals.1] at h1 h2 h3 h4 h5 h6 h7 ⊢
  simp only [Layout.vmMap_eq,mem_cons,not_mem_nil,or_false] at hr
  rcases hr with rfl | rfl | rfl | rfl | rfl | rfl | rfl | rfl | rfl <;> dsimp only <;> omega

theorem mapRegionObject_advances (hr : r ∈ L.vmMap) (m : Mem) : Advances L m (mapRegionObject L m r) := by
  obtain ⟨hend,⟨hf,hu⟩,hg⟩ := vmMap_bounds hr
  refine foldRange_advances (fun k m hk=>?_) m
  have hlt := lt_of_lt_pageSteps hk
  exact earlyMap_advances m _ (by omega) hf hu (fun hv=>hg.resolve_left (by omega))

theorem foldl_map_advances (sel : VmRegion → Bool) (m : Mem) :
    Advances L m (L.vmMap.foldl (fun m r=>if sel r then mapRegionObject L m r else m) m) := by
  refine List.foldlRecOn (motive := Advances L m) L.vmMap _ (.refl m) (fun m' hm r hr=>hm.trans ?_)
  split
  · exact mapRegionObject_advances hr m'
  · exact .refl m'

theorem markRegionObject_advances (hr : r ∈ L.vmMap) (m : Mem) :
    Advances L m (markRegionObject L m r pageBitPresent) := by
  obtain ⟨hend,⟨hf,hu⟩,hg⟩ := vmMap_bounds hr
  refine foldRange_advances (fun k m hk=>?_) m
  have hlt := lt_of_lt_pageSteps hk
  exact mark_advances m (by omega) (or_present_lt hf) (isUser_or hu (by decide))
    (fun hv=>isGlobal_or (hg.resolve_left (by omega)) (by decide))

theorem addSelfRef_advances (h : Started L m) : Advances L m (addSelfRef L m currentPdIndex 0) ∧
    pteGetPaddr (kernelPde L (addSelfRef L m currentPdIndex 0) currentPdIndex)≠physNull := by
  have hlt : currentPdIndex<pdLength := by decide
  obtain ⟨hal,hb,hne⟩ := tableOf_isTable (L := L) hlt
  have htab : newKernelPd L 0=tableOf L currentPdIndex := by
    rw [newKernelPd_eq,tableOf,if_pos rfl,mul_zero,add_zero]
  obtain ⟨-,he,ha⟩ := pteConstruct_frame (f := 0 ||| pageBitRw ||| pageBitPresent) hal hb (by decide)
  rw [addSelfRef,htab,kernelPde_store_self he]
  refine ⟨advances_store hlt he (fun _=>(isUser_pteConstruct _ _).trans (by decide))
    (fun h=>absurd h (by decide)) ?_,ha.symm▸hne⟩
  rcases h _ hlt with h0 | h1
  · exact .inr ⟨h0,ha⟩
  · exact .inl (ha.trans h1.symm)

theorem fillTable_advances (hi : i<pdLength) (hsl : pteGetPaddr (kernelPde L m currentPdIndex)≠physNull) :
    Advances L m (fillTable L i m) ∧ pteGetPaddr (kernelPde L (fillTable L i m) i)≠physNull := by
  simp only [fillTable,load_newKernelPd,pdeGetPaddr]
  split
  · next hnl =>
    have hic : i<currentPdIndex := by
      have hne : i≠currentPdIndex := fun hc=>hsl (hc▸hnl)
      simp only [currentPdIndex] at *
      omega
    obtain ⟨hal,hb,hne⟩ := tableOf_isTable (L := L) hi
    rw [newKernelPageTables_table hic]
    have he : kernelPde L m i ||| tableOf L i<2^32 := or_lt_two_pow (entryAt_lt _ _ _) hb
    have ha : pteGetPaddr (kernelPde L m i ||| tableOf L i)=tableOf L i := by
      have htab : pteGetPaddr (tableOf L i)=tableOf L i := by rw [pteGetPaddr_eq hb,maskToPage_of_aligned hal]
      rw [pteGetPaddr,and_or_distrib_right]
      rw [pteGetPaddr] at hnl htab
      rw [hnl,htab]
      exact zero_or _
    exact ⟨advances_store hi he (fun h=>isUser_or h (isUser_of_aligned hal))
        (fun _ h=>isGlobal_or h (isGlobal_of_aligned hal)) (.inr ⟨hnl,ha⟩),
      by rwa [kernelPde_store_self he,ha]⟩
  · next hne => exact ⟨.refl m,hne⟩
end

section

/-- The entry carries the given flags. -/
def Marked (L : Layout) (m : Mem) (f i : ℕ) : Prop := kernelPde L m i ||| f=kernelPde L m i

theorem kernelPde_mark (m : Mem) (v : ℕ) (hf : flags<pageSize) (j : ℕ) : kernelPde L (mark L m v flags) j =
      if j=getPdIndex (maskToPage v) then kernelPde L m j ||| flags else kernelPde L m j := by
  rw [mark,load_newKernelPd]
  split
  · next hj =>
    rw [hj,kernelPde_store_self (pteGetPaddr_or (entryAt_lt _ _ _) hf).1]
  · next hj => exact kernelPde_store_ne hj

theorem mark_marks (m : Mem) (v : ℕ) (hf : flags<pageSize) :
    Marked L (mark L m v flags) flags (getPdIndex (maskToPage v)) := by
  rw [Marked,kernelPde_mark m v hf,if_pos rfl,Nat.or_assoc,Nat.or_self]

theorem Marked.mark (h : Marked L m f i) (v : ℕ) (hf : flags<pageSize) : Marked L (mark L m v flags) f i := by
  rw [Marked,kernelPde_mark m v hf]
  split
  · rw [Nat.or_assoc,Nat.or_comm flags f,← Nat.or_assoc,h]
  · exact h

theorem Marked.markRegionObject (h : Marked L m f i) (hr : r ∈ L.vmMap) :
    Marked L (markRegionObject L m r pageBitPresent) f i :=
  foldRange_invariant (I := fun _ m=>Marked L m f i) h
    (fun _ _ _ hm=>hm.mark _ (or_present_lt (vmMap_bounds hr).2.1.1))

theorem markRegion_marks (m : Mem) (hf : flags<pageSize) (hk : k<pageSteps vfrom vto) :
    Marked L (markRegion L m vfrom vto flags) flags (getPdIndex (maskToPage (vfrom+pageSize*k))) := by
  refine foldRange_invariant (I := fun n m=>∀ k<n,
    Marked L m flags (getPdIndex (maskToPage (vfrom+pageSize*k)))) (by simp) ?_ k hk
  intro n m' _ hm j hj
  rcases Nat.lt_succ_iff_lt_or_eq.mp hj with hj | rfl
  · exact (hm j hj).mark _ hf
  · exact mark_marks m' _ hf

theorem markRegions_marks (m : Mem) (hr : r ∈ L.vmMap) (hv : r.containsV v=true) :
    Marked L (L.vmMap.foldl (fun m r=>markRegionObject L m r pageBitPresent) m)
      (r.pflags ||| pageBitPresent) (getPdIndex (maskToPage v)) := by
  obtain ⟨hlo,hhi⟩ := of_decide_eq_true hv
  have hal := (vmMap_aligned hr).1
  have hc := numerals
  rw [hc.1] at hal
  obtain ⟨k,hk,hkv⟩ : ∃ k<pageSteps r.vbase (r.vbase+r.size),
      maskToPage v=maskToPage (r.vbase+pageSize*k) := by
    refine ⟨(v-r.vbase)/pageSize,?_,?_⟩
    · rw [pageSteps,hc.1]
      omega
    · rw [maskToPage,maskToPage,hc.1]
      omega
  obtain ⟨before,after,hsp⟩ := append_of_mem hr
  have hset := fun m=>markRegion_marks (L := L) m (or_present_lt (vmMap_bounds hr).2.1.1) hk
  rw [hsp,foldl_append,foldl_cons,markRegionObject,hkv]
  refine List.foldlRecOn (motive := fun m=>Marked L m (r.pflags ||| pageBitPresent)
    (getPdIndex (maskToPage (r.vbase+pageSize*k)))) after _ (hset _) (fun m' hm r' hr'=>?_)
  exact hm.markRegionObject (by rw [hsp]; simp [hr'])

theorem markRegions_dynamic (m : Mem) (hv : L.memBreak≤v) (hv' : v<0xFE000000) :
    Marked L (L.vmMap.foldl (fun m r=>markRegionObject L m r pageBitPresent) m)
      (pageBitRw ||| pageBitGlobal ||| pageBitPresent) (getPdIndex (maskToPage v)) :=
  markRegions_marks m (by simp [Layout.vmMap]) (Layout.dynamicRegion_containsV.mpr ⟨hv,hv'⟩)
end

theorem earlyInitKernelPaging_kernelTables (h0 : ∀ x, InKernelTables L x → m x=0) :
    KernelTables L (earlyInitKernelPaging L m) := by
  have hwr : ∀ w<0x100400, entryAt m L.physKernelPd w=0 := fun w hw =>
    load_zero (fun x hx hx'=>h0 x ⟨by omega,by omega⟩)
  have hst : Started L m := fun i hi =>
    .inl (by rw [kernelPde,hwr i (hi.trans (by decide))]; exact pteGetPaddr_zero)
  have hs0 : UserPart L m ∧ Supervisor L m := by
    refine ⟨fun i hi=>?_,fun w hw=>?_⟩
    · rw [kernelPde,hwr i (hi.trans (by decide))]
      decide
    · rw [hwr w hw]
      decide
  rw [earlyInitKernelPaging]
  have hadv1 := foldl_map_advances (L := L) (fun r=>r.isStatic && r.isExecutable) m
  have h1 := hst.advance hadv1
  have hs1 := And.intro (hadv1.user hs0.1) (hadv1.supervisor hs0.2)
  generalize L.vmMap.foldl (fun m r=>if r.isStatic && r.isExecutable then
    mapRegionObject L m r else m) m=m1 at *
  obtain ⟨hadv,hsl⟩ := addSelfRef_advances h1
  have h2 := h1.advance hadv
  have hs2 := And.intro (hadv.user hs1.1) (hadv.supervisor hs1.2)
  generalize addSelfRef L m1 currentPdIndex 0=m2 at *
  have hadv' := foldl_map_advances (L := L) (fun r=>r.isStatic && !r.isExecutable) m2
  have h3 := h2.advance hadv'
  have hs3 := And.intro (hadv'.user hs2.1) (hadv'.supervisor hs2.2)
  have hsl' := hadv'.ne_null (by decide) hsl
  generalize L.vmMap.foldl (fun m r=>if r.isStatic && !r.isExecutable then
    mapRegionObject L m r else m) m2=m3 at *
  have hfl : Started L (foldRange pdLength (fillTable L) m3) ∧
      (UserPart L (foldRange pdLength (fillTable L) m3) ∧
        Supervisor L (foldRange pdLength (fillTable L) m3)) ∧
      pteGetPaddr (kernelPde L (foldRange pdLength (fillTable L) m3) currentPdIndex)≠physNull ∧
      ∀ i<pdLength, pteGetPaddr (kernelPde L (foldRange pdLength (fillTable L) m3) i)≠physNull := by
    refine foldRange_invariant (I := fun k m=>Started L m ∧ (UserPart L m ∧ Supervisor L m) ∧
      pteGetPaddr (kernelPde L m currentPdIndex)≠physNull ∧
      ∀ i<k, pteGetPaddr (kernelPde L m i)≠physNull) ⟨h3,hs3,hsl',by simp⟩ ?_
    rintro k m' hk ⟨hs,hsup,hsl,hdn⟩
    obtain ⟨ha,hne⟩ := fillTable_advances (L := L) hk hsl
    refine ⟨hs.advance ha,⟨ha.user hsup.1,ha.supervisor hsup.2⟩,ha.ne_null (by decide) hsl,fun i hi=>?_⟩
    rcases Nat.lt_succ_iff_lt_or_eq.mp hi with hik | rfl
    · exact ha.ne_null (hik.trans hk) (hdn i hik)
    · exact hne
  generalize foldRange pdLength (fillTable L) m3=m4 at *
  obtain ⟨h4,hs4,-,hall⟩ := hfl
  have hmr := List.foldlRecOn (motive := Advances L m4) L.vmMap _ (.refl m4)
      (fun m' hm r hr=>hm.trans (markRegionObject_advances hr m'))
  refine ⟨fun i hi=>?_,fun v hv hv'=>markRegions_dynamic m4 hv hv',hmr.user hs4.1,hmr.supervisor hs4.2⟩
  exact ((h4.advance hmr) i hi).resolve_left (hmr.ne_null hi (hall i hi))

end Yaos2.Memory
