import Mathlib.Tactic

/-! # Layout of the virtual and physical memory

A `Layout` is an assignment of the linker symbols together with what the linker script and the
boot-time assertions guarantee about it. The order of the region table matters: the dynamic region
claims physical addresses from zero on. -/
namespace Yaos2.Memory

open Nat

def pageSize : ℕ := 4096
def physNull : ℕ := 0
/-- `KM_VIRT_BASE`, where physical address zero is visible to the kernel. -/
def kmVirtBase : ℕ := 0xC0000000
def kmExecVirtBase : ℕ := 0xC0100000
def kmDevVirtBase : ℕ := 0xFE000000
def kmDevVirtEnd : ℕ := 0xFFC00000
def kmPhysApEntryBase : ℕ := 0x00008000

def pageBitPresent : ℕ := 0x001
def pageBitRw : ℕ := 0x002
def pageBitUser : ℕ := 0x004
def pageBitGlobal : ℕ := 0x100

def vmBitStatic : ℕ := 0x01
def vmBitExecutable : ℕ := 0x02

def maskToPage (x : ℕ) : ℕ := x/pageSize*pageSize
/-- `align_to_next_page`, with the addition on 32-bit addresses. -/
def alignToNextPage (x : ℕ) : ℕ := maskToPage ((x+(pageSize-1))%2^32)
def isAlignedToPageSize (x : ℕ) : Bool := x == maskToPage x

theorem maskToPage_le (x : ℕ) : maskToPage x≤x := div_mul_le_self x pageSize

theorem lt_maskToPage_add (x : ℕ) : x < maskToPage x+pageSize := by
  simp only [maskToPage,pageSize]
  omega

theorem maskToPage_of_aligned (h : x%pageSize=0) : maskToPage x=x := by
  simp only [maskToPage,pageSize] at *
  omega

theorem maskToPage_mod (x : ℕ) : maskToPage x%pageSize=0 := mul_mod_left _ _

theorem maskToPage_eq (hp : p%pageSize=0) (h : p≤x) (h' : x<p+pageSize) : maskToPage x=p := by
  simp only [maskToPage,pageSize] at *
  omega

theorem isAlignedToPageSize_iff (x : ℕ) : isAlignedToPageSize x=true ↔ x%pageSize=0 := by
  simp only [isAlignedToPageSize,beq_iff_eq,maskToPage,pageSize]
  omega

structure VmRegion where
  vbase : ℕ
  pbase : ℕ
  size : ℕ
  flags : ℕ
  pflags : ℕ
  deriving DecidableEq, Repr

def VmRegion.containsV (r : VmRegion) (v : ℕ) : Bool := decide (r.vbase≤v ∧ v<r.vbase+r.size)
def VmRegion.containsP (r : VmRegion) (p : ℕ) : Bool := decide (r.pbase≤p ∧ p<r.pbase+r.size)
def VmRegion.isStatic (r : VmRegion) : Bool := r.flags &&& vmBitStatic != 0
def VmRegion.isExecutable (r : VmRegion) : Bool := r.flags &&& vmBitExecutable != 0

/-- The linker symbols, in the section order of `multiboot.ld`. -/
structure Layout where
  bootStackTop : ℕ
  bootStackBottom : ℕ
  apEntryBegin : ℕ
  apEntryEnd : ℕ
  roEnd : ℕ
  rwBegin : ℕ
  kernelPd : ℕ
  rwEnd : ℕ
  memBreak : ℕ
  top_aligned : bootStackTop%pageSize=0
  bottom_aligned : bootStackBottom%pageSize=0
  apBegin_aligned : apEntryBegin%pageSize=0
  apEnd_aligned : apEntryEnd%pageSize=0
  roEnd_aligned : roEnd%pageSize=0
  rwBegin_aligned : rwBegin%pageSize=0
  pd_aligned : kernelPd%pageSize=0
  rwEnd_aligned : rwEnd%pageSize=0
  break_aligned : memBreak%0x400000=0
  top_ge : kmExecVirtBase≤bootStackTop
  bottom_ge : bootStackTop≤bootStackBottom
  apBegin_ge : bootStackBottom≤apEntryBegin
  apEnd_ge : apEntryBegin≤apEntryEnd
  roEnd_ge : apEntryEnd≤roEnd
  rwBegin_ge : roEnd≤rwBegin
  pd_ge : rwBegin≤kernelPd
  rwEnd_ge : kernelPd+pageSize+0x400000≤rwEnd
  break_ge : rwEnd ≤ memBreak
  break_lt : memBreak<kmDevVirtBase

theorem numerals : pageSize=4096 ∧ kmVirtBase=0xC0000000 ∧ kmExecVirtBase=0xC0100000 ∧
    kmDevVirtBase=0xFE000000 ∧ kmDevVirtEnd=0xFFC00000 ∧ kmPhysApEntryBase=0x8000 :=
  ⟨rfl,rfl,rfl,rfl,rfl,rfl⟩

namespace Layout
variable (L : Layout)

def kmPaddr (v : ℕ) : ℕ := v-kmVirtBase

/-- `__kernel_page_tables`, the 4 MiB after the page directory. -/
def kernelPageTables : ℕ := L.kernelPd+pageSize
def physKernelPd : ℕ := kmPaddr L.kernelPd
def physPageTables : ℕ := kmPaddr L.kernelPageTables
def kmFreePhysBase : ℕ := kmPaddr L.memBreak
def kmPhysApEntryEnd : ℕ := kmPhysApEntryBase+(L.apEntryEnd-L.apEntryBegin)

def lowRegion : VmRegion :=
  ⟨kmVirtBase,kmPaddr kmVirtBase,kmPaddr kmExecVirtBase-kmPaddr kmVirtBase,vmBitStatic,pageBitRw⟩

def roRegion : VmRegion := ⟨kmExecVirtBase,kmPaddr kmExecVirtBase,L.bootStackTop-kmExecVirtBase,
    vmBitExecutable ||| vmBitStatic,pageBitGlobal⟩

def bootStackRegion : VmRegion := ⟨L.bootStackTop,kmPaddr L.bootStackTop,L.bootStackBottom-L.bootStackTop,
    vmBitExecutable ||| vmBitStatic,pageBitRw ||| pageBitGlobal⟩

def roTailRegion : VmRegion := ⟨L.bootStackBottom,kmPaddr L.bootStackBottom,L.roEnd-L.bootStackBottom,
    vmBitExecutable ||| vmBitStatic,pageBitGlobal⟩

def rwRegion : VmRegion := ⟨L.rwBegin,kmPaddr L.rwBegin,kmPaddr L.rwEnd-kmPaddr L.rwBegin,
    vmBitExecutable ||| vmBitStatic,pageBitRw ||| pageBitGlobal⟩

/-- `vm_map[VM_PALLOC_REGION]`: free physical memory, visible at its own addresses. -/
def pallocRegion : VmRegion :=
  ⟨L.kmFreePhysBase,L.kmFreePhysBase,kmVirtBase-L.kmFreePhysBase,vmBitStatic,pageBitRw⟩

/-- `vm_map[VM_DYNAMIC_REGION]`: the kernel heap. Its physical base is `PHYS_NULL`. -/
def dynamicRegion : VmRegion := ⟨L.memBreak,physNull,kmDevVirtBase-L.memBreak,0,pageBitRw ||| pageBitGlobal⟩

def devRegion : VmRegion :=
  ⟨kmDevVirtBase,kmDevVirtBase,kmDevVirtEnd-kmDevVirtBase,vmBitStatic,pageBitRw ||| pageBitGlobal⟩

def apEntryRegion : VmRegion :=
  ⟨kmPhysApEntryBase,kmPhysApEntryBase,L.kmPhysApEntryEnd-kmPhysApEntryBase,vmBitStatic,pageBitRw⟩

/-- The table `create_vm_map` fills in. -/
def vmMap : List VmRegion :=
  [lowRegion, L.roRegion, L.bootStackRegion, L.roTailRegion, L.rwRegion, L.pallocRegion,
    L.dynamicRegion, devRegion, L.apEntryRegion]

def getRegionV (v : ℕ) : Option VmRegion := L.vmMap.find? (fun r=>r.containsV v)
def getRegionP (p : ℕ) : Option VmRegion := L.vmMap.find? (fun r=>r.containsP p)

/-- `vm_map_walk(p, false)`; the null pointer is zero. -/
def vmMapWalk (p : ℕ) : ℕ :=
  match L.getRegionP p with
  | some r => r.vbase+(p-r.pbase)
  | none => 0

/-- `vm_map_rev_walk(v, false)`. -/
def vmMapRevWalk (v : ℕ) : ℕ :=
  match L.getRegionV v with
  | some r => r.pbase+(v-r.vbase)
  | none => physNull

def vmIsStaticP (p : ℕ) : Bool :=
  match L.getRegionP p with
  | some r => r.isStatic
  | none => false

def vmGetPflags (v : ℕ) : ℕ :=
  match L.getRegionV v with
  | some r => r.pflags
  | none => 0

/-- The byte that a kernel pointer into a static region names. Other pointers fault. -/
def physOf (v : ℕ) : Option ℕ :=
  match L.getRegionV v with
  | some r => if r.isStatic then some (r.pbase+(v-r.vbase)) else none
  | none => none

/-- The byte a kernel pointer names in a write. `CR0.WP` is set at boot. -/
def physOfW (v : ℕ) : Option ℕ := if L.vmGetPflags v &&& pageBitRw != 0 then L.physOf v else none

theorem order : 0xC0100000≤L.bootStackTop ∧ L.bootStackTop≤L.bootStackBottom ∧
    L.bootStackBottom≤L.apEntryBegin ∧ L.apEntryBegin≤L.apEntryEnd ∧ L.apEntryEnd≤L.roEnd ∧
    L.roEnd≤L.rwBegin ∧ L.rwBegin≤L.kernelPd ∧ L.kernelPd+0x401000≤L.rwEnd ∧
    L.rwEnd≤L.memBreak ∧ L.memBreak<0xFE000000 := by
  have hc := numerals
  have h1 := L.top_ge
  have h2 := L.rwEnd_ge
  have h3 := L.break_lt
  refine ⟨by omega,L.bottom_ge,L.apBegin_ge,L.apEnd_ge,L.roEnd_ge,L.rwBegin_ge,L.pd_ge,
    by omega,L.break_ge,by omega⟩

theorem kmFreePhysBase_eq : L.kmFreePhysBase=L.memBreak-0xC0000000 := rfl

theorem kmFreePhysBase_bounds : 0x500000≤L.kmFreePhysBase ∧ L.kmFreePhysBase<0x3E000000 := by
  have ho := L.order
  have hb := L.kmFreePhysBase_eq
  omega

theorem vmMap_eq : L.vmMap=[⟨0xC0000000,0,0x100000,1,2⟩,
    ⟨0xC0100000,0x100000,L.bootStackTop-0xC0100000,3,0x100⟩,
    ⟨L.bootStackTop,L.bootStackTop-0xC0000000,L.bootStackBottom-L.bootStackTop,3,0x102⟩,
    ⟨L.bootStackBottom,L.bootStackBottom-0xC0000000,L.roEnd-L.bootStackBottom,3,0x100⟩,
    ⟨L.rwBegin,L.rwBegin-0xC0000000,L.rwEnd-0xC0000000-(L.rwBegin-0xC0000000),3,0x102⟩,
    ⟨L.memBreak-0xC0000000,L.memBreak-0xC0000000,0xC0000000-(L.memBreak-0xC0000000),1,2⟩,
    ⟨L.memBreak,0,0xFE000000-L.memBreak,0,0x102⟩, ⟨0xFE000000,0xFE000000,0x1C00000,1,0x102⟩,
    ⟨0x8000,0x8000,0x8000+(L.apEntryEnd-L.apEntryBegin)-0x8000,1,2⟩] :=
  rfl

def InImage (L : Layout) (p : ℕ) : Prop :=
  p+0xC0000000<L.roEnd ∨ L.rwBegin≤p+0xC0000000 ∧ p+0xC0000000<L.rwEnd

def InIdentity (L : Layout) (p : ℕ) : Prop := L.kmFreePhysBase≤p ∧ p<0xC0000000 ∨ 0xFE000000≤p ∧ p<0xFFC00000

section
variable {L} {v p : ℕ} {r r' : VmRegion}

theorem containsV_iff : r.containsV v=true ↔ r.vbase≤v ∧ v<r.vbase+r.size := decide_eq_true_iff
theorem containsP_iff : r.containsP p=true ↔ r.pbase≤p ∧ p<r.pbase+r.size := decide_eq_true_iff

theorem pallocRegion_containsP : L.pallocRegion.containsP p=true ↔ L.kmFreePhysBase≤p ∧ p<0xC0000000 := by
  rw [containsP_iff]
  change L.kmFreePhysBase≤p ∧ p<L.kmFreePhysBase+(0xC0000000-L.kmFreePhysBase) ↔ _
  have hb := L.kmFreePhysBase_bounds
  omega

theorem dynamicRegion_containsV : L.dynamicRegion.containsV v=true ↔ L.memBreak≤v ∧ v<0xFE000000 := by
  rw [containsV_iff]
  change L.memBreak≤v ∧ v<L.memBreak+(0xFE000000-L.memBreak) ↔ _
  have ho := L.order
  omega

theorem dynamicRegion_containsP : L.dynamicRegion.containsP p=true ↔ p+L.memBreak<0xFE000000 := by
  rw [containsP_iff]
  change 0≤p ∧ p<0+(0xFE000000-L.memBreak) ↔ _
  omega

theorem devRegion_containsP : devRegion.containsP p=true ↔ 0xFE000000≤p ∧ p<0xFFC00000 := containsP_iff

theorem vmMap_disjoint (hr : r ∈ L.vmMap) (hr' : r' ∈ L.vmMap) (hv : r.containsV v=true)
    (hv' : r'.containsV v=true) : r'=r := by
  have ho := L.order
  have hpr : L.vmMap.Pairwise fun r r'=>r.vbase+r.size≤r'.vbase ∨ r'.vbase+r'.size≤r.vbase := by
    simp only [vmMap_eq,List.pairwise_cons,List.forall_mem_cons,List.not_mem_nil,List.Pairwise.nil,
      false_imp_iff,implies_true,and_true]
    omega
  by_contra hne
  have : Std.Symm fun r r' : VmRegion=>r.vbase+r.size≤r'.vbase ∨ r'.vbase+r'.size≤r.vbase :=
    ⟨fun _ _=>Or.symm⟩
  have hor := hpr.forall hr hr' (Ne.symm hne)
  rw [containsV_iff] at hv hv'
  omega

theorem getRegionV_of_mem (hr : r ∈ L.vmMap) (hv : r.containsV v=true) : L.getRegionV v=some r := by
  have hs : (L.getRegionV v).isSome=true := List.find?_isSome.mpr ⟨r,hr,hv⟩
  obtain ⟨r',hr'⟩ := Option.isSome_iff_exists.mp hs
  rw [getRegionV] at hr' ⊢
  have hv' := List.find?_some hr'
  rw [hr',vmMap_disjoint hr (List.mem_of_find?_eq_some hr') hv hv']

theorem getRegionP_mem (h : L.getRegionP p=some r) : r ∈ L.vmMap ∧ r.containsP p=true := by
  rw [getRegionP] at h
  have hp := List.find?_some h
  exact ⟨List.mem_of_find?_eq_some h,hp⟩

theorem physOf_of_region (hr : r ∈ L.vmMap) (hs : r.isStatic=true) (hv : r.containsV v=true) :
    L.physOf v=some (r.pbase+(v-r.vbase)) := by
  simp [physOf,getRegionV_of_mem hr hv,hs]

theorem vmGetPflags_of_region (hr : r ∈ L.vmMap) (hv : r.containsV v=true) : L.vmGetPflags v=r.pflags := by
  rw [vmGetPflags,getRegionV_of_mem hr hv]

theorem vmGetPflags_dynamic (h : L.memBreak≤v) (h' : v<0xFE000000) :
    L.vmGetPflags v=pageBitRw ||| pageBitGlobal :=
  vmGetPflags_of_region (r := L.dynamicRegion) (by simp [vmMap]) (dynamicRegion_containsV.mpr ⟨h,h'⟩)

theorem mem_take (hr : r ∈ L.vmMap.take 5) :
    r.isStatic=true ∧ r.vbase=r.pbase+0xC0000000 ∧ (r.containsP p=true → L.InImage p) := by
  have ho := L.order
  simp only [vmMap_eq,List.take_succ_cons,List.take_zero,List.mem_cons,List.not_mem_nil,or_false] at hr
  rw [containsP_iff,InImage]
  rcases hr with rfl | rfl | rfl | rfl | rfl <;> refine ⟨by simp [VmRegion.isStatic,vmBitStatic],?_⟩ <;> dsimp only <;> omega

theorem exists_mem_take (h : L.InImage p) : ∃ r ∈ L.vmMap.take 5, r.containsP p=true := by
  have ho := L.order
  rw [InImage] at h
  simp only [vmMap_eq,List.take_succ_cons,List.take_zero,List.exists_mem_cons_iff,List.not_mem_nil,containsP_iff,
    false_and,exists_false,or_false]
  omega

theorem getRegionP_image (h : L.InImage p) : ∃ r ∈ L.vmMap, L.getRegionP p=some r ∧ r.isStatic=true ∧
    r.containsP p=true ∧ r.vbase=r.pbase+0xC0000000 := by
  obtain ⟨r,hr⟩ := Option.isSome_iff_exists.mp (List.find?_isSome.mpr (exists_mem_take h))
  have hp := List.find?_some hr
  have hmem := List.mem_of_find?_eq_some hr
  have hf : L.getRegionP p=some r := by
    rw [getRegionP,← List.take_append_drop 5 L.vmMap,List.find?_append,hr,Option.some_or]
  exact ⟨r,List.mem_of_mem_take hmem,hf,(mem_take (p := p) hmem).1,hp,(mem_take (p := p) hmem).2.1⟩

theorem getRegionP_outside (h : ¬ L.InImage p) : L.getRegionP p =
    if L.kmFreePhysBase≤p ∧ p<0xC0000000 then some L.pallocRegion
    else if p+L.memBreak<0xFE000000 then some L.dynamicRegion
    else if 0xFE000000≤p ∧ p<0xFFC00000 then some devRegion else none := by
  have ho := L.order
  have hnn := List.find?_eq_none.mpr fun r hr hp=>h ((mem_take hr).2.2 hp)
  rw [getRegionP,← List.take_append_drop 5 L.vmMap,List.find?_append,hnn,Option.none_or]
  change [L.pallocRegion, L.dynamicRegion, devRegion, L.apEntryRegion].find? _=_
  by_cases hf : L.kmFreePhysBase≤p ∧ p<0xC0000000
  · rw [if_pos hf,List.find?_cons_of_pos (by rwa [pallocRegion_containsP])]
  by_cases hd : p+L.memBreak<0xFE000000
  · rw [if_neg hf,if_pos hd,List.find?_cons_of_neg (by rwa [pallocRegion_containsP]),
      List.find?_cons_of_pos (by rwa [dynamicRegion_containsP])]
  rw [if_neg hf,if_neg hd,List.find?_cons_of_neg (by rwa [pallocRegion_containsP]),
    List.find?_cons_of_neg (by rwa [dynamicRegion_containsP])]
  by_cases hv : 0xFE000000≤p ∧ p<0xFFC00000
  · rw [if_pos hv,List.find?_cons_of_pos (by rwa [devRegion_containsP])]
  have hap : ¬ L.apEntryRegion.containsP p=true := by
    rw [containsP_iff]
    change ¬ (0x8000≤p ∧ p<0x8000+(0x8000+(L.apEntryEnd-L.apEntryBegin)-0x8000))
    rw [InImage] at h
    omega
  rw [if_neg hv,List.find?_cons_of_neg (by rwa [devRegion_containsP]),List.find?_cons_of_neg (by exact hap),List.find?_nil]

theorem vmMapWalk_image (h : L.InImage p) : L.vmMapWalk p=p+0xC0000000 := by
  obtain ⟨r,-,hr,-,hp,hv⟩ := getRegionP_image h
  rw [containsP_iff] at hp
  simp only [vmMapWalk,hr]
  omega

theorem vmIsStaticP_image (h : L.InImage p) : L.vmIsStaticP p=true := by
  obtain ⟨r,-,hr,hs,-⟩ := getRegionP_image h
  simp only [vmIsStaticP,hr,hs]

theorem InIdentity.outside (h : L.InIdentity p) : ¬ L.InImage p := by
  have ho := L.order
  have hb := L.kmFreePhysBase_eq
  rw [InIdentity] at h
  rw [InImage]
  omega

theorem getRegionP_identity (h : L.InIdentity p) : ∃ r ∈ L.vmMap, L.getRegionP p=some r ∧ r.isStatic=true ∧
    r.containsP p=true ∧ r.vbase=r.pbase := by
  have ho := L.order
  have hb := L.kmFreePhysBase_eq
  rw [getRegionP_outside h.outside]
  rw [InIdentity] at h
  by_cases hf : L.kmFreePhysBase≤p ∧ p<0xC0000000
  · exact ⟨L.pallocRegion,by simp [vmMap],if_pos hf,by simp [pallocRegion,VmRegion.isStatic,vmBitStatic],
      pallocRegion_containsP.mpr hf,rfl⟩
  · have hv := h.resolve_left hf
    rw [if_neg hf,if_neg (by omega),if_pos hv]
    exact ⟨devRegion,by simp [vmMap],rfl,by decide,devRegion_containsP.mpr hv,rfl⟩

theorem vmMapWalk_identity (h : L.InIdentity p) : L.vmMapWalk p=p := by
  obtain ⟨r,-,hr,-,hp,hv⟩ := getRegionP_identity h
  rw [containsP_iff] at hp
  simp only [vmMapWalk,hr]
  omega

theorem vmMapWalk_palloc (h : L.kmFreePhysBase≤p) (h' : p<0xC0000000) : L.vmMapWalk p=p :=
  vmMapWalk_identity (.inl ⟨h,h'⟩)

theorem vmIsStaticP_palloc (h : L.kmFreePhysBase≤p) (h' : p<0xC0000000) : L.vmIsStaticP p=true := by
  obtain ⟨r,-,hr,hs,-⟩ := getRegionP_identity (.inl ⟨h,h'⟩)
  simp only [vmIsStaticP,hr,hs]

theorem inImage_or_inIdentity (h : L.vmIsStaticP p=true) : L.InImage p ∨ L.InIdentity p := by
  by_cases hi : L.InImage p
  · exact .inl hi
  rw [vmIsStaticP,getRegionP_outside hi] at h
  right
  split_ifs at h with hf hd hv
  · exact .inl hf
  · exact absurd h (by simp [dynamicRegion,VmRegion.isStatic])
  · exact .inr hv

theorem InImage.physOf (h : L.InImage p) : L.physOf (p+0xC0000000)=some p := by
  obtain ⟨r,hr,-,hs,hp,hv⟩ := getRegionP_image h
  rw [containsP_iff] at hp
  rw [physOf_of_region hr hs (containsV_iff.mpr (by omega))]
  exact congrArg some (by omega)

theorem InIdentity.physOf (h : L.InIdentity p) : L.physOf p=some p := by
  obtain ⟨r,hr,-,hs,hp,hv⟩ := getRegionP_identity h
  rw [containsP_iff] at hp
  rw [physOf_of_region hr hs (containsV_iff.mpr (by omega))]
  exact congrArg some (by omega)

theorem physOf_palloc (h : L.kmFreePhysBase≤v) (h' : v<0xC0000000) : L.physOf v=some v :=
  InIdentity.physOf (.inl ⟨h,h'⟩)

theorem physOfW_null (h : v<0x1000) : L.physOfW v=none := by
  have ho := L.order
  have hn : L.getRegionV v=none := by
    refine List.find?_eq_none.mpr ?_
    simp only [vmMap_eq,List.forall_mem_cons,containsV_iff,List.not_mem_nil,false_imp_iff,implies_true,and_true]
    omega
  simp [physOfW,physOf,hn]

theorem physOfW_of_region (hr : r ∈ L.vmMap) (hv : r.containsV v=true) (hw : r.pflags &&& pageBitRw != 0) :
    L.physOfW v=L.physOf v := by
  rw [physOfW,vmGetPflags_of_region hr hv,if_pos hw]

theorem physOfW_palloc (h : L.kmFreePhysBase≤v) (h' : v<0xC0000000) : L.physOfW v=some v :=
  (physOfW_of_region (r := L.pallocRegion) (by simp [vmMap]) (pallocRegion_containsP.mpr ⟨h,h'⟩) (by
    simp [pallocRegion,pageBitRw])).trans (physOf_palloc h h')

theorem physOfW_rw (h : L.rwBegin≤v) (h' : v<L.rwEnd) : L.physOfW v=some (v-0xC0000000) := by
  have ho := L.order
  have hin : L.rwRegion.containsV v=true := by
    rw [containsV_iff]
    change L.rwBegin≤v ∧ v<L.rwBegin+(L.rwEnd-0xC0000000-(L.rwBegin-0xC0000000))
    omega
  have hv : v=v-0xC0000000+0xC0000000 := by omega
  rw [physOfW_of_region (by simp [vmMap]) hin (by simp [rwRegion,pageBitRw,pageBitGlobal])]
  nth_rewrite 1 [hv]
  exact InImage.physOf (.inr (by omega))

theorem physOfW_low (h : 0xC0000000≤v) (h' : v<0xC0100000) : L.physOfW v=some (v-0xC0000000) := by
  have ho := L.order
  have hin : lowRegion.containsV v=true := containsV_iff.mpr ⟨h,h'⟩
  have hv : v=v-0xC0000000+0xC0000000 := by omega
  rw [physOfW_of_region (by simp [vmMap]) hin (by decide)]
  nth_rewrite 1 [hv]
  exact InImage.physOf (.inl (by omega))

theorem InImage.page (h : L.InImage p) (hp : p%pageSize=0) (ho : o<pageSize) : L.InImage (p+o) := by
  have hr := L.roEnd_aligned
  have hw := L.rwEnd_aligned
  simp only [InImage,pageSize] at *
  omega

theorem InIdentity.page (h : L.InIdentity p) (hp : p%pageSize=0) (ho : o<pageSize) :
    L.InIdentity (p+o) := by
  simp only [InIdentity,pageSize] at *
  omega

theorem physOf_vmMapWalk (h : L.vmIsStaticP p=true) (hp : p%pageSize=0)
    (ho : o<pageSize) : L.physOf (L.vmMapWalk p+o)=some (p+o) := by
  rcases inImage_or_inIdentity h with hi | hi
  · rw [vmMapWalk_image hi,Nat.add_right_comm]
    exact (hi.page hp ho).physOf
  · rw [vmMapWalk_identity hi]
    exact (hi.page hp ho).physOf
end

/-- An image of 7 MiB with a boot stack of four pages. -/
def smallImage : Layout where
  bootStackTop := 0xC0101000
  bootStackBottom := 0xC0105000
  apEntryBegin := 0xC0106000
  apEntryEnd := 0xC0108000
  roEnd := 0xC0110000
  rwBegin := 0xC0110000
  kernelPd := 0xC0200000
  rwEnd := 0xC0601000
  memBreak := 0xC0800000
  top_aligned := by decide
  bottom_aligned := by decide
  apBegin_aligned := by decide
  apEnd_aligned := by decide
  roEnd_aligned := by decide
  rwBegin_aligned := by decide
  pd_aligned := by decide
  rwEnd_aligned := by decide
  break_aligned := by decide
  top_ge := by decide
  bottom_ge := by decide
  apBegin_ge := by decide
  apEnd_ge := by decide
  roEnd_ge := by decide
  rwBegin_ge := by decide
  pd_ge := by decide
  rwEnd_ge := by decide
  break_ge := by decide
  break_lt := by decide
end Layout
end Yaos2.Memory
