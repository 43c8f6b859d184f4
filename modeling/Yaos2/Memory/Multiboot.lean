import Yaos2.Memory.Palloc

/-! # The boot loader's memory map

Addresses and lengths of 64 bits are rounded to pages after they have been cut to 32 bits. -/
namespace Yaos2.Memory
open Foundation List Nat

variable (L : Layout)

/-- An entry of the memory map. The fields `addr` and `len` have 64 bits. -/
structure MmapEntry where
  size : ℕ
  addr : ℕ
  len : ℕ
  type : ℕ
  deriving DecidableEq, Repr

/-- The part of `struct multiboot_info` that is used. -/
structure MultibootInfo where
  flags : ℕ
  mmapLength : ℕ
  mmapAddr : ℕ
  deriving DecidableEq, Repr

def multibootBootloaderMagic : ℕ := 0x2BADB002
def multibootMemoryAvailable : ℕ := 1

/-- The texts for the debug output. -/
def mbMmapTypeTexts : List String := ["invalid", "available", "reserved", "acpi", "nvs", "badram"]

/-! Field offsets of `struct multiboot_mmap_entry`, which is packed. -/
def mmapSizeOff : ℕ := 0
def mmapAddrOff : ℕ := 4
def mmapLenOff : ℕ := 12
def mmapTypeOff : ℕ := 20

def MmapEntry.region (e : MmapEntry) : ℕ × ℕ := (alignToNextPage e.addr, maskToPage ((e.addr+e.len)%2^32))

def kmVaddr (p : ℕ) : ℕ := (kmVirtBase+p)%2^32

/-- The addresses of an available entry are rounded to pages and handed to the allocator. -/
def handOver (cur type : ℕ) : Kernel Unit := do
  if type=multibootMemoryAvailable then
    let addr ← readPtr L (cur+mmapAddrOff) 8
    let len ← readPtr L (cur+mmapLenOff) 8
    pallocAddFreeRegion L (alignToNextPage addr) (maskToPage ((addr+len)%2^32))

/-- The loop over the entries. A type without a text is looked up past the end of the array. -/
def walkMmapLoop (max : ℕ) : ℕ → ℕ → Kernel Unit
  | 0, _ => abort "endless loop"
  | fuel+1, cur => do
    if cur < max then
      let type ← readPtr L (cur+mmapTypeOff) 4
      panicIf (mbMmapTypeTexts.length≤type) "index out of bounds"
      handOver L cur type
      let size ← readPtr L (cur+mmapSizeOff) 4
      walkMmapLoop max fuel ((cur+size+4)%2^32)

def walkMmap (info : MultibootInfo) : Kernel Unit :=
  walkMmapLoop L (kmVaddr (info.mmapAddr+info.mmapLength)) (info.mmapLength+1) (kmVaddr info.mmapAddr)

/-- The part of the initialization before `generic_x86_init`. -/
def multibootX86Init (info : MultibootInfo) (magic : ℕ) : Kernel Unit := do
  kassert "magic == MULTIBOOT_BOOTLOADER_MAGIC" (magic == multibootBootloaderMagic)
  kassert "mb_has_simple_mmap(info)" ((info.flags &&& 1) != 0)
  initPalloc
  walkMmap L info

/-! ## The map in memory -/

structure EntryAt (m : Mem) (p : ℕ) (e : MmapEntry) : Prop where
  mapped : ∀ i<24, L.InImage (p+i)
  size : load m (p+mmapSizeOff) 4=e.size
  addr : load m (p+mmapAddrOff) 8=e.addr
  len : load m (p+mmapLenOff) 8=e.len
  type : load m (p+mmapTypeOff) 4=e.type

/-- The entries follow each other up to the end of the map, in memory that the kernel has mapped. -/
def HoldsMap (m : Mem) (stop : ℕ) : ℕ → List MmapEntry → Prop
  | p, [] => stop≤p ∧ kmVirtBase+p<2^32
  | p, e::entries => p<stop ∧ EntryAt L m p e ∧ HoldsMap m stop (p+e.size+4) entries

def handedRegions (entries : List MmapEntry) : List (ℕ × ℕ) :=
  (entries.filter (fun e=>e.type=multibootMemoryAvailable)).map MmapEntry.region

variable {L} {s s₀ : Machine} {m m' : Mem} {p stop fuel : ℕ} {e : MmapEntry} {entries : List MmapEntry}
  {rs : List (ℕ × ℕ)}

theorem MmapEntry.region_aligned (e : MmapEntry) : e.region.1%pageSize=0 ∧ e.region.2%pageSize=0 :=
  ⟨maskToPage_mod _,maskToPage_mod _⟩

theorem Layout.InImage.outside (hx : L.InImage x) (hfl : ∀ q ∈ fl, IsFrame L q) :
    Outside fl x := by
  intro hmem
  have hq := (hfl _ hmem).bounds.1
  have hle := maskToPage_le x
  have hro := L.rwBegin_ge
  have hrw := L.pd_ge
  have hpd := L.rwEnd_ge
  have hend := L.break_ge
  simp only [Layout.InImage,Layout.kmFreePhysBase,Layout.kmPaddr,kmVirtBase] at *
  omega

theorem EntryAt.congr (h : EntryAt L m p e) (hs : ∀ x, L.InImage x → m' x=m x) : EntryAt L m' p e := by
  have hf {off n : ℕ} (hoff : off+n≤24) : load m' (p+off) n=load m (p+off) n := by
    refine load_congr (fun x hx hx'=>hs x ?_)
    obtain ⟨i,rfl⟩ := Nat.exists_eq_add_of_le (Nat.le_of_add_right_le hx)
    exact h.mapped i (by omega)
  exact ⟨h.mapped,(hf (by decide)).trans h.size,(hf (by decide)).trans h.addr,
    (hf (by decide)).trans h.len,(hf (by decide)).trans h.type⟩

theorem HoldsMap.lt (h : HoldsMap L m stop p entries) : kmVirtBase+p<2^32 := by
  cases entries with
  | nil => exact h.2
  | cons e entries =>
    have him := h.2.1.mapped 0 (by decide)
    have hro := L.rwBegin_ge
    have hrw := L.pd_ge
    have hpd := L.rwEnd_ge
    have hend := L.break_ge
    have hbr := L.break_lt
    simp only [Layout.InImage,kmVirtBase,kmDevVirtBase] at *
    omega

theorem Adding.image (hadd : Adding L s₀ rs s) (hb : Boot L s₀) (hx : L.InImage x) : s.mem x=s₀.mem x := by
  obtain ⟨-,fl,hfl⟩ := hadd.spec hb
  exact hfl.rest x (hx.outside hfl.list.frame)

theorem Adding.add_region (hadd : Adding L s₀ rs s) (hb : Boot L s₀) (e : MmapEntry) :
    Returns (pallocAddFreeRegion L e.region.1 e.region.2) s (fun _ t=>Adding L s₀ (e.region::rs) t) := by
  obtain ⟨henv,fl,hfl⟩ := hadd.spec hb
  obtain ⟨hlo,hhi⟩ := e.region_aligned
  obtain ⟨⟨⟩,t,ht,-⟩ := (hfl.add_region hb henv hlo hhi).exists_ok
  exact (wp_of_ok ht).mpr (hadd.region hlo hhi ht)

theorem EntryAt.read (h : EntryAt L m p e) (hoff : off<24) :
    Ensures (readPtr L (kmVirtBase+p+off) n) s Q E ↔ Q (load s.mem (p+off) n) s := by
  apply wp_readPtr
  rw [show kmVirtBase+p+off=p+off+0xC0000000 by rw [kmVirtBase]; omega]
  exact (h.mapped off hoff).physOf

theorem handedRegions_cons (e : MmapEntry) (entries : List MmapEntry) :
    handedRegions (e::entries)=handedRegions [e]++handedRegions entries := by
  rw [handedRegions,handedRegions,handedRegions,← map_append,← filter_append,singleton_append]

theorem handedRegions_reverse (e : MmapEntry) : (handedRegions [e]).reverse=handedRegions [e] := by
  by_cases h : e.type=multibootMemoryAvailable
  · simp [handedRegions,h]
  · simp [handedRegions,h]

theorem handOver_spec (hb : Boot L s₀) (hadd : Adding L s₀ rs s) (hat : EntryAt L s.mem p e) :
    Returns (handOver L (kmVirtBase+p) e.type) s (fun _ t=>Adding L s₀ (handedRegions [e]++rs) t) := by
  rw [handOver,Returns]
  refine Ensures.ite (fun h=>?_) (fun h=>?_)
  · have hrg : handedRegions [e]=[e.region] := by simp [handedRegions,h]
    simp only [wp_bind,hat.read (show mmapAddrOff<24 by decide),
      hat.read (show mmapLenOff<24 by decide),hat.addr,hat.len,hrg]
    exact hadd.add_region hb e
  · have hnn : handedRegions [e]=[] := by simp [handedRegions,h]
    rw [hnn,wp_pure]
    exact hadd

theorem walkMmapLoop_spec (hb : Boot L s₀) (hadd : Adding L s₀ rs s)
    (hmap : HoldsMap L s₀.mem stop p entries) (hty : ∀ e ∈ entries, e.type < mbMmapTypeTexts.length)
    (hfl : stop<p+fuel) (hpos : 0<fuel) :
    Returns (walkMmapLoop L (kmVirtBase+stop) fuel (kmVirtBase+p)) s (fun _ t =>
      Adding L s₀ ((handedRegions entries).reverse++rs) t) := by
  induction entries generalizing fuel p s rs with
  | nil =>
    obtain ⟨fuel,rfl⟩ := exists_eq_succ_of_ne_zero hpos.ne'
    rw [walkMmapLoop,if_neg (by have := hmap.1; omega),Returns,wp_pure]
    exact hadd
  | cons e entries ih =>
    obtain ⟨fuel,rfl⟩ := exists_eq_succ_of_ne_zero hpos.ne'
    obtain ⟨hlt,hen,hrs⟩ := hmap
    have hat := hen.congr (fun x hx=>hadd.image hb hx)
    have htp := hty e mem_cons_self
    rw [walkMmapLoop,if_pos (by omega)]
    simp only [Returns,wp_bind,hat.read (show mmapTypeOff<24 by decide)]
    rw [wp_panicIf (by rw [hat.type]; omega),hat.type]
    apply (handOver_spec hb hadd hat).imp
    intro _ t hadd'
    have hat' := hen.congr (fun x hx=>hadd'.image hb hx)
    have hnx : (kmVirtBase+p+e.size+4)%2^32=kmVirtBase+(p+e.size+4) := by
      have hwr := hrs.lt
      rw [mod_eq_of_lt (by omega)]
      omega
    simp only [hat'.read (show mmapSizeOff<24 by decide),hat'.size,hnx]
    rw [handedRegions_cons,reverse_append,handedRegions_reverse,append_assoc]
    exact ih hadd' hrs (fun e' he'=>hty e' (mem_cons_of_mem e he')) (by omega) (by omega)

/-- The boot loader's info, with the map in memory. -/
structure BootInfo (L : Layout) (m : Mem) (info : MultibootInfo) (entries : List MmapEntry) : Prop where
  simple : info.flags &&& 1≠0
  map : HoldsMap L m (info.mmapAddr+info.mmapLength) info.mmapAddr entries
  fits : kmVirtBase+(info.mmapAddr+info.mmapLength)<2^32

theorem multibootX86Init_spec (hb : Boot L s) (hin : BootInfo L s.mem info entries)
    (hty : ∀ e ∈ entries, e.type < mbMmapTypeTexts.length) :
    Returns (multibootX86Init L info multibootBootloaderMagic) s (fun _ t =>
      Adding L s (handedRegions entries).reverse t) := by
  have hst : kmVaddr info.mmapAddr=kmVirtBase+info.mmapAddr := mod_eq_of_lt hin.map.lt
  have hsp : kmVaddr (info.mmapAddr+info.mmapLength)=kmVirtBase+(info.mmapAddr+info.mmapLength) :=
    mod_eq_of_lt hin.fits
  have hsm := bne_iff_ne.mpr hin.simple
  simp only [multibootX86Init,Returns,wp_bind,wp_kassert (beq_self_eq_true _),wp_kassert hsm]
  rw [wp_of_ok hb.initPalloc_eq,walkMmap,hst,hsp]
  apply (walkMmapLoop_spec hb (.init hb.initPalloc_eq) hin.map hty (by omega) (by omega)).imp
  intro _ t ht
  rwa [append_nil] at ht

/-- A page is inside an available entry, as an interval of 64-bit addresses. -/
def Available (entries : List MmapEntry) (q : ℕ) : Prop :=
  ∃ e ∈ entries, e.type=multibootMemoryAvailable ∧ e.addr≤q ∧ q+pageSize≤e.addr+e.len

def HandedOver (entries : List MmapEntry) (q : ℕ) : Prop := ∃ r ∈ handedRegions entries, r.1≤q ∧ q<r.2

theorem handedOver_iff : HandedOver entries q ↔
    ∃ e ∈ entries, e.type=multibootMemoryAvailable ∧ e.region.1≤q ∧ q<e.region.2 := by
  simp only [HandedOver,handedRegions,mem_map,mem_filter,decide_eq_true_eq]
  constructor
  · rintro ⟨r,⟨e,⟨he,ht⟩,rfl⟩,hq⟩
    exact ⟨e,he,ht,hq⟩
  · rintro ⟨e,he,ht,hq⟩
    exact ⟨e.region,⟨e,⟨he,ht⟩,rfl⟩,hq⟩

theorem MmapEntry.region_iff (ha : e.addr≤2^32-pageSize) (hend : e.addr+e.len<2^32) (hq : q%pageSize=0) :
    e.region.1≤q ∧ q<e.region.2 ↔ e.addr≤q ∧ q+pageSize≤e.addr+e.len := by
  simp only [MmapEntry.region,alignToNextPage,maskToPage,pageSize] at *
  rw [mod_eq_of_lt (show e.addr+(4096-1)<2^32 by omega),mod_eq_of_lt hend]
  omega

/-- A machine at boot with a memory map of one entry. -/
def mapMachine (e : MmapEntry) : Machine :=
  {bootMachine .smallImage with
    mem := store (store (store (store (fun _=>0) 0x500 4 e.size) 0x504 8 e.addr) 0x50c 8 e.len) 0x514 4 e.type}

def mapInfo : MultibootInfo := ⟨1,24,0x500⟩

theorem mapMachine_boot (e : MmapEntry) : Boot .smallImage (mapMachine e) := ⟨beq_self_eq_true _,rfl,rfl,rfl⟩

theorem mapMachine_info (hsz : e.size=20) (had : e.addr<2^64) (hlen : e.len<2^64)
    (hty : e.type<2^32) : BootInfo .smallImage (mapMachine e).mem mapInfo [e] where
  simple := by decide
  fits := by decide
  map := by
    have hat : EntryAt .smallImage (mapMachine e).mem 0x500 e := by
      refine ⟨fun i hi=>.inl (by simp only [Layout.smallImage]; omega),?_,?_,?_,?_⟩
      · simp only [mapMachine,mmapSizeOff]
        rw [load_store_disjoint (.inl (by decide)),load_store_disjoint (.inl (by decide)),
          load_store_disjoint (.inl (by decide)),load_store_of_lt (by omega)]
      · simp only [mapMachine,mmapAddrOff]
        rw [load_store_disjoint (.inl (by decide)),load_store_disjoint (.inl (by decide)),
          load_store_of_lt (by omega)]
      · simp only [mapMachine,mmapLenOff]
        rw [load_store_disjoint (.inl (by decide)),load_store_of_lt (by omega)]
      · simp only [mapMachine,mmapTypeOff]
        rw [load_store_of_lt (by omega)]
    exact ⟨by decide,hat,by rw [hsz]; decide,by rw [hsz]; decide⟩

/-- One GiB from 4 GiB on. -/
def aboveEntry : MmapEntry := ⟨20,0x100000000,0x40000000,1⟩

/-- All from 1 MiB up to 4 GiB. -/
def upToEntry : MmapEntry := ⟨20,0x100000,0xfff00000,1⟩

end Yaos2.Memory
