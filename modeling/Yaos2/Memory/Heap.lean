import Yaos2.Foundation.Tiling
import Yaos2.Memory.AddressSpace

/-! # The kernel heap

The heap's bytes are kept at their virtual addresses in a memory of their own, whose pages are
accessible once the kernel's page tables map them. -/
namespace Yaos2.Memory
open Foundation List

def heapAllocMagic : ℕ := 0xA110CA73

/-- `struct heap_alloc`: the offsets of its fields and its size. -/
def magic1Off : ℕ := 0
def prevOff : ℕ := 4
def nextOff : ℕ := 8
def alignOffsetOff : ℕ := 12
def sizeOff : ℕ := 16
def freeOff : ℕ := 20
def magic2Off : ℕ := 24
def sizeofHeapAlloc : ℕ := 28

inductive HeapMode where
  | normal
  | continuous
  deriving DecidableEq

/-- The variables of `heap.c`, the heap's memory, the machine, and the interrupt flag and CPUs of
the caller. -/
structure HeapState where
  machine : Machine
  vmem : Mem
  eflagsIf : Bool
  nofActiveCpus : ℕ
  debug : Bool
  initialized : Bool
  region : VmRegion
  heapSize : ℕ
  curSize : ℕ
  heap : ℕ
  first : ℕ
  last : ℕ

abbrev HeapM := Exec HeapState

variable (L : Layout)

def onMachine {α : Type} (x : Kernel α) : HeapM α := zoom HeapState.machine (fun m s=>{s with machine := m}) x

/-- The `n` bytes at `v`, no more than a page, lie in the region and in mapped pages. -/
def HeapState.accessible (s : HeapState) (v n : ℕ) : Bool :=
  s.region.containsV v && s.region.containsV (v+n-1) && isPresent (walk s.machine.mem L.physKernelPd v) &&
    isPresent (walk s.machine.mem L.physKernelPd (v+n-1))

def readHeap (v n : ℕ) : HeapM ℕ := do
  let s ← get
  if s.accessible L v n then
    return load s.vmem v n
  else
    abort "unhandled interrupt"

def writeHeap (v n x : ℕ) : HeapM Unit := do
  let s ← get
  if s.accessible L v n then
    set {s with vmem := store s.vmem v n x}
  else
    abort "unhandled interrupt"

def isHeap (s : HeapState) (v : ℕ) : Bool := s.region.containsV v

def unsafeCheck (alloc : ℕ) : HeapM Bool := do
  let magic1 ← readHeap L (alloc+magic1Off) 4
  let magic2 ← readHeap L (alloc+magic2Off) 4
  return magic1 == heapAllocMagic && magic2 == heapAllocMagic

/-- More nodes than there are addresses: a list that is longer runs in circles. -/
def addressCount : ℕ := 2^32

/-- The loop `while (p)` of `unsafe_check_all`. -/
def checkFrom : ℕ → ℕ → HeapM Unit
  | 0, _ => abort "endless loop"
  | fuel+1, p =>
    if p=0 then
      pure ()
    else do
      kassert "unsafe_check(p)" (← unsafeCheck L p)
      checkFrom fuel (← readHeap L (p+nextOff) 4)

/-- Both loops follow the `next` links, the second one from the last allocation. -/
def unsafeCheckAll : HeapM Unit := do
  checkFrom L addressCount (← get).first
  checkFrom L addressCount (← get).last

def growPage (v : ℕ) : HeapM Unit := onMachine (do kpMap L v (← palloc L))

def unsafeGrowHeap (newSize : ℕ) : HeapM Unit := do
  let s ← get
  kassert "new_size >= heap_size" (s.heapSize≤newSize)
  panicIf ((s.heap+newSize)%2^32 > (s.region.vbase+s.region.size)%2^32)
    "heap exceeded the heap_region"
  panicIf s.machine.env.pallocLockHeld
    "holding palloc lock while using the kernel heap allocator"
  panicIf s.machine.env.kpLockHeld
    "holding kernel page tables write lock while using the kernel heap allocator"
  -- no page is added when both sizes end in the same page
  let v := alignToNextPage (s.heap+s.heapSize)
  let vto := alignToNextPage (s.heap+newSize)
  forRange (pageSteps v vto) (fun k=>growPage L (v+pageSize*k))
  modify fun s=>{s with heapSize := newSize}

/-- The loop of `unsafe_truncate_heap`. -/
def truncateLoop : ℕ → HeapM Unit
  | 0 => abort "endless loop"
  | fuel+1 => do
    let last := (← get).last
    if last=0 then
      pure ()
    else do
      let free ← readHeap L (last+freeOff) 1
      if free=1 then do
        let offset ← readHeap L (last+alignOffsetOff) 4
        let size ← readHeap L (last+sizeOff) 4
        let prev ← readHeap L (last+prevOff) 4
        modify fun s=>{s with
          curSize := (s.curSize+2^32-(offset+sizeofHeapAlloc+size)%2^32)%2^32
          last := prev}
        truncateLoop fuel
      else
        pure ()

def unsafeTruncateHeap : HeapM Unit := do
  if (← get).last=0 then
    pure ()
  else do
    truncateLoop L addressCount
    let last := (← get).last
    if last=0 then
      modify fun s=>{s with first := 0}
    else
      writeHeap L (last+nextOff) 4 0

def initKernelHeap (region : VmRegion) (s : HeapState) : HeapState :=
  {s with
    region := region
    heapSize := 0
    heap := region.vbase
    first := 0
    last := 0
    initialized := true}

/-- The checks `kalloc` makes before it takes the heap's lock. -/
def checkCaller (mode : HeapMode) : HeapM Unit := do
  let s ← get
  panicIf (s.eflagsIf=false ∧ s.nofActiveCpus > 1) "kalloc(): called with interrupts off"
  panicIf (mode=.continuous) "kalloc(): HEAP_CONTINUOUS unimplemented"
  panicIf (s.initialized=false) "kalloc(): heap was not initialized"
  panicIf (s.machine.env.isUsingKernelPageTables L=false)
    "kalloc(): called with non-kernel page tables"

def buildAlloc (alloc offset size : ℕ) : HeapM Unit := do
  writeHeap L (alloc+magic1Off) 4 heapAllocMagic
  writeHeap L (alloc+alignOffsetOff) 4 offset
  writeHeap L (alloc+sizeOff) 4 size
  writeHeap L (alloc+freeOff) 1 0
  writeHeap L (alloc+magic2Off) 4 heapAllocMagic

def linkLast (alloc : ℕ) : HeapM Unit := do
  let last := (← get).last
  if last≠0 then
    writeHeap L (last+nextOff) 4 alloc

def placeAlloc (alloc : ℕ) : HeapM Unit := do
  linkLast L alloc
  writeHeap L (alloc+prevOff) 4 (← get).last
  writeHeap L (alloc+nextOff) 4 0
  modify fun s=>{s with first := if s.first=0 then alloc else s.first, last := alloc}

/-- The bytes to skip so that the address after the header is a multiple of the alignment. -/
def alignOffset (unaligned alignment : ℕ) : ℕ := alignment-1-(unaligned+alignment-1)%alignment

def checkIfDebug : HeapM Unit := do
  if (← get).debug then
    unsafeCheckAll L

def growIfNeeded (newSize : ℕ) : HeapM Unit := do
  if (← get).heapSize<newSize then
    unsafeGrowHeap L newSize

/-- `kalloc`, with the arithmetic on 32-bit words. -/
def kalloc (mode : HeapMode) (alignment size : ℕ) : HeapM ℕ := do
  checkCaller L mode
  checkIfDebug L
  let s ← get
  let unaligned := (s.heap+s.curSize+sizeofHeapAlloc)%2^32
  let offset := alignment-1-(unaligned+alignment-1)%2^32%alignment
  let v := (s.heap+s.curSize+offset+sizeofHeapAlloc)%2^32
  growIfNeeded L ((s.curSize+offset+sizeofHeapAlloc+size)%2^32)
  let alloc := (v+2^32-sizeofHeapAlloc)%2^32
  buildAlloc L alloc offset size
  placeAlloc L alloc
  modify fun s=>{s with curSize := (s.curSize+(offset+sizeofHeapAlloc+size))%2^32}
  checkIfDebug L
  return v

/-- Whether `kfree` tries to truncate: the block is the last one, or the next one is free. -/
def canTruncate (alloc : ℕ) : HeapM Bool := do
  let next ← readHeap L (alloc+nextOff) 4
  if next=0 then
    return true
  else
    return (← readHeap L (next+freeOff) 1) == 1

def kfree (v : ℕ) : HeapM Unit := do
  let s ← get
  panicIf (s.initialized=false) "kfree(): heap was not initialized"
  panicIf (isHeap s v=false) "kfree(): given address is not in heap region"
  let alloc := (v+2^32-sizeofHeapAlloc)%2^32
  panicIf ((← unsafeCheck L alloc)=false) "kfree(): bad address"
  writeHeap L (alloc+freeOff) 1 1
  if ← canTruncate L alloc then
    unsafeTruncateHeap L

/-- Bytes skipped for the alignment, the header, and the bytes handed out. -/
structure Block where
  start : ℕ
  off : ℕ
  size : ℕ
  free : Bool
  deriving DecidableEq

namespace Block

def addr (b : Block) : ℕ := b.start+b.off
def user (b : Block) : ℕ := b.start+b.off+sizeofHeapAlloc
def stop (b : Block) : ℕ := b.start+b.off+sizeofHeapAlloc+b.size
def flag (b : Block) : ℕ := if b.free then 1 else 0

theorem bounds (b : Block) : b.start≤b.addr ∧ b.addr+28=b.user ∧ b.user+b.size=b.stop := by
  refine ⟨Nat.le_add_right _ _,rfl,rfl⟩
end Block

def hdrPrev (m : Mem) (a : ℕ) : ℕ := load m (a+prevOff) 4
def hdrNext (m : Mem) (a : ℕ) : ℕ := load m (a+nextOff) 4

/-- The header of the block is in memory, its links aside. -/
structure HeaderOk (m : Mem) (b : Block) : Prop where
  magic1 : load m (b.addr+magic1Off) 4=heapAllocMagic
  magic2 : load m (b.addr+magic2Off) 4=heapAllocMagic
  offset : load m (b.addr+alignOffsetOff) 4=b.off
  size : load m (b.addr+sizeOff) 4=b.size
  free : load m (b.addr+freeOff) 1=b.flag

/-- The heap's variables and pages: what is in use of the region is mapped. -/
structure HeapBase (s : HeapState) : Prop where
  initialized : s.initialized=true
  region : s.region=L.dynamicRegion
  heap : s.heap=L.memBreak
  size : s.curSize ≤ s.heapSize
  bound : s.heap+s.heapSize≤0xFE000000
  mapped : ∀ v, s.heap≤v → maskToPage v<s.heap+s.heapSize →
    isPresent (walk s.machine.mem L.physKernelPd v)=true

/-- The list of blocks in memory, and how it tiles the used part of the heap. -/
structure BlocksAt (m : Mem) (lo hi first last : ℕ) (bs : List Block) : Prop where
  tiles : Tiles Block.start Block.stop lo bs hi
  header : ∀ b ∈ bs, HeaderOk m b
  links : Linked (hdrNext m) (hdrPrev m) 0 (bs.map Block.addr)
  first : first=(bs.map Block.addr).headD 0
  last : last=(bs.map Block.addr).getLastD 0

variable {L} {s t : HeapState} {E : HeapState → Prop} {v n x : ℕ} {m m' : Mem} {b c : Block}
  {bs : List Block} {lo hi first last : ℕ}

section

theorem wp_onMachine :
    Ensures (onMachine k) s Q E ↔ Ensures k s.machine (fun a m=>Q a {s with machine := m})
      (fun m=>E {s with machine := m}) :=
  wp_zoom _ _ _ _ _ _

theorem wp_readHeap (h : s.accessible L v n=true) :
    Ensures (readHeap L v n) s Q E ↔ Q (load s.vmem v n) s := by
  simp [readHeap,h]

theorem wp_writeHeap (h : s.accessible L v n=true) :
    Ensures (writeHeap L v n x) s Q E ↔ Q () {s with vmem := store s.vmem v n x} := by
  simp [writeHeap,h]

theorem HeapBase.accessible (h : HeapBase L s) (hv : s.heap≤v) (hn : 0<n)
    (hle : v+n ≤ s.heap+s.heapSize) : s.accessible L v n=true := by
  have hhp := h.heap
  have hb := h.bound
  have hin : ∀ w, s.heap≤w → w<s.heap+s.heapSize → s.region.containsV w=true ∧
      isPresent (walk s.machine.mem L.physKernelPd w)=true := by
    intro w hw hw'
    have hm := maskToPage_le w
    refine ⟨?_,h.mapped w hw (by omega)⟩
    rw [h.region]
    exact Layout.dynamicRegion_containsV.mpr ⟨by omega,by omega⟩
  obtain ⟨h1,h2⟩ := hin v hv (by omega)
  obtain ⟨h3,h4⟩ := hin (v+n-1) (by omega) (by omega)
  simp [HeapState.accessible,h1,h2,h3,h4]

theorem HeapBase.congr (h : HeapBase L s) (hi : t.initialized=s.initialized)
    (hr : t.region=s.region) (hh : t.heap=s.heap) (hs : t.heapSize=s.heapSize)
    (hc : t.curSize ≤ s.heapSize) (hm : t.machine=s.machine) : HeapBase L t := by
  refine ⟨hi▸h.initialized,hr▸h.region,hh▸h.heap,hs▸hc,?_,?_⟩
  · rw [hh,hs]
    exact h.bound
  · rw [hh,hs,hm]
    exact h.mapped

theorem HeapBase.region_end (h : HeapBase L s) : s.region.vbase+s.region.size=0xFE000000 := by
  have hb := L.order
  rw [h.region]
  simp only [Layout.dynamicRegion,kmDevVirtBase]
  omega
end

section

theorem HeaderOk.of_fields (h : HeaderOk m b) (hm : ∀ o k, o+k≤4 ∨ 12≤o ∧ o+k≤28 →
    load m' (b.addr+o) k=load m (b.addr+o) k) : HeaderOk m' b :=
  ⟨(hm _ _ (by decide)).trans h.magic1,(hm _ _ (by decide)).trans h.magic2,
    (hm _ _ (by decide)).trans h.offset,(hm _ _ (by decide)).trans h.size,
    (hm _ _ (by decide)).trans h.free⟩

theorem HeaderOk.congr (h : HeaderOk m b) (hm : SameOn m m' b.addr sizeofHeapAlloc) : HeaderOk m' b :=
  h.of_fields (fun o k ho=>load_congr (fun x hx hx'=>hm x (by omega) (by
    simp only [sizeofHeapAlloc]
    omega)))

theorem hdrNext_congr (hm : SameOn m m' a sizeofHeapAlloc) : hdrNext m' a=hdrNext m a :=
  load_congr (fun x hx hx'=>hm x (by omega) (by simp only [nextOff,sizeofHeapAlloc] at *; omega))

theorem hdrPrev_congr (hm : SameOn m m' a sizeofHeapAlloc) : hdrPrev m' a=hdrPrev m a :=
  load_congr (fun x hx hx'=>hm x (by omega) (by simp only [prevOff,sizeofHeapAlloc] at *; omega))

namespace BlocksAt

section
variable (h : BlocksAt m lo hi first last bs)
include h
theorem bounds (hb : b ∈ bs) : lo≤b.addr ∧ b.addr+28≤b.stop ∧ b.stop≤hi := by
  have ht := h.tiles.bounds hb
  have hbb := b.bounds
  omega

theorem congr (hm : ∀ b ∈ bs, SameOn m m' b.addr sizeofHeapAlloc) : BlocksAt m' lo hi first last bs := by
  refine ⟨h.tiles,fun b hb=>(h.header b hb).congr (hm b hb),h.links.congr ?_ ?_,h.first,h.last⟩
  · intro a ha
    obtain ⟨b,hb,rfl⟩ := mem_map.mp ha
    exact hdrNext_congr (hm b hb)
  · intro a ha
    obtain ⟨b,hb,rfl⟩ := mem_map.mp ha
    exact hdrPrev_congr (hm b hb)

theorem length_lt (hhi : hi<2^32) : bs.length<2^32 := by
  have hl := h.tiles.length_le (k := 28) (fun b _=>by have := b.bounds; omega)
  omega
end

theorem last_eq (h : BlocksAt m lo hi first last (bs++[b])) : last=b.addr := by
  rw [h.last,map_append,map_singleton,getLastD_concat]

theorem cases (h : BlocksAt m lo hi first last bs) : bs=[] ∧ first=0 ∧ last=0 ∨
    ∃ l d, bs=l++[d] ∧ last=d.addr ∧ first≠0 := by
  rcases eq_nil_or_concat bs with rfl | ⟨l,d,rfl⟩
  · exact .inl ⟨rfl,h.first,h.last⟩
  · rw [concat_eq_append] at h
    refine .inr ⟨l,d,concat_eq_append,h.last_eq,?_⟩
    rw [h.first]
    cases l with
    | nil => exact h.links.ne_zero (by simp)
    | cons c l => exact h.links.ne_zero (by simp)
end BlocksAt

theorem HeapBase.accessible_header (h : HeapBase L s)
    (hbs : BlocksAt m s.heap (s.heap+s.curSize) first last bs) (hb : b ∈ bs)
    (hn : 0<n) (ho : o+n≤28) : s.accessible L (b.addr+o) n=true := by
  have hbb := hbs.bounds hb
  have hsz := h.size
  exact h.accessible (by omega) hn (by omega)

section
variable (h : HeapBase L s) (hbs : BlocksAt s.vmem s.heap (s.heap+s.curSize) first last bs)
include h hbs
theorem unsafeCheck_spec (hb : b ∈ bs) : Ensures (unsafeCheck L b.addr) s Q E ↔ Q true s := by
  have hok := hbs.header b hb
  have hacc : ∀ {o k : ℕ}, 0<k → o+k≤28 → s.accessible L (b.addr+o) k=true := h.accessible_header hbs hb
  simp only [unsafeCheck,wp_bind,wp_pure,
    wp_readHeap (hacc (o := magic1Off) (k := 4) (by decide) (by decide)),hok.magic1,
    wp_readHeap (hacc (o := magic2Off) (k := 4) (by decide) (by decide)),hok.magic2,
    beq_self_eq_true,Bool.and_self]

theorem checkFrom_spec {l : List Block}
    (hl : ∀ b ∈ l, b ∈ bs) (hc : Chain (hdrNext s.vmem) p (l.map Block.addr)) (hf : l.length<fuel) :
    Returns (checkFrom L fuel p) s (fun _ t=>t=s) := by
  induction fuel generalizing p l with
  | zero => omega
  | succ fuel ih =>
    cases l with
    | nil =>
      have hp : p=0 := hc
      simp [checkFrom,hp]
    | cons b l =>
      obtain ⟨hp,hne,hc⟩ := hc
      have hb := hl b (by simp)
      have hacc : s.accessible L (b.addr+nextOff) 4=true := h.accessible_header hbs hb (by decide) (by decide)
      simp only [checkFrom,hp,hne,if_false,wp_bind,unsafeCheck_spec h hbs hb,wp_kassert,wp_readHeap hacc]
      exact ih (fun c hc=>hl c (by simp [hc])) hc (by simpa using hf)
end

theorem unsafeCheckAll_spec (h : HeapBase L s)
    (hbs : BlocksAt s.vmem s.heap (s.heap+s.curSize) s.first s.last bs) :
    Returns (unsafeCheckAll L) s (fun _ t=>t=s) := by
  have hb := h.bound
  have hsz := h.size
  have hlen := hbs.length_lt (by omega)
  have hfr : Chain (hdrNext s.vmem) s.first (bs.map Block.addr) := by
    rw [hbs.first]
    exact hbs.links.chain_next
  simp only [unsafeCheckAll,wp_bind,wp_get]
  apply (checkFrom_spec h hbs (fun _ hb=>hb) hfr hlen).imp
  rintro - t rfl
  -- the second loop starts at the last block and ends with it
  rcases eq_nil_or_concat bs with rfl | ⟨l,b,rfl⟩
  · exact checkFrom_spec (l := []) h hbs (by simp) hbs.last (by decide)
  · rw [concat_eq_append] at hbs
    have hln := hbs.links
    rw [map_append,map_singleton] at hln
    refine checkFrom_spec (l := [b]) h hbs (by simp) ?_
      (by rw [length_singleton]; decide)
    exact ⟨hbs.last_eq,hln.ne_zero (by simp),hln.next_eq⟩
end

end Yaos2.Memory
