import Yaos2.Foundation.ByteMemory
import Yaos2.Foundation.Exec
import Yaos2.Foundation.Linked
import Yaos2.Foundation.Tiling
import Yaos2.Foundation.Transition

/-! # The heap of the C library

A freed allocation stays where it is until everything behind it is free, and the break is never moved
back. -/
namespace Yaos2.Libc
open Foundation Function List Nat

def heapAllocMagic : ℕ := 0xA110CA73
def sizeofHeapAlloc : ℕ := 24

/-- `struct heap_alloc` -/
structure HeapAlloc where
  magic1 : ℕ
  prev : ℕ
  next : ℕ
  size : ℕ
  free : Bool
  magic2 : ℕ

/-- The variables of the heap, the headers by their address, and the break of the process. -/
structure UserHeap where
  heapSize : ℕ
  curSize : ℕ
  heap : ℕ
  first : ℕ
  last : ℕ
  alloc : ℕ → HeapAlloc
  vbreak : ℕ
  base : ℕ

/-- `granted` is whether the kernel can satisfy the call. It never moves the break below the base. -/
def brk (granted : Bool) (ptr : ℕ) : Exec UserHeap Int := do
  let s ← get
  if granted ∧ s.base≤ptr then
    set {s with vbreak := ptr}
    return 0
  else
    return -1

/-- The heap starts at `sbrk(0)`, the present break. -/
def lazilyInitHeap (s : UserHeap) : UserHeap := if s.heap=0 then {s with heap := s.vbreak} else s

def UserHeap.header (s : UserHeap) (a : ℕ) (f : HeapAlloc → HeapAlloc) : UserHeap :=
  {s with alloc := update s.alloc a (f (s.alloc a))}

/-- Grow the heap, if necessary. -/
def growHeap (granted : Bool) (newSize : ℕ) : Exec UserHeap Bool := do
  let s ← get
  if s.heapSize<newSize then
    if (← brk granted ((s.heap+newSize)%2^32))≠0 then
      return false
    else
      modify (fun s=>{s with heapSize := newSize})
      return true
  else
    return true

def buildAlloc (a size : ℕ) (s : UserHeap) : UserHeap :=
  s.header a (fun h=>{h with magic1 := heapAllocMagic, size := size, free := false, magic2 := heapAllocMagic})

def placeAlloc (a : ℕ) (s : UserHeap) : UserHeap :=
  let s := if s.last≠0 then s.header s.last (fun h=>{h with next := a}) else s
  let s := s.header a (fun h=>{h with prev := s.last, next := 0})
  {s with first := if s.first=0 then a else s.first, last := a}

def malloc (granted : Bool) (size : ℕ) : Exec UserHeap ℕ := do
  modify lazilyInitHeap
  let s ← get
  let ret := s.heap+s.curSize+sizeofHeapAlloc
  let newSize := (s.curSize+sizeofHeapAlloc+size)%2^32
  if !(← growHeap granted newSize) then
    return 0
  else
    let a := ret-sizeofHeapAlloc
    modify (buildAlloc a size)
    modify (placeAlloc a)
    modify (fun s=>{s with curSize := (s.curSize+(sizeofHeapAlloc+size))%2^32})
    return ret

/-- The loop of `unsafe_truncate_heap`. -/
def truncateLoop : ℕ → Exec UserHeap Unit
  | 0 => abort "endless loop"
  | fuel+1 => do
    let s ← get
    if s.last≠0 ∧ (s.alloc s.last).free=true then
      set {s with
        curSize := (s.curSize+2^32-(sizeofHeapAlloc+(s.alloc s.last).size)%2^32)%2^32
        last := (s.alloc s.last).prev}
      truncateLoop fuel
    else
      pure ()

def unsafeTruncateHeap : Exec UserHeap Unit := do
  if (← get).last=0 then
    pure ()
  else do
    truncateLoop (2^32)
    let s ← get
    if s.last=0 then
      set {s with first := 0}
    else
      set (s.header s.last (fun h=>{h with next := 0}))

def free (ptr : ℕ) : Exec UserHeap Unit := do
  let a := ptr-sizeofHeapAlloc
  modify (fun s=>s.header a (fun h=>{h with free := true}))
  let s ← get
  if (s.alloc a).next=0 ∨ (s.alloc (s.alloc a).next).free=true then
    unsafeTruncateHeap
  else
    pure ()

def UserHeap.stop (s : UserHeap) (a : ℕ) : ℕ := a+sizeofHeapAlloc+(s.alloc a).size

/-- The list of allocations, by the addresses of their headers. -/
structure UserHeap.Blocks (s : UserHeap) (as : List ℕ) : Prop where
  links : Linked (fun a=>(s.alloc a).next) (fun a=>(s.alloc a).prev) 0 as
  first : s.first=as.headD 0
  last : s.last=as.getLastD 0
  tiles : Tiles id s.stop s.heap as (s.heap+s.curSize)

/-- The relation of the heap to the break. -/
structure UserHeap.Bounds (s : UserHeap) : Prop where
  size : s.curSize ≤ s.heapSize
  vbreak : s.heap+s.heapSize ≤ s.vbreak
  limit : s.vbreak<2^32

variable {s t : UserHeap} {as l r : List ℕ} {a b size : ℕ} {granted : Bool}

namespace UserHeap

@[simp] theorem header_alloc_self (s : UserHeap) (a : ℕ) (f : HeapAlloc → HeapAlloc) :
    (s.header a f).alloc a=f (s.alloc a) := update_self ..

theorem header_alloc_of_ne (f : HeapAlloc → HeapAlloc) (h : b≠a) : (s.header a f).alloc b=s.alloc b :=
  update_of_ne h ..

theorem header_field (g : HeapAlloc → β) (hg : ∀ h, g (f h)=g h)
    (b : ℕ) : g ((s.header a f).alloc b)=g (s.alloc b) := by
  by_cases hb : b=a
  · rw [hb,header_alloc_self,hg]
  · rw [header_alloc_of_ne f hb]

theorem Blocks.nodup (h : s.Blocks as) : as.Nodup := h.links.nodup

theorem Blocks.bounds (h : s.Blocks as) (ha : a ∈ as) : s.heap≤a ∧ s.stop a ≤ s.heap+s.curSize := by
  have hb := h.tiles.bounds ha
  exact ⟨hb.1,hb.2.2⟩

theorem Blocks.length_lt (h : s.Blocks as) (hs : s.Bounds) : as.length<2^32 := by
  have hlen := h.tiles.length_le (k := 1) (fun a _=>by simp only [id,stop,sizeofHeapAlloc]; omega)
  have hsz := hs.size
  have hb := hs.vbreak
  have hl := hs.limit
  omega
end UserHeap

section

theorem ne_getLastD_of_mem_dropLast (hnd : as.Nodup) (ha : a ∈ as.dropLast) : a≠as.getLastD 0 := by
  rcases eq_nil_or_concat as with rfl | ⟨l,d,rfl⟩
  · simp at ha
  · rw [concat_eq_append,dropLast_concat] at ha
    rw [concat_eq_append,getLastD_concat]
    rintro rfl
    rw [concat_eq_append] at hnd
    exact disjoint_of_nodup_append hnd ha (mem_singleton_self a)

theorem placeAlloc_self (h : s.last≠a) :
    (placeAlloc a s).alloc a = {s.alloc a with prev := s.last, next := 0} := by
  by_cases h0 : s.last=0 <;> simp [placeAlloc,UserHeap.header,h0,h.symm]

theorem placeAlloc_last (h : s.last≠a) (h0 : s.last≠0) :
    (placeAlloc a s).alloc s.last = {s.alloc s.last with next := a} := by
  simp [placeAlloc,UserHeap.header,h0,update_apply,h]

theorem placeAlloc_of_ne (h : b≠a) (h' : b≠s.last) : (placeAlloc a s).alloc b=s.alloc b := by
  by_cases h0 : s.last=0 <;> simp [placeAlloc,UserHeap.header,h0,update_apply,h,h']

theorem placeAlloc_fields (h : s.last≠a) (hb : b≠a) (hb0 : b≠0) :
    ((placeAlloc a s).alloc b).prev=(s.alloc b).prev ∧ ((placeAlloc a s).alloc b).size=(s.alloc b).size ∧
      ((placeAlloc a s).alloc b).free=(s.alloc b).free := by
  by_cases hl : b=s.last
  · subst hl
    rw [placeAlloc_last h hb0]
    exact ⟨rfl,rfl,rfl⟩
  · simp [placeAlloc_of_ne hb hl]

/-- The heap after an allocation behind the last one. -/
def allocated (s : UserHeap) (size : ℕ) : UserHeap :=
  {placeAlloc (s.heap+s.curSize) (buildAlloc (s.heap+s.curSize) size s) with
    curSize := s.curSize+(sizeofHeapAlloc+size)}

section
variable (h : s.Blocks as)
include h
theorem UserHeap.Blocks.lt_end (ha : a ∈ as) : a<s.heap+s.curSize := by
  have hb := (h.bounds ha).2
  simp only [UserHeap.stop,sizeofHeapAlloc] at hb
  omega

theorem UserHeap.Blocks.last_ne (h0 : s.heap≠0) : s.last≠s.heap+s.curSize := by
  rcases eq_nil_or_concat as with rfl | ⟨l,d,rfl⟩
  · have hl : s.last=0 := h.last
    omega
  · have hd := h.lt_end (a := d) (by simp)
    have hl := h.last
    rw [concat_eq_append,getLastD_concat] at hl
    omega

theorem buildAlloc_of_mem (hb : b ∈ as) : (buildAlloc (s.heap+s.curSize) size s).alloc b=s.alloc b :=
  UserHeap.header_alloc_of_ne _ (Nat.ne_of_lt (h.lt_end hb))

theorem allocated_of_mem (h0 : s.heap≠0) (hb : b ∈ as) :
    ((allocated s size).alloc b).prev=(s.alloc b).prev ∧ ((allocated s size).alloc b).size=(s.alloc b).size ∧
      ((allocated s size).alloc b).free=(s.alloc b).free := by
  have hp := placeAlloc_fields (s := buildAlloc (s.heap+s.curSize) size s) (h.last_ne h0)
    (Nat.ne_of_lt (h.lt_end hb)) (h.links.ne_zero hb)
  rwa [buildAlloc_of_mem h hb] at hp

theorem allocated_self (h0 : s.heap≠0) (size : ℕ) :
    (allocated s size).alloc (s.heap+s.curSize)=⟨heapAllocMagic,s.last,0,size,false,heapAllocMagic⟩ := by
  have hp := placeAlloc_self (s := buildAlloc (s.heap+s.curSize) size s) (h.last_ne h0)
  rwa [buildAlloc,UserHeap.header_alloc_self] at hp

theorem UserHeap.Blocks.allocated (h0 : s.heap≠0) (size : ℕ) :
    (allocated s size).Blocks (as++[s.heap+s.curSize]) := by
  have hls := h.last_ne h0
  have hsl := allocated_self h h0 size
  have hnx : ∀ y ∈ as.dropLast, ((Libc.allocated s size).alloc y).next=(s.alloc y).next := by
    intro y hy
    have hmem := mem_of_mem_dropLast hy
    have hy' : y≠s.last := by
      rw [h.last]
      exact ne_getLastD_of_mem_dropLast h.nodup hy
    have hpl := placeAlloc_of_ne (s := buildAlloc (s.heap+s.curSize) size s) 
      (Nat.ne_of_lt (h.lt_end hmem)) hy'
    exact congrArg HeapAlloc.next (hpl.trans (buildAlloc_of_mem h hmem))
  have hnextLast : ∀ y, as.getLast? = some y → ((Libc.allocated s size).alloc y).next=s.heap+s.curSize := by
    intro y hy
    obtain rfl : s.last=y := by rw [h.last,getLastD_eq_getLast?,hy,Option.getD_some]
    have hmem := mem_of_getLast? hy
    have hpl := placeAlloc_last (s := buildAlloc (s.heap+s.curSize) size s) hls (h.links.ne_zero hmem)
    exact congrArg HeapAlloc.next hpl
  refine ⟨h.links.snoc (by omega) hnx hnextLast (fun y hy=>(allocated_of_mem h h0 hy).1) ?_ ?_,?_,?_,?_⟩
  · rw [hsl]
    exact h.last
  · rw [hsl]
  · have hfr : (Libc.allocated s size).first=if s.first=0 then s.heap+s.curSize else s.first := by
      unfold Libc.allocated placeAlloc
      split <;> rfl
    rw [hfr,h.first]
    cases as with
    | nil => rfl
    | cons x xs => exact if_neg (h.links.ne_zero mem_cons_self)
  · rw [getLastD_concat]
    rfl
  · have hst : ∀ b ∈ as, (Libc.allocated s size).stop b=s.stop b := by
      intro b hb
      rw [stop,stop,(allocated_of_mem h h0 hb).2.1]
    have hst' : (Libc.allocated s size).stop (s.heap+s.curSize) =
        s.heap+(s.curSize+(sizeofHeapAlloc+size)) := by
      rw [stop,hsl]
      simp only [← add_assoc]
    have hhp : (Libc.allocated s size).heap=s.heap := by
      unfold Libc.allocated placeAlloc
      split <;> rfl
    have htl := (h.tiles.congr (fun _ _=>rfl) hst).snoc (b := s.heap+s.curSize) rfl (by omega)
    rw [hst'] at htl
    rwa [hhp]
end

end

section

/-- The allocations as the loop of `unsafe_truncate_heap` sees them, from the last one back. -/
structure UserHeap.Trailing (s : UserHeap) (as : List ℕ) : Prop where
  prevs : Chain (fun a=>(s.alloc a).prev) s.last as.reverse
  tiles : Tiles id s.stop s.heap as (s.heap+s.curSize)

theorem UserHeap.Blocks.trailing (h : s.Blocks as) : s.Trailing as := by
  refine ⟨?_,h.tiles⟩
  rw [h.last]
  exact h.links.chain_prev

theorem truncateLoop_spec (h : s.Trailing as) (hlm : s.heap+s.curSize<2^32) (hfl : as.length<fuel) :
    Returns (truncateLoop fuel) s (fun _ t=>∃ cur last, t = {s with curSize := cur, last := last} ∧
      cur ≤ s.curSize ∧ t.Trailing (as.rdropWhile (fun a=>(s.alloc a).free))) := by
  induction fuel generalizing s as with
  | zero => exact absurd hfl (not_lt_zero _)
  | succ fuel ih =>
    rw [truncateLoop,Returns,wp_bind,wp_get]
    rcases eq_nil_or_concat as with rfl | ⟨l,d,rfl⟩
    · have hls := h.prevs
      rw [if_neg (fun hc=>hc.1 hls),wp_pure]
      exact ⟨s.curSize,s.last,rfl,le_refl _,h⟩
    · rw [concat_eq_append] at *
      obtain ⟨htl,-,hst⟩ := h.tiles.of_snoc
      have hpr := h.prevs
      rw [reverse_append] at hpr
      obtain ⟨hls,hne,hpr⟩ := hpr
      cases hfr : (s.alloc d).free with
      | false =>
        rw [if_neg (by rw [hls,hfr]; simp),wp_pure,
          rdropWhile_concat_neg (p := fun a=>(s.alloc a).free) l d (by simp [hfr])]
        exact ⟨s.curSize,s.last,rfl,le_refl _,h⟩
      | true =>
        have hle := htl.le
        simp only [UserHeap.stop,id] at hst hle
        have hcur : (s.curSize+2^32-(sizeofHeapAlloc+(s.alloc d).size)%2^32)%2^32=d-s.heap := by omega
        rw [if_pos (by rw [hls]; exact ⟨hne,hfr⟩),wp_bind,wp_set,hls,hcur,
          rdropWhile_concat_pos (p := fun a=>(s.alloc a).free) l d hfr]
        have hrs : UserHeap.Trailing {s with curSize := d-s.heap, last := (s.alloc d).prev} l := by
          refine ⟨hpr,?_⟩
          change Tiles id s.stop s.heap l (s.heap+(d-s.heap))
          rwa [Nat.add_sub_cancel' hle]
        have hcur' : d-s.heap ≤ s.curSize := by omega
        apply (ih hrs (by change s.heap+(d-s.heap)<2^32; omega) (by simpa using hfl)).imp
        rintro - t ⟨cur,last,rfl,hle',ht⟩
        exact ⟨cur,last,rfl,le_trans hle' hcur',ht⟩

theorem UserHeap.Trailing.eq_nil_of_last (h : s.Trailing as) (h0 : s.last=0) : as=[] := by
  rcases eq_nil_or_concat as with rfl | ⟨l,d,rfl⟩
  · rfl
  · have hp := h.prevs
    rw [concat_eq_append,reverse_append] at hp
    exact absurd (hp.1.symm.trans h0) hp.2.1

theorem UserHeap.Trailing.last_eq (h : s.Trailing as) : s.last=as.getLastD 0 := by
  rcases eq_nil_or_concat as with rfl | ⟨l,d,rfl⟩
  · exact h.prevs
  · have hp := h.prevs
    rw [concat_eq_append,reverse_append] at hp
    rw [concat_eq_append,getLastD_concat]
    exact hp.1

theorem UserHeap.Blocks.cut {cur last : ℕ} (h : s.Blocks (l++r))
    (ht : UserHeap.Trailing {s with curSize := cur, last := last} l) (h0 : last≠0) :
    (UserHeap.header {s with curSize := cur, last := last} last (fun h=>{h with next := 0})).Blocks l := by
  have hls : last=l.getLastD 0 := ht.last_eq
  have hne : l≠[] := by
    rintro rfl
    exact h0 hls
  have hnd := h.nodup.of_append_left
  refine ⟨h.links.cut ?_ ?_ (fun y _=>header_field HeapAlloc.prev (by simp) y),?_,hls,?_⟩
  · intro y hy
    have hy' := hls▸ne_getLastD_of_mem_dropLast hnd hy
    exact congrArg HeapAlloc.next (header_alloc_of_ne _ hy')
  · simp_all
  · have hfr := h.first
    cases l with
    | nil => exact absurd rfl hne
    | cons x xs => exact hfr
  · exact ht.tiles.congr (fun _ _=>rfl)
      (fun b _=>congrArg (b+sizeofHeapAlloc + ·) (header_field HeapAlloc.size (by simp) b))

/-- What truncating and the calls built on it leave alone. -/
structure UserHeap.SameRoom (s t : UserHeap) : Prop where
  heap : t.heap=s.heap
  heapSize : t.heapSize=s.heapSize
  vbreak : t.vbreak=s.vbreak
  base : t.base=s.base
  curSize : t.curSize ≤ s.curSize
  size : ∀ a, (t.alloc a).size=(s.alloc a).size

theorem unsafeTruncateHeap_spec (h : s.Blocks as) (hs : s.Bounds) :
    Returns unsafeTruncateHeap s (fun _ t=>t.Blocks (as.rdropWhile (fun a=>(s.alloc a).free)) ∧
      s.SameRoom t ∧ ∀ a, (t.alloc a).free=(s.alloc a).free) := by
  have hlm : s.heap+s.curSize<2^32 := by
    have hsz := hs.size
    have hbr := hs.vbreak
    have hlt := hs.limit
    omega
  rw [unsafeTruncateHeap,Returns,wp_bind,wp_get]
  refine Ensures.ite (fun h0=>?_) (fun _=>?_)
  · obtain rfl := h.trailing.eq_nil_of_last h0
    rw [wp_pure]
    exact ⟨h,⟨rfl,rfl,rfl,rfl,le_refl _,fun _=>rfl⟩,fun _=>rfl⟩
  · rw [wp_bind]
    apply (truncateLoop_spec h.trailing hlm (h.length_lt hs)).imp
    rintro - _ ⟨cur,last,rfl,hle,ht⟩
    rw [wp_bind,wp_get]
    refine Ensures.ite (fun h0=>?_) (fun h0=>?_)
    · have hnil := ht.eq_nil_of_last h0
      rw [hnil] at ht ⊢
      rw [wp_set]
      exact ⟨⟨trivial,rfl,h0,ht.tiles⟩,⟨rfl,rfl,rfl,rfl,hle,fun _=>rfl⟩,fun _=>rfl⟩
    · rw [wp_set]
      have happ := rdropWhile_append_rtakeWhile (p := fun a=>(s.alloc a).free) (l := as)
      rw [← happ] at h
      exact ⟨h.cut ht h0,⟨rfl,rfl,rfl,rfl,hle,UserHeap.header_field HeapAlloc.size (fun _=>rfl)⟩,
        UserHeap.header_field HeapAlloc.free (fun _=>rfl)⟩

theorem UserHeap.Blocks.header (h : s.Blocks as)
    (hn : ∀ h, (f h).next=h.next) (hp : ∀ h, (f h).prev=h.prev) (hs : ∀ h, (f h).size=h.size) :
    (s.header a f).Blocks as := by
  refine ⟨h.links.congr (fun b _=>header_field HeapAlloc.next hn b)
    (fun b _=>header_field HeapAlloc.prev hp b),h.first,h.last,?_⟩
  exact h.tiles.congr (fun _ _=>rfl)
    (fun b _=>congrArg (b+sizeofHeapAlloc + ·) (header_field HeapAlloc.size hs b))

theorem free_spec (h : s.Blocks as) (hs : s.Bounds) (hus : ∀ d, as.getLast? = some d → (s.alloc d).free=false)
    (ha : a ∈ as) :
    Returns (free (a+sizeofHeapAlloc)) s (fun _ t=>∃ as', t.Blocks as' ∧ s.SameRoom t ∧
      (∀ d, as'.getLast? = some d → (t.alloc d).free=false) ∧
      ∀ b ∈ as, b≠a → (s.alloc b).free=false → b ∈ as' ∧ (t.alloc b).free=false) := by
  rw [free,Returns,Nat.add_sub_cancel,wp_bind,wp_modify,wp_bind,wp_get]
  have hmr : (s.header a (fun h=>{h with free := true})).Blocks as :=
    h.header (fun _=>rfl) (fun _=>rfl) (fun _=>rfl)
  have hsz : ∀ b, ((s.header a (fun h=>{h with free := true})).alloc b).size=(s.alloc b).size :=
    UserHeap.header_field HeapAlloc.size (fun _=>rfl)
  have hot : ∀ b, b≠a → (s.header a (fun h=>{h with free := true})).alloc b=s.alloc b :=
    fun b hb=>UserHeap.header_alloc_of_ne _ hb
  refine Ensures.ite (fun _=>?_) (fun hc=>?_)
  · apply (unsafeTruncateHeap_spec hmr ⟨hs.size,hs.vbreak,hs.limit⟩).imp
    rintro - t ⟨ht,hrm,hfr⟩
    refine ⟨_,ht,⟨hrm.heap,hrm.heapSize,hrm.vbreak,hrm.base,hrm.curSize,fun b=>?_⟩,?_,?_⟩
    · rw [hrm.size,hsz]
    · intro d hd
      have hne := ne_nil_of_mem (mem_of_getLast? hd)
      have hls := rdropWhile_last_not _ _ hne
      rw [List.getLast?_eq_some_getLast hne] at hd
      rw [Option.some.inj hd] at hls
      rw [hfr]
      exact Bool.eq_false_of_not_eq_true hls
    · intro b hb hba hbf
      have hbf' : ((s.header a (fun h=>{h with free := true})).alloc b).free=false := by rw [hot b hba,hbf]
      exact ⟨mem_rdropWhile hb hbf',(hfr b).trans hbf'⟩
  · rw [wp_pure]
    refine ⟨as,hmr,⟨rfl,rfl,rfl,rfl,le_refl _,hsz⟩,?_,?_⟩
    · -- the last allocation has no next one, so it is not the one that was freed
      intro d hd
      by_cases hda : d=a
      · subst hda
        obtain ⟨l,rfl⟩ := List.getLast?_eq_some_iff.mp hd
        exact absurd (.inl hmr.links.next_eq) hc
      · rw [hot d hda,hus d hd]
    · simp_all
end

section

/-- The invariant of the heap. Before the first call it has no place yet. -/
structure UserHeap.Inv (s : UserHeap) (as : List ℕ) : Prop where
  blocks : s.Blocks as
  bounds : s.Bounds
  lastUsed : ∀ d, as.getLast? = some d → (s.alloc d).free=false
  base_ne : s.base≠0
  place : s.heap=s.base ∨ s.heap=0 ∧ as=[] ∧ s.curSize=0 ∧ s.heapSize=0 ∧ s.vbreak=s.base

theorem lazilyInitHeap_fields (s : UserHeap) : (lazilyInitHeap s).first=s.first ∧ (lazilyInitHeap s).last=s.last ∧
    (lazilyInitHeap s).curSize=s.curSize ∧ (lazilyInitHeap s).heapSize=s.heapSize ∧
    (lazilyInitHeap s).alloc=s.alloc ∧ (lazilyInitHeap s).base=s.base := by
  rw [lazilyInitHeap]
  split <;> exact ⟨rfl,rfl,rfl,rfl,rfl,rfl⟩

theorem lazilyInitHeap_inv (h : s.Inv as) : (lazilyInitHeap s).Inv as ∧ (lazilyInitHeap s).heap=s.base := by
  have hbs := h.base_ne
  rw [lazilyInitHeap]
  split
  case isTrue h0 =>
    rcases h.place with hp | ⟨-,rfl,hcur,hsz,hbr⟩
    · omega
    · have hb := h.blocks
      refine ⟨⟨⟨trivial,hb.first,hb.last,?_⟩,⟨h.bounds.size,?_,h.bounds.limit⟩,?_,hbs,.inl hbr⟩, hbr⟩
      · change s.vbreak=s.vbreak+s.curSize
        omega
      · simp_all
      · simp
  case isFalse h0 => exact ⟨h,h.place.resolve_right (fun hp=>h0 hp.1)⟩

/-- The heap has to grow, and `brk` fails. -/
def UserHeap.Refuses (s : UserHeap) (granted : Bool) (newSize : ℕ) : Prop :=
  s.heapSize<newSize ∧ ¬ (granted=true ∧ s.base≤(s.heap+newSize)%2^32)

theorem growHeap_spec (hs : s.Bounds) (hb : s.heap=s.base) (hn : newSize<2^32) :
    Returns (growHeap granted newSize) s (fun ok t=>ok=false ∧ t=s ∧ s.Refuses granted newSize ∨
      ok=true ∧ ¬ s.Refuses granted newSize ∧ newSize≤t.heapSize ∧ t.Bounds ∧
        t = {s with heapSize := t.heapSize, vbreak := t.vbreak}) := by
  have hsz := hs.size
  have hbr := hs.vbreak
  have hlm := hs.limit
  rw [growHeap,Returns,wp_bind,wp_get]
  refine Ensures.ite (fun hlt=>?_) (fun hge=>?_)
  · rw [wp_bind,brk,wp_bind,wp_get]
    refine Ensures.ite (fun hg=>?_) (fun hg=>?_)
    · have hwr : (s.heap+newSize)%2^32=s.heap+newSize := by
        have hle := hg.2
        omega
      rw [wp_bind,wp_set,wp_pure,if_neg (by decide),wp_bind,wp_modify,wp_pure,hwr]
      refine .inr ⟨rfl,fun hr=>hr.2 hg,le_refl _,⟨?_,le_refl _,?_⟩,rfl⟩
      · change s.curSize≤newSize
        omega
      · simp_all
    · rw [wp_pure,if_pos (by decide),wp_pure]
      exact .inl ⟨rfl,rfl,hlt,hg⟩
  · rw [wp_pure]
    exact .inr ⟨rfl,fun hr=>hge hr.1,Nat.le_of_not_lt hge,hs,rfl⟩

/-- What `malloc` does to a heap that has its place: the new allocation follows the last one. -/
structure UserHeap.Extended (s : UserHeap) (as : List ℕ) (size : ℕ) (t : UserHeap) : Prop where
  inv : t.Inv (as++[s.heap+s.curSize])
  new : (t.alloc (s.heap+s.curSize)).size=size ∧ (t.alloc (s.heap+s.curSize)).free=false
  old : ∀ b ∈ as, (t.alloc b).size=(s.alloc b).size ∧ (t.alloc b).free=(s.alloc b).free

theorem UserHeap.Inv.allocated (h : s.Inv as) (hb : s.heap=s.base)
    (hrm : s.curSize+(sizeofHeapAlloc+size) ≤ s.heapSize) :
    s.Extended as size (allocated s size) := by
  have h0 := hb▸h.base_ne
  have hsl := allocated_self h.blocks h0 size
  have hfl : (Libc.allocated s size).heapSize=s.heapSize ∧ (Libc.allocated s size).heap=s.heap ∧
      (Libc.allocated s size).vbreak=s.vbreak ∧ (Libc.allocated s size).base=s.base := by
    unfold Libc.allocated placeAlloc
    split <;> exact ⟨rfl,rfl,rfl,rfl⟩
  obtain ⟨hsz,hhp,hbr,hbs⟩ := hfl
  refine ⟨⟨h.blocks.allocated h0 size,⟨?_,?_,?_⟩,?_,?_,.inl ?_⟩,?_,?_⟩
  · rwa [hsz]
  · rw [hhp,hsz,hbr]
    exact h.bounds.vbreak
  · rw [hbr]
    exact h.bounds.limit
  · simp_all
  · omega
  · rw [hhp,hbs,hb]
  · simp_all
  · intro b hb
    exact (allocated_of_mem h.blocks h0 hb).2

theorem malloc_spec (granted : Bool) (h : s.Inv as) (size : ℕ) : Returns (malloc granted size) s (fun p t =>
      p=0 ∧ t=lazilyInitHeap s ∧
        (lazilyInitHeap s).Refuses granted ((s.curSize+sizeofHeapAlloc+size)%2^32) ∨
      p=(lazilyInitHeap s).heap+s.curSize+sizeofHeapAlloc ∧
        ¬ (lazilyInitHeap s).Refuses granted ((s.curSize+sizeofHeapAlloc+size)%2^32) ∧
        t.heap=(lazilyInitHeap s).heap ∧ t.heap+t.heapSize<2^32 ∧
        (s.curSize+sizeofHeapAlloc+size<2^32 → (lazilyInitHeap s).Extended as size t)) := by
  obtain ⟨hin,hhp⟩ := lazilyInitHeap_inv h
  obtain ⟨-,-,hcur,-,-,hbs⟩ := lazilyInitHeap_fields s
  rw [malloc,Returns,wp_bind,wp_modify,wp_bind,wp_get,← hcur]
  rw [← hbs] at hhp
  generalize lazilyInitHeap s=s1 at *
  rw [wp_bind]
  apply (growHeap_spec hin.bounds hhp (mod_lt _ (by decide))).imp
  rintro ok t (⟨rfl,rfl,hr⟩ | ⟨rfl,hr,hrm,hbn,ht⟩)
  · simp_all
  · have hgr : t.Inv as := by
      rw [ht] at hbn ⊢
      exact ⟨⟨hin.blocks.links,hin.blocks.first,hin.blocks.last,hin.blocks.tiles⟩,hbn,
        hin.lastUsed,hin.base_ne,.inl hhp⟩
    have hsm : t.heap=s1.heap ∧ t.curSize=s1.curSize ∧ t.base=s1.base ∧ t.alloc=s1.alloc := by
      rw [ht]
      exact ⟨rfl,rfl,rfl,rfl⟩
    obtain ⟨hhp',hcur',hbs',hal⟩ := hsm
    rw [if_neg (by decide),Nat.add_sub_cancel,wp_bind,wp_modify,wp_bind,wp_modify,
      wp_bind,wp_modify,wp_pure,← hhp',← hcur']
    have hkp : (placeAlloc (t.heap+t.curSize) (buildAlloc (t.heap+t.curSize) size t)).heap=t.heap ∧
        (placeAlloc (t.heap+t.curSize) (buildAlloc (t.heap+t.curSize) size t)).heapSize=t.heapSize ∧
        (placeAlloc (t.heap+t.curSize) (buildAlloc (t.heap+t.curSize) size t)).curSize=t.curSize := by
      unfold placeAlloc
      split <;> exact ⟨rfl,rfl,rfl⟩
    refine .inr ⟨rfl,hcur'▸hr,hkp.1,?_,fun hsz=>?_⟩
    · simpa [hkp] using hbn.vbreak.trans_lt hbn.limit
    · rw [← hcur',mod_eq_of_lt hsz] at hrm
      have hnew : t.Extended as size (allocated t size) := hgr.allocated (by omega) (by omega)
      have hwr : (t.curSize+(sizeofHeapAlloc+size))%2^32=t.curSize+(sizeofHeapAlloc+size) :=
        mod_eq_of_lt (by omega)
      rw [hkp.2.2,hwr]
      refine ⟨?_,?_,?_⟩
      · rw [← hhp',← hcur']
        exact hnew.inv
      · rw [← hhp',← hcur']
        exact hnew.new
      · rw [← hal]
        exact hnew.old
end

section

structure Area where
  addr : ℕ
  size : ℕ
  deriving DecidableEq

def Area.Owns (ar : Area) (x : ℕ) : Prop := ar.addr≤x ∧ x<ar.addr+ar.size

/-- The heap and the areas that have not been freed. -/
structure Program where
  heap : UserHeap
  live : List Area

/-- One call. The size that is asked for does not wrap, and what is freed is live. -/
inductive HeapCall : Program → Program → Prop
  | malloc {s t : UserHeap} {live : List Area} {granted : Bool} {size p : ℕ} :
      s.curSize+sizeofHeapAlloc+size<2^32 → malloc granted size s=.ok p t → p≠0 →
      HeapCall ⟨s,live⟩ ⟨t,⟨p,size⟩::live⟩
  | mallocNull {s t : UserHeap} {live : List Area} {granted : Bool} {size : ℕ} :
      s.curSize+sizeofHeapAlloc+size<2^32 → malloc granted size s=.ok 0 t →
      HeapCall ⟨s,live⟩ ⟨t,live⟩
  | free {s t : UserHeap} {live : List Area} {ar : Area} : ar ∈ live → free ar.addr s=.ok () t →
      HeapCall ⟨s,live⟩ ⟨t,live.erase ar⟩

/-- A program that has not allocated. -/
structure HeapStart (c : Program) : Prop where
  heap : c.heap.heap=0 ∧ c.heap.heapSize=0 ∧ c.heap.curSize=0 ∧ c.heap.first=0 ∧ c.heap.last=0
  vbreak : c.heap.vbreak=c.heap.base ∧ c.heap.base≠0 ∧ c.heap.base<2^32
  live : c.live=[]

def HeapRun : Program → Program → Prop := Relation.ReflTransGen HeapCall

structure ProgramInv (c : Program) (as : List ℕ) : Prop where
  heap : c.heap.Inv as
  area : ∀ ar ∈ c.live, ∃ a ∈ as, ar.addr=a+sizeofHeapAlloc ∧ (c.heap.alloc a).size=ar.size ∧
    (c.heap.alloc a).free=false
  nodup : (c.live.map Area.addr).Nodup

variable {c d : Program} {ar : Area}

theorem HeapStart.inv (h : HeapStart c) : ProgramInv c [] := by
  obtain ⟨hhp,hsz,hcur,hfr,hls⟩ := h.heap
  obtain ⟨hbr,hne,hlm⟩ := h.vbreak
  refine ⟨⟨⟨trivial,hfr,hls,?_⟩,⟨?_,?_,?_⟩,?_,hne,.inr ⟨hhp,rfl,hcur,hsz,hbr⟩⟩,?_,?_⟩
  · change c.heap.heap=c.heap.heap+c.heap.curSize
    omega
  · omega
  · omega
  · omega
  · simp
  · simp [h.live]
  · simp [h.live]

theorem ProgramInv.malloc (h : ProgramInv c as)
    (hp : p=(lazilyInitHeap c.heap).heap+c.heap.curSize+sizeofHeapAlloc)
    (ht : (lazilyInitHeap c.heap).Extended as size t) :
    ProgramInv ⟨t,⟨p,size⟩::c.live⟩ (as++[(lazilyInitHeap c.heap).heap+c.heap.curSize]) := by
  have hit := (lazilyInitHeap_inv h.heap).1
  obtain ⟨-,-,hcur,-,hal,-⟩ := lazilyInitHeap_fields c.heap
  have hnew := ht.new
  have hinv := ht.inv
  rw [hcur] at hnew hinv
  refine ⟨hinv,fun ar har=>?_,?_⟩
  · rcases mem_cons.mp har with rfl | har
    · exact ⟨_,by simp,hp,hnew⟩
    · obtain ⟨a,ha,had,hsz,hfr⟩ := h.area ar har
      obtain ⟨hsz',hfr'⟩ := ht.old a ha
      rw [hal] at hsz' hfr'
      exact ⟨a,by simp [ha],had,hsz'.trans hsz,hfr'.trans hfr⟩
  · rw [map_cons]
    refine nodup_cons.mpr ⟨fun hin=>?_,h.nodup⟩
    obtain ⟨ar,har,had⟩ := mem_map.mp hin
    obtain ⟨a,ha,had',-⟩ := h.area ar har
    have hlt := hit.blocks.lt_end ha
    simp only at had
    omega

theorem ProgramInv.free (h : ProgramInv c as) (har : ar ∈ c.live) :
    Returns (free ar.addr) c.heap (fun _ t=>∃ as', ProgramInv ⟨t,c.live.erase ar⟩ as') := by
  obtain ⟨a,ha,had,-⟩ := h.area ar har
  rw [had]
  apply (free_spec h.heap.blocks h.heap.bounds h.heap.lastUsed ha).imp
  rintro - t ⟨as',hbl,hrm,hls,hkp⟩
  have hbn := h.heap.bounds
  have hpl : t.heap=t.base ∨ t.heap=0 ∧ as'=[] ∧ t.curSize=0 ∧ t.heapSize=0 ∧ t.vbreak=t.base := by
    rcases h.heap.place with hp | ⟨-,rfl,-⟩
    · exact .inl (by rw [hrm.heap,hrm.base,hp])
    · simp at ha
  refine ⟨as',⟨hbl,⟨?_,?_,?_⟩,hls,?_,hpl⟩,fun ar' har'=>?_,?_⟩
  · rw [hrm.heapSize]
    exact le_trans hrm.curSize hbn.size
  · rw [hrm.heap,hrm.heapSize,hrm.vbreak]
    exact hbn.vbreak
  · rw [hrm.vbreak]
    exact hbn.limit
  · rw [hrm.base]
    exact h.heap.base_ne
  · obtain ⟨hne,hmem⟩ := (h.nodup.of_map _).mem_erase_iff.mp har'
    obtain ⟨b,hb,had',hsz,hfr⟩ := h.area ar' hmem
    have hba : b≠a := fun he=>hne (inj_on_of_nodup_map h.nodup hmem har (by rw [had',had,he]))
    obtain ⟨hb',hfr'⟩ := hkp b hb hba hfr
    exact ⟨b,hb',had',(hrm.size b).trans hsz,hfr'⟩
  · exact h.nodup.sublist (erase_sublist.map _)

theorem HeapCall.inv (hst : HeapCall c d) (h : ProgramInv c as) : ∃ as', ProgramInv d as' := by
  cases hst with
  | @malloc s t live granted size p hsz hok hp =>
    rcases (malloc_spec granted h.heap size).of_ok hok with ⟨rfl,-⟩ | ⟨hp,-,-,-,ht⟩
    · exact absurd rfl hp
    · exact ⟨_,h.malloc hp (ht hsz)⟩
  | @mallocNull s t live granted size hsz hok =>
    rcases (malloc_spec granted h.heap size).of_ok hok with ⟨-,rfl,-⟩ | ⟨hp,-⟩
    · have hin := (lazilyInitHeap_inv h.heap).1
      obtain ⟨-,-,-,-,hal,-⟩ := lazilyInitHeap_fields s
      refine ⟨as,hin,?_,h.nodup⟩
      rw [hal]
      exact h.area
    · simp_all [sizeofHeapAlloc]
  | @free s t live ar har hok => exact (h.free har).of_ok hok

theorem HeapRun.inv (hrun : HeapRun c d) (h0 : HeapStart c) : ∃ as, ProgramInv d as :=
  Reaches.invariant (I := fun d=>∃ as, ProgramInv d as) hrun ⟨[],h0.inv⟩
    (fun _ _ ⟨_,hinv⟩ hs=>hs.inv hinv)

/-- The heap is in order: `as` are the addresses of its headers from the first to the last. -/
structure HeapSound (c : Program) (as : List ℕ) : Prop where
  next : Chain (fun a=>(c.heap.alloc a).next) c.heap.first as
  prev : Chain (fun a=>(c.heap.alloc a).prev) c.heap.last as.reverse
  tiles : Tiles id c.heap.stop c.heap.heap as (c.heap.heap+c.heap.curSize)
  size : c.heap.curSize≤c.heap.heapSize
  vbreak : c.heap.heap+c.heap.heapSize≤c.heap.vbreak
  last : c.heap.last=0 ∨ c.heap.last ∈ as ∧ (c.heap.alloc c.heap.last).free=false
  area : ∀ ar ∈ c.live, ∃ a ∈ as, ar.addr=a+sizeofHeapAlloc ∧ (c.heap.alloc a).size=ar.size ∧
    (c.heap.alloc a).free=false
  disjoint : c.live.Pairwise (fun ar ar'=>∀ x, ¬ (ar.Owns x ∧ ar'.Owns x))
  headerFree : ∀ ar ∈ c.live, ∀ a ∈ as, ∀ x, a≤x → x<a+sizeofHeapAlloc → ¬ ar.Owns x
  mallocReturns : ∀ granted size, c.heap.curSize+sizeofHeapAlloc+size<2^32 →
    ∃ p t, malloc granted size c.heap=.ok p t
  mallocNull : ∀ granted size t, c.heap.curSize+sizeofHeapAlloc+size<2^32 →
    malloc granted size c.heap=.ok 0 t → t.first=c.heap.first ∧ t.last=c.heap.last ∧
      t.curSize=c.heap.curSize ∧ t.heapSize=c.heap.heapSize ∧ t.alloc=c.heap.alloc
  freeReturns : ∀ ar ∈ c.live, ∃ t, free ar.addr c.heap=.ok () t

theorem ProgramInv.disjoint (h : ProgramInv c as) :
    c.live.Pairwise (fun ar ar'=>∀ x, ¬ (ar.Owns x ∧ ar'.Owns x)) := by
  refine (pairwise_map.mp h.nodup).imp_of_mem (fun {ar ar'} har har' hne x hx=>?_)
  obtain ⟨a,ha,had,hsz,-⟩ := h.area ar har
  obtain ⟨a',ha',had',hsz',-⟩ := h.area ar' har'
  have hap := h.heap.blocks.tiles.apart ha ha' (fun he=>hne (by rw [had,had',he]))
  simp only [Area.Owns,UserHeap.stop,id] at hx hap
  omega

theorem ProgramInv.headerFree (h : ProgramInv c as) (har : ar ∈ c.live) (ha : a ∈ as) (hx : a≤x)
    (hx' : x<a+sizeofHeapAlloc) : ¬ ar.Owns x := by
  obtain ⟨b,hb,had,hsz,-⟩ := h.area ar har
  intro hown
  simp only [Area.Owns] at hown
  by_cases he : a=b
  · omega
  · have hap := h.heap.blocks.tiles.apart ha hb he
    simp only [UserHeap.stop,id] at hap
    omega

theorem ProgramInv.sound (h : ProgramInv c as) : HeapSound c as where
  next := h.heap.blocks.first▸h.heap.blocks.links.chain_next
  prev := h.heap.blocks.last▸h.heap.blocks.links.chain_prev
  tiles := h.heap.blocks.tiles
  size := h.heap.bounds.size
  vbreak := h.heap.bounds.vbreak
  last := by
    rcases eq_nil_or_concat as with rfl | ⟨l,d,rfl⟩
    · exact .inl h.heap.blocks.last
    · rw [concat_eq_append] at *
      have hls := h.heap.blocks.last
      rw [getLastD_concat] at hls
      rw [hls]
      exact .inr ⟨by simp,h.heap.lastUsed d (by simp)⟩
  area := h.area
  disjoint := h.disjoint
  headerFree := fun _ har _ ha _ hx hx'=>h.headerFree har ha hx hx'
  mallocReturns := by
    intro granted size hsz
    obtain ⟨p,t,hok,-⟩ := Returns.exists_ok (malloc_spec granted h.heap size)
    exact ⟨p,t,hok⟩
  mallocNull := by
    intro granted size t hsz hok
    rcases (malloc_spec granted h.heap size).of_ok hok with ⟨-,rfl,-⟩ | ⟨hp,-⟩
    · obtain ⟨hfr,hls,hcur,hheapSize,hal,-⟩ := lazilyInitHeap_fields c.heap
      exact ⟨hfr,hls,hcur,hheapSize,hal⟩
    · simp_all [sizeofHeapAlloc]
  freeReturns := by
    intro ar har
    obtain ⟨⟨⟩,t,hok,-⟩ := Returns.exists_ok (h.free har)
    exact ⟨t,hok⟩
end

/-- In every state of every run of `malloc` and `free` the heap is in order. -/
theorem userHeap_sound {c d : Program} (h0 : HeapStart c) (hrun : HeapRun c d) : ∃ as, HeapSound d as := by
  obtain ⟨as,hinv⟩ := hrun.inv h0
  exact ⟨as,hinv.sound⟩

/-- The heap of a process whose break is at `0x5000`. -/
def freshUserHeap : UserHeap where
  heapSize := 0
  curSize := 0
  heap := 0
  first := 0
  last := 0
  alloc := fun _=>⟨0,0,0,0,false,0⟩
  vbreak := 0x5000
  base := 0x5000

/-- Two areas are allocated, a third one is refused, and both are freed, the first one first. -/
theorem userHeap_sound_twoAreas : HeapStart ⟨freshUserHeap,[]⟩ ∧ ∃ t as, HeapRun ⟨freshUserHeap,[]⟩ ⟨t,[]⟩ ∧
      t.curSize=0 ∧ t.heapSize=60 ∧ HeapSound ⟨t,[]⟩ as := by
  have h0 : HeapStart ⟨freshUserHeap,[]⟩ := ⟨⟨rfl,rfl,rfl,rfl,rfl⟩,⟨rfl,by decide,by decide⟩,rfl⟩
  obtain ⟨s,hs,hcur⟩ : ∃ s, malloc true 8 freshUserHeap=.ok 20504 s ∧ s.curSize=32 := ⟨_,rfl,rfl⟩
  obtain ⟨t,ht,hcur'⟩ : ∃ t, malloc true 4 s=.ok 20536 t ∧ t.curSize=60 := by
    cases hs
    exact ⟨_,rfl,rfl⟩
  obtain ⟨u,hu⟩ : ∃ u, malloc false 100 t=.ok 0 u := by
    cases hs
    cases ht
    exact ⟨_,rfl⟩
  obtain ⟨v,hv⟩ : ∃ v, free 20504 u=.ok () v := by
    cases hs
    cases ht
    cases hu
    exact ⟨_,rfl⟩
  obtain ⟨w,hw,hend,hsz⟩ : ∃ w, free 20536 v=.ok () w ∧ w.curSize=0 ∧ w.heapSize=60 := by
    cases hs
    cases ht
    cases hu
    cases hv
    exact ⟨_,rfl,rfl,rfl⟩
  have hrun : HeapRun ⟨freshUserHeap,[]⟩ ⟨w,[]⟩ := by
    have h1 : HeapCall ⟨freshUserHeap,[]⟩ ⟨s,[⟨20504,8⟩]⟩ := .malloc (by decide) hs (by decide)
    have h2 : HeapCall ⟨s,[⟨20504,8⟩]⟩ ⟨t,[⟨20536,4⟩, ⟨20504,8⟩]⟩ :=
      .malloc (by rw [hcur]; decide) ht (by decide)
    have h3 : HeapCall ⟨t,[⟨20536,4⟩, ⟨20504,8⟩]⟩ ⟨u,[⟨20536,4⟩, ⟨20504,8⟩]⟩ :=
      .mallocNull (by rw [hcur']; decide) hu
    have h4 : HeapCall ⟨u,[⟨20536,4⟩, ⟨20504,8⟩]⟩ ⟨v,[⟨20536,4⟩]⟩ := by
      have hfr : (⟨20504,8⟩ : Area) ∈ [⟨20536,4⟩, ⟨20504,8⟩] := by decide
      exact .free hfr hv
    have h5 : HeapCall ⟨v,[⟨20536,4⟩]⟩ ⟨w,[]⟩ := by
      have hfr : (⟨20536,4⟩ : Area) ∈ [⟨20536,4⟩] := by decide
      exact .free hfr hw
    exact ((((Relation.ReflTransGen.single h1).tail h2).tail h3).tail h4).tail h5
  obtain ⟨as,hsn⟩ := userHeap_sound h0 hrun
  exact ⟨h0,w,as,hrun,hend,hsz,hsn⟩

section

/-- The product wraps, as the size given to `malloc` does. -/
def calloc (granted : Bool) (num size : ℕ) : Exec (UserHeap × Mem) ℕ := do
  let ptr ← zoom Prod.fst (fun h s=>(h,s.2)) (malloc granted (num*size%2^32))
  if ptr≠0 then
    modify (fun s=>(s.1,fill s.2 ptr (num*size%2^32) 0))
    return ptr
  else
    return ptr

/-- The `n` bytes at `p` lie in the heap, and overlap no live area and no header. -/
structure Fits (live : List Area) (t : UserHeap) (p n : ℕ) : Prop where
  inside : t.heap≤p ∧ p+n≤t.heap+t.heapSize
  apart : ∀ ar ∈ live, ∀ x, ¬ (Area.Owns ⟨p,n⟩ x ∧ ar.Owns x)
  headers : ∃ as, Chain (fun a=>(t.alloc a).next) t.first as ∧
    ∀ a ∈ as, ∀ x, a≤x → x<a+sizeofHeapAlloc → ¬ Area.Owns ⟨p,n⟩ x

variable {c d : Program} {n : ℕ}

theorem ProgramInv.fits (h : ProgramInv ⟨t,⟨p,n⟩::live⟩ as) : Fits live t p n := by
  obtain ⟨a,ha,had,hsz,-⟩ := h.area _ mem_cons_self
  have hb := h.heap.blocks.bounds ha
  have hle := h.heap.bounds.size
  simp only [UserHeap.stop] at had hsz hb hle
  refine ⟨by omega,fun ar har x hx=>(pairwise_cons.mp h.disjoint).1 ar har x hx,as,?_,
    fun a ha x=>h.headerFree mem_cons_self ha⟩
  exact h.heap.blocks.first▸h.heap.blocks.links.chain_next

/-- The heap has no room for `n` bytes and `brk` fails, with the sizes computed modulo `2^32`. -/
def UserHeap.Full (s : UserHeap) (granted : Bool) (n : ℕ) : Prop :=
  (lazilyInitHeap s).Refuses granted ((s.curSize+sizeofHeapAlloc+n)%2^32)

theorem malloc_fits (granted : Bool) (h : ProgramInv c as) (n : ℕ) :
    Returns (malloc granted (n%2^32)) c.heap (fun p t=>(p=0 ↔ c.heap.Full granted n) ∧
      (p≠0 → (Fits c.live t p n ↔ c.heap.curSize+sizeofHeapAlloc+n<2^32))) := by
  apply (malloc_spec granted h.heap (n%2^32)).imp
  rintro p t (⟨rfl,-,hr⟩ | ⟨hp,hr,hhp,hlt,hnew⟩) <;> rw [Nat.add_mod_mod] at hr
  · exact ⟨iff_of_true rfl hr,fun h0=>absurd rfl h0⟩
  have hp0 : p≠0 := by simp_all [sizeofHeapAlloc]
  refine ⟨iff_of_false hp0 hr,fun _=>⟨fun hft=>?_,fun hn=>?_⟩⟩
  · have hin := hft.inside
    omega
  · rw [mod_eq_of_lt (by omega)] at hnew
    exact (h.malloc hp (hnew hn)).fits

theorem calloc_fits (granted : Bool) (h : ProgramInv c as) (num size : ℕ) (m : Mem) :
    Returns (calloc granted num size) (c.heap,m) (fun p t=>(p=0 ↔ c.heap.Full granted (num*size)) ∧
      (p≠0 → (Fits c.live t.1 p (num*size) ∧ (∀ x, p≤x → x<p+num*size → t.2 x=0) ↔
        c.heap.curSize+sizeofHeapAlloc+num*size<2^32))) := by
  rw [calloc,Returns,wp_bind,wp_zoom]
  apply (malloc_fits granted h (num*size)).imp
  intro p t ⟨hnl,hiff⟩
  refine Ensures.ite (fun hp=>?_) (fun hp=>?_)
  · rw [wp_bind,wp_modify,wp_pure]
    refine ⟨hnl,fun _=>⟨fun hf=>(hiff hp).mp hf.1,fun hn=>⟨(hiff hp).mpr hn,fun x hx hx'=>?_⟩⟩⟩
    exact fill_inside hx (by rwa [mod_eq_of_lt (by omega)])
  · rw [wp_pure]
    exact ⟨hnl,fun h0=>absurd h0 hp⟩

/-- `malloc` and `calloc` refuse what does not fit iff the size does not wrap, with the header and what is
allocated, or the wrapped size is refused as well. -/
theorem alloc_refuses_iff (h0 : HeapStart c) (hrun : HeapRun c d) (granted : Bool) :
    (∀ size<2^32, Returns (malloc granted size) d.heap (fun p t=>p=0 ∨ Fits d.live t p size) ↔
      d.heap.curSize+sizeofHeapAlloc+size<2^32 ∨ d.heap.Full granted size) ∧
    ∀ num<2^32, ∀ size<2^32, ∀ m, Returns (calloc granted num size) (d.heap,m) (fun p t=>p=0 ∨
        Fits d.live t.1 p (num*size) ∧ ∀ x, p≤x → x<p+num*size → t.2 x=0) ↔
      d.heap.curSize+sizeofHeapAlloc+num*size<2^32 ∨ d.heap.Full granted (num*size) := by
  obtain ⟨as,h⟩ := hrun.inv h0
  refine ⟨fun size hs=>?_,fun num _ size _ m=>?_⟩
  · obtain ⟨p,t,hok,hn,hiff⟩ := Returns.exists_ok (malloc_fits granted h size)
    rw [mod_eq_of_lt hs] at hok
    rw [Returns,wp_of_ok hok,← hn]
    by_cases hp : p=0
    · simp [hp]
    · rw [or_iff_right hp,or_iff_left hp,hiff hp]
  · obtain ⟨p,t,hok,hn,hiff⟩ := Returns.exists_ok (calloc_fits granted h num size m)
    rw [Returns,wp_of_ok hok,← hn]
    by_cases hp : p=0
    · simp [hp]
    · rw [or_iff_right hp,or_iff_left hp,hiff hp]

/-- The first allocation of a process, of eight bytes. -/
theorem alloc_refuses_iff_eight : HeapStart ⟨freshUserHeap,[]⟩ ∧
    Returns (malloc true 8) freshUserHeap (fun p t=>p=0 ∨ Fits [] t p 8) := by
  have h0 : HeapStart ⟨freshUserHeap,[]⟩ := ⟨⟨rfl,rfl,rfl,rfl,rfl⟩,⟨rfl,by decide,by decide⟩,rfl⟩
  exact ⟨h0,((alloc_refuses_iff h0 .refl true).1 8 (by decide)).mpr (.inl (by decide))⟩

/-- A size near `2^32`, and a product of `2^32`, are given a few bytes. -/
theorem alloc_accepts_huge :
    (∃ t, malloc true 0xFFFFFFF0 freshUserHeap=.ok 0x5018 t ∧ ¬ Fits [] t 0x5018 0xFFFFFFF0) ∧
    ∃ t, calloc true 0x10000 0x10000 (freshUserHeap,fun _=>0)=.ok 0x5018 t ∧
      ¬ Fits [] t.1 0x5018 (0x10000*0x10000) := by
  have hm : ∃ t, malloc true 0xFFFFFFF0 freshUserHeap=.ok 0x5018 t ∧ t.heap+t.heapSize=0x5008 :=
    exists_ok_eq_of_passes (by decide +kernel)
  have hc : ∃ t, calloc true 0x10000 0x10000 (freshUserHeap,fun _=>0)=.ok 0x5018 t ∧
      t.1.heap+t.1.heapSize=0x5018 := exists_ok_eq_of_passes (by decide +kernel)
  obtain ⟨t,hok,ht⟩ := hm
  obtain ⟨u,hok',hu⟩ := hc
  exact ⟨⟨t,hok,fun h=>absurd h.inside.2 (by omega)⟩,⟨u,hok',fun h=>absurd h.inside.2 (by omega)⟩⟩
end

end Yaos2.Libc
