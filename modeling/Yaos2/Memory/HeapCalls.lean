import Yaos2.Memory.Heap

/-! # What the heap's calls do to its list of blocks -/
namespace Yaos2.Memory
open Foundation List Nat

variable {L : Layout} {s t : HeapState} {E : HeapState → Prop} {v n x : ℕ} {m m' : Mem} {b c : Block}
  {bs : List Block} {lo hi first last : ℕ} {fl live : List ℕ} {role role' : ℕ → Role}

section

theorem pageSteps_aligned (hlo : lo%pageSize=0) (hhi : hi%pageSize=0)
    (hle : lo≤hi) : lo+pageSize*pageSteps lo hi=hi := by
  simp only [pageSteps,pageSize] at *
  omega

theorem alignToNextPage_spec (hx : x≤0xFE000000) : alignToNextPage x%pageSize=0 ∧
    x≤alignToNextPage x ∧ alignToNextPage x<x+pageSize ∧ alignToNextPage x≤0xFE000000 := by
  have h1 := maskToPage_mod ((x+(pageSize-1))%2^32)
  have h2 := maskToPage_le ((x+(pageSize-1))%2^32)
  have h3 := lt_maskToPage_add ((x+(pageSize-1))%2^32)
  rw [alignToNextPage]
  simp only [pageSize] at *
  omega

/-- `k` pages from `v` on have been mapped, with frames or, once these have run out, with page zero.
-/
structure Grown (L : Layout) (live : List ℕ) (s : HeapState) (fl : List ℕ) (role : ℕ → Role)
    (v k : ℕ) (t : HeapState) (role' : ℕ → Role) : Prop where
  rest : t = {s with machine := t.machine}
  env : t.machine.env=s.machine.env
  owned : Owned L t.machine (fl.drop k) live role'
  keep : ∀ p, (role p).owner≠none → role' p=role p
  mapped : ∀ w<0xFE000000, v ≤ maskToPage w ∧ maskToPage w<v+pageSize*k ∨
    isPresent (walk s.machine.mem L.physKernelPd w)=true →
    isPresent (walk t.machine.mem L.physKernelPd w)=true
  trace : k≤fl.length ∧ Clean s.machine t.machine ∨ fl.length<k ∧ Tainted s.machine t.machine

theorem Grown.refl (h : Owned L s.machine fl live role) : Grown L live s fl role v 0 s role where
  rest := rfl
  env := rfl
  owned := h
  keep := fun _ _=>rfl
  mapped := by
    rintro w - (hw | hw)
    · omega
    · exact hw
  trace := .inl ⟨zero_le _,.of_eq rfl⟩

theorem growPage_spec (h : Grown L live s fl role v k t role')
    (hv : L.memBreak≤v) (ha : v%pageSize=0) (hv' : v+pageSize*k<0xFE000000) :
    Returns (growPage L (v+pageSize*k)) t
      (fun _ u=>∃ role'', Grown L live s fl role v (k+1) u role'') := by
  have hal : maskToPage (v+pageSize*k)=v+pageSize*k :=
    maskToPage_of_aligned (by rw [add_mul_mod_self_left,ha])
  -- a page at the next multiple of the page size is either an old one or the new one
  have hnew : ∀ w, maskToPage w<v+pageSize*(k+1) → v ≤ maskToPage w →
      maskToPage w=v+pageSize*k ∨ maskToPage w<v+pageSize*k := by
    intro w hw hw'
    have hm := maskToPage_mod w
    simp only [pageSize] at *
    omega
  simp only [growPage,wp_onMachine,wp_bind]
  apply (palloc_owned h.owned).imp
  rintro p m (⟨hfl,rfl,rfl⟩ | ⟨rest,hfl,hm,he,hf,⟨henv,htr⟩,-⟩)
  · have hlen := drop_eq_nil_iff.mp hfl
    apply (kpMap_spec h.owned (by omega) hv' (by decide)).imp
    rintro - u ⟨henv,hu,-,hmap,htn,-⟩
    refine ⟨role',by rw [h.rest],henv.trans h.env,?_,h.keep,fun w hw hc=>hmap w hw ?_, .inr ⟨by omega,?_⟩⟩
    · rwa [drop_eq_nil_of_le (by omega),← hfl]
    · rcases hc with ⟨hw1,hw2⟩ | hc
      · rcases hnew w hw2 hw1 with he | hlt
        · exact .inl (he.trans hal.symm)
        · exact .inr (h.mapped w hw (.inl ⟨hw1,hlt⟩))
      · exact .inr (h.mapped w hw (.inr hc))
    · have hext : Extends s.machine t.machine := by
        rcases h.trace with ⟨-,hc⟩ | ⟨-,ht⟩
        · exact hc.extends
        · exact ⟨ht.choose,ht.choose_spec.1⟩
      exact hext.tainted (htn pteGetPaddr_zero)
  · have hlen : k<fl.length := by
      by_contra hc
      rw [drop_eq_nil_of_le (by omega)] at hfl
      cases hfl
    have hb := hf.bounds
    apply (kpMap_spec hm (by omega) hv' (by omega)).imp
    rintro - u ⟨henv',hu,-,hmap,-,hcl⟩
    refine ⟨Function.update role' p .held,by rw [h.rest],(henv'.trans henv).trans h.env,?_,fun q hq=>?_,
      fun w hw hc=>hmap w hw ?_,.inl ⟨hlen,?_⟩⟩
    · rwa [← drop_drop,hfl]
    · have hq' := h.keep q hq
      refine Eq.trans (not_not.mp (fun hr=>?_)) hq'
      rcases he.roles q hr with hn | hn <;> exact hq (hq'▸hn)
    · rw [h.owned.kernel.walk_of_effect he (by omega)]
      rcases hc with ⟨hw1,hw2⟩ | hc
      · rcases hnew w hw2 hw1 with he | hlt
        · exact .inl (he.trans hal.symm)
        · exact .inr (h.mapped w hw (.inl ⟨hw1,hlt⟩))
      · exact .inr (h.mapped w hw (.inr hc))
    · have hc := hcl (by rw [hf.mask]; exact hf.ne_zero)
      rcases h.trace with ⟨-,hc'⟩ | ⟨hlt,-⟩
      · exact hc'.trans ((Clean.of_eq htr).trans hc)
      · omega

/-- The pages `unsafe_grow_heap` maps when `kalloc` needs `n` bytes. -/
def growthPages (s : HeapState) (n : ℕ) : ℕ :=
  if s.heapSize<n then
    pageSteps (alignToNextPage (s.heap+s.heapSize)) (alignToNextPage (s.heap+n))
  else 0

/-- What `kalloc` requires of its caller. -/
structure MayAllocate (L : Layout) (s : HeapState) : Prop where
  interrupts : s.eflagsIf=true ∨ s.nofActiveCpus≤1
  kernelTables : s.machine.env.isUsingKernelPageTables L=true
  pallocUnlocked : s.machine.env.pallocLockHeld=false
  kpUnlocked : s.machine.env.kpLockHeld=false

theorem growIfNeeded_spec (h : HeapBase L s) (ho : Owned L s.machine fl live role) (hn : s.heap+n<2^32) :
    Ensures (growIfNeeded L n) s
      (fun _ t=>s.heap+n≤0xFE000000 ∧ (growthPages s n≠0 → s.machine.env.kpLockHeld=false) ∧
        ∃ u role', t = {u with heapSize := max s.heapSize n} ∧
        Grown L live s fl role (alignToNextPage (s.heap+s.heapSize)) (growthPages s n) u role')
      (fun t=>(¬ MayAllocate L s ∨ 0xFE000000<s.heap+n) ∧ t=s) := by
  have hhp := h.heap
  have hend := h.region_end
  have hbn := h.bound
  simp only [growIfNeeded,wp_bind,wp_get]
  refine Ensures.ite (fun hlt=>?_) (fun hge=>?_)
  · simp only [unsafeGrowHeap,wp_bind,wp_get,wp_kassert (decide_eq_true hlt.le),wp_modify]
    rw [wp_panicIf_iff]
    refine ⟨fun hov=>⟨.inr (by omega),rfl⟩,fun hin=>?_⟩
    have hn : s.heap+n≤0xFE000000 := by omega
    have hlo := alignToNextPage_spec hbn
    have hhi := alignToNextPage_spec hn
    have hst := pageSteps_aligned hlo.1 hhi.1 (by
      have := hlo.1
      have := hhi.1
      simp only [pageSize] at *
      omega)
    rw [wp_panicIf (by rw [ho.unlocked]; simp),wp_panicIf_iff]
    refine ⟨fun hk=>⟨.inl (fun hmay=>?_),rfl⟩,fun hk=>?_⟩
    · simp_all [hmay.kpUnlocked]
    have hlp : Returns (forRange (pageSteps (alignToNextPage (s.heap+s.heapSize))
        (alignToNextPage (s.heap+n))) (fun k=>growPage L (alignToNextPage (s.heap+s.heapSize) +
          pageSize*k))) s (fun _ u=>∃ role', Grown L live s fl role
            (alignToNextPage (s.heap+s.heapSize)) (pageSteps (alignToNextPage (s.heap+s.heapSize))
              (alignToNextPage (s.heap+n))) u role') := by
      refine Ensures.forRange (I := fun k u=>∃ role', Grown L live s fl role
        (alignToNextPage (s.heap+s.heapSize)) k u role') ⟨role,.refl ho⟩ ?_
      rintro k u hk ⟨role',hu⟩
      apply growPage_spec hu (by omega) hlo.1
      simp only [pageSize] at *
      omega
    apply hlp.ensures.imp
    rintro - u ⟨role',hu⟩
    refine ⟨hn,fun _=>Bool.eq_false_of_not_eq_true hk,u,role',by rw [max_eq_right hlt.le],?_⟩
    rwa [growthPages,if_pos hlt]
  · rw [wp_pure]
    refine ⟨by omega,fun hk=>absurd (if_neg hge) hk,s,role,by rw [max_eq_left (by omega)],?_⟩
    rw [growthPages,if_neg hge]
    exact .refl ho

theorem Grown.heapBase (h : HeapBase L s) (hn : s.heap+n≤0xFE000000)
    (hu : Grown L live s fl role (alignToNextPage (s.heap+s.heapSize)) (growthPages s n) u role') :
    HeapBase L {u with heapSize := max s.heapSize n} := by
  have hrs := hu.rest
  have hb := h.bound
  have hsz := h.size
  have hmax : s.heap+max s.heapSize n≤0xFE000000 := by omega
  have hlo := alignToNextPage_spec (x := s.heap+s.heapSize) hb
  have hhi := alignToNextPage_spec hn
  refine ⟨?_,?_,?_,?_,?_,?_⟩
  · rw [hrs]
    exact h.initialized
  · rw [hrs]
    exact h.region
  · rw [hrs]
    exact h.heap
  · rw [hrs]
    change s.curSize ≤ max s.heapSize n
    omega
  · rwa [hrs]
  · rw [hrs]
    intro w hw hw'
    change s.heap≤w at hw
    change maskToPage w<s.heap+max s.heapSize n at hw'
    change isPresent (walk u.machine.mem L.physKernelPd w)=true
    have hm := lt_maskToPage_add w
    have hmod := maskToPage_mod w
    apply hu.mapped w (by simp only [pageSize] at *; omega)
    by_cases hold : maskToPage w<s.heap+s.heapSize
    · exact .inr (h.mapped w hw hold)
    · have hlt : s.heapSize<n := by omega
      have hst := pageSteps_aligned hlo.1 hhi.1 (by
        have := hlo.1
        have := hhi.1
        simp only [pageSize] at *
        omega)
      rw [growthPages,if_pos hlt,hst]
      refine .inl ?_
      simp only [pageSize] at *
      omega
end

section

/-- Memory after `kalloc` has written a header at `a` and linked it after `last`. -/
def withHeader (m : Mem) (a offset size last : ℕ) : Mem :=
  let m := store m (a+magic1Off) 4 heapAllocMagic
  let m := store m (a+alignOffsetOff) 4 offset
  let m := store m (a+sizeOff) 4 size
  let m := store m (a+freeOff) 1 0
  let m := store m (a+magic2Off) 4 heapAllocMagic
  let m := if last≠0 then store m (last+nextOff) 4 a else m
  let m := store m (a+prevOff) 4 last
  store m (a+nextOff) 4 0

variable {a offset size : ℕ}

theorem withHeader_outside (hx : x<a ∨ a+28≤x)
    (hx' : last≠0 → x<last+8 ∨ last+12≤x) : withHeader m a offset size last x=m x := by
  have hs : ∀ (m : Mem) (o k e : ℕ), o+k≤28 → store m (a+o) k e x=m x :=
    fun m o k e ho=>store_outside (by omega)
  simp only [withHeader]
  rw [hs _ _ _ _ (by decide),hs _ _ _ _ (by decide)]
  split
  · next hl =>
    rw [store_outside (by have := hx' hl; simp only [nextOff]; omega),hs _ _ _ _ (by decide),
      hs _ _ _ _ (by decide),hs _ _ _ _ (by decide),hs _ _ _ _ (by decide),
      hs _ _ _ _ (by decide)]
  · rw [hs _ _ _ _ (by decide),hs _ _ _ _ (by decide),hs _ _ _ _ (by decide),
      hs _ _ _ _ (by decide),hs _ _ _ _ (by decide)]

private theorem load_linkLast (hl : last≠0 → last+12≤a) :
    load (if last≠0 then store m (last+nextOff) 4 e else m) (a+o) k=load m (a+o) k := by
  split
  · next h =>
    have := hl h
    exact load_store_disjoint (by simp only [nextOff]; omega)
  · rfl

theorem withHeader_fields (last offset size : ℕ) (hl : last≠0 → last+12≤a) (hls : last<2^32)
    (ho : offset<2^32) (hs : size<2^32) :
    (load (withHeader m a offset size last) (a+magic1Off) 4=heapAllocMagic ∧
      load (withHeader m a offset size last) (a+magic2Off) 4=heapAllocMagic ∧
      load (withHeader m a offset size last) (a+alignOffsetOff) 4=offset ∧
      load (withHeader m a offset size last) (a+sizeOff) 4=size ∧
      load (withHeader m a offset size last) (a+freeOff) 1=0) ∧
    hdrPrev (withHeader m a offset size last) a=last ∧
    hdrNext (withHeader m a offset size last) a=0 := by
  have hm : heapAllocMagic<256^4 := by decide
  have ho' := ho
  have hs' := hs
  have hl' := hls
  simp only [withHeader,hdrPrev,hdrNext,magic1Off,magic2Off,alignOffsetOff,sizeOff,freeOff,prevOff]
  refine ⟨⟨?_,?_,?_,?_,?_⟩,?_,?_⟩
  · simp (disch := omega) only [nextOff,load_store_disjoint]
    rw [← nextOff,load_linkLast hl]
    simp (disch := omega) only [load_store_disjoint]
    exact load_store_of_lt hm
  · simp (disch := omega) only [nextOff,load_store_disjoint]
    rw [← nextOff,load_linkLast hl]
    exact load_store_of_lt hm
  · simp (disch := omega) only [nextOff,load_store_disjoint]
    rw [← nextOff,load_linkLast hl]
    simp (disch := omega) only [load_store_disjoint]
    exact load_store_of_lt ho'
  · simp (disch := omega) only [nextOff,load_store_disjoint]
    rw [← nextOff,load_linkLast hl]
    simp (disch := omega) only [load_store_disjoint]
    exact load_store_of_lt hs'
  · simp (disch := omega) only [nextOff,load_store_disjoint]
    rw [← nextOff,load_linkLast hl]
    simp (disch := omega) only [load_store_disjoint]
    exact load_store_of_lt (by decide)
  · simp (disch := omega) only [nextOff,load_store_disjoint]
    exact load_store_of_lt hl'
  · exact load_store_of_lt (by decide)

theorem BlocksAt.snoc (h : BlocksAt m lo hi first last bs) (hlo : 0<lo) (hlt : hi+offset+28+size<2^32) :
    BlocksAt (withHeader m (hi+offset) offset size last) lo (hi+offset+28+size)
      (if first=0 then hi+offset else first) (hi+offset) (bs++[⟨hi,offset,size,false⟩]) := by
  have hle := h.tiles.le
  have hne : hi+offset≠0 := by omega
  have hls : last≠0 → ∃ d ∈ bs, d.addr=last := fun hl=>by
    obtain ⟨-,-,hl'⟩ | ⟨l,d,rfl,hd,-⟩ := h.cases
    · exact absurd hl' hl
    · exact ⟨d,by simp,hd.symm⟩
  have hls' : last≠0 → last+28≤hi := fun hl=>by
    obtain ⟨d,hd,rfl⟩ := hls hl
    have hb := h.bounds hd
    omega
  obtain ⟨⟨h1,h2,h3,h4,h5⟩,hpr,hnx⟩ := withHeader_fields (m := m) (a := hi+offset)
    last offset size (fun hl=>by have := hls' hl; omega)
    (by by_cases hl : last=0 <;> [skip; have := hls' hl] <;> omega) (by omega) (by omega)
  -- below the new header only the link of the last block changes
  have hout : ∀ {c : Block} {o k : ℕ}, c ∈ bs → o+k≤28 → (c.addr=last → o+k≤8 ∨ 12≤o) →
      load (withHeader m (hi+offset) offset size last) (c.addr+o) k=load m (c.addr+o) k := by
    intro c o k hc ho hcl
    have hbc := h.bounds hc
    refine load_congr (fun x hx hx'=>withHeader_outside (.inl (by omega)) (fun hl=>?_))
    obtain ⟨d,hd,rfl⟩ := hls hl
    by_cases hcd : c=d
    · have := hcl (hcd▸rfl)
      rw [hcd] at hx hx'
      omega
    · have hap := h.tiles.apart hc hd hcd
      have := c.bounds
      have := d.bounds
      omega
  refine ⟨h.tiles.snoc rfl ?_,fun c hc=>?_,?_,?_,?_⟩
  · simp only [Block.stop]
    omega
  · rcases mem_append.mp hc with hc | hc
    · exact (h.header c hc).of_fields (fun o k ho=>hout hc (by omega) (fun _=>by omega))
    · obtain rfl := mem_singleton.mp hc
      exact ⟨h1,h2,h3,h4,h5⟩
  · rw [map_append,map_singleton]
    have hln := h.links
    refine hln.snoc hne (fun y hy=>?_) (fun y hy=>?_) (fun y hy=>?_)
      (hpr.trans h.last) hnx
    · obtain ⟨c,hc,rfl⟩ := mem_map.mp (mem_of_mem_dropLast hy)
      refine hout hc (by decide) (fun hcl=>absurd hy ?_)
      -- the last node occurs only once
      obtain ⟨rfl,-⟩ | ⟨l,d,rfl,hd,-⟩ := h.cases
      · simp at hc
      · have hnd := hln.nodup
        rw [map_append,map_singleton] at hnd ⊢
        rw [dropLast_concat,hcl,hd]
        exact fun hin=>(nodup_append.mp hnd).2.2 _ hin _ (by simp) rfl
    · have hyl : y=last := by
        rw [h.last,getLastD_eq_getLast?,hy,Option.getD_some]
      have hy0 := hyl▸hln.ne_zero (mem_of_getLast? hy)
      have := hls' hy0
      rw [hyl,hdrNext,withHeader]
      simp (disch := omega) only [prevOff,nextOff,load_store_disjoint,if_pos hy0]
      exact load_store_of_lt (by omega)
    · obtain ⟨c,hc,rfl⟩ := mem_map.mp hy
      exact hout hc (by decide) (fun _=>by decide)
  · rw [map_append]
    obtain ⟨rfl,rfl,-⟩ | ⟨l,d,rfl,-,hf⟩ := h.cases
    · rfl
    · rw [if_neg hf,h.first]
      cases l <;> rfl
  · rw [map_append,map_singleton,getLastD_concat]
    rfl

theorem buildPlace_spec (hacc : ∀ {o k : ℕ}, 0<k → o+k≤28 → s.accessible L (a+o) k=true)
    (hls : s.last≠0 → s.accessible L (s.last+nextOff) 4=true) :
    Ensures (buildAlloc L a offset size) s (fun _ t=>Ensures (placeAlloc L a) t Q E) E ↔
      Q () {s with
        vmem := withHeader s.vmem a offset size s.last
        first := if s.first=0 then a else s.first
        last := a} := by
  have h1 : s.accessible L (a+magic1Off) 4=true := hacc (by decide) (by decide)
  have h2 : s.accessible L (a+alignOffsetOff) 4=true := hacc (by decide) (by decide)
  have h3 : s.accessible L (a+sizeOff) 4=true := hacc (by decide) (by decide)
  have h4 : s.accessible L (a+freeOff) 1=true := hacc (by decide) (by decide)
  have h5 : s.accessible L (a+magic2Off) 4=true := hacc (by decide) (by decide)
  have h6 : s.accessible L (a+prevOff) 4=true := hacc (by decide) (by decide)
  have h7 : s.accessible L (a+nextOff) 4=true := hacc (by decide) (by decide)
  -- writes to the heap do not change what is accessible
  have hv : ∀ (m : Mem) (w k : ℕ), HeapState.accessible L {s with vmem := m} w k=s.accessible L w k :=
    fun _ _ _=>rfl
  simp only [buildAlloc,placeAlloc,linkLast,wp_bind,wp_get,wp_modify,writeHeap,
    hv,h1,h2,h3,h4,h5,if_true,wp_set,withHeader]
  by_cases hl : s.last≠0
  · simp [if_pos hl,hv,hls hl,h6,h7]
  · simp [if_neg hl,hv,h6,h7]

theorem alignOffset_spec (unaligned : ℕ) (h : 1≤alignment) :
    alignment ∣ unaligned+alignOffset unaligned alignment ∧ alignOffset unaligned alignment<alignment := by
  have hmod := mod_lt (unaligned+alignment-1) h
  have hdiv := div_add_mod (unaligned+alignment-1) alignment
  refine ⟨⟨(unaligned+alignment-1)/alignment,?_⟩,?_⟩
  · rw [alignOffset]
    omega
  · rw [alignOffset]
    omega

def newBlock (s : HeapState) (alignment size : ℕ) : Block :=
  ⟨s.heap+s.curSize,alignOffset (s.heap+s.curSize+sizeofHeapAlloc) alignment,size,false⟩

/-- What `kalloc` leaves behind: the new block and the pages it took for it. -/
structure Allocated (L : Layout) (live : List ℕ) (s : HeapState) (fl : List ℕ) (role : ℕ → Role)
    (bs : List Block) (b : Block) (t : HeapState) (role' : ℕ → Role) : Prop where
  base : HeapBase L t
  blocks : BlocksAt t.vmem t.heap (t.heap+t.curSize) t.first t.last (bs++[b])
  caller : t.eflagsIf=s.eflagsIf ∧ t.nofActiveCpus=s.nofActiveCpus ∧ t.debug=s.debug
  heap : t.heap=s.heap
  machine : ∃ u, t.machine=u.machine ∧ Grown L live s fl role
    (alignToNextPage (s.heap+s.heapSize)) (growthPages s (b.stop-s.heap)) u role'

theorem checkIfDebug_spec (h : HeapBase L s)
    (hbs : BlocksAt s.vmem s.heap (s.heap+s.curSize) s.first s.last bs) (hQ : Q () s) :
    Ensures (checkIfDebug L) s Q E := by
  simp only [checkIfDebug,wp_bind,wp_get]
  refine Ensures.ite (fun _=>?_) (fun _=>(wp_pure ..).mpr hQ)
  apply (unsafeCheckAll_spec h hbs).ensures.imp
  rintro - t rfl
  exact hQ

theorem checkCaller_spec (hi : s.initialized=true) : Ensures (checkCaller L .normal) s
      (fun _ t=>(s.eflagsIf=true ∨ s.nofActiveCpus≤1) ∧
        s.machine.env.isUsingKernelPageTables L=true ∧ t=s)
      (fun t=>¬ MayAllocate L s ∧ t=s) := by
  simp only [checkCaller,wp_bind,wp_get,wp_panicIf_iff]
  refine ⟨fun hc=>⟨fun hm=>?_,trivial⟩,fun hint=>⟨fun hc=>?_,fun _=>⟨fun hc=>?_,fun _ =>
    ⟨fun hc=>⟨fun hm=>?_,trivial⟩,fun hk=>⟨?_,eq_true_of_ne_false hk,trivial⟩⟩⟩⟩⟩
  · have hno := hm.interrupts
    rw [hc.1] at hno
    have := hno.resolve_left (by simp)
    omega
  · cases hc
  · simp_all
  · simp_all [hm.kernelTables]
  · by_cases hi : s.eflagsIf=true <;> simp_all

/-- The bytes to skip as `kalloc` computes them. The sum wraps around for huge alignments. -/
def wordOffset (unaligned alignment : ℕ) : ℕ := alignment-1-(unaligned+alignment-1)%2^32%alignment

def wordBlock (s : HeapState) (alignment size : ℕ) : Block :=
  ⟨s.heap+s.curSize,wordOffset (s.heap+s.curSize+sizeofHeapAlloc) alignment,size,false⟩

theorem wordBlock_eq_newBlock (h : HeapBase L s) (ha' : alignment≤pageSize) :
    wordBlock s alignment size=newBlock s alignment size := by
  have hsz := h.size
  have hb := h.bound
  rw [wordBlock,newBlock,wordOffset,alignOffset,mod_eq_of_lt (b := 2^32)]
  simp only [sizeofHeapAlloc,pageSize] at *
  omega

section
variable (h : HeapBase L s) (hbs : BlocksAt s.vmem s.heap (s.heap+s.curSize) s.first s.last bs)
  (ho : Owned L s.machine fl live role)
include h hbs ho
theorem kalloc_word_spec (hend : (wordBlock s alignment size).stop<2^32) :
    Ensures (kalloc L .normal alignment size) s
      (fun v t=>(wordBlock s alignment size).stop≤0xFE000000 ∧
        (growthPages s ((wordBlock s alignment size).stop-s.heap)≠0 → MayAllocate L s) ∧
        v=(wordBlock s alignment size).user ∧
        ∃ role', Allocated L live s fl role bs (wordBlock s alignment size) t role')
      (fun t=>(¬ MayAllocate L s ∨ 0xFE000000<(wordBlock s alignment size).stop) ∧ t=s) := by
  have hbr := L.order
  have hhp := h.heap
  have hsz := h.size
  have hbn := h.bound
  have hu : (s.heap+s.curSize+sizeofHeapAlloc)%2^32=s.heap+s.curSize+sizeofHeapAlloc := by
    simp only [wordBlock,Block.stop,sizeofHeapAlloc] at *
    omega
  have hoff : alignment-1-(s.heap+s.curSize+sizeofHeapAlloc+alignment-1)%2^32%alignment =
      wordOffset (s.heap+s.curSize+sizeofHeapAlloc) alignment := rfl
  simp only [kalloc,wp_bind]
  refine (checkCaller_spec h.initialized).mono ?_ (fun _ hE=>⟨.inl hE.1,hE.2⟩)
  rintro - s' ⟨hint,hkt,hs'⟩
  rw [hs']
  apply checkIfDebug_spec h hbs
  simp only [wp_get,hu,hoff]
  -- from here on the numbers are those of the new block
  simp only [wordBlock,Block.stop,Block.user,sizeofHeapAlloc] at *
  generalize wordOffset (s.heap+s.curSize+28) alignment=offset at *
  have hsi : (s.curSize+offset+28+size)%2^32=s.curSize+offset+28+size := mod_eq_of_lt (by omega)
  have hv : (s.heap+s.curSize+offset+28)%2^32=s.heap+s.curSize+offset+28 := mod_eq_of_lt (by omega)
  have hal : (s.heap+s.curSize+offset+28+2^32-28)%2^32=s.heap+s.curSize+offset := by omega
  have hcur : (s.curSize+(offset+28+size))%2^32=s.curSize+offset+28+size := by omega
  have hend' : s.heap+s.curSize+offset+28+size=s.heap+(s.curSize+offset+28+size) := by omega
  rw [hsi,hv,hal,hend',Nat.add_sub_cancel_left]
  apply (growIfNeeded_spec h ho (by omega)).imp
  rintro - _ ⟨hn,hkp,u,role',rfl,hgr⟩
  have hba := hgr.heapBase h hn
  obtain ⟨machine,rfl⟩ : ∃ machine, u = {s with machine := machine} := ⟨_,hgr.rest⟩
  refine (buildPlace_spec (fun {o k} hk ho=>?_) (fun hl=>?_)).mpr ?_
  · refine hba.accessible (v := s.heap+s.curSize+offset+o) ?_ hk ?_
    · change s.heap≤_
      omega
    · change _ ≤ s.heap+max s.heapSize _
      omega
  · obtain ⟨-,-,hl'⟩ | ⟨l,d,rfl,hd,-⟩ := hbs.cases
    · exact absurd hl' hl
    · have hb := hbs.bounds (b := d) (by simp)
      change HeapState.accessible L _ (s.last+nextOff) 4=true
      rw [hd]
      refine hba.accessible (v := d.addr+nextOff) ?_ (by decide) ?_
      · change s.heap≤_
        omega
      · change _ ≤ s.heap+max s.heapSize _
        simp only [nextOff]
        omega
  have hbl := hbs.snoc (by omega) (show s.heap+s.curSize+offset+28+size<2^32 by omega)
  rw [wp_modify]
  simp only [hcur]
  rw [hend'] at hbl
  have hfn := hba.congr (t := {s with
    machine := machine
    vmem := withHeader s.vmem (s.heap+s.curSize+offset) offset size s.last
    heapSize := max s.heapSize (s.curSize+offset+28+size)
    curSize := s.curSize+offset+28+size
    first := if s.first=0 then s.heap+s.curSize+offset else s.first
    last := s.heap+s.curSize+offset}) rfl rfl rfl rfl (le_max_right ..) rfl
  apply checkIfDebug_spec hfn hbl
  rw [wp_pure]
  refine ⟨hn,fun hk=>⟨hint,hkt,ho.unlocked,hkp hk⟩,rfl,role',⟨hfn,hbl,⟨rfl,rfl,rfl⟩,rfl,{s with machine := machine},rfl,?_⟩⟩
  simpa [Block.stop,sizeofHeapAlloc,hend',Nat.add_sub_cancel_left] using hgr

theorem kalloc_spec (ha' : alignment≤pageSize) (hend : (newBlock s alignment size).stop<2^32) :
    Ensures (kalloc L .normal alignment size) s
      (fun v t=>(newBlock s alignment size).stop≤0xFE000000 ∧
        (growthPages s ((newBlock s alignment size).stop-s.heap)≠0 → MayAllocate L s) ∧
        v=(newBlock s alignment size).user ∧
        ∃ role', Allocated L live s fl role bs (newBlock s alignment size) t role')
      (fun t=>(¬ MayAllocate L s ∨ 0xFE000000<(newBlock s alignment size).stop) ∧ t=s) := by
  rw [← wordBlock_eq_newBlock h ha'] at hend ⊢
  exact kalloc_word_spec h hbs ho hend
end

end

section

/-- The list as truncation sees it on its way from the end: the links to the front and the headers. -/
structure Trailing (m : Mem) (lo hi last : ℕ) (bs : List Block) : Prop where
  tiles : Tiles Block.start Block.stop lo bs hi
  header : ∀ b ∈ bs, HeaderOk m b
  prevs : Chain (hdrPrev m) last (bs.map Block.addr).reverse

theorem BlocksAt.trailing (h : BlocksAt m lo hi first last bs) : Trailing m lo hi last bs :=
  ⟨h.tiles,h.header,h.last▸h.links.chain_prev⟩

theorem HeapBase.shrink (h : HeapBase L s) (last : ℕ) (hc : cur ≤ s.curSize) :
    HeapBase L {s with curSize := cur, last := last} :=
  h.congr rfl rfl rfl rfl (hc.trans h.size) rfl

theorem truncateLoop_spec (h : HeapBase L s)
    (hbs : Trailing s.vmem s.heap (s.heap+s.curSize) s.last bs) (hf : bs.length<fuel) :
    Returns (truncateLoop L fuel) s (fun _ t=>∃ cur last, t = {s with curSize := cur, last := last} ∧
      cur ≤ s.curSize ∧ Trailing s.vmem s.heap (s.heap+cur) last (bs.rdropWhile Block.free)) := by
  induction fuel generalizing s bs with
  | zero => omega
  | succ fuel ih =>
    simp only [truncateLoop,wp_bind,wp_get]
    rcases eq_nil_or_concat bs with rfl | ⟨l,d,rfl⟩
    · have hl : s.last=0 := hbs.prevs
      rw [if_pos hl,wp_pure]
      exact ⟨s.curSize,s.last,rfl,le_rfl,hbs⟩
    · rw [concat_eq_append] at *
      obtain ⟨htl,hst,hsp⟩ := hbs.tiles.of_snoc
      have hd := hbs.header d (by simp)
      have hpr := hbs.prevs
      rw [map_append,reverse_append] at hpr
      obtain ⟨hl,hne,hpr⟩ := hpr
      have hb := d.bounds
      have hle := htl.le
      have hsz := h.size
      have hbd := h.bound
      have hacc : ∀ {o k : ℕ}, 0<k → o+k≤28 → s.accessible L (d.addr+o) k=true :=
        fun hk ho=>h.accessible (by omega) hk (by omega)
      rw [hl,if_neg hne,wp_bind,wp_readHeap (hacc (o := freeOff) (k := 1) (by decide) (by decide)),hd.free]
      cases hfr : d.free with
      | false =>
        have hdr := rdropWhile_concat_neg (p := Block.free) l d (by rw [hfr]; simp)
        rw [Block.flag,hfr,if_neg (by decide),wp_pure]
        simpa [hdr] using ⟨s.curSize,s.last,rfl,le_rfl,hbs⟩
      | true =>
        have hcur : (s.curSize+2^32-(d.off+sizeofHeapAlloc+d.size)%2^32)%2^32=d.start-s.heap := by
          simp only [Block.addr,Block.user,Block.stop,sizeofHeapAlloc] at *
          omega
        have hdr := rdropWhile_concat_pos (p := Block.free) l d hfr
        rw [Block.flag,hfr,if_pos (by decide)]
        simp only [hdr,wp_bind,wp_modify,
          wp_readHeap (hacc (o := alignOffsetOff) (k := 4) (by decide) (by decide)),hd.offset,
          wp_readHeap (hacc (o := sizeOff) (k := 4) (by decide) (by decide)),hd.size,
          wp_readHeap (hacc (o := prevOff) (k := 4) (by decide) (by decide)),hcur]
        have hcur' : d.start-s.heap ≤ s.curSize := by omega
        have hrs : Trailing s.vmem s.heap (s.heap+(d.start-s.heap)) (hdrPrev s.vmem d.addr) l := by
          rw [Nat.add_sub_cancel' hle]
          exact ⟨htl,fun c hc=>hbs.header c (by simp [hc]),hpr⟩
        apply (ih (h.shrink _ hcur') hrs (by simpa using hf)).imp
        rintro - t ⟨cur,last,rfl,hle,ht⟩
        exact ⟨cur,last,rfl,hle.trans hcur',ht⟩

theorem BlocksAt.cut (h : BlocksAt m lo hi first last (l++[d]++r))
    (htl : Tiles Block.start Block.stop lo (l++[d]) mid) :
    BlocksAt (store m (d.addr+nextOff) 4 0) lo mid first d.addr (l++[d]) := by
  have hln := h.links
  rw [map_append] at hln
  have hnd := hln.nodup
  have hout : ∀ {c : Block} {o k : ℕ}, c ∈ l++[d] → o+k≤28 → (c=d → o+k≤8 ∨ 12≤o) →
      load (store m (d.addr+nextOff) 4 0) (c.addr+o) k=load m (c.addr+o) k := by
    intro c o k hc ho hcd
    apply load_store_disjoint
    simp only [nextOff]
    by_cases he : c=d
    · have := hcd he
      rw [he]
      omega
    · have hap := htl.apart hc (by simp) he
      have := c.bounds
      have := d.bounds
      omega
  refine ⟨htl,fun c hc=>?_,?_,?_,?_⟩
  · exact (h.header c (mem_append_left r hc)).of_fields
      (fun o k ho=>hout hc (by omega) (fun _=>by omega))
  · rw [map_append,map_singleton] at *
    refine hln.cut (fun y hy=>?_) (fun y hy=>?_) (fun y hy=>?_)
    · rw [dropLast_concat] at hy
      obtain ⟨c,hc,rfl⟩ := mem_map.mp hy
      refine hout (by simp [hc]) (by decide) (fun hcd=>?_)
      rw [append_assoc] at hnd
      exact absurd rfl ((nodup_append.mp hnd).2.2 _ (mem_map.mpr ⟨c,hc,rfl⟩) _ (by simp [hcd]))
    · rw [List.getLast?_concat] at hy
      obtain rfl := Option.some.inj hy
      exact load_store_of_lt (by decide)
    · rw [← map_singleton (f := Block.addr),← map_append] at hy
      obtain ⟨c,hc,rfl⟩ := mem_map.mp hy
      exact hout hc (by decide) (fun _=>by decide)
  · simp [h.first]
  · rw [map_append,map_singleton,getLastD_concat]

theorem unsafeTruncateHeap_spec (h : HeapBase L s)
    (hbs : BlocksAt s.vmem s.heap (s.heap+s.curSize) s.first s.last bs) :
    Returns (unsafeTruncateHeap L) s (fun _ t=>∃ m cur first last,
      t = {s with vmem := m, curSize := cur, first := first, last := last} ∧ HeapBase L t ∧
      BlocksAt m s.heap (s.heap+cur) first last (bs.rdropWhile Block.free)) := by
  have hb := h.bound
  have hsz := h.size
  have hlen := hbs.length_lt (by omega)
  simp only [unsafeTruncateHeap,wp_bind,wp_get]
  refine Ensures.ite (fun hl=>?_) (fun _=>?_)
  · obtain ⟨rfl,-⟩ | ⟨l,d,rfl,hd,-⟩ := hbs.cases
    · rw [wp_pure]
      exact ⟨s.vmem,s.curSize,s.first,s.last,rfl,h,hbs⟩
    · exact absurd (hd.symm.trans hl) (hbs.links.ne_zero (by simp))
  · rw [wp_bind]
    apply (truncateLoop_spec h hbs.trailing hlen).imp
    rintro - _ ⟨cur,last,rfl,hle,ht⟩
    rw [wp_bind,wp_get]
    have hba := h.shrink last hle
    have htl := ht.tiles
    have hpr := ht.prevs
    rcases eq_nil_or_concat (bs.rdropWhile Block.free) with hnil | ⟨l,d,hcat⟩
    · rw [hnil] at hpr htl ⊢
      have hl : last=0 := hpr
      rw [if_pos hl,wp_modify]
      exact ⟨s.vmem,cur,0,last,rfl,hba.congr rfl rfl rfl rfl hba.size rfl,htl,by simp,trivial,rfl,hl⟩
    · rw [concat_eq_append] at hcat
      have happ := rdropWhile_append_rtakeWhile (p := Block.free) (l := bs)
      rw [hcat] at hpr htl happ ⊢
      rw [map_append,reverse_append] at hpr
      obtain ⟨hl,hne,-⟩ := hpr
      obtain ⟨-,-,hst⟩ := htl.of_snoc
      have hbd := htl.bounds (b := d) (by simp)
      have hdb := d.bounds
      subst hl
      have hacc := hba.accessible (v := d.addr+nextOff) (n := 4) (by
          change s.heap≤_
          omega) (by decide) (by
          change _ ≤ s.heap+s.heapSize
          simp only [nextOff]
          omega)
      rw [if_neg hne]
      apply (wp_writeHeap hacc).mpr
      rw [← happ] at hbs
      exact ⟨_,cur,s.first,d.addr,rfl,hba.congr rfl rfl rfl rfl hba.size rfl,hbs.cut htl⟩

def markFree (b c : Block) : Block := if c=b then {c with free := true} else c

theorem markFree_self (b : Block) : markFree b b = {b with free := true} := if_pos rfl

theorem markFree_of_ne (h : c≠b) : markFree b c=c := if_neg h

theorem markFree_place (b c : Block) : (markFree b c).addr=c.addr ∧ (markFree b c).start=c.start ∧
    (markFree b c).stop=c.stop := by
  rw [markFree]
  split <;> exact ⟨rfl,rfl,rfl⟩

theorem map_addr_markFree (b : Block) (bs : List Block) :
    (bs.map (markFree b)).map Block.addr=bs.map Block.addr := by
  rw [map_map]
  exact map_congr_left (fun c _=>(markFree_place b c).1)

theorem BlocksAt.nodup (h : BlocksAt m lo hi first last bs) : bs.Nodup := h.links.nodup.of_map _

theorem BlocksAt.markFree (h : BlocksAt m lo hi first last bs) (hb : b ∈ bs) :
    BlocksAt (store m (b.addr+freeOff) 1 1) lo hi first last (bs.map (Memory.markFree b)) := by
  have hout : ∀ {c : Block} {o k : ℕ}, c ∈ bs → o+k≤28 → (c=b → o+k≤20 ∨ 21≤o) →
      load (store m (b.addr+freeOff) 1 1) (c.addr+o) k=load m (c.addr+o) k := by
    intro c o k hc ho hcb
    apply load_store_disjoint
    simp only [freeOff]
    by_cases he : c=b
    · have := hcb he
      rw [he]
      omega
    · have hap := h.tiles.apart hc hb he
      have := c.bounds
      have := b.bounds
      omega
  refine ⟨h.tiles.map (fun c _=>(markFree_place b c).2.1) (fun c _=>(markFree_place b c).2.2),
    fun d hd=>?_,?_,?_,?_⟩
  · obtain ⟨c,hc,rfl⟩ := mem_map.mp hd
    have hok := h.header c hc
    by_cases hcb : c=b
    · subst hcb
      rw [markFree_self]
      exact ⟨(hout hc (by decide) (fun _=>by decide)).trans hok.magic1,
        (hout hc (by decide) (fun _=>by decide)).trans hok.magic2,
        (hout hc (by decide) (fun _=>by decide)).trans hok.offset,
        (hout hc (by decide) (fun _=>by decide)).trans hok.size,load_store_of_lt (by decide)⟩
    · rw [markFree_of_ne hcb]
      exact hok.of_fields (fun o k ho=>hout hc (by omega) (fun he=>absurd he hcb))
  · rw [map_addr_markFree]
    refine h.links.congr (fun y hy=>?_) (fun y hy=>?_)
    · obtain ⟨c,hc,rfl⟩ := mem_map.mp hy
      exact hout hc (by decide) (fun _=>by decide)
    · obtain ⟨c,hc,rfl⟩ := mem_map.mp hy
      exact hout hc (by decide) (fun _=>by decide)
  · rw [map_addr_markFree]
    exact h.first
  · rw [map_addr_markFree]
    exact h.last

theorem rdropWhile_markFree (hl : ∀ d, bs.getLast? = some d → d.free=false) (hb : bs.getLast? ≠ some b) :
    (bs.map (markFree b)).rdropWhile Block.free=bs.map (markFree b) := by
  refine rdropWhile_eq_self_iff.mpr (fun hne=>?_)
  have hne' : bs≠[] := by simpa using hne
  have hget := List.getLast?_eq_some_getLast hne'
  rw [getLast_map,markFree_of_ne (fun hc=>hb (hget.trans (congrArg some hc))),hl _ hget]
  simp

theorem kfree_spec (h : HeapBase L s) (hbs : BlocksAt s.vmem s.heap (s.heap+s.curSize) s.first s.last bs)
    (hls : ∀ d, bs.getLast? = some d → d.free=false) (hb : b ∈ bs) :
    Ensures (kfree L b.user) s (fun _ t=>∃ m cur first last,
      t = {s with vmem := m, curSize := cur, first := first, last := last} ∧ HeapBase L t ∧
      BlocksAt m s.heap (s.heap+cur) first last ((bs.map (markFree b)).rdropWhile Block.free))
      (fun t=>b.user=0xFE000000 ∧ t=s) := by
  have hbb := hbs.bounds hb
  have hbd := b.bounds
  have hbn := h.bound
  have hsz := h.size
  have hhp := h.heap
  have hmr := hbs.markFree hb
  have hal : (b.user+2^32-sizeofHeapAlloc)%2^32=b.addr := by
    simp only [sizeofHeapAlloc]
    omega
  have hacc : ∀ {o k : ℕ}, 0<k → o+k≤28 → s.accessible L (b.addr+o) k=true := h.accessible_header hbs hb
  simp only [kfree,wp_bind,wp_get]
  rw [wp_panicIf (by rw [h.initialized]; simp),wp_panicIf_iff]
  have hrg : isHeap s b.user=true ↔ b.user<0xFE000000 := by
    rw [isHeap,h.region,Layout.dynamicRegion_containsV]
    omega
  refine ⟨fun hc=>⟨?_,rfl⟩,fun _=>?_⟩
  · have : ¬ b.user<0xFE000000 := fun hlt=>by
      rw [hrg.mpr hlt] at hc
      cases hc
    omega
  rw [hal,unsafeCheck_spec h hbs hb,wp_panicIf (by simp),
    wp_writeHeap (hacc (o := freeOff) (k := 1) (by decide) (by decide))]
  obtain ⟨l,r,rfl⟩ := append_of_mem hb
  have hba : HeapBase L {s with vmem := store s.vmem (b.addr+freeOff) 1 1} := h.congr rfl rfl rfl rfl hsz rfl
  have htr := (unsafeTruncateHeap_spec hba hmr).ensures (E := fun t=>b.user=0xFE000000 ∧ t=s)
  have hnx : load (store s.vmem (b.addr+freeOff) 1 1) (b.addr+nextOff) 4=(r.map Block.addr).headD 0 := by
    have hln := hmr.links
    rw [map_addr_markFree,map_append,map_cons] at hln
    exact hln.next_eq
  simp only [canTruncate,wp_bind]
  refine (wp_readHeap (s := {s with vmem := store s.vmem (b.addr+freeOff) 1 1})
    (hacc (o := nextOff) (k := 4) (by decide) (by decide))).mpr ?_
  rw [hnx]
  cases r with
  | nil =>
    rwa [map_nil,headD_nil,if_pos rfl,wp_pure,if_pos rfl]
  | cons c r =>
    have hc : c ∈ l++b::c::r := by simp
    have hne := hbs.links.ne_zero (mem_map.mpr ⟨c,hc,rfl⟩)
    rw [map_cons,headD_cons,if_neg hne,wp_bind]
    refine (wp_readHeap (s := {s with vmem := store s.vmem (b.addr+freeOff) 1 1})
      (h.accessible_header hbs hc (o := freeOff) (n := 1) (by decide) (by decide))).mpr ?_
    rw [wp_pure]
    split
    · exact htr
    · rw [wp_pure]
      have hnl : (l++b::c::r).getLast? ≠ some b := by
        rw [List.getLast?_append_of_ne_nil l (cons_ne_nil _ _),List.getLast?_cons_cons]
        exact fun hl=>(nodup_cons.mp (nodup_append.mp hbs.nodup).2.1).1
          (mem_of_getLast? hl)
      exact ⟨_,s.curSize,s.first,s.last,rfl,hba,by rw [rdropWhile_markFree hls hnl]; exact hmr⟩
end

end Yaos2.Memory
