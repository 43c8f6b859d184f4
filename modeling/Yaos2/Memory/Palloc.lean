import Yaos2.Foundation.Linked
import Yaos2.Foundation.Transition
import Yaos2.Memory.Machine

/-! # The physical page allocator

The free list lives in the free pages themselves: each starts with a magic word and the two links. -/
namespace Yaos2.Memory
open Foundation List

variable (L : Layout)

def pallocPageMagic : ℕ := 0x12345678

/-! Field offsets of `struct page`. -/
def pageMagicOff : ℕ := 0
def pagePrevOff : ℕ := 4
def pageNextOff : ℕ := 8

def isMappable (p : ℕ) : Bool := L.pallocRegion.containsP p

def ptranslate (p : ℕ) : ℕ :=
  if isMappable L p then L.pallocRegion.vbase+(p-L.pallocRegion.pbase) else 0

def vtranslate (v : ℕ) : Kernel ℕ := do
  kassert "(vm_region->vbase <= v) && (v < vm_region->vbase + vm_region->size)"
    (L.pallocRegion.containsV v)
  return L.pallocRegion.pbase+(v-L.pallocRegion.vbase)

def initPalloc : Kernel Unit := do
  if (← get).env.pallocInitialized then
    return
  kassert "is_yaos2_initialized() == false" (!(← get).env.yaos2Initialized)
  modify fun s=>{s with firstFreePage := 0, env := {s.env with pallocInitialized := true}}

/-- `page->prev = prev`, unless the page is null. -/
def setPrev (page prev : ℕ) : Kernel Unit :=
  if page≠0 then writePtr L (page+pagePrevOff) 4 prev else pure ()

def palloc : Kernel ℕ := do
  panicIf (¬ (← isUsingKernelPageTables L)) "palloc(): called with non-kernel page tables"
  let page := (← get).firstFreePage
  if page=0 then
    return physNull
  panicIf ((← readPtr L (page+pageMagicOff) 4)≠pallocPageMagic)
    "palloc(): unallocated page has been tampered with"
  let next ← readPtr L (page+pageNextOff) 4
  modify fun s=>{s with firstFreePage := next}
  setPrev L next 0
  let p ← vtranslate L page
  modify fun s=>{s with remainingPages := s.remainingPages-1}
  kmemset L page 0 pageSize
  return p

def pfree (p : ℕ) : Kernel Unit := do
  panicIf (¬ isMappable L p) "pfree(): attempted to free a page from outside of the palloc region"
  panicIf (¬ (← isUsingKernelPageTables L)) "pfree(): called with non-kernel page tables"
  let page := ptranslate L p
  let first := (← get).firstFreePage
  writePtr L (page+pageMagicOff) 4 pallocPageMagic
  writePtr L (page+pagePrevOff) 4 0
  writePtr L (page+pageNextOff) 4 first
  setPrev L first page
  modify fun s=>{s with firstFreePage := page, remainingPages := s.remainingPages+1}

/-- A page whose first word is the magic is taken for one that is already free. -/
def addFreePage (p : ℕ) : Kernel Unit := do
  if isMappable L p then
    if (← readPtr L (ptranslate L p+pageMagicOff) 4)≠pallocPageMagic then
      pfree L p

/-- The number of rounds of a loop that goes from `from` up to `to` in steps of a page. -/
def pageSteps (lo hi : ℕ) : ℕ := (hi-lo+(pageSize-1))/pageSize

def pallocAddFreeRegion (lo hi : ℕ) : Kernel Unit := do
  kassert "is_yaos2_initialized() == false" (!(← get).env.yaos2Initialized)
  kassert "is_aligned_to_page_size(from)" (isAlignedToPageSize lo)
  kassert "is_aligned_to_page_size(to)" (isAlignedToPageSize hi)
  forRange (pageSteps lo hi) (fun k=>addFreePage L (lo+pageSize*k))

def pallocGetRemaining : Kernel ℕ := return (← get).remainingPages*pageSize

/-- A page the allocator can hand out: aligned and inside its region. -/
structure IsFrame (p : ℕ) : Prop where
  aligned : p%pageSize=0
  mappable : isMappable L p=true

def pageMagic (m : Mem) (p : ℕ) : ℕ := load m (p+pageMagicOff) 4
def pagePrev (m : Mem) (p : ℕ) : ℕ := load m (p+pagePrevOff) 4
def pageNext (m : Mem) (p : ℕ) : ℕ := load m (p+pageNextOff) 4

/-- The free pages, in list order. -/
structure FreeList (s : Machine) (fl : List ℕ) : Prop where
  linked : Linked (pageNext s.mem) (pagePrev s.mem) 0 fl
  first : s.firstFreePage=fl.headD 0
  frame : ∀ p ∈ fl, IsFrame L p
  magic : ∀ p ∈ fl, pageMagic s.mem p=pallocPageMagic
  remaining : s.remainingPages=fl.length

variable {L} {p q x : ℕ} {fl : List ℕ} {s : Machine}

namespace IsFrame

section
variable (h : IsFrame L p)
include h
theorem bounds : L.kmFreePhysBase≤p ∧ p+pageSize≤0xC0000000 := by
  have hm := Layout.pallocRegion_containsP.mp h.mappable
  have ha := h.aligned
  simp only [pageSize] at *
  omega

theorem ne_zero : p≠0 := by
  have hb := h.bounds
  have hf := L.kmFreePhysBase_bounds
  omega

theorem ptranslate : Memory.ptranslate L p=p := by
  rw [Memory.ptranslate,if_pos h.mappable]
  exact Nat.add_sub_of_le h.bounds.1

theorem physOf (ho : o<pageSize) : L.physOf (p+o)=some (p+o) := by
  have hb := h.bounds
  exact Layout.physOf_palloc (by omega) (by omega)

theorem physOfW (ho : o<pageSize) : L.physOfW (p+o)=some (p+o) := by
  have hb := h.bounds
  exact Layout.physOfW_palloc (by omega) (by omega)
end

theorem apart (hp : IsFrame L p) (hq : IsFrame L q) (hne : p≠q) : p+pageSize≤q ∨ q+pageSize≤p := by
  have h1 := hp.aligned
  have h2 := hq.aligned
  simp only [pageSize] at *
  omega
end IsFrame

/-- A byte that is in none of the listed pages. -/
abbrev Outside (fl : List ℕ) (x : ℕ) : Prop := maskToPage x ∉ fl

theorem Outside.not_in (h : Outside fl x) (hp : p%pageSize=0) (hm : p ∈ fl) : x<p ∨ p+pageSize≤x := by
  by_contra hc
  rw [not_or,not_lt,not_le] at hc
  exact h (maskToPage_eq hp hc.1 hc.2▸hm)

/-- What the allocator's operations leave alone: everything but memory and its own variables. -/
def SameEnv (s t : Machine) : Prop := t.env=s.env ∧ t.trace=s.trace

namespace FreeList

theorem nodup (h : FreeList L s fl) : fl.Nodup := h.linked.nodup

theorem congr (h : FreeList L s fl) (hf : t.firstFreePage=s.firstFreePage)
    (hr : t.remainingPages=s.remainingPages) (hm : ∀ x, ¬ Outside fl x → t.mem x=s.mem x) :
    FreeList L t fl := by
  have hin : ∀ p ∈ fl, ∀ o, o+4≤pageSize → load t.mem (p+o) 4=load s.mem (p+o) 4 := by
    intro p hp o ho
    refine load_congr (fun x hx hx'=>hm x (fun hout=>?_))
    have hb := hout.not_in (h.frame p hp).aligned hp
    omega
  exact
    { linked := h.linked.congr (fun p hp=>hin p hp pageNextOff (by decide))
        (fun p hp=>hin p hp pagePrevOff (by decide))
      first := hf.trans h.first
      frame := h.frame
      magic := fun p hp=>(hin p hp pageMagicOff (by decide)).trans (h.magic p hp)
      remaining := hr.trans h.remaining}
end FreeList

theorem headD_frame (hfl : ∀ y ∈ fl, IsFrame L y) : fl.headD 0=0 ∨ IsFrame L (fl.headD 0) := by
  cases fl with
  | nil => exact .inl rfl
  | cons q rest => exact .inr (hfl q (by simp))

theorem head_frame (hfl : ∀ y ∈ fl, IsFrame L y) (hq : fl.head? = some q) :
    IsFrame L q ∧ q ∈ fl ∧ fl.headD 0=q := by
  obtain ⟨rest,rfl⟩ : ∃ rest, fl=q::rest := List.head?_eq_some_iff.mp hq
  exact ⟨hfl q (by simp),by simp,rfl⟩

/-- Memory changed only in page `p` and in the back link of page `q`. -/
def LinkEdit (m m' : Mem) (p q : ℕ) : Prop :=
  ∀ x, (x<p ∨ p+pageSize≤x) → (x<q+pagePrevOff ∨ q+pagePrevOff+4≤x) → m' x=m x

namespace LinkEdit
variable {m m' : Mem} {y o : ℕ}

theorem field (h : LinkEdit m m' p q) (hp : IsFrame L p) (hq : q=0 ∨ IsFrame L q)
    (hy : IsFrame L y) (hne : y≠p) (ho : o+4≤pageSize)
    (hsep : o+4≤pagePrevOff ∨ pagePrevOff+4≤o ∨ y≠q) :
    load m' (y+o) 4=load m (y+o) 4 := by
  have hyp := hy.apart hp hne
  have hyq : y=q ∨ y+pageSize≤q ∨ q+pageSize≤y := by
    rcases hq with rfl | hq
    · have hb := hy.bounds
      have hf := L.kmFreePhysBase_bounds
      simp only [pageSize] at *
      omega
    · by_cases hyq : y=q
      · exact .inl hyq
      · exact .inr (hy.apart hq hyq)
  have hoff : pagePrevOff+4≤pageSize := by decide
  refine load_congr (fun x hx hx'=>h x ?_ ?_) <;> omega

theorem fields (h : LinkEdit m m' p (fl.headD 0)) (hp : IsFrame L p)
    (hfl : ∀ y ∈ fl, IsFrame L y ∧ y≠p) (hnd : fl.Nodup) :
    (∀ y ∈ fl, pageMagic m' y=pageMagic m y) ∧ (∀ y ∈ fl, pageNext m' y=pageNext m y) ∧
      ∀ y ∈ fl.tail, pagePrev m' y=pagePrev m y := by
  have hhd := headD_frame (fun y hy=>(hfl y hy).1)
  refine ⟨fun y hy=>?_,fun y hy=>?_,fun y hy=>?_⟩
  · exact h.field hp hhd (hfl y hy).1 (hfl y hy).2 (by decide) (.inl (by decide))
  · exact h.field hp hhd (hfl y hy).1 (hfl y hy).2 (by decide) (.inr (.inl (by decide)))
  · have hy' := mem_of_mem_tail hy
    refine h.field hp hhd (hfl y hy').1 (hfl y hy').2 (by decide) (.inr (.inr ?_))
    cases fl with
    | nil => simp at hy
    | cons q rest =>
      rintro rfl
      exact (nodup_cons.mp hnd).1 hy
end LinkEdit

namespace FreeList

theorem pop (h : FreeList L s (p::fl)) (hf : t.firstFreePage=fl.headD 0)
    (hr : t.remainingPages=s.remainingPages-1) (he : LinkEdit s.mem t.mem p (fl.headD 0))
    (hb : ∀ q, fl.head? = some q → pagePrev t.mem q=0) : FreeList L t fl := by
  obtain ⟨hnot,hnd⟩ := nodup_cons.mp h.nodup
  have hmem : ∀ y ∈ fl, IsFrame L y ∧ y≠p := fun y hy =>
    ⟨h.frame y (by simp [hy]),fun hyp=>hnot (hyp▸hy)⟩
  obtain ⟨hm,hn,hp⟩ := he.fields (h.frame p (by simp)) hmem hnd
  exact
    { linked := h.linked.2.2.2.rebase hn hb hp
      first := hf
      frame := fun y hy=>(hmem y hy).1
      magic := fun y hy=>(hm y hy).trans (h.magic y (by simp [hy]))
      remaining := by rw [hr,h.remaining,length_cons,Nat.add_sub_cancel]}

theorem push (h : FreeList L s fl) (hp : IsFrame L p) (hnew : p ∉ fl)
    (hf : t.firstFreePage=p) (hr : t.remainingPages=s.remainingPages+1)
    (he : LinkEdit s.mem t.mem p (fl.headD 0))
    (hmg : pageMagic t.mem p=pallocPageMagic) (hpv : pagePrev t.mem p=0)
    (hnx : pageNext t.mem p=fl.headD 0)
    (hb : ∀ q, fl.head? = some q → pagePrev t.mem q=p) : FreeList L t (p::fl) := by
  have hmem : ∀ y ∈ fl, IsFrame L y ∧ y≠p := fun y hy =>
    ⟨h.frame y hy,fun hyp=>hnew (hyp▸hy)⟩
  obtain ⟨hm,hn,hpr⟩ := he.fields hp hmem h.nodup
  exact
    { linked := ⟨hp.ne_zero,hpv,hnx,h.linked.rebase hn hb hpr⟩
      first := hf
      frame := by simpa [hp] using h.frame
      magic := by simpa [hmg] using fun y hy=>(hm y hy).trans (h.magic y hy)
      remaining := by rw [hr,h.remaining,length_cons]}
end FreeList

/-- The memory after `setPrev`. -/
private def withPrev (m : Mem) (q v : ℕ) : Mem :=
  if q≠0 then store m (q+pagePrevOff) 4 v else m

variable {v : ℕ} {m : Mem} {s₀ : Machine}

private theorem wp_setPrev (hq : q=0 ∨ IsFrame L q) :
    Ensures (setPrev L q v) s Q E ↔ Q () {s with mem := withPrev s.mem q v} := by
  by_cases h : q=0
  · simp [setPrev,withPrev,h]
  · have hf := hq.resolve_left h
    simp [setPrev,withPrev,h,wp_writePtr (hf.physOfW (o := pagePrevOff) (by decide))]

private theorem withPrev_outside (h : x<q+pagePrevOff ∨ q+pagePrevOff+4≤x) : withPrev m q v x=m x := by
  unfold withPrev
  split
  · exact store_outside h
  · rfl

private theorem pagePrev_withPrev (hq : q≠0) (hv : v<2^32) : pagePrev (withPrev m q v) q=v := by
  rw [pagePrev,withPrev,if_pos hq]
  exact load_store_of_lt hv

private theorem withPrev_list (hfl : ∀ y ∈ fl, IsFrame L y) (hx : Outside fl x) :
    withPrev m (fl.headD 0) v x=m x := by
  cases fl with
  | nil => rfl
  | cons q rest =>
    have hq := hx.not_in (hfl q (by simp)).aligned (by simp)
    have hoff : pagePrevOff+4≤pageSize := by decide
    exact withPrev_outside (by rw [headD_cons]; omega)

theorem palloc_spec (h : FreeList L s fl) (hk : s.env.isUsingKernelPageTables L=true) :
    Returns (palloc L) s (fun p t=>(fl=[] ∧ p=physNull ∧ t=s) ∨
      ∃ rest, fl=p::rest ∧ FreeList L t rest ∧ SameEnv s t ∧
        (∀ o<pageSize, t.mem (p+o)=0) ∧ ∀ x, Outside fl x → t.mem x=s.mem x) := by
  cases fl with
  | nil =>
    have hf := h.first
    simp [palloc,panicIf,hk,hf]
  | cons p rest =>
    have hp := h.frame p (by simp)
    have hf : s.firstFreePage=p := h.first
    have hne := hp.ne_zero
    have hmg : load s.mem (p+pageMagicOff) 4=pallocPageMagic := h.magic p (by simp)
    have hnx : load s.mem (p+pageNextOff) 4=rest.headD 0 := h.linked.2.2.1
    have hv : L.pallocRegion.containsV p=true := hp.mappable
    have hpv : L.pallocRegion.pbase+(p-L.pallocRegion.vbase)=p := Nat.add_sub_of_le hp.bounds.1
    have hw : L.physOfW p=some p := hp.physOfW (o := 0) (by decide)
    have hrs : ∀ y ∈ rest, IsFrame L y := fun y hy=>h.frame y (by simp [hy])
    simp only [palloc,panicIf,hk,hf,hne,vtranslate,wp_bind,wp_isUsingKernelPageTables,
      not_true_eq_false,if_false,wp_pure,wp_get,wp_modify,
      wp_readPtr (hp.physOf (o := pageMagicOff) (by decide)),
      wp_readPtr (hp.physOf (o := pageNextOff) (by decide)),hmg,hnx,ne_eq,
      wp_setPrev (headD_frame hrs),wp_kassert hv,hpv,wp_kmemset hw]
    refine .inr ⟨rest,rfl,?_,⟨rfl,rfl⟩,fun o ho=>fill_inside (by omega) (by omega),?_⟩
    · refine h.pop rfl rfl (fun x hx hx'=>(fill_outside hx).trans (withPrev_outside hx'))
        (fun q hq=>?_)
      obtain ⟨hqf,hqm,hqe⟩ := head_frame hrs hq
      have ha := hqf.apart hp (fun hqp=>(nodup_cons.mp h.nodup).1 (hqp▸hqm))
      have hoff : pagePrevOff+4≤pageSize := by decide
      change pagePrev (fill (withPrev s.mem (rest.headD 0) 0) p pageSize 0) q=0
      rw [hqe,pagePrev,load_fill_disjoint (by omega)]
      exact pagePrev_withPrev hqf.ne_zero (by decide)
    · intro x hx
      have hxr : Outside rest x := fun hm=>hx (by simp [hm])
      exact (fill_outside (hx.not_in hp.aligned (by simp))).trans (withPrev_list hrs hxr)

/-- The memory after `pfree` has filled in the page `p` in front of `q`. -/
private def pushed (m : Mem) (p q : ℕ) : Mem :=
  store (store (store m (p+pageMagicOff) 4 pallocPageMagic) (p+pagePrevOff) 4 0)
    (p+pageNextOff) 4 q

private theorem pushed_outside (h : x<p ∨ p+pageSize≤x) : pushed m p q x=m x := by
  simp only [pageSize] at h
  rw [pushed,store_outside,store_outside,store_outside] <;>
    simp only [pageMagicOff,pagePrevOff,pageNextOff] <;> omega

private theorem pushed_fields (hq : q<2^32) :
    pageMagic (pushed m p q) p=pallocPageMagic ∧ pagePrev (pushed m p q) p=0 ∧
      pageNext (pushed m p q) p=q := by
  refine ⟨?_,?_,load_store_of_lt hq⟩
  · rw [pageMagic,pushed,load_store_disjoint,load_store_disjoint]
    · exact load_store_of_lt (by decide)
    all_goals exact .inl (by simp [pageMagicOff,pagePrevOff,pageNextOff])
  · rw [pagePrev,pushed,load_store_disjoint]
    · exact load_store_of_lt (by decide)
    · exact .inl (by simp [pagePrevOff,pageNextOff])

theorem pfree_spec (h : FreeList L s fl) (hk : s.env.isUsingKernelPageTables L=true)
    (hp : IsFrame L p) (hnew : p ∉ fl) :
    Returns (pfree L p) s (fun _ t=>FreeList L t (p::fl) ∧ SameEnv s t ∧
      ∀ x, Outside (p::fl) x → t.mem x=s.mem x) := by
  have hb := hp.bounds
  have hlt : fl.headD 0<2^32 := by
    rcases headD_frame h.frame with h0 | hf
    · omega
    · have := hf.bounds
      omega
  have happ : fl.headD 0=0 ∨ p+pageSize≤fl.headD 0 ∨ fl.headD 0+pageSize≤p := by
    cases hfl : fl.head? with
    | none => exact .inl (by simp [List.head?_eq_none_iff.mp hfl])
    | some q =>
      obtain ⟨hqf,hqm,hqe⟩ := head_frame h.frame hfl
      exact .inr (hqe▸hp.apart hqf (fun hpq=>hnew (hpq▸hqm)))
  have hoff : pagePrevOff+4≤pageSize := by decide
  simp only [pfree,panicIf,hp.mappable,hk,hp.ptranslate,wp_bind,
    wp_isUsingKernelPageTables,not_true_eq_false,if_false,wp_pure,wp_get,
    wp_modify,wp_writePtr (hp.physOfW (o := pageMagicOff) (by decide)),
    wp_writePtr (hp.physOfW (o := pagePrevOff) (by decide)),
    wp_writePtr (hp.physOfW (o := pageNextOff) (by decide)),h.first,
    wp_setPrev (headD_frame h.frame)]
  obtain ⟨hmg,hpr,hnx⟩ := pushed_fields (m := s.mem) (p := p) hlt
  have hkp : ∀ o, o+4≤pageSize → load (withPrev (pushed s.mem p (fl.headD 0)) (fl.headD 0) p) (p+o) 4 =
        load (pushed s.mem p (fl.headD 0)) (p+o) 4 := by
    intro o ho
    refine load_congr (fun x hx hx'=>withPrev_outside ?_)
    have hf := L.kmFreePhysBase_bounds
    simp only [pageSize,pagePrevOff] at *
    omega
  refine ⟨h.push hp hnew rfl rfl (fun x hx hx'=>?_) ((hkp _ (by decide)).trans hmg)
    ((hkp _ (by decide)).trans hpr) ((hkp _ (by decide)).trans hnx) (fun q hq=>?_),
    ⟨rfl,rfl⟩,fun x hx=>?_⟩
  · exact (withPrev_outside hx').trans (pushed_outside hx)
  · obtain ⟨hqf,-,hqe⟩ := head_frame h.frame hq
    change pagePrev (withPrev (pushed s.mem p (fl.headD 0)) (fl.headD 0) p) q=p
    rw [hqe]
    exact pagePrev_withPrev hqf.ne_zero (by omega)
  · have hfl : Outside fl x := fun hm=>hx (by simp [hm])
    exact (withPrev_list h.frame hfl).trans (pushed_outside (hx.not_in hp.aligned (by simp)))

theorem pfree_frame (hk : s.env.isUsingKernelPageTables L=true) (hp : IsFrame L p)
    (hfr : s.firstFreePage=0 ∨ IsFrame L s.firstFreePage) :
    Returns (pfree L p) s (fun _ t=>t.firstFreePage=p ∧ t.remainingPages=s.remainingPages+1 ∧
      SameEnv s t ∧ ∀ x, maskToPage x≠p → maskToPage x≠s.firstFreePage → t.mem x=s.mem x) := by
  simp only [pfree,panicIf,hp.mappable,hk,hp.ptranslate,Returns,wp_bind,
    wp_isUsingKernelPageTables,not_true_eq_false,if_false,wp_pure,wp_get,
    wp_modify,wp_writePtr (hp.physOfW (o := pageMagicOff) (by decide)),
    wp_writePtr (hp.physOfW (o := pagePrevOff) (by decide)),
    wp_writePtr (hp.physOfW (o := pageNextOff) (by decide)),wp_setPrev hfr]
  refine ⟨trivial,trivial,⟨rfl,rfl⟩,fun x hx hx'=>?_⟩
  have hxp : Outside [p] x := by rwa [Outside,mem_singleton]
  have hps := pushed_outside (m := s.mem) (q := s.firstFreePage) (hxp.not_in hp.aligned (by simp))
  refine Eq.trans ?_ hps
  rcases hfr with h0 | hf
  · rw [h0]
    rfl
  · have hxf : Outside [s.firstFreePage] x := by rwa [Outside,mem_singleton]
    have hout := hxf.not_in hf.aligned (by simp)
    have hoff : pagePrevOff+4≤pageSize := by decide
    exact withPrev_outside (by omega)

section

/-- The list has exactly the offered frames that did not carry the magic in `m₀`. -/
structure Added (L : Layout) (m₀ : Mem) (offered : ℕ → Prop) (s : Machine) (fl : List ℕ) : Prop where
  list : FreeList L s fl
  rest : ∀ x, Outside fl x → s.mem x=m₀ x
  mem_iff : ∀ q, q ∈ fl ↔ IsFrame L q ∧ offered q ∧ pageMagic m₀ q≠pallocPageMagic

variable {m₀ : Mem} {offered offered' : ℕ → Prop}

section
variable (h : Added L m₀ offered s fl)
include h
theorem Added.congr (ho : ∀ q, IsFrame L q → (offered' q ↔ offered q)) : Added L m₀ offered' s fl :=
  ⟨h.list,h.rest,fun q=>by
    rw [h.mem_iff]
    exact and_congr_right (fun hq=>and_congr_left' (ho q hq).symm)⟩

theorem Added.magic_of_not_mem (hp : IsFrame L p) (hn : p ∉ fl) : pageMagic s.mem p=pageMagic m₀ p := by
  have hoff : pageMagicOff+4≤pageSize := by decide
  have hsm : SameOn m₀ s.mem (p+pageMagicOff) 4 := by
    intro x hx hx'
    have hpg : maskToPage x=p := maskToPage_eq hp.aligned (by omega) (by omega)
    exact h.rest x (by rwa [Outside,hpg])
  rw [pageMagic,load_congr hsm,pageMagic]

theorem addFreePage_spec (hk : s.env.isUsingKernelPageTables L=true) (hp : p%pageSize=0) :
    Returns (addFreePage L p) s (fun _ t=>SameEnv s t ∧
      ∃ fl', Added L m₀ (fun q=>offered q ∨ q=p) t fl') := by
  cases hm : isMappable L p with
  | true =>
    have hf : IsFrame L p := ⟨hp,hm⟩
    simp only [addFreePage,hm,if_true,hf.ptranslate,wp_bind,
      wp_readPtr (hf.physOf (o := pageMagicOff) (by decide))]
    refine Ensures.ite (fun hmg=>?_) (fun hmg=>?_)
    · have hnew : p ∉ fl := fun hin=>hmg (h.list.magic p hin)
      have hm0 := h.magic_of_not_mem hf hnew
      refine (pfree_spec h.list hk hf hnew).imp (fun _ t ht=>⟨ht.2.1,p::fl,ht.1,?_,?_⟩)
      · intro x hx
        exact (ht.2.2 x hx).trans (h.rest x (fun hin=>hx (by simp [hin])))
      · intro q
        rw [mem_cons,h.mem_iff]
        constructor
        · rintro (rfl | ⟨hq,ho,hne⟩)
          · exact ⟨hf,.inr rfl,fun he=>hmg (hm0.trans he)⟩
          · exact ⟨hq,.inl ho,hne⟩
        · rintro ⟨hq,ho | rfl,hne⟩
          · exact .inr ⟨hq,ho,hne⟩
          · exact .inl rfl
    · -- either the page is already listed, or it carried the magic from the start
      rw [wp_pure]
      refine ⟨⟨rfl,rfl⟩,fl,h.list,h.rest,fun q=>?_⟩
      rw [h.mem_iff]
      refine and_congr_right (fun hq=>⟨And.imp_left .inl,?_⟩)
      rintro ⟨ho | rfl,hne⟩
      · exact ⟨ho,hne⟩
      · by_cases hin : q ∈ fl
        · exact ((h.mem_iff q).mp hin).2
        · exact absurd ((h.magic_of_not_mem hf hin).symm.trans (not_not.mp hmg)) hne
  | false =>
    simp only [addFreePage,hm,if_false,Bool.false_eq_true,wp_pure]
    refine ⟨⟨rfl,rfl⟩,fl,h.congr (fun q hq=>⟨fun ho=>ho.resolve_right ?_,.inl⟩)⟩
    rintro rfl
    exact absurd hq.mappable (by rw [hm]; exact Bool.false_ne_true)

theorem pallocAddFreeRegion_spec (hk : s.env.isUsingKernelPageTables L=true) (hy : s.env.yaos2Initialized=false)
    (hlo : lo%pageSize=0) (hhi : hi%pageSize=0) :
    Returns (pallocAddFreeRegion L lo hi) s (fun _ t=>SameEnv s t ∧
      ∃ fl', Added L m₀ (fun q=>offered q ∨ lo≤q ∧ q<hi) t fl') := by
  have hlp : Returns (forRange (pageSteps lo hi) (fun k=>addFreePage L (lo+pageSize*k))) s
      (fun _ t=>SameEnv s t ∧
        ∃ fl', Added L m₀ (fun q=>offered q ∨ lo≤q ∧ q<lo+pageSize*pageSteps lo hi) t fl') := by
    refine Ensures.forRange (I := fun k t=>SameEnv s t ∧
      ∃ fl', Added L m₀ (fun q=>offered q ∨ lo≤q ∧ q<lo+pageSize*k) t fl') ?_ ?_
    · exact ⟨⟨rfl,rfl⟩,fl,h.congr (fun q _=>by
        rw [Nat.mul_zero,Nat.add_zero]
        exact ⟨fun ho=>ho.resolve_right (by omega),.inl⟩)⟩
    · rintro k t - ⟨⟨he,htr⟩,fl',hfl'⟩
      have hal : (lo+pageSize*k)%pageSize=0 := by rw [Nat.add_mul_mod_self_left,hlo]
      apply (addFreePage_spec hfl' (he▸hk) hal).imp
      rintro - u ⟨⟨he',htr'⟩,fl'',hfl''⟩
      refine ⟨⟨he'.trans he,htr'.trans htr⟩,fl'',hfl''.congr (fun q hq=>?_)⟩
      have hqa := hq.aligned
      simp only [pageSize] at *
      rw [or_assoc]
      exact or_congr_right (by omega)
  simp only [pallocAddFreeRegion,wp_bind,wp_get,
    wp_kassert (show (!s.env.yaos2Initialized)=true by rw [hy]; rfl),
    wp_kassert ((isAlignedToPageSize_iff lo).mpr hlo),
    wp_kassert ((isAlignedToPageSize_iff hi).mpr hhi)]
  apply hlp.imp
  rintro - t ⟨he,fl',hfl'⟩
  refine ⟨he,fl',hfl'.congr (fun q hq=>or_congr_right ?_)⟩
  have hqa := hq.aligned
  simp only [pageSteps,pageSize] at *
  omega
end

end

/-- The machine as the image sets up the allocator's variables. Memory is arbitrary. -/
structure Boot (L : Layout) (s : Machine) : Prop where
  kernelTables : s.env.isUsingKernelPageTables L=true
  notInitialized : s.env.pallocInitialized=false
  early : s.env.yaos2Initialized=false
  noPages : s.remainingPages=0

/-- The machine after `init_palloc` and after the listed regions have been added. -/
inductive Adding (L : Layout) (s₀ : Machine) : List (ℕ × ℕ) → Machine → Prop
  | init {s : Machine} : initPalloc s₀=.ok () s → Adding L s₀ [] s
  | region {rs : List (ℕ × ℕ)} {s t : Machine} {lo hi : ℕ} : Adding L s₀ rs s →
      lo%pageSize=0 → hi%pageSize=0 → pallocAddFreeRegion L lo hi s=.ok () t →
      Adding L s₀ ((lo, hi)::rs) t

/-- The allocator's machine and the frames its clients hold. -/
structure Clients where
  machine : Machine
  held : List ℕ

inductive ClientStep (L : Layout) : Clients → Clients → Prop
  | palloc {s t : Machine} {held : List ℕ} {p : ℕ} : palloc L s=.ok p t → p≠physNull →
      ClientStep L ⟨s,held⟩ ⟨t,p::held⟩
  | exhausted {s t : Machine} {held : List ℕ} : palloc L s=.ok physNull t → ClientStep L ⟨s,held⟩ ⟨t,held⟩
  | pfree {s t : Machine} {held : List ℕ} {p : ℕ} : p ∈ held → pfree L p s=.ok () t →
      ClientStep L ⟨s,held⟩ ⟨t,held.erase p⟩
  | write {s : Machine} {held : List ℕ} {m : Mem} : (∀ x, Outside held x → m x=s.mem x) →
      ClientStep L ⟨s,held⟩ ⟨{s with mem := m},held⟩

theorem Boot.initPalloc_eq (h : Boot L s) : initPalloc s=.ok () {s with
    firstFreePage := 0, env := {s.env with pallocInitialized := true}} := by
  obtain ⟨-,hn,hy,-⟩ := h
  have hret : Returns initPalloc s (fun _ t=>t = {s with
      firstFreePage := 0, env := {s.env with pallocInitialized := true}}) := by
    simp [initPalloc,hn,wp_kassert (show (!s.env.yaos2Initialized)=true by rw [hy]; rfl)]
  obtain ⟨⟨⟩,t,ht,rfl⟩ := hret.exists_ok
  exact ht

theorem Added.add_region
    (h : Added L m₀ offered s fl) (hb : Boot L s₀) (henv : s.env = {s₀.env with pallocInitialized := true})
    (hlo : lo%pageSize=0) (hhi : hi%pageSize=0) :
    Returns (pallocAddFreeRegion L lo hi) s (fun _ t=>SameEnv s t ∧
      ∃ fl', Added L m₀ (fun q=>offered q ∨ lo≤q ∧ q<hi) t fl') := by
  apply pallocAddFreeRegion_spec h _ _ hlo hhi
  · rw [henv]
    exact hb.kernelTables
  · rw [henv]
    exact hb.early

theorem Adding.spec (h : Adding L s₀ rs s) (hb : Boot L s₀) :
    s.env = {s₀.env with pallocInitialized := true} ∧
      ∃ fl, Added L s₀.mem (fun q=>∃ r ∈ rs, r.1≤q ∧ q<r.2) s fl := by
  induction h with
  | init hs =>
    rw [hb.initPalloc_eq] at hs
    injection hs with _ hs
    subst hs
    refine ⟨rfl,[],⟨trivial,rfl,by simp,by simp,hb.noPages⟩,fun x _=>rfl,by simp⟩
  | @region rs s t lo hi _ hlo hhi ht ih =>
    obtain ⟨henv,fl,hfl⟩ := ih
    obtain ⟨⟨he,-⟩,fl',hfl'⟩ := (hfl.add_region hb henv hlo hhi).of_ok ht
    refine ⟨he.trans henv,fl',hfl'.congr (fun q _=>?_)⟩
    simpa [mem_cons,exists_eq_or_imp] using or_comm

theorem Adding.exists_of_aligned (hb : Boot L s₀) (rs : List (ℕ × ℕ))
    (hrs : ∀ r ∈ rs, r.1%pageSize=0 ∧ r.2%pageSize=0) : ∃ s, Adding L s₀ rs s := by
  induction rs with
  | nil => exact ⟨_,.init hb.initPalloc_eq⟩
  | cons r rs ih =>
    obtain ⟨s,hs⟩ := ih (fun r' hr'=>hrs r' (by simp [hr']))
    obtain ⟨henv,fl,hfl⟩ := hs.spec hb
    obtain ⟨hlo,hhi⟩ := hrs r (by simp)
    obtain ⟨⟨⟩,t,ht,-⟩ := (hfl.add_region hb henv hlo hhi).exists_ok
    exact ⟨t,hs.region hlo hhi ht⟩

def bootMachine (L : Layout) : Machine where
  mem := fun _=>0
  firstFreePage := 0
  remainingPages := 0
  env := ⟨L.physKernelPd,false,false,false,false⟩
  trace := []

theorem bootMachine_boot : Boot L (bootMachine L) := ⟨beq_self_eq_true _,rfl,rfl,rfl⟩

/-- The invariant while clients allocate, write and free. -/
structure ClientInv (L : Layout) (c : Clients) (fl : List ℕ) : Prop where
  list : FreeList L c.machine fl
  kernelTables : c.machine.env.isUsingKernelPageTables L=true
  held : ∀ p ∈ c.held, IsFrame L p ∧ p ∉ fl
  nodup : c.held.Nodup

theorem ClientStep.inv (hst : ClientStep L c c') (h : ClientInv L c fl) : ∃ fl', ClientInv L c' fl' := by
  obtain ⟨hl,hk,hh,hnd⟩ := h
  cases hst with
  | @palloc s t held p hp hne =>
    rcases (palloc_spec hl hk).of_ok hp with ⟨-,h0,-⟩ | ⟨rest,rfl,hrs,⟨he,-⟩,-⟩
    · exact absurd h0 hne
    obtain ⟨hpn,-⟩ := nodup_cons.mp hl.nodup
    refine ⟨rest,hrs,he▸hk,fun q hq=>?_,nodup_cons.mpr ⟨fun hin=>?_,hnd⟩⟩
    · rcases mem_cons.mp hq with rfl | hq
      · exact ⟨hl.frame q (by simp),hpn⟩
      · exact ⟨(hh q hq).1,fun hin=>(hh q hq).2 (by simp [hin])⟩
    · exact (hh p hin).2 (by simp)
  | @exhausted s t held hp =>
    rcases (palloc_spec hl hk).of_ok hp with ⟨-,-,rfl⟩ | ⟨rest,rfl,-⟩
    · exact ⟨fl,hl,hk,hh,hnd⟩
    · exact absurd rfl (hl.frame physNull (by simp)).ne_zero
  | @pfree s t held p hin hp =>
    obtain ⟨hf,hnew⟩ := hh p hin
    obtain ⟨hl',⟨he,-⟩,-⟩ := (pfree_spec hl hk hf hnew).of_ok hp
    refine ⟨p::fl,hl',he▸hk,fun q hq=>?_,hnd.erase p⟩
    obtain ⟨hqp,hq⟩ := hnd.mem_erase_iff.mp hq
    exact ⟨(hh q hq).1,by simp [hqp,(hh q hq).2]⟩
  | @write s held m hm =>
    refine ⟨fl,hl.congr rfl rfl (fun x hx=>hm x (fun hin=>?_)),hk,hh,hnd⟩
    exact (hh _ hin).2 (not_not.mp hx)

/-- No held frame is on the list, and `palloc` returns a zeroed frame unless it is empty. -/
structure PallocSound (L : Layout) (c : Clients) (fl : List ℕ) : Prop where
  chain : Chain (pageNext c.machine.mem) c.machine.firstFreePage fl
  nodup : fl.Nodup
  mirror : Linked (pageNext c.machine.mem) (pagePrev c.machine.mem) 0 fl
  page : ∀ p ∈ fl, p%pageSize=0 ∧ L.pallocRegion.containsP p=true ∧
    pageMagic c.machine.mem p=pallocPageMagic
  length : fl.length=c.machine.remainingPages
  held : ∀ p ∈ c.held, p ∉ fl
  alloc : ∃ p t, palloc L c.machine=.ok p t ∧ (p=physNull ∧ fl=[] ∨
    p≠physNull ∧ p ∉ c.held ∧ ∀ o<pageSize, t.mem (p+o)=0)

theorem ClientInv.sound (h : ClientInv L c fl) : PallocSound L c fl := by
  refine
    { chain := h.list.first▸h.list.linked.chain_next
      nodup := h.list.nodup
      mirror := h.list.linked
      page := fun p hp=>⟨(h.list.frame p hp).aligned,(h.list.frame p hp).mappable,h.list.magic p hp⟩
      length := h.list.remaining.symm
      held := fun p hp=>(h.held p hp).2
      alloc := ?_}
  obtain ⟨p,t,ht,hp⟩ := (palloc_spec h.list h.kernelTables).exists_ok
  rcases hp with ⟨hfl,h0,-⟩ | ⟨rest,rfl,-,-,hz,-⟩
  · exact ⟨p,t,ht,.inl ⟨h0,hfl⟩⟩
  · refine ⟨p,t,ht,.inr ⟨(h.list.frame p (by simp)).ne_zero,fun hin=>?_,hz⟩⟩
    exact (h.held p hin).2 (by simp)

/-- The allocator is sound in every state, and without stray magic words lists what it was given. -/
theorem palloc_sound {s₀ : Machine} {rs : List (ℕ × ℕ)} (hb : Boot L s₀) (hadd : Adding L s₀ rs s) :
    (∃ fl, PallocSound L ⟨s,[]⟩ fl ∧ ((∀ p, IsFrame L p → pageMagic s₀.mem p≠pallocPageMagic) →
        ∀ p, p ∈ fl ↔ IsFrame L p ∧ ∃ r ∈ rs, r.1≤p ∧ p<r.2)) ∧
    ∀ c, Relation.ReflTransGen (ClientStep L) ⟨s,[]⟩ c → ∃ fl, PallocSound L c fl := by
  obtain ⟨henv,fl,hfl⟩ := hadd.spec hb
  have hin : ClientInv L ⟨s,[]⟩ fl := ⟨hfl.list,henv▸hb.kernelTables,by simp,nodup_nil⟩
  refine ⟨⟨fl,hin.sound,fun hmg p=>?_⟩,fun c hrun=>?_⟩
  · simp_all [hfl.mem_iff]
  · obtain ⟨fl',hfl'⟩ := Reaches.invariant (I := fun c=>∃ fl, ClientInv L c fl) hrun ⟨fl,hin⟩
      (fun _ _ ⟨_,hi⟩ hst=>hst.inv hi)
    exact ⟨fl',hfl'.sound⟩

/-- Two overlapping ranges on cleared memory: a page of both is listed. -/
theorem palloc_sound_smallImage :
    ∃ s fl, Adding .smallImage (bootMachine .smallImage) [(0x801000, 0x804000), (0x800000, 0x802000)] s ∧
      PallocSound .smallImage ⟨s,[]⟩ fl ∧ 0x801000 ∈ fl := by
  obtain ⟨s,hs⟩ := Adding.exists_of_aligned (L := .smallImage) bootMachine_boot
    [(0x801000, 0x804000), (0x800000, 0x802000)] (by decide)
  obtain ⟨⟨fl,hsn,hmem⟩,-⟩ := palloc_sound bootMachine_boot hs
  have hc : ∀ p, pageMagic (bootMachine .smallImage).mem p≠pallocPageMagic := by
    intro p hp
    have h0 : pageMagic (bootMachine .smallImage).mem p=0 := load_zero (fun _ _ _=>rfl)
    exact absurd (h0.symm.trans hp) (by decide)
  refine ⟨s,fl,hs,hsn,(hmem (fun p _=>hc p) _).mpr ⟨⟨by decide,by decide⟩,?_⟩⟩
  exact ⟨(0x801000, 0x804000),by simp,by decide,by decide⟩

end Yaos2.Memory
