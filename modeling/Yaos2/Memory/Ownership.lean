import Yaos2.Memory.PageTables

/-! # Who owns which frame

The roles are ghost state: no code reads them. `Effect who` says that a computation has touched only
what is unowned or belongs to the address space `who`. -/
namespace Yaos2.Memory
open Foundation Function

inductive Role where
  | free
  /-- Just taken by the running code, to be put to use before it returns. -/
  | held
  /-- Taken by the kernel for later. -/
  | kept
  | dir (pd : ℕ)
  | table (pd i : ℕ)
  | page (pd i j : ℕ)
  deriving DecidableEq

/-- The address space a frame belongs to. What the kernel keeps is filed under the null address. -/
def Role.owner : Role → Option ℕ
  | .free => none
  | .held => none
  | .kept => some physNull
  | .dir pd => some pd
  | .table pd _ => some pd
  | .page pd _ _ => some pd

variable (L : Layout)

/-- No word of the kernel's directory and of the page tables after it gives access to user code. -/
def Supervisor (m : Mem) : Prop := ∀ w<0x100400, isUser (entryAt m L.physKernelPd w)=false

/-- Every entry has a fixed page table, the last one the directory itself; those of the dynamic
region carry the flags of `kp_map`, and nothing is accessible to user code. -/
structure KernelTables (m : Mem) : Prop where
  paddr : ∀ i<pdLength, pteGetPaddr (entryAt m L.physKernelPd i) =
    if i=pdLength-1 then L.physKernelPd else L.physPageTables+pageSize*i
  dynamic : ∀ v, L.memBreak≤v → v<0xFE000000 → entryAt m L.physKernelPd (getPdIndex (maskToPage v)) |||
        (pageBitRw ||| pageBitGlobal ||| pageBitPresent) =
      entryAt m L.physKernelPd (getPdIndex (maskToPage v))
  user : ∀ i<768, isGlobal (entryAt m L.physKernelPd i)=false
  supervisor : Supervisor L m

/-- The addresses of the kernel's directory and page tables. -/
def InKernelTables (x : ℕ) : Prop := L.physKernelPd≤x ∧ x<L.physKernelPd+0x401000

/-- An entry is null or names a frame that plays the given role. -/
def Slot (role : ℕ → Role) (r : Role) (e : ℕ) : Prop :=
  pteGetPaddr e=physNull ∨ IsFrame L (pteGetPaddr e) ∧ role (pteGetPaddr e)=r

/-- The global entries are the kernel's, the others lead to tables and pages of its own. -/
structure DirOk (m : Mem) (role : ℕ → Role) (pd : ℕ) : Prop where
  frame : IsFrame L pd
  isDir : role pd=.dir pd
  shared : ∀ i<pdLength, isGlobal (entryAt m L.physKernelPd i)=true →
    entryAt m pd i=entryAt m L.physKernelPd i
  own : ∀ i<pdLength, isGlobal (entryAt m L.physKernelPd i)=false → isGlobal (entryAt m pd i)=false
  present : ∀ i<pdLength, isGlobal (entryAt m L.physKernelPd i)=false →
    isPresent (entryAt m pd i)=true → pteGetPaddr (entryAt m pd i)≠physNull
  tables : ∀ i<pdLength, isGlobal (entryAt m L.physKernelPd i)=false →
    Slot L role (.table pd i) (entryAt m pd i)
  pages : ∀ i<pdLength, isGlobal (entryAt m L.physKernelPd i)=false →
    pteGetPaddr (entryAt m pd i)≠physNull → ∀ j<pdLength,
      Slot L role (.page pd i j) (entryAt m (pteGetPaddr (entryAt m pd i)) j)

structure Owned (s : Machine) (fl live : List ℕ) (role : ℕ → Role) : Prop where
  kernelTables : s.env.isUsingKernelPageTables L=true
  unlocked : s.env.pallocLockHeld=false
  kernel : KernelTables L s.mem
  list : FreeList L s fl
  free : ∀ p ∈ fl, role p=.free
  dirs : ∀ pd ∈ live, DirOk L s.mem role pd

/-- Memory and roles changed only where nothing is owned or `who` is the owner, page zero aside. -/
structure Effect (who : Option ℕ) (role role' : ℕ → Role) (m m' : Mem) : Prop where
  mem : ∀ x, m' x≠m x → x<pageSize ∨ L.kmFreePhysBase≤x ∧
    ((role (maskToPage x)).owner=none ∨ (role (maskToPage x)).owner=who)
  roles : ∀ p, role' p≠role p → (role p).owner=none ∨ (role p).owner=who

variable {L} {who : Option ℕ} {pd pd' p q i j v : ℕ} {m m' m'' : Mem} {role role' role'' : ℕ → Role}

section

theorem physKernelPd_eq : L.physKernelPd=L.kernelPd-0xC0000000 := rfl

theorem physPageTables_eq : L.physPageTables=L.physKernelPd+0x1000 := by
  have ho := L.order
  have h1 : L.physPageTables=L.kernelPd+0x1000-0xC0000000 := rfl
  have h2 := physKernelPd_eq (L := L)
  omega

theorem physKernelPd_bounds : 0x100000≤L.physKernelPd ∧
    L.physKernelPd+0x401000≤L.kmFreePhysBase ∧ L.physKernelPd%pageSize=0 := by
  have ho := L.order
  have h1 := physKernelPd_eq (L := L)
  have h2 := L.kmFreePhysBase_eq
  have h3 := L.pd_aligned
  simp only [pageSize] at *
  omega

theorem physKernelPd_isTable : IsTable L L.physKernelPd := by
  have ho := L.order
  have hb := physKernelPd_bounds (L := L)
  have he := physKernelPd_eq (L := L)
  exact isTable_rw hb.2.2 (by omega) (by omega)

theorem kernelTable_isTable (hi : i<pdLength) : IsTable L (L.physPageTables+pageSize*i) := by
  have ho := L.order
  have hb := physKernelPd_bounds (L := L)
  have he := physKernelPd_eq (L := L)
  have ht := physPageTables_eq (L := L)
  simp only [pdLength,pageSize] at *
  exact isTable_rw (by simp only [pageSize]; omega) (by omega) (by omega)

theorem KernelTables.page (h : KernelTables L m) (hi : i<pdLength) :
    IsTable L (pteGetPaddr (entryAt m L.physKernelPd i)) ∧
      pteGetPaddr (entryAt m L.physKernelPd i)≠physNull ∧
      ∀ o<pageSize, InKernelTables L (pteGetPaddr (entryAt m L.physKernelPd i)+o) := by
  have hb := physKernelPd_bounds (L := L)
  have ht := physPageTables_eq (L := L)
  rw [h.paddr i hi]
  split
  · refine ⟨physKernelPd_isTable,by simp only [physNull]; omega,fun o ho=>?_⟩
    simp only [InKernelTables,pageSize] at *
    omega
  · refine ⟨kernelTable_isTable hi,by simp only [physNull]; omega,fun o ho=>?_⟩
    simp only [InKernelTables,pdLength,pageSize] at *
    omega

theorem InKernelTables.not_free (h : InKernelTables L x) : pageSize≤x ∧ x<L.kmFreePhysBase := by
  have hb := physKernelPd_bounds (L := L)
  simp only [InKernelTables,pageSize] at *
  omega

theorem Supervisor.congr (h : Supervisor L m) (hm : ∀ x, InKernelTables L x → m' x=m x) :
    Supervisor L m' := by
  intro w hw
  have hs : SameOn m m' (L.physKernelPd+4*w) 4 := fun x hx hx'=>hm x ⟨by omega,by omega⟩
  rw [entryAt,load_congr hs]
  exact h w hw

theorem Supervisor.store (h : Supervisor L m) (he : e<2^32) (hu : isUser e=false) :
    Supervisor L (store m (L.physKernelPd+4*w) 4 e) := by
  intro k hk
  by_cases hkw : k=w
  · rwa [hkw,entryAt,load_store_of_lt he]
  · rw [entryAt,load_store_disjoint (by omega)]
    exact h k hk

theorem Supervisor.setTableEntry {s : Machine} (h : Supervisor L s.mem) (he : e<2^32)
    (hu : isUser e=false) :
    Supervisor L (s.setEntry (L.physPageTables+pageSize*i) j e).mem := by
  have ht := physPageTables_eq (L := L)
  have ha : L.physPageTables+pageSize*i+4*j=L.physKernelPd+4*(1024+1024*i+j) := by
    simp only [pageSize]
    omega
  simpa [Machine.setEntry,ha] using h.store he hu

theorem KernelTables.of_tables (h : KernelTables L m) (hm : SameOn m m' L.physKernelPd pageSize)
    (hs : Supervisor L m') : KernelTables L m' := by
  refine ⟨fun i hi=>?_,fun v hv hv'=>?_,fun i hi=>?_,hs⟩
  · rw [entryAt_congr hm hi]
    exact h.paddr i hi
  · have hi := getPdIndex_lt (v := v) (by omega)
    rw [entryAt_congr hm hi]
    exact h.dynamic v hv hv'
  · rw [entryAt_congr hm (hi.trans (by decide))]
    exact h.user i hi

theorem KernelTables.congr (h : KernelTables L m) (hm : ∀ x, InKernelTables L x → m' x=m x) :
    KernelTables L m' :=
  h.of_tables (fun x hx hx'=>hm x ⟨hx,by simp only [pageSize] at hx'; omega⟩)
    (h.supervisor.congr hm)
end

namespace Effect

theorem refl (who : Option ℕ) (role : ℕ → Role) (m : Mem) : Effect L who role role m m :=
  ⟨fun _ hx=>absurd rfl hx,fun _ hp=>absurd rfl hp⟩

section
variable (h : Effect L who role role' m m')
include h
theorem trans (h' : Effect L who role' role'' m' m'') :
    Effect L who role role'' m m'' := by
  -- a frame of somebody else keeps its role in the first part, so the second one spares it too
  have hbc : ∀ p, ((role' p).owner=none ∨ (role' p).owner=who) →
      (role p).owner=none ∨ (role p).owner=who := by
    intro p hp
    by_cases hr : role' p=role p
    · rwa [hr] at hp
    · exact h.roles p hr
  refine ⟨fun x hx=>?_,fun p hp=>?_⟩
  · by_cases hx' : m' x=m x
    · rcases h'.mem x (hx'▸hx) with h0 | ⟨hf,ho⟩
      · exact .inl h0
      · exact .inr ⟨hf,hbc _ ho⟩
    · exact h.mem x hx'
  · by_cases hp' : role' p=role p
    · exact hbc p (h'.roles p (hp'▸hp))
    · exact h.roles p hp'

theorem foreign (hf : IsFrame L p) (ho : (role p).owner=some pd') (hne : some pd'≠who) :
    role' p=role p ∧ SameOn m m' p pageSize := by
  have hnot : ¬ ((role p).owner=none ∨ (role p).owner=who) := by simp_all
  refine ⟨not_not.mp (fun hr=>hnot (h.roles p hr)),fun x hx hx'=>not_not.mp (fun hc=>?_)⟩
  have hb := hf.bounds
  have hlow := L.kmFreePhysBase_bounds
  rcases h.mem x hc with h0 | ⟨-,hown⟩
  · simp only [pageSize] at h0
    omega
  · simp_all [maskToPage_eq hf.aligned hx hx']

theorem kernel (hx : InKernelTables L x) : m' x=m x := by
  by_contra hc
  have hn := hx.not_free
  rcases h.mem x hc with h0 | ⟨hf,-⟩
  · omega
  · omega

theorem kernelPd : SameOn m m' L.physKernelPd pageSize :=
  fun x hx hx'=>h.kernel ⟨hx,by simp only [pageSize] at hx'; omega⟩
end

theorem of_none (h : Effect L none role role' m m') : Effect L who role role' m m' :=
  ⟨fun x hx=>(h.mem x hx).imp id (fun ⟨hf,ho⟩=>⟨hf,.inl (ho.elim id id)⟩),
    fun p hp=>.inl ((h.roles p hp).elim id id)⟩

theorem grant (hp : (role p).owner=none) (r : Role) : Effect L none role (update role p r) m m := by
  refine ⟨fun x hx=>absurd rfl hx,fun q hq=>.inl ?_⟩
  by_cases hqp : q=p
  · rw [hqp,hp]
  · exact absurd (update_of_ne hqp ..) hq
end Effect

theorem Slot.keep (h : Slot L role r e) (hown : r.owner=some pd)
    (hr : ∀ p, IsFrame L p → (role p).owner=some pd → role' p=role p) : Slot L role' r e := by
  rcases h with h0 | ⟨hf,hrl⟩
  · exact .inl h0
  · exact .inr ⟨hf,(hr _ hf (hrl▸hown)).trans hrl⟩

/-- An entry of its own leads to a table with pages of the directory, or nowhere. -/
structure EntryOk (L : Layout) (m : Mem) (role : ℕ → Role) (pd i e : ℕ) : Prop where
  own : isGlobal e=false
  present : isPresent e=true → pteGetPaddr e≠physNull
  table : Slot L role (.table pd i) e
  pages : pteGetPaddr e≠physNull → ∀ j<pdLength, Slot L role (.page pd i j) (entryAt m (pteGetPaddr e) j)

theorem EntryOk.keep (h : EntryOk L m role pd i e)
    (hr : ∀ p, IsFrame L p → (role p).owner=some pd → role' p=role p)
    (hm : ∀ p, IsFrame L p → role p=.table pd i → ∀ j<pdLength, entryAt m' p j=entryAt m p j) :
    EntryOk L m' role' pd i e := by
  refine ⟨h.own,h.present,h.table.keep rfl hr,fun hne j hj=>?_⟩
  obtain ⟨hf,hrl⟩ := h.table.resolve_left hne
  rw [hm _ hf hrl j hj]
  exact (h.pages hne j hj).keep rfl hr

namespace DirOk

theorem entry (h : DirOk L m role pd) (hi : i<pdLength) (hg : isGlobal (entryAt m L.physKernelPd i)=false) :
    EntryOk L m role pd i (entryAt m pd i) :=
  ⟨h.own i hi hg,h.present i hi hg,h.tables i hi hg,h.pages i hi hg⟩

theorem of_entries (h : DirOk L m role pd) (hr : ∀ p, IsFrame L p → (role p).owner=some pd → role' p=role p)
    (hk : ∀ k<pdLength, entryAt m' L.physKernelPd k=entryAt m L.physKernelPd k)
    (hsh : ∀ k<pdLength, isGlobal (entryAt m L.physKernelPd k)=true → entryAt m' pd k=entryAt m pd k)
    (hen : ∀ k<pdLength, isGlobal (entryAt m L.physKernelPd k)=false →
      EntryOk L m' role' pd k (entryAt m' pd k)) : DirOk L m' role' pd := by
  have hen' : ∀ k<pdLength, isGlobal (entryAt m' L.physKernelPd k)=false →
      EntryOk L m' role' pd k (entryAt m' pd k) := fun k hk' hg=>hen k hk' (hk k hk'▸hg)
  refine ⟨h.frame,(hr pd h.frame (by rw [h.isDir]; rfl)).trans h.isDir,fun k hk' hg=>?_,
    fun k hk' hg=>(hen' k hk' hg).own,fun k hk' hg=>(hen' k hk' hg).present,
    fun k hk' hg=>(hen' k hk' hg).table,fun k hk' hg=>(hen' k hk' hg).pages⟩
  rw [hk k hk'] at hg ⊢
  rw [hsh k hk' hg]
  exact h.shared k hk' hg

theorem congr (h : DirOk L m role pd) (hk : SameOn m m' L.physKernelPd pageSize)
    (hm : ∀ p, IsFrame L p → (role p=.dir pd ∨ ∃ i, role p=.table pd i) → SameOn m m' p pageSize)
    (hr : ∀ p, IsFrame L p → (role p).owner=some pd → role' p=role p) :
    DirOk L m' role' pd := by
  have hpde : ∀ i<pdLength, entryAt m' pd i=entryAt m pd i := fun i hi =>
    entryAt_congr (hm pd h.frame (.inl h.isDir)) hi
  refine h.of_entries hr (fun k hk'=>entryAt_congr hk hk') (fun k hk' _=>hpde k hk') (fun k hk' hg=>?_)
  rw [hpde k hk']
  exact (h.entry hk' hg).keep hr (fun p hp hrl j hj=>entryAt_congr (hm p hp (.inr ⟨k,hrl⟩)) hj)

theorem of_effect (h : DirOk L m role pd') (he : Effect L who role role' m m') (hne : some pd'≠who) :
    DirOk L m' role' pd' := by
  refine h.congr he.kernelPd (fun p hp hr=>?_) (fun p hp ho=>(he.foreign hp ho hne).1)
  refine (he.foreign hp ?_ hne).2
  rcases hr with hr | ⟨i,hr⟩ <;> rw [hr] <;> rfl

section
variable (h : DirOk L m role pd)
include h
theorem isTable (hkt : KernelTables L m) (hi : i<pdLength)
    (hne : pteGetPaddr (entryAt m pd i)≠physNull) : IsTable L (pteGetPaddr (entryAt m pd i)) := by
  cases hg : isGlobal (entryAt m L.physKernelPd i) with
  | true =>
    rw [h.shared i hi hg]
    exact (hkt.page hi).1
  | false => exact ((h.tables i hi hg).resolve_left hne).1.isTable

theorem kernel_not_global (hi : i<pdLength) (hng : isGlobal (entryAt m pd i)=false) :
    isGlobal (entryAt m L.physKernelPd i)=false := by
  cases hk : isGlobal (entryAt m L.physKernelPd i) with
  | false => rfl
  | true =>
    rw [h.shared i hi hk,hk] at hng
    cases hng

theorem walk_shared (hv : v<2^32)
    (hg : isGlobal (entryAt m L.physKernelPd (getPdIndex (maskToPage v)))=true) :
    walk m pd v=walk m L.physKernelPd v := by
  simp only [walk,h.shared _ (getPdIndex_lt hv) hg]

theorem walk_congr (hkt : KernelTables L m) (hk : ∀ x, InKernelTables L x → m' x=m x)
    (hm : ∀ p, IsFrame L p → (role p=.dir pd ∨ ∃ i, role p=.table pd i) →
      SameOn m m' p pageSize) (hv : v<2^32) : walk m' pd v=walk m pd v := by
  have hi := getPdIndex_lt hv
  simp only [walk,entryAt_congr (hm pd h.frame (.inl h.isDir)) hi]
  split
  · rfl
  · next hnl =>
    apply entryAt_congr _ (getPtIndex_lt _)
    cases hg : isGlobal (entryAt m L.physKernelPd (getPdIndex (maskToPage v))) with
    | true =>
      rw [h.shared _ hi hg]
      intro x hx hx'
      obtain ⟨o,rfl⟩ := Nat.exists_eq_add_of_le hx
      exact hk _ ((hkt.page hi).2.2 o (by omega))
    | false =>
      obtain ⟨hf,hr⟩ := (h.tables _ hi hg).resolve_left hnl
      exact hm _ hf (.inr ⟨_,hr⟩)
end

theorem walk_of_effect (h : DirOk L m role pd') (hkt : KernelTables L m)
    (he : Effect L who role role' m m') (hne : some pd'≠who) (hv : v<2^32) :
    walk m' pd' v=walk m pd' v := by
  refine h.walk_congr hkt (fun x hx=>he.kernel hx) (fun p hp hr=>?_) hv
  refine (he.foreign hp ?_ hne).2
  rcases hr with hr | ⟨i,hr⟩ <;> rw [hr] <;> rfl
end DirOk

theorem KernelTables.walk_of_effect (hkt : KernelTables L m) (he : Effect L who role role' m m')
    (hv : v<2^32) : walk m' L.physKernelPd v=walk m L.physKernelPd v := by
  have hi := getPdIndex_lt hv
  simp only [walk,entryAt_congr he.kernelPd hi]
  split
  · rfl
  · apply entryAt_congr _ (getPtIndex_lt _)
    intro x hx hx'
    obtain ⟨o,rfl⟩ := Nat.exists_eq_add_of_le hx
    exact he.kernel ((hkt.page hi).2.2 o (by omega))

section
variable {s : Machine} {t e k : ℕ}

theorem entryAt_setEntry_page (hp : p%pageSize=0) (ht : t%pageSize=0) (hne : p≠t)
    (hi : i<pdLength) (hj : j<pdLength) :
    entryAt (s.setEntry t i e).mem p j=entryAt s.mem p j := by
  apply entryAt_setEntry_ne
  simp only [pdLength,pageSize] at *
  omega

theorem entryAt_setEntry_index (hne : j≠i) : entryAt (s.setEntry t i e).mem t j=entryAt s.mem t j := by
  apply entryAt_setEntry_ne
  omega

theorem setEntry_mem_ne (hi : i<pdLength) (hx : (s.setEntry t i e).mem x≠s.mem x) : t≤x ∧ x<t+pageSize := by
  by_contra hc
  refine hx (store_outside ?_)
  simp only [pdLength,pageSize] at *
  omega

theorem IsFrame.ne_physKernelPd (h : IsFrame L p) : L.physKernelPd≠p := by
  have hb := h.bounds
  have hk := physKernelPd_bounds (L := L)
  omega

namespace DirOk

theorem setPde (h : DirOk L s.mem role pd) (hi : i<pdLength)
    (hg : isGlobal (entryAt s.mem L.physKernelPd i)=false) (he : e<2^32) (hen : EntryOk L s.mem role' pd i e)
    (hr : ∀ p, IsFrame L p → (role p).owner=some pd → role' p=role p) :
    DirOk L (s.setEntry pd i e).mem role' pd := by
  have hdir := (hr pd h.frame (by rw [h.isDir]; rfl)).trans h.isDir
  -- a table is not the directory, so its words are as before
  have htab : ∀ {f : ℕ → Role} {k}, f pd=.dir pd → ∀ p, IsFrame L p → f p=.table pd k → ∀ j<pdLength,
      entryAt (s.setEntry pd i e).mem p j=entryAt s.mem p j := by
    intro f k hd p hf hrl j hj
    refine entryAt_setEntry_page hf.aligned h.frame.aligned (fun hpd=>?_) hi hj
    rw [hpd,hd] at hrl
    cases hrl
  refine h.of_entries hr (fun k hk=>?_) (fun k hk hgk=>?_) (fun k hk hgk=>?_)
  · exact entryAt_setEntry_page physKernelPd_bounds.2.2 h.frame.aligned h.frame.ne_physKernelPd hi hk
  · refine entryAt_setEntry_index (fun hki=>?_)
    simp [hki,hg] at hgk
  · by_cases hki : k=i
    · subst hki
      rw [entryAt_setEntry_self he]
      exact hen.keep (fun _ _ _=>rfl) (htab hdir)
    · rw [entryAt_setEntry_index hki]
      exact (h.entry hk hgk).keep hr (htab h.isDir)

theorem setPte (h : DirOk L s.mem role pd) (hi : i<pdLength) (hj : j<pdLength)
    (hg : isGlobal (entryAt s.mem L.physKernelPd i)=false)
    (hne : pteGetPaddr (entryAt s.mem pd i)≠physNull) (he : e<2^32)
    (hsl : Slot L role' (.page pd i j) e)
    (hr : ∀ p, IsFrame L p → (role p).owner=some pd → role' p=role p) :
    DirOk L (s.setEntry (pteGetPaddr (entryAt s.mem pd i)) j e).mem role' pd := by
  obtain ⟨hf,hrl⟩ := (h.tables i hi hg).resolve_left hne
  generalize ht : pteGetPaddr (entryAt s.mem pd i)=t at *
  have hpd : pd≠t := by
    rintro rfl
    rw [h.isDir] at hrl
    cases hrl
  have hpde : ∀ k<pdLength, entryAt (s.setEntry t j e).mem pd k=entryAt s.mem pd k := fun k hk =>
    entryAt_setEntry_page h.frame.aligned hf.aligned hpd hj hk
  refine h.of_entries hr (fun k hk=>?_) (fun k hk _=>hpde k hk) (fun k hk hgk=>?_)
  · exact entryAt_setEntry_page physKernelPd_bounds.2.2 hf.aligned hf.ne_physKernelPd hj hk
  · rw [hpde k hk]
    have hen := h.entry hk hgk
    by_cases hki : k=i
    · subst hki
      refine ⟨hen.own,hen.present,hen.table.keep rfl hr,fun hnek l hl=>?_⟩
      rw [ht]
      by_cases hlj : l=j
      · simp_all [entryAt_setEntry_self he]
      · rw [entryAt_setEntry_index hlj,← ht]
        exact (hen.pages hnek l hl).keep rfl hr
    · refine hen.keep hr (fun p hp hrk l hl=>?_)
      refine entryAt_setEntry_page hp.aligned hf.aligned (fun hpt=>?_) hj hl
      rw [hpt,hrl] at hrk
      injection hrk with _ hik
      exact hki hik.symm

section
variable (h : DirOk L m role pd) (hkt : KernelTables L m) (hi : i<pdLength)
include h hkt hi
theorem table_apart (hg : isGlobal (entryAt m L.physKernelPd i)=false)
    (hne : pteGetPaddr (entryAt m pd i)≠physNull) (hk : k<pdLength) (hki : k≠i) :
    pteGetPaddr (entryAt m pd k)≠pteGetPaddr (entryAt m pd i) := by
  obtain ⟨hf,hr⟩ := (h.tables i hi hg).resolve_left hne
  intro hc
  cases hgk : isGlobal (entryAt m L.physKernelPd k) with
  | true =>
    have hin := ((hkt.page hk).2.2 0 (by decide)).not_free
    rw [← h.shared k hk hgk,hc] at hin
    have hb := hf.bounds
    omega
  | false =>
    have hrk := ((h.tables k hk hgk).resolve_left (hc▸hne)).2
    rw [hc,hr] at hrk
    injection hrk with _ hik
    exact hki hik.symm

theorem table_ne_dir (hne : pteGetPaddr (entryAt m pd i)≠physNull) : pteGetPaddr (entryAt m pd i)≠pd := by
  intro hc
  cases hg : isGlobal (entryAt m L.physKernelPd i) with
  | true =>
    have hin := ((hkt.page hi).2.2 0 (by decide)).not_free
    rw [← h.shared i hi hg,hc] at hin
    have hb := h.frame.bounds
    omega
  | false =>
    have hr := ((h.tables i hi hg).resolve_left hne).2
    rw [hc,h.isDir] at hr
    cases hr
end

section
variable (h : DirOk L s.mem role pd) (hkt : KernelTables L s.mem) (hi : i<pdLength)
include h hkt hi
theorem walk_setPde (he : e<2^32) (hpd : pteGetPaddr e≠pd) (hv : v<2^32)
    (hsm : getPdIndex (maskToPage v)=i → (if pteGetPaddr e=physNull then physNull
      else entryAt s.mem (pteGetPaddr e) (getPtIndex (maskToPage v)))=walk s.mem pd v) :
    walk (s.setEntry pd i e).mem pd v=walk s.mem pd v := by
  have hj := getPtIndex_lt (maskToPage v)
  have hal : ∀ e'<2^32, pteGetPaddr e'%pageSize=0 := fun e' he'=>by
    rw [pteGetPaddr_eq he']
    exact maskToPage_mod e'
  by_cases hidx : getPdIndex (maskToPage v)=i
  · simp_all [walk,entryAt_setEntry_self he,entryAt_setEntry_page (hal e he) h.frame.aligned hpd hi hj]
  · rw [walk,walk,entryAt_setEntry_index hidx]
    split
    · rfl
    · next hne =>
      have hiv := getPdIndex_lt hv
      exact entryAt_setEntry_page (hal _ (entryAt_lt _ _ _)) h.frame.aligned
        (h.table_ne_dir hkt hiv hne) hi hj

theorem walk_setPte (hj : j<pdLength) (hg : isGlobal (entryAt s.mem L.physKernelPd i)=false)
    (hne : pteGetPaddr (entryAt s.mem pd i)≠physNull) (hv : v<2^32)
    (hot : ¬ (getPdIndex (maskToPage v)=i ∧ getPtIndex (maskToPage v)=j)) :
    walk (s.setEntry (pteGetPaddr (entryAt s.mem pd i)) j e).mem pd v=walk s.mem pd v := by
  have hf := ((h.tables i hi hg).resolve_left hne).1
  have hiv := getPdIndex_lt hv
  have hpde := entryAt_setEntry_page (s := s) (e := e) h.frame.aligned hf.aligned
    (h.table_ne_dir hkt hi hne).symm hj hiv
  rw [walk,walk,hpde]
  split
  · rfl
  · next hnl =>
    by_cases hidx : getPdIndex (maskToPage v)=i
    · rw [hidx]
      exact entryAt_setEntry_index (fun hc=>hot ⟨hidx,hc⟩)
    · refine entryAt_setEntry_page ?_ hf.aligned (h.table_apart hkt hi hg hne hiv hidx) hj
        (getPtIndex_lt _)
      rw [pteGetPaddr_eq (entryAt_lt _ _ _)]
      exact maskToPage_mod _
end

end DirOk
end

section
variable {s t : Machine} {fl fl' live live' : List ℕ}

namespace Owned

section
variable (h : Owned L s fl live role)
include h
theorem subset (hsub : ∀ pd ∈ live', pd ∈ live) :
    Owned L s fl live' role :=
  {h with dirs := fun pd hpd=>h.dirs pd (hsub pd hpd)}

theorem not_mem (hp : role p≠.free) : p ∉ fl := fun hin=>hp (h.free p hin)

theorem of_effect (he : Effect L who role role' s.mem t.mem)
    (henv : t.env=s.env) (hl : FreeList L t fl') (hfr : ∀ p ∈ fl', role' p=.free)
    (hdr : ∀ pd ∈ live', some pd≠who ∧ pd ∈ live ∨ DirOk L t.mem role' pd) :
    Owned L t fl' live' role' where
  kernelTables := henv▸h.kernelTables
  unlocked := henv▸h.unlocked
  kernel := h.kernel.congr (fun _ hx=>he.kernel hx)
  list := hl
  free := hfr
  dirs := by
    intro pd hpd
    rcases hdr pd hpd with ⟨hne,hin⟩ | hok
    · exact (h.dirs pd hin).of_effect he hne
    · exact hok

theorem retype (hp : role p≠.free) (hlv : ∀ pd ∈ live, (role p).owner≠some pd) (r : Role) :
    Owned L s fl live (update role p r) := by
  have he : Effect L (role p).owner role (update role p r) s.mem s.mem := by
    refine ⟨fun x hx=>absurd rfl hx,fun q hq=>.inr ?_⟩
    rw [not_not.mp (fun hqp=>hq (update_of_ne hqp ..))]
  refine h.of_effect he rfl h.list (fun q hq=>?_) (fun pd hpd=>.inl ⟨(hlv pd hpd).symm,hpd⟩)
  have hqp : q≠p := fun hqp=>h.not_mem hp (hqp▸hq)
  rw [update_of_ne hqp]
  exact h.free q hq

theorem write (henv : t.env=s.env)
    (hfr : t.firstFreePage=s.firstFreePage) (hrem : t.remainingPages=s.remainingPages)
    (hm : ∀ x, t.mem x≠s.mem x → x<pageSize ∨ L.kmFreePhysBase≤x ∧ role (maskToPage x)≠.free ∧
        ((role (maskToPage x)).owner=none ∨ (role (maskToPage x)).owner=who))
    (hr : ∀ p, role' p≠role p → role p≠.free ∧ ((role p).owner=none ∨ (role p).owner=who))
    (hdr : ∀ pd ∈ live, some pd≠who ∨ DirOk L t.mem role' pd) :
    Owned L t fl live role' ∧ Effect L who role role' s.mem t.mem := by
  have he : Effect L who role role' s.mem t.mem :=
    ⟨fun x hx=>(hm x hx).imp id (fun ⟨hf,_,ho⟩=>⟨hf,ho⟩),fun p hp=>(hr p hp).2⟩
  have hls : FreeList L t fl := by
    refine h.list.congr hfr hrem (fun x hx=>not_not.mp (fun hc=>?_))
    have hin := not_not.mp hx
    rcases hm x hc with h0 | ⟨-,hne,-⟩
    · have hb := (h.list.frame _ hin).bounds
      have hle := maskToPage_le x
      have hlow := L.kmFreePhysBase_bounds
      simp only [pageSize] at h0
      omega
    · exact hne (h.free _ hin)
  refine ⟨h.of_effect he henv hls (fun p hp=>?_) (fun pd hpd=>?_),he⟩
  · exact (not_not.mp (fun hc=>(hr p hc).1 (h.free p hp))).trans (h.free p hp)
  · exact (hdr pd hpd).imp (fun hne=>⟨hne,hpd⟩) id

theorem setEntry (hf : IsFrame L p) (hi : i<pdLength)
    (hp : role p≠.free) (ho : (role p).owner=none ∨ (role p).owner=who)
    (hr : ∀ p, role' p≠role p → role p≠.free ∧ ((role p).owner=none ∨ (role p).owner=who))
    (hdr : ∀ pd ∈ live, some pd≠who ∨ DirOk L (s.setEntry p i e).mem role' pd) :
    Owned L (s.setEntry p i e) fl live role' ∧ Effect L who role role' s.mem (s.setEntry p i e).mem := by
  refine h.write rfl rfl rfl (fun x hx=>.inr ?_) hr hdr
  have hb := hf.bounds
  obtain ⟨hx,hx'⟩ := setEntry_mem_ne hi hx
  rw [maskToPage_eq hf.aligned hx hx']
  exact ⟨by omega,hp,ho⟩

theorem setOwn (hf : IsFrame L p) (hi : i<pdLength) (ho : (role p).owner=some pd)
    (hr : ∀ p, role' p≠role p → role p≠.free ∧ ((role p).owner=none ∨ (role p).owner=some pd))
    (hd : DirOk L (s.setEntry p i e).mem role' pd) :
    Owned L (s.setEntry p i e) fl live role' ∧
      Effect L (some pd) role role' s.mem (s.setEntry p i e).mem := by
  refine h.setEntry hf hi (fun hp=>by rw [hp] at ho; cases ho) (.inr ho) hr (fun pd' _=>?_)
  by_cases hpp : pd'=pd <;> simp_all

theorem pageWrite (henv : t.env=s.env)
    (hfr : t.firstFreePage=s.firstFreePage) (hrem : t.remainingPages=s.remainingPages)
    (hm : ∀ x, t.mem x≠s.mem x → x<pageSize ∨
      ∃ p i j, IsFrame L p ∧ role p=.page pd i j ∧ p≤x ∧ x<p+pageSize) :
    Owned L t fl live role ∧ Effect L (some pd) role role s.mem t.mem ∧
      (∀ pd' ∈ live, ∀ v<2^32, walk t.mem pd' v=walk s.mem pd' v) ∧
      ∀ pd' q, IsFrame L q → (role q=.dir pd' ∨ ∃ i, role q=.table pd' i) →
        SameOn s.mem t.mem q pageSize := by
  have hkr : ∀ x, InKernelTables L x → t.mem x=s.mem x := by
    intro x hx
    refine not_not.mp (fun hc=>?_)
    have hn := hx.not_free
    rcases hm x hc with h0 | ⟨p,i,j,hf,-,hpx,-⟩
    · omega
    · have hb := hf.bounds
      omega
  have htb : ∀ pd' q, IsFrame L q → (role q=.dir pd' ∨ ∃ i, role q=.table pd' i) →
      SameOn s.mem t.mem q pageSize := by
    intro pd' q hq hrl x hx hx'
    refine not_not.mp (fun hc=>?_)
    rcases hm x hc with h0 | ⟨p,i,j,hf,hr,h1,h2⟩
    · have hb := hq.bounds
      have hlow := L.kmFreePhysBase_bounds
      simp only [pageSize] at h0
      omega
    · have hqp : q=p := by
        rw [← maskToPage_eq hq.aligned hx hx',maskToPage_eq hf.aligned h1 h2]
      rw [hqp,hr] at hrl
      rcases hrl with hc | ⟨_,hc⟩ <;> cases hc
  obtain ⟨ht,he⟩ : Owned L t fl live role ∧ Effect L (some pd) role role s.mem t.mem := by
    refine h.write henv hfr hrem (fun x hx=>?_) (fun q hq=>absurd rfl hq) (fun pd' hpd'=>?_)
    · refine (hm x hx).imp id (fun hpg=>?_)
      obtain ⟨p,i,j,hf,hr,h1,h2⟩ := hpg
      have hb := hf.bounds
      rw [maskToPage_eq hf.aligned h1 h2,hr]
      exact ⟨by omega,by simp,.inr rfl⟩
    · refine .inr ((h.dirs pd' hpd').congr (fun x hx hx'=>hkr x ⟨hx,?_⟩) (htb pd') (fun _ _ _=>rfl))
      simp only [pageSize] at hx'
      omega
  exact ⟨ht,he,fun pd' hpd' v hv=>(h.dirs pd' hpd').walk_congr h.kernel hkr (htb pd') hv,htb⟩
end

end Owned

/-- The entry of `v` in the directory `pd` is present and accessible to user code. -/
def UserMapped (m : Mem) (pd v : ℕ) : Prop := isPresent (walk m pd v)=true ∧ isUser (walk m pd v)=true

theorem Owned.target (h : Owned L s fl live role) (hpd : pd ∈ live) (hv : v<2^32)
    (hg : isGlobal (entryAt s.mem L.physKernelPd (getPdIndex (maskToPage v)))=false) :
    pteGetPaddr (walk s.mem pd v)=physNull ∨ IsFrame L (pteGetPaddr (walk s.mem pd v)) ∧
      role (pteGetPaddr (walk s.mem pd v))=.page pd (getPdIndex (maskToPage v)) (getPtIndex (maskToPage v)) := by
  rw [walk]
  split
  · exact .inl pteGetPaddr_zero
  · next hne => exact (h.dirs pd hpd).pages _ (getPdIndex_lt hv) hg hne _ (getPtIndex_lt _)

theorem Owned.userMapped_page (h : Owned L s fl live role) (hpd : pd ∈ live) (hv : v<2^32)
    (hu : UserMapped s.mem pd v) :
    pteGetPaddr (walk s.mem pd v)=physNull ∨ ∃ i j, IsFrame L (pteGetPaddr (walk s.mem pd v)) ∧
      role (pteGetPaddr (walk s.mem pd v))=.page pd i j := by
  have hdir := h.dirs pd hpd
  have hi := getPdIndex_lt hv
  have hj := getPtIndex_lt (maskToPage v)
  obtain ⟨hp,hu⟩ := hu
  cases hg : isGlobal (entryAt s.mem L.physKernelPd (getPdIndex (maskToPage v))) with
  | true =>
    -- a kernel entry: its word, wherever the lookup ends, does not let user code in
    have hsup : isUser (walk s.mem L.physKernelPd v)=false := by
      have ht := physPageTables_eq (L := L)
      have hw : walk s.mem L.physKernelPd v=entryAt s.mem (pteGetPaddr (entryAt s.mem L.physKernelPd
          (getPdIndex (maskToPage v)))) (getPtIndex (maskToPage v)) := if_neg (h.kernel.page hi).2.1
      rw [hw,h.kernel.paddr _ hi]
      generalize getPdIndex (maskToPage v)=i at *
      generalize getPtIndex (maskToPage v)=j at *
      split
      · exact h.kernel.supervisor j (hj.trans (by decide))
      · have hwr := h.kernel.supervisor (1024+1024*i+j)
          (by simp only [pdLength,pageSize] at hi hj; omega)
        rw [entryAt] at hwr ⊢
        rwa [show L.physPageTables+pageSize*i+4*j =
          L.physKernelPd+4*(1024+1024*i+j) by simp only [pageSize]; omega]
    rw [hdir.walk_shared hv hg,hsup] at hu
    cases hu
  | false => exact (h.target hpd hv hg).imp id (fun hpg=>⟨_,_,hpg⟩)

/-- The physical address of the byte at `v`, as `paging_get_entry` finds it. -/
def userByte (m : Mem) (pd v : ℕ) : ℕ := pteGetPaddr (walk m pd v)+v%pageSize

theorem Owned.userWrite (h : Owned L s fl live role) (hpd : pd ∈ live) (henv : t.env=s.env)
    (hfr : t.firstFreePage=s.firstFreePage) (hrem : t.remainingPages=s.remainingPages)
    (hm : ∀ x, t.mem x≠s.mem x → ∃ v<2^32, UserMapped s.mem pd v ∧ x=userByte s.mem pd v) :
    Owned L t fl live role ∧ Effect L (some pd) role role s.mem t.mem ∧
      (∀ pd' ∈ live, ∀ v<2^32, walk t.mem pd' v=walk s.mem pd' v) ∧
      ∀ pd' q, IsFrame L q → (role q=.dir pd' ∨ ∃ i, role q=.table pd' i) →
        SameOn s.mem t.mem q pageSize := by
  refine h.pageWrite henv hfr hrem (fun x hx=>?_)
  obtain ⟨v,hv,hu,rfl⟩ := hm x hx
  have hoff : v%pageSize<pageSize := Nat.mod_lt v (by decide)
  rcases h.userMapped_page hpd hv hu with h0 | ⟨i,j,hf,hr⟩
  · refine .inl ?_
    rw [userByte,h0]
    simp only [physNull]
    omega
  · exact .inr ⟨_,i,j,hf,hr,Nat.le_add_right _ _,Nat.add_lt_add_left hoff _⟩

/-- Give a frame a role; the null address has none. -/
def grant (role : ℕ → Role) (p : ℕ) (r : Role) : ℕ → Role :=
  if p=physNull then role else update role p r

theorem grant_null (role : ℕ → Role) (r : Role) : grant role physNull r=role := if_pos rfl

theorem grant_frame (role : ℕ → Role) (hp : IsFrame L p) (r : Role) :
    grant role p r=update role p r := if_neg hp.ne_zero

/-- A null address or a frame that the kernel has just taken. -/
def Fresh (L : Layout) (role : ℕ → Role) (p : ℕ) : Prop := p=physNull ∨ IsFrame L p ∧ role p=.held

theorem Fresh.grant_ne (hq : Fresh L role q) (p : ℕ) (hp : grant role q r p≠role p) :
    role p≠.free ∧ ((role p).owner=none ∨ (role p).owner=who) := by
  rcases hq with rfl | ⟨hf,hq⟩
  · simp_all [grant_null]
  · rw [grant_frame role hf] at hp
    have hpq := not_not.mp (fun hne=>hp (update_of_ne hne ..))
    rw [hpq,hq]
    exact ⟨by simp,.inl rfl⟩

theorem Fresh.grant_keep (hq : Fresh L role q) (p : ℕ) (hp : role p≠.held) : grant role q r p=role p := by
  rcases hq with rfl | ⟨hf,hq⟩
  · rw [grant_null]
  · rw [grant_frame role hf]
    refine update_of_ne (fun hpq=>hp ?_) ..
    rw [hpq,hq]

theorem Fresh.grant_owned (hq : Fresh L role q) (p : ℕ) (hp : (role p).owner=some pd) :
    grant role q r p=role p := by
  refine hq.grant_keep p (fun hh=>?_)
  rw [hh] at hp
  cases hp

theorem Fresh.slot (hq : Fresh L role (pteGetPaddr e)) : Slot L (grant role (pteGetPaddr e) r) r e := by
  rcases hq with h0 | ⟨hf,-⟩
  · exact .inl h0
  · refine .inr ⟨hf,?_⟩
    rw [grant_frame role hf,update_self]

section
variable {e : ℕ}

section
variable (h : Owned L s fl live role) (hpd : pd ∈ live) (hi : i<pdLength)
  (hg : isGlobal (entryAt s.mem L.physKernelPd i)=false) (he : e<2^32) (hge : isGlobal e=false)
  (hpr : isPresent e=true → pteGetPaddr e≠physNull)
include h hpd hi hg he hge hpr
theorem Owned.setPde_new (hnew : Fresh L role (pteGetPaddr e))
    (hz : pteGetPaddr e≠physNull → ∀ j<pdLength, entryAt s.mem (pteGetPaddr e) j=0) :
    Owned L (s.setEntry pd i e) fl live (grant role (pteGetPaddr e) (.table pd i)) ∧
      Effect L (some pd) role (grant role (pteGetPaddr e) (.table pd i)) s.mem
        (s.setEntry pd i e).mem := by
  have hdir := h.dirs pd hpd
  refine h.setOwn hdir.frame hi (by rw [hdir.isDir]; rfl) (fun p=>hnew.grant_ne p)
    (hdir.setPde hi hg he ⟨hge,hpr,hnew.slot,fun hne j hj=>?_⟩ (fun p _ hp=>hnew.grant_owned p hp))
  rw [hz hne j hj]
  exact .inl (Nat.zero_and _)

theorem Owned.setPde_flags (had : pteGetPaddr e=pteGetPaddr (entryAt s.mem pd i)) :
    Owned L (s.setEntry pd i e) fl live role ∧
      Effect L (some pd) role role s.mem (s.setEntry pd i e).mem := by
  have hdir := h.dirs pd hpd
  have hen := hdir.entry hi hg
  refine h.setOwn hdir.frame hi (by rw [hdir.isDir]; rfl) (fun p hp=>absurd rfl hp)
    (hdir.setPde hi hg he ⟨hge,hpr,?_,?_⟩ (fun _ _ _=>rfl))
  · have hs := hen.table
    rwa [Slot,← had] at hs
  · rw [had]
    exact hen.pages
end

theorem Owned.setPte (h : Owned L s fl live role) (hpd : pd ∈ live) (hi : i<pdLength)
    (hj : j<pdLength) (hg : isGlobal (entryAt s.mem L.physKernelPd i)=false)
    (hne : pteGetPaddr (entryAt s.mem pd i)≠physNull) (he : e<2^32)
    (hnew : Fresh L role (pteGetPaddr e)) :
    Owned L (s.setEntry (pteGetPaddr (entryAt s.mem pd i)) j e) fl live
        (grant role (pteGetPaddr e) (.page pd i j)) ∧
      Effect L (some pd) role (grant role (pteGetPaddr e) (.page pd i j)) s.mem
        (s.setEntry (pteGetPaddr (entryAt s.mem pd i)) j e).mem := by
  have hdir := h.dirs pd hpd
  obtain ⟨hf,hr⟩ := (hdir.tables i hi hg).resolve_left hne
  exact h.setOwn hf hj (by rw [hr]; rfl) (fun p=>hnew.grant_ne p)
    (hdir.setPte hi hj hg hne he hnew.slot (fun p _ hp=>hnew.grant_owned p hp))
end

theorem Effect.of_list (hl : ∀ p ∈ fl, IsFrame L p ∧ (role p).owner=none)
    (hm : ∀ x, Outside fl x → m' x=m x)
    (hr : ∀ p, role' p≠role p → (role p).owner=none) : Effect L none role role' m m' := by
  refine ⟨fun x hx=>.inr ?_,fun p hp=>.inl (hr p hp)⟩
  have hin := not_not.mp (fun hout=>hx (hm x hout))
  have hb := (hl _ hin).1.bounds
  have hle := maskToPage_le x
  exact ⟨by omega,.inl (hl _ hin).2⟩

theorem palloc_owned (h : Owned L s fl live role) :
    Returns (palloc L) s (fun p t=>(fl=[] ∧ p=physNull ∧ t=s) ∨
      ∃ rest, fl=p::rest ∧ Owned L t rest live (update role p .held) ∧
        Effect L none role (update role p .held) s.mem t.mem ∧ IsFrame L p ∧
        SameEnv s t ∧ (∀ o<pageSize, t.mem (p+o)=0) ∧
        ∀ x, Outside fl x → t.mem x=s.mem x) := by
  refine (palloc_spec h.list h.kernelTables).imp (fun p t ht=>ht.imp id ?_)
  rintro ⟨rest,rfl,hrs,henv,hz,hm⟩
  have hfr : ∀ q ∈ p::rest, IsFrame L q ∧ (role q).owner=none := fun q hq =>
    ⟨h.list.frame q hq,by rw [h.free q hq]; rfl⟩
  have he : Effect L none role (update role p .held) s.mem t.mem := by
    refine Effect.of_list hfr hm (fun q hq=>?_)
    by_cases hqp : q=p
    · exact (hfr q (by simp [hqp])).2
    · simp_all
  refine ⟨rest,rfl,?_,he,(hfr p (by simp)).1,henv,hz,hm⟩
  refine h.of_effect he henv.1 hrs (fun q hq=>?_) (fun pd hpd=>.inl ⟨by simp,hpd⟩)
  have hqp : q≠p := fun hqp=>(List.nodup_cons.mp h.list.nodup).1 (hqp▸hq)
  rw [update_of_ne hqp]
  exact h.free q (by simp [hq])

theorem pfree_owned (h : Owned L s fl live role) (hf : IsFrame L p) (hp : role p≠.free)
    (hlv : ∀ pd ∈ live, (role p).owner≠some pd) :
    Returns (pfree L p) s (fun _ t=>Owned L t (p::fl) live (update role p .free) ∧
      Effect L (role p).owner role (update role p .free) s.mem t.mem ∧ SameEnv s t ∧
      ∀ x, Outside (p::fl) x → t.mem x=s.mem x) := by
  apply (pfree_spec h.list h.kernelTables hf (h.not_mem hp)).imp
  rintro - t ⟨hl,henv,hm⟩
  have hfr : ∀ q ∈ p::fl, IsFrame L q ∧ ((role q).owner=none ∨ q=p) := by
    intro q hq
    rcases List.mem_cons.mp hq with rfl | hq
    · exact ⟨hf,.inr rfl⟩
    · exact ⟨h.list.frame q hq,.inl (by rw [h.free q hq]; rfl)⟩
  have he : Effect L (role p).owner role (update role p .free) s.mem t.mem := by
    refine ⟨fun x hx=>.inr ?_,fun q hq=>?_⟩
    · have hin := not_not.mp (fun hout=>hx (hm x hout))
      have hb := (hfr _ hin).1.bounds
      have hle := maskToPage_le x
      exact ⟨by omega,(hfr _ hin).2.imp id (fun hxp=>by rw [hxp])⟩
    · by_cases hqp : q=p
      · exact .inr (by rw [hqp])
      · simp_all
  refine ⟨h.of_effect he henv.1 hl (fun q hq=>?_) (fun pd hpd=>.inl ⟨(hlv pd hpd).symm,hpd⟩),he,henv,hm⟩
  by_cases hqp : q=p
  · rw [hqp,update_self]
  · rw [update_of_ne hqp]
    exact h.free q ((List.mem_cons.mp hq).resolve_left hqp)
end

end Yaos2.Memory
