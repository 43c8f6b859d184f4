import Mathlib.Algebra.BigOperators.Intervals
import Yaos2.Memory.AddressSpace

/-! # Duplicating an address space

`dupCost` is the number of frames that `vmdup` takes. With fewer, the first `palloc` that comes back
empty-handed makes it map physical page zero. -/
namespace Yaos2.Memory
open Foundation Function Nat
open scoped BigOperators

/-- Frames it takes to copy the first `k` entries of the page table `t`. -/
def tableCost (m : Mem) (t k : ℕ) : ℕ := ∑ j ∈ Finset.range k, if isOwned (entryAt m t j) then 1 else 0

/-- Frames it takes to copy the first `k` entries of the directory `pd`. -/
def dirCost (m : Mem) (pd k : ℕ) : ℕ := ∑ i ∈ Finset.range k,
    if isOwned (entryAt m pd i) then 1+tableCost m (pteGetPaddr (entryAt m pd i)) pdLength else 0

def dupCost (m : Mem) (pd : ℕ) : ℕ := dirCost m pd pdLength

theorem tableCost_succ (m : Mem) (t k : ℕ) :
    tableCost m t (k+1)=tableCost m t k+if isOwned (entryAt m t k) then 1 else 0 :=
  Finset.sum_range_succ ..

theorem dirCost_succ (m : Mem) (pd k : ℕ) : dirCost m pd (k+1)=dirCost m pd k +
      if isOwned (entryAt m pd k) then 1+tableCost m (pteGetPaddr (entryAt m pd k)) pdLength
      else 0 :=
  Finset.sum_range_succ ..

variable {L : Layout} {s t u : Machine} {fl fl' live : List ℕ} {role role' : ℕ → Role}
  {pd src dst p q i j used : ℕ}

theorem Slot.readable (h : Slot L role r e) : L.vmIsStaticP (pteGetPaddr e)=true ∧
      L.physOf (L.vmMapWalk (pteGetPaddr e))=some (pteGetPaddr e) := by
  have hst : L.vmIsStaticP (pteGetPaddr e)=true ∧ pteGetPaddr e%pageSize=0 := by
    rcases h with h0 | ⟨hf,-⟩
    · have ho := L.order
      rw [h0]
      exact ⟨Layout.vmIsStaticP_image (.inl (by simp only [physNull]; omega)),rfl⟩
    · exact ⟨hf.isTable.static,hf.aligned⟩
  exact ⟨hst.1,Layout.physOf_vmMapWalk hst.1 hst.2 (o := 0) (by decide)⟩

theorem wp_translateStatic (h : L.vmIsStaticP p=true) (hk : s.env.isUsingKernelPageTables L=true) :
    Ensures (translateOrPanic L p) s Q E ↔ Q (L.vmMapWalk p) s := by
  simp [translateOrPanic,wp_kassert hk,h]

/-- The copy so far: `used` frames have been taken from the list `fl`. -/
structure Copying (L : Layout) (live : List ℕ) (dst : ℕ) (s : Machine) (fl : List ℕ)
    (role : ℕ → Role) (used : ℕ) (u : Machine) (fl' : List ℕ) (role' : ℕ → Role) : Prop where
  owned : Owned L u fl' live role'
  effect : Effect L (some dst) role role' s.mem u.mem
  clean : Clean s u
  count : fl'.length+used=fl.length

section
variable (h : Copying L live dst s fl role used u fl' role')
include h
theorem Copying.foreign (hq : IsFrame L q) (ho : (role q).owner=some src) (hne : src≠dst) :
    role' q=role q ∧ SameOn s.mem u.mem q pageSize :=
  h.effect.foreign hq ho (fun hc=>hne (Option.some.inj hc))

theorem Copying.user (hi : i<pdLength) (hg : isGlobal (entryAt s.mem L.physKernelPd i)=false) :
    isGlobal (entryAt u.mem L.physKernelPd i)=false := by
  rwa [entryAt_congr h.effect.kernelPd hi]

theorem Copying.table (hdst : dst ∈ live) (hi : i<pdLength)
    (hg : isGlobal (entryAt s.mem L.physKernelPd i)=false) (hd : pteGetPaddr (entryAt u.mem dst i)=p)
    (hne : p≠physNull) : IsFrame L p ∧ role' p=.table dst i := by
  subst hd
  exact ((h.owned.dirs dst hdst).tables i hi (h.user hi hg)).resolve_left hne

theorem Copying.palloc_spec : Returns (palloc L) u (fun p w=>(p=physNull ∧ w=u ∧ fl.length<used+1) ∨
      ∃ rest, IsFrame L p ∧ role' p=.free ∧
        Copying L live dst s fl role (used+1) w rest (update role' p .held) ∧
        (∀ o<pageSize, w.mem (p+o)=0) ∧
        ∀ q, IsFrame L q → role' q≠.free → SameOn u.mem w.mem q pageSize) := by
  apply (palloc_owned h.owned).imp
  rintro p w (⟨hfl,hp,hw⟩ | ⟨rest,hfl,hw,he,hf,⟨-,htr⟩,hz,hm⟩)
  · have hc := h.count
    rw [hfl,List.length_nil] at hc
    exact .inl ⟨hp,hw,by omega⟩
  · have hc := h.count
    rw [hfl,List.length_cons] at hc
    refine .inr ⟨rest,hf,h.owned.free p (by simp [hfl]),
      ⟨hw,h.effect.trans he.of_none,h.clean.trans (.of_eq htr),by omega⟩,hz,fun q hq hr=>?_⟩
    intro x hx hx'
    apply hm x
    rw [Outside,maskToPage_eq hq.aligned hx hx']
    exact h.owned.not_mem hr
end

/-- Page zero was mapped because there were fewer than `need` frames to take. -/
def RanOut (s : Machine) (fl : List ℕ) (need : ℕ) (w : Machine) : Prop := Tainted s w ∧ fl.length<need

theorem RanOut.grows (h : RanOut s fl need u) (hx : Grows x) (hle : need≤need') :
    Ensures x u (fun _ w=>RanOut s fl need' w) (RanOut s fl need') :=
  (hx u).mono (fun _ _ hw=>⟨h.1.extends hw,h.2.trans_le hle⟩)
    (fun _ hw=>⟨h.1.extends hw,h.2.trans_le hle⟩)

/-- `need` frames have been taken for the copy, and then `Q`; or the frames have run out. -/
def Attempts (L : Layout) (live : List ℕ) (dst : ℕ) (s : Machine) (fl : List ℕ) (role : ℕ → Role) (need : ℕ)
    (x : Kernel Unit) (u : Machine) (Q : (ℕ → Role) → Machine → Prop) : Prop :=
  Ensures x u
    (fun _ w=>(∃ fl' role', Copying L live dst s fl role need w fl' role' ∧ Q role' w) ∨ RanOut s fl need w)
    (RanOut s fl need)

theorem Attempts.forRange {f : ℕ → ℕ} {Q : ℕ → (ℕ → Role) → Machine → Prop}
    (hcs : ∀ k, f k≤f (k+1)) (hgr : ∀ k, Grows (body k))
    (h0 : Copying L live dst s fl role (f 0) u fl' role') (hQ : Q 0 role' u)
    (hst : ∀ k w fl1 role1, k<n → Copying L live dst s fl role (f k) w fl1 role1 → Q k role1 w →
      Attempts L live dst s fl role (f (k+1)) (body k) w (Q (k+1))) :
    Attempts L live dst s fl role (f n) (forRange n body) u (Q n) := by
  have hmn := monotone_nat_of_le_succ hcs
  refine (Ensures.forRange (E := RanOut s fl (f n)) (I := fun k w=>(∃ fl1 role1,
    Copying L live dst s fl role (f k) w fl1 role1 ∧ Q k role1 w) ∨ RanOut s fl (f n) w)
    (.inl ⟨fl',role',h0,hQ⟩) (fun k w hk hw=>?_))
  rcases hw with ⟨fl1,role1,hw,hQw⟩ | hout
  · have hle : ∀ x, RanOut s fl (f (k+1)) x → RanOut s fl (f n) x := fun x hx =>
      ⟨hx.1,hx.2.trans_le (hmn hk)⟩
    exact (hst k w fl1 role1 hk hw hQw).mono (fun _ x hx=>hx.imp_right (hle x)) hle
  · exact (hout.grows (hgr k) le_rfl).imp (fun _ _=>.inr)

theorem or_flags (hp : p%pageSize=0) (hlt : p<2^32) :
    p ||| pteGetFlags e<2^32 ∧ pteGetPaddr (p ||| pteGetFlags e)=p ∧
      isPresent (p ||| pteGetFlags e)=isPresent e ∧
      isGlobal (p ||| pteGetFlags e)=isGlobal e := by
  have hf : pteGetFlags e<pageSize := by
    rw [pteGetFlags_eq]
    exact mod_lt e (by decide)
  have hor := aligned_or hp hf
  have hlt' : p+pteGetFlags e<2^32 := by
    simp only [pageSize] at *
    omega
  have hbit : ∀ b<12, (p+pteGetFlags e).testBit b=e.testBit b := by
    intro b hb
    rw [testBit_frame_add hp hf hb,pteGetFlags_eq,show pageSize=2^12 from rfl,
      testBit_mod_two_pow,decide_eq_true hb,Bool.true_and]
  rw [hor]
  refine ⟨hlt',by rw [pteGetPaddr_eq hlt',maskToPage_add hp hf],?_,?_⟩
  · rw [isPresent_eq,isPresent_eq,hbit 0 (by decide)]
  · rw [isGlobal_eq,isGlobal_eq,hbit 8 (by decide)]

theorem pteGetFlags_or (hp : p%pageSize=0) : pteGetFlags (p ||| pteGetFlags e)=pteGetFlags e := by
  have hf : pteGetFlags e<pageSize := by
    rw [pteGetFlags_eq]
    exact mod_lt e (by decide)
  rw [aligned_or hp hf,pteGetFlags_eq,add_mod,hp,zero_add,mod_mod,mod_eq_of_lt hf]

section
variable {m m' m'' : Mem} {role'' : ℕ → Role} {d k l : ℕ}

/-- From `m` to `m'` entries `k` to `l - 1` of the table `d` have been written, and otherwise only
frames that were free. -/
structure Spares (L : Layout) (role role' : ℕ → Role) (m m' : Mem) (d k l : ℕ) : Prop where
  taken : ∀ q, role q≠.free → role' q≠.free
  same : ∀ q, IsFrame L q → role q≠.free → q≠d → SameOn m m' q pageSize
  entries : ∀ i<pdLength, i<k ∨ l ≤ i → entryAt m' d i=entryAt m d i

theorem Spares.refl (role : ℕ → Role) (m : Mem) (d k : ℕ) : Spares L role role m m d k k :=
  ⟨fun _ h=>h,fun _ _ _ _ _ _ _=>rfl,fun _ _ _=>rfl⟩

theorem Spares.trans (h : Spares L role role' m m' d 0 k) (h' : Spares L role' role'' m' m'' d k (k+1)) :
    Spares L role role'' m m'' d 0 (k+1) := by
  refine ⟨fun q hq=>h'.taken q (h.taken q hq),fun q hf hq hd x hx hx'=>?_,fun i hi hik=>?_⟩
  · exact (h'.same q hf (h.taken q hq) hd x hx hx').trans (h.same q hf hq hd x hx hx')
  · exact (h'.entries i hi (by omega)).trans (h.entries i hi (by omega))

/-- `e'` is a copy of an owned entry `e`, on a page with the same contents. Page zero is not
followed. -/
def PageCopied (m m' : Mem) (e e₀ e' : ℕ) : Prop :=
  if isOwned e then pteGetPaddr e'≠physNull ∧ pteGetFlags e'=pteGetFlags e ∧
    (pteGetPaddr e≠physNull → ∀ o<pageSize, m' (pteGetPaddr e'+o)=m (pteGetPaddr e+o))
  else e'=e₀

/-- The first `k` entries of the table `r` have been copied to the table `d`. -/
def TableCopied (m m₀ m' : Mem) (r d k : ℕ) : Prop :=
  ∀ j<k, PageCopied m m' (entryAt m r j) (entryAt m₀ d j) (entryAt m' d j)

/-- Entry `i` of `src` has been copied with its table to an empty one, or left as it was. -/
def DirEntryCopied (m m₀ m' : Mem) (src dst i : ℕ) : Prop :=
  if isOwned (entryAt m src i) then pteGetPaddr (entryAt m' dst i)≠physNull ∧
    pteGetFlags (entryAt m' dst i)=pteGetFlags (entryAt m src i) ∧
    TableCopied m (fun _=>0) m' (pteGetPaddr (entryAt m src i)) (pteGetPaddr (entryAt m' dst i)) pdLength
  else entryAt m' dst i=entryAt m₀ dst i

theorem TableCopied.congr (h : TableCopied m m₀ m' r d k) (he : ∀ i<k, entryAt m'' d i=entryAt m' d i)
    (hs : ∀ i<k, pteGetPaddr (entryAt m' d i)≠physNull →
      SameOn m' m'' (pteGetPaddr (entryAt m' d i)) pageSize) : TableCopied m m₀ m'' r d k := by
  intro i hi
  have hcp := h i hi
  rw [he i hi]
  rw [PageCopied] at hcp ⊢
  split
  · next hown =>
    rw [if_pos hown] at hcp
    obtain ⟨hne,hfl,hcn⟩ := hcp
    exact ⟨hne,hfl,fun h0 o ho=>(hs i hi hne _ (by omega) (by omega)).trans (hcn h0 o ho)⟩
  · next hown => rwa [if_neg hown] at hcp

theorem DirEntryCopied.congr (h : DirEntryCopied m m₀ m' src dst i)
    (he : entryAt m'' dst i=entryAt m' dst i)
    (ht : isOwned (entryAt m src i)=true → pteGetPaddr (entryAt m' dst i)≠physNull →
      SameOn m' m'' (pteGetPaddr (entryAt m' dst i)) pageSize ∧
      ∀ j<pdLength, pteGetPaddr (entryAt m' (pteGetPaddr (entryAt m' dst i)) j)≠physNull →
        SameOn m' m'' (pteGetPaddr (entryAt m' (pteGetPaddr (entryAt m' dst i)) j)) pageSize) :
    DirEntryCopied m m₀ m'' src dst i := by
  rw [DirEntryCopied] at h ⊢
  rw [he]
  split
  · next hown =>
    rw [if_pos hown] at h
    obtain ⟨hne,hfl,hcp⟩ := h
    obtain ⟨htab,hpg⟩ := ht hown hne
    exact ⟨hne,hfl,hcp.congr (fun j hj=>entryAt_congr htab hj) hpg⟩
  · next hown => rwa [if_neg hown] at h

theorem DirOk.spared_page (h : DirOk L m role pd) (hsp : Spares L role role' m m' d k l)
    (hd : ∀ i j, role d≠.page pd i j) (hi : i<pdLength)
    (hg : isGlobal (entryAt m L.physKernelPd i)=false)
    (hne : pteGetPaddr (entryAt m pd i)≠physNull) (hj : j<pdLength)
    (hne' : pteGetPaddr (entryAt m (pteGetPaddr (entryAt m pd i)) j)≠physNull) :
    SameOn m m' (pteGetPaddr (entryAt m (pteGetPaddr (entryAt m pd i)) j)) pageSize := by
  obtain ⟨hf,hr⟩ := (h.pages i hi hg hne j hj).resolve_left hne'
  refine hsp.same _ hf (by rw [hr]; simp) (fun hc=>hd i j ?_)
  rw [← hc,hr]

theorem blit_setEntry {w : Machine} (hd : IsFrame L d) (hp : IsFrame L p) (hne : d≠p)
    (hj : j<pdLength) (he : e<2^32)
    (hm : m'=blit (w.setEntry d j e).mem p (bytes (w.setEntry d j e).mem a pageSize)) :
    (∀ q, IsFrame L q → q≠d → q≠p → SameOn w.mem m' q pageSize) ∧
      (∀ i<pdLength, i≠j → entryAt m' d i=entryAt w.mem d i) ∧ entryAt m' d j=e ∧
      ∀ o<pageSize, m' (p+o)=(w.setEntry d j e).mem (a+o) := by
  have hout : ∀ q, IsFrame L q → q≠p → SameOn (w.setEntry d j e).mem m' q pageSize := by
    intro q hq hqp x hx hx'
    have hap := hq.apart hp hqp
    rw [hm]
    exact blit_outside (by rw [bytes_length]; omega)
  refine ⟨fun q hq hqd hqp x hx hx'=>(hout q hq hqp x hx hx').trans ?_,fun i hi hij=>?_,?_,
    fun o ho=>?_⟩
  · have had := hq.apart hd hqd
    refine not_not.mp (fun hc=>?_)
    have hin := setEntry_mem_ne hj hc
    omega
  · rw [entryAt_congr (hout d hd hne) hi,entryAt_setEntry_index hij]
  · rw [entryAt_congr (hout d hd hne) hj,entryAt_setEntry_self he]
  · rw [hm]
    exact blit_bytes_inside ho
end

section
variable {d : ℕ} (h : Owned L s fl live role) (hsrc : src ∈ live) (hdst : dst ∈ live)
  (hne : src≠dst) (hi : i<pdLength)
  (hg : isGlobal (entryAt s.mem L.physKernelPd i)=false)
  (hsne : pteGetPaddr (entryAt s.mem src i)≠physNull)
include h hsrc hdst hne hi hg hsne
section
variable (hc : Copying L live dst s fl role used u fl' role') (hd : pteGetPaddr (entryAt u.mem dst i)=d)
  (hdne : d≠physNull)
include hc hd hdne
theorem duplicateEntryPage_spec (hj : j<pdLength) : Attempts L live dst s fl role
      (used+if isOwned (entryAt s.mem (pteGetPaddr (entryAt s.mem src i)) j) then 1 else 0)
      (duplicateEntryPage L (L.vmMapWalk d) (L.vmMapWalk (pteGetPaddr (entryAt s.mem src i))) j) u
      (fun role'' w=>pteGetPaddr (entryAt w.mem dst i)=d ∧ Spares L role' role'' u.mem w.mem d j (j+1) ∧
        PageCopied s.mem w.mem (entryAt s.mem (pteGetPaddr (entryAt s.mem src i)) j)
          (entryAt u.mem d j) (entryAt w.mem d j)) := by
  obtain ⟨hsf,hsr⟩ := ((h.dirs src hsrc).tables i hi hg).resolve_left hsne
  have hsl := (h.dirs src hsrc).pages i hi hg hsne j hj
  generalize pteGetPaddr (entryAt s.mem src i)=r at *
  have hr' := hc.foreign hsf (by rw [hsr]; rfl) hne
  obtain ⟨hdf,hdr⟩ := hc.table hdst hi hg hd hdne
  simp only [Attempts,duplicateEntryPage,wp_bind,wp_readEntry hsf.isTable hj,entryAt_congr hr'.2 hj]
  refine Ensures.ite (fun hown=>?_) (fun hown=>?_)
  · obtain ⟨hpr,-⟩ : isPresent (entryAt s.mem r j)=true ∧ isGlobal (entryAt s.mem r j)=false := by
      simpa [isOwned] using hown
    simp only [hown,if_true,wp_bind]
    apply hc.palloc_spec.ensures.imp
    rintro p w (⟨rfl,rfl,hlen⟩ | ⟨rest,hpf,hfr,hw,hz,hkp⟩)
    · -- nothing free: the entry maps page zero, whatever comes after
      obtain ⟨-,ha,hp,-⟩ := or_flags (e := entryAt s.mem r j) (p := physNull) rfl (by decide)
      rw [wp_writeEntry hdf.isTable hj]
      have htn := hc.clean.extends.tainted (tainted_setEntry (p := d) (i := j) (s := w) (hp.trans hpr) ha)
      have hout : RanOut s fl (used+1) _ := ⟨htn,hlen⟩
      exact (hout.grows (.copyEntryPage _ _ _) le_rfl).imp (fun _ _=>.inr)
    · have hdu := hc.owned.dirs dst hdst
      have hdw : pteGetPaddr (entryAt w.mem dst i)=d := by
        rw [entryAt_congr (hkp dst hdu.frame (by rw [hdu.isDir]; simp)) hi,hd]
      have hrw := entryAt_congr (hw.foreign hsf (by rw [hsr]; rfl) hne).2 hj
      have hrd : r≠d := ne_of_apply_ne role' (by simp [hr'.1,hsr,hdr,hne])
      have hdd : dst≠d := ne_of_apply_ne role' (by simp [hdu.isDir,hdr])
      have hpd : dst≠p := ne_of_apply_ne role' (by simp [hdu.isDir,hfr])
      have hdp : d≠p := ne_of_apply_ne role' (by simp [hdr,hfr])
      have hpb := hpf.bounds
      obtain ⟨he,ha,-,-⟩ := or_flags (e := entryAt s.mem r j) hpf.aligned (by omega)
      have hfl := pteGetFlags_or (e := entryAt s.mem r j) hpf.aligned
      generalize p ||| pteGetFlags (entryAt s.mem r j)=e at *
      have hfs : Fresh L (update role' p .held) (pteGetPaddr e) := by
        rw [ha]
        exact .inr ⟨hpf,update_self ..⟩
      obtain ⟨hx,hex⟩ := hw.owned.setPte hdst hi hj (hw.user hi hg) (by rwa [hdw]) he hfs
      rw [hdw] at hx hex
      have hcx := hw.clean.trans (clean_setEntry (s := w) (p := d) (i := j) (e := e)
        (fun hn=>hpf.ne_zero (ha.symm.trans hn.2)))
      obtain ⟨hrs,hidx,hent,hcn⟩ := blit_setEntry (w := w) (a := pteGetPaddr (entryAt s.mem r j))
        hdf hpf hdp hj he rfl
      have hse := entryAt_setEntry_self (s := w) (t := d) (i := j) he
      have hot := entryAt_setEntry_page (s := w) (e := e) hsf.aligned hdf.aligned hrd hj hj
      rw [wp_writeEntry hdf.isTable hj]
      generalize w.setEntry d j e=x at *
      have hrl : grant (update role' p .held) (pteGetPaddr e) (.page dst i j) p=.page dst i j := by
        rw [ha,grant_frame _ hpf,update_self]
      have hto : L.physOfW (L.vmMapWalk p)=some p := hpf.isTable.writable 0 (by decide)
      simp only [copyEntryPage,wp_bind,wp_readEntry hdf.isTable hj,hse,ha,
        wp_translateOrPanic hpf.isTable hx.kernelTables,wp_readEntry hsf.isTable hj,
        hot,hrw,wp_translateStatic hsl.readable.1 hx.kernelTables,
        wp_kmemcpy hto hsl.readable.2]
      have hout : ∀ y, blit x.mem p (bytes x.mem (pteGetPaddr (entryAt s.mem r j)) pageSize) y≠x.mem y →
          p≤y ∧ y<p+pageSize := fun y hy=>by
        by_contra hc
        exact hy (blit_outside (by rw [bytes_length]; omega))
      obtain ⟨hy,hey,-⟩ := hx.pageWrite (t := {x with mem := blit x.mem p (bytes x.mem
        (pteGetPaddr (entryAt s.mem r j)) pageSize)}) rfl rfl rfl
        (fun y hy=>.inr ⟨p,i,j,hpf,hrl,hout y hy⟩)
      have hsc : pteGetPaddr (entryAt s.mem r j)≠physNull →
          SameOn s.mem x.mem (pteGetPaddr (entryAt s.mem r j)) pageSize := fun h0=>by
        obtain ⟨hf,hr⟩ := hsl.resolve_left h0
        exact ((hw.effect.trans hex).foreign hf (by rw [hr]; rfl) (fun hc=>hne (Option.some.inj hc))).2
      refine .inl ⟨rest,_,⟨hy,(hw.effect.trans hex).trans hey,hcx.trans (.of_eq rfl),hw.count⟩,?_,
        ⟨fun q hq=>?_,fun q hq hro hqd y hy hy'=>?_,fun l hl hlj=>?_⟩,?_⟩
      · rw [entryAt_congr (hrs dst hdu.frame hdd hpd) hi,hdw]
      · by_cases hqp : q=p
        · simp_all
        · rwa [ha,grant_frame _ hpf,update_of_ne hqp,update_of_ne hqp]
      · have hqp : q≠p := fun hqp=>hro (hqp▸hfr)
        exact (hrs q hq hqd hqp y hy hy').trans (hkp q hq hro y hy hy')
      · rw [hidx l hl (by omega),entryAt_congr (hkp d hdf (by rw [hdr]; simp)) hl]
      · rw [PageCopied,if_pos hown,hent,ha]
        refine ⟨hpf.ne_zero,hfl,fun h0 o ho=>(hcn o ho).trans ?_⟩
        exact hsc h0 _ (by omega) (by omega)
  · rw [wp_pure]
    simp only [hown,if_false,add_zero,Bool.false_eq_true]
    refine .inl ⟨fl',role',hc,hd,⟨fun _ hq=>hq,fun _ _ _ _ _ _ _=>rfl,fun _ _ _=>rfl⟩,?_⟩
    rw [PageCopied,if_neg hown]

theorem duplicatePt_spec :
    Attempts L live dst s fl role (used+tableCost s.mem (pteGetPaddr (entryAt s.mem src i)) pdLength)
      (duplicatePt L d (pteGetPaddr (entryAt s.mem src i))) u
      (fun role'' w=>pteGetPaddr (entryAt w.mem dst i)=d ∧ Spares L role' role'' u.mem w.mem d 0 pdLength ∧
        TableCopied s.mem u.mem w.mem (pteGetPaddr (entryAt s.mem src i)) d pdLength) := by
  have hsf := (((h.dirs src hsrc).tables i hi hg).resolve_left hsne).1
  have hdf := (hc.table hdst hi hg hd hdne).1
  simp only [Attempts,duplicatePt,wp_bind,wp_translateOrPanic hdf.isTable hc.owned.kernelTables,
    wp_translateOrPanic hsf.isTable hc.owned.kernelTables]
  refine Attempts.forRange (f := fun k=>used+tableCost s.mem (pteGetPaddr (entryAt s.mem src i)) k)
    (Q := fun k role'' w=>pteGetPaddr (entryAt w.mem dst i)=d ∧ Spares L role' role'' u.mem w.mem d 0 k ∧
      TableCopied s.mem u.mem w.mem (pteGetPaddr (entryAt s.mem src i)) d k)
    (fun k=>by rw [tableCost_succ]; omega) (fun k=>.duplicateEntryPage _ _ _) hc
    ⟨hd,.refl _ _ _ _,fun _ hj=>absurd hj (not_lt_zero _)⟩ ?_
  rintro k w fl'' role'' hk hw ⟨hdw,hsp,hcp⟩
  rw [tableCost_succ,← add_assoc]
  refine (duplicateEntryPage_spec h hsrc hdst hne hi hg hsne hw hdw hdne hk).imp (fun _ x hx=>hx.imp_left ?_)
  rintro ⟨fl1,role1,hx,hdx,hsp',hpa⟩
  refine ⟨fl1,role1,hx,hdx,hsp.trans hsp',fun j hj=>?_⟩
  by_cases hjk : j=k
  · subst hjk
    rwa [← hsp.entries j hk (by omega)]
  · -- the entries copied before stay; the table is not one of its pages
    have hdr := (hw.table hdst hi hg hdw hdne).2
    refine (hcp.congr (fun l hl=>hsp'.entries l (by omega) (by omega)) (fun l hl hl0=>?_)) j (by omega)
    have hpg := (hw.owned.dirs dst hdst).spared_page (j := l) hsp' (fun _ _=>by rw [hdr]; simp) hi
      (hw.user hi hg) (hdw▸hdne) (by omega)
    rw [hdw] at hpg
    exact hpg hl0
end

end

theorem Owned.owned_entry (h : Owned L s fl live role) (hsrc : src ∈ live) (hi : i<pdLength)
    (hown : isOwned (entryAt s.mem src i)=true) :
    isPresent (entryAt s.mem src i)=true ∧ isGlobal (entryAt s.mem src i)=false ∧
      isGlobal (entryAt s.mem L.physKernelPd i)=false ∧
      pteGetPaddr (entryAt s.mem src i)≠physNull := by
  obtain ⟨hpr,hgl⟩ : isPresent (entryAt s.mem src i)=true ∧
      isGlobal (entryAt s.mem src i)=false := by simpa [isOwned] using hown
  have hdir := h.dirs src hsrc
  have hg : isGlobal (entryAt s.mem L.physKernelPd i)=false := by
    cases hg : isGlobal (entryAt s.mem L.physKernelPd i) with
    | true =>
      rw [hdir.shared i hi hg,hg] at hgl
      cases hgl
    | false => rfl
  exact ⟨hpr,hgl,hg,hdir.present i hi hg hpr⟩

section
variable (h : Owned L s fl live role) (hsrc : src ∈ live) (hdst : dst ∈ live) (hne : src≠dst)
include h hsrc hdst hne
theorem duplicateEntryTable_spec (hc : Copying L live dst s fl role used u fl' role') (hi : i<pdLength) :
    Attempts L live dst s fl role (used+if isOwned (entryAt s.mem src i) then
        1+tableCost s.mem (pteGetPaddr (entryAt s.mem src i)) pdLength else 0)
      (duplicateEntryTable L (L.vmMapWalk dst) (L.vmMapWalk src) i) u
      (fun role'' w=>Spares L role' role'' u.mem w.mem dst i (i+1) ∧
        DirEntryCopied s.mem u.mem w.mem src dst i) := by
  have hsd := h.dirs src hsrc
  have hsrcOwner : (role src).owner=some src := by rw [hsd.isDir]; rfl
  simp only [Attempts,duplicateEntryTable,wp_bind,wp_readEntry hsd.frame.isTable hi,
    entryAt_congr (hc.foreign hsd.frame hsrcOwner hne).2 hi]
  refine Ensures.ite (fun hown=>?_) (fun hown=>?_)
  · obtain ⟨hpr,hgl,hg,hsne⟩ := h.owned_entry hsrc hi hown
    simp only [hown,if_true,wp_bind]
    apply hc.palloc_spec.ensures.imp
    rintro p w (⟨rfl,rfl,hlen⟩ | ⟨rest,hpf,hfr,hw,hz,hkp⟩)
    · -- nothing free: the directory entry itself names page zero
      obtain ⟨-,ha,hp,-⟩ := or_flags (e := entryAt s.mem src i) (p := physNull) rfl (by decide)
      rw [wp_writeEntry (hc.owned.dirs dst hdst).frame.isTable hi]
      have htn := hc.clean.extends.tainted (tainted_setEntry (p := dst) (i := i) (s := w) (hp.trans hpr) ha)
      have hout : RanOut s fl (used+1) _ := ⟨htn,hlen⟩
      have hrs : Grows (do
          duplicatePt L (pdeGetPaddr (← readPtr L (L.vmMapWalk dst+4*i) 4))
            (pdeGetPaddr (← readPtr L (L.vmMapWalk src+4*i) 4))) :=
        .bind (.readPtr _ _) fun _=>.bind (.readPtr _ _) fun _=>.duplicatePt _ _
      have hend := hout.grows hrs (show used+1≤used+(1+tableCost s.mem
        (pteGetPaddr (entryAt s.mem src i)) pdLength) by omega)
      simp only [wp_bind] at hend
      exact hend.imp (fun _ _ hx=>hx.imp (fun _ _ hy=>hy.imp (fun _ _=>.inr)))
    · have hdu := hc.owned.dirs dst hdst
      have hdf : role' dst≠.free := by simp [hdu.isDir]
      have hpd := ne_of_apply_ne role' (hfr▸hdf)
      have hsw : entryAt w.mem src i=entryAt s.mem src i :=
        entryAt_congr (hw.foreign hsd.frame hsrcOwner hne).2 hi
      have hpb := hpf.bounds
      obtain ⟨he,ha,-,hgl'⟩ := or_flags (e := entryAt s.mem src i) hpf.aligned (by omega)
      have hfl := pteGetFlags_or (e := entryAt s.mem src i) hpf.aligned
      generalize p ||| pteGetFlags (entryAt s.mem src i)=e at *
      have hfs : Fresh L (update role' p .held) (pteGetPaddr e) := by
        rw [ha]
        exact .inr ⟨hpf,update_self ..⟩
      have hne0 := ha.symm▸hpf.ne_zero
      obtain ⟨hx,hex⟩ := hw.owned.setPde_new hdst hi (hw.user hi hg) he (hgl'.trans hgl) (fun _=>hne0) hfs
        (fun _ j hj=>by rw [ha]; exact entryAt_zeroed hz hj)
      have hcx := hw.clean.trans (clean_setEntry (s := w) (p := dst) (i := i) (e := e) (fun hn=>hne0 hn.2))
      have hsl := entryAt_setEntry_self (s := w) (t := dst) (i := i) he
      have hot := entryAt_setEntry_page (s := w) (e := e) hsd.frame.aligned hdu.frame.aligned hne hi hi
      have hrl : ∀ q, role' q≠.free → q≠p ∧ grant (update role' p .held)
          (pteGetPaddr e) (.table dst i) q=role' q := by
        intro q hq
        have hqp : q≠p := fun hqp=>hq (hqp▸hfr)
        rw [ha,grant_frame _ hpf,update_of_ne hqp,update_of_ne hqp]
        exact ⟨hqp,rfl⟩
      have hset : ∀ q, IsFrame L q → q≠dst → SameOn w.mem (w.setEntry dst i e).mem q pageSize := by
        intro q hq hqd x hx hx'
        refine not_not.mp (fun hc=>?_)
        have hap := hq.apart hdu.frame hqd
        have hin := setEntry_mem_ne hi hc
        omega
      have hidx : ∀ l, l≠i → entryAt (w.setEntry dst i e).mem dst l=entryAt w.mem dst l := fun l hl =>
        entryAt_setEntry_index hl
      rw [wp_writeEntry hdu.frame.isTable hi]
      generalize w.setEntry dst i e=x at *
      simp only [pdeGetPaddr,wp_readEntry hdu.frame.isTable hi,hsl,ha,
        wp_readEntry hsd.frame.isTable hi,hot,hsw]
      have hcp : Copying L live dst s fl role (used+1) x rest _ := ⟨hx,hw.effect.trans hex,hcx,hw.count⟩
      rw [← add_assoc]
      refine (duplicatePt_spec h hsrc hdst hne hi hg hsne hcp (hsl▸ha) hpf.ne_zero).imp
        (fun _ y hy=>hy.imp ?_ id)
      rintro ⟨fl1,role1,hy,-,hsp,htab⟩
      have hdy := hsp.same dst hdu.frame (by rwa [(hrl dst hdf).2]) hpd
      refine ⟨fl1,role1,hy,⟨fun q hq=>?_,fun q hq hqr hqd=>?_,fun l hl hli=>?_⟩,?_⟩
      · exact hsp.taken q (by rwa [(hrl q hq).2])
      · obtain ⟨hqp,hqx⟩ := hrl q hqr
        intro z hz hz'
        exact (hsp.same q hq (by rwa [hqx]) hqp z hz hz').trans
          ((hset q hq hqd z hz hz').trans (hkp q hq hqr z hz hz'))
      · rw [entryAt_congr hdy hl,hidx l (by omega),entryAt_congr (hkp dst hdu.frame hdf) hl]
      · rw [DirEntryCopied,if_pos hown,entryAt_congr hdy hi,hsl,ha]
        refine ⟨hpf.ne_zero,hfl,fun j hj=>?_⟩
        have hz' : entryAt x.mem p j=entryAt (fun _=>0) p j := by
          rw [entryAt_congr (hset p hpf hpd.symm) hj,entryAt_zeroed hz hj,entryAt_zeroed (fun _ _=>rfl) hj]
        rw [← hz']
        exact htab j hj
  · rw [wp_pure]
    simp only [hown,if_false,add_zero,Bool.false_eq_true]
    refine .inl ⟨fl',role',hc,⟨fun _ hq=>hq,fun _ _ _ _ _ _ _=>rfl,fun _ _ _=>rfl⟩,?_⟩
    rw [DirEntryCopied,if_neg hown]

theorem vmdup_spec : Attempts L live dst s fl role (dupCost s.mem src) (vmdup L dst src) s
    (fun role' t=>Spares L role role' s.mem t.mem dst 0 pdLength ∧
      ∀ i<pdLength, DirEntryCopied s.mem s.mem t.mem src dst i) := by
  have hsf := (h.dirs src hsrc).frame
  have hnk := hsf.ne_physKernelPd.symm
  simp only [Attempts,vmdup,wp_bind,wp_isUsingKernelPageTables,wp_kassert h.kernelTables,
    checkPallocLock_spec h.unlocked,wp_panicIf hnk,
    wp_translateOrPanic (h.dirs dst hdst).frame.isTable h.kernelTables,
    wp_translateOrPanic hsf.isTable h.kernelTables]
  refine Attempts.forRange (f := dirCost s.mem src) (Q := fun k role' w=>Spares L role role' s.mem w.mem dst 0 k ∧
      ∀ i<k, DirEntryCopied s.mem s.mem w.mem src dst i) (fun k=>by rw [dirCost_succ]; omega)
    (fun k=>.duplicateEntryTable _ _ _) ⟨h,.refl _ _ _,.of_eq rfl,rfl⟩
    ⟨.refl _ _ _ _,fun _ hj=>absurd hj (not_lt_zero _)⟩ ?_
  rintro k w fl' role' hk hw ⟨hsp,hcp⟩
  rw [dirCost_succ]
  refine (duplicateEntryTable_spec h hsrc hdst hne hw hk).imp (fun _ x hx=>hx.imp_left ?_)
  rintro ⟨fl1,role1,hx,hsp',hnew⟩
  refine ⟨fl1,role1,hx,hsp.trans hsp',fun l hl=>?_⟩
  by_cases hlk : l=k
  · subst hlk
    rw [DirEntryCopied] at hnew ⊢
    rwa [← hsp.entries l hk (by omega)]
  · have hll : l<pdLength := by omega
    have hdd := hw.owned.dirs dst hdst
    refine (hcp l (by omega)).congr (hsp'.entries l hll (by omega)) (fun hown hl0=>?_)
    obtain ⟨-,-,hg,-⟩ := h.owned_entry hsrc hll hown
    obtain ⟨hf,hr⟩ := hw.table hdst hll hg rfl hl0
    refine ⟨hsp'.same _ hf (by rw [hr]; simp) (ne_of_apply_ne role' (by simp [hr,hdd.isDir])),fun j hj =>
      hdd.spared_page hsp' (fun _ _=>by rw [hdd.isDir]; simp) hll (hw.user hll hg) hl0 hj⟩
end

end Yaos2.Memory
