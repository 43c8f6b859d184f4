import Yaos2.Memory.Ownership

/-! # The operations on address spaces

What each does to the roles, whose memory it touches, and whether it has mapped physical page zero. -/
namespace Yaos2.Memory
open Foundation Function Nat

variable {L : Layout} {s t : Machine} {fl live : List ℕ} {role : ℕ → Role} {pd p i v flags : ℕ}

theorem IsFrame.vmMapWalk (h : IsFrame L p) : L.vmMapWalk p=p := by
  have hb := h.bounds
  exact Layout.vmMapWalk_palloc (by omega) (by simp only [pageSize] at hb; omega)

theorem IsFrame.mask (h : IsFrame L p) : pteGetPaddr p=p := by
  have hb := h.bounds
  rw [pteGetPaddr_eq (by omega),maskToPage_of_aligned h.aligned]

theorem IsFrame.isGlobal (h : IsFrame L p) : isGlobal p=false := isGlobal_of_aligned h.aligned

theorem kernelPd_vmMapWalk : L.vmMapWalk L.physKernelPd=L.kernelPd := by
  have ho := L.order
  have he := physKernelPd_eq (L := L)
  rw [Layout.vmMapWalk_image (.inr ⟨by omega,by omega⟩)]
  omega

theorem wp_readKernelPde (hi : i<pdLength) :
    Ensures (readPtr L (L.kernelPd+4*i) 4) s Q E ↔ Q (entryAt s.mem L.physKernelPd i) s := by
  rw [← kernelPd_vmMapWalk]
  exact wp_readEntry physKernelPd_isTable hi

theorem wp_writeFrame (hp : IsFrame L p) (hi : i<pdLength) :
    Ensures (writeEntry L (p+4*i) e) s Q E ↔ Q () (s.setEntry p i e) := by
  nth_rewrite 1 [← hp.vmMapWalk]
  exact wp_writeEntry hp.isTable hi

theorem entryAt_zeroed (hz : ∀ o<pageSize, m (p+o)=0) (hi : i<pdLength) : entryAt m p i=0 := by
  refine load_zero (fun x hx hx'=>?_)
  obtain ⟨o,rfl⟩ := Nat.exists_eq_add_of_le (show p≤x by omega)
  apply hz o
  simp only [pdLength,pageSize] at *
  omega

theorem slot_zero (role : ℕ → Role) (r : Role) : Slot L role r 0 := .inl pteGetPaddr_zero

section

/-- The directory after `k` rounds of the copying loop. -/
private def Copied (s : Machine) (pd k : ℕ) (m : Mem) : Prop := ∀ i<pdLength, entryAt m pd i =
    if i<k ∧ isGlobal (entryAt s.mem L.physKernelPd i)=true then entryAt s.mem L.physKernelPd i
    else 0

theorem copyGlobalEntry_spec (h : Owned L t fl live role')
    (hf : IsFrame L p) (hp : role' p=.held) (hk : k<pdLength)
    (hker : SameOn s.mem t.mem L.physKernelPd pageSize) (hc : Copied (L := L) s p k t.mem) :
    Returns (copyGlobalEntry L p k) t (fun _ u=>Owned L u fl live role' ∧
      Effect L none role' role' t.mem u.mem ∧ Clean t u ∧ Copied (L := L) s p (k+1) u.mem) := by
  have hK := entryAt_congr hker hk
  simp only [copyGlobalEntry,wp_bind,wp_readKernelPde hk,hK]
  refine Ensures.ite (fun hg=>?_) (fun hg=>?_)
  · rw [wp_writeFrame hf hk]
    obtain ⟨hu,he⟩ : Owned L (t.setEntry p k (entryAt s.mem L.physKernelPd k)) fl live role' ∧
        Effect L none role' role' t.mem (t.setEntry p k (entryAt s.mem L.physKernelPd k)).mem :=
      h.setEntry hf hk (by rw [hp]; simp) (.inl (by rw [hp]; rfl)) (fun q hq=>absurd rfl hq)
        (fun pd _=>.inl (by simp))
    refine ⟨hu,he,clean_setEntry (fun hn=>?_),fun i hi=>?_⟩
    · exact (h.kernel.page hk).2.1 (hK▸hn.2)
    · by_cases hik : i=k
      · subst hik
        rw [entryAt_setEntry_self (entryAt_lt _ _ _),if_pos ⟨by omega,hg⟩]
      · rw [entryAt_setEntry_index hik,hc i hi]
        exact if_congr (and_congr_left' (by omega)) rfl rfl
  · rw [wp_pure]
    refine ⟨h,.refl _ _ _,.of_eq rfl,fun i hi=>?_⟩
    rw [hc i hi]
    refine if_congr (and_congr_left (fun hgi=>⟨by omega,fun hik=>?_⟩)) rfl rfl
    have hne : i≠k := fun he=>hg (he▸hgi)
    omega

private theorem Copied.dirOk (h : Copied (L := L) s pd pdLength m) (hf : IsFrame L pd)
    (hker : SameOn s.mem m L.physKernelPd pageSize) (hr : role pd=.dir pd) :
    DirOk L m role pd := by
  have hK : ∀ i<pdLength, entryAt m L.physKernelPd i=entryAt s.mem L.physKernelPd i :=
    fun i hi=>entryAt_congr hker hi
  have hnl : ∀ i<pdLength, isGlobal (entryAt m L.physKernelPd i)=false → entryAt m pd i=0 := by
    intro i hi hg
    rw [hK i hi] at hg
    simp [h i hi,hg]
  refine ⟨hf,hr,fun i hi hg=>?_,fun i hi hg=>?_,fun i hi hg hp=>?_,fun i hi hg=>?_,
    fun i hi hg hne=>?_⟩
  · rw [h i hi,hK i hi,if_pos ⟨hi,hK i hi▸hg⟩]
  · rw [hnl i hi hg,isGlobal_zero]
  · simp_all
  · rw [hnl i hi hg]
    exact slot_zero _ _
  · rw [hnl i hi hg] at hne
    exact absurd pteGetPaddr_zero hne

theorem checkPallocLock_spec (h : s.env.pallocLockHeld=false) : Ensures checkPallocLock s Q E ↔ Q () s := by
  simp only [checkPallocLock,wp_bind,wp_get]
  exact wp_panicIf (by rw [h]; exact Bool.false_ne_true)

theorem ptranslate_null : ptranslate L physNull=0 := by
  have hb := L.kmFreePhysBase_bounds
  have hn : ¬ isMappable L physNull=true := fun h=>by
    have := Layout.pallocRegion_containsP.mp h
    simp only [physNull] at this
    omega
  rw [ptranslate,if_neg hn]

theorem wp_kmemset_null : Ensures (kmemset L 0 0 n) s Q E ↔ E s := by
  simp [kmemset,Layout.physOfW_null (L := L) (v := 0) (by decide),pageFault]

theorem pagingAllocDir_spec (h : Owned L s fl live role) : Ensures (pagingAllocDir L) s
      (fun pd t=>∃ rest role', fl=pd::rest ∧ Owned L t rest (pd::live) role' ∧
        Effect L none role role' s.mem t.mem ∧ Clean s t ∧
        ∀ i<pdLength, isGlobal (entryAt s.mem L.physKernelPd i)=false → entryAt t.mem pd i=0)
      (fun t=>fl=[] ∧ Clean s t) := by
  simp only [pagingAllocDir,wp_bind,wp_isUsingKernelPageTables,
    wp_kassert h.kernelTables,checkPallocLock_spec h.unlocked,
    wp_kassert (show (pdLength*4 == pageSize)=true by decide)]
  apply (palloc_owned h).ensures.imp
  rintro p t (⟨hfl,rfl,rfl⟩ | ⟨rest,hfl,ht,he,hf,⟨henv,htr⟩,hz,-⟩)
  · rw [ptranslate_null,wp_kmemset_null]
    exact ⟨hfl,.of_eq rfl⟩
  have hw : L.physOfW p=some p := hf.physOfW (o := 0) (by decide)
  have hzr : fill t.mem p (pdLength*4) 0=t.mem := fill_zero_of_zero hz (by decide)
  have hsm := he.kernelPd
  have hlp : Returns (forRange pdLength (copyGlobalEntry L p)) t (fun _ u =>
      Owned L u rest live (update role p .held) ∧
        Effect L none role (update role p .held) s.mem u.mem ∧ Clean s u ∧
        Copied (L := L) s p pdLength u.mem) := by
    refine Ensures.forRange (I := fun k u=>Owned L u rest live (update role p .held) ∧
        Effect L none role (update role p .held) s.mem u.mem ∧ Clean s u ∧
        Copied (L := L) s p k u.mem) ⟨ht,he,.of_eq htr,fun i hi=>?_⟩ ?_
    · simpa [not_lt_zero,false_and,if_false] using entryAt_zeroed hz hi
    · rintro k u hk ⟨hu,heu,hcu,hcop⟩
      apply (copyGlobalEntry_spec hu hf (update_self ..) hk heu.kernelPd hcop).imp
      rintro - w ⟨hw,hew,hcw,hcop'⟩
      exact ⟨hw,heu.trans hew,hcu.trans hcw,hcop'⟩
  rw [hf.ptranslate,wp_kmemset hw,hzr]
  apply hlp.ensures.imp
  rintro - u ⟨hu,heu,hcu,hcop⟩
  have hrl : (update role p Role.held) p=.held := update_self ..
  have hgr := Effect.grant (L := L) (m := u.mem)
    (show ((update role p Role.held) p).owner=none by rw [hrl]; rfl) (.dir p)
  rw [wp_pure]
  refine ⟨rest,_,hfl,hu.of_effect hgr rfl hu.list (fun q hq=>?_) (fun pd hpd=>?_),
    heu.trans hgr,hcu,fun i hi hg=>?_⟩
  · have hqp : q≠p := fun hqp=>hu.not_mem (by rw [hrl]; simp) (hqp▸hq)
    rw [update_of_ne hqp]
    exact hu.free q hq
  · by_cases hpp : pd=p
    · subst hpp
      exact .inr (hcop.dirOk hf heu.kernelPd (update_self ..))
    · exact .inl ⟨by simp,(List.mem_cons.mp hpd).resolve_left hpp⟩
  · simp [hcop i hi,hg]
end

section
variable {who : Option ℕ} {j e : ℕ}

theorem or_present_lt (hf : flags<pageSize) : flags ||| pageBitPresent<pageSize :=
  or_lt_pageSize hf (by decide)

theorem pteGetPaddr_or (he : e<2^32) (hf : f<pageSize) :
    e ||| f<2^32 ∧ pteGetPaddr (e ||| f)=pteGetPaddr e := by
  have hlt := or_lt_two_pow he (hf.trans (by decide))
  exact ⟨hlt,by rw [pteGetPaddr_eq hlt,pteGetPaddr_eq he,maskToPage_or_flags hf]⟩

theorem setEntry_sameOn {q t : ℕ} (hq : q%pageSize=0) (ht : t%pageSize=0) (hne : q≠t)
    (hi : i<pdLength) : SameOn s.mem (s.setEntry t i e).mem q pageSize := by
  intro x hx hx'
  by_contra hc
  have hin := setEntry_mem_ne hi hc
  simp only [pageSize] at *
  omega

theorem ensureTable_spec (h : Owned L s fl live role) (hpd : pd ∈ live) (hi : i<pdLength)
    (hg : isGlobal (entryAt s.mem L.physKernelPd i)=false) :
    Ensures (ensureTable L (L.vmMapWalk pd+4*i)) s
      (fun _ t=>∃ role', Owned L t
          (if pteGetPaddr (entryAt s.mem pd i)=physNull then fl.tail else fl) live role' ∧
        Effect L (some pd) role role' s.mem t.mem ∧ Clean s t ∧
        pteGetPaddr (entryAt t.mem pd i)≠physNull ∧ (∀ q, role q≠.free → role' q=role q) ∧
        (pteGetPaddr (entryAt s.mem pd i)=physNull → fl≠[]) ∧
        (∀ w<2^32, walk t.mem pd w=walk s.mem pd w) ∧
        (∀ k<pdLength, k≠i → entryAt t.mem pd k=entryAt s.mem pd k) ∧
        ∀ q, IsFrame L q → role q≠.free → q≠pd → SameOn s.mem t.mem q pageSize)
      (fun t=>Clean s t ∧ pteGetPaddr (entryAt s.mem pd i)=physNull ∧ fl=[]) := by
  have hdir := h.dirs pd hpd
  have hpt := hdir.frame.isTable
  simp only [ensureTable,pdeGetPaddr,wp_bind,wp_readEntry hpt hi]
  refine Ensures.ite (fun hnl=>?_) (fun hnl=>?_)
  · simp only [hnl,if_true,wp_bind,wp_kassert (show (ptLength*4 == pageSize)=true by decide)]
    apply (palloc_owned h).ensures.imp
    rintro q t (⟨hfl,rfl,rfl⟩ | ⟨rest,rfl,ht,he,hf,⟨henv,htr⟩,hz,hm⟩)
    · rw [ptranslate_null,wp_kmemset_null]
      exact ⟨.of_eq rfl,trivial,hfl⟩
    have hw : L.physOfW q=some q := hf.physOfW (o := 0) (by decide)
    have hzr : fill t.mem q (ptLength*4) 0=t.mem := fill_zero_of_zero hz (by decide)
    have hb := hf.bounds
    have hcn : pdeConstruct q 0=q := by
      rw [pdeConstruct,pteConstruct_eq (by omega),maskToPage_of_aligned hf.aligned]
      rfl
    have hfr : Fresh L (update role q .held) (pteGetPaddr q) := by
      rw [hf.mask]
      exact .inr ⟨hf,update_self ..⟩
    rw [hf.ptranslate,wp_kmemset hw,hzr,hcn,wp_writeEntry hpt hi]
    obtain ⟨hu,heu⟩ := ht.setPde_new hpd hi (by rwa [entryAt_congr he.kernelPd hi]) (by omega)
      hf.isGlobal (fun _=>hf.mask.symm▸hf.ne_zero) hfr (fun _ j hj=>by rw [hf.mask,entryAt_zeroed hz hj])
    have hsm := (he.foreign hdir.frame (by rw [hdir.isDir]; rfl) (by simp)).2
    have hpdq : q≠pd := fun hc=>by
      have hr := hdir.isDir
      rw [← hc,h.free q (by simp)] at hr
      cases hr
    refine ⟨_,hu,he.of_none.trans heu,?_,?_,fun p hp=>?_,fun _=>List.cons_ne_nil _ _,
      fun w hw=>?_,fun k hk hki=>?_,fun p hp hpr hppd x hx hx'=>?_⟩
    · refine (Clean.of_eq htr).trans (clean_setEntry (fun hn=>hf.ne_zero ?_))
      rw [← hf.mask,hn.2]
      rfl
    · rw [entryAt_setEntry_self (by omega),hf.mask]
      exact hf.ne_zero
    · have hpq : p≠q := fun hpq=>hp (hpq▸h.free q (by simp))
      rw [hf.mask,grant_frame _ hf,update_of_ne hpq,update_of_ne hpq]
    · refine ((ht.dirs pd hpd).walk_setPde ht.kernel hi (by omega) (hf.mask.symm▸hpdq) hw ?_).trans
        (hdir.walk_of_effect h.kernel he (by simp) hw)
      -- the empty table answers as the null entry did
      intro hidx
      rw [hf.mask,if_neg (show q≠physNull from hf.ne_zero),entryAt_zeroed hz (getPtIndex_lt _),walk,hidx,
        entryAt_congr hsm hi,if_pos hnl]
      rfl
    · rw [entryAt_setEntry_index hki,entryAt_congr hsm hk]
    · have hms := maskToPage_eq hp.aligned hx hx'
      refine (setEntry_sameOn hp.aligned hdir.frame.aligned hppd hi x hx hx').trans (hm x (fun hin=>hpr ?_))
      exact h.free p (hms▸hin)
  · rw [if_neg hnl,wp_pure]
    exact ⟨role,h,.refl _ _ _,.of_eq rfl,hnl,fun _ _=>rfl,fun hc=>absurd hc hnl,
      fun _ _=>rfl,fun _ _ _=>rfl,fun _ _ _ _ _ _ _=>rfl⟩

theorem Fresh.aligned (h : Fresh L role p) : p%pageSize=0 ∧ p<2^32 := by
  rcases h with rfl | ⟨hf,-⟩
  · exact ⟨rfl,by decide⟩
  · have hb := hf.bounds
    exact ⟨hf.aligned,by omega⟩

theorem pteConstruct_frame (hp : p%pageSize=0) (hlt : p<2^32) (hf : f<pageSize) :
    pteConstruct p f=p+f ∧ pteConstruct p f<2^32 ∧ pteGetPaddr (pteConstruct p f)=p := by
  have hc : pteConstruct p f=p+f := by rw [pteConstruct_eq hlt,maskToPage_of_aligned hp,mod_eq_of_lt hf]
  have hb : p+f<2^32 := by
    simp only [pageSize] at *
    omega
  refine ⟨hc,hc▸hb,?_⟩
  rw [hc,pteGetPaddr_eq hb,maskToPage_add hp hf]

theorem isPresent_or_present (f : ℕ) : (f ||| pageBitPresent).testBit 0=true := by
  rw [testBit_or]
  exact Bool.or_true _

theorem writeMapping_spec (h : Owned L s fl live role) (hpd : pd ∈ live) (hi : i<pdLength)
    (hg : isGlobal (entryAt s.mem L.physKernelPd i)=false)
    (hne : pteGetPaddr (entryAt s.mem pd i)≠physNull) (hfl : flags<pageSize)
    (hgf : isGlobal flags=false) (hp : Fresh L role p) :
    Returns (writeMapping L (L.vmMapWalk pd+4*i) v p flags) s (fun _ t=>∃ role',
      Owned L t fl live role' ∧ Effect L (some pd) role role' s.mem t.mem ∧
        pteGetPaddr (entryAt t.mem pd i)≠physNull ∧
        entryAt t.mem (pteGetPaddr (entryAt t.mem pd i)) (getPtIndex v) =
          pteConstruct p (flags ||| pageBitPresent) ∧
        (p=physNull → Tainted s t) ∧ (p≠physNull → Clean s t) ∧
        (∀ w<2^32, ¬ (getPdIndex (maskToPage w)=i ∧ getPtIndex (maskToPage w)=getPtIndex v) →
          walk t.mem pd w=walk s.mem pd w) ∧
        (∀ k<pdLength, k≠i → entryAt t.mem pd k=entryAt s.mem pd k) ∧
        (∀ b, (flags ||| pageBitPresent).testBit b=true → (entryAt t.mem pd i).testBit b=true) ∧
        ∀ q, IsFrame L q → q≠pd → role q≠.table pd i → SameOn s.mem t.mem q pageSize) := by
  have hdir := h.dirs pd hpd
  have hpt := hdir.frame.isTable
  have hf := or_present_lt hfl
  have hgf' : isGlobal (flags ||| pageBitPresent)=false := isGlobal_or hgf (by decide)
  obtain ⟨he1,ha1⟩ := pteGetPaddr_or (entryAt_lt s.mem pd i) hf
  obtain ⟨hu,heu⟩ := h.setPde_flags hpd hi hg he1 (isGlobal_or (hdir.own i hi hg) hgf')
    (fun _=>ha1.symm▸hne) ha1
  have hsl := entryAt_setEntry_self (s := s) (t := pd) (i := i) he1
  have hcu : Clean s (s.setEntry pd i (entryAt s.mem pd i ||| (flags ||| pageBitPresent))) :=
    clean_setEntry (fun hn=>hne (ha1▸hn.2))
  have hidx : ∀ k, k≠i → entryAt (s.setEntry pd i (entryAt s.mem pd i ||| (flags ||| pageBitPresent))).mem
      pd k=entryAt s.mem pd k := fun k hk=>entryAt_setEntry_index hk
  have hwl : ∀ w<2^32, walk (s.setEntry pd i (entryAt s.mem pd i ||| (flags ||| pageBitPresent))).mem
      pd w=walk s.mem pd w := by
    refine fun w hw=>hdir.walk_setPde h.kernel hi he1 ?_ hw (fun hc=>?_)
    · rw [ha1]
      exact hdir.table_ne_dir h.kernel hi hne
    · rw [ha1,walk,hc]
  generalize hus : s.setEntry pd i (entryAt s.mem pd i ||| (flags ||| pageBitPresent))=u at *
  have hne' : pteGetPaddr (entryAt u.mem pd i)≠physNull := by rwa [hsl,ha1]
  have hg' : isGlobal (entryAt u.mem L.physKernelPd i)=false := by rwa [entryAt_congr heu.kernelPd hi]
  obtain ⟨htf,htr⟩ := ((hu.dirs pd hpd).tables i hi hg').resolve_left hne'
  have htab := htf.isTable
  have hpdt : pd≠pteGetPaddr (entryAt u.mem pd i) := fun hc=>by
    rw [← hc,(hu.dirs pd hpd).isDir] at htr
    cases htr
  obtain ⟨hal,hlt⟩ := hp.aligned
  obtain ⟨hc2,he2,ha2⟩ := pteConstruct_frame hal hlt hf
  obtain ⟨hw,hew⟩ := hu.setPte hpd hi (getPtIndex_lt v) hg' hne' he2 (ha2.symm▸hp)
  simp only [writeMapping,pdeGetPaddr,wp_bind,wp_readEntry hpt hi,
    wp_writeEntry hpt hi,hus,wp_translateOrPanic htab hu.kernelTables,
    wp_writeEntry htab (getPtIndex_lt v)]
  have hpde := fun k (hk : k<pdLength)=>entryAt_setEntry_page (s := u)
    (e := pteConstruct p (flags ||| pageBitPresent)) hdir.frame.aligned htf.aligned hpdt (getPtIndex_lt v) hk
  refine ⟨_,hw,heu.trans hew,?_,?_,fun h0=>?_,fun h0=>?_,fun w hlt hot=>?_,
    fun k hk hki=>?_,fun b hb=>?_,fun q hq hqpd hqr x hx hx'=>?_⟩
  · rwa [hpde i hi]
  · rw [hpde i hi,entryAt_setEntry_self he2]
  · obtain ⟨evs,hevs,-⟩ := hcu
    refine (tainted_setEntry ?_ (ha2.trans h0)).of_append hevs
    rw [hc2,isPresent_eq,testBit_frame_add hal hf (by decide)]
    exact isPresent_or_present flags
  · exact hcu.trans (clean_setEntry (fun hn=>h0 (ha2.symm.trans hn.2)))
  · exact ((hu.dirs pd hpd).walk_setPte hu.kernel hi (getPtIndex_lt v) hg' hne' hlt hot).trans
      (hwl w hlt)
  · rw [hpde k hk,hidx k hki]
  · rw [hpde i hi,hsl,testBit_or,hb,Bool.or_true]
  · have hqt : q≠pteGetPaddr (entryAt u.mem pd i) := fun hc=>hqr (hc▸htr)
    apply (setEntry_sameOn hq.aligned htf.aligned hqt (getPtIndex_lt v) x hx hx').trans
    rw [← hus]
    exact setEntry_sameOn hq.aligned hdir.frame.aligned hqpd hi x hx hx'

theorem maskToPage_of_indices (hi : getPdIndex (maskToPage w)=getPdIndex (maskToPage v))
    (hj : getPtIndex (maskToPage w)=getPtIndex (maskToPage v)) : maskToPage w=maskToPage v := by
  have hw := maskToPage_mod w
  have hv := maskToPage_mod v
  have hmod : ∀ x, getPtIndex x=x/4096%1024 := fun x=>by
    rw [getPtIndex,shiftRight_eq_div_pow]
    exact and_two_pow_sub_one_eq_mod _ 10
  rw [getPdIndex,getPdIndex,shiftRight_eq_div_pow,shiftRight_eq_div_pow] at hi
  rw [hmod,hmod] at hj
  simp only [pageSize] at hw hv
  omega

abbrev pdeOf (s : Machine) (pd v : ℕ) : ℕ := entryAt s.mem pd (getPdIndex (maskToPage v))

theorem pagingMap_spec (h : Owned L s fl live role) (hpd : pd ∈ live) (hv : v<2^32)
    (hfl : flags<pageSize) (hp : Fresh L role p) :
    Ensures (pagingMap L pd v p flags) s
      (fun _ t=>isGlobal flags=false ∧ isGlobal (pdeOf s pd v)=false ∧
        (pteGetPaddr (pdeOf s pd v)=physNull → fl≠[]) ∧ ∃ role',
        Owned L t (if pteGetPaddr (pdeOf s pd v)=physNull then fl.tail else fl) live role' ∧
        Effect L (some pd) role role' s.mem t.mem ∧
        walk t.mem pd v=pteConstruct p (flags ||| pageBitPresent) ∧
        (p=physNull → Tainted s t) ∧ (p≠physNull → Clean s t) ∧
        (∀ w<2^32, maskToPage w≠maskToPage v → walk t.mem pd w=walk s.mem pd w) ∧
        (∀ k<pdLength, k≠getPdIndex (maskToPage v) → entryAt t.mem pd k=entryAt s.mem pd k) ∧
        (∀ b, (flags ||| pageBitPresent).testBit b=true → (pdeOf t pd v).testBit b=true) ∧
        ∀ q, IsFrame L q → role q≠.free → q≠pd → role q≠.table pd (getPdIndex (maskToPage v)) →
          SameOn s.mem t.mem q pageSize)
      (fun t=>Clean s t ∧ (isGlobal flags=true ∨ isGlobal (pdeOf s pd v)=true ∨
        pteGetPaddr (pdeOf s pd v)=physNull ∧ fl=[])) := by
  have hdir := h.dirs pd hpd
  have hpt := hdir.frame.isTable
  have hi := getPdIndex_lt hv
  have hne := hdir.frame.ne_physKernelPd.symm
  simp only [pagingMap,wp_bind]
  cases hgf : isGlobal flags with
  | true =>
    rw [wp_panicIf_true ⟨rfl,hne⟩]
    exact ⟨.of_eq rfl,.inl rfl⟩
  | false =>
    rw [wp_panicIf (by simp)]
    simp only [checkPallocLock_spec h.unlocked,wp_isUsingKernelPageTables,
      wp_kassert h.kernelTables,wp_translateOrPanic hpt h.kernelTables,
      wp_readEntry hpt hi]
    cases hgp : isGlobal (pdeOf s pd v) with
    | true =>
      rw [wp_panicIf_true ⟨rfl,hne⟩]
      exact ⟨.of_eq rfl,.inr (.inl rfl)⟩
    | false =>
      rw [wp_panicIf (fun hc=>Bool.false_ne_true hc.1)]
      have hg := hdir.kernel_not_global hi hgp
      refine (ensureTable_spec h hpd hi hg).mono ?_ (fun t ht=>⟨ht.1,.inr (.inr ht.2)⟩)
      rintro - t ⟨role',ht,he,hc,hnl,hkp,hrm,hwl,hps,hrs⟩
      have hp' : Fresh L role' p := hp.imp id (fun hnew =>
        ⟨hnew.1,(hkp p (by rw [hnew.2]; simp)).trans hnew.2⟩)
      refine (writeMapping_spec ht hpd hi (by rwa [entryAt_congr he.kernelPd hi]) hnl hfl hgf
        hp').ensures.imp ?_
      rintro - u ⟨role'',hu,heu,hpde,hpte,htn,hcl,hwl',hps',hfg,hrs'⟩
      refine ⟨trivial,rfl,hrm,role'',hu,he.trans heu,(if_neg hpde).trans hpte,fun h0=>?_,
        fun h0=>hc.trans (hcl h0),fun w hw hne=>?_,fun k hk hki=>?_,hfg,
        fun q hq hqr hqpd hqt x hx hx'=>?_⟩
      · obtain ⟨evs,hevs,-⟩ := hc
        exact (htn h0).of_append hevs
      · exact (hwl' w hw (fun hc=>hne (maskToPage_of_indices hc.1 hc.2))).trans (hwl w hw)
      · exact (hps' k hk hki).trans (hps k hk hki)
      · exact (hrs' q hq hqpd (hkp q hqr▸hqt) x hx hx').trans (hrs q hq hqr hqpd x hx hx')
end

section
variable {e : ℕ}

theorem Owned.kernelWrite (h : Owned L s fl live role) (henv : t.env=s.env)
    (hfs : t.firstFreePage=s.firstFreePage) (hrem : t.remainingPages=s.remainingPages)
    (hm : ∀ x, t.mem x≠s.mem x → L.physKernelPd+pageSize≤x ∧ x<L.kmFreePhysBase)
    (hs : Supervisor L t.mem) : Owned L t fl live role := by
  have hpd : SameOn s.mem t.mem L.physKernelPd pageSize := fun x hx hx' =>
    not_not.mp (fun hc=>by have := hm x hc; omega)
  have hfr : ∀ p, IsFrame L p → SameOn s.mem t.mem p pageSize := fun p hp x hx hx' =>
    not_not.mp (fun hc=>by have := hm x hc; have := hp.bounds; omega)
  refine ⟨henv▸h.kernelTables,henv▸h.unlocked,h.kernel.of_tables hpd hs,?_,h.free,fun pd hin=>?_⟩
  · refine h.list.congr hfs hrem (fun x hx=>?_)
    have hin := not_not.mp hx
    exact hfr _ (h.list.frame _ hin) x (maskToPage_le x) (lt_maskToPage_add x)
  · exact (h.dirs pd hin).congr hpd (fun p hp _=>hfr p hp) (fun _ _ _=>rfl)

theorem setEntry_self_mem (s : Machine) (q k : ℕ) : (s.setEntry q k (entryAt s.mem q k)).mem=s.mem :=
  store_load_self s.mem (q+4*k) 4

theorem getPdIndex_dynamic (hv' : v<0xFE000000) : getPdIndex (maskToPage v)<pdLength-1 := by
  have hm := maskToPage_le v
  rw [getPdIndex,shiftRight_eq_div_pow]
  simp only [pdLength,pageSize]
  omega

theorem wp_panicIf_and_ne [Decidable (a ∧ x≠x)] : Ensures (panicIf (a ∧ x≠x) r) s Q E ↔ Q () s :=
  wp_panicIf (fun h=>h.2 rfl)

theorem KernelTables.walk_eq (h : KernelTables L m) (hv' : v<0xFE000000) :
    walk m L.physKernelPd v=entryAt m (L.physPageTables+pageSize*getPdIndex (maskToPage v))
      (getPtIndex (maskToPage v)) := by
  have hlt := getPdIndex_dynamic hv'
  have hi : getPdIndex (maskToPage v)<pdLength := by omega
  have ha := (h.paddr _ hi).trans (if_neg (by omega))
  have hne := ha▸(h.page hi).2.1
  simp only [walk,ha,if_neg hne]

section
variable (h : Owned L s fl live role) (hv : L.memBreak≤v) (hv' : v<0xFE000000) (hp : p<2^32)
include h hv hv' hp
theorem pagingMap_kernel_spec :
    Returns (pagingMap L L.physKernelPd v p (pageBitRw ||| pageBitGlobal)) s (fun _ t =>
      t.env=s.env ∧ Owned L t fl live role ∧
      (∀ x, t.mem x≠s.mem x → L.physKernelPd+pageSize≤x ∧ x<L.kmFreePhysBase) ∧
      (∀ w<0xFE000000, maskToPage w=maskToPage v ∨ isPresent (walk s.mem L.physKernelPd w)=true →
        isPresent (walk t.mem L.physKernelPd w)=true) ∧
      (pteGetPaddr p=physNull → Tainted s t) ∧ (pteGetPaddr p≠physNull → Clean s t)) := by
  have hlt := getPdIndex_dynamic hv'
  have hi : getPdIndex (maskToPage v)<pdLength := by omega
  have hj := getPtIndex_lt (maskToPage v)
  generalize hidx : getPdIndex (maskToPage v)=i at *
  have hkt := physKernelPd_isTable (L := L)
  have had := (h.kernel.paddr i hi).trans (if_neg (by omega))
  have htab := kernelTable_isTable (L := L) hi
  have hdyn := hidx▸h.kernel.dynamic v hv hv'
  have hnl := (h.kernel.page hi).2.1
  -- the directory entry is written back unchanged
  have hmem := setEntry_self_mem s L.physKernelPd i
  have henv := setEntry_env (s := s) (t := L.physKernelPd) (i := i) (e := entryAt s.mem L.physKernelPd i)
  have hcl : Clean s (s.setEntry L.physKernelPd i (entryAt s.mem L.physKernelPd i)) :=
    clean_setEntry (fun hn=>hnl hn.2)
  have hown := h.kernelWrite henv setEntry_first setEntry_remaining
    (fun x hx=>absurd (congrFun hmem x) hx) (by rw [hmem]; exact h.kernel.supervisor)
  simp only [pagingMap,ensureTable,writeMapping,pdeGetPaddr,wp_bind,wp_panicIf_and_ne,
    checkPallocLock_spec h.unlocked,wp_isUsingKernelPageTables,wp_kassert h.kernelTables,
    wp_translateOrPanic hkt h.kernelTables,hidx,wp_readEntry hkt hi,hnl,if_false,
    wp_pure,wp_writeEntry hkt hi,hdyn]
  generalize s.setEntry L.physKernelPd i (entryAt s.mem L.physKernelPd i)=u at *
  simp only [hmem,had,wp_translateOrPanic htab hown.kernelTables,wp_writeEntry htab hj]
  have hin : ∀ x, (u.setEntry (L.physPageTables+pageSize*i) (getPtIndex (maskToPage v))
      (pteConstruct p (pageBitRw ||| pageBitGlobal ||| pageBitPresent))).mem x≠u.mem x →
      L.physKernelPd+pageSize≤x ∧ x<L.kmFreePhysBase := by
    intro x hx
    have hx' := setEntry_mem_ne hj hx
    have ht := physPageTables_eq (L := L)
    have hb := physKernelPd_bounds (L := L)
    simp only [pdLength,pageSize] at *
    omega
  have hm : maskToPage p+(pageBitRw ||| pageBitGlobal ||| pageBitPresent)%pageSize<2^32 := by
    have hle := maskToPage_mod p
    have hle' := maskToPage_le p
    have hf : (pageBitRw ||| pageBitGlobal ||| pageBitPresent)%pageSize<pageSize := by decide
    simp only [pageSize] at *
    omega
  have ha : pteGetPaddr (pteConstruct p (pageBitRw ||| pageBitGlobal ||| pageBitPresent)) =
      pteGetPaddr p := by
    rw [pteConstruct_eq hp,pteGetPaddr_eq hm,pteGetPaddr_eq hp,maskToPage_add (maskToPage_mod p) (by decide)]
  have hsup := hown.kernel.supervisor.setTableEntry (i := i) (j := getPtIndex (maskToPage v))
    (pteConstruct_lt p _) ((isUser_pteConstruct p (pageBitRw ||| pageBitGlobal ||| pageBitPresent)).trans
      (by decide))
  have hown' := hown.kernelWrite setEntry_env setEntry_first setEntry_remaining hin hsup
  have hpr : isPresent (pteConstruct p (pageBitRw ||| pageBitGlobal ||| pageBitPresent))=true := by
    rw [pteConstruct_eq hp,isPresent_eq,testBit_frame_add (maskToPage_mod p) (by decide) (by decide)]
    decide
  refine ⟨setEntry_env.trans henv,hown',fun x hx=>hin x (hmem▸hx),fun w hw hmap=>?_,
    fun h0=>?_,fun h0=>?_⟩
  · have hiw := getPdIndex_dynamic hw
    rw [hown'.kernel.walk_eq hw]
    by_cases hsm : getPdIndex (maskToPage w)=i ∧ getPtIndex (maskToPage w)=getPtIndex (maskToPage v)
    · rwa [hsm.1,hsm.2,entryAt_setEntry_self (pteConstruct_lt p _)]
    · have hold : isPresent (walk u.mem L.physKernelPd w)=true := by
        rw [hmem]
        refine hmap.resolve_left (fun hc=>hsm ?_)
        rw [hc]
        exact ⟨hidx,rfl⟩
      rw [hown.kernel.walk_eq hw] at hold
      have hjw := getPtIndex_lt (maskToPage w)
      rw [entryAt_setEntry_ne]
      · exact hold
      · generalize getPdIndex (maskToPage w)=iw at *
        generalize getPtIndex (maskToPage w)=jw at *
        generalize getPtIndex (maskToPage v)=j at *
        simp only [pdLength,pageSize] at *
        omega
  · obtain ⟨evs,hevs,-⟩ := hcl
    exact (tainted_setEntry hpr (ha.trans h0)).of_append hevs
  · exact hcl.trans (clean_setEntry (fun hn=>h0 (ha.symm.trans hn.2)))

theorem kpMap_spec : Returns (kpMap L v p) s (fun _ t=>t.env=s.env ∧ Owned L t fl live role ∧
      (∀ x, t.mem x≠s.mem x → L.physKernelPd+pageSize≤x ∧ x<L.kmFreePhysBase) ∧
      (∀ w<0xFE000000, maskToPage w=maskToPage v ∨ isPresent (walk s.mem L.physKernelPd w)=true →
        isPresent (walk t.mem L.physKernelPd w)=true) ∧
      (pteGetPaddr p=physNull → Tainted s t) ∧ (pteGetPaddr p≠physNull → Clean s t)) := by
  have hcr3 := eq_of_beq h.kernelTables
  simp only [kpMap,wp_bind,wp_cpuSetCr3,Layout.vmGetPflags_dynamic hv hv',setCr3_self hcr3,wp_pure]
  refine (pagingMap_kernel_spec h hv hv' hp).imp (fun _ t ht=>?_)
  rwa [setCr3_self (by rw [ht.1])]
end

end

end Yaos2.Memory
