import Yaos2.Memory.Duplicate
import Yaos2.Memory.EarlyPaging
import Yaos2.Memory.Teardown

/-! # Coherence and isolation of the address spaces

The entries of the kernel's part are copied once, when a directory is created. -/
namespace Yaos2.Memory
open Foundation Function List

/-- The machine, the user directories in use, and the frames the kernel has taken for later use. -/
structure Spaces where
  machine : Machine
  live : List ℕ
  held : List ℕ

inductive SpaceOp where
  | palloc
  | kpMap (v p : ℕ)
  | allocDir (pd : ℕ)
  | map (pd v p flags : ℕ)
  | dup (dst src : ℕ)
  | freeDir (pd : ℕ)
  | user (pd : ℕ)

def SpaceOp.space : SpaceOp → Option ℕ
  | .palloc => none
  | .kpMap _ _ => none
  | .allocDir pd => some pd
  | .map pd _ _ _ => some pd
  | .dup dst _ => some dst
  | .freeDir pd => some pd
  | .user pd => some pd

variable (L : Layout)

/-- One operation. A directory is duplicated only while there are frames for the whole of it. -/
inductive SpaceStep : Spaces → SpaceOp → Spaces → Prop
  | palloc {s t : Machine} {live held : List ℕ} {p : ℕ} : palloc L s=.ok p t → p≠physNull →
      SpaceStep ⟨s,live,held⟩ .palloc ⟨t,live,p::held⟩
  | kpMap {s t : Machine} {live held : List ℕ} {v p : ℕ} : L.dynamicRegion.containsV v=true →
      p<2^32 → kpMap L v p s=.ok () t →
      SpaceStep ⟨s,live,held⟩ (.kpMap v p) ⟨t,live,held⟩
  | allocDir {s t : Machine} {live held : List ℕ} {pd : ℕ} : pagingAllocDir L s=.ok pd t →
      SpaceStep ⟨s,live,held⟩ (.allocDir pd) ⟨t,pd::live,held⟩
  | map {s t : Machine} {live held : List ℕ} {pd v p flags : ℕ} : pd ∈ live → p ∈ held →
      v<2^32 → flags<pageSize → isGlobal flags=false →
      pagingMap L pd v p flags s=.ok () t →
      SpaceStep ⟨s,live,held⟩ (.map pd v p flags) ⟨t,live,held.erase p⟩
  | dup {s t : Machine} {live held : List ℕ} {dst src : ℕ} : dst ∈ live → src ∈ live → src≠dst →
      dupCost s.mem src ≤ s.remainingPages → vmdup L dst src s=.ok () t →
      SpaceStep ⟨s,live,held⟩ (.dup dst src) ⟨t,live,held⟩
  | freeDir {s t : Machine} {live held : List ℕ} {pd : ℕ} : pd ∈ live → pagingFreeDir L pd s=.ok () t →
      SpaceStep ⟨s,live,held⟩ (.freeDir pd) ⟨t,live.filter (· ≠ pd),held⟩
  | user {s : Machine} {live held : List ℕ} {pd : ℕ} {m : Mem} : pd ∈ live →
      (∀ x, m x≠s.mem x → ∃ v<2^32, UserMapped s.mem pd v ∧ x=userByte s.mem pd v) →
      SpaceStep ⟨s,live,held⟩ (.user pd) ⟨{s with mem := m},live,held⟩

/-- `early_init_kernel_paging` has run on cleared tables, and there is no user directory yet. -/
structure SpacesStart (s : Spaces) : Prop where
  kernelTables : s.machine.env.isUsingKernelPageTables L=true
  unlocked : s.machine.env.pallocLockHeld=false
  tables : ∃ m, (∀ x, InKernelTables L x → m x=0) ∧
    ∀ x, InKernelTables L x → s.machine.mem x=earlyInitKernelPaging L m x
  list : ∃ fl, FreeList L s.machine fl
  live : s.live=[]
  held : s.held=[]

def SpaceRun : Spaces → Spaces → Prop := Relation.ReflTransGen (fun a b=>∃ op, SpaceStep L a op b)

/-- `paging_get_entry` finds the same in `pd` as in the kernel's directory, where that is global. -/
def Coherent (s : Machine) (pd : ℕ) : Prop :=
  ∀ v<2^32, isGlobal (entryAt s.mem L.physKernelPd (getPdIndex (maskToPage v)))=true →
    ∃ e, pagingGetEntry L pd v s=.ok e s ∧ pagingGetEntry L L.physKernelPd v s=.ok e s

/-- `paging_get_entry` finds the same in `pd` before and after. -/
def SameLookups (pd : ℕ) (s t : Machine) : Prop :=
  ∀ v<2^32, ∃ e, pagingGetEntry L pd v s=.ok e s ∧ pagingGetEntry L pd v t=.ok e t

variable {L} {s t : Machine} {fl fl' live live' held : List ℕ} {role role' : ℕ → Role} {who : Option ℕ}
  {pd v : ℕ}

section

section
variable (h : Owned L s fl live role)
include h
theorem Owned.lookup_kernel (hv : v<2^32) :
    pagingGetEntry L L.physKernelPd v s=.ok (walk s.mem L.physKernelPd v) s := by
  have hret : Returns (pagingGetEntry L L.physKernelPd v) s
      (fun e t=>e=walk s.mem L.physKernelPd v ∧ t=s) :=
    (wp_pagingGetEntry physKernelPd_isTable h.kernelTables hv
      (fun e he _=>he▸(h.kernel.page (getPdIndex_lt hv)).1)).mpr ⟨rfl,rfl⟩
  obtain ⟨e,t,hok,rfl,rfl⟩ := hret.exists_ok
  exact hok

theorem Owned.wp_lookup (hpd : pd ∈ live) (hv : v<2^32) :
    Ensures (pagingGetEntry L pd v) s Q E ↔ Q (walk s.mem pd v) s :=
  wp_pagingGetEntry (h.dirs pd hpd).frame.isTable h.kernelTables hv
    (fun _ he hne=>he▸(h.dirs pd hpd).isTable h.kernel (getPdIndex_lt hv) (he▸hne))

theorem Owned.lookup (hpd : pd ∈ live) (hv : v<2^32) : pagingGetEntry L pd v s=.ok (walk s.mem pd v) s := by
  have hret : Returns (pagingGetEntry L pd v) s (fun e t=>e=walk s.mem pd v ∧ t=s) :=
    (h.wp_lookup hpd hv).mpr ⟨rfl,rfl⟩
  obtain ⟨e,t,hok,rfl,rfl⟩ := hret.exists_ok
  exact hok

theorem Owned.coherent (hpd : pd ∈ live) : Coherent L s pd := by
  intro v hv hg
  refine ⟨walk s.mem L.physKernelPd v,?_,h.lookup_kernel hv⟩
  rw [h.lookup hpd hv,(h.dirs pd hpd).walk_shared hv hg]

theorem Owned.sameLookups (h' : Owned L t fl' live' role')
    (he : Effect L who role role1 s.mem t.mem) (hpd : pd ∈ live) (hpd' : pd ∈ live')
    (hne : some pd≠who) : SameLookups L pd s t := by
  intro v hv
  refine ⟨walk s.mem pd v,h.lookup hpd hv,?_⟩
  rw [h'.lookup hpd' hv,(h.dirs pd hpd).walk_of_effect h.kernel he hne hv]

theorem Owned.sameLookups_kernel (h' : Owned L t fl' live' role') (he : Effect L who role role1 s.mem t.mem) : SameLookups L L.physKernelPd s t := by
  intro v hv
  refine ⟨walk s.mem L.physKernelPd v,h.lookup_kernel hv,?_⟩
  rw [h'.lookup_kernel hv,h.kernel.walk_of_effect he hv]
end

end

/-- The invariant of the system; the roles are ghost state. -/
structure SpacesInv (L : Layout) (a : Spaces) (fl : List ℕ) (role : ℕ → Role) : Prop where
  owned : Owned L a.machine fl a.live role
  kept : ∀ p ∈ a.held, IsFrame L p ∧ role p=.kept
  nodup : a.held.Nodup

section
variable {a b : Spaces} {op : SpaceOp} {p : ℕ}

theorem SpacesStart.inv (h : SpacesStart L a) : ∃ fl, SpacesInv L a fl (fun _=>.free) := by
  obtain ⟨m,hz,hm⟩ := h.tables
  obtain ⟨fl,hfl⟩ := h.list
  have hk := (earlyInitKernelPaging_kernelTables hz).congr hm
  refine ⟨fl,⟨h.kernelTables,h.unlocked,hk,hfl,fun _ _=>rfl,?_⟩,?_,?_⟩
  · simp [h.live]
  · simp [h.held]
  · simp [h.held]

theorem Effect.kept (he : Effect L who role role' m m') (hw : some physNull≠who)
    (h : ∀ p ∈ held, IsFrame L p ∧ role p=.kept) : ∀ p ∈ held, IsFrame L p ∧ role' p=.kept := by
  intro p hp
  obtain ⟨hf,hr⟩ := h p hp
  exact ⟨hf,(he.foreign hf (by rw [hr]; rfl) hw).1.trans hr⟩

theorem Owned.dir_ne_null (h : Owned L s fl live role) (hpd : pd ∈ live) :
    some physNull≠some pd := fun hc =>
  (h.dirs pd hpd).frame.ne_zero (Option.some.inj hc).symm

theorem Owned.takeKept (h : Owned L s fl live role) (hp : role p=.kept) :
    Owned L s fl live (update role p .held) :=
  h.retype (by rw [hp]; simp) (fun pd hpd=>by rw [hp]; exact h.dir_ne_null hpd) .held

theorem SpaceStep.spec (hst : SpaceStep L a op b) (h : SpacesInv L a fl role) :
    ∃ fl' role', SpacesInv L b fl' role' ∧ ((∀ v p, op≠.kpMap v p) → Clean a.machine b.machine ∧
      ∃ role0 role1, Owned L a.machine fl a.live role0 ∧
        Effect L op.space role0 role1 a.machine.mem b.machine.mem) := by
  obtain ⟨ho,hkp,hnd⟩ := h
  cases hst with
  | @palloc s t live held p hp hne =>
    rcases (palloc_owned ho).of_ok hp with ⟨-,h0,-⟩ | ⟨rest,rfl,ht,he,hf,⟨-,htr⟩,-⟩
    · exact absurd h0 hne
    have hhl : (update role p Role.held) p=.held := update_self ..
    have hkp' := he.kept (by simp) hkp
    have hpn : p ∉ held := fun hin=>by
      have hr := (hkp' p hin).2
      rw [hhl] at hr
      cases hr
    refine ⟨rest,_,⟨ht.retype (p := p) (by rw [hhl]; simp) (by simp [Role.owner]) .kept,
      fun q hq=>?_,nodup_cons.mpr ⟨hpn,hnd⟩⟩,fun _=>⟨.of_eq htr,role,_,ho,he⟩⟩
    by_cases hqp : q=p
    · exact ⟨hqp▸hf,by rw [hqp,update_self]⟩
    · rw [update_of_ne hqp]
      exact hkp' q ((mem_cons.mp hq).resolve_left hqp)
  | @kpMap s t live held v p hv hp hok =>
    obtain ⟨hv,hv'⟩ := Layout.dynamicRegion_containsV.mp hv
    obtain ⟨-,ht,-⟩ := (kpMap_spec ho hv hv' hp).of_ok hok
    exact ⟨fl,role,⟨ht,hkp,hnd⟩,fun hop=>absurd rfl (hop _ _)⟩
  | @allocDir s t live held pd hok =>
    obtain ⟨rest,role',-,ht,he,hc,-⟩ := (pagingAllocDir_spec ho).of_ok hok
    exact ⟨rest,role',⟨ht,he.kept (by simp) hkp,hnd⟩,fun _=>⟨hc,role,role',ho,he.of_none⟩⟩
  | @map s t live held pd v p flags hpd hp hv hfl hg hok =>
    obtain ⟨hf,hr⟩ := hkp p hp
    have ho' := ho.takeKept hr
    obtain ⟨-,-,-,role',ht,he,-,-,hcl,-⟩ := (pagingMap_spec ho' hpd hv hfl
      (.inr ⟨hf,update_self ..⟩)).of_ok hok
    refine ⟨_,role',⟨ht,he.kept (ho.dir_ne_null hpd) (fun q hq=>?_),hnd.erase p⟩,
      fun _=>⟨hcl hf.ne_zero,_,role',ho',he⟩⟩
    obtain ⟨hqp,hq⟩ := hnd.mem_erase_iff.mp hq
    rw [update_of_ne hqp]
    exact hkp q hq
  | @dup s t live held dst src hdst hsrc hne hcs hok =>
    rcases (vmdup_spec ho hsrc hdst hne).of_ok hok with ⟨fl',role',hc,-⟩ | hout
    · exact ⟨fl',role',⟨hc.owned,hc.effect.kept (ho.dir_ne_null hdst) hkp,hnd⟩,
        fun _=>⟨hc.clean,role,role',ho,hc.effect⟩⟩
    · have hlt : fl.length<dupCost s.mem src := hout.2
      have hrem : s.remainingPages=fl.length := ho.list.remaining
      omega
  | @freeDir s t live held pd hpd hok =>
    obtain ⟨fl',role',ht,he,htr⟩ := (pagingFreeDir_spec ho hpd
      (fun q (hq : q ∈ live.filter (· ≠ pd))=>(mem_filter.mp hq).1) (by simp)).of_ok hok
    exact ⟨fl',role',⟨ht,he.kept (ho.dir_ne_null hpd) hkp,hnd⟩,fun _=>⟨.of_eq htr,role,role',ho,he⟩⟩
  | @user s live held pd m hpd hm =>
    obtain ⟨ht,he,-⟩ := ho.userWrite (t := {s with mem := m}) hpd rfl rfl rfl hm
    exact ⟨fl,role,⟨ht,hkp,hnd⟩,fun _=>⟨.of_eq rfl,role,role,ho,he⟩⟩

theorem SpaceStep.live_of_ne (hs : SpaceStep L a op b) (hpd : pd ∈ a.live)
    (hne : op.space≠some pd) : pd ∈ b.live := by
  cases hs with
  | palloc _ _ => exact hpd
  | kpMap _ _ _ => exact hpd
  | allocDir _ => exact mem_cons_of_mem _ hpd
  | map _ _ _ _ _ _ => exact hpd
  | dup _ _ _ _ _ => exact hpd
  | user _ _ => exact hpd
  | freeDir _ _ =>
    refine mem_filter.mpr ⟨hpd,decide_eq_true (fun hc=>hne ?_)⟩
    rw [hc]
    rfl

theorem SpaceRun.inv (hrun : SpaceRun L a b) (h0 : SpacesStart L a) : ∃ fl role, SpacesInv L b fl role := by
  obtain ⟨fl,hi⟩ := h0.inv
  apply Reaches.invariant (I := fun c=>∃ fl role, SpacesInv L c fl role) hrun ⟨fl,_,hi⟩
  rintro c d ⟨fl,role,hinv⟩ ⟨op,hs⟩
  obtain ⟨fl',role',hd,-⟩ := hs.spec hinv
  exact ⟨fl',role',hd⟩

section
variable (hs : SpaceStep L a op b) (h : SpacesInv L a fl role) (hop : ∀ v p, op≠.kpMap v p)
include hs h hop
theorem SpaceStep.walk_kernel (hv : v<2^32) :
    walk b.machine.mem L.physKernelPd v=walk a.machine.mem L.physKernelPd v := by
  obtain ⟨_,_,-,heff⟩ := hs.spec h
  obtain ⟨-,_,_,ho,he⟩ := heff hop
  exact ho.kernel.walk_of_effect he hv

theorem SpaceStep.clean : Clean a.machine b.machine := by
  obtain ⟨_,_,-,heff⟩ := hs.spec h
  exact (heff hop).1
end

end

/-- User directories agree with the kernel's on the global part, and no operation on one changes
another. -/
theorem spaces_coherent_and_isolated {a b : Spaces} (h0 : SpacesStart L a) (hrun : SpaceRun L a b) :
    (∀ pd ∈ b.live, Coherent L b.machine pd) ∧
    ∀ op c pd, SpaceStep L b op c → op.space=some pd →
      (∀ pd' ∈ b.live, pd'≠pd → SameLookups L pd' b.machine c.machine) ∧
      SameLookups L L.physKernelPd b.machine c.machine ∧
      ∀ x, InKernelTables L x → c.machine.mem x=b.machine.mem x := by
  obtain ⟨fl,role,hinv⟩ := hrun.inv h0
  refine ⟨fun pd hpd=>hinv.owned.coherent hpd,fun op c pd hst hsp=>?_⟩
  obtain ⟨fl',role',hinv',heff⟩ := hst.spec hinv
  obtain ⟨-,role₀,role₁,ho,he⟩ := heff (by rintro v p rfl; cases hsp)
  rw [hsp] at he
  refine ⟨fun pd' hpd' hne=>?_,ho.sameLookups_kernel hinv'.owned he,fun x hx=>he.kernel hx⟩
  have hsm : some pd'≠some pd := fun hc=>hne (Option.some.inj hc)
  exact ho.sameLookups hinv'.owned he hpd' (hst.live_of_ne hpd' (hsp▸hsm.symm)) hsm

section

/-- Cleared memory with the kernel's tables in place. -/
def bootTables (L : Layout) : Mem := fun x =>
  if L.physKernelPd≤x ∧ x<L.physKernelPd+0x401000 then earlyInitKernelPaging L (fun _=>0) x
  else 0

theorem bootTables_inside (hx : InKernelTables L x) :
    bootTables L x=earlyInitKernelPaging L (fun _=>0) x := by
  rw [bootTables,if_pos (show L.physKernelPd≤x ∧ x<L.physKernelPd+0x401000 from hx)]

theorem bootTables_outside (hx : L.kmFreePhysBase≤x) : bootTables L x=0 := by
  have hb := physKernelPd_bounds (L := L)
  rw [bootTables,if_neg (by omega)]

def pagedMachine (L : Layout) : Machine := {bootMachine L with mem := bootTables L}

theorem pagedMachine_mem : (pagedMachine L).mem=bootTables L := by simp only [pagedMachine]

theorem pageMagic_bootTables (hp : L.kmFreePhysBase≤p) : pageMagic (bootTables L) p=0 :=
  load_zero (fun _ hx _=>bootTables_outside (by omega))

theorem pagedMachine_boot : Boot L (pagedMachine L) := ⟨beq_self_eq_true _,rfl,rfl,rfl⟩

theorem exists_spacesStart_of (rs : List (ℕ × ℕ)) (hrs : ∀ r ∈ rs, r.1%pageSize=0 ∧ r.2%pageSize=0) :
    ∃ s fl, SpacesStart L ⟨s,[],[]⟩ ∧ s.env.kpLockHeld=false ∧
      Added L (bootTables L) (fun q=>∃ r ∈ rs, r.1≤q ∧ q<r.2) s fl := by
  obtain ⟨s,hs⟩ := Adding.exists_of_aligned (pagedMachine_boot (L := L)) rs hrs
  obtain ⟨henv,fl,hfl⟩ := hs.spec pagedMachine_boot
  rw [pagedMachine_mem] at hfl
  refine ⟨s,fl,⟨?_,?_,⟨fun _=>0,fun _ _=>rfl,fun x hx=>?_⟩,⟨fl,hfl.list⟩,rfl,rfl⟩,?_,hfl⟩
  · rw [henv]
    exact pagedMachine_boot.kernelTables
  · rw [henv]
    rfl
  · have hout : Outside fl x := fun hin=>by
      have hb := (hfl.list.frame _ hin).bounds
      have hle := maskToPage_le x
      have hn := hx.not_free
      omega
    exact (hfl.rest x hout).trans (bootTables_inside hx)
  · rw [henv]
    rfl

theorem exists_spacesStart (n : ℕ) (hn : n≤16) : ∃ s fl, SpacesStart .smallImage ⟨s,[],[]⟩ ∧
    SpacesInv .smallImage ⟨s,[],[]⟩ fl (fun _=>.free) ∧ fl.length=n ∧ s.env.kpLockHeld=false := by
  have hag : ∀ r ∈ [(0x800000, 0x800000+0x1000*n)], r.1%pageSize=0 ∧ r.2%pageSize=0 := by
    intro r hr
    rw [mem_singleton] at hr
    subst hr
    dsimp only [pageSize]
    omega
  obtain ⟨s,fl,hst,hkp,hfl⟩ := exists_spacesStart_of (L := .smallImage) _ hag
  have hb : Layout.smallImage.kmFreePhysBase=0x800000 := rfl
  have hpg : ∀ q, q ∈ fl ↔ q ∈ (List.range n).map (fun k=>0x800000+0x1000*k) := by
    intro q
    rw [hfl.mem_iff,mem_map]
    constructor
    · rintro ⟨hf,⟨r,hr,hq⟩,-⟩
      have hal := hf.aligned
      rw [mem_singleton] at hr
      subst hr
      refine ⟨(q-0x800000)/0x1000,mem_range.mpr ?_,?_⟩ <;>
      · simp only [pageSize] at *
        omega
    · rintro ⟨k,hk,rfl⟩
      rw [mem_range] at hk
      refine ⟨⟨?_,Layout.pallocRegion_containsP.mpr ?_⟩,⟨_,mem_singleton_self _,?_⟩,?_⟩
      · simp only [pageSize]
        omega
      · omega
      · dsimp only
        omega
      · rw [pageMagic_bootTables (by omega)]
        decide
  have hnd : ((List.range n).map (fun k=>0x800000+0x1000*k)).Nodup := nodup_range.map (fun k l hkl=>by omega)
  have hlen := ((perm_ext_iff_of_nodup hfl.list.nodup hnd).mpr hpg).length_eq
  rw [length_map,length_range] at hlen
  obtain ⟨fl',hinv⟩ := hst.inv
  exact ⟨s,fl',hst,hinv,(hinv.owned.list.remaining.symm.trans hfl.list.remaining).trans hlen,hkp⟩

section
variable {a : Spaces} {n : ℕ} (h : SpacesInv L a fl role) (hlen : fl.length=n+1)
include h hlen
theorem SpacesInv.allocDir : ∃ pd t rest role', SpaceStep L a (.allocDir pd) ⟨t,pd::a.live,a.held⟩ ∧
      SpacesInv L ⟨t,pd::a.live,a.held⟩ rest role' ∧ fl=pd::rest ∧ rest.length=n ∧
      (∀ i<pdLength, isOwned (entryAt t.mem pd i)=false) ∧ ∀ i<768, entryAt t.mem pd i=0 := by
  obtain ⟨pd,t,hok,rest,role',rfl,ht,he,-,hnl⟩ := Returns.exists_ok
    ((pagingAllocDir_spec h.owned).mono (fun _ _ hq=>hq) (fun _ he=>by simp [he.1] at hlen))
  refine ⟨pd,t,rest,role',.allocDir hok,⟨ht,he.kept (by simp) h.kept,h.nodup⟩,rfl,
    Nat.succ.inj hlen,fun i hi=>?_,fun i hi=>hnl i (hi.trans (by decide)) (h.owned.kernel.user i hi)⟩
  cases hg : isGlobal (entryAt a.machine.mem L.physKernelPd i) with
  | true =>
    rw [← entryAt_congr he.kernelPd hi] at hg
    rw [isOwned,(ht.dirs pd mem_cons_self).shared i hi hg,hg,Bool.not_true,Bool.and_false]
  | false =>
    rw [hnl i hi hg]
    rfl

theorem SpacesInv.palloc : ∃ p t rest role', SpaceStep L a .palloc ⟨t,a.live,p::a.held⟩ ∧
    SpacesInv L ⟨t,a.live,p::a.held⟩ rest role' ∧ rest.length=n := by
  obtain ⟨p,t,hok,⟨rfl,-⟩ | ⟨rest,rfl,ht,-,hf,-⟩⟩ := (palloc_owned h.owned).exists_ok
  · simp at hlen
  · have hst : SpaceStep L a .palloc ⟨t,a.live,p::a.held⟩ := .palloc hok hf.ne_zero
    obtain ⟨fl',role',hinv,-⟩ := hst.spec h
    have hcn := hinv.owned.list.remaining.symm.trans ht.list.remaining
    exact ⟨p,t,fl',role',hst,hinv,hcn.trans (Nat.succ.inj hlen)⟩

theorem SpacesInv.map (pd p flags : ℕ) (hpd : pd ∈ a.live) (hp : p ∈ a.held) (hv : v<0xC0000000)
    (hfl : flags<pageSize) (hg : isGlobal flags=false) :
    ∃ t fl' role', SpaceStep L a (.map pd v p flags) ⟨t,a.live,a.held.erase p⟩ ∧
      SpacesInv L ⟨t,a.live,a.held.erase p⟩ fl' role' ∧ n≤fl'.length ∧
      walk t.mem pd v=pteConstruct p (flags ||| pageBitPresent) ∧
      (∀ w<2^32, maskToPage w≠maskToPage v → walk t.mem pd w=walk a.machine.mem pd w) ∧
      (∀ k<pdLength, k≠getPdIndex (maskToPage v) → entryAt t.mem pd k=entryAt a.machine.mem pd k) ∧
      ∀ b, (flags ||| pageBitPresent).testBit b=true → (pdeOf t pd v).testBit b=true := by
  obtain ⟨hf,hr⟩ := h.kept p hp
  have hi := getPdIndex_lt_of_user hv
  have hown := (h.owned.dirs pd hpd).own _ (hi.trans (by decide)) (h.owned.kernel.user _ hi)
  have hlt : v<2^32 := by omega
  obtain ⟨⟨⟩,t,hok,-,-,-,role0,ht,-,hwl,-,-,hot,hps,hfg,-⟩ := Returns.exists_ok
    ((pagingMap_spec (h.owned.takeKept hr) hpd hlt hfl (.inr ⟨hf,update_self ..⟩)).mono
      (fun _ _ hq=>hq) (fun _ hc=>by
        rcases hc.2 with hc | hc | ⟨-,hc⟩
        · exact Bool.false_ne_true (hg.symm.trans hc)
        · exact Bool.false_ne_true (hown.symm.trans hc)
        · simp [hc] at hlen))
  have hst : SpaceStep L a (.map pd v p flags) ⟨t,a.live,a.held.erase p⟩ := .map hpd hp hlt hfl hg hok
  obtain ⟨fl',role',hinv,-⟩ := hst.spec h
  have hcn := hinv.owned.list.remaining.symm.trans ht.list.remaining
  refine ⟨t,fl',role',hst,hinv,?_,hwl,hot,hps,hfg⟩
  split at hcn
  · rw [length_tail] at hcn
    omega
  · omega
end

/-- The first directory agrees with the kernel's and does not notice a second one. -/
theorem spaces_coherent_and_isolated_smallImage : ∃ s t u pd pd',
    SpacesStart .smallImage ⟨s,[],[]⟩ ∧ SpaceRun .smallImage ⟨s,[],[]⟩ ⟨t,[pd],[]⟩ ∧
      SpaceStep .smallImage ⟨t,[pd],[]⟩ (.allocDir pd') ⟨u,[pd', pd],[]⟩ ∧
      Coherent .smallImage t pd ∧ SameLookups .smallImage pd t u := by
  obtain ⟨s,fl,h0,hinv,hlen,-⟩ := exists_spacesStart 16 le_rfl
  obtain ⟨pd,t,rest,role,hst,hinv',rfl,hrs,-⟩ := hinv.allocDir hlen
  obtain ⟨pd',u,rest',role',hst',-,rfl,-⟩ := hinv'.allocDir hrs
  have hrun : SpaceRun .smallImage ⟨s,[],[]⟩ ⟨t,[pd],[]⟩ := .single ⟨_,hst⟩
  have hnd := hinv.owned.list.nodup
  obtain ⟨hcoh,hiso⟩ := spaces_coherent_and_isolated h0 hrun
  refine ⟨s,t,u,pd,pd',h0,hrun,hst',hcoh pd (by simp),?_⟩
  refine (hiso _ _ pd' hst' rfl).1 pd (by simp) (fun hc=>?_)
  rw [hc] at hnd
  simp at hnd
end

end Yaos2.Memory
