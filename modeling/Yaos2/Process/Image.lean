import Yaos2.Process.Fork

/-! # The memory of a process as a map of bytes -/
namespace Yaos2.Process
open Foundation Memory Function Option

/-- What a process finds at an address, or nothing where no page is mapped. -/
abbrev Image := ℕ → Option UInt8

/-- `KM_VIRT_BASE`, where user memory ends. -/
def userTop : ℕ := 0xC0000000

namespace Image

/-- The page of `v` is there, with zeros in it if it is new. -/
def reserve (im : Image) (v : ℕ) : Image := fun w =>
  if maskToPage w=maskToPage v then some ((im w).getD 0) else im w

def write (im : Image) (v : ℕ) (buf : List UInt8) : Image := fun w =>
  if v≤w ∧ w<v+buf.length then (im w).map (fun _=>buf.getD (w-v) 0) else im w

theorem write_outside (im : Image) (h : w<v ∨ v+buf.length≤w) : im.write v buf w=im w := by
  rw [write,if_neg (by omega)]

theorem write_eq_none {im : Image} (buf : List UInt8) : im.write v buf w=none ↔ im w=none := by
  rw [write]
  split
  · exact map_eq_none_iff
  · rfl

theorem write_inside {im : Image} (hk : k<buf.length) (hmap : im (v+k)≠none) :
    im.write v buf (v+k)=buf[k]? := by
  obtain ⟨b,hb⟩ := ne_none_iff_exists'.mp hmap
  rw [write,if_pos (by omega),hb,map_some,Nat.add_sub_cancel_left,List.getD_eq_getElem?_getD,
    List.getElem?_eq_getElem hk,getD_some]
end Image

/-- The machine holds the image `im` in the directory `pd`, and has at least `n` free frames. -/
structure Backs (L : Layout) (s : Machine) (live : List ℕ) (pd : ℕ) (im : Image) (n : ℕ) : Prop where
  owned : ∃ fl role, Owned L s fl live role ∧ n≤fl.length
  live : pd ∈ live
  view : ∀ w<userTop, userView s.mem pd w=im w
  absent : ∀ w<userTop, im w=none → walk s.mem pd w=0
  present : ∀ w<userTop, im w≠none → pteGetPaddr (walk s.mem pd w)≠physNull

variable {L : Layout} {s t u : Machine} {fl live : List ℕ} {role : ℕ → Role} {pd v w n : ℕ} {im im' : Image}
  {m m' : Mem}

section

theorem getPdIndex_user (hw : w<userTop) : getPdIndex (maskToPage w)<768 := by
  have hm := maskToPage_le w
  rw [userTop] at hw
  rw [getPdIndex,Nat.shiftRight_eq_div_pow]
  omega

theorem isUserAddress (h : Owned L s fl live role) (hw : w<userTop) : IsUserAddress L s.mem w :=
  ⟨hw.trans (by decide),h.kernel.user _ (getPdIndex_user hw)⟩

/-- What it takes for the process to have access. -/
def Accessible (m : Mem) (pd w : ℕ) : Prop := (isPresent (entryAt m pd (getPdIndex (maskToPage w)))=true ∧
    isUser (entryAt m pd (getPdIndex (maskToPage w)))=true) ∧ UserMapped m pd w

theorem userView_of_accessible (h : Accessible m pd w) : userView m pd w=some (m (userByte m pd w)) := by
  obtain ⟨⟨h1,h2⟩,h3,h4⟩ := h
  simp [userView,h1,h2,h3,h4]

theorem accessible_of_userView (h : userView m pd w≠none) : Accessible m pd w := by
  simp only [userView] at h
  split at h
  · next hc =>
    simp only [Bool.and_eq_true] at hc
    exact ⟨hc.1.1,hc.1.2,hc.2⟩
  · exact absurd rfl h

theorem userView_of_walk_zero (h : walk m pd w=0) : userView m pd w=none := by
  simp [userView,h,isPresent_zero]

theorem backs_empty (h : Owned L s fl live role) (hpd : pd ∈ live) (hn : ∀ i<768, entryAt s.mem pd i=0) :
    Backs L s live pd (fun _=>none) fl.length where
  owned := ⟨fl,role,h,le_rfl⟩
  live := hpd
  view _ hw := userView_of_walk_zero (walk_of_null hn hw)
  absent _ hw _ := walk_of_null hn hw
  present _ _ hne := absurd rfl hne

section
variable (h : Backs L s live pd im n) (hw : w<userTop) (hne : im w≠none)
include h hw hne
theorem Backs.accessible :
    Accessible s.mem pd w :=
  accessible_of_userView (h.view w hw▸hne)

theorem Backs.byte : im w=some (s.mem (userByte s.mem pd w)) := by
  rw [← h.view w hw,userView_of_accessible (h.accessible hw hne)]
end

theorem frame_of_present (h : Owned L s fl live role) (hpd : pd ∈ live) (hw : w<userTop)
    (hne : pteGetPaddr (walk s.mem pd w)≠physNull) : IsFrame L (pteGetPaddr (walk s.mem pd w)) ∧
      role (pteGetPaddr (walk s.mem pd w)) =
        .page pd (getPdIndex (maskToPage w)) (getPtIndex (maskToPage w)) := by
  have hu := isUserAddress h hw
  exact (h.target hpd hu.1 hu.2).resolve_left hne

theorem userByte_inj (h : Owned L s fl live role) (hpd : pd ∈ live) (hv : v<userTop) (hw : w<userTop)
    (hne : pteGetPaddr (walk s.mem pd w)≠physNull) (heq : userByte s.mem pd v=userByte s.mem pd w) : v=w := by
  obtain ⟨hsm,hoff⟩ := userByte_eq_iff.mp heq
  obtain ⟨-,hrw⟩ := frame_of_present h hpd hw hne
  obtain ⟨-,hrv⟩ := frame_of_present h hpd hv (by rwa [hsm])
  rw [hsm,hrw] at hrv
  simp only [Role.page.injEq,true_and] at hrv
  have hms := maskToPage_of_indices hrv.1 hrv.2
  have hmv := mask_add_mod v
  have hmw := mask_add_mod w
  omega
end

section
variable {α β : Type} {good : Prop} {c d : ℕ} {x : Kernel α} {f : α → Kernel β} {Q R : α → Machine → Prop}

/-- With `n` frames free, `x` takes at most `c`; if it returns without mapping page zero, `Q` holds.
-/
def Track (good : Prop) (x : Kernel α) (s : Machine) (n c : ℕ) (Q : α → Machine → Prop) : Prop :=
  Ensures x s (fun a t=>Extends s t ∧ (Clean s t → Q a t) ∧ (c≤n → Clean s t)) (fun _=>good → n<c)

theorem Track.pure (h : Q a s) : Track good (pure a) s n 0 Q :=
  (wp_pure ..).mpr ⟨.of_eq rfl,fun _=>h,fun _=>.of_eq rfl⟩

theorem Track.mono (h : Track good x s n c R) (hQ : ∀ a t, R a t → Q a t) : Track good x s n c Q :=
  Ensures.imp h (fun a t ht=>⟨ht.1,fun hc=>hQ a t (ht.2.1 hc),ht.2.2⟩)

theorem Track.returns (h : Track True x s n c Q) (hc : c≤n) : Returns x s Q := by
  apply Ensures.mono h
  · intro a t ht
    exact ht.2.1 (ht.2.2 hc)
  · intro _ hlt
    exact absurd (hlt trivial) (not_lt.mpr hc)

theorem Track.bind {Q : β → Machine → Prop} (c' : ℕ) (hc : c+c'=d) (hx : Track good x s n c R)
    (hgr : ∀ a, Grows (f a)) (hf : ∀ a t, R a t → Track good (f a) t (n-c) c' Q) :
    Track good (x >>= f) s n d Q := by
  refine Ensures.bind (R := fun a t=>Extends s t ∧ (Clean s t → R a t) ∧ (c≤n → Clean s t))
    (Ensures.mono hx (fun _ _ h=>h) (fun _ h hg=>by have := h hg; omega)) (fun a t ht=>?_)
  obtain ⟨hext,hR,hcl⟩ := ht
  by_cases hc : Clean s t
  · refine Ensures.mono (hf a t (hR hc)) (fun b u hu=>?_) (fun _ h hg=>by have := h hg; omega)
    obtain ⟨hext',hQ,hcl'⟩ := hu
    exact ⟨hext.trans hext',fun hsu=>hQ (hext.clean_parts hext' hsu).2,
      fun hn=>hc.trans (hcl' (by omega))⟩
  · have hn : n<c := by
      by_contra hn
      exact hc (hcl (by omega))
    refine (hgr a t).mono (fun b u hext'=>?_) (fun _ _ _=>by omega)
    exact ⟨hext.trans hext',fun hsu=>absurd (hext.clean_parts hext' hsu).1 hc,fun _=>by omega⟩

theorem Track.kassert {Q : Unit → Machine → Prop} (hb : good → b=true) (h : Q () s) :
    Track good (kassert e b) s n 0 Q := by
  apply wp_kassert_iff.mpr
  split
  · exact ⟨.of_eq rfl,fun _=>h,fun _=>.of_eq rfl⟩
  · next hc => exact fun hg=>absurd (hb hg) hc
end

section
variable {proc : Proc} {flags : ℕ}

theorem vmPflags_user (hf : flags &&& vmUser≠0) (b : ℕ) (hb : b=0 ∨ b=2) :
    (vmPflags flags ||| pageBitPresent).testBit b=true := by
  simp only [vmPflags,if_pos hf]
  rcases hb with rfl | rfl
  · exact isPresent_or_present _
  · split <;> decide

/-- The page of `v` has a zeroed frame of its own; the rest of the address space is as it was. -/
structure NewPage (L : Layout) (live : List ℕ) (pd v f : ℕ) (s t : Machine) (fl fl' : List ℕ) : Prop where
  owned : ∃ role', Owned L t fl' live role'
  count : fl.length=fl'.length+1+if pteGetPaddr (pdeOf s pd v)=physNull then 1 else 0
  frame : ∃ p, IsFrame L p ∧ walk t.mem pd v=pteConstruct p f ∧ ∀ o<pageSize, t.mem (p+o)=0
  other : ∀ w<2^32, maskToPage w≠maskToPage v → walk t.mem pd w=walk s.mem pd w
  pdes : ∀ i<pdLength, i≠getPdIndex (maskToPage v) → entryAt t.mem pd i=entryAt s.mem pd i
  pde : ∀ b, f.testBit b=true → (pdeOf t pd v).testBit b=true
  pages : ∀ w<userTop, pteGetPaddr (walk s.mem pd w)≠physNull →
    SameOn s.mem t.mem (pteGetPaddr (walk s.mem pd w)) pageSize
  clean : Clean s t

theorem pdeOf_page (s : Machine) (pd v : ℕ) : pdeOf s pd (maskToPage v)=pdeOf s pd v := by
  rw [pdeOf,pdeOf,maskToPage_of_aligned (maskToPage_mod v)]

theorem newPage_of_map (ho : Owned L s (p::rest) live role)
    (hpd : pd ∈ live) (he : Effect L none role (update role p .held) s.mem t.mem)
    (hf : IsFrame L p) (hz : ∀ o<pageSize, t.mem (p+o)=0) (hst : Clean s t) (hu : Owned L u fl' live role')
    (hcn : rest.length=fl'.length+if pteGetPaddr (pdeOf s pd v)=physNull then 1 else 0)
    (hwl : walk u.mem pd (maskToPage v)=pteConstruct p f) (hcl : Clean t u)
    (hot : ∀ w<2^32, maskToPage w≠maskToPage v → walk u.mem pd w=walk t.mem pd w)
    (hps : ∀ k<pdLength, k≠getPdIndex (maskToPage v) → entryAt u.mem pd k=entryAt t.mem pd k)
    (hpb : ∀ b, f.testBit b=true → (pdeOf u pd v).testBit b=true)
    (hsm : ∀ q, IsFrame L q → update role p .held q≠.free → q≠pd →
      update role p .held q≠.table pd (getPdIndex (maskToPage v)) → SameOn t.mem u.mem q pageSize) :
    NewPage L live pd v f s u (p::rest) fl' := by
  have hdir := ho.dirs pd hpd
  have hroleP := ho.free p (by simp)
  have hsamePd := (he.foreign hdir.frame (by rw [hdir.isDir]; rfl) (by simp)).2
  have hms := maskToPage_of_aligned (maskToPage_mod v)
  refine ⟨⟨role',hu⟩,?_,⟨p,hf,(walk_page hms.symm).trans hwl,fun o ho'=>?_⟩,fun w hw hpg=>?_,
    fun i hi hne=>?_,hpb,fun w hw hne x hx hx'=>?_,hst.trans hcl⟩
  · rw [List.length_cons,hcn]
    omega
  · have hne : p≠pd := fun hc=>by
      have hr := hdir.isDir
      rw [← hc,hroleP] at hr
      cases hr
    rw [hsm p hf (by simp) hne (by simp) (p+o) (by omega) (by omega),hz o ho']
  · rw [hot w hw hpg,hdir.walk_of_effect ho.kernel he (by simp) hw]
  · rw [hps i hi hne,entryAt_congr hsamePd hi]
  · obtain ⟨hqf,hqr⟩ := frame_of_present ho hpd hw hne
    have hqp : pteGetPaddr (walk s.mem pd w)≠p := fun hc=>by
      rw [hc,hroleP] at hqr
      cases hqr
    have hqpd : pteGetPaddr (walk s.mem pd w)≠pd := fun hc=>by
      rw [hc,hdir.isDir] at hqr
      cases hqr
    rw [hsm _ hqf (by rw [update_of_ne hqp,hqr]; simp) hqpd (by rw [update_of_ne hqp,hqr]; simp) x hx hx']
    exact (he.foreign hqf (by rw [hqr]; rfl) (by simp)).2 x hx hx'

theorem unsafeVmreserve_cases (ho : Owned L s fl live role) (hpd : proc.pd ∈ live) (hv : v<userTop) :
    Ensures (unsafeVmreserve L proc v flags) s
      (fun proc' t=>pteGetPaddr (walk s.mem proc.pd v)≠physNull ∧ proc'=proc ∧ t=s ∨
        pteGetPaddr (walk s.mem proc.pd v)=physNull ∧ proc'=proc.extend (maskToPage v) ∧
          (fl=[] ∧ Tainted s t ∨
            ∃ fl', NewPage L live proc.pd v (vmPflags flags ||| pageBitPresent) s t fl fl'))
      (fun _=>pteGetPaddr (walk s.mem proc.pd v)=physNull ∧ pteGetPaddr (pdeOf s proc.pd v)=physNull ∧
        fl.length<2) := by
  have hv' : maskToPage v<2^32 := (maskToPage_le v).trans_lt (hv.trans (by decide))
  have hms := maskToPage_of_aligned (maskToPage_mod v)
  have hwl : walk s.mem proc.pd (maskToPage v)=walk s.mem proc.pd v := walk_page hms
  obtain ⟨hlt,hg⟩ := vmPflags_spec flags
  have hdir := ho.dirs proc.pd hpd
  have hown := hdir.own _ ((getPdIndex_user hv).trans (by decide)) (ho.kernel.user _ (getPdIndex_user hv))
  simp only [unsafeVmreserve,pagingGet,wp_bind,ho.wp_lookup hpd hv',wp_pure]
  refine Ensures.ite (fun hp=>?_) (fun hp=>?_)
  · rw [wp_pure]
    exact .inl ⟨hwl▸hp,rfl,rfl⟩
  rw [not_ne_iff,hwl] at hp
  simp only [wp_bind,wp_pure]
  apply (palloc_owned ho).ensures.imp
  rintro p t (⟨hfl,rfl,rfl⟩ | ⟨rest,rfl,ht,he,hf,⟨henv,htr⟩,hz,-⟩)
  · refine (pagingMap_spec ho hpd hv' hlt (.inl rfl)).mono ?_ ?_
    · rintro - u ⟨-,-,-,role',hu,heu,-,htn,-⟩
      exact .inr ⟨hp,trivial,.inl ⟨hfl,htn rfl⟩⟩
    · rintro u ⟨-,hc⟩
      rw [pdeOf_page,hown] at hc
      rcases hc with hc | hc | ⟨hc,-⟩
      · exact absurd (hg.symm.trans hc) Bool.false_ne_true
      · exact absurd hc Bool.false_ne_true
      · exact ⟨hp,hc,by rw [hfl]; decide⟩
  · have hpde : pdeOf t proc.pd v=pdeOf s proc.pd v :=
      entryAt_congr (he.foreign hdir.frame (by rw [hdir.isDir]; rfl) (by simp)).2 (getPdIndex_lt (hv.trans (by decide)))
    refine (pagingMap_spec ht hpd hv' hlt (.inr ⟨hf,update_self ..⟩)).mono ?_ ?_
    · rintro - u ⟨-,-,hrm,role',hu,heu,hwk,-,hcl,hot,hps,hpb,hsm⟩
      rw [hms] at hot hps hsm
      rw [pdeOf_page,hpde] at hu hrm
      rw [pdeOf_page] at hpb
      refine .inr ⟨hp,trivial,.inr ⟨_,newPage_of_map ho hpd he hf hz (.of_eq htr) hu ?_ hwk (hcl hf.ne_zero) hot
        hps hpb hsm⟩⟩
      split
      · next hnl =>
        have hne := List.length_pos_iff.mpr (hrm hnl)
        rw [List.length_tail]
        omega
      · rfl
    · rintro u ⟨-,hc⟩
      rw [pdeOf_page,hpde,hown] at hc
      rcases hc with hc | hc | ⟨hc,hnil⟩
      · exact absurd (hg.symm.trans hc) Bool.false_ne_true
      · exact absurd hc Bool.false_ne_true
      · exact ⟨hp,hc,by rw [hnil,List.length_singleton]; decide⟩

theorem Backs.reserve_mapped (h : Backs L s live pd im n)
    (hp : pteGetPaddr (walk s.mem pd v)≠physNull) : Backs L s live pd (im.reserve v) n := by
  have hsm : ∀ w<userTop, im.reserve v w=im w := by
    intro w hw
    rw [Image.reserve]
    split
    · next hpg =>
      have hne : im w≠none := fun hnn=>by
        rw [← walk_page hpg,h.absent w hw hnn] at hp
        exact hp pteGetPaddr_zero
      obtain ⟨c,hc⟩ := ne_none_iff_exists'.mp hne
      rw [hc,getD_some]
    · rfl
  refine ⟨h.owned,h.live,fun w hw=>?_,fun w hw=>?_,fun w hw=>?_⟩
  · rw [hsm w hw,h.view w hw]
  · rw [hsm w hw]
    exact h.absent w hw
  · rw [hsm w hw]
    exact h.present w hw

theorem Backs.reserve_new (h : Backs L s live pd im n)
    (hnn : pteGetPaddr (walk s.mem pd v)=physNull) (hlt : f<pageSize)
    (hbt : ∀ b, b=0 ∨ b=2 → f.testBit b=true) (hnew : NewPage L live pd v f s t fl fl')
    (hk : k≤fl'.length) : Backs L t live pd (im.reserve v) k := by
  obtain ⟨⟨role',ho⟩,-,⟨p,hf,hwl,hzr⟩,hot,hpe,hpde,hps,-⟩ := hnew
  have hb := hf.bounds
  obtain ⟨-,-,had⟩ := pteConstruct_frame hf.aligned (show p<2^32 by omega) hlt
  have hpdeUser : isPresent (pdeOf t pd v)=true ∧ isUser (pdeOf t pd v)=true :=
    ⟨(isPresent_eq _).trans (hpde 0 (hbt 0 (.inl rfl))),(isUser_eq _).trans (hpde 2 (hbt 2 (.inr rfl)))⟩
  have himNone : ∀ w<userTop, maskToPage w=maskToPage v → im w=none := fun w hw hpg=>by
    by_contra hne
    exact h.present w hw hne (by rw [walk_page hpg]; exact hnn)
  -- the new page
  have hnew : ∀ w<userTop, maskToPage w=maskToPage v →
      pteGetPaddr (walk t.mem pd w)=p ∧ userView t.mem pd w=some 0 := by
    intro w hw hpg
    have hwl' := (walk_page hpg).trans hwl
    have hpd : pteGetPaddr (walk t.mem pd w)=p := by rw [hwl',had]
    refine ⟨hpd,?_⟩
    rw [userView_of_accessible,userByte,hpd,hzr _ (Nat.mod_lt w (by decide))]
    refine ⟨by rw [hpg]; exact hpdeUser,?_,?_⟩
    · rw [hwl',isPresent_eq,testBit_pteConstruct _ _ (by decide)]
      exact hbt 0 (.inl rfl)
    · rw [hwl',isUser_eq,testBit_pteConstruct _ _ (by decide)]
      exact hbt 2 (.inr rfl)
  refine ⟨⟨fl',role',ho,hk⟩,h.live,fun w hw=>?_,fun w hw=>?_,fun w hw=>?_⟩
  · rw [Image.reserve]
    split
    · next hpg => rw [(hnew w hw hpg).2,himNone w hw hpg,getD_none]
    · next hpg =>
      have hw' := hot w (hw.trans (by decide)) hpg
      by_cases hne : im w=none
      · rw [hne,userView_of_walk_zero (hw'.trans (h.absent w hw hne))]
      · have hacc := h.accessible hw hne
        have hsm := hps w hw (h.present w hw hne)
        have hoff : w%pageSize<pageSize := Nat.mod_lt w (by decide)
        rw [h.byte hw hne,userView_of_accessible,userByte,userByte,hw',hsm _ (by omega) (by omega)]
        refine ⟨?_,by rw [UserMapped,hw']; exact hacc.2⟩
        by_cases hidx : getPdIndex (maskToPage w)=getPdIndex (maskToPage v)
        · rw [hidx]
          exact hpdeUser
        · rw [hpe _ (getPdIndex_lt (hw.trans (by decide))) hidx]
          exact hacc.1
  · rw [Image.reserve]
    split
    · exact fun hc=>absurd hc (some_ne_none _)
    · next hpg =>
      intro hne
      rw [hot w (hw.trans (by decide)) hpg]
      exact h.absent w hw hne
  · rw [Image.reserve]
    split
    · next hpg =>
      intro _
      rw [(hnew w hw hpg).1]
      exact hf.ne_zero
    · next hpg =>
      rw [hot w (hw.trans (by decide)) hpg]
      exact h.present w hw

theorem procVmreserve_track (h : Backs L s live proc.pd im n) (hv : v<userTop)
    (hfl : flags &&& vmUser≠0) : Track good (procVmreserve L proc v flags) s n 2 (fun proc' t =>
      proc'.pd=proc.pd ∧ Backs L t live proc.pd (im.reserve v) (n-2)) := by
  obtain ⟨fl,role,ho,hn⟩ := h.owned
  simp only [Track,procVmreserve,wp_bind,wp_isUsingKernelPageTables,wp_get,wp_kassert ho.kernelTables]
  rw [wp_panicIf (by rw [ho.unlocked]; simp)]
  refine (unsafeVmreserve_cases ho h.live hv).mono ?_ (fun _ hc _=>by omega)
  rintro proc' t (⟨hp,rfl,rfl⟩ | ⟨hp,rfl,⟨rfl,htn⟩ | ⟨fl',hnew⟩⟩)
  · have hb := h.reserve_mapped hp
    exact ⟨.of_eq rfl,fun _=>⟨rfl,⟨fl,role,ho,by omega⟩,hb.live,hb.view,hb.absent,hb.present⟩,
      fun _=>.of_eq rfl⟩
  · have hn0 : n=0 := by simpa using hn
    exact ⟨⟨htn.choose,htn.choose_spec.1⟩,fun hc=>absurd hc (not_clean_of_tainted htn), fun _=>by omega⟩
  · have hcn := hnew.count
    refine ⟨hnew.clean.extends,fun _=>⟨proc.extend_pd _,?_⟩,fun _=>hnew.clean⟩
    apply h.reserve_new hp (or_present_lt (vmPflags_spec flags).1) (vmPflags_user hfl) hnew
    split at hcn <;> omega
end

section
variable {good : Prop}

theorem pde_of_undisturbed (h : Undisturbed L s t fl live role) (hpd : pd ∈ live) (ho : Owned L s fl live role)
    (hw : w<userTop) :
    entryAt t.mem pd (getPdIndex (maskToPage w))=entryAt s.mem pd (getPdIndex (maskToPage w)) := by
  have hdir := ho.dirs pd hpd
  exact entryAt_congr (h.tables pd pd hdir.frame (.inl hdir.isDir)) ((getPdIndex_user hw).trans (by decide))

theorem procVmwrite_track (h : Backs L s live pd im n) (buf : List UInt8) (hv : v+buf.length≤userTop) :
    Track good (procVmwrite L pd v buf) s n 0 (fun _ t=>Backs L t live pd (im.write v buf) n) := by
  obtain ⟨fl,role,ho,hn⟩ := h.owned
  simp only [Track,procVmwrite,wp_bind,wp_isUsingKernelPageTables,wp_kassert ho.kernelTables]
  apply (vmwrite_user ho h.live buf (ho.kernel.userRange hv)).ensures.imp
  rintro r t ⟨-,hund,hwr⟩
  refine ⟨hwr.clean.extends,fun _=>?_,fun _=>hwr.clean⟩
  have hwl : ∀ w<userTop, walk t.mem pd w=walk s.mem pd w := fun w hw =>
    hund.walks pd h.live w (hw.trans (by decide))
  have hnn : ∀ w, im.write v buf w=none ↔ im w=none := fun _=>Image.write_eq_none buf
  have hby : ∀ w<userTop, im w≠none → im.write v buf w=some (t.mem (userByte s.mem pd w)) := by
    intro w hw hne
    have hpr := h.present w hw hne
    rw [Image.write]
    split
    · next hin =>
      obtain ⟨k,rfl⟩ := Nat.exists_eq_add_of_le hin.1
      have hls := hwr.last k (by omega) (fun l hl hkl heq=>?_)
      · rw [hls,h.byte hw hne,Nat.add_sub_cancel_left,map_some]
      · have := userByte_inj ho h.live (by omega) hw hpr heq
        omega
    · next hout =>
      rw [h.byte hw hne,hwr.outside _ (fun k hk heq=>hout ?_)]
      have := userByte_inj ho h.live (by omega) hw hpr heq
      omega
  refine ⟨⟨fl,role,hund.owned,hn⟩,h.live,fun w hw=>?_,fun w hw hw'=>?_,fun w hw hw'=>?_⟩
  · by_cases hne : im w=none
    · rw [(hnn w).mpr hne,userView_of_walk_zero ((hwl w hw).trans (h.absent w hw hne))]
    · obtain ⟨hpde,hmp⟩ := h.accessible hw hne
      rw [hby w hw hne,userView_of_accessible,userByte,userByte,hwl w hw]
      constructor
      · rw [pde_of_undisturbed hund h.live ho hw]
        exact hpde
      · rw [UserMapped,hwl w hw]
        exact hmp
  · rw [hwl w hw]
    exact h.absent w hw ((hnn w).mp hw')
  · rw [hwl w hw]
    exact h.present w hw (fun hc=>hw' ((hnn w).mpr hc))
end

end Yaos2.Process
