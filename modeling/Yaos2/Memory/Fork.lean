import Yaos2.Memory.UserCopy

/-! # Fork: a copy of user memory of its own -/
namespace Yaos2.Memory
open Foundation List Nat

variable (L : Layout)

/-- The address is not in the part of the address space that is shared with the kernel. -/
def IsUserAddress (m : Mem) (v : ℕ) : Prop :=
  v<2^32 ∧ isGlobal (entryAt m L.physKernelPd (getPdIndex (maskToPage v)))=false

def UserRange (m : Mem) (v n : ℕ) : Prop := ∀ k<n, IsUserAddress L m (v+k)

/-- A page table is present, and an entry in it is zero or maps a page. -/
structure Tidy (m : Mem) (pd : ℕ) : Prop where
  tables : ∀ i<pdLength, isGlobal (entryAt m L.physKernelPd i)=false →
    pteGetPaddr (entryAt m pd i)≠physNull → isPresent (entryAt m pd i)=true
  pages : ∀ v, IsUserAddress L m v →
    walk m pd v=0 ∨ isOwned (walk m pd v)=true ∧ pteGetPaddr (walk m pd v)≠physNull

/-- Operations on address spaces, and copies into user memory on behalf of processes. -/
inductive CopyStep : Spaces → Spaces → Prop
  | space {a b : Spaces} (op : SpaceOp) : SpaceStep L a op b → CopyStep a b
  | vmwrite {s t : Machine} {live held : List ℕ} {pd v : ℕ} {buf r : List UInt8} : pd ∈ live →
      UserRange L s.mem v buf.length → vmwrite L pd v buf s=.ok r t →
      CopyStep ⟨s,live,held⟩ ⟨t,live,held⟩

def CopyRun : Spaces → Spaces → Prop := Relation.ReflTransGen (CopyStep L)

/-- A frame of the part of an address space that is its own: the directory, a page table or a page. -/
def HasFrame (m : Mem) (pd q : ℕ) : Prop :=
  q=pd ∨ q≠physNull ∧ ((∃ i<pdLength, isGlobal (entryAt m L.physKernelPd i)=false ∧
    q=pteGetPaddr (entryAt m pd i)) ∨ ∃ v, IsUserAddress L m v ∧ q=pteGetPaddr (walk m pd v))

/-- `dst` maps what `src` maps, with the same contents on frames of its own. -/
structure Duplicated (s t : Machine) (src dst : ℕ) : Prop where
  entries : ∀ v, IsUserAddress L s.mem v → ∃ e e', pagingGetEntry L src v s=.ok e s ∧
    pagingGetEntry L src v t=.ok e t ∧ pagingGetEntry L dst v t=.ok e' t ∧
    isPresent e'=isPresent e ∧ pteGetFlags e'=pteGetFlags e ∧
    (isPresent e=true → ∀ o<pageSize, t.mem (pteGetPaddr e'+o)=t.mem (pteGetPaddr e+o))
  unchanged : ∀ q, HasFrame L s.mem src q → HasFrame L t.mem src q ∧ SameOn s.mem t.mem q pageSize
  unshared : ∀ q, HasFrame L t.mem src q → ¬ HasFrame L t.mem dst q

/-- What `vmwrite` puts at `v` through `pd` is not found by `vmread` at `v'` through `pd'`. -/
def Unnoticed (s : Machine) (pd v n pd' v' n' : ℕ) : Prop :=
  ∀ buf : List UInt8, buf.length=n → ∃ t r u u', vmwrite L pd v buf s=.ok buf t ∧
    vmread L pd' v' (List.replicate n' 0) s=.ok r u ∧
    vmread L pd' v' (List.replicate n' 0) t=.ok r u'

/-- Both ranges have an address that is not mapped, at the same offset in a page. -/
def MeetInPageZero (m : Mem) (pd v n pd' v' n' : ℕ) : Prop :=
  ∃ k<n, ∃ k'<n', isPresent (walk m pd (v+k))=false ∧ isPresent (walk m pd' (v'+k'))=false ∧
    (v+k)%pageSize=(v'+k')%pageSize

variable {L} {s t u : Machine} {fl fl' live live' : List ℕ} {role role' : ℕ → Role} {who : Option ℕ}
  {pd pd' src dst v n fuel : ℕ} {m m' : Mem} {buf : List UInt8}

section

theorem DirOk.walk_congr_user (h : DirOk L m role pd)
    (hm : ∀ p, IsFrame L p → (role p=.dir pd ∨ ∃ i, role p=.table pd i) → SameOn m m' p pageSize)
    (hv : IsUserAddress L m v) : walk m' pd v=walk m pd v := by
  have hi := getPdIndex_lt hv.1
  simp only [walk,entryAt_congr (hm pd h.frame (.inl h.isDir)) hi]
  split
  · rfl
  · next hnl =>
    obtain ⟨hf,hr⟩ := (h.tables _ hi hv.2).resolve_left hnl
    exact entryAt_congr (hm _ hf (.inr ⟨_,hr⟩)) (getPtIndex_lt _)

theorem IsUserAddress.congr (hk : SameOn m m' L.physKernelPd pageSize) :
    IsUserAddress L m' v ↔ IsUserAddress L m v := by
  refine and_congr_right (fun hv=>?_)
  rw [entryAt_congr hk (getPdIndex_lt hv)]

theorem Tidy.congr (h : Tidy L m pd) (hdir : DirOk L m role pd) (hk : SameOn m m' L.physKernelPd pageSize)
    (hm : ∀ p, IsFrame L p → (role p=.dir pd ∨ ∃ i, role p=.table pd i) → SameOn m m' p pageSize) :
    Tidy L m' pd := by
  refine ⟨fun i hi hg hne=>?_,fun v hv=>?_⟩
  · rw [entryAt_congr hk hi] at hg
    rw [entryAt_congr (hm pd hdir.frame (.inl hdir.isDir)) hi] at hne ⊢
    exact h.tables i hi hg hne
  · rw [IsUserAddress.congr hk] at hv
    rw [hdir.walk_congr_user hm hv]
    exact h.pages v hv

theorem Tidy.of_effect (h : Tidy L m pd) (hdir : DirOk L m role pd)
    (he : Effect L who role role' m m') (hne : some pd≠who) : Tidy L m' pd := by
  refine h.congr hdir he.kernelPd (fun p hp hr=>(he.foreign hp ?_ hne).2)
  rcases hr with hr | ⟨i,hr⟩ <;> rw [hr] <;> rfl

theorem tidy_of_null (h : ∀ i<pdLength, isGlobal (entryAt m L.physKernelPd i)=false →
    entryAt m pd i=0) : Tidy L m pd := by
  refine ⟨fun i hi hg hne=>?_,fun v hv=>.inl ?_⟩
  · rw [h i hi hg] at hne
    exact absurd pteGetPaddr_zero hne
  · rw [walk,h _ (getPdIndex_lt hv.1) hv.2,if_pos pteGetPaddr_zero]
    rfl

theorem isPresent_of_flags (h : pteGetFlags e=pteGetFlags e') :
    isPresent e=isPresent e' ∧ isOwned e=isOwned e' ∧ isUser e=isUser e' := by
  have hf : ∀ x, ∀ b<12, x.testBit b=(pteGetFlags x).testBit b := fun x b hb=>by
    rw [pteGetFlags_eq,show pageSize=2^12 from rfl,testBit_mod_two_pow,decide_eq_true hb,Bool.true_and]
  have hbit : ∀ b<12, e.testBit b=e'.testBit b := fun b hb=>by
    rw [hf e b hb,hf e' b hb,h]
  have hp : isPresent e=isPresent e' := by rw [isPresent_eq,isPresent_eq,hbit 0 (by decide)]
  exact ⟨hp,by rw [isOwned,isOwned,hp,isGlobal_eq,isGlobal_eq,hbit 8 (by decide)],
    by rw [isUser_eq,isUser_eq,hbit 2 (by decide)]⟩

theorem Tidy.isOwned_pde (h : Tidy L m pd) (hdir : DirOk L m role pd) (hi : i<pdLength)
    (hg : isGlobal (entryAt m L.physKernelPd i)=false)
    (hne : pteGetPaddr (entryAt m pd i)≠physNull) : isOwned (entryAt m pd i)=true := by
  rw [isOwned,h.tables i hi hg hne,hdir.own i hi hg]
  rfl
end

section
variable (h : Owned L s fl live role) (hsrc : src ∈ live) (hdst : dst ∈ live)
include h hsrc hdst
section
variable (hsp : Spares L role role' s.mem t.mem dst 0 pdLength)
  (hcp : ∀ i<pdLength, DirEntryCopied s.mem s.mem t.mem src dst i)
include hsp hcp
theorem walk_of_copied (hv : IsUserAddress L s.mem v) :
    if isOwned (entryAt s.mem src (getPdIndex (maskToPage v))) then
      PageCopied s.mem t.mem (walk s.mem src v) 0 (walk t.mem dst v)
    else walk t.mem dst v=walk s.mem dst v := by
  have hi := getPdIndex_lt hv.1
  have hen := hcp _ hi
  rw [DirEntryCopied] at hen
  split
  · next hown =>
    rw [if_pos hown] at hen
    obtain ⟨hne,-,htab⟩ := hen
    have hsne := (h.owned_entry hsrc hi hown).2.2.2
    have hpg := htab _ (getPtIndex_lt (maskToPage v))
    rw [entryAt_zeroed (m := fun _=>0) (fun _ _=>rfl) (getPtIndex_lt _)] at hpg
    rwa [walk,walk,if_neg hsne,if_neg hne]
  · next hown =>
    rw [if_neg hown] at hen
    have hdd := h.dirs dst hdst
    rw [walk,walk,hen]
    split
    · rfl
    · next hne =>
      obtain ⟨hf,hr⟩ := (hdd.tables _ hi hv.2).resolve_left hne
      refine entryAt_congr (hsp.same _ hf (by rw [hr]; simp) (fun hc=>?_)) (getPtIndex_lt _)
      rw [hc,hdd.isDir] at hr
      cases hr

theorem Tidy.of_copied (hc : Copying L live dst s fl role used t fl' role') (hd : Tidy L s.mem dst) : Tidy L t.mem dst := by
  refine ⟨fun i hi hg hne=>?_,fun v hv=>?_⟩
  · rw [entryAt_congr hc.effect.kernelPd hi] at hg
    have hen := hcp i hi
    rw [DirEntryCopied] at hen
    split at hen
    · next hown =>
      rw [(isPresent_of_flags hen.2.1).1]
      exact (h.owned_entry hsrc hi hown).1
    · rw [hen] at hne ⊢
      exact hd.tables i hi hg hne
  · rw [IsUserAddress.congr hc.effect.kernelPd] at hv
    have hwl := walk_of_copied h hsrc hdst hsp hcp hv
    split at hwl
    · rw [PageCopied] at hwl
      split at hwl
      · next hown =>
        exact .inr ⟨(isPresent_of_flags hwl.2.1).2.1.trans hown,hwl.1⟩
      · exact .inl hwl
    · rw [hwl]
      exact hd.pages v hv
end

end

section

section
variable (h : Owned L s fl live role) (hpd : pd ∈ live) (hv : IsUserAddress L s.mem v)
include h hpd hv
theorem Owned.user_target :
    pteGetPaddr (walk s.mem pd v)=physNull ∨ ∃ i j, IsFrame L (pteGetPaddr (walk s.mem pd v)) ∧
      role (pteGetPaddr (walk s.mem pd v))=.page pd i j := by
  exact (h.target hpd hv.1 hv.2).imp id (fun hs=>⟨_,_,hs⟩)

theorem Owned.not_stops (write : Bool) : ¬ Stops L write s.mem pd v := by
  rcases h.user_target hpd hv with h0 | ⟨i,j,hf,-⟩
  · exact not_stops_of_null h0 write
  · simp [Stops,hf.isTable.static,hf.isTable.writable _ (mod_lt v (by decide))]
end

theorem nextPage_eq (hv : v+n≤2^32) (hn : batchOf v n<n) : nextPage v=v+batchOf v n := by
  have hmod : v%pageSize<pageSize := mod_lt v (by decide)
  have hm := mask_add_mod v
  rw [batchOf,sub_maskToPage] at *
  rw [nextPage]
  simp only [pageSize] at *
  omega

/-- The paging structures of all address spaces are as they were. -/
structure Undisturbed (L : Layout) (s t : Machine) (fl live : List ℕ) (role : ℕ → Role) : Prop where
  owned : Owned L t fl live role
  kernelPd : SameOn s.mem t.mem L.physKernelPd pageSize
  walks : ∀ q ∈ live, ∀ w<2^32, walk t.mem q w=walk s.mem q w
  tables : ∀ q p, IsFrame L p → (role p=.dir q ∨ ∃ i, role p=.table q i) → SameOn s.mem t.mem p pageSize

theorem Undisturbed.refl (h : Owned L s fl live role) : Undisturbed L s s fl live role :=
  ⟨h,fun _ _ _=>rfl,fun _ _ _ _=>rfl,fun _ _ _ _ _ _ _=>rfl⟩

theorem Undisturbed.trans (h : Undisturbed L s t fl live role) (h' : Undisturbed L t u fl live role) :
    Undisturbed L s u fl live role :=
  ⟨h'.owned,fun x hx hx'=>(h'.kernelPd x hx hx').trans (h.kernelPd x hx hx'),
    fun q hq w hw=>(h'.walks q hq w hw).trans (h.walks q hq w hw),
    fun q p hp hr x hx hx'=>(h'.tables q p hp hr x hx hx').trans (h.tables q p hp hr x hx hx')⟩

theorem Undisturbed.userRange (h : Undisturbed L s t fl live role) :
    UserRange L t.mem v n ↔ UserRange L s.mem v n :=
  forall₂_congr (fun _ _=>IsUserAddress.congr h.kernelPd)

theorem Owned.exchanged_user (h : Owned L s fl live role) (hpd : pd ∈ live) (hv : IsUserAddress L s.mem v)
    (hlen : v%pageSize+buf.length≤pageSize) (write : Bool) :
    Undisturbed L s (exchanged s write v (userByte s.mem pd v) buf) fl live role := by
  have hpg : ∀ x, (exchanged s write v (userByte s.mem pd v) buf).mem x≠s.mem x → x<pageSize ∨
      ∃ p i j, IsFrame L p ∧ role p=.page pd i j ∧ p≤x ∧ x<p+pageSize := by
    intro x hx
    obtain ⟨h1,h2⟩ := exchanged_mem_ne hx
    rcases h.user_target hpd hv with h0 | ⟨i,j,hf,hrl⟩
    · refine .inl ?_
      rw [userByte,h0,show physNull=0 from rfl] at h2
      omega
    · refine .inr ⟨_,i,j,hf,hrl,?_⟩
      rw [userByte] at h1 h2
      omega
  obtain ⟨ho,he,hwl,htb⟩ := h.pageWrite
    (t := exchanged s write v (userByte s.mem pd v) buf) rfl rfl rfl hpg
  exact ⟨ho,he.kernelPd,hwl,htb⟩

/-- The bytes at the addresses of the request come from the buffer, the last one where two meet. -/
structure Written (s t : Machine) (pd v : ℕ) (buf : List UInt8) : Prop where
  outside : ∀ x, (∀ k<buf.length, userByte s.mem pd (v+k)≠x) → t.mem x=s.mem x
  inside : ∀ k<buf.length, t.mem (userByte s.mem pd (v+k)) ∈ buf
  last : ∀ k<buf.length, (∀ l<buf.length, k<l → userByte s.mem pd (v+l)≠userByte s.mem pd (v+k)) →
    t.mem (userByte s.mem pd (v+k))=buf.getD k 0
  clean : Clean s t

theorem clean_exchanged (s : Machine) (write : Bool) (v a : ℕ) (part : List UInt8) :
    Clean s (exchanged s write v a part) :=
  ⟨[.copy v a part.length],rfl,by simp [NullPresent]⟩

theorem Written.of_share (hv : v+buf.length≤2^32) (hpos : 0<buf.length)
    (hwl : ∀ w<2^32, walk u.mem pd w=walk s.mem pd w)
    (hu : u=exchanged s true v (userByte s.mem pd v) (buf.take (batchOf v buf.length)))
    (h : Written u t pd (v+batchOf v buf.length) (buf.drop (batchOf v buf.length))) :
    Written s t pd v buf := by
  obtain ⟨hble,hbp⟩ := batchOf_le (v := v) (n := buf.length)
  have hlen := length_take_batchOf v buf
  have hby : ∀ w<2^32, userByte u.mem pd w=userByte s.mem pd w := fun w hw=>by
    rw [userByte,userByte,hwl w hw]
  have hadd : ∀ k<batchOf v buf.length, userByte s.mem pd (v+k)=userByte s.mem pd v+k :=
    fun k hk=>(userByte_add _ _ (by omega)).2
  -- after the share itself
  have hout : ∀ x, (∀ k<batchOf v buf.length, userByte s.mem pd (v+k)≠x) → u.mem x=s.mem x := by
    intro x hx
    refine not_not.mp (fun hc=>?_)
    obtain ⟨h1,h2⟩ := exchanged_mem_ne (hu▸hc)
    obtain ⟨k,rfl⟩ := Nat.exists_eq_add_of_le h1
    exact hx k (by omega) (hadd k (by omega))
  have hin : ∀ k<batchOf v buf.length, u.mem (userByte s.mem pd (v+k))=buf.getD k 0 := by
    intro k hk
    rw [hu,hadd k hk]
    simp only [exchanged,if_true,blit,hlen]
    rw [if_pos (by omega),Nat.add_sub_cancel_left,getD_eq_getElem _ _ (by omega),getElem_take,
      getD_eq_getElem _ _ (by omega)]
  have hdr : (buf.drop (batchOf v buf.length)).length=buf.length-batchOf v buf.length := length_drop
  refine ⟨fun x hx=>?_,fun k hk=>?_,fun k hk hls=>?_,Clean.trans (hu▸clean_exchanged ..) h.clean⟩
  · refine (h.outside x (fun k hk=>?_)).trans (hout x (fun k hk=>hx k (by omega)))
    rw [hby _ (by omega),add_assoc]
    exact hx _ (by omega)
  · by_cases hlr : ∃ l<(buf.drop (batchOf v buf.length)).length,
        userByte u.mem pd (v+batchOf v buf.length+l)=userByte s.mem pd (v+k)
    · obtain ⟨l,hl,hlk⟩ := hlr
      rw [← hlk]
      exact mem_of_mem_drop (h.inside l hl)
    · have hkb : k<batchOf v buf.length := by
        by_contra hc
        refine hlr ⟨k-batchOf v buf.length,by omega,?_⟩
        rw [hby _ (by omega),add_assoc,add_sub_of_le (by omega)]
      rw [h.outside _ (fun l hl hc=>hlr ⟨l,hl,hc⟩),hin k hkb,getD_eq_getElem _ _ hk]
      exact getElem_mem _
  · by_cases hkb : k<batchOf v buf.length
    · refine (h.outside _ (fun l hl=>?_)).trans (hin k hkb)
      rw [hby _ (by omega),add_assoc]
      exact hls _ (by omega) (by omega)
    · obtain ⟨j,rfl⟩ := Nat.exists_eq_add_of_le (not_lt.mp hkb)
      have hj := h.last j (by omega) (fun l hl hlt=>?_)
      · rw [hby _ (by omega),add_assoc] at hj
        rw [hj,getD_eq_getElem?_getD,List.getElem?_drop,← getD_eq_getElem?_getD]
      · rw [hby _ (by omega),hby _ (by omega),add_assoc,add_assoc]
        exact hls _ (by omega) (by omega)

/-- The bytes at `n` addresses from `v` on, as the directory maps them. -/
def userBytes (m : Mem) (pd v n : ℕ) : List UInt8 := (List.range n).map (fun k=>m (userByte m pd (v+k)))

theorem length_userBytes : (userBytes m pd v n).length=n := by rw [userBytes,length_map,length_range]

theorem getD_userBytes (h : k<n) : (userBytes m pd v n).getD k 0=m (userByte m pd (v+k)) := by
  rw [getD_eq_getElem _ _ (by rwa [length_userBytes])]
  simp [userBytes]

theorem userBytes_add (m : Mem) (pd v a b : ℕ) :
    userBytes m pd v (a+b)=userBytes m pd v a++userBytes m pd (v+a) b := by
  simp [userBytes,range_add,add_assoc]

theorem userBytes_share : userBytes m pd v n=bytes m (userByte m pd v) (batchOf v n) ++
    userBytes m pd (v+batchOf v n) (n-batchOf v n) := by
  obtain ⟨hble,hb⟩ := batchOf_le (v := v) (n := n)
  have hs : userBytes m pd v (batchOf v n)=bytes m (userByte m pd v) (batchOf v n) :=
    map_congr_left (fun k hk=>by rw [(userByte_add _ _ (by have := mem_range.mp hk; omega)).2])
  rw [← hs,← userBytes_add,add_sub_of_le hble]

theorem vmxchgLoop_nil (write : Bool) : vmxchgLoop L pd write fuel v []=pure [] := by cases fuel <;> rfl

/-- What the loop has done, and what is in the buffer after it. -/
def Exchanged (write : Bool) (s t : Machine) (pd v : ℕ) (buf r : List UInt8) : Prop :=
  if write then r=buf ∧ Written s t pd v buf
  else r=userBytes s.mem pd v buf.length ∧ t.mem=s.mem ∧ t.env=s.env

theorem Exchanged.nil (write : Bool) (s : Machine) : Exchanged write s s pd v [] [] := by
  cases write with
  | false => exact ⟨rfl,rfl,rfl⟩
  | true => exact ⟨rfl,fun _ _=>rfl,by simp,by simp,.of_eq rfl⟩

theorem Exchanged.of_share (hv : v+buf.length≤2^32) (hpos : 0<buf.length)
    (hwl : ∀ w<2^32, walk u.mem pd w=walk s.mem pd w)
    (hu : u=exchanged s write v (userByte s.mem pd v) (buf.take (batchOf v buf.length)))
    (h : Exchanged write u t pd (v+batchOf v buf.length) (buf.drop (batchOf v buf.length)) r) :
    Exchanged write s t pd v buf ((if write then buf.take (batchOf v buf.length) else
      bytes s.mem (userByte s.mem pd v) (batchOf v buf.length))++r) := by
  cases write with
  | false =>
    obtain ⟨rfl,hmem,henv⟩ := h
    subst hu
    refine ⟨?_,hmem,henv⟩
    rw [userBytes_share (n := buf.length),length_drop]
    rfl
  | true =>
    obtain ⟨rfl,hwr⟩ := h
    exact ⟨take_append_drop _ _,hwr.of_share hv hpos hwl hu⟩

/-- Copying through `pd` at `A` does not panic while `I` holds, and keeps it. -/
structure Copies (L : Layout) (pd : ℕ) (write : Bool) (I : Machine → Prop) (A : ℕ → Prop) : Prop where
  kernelTables : ∀ {s}, I s → s.env.isUsingKernelPageTables L=true
  lookup : ∀ {s w}, I s → A w → pagingGetEntry L pd w s=.ok (walk s.mem pd w) s
  goesOn : ∀ {s w}, I s → A w → ¬ Stops L write s.mem pd w
  share : ∀ {s w} {part : List UInt8}, I s → A w → w%pageSize+part.length≤pageSize →
    I (exchanged s write w (userByte s.mem pd w) part) ∧
      ∀ x<2^32, walk (exchanged s write w (userByte s.mem pd w) part).mem pd x=walk s.mem pd x

theorem Copies.loop (h : Copies L pd write I A) (hs : I s)
    (hv : v+buf.length≤2^32) (hA : ∀ k<buf.length, A (v+k)) (hfl : buf.length≤fuel) :
    Returns (vmxchgLoop L pd write fuel v buf) s (fun r t=>I t ∧ Exchanged write s t pd v buf r) := by
  induction fuel generalizing s v buf with
  | zero =>
    have hnil : buf=[] := length_eq_zero_iff.mp (by omega)
    rw [hnil,vmxchgLoop_nil,Returns,wp_pure]
    exact ⟨hs,.nil write s⟩
  | succ fuel ih =>
    by_cases hpos : 0<buf.length
    · have hlen := length_take_batchOf v buf
      have hbp := batchOf_pos (v := v) hpos
      have hle := batchOf_le (v := v) (n := buf.length)
      have hdr : (buf.drop (batchOf v buf.length)).length=buf.length-batchOf v buf.length := length_drop
      have hst := hA 0 hpos
      obtain ⟨hI,hwl⟩ := h.share hs hst (hlen.symm▸hle.2)
      refine wp_round (h.kernelTables hs) (h.lookup hs hst) hpos
        (fun hsp=>h.goesOn hs hst hsp) (fun _=>?_)
      generalize hu : exchanged s write v (userByte s.mem pd v) (buf.take (batchOf v buf.length))=u at *
      have hrs : Returns (vmxchgLoop L pd write fuel (nextPage v) (buf.drop (batchOf v buf.length))) u
          (fun r t=>I t ∧ Exchanged write u t pd (v+batchOf v buf.length) (buf.drop (batchOf v buf.length)) r) := by
        by_cases hmr : batchOf v buf.length<buf.length
        · rw [nextPage_eq hv hmr]
          refine ih hI (by omega) (fun k hk=>?_) (by omega)
          rw [add_assoc]
          exact hA _ (by omega)
        · have hnil : buf.drop (batchOf v buf.length)=[] := drop_eq_nil_of_le (by omega)
          rw [hnil,vmxchgLoop_nil,Returns,wp_pure]
          exact ⟨hI,.nil write u⟩
      rw [wp_bind]
      apply hrs.imp
      rintro r t ⟨ht,hex⟩
      rw [wp_pure]
      exact ⟨ht,hex.of_share hv hpos hwl hu.symm⟩
    · have hnil : buf=[] := length_eq_zero_iff.mp (by omega)
      rw [hnil,vmxchgLoop_nil,Returns,wp_pure]
      exact ⟨hs,.nil write s⟩

theorem UserRange.le (h : UserRange L m v n) (hn : 0<n) : v+n≤2^32 := by
  have hl := (h (n-1) (by omega)).1
  omega

theorem copies_undisturbed (hpd : pd ∈ live) (write : Bool) :
    Copies L pd write (Undisturbed L s · fl live role) (IsUserAddress L s.mem) where
  kernelTables hu := hu.owned.kernelTables
  lookup hu hw := hu.owned.lookup hpd hw.1
  goesOn hu hw := hu.owned.not_stops hpd ((IsUserAddress.congr hu.kernelPd).mpr hw) write
  share hu hw hle := by
    have hs := hu.owned.exchanged_user hpd ((IsUserAddress.congr hu.kernelPd).mpr hw) hle write
    exact ⟨hu.trans hs,hs.walks pd hpd⟩

section
variable (h : Owned L s fl live role) (hpd : pd ∈ live)
include h hpd
theorem vmxchgLoop_user (write : Bool) (buf : List UInt8) (hr : UserRange L s.mem v buf.length) :
    Returns (vmxchgLoop L pd write buf.length v buf) s (fun r t=>Undisturbed L s t fl live role ∧
      Exchanged write s t pd v buf r) := by
  by_cases hpos : 0<buf.length
  · exact (copies_undisturbed hpd write).loop (.refl h) (hr.le hpos) hr le_rfl
  · have hnil : buf=[] := length_eq_zero_iff.mp (by omega)
    rw [hnil,vmxchgLoop_nil,Returns,wp_pure]
    exact ⟨.refl h,.nil write s⟩

theorem vmwrite_user (buf : List UInt8) (hr : UserRange L s.mem v buf.length) :
    Returns (vmwrite L pd v buf) s (fun r t=>r=buf ∧ Undisturbed L s t fl live role ∧
      Written s t pd v buf) := by
  simp only [vmwrite,vmxchg,Returns,wp_bind,wp_isUsingKernelPageTables,wp_kassert h.kernelTables]
  exact (vmxchgLoop_user h hpd true buf hr).imp fun _ _ ht=>⟨ht.2.1,ht.1,ht.2.2⟩

theorem vmread_user (buf : List UInt8) (hr : UserRange L s.mem v buf.length) :
    Returns (vmread L pd v buf) s (fun r _=>r=userBytes s.mem pd v buf.length) := by
  simp only [vmread,vmxchg,Returns,wp_bind,wp_isUsingKernelPageTables,wp_kassert h.kernelTables]
  exact (vmxchgLoop_user h hpd false buf hr).imp fun _ _ ht=>ht.2.1
end

end

section
variable {a b : Spaces}

theorem SpaceStep.tidy (hst : SpaceStep L a op b) (h : SpacesInv L a fl role)
    (htd : ∀ pd ∈ a.live, Tidy L a.machine.mem pd) : ∀ pd ∈ b.live, Tidy L b.machine.mem pd := by
  -- a directory that the operation is not performed on
  have hot : (∀ v p, op≠.kpMap v p) → ∀ pd ∈ a.live, some pd≠op.space → Tidy L b.machine.mem pd := by
    intro hop pd hpd hne
    obtain ⟨_,_,-,heff⟩ := hst.spec h
    obtain ⟨-,role0,_,ho,he⟩ := heff hop
    exact (htd pd hpd).of_effect (ho.dirs pd hpd) he hne
  obtain ⟨ho,hkp,-⟩ := h
  intro pd hpd
  cases hst with
  | palloc _ _ => exact hot (fun _ _ h=>by cases h) pd hpd (Option.some_ne_none pd)
  | @kpMap s t live held v p hv hp hok =>
    obtain ⟨hv,hv'⟩ := Layout.dynamicRegion_containsV.mp hv
    obtain ⟨-,ht,hm,-⟩ := (kpMap_spec ho hv hv' hp).of_ok hok
    refine (htd pd hpd).congr (ho.dirs pd hpd) (fun x hx hx'=>?_) (fun q hq _ x hx hx'=>?_)
    · exact not_not.mp (fun hc=>by have := hm x hc; omega)
    · exact not_not.mp (fun hc=>by have := hm x hc; have := hq.bounds; omega)
  | @allocDir s t live held new hok =>
    by_cases hnew : pd=new
    · subst hnew
      obtain ⟨rest,role',-,ht,he,-,hnl⟩ := (pagingAllocDir_spec ho).of_ok hok
      refine tidy_of_null (fun i hi hg=>hnl i hi ?_)
      rwa [entryAt_congr he.kernelPd hi] at hg
    · exact hot (fun _ _ h=>by cases h) pd ((mem_cons.mp hpd).resolve_left hnew) (fun hc=>hnew (Option.some.inj hc))
  | @map s t live held at_ v p flags hat hp hv hfl hg hok =>
    by_cases hpp : pd=at_
    · subst hpp
      obtain ⟨hf,hr⟩ := hkp p hp
      obtain ⟨-,-,-,role',ht,he,hwl,-,-,hrs,hps,hfg,-⟩ := (pagingMap_spec (ho.takeKept hr) hat hv
        hfl (.inr ⟨hf,Function.update_self ..⟩)).of_ok hok
      have hb := hf.bounds
      obtain ⟨-,-,had⟩ := pteConstruct_frame hf.aligned (by omega) (or_present_lt hfl)
      have hgf : isGlobal (flags ||| pageBitPresent)=false := isGlobal_or hg (by decide)
      refine ⟨fun i hi hgi hne=>?_,fun w hw=>?_⟩
      · by_cases hii : i=getPdIndex (maskToPage v)
        · rw [hii,isPresent_eq]
          exact hfg 0 (isPresent_or_present flags)
        · rw [entryAt_congr he.kernelPd hi] at hgi
          rw [hps i hi hii] at hne ⊢
          exact (htd pd hpd).tables i hi hgi hne
      · rw [IsUserAddress.congr he.kernelPd] at hw
        by_cases hpg : maskToPage w=maskToPage v
        · refine .inr ?_
          rw [walk_page hpg,hwl,had,isOwned,isGlobal_pteConstruct,hgf,isPresent_eq,
            testBit_pteConstruct _ _ (by decide),isPresent_or_present]
          exact ⟨rfl,hf.ne_zero⟩
        · rw [hrs w hw.1 hpg]
          exact (htd pd hpd).pages w hw
    · exact hot (fun _ _ h=>by cases h) pd hpd (fun hc=>hpp (Option.some.inj hc))
  | @dup s t live held dst src hdst hsrc hne hcs hok =>
    by_cases hpp : pd=dst
    · subst hpp
      rcases (vmdup_spec ho hsrc hdst hne).of_ok hok with ⟨fl',role',hc,hsp,hcp⟩ | hout
      · exact (htd pd hpd).of_copied ho hsrc hdst hsp hcp hc
      · have hlt : fl.length<dupCost s.mem src := hout.2
        have hrem : s.remainingPages=fl.length := ho.list.remaining
        omega
    · exact hot (fun _ _ h=>by cases h) pd hpd (fun hc=>hpp (Option.some.inj hc))
  | @freeDir s t live held gone hgn hok =>
    obtain ⟨hin,hne⟩ := mem_filter.mp hpd
    exact hot (fun _ _ h=>by cases h) pd hin (fun hc=>of_decide_eq_true hne (Option.some.inj hc))
  | @user s live held at_ m hat hm =>
    obtain ⟨ht,he,-,htb⟩ := ho.userWrite (t := {s with mem := m}) hat rfl rfl rfl hm
    exact (htd pd hpd).congr (ho.dirs pd hpd) he.kernelPd (htb pd)

/-- The invariant of the runs: ownership, and tidiness of every directory in use. -/
def CopyInv (L : Layout) (a : Spaces) (fl : List ℕ) (role : ℕ → Role) : Prop :=
  SpacesInv L a fl role ∧ ∀ pd ∈ a.live, Tidy L a.machine.mem pd

theorem CopyStep.inv (hst : CopyStep L a b) (h : CopyInv L a fl role) :
    ∃ fl' role', CopyInv L b fl' role' := by
  obtain ⟨hinv,htd⟩ := h
  cases hst with
  | space op hst =>
    obtain ⟨fl',role',hb,-⟩ := hst.spec hinv
    exact ⟨fl',role',hb,hst.tidy hinv htd⟩
  | @vmwrite s t live held pd v buf r hpd hr hok =>
    obtain ⟨-,hund,-⟩ := (vmwrite_user hinv.owned hpd buf hr).of_ok hok
    exact ⟨fl,role,⟨hund.owned,hinv.kept,hinv.nodup⟩,fun q hq =>
      (htd q hq).congr (hinv.owned.dirs q hq) hund.kernelPd (hund.tables q)⟩

theorem CopyRun.inv (hrun : CopyRun L a b) (h : CopyInv L a fl role) :
    ∃ fl' role', CopyInv L b fl' role' := by
  apply Reaches.invariant (I := fun c=>∃ fl role, CopyInv L c fl role) hrun ⟨fl,role,h⟩
  rintro c d ⟨fl,role,hc⟩ hs
  exact hs.inv hc

theorem SpacesStart.copyInv (h : SpacesStart L a) : ∃ fl, CopyInv L a fl (fun _=>.free) := by
  obtain ⟨fl,hinv⟩ := h.inv
  exact ⟨fl,hinv,by simp [h.live]⟩
end

section
variable {v' n' w w' q : ℕ}

theorem Tidy.absent_iff (h : Tidy L m pd) (hv : IsUserAddress L m v) :
    isPresent (walk m pd v)=false ↔ pteGetPaddr (walk m pd v)=physNull := by
  rcases h.pages v hv with h0 | ⟨hown,hne⟩
  · rw [h0]
    exact iff_of_true isPresent_zero pteGetPaddr_zero
  · have hp : isPresent (walk m pd v)=true := by
      rw [isOwned,Bool.and_eq_true] at hown
      exact hown.1
    rw [hp]
    exact iff_of_false Bool.true_eq_false_eq_False hne

theorem Owned.userByte_eq (h : Owned L s fl live role) (hpd : pd ∈ live) (hpd' : pd' ∈ live)
    (hne : pd≠pd') (hv : IsUserAddress L s.mem w) (hv' : IsUserAddress L s.mem w')
    (heq : userByte s.mem pd w=userByte s.mem pd' w') :
    pteGetPaddr (walk s.mem pd w)=physNull ∧ pteGetPaddr (walk s.mem pd' w')=physNull ∧
      w%pageSize=w'%pageSize := by
  obtain ⟨hpg,hoff⟩ := userByte_eq_iff.mp heq
  have hnl : pteGetPaddr (walk s.mem pd w)=physNull := by
    rcases h.user_target hpd hv with h0 | ⟨i,j,-,hr⟩
    · exact h0
    · rcases h.user_target hpd' hv' with h0 | ⟨i',j',-,hr'⟩
      · exact hpg.trans h0
      · simp_all
  exact ⟨hnl,hpg.symm.trans hnl,hoff⟩

theorem userByte_of_null (h : pteGetPaddr (walk m pd v)=physNull) : userByte m pd v=v%pageSize := by
  rw [userByte,h]
  exact zero_add _

theorem Owned.unnoticed_iff (h : Owned L s fl live role) (hpd : pd ∈ live) (hpd' : pd' ∈ live)
    (hne : pd≠pd') (ht : Tidy L s.mem pd) (ht' : Tidy L s.mem pd') (hr : UserRange L s.mem v n)
    (hr' : UserRange L s.mem v' n') :
    Unnoticed L s pd v n pd' v' n' ↔ ¬ MeetInPageZero s.mem pd v n pd' v' n' := by
  have hrd : ∀ {u : Machine}, Undisturbed L s u fl live role →
      ∃ u', vmread L pd' v' (List.replicate n' 0) u=.ok (userBytes u.mem pd' v' n') u' := by
    intro u hu
    have hru : UserRange L u.mem v' (List.replicate n' (0 : UInt8)).length := by
      rw [length_replicate]
      exact hu.userRange.mpr hr'
    obtain ⟨r,u',hok,rfl⟩ := (vmread_user hu.owned hpd' _ hru).exists_ok
    rw [length_replicate] at hok
    exact ⟨u',hok⟩
  have hby : ∀ {u : Machine}, Undisturbed L s u fl live role → ∀ k<n',
      userByte u.mem pd' (v'+k)=userByte s.mem pd' (v'+k) := fun hu k hk=>by
    rw [userByte,userByte,hu.walks pd' hpd' _ (hr' k hk).1]
  constructor
  · rintro hun ⟨k,hk,k',hk',hp,hp',hoff⟩
    have hx := userByte_of_null ((ht.absent_iff (hr k hk)).mp hp)
    have hx' := (userByte_of_null ((ht'.absent_iff (hr' k' hk')).mp hp')).trans hoff.symm
    -- a byte other than the one that is there
    obtain ⟨t,r,u,u',hw,hs,hr2⟩ := hun (List.replicate n (s.mem ((v+k)%pageSize)+1))
      length_replicate
    obtain ⟨-,hund,hwr⟩ := (vmwrite_user h hpd _ (by rwa [length_replicate])).of_ok hw
    obtain ⟨u1,hs'⟩ := hrd (.refl h)
    obtain ⟨u2,hr2'⟩ := hrd hund
    rw [hs] at hs'
    rw [hr2] at hr2'
    injection hs' with hs' _
    injection hr2' with hr2' _
    have hls := congrArg (fun l=>l[k']?) (hs'.symm.trans hr2')
    have hnew : t.mem ((v+k)%pageSize)=s.mem ((v+k)%pageSize)+1 := by
      have hin := hwr.inside k (by rwa [length_replicate])
      rw [hx] at hin
      exact eq_of_mem_replicate hin
    have hold : s.mem ((v+k)%pageSize)=t.mem ((v+k)%pageSize) := by
      simpa [userBytes,hk',hby hund k' hk',hx'] using hls
    rw [hnew] at hold
    have hcn := congrArg UInt8.toNat hold
    rw [UInt8.toNat_add] at hcn
    have := (s.mem ((v+k)%pageSize)).toNat_lt
    simp at hcn
    omega
  · intro hno buf hlen
    subst hlen
    obtain ⟨r,t,hw,rfl,hund,hwr⟩ := (vmwrite_user h hpd buf hr).exists_ok
    obtain ⟨u,hs⟩ := hrd (.refl h)
    obtain ⟨u',ht2⟩ := hrd hund
    refine ⟨t,userBytes s.mem pd' v' n',u,u',hw,hs,?_⟩
    have hsm : userBytes t.mem pd' v' n'=userBytes s.mem pd' v' n' := by
      refine map_congr_left (fun k' hk'=>?_)
      have hlt := mem_range.mp hk'
      rw [hby hund k' hlt]
      refine hwr.outside _ (fun k hk hc=>hno ⟨k,hk,k',hlt,?_⟩)
      obtain ⟨h1,h2,h3⟩ := h.userByte_eq hpd hpd' hne (hr k hk) (hr' k' hlt) hc
      exact ⟨(ht.absent_iff (hr k hk)).mpr h1,(ht'.absent_iff (hr' k' hlt)).mpr h2,h3⟩
    rwa [hsm] at ht2
end

section
variable {a b : Spaces} {q : ℕ}

theorem HasFrame.owner (hq : HasFrame L s.mem pd q) (h : Owned L s fl live role) (hpd : pd ∈ live) :
    IsFrame L q ∧ (role q).owner=some pd := by
  have hdir := h.dirs pd hpd
  rcases hq with rfl | ⟨hne,⟨i,hi,hg,rfl⟩ | ⟨v,hv,rfl⟩⟩
  · exact ⟨hdir.frame,by rw [hdir.isDir]; rfl⟩
  · obtain ⟨hf,hr⟩ := (hdir.tables i hi hg).resolve_left hne
    exact ⟨hf,by rw [hr]; rfl⟩
  · obtain ⟨i,j,hf,hr⟩ := (h.user_target hpd hv).resolve_left hne
    exact ⟨hf,by rw [hr]; rfl⟩

theorem duplicated_of_copied (h : Owned L s fl live role) (hsrc : src ∈ live)
    (hdst : dst ∈ live) (hne : src≠dst) (htd : Tidy L s.mem src)
    (hnl : ∀ v, IsUserAddress L s.mem v → walk s.mem dst v=0)
    (hc : Copying L live dst s fl role used t fl' role')
    (hsp : Spares L role role' s.mem t.mem dst 0 pdLength)
    (hcy : ∀ i<pdLength, DirEntryCopied s.mem s.mem t.mem src dst i) :
    Duplicated L s t src dst := by
  have hsd := h.dirs src hsrc
  have hfr : some src≠some dst := fun hc=>hne (Option.some.inj hc)
  have hwl : ∀ v<2^32, walk t.mem src v=walk s.mem src v := fun v hv =>
    hsd.walk_of_effect h.kernel hc.effect hfr hv
  have hpg : ∀ v, IsUserAddress L s.mem v →
      PageCopied s.mem t.mem (walk s.mem src v) 0 (walk t.mem dst v) := by
    intro v hv
    have hw := walk_of_copied h hsrc hdst hsp hcy hv
    split at hw
    · exact hw
    · -- no page table to copy, so nothing is mapped there
      next hown =>
      have h0 := not_not.mp (fun h0=>hown (htd.isOwned_pde hsd (getPdIndex_lt hv.1) hv.2 h0))
      rw [PageCopied,walk,if_pos h0,hw,hnl v hv]
      rfl
  have hsm : ∀ q, HasFrame L s.mem src q → SameOn s.mem t.mem q pageSize := fun q hq =>
    (hc.effect.foreign (hq.owner h hsrc).1 (hq.owner h hsrc).2 hfr).2
  refine ⟨fun v hv=>⟨walk s.mem src v,walk t.mem dst v,h.lookup hsrc hv.1,?_,
    hc.owned.lookup hdst hv.1,?_⟩,fun q hq=>⟨?_,hsm q hq⟩,fun q hq hq'=>?_⟩
  · rw [hc.owned.lookup hsrc hv.1,hwl v hv.1]
  · have hcp := hpg v hv
    rw [PageCopied] at hcp
    rcases htd.pages v hv with h0 | ⟨hown,had⟩
    · simp_all [isOwned]
    · rw [if_pos hown] at hcp
      obtain ⟨-,hfl,hcn⟩ := hcp
      refine ⟨(isPresent_of_flags hfl).1,hfl,fun _ o ho=>?_⟩
      rw [hcn had o ho]
      exact (hsm _ (.inr ⟨had,.inr ⟨v,hv,rfl⟩⟩) _ (by omega) (by omega)).symm
  · have hk := hc.effect.kernelPd
    have hdirSame := hsm src (.inl rfl)
    rcases hq with rfl | ⟨h0,⟨i,hi,hg,rfl⟩ | ⟨v,hv,rfl⟩⟩
    · exact .inl rfl
    · refine .inr ⟨h0,.inl ⟨i,hi,?_,?_⟩⟩
      · rwa [entryAt_congr hk hi]
      · rw [entryAt_congr hdirSame hi]
    · exact .inr ⟨h0,.inr ⟨v,(IsUserAddress.congr hk).mpr hv,by rw [hwl v hv.1]⟩⟩
  · have ho := (hq.owner hc.owned hsrc).2
    rw [(hq'.owner hc.owned hdst).2] at ho
    exact hfr ho.symm

/-- Where `src` has a page table of its own `dst` has one, entered with the same flags. -/
def TablesDuplicated (L : Layout) (m : Mem) (src dst : ℕ) : Prop :=
  ∀ i<pdLength, isGlobal (entryAt m L.physKernelPd i)=false →
    (pteGetPaddr (entryAt m dst i)=physNull ↔ pteGetPaddr (entryAt m src i)=physNull) ∧
    (pteGetPaddr (entryAt m src i)≠physNull → pteGetFlags (entryAt m dst i)=pteGetFlags (entryAt m src i))

theorem tablesDuplicated_of_copied (h : Owned L s fl live role) (hsrc : src ∈ live)
    (hne : src≠dst) (htd : Tidy L s.mem src)
    (hnl : ∀ i<pdLength, isGlobal (entryAt s.mem L.physKernelPd i)=false → entryAt s.mem dst i=0)
    (hc : Copying L live dst s fl role used t fl' role')
    (hcp : ∀ i<pdLength, DirEntryCopied s.mem s.mem t.mem src dst i) :
    TablesDuplicated L t.mem src dst := by
  intro i hi hg
  rw [entryAt_congr hc.effect.kernelPd hi] at hg
  have hsd := h.dirs src hsrc
  have hsm := (hc.effect.foreign hsd.frame (by rw [hsd.isDir]; rfl) (fun hc=>hne (Option.some.inj hc))).2
  rw [entryAt_congr hsm hi]
  have hen := hcp i hi
  rw [DirEntryCopied] at hen
  split at hen
  · next hown =>
    obtain ⟨hdst,hfl,-⟩ := hen
    have hsc := hsd.present i hi hg (Bool.and_eq_true _ _▸hown).1
    exact ⟨⟨fun hc=>absurd hc hdst,fun hc=>absurd hc hsc⟩,fun _=>hfl⟩
  · next hown =>
    have hsr := not_not.mp (fun h0=>hown (htd.isOwned_pde hsd hi hg h0))
    rw [hen,hnl i hi hg,hsr,pteGetPaddr_zero]
    exact ⟨Iff.rfl,fun hc=>absurd rfl hc⟩

theorem CopyInv.fork (h : CopyInv L b fl role) (hsrc : src ∈ b.live)
    (hal : pagingAllocDir L b.machine=.ok dst s) (hrm : dupCost s.mem src ≤ s.remainingPages) :
    ∃ t, vmdup L dst src s=.ok () t ∧ Duplicated L s t src dst ∧ src≠dst ∧
      TablesDuplicated L t.mem src dst ∧ SameOn s.mem t.mem L.physKernelPd pageSize ∧
      ∃ fl' role', CopyInv L ⟨t,dst::b.live,b.held⟩ fl' role' := by
  obtain ⟨hinv,htd⟩ := h
  have hst : SpaceStep L b (.allocDir dst) ⟨s,dst::b.live,b.held⟩ := .allocDir hal
  obtain ⟨rest,role1,hfl,ho,he,-,hnl⟩ := (pagingAllocDir_spec hinv.owned).of_ok hal
  have hinv1 : SpacesInv L ⟨s,dst::b.live,b.held⟩ rest role1 := ⟨ho,he.kept (by simp) hinv.kept,hinv.nodup⟩
  have htd1 := hst.tidy hinv htd
  have hne : src≠dst := fun hc=>by
    have hr := (hinv.owned.dirs src hsrc).isDir
    rw [hc,hinv.owned.free dst (by simp [hfl])] at hr
    cases hr
  have hsrc1 : src ∈ dst::b.live := mem_cons_of_mem _ hsrc
  have hdst1 : dst ∈ dst::b.live := mem_cons_self
  have hrem := ho.list.remaining
  obtain ⟨⟨⟩,t,hok,hcs⟩ := Returns.exists_ok ((vmdup_spec ho hsrc1 hdst1 hne).mono
    (fun _ _ hq=>hq) (fun _ hout=>by have := hout.2; omega))
  rcases hcs with ⟨fl',role',hc,hsp,hcp⟩ | hout
  · have hdup : SpaceStep L ⟨s,dst::b.live,b.held⟩ (.dup dst src) ⟨t,dst::b.live,b.held⟩ :=
      .dup hdst1 hsrc1 hne hrm hok
    obtain ⟨fl2,role2,hinv2,-⟩ := hdup.spec hinv1
    have hem : ∀ i<pdLength, isGlobal (entryAt s.mem L.physKernelPd i)=false →
        entryAt s.mem dst i=0 := fun i hi hg=>hnl i hi (by rwa [entryAt_congr he.kernelPd hi] at hg)
    refine ⟨t,hok,duplicated_of_copied ho hsrc1 hdst1 hne (htd1 src hsrc1) (fun v hv=>?_) hc hsp hcp,
      hne,tablesDuplicated_of_copied ho hsrc1 hne (htd1 src hsrc1) hem hc hcp,
      hc.effect.kernelPd,fl2,role2,hinv2,hdup.tidy hinv1 htd1⟩
    rw [walk,hem _ (getPdIndex_lt hv.1) hv.2,if_pos pteGetPaddr_zero]
    rfl
  · have := hout.2
    omega

/-- A fresh directory becomes a duplicate; later writes to one are invisible in the other iff they
do not meet in page zero. -/
theorem vmdup_duplicates_and_isolates_iff (h0 : SpacesStart L a) (hrun : CopyRun L a b)
    (hsrc : src ∈ b.live) (halloc : pagingAllocDir L b.machine=.ok dst s)
    (hroom : dupCost s.mem src ≤ s.remainingPages) :
    ∃ t, vmdup L dst src s=.ok () t ∧ Duplicated L s t src dst ∧
      ∀ c, CopyRun L ⟨t,dst::b.live,b.held⟩ c → src ∈ c.live → dst ∈ c.live →
        ∀ pd pd', pd=src ∧ pd'=dst ∨ pd=dst ∧ pd'=src →
          ∀ v n v' n', UserRange L c.machine.mem v n → UserRange L c.machine.mem v' n' →
            (Unnoticed L c.machine pd v n pd' v' n' ↔ ¬ MeetInPageZero c.machine.mem pd v n pd' v' n') := by
  obtain ⟨fl₀,hit⟩ := h0.copyInv
  obtain ⟨fl,role,hinv⟩ := hrun.inv hit
  obtain ⟨t,hok,hdup,hne,-,-,fl₁,role₁,hinv₁⟩ := hinv.fork hsrc halloc hroom
  refine ⟨t,hok,hdup,fun c hc hsr hds pd pd' hpr v n v' n' hr hr'=>?_⟩
  obtain ⟨fl₂,role₂,hin,htd⟩ := hc.inv hinv₁
  rcases hpr with ⟨rfl,rfl⟩ | ⟨rfl,rfl⟩
  · exact hin.owned.unnoticed_iff hsr hds hne (htd _ hsr) (htd _ hds) hr hr'
  · exact hin.owned.unnoticed_iff hds hsr hne.symm (htd _ hds) (htd _ hsr) hr hr'

theorem walk_firstTable (hj : j<pdLength) (hne : pteGetPaddr (entryAt m pd 0)≠physNull) :
    walk m pd (pageSize*j)=entryAt m (pteGetPaddr (entryAt m pd 0)) j := by
  have hm : maskToPage (pageSize*j)=pageSize*j := maskToPage_of_aligned (mul_mod_right _ _)
  have hpd : getPdIndex (pageSize*j)=0 := by
    simp only [getPdIndex,shiftRight_eq_div_pow,pageSize,pdLength] at *
    omega
  have hpt : getPtIndex (pageSize*j)=j := by
    rw [getPtIndex,shiftRight_eq_div_pow,show (0x3FF : ℕ)=2^10-1 from rfl,and_two_pow_sub_one_eq_mod]
    simp only [pageSize,pdLength] at *
    omega
  rw [walk,hm,hpd,hpt,if_neg hne]

theorem dupCost_le_two (hpde : ∀ i<pdLength, i≠0 → isOwned (entryAt m pd i)=false)
    (hne : isOwned (entryAt m pd 0)=true → pteGetPaddr (entryAt m pd 0)≠physNull)
    (hwl : ∀ w<0x400000, maskToPage w≠0x1000 → walk m pd w=0) : dupCost m pd≤2 := by
  have hdir : dupCost m pd=if isOwned (entryAt m pd 0) then
      1+tableCost m (pteGetPaddr (entryAt m pd 0)) pdLength else 0 := by
    rw [dupCost,dirCost,Finset.sum_eq_single 0]
    · simp_all
    · exact fun h0=>absurd (Finset.mem_range.mpr (by decide)) h0
  rw [hdir]
  split
  · next hown =>
    have htab : tableCost m (pteGetPaddr (entryAt m pd 0)) pdLength =
        if isOwned (entryAt m (pteGetPaddr (entryAt m pd 0)) 1) then 1 else 0 := by
      rw [tableCost,Finset.sum_eq_single 1]
      · intro j hj hj1
        have hjlt : j<1024 := Finset.mem_range.mp hj
        have hms : maskToPage (4096*j)=4096*j := maskToPage_of_aligned (mul_mod_right _ _)
        have hw := hwl (4096*j) (by omega) (by rw [hms]; omega)
        rw [← walk_firstTable hjlt (hne hown)]
        rw [show pageSize*j=4096*j from rfl,hw,isOwned,isPresent_zero,Bool.false_and,if_neg Bool.false_ne_true]
      · exact fun h1=>absurd (Finset.mem_range.mpr (by decide)) h1
    rw [htab]
    split <;> omega
  · omega

theorem KernelTables.userRange (h : KernelTables L m) (hv : v+n≤0xC0000000) : UserRange L m v n :=
  fun _ _=>⟨by omega,h.user _ (getPdIndex_lt_of_user (by omega))⟩

theorem exists_fork : ∃ s b s1 src dst, SpacesStart .smallImage ⟨s,[],[]⟩ ∧
    CopyRun .smallImage ⟨s,[],[]⟩ b ∧ src ∈ b.live ∧
    pagingAllocDir .smallImage b.machine=.ok dst s1 ∧ dupCost s1.mem src ≤ s1.remainingPages ∧
    isPresent (walk s1.mem src 0x1000)=true ∧ (∀ w<0x400000, maskToPage w≠0x1000 → walk s1.mem src w=0) ∧
    isUser (walk s1.mem src 0x1000)=true ∧ (entryAt s1.mem src 0).testBit 0=true ∧
    (entryAt s1.mem src 0).testBit 2=true ∧
    ∀ k<4, s1.mem (userByte s1.mem src (0x1000+k))=0 := by
  obtain ⟨s,fl,h0,hinv,hlen,-⟩ := exists_spacesStart 16 le_rfl
  -- a frame, a directory, and the frame mapped in it
  obtain ⟨p,s1,fl1,role1,hst1,hinv1,hlen1⟩ := hinv.palloc hlen
  obtain ⟨src,s2,fl2,role2,hst2,hinv2,-,hlen2,hnn,hnl⟩ := hinv1.allocDir hlen1
  have hsrc := mem_singleton_self src
  obtain ⟨s3,fl3,role3,hst3,hinv3,hlen3,hwl,hot,hpd,hfg⟩ := hinv2.map hlen2 (v := 0x1000) src p
    pageBitUser hsrc (by simp) (by decide) (by decide) (by decide)
  -- the page holds zeros from its start
  have hrn : UserRange .smallImage s3.mem 0x1000 (List.replicate 4 (0 : UInt8)).length :=
    hinv3.owned.kernel.userRange (by decide)
  obtain ⟨r,w3,hwok,-,hund,hwr⟩ := (vmwrite_user hinv3.owned hsrc (List.replicate 4 0) hrn).exists_ok
  have hrun : CopyRun .smallImage ⟨s,[],[]⟩ ⟨w3,[src],[p].erase p⟩ :=
    (((Relation.ReflTransGen.single (.space _ hst1)).tail (.space _ hst2)).tail
      (.space _ hst3)).tail (.vmwrite hsrc hrn hwok)
  have hiv : SpacesInv .smallImage ⟨w3,[src],[p].erase p⟩ fl3 role3 := ⟨hund.owned,hinv3.kept,hinv3.nodup⟩
  obtain ⟨n,hn⟩ : ∃ n, fl3.length=n+1 := exists_eq_succ_of_ne_zero (by omega)
  obtain ⟨dst,s4,rest,role4,hst4,hinv4,-,hrs,-⟩ := hiv.allocDir hn
  obtain ⟨_,_,-,heff⟩ := hst4.spec hiv
  obtain ⟨-,role0,_,ho0,he4⟩ := heff nofun
  have hne : some src≠some dst := by
    have hok : pagingAllocDir .smallImage w3=.ok dst s4 := by cases hst4; assumption
    obtain ⟨rest',_,hfl,-⟩ := (pagingAllocDir_spec ho0).of_ok hok
    have hfr := ho0.free dst (by simp [hfl])
    have hdir := (ho0.dirs src hsrc).isDir
    exact fun hc=>by cases hc; simp [hfr] at hdir
  -- the lookups in the directory, and its entries, in the last state
  have hd3 := ho0.dirs src hsrc
  have hen4 : ∀ i<pdLength, entryAt s4.mem src i=entryAt s3.mem src i := fun i hi =>
    (entryAt_congr (he4.foreign hd3.frame (by rw [hd3.isDir]; rfl) hne).2 hi).trans
      (entryAt_congr (hund.tables src src hd3.frame (.inl (hund.owned.dirs src hsrc).isDir)) hi)
  have hwl4 : ∀ w<2^32, walk s4.mem src w=walk s3.mem src w := fun w hw =>
    (hd3.walk_of_effect ho0.kernel he4 hne hw).trans (hund.walks src hsrc w hw)
  have hzr : ∀ w<0x400000, maskToPage w≠0x1000 → walk s4.mem src w=0 := fun w hw hpg=>by
    rw [hwl4 w (by omega),hot w (by omega) hpg,walk_of_null hnl (by omega)]
  have hpde : ∀ i<pdLength, i≠0 → isOwned (entryAt s4.mem src i)=false := fun i hlt hi0=>by
    rw [hen4 i hlt,hpd i hlt hi0,hnn i hlt]
  have hcs := dupCost_le_two hpde
    (fun hown=>(hinv4.owned.owned_entry (mem_cons_of_mem _ hsrc) (by decide) hown).2.2.2) hzr
  have hrem : s4.remainingPages=rest.length := hinv4.owned.list.remaining
  have hbit : ∀ b<12, (pageBitUser ||| pageBitPresent).testBit b=true →
      (walk s4.mem src 0x1000).testBit b=true := by
    intro b hb hbit
    rwa [hwl4 _ (by decide),hwl,testBit_pteConstruct _ _ hb]
  have hpde4 : ∀ b, (pageBitUser ||| pageBitPresent).testBit b=true →
      (entryAt s4.mem src 0).testBit b=true := fun b hb=>by
    rw [hen4 0 (by decide)]
    exact hfg b hb
  have hpr4 := (isPresent_eq _).trans (hbit 0 (by decide) (by decide))
  have hus4 := (isUser_eq _).trans (hbit 2 (by decide) (by decide))
  refine ⟨s,_,s4,src,dst,h0,hrun,hsrc,by cases hst4; assumption,by omega,hpr4,hzr,hus4,
    hpde4 0 (by decide),hpde4 2 (by decide),fun k hk=>?_⟩
  -- allocating the second directory leaves the page alone
  have hpg : walk s4.mem src (0x1000+k)=walk s4.mem src 0x1000 := walk_page
    ((maskToPage_add (by decide) (by simp only [pageSize]; omega)).trans (by decide))
  have hin := hwr.inside k (by rwa [length_replicate])
  rw [mem_replicate] at hin
  have hsm : walk s3.mem src (0x1000+k)=walk w3.mem src (0x1000+k) := (hund.walks src hsrc _ (by omega)).symm
  have hmap : UserMapped w3.mem src (0x1000+k) := by
    rw [UserMapped,← hsm,← hwl4 _ (by omega),hpg]
    exact ⟨hpr4,hus4⟩
  rw [userByte,hwl4 _ (by omega)]
  rw [userByte] at hin
  rw [← hin.2]
  obtain ⟨hpf,-⟩ := hinv2.kept p (by simp)
  have hb := hpf.bounds
  obtain ⟨-,-,had⟩ := pteConstruct_frame hpf.aligned (by omega)
    (or_present_lt (show pageBitUser<pageSize by decide))
  rcases ho0.userMapped_page hsrc (by omega) hmap with hn | ⟨i,j,hf,hr⟩
  · rw [← hsm,← hwl4 _ (by omega),hpg,hwl4 _ (by decide),hwl,had] at hn
    exact absurd hn hpf.ne_zero
  · have hmod : (0x1000+k)%pageSize<pageSize := mod_lt _ (by decide)
    rw [hsm]
    exact (he4.foreign hf (by rw [hr]; rfl) hne).2 _ (le_add_right _ _) (Nat.add_lt_add_left hmod _)

theorem owned_of_fork (h0 : SpacesStart L a) (hrun : CopyRun L a b) (hsrc : src ∈ b.live)
    (hal : pagingAllocDir L b.machine=.ok dst s) (hrm : dupCost s.mem src ≤ s.remainingPages) :
    ∃ t fl1 role1 fl2 role2, vmdup L dst src s=.ok () t ∧ Owned L s fl1 (dst::b.live) role1 ∧
      Owned L t fl2 (dst::b.live) role2 ∧ Duplicated L s t src dst ∧
      (∀ pd ∈ dst::b.live, Tidy L t.mem pd) ∧ src≠dst ∧ TablesDuplicated L t.mem src dst ∧
      SameOn s.mem t.mem L.physKernelPd pageSize := by
  obtain ⟨fl0,hin⟩ := h0.copyInv
  obtain ⟨fl,role,hinv⟩ := hrun.inv hin
  obtain ⟨rest,role1,-,ho,-⟩ := (pagingAllocDir_spec hinv.1.owned).of_ok hal
  obtain ⟨t,hok,hdup,hne,htab,hkpd,fl2,role2,ht,htd⟩ := hinv.fork hsrc hal hrm
  exact ⟨t,rest,role1,fl2,role2,hok,ho,ht.owned,hdup,htd,hne,htab,hkpd⟩

/-- After the fork the page is in both, and a write through one is invisible through the other. -/
theorem vmdup_duplicates_and_isolates_iff_onePage : ∃ s b s₁ t src dst,
    SpacesStart .smallImage ⟨s,[],[]⟩ ∧ CopyRun .smallImage ⟨s,[],[]⟩ b ∧ src ∈ b.live ∧
    pagingAllocDir .smallImage b.machine=.ok dst s₁ ∧ vmdup .smallImage dst src s₁=.ok () t ∧
    Duplicated .smallImage s₁ t src dst ∧ isPresent (walk s₁.mem src 0x1000)=true ∧
    Unnoticed .smallImage t dst 0x1000 1 src 0x1000 1 := by
  obtain ⟨s,b,s₁,src,dst,h0,hrun,hsrc,hok,hrm,hpr,-⟩ := exists_fork
  obtain ⟨t,hdp,hdup,hiff⟩ := vmdup_duplicates_and_isolates_iff h0 hrun hsrc hok hrm
  obtain ⟨t',fl₁,role₁,fl₂,role₂,hok',ho₁,ho₂,-⟩ := owned_of_fork h0 hrun hsrc hok hrm
  rw [hdp] at hok'
  injection hok' with _ htt
  subst htt
  have hsrc' : src ∈ dst::b.live := mem_cons_of_mem _ hsrc
  refine ⟨s,b,s₁,t,src,dst,h0,hrun,hsrc,hok,hdp,hdup,hpr,?_⟩
  refine (hiff _ .refl hsrc' mem_cons_self dst src (.inr ⟨rfl,rfl⟩) _ _ _ _
    (ho₂.kernel.userRange (by decide)) (ho₂.kernel.userRange (by decide))).mpr ?_
  rintro ⟨k,-,k',hk',-,hab,-⟩
  obtain rfl : k'=0 := by omega
  obtain ⟨e,-,hs,ht,-⟩ := hdup.entries 0x1000 (ho₁.kernel.userRange (n := 1) (by decide) 0 one_pos)
  rw [ho₁.lookup hsrc' (by decide)] at hs
  rw [ho₂.lookup hsrc' (by decide)] at ht
  injection hs with hs _
  injection ht with ht _
  rw [add_zero,ht,← hs,hpr] at hab
  cases hab

/-- Right after a fork, a write where neither directory maps a page is seen through the other. -/
theorem vmwrite_unmapped_noticed_after_fork : ∃ s b s₁ t u src dst c,
    SpacesStart .smallImage ⟨s,[],[]⟩ ∧ CopyRun .smallImage ⟨s,[],[]⟩ b ∧ src ∈ b.live ∧
    pagingAllocDir .smallImage b.machine=.ok dst s₁ ∧ dupCost s₁.mem src ≤ s₁.remainingPages ∧
    vmdup .smallImage dst src s₁=.ok () t ∧
    pagingGetEntry .smallImage src 0x2000 t=.ok 0 t ∧ pagingGetEntry .smallImage dst 0x2000 t=.ok 0 t ∧
    (∃ t', vmread .smallImage src 0x2000 [0] t=.ok [c] t') ∧
    vmwrite .smallImage dst 0x2000 [c+1] t=.ok [c+1] u ∧
    ∃ u', vmread .smallImage src 0x2000 [0] u=.ok [c+1] u' := by
  obtain ⟨s,b,s₁,src,dst,h0,hrun,hsrc,hok,hrm,-,hun,-⟩ := exists_fork
  obtain ⟨t,fl₁,role₁,fl₂,role₂,hdp,ho₁,ho₂,hdup,htd,-⟩ := owned_of_fork h0 hrun hsrc hok hrm
  have hsrc' : src ∈ dst::b.live := mem_cons_of_mem _ hsrc
  have hdst' : dst ∈ dst::b.live := mem_cons_self
  have hrn : UserRange .smallImage t.mem 0x2000 1 := ho₂.kernel.userRange (by decide)
  -- neither directory maps the address
  obtain ⟨e,e',hs,ht,hd,hpr,-⟩ := hdup.entries 0x2000 (ho₁.kernel.userRange (n := 1) (by decide) 0 one_pos)
  rw [ho₁.lookup hsrc' (by decide),hun _ (by decide) (by decide)] at hs
  injection hs with hs _
  subst hs
  have hws : walk t.mem src 0x2000=0 := by
    rw [ho₂.lookup hsrc' (by decide)] at ht
    injection ht
  have hwd : walk t.mem dst 0x2000=0 := by
    have hlk := hd
    rw [ho₂.lookup hdst' (by decide)] at hlk
    injection hlk with hlk _
    refine ((htd dst hdst').pages _ (hrn 0 one_pos)).resolve_right (fun hown=>?_)
    rw [isOwned,Bool.and_eq_true,add_zero,hlk,hpr,isPresent_zero] at hown
    exact absurd hown.1.1 Bool.false_ne_true
  have hby : ∀ m pd, walk m pd 0x2000=0 → userByte m pd 0x2000=0 := fun m pd hw=>by
    rw [userByte,hw]
    rfl
  have hone : ∀ m pd, walk m pd 0x2000=0 → userBytes m pd 0x2000 1=[m 0] := fun m pd hw=>by
    simp [userBytes,hby m pd hw]
  obtain ⟨r,t',hrd,rfl⟩ := (vmread_user ho₂ hsrc' [0] hrn).exists_ok
  obtain ⟨r,u,hwt,rfl,hund,hwr⟩ := (vmwrite_user ho₂ hdst' [t.mem 0+1] hrn).exists_ok
  obtain ⟨r,u',hrd',rfl⟩ := (vmread_user hund.owned hsrc' [0] (hund.userRange.mpr hrn)).exists_ok
  have hnew : u.mem 0=t.mem 0+1 := by
    have hin := hwr.inside 0 one_pos
    rwa [add_zero,hby _ _ hwd,mem_singleton] at hin
  rw [length_singleton,hone _ _ hws] at hrd
  rw [length_singleton,hone _ _ ((hund.walks src hsrc' _ (by decide)).trans hws),hnew] at hrd'
  refine ⟨s,b,s₁,t,u,src,dst,t.mem 0,h0,hrun,hsrc,hok,hrm,hdp,ht,?_,⟨t',hrd⟩,hwt, u',hrd'⟩
  rw [ho₂.lookup hdst' (by decide),hwd]
end

end Yaos2.Memory
