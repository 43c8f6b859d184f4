import Yaos2.Memory.Isolation

/-! # Copying between the kernel and user memory

The lookup of `vmxchg` answers zero for an address that is not mapped, and physical page zero has a
static mapping. -/
namespace Yaos2.Memory
open Foundation List Nat

variable (L : Layout)

/-- The copy of one page's share between the buffer `part` and a kernel pointer to the user memory.
-/
def exchange (write : Bool) (v accessible : ℕ) (part : List UInt8) : Kernel (List UInt8) := do
  match if write then L.physOfW accessible else L.physOf accessible with
  | some a =>
    let s ← get
    set {s with
      mem := if write then blit s.mem a part else s.mem
      trace := .copy v a part.length::s.trace}
    return if write then part else bytes s.mem a part.length
  | none => pageFault

def nextPage (v : ℕ) : ℕ := (maskToPage v+pageSize)%2^32

/-- Bytes of a request for `num` bytes at `v` that lie in the page of `v`. -/
def batchOf (v num : ℕ) : ℕ := min (pageSize-(v-maskToPage v)) num

/-- The loop of `vmxchg`. Every round copies at least one byte. -/
def vmxchgLoop (pd : ℕ) (write : Bool) : ℕ → ℕ → List UInt8 → Kernel (List UInt8)
  | 0, _, _ => return []
  | fuel+1, v, buf =>
    if buf.length=0 then
      return []
    else do
      let p ← pagingGet L pd v
      let accessible ← translateOrPanic L p
      let part ← exchange L write v (accessible+(v-maskToPage v)) (buf.take (batchOf v buf.length))
      let rest ← vmxchgLoop pd write fuel (nextPage v) (buf.drop (batchOf v buf.length))
      return part++rest

def vmxchg (pd v : ℕ) (buf : List UInt8) (write : Bool) : Kernel (List UInt8) := do
  kassert "is_using_kernel_page_tables()" (← isUsingKernelPageTables L)
  vmxchgLoop L pd write buf.length v buf

def vmread (pd v : ℕ) (buf : List UInt8) : Kernel (List UInt8) := vmxchg L pd v buf false
def vmwrite (pd v : ℕ) (buf : List UInt8) : Kernel (List UInt8) := vmxchg L pd v buf true

/-- `proc_vmread` of a process with the given page directory; its mutex is held around the copy. -/
def procVmread (pd v : ℕ) (buf : List UInt8) : Kernel (List UInt8) := do
  kassert "is_using_kernel_page_tables()" (← isUsingKernelPageTables L)
  vmread L pd v buf

def procVmwrite (pd v : ℕ) (buf : List UInt8) : Kernel (List UInt8) := do
  kassert "is_using_kernel_page_tables()" (← isUsingKernelPageTables L)
  vmwrite L pd v buf

/-- The bytes are user memory of the request, present and accessible in `pd`. -/
def UserCopy (m : Mem) (pd v n : ℕ) : Event → Prop
  | .copy w a k => (∃ j, w=(v+j)%2^32 ∧ j+k≤n) ∧ ∀ i<k, UserMapped m pd (w+i) ∧ a+i=userByte m pd (w+i)
  | .entry _ _ => False

/-- Between `s` and `t` only user memory of the request was read or written. -/
def Confined (pd v n : ℕ) (s t : Machine) : Prop :=
  ∃ evs, t.trace=evs++s.trace ∧ (∀ ev ∈ evs, UserCopy s.mem pd v n ev) ∧
    ∀ x, t.mem x≠s.mem x → ∃ w a k, .copy w a k ∈ evs ∧ a≤x ∧ x<a+k

/-- The code panics at the page of `v`: its frame has no writable static mapping. -/
def Stops (write : Bool) (m : Mem) (pd v : ℕ) : Prop := L.vmIsStaticP (pteGetPaddr (walk m pd v))=false ∨
    write=true ∧ L.physOfW (L.vmMapWalk (pteGetPaddr (walk m pd v))+v%pageSize)=none

/-- The addresses at which the loop looks up pages, and their number. -/
def pageAt (v k : ℕ) : ℕ := if k=0 then v else (maskToPage v+pageSize*k)%2^32
def pageCount (v n : ℕ) : ℕ := if n=0 then 0 else (v%pageSize+n+(pageSize-1))/pageSize

/-- Every page up to the first one at which the code panics is present and accessible to user code.
-/
def Allowed (write : Bool) (m : Mem) (pd v n : ℕ) : Prop :=
  ∀ k<pageCount v n, (∀ j<k, ¬ Stops L write m pd (pageAt v j)) →
    Stops L write m pd (pageAt v k) ∨ UserMapped m pd (pageAt v k)

variable {L} {s t u : Machine} {fl live : List ℕ} {role : ℕ → Role} {write : Bool}
  {pd v v₀ n d fuel : ℕ} {m : Mem} {buf part : List UInt8}

section

theorem sub_maskToPage (v : ℕ) : v-maskToPage v=v%pageSize := by
  have h := mask_add_mod v
  omega

theorem batchOf_pos (hn : 0<n) : 0<batchOf v n := by
  have hlt : v%pageSize<pageSize := mod_lt v (by decide)
  rw [batchOf,sub_maskToPage]
  omega

theorem batchOf_le : batchOf v n≤n ∧ v%pageSize+batchOf v n≤pageSize := by
  have hlt : v%pageSize<pageSize := mod_lt v (by decide)
  rw [batchOf,sub_maskToPage]
  omega

theorem length_take_batchOf (v : ℕ) (buf : List UInt8) :
    (buf.take (batchOf v buf.length)).length=batchOf v buf.length := by
  rw [length_take]
  exact min_eq_left batchOf_le.1

theorem nextPage_lt (v : ℕ) : nextPage v<2^32 ∧ nextPage v%pageSize=0 := by
  have hm := maskToPage_mod v
  rw [nextPage]
  simp only [pageSize] at *
  omega

theorem pageAt_succ (v k : ℕ) : pageAt v (k+1)=pageAt (nextPage v) k := by
  obtain ⟨hlt,hal⟩ := nextPage_lt v
  rw [pageAt,if_neg (by omega),pageAt,maskToPage_of_aligned hal,nextPage]
  split
  · next hk => rw [hk,Nat.mul_one]
  · rw [mod_add_mod,mul_succ,add_assoc,add_comm pageSize]

theorem pageCount_succ (hn : 0<n) : pageCount v n=pageCount (nextPage v) (n-batchOf v n)+1 := by
  obtain ⟨-,hal⟩ := nextPage_lt v
  have hlt : v%pageSize<pageSize := mod_lt v (by decide)
  rw [pageCount,if_neg (by omega),pageCount,hal,batchOf,sub_maskToPage]
  split
  · simp only [pageSize] at *
    omega
  · simp only [pageSize] at *
    omega

theorem allowed_succ (hn : 0<n) : Allowed L write m pd v n ↔ Stops L write m pd v ∨
    UserMapped m pd v ∧ Allowed L write m pd (nextPage v) (n-batchOf v n) := by
  have hzr : pageAt v 0=v := if_pos rfl
  rw [Allowed,pageCount_succ hn]
  constructor
  · intro h
    by_cases hs : Stops L write m pd v
    · exact .inl hs
    · have h0 := h 0 (by omega) (by simp)
      rw [hzr] at h0
      refine .inr ⟨h0.resolve_left hs,fun k hk hj=>?_⟩
      rw [← pageAt_succ]
      refine h (k+1) (by omega) (fun j hjk=>?_)
      cases j with
      | zero => rwa [hzr]
      | succ j =>
        rw [pageAt_succ]
        exact hj j (by omega)
  · rintro (hs | ⟨hu,hrs⟩) k hk hj
    · cases k with
      | zero => exact .inl (hzr.symm▸hs)
      | succ k => exact absurd (hzr.symm▸hs) (hj 0 (by omega))
    · cases k with
      | zero => exact .inr (hzr.symm▸hu)
      | succ k =>
        rw [pageAt_succ]
        refine hrs k (by omega) (fun j hjk=>?_)
        rw [← pageAt_succ]
        exact hj (j+1) (by omega)

theorem allowed_zero : Allowed L write m pd v 0 := fun k hk=>by
  rw [pageCount,if_pos rfl] at hk
  omega
end

section

theorem physOf_of_physOfW (h : L.physOfW v=some a) : L.physOf v=some a := by
  rw [Layout.physOfW] at h
  split at h
  · exact h
  · cases h

/-- The machine after the copy of one page's share. -/
def exchanged (s : Machine) (write : Bool) (v a : ℕ) (part : List UInt8) : Machine :=
  {s with
    mem := if write then blit s.mem a part else s.mem
    trace := .copy v a part.length::s.trace}

theorem exchanged_mem_ne (hx : (exchanged s write v a part).mem x≠s.mem x) : a≤x ∧ x<a+part.length := by
  simp only [exchanged] at hx
  split at hx
  · by_contra hc
    exact hx (blit_outside (by omega))
  · exact absurd rfl hx

theorem Grows.pagingGetEntry (pd v : ℕ) : Grows (pagingGetEntry L pd v) :=
  .bind .isUsingKernelPageTables fun _=>.bind (.kassert _ _) fun _=>.bind (.translateOrPanic _) fun _ =>
    .bind (.readPtr _ _) fun _=>.ite (.pure _) (.bind (.translateOrPanic _) fun _=>.readPtr _ _)

theorem Grows.exchange (v acc : ℕ) (part : List UInt8) : Grows (exchange L write v acc part) := by
  intro s
  rw [Memory.exchange]
  split
  · rw [wp_bind,wp_get,wp_bind,wp_set,wp_pure]
    exact ⟨[_],rfl⟩
  · rw [pageFault,wp_abort]
    exact .of_eq rfl

theorem Grows.vmxchgLoop (pd fuel v : ℕ) (buf : List UInt8) : Grows (vmxchgLoop L pd write fuel v buf) := by
  induction fuel generalizing v buf with
  | zero => exact .pure _
  | succ fuel ih =>
    exact .ite (.pure _) <| .bind (.bind (.pagingGetEntry _ _) fun _=>.pure _) fun _ =>
      .bind (.translateOrPanic _) fun _=>.bind (.exchange _ _ _) fun _ =>
        .bind (ih _ _) fun _=>.pure _

theorem wp_round (hkr : s.env.isUsingKernelPageTables L=true)
    (hlk : pagingGetEntry L pd v s=.ok (walk s.mem pd v) s) (hn : 0<buf.length)
    (hsp : Stops L write s.mem pd v → E s)
    (hgo : ¬ Stops L write s.mem pd v → Ensures (do
      let rest ← vmxchgLoop L pd write fuel (nextPage v) (buf.drop (batchOf v buf.length))
      return (if write then buf.take (batchOf v buf.length) else
        bytes s.mem (userByte s.mem pd v) (batchOf v buf.length))++rest)
      (exchanged s write v (userByte s.mem pd v) (buf.take (batchOf v buf.length))) Q E) :
    Ensures (vmxchgLoop L pd write (fuel+1) v buf) s Q E := by
  have hal := pteGetPaddr_walk_aligned s.mem pd v
  have hoff : v%pageSize<pageSize := mod_lt v (by decide)
  have hlen := length_take_batchOf v buf
  rw [vmxchgLoop,if_neg (by omega)]
  simp only [pagingGet,translateOrPanic,wp_bind,wp_of_ok hlk,wp_pure,
    wp_isUsingKernelPageTables,wp_kassert hkr,sub_maskToPage]
  cases hst : L.vmIsStaticP (pteGetPaddr (walk s.mem pd v)) with
  | false =>
    simpa [Bool.false_eq_true,if_false,wp_abort] using hsp (.inl hst)
  | true =>
    have hph := Layout.physOf_vmMapWalk hst hal hoff
    simp only [if_true,wp_pure]
    by_cases hfl : write=true ∧ L.physOfW (L.vmMapWalk (pteGetPaddr (walk s.mem pd v))+v%pageSize)=none
    · simpa [exchange,hfl.1,if_true,hfl.2,pageFault,wp_abort] using hsp (.inr hfl)
    · have hsm : (if write then L.physOfW (L.vmMapWalk (pteGetPaddr (walk s.mem pd v))+v%pageSize)
          else L.physOf (L.vmMapWalk (pteGetPaddr (walk s.mem pd v))+v%pageSize)) =
          some (userByte s.mem pd v) := by
        cases write with
        | false => exact hph
        | true =>
          obtain ⟨a,ha⟩ := Option.ne_none_iff_exists'.mp (fun hc=>hfl ⟨rfl,hc⟩)
          exact ha.trans ((physOf_of_physOfW ha).symm.trans hph)
      have hns : ¬ Stops L write s.mem pd v := by
        rintro (hc | hc)
        · simp_all
        · exact hfl hc
      have hrs := hgo hns
      simp only [wp_bind,wp_pure,exchanged] at hrs
      simp only [exchange,hsm,wp_bind,wp_get,wp_set,wp_pure,hlen] at hrs ⊢
      exact hrs
end

section

theorem Confined.refl (s : Machine) : Confined pd v n s s := ⟨[],rfl,by simp,fun _ hx=>absurd rfl hx⟩

theorem Confined.extends (h : Confined pd v n s t) : Extends s t := ⟨h.choose,h.choose_spec.1⟩

theorem Confined.userCopy (h : Confined pd v n s t) (hsu : Extends s u)
    (hut : Extends (exchanged u write w a part) t) (hk : part.length=k) :
    UserCopy s.mem pd v n (.copy w a k) := by
  obtain ⟨evs,hevs,hall,-⟩ := h
  obtain ⟨before,hbf⟩ := hsu
  obtain ⟨after,haf⟩ := hut
  simp only [exchanged,hk] at haf
  rw [hevs,hbf,← cons_append,← append_assoc] at haf
  apply hall _
  rw [append_cancel_right haf]
  simp

theorem Confined.exchanged (h : Confined pd v n s u) (hc : UserCopy s.mem pd v n (.copy w a part.length)) :
    Confined pd v n s (exchanged u write w a part) := by
  obtain ⟨evs,hevs,hall,hmem⟩ := h
  refine ⟨.copy w a part.length::evs,?_,fun ev hev=>?_,fun x hx=>?_⟩
  · simp [Memory.exchanged,hevs]
  · rcases mem_cons.mp hev with rfl | hev
    · exact hc
    · exact hall ev hev
  · by_cases hxu : (Memory.exchanged u write w a part).mem x=u.mem x
    · obtain ⟨w',a',k',hin,hb⟩ := hmem x (hxu▸hx)
      exact ⟨w',a',k',by simp [hin],hb⟩
    · exact ⟨w,a,part.length,by simp,exchanged_mem_ne hxu⟩

theorem userByte_eq_iff : userByte m pd v=userByte m pd' w ↔
    pteGetPaddr (walk m pd v)=pteGetPaddr (walk m pd' w) ∧ v%pageSize=w%pageSize := by
  have hv := pteGetPaddr_walk_aligned m pd v
  have hw := pteGetPaddr_walk_aligned m pd' w
  rw [userByte,userByte]
  simp only [pageSize] at *
  omega

theorem userByte_add (m : Mem) (pd : ℕ) (hi : v%pageSize+i<pageSize) :
    walk m pd (v+i)=walk m pd v ∧ userByte m pd (v+i)=userByte m pd v+i := by
  have hm : maskToPage (v+i)=maskToPage v := by
    have h := mask_add_mod v
    exact maskToPage_eq (maskToPage_mod v) (by omega) (by omega)
  have hmod : (v+i)%pageSize=v%pageSize+i := by
    have h := mask_add_mod v
    have h' := mask_add_mod (v+i)
    omega
  have hw : walk m pd (v+i)=walk m pd v := walk_page hm
  exact ⟨hw,by rw [userByte,userByte,hw,hmod,add_assoc]⟩

theorem add_lt_of_page (hv : v<2^32) (hi : v%pageSize+i<pageSize) : v+i<2^32 := by
  simp only [pageSize] at *
  omega

theorem vmxchgLoop_confined (write : Bool) (h : Owned L u fl live role) (hpd : pd ∈ live) (hv : v<2^32)
    (hfl : buf.length≤fuel) (hwl : ∀ w<2^32, walk u.mem pd w=walk s.mem pd w)
    (hdn : Confined pd v₀ n s u) (hd : 0<buf.length → v=(v₀+d)%2^32)
    (hn : d+buf.length=n) :
    Ensures (vmxchgLoop L pd write fuel v buf) u
      (fun _ t=>Confined pd v₀ n s t ↔ Allowed L write s.mem pd v buf.length)
      (fun t=>Confined pd v₀ n s t ↔ Allowed L write s.mem pd v buf.length) := by
  induction fuel generalizing u v buf d with
  | zero =>
    rw [vmxchgLoop,wp_pure,le_zero.mp hfl]
    exact iff_of_true hdn allowed_zero
  | succ fuel ih =>
    by_cases hpos : 0<buf.length
    · have hst : Stops L write u.mem pd v ↔ Stops L write s.mem pd v := by
        rw [Stops,Stops,hwl v hv]
      have hby : userByte u.mem pd v=userByte s.mem pd v := by rw [userByte,userByte,hwl v hv]
      have hlen := length_take_batchOf v buf
      refine wp_round h.kernelTables (h.lookup hpd hv) hpos (fun hs=>?_) (fun hs=>?_)
      · exact iff_of_true hdn ((allowed_succ hpos).mpr (.inl (hst.mp hs)))
      · rw [hby,wp_bind]
        simp only [wp_pure]
        have hal : Allowed L write s.mem pd v buf.length ↔ Stops L write s.mem pd v ∨
            UserMapped s.mem pd v ∧ Allowed L write s.mem pd (nextPage v) (buf.length-batchOf v buf.length) :=
          allowed_succ hpos
        rw [or_iff_right (fun hc=>hs (hst.mpr hc))] at hal
        have hext := hdn.extends
        by_cases hu : UserMapped s.mem pd v
        · -- user memory: the copy is on the books and the lookups stay what they are
          have hcp : UserCopy s.mem pd v₀ n (.copy v (userByte s.mem pd v)
              (buf.take (batchOf v buf.length)).length) := by
            rw [hlen]
            refine ⟨⟨d,hd hpos,by have := batchOf_le (v := v) (n := buf.length); omega⟩, fun i hi=>?_⟩
            have hin : v%pageSize+i<pageSize := by
              have := batchOf_le (v := v) (n := buf.length)
              omega
            obtain ⟨hw,hb⟩ := userByte_add s.mem pd hin
            exact ⟨by rwa [UserMapped,hw],hb.symm⟩
          obtain ⟨ho,-,hwl',-⟩ := h.userWrite (t := exchanged u write v (userByte s.mem pd v)
              (buf.take (batchOf v buf.length))) hpd rfl rfl rfl (fun x hx=>by
            obtain ⟨h1,h2⟩ := exchanged_mem_ne hx
            rw [hlen] at h2
            obtain ⟨i,rfl⟩ := Nat.exists_eq_add_of_le h1
            have hin : v%pageSize+i<pageSize := by
              have := batchOf_le (v := v) (n := buf.length)
              omega
            obtain ⟨hw,hb⟩ := userByte_add u.mem pd hin
            refine ⟨v+i,add_lt_of_page hv hin,?_,by rw [hb,hby]⟩
            rwa [UserMapped,hw,hwl v hv])
          have hrs := ih (d := d+batchOf v buf.length) ho
            (nextPage_lt v).1
            (show (buf.drop (batchOf v buf.length)).length≤fuel by
              rw [length_drop]; have := batchOf_pos (v := v) hpos; omega)
            (fun w hw=>(hwl' pd hpd w hw).trans (hwl w hw)) (hdn.exchanged hcp)
            (fun hlt=>?_) (by rw [length_drop]; have := batchOf_le (v := v) (n := buf.length); omega)
          · rw [length_drop] at hrs
            rwa [hal,and_iff_right hu]
          · -- more is left, so the share went up to the end of the page
            have hfu : batchOf v buf.length=pageSize-v%pageSize := by
              rw [length_drop] at hlt
              rw [batchOf,sub_maskToPage] at *
              omega
            have hmod : v%pageSize<pageSize := mod_lt v (by decide)
            rw [nextPage,← add_assoc,← mod_add_mod (v₀+d),← hd hpos,hfu]
            have hm := mask_add_mod v
            congr 1
            omega
        · -- memory that is not the user's has been copied, whatever comes after
          have hnot : ∀ t, Extends (exchanged u write v (userByte s.mem pd v)
              (buf.take (batchOf v buf.length))) t → ¬ Confined pd v₀ n s t := by
            intro t ht hc
            obtain ⟨-,hall⟩ := hc.userCopy hext ht hlen
            exact hu (hall 0 (batchOf_pos hpos)).1
          refine (Grows.vmxchgLoop pd fuel _ _ _).mono (fun _ t ht=>?_) (fun t ht=>?_)
          · exact iff_of_false (hnot t ht) (fun ha=>hu (hal.mp ha).1)
          · exact iff_of_false (hnot t ht) (fun ha=>hu (hal.mp ha).1)
    · have h0 : buf.length=0 := by omega
      rw [vmxchgLoop,if_pos h0,wp_pure,h0]
      exact iff_of_true hdn allowed_zero
end

/-- The copy touches user memory of the request only, iff every page up to a panic is accessible. -/
theorem userCopy_confined_iff {a b : Spaces} (h0 : SpacesStart L a) (hrun : SpaceRun L a b)
    (hpd : pd ∈ b.live) (hv : v<2^32) (buf : List UInt8) :
    Ensures (procVmread L pd v buf) b.machine
      (fun _ t=>Confined pd v buf.length b.machine t ↔ Allowed L false b.machine.mem pd v buf.length)
      (fun t=>Confined pd v buf.length b.machine t ↔ Allowed L false b.machine.mem pd v buf.length) ∧
    Ensures (procVmwrite L pd v buf) b.machine
      (fun _ t=>Confined pd v buf.length b.machine t ↔ Allowed L true b.machine.mem pd v buf.length)
      (fun t=>Confined pd v buf.length b.machine t ↔ Allowed L true b.machine.mem pd v buf.length) := by
  obtain ⟨fl,role,hinv⟩ := hrun.inv h0
  have ho := hinv.owned
  have hst : 0<buf.length → v=(v+0)%2^32 := fun _=>(mod_eq_of_lt hv).symm
  have hlp := fun write=>vmxchgLoop_confined write ho hpd hv (le_refl buf.length) (fun _ _=>rfl)
    (.refl b.machine) hst (zero_add _)
  simp only [procVmread,procVmwrite,vmread,vmwrite,vmxchg,wp_bind,
    wp_isUsingKernelPageTables,wp_kassert ho.kernelTables]
  exact ⟨hlp false,hlp true⟩

section

/-- After one page was mapped for user code, a write to it stays inside it. -/
theorem userCopy_confined_iff_mapped : ∃ s t pd,
    SpacesStart .smallImage ⟨s,[],[]⟩ ∧ SpaceRun .smallImage ⟨s,[],[]⟩ ⟨t,[pd],[]⟩ ∧
      Allowed .smallImage true t.mem pd 0x1000 1 ∧
      Ensures (procVmwrite .smallImage pd 0x1000 [7]) t (fun _ u=>Confined pd 0x1000 1 t u)
        (fun u=>Confined pd 0x1000 1 t u) := by
  obtain ⟨s,fl,h0,hinv,hlen,-⟩ := exists_spacesStart 16 le_rfl
  obtain ⟨pd,s₁,fl₁,role₁,hst₁,hinv₁,-,hlen₁,-⟩ := hinv.allocDir hlen
  obtain ⟨p,s₂,fl₂,role₂,hst₂,hinv₂,hlen₂⟩ := hinv₁.palloc hlen₁
  obtain ⟨t,fl₃,role₃,hst₃,hinv₃,-,hwl,-⟩ := hinv₂.map hlen₂ pd p
    (pageBitUser ||| pageBitRw) (v := 0x1000) (by simp) (by simp) (by decide) (by decide) (by decide)
  rw [show (p::[]).erase p=[] by simp] at hst₃
  have hrun : SpaceRun .smallImage ⟨s,[],[]⟩ ⟨t,[pd],[]⟩ :=
    ((Relation.ReflTransGen.single ⟨_,hst₁⟩).tail ⟨_,hst₂⟩).tail ⟨_,hst₃⟩
  have hal : Allowed .smallImage true t.mem pd 0x1000 1 := by
    refine (allowed_succ one_pos).mpr (.inr ⟨⟨?_,?_⟩,?_⟩)
    · rw [hwl,isPresent_eq,testBit_pteConstruct _ _ (by decide)]
      decide
    · rw [hwl,isUser_pteConstruct]
      decide
    · rw [show 1-batchOf 0x1000 1=0 by decide]
      exact allowed_zero
  refine ⟨s,t,pd,h0,hrun,hal,?_⟩
  exact (userCopy_confined_iff h0 hrun (by simp) (by decide) [7]).2.mono
    (fun _ _ hiff=>hiff.mpr hal) (fun _ hiff=>hiff.mpr hal)

theorem walk_of_null (h : ∀ i<768, entryAt m pd i=0) (hv : v<0xC0000000) : walk m pd v=0 := by
  rw [walk,h _ (getPdIndex_lt_of_user hv),if_pos pteGetPaddr_zero]
  rfl

theorem not_stops_of_null (h : pteGetPaddr (walk m pd v)=physNull) (write : Bool) : ¬ Stops L write m pd v := by
  have ho := L.order
  have hi : L.InImage 0 := .inl (by omega)
  have hoff : v%pageSize<pageSize := mod_lt v (by decide)
  have hw : L.physOfW (L.vmMapWalk 0+v%pageSize)=some (v%pageSize) := by
    rw [Layout.vmMapWalk_image hi,Layout.physOfW_low (by omega) (by simp only [pageSize] at *; omega)]
    exact congrArg some (by omega)
  rw [Stops,h,show physNull=0 from rfl,Layout.vmIsStaticP_image hi,hw]
  simp

theorem procVmwrite_null (h : Owned L s fl live role) (hpd : pd ∈ live) (hv : v<2^32)
    (hnl : walk s.mem pd v=0) (c : UInt8) :
    Returns (procVmwrite L pd v [c]) s
      (fun r t=>r=[c] ∧ t=exchanged s true v (v%pageSize) [c]) := by
  have had : pteGetPaddr (walk s.mem pd v)=physNull := by
    rw [hnl]
    exact pteGetPaddr_zero
  have hby : userByte s.mem pd v=v%pageSize := by
    rw [userByte,had]
    exact zero_add _
  have hbt : batchOf v [c].length=1 := by
    have hpos := batchOf_pos (v := v) (n := [c].length) (by simp)
    have hle := (batchOf_le (v := v) (n := [c].length)).1
    rw [length_singleton] at *
    omega
  simp only [procVmwrite,vmwrite,vmxchg,wp_bind,wp_isUsingKernelPageTables,wp_kassert h.kernelTables]
  refine wp_round h.kernelTables (h.lookup hpd hv) (by simp)
    (fun hs=>absurd hs (not_stops_of_null had true)) (fun _=>?_)
  rw [hbt,hby,wp_bind]
  change Ensures (pure []) _ _ _
  rw [wp_pure,wp_pure]
  exact ⟨rfl,rfl⟩

/-- The byte at physical address zero is overwritten on behalf of a process that maps nothing. -/
theorem procVmwrite_unmapped_overwrites_page_zero : ∃ s t u pd,
    SpacesStart .smallImage ⟨s,[],[]⟩ ∧ SpaceRun .smallImage ⟨s,[],[]⟩ ⟨t,[pd],[]⟩ ∧
      pagingGetEntry .smallImage pd 0x1000 t=.ok 0 t ∧
      procVmwrite .smallImage pd 0x1000 [7] t=.ok [7] u ∧ u.mem 0=7 ∧
      ¬ Confined pd 0x1000 1 t u := by
  obtain ⟨s,fl,h0,hinv,hlen,-⟩ := exists_spacesStart 16 le_rfl
  obtain ⟨pd,t,fl₁,role₁,hst,hinv₁,-,-,-,hnl⟩ := hinv.allocDir hlen
  have hwl := walk_of_null (v := 0x1000) hnl (by decide)
  obtain ⟨r,u,hok,rfl,rfl⟩ := (procVmwrite_null hinv₁.owned (by simp) (by decide) hwl 7).exists_ok
  refine ⟨s,t,_,pd,h0,.single ⟨_,hst⟩,?_,hok,?_,fun hc=>?_⟩
  · rw [hinv₁.owned.lookup (by simp) (by decide),hwl]
  · simp [exchanged,blit,pageSize]
  · have hcp := hc.userCopy (.of_eq rfl) (.of_eq rfl) rfl
    have hpr := (hcp.2 0 one_pos).1.1
    rw [add_zero,hwl,isPresent_zero] at hpr
    cases hpr
end

end Yaos2.Memory
