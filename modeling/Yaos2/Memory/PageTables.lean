import Mathlib.Data.Nat.Bitwise
import Yaos2.Memory.Palloc

/-! # Page directories and page tables

The code of `paging/core.c` and `paging/kernel.c` over physical memory. -/
namespace Yaos2.Memory
open Foundation List Nat

variable (L : Layout)

def pdLength : ℕ := pageSize/4
def ptLength : ℕ := pageSize/4

def getPdIndex (v : ℕ) : ℕ := v >>> 22
def getPtIndex (v : ℕ) : ℕ := v >>> 12 &&& 0x3FF

def pteConstruct (addr flags : ℕ) : ℕ := addr &&& 0xfffff000 ||| flags &&& 0x00000fff
def pteGetPaddr (e : ℕ) : ℕ := e &&& 0xfffff000
def pteGetFlags (e : ℕ) : ℕ := e &&& 0x00000fff
abbrev pdeConstruct := pteConstruct
abbrev pdeGetPaddr := pteGetPaddr
abbrev pdeGetFlags := pteGetFlags

def isPresent (e : ℕ) : Bool := e &&& pageBitPresent != 0
def isGlobal (e : ℕ) : Bool := e &&& pageBitGlobal != 0
def isUser (e : ℕ) : Bool := e &&& pageBitUser != 0
/-- A present entry that is not global belongs to the directory it was found in. -/
def isOwned (e : ℕ) : Bool := isPresent e && !isGlobal e

def translateOrPanic (p : ℕ) : Kernel ℕ := do
  kassert "is_using_kernel_page_tables()" (← isUsingKernelPageTables L)
  if L.vmIsStaticP p then
    return L.vmMapWalk p
  else
    abort "could not translate address"

def checkPallocLock : Kernel Unit := do
  panicIf ((← get).env.pallocLockHeld) "paging_map(): holding palloc lock"

/-- Write a page directory or page table entry through a kernel pointer. -/
def writeEntry (v e : ℕ) : Kernel Unit :=
  match L.physOfW v with
  | some a => modify fun s=>{s with mem := store s.mem a 4 e, trace := .entry a e::s.trace}
  | none => pageFault

/-- One round of the copying loop of `paging_alloc_dir`. -/
def copyGlobalEntry (vpd i : ℕ) : Kernel Unit := do
  let e ← readPtr L (L.kernelPd+4*i) 4
  if isGlobal e then
    writeEntry L (vpd+4*i) e

def pagingAllocDir : Kernel ℕ := do
  kassert "is_using_kernel_page_tables()" (← isUsingKernelPageTables L)
  checkPallocLock
  kassert "PD_LENGTH * sizeof(pde_t) == palloc_get_granularity()" (pdLength*4 == pageSize)
  let pd ← palloc L
  let vpd := ptranslate L pd
  kmemset L vpd 0 (pdLength*4)
  forRange pdLength (copyGlobalEntry L vpd)
  return pd

def freeEntryPage (pte i : ℕ) : Kernel Unit := do
  let e ← readPtr L (pte+4*i) 4
  if isOwned e then
    pfree L (pteGetPaddr e)

def pagingFreeTable (pt : ℕ) : Kernel Unit := do
  let pte ← translateOrPanic L pt
  forRange pdLength (freeEntryPage L pte)
  pfree L pt

def freeEntryTable (pde i : ℕ) : Kernel Unit := do
  let e ← readPtr L (pde+4*i) 4
  if isOwned e then
    pagingFreeTable L (pdeGetPaddr e)

def pagingFreeDir (pd : ℕ) : Kernel Unit := do
  kassert "is_using_kernel_page_tables()" (← isUsingKernelPageTables L)
  checkPallocLock
  panicIf (pd=L.physKernelPd) "paging_free_dir(): attempted to free kernel page directory"
  let pde ← translateOrPanic L pd
  forRange pdLength (freeEntryTable L pde)
  pfree L pd

/-- The part of `paging_map` that makes a null directory entry point to a new page table. -/
def ensureTable (pde : ℕ) : Kernel Unit := do
  let e ← readPtr L pde 4
  if pdeGetPaddr e=physNull then
    kassert "PT_LENGTH * sizeof(pte_t) == palloc_get_granularity()" (ptLength*4 == pageSize)
    let pt ← palloc L
    kmemset L (ptranslate L pt) 0 (ptLength*4)
    writeEntry L pde (pdeConstruct pt 0)

/-- The last part of `paging_map`: set the flags of the directory entry, then the page table entry. -/
def writeMapping (pde v p flags : ℕ) : Kernel Unit := do
  writeEntry L pde ((← readPtr L pde 4) ||| (flags ||| pageBitPresent))
  let pte := (← translateOrPanic L (pdeGetPaddr (← readPtr L pde 4)))+4*getPtIndex v
  writeEntry L pte (pteConstruct p (flags ||| pageBitPresent))

def pagingMap (pd v p flags : ℕ) : Kernel Unit := do
  panicIf (isGlobal flags ∧ pd≠L.physKernelPd)
    "paging_map(): attempted to use the global flag in non-kernel page directory"
  checkPallocLock
  kassert "is_using_kernel_page_tables()" (← isUsingKernelPageTables L)
  let v := maskToPage v
  let pde := (← translateOrPanic L pd)+4*getPdIndex v
  panicIf (isGlobal (← readPtr L pde 4) ∧ pd≠L.physKernelPd)
    "paging_map(): attempted to overwrite global kernel PD entries in non-kernel PD"
  ensureTable L pde
  writeMapping L pde v p flags

def pagingGetEntry (pd v : ℕ) : Kernel ℕ := do
  kassert "is_using_kernel_page_tables()" (← isUsingKernelPageTables L)
  let v := maskToPage v
  let pde := (← translateOrPanic L pd)+4*getPdIndex v
  let e ← readPtr L pde 4
  if pdeGetPaddr e=physNull then
    return physNull
  let pte := (← translateOrPanic L (pdeGetPaddr e))+4*getPtIndex v
  readPtr L pte 4

def pagingGet (pd v : ℕ) : Kernel ℕ := return pteGetPaddr (← pagingGetEntry L pd v)

/-- Copy the contents of the page in entry `i` of one table to the page in that of another. -/
def copyEntryPage (destPte srcPte i : ℕ) : Kernel Unit := do
  let dest ← translateOrPanic L (pteGetPaddr (← readPtr L (destPte+4*i) 4))
  let src ← translateOrPanic L (pteGetPaddr (← readPtr L (srcPte+4*i) 4))
  kmemcpy L dest src pageSize

def duplicateEntryPage (destPte srcPte i : ℕ) : Kernel Unit := do
  let e ← readPtr L (srcPte+4*i) 4
  if isOwned e then
    writeEntry L (destPte+4*i) ((← palloc L) ||| pteGetFlags e)
    copyEntryPage L destPte srcPte i

def duplicatePt (destPt srcPt : ℕ) : Kernel Unit := do
  let destPte ← translateOrPanic L destPt
  let srcPte ← translateOrPanic L srcPt
  forRange pdLength (duplicateEntryPage L destPte srcPte)

def duplicateEntryTable (destPde srcPde i : ℕ) : Kernel Unit := do
  let e ← readPtr L (srcPde+4*i) 4
  if isOwned e then
    writeEntry L (destPde+4*i) ((← palloc L) ||| pdeGetFlags e)
    duplicatePt L (pdeGetPaddr (← readPtr L (destPde+4*i) 4))
      (pdeGetPaddr (← readPtr L (srcPde+4*i) 4))

def vmdup (destPd srcPd : ℕ) : Kernel Unit := do
  kassert "is_using_kernel_page_tables()" (← isUsingKernelPageTables L)
  checkPallocLock
  panicIf (srcPd=L.physKernelPd) "vmdup(): attempted to duplicate kernel page directory"
  let destPde ← translateOrPanic L destPd
  let srcPde ← translateOrPanic L srcPd
  forRange pdLength (duplicateEntryTable L destPde srcPde)

/-- `kp_map`. Telling the other CPUs to flush their translation caches leaves memory alone. -/
def kpMap (v p : ℕ) : Kernel Unit := do
  let flags := L.vmGetPflags v
  let prevCr3 ← cpuSetCr3 L.physKernelPd
  pagingMap L L.physKernelPd v p flags
  let _ ← cpuSetCr3 prevCr3

/-- Word `i` of the table in page `t`. -/
def entryAt (m : Mem) (t i : ℕ) : ℕ := load m (t+4*i) 4

def Machine.setEntry (s : Machine) (t i e : ℕ) : Machine :=
  {s with mem := store s.mem (t+4*i) 4 e, trace := .entry (t+4*i) e::s.trace}

/-- The event of mapping physical page zero. -/
def NullPresent : Event → Prop
  | .entry _ e => isPresent e=true ∧ pteGetPaddr e=physNull
  | .copy _ _ _ => False

/-- No entry that maps physical page zero was written on the way from `s` to `t`. -/
def Clean (s t : Machine) : Prop := ∃ evs, t.trace=evs++s.trace ∧ ∀ ev ∈ evs, ¬ NullPresent ev

def Tainted (s t : Machine) : Prop := ∃ evs, t.trace=evs++s.trace ∧ ∃ ev ∈ evs, NullPresent ev

/-- The two-level lookup, as a function of memory. -/
def walk (m : Mem) (pd v : ℕ) : ℕ :=
  let e := entryAt m pd (getPdIndex (maskToPage v))
  if pteGetPaddr e=physNull then physNull
  else entryAt m (pteGetPaddr e) (getPtIndex (maskToPage v))

theorem walk_page (h : maskToPage w=maskToPage v) : walk m pd w=walk m pd v := by rw [walk,walk,h]

section
variable {e f p b i : ℕ}

theorem pteGetPaddr_eq (h : e<2^32) : pteGetPaddr e=maskToPage e := by
  have hm : (0xfffff000 : ℕ)=(2^20-1) <<< 12 := by decide
  have hp : maskToPage e=(e >>> 12) <<< 12 := by
    rw [shiftLeft_eq,shiftRight_eq_div_pow]
    rfl
  apply eq_of_testBit_eq
  intro i
  rw [pteGetPaddr,hm,hp,testBit_and,testBit_shiftLeft,testBit_shiftLeft,
    testBit_shiftRight,testBit_two_pow_sub_one]
  by_cases hi : 12 ≤ i
  · rw [show 12+(i-12)=i by omega]
    by_cases hi' : i<32
    · simp [hi,show i-12<20 by omega]
    · have hb : e.testBit i=false :=
        testBit_lt_two_pow (h.trans_le (Nat.pow_le_pow_right (by decide) (by omega)))
      simp [hb]
  · simp [hi]

theorem pteGetFlags_eq (e : ℕ) : pteGetFlags e=e%pageSize := and_two_pow_sub_one_eq_mod e 12

theorem aligned_or (hp : p%pageSize=0) (hf : f<pageSize) : p ||| f=p+f := by
  obtain ⟨k,rfl⟩ := dvd_of_mod_eq_zero hp
  exact (two_pow_add_eq_or_of_lt (i := 12) hf k).symm

theorem or_lt_pageSize (he : e<pageSize) (hf : f<pageSize) : e ||| f<pageSize := or_lt_two_pow (n := 12) he hf

theorem maskToPage_add (hp : p%pageSize=0) (hf : f<pageSize) : maskToPage (p+f)=p :=
  maskToPage_eq hp (by omega) (by omega)

theorem mask_add_mod (e : ℕ) : maskToPage e+e%pageSize=e := div_add_mod' e pageSize

theorem pteConstruct_eq (hp : p<2^32) : pteConstruct p f=maskToPage p+f%pageSize := by
  have hm := pteGetPaddr_eq hp
  have hf := pteGetFlags_eq f
  rw [pteGetPaddr] at hm
  rw [pteGetFlags] at hf
  rw [pteConstruct,hm,hf]
  exact aligned_or (maskToPage_mod p) (mod_lt f (by decide))

theorem or_flags_eq (hf : f<pageSize) : e ||| f=maskToPage e+(e%pageSize ||| f) := by
  have hlt : e%pageSize<pageSize := mod_lt e (by decide)
  nth_rewrite 1 [← mask_add_mod e]
  rw [← aligned_or (maskToPage_mod e) hlt,Nat.or_assoc]
  exact aligned_or (maskToPage_mod e) (or_lt_pageSize hlt hf)

theorem maskToPage_or_flags (hf : f<pageSize) : maskToPage (e ||| f)=maskToPage e := by
  rw [or_flags_eq hf]
  exact maskToPage_add (maskToPage_mod e) (or_lt_pageSize (mod_lt e (by decide)) hf)

theorem isGlobal_eq (e : ℕ) : isGlobal e=e.testBit 8 := by
  rw [isGlobal,show pageBitGlobal=2^8 from rfl,and_two_pow]
  cases e.testBit 8 <;> rfl

theorem isPresent_eq (e : ℕ) : isPresent e=e.testBit 0 := by
  rw [isPresent,show pageBitPresent=2^0 from rfl,and_two_pow]
  cases e.testBit 0 <;> rfl

theorem isUser_eq (e : ℕ) : isUser e=e.testBit 2 := by
  rw [isUser,show pageBitUser=2^2 from rfl,and_two_pow]
  cases e.testBit 2 <;> rfl

theorem testBit_frame_add (hp : p%pageSize=0) (hf : f<pageSize) (hi : i<12) :
    (p+f).testBit i=f.testBit i := by
  obtain ⟨k,rfl⟩ := dvd_of_mod_eq_zero hp
  exact (testBit_two_pow_mul_add k hf i).trans (if_pos hi)

theorem isGlobal_or (he : isGlobal e=false) (hf : isGlobal f=false) : isGlobal (e ||| f)=false := by
  rw [isGlobal_eq] at *
  rw [testBit_or,he,hf]
  rfl

theorem isUser_or (he : isUser e=false) (hf : isUser f=false) : isUser (e ||| f)=false := by
  rw [isUser_eq] at *
  rw [testBit_or,he,hf]
  rfl

theorem testBit_pteConstruct (p f : ℕ) (hi : i<12) : (pteConstruct p f).testBit i=f.testBit i := by
  have ha : ∀ k<12, Nat.testBit 0xfffff000 k=false := by decide
  have hf : ∀ k<12, Nat.testBit 0x00000fff k=true := by decide
  rw [pteConstruct,testBit_or,testBit_and,testBit_and,ha i hi,hf i hi,
    Bool.and_false,Bool.false_or,Bool.and_true]

theorem isUser_pteConstruct (p f : ℕ) : isUser (pteConstruct p f)=isUser f := by
  rw [isUser_eq,isUser_eq,testBit_pteConstruct p f (by decide)]

theorem isGlobal_pteConstruct (p f : ℕ) : isGlobal (pteConstruct p f)=isGlobal f := by
  rw [isGlobal_eq,isGlobal_eq,testBit_pteConstruct p f (by decide)]

theorem pteConstruct_lt (p f : ℕ) : pteConstruct p f<2^32 :=
  or_lt_two_pow (and_lt_two_pow _ (by decide)) (and_lt_two_pow _ (by decide))

theorem isGlobal_of_aligned (hp : p%pageSize=0) : isGlobal p=false := by
  rw [isGlobal_eq]
  exact (testBit_frame_add hp (f := 0) (by decide) (by decide)).trans (zero_testBit 8)

theorem isUser_of_aligned (hp : p%pageSize=0) : isUser p=false := by
  rw [isUser_eq]
  exact (testBit_frame_add hp (f := 0) (by decide) (by decide)).trans (zero_testBit 2)

@[simp] theorem isGlobal_zero : isGlobal 0=false := by decide
@[simp] theorem isPresent_zero : isPresent 0=false := by decide

theorem pteGetPaddr_zero : pteGetPaddr 0=physNull := zero_and _
end

/-- A page the kernel can read and write through its static mapping. -/
structure IsTable (p : ℕ) : Prop where
  aligned : p%pageSize=0
  static : L.vmIsStaticP p=true
  writable : ∀ o<pageSize, L.physOfW (L.vmMapWalk p+o)=some (p+o)

section
variable {s t u : Machine}

theorem Clean.of_eq (h : t.trace=s.trace) : Clean s t := ⟨[],h,by simp⟩

theorem Clean.trans (h : Clean s t) (h' : Clean t u) : Clean s u := by
  obtain ⟨evs,he,hn⟩ := h
  obtain ⟨evs',he',hn'⟩ := h'
  refine ⟨evs'++evs,by rw [he',he,append_assoc],fun ev hev=>?_⟩
  exact (mem_append.mp hev).elim (hn' ev) (hn ev)

theorem Tainted.append (h : Tainted s t) (he : u.trace=evs++t.trace) :
    Tainted s u := by
  obtain ⟨evs',he',ev,hev,hn⟩ := h
  exact ⟨evs++evs',by rw [he,he',append_assoc],ev,by simp [hev],hn⟩

theorem Tainted.of_append (h : Tainted t u) (he : t.trace=evs++s.trace) :
    Tainted s u := by
  obtain ⟨evs',he',ev,hev,hn⟩ := h
  exact ⟨evs'++evs,by rw [he',he,append_assoc],ev,by simp [hev],hn⟩

theorem not_clean_of_tainted (h : Tainted s t) : ¬ Clean s t := by
  rintro ⟨evs,he,hn⟩
  obtain ⟨evs',he',ev,hev,hnp⟩ := h
  rw [he] at he'
  rw [append_cancel_right he'] at hn
  exact hn ev hev hnp

theorem clean_setEntry (h : ¬ (isPresent e=true ∧ pteGetPaddr e=physNull)) : Clean s (s.setEntry p i e) :=
  ⟨[.entry (p+4*i) e],rfl,by simpa [NullPresent] using h⟩

theorem tainted_setEntry (h : isPresent e=true) (h' : pteGetPaddr e=physNull) :
    Tainted s (s.setEntry p i e) :=
  ⟨[.entry (p+4*i) e],rfl,.entry (p+4*i) e,by simp,h,h'⟩

/-- The record only grows on the way from `s` to `t`. -/
def Extends (s t : Machine) : Prop := ∃ evs, t.trace=evs++s.trace

theorem Extends.of_eq (h : t.trace=s.trace) : Extends s t := ⟨[],h⟩

theorem Extends.trans (h : Extends s t) (h' : Extends t u) : Extends s u := by
  obtain ⟨evs,he⟩ := h
  obtain ⟨evs',he'⟩ := h'
  exact ⟨evs'++evs,by rw [he',he,append_assoc]⟩

theorem Clean.extends (h : Clean s t) : Extends s t := ⟨h.choose,h.choose_spec.1⟩

theorem Extends.clean_parts (h : Extends s t) (h' : Extends t u) (hc : Clean s u) : Clean s t ∧ Clean t u := by
  obtain ⟨evs,he⟩ := h
  obtain ⟨evs',he'⟩ := h'
  obtain ⟨all,hall,hno⟩ := hc
  rw [he',he,← append_assoc] at hall
  have heq := append_cancel_right hall
  refine ⟨⟨evs,he,fun ev hev=>hno ev ?_⟩,⟨evs',he',fun ev hev=>hno ev ?_⟩⟩
  · rw [← heq]
    exact mem_append_right _ hev
  · rw [← heq]
    exact mem_append_left _ hev

theorem Tainted.extends (h : Tainted s t) (h' : Extends t u) : Tainted s u := h.append h'.choose_spec

theorem Extends.tainted (h : Extends s t) (h' : Tainted t u) : Tainted s u := h'.of_append h.choose_spec
end

section
variable {L}
variable {α β : Type}

/-- A computation that only adds to the record, from any state and whether it returns or not. -/
def Grows (x : Kernel α) : Prop := ∀ s, Ensures x s (fun _ t=>Extends s t) (Extends s)

namespace Grows

theorem pure (a : α) : Grows (pure a : Kernel α) := fun _=>by
  rw [wp_pure]
  exact .of_eq rfl

theorem bind (hx : Grows x) (hf : ∀ a, Grows (f a)) :
    Grows (x >>= f) := fun s=>(wp_bind x f s _ _).mpr <| (hx s).imp
  (fun a t ht=>(hf a t).mono (fun _ _ hu=>ht.trans hu) (fun _ hu=>ht.trans hu))

theorem ite [Decidable c] (hx : Grows x) (hy : Grows y) :
    Grows (if c then x else y) := fun s=>Ensures.ite (fun _=>hx s) (fun _=>hy s)

theorem abort (r : String) : Grows (abort r : Kernel α) := fun _=>by
  rw [wp_abort]
  exact .of_eq rfl

theorem forRange (n : ℕ) (hb : ∀ k, Grows (body k)) : Grows (forRange n body) := fun s =>
  Ensures.forRange (I := fun _ t=>Extends s t) (.of_eq rfl) (fun k t _ ht =>
    (hb k t).mono (fun _ _ hu=>ht.trans hu) (fun _ hu=>ht.trans hu))

theorem get : Grows (get : Kernel Machine) := fun _=>by
  rw [wp_get]
  exact .of_eq rfl

theorem modify (hf : ∀ s, Extends s (f s)) : Grows (modify f : Kernel PUnit) := fun s=>by
  rw [wp_modify]
  exact hf s

theorem readPtr (v n : ℕ) : Grows (readPtr L v n) := by
  unfold Memory.readPtr
  split
  · exact .bind .get (fun _=>.pure _)
  · exact .abort _

theorem writePtr (v n x : ℕ) : Grows (writePtr L v n x) := by
  unfold Memory.writePtr
  split
  · exact .modify (fun _=>.of_eq rfl)
  · exact .abort _

theorem kmemset (v : ℕ) (c : UInt8) (n : ℕ) : Grows (kmemset L v c n) := by
  unfold Memory.kmemset
  split
  · exact .modify (fun _=>.of_eq rfl)
  · exact .abort _

theorem kmemcpy (dest src n : ℕ) : Grows (kmemcpy L dest src n) := by
  unfold Memory.kmemcpy
  split
  · exact .modify (fun _=>.of_eq rfl)
  · exact .abort _

theorem writeEntry (v e : ℕ) : Grows (writeEntry L v e) := by
  unfold Memory.writeEntry
  split
  · exact .modify (fun _=>⟨[_],rfl⟩)
  · exact .abort _

theorem panicIf (c : Prop) [Decidable c] (r : String) : Grows (panicIf c r) := .ite (.abort _) (.pure _)

theorem kassert (e : String) (c : Bool) : Grows (kassert e c) := .ite (.pure _) (.abort _)

theorem isUsingKernelPageTables : Grows (isUsingKernelPageTables L) := .bind .get (fun _=>.pure _)

theorem translateOrPanic (p : ℕ) : Grows (translateOrPanic L p) :=
  .bind .isUsingKernelPageTables (fun _=>.bind (.kassert _ _) (fun _=>.ite (.pure _) (.abort _)))

theorem palloc : Grows (palloc L) :=
  .bind .isUsingKernelPageTables fun _=>.bind (.panicIf _ _) fun _=>.bind .get fun _ =>
    .ite (.pure _) <| .bind (.readPtr _ _) fun _=>.bind (.panicIf _ _) fun _ =>
      .bind (.readPtr _ _) fun _=>.bind (.modify fun _=>.of_eq rfl) fun _ =>
        .bind (.ite (.writePtr _ _ _) (.pure _)) fun _ =>
          .bind (.bind (.kassert _ _) fun _=>.pure _) fun _ =>
            .bind (.modify fun _=>.of_eq rfl) fun _=>.bind (.kmemset _ _ _) fun _=>.pure _

theorem copyEntryPage (d r i : ℕ) : Grows (copyEntryPage L d r i) :=
  .bind (.readPtr _ _) fun _=>.bind (.translateOrPanic _) fun _=>.bind (.readPtr _ _) fun _ =>
    .bind (.translateOrPanic _) fun _=>.kmemcpy _ _ _

theorem duplicateEntryPage (d r i : ℕ) : Grows (duplicateEntryPage L d r i) :=
  .bind (.readPtr _ _) fun _=>.ite (.bind .palloc fun _=>.bind (.writeEntry _ _) fun _ =>
    .copyEntryPage _ _ _) (.pure _)

theorem duplicatePt (d r : ℕ) : Grows (duplicatePt L d r) :=
  .bind (.translateOrPanic _) fun _=>.bind (.translateOrPanic _) fun _ =>
    .forRange _ fun _=>.duplicateEntryPage _ _ _

theorem duplicateEntryTable (d r i : ℕ) : Grows (duplicateEntryTable L d r i) :=
  .bind (.readPtr _ _) fun _=>.ite (.bind .palloc fun _=>.bind (.writeEntry _ _) fun _ =>
    .bind (.readPtr _ _) fun _=>.bind (.readPtr _ _) fun _=>.duplicatePt _ _) (.pure _)
end Grows

end

section
variable {L} {s : Machine} {E : Machine → Prop} {p t i j e : ℕ}

theorem IsFrame.isTable (h : IsFrame L p) : IsTable L p := by
  have hb := h.bounds
  have hp := Layout.vmMapWalk_palloc (L := L) (p := p) (by omega) (by simp only [pageSize] at hb; omega)
  refine ⟨h.aligned,Layout.vmIsStaticP_palloc (by omega) (by simp only [pageSize] at hb; omega),?_⟩
  intro o ho
  rw [hp]
  exact h.physOfW ho

theorem isTable_rw (hp : p%pageSize=0) (h : L.rwBegin≤p+0xC0000000)
    (h' : p+0xC0000000<L.rwEnd) : IsTable L p := by
  have hi : L.InImage p := .inr ⟨h,h'⟩
  refine ⟨hp,Layout.vmIsStaticP_image hi,fun o ho=>?_⟩
  have hw := L.rwEnd_aligned
  rw [Layout.vmMapWalk_image hi,Layout.physOfW_rw (by omega) (by simp only [pageSize] at *; omega)]
  exact congrArg some (by omega)

variable {Q : ℕ → Machine → Prop}

theorem wp_translateOrPanic (ht : IsTable L t) (hk : s.env.isUsingKernelPageTables L=true) :
    Ensures (translateOrPanic L t) s Q E ↔ Q (L.vmMapWalk t) s := by
  simp [translateOrPanic,wp_kassert hk,ht.static]

theorem wp_readEntry (ht : IsTable L t) (hi : i<pdLength) :
    Ensures (readPtr L (L.vmMapWalk t+4*i) 4) s Q E ↔ Q (entryAt s.mem t i) s := by
  have ho : 4*i<pageSize := by
    simp only [pdLength,pageSize] at *
    omega
  exact wp_readPtr (Layout.physOf_vmMapWalk ht.static ht.aligned ho)

theorem wp_writeEntry {Q : Unit → Machine → Prop} (ht : IsTable L t) (hi : i<pdLength) :
    Ensures (writeEntry L (L.vmMapWalk t+4*i) e) s Q E ↔ Q () (s.setEntry t i e) := by
  have ho : 4*i<pageSize := by
    simp only [pdLength,pageSize] at *
    omega
  simp [writeEntry,ht.writable _ ho,Machine.setEntry]

@[simp] theorem setEntry_env : (s.setEntry t i e).env=s.env := rfl
@[simp] theorem setEntry_first : (s.setEntry t i e).firstFreePage=s.firstFreePage := rfl
@[simp] theorem setEntry_remaining : (s.setEntry t i e).remainingPages=s.remainingPages := rfl

theorem entryAt_lt (m : Mem) (t i : ℕ) : entryAt m t i<2^32 := load_lt m _ 4

theorem entryAt_setEntry_self (he : e<2^32) : entryAt (s.setEntry t i e).mem t i=e := load_store_of_lt he

theorem entryAt_setEntry_ne (h : p+4*j+4≤t+4*i ∨ t+4*i+4≤p+4*j) :
    entryAt (s.setEntry t i e).mem p j=entryAt s.mem p j :=
  load_store_disjoint h

theorem entryAt_congr (h : SameOn m m' t pageSize) (hi : i<pdLength) : entryAt m' t i=entryAt m t i := by
  refine load_congr (fun x hx hx'=>h x (by omega) ?_)
  simp only [pdLength,pageSize] at *
  omega

theorem getPdIndex_lt (hv : v<2^32) : getPdIndex (maskToPage v)<pdLength := by
  have hm := maskToPage_le v
  rw [getPdIndex,shiftRight_eq_div_pow]
  simp only [pdLength,pageSize]
  omega

theorem getPdIndex_lt_of_user (hv : v<0xC0000000) : getPdIndex (maskToPage v)<768 := by
  have hm := maskToPage_le v
  rw [getPdIndex,shiftRight_eq_div_pow]
  omega

theorem getPtIndex_lt (v : ℕ) : getPtIndex v<pdLength := and_lt_two_pow (n := 10) _ (by decide)

theorem pteGetPaddr_walk_aligned (m : Mem) (pd w : ℕ) : pteGetPaddr (walk m pd w)%pageSize=0 := by
  have hlt : walk m pd w<2^32 := by
    rw [walk]
    split
    · decide
    · exact entryAt_lt _ _ _
  rw [pteGetPaddr_eq hlt]
  exact maskToPage_mod _

theorem wp_pagingGetEntry (hpd : IsTable L pd) (hk : s.env.isUsingKernelPageTables L=true) (hv : v<2^32)
    (ht : ∀ e, e=entryAt s.mem pd (getPdIndex (maskToPage v)) → pteGetPaddr e≠physNull →
      IsTable L (pteGetPaddr e)) :
    Ensures (pagingGetEntry L pd v) s Q E ↔ Q (walk s.mem pd v) s := by
  simp only [pagingGetEntry,pdeGetPaddr,wp_bind,wp_isUsingKernelPageTables,wp_kassert hk,
    wp_translateOrPanic hpd hk,wp_readEntry hpd (getPdIndex_lt hv),walk]
  by_cases h0 : pteGetPaddr (entryAt s.mem pd (getPdIndex (maskToPage v)))=physNull
  · simp [h0]
  · simp [h0,wp_translateOrPanic (ht _ rfl h0) hk,wp_readEntry (ht _ rfl h0) (getPtIndex_lt _)]
end

end Yaos2.Memory
