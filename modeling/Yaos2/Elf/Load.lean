import Yaos2.Elf.Image

/-! # Where the parts of a program are, and what is in them -/
namespace Yaos2.Elf
open Foundation Memory Process List Option

section
variable {stale : Stale} {file : List UInt8} {env : List (List UInt8)} {im : Image} {v w : ℕ}

theorem writeSections_eq_none (shs : List Elf32SectionHeader) :
    shs.foldl (writeSection stale file) im w=none ↔ im w=none := by
  induction shs generalizing im with
  | nil => rfl
  | cons sh shs ih =>
    rw [foldl_cons,ih,writeSection]
    split
    · exact Image.write_eq_none _
    · rfl

theorem writeTable_eq_none (envTable envStrings i offset : ℕ) :
    writeTable envTable envStrings env i offset im w=none ↔ im w=none := by
  induction env generalizing im i offset with
  | nil => exact Image.write_eq_none _
  | cons e env ih => rw [writeTable,ih,Image.write_eq_none,Image.write_eq_none]

theorem writeTable_before (hw : w<envTable+i*4 ∨ envStrings≤w ∧ w<envStrings+offset)
    (hs : envTable+(i+env.length+1)*4≤envStrings) :
    writeTable envTable envStrings env i offset im w=im w := by
  have hwr : ∀ x, (wordBytes x).length=4 := fun _=>rfl
  induction env generalizing im i offset with
  | nil =>
    rw [length_nil] at hs
    exact Image.write_outside _ (by rw [hwr]; omega)
  | cons e env ih =>
    rw [length_cons] at hs
    rw [writeTable,ih (by omega) (by omega),Image.write_outside _ (by omega),Image.write_outside _ (by rw [hwr]; omega)]

theorem reserve_of_some (h : im w≠none) : im.reserve v w=im w := by
  obtain ⟨c,hc⟩ := ne_none_iff_exists'.mp h
  rw [Image.reserve,hc]
  split <;> rfl

theorem reserveRange_of_some (h : im w≠none) : reserveRange im v limit w=im w := by
  obtain ⟨c,hc⟩ := ne_none_iff_exists'.mp h
  rw [reserveRange,hc]
  split <;> rfl

def HasPage (ph : Elf32ProgramHeader) (w : ℕ) : Prop :=
  maskToPage ph.memOffset ≤ maskToPage w ∧ maskToPage w<segmentEnd ph+pageSize

theorem reserveSegments_eq (phs : List Elf32ProgramHeader) :
    (phs.foldl reserveSegment im w≠none ↔ im w≠none ∨ ∃ ph ∈ phs, HasPage ph w) ∧
      (phs.foldl reserveSegment im w=some ((im w).getD 0) ∨ phs.foldl reserveSegment im w=im w) := by
  induction phs generalizing im with
  | nil => simp
  | cons ph phs ih =>
    obtain ⟨hne,hval⟩ := @ih (reserveSegment im ph)
    rw [foldl_cons]
    by_cases hp : HasPage ph w
    · have hs : reserveSegment im ph w=some ((im w).getD 0) := if_pos hp
      rw [hs] at hne hval
      refine ⟨iff_of_true (hne.mpr (.inl (by simp))) (.inr ⟨ph,by simp,hp⟩),.inl ?_⟩
      simpa using hval
    · have hs : reserveSegment im ph w=im w := if_neg hp
      rw [hs] at hne hval
      refine ⟨hne.trans (or_congr_right ?_),hval⟩
      simp [hp]

theorem reserveSegments_zero (phs : List Elf32ProgramHeader) (h : ∃ ph ∈ phs, HasPage ph w) :
    phs.foldl reserveSegment (fun _=>none) w=some 0 := by
  have hs : phs.foldl reserveSegment (fun _=>none) w≠none := (reserveSegments_eq phs).1.mpr (.inr h)
  rcases (reserveSegments_eq phs).2 with hval | hval
  · exact hval
  · exact absurd hval hs

theorem hasPage_of_mem (hph : InUserSpace ph) (hv : ph.memOffset≤w)
    (hw : w<ph.memOffset+ph.memSize) : HasPage ph w := by
  refine ⟨maskToPage_mono hv,?_⟩
  rw [segmentEnd_eq hph]
  exact Nat.lt_of_le_of_lt (maskToPage_mono hw.le) (Nat.lt_add_of_pos_right (by decide))

theorem loadedImage_ne_none (hmem : ph ∈ segments stale file) (hph : InUserSpace ph)
    (hv : ph.memOffset≤w) (hw : w<ph.memOffset+ph.memSize) : loadedImage stale file w≠none := by
  rw [loadedImage,ne_eq,writeSections_eq_none,reserveSegments_zero _ ⟨ph,hmem,hasPage_of_mem hph hv hw⟩]
  simp

theorem builtImage_of_loaded (hw : w<envAt stale file) (hne : loadedImage stale file w≠none) :
    builtImage stale file env w=loadedImage stale file w := by
  have hs : envAt stale file+(0+env.length+1)*4 ≤ stringsAt stale file env := by rw [stringsAt,Nat.zero_add]
  rw [builtImage,writeTable_before (.inl (by omega)) hs,reserveRange_of_some,reserve_of_some hne]
  rwa [reserve_of_some hne]

theorem builtImage_stack (h : maskToPage w=stackAt stale file) : builtImage stale file env w≠none := by
  have hm : maskToPage (stackAt stale file)=stackAt stale file := maskToPage_of_aligned stackAt_mod
  have hs : (loadedImage stale file).reserve (stackAt stale file) w≠none := by simp_all [Image.reserve]
  rwa [builtImage,ne_eq,writeTable_eq_none,reserveRange_of_some hs]

theorem builtImage_env (hv : envAt stale file≤w) (hw : w<breakAt stale file env) :
    builtImage stale file env w≠none := by
  have hm : envAt stale file ≤ maskToPage w := by
    have hmn := maskToPage_mono hv
    rwa [maskToPage_of_aligned envAt_mod] at hmn
  rw [builtImage,ne_eq,writeTable_eq_none,reserveRange,if_pos ⟨hm,(maskToPage_le w).trans_lt hw⟩]
  simp
end

theorem BuiltProc.view (h : BuiltProc L stale file env proc k) (hw : w<userTop) :
    userView k.machine.mem proc.arch.pd w=builtImage stale file env w := by
  obtain ⟨live,hb⟩ := h.memory
  exact hb.view w hw

section

def zeroStale : Stale where
  header := List.replicate 24 0
  header32 := List.replicate 28 0
  program := List.replicate 32 0
  sectionHeader := List.replicate 40 0
  contents := fun _=>0
  header_length := length_replicate
  header32_length := length_replicate
  program_length := length_replicate
  sectionHeader_length := length_replicate

def halfBytes (x : ℕ) : List UInt8 := [UInt8.ofNat x, UInt8.ofNat (x/2^8)]

/-- An executable with one byte of code at `0x1000`, a segment of the given size for it, and sections. -/
def tinyFile (memSize : ℕ) (sections : List (List UInt8)) : List UInt8 :=
  elfMagic++[1, 1, 1, 0]++List.replicate 8 0++halfBytes 2++halfBytes 3++wordBytes 1 ++
  wordBytes 0x1000++wordBytes 52++wordBytes 84++wordBytes 0++halfBytes 52++halfBytes 32++halfBytes 1 ++
  halfBytes 40++halfBytes sections.length++halfBytes 0 ++
  wordBytes 1++wordBytes (84+40*sections.length)++wordBytes 0x1000++wordBytes 0++wordBytes 1 ++
  wordBytes memSize++wordBytes 5++wordBytes 0x1000++sections.flatten++[0x41]

def codeSection : List UInt8 :=
  wordBytes 0++wordBytes 1++wordBytes 6++wordBytes 0x1000++wordBytes 124++wordBytes 1++wordBytes 0 ++
  wordBytes 0++wordBytes 1++wordBytes 0

/-- Without a section header table. -/
def strippedFile : List UInt8 := tinyFile 1 []

def wholeFile : List UInt8 := tinyFile 0x1000 [codeSection]

theorem segments_strippedFile : segments zeroStale strippedFile=[⟨1,84,0x1000,1,1⟩] := by decide

theorem sections_strippedFile : sections zeroStale strippedFile=[] := by decide

set_option maxRecDepth 4000 in
theorem segments_wholeFile : segments zeroStale wholeFile=[⟨1,124,0x1000,1,0x1000⟩] := by decide

set_option maxRecDepth 4000 in
theorem sections_wholeFile : sections zeroStale wholeFile=[⟨1,0x1000,124,1⟩] := by decide

theorem length_wholeFile : wholeFile.length=125 := rfl

set_option maxRecDepth 4000 in
theorem header_ok : (header zeroStale strippedFile).Ok ∧ (header zeroStale wholeFile).Ok := by
  unfold ElfHeader.Ok
  decide

variable {env : List (List UInt8)}

theorem accepted_strippedFile : Accepted zeroStale strippedFile (some 0) (some 0) (some 0) 0x10000 where
  header := header_ok.1
  types := by simp [segments_strippedFile,elfSegLoad]
  streams := by simp
  stack0 := rfl
  stack := by
    rw [stackAt,segments_strippedFile]
    decide

theorem accepted_wholeFile : Accepted zeroStale wholeFile (some 0) (some 0) (some 0) 0x10000 where
  header := header_ok.2
  types := by simp [segments_wholeFile,elfSegLoad]
  streams := by simp
  stack0 := rfl
  stack := by
    rw [stackAt,segments_wholeFile]
    decide

theorem stackAt_strippedFile : stackAt zeroStale strippedFile=0x1000 := by
  rw [stackAt,segments_strippedFile]
  decide

theorem stackAt_wholeFile : stackAt zeroStale wholeFile=0x2000 := by
  rw [stackAt,segments_wholeFile]
  decide

section
variable (henv : formattedEnvSize env<0x1000)
include henv
theorem envPages_of_lt : envPages env=1 := by
  rw [envPages]
  simp only [pageSize]
  omega

theorem fits_strippedFile : Fits zeroStale strippedFile env where
  userSegments := by simp [segments_strippedFile,InUserSpace,userTop]
  userSections := by simp [sections_strippedFile]
  room := by
    have hp := envPages_of_lt henv
    rw [breakAt,envAt,stackAt_strippedFile]
    simp only [pageSize,userTop]
    omega

theorem fits_wholeFile : Fits zeroStale wholeFile env where
  userSegments := by simp [segments_wholeFile,InUserSpace,userTop]
  userSections := by simp [sections_wholeFile,userTop]
  room := by
    have hp := envPages_of_lt henv
    rw [breakAt,envAt,stackAt_wholeFile]
    simp only [pageSize,userTop]
    omega
end

theorem exists_exec (text : KernelText) (hft : Fits stale file env)
    (hacc : Accepted stale file (some 0) (some 0) (some 0) 0x10000) (hfr : framesNeeded stale file env<16) :
    ∃ s k proc thread k', SpacesStart .smallImage ⟨s,[],[]⟩ ∧ k.machine=s ∧
      execUserElfProgram .smallImage text stale (some file) (some 0) (some 0) (some 0) env 0x10000 k =
        .ok (proc, thread) k' ∧ Clean k.machine k'.machine ∧ BuiltProc .smallImage stale file env proc k' := by
  obtain ⟨s,fl,h0,hinv,hlen,-⟩ := exists_spacesStart 16 le_rfl
  have ho : Owned .smallImage (⟨s,fun _=>0,fun _=>0,1,1⟩ : Kern).machine fl [] (fun _=>.free) := hinv.owned
  obtain ⟨proc,thread,k',hok,hcl,hbl⟩ := execUserElfProgram_returns text ho hft hacc (by omega)
  exact ⟨s,_,proc,thread,k',h0,rfl,hok,hcl,hbl⟩

theorem framesNeeded_strippedFile (henv : formattedEnvSize env<0x1000) :
    framesNeeded zeroStale strippedFile env=6 := by
  rw [framesNeeded,segments_strippedFile,envPages_of_lt henv]
  decide

theorem framesNeeded_wholeFile (henv : formattedEnvSize env<0x1000) : framesNeeded zeroStale wholeFile env=8 := by
  rw [framesNeeded,segments_wholeFile,envPages_of_lt henv]
  decide
end

section
variable {L : Layout} {text : KernelText} {stale : Stale} {file : List UInt8} {stdin stdout stderr : Option ℕ}
  {env : List (List UInt8)} {stack0 : ℕ} {k k' : Kern} {a b : Spaces} {proc : UserProc} {thread : ArchThread}

abbrev Area := ℕ × ℕ

def Area.Has (r : Area) (x : ℕ) : Prop := r.1≤x ∧ x<r.1+r.2

def Apart (r r' : Area) : Prop := ∀ x, ¬ (Area.Has r x ∧ Area.Has r' x)

def segmentArea (ph : Elf32ProgramHeader) : Area := (ph.memOffset, ph.memSize)

/-- The segments, the stack and the formatted environment of a process. -/
def areas (stale : Stale) (file : List UInt8) (env : List (List UInt8)) (proc : UserProc) : List Area :=
  (segments stale file).map segmentArea ++
    [(proc.arch.vstack, proc.arch.stackSize), (proc.arch.venvironment, formattedEnvSize env)]

theorem Fits.lt_envAt (h : Fits stale file env) (hph : ph ∈ segments stale file)
    (hx : (segmentArea ph).Has x) : x<envAt stale file ∧ x<userTop := by
  have hus := h.userSegments ph hph
  have hpg := (hasPage_of_mem hus hx.1 hx.2).2
  have hle : segmentEnd ph ≤ stackAt stale file := segmentEnd_le_highestEnd 0 hph
  have hlt := lt_maskToPage_add x
  have hmod := maskToPage_mod x
  have hend : segmentEnd ph%pageSize=0 := maskToPage_mod _
  have hx' : x<ph.memOffset+ph.memSize := hx.2
  have hus' : ph.memOffset+ph.memSize≤userTop := hus
  refine ⟨?_,by omega⟩
  rw [envAt]
  simp only [pageSize] at *
  omega

theorem BuiltProc.mapped (h : BuiltProc L stale file env proc k) (hft : Fits stale file env)
    (hr : r ∈ areas stale file env proc) (hx : r.Has x) : userView k.machine.mem proc.arch.pd x≠none := by
  obtain ⟨hrm,-,hsz,-,henvAt,-,hbr⟩ := hft.bounds
  rw [areas,mem_append,h.stack,h.stackSize,h.environment] at hr
  rcases hr with hr | hr
  · obtain ⟨ph,hph,rfl⟩ := mem_map.mp hr
    obtain ⟨henv,htop⟩ := hft.lt_envAt hph hx
    have hld := loadedImage_ne_none hph (hft.userSegments ph hph) hx.1 hx.2
    rwa [h.view htop,builtImage_of_loaded henv hld]
  · obtain ⟨hx1,hx2⟩ := hx
    simp only [mem_cons,not_mem_nil,or_false] at hr
    rcases hr with rfl | rfl
    · rw [h.view (by omega)]
      exact builtImage_stack (maskToPage_eq stackAt_mod hx1 hx2)
    · rw [h.view (by omega)]
      exact builtImage_env hx1 (by omega)

end

section
variable {L : Layout} {text : KernelText} {stale : Stale} {file : List UInt8} {stdin stdout stderr : Option ℕ}
  {env : List (List UInt8)} {stack0 : ℕ} {k k' : Kern} {a b : Spaces} {proc : UserProc} {thread : ArchThread}
  {im : Image} {w : ℕ}

/-- The section is loaded to addresses that `w` is one of. -/
def Elf32SectionHeader.Puts (sh : Elf32SectionHeader) (w : ℕ) : Prop :=
  sh.Loaded ∧ sh.memOffset≤w ∧ w<sh.memOffset+sh.fileSize

/-- What a segment has at an offset: a byte of the file, and zeros after them. -/
def segmentByte (file : List UInt8) (ph : Elf32ProgramHeader) (i : ℕ) : UInt8 :=
  if i<ph.fileSize then file.getD (ph.fileOffset+i) 0 else 0

/-- The section header table says what the program header table says, and leaves out only zeros. -/
structure SectionsAgree (stale : Stale) (file : List UInt8) : Prop where
  segmentsInFile : ∀ ph ∈ segments stale file, ph.fileSize≤ph.memSize ∧ ph.fileOffset+ph.fileSize≤file.length
  sectionsInFile : ∀ sh ∈ sections stale file, sh.Loaded →
    sh.fileOffset+sh.fileSize≤file.length ∧ sh.fileSize<2^31
  same : ∀ ph ∈ segments stale file, ∀ i<ph.memSize, ∀ sh ∈ sections stale file, sh.Puts (ph.memOffset+i) →
    file.getD (sh.fileOffset+(ph.memOffset+i-sh.memOffset)) 0=segmentByte file ph i
  covered : ∀ ph ∈ segments stale file, ∀ i<ph.memSize, segmentByte file ph i≠0 →
    ∃ sh ∈ sections stale file, sh.Puts (ph.memOffset+i)

theorem sectionContents_getD (hin : sh.fileOffset+sh.fileSize≤file.length)
    (hs : sh.fileSize<2^31) (hj : j<sh.fileSize) :
    (sectionContents stale file sh).getD j 0=file.getD (sh.fileOffset+j) 0 := by
  have hlen : ((List.range sh.fileSize).map stale.contents).length=sh.fileSize := by
    rw [length_map,length_range]
  have ht : ((file.drop sh.fileOffset).take sh.fileSize).length=sh.fileSize := by
    rw [length_take,length_drop]
    omega
  rw [sectionContents,fileRead,hlen,if_pos ⟨hs,by omega⟩]
  simp only [ht,drop_of_length_le hlen.le,append_nil]
  rw [getD_eq_getElem _ _ (by omega),getElem_take,getElem_drop,getD_eq_getElem]

theorem writeSections_eq {shs : List Elf32SectionHeader} (hsm : im w≠none)
    (hag : ∀ sh ∈ shs, sh.Puts w → (sectionContents stale file sh).getD (w-sh.memOffset) 0=c) :
    ((∃ sh ∈ shs, sh.Puts w) → shs.foldl (writeSection stale file) im w=some c) ∧
      ((∀ sh ∈ shs, ¬ sh.Puts w) → shs.foldl (writeSection stale file) im w=im w) := by
  induction shs generalizing im with
  | nil => simp
  | cons sh shs ih =>
    have hrs := fun s hs=>hag s (mem_cons_of_mem sh hs)
    rw [foldl_cons]
    by_cases hpt : sh.Puts w
    · have hst : writeSection stale file im sh w=some c := by
        obtain ⟨x,hx⟩ := ne_none_iff_exists'.mp hsm
        rw [writeSection,if_pos hpt.1,Image.write,sectionContents_length,if_pos hpt.2,hx,map_some,
          hag sh (by simp) hpt]
      have hwr : writeSection stale file im sh w≠none := by simp [hst]
      obtain ⟨hyes,hno⟩ := ih hwr hrs
      refine ⟨fun _=>?_,fun hnn=>absurd hpt (hnn sh (by simp))⟩
      by_cases hlt : ∃ s ∈ shs, s.Puts w
      · exact hyes hlt
      · rw [hno (fun s hs hp=>hlt ⟨s,hs,hp⟩),hst]
    · have hst : writeSection stale file im sh w=im w := by
        rw [writeSection]
        split
        · next hld =>
          apply Image.write_outside im
          rw [sectionContents_length]
          by_contra hc
          exact hpt ⟨hld,by omega,by omega⟩
        · rfl
      have hkp : writeSection stale file im sh w≠none := by rwa [hst]
      obtain ⟨hyes,hno⟩ := ih hkp hrs
      refine ⟨fun hsm'=>hyes ?_,fun hnn=>?_⟩
      · obtain ⟨s,hs,hp⟩ := hsm'
        rcases mem_cons.mp hs with rfl | hs
        · exact absurd hp hpt
        · exact ⟨s,hs,hp⟩
      · rw [hno (fun s hs=>hnn s (mem_cons_of_mem sh hs)),hst]

theorem loadedImage_eq (hft : Fits stale file env) (hag : SectionsAgree stale file)
    (hph : ph ∈ segments stale file) (hi : i<ph.memSize) :
    loadedImage stale file (ph.memOffset+i)=some (segmentByte file ph i) := by
  have hzr : (segments stale file).foldl reserveSegment (fun _=>none) (ph.memOffset+i)=some 0 :=
    reserveSegments_zero _ ⟨ph,hph,hasPage_of_mem (hft.userSegments ph hph) (by omega) (by omega)⟩
  have hpt : ∀ sh ∈ sections stale file, sh.Puts (ph.memOffset+i) →
      (sectionContents stale file sh).getD (ph.memOffset+i-sh.memOffset) 0=segmentByte file ph i := by
    intro sh hsh hput
    obtain ⟨hin,hsz⟩ := hag.sectionsInFile sh hsh hput.1
    rw [sectionContents_getD hin hsz (by have := hput.2; omega)]
    exact hag.same ph hph i hi sh hsh hput
  obtain ⟨hyes,hno⟩ := writeSections_eq (hzr▸some_ne_none 0) hpt
  by_cases hsm : ∃ sh ∈ sections stale file, sh.Puts (ph.memOffset+i)
  · exact hyes hsm
  · rw [loadedImage,hno (fun sh hsh hp=>hsm ⟨sh,hsh,hp⟩),hzr]
    by_contra hne
    exact hsm (hag.covered ph hph i hi (fun hc=>hne (by rw [hc])))

theorem sectionsAgree_wholeFile : SectionsAgree zeroStale wholeFile where
  segmentsInFile := by
    rw [segments_wholeFile,length_wholeFile]
    decide
  sectionsInFile := by simp [sections_wholeFile,length_wholeFile]
  same := by
    rw [segments_wholeFile,sections_wholeFile]
    simp only [mem_singleton,forall_eq,Elf32SectionHeader.Puts]
    rintro i - ⟨-,-,hi⟩
    have hz : i=0 := by omega
    subst hz
    rfl
  covered := by
    rw [segments_wholeFile,sections_wholeFile]
    simp only [mem_singleton,forall_eq,exists_eq_left]
    intro i _ hne
    have hi : i<1 := by
      by_contra hc
      exact hne (if_neg hc)
    exact ⟨by decide,Nat.le_add_right 0x1000 i,Nat.add_lt_add_left hi 0x1000⟩

end

end Yaos2.Elf
