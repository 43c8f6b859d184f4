import Yaos2.Elf.Loader

/-! # The image that `exec_user_elf_program` builds -/
namespace Yaos2.Elf
open Foundation Memory Process List Nat

section
variable {L : Layout} {stale : Stale} {file : List UInt8}

theorem grows_pagingMap (pd v p flags : ℕ) : Grows (pagingMap L pd v p flags) :=
  .bind (.panicIf _ _) fun _=>.bind (.bind .get fun _=>.panicIf _ _) fun _=>.bind .isUsingKernelPageTables fun _ =>
    .bind (.kassert _ _) fun _=>.bind (.translateOrPanic _) fun _=>.bind (.readPtr _ _) fun _ =>
      .bind (.panicIf _ _) fun _=>.bind
        (.bind (.readPtr _ _) fun _=>.ite (.bind (.kassert _ _) fun _=>.bind .palloc fun _ =>
          .bind (.kmemset _ _ _) fun _=>.writeEntry _ _) (.pure _)) fun _ =>
        .bind (.readPtr _ _) fun _=>.bind (.writeEntry _ _) fun _=>.bind (.readPtr _ _) fun _ =>
          .bind (.translateOrPanic _) fun _=>.writeEntry _ _

theorem grows_procVmreserve (proc : Proc) (v flags : ℕ) : Grows (procVmreserve L proc v flags) :=
  .bind .isUsingKernelPageTables fun _=>.bind (.kassert _ _) fun _=>.bind .get fun _ =>
    .bind (.panicIf _ _) fun _=>.bind (.bind (.pagingGetEntry _ _) fun _=>.pure _) fun _ =>
      .ite (.pure _) (.bind .palloc fun _=>.bind (grows_pagingMap _ _ _ _) fun _=>.pure _)

theorem grows_procVmwrite (pd v : ℕ) (buf : List UInt8) : Grows (procVmwrite L pd v buf) :=
  .bind .isUsingKernelPageTables fun _=>.bind (.kassert _ _) fun _=>.bind .isUsingKernelPageTables fun _ =>
    .bind (.kassert _ _) fun _=>.vmxchgLoop _ _ _ _

theorem grows_reservePages (fuel : ℕ) (proc : Proc) (v vto : ℕ) : Grows (reservePages L fuel proc v vto) := by
  induction fuel generalizing proc v with
  | zero => exact .abort _
  | succ fuel ih => exact .ite (.bind (grows_procVmreserve _ _ _) fun _=>ih _ _) (.pure _)

theorem grows_handleSegments (phs : List Elf32ProgramHeader) (proc : Proc) (vbreak : ℕ) :
    Grows (handleSegments L phs proc vbreak) := by
  induction phs generalizing proc vbreak with
  | nil => exact .pure _
  | cons ph phs ih =>
    exact .bind (.bind (.kassert _ _) fun _=>.bind (grows_reservePages _ _ _ _) fun _=>.pure _) fun _=>ih _ _

theorem grows_handleSections (proc : Proc) (shs : List Elf32SectionHeader) :
    Grows (handleSections L stale file proc shs) := by
  induction shs with
  | nil => exact .pure _
  | cons sh shs ih =>
    exact .bind (.ite (.bind (grows_procVmwrite _ _ _) fun _=>.pure _) (.pure _)) fun _=>ih

theorem grows_reserveEnv (n : ℕ) (proc : Proc) (vbreak : ℕ) : Grows (reserveEnv L n proc vbreak) := by
  induction n generalizing proc vbreak with
  | zero => exact .pure _
  | succ n ih => exact .bind (grows_procVmreserve _ _ _) fun _=>ih _ _

theorem grows_writeEnv (pd envTable envStrings : ℕ) (env : List (List UInt8)) (i offset : ℕ) :
    Grows (writeEnv L pd envTable envStrings env i offset) := by
  induction env generalizing i offset with
  | nil => exact .bind (grows_procVmwrite _ _ _) fun _=>.pure _
  | cons e env ih =>
    exact .bind (grows_procVmwrite _ _ _) fun _=>.bind (grows_procVmwrite _ _ _) fun _=>ih _ _

theorem grows_createEnv (env : List (List UInt8)) (proc : Proc) (envTable : ℕ) :
    Grows (createEnv L env proc envTable) :=
  .bind (grows_reserveEnv _ _ _) fun _=>.bind (grows_writeEnv _ _ _ _ _ _) fun _=>.pure _
end

/-- All pages from `v` up to `limit` are there. -/
def reserveRange (im : Image) (v limit : ℕ) : Image := fun w =>
  if v ≤ maskToPage w ∧ maskToPage w<limit then some ((im w).getD 0) else im w

theorem aligned_le_iff (hv : v%pageSize=0) (hw : w%pageSize=0) : v≤w ↔ w=v ∨ v+pageSize≤w := by
  simp only [pageSize] at *
  omega

theorem reserveRange_succ (im : Image) (hv : v%pageSize=0) (hlt : v<limit) :
    reserveRange (im.reserve v) (v+pageSize) limit=reserveRange im v limit := by
  funext w
  have hst := aligned_le_iff hv (maskToPage_mod w)
  have hms := maskToPage_of_aligned hv
  simp only [reserveRange,Image.reserve,hms]
  by_cases hw : maskToPage w=v <;> simp_all

theorem reserveRange_empty (im : Image) (v : ℕ) : reserveRange im v v=im := by
  funext w
  rw [reserveRange,if_neg (by omega)]

section
variable {L : Layout} {s : Machine} {live : List ℕ} {im : Image} {n : ℕ} {good : Prop} {proc : Proc}
  {stale : Stale} {file : List UInt8}

theorem reservePages_track (h : Backs L s live proc.pd im n) (hv : v%pageSize=0)
    (hk : vto+pageSize=v+pageSize*k) (hvto : vto<userTop) (hfl : k<fuel) :
    Track good (reservePages L fuel proc v vto) s n (2*k) (fun proc' t=>proc'.pd=proc.pd ∧
      Backs L t live proc.pd (reserveRange im v (vto+pageSize)) (n-2*k)) := by
  induction k generalizing s im n proc v fuel with
  | zero =>
    obtain ⟨fuel,rfl⟩ : ∃ f, fuel=f+1 := ⟨fuel-1,by omega⟩
    have hlt : vto<v := by
      simp only [pageSize] at hk
      omega
    rw [reservePages,if_neg (by omega)]
    refine .pure ⟨rfl,?_⟩
    rwa [hk,mul_zero,add_zero,reserveRange_empty]
  | succ k ih =>
    obtain ⟨fuel,rfl⟩ : ∃ f, fuel=f+1 := ⟨fuel-1,by omega⟩
    have hle : v≤vto := by
      simp only [pageSize] at hk
      omega
    have hlt : v<vto+pageSize := hle.trans_lt (Nat.lt_add_of_pos_right (by decide))
    have hnx : (v+pageSize)%2^32=v+pageSize := mod_eq_of_lt (by
      simp only [pageSize,userTop] at *
      omega)
    rw [reservePages,if_pos hle,hnx]
    refine .bind (2*k) (by omega) (procVmreserve_track h (by omega) (by decide))
      (fun _=>grows_reservePages _ _ _ _) ?_
    rintro proc' t ⟨hpd,ht⟩
    rw [← hpd] at ht
    refine (ih ht ?_ ?_ (by omega)).mono ?_
    · simp only [pageSize] at *
      omega
    · rw [hk,mul_succ,add_assoc,add_comm (pageSize*k)]
    · simp [hpd,reserveRange_succ im hv hlt,Nat.sub_sub,show 2+2*k=2*(k+1) by omega]

def segmentPages (ph : Elf32ProgramHeader) : ℕ := (segmentEnd ph-maskToPage ph.memOffset)/pageSize+1

def InUserSpace (ph : Elf32ProgramHeader) : Prop := ph.memOffset+ph.memSize≤userTop

def reserveSegment (im : Image) (ph : Elf32ProgramHeader) : Image :=
  reserveRange im (maskToPage ph.memOffset) (segmentEnd ph+pageSize)

theorem segmentEnd_eq (h : InUserSpace ph) : segmentEnd ph=maskToPage (ph.memOffset+ph.memSize) := by
  rw [segmentEnd,mod_eq_of_lt (lt_of_le_of_lt h (by decide))]

theorem maskToPage_mono (h : v≤w) : maskToPage v ≤ maskToPage w := by
  have hv := mask_add_mod v
  have hw := mask_add_mod w
  have hav := maskToPage_mod v
  have haw := maskToPage_mod w
  simp only [pageSize] at *
  omega

theorem handleSegment_track (h : Backs L s live proc.pd im n)
    (hph : InUserSpace ph) (htop : segmentEnd ph<userTop) (hgd : good → ph.type=elfSegLoad) :
    Track good (handleSegment L ph proc vbreak) s n (2*segmentPages ph) (fun r t =>
      r.1.pd=proc.pd ∧ r.2=max vbreak (segmentEnd ph) ∧
        Backs L t live proc.pd (reserveSegment im ph) (n-2*segmentPages ph)) := by
  have hend := segmentEnd_eq hph
  have hle : maskToPage ph.memOffset ≤ segmentEnd ph := by
    rw [hend]
    exact maskToPage_mono (le_add_right _ _)
  have hmax : (if segmentEnd ph > vbreak then segmentEnd ph else vbreak)=max vbreak (segmentEnd ph) := by
    split <;> omega
  have hav := maskToPage_mod ph.memOffset
  have hae : segmentEnd ph%pageSize=0 := maskToPage_mod _
  have hk : segmentEnd ph+pageSize=maskToPage ph.memOffset+pageSize*segmentPages ph := by
    rw [segmentPages]
    simp only [pageSize] at *
    omega
  have hfl : segmentPages ph<addressPages := by
    rw [segmentPages,addressPages]
    simp only [pageSize,userTop] at *
    omega
  refine .bind (R := fun _ t=>Backs L t live proc.pd im n) _ (zero_add _)
    (.kassert (fun hg=>beq_iff_eq.mpr (hgd hg)) h)
    (fun _=>.bind (grows_reservePages _ _ _ _) fun _=>.pure _) ?_
  intro _ t ht
  refine .bind 0 (add_zero _) (reservePages_track ht hav hk htop hfl) (fun _=>.pure _) ?_
  rintro proc' u ⟨hpd,hu⟩
  exact .pure ⟨hpd,hmax,hu⟩

def totalPages (phs : List Elf32ProgramHeader) : ℕ := (phs.map segmentPages).sum

/-- Where the page of the highest end of a segment is. -/
def highestEnd (vbreak : ℕ) (phs : List Elf32ProgramHeader) : ℕ :=
  phs.foldl (fun vbreak ph=>max vbreak (segmentEnd ph)) vbreak

theorem handleSegments_track (h : Backs L s live proc.pd im n)
    (hphs : ∀ ph ∈ phs, InUserSpace ph ∧ segmentEnd ph<userTop)
    (hgd : good → ∀ ph ∈ phs, ph.type=elfSegLoad) :
    Track good (handleSegments L phs proc vbreak) s n (2*totalPages phs) (fun r t =>
      r.1.pd=proc.pd ∧ r.2=highestEnd vbreak phs ∧
        Backs L t live proc.pd (phs.foldl reserveSegment im) (n-2*totalPages phs)) := by
  induction phs generalizing s im n proc vbreak with
  | nil => exact .pure ⟨rfl,rfl,h⟩
  | cons ph phs ih =>
    have hcs : 2*segmentPages ph+2*totalPages phs=2*totalPages (ph::phs) := by simp [totalPages,mul_add]
    obtain ⟨hph,htop⟩ := hphs ph (by simp)
    refine .bind _ hcs (handleSegment_track h hph htop (fun hg=>hgd hg ph (by simp)))
      (fun _=>grows_handleSegments _ _ _) ?_
    rintro ⟨proc',vbreak'⟩ t ⟨hpd,rfl,ht⟩
    simp only at hpd
    rw [← hpd] at ht
    apply (ih ht (fun p hp=>hphs p (by simp [hp])) (fun hg p hp=>hgd hg p (by simp [hp]))).mono
    rintro r u ⟨hpd',hr,hu⟩
    rw [hpd,Nat.sub_sub,hcs] at hu
    exact ⟨hpd'.trans hpd,hr,hu⟩

/-- Whether the contents of a section are loaded. -/
def Elf32SectionHeader.Loaded (sh : Elf32SectionHeader) : Prop :=
  sh.type=elfShtProgbits ∧ sh.fileSize > 0 ∧ sh.memOffset > 0

instance (sh : Elf32SectionHeader) : Decidable sh.Loaded := inferInstanceAs (Decidable (_ ∧ _))

theorem fileRead_length (file : List UInt8) (offset : ℕ) (buf : List UInt8) :
    (fileRead file offset buf).length=buf.length := by
  rw [fileRead]
  split
  · simp
  · rfl

theorem sectionContents_length (sh : Elf32SectionHeader) : (sectionContents stale file sh).length=sh.fileSize := by
  rw [sectionContents,fileRead_length,length_map,length_range]

variable (stale file) in
def writeSection (im : Image) (sh : Elf32SectionHeader) : Image :=
  if sh.Loaded then im.write sh.memOffset (sectionContents stale file sh) else im

theorem handleSections_track (h : Backs L s live proc.pd im n)
    (hshs : ∀ sh ∈ shs, sh.Loaded → sh.memOffset+sh.fileSize≤userTop) :
    Track good (handleSections L stale file proc shs) s n 0 (fun _ t =>
      Backs L t live proc.pd (shs.foldl (writeSection stale file) im) n) := by
  induction shs generalizing s im with
  | nil => exact .pure h
  | cons sh shs ih =>
    refine .bind (R := fun _ t=>Backs L t live proc.pd (writeSection stale file im sh) n) 0 (add_zero _) ?_
      (fun _=>grows_handleSections _ _) (fun _ t ht=>ih ht (fun p hp=>hshs p (by simp [hp])))
    by_cases hld : sh.Loaded
    · rw [handleSection,if_pos (show sh.type=elfShtProgbits ∧ sh.fileSize > 0 ∧ sh.memOffset > 0 from hld),
        handleSectionLoad,writeSection,if_pos hld]
      refine .bind 0 (add_zero _) (procVmwrite_track h _ ?_) (fun _=>.pure _) (fun _ t ht=>.pure ht)
      rw [sectionContents_length]
      exact hshs sh (by simp) hld
    · rw [handleSection,if_neg (show ¬ (sh.type=elfShtProgbits ∧ sh.fileSize > 0 ∧ sh.memOffset > 0) from hld),
        writeSection,if_neg hld]
      exact .pure h

theorem reserveEnv_track (h : Backs L s live proc.pd im n) (hv : v%pageSize=0)
    (hk : v+pageSize*k≤userTop) :
    Track good (reserveEnv L k proc v) s n (2*k) (fun r t=>r.1.pd=proc.pd ∧ r.2=v+pageSize*k ∧
      Backs L t live proc.pd (reserveRange im v (v+pageSize*k)) (n-2*k)) := by
  induction k generalizing s im n proc v with
  | zero =>
    refine .pure ⟨rfl,rfl,?_⟩
    rwa [mul_zero,add_zero,reserveRange_empty]
  | succ k ih =>
    have hsum : v+pageSize*(k+1)=v+pageSize+pageSize*k := by
      rw [mul_succ]
      omega
    have hpos : 0<pageSize := by decide
    have hnx : (v+pageSize)%2^32=v+pageSize := mod_eq_of_lt (by
      simp only [pageSize,userTop] at *
      omega)
    rw [reserveEnv,hnx]
    refine .bind (2*k) (by omega) (procVmreserve_track h (by omega) (by decide)) (fun _=>grows_reserveEnv _ _ _) ?_
    rintro proc' t ⟨hpd,ht⟩
    rw [← hpd] at ht
    refine (ih ht ?_ (by omega)).mono ?_
    · simp_all
    · rintro r u ⟨hpd',hr,hu⟩
      rw [hpd,← hsum,reserveRange_succ im hv (by omega),Nat.sub_sub,show 2+2*k=2*(k+1) by omega] at hu
      exact ⟨hpd'.trans hpd,hr.trans hsum.symm,hu⟩

/-- The table that `writeEnv` leaves, from entry `i` on. -/
def writeTable (envTable envStrings : ℕ) : List (List UInt8) → ℕ → ℕ → Image → Image
  | [], i, _, im => im.write (envTable+i*4) (wordBytes 0)
  | e::env, i, offset, im => writeTable envTable envStrings env (i+1) (offset+e.length+1)
      ((im.write (envTable+i*4) (wordBytes (envStrings+offset))).write (envStrings+offset) (e++[0]))

/-- The lengths of the strings with their terminators. -/
def stringsSize (env : List (List UInt8)) : ℕ := (env.map (fun e=>e.length+1)).sum

theorem writeEnv_track (h : Backs L s live pd im n) (htb : envTable+(i+env.length)*4+4≤userTop)
    (hst : envStrings+offset+stringsSize env≤userTop) :
    Track good (writeEnv L pd envTable envStrings env i offset) s n 0 (fun _ t =>
      Backs L t live pd (writeTable envTable envStrings env i offset im) n) := by
  have hmod : ∀ {x}, x<userTop → x%2^32=x := fun hx=>mod_eq_of_lt (lt_trans hx (by decide))
  have hwr : ∀ x, (wordBytes x).length=4 := fun _=>rfl
  induction env generalizing s im i offset with
  | nil =>
    rw [length_nil] at htb
    rw [writeEnv,hmod (by omega)]
    exact .bind 0 (add_zero _) (procVmwrite_track h _ (by rw [hwr]; omega)) (fun _=>.pure _)
      (fun _ t ht=>.pure ht)
  | cons e env ih =>
    rw [length_cons] at htb
    rw [stringsSize,map_cons,sum_cons,← stringsSize] at hst
    rw [writeEnv,hmod (show envTable+i*4<userTop by omega),hmod (show envStrings+offset<userTop by omega)]
    refine .bind 0 (add_zero _) (procVmwrite_track h _ (by rw [hwr]; omega))
      (fun _=>.bind (grows_procVmwrite _ _ _) fun _=>grows_writeEnv _ _ _ _ _ _) (fun _ t ht=>?_)
    refine .bind 0 (add_zero _) (procVmwrite_track ht _ (by simp only [length_append,length_singleton]; omega))
      (fun _=>grows_writeEnv _ _ _ _ _ _) (fun _ u hu=>?_)
    exact ih hu (by omega) (by omega)
end

section
variable (stale : Stale) (file : List UInt8) (env : List (List UInt8))

/-- Where the stack is: at the page of the highest end of a segment. -/
def stackAt : ℕ := highestEnd 0 (segments stale file)

def envAt : ℕ := stackAt stale file+pageSize

def envPages : ℕ := formattedEnvSize env/pageSize+1

def stringsAt : ℕ := envAt stale file+(env.length+1)*4

def breakAt : ℕ := envAt stale file+pageSize*envPages env

/-- The frames that are enough: two for each page, as it may need a page table. -/
def framesNeeded : ℕ := 2*(totalPages (segments stale file)+1+envPages env)

def loadedImage : Image :=
  (sections stale file).foldl (writeSection stale file) ((segments stale file).foldl reserveSegment (fun _=>none))

def builtImage : Image := writeTable (envAt stale file) (stringsAt stale file env) env 0 0
    (reserveRange ((loadedImage stale file).reserve (stackAt stale file)) (envAt stale file) (breakAt stale file env))

/-- The file can be loaded: the segments and the sections are in user memory, and there is room after them. -/
structure Fits : Prop where
  userSegments : ∀ ph ∈ segments stale file, InUserSpace ph
  userSections : ∀ sh ∈ sections stale file, sh.Loaded → sh.memOffset+sh.fileSize≤userTop
  room : breakAt stale file env≤userTop

variable {stale file env}

theorem formattedEnvSize_eq (env : List (List UInt8)) :
    formattedEnvSize env=(env.length+1)*4+stringsSize env := by
  induction env with
  | nil => rfl
  | cons e env ih =>
    simp only [formattedEnvSize,stringsSize,map_cons,sum_cons,length_cons] at ih ⊢
    omega

theorem formattedEnvSize_lt (env : List (List UInt8)) : formattedEnvSize env<pageSize*envPages env := by
  have h := div_add_mod (formattedEnvSize env) pageSize
  have hlt : formattedEnvSize env%pageSize<pageSize := mod_lt _ (by decide)
  rw [envPages,mul_succ]
  omega

theorem le_highestEnd (vbreak : ℕ) (phs : List Elf32ProgramHeader) : vbreak≤highestEnd vbreak phs := by
  induction phs generalizing vbreak with
  | nil => exact le_rfl
  | cons ph phs ih => exact (le_max_left _ _).trans (ih _)

theorem segmentEnd_le_highestEnd (vbreak : ℕ) (h : ph ∈ phs) : segmentEnd ph≤highestEnd vbreak phs := by
  induction phs generalizing vbreak with
  | nil => cases h
  | cons q phs ih =>
    rcases mem_cons.mp h with rfl | h
    · exact (le_max_right _ _).trans (le_highestEnd _ phs)
    · exact ih _ h

theorem highestEnd_mod (hv : vbreak%pageSize=0) (phs : List Elf32ProgramHeader) :
    highestEnd vbreak phs%pageSize=0 := by
  induction phs generalizing vbreak with
  | nil => exact hv
  | cons ph phs ih =>
    have hmax : max vbreak (segmentEnd ph)%pageSize=0 := by
      rcases max_choice vbreak (segmentEnd ph) with h | h
      · rwa [h]
      · rw [h]
        exact maskToPage_mod _
    exact ih hmax

theorem Fits.segmentEnd_lt (h : Fits stale file env) (hph : ph ∈ segments stale file) :
    segmentEnd ph<userTop := by
  have hle := segmentEnd_le_highestEnd 0 hph
  have hr := h.room
  have hpos : 0<pageSize := by decide
  rw [breakAt,envAt,stackAt] at hr
  omega

section
/-- The parts of the memory behind the stack, and that they fit. -/
structure EnvBounds (stale : Stale) (file : List UInt8) (env : List (List UInt8)) : Prop where
  room : breakAt stale file env≤userTop
  top : userTop<2^32
  size : formattedEnvSize env<pageSize*envPages env
  sum : formattedEnvSize env=(env.length+1)*4+stringsSize env
  tableStart : envAt stale file=stackAt stale file+pageSize
  stringsStart : stringsAt stale file env=envAt stale file+(env.length+1)*4
  tableEnd : breakAt stale file env=envAt stale file+pageSize*envPages env

theorem Fits.bounds (h : Fits stale file env) : EnvBounds stale file env :=
  ⟨h.room,by decide,formattedEnvSize_lt env,formattedEnvSize_eq env,rfl,rfl,rfl⟩

variable {L : Layout} {s : Machine} {live : List ℕ} {n : ℕ} {good : Prop} {proc : Proc} {im : Image}

theorem stackAt_mod : stackAt stale file%pageSize=0 := highestEnd_mod (by decide) _

theorem envAt_mod : envAt stale file%pageSize=0 := by
  rw [envAt,add_mod_right]
  exact stackAt_mod

theorem createEnv_track (h : Backs L s live proc.pd im n) (hft : Fits stale file env) :
    Track good (createEnv L env proc (envAt stale file)) s n (2*envPages env) (fun r t =>
      r.1.pd=proc.pd ∧ r.2=breakAt stale file env ∧
        Backs L t live proc.pd (writeTable (envAt stale file) (stringsAt stale file env) env 0 0
          (reserveRange im (envAt stale file) (breakAt stale file env))) (n-2*envPages env)) := by
  obtain ⟨hrm,htop,hsz,hsum,-,hst,hbr⟩ := hft.bounds
  have hcn : formattedEnvSize env%2^32/pageSize+1=envPages env := by
    rw [mod_eq_of_lt (by omega)]
    rfl
  have hmod : (envAt stale file+(env.length+1)*4)%2^32=stringsAt stale file env := mod_eq_of_lt (by omega)
  rw [createEnv,hcn,hmod]
  refine .bind 0 (add_zero _) (reserveEnv_track h envAt_mod (by omega))
    (fun _=>.bind (grows_writeEnv _ _ _ _ _ _) fun _=>.pure _) ?_
  rintro ⟨proc',vbreak⟩ t ⟨hpd,rfl,ht⟩
  simp only at hpd ⊢
  rw [hpd]
  refine .bind 0 (add_zero _) (writeEnv_track ht (by omega) (by omega)) (fun _=>.pure _) (fun _ u hu=>?_)
  exact .pure ⟨hpd,rfl,hu⟩

theorem buildMemory_track (h : Backs L s live proc.pd (fun _=>none) n) (hft : Fits stale file env)
    (hgd : good → ∀ ph ∈ segments stale file, ph.type=elfSegLoad) :
    Track good (buildMemory L stale file (header32 stale file) env proc) s n (framesNeeded stale file env)
      (fun place t=>place.proc.pd=proc.pd ∧ place.stack=stackAt stale file ∧
        place.envTable=envAt stale file ∧ place.vbreak=breakAt stale file env ∧
        Backs L t live proc.pd (builtImage stale file env) (n-framesNeeded stale file env)) := by
  obtain ⟨hrm,htop,-,-,henvAt,-,hbr⟩ := hft.bounds
  have hpos : 0<pageSize := by decide
  have hnd : framesNeeded stale file env=2*totalPages (segments stale file)+(0+(2+2*envPages env)) := by
    rw [framesNeeded]
    omega
  have hmod : (stackAt stale file+pageSize)%2^32=envAt stale file := mod_eq_of_lt (by omega)
  rw [buildMemory_eq]
  refine .bind _ hnd.symm (handleSegments_track h
    (fun ph hph=>⟨hft.userSegments ph hph,hft.segmentEnd_lt hph⟩) hgd)
    (fun _=>.bind (grows_handleSections _ _) fun _=>.bind (grows_procVmreserve _ _ _) fun _ =>
      .bind (grows_createEnv _ _ _) fun _=>.pure _) ?_
  rintro ⟨proc1,stack⟩ s1 ⟨hpd1,hst,hs1⟩
  obtain rfl : stack=stackAt stale file := hst
  simp only at hpd1 ⊢
  rw [hmod,← hpd1]
  rw [← hpd1] at hs1
  refine .bind _ rfl (handleSections_track hs1 hft.userSections) (fun _=>.bind (grows_procVmreserve _ _ _) fun _ =>
    .bind (grows_createEnv _ _ _) fun _=>.pure _) (fun _ s2 hs2=>?_)
  refine .bind _ rfl (procVmreserve_track hs2 (show stackAt stale file<userTop by omega) (by decide))
    (fun _=>.bind (grows_createEnv _ _ _) fun _=>.pure _) ?_
  rintro proc3 s3 ⟨hpd3,hs3⟩
  rw [← hpd3] at hs3 ⊢
  refine .bind 0 (add_zero _) (createEnv_track hs3 hft) (fun _=>.pure _) ?_
  rintro ⟨proc4,vbreak4⟩ s4 ⟨hpd4,rfl,hs4⟩
  refine .pure ⟨hpd4,rfl,rfl,rfl,?_⟩
  rwa [hnd,← Nat.sub_sub,← Nat.sub_sub,← Nat.sub_sub]
end

end

section
variable {L : Layout} {text : KernelText} {stale : Stale} {file : List UInt8} {stdin stdout stderr : Option ℕ}
  {env : List (List UInt8)} {stack0 : ℕ} {k k' : Kern} {fl live : List ℕ} {role : ℕ → Role}

def ElfHeader.Ok (hdr : ElfHeader) : Prop :=
  kstrncmp hdr.magic elfMagic 4=true ∧ hdr.bits=elfBits32 ∧ hdr.endianness=elfLittleEndian ∧
    hdr.iset=elfIsetX86 ∧ hdr.type=elfTypeExec

theorem checkHeader_spec (hdr : ElfHeader) (k : Kern) :
    Ensures (checkHeader hdr) k (fun _ k'=>k'=k) (fun _=>¬ hdr.Ok) := by
  have hch : ∀ {e : String} {b : Bool} {Q : Unit → Kern → Prop}, (hdr.Ok → b=true) → Q () k →
      Ensures (kassert e b) k Q (fun _=>¬ hdr.Ok) := by
    intro e b Q hb hQ
    rw [wp_kassert_iff]
    split
    · exact hQ
    · next hc => exact fun hok=>hc (hb hok)
  simp only [checkHeader,wp_bind]
  refine hch (fun h=>h.1) (hch (fun h=>beq_iff_eq.mpr h.2.1) (hch (fun h=>beq_iff_eq.mpr h.2.2.1)
    (hch (fun h=>beq_iff_eq.mpr h.2.2.2.1) (hch (fun h=>beq_iff_eq.mpr h.2.2.2.2) rfl))))

theorem uthreadCreate_spec (stack0 tentry stack stackSize : ℕ) (proc : UserProc) (k : Kern) :
    Ensures (uthreadCreate text stack0 tentry stack stackSize proc) k (fun _ k'=>k'.machine=k.machine)
      (fun _=>¬ (stack%16=0 ∧ stack0%16=0 ∧ stack≠0)) := by
  simp only [uthreadCreate,x86ThreadConstructThread,wp_bind,wp_kassert_iff,wp_get,wp_modify,
    wp_pure,beq_iff_eq,show (userCodeSelector == userCodeSelector)=true from rfl,if_true,bne_iff_ne]
  split_ifs with h1 h2 h3
  · exact fun hc=>h3 hc.2.2
  · exact fun hc=>h2 hc.2.1
  · exact fun hc=>h1 hc.1

theorem bindStream_spec (name : String) (proc : UserProc) (fd : Fin procMaxFiles) (f : Option ℕ) (k : Kern) :
    Ensures (bindStream name proc fd f) k (fun proc' k'=>k'=k ∧ proc'.arch=proc.arch) (fun _=>f=none) := by
  cases f with
  | none => exact (wp_abort ..).mpr rfl
  | some f =>
    rw [bindStream,wp_pure]
    refine ⟨rfl,?_⟩
    split <;> rfl

theorem procAlloc_backs (h : Owned L k.machine fl live role) :
    Ensures (procAlloc L) k (fun proc k'=>Clean k.machine k'.machine ∧
      Backs L k'.machine (proc.arch.pd::live) proc.arch.pd (fun _=>none) (fl.length-1)) (fun _=>fl.length<1) := by
  simp only [procAlloc,wp_bind,Process.wp_onMachine,wp_isUsingKernelPageTables,
    wp_kassert h.kernelTables,wp_pure]
  refine (pagingAllocDir_spec h).mono ?_ (fun _ he=>by simp [he.1])
  rintro pd t ⟨rest,role',hfl,ht,he,hcl,hnl⟩
  have hem := backs_empty ht (by simp) (fun i hi=>hnl i (hi.trans (by decide)) (h.kernel.user i hi))
  rw [hfl,length_cons,Nat.add_sub_cancel]
  exact ⟨hcl,hem⟩

/-- What the assertions and checks of the code ask for. -/
structure Accepted (stale : Stale) (file : List UInt8) (stdin stdout stderr : Option ℕ) (stack0 : ℕ) : Prop where
  header : (header stale file).Ok
  types : ∀ ph ∈ segments stale file, ph.type=elfSegLoad
  streams : stdin≠none ∧ stdout≠none ∧ stderr≠none
  stack0 : stack0%16=0
  stack : stackAt stale file≠0

/-- The process that has been built: its areas, and what is in its memory. -/
structure BuiltProc (L : Layout) (stale : Stale) (file : List UInt8) (env : List (List UInt8)) (proc : UserProc)
    (k : Kern) : Prop where
  stack : proc.arch.vstack=stackAt stale file
  stackSize : proc.arch.stackSize=pageSize
  environment : proc.arch.venvironment=envAt stale file
  vbreak : proc.arch.vbreak=breakAt stale file env
  curVbreak : proc.arch.curVbreak=breakAt stale file env
  memory : ∃ live, Backs L k.machine live proc.arch.pd (builtImage stale file env) 0

theorem Backs.weaken (h : Backs L s live pd im n) : Backs L s live pd im 0 := by
  obtain ⟨fl,role,ho,-⟩ := h.owned
  exact ⟨⟨fl,role,ho,zero_le _⟩,h.live,h.view,h.absent,h.present⟩

section
variable (h : Owned L k.machine fl live role) (hft : Fits stale file env)
include h hft
theorem execUserElfProgram_spec :
    Ensures (execUserElfProgram L text stale (some file) stdin stdout stderr env stack0) k
      (fun r k'=>(Clean k.machine k'.machine → BuiltProc L stale file env r.1 k') ∧
        (framesNeeded stale file env<fl.length → Clean k.machine k'.machine))
      (fun _=>Accepted stale file stdin stdout stderr stack0 → fl.length≤framesNeeded stale file env) := by
  simp only [execUserElfProgram,wp_bind,Option.isSome_some,wp_kassert,Option.getD_some]
  refine (checkHeader_spec _ k).mono ?_ (fun _ hno hacc=>absurd hacc.header hno)
  rintro - _ rfl
  refine (procAlloc_backs h).mono ?_ (fun _ hlt _=>by omega)
  rintro proc k1 ⟨hc1,hb1⟩
  rw [Process.wp_onMachine]
  have hbd : Track (Accepted stale file stdin stdout stderr stack0)
      (buildMemory L stale file (header32 stale file) env proc.arch.toProc) k1.machine (fl.length-1) _ _ :=
    buildMemory_track hb1 hft (fun hacc=>hacc.types)
  refine Ensures.mono hbd ?_ (fun _ hlt hacc=>by have := hlt hacc; omega)
  rintro place s2 ⟨hext,hbl,hcl⟩
  have hfr : framesNeeded stale file env<fl.length → Clean k1.machine s2 := fun hlt=>hcl (by omega)
  refine (uthreadCreate_spec ..).mono ?_ (fun _ hno hacc=>?_)
  · intro thread k3 hk3
    refine (bindStream_spec ..).mono ?_ (fun _ hnn hacc=>absurd hnn hacc.streams.1)
    rintro proc4 _ ⟨rfl,har4⟩
    refine (bindStream_spec ..).mono ?_ (fun _ hnn hacc=>absurd hnn hacc.streams.2.1)
    rintro proc5 _ ⟨rfl,har5⟩
    refine (bindStream_spec ..).mono ?_ (fun _ hnn hacc=>absurd hnn hacc.streams.2.2)
    rintro proc6 _ ⟨rfl,har6⟩
    rw [wp_pure,hk3]
    have har := har6.trans (har5.trans har4)
    refine ⟨fun hc=>?_,fun hlt=>hc1.trans (hfr hlt)⟩
    obtain ⟨hpd,hst,henv,hbr,hbc⟩ := hbl (hc1.extends.clean_parts hext hc).2
    refine ⟨?_,?_,?_,?_,?_,proc.arch.pd::live,?_⟩
    · rw [har,← hst]
    · rw [har]
    · rw [har,← henv]
    · rw [har,← hbr]
    · rw [har,← hbr]
    · rw [har,hk3]
      simpa [hpd] using Backs.weaken hbc
  · by_contra hlt
    obtain ⟨-,hst,-⟩ := hbl (hfr (by omega))
    have hmod : stackAt stale file%pageSize=0 := stackAt_mod
    rw [hst] at hno
    refine hno ⟨?_,hacc.stack0,hacc.stack⟩
    simp only [pageSize] at hmod
    omega

variable (text) in
theorem execUserElfProgram_returns (hacc : Accepted stale file stdin stdout stderr stack0) (hfr : framesNeeded stale file env<fl.length) :
    ∃ proc thread k', execUserElfProgram L text stale (some file) stdin stdout stderr env stack0 k =
      .ok (proc, thread) k' ∧ Clean k.machine k'.machine ∧ BuiltProc L stale file env proc k' := by
  obtain ⟨r,k',hok,hbl,hcl⟩ := Returns.exists_ok ((execUserElfProgram_spec h hft).mono
    (fun _ _ hq=>hq) (fun _ hlt=>absurd (hlt hacc) (by omega)))
  exact ⟨r.1,r.2,k',hok,hcl hfr,hbl (hcl hfr)⟩
end

theorem builtProc_of_ok (h0 : SpacesStart L a)
    (hrun : CopyRun L a b) (hk : k.machine=b.machine) (hft : Fits stale file env)
    (hok : execUserElfProgram L text stale (some file) stdin stdout stderr env stack0 k=.ok (proc, thread) k')
    (hcl : Clean k.machine k'.machine) : BuiltProc L stale file env proc k' := by
  obtain ⟨fl0,hinv0⟩ := h0.copyInv
  obtain ⟨fl,role,hinv⟩ := hrun.inv hinv0
  have ho := hk▸hinv.1.owned
  exact ((execUserElfProgram_spec ho hft).of_ok hok).1 hcl
end

end Yaos2.Elf
