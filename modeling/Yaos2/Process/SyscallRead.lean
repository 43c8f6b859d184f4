import Yaos2.Process.Image
import Yaos2.Process.SyscallWrite

/-! # Reading a file to user memory

Every round copies a whole batch to the process, and the next round starts behind the bytes that were
read. -/
namespace Yaos2.Process
open Foundation Memory List Int

/-- What `file->read` does for a size: the answer, the bytes it stores, and the file after it. -/
abbrev FileRead (F : Type) := F → ℕ → ℤ × List UInt8 × F

/-- From the files in `I` on, the answers are never more than was asked for. -/
def FileRead.Answers {F : Type} (read : FileRead F) (I : F → Prop) : Prop :=
  ∀ f num, I f → (read f num).1≤(num : ℤ) ∧ I (read f num).2.2

/-- The machine and the file, with the sizes that `file->read` was called with and its answers. -/
structure Reading (F : Type) where
  machine : Machine
  file : F
  answers : List (ℕ × ℤ)

variable {F : Type}

def Reading.onMachine {α : Type} (x : Kernel α) : Exec (Reading F) α :=
  zoom Reading.machine (fun m t=>{t with machine := m}) x

def callRead (read : FileRead F) (num : ℕ) : Exec (Reading F) (ℤ × List UInt8) := do
  let t ← get
  let (answer, stored, file) := read t.file num
  set {t with file := file, answers := t.answers++[(num, answer)]}
  return (answer, stored)

variable (L : Layout)

/-- The loop of `syscall_read`. It goes on only when some bytes were read. -/
def readLoop (pd buf : ℕ) (read : FileRead F) : ℕ → ℕ → ℤ → List UInt8 → Exec (Reading F) ℤ
  | 0, _, ret, _ => return ret
  | fuel+1, count, ret, kbuf =>
    if count > 0 then do
      let batch := fileBatch count
      let r ← callRead read batch
      let kbuf := r.2++kbuf.drop r.2.length
      if r.1<0 then
        return -eUnspec
      else if r.1=0 then
        return ret
      else
        let _ ← Reading.onMachine (procVmwrite L pd ((buf+ret)%2^32).toNat (kbuf.take batch))
        readLoop pd buf read fuel ((count-r.1)%2^32).toNat (Int.bmod (ret+r.1) (2^32)) kbuf
    else return ret

/-- The kernel buffer as `kzualloc` returns it. -/
def emptyBuffer : List UInt8 := List.replicate syscallFileBuffer 0

/-- `syscall_read`, for the file that `proc_get_file` finds. -/
def syscallRead (pd : ℕ) (file : Option (FileRead F)) (buf count : ℕ) : Exec (Reading F) ℤ := do
  let _ ← Reading.onMachine (cpuSetCr3 L.physKernelPd)
  match file with
  | none =>
    let _ ← Reading.onMachine (cpuSetCr3 pd)
    return -eUnspec
  | some read =>
    let ret ← readLoop L pd buf read count count 0 emptyBuffer
    let _ ← Reading.onMachine (cpuSetCr3 pd)
    return ret

/-- A node that can be read, by `get_size` and `read`. -/
structure FileNode where
  size : ℤ
  read : ℕ → ℕ → ℤ × List UInt8

/-- `vfs_file_read`, with the offset of the file. -/
def vfsFileRead (node : FileNode) : FileRead ℤ := fun offset num =>
  if num≤0 then
    (0, [], offset)
  else if offset ≥ node.size then
    (0, [], offset)
  else
    let (result, stored) := node.read (offset%2^32).toNat num
    (result, stored, offset+result)

/-- The node has these contents. It returns less than it is asked for only at the end of the file. -/
structure FileNode.Faithful (node : FileNode) (contents : List UInt8) : Prop where
  size : node.size=contents.length
  limit : contents.length≤2^32
  read : ∀ off num, off<contents.length → 0<num → ∃ k : ℕ, node.read off num=((k : ℤ), (contents.drop off).take k) ∧
    k≤num ∧ off+k≤contents.length ∧ (k<num → off+k=contents.length)

/-- The node of a file in memory. -/
def FileNode.ofBytes (contents : List UInt8) : FileNode where
  size := contents.length
  read off num := ((min num (contents.length-off) : ℕ), (contents.drop off).take num)

/-- What a call leaves: the answer, the memory of the process, the file and the answers of the file. -/
structure Outcome (F : Type) where
  ret : ℤ
  image : Image
  file : F
  answers : List (ℕ × ℤ)

/-- The register that holds a number of bytes, as a signed number. -/
@[irreducible]
def asSigned (n : ℕ) : ℤ := Int.bmod n (2^32)

/-- The loop on an image, with the number of bytes read so far. -/
def readImage (buf : ℕ) (read : FileRead F) : ℕ → ℕ → ℕ → List UInt8 → Image → F → List (ℕ × ℤ) → Outcome F
  | 0, _, total, _, im, f, answers => ⟨asSigned total,im,f,answers⟩
  | fuel+1, count, total, kbuf, im, f, answers =>
    if count > 0 then
      let batch := fileBatch count
      let (numRead, stored, f) := read f batch
      let kbuf := stored++kbuf.drop stored.length
      let answers := answers++[(batch, numRead)]
      if numRead<0 then
        ⟨-eUnspec,im,f,answers⟩
      else if numRead=0 then
        ⟨asSigned total,im,f,answers⟩
      else
        readImage buf read fuel (count-numRead.toNat) (total+numRead.toNat) kbuf
          (im.write (buf+total) (kbuf.take batch)) f answers
    else ⟨asSigned total,im,f,answers⟩

/-- The process of the directory `pd` runs, and its memory is this image. -/
def Running (s : Machine) (live : List ℕ) (pd : ℕ) (im : Image) : Prop :=
  Backs L (s.setCr3 L.physKernelPd) live pd im 0

/-- The loop ends so, in the kernel directory. -/
def Outcome.Left (live : List ℕ) (pd : ℕ) (o : Outcome F) (ret : ℤ) (u : Reading F) : Prop :=
  ret=o.ret ∧ u.file=o.file ∧ u.answers=o.answers ∧ Backs L u.machine live pd o.image 0

/-- The call returns so, and the process runs again. -/
def Outcome.Returned (live : List ℕ) (pd : ℕ) (o : Outcome F) (ret : ℤ) (u : Reading F) : Prop :=
  ret=o.ret ∧ u.file=o.file ∧ u.answers=o.answers ∧ Running L u.machine live pd o.image

/-- The next `n` bytes of the file are at `buf + total`, and what is below is as it was. -/
structure Outcome.Fetches (o : Outcome ℤ) (contents : List UInt8) (im : Image) (buf total offset n : ℕ) : Prop where
  ret : o.ret=asSigned (total+n)
  file : o.file=(offset+n : ℕ)
  below : ∀ w<buf+total, o.image w=im w
  holes : ∀ w, o.image w=none ↔ im w=none
  bytes : ∀ k<n, im (buf+total+k)≠none → o.image (buf+total+k)=contents[offset+k]?

/-- Every call of the file was answered in full, or with nothing. -/
def Full (answers : List (ℕ × ℤ)) : Prop := ∀ a ∈ answers, a.2=a.1 ∨ a.2≤0

/-- The memory outside of the buffer is as it was, and if no answer was short, also after the `r`
bytes. -/
structure Outcome.Frames (o : Outcome F) (im : Image) (answers : List (ℕ × ℤ)) (buf total count r : ℕ) : Prop where
  ret : o.ret=asSigned r ∨ o.ret = -eUnspec
  le : r≤total+count
  logged : ∀ a ∈ answers, a ∈ o.answers
  outside : ∀ w, w<buf+total ∨ buf+total+count≤w → o.image w=im w
  behind : Full o.answers → ∀ w, w<buf+total ∨ buf+r≤w → o.image w=im w

/-- The calls of a process that reads piece by piece, each piece behind the bytes it has. -/
def readCalls (pd : ℕ) (node : FileNode) : ℕ → List ℕ → Exec (Reading ℤ) ℤ
  | _, [] => return 0
  | buf, count::counts => do
    let ret ← syscallRead L pd (some (vfsFileRead node)) buf count
    let rest ← readCalls pd node (buf+ret.toNat) counts
    return ret+rest

/-- The next bytes of the file are at `buf`. Nothing changes below it, and no page is mapped. -/
def Delivered (live : List ℕ) (pd : ℕ) (contents : List UInt8) (im : Image) (offset buf count : ℕ) (ret : ℤ)
    (u : Reading ℤ) : Prop :=
  ret=min count (contents.length-offset) ∧ u.file=offset+ret ∧ ∃ im', Running L u.machine live pd im' ∧
    (∀ w, im' w=none ↔ im w=none) ∧ (∀ w<buf, im' w=im w) ∧
    ∀ k < min count (contents.length-offset), im' (buf+k)=contents[offset+k]?

variable {L} {s : Machine} {t : Reading F} {live : List ℕ} {pd buf count total fuel offset w v : ℕ} {im : Image}
  {read : FileRead F} {kbuf contents part : List UInt8} {node : FileNode} {f : F} {answers : List (ℕ × ℤ)}
  {I : F → Prop}

section

theorem Reading.wp_onMachine : Ensures (Reading.onMachine x) t Q E ↔
      Ensures x t.machine (fun a u=>Q a {t with machine := u}) (fun u=>E {t with machine := u}) :=
  wp_zoom _ _ _ _ _ _

theorem wp_callRead : Ensures (callRead read num) t Q E ↔ Q ((read t.file num).1, (read t.file num).2.1)
      {t with file := (read t.file num).2.2, answers := t.answers++[(num, (read t.file num).1)]} := by
  simp [callRead]

theorem toNat_add_asSigned (h : buf+total<2^32) : ((buf+asSigned total)%2^32).toNat=buf+total := by
  have hmod : Int.bmod total (2^32)%((2^32 : ℕ) : ℤ)=total%((2^32 : ℕ) : ℤ) := bmod_emod
  unfold asSigned
  omega

theorem asSigned_add (n : ℕ) : Int.bmod (asSigned total+n) (2^32)=asSigned (total+n) := by
  unfold asSigned
  rw [bmod_add_bmod,Nat.cast_add]

theorem asSigned_of_lt (h : total<2^31) : asSigned total=total := by
  unfold asSigned
  apply bmod_eq_of_le <;> omega

theorem asSigned_toNat (h : total<2^32) (hn : 0≤asSigned total) : (asSigned total).toNat=total := by
  have hmod : Int.bmod total (2^32)%((2^32 : ℕ) : ℤ)=total%((2^32 : ℕ) : ℤ) := bmod_emod
  have hlt : Int.bmod total (2^32)<((2^32 : ℕ)+1)/2 := bmod_lt (by decide)
  unfold asSigned at *
  omega

theorem readLoop_refines (h : Backs L t.machine live pd im 0) (han : read.Answers I) (hI : I t.file)
    (htop : buf+total+count≤userTop) :
    Returns (readLoop L pd buf read fuel count (asSigned total) kbuf) t
      ((readImage buf read fuel count total kbuf im t.file t.answers).Left L live pd) := by
  induction fuel generalizing t im count total kbuf with
  | zero =>
    rw [readLoop,readImage,Returns,wp_pure]
    exact ⟨rfl,rfl,rfl,h⟩
  | succ fuel ih =>
    unfold readLoop readImage Returns
    by_cases hpos : count > 0
    · rw [if_pos hpos,if_pos hpos,wp_bind,wp_callRead]
      have hans := han t.file (fileBatch count) hI
      have hbt := (fileBatch_le count).1
      dsimp only
      generalize read t.file (fileBatch count)=r at *
      obtain ⟨numRead,stored,f⟩ := r
      dsimp only at hans ⊢
      by_cases hneg : numRead<0
      · rw [if_pos hneg,if_pos hneg,wp_pure]
        exact ⟨rfl,rfl,rfl,h⟩
      by_cases hzr : numRead=0
      · rw [if_neg hneg,if_neg hneg,if_pos hzr,if_pos hzr,wp_pure]
        exact ⟨rfl,rfl,rfl,h⟩
      obtain ⟨n,rfl⟩ := eq_ofNat_of_zero_le (not_lt.mp hneg)
      have had : ((buf+asSigned total)%2^32).toNat=buf+total :=
        toNat_add_asSigned (by simp only [userTop] at htop; omega)
      have hcn : ((count-(n : ℤ))%2^32).toNat=count-n := by
        simp only [userTop] at htop
        omega
      have hlen := length_take_le (fileBatch count) (stored++kbuf.drop stored.length)
      rw [if_neg hneg,if_neg hneg,if_neg hzr,if_neg hzr,wp_bind,Reading.wp_onMachine,had,hcn,
        asSigned_add,toNat_natCast]
      apply ((procVmwrite_track h _ (by omega)).returns le_rfl).mono
      · intro _ u hu
        exact ih (t := ⟨u,f,t.answers++[(fileBatch count, (n : ℤ))]⟩) hu hans.2 (by omega)
      · exact fun _ hF=>hF.elim
    · rw [if_neg hpos,if_neg hpos,wp_pure]
      exact ⟨rfl,rfl,rfl,h⟩

theorem syscallRead_refines (h : Running L s live pd im) (han : read.Answers I) (hI : I f)
    (htop : buf+count≤userTop) :
    Returns (syscallRead L pd (some read) buf count) ⟨s,f,answers⟩
      ((readImage buf read count count 0 emptyBuffer im f answers).Returned L live pd) := by
  have hlp : Returns (readLoop L pd buf read count count (asSigned 0) emptyBuffer)
      ⟨s.setCr3 L.physKernelPd,f,answers⟩ _ := readLoop_refines h han hI (by rwa [Nat.add_zero])
  rw [asSigned_of_lt (by decide),Nat.cast_zero] at hlp
  unfold syscallRead Returns
  simp only [wp_bind,Reading.wp_onMachine,wp_cpuSetCr3,wp_pure]
  apply hlp.mono
  · intro ret u hu
    obtain ⟨hret,hfl,hlog,hbc⟩ := hu
    obtain ⟨fl,role,hown,-⟩ := hbc.owned
    have hkr := setCr3_kernel hown pd
    exact ⟨hret,hfl,hlog,by rwa [Running,hkr]⟩
  · exact fun _ hF=>hF.elim
end

/-- A process with these bytes on its only page. -/
def onePage (part : List UInt8) : Image := Image.write (Image.reserve (fun _=>none) 0x1000) 0x1000 part

theorem exists_running (part : List UInt8) (hpr : part.length≤pageSize) :
    ∃ pd s, Running .smallImage s [pd] pd (onePage part) := by
  obtain ⟨s,fl,hst,hinv,hlen,-⟩ := exists_spacesStart 3 (by decide)
  obtain ⟨pd,t,rest,role,-,hinv',-,hrt,-,hnl⟩ := hinv.allocDir hlen
  have hem := hrt▸backs_empty hinv'.owned (mem_singleton_self pd) hnl
  have hrs : Track True (procVmreserve .smallImage ⟨pd,0,0,0,0⟩ 0x1000 vmUser) t 2 2 _ :=
    procVmreserve_track hem (by decide) (by decide)
  obtain ⟨_,u,-,-,hpg⟩ := Returns.exists_ok (hrs.returns le_rfl)
  have htop : 0x1000+part.length≤userTop := by
    simp only [pageSize,userTop] at *
    omega
  obtain ⟨_,m,-,hm⟩ := Returns.exists_ok ((procVmwrite_track hpg part htop).returns le_rfl)
  obtain ⟨fl,role,hown,-⟩ := hm.owned
  have hkr := setCr3_kernel hown pd
  exact ⟨pd,m.setCr3 pd,by rwa [Running,hkr]⟩

section

theorem FileNode.Faithful.vfsFileRead_eq (hf : node.Faithful contents) (num : ℕ) :
    vfsFileRead node offset num=(((min num (contents.length-offset) : ℕ) : ℤ), (contents.drop offset).take num,
      ((offset+min num (contents.length-offset) : ℕ) : ℤ)) := by
  unfold vfsFileRead
  rw [hf.size]
  by_cases hnum : num≤0
  · simp_all
  by_cases hoff : (offset : ℤ) ≥ contents.length
  · simp_all
  have hlt : offset<contents.length := by omega
  have hlm := hf.limit
  have hcs : ((offset : ℤ)%2^32).toNat=offset := by omega
  obtain ⟨k,hrd,hk,hend,hsh⟩ := hf.read offset num hlt (by omega)
  have hmin : min num (contents.length-offset)=k := by omega
  have htk : (contents.drop offset).take num=(contents.drop offset).take k := by
    rw [← hmin,← length_drop,take_eq_take_min]
  rw [if_neg hnum,if_neg hoff,hcs,hrd,hmin,htk,Nat.cast_add]

theorem Outcome.Fetches.nil :
    (⟨asSigned total,im,offset,answers⟩ : Outcome ℤ).Fetches contents im buf total offset 0 :=
  ⟨rfl,rfl,fun _ _=>rfl,fun _=>Iff.rfl,fun k hk=>absurd hk (Nat.not_lt_zero k)⟩

theorem FileNode.ofBytes_faithful (contents : List UInt8) (h : contents.length≤2^32) :
    (ofBytes contents).Faithful contents where
  size := rfl
  limit := h
  read off num hoff _ := by
    refine ⟨min num (contents.length-off),?_,by omega,by omega,by omega⟩
    rw [← length_drop,← take_eq_take_min,length_drop]
    rfl

theorem FileNode.Faithful.vfsFileRead_answers (hf : node.Faithful contents) : (vfsFileRead node).Answers (0 ≤ ·) := by
  intro f num h
  obtain ⟨offset,rfl⟩ := eq_ofNat_of_zero_le h
  rw [hf.vfsFileRead_eq]
  dsimp only
  omega

theorem Outcome.Fetches.cons {o : Outcome ℤ}
    (h : o.Fetches contents (im.write (buf+total) part) buf (total+m) (offset+m) n) (hm : m≤part.length)
    (hpr : ∀ k < m, part[k]? = contents[offset+k]?) : o.Fetches contents im buf total offset (m+n) where
  ret := by rw [h.ret,Nat.add_assoc]
  file := by rw [h.file,Nat.add_assoc]
  below w hw := by rw [h.below w (by omega),Image.write_outside _ (.inl hw)]
  holes w := by rw [h.holes w,Image.write_eq_none]
  bytes k hk hmap := by
    by_cases hrn : k < m
    · -- the later rounds start behind this byte
      rw [h.below _ (by omega),Image.write_inside (by omega) hmap,hpr k hrn]
    · have hby := h.bytes (k-m) (by omega)
      have had : buf+(total+m)+(k-m)=buf+total+k := by omega
      have hoff : offset+m+(k-m)=offset+k := by omega
      rw [had,hoff] at hby
      apply hby
      rwa [ne_eq,Image.write_eq_none]

theorem readImage_fetches (hf : node.Faithful contents) (hkb : kbuf.length=syscallFileBuffer)
    (hfl : count≤fuel) :
    (readImage buf (vfsFileRead node) fuel count total kbuf im offset answers).Fetches contents im buf total offset
      (min count (contents.length-offset)) := by
  induction fuel generalizing count total kbuf im offset answers with
  | zero =>
    obtain rfl : count=0 := Nat.le_zero.mp hfl
    rw [readImage,Nat.zero_min]
    exact .nil
  | succ fuel ih =>
    unfold readImage
    by_cases hpos : count > 0
    · obtain ⟨hle,hbf⟩ := fileBatch_le count
      have hbt := fileBatch_pos hpos
      rw [if_pos hpos]
      dsimp only
      rw [hf.vfsFileRead_eq]
      generalize hm : min (fileBatch count) (contents.length-offset)=m
      dsimp only
      rw [if_neg (by omega),toNat_natCast]
      by_cases hzr : m=0
      · have hend : contents.length-offset=0 := by omega
        rw [if_pos (by omega),hend,Nat.min_zero,hzr]
        exact .nil
      · rw [if_neg (by omega)]
        have hsp : min count (contents.length-offset) =
            m+min (count-m) (contents.length-(offset+m)) := by omega
        have hst : ((contents.drop offset).take (fileBatch count)).length=m := by
          rw [length_take,length_drop,hm]
        have hlen : ((contents.drop offset).take (fileBatch count)++kbuf.drop
            ((contents.drop offset).take (fileBatch count)).length).length=syscallFileBuffer := by
          rw [length_append,length_drop,hst]
          omega
        rw [hsp]
        apply (ih hlen (by omega)).cons
        · rw [length_take,hlen]
          omega
        · intro k hk
          rw [List.getElem?_take_of_lt (by omega),List.getElem?_append_left (by omega),
            List.getElem?_take_of_lt (by omega),List.getElem?_drop]
    · obtain rfl : count=0 := by omega
      rw [if_neg hpos,Nat.zero_min]
      exact .nil

theorem syscallRead_delivered (h : Running L s live pd im) (hf : node.Faithful contents) (hcn : count<2^31)
    (htop : buf+count≤userTop) (hmap : ∀ k<count, im (buf+k)≠none) :
    Returns (syscallRead L pd (some (vfsFileRead node)) buf count) ⟨s,offset,answers⟩
      (Delivered L live pd contents im offset buf count) := by
  have hft : (readImage buf (vfsFileRead node) count count 0 emptyBuffer im offset answers).Fetches contents im buf
      0 offset _ := readImage_fetches hf length_replicate le_rfl
  apply (syscallRead_refines h hf.vfsFileRead_answers (natCast_nonneg offset) htop).mono
  · intro ret u hu
    obtain ⟨hret,hfl,-,hrun⟩ := hu
    have hnum : ret=(min count (contents.length-offset) : ℕ) := by
      rw [hret,hft.ret,Nat.zero_add,asSigned_of_lt (by omega)]
    refine ⟨by omega,?_,_,hrun,hft.holes,fun w hw=>hft.below w (by omega),?_⟩
    · rw [hfl,hft.file,hnum,Nat.cast_add]
    · intro k hk
      exact hft.bytes k hk (hmap k (by omega))
  · exact fun _ hF=>hF.elim

theorem readCalls_delivered (h : Running L s live pd im) (hf : node.Faithful contents)
    (hcn : counts.sum<2^31) (htop : buf+counts.sum≤userTop) (hmap : ∀ k<counts.sum, im (buf+k)≠none) :
    Returns (readCalls L pd node buf counts) ⟨s,offset,answers⟩
      (Delivered L live pd contents im offset buf counts.sum) := by
  induction counts generalizing s im buf offset answers with
  | nil =>
    rw [readCalls,Returns,wp_pure]
    exact ⟨by simp,by simp,im,h,fun _=>Iff.rfl,fun _ _=>rfl,fun k hk=>absurd hk (by simp)⟩
  | cons count counts ih =>
    rw [sum_cons] at hcn htop hmap ⊢
    unfold readCalls
    apply Ensures.bind (syscallRead_delivered h hf (by omega) (by omega) (fun k hk=>hmap k (by omega)))
    · rintro ret ⟨u,file,log⟩ ⟨hret,hfl,im',hrun,hhl,hbl,hby⟩
      dsimp only at hfl hrun
      generalize hm : min count (contents.length-offset)=m at hret hby
      obtain rfl : ret=(m : ℤ) := by omega
      obtain rfl : file=((offset+m : ℕ) : ℤ) := by omega
      have hmap' : ∀ k<counts.sum, im' (buf+m+k)≠none := by
        intro k hk
        rw [ne_eq,hhl,Nat.add_assoc]
        exact hmap (m+k) (by omega)
      rw [toNat_natCast,wp_bind]
      apply (ih hrun (by omega) (by omega) hmap').mono
      · intro rest u' hu'
        obtain ⟨hrs,hfl',im'',hrun',hhl',hbl',hby'⟩ := hu'
        have hsum : min (count+counts.sum) (contents.length-offset) =
            m+min counts.sum (contents.length-(offset+m)) := by omega
        rw [wp_pure,Delivered,hsum]
        refine ⟨by omega,by omega,im'',hrun',fun w=>(hhl' w).trans (hhl w),?_,?_⟩
        · intro w hw
          rw [hbl' w (by omega),hbl w hw]
        · intro k hk
          by_cases hfr : k < m
          · rw [hbl' _ (by omega),hby k hfr]
          · have hbt := hby' (k-m) (by omega)
            rwa [Nat.add_assoc,Nat.add_assoc,Nat.add_sub_cancel' (by omega)] at hbt
      · exact fun _ hF=>hF.elim

/-- `syscall_read` returns the next bytes of the file, in one call or in many. -/
theorem syscallRead_bytes (h : Running L s live pd im) (hf : node.Faithful contents) (hcount : count<2^31)
    (htop : buf+count≤userTop) (hmap : ∀ k<count, im (buf+k)≠none) :
    Returns (syscallRead L pd (some (vfsFileRead node)) buf count) ⟨s,offset,answers⟩
        (Delivered L live pd contents im offset buf count) ∧
      ∀ counts, counts.sum=count → Returns (readCalls L pd node buf counts) ⟨s,offset,answers⟩
        (Delivered L live pd contents im offset buf count) := by
  constructor
  · exact syscallRead_delivered h hf hcount htop hmap
  · intro counts hsum
    subst hsum
    exact readCalls_delivered h hf hcount htop hmap

theorem syscallRead_bytes_twoOfThree : ∃ pd s, Running .smallImage s [pd] pd (onePage []) ∧
    Returns (syscallRead .smallImage pd (some (vfsFileRead (.ofBytes [7, 8, 9]))) 0x1000 2) ⟨s,0,[]⟩
        (Delivered .smallImage [pd] pd [7, 8, 9] (onePage []) 0 0x1000 2) ∧
    ∀ counts, counts.sum=2 → Returns (readCalls .smallImage pd (.ofBytes [7, 8, 9]) 0x1000 counts) ⟨s,0,[]⟩
        (Delivered .smallImage [pd] pd [7, 8, 9] (onePage []) 0 0x1000 2) := by
  obtain ⟨pd,s,hrun⟩ := exists_running [] (by decide)
  have hmap : ∀ k<2, onePage [] (0x1000+k)≠none := by decide
  exact ⟨pd,s,hrun,syscallRead_bytes hrun (FileNode.ofBytes_faithful _ (by decide)) (by decide) (by decide) hmap⟩
end

section

theorem Outcome.Frames.stop {ret : ℤ} {log : List (ℕ × ℤ)} (hret : ret=asSigned total ∨ ret = -eUnspec)
    (hlog : ∀ a ∈ answers, a ∈ log) :
    (⟨ret,im,f,log⟩ : Outcome F).Frames im answers buf total count total :=
  ⟨hret,Nat.le_add_right _ _,hlog,fun _ _=>rfl,fun _ _ _=>rfl⟩

theorem Outcome.Frames.cons {o : Outcome F} {batch n r : ℕ}
    (h : o.Frames (im.write (buf+total) part) (answers++[(batch, (n : ℤ))]) buf (total+n) (count-n) r)
    (hpos : n≠0) (hn : n≤batch) (hbt : batch≤count) (hpr : part.length≤batch) (hr : total+n≤r) :
    o.Frames im answers buf total count r where
  ret := h.ret
  le := by
    have hle := h.le
    omega
  logged a ha := h.logged a (mem_append_left _ ha)
  outside w hw := by rw [h.outside w (by omega),Image.write_outside _ (by omega)]
  behind hfl w hw := by
    have han := hfl _ (h.logged (batch, (n : ℤ)) (mem_append_right _ (mem_singleton_self _)))
    -- an answer that is not short is the size of the batch
    have heq : n=batch := by omega
    rw [h.behind hfl w (by omega),Image.write_outside _ (by omega)]

theorem readImage_frames (han : read.Answers I) (hI : I f) : ∃ r, total≤r ∧
      (readImage buf read fuel count total kbuf im f answers).Frames im answers buf total count r := by
  induction fuel generalizing count total kbuf im f answers with
  | zero =>
    unfold readImage
    exact ⟨total,le_rfl,.stop (.inl rfl) (fun _ ha=>ha)⟩
  | succ fuel ih =>
    unfold readImage
    by_cases hpos : count > 0
    · rw [if_pos hpos]
      have hans := han f (fileBatch count) hI
      have hbt := (fileBatch_le count).1
      dsimp only
      generalize read f (fileBatch count)=answer at *
      obtain ⟨numRead,stored,f'⟩ := answer
      dsimp only at hans ⊢
      have hlog : ∀ a ∈ answers, a ∈ answers++[(fileBatch count, numRead)] := fun _ ha=>mem_append_left _ ha
      by_cases hneg : numRead<0
      · rw [if_pos hneg]
        exact ⟨total,le_rfl,.stop (.inr rfl) hlog⟩
      by_cases hzr : numRead=0
      · rw [if_neg hneg,if_pos hzr]
        exact ⟨total,le_rfl,.stop (.inl rfl) hlog⟩
      obtain ⟨n,rfl⟩ := eq_ofNat_of_zero_le (not_lt.mp hneg)
      rw [if_neg hneg,if_neg hzr,toNat_natCast]
      obtain ⟨r,hr,hfr⟩ := ih hans.2
      exact ⟨r,by omega,hfr.cons (by omega) (by omega) hbt (length_take_le ..) hr⟩
    · rw [if_neg hpos]
      exact ⟨total,le_rfl,.stop (.inl rfl) (fun _ ha=>ha)⟩

end

end Yaos2.Process
