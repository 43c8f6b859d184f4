import Yaos2.Debug
import Yaos2.Printf.Output

/-! # Block devices and MBR partitions

A partition passes every call on to its parent and adds its first block to the number of the block. -/
namespace Yaos2.Block
open Foundation Printf List

def bdevMaxNameLength : ℕ := 32
def maxBlockDevices : ℕ := 8
def mbrBootSignature : ℕ := 0xaa55
def mbrPartPresent : ℕ := 0x80
def mbrSectorSize : ℕ := 512
def ideSectorSize : ℕ := 512

/-- The constant part of `struct block_dev`. -/
structure BlockDevInfo where
  name : List UInt8
  valid : Bool
  blockSize : ℕ
  numBlocks : ℕ

/-- `struct block_dev` with what its `opaque` points to: an `ide_drive` or an `mbr_part_data`. -/
inductive BlockDev
  | drive (info : BlockDevInfo) (num : ℕ) (present : Bool)
  | part (info : BlockDevInfo) (offset size : ℕ) (parent : BlockDev)

/-- A block of a drive, locked in the cache. -/
structure LockedBlock where
  drive : ℕ
  num : ℕ
  deriving DecidableEq

/-- The registry, and the contents of the blocks of the drives. -/
structure BlockState where
  bdevInitialized : Bool
  blockDevices : List (Option BlockDev)
  disk : ℕ → ℕ → Mem

namespace BlockDev

def info : BlockDev → BlockDevInfo
  | drive info _ _ => info
  | part info _ _ _ => info

/-- `gen_ata_bd_lock` and `mbr_part_bd_lock` -/
def lock : BlockDev → ℕ → Exec BlockState LockedBlock
  | drive info n present, num => do
    panicIf (info.valid=false) "gen_ata_bd_lock(): invalid block device"
    panicIf (present=false) "gen_ata_bd_lock(): drive not present"
    return ⟨n,num⟩
  | part info offset _ parent, num => do
    panicIf (info.valid=false) "mbr_part_bd_lock(): invalid block device"
    parent.lock ((num+offset)%2^32)

/-- `gen_ata_bd_unlock` and `mbr_part_bd_unlock` -/
def unlock : BlockDev → LockedBlock → Exec BlockState Unit
  | drive info n _, b => do
    panicIf (info.valid=false) "gen_ata_bd_unlock(): invalid block device"
    panicIf (b.drive≠n) "gen_ata_bd_unlock(): drives do not match"
  | part info _ _ parent, b => do
    panicIf (info.valid=false) "mbr_part_bd_unlock(): invalid block device"
    parent.unlock b

/-- `gen_ata_bd_read` and `mbr_part_bd_read` -/
def read : BlockDev → LockedBlock → ℕ → ℕ → Exec BlockState (List UInt8)
  | drive info n _, b, off, len => do
    panicIf (info.valid=false) "gen_ata_bd_read(): invalid block device"
    panicIf (b.drive≠n) "gen_ata_bd_read(): drives do not match"
    if len=0 then
      return []
    else
      kassert "off < IDE_SECTOR_SIZE" (off < ideSectorSize)
      kassert "off + len <= IDE_SECTOR_SIZE" ((off+len)%2^32 ≤ ideSectorSize)
      return bytes ((← get).disk b.drive b.num) off len
  | part info _ _ parent, b, off, len => do
    panicIf (info.valid=false) "mbr_part_bd_read(): invalid block device"
    parent.read b off len
end BlockDev

/-- The fields of `struct mbr_partition` that are used. -/
structure MbrPartition where
  status : ℕ
  lbaFirst : ℕ
  sectors : ℕ

/-- The entry `part0` to `part3` of a `struct master_boot_record`. -/
def mbrPart (buf : Mem) (num : ℕ) : MbrPartition where
  status := load buf (446+16*num) 1
  lbaFirst := load buf (446+16*num+8) 4
  sectors := load buf (446+16*num+12) 4

def bootSignature (buf : Mem) : ℕ := load buf 510 2

/-- What `ksnprintf` with the format `%s:%d` leaves in the cleared buffer, which is at address 0. -/
def partName (parent : List UInt8) (partNum : ℕ) : List UInt8 :=
  let dest := finalState (ksnprintf 0 (bdevMaxNameLength-1) (['%', 's', ':', '%', 'd'].map charByte)
    [.str parent, .word partNum]) ⟨fun _=>0,[],0⟩
  (bytes dest.mem 0 bdevMaxNameLength).takeWhile (· ≠ 0)

def mbrCreatePartition (parent : BlockDev) (partNum offset size : ℕ) : BlockDev :=
  .part ⟨partName parent.info.name partNum,true,parent.info.blockSize,size⟩ offset size parent

/-- `add` is `bdev_add`, which scans the new device in its turn. -/
def mbrHandlePartition (add : BlockDev → Exec BlockState Unit) (parent : BlockDev) (part : MbrPartition)
    (num : ℕ) : Exec BlockState Bool := do
  if part.status≠mbrPartPresent then
    return false
  else
    kassert "part->lba_first != 0 && part->sectors != 0" (part.lbaFirst≠0 && part.sectors≠0)
    kassert "part->lba_first + part->sectors <= parent->num_blocks"
      ((part.lbaFirst+part.sectors)%2^32≤parent.info.numBlocks)
    add (mbrCreatePartition parent num part.lbaFirst part.sectors)
    return true

/-- The entries from `num` on, up to the first that is there. -/
def mbrHandlePartitions (add : BlockDev → Exec BlockState Unit) (bdev : BlockDev) (buf : Mem) :
    List ℕ → Exec BlockState Bool
  | [] => return false
  | num::nums => do
    if ← mbrHandlePartition add bdev (mbrPart buf num) num then
      return true
    else
      mbrHandlePartitions add bdev buf nums

def mbrTableScan (add : BlockDev → Exec BlockState Unit) (bdev : BlockDev) : Exec BlockState Bool := do
  if bdev.info.valid=false then
    return false
  else if bdev.info.blockSize≠mbrSectorSize then
    return false
  else
    let idx ← bdev.lock 0
    let sector ← bdev.read idx 0 bdev.info.blockSize
    bdev.unlock idx
    let buf := blit (fun _=>0) 0 sector
    if bootSignature buf=mbrBootSignature then
      mbrHandlePartitions add bdev buf [0, 1, 2, 3]
    else
      return false

/-- Take the first free place of the registry. -/
def bdevRegister (dev : BlockDev) : Exec BlockState Unit := do
  let s ← get
  panicIf (s.bdevInitialized=false) "bdev_add(): not initialized"
  match s.blockDevices.findIdx? Option.isNone with
  | none => abort "bdev_add(): max devices exceeded"
  | some i => set {s with blockDevices := s.blockDevices.set i (some dev)}

/-- `bdev_add`, as deep as `fuel` allows. -/
def bdevAddRec : ℕ → BlockDev → Exec BlockState Unit
  | 0, _ => abort "endless recursion"
  | fuel+1, dev => do
    bdevRegister dev
    let _ ← mbrTableScan (bdevAddRec fuel) dev

/-- Every level of partitions takes a place in the registry. -/
def bdevAdd (dev : BlockDev) : Exec BlockState Unit := bdevAddRec (maxBlockDevices+1) dev

def bdevAddAll : List BlockDev → Exec BlockState Unit
  | [] => pure ()
  | dev::devs => do
    bdevAdd dev
    bdevAddAll devs

variable {s t : BlockState} {d dev : BlockDev} {add add' : BlockDev → Exec BlockState Unit} {fuel n : ℕ}

section

theorem lock_keeps (d : BlockDev) (n : ℕ) (s : BlockState) :
    Ensures (d.lock n) s (fun _ t=>t=s) (fun _=>True) := by
  induction d generalizing n with
  | drive info num present => simp [BlockDev.lock,wp_panicIf_iff]
  | part info offset size parent ih => simp [BlockDev.lock,wp_panicIf_iff,ih]

theorem unlock_keeps (d : BlockDev) (b : LockedBlock) (s : BlockState) :
    Ensures (d.unlock b) s (fun _ t=>t=s) (fun _=>True) := by
  induction d with
  | drive info num present => simp [BlockDev.unlock,wp_panicIf_iff]
  | part info offset size parent ih => simp [BlockDev.unlock,wp_panicIf_iff,ih]

theorem read_keeps (d : BlockDev) (b : LockedBlock) (off len : ℕ) (s : BlockState) :
    Ensures (d.read b off len) s (fun _ t=>t=s) (fun _=>True) := by
  induction d with
  | drive info num present =>
    simp only [BlockDev.read,wp_bind,wp_panicIf_iff]
    refine ⟨fun _=>trivial,fun _=>⟨fun _=>trivial,fun _=>Ensures.ite (fun _=>?_) (fun _=>?_)⟩⟩
    · rw [wp_pure]
    · simp [wp_kassert_iff]
  | part info offset size parent ih => simp [BlockDev.read,wp_panicIf_iff,ih]
end

namespace BlockDev

def IsDrive : BlockDev → Prop
  | drive info _ present => info.valid=true ∧ present=true ∧ info.numBlocks<2^32
  | part .. => False

/-- The checks of `mbr_handle_partition` hold on every level. -/
def Created : BlockDev → Prop
  | drive info n present => (drive info n present).IsDrive
  | part info offset size parent => info.valid=true ∧ info.numBlocks=size ∧ offset<2^32 ∧ size<2^32 ∧
      (offset+size)%2^32≤parent.info.numBlocks ∧ parent.Created

/-- The end of the partition, and of every one that it lies in, is a 32-bit number. -/
def NoWrap : BlockDev → Prop
  | drive .. => True
  | part _ offset size parent => offset+size<2^32 ∧ parent.NoWrap

/-- The partition lies in its parent, and so on up to the drive. -/
def Contained : BlockDev → Prop
  | drive .. => True
  | part _ offset size parent => offset+size≤parent.info.numBlocks ∧ parent.Contained

/-- The first block, as counted on the drive. -/
def base : BlockDev → ℕ
  | drive .. => 0
  | part _ offset _ parent => parent.base+offset

/-- The block lies in the device and in every one around it. -/
def Holds : BlockDev → LockedBlock → Prop
  | drive info n _, b => b.drive=n ∧ b.num < info.numBlocks
  | part info offset size parent, b => (part info offset size parent).base≤b.num ∧
      b.num<(part info offset size parent).base+size ∧ parent.Holds b
end BlockDev

section

def BlockState.Created (s : BlockState) : Prop := ∀ d, some d ∈ s.blockDevices → d.Created

theorem created_numBlocks_lt (h : d.Created) : d.info.numBlocks<2^32 := by
  cases d with
  | drive info num present => exact h.2.2
  | part info offset size parent =>
    obtain ⟨-,hs,-,hlt,-⟩ := h
    exact hs.symm▸hlt

theorem created_contained (h : d.Created) (hw : d.NoWrap) : d.Contained := by
  induction d with
  | drive info num present => trivial
  | part info offset size parent ih =>
    obtain ⟨-,-,-,-,hle,hp⟩ := h
    rw [Nat.mod_eq_of_lt hw.1] at hle
    exact ⟨hle,ih hp hw.2⟩

theorem lock_spec (h : d.Created) (hc : d.Contained) (hn : n<d.info.numBlocks) :
    ∃ b, d.lock n s=.ok b s ∧ b.num=d.base+n ∧ d.Holds b := by
  induction d generalizing n with
  | drive info num present =>
    obtain ⟨hvl,hps,-⟩ := h
    have hlc : BlockDev.lock (.drive info num present) n s=.ok ⟨num,n⟩ s := by
      rw [hps,BlockDev.lock,hvl]
      rfl
    exact ⟨⟨num,n⟩,hlc,(Nat.zero_add n).symm,rfl,hn⟩
  | part info offset size parent ih =>
    obtain ⟨hvl,hsz,-,-,-,hpr⟩ := h
    obtain ⟨hle,hc⟩ := hc
    have hlt := created_numBlocks_lt hpr
    have hsum : n+offset<parent.info.numBlocks := by
      change n < info.numBlocks at hn
      omega
    obtain ⟨b,hb,hnum,hhl⟩ := ih hpr hc hsum
    have hlc : BlockDev.lock (.part info offset size parent) n s=.ok b s := by
      rwa [BlockDev.lock,hvl,Nat.mod_eq_of_lt (by omega)]
    change n < info.numBlocks at hn
    refine ⟨b,hlc,?_,?_,?_,hhl⟩
    · rw [BlockDev.base]
      omega
    · simp_all [BlockDev.base]
    · rw [BlockDev.base]
      omega

theorem mbrPart_created (hdev : dev.Created) (buf : Mem) (num : ℕ)
    (hle : ((mbrPart buf num).lbaFirst+(mbrPart buf num).sectors)%2^32≤dev.info.numBlocks) :
    (mbrCreatePartition dev num (mbrPart buf num).lbaFirst (mbrPart buf num).sectors).Created :=
  ⟨rfl,rfl,load_lt buf _ 4,load_lt buf _ 4,hle,hdev⟩

theorem bdevRegister_created (h : s.Created) (hdev : dev.Created) :
    Ensures (bdevRegister dev) s (fun _ t=>t.Created) (fun _=>True) := by
  simp only [bdevRegister,wp_bind,wp_get,wp_panicIf_iff]
  refine ⟨fun _=>trivial,fun _=>?_⟩
  cases hf : s.blockDevices.findIdx? Option.isNone with
  | none => exact (wp_abort ..).mpr trivial
  | some i =>
    rw [wp_set]
    intro d hd
    rcases mem_or_eq_of_mem_set hd with hd | hd
    · exact h d hd
    · exact Option.some.inj hd▸hdev

section

variable (hdev : dev.Created)
  (hadd : ∀ d s, d.Created → s.Created → Ensures (add d) s (fun _ t=>t.Created) (fun _=>True)) (h : s.Created)

include hdev hadd h
theorem mbrHandlePartition_created (buf : Mem) (num : ℕ) :
    Ensures (mbrHandlePartition add dev (mbrPart buf num) num) s (fun _ t=>t.Created) (fun _=>True) := by
  rw [mbrHandlePartition]
  refine Ensures.ite (fun _=>?_) (fun _=>?_)
  · rwa [wp_pure]
  · simp only [wp_bind,wp_kassert_iff,wp_pure]
    split
    · split
      case isTrue hle => exact hadd _ _ (mbrPart_created hdev buf num (of_decide_eq_true hle)) h
      case isFalse => trivial
    · trivial

theorem mbrHandlePartitions_created (buf : Mem) (nums : List ℕ) :
    Ensures (mbrHandlePartitions add dev buf nums) s (fun _ t=>t.Created) (fun _=>True) := by
  induction nums generalizing s with
  | nil => rwa [mbrHandlePartitions,wp_pure]
  | cons num nums ih =>
    rw [mbrHandlePartitions]
    refine (mbrHandlePartition_created hdev hadd h buf num).bind (fun found t ht=>?_)
    refine Ensures.ite (fun _=>?_) (fun _=>ih ht)
    rwa [wp_pure]

theorem mbrTableScan_created : Ensures (mbrTableScan add dev) s (fun _ t=>t.Created) (fun _=>True) := by
  rw [mbrTableScan]
  refine Ensures.ite (fun _=>by rwa [wp_pure]) (fun _=>?_)
  refine Ensures.ite (fun _=>by rwa [wp_pure]) (fun _=>?_)
  apply (lock_keeps dev 0 s).bind
  rintro idx _ rfl
  apply (read_keeps ..).bind
  rintro sector _ rfl
  apply (unlock_keeps ..).bind
  rintro ⟨⟩ _ rfl
  exact Ensures.ite (fun _=>mbrHandlePartitions_created hdev hadd h ..) (fun _=>by rwa [wp_pure])
end

theorem bdevAddRec_created (hdev : dev.Created) (h : s.Created) :
    Ensures (bdevAddRec fuel dev) s (fun _ t=>t.Created) (fun _=>True) := by
  induction fuel generalizing dev s with
  | zero => exact (wp_abort ..).mpr trivial
  | succ fuel ih =>
    rw [bdevAddRec]
    refine (bdevRegister_created h hdev).bind (fun _ t ht=>?_)
    refine (mbrTableScan_created hdev (fun d s hd hs=>ih hd hs) ht).bind (fun _ u hu=>?_)
    rwa [wp_pure]

theorem bdevAddAll_created (hdr : ∀ d ∈ drives, d.IsDrive) (h : s.Created) :
    Ensures (bdevAddAll drives) s (fun _ t=>t.Created) (fun _=>True) := by
  induction drives generalizing s with
  | nil => rwa [bdevAddAll,wp_pure]
  | cons d ds ih =>
    rw [bdevAddAll]
    have hd : d.Created := by
      have hdv := hdr d mem_cons_self
      cases d with
      | drive info n present => exact hdv
      | part info offset size parent => exact hdv.elim
    exact (bdevAddRec_created hd h).bind (fun _ t ht=>ih (fun e he=>hdr e (mem_cons_of_mem _ he)) ht)
end

/-- The registry as `init_bdev` leaves it. -/
def initBdev (disk : ℕ → ℕ → Mem) : BlockState where
  bdevInitialized := true
  blockDevices := replicate maxBlockDevices none
  disk := disk

section

/-- A boot record whose first entry is a partition. -/
def mbrSector (lbaFirst sectors : ℕ) : Mem :=
  store (store (store (store (fun _=>0) 446 1 mbrPartPresent) 454 4 lbaFirst) 458 4 sectors) 510 2 mbrBootSignature

def thousandBlocks : BlockDev := .drive ⟨['a', 't', 'a', '0'].map charByte,true,ideSectorSize,1000⟩ 0 true

/-- The partition of the drive starts with a boot record of its own. -/
def nestedDisk : ℕ → ℕ → Mem
  | 0, 0 => mbrSector 1 100
  | 0, 1 => mbrSector 5 10
  | _, _ => fun _=>0

def outerPart : BlockDev := mbrCreatePartition thousandBlocks 0 1 100
def innerPart : BlockDev := mbrCreatePartition outerPart 0 5 10

set_option maxRecDepth 20000 in
theorem nestedDisk_devices : ∃ t, bdevAddAll [thousandBlocks] (initBdev nestedDisk)=.ok () t ∧
    t.blockDevices=some thousandBlocks::some outerPart::some innerPart::replicate 5 none :=
  ⟨_,rfl,rfl⟩

def wrappedDisk : ℕ → ℕ → Mem
  | 0, 0 => mbrSector 0xffffffff 2
  | _, _ => fun _=>0

def wrappedPart : BlockDev := mbrCreatePartition thousandBlocks 0 0xffffffff 2

set_option maxRecDepth 20000 in
theorem wrappedDisk_devices : ∃ t, bdevAddAll [thousandBlocks] (initBdev wrappedDisk)=.ok () t ∧
    t.blockDevices=some thousandBlocks::some wrappedPart::replicate 6 none :=
  ⟨_,rfl,rfl⟩

end

section

variable {buf : Mem} {name : List UInt8} {num : ℕ} {nums : List ℕ}

theorem partName_eq (hnm : 0 ∉ name) (hlen : name.length<bdevMaxNameLength) (hnum : num<4) :
    partName name num=(name++charByte ':'::numeral 10 num).take (bdevMaxNameLength-1) := by
  have hsg : (num : BitVec 32).toInt=num := by interval_cases num <;> rfl
  have hdg : numeral 10 num≠[] ∧ (numeral 10 num).length=1 ∧ 0 ∉ numeral 10 num := by
    interval_cases num <;> decide
  have hexp : expand (['%', 's', ':', '%', 'd'].map charByte) [.str name, .word num] =
      some [.string name, .literal (charByte ':'), .signed num] := by
    rw [← hsg]
    rfl
  have hrn : render [.string name, .literal (charByte ':'), .signed num] =
      name++charByte ':'::numeral 10 num := by
    simp [render,Piece.render,Piece.padding,Piece.text,signedNumeral]
  rw [bdevMaxNameLength] at hlen
  have hmax : (render [.string name, .literal (charByte ':'), .signed num]).length ≤ intMax := by
    simp [hrn,hdg,intMax]
    omega
  have hpr : genericNprintf (outputPrinter (pure ())) _ _ _ _ _=_ :=
    genericNprintf_dest hexp (unpadded_of_no_pointer (by simp)) hmax 0 (bdevMaxNameLength-1) ⟨fun _=>0,[],0⟩
  rw [← take_allowed _ hmax,hrn] at hpr
  simp only [partName,ksnprintf,kernelPrinter,finalState,hpr]
  set text := (name++charByte ':'::numeral 10 num).take (bdevMaxNameLength-1)
  have hzr : ∀ c ∈ text, c≠0 := by
    intro c hc
    have hc := mem_of_mem_take hc
    simp only [mem_append,mem_cons] at hc
    rintro rfl
    rcases hc with hc | hc | hc
    · exact hnm hc
    · exact absurd hc (by decide)
    · exact hdg.2.2 hc
  have hle : text.length≤bdevMaxNameLength-1 := length_take_le ..
  have hft : text.length+(bdevMaxNameLength-text.length)=bdevMaxNameLength := by omega
  change takeWhile _ (bytes (blit _ 0 text) 0 _)=text
  rw [← hft,bytes_blit_append,takeWhile_append_of_pos (by simpa using hzr)]
  simp [bytes]

/-- The entries of the table that are present. -/
def presentSlots (buf : Mem) : List ℕ := [0, 1, 2, 3].filter fun num=>(mbrPart buf num).status=mbrPartPresent

/-- The device that the entry stands for. -/
def slotDev (dev : BlockDev) (buf : Mem) (num : ℕ) : BlockDev :=
  let part := mbrPart buf num
  .part ⟨dev.info.name++charByte ':'::numeral 10 num,true,dev.info.blockSize,part.sectors⟩ part.lbaFirst
    part.sectors dev

/-- Add the devices one after another, and tell if there was one. -/
def addEach (add : BlockDev → Exec BlockState Unit) : List BlockDev → Exec BlockState Bool
  | [] => return false
  | d::ds => do
    add d
    let _ ← addEach add ds
    return true

/-- The first sector of the device is `buf`, a boot record whose entries are valid for the device. -/
structure Readable (s : BlockState) (dev : BlockDev) (buf : Mem) : Prop where
  valid : dev.info.valid=true
  blockSize : dev.info.blockSize=mbrSectorSize
  numBlocks : dev.info.numBlocks<2^32
  sector : ∃ b data, dev.lock 0 s=.ok b s ∧ dev.read b 0 mbrSectorSize s=.ok data s ∧
    dev.unlock b s=.ok () s ∧ buf=blit (fun _=>0) 0 data
  signature : bootSignature buf=mbrBootSignature
  entries : ∀ num ∈ presentSlots buf, (mbrPart buf num).lbaFirst≠0 ∧ (mbrPart buf num).sectors≠0 ∧
    (mbrPart buf num).lbaFirst+(mbrPart buf num).sectors≤dev.info.numBlocks
  name : 0 ∉ dev.info.name ∧ dev.info.name.length<bdevMaxNameLength

theorem mbrHandlePartition_eq (hvl : part.status=mbrPartPresent →
      part.lbaFirst≠0 ∧ part.sectors≠0 ∧ part.lbaFirst+part.sectors≤dev.info.numBlocks) :
    mbrHandlePartition add dev part num=if part.status=mbrPartPresent then do
      add (mbrCreatePartition dev num part.lbaFirst part.sectors)
      return true
    else return false := by
  rw [mbrHandlePartition,ite_not]
  split
  next hp =>
    obtain ⟨hfr,hsc,hend⟩ := hvl hp
    have hwr : (part.lbaFirst+part.sectors)%2^32≤dev.info.numBlocks := (Nat.mod_le ..).trans hend
    rw [kassert,kassert,decide_eq_true hfr,decide_eq_true hsc,decide_eq_true hwr]
    rfl
  next => rfl

theorem mbrHandlePartitions_eq (h : Readable s dev buf) (hn : nums.Sublist [0, 1, 2, 3]) :
    mbrHandlePartitions add dev buf nums =
      addEach add (((nums.filter fun num=>(mbrPart buf num).status=mbrPartPresent).take 1).map fun num =>
        mbrCreatePartition dev num (mbrPart buf num).lbaFirst (mbrPart buf num).sectors) := by
  induction nums with
  | nil => rfl
  | cons num nums ih =>
    have hv := fun hp=>h.entries num (mem_filter.mpr ⟨hn.subset mem_cons_self,decide_eq_true hp⟩)
    rw [mbrHandlePartitions,mbrHandlePartition_eq hv,filter_cons,ih ((sublist_cons_self num nums).trans hn)]
    by_cases hp : (mbrPart buf num).status=mbrPartPresent <;> simp_all [addEach]

theorem mbrTableScan_eq (h : Readable s dev buf) :
    mbrTableScan add dev s=addEach add (((presentSlots buf).take 1).map fun num =>
      mbrCreatePartition dev num (mbrPart buf num).lbaFirst (mbrPart buf num).sectors) s := by
  obtain ⟨b,data,hl,hr,hu,rfl⟩ := h.sector
  rw [presentSlots,← mbrHandlePartitions_eq h (Sublist.refl _)]
  simp [mbrTableScan,h.valid,h.blockSize,bind,EStateM.bind,hl,hr,hu,h.signature]

theorem mbrCreatePartition_eq_iff (h : Readable s dev buf) (hnum : num ∈ presentSlots buf) :
    mbrCreatePartition dev num (mbrPart buf num).lbaFirst (mbrPart buf num).sectors=slotDev dev buf num ↔
      dev.info.name.length+2<bdevMaxNameLength := by
  have hlt : num<4 := by
    have := mem_of_mem_filter hnum
    simp at this
    omega
  have hd : (numeral 10 num).length=1 := by interval_cases num <;> rfl
  rw [mbrCreatePartition,slotDev,partName_eq h.name.1 h.name.2 hlt]
  simp only [BlockDev.part.injEq,BlockDevInfo.mk.injEq,and_true,take_eq_self_iff,length_append,length_cons,hd,
    bdevMaxNameLength]
  omega

def record (d : BlockDev) : Exec BlockState Unit := modify fun s=>{s with blockDevices := s.blockDevices++[some d]}

theorem addEach_record (ds : List BlockDev) (s : BlockState) : addEach record ds s =
    .ok (!ds.isEmpty) {s with blockDevices := s.blockDevices++ds.map some} := by
  induction ds generalizing s with
  | nil => simp [addEach,pure,EStateM.pure]
  | cons d ds ih =>
    change EStateM.bind (addEach record ds) _ {s with blockDevices := s.blockDevices++[some d]}=_
    rw [EStateM.bind,ih]
    simp [pure,EStateM.pure]

/-- Every partition is added exactly if there is one at most, and room for its name. -/
theorem mbrTableScan_complete_iff (h : Readable s dev buf) :
    (∀ add, mbrTableScan add dev s=addEach add ((presentSlots buf).map (slotDev dev buf)) s) ↔
      (presentSlots buf).length≤1 ∧ (presentSlots buf≠[] → dev.info.name.length+2<bdevMaxNameLength) := by
  simp only [mbrTableScan_eq h]
  cases hsl : presentSlots buf with
  | nil => simp
  | cons num nums =>
    have hiff := mbrCreatePartition_eq_iff h (show num ∈ presentSlots buf by simp [hsl])
    simp only [take_succ_cons,take_zero,map_cons,map_nil]
    constructor
    · intro hadd
      have heq := hadd record
      rw [addEach_record,addEach_record] at heq
      injection heq with _ hst
      injection hst with _ hdv _
      have hdv := append_cancel_left hdv
      simp only [map_cons,map_nil,cons.injEq,Option.some.injEq] at hdv
      have hnil := map_eq_nil_iff.mp (map_eq_nil_iff.mp hdv.2.symm)
      exact ⟨by simp [hnil],fun _=>hiff.mp hdv.1⟩
    · rintro ⟨hlen,hnm⟩ add
      have hnil : nums=[] := by simpa using hlen
      rw [hiff.mpr (hnm (cons_ne_nil _ _)),hnil]
      rfl

/-- A second entry behind that of `mbrSector`. -/
def twoPartsDisk : ℕ → ℕ → Mem
  | 0, 0 => store (store (store (mbrSector 1 100) 462 1 mbrPartPresent) 470 4 101) 474 4 200
  | _, _ => fun _=>0

def firstSector (disk : ℕ → ℕ → Mem) : Mem := blit (fun _=>0) 0 (bytes (disk 0 0) 0 mbrSectorSize)

theorem readable_thousandBlocks (hsig : bootSignature (firstSector disk)=mbrBootSignature)
    (hs : presentSlots (firstSector disk)=nums) (hv : ∀ num ∈ nums,
      (mbrPart (firstSector disk) num).lbaFirst≠0 ∧ (mbrPart (firstSector disk) num).sectors≠0 ∧
      (mbrPart (firstSector disk) num).lbaFirst+(mbrPart (firstSector disk) num).sectors≤1000) :
    Readable (initBdev disk) thousandBlocks (firstSector disk) :=
  ⟨rfl,rfl,by decide,⟨⟨0,0⟩,_,rfl,rfl,rfl,rfl⟩,hsig,hs▸hv,by decide⟩

theorem mbrTableScan_complete_iff_nested : Readable (initBdev nestedDisk) thousandBlocks (firstSector nestedDisk) ∧
    ∀ add, mbrTableScan add thousandBlocks (initBdev nestedDisk) =
      addEach add [slotDev thousandBlocks (firstSector nestedDisk) 0] (initBdev nestedDisk) := by
  have hs : presentSlots (firstSector nestedDisk)=[0] := by decide +kernel
  have h := readable_thousandBlocks (by decide +kernel) hs (by decide +kernel)
  refine ⟨h,fun add=>?_⟩
  have hall := (mbrTableScan_complete_iff h).mpr ⟨by simp [hs],fun _=>by decide⟩ add
  rwa [hs] at hall

set_option maxRecDepth 20000 in
/-- The second partition of the drive is not added. -/
theorem mbrTableScan_skips_second : Readable (initBdev twoPartsDisk) thousandBlocks (firstSector twoPartsDisk) ∧
    presentSlots (firstSector twoPartsDisk)=[0, 1] ∧
    ∃ t, bdevAddAll [thousandBlocks] (initBdev twoPartsDisk)=.ok () t ∧
      t.blockDevices=some thousandBlocks::some outerPart::replicate 6 none := by
  have hs : presentSlots (firstSector twoPartsDisk)=[0, 1] := by decide +kernel
  exact ⟨readable_thousandBlocks (by decide +kernel) hs (by decide +kernel),hs,_,rfl,rfl⟩
end

end Yaos2.Block
