import Yaos2.Fat.Nodes
import Yaos2.Foundation.Reasons

/-! # Mounting a FAT volume

The number of clusters comes out of a subtraction that may wrap. -/
namespace Yaos2.Fat
open Foundation

def bootSectorSize : ℕ := 90

def divisionByZero : String := "division by zero"

/-- The bytes of `struct fat_bootsec`. -/
abbrev BootSector := List UInt8

namespace BootSector
variable (bs : BootSector)

/-- A number in `len` bytes from `off` on. -/
def field (off len : ℕ) : ℕ := littleEndian ((bs.drop off).take len)

def bytesPerSector : ℕ := field bs 11 2
def sectorsPerCluster : ℕ := field bs 13 1
def reservedSectorCount : ℕ := field bs 14 2
def tableCount : ℕ := field bs 16 1
def rootEntryCount : ℕ := field bs 17 2
def totalSectors16 : ℕ := field bs 19 2
def tableSize16 : ℕ := field bs 22 2
def totalSectors32 : ℕ := field bs 32 4
def tableSize32 : ℕ := field bs 36 4
def rootCluster : ℕ := field bs 44 4

/-- `ext16.fat_type_label` -/
def fatTypeLabel16 : List UInt8 := (bs.drop 54).take 8

/-- `ext32.fat_type_label` -/
def fatTypeLabel32 : List UInt8 := (bs.drop 82).take 8

def numSectors : ℕ := if totalSectors16 bs≠0 then totalSectors16 bs else totalSectors32 bs

def fatSize : ℕ := if tableSize16 bs≠0 then tableSize16 bs else tableSize32 bs

def numRootDirSectors : ℕ := (rootEntryCount bs*fatEntrySize+bytesPerSector bs-1)/bytesPerSector bs

def firstDataSector : ℕ := (reservedSectorCount bs+tableCount bs*fatSize bs+numRootDirSectors bs)%2^32

def numDataSectors : ℕ := (numSectors bs+2^32-firstDataSector bs)%2^32

def numClusters : ℕ := numDataSectors bs/sectorsPerCluster bs

def type : FatType :=
  if numClusters bs<4085 then .fat12
  else if numClusters bs<65525 then .fat16
  else if numClusters bs<268435445 then .fat32
  else .exFat
end BootSector

/-- `FAT_SYSTEM | FAT_DIRECTORY` and the cluster of the root directory. -/
def rootEntry (cluster : ℕ) : Record :=
  List.replicate 11 0++[0x04 ||| fatDirectory]++List.replicate 8 0 ++
    [UInt8.ofNat (cluster/2^16), UInt8.ofNat (cluster/2^24)]++List.replicate 4 0 ++
    [UInt8.ofNat cluster, UInt8.ofNat (cluster/2^8)]++List.replicate 4 0

/-- The constant part of `struct fat_vfs_super_data`. -/
structure FatVfsSuperData extends SuperData where
  numSectors : ℕ
  fatSize : ℕ
  numRootDirSectors : ℕ
  numDataSectors : ℕ
  numClusters : ℕ
  firstRootDirSector : ℕ
  entriesPerCluster : ℕ
  rootEntry : Record

def BootSector.superData (bs : BootSector) : FatVfsSuperData :=
  let base : SuperData := {
    type := type bs
    bytesPerSector := bytesPerSector bs
    sectorsPerCluster := sectorsPerCluster bs
    firstFatSector := reservedSectorCount bs
    firstDataSector := firstDataSector bs
    bytesPerCluster := sectorsPerCluster bs*bytesPerSector bs}
  {base with
    numSectors := numSectors bs
    fatSize := fatSize bs
    numRootDirSectors := numRootDirSectors bs
    numDataSectors := numDataSectors bs
    numClusters := numClusters bs
    firstRootDirSector := fatFirstSectorOfCluster base (rootCluster bs)
    entriesPerCluster := sectorsPerCluster bs*bytesPerSector bs/fatEntrySize
    rootEntry := Fat.rootEntry (rootCluster bs)}

def fatCheckLabel (label : List UInt8) : Bool := kstrncmp label [0x46, 0x41, 0x54] 3

open BootSector in
def fatCreateSuper : Exec BlockDev (Option FatVfsSuperData) := do
  let dev ← get
  let bs ← bdevRead 0 0 bootSectorSize
  if !fatCheckLabel (fatTypeLabel16 bs) && !fatCheckLabel (fatTypeLabel32 bs) then
    return none
  else if bytesPerSector bs≠dev.blockSize then
    return none
  else
    -- the divisors of `num_root_dir_sectors` and of `num_clusters`
    panicIf (bytesPerSector bs=0) divisionByZero
    panicIf (sectorsPerCluster bs=0) divisionByZero
    if type bs=.fat32 then
      kassert "((bs->sectors_per_cluster * bs->bytes_per_sector) % FAT_ENTRY_SIZE) == 0"
        (sectorsPerCluster bs*bytesPerSector bs%fatEntrySize=0)
      return some (superData bs)
    else
      return none

/-- The volume is inside of its device, and the FAT has an entry for each of its clusters. -/
structure FatVfsSuperData.Consistent (d : FatVfsSuperData) (numBlocks : ℕ) : Prop where
  clusters : d.firstDataSector+d.numClusters*d.sectorsPerCluster≤d.numSectors
  device : d.numSectors≤numBlocks
  fat : 4*(d.numClusters+2)≤d.fatSize*d.bytesPerSector
  root : 2≤d.rootEntry.cluster ∧ d.rootEntry.cluster≤d.numClusters+1

def BlockDev.bootSector (dev : BlockDev) : BootSector := bytes (dev.data 0) 0 bootSectorSize

/-- The boot sector fits in a block, and has the label and the size of a sector that are looked for. -/
structure BlockDev.Recognized (dev : BlockDev) : Prop where
  fits : bootSectorSize≤dev.blockSize
  label : fatCheckLabel (BootSector.fatTypeLabel16 dev.bootSector)=true ∨
    fatCheckLabel (BootSector.fatTypeLabel32 dev.bootSector)=true
  sector : BootSector.bytesPerSector dev.bootSector=dev.blockSize

/-- The volume has the size of a FAT32 volume, and its clusters hold whole directory entries. -/
def BootSector.Fat32Sized (bs : BootSector) : Prop :=
  type bs=.fat32 ∧ sectorsPerCluster bs*bytesPerSector bs%fatEntrySize=0

/-- The volume is inside of its device, and its FAT and root directory fit the number of clusters.
-/
structure BootSector.Sound (bs : BootSector) (numBlocks : ℕ) : Prop where
  overhead : firstDataSector bs≤numSectors bs
  device : numSectors bs≤numBlocks
  fat : 4*((numSectors bs-firstDataSector bs)/sectorsPerCluster bs+2)≤fatSize bs*bytesPerSector bs
  root : 2≤rootCluster bs ∧ rootCluster bs≤(numSectors bs-firstDataSector bs)/sectorsPerCluster bs+1

variable {dev : BlockDev} {bs : BootSector} {numBlocks : ℕ}

section
open BootSector

theorem littleEndian_lt (l : List UInt8) : littleEndian l<256^l.length := by
  induction l with
  | nil => exact Nat.one_pos
  | cons b l ih =>
    have hb := b.toNat_lt
    rw [littleEndian,List.length_cons,pow_succ]
    omega

theorem BootSector.field_lt (bs : BootSector) (off len : ℕ) : field bs off len<256^len := by
  apply (littleEndian_lt _).trans_le
  apply Nat.pow_le_pow_right (by decide)
  exact List.length_take_le ..

theorem numSectors_lt (bs : BootSector) : numSectors bs<2^32 := by
  have h16 := field_lt bs 19 2
  have h32 := field_lt bs 32 4
  rw [numSectors,totalSectors16,totalSectors32]
  split <;> omega

theorem rootEntry_cluster (hc : c<2^32) : (rootEntry c).cluster=c := by
  have hb : (rootEntry c).cluster=((UInt8.ofNat (c/2^16)).toNat+256*(UInt8.ofNat (c/2^24)).toNat)*2^16 +
        ((UInt8.ofNat c).toNat+256*(UInt8.ofNat (c/2^8)).toNat) := rfl
  rw [hb]
  simp only [UInt8.toNat_ofNat']
  omega

theorem numClusters_eq (h : firstDataSector bs≤numSectors bs) :
    numClusters bs=(numSectors bs-firstDataSector bs)/sectorsPerCluster bs := by
  have hlt := numSectors_lt bs
  have hsub : numDataSectors bs=numSectors bs-firstDataSector bs := by
    rw [numDataSectors]
    omega
  rw [numClusters,hsub]

theorem clusters_inside_iff :
    firstDataSector bs+numClusters bs*sectorsPerCluster bs≤numSectors bs ↔ firstDataSector bs≤numSectors bs := by
  constructor
  · exact fun h=>(Nat.le_add_right _ _).trans h
  · intro h
    rw [numClusters_eq h]
    have hle := Nat.div_mul_le_self (numSectors bs-firstDataSector bs) (sectorsPerCluster bs)
    omega

theorem superData_consistent_iff : (superData bs).Consistent numBlocks ↔ Sound bs numBlocks := by
  have hr : (superData bs).rootEntry.cluster=rootCluster bs := rootEntry_cluster (field_lt bs 44 4)
  constructor
  · intro h
    have ho := clusters_inside_iff.mp h.clusters
    have hc := numClusters_eq ho
    refine ⟨ho,h.device,?_,?_⟩
    · rw [← hc]
      exact h.fat
    · rw [← hc,← hr]
      exact h.root
  · intro h
    have hc := numClusters_eq h.overhead
    refine ⟨clusters_inside_iff.mpr h.overhead,h.device,?_,?_⟩
    · change 4*(numClusters bs+2)≤_
      rw [hc]
      exact h.fat
    · change _ ∧ _≤numClusters bs+1
      rw [hc,hr]
      exact h.root
end

section
open BootSector

theorem bdevRead_ok_iff (hlen : 0<len) (hsum : off+len<2^32) : bdevRead block off len dev=.ok part t ↔
      off+len≤dev.blockSize ∧ bytes (dev.data block) off len=part ∧ dev=t := by
  have hget : (get : Exec BlockDev BlockDev) dev=.ok dev dev := rfl
  rw [bdevRead,if_neg hlen.ne',bind_of_ok hget,Nat.mod_eq_of_lt hsum]
  by_cases hft : off+len≤dev.blockSize
  · have hoff : off<dev.blockSize := by omega
    rw [and_iff_right hft,decide_eq_true hoff,decide_eq_true hft]
    exact EStateM.Result.ok.injEq ..▸Iff.rfl
  · apply iff_of_false _ (fun hand=>hft hand.1)
    rw [decide_eq_false hft]
    cases decide (off<dev.blockSize) with
    | false => exact fun h=>by cases h
    | true => exact fun h=>by cases h

theorem bdevRead_bootSector (h : bootSectorSize≤dev.blockSize) :
    bdevRead 0 0 bootSectorSize dev=.ok dev.bootSector dev :=
  (bdevRead_ok_iff (by decide) (by decide)).mpr ⟨h,rfl,rfl⟩

theorem BlockDev.Recognized.bytesPerSector_pos (h : dev.Recognized) : 0<bytesPerSector dev.bootSector := by
  rw [h.sector]
  exact Nat.lt_of_lt_of_le (by decide) h.fits

theorem fatCreateSuper_eq (h : dev.Recognized) : fatCreateSuper dev =
    if sectorsPerCluster dev.bootSector=0 then .error divisionByZero dev
    else if type dev.bootSector=.fat32 then
      if sectorsPerCluster dev.bootSector*bytesPerSector dev.bootSector%fatEntrySize=0 then
        .ok (some (superData dev.bootSector)) dev
      else .error "assertion ((bs->sectors_per_cluster * bs->bytes_per_sector) % FAT_ENTRY_SIZE) == 0 failed" dev
    else .ok none dev := by
  have hlb : ¬ (!fatCheckLabel (fatTypeLabel16 dev.bootSector) && !fatCheckLabel (fatTypeLabel32 dev.bootSector))=true := by
    rcases h.label with hl | hl <;> simp [hl]
  have hget : (get : Exec BlockDev BlockDev) dev=.ok dev dev := rfl
  have hpos : panicIf (bytesPerSector dev.bootSector=0) divisionByZero dev=.ok () dev := by
    rw [panicIf,if_neg h.bytesPerSector_pos.ne']
    rfl
  rw [fatCreateSuper,bind_of_ok hget,bind_of_ok (bdevRead_bootSector h.fits),if_neg hlb,
    if_neg (not_not.mpr h.sector),bind_of_ok hpos]
  by_cases hspc : sectorsPerCluster dev.bootSector=0
  · rw [if_pos hspc,panicIf,if_pos hspc]
    rfl
  have hdiv : panicIf (sectorsPerCluster dev.bootSector=0) divisionByZero dev=.ok () dev := by
    rw [panicIf,if_neg hspc]
    rfl
  rw [if_neg hspc,bind_of_ok hdiv]
  by_cases hty : type dev.bootSector=.fat32
  · rw [if_pos hty,if_pos hty]
    by_cases hal : sectorsPerCluster dev.bootSector*bytesPerSector dev.bootSector%fatEntrySize=0
    · rw [if_pos hal,decide_eq_true hal]
      rfl
    · rw [if_neg hal,decide_eq_false hal]
      rfl
  · rw [if_neg hty,if_neg hty]
    rfl

theorem bdevRead_small (h : dev.blockSize<bootSectorSize) :
    ∃ reason≠divisionByZero, bdevRead 0 0 bootSectorSize dev=.error reason dev := by
  have hget : (get : Exec BlockDev BlockDev) dev=.ok dev dev := rfl
  rw [bdevRead,if_neg (by decide),bind_of_ok hget]
  by_cases hpos : 0<dev.blockSize
  · have hlen : ¬ (0+bootSectorSize)%2^32≤dev.blockSize := not_le.mpr h
    rw [decide_eq_true hpos,decide_eq_false hlen]
    exact ⟨_,by decide,rfl⟩
  · rw [decide_eq_false hpos]
    exact ⟨_,by decide,rfl⟩

theorem fatCreateSuper_unrecognized (h : ¬ dev.Recognized) :
    fatCreateSuper dev=.ok none dev ∨ ∃ reason≠divisionByZero, fatCreateSuper dev=.error reason dev := by
  have hget : (get : Exec BlockDev BlockDev) dev=.ok dev dev := rfl
  rw [fatCreateSuper,bind_of_ok hget]
  by_cases hft : bootSectorSize≤dev.blockSize
  · left
    rw [bind_of_ok (bdevRead_bootSector hft)]
    split
    · rfl
    next hlb =>
      rw [if_pos]
      · rfl
      intro hsc
      apply h ⟨hft,?_,hsc⟩
      by_contra hno
      push Not at hno
      exact hlb (by simp [hno.1,hno.2])
  · right
    obtain ⟨reason,hne,hrd⟩ := bdevRead_small (not_le.mp hft)
    exact ⟨reason,hne,bind_of_error hrd⟩

/-- The recorded geometry is consistent unless the boot sector has no sectors in a cluster or is not
sound. -/
theorem fatCreateSuper_consistent_iff (dev : BlockDev) (numBlocks : ℕ) :
    (¬ Raises fatCreateSuper dev divisionByZero ∧
      ∀ d t, fatCreateSuper dev=.ok (some d) t → d.Consistent numBlocks) ↔
    (dev.Recognized → 0<sectorsPerCluster dev.bootSector ∧
      (Fat32Sized dev.bootSector → Sound dev.bootSector numBlocks)) := by
  by_cases h : dev.Recognized
  · rw [forall_prop_of_true h,Raises,fatCreateSuper_eq h]
    by_cases hspc : sectorsPerCluster dev.bootSector=0
    · apply iff_of_false
      · rintro ⟨hdiv,-⟩
        exact hdiv ⟨dev,if_pos hspc⟩
      · exact fun hsn=>hsn.1.ne' hspc
    rw [if_neg hspc,and_iff_right (Nat.pos_of_ne_zero hspc)]
    by_cases hty : type dev.bootSector=.fat32
    · rw [if_pos hty]
      by_cases hal : sectorsPerCluster dev.bootSector*bytesPerSector dev.bootSector%fatEntrySize=0
      · have hsz : Fat32Sized dev.bootSector := ⟨hty,hal⟩
        rw [if_pos hal,forall_prop_of_true hsz,← superData_consistent_iff]
        simp
      · apply iff_of_true
        · rw [if_neg hal]
          simp [divisionByZero]
        · exact fun hsz=>absurd hsz.2 hal
    · apply iff_of_true
      · rw [if_neg hty]
        simp
      · exact fun hsz=>absurd hsz.1 hty
  · apply iff_of_true _ (fun hrec=>absurd hrec h)
    rcases fatCreateSuper_unrecognized h with hnn | ⟨reason,hne,her⟩
    · simp [Raises,hnn]
    · simp [Raises,her,hne]

/-- A boot sector with these fields, in the order of the disk. -/
def bootBytes (sectorsPerCluster tableCount : UInt8) (numSectors fatSize root : ℕ) : BootSector :=
  let word (n : ℕ) : List UInt8 := [UInt8.ofNat n, UInt8.ofNat (n/2^8), UInt8.ofNat (n/2^16), UInt8.ofNat (n/2^24)]
  List.replicate 11 0++[0x00, 0x02, sectorsPerCluster, 32, 0, tableCount]++List.replicate 15 0++word numSectors ++
    word fatSize++List.replicate 4 0++word root++List.replicate 34 0++[0x46, 0x41, 0x54, 0x33, 0x32, 0x20, 0x20, 0x20]

def bootDisk (bs : BootSector) : BlockDev where
  blockSize := 512
  data := fun block x=>if block=0 then bs.getD x 0 else 0

/-- A boot sector without sectors in a cluster, and one of a volume of a single sector. -/
theorem fatCreateSuper_unchecked :
    Raises fatCreateSuper (bootDisk (bootBytes 0 2 100000 800 2)) divisionByZero ∧
    ∃ d t, fatCreateSuper (bootDisk (bootBytes 32 2 1 1 2))=.ok (some d) t ∧ d.numSectors=1 ∧
      d.firstDataSector=34 ∧ d.numClusters=134217726 ∧ ∀ numBlocks, ¬ d.Consistent numBlocks := by
  have hz : (bootDisk (bootBytes 0 2 100000 800 2)).Recognized := ⟨by decide,.inr (by decide),by decide⟩
  have hs : (bootDisk (bootBytes 32 2 1 1 2)).Recognized := ⟨by decide,.inr (by decide),by decide⟩
  constructor
  · rw [Raises,fatCreateSuper_eq hz,if_pos (by decide)]
    exact ⟨_,rfl⟩
  · rw [fatCreateSuper_eq hs,if_neg (by decide),if_pos (by decide),if_pos (by decide)]
    refine ⟨_,_,rfl,by decide,by decide,by decide,?_⟩
    intro numBlocks h
    exact absurd h.clusters (by decide)
end

end Yaos2.Fat
