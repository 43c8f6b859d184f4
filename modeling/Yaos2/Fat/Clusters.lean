import Yaos2.Fat.CreateSuper
import Yaos2.Fat.Scan

/-! # The clusters that `fat_read` computes with

An entry of the FAT that is free, reserved or behind the last cluster is a next cluster like any other. -/
namespace Yaos2.Fat
open Foundation

/-- The number of a cluster of the volume. -/
def FatVfsSuperData.IsData (d : FatVfsSuperData) (c : ℕ) : Prop := 2≤c ∧ c<d.numClusters+2

instance (d : FatVfsSuperData) : DecidablePred d.IsData := fun c=>inferInstanceAs (Decidable (2≤c ∧ c<d.numClusters+2))

/-- Stop before a computation with a number that is not a cluster's. -/
def checkCluster (d : FatVfsSuperData) (c : ℕ) : Exec BlockDev Unit := panicIf (¬ d.IsData c) "not a data cluster"

section
variable (d : FatVfsSuperData)

/-- `readClusters`, with a check of every cluster that it computes with. -/
def checkedReadClusters : ℕ → ℕ → Progress → Exec BlockDev (ℕ × List UInt8)
  | 0, _, _ => abort "endless loop"
  | fuel+1, cl, r => do
    if r.num=0 then
      return (r.numRead, r.buf)
    else
      checkCluster d cl
      let r ← readBlocks d.toSuperData (clPortion d.toSuperData r/d.sectorsPerCluster+1)
        (fatFirstSectorOfCluster d.toSuperData cl) r
      if r.num=0 then
        return (r.numRead, r.buf)
      else
        let (state, next) ← fatReadFat d.toSuperData cl
        if state=.ok then
          checkedReadClusters fuel next r
        else
          return (0, r.buf)

/-- `followChain`, with a check of every cluster that it computes with. -/
def checkedFollowChain : ℕ → ℕ → Exec BlockDev (Option ℕ)
  | 0, cl => return some cl
  | n+1, cl => do
    checkCluster d cl
    let (state, next) ← fatReadFat d.toSuperData cl
    if state=.ok then
      checkedFollowChain n next
    else
      return none

/-- `fat_read`, with a check of every cluster that it computes with. -/
def checkedFatRead (firstCluster off : ℕ) (num : Int) : Exec BlockDev (ℕ × List UInt8) := do
  if num≤0 then
    return (0, [])
  else
    match ← checkedFollowChain d (off/d.bytesPerCluster) firstCluster with
    | none => return (0, [])
    | some cl => checkedReadClusters d (num.toNat+1) cl {
        numRead := 0
        num := num.toNat
        initialOffset := off%d.bytesPerCluster
        buf := []}
end

/-- `fat_read_fat` leads from a cluster of the volume to another one only. -/
def FatVfsSuperData.StepsInside (d : FatVfsSuperData) (dev : BlockDev) : Prop :=
  ∀ c next, d.IsData c → fatReadFat d.toSuperData c dev=.ok (.ok, next) dev → d.IsData next

/-- No read that starts with a cluster of the volume computes with another number: the checks make no difference. -/
def FatVfsSuperData.ReadsInside (d : FatVfsSuperData) (dev : BlockDev) : Prop :=
  ∀ first off num, d.IsData first → checkedFatRead d first off num dev=fatRead d.toSuperData first off num dev

/-- The entries of the FAT that can be read, of the clusters of the volume, are numbers of clusters or marks. -/
def FatVfsSuperData.FatSound (d : FatVfsSuperData) (dev : BlockDev) : Prop :=
  ∀ c, d.IsData c → 4*c%d.bytesPerSector+4≤d.bytesPerSector →
    d.IsData (nextCluster d.toSuperData dev c) ∨ 0xffffff7≤nextCluster d.toSuperData dev c

variable {d : FatVfsSuperData} {dev : BlockDev} {c next : ℕ}

section

/-- What a volume that was accepted is like. -/
structure FatVfsSuperData.Mounted (d : FatVfsSuperData) (dev : BlockDev) : Prop where
  recognized : dev.Recognized
  sized : BootSector.Fat32Sized dev.bootSector
  positive : 0<BootSector.sectorsPerCluster dev.bootSector
  data : d=BootSector.superData dev.bootSector

theorem mounted_of_ok (h : fatCreateSuper dev=.ok (some d) t) : d.Mounted dev := by
  by_cases hrec : dev.Recognized
  · rw [fatCreateSuper_eq hrec] at h
    split at h
    · cases h
    split at h
    · split at h
      · obtain ⟨hd,-⟩ := EStateM.Result.ok.inj h
        exact ⟨hrec,⟨‹_›,‹_›⟩,Nat.pos_of_ne_zero ‹_›,(Option.some.inj hd).symm⟩
      · cases h
    · cases h
  · rcases fatCreateSuper_unrecognized hrec with hn | ⟨reason,-,he⟩
    · rw [hn] at h
      cases h
    · rw [he] at h
      cases h

section
variable (h : d.Mounted dev)
include h
theorem FatVfsSuperData.Mounted.numClusters_lt : d.numClusters<268435445 := by
  obtain ⟨-,⟨ht,-⟩,-,rfl⟩ := h
  change BootSector.numClusters dev.bootSector<268435445
  rw [BootSector.type] at ht
  split at ht
  · omega
  split at ht
  · omega
  split at ht
  · assumption
  · cases ht

theorem FatVfsSuperData.Mounted.blockSize :
    d.type=.fat32 ∧ d.bytesPerSector=dev.blockSize ∧ d.bytesPerSector<2^16 ∧ d.firstFatSector<2^16 := by
  obtain ⟨hrec,⟨ht,-⟩,-,rfl⟩ := h
  exact ⟨ht,hrec.sector,BootSector.field_lt dev.bootSector 11 2,BootSector.field_lt dev.bootSector 14 2⟩

theorem fatReadFat_ok_iff (hc : d.IsData c) :
    fatReadFat d.toSuperData c dev=.ok (.ok, next) dev ↔ 4*c%d.bytesPerSector+4≤d.bytesPerSector ∧
      next=nextCluster d.toSuperData dev c ∧ next<0xffffff7 := by
  obtain ⟨hty,hsc,hlm,hfat⟩ := h.blockSize
  have hlt := h.numClusters_lt
  have hhg := hc.2
  have hmod : c*4%2^32=4*c := by omega
  have hdiv : 4*c/d.bytesPerSector≤4*c := Nat.div_le_self ..
  have hsec : (d.firstFatSector+4*c/d.bytesPerSector)%2^32 =
      d.firstFatSector+4*c/d.bytesPerSector := Nat.mod_eq_of_lt (by omega)
  have hmd := Nat.mod_lt (4*c) (show 0<d.bytesPerSector from hsc▸Nat.lt_of_lt_of_le (by decide) h.recognized.fits)
  have hdc : fatDecode c (bytes (dev.data (d.firstFatSector+4*c/d.bytesPerSector)) (4*c%d.bytesPerSector) 4)
      .fat32=(.ok, next) ↔ next=nextCluster d.toSuperData dev c ∧ next<0xffffff7 := by
    rw [fatDecode,littleEndian_bytes,← nextCluster,Prod.mk.injEq,and_comm,eq_comm]
    apply and_congr_right
    rintro rfl
    split
    · next hls => exact iff_of_false (by simp) (by omega)
    split
    · next hbad => exact iff_of_false (by simp) (by omega)
    · next hls hbad => exact iff_of_true rfl (by omega)
  simp only [fatReadFat,hty,fatOffset,hmod,hsec]
  rw [bind_eq_ok,← hdc]
  constructor
  · rintro ⟨part,t,hrd,hpr⟩
    obtain ⟨hft,rfl,rfl⟩ := (bdevRead_ok_iff (by decide) (by omega)).mp hrd
    exact ⟨hsc▸hft,(EStateM.Result.ok.inj hpr).1⟩
  · rintro ⟨hft,hnx⟩
    refine ⟨_,dev,(bdevRead_ok_iff (by decide) (by omega)).mpr ⟨?_,rfl,rfl⟩,?_⟩
    · rwa [← hsc]
    · rw [hnx]
      rfl

theorem FatVfsSuperData.Mounted.stepsInside_iff : d.StepsInside dev ↔ d.FatSound dev := by
  constructor
  · intro hst c hc hft
    by_cases hmr : 0xffffff7≤nextCluster d.toSuperData dev c
    · exact .inr hmr
    · exact .inl (hst c _ hc ((fatReadFat_ok_iff h hc).mpr ⟨hft,rfl,not_le.mp hmr⟩))
  · intro hsn c next hc hrd
    obtain ⟨hft,rfl,hlt⟩ := (fatReadFat_ok_iff h hc).mp hrd
    exact (hsn c hc hft).resolve_right (not_le.mpr hlt)
end

end

section

theorem checkCluster_of_isData (hc : d.IsData c) : checkCluster d c dev=.ok () dev := by
  rw [checkCluster,panicIf,if_neg (not_not.mpr hc)]
  rfl

section
variable (h : d.StepsInside dev)
include h
theorem followChain_isData (n : ℕ) (hc : d.IsData c) :
    Ensures (followChain d.toSuperData n c) dev (fun cl t=>t=dev ∧ ∀ x ∈ cl, d.IsData x) (fun _=>True) := by
  induction n generalizing c with
  | zero =>
    rw [followChain,wp_pure]
    exact ⟨rfl,fun x hx=>Option.some.inj hx▸hc⟩
  | succ n ih =>
    rw [followChain]
    apply ((fatReadFat_readOnly c dev).with_result.mono (fun _ _ hx=>hx) (fun _ _=>trivial)).bind
    rintro ⟨state,next⟩ t ⟨hr,rfl⟩
    apply Ensures.ite
    · rintro rfl
      exact ih (h c next hc hr)
    · intro _
      rw [wp_pure]
      exact ⟨rfl,fun x hx=>by cases hx⟩

theorem checkedFollowChain_eq (n : ℕ) (hc : d.IsData c) :
    checkedFollowChain d n c dev=followChain d.toSuperData n c dev := by
  induction n generalizing c with
  | zero => rfl
  | succ n ih =>
    rw [checkedFollowChain,followChain,bind_of_ok (checkCluster_of_isData hc)]
    apply Ensures.bind_congr (fatReadFat_readOnly c dev).with_result
    rintro ⟨state,next⟩ t ⟨hr,rfl⟩
    dsimp only
    by_cases hok : state=.ok
    · subst hok
      rw [if_pos rfl,if_pos rfl]
      exact ih (h c next hc hr)
    · rw [if_neg hok,if_neg hok]

theorem checkedReadClusters_eq (fuel : ℕ) (r : Progress) (hc : d.IsData c) :
    checkedReadClusters d fuel c r dev=readClusters d.toSuperData fuel c r dev := by
  induction fuel generalizing c r with
  | zero => rfl
  | succ fuel ih =>
    rw [checkedReadClusters,readClusters]
    by_cases h0 : r.num=0
    · rw [if_pos h0,if_pos h0]
    rw [if_neg h0,if_neg h0,bind_of_ok (checkCluster_of_isData hc)]
    apply Ensures.bind_congr (readBlocks_readOnly _ _ r dev)
    rintro r t rfl
    by_cases h0 : r.num=0
    · rw [if_pos h0,if_pos h0]
    rw [if_neg h0,if_neg h0]
    apply Ensures.bind_congr (fatReadFat_readOnly c t).with_result
    rintro ⟨state,next⟩ u ⟨hr,rfl⟩
    dsimp only
    by_cases hok : state=.ok
    · subst hok
      rw [if_pos rfl,if_pos rfl]
      exact ih r (h c next hc hr)
    · rw [if_neg hok,if_neg hok]

theorem FatVfsSuperData.StepsInside.readsInside : d.ReadsInside dev := by
  intro first off num hf
  rw [checkedFatRead,fatRead]
  split
  · rfl
  · rw [bind_congr_left (checkedFollowChain_eq h (off/d.bytesPerCluster) hf)]
    apply Ensures.bind_congr (followChain_isData h (off/d.bytesPerCluster) hf)
    rintro cl t ⟨rfl,hcl⟩
    cases cl with
    | none => rfl
    | some cl => exact checkedReadClusters_eq h _ _ (hcl cl rfl)
end

end

/-- The FAT leads from clusters to clusters of the volume iff its entries are clusters or marks. -/
theorem fatReadFat_inside_iff {t : BlockDev} (h : fatCreateSuper dev=.ok (some d) t) :
    (d.StepsInside dev ∧ d.ReadsInside dev) ↔ d.FatSound dev := by
  have hm := mounted_of_ok h
  rw [← hm.stepsInside_iff]
  exact and_iff_left_of_imp (fun hs=>hs.readsInside)

/-- A boot sector of a FAT32 volume of 98368 clusters. -/
def goodBoot : BootSector := bootBytes 1 2 100000 800 2

/-- A disk with this boot sector. All bytes of other sectors are the same. -/
def filledDisk (b : UInt8) : BlockDev where
  blockSize := 512
  data := fun block x=>if block=0 then goodBoot.getD x 0 else b

theorem filledDisk_mounted (b : UInt8) :
    fatCreateSuper (filledDisk b)=.ok (some (BootSector.superData goodBoot)) (filledDisk b) := by
  have hb : (filledDisk b).bootSector=goodBoot := rfl
  have hrec : (filledDisk b).Recognized := by
    constructor
    · exact (by decide : bootSectorSize≤512)
    · rw [hb]
      exact .inr (by decide)
    · rw [hb]
      exact (by decide : BootSector.bytesPerSector goodBoot=512)
  rw [fatCreateSuper_eq hrec,hb,if_neg (by decide),if_pos (by decide),if_pos (by decide)]

/-- Where all entries of the FAT are marks, no read leaves its first cluster. -/
theorem fatReadFat_inside_marks :
    FatVfsSuperData.StepsInside (BootSector.superData goodBoot) (filledDisk 0xFF) ∧
      FatVfsSuperData.ReadsInside (BootSector.superData goodBoot) (filledDisk 0xFF) := by
  apply (fatReadFat_inside_iff (filledDisk_mounted 0xFF)).mpr
  intro c hc hf
  right
  have hs : (filledDisk 0xFF).data (32+4*c/512)=fun _=>0xFF := by
    funext x
    exact if_neg (by omega)
  have hn : nextCluster (BootSector.superData goodBoot).toSuperData (filledDisk 0xFF) c =
      load ((filledDisk 0xFF).data (32+4*c/512)) (4*c%512) 4%2^28 := rfl
  rw [hn,hs]
  simp [load]

/-- Where all entries of the FAT are free, cluster 0 is the next of cluster 2. -/
theorem fatReadFat_free :
    fatCreateSuper (filledDisk 0)=.ok (some (BootSector.superData goodBoot)) (filledDisk 0) ∧
      FatVfsSuperData.IsData (BootSector.superData goodBoot) 2 ∧
      fatReadFat (BootSector.superData goodBoot).toSuperData 2 (filledDisk 0)=.ok (.ok, 0) (filledDisk 0) ∧
      ¬ FatVfsSuperData.IsData (BootSector.superData goodBoot) 0 := by
  have hd : FatVfsSuperData.IsData (BootSector.superData goodBoot) 2 := by decide
  refine ⟨filledDisk_mounted 0,hd,?_,by decide⟩
  exact (fatReadFat_ok_iff (mounted_of_ok (filledDisk_mounted 0)) hd).mpr ⟨by decide,by decide,by decide⟩

end Yaos2.Fat
