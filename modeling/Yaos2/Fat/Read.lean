import Yaos2.Debug
import Yaos2.Foundation.ByteMemory

/-! # Reading files of a FAT volume -/
namespace Yaos2.Fat
open Foundation List

inductive FatType
  | fat12
  | fat16
  | fat32
  | exFat
  deriving DecidableEq, Repr

/-- The fields of `struct fat_vfs_super_data` that reading uses. -/
structure SuperData where
  type : FatType
  bytesPerSector : ℕ
  sectorsPerCluster : ℕ
  firstFatSector : ℕ
  firstDataSector : ℕ
  bytesPerCluster : ℕ

structure BlockDev where
  blockSize : ℕ
  data : ℕ → Mem

inductive FatStatus
  | ok
  | lastCluster
  | badCluster
  | error
  deriving DecidableEq, Repr

/-- `lock`, `read` and `unlock` of a block. The driver does not look at the disk for an empty read. -/
def bdevRead (block off len : ℕ) : Exec BlockDev (List UInt8) := do
  if len=0 then
    return []
  else
    let dev ← get
    kassert "off < IDE_SECTOR_SIZE" (off<dev.blockSize)
    kassert "off + len <= IDE_SECTOR_SIZE" ((off+len)%2^32≤dev.blockSize)
    return bytes (dev.data block) off len

/-- The value of bytes in little-endian order. -/
def littleEndian : List UInt8 → ℕ
  | [] => 0
  | b::bs => b.toNat+256*littleEndian bs

/-- Where the entry of a cluster is in the FAT, in bytes. -/
def fatOffset : FatType → ℕ → Option ℕ
  | .fat12, cluster => some ((cluster+cluster/2)%2^32)
  | .fat16, cluster => some (cluster*2%2^32)
  | .fat32, cluster => some (cluster*4%2^32)
  | .exFat, _ => none

/-- What an entry of the FAT says: the status, and the next cluster. -/
def fatDecode (cluster : ℕ) (entry : List UInt8) : FatType → FatStatus × ℕ
  | .fat12 =>
    let word := littleEndian (entry.take 2)
    let next := if cluster%2=1 then word/16 else word%2^12
    (if next ≥ 0xff8 then .lastCluster else if next=0xff7 then .badCluster else .ok, next)
  | .fat16 =>
    let next := littleEndian (entry.take 2)
    (if next ≥ 0xfff8 then .lastCluster else if next=0xfff7 then .badCluster else .ok, next)
  | .fat32 =>
    let next := littleEndian entry%2^28
    (if next ≥ 0xffffff8 then .lastCluster else if next=0xffffff7 then .badCluster else .ok, next)
  | .exFat => (.error, 0)

variable (d : SuperData)

def fatReadFat (cluster : ℕ) : Exec BlockDev (FatStatus × ℕ) :=
  match fatOffset d.type cluster with
  | none => return (.error, 0)
  | some off => do
    let entry ← bdevRead ((d.firstFatSector+off/d.bytesPerSector)%2^32) (off%d.bytesPerSector) 4
    return fatDecode cluster entry d.type

def fatFirstSectorOfCluster (cluster : ℕ) : ℕ := ((cluster+2^32-2)*d.sectorsPerCluster+d.firstDataSector)%2^32

/-- The variables of `fat_read` that its loops change, with the bytes stored in `buf` so far. -/
structure Progress where
  numRead : ℕ
  num : ℕ
  initialOffset : ℕ
  buf : List UInt8

def readBlock (block : ℕ) (r : Progress) : Exec BlockDev Progress := do
  let portion := if (r.num+r.initialOffset)%2^32 > d.bytesPerSector then
    (d.bytesPerSector+2^32-r.initialOffset)%2^32 else r.num
  let part ← bdevRead (block%2^32) r.initialOffset portion
  return {
    numRead := r.numRead+portion
    num := r.num-portion
    initialOffset := 0
    buf := r.buf++part}

/-- The `for` loop, from block `block` on. -/
def readBlocks : ℕ → ℕ → Progress → Exec BlockDev Progress
  | 0, _, r => return r
  | n+1, block, r => do
    let r ← readBlock d block r
    readBlocks n (block+1) r

def clPortion (r : Progress) : ℕ :=
  if (r.num+r.initialOffset)%2^32 > d.bytesPerCluster then d.bytesPerCluster-r.initialOffset
  else r.num

/-- The loop over clusters. A pass reads at least a byte, so that as many passes are enough. -/
def readClusters : ℕ → ℕ → Progress → Exec BlockDev (ℕ × List UInt8)
  | 0, _, _ => abort "endless loop"
  | fuel+1, cl, r => do
    if r.num=0 then
      return (r.numRead, r.buf)
    else
      let r ← readBlocks d (clPortion d r/d.sectorsPerCluster+1) (fatFirstSectorOfCluster d cl) r
      if r.num=0 then
        return (r.numRead, r.buf)
      else
        let (state, next) ← fatReadFat d cl
        if state=.ok then
          readClusters fuel next r
        else
          return (0, r.buf)

/-- Follow the chain to the cluster we want to read. -/
def followChain : ℕ → ℕ → Exec BlockDev (Option ℕ)
  | 0, cl => return some cl
  | n+1, cl => do
    let (state, next) ← fatReadFat d cl
    if state=.ok then
      followChain n next
    else
      return none

/-- The number of bytes read, and the bytes stored in the buffer. -/
def fatRead (firstCluster off : ℕ) (num : Int) : Exec BlockDev (ℕ × List UInt8) := do
  if num≤0 then
    return (0, [])
  else
    match ← followChain d (off/d.bytesPerCluster) firstCluster with
    | none => return (0, [])
    | some cl => readClusters d (num.toNat+1) cl {
        numRead := 0
        num := num.toNat
        initialOffset := off%d.bytesPerCluster
        buf := []}

/-- A FAT32 volume on this device, of a geometry that `fat_create_super` takes from its boot sector. -/
structure Volume (dev : BlockDev) : Prop where
  fat32 : d.type=.fat32
  sector : d.bytesPerSector=dev.blockSize
  positive : 0<d.bytesPerSector
  sectorLimit : d.bytesPerSector<2^16
  entries : d.bytesPerSector%4=0
  clusters : 0<d.sectorsPerCluster
  clusterLimit : d.sectorsPerCluster<2^8
  cluster : d.bytesPerCluster=d.sectorsPerCluster*d.bytesPerSector
  fat : d.firstFatSector<2^16

/-- The number of a cluster with data, whose sectors have numbers of 32 bits. -/
structure DataCluster (c : ℕ) : Prop where
  low : 2≤c
  high : c<0xffffff7
  fits : (c-2)*d.sectorsPerCluster+d.firstDataSector+d.sectorsPerCluster≤2^32

def nextCluster (dev : BlockDev) (c : ℕ) : ℕ :=
  load (dev.data (d.firstFatSector+4*c/d.bytesPerSector)) (4*c%d.bytesPerSector) 4%2^28

/-- Clusters linked by the FAT. -/
structure Chain (dev : BlockDev) (cs : List ℕ) : Prop where
  data : ∀ c ∈ cs, DataCluster d c
  linked : cs.IsChain (fun c c'=>nextCluster d dev c=c')

/-- The bytes of the disk from a sector on. -/
def sectorStream (dev : BlockDev) (first : ℕ) : Mem :=
  fun x=>dev.data (first+x/d.bytesPerSector) (x%d.bytesPerSector)

def clusterData (dev : BlockDev) (c : ℕ) : List UInt8 :=
  bytes (sectorStream d dev ((c-2)*d.sectorsPerCluster+d.firstDataSector)) 0 d.bytesPerCluster

def chainData (dev : BlockDev) (cs : List ℕ) : List UInt8 := cs.flatMap (clusterData d dev)

/-- Clusters that follow one another on the disk, as far as the bytes from `off` to `off + num` go. -/
def Contiguous (cs : List ℕ) (off num : ℕ) : Prop :=
  ∀ j<cs.length, off/d.bytesPerCluster≤j → j*d.bytesPerCluster<off+num →
    cs.getD j 0=cs.getD (off/d.bytesPerCluster) 0+(j-off/d.bytesPerCluster)

variable {d} {dev : BlockDev} {c c' block off len n : ℕ} {cs : List ℕ} {r : Progress}

section

theorem littleEndian_bytes (m : Mem) (a n : ℕ) : littleEndian (bytes m a n)=load m a n := by
  induction n generalizing a with
  | zero => rfl
  | succ n ih => rw [bytes_succ,littleEndian,ih,load]

theorem bdevRead_spec (hlen : off+len≤dev.blockSize) (hs : dev.blockSize<2^16) :
    Returns (bdevRead block off len) dev (fun part t=>part=bytes (dev.data block) off len ∧ t=dev) := by
  rw [bdevRead,Returns]
  refine Ensures.ite (fun h0=>?_) (fun h0=>?_)
  · rw [wp_pure,h0]
    exact ⟨rfl,rfl⟩
  · have hmod : (off+len)%2^32=off+len := Nat.mod_eq_of_lt (by omega)
    simp only [wp_bind,wp_get,wp_kassert (show decide (off<dev.blockSize)=true by
      rw [decide_eq_true_eq]; omega),wp_kassert (show decide ((off+len)%2^32≤dev.blockSize)=true by
      rw [decide_eq_true_eq,hmod]; exact hlen),wp_pure]
    exact ⟨trivial,trivial⟩

theorem fatReadFat_spec (h : Volume d dev) (hc : DataCluster d c) (hc' : DataCluster d (nextCluster d dev c)) :
    Returns (fatReadFat d c) dev (fun r t=>r=(.ok, nextCluster d dev c) ∧ t=dev) := by
  have hB := h.positive
  have hhg := hc.high
  have hmod : c*4%2^32=4*c := by rw [Nat.mod_eq_of_lt (by omega),Nat.mul_comm]
  have hdiv : 4*c/d.bytesPerSector≤4*c := Nat.div_le_self ..
  have hsec : (d.firstFatSector+4*c/d.bytesPerSector)%2^32 =
      d.firstFatSector+4*c/d.bytesPerSector := Nat.mod_eq_of_lt (by have := h.fat; omega)
  -- an entry does not cross the end of its sector
  have hfit : 4*c%d.bytesPerSector+4≤dev.blockSize := by
    rw [← h.sector]
    obtain ⟨k,hk⟩ : 4 ∣ d.bytesPerSector := Nat.dvd_of_mod_eq_zero h.entries
    rw [hk,Nat.mul_mod_mul_left]
    have hlt : c%k<k := Nat.mod_lt _ (Nat.pos_of_ne_zero (by rintro rfl; omega))
    omega
  simp only [fatReadFat,h.fat32,fatOffset,hmod,hsec,Returns,wp_bind,wp_pure]
  apply (bdevRead_spec hfit (h.sector▸h.sectorLimit)).imp
  rintro part t ⟨rfl,rfl⟩
  have hnx := hc'.high
  rw [nextCluster] at hnx
  rw [fatDecode,littleEndian_bytes,nextCluster,if_neg (by omega),if_neg (by omega)]
  exact ⟨rfl,rfl⟩

theorem sectorStream_add (hB : 0<d.bytesPerSector) (n x : ℕ) :
    sectorStream d dev (block+n) x=sectorStream d dev block (n*d.bytesPerSector+x) := by
  have hs : block+n+x/d.bytesPerSector=block+(n*d.bytesPerSector+x)/d.bytesPerSector := by
    rw [Nat.mul_comm,Nat.mul_add_div hB]
    omega
  rw [sectorStream,sectorStream,hs,Nat.mul_add_mod']

theorem readBlock_spec (h : Volume d dev) (hio : r.initialOffset≤d.bytesPerSector)
    (hnum : r.num+r.initialOffset<2^32)
    (hfit : r.num=0 ∨ block*d.bytesPerSector+r.initialOffset+r.num≤2^32*d.bytesPerSector) :
    Returns (readBlock d block r) dev (fun r' t =>
      r'.num=r.num-min r.num (d.bytesPerSector-r.initialOffset) ∧
      r'.numRead=r.numRead+min r.num (d.bytesPerSector-r.initialOffset) ∧ r'.initialOffset=0 ∧
      r'.buf=r.buf++bytes (sectorStream d dev block) r.initialOffset
        (min r.num (d.bytesPerSector-r.initialOffset)) ∧ t=dev) := by
  have hlim := h.sectorLimit
  have hpr : (if (r.num+r.initialOffset)%2^32 > d.bytesPerSector then
      (d.bytesPerSector+2^32-r.initialOffset)%2^32 else r.num) =
      min r.num (d.bytesPerSector-r.initialOffset) := by
    rw [Nat.mod_eq_of_lt hnum]
    split <;> omega
  simp only [readBlock,hpr,Returns,wp_bind,wp_pure]
  apply (bdevRead_spec (by rw [← h.sector]; omega) (h.sector▸hlim)).imp
  rintro part t ⟨rfl,rfl⟩
  refine ⟨trivial,trivial,trivial,?_,rfl⟩
  congr 1
  refine bytes_shift (fun i hi=>?_)
  have hbl : block<2^32 := by
    apply Nat.lt_of_mul_lt_mul_right (a := d.bytesPerSector)
    omega
  rw [sectorStream,Nat.mod_eq_of_lt hbl,Nat.div_eq_of_lt (by omega),Nat.mod_eq_of_lt (by omega),Nat.add_zero]

theorem readBlocks_spec (h : Volume d dev) (hio : r.initialOffset≤d.bytesPerSector)
    (hrm : r.num+r.initialOffset≤n*d.bytesPerSector) (hnum : r.num+r.initialOffset<2^32)
    (hfit : r.num=0 ∨ block*d.bytesPerSector+r.initialOffset+r.num≤2^32*d.bytesPerSector) :
    Returns (readBlocks d n block r) dev (fun r' t=>r'.num=0 ∧ r'.numRead=r.numRead+r.num ∧
      r'.buf=r.buf++bytes (sectorStream d dev block) r.initialOffset r.num ∧ t=dev) := by
  induction n generalizing block r with
  | zero =>
    have h0 : r.num=0 := by omega
    rw [readBlocks,Returns,wp_pure,h0,bytes_zero,append_nil]
    exact ⟨rfl,rfl,rfl,rfl⟩
  | succ n ih =>
    rw [readBlocks,Returns,wp_bind]
    apply (readBlock_spec h hio hnum hfit).imp
    rintro r' t ⟨hnum',hrd,hio',hbuf,rfl⟩
    have hB := h.positive
    have hmul : (n+1)*d.bytesPerSector=n*d.bytesPerSector+d.bytesPerSector := Nat.succ_mul ..
    have hmul' : (block+1)*d.bytesPerSector=block*d.bytesPerSector+d.bytesPerSector := Nat.succ_mul ..
    refine (ih (r := r') (by omega) (by omega) (by omega) ?_).imp ?_
    · omega
    rintro r'' t ⟨hnum'',hrd',hbuf',rfl⟩
    refine ⟨hnum'',by omega,?_,rfl⟩
    rw [hbuf',hbuf,hnum',hio',append_assoc]
    congr 1
    -- what is left of the bytes begins with the next sector
    rcases Nat.le_total r.num (d.bytesPerSector-r.initialOffset) with hle | hle
    · rw [Nat.min_eq_left hle,Nat.sub_self,bytes_zero,append_nil]
    · have hsp : r.num=(d.bytesPerSector-r.initialOffset) +
          (r.num-(d.bytesPerSector-r.initialOffset)) := by omega
      rw [Nat.min_eq_right hle,hsp,bytes_add,← hsp]
      congr 1
      refine bytes_shift (fun i _=>?_)
      rw [Nat.zero_add,sectorStream_add hB,Nat.one_mul]
      congr 1
      omega
end

section

theorem followChain_spec (h : Volume d dev) (hcs : Chain d dev (c::cs)) (hn : n≤cs.length) :
    Returns (followChain d n c) dev (fun r t=>r=some ((c::cs).getD n 0) ∧ t=dev) := by
  induction n generalizing c cs with
  | zero =>
    rw [followChain,Returns,wp_pure]
    exact ⟨rfl,rfl⟩
  | succ n ih =>
    cases cs with
    | nil => exact absurd hn (by simp)
    | cons c' cs =>
      obtain ⟨hnx,hrs⟩ := isChain_cons_cons.mp hcs.linked
      have hcs' : Chain d dev (c'::cs) := ⟨fun x hx=>hcs.data x (mem_cons_of_mem c hx),hrs⟩
      have hrd := fatReadFat_spec h (hcs.data c mem_cons_self)
        (hnx▸hcs'.data c' mem_cons_self)
      rw [followChain,Returns,wp_bind]
      apply hrd.imp
      rintro _ t ⟨rfl,rfl⟩
      rw [hnx]
      simpa [if_true,getD_cons_succ] using ih hcs' (Nat.le_of_succ_le_succ hn)

theorem fatFirstSectorOfCluster_eq (hc : DataCluster d c) (hS : 0<d.sectorsPerCluster) :
    fatFirstSectorOfCluster d c=(c-2)*d.sectorsPerCluster+d.firstDataSector := by
  have hlow := hc.low
  have hf := hc.fits
  have hw : c+2^32-2=c-2+2^32 := by omega
  rw [fatFirstSectorOfCluster,hw,Nat.add_mul,Nat.add_right_comm,Nat.add_mul_mod_self_left,
    Nat.mod_eq_of_lt (by omega)]

theorem clPortion_eq (hnum : r.num+r.initialOffset<2^32) :
    clPortion d r=min r.num (d.bytesPerCluster-r.initialOffset) := by
  rw [clPortion,Nat.mod_eq_of_lt hnum]
  split <;> omega

theorem Volume.cluster_pos (h : Volume d dev) : 0<d.bytesPerCluster := by
  rw [h.cluster]
  exact Nat.mul_pos h.clusters h.positive

theorem chainData_eq (h : Volume d dev) (cs : List ℕ) :
    chainData d dev cs=bytes (fun p=>sectorStream d dev
      ((cs.getD (p/d.bytesPerCluster) 0-2)*d.sectorsPerCluster+d.firstDataSector)
      (p%d.bytesPerCluster)) 0 (d.bytesPerCluster*cs.length) := by
  exact flatMap_bytes (fun c=>sectorStream d dev ((c-2)*d.sectorsPerCluster+d.firstDataSector))
    d.bytesPerCluster h.cluster_pos 0 cs

variable {num : ℕ}

theorem DataCluster.of_getD (hcs : Chain d dev cs) (hn : n<cs.length) : DataCluster d (cs.getD n 0) := by
  rw [getD_eq_getElem?_getD,List.getElem?_eq_getElem hn,Option.getD_some]
  exact hcs.data _ (getElem_mem hn)

section
variable (h : Volume d dev) (hcs : Chain d dev cs) (hcn : Contiguous d cs off num)
  (hrn : off+num≤d.bytesPerCluster*cs.length)
include h hcs hcn hrn
theorem contiguous_sector (hk : k<num) : ∃ m, (cs.getD ((off+k)/d.bytesPerCluster) 0-2)*d.sectorsPerCluster =
        (cs.getD (off/d.bytesPerCluster) 0-2)*d.sectorsPerCluster+m*d.sectorsPerCluster ∧
      off%d.bytesPerCluster+k=m*d.bytesPerCluster+(off+k)%d.bytesPerCluster ∧
      (off+k)/d.bytesPerCluster<cs.length := by
  have hC := h.cluster_pos
  have hj : (off+k)/d.bytesPerCluster<cs.length := Nat.div_lt_of_lt_mul (by omega)
  have hij : off/d.bytesPerCluster≤(off+k)/d.bytesPerCluster := Nat.div_le_div_right (by omega)
  obtain ⟨m,hm⟩ := Nat.exists_eq_add_of_le hij
  have hoff := Nat.div_add_mod' off d.bytesPerCluster
  have hof := Nat.div_add_mod' (off+k) d.bytesPerCluster
  have hlow := (DataCluster.of_getD hcs (Nat.lt_of_le_of_lt hij hj)).low
  refine ⟨m,?_,?_,hj⟩
  · have hcl := hcn _ hj hij (by omega)
    rw [hcl,hm,Nat.add_sub_cancel_left,← Nat.add_mul]
    congr 1
    omega
  · rw [hm,Nat.add_mul] at hof
    omega

theorem contiguous_fits (hnum : 0<num) :
    ((cs.getD (off/d.bytesPerCluster) 0-2)*d.sectorsPerCluster+d.firstDataSector)*d.bytesPerSector +
      off%d.bytesPerCluster+num≤2^32*d.bytesPerSector := by
  obtain ⟨m,hsec,hbt,hj⟩ := contiguous_sector h hcs hcn hrn (Nat.sub_lt hnum Nat.one_pos)
  have hft := (DataCluster.of_getD hcs hj).fits
  have hmod := Nat.mod_lt (off+(num-1)) h.cluster_pos
  have hby : m*d.bytesPerCluster+d.bytesPerCluster =
      (m*d.sectorsPerCluster+d.sectorsPerCluster)*d.bytesPerSector := by
    rw [h.cluster]
    ring
  rw [hsec] at hft
  calc _≤((cs.getD (off/d.bytesPerCluster) 0-2)*d.sectorsPerCluster+d.firstDataSector) *
        d.bytesPerSector+(m*d.bytesPerCluster+d.bytesPerCluster) := by omega
    _=((cs.getD (off/d.bytesPerCluster) 0-2)*d.sectorsPerCluster+m*d.sectorsPerCluster +
        d.firstDataSector+d.sectorsPerCluster)*d.bytesPerSector := by
      rw [hby]
      ring
    _≤2^32*d.bytesPerSector := Nat.mul_le_mul_right _ hft

theorem contiguous_data : bytes (sectorStream d dev
      ((cs.getD (off/d.bytesPerCluster) 0-2)*d.sectorsPerCluster+d.firstDataSector))
      (off%d.bytesPerCluster) num=((chainData d dev cs).drop off).take num := by
  rw [chainData_eq h,drop_bytes,take_bytes,Nat.zero_add,Nat.min_eq_right (by omega)]
  refine bytes_shift (fun k hk=>?_)
  obtain ⟨m,hsec,hby,-⟩ := contiguous_sector h hcs hcn hrn hk
  have hmul : m*d.bytesPerCluster=m*d.sectorsPerCluster*d.bytesPerSector := by rw [h.cluster,Nat.mul_assoc]
  rw [hsec,hby,Nat.add_right_comm,hmul]
  exact (sectorStream_add h.positive _ _).symm
end

theorem contiguous_within (cs : List ℕ) (hnum : off%d.bytesPerCluster+num≤d.bytesPerCluster) :
    Contiguous d cs off num := by
  intro j _ hij hj
  have hoff := Nat.div_add_mod' off d.bytesPerCluster
  have hlt : j<off/d.bytesPerCluster+1 := by
    apply Nat.lt_of_mul_lt_mul_right (a := d.bytesPerCluster)
    rw [Nat.succ_mul]
    omega
  obtain rfl : j=off/d.bytesPerCluster := by omega
  rw [Nat.sub_self,Nat.add_zero]

theorem fatRead_consecutive (h : Volume d dev) (hcs : Chain d dev (c::cs)) (hnum : 0<num)
    (hint : num<2^31) (hrn : off+num≤d.bytesPerCluster*(c::cs).length)
    (hsc : off%d.bytesPerCluster≤d.bytesPerSector)
    (hps : off%d.bytesPerCluster+num ≤
      (min num (d.bytesPerCluster-off%d.bytesPerCluster)/d.sectorsPerCluster+1)*d.bytesPerSector)
    (hcn : Contiguous d (c::cs) off num) :
    Returns (fatRead d c off num) dev (fun r t=>t=dev ∧
      r=(num, bytes (sectorStream d dev (((c::cs).getD (off/d.bytesPerCluster) 0-2) *
        d.sectorsPerCluster+d.firstDataSector)) (off%d.bytesPerCluster) num)) := by
  have hlim := h.sectorLimit
  have hi : off/d.bytesPerCluster<(c::cs).length := Nat.div_lt_of_lt_mul (by omega)
  have hi' := Nat.le_of_lt_succ hi
  rw [fatRead,Returns,if_neg (by omega),wp_bind]
  apply (followChain_spec h hcs hi').imp
  rintro _ t ⟨rfl,rfl⟩
  have hfr := fatFirstSectorOfCluster_eq (DataCluster.of_getD hcs hi) h.clusters
  have hsum : num+off%d.bytesPerCluster<2^32 := by omega
  rw [Nat.add_comm] at hps
  simp only [readClusters,Int.toNat_natCast,if_neg (Nat.ne_of_gt hnum),wp_bind,hfr]
  rw [clPortion_eq hsum]
  refine (readBlocks_spec h hsc hps hsum (.inr (contiguous_fits h hcs hcn hrn hnum))).imp ?_
  rintro r' t ⟨hdn,hrd,hbuf,rfl⟩
  simp only [hdn,if_true,wp_pure]
  rw [hrd,hbuf,nil_append,Nat.zero_add]
  exact ⟨trivial,rfl⟩

end

def smallVolume (sectorsPerCluster : ℕ) : SuperData where
  type := .fat32
  bytesPerSector := 512
  sectorsPerCluster := sectorsPerCluster
  firstFatSector := 32
  firstDataSector := 100
  bytesPerCluster := sectorsPerCluster*512

/-- A disk whose FAT links cluster 2 to cluster 5. The bytes of any other sector are its number. -/
def fragmented : BlockDev where
  blockSize := 512
  data := fun block x=>if block=32 then (if x=8 then 5 else 0) else UInt8.ofNat block

theorem smallVolume_volume (hdev : dev.blockSize=512) (hk : 0<k) (hk' : k≤2) :
    Volume (smallVolume k) dev where
  fat32 := rfl
  sector := hdev.symm
  positive := Nat.zero_lt_succ 511
  sectorLimit := by simp [smallVolume]
  entries := by simp [smallVolume]
  clusters := hk
  clusterLimit := Nat.lt_of_le_of_lt hk' (by decide)
  cluster := rfl
  fat := by simp [smallVolume]

theorem fragmented_chain (hk : k≤2) : Chain (smallVolume k) fragmented [2, 5] where
  data := by
    intro c hc
    obtain rfl | rfl : c=2 ∨ c=5 := by simpa using hc
    · exact ⟨by decide,by decide,by simp only [smallVolume]; omega⟩
    · exact ⟨by decide,by decide,by simp only [smallVolume]; omega⟩
  linked := by
    rw [isChain_cons_cons]
    exact ⟨show load (fragmented.data (32+4*2/512)) (4*2%512) 4%2^28=5 by decide,
      List.IsChain.singleton _⟩

end Yaos2.Fat
