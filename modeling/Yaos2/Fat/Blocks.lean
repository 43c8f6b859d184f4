import Yaos2.Fat.Read
import Yaos2.Foundation.Projection

/-! # The blocks that `fat_read` reads

`fat_read` with a record of its calls of `bdev->read`. The offset in a block starts as the offset in the
cluster. -/
namespace Yaos2.Fat
open Foundation

/-- A call of `bdev->read`, with the place in the buffer of `fat_read`, or none for an entry of the FAT. -/
structure ReadCall where
  block : ℕ
  off : ℕ
  dest : Option ℕ
  len : ℕ
  deriving DecidableEq, Repr

/-- The device, and the calls it has got. -/
structure Traced where
  dev : BlockDev
  calls : List ReadCall

def tracedRead (call : ReadCall) : Exec Traced (List UInt8) := do
  modify fun t=>{t with calls := t.calls++[call]}
  zoom Traced.dev (fun dev t=>{t with dev := dev}) (bdevRead call.block call.off call.len)

variable (d : SuperData)

def tracedReadFat (cluster : ℕ) : Exec Traced (FatStatus × ℕ) :=
  match fatOffset d.type cluster with
  | none => return (.error, 0)
  | some off => do
    let entry ← tracedRead
      ⟨(d.firstFatSector+off/d.bytesPerSector)%2^32,off%d.bytesPerSector,none,4⟩
    return fatDecode cluster entry d.type

def blPortion (r : Progress) : ℕ :=
  if (r.num+r.initialOffset)%2^32 > d.bytesPerSector then
    (d.bytesPerSector+2^32-r.initialOffset)%2^32 else r.num

def tracedReadBlock (block : ℕ) (r : Progress) : Exec Traced Progress := do
  let part ← tracedRead ⟨block%2^32,r.initialOffset,some r.numRead,blPortion d r⟩
  return {
    numRead := r.numRead+blPortion d r
    num := r.num-blPortion d r
    initialOffset := 0
    buf := r.buf++part}

def tracedReadBlocks : ℕ → ℕ → Progress → Exec Traced Progress
  | 0, _, r => return r
  | n+1, block, r => do
    let r ← tracedReadBlock d block r
    tracedReadBlocks n (block+1) r

def tracedReadClusters : ℕ → ℕ → Progress → Exec Traced (ℕ × List UInt8)
  | 0, _, _ => abort "endless loop"
  | fuel+1, cl, r => do
    if r.num=0 then
      return (r.numRead, r.buf)
    else
      let r ← tracedReadBlocks d (clPortion d r/d.sectorsPerCluster+1) (fatFirstSectorOfCluster d cl) r
      if r.num=0 then
        return (r.numRead, r.buf)
      else
        let (state, next) ← tracedReadFat d cl
        if state=.ok then
          tracedReadClusters fuel next r
        else
          return (0, r.buf)

def tracedFollowChain : ℕ → ℕ → Exec Traced (Option ℕ)
  | 0, cl => return some cl
  | n+1, cl => do
    let (state, next) ← tracedReadFat d cl
    if state=.ok then
      tracedFollowChain n next
    else
      return none

/-- `fat_read`, with the record of its calls. -/
def tracedFatRead (firstCluster off : ℕ) (num : Int) : Exec Traced (ℕ × List UInt8) := do
  if num≤0 then
    return (0, [])
  else
    match ← tracedFollowChain d (off/d.bytesPerCluster) firstCluster with
    | none => return (0, [])
    | some cl => tracedReadClusters d (num.toNat+1) cl {
        numRead := 0
        num := num.toNat
        initialOffset := off%d.bytesPerCluster
        buf := []}

/-- The call stays inside of a block and of a buffer. -/
structure ReadCall.Within (blockSize num : ℕ) (call : ReadCall) : Prop where
  block : call.off+call.len≤blockSize
  buf : ∀ dest ∈ call.dest, dest+call.len≤num

/-- The device is the same, and all the calls stay inside. -/
def Traced.Bounded (dev : BlockDev) (num : ℕ) (t : Traced) : Prop :=
  t.dev=dev ∧ ∀ call ∈ t.calls, call.Within dev.blockSize num

variable {d} {dev : BlockDev} {t : Traced} {c off n num fuel block : ℕ} {r : Progress} {call : ReadCall}

section

theorem tracedRead_projects (call : ReadCall) :
    Projects Traced.dev (tracedRead call) (bdevRead call.block call.off call.len) :=
  (Projects.zoom (fun _ _=>rfl) _).record (fun _=>rfl)

theorem tracedReadFat_projects (c : ℕ) : Projects Traced.dev (tracedReadFat d c) (fatReadFat d c) := by
  unfold tracedReadFat fatReadFat
  cases fatOffset d.type c with
  | none => exact Projects.pure _
  | some off => exact (tracedRead_projects _).bind (fun _=>Projects.pure _)

theorem tracedReadBlocks_projects (n block : ℕ) (r : Progress) :
    Projects Traced.dev (tracedReadBlocks d n block r) (readBlocks d n block r) := by
  induction n generalizing block r with
  | zero => exact Projects.pure _
  | succ n ih =>
    apply Projects.bind
    · exact (tracedRead_projects _).bind (fun _=>Projects.pure _)
    · exact fun r=>ih (block+1) r

theorem tracedReadClusters_projects (fuel c : ℕ) (r : Progress) :
    Projects Traced.dev (tracedReadClusters d fuel c r) (readClusters d fuel c r) := by
  induction fuel generalizing c r with
  | zero => exact Projects.abort _
  | succ fuel ih =>
    apply Projects.ite (Projects.pure _)
    apply (tracedReadBlocks_projects _ _ r).bind
    intro r
    apply Projects.ite (Projects.pure _)
    apply (tracedReadFat_projects c).bind
    intro next
    exact Projects.ite (ih next.2 r) (Projects.pure _)

theorem tracedFollowChain_projects (n c : ℕ) :
    Projects Traced.dev (tracedFollowChain d n c) (followChain d n c) := by
  induction n generalizing c with
  | zero => exact Projects.pure _
  | succ n ih =>
    apply (tracedReadFat_projects c).bind
    intro next
    exact Projects.ite (ih next.2) (Projects.pure _)

theorem tracedFatRead_projects (c off : ℕ) (num : ℤ) :
    Projects Traced.dev (tracedFatRead d c off num) (fatRead d c off num) := by
  apply Projects.ite (Projects.pure _)
  apply (tracedFollowChain_projects _ c).bind
  intro cl
  cases cl with
  | none => exact Projects.pure _
  | some cl => exact tracedReadClusters_projects _ cl _
end

section

theorem tracedRead_bounded (hsz : dev.blockSize<2^16) (h : t.Bounded dev num)
    (hca : call.Within dev.blockSize num) :
    Returns (tracedRead call) t (fun _ u=>u.Bounded dev num) := by
  obtain ⟨rfl,hcl⟩ := h
  rw [tracedRead,Returns,wp_bind,wp_modify,wp_zoom]
  apply (bdevRead_spec hca.block hsz).mono
  · rintro _ dev' ⟨-,rfl⟩
    refine ⟨rfl,fun call' hmem=>?_⟩
    rcases List.mem_append.mp hmem with hold | hnew
    · exact hcl call' hold
    · rwa [List.mem_singleton.mp hnew]
  · exact fun _ hF=>hF.elim

section
variable (hv : Volume d dev) (h : t.Bounded dev num)
include hv h
theorem tracedReadFat_bounded (c : ℕ) : Returns (tracedReadFat d c) t (fun _ u=>u.Bounded dev num) := by
  have hfit : c*4%2^32%d.bytesPerSector+4≤d.bytesPerSector := by
    have hpos := hv.positive
    obtain ⟨k,hk⟩ : 4 ∣ d.bytesPerSector := Nat.dvd_of_mod_eq_zero hv.entries
    have hlt : c%2^30%k<k := Nat.mod_lt _ (Nat.pos_of_ne_zero (by rintro rfl; omega))
    have hen : c*4%2^32=4*(c%2^30) := by omega
    rw [hen,hk,Nat.mul_mod_mul_left]
    omega
  simp only [tracedReadFat,hv.fat32,fatOffset,Returns,wp_bind,wp_pure]
  apply tracedRead_bounded (hv.sector▸hv.sectorLimit) h
  exact ⟨hv.sector▸hfit,fun dest hds=>absurd hds (by simp)⟩

theorem tracedReadBlock_bounded (hint : num<2^31)
    (hsum : r.numRead+r.num=num) (hio : r.initialOffset≤d.bytesPerSector) :
    Returns (tracedReadBlock d block r) t (fun r' u=>u.Bounded dev num ∧ r'.numRead+r'.num=num ∧
      r'.initialOffset=0 ∧ r'.num≤r.num ∧ (r.initialOffset=0 → 0<r.num → r'.num<r.num)) := by
  have hlm := hv.sectorLimit
  have hpos := hv.positive
  have hpr : blPortion d r=min r.num (d.bytesPerSector-r.initialOffset) := by
    rw [blPortion,Nat.mod_eq_of_lt (by omega)]
    split <;> omega
  rw [tracedReadBlock,Returns,wp_bind,hpr]
  apply (tracedRead_bounded (hv.sector▸hlm) h ⟨?_,?_⟩).mono
  · intro part u hu
    rw [wp_pure]
    exact ⟨hu,by dsimp only; omega,rfl,by dsimp only; omega,fun h1 h2=>by dsimp only; omega⟩
  · exact fun _ hF=>hF.elim
  · rw [← hv.sector]
    dsimp only
    omega
  · intro dest hds
    obtain rfl : r.numRead=dest := by simpa using hds
    dsimp only
    omega

theorem tracedReadBlocks_bounded (hint : num<2^31)
    (hsum : r.numRead+r.num=num) (hio : r.initialOffset≤d.bytesPerSector) :
    Returns (tracedReadBlocks d (n+1) block r) t (fun r' u=>u.Bounded dev num ∧ r'.numRead+r'.num=num ∧
      r'.initialOffset=0 ∧ r'.num≤r.num ∧ (r.initialOffset=0 → 0<r.num → r'.num<r.num)) := by
  induction n generalizing t block r with
  | zero =>
    rw [tracedReadBlocks,Returns,wp_bind]
    apply (tracedReadBlock_bounded hv h hint hsum hio).mono
    · intro r' u hu
      rw [tracedReadBlocks,wp_pure]
      exact hu
    · exact fun _ hF=>hF.elim
  | succ n ih =>
    rw [tracedReadBlocks,Returns,wp_bind]
    apply (tracedReadBlock_bounded hv h hint hsum hio).mono
    · rintro r' u ⟨hu,hsum',hio',hle,hlt⟩
      apply (ih hu hsum' (by omega)).mono
      · rintro r'' u' ⟨hu',hsum'',hio'',hle',-⟩
        exact ⟨hu',hsum'',hio'',hle'.trans hle,fun h1 h2=>hle'.trans_lt (hlt h1 h2)⟩
      · exact fun _ hF=>hF.elim
    · exact fun _ hF=>hF.elim

theorem tracedReadClusters_bounded (hint : num<2^31)
    (hsum : r.numRead+r.num=num) (hio : r.initialOffset≤d.bytesPerSector) (hpos : 0<fuel)
    (hfl : r.num<fuel ∨ r.num≤fuel ∧ r.initialOffset=0) :
    Returns (tracedReadClusters d fuel c r) t (fun _ u=>u.Bounded dev num) := by
  induction fuel generalizing t c r with
  | zero => exact absurd hpos (Nat.lt_irrefl 0)
  | succ fuel ih =>
    rw [tracedReadClusters]
    apply Ensures.ite
    · intro _
      rwa [wp_pure]
    · intro hnum
      apply Ensures.bind (tracedReadBlocks_bounded hv h hint hsum hio)
      rintro r' u ⟨hu,hsum',hio',hle,hlt⟩
      apply Ensures.ite
      · intro _
        rwa [wp_pure]
      · intro hnum'
        apply Ensures.bind (tracedReadFat_bounded hv hu c)
        intro next u' hu'
        apply Ensures.ite
        · intro _
          apply ih hu' hsum' (by omega)
          · omega
          · omega
        · intro _
          rwa [wp_pure]

theorem tracedFollowChain_bounded : Returns (tracedFollowChain d n c) t (fun _ u=>u.Bounded dev num) := by
  induction n generalizing t c with
  | zero =>
    rw [tracedFollowChain,Returns,wp_pure]
    exact h
  | succ n ih =>
    rw [tracedFollowChain]
    apply Ensures.bind (tracedReadFat_bounded hv h c)
    intro next u hu
    apply Ensures.ite
    · exact fun _=>ih hu
    · intro _
      rwa [wp_pure]
end

section
variable (hv : Volume d dev) (hnum : 0<num) (hint : num<2^31)
  (hoff : off%d.bytesPerCluster≤d.bytesPerSector)
include hv hnum hint hoff
theorem tracedFatRead_bounded :
    Returns (tracedFatRead d c off num) ⟨dev,[]⟩ (fun _ u=>u.Bounded dev num) := by
  have hst : Traced.Bounded dev num ⟨dev,[]⟩ := ⟨rfl,fun call hcl=>absurd hcl (List.not_mem_nil)⟩
  rw [tracedFatRead,if_neg (by omega)]
  apply Ensures.bind (tracedFollowChain_bounded hv hst)
  intro cl u hu
  cases cl with
  | none =>
    rw [wp_pure]
    exact hu
  | some cl =>
    apply tracedReadClusters_bounded hv hu hint
    · simp
    · exact hoff
    · exact Nat.succ_pos _
    · simp

theorem fatRead_returns : Returns (fatRead d c off num) dev (fun _ t=>t=dev) := by
  apply (tracedFatRead_projects c off num).ensures (t := ⟨dev,[]⟩)
  apply (tracedFatRead_bounded hv hnum hint hoff).mono
  · exact fun _ u hu=>hu.1
  · exact fun _ hF=>hF.elim
end

end

end Yaos2.Fat
