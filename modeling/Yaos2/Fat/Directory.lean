import Yaos2.Fat.Read
import Yaos2.Utils

/-! # Directories of a FAT volume

A directory is a chain of records of 32 bytes; an entry is a record with a short name, after the
records with the pieces of its long name, last piece first. -/
namespace Yaos2.Fat
open Foundation List Nat

def fatEntrySize : ℕ := 32
def fatLastEntry : UInt8 := 0
def fatUnusedEntry : UInt8 := 0xe5
def fatDirectory : UInt8 := 0x10
def fatLfn : UInt8 := 0x0f
def fatLfnDeleted : UInt8 := 0x80
def fatLfnChars : ℕ := 13
def fatLfnNameSize : ℕ := 256
def fatLfnNameBufSize : ℕ := 261

abbrev Record := List UInt8

namespace Record

def byte (r : Record) (i : ℕ) : UInt8 := r.getD i 0

def isLfn (r : Record) : Bool := r.byte 11 == fatLfn

def isLfnDeleted (r : Record) : Bool := r.byte 0 &&& fatLfnDeleted != 0

def lfnNr (r : Record) : ℕ := (r.byte 0 &&& 0x3f).toNat

def isDirectory (r : Record) : Bool := r.byte 11 &&& fatDirectory != 0

/-- `fat_get_entry_cluster` -/
def cluster (r : Record) : ℕ := littleEndian ((r.drop 20).take 2)*2^16+littleEndian ((r.drop 26).take 2)

/-- `fat_copy_all_ascii_chars`: the low bytes of the thirteen characters. -/
def asciiChars (r : Record) : List UInt8 := [1, 3, 5, 7, 9, 14, 16, 18, 20, 22, 24, 28, 30].map r.byte

/-- Eight bytes of the name, and a dot with three of the extension if there is one. -/
def shortBuffer (r : Record) : List UInt8 :=
  let buf := (List.range 8).map r.byte++List.replicate 5 0
  if r.byte 8=0 then
    buf
  else
    let buf := buf.set (cString buf).length 0x2e
    let len := (cString buf).length
    buf.take len++[r.byte 8, r.byte 9, r.byte 10]++buf.drop (len+3)
end Record

/-- `struct fat_result` -/
structure FatResult where
  dirCluster : ℕ
  entry : Record
  lfn : Mem

/-- What `fat_read_entry` returns. -/
inductive EntryIndex
  | next (idx : ℕ)
  | last
  | error
  deriving DecidableEq, Repr

variable (d : SuperData)

/-- The loop of `fat_read_entry`, with the number of the piece in a sequence of long name records. -/
def fatReadEntry (first : ℕ) : ℕ → ℕ → Option ℤ → FatResult → Exec BlockDev (EntryIndex × FatResult)
  | 0, _, _, _ => abort "endless loop"
  | fuel+1, idx, seq, result => do
    let (num, entry) ← fatRead d first (idx*fatEntrySize%2^32) fatEntrySize
    if num=0 then
      return (.error, result)
    else if Record.byte entry 0=fatLastEntry then
      return (.last, result)
    else if Record.byte entry 0=fatUnusedEntry then
      fatReadEntry first fuel (idx+1) seq result
    else if Record.isLfn entry && !Record.isLfnDeleted entry then
      match seq with
      | none =>
        let iseq : ℤ := Record.lfnNr entry-1
        kassert "(iseq + 1) * FAT_LFN_CHARS < FAT_LFN_NAME_BUF_SIZE"
          ((iseq+1)*fatLfnChars<fatLfnNameBufSize)
        kassert "iseq >= 0" (0 ≤ iseq)
        fatReadEntry first fuel (idx+1) (some iseq) {result with
          lfn := blit (blit result.lfn 0 (List.replicate fatLfnNameBufSize 0)) (iseq.toNat*fatLfnChars)
            (Record.asciiChars entry)}
      | some iseq =>
        kassert "iseq >= 0" (0 ≤ iseq-1)
        fatReadEntry first fuel (idx+1) (some (iseq-1)) {result with
          lfn := blit result.lfn ((iseq-1).toNat*fatLfnChars) (Record.asciiChars entry)}
    else if !Record.isLfn entry then
      return (.next (idx+1), {
        dirCluster := first
        entry := entry
        lfn := if seq.isNone then blit result.lfn 0 (Record.shortBuffer entry) else result.lfn})
    else
      fatReadEntry first fuel (idx+1) seq result

structure DirEntry where
  name : List UInt8
  record : Record
  deriving DecidableEq, Repr

def DirEntry.isDirectory (e : DirEntry) : Bool := e.record.isDirectory

def DirEntry.cluster (e : DirEntry) : ℕ := e.record.cluster

def FatResult.dirEntry (r : FatResult) : DirEntry := ⟨cString (bytes r.lfn 0 fatLfnNameBufSize),r.entry⟩

namespace Record

structure Piece (r : Record) : Prop where
  used : r.byte 0≠fatLastEntry
  lfn : r.isLfn=true
  kept : r.isLfnDeleted=false

structure Short (r : Record) : Prop where
  used : r.byte 0≠fatLastEntry
  kept : r.byte 0≠fatUnusedEntry
  short : r.isLfn=false

structure Skipped (r : Record) : Prop where
  used : r.byte 0≠fatLastEntry
  skipped : r.byte 0=fatUnusedEntry ∨ r.isLfn=true ∧ r.isLfnDeleted=true
end Record

/-- The characters of a long name, from its pieces in the order of the disk. -/
def longChars (pieces : List Record) : List UInt8 := pieces.reverse.flatMap Record.asciiChars

/-- Records that hold these entries and end with the mark of the last one. -/
inductive Encodes : List Record → List DirEntry → Prop
  | last {r : Record} (rs : List Record) : r.byte 0=fatLastEntry → Encodes (r::rs) []
  | skip {r : Record} {rs : List Record} {es : List DirEntry} :
      r.Skipped → Encodes rs es → Encodes (r::rs) es
  | short {r : Record} {rs : List Record} {es : List DirEntry} :
      r.Short → Encodes rs es → Encodes (r::rs) (⟨cString r.shortBuffer,r⟩::es)
  | long {p r : Record} {ps rs : List Record} {es : List DirEntry} :
      p.lfnNr=ps.length+1 → ps.length<20 → (∀ x ∈ p::ps, x.Piece) → r.Short → Encodes rs es →
      Encodes (p::ps++r::rs) (⟨cString (longChars (p::ps)),r⟩::es)

/-- `fat_read` delivers these records from index `idx` of the directory on. -/
def Delivers (dev : BlockDev) (first : ℕ) : ℕ → List Record → Prop
  | _, [] => True
  | idx, r::rs =>
    Returns (fatRead d first (idx*fatEntrySize%2^32) fatEntrySize) dev
      (fun x t=>x=(fatEntrySize, r) ∧ t=dev) ∧ Delivers dev first (idx+1) rs

variable {d} {dev : BlockDev} {first idx fuel : ℕ} {seq : Option ℤ} {iseq : ℤ} {result : FatResult} {r : Record}
  {rs ps : List Record} {es : List DirEntry} {Q : EntryIndex × FatResult → BlockDev → Prop}

section

theorem delivers_oneSector (h : Volume d dev) (hcs : Chain d dev (c::cs))
    (hone : d.sectorsPerCluster=1) (hsc : fatEntrySize ∣ d.bytesPerSector)
    (hrn : (idx+k)*fatEntrySize≤d.bytesPerCluster*(c::cs).length)
    (hlm : d.bytesPerCluster*(c::cs).length≤2^32) :
    Delivers d dev c idx ((List.range' idx k).map
      (fun i=>((chainData d dev (c::cs)).drop (i*fatEntrySize)).take fatEntrySize)) := by
  induction k generalizing idx with
  | zero => trivial
  | succ k ih =>
    have hC : d.bytesPerCluster=d.bytesPerSector := by rw [h.cluster,hone,one_mul]
    have hend : idx*fatEntrySize+fatEntrySize≤d.bytesPerCluster*(c::cs).length := by
      rw [← succ_mul]
      exact le_trans (mul_le_mul_right _ (by omega)) hrn
    -- records do not cross the end of a sector
    have hin : idx*fatEntrySize%d.bytesPerCluster+fatEntrySize≤d.bytesPerCluster := by
      obtain ⟨n,hn⟩ := hsc
      have hpos : 0<n := pos_of_ne_zero (by rintro rfl; have := h.positive; omega)
      rw [hC,hn,mul_comm,mul_mod_mul_left,← mul_succ]
      exact mul_le_mul_left _ (mod_lt _ hpos)
    have hcn := contiguous_within (c::cs) hin
    refine ⟨?_,ih (by rwa [add_right_comm])⟩
    rw [mod_eq_of_lt (by rw [fatEntrySize] at hend ⊢; omega)]
    refine (fatRead_consecutive h hcs (by decide) (by decide) hend ?_ ?_ hcn).imp ?_
    · rw [hC]
      exact le_of_lt (mod_lt _ h.positive)
    · rw [hone,hC,succ_mul] at *
      omega
    · rintro _ t ⟨rfl,rfl⟩
      rw [contiguous_data h hcs hcn hend]
      exact ⟨rfl,rfl⟩
end

section

theorem Record.Piece.ne_unused (h : r.Piece) : r.byte 0≠fatUnusedEntry := by
  intro h0
  have hk := h.kept
  rw [Record.isLfnDeleted,h0] at hk
  exact absurd hk (by decide)

@[simp] theorem Record.length_asciiChars (r : Record) : r.asciiChars.length=fatLfnChars := by
  simp [Record.asciiChars,fatLfnChars]

theorem length_longChars (ps : List Record) : (longChars ps).length=ps.length*fatLfnChars := by
  induction ps with
  | nil => rfl
  | cons p ps ih =>
    rw [longChars] at ih
    rw [longChars,reverse_cons,flatMap_append,length_append,ih,length_cons,succ_mul]
    simp

theorem longChars_cons (p : Record) (ps : List Record) : longChars (p::ps)=longChars ps++p.asciiChars := by
  simp [longChars]

theorem blit_longChars (m : Mem) (p : Record) (ps : List Record) :
    blit (blit m (ps.length*fatLfnChars) p.asciiChars) 0 (longChars ps)=blit m 0 (longChars (p::ps)) := by
  rw [longChars_cons,blit_append,length_longChars,zero_add]

theorem Record.zero_mem_shortBuffer (r : Record) : 0 ∈ r.shortBuffer := by
  have hlen : (cString ((List.range 8).map r.byte++List.replicate 5 0)).length≤8 :=
    length_cString_le (by simp)
  rw [Record.shortBuffer]
  generalize (cString ((List.range 8).map r.byte++List.replicate 5 0)).length=n at hlen ⊢
  have hlen' : (cString (((List.range 8).map r.byte++List.replicate 5 0).set n 0x2e)).length≤9 := by
    apply length_cString_le
    rw [List.getElem?_set_ne (by omega)]
    simp
  split
  case isTrue => simp
  case isFalse =>
    -- the last of the thirteen bytes is not written to
    obtain ⟨j,hj⟩ := Nat.exists_eq_add_of_le hlen'
    have hl : (cString (((List.range 8).map r.byte++List.replicate 5 0).set n 0x2e)).length+3+j=12 := by omega
    refine mem_append_right _ (mem_of_getElem? (i := j) ?_)
    rw [List.getElem?_drop,hl,List.getElem?_set_ne (by omega)]
    simp

theorem Record.length_shortBuffer_le (r : Record) : r.shortBuffer.length≤fatLfnNameBufSize := by
  rw [Record.shortBuffer,fatLfnNameBufSize]
  split
  case isTrue => simp
  case isFalse =>
    simp
    omega

theorem cString_short (m : Mem) (r : Record) :
    cString (bytes (blit m 0 r.shortBuffer) 0 fatLfnNameBufSize)=cString r.shortBuffer := by
  obtain ⟨n,hn⟩ := Nat.exists_eq_add_of_le r.length_shortBuffer_le
  rw [hn,bytes_blit_append,cString_append_of_mem r.zero_mem_shortBuffer]

theorem cString_long (m : Mem) (h : (longChars ps).length≤fatLfnNameBufSize) :
    cString (bytes (blit (blit m 0 (List.replicate fatLfnNameBufSize 0)) 0 (longChars ps)) 0 fatLfnNameBufSize) =
      cString (longChars ps) := by
  have hz := bytes_blit_self m 0 (List.replicate fatLfnNameBufSize 0)
  rw [length_replicate] at hz
  obtain ⟨n,hn⟩ := Nat.exists_eq_add_of_le h
  have hr := drop_bytes (blit m 0 (List.replicate fatLfnNameBufSize 0)) 0 fatLfnNameBufSize (longChars ps).length
  rw [hz,drop_replicate] at hr
  have hn' : fatLfnNameBufSize-(longChars ps).length=n := by omega
  rw [hn'] at hr
  nth_rewrite 2 [hn]
  rw [bytes_blit_append,← hr,cString_append_zeros]
end

section
variable (h : Returns (fatRead d first (idx*fatEntrySize%2^32) fatEntrySize) dev
  (fun x t=>x=(fatEntrySize, r) ∧ t=dev))
include h
theorem fatReadEntry_last (hr : r.byte 0=fatLastEntry) :
    Returns (fatReadEntry d first (fuel+1) idx seq result) dev Q ↔ Q (.last, result) dev := by
  obtain ⟨_,t,hok,rfl,rfl⟩ := Returns.exists_ok h
  rw [fatReadEntry,Returns,wp_bind,wp_of_ok hok]
  simp [fatEntrySize,if_pos hr]

theorem fatReadEntry_skip (hr : r.Skipped) : Returns (fatReadEntry d first (fuel+1) idx seq result) dev Q ↔
      Returns (fatReadEntry d first fuel (idx+1) seq result) dev Q := by
  obtain ⟨_,t,hok,rfl,rfl⟩ := Returns.exists_ok h
  rw [fatReadEntry,Returns,wp_bind,wp_of_ok hok]
  simp only [fatEntrySize,OfNat.ofNat_ne_zero,if_false,if_neg hr.used]
  rcases hr.skipped with h0 | ⟨hlfn,hdel⟩
  · simp only [if_pos h0]
  · simp [hlfn,hdel]

theorem fatReadEntry_short (hr : r.Short) :
    Returns (fatReadEntry d first (fuel+1) idx seq result) dev Q ↔ Q (.next (idx+1), {
      dirCluster := first
      entry := r
      lfn := if seq.isNone then blit result.lfn 0 r.shortBuffer else result.lfn}) dev := by
  obtain ⟨_,t,hok,rfl,rfl⟩ := Returns.exists_ok h
  rw [fatReadEntry,Returns,wp_bind,wp_of_ok hok]
  simp [fatEntrySize,if_neg hr.used,if_neg hr.kept,hr.short]

theorem fatReadEntry_enter (hr : r.Piece) (hnr : r.lfnNr=n+1) :
    Returns (fatReadEntry d first (fuel+1) idx none result) dev Q ↔ n<20 ∧
      Returns (fatReadEntry d first fuel (idx+1) (some n) {result with
        lfn := blit (blit result.lfn 0 (List.replicate fatLfnNameBufSize 0)) (n*fatLfnChars) r.asciiChars}) dev Q := by
  have his : (r.lfnNr : ℤ)-1=n := by omega
  have hrm : ((n : ℤ)+1)*fatLfnChars<fatLfnNameBufSize ↔ n<20 := by
    rw [fatLfnChars,fatLfnNameBufSize]
    omega
  obtain ⟨_,t,hok,rfl,rfl⟩ := Returns.exists_ok h
  rw [fatReadEntry,Returns,wp_bind,wp_of_ok hok]
  simp only [fatEntrySize,OfNat.ofNat_ne_zero,if_false,if_neg hr.used,if_neg hr.ne_unused,hr.lfn,hr.kept,
    Bool.not_false,Bool.and_self,if_true,his,wp_bind,hrm]
  rw [wp_kassert_iff,wp_kassert (by rw [decide_eq_true_eq]; omega),Int.toNat_natCast]
  simp only [decide_eq_true_eq,Returns]
  by_cases hn : n<20
  · simp
  · simp

theorem not_fatReadEntry_enter (hr : r.Piece) (hnr : r.lfnNr=0) :
    ¬ Returns (fatReadEntry d first (fuel+1) idx none result) dev Q := by
  obtain ⟨_,t,hok,rfl,rfl⟩ := Returns.exists_ok h
  rw [fatReadEntry,Returns,wp_bind,wp_of_ok hok]
  simp only [fatEntrySize,OfNat.ofNat_ne_zero,if_false,if_neg hr.used,if_neg hr.ne_unused,hr.lfn,hr.kept,
    Bool.not_false,Bool.and_self,if_true,hnr,wp_bind]
  rw [wp_kassert (by decide),wp_kassert_iff,if_neg (by decide)]
  exact id

theorem fatReadEntry_piece (hr : r.Piece) :
    Returns (fatReadEntry d first (fuel+1) idx (some ((n+1 : ℕ) : ℤ)) result) dev Q ↔
      Returns (fatReadEntry d first fuel (idx+1) (some n) {result with
        lfn := blit result.lfn (n*fatLfnChars) r.asciiChars}) dev Q := by
  have hi : ((n+1 : ℕ) : ℤ)-1=n := by omega
  obtain ⟨_,t,hok,rfl,rfl⟩ := Returns.exists_ok h
  rw [fatReadEntry,Returns,wp_bind,wp_of_ok hok]
  simp only [fatEntrySize,OfNat.ofNat_ne_zero,if_false,if_neg hr.used,if_neg hr.ne_unused,hr.lfn,hr.kept,
    Bool.not_false,Bool.and_self,if_true,hi,wp_bind]
  rw [wp_kassert (by rw [decide_eq_true_eq]; omega),Int.toNat_natCast]

theorem not_fatReadEntry_piece (hr : r.Piece) :
    ¬ Returns (fatReadEntry d first (fuel+1) idx (some 0) result) dev Q := by
  obtain ⟨_,t,hok,rfl,rfl⟩ := Returns.exists_ok h
  rw [fatReadEntry,Returns,wp_bind,wp_of_ok hok]
  simp only [fatEntrySize,OfNat.ofNat_ne_zero,if_false,if_neg hr.used,if_neg hr.ne_unused,hr.lfn,hr.kept,
    Bool.not_false,Bool.and_self,if_true,wp_bind]
  rw [wp_kassert_iff,if_neg (by decide)]
  exact id
end

section

theorem fatReadEntry_pieces (hps : ∀ p ∈ pieces, Record.Piece p)
    (hdel : Delivers d dev first idx (pieces++rs)) (hfl : pieces.length≤fuel)
    (hQ : Delivers d dev first (idx+pieces.length) rs →
      Returns (fatReadEntry d first (fuel-pieces.length) (idx+pieces.length) (some 0) {result with
        lfn := blit result.lfn 0 (longChars pieces)}) dev Q) :
    Returns (fatReadEntry d first fuel idx (some pieces.length) result) dev Q := by
  induction pieces generalizing idx fuel result with
  | nil =>
    rw [longChars,reverse_nil,flatMap_nil,blit_nil] at hQ
    exact hQ hdel
  | cons p ps ih =>
    obtain ⟨fuel,rfl⟩ : ∃ k, fuel=k+1 := exists_eq_succ_of_ne_zero (by simp at hfl; omega)
    obtain ⟨hrd,hrs⟩ := hdel
    rw [length_cons,fatReadEntry_piece hrd (hps p mem_cons_self)]
    refine ih (fun x hx=>hps x (mem_cons_of_mem p hx)) hrs (by simpa using hfl) (fun hdel'=>?_)
    rw [blit_longChars]
    rw [length_cons,Nat.add_sub_add_right,← add_assoc,add_right_comm] at hQ
    exact hQ hdel'

theorem fatReadEntry_end (henc : Encodes rs es) (hes : es=[]) (hdel : Delivers d dev first idx rs)
    (hf : rs.length≤fuel) :
    Returns (fatReadEntry d first fuel idx none result) dev (fun x t=>x=(.last, result) ∧ t=dev) := by
  induction henc generalizing idx fuel with
  | last rs hr =>
    obtain ⟨fuel,rfl⟩ : ∃ k, fuel=k+1 := exists_eq_succ_of_ne_zero (by simp at hf; omega)
    exact (fatReadEntry_last hdel.1 hr).mpr ⟨rfl,rfl⟩
  | skip hr _ ih =>
    obtain ⟨fuel,rfl⟩ : ∃ k, fuel=k+1 := exists_eq_succ_of_ne_zero (by simp at hf; omega)
    exact (fatReadEntry_skip hdel.1 hr).mpr (ih hes hdel.2 (by simpa using hf))
  | short => cases hes
  | long => cases hes

theorem fatReadEntry_entry (henc : Encodes rs es) (hes : es=e::es')
    (hdel : Delivers d dev first idx rs) (hfl : rs.length≤fuel) :
    Returns (fatReadEntry d first fuel idx none result) dev (fun x t=>t=dev ∧ x.2.dirEntry=e ∧
      ∃ idx' rs', x.1=.next idx' ∧ Encodes rs' es' ∧ Delivers d dev first idx' rs' ∧ rs'.length<rs.length) := by
  induction henc generalizing idx fuel with
  | last => cases hes
  | skip hr _ ih =>
    obtain ⟨fuel,rfl⟩ : ∃ k, fuel=k+1 := exists_eq_succ_of_ne_zero (by simp at hfl; omega)
    rw [fatReadEntry_skip hdel.1 hr]
    apply (ih hes hdel.2 (by simpa using hfl)).imp
    rintro x t ⟨ht,he,idx',rs',hx,henc',hdel',hlt⟩
    exact ⟨ht,he,idx',rs',hx,henc',hdel',lt_succ_of_lt hlt⟩
  | @short r rs es hr hrs =>
    obtain ⟨rfl,rfl⟩ := List.cons.inj hes
    obtain ⟨fuel,rfl⟩ : ∃ k, fuel=k+1 := exists_eq_succ_of_ne_zero (by simp at hfl; omega)
    rw [fatReadEntry_short hdel.1 hr]
    refine ⟨rfl,?_,idx+1,rs,rfl,hrs,hdel.2,lt_succ_self _⟩
    rw [FatResult.dirEntry,Option.isNone_none,if_pos rfl,cString_short]
  | @long p r ps rs es hnr hlen hps hr hrs =>
    obtain ⟨rfl,rfl⟩ := List.cons.inj hes
    obtain ⟨fuel,rfl⟩ : ∃ k, fuel=k+1 := exists_eq_succ_of_ne_zero (by simp at hfl; omega)
    rw [fatReadEntry_enter hdel.1 (hps p mem_cons_self) hnr]
    refine ⟨hlen,fatReadEntry_pieces (fun x hx=>hps x (mem_cons_of_mem p hx)) hdel.2 ?_ (fun hdel'=>?_)⟩
    · simp at hfl
      omega
    obtain ⟨k,hk⟩ : ∃ k, fuel-ps.length=k+1 := exists_eq_succ_of_ne_zero (by simp at hfl; omega)
    rw [hk,fatReadEntry_short hdel'.1 hr]
    refine ⟨rfl,?_,_,rs,rfl,hrs,hdel'.2,?_⟩
    · have hch : (longChars (p::ps)).length≤fatLfnNameBufSize := by
        rw [length_longChars,length_cons,fatLfnChars,fatLfnNameBufSize]
        omega
      rw [FatResult.dirEntry,Option.isNone_some,if_neg Bool.false_ne_true,blit_longChars,cString_long _ hch]
    · simp
      omega
end

end Yaos2.Fat
