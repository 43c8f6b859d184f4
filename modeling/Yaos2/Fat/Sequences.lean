import Yaos2.Fat.LongNames
import Yaos2.Fat.Scan

/-! # Sequences of long name records -/
namespace Yaos2.Fat
open Foundation Nat

/-- The pieces of a long name that one call of `fat_read_entry` comes upon. -/
def scannedPieces : List Record → List Record
  | [] => []
  | r::rs =>
    if r.byte 0=fatLastEntry then []
    else if r.byte 0=fatUnusedEntry then scannedPieces rs
    else if !r.isLfn then []
    else if r.isLfnDeleted then scannedPieces rs
    else r::scannedPieces rs

/-- The first piece has a number from 1 to 20, and it is the number of pieces or more. -/
def SequenceFits : List Record → Prop
  | [] => True
  | p::ps => ps.length<p.lfnNr ∧ p.lfnNr≤20

/-- The pieces that are left fit before position `n`. -/
def PiecesFit : Option ℕ → List Record → Prop
  | none, ps => SequenceFits ps
  | some n, ps => ps.length≤n

/-- A record behind which `fat_read_entry` does not look. -/
def Record.Stops (r : Record) : Prop := r.byte 0=fatLastEntry ∨ r.Short

/-- The directory ends with these records: `fat_read` reads no further, unless one of them stops the scan before. -/
def EndsWith (d : SuperData) (dev : BlockDev) (first idx : ℕ) (rs : List Record) : Prop :=
  (∀ r ∈ rs, ¬ r.Stops) → Returns (fatRead d first ((idx+rs.length)*fatEntrySize%2^32) fatEntrySize) dev
    (fun x t=>x.1=0 ∧ t=dev)

/-- Nothing behind the buffer of the name is written to. -/
def KeptBehind (lfn lfn' : Mem) : Prop := ∀ a, fatLfnNameBufSize≤a → lfn' a=lfn a

variable {d : SuperData} {dev : BlockDev} {first idx fuel : ℕ} {result : FatResult} {r : Record} {rs : List Record}

section

theorem scannedPieces_last (hr : r.byte 0=fatLastEntry) : scannedPieces (r::rs)=[] := if_pos hr

theorem scannedPieces_skip (hr : r.Skipped) : scannedPieces (r::rs)=scannedPieces rs := by
  rw [scannedPieces,if_neg hr.used]
  rcases hr.skipped with h0 | ⟨hlfn,hdel⟩
  · rw [if_pos h0]
  · rw [hlfn,hdel,Bool.not_true,if_neg Bool.false_ne_true,if_pos rfl,ite_self]

theorem scannedPieces_short (hr : r.Short) : scannedPieces (r::rs)=[] := by
  rw [scannedPieces,if_neg hr.used,if_neg hr.kept,hr.short,Bool.not_false,if_pos rfl]

theorem scannedPieces_piece (hr : r.Piece) : scannedPieces (r::rs)=r::scannedPieces rs := by
  rw [scannedPieces,if_neg hr.used,if_neg hr.ne_unused,hr.lfn,hr.kept,Bool.not_true,if_neg Bool.false_ne_true,
    if_neg Bool.false_ne_true]

theorem Record.kinds (r : Record) : r.byte 0=fatLastEntry ∨ r.Skipped ∨ r.Short ∨ r.Piece := by
  by_cases hl : r.byte 0=fatLastEntry
  · exact .inl hl
  by_cases hu : r.byte 0=fatUnusedEntry
  · exact .inr (.inl ⟨hl,.inl hu⟩)
  cases hlfn : r.isLfn with
  | false => exact .inr (.inr (.inl ⟨hl,hu,hlfn⟩))
  | true =>
    cases hdel : r.isLfnDeleted with
    | false => exact .inr (.inr (.inr ⟨hl,hlfn,hdel⟩))
    | true => exact .inr (.inl ⟨hl,.inr ⟨hlfn,hdel⟩⟩)

theorem Record.Skipped.not_stops (hr : r.Skipped) : ¬ r.Stops := by
  rintro (hl | hs)
  · exact hr.used hl
  · rcases hr.skipped with h0 | ⟨hlfn,-⟩
    · exact hs.kept h0
    · rw [hs.short] at hlfn
      cases hlfn

theorem Record.Piece.not_stops (hr : r.Piece) : ¬ r.Stops := by
  rintro (hl | hs)
  · exact hr.used hl
  · have hlfn := hr.lfn
    rw [hs.short] at hlfn
    cases hlfn

theorem EndsWith.tail (h : EndsWith d dev first idx (r::rs)) (hr : ¬ r.Stops) : EndsWith d dev first (idx+1) rs := by
  intro hrs
  have hrd := h (List.forall_mem_cons.mpr ⟨hr,hrs⟩)
  rwa [List.length_cons,← add_assoc,add_right_comm] at hrd
end

section
variable {m m' : Mem}

theorem KeptBehind.piece (h : KeptBehind m m') (hn : n<20) (r : Record) :
    KeptBehind m (blit m' (n*fatLfnChars) r.asciiChars) := by
  intro a ha
  have hr : n*fatLfnChars+r.asciiChars.length≤a := by
    rw [r.length_asciiChars,fatLfnChars]
    rw [fatLfnNameBufSize] at ha
    omega
  rw [blit_outside (.inr hr),h a ha]

theorem KeptBehind.zeros (h : KeptBehind m m') : KeptBehind m (blit m' 0 (List.replicate fatLfnNameBufSize 0)) := by
  intro a ha
  have hr : 0+(List.replicate fatLfnNameBufSize (0 : UInt8)).length≤a := by
    rwa [List.length_replicate,zero_add]
  rw [blit_outside (.inr hr),h a ha]

theorem KeptBehind.short (h : KeptBehind m m') (r : Record) : KeptBehind m (blit m' 0 r.shortBuffer) := by
  intro a ha
  have hr : 0+r.shortBuffer.length≤a := by
    rw [zero_add]
    exact r.length_shortBuffer_le.trans ha
  rw [blit_outside (.inr hr),h a ha]
end

theorem fatReadEntry_error
    (h : Returns (fatRead d first (idx*fatEntrySize%2^32) fatEntrySize) dev (fun x t=>x.1=0 ∧ t=dev)) :
    Returns (fatReadEntry d first (fuel+1) idx seq result) dev Q ↔ Q (.error, result) dev := by
  obtain ⟨⟨num,entry⟩,t,hok,rfl,rfl⟩ := Returns.exists_ok h
  rw [fatReadEntry,Returns,wp_bind,wp_of_ok hok]
  simp

theorem fatReadEntry_safe_from (seq : Option ℕ) (result : FatResult) (hdel : Delivers d dev first idx rs)
    (hend : EndsWith d dev first idx rs) (hfl : rs.length<fuel) (hseq : ∀ n ∈ seq, n≤20)
    (hkp : KeptBehind m result.lfn) :
    Returns (fatReadEntry d first fuel idx (seq.map Int.ofNat) result) dev (fun x _=>KeptBehind m x.2.lfn) ↔
      PiecesFit seq (scannedPieces rs) := by
  induction rs generalizing idx fuel seq result with
  | nil =>
    obtain ⟨fuel,rfl⟩ : ∃ k, fuel=k+1 := exists_eq_succ_of_ne_zero (by omega)
    have hrd := hend (by simp)
    rw [List.length_nil,add_zero] at hrd
    rw [fatReadEntry_error hrd]
    cases seq with
    | none => exact iff_of_true hkp trivial
    | some n => exact iff_of_true hkp n.zero_le
  | cons r rs ih =>
    obtain ⟨fuel,rfl⟩ : ∃ k, fuel=k+1 := exists_eq_succ_of_ne_zero (by simp at hfl; omega)
    have hfl' : rs.length<fuel := by simpa using hfl
    have hnx : ¬ r.Stops → ∀ n : ℕ, n<20 → ∀ lfn, KeptBehind m lfn →
        (Returns (fatReadEntry d first fuel (idx+1) (some n) {result with lfn := lfn}) dev
          (fun x _=>KeptBehind m x.2.lfn) ↔ (scannedPieces rs).length≤n) := by
      intro hr n hn lfn hlfn
      exact ih (some n) {result with lfn := lfn} hdel.2 (hend.tail hr) hfl' (by simpa using hn.le) hlfn
    rcases r.kinds with hr | hr | hr | hr
    · rw [fatReadEntry_last hdel.1 hr,scannedPieces_last hr]
      cases seq with
      | none => exact iff_of_true hkp trivial
      | some n => exact iff_of_true hkp n.zero_le
    · rw [fatReadEntry_skip hdel.1 hr,scannedPieces_skip hr]
      exact ih seq result hdel.2 (hend.tail hr.not_stops) hfl' hseq hkp
    · rw [fatReadEntry_short hdel.1 hr,scannedPieces_short hr]
      cases seq with
      | none => exact iff_of_true (hkp.short r) trivial
      | some n => exact iff_of_true hkp n.zero_le
    · rw [scannedPieces_piece hr]
      cases seq with
      | none =>
        rcases eq_zero_or_eq_succ_pred r.lfnNr with hnr | hnr
        · apply iff_of_false (not_fatReadEntry_enter hdel.1 hr hnr)
          intro hft
          have hlt := hft.1
          omega
        · generalize r.lfnNr.pred=n at hnr
          rw [Option.map_none,fatReadEntry_enter hdel.1 hr hnr,PiecesFit,SequenceFits,hnr]
          by_cases hn : n<20
          · rw [hnx hr.not_stops n hn _ (hkp.zeros.piece hn r)]
            omega
          · omega
      | some n =>
        cases n with
        | zero => exact iff_of_false (not_fatReadEntry_piece hdel.1 hr) (not_succ_le_zero _)
        | succ n =>
          have hn := hseq (n+1) rfl
          rw [PiecesFit,List.length_cons,succ_le_succ_iff]
          exact (fatReadEntry_piece hdel.1 hr).trans (hnx hr.not_stops n hn _ (hkp.piece hn r))

/-- `fat_read_entry` stays in its buffer iff the long name records that it comes upon fit. -/
theorem fatReadEntry_safe_iff (hdel : Delivers d dev first idx rs) (hend : EndsWith d dev first idx rs)
    (hfuel : rs.length<fuel) :
    Returns (fatReadEntry d first fuel idx none result) dev (fun x _=>KeptBehind result.lfn x.2.lfn) ↔
      SequenceFits (scannedPieces rs) :=
  fatReadEntry_safe_from none result hdel hend hfuel (by simp) (fun _ _=>rfl)

/-- A record of a long name with this ordinal, and the mark of the last entry behind it. -/
def lonePiece (ordinal : UInt8) : List Record := [lfnRecord ordinal 0 0 (fun _=>0x61), List.replicate 32 0]

/-- The number 1 is right for a sequence of one piece. -/
theorem fatReadEntry_safe_one :
    Returns (fatReadEntry (smallVolume 1) 2 3 0 none noResult) (dirDisk (lonePiece 0x41).flatten)
      (fun x _=>KeptBehind noResult.lfn x.2.lfn) := by
  have hdel : Delivers (smallVolume 1) (dirDisk (lonePiece 0x41).flatten) 2 0 (lonePiece 0x41) :=
    dirDisk_delivers (by decide) (by decide +kernel)
  apply (fatReadEntry_safe_iff hdel ?_ (by decide)).mpr
  · exact ⟨by decide,by decide⟩
  · intro h
    exact absurd (.inl rfl) (h (List.replicate 32 0) (by simp [lonePiece]))

/-- A piece with the number 0, or with the number 21, makes an assertion fail. -/
theorem fatReadEntry_asserts_number :
    (Delivers (smallVolume 1) (dirDisk (lonePiece 0x40).flatten) 2 0 (lonePiece 0x40) ∧
      Raises (fatReadEntry (smallVolume 1) 2 3 0 none noResult) (dirDisk (lonePiece 0x40).flatten)
        "assertion iseq >= 0 failed") ∧
    Delivers (smallVolume 1) (dirDisk (lonePiece 0x55).flatten) 2 0 (lonePiece 0x55) ∧
      Raises (fatReadEntry (smallVolume 1) 2 3 0 none noResult) (dirDisk (lonePiece 0x55).flatten)
        "assertion (iseq + 1) * FAT_LFN_CHARS < FAT_LFN_NAME_BUF_SIZE failed" :=
  ⟨⟨dirDisk_delivers (by decide) (by decide +kernel),_,rfl⟩,dirDisk_delivers (by decide) (by decide +kernel),_,rfl⟩

end Yaos2.Fat
