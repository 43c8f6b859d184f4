import Yaos2.Fat.Walk

/-! # Long file names

A long name is put in records of thirteen characters each, the last ones first. It ends with a zero and
`0xFFFF` after it, unless it fills its last record. -/
namespace Yaos2.Fat
open Foundation List Nat Option

/-- `FAT_LFN_LAST`, in the ordinal of the record that comes first. -/
def fatLfnLast : ℕ := 0x40

/-- The character at position `j` of the records of a name. -/
def ucs2At (name : List UInt8) (j : ℕ) : UInt16 := (name.map UInt8.toUInt16++[0]).getD j 0xFFFF

def ucs2Bytes (c : UInt16) : List UInt8 := [c.toUInt8, (c >>> 8).toUInt8]

/-- `struct fat_lfn`, with its thirteen characters. -/
def lfnRecord (ordinal type checksum : UInt8) (chars : ℕ → UInt16) : Record :=
  [ordinal]++(List.range' 0 5).flatMap (fun i=>ucs2Bytes (chars i))++[fatLfn, type, checksum] ++
    (List.range' 5 6).flatMap (fun i=>ucs2Bytes (chars i))++[0, 0] ++
    (List.range' 11 2).flatMap (fun i=>ucs2Bytes (chars i))

def lfnCount (name : List UInt8) : ℕ := (name.length+(fatLfnChars-1))/fatLfnChars

def lfnOrdinal (n k : ℕ) : UInt8 := UInt8.ofNat (if k+1=n then fatLfnLast ||| n else k+1)

def lfnPiece (checksum : UInt8) (name : List UInt8) (k : ℕ) : Record :=
  lfnRecord (lfnOrdinal (lfnCount name) k) 0 checksum (fun i=>ucs2At name (k*fatLfnChars+i))

/-- The records of a name, in the order of the disk. -/
def lfnRecords (checksum : UInt8) (name : List UInt8) : List Record :=
  (List.range (lfnCount name)).reverse.map (lfnPiece checksum name)

variable {d : SuperData} {dev : BlockDev} {first idx fuel k n : ℕ} {result : FatResult} {e : Record}
  {name : List UInt8} {checksum : UInt8} {unused rs : List Record}

section

theorem lfnCount_pos (hn : name≠[]) : 0<lfnCount name := by
  have hlen := length_pos_iff.mpr hn
  rw [lfnCount,fatLfnChars]
  omega

theorem lfnCount_le (hlen : name.length≤255) : lfnCount name≤20 := by
  rw [lfnCount,fatLfnChars]
  omega

theorem length_le_lfnCount (name : List UInt8) : name.length≤lfnCount name*fatLfnChars := by
  rw [lfnCount,fatLfnChars]
  omega

theorem ucs2At_toUInt8 (name : List UInt8) (j : ℕ) : (ucs2At name j).toUInt8=(name++[0]).getD j 0xFF := by
  have hmap : name.map UInt8.toUInt16++[0]=(name++[0]).map UInt8.toUInt16 := by simp
  rw [ucs2At,hmap,getD_eq_getElem?_getD,getD_eq_getElem?_getD,List.getElem?_map]
  cases (name++[0])[j]? with
  | none => rfl
  | some c => simp

theorem lfnOrdinal_spec (hk : k<n) (hn : n≤20) :
    lfnOrdinal n k≠fatLastEntry ∧ lfnOrdinal n k &&& fatLfnDeleted=0 ∧ (lfnOrdinal n k &&& 0x3f).toNat=k+1 := by
  interval_cases n <;> interval_cases k <;> decide

theorem asciiChars_lfnPiece (checksum : UInt8) (name : List UInt8) (k : ℕ) :
    (lfnPiece checksum name k).asciiChars =
      (List.range fatLfnChars).map (fun i=>(ucs2At name (k*fatLfnChars+i)).toUInt8) := rfl

theorem lfnPiece_piece (hk : k<lfnCount name) (hlen : name.length≤255) : (lfnPiece checksum name k).Piece := by
  obtain ⟨hu,hkp,-⟩ := lfnOrdinal_spec hk (lfnCount_le hlen)
  refine ⟨hu,rfl,?_⟩
  have hb : (lfnPiece checksum name k).byte 0=lfnOrdinal (lfnCount name) k := rfl
  rw [Record.isLfnDeleted,hb,hkp]
  rfl

theorem lfnPiece_lfnNr (hk : k<lfnCount name) (hlen : name.length≤255) :
    (lfnPiece checksum name k).lfnNr=k+1 := by
  obtain ⟨-,-,hnr⟩ := lfnOrdinal_spec hk (lfnCount_le hlen)
  exact hnr

theorem longChars_lfnRecords (checksum : UInt8) (name : List UInt8) : longChars (lfnRecords checksum name) =
      (List.range (lfnCount name*fatLfnChars)).map (fun j=>(ucs2At name j).toUInt8) := by
  rw [longChars,lfnRecords,← map_reverse,reverse_reverse]
  induction lfnCount name with
  | zero => rfl
  | succ n ih =>
    rw [range_succ,map_append,flatMap_append,ih,succ_mul,range_add,map_append]
    simp [asciiChars_lfnPiece]
end

section

theorem fatReadEntry_unused
    (hun : ∀ r ∈ unused, Record.byte r 0=fatUnusedEntry) (hdel : Delivers d dev first idx (unused++rs))
    (hfl : unused.length≤fuel)
    (hQ : Delivers d dev first (idx+unused.length) rs →
      Returns (fatReadEntry d first (fuel-unused.length) (idx+unused.length) none result) dev Q) :
    Returns (fatReadEntry d first fuel idx none result) dev Q := by
  induction unused generalizing idx fuel with
  | nil => exact hQ hdel
  | cons r unused ih =>
    obtain ⟨fuel,rfl⟩ : ∃ m, fuel=m+1 := exists_eq_succ_of_ne_zero (by simp at hfl; omega)
    have hr := hun r mem_cons_self
    rw [fatReadEntry_skip hdel.1 ⟨by rw [hr]; decide,.inl hr⟩]
    apply ih (fun x hx=>hun x (mem_cons_of_mem r hx)) hdel.2 (by simpa using hfl)
    intro hdel'
    rw [length_cons,Nat.add_sub_add_right,← add_assoc,add_right_comm] at hQ
    exact hQ hdel'

theorem bytes_longName (m : Mem) (checksum : UInt8) (hlen : name.length≤255) :
    bytes (blit (blit m 0 (List.replicate fatLfnNameBufSize 0)) 0 (longChars (lfnRecords checksum name))) 0
      (name.length+1)=name++[0] := by
  have hcn := length_le_lfnCount name
  have hch : (longChars (lfnRecords checksum name)).length=lfnCount name*fatLfnChars := by
    rw [longChars_lfnRecords,length_map,length_range]
  apply ext_getElem
  · simp
  · intro j hj hj'
    rw [bytes_length] at hj
    simp only [bytes,getElem_map,getElem_range]
    by_cases hin : j<lfnCount name*fatLfnChars
    · rw [blit_inside (by rwa [hch]),longChars_lfnRecords,getD_eq_getElem?_getD,List.getElem?_map,
        List.getElem?_range hin,map_some,getD_some,ucs2At_toUInt8,getD_eq_getElem?_getD,
        List.getElem?_eq_getElem hj',getD_some]
    · -- the name fills its records, and the zero was in the buffer
      obtain rfl : j=name.length := by omega
      have hrm : name.length<(List.replicate fatLfnNameBufSize (0 : UInt8)).length := by
        rw [length_replicate,fatLfnNameBufSize]
        omega
      rw [blit_outside (by omega),blit_inside hrm,getD_eq_getElem?_getD,List.getElem?_eq_getElem hrm]
      simp

/-- `fat_read_entry` reads a long name behind any number of unused records. -/
theorem fatReadEntry_longName (hname : name≠[]) (hlen : name.length≤255)
    (hunused : ∀ r ∈ unused, Record.byte r 0=fatUnusedEntry) (he : e.Short)
    (hdel : Delivers d dev first idx (unused++(lfnRecords checksum name++[e])))
    (hfuel : unused.length+lfnCount name<fuel) :
    Returns (fatReadEntry d first fuel idx none result) dev (fun x t=>t=dev ∧
      x.1=.next (idx+unused.length+lfnCount name+1) ∧ x.2.dirCluster=first ∧ x.2.entry=e ∧
      bytes x.2.lfn 0 (name.length+1)=name++[0] ∧ ∀ a, fatLfnNameBufSize≤a → x.2.lfn a=result.lfn a) := by
  apply fatReadEntry_unused hunused hdel (by omega)
  intro hdel
  obtain ⟨n,hn⟩ := exists_eq_succ_of_ne_zero (lfnCount_pos hname).ne'
  have hls : n<lfnCount name := by omega
  have hsp : lfnRecords checksum name =
      lfnPiece checksum name n::(List.range n).reverse.map (lfnPiece checksum name) := by
    rw [lfnRecords,hn,succ_eq_add_one,range_succ,reverse_append,map_append]
    rfl
  have hcn := lfnCount_le hlen
  have hch : (longChars (lfnRecords checksum name)).length≤fatLfnNameBufSize := by
    rw [longChars_lfnRecords,length_map,length_range,fatLfnChars,fatLfnNameBufSize]
    omega
  have hps : ((List.range n).reverse.map (lfnPiece checksum name)).length=n := by simp
  obtain ⟨m,hm⟩ : ∃ m, fuel-unused.length=m+1 := exists_eq_succ_of_ne_zero (by omega)
  rw [hsp,cons_append] at hdel
  rw [hm]
  rw [fatReadEntry_enter hdel.1 (lfnPiece_piece hls hlen) (lfnPiece_lfnNr hls hlen)]
  apply And.intro (by omega)
  have hpc : ∀ p ∈ (List.range n).reverse.map (lfnPiece checksum name), Record.Piece p := by
    intro p hp
    obtain ⟨k,hk,rfl⟩ := mem_map.mp hp
    rw [mem_reverse,mem_range] at hk
    exact lfnPiece_piece (hk.trans hls) hlen
  nth_rewrite 1 [← hps]
  apply fatReadEntry_pieces hpc hdel.2 (by omega)
  intro hdel'
  obtain ⟨l,hl⟩ : ∃ l, m-((List.range n).reverse.map (lfnPiece checksum name)).length=l+1 :=
    exists_eq_succ_of_ne_zero (by omega)
  rw [hl,fatReadEntry_short hdel'.1 he]
  have hlfn : blit (blit (blit result.lfn 0 (List.replicate fatLfnNameBufSize 0)) (n*fatLfnChars)
      (lfnPiece checksum name n).asciiChars) 0 (longChars ((List.range n).reverse.map (lfnPiece checksum name))) =
      blit (blit result.lfn 0 (List.replicate fatLfnNameBufSize 0)) 0 (longChars (lfnRecords checksum name)) := by
    rw [hsp,← blit_longChars,hps]
  refine ⟨rfl,?_,rfl,rfl,?_,?_⟩
  · simp only [EntryIndex.next.injEq]
    omega
  · dsimp only
    rw [isNone_some,if_neg Bool.false_ne_true,hlfn,bytes_longName _ _ hlen]
  · intro a ha
    dsimp only
    rw [isNone_some,if_neg Bool.false_ne_true,hlfn,blit_outside (by omega),
      blit_outside (by rw [length_replicate]; omega)]

def kernelConfig : List UInt8 :=
  [0x6b, 0x65, 0x72, 0x6e, 0x65, 0x6c, 0x2e, 0x63, 0x6f, 0x6e, 0x66, 0x69, 0x67, 0x2e, 0x74, 0x78, 0x74]

/-- An unused record, the two records of a long name, and a record with a short name. -/
def longNameRecords : List Record :=
  [fatUnusedEntry::List.replicate 31 0]++(lfnRecords 0x55 kernelConfig++[foobar.record])

theorem fatReadEntry_longName_kernelConfig :
    Returns (fatReadEntry (smallVolume 1) 2 4 0 none noResult) (dirDisk longNameRecords.flatten) (fun x t =>
      t=dirDisk longNameRecords.flatten ∧ x.1=.next (0+1+lfnCount kernelConfig+1) ∧ x.2.dirCluster=2 ∧
      x.2.entry=foobar.record ∧ bytes x.2.lfn 0 (kernelConfig.length+1)=kernelConfig++[0] ∧
      ∀ a, fatLfnNameBufSize≤a → x.2.lfn a=noResult.lfn a) := by
  have hdel : Delivers (smallVolume 1) (dirDisk longNameRecords.flatten) 2 0 longNameRecords :=
    dirDisk_delivers (by decide) (by decide +kernel)
  exact fatReadEntry_longName (by decide) (by decide) (by decide) ⟨by decide,by decide,by decide⟩ hdel (by decide)
end

end Yaos2.Fat
