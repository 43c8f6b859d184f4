import Yaos2.Fat.Blocks
import Yaos2.Fat.Walk
import Yaos2.Foundation.Reasons

/-! # Scanning a directory to its end -/
namespace Yaos2.Fat
open Foundation Nat

/-- What the model does when a loop has not ended. -/
def endlessLoop : String := "endless loop"

variable (d : SuperData)

/-- The chain from `first` has at most `n` clusters. -/
def ChainEnds (dev : BlockDev) (first n : ℕ) : Prop := Returns (followChain d n first) dev (fun r _=>r=none)

variable {d} {dev : BlockDev} {c off first idx fuel n num k : ℕ} {seq : Option ℤ} {result : FatResult} {r : Progress}

section

theorem kassert_readOnly (expr : String) (b : Bool) : ReadOnly (kassert expr b : Exec σ Unit) :=
  ReadOnly.ite (.pure _) (.abort _)

theorem bdevRead_readOnly (block off len : ℕ) : ReadOnly (bdevRead block off len) := by
  apply ReadOnly.ite (.pure _)
  apply ReadOnly.get.bind
  intro dev
  apply (kassert_readOnly _ _).bind
  intro _
  exact (kassert_readOnly _ _).bind (fun _=>.pure _)

theorem fatReadFat_readOnly (c : ℕ) : ReadOnly (fatReadFat d c) := by
  unfold fatReadFat
  cases fatOffset d.type c with
  | none => exact .pure _
  | some off => exact (bdevRead_readOnly _ _ _).bind (fun _=>.pure _)

theorem followChain_readOnly (n c : ℕ) : ReadOnly (followChain d n c) := by
  induction n generalizing c with
  | zero => exact .pure _
  | succ n ih =>
    apply (fatReadFat_readOnly c).bind
    intro next
    exact .ite (ih next.2) (.pure _)

theorem readBlocks_readOnly (n block : ℕ) (r : Progress) : ReadOnly (readBlocks d n block r) := by
  induction n generalizing block r with
  | zero => exact .pure _
  | succ n ih =>
    apply ReadOnly.bind
    · exact (bdevRead_readOnly _ _ _).bind (fun _=>.pure _)
    · exact fun r=>ih (block+1) r

theorem readClusters_readOnly (fuel c : ℕ) (r : Progress) : ReadOnly (readClusters d fuel c r) := by
  induction fuel generalizing c r with
  | zero => exact .abort _
  | succ fuel ih =>
    apply ReadOnly.ite (.pure _)
    apply (readBlocks_readOnly _ _ r).bind
    intro r
    apply ReadOnly.ite (.pure _)
    apply (fatReadFat_readOnly c).bind
    intro next
    exact .ite (ih next.2 r) (.pure _)

theorem fatRead_readOnly (c off : ℕ) (num : ℤ) : ReadOnly (fatRead d c off num) := by
  apply ReadOnly.ite (.pure _)
  apply (followChain_readOnly _ c).bind
  intro cl
  cases cl with
  | none => exact .pure _
  | some cl => exact readClusters_readOnly _ cl _

theorem fatReadEntry_readOnly (first fuel idx : ℕ) (seq : Option ℤ) (result : FatResult) :
    ReadOnly (fatReadEntry d first fuel idx seq result) := by
  induction fuel generalizing idx seq result with
  | zero => exact .abort _
  | succ fuel ih =>
    apply (fatRead_readOnly _ _ _).bind
    intro x
    apply ReadOnly.ite (.pure _)
    apply ReadOnly.ite (.pure _)
    apply ReadOnly.ite (ih _ _ _)
    apply ReadOnly.ite
    · cases seq with
      | none =>
        apply (kassert_readOnly _ _).bind
        intro _
        exact (kassert_readOnly _ _).bind (fun _=>ih _ _ _)
      | some iseq => exact (kassert_readOnly _ _).bind (fun _=>ih _ _ _)
    · exact .ite (.pure _) (ih _ _ _)
end

section

theorem kassert_avoids (expr : String) (b : Bool) : Avoids endlessLoop (kassert expr b : Exec σ Unit) := by
  apply Avoids.ite (.pure _)
  apply Avoids.abort
  intro h
  have hc := congrArg (fun s=>s.toList.head?) h
  simp [endlessLoop] at hc

theorem not_raises_kassert
    (hx : ¬ Raises x s endlessLoop) : ¬ Raises (do kassert expr b; x) s endlessLoop := by
  intro h
  obtain ha | ⟨_,t,hok,hr⟩ := h.bind_cases
  · exact kassert_avoids _ _ _ ha
  · obtain rfl := (kassert_readOnly _ _).eq_of_ok hok
    exact hx hr

theorem bdevRead_avoids (block off len : ℕ) : Avoids endlessLoop (bdevRead block off len) := by
  apply Avoids.ite (.pure _)
  apply Avoids.get.bind
  intro dev
  apply (kassert_avoids _ _).bind
  intro _
  exact (kassert_avoids _ _).bind (fun _=>.pure _)

theorem fatReadFat_avoids (c : ℕ) : Avoids endlessLoop (fatReadFat d c) := by
  unfold fatReadFat
  cases fatOffset d.type c with
  | none => exact .pure _
  | some off => exact (bdevRead_avoids _ _ _).bind (fun _=>.pure _)

theorem followChain_avoids (n c : ℕ) : Avoids endlessLoop (followChain d n c) := by
  induction n generalizing c with
  | zero => exact .pure _
  | succ n ih =>
    apply (fatReadFat_avoids c).bind
    intro next
    exact .ite (ih next.2) (.pure _)

theorem readBlocks_avoids (n block : ℕ) (r : Progress) : Avoids endlessLoop (readBlocks d n block r) := by
  induction n generalizing block r with
  | zero => exact .pure _
  | succ n ih =>
    apply Avoids.bind
    · exact (bdevRead_avoids _ _ _).bind (fun _=>.pure _)
    · exact fun r=>ih (block+1) r

theorem bdevRead_behind (hlen : len≠0) (hoff : dev.blockSize≤off) :
    Ensures (bdevRead block off len) dev (fun _ _=>False) (fun _=>True) := by
  rw [bdevRead,if_neg hlen,wp_bind,wp_get,wp_bind,wp_kassert_iff,if_neg (by simpa using hoff)]
  trivial

theorem readBlocks_behind (hv : Volume d dev) (hsum : r.num+r.initialOffset<2^32)
    (hio : d.bytesPerSector<r.initialOffset) :
    Ensures (readBlocks d (n+1) block r) dev (fun _ _=>False) (fun _=>True) := by
  have hp : (d.bytesPerSector+2^32-r.initialOffset)%2^32≠0 := by omega
  rw [readBlocks,readBlock,mod_eq_of_lt hsum,if_pos (by omega)]
  simp only [wp_bind]
  apply (bdevRead_behind hp (hv.sector▸hio.le)).imp
  exact fun _ _ hF=>hF.elim

theorem Volume.cluster_lt (hv : Volume d dev) : d.bytesPerCluster<2^24 := by
  have hlt := Nat.mul_lt_mul'' hv.clusterLimit hv.sectorLimit
  rw [hv.cluster]
  omega

theorem fatRead_not_endless (hv : Volume d dev) (hnum : 0<num) (hint : num<2^31) :
    ¬ Raises (fatRead d c off num) dev endlessLoop := by
  by_cases hoff : off%d.bytesPerCluster≤d.bytesPerSector
  · exact (fatRead_returns hv hnum hint hoff).not_raises
  · intro h
    rw [fatRead,if_neg (by omega)] at h
    obtain hch | ⟨cl,t,hok,hrd⟩ := h.bind_cases
    · exact followChain_avoids _ _ _ hch
    obtain rfl := (followChain_readOnly _ _).eq_of_ok hok
    cases cl with
    | none => exact Avoids.pure _ _ hrd
    | some cl =>
      dsimp only at hrd
      rw [readClusters,if_neg (by simpa using hnum.ne'),Int.toNat_natCast] at hrd
      obtain hbl | ⟨r',t',hok',-⟩ := hrd.bind_cases
      · exact readBlocks_avoids _ _ _ _ hbl
      · have hcl := hv.cluster_lt
        have hin := mod_lt off hv.cluster_pos
        exact (readBlocks_behind hv (by dsimp only; omega) (not_le.mp hoff)).of_ok hok'
end

section

theorem ChainEnds.add (h : ChainEnds d dev c n) (k : ℕ) : ChainEnds d dev c (n+k) := by
  induction n generalizing c with
  | zero =>
    rw [ChainEnds,followChain,Returns,wp_pure] at h
    cases h
  | succ n ih =>
    rw [ChainEnds,followChain,Returns,wp_bind] at h
    rw [ChainEnds,add_right_comm,followChain,Returns,wp_bind]
    apply ((fatReadFat_readOnly c).and h).mono
    · rintro ⟨state,next⟩ t ⟨rfl,hn⟩
      dsimp only at hn ⊢
      by_cases hok : state=.ok
      · rw [if_pos hok] at hn ⊢
        exact ih hn
      · rw [if_neg hok] at hn ⊢
        exact hn
    · exact fun _ hF=>hF.2

theorem fatRead_behind (h : ChainEnds d dev c n) (hnum : 0<num) (hoff : n≤off/d.bytesPerCluster) :
    Returns (fatRead d c off num) dev (fun x t=>x=(0, []) ∧ t=dev) := by
  obtain ⟨k,hk⟩ := Nat.exists_eq_add_of_le hoff
  have hend := h.add k
  rw [← hk] at hend
  rw [fatRead,if_neg (by omega),Returns,wp_bind]
  apply ((followChain_readOnly _ c).and hend).mono
  · rintro cl t ⟨rfl,rfl⟩
    rw [wp_pure]
    exact ⟨rfl,rfl⟩
  · exact fun _ hF=>hF.2

theorem fatReadEntry_not_endless (hv : Volume d dev)
    (hend : Returns (fatRead d first ((idx+k)*fatEntrySize%2^32) fatEntrySize) dev
      (fun x t=>x=(0, []) ∧ t=dev)) :
    ¬ Raises (fatReadEntry d first (k+1) idx seq result) dev endlessLoop := by
  induction k generalizing idx seq result with
  | zero =>
    intro h
    rw [fatReadEntry] at h
    obtain hrd | ⟨x,t,hok,hrs⟩ := h.bind_cases
    · exact hend.not_raises hrd
    · obtain ⟨rfl,rfl⟩ := hend.of_ok hok
      exact Avoids.pure _ _ hrs
  | succ k ih =>
    have hnx : ∀ seq result, ¬ Raises (fatReadEntry d first (k+1) (idx+1) seq result) dev endlessLoop := by
      intro seq result
      apply ih
      rwa [add_right_comm]
    intro h
    rw [fatReadEntry] at h
    obtain hrd | ⟨x,t,hok,hrs⟩ := h.bind_cases
    · exact fatRead_not_endless hv (by decide) (by decide) hrd
    obtain rfl := (fatRead_readOnly _ _ _).eq_of_ok hok
    obtain ⟨num,entry⟩ := x
    dsimp only at hrs
    split at hrs
    · exact Avoids.pure _ _ hrs
    split at hrs
    · exact Avoids.pure _ _ hrs
    split at hrs
    · exact hnx _ _ hrs
    split at hrs
    · cases seq with
      | none => exact not_raises_kassert (not_raises_kassert (hnx _ _)) hrs
      | some iseq => exact not_raises_kassert (hnx _ _) hrs
    split at hrs
    · exact Avoids.pure _ _ hrs
    · exact hnx _ _ hrs

/-- A disk with an empty directory in cluster 2, the last one of its chain. -/
def lastCluster : BlockDev where
  blockSize := 512
  data := fun block _=>if block=32 then 0xFF else fatLastEntry

theorem lastCluster_read : fatRead (smallVolume 1) 2 0 (32 : ℕ) lastCluster=.ok (32, List.replicate 32 0) lastCluster := by
  rfl

end

section

/-- A disk of unused records, whose FAT links cluster 2 to itself. -/
def cyclic : BlockDev where
  blockSize := 512
  data := fun block x=>if block=32 then (if x=8 then 2 else 0) else fatUnusedEntry

theorem cyclic_chain (n : ℕ) : Chain (smallVolume 1) cyclic (List.replicate n 2) where
  data := by
    intro c hc
    rw [List.eq_of_mem_replicate hc]
    exact ⟨by decide,by decide,by decide⟩
  linked := by
    have hn : nextCluster (smallVolume 1) cyclic 2=2 := by decide
    exact List.isChain_replicate_of_rel n hn

theorem cyclic_read (off : ℕ) (hoff : off%512+32≤512) :
    Returns (fatRead (smallVolume 1) 2 off (32 : ℕ)) cyclic (fun x t =>
      x=(32, List.replicate 32 fatUnusedEntry) ∧ t=cyclic) := by
  have hvl : Volume (smallVolume 1) cyclic := smallVolume_volume rfl (by decide) (by decide)
  have hch := cyclic_chain (off/512+1)
  have hln : (2::List.replicate (off/512) 2).length=off/512+1 := by simp
  have hby : (smallVolume 1).bytesPerCluster=512 := rfl
  have hsc : (smallVolume 1).bytesPerSector=512 := rfl
  apply (fatRead_consecutive hvl hch (by decide) (by decide) (by rw [hln,hby]; omega)
    (by rw [hby,hsc]; omega) ?_ (contiguous_within _ hoff)).mono
  · rintro x t ⟨rfl,rfl⟩
    have hun : ∀ block x, sectorStream (smallVolume 1) cyclic (block*1+100) x=fatUnusedEntry := by
      intro block x
      have hbl : block*1+100+x/512≠32 := by omega
      exact if_neg hbl
    refine ⟨?_,rfl⟩
    rw [Prod.mk.injEq]
    refine ⟨rfl,List.eq_replicate_iff.mpr ⟨bytes_length _ _ _,?_⟩⟩
    intro b hb
    obtain ⟨i,-,rfl⟩ := List.mem_map.mp hb
    exact hun _ _
  · exact fun _ hF=>hF.elim
  · rw [hby,hsc]
    simp only [smallVolume]
    omega

end

end Yaos2.Fat
