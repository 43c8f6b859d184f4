import Yaos2.Block.Mbr
import Yaos2.Foundation.Tally
import Yaos2.Foundation.Transition

/-! # The block cache of the generic ATA driver

A thread is whoever is between the beginning of `lock` and the end of `unlock`; one that locks several
blocks counts once for each. There are fewer than a counter can hold, since every thread has a stack of
its own in the 32-bit address space. A call that panics has no step. -/
namespace Yaos2.Block
open Foundation Function
set_option linter.unusedSectionVars false

def genAtaCacheSize : ℕ := 20
def uintMax : ℕ := 2^32-1

/-- `struct block`. A mutex is its holder; a zero-filled one is free. -/
structure CacheBlock (T : Type) where
  drive : ℕ
  num : ℕ
  ref : ℕ
  hit : ℕ
  mutex : Option T
  isValid : Bool
  data : Mem

/-- How far a thread is between `lock` and `unlock`. -/
inductive Stage
  /-- It waits for the mutex of the slot. -/
  | chosen
  /-- `lock` has returned. -/
  | inside
  /-- `read` or `write` has loaded the sector and goes on. -/
  | loaded
  /-- `unlock` has released the mutex. -/
  | leaving
  deriving DecidableEq

/-- A slot with the drive and the block that were asked for. -/
structure Visit where
  slot : Fin genAtaCacheSize
  drive : ℕ
  num : ℕ
  stage : Stage

abbrev Slots (T : Type) := Fin genAtaCacheSize → CacheBlock T

structure CacheState (T : Type) where
  blocks : Slots T
  visit : T → Option Visit
  disk : ℕ → ℕ → Mem

def findBlock {T : Type} (blocks : Slots T) (drive num : ℕ) : Option (Fin genAtaCacheSize) :=
  (List.finRange genAtaCacheSize).find? (fun i=>(blocks i).num=num ∧ (blocks i).drive=drive)

/-- The unreferenced slot that has the lowest hit rate. -/
def leastHit {T : Type} (blocks : Slots T) : Option (Fin genAtaCacheSize) :=
  ((List.finRange genAtaCacheSize).foldl (fun (least : ℕ × Option (Fin genAtaCacheSize)) i =>
    if (blocks i).ref=0 ∧ (blocks i).hit<least.1 then ((blocks i).hit, some i) else least) (uintMax, none)).2

section
variable {T : Type} [DecidableEq T]

def CacheBlock.hitAgain (b : CacheBlock T) : CacheBlock T :=
  {b with ref := (b.ref+1)%2^32, hit := (b.hit+1)%2^32}

def CacheBlock.assigned (drive num : ℕ) : CacheBlock T where
  drive := drive
  num := num
  ref := 1
  hit := 1
  mutex := none
  isValid := false
  data := fun _=>0

/-- What `gen_ata_bd_lock` does under the spinlock of the cache; `none` when the cache is full. -/
def chooseSlot (blocks : Slots T) (drive num : ℕ) : Option (Fin genAtaCacheSize × Slots T) :=
  match findBlock blocks drive num with
  | some i => some (i, update blocks i (blocks i).hitAgain)
  | none =>
    match leastHit blocks with
    | some i => if (blocks i).ref=0 then some (i, update blocks i (.assigned drive num)) else none
    | none => none

/-- What a thread does in one step; nobody looks at `ok`, and `ata_pio_write` never succeeds as it
stands. -/
inductive CacheEvent (T : Type)
  | choose (t : T) (drive num : ℕ)
  | acquire (t : T)
  | load (t : T) (ok : Bool)
  | read (t : T) (off len : ℕ) (result : List UInt8)
  | write (t : T) (off : ℕ) (src : List UInt8) (ok : Bool)
  | release (t : T)
  | giveBack (t : T)

namespace CacheState

/-- Replace the slot of a visit, and go on with it. -/
def go (s : CacheState T) (t : T) (v : Visit) (stage : Stage) (b : CacheBlock T) : CacheState T :=
  {s with
    blocks := update s.blocks v.slot b
    visit := update s.visit t (some {v with stage := stage})}

/-- The checks at the beginning of `read`, `write` and `unlock` pass. -/
structure Holds (s : CacheState T) (t : T) (v : Visit) : Prop where
  visit : s.visit t=some v
  mutex : (s.blocks v.slot).mutex=some t
  drive : (s.blocks v.slot).drive=v.drive

/-- The sector is there: it had been loaded before, or has just been. -/
def Ready (s : CacheState T) (v : Visit) : Prop :=
  v.stage=.inside ∧ (s.blocks v.slot).isValid=true ∨ v.stage=.loaded
end CacheState

inductive CacheStep : CacheState T → CacheEvent T → CacheState T → Prop
  | choose {s : CacheState T} {t : T} {drive num : ℕ} {i : Fin genAtaCacheSize} {bs : Slots T} :
      s.visit t=none → chooseSlot s.blocks drive num=some (i, bs) →
      CacheStep s (.choose t drive num)
        {s with blocks := bs, visit := update s.visit t (some ⟨i,drive,num,.chosen⟩)}
  | acquire {s : CacheState T} {t : T} {v : Visit} : s.visit t=some v → v.stage=.chosen →
      (s.blocks v.slot).mutex=none →
      CacheStep s (.acquire t) (s.go t v .inside {s.blocks v.slot with mutex := some t})
  | load {s : CacheState T} {t : T} {v : Visit} {ok : Bool} : s.Holds t v → v.stage=.inside →
      (s.blocks v.slot).isValid=false →
      CacheStep s (.load t ok) (s.go t v .loaded {s.blocks v.slot with
        data := if ok then s.disk v.drive (s.blocks v.slot).num else (s.blocks v.slot).data})
  | readNone {s : CacheState T} {t : T} {v : Visit} {off : ℕ} : s.Holds t v → v.stage=.inside →
      CacheStep s (.read t off 0 []) s
  | read {s : CacheState T} {t : T} {v : Visit} {off len : ℕ} : s.Holds t v → s.Ready v → len≠0 →
      off < ideSectorSize → (off+len)%2^32 ≤ ideSectorSize →
      CacheStep s (.read t off len (bytes (s.blocks v.slot).data off len))
        (s.go t v .inside {s.blocks v.slot with isValid := true})
  | writeNone {s : CacheState T} {t : T} {v : Visit} {off : ℕ} {ok : Bool} : s.Holds t v → v.stage=.inside →
      CacheStep s (.write t off [] ok) s
  | write {s : CacheState T} {t : T} {v : Visit} {off : ℕ} {src : List UInt8} {ok : Bool} : s.Holds t v →
      s.Ready v → src≠[] → off < ideSectorSize → (off+src.length)%2^32 ≤ ideSectorSize →
      CacheStep s (.write t off src ok)
        {s.go t v .inside {s.blocks v.slot with
            isValid := true, data := blit (s.blocks v.slot).data off src} with
          disk := if ok then update s.disk v.drive (update (s.disk v.drive)
            (s.blocks v.slot).num (blit (s.blocks v.slot).data off src)) else s.disk}
  | release {s : CacheState T} {t : T} {v : Visit} : s.Holds t v → v.stage=.inside →
      CacheStep s (.release t) (s.go t v .leaving {s.blocks v.slot with mutex := none})
  | giveBack {s : CacheState T} {t : T} {v : Visit} : s.visit t=some v → v.stage=.leaving →
      CacheStep s (.giveBack t)
        {s with
          blocks := update s.blocks v.slot {s.blocks v.slot with
            ref := ((s.blocks v.slot).ref+2^32-1)%2^32}
          visit := update s.visit t none}
end

section
variable {T : Type} [DecidableEq T] [Fintype T] {s s' : CacheState T} {t u : T} {v w : Visit} {e : CacheEvent T}
  {i j : Fin genAtaCacheSize} {bs : Slots T} {drive num : ℕ}

def CacheBlock.key (b : CacheBlock T) : ℕ × ℕ := (b.drive, b.num)

def Stage.Inside (stage : Stage) : Prop := stage=.inside ∨ stage=.loaded

instance (stage : Stage) : Decidable stage.Inside := inferInstanceAs (Decidable (_ ∨ _))

namespace CacheState

def slots (s : CacheState T) (t : T) : Option (Fin genAtaCacheSize) := (s.visit t).map Visit.slot

/-- Of the slots that have one block, only the first is in use or has ever been. -/
structure Inv (s : CacheState T) : Prop where
  first : ∀ i j, i<j → (s.blocks i).key=(s.blocks j).key → (s.blocks j).ref=0 ∧ (s.blocks j).isValid=false
  ref : ∀ i, (s.blocks i).ref=tally s.slots i
  key : ∀ t v, s.visit t=some v → (s.blocks v.slot).drive=v.drive ∧ (s.blocks v.slot).num=v.num
  mutex : ∀ t i, (s.blocks i).mutex=some t ↔ ∃ v, s.visit t=some v ∧ v.slot=i ∧ v.stage.Inside
  valid : ∀ i, (s.blocks i).isValid=true → (s.blocks i).data=s.disk (s.blocks i).drive (s.blocks i).num
  loaded : ∀ t v, s.visit t=some v → v.stage=.loaded → (s.blocks v.slot).data=s.disk v.drive v.num

theorem slots_of_visit (h : s.visit t=some v) : s.slots t=some v.slot := by
  rw [slots,h]
  rfl

theorem Inv.ref_pos (h : s.Inv) (hv : s.visit t=some v) : 0<(s.blocks v.slot).ref := by
  rw [h.ref]
  exact tally_pos (slots_of_visit hv)

theorem Inv.alone (h : s.Inv) (hi : 0<(s.blocks i).ref) (hne : j≠i) (hkey : (s.blocks j).key=(s.blocks i).key) :
    (s.blocks j).ref=0 ∧ (s.blocks j).isValid=false := by
  rcases lt_or_gt_of_ne hne with hlt | hlt
  · exact absurd (h.first j i hlt hkey).1 hi.ne'
  · exact h.first i j hlt hkey.symm

section
variable {b : CacheBlock T} {stage : Stage} {disk : ℕ → ℕ → Mem}

@[simp] theorem go_blocks_self (s : CacheState T) (t : T) (v : Visit) (stage : Stage) (b : CacheBlock T) :
    (s.go t v stage b).blocks v.slot=b := update_self ..

theorem go_blocks_of_ne (h : j≠v.slot) : (s.go t v stage b).blocks j=s.blocks j := update_of_ne h ..

@[simp] theorem go_visit_self (s : CacheState T) (t : T) (v : Visit) (stage : Stage) (b : CacheBlock T) :
    (s.go t v stage b).visit t=some {v with stage := stage} := update_self ..

theorem go_visit_of_ne (h : u≠t) : (s.go t v stage b).visit u=s.visit u := update_of_ne h ..

theorem go_slots (hv : s.visit t=some v) : (s.go t v stage b).slots=s.slots := by
  funext u
  by_cases hu : u=t
  · simp_all [slots]
  · rw [slots,go_visit_of_ne hu,slots]

theorem Inv.go_mutex (h : s.Inv) (hv : s.visit t=some v) (hal : ∀ u, u≠t → (s.blocks v.slot).mutex≠some u)
    (hmt : b.mutex=if stage.Inside then some t else none) (u : T) (i : Fin genAtaCacheSize) :
    ((s.go t v stage b).blocks i).mutex=some u ↔
      ∃ w, (s.go t v stage b).visit u=some w ∧ w.slot=i ∧ w.stage.Inside := by
  by_cases hu : u=t
  · subst hu
    have hvs : (∃ w, (s.go u v stage b).visit u=some w ∧ w.slot=i ∧ w.stage.Inside) ↔
        v.slot=i ∧ stage.Inside := by
      rw [go_visit_self]
      simp
    rw [hvs]
    by_cases hi : i=v.slot
    · simp_all
    · simp [go_blocks_of_ne hi,h.mutex u i,hv,ne_comm.mp hi]
  · rw [go_visit_of_ne hu,← h.mutex u i]
    by_cases hi : i=v.slot
    · subst hi
      rw [go_blocks_self,hmt]
      have hnot : (if stage.Inside then some t else none)≠some u := by
        split
        · exact fun he=>hu (Option.some.inj he).symm
        · exact fun he=>nomatch he
      exact iff_of_false hnot (hal u hu)
    · rw [go_blocks_of_ne hi]

theorem Inv.within (h : s.Inv) (hv : s.visit t=some v)
    (hfl : b.drive=v.drive ∧ b.num=v.num ∧ b.ref=(s.blocks v.slot).ref)
    (hal : ∀ u, u≠t → (s.blocks v.slot).mutex≠some u)
    (hmt : b.mutex=if stage.Inside then some t else none)
    (hds : ∀ d n, (d, n)≠(v.drive, v.num) → disk d n=s.disk d n)
    (hdt : b.isValid=true ∨ stage=.loaded → b.data=disk v.drive v.num) :
    Inv {s.go t v stage b with disk := disk} := by
  obtain ⟨hdr,hnum,href⟩ := hfl
  obtain ⟨hdr',hnum'⟩ := h.key t v hv
  have hpos := h.ref_pos hv
  have hkey : b.key=(s.blocks v.slot).key := by simp only [CacheBlock.key,hdr,hnum,hdr',hnum']
  have hbl : ∀ j, ((s.go t v stage b).blocks j).key=(s.blocks j).key ∧
      ((s.go t v stage b).blocks j).ref=(s.blocks j).ref := by
    intro j
    by_cases hj : j=v.slot
    · simp_all
    · simp [go_blocks_of_ne hj]
  -- another slot that is in use or valid has another block, which the disk keeps
  have hot : ∀ j, j≠v.slot → 0<(s.blocks j).ref ∨ (s.blocks j).isValid=true →
      disk (s.blocks j).drive (s.blocks j).num=s.disk (s.blocks j).drive (s.blocks j).num := by
    intro j hj huse
    refine hds _ _ (fun he=>?_)
    have hal := h.alone hpos hj (he.trans (by rw [CacheBlock.key,hdr',hnum']))
    rcases huse with huse | huse
    · exact huse.ne' hal.1
    · rw [hal.2] at huse
      cases huse
  refine ⟨fun i j hij he=>?_,fun i=>?_,fun u w hw=>?_,fun u i=>?_,fun i hi=>?_,fun u w hw hst=>?_⟩
  · change ((s.go t v stage b).blocks i).key=((s.go t v stage b).blocks j).key at he
    change ((s.go t v stage b).blocks j).ref=0 ∧ ((s.go t v stage b).blocks j).isValid=false
    rw [(hbl i).1,(hbl j).1] at he
    obtain ⟨hzr,hiv⟩ := h.first i j hij he
    have hj : j≠v.slot := by
      rintro rfl
      exact hpos.ne' hzr
    rw [go_blocks_of_ne hj]
    exact ⟨hzr,hiv⟩
  · change ((s.go t v stage b).blocks i).ref=tally (s.go t v stage b).slots i
    rw [(hbl i).2,go_slots hv,h.ref]
  · change (s.go t v stage b).visit u=some w at hw
    change ((s.go t v stage b).blocks w.slot).drive=w.drive ∧ ((s.go t v stage b).blocks w.slot).num=w.num
    have hk := (hbl w.slot).1
    simp only [CacheBlock.key,Prod.mk.injEq] at hk
    rw [hk.1,hk.2]
    by_cases hu : u=t
    · subst hu
      rw [go_visit_self] at hw
      obtain rfl := Option.some.inj hw
      exact ⟨hdr',hnum'⟩
    · rw [go_visit_of_ne hu] at hw
      exact h.key u w hw
  · exact h.go_mutex hv hal hmt u i
  · change ((s.go t v stage b).blocks i).data =
      disk ((s.go t v stage b).blocks i).drive ((s.go t v stage b).blocks i).num
    change ((s.go t v stage b).blocks i).isValid=true at hi
    by_cases hv' : i=v.slot
    · subst hv'
      rw [go_blocks_self] at hi ⊢
      rw [hdt (.inl hi),hdr,hnum]
    · rw [go_blocks_of_ne hv'] at hi ⊢
      rw [h.valid i hi,hot i hv' (.inr hi)]
  · change (s.go t v stage b).visit u=some w at hw
    change ((s.go t v stage b).blocks w.slot).data=disk w.drive w.num
    by_cases hu : u=t
    · subst hu
      rw [go_visit_self] at hw
      obtain rfl := Option.some.inj hw
      rw [go_blocks_self]
      exact hdt (.inr hst)
    · rw [go_visit_of_ne hu] at hw
      have hin := (h.mutex u w.slot).mpr ⟨w,hw,rfl,.inr hst⟩
      have hsl : w.slot≠v.slot := by
        intro he
        rw [he] at hin
        exact hal u hu hin
      obtain ⟨hd,hn⟩ := h.key u w hw
      have hsm := hot w.slot hsl (.inl (h.ref_pos hw))
      rw [hd,hn] at hsm
      rw [go_blocks_of_ne hsl,hsm]
      exact h.loaded u w hw hst
end

section
variable {b : CacheBlock T}

theorem Inv.mutex_of_ref (h : s.Inv) (hi : (s.blocks i).ref=0) : (s.blocks i).mutex=none := by
  cases hm : (s.blocks i).mutex with
  | none => rfl
  | some u =>
    obtain ⟨w,hw,rfl,-⟩ := (h.mutex u i).mp hm
    exact absurd hi (h.ref_pos hw).ne'

theorem Inv.enter (h : s.Inv) (ht : s.visit t=none) (hkey : b.drive=drive ∧ b.num=num)
    (href : b.ref=(s.blocks i).ref+1) (hmt : b.mutex=(s.blocks i).mutex)
    (hvl : b.isValid=true → b.data=s.disk drive num)
    (hsm : 0<(s.blocks i).ref →
      (s.blocks i).drive=b.drive ∧ (s.blocks i).num=b.num ∧ (s.blocks i).data=b.data)
    (hfr : ∀ j, j < i → (s.blocks j).key≠(drive, num))
    (hlt : ∀ j, i<j → (s.blocks j).key=(drive, num) → (s.blocks j).ref=0 ∧ (s.blocks j).isValid=false) :
    Inv {s with
      blocks := update s.blocks i b
      visit := update s.visit t (some ⟨i,drive,num,.chosen⟩)} := by
  have hsl : CacheState.slots {s with
      blocks := update s.blocks i b
      visit := update s.visit t (some ⟨i,drive,num,.chosen⟩)}=update s.slots t (some i) := by
    funext u
    by_cases hu : u=t
    · simp_all [slots]
    · simp [slots,hu]
  have hnn : s.slots t=none := by simp [slots,ht]
  -- what a thread that was there before relies on
  have hkp : ∀ u w, s.visit u=some w → (update s.blocks i b w.slot).drive=(s.blocks w.slot).drive ∧
      (update s.blocks i b w.slot).num=(s.blocks w.slot).num ∧
      (update s.blocks i b w.slot).data=(s.blocks w.slot).data := by
    intro u w hw
    by_cases hi : w.slot=i
    · subst hi
      rw [update_self]
      obtain ⟨hd,hn,hdt⟩ := hsm (h.ref_pos hw)
      exact ⟨hd.symm,hn.symm,hdt.symm⟩
    · simp [update_of_ne hi]
  have hnew : b.key=(drive, num) := by rw [CacheBlock.key,hkey.1,hkey.2]
  refine ⟨fun k j hkj he=>?_,fun j=>?_,fun u w hw=>?_,fun u j=>?_,fun j hj=>?_,fun u w hw hst=>?_⟩
  · simp only at he ⊢
    by_cases hj : j=i
    · subst hj
      rw [update_self,update_of_ne hkj.ne,hnew] at he
      exact absurd he (hfr k hkj)
    · rw [update_of_ne hj] at he ⊢
      by_cases hk : k=i
      · subst hk
        rw [update_self,hnew] at he
        exact hlt j hkj he.symm
      · rw [update_of_ne hk] at he
        exact h.first k j hkj he
  · rw [hsl]
    by_cases hj : j=i
    · subst hj
      rw [tally_update_take (by rw [hnn]; simp),← h.ref]
      simpa using href
    · rw [tally_update_of_ne (by rw [hnn]; simp) (by simpa using Ne.symm hj),← h.ref]
      simp [hj]
  · simp only at hw ⊢
    by_cases hu : u=t
    · subst hu
      rw [update_self] at hw
      obtain rfl := Option.some.inj hw
      simpa using hkey
    · rw [update_of_ne hu] at hw
      obtain ⟨hd,hn,-⟩ := hkp u w hw
      rw [hd,hn]
      exact h.key u w hw
  · have hm : (update s.blocks i b j).mutex=(s.blocks j).mutex := by
      by_cases hj : j=i
      · subst hj
        rw [update_self,hmt]
      · rw [update_of_ne hj]
    simp only [hm,h.mutex u j]
    by_cases hu : u=t
    · subst hu
      simp [ht,Stage.Inside]
    · rw [update_of_ne hu]
  · simp only at hj ⊢
    by_cases hi : j=i
    · subst hi
      rw [update_self] at hj ⊢
      rw [hkey.1,hkey.2,hvl hj]
    · rw [update_of_ne hi] at hj ⊢
      exact h.valid j hj
  · simp only at hw ⊢
    by_cases hu : u=t
    · subst hu
      rw [update_self] at hw
      obtain rfl := Option.some.inj hw
      cases hst
    · rw [update_of_ne hu] at hw
      rw [(hkp u w hw).2.2]
      exact h.loaded u w hw hst
end

theorem Inv.giveBack (h : s.Inv) (hT : Fintype.card T<2^32) (hv : s.visit t=some v)
    (hsg : v.stage=.leaving) :
    Inv {s with
      blocks := update s.blocks v.slot {s.blocks v.slot with
        ref := ((s.blocks v.slot).ref+2^32-1)%2^32}
      visit := update s.visit t none} := by
  have hpos := h.ref_pos hv
  have hlt : (s.blocks v.slot).ref<2^32 := by
    rw [h.ref]
    exact (tally_le_card _ _).trans_lt hT
  have hdec : ((s.blocks v.slot).ref+2^32-1)%2^32=(s.blocks v.slot).ref-1 := by omega
  rw [hdec]
  have hsl : CacheState.slots {s with
      blocks := update s.blocks v.slot {s.blocks v.slot with ref := (s.blocks v.slot).ref-1}
      visit := update s.visit t none}=update s.slots t none := by
    funext u
    by_cases hu : u=t
    · simp_all [slots]
    · simp [slots,hu]
  -- all but the counter of the slot is as before
  have hkp : ∀ (β : Type) (g : CacheBlock T → β), (∀ c n, g {c with ref := n}=g c) → ∀ j,
      g (update s.blocks v.slot {s.blocks v.slot with ref := (s.blocks v.slot).ref-1} j) =
        g (s.blocks j) := by
    intro β g hg j
    by_cases hj : j=v.slot
    · simp_all
    · rw [update_of_ne hj]
  have hvs : ∀ u w, update s.visit t none u=some w → u≠t ∧ s.visit u=some w := by
    intro u w hw
    by_cases hu : u=t
    · subst hu
      simp at hw
    · rw [update_of_ne hu] at hw
      exact ⟨hu,hw⟩
  refine ⟨fun k j hkj he=>?_,fun j=>?_,fun u w hw=>?_,fun u j=>?_,fun j hj=>?_,fun u w hw hst=>?_⟩
  · simp only at he ⊢
    rw [hkp _ CacheBlock.key (fun _ _=>rfl),hkp _ CacheBlock.key (fun _ _=>rfl)] at he
    obtain ⟨hzr,hin⟩ := h.first k j hkj he
    have hj : j≠v.slot := by
      rintro rfl
      exact hpos.ne' hzr
    rw [update_of_ne hj]
    exact ⟨hzr,hin⟩
  · rw [hsl]
    by_cases hj : j=v.slot
    · subst hj
      have hdr := tally_update_drop (x := none) (slots_of_visit hv) (by simp)
      rw [← h.ref] at hdr
      simp only [update_self]
      omega
    · rw [tally_update_of_ne (by rw [slots_of_visit hv]; simpa using Ne.symm hj) (by simp),← h.ref]
      simp [hj]
  · obtain ⟨-,hw⟩ := hvs u w hw
    simp only
    rw [hkp _ CacheBlock.drive (fun _ _=>rfl),hkp _ CacheBlock.num (fun _ _=>rfl)]
    exact h.key u w hw
  · simp only
    rw [hkp _ CacheBlock.mutex (fun _ _=>rfl),h.mutex u j]
    by_cases hu : u=t
    · subst hu
      simp [hv,hsg,Stage.Inside]
    · rw [update_of_ne hu]
  · simp only at hj ⊢
    rw [hkp _ CacheBlock.isValid (fun _ _=>rfl)] at hj
    rw [hkp _ CacheBlock.data (fun _ _=>rfl),hkp _ CacheBlock.drive (fun _ _=>rfl),
      hkp _ CacheBlock.num (fun _ _=>rfl)]
    exact h.valid j hj
  · obtain ⟨-,hw⟩ := hvs u w hw
    simp only
    rw [hkp _ CacheBlock.data (fun _ _=>rfl)]
    exact h.loaded u w hw hst
end CacheState

section

theorem findBlock_some (h : findBlock (T := T) bs drive num=some i) :
    (bs i).key=(drive, num) ∧ ∀ j, j < i → (bs j).key≠(drive, num) := by
  obtain ⟨hi,k,hk,hki,hbf⟩ := List.find?_eq_some_iff_getElem.mp h
  rw [List.getElem_finRange] at hki
  have hi' := of_decide_eq_true hi
  refine ⟨by rw [CacheBlock.key,hi'.1,hi'.2],fun j hj he=>?_⟩
  have hjk : (j : ℕ)<k := by rwa [← hki] at hj
  have hnot := hbf j hjk
  simp only [CacheBlock.key,Prod.mk.injEq] at he
  simp [he.1,he.2] at hnot

theorem findBlock_none (h : findBlock (T := T) bs drive num=none) (j : Fin genAtaCacheSize) :
    (bs j).key≠(drive, num) := by
  intro he
  have hnot := List.find?_eq_none.mp h j (List.mem_finRange j)
  simp only [CacheBlock.key,Prod.mk.injEq] at he
  simp [he.1,he.2] at hnot

theorem chooseSlot_cases (h : chooseSlot bs drive num=some (i, bs')) :
    (bs i).key=(drive, num) ∧ (∀ j, j < i → (bs j).key≠(drive, num)) ∧ bs'=update bs i (bs i).hitAgain ∨
      (∀ j, (bs j).key≠(drive, num)) ∧ (bs i).ref=0 ∧ bs'=update bs i (.assigned drive num) := by
  rw [chooseSlot] at h
  cases hf : findBlock bs drive num with
  | some k =>
    rw [hf] at h
    obtain ⟨rfl,rfl⟩ := Prod.mk.inj (Option.some.inj h)
    obtain ⟨hkey,hb⟩ := findBlock_some hf
    exact .inl ⟨hkey,hb,rfl⟩
  | none =>
    rw [hf] at h
    cases hl : leastHit bs with
    | none =>
      rw [hl] at h
      cases h
    | some k =>
      rw [hl] at h
      simp only at h
      split at h
      case isTrue href =>
        obtain ⟨rfl,rfl⟩ := Prod.mk.inj (Option.some.inj h)
        exact .inr ⟨findBlock_none hf,href,rfl⟩
      case isFalse => cases h

theorem CacheState.Inv.choose (h : s.Inv) (hT : Fintype.card T<2^32) (ht : s.visit t=none)
    (hsl : chooseSlot s.blocks drive num=some (i, bs')) :
    CacheState.Inv {s with blocks := bs', visit := update s.visit t (some ⟨i,drive,num,.chosen⟩)} := by
  rcases chooseSlot_cases hsl with ⟨hkey,hbf,rfl⟩ | ⟨hnew,href,rfl⟩
  · have hkey' := hkey
    simp only [CacheBlock.key,Prod.mk.injEq] at hkey'
    -- the thread itself does not visit a slot yet
    have hlt : (s.blocks i).ref+1<2^32 := by
      have htk := tally_update_take (f := s.slots) (t := t) (i := i) (by simp [CacheState.slots,ht])
      have hle := tally_le_card (update s.slots t (some i)) i
      rw [h.ref]
      omega
    refine h.enter ht hkey' (Nat.mod_eq_of_lt hlt) rfl (fun hv=>?_) (fun _=>⟨rfl,rfl,rfl⟩) hbf
      (fun j hj he=>h.first i j hj (hkey.trans he.symm))
    have hdt := h.valid i hv
    rwa [hkey'.1,hkey'.2] at hdt
  · refine h.enter ht ⟨rfl,rfl⟩ ?_ (h.mutex_of_ref href).symm (fun hv=>nomatch hv) (fun hpos=>?_)
      (fun j _=>hnew j) (fun j _ he=>absurd he (hnew j))
    · rw [href]
      rfl
    · omega
end

def CacheEvent.Succeeds : CacheEvent T → Prop
  | .load _ ok => ok=true
  | .write _ _ _ ok => ok=true
  | _ => True

namespace CacheState

theorem Holds.alone (h : s.Holds t v) (u : T) (hu : u≠t) : (s.blocks v.slot).mutex≠some u := by
  rw [h.mutex]
  exact fun he=>hu (Option.some.inj he).symm

theorem Inv.data_of_ready (h : s.Inv) (hold : s.Holds t v) (hr : s.Ready v) :
    (s.blocks v.slot).data=s.disk v.drive v.num := by
  obtain ⟨hd,hn⟩ := h.key t v hold.visit
  rcases hr with ⟨-,hv⟩ | hl
  · rw [h.valid _ hv,hd,hn]
  · exact h.loaded t v hold.visit hl
end CacheState

theorem update_sector_of_ne {d n d' n' : ℕ} (h : (d, n)≠(d', n')) :
    update disk d' (update (disk d') n' m) d n=disk d n := by
  by_cases hd : d=d' <;> simp_all

theorem CacheStep.inv (hsp : CacheStep s e s') (he : e.Succeeds) (hT : Fintype.card T<2^32) (h : s.Inv) :
    s'.Inv := by
  cases hsp with
  | choose ht hsl => exact h.choose hT ht hsl
  | @acquire t v hv hst hmt =>
    obtain ⟨hd,hn⟩ := h.key t v hv
    refine h.within hv ⟨hd,hn,rfl⟩ (fun u _=>by rw [hmt]; exact fun he=>nomatch he) rfl
      (fun _ _ _=>rfl) (fun hc=>?_)
    rcases hc with hvl | hld
    · have hdt := h.valid _ hvl
      rwa [hd,hn] at hdt
    · cases hld
  | @load t v ok hold hst hvl =>
    obtain rfl : ok=true := he
    obtain ⟨hd,hn⟩ := h.key t v hold.visit
    refine h.within hold.visit ⟨hd,hn,rfl⟩ hold.alone hold.mutex (fun _ _ _=>rfl) (fun _=>?_)
    rw [if_pos rfl,hn]
  | readNone => exact h
  | @read t v off len hold hrd =>
    obtain ⟨hd,hn⟩ := h.key t v hold.visit
    exact h.within hold.visit ⟨hd,hn,rfl⟩ hold.alone hold.mutex (fun _ _ _=>rfl)
      (fun _=>h.data_of_ready hold hrd)
  | writeNone => exact h
  | @write t v off src ok hold hrd =>
    obtain rfl : ok=true := he
    obtain ⟨hd,hn⟩ := h.key t v hold.visit
    refine h.within hold.visit ⟨hd,hn,rfl⟩ hold.alone hold.mutex (fun d n hne=>?_) (fun _=>?_)
    · rw [if_pos rfl,hn,update_sector_of_ne hne]
    · rw [if_pos rfl,hn,update_self,update_self]
  | @release t v hold hst =>
    obtain ⟨hd,hn⟩ := h.key t v hold.visit
    refine h.within hold.visit ⟨hd,hn,rfl⟩ hold.alone rfl (fun _ _ _=>rfl) (fun hc=>?_)
    rcases hc with hvl | hld
    · have hdt := h.valid _ hvl
      rwa [hd,hn] at hdt
    · cases hld
  | giveBack hv hst => exact h.giveBack hT hv hst

/-- The cache as `ata_gen_install` leaves it: zero-filled. -/
structure CacheStart (s : CacheState T) : Prop where
  blocks : ∀ i, s.blocks i=⟨0,0,0,0,none,false,fun _=>0⟩
  visit : ∀ t, s.visit t=none

/-- Any interleaving of steps of the kind `P`. -/
def CacheRun (P : CacheEvent T → Prop) : CacheState T → CacheState T → Prop :=
  Relation.ReflTransGen (fun s s'=>∃ e, P e ∧ CacheStep s e s')

theorem CacheStart.inv (h : CacheStart s) : s.Inv := by
  have hs : ∀ t, s.slots t=none := by
    intro t
    rw [CacheState.slots,h.visit t]
    rfl
  refine ⟨fun i j _ _=>?_,fun i=>?_,fun t v hv=>?_,fun t i=>?_,fun i hi=>?_,fun t v hv=>?_⟩
  · simp [h.blocks j]
  · rw [h.blocks i,tally_eq_zero (fun t=>by rw [hs t]; simp)]
  · simp_all [h.visit t]
  · simp [h.blocks i,h.visit t]
  · simp_all [h.blocks i]
  · simp_all [h.visit t]

theorem CacheRun.inv (hrun : CacheRun CacheEvent.Succeeds s s') (hT : Fintype.card T<2^32) (h0 : CacheStart s) :
    s'.Inv :=
  Reaches.invariant (I := CacheState.Inv) hrun h0.inv (fun _ _ h ⟨_,he,hs⟩=>hs.inv he hT h)

theorem update_key (hb : b.key=(bs i).key) (j : Fin genAtaCacheSize) : (update bs i b j).key=(bs j).key := by
  by_cases hj : j=i
  · simp_all
  · rw [update_of_ne hj]

theorem CacheStep.key (hst : CacheStep s e s') (hi : 0<(s.blocks i).ref) :
    (s'.blocks i).key=(s.blocks i).key := by
  cases hst with
  | @choose t drive num k bs ht hsl =>
    rcases chooseSlot_cases hsl with ⟨-,-,rfl⟩ | ⟨-,href,rfl⟩
    · exact update_key (by simp only [CacheBlock.key,CacheBlock.hitAgain]) i
    · have hik : i≠k := by
        rintro rfl
        omega
      exact congrArg CacheBlock.key (update_of_ne hik ..)
  | acquire => exact update_key (by rfl) i
  | load => exact update_key (by rfl) i
  | readNone => rfl
  | read => exact update_key (by rfl) i
  | writeNone => rfl
  | write => exact update_key (by rfl) i
  | release => exact update_key (by rfl) i
  | giveBack => exact update_key (by simp only [CacheBlock.key]) i

theorem CacheState.Inv.read (h : s.Inv) (hs : CacheStep s (.read t off len result) s') :
    ∃ v, s.visit t=some v ∧ result=bytes (s.disk v.drive v.num) off len := by
  cases hs with
  | @readNone t v off hold hst => exact ⟨v,hold.visit,rfl⟩
  | @read t v off len hold hr => exact ⟨v,hold.visit,by rw [h.data_of_ready hold hr]⟩

theorem CacheState.Holds.load (hold : s.Holds t v) (hs : v.stage=.inside)
    (hv : (s.blocks v.slot).isValid=false) (ok : Bool) :
    ∃ s₁, CacheStep s (.load t ok) s₁ ∧ s₁.Holds t {v with stage := .loaded} ∧ s₁.disk=s.disk ∧
      s₁.blocks v.slot = {s.blocks v.slot with
        data := if ok then s.disk v.drive (s.blocks v.slot).num else (s.blocks v.slot).data} := by
  refine ⟨_,.load hold hs hv,⟨?_,?_,?_⟩,rfl,?_⟩
  · rw [CacheState.go_visit_self]
  · rw [CacheState.go_blocks_self s t v]
    exact hold.mutex
  · rw [CacheState.go_blocks_self s t v]
    exact hold.drive
  · rw [CacheState.go_blocks_self s t v]

theorem CacheState.Inv.read_exists (h : s.Inv) (hv : s.visit t=some v) (hst : v.stage=.inside)
    (hlen : off+len ≤ ideSectorSize) :
    ∃ s₁ s₂, (s₁=s ∨ CacheStep s (.load t true) s₁) ∧
      CacheStep s₁ (.read t off len (bytes (s.disk v.drive v.num) off len)) s₂ := by
  have hold : s.Holds t v := ⟨hv,(h.mutex t v.slot).mpr ⟨v,hv,rfl,.inl hst⟩,(h.key t v hv).1⟩
  by_cases h0 : len=0
  · subst h0
    exact ⟨s,s,.inl rfl,.readNone hold hst⟩
  · have hmod : (off+len)%2^32 ≤ ideSectorSize := (Nat.mod_le _ _).trans hlen
    have hoff : off < ideSectorSize := by omega
    cases hvl : (s.blocks v.slot).isValid with
    | true =>
      have hrd : s.Ready v := .inl ⟨hst,hvl⟩
      rw [← h.data_of_ready hold hrd]
      exact ⟨s,_,.inl rfl,.read hold hrd h0 hoff hmod⟩
    | false =>
      obtain ⟨s₁,hld,hold',-,hbl⟩ := hold.load hst hvl true
      rw [if_pos rfl,(h.key t v hv).2] at hbl
      have hre := CacheStep.read hold' (.inr rfl) h0 hoff hmod
      rw [hbl] at hre
      exact ⟨s₁,_,.inr hld,hre⟩

/-- The drive reads as asked for, and nobody writes. -/
def CacheEvent.Reads : CacheEvent T → Prop
  | .load _ ok => ok=true
  | .write .. => False
  | _ => True

theorem CacheEvent.Reads.succeeds (h : e.Reads) : e.Succeeds := by
  cases e with
  | load => exact h
  | write => exact h.elim
  | _ => trivial

theorem CacheStep.disk (hs : CacheStep s e s') (he : e.Reads) : s'.disk=s.disk := by
  cases hs with
  | write => exact he.elim
  | _ => rfl

/-- The slots are used as they should be, and what is read is on the disk. -/
structure CacheSound (disk : ℕ → ℕ → Mem) (s : CacheState T) : Prop where
  unique : ∀ i j, 0<(s.blocks i).ref → 0<(s.blocks j).ref → (s.blocks i).key=(s.blocks j).key → i=j
  kept : ∀ e s', CacheStep s e s' → ∀ i, 0<(s.blocks i).ref → (s'.blocks i).key=(s.blocks i).key
  ref : ∀ i, (s.blocks i).ref=tally s.slots i
  single : ∀ t u v w, s.visit t=some v → s.visit u=some w → v.slot=w.slot → v.stage.Inside →
    w.stage.Inside → t=u
  read : ∀ t off len result s', CacheStep s (.read t off len result) s' → off+len ≤ ideSectorSize →
    ∃ v, s.visit t=some v ∧ result=bytes (disk v.drive v.num) off len
  readReturns : ∀ t v off len, s.visit t=some v → v.stage=.inside → off+len ≤ ideSectorSize →
    ∃ s₁ s₂, (s₁=s ∨ CacheStep s (.load t true) s₁) ∧
      CacheStep s₁ (.read t off len (bytes (disk v.drive v.num) off len)) s₂

theorem CacheState.Inv.sound (h : s.Inv) : CacheSound s.disk s where
  unique := by
    intro i j hi hj he
    by_contra hne
    exact hi.ne' (h.alone hj hne he).1
  kept := fun _ _ hst _ hi=>hst.key hi
  ref := h.ref
  single := by
    intro t u v w hv hw hsl hin hin'
    have ht := (h.mutex t v.slot).mpr ⟨v,hv,rfl,hin⟩
    have hu := (h.mutex u v.slot).mpr ⟨w,hw,hsl.symm,hin'⟩
    exact Option.some.inj (ht.symm.trans hu)
  read := fun _ _ _ _ _ hst _=>h.read hst
  readReturns := fun _ _ _ _ hv hsg hlen=>h.read_exists hv hsg hlen
end

section
variable {T : Type} [DecidableEq T] [Fintype T] {s₀ s : CacheState T}

/-- When reads succeed, every read returns the bytes of the sector that its thread has locked. -/
theorem cache_sound (hT : Fintype.card T<2^32) (h0 : CacheStart s₀) (hrun : CacheRun CacheEvent.Reads s₀ s) :
    CacheSound s₀.disk s := by
  have hinv : s.Inv ∧ s.disk=s₀.disk := by
    apply Reaches.invariant (I := fun s=>s.Inv ∧ s.disk=s₀.disk) hrun ⟨h0.inv,rfl⟩
    rintro a b ⟨ha,hds⟩ ⟨e,he,hst⟩
    exact ⟨hst.inv he.succeeds hT ha,(hst.disk he).trans hds⟩
  rw [← hinv.2]
  exact hinv.1.sound

/-- When reads and writes succeed, a valid slot has what is on the disk, and a write goes to the
disk. -/
theorem cache_valid (hT : Fintype.card T<2^32) (h0 : CacheStart s₀)
    (hrun : CacheRun CacheEvent.Succeeds s₀ s) :
    (∀ i, (s.blocks i).isValid=true → (s.blocks i).data=s.disk (s.blocks i).drive (s.blocks i).num) ∧
    (∀ t off len result s', CacheStep s (.read t off len result) s' →
      ∃ v, s.visit t=some v ∧ result=bytes (s.disk v.drive v.num) off len) ∧
    (∀ t off src s', CacheStep s (.write t off src true) s' → ∃ v, s.visit t=some v ∧
      s'.disk v.drive v.num=blit (s.disk v.drive v.num) off src ∧
      ∀ d n, (d, n)≠(v.drive, v.num) → s'.disk d n=s.disk d n) ∧
    ∀ e s', CacheStep s e s' → (∀ t off src ok, e≠.write t off src ok) → s'.disk=s.disk := by
  have hinv := hrun.inv hT h0
  refine ⟨hinv.valid,fun _ _ _ _ _ hst=>hinv.read hst,fun t off src s' hst=>?_,fun e s' hst he=>?_⟩
  · cases hst with
    | @writeNone t v off ok hold hsg => exact ⟨v,hold.visit,(blit_nil ..).symm,fun _ _ _=>rfl⟩
    | @write t v off src ok hold hrd =>
      have hnum := (hinv.key t v hold.visit).2
      refine ⟨v,hold.visit,?_,fun d n hne=>?_⟩
      · simp [hnum,hinv.data_of_ready hold hrd]
      · simp [hnum,update_sector_of_ne hne]
  · cases hst with
    | @write t v off src ok => exact absurd rfl (he t off src ok)
    | _ => rfl
end

section

/-- One drive whose sectors are filled with sevens. -/
def freshCache : CacheState Unit where
  blocks := fun _=>⟨0,0,0,0,none,false,fun _=>0⟩
  visit := fun _=>none
  disk := fun _ _ _=>7

theorem freshCache_start : CacheStart freshCache := ⟨fun _=>rfl,fun _=>rfl⟩

theorem CacheRun.mono [DecidableEq T] {s s' : CacheState T}
    (h : CacheRun P s s') (hPQ : ∀ e, P e → Q e) : CacheRun Q s s' := by
  refine Relation.ReflTransGen.mono ?_ _ _ h
  rintro a b ⟨e,he,hs⟩
  exact ⟨e,hPQ e he,hs⟩

theorem freshCache_lock : ∃ s v, CacheRun CacheEvent.Reads freshCache s ∧ s.Holds () v ∧ v.stage=.inside ∧
    (s.blocks v.slot).isValid=false ∧ (s.blocks v.slot).data=(fun _=>0) ∧ s.disk=freshCache.disk := by
  obtain ⟨i,bs,hsl,hbl⟩ : ∃ i bs, chooseSlot freshCache.blocks 0 3=some (i, bs) ∧
      bs i=.assigned 0 3 := ⟨⟨0,by decide⟩,_,rfl,rfl⟩
  have hch := CacheStep.choose (s := freshCache) (t := ()) rfl hsl
  obtain ⟨s₁,hs1⟩ : ∃ s₁, s₁ = {freshCache with
      blocks := bs, visit := update freshCache.visit () (some ⟨i,0,3,.chosen⟩)} := ⟨_,rfl⟩
  rw [← hs1] at hch
  have hvs : s₁.visit ()=some ⟨i,0,3,.chosen⟩ := by rw [hs1]; rfl
  have hbl1 : s₁.blocks i=.assigned 0 3 := by rw [hs1]; exact hbl
  have hac := CacheStep.acquire hvs rfl (by rw [hbl1]; rfl)
  have hrun : CacheRun CacheEvent.Reads freshCache s₁ := .single ⟨.choose () 0 3,trivial,hch⟩
  refine ⟨_,⟨i,0,3,.inside⟩,hrun.tail ⟨.acquire (),trivial,hac⟩,⟨?_,?_,?_⟩,rfl,?_,?_,?_⟩
  · exact CacheState.go_visit_self ..
  · rw [CacheState.go_blocks_self s₁ () ⟨i,0,3,.chosen⟩]
  · rw [CacheState.go_blocks_self s₁ () ⟨i,0,3,.chosen⟩,hbl1]
    rfl
  · rw [CacheState.go_blocks_self s₁ () ⟨i,0,3,.chosen⟩,hbl1]
    rfl
  · rw [CacheState.go_blocks_self s₁ () ⟨i,0,3,.chosen⟩,hbl1]
    rfl
  · rw [hs1]
    rfl

theorem cache_sound_inside : ∃ s v, CacheRun CacheEvent.Reads freshCache s ∧ s.visit ()=some v ∧
    v.stage=.inside ∧ CacheSound freshCache.disk s := by
  obtain ⟨s,v,hrun,hold,hs,-⟩ := freshCache_lock
  exact ⟨s,v,hrun,hold.visit,hs,cache_sound (by decide) freshCache_start hrun⟩

/-- A sector that has been loaded and read from. -/
theorem cache_valid_slot : ∃ s i, CacheRun CacheEvent.Succeeds freshCache s ∧ (s.blocks i).isValid=true ∧
    (s.blocks i).data=s.disk (s.blocks i).drive (s.blocks i).num := by
  obtain ⟨s,v,hrun,hold,hst,hvl,-⟩ := freshCache_lock
  obtain ⟨s₁,hld,hold₁,-⟩ := hold.load hst hvl true
  have hrd := CacheStep.read hold₁ (.inr rfl) four_ne_zero (by decide : 0 < ideSectorSize) (by decide)
  have hrun₁ := (hrun.mono (fun _=>CacheEvent.Reads.succeeds)).tail ⟨.load () true,rfl,hld⟩
  have hrun₂ := hrun₁.tail ⟨.read () 0 4 _,trivial,hrd⟩
  refine ⟨_,v.slot,hrun₂,?_,?_⟩
  · rw [CacheState.go_blocks_self s₁ () {v with stage := .loaded}]
  · exact (cache_valid (by decide) freshCache_start hrun₂).1 _
      (by rw [CacheState.go_blocks_self s₁ () {v with stage := .loaded}])

/-- A read that fails leaves a valid slot without the bytes of the sector, and so does a write. -/
theorem cache_invalid_slot :
    (∃ s i, CacheRun (fun e=>∀ t off src ok, e≠.write t off src ok) freshCache s ∧
      (s.blocks i).isValid=true ∧ (s.blocks i).data 0≠s.disk (s.blocks i).drive (s.blocks i).num 0) ∧
    ∃ s i, CacheRun (fun e=>∀ t ok, e=.load t ok → ok=true) freshCache s ∧
      (s.blocks i).isValid=true ∧ (s.blocks i).data 0≠s.disk (s.blocks i).drive (s.blocks i).num 0 := by
  obtain ⟨s,v,hrun,hold,hst,hvl,hdt,hds⟩ := freshCache_lock
  constructor
  · obtain ⟨s₁,hld,hold₁,hds₁,hbl₁⟩ := hold.load hst hvl false
    have hrd := CacheStep.read hold₁ (.inr rfl) four_ne_zero (by decide : 0 < ideSectorSize) (by decide)
    have hrun₁ : CacheRun (fun e=>∀ t off src ok, e≠.write t off src ok) freshCache s₁ := by
      refine (hrun.mono ?_).tail ⟨.load () false,(fun _ _ _ _ he=>nomatch he),hld⟩
      rintro _ he t off src ok rfl
      exact he
    refine ⟨_,v.slot,hrun₁.tail ⟨.read () 0 4 _,(fun _ _ _ _ he=>nomatch he),hrd⟩,?_,?_⟩
    · rw [CacheState.go_blocks_self s₁ () {v with stage := .loaded}]
    · simp [hbl₁,hdt,CacheState.go,hds₁,hds,freshCache]
  · obtain ⟨s₁,hld,hold₁,hds₁,hbl₁⟩ := hold.load hst hvl true
    have hwr : CacheStep s₁ (.write () 0 [9] false) _ :=
      .write hold₁ (.inr rfl) (by decide) (by decide) (by decide)
    have hrun₁ : CacheRun (fun e=>∀ t ok, e=.load t ok → ok=true) freshCache s₁ := by
      refine (hrun.mono ?_).tail ⟨.load () true,fun _ _ he=>by cases he; rfl,hld⟩
      rintro _ he t ok rfl
      exact he
    refine ⟨_,v.slot,hrun₁.tail ⟨.write () 0 [9] false,(fun _ _ he=>nomatch he),hwr⟩,?_,?_⟩
    · simp
    · simp [hds₁,hds,freshCache,blit]
end

end Yaos2.Block
