import Yaos2.Memory.Fork

/-! # Ranges of mapped memory -/
namespace Yaos2.Memory
open Foundation

variable (L : Layout)

/-- A page directory whose page tables the kernel can reach. -/
structure Directory (m : Mem) (pd : ℕ) : Prop where
  table : IsTable L pd
  entries : ∀ i<pdLength, pteGetPaddr (entryAt m pd i)=physNull ∨ IsTable L (pteGetPaddr (entryAt m pd i))

abbrev frameOf (m : Mem) (pd v : ℕ) : ℕ := pteGetPaddr (walk m pd v)

/-- The range does not wrap and its pages are mapped to frames of the allocator. -/
structure Framed (m : Mem) (pd v n : ℕ) : Prop where
  fits : v+n≤2^32
  frame : ∀ k<n, IsFrame L (frameOf m pd (v+k))

/-- No frame of the range is the directory or one of its page tables. -/
def Separate (m : Mem) (pd v n : ℕ) : Prop :=
  ∀ k<n, frameOf m pd (v+k)≠pd ∧ ∀ i<pdLength, frameOf m pd (v+k)≠pteGetPaddr (entryAt m pd i)

/-- Where the two ranges have a frame in common they have its page in common. -/
def DistinctFrames (m : Mem) (pd v n v' n' : ℕ) : Prop :=
  ∀ k<n, ∀ l<n', frameOf m pd (v+k)=frameOf m pd (v'+l) → maskToPage (v+k)=maskToPage (v'+l)

variable {L} {s t u : Machine} {m m' : Mem} {pd v v' n n' a b fuel : ℕ} {buf : List UInt8}

theorem Directory.lookup (hd : Directory L s.mem pd) (hkr : s.env.isUsingKernelPageTables L=true)
    (hv : v<2^32) : pagingGetEntry L pd v s=.ok (walk s.mem pd v) s := by
  have hret : Returns (pagingGetEntry L pd v) s (fun e t=>e=walk s.mem pd v ∧ t=s) :=
    (wp_pagingGetEntry hd.table hkr hv
      (fun e he hne=>he▸(hd.entries _ (getPdIndex_lt hv)).resolve_left (he▸hne))).mpr ⟨rfl,rfl⟩
  obtain ⟨e,t,hok,rfl,rfl⟩ := hret.exists_ok
  exact hok

theorem IsFrame.not_stops (h : IsFrame L (frameOf m pd v)) (write : Bool) : ¬ Stops L write m pd v := by
  have hoff : v%pageSize<pageSize := Nat.mod_lt v (by decide)
  rw [Stops,not_or,h.isTable.static,h.isTable.writable _ hoff]
  simp

section
variable (hd : Directory L m pd) (hf : IsFrame L f) (hpd : f≠pd)
  (htb : ∀ i<pdLength, f≠pteGetPaddr (entryAt m pd i)) (hout : ∀ x, m' x≠m x → f≤x ∧ x<f+pageSize)
include hd hf hpd htb hout
theorem Directory.same : SameOn m m' pd pageSize ∧ ∀ i<pdLength, pteGetPaddr (entryAt m pd i)≠physNull →
      SameOn m m' (pteGetPaddr (entryAt m pd i)) pageSize := by
  have hpg {q : ℕ} (hq : IsTable L q) (hne : f≠q) : SameOn m m' q pageSize := by
    intro x hx hx'
    by_contra hc
    have hin := hout x hc
    have h1 := hf.aligned
    have h2 := hq.aligned
    simp only [pageSize] at *
    omega
  exact ⟨hpg hd.table hpd,fun i hi hne=>hpg ((hd.entries i hi).resolve_left hne) (htb i hi)⟩

theorem Directory.write : Directory L m' pd ∧ (∀ i<pdLength, entryAt m' pd i=entryAt m pd i) ∧
      ∀ w<2^32, walk m' pd w=walk m pd w := by
  obtain ⟨hdir,htab⟩ := hd.same hf hpd htb hout
  have hen : ∀ i<pdLength, entryAt m' pd i=entryAt m pd i := fun i hi=>entryAt_congr hdir hi
  refine ⟨⟨hd.table,fun i hi=>?_⟩,hen,fun w hw=>?_⟩
  · rw [hen i hi]
    exact hd.entries i hi
  · have hi := getPdIndex_lt hw
    rw [walk,walk,hen _ hi]
    split
    · rfl
    · next hne => exact entryAt_congr (htab _ hi hne) (getPtIndex_lt _)
end

theorem Framed.sub (h : Framed L m pd v n) (hle : a+b≤n) : Framed L m pd (v+a) b := by
  have hf := h.fits
  refine ⟨by omega,fun k hk=>?_⟩
  rw [Nat.add_assoc]
  exact h.frame _ (by omega)

theorem Framed.congr (h : Framed L m pd v n) (hw : ∀ w<2^32, walk m' pd w=walk m pd w) :
    Framed L m' pd v n := by
  have hf := h.fits
  refine ⟨hf,fun k hk=>?_⟩
  rw [frameOf,hw _ (by omega)]
  exact h.frame k hk

theorem exchanged_frame (hlen : v%pageSize+part.length≤pageSize) (write : Bool)
    (hx : (exchanged s write v (userByte s.mem pd v) part).mem x≠s.mem x) :
    frameOf s.mem pd v≤x ∧ x<frameOf s.mem pd v+pageSize := by
  obtain ⟨h1,h2⟩ := exchanged_mem_ne hx
  rw [userByte] at h1 h2
  rw [frameOf]
  omega

/-- The machine after copies that disturb no lookup through the directory. -/
structure Lookups (L : Layout) (pd : ℕ) (s t : Machine) : Prop where
  env : t.env=s.env
  directory : Directory L t.mem pd
  entries : ∀ i<pdLength, entryAt t.mem pd i=entryAt s.mem pd i
  walks : ∀ w<2^32, walk t.mem pd w=walk s.mem pd w

theorem copies_lookups (hkr : s.env.isUsingKernelPageTables L=true) :
    Copies L pd true (Lookups L pd s) (fun w=>w<2^32 ∧ IsFrame L (frameOf s.mem pd w) ∧
      frameOf s.mem pd w≠pd ∧ ∀ i<pdLength, frameOf s.mem pd w≠pteGetPaddr (entryAt s.mem pd i)) where
  kernelTables ht := ht.env▸hkr
  lookup ht hw := ht.directory.lookup (ht.env▸hkr) hw.1
  goesOn ht hw := by
    have hfr := hw.2.1
    rw [frameOf,← ht.walks _ hw.1] at hfr
    exact hfr.not_stops true
  share ht hw hle := by
    obtain ⟨hlt,hfr,hpd,htb⟩ := hw
    rw [frameOf,← ht.walks _ hlt] at hfr hpd htb
    obtain ⟨hdir,hen,hwl⟩ := ht.directory.write hfr hpd
      (fun i hi=>ht.entries i hi▸htb i hi) (fun x hx=>exchanged_frame hle true hx)
    exact ⟨⟨ht.env,hdir,fun i hi=>(hen i hi).trans (ht.entries i hi),
      fun w hw=>(hwl w hw).trans (ht.walks w hw)⟩,hwl⟩

theorem copies_read (hk : s.env.isUsingKernelPageTables L=true) (hd : Directory L s.mem pd) :
    Copies L pd false (fun t=>t.mem=s.mem ∧ t.env=s.env)
      (fun w=>w<2^32 ∧ IsFrame L (frameOf s.mem pd w)) where
  kernelTables ht := ht.2▸hk
  lookup ht hw := (ht.1▸hd).lookup (ht.2▸hk) hw.1
  goesOn ht hw := (ht.1▸hw.2).not_stops false
  share ht _ _ := ⟨ht,fun _ _=>rfl⟩

section
variable (hkr : s.env.isUsingKernelPageTables L=true) (hd : Directory L s.mem pd)
  (hf : Framed L s.mem pd v buf.length)
include hkr hd hf
theorem vmread_framed : Returns (vmread L pd v buf) s (fun r t =>
      r=userBytes s.mem pd v buf.length ∧ t.mem=s.mem ∧ t.env=s.env) := by
  have hft := hf.fits
  simp only [vmread,vmxchg,Returns,wp_bind,wp_isUsingKernelPageTables,wp_kassert hkr]
  exact ((copies_read hkr hd).loop ⟨rfl,rfl⟩ hft (fun k hk=>⟨by omega,hf.frame k hk⟩) le_rfl).imp
    fun _ _ ht=>ht.2

theorem vmwrite_framed (hsep : Separate s.mem pd v buf.length) :
    Returns (vmwrite L pd v buf) s (fun _ t=>t.env=s.env ∧ Directory L t.mem pd ∧
      (∀ w<2^32, walk t.mem pd w=walk s.mem pd w) ∧ Written s t pd v buf) := by
  have hft := hf.fits
  simp only [vmwrite,vmxchg,Returns,wp_bind,wp_isUsingKernelPageTables,wp_kassert hkr]
  refine ((copies_lookups hkr).loop ⟨rfl,hd,fun _ _=>rfl,fun _ _=>rfl⟩ hft
    (fun k hk=>⟨by omega,hf.frame k hk,hsep k hk⟩) le_rfl).imp ?_
  exact fun _ _ ht=>⟨ht.1.env,ht.1.directory,ht.1.walks,ht.2.2⟩
end

theorem DistinctFrames.userByte_ne (h : DistinctFrames m pd v n v' n') (hk : k<n) (hl : l<n')
    (hfr : IsFrame L (frameOf m pd (v+k))) (hfr' : IsFrame L (frameOf m pd (v'+l)))
    (hne : v+k≠v'+l) : userByte m pd (v+k)≠userByte m pd (v'+l) := by
  intro hby
  have h1 := hfr.aligned
  have h2 := hfr'.aligned
  have h3 := mask_add_mod (v+k)
  have h4 := mask_add_mod (v'+l)
  rw [userByte,userByte] at hby
  have hsm : frameOf m pd (v+k)=frameOf m pd (v'+l) := by
    simp only [frameOf,pageSize] at *
    omega
  have hpg := h k hk l hl hsm
  rw [frameOf,frameOf] at hsm
  omega

/-- A machine with a directory that maps two pages, the second one by the given entry. -/
def twoPages (second : ℕ) : Machine :=
  {bootMachine .smallImage with
    mem := store (store (store (fun _=>0) 0x800000 4 0x801007) 0x801004 4 0x802007) 0x801008 4 second}

section
variable {second : ℕ} (hsecond : second=0x802007 ∨ second=0x803007)
include hsecond
theorem twoPages_entry : ∀ i<pdLength,
    entryAt (twoPages second).mem 0x800000 i=if i=0 then 0x801007 else 0 := by
  rcases hsecond with rfl | rfl <;> decide +kernel

omit hsecond in
theorem frame_smallImage (hp : p%pageSize=0) (hlo : 0x800000≤p) (hhi : p<0xC0000000) :
    IsFrame .smallImage p :=
  ⟨hp,Layout.pallocRegion_containsP.mpr ⟨hlo,hhi⟩⟩

theorem twoPages_directory : Directory .smallImage (twoPages second).mem 0x800000 where
  table := (frame_smallImage (by decide) (by decide) (by decide)).isTable
  entries := by
    intro i hi
    rw [twoPages_entry hsecond i hi]
    split
    · exact .inr (frame_smallImage (by decide) (by decide) (by decide)).isTable
    · exact .inl pteGetPaddr_zero

theorem twoPages_frameOf (hv : 0x1000≤v) (hv' : v<0x3000) :
    frameOf (twoPages second).mem 0x800000 v=if v<0x2000 then 0x802000 else pteGetPaddr second := by
  have hp : maskToPage v=maskToPage (if v<0x2000 then 0x1000 else 0x2000) := by
    simp only [maskToPage,pageSize]
    split <;> omega
  rw [frameOf,walk_page hp]
  rcases hsecond with rfl | rfl <;> split <;> decide +kernel

omit hsecond in
theorem twoPages_kernelTables : (twoPages second).env.isUsingKernelPageTables .smallImage=true :=
  beq_self_eq_true _

theorem twoPages_framed (hv : 0x1000≤v) (hn : v+n≤0x3000) :
    Framed .smallImage (twoPages second).mem 0x800000 v n := by
  refine ⟨by omega,fun k hk=>?_⟩
  rw [twoPages_frameOf hsecond (by omega) (by omega)]
  rcases hsecond with rfl | rfl <;> split <;> exact frame_smallImage (by decide) (by decide) (by decide)

theorem twoPages_separate (hv : 0x1000≤v) (hn : v+n≤0x3000) :
    Separate (twoPages second).mem 0x800000 v n := by
  intro k hk
  have hge : 0x802000≤frameOf (twoPages second).mem 0x800000 (v+k) := by
    rw [twoPages_frameOf hsecond (by omega) (by omega)]
    rcases hsecond with rfl | rfl <;> split <;> decide
  have htb : ∀ i<pdLength, pteGetPaddr (entryAt (twoPages second).mem 0x800000 i)≤0x801000 := by
    intro i hi
    rw [twoPages_entry hsecond i hi]
    split <;> decide
  exact ⟨by omega,fun i hi hc=>by have := htb i hi; omega⟩
end

theorem twoPages_distinct (hv : 0x1000≤v) (hn : v+n≤0x3000) (hv' : 0x1000≤v') (hn' : v'+n'≤0x3000) :
    DistinctFrames (twoPages 0x803007).mem 0x800000 v n v' n' := by
  intro k hk l hl hsm
  have hsecond : pteGetPaddr 0x803007=0x803000 := by decide
  rw [twoPages_frameOf (.inr rfl) (by omega) (by omega),twoPages_frameOf (.inr rfl) (by omega) (by omega),
    hsecond] at hsm
  simp only [maskToPage,pageSize]
  split at hsm <;> split at hsm <;> omega

end Yaos2.Memory
