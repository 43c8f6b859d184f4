import Yaos2.Debug
import Yaos2.Foundation.ByteMemory

/-! # Reading sectors by port I/O -/
namespace Yaos2.Ata
open Foundation List

/-- A register that keeps the value written to it before. -/
structure Deep where
  cur : ℕ
  prev : ℕ

/-- The registers, the `READ` commands accepted so far with their first sector and number of sectors, and the
word of the disk that the data register gives next. -/
structure Device where
  secCount : Deep
  lba0 : Deep
  lba1 : Deep
  lba2 : Deep
  hdDevSel : ℕ
  control : ℕ
  accepted : List (ℕ × ℕ)
  word : ℕ

/-- The answers that the status register is going to give, and the addresses written to, with the rest. -/
structure Machine where
  device : Device
  statuses : List UInt8
  mem : Mem
  stores : List ℕ
  held : Bool

structure IdeDrive where
  present : Bool
  capabilities : ℕ
  atapi : Bool
  slave : Bool
  fcs5 : ℕ

def Deep.push (r : Deep) (v : ℕ) : Deep := ⟨v,r.cur⟩

def Device.accept (d : Device) (lba sectors : ℕ) : Device :=
  {d with accepted := d.accepted++[(lba,sectors)], word := 256*lba}

/-- A zero asks for the most sectors. -/
def orAll (n all : ℕ) : ℕ := if n=0 then all else n

theorem orAll_of_ne (h : n≠0) (all : ℕ) : orAll n all=n := if_neg h

def Device.command (d : Device) (v : ℕ) : Device :=
  if v=0x20 then
    d.accept (d.hdDevSel%16*2^24+d.lba2.cur*2^16+d.lba1.cur*2^8+d.lba0.cur) (orAll d.secCount.cur 256)
  else if v=0x24 then
    d.accept (d.lba2.prev*2^40+d.lba1.prev*2^32+d.lba0.prev*2^24+d.lba2.cur*2^16+d.lba1.cur*2^8+d.lba0.cur)
      (orAll (d.secCount.prev*2^8+d.secCount.cur) 65536)
  else d

/-- A write to the command block. -/
def Device.outb (d : Device) (reg v : ℕ) : Device :=
  match reg with
  | 2 => {d with secCount := d.secCount.push v}
  | 3 => {d with lba0 := d.lba0.push v}
  | 4 => {d with lba1 := d.lba1.push v}
  | 5 => {d with lba2 := d.lba2.push v}
  | 6 => {d with hdDevSel := v}
  | 7 => d.command v
  | _ => d

def assertHeld : Exec Machine Unit := do kassert "thread_mutex_held(&(cp->mutex))" (← get).held

def registerWrite (reg value : ℕ) : Exec Machine Unit := do
  assertHeld
  if reg≤0x07 then modify (fun s=>{s with device := s.device.outb reg (value%256)})
  else if 0x08≤reg ∧ reg≤0x0f then modify (fun s=>{s with device := {s.device with control := value%256}})
  else return

def readStatus : Exec Machine UInt8 := do
  assertHeld
  match (← get).statuses with
  | [] => abort "no answer"
  | s::rest =>
    modify (fun t=>{t with statuses := rest})
    return s

def waitLoop (mask want : UInt8) : List UInt8 → Option (List UInt8)
  | [] => none
  | s::rest => if s &&& mask≠want then waitLoop mask want rest else some rest

def waitForStatus (mask status : UInt8) : Exec Machine Unit := do
  assertHeld
  match waitLoop mask (status*mask) (← get).statuses with
  | none => abort "endless loop"
  | some rest => modify (fun t=>{t with statuses := rest})

def srBsy : UInt8 := 0x80
def srDf : UInt8 := 0x20
def srDrq : UInt8 := 0x08
def srErr : UInt8 := 0x01

def poll (readsStatus : Bool) : Exec Machine UInt8 := do
  assertHeld
  waitForStatus srBsy 0
  if readsStatus then
    let status ← readStatus
    return if status &&& srErr≠0 ∨ status &&& srDf≠0 ∨ status &&& srDrq=0 then status else 0
  else return 0

variable (disk : Mem)

/-- `ata_pio_register_read_buffer` on the data register. -/
def registerReadBuffer (buffer words : ℕ) : Exec Machine Unit := do
  assertHeld
  forRange words (fun i=>modify (fun s=>{s with
    mem := blit s.mem (buffer+2*i) (bytes disk (2*s.device.word) 2)
    stores := s.stores++[buffer+2*i,buffer+2*i+1]
    device := {s.device with word := s.device.word+1}}))

def ideSectorSize : ℕ := 512

/-- The loop over the sectors. The buffer is one of `uint16_t` when the offset is added. -/
def sectorLoop (buffer : ℕ) : ℕ → ℕ → Exec Machine UInt8
  | 0, _ => return 0
  | left+1, isector => do
    let err ← poll true
    if err≠0 then return err
    else
      waitForStatus srDrq 1
      registerReadBuffer disk (buffer+2*(isector*ideSectorSize)) (ideSectorSize/2)
      sectorLoop buffer left (isector+1)

def selection (dp : IdeDrive) : ℕ := 0xa0 ||| (if dp.slave then 1 <<< 4 else 0) ||| 1 <<< 6

/-- Select the drive and write what LBA48 needs beforehand. Returns the commands to read and to flush. -/
def select (dp : IdeDrive) (lba sectors : ℕ) : Exec Machine (ℕ × ℕ) :=
  if lba ≥ 1 <<< 28 ∨ lba+sectors ≥ 1 <<< 28 ∨ sectors ≥ 1 <<< 8 then do
    registerWrite 0x06 (selection dp)
    registerWrite 0x0c (0x80 ||| 0x02 ||| 0x08)
    waitForStatus srBsy 0
    kassert "dp->fcs5 & ATA_FCS5_BIT_LBA48" (dp.fcs5.testBit 10)
    registerWrite 0x02 (sectors >>> 8)
    registerWrite 0x03 (lba >>> 24)
    registerWrite 0x04 (lba >>> 32)
    registerWrite 0x05 (lba >>> 40)
    return (0x24,0xea)
  else do
    registerWrite 0x06 (selection dp ||| ((lba >>> 24)%256 &&& 0x0f))
    registerWrite 0x0c (0x02 ||| 0x08)
    waitForStatus srBsy 0
    return (0x20,0xe7)

/-- Everything up to the command to read. Returns the one to flush. -/
def sendRead (dp : IdeDrive) (lba sectors : ℕ) : Exec Machine ℕ := do
  waitForStatus (srBsy ||| srDrq) 0
  let commands ← select dp lba sectors
  registerWrite 0x02 sectors
  registerWrite 0x03 lba
  registerWrite 0x04 (lba >>> 8)
  registerWrite 0x05 (lba >>> 16)
  waitForStatus srBsy 0
  registerWrite 0x07 commands.1
  return commands.2

def erUnsup : UInt8 := 0xff

def ataPioRead (dp : IdeDrive) (lba sectors buffer : ℕ) : Exec Machine UInt8 := do
  if dp.present=false ∨ dp.capabilities.testBit 9=false ∨ dp.atapi=true then return erUnsup
  else
    assertHeld
    let flushCommand ← sendRead dp lba sectors
    let err ← sectorLoop disk buffer sectors 0
    if err≠0 then return err
    else
      waitForStatus srBsy 0
      registerWrite 0x07 flushCommand
      let _ ← poll false
      return 0

section
variable {s : Machine} {Q : Unit → Machine → Prop} {reg value : ℕ}

theorem wp_assertHeld (h : Q () s) : Ensures assertHeld s Q (fun _=>True) := by
  simp only [assertHeld,wp_bind,wp_get,wp_kassert_iff]
  split_ifs
  all_goals simp [h]

theorem wp_registerWrite (hr : reg≤7) (h : Q () {s with device := s.device.outb reg (value%256)}) :
    Ensures (registerWrite reg value) s Q (fun _=>True) := by
  rw [registerWrite,wp_bind]
  apply wp_assertHeld
  rw [if_pos hr,wp_modify]
  exact h

theorem wp_writeControl (h : Q () {s with device := {s.device with control := value%256}}) :
    Ensures (registerWrite 0x0c value) s Q (fun _=>True) := by
  rw [registerWrite,wp_bind]
  apply wp_assertHeld
  rw [if_neg (by decide),if_pos (by decide),wp_modify]
  exact h

theorem wp_waitForStatus (h : ∀ rest, Q () {s with statuses := rest}) :
    Ensures (waitForStatus mask status) s Q (fun _=>True) := by
  rw [waitForStatus,wp_bind]
  apply wp_assertHeld
  rw [wp_bind,wp_get]
  split
  · rw [wp_abort]
    trivial
  · rw [wp_modify]
    exact h _

theorem wp_poll {Q : UInt8 → Machine → Prop} (h : ∀ x rest, Q x {s with statuses := rest}) :
    Ensures (poll b) s Q (fun _=>True) := by
  rw [poll,wp_bind]
  apply wp_assertHeld
  rw [wp_bind]
  apply wp_waitForStatus
  intro rest
  cases b with
  | false =>
    rw [if_neg (by decide),wp_pure]
    exact h 0 rest
  | true =>
    rw [if_pos rfl,readStatus,wp_bind,wp_bind]
    apply wp_assertHeld
    rw [wp_bind,wp_get]
    split
    · rw [wp_abort]
      trivial
    · simp only [wp_bind,wp_modify,wp_pure]
      exact h _ _

theorem selection_or (dp : IdeDrive) (lba : ℕ) : (selection dp ||| (lba%256 &&& 0x0f))%16=lba%16 := by
  have h : ∀ (b : Bool) (x : Fin 16), (0xa0 ||| (if b then 1 <<< 4 else 0) ||| 1 <<< 6 ||| x.val)%16=x.val := by
    decide
  have hx : lba%256 &&& 0x0f=lba%16 := by
    rw [show 0x0f=2^4-1 by rfl,Nat.and_two_pow_sub_one_eq_mod]
    omega
  rw [hx]
  exact h dp.slave ⟨lba%16,Nat.mod_lt _ (by decide)⟩

theorem sendRead_spec (dp : IdeDrive) (hlba : lba<2^48) (h1 : 1 ≤ sectors) (h2 : sectors≤65535) :
    Ensures (sendRead dp lba sectors) s (fun flush t=>flush%256≠0x20 ∧ flush%256≠0x24 ∧
      t.device.accepted=s.device.accepted++[(lba,sectors)] ∧ t.device.word=256*lba ∧ t.mem=s.mem ∧
      t.stores=s.stores) (fun _=>True) := by
  have hc : orAll (sectors/256%256*256+sectors%256) 65536=sectors :=
    (orAll_of_ne (by omega) _).trans (by omega)
  have hl : lba/1099511627776%256*1099511627776+lba/4294967296%256*4294967296+
      lba/16777216%256*16777216+lba/65536%256*65536+lba/256%256*256+lba%256=lba := by
    clear hc
    omega
  rw [sendRead,wp_bind]
  apply wp_waitForStatus
  intro rest
  rw [wp_bind,select]
  refine Ensures.ite (fun h=>?_) (fun h=>?_)
  · simp only [wp_bind,wp_pure]
    apply wp_registerWrite (by decide)
    apply wp_writeControl
    apply wp_waitForStatus
    intro rest
    rw [wp_kassert_iff]
    split_ifs
    iterate 8 apply wp_registerWrite (by decide)
    apply wp_waitForStatus
    intro rest
    apply wp_registerWrite (by decide)
    simp [Device.outb,Device.command,Device.accept,Deep.push,Nat.shiftRight_eq_div_pow,hl,hc]
  · simp only [wp_bind,wp_pure]
    apply wp_registerWrite (by decide)
    apply wp_writeControl
    apply wp_waitForStatus
    intro rest
    iterate 4 apply wp_registerWrite (by decide)
    apply wp_waitForStatus
    intro rest
    apply wp_registerWrite (by decide)
    rw [Nat.one_shiftLeft,Nat.one_shiftLeft] at h
    clear hc hl
    have hl : (selection dp ||| (lba/16777216%256 &&& 15))%16*16777216+lba/65536%256*65536+
        lba/256%256*256+lba%256=lba := by
      rw [selection_or]
      omega
    have hc : orAll (sectors%256) 256=sectors := (orAll_of_ne (by omega) _).trans (by omega)
    simp [Device.outb,Device.command,Device.accept,Deep.push,Nat.shiftRight_eq_div_pow,hl,hc]

/-- The addresses written to since are those with the property. -/
def Writes (s t : Machine) (P : ℕ → Prop) : Prop := ∀ x, x ∈ t.stores ↔ x ∈ s.stores ∨ P x

theorem registerReadBuffer_spec (disk : Mem) (buffer words : ℕ) :
    Ensures (registerReadBuffer disk buffer words) s (fun _ t =>
      (∀ j<2*words, t.mem (buffer+j)=disk (2*s.device.word+j)) ∧
      (∀ x, x<buffer ∨ buffer+2*words≤x → t.mem x=s.mem x) ∧
      Writes s t (fun x=>buffer≤x ∧ x<buffer+2*words) ∧
      t.device = {s.device with word := s.device.word+words}) (fun _=>True) := by
  rw [registerReadBuffer,wp_bind]
  apply wp_assertHeld
  apply Ensures.forRange (I := fun k (t : Machine)=>(∀ j<2*k, t.mem (buffer+j)=disk (2*s.device.word+j)) ∧
      (∀ x, x<buffer ∨ buffer+2*k≤x → t.mem x=s.mem x) ∧
      Writes s t (fun x=>buffer≤x ∧ x<buffer+2*k) ∧ t.device = {s.device with word := s.device.word+k})
  · refine ⟨fun j hj=>absurd hj (by omega),fun _ _=>rfl,fun x=>?_,rfl⟩
    rw [or_iff_left (by omega)]
  · rintro k t hk ⟨hin,hout,hw,hdev⟩
    rw [wp_modify]
    refine ⟨fun j hj=>?_,fun x hx=>?_,fun x=>?_,by simp [hdev,add_assoc]⟩
    · by_cases hj' : j<2*k
      · exact (blit_outside (by omega)).trans (hin j hj')
      · obtain ⟨i,rfl⟩ := Nat.exists_eq_add_of_le (Nat.not_lt.mp hj')
        dsimp only
        rw [hdev,← Nat.add_assoc,blit_bytes_inside (by omega),mul_add,add_assoc]
    · exact (blit_outside (by simp; omega)).trans (hout x (by omega))
    · have hx : buffer≤x ∧ x<buffer+2*(k+1) ↔
          (buffer≤x ∧ x<buffer+2*k) ∨ x=buffer+2*k ∨ x=buffer+2*k+1 := by omega
      dsimp only
      rw [mem_append,hw x,mem_cons,mem_singleton,hx,or_assoc]

theorem sectorLoop_spec (disk : Mem) (buffer left k : ℕ) :
    Ensures (sectorLoop disk buffer left k) s (fun err t=>err=0 →
      (∀ i<left, ∀ j<512, t.mem (buffer+1024*(k+i)+j)=disk (2*(s.device.word+256*i)+j)) ∧
      (∀ x<buffer+1024*k, t.mem x=s.mem x) ∧
      Writes s t (fun x=>∃ i<left, buffer+1024*(k+i)≤x ∧ x<buffer+1024*(k+i)+512) ∧
      t.device.accepted=s.device.accepted) (fun _=>True) := by
  induction left generalizing s k with
  | zero =>
    rw [sectorLoop,wp_pure]
    exact fun _=>⟨fun i hi=>absurd hi (Nat.not_lt_zero i),fun _ _=>rfl,fun x=>by simp,rfl⟩
  | succ left ih =>
    rw [sectorLoop,wp_bind]
    apply wp_poll
    intro err rest
    refine Ensures.ite (fun h=>?_) (fun _=>?_)
    · rw [wp_pure]
      exact fun h0=>absurd h0 h
    rw [wp_bind]
    apply wp_waitForStatus
    intro rest
    rw [wp_bind]
    apply (registerReadBuffer_spec disk _ _).imp
    rintro - t ⟨hin,hout,hw,hdev⟩
    apply (ih (k+1)).imp
    intro err u hu h0
    obtain ⟨hin',hout',hw',hacc⟩ := hu h0
    simp only [ideSectorSize] at hin hout hw hdev
    refine ⟨fun i hi j hj=>?_,fun x hx=>?_,fun x=>?_,?_⟩
    · rcases i with _ | i
      · rw [hout' _ (by omega),add_zero,show buffer+1024*k+j=buffer+2*(k*512)+j by omega,hin j (by omega)]
        rfl
      · have hnx := hin' i (by omega) j hj
        rw [hdev,show k+1+i=k+(i+1) by omega] at hnx
        exact hnx.trans (congrArg disk (by dsimp only; omega))
    · rw [hout' x (by omega),hout x (by omega)]
    · have hsh : ∀ i, k+1+i=k+(i+1) := fun i=>by omega
      rw [hw' x,hw x]
      dsimp only
      rw [Nat.exists_lt_succ_left,or_assoc,show buffer+1024*(k+0)=buffer+2*(k*512) by omega]
      simp only [hsh]
    · rw [hacc,hdev]
end

/-- The sectors are in the buffer one after the other, and nothing else was written to. -/
def Layout (disk : Mem) (lba sectors buffer : ℕ) (t : Machine) : Prop :=
  (∀ i<sectors, bytes t.mem (buffer+512*i) 512=bytes disk (512*(lba+i)) 512) ∧
    ∀ x ∈ t.stores, buffer≤x ∧ x<buffer+512*sectors

theorem ataPioRead_spec (disk : Mem) (dp : IdeDrive) (hlba : lba<2^48) (h1 : 1 ≤ sectors) (h2 : sectors≤65535) :
    Ensures (ataPioRead disk dp lba sectors buffer) s (fun err t=>err=0 →
      t.device.accepted=s.device.accepted++[(lba,sectors)] ∧
      (∀ i<sectors, bytes t.mem (buffer+1024*i) 512=bytes disk (512*(lba+i)) 512) ∧
      Writes s t (fun x=>∃ i<sectors, buffer+1024*i≤x ∧ x<buffer+1024*i+512)) (fun _=>True) := by
  rw [ataPioRead]
  refine Ensures.ite (fun _=>?_) (fun _=>?_)
  · rw [wp_pure]
    exact fun h=>absurd h (by decide)
  rw [wp_bind]
  apply wp_assertHeld
  rw [wp_bind]
  apply (sendRead_spec dp hlba h1 h2).imp
  rintro flush t ⟨hf,hf',hacc,hwr,hmem,hst⟩
  rw [wp_bind]
  apply (sectorLoop_spec disk buffer sectors 0).imp
  intro err u hu
  refine Ensures.ite (fun h=>?_) (fun h=>?_)
  · rw [wp_pure]
    exact fun h0=>absurd h0 h
  obtain ⟨hin,-,hw,hacc'⟩ := hu (not_not.mp h)
  simp only [wp_bind]
  apply wp_waitForStatus
  intro rest
  apply wp_registerWrite (by decide)
  apply wp_poll
  intro x rest
  rw [wp_pure]
  rintro -
  refine ⟨?_,fun i hi=>bytes_shift (fun j hj=>?_),fun x=>?_⟩
  · simp only [Device.outb,Device.command,if_neg hf,if_neg hf']
    rw [hacc',hacc]
  · have hj := hin i hi j hj
    rw [hwr,zero_add] at hj
    exact hj.trans (congrArg disk (by omega))
  · have hx := hw x
    rw [hst] at hx
    simpa using hx

theorem ataPioRead_layout_iff (disk : Mem) (dp : IdeDrive) {lba sectors buffer : ℕ} {s t : Machine} (hlba : lba<2^48)
    (h1 : 1 ≤ sectors) (h2 : sectors≤65535) (hs : s.stores=[]) (h : ataPioRead disk dp lba sectors buffer s=.ok 0 t) :
    t.device.accepted=s.device.accepted++[(lba,sectors)] ∧ (Layout disk lba sectors buffer t ↔ sectors=1) := by
  obtain ⟨hacc,hin,hw⟩ := (ataPioRead_spec disk dp hlba h1 h2).of_ok h rfl
  refine ⟨hacc,fun hl=>?_,?_⟩
  · -- the last sector ends behind the buffer
    have hls := (hw _).mpr (.inr ⟨sectors-1,by omega,le_refl _,by omega⟩)
    have hx := hl.2 _ hls
    omega
  · rintro rfl
    refine ⟨fun i hi=>?_,fun x hx=>?_⟩
    · obtain rfl : i=0 := by omega
      exact hin 0 hi
    · rw [hw x,hs] at hx
      obtain ⟨i,hi,hx⟩ := hx.resolve_left not_mem_nil
      omega

/-- A drive that is never busy for long. -/
def exampleDrive : IdeDrive := {present := true, capabilities := 2^9, atapi := false, slave := false, fcs5 := 0}

def exampleMachine (statuses : List UInt8) : Machine where
  device := {secCount := ⟨0,0⟩, lba0 := ⟨0,0⟩, lba1 := ⟨0,0⟩, lba2 := ⟨0,0⟩, hdDevSel := 0, control := 0, accepted := [], word := 0}
  statuses := statuses
  mem := fun _=>0
  stores := []
  held := true

theorem ataPioRead_layout_iff_one : ∃ t, ataPioRead (fun _=>1) exampleDrive 7 1 0x1000
      (exampleMachine [0x50,0x50,0x50,0x58,0x58,0x58,0x50,0x50])=.ok 0 t ∧
    t.device.accepted=[(7,1)] ∧ (Layout (fun _=>1) 7 1 0x1000 t ↔ 1=1) := by
  obtain ⟨t,ht,-⟩ : ∃ t, ataPioRead (fun _=>1) exampleDrive 7 1 0x1000
      (exampleMachine [0x50,0x50,0x50,0x58,0x58,0x58,0x50,0x50])=.ok 0 t ∧ t.held=true :=
    exists_ok_eq_of_passes (by decide +kernel)
  exact ⟨t,ht,ataPioRead_layout_iff _ _ (by decide) (by decide) (by decide) rfl ht⟩

/-- The second sector is written behind the 1024 bytes of the buffer. -/
theorem ataPioRead_two_sectors : ∃ t, ataPioRead (fun _=>1) exampleDrive 7 2 0x1000
      (exampleMachine [0x50,0x50,0x50,0x58,0x58,0x58,0x58,0x58,0x58,0x50,0x50])=.ok 0 t ∧
    0x1000+1024 ∈ t.stores ∧ ¬Layout (fun _=>1) 7 2 0x1000 t := by
  obtain ⟨t,ht,hx⟩ : ∃ t, ataPioRead (fun _=>1) exampleDrive 7 2 0x1000
      (exampleMachine [0x50,0x50,0x50,0x58,0x58,0x58,0x58,0x58,0x58,0x50,0x50])=.ok 0 t ∧ 0x1000+1024 ∈ t.stores :=
    exists_ok_eq_of_passes (by decide +kernel)
  exact ⟨t,ht,hx,fun h=>absurd (h.2 _ hx).2 (by decide)⟩

end Yaos2.Ata
