import Mathlib.Tactic.IntervalCases

/-! # Accessors of the PCI configuration space -/

namespace Yaos2.Pci

/-- The bytes of every function, by bus, device, function and offset. -/
abbrev Config := BitVec 8 → BitVec 5 → BitVec 3 → BitVec 8 → BitVec 8

def Config.set (c : Config) (bus : BitVec 8) (dev : BitVec 5) (func : BitVec 3) (o x : BitVec 8) : Config :=
  fun bus' dev' func' o'=>if (bus',dev',func',o')=(bus,dev,func,o) then x else c bus' dev' func' o'

/-- What each accessor writes to `PCI_ADDRESS_PORT` first. -/
def configAddress (bus dev func offset : BitVec 8) : BitVec 32 :=
  bus.setWidth 32 <<< 16 ||| dev.setWidth 32 <<< 11 ||| func.setWidth 32 <<< 8 |||
    (offset &&& 0xfc).setWidth 32 ||| 0x80000000

def word (b₀ b₁ : BitVec 8) : BitVec 16 := b₀.setWidth 16 ||| b₁.setWidth 16 <<< 8

def dword (b₀ b₁ b₂ b₃ : BitVec 8) : BitVec 32 := (word b₀ b₁).setWidth 32 ||| (word b₂ b₃).setWidth 32 <<< 16

/-- `pio_inl (PCI_DATA_PORT)`, with this address in the address port. -/
def Config.inl (c : Config) (address : BitVec 32) : BitVec 32 :=
  let f := c (address.extractLsb' 16 8) (address.extractLsb' 11 5) (address.extractLsb' 8 3)
  let r := address.setWidth 8 &&& 0xfc
  dword (f r) (f (r+1)) (f (r+2)) (f (r+3))

/-- `pio_outl (PCI_DATA_PORT, value)`, with this address in the address port. -/
def Config.outl (c : Config) (address value : BitVec 32) : Config := fun bus dev func offset =>
  if (bus,dev,func,offset &&& 0xfc)=(address.extractLsb' 16 8,address.extractLsb' 11 5,
      address.extractLsb' 8 3,address.setWidth 8 &&& 0xfc) then
    value.extractLsb' (8*(offset &&& 3).toNat) 8
  else c bus dev func offset

section

variable (c : Config) (bus dev func offset : BitVec 8)

-- The variable that takes the double word is an `uint16_t`.
def configReadDword : BitVec 32 := ((c.inl (configAddress bus dev func offset)).setWidth 16).setWidth 32

def configReadWord : BitVec 16 :=
  (c.inl (configAddress bus dev func offset) >>> ((offset &&& 2).toNat*8) &&& 0xffff).setWidth 16

def configReadByte : BitVec 8 :=
  (c.inl (configAddress bus dev func offset) >>> ((offset &&& 2).toNat*8) &&& 0xff).setWidth 8

def configWriteByte (value : BitVec 8) : Config :=
  let shift := (offset &&& 2).toNat*8
  let tmp := c.inl (configAddress bus dev func offset) &&& ~~~((0xff : BitVec 32) <<< shift)
  c.outl (configAddress bus dev func offset) (tmp ||| value.setWidth 32 <<< shift)

def configIsValid : Bool := configReadWord c bus dev func 0 != 0xffff
end

section

variable {c : Config} {bus : BitVec 8} {dev : BitVec 5} {func : BitVec 3} {o : BitVec 8}

theorem configAddress_bus :
    (configAddress bus (dev.setWidth 8) (func.setWidth 8) o).extractLsb' 16 8=bus := by
  ext i hi
  interval_cases i <;> simp [configAddress]

theorem configAddress_dev :
    (configAddress bus (dev.setWidth 8) (func.setWidth 8) o).extractLsb' 11 5=dev := by
  ext i hi
  interval_cases i <;> simp [configAddress]

theorem configAddress_func :
    (configAddress bus (dev.setWidth 8) (func.setWidth 8) o).extractLsb' 8 3=func := by
  ext i hi
  interval_cases i <;> simp [configAddress]

theorem configAddress_offset :
    (configAddress bus (dev.setWidth 8) (func.setWidth 8) o).setWidth 8=o &&& 0xfc := by
  ext i hi
  interval_cases i <;> simp [configAddress]

theorem inl_configAddress : c.inl (configAddress bus (dev.setWidth 8) (func.setWidth 8) o) =
    dword (c bus dev func (o &&& 0xfc)) (c bus dev func ((o &&& 0xfc)+1))
      (c bus dev func ((o &&& 0xfc)+2)) (c bus dev func ((o &&& 0xfc)+3)) := by
  have hm : o &&& 0xfc &&& 0xfc=o &&& 0xfc := by rw [BitVec.and_assoc,BitVec.and_self]
  rw [Config.inl,configAddress_bus,configAddress_dev,configAddress_func,configAddress_offset,hm]

theorem half_cases (o : BitVec 8) : o &&& 2=0 ∧ o &&& 0xfe=o &&& 0xfc ∧ (o &&& 0xfe)+1=(o &&& 0xfc)+1 ∨
      o &&& 2=2 ∧ o &&& 0xfe=(o &&& 0xfc)+2 ∧ (o &&& 0xfe)+1=(o &&& 0xfc)+3 := by
  revert o
  decide +kernel

theorem configReadByte_eq : configReadByte c bus (dev.setWidth 8) (func.setWidth 8) o =
    c bus dev func (o &&& 0xfe) := by
  rw [configReadByte,inl_configAddress]
  obtain ⟨hhl,he,-⟩ | ⟨hhl,he,-⟩ := half_cases o <;> rw [hhl,he] <;> ext i hi <;>
    interval_cases i <;> simp [dword,word]

theorem configReadWord_eq : configReadWord c bus (dev.setWidth 8) (func.setWidth 8) o =
    word (c bus dev func (o &&& 0xfe)) (c bus dev func ((o &&& 0xfe)+1)) := by
  rw [configReadWord,inl_configAddress]
  obtain ⟨hhl,he,hodd⟩ | ⟨hhl,he,hodd⟩ := half_cases o <;> rw [hhl,hodd,he] <;> ext i hi <;>
    interval_cases i <;> simp [dword,word]

theorem configReadDword_eq : configReadDword c bus (dev.setWidth 8) (func.setWidth 8) o =
    dword (c bus dev func (o &&& 0xfc)) (c bus dev func ((o &&& 0xfc)+1)) 0 0 := by
  rw [configReadDword,inl_configAddress]
  ext i hi
  interval_cases i <;> simp [dword,word]

section

variable (b₀ b₁ b₂ b₃ x : BitVec 8)

theorem dword_byte : (dword b₀ b₁ b₂ b₃).extractLsb' 0 8=b₀ ∧ (dword b₀ b₁ b₂ b₃).extractLsb' 8 8=b₁ ∧
    (dword b₀ b₁ b₂ b₃).extractLsb' 16 8=b₂ ∧ (dword b₀ b₁ b₂ b₃).extractLsb' 24 8=b₃ := by
  refine ⟨?_,?_,?_,?_⟩ <;> ext i hi <;> interval_cases i <;> simp [dword,word]

theorem dword_insert : dword b₀ b₁ b₂ b₃ &&& ~~~((0xff : BitVec 32) <<< 0) ||| x.setWidth 32 <<< 0=dword x b₁ b₂ b₃ ∧
    dword b₀ b₁ b₂ b₃ &&& ~~~((0xff : BitVec 32) <<< 16) ||| x.setWidth 32 <<< 16=dword b₀ b₁ x b₃ := by
  constructor <;> ext i hi <;> interval_cases i <;> simp [dword,word]
end

theorem byte_cases (o : BitVec 8) : o &&& 3=0 ∧ o=o &&& 0xfc ∨ o &&& 3=1 ∧ o=(o &&& 0xfc)+1 ∨
    o &&& 3=2 ∧ o=(o &&& 0xfc)+2 ∨ o &&& 3=3 ∧ o=(o &&& 0xfc)+3 := by
  revert o
  decide +kernel

theorem written_byte {f : BitVec 8 → BitVec 8} {o' x : BitVec 8} (h : o' &&& 0xfc=o &&& 0xfc) :
    (dword (f (o &&& 0xfc)) (f ((o &&& 0xfc)+1)) (f ((o &&& 0xfc)+2)) (f ((o &&& 0xfc)+3)) &&&
        ~~~((0xff : BitVec 32) <<< ((o &&& 2).toNat*8)) ||| x.setWidth 32 <<< ((o &&& 2).toNat*8)).extractLsb'
      (8*(o' &&& 3).toNat) 8=if o'=o &&& 0xfe then x else f o' := by
  have hk := byte_cases o'
  rw [h] at hk
  obtain ⟨hhl,he,-⟩ | ⟨hhl,he,-⟩ := half_cases o <;> rw [hhl,he]
  · rw [show (0 : BitVec 8).toNat*8=0 from rfl,(dword_insert _ _ _ _ x).1]
    obtain ⟨hk,rfl⟩ | ⟨hk,rfl⟩ | ⟨hk,rfl⟩ | ⟨hk,rfl⟩ := hk <;> rw [hk] <;> simp [dword_byte]
  · rw [show (2 : BitVec 8).toNat*8=16 from rfl,(dword_insert _ _ _ _ x).2]
    obtain ⟨hk,rfl⟩ | ⟨hk,rfl⟩ | ⟨hk,rfl⟩ | ⟨hk,rfl⟩ := hk <;> rw [hk] <;> simp [dword_byte]

theorem configWriteByte_eq (x : BitVec 8) : configWriteByte c bus (dev.setWidth 8) (func.setWidth 8) o x =
    c.set bus dev func (o &&& 0xfe) x := by
  funext bus' dev' func' o'
  have hm : (o &&& 0xfe) &&& 0xfc=o &&& 0xfc := by rw [BitVec.and_assoc]; rfl
  rw [configWriteByte,inl_configAddress,Config.outl,Config.set,configAddress_bus,configAddress_dev,
    configAddress_func,configAddress_offset,BitVec.and_assoc,BitVec.and_self]
  simp only [Prod.mk.injEq]
  split_ifs with hreg hb hb
  · obtain ⟨rfl,rfl,rfl,hreg⟩ := hreg
    rw [written_byte hreg,if_pos hb.2.2.2]
  · obtain ⟨rfl,rfl,rfl,hreg⟩ := hreg
    rw [written_byte hreg,if_neg fun h=>hb ⟨rfl,rfl,rfl,h⟩]
  · obtain ⟨rfl,rfl,rfl,rfl⟩ := hb
    exact absurd ⟨rfl,rfl,rfl,hm⟩ hreg
  · rfl

/-- The accessors return the bytes `f` at the offset `o`, in each width that `o` is aligned for. -/
structure ReadsExact (c : Config) (bus : BitVec 8) (dev : BitVec 5) (func : BitVec 3) (f : BitVec 8 → BitVec 8)
    (o : BitVec 8) : Prop where
  byte : configReadByte c bus (dev.setWidth 8) (func.setWidth 8) o=f o
  word : o &&& 1=0 → configReadWord c bus (dev.setWidth 8) (func.setWidth 8) o=word (f o) (f (o+1))
  dword : o &&& 3=0 → configReadDword c bus (dev.setWidth 8) (func.setWidth 8) o =
    dword (f o) (f (o+1)) (f (o+2)) (f (o+3))

/-- The bytes for which it does not matter how the accessors read them at `o`. -/
def Readable (f : BitVec 8 → BitVec 8) (o : BitVec 8) : Prop :=
  (o &&& 1=1 → f (o-1)=f o) ∧ (o &&& 3=0 → f (o+2)=0 ∧ f (o+3)=0)

theorem parity_cases (o : BitVec 8) : o &&& 1=0 ∧ o &&& 0xfe=o ∧ o &&& 1≠1 ∨
    o &&& 1=1 ∧ o &&& 0xfe=o-1 ∧ o &&& 1≠0 ∧ o &&& 3≠0 := by
  revert o
  decide +kernel

theorem readsExact_iff : ReadsExact c bus dev func (c bus dev func) o ↔ Readable (c bus dev func) o := by
  have hqd : o &&& 3=0 → o &&& 0xfc=o := by revert o; decide +kernel
  constructor
  · rintro ⟨hby,-,hdw⟩
    refine ⟨fun hodd=>?_,fun h=>?_⟩
    · obtain ⟨-,-,h⟩ | ⟨-,hev,-⟩ := parity_cases o
      · exact absurd hodd h
      · rw [← hby,configReadByte_eq,hev]
    · have heq := hdw h
      rw [configReadDword_eq,hqd h] at heq
      obtain ⟨-,-,h2,h3⟩ := dword_byte (c bus dev func o) (c bus dev func (o+1)) 0 0
      rw [heq,(dword_byte _ _ _ _).2.2.1] at h2
      rw [heq,(dword_byte _ _ _ _).2.2.2] at h3
      exact ⟨h2,h3⟩
  · rintro ⟨hodd,hhg⟩
    refine ⟨?_,fun h=>?_,fun h=>?_⟩
    · obtain ⟨-,hev,-⟩ | ⟨h,hev,-⟩ := parity_cases o
      · rw [configReadByte_eq,hev]
      · rw [configReadByte_eq,hev,hodd h]
    · obtain ⟨-,hev,-⟩ | ⟨-,-,hne,-⟩ := parity_cases o
      · rw [configReadWord_eq,hev]
      · exact absurd h hne
    · rw [configReadDword_eq,hqd h,(hhg h).1,(hhg h).2]

theorem configWriteByte_iff :
    configWriteByte c bus (dev.setWidth 8) (func.setWidth 8) o x=c.set bus dev func o x ↔
      (o &&& 1=1 → c bus dev func (o-1)=x ∧ c bus dev func o=x) := by
  rw [configWriteByte_eq]
  obtain ⟨-,he,hne⟩ | ⟨hodd,he,-⟩ := parity_cases o <;> rw [he]
  · exact iff_of_true rfl fun h=>absurd h hne
  · have hne : o-1≠o := by revert o; decide +kernel
    constructor
    · intro h _
      have hb := congrFun (congrFun (congrFun (congrFun h bus) dev) func) (o-1)
      have hat := congrFun (congrFun (congrFun (congrFun h bus) dev) func) o
      simp only [Config.set,if_true,Prod.mk.injEq,true_and,hne,hne.symm,if_false] at hb hat
      exact ⟨hb.symm,hat⟩
    · intro h
      obtain ⟨hb,hat⟩ := h hodd
      funext bus' dev' func' o'
      simp only [Config.set,Prod.mk.injEq]
      split_ifs with h1 h2 h2
      · rfl
      · obtain ⟨rfl,rfl,rfl,rfl⟩ := h1
        exact hb.symm
      · obtain ⟨rfl,rfl,rfl,rfl⟩ := h2
        exact hat
      · rfl

/-- Reads are exact for even bytes, for words, and for double words with a zero upper half; writes are
for even bytes. -/
theorem configSpace_exact_iff (c : Config) (bus : BitVec 8) (dev : BitVec 5) (func : BitVec 3) (o o' x : BitVec 8) :
    (ReadsExact c bus dev func (c bus dev func) o ↔ Readable (c bus dev func) o) ∧
    (configWriteByte c bus (dev.setWidth 8) (func.setWidth 8) o x=c.set bus dev func o x ↔
      (o &&& 1=1 → c bus dev func (o-1)=x ∧ c bus dev func o=x)) ∧
    (configWriteByte c bus (dev.setWidth 8) (func.setWidth 8) o x=c.set bus dev func o x →
      (ReadsExact (configWriteByte c bus (dev.setWidth 8) (func.setWidth 8) o x) bus dev func
        (c.set bus dev func o x bus dev func) o' ↔ Readable (c.set bus dev func o x bus dev func) o')) :=
  ⟨readsExact_iff,configWriteByte_iff,fun h=>h▸readsExact_iff⟩

/-- Byte `0x3d` is read as the one below, a double word lacks its upper half, and a byte is written to the
wrong place. -/
theorem configSpace_inexact : let c : Config := fun _ _ _ o=>o
    configReadByte c 0 0 0 0x3d=0x3c ∧ configReadDword c 0 0 0 0x10=0x1110 ∧
    configWriteByte c 0 0 0 0x3d 0 0 0 0 0x3c=0 ∧ configWriteByte c 0 0 0 0x3d 0 0 0 0 0x3d=0x3d := by
  decide +kernel
end

end Yaos2.Pci
