import Mathlib.Data.Fintype.Card
import Yaos2.Drivers.PciConfig
import Yaos2.Foundation.Exec

/-! # The registry of PCI functions -/

namespace Yaos2.Pci

open Foundation List

structure PciDeviceId where
  vendorId : BitVec 16 := 0
  deviceId : BitVec 16 := 0
deriving DecidableEq

structure PciFunction (δ : Type) where
  bus : BitVec 8 := 0
  device : BitVec 8 := 0
  function : BitVec 8 := 0
  id : PciDeviceId := {}
  revision : BitVec 8 := 0
  progIf : BitVec 8 := 0
  subclass : BitVec 8 := 0
  cls : BitVec 8 := 0
  headerType : BitVec 8 := 0
  intLine : BitVec 8 := 0
  intPin : BitVec 8 := 0
  driver : Option δ := none

/-- The variables of `pci.c`, and the entries with which `driver->init` was called. -/
structure Registry (δ : Type) where
  nextPciFunction : ℕ
  pciFunctions : ℕ → PciFunction δ
  inits : List ℕ

section

variable {δ : Type} (c : Config) (bus : BitVec 8)

def valid (dev : BitVec 5) (func : BitVec 3) : Bool := configIsValid c bus (dev.setWidth 8) (func.setWidth 8)

def isMultifunction (dev : BitVec 5) : Bool := configReadByte c bus (dev.setWidth 8) 0 0x0e &&& 0x80 != 0

/-- The entry that `visit_function` fills in. -/
def describe (dev : BitVec 5) (func : BitVec 3) : PciFunction δ :=
  let byte := configReadByte c bus (dev.setWidth 8) (func.setWidth 8)
  let word := configReadWord c bus (dev.setWidth 8) (func.setWidth 8)
  { bus := bus, device := dev.setWidth 8, function := func.setWidth 8, id := ⟨word 0,word 2⟩
    revision := byte 8, progIf := byte 9, subclass := byte 0xa, cls := byte 0xb
    intLine := byte 0x3c, intPin := byte 0x3d, headerType := byte 0x0e}

def Registry.add (s : Registry δ) (f : PciFunction δ) : Registry δ :=
  {s with nextPciFunction := s.nextPciFunction+1,
           pciFunctions := Function.update s.pciFunctions s.nextPciFunction f}

def visitFunction (dev : BitVec 5) (func : BitVec 3) : Exec (Registry δ) Unit := do
  if valid c bus dev func then
    if (← get).nextPciFunction=32 then abort "register_function(): too many PCI functions"
    modify (·.add (describe c bus dev func))

def visitFunctions (dev : BitVec 5) : List (BitVec 3) → Exec (Registry δ) Unit
  | [] => pure ()
  | func::rest => if valid c bus dev func then do
      visitFunction c bus dev func
      visitFunctions dev rest
    else pure ()

def functions : List (BitVec 3) := (List.finRange 8).map .ofFin

def visitDevice (dev : BitVec 5) : Exec (Registry δ) Unit :=
  if valid c bus dev 0 then
    if isMultifunction c bus dev then visitFunctions c bus dev functions else visitFunction c bus dev 0
  else pure ()

def visitDevices : List (BitVec 5) → Exec (Registry δ) Unit
  | [] => pure ()
  | dev::rest => do
    visitDevice c bus dev
    visitDevices rest

def devices : List (BitVec 5) := (List.finRange 32).map .ofFin

def visitBus : Exec (Registry δ) Unit := visitDevices c bus devices

/-- The buses of further host controllers. -/
def visitBuses : List (BitVec 3) → Exec (Registry δ) Unit
  | [] => pure ()
  | func::rest => if valid c 0 0 func then do
      visitBus c (func.setWidth 8)
      visitBuses rest
    else pure ()

def initPci : Exec (Registry δ) Unit := do
  modify fun s=>{s with nextPciFunction := 0, pciFunctions := fun _=>{}}
  if valid c 0 0 0 then
    visitBus c 0
    if isMultifunction c 0 0 then visitBuses c functions.tail

/-- One round of the loop of `pci_register_driver`, which goes over all entries of the array. -/
def offerDriver (driver : δ) (supported : List PciDeviceId) (i : ℕ) : Exec (Registry δ) PUnit := do
  let s ← get
  if (s.pciFunctions i).driver.isNone && supported.any (· = (s.pciFunctions i).id) then
    set {s with
      pciFunctions := Function.update s.pciFunctions i {s.pciFunctions i with driver := some driver}
      inits := s.inits++[i]}

def pciRegisterDriver (driver : δ) (supported : List PciDeviceId) : Exec (Registry δ) PUnit :=
  forRange 32 (offerDriver driver supported)

variable {c bus}

def Registry.addAll (s : Registry δ) (fs : List (PciFunction δ)) : Registry δ := fs.foldl .add s

def Registry.registered (s : Registry δ) : List (PciFunction δ) := (List.range s.nextPciFunction).map s.pciFunctions

theorem addAll_registered (s : Registry δ) (fs : List (PciFunction δ)) :
    (s.addAll fs).registered=s.registered++fs ∧
      (s.addAll fs).nextPciFunction=s.nextPciFunction+fs.length := by
  induction fs generalizing s with
  | nil => exact ⟨(append_nil _).symm,rfl⟩
  | cons f fs ih =>
    have hadd : (s.add f).registered=s.registered++[f] := by
      change (List.range (s.nextPciFunction+1)).map (Function.update s.pciFunctions s.nextPciFunction f)=_
      rw [range_succ,map_append,map_singleton,Function.update_self]
      congr 1
      exact map_congr_left fun i hi=>Function.update_of_ne (mem_range.1 hi).ne _ _
    have hs : (s.add f).nextPciFunction=s.nextPciFunction+1 := rfl
    obtain ⟨hl,hn⟩ := ih (s.add f)
    constructor
    · rw [Registry.addAll,foldl_cons,← Registry.addAll,hl,hadd,append_assoc,singleton_append]
    · rw [Registry.addAll,foldl_cons,← Registry.addAll,hn,hs,length_cons]
      omega

/-- The functions of a device that the walk comes to. -/
def found (c : Config) (bus : BitVec 8) (dev : BitVec 5) : List (BitVec 3) :=
  if valid c bus dev 0 then
    if isMultifunction c bus dev then functions.takeWhile (valid c bus dev) else [0]
  else []

theorem visitFunction_spec {dev : BitVec 5} {func : BitVec 3} {s : Registry δ} (hv : valid c bus dev func=true)
    (hs : s.nextPciFunction<32) :
    Returns (visitFunction c bus dev func) s fun _ t=>t=s.addAll [describe c bus dev func] := by
  rw [visitFunction,if_pos hv]
  simp only [Returns,wp_bind,wp_get,if_neg hs.ne,wp_modify]
  rfl

theorem visitFunctions_spec {dev : BitVec 5} (fs : List (BitVec 3)) {s : Registry δ}
    (hs : s.nextPciFunction+(fs.takeWhile (valid c bus dev)).length≤32) :
    Returns (visitFunctions c bus dev fs) s fun _ t =>
      t=s.addAll ((fs.takeWhile (valid c bus dev)).map (describe c bus dev)) := by
  induction fs generalizing s with
  | nil => exact (wp_pure ..).2 rfl
  | cons func rest ih =>
    rw [visitFunctions]
    split
    next hv =>
      rw [takeWhile_cons_of_pos hv] at hs ⊢
      rw [length_cons] at hs
      refine (visitFunction_spec hv (by omega)).bind ?_
      rintro _ _ rfl
      have hn := (addAll_registered s [describe c bus dev func]).2
      exact (ih (by rw [hn,length_singleton]; omega)).imp fun _ t ht=>ht
    next hv =>
      rw [takeWhile_cons_of_neg hv]
      exact (wp_pure ..).2 rfl

theorem visitDevice_spec {dev : BitVec 5} {s : Registry δ} (hs : s.nextPciFunction+(found c bus dev).length≤32) :
    Returns (visitDevice c bus dev) s fun _ t=>t=s.addAll ((found c bus dev).map (describe c bus dev)) := by
  rw [visitDevice]
  rw [found] at hs ⊢
  split_ifs at hs ⊢ with hv hm
  · exact visitFunctions_spec functions hs
  · exact visitFunction_spec hv hs
  · exact (wp_pure ..).2 rfl

theorem visitDevices_spec (devs : List (BitVec 5)) {s : Registry δ}
    (hs : s.nextPciFunction+(devs.flatMap fun dev=>(found c bus dev).map (dev,·)).length≤32) :
    Returns (visitDevices c bus devs) s fun _ t=>t=s.addAll
      ((devs.flatMap fun dev=>(found c bus dev).map (dev,·)).map fun a=>describe c bus a.1 a.2) := by
  induction devs generalizing s with
  | nil => exact (wp_pure ..).2 rfl
  | cons dev rest ih =>
    rw [flatMap_cons,length_append,length_map] at hs
    rw [visitDevices,flatMap_cons,map_append,map_map]
    refine (visitDevice_spec (by omega)).bind ?_
    rintro _ _ rfl
    have hn := (addAll_registered s ((found c bus dev).map (describe c bus dev))).2
    refine (ih (by rw [hn,length_map]; omega)).imp fun _ t ht=>?_
    rw [ht,Registry.addAll,Registry.addAll,Registry.addAll,foldl_append]
    rfl

/-- The vendor id is not `CFG_INVALID_VENDOR`. -/
def Present (c : Config) (bus : BitVec 8) (dev : BitVec 5) (func : BitVec 3) : Prop :=
  word (c bus dev func 0) (c bus dev func 1)≠0xffff

theorem valid_iff {dev : BitVec 5} {func : BitVec 3} : valid c bus dev func=true ↔ Present c bus dev func := by
  rw [valid,configIsValid,configReadWord_eq,bne_iff_ne]
  rfl

theorem mem_takeWhile_sorted {l : List (BitVec 3)} (hl : l.Pairwise (· < ·)) {p : BitVec 3 → Bool} {x : BitVec 3}
    (hx : x ∈ l) : x ∈ l.takeWhile p ↔ ∀ y ∈ l, y≤x → p y=true := by
  induction l with
  | nil => cases hx
  | cons a l ih =>
    obtain ⟨ha,hl⟩ := pairwise_cons.1 hl
    have hax : a≤x := by
      rcases mem_cons.1 hx with rfl | hx
      · exact BitVec.le_refl _
      · exact BitVec.le_of_lt (ha x hx)
    by_cases hp : p a=true
    · rw [takeWhile_cons_of_pos hp,mem_cons,forall_mem_cons]
      rcases mem_cons.1 hx with rfl | hx
      · refine iff_of_true (.inl rfl) ⟨fun _=>hp,fun y hy hle=>?_⟩
        exact absurd (ha y hy) (BitVec.not_lt.2 hle)
      · have hne : x≠a := fun h=>BitVec.lt_irrefl a (h▸ha x hx)
        rw [or_iff_right hne,ih hl hx]
        exact ⟨fun h=>⟨fun _=>hp,h⟩,fun h=>h.2⟩
    · rw [takeWhile_cons_of_neg hp]
      exact iff_of_false not_mem_nil fun h=>hp (h a mem_cons_self hax)

theorem mem_found {dev : BitVec 5} {func : BitVec 3} (hzr : Present c bus dev func → Present c bus dev 0)
    (hml : Present c bus dev func → func≠0 → isMultifunction c bus dev=true) :
    func ∈ found c bus dev ↔ ∀ f≤func, Present c bus dev f := by
  have hsl : (∀ f≤func, Present c bus dev f) → Present c bus dev func := fun h=>h func (BitVec.le_refl _)
  have hall : ∀ f, f ∈ functions := by decide
  rw [found]
  split_ifs with hv hm
  · rw [mem_takeWhile_sorted (by decide) (hall func)]
    exact ⟨fun h f hf=>valid_iff.1 (h f (hall f) hf),fun h f _ hf=>valid_iff.2 (h f hf)⟩
  · rw [mem_singleton]
    constructor
    · rintro rfl f hf
      obtain rfl : f=0 := by revert f; decide
      exact valid_iff.1 hv
    · intro h
      by_contra hne
      exact hm (hml (hsl h) hne)
  · exact iff_of_false not_mem_nil fun h=>hv (valid_iff.2 (hzr (hsl h)))

/-- At most 32 functions, those of every device with a function 0 that tells whether there are more, and a
host bridge with one function. -/
structure Population (c : Config) (present : Finset (BitVec 8 × BitVec 5 × BitVec 3)) : Prop where
  mem : ∀ bus dev func, (bus,dev,func) ∈ present ↔ Present c bus dev func
  card : present.card≤32
  zero : ∀ bus dev func, Present c bus dev func → Present c bus dev 0
  multi : ∀ bus dev func, Present c bus dev func → func≠0 → c bus dev 0 0x0e &&& 0x80≠0
  bridge : ∀ func, Present c 0 0 func ↔ func=0

/-- The functions of bus 0 that the walk comes to. -/
def foundOnBus (c : Config) : List (BitVec 5 × BitVec 3) :=
  devices.flatMap fun dev=>(found c 0 dev).map (dev,·)

section

variable {present : Finset (BitVec 8 × BitVec 5 × BitVec 3)} (h : Population c present)

include h
theorem mem_foundOnBus {dev : BitVec 5} {func : BitVec 3} :
    (dev,func) ∈ foundOnBus c ↔ ∀ f≤func, Present c 0 dev f := by
  have hdev : dev ∈ devices := by revert dev; decide
  rw [← mem_found (h.zero 0 dev func) fun hp hne=>?_,foundOnBus,mem_flatMap]
  · constructor
    · rintro ⟨dev',-,hmem⟩
      obtain ⟨func',hfn,heq⟩ := mem_map.1 hmem
      obtain ⟨rfl,rfl⟩ := Prod.mk.inj heq
      exact hfn
    · exact fun hmem=>⟨dev,hdev,mem_map_of_mem hmem⟩
  · rw [isMultifunction,show (0 : BitVec 8)=(0 : BitVec 3).setWidth 8 from rfl,configReadByte_eq,bne_iff_ne]
    exact h.multi 0 dev func hp hne

omit h in
theorem foundOnBus_nodup : (foundOnBus c).Nodup := by
  have hf : ∀ dev, (found c 0 dev).Nodup := by
    intro dev
    rw [found]
    split_ifs
    · exact List.Nodup.sublist (takeWhile_sublist _) (by decide)
    · exact nodup_singleton _
    · exact nodup_nil
  refine nodup_flatMap.2 ⟨fun dev _=>(hf dev).map (Prod.mk_right_injective dev),?_⟩
  refine List.Pairwise.imp ?_ (by decide : devices.Nodup)
  intro dev dev' hne a ha ha'
  obtain ⟨_,_,heq⟩ := mem_map.1 ha
  obtain ⟨_,_,heq'⟩ := mem_map.1 ha'
  exact hne (congrArg Prod.fst (heq.trans heq'.symm))

theorem foundOnBus_length : (foundOnBus c).length≤32 := by
  have hinj : Function.Injective fun a : BitVec 5 × BitVec 3=>((0 : BitVec 8),a) := Prod.mk_right_injective 0
  rw [← length_map fun a : BitVec 5 × BitVec 3=>((0 : BitVec 8),a),
    ← toFinset_card_of_nodup (foundOnBus_nodup.map hinj)]
  refine (Finset.card_le_card fun a ha=>?_).trans h.card
  obtain ⟨⟨dev,func⟩,hmem,rfl⟩ := mem_map.1 (mem_toFinset.1 ha)
  exact (h.mem 0 dev func).2 ((mem_foundOnBus h).1 hmem func (BitVec.le_refl _))

theorem initPci_spec (s : Registry δ) : Returns (initPci c) s fun _ t =>
    t.registered=(foundOnBus c).map fun a=>describe c 0 a.1 a.2 := by
  have hone : valid c 0 0 1=false := by
    rw [Bool.eq_false_iff,Ne,valid_iff,h.bridge 1]
    decide
  have hz := valid_iff.2 ((h.bridge 0).2 rfl)
  have hr : visitBuses (δ := δ) c functions.tail=pure () := by
    rw [show functions.tail=1::[2,3,4,5,6,7] from rfl,visitBuses,hone]
    rfl
  rw [initPci,Returns,wp_bind,wp_modify,if_pos hz,hr]
  refine Ensures.bind (visitDevices_spec _ ((Nat.zero_add _).le.trans (foundOnBus_length h))) ?_
  rintro _ _ rfl
  rw [ite_self,wp_pure]
  exact (addAll_registered _ _).1
end

/-- The registry has every present function of bus 0 once, and nothing else. -/
def Complete (c : Config) (s : Registry δ) : Prop :=
  ∃ l : List (BitVec 5 × BitVec 3), s.registered=l.map (fun a=>describe c 0 a.1 a.2) ∧ l.Nodup ∧
    ∀ dev func, (dev,func) ∈ l ↔ Present c 0 dev func

theorem pciRegisterDriver_spec (driver : δ) (supported : List PciDeviceId) (s : Registry δ) :
    Returns (pciRegisterDriver driver supported) s fun _ t=>∃ calls, t.inits=s.inits++calls ∧ calls.Nodup ∧
      ∀ i<32, i ∈ calls ↔ (s.pciFunctions i).driver=none ∧ (s.pciFunctions i).id ∈ supported := by
  let wants i := (s.pciFunctions i).driver.isNone && supported.any (· = (s.pciFunctions i).id)
  -- the entries from `k` on are as they were before the loop
  refine (Ensures.forRange (I := fun k t=>t.inits=s.inits++(List.range k).filter wants ∧
    ∀ i, k ≤ i → t.pciFunctions i=s.pciFunctions i) ⟨(append_nil _).symm,fun _ _=>rfl⟩ ?_).imp ?_
  · intro k t hk ⟨hin,hfr⟩
    have hwn : wants k=((t.pciFunctions k).driver.isNone && supported.any (· = (t.pciFunctions k).id)) := by
      rw [hfr k le_rfl]
    rw [offerDriver,wp_bind,wp_get,← hwn,range_succ,filter_append,filter_singleton]
    split
    next hw =>
      rw [wp_set,← append_assoc,← hin,hw]
      exact ⟨rfl,fun i hi=>(Function.update_of_ne (by omega) _ _).trans (hfr i (by omega))⟩
    next hw =>
      rw [wp_pure,Bool.eq_false_iff.2 hw,Bool.cond_false,append_nil]
      exact ⟨hin,fun i hi=>hfr i (by omega)⟩
  · intro _ t ht
    refine ⟨_,ht.1,nodup_range.filter _,fun i hi=>?_⟩
    simp [wants,hi]

/-- The functions `fs`, with the multifunction bit in all devices but the host bridge. -/
def populated (fs : List (BitVec 8 × BitVec 5 × BitVec 3)) : Config := fun bus dev func o =>
  if (bus,dev,func) ∈ fs then if o=0x0e ∧ dev≠0 then 0x80 else 0 else 0xff

theorem populated_population {fs : List (BitVec 8 × BitVec 5 × BitVec 3)} (hlen : fs.length≤32)
    (hzr : ∀ a ∈ fs, (a.1,a.2.1,0) ∈ fs) (hml : ∀ a ∈ fs, a.2.2≠0 → a.2.1≠0)
    (hbr : ∀ func, (0,0,func) ∈ fs ↔ func=0) : Population (populated fs) fs.toFinset := by
  have hmem : ∀ bus dev func, (bus,dev,func) ∈ fs ↔ Present (populated fs) bus dev func := by
    intro bus dev func
    by_cases hfs : (bus,dev,func) ∈ fs <;> simp [Present,populated,hfs,word]
  refine ⟨fun bus dev func=>mem_toFinset.trans (hmem bus dev func),fs.toFinset_card_le.trans hlen,
    fun bus dev func hp=>(hmem bus dev 0).1 (hzr _ ((hmem bus dev func).2 hp)),fun bus dev func hp hne=>?_,
    fun func=>(hmem 0 0 func).symm.trans (hbr func)⟩
  have hfs := (hmem bus dev func).2 hp
  rw [populated,if_pos (hzr _ hfs),if_pos ⟨rfl,hml _ hfs hne⟩]
  decide

end

end Yaos2.Pci
