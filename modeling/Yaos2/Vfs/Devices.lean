import Yaos2.Foundation.Reasons
import Yaos2.Vfs.Nodes

/-! # The registries of devices

For `kstrcmp` a name is the same as all of its extensions. -/
namespace Yaos2.Vfs
open Foundation Fat List

def devfsNameSize : ℕ := 80

/-- The nodes with `devfs_num_leaves` and `devfs_inode_seq`. -/
structure DevfsRegistry where
  devfs : Devfs
  numLeaves : UInt32
  inodeSeq : UInt32

/-- `struct char_dev_backend`, with the name of the device. -/
structure CharDevBackend where
  handle : Int32
  name : List UInt8
  devfsHandle : UInt32

/-- The character devices, with `cdev_next_handle`. -/
structure CharRegistry where
  devfs : DevfsRegistry
  nextHandle : Int32
  registry : List CharDevBackend

def DevfsRegistry.within {α : Type} (x : Exec Devfs α) : Exec DevfsRegistry α :=
  zoom DevfsRegistry.devfs (fun devfs s=>{s with devfs := devfs}) x

def CharRegistry.within {α : Type} (x : Exec DevfsRegistry α) : Exec CharRegistry α :=
  zoom CharRegistry.devfs (fun devfs s=>{s with devfs := devfs}) x

/-- The node that gets registered next. -/
def DevfsRegistry.newNode (s : DevfsRegistry) (name : List UInt8) : DevfsNode where
  index := s.inodeSeq.toNat
  name := name
  ref := 0
  locked := false

/-- A node at `a` is numbered and inserted. -/
def DevfsRegistry.insert (s : DevfsRegistry) (a : ℕ) (name : List UInt8) : DevfsRegistry where
  devfs := {s.devfs with
    list := a::s.devfs.list
    node := Function.update s.devfs.node a (s.newNode name)}
  numLeaves := s.numLeaves+1
  inodeSeq := s.inodeSeq+1

def DevfsRegistry.remove (s : DevfsRegistry) (a : ℕ) : DevfsRegistry :=
  {s with
    devfs := {s.devfs with list := s.devfs.list.erase a}
    numLeaves := s.numLeaves-1}

/-- What `devfs_init` leaves: no nodes, and the numbers from 2 on. -/
def devfsInit : DevfsRegistry where
  devfs := {list := [], node := fun _=>⟨0,[],0,false⟩, held := false}
  numLeaves := 0
  inodeSeq := 2

def devfsRegisterNode (alloc : Allocator) (name : List UInt8) : Exec DevfsRegistry UInt32 := do
  DevfsRegistry.within Devfs.acquire
  let s ← get
  set (s.insert (alloc.alloc s.devfs.list) name)
  DevfsRegistry.within Devfs.release
  return s.inodeSeq

def devfsUnregisterNode (handle : UInt32) : Exec DevfsRegistry Unit := do
  DevfsRegistry.within Devfs.acquire
  match ← DevfsRegistry.within (devfsGetByIndex handle.toNat) with
  | none => abort "devfs_unregister_node(): node not found"
  | some a =>
    panicIf (0<((← get).devfs.node a).ref) "devfs_unregister_node(): node busy"
    modify fun s=>s.remove a
    DevfsRegistry.within Devfs.release

def cdevRegister (alloc : Allocator) (name : List UInt8) : Exec CharRegistry Int32 := do
  let s ← get
  panicIf (s.registry.any (fun backend=>kstrcmp backend.name name)) "cdev_register(): char device exists"
  let devfsHandle ← CharRegistry.within (devfsRegisterNode alloc (name.take (devfsNameSize-1)))
  modify fun t=>{t with
    nextHandle := s.nextHandle+1
    registry := ⟨s.nextHandle,name,devfsHandle⟩::s.registry}
  return s.nextHandle

/-- `devfs_get_by_path` finds the node of exactly this name, if there is one, and otherwise nothing. -/
def LooksUp (s : Devfs) (str : List UInt8) : Prop := Returns (devfsGetByPath (vfsSeparator::str)) s
    (fun node _=>∀ a, node=some a ↔ a ∈ s.list ∧ (s.node a).name=str)

/-- Registering a node and unregistering it by its handle leaves the other nodes and the number of them as they were. -/
def Undone (alloc : Allocator) (name : List UInt8) (s : DevfsRegistry) : Prop :=
  ∃ handle t u, devfsRegisterNode alloc name s=.ok handle t ∧ devfsUnregisterNode handle t=.ok () u ∧
    u.devfs.list=s.devfs.list ∧ (∀ a ∈ s.devfs.list, u.devfs.node a=s.devfs.node a) ∧ u.numLeaves=s.numLeaves

variable {s : Devfs} {str name : List UInt8} {alloc : Allocator}

section

theorem devfsTake_returns (hf : s.held=false) (search : Devfs → Option ℕ) (hs : search {s with held := true}=search s) :
    Returns (devfsTake search) s (fun node _=>node=search s) := by
  rw [← hs]
  simp only [devfsTake,Devfs.acquire,Devfs.release,Returns,wp_bind,wp_get,wp_modify]
  rw [wp_panicIf (by simp [hf])]
  cases search {s with held := true} with
  | none =>
    simp only [wp_bind,wp_get,wp_modify,wp_pure]
    rw [wp_panicIf (by simp)]
    trivial
  | some a =>
    simp only [wp_bind,wp_get,wp_modify,wp_pure]
    rw [wp_panicIf (by simp [Devfs.modifyNode])]
    trivial

theorem devfsGetByPath_returns (hf : s.held=false) (hne : str≠[]) (hsep : vfsSeparator ∉ str) :
    Returns (devfsGetByPath (vfsSeparator::str)) s
      (fun node _=>node=s.list.find? (fun a=>kstrcmp str (s.node a).name)) := by
  have hl : ¬ (vfsSeparator::str).getLastD 0=vfsSeparator := by
    rw [getLastD_eq_getLast?,List.getLast?_cons_of_ne_nil hne,List.getLast?_eq_some_getLast hne,Option.getD_some]
    exact fun h=>hsep (h▸getLast_mem hne)
  rw [devfsGetByPath,Returns,wp_bind,wp_panicIf (by simp),wp_bind,wp_panicIf hl]
  exact devfsTake_returns hf _ rfl

/-- No name but the one looked for begins with it. -/
def Unextended (s : Devfs) (str : List UInt8) : Prop := ∀ a ∈ s.list, str <+: (s.node a).name → (s.node a).name=str

theorem looksUp_of_unextended (hfr : s.held=false) (hzr : 0 ∉ str) (hsep : vfsSeparator ∉ str) (hne : str≠[])
    (hns : ∀ a ∈ s.list, ∀ b ∈ s.list, (s.node a).name=(s.node b).name → a=b) (h : Unextended s str) : LooksUp s str := by
  apply (devfsGetByPath_returns hfr hne hsep).imp
  rintro node t rfl a
  constructor
  · intro hfn
    have hmem := mem_of_find?_eq_some hfn
    have hcmp := List.find?_some hfn
    exact ⟨hmem,h a hmem ((kstrcmp_iff hzr).mp hcmp)⟩
  · rintro ⟨hmem,hnm⟩
    cases hfn : s.list.find? (fun a=>kstrcmp str (s.node a).name) with
    | none =>
      have hno := List.find?_eq_none.mp hfn a hmem
      exact absurd ((kstrcmp_iff hzr).mpr (hnm▸prefix_refl _)) hno
    | some b =>
      have hmb := mem_of_find?_eq_some hfn
      have hcmp := List.find?_some hfn
      have hnb := h b hmb ((kstrcmp_iff hzr).mp hcmp)
      rw [hns a hmem b hmb (hnm.trans hnb.symm)]

theorem not_looksUp_root (s : Devfs) : ¬ LooksUp s [] := by
  intro h
  have hr : Raises (devfsGetByPath [vfsSeparator]) s "devfs_get_by_path(): incorrect path format" := ⟨s,rfl⟩
  exact h.not_raises hr

theorem not_looksUp_head (hfe : s.held=false) (hzr : 0 ∉ str) (hsep : vfsSeparator ∉ str)
    (hne : str≠[]) (hls : s.list=a::l) (hext : str <+: (s.node a).name) (hnm : (s.node a).name≠str) :
    ¬ LooksUp s str := by
  intro h
  obtain ⟨node,t,hok,rfl⟩ := Returns.exists_ok (devfsGetByPath_returns hfe hne hsep)
  have hfr : s.list.find? (fun a=>kstrcmp str (s.node a).name)=some a := by
    rw [hls,List.find?_cons_of_pos (p := fun a=>kstrcmp str (s.node a).name) ((kstrcmp_iff hzr).mpr hext)]
  have hex := (h.of_ok hok a).mp hfr
  exact hnm hex.2

theorem looksUp_perm_iff (hfr : s.held=false) (hzr : 0 ∉ str) (hsep : vfsSeparator ∉ str)
    (hnm : ∀ a ∈ s.list, ∀ b ∈ s.list, (s.node a).name=(s.node b).name → a=b) :
    (∀ l, l.Perm s.list → LooksUp {s with list := l} str) ↔ str≠[] ∧ Unextended s str := by
  constructor
  · intro h
    have hne : str≠[] := by
      rintro rfl
      exact not_looksUp_root s (h s.list (List.Perm.refl _))
    refine ⟨hne,?_⟩
    intro a ha hext
    by_contra hna
    have hpr := (perm_cons_erase ha).symm
    exact not_looksUp_head (s := {s with list := a::s.list.erase a}) hfr hzr hsep hne rfl hext hna (h _ hpr)
  · rintro ⟨hne,hext⟩ l hpr
    apply looksUp_of_unextended (s := {s with list := l}) hfr hzr hsep hne
    · intro a ha b hb hab
      exact hnm a (hpr.mem_iff.mp ha) b (hpr.mem_iff.mp hb) hab
    · intro a ha
      exact hext a (hpr.mem_iff.mp ha)
end

section
variable {c : CharRegistry}

theorem devfsRegisterNode_eq (alloc : Allocator) (name : List UInt8) (s : DevfsRegistry) :
    devfsRegisterNode alloc name s=if s.devfs.held then .error "thread_mutex_acquire(): on held lock" s
      else .ok s.inodeSeq (s.insert (alloc.alloc s.devfs.list) name) := by
  obtain ⟨⟨list,node,held⟩,numLeaves,inodeSeq⟩ := s
  cases held with
  | true => rfl
  | false => rfl

theorem cdevRegister_exists_iff (hzr : ∀ b ∈ c.registry, 0 ∉ b.name) :
    Raises (cdevRegister alloc name) c "cdev_register(): char device exists" ↔ ∃ b ∈ c.registry, b.name <+: name := by
  have hany : c.registry.any (fun backend=>kstrcmp backend.name name)=true ↔ ∃ b ∈ c.registry, b.name <+: name := by
    rw [any_eq_true]
    exact exists_congr fun b=>and_congr_right fun hb=>kstrcmp_iff (hzr b hb)
  have hget : (get : Exec CharRegistry CharRegistry) c=.ok c c := rfl
  rw [← hany,Raises,cdevRegister,bind_of_ok hget,panicIf]
  by_cases hex : c.registry.any (fun backend=>kstrcmp backend.name name)=true
  · rw [if_pos hex]
    exact iff_of_true ⟨c,rfl⟩ hex
  · apply iff_of_false _ hex
    have hpr : (pure () : Exec CharRegistry Unit) c=.ok () c := rfl
    rw [if_neg hex,bind_of_ok hpr]
    intro hrs
    obtain ⟨u,hu⟩ | ⟨handle,t,-,u,hu⟩ := Raises.bind_cases hrs
    · rw [CharRegistry.within,zoom,devfsRegisterNode_eq] at hu
      by_cases hhl : c.devfs.devfs.held=true
      · rw [if_pos hhl] at hu
        exact absurd (EStateM.Result.error.inj hu).1 (by decide)
      · rw [if_neg hhl] at hu
        cases hu
    · cases hu
end

/-- Names of devices are told apart iff none is the beginning of another one. -/
theorem deviceNames_exact_iff (c : CharRegistry) (alloc : Allocator) (str name : List UInt8)
    (hfree : c.devfs.devfs.held=false)
    (hnames : ∀ a ∈ c.devfs.devfs.list, ∀ b ∈ c.devfs.devfs.list,
      (c.devfs.devfs.node a).name=(c.devfs.devfs.node b).name → a=b)
    (hbackends : ∀ b ∈ c.registry, 0 ∉ b.name) (hzero : 0 ∉ str) (hsep : vfsSeparator ∉ str) :
    ((∀ l, l.Perm c.devfs.devfs.list → LooksUp {c.devfs.devfs with list := l} str) ↔
      str≠[] ∧ Unextended c.devfs.devfs str) ∧
    ((Raises (cdevRegister alloc name) c "cdev_register(): char device exists" → ∃ b ∈ c.registry, b.name=name) ↔
      (∃ b ∈ c.registry, b.name=name) ∨ ∀ b ∈ c.registry, ¬ b.name <+: name) := by
  refine ⟨looksUp_perm_iff hfree hzero hsep hnames,?_⟩
  rw [cdevRegister_exists_iff hbackends,imp_iff_or_not]
  push Not
  rfl

def tty : List UInt8 := [0x74, 0x74, 0x79]

def tty0 : List UInt8 := tty++[0x30]

def ttys (first second : List UInt8) : CharRegistry where
  devfs := {
    devfs := {
      list := [2, 1]
      node := fun a=>if a=1 then ⟨2,first,0,false⟩ else ⟨3,second,0,false⟩
      held := false}
    numLeaves := 2
    inodeSeq := 4}
  nextHandle := 3
  registry := [⟨2,second,3⟩, ⟨1,first,2⟩]

theorem deviceNames_exact_tty0 :
    (∀ l, l.Perm [2, 1] → LooksUp {(ttys tty tty0).devfs.devfs with list := l} tty0) ∧
    (Raises (cdevRegister bumpAllocator tty) (ttys tty tty0) "cdev_register(): char device exists" →
      ∃ b ∈ (ttys tty tty0).registry, b.name=tty) := by
  have h := deviceNames_exact_iff (ttys tty tty0) bumpAllocator tty0 tty rfl (by decide) (by decide) (by decide) (by decide)
  exact ⟨h.1.mpr ⟨by decide,by unfold Unextended; decide⟩,h.2.mpr (.inl (by decide))⟩

/-- The path of `tty` leads to `tty0`, and `tty0` cannot be registered when `tty` is. -/
theorem deviceNames_prefix :
    (∃ t, devfsGetByPath (vfsSeparator::tty) (ttys tty tty0).devfs.devfs=.ok (some 2) t) ∧
      ((ttys tty tty0).devfs.devfs.node 1).name=tty ∧ ((ttys tty tty0).devfs.devfs.node 2).name=tty0 ∧
    Raises (cdevRegister bumpAllocator tty0) (ttys tty [0x6b]) "cdev_register(): char device exists" ∧
      ¬ ∃ b ∈ (ttys tty [0x6b]).registry, b.name=tty0 :=
  ⟨⟨_,rfl⟩,rfl,rfl,⟨_,rfl⟩,by decide⟩

section

theorem devfsUnregisterNode_raises (handle : UInt32) (s : DevfsRegistry) :
    Raises (devfsUnregisterNode handle) s "thread_mutex_acquire(): on held lock" := by
  obtain ⟨⟨list,node,held⟩,numLeaves,inodeSeq⟩ := s
  cases held with
  | true => exact ⟨_,rfl⟩
  | false => exact ⟨_,rfl⟩

/-- No registration is ever undone. -/
theorem devfsUnregisterNode_never (alloc : Allocator) (name : List UInt8) (s : DevfsRegistry) : ¬ Undone alloc name s := by
  rintro ⟨handle,t,u,-,hok,-⟩
  obtain ⟨v,hv⟩ := devfsUnregisterNode_raises handle t
  rw [hv] at hok
  cases hok

/-- The first device is registered, and the kernel panics when it is to be unregistered. -/
theorem devfsUnregisterNode_panics :
    devfsRegisterNode bumpAllocator tty devfsInit=.ok 2 (devfsInit.insert (bumpAllocator.alloc []) tty) ∧
    Raises (devfsUnregisterNode 2) (devfsInit.insert (bumpAllocator.alloc []) tty) "thread_mutex_acquire(): on held lock" :=
  ⟨rfl,devfsUnregisterNode_raises _ _⟩
end

end Yaos2.Vfs
