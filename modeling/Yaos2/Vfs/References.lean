import Yaos2.Vfs.Nodes
import Yaos2.Foundation.Transition

/-! # Counting references to nodes -/
namespace Yaos2.Vfs
open Foundation Fat Function List Nat

set_option linter.unusedSectionVars false

variable {V : Type} [DecidableEq V] {s t u : FileSystems V}

section
variable {vol : V} {a x : ℕ} {f : FatSuper} {g : Devfs}

theorem refs_setFat (h : f.refs=update (s.fat vol).refs a x) :
    (s.setFat vol f).refs=update s.refs (.fat vol a) x := by
  funext n
  cases n with
  | fat v b =>
    by_cases hv : v=vol
    · subst hv
      by_cases hb : b=a <;> simp [FileSystems.refs,FileSystems.setFat,h,hb]
    · simp [FileSystems.refs,FileSystems.setFat,hv]
  | devfs b => simp [FileSystems.refs,FileSystems.setFat]
  | devfsRoot => simp [FileSystems.refs]

theorem refs_setFat_same (h : f.refs=(s.fat vol).refs) : (s.setFat vol f).refs=s.refs := by
  have hu : f.refs=update (s.fat vol).refs 0 ((s.fat vol).refs 0) := by rw [update_eq_self,h]
  rw [refs_setFat hu]
  exact update_eq_self (VfsNode.fat vol 0) s.refs

/-- The counts of the devices have changed at most at `a`. -/
def RefAt (s : Devfs) (a x : ℕ) (t : Devfs) : Prop :=
  (t.node a).ref.toNat=x ∧ ∀ b, b≠a → (t.node b).ref=(s.node b).ref

theorem refs_setDevfs (h : RefAt s.devfs a x g) : (s.setDevfs g).refs=update s.refs (.devfs a) x := by
  funext n
  cases n with
  | fat v b => simp [FileSystems.refs,FileSystems.setDevfs]
  | devfs b =>
    by_cases hb : b=a
    · simp_all [FileSystems.refs,FileSystems.setDevfs,h.1]
    · simp [FileSystems.refs,FileSystems.setDevfs,hb,h.2 b hb]
  | devfsRoot => simp [FileSystems.refs]

theorem refs_setDevfs_same (h : ∀ b, (g.node b).ref=(s.devfs.node b).ref) : (s.setDevfs g).refs=s.refs := by
  funext n
  cases n with
  | fat v b => rfl
  | devfs b => simp [FileSystems.refs,FileSystems.setDevfs,h]
  | devfsRoot => rfl
end

/-- No mutex is held by the running thread. -/
structure Idle (s : FileSystems V) : Prop where
  fat : ∀ vol a, ((s.fat vol).node a).locked=false
  devfs : ∀ a, (s.devfs.node a).locked=false
  mutex : s.devfs.held=false

/-- The counts after a node has been handed out. -/
def addRef (refs : VfsNode V → ℕ) : Option (VfsNode V) → VfsNode V → ℕ
  | none => refs
  | some n => update refs n ((refs n+1)%2^32)

/-- What an operation that returns a node does: one reference to it, and nothing else that matters here. -/
structure Counts (s : FileSystems V) (r : Option (VfsNode V)) (t : FileSystems V) : Prop where
  refs : t.refs=addRef s.refs r
  counted : r≠some .devfsRoot
  idle : Idle s → Idle t
  file : t.file=s.file
  fileList : t.fileList=s.fileList

section
variable {vol : V} {a : ℕ} {f : FatSuper} {g : Devfs} {r : Option ℕ}

theorem Idle.setFat (h : Idle s) (hf : ∀ b, (f.node b).locked=true → ((s.fat vol).node b).locked=true) :
    Idle (s.setFat vol f) := by
  refine ⟨fun v b=>?_,h.devfs,h.mutex⟩
  by_cases hv : v=vol
  · subst hv
    have hold := h.fat v b
    have hnew : (((s.setFat v f).fat v).node b).locked=(f.node b).locked := by simp [FileSystems.setFat]
    rw [hnew]
    by_contra hc
    exact absurd (hf b (by simpa using hc)) (by simp [hold])
  · simpa [FileSystems.setFat,hv] using h.fat v b

theorem counts_gains (h : Gains (s.fat vol) a f) : Counts s (some (.fat vol a)) (s.setFat vol f) :=
  ⟨refs_setFat h.refs,by simp,fun hs=>hs.setFat h.locked,rfl,rfl⟩

theorem counts_keeps (h : Keeps (s.fat vol) f) : Counts s none (s.setFat vol f) :=
  ⟨refs_setFat_same h.refs,by simp,fun hs=>hs.setFat h.locked,rfl,rfl⟩

/-- What the search of a device does. -/
structure Takes (s : Devfs) (r : Option ℕ) (t : Devfs) : Prop where
  refs : match r with
    | none => ∀ b, (t.node b).ref=(s.node b).ref
    | some a => RefAt s a (((s.node a).ref.toNat+1)%2^32) t
  locked : ∀ b, (t.node b).locked=(s.node b).locked
  released : t.held=false

theorem counts_takes (h : Takes s.devfs r g) : Counts s (r.map .devfs) (s.setDevfs g) := by
  refine ⟨?_,by cases r <;> simp,fun hs=>⟨hs.fat,fun b=>?_,h.released⟩,rfl,rfl⟩
  · cases r with
    | none => exact refs_setDevfs_same h.refs
    | some a => exact refs_setDevfs h.refs
  · exact (h.locked b).trans (hs.devfs b)

theorem devfsTake_spec (search : Devfs → Option ℕ) (d : Devfs) :
    Ensures (devfsTake search) d (fun r t=>Takes d r t) (fun _=>True) := by
  simp only [devfsTake,Devfs.acquire,Devfs.release,wp_bind,wp_get,wp_panicIf_iff,wp_modify]
  refine ⟨fun _=>trivial,fun _=>?_⟩
  cases hr : search {d with held := true} with
  | none =>
    simp only [wp_bind,wp_get,wp_pure,wp_panicIf_iff,wp_modify]
    exact ⟨fun _=>trivial,fun _=>⟨fun _=>rfl,fun _=>rfl,rfl⟩⟩
  | some a =>
    simp only [wp_bind,wp_get,wp_pure,wp_panicIf_iff,wp_modify]
    refine ⟨fun _=>trivial,fun _=>⟨⟨?_,fun b hb=>?_⟩,fun b=>?_,rfl⟩⟩
    · simp [Devfs.modifyNode,UInt32.toNat_add]
    · simp [Devfs.modifyNode,hb]
    · by_cases hb : b=a <;> simp [Devfs.modifyNode,hb]
end

/-- The operations of the interface that return a node. -/
inductive Op (V : Type)
  | getRoot (superNode : Super V)
  | getByIndex (superNode : Super V) (index : ℕ)
  | getByPath (superNode : Super V) (path : List UInt8)
  | getLeafNode (node : VfsNode V) (n : ℕ)

def Op.run (c : Setup V) : Op V → Exec (FileSystems V) (Option (VfsNode V))
  | .getRoot superNode => do return some (← Vfs.getRoot c superNode)
  | .getByIndex superNode index => Vfs.getByIndex superNode index
  | .getByPath superNode path => Vfs.getByPath c superNode path
  | .getLeafNode node n => Vfs.getLeafNode c node n

/-- All but the root of the devices and the first leaf. -/
def Op.Counted : Op V → Prop
  | .getRoot superNode => superNode≠.devfs
  | .getByIndex .. | .getByPath .. => True
  | .getLeafNode _ n => n≠0

section
variable (c : Setup V)

theorem getRoot_spec (h : superNode≠.devfs) (s : FileSystems V) :
    Returns (getRoot c superNode) s (fun n t=>Counts s (some n) t) := by
  cases superNode with
  | fat vol =>
    simp only [getRoot,Returns,wp_bind,onFat,wp_zoom,wp_pure]
    exact (fatVfsGetRoot_spec (c.rootEntry vol) (s.fat vol)).imp (fun a f hf=>counts_gains hf)
  | devfs => exact absurd rfl h

theorem getByIndex_spec (superNode : Super V) (index : ℕ) (s : FileSystems V) :
    Ensures (getByIndex superNode index) s (fun r t=>Counts s r t) (fun _=>True) := by
  cases superNode with
  | fat vol => simp only [getByIndex,wp_bind,onFat,wp_zoom,fatVfsGetByIndex,wp_abort]
  | devfs =>
    simp only [getByIndex,wp_bind,onDevfs,wp_zoom,wp_pure]
    exact (devfsTake_spec _ s.devfs).imp (fun r g hg=>counts_takes hg)

theorem getByPath_spec (superNode : Super V) (path : List UInt8) (s : FileSystems V) :
    Ensures (getByPath c superNode path) s (fun r t=>Counts s r t) (fun _=>True) := by
  cases superNode with
  | fat vol =>
    simp only [getByPath,wp_bind,onFat,wp_zoom,wp_pure]
    refine (fatVfsGetByPath_spec ..).imp (fun r f hf=>?_)
    cases r with
    | none => exact counts_keeps hf
    | some a => exact counts_gains hf
  | devfs =>
    simp only [getByPath,devfsGetByPath,wp_bind,onDevfs,wp_zoom,wp_pure,wp_panicIf_iff]
    refine ⟨fun _=>trivial,fun _=>⟨fun _=>trivial,fun _=>?_⟩⟩
    exact (devfsTake_spec _ s.devfs).imp (fun r g hg=>counts_takes hg)

theorem getLeafNode_spec (node : VfsNode V) (hn : n≠0) (s : FileSystems V) :
    Ensures (getLeafNode c node n) s (fun r t=>Counts s r t) (fun _=>True) := by
  cases node with
  | fat vol a =>
    simp only [getLeafNode,wp_bind,onFat,wp_zoom,wp_pure]
    refine (fatVfsNodeGetLeafNode_spec ..).imp (fun b f hf=>?_)
    rw [if_neg hn] at hf
    exact counts_gains hf
  | devfs a =>
    simp only [getLeafNode,wp_bind,wp_pure,wp_panicIf_iff]
    exact ⟨fun _=>trivial,fun hc=>absurd (pos_of_ne_zero hn) hc⟩
  | devfsRoot =>
    simp only [getLeafNode,if_neg hn,wp_bind,onDevfs,wp_zoom,wp_pure]
    exact (devfsTake_spec _ s.devfs).imp (fun r g hg=>counts_takes hg)

theorem Op.run_spec {op : Op V} (h : op.Counted) (s : FileSystems V) :
    Ensures (op.run c) s (fun r t=>Counts s r t) (fun _=>True) := by
  cases op with
  | getRoot superNode =>
    simpa [Op.run,wp_bind,wp_pure] using (getRoot_spec c h s).ensures
  | getByIndex superNode index => exact getByIndex_spec superNode index s
  | getByPath superNode path => exact getByPath_spec c superNode path s
  | getLeafNode node n => exact getLeafNode_spec c node h s

theorem getLeaf_spec (h : ∀ vol a, node=.fat vol a → n=0) (s : FileSystems V) :
    Ensures (getLeaf c node n) s (fun _ t=>t.refs=s.refs) (fun _=>True) := by
  cases node with
  | fat vol a =>
    simp only [getLeaf,onFat,wp_zoom,fatVfsNodeGetLeaf,wp_bind,wp_get,wp_pure]
    refine (fatVfsNodeGetLeafNode_spec ..).imp (fun b f hf=>?_)
    rw [if_pos (h vol a rfl)] at hf
    exact refs_setFat_same (by rw [hf.2])
  | devfs a =>
    simp only [getLeaf,onDevfs,wp_zoom,devfsNodeGetLeaf,wp_bind,wp_get,wp_pure,wp_panicIf_iff]
    exact ⟨fun _=>trivial,fun _=>refs_setDevfs_same (fun _=>rfl)⟩
  | devfsRoot =>
    simp only [getLeaf,onDevfs,wp_zoom,devfsRootGetLeaf]
    refine .ite (fun _=>?_) (fun _=>?_)
    · rw [wp_pure]
      exact refs_setDevfs_same (fun _=>rfl)
    · simp only [Devfs.acquire,Devfs.release,wp_bind,wp_get,wp_pure,wp_modify,wp_panicIf_iff]
      exact ⟨fun _=>trivial,fun _=>⟨fun _=>trivial,fun _=>refs_setDevfs_same (fun _=>rfl)⟩⟩

theorem vfsPut_spec (hrt : n≠.devfsRoot) (hpos : 0<s.refs n) :
    Ensures (vfsPut n) s (fun _ t=>t.refs=update s.refs n (s.refs n-1) ∧ (Idle s → Idle t) ∧
      t.file=s.file ∧ t.fileList=s.fileList) (fun _=>s.devfs.held=true) := by
  cases n with
  | fat vol a =>
    simp only [vfsPut,onFat,wp_zoom]
    exact (fatVfsPut_spec hpos).ensures.imp
      (fun _ f hf=>⟨refs_setFat hf.1,fun hs=>hs.setFat hf.2,rfl,rfl⟩)
  | devfs a =>
    have hone : (1 : UInt32)≤(s.devfs.node a).ref := UInt32.le_iff_toNat_le.mpr hpos
    simp only [vfsPut,onDevfs,devfsPut,Devfs.acquire,Devfs.release,wp_zoom,wp_bind,wp_get,
      wp_modify,wp_panicIf_iff]
    refine ⟨id,fun _=>⟨fun hc=>(by cases hc),fun _=>⟨refs_setDevfs ⟨?_,fun b hb=>?_⟩,
      fun hs=>⟨hs.fat,fun b=>?_,rfl⟩,rfl,rfl⟩⟩⟩
    · simp [Devfs.modifyNode,UInt32.toNat_sub_of_le _ _ hone,FileSystems.refs]
    · simp [Devfs.modifyNode,hb]
    · have hb := hs.devfs b
      by_cases hba : b=a <;> simp_all [FileSystems.setDevfs,Devfs.modifyNode]
  | devfsRoot => exact absurd rfl hrt
end

section
variable {n : VfsNode V} {f : ℕ}

theorem refs_files (s : FileSystems V) (file : ℕ → File V) (fileList : List ℕ) :
    ({s with file := file, fileList := fileList} : FileSystems V).refs=s.refs := by
  funext n
  cases n <;> rfl

/-- The running thread holds the lock of a node and no other. -/
structure Holding (n : VfsNode V) (s : FileSystems V) : Prop where
  fat : ∀ vol a, ((s.fat vol).node a).locked=decide (n=.fat vol a)
  devfs : ∀ a, (s.devfs.node a).locked=decide (n=.devfs a)
  mutex : s.devfs.held=decide (n=.devfsRoot)

theorem locked_setFat (vol v : V) (a b : ℕ) (x : Bool) :
    (((s.setFat vol ((s.fat vol).modifyNode a fun nd=>{nd with locked := x})).fat v).node b).locked =
      if VfsNode.fat vol a=.fat v b then x else ((s.fat v).node b).locked := by
  by_cases hv : v=vol
  · subst hv
    by_cases hb : b=a
    · simp [FileSystems.setFat,FatSuper.modifyNode,hb]
    · simp [FileSystems.setFat,FatSuper.modifyNode,hb,Ne.symm hb]
  · simp [FileSystems.setFat,hv,Ne.symm hv]

theorem locked_setDevfs (a b : ℕ) (x : Bool) :
    ((s.setDevfs (s.devfs.modifyNode a fun nd=>{nd with locked := x})).devfs.node b).locked =
      if (VfsNode.devfs a : VfsNode V)=.devfs b then x else (s.devfs.node b).locked := by
  by_cases hb : b=a
  · simp [FileSystems.setDevfs,Devfs.modifyNode,hb]
  · simp [FileSystems.setDevfs,Devfs.modifyNode,hb,Ne.symm hb]

theorem lock_spec (n : VfsNode V) (s : FileSystems V) :
    Ensures (lock n) s (fun _ t=>t.refs=s.refs ∧ t.file=s.file ∧ t.fileList=s.fileList ∧
      (Idle s → Holding n t)) (fun _=>¬ Idle s) := by
  cases n with
  | fat vol a =>
    simp only [lock,onFat,fatVfsNodeLock,wp_zoom,wp_bind,wp_get,wp_modify,wp_panicIf_iff]
    refine ⟨fun hc hs=>(by simp [hs.fat] at hc),fun _=>⟨refs_setFat_same (quiet_locked _ a _).refs,rfl,
      rfl,fun hs=>⟨fun v b=>?_,fun b=>(hs.devfs b).trans (by simp),hs.mutex.trans (by simp)⟩⟩⟩
    rw [locked_setFat,hs.fat]
    split <;> simp [*]
  | devfs a =>
    simp only [lock,onDevfs,devfsNodeLock,wp_zoom,wp_bind,wp_get,wp_modify,wp_panicIf_iff]
    refine ⟨fun hc hs=>(by simp [hs.devfs] at hc),fun _=>⟨refs_setDevfs_same (fun b=>?_),rfl,rfl,
      fun hs=>⟨fun v b=>(hs.fat v b).trans (by simp),fun b=>?_,hs.mutex.trans (by simp)⟩⟩⟩
    · by_cases hb : b=a <;> simp [Devfs.modifyNode,hb]
    · rw [locked_setDevfs,hs.devfs]
      split <;> simp [*]
  | devfsRoot =>
    simp only [lock,onDevfs,Devfs.acquire,wp_zoom,wp_bind,wp_get,wp_modify,wp_panicIf_iff]
    exact ⟨fun hc hs=>(by simp [hs.mutex] at hc),fun _=>⟨refs_setDevfs_same (fun _=>rfl),rfl,rfl,
      fun hs=>⟨fun v b=>(hs.fat v b).trans (by simp),fun b=>(hs.devfs b).trans (by simp),rfl⟩⟩⟩

theorem unlock_spec (n : VfsNode V) (s : FileSystems V) :
    Ensures (unlock n) s (fun _ t=>t.refs=s.refs ∧ t.file=s.file ∧ t.fileList=s.fileList ∧
      (Holding n s → Idle t)) (fun _=>¬ Holding n s) := by
  cases n with
  | fat vol a =>
    simp only [unlock,onFat,fatVfsNodeUnlock,wp_zoom,wp_bind,wp_get,wp_modify,wp_panicIf_iff]
    refine ⟨fun hc hs=>(by simp [hs.fat] at hc),fun _=>⟨refs_setFat_same (quiet_locked _ a _).refs,rfl,
      rfl,fun hs=>⟨fun v b=>?_,fun b=>(hs.devfs b).trans (by simp),hs.mutex.trans (by simp)⟩⟩⟩
    rw [locked_setFat,hs.fat]
    split <;> simp [*]
  | devfs a =>
    simp only [unlock,onDevfs,devfsNodeUnlock,wp_zoom,wp_bind,wp_get,wp_modify,wp_panicIf_iff]
    refine ⟨fun hc hs=>(by simp [hs.devfs] at hc),fun _=>⟨refs_setDevfs_same (fun b=>?_),rfl,rfl,
      fun hs=>⟨fun v b=>(hs.fat v b).trans (by simp),fun b=>?_,hs.mutex.trans (by simp)⟩⟩⟩
    · by_cases hb : b=a <;> simp [Devfs.modifyNode,hb]
    · rw [locked_setDevfs,hs.devfs]
      split <;> simp [*]
  | devfsRoot =>
    simp only [unlock,onDevfs,Devfs.release,wp_zoom,wp_bind,wp_get,wp_modify,wp_panicIf_iff]
    exact ⟨fun hc hs=>(by simp [hs.mutex] at hc),fun _=>⟨refs_setDevfs_same (fun _=>rfl),rfl,rfl,
      fun hs=>⟨fun v b=>(hs.fat v b).trans (by simp),fun b=>(hs.devfs b).trans (by simp),rfl⟩⟩⟩

theorem Holding.modifyFile (h : Holding n s) (g : File V → File V) : Holding n (s.modifyFile f g) :=
  ⟨h.fat,h.devfs,h.mutex⟩

/-- Nothing but the count of the file has changed. -/
structure Recounted (s : FileSystems V) (f : ℕ) (ref : UInt32) (t : FileSystems V) : Prop where
  refs : t.refs=s.refs
  idle : Idle t
  file : t.file=update s.file f {s.file f with ref := ref}
  fileList : t.fileList=s.fileList

theorem changeRef_spec (h : Idle s) (f : ℕ) (g : UInt32 → UInt32) :
    Returns (changeRef f g) s (fun r t=>r=g (s.file f).ref ∧ Recounted s f r t) := by
  simp only [changeRef,Returns,wp_bind,wp_get,wp_modify,wp_pure]
  refine (lock_spec _ s).mono ?_ (fun _ hno=>hno h)
  rintro - t ⟨hrf,hfl,hls,hhl⟩
  refine (unlock_spec _ _).mono ?_ (fun _ hno=>hno ((hhl h).modifyFile _))
  rintro - u ⟨hrf',hfl',hls',hid⟩
  have href : ((t.modifyFile f fun file=>{file with ref := g file.ref}).file f).ref=g (s.file f).ref := by
    simp [FileSystems.modifyFile,hfl]
  refine ⟨href,hrf'.trans ((refs_files ..).trans hrf),hid ((hhl h).modifyFile _),?_,hls'.trans hls⟩
  rw [hfl',href,FileSystems.modifyFile,hfl]

theorem dropRef_spec (h : Idle s) (f : ℕ) :
    Returns (dropRef f) s (fun last t=>(last=true ↔ (s.file f).ref-1=0) ∧
      Recounted s f ((s.file f).ref-1) t) := by
  simp only [dropRef,Returns,wp_bind,wp_pure]
  apply (changeRef_spec h f _).imp
  rintro r t ⟨rfl,ht⟩
  exact ⟨decide_eq_true_iff,ht⟩

theorem vfsFileDup_spec (h : Idle s) (f : ℕ) :
    Returns (vfsFileDup f) s (fun r t=>r=f ∧ Recounted s f ((s.file f).ref+1) t) := by
  simp only [vfsFileDup,Returns,wp_bind,wp_pure]
  apply (changeRef_spec h f _).imp
  rintro r t ⟨rfl,ht⟩
  exact ⟨trivial,ht⟩

theorem vfsClose_last (h : Idle s) (hnd : (s.file f).node=n) (hrt : n≠.devfsRoot) (href : (s.file f).ref=1)
    (hpos : 0<s.refs n) :
    Returns (vfsClose f) s (fun _ t=>t.refs=update s.refs n (s.refs n-1)) := by
  simp only [vfsClose,Returns,wp_bind]
  apply (dropRef_spec h f).imp
  rintro last t ⟨hls,ht⟩
  have hnd' : (t.file f).node=n := by simp [ht.file,hnd]
  have hrf : (t.removeFile f).refs=s.refs := (refs_files ..).trans ht.refs
  rw [if_pos (hls.mpr (by rw [href]; rfl))]
  simp only [wp_bind,wp_modify,wp_get]
  rw [show ((t.removeFile f).file f).node=n from hnd']
  refine (vfsPut_spec hrt (by rwa [hrf])).mono (fun _ u hu=>?_) (fun _ hc=>?_)
  · rw [hu.1,hrf]
  · simp_all [show (t.removeFile f).devfs.held=false from ht.idle.mutex]

variable (c : Setup V) (mounts : List (Mount (Super V))) (path : List UInt8)

theorem vfsGetNode_spec (s : FileSystems V) :
    Ensures (vfsGetNode c mounts path) s (fun r t=>r≠some .devfsRoot → Counts s r t) (fun _=>True) := by
  rw [vfsGetNode]
  cases vfsGet mounts path with
  | none => exact (wp_pure ..).mpr (fun _=>⟨rfl,by simp,id,rfl,rfl⟩)
  | some call =>
    cases call with
    | getRoot superNode =>
      simp only [wp_bind,wp_pure]
      by_cases hdev : superNode=.devfs
      · subst hdev
        exact (wp_pure ..).mpr (fun hc=>absurd rfl hc)
      · exact (getRoot_spec c hdev s).ensures.imp (fun n t ht _=>ht)
    | getByPath superNode path =>
      exact (getByPath_spec c superNode path s).imp (fun r t ht _=>ht)

theorem vfsOpen_spec (s : FileSystems V) :
    Ensures (vfsOpen c mounts path) s (fun r t=>∀ f, r=some f → (t.file f).ref=1 ∧
      ((t.file f).node≠.devfsRoot → t.refs=addRef s.refs (some (t.file f).node) ∧ (Idle s → Idle t)))
      (fun _=>True) := by
  simp only [vfsOpen,wp_bind]
  refine (vfsGetNode_spec c mounts path s).imp (fun r t ht=>?_)
  cases r with
  | none => exact (wp_pure ..).mpr (fun f hf=>by cases hf)
  | some node =>
    simp only [wp_bind,wp_get,wp_set,wp_pure,Option.some.injEq]
    rintro f rfl
    simp only [FileSystems.insertFile,update_self,ne_eq]
    refine ⟨trivial,fun hr=>?_⟩
    have hc := ht (by simpa using hr)
    exact ⟨(refs_files ..).trans hc.refs,fun hs=>⟨(hc.idle hs).fat,(hc.idle hs).devfs,(hc.idle hs).mutex⟩⟩
end

/-- A step of a caller that remembers the nodes it has to put. -/
inductive RefStep : FileSystems V × List (VfsNode V) → FileSystems V × List (VfsNode V) → Prop
  | get {s t : FileSystems V} {c : Setup V} {op : Op V} {n : VfsNode V} {held : List (VfsNode V)} : op.Counted →
      op.run c s=.ok (some n) t → s.refs n+1<2^32 → RefStep (s, held) (t, n::held)
  | miss {s t : FileSystems V} {c : Setup V} {op : Op V} {held : List (VfsNode V)} : op.Counted →
      op.run c s=.ok none t → RefStep (s, held) (t, held)
  | leaf {s t : FileSystems V} {c : Setup V} {node : VfsNode V} {n i : ℕ} {held : List (VfsNode V)} :
      (∀ vol a, node=.fat vol a → n=0) → getLeaf c node n s=.ok i t → RefStep (s, held) (t, held)
  | lock {s t : FileSystems V} {n : VfsNode V} {held : List (VfsNode V)} : lock n s=.ok () t → RefStep (s, held) (t, held)
  | unlock {s t : FileSystems V} {n : VfsNode V} {held : List (VfsNode V)} : unlock n s=.ok () t → RefStep (s, held) (t, held)
  | put {s t : FileSystems V} {n : VfsNode V} {held : List (VfsNode V)} : n ∈ held → vfsPut n s=.ok () t →
      RefStep (s, held) (t, held.erase n)

/-- The count of a node is what it was plus the references that are held. -/
def Balanced (base : VfsNode V → ℕ) (x : FileSystems V × List (VfsNode V)) : Prop :=
  .devfsRoot ∉ x.2 ∧ ∀ n, x.1.refs n=base n+x.2.count n

theorem Balanced.step {x y : FileSystems V × List (VfsNode V)} (h : Balanced base x)
    (hst : RefStep x y) : Balanced base y := by
  have hsm : ∀ {s t : FileSystems V} {held : List (VfsNode V)}, Balanced base (s, held) → t.refs=s.refs →
      Balanced base (t, held) := fun hs hrf=>⟨hs.1,fun n=>by rw [hrf,hs.2 n]⟩
  cases hst with
  | @get s t c op n held hop hrun hlt =>
    have hcn := (Op.run_spec c hop s).of_ok hrun
    have hrt : n≠.devfsRoot := fun hc=>hcn.counted (by rw [hc])
    refine ⟨not_mem_cons_of_ne_of_not_mem hrt.symm h.1,fun m=>?_⟩
    have hrf : t.refs=update s.refs n (s.refs n+1) := by rw [hcn.refs,addRef,mod_eq_of_lt hlt]
    by_cases hm : m=n
    · subst hm
      rw [hrf,update_self,h.2 m,count_cons_self,add_assoc]
    · rw [hrf,update_of_ne hm,h.2 m,count_cons_of_ne (Ne.symm hm)]
  | @miss s t c op held hop hrun => exact hsm h ((Op.run_spec c hop s).of_ok hrun).refs
  | @leaf s t c node n i held hlf hrun => exact hsm h ((getLeaf_spec c hlf s).of_ok hrun)
  | @lock s t n held hrun => exact hsm h ((lock_spec n s).of_ok hrun).1
  | @unlock s t n held hrun => exact hsm h ((unlock_spec n s).of_ok hrun).1
  | @put s t n held hmem hrun =>
    have hrt : n≠.devfsRoot := fun hc=>h.1 (hc▸hmem)
    have hct := count_pos_iff.mpr hmem
    have hpos : 0<s.refs n := by
      have hn := h.2 n
      simp only at hn
      omega
    have hrf := ((vfsPut_spec hrt hpos).of_ok hrun).1
    refine ⟨fun hc=>h.1 (mem_of_mem_erase hc),fun m=>?_⟩
    have hm' := h.2 m
    simp only at hm'
    by_cases hm : m=n
    · subst hm
      rw [hrf,update_self,count_erase_self,hm']
      omega
    · rw [hrf,update_of_ne hm,hm',count_erase_of_ne hm]

section

def smallSetup : Setup Unit where
  data := fun _=>smallVolume 1
  rootEntry := fun _=>rootRecord
  limit := 3
  depth := 1
  alloc := bumpAllocator
  stale := noResult

/-- One volume with the file `FOOBAR`, listed twice, and one device. -/
def smallSystems : FileSystems Unit where
  fat := fun _=>{
    dev := dirDisk (foobar.record++foobar.record)
    list := []
    node := fun _=>unsafeCreate noResult
    nofNodes := 0
    nodup := nodup_nil}
  devfs := {
    list := [0]
    node := fun _=>⟨2,[0x63, 0x6f, 0x6d, 0x31],0,false⟩
    held := false}
  file := fun _=>⟨.devfsRoot,0⟩
  fileList := []

/-- The devices at `/dev`, mounted after the volume at `/`. -/
def smallMounts : List (Mount (Super Unit)) := [⟨[0x2f, 0x64, 0x65, 0x76],.devfs⟩, ⟨[],.fat ()⟩]

theorem idle_smallSystems : Idle smallSystems := ⟨fun _ _=>rfl,fun _=>rfl,rfl⟩

theorem refs_smallSystems (n : VfsNode Unit) : smallSystems.refs n=0 := by cases n <;> rfl

/-- Get the root of the volume and its first leaf, and put both. -/
def rootAndLeaf : Exec (FileSystems Unit) (VfsNode Unit) := do
  let root ← getRoot smallSetup (.fat ())
  lock root
  let leaf ← getLeafNode smallSetup root 0
  unlock root
  vfsPut root
  vfsPut (leaf.getD root)
  return root

/-- Ask the root of the volume for its second leaf; what was there before is returned. -/
def secondLeaf : Exec (FileSystems Unit) (FileSystems Unit) := do
  let root ← getRoot smallSetup (.fat ())
  lock root
  let before ← get
  let _ ← getLeaf smallSetup root 1
  return before

end

end Yaos2.Vfs
