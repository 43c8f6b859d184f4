import Yaos2.Fat.Walk

/-! # The nodes of a FAT volume

The super node keeps the nodes that have been asked for in a list. -/
namespace Yaos2.Fat
open Foundation Function List

def fatVfsTruncateThreshold : ℕ := 30
def fatVfsCacheLeaves : ℕ := 16
def fatInvalidCluster : ℕ := 0

def Record.numBytes (r : Record) : ℕ := littleEndian ((r.drop 28).take 4)

/-- `struct vfs_node` with its `struct fat_vfs_node_data`. -/
structure FatNode where
  directory : Bool
  index : ℕ
  dirCluster : ℕ
  firstCluster : ℕ
  ref : UInt32
  hit : UInt32
  /-- The running thread holds the mutex of the node. -/
  locked : Bool
  leavesDirty : Bool
  numLeaves : ℕ
  leaves : List ℕ
  name : List UInt8
  numBytes : ℕ

/-- The part of the super node that changes, with the disk. The nodes are listed by their addresses. -/
structure FatSuper where
  dev : BlockDev
  list : List ℕ
  node : ℕ → FatNode
  nofNodes : UInt32
  nodup : list.Nodup

/-- `kalloc`: an address where nothing that is in use is. -/
structure Allocator where
  alloc : List ℕ → ℕ
  fresh : ∀ used, alloc used ∉ used

namespace FatSuper

def modifyNode (s : FatSuper) (a : ℕ) (f : FatNode → FatNode) : FatSuper :=
  {s with node := update s.node a (f (s.node a))}

/-- `LIST_INSERT_HEAD` of a new node. -/
def insert (s : FatSuper) (a : ℕ) (nd : FatNode) (h : a ∉ s.list) : FatSuper where
  dev := s.dev
  list := a::s.list
  node := update s.node a nd
  nofNodes := s.nofNodes+1
  nodup := nodup_cons.mpr ⟨h,s.nodup⟩

/-- `LIST_REMOVE`, and the node is freed. -/
def remove (s : FatSuper) (a : ℕ) : FatSuper where
  dev := s.dev
  list := s.list.erase a
  node := s.node
  nofNodes := s.nofNodes-1
  nodup := s.nodup.erase a

/-- The references that a node has; one that has been freed has none. -/
def refs (s : FatSuper) (a : ℕ) : ℕ := if a ∈ s.list then (s.node a).ref.toNat else 0

/-- The search of `unsafe_truncate`. -/
def lowestNode (s : FatSuper) : Option ℕ := (s.list.foldl (fun (low : UInt32 × Option ℕ) a =>
    if (s.node a).ref=0 ∧ (s.node a).hit<low.1 then ((s.node a).hit, some a) else low) (0xFFFFFFFF, none)).2

/-- What `unsafe_fat_get` finds. -/
def lookup (s : FatSuper) (cluster : ℕ) : Option ℕ := s.list.find? (fun a=>(s.node a).firstCluster == cluster)

/-- One more reference, and a hit. -/
def grab (s : FatSuper) (a : ℕ) : FatSuper := s.modifyNode a fun nd=>{nd with ref := nd.ref+1, hit := nd.hit+1}

def release (s : FatSuper) (a : ℕ) : FatSuper := s.modifyNode a fun nd=>{nd with ref := nd.ref-1}
end FatSuper

def onDisk {α : Type} (x : Exec BlockDev α) : Exec FatSuper α :=
  zoom FatSuper.dev (fun dev s=>{s with dev := dev}) x

def unsafeTruncate : Exec FatSuper Bool := do
  let s ← get
  if s.nofNodes.toNat≤fatVfsTruncateThreshold then
    return false
  else
    match s.lowestNode with
    | some a => do
      set (s.remove a)
      return true
    | none => return false

def unsafeFatGet (firstCluster : ℕ) : Exec FatSuper (Option ℕ) := do
  let s ← get
  return s.list.find? (fun a=>(s.node a).firstCluster == firstCluster)

def unsafeCreate (result : FatResult) : FatNode where
  directory := result.entry.isDirectory
  index := result.entry.cluster
  dirCluster := result.dirCluster
  firstCluster := result.entry.cluster
  ref := 0
  hit := 0
  locked := false
  leavesDirty := true
  numLeaves := 0
  leaves := List.replicate fatVfsCacheLeaves 0
  name := bytes result.lfn 0 fatLfnNameSize
  numBytes := result.entry.numBytes

section
variable (d : SuperData) (rootEntry : Record) (limit depth : ℕ) (alloc : Allocator) (stale : FatResult)

def safeGetWithFatResult (result : FatResult) : Exec FatSuper ℕ := do
  let a ← match ← unsafeFatGet result.entry.cluster with
    | some a => pure a
    | none => do
      let s ← get
      set (s.insert (alloc.alloc s.list) (unsafeCreate result) (alloc.fresh s.list))
      pure (alloc.alloc s.list)
  modify fun s=>s.modifyNode a fun nd=>{nd with ref := nd.ref+1, hit := nd.hit+1}
  return a

def fatVfsGetRoot : Exec FatSuper ℕ :=
  safeGetWithFatResult alloc {dirCluster := fatInvalidCluster, entry := rootEntry, lfn := fun _=>0}

def fatVfsGetByIndex (_ : ℕ) : Exec FatSuper ℕ := abort "fat_vfs_get_by_index(): not implemented"

/-- The result that `fat_walk_path` fills in is not initialized; `stale` is what it held. -/
def fatVfsGetByPath (path : List UInt8) : Exec FatSuper (Option ℕ) := do
  let (status, result) ← onDisk (fatWalkPath d limit depth stale path rootEntry.cluster)
  if status≠.ok then
    return none
  else
    return some (← safeGetWithFatResult alloc result)

def fatVfsPut (a : ℕ) : Exec FatSuper Unit := do
  modify fun s=>s.modifyNode a fun nd=>{nd with ref := nd.ref-1}
  let _ ← unsafeTruncate

def fatVfsNodeLock (a : ℕ) : Exec FatSuper Unit := do
  panicIf ((← get).node a).locked "thread_mutex_acquire(): on held lock"
  modify fun s=>s.modifyNode a fun nd=>{nd with locked := true}

def fatVfsNodeUnlock (a : ℕ) : Exec FatSuper Unit := do
  panicIf (!((← get).node a).locked) "thread_mutex_release(): called on an unheld mutex"
  modify fun s=>s.modifyNode a fun nd=>{nd with locked := false}

/-- The loop of `unsafe_maybe_fill_leaves`, with the number of leaves and the cached ones. -/
def fillLeaves (first : ℕ) : ℕ → ℕ → FatResult → ℕ → List ℕ → Exec BlockDev (ℕ × List ℕ)
  | 0, _, _, _, _ => abort "endless loop"
  | fuel+1, idx, result, num, leaves => do
    let (next, result) ← fatReadEntry d first limit idx none result
    match next with
    | .error => abort "unsafe_fill_leaves(): bad entry"
    | .last => return (num, leaves)
    | .next nextIdx =>
      fillLeaves first fuel nextIdx result (num+1)
        (if num<fatVfsCacheLeaves then leaves.set num idx else leaves)

def unsafeMaybeFillLeaves (a : ℕ) : Exec FatSuper Unit := do
  let nd := (← get).node a
  panicIf (!nd.directory) "unsafe_fill_leaves(): not a directory"
  if nd.leavesDirty then
    let (num, leaves) ← onDisk (fillLeaves d limit nd.firstCluster limit 0 stale 0 nd.leaves)
    modify fun s=>s.modifyNode a fun nd=>{nd with numLeaves := num, leaves := leaves, leavesDirty := false}
  else
    return

def fatVfsNodeGetNumLeaves (a : ℕ) : Exec FatSuper ℕ := do
  panicIf (!((← get).node a).locked) "fat_vfs_node_get_num_leaves(): mutex not held"
  if !((← get).node a).directory then
    return 1
  else
    unsafeMaybeFillLeaves d limit stale a
    return ((← get).node a).numLeaves

/-- The entries that are read after the end of the cache. -/
def skipLeaves (first : ℕ) : ℕ → EntryIndex → FatResult → Exec BlockDev FatResult
  | 0, _, result => return result
  | _+1, .last, _ => abort "fat_vfs_node_get_leaf_node(): unexpected end of entries"
  | _+1, .error, _ => abort "fat_vfs_node_get_leaf_node(): bad entry"
  | n+1, .next idx, result => do
    let (next, result) ← fatReadEntry d first limit idx none result
    panicIf (next=.error) "fat_vfs_node_get_leaf_node(): bad entry"
    skipLeaves first n next result

def readLeaf (nd : FatNode) (n : ℕ) : Exec BlockDev FatResult :=
  if n<fatVfsCacheLeaves then do
    let (idx, result) ← fatReadEntry d nd.firstCluster limit (nd.leaves.getD n 0) none stale
    panicIf (idx=.error) "fat_vfs_node_get_leaf_node(): bad entry (cache hit)"
    return result
  else
    skipLeaves d limit nd.firstCluster (n-fatVfsCacheLeaves+2) (.next (nd.leaves.getD (fatVfsCacheLeaves-1) 0))
      stale

def fatVfsNodeGetLeafNode (a n : ℕ) : Exec FatSuper ℕ := do
  panicIf (!((← get).node a).locked) "fat_vfs_node_get_leaf_node(): mutex not held"
  if n=0 then
    return a
  else
    panicIf (!((← get).node a).directory) "fat_vfs_node_get_leaf_node(): n > 0 for non-directory node"
    unsafeMaybeFillLeaves d limit stale a
    let nd := (← get).node a
    panicIf (n ≥ nd.numLeaves) "fat_vfs_node_get_leaf_node(): n >= num_leaves"
    let result ← onDisk (readLeaf d limit stale nd n)
    safeGetWithFatResult alloc result

def fatVfsNodeGetLeaf (a n : ℕ) : Exec FatSuper ℕ := do
  let leaf ← fatVfsNodeGetLeafNode d limit alloc stale a n
  return ((← get).node leaf).index
end

section
variable {d : SuperData} {s t u : FatSuper} {a b n : ℕ} {r : FatResult}

namespace FatSuper

theorem node_modifyNode_self (s : FatSuper) (a : ℕ) (g : FatNode → FatNode) :
    (s.modifyNode a g).node a=g (s.node a) := update_self ..

theorem node_modifyNode_of_ne (h : b≠a) : (s.modifyNode a g).node b=s.node b := update_of_ne h ..

theorem modifyNode_keeps {P : FatNode → Prop} (hg : ∀ nd, P nd → P (g nd)) (h : P (s.node b)) :
    P ((s.modifyNode a g).node b) := by
  by_cases hb : b=a
  · simp_all [node_modifyNode_self]
  · rwa [node_modifyNode_of_ne hb]

theorem node_insert_self (nd : FatNode) (h : a ∉ s.list) : (s.insert a nd h).node a=nd := update_self ..

theorem node_insert_of_mem (nd : FatNode) (h : a ∉ s.list) (hb : b ∈ s.list) : (s.insert a nd h).node b=s.node b :=
  update_of_ne (ne_of_mem_of_not_mem hb h) ..

/-- What the search of `unsafe_truncate` has kept after the nodes `passed`. -/
structure Lowest (s : FatSuper) (passed : List ℕ) (low : UInt32 × Option ℕ) : Prop where
  chosen : ∀ b, low.2=some b → b ∈ passed ∧ (s.node b).ref=0 ∧ (s.node b).hit=low.1
  least : ∀ c ∈ passed, (s.node c).ref=0 → low.1≤(s.node c).hit

theorem Lowest.foldl (h : s.Lowest passed low) (l : List ℕ) :
    s.Lowest (passed++l) (l.foldl (fun (low : UInt32 × Option ℕ) a =>
      if (s.node a).ref=0 ∧ (s.node a).hit<low.1 then ((s.node a).hit, some a) else low) low) := by
  induction l generalizing passed low with
  | nil => simpa using h
  | cons c l ih =>
    rw [foldl_cons,← singleton_append,← append_assoc]
    apply ih
    by_cases hc : (s.node c).ref=0 ∧ (s.node c).hit<low.1
    · rw [if_pos hc]
      constructor
      · simp_all
      · intro b hb href
        rcases mem_append.mp hb with hb | hb
        · exact UInt32.le_trans (UInt32.le_of_lt hc.2) (h.least b hb href)
        · obtain rfl := mem_singleton.mp hb
          exact UInt32.le_refl _
    · rw [if_neg hc]
      constructor
      · intro b hb
        obtain ⟨hmem,hr⟩ := h.chosen b hb
        exact ⟨mem_append_left _ hmem,hr⟩
      · intro b hb href
        rcases mem_append.mp hb with hb | hb
        · exact h.least b hb href
        · obtain rfl := mem_singleton.mp hb
          exact UInt32.not_lt.mp (fun hlt=>hc ⟨href,hlt⟩)

theorem lowestNode_spec (h : s.lowestNode=some a) :
    a ∈ s.list ∧ (s.node a).ref=0 ∧ ∀ c ∈ s.list, (s.node c).ref=0 → (s.node a).hit≤(s.node c).hit := by
  have hst : s.Lowest [] (0xFFFFFFFF, none) := ⟨fun _ hb=>(by cases hb),by simp⟩
  have hlow := hst.foldl s.list
  obtain ⟨hmem,href,hhit⟩ := hlow.chosen a h
  refine ⟨hmem,href,fun c hc hfr=>?_⟩
  rw [hhit]
  exact hlow.least c hc hfr
end FatSuper

/-- The nodes differ at most in the mutex and the cache of the leaves. -/
structure FatNode.Alike (nd nd' : FatNode) : Prop where
  directory : nd'.directory=nd.directory
  index : nd'.index=nd.index
  dirCluster : nd'.dirCluster=nd.dirCluster
  firstCluster : nd'.firstCluster=nd.firstCluster
  ref : nd'.ref=nd.ref
  hit : nd'.hit=nd.hit
  name : nd'.name=nd.name
  numBytes : nd'.numBytes=nd.numBytes

/-- The list and the nodes are as before, but for mutexes and caches of leaves. -/
structure Quiet (s t : FatSuper) : Prop where
  list : t.list=s.list
  nofNodes : t.nofNodes=s.nofNodes
  node : ∀ b, (s.node b).Alike (t.node b)

/-- What reading a directory does: the mutexes are as before, too. -/
structure Reads (s t : FatSuper) : Prop extends Quiet s t where
  locked : ∀ b, (t.node b).locked=(s.node b).locked

/-- What `safe_get_with_fat_result` does for the node `a` that it returns. -/
inductive Obtains (r : FatResult) (s : FatSuper) (a : ℕ) : FatSuper → Prop
  | found : s.lookup r.entry.cluster=some a → Obtains r s a (s.grab a)
  | created (h : a ∉ s.list) : s.lookup r.entry.cluster=none → Obtains r s a ((s.insert a (unsafeCreate r) h).grab a)

inductive Truncates (s : FatSuper) : FatSuper → Prop
  | none : Truncates s s
  | node {b : ℕ} : fatVfsTruncateThreshold<s.nofNodes.toNat → s.lowestNode=some b → Truncates s (s.remove b)

theorem FatNode.Alike.refl (nd : FatNode) : nd.Alike nd := ⟨rfl,rfl,rfl,rfl,rfl,rfl,rfl,rfl⟩

theorem FatNode.Alike.trans {x y z : FatNode} (h : x.Alike y) (h' : y.Alike z) : x.Alike z where
  directory := h'.directory.trans h.directory
  index := h'.index.trans h.index
  dirCluster := h'.dirCluster.trans h.dirCluster
  firstCluster := h'.firstCluster.trans h.firstCluster
  ref := h'.ref.trans h.ref
  hit := h'.hit.trans h.hit
  name := h'.name.trans h.name
  numBytes := h'.numBytes.trans h.numBytes

theorem Reads.refl (s : FatSuper) : Reads s s := ⟨⟨rfl,rfl,fun _=>.refl _⟩,fun _=>rfl⟩

theorem Reads.trans (h : Reads s t) (h' : Reads t u) : Reads s u where
  list := h'.list.trans h.list
  nofNodes := h'.nofNodes.trans h.nofNodes
  node := fun b=>(h.node b).trans (h'.node b)
  locked := fun b=>(h'.locked b).trans (h.locked b)

theorem reads_dev (s : FatSuper) (dev : BlockDev) : Reads s {s with dev := dev} :=
  ⟨⟨rfl,rfl,fun _=>.refl _⟩,fun _=>rfl⟩

theorem quiet_modifyNode (h : (s.node a).Alike (g (s.node a))) : Quiet s (s.modifyNode a g) := by
  refine ⟨rfl,rfl,fun b=>?_⟩
  by_cases hb : b=a
  · simp_all [FatSuper.node_modifyNode_self]
  · rw [FatSuper.node_modifyNode_of_ne hb]
    exact .refl _

theorem quiet_locked (s : FatSuper) (a : ℕ) (x : Bool) : Quiet s (s.modifyNode a fun nd=>{nd with locked := x}) :=
  quiet_modifyNode ⟨rfl,rfl,rfl,rfl,rfl,rfl,rfl,rfl⟩

theorem onDisk_run (x : Exec BlockDev α) (s : FatSuper) :
    Ensures (onDisk x) s (fun a t=>∃ dev, x s.dev=.ok a dev ∧ t = {s with dev := dev}) (fun _=>True) := by
  rw [onDisk,wp_zoom]
  apply (Ensures.trivial x s.dev).with_result.mono
  · exact fun _ dev h=>⟨dev,h.1,rfl⟩
  · exact fun _ _=>trivial

theorem unsafeMaybeFillLeaves_reads (limit : ℕ) (stale : FatResult) (s : FatSuper) :
    Ensures (unsafeMaybeFillLeaves d limit stale a) s (fun _ t=>Reads s t) (fun _=>True) := by
  simp only [unsafeMaybeFillLeaves,wp_bind,wp_get,wp_panicIf_iff]
  refine ⟨fun _=>trivial,fun _=>.ite (fun _=>?_) (fun _=>(wp_pure ..).mpr (.refl s))⟩
  simp only [wp_bind,wp_modify]
  apply (onDisk_run _ s).imp
  rintro ⟨num,leaves⟩ t ⟨dev,-,rfl⟩
  refine (reads_dev s dev).trans ⟨quiet_modifyNode ⟨rfl,rfl,rfl,rfl,rfl,rfl,rfl,rfl⟩,fun b=>?_⟩
  by_cases hb : b=a
  · simp_all [FatSuper.node_modifyNode_self]
  · rw [FatSuper.node_modifyNode_of_ne hb]

theorem fatVfsNodeGetNumLeaves_reads (limit : ℕ) (stale : FatResult) (s : FatSuper) :
    Ensures (fatVfsNodeGetNumLeaves d limit stale a) s (fun _ t=>Reads s t) (fun _=>True) := by
  simp only [fatVfsNodeGetNumLeaves,wp_bind,wp_get,wp_panicIf_iff]
  refine ⟨fun _=>trivial,fun _=>.ite (fun _=>(wp_pure ..).mpr (.refl s)) (fun _=>?_)⟩
  simpa [wp_bind,wp_get,wp_pure] using unsafeMaybeFillLeaves_reads limit stale s

theorem fatVfsNodeLock_quiet (s : FatSuper) : Ensures (fatVfsNodeLock a) s (fun _ t=>Quiet s t) (fun _=>True) := by
  simp only [fatVfsNodeLock,wp_bind,wp_get,wp_panicIf_iff,wp_modify]
  exact ⟨fun _=>trivial,fun _=>quiet_locked s a _⟩

theorem fatVfsNodeUnlock_quiet (s : FatSuper) :
    Ensures (fatVfsNodeUnlock a) s (fun _ t=>Quiet s t) (fun _=>True) := by
  simp only [fatVfsNodeUnlock,wp_bind,wp_get,wp_panicIf_iff,wp_modify]
  exact ⟨fun _=>trivial,fun _=>quiet_locked s a _⟩

theorem safeGetWithFatResult_obtains (alloc : Allocator) (r : FatResult) (s : FatSuper) :
    Returns (safeGetWithFatResult alloc r) s (Obtains r s) := by
  simp only [safeGetWithFatResult,unsafeFatGet,Returns,wp_bind,wp_get,wp_pure]
  cases hf : s.list.find? (fun a=>(s.node a).firstCluster == r.entry.cluster) with
  | some a =>
    simpa [wp_bind,wp_modify,wp_pure] using .found hf
  | none =>
    simpa [wp_bind,wp_get,wp_set,wp_modify,wp_pure] using .created (alloc.fresh s.list) hf

theorem unsafeTruncate_truncates (s : FatSuper) : Returns unsafeTruncate s (fun _ t=>Truncates s t) := by
  rw [unsafeTruncate,Returns,wp_bind,wp_get]
  refine .ite (fun _=>(wp_pure ..).mpr .none) (fun hnof=>?_)
  cases hlow : s.lowestNode with
  | none => exact (wp_pure ..).mpr .none
  | some b =>
    simpa [wp_bind,wp_set,wp_pure] using .node (Nat.lt_of_not_le hnof) hlow

theorem fatVfsPut_truncates (a : ℕ) (s : FatSuper) : Returns (fatVfsPut a) s (fun _ t=>Truncates (s.release a) t) := by
  simp only [fatVfsPut,Returns,wp_bind,wp_modify,wp_pure]
  exact unsafeTruncate_truncates _

theorem fatVfsGetByPath_obtains (rootEntry : Record) (alloc : Allocator) (limit depth : ℕ) (stale : FatResult)
    (path : List UInt8) (s : FatSuper) :
    Ensures (fatVfsGetByPath d rootEntry limit depth alloc stale path) s (fun o t=>match o with
      | none => Reads s t
      | some a => ∃ r dev, fatWalkPath d limit depth stale path rootEntry.cluster s.dev=.ok (.ok, r) dev ∧
        Obtains r {s with dev := dev} a t) (fun _=>True) := by
  rw [fatVfsGetByPath,wp_bind]
  apply (onDisk_run _ s).imp
  rintro ⟨status,r⟩ t ⟨dev,hw,rfl⟩
  refine .ite (fun _=>(wp_pure ..).mpr (reads_dev s dev)) (fun hok=>?_)
  obtain rfl := not_not.mp hok
  simp only [wp_bind,wp_pure]
  exact (safeGetWithFatResult_obtains alloc r _).ensures.imp (fun a t h=>⟨r,dev,hw,h⟩)

theorem fatVfsNodeGetLeafNode_obtains (alloc : Allocator) (limit : ℕ) (stale : FatResult) (n : ℕ) (s : FatSuper) :
    Ensures (fatVfsNodeGetLeafNode d limit alloc stale a n) s (fun b t=>if n=0 then b=a ∧ t=s else
      ∃ u r dev, unsafeMaybeFillLeaves d limit stale a s=.ok () u ∧
        readLeaf d limit stale (u.node a) n u.dev=.ok r dev ∧ Obtains r {u with dev := dev} b t) (fun _=>True) := by
  simp only [fatVfsNodeGetLeafNode,wp_bind,wp_get,wp_panicIf_iff]
  refine ⟨fun _=>trivial,fun _=>.ite (fun hn=>?_) (fun hn=>?_)⟩
  · simp_all
  simp only [wp_bind,wp_get,wp_panicIf_iff,if_neg hn]
  refine ⟨fun _=>trivial,fun _=>?_⟩
  apply (Ensures.trivial _ s).with_result.mono
  · rintro _ u ⟨hf,-⟩
    refine ⟨fun _=>trivial,fun _=>?_⟩
    apply (onDisk_run _ u).imp
    rintro r t ⟨dev,hr,rfl⟩
    exact (safeGetWithFatResult_obtains alloc r _).ensures.imp (fun b t h=>⟨u,r,dev,hf,hr,h⟩)
  · exact fun _ _=>trivial
end

section
variable {s t u : FatSuper} {a b : ℕ} {f : FatNode → FatNode} {alloc : Allocator} {result : FatResult}

namespace FatSuper

theorem refs_modifyNode (ha : a ∈ s.list) :
    (s.modifyNode a f).refs=update s.refs a (f (s.node a)).ref.toNat := by
  funext b
  by_cases hb : b=a <;> simp_all [refs,modifyNode]

theorem locked_modifyNode (h : (f (s.node a)).locked=(s.node a).locked) (b : ℕ) :
    ((s.modifyNode a f).node b).locked=(s.node b).locked := by
  by_cases hb : b=a
  · simp_all [modifyNode]
  · simp [modifyNode,hb]

theorem refs_insert (h : a ∉ s.list) (hnd : nd.ref=0) : (s.insert a nd h).refs=s.refs := by
  funext b
  by_cases hb : b=a
  · simp_all [refs,insert]
  · simp [refs,insert,hb]

theorem refs_remove (h : (s.node a).ref=0) : (s.remove a).refs=s.refs := by
  funext b
  by_cases hb : b=a
  · simp_all [refs,remove]
  · simp [refs,remove,mem_erase_of_ne hb]

theorem mem_of_refs_pos (h : 0<s.refs a) : a ∈ s.list := by
  by_contra hmem
  simp [refs,hmem] at h
end FatSuper

/-- The references are as before, and no mutex of a node has been taken. -/
structure Keeps (s t : FatSuper) : Prop where
  refs : t.refs=s.refs
  locked : ∀ b, (t.node b).locked=true → (s.node b).locked=true

/-- One reference to `a` has been added, and no mutex of a node has been taken. -/
structure Gains (s : FatSuper) (a : ℕ) (t : FatSuper) : Prop where
  refs : t.refs=update s.refs a ((s.refs a+1)%2^32)
  locked : ∀ b, (t.node b).locked=true → (s.node b).locked=true

theorem Keeps.gains (h : Keeps s t) (h' : Gains t a u) : Gains s a u := by
  refine ⟨?_,fun b hb=>h.locked b (h'.locked b hb)⟩
  rw [h'.refs,h.refs]

theorem Quiet.refs (h : Quiet s t) : t.refs=s.refs := by
  funext b
  rw [FatSuper.refs,FatSuper.refs,h.list,(h.node b).ref]

theorem Reads.keeps (h : Reads s t) : Keeps s t := ⟨h.refs,fun b hb=>(h.locked b).symm.trans hb⟩

theorem Truncates.keeps (h : Truncates s t) : Keeps s t := by
  cases h with
  | none => exact ⟨rfl,fun _ hb=>hb⟩
  | node _ hlow => exact ⟨FatSuper.refs_remove (FatSuper.lowestNode_spec hlow).2.1,fun _ hb=>hb⟩

theorem gains_grab (ha : a ∈ s.list) : Gains s a (s.grab a) := by
  refine ⟨?_,fun b hb=>(FatSuper.locked_modifyNode rfl b).symm.trans hb⟩
  rw [FatSuper.grab,FatSuper.refs_modifyNode ha,FatSuper.refs,if_pos ha,UInt32.toNat_add]
  rfl

theorem Obtains.gains (h : Obtains result s a t) : Gains s a t := by
  cases h with
  | found hl => exact gains_grab (mem_of_find?_eq_some hl)
  | created hnew _ =>
    have hk : Keeps s (s.insert a (unsafeCreate result) hnew) := by
      refine ⟨FatSuper.refs_insert _ rfl,fun b hb=>?_⟩
      by_cases hba : b=a <;> simp_all [FatSuper.insert,unsafeCreate]
    exact hk.gains (gains_grab mem_cons_self)

theorem fatVfsPut_spec (hpos : 0<s.refs a) :
    Returns (fatVfsPut a) s (fun _ t=>t.refs=update s.refs a (s.refs a-1) ∧
      ∀ b, (t.node b).locked=true → (s.node b).locked=true) := by
  have ha := FatSuper.mem_of_refs_pos hpos
  have hone : (1 : UInt32)≤(s.node a).ref := by
    rw [FatSuper.refs,if_pos ha] at hpos
    exact UInt32.le_iff_toNat_le.mpr hpos
  apply (fatVfsPut_truncates a s).imp
  intro _ t ht
  refine ⟨?_,fun b hb=>(FatSuper.locked_modifyNode rfl b).symm.trans (ht.keeps.locked b hb)⟩
  rw [ht.keeps.refs,FatSuper.release,FatSuper.refs_modifyNode ha,FatSuper.refs,if_pos ha,
    UInt32.toNat_sub_of_le _ _ hone]
  rfl

variable (d : SuperData) (rootEntry : Record) (limit depth : ℕ) (stale : FatResult) (n : ℕ)

theorem fatVfsGetRoot_spec (s : FatSuper) : Returns (fatVfsGetRoot rootEntry alloc) s (fun a t=>Gains s a t) :=
  (safeGetWithFatResult_obtains alloc _ s).imp (fun _ _ h=>h.gains)

theorem fatVfsGetByPath_spec (path : List UInt8) (s : FatSuper) :
    Ensures (fatVfsGetByPath d rootEntry limit depth alloc stale path) s
      (fun r t=>match r with | none => Keeps s t | some a => Gains s a t) (fun _=>True) := by
  apply (fatVfsGetByPath_obtains rootEntry alloc limit depth stale path s).imp
  intro o t h
  cases o with
  | none => exact h.keeps
  | some a =>
    obtain ⟨r,dev,-,ho⟩ := h
    exact (reads_dev s dev).keeps.gains ho.gains

theorem fatVfsNodeGetLeafNode_spec (s : FatSuper) : Ensures (fatVfsNodeGetLeafNode d limit alloc stale a n) s
      (fun b t=>if n=0 then b=a ∧ t=s else Gains s b t) (fun _=>True) := by
  apply (fatVfsNodeGetLeafNode_obtains alloc limit stale n s).imp
  intro b t h
  by_cases hn : n=0
  · rwa [if_pos hn] at h ⊢
  · rw [if_neg hn] at h ⊢
    obtain ⟨u,r,dev,hf,-,ho⟩ := h
    have hr := (unsafeMaybeFillLeaves_reads limit stale s).of_ok hf
    exact (hr.trans (reads_dev u dev)).keeps.gains ho.gains
end

section

/-- Addresses after all that are in use. -/
def bumpAllocator : Allocator where
  alloc := fun used=>used.foldr max 0+1
  fresh := by
    intro used hmem
    have hle : ∀ (l : List ℕ), ∀ x ∈ l, x≤l.foldr max 0 := by
      intro l
      induction l with
      | nil => simp
      | cons y l ih =>
        intro x hx
        rcases mem_cons.mp hx with rfl | hx
        · exact le_max_left _ _
        · exact (ih x hx).trans (le_max_right _ _)
    exact absurd (hle used _ hmem) (by omega)

def rootRecord : Record := List.replicate 11 0++[0x10]++List.replicate 14 0++[2]++List.replicate 5 0
end

end Yaos2.Fat
