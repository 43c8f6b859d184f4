import Yaos2.Fat.Nodes
import Yaos2.Vfs.Mount

/-! # Nodes and files of the virtual file system

The root of the devices is a static node without the data that the count is kept in. -/
namespace Yaos2.Vfs
open Foundation Fat Function

/-- `struct vfs_node` with its `struct devfs_vfs_node_data` and the name of the device. -/
structure DevfsNode where
  index : ℕ
  name : List UInt8
  ref : UInt32
  /-- The running thread holds the mutex of the node. -/
  locked : Bool

/-- The registered devices, by their addresses. -/
structure Devfs where
  list : List ℕ
  node : ℕ → DevfsNode
  /-- The running thread holds `devfs_mutex`. -/
  held : Bool

namespace Devfs

def modifyNode (s : Devfs) (a : ℕ) (f : DevfsNode → DevfsNode) : Devfs :=
  {s with node := update s.node a (f (s.node a))}

def acquire : Exec Devfs Unit := do
  panicIf (← get).held "thread_mutex_acquire(): on held lock"
  modify fun s=>{s with held := true}

def release : Exec Devfs Unit := do
  panicIf (!(← get).held) "thread_mutex_release(): called on an unheld mutex"
  modify fun s=>{s with held := false}
end Devfs

/-- The node that a search finds gets one more reference. -/
def devfsTake (search : Devfs → Option ℕ) : Exec Devfs (Option ℕ) := do
  Devfs.acquire
  let node := search (← get)
  match node with
  | some a => modify fun s=>s.modifyNode a fun nd=>{nd with ref := nd.ref+1}
  | none => pure ()
  Devfs.release
  return node

def devfsGetByIndex (index : ℕ) : Exec Devfs (Option ℕ) :=
  devfsTake fun s=>s.list.find? (fun a=>(s.node a).index == index)

def devfsGetByPath (path : List UInt8) : Exec Devfs (Option ℕ) := do
  panicIf (path.headD 0≠vfsSeparator) "devfs_get_by_path(): incorrect path format"
  panicIf (path.getLastD 0=vfsSeparator) "devfs_get_by_path(): incorrect path format"
  devfsTake fun s=>s.list.find? (fun a=>kstrcmp path.tail (s.node a).name)

/-- The data of the node is at an address, or missing. -/
def devfsPut : Option ℕ → Exec Devfs Unit
  | some a => do
    Devfs.acquire
    modify fun s=>s.modifyNode a fun nd=>{nd with ref := nd.ref-1}
    Devfs.release
  | none => do
    Devfs.acquire
    abort "NULL pointer"

def devfsRootIndex : ℕ := 1

def devfsRootGetLeaf (n : ℕ) : Exec Devfs ℕ :=
  if n=0 then
    return devfsRootIndex
  else do
    Devfs.acquire
    let s ← get
    let inode := (s.list[n-1]?.map (fun a=>(s.node a).index)).getD 0
    Devfs.release
    return inode

def devfsNodeLock (a : ℕ) : Exec Devfs Unit := do
  panicIf ((← get).node a).locked "thread_mutex_acquire(): on held lock"
  modify fun s=>s.modifyNode a fun nd=>{nd with locked := true}

def devfsNodeUnlock (a : ℕ) : Exec Devfs Unit := do
  panicIf (!((← get).node a).locked) "thread_mutex_release(): called on an unheld mutex"
  modify fun s=>s.modifyNode a fun nd=>{nd with locked := false}

def devfsNodeGetLeaf (a n : ℕ) : Exec Devfs ℕ := do
  panicIf (n > 0) "devfs_node_get_leaf(): requested leaf n > 0"
  return ((← get).node a).index

/-- A super node: that of a FAT volume, or `devfs`. -/
inductive Super (V : Type)
  | fat (vol : V)
  | devfs
  deriving DecidableEq

inductive VfsNode (V : Type)
  | fat (vol : V) (a : ℕ)
  | devfs (a : ℕ)
  | devfsRoot
  deriving DecidableEq

structure File (V : Type) where
  node : VfsNode V
  ref : UInt32

/-- The file systems, and the files with the list of them. -/
structure FileSystems (V : Type) where
  fat : V → FatSuper
  devfs : Devfs
  file : ℕ → File V
  fileList : List ℕ

/-- The volumes, the sizes that bound the loops, free memory, and what is in it. -/
structure Setup (V : Type) where
  data : V → SuperData
  rootEntry : V → Record
  limit : ℕ
  depth : ℕ
  alloc : Allocator
  stale : FatResult

variable {V : Type} [DecidableEq V]

namespace FileSystems

def setFat (s : FileSystems V) (vol : V) (f : FatSuper) : FileSystems V := {s with fat := update s.fat vol f}

def setDevfs (s : FileSystems V) (f : Devfs) : FileSystems V := {s with devfs := f}

def modifyFile (s : FileSystems V) (f : ℕ) (g : File V → File V) : FileSystems V :=
  {s with file := update s.file f (g (s.file f))}

/-- The file is filled out and put on the list. -/
def insertFile (s : FileSystems V) (f : ℕ) (node : VfsNode V) : FileSystems V :=
  {s with file := update s.file f {node := node, ref := 1}, fileList := f::s.fileList}

def removeFile (s : FileSystems V) (f : ℕ) : FileSystems V := {s with fileList := s.fileList.erase f}

/-- The references that a node has. No count is kept for the root of the devices. -/
def refs (s : FileSystems V) : VfsNode V → ℕ
  | .fat vol a => (s.fat vol).refs a
  | .devfs a => (s.devfs.node a).ref.toNat
  | .devfsRoot => 0
end FileSystems

def onFat {α : Type} (vol : V) (x : Exec FatSuper α) : Exec (FileSystems V) α :=
  zoom (fun s=>s.fat vol) (fun f s=>s.setFat vol f) x

def onDevfs {α : Type} (x : Exec Devfs α) : Exec (FileSystems V) α := zoom FileSystems.devfs (fun f s=>s.setDevfs f) x

section
variable (c : Setup V)

def getRoot : Super V → Exec (FileSystems V) (VfsNode V)
  | .fat vol => do return .fat vol (← onFat vol (fatVfsGetRoot (c.rootEntry vol) c.alloc))
  | .devfs => return .devfsRoot

def getByIndex : Super V → ℕ → Exec (FileSystems V) (Option (VfsNode V))
  | .fat vol, index => do return some (.fat vol (← onFat vol (fatVfsGetByIndex index)))
  | .devfs, index => do return (← onDevfs (devfsGetByIndex index)).map .devfs

def getByPath : Super V → List UInt8 → Exec (FileSystems V) (Option (VfsNode V))
  | .fat vol, path => do
    return (← onFat vol (fatVfsGetByPath (c.data vol) (c.rootEntry vol) c.limit c.depth c.alloc c.stale path)).map
      (.fat vol)
  | .devfs, path => do return (← onDevfs (devfsGetByPath path)).map .devfs

def getLeafNode : VfsNode V → ℕ → Exec (FileSystems V) (Option (VfsNode V))
  | .fat vol a, n => do
    return some (.fat vol (← onFat vol (fatVfsNodeGetLeafNode (c.data vol) c.limit c.alloc c.stale a n)))
  | .devfs a, n => do
    panicIf (n > 0) "devfs_node_get_leaf_node(): requested leaf n > 0"
    return some (.devfs a)
  | .devfsRoot, n =>
    if n=0 then
      return some .devfsRoot
    else do
      return (← onDevfs (devfsTake fun s=>s.list[n-1]?)).map .devfs

def getLeaf : VfsNode V → ℕ → Exec (FileSystems V) ℕ
  | .fat vol a, n => onFat vol (fatVfsNodeGetLeaf (c.data vol) c.limit c.alloc c.stale a n)
  | .devfs a, n => onDevfs (devfsNodeGetLeaf a n)
  | .devfsRoot, n => onDevfs (devfsRootGetLeaf n)

def lock : VfsNode V → Exec (FileSystems V) Unit
  | .fat vol a => onFat vol (fatVfsNodeLock a)
  | .devfs a => onDevfs (devfsNodeLock a)
  | .devfsRoot => onDevfs Devfs.acquire

def unlock : VfsNode V → Exec (FileSystems V) Unit
  | .fat vol a => onFat vol (fatVfsNodeUnlock a)
  | .devfs a => onDevfs (devfsNodeUnlock a)
  | .devfsRoot => onDevfs Devfs.release

/-- `put` of the super node that is the parent. -/
def vfsPut : VfsNode V → Exec (FileSystems V) Unit
  | .fat vol a => onFat vol (fatVfsPut a)
  | .devfs a => onDevfs (devfsPut (some a))
  | .devfsRoot => onDevfs (devfsPut none)

/-- `vfs_get`, with the call that it makes. -/
def vfsGetNode (mounts : List (Mount (Super V))) (path : List UInt8) : Exec (FileSystems V) (Option (VfsNode V)) :=
  match vfsGet mounts path with
  | none => return none
  | some (.getRoot superNode) => do return some (← getRoot c superNode)
  | some (.getByPath superNode path) => getByPath c superNode path

/-- The file is returned by its address. -/
def vfsOpen (mounts : List (Mount (Super V))) (path : List UInt8) : Exec (FileSystems V) (Option ℕ) := do
  match ← vfsGetNode c mounts path with
  | none => return none
  | some node => do
    let s ← get
    set (s.insertFile (c.alloc.alloc s.fileList) node)
    return some (c.alloc.alloc s.fileList)

/-- The count of a file is changed under the lock of its node. The new count is returned. -/
def changeRef (f : ℕ) (g : UInt32 → UInt32) : Exec (FileSystems V) UInt32 := do
  let node := ((← get).file f).node
  lock node
  modify fun s=>s.modifyFile f fun file=>{file with ref := g file.ref}
  let ref := ((← get).file f).ref
  unlock node
  return ref

def vfsFileDup (f : ℕ) : Exec (FileSystems V) ℕ := do
  let _ ← changeRef f (fun ref=>ref+1)
  return f

/-- Whether the reference that goes is the last one. -/
def dropRef (f : ℕ) : Exec (FileSystems V) Bool := do
  return (← changeRef f (fun ref=>ref-1))=0

def vfsClose (f : ℕ) : Exec (FileSystems V) Unit := do
  if ← dropRef f then
    modify fun s=>s.removeFile f
    vfsPut ((← get).file f).node
  else
    return
end

end Yaos2.Vfs
