import Yaos2.Fat.Leaves
import Yaos2.Vfs.Devices

/-! # Listing a directory leaf by leaf -/
namespace Yaos2.Vfs
open Foundation Fat List

section
variable (d : SuperData) (limit : ℕ) (alloc : Allocator)

/-- The calls of `dump_tree` on a directory of a volume. Each has its own result, which is not initialized. -/
def fatEnumerate (stale : LeafCall → FatResult) (a : ℕ) : Exec FatSuper (List ℕ) := do
  fatVfsNodeLock a
  let n ← fatVfsNodeGetNumLeaves d limit (stale .num) a
  let leaves ← leafCalls d limit alloc a ((List.range n).map (fun i=>(.leaf i,stale (.leaf i))))
  fatVfsNodeUnlock a
  return leaves

def devfsRootGetNumLeaves : Exec DevfsRegistry UInt32 := do
  kassert "thread_mutex_held(&devfs_mutex)" (← get).devfs.held
  return (← get).numLeaves

def devfsRootGetLeafNode (n : ℕ) : Exec Devfs (Option (VfsNode Unit)) :=
  if n=0 then return some .devfsRoot
  else do return (← devfsTake fun s=>s.list[n-1]?).map .devfs

def devfsLeaves : List ℕ → Exec Devfs (List (Option (VfsNode Unit)))
  | [] => return []
  | n::ns => do
    let leaf ← devfsRootGetLeafNode n
    let leaves ← devfsLeaves ns
    return leaf::leaves

/-- The same calls on the root of the devices. -/
def devfsEnumerate : Exec DevfsRegistry (List (Option (VfsNode Unit))) := do
  DevfsRegistry.within Devfs.acquire
  let n ← devfsRootGetNumLeaves
  let leaves ← DevfsRegistry.within (devfsLeaves (List.range n.toNat))
  DevfsRegistry.within Devfs.release
  return leaves
end

/-- An entry for the directory itself, by the bytes of its name on the disk: a dot and blanks. -/
def isDot (e : ℕ × DirEntry) : Bool := (List.range 11).map e.2.record.byte == 0x2e::List.replicate 10 0x20

def entryCluster (e : ℕ × DirEntry) : ℕ := e.2.cluster

/-- The node of an entry, when there is one. -/
def nodeOf (t : FatSuper) (e : ℕ × DirEntry) : Option ℕ := t.lookup (entryCluster e)

/-- The directory comes first, and then once for each entry other than its own the node of that entry. -/
def Listed (a : ℕ) (es : List (ℕ × DirEntry)) (leaves : List ℕ) (t : FatSuper) : Prop :=
  ∃ rest, leaves=a::rest ∧ (rest.map some).Perm ((es.filter (fun e=>!isDot e)).map (nodeOf t))

/-- The root comes first, and then every device once. -/
def DevicesListed (s : DevfsRegistry) : Prop :=
  Returns devfsEnumerate s (fun leaves _=>∃ rest, leaves=some .devfsRoot::rest ∧
    rest.Perm (s.devfs.list.map (fun a=>some (.devfs a))))

/-- The first entry stands in the place of the only one for the directory itself. -/
def DotFirst (es : List (ℕ × DirEntry)) : Prop :=
  ∃ e, es.head? = some e ∧ (es.filter isDot).map entryCluster=[entryCluster e]

variable {d : SuperData} {limit first a : ℕ} {alloc : Allocator} {stale : LeafCall → FatResult} {r : FatResult}
  {s t : FatSuper} {e : ℕ × DirEntry} {es : List (ℕ × DirEntry)}

section

theorem dotFirst_cons_iff : DotFirst (e::es) ↔
    (es.map entryCluster).Perm (((e::es).filter (fun x=>!isDot x)).map entryCluster) := by
  have hs := (filter_append_perm isDot (e::es)).map entryCluster
  rw [map_append,map_cons] at hs
  constructor
  · rintro ⟨_,⟨⟩,hdot⟩
    rw [hdot,singleton_append] at hs
    exact ((perm_cons _).mp hs).symm
  · intro h
    refine ⟨e,rfl,perm_singleton.mp ?_⟩
    exact (perm_append_right_iff _).mp (hs.trans (h.cons _))

theorem perm_lookup_iff {xs ys : List ℕ} (hxs : ∀ c ∈ xs, (t.lookup c).isSome) :
    (xs.map t.lookup).Perm (ys.map t.lookup) ↔ xs.Perm ys := by
  refine ⟨fun h=>?_,fun h=>h.map _⟩
  have hbc : ∀ c, (t.lookup c).isSome → (t.lookup c).map (fun b=>(t.node b).firstCluster)=some c := by
    intro c hc
    obtain ⟨b,hb⟩ := Option.isSome_iff_exists.mp hc
    rw [hb,Option.map_some,(FatSuper.mem_of_lookup hb).2]
  have hys : ∀ c ∈ ys, (t.lookup c).isSome := by
    intro c hc
    obtain ⟨x,hx,hxc⟩ := mem_map.mp (h.mem_iff.mpr (mem_map_of_mem hc))
    rw [← hxc]
    exact hxs x hx
  have hmap := h.map (Option.map (fun b=>(t.node b).firstCluster))
  have hsm : ∀ zs : List ℕ, (∀ c ∈ zs, (t.lookup c).isSome) →
      (zs.map t.lookup).map (Option.map (fun b=>(t.node b).firstCluster))=zs.map some := by
    intro zs hzs
    rw [map_map]
    exact map_congr_left (fun c hc=>hbc c (hzs c hc))
  rw [hsm xs hxs,hsm ys hys] at hmap
  exact (map_perm_map_iff (Option.some_injective ℕ)).mp hmap

theorem listed_iff_dotFirst
    (h : leaves.map some=(es.head?.map (fun _=>some a)).toList++es.tail.map (nodeOf t)) :
    Listed a es leaves t ↔ DotFirst es := by
  rcases es with _ | ⟨e,es⟩
  · obtain rfl : leaves=[] := map_eq_nil_iff.mp h
    constructor
    · rintro ⟨_,⟨⟩,_⟩
    · rintro ⟨_,⟨⟩,_⟩
  · obtain ⟨b,rest,rfl,hb,hrs⟩ := map_eq_cons_iff.mp h
    obtain rfl := Option.some.inj hb
    change rest.map some=es.map (nodeOf t) at hrs
    have hsm : ∀ c ∈ es.map entryCluster, (t.lookup c).isSome := by
      intro c hc
      have hmem : t.lookup c ∈ rest.map some := by
        rw [hrs]
        obtain ⟨x,hx,rfl⟩ := mem_map.mp hc
        exact mem_map_of_mem hx
      obtain ⟨x,-,hx⟩ := mem_map.mp hmem
      rw [← hx]
      rfl
    have hnd : ∀ xs : List (ℕ × DirEntry), xs.map (nodeOf t)=(xs.map entryCluster).map t.lookup :=
      fun _=>map_map.symm
    rw [dotFirst_cons_iff,← perm_lookup_iff hsm,← hnd,← hnd,← hrs]
    constructor
    · rintro ⟨_,⟨⟩,hpr⟩
      exact hpr
    · exact fun hpr=>⟨rest,rfl,hpr⟩
end

section

theorem map_nodeOf_range' (es : List (ℕ × DirEntry)) (t : FatSuper) :
    (List.range' 1 es.length).map (fun i=>((e::es)[i]?).bind (nodeOf t))=es.map (nodeOf t) := by
  apply List.ext_getElem
  · simp
  · intro i hi _
    simp only [length_map,length_range'] at hi
    simp [Nat.add_comm 1 i,List.getElem?_eq_getElem hi]

theorem fatVfsNodeLock_ready (hlisted : a ∈ s.list) (hfree : (s.node a).locked=false)
    (hcached : Cached first es (s.node a)) : Returns (fatVfsNodeLock a) s (fun _ t=>Ready s.dev first es a t) := by
  simp only [fatVfsNodeLock,Returns,wp_bind,wp_get,wp_modify]
  rw [wp_panicIf (by simp [hfree])]
  have hs := FatSuper.node_modifyNode_self s a (fun nd=>{nd with locked := true})
  refine ⟨rfl,hlisted,?_,?_⟩
  · rw [hs]
  · rw [hs]
    exact ⟨hcached.directory,hcached.cluster,hcached.size,hcached.table⟩

theorem fatVfsNodeUnlock_ready (h : Ready dev first es a s) :
    Returns (fatVfsNodeUnlock a) s (fun _ t=>nodeOf t=nodeOf s) := by
  simp only [fatVfsNodeUnlock,Returns,wp_bind,wp_get,wp_modify]
  rw [wp_panicIf (by simp [h.locked])]
  exact funext fun e=>(quiet_locked s a false).lookup (entryCluster e)

theorem leafCalls_range (hscan : Scan d limit dev first 0 r (e::es))
    (hlimit : (e::es).length<limit) (h : Ready dev first (e::es) a s) :
    Returns (leafCalls d limit alloc a ((List.range (e::es).length).map (fun i=>(.leaf i,stale (.leaf i))))) s
      (fun leaves t=>Ready dev first (e::es) a t ∧ leaves.map some=some a::es.map (nodeOf t)) := by
  have hsl : Returns (fatVfsNodeGetLeafNode d limit alloc (stale (.leaf 0)) a 0) s (fun b t=>b=a ∧ t=s) := by
    rw [fatVfsNodeGetLeafNode,Returns,wp_bind,wp_get,wp_bind,wp_panicIf (by simp [h.locked]),if_pos rfl]
    exact (wp_pure ..).mpr ⟨rfl,rfl⟩
  rw [length_cons,List.range_eq_range',List.range'_succ,map_cons,leafCalls,Returns,wp_bind]
  apply Ensures.imp hsl
  rintro _ _ ⟨rfl,rfl⟩
  rw [wp_bind]
  apply Ensures.imp (leafCalls_resolved hscan hlimit h ?_)
  · rintro leaves t ⟨hrd,hres⟩
    refine (wp_pure ..).mpr ⟨hrd,?_⟩
    rw [map_cons,hres.answers_some,← map_nodeOf_range' (e := e),map_map,map_map]
    rfl
  · intro n hn
    simp only [map_map,mem_map,mem_range'_1,Function.comp_apply,LeafCall.leaf.injEq] at hn
    obtain ⟨i,hi,rfl⟩ := hn
    rw [length_cons]
    omega

variable (hscan : Scan d limit s.dev first 0 r es) (hlimit : es.length<limit) (hlisted : a ∈ s.list)
  (hfree : (s.node a).locked=false) (hcached : Cached first es (s.node a))
include hscan hlimit hlisted hfree hcached
theorem fatEnumerate_returns : Returns (fatEnumerate d limit alloc stale a) s (fun leaves t =>
    leaves.map some=(es.head?.map (fun _=>some a)).toList++es.tail.map (nodeOf t)) := by
  rw [fatEnumerate,Returns,wp_bind]
  apply Ensures.imp (fatVfsNodeLock_ready hlisted hfree hcached)
  intro _ t ht
  rw [wp_bind]
  apply Ensures.imp (fatVfsNodeGetNumLeaves_ready (hscan.any_result _) hlimit ht)
  rintro _ u ⟨hu,rfl,-⟩
  have hlv : Returns (leafCalls d limit alloc a ((List.range es.length).map (fun i=>(.leaf i,stale (.leaf i))))) u
      (fun leaves v=>Ready s.dev first es a v ∧
        leaves.map some=(es.head?.map (fun _=>some a)).toList++es.tail.map (nodeOf v)) := by
    cases es with
    | nil => exact (wp_pure ..).mpr ⟨hu,rfl⟩
    | cons e es => exact leafCalls_range hscan hlimit hu
  rw [wp_bind]
  apply Ensures.imp hlv
  rintro leaves v ⟨hv,hsm⟩
  rw [wp_bind]
  apply Ensures.imp (fatVfsNodeUnlock_ready hv)
  intro _ w hw
  rw [wp_pure,hw,hsm]

theorem listed_iff : Returns (fatEnumerate d limit alloc stale a) s (Listed a es) ↔ DotFirst es := by
  have hrun := @fatEnumerate_returns d limit first a alloc stale r s es hscan hlimit hlisted hfree hcached
  constructor
  · intro h
    obtain ⟨leaves,t,hok,hsm⟩ := hrun.exists_ok
    exact (listed_iff_dotFirst hsm).mp (h.of_ok hok)
  · exact fun h=>hrun.imp (fun _ _ hsm=>(listed_iff_dotFirst hsm).mpr h)
end

section
variable {s : DevfsRegistry}

theorem devfsLeaves_raises {s : Devfs} (hhl : s.held=true) (ns : List ℕ) :
    Raises (devfsLeaves (0::1::ns)) s "thread_mutex_acquire(): on held lock" := by
  obtain ⟨list,node,held⟩ := s
  obtain rfl : held=true := hhl
  exact ⟨_,rfl⟩

/-- The registry while its root is locked. -/
def DevfsRegistry.opened (s : DevfsRegistry) : DevfsRegistry := {s with devfs := {s.devfs with held := true}}

section
variable (hfree : s.devfs.held=false)
include hfree
theorem devfsEnumerate_eq : devfsEnumerate s=(do
    let leaves ← DevfsRegistry.within (devfsLeaves (List.range s.numLeaves.toNat))
    DevfsRegistry.within Devfs.release
    return leaves : Exec DevfsRegistry (List (Option (VfsNode Unit)))) s.opened := by
  have ha : DevfsRegistry.within Devfs.acquire s=.ok () s.opened := by
    obtain ⟨⟨list,node,held⟩,numLeaves,inodeSeq⟩ := s
    obtain rfl : held=false := hfree
    rfl
  have hnum : devfsRootGetNumLeaves s.opened=.ok s.numLeaves s.opened := rfl
  rw [devfsEnumerate,bind_of_ok ha,bind_of_ok hnum]

theorem devfsEnumerate_one (hnum : s.numLeaves.toNat=1) :
    Returns devfsEnumerate s (fun leaves _=>leaves=[some .devfsRoot]) := by
  rw [Returns,Ensures,devfsEnumerate_eq hfree,hnum]
  rfl

theorem devfsEnumerate_raises (hnum : 2 ≤ s.numLeaves.toNat) :
    Raises devfsEnumerate s "thread_mutex_acquire(): on held lock" := by
  obtain ⟨n,hn⟩ := Nat.exists_eq_add_of_le' hnum
  obtain ⟨t,ht⟩ := devfsLeaves_raises (s := s.opened.devfs) rfl (List.range' 2 n)
  have hlv : DevfsRegistry.within (devfsLeaves (0::1::List.range' 2 n)) s.opened =
      .error "thread_mutex_acquire(): on held lock" {s.opened with devfs := t} := by
    rw [DevfsRegistry.within,zoom,ht]
  refine ⟨{s.opened with devfs := t},?_⟩
  rw [devfsEnumerate_eq hfree,hn,List.range_eq_range',List.range'_succ,List.range'_succ]
  exact bind_of_error hlv

theorem not_devicesListed (hnum : s.numLeaves.toNat=s.devfs.list.length)
    (hne : s.devfs.list≠[]) : ¬DevicesListed s := by
  intro h
  have hpos := length_pos_iff.mpr hne
  obtain hone | htwo : s.devfs.list.length=1 ∨ 2 ≤ s.devfs.list.length := by omega
  · obtain ⟨leaves,t,hok,rfl⟩ := (devfsEnumerate_one hfree (hnum.trans hone)).exists_ok
    obtain ⟨rest,⟨⟩,hpr⟩ := h.of_ok hok
    have hln := hpr.length_eq
    rw [length_map,hone] at hln
    cases hln
  · exact h.not_raises (devfsEnumerate_raises hfree (hnum▸htwo))
end

end

/-- The listing of a directory is right iff its first entry is its only own one, and that of the devices never is. -/
theorem enumerate_iff (alloc : Allocator) (stale : LeafCall → FatResult) (hscan : Scan d limit s.dev first 0 r es)
    (hlimit : es.length<limit) (hlisted : a ∈ s.list) (hfree : (s.node a).locked=false) (hcached : Cached first es (s.node a)) {devices : DevfsRegistry}
    (hmutex : devices.devfs.held=false) (hnum : devices.numLeaves.toNat=devices.devfs.list.length)
    (hne : devices.devfs.list≠[]) :
    (Returns (fatEnumerate d limit alloc stale a) s (Listed a es) ↔ DotFirst es) ∧ ¬DevicesListed devices :=
  ⟨listed_iff hscan hlimit hlisted hfree hcached,not_devicesListed hmutex hnum hne⟩

def dotRecord : Record := 0x2e::List.replicate 10 0x20++[0x10]++List.replicate 14 0++[2]++List.replicate 5 0

def dot : DirEntry := ⟨cString dotRecord.shortBuffer,dotRecord⟩

theorem dirSuper_nodup : [1].Nodup := nodup_singleton 1

/-- The volume with the node of the directory that these records are in. -/
def dirSuper (r : Record) : FatSuper where
  dev := dirDisk r
  list := [1]
  node := fun _=>unsafeCreate (rootResult rootRecord)
  nofNodes := 1
  nodup := dirSuper_nodup

theorem dirSuper_scan (r : Record) (rs : List Record) (henc : Encodes rs des) (hlen : rs.length≤16)
    (hrs : (List.range' 0 rs.length).map (fun i =>
      ((chainData (smallVolume 1) (dirDisk r) [2]).drop (i*fatEntrySize)).take fatEntrySize)=rs) :
    ∃ es, Scan (smallVolume 1) 16 (dirSuper r).dev 2 0 noResult es ∧ es.map Prod.snd=des :=
  henc.scan (dirDisk_delivers hlen hrs) hlen noResult

theorem cached_dirSuper (r : Record) (es : List (ℕ × DirEntry)) : Cached 2 es ((dirSuper r).node 1) :=
  cached_unsafeCreate (by decide) (by decide)

theorem enumerate_iff_subdirectory : ∃ es : List (ℕ × DirEntry), es.map Prod.snd=[dot, foobar] ∧
    Returns (fatEnumerate (smallVolume 1) 16 bumpAllocator (fun _=>noResult) 1) (dirSuper (dotRecord++foobar.record))
      (Listed 1 es) ∧ ¬DevicesListed (ttys tty tty0).devfs := by
  obtain ⟨es,hscan,hes⟩ := dirSuper_scan (dotRecord++foobar.record) [dotRecord, foobar.record, List.replicate 32 0]
    (.short ⟨by decide,by decide,by decide⟩ (.short ⟨by decide,by decide,by decide⟩ (.last [] (by decide)))) (by decide)
    (by decide +kernel)
  have hln : es.length=2 := by rw [← length_map Prod.snd,hes]; rfl
  have hnum : (ttys tty tty0).devfs.numLeaves.toNat=(ttys tty tty0).devfs.devfs.list.length := rfl
  have h := enumerate_iff bumpAllocator (fun _=>noResult) hscan (by omega) mem_cons_self rfl (cached_dirSuper _ es) rfl hnum (by decide)
  refine ⟨es,hes,h.1.mpr ?_,h.2⟩
  obtain ⟨⟨i,_⟩,_,rfl,rfl,htl⟩ := map_eq_cons_iff.mp hes
  obtain ⟨⟨j,_⟩,_,rfl,rfl,hnil⟩ := map_eq_cons_iff.mp htl
  obtain rfl := map_eq_nil_iff.mp hnil
  exact ⟨(i, dot),rfl,rfl⟩

/-- The only entry of a root directory and a single device are left out, and with two devices the kernel panics. -/
theorem enumerate_misses : (∃ es : List (ℕ × DirEntry), es.map Prod.snd=[foobar] ∧
      ¬Returns (fatEnumerate (smallVolume 1) 16 bumpAllocator (fun _=>noResult) 1) (dirSuper foobar.record) (Listed 1 es)) ∧
    Returns devfsEnumerate (devfsInit.insert 1 tty) (fun leaves _=>leaves=[some .devfsRoot]) ∧
    Raises devfsEnumerate (ttys tty tty0).devfs "thread_mutex_acquire(): on held lock" := by
  refine ⟨?_,devfsEnumerate_one rfl rfl,devfsEnumerate_raises rfl (by decide)⟩
  obtain ⟨es,hscan,hes⟩ := dirSuper_scan foobar.record [foobar.record, List.replicate 32 0]
    (.short ⟨by decide,by decide,by decide⟩ (.last [] (by decide))) (by decide) (by decide +kernel)
  have hln : es.length=1 := by rw [← length_map Prod.snd,hes]; rfl
  refine ⟨es,hes,fun h=>?_⟩
  obtain ⟨e,-,hdot⟩ := (listed_iff hscan (by omega) mem_cons_self rfl (cached_dirSuper _ es)).mp h
  obtain ⟨⟨i,_⟩,_,rfl,rfl,hnil⟩ := map_eq_cons_iff.mp hes
  obtain rfl := map_eq_nil_iff.mp hnil
  cases hdot

end Yaos2.Vfs
