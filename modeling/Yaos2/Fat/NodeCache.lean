import Yaos2.Fat.Nodes
import Yaos2.Foundation.Reasons
import Yaos2.Foundation.Transition

/-! # The cache of the nodes

Beside the super node we keep the references that are handed out, each with the entry that its lookup
has found. -/
namespace Yaos2.Fat
open Foundation Function List Nat

/-- The directory entry that a lookup finds. -/
structure Found where
  dirCluster : ℕ
  entry : DirEntry
  deriving DecidableEq

def FatResult.found (r : FatResult) : Found := ⟨r.dirCluster,r.dirEntry⟩

/-- What `fat_vfs_get_root` fills in for the root, which is in no directory. -/
def rootResult (rootEntry : Record) : FatResult where
  dirCluster := fatInvalidCluster
  entry := rootEntry
  lfn := fun _=>0

section
variable (d : SuperData) (rootEntry : Record)

/-- A call that returns the node `a` for what it has found, or only its part under the mutex. -/
inductive Lookup (s : FatSuper) : Found → ℕ → FatSuper → Prop
  | root {alloc : Allocator} {a : ℕ} {t : FatSuper} :
      fatVfsGetRoot rootEntry alloc s=.ok a t → Lookup s (rootResult rootEntry).found a t
  | path {alloc : Allocator} {limit depth a : ℕ} {stale r : FatResult} {path : List UInt8} {dev : BlockDev} {t : FatSuper} :
      fatWalkPath d limit depth stale path rootEntry.cluster s.dev=.ok (.ok, r) dev →
      fatVfsGetByPath d rootEntry limit depth alloc stale path s=.ok (some a) t → Lookup s r.found a t
  | leaf {alloc : Allocator} {limit node n a : ℕ} {stale r : FatResult} {dev : BlockDev} {u t : FatSuper} : n≠0 →
      unsafeMaybeFillLeaves d limit stale node s=.ok () u →
      readLeaf d limit stale (u.node node) n u.dev=.ok r dev →
      fatVfsNodeGetLeafNode d limit alloc stale node n s=.ok a t → Lookup s r.found a t
  | safe {alloc : Allocator} {a : ℕ} {r : FatResult} {t : FatSuper} :
      safeGetWithFatResult alloc r s=.ok a t → Lookup s r.found a t

/-- A call, with the references that are handed out. A reference is put at most once. -/
inductive CacheStep : FatSuper × List (ℕ × Found) → FatSuper × List (ℕ × Found) → Prop
  | get {s t : FatSuper} {held : List (ℕ × Found)} {f : Found} {a : ℕ} :
      Lookup d rootEntry s f a t → CacheStep (s, held) (t, (a, f)::held)
  | miss {s t : FatSuper} {held : List (ℕ × Found)} {alloc : Allocator} {limit depth : ℕ} {stale : FatResult}
      {path : List UInt8} :
      fatVfsGetByPath d rootEntry limit depth alloc stale path s=.ok none t → CacheStep (s, held) (t, held)
  | put {s t : FatSuper} {held : List (ℕ × Found)} {f : Found} {a : ℕ} : (a, f) ∈ held →
      fatVfsPut a s=.ok () t → CacheStep (s, held) (t, held.erase (a, f))
  | fill {s t : FatSuper} {held : List (ℕ × Found)} {limit a : ℕ} {stale : FatResult} :
      unsafeMaybeFillLeaves d limit stale a s=.ok () t → CacheStep (s, held) (t, held)
  | numLeaves {s t : FatSuper} {held : List (ℕ × Found)} {limit a num : ℕ} {stale : FatResult} :
      fatVfsNodeGetNumLeaves d limit stale a s=.ok num t → CacheStep (s, held) (t, held)
  | lock {s t : FatSuper} {held : List (ℕ × Found)} {a : ℕ} :
      fatVfsNodeLock a s=.ok () t → CacheStep (s, held) (t, held)
  | unlock {s t : FatSuper} {held : List (ℕ × Found)} {a : ℕ} :
      fatVfsNodeUnlock a s=.ok () t → CacheStep (s, held) (t, held)
end

def references (held : List (ℕ × Found)) (a : ℕ) : ℕ := (held.map Prod.fst).count a

variable {d : SuperData} {rootEntry : Record} {s t u : FatSuper} {a b c : ℕ} {r : FatResult} {f : Found}
  {held : List (ℕ × Found)} {x y : FatSuper × List (ℕ × Found)}

section

/-- What a call does to the nodes and to the references. -/
inductive CacheEffect : FatSuper × List (ℕ × Found) → FatSuper × List (ℕ × Found) → Prop
  | quiet {s t : FatSuper} {held : List (ℕ × Found)} : Quiet s t → CacheEffect (s, held) (t, held)
  | get {s t u : FatSuper} {held : List (ℕ × Found)} {r : FatResult} {a : ℕ} : Quiet s u → Obtains r u a t →
      CacheEffect (s, held) (t, (a, r.found)::held)
  | put {s t : FatSuper} {held : List (ℕ × Found)} {f : Found} {a : ℕ} : (a, f) ∈ held → fatVfsPut a s=.ok () t →
      Truncates (s.release a) t → CacheEffect (s, held) (t, held.erase (a, f))

theorem Lookup.effect (h : Lookup d rootEntry s f a t) : ∃ u r, Reads s u ∧ r.found=f ∧ Obtains r u a t := by
  cases h with
  | @root alloc a t hcl =>
    exact ⟨s,rootResult rootEntry,.refl s,rfl,(safeGetWithFatResult_obtains alloc _ s).of_ok hcl⟩
  | @path alloc limit depth a stale r path dev t hwl hcl =>
    obtain ⟨q,dev',hwl',hob⟩ := (fatVfsGetByPath_obtains rootEntry alloc limit depth stale path s).of_ok hcl
    obtain ⟨heq,rfl⟩ := EStateM.Result.ok.inj (hwl.symm.trans hwl')
    obtain rfl := (Prod.mk.inj heq).2
    exact ⟨{s with dev := dev},r,reads_dev s dev,rfl,hob⟩
  | @leaf alloc limit node n a stale r dev u t hn hfl hrd hcl =>
    have hlf := (fatVfsNodeGetLeafNode_obtains alloc limit stale n s).of_ok hcl
    rw [if_neg hn] at hlf
    obtain ⟨u',q,dev',hfl',hrd',hob⟩ := hlf
    obtain rfl := (EStateM.Result.ok.inj (hfl.symm.trans hfl')).2
    obtain ⟨rfl,rfl⟩ := EStateM.Result.ok.inj (hrd.symm.trans hrd')
    have hrs := (unsafeMaybeFillLeaves_reads limit stale s).of_ok hfl
    exact ⟨{u with dev := dev},r,hrs.trans (reads_dev u dev),rfl,hob⟩
  | @safe alloc a r t hcl => exact ⟨s,r,.refl s,rfl,(safeGetWithFatResult_obtains alloc r s).of_ok hcl⟩

theorem CacheStep.effect (h : CacheStep d rootEntry x y) : CacheEffect x y := by
  cases h with
  | get hl =>
    obtain ⟨u,r,hr,rfl,ho⟩ := hl.effect
    exact .get hr.toQuiet ho
  | miss hc =>
    have hr := (fatVfsGetByPath_obtains _ _ _ _ _ _ _).of_ok hc
    exact .quiet hr.toQuiet
  | put hmem hc => exact .put hmem hc ((fatVfsPut_truncates _ _).of_ok hc)
  | fill hc => exact .quiet ((unsafeMaybeFillLeaves_reads _ _ _).of_ok hc).toQuiet
  | numLeaves hc => exact .quiet ((fatVfsNodeGetNumLeaves_reads _ _ _).of_ok hc).toQuiet
  | lock hc => exact .quiet ((fatVfsNodeLock_quiet _).of_ok hc)
  | unlock hc => exact .quiet ((fatVfsNodeUnlock_quiet _).of_ok hc)
end

section

theorem references_cons (a : ℕ) (f : Found) (held : List (ℕ × Found)) (b : ℕ) :
    references ((a, f)::held) b=references held b+if a=b then 1 else 0 := by
  rw [references,map_cons,count_cons]
  simp only [beq_iff_eq]
  rfl

theorem references_erase (h : (a, f) ∈ held) (b : ℕ) :
    references held b=references (held.erase (a, f)) b+if a=b then 1 else 0 := by
  rw [← references_cons a f]
  exact ((perm_cons_erase h).map Prod.fst).count_eq b

theorem references_pos (h : (a, f) ∈ held) : 0<references held a :=
  count_pos_iff.mpr (mem_map.mpr ⟨(a, f),h,rfl⟩)

theorem node_grab_firstCluster (s : FatSuper) (a b : ℕ) :
    ((s.grab a).node b).firstCluster=(s.node b).firstCluster :=
  FatSuper.modifyNode_keeps (P := fun nd=>nd.firstCluster=(s.node b).firstCluster) (fun _ h=>h) rfl

theorem FatSuper.mem_of_lookup (h : s.lookup c=some a) : a ∈ s.list ∧ (s.node a).firstCluster=c :=
  ⟨mem_of_find?_eq_some h,by simpa using List.find?_some h⟩

theorem FatSuper.lookup_grab (s : FatSuper) (a c : ℕ) : (s.grab a).lookup c=s.lookup c := by
  simp only [lookup,node_grab_firstCluster]
  rfl

theorem FatSuper.lookup_insert_self (h : a ∉ s.list) : (s.insert a nd h).lookup nd.firstCluster=some a := by
  rw [lookup,insert,List.find?_cons]
  simp

theorem FatSuper.lookup_insert_of_ne (h : a ∉ s.list) (hne : nd.firstCluster≠c) :
    (s.insert a nd h).lookup c=s.lookup c := by
  rw [lookup,insert,List.find?_cons]
  simp only [update_self,beq_eq_false_iff_ne.mpr hne]
  apply List.find?_congr
  intro b hb
  rw [update_of_ne (ne_of_mem_of_not_mem hb h)]

theorem Quiet.lookup (h : Quiet s t) (c : ℕ) : t.lookup c=s.lookup c := by
  simp only [FatSuper.lookup,h.list,(h.node _).firstCluster]

theorem Obtains.lookup_self (h : Obtains r s a t) : t.lookup r.entry.cluster=some a := by
  cases h with
  | found hl =>
    rw [FatSuper.lookup_grab]
    exact hl
  | created hnew _ =>
    rw [FatSuper.lookup_grab]
    exact FatSuper.lookup_insert_self hnew

theorem Obtains.lookup (h : Obtains r s a t) (hc : s.lookup c=some b) : t.lookup c=some b := by
  cases h with
  | found _ =>
    rw [FatSuper.lookup_grab]
    exact hc
  | created hnew hl =>
    have hne : r.entry.cluster≠c := by
      rintro rfl
      cases hl.symm.trans hc
    rw [FatSuper.lookup_grab,FatSuper.lookup_insert_of_ne hnew hne]
    exact hc

theorem FatSuper.ne_of_lookup_none (h : s.lookup c=none) (ha : a ∈ s.list) : (s.node a).firstCluster≠c := by
  have hne := List.find?_eq_none.mp h a ha
  simpa using hne
end

section

/-- The state of the cache with the references that are handed out. -/
structure NodeCache (x : FatSuper × List (ℕ × Found)) : Prop where
  count : x.1.nofNodes.toNat=x.1.list.length
  distinct : ∀ a ∈ x.1.list, ∀ b ∈ x.1.list, (x.1.node a).firstCluster=(x.1.node b).firstCluster → a=b
  refs : ∀ a ∈ x.1.list, (x.1.node a).ref.toNat=references x.2 a
  listed : ∀ a, 0<references x.2 a → a ∈ x.1.list

/-- The counters suffice for the references, and the nodes are at addresses of 32 bits. -/
structure Bounded (x : FatSuper × List (ℕ × Found)) : Prop where
  references : ∀ a, references x.2 a<2^32
  addresses : ∀ a ∈ x.1.list, 0<a ∧ a<2^32

theorem Bounded.length_lt (h : Bounded x) : x.1.list.length<2^32 := by
  have hsub : x.1.list.toFinset ⊆ Finset.Ioo 0 (2^32) := by
    intro a ha
    exact Finset.mem_Ioo.mpr (h.addresses a (mem_toFinset.mp ha))
  have hc := Finset.card_le_card hsub
  rw [toFinset_card_of_nodup x.1.nodup,card_Ioo] at hc
  omega

namespace NodeCache

section
variable (h : NodeCache (s, held))
include h
theorem quiet (hq : Quiet s t) : NodeCache (t, held) where
  count := by
    rw [hq.nofNodes,hq.list]
    exact h.count
  distinct := by
    intro a ha b hb heq
    rw [hq.list] at ha hb
    rw [(hq.node a).firstCluster,(hq.node b).firstCluster] at heq
    exact h.distinct a ha b hb heq
  refs := by
    intro a ha
    rw [hq.list] at ha
    rw [(hq.node a).ref]
    exact h.refs a ha
  listed := by
    intro a ha
    rw [hq.list]
    exact h.listed a ha

theorem grab (ha : a ∈ s.list) (hbn : references ((a, f)::held) a<2^32) :
    NodeCache (s.grab a, (a, f)::held) where
  count := h.count
  distinct := by
    intro b hb c hc heq
    simp only [node_grab_firstCluster] at heq
    exact h.distinct b hb c hc heq
  refs := by
    intro b hb
    have href := h.refs b hb
    by_cases hba : b=a
    · subst hba
      rw [references_cons,if_pos rfl] at hbn ⊢
      rw [FatSuper.grab,FatSuper.node_modifyNode_self,UInt32.toNat_add,href]
      exact mod_eq_of_lt hbn
    · rw [FatSuper.grab,FatSuper.node_modifyNode_of_ne hba,references_cons,if_neg (Ne.symm hba),href]
      rfl
  listed := by
    intro b hb
    rw [references_cons] at hb
    by_cases hba : a=b
    · exact hba▸ha
    · rw [if_neg hba] at hb
      exact h.listed b hb

theorem insert (ha : a ∉ s.list)
    (hnew : ∀ b ∈ s.list, (s.node b).firstCluster≠nd.firstCluster) (href : nd.ref=0)
    (hln : s.list.length+1<2^32) : NodeCache (s.insert a nd ha, held) := by
  have hnd : ∀ b ∈ s.list, (s.insert a nd ha).node b=s.node b := fun b hb=>FatSuper.node_insert_of_mem nd ha hb
  have hsl := FatSuper.node_insert_self nd ha
  have hfr : references held a=0 := by
    by_contra hpos
    exact ha (h.listed a (pos_of_ne_zero hpos))
  constructor
  · have hcn := h.count
    rw [FatSuper.insert,UInt32.toNat_add,hcn,length_cons]
    exact mod_eq_of_lt hln
  · intro b hb c hc heq
    rcases mem_cons.mp hb with rfl | hold
    · rcases mem_cons.mp hc with rfl | hold
      · rfl
      · simp only [hsl,hnd c hold] at heq
        exact absurd heq.symm (hnew c hold)
    · rcases mem_cons.mp hc with rfl | hold'
      · simp only [hsl,hnd b hold] at heq
        exact absurd heq (hnew b hold)
      · simp only [hnd b hold,hnd c hold'] at heq
        exact h.distinct b hold c hold' heq
  · intro b hb
    rcases mem_cons.mp hb with rfl | hb
    · simp only [hsl,href,hfr]
      rfl
    · simp only [hnd b hb]
      exact h.refs b hb
  · intro b hb
    exact mem_cons_of_mem a (h.listed b hb)

theorem obtains (hob : Obtains r s a t) (hbn : Bounded (t, (a, f)::held)) :
    NodeCache (t, (a, f)::held) := by
  cases hob with
  | found hlk => exact h.grab (FatSuper.mem_of_lookup hlk).1 (hbn.references a)
  | created hnew hlk =>
    have hcr : NodeCache (s.insert a (unsafeCreate r) hnew, held) :=
      h.insert hnew (fun b hb=>FatSuper.ne_of_lookup_none hlk hb) rfl hbn.length_lt
    exact hcr.grab mem_cons_self (hbn.references a)

theorem release (hmem : (a, f) ∈ held) : NodeCache (s.release a, held.erase (a, f)) := by
  have hcn := references_erase hmem
  have hcl : ∀ b, ((s.release a).node b).firstCluster=(s.node b).firstCluster := fun b =>
    FatSuper.modifyNode_keeps (P := fun nd=>nd.firstCluster=(s.node b).firstCluster) (fun _ h=>h) rfl
  constructor
  · exact h.count
  · intro b hb c hc heq
    simp only [hcl] at heq
    exact h.distinct b hb c hc heq
  · intro b hb
    have href := h.refs b hb
    have hb' := hcn b
    by_cases hba : b=a
    · subst hba
      rw [if_pos rfl] at hb'
      have hone : (1 : UInt32)≤(s.node b).ref := by
        rw [UInt32.le_iff_toNat_le,href,hb']
        exact le_add_left _ _
      simp only [FatSuper.release,FatSuper.node_modifyNode_self]
      rw [UInt32.toNat_sub_of_le _ _ hone,href,hb']
      rfl
    · rw [if_neg (Ne.symm hba)] at hb'
      simp only [FatSuper.release,FatSuper.node_modifyNode_of_ne hba]
      rw [href,hb']
      rfl
  · intro b hb
    apply h.listed b
    simp only at hb ⊢
    rw [hcn b]
    exact lt_of_lt_of_le hb (le_add_right _ _)

theorem remove (hmem : b ∈ s.list) (hfr : (s.node b).ref=0) : NodeCache (s.remove b, held) := by
  have hsub : ∀ c ∈ s.list.erase b, c ∈ s.list := fun c hc=>mem_of_mem_erase hc
  have hcn := h.count
  constructor
  · have hln := length_pos_of_mem hmem
    have hone : (1 : UInt32) ≤ s.nofNodes := by
      rw [UInt32.le_iff_toNat_le,hcn]
      exact hln
    simp only [FatSuper.remove]
    rw [UInt32.toNat_sub_of_le _ _ hone,hcn,length_erase_of_mem hmem]
    rfl
  · intro c hc e he heq
    exact h.distinct c (hsub c hc) e (hsub e he) heq
  · intro c hc
    exact h.refs c (hsub c hc)
  · intro c hc
    have hne : c≠b := by
      rintro rfl
      have href := h.refs c hmem
      rw [hfr] at href
      simp only [← href] at hc
      exact absurd hc (by decide)
    exact (mem_erase_of_ne hne).mpr (h.listed c hc)

theorem truncates (ht : Truncates s t) : NodeCache (t, held) := by
  cases ht with
  | none => exact h
  | node _ hlow =>
    obtain ⟨hmem,hf,-⟩ := FatSuper.lowestNode_spec hlow
    exact h.remove hmem hf
end

theorem step (h : NodeCache x) (hs : CacheStep d rootEntry x y) (hb : Bounded y) : NodeCache y := by
  cases hs.effect with
  | quiet hq => exact h.quiet hq
  | get hq ho => exact (h.quiet hq).obtains ho hb
  | put hmem _ ht => exact (h.release hmem).truncates ht
end NodeCache

/-- The list was too long, and `b` has the fewest hits of all nodes that are not referenced. -/
structure Evicts (x : FatSuper × List (ℕ × Found)) (b : ℕ) (y : FatSuper × List (ℕ × Found)) : Prop where
  long : fatVfsTruncateThreshold<x.1.nofNodes.toNat
  listed : b ∈ x.1.list
  removed : y.1.list=x.1.list.erase b
  free : references y.2 b=0
  fewest : ∀ c ∈ x.1.list, references y.2 c=0 → (x.1.node b).hit≤(x.1.node c).hit

theorem Obtains.keeps (h : Obtains r s a t) (hb : b ∈ s.list) : b ∈ t.list := by
  cases h with
  | found _ => exact hb
  | created _ _ => exact mem_cons_of_mem a hb

theorem node_release_hit (s : FatSuper) (a b : ℕ) : ((s.release a).node b).hit=(s.node b).hit :=
  FatSuper.modifyNode_keeps (P := fun nd=>nd.hit=(s.node b).hit) (fun _ h=>h) rfl

theorem NodeCache.removes (h : NodeCache x) (hst : CacheStep d rootEntry x y) :
    (∀ b ∈ x.1.list, b ∈ y.1.list) ∨
      (∃ a f, (a, f) ∈ x.2 ∧ fatVfsPut a x.1=.ok () y.1 ∧ y.2=x.2.erase (a, f)) ∧ ∃ b, Evicts x b y := by
  cases hst.effect with
  | quiet hq =>
    left
    intro b hb
    rw [hq.list]
    exact hb
  | get hq hob =>
    left
    intro b hb
    exact hob.keeps (hq.list.symm▸hb)
  | @put s t held f a hmem hcl htr =>
    have hrl := h.release hmem
    cases htr with
    | none => exact .inl (fun b hb=>hb)
    | @node b hln hlow =>
      right
      refine ⟨⟨a,f,hmem,hcl,rfl⟩,b,?_⟩
      obtain ⟨hls,hfr,hfw⟩ := FatSuper.lowestNode_spec hlow
      have hrf := hrl.refs
      refine ⟨hln,hls,rfl,?_,fun c hc hzr=>?_⟩
      · rw [← hrf b hls,hfr]
        rfl
      · have hcf : ((s.release a).node c).ref=0 := UInt32.toNat_inj.mp ((hrf c hc).trans hzr)
        have hle := hfw c hc hcf
        rw [node_release_hit,node_release_hit] at hle
        exact hle

theorem nodeCache_start (hl : s.list=[]) (hnof : s.nofNodes=0) : NodeCache (s, []) := by
  constructor
  · rw [hl,hnof]
    rfl
  · simp [hl]
  · simp [hl]
  · simp [references]

/-- The cache and the references agree, and the next call removes at most one node, which nobody
holds. -/
theorem nodeCache_run (hlist : s.list=[]) (hnof : s.nofNodes=0)
    (hrun : Relation.ReflTransGen (fun x y=>CacheStep d rootEntry x y ∧ Bounded y) (s, []) x) :
    NodeCache x ∧ ∀ y, CacheStep d rootEntry x y → (∀ b ∈ x.1.list, 0<references y.2 b → b ∈ y.1.list) ∧
      ((∀ b ∈ x.1.list, b ∈ y.1.list) ∨
        (∃ a f, (a, f) ∈ x.2 ∧ fatVfsPut a x.1=.ok () y.1 ∧ y.2=x.2.erase (a, f)) ∧ ∃ b, Evicts x b y) := by
  have hch := Reaches.invariant hrun (nodeCache_start hlist hnof) (fun _ _ h hst=>h.step hst.1 hst.2)
  refine ⟨hch,fun y hst=>⟨fun b hb hpos=>?_,hch.removes hst⟩⟩
  rcases hch.removes hst with hkp | ⟨-,c,hev⟩
  · exact hkp b hb
  · have hne : b≠c := by
      rintro rfl
      rw [hev.free] at hpos
      exact absurd hpos (by decide)
    rw [hev.removed]
    exact (mem_erase_of_ne hne).mpr hb
end

section

/-- A volume from which nothing has been read. -/
def freshSuper : FatSuper where
  dev := dirDisk []
  list := []
  node := fun _=>unsafeCreate noResult
  nofNodes := 0
  nodup := nodup_nil

theorem nodeCache_run_root : ∃ a t, fatVfsGetRoot rootRecord bumpAllocator freshSuper=.ok a t ∧
    NodeCache (t, [(a, (rootResult rootRecord).found)]) := by
  have hp : passes (fatVfsGetRoot rootRecord bumpAllocator) freshSuper
      (fun a t=>decide (a=1 ∧ t.list=[1]))=true := by decide +kernel
  obtain ⟨t,hc,hl⟩ := exists_ok_eq_of_passes hp
  refine ⟨1,t,hc,(nodeCache_run (d := smallVolume 1) rfl rfl (.single ⟨.get (.root hc),?_,?_⟩)).1⟩
  · intro a
    have hn : references [] a=0 := rfl
    rw [references_cons,hn]
    split
    · decide
    · decide
  · simp [hl]

theorem fatVfsGetRoot_again (alloc : Allocator) (h : s.lookup rootRecord.cluster=some a) :
    fatVfsGetRoot rootRecord alloc s=.ok a (s.grab a) := by
  obtain ⟨b,t,hc,ho⟩ := (safeGetWithFatResult_obtains alloc (rootResult rootRecord) s).exists_ok
  cases ho with
  | found hl =>
    obtain rfl := Option.some.inj (hl.symm.trans h)
    exact hc
  | created _ hl => cases hl.symm.trans h

theorem rootRun (n : ℕ) : ∃ s a, Relation.ReflTransGen (CacheStep (smallVolume 1) rootRecord) (freshSuper, [])
      (s, List.replicate (n+1) (a, (rootResult rootRecord).found)) ∧
    s.lookup rootRecord.cluster=some a ∧ (s.node a).ref.toNat=(n+1)%2^32 := by
  induction n with
  | zero =>
    have hp : passes (fatVfsGetRoot rootRecord bumpAllocator) freshSuper
        (fun a t=>decide (a=1 ∧ t.lookup rootRecord.cluster=some 1 ∧ (t.node 1).ref.toNat=1))=true := by
      decide +kernel
    obtain ⟨t,hc,hl,href⟩ := exists_ok_eq_of_passes hp
    exact ⟨t,1,.single (.get (.root hc)),hl,href⟩
  | succ n ih =>
    obtain ⟨s,a,hrun,hl,href⟩ := ih
    have hc := fatVfsGetRoot_again bumpAllocator hl
    refine ⟨s.grab a,a,hrun.tail (.get (.root hc)),?_,?_⟩
    · rw [FatSuper.lookup_grab]
      exact hl
    · rw [FatSuper.grab,FatSuper.node_modifyNode_self,UInt32.toNat_add,href]
      exact mod_add_mod (n+1) (2^32) 1

/-- After 2^32 calls of `get_root` the count of the root is zero again. -/
theorem references_wrap : ∃ x a,
    Relation.ReflTransGen (CacheStep (smallVolume 1) rootRecord) (freshSuper, []) x ∧ a ∈ x.1.list ∧
      references x.2 a=2^32 ∧ (x.1.node a).ref=0 := by
  obtain ⟨s,a,hrun,hl,href⟩ := rootRun (2^32-1)
  refine ⟨_,a,hrun,(FatSuper.mem_of_lookup hl).1,?_,UInt32.toNat_inj.mp href⟩
  rw [references,map_replicate,count_replicate_self]
  norm_num
end

end Yaos2.Fat
