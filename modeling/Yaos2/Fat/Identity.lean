import Yaos2.Fat.NodeCache

/-! # Which file a node stands for

A node is looked up by its first cluster alone. Empty files all have the first cluster zero. -/
namespace Yaos2.Fat
open Foundation List

/-- The node has the type, the name and the size of the entry, and lies where it says. -/
structure FatNode.Shows (nd : FatNode) (f : Found) : Prop where
  directory : nd.directory=f.entry.isDirectory
  name : cString nd.name=f.entry.name
  numBytes : nd.numBytes=f.entry.record.numBytes
  firstCluster : nd.firstCluster=f.entry.cluster
  dirCluster : nd.dirCluster=f.dirCluster

/-- Entries that are told apart by their first clusters, with names that fit in a node. -/
structure Distinguished (entries : Set Found) : Prop where
  clusters : Set.InjOn (fun f : Found=>f.entry.cluster) entries
  names : ∀ f ∈ entries, f.entry.name.length<fatLfnNameSize

/-- The cache, when all lookups have found one of these entries. -/
structure Identified (entries : Set Found) (x : FatSuper × List (ℕ × Found)) : Prop where
  cache : NodeCache x
  shown : ∀ a ∈ x.1.list, ∃ f ∈ entries, (x.1.node a).Shows f
  held : ∀ a f, (a, f) ∈ x.2 → f ∈ entries ∧ (x.1.node a).Shows f

variable {d : SuperData} {rootEntry : Record} {s t u : FatSuper} {a b : ℕ} {r : FatResult} {f g : Found}
  {held : List (ℕ × Found)} {x y : FatSuper × List (ℕ × Found)} {entries : Set Found} {nd nd' : FatNode}

section

theorem FatNode.Alike.shows (h : nd.Alike nd') (hs : nd.Shows f) : nd'.Shows f where
  directory := h.directory.trans hs.directory
  name := by
    rw [h.name]
    exact hs.name
  numBytes := h.numBytes.trans hs.numBytes
  firstCluster := h.firstCluster.trans hs.firstCluster
  dirCluster := h.dirCluster.trans hs.dirCluster

theorem shows_grab (a : ℕ) (h : (s.node b).Shows f) : ((s.grab a).node b).Shows f :=
  FatSuper.modifyNode_keeps (P := fun nd=>nd.Shows f)
    (fun _ h=>⟨h.directory,h.name,h.numBytes,h.firstCluster,h.dirCluster⟩) h

theorem shows_release (a : ℕ) (h : (s.node b).Shows f) : ((s.release a).node b).Shows f :=
  FatSuper.modifyNode_keeps (P := fun nd=>nd.Shows f)
    (fun _ h=>⟨h.directory,h.name,h.numBytes,h.firstCluster,h.dirCluster⟩) h

theorem cString_name (h : (cString (bytes m 0 fatLfnNameBufSize)).length<fatLfnNameSize) :
    cString (bytes m 0 fatLfnNameSize)=cString (bytes m 0 fatLfnNameBufSize) := by
  have hs : bytes m 0 fatLfnNameBufSize=bytes m 0 fatLfnNameSize++bytes m (0+fatLfnNameSize) 5 :=
    bytes_add m 0 fatLfnNameSize 5
  rw [hs] at h ⊢
  have hz : 0 ∈ bytes m 0 fatLfnNameSize := by
    by_contra hno
    have hall : ∀ c ∈ bytes m 0 fatLfnNameSize, (c != 0)=true := by
      intro c hc
      exact bne_iff_ne.mpr (ne_of_mem_of_not_mem hc hno)
    rw [cString,takeWhile_append_of_pos hall,length_append,bytes_length] at h
    exact absurd h (Nat.not_lt_of_le (Nat.le_add_right _ _))
  rw [cString_append_of_mem hz]

theorem unsafeCreate_shows (h : r.dirEntry.name.length<fatLfnNameSize) : (unsafeCreate r).Shows r.found :=
  ⟨rfl,cString_name h,rfl,rfl,rfl⟩
end

section

namespace Identified

section
variable (h : Identified entries (s, held))
include h
theorem quiet (hq : Quiet s t) : Identified entries (t, held) where
  cache := h.cache.quiet hq
  shown := by
    intro a ha
    obtain ⟨f,hf,hs⟩ := h.shown a (hq.list▸ha)
    exact ⟨f,hf,(hq.node a).shows hs⟩
  held := by
    intro a f hmem
    obtain ⟨hf,hs⟩ := h.held a f hmem
    exact ⟨hf,(hq.node a).shows hs⟩

theorem obtains (hen : Distinguished entries)
    (hob : Obtains r s a t) (hbn : Bounded (t, (a, r.found)::held)) (hr : r.found ∈ entries) :
    Identified entries (t, (a, r.found)::held) := by
  have hch := h.cache.obtains hob hbn
  cases hob with
  | found hlk =>
    obtain ⟨hls,hcl⟩ := FatSuper.mem_of_lookup hlk
    obtain ⟨g,hg,hsh⟩ := h.shown a hls
    have hsm := hen.clusters hg hr (hsh.firstCluster.symm.trans hcl)
    subst hsm
    refine ⟨hch,fun b hb=>?_,fun b f hmem=>?_⟩
    · obtain ⟨f,hf,hb'⟩ := h.shown b hb
      exact ⟨f,hf,shows_grab a hb'⟩
    · rcases mem_cons.mp hmem with heq | hold
      · obtain ⟨rfl,rfl⟩ := Prod.mk.inj heq
        exact ⟨hr,shows_grab b hsh⟩
      · obtain ⟨hf,hb⟩ := h.held b f hold
        exact ⟨hf,shows_grab a hb⟩
  | created hnew _ =>
    have hsl : ((s.insert a (unsafeCreate r) hnew).node a).Shows r.found := by
      rw [FatSuper.node_insert_self]
      exact unsafeCreate_shows (hen.names _ hr)
    refine ⟨hch,fun b hb=>?_,fun b f hmem=>?_⟩
    · rcases mem_cons.mp hb with rfl | hold
      · exact ⟨r.found,hr,shows_grab b hsl⟩
      · obtain ⟨f,hf,hb'⟩ := h.shown b hold
        rw [← FatSuper.node_insert_of_mem (unsafeCreate r) hnew hold] at hb'
        exact ⟨f,hf,shows_grab a hb'⟩
    · rcases mem_cons.mp hmem with heq | hold
      · obtain ⟨rfl,rfl⟩ := Prod.mk.inj heq
        exact ⟨hr,shows_grab b hsl⟩
      · obtain ⟨hf,hb⟩ := h.held b f hold
        have hls := h.cache.listed b (references_pos hold)
        rw [← FatSuper.node_insert_of_mem (unsafeCreate r) hnew hls] at hb
        exact ⟨hf,shows_grab a hb⟩

theorem put (hmem : (a, f) ∈ held) (htr : Truncates (s.release a) t) :
    Identified entries (t, held.erase (a, f)) := by
  have hch := (h.cache.release hmem).truncates htr
  have hhl : ∀ b g, (b, g) ∈ held.erase (a, f) → g ∈ entries ∧ ((s.release a).node b).Shows g := by
    intro b g hb
    obtain ⟨hg,hsh⟩ := h.held b g (mem_of_mem_erase hb)
    exact ⟨hg,shows_release a hsh⟩
  have hsw : ∀ b ∈ s.list, ∃ g ∈ entries, ((s.release a).node b).Shows g := by
    intro b hb
    obtain ⟨g,hg,hsh⟩ := h.shown b hb
    exact ⟨g,hg,shows_release a hsh⟩
  cases htr with
  | none => exact ⟨hch,hsw,hhl⟩
  | node _ _ => exact ⟨hch,fun c hc=>hsw c (mem_of_mem_erase hc),hhl⟩
end

theorem step (h : Identified entries x) (hen : Distinguished entries) (hst : CacheStep d rootEntry x y)
    (hbn : Bounded y) (hfn : ∀ p ∈ y.2, p.2 ∈ entries) : Identified entries y := by
  cases hst.effect with
  | quiet hq => exact h.quiet hq
  | get hq hob => exact (h.quiet hq).obtains hen hob hbn (hfn _ mem_cons_self)
  | put hmem _ htr => exact h.put hmem htr

theorem eq_iff (h : Identified entries x) (hen : Distinguished entries) (hf : (a, f) ∈ x.2)
    (hg : (b, g) ∈ x.2) : a=b ↔ f=g := by
  obtain ⟨hfe,hfs⟩ := h.held a f hf
  obtain ⟨hge,hgs⟩ := h.held b g hg
  constructor
  · rintro rfl
    exact hen.clusters hfe hge (hfs.firstCluster.symm.trans hgs.firstCluster)
  · rintro rfl
    apply h.cache.distinct a (h.cache.listed a (references_pos hf)) b (h.cache.listed b (references_pos hg))
    rw [hfs.firstCluster,hgs.firstCluster]
end Identified

end

/-- In a run whose lookups find entries with different first clusters, nodes stand for entries. -/
theorem nodes_identify (hentries : Distinguished entries) (hlist : s.list=[]) (hnof : s.nofNodes=0)
    (hrun : Relation.ReflTransGen (fun x y=>CacheStep d rootEntry x y ∧ Bounded y ∧ ∀ p ∈ y.2, p.2 ∈ entries)
      (s, []) x) :
    (∀ a f b g, (a, f) ∈ x.2 → (b, g) ∈ x.2 → (a=b ↔ f=g)) ∧ ∀ a f, (a, f) ∈ x.2 → (x.1.node a).Shows f := by
  have hsr : Identified entries (s, []) := by
    refine ⟨nodeCache_start hlist hnof,?_,?_⟩
    · simp [hlist]
    · simp
  have hx := Reaches.invariant hrun hsr (fun _ _ h hst=>h.step hentries hst.1 hst.2.1 hst.2.2)
  exact ⟨fun a f b g hf hg=>hx.eq_iff hentries hf hg,fun a f hf=>(hx.held a f hf).2⟩

section

def baz : DirEntry where
  name := [0x42, 0x41, 0x5a]
  record := [0x42, 0x41, 0x5a, 0, 0, 0, 0, 0, 0, 0, 0, 0x20]++List.replicate 20 0

/-- A volume with the empty files `FOOBAR` and `BAZ` in its root directory. -/
def emptyFiles : FatSuper := {freshSuper with dev := dirDisk (foobar.record++baz.record)}

def walkTo (e : DirEntry) : Exec BlockDev (FatStatus × FatResult) :=
  fatWalkPath (smallVolume 1) 3 1 noResult (pathOf [e.name]) rootRecord.cluster

def openFile (e : DirEntry) : Exec FatSuper (Option ℕ) :=
  fatVfsGetByPath (smallVolume 1) rootRecord 3 1 bumpAllocator noResult (pathOf [e.name])

theorem openFile_lookup (hw : passes (walkTo e) s.dev (fun x _=>decide (x.1=.ok ∧ x.2.found=f))=true)
    (hc : passes (openFile e) s (fun o _=>decide (o=some a))=true) :
    Lookup (smallVolume 1) rootRecord s f a (finalState (openFile e) s) := by
  obtain ⟨⟨status,r⟩,dev,hrun,ht⟩ := exists_ok_of_passes hw
  obtain ⟨rfl,rfl⟩ := of_decide_eq_true ht
  obtain ⟨o,t,hop,ho⟩ := exists_ok_of_passes hc
  obtain rfl := of_decide_eq_true ho
  exact .path hrun (ok_finalState hop)

theorem bounded_of_length (hl : ∀ a ∈ x.1.list, 0<a ∧ a<2^32) (hhl : x.2.length<2^32) : Bounded x := by
  refine ⟨fun a=>?_,hl⟩
  apply Nat.lt_of_le_of_lt _ hhl
  rw [references,← length_map Prod.fst]
  exact count_le_length

/-- The volume after the root has been asked for, and then after `FOOBAR`. -/
def withRoot : FatSuper := finalState (fatVfsGetRoot rootRecord bumpAllocator) emptyFiles

def withFoobar : FatSuper := finalState (openFile foobar) withRoot

theorem nodes_identify_rootAndFile :
    (withFoobar.node 1).Shows (rootResult rootRecord).found ∧ (withFoobar.node 2).Shows ⟨2,foobar⟩ := by
  have hrt : Lookup (smallVolume 1) rootRecord emptyFiles (rootResult rootRecord).found 1 withRoot := by
    have hps : passes (fatVfsGetRoot rootRecord bumpAllocator) emptyFiles (fun a _=>decide (a=1))=true := by
      decide +kernel
    obtain ⟨a,t,hrun,ha⟩ := exists_ok_of_passes hps
    obtain rfl := of_decide_eq_true ha
    exact .root (ok_finalState hrun)
  have hfl : Lookup (smallVolume 1) rootRecord withRoot ⟨2,foobar⟩ 2 withFoobar :=
    openFile_lookup (by decide +kernel) (by decide +kernel)
  have hen : Distinguished {(rootResult rootRecord).found, ⟨2,foobar⟩} := by
    constructor
    · rintro f (rfl | rfl) g (rfl | rfl) heq
      · rfl
      · exact absurd heq (by decide)
      · exact absurd heq (by decide)
      · rfl
    · rintro f (rfl | rfl)
      · decide +kernel
      · decide
  have hst : CacheStep (smallVolume 1) rootRecord (emptyFiles, []) (withRoot, [(1, (rootResult rootRecord).found)]) :=
    .get hrt
  have hrun := Relation.ReflTransGen.single
    (r := fun x y=>CacheStep (smallVolume 1) rootRecord x y ∧ Bounded y ∧
      ∀ p ∈ y.2, p.2 ∈ ({(rootResult rootRecord).found, ⟨2,foobar⟩} : Set Found))
    ⟨hst,bounded_of_length (by decide +kernel) (by decide),by simp⟩
  have hrun' := hrun.tail ⟨.get hfl,bounded_of_length (by decide +kernel) (by decide),by simp⟩
  have hsh := (nodes_identify hen rfl rfl hrun').2
  exact ⟨hsh 1 _ (by simp),hsh 2 _ (by simp)⟩

/-- Both empty files are one node, with the name of the one that was asked for first. -/
theorem emptyFiles_share_node : ∃ x,
    Relation.ReflTransGen (fun x y=>CacheStep (smallVolume 1) rootRecord x y ∧ Bounded y) (emptyFiles, []) x ∧
      (1, ⟨2,foobar⟩) ∈ x.2 ∧ (1, ⟨2,baz⟩) ∈ x.2 ∧ (⟨2,foobar⟩ : Found)≠⟨2,baz⟩ ∧
      cString (x.1.node 1).name≠baz.name := by
  have hf : Lookup (smallVolume 1) rootRecord emptyFiles ⟨2,foobar⟩ 1 (finalState (openFile foobar) emptyFiles) :=
    openFile_lookup (by decide +kernel) (by decide +kernel)
  have hs := openFile_lookup (s := finalState (openFile foobar) emptyFiles) (e := baz) (f := ⟨2,baz⟩) (a := 1)
    (by decide +kernel) (by decide +kernel)
  have hst : CacheStep (smallVolume 1) rootRecord (emptyFiles, [])
      (finalState (openFile foobar) emptyFiles, [(1, ⟨2,foobar⟩)]) := .get hf
  have hrun := Relation.ReflTransGen.single (r := fun x y=>CacheStep (smallVolume 1) rootRecord x y ∧ Bounded y)
    ⟨hst,bounded_of_length (by decide +kernel) (by decide)⟩
  have hrun' := hrun.tail ⟨.get hs,bounded_of_length (by decide +kernel) (by decide)⟩
  exact ⟨_,hrun',by simp,by simp,by decide,by decide +kernel⟩
end

end Yaos2.Fat
