import Yaos2.Fat.NodeCache
import Yaos2.Fat.Scan

/-! # The leaves of a directory

A directory node keeps the number of its entries and where the first sixteen of them start. -/
namespace Yaos2.Fat
open Foundation List Nat

section
variable (d : SuperData) (limit : ℕ) (alloc : Allocator)

/-- A call on a directory node: `get_num_leaves`, or `get_leaf_node`. -/
inductive LeafCall
  | num
  | leaf (n : ℕ)
  deriving DecidableEq, Repr

def LeafCall.run (stale : FatResult) (a : ℕ) : LeafCall → Exec FatSuper ℕ
  | num => fatVfsNodeGetNumLeaves d limit stale a
  | leaf n => fatVfsNodeGetLeafNode d limit alloc stale a n

/-- The calls one after the other, and their answers. The result that a call fills in is not initialized. -/
def leafCalls (a : ℕ) : List (LeafCall × FatResult) → Exec FatSuper (List ℕ)
  | [] => return []
  | (c, stale)::cs => do
    let answer ← c.run d limit alloc stale a
    let answers ← leafCalls a cs
    return answer::answers

/-- A scan of the directory from `idx` on: where each entry starts, and the entry. -/
inductive Scan (dev : BlockDev) (first : ℕ) : ℕ → FatResult → List (ℕ × DirEntry) → Prop
  | last {idx : ℕ} {result result' : FatResult} :
      fatReadEntry d first limit idx none result dev=.ok (.last, result') dev → Scan dev first idx result []
  | entry {idx next : ℕ} {result result' : FatResult} {es : List (ℕ × DirEntry)} :
      fatReadEntry d first limit idx none result dev=.ok (.next next, result') dev →
      Scan dev first next result' es → Scan dev first idx result ((idx, result'.dirEntry)::es)
end

variable {d : SuperData} {limit first fuel idx n a : ℕ} {dev : BlockDev} {alloc : Allocator} {stale : FatResult}
  {r r' : FatResult} {seq : Option ℤ} {es : List (ℕ × DirEntry)}

section

/-- The result is this entry of the directory `first`. -/
structure FatResult.Holds (first : ℕ) (e : DirEntry) (r : FatResult) : Prop where
  entry : r.dirEntry=e
  dirCluster : r.dirCluster=first

/-- The buffer of a name is the same in both. -/
def Agree (m m' : Mem) : Prop := ∀ a<fatLfnNameBufSize, m' a=m a

theorem Agree.blit (h : Agree m m') (pos : ℕ) (chars : List UInt8) :
    Agree (blit m pos chars) (blit m' pos chars) := by
  intro a ha
  simp only [Foundation.blit]
  split
  · rfl
  · exact h a ha

theorem agree_cleared (m m' : Mem) :
    Agree (blit m 0 (List.replicate fatLfnNameBufSize 0)) (blit m' 0 (List.replicate fatLfnNameBufSize 0)) := by
  intro a ha
  have hin : 0≤a ∧ a<0+(List.replicate fatLfnNameBufSize (0 : UInt8)).length := by simp_all
  simp only [blit,if_pos hin]

/-- Two results that `fat_read_entry` returns with the same index hold the same entry. -/
def SameEntry (first : ℕ) (x y : EntryIndex × FatResult) : Prop :=
  y.1=x.1 ∧ ∀ next, x.1=.next next → ∃ e, x.2.Holds first e ∧ y.2.Holds first e

theorem fatReadEntry_same (r r' : FatResult) (hag : seq≠none → Agree r.lfn r'.lfn) :
    Mimics (SameEntry first) (fatReadEntry d first fuel idx seq r) (fatReadEntry d first fuel idx seq r') := by
  induction fuel generalizing idx seq r r' with
  | zero => exact Mimics.abort _
  | succ fuel ih =>
    apply Mimics.bind
    rintro ⟨num,entry⟩
    apply Mimics.ite
    · exact Mimics.pure ⟨rfl,fun next h=>by cases h⟩
    apply Mimics.ite
    · exact Mimics.pure ⟨rfl,fun next h=>by cases h⟩
    apply Mimics.ite (ih _ _ hag)
    apply Mimics.ite
    · cases seq with
      | none =>
        apply Mimics.bind
        intro _
        apply Mimics.bind
        intro _
        exact ih _ _ (fun _=>(agree_cleared r.lfn r'.lfn).blit _ _)
      | some iseq =>
        apply Mimics.bind
        intro _
        exact ih _ _ (fun _=>(hag (by simp)).blit _ _)
    apply Mimics.ite
    · apply Mimics.pure
      refine ⟨rfl,fun next _=>⟨_,⟨rfl,rfl⟩,?_,rfl⟩⟩
      cases seq with
      | none =>
        simp only [FatResult.dirEntry,Option.isNone_none,if_true]
        rw [cString_short,cString_short]
      | some iseq =>
        have hb : bytes r'.lfn 0 fatLfnNameBufSize=bytes r.lfn 0 fatLfnNameBufSize :=
          bytes_congr (fun a _ ha=>hag (by simp) a (by omega))
        simp [FatResult.dirEntry,hb]
    · exact ih _ _ hag

theorem Scan.any_result (h : Scan d limit dev first idx r es) (r' : FatResult) : Scan d limit dev first idx r' es := by
  induction h generalizing r' with
  | last hr =>
    obtain ⟨⟨_,y⟩,hy,rfl,-⟩ := fatReadEntry_same _ r' (fun h=>absurd rfl h) _ _ _ hr
    exact .last hy
  | entry hr _ ih =>
    obtain ⟨⟨_,y⟩,hy,rfl,hs⟩ := fatReadEntry_same _ r' (fun h=>absurd rfl h) _ _ _ hr
    obtain ⟨e,hx,hy'⟩ := hs _ rfl
    rw [hx.entry,← hy'.entry]
    exact .entry hy (ih y)

theorem Scan.drop (h : Scan d limit dev first idx r es) (hk : k<es.length) (r' : FatResult) :
    Scan d limit dev first es[k].1 r' (es.drop k) := by
  induction h generalizing k r' with
  | last _ => exact absurd hk (not_lt_zero k)
  | entry hr hrs ih =>
    cases k with
    | zero => exact (Scan.entry hr hrs).any_result r'
    | succ k => exact ih (lt_of_succ_lt_succ hk) r'

theorem Scan.read (h : Scan d limit dev first idx r (e::es)) :
    e.1=idx ∧ ∃ next r', fatReadEntry d first limit idx none r dev=.ok (.next next, r') dev ∧
      r'.Holds first e.2 ∧ Scan d limit dev first next r' es := by
  cases h with
  | @entry _ next _ r' _ hr hrs =>
    obtain ⟨_,-,-,hs⟩ := fatReadEntry_same r r (fun h=>absurd rfl h) _ _ _ hr
    obtain ⟨e,hx,-⟩ := hs _ rfl
    exact ⟨rfl,next,r',hr,⟨rfl,hx.dirCluster⟩,hrs⟩

theorem Encodes.scan (henc : Encodes rs des) (hdel : Delivers d dev first idx rs)
    (hlimit : rs.length≤limit) (r : FatResult) :
    ∃ es, Scan d limit dev first idx r es ∧ es.map Prod.snd=des := by
  induction des generalizing idx rs r with
  | nil =>
    obtain ⟨x,t,hrd,rfl,rfl⟩ := (fatReadEntry_end henc rfl hdel hlimit).exists_ok
    exact ⟨[],.last hrd,rfl⟩
  | cons e des ih =>
    have hen : Returns (fatReadEntry d first limit idx none r) dev _ := fatReadEntry_entry henc rfl hdel hlimit
    obtain ⟨⟨_,q⟩,t,hrd,rfl,rfl,next,rs',rfl,henc',hdel',hlt⟩ := hen.exists_ok
    obtain ⟨es,hscan,rfl⟩ := ih henc' hdel' (hlt.le.trans hlimit) q
    exact ⟨(idx, q.dirEntry)::es,.entry hrd hscan,rfl⟩
end

section

/-- The cache of the leaves for these entries. -/
structure Table (es : List (ℕ × DirEntry)) (num : ℕ) (leaves : List ℕ) : Prop where
  num : num=es.length
  size : leaves.length=fatVfsCacheLeaves
  start : ∀ k (hk : k<es.length), k<fatVfsCacheLeaves → leaves.getD k 0=es[k].1

/-- The node of the directory `first`. Unless its cache is dirty it is the one of these entries. -/
structure Cached (first : ℕ) (es : List (ℕ × DirEntry)) (nd : FatNode) : Prop where
  directory : nd.directory=true
  cluster : nd.firstCluster=first
  size : nd.leaves.length=fatVfsCacheLeaves
  table : nd.leavesDirty=false → Table es nd.numLeaves nd.leaves

theorem cached_unsafeCreate (hdir : r.entry.isDirectory=true) (hc : r.entry.cluster=first) :
    Cached first es (unsafeCreate r) :=
  ⟨hdir,hc,length_replicate,fun hd=>by cases hd⟩

theorem Table.append {num : ℕ} (h : Table es num leaves) (idx : ℕ) (e : DirEntry) :
    Table (es++[(idx, e)]) (num+1) (if num<fatVfsCacheLeaves then leaves.set num idx else leaves) := by
  obtain rfl := h.num
  constructor
  · rw [length_append,length_singleton]
  · split
    · rw [length_set,h.size]
    · exact h.size
  · intro k hk hc
    rw [length_append,length_singleton] at hk
    by_cases hl : k=es.length
    · subst hl
      rw [if_pos hc,getElem_concat_length rfl,getD_eq_getElem?_getD,
        List.getElem?_set_self (by rw [h.size]; exact hc)]
      rfl
    · have hlt : k<es.length := by omega
      rw [getElem_append_left hlt,← h.start k hlt hc]
      split
      · rw [getD_eq_getElem?_getD,List.getElem?_set_ne (Ne.symm hl),← getD_eq_getElem?_getD]
      · rfl

theorem fillLeaves_table (h : Scan d limit dev first idx r es)
    (hf : es.length<fuel) (ht : Table pre num leaves) :
    Returns (fillLeaves d limit first fuel idx r num leaves) dev (fun x t=>t=dev ∧ Table (pre++es) x.1 x.2) := by
  induction h generalizing fuel pre num leaves with
  | last hr =>
    obtain ⟨fuel,rfl⟩ := exists_eq_succ_of_ne_zero (ne_zero_of_lt hf)
    rw [fillLeaves,Returns,wp_bind,wp_of_ok hr]
    apply (wp_pure ..).mpr
    rw [append_nil]
    exact ⟨rfl,ht⟩
  | @entry idx next r r' es hr _ ih =>
    obtain ⟨fuel,rfl⟩ := exists_eq_succ_of_ne_zero (ne_zero_of_lt hf)
    rw [fillLeaves,Returns,wp_bind,wp_of_ok hr]
    have hrs := ih (lt_of_succ_lt_succ hf) (ht.append idx r'.dirEntry)
    rwa [append_assoc,singleton_append] at hrs

theorem skipLeaves_holds (h : Scan d limit dev first idx r es) (hk : k<es.length) :
    Returns (skipLeaves d limit first (k+1) (.next idx) r) dev (fun q t=>t=dev ∧ q.Holds first es[k].2) := by
  induction k generalizing idx r es with
  | zero =>
    obtain ⟨e,es,rfl⟩ := exists_cons_of_length_pos hk
    obtain ⟨-,next,q,hr,hhl,-⟩ := h.read
    rw [skipLeaves,Returns,wp_bind,wp_of_ok hr,wp_bind,wp_panicIf (by simp)]
    exact (wp_pure ..).mpr ⟨rfl,hhl⟩
  | succ k ih =>
    obtain ⟨e,es,rfl⟩ := exists_cons_of_length_pos (zero_lt_of_lt hk)
    obtain ⟨-,next,q,hr,-,hrs⟩ := h.read
    rw [skipLeaves,Returns,wp_bind,wp_of_ok hr,wp_bind,wp_panicIf (by simp)]
    exact ih hrs (lt_of_succ_lt_succ hk)

theorem readLeaf_holds (h : Scan d limit dev first 0 r es) (hcl : nd.firstCluster=first)
    (htb : Table es nd.numLeaves nd.leaves) (hn : n<es.length) :
    Returns (readLeaf d limit stale nd n) dev (fun q t=>t=dev ∧ q.Holds first es[n].2) := by
  subst hcl
  rw [readLeaf]
  split
  · next hch =>
    rw [htb.start n hn hch]
    have hscan := h.drop hn stale
    rw [drop_eq_getElem_cons hn] at hscan
    obtain ⟨-,next,q,hrd,hhl,-⟩ := hscan.read
    rw [Returns,wp_bind,wp_of_ok hrd,wp_bind,wp_panicIf (by simp)]
    exact (wp_pure ..).mpr ⟨rfl,hhl⟩
  · next hch =>
    -- The scan goes on from the last entry of the cache, which is read once more.
    have hls : fatVfsCacheLeaves-1<es.length := by omega
    have hcn : n-fatVfsCacheLeaves+2=n-(fatVfsCacheLeaves-1)+1 := by
      simp only [fatVfsCacheLeaves] at hch ⊢
      omega
    rw [htb.start _ hls (by decide),hcn]
    have hln : n-(fatVfsCacheLeaves-1)<(es.drop (fatVfsCacheLeaves-1)).length := by
      rw [length_drop]
      omega
    have hrd := skipLeaves_holds (h.drop hls stale) hln
    simp only [getElem_drop] at hrd
    have hidx : fatVfsCacheLeaves-1+(n-(fatVfsCacheLeaves-1))=n := by omega
    simpa only [hidx] using hrd
end

section

/-- The calls and their answers. For a leaf the entry of the scan is resolved. -/
inductive Resolved (first : ℕ) (es : List (ℕ × DirEntry)) : List LeafCall → FatSuper → List ℕ → FatSuper → Prop
  | nil {s : FatSuper} : Resolved first es [] s [] s
  | num {s t v : FatSuper} {cs : List LeafCall} {answers : List ℕ} : Quiet s t → Resolved first es cs t answers v →
      Resolved first es (.num::cs) s (es.length::answers) v
  | leaf {s t u v : FatSuper} {cs : List LeafCall} {answers : List ℕ} {n b : ℕ} {r : FatResult} (hn : n<es.length) :
      Quiet s t → r.Holds first es[n].2 → Obtains r t b u → Resolved first es cs u answers v →
      Resolved first es (.leaf n::cs) s (b::answers) v

/-- The node `a` of the directory can be asked for leaves. -/
structure Ready (dev : BlockDev) (first : ℕ) (es : List (ℕ × DirEntry)) (a : ℕ) (s : FatSuper) : Prop where
  dev : s.dev=dev
  listed : a ∈ s.list
  locked : (s.node a).locked=true
  cached : Cached first es (s.node a)

variable {s t u : FatSuper} {b : ℕ} {calls : List LeafCall} {answers : List ℕ}

theorem Ready.grab (h : Ready dev first es a s) (b : ℕ) : Ready dev first es a (s.grab b) where
  dev := h.dev
  listed := h.listed
  locked := FatSuper.modifyNode_keeps (P := fun nd=>nd.locked=true) (fun _ hnd=>hnd) h.locked
  cached := FatSuper.modifyNode_keeps (P := Cached first es)
    (fun _ hnd=>⟨hnd.directory,hnd.cluster,hnd.size,hnd.table⟩) h.cached

theorem Ready.insert (h : Ready dev first es a s) (hb : b ∉ s.list) :
    Ready dev first es a (s.insert b nd hb) := by
  have hn := FatSuper.node_insert_of_mem nd hb h.listed
  exact ⟨h.dev,mem_cons_of_mem b h.listed,hn▸h.locked,hn▸h.cached⟩

theorem Ready.obtains (h : Ready dev first es a s) (ho : Obtains r s b t) : Ready dev first es a t := by
  cases ho with
  | found _ => exact h.grab b
  | created hnew _ => exact (h.insert hnew).grab b

section
variable (hscan : Scan d limit dev first 0 stale es) (hlimit : es.length<limit)
include hscan hlimit
section
variable (h : Ready dev first es a s)
include h
theorem unsafeMaybeFillLeaves_ready :
    Returns (unsafeMaybeFillLeaves d limit stale a) s (fun _ t=>Ready dev first es a t ∧ Quiet s t ∧
      Table es (t.node a).numLeaves (t.node a).leaves) := by
  have hdir : ¬ (!(s.node a).directory)=true := by simp [h.cached.directory]
  simp only [unsafeMaybeFillLeaves,Returns,wp_bind,wp_get,wp_panicIf hdir]
  refine .ite (fun _=>?_) (fun hcl=>?_)
  · have hem : Table [] 0 (s.node a).leaves := ⟨rfl,h.cached.size,fun k hk=>absurd hk (not_lt_zero k)⟩
    have hfl := fillLeaves_table hscan hlimit hem
    rw [← h.dev,← h.cached.cluster] at hfl
    simp only [wp_bind,wp_modify,onDisk,wp_zoom]
    apply Ensures.imp hfl
    rintro ⟨num,leaves⟩ dev' ⟨rfl,htb⟩
    have hsl := FatSuper.node_modifyNode_self s a (fun nd=>{nd with
      numLeaves := num
      leaves := leaves
      leavesDirty := false})
    refine ⟨⟨h.dev,h.listed,?_,?_⟩,quiet_modifyNode ⟨rfl,rfl,rfl,rfl,rfl,rfl,rfl,rfl⟩,?_⟩
    · rw [hsl]
      exact h.locked
    · rw [hsl]
      exact ⟨h.cached.directory,h.cached.cluster,htb.size,fun _=>htb⟩
    · rwa [hsl]
  · exact (wp_pure ..).mpr ⟨h,(Reads.refl s).toQuiet,h.cached.table (by simpa using hcl)⟩

theorem fatVfsNodeGetNumLeaves_ready :
    Returns (fatVfsNodeGetNumLeaves d limit stale a) s (fun num t=>Ready dev first es a t ∧ num=es.length ∧
      Quiet s t) := by
  have hlc : ¬ (!(s.node a).locked)=true := by simp [h.locked]
  have hdir : ¬ (!(s.node a).directory)=true := by simp [h.cached.directory]
  simp only [fatVfsNodeGetNumLeaves,Returns,wp_bind,wp_get,wp_panicIf hlc,if_neg hdir,wp_pure]
  apply (unsafeMaybeFillLeaves_ready hscan hlimit h).imp
  rintro _ t ⟨hrd,hqt,htb⟩
  exact ⟨hrd,htb.num,hqt⟩

theorem fatVfsNodeGetLeafNode_ready (hpos : 1≤n) (hn : n<es.length) :
    Returns (fatVfsNodeGetLeafNode d limit alloc stale a n) s (fun b t=>Ready dev first es a t ∧
      ∃ u r, Quiet s u ∧ r.Holds first es[n].2 ∧ Obtains r u b t) := by
  have hlc : ¬ (!(s.node a).locked)=true := by simp [h.locked]
  have hdir : ¬ (!(s.node a).directory)=true := by simp [h.cached.directory]
  simp only [fatVfsNodeGetLeafNode,Returns,wp_bind,wp_get,wp_panicIf hlc,wp_panicIf hdir,
    if_neg (Nat.ne_of_gt hpos)]
  apply (unsafeMaybeFillLeaves_ready hscan hlimit h).imp
  rintro _ u ⟨hrd,hqt,htb⟩
  have hnum : ¬ n ≥ (u.node a).numLeaves := by simp_all [htb.num]
  rw [wp_panicIf hnum,onDisk,wp_zoom,hrd.dev]
  apply Ensures.imp (readLeaf_holds hscan hrd.cached.cluster htb hn)
  rintro r dev' ⟨rfl,hhl⟩
  have hsm : {u with dev := dev'}=u := by rw [← hrd.dev]
  rw [hsm]
  apply Ensures.imp (safeGetWithFatResult_obtains alloc r u)
  exact fun b t hob=>⟨hrd.obtains hob,u,r,hqt,hhl,hob⟩

theorem leafCalls_resolved {calls : List (LeafCall × FatResult)}
    (hcl : ∀ n, .leaf n ∈ calls.map Prod.fst → 1≤n ∧ n<es.length) :
    Returns (leafCalls d limit alloc a calls) s
      (fun answers t=>Ready dev first es a t ∧ Resolved first es (calls.map Prod.fst) s answers t) := by
  induction calls generalizing s with
  | nil => exact (wp_pure ..).mpr ⟨h,.nil⟩
  | cons c cs ih =>
    obtain ⟨c,q⟩ := c
    have hrs : ∀ n, .leaf n ∈ cs.map Prod.fst → 1≤n ∧ n<es.length :=
      fun n hmem=>hcl n (mem_cons_of_mem c hmem)
    have hscan' := hscan.any_result q
    simp only [leafCalls,Returns,wp_bind,wp_pure]
    cases c with
    | num =>
      apply Ensures.imp (fatVfsNodeGetNumLeaves_ready hscan' hlimit h)
      rintro _ t ⟨hrd,rfl,hqt⟩
      exact Ensures.imp (ih hrd hrs) (fun _ _ hres=>⟨hres.1,.num hqt hres.2⟩)
    | leaf n =>
      obtain ⟨hpos,hn⟩ := hcl n mem_cons_self
      apply Ensures.imp (fatVfsNodeGetLeafNode_ready hscan' hlimit h hpos hn)
      rintro b t ⟨hrd,u,r,hqt,hhl,hob⟩
      exact Ensures.imp (ih hrd hrs) (fun _ _ hres=>⟨hres.1,.leaf hn hqt hhl hob hres.2⟩)
end

end

theorem Resolved.lookup (h : Resolved first es calls s answers t) (hc : s.lookup c=some b) :
    t.lookup c=some b := by
  induction h with
  | nil => exact hc
  | num hq _ ih => exact ih ((hq.lookup c).trans hc)
  | leaf _ hq _ ho _ ih => exact ih (ho.lookup ((hq.lookup c).trans hc))

/-- What is answered in the end to a call, at any time. -/
def LeafCall.answer (es : List (ℕ × DirEntry)) (t : FatSuper) : LeafCall → ℕ
  | num => es.length
  | leaf n => ((es[n]?).bind (fun e=>t.lookup e.2.cluster)).getD 0

theorem Resolved.answers_some (h : Resolved first es calls s answers t) : answers.map some=calls.map (fun call =>
    match call with
    | .num => some es.length
    | .leaf n => (es[n]?).bind (fun e=>t.lookup e.2.cluster)) := by
  induction h with
  | nil => rfl
  | num _ _ ih => rw [map_cons,ih,map_cons]
  | @leaf s t u v cs answers n b r hn _ hhl ho hres ih =>
    have hl : v.lookup es[n].2.cluster=some b := by
      rw [← hhl.entry]
      exact hres.lookup ho.lookup_self
    simp [ih,List.getElem?_eq_getElem hn,hl]

theorem Resolved.answers_eq (h : Resolved first es calls s answers t) : answers=calls.map (LeafCall.answer es t) := by
  have hs := congrArg (List.map (fun x=>x.getD 0)) h.answers_some
  rw [map_map,map_map] at hs
  apply ((map_id answers).symm.trans hs).trans
  apply map_congr_left
  rintro (_ | n) _
  · rfl
  · rfl

/-- In any order, `get_num_leaves` and `get_leaf_node` answer by one scan of the directory. -/
theorem leafCalls_scan {calls : List (LeafCall × FatResult)} (hscan : Scan d limit s.dev first 0 r es)
    (hlimit : es.length<limit) (hlisted : a ∈ s.list) (hlocked : (s.node a).locked=true)
    (hcached : Cached first es (s.node a)) (hcalls : ∀ n, .leaf n ∈ calls.map Prod.fst → 1≤n ∧ n<es.length) :
    Returns (leafCalls d limit alloc a calls) s (fun answers t =>
      Resolved first es (calls.map Prod.fst) s answers t ∧
        ∃ answer : LeafCall → ℕ, answers=calls.map (fun call=>answer call.1)) := by
  apply (leafCalls_resolved hscan hlimit ⟨rfl,hlisted,hlocked,hcached⟩ hcalls).imp
  rintro answers t ⟨-,hres⟩
  refine ⟨hres,LeafCall.answer es t,?_⟩
  rw [hres.answers_eq,map_map]
  rfl

def bar : DirEntry where
  name := [0x42, 0x41, 0x52]
  record := [0x42, 0x41, 0x52, 0, 0, 0, 0, 0, 0, 0, 0, 0x20]++List.replicate 14 0++[7, 0, 3, 0, 0, 0]

/-- A disk with a directory of seventeen entries in the clusters 2 and 3. -/
def longDirectory : BlockDev where
  blockSize := 512
  data := fun block x =>
    if block=32 then (if x=8 then 3 else 0)
    else if block=100 then foobar.record.getD (x%32) 0
    else if block=101 then bar.record.getD x 0
    else 0

theorem longDirectory_chain : Chain (smallVolume 1) longDirectory [2, 3] where
  data := by
    intro c hc
    obtain rfl | rfl : c=2 ∨ c=3 := by simpa using hc
    · exact ⟨by decide,by decide,by decide⟩
    · exact ⟨by decide,by decide,by decide⟩
  linked := by
    rw [isChain_cons_cons]
    exact ⟨show load (longDirectory.data (32+4*2/512)) (4*2%512) 4%2^28=3 by decide,
      List.IsChain.singleton _⟩

theorem encodes_foobar (h : Encodes rs des) (n : ℕ) :
    Encodes (List.replicate n foobar.record++rs) (List.replicate n foobar++des) := by
  induction n with
  | zero => exact h
  | succ n ih => exact .short ⟨by decide,by decide,by decide⟩ ih

theorem longDirectory_scan : ∃ es, Scan (smallVolume 1) 18 longDirectory 2 0 noResult es ∧
    es.map Prod.snd=List.replicate 16 foobar++[bar] := by
  have hdel : Delivers (smallVolume 1) longDirectory 2 0 ((List.range' 0 18).map (fun i =>
      ((chainData (smallVolume 1) longDirectory [2, 3]).drop (i*fatEntrySize)).take fatEntrySize)) :=
    delivers_oneSector (smallVolume_volume rfl (by decide) (by decide)) longDirectory_chain rfl (by decide) (by decide)
      (by decide)
  have hrs : (List.range' 0 18).map (fun i=>((chainData (smallVolume 1) longDirectory [2, 3]).drop
      (i*fatEntrySize)).take fatEntrySize) =
      List.replicate 16 foobar.record++[bar.record, List.replicate 32 0] := by
    decide +kernel
  rw [hrs] at hdel
  have henc : Encodes (List.replicate 16 foobar.record++[bar.record, List.replicate 32 0])
      (List.replicate 16 foobar++[bar]) :=
    encodes_foobar (.short ⟨by decide,by decide,by decide⟩ (.last [] (by decide))) 16
  exact henc.scan hdel (by decide) noResult

/-- The volume with the node of this directory, which has been locked. -/
def longSuper : FatSuper where
  dev := longDirectory
  list := [1]
  node := fun _=>{unsafeCreate (rootResult rootRecord) with locked := true}
  nofNodes := 1
  nodup := nodup_singleton 1

theorem leafCalls_scan_behindCache : ∃ es : List (ℕ × DirEntry), es.map Prod.snd=List.replicate 16 foobar++[bar] ∧
    Returns (leafCalls (smallVolume 1) 18 bumpAllocator 1
      [(.leaf 16, noResult), (.num, noResult), (.leaf 1, noResult), (.leaf 16, noResult)]) longSuper
      (fun answers t=>Resolved 2 es [.leaf 16, .num, .leaf 1, .leaf 16] longSuper answers t ∧
        ∃ answer : LeafCall → ℕ, answers=[answer (.leaf 16), answer .num, answer (.leaf 1), answer (.leaf 16)]) := by
  obtain ⟨es,hscan,hes⟩ := longDirectory_scan
  have hl : es.length=17 := by rw [← length_map Prod.snd,hes]; rfl
  refine ⟨es,hes,leafCalls_scan hscan (by omega) mem_cons_self rfl ?_ ?_⟩
  · have hnew : Cached 2 es (unsafeCreate (rootResult rootRecord)) := cached_unsafeCreate (by decide) (by decide)
    exact ⟨hnew.directory,hnew.cluster,hnew.size,hnew.table⟩
  · simp_all
end

end Yaos2.Fat
