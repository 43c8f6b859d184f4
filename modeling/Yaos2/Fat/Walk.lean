import Yaos2.Fat.Directory

/-! # Walking a path of a FAT volume

A name is compared with as many characters as the component of the path has. -/
namespace Yaos2.Fat
open Foundation List Nat

variable (d : SuperData) (limit : ℕ)

/-- The loop of `fat_walk_path` over the entries of a directory. Tells whether the node was found. -/
def searchDirectory (root : ℕ) (node : List UInt8) (len : ℕ) (isLeaf : Bool) :
    ℕ → ℕ → FatResult → Exec BlockDev (Bool × FatResult)
  | 0, _, _ => abort "endless loop"
  | fuel+1, enI, result => do
    let (next, result) ← fatReadEntry d root limit enI none result
    panicIf (next=.error) "fat_walk_path(): error reading entry"
    if kstrncmp (bytes result.lfn 0 fatLfnNameBufSize) node len && isLeaf != result.entry.isDirectory then
      return (true, result)
    else
      match next with
      | .next enI => searchDirectory root node len isLeaf fuel enI result
      | _ => return (false, result)

/-- The number of calls and the records of a directory are bounded by the first two arguments. -/
def fatWalkPath : ℕ → FatResult → List UInt8 → ℕ → Exec BlockDev (FatStatus × FatResult)
  | 0, _, _, _ => abort "endless recursion"
  | depth+1, result, path, root => do
    kassert "path[0] == VFS_SEPARATOR" (path.headD 0 == vfsSeparator)
    let node := path.tail
    let next := kstrchr node vfsSeparator
    let nodeNameLength := node.length-(next.getD []).length
    panicIf (nodeNameLength ≥ fatLfnNameSize) "fat_walk_path(): node name is too long"
    let (found, result) ← searchDirectory d limit root node nodeNameLength next.isNone limit 0 result
    if !found then
      return (.error, result)
    else
      match next with
      | none => return (.ok, result)
      | some next => fatWalkPath depth result next result.entry.cluster

def pathOf (names : List (List UInt8)) : List UInt8 := names.flatMap (fun n=>vfsSeparator::n)

/-- A component of a path that `fat_walk_path` accepts. -/
structure Component (n : List UInt8) : Prop where
  terminated : 0 ∉ n
  separated : vfsSeparator ∉ n
  short : n.length<fatLfnNameSize

/-- The name begins with the component, and is a directory's unless the component is the last. -/
def Fits (n : List UInt8) (isLeaf : Bool) (e : DirEntry) : Prop := n <+: e.name ∧ isLeaf≠e.isDirectory

instance (n : List UInt8) (isLeaf : Bool) (e : DirEntry) : Decidable (Fits n isLeaf e) :=
  inferInstanceAs (Decidable (_ ∧ _))

/-- A directory whose records are delivered and hold these entries. -/
structure Directory (dev : BlockDev) (cl : ℕ) (es : List DirEntry) : Prop where
  encoded : ∃ rs, Encodes rs es ∧ Delivers d dev cl 0 rs ∧ rs.length≤limit

variable (tree : ℕ → List DirEntry)

/-- The entry that the walk ends with: the first one that fits, in directory after directory. -/
def firstFit : ℕ → List (List UInt8) → Option DirEntry
  | _, [] => none
  | cl, [n] => (tree cl).find? (fun e=>Fits n true e)
  | cl, n::names => ((tree cl).find? (fun e=>Fits n false e)).bind (fun s=>firstFit s.cluster names)

/-- The components before the last one name nested directories, and the last one a file there. -/
def Resolves : ℕ → List (List UInt8) → DirEntry → Prop
  | _, [], _ => False
  | cl, [n], e => e ∈ tree cl ∧ e.name=n ∧ e.isDirectory=false
  | cl, n::names, e => ∃ s ∈ tree cl, s.name=n ∧ s.isDirectory=true ∧ Resolves s.cluster names e

/-- The directories that a walk can come to are readable. -/
def Readable (dev : BlockDev) : ℕ → List (List UInt8) → Prop
  | _, [] => True
  | cl, n::names => Directory d limit dev cl (tree cl) ∧
      ∀ s ∈ tree cl, Fits n false s → Readable dev s.cluster names

/-- In the directories that a walk comes to, at most one entry fits, and by its full name. -/
def Unambiguous : ℕ → List (List UInt8) → Prop
  | _, [] => True
  | cl, n::names => (∀ e ∈ tree cl, Fits n names.isEmpty e → e.name=n) ∧
      (∀ e ∈ tree cl, ∀ e' ∈ tree cl, Fits n names.isEmpty e → Fits n names.isEmpty e' → e=e') ∧
      ∀ s ∈ tree cl, Fits n false s → Unambiguous s.cluster names

variable {d limit tree} {dev : BlockDev} {root cl idx fuel depth : ℕ} {n rest : List UInt8} {names : List (List UInt8)}
  {isLeaf : Bool} {result : FatResult} {rs : List Record} {e : DirEntry} {es : List DirEntry}

section

theorem fits_dirEntry_iff (hn : 0 ∉ n) :
    (kstrncmp (bytes result.lfn 0 fatLfnNameBufSize) (n++rest) n.length &&
      isLeaf != result.entry.isDirectory)=true ↔ Fits n isLeaf result.dirEntry := by
  rw [Bool.and_eq_true,kstrncmp_append_iff hn,← prefix_cString_iff hn,bne_iff_ne]
  exact Iff.rfl

theorem searchDirectory_end (hn : 0 ∉ n) (henc : Encodes rs []) (hdel : Delivers d dev root idx rs)
    (hl : rs.length≤limit) :
    Returns (searchDirectory d limit root (n++rest) n.length isLeaf (fuel+1) idx result) dev
      (fun x t=>x=(decide (Fits n isLeaf result.dirEntry), result) ∧ t=dev) := by
  rw [searchDirectory,Returns,wp_bind]
  apply (fatReadEntry_end henc rfl hdel hl).imp
  rintro _ t ⟨rfl,rfl⟩
  simp only [wp_bind]
  rw [wp_panicIf (by simp)]
  by_cases hfit : Fits n isLeaf result.dirEntry
  · rw [if_pos ((fits_dirEntry_iff hn).mpr hfit),wp_pure]
    exact ⟨by simp [hfit],rfl⟩
  · rw [if_neg (fun h=>hfit ((fits_dirEntry_iff hn).mp h)),wp_pure]
    exact ⟨by simp [hfit],rfl⟩

theorem Encodes.exists_length (henc : Encodes rs es) (hf : rs.length≤fuel) : ∃ k, fuel=k+1 := by
  have hpos : rs≠[] := by cases henc <;> simp
  exact exists_eq_succ_of_ne_zero (ne_of_gt (Nat.lt_of_lt_of_le (length_pos_of_ne_nil hpos) hf))

section
variable (hn : 0 ∉ n) (henc : Encodes rs (e::es)) (hdel : Delivers d dev root idx rs)
  (hlm : rs.length≤limit)
include hn henc hdel hlm
theorem searchDirectory_step (hfit : ∀ r, r.dirEntry=e → Fits n isLeaf e → Q (true, r) dev)
    (hnx : ∀ r idx' rs', r.dirEntry=e → ¬ Fits n isLeaf e → Encodes rs' es → Delivers d dev root idx' rs' →
      rs'.length<rs.length →
      Returns (searchDirectory d limit root (n++rest) n.length isLeaf fuel idx' r) dev Q) :
    Returns (searchDirectory d limit root (n++rest) n.length isLeaf (fuel+1) idx result) dev Q := by
  rw [searchDirectory,Returns,wp_bind]
  apply (fatReadEntry_entry henc rfl hdel hlm).imp
  rintro ⟨x,r⟩ t ⟨rfl,he,idx',rs',hx,henc',hdel',hlt⟩
  obtain rfl : x=.next idx' := hx
  simp only [wp_bind]
  rw [wp_panicIf (by simp)]
  by_cases hft : Fits n isLeaf r.dirEntry
  · rw [if_pos ((fits_dirEntry_iff hn).mpr hft),wp_pure]
    exact hfit r he (he▸hft)
  · rw [if_neg (fun h=>hft ((fits_dirEntry_iff hn).mp h))]
    exact hnx r idx' rs' he (he▸hft) henc' hdel' hlt

theorem searchDirectory_spec (hfl : rs.length≤fuel) :
    Returns (searchDirectory d limit root (n++rest) n.length isLeaf fuel idx result) dev (fun x t=>t=dev ∧
      x.1=((e::es).find? (fun e=>Fits n isLeaf e)).isSome ∧
      ∀ f, (e::es).find? (fun e=>Fits n isLeaf e)=some f → x.2.dirEntry=f) := by
  induction es generalizing e rs idx fuel result with
  | nil =>
    obtain ⟨fuel,rfl⟩ := henc.exists_length hfl
    refine searchDirectory_step hn henc hdel hlm (fun r he hfit=>?_)
      (fun r idx' rs' he hfit henc' hdel' hlt=>?_)
    · rw [List.find?_cons_of_pos (by simpa using hfit)]
      exact ⟨rfl,rfl,fun f hf=>he.trans (Option.some.inj hf)⟩
    · obtain ⟨fuel,rfl⟩ := henc'.exists_length (Nat.lt_succ_iff.mp (Nat.lt_of_lt_of_le hlt hfl))
      apply (searchDirectory_end hn henc' hdel' (by omega)).imp
      rintro _ t ⟨rfl,rfl⟩
      rw [List.find?_cons_of_neg (by simpa using hfit),he]
      exact ⟨rfl,decide_eq_false hfit,fun f hf=>nomatch hf⟩
  | cons e' es ih =>
    obtain ⟨fuel,rfl⟩ := henc.exists_length hfl
    refine searchDirectory_step hn henc hdel hlm (fun r he hfit=>?_)
      (fun r idx' rs' he hfit henc' hdel' hlt=>?_)
    · rw [List.find?_cons_of_pos (by simpa using hfit)]
      exact ⟨rfl,rfl,fun f hf=>he.trans (Option.some.inj hf)⟩
    · rw [List.find?_cons_of_neg (by simpa using hfit)]
      exact ih henc' hdel' (by omega) (by omega)
end

end

section

theorem pathOf_cons (n : List UInt8) (names : List (List UInt8)) :
    pathOf (n::names)=vfsSeparator::(n++pathOf names) := by
  simp [pathOf]

theorem kstrchr_node (hn : Component n) (names : List (List UInt8)) :
    kstrchr (n++pathOf names) vfsSeparator=if names=[] then none else some (pathOf names) := by
  rw [kstrchr_append hn.separated]
  cases names with
  | nil => rfl
  | cons m names => rw [pathOf_cons,kstrchr,if_pos rfl,if_neg (cons_ne_nil m names)]

theorem searchDirectory_walk (hn : 0 ∉ n) (hdir : Directory d limit dev root es) :
    Returns (searchDirectory d limit root (n++rest) n.length isLeaf limit 0 result) dev (fun x t=>t=dev ∧
      ((∃ e, es.find? (fun e=>Fits n isLeaf e)=some e ∧ x.1=true ∧ x.2.dirEntry=e) ∨
        es.find? (fun e=>Fits n isLeaf e)=none ∧ x.1=false ∨
        es=[] ∧ Fits n isLeaf result.dirEntry ∧ x=(true, result))) := by
  obtain ⟨rs,henc,hdel,hlm⟩ := hdir.encoded
  cases es with
  | nil =>
    obtain ⟨fuel,hfl⟩ := henc.exists_length hlm
    nth_rewrite 2 [hfl]
    apply (searchDirectory_end hn henc hdel hlm).imp
    rintro _ t ⟨rfl,rfl⟩
    by_cases hfit : Fits n isLeaf result.dirEntry
    · exact ⟨rfl,.inr (.inr ⟨rfl,hfit,by simp [hfit]⟩)⟩
    · exact ⟨rfl,.inr (.inl ⟨rfl,decide_eq_false hfit⟩)⟩
  | cons e es =>
    apply (searchDirectory_spec hn henc hdel hlm hlm).imp
    rintro x t ⟨rfl,hx,hfd⟩
    rcases hfn : (e::es).find? (fun e=>Fits n isLeaf e) with _ | f
    · rw [hfn] at hx
      exact ⟨rfl,.inr (.inl ⟨rfl,hx⟩)⟩
    · rw [hfn] at hx
      exact ⟨rfl,.inl ⟨f,rfl,hx,hfd f hfn⟩⟩

theorem fatWalkPath_step (hn : Component n) (hdir : Directory d limit dev root es)
    (her : ∀ r, es.find? (fun e=>Fits n names.isEmpty e)=none → Q (.error, r) dev)
    (hfd : ∀ r, es.find? (fun e=>Fits n names.isEmpty e)=some r.dirEntry ∨
      es=[] ∧ Fits n names.isEmpty result.dirEntry ∧ r=result →
      if names=[] then Q (.ok, r) dev else
        Returns (fatWalkPath d limit depth r (pathOf names) r.entry.cluster) dev Q) :
    Returns (fatWalkPath d limit (depth+1) result (pathOf (n::names)) root) dev Q := by
  have hlen : (n++pathOf names).length-((kstrchr (n++pathOf names) vfsSeparator).getD []).length =
      n.length := by
    rw [kstrchr_node hn]
    cases names <;> simp [pathOf]
  have hlf : (kstrchr (n++pathOf names) vfsSeparator).isNone=names.isEmpty := by
    rw [kstrchr_node hn]
    cases names <;> rfl
  rw [pathOf_cons,fatWalkPath,Returns]
  simp only [headD_cons,tail_cons,wp_bind,hlen,hlf]
  rw [wp_kassert (beq_self_eq_true _)]
  apply (wp_panicIf (by rw [ge_iff_le,hlen]; exact not_le.mpr hn.short)).mpr
  apply (searchDirectory_walk hn.terminated hdir).imp
  rintro ⟨found,r⟩ t ⟨rfl,hx⟩
  have hgo : found=true → (es.find? (fun e=>Fits n names.isEmpty e)=some r.dirEntry ∨
      es=[] ∧ Fits n names.isEmpty result.dirEntry ∧ r=result) →
      Returns (match kstrchr (n++pathOf names) vfsSeparator with
        | none => return (.ok, r)
        | some next => fatWalkPath d limit depth r next r.entry.cluster) t Q := by
    intro _ hr
    have := hfd r hr
    rw [kstrchr_node hn]
    split at this
    case isTrue hnil => rwa [if_pos hnil,Returns,wp_pure]
    case isFalse hnil => rwa [if_neg hnil]
  rcases hx with ⟨e,hfn,hx,he⟩ | ⟨hfn,hx⟩ | ⟨hnil,hfit,hx⟩
  · obtain rfl : found=true := hx
    exact hgo rfl (.inl (he▸hfn))
  · obtain rfl : found=false := hx
    simp only [Bool.not_false,if_true,wp_pure]
    exact her r hfn
  · obtain ⟨rfl,rfl⟩ := Prod.mk.inj hx
    exact hgo rfl (.inr ⟨hnil,hfit,rfl⟩)

/-- The result before the search is not mistaken for an entry of the directory. -/
def Fresh (tree : ℕ → List DirEntry) (root : ℕ) (n : List UInt8) (isLeaf : Bool) (e : DirEntry) : Prop :=
  tree root≠[] ∨ ¬ Fits n isLeaf e ∨ e.isDirectory=true ∧ e.cluster=root

theorem firstFit_cons (hne : names≠[]) : firstFit tree cl (n::names) =
    ((tree cl).find? (fun e=>Fits n false e)).bind (fun s=>firstFit tree s.cluster names) := by
  cases names with
  | nil => exact absurd rfl hne
  | cons m names => rfl

theorem resolves_cons (hne : names≠[]) : Resolves tree cl (n::names) e ↔
    ∃ s ∈ tree cl, s.name=n ∧ s.isDirectory=true ∧ Resolves tree s.cluster names e := by
  cases names with
  | nil => exact absurd rfl hne
  | cons m names => rfl

theorem fatWalkPath_firstFit (hnm : ∀ m ∈ n::names, Component m)
    (hrd : Readable d limit tree dev root (n::names))
    (hfr : Fresh tree root n names.isEmpty result.dirEntry) (hdp : names.length<depth) :
    Returns (fatWalkPath d limit depth result (pathOf (n::names)) root) dev (fun x t=>t=dev ∧
      (firstFit tree root (n::names)=none ∧ x.1=.error ∨
        firstFit tree root (n::names)=some x.2.dirEntry ∧ x.1=.ok)) := by
  induction names generalizing n root result depth with
  | nil =>
    obtain ⟨depth,rfl⟩ := exists_eq_succ_of_ne_zero (ne_of_gt hdp)
    apply fatWalkPath_step (hnm n mem_cons_self) hrd.1 (fun r hnn=>⟨rfl,.inl ⟨hnn,rfl⟩⟩)
    rintro r (hfn | ⟨hnil,hfit,rfl⟩)
    · exact ⟨rfl,.inr ⟨hfn,rfl⟩⟩
    · -- the entry of a directory is not taken for a file
      rcases hfr with h | h | ⟨h,-⟩
      · exact absurd hnil h
      · exact absurd hfit h
      · exact absurd h.symm hfit.2
  | cons m names ih =>
    obtain ⟨depth,rfl⟩ := exists_eq_succ_of_ne_zero (ne_of_gt (zero_lt_of_lt hdp))
    have hne := cons_ne_nil m names
    have hnm' : ∀ x ∈ m::names, Component x := fun x hx=>hnm x (mem_cons_of_mem n hx)
    have hdp' : names.length<depth := by simpa using hdp
    refine fatWalkPath_step (hnm n mem_cons_self) hrd.1 (fun r hnn=>⟨rfl,.inl ⟨?_,rfl⟩⟩) ?_
    · rw [firstFit_cons hne]
      exact congrArg (fun o=>Option.bind o _) hnn
    rintro r (hfn | ⟨hnil,hfit,rfl⟩)
    · rw [if_neg hne,firstFit_cons hne]
      have hfit : Fits n false r.dirEntry := by simpa using List.find?_some hfn
      have hrd' := hrd.2 r.dirEntry (mem_of_find?_eq_some hfn) hfit
      have hdir : r.dirEntry.isDirectory=true := by simpa using hfit.2.symm
      have hfr' : Fresh tree r.dirEntry.cluster m names.isEmpty r.dirEntry := .inr (.inr ⟨hdir,rfl⟩)
      have hst := ih hnm' hrd' hfr' hdp'
      rwa [show (tree root).find? (fun e=>Fits n false e)=some r.dirEntry from hfn,Option.bind_some]
    · -- an empty directory is entered by its own name, and nothing is found there
      rcases hfr with h | h | ⟨hdir,hcl⟩
      · exact absurd hnil h
      · exact absurd hfit h
      · have hem : ∀ s ∈ tree root, Fits m false s → Readable d limit tree dev s.cluster names :=
          fun s hs=>absurd hs (hnil▸not_mem_nil)
        have hfr' : Fresh tree root m names.isEmpty r.dirEntry := .inr (.inr ⟨hdir,hcl⟩)
        have hst := ih hnm' ⟨hrd.1,hem⟩ hfr' hdp'
        have hnn : ∀ x xs, firstFit tree root (x::xs)=none := by
          intro x xs
          cases xs <;> simp [firstFit,hnil]
        rw [if_neg hne,show r.entry.cluster=root from hcl]
        simpa only [hnn] using hst

theorem find?_eq_some_iff_of_unique {l : List α} (h : ∀ x ∈ l, ∀ y ∈ l, p x=true → p y=true → x=y) :
    l.find? p=some a ↔ a ∈ l ∧ p a=true := by
  constructor
  · exact fun hf=>⟨mem_of_find?_eq_some hf,List.find?_some hf⟩
  · rintro ⟨hmem,ha⟩
    obtain ⟨b,hb⟩ := Option.isSome_iff_exists.mp (List.find?_isSome.mpr ⟨a,hmem,ha⟩)
    rw [hb,h b (mem_of_find?_eq_some hb) a hmem (List.find?_some hb) ha]

theorem firstFit_eq_some_iff (h : Unambiguous tree cl names) :
    firstFit tree cl names=some e ↔ Resolves tree cl names e := by
  induction names generalizing cl with
  | nil => simp [firstFit,Resolves]
  | cons n names ih =>
    obtain ⟨hnm,hun,hrs⟩ := h
    have hft : ∀ x, x ∈ tree cl ∧ decide (Fits n names.isEmpty x)=true ↔
        x ∈ tree cl ∧ x.name=n ∧ names.isEmpty≠x.isDirectory := by
      intro x
      rw [decide_eq_true_eq]
      refine and_congr_right (fun hx=>⟨fun hfit=>⟨hnm x hx hfit,hfit.2⟩,fun hx'=>?_⟩)
      exact ⟨hx'.1▸prefix_rfl,hx'.2⟩
    have hfn : ∀ x, (tree cl).find? (fun e=>Fits n names.isEmpty e)=some x ↔
        x ∈ tree cl ∧ x.name=n ∧ names.isEmpty≠x.isDirectory := by
      intro x
      rw [find?_eq_some_iff_of_unique (by simpa using hun),hft]
    cases names with
    | nil =>
      rw [firstFit,Resolves]
      simpa using hfn e
    | cons m names =>
      rw [firstFit_cons (cons_ne_nil m names),resolves_cons (cons_ne_nil m names),Option.bind_eq_some_iff]
      refine exists_congr (fun s=>?_)
      rw [show (tree cl).find? (fun e=>Fits n false e)=some s ↔ _ from hfn s,and_assoc,and_assoc]
      refine and_congr_right (fun hs=>and_congr_right (fun hn=>?_))
      rw [isEmpty_cons,ne_comm,Bool.ne_false_iff]
      exact and_congr_right (fun hdir=>ih (hrs s hs ⟨hn▸prefix_rfl,by simp [hdir]⟩))

end

def foobar : DirEntry where
  name := [0x46, 0x4f, 0x4f, 0x42, 0x41, 0x52]
  record := [0x46, 0x4f, 0x4f, 0x42, 0x41, 0x52, 0, 0, 0, 0, 0, 0x20]++List.replicate 20 0

/-- A disk with the bytes of this record in its first sector of data. -/
def dirDisk (r : Record) : BlockDev where
  blockSize := 512
  data := fun block x=>if block=100 then r.getD x 0 else 0

/-- The directory of cluster 2 has these entries. -/
def dirTree (es : List DirEntry) (cl : ℕ) : List DirEntry := if cl=2 then es else []

theorem dirDisk_chain (r : Record) : Chain (smallVolume 1) (dirDisk r) [2] where
  data := by
    intro c hc
    obtain rfl := mem_singleton.mp hc
    exact ⟨by decide,by decide,by decide⟩
  linked := List.IsChain.singleton _

theorem dirDisk_delivers (hlen : rs.length≤16) (hrs : (List.range' 0 rs.length).map (fun i =>
      ((chainData (smallVolume 1) (dirDisk r) [2]).drop (i*fatEntrySize)).take fatEntrySize)=rs) :
    Delivers (smallVolume 1) (dirDisk r) 2 0 rs := by
  have hs : (smallVolume 1).bytesPerCluster*[2].length=16*fatEntrySize := rfl
  have hdel := delivers_oneSector (smallVolume_volume rfl (by decide) (by decide)) (dirDisk_chain r) rfl (by decide)
    (show (0+rs.length)*fatEntrySize≤_ by rw [hs]; exact mul_le_mul_right _ (by omega)) (by decide)
  rwa [hrs] at hdel

theorem empty_directory : Directory (smallVolume 1) 2 (dirDisk []) 2 [] where
  encoded := ⟨[List.replicate 32 0, List.replicate 32 0],.last _ (by decide),
    dirDisk_delivers (by decide) (by decide +kernel),by simp⟩

theorem foobar_directory : Directory (smallVolume 1) 2 (dirDisk foobar.record) 2 [foobar] where
  encoded := ⟨[foobar.record, List.replicate 32 0],.short ⟨by decide,by decide,by decide⟩ (.last [] (by decide)),
    dirDisk_delivers (by decide) (by decide +kernel),by simp⟩

def noResult : FatResult where
  dirCluster := 0
  entry := []
  lfn := fun _=>0

end Yaos2.Fat
