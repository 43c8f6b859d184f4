import Yaos2.Debug
import Yaos2.Utils

/-! # Mounts

Mounts are kept in a list, the latest one first. -/
namespace Yaos2.Vfs
open Foundation List Nat

structure Mount (S : Type) where
  path : List UInt8
  superNode : S
  deriving DecidableEq, Repr

/-- The operation of a super node that `vfs_get` calls. -/
inductive Call (S : Type)
  | getRoot (superNode : S)
  | getByPath (superNode : S) (path : List UInt8)
  deriving DecidableEq, Repr

variable {S : Type}

/-- The root is mounted at the empty path. In it the last character is the byte before the string. -/
def vfsMount (before : UInt8) (path : List UInt8) (superNode : S) : Exec (List (Mount S)) Unit := do
  let path := if kstrcmp path [vfsSeparator] then [] else path
  panicIf (path.getLastD before=vfsSeparator) "vfs_mount(): path must not end with /"
  let mounts ← get
  panicIf (mounts.any (fun mount=>kstrcmp path mount.path)=true) "vfs_mount(): mount point occupied"
  set (⟨path,superNode⟩::mounts)

def vfsMountAll (before : UInt8) : List (List UInt8 × S) → Exec (List (Mount S)) Unit
  | [] => return
  | (path, superNode)::calls => do
    vfsMount before path superNode
    vfsMountAll before calls

/-- What `vfs_get` does with a mount. -/
def mountCall (path : List UInt8) (mount : Mount S) : Option (Call S) :=
  let minLen := min mount.path.length path.length
  if !kstrncmp path mount.path minLen then
    none
  else
    let lastChar := path.getD minLen 0
    if lastChar=0 then
      some (.getRoot mount.superNode)
    else if lastChar=vfsSeparator then
      some (.getByPath mount.superNode (path.drop minLen))
    else
      none

/-- The call that `vfs_get` makes, if any. -/
def vfsGet (mounts : List (Mount S)) (path : List UInt8) : Option (Call S) := mounts.findSome? (mountCall path)

/-- The path that a mount is entered with. -/
def mountPoint (path : List UInt8) : List UInt8 := if path=[vfsSeparator] then [] else path

/-- The path is the mount point or lies under it. -/
def Covers (point path : List UInt8) : Prop := path=point ∨ ∃ rest, path=point++vfsSeparator::rest

/-- The longest mount point that covers the path, with the call it is for. -/
def Longest (calls : List (List UInt8 × S)) (path : List UInt8) (call : Call S) : Prop :=
  ∃ q s, (q, s) ∈ calls ∧ Covers (mountPoint q) path ∧
    (∀ q' s', (q', s') ∈ calls → Covers (mountPoint q') path → (mountPoint q').length≤(mountPoint q).length) ∧
    call=if path=q then .getRoot s else .getByPath s (path.drop (mountPoint q).length)

variable {before : UInt8} {path point : List UInt8} {mount : Mount S} {mounts : List (Mount S)}
  {calls : List (List UInt8 × S)} {call : Call S}

section

/-- No mount has a path that begins the path of an earlier one. -/
def Layered (mounts : List (Mount S)) : Prop := mounts.Pairwise (fun m m'=>¬ m.path <+: m'.path)

theorem kstrcmp_root (hp : 0 ∉ path) :
    (if kstrcmp path [vfsSeparator]=true then [] else path)=mountPoint path := by
  simp only [mountPoint,kstrcmp_iff hp]
  rcases path with _ | ⟨c,path⟩ <;> simp [cons_prefix_cons]

theorem mountPoint_terminated (hp : 0 ∉ path) : 0 ∉ mountPoint path := by
  rw [mountPoint]
  split
  · exact not_mem_nil
  · exact hp

theorem vfsMount_spec (hp : 0 ∉ path) : Ensures (vfsMount before path s) mounts (fun _ ms =>
    ms=⟨mountPoint path,s⟩::mounts ∧ ∀ m ∈ mounts, ¬ mountPoint path <+: m.path) (fun _=>True) := by
  simp only [vfsMount,kstrcmp_root hp,wp_bind,wp_panicIf_iff,wp_get,wp_set]
  refine ⟨fun _=>trivial,fun _=>⟨fun _=>trivial,fun hf=>⟨trivial,fun m hm hpre=>hf ?_⟩⟩⟩
  exact any_eq_true.mpr ⟨m,hm,(kstrcmp_iff (mountPoint_terminated hp)).mpr hpre⟩

theorem vfsMountAll_spec (hcl : ∀ c ∈ calls, 0 ∉ c.1) (hmn : Layered mounts) :
    Ensures (vfsMountAll before calls) mounts (fun _ ms=>Layered ms ∧
      ∀ m, m ∈ ms ↔ m ∈ mounts ∨ (∃ q s, (q, s) ∈ calls ∧ m=⟨mountPoint q,s⟩)) (fun _=>True) := by
  induction calls generalizing mounts with
  | nil =>
    rw [vfsMountAll,wp_pure]
    exact ⟨hmn,fun m=>by simp⟩
  | cons c calls ih =>
    rw [vfsMountAll,wp_bind]
    apply (vfsMount_spec (hcl c mem_cons_self)).imp
    rintro - _ ⟨rfl,hfr⟩
    apply (ih (fun c hc=>hcl c (mem_cons_of_mem _ hc)) (hmn.cons hfr)).imp
    rintro - ms ⟨hly,hms⟩
    refine ⟨hly,fun m=>?_⟩
    rw [hms,mem_cons]
    constructor
    · rintro ((rfl | hm) | ⟨q,s,hq,rfl⟩)
      · exact .inr ⟨c.1,c.2,mem_cons_self,rfl⟩
      · exact .inl hm
      · exact .inr ⟨q,s,mem_cons_of_mem _ hq,rfl⟩
    · rintro (hm | ⟨q,s,hq,rfl⟩)
      · exact .inl (.inr hm)
      · rcases mem_cons.mp hq with rfl | hq
        · exact .inl (.inl rfl)
        · exact .inr ⟨q,s,hq,rfl⟩
end

section

theorem Covers.isPrefix (h : Covers point path) : point <+: path := by
  rcases h with rfl | ⟨rest,rfl⟩
  · exact prefix_rfl
  · exact prefix_append _ _

theorem mountCall_eq_some_iff (hmn : 0 ∉ mount.path) (hpt : 0 ∉ path)
    (hln : path <+: mount.path → path=mount.path) :
    mountCall path mount=some call ↔ Covers mount.path path ∧
      call=if path=mount.path then .getRoot mount.superNode
        else .getByPath mount.superNode (path.drop mount.path.length) := by
  by_cases hpre : mount.path <+: path
  · have hmin := min_eq_left hpre.length_le
    rw [mountCall,hmin,(kstrncmp_iff hmn).mpr hpre]
    obtain ⟨rest,rfl⟩ := hpre
    cases rest with
    | nil => simp [Covers,eq_comm]
    | cons c rest =>
      have hc : c≠0 := by
        rintro rfl
        exact hpt (mem_append_right _ mem_cons_self)
      have hcv : Covers mount.path (mount.path++c::rest) ↔ c=vfsSeparator := by simp [Covers]
      have hsl : vfsSeparator≠0 := by decide
      rw [hcv]
      by_cases hsep : c=vfsSeparator <;> simp [hc,hsep,hsl,eq_comm]
  · -- the comparison fails, whichever of the two is shorter
    have hcmp : kstrncmp path mount.path (min mount.path.length path.length)=false := by
      rcases le_total mount.path.length path.length with hle | hle
      · rw [min_eq_left hle,← Bool.not_eq_true,kstrncmp_iff hmn]
        exact hpre
      · rw [min_eq_right hle,← Bool.not_eq_true,kstrncmp_comm,kstrncmp_iff hpt]
        exact fun h=>hpre (hln h▸prefix_rfl)
    rw [mountCall,hcmp]
    exact ⟨fun h=>(nomatch h),fun h=>absurd h.1.isPrefix hpre⟩

theorem findSome?_longest {g : Mount S → Call S} (hlay : Layered mounts)
    (hf : ∀ m ∈ mounts, ∀ c, f m=some c ↔ Covers m.path path ∧ c=g m) :
    mounts.findSome? f=some call ↔ ∃ m ∈ mounts, Covers m.path path ∧
      (∀ m' ∈ mounts, Covers m'.path path → m'.path.length ≤ m.path.length) ∧ call=g m := by
  induction mounts with
  | nil => simp
  | cons m mounts ih =>
    obtain ⟨hfr,hrs⟩ := pairwise_cons.mp hlay
    have ih' := ih hrs (fun m' hm'=>hf m' (mem_cons_of_mem m hm'))
    by_cases hcov : Covers m.path path
    · have hfm := (hf m mem_cons_self _).mpr ⟨hcov,rfl⟩
      -- two beginnings of one path: the later mount is not a beginning of the earlier
      have hln : ∀ m' ∈ mounts, Covers m'.path path → m'.path.length < m.path.length := by
        intro m' hm' hcov'
        rcases prefix_or_prefix_of_prefix hcov.isPrefix hcov'.isPrefix with h | h
        · exact absurd h (hfr m' hm')
        · refine lt_of_le_of_ne h.length_le (fun hlen=>hfr m' hm' ?_)
          rw [h.eq_of_length hlen]
      rw [List.findSome?_cons,hfm]
      constructor
      · rintro ⟨⟩
        refine ⟨m,mem_cons_self,hcov,fun m' hm' hcov'=>?_,rfl⟩
        rcases mem_cons.mp hm' with rfl | hm'
        · exact le_refl _
        · exact le_of_lt (hln m' hm' hcov')
      · rintro ⟨m',hm',hcov',hmax,rfl⟩
        rcases mem_cons.mp hm' with rfl | hm'
        · rfl
        · exact absurd (hmax m mem_cons_self hcov) (not_le.mpr (hln m' hm' hcov'))
    · have hfm : f m=none := by
        rcases hfm : f m with _ | c
        · rfl
        · exact absurd ((hf m mem_cons_self c).mp hfm).1 hcov
      rw [List.findSome?_cons,hfm,ih']
      simp only [forall_mem_cons,exists_mem_cons_iff,hcov,false_imp_iff,false_and,true_and,false_or]

theorem eq_mountPoint_iff (habs : path.headD 0=vfsSeparator) (hr : path≠[vfsSeparator]) (q : List UInt8) :
    path=mountPoint q ↔ path=q := by
  have hne : path≠[] := by
    rintro rfl
    exact absurd habs (by decide)
  rw [mountPoint]
  split
  · next hq => simp [hq,hr,hne]
  · rfl

end

/-- The mounts of `kernel_main`: the root at `/` and the devices at `/dev`. -/
def kernelCalls : List (List UInt8 × Bool) := [([0x2f], false), ([0x2f, 0x64, 0x65, 0x76], true)]

def kernelMounts : List (Mount Bool) := [⟨[0x2f, 0x64, 0x65, 0x76],true⟩, ⟨[],false⟩]

theorem vfsMountAll_kernel : vfsMountAll 0 kernelCalls []=.ok () kernelMounts := rfl

def com1 : List UInt8 := [0x2f, 0x64, 0x65, 0x76, 0x2f, 0x63, 0x6f, 0x6d, 0x31]

theorem mem_kernelCalls (h : (q, s) ∈ kernelCalls) : q=[0x2f] ∨ q=[0x2f, 0x64, 0x65, 0x76] := by
  have hc : q=[0x2f] ∧ s=false ∨ q=[0x2f, 0x64, 0x65, 0x76] ∧ s=true := by simpa [kernelCalls] using h
  exact hc.imp And.left And.left

theorem kernelCalls_longest (hlen : path.length<4)
    (h : (q, s) ∈ kernelCalls) (hcov : Covers (mountPoint q) path) :
    (mountPoint q).length≤(mountPoint [0x2f]).length := by
  obtain rfl | rfl := mem_kernelCalls h
  · exact le_refl _
  · exact absurd hcov.isPrefix.length_le (not_le.mpr hlen)

end Yaos2.Vfs
