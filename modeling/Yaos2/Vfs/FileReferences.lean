import Yaos2.Vfs.OpenFiles

/-! # Counting references to open files -/
namespace Yaos2.Vfs
open Foundation Process Function List Nat

set_option linter.unusedSectionVars false

variable {V P T : Type} [DecidableEq V] [DecidableEq P] [DecidableEq T] [Fintype P] [Fintype T]

namespace OpenFiles

def slots (s : OpenFiles V P T) (x : P × Fin procMaxFiles) : Option ℕ := s.table x.1 x.2

/-- The number of calls that `g` takes to `i`. -/
def calls {I : Type} [DecidableEq I] (s : OpenFiles V P T) (g : Pc V P → Option I) (i : I) : ℕ :=
  tally (fun t=>g (s.pc t)) i

/-- The descriptors and the calls that hold a file. -/
def holders (s : OpenFiles V P T) (f : ℕ) : ℕ := tally s.slots f+s.calls Pc.held f

/-- The files of a node that have not put it yet. -/
def owed (s : OpenFiles V P T) (n : VfsNode V) : ℕ :=
  s.allocated.countP (fun f=>decide ((s.fs.file f).node=n ∧ s.calls Pc.finishing (.free, f)=0))
end OpenFiles

/-- A file is not there, is held and listed, or one call is about to remove, put or free it. -/
def FileOk (allocated listed : Prop) (ref holders removing putting freeing : ℕ) : Prop :=
  (¬ allocated ∧ ¬ listed ∧ holders=0 ∧ removing=0 ∧ putting=0 ∧ freeing=0) ∨
  (allocated ∧ listed ∧ ref=holders ∧ 0<holders ∧ removing=0 ∧ putting=0 ∧ freeing=0) ∨
  (allocated ∧ ref=0 ∧ holders=0 ∧ removing+putting+freeing=1 ∧ (listed ↔ removing=1))

section
variable {a l : Prop} {ref h r u d : ℕ}

section
variable (hok : FileOk a l ref h r u d)
include hok
theorem FileOk.of_held (hpos : 0<h) : a ∧ l ∧ ref=h ∧ r=0 ∧ u=0 ∧ d=0 := by
  rcases hok with ⟨-,-,h0,-⟩ | ⟨ha,hl,href,-,hr,hu,hd⟩ | ⟨-,-,h0,-⟩
  · omega
  · exact ⟨ha,hl,href,hr,hu,hd⟩
  · omega

theorem FileOk.of_finishing (hpos : 0<r+u+d) : a ∧ ref=0 ∧ h=0 ∧ r+u+d=1 ∧ (l ↔ r=1) := by
  rcases hok with ⟨-,-,-,hr,hu,hd⟩ | ⟨-,-,-,-,hr,hu,hd⟩ | hl
  · omega
  · omega
  · exact hl

theorem FileOk.of_not_allocated (ha : ¬ a) : ¬ l ∧ h=0 ∧ r=0 ∧ u=0 ∧ d=0 := by
  rcases hok with ⟨-,hr⟩ | ⟨hc,-⟩ | ⟨hc,-⟩
  · exact hr
  · exact absurd hc ha
  · exact absurd hc ha
end

end

section
variable {proc : T → P} {s s' : OpenFiles V P T} {t : T} {I : Type} [DecidableEq I]

theorem Shape.calls (hs : Shape proc s t s') (g : Pc V P → Option I) (i : I) :
    s'.calls g i+share (g (s.pc t)) i=s.calls g i+share (g (s'.pc t)) i := by
  have hup : (fun u=>g (s'.pc u))=update (fun u=>g (s.pc u)) t (g (s'.pc t)) := by
    funext u
    by_cases hu : u=t
    · rw [hu,update_self]
    · rw [update_of_ne hu,hs.pc_of_ne hu]
  rw [OpenFiles.calls,hup]
  exact tally_update _ t _ i

theorem Shape.calls_eq (hs : Shape proc s t s') {g : Pc V P → Option I} (hg : g (s'.pc t)=g (s.pc t)) :
    s'.calls g=s.calls g := by
  funext i
  have hi := hs.calls g i
  rw [hg] at hi
  exact add_right_cancel hi

theorem tally_slots (ht : s'.table=update s.table p (update (s.table p) j x)) (f : ℕ) :
    tally s'.slots f+share (s.table p j) f=tally s.slots f+share x f := by
  have hu : s'.slots=update s.slots (p, j) x := by
    funext y
    obtain ⟨q,k⟩ := y
    by_cases hq : q=p
    · subst hq
      by_cases hk : k=j <;> simp [OpenFiles.slots,ht,hk]
    · simp [OpenFiles.slots,ht,hq]
  rw [hu]
  exact tally_update s.slots (p, j) x f

theorem calls_pos {i : I} (h : g (s.pc t)=some i) : 0<s.calls g i := tally_pos h

theorem slots_pos (h : s.table p j=some f) : 0<s.holders f :=
  Nat.add_pos_left (tally_pos (f := s.slots) (t := (p, j)) h) _

theorem held_pos (h : (s.pc t).held=some f) : 0<s.holders f := Nat.add_pos_right _ (calls_pos h)

theorem holders_le (s : OpenFiles V P T) (f : ℕ) :
    s.holders f≤Fintype.card P*procMaxFiles+Fintype.card T := by
  refine Nat.add_le_add ((tally_le_card _ _).trans_eq ?_) (tally_le_card _ _)
  rw [Fintype.card_prod,Fintype.card_fin]
end

def OpenFiles.Ok (s : OpenFiles V P T) (f : ℕ) : Prop :=
  FileOk (f ∈ s.allocated) (f ∈ s.fs.fileList) (s.fs.file f).ref.toNat (s.holders f) (s.calls Pc.finishing (.remove, f))
    (s.calls Pc.finishing (.put, f)) (s.calls Pc.finishing (.free, f))

/-- The counts of the files and of their nodes are right. What the nodes are counted for besides is `base`. -/
structure Accounts (base : VfsNode V → ℕ) (s : OpenFiles V P T) : Prop where
  idle : Idle s.fs
  nodup : s.allocated.Nodup
  listNodup : s.fs.fileList.Nodup
  files : ∀ f, s.Ok f
  fileNode : ∀ f ∈ s.allocated, (s.fs.file f).node≠.devfsRoot
  callNode : ∀ t n, (s.pc t).node=some n → n≠.devfsRoot
  nodes : ∀ n, s.fs.refs n=base n+s.calls Pc.node n+s.owed n

section
variable {proc : T → P} {base : VfsNode V → ℕ} {s s' : OpenFiles V P T} {t : T} {f : ℕ}

section
variable (hs : Shape proc s t s')
include hs
theorem Shape.holders_slot (ht : s'.table=update s.table p (update (s.table p) j x)) (g : ℕ) :
    s'.holders g+share (s.table p j) g+share (s.pc t).held g=s.holders g+share x g+share (s'.pc t).held g := by
  have hsl := tally_slots ht g
  have hc := hs.calls Pc.held g
  simp only [OpenFiles.holders]
  omega

theorem Shape.holders (ht : s'.table=s.table) (g : ℕ) :
    s'.holders g+share (s.pc t).held g=s.holders g+share (s'.pc t).held g := by
  have hsl : s'.slots=s.slots := by
    funext x
    rw [OpenFiles.slots,ht,OpenFiles.slots]
  have hc := hs.calls Pc.held g
  simp only [OpenFiles.holders,hsl]
  omega

theorem Shape.holders_eq (ht : s'.table=s.table)
    (hhl : (s'.pc t).held=(s.pc t).held) : s'.holders=s.holders := by
  funext g
  have hg := hs.holders ht g
  rw [hhl] at hg
  exact add_right_cancel hg

theorem Shape.callNode (h : Accounts base s) (hn : ∀ n, (s'.pc t).node=some n → n≠.devfsRoot) :
    ∀ u n, (s'.pc u).node=some n → n≠.devfsRoot := by
  intro u n hu
  by_cases hut : u=t
  · exact hn n (hut▸hu)
  · rw [hs.pc_of_ne hut] at hu
    exact h.callNode u n hu
end

theorem Accounts.ok_congr (h : Accounts base s) (hal : f ∈ s'.allocated ↔ f ∈ s.allocated)
    (hls : f ∈ s'.fs.fileList ↔ f ∈ s.fs.fileList) (href : (s'.fs.file f).ref=(s.fs.file f).ref)
    (hhl : s'.holders f=s.holders f)
    (hfin : ∀ stage, s'.calls Pc.finishing (stage, f)=s.calls Pc.finishing (stage, f)) : s'.Ok f := by
  have hf := h.files f
  rw [OpenFiles.Ok] at hf ⊢
  rwa [hal,hls,href,hhl,hfin,hfin,hfin]

theorem owed_congr (ha : s'.allocated=s.allocated) (hf : ∀ f, (s'.fs.file f).node=(s.fs.file f).node)
    (hfin : ∀ f, s'.calls Pc.finishing (.free, f)=s.calls Pc.finishing (.free, f)) : s'.owed=s.owed := by
  funext n
  simp only [OpenFiles.owed,ha,hf,hfin]

theorem Accounts.quiet (h : Accounts base s) (hs : Shape proc s t s') (hid : Idle s'.fs) (hrf : s'.fs.refs=s.fs.refs)
    (hfl : s'.fs.file=s.fs.file) (hls : s'.fs.fileList=s.fs.fileList) (hal : s'.allocated=s.allocated)
    (hhl : s'.holders=s.holders) (hfin : (s'.pc t).finishing=(s.pc t).finishing)
    (hnd : (s'.pc t).node=(s.pc t).node) : Accounts base s' where
  idle := hid
  nodup := hal▸h.nodup
  listNodup := hls▸h.listNodup
  files f := h.ok_congr (by rw [hal]) (by rw [hls]) (by rw [hfl]) (by rw [hhl])
    (fun _=>by rw [hs.calls_eq hfin])
  fileNode := by
    rw [hal,hfl]
    exact h.fileNode
  callNode := hs.callNode h (fun n hn=>h.callNode t n (hnd▸hn))
  nodes n := by
    rw [hrf,hs.calls_eq hnd,owed_congr hal (fun _=>by rw [hfl]) (fun _=>by rw [hs.calls_eq hfin])]
    exact h.nodes n

theorem Accounts.recount (h : Accounts base s) (hs : Shape proc s t s')
    (hre : Recounted s.fs f ref s'.fs) (hal : s'.allocated=s.allocated) (hok : s'.Ok f)
    (hhl : ∀ g, g≠f → s'.holders g=s.holders g)
    (hfin : ∀ stage g, g≠f ∨ stage=.free → s'.calls Pc.finishing (stage, g)=s.calls Pc.finishing (stage, g))
    (hnd : (s'.pc t).node=(s.pc t).node) : Accounts base s' := by
  have hfl : ∀ g, (s'.fs.file g).node=(s.fs.file g).node := by
    intro g
    by_cases hg : g=f <;> simp [hre.file,hg]
  refine ⟨hre.idle,hal▸h.nodup,hre.fileList▸h.listNodup,fun g=>?_,?_,
    hs.callNode h (fun n hn=>h.callNode t n (hnd▸hn)),fun n=>?_⟩
  · by_cases hg : g=f
    · rwa [hg]
    · exact h.ok_congr (by rw [hal]) (by rw [hre.fileList]) (by simp [hre.file,hg]) (hhl g hg)
        (fun stage=>hfin stage g (.inl hg))
  · intro g hg
    rw [hfl]
    exact h.fileNode g (hal▸hg)
  · rw [hre.refs,hs.calls_eq hnd,owed_congr hal hfl (fun g=>hfin .free g (.inr rfl))]
    exact h.nodes n

theorem Accounts.dup (hsz : Fintype.card P*procMaxFiles+Fintype.card T<2^32) (h : Accounts base s)
    (hs : Shape proc s t s') (hpos : 0<s.holders f) (hre : Recounted s.fs f ((s.fs.file f).ref+1) s'.fs)
    (hal : s'.allocated=s.allocated) (hhl : ∀ g, s'.holders g=s.holders g+share (some f) g)
    (hfin : (s'.pc t).finishing=(s.pc t).finishing) (hnd : (s'.pc t).node=(s.pc t).node) : Accounts base s' := by
  have hcl := hs.calls_eq hfin
  refine h.recount hs hre hal ?_ (fun g hg=>?_) (fun _ _ _=>by rw [hcl]) hnd
  · obtain ⟨hmem,hls,href,hrs⟩ := FileOk.of_held (h.files f) hpos
    have hle := holders_le s' f
    have hnew := hhl f
    rw [share_self] at hnew
    refine .inr (.inl ⟨hal▸hmem,hre.fileList▸hls,?_,by omega,by rwa [hcl]⟩)
    rw [hre.file,update_self,UInt32.toNat_add,href,hnew]
    exact mod_eq_of_lt (by rw [UInt32.toNat_one]; omega)
  · rw [hhl,share_of_ne (by simpa using Ne.symm hg),add_zero]

theorem Accounts.drop (h : Accounts base s) (hs : Shape proc s t s')
    (hls : last=true ↔ (s.fs.file f).ref-1=0) (hre : Recounted s.fs f ((s.fs.file f).ref-1) s'.fs)
    (hal : s'.allocated=s.allocated) (hhd : (s.pc t).held=some f)
    (hhl : ∀ g, s'.holders g+share (some f) g=s.holders g) (hfin : (s.pc t).finishing=none)
    (hfin' : (s'.pc t).finishing=if last then some (.remove, f) else none)
    (hnd : (s'.pc t).node=(s.pc t).node) : Accounts base s' := by
  have hpos := held_pos hhd
  obtain ⟨hmem,hlt,href,hr,hu,hd⟩ := FileOk.of_held (h.files f) hpos
  have hnew := hhl f
  rw [share_self] at hnew
  have hone : (1 : UInt32)≤(s.fs.file f).ref := UInt32.le_iff_toNat_le.mpr (by rw [href]; exact hpos)
  have hsub : ((s.fs.file f).ref-1).toNat=s'.holders f := by
    rw [UInt32.toNat_sub_of_le _ _ hone,href,UInt32.toNat_one]
    omega
  have hcl : ∀ x, s'.calls Pc.finishing x=s.calls Pc.finishing x+share (if last then some (.remove, f) else none) x := by
    intro x
    have hx := hs.calls Pc.finishing x
    rwa [hfin,share_none,hfin',add_zero] at hx
  have hnn : ∀ stage g, g≠f ∨ stage=.free →
      share (if last then some (Stage.remove, f) else none) (stage, g)=0 := by
    intro stage g hg
    apply share_of_ne
    cases last with
    | false => simp
    | true =>
      rcases hg with hg | rfl
      · simp [Ne.symm hg]
      · simp
  refine h.recount hs hre hal ?_ (fun g hg=>?_) (fun stage g hg=>?_) hnd
  · rw [OpenFiles.Ok,hal,hre.fileList,hre.file,update_self,hsub,hcl,hcl,hcl,hr,hu,hd]
    cases last with
    | true =>
      have hzr : s'.holders f=0 := by rw [← hsub,hls.mp rfl]; rfl
      exact .inr (.inr ⟨hmem,hzr,hzr,by simp [share],by simp [share,hlt]⟩)
    | false =>
      have hne : s'.holders f≠0 := by
        intro hzr
        have hc : ((s.fs.file f).ref-1)=0 := UInt32.toNat_inj.mp (by rw [hsub,hzr]; rfl)
        exact absurd (hls.mpr hc) (by simp)
      exact .inr (.inl ⟨hmem,hlt,rfl,pos_of_ne_zero hne,by simp [share],by simp [share],by simp [share]⟩)
  · have hg' := hhl g
    rwa [share_of_ne (by simpa using Ne.symm hg),add_zero] at hg'
  · rw [hcl,hnn stage g hg,add_zero]

variable {n : VfsNode V} {a : Stage} {b : Option Stage} {locked : Bool}

theorem Accounts.getNode (h : Accounts base s) (hs : Shape proc s t s')
    (hcn : Counts s.fs (some n) s'.fs) (hlt : s.fs.refs n+1<2^32) (hal : s'.allocated=s.allocated)
    (hhl : s'.holders=s.holders) (hfin : (s'.pc t).finishing=(s.pc t).finishing)
    (hnd : (s.pc t).node=none) (hnd' : (s'.pc t).node=some n) : Accounts base s' := by
  have hcl := hs.calls_eq hfin
  refine ⟨hcn.idle h.idle,hal▸h.nodup,hcn.fileList▸h.listNodup,fun g=>?_,?_,
    hs.callNode h (fun m hm=>?_),fun m=>?_⟩
  · exact h.ok_congr (by rw [hal]) (by rw [hcn.fileList]) (by rw [hcn.file]) (by rw [hhl])
      (fun _=>by rw [hcl])
  · rw [hal,hcn.file]
    exact h.fileNode
  · rw [hnd'] at hm
    exact fun hc=>hcn.counted (hm.trans (congrArg some hc))
  · have hm := hs.calls Pc.node m
    have hold := h.nodes m
    rw [hnd,hnd',share_none,add_zero] at hm
    rw [hcn.refs,addRef,mod_eq_of_lt hlt,hm,
      owed_congr hal (fun _=>by rw [hcn.file]) (fun _=>by rw [hcl])]
    by_cases hmn : m=n
    · rw [hmn,update_self,share_self,← hmn]
      omega
    · rwa [update_of_ne hmn,share_of_ne (by simpa using Ne.symm hmn)]

theorem Accounts.create (h : Accounts base s) (hs : Shape proc s t s') (hf : f ∉ s.allocated)
    (hfs : s'.fs=s.fs.insertFile f n) (hal : s'.allocated=f::s.allocated) (htb : s'.table=s.table)
    (hpc : s.pc t=.gotNode n) (hpc' : s'.pc t=.opened f) : Accounts base s' := by
  obtain ⟨hls,hzr,hr,hu,hd⟩ := FileOk.of_not_allocated (h.files f) hf
  have hcl : s'.calls Pc.finishing=s.calls Pc.finishing := hs.calls_eq (by rw [hpc,hpc']; rfl)
  have hfl : ∀ g, g≠f → s'.fs.file g=s.fs.file g := fun g hg=>by simp [hfs,FileSystems.insertFile,hg]
  have hnew : s'.fs.file f = {node := n, ref := 1} := by simp [hfs,FileSystems.insertFile]
  have hls' : s'.fs.fileList=f::s.fs.fileList := by rw [hfs]; rfl
  have hhl : ∀ g, s'.holders g=s.holders g+share (some f) g := by
    intro g
    have hg := hs.holders htb g
    simpa [hpc,hpc',Pc.held] using hg
  refine ⟨?_,?_,?_,fun g=>?_,fun g hg=>?_,hs.callNode h (fun m hm=>by rw [hpc'] at hm; cases hm),
    fun m=>?_⟩
  · rw [hfs]
    exact ⟨h.idle.fat,h.idle.devfs,h.idle.mutex⟩
  · rw [hal]
    exact nodup_cons.mpr ⟨hf,h.nodup⟩
  · rw [hls']
    exact nodup_cons.mpr ⟨hls,h.listNodup⟩
  · by_cases hg : g=f
    · subst hg
      have hone := hhl g
      rw [hzr,share_self] at hone
      refine .inr (.inl ⟨by simp [hal],by simp [hls'],?_,by omega,by rw [hcl,hr],by rw [hcl,hu],
        by rw [hcl,hd]⟩)
      rw [hnew,hone]
      rfl
    · exact h.ok_congr (by simp [hal,hg]) (by simp [hls',hg]) (by rw [hfl g hg])
        (by rw [hhl,share_of_ne (by simpa using Ne.symm hg),add_zero]) (fun _=>by rw [hcl])
  · rw [hal] at hg
    rcases mem_cons.mp hg with rfl | hg
    · rw [hnew]
      exact h.callNode t n (by rw [hpc]; rfl)
    · rw [hfl g (fun hc=>hf (hc▸hg))]
      exact h.fileNode g hg
  · have hm := hs.calls Pc.node m
    rw [hpc,hpc',show (Pc.opened f : Pc V P).node=none from rfl,share_none,add_zero,
      show (Pc.gotNode n : Pc V P).node=some n from rfl] at hm
    have how : s'.owed m=s.owed m+share (some n) m := by
      have hrs : s.allocated.countP (fun g=>decide ((s'.fs.file g).node=m ∧ s'.calls Pc.finishing (.free, g)=0)) =
          s.owed m := by
        refine countP_congr (fun g hg=>?_)
        rw [hfl g (fun hc=>hf (hc▸hg)),hcl]
      rw [OpenFiles.owed,hal,countP_cons,hrs,hnew,hcl,hd]
      by_cases hmn : n=m <;> simp [share,hmn]
    rw [hfs,FileSystems.insertFile,refs_files,h.nodes m,how,← hm]
    omega

section
variable (hs : Shape proc s t s') (hfin : (s.pc t).finishing=some (a, f))
  (hfin' : (s'.pc t).finishing=b.map (fun stage=>(stage, f))) (stage : Stage)
include hs hfin hfin' stage
theorem Shape.advance (g : ℕ) : s'.calls Pc.finishing (stage, g)+(if a=stage ∧ f=g then 1 else 0) =
      s.calls Pc.finishing (stage, g)+(if b=some stage ∧ f=g then 1 else 0) := by
  have hc := hs.calls Pc.finishing (stage, g)
  rw [hfin,hfin'] at hc
  cases b with
  | none => simpa [share] using hc
  | some b => simpa [share] using hc

theorem Shape.advance_other (hg : g≠f) : s'.calls Pc.finishing (stage, g)=s.calls Pc.finishing (stage, g) := by
  have hc := hs.advance hfin hfin' stage g
  simpa [Ne.symm hg] using hc
end

namespace Accounts

section
variable (h : Accounts base s)
include h
theorem of_finishing (hfin : (s.pc t).finishing=some (a, f)) :
    f ∈ s.allocated ∧ s.holders f=0 ∧ (s.fs.file f).ref.toNat=0 ∧ s.calls Pc.finishing (a, f)=1 ∧
      (∀ b, b≠a → s.calls Pc.finishing (b, f)=0) ∧ (f ∈ s.fs.fileList ↔ a=.remove) := by
  have hpos := calls_pos (s := s) (t := t) (g := Pc.finishing) hfin
  have hsum : 0<s.calls Pc.finishing (.remove, f)+s.calls Pc.finishing (.put, f)+s.calls Pc.finishing (.free, f) := by
    cases a <;> omega
  obtain ⟨hmem,href,hzr,hone,hls⟩ := FileOk.of_finishing (h.files f) hsum
  refine ⟨hmem,hzr,href,?_,fun b hb=>?_,hls.trans ?_⟩
  · cases a <;> omega
  · cases a <;> cases b <;> first | exact absurd rfl hb | omega
  · cases a <;> simp <;> omega

theorem advance_self (hs : Shape proc s t s')
    (hfin : (s.pc t).finishing=some (a, f)) (hfin' : (s'.pc t).finishing=b.map (fun stage=>(stage, f)))
    (stage : Stage) : s'.calls Pc.finishing (stage, f)=if b=some stage then 1 else 0 := by
  obtain ⟨-,-,-,hone,hnn,-⟩ := h.of_finishing hfin
  have hcl := hs.advance hfin hfin' stage f
  by_cases ha : a=stage
  · subst ha
    simp only [hone,and_self,and_true,if_true] at hcl
    omega
  · simpa [ha,hnn stage (Ne.symm ha)] using hcl

theorem remove (hs : Shape proc s t s') (hpc : s.pc t=.removing f locked)
    (hpc' : s'.pc t=.putting f locked) (hfs : s'.fs=s.fs.removeFile f) (hal : s'.allocated=s.allocated)
    (htb : s'.table=s.table) : Accounts base s' := by
  have hfin : (s.pc t).finishing=some (.remove, f) := by rw [hpc]; rfl
  have hfin' : (s'.pc t).finishing=(some Stage.put).map (fun stage=>(stage, f)) := by rw [hpc']; rfl
  have hhl := hs.holders_eq htb (by rw [hpc,hpc']; rfl)
  have hfl : s'.fs.file=s.fs.file := by rw [hfs]; rfl
  have hls' : s'.fs.fileList=s.fs.fileList.erase f := by rw [hfs]; rfl
  have hsl := h.advance_self hs hfin hfin'
  obtain ⟨hmem,hzr,href,-⟩ := h.of_finishing hfin
  refine ⟨?_,hal▸h.nodup,?_,fun g=>?_,?_,hs.callNode h (fun m hm=>by rw [hpc'] at hm; cases hm),fun n=>?_⟩
  · rw [hfs]
    exact ⟨h.idle.fat,h.idle.devfs,h.idle.mutex⟩
  · rw [hls']
    exact h.listNodup.erase f
  · by_cases hg : g=f
    · subst hg
      refine .inr (.inr ⟨hal▸hmem,by rw [hfl,href],by rw [hhl,hzr],by simp [hsl],?_⟩)
      rw [hls']
      exact iff_of_false h.listNodup.not_mem_erase (by simp [hsl])
    · exact h.ok_congr (by rw [hal]) (by rw [hls',mem_erase_of_ne hg]) (by rw [hfl]) (by rw [hhl])
        (fun stage=>hs.advance_other hfin hfin' stage hg)
  · rw [hal,hfl]
    exact h.fileNode
  · have hfr : ∀ g, s'.calls Pc.finishing (.free, g)=s.calls Pc.finishing (.free, g) := by
      intro g
      simpa using hs.advance hfin hfin' .free g
    rw [hs.calls_eq (g := Pc.node) (by rw [hpc,hpc']; rfl),owed_congr hal (fun _=>by rw [hfl]) hfr,hfs,
      FileSystems.removeFile,refs_files]
    exact h.nodes n

theorem refs_pos (hf : f ∈ s.allocated) (hfr : s.calls Pc.finishing (.free, f)=0) :
    0<s.fs.refs (s.fs.file f).node := by
  have ho : 0<s.owed (s.fs.file f).node := countP_pos_iff.mpr ⟨f,hf,by simp [hfr]⟩
  rw [h.nodes]
  omega

theorem owed_put (hs : Shape proc s t s') (hfin : (s.pc t).finishing=some (.put, f))
    (hfin' : (s'.pc t).finishing=(some Stage.free).map (fun stage=>(stage, f))) (hfl : s'.fs.file=s.fs.file)
    (hal : s'.allocated=s.allocated) (n : VfsNode V) :
    s.owed n=s'.owed n+if n=(s.fs.file f).node then 1 else 0 := by
  obtain ⟨hmem,-,-,-,hnn,-⟩ := h.of_finishing hfin
  have hsl := h.advance_self hs hfin hfin' .free
  have hot : ∀ g, g≠f → s'.calls Pc.finishing (.free, g)=s.calls Pc.finishing (.free, g) :=
    fun g hg=>hs.advance_other hfin hfin' .free hg
  rw [OpenFiles.owed,OpenFiles.owed,hal,hfl]
  by_cases hn : n=(s.fs.file f).node
  · subst hn
    rw [if_pos rfl]
    refine countP_flip h.nodup hmem (fun g _ hgf=>?_) (by simp [hnn .free]) (by simp [hsl])
    rw [hot g hgf]
  · rw [if_neg hn,add_zero]
    refine countP_congr (fun g _=>?_)
    by_cases hgf : g=f
    · simp_all [Ne.symm hn]
    · rw [hot g hgf]

theorem put (hs : Shape proc s t s') (hpc : s.pc t=.putting f locked)
    (hpc' : s'.pc t=.freeing f locked) (hput : vfsPut (s.fs.file f).node s.fs=.ok () s'.fs)
    (hal : s'.allocated=s.allocated) (htb : s'.table=s.table) : Accounts base s' := by
  have hfin : (s.pc t).finishing=some (.put, f) := by rw [hpc]; rfl
  have hfin' : (s'.pc t).finishing=(some Stage.free).map (fun stage=>(stage, f)) := by rw [hpc']; rfl
  have hhl := hs.holders_eq htb (by rw [hpc,hpc']; rfl)
  have hsl := h.advance_self hs hfin hfin'
  obtain ⟨hmem,hzr,href,-,hnn,hlt⟩ := h.of_finishing hfin
  have hpos := h.refs_pos hmem (hnn .free (by simp))
  obtain ⟨hrf,hid,hfl,hls⟩ := (vfsPut_spec (h.fileNode f hmem) hpos).of_ok hput
  refine ⟨hid h.idle,hal▸h.nodup,hls▸h.listNodup,fun g=>?_,?_,
    hs.callNode h (fun m hm=>by rw [hpc'] at hm; cases hm),fun n=>?_⟩
  · by_cases hg : g=f
    · subst hg
      refine .inr (.inr ⟨hal▸hmem,by rw [hfl,href],by rw [hhl,hzr],by simp [hsl],?_⟩)
      rw [hls]
      exact iff_of_false (fun hc=>by cases hlt.mp hc) (by simp [hsl])
    · exact h.ok_congr (by rw [hal]) (by rw [hls]) (by rw [hfl]) (by rw [hhl])
        (fun stage=>hs.advance_other hfin hfin' stage hg)
  · rw [hal,hfl]
    exact h.fileNode
  · have how := h.owed_put hs hfin hfin' hfl hal n
    have hold := h.nodes n
    rw [hrf,hs.calls_eq (g := Pc.node) (by rw [hpc,hpc']; rfl)]
    by_cases hn : n=(s.fs.file f).node
    · simp_all
    · simp_all

theorem owed_free (hs : Shape proc s t s') (hfin : (s.pc t).finishing=some (.free, f))
    (hfin' : (s'.pc t).finishing=(none : Option Stage).map (fun stage=>(stage, f))) (hfs : s'.fs=s.fs)
    (hal : s'.allocated=s.allocated.erase f) (n : VfsNode V) : s'.owed n=s.owed n := by
  obtain ⟨hmem,-,-,hone,-⟩ := h.of_finishing hfin
  have hcn := countP_erase hmem (fun g=>decide ((s.fs.file g).node=n ∧ s.calls Pc.finishing (.free, g)=0))
  rw [OpenFiles.owed,OpenFiles.owed,hcn,hal,hfs]
  simp only [hone,one_ne_zero,and_false,decide_false,Bool.false_eq_true,if_false,add_zero]
  refine countP_congr (fun g hg=>?_)
  rw [hs.advance_other hfin hfin' .free (h.nodup.mem_erase_iff.mp hg).1]

theorem free (hs : Shape proc s t s') (hpc : s.pc t=.freeing f locked)
    (hpc' : s'.pc t=.closed locked) (hfs : s'.fs=s.fs) (hal : s'.allocated=s.allocated.erase f)
    (htb : s'.table=s.table) : Accounts base s' := by
  have hcl : (Pc.closed locked : Pc V P).finishing=none ∧ (Pc.closed locked : Pc V P).held=none ∧
      (Pc.closed locked : Pc V P).node=none := by cases locked <;> exact ⟨rfl,rfl,rfl⟩
  have hfin : (s.pc t).finishing=some (.free, f) := by rw [hpc]; rfl
  have hfin' : (s'.pc t).finishing=(none : Option Stage).map (fun stage=>(stage, f)) := by rw [hpc']; exact hcl.1
  have hhl := hs.holders_eq htb (by rw [hpc,hpc',hcl.2.1]; rfl)
  have hsl := h.advance_self hs hfin hfin'
  obtain ⟨-,hzr,-,-,-,hls⟩ := h.of_finishing hfin
  refine ⟨hfs▸h.idle,?_,hfs▸h.listNodup,fun g=>?_,fun g hg=>?_,
    hs.callNode h (fun m hm=>by rw [hpc',hcl.2.2] at hm; cases hm),fun n=>?_⟩
  · rw [hal]
    exact h.nodup.erase f
  · by_cases hg : g=f
    · subst hg
      refine .inl ⟨by rw [hal]; exact h.nodup.not_mem_erase,?_,by rw [hhl,hzr],by simp [hsl],
        by simp [hsl],by simp [hsl]⟩
      rw [hfs]
      exact fun hc=>by cases hls.mp hc
    · exact h.ok_congr (by rw [hal,mem_erase_of_ne hg]) (by rw [hfs]) (by rw [hfs]) (by rw [hhl])
        (fun stage=>hs.advance_other hfin hfin' stage hg)
  · rw [hfs]
    exact h.fileNode g (mem_of_mem_erase (hal▸hg))
  · rw [hfs,hs.calls_eq (g := Pc.node) (by rw [hpc,hpc',hcl.2.2]; rfl),h.owed_free hs hfin hfin' hfs hal]
    exact h.nodes n
end

end Accounts

theorem access_spec (h : Idle fs) (hlc : lock n fs=.ok () fs1) (hun : unlock n fs1=.ok () fs2) :
    Idle fs2 ∧ fs2.refs=fs.refs ∧ fs2.file=fs.file ∧ fs2.fileList=fs.fileList := by
  obtain ⟨hrf,hfl,hls,hhl⟩ := (lock_spec n fs).of_ok hlc
  obtain ⟨hrf',hfl',hls',hid⟩ := (unlock_spec n fs1).of_ok hun
  exact ⟨hid (hhl h),hrf'.trans hrf,hfl'.trans hfl,hls'.trans hls⟩

theorem Accounts.step (hsz : Fintype.card P*procMaxFiles+Fintype.card T<2^32) (hc : Control proc s)
    (h : Accounts base s) (hst : FileStep proc t s s') : Accounts base s' := by
  have hs := hst.shape
  cases hst with
  | openLock hpc | openFull hpc | closeLock hpc | accessLock hpc | accessNone hpc | accessFind hpc | accessUnlock hpc
  | accessClose hpc | unlock hpc | forkSkip hpc | forkDone hpc =>
    exact h.quiet hs h.idle rfl rfl rfl rfl (hs.holders_eq rfl (by simp [hpc,Pc.held])) (by simp [hpc,Pc.finishing])
      (by simp [hpc,Pc.node])
  | @openGet c mounts path n fs hpc hrun hget hrt hlt =>
    have hcn := (vfsGetNode_spec c mounts path s.fs).of_ok hget (by simpa using hrt)
    exact h.getNode hs hcn hlt rfl (hs.holders_eq rfl (by simp [hpc,Pc.held])) (by simp [hpc,Pc.finishing])
      (by simp [hpc,Pc.node]) (by simp [Pc.node])
  | @openMiss c mounts path fs hpc hrun hget =>
    have hcn := (vfsGetNode_spec c mounts path s.fs).of_ok hget (by simp)
    exact h.quiet hs (hcn.idle h.idle) hcn.refs hcn.file hcn.fileList rfl (hs.holders_eq rfl rfl) rfl rfl
  | @openCreate n f hpc hf => exact h.create hs hf rfl rfl rfl hpc (update_self ..)
  | @openBind f fd hpc hfd =>
    obtain ⟨hnn,hbn⟩ := procBind_of_vacant (f := f) hfd
    refine h.quiet hs h.idle rfl rfl rfl rfl (funext fun g=>?_) (by simp [hpc,Pc.finishing]) (by simp [hpc,Pc.node])
    have hg := hs.holders_slot (congrArg (update s.table (proc t)) hbn) g
    simp only [hpc,hnn,update_self,share_none,Pc.held] at hg
    omega
  | @closeNone fd hpc hfd =>
    have htb : update s.table (proc t) (procUnbind (s.table (proc t)) fd)=s.table := by
      rw [procUnbind_of_none hfd,update_eq_self]
    exact h.quiet hs h.idle rfl rfl rfl rfl (hs.holders_eq htb (by simp [hpc,Pc.held])) (by simp [hpc,Pc.finishing])
      (by simp [hpc,Pc.node])
  | @closeUnbind fd f hpc hfd =>
    obtain ⟨j,hsl,hun⟩ := procUnbind_of_some hfd
    refine h.quiet hs h.idle rfl rfl rfl rfl (funext fun g=>?_) (by simp [hpc,Pc.finishing]) (by simp [hpc,Pc.node])
    have hg := hs.holders_slot (congrArg (update s.table (proc t)) hun) g
    simp only [hpc,hsl,update_self,share_none,Pc.held] at hg
    omega
  | @accessDup fd f f' fs hpc hdup =>
    obtain ⟨rfl,hre⟩ := (vfsFileDup_spec h.idle f).of_ok hdup
    obtain ⟨j,hsl,-⟩ := procUnbind_of_some (hc.found t fd f' hpc)
    refine h.dup hsz hs (slots_pos hsl) hre rfl (fun g=>?_) (by simp [hpc,Pc.finishing]) (by simp [hpc,Pc.node])
    have hg := hs.holders rfl g
    simpa [hpc,Pc.held] using hg
  | @access f fs fs' hpc hlc hul =>
    obtain ⟨hid,hrf,hfl,hls⟩ := access_spec h.idle hlc hul
    exact h.quiet hs hid hrf hfl hls rfl (hs.holders_eq rfl rfl) rfl rfl
  | @drop f locked last fs hpc hdr =>
    obtain ⟨hla,hre⟩ := (dropRef_spec h.idle f).of_ok hdr
    have hgn : ∀ {q : Pc V P}, q=(if last then .removing f locked else .closed locked) → q.held=none ∧
        q.finishing=(if last then some (.remove, f) else none) ∧ q.node=none := by
      rintro q rfl
      cases last <;> cases locked <;> exact ⟨rfl,rfl,rfl⟩
    obtain ⟨hhl,hfin,hnd⟩ := hgn (update_self t _ s.pc)
    refine h.drop hs hla hre rfl (by rw [hpc]; rfl) (fun g=>?_) (by rw [hpc]; rfl) hfin (by rw [hnd,hpc]; rfl)
    have hg := hs.holders rfl g
    rwa [hhl,hpc,Pc.held,share_none,add_zero] at hg
  | @remove f locked hpc => exact h.remove hs hpc (update_self ..) rfl rfl rfl
  | @put f locked fs hpc hput => exact h.put hs hpc (update_self ..) hput rfl rfl
  | @free f locked hpc => exact h.free hs hpc (update_self ..) rfl rfl rfl
  | @forkLock child hpc hrun hown hch =>
    have htb : update s.table child (fun _=>none)=s.table := by
      rw [← funext (hc.unused child hch),update_eq_self]
    exact h.quiet hs h.idle rfl rfl rfl rfl (hs.holders_eq htb (by simp [hpc,Pc.held])) (by simp [hpc,Pc.finishing])
      (by simp [hpc,Pc.node])
  | @forkDup child i f f' fs hpc hi hdup =>
    obtain ⟨rfl,hre⟩ := (vfsFileDup_spec h.idle f).of_ok hdup
    have hnn := (hc.fork t child i hpc).2 i le_rfl
    refine h.dup hsz hs (slots_pos hi) hre rfl (fun g=>?_) (by simp [hpc,Pc.finishing]) (by simp [hpc,Pc.node])
    have hg := hs.holders_slot rfl g
    simpa [hpc,hnn,Pc.held] using hg
end

/-- No call is under way, and every file is held by descriptors only. -/
structure Start (base : VfsNode V → ℕ) (s : OpenFiles V P T) : Prop where
  pc : ∀ t, s.pc t=.idle
  unused : ∀ p, s.status p=.unused → ∀ i, s.table p i=none
  idle : Idle s.fs
  nodup : s.allocated.Nodup
  listNodup : s.fs.fileList.Nodup
  allocated : ∀ f, f ∈ s.allocated ↔ 0<tally s.slots f
  listed : ∀ f, f ∈ s.fs.fileList ↔ f ∈ s.allocated
  ref : ∀ f ∈ s.allocated, (s.fs.file f).ref.toNat=tally s.slots f
  fileNode : ∀ f ∈ s.allocated, (s.fs.file f).node≠.devfsRoot
  nodes : ∀ n, s.fs.refs n=base n+s.allocated.countP (fun f=>decide ((s.fs.file f).node=n))

def FilesStep (proc : T → P) (s s' : OpenFiles V P T) : Prop := ∃ t, FileStep proc t s s'

section
variable {proc : T → P} {base : VfsNode V → ℕ} {s s' : OpenFiles V P T} {t : T} {f : ℕ}

theorem Start.calls [DecidableEq I] (h : Start base s) (hg : g .idle=none) (i : I) :
    s.calls g i=0 := tally_eq_zero (fun t=>by rw [h.pc t,hg]; simp)

theorem Start.control (h : Start base s) : Control proc s where
  mutex t ht := by
    rw [h.pc t] at ht
    cases ht
  active t ht := absurd (h.pc t) ht
  found t fd f ht := by simp_all [h.pc t]
  unused := h.unused
  fork t p i ht := by simp_all [h.pc t]
  forkers t u p i j ht := by simp_all [h.pc t]

theorem Start.accounts (h : Start base s) : Accounts base s where
  idle := h.idle
  nodup := h.nodup
  listNodup := h.listNodup
  files f := by
    have hhl : s.holders f=tally s.slots f := by rw [OpenFiles.holders,h.calls rfl,add_zero]
    rw [OpenFiles.Ok,hhl,h.calls rfl,h.calls rfl,h.calls rfl,h.listed]
    by_cases hf : f ∈ s.allocated
    · exact .inr (.inl ⟨hf,hf,h.ref f hf,(h.allocated f).mp hf,rfl,rfl,rfl⟩)
    · have hzr := Nat.eq_zero_of_not_pos (fun hc=>hf ((h.allocated f).mpr hc))
      exact .inl ⟨hf,hf,hzr,rfl,rfl,rfl⟩
  fileNode := h.fileNode
  callNode t n ht := by
    rw [h.pc t] at ht
    cases ht
  nodes n := by
    have how : s.owed n=s.allocated.countP (fun f=>decide ((s.fs.file f).node=n)) := by
      simp [OpenFiles.owed,h.calls (g := Pc.finishing) rfl]
    rw [h.nodes n,how,h.calls rfl,add_zero]

theorem reachable (hsz : Fintype.card P*procMaxFiles+Fintype.card T<2^32) (h0 : Start base s)
    (hrun : Relation.ReflTransGen (FilesStep proc) s s') : Control proc s' ∧ Accounts base s' := by
  apply Reaches.invariant (I := fun x=>Control proc x ∧ Accounts base x) hrun ⟨h0.control,h0.accounts⟩
  rintro a b ⟨hc,ha⟩ ⟨t,hs⟩
  exact ⟨hc.step hs.shape,ha.step hsz hc hs⟩

/-- The file that a call goes on to work with. -/
def Pc.uses : Pc V P → Option ℕ
  | found _ f => some f
  | pc => pc.held.or (pc.finishing.map Prod.snd)

theorem Pc.uses_cases {q : Pc V P} (h : q.uses=some f) :
    (∃ fd, q=.found fd f) ∨ q.held=some f ∨ ∃ stage, q.finishing=some (stage, f) := by
  cases q <;> simp_all [uses,held,finishing]

section
variable (h : Accounts base s)
include h
theorem Accounts.ref_eq (f : ℕ) (hf : f ∈ s.allocated) : (s.fs.file f).ref.toNat=s.holders f := by
  rcases h.files f with ⟨hno,-⟩ | ⟨-,-,href,-⟩ | ⟨-,href,hz,-⟩
  · exact absurd hf hno
  · exact href
  · rw [href,hz]

theorem Accounts.listed_iff :
    f ∈ s.fs.fileList ↔ 0<s.holders f ∨ ∃ t, (s.pc t).finishing=some (.remove, f) := by
  constructor
  · intro hl
    rcases h.files f with ⟨-,hno,-⟩ | ⟨-,-,-,hpos,-⟩ | ⟨-,-,-,-,hr⟩
    · exact absurd hl hno
    · exact .inl hpos
    · exact .inr (exists_of_tally_pos (by rw [← OpenFiles.calls,hr.mp hl]; exact one_pos))
  · rintro (hpos | ⟨t,ht⟩)
    · exact (FileOk.of_held (h.files f) hpos).2.1
    · exact (h.of_finishing ht).2.2.2.2.2.mpr rfl

theorem Accounts.allocated_iff :
    f ∈ s.allocated ↔ 0<s.holders f ∨ ∃ t stage, (s.pc t).finishing=some (stage, f) := by
  constructor
  · intro hf
    rcases h.files f with ⟨hno,-⟩ | ⟨-,-,-,hpos,-⟩ | ⟨-,-,-,hone,-⟩
    · exact absurd hf hno
    · exact .inl hpos
    · have hst : ∃ stage, 0<s.calls Pc.finishing (stage, f) := by
        by_contra hall
        simp only [not_exists,not_lt,le_zero] at hall
        rw [hall,hall,hall] at hone
        cases hone
      obtain ⟨stage,hpos⟩ := hst
      obtain ⟨t,ht⟩ := exists_of_tally_pos hpos
      exact .inr ⟨t,stage,ht⟩
  · rintro (hpos | ⟨t,stage,ht⟩)
    · exact (FileOk.of_held (h.files f) hpos).1
    · exact (h.of_finishing ht).1

theorem Accounts.finishing_unique (ht : (s.pc t).finishing=some (a, f)) (hu : (s.pc u).finishing=some (b, f)) : u=t := by
  obtain ⟨-,-,-,hone,hnn,-⟩ := h.of_finishing ht
  have hpos := calls_pos (s := s) (t := u) (g := Pc.finishing) hu
  have hab : b=a := by
    by_contra hne
    rw [hnn b hne] at hpos
    cases hpos
  rw [hab] at hu
  exact eq_of_tally_le_one hone.le ht hu

theorem Accounts.of_uses (hc : Control proc s) (ht : (s.pc t).uses=some f) :
    f ∈ s.allocated ∧ ((s.pc t).finishing=some (.free, f) ∨ 0<s.fs.refs (s.fs.file f).node) := by
  have hhl : 0<s.holders f → f ∈ s.allocated ∧
      ((s.pc t).finishing=some (.free, f) ∨ 0<s.fs.refs (s.fs.file f).node) := by
    intro hpos
    obtain ⟨hmem,-,-,-,-,hfr⟩ := FileOk.of_held (h.files f) hpos
    exact ⟨hmem,.inr (h.refs_pos hmem hfr)⟩
  rcases Pc.uses_cases ht with ⟨fd,hfn⟩ | hcl | ⟨stage,hfin⟩
  · obtain ⟨j,hsl,-⟩ := procUnbind_of_some (hc.found t fd f hfn)
    exact hhl (slots_pos hsl)
  · exact hhl (held_pos hcl)
  · obtain ⟨hmem,-,-,-,hnn,-⟩ := h.of_finishing hfin
    refine ⟨hmem,?_⟩
    by_cases hst : stage=.free
    · exact .inl (hst▸hfin)
    · exact .inr (h.refs_pos hmem (hnn .free (Ne.symm hst)))
end

end

section

/-- One process with one thread and no files. -/
def idleFiles : OpenFiles Unit Unit Unit where
  fs := smallSystems
  allocated := []
  table := fun _ _=>none
  owner := fun _=>none
  status := fun _=>.running
  pc := fun _=>.idle

theorem start_idleFiles : Start (fun _=>0) idleFiles where
  pc _ := rfl
  unused _ h := by cases h
  idle := idle_smallSystems
  nodup := nodup_nil
  listNodup := nodup_nil
  allocated f := by
    have hz : tally idleFiles.slots f=0 := tally_eq_zero (fun _=>by simp [OpenFiles.slots,idleFiles])
    rw [hz]
    exact iff_of_false not_mem_nil (lt_irrefl 0)
  listed _ := Iff.rfl
  ref f hf := by cases hf
  fileNode f hf := by cases hf
  nodes n := by
    change smallSystems.refs n=0
    exact refs_smallSystems n

/-- A file that a call has opened or duplicated and not begun to close. -/
def Pc.keeps {V P : Type} : Pc V P → Option ℕ
  | opened f | openLocked f | duplicated f | accessing f => some f
  | _ => none

theorem exists_closing : ∃ s1 s2 : OpenFiles Unit Unit Unit, ∃ f,
    Relation.ReflTransGen (FilesStep id) idleFiles s1 ∧ FilesStep id s1 s2 ∧
    f ∈ s1.allocated ∧ (s1.fs.file f).ref=1 ∧ tally s1.slots f=0 ∧ s1.calls Pc.keeps f=0 ∧
    s1.pc ()=.dropping f true ∧ s2.pc ()=.removing f true := by
  have hps : passes (vfsGetNode smallSetup smallMounts (vfsSeparator::Fat.foobar.name)) smallSystems
      (fun r _=>r.any (fun n=>decide (n≠.devfsRoot)))=true := by decide +kernel
  obtain ⟨r,fs,hget,hr⟩ := exists_ok_of_passes hps
  cases r with
  | none => cases hr
  | some n =>
    have hrt := of_decide_eq_true hr
    have hid : Idle (fs.insertFile 0 n) := by
      have hcn := (vfsGetNode_spec _ _ _ smallSystems).of_ok hget (by simpa using hrt)
      have hfs := hcn.idle idle_smallSystems
      exact ⟨hfs.fat,hfs.devfs,hfs.mutex⟩
    obtain ⟨last,fs',hdr,hls,-⟩ := (dropRef_spec hid 0).exists_ok
    have hone : ((fs.insertFile 0 n).file 0).ref=1 := by simp [FileSystems.insertFile]
    rw [hone] at hls
    obtain rfl : last=true := hls.mpr rfl
    have hvc : procGetVacantFd (fun _=>none)=some ⟨0,by decide⟩ := rfl
    have hsl : procGetFile (procBind (fun _=>none) ⟨0,by decide⟩ 0) 0=some 0 := rfl
    refine ⟨_,_,0,.tail (.tail (.tail (.tail (.tail (.tail (.tail .refl
      ⟨(),.openGet rfl rfl hget hrt (by rw [show idleFiles.fs=smallSystems from rfl,refs_smallSystems]; decide)⟩)
      ⟨(),.openCreate (f := 0) rfl (by simp [idleFiles])⟩)
      ⟨(),.openLock rfl rfl⟩)
      ⟨(),.openBind rfl hvc⟩)
      ⟨(),.unlock rfl⟩)
      ⟨(),.closeLock rfl rfl rfl⟩)
      ⟨(),.closeUnbind rfl hsl⟩,⟨(),.drop rfl hdr⟩,?_,?_,?_,?_,?_,?_⟩
    · exact mem_cons_self
    · exact hone
    · rfl
    · exact tally_eq_zero (fun u hu=>by cases u; cases hu)
    · rfl
    · rfl
end

section
variable {proc : T → P} {base : VfsNode V → ℕ} {s s' : OpenFiles V P T}

/-- The count of a file is the number of its holders; it is listed until the last one drops it, who
alone puts the node and frees it. -/
theorem file_references (hsize : Fintype.card P*procMaxFiles+Fintype.card T<2^32) (h0 : Start base s)
    (hrun : Relation.ReflTransGen (FilesStep proc) s s') :
    (∀ f ∈ s'.allocated, (s'.fs.file f).ref.toNat=s'.holders f) ∧
    (∀ f, f ∈ s'.fs.fileList ↔ 0<s'.holders f ∨ ∃ t, (s'.pc t).finishing=some (.remove, f)) ∧
    (∀ f, f ∈ s'.allocated ↔ 0<s'.holders f ∨ ∃ t stage, (s'.pc t).finishing=some (stage, f)) ∧
    (∀ t f stage, (s'.pc t).finishing=some (stage, f) → s'.holders f=0 ∧
      ∀ u stage', (s'.pc u).finishing=some (stage', f) → u=t) ∧
    (∀ t f, (s'.pc t).uses=some f → f ∈ s'.allocated ∧
      ((s'.pc t).finishing=some (.free, f) ∨ 0<s'.fs.refs (s'.fs.file f).node)) ∧
    (∀ n, s'.fs.refs n=base n+s'.calls Pc.node n+s'.owed n) ∧
    (∀ f, ∃ last fs, dropRef f s'.fs=.ok last fs) ∧ (∀ f, ∃ fs, vfsFileDup f s'.fs=.ok f fs) ∧
    ∀ t f locked, s'.pc t=.putting f locked → ∃ fs, vfsPut (s'.fs.file f).node s'.fs=.ok () fs := by
  obtain ⟨hc,h⟩ := reachable hsize h0 hrun
  refine ⟨fun f=>(h.ref_eq f),fun f=>h.listed_iff,fun f=>h.allocated_iff,fun t f stage ht=>?_,
    fun t f ht=>h.of_uses hc ht,h.nodes,fun f=>?_,fun f=>?_,fun t f locked ht=>?_⟩
  · exact ⟨(h.of_finishing ht).2.1,fun u stage' hu=>h.finishing_unique ht hu⟩
  · obtain ⟨last,fs,hok,-⟩ := (dropRef_spec h.idle f).exists_ok
    exact ⟨last,fs,hok⟩
  · obtain ⟨f',fs,hok,rfl,-⟩ := (vfsFileDup_spec h.idle f).exists_ok
    exact ⟨fs,hok⟩
  · obtain ⟨hmem,-,-,-,hnn,-⟩ := h.of_finishing (t := t) (f := f) (a := .put) (by rw [ht]; rfl)
    have hpos := h.refs_pos hmem (hnn .free (by simp))
    have hput : Returns (vfsPut (s'.fs.file f).node) s'.fs (fun _ _=>True) :=
      (vfsPut_spec (h.fileNode f hmem) hpos).mono (fun _ _ _=>trivial) (fun _ hhl=>by simp [h.idle.mutex] at hhl)
    obtain ⟨⟨⟩,fs,hok,-⟩ := hput.exists_ok
    exact ⟨fs,hok⟩

theorem file_references_closing : ∃ (s : OpenFiles Unit Unit Unit) (f : ℕ),
    Relation.ReflTransGen (FilesStep id) idleFiles s ∧ s.pc ()=.dropping f true ∧
    (s.fs.file f).ref.toNat=s.holders f := by
  obtain ⟨s,-,f,hrun,-,hmem,-,-,-,hpc,-⟩ := exists_closing
  exact ⟨s,f,hrun,hpc,(file_references (by decide) start_idleFiles hrun).1 f hmem⟩

/-- While a file is being closed its count is one more, and it is still on the list. -/
theorem closing_counts_differ : ∃ (s₁ s₂ : OpenFiles Unit Unit Unit) (f : ℕ), Start (fun _=>0) idleFiles ∧
    Relation.ReflTransGen (FilesStep id) idleFiles s₁ ∧ Relation.ReflTransGen (FilesStep id) idleFiles s₂ ∧
    (f ∈ s₁.allocated ∧ (s₁.fs.file f).ref=1 ∧ tally s₁.slots f=0 ∧ s₁.calls Pc.keeps f=0) ∧
    f ∈ s₂.fs.fileList ∧ (s₂.fs.file f).ref.toNat=0 ∧ s₂.holders f=0 := by
  obtain ⟨s₁,s₂,f,hrun,hst,hmem,href,hsl,hcl,-,hpc⟩ := exists_closing
  have hrun₂ := hrun.tail hst
  obtain ⟨-,hac⟩ := reachable (by decide) start_idleFiles hrun₂
  obtain ⟨-,hzr,href₂,-,-,hls⟩ := hac.of_finishing (t := ()) (f := f) (a := .remove) (by rw [hpc]; rfl)
  exact ⟨s₁,s₂,f,start_idleFiles,hrun,hrun₂,⟨hmem,href,hsl,hcl⟩,hls.mpr rfl,href₂,hzr⟩
end

end Yaos2.Vfs
