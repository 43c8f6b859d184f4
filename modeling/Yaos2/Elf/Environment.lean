import Yaos2.Elf.Load

/-! # The environment of a program

The kernel writes a table of pointers with the strings behind it, and `getenv` walks it. The two meet
at `HasTable`. -/
namespace Yaos2.Elf
open Foundation Memory Process List Nat

/-- The value of the variable `name`, if the string is an assignment to it. -/
def valueOf : List UInt8 → List UInt8 → Option (List UInt8)
  | _, [] => none
  | [], d::e => if d=0x3D then some e else none
  | c::cs, d::e => if d=c then valueOf cs e else none

theorem valueOf_eq_some : valueOf name e=some value ↔ e=name++0x3D::value := by
  induction name generalizing e with
  | nil =>
    cases e with
    | nil => simp [valueOf]
    | cons d e => by_cases hd : d=0x3D <;> simp [valueOf,hd]
  | cons c cs ih =>
    cases e with
    | nil => simp [valueOf]
    | cons d e => by_cases hd : d=c <;> simp [valueOf,hd,ih]

theorem valueOf_eq_none : valueOf name e=none ↔ ∀ value, e≠name++0x3D::value := by
  simp [Option.eq_none_iff_forall_ne_some,valueOf_eq_some]

section
variable {im : Image} {v w : ℕ}

/-- The bytes of `buf` are at `v`. -/
def Holds (im : Image) (v : ℕ) (buf : List UInt8) : Prop := ∀ j<buf.length, im (v+j)=some (buf.getD j 0)

variable {buf : List UInt8}

theorem Holds.tail (h : Holds im v (c::buf)) : Holds im (v+1) buf := by
  intro j hj
  have hn := h (j+1) (by simpa using hj)
  rwa [← add_assoc,add_right_comm] at hn

theorem Holds.head (h : Holds im v (c::buf)) : im v=some c := h 0 (by simp)

theorem Holds.drop (h : Holds im v buf) (n : ℕ) : Holds im (v+n) (buf.drop n) := by
  induction n generalizing v buf with
  | zero => exact h
  | succ n ih =>
    cases buf with
    | nil => exact fun j hj=>absurd hj (by simp)
    | cons c buf =>
      have hr := ih h.tail
      rwa [add_right_comm] at hr

theorem holds_write (h : ∀ w, v≤w → w<v+buf.length → im w≠none) : Holds (im.write v buf) v buf := by
  intro j hj
  obtain ⟨c,hc⟩ := Option.ne_none_iff_exists'.mp (h (v+j) (by omega) (by omega))
  rw [Image.write,if_pos ⟨by omega,by omega⟩,hc,Option.map_some,Nat.add_sub_cancel_left]

theorem Holds.congr (h : Holds im v buf)
    (heq : ∀ w, v≤w → w<v+buf.length → im' w=im w) : Holds im' v buf := by
  intro j hj
  rw [heq _ (by omega) (by omega),h j hj]

/-- A table of pointers from entry `i` on to strings from `offset` on, with a null pointer after the last. -/
def HasTable (im : Image) (table strings : ℕ) : List (List UInt8) → ℕ → ℕ → Prop
  | [], i, _ => Holds im (table+i*4) (wordBytes 0)
  | e::env, i, offset => Holds im (table+i*4) (wordBytes (strings+offset)) ∧
      Holds im (strings+offset) (e++[0]) ∧ HasTable im table strings env (i+1) (offset+e.length+1)

theorem hasTable_writeTable (hs : table+(i+env.length+1)*4 ≤ strings)
    (hmp : ∀ w, table≤w → w<strings+offset+stringsSize env → im w≠none) :
    HasTable (writeTable table strings env i offset im) table strings env i offset := by
  have hwr : ∀ x, (wordBytes x).length=4 := fun _=>rfl
  induction env generalizing im i offset with
  | nil =>
    rw [length_nil] at hs
    refine holds_write (fun w h1 h2=>hmp w (by omega) ?_)
    rw [hwr] at h2
    omega
  | cons e env ih =>
    have hsz : stringsSize (e::env)=e.length+1+stringsSize env := rfl
    have hlen : (e++[0]).length=e.length+1 := length_append
    rw [length_cons] at hs
    rw [hsz] at hmp
    have hptr : Holds (im.write (table+i*4) (wordBytes (strings+offset))) (table+i*4)
        (wordBytes (strings+offset)) := by
      refine holds_write (fun w h1 h2=>hmp w (by omega) ?_)
      rw [hwr] at h2
      omega
    have hstr : Holds ((im.write (table+i*4) (wordBytes (strings+offset))).write (strings+offset) (e++[0]))
        (strings+offset) (e++[0]) := by
      refine holds_write (fun w h1 h2=>?_)
      rw [ne_eq,Image.write_eq_none]
      exact hmp w (by omega) (by omega)
    refine ⟨?_,?_,ih (by omega) (fun w h1 h2=>?_)⟩
    · refine hptr.congr (fun w h1 h2=>?_)
      rw [hwr] at h2
      rw [writeTable,writeTable_before (.inl (by omega)) (by omega),Image.write_outside _ (.inl (by omega))]
    · refine hstr.congr (fun w h1 h2=>?_)
      rw [writeTable,writeTable_before (.inr ⟨by omega,by omega⟩) (by omega)]
    · rw [ne_eq,Image.write_eq_none,Image.write_eq_none]
      exact hmp w h1 (by omega)
end

section
variable {r : ℕ → Except Stop UInt8} {im : Image} {v : ℕ} {name e : List UInt8}

/-- Reads give what the image has, where it has something. -/
def Reads (r : ℕ → Except Stop UInt8) (im : Image) : Prop := ∀ w c, im w=some c → r w=.ok c

theorem readWord_eq (hr : Reads r im) (h : Holds im v (wordBytes x)) (hx : x<2^32) :
    readWord r v=.ok x := by
  have h0 := hr _ _ (h 0 (by simp [wordBytes]))
  have h1 := hr _ _ (h 1 (by simp [wordBytes]))
  have h2 := hr _ _ (h 2 (by simp [wordBytes]))
  have h3 := hr _ _ (h 3 (by simp [wordBytes]))
  simp only [wordBytes,add_zero,getD_cons_zero,getD_cons_succ] at h0 h1 h2 h3
  rw [readWord,h0,h1,h2,h3]
  apply congrArg Except.ok
  simp only [UInt8.toNat_ofNat']
  omega

theorem isVariable_cons (c : UInt8) (hc : r v=.ok c) (d : UInt8) (cs : List UInt8) :
    isVariable r v (d::cs)=if c=d then isVariable r (v+1) cs else .ok false := by
  rw [isVariable,strncmpEq,hc,isVariable,length_cons,add_right_comm v 1,add_assoc]
  by_cases hcd : c=d
  · simp [hcd,bind,Except.bind]
  · simp [hcd,bind,Except.bind,pure,Except.pure]

theorem isVariable_eq (hr : Reads r im) (h : Holds im v (e++[0])) (hnm : 0 ∉ name) :
    isVariable r v name=.ok (valueOf name e).isSome := by
  induction name generalizing v e with
  | nil =>
    cases e with
    | nil =>
      have hfr := hr _ _ h.head
      simp [isVariable,strncmpEq,hfr,valueOf,bind,Except.bind,pure,Except.pure]
    | cons d e =>
      have hfr := hr _ _ h.head
      by_cases hd : d=0x3D <;>
        simp [isVariable,strncmpEq,hfr,valueOf,hd,bind,Except.bind,pure,Except.pure]
  | cons c cs ih =>
    have hcs : 0 ∉ cs := fun hc=>hnm (mem_cons_of_mem c hc)
    cases e with
    | nil =>
      have hne : (0 : UInt8)≠c := fun hc=>hnm (hc▸mem_cons_self)
      rw [isVariable_cons 0 (hr _ _ h.head),if_neg hne]
      rfl
    | cons d e =>
      rw [isVariable_cons d (hr _ _ h.head),valueOf]
      split
      · exact ih h.tail hcs
      · rfl

theorem stringAt_eq (hr : Reads r im) (h : Holds im v (e++[0])) (he : 0 ∉ e) (hfl : e.length<fuel) :
    stringAt r v fuel=.ok e := by
  induction e generalizing v fuel with
  | nil =>
    obtain ⟨fuel,rfl⟩ : ∃ f, fuel=f+1 := ⟨fuel-1,by omega⟩
    rw [stringAt,hr _ _ h.head]
    rfl
  | cons c e ih =>
    obtain ⟨fuel,rfl⟩ : ∃ f, fuel=f+1 := ⟨fuel-1,by omega⟩
    have hc : c≠0 := fun hc=>he (hc▸mem_cons_self)
    have hrs := ih h.tail (fun hmem=>he (mem_cons_of_mem c hmem)) (by simpa using hfl)
    rw [stringAt,hr _ _ h.head]
    simp [hc,hrs,bind,Except.bind,pure,Except.pure]

theorem getenvFrom_eq (hr : Reads r im) (h : HasTable im table strings env i offset) (hpos : 0<strings)
    (htop : strings+offset+stringsSize env≤2^32) (hnm : 0 ∉ name) (hfl : env.length<fuel) :
    ∃ a, getenvFrom r table name fuel i=.ok a ∧
      Option.Rel (fun p value=>Holds im p (value++[0])) a (env.findSome? (valueOf name)) := by
  induction env generalizing i offset fuel with
  | nil =>
    obtain ⟨fuel,rfl⟩ : ∃ f, fuel=f+1 := ⟨fuel-1,by omega⟩
    refine ⟨none,?_,.none⟩
    rw [getenvFrom,mul_comm,readWord_eq hr h (by decide)]
    rfl
  | cons e env ih =>
    obtain ⟨fuel,rfl⟩ : ∃ f, fuel=f+1 := ⟨fuel-1,by omega⟩
    obtain ⟨hptr,hstr,hrs⟩ := h
    have hsz : stringsSize (e::env)=e.length+1+stringsSize env := rfl
    have hne : strings+offset≠0 := by omega
    obtain ⟨a,hwl,hrel⟩ := ih hrs (by omega) (by simpa using hfl)
    rw [getenvFrom,mul_comm,readWord_eq hr hptr (by omega)]
    simp only [bind,Except.bind,if_neg hne,isVariable_eq hr hstr hnm,pure,Except.pure]
    rw [List.findSome?_cons]
    cases hvl : valueOf name e with
    | none => exact ⟨a,hwl,hrel⟩
    | some value =>
      refine ⟨_,rfl,.some ?_⟩
      have hdr := hstr.drop (name.length+1)
      rw [valueOf_eq_some.mp hvl] at hdr
      simpa [add_assoc] using hdr
end

section
variable {L : Layout} {text : KernelText} {stale : Stale} {file : List UInt8} {stdin stdout stderr : Option ℕ}
  {env : List (List UInt8)} {stack0 : ℕ} {k k' : Kern} {a b : Spaces} {proc : UserProc} {thread : ArchThread}

theorem length_lt_stringsSize (h : e ∈ env) : e.length<stringsSize env := by
  have hmem : e.length+1 ∈ env.map (fun e=>e.length+1) := mem_map.mpr ⟨e,h,rfl⟩
  exact le_sum_of_mem hmem

def within (lo hi : ℕ) (im : Image) : Image := fun w=>if lo≤w ∧ w<hi then im w else none

theorem within_write (lo hi v : ℕ) (buf : List UInt8) (im : Image) :
    within lo hi (im.write v buf)=(within lo hi im).write v buf := by
  funext w
  simp only [within,Image.write]
  split_ifs <;> rfl

theorem within_writeTable (lo hi table strings i offset : ℕ) (env : List (List UInt8)) (im : Image) :
    within lo hi (writeTable table strings env i offset im) =
      writeTable table strings env i offset (within lo hi im) := by
  induction env generalizing i offset im with
  | nil => exact within_write ..
  | cons e env ih => rw [writeTable,ih,within_write,within_write,writeTable]

theorem hasTable_builtImage (stale : Stale) (file : List UInt8) (env : List (List UInt8)) :
    HasTable (within (envAt stale file) (breakAt stale file env) (builtImage stale file env)) (envAt stale file)
      (stringsAt stale file env) env 0 0 := by
  have hsz := formattedEnvSize_lt env
  have hsum := formattedEnvSize_eq env
  have hb : breakAt stale file env=envAt stale file+pageSize*envPages env := rfl
  have hs : stringsAt stale file env=envAt stale file+(env.length+1)*4 := rfl
  have hm : ∀ w, envAt stale file≤w → w<breakAt stale file env → builtImage stale file env w≠none :=
    fun w h1 h2=>builtImage_env h1 h2
  simp only [builtImage,ne_eq,writeTable_eq_none] at hm
  rw [builtImage,within_writeTable]
  refine hasTable_writeTable (by omega) (fun w h1 h2=>?_)
  rw [within,if_pos ⟨h1,by omega⟩]
  exact hm w h1 (by omega)

theorem syscallGetenvptr_running (L : Layout) (proc : UserProc) (k : Kern) :
    ∃ u, syscallGetenvptr L proc (k.running proc)=.ok proc.arch.venvironment u ∧ u.machine.mem=k.machine.mem := by
  have hr : Returns (syscallGetenvptr L proc) (k.running proc)
      (fun e u=>e=proc.arch.venvironment ∧ u.machine.mem=k.machine.mem) := by
    simp only [syscallGetenvptr,procSetKvm,procSetUvm,Returns,wp_bind,wp_modify,wp_pure,true_and]
    rw [setCr3_mem,setCr3_mem,Kern.running,setCr3_mem]
  obtain ⟨e,u,hok,rfl,hmem⟩ := hr.exists_ok
  exact ⟨u,hok,hmem⟩

/-- `getenv` finds the first assignment to the name, and reads nothing but the environment. -/
theorem getenv_of_exec (h0 : SpacesStart L a) (hrun : CopyRun L a b) (hk : k.machine=b.machine)
    (hfits : Fits stale file env)
    (hok : execUserElfProgram L text stale (some file) stdin stdout stderr env stack0 k=.ok (proc, thread) k')
    (hclean : Clean k.machine k'.machine) (henv : ∀ e ∈ env, 0 ∉ e) {name : List UInt8} (hname : 0 ∉ name)
    {fuel : ℕ} (hfuel : formattedEnvSize env≤fuel) :
    ∃ envt u, syscallGetenvptr L proc (k'.running proc)=.ok envt u ∧
      ∀ r, (∀ w, envt≤w → w<proc.arch.vbreak → r w=userRead u.machine.mem proc.arch.pd w) →
        (∀ before value after, env=before++(name++0x3D::value)::after →
          (∀ e ∈ before, ∀ other, e≠name++0x3D::other) →
          ∃ p, getenvFrom r envt name fuel 0=.ok (some p) ∧ stringAt r p fuel=.ok value) ∧
        ((∀ e ∈ env, ∀ value, e≠name++0x3D::value) → getenvFrom r envt name fuel 0=.ok none) := by
  have h := builtProc_of_ok h0 hrun hk hfits hok hclean
  obtain ⟨hrm,htop,hsz,hsum,-,hst,hbr⟩ := hfits.bounds
  obtain ⟨u,hget,hmem⟩ := syscallGetenvptr_running L proc k'
  rw [h.environment] at hget
  refine ⟨_,u,hget,fun r hr=>?_⟩
  rw [h.vbreak,hmem] at hr
  have hrd : Reads r (within (envAt stale file) (breakAt stale file env) (builtImage stale file env)) := by
    intro w c hw
    rw [within] at hw
    split at hw
    · next hin =>
      rw [hr w hin.1 hin.2,userRead,mod_eq_of_lt (by omega),h.view (by omega),hw]
    · cases hw
  obtain ⟨p,hwl,hrel⟩ := getenvFrom_eq hrd (hasTable_builtImage stale file env)
    (by omega) (by omega) hname (show env.length<fuel by omega)
  constructor
  · intro before value after heq hbf
    have hfn : env.findSome? (valueOf name)=some value := by
      rw [heq,List.findSome?_append,List.findSome?_eq_none_iff.mpr (fun e he=>valueOf_eq_none.mpr (hbf e he)),
        List.findSome?_cons,valueOf_eq_some.mpr rfl,Option.none_or]
    have hmem : name++0x3D::value ∈ env := heq▸by simp
    have hlt := length_lt_stringsSize hmem
    rw [length_append,length_cons] at hlt
    have hvl : 0 ∉ value := fun hc=>henv _ hmem (by simp [hc])
    rw [hfn] at hrel
    cases hrel with
    | some hhl => exact ⟨_,hwl,stringAt_eq hrd hhl hvl (by omega)⟩
  · intro hnn
    have hfn := List.findSome?_eq_none_iff.mpr (fun e he=>valueOf_eq_none.mpr (hnn e he))
    rw [hfn] at hrel
    cases hrel
    exact hwl

/-- The environment `A=b`. -/
theorem getenv_of_exec_oneVariable : ∃ s k proc thread k' envt u p, SpacesStart .smallImage ⟨s,[],[]⟩ ∧ k.machine=s ∧
    execUserElfProgram .smallImage plainText zeroStale (some wholeFile) (some 0) (some 0) (some 0)
      [[0x41, 0x3D, 0x62]] 0x10000 k=.ok (proc, thread) k' ∧
    syscallGetenvptr .smallImage proc (k'.running proc)=.ok envt u ∧
    getenvFrom (userRead u.machine.mem proc.arch.pd) envt [0x41] 12 0=.ok (some p) ∧
    stringAt (userRead u.machine.mem proc.arch.pd) p 12=.ok [0x62] := by
  have henv : formattedEnvSize [[0x41, 0x3D, 0x62]]<0x1000 := by decide
  have hft := fits_wholeFile henv
  obtain ⟨s,k,proc,thread,k',h0,hk,hok,hcl,-⟩ :=
    exists_exec plainText hft accepted_wholeFile (by rw [framesNeeded_wholeFile henv]; decide)
  obtain ⟨envt,u,hget,hall⟩ := getenv_of_exec h0 .refl hk hft hok hcl (by decide)
    (show 0 ∉ [0x41] by decide) (show formattedEnvSize [[0x41, 0x3D, 0x62]]≤12 by decide)
  obtain ⟨p,hp,hvl⟩ := (hall _ (fun _ _ _=>rfl)).1 [] [0x62] [] rfl (by simp)
  exact ⟨s,k,proc,thread,k',envt,u,p,h0,hk,hok,hget,hp,hvl⟩
end

end Yaos2.Elf
