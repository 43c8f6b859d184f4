import Yaos2.Libc.Fprintf

/-! # Leaving a stream

The streams of a process have buffers of their own, so each is run on its own. The data that is freed
by `fclose` is not used again. -/
namespace Yaos2.Libc
open Foundation Printf Function List

/-- The system calls of interest. -/
inductive Sys
  | write (fd : ℤ) (data : List UInt8)
  | lseek (fd offset origin : ℤ)
  | close (fd : ℤ)
  | exit (status : ℤ)
  deriving DecidableEq, Repr

inductive OutputCall
  | call (c : Call)
  | fprintf (format : List UInt8) (args : List Arg)

/-- The open streams with their descriptors, the function given to `atexit`, and the system calls.
-/
structure Process (ι : Type) where
  stream : ι → Stream
  fd : ι → ℤ
  atexitFunc : Option (List (ι × OutputCall))
  errno : ℤ
  trace : List Sys

inductive Action (ι : Type)
  | output (i : ι) (c : OutputCall)
  | fseek (i : ι) (offset origin : ℤ)
  | fclose (i : ι)
  | exit (status : ℤ)

section
variable {ι α : Type} [DecidableEq ι] (accept : List UInt8 → ℤ) (answer : Sys → ℤ)

def OutputCall.run : OutputCall → Exec Stream Unit
  | .call c => c.run accept
  | .fprintf format args => do let _ ← Libc.fprintf accept format args

/-- The bytes that have been passed on since, as a system call. -/
def newWrites (fd : ℤ) (before after : List UInt8) : List Sys :=
  let data := after.drop before.length
  if data=[] then [] else [.write fd data]

/-- Run a function of the library on a stream. -/
def onStream (i : ι) (x : Exec Stream α) : Exec (Process ι) α :=
  zoom (fun p=>p.stream i) (fun s p=>{p with
    stream := update p.stream i s
    trace := p.trace++newWrites (p.fd i) (p.stream i).out s.out}) x

/-- A system call other than `write`, with the kernel's answer. -/
def systemCall (call : Sys) : Exec (Process ι) ℤ := do
  modify (fun p=>{p with trace := p.trace++[call]})
  return answer call

/-- A system call whose error is left in `errno`. -/
def checkedCall (call : Sys) (failed : ℤ) : Exec (Process ι) ℤ := do
  let ret ← systemCall answer call
  if ret<0 then
    modify (fun p=>{p with errno := -ret})
    return failed
  else
    return 0

/-- The buffer and the stream are freed. -/
def fclose (i : ι) : Exec (Process ι) ℤ := do
  checkedCall answer (.close ((← get).fd i)) eof

def fseek (i : ι) (offset origin : ℤ) : Exec (Process ι) ℤ := do
  checkedCall answer (.lseek ((← get).fd i) offset origin) (-1)

def runOutputs : List (ι × OutputCall) → Exec (Process ι) Unit
  | [] => pure ()
  | (i, c)::calls => do
    onStream i (c.run accept)
    runOutputs calls

def atexitEntry : Exec (Process ι) Unit := do
  match (← get).atexitFunc with
  | none => return
  | some calls => runOutputs accept calls

def exit (status : ℤ) : Exec (Process ι) Unit := do
  atexitEntry accept
  let _ ← systemCall answer (.exit status)

namespace Action

def run : Action ι → Exec (Process ι) Unit
  | .output i c => onStream i (c.run accept)
  | .fseek i offset origin => do let _ ← Libc.fseek answer i offset origin
  | .fclose i => do let _ ← Libc.fclose answer i
  | .exit status => Libc.exit accept answer status
end Action

def runActions : List (Action ι) → Exec (Process ι) Unit
  | [] => pure ()
  | a::actions => do
    a.run accept answer
    runActions actions
end

/-! ## What a call passes on -/

section
variable {α β : Type} {accept : List UInt8 → ℤ}

/-- What has been passed on stays, and more may follow. -/
def Appends (x : Exec Stream α) : Prop := ∀ s, Ensures x s (fun _ t=>s.out <+: t.out) (fun t=>s.out <+: t.out)

theorem Appends.bind (hx : Appends x) (hf : ∀ a, Appends (f a)) : Appends (x >>= f) := by
  intro s
  refine (wp_bind x f s _ _).mpr ((hx s).imp (fun a t ht=>?_))
  exact (hf a t).mono (fun _ _ h=>ht.trans h) (fun _ h=>ht.trans h)

theorem appends_pure (a : α) : Appends (pure a : Exec Stream α) :=
  fun s=>(wp_pure ..).mpr (prefix_refl s.out)

theorem appends_abort (reason : String) : Appends (abort reason : Exec Stream α) :=
  fun s=>(wp_abort ..).mpr (prefix_refl s.out)

theorem appends_get : Appends (get : Exec Stream Stream) := fun s=>(wp_get ..).mpr (prefix_refl s.out)

theorem appends_modify (hf : ∀ s, s.out <+: (f s).out) : Appends (modify f : Exec Stream PUnit) :=
  fun s=>(wp_modify ..).mpr (hf s)

theorem Appends.ite [Decidable c] (hx : Appends x) (hy : Appends y) : Appends (if c then x else y) := by
  split
  · exact hx
  · exact hy

theorem appends_write (data : List UInt8) : Appends (write accept data) := by
  rw [write]
  exact (appends_modify (fun s=>prefix_append s.out data)).bind (fun _=>appends_pure _)

theorem appends_flushBuffer : Appends (flushBuffer accept) := by
  rw [flushBuffer]
  refine appends_get.bind (fun s=>(appends_write _).bind (fun ret=>Appends.ite ?_ ?_))
  · exact Appends.bind (appends_modify (fun s=>prefix_refl s.out)) (fun _=>appends_pure _)
  · exact Appends.bind (appends_modify (fun s=>prefix_refl s.out)) (fun _=>appends_pure _)

theorem appends_copyLoop (locate : List UInt8 → Option ℕ) (fuel : ℕ) (loc : Bool) (rest : List UInt8) :
    Appends (copyLoop accept locate fuel loc rest) := by
  induction fuel generalizing loc rest with
  | zero => exact appends_abort _
  | succ fuel ih =>
    have hf : Appends (flushIf accept loc) := by
      rw [flushIf]
      exact appends_get.bind (fun s=>Appends.ite appends_flushBuffer (appends_pure _))
    rw [copyLoop]
    refine hf.bind (fun flushed=>Appends.ite (appends_pure _) (Appends.ite (appends_pure _) ?_))
    refine appends_get.bind (fun s=>?_)
    exact Appends.bind (appends_modify (fun s=>prefix_refl s.out)) (fun _=>ih _ _)

theorem appends_fwrite (ptr : List UInt8) (size nmemb : ℕ) : Appends (fwrite accept ptr size nmemb) := by
  rw [fwrite]
  refine Appends.ite (appends_pure _) (appends_get.bind (fun s=>?_))
  cases s.bufMode with
  | newline => exact (appends_copyLoop _ _ _ _).bind (fun _=>appends_pure _)
  | overflow => exact (appends_copyLoop _ _ _ _).bind (fun _=>appends_pure _)
  | flush =>
    refine (appends_write _).bind (fun ret=>Appends.ite ?_ (appends_pure _))
    exact Appends.bind (appends_modify (fun s=>prefix_refl s.out)) (fun _=>appends_pure _)

theorem appends_emit (trace : List (ℕ × UInt8)) : Appends (emit (streamPrinter accept) none trace) := by
  induction trace with
  | nil => exact appends_pure _
  | cons p trace ih =>
    rw [emit]
    exact ((appends_fwrite _ _ _).bind (fun _=>appends_pure _)).bind (fun _=>ih)

namespace OutputCall

def data : OutputCall → List UInt8
  | .call c => c.data
  | .fprintf format args => ((expand format args).map render).getD []

def Valid : OutputCall → Prop
  | .call c => c.Valid
  | .fprintf format args => ∃ ps, expand format args=some ps ∧ (render ps).length ≤ intMax

theorem appends_run {c : OutputCall} (hc : c.Valid) : Appends (c.run accept) := by
  cases c with
  | call c =>
    cases c with
    | fwrite ptr size nmemb => exact (appends_fwrite _ _ _).bind (fun _=>appends_pure _)
    | fputs str =>
      exact ((appends_fwrite _ _ _).bind (fun _=>appends_pure _)).bind (fun _=>appends_pure _)
    | fputc c =>
      exact ((appends_fwrite _ _ _).bind (fun _=>appends_pure _)).bind (fun _=>appends_pure _)
    | fflush => exact (appends_flushBuffer.bind (fun _=>appends_pure _)).bind (fun _=>appends_pure _)
  | fprintf format args =>
    obtain ⟨ps,hexp,hmax⟩ := hc
    rw [OutputCall.run,Libc.fprintf,genericNprintf_eq _ _ _ hexp hmax]
    exact ((appends_emit _).bind (fun _=>appends_pure _)).bind (fun _=>appends_pure _)

theorem run_spec (haccept : ∀ data, 0≤accept data) (hs : s.WellFormed) {c : OutputCall} (hc : c.Valid) :
    Returns (c.run accept) s (fun _ t=>(Gains s t c.data ∧ t.WellFormed ∧ s.out <+: t.out) ∧
      (c=.call .fflush → t.num=0)) := by
  have hgn : Returns (c.run accept) s (fun _ t=>Gains s t c.data ∧ t.WellFormed) := by
    cases c with
    | call c => exact call_spec haccept hs c hc
    | fprintf format args =>
      obtain ⟨ps,hexp,hmax⟩ := hc
      simp only [OutputCall.run,OutputCall.data,hexp,Returns,wp_bind,wp_pure]
      exact (fprintf_spec haccept hs hexp hmax).imp (fun _ _ h=>h.2)
  have hem : c=.call .fflush → Returns (c.run accept) s (fun _ t=>t.num=0) := by
    rintro rfl
    simp only [OutputCall.run,Call.run,fflush,Returns,wp_bind,wp_pure]
    exact (flushBuffer_spec hs.room).imp (fun _ _ h=>(h.2.1 (h.2.2 haccept)).2)
  obtain ⟨⟨⟩,t,hrun,hga,ht⟩ := hgn.exists_ok
  refine (wp_of_ok hrun).mpr ⟨⟨hga,ht,?_⟩,fun hfl=>?_⟩
  · exact (appends_run hc s).of_ok hrun
  · exact (hem hfl).of_ok hrun
end OutputCall

end

/-! ## Processes -/

section
variable {ι : Type} [DecidableEq ι]

def callsOn (i : ι) (calls : List (ι × OutputCall)) : List OutputCall :=
  calls.filterMap (fun c=>if c.1=i then some c.2 else none)

def dataOn (i : ι) (calls : List (ι × OutputCall)) : List UInt8 := (callsOn i calls).flatMap OutputCall.data

/-- The bytes that have been passed to `write` on a descriptor. -/
def writtenTo (fd : ℤ) : List Sys → List UInt8
  | [] => []
  | .write fd' data::trace => (if fd'=fd then data else [])++writtenTo fd trace
  | _::trace => writtenTo fd trace

theorem callsOn_concat_self (i : ι) (c : OutputCall) (calls : List (ι × OutputCall)) :
    callsOn i (calls++[(i, c)])=callsOn i calls++[c] := by
  simp [callsOn]

theorem callsOn_concat_of_ne (h : i≠j) (c : OutputCall) (calls : List (ι × OutputCall)) :
    callsOn j (calls++[(i, c)])=callsOn j calls := by
  simp [callsOn,h]

theorem writtenTo_append (fd : ℤ) (trace trace' : List Sys) :
    writtenTo fd (trace++trace')=writtenTo fd trace++writtenTo fd trace' := by
  induction trace with
  | nil => rfl
  | cons call trace ih =>
    cases call with
    | write fd' data => simp only [cons_append,writtenTo,ih,append_assoc]
    | _ => simp only [cons_append,writtenTo,ih]

theorem writtenTo_newWrites_self {before after : List UInt8} (fd : ℤ) (h : before <+: after) :
    before++writtenTo fd (newWrites fd before after)=after := by
  obtain ⟨data,rfl⟩ := h
  rw [newWrites,drop_left]
  split
  · next hnil => simp [hnil,writtenTo]
  · simp [writtenTo]

theorem writtenTo_newWrites_of_ne (h : fd≠fd') (before after : List UInt8) :
    writtenTo fd' (newWrites fd before after)=[] := by
  rw [newWrites]
  split
  · rfl
  · simp [writtenTo,h]
end

section
variable {ι : Type} [DecidableEq ι] {accept : List UInt8 → ℤ} {answer : Sys → ℤ} {p t u : Process ι}
  {calls : List (ι × OutputCall)}

/-- A stream as `fopen` leaves it, or as `stdout` starts, in any mode. -/
structure Stream.Fresh (s : Stream) : Prop where
  positive : 1 ≤ s.bufSize
  empty : s.num=0
  nothing : s.out=[]

/-- Each stream has passed on or keeps the data given to it by these calls. -/
structure Ran (p t : Process ι) (calls : List (ι × OutputCall)) : Prop where
  fd : t.fd=p.fd
  atexitFunc : t.atexitFunc=p.atexitFunc
  wellFormed : ∀ j, (t.stream j).WellFormed
  bufMode : ∀ j, (t.stream j).bufMode=(p.stream j).bufMode
  given : ∀ j, (t.stream j).out++(t.stream j).pending=dataOn j calls
  flushed : ∀ j, (callsOn j calls).getLast? = some (.call .fflush) → (t.stream j).pending=[]
  passed : ∀ j, writtenTo (p.fd j) t.trace=(t.stream j).out

theorem ran_start (hf : ∀ j, (p.stream j).Fresh) (ht : p.trace=[]) : Ran p p [] where
  fd := rfl
  atexitFunc := rfl
  wellFormed := by
    intro j
    have hp : (p.stream j).pending=[] := by rw [Stream.pending,(hf j).empty,bytes_zero]
    exact ⟨(hf j).positive,by rw [(hf j).empty]; omega,fun _=>by simp [hp], fun _=>(hf j).empty⟩
  bufMode := fun _=>rfl
  given := by
    intro j
    rw [(hf j).nothing,Stream.pending,(hf j).empty,bytes_zero]
    rfl
  flushed := by simp [callsOn]
  passed := fun j=>by rw [ht,(hf j).nothing]; rfl

theorem Ran.output (hfd : Injective p.fd) (h : Ran p t calls)
    (hgn : Gains (t.stream i) s c.data) (hs : s.WellFormed) (hout : (t.stream i).out <+: s.out)
    (hfl : c=.call .fflush → s.num=0) :
    Ran p {t with
      stream := update t.stream i s
      trace := t.trace++newWrites (t.fd i) (t.stream i).out s.out} (calls++[(i, c)]) where
  fd := h.fd
  atexitFunc := h.atexitFunc
  wellFormed := by
    intro j
    by_cases hj : j=i
    · subst hj; simpa using hs
    · simpa [hj] using h.wellFormed j
  bufMode := by
    intro j
    by_cases hj : j=i
    · subst hj; simpa using hgn.bufMode.trans (h.bufMode j)
    · simpa [hj] using h.bufMode j
  given := by
    intro j
    by_cases hj : j=i
    · simp_all [dataOn,callsOn_concat_self,hgn.stream,h.given]
    · rw [dataOn,callsOn_concat_of_ne (Ne.symm hj),← dataOn]
      simpa [hj] using h.given j
  flushed := by
    intro j
    by_cases hj : j=i
    · subst hj
      rw [callsOn_concat_self,List.getLast?_concat]
      intro hls
      simp only [update_self]
      rw [Stream.pending,hfl (Option.some.inj hls),bytes_zero]
    · rw [callsOn_concat_of_ne (Ne.symm hj)]
      simpa [hj] using h.flushed j
  passed := by
    intro j
    rw [writtenTo_append,h.passed,h.fd]
    by_cases hj : j=i
    · subst hj
      simpa using writtenTo_newWrites_self (p.fd j) hout
    · simp [writtenTo_newWrites_of_ne (fun heq=>hj (hfd heq).symm),hj]

theorem Ran.systemCall (h : Ran p t calls) (hc : ∀ fd, writtenTo fd [call]=[]) (errno : ℤ) :
    Ran p {t with errno := errno, trace := t.trace++[call]} calls :=
  {h with passed := fun j=>by rw [writtenTo_append,hc,append_nil]; exact h.passed j}

section
variable (haccept : ∀ data, 0≤accept data) (hfd : Injective p.fd)
include haccept hfd
theorem onStream_ran (h : Ran p t calls) (i : ι) (hc : c.Valid) :
    Returns (onStream i (c.run accept)) t (fun _ u=>Ran p u (calls++[(i, c)])) := by
  rw [onStream,Returns,wp_zoom]
  apply (OutputCall.run_spec haccept (h.wellFormed i) hc).imp
  rintro - s ⟨⟨hgn,hs,hout⟩,hfl⟩
  exact h.output hfd hgn hs hout hfl

theorem runOutputs_ran (h : Ran p t calls) (more : List (ι × OutputCall)) (hmr : ∀ c ∈ more, c.2.Valid) :
    Returns (runOutputs accept more) t (fun _ u=>Ran p u (calls++more)) := by
  induction more generalizing t calls with
  | nil =>
    rwa [runOutputs,Returns,wp_pure,append_nil]
  | cons c more ih =>
    rw [runOutputs,Returns,wp_bind]
    apply (onStream_ran haccept hfd h c.1 (hmr c mem_cons_self)).imp
    intro _ u hu
    have hrs := ih hu (fun c' hc'=>hmr c' (mem_cons_of_mem c hc'))
    rwa [append_assoc,singleton_append] at hrs
end

theorem checkedCall_spec (h : Ran p t calls) (hc : ∀ fd, writtenTo fd [call]=[])
    (failed : ℤ) : Returns (checkedCall answer call failed) t (fun _ u =>
      Ran p u calls ∧ u.trace=t.trace++[call]) := by
  simp only [checkedCall,systemCall,Returns,wp_bind,wp_modify,wp_pure]
  refine Ensures.ite (fun _=>?_) (fun _=>?_)
  · simp only [wp_bind,wp_modify,wp_pure]
    exact ⟨h.systemCall hc _,trivial⟩
  · rw [wp_pure]
    exact ⟨h.systemCall hc t.errno,rfl⟩

theorem fclose_spec (h : Ran p t calls) (i : ι) :
    Returns (fclose answer i) t (fun _ u=>Ran p u calls ∧ u.trace=t.trace++[.close (p.fd i)]) := by
  rw [fclose,Returns,wp_bind,wp_get,h.fd]
  exact checkedCall_spec h (fun _=>rfl) eof

theorem fseek_spec (h : Ran p t calls) (i : ι) (offset origin : ℤ) :
    Returns (fseek answer i offset origin) t (fun _ u =>
      Ran p u calls ∧ u.trace=t.trace++[.lseek (p.fd i) offset origin]) := by
  rw [fseek,Returns,wp_bind,wp_get,h.fd]
  exact checkedCall_spec h (fun _=>rfl) (-1)

namespace Action

def outputs : Action ι → List (ι × OutputCall)
  | .output i c => [(i, c)]
  | _ => []

/-- An action of a process that goes on. -/
def Valid : Action ι → Prop
  | .output _ c => c.Valid
  | .exit _ => False
  | _ => True

/-- The stream is left with this action. -/
def Leaves (i : ι) : Action ι → Prop
  | .output _ _ => False
  | .fseek j _ _ => j=i
  | .fclose j => j=i
  | .exit _ => True

def event (fd : ι → ℤ) : Action ι → Option Sys
  | .output _ _ => none
  | .fseek i offset origin => some (.lseek (fd i) offset origin)
  | .fclose i => some (.close (fd i))
  | .exit status => some (.exit status)

/-- The calls that are made between an action and its system call. -/
def lastOutputs (p : Process ι) : Action ι → List (ι × OutputCall)
  | .exit _ => p.atexitFunc.getD []
  | _ => []
end Action

section
variable (haccept : ∀ data, 0≤accept data) (hfd : Injective p.fd) (h : Ran p t calls)
include haccept hfd h
theorem runActions_ran (actions : List (Action ι)) (hac : ∀ a ∈ actions, a.Valid) :
    Returns (runActions accept answer actions) t (fun _ u =>
      Ran p u (calls++actions.flatMap Action.outputs)) := by
  induction actions generalizing t calls with
  | nil =>
    rwa [runActions,Returns,wp_pure,flatMap_nil,append_nil]
  | cons a actions ih =>
    have hst : Returns (a.run accept answer) t (fun _ u=>Ran p u (calls++a.outputs)) := by
      cases a with
      | output i c => exact onStream_ran haccept hfd h i (hac _ mem_cons_self)
      | fseek i offset origin =>
        simp only [Action.run,Action.outputs,Returns,wp_bind,wp_pure,append_nil]
        exact (fseek_spec h i offset origin).imp (fun _ _ hu=>hu.1)
      | fclose i =>
        simp only [Action.run,Action.outputs,Returns,wp_bind,wp_pure,append_nil]
        exact (fclose_spec h i).imp (fun _ _ hu=>hu.1)
      | exit status => exact (hac _ mem_cons_self).elim
    rw [runActions,Returns,wp_bind]
    apply hst.imp
    intro _ u hu
    have hrs := ih hu (fun a' ha'=>hac a' (mem_cons_of_mem a ha'))
    rwa [append_assoc,← flatMap_cons] at hrs

theorem leave_spec (hls : ∀ more, p.atexitFunc=some more → ∀ c ∈ more, c.2.Valid) {leave : Action ι}
    (hlv : leave.Leaves i) :
    Returns (leave.run accept answer) t (fun _ u=>∃ w e, Ran p w (calls++leave.lastOutputs p) ∧
      leave.event p.fd=some e ∧ u.trace=w.trace++[e]) := by
  cases leave with
  | output j c => exact hlv.elim
  | fseek j offset origin =>
    simp only [Action.run,Action.lastOutputs,Returns,wp_bind,wp_pure,append_nil]
    exact (fseek_spec h j offset origin).imp (fun _ _ hu=>⟨t,_,h,rfl,hu.2⟩)
  | fclose j =>
    simp only [Action.run,Action.lastOutputs,Returns,wp_bind,wp_pure,append_nil]
    exact (fclose_spec h j).imp (fun _ _ hu=>⟨t,_,h,rfl,hu.2⟩)
  | exit status =>
    have hen : Returns (atexitEntry accept) t (fun _ w=>Ran p w (calls++p.atexitFunc.getD [])) := by
      rw [atexitEntry,Returns,wp_bind,wp_get,h.atexitFunc]
      cases hfn : p.atexitFunc with
      | none =>
        rw [Option.getD_none,append_nil]
        exact (wp_pure ..).mpr h
      | some more => exact runOutputs_ran haccept hfd h more (hls more hfn)
    simp only [Action.run,exit,systemCall,Returns,wp_bind,wp_modify,wp_pure]
    exact hen.imp (fun _ w hw=>⟨w,_,hw,rfl,rfl⟩)
end

/-- The stream has no buffer, or was flushed last, by a call or by the newline at the end. -/
def Settled (mode : BufMode) (calls : List OutputCall) : Prop :=
  mode=.flush ∨ calls.getLast? = some (.call .fflush) ∨
    (mode=.newline ∧ (calls.flatMap OutputCall.data).getLast? = some newlineChar) ∨
    calls.flatMap OutputCall.data=[]

theorem Ran.pending_of_settled (h : Ran p t calls)
    (hst : Settled (p.stream i).bufMode (callsOn i calls)) : (t.stream i).pending=[] := by
  have hgv := h.given i
  rcases hst with hmd | hls | ⟨hmd,hnw⟩ | hnn
  · rw [Stream.pending,(h.wellFormed i).unbuffered ((h.bufMode i).trans hmd),bytes_zero]
  · exact h.flushed i hls
  · -- the last byte given is the last one kept, which is no newline
    have hcl := (h.wellFormed i).newline ((h.bufMode i).trans hmd)
    by_contra hne
    rw [← dataOn,← hgv,List.getLast?_append_of_ne_nil _ hne] at hnw
    exact hcl (mem_of_getLast? hnw)
  · simp_all [dataOn]

/-- A stream that is left with an empty buffer has passed all its data to `write`, in order. -/
theorem no_output_lost (haccept : ∀ data, accept data=data.length) (hfd : Injective p.fd)
    (hfresh : ∀ j, (p.stream j).Fresh) (htrace : p.trace=[]) (before : List (Action ι))
    (hbefore : ∀ a ∈ before, a.Valid)
    (hlast : ∀ more, p.atexitFunc=some more → ∀ c ∈ more, c.2.Valid) {i : ι} {leave : Action ι}
    (hleave : leave.Leaves i)
    (hsettled : Settled (p.stream i).bufMode
      (callsOn i (before.flatMap Action.outputs++leave.lastOutputs p))) :
    ∃ t u earlier e, runActions accept answer before p=.ok () t ∧ leave.run accept answer t=.ok () u ∧
      leave.event p.fd=some e ∧ u.trace=earlier++[e] ∧
      writtenTo (p.fd i) earlier=dataOn i (before.flatMap Action.outputs++leave.lastOutputs p) := by
  have haccept' : ∀ data, 0≤accept data := fun data=>haccept data▸Int.natCast_nonneg _
  obtain ⟨⟨⟩,t,hrun,ht⟩ := (runActions_ran haccept' hfd (ran_start hfresh htrace) before hbefore).exists_ok
  rw [nil_append] at ht
  obtain ⟨⟨⟩,u,hrun',w,e,hw,hev,hu⟩ := (leave_spec haccept' hfd ht hlast hleave).exists_ok
  refine ⟨t,u,w.trace,e,hrun,hrun',hev,hu,?_⟩
  rw [hw.passed,← hw.given,hw.pending_of_settled hsettled,append_nil]
end

/-- A process that has opened one stream with `fopen`. -/
def openProcess : Process Unit where
  stream _ := {
    bufMode := .newline
    buf := 0x1000
    bufSize := 128
    num := 0
    mem := fun _=>0
    out := []
    errno := 0}
  fd _ := 3
  atexitFunc := none
  errno := 0
  trace := []

/-- A line, and the stream is closed. -/
theorem no_output_lost_line : ∃ t u earlier e,
      runActions (fun data=>data.length) (fun _=>0) [.output () (.call (.fputs [0x61, 0x0a]))] openProcess =
        .ok () t ∧
      (Action.fclose ()).run (fun data=>data.length) (fun _=>0) t=.ok () u ∧
      (Action.fclose ()).event openProcess.fd=some e ∧ u.trace=earlier++[e] ∧
      writtenTo 3 earlier=[0x61, 0x0a] := by
  have hb : ∀ a ∈ [Action.output () (.call (.fputs [0x61, 0x0a]))], a.Valid := by
    intro a ha
    obtain rfl : a=.output () (.call (.fputs [0x61, 0x0a])) := by simpa using ha
    exact Nat.lt_of_lt_of_le (Nat.lt_succ_self 2) (by decide)
  have hl : (Action.fclose ()).Leaves () := rfl
  have hf : ∀ j, (openProcess.stream j).Fresh := fun _=>⟨show 1≤128 by decide,rfl,rfl⟩
  exact no_output_lost (fun _=>rfl) (fun _ _ _=>rfl) hf rfl _ hb (fun _ h=>by cases h) hl
    (.inr (.inr (.inl ⟨rfl,rfl⟩)))

/-- A character without a newline: whichever way the stream is left, nothing has been written. -/
theorem character_lost :
    let run := fun actions=>runActions (fun data=>data.length) (fun _=>0)
      (.output () (.call (.fputs [0x61]))::actions) openProcess
    (∃ t, run [.fclose ()]=.ok () t ∧ t.trace=[.close 3]) ∧
    (∃ t, run [.fseek () 0 0]=.ok () t ∧ t.trace=[.lseek 3 0 0]) ∧
    (∃ t, run [.exit 0]=.ok () t ∧ t.trace=[.exit 0]) := by
  refine ⟨?_,?_,?_⟩
  · exact exists_ok_eq_of_passes (by decide +kernel)
  · exact exists_ok_eq_of_passes (by decide +kernel)
  · exact exists_ok_eq_of_passes (by decide +kernel)

end Yaos2.Libc
