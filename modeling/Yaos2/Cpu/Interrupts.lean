import Yaos2.Foundation.Transition

/-! # Interrupts and the scheduler lock

One CPU runs code of a thread that takes the scheduler lock, which is recursive on a CPU, and the
handler of a serial port, which takes it too, may interrupt it. -/
namespace Yaos2.Cpu
open Foundation Relation

/-- What the code does to the interrupt state of the CPU, to the lock and to what it protects. -/
inductive Op where
  /-- `cpu_get_eflags` at the start of `cpu_spinlock_acquire`. -/
  | flags
  /-- `push_no_interrupts`. -/
  | push
  /-- `pop_no_interrupts`. -/
  | pop
  /-- From the test for recursion in `cpu_spinlock_acquire` to the end of its loop. -/
  | lock
  /-- The decrement of `spinlock->num` and what follows if it is zero. -/
  | unlock
  /-- Threads, processes or the queue are read or written. -/
  | touch
  /-- `restore_interrupts(cpu->scheduler, cpu)`. -/
  | restore
  deriving DecidableEq

/-- A thread or a handler: what it has yet to do, its copy of the flag, and whether it has the lock.
-/
structure Context where
  ops : List Op
  eflags : Bool
  inside : Bool

inductive Owner where
  | free
  | this
  | other
  deriving DecidableEq

structure X86Cpu where
  iflag : Bool
  cliStack : ℕ
  intEnabled : Bool
  owner : Owner
  num : ℕ
  /-- The interrupt state stored with `cpu->scheduler`. -/
  scheduler : Bool × ℕ

/-- One operation; there is no result where the source panics. -/
def Op.exec (cpu : X86Cpu) (eflags inside : Bool) (rest : List Op) : Op → Option (X86Cpu × Context)
  | .flags => some (cpu, ⟨rest,cpu.iflag,inside⟩)
  | .push => some ({cpu with
      iflag := false
      intEnabled := if cpu.cliStack=0 then cpu.iflag else cpu.intEnabled
      cliStack := cpu.cliStack+1}, ⟨rest,eflags,inside⟩)
  | .pop =>
    if cpu.iflag ∨ cpu.cliStack=0 then none
    else some ({cpu with
      iflag := cpu.cliStack=1 ∧ cpu.intEnabled
      cliStack := cpu.cliStack-1}, ⟨rest,eflags,inside⟩)
  | .lock =>
    match cpu.owner with
    | .this => some ({cpu with num := cpu.num+1}, ⟨rest,eflags,true⟩)
    | .free => some ({cpu with
        iflag := if eflags then false else cpu.iflag
        owner := .this
        num := 1}, ⟨rest,eflags,true⟩)
    | .other => some ({cpu with iflag := if eflags then true else cpu.iflag}, ⟨.lock::rest,eflags,inside⟩)
  | .unlock =>
    if cpu.owner≠.this then none
    else if 1<cpu.num then some ({cpu with num := cpu.num-1}, ⟨rest,eflags,false⟩)
    else some ({cpu with owner := .free, num := 0}, ⟨rest,eflags,false⟩)
  | .touch => some (cpu, ⟨rest,eflags,inside⟩)
  | .restore => some ({cpu with
      intEnabled := cpu.scheduler.1
      cliStack := cpu.scheduler.2
      iflag := cpu.scheduler.1 ∧ cpu.scheduler.2=0}, ⟨rest,eflags,inside⟩)

def preemptDisable : List Op := [.push, .pop]

def preemptEnable : List Op := [.push, .pop]

def cpuSpinlockHeld : List Op := [.push, .pop]

def cpuSpinlockAcquire : List Op := [.flags]++preemptDisable++[.push]++cpuSpinlockHeld++[.lock, .pop]

def cpuSpinlockRelease : List Op := [.push]++cpuSpinlockHeld++[.unlock, .pop]++preemptEnable

def getCurrentThread : List Op := preemptDisable++preemptEnable

def cpuSetCr3 : List Op := preemptDisable++preemptEnable

def insertThread : List Op := cpuSpinlockHeld++[.touch, .touch, .touch]

def collectProcess : List Op := cpuSpinlockHeld++[.touch]

/-- `reschedule` and then the scheduler loop up to the release of the lock. -/
def reschedule : List Op := cpuSpinlockHeld++[.touch]++cpuSetCr3++[.touch, .restore]++cpuSpinlockRelease

/-- What the thread calls; `proc_wait` may find a process to collect. -/
inductive Call where
  | threadYield
  | threadSleep
  | procWait (found : Bool)
  | scheduleProc
  | schedThreadNotifyOne
  deriving DecidableEq

def Call.ops : Call → List Op
  | .threadYield => cpuSpinlockAcquire++getCurrentThread++[.touch]++reschedule
  | .threadSleep => cpuSpinlockAcquire++getCurrentThread++[.touch, .touch]++reschedule
  | .procWait true =>
    cpuSpinlockAcquire++getCurrentThread++[.touch]++collectProcess++cpuSpinlockRelease
  | .procWait false => cpuSpinlockAcquire++getCurrentThread++[.touch, .touch]++reschedule
  | .scheduleProc => cpuSpinlockAcquire++[.touch]++insertThread++cpuSpinlockRelease
  | .schedThreadNotifyOne => cpuSpinlockAcquire++[.touch, .touch]++cpuSpinlockRelease

def Call.reschedules : Call → Bool
  | .threadYield | .threadSleep | .procWait false => true
  | _ => false

def comIrqHandler : Context := ⟨Call.schedThreadNotifyOne.ops,false,false⟩

structure Machine where
  cpu : X86Cpu
  running : Context
  interrupted : List Context

/-- The context goes on, is interrupted or returns, or another CPU takes or releases the lock. -/
inductive Step : Machine → Machine → Prop
  | exec {m : Machine} {op : Op} {rest : List Op} {e i : Bool} {cpu : X86Cpu} {c : Context} :
      m.running=⟨op::rest,e,i⟩ → op.exec m.cpu e i rest=some (cpu, c) →
      Step m {m with cpu := cpu, running := c}
  | interrupt {m : Machine} : m.cpu.iflag=true →
      Step m ⟨{m.cpu with iflag := false},comIrqHandler,m.running::m.interrupted⟩
  | iret {m : Machine} {c : Context} {cs : List Context} : m.running.ops=[] →
      m.interrupted=c::cs → Step m ⟨{m.cpu with iflag := true},c,cs⟩
  | taken {m : Machine} : m.cpu.owner=.free → Step m {m with cpu := {m.cpu with owner := .other}}
  | released {m : Machine} : m.cpu.owner=.other → Step m {m with cpu := {m.cpu with owner := .free}}

/-- The interrupt state in which a call is made. The flag is set only outside of every
`push_no_interrupts`. -/
structure Entry where
  iflag : Bool
  cliStack : ℕ
  intEnabled : Bool
  scheduler : Bool × ℕ
  flag : iflag=true → cliStack=0

def Entry.machine (e : Entry) (f : Call) : Machine where
  cpu := ⟨e.iflag,e.cliStack,e.intEnabled,.free,0,e.scheduler⟩
  running := ⟨f.ops,false,false⟩
  interrupted := []

/-- At most one context is between taking the lock and releasing it. -/
def Machine.Exclusive (m : Machine) : Prop := (m.running::m.interrupted).countP (·.inside)≤1

/-- The rest of a thread's code leaves the flag clear. -/
def Quiet (sched : Bool × ℕ) : List Op → ℕ → Bool → Prop
  | [], _, _ => True
  | .push::ops, n, ie => Quiet sched ops (n+1) (if n=0 then false else ie)
  | .pop::ops, n, ie => ¬ (n=1 ∧ ie=true) ∧ Quiet sched ops (n-1) ie
  | .restore::ops, _, _ =>
    ¬ (sched.1=true ∧ sched.2=0) ∧ Quiet sched ops sched.2 sched.1
  | _::ops, n, ie => Quiet sched ops n ie

structure ThreadAlone (m : Machine) : Prop where
  alone : m.interrupted=[]
  clear : m.cpu.iflag=false
  eflags : m.running.eflags=false
  quiet : Quiet m.cpu.scheduler m.running.ops m.cpu.cliStack m.cpu.intEnabled

variable {m : Machine} {sched : Bool × ℕ} {n : ℕ}

theorem Step.threadAlone (h : ThreadAlone m) (hst : Step m m') :
    ThreadAlone m' := by
  obtain ⟨hal,hcl,hef,hqt⟩ := h
  cases hst with
  | @exec op rest e i cpu c hrun hex =>
    rw [hrun] at hef hqt
    simp only at hef
    subst hef
    cases op <;> simp only [Op.exec,Option.some.injEq,Prod.mk.injEq] at hex
    case flags =>
      obtain ⟨rfl,rfl⟩ := hex
      exact ⟨hal,hcl,hcl,hqt⟩
    case push =>
      obtain ⟨rfl,rfl⟩ := hex
      refine ⟨hal,rfl,rfl,?_⟩
      simpa [Quiet,hcl] using hqt
    case pop =>
      split at hex
      · cases hex
      · obtain ⟨rfl,rfl⟩ := Prod.mk.inj (Option.some.inj hex)
        exact ⟨hal,by simpa using hqt.1,rfl,hqt.2⟩
    case lock =>
      cases how : m.cpu.owner <;> rw [how] at hex <;>
        obtain ⟨rfl,rfl⟩ := Prod.mk.inj (Option.some.inj hex)
      · exact ⟨hal,hcl,rfl,hqt⟩
      · exact ⟨hal,hcl,rfl,hqt⟩
      · exact ⟨hal,hcl,rfl,hqt⟩
    case unlock =>
      split at hex
      · cases hex
      · split at hex <;> obtain ⟨rfl,rfl⟩ := Prod.mk.inj (Option.some.inj hex)
        · exact ⟨hal,hcl,rfl,hqt⟩
        · exact ⟨hal,hcl,rfl,hqt⟩
    case touch =>
      obtain ⟨rfl,rfl⟩ := hex
      exact ⟨hal,hcl,rfl,hqt⟩
    case restore =>
      obtain ⟨rfl,rfl⟩ := hex
      refine ⟨hal,?_,rfl,hqt.2⟩
      simpa using hqt.1
  | interrupt hfl => simp [hcl] at hfl
  | iret hops hcs => simp [hal] at hcs
  | taken hfr => exact ⟨hal,hcl,hef,hqt⟩
  | released hot => exact ⟨hal,hcl,hef,hqt⟩

theorem ThreadAlone.exclusive (h : ThreadAlone m) : m.Exclusive := by
  rw [Machine.Exclusive,h.alone]
  exact List.countP_le_length

theorem quiet_acquire : Quiet sched (cpuSpinlockAcquire++ops) n ie ↔
      Quiet sched ops n (if n=0 then false else ie) := by
  by_cases hn : n=0 <;> simp [cpuSpinlockAcquire,preemptDisable,cpuSpinlockHeld,Quiet,hn]

theorem quiet_release (sched : Bool × ℕ) (n : ℕ) (ie : Bool) :
    Quiet sched cpuSpinlockRelease n ie := by
  by_cases hn : n=0 <;> simp [cpuSpinlockRelease,preemptEnable,cpuSpinlockHeld,Quiet,hn]

theorem quiet_reschedule : Quiet sched reschedule n ie ↔ ¬ (sched.1=true ∧ sched.2=0) := by
  by_cases hn : n=0 <;>
    simp [reschedule,cpuSpinlockHeld,cpuSetCr3,preemptDisable,preemptEnable,Quiet,quiet_release,hn]

theorem Call.quiet (f : Call) (h : f.reschedules=true → ¬ (sched.1=true ∧ sched.2=0)) (n : ℕ) (ie : Bool) :
    Quiet sched f.ops n ie := by
  rcases f with _ | _ | _ | _ | _
  case procWait found =>
    cases found <;> by_cases hn : n=0 <;>
      simp_all [ops,reschedules,quiet_acquire,quiet_release,quiet_reschedule,getCurrentThread,collectProcess,
        cpuSpinlockHeld,preemptDisable,preemptEnable,Quiet]
  all_goals
    by_cases hn : n=0 <;>
      simp_all [ops,reschedules,quiet_acquire,quiet_release,quiet_reschedule,getCurrentThread,insertThread,
        cpuSpinlockHeld,preemptDisable,preemptEnable,Quiet]

def Machine.runAlone : ℕ → Machine → Option Machine
  | 0, m => some m
  | n+1, m =>
    match m.running with
    | ⟨[],_,_⟩ => none
    | ⟨op::rest,e,i⟩ => do
      let (cpu, c) ← op.exec m.cpu e i rest
      Machine.runAlone n {m with cpu := cpu, running := c}

theorem Machine.runAlone_reaches (h : m.runAlone n=some m') :
    ReflTransGen Step m m' := by
  induction n generalizing m with
  | zero => rw [← Option.some.inj h]
  | succ n ih =>
    obtain ⟨cpu,⟨ops,e,i⟩,stack⟩ := m
    cases ops with
    | nil => cases h
    | cons op rest =>
      obtain ⟨⟨cpu',c⟩,he,hr⟩ := Option.bind_eq_some_iff.mp h
      exact .head (.exec rfl he) (ih hr)

theorem reentered (hf : m.cpu.iflag=true) (hcli : m.cpu.cliStack=0)
    (ho : m.cpu.owner=.this) (hin : m.running.inside=true) :
    ∃ m', ReflTransGen Step m m' ∧ ¬ m'.Exclusive := by
  obtain ⟨⟨iflag,cli,ie,owner,num,sched⟩,c,stack⟩ := m
  subst hf hcli ho
  change c.inside=true at hin
  refine ⟨_,.head (.interrupt rfl) (Machine.runAlone_reaches (n := 7) rfl),?_⟩
  simp only [Machine.Exclusive,List.countP_cons,hin,if_true]
  omega

theorem acquire_flag_set {e : Entry} (f : Call) (h : e.iflag=true) :
    ∃ m, ReflTransGen Step (e.machine f) m ∧ m.cpu.iflag=true ∧ m.cpu.cliStack=0 ∧
      m.cpu.owner=.this ∧ m.running.inside=true := by
  obtain ⟨iflag,cli,ie,sched,hf⟩ := e
  obtain rfl : iflag=true := h
  obtain rfl : cli=0 := hf rfl
  have hrun : ((Entry.mk true 0 ie sched hf).machine f).runAlone 8 =
      some ⟨⟨true,0,true,.this,1,sched⟩,⟨f.ops.drop 8,true,true⟩,[]⟩ := ?_
  · exact ⟨_,Machine.runAlone_reaches hrun,rfl,rfl,rfl,rfl⟩
  rcases f with _ | _ | found | _ | _
  case procWait => cases found <;> rfl
  all_goals rfl

theorem reschedule_flag_set {e : Entry} (hfl : e.iflag=false)
    (hf : f.reschedules=true) (hs : e.scheduler.1=true ∧ e.scheduler.2=0) :
    ∃ m, ReflTransGen Step (e.machine f) m ∧ m.cpu.iflag=true ∧ m.cpu.cliStack=0 ∧
      m.cpu.owner=.this ∧ m.running.inside=true := by
  obtain ⟨iflag,cli,ie,⟨sie,scli⟩,hset⟩ := e
  obtain rfl : iflag=false := hfl
  obtain ⟨rfl,rfl⟩ : sie=true ∧ scli=0 := hs
  have hrun : ∃ n, (Entry.machine ⟨false,cli,ie,(true, 0),hset⟩ f).runAlone n =
      some ⟨⟨true,0,true,.this,1,(true, 0)⟩,⟨cpuSpinlockRelease,false,true⟩,[]⟩ := by
    rcases f with _ | _ | (_ | _) | _ | _
    · exact ⟨22,by rcases cli with _ | cli <;> rfl⟩
    · exact ⟨23,by rcases cli with _ | cli <;> rfl⟩
    · exact ⟨23,by rcases cli with _ | cli <;> rfl⟩
    all_goals cases hf
  obtain ⟨n,hn⟩ := hrun
  exact ⟨_,Machine.runAlone_reaches hn,rfl,rfl,rfl,rfl⟩

/-- The handler enters no section of the thread's iff the flag is clear and stays so in the loop. -/
theorem sectionsExclusive_iff (e : Entry) (f : Call) :
    (∀ m, ReflTransGen Step (e.machine f) m → m.Exclusive) ↔
      e.iflag=false ∧ (f.reschedules=true → ¬ (e.scheduler.1=true ∧ e.scheduler.2=0)) := by
  have hvl : ∀ {m}, ReflTransGen Step (e.machine f) m → m.cpu.iflag=true →
      m.cpu.cliStack=0 → m.cpu.owner=.this → m.running.inside=true →
      ¬ ∀ m, ReflTransGen Step (e.machine f) m → m.Exclusive := by
    intro m hm hfl hcli how hin hall
    obtain ⟨m',hm',hnot⟩ := reentered hfl hcli how hin
    exact hnot (hall m' (hm.trans hm'))
  constructor
  · intro hall
    have hfl : e.iflag=false := by
      rw [Bool.eq_false_iff]
      intro hset
      obtain ⟨m,hm,h1,h2,h3,h4⟩ := acquire_flag_set f hset
      exact hvl hm h1 h2 h3 h4 hall
    refine ⟨hfl,fun hf hs=>?_⟩
    obtain ⟨m,hm,h1,h2,h3,h4⟩ := reschedule_flag_set hfl hf hs
    exact hvl hm h1 h2 h3 h4 hall
  · rintro ⟨hfl,hs⟩ m hm
    have hst : ThreadAlone (e.machine f) := ⟨rfl,hfl,rfl,f.quiet hs _ _⟩
    exact (Reaches.invariant hm hst fun _ _ h hsp=>hsp.threadAlone h).exclusive

/-- A thread calls with the flag set, and its handler has the lock too. -/
theorem notify_reentered_by_handler :
    ∃ m c, ReflTransGen Step (Entry.machine ⟨true,0,true,(true, 0),fun _=>rfl⟩
      .schedThreadNotifyOne) m ∧ m.interrupted=[c] ∧ c.inside=true ∧ m.running.inside=true ∧
      c.ops=[.touch, .touch]++cpuSpinlockRelease ∧
      m.running.ops=[.touch, .touch]++cpuSpinlockRelease := by
  have h1 := Machine.runAlone_reaches
    (m := Entry.machine ⟨true,0,true,(true, 0),fun _=>rfl⟩ .schedThreadNotifyOne) (n := 8) rfl
  have h2 := h1.tail (.interrupt rfl)
  have h3 := h2.trans (Machine.runAlone_reaches (n := 8) rfl)
  exact ⟨_,_,h3,rfl,rfl,rfl,rfl,rfl⟩

end Yaos2.Cpu
