import Yaos2.Debug
import Mathlib.Logic.Function.Basic

/-! # The scheduler

Threads and processes are named by their addresses. Each function below is what its source does between
taking `global_scheduler_lock` and the point where the lock is next released: a thread that leaves the
CPU releases it through the scheduler loop it switches to, and the loop through the thread. -/
namespace Yaos2.Scheduler
open Function
open Foundation

def pidKernel : ℕ := 0
def tidInvalid : ℕ := 0
def eNoStatus : ℤ := 10
def ticksPerMillisecond : ℕ := 10

inductive ThreadState where
  | scheduler
  | new
  | ready
  | running
  | waiting
  | blocked
  | sleeping
  | exited
  deriving DecidableEq

inductive ProcState where
  | new
  | ready
  | exiting
  | defunct
  | truncate
  deriving DecidableEq

/-- Where a thread goes on when it is next switched to. -/
inductive Resume where
  | entry
  | yield
  | sleep
  | wait
  | procWait
  | exit
  deriving DecidableEq

structure Thread where
  tid : ℕ
  parent : ℕ
  state : ThreadState
  collectedPid : ℕ
  collectedStatus : ℤ
  sleepSince : ℕ
  sleepUntil : ℕ
  cond : Option ℕ
  schedCount : ℕ
  resume : Resume
  deriving DecidableEq

structure Process where
  pid : ℕ
  parent : ℕ
  state : ProcState
  exitStatus : ℤ
  threads : List ℕ
  deriving DecidableEq

structure Sched where
  thread : ℕ → Option Thread
  proc : ℕ → Option Process
  processes : List ℕ
  queue : List ℕ
  current : ℕ → Option ℕ
  scheduler : ℕ → Option ℕ
  preemptDisabled : ℕ → ℕ
  globalSchedulerLock : Option ℕ
  nextPid : ℕ
  nextTid : ℕ
  ticks : ℕ

/-- The address of `kernel_process`. -/
def kernelProcess : ℕ := 0

/-- A thread as `x86_thread_construct_empty` leaves it. -/
def threadConstructEmpty : Thread where
  tid := tidInvalid
  parent := kernelProcess
  state := .new
  collectedPid := 0
  collectedStatus := 0
  sleepSince := 0
  sleepUntil := 0
  cond := none
  schedCount := 0
  resume := .entry

/-- What `init_global_scheduler` sets up. -/
def initGlobalScheduler : Sched where
  thread _ := none
  proc p := if p=kernelProcess then some ⟨pidKernel,pidKernel,.new,0,[]⟩ else none
  processes := [kernelProcess]
  queue := []
  current _ := none
  scheduler _ := none
  preemptDisabled _ := 0
  globalSchedulerLock := none
  nextPid := 1
  nextTid := 1
  ticks := 0

namespace Sched

@[simps -fullyApplied]
def setThread (s : Sched) (a : ℕ) (th : Option Thread) : Sched := {s with thread := update s.thread a th}

@[simps -fullyApplied]
def setProc (s : Sched) (p : ℕ) (pr : Process) : Sched := {s with proc := update s.proc p (some pr)}

@[simps -fullyApplied]
def setQueue (s : Sched) (q : List ℕ) : Sched := {s with queue := q}

@[simps -fullyApplied]
def setCurrent (s : Sched) (cpu : ℕ) (a : Option ℕ) : Sched := {s with current := update s.current cpu a}

@[simps -fullyApplied]
def setScheduler (s : Sched) (cpu a : ℕ) : Sched := {s with scheduler := update s.scheduler cpu (some a)}

@[simps -fullyApplied]
def addProcess (s : Sched) (p : ℕ) : Sched := {s with processes := p::s.processes}

def acquire (s : Sched) (cpu : ℕ) : Sched :=
  {s with
    globalSchedulerLock := some cpu
    preemptDisabled := update s.preemptDisabled cpu (s.preemptDisabled cpu+1)}

def release (s : Sched) (cpu : ℕ) : Sched :=
  {s with
    globalSchedulerLock := none
    preemptDisabled := update s.preemptDisabled cpu (s.preemptDisabled cpu-1)}
end Sched

abbrev SchedM := Exec Sched

/-- The thread object at `a`; there is none before it is built and after it is freed. -/
def threadAt (a : ℕ) : SchedM Thread := do
  match (← get).thread a with
  | some th => pure th
  | none => abort "no thread object"

def procAt (p : ℕ) : SchedM Process := do
  match (← get).proc p with
  | some pr => pure pr
  | none => abort "no proc object"

def modThread (a : ℕ) (f : Thread → Thread) : SchedM Unit := do
  let th ← threadAt a
  modify (·.setThread a (some (f th)))

def modProc (p : ℕ) (f : Process → Process) : SchedM Unit := do
  let pr ← procAt p
  modify (·.setProc p (f pr))

def insertTail (a : ℕ) : SchedM Unit := modify fun s=>s.setQueue (s.queue++[a])

def insertHead (a : ℕ) : SchedM Unit := modify fun s=>s.setQueue (a::s.queue)

def assertLockHeld (cpu : ℕ) : SchedM Unit := do
  kassert "cpu_spinlock_held(&global_scheduler_lock)" ((← get).globalSchedulerLock=some cpu)

def releaseLock (cpu : ℕ) : SchedM Unit := do
  panicIf ((← get).globalSchedulerLock≠some cpu)
    "cpu_spinlock_release(): called on an unheld spinlock"
  modify (·.release cpu)

def getCurrentThread (cpu : ℕ) : SchedM ℕ := do
  match (← get).current cpu with
  | some a => pure a
  | none => abort "NULL thread"

def insertThread (cpu p a : ℕ) : SchedM Unit := do
  assertLockHeld cpu
  modProc p fun pr=>{pr with threads := a::pr.threads}
  modThread a ({ · with state := .ready})
  modProc p ({ · with state := .ready, exitStatus := -eNoStatus})
  if (← threadAt a).state=.ready then insertTail a

def collectProcess (cpu p : ℕ) : SchedM Unit := do
  assertLockHeld cpu
  modProc p ({ · with state := .truncate})

/-- The inner loop of `make_process_defunct`; tells whether a thread was woken. -/
def wakeWaiting (pid : ℕ) (status : ℤ) : List ℕ → SchedM Bool
  | [] => pure false
  | a::rest => do
    if (← threadAt a).state≠.waiting then
      wakeWaiting pid status rest
    else
      modThread a ({ · with collectedPid := pid, collectedStatus := status, state := .ready})
      insertTail a
      let _ ← wakeWaiting pid status rest
      pure true

/-- The outer loop of `make_process_defunct`. -/
def wakeParents (child : Process) : List ℕ → SchedM Bool
  | [] => pure false
  | p::rest => do
    let pr ← procAt p
    if pr.pid≠child.parent then
      wakeParents child rest
    else
      let woken ← wakeWaiting child.pid child.exitStatus pr.threads
      let others ← wakeParents child rest
      pure (woken || others)

def makeProcessDefunct (cpu p : ℕ) : SchedM Unit := do
  assertLockHeld cpu
  modProc p ({ · with state := .defunct})
  let pr ← procAt p
  if pr.parent=pidKernel then
    collectProcess cpu p
  else
    let collected ← wakeParents pr (← get).processes
    if collected then collectProcess cpu p

def destroyThread (cpu a : ℕ) : SchedM Unit := do
  assertLockHeld cpu
  let th ← threadAt a
  kassert "thread->state == THREAD_EXITED" (th.state=.exited)
  modProc th.parent fun pr=>{pr with threads := pr.threads.erase a}
  modify (·.setThread a none)
  if (← procAt th.parent).threads=[] then
    kassert "proc != &kernel_process" (th.parent≠kernelProcess)
    makeProcessDefunct cpu th.parent

/-- A return of `proc_wait` in a thread. -/
structure Collected where
  thread : ℕ
  pid : ℕ
  status : ℤ
  deriving DecidableEq

/-- What a thread that was switched to does up to its release of the lock. -/
def resumeThread (cpu a : ℕ) : SchedM (Option Collected) := do
  let th ← threadAt a
  match th.resume with
  | .exit => abort "thread returned"
  | .wait =>
    modThread a ({ · with cond := none})
    releaseLock cpu
    pure none
  | .procWait =>
    releaseLock cpu
    pure (some ⟨a,th.collectedPid,th.collectedStatus⟩)
  | .entry | .yield | .sleep =>
    releaseLock cpu
    pure none

/-- One round of the scheduler loop of `enter_scheduler`. -/
def schedulerRound (cpu : ℕ) : SchedM (Option Collected) := do
  match (← get).queue with
  | [] =>
    releaseLock cpu
    pure none
  | a::rest =>
    modify (·.setQueue rest)
    let th ← threadAt a
    if th.state=.exited then
      destroyThread cpu a
      releaseLock cpu
      pure none
    else if th.state=.sleeping ∧ ¬ th.sleepUntil<(← get).ticks then
      insertTail a
      releaseLock cpu
      pure none
    else
      if th.state=.sleeping then
        modThread a ({ · with state := .ready, sleepSince := 0, sleepUntil := 0})
      if (← threadAt a).state=.ready then
        modThread a fun t=>{t with schedCount := (t.schedCount+1)%2^32}
        modify (·.setCurrent cpu (some a))
        modThread a ({ · with state := .running})
        resumeThread cpu a
      else
        releaseLock cpu
        pure none

/-- The first part of `enter_scheduler`, which makes the scheduler thread of the CPU. -/
def enterScheduler (cpu a : ℕ) : SchedM Unit := do
  modify (·.setThread a (some {threadConstructEmpty with parent := kernelProcess}))
  modify (·.setScheduler cpu a)
  insertThread cpu kernelProcess a
  modThread a ({ · with state := .scheduler})
  releaseLock cpu
  modify (·.setCurrent cpu none)

def reschedule (cpu : ℕ) (r : Resume) : SchedM Unit := do
  panicIf (1<(← get).preemptDisabled cpu) "reschedule(): preemption was disabled"
  panicIf ((← get).current cpu=none) "reschedule(): no thread is running"
  panicIf ((← get).globalSchedulerLock≠some cpu) "reschedule(): process list lock not held"
  let a ← getCurrentThread cpu
  let th ← threadAt a
  panicIf (th.state=.running) "reschedule(): bad thread state"
  if th.state≠.blocked ∧ th.state≠.waiting then insertTail a
  modThread a ({ · with resume := r})
  -- from here on in the scheduler loop
  modify (·.setCurrent cpu none)
  releaseLock cpu

/-- `sched_thread_wait`, once it holds the scheduler lock and has let go of the spinlock. -/
def schedThreadWait (cpu cond : ℕ) : SchedM Unit := do
  let a ← getCurrentThread cpu
  modThread a ({ · with state := .blocked})
  modThread a ({ · with cond := some cond})
  reschedule cpu .wait

def Sched.isBlockedOn (s : Sched) (cond a : ℕ) : Bool :=
  match s.thread a with
  | some th => th.cond=some cond ∧ th.state=.blocked
  | none => false

/-- The first thread that `sched_thread_notify_one` comes upon. -/
def Sched.firstBlocked (s : Sched) (cond : ℕ) : Option ℕ :=
  s.processes.findSome? fun p=>(s.proc p).bind fun pr=>pr.threads.find? (s.isBlockedOn cond)

def schedThreadNotifyOne (cpu cond : ℕ) : SchedM Unit := do
  match (← get).firstBlocked cond with
  | some a =>
    modThread a ({ · with state := .ready})
    insertHead a
  | none => pure ()
  releaseLock cpu

/-- What `schedule_proc` does before it takes the lock. -/
def assignIds (parent : Option ℕ) (p a : ℕ) : SchedM Unit := do
  let pid := (← get).nextPid
  modify fun s=>{s with nextPid := (s.nextPid+1)%2^32}
  let parentPid ← match parent with
    | some q => do pure (← procAt q).pid
    | none => pure pidKernel
  modify (·.setProc p ⟨pid,parentPid,.new,0,[]⟩)
  let tid := (← get).nextTid
  modify fun s=>{s with nextTid := (s.nextTid+1)%2^32}
  modThread a ({ · with tid := tid, parent := p})

def scheduleProc (cpu p a : ℕ) : SchedM Unit := do
  modify (·.addProcess p)
  insertThread cpu p a
  releaseLock cpu

/-- What `schedule_thread` does before it takes the lock. -/
def assignTid (a : ℕ) : SchedM Unit := do
  let tid := (← get).nextTid
  modify fun s=>{s with nextTid := (s.nextTid+1)%2^32}
  modThread a ({ · with tid := tid})

/-- `sheduler_get_proc` while the lock is held. -/
def Sched.getProc (s : Sched) (pid : ℕ) : Option ℕ := s.processes.find? fun p=>(s.proc p).any (·.pid=pid)

def scheduleThread (cpu pid a : ℕ) : SchedM Unit := do
  match (← get).getProc pid with
  | none => abort "schedule_thread(): process does not exist"
  | some p =>
    modThread a ({ · with parent := p})
    insertThread cpu p a
    releaseLock cpu

def threadYield (cpu : ℕ) : SchedM Unit := do
  modThread (← getCurrentThread cpu) ({ · with state := .ready})
  reschedule cpu .yield

def threadExit (cpu : ℕ) : SchedM Unit := do
  modThread (← getCurrentThread cpu) ({ · with state := .exited})
  reschedule cpu .exit

def threadSleep (cpu milliseconds : ℕ) : SchedM Unit := do
  let a ← getCurrentThread cpu
  modThread a ({ · with state := .sleeping})
  let cur := (← get).ticks
  modThread a ({ · with
    sleepSince := cur,
    sleepUntil := (cur+milliseconds*ticksPerMillisecond%2^32)%2^64})
  reschedule cpu .sleep

def procExit (cpu : ℕ) (status : ℤ) : SchedM Unit := do
  let a ← getCurrentThread cpu
  let th ← threadAt a
  modProc th.parent ({ · with state := .exiting})
  modProc th.parent ({ · with exitStatus := status})
  modThread a ({ · with state := .exited})
  reschedule cpu .exit

/-- The first child `proc_wait` can collect. -/
def Sched.defunctChild (s : Sched) (pid : ℕ) : Option ℕ :=
  s.processes.find? fun c=>(s.proc c).any fun pr=>pr.parent=pid ∧ pr.state=.defunct

/-- `proc_wait` up to its return or to the point where it leaves the CPU. -/
def procWait (cpu : ℕ) : SchedM (Option Collected) := do
  let a ← getCurrentThread cpu
  let th ← threadAt a
  let pr ← procAt th.parent
  match (← get).defunctChild pr.pid with
  | some c =>
    let child ← procAt c
    collectProcess cpu c
    releaseLock cpu
    pure (some ⟨a,child.pid,child.exitStatus⟩)
  | none =>
    modThread a ({ · with state := .waiting})
    reschedule cpu .procWait
    pure none

end Yaos2.Scheduler
