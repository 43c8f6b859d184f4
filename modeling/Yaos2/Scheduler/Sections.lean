import Yaos2.Scheduler.Core

/-! # What each section does

`Section` names the pieces of code that run under `global_scheduler_lock`. -/
namespace Yaos2.Scheduler
open Foundation Function

namespace Sched

variable (s : Sched) (a b p q cpu c : ℕ) (o o' : Option Thread) (pr pr' : Process) (l l' : List ℕ)
  (x y : Option ℕ)

-- updates are kept in the order thread, process, queue, current thread, then the rest

@[simp] theorem setThread_setThread : (s.setThread a o).setThread a o'=s.setThread a o' := by simp [setThread]

@[simp] theorem setProc_setThread : (s.setProc p pr).setThread a o=(s.setThread a o).setProc p pr := rfl

@[simp] theorem setQueue_setThread : (s.setQueue l).setThread a o=(s.setThread a o).setQueue l := rfl

@[simp] theorem setCurrent_setThread :
    (s.setCurrent c x).setThread a o=(s.setThread a o).setCurrent c x := rfl

@[simp] theorem setProc_setProc : (s.setProc p pr).setProc p pr'=s.setProc p pr' := by simp [setProc]

@[simp] theorem setQueue_setProc : (s.setQueue l).setProc p pr=(s.setProc p pr).setQueue l := rfl

@[simp] theorem setCurrent_setProc : (s.setCurrent c x).setProc p pr=(s.setProc p pr).setCurrent c x := rfl

@[simp] theorem setQueue_setQueue : (s.setQueue l).setQueue l'=s.setQueue l' := rfl

@[simp] theorem setCurrent_setQueue : (s.setCurrent c x).setQueue l=(s.setQueue l).setCurrent c x := rfl

@[simp] theorem setCurrent_setCurrent : (s.setCurrent c x).setCurrent c y=s.setCurrent c y := by
  simp [setCurrent]

@[simp] theorem setScheduler_setThread :
    (s.setScheduler c b).setThread a o=(s.setThread a o).setScheduler c b := rfl

@[simp] theorem setScheduler_setProc :
    (s.setScheduler c b).setProc p pr=(s.setProc p pr).setScheduler c b := rfl

@[simp] theorem setScheduler_setQueue :
    (s.setScheduler c b).setQueue l=(s.setQueue l).setScheduler c b := rfl

@[simp] theorem setScheduler_setCurrent :
    (s.setScheduler c b).setCurrent cpu x=(s.setCurrent cpu x).setScheduler c b := rfl

@[simp] theorem addProcess_setThread : (s.addProcess q).setThread a o=(s.setThread a o).addProcess q := rfl

@[simp] theorem addProcess_setProc : (s.addProcess q).setProc p pr=(s.setProc p pr).addProcess q := rfl

@[simp] theorem addProcess_setQueue : (s.addProcess q).setQueue l=(s.setQueue l).addProcess q := rfl

@[simp] theorem release_setCurrent : (s.release c).setCurrent cpu x=(s.setCurrent cpu x).release c := rfl
end Sched

-- one rule per primitive; with them `simp` runs a section on a state it knows enough about

section

variable {s : Sched} {Q : Unit → Sched → Prop} {E : Sched → Prop} {a p cpu : ℕ}

@[simp] theorem wp_threadAt {Q : Thread → Sched → Prop} :
    Ensures (threadAt a) s Q E ↔ (s.thread a).elim (E s) (fun th=>Q th s) := by
  simp only [threadAt,wp_bind,wp_get]
  cases s.thread a <;> simp

@[simp] theorem wp_procAt {Q : Process → Sched → Prop} :
    Ensures (procAt p) s Q E ↔ (s.proc p).elim (E s) (fun pr=>Q pr s) := by
  simp only [procAt,wp_bind,wp_get]
  cases s.proc p <;> simp

@[simp] theorem wp_modThread : Ensures (modThread a f) s Q E ↔
      (s.thread a).elim (E s) (fun th=>Q () (s.setThread a (some (f th)))) := by
  simp [modThread]

@[simp] theorem wp_modProc :
    Ensures (modProc p f) s Q E ↔ (s.proc p).elim (E s) (fun pr=>Q () (s.setProc p (f pr))) := by
  simp [modProc]

@[simp] theorem wp_insertTail : Ensures (insertTail a) s Q E ↔ Q () (s.setQueue (s.queue++[a])) := by
  simp [insertTail]

@[simp] theorem wp_insertHead : Ensures (insertHead a) s Q E ↔ Q () (s.setQueue (a::s.queue)) := by
  simp [insertHead]

@[simp] theorem wp_assertLockHeld : Ensures (assertLockHeld cpu) s Q E ↔
      if s.globalSchedulerLock=some cpu then Q () s else E s := by
  simp [assertLockHeld,wp_kassert_iff]

@[simp] theorem wp_releaseLock : Ensures (releaseLock cpu) s Q E ↔
      if s.globalSchedulerLock=some cpu then Q () (s.release cpu) else E s := by
  by_cases h : s.globalSchedulerLock=some cpu <;>
    simp [releaseLock,wp_panicIf_iff,h]

@[simp] theorem wp_getCurrentThread {Q : ℕ → Sched → Prop} :
    Ensures (getCurrentThread cpu) s Q E ↔ (s.current cpu).elim (E s) (fun a=>Q a s) := by
  simp only [getCurrentThread,wp_bind,wp_get]
  cases s.current cpu <;> simp
end

/-- The pieces of code that run under the scheduler lock. -/
inductive Section where
  | schedulerRound
  | enterScheduler (a : ℕ)
  | scheduleProc (p a : ℕ)
  | scheduleThread (pid a : ℕ)
  | threadYield
  | threadExit
  | threadSleep (milliseconds : ℕ)
  | procExit (status : ℤ)
  | procWait
  | schedThreadWait (cond : ℕ)
  | schedThreadNotifyOne (cond : ℕ)

namespace Section

def run (cpu : ℕ) : Section → SchedM (Option Collected)
  | .schedulerRound => Scheduler.schedulerRound cpu
  | .enterScheduler a => do Scheduler.enterScheduler cpu a; pure none
  | .scheduleProc p a => do Scheduler.scheduleProc cpu p a; pure none
  | .scheduleThread pid a => do Scheduler.scheduleThread cpu pid a; pure none
  | .threadYield => do Scheduler.threadYield cpu; pure none
  | .threadExit => do Scheduler.threadExit cpu; pure none
  | .threadSleep milliseconds => do Scheduler.threadSleep cpu milliseconds; pure none
  | .procExit status => do Scheduler.procExit cpu status; pure none
  | .procWait => Scheduler.procWait cpu
  | .schedThreadWait cond => do Scheduler.schedThreadWait cpu cond; pure none
  | .schedThreadNotifyOne cond => do Scheduler.schedThreadNotifyOne cpu cond; pure none

/-- The loop runs on a CPU between threads, a thread object is new, and a call comes from the
running thread. -/
def Enabled (s : Sched) (cpu : ℕ) : Section → Prop
  | .schedulerRound => s.scheduler cpu≠none ∧ s.current cpu=none
  | .enterScheduler a => s.scheduler cpu=none ∧ s.current cpu=none ∧ s.thread a=none
  | .scheduleProc p a => p ∉ s.processes ∧ (∃ pr, s.proc p=some pr ∧ pr.threads=[]) ∧
      ∃ th, s.thread a=some th ∧ th.state=.new ∧ th.parent=p
  | .scheduleThread _ a => ∃ th, s.thread a=some th ∧ th.state=.new
  | .schedThreadNotifyOne _ => True
  | .threadYield | .threadExit | .threadSleep _ | .procExit _ | .procWait | .schedThreadWait _ =>
    s.current cpu≠none
end Section

/-- The thread as it runs again: what the loop and then the thread itself store. -/
def Thread.started (th : Thread) : Thread :=
  {th with
    state := .running
    sleepSince := if th.state=.sleeping then 0 else th.sleepSince
    sleepUntil := if th.state=.sleeping then 0 else th.sleepUntil
    schedCount := (th.schedCount+1)%2^32
    cond := if th.resume=.wait then none else th.cond}

/-- What `proc_wait` returns if the thread comes back in it. -/
def Thread.collected (th : Thread) (a : ℕ) : Option Collected :=
  if th.resume=.procWait then some ⟨a,th.collectedPid,th.collectedStatus⟩ else none

/-- The thread as it sleeps from now on. -/
def Thread.asleep (th : Thread) (cur milliseconds : ℕ) : Thread :=
  {th with
    state := .sleeping
    sleepSince := cur
    sleepUntil := (cur+milliseconds*ticksPerMillisecond%2^32)%2^64}

/-- A process that has got a thread. -/
def Process.adopt (pr : Process) (a : ℕ) : Process :=
  {pr with threads := a::pr.threads, state := .ready, exitStatus := -eNoStatus}

namespace Sched

/-- The thread `a` leaves the CPU as `th`. -/
def leave (s : Sched) (cpu a : ℕ) (th : Thread) : Sched := ((s.setThread a (some th)).setQueue
    (if th.state=.blocked ∨ th.state=.waiting then s.queue else s.queue++[a])).setCurrent
    cpu none

/-- The threads `ws` are woken with news of a child. -/
def wake (s : Sched) (pid : ℕ) (status : ℤ) (ws : List ℕ) : Sched :=
  {s with
    thread := fun x=>if x ∈ ws then
      (s.thread x).map ({ · with collectedPid := pid, collectedStatus := status, state := .ready})
      else s.thread x
    queue := s.queue++ws}

/-- The thread waits in a process with this pid. -/
def WaitsIn (s : Sched) (pid x : ℕ) : Prop :=
  ∃ th pr, s.thread x=some th ∧ th.state=.waiting ∧ s.proc th.parent=some pr ∧ pr.pid=pid
end Sched

/-- What a section run by `cpu` can do to the state, the release of the lock left out. -/
inductive Effect (cpu : ℕ) (s : Sched) : Section → Option Collected → Sched → Prop
  | idle : s.queue=[] → Effect cpu s .schedulerRound none s
  | drop {a : ℕ} {rest : List ℕ} {th : Thread} : s.queue=a::rest → s.thread a=some th →
      th.state=.scheduler → Effect cpu s .schedulerRound none (s.setQueue rest)
  | rotate {a : ℕ} {rest : List ℕ} {th : Thread} : s.queue=a::rest → s.thread a=some th →
      th.state=.sleeping → Effect cpu s .schedulerRound none (s.setQueue (rest++[a]))
  | start {a : ℕ} {rest : List ℕ} {th : Thread} : s.queue=a::rest → s.thread a=some th →
      th.state=.ready ∨ th.state=.sleeping → th.resume≠.exit →
      Effect cpu s .schedulerRound (th.collected a)
        (((s.setThread a (some th.started)).setQueue rest).setCurrent cpu (some a))
  | destroy {a : ℕ} {rest : List ℕ} {th : Thread} {pr : Process} : s.queue=a::rest →
      s.thread a=some th → th.state=.exited → s.proc th.parent=some pr →
      pr.threads.erase a≠[] →
      Effect cpu s .schedulerRound none
        (((s.setThread a none).setProc th.parent {pr with threads := pr.threads.erase a}).setQueue rest)
  | collectOrphan {a : ℕ} {rest : List ℕ} {th : Thread} {pr : Process} : s.queue=a::rest →
      s.thread a=some th → th.state=.exited → s.proc th.parent=some pr →
      pr.threads.erase a=[] → th.parent≠kernelProcess → pr.parent=pidKernel →
      Effect cpu s .schedulerRound none
        (((s.setThread a none).setProc th.parent {pr with threads := [], state := .truncate}).setQueue rest)
  | defunct {a : ℕ} {rest : List ℕ} {th : Thread} {pr : Process} {ws : List ℕ} :
      s.queue=a::rest → s.thread a=some th → th.state=.exited →
      s.proc th.parent=some pr → pr.threads.erase a=[] → th.parent≠kernelProcess →
      pr.parent≠pidKernel →
      ws.Nodup → (∀ x, x ∈ ws ↔ s.WaitsIn pr.parent x) →
      Effect cpu s .schedulerRound none
        ((((s.setThread a none).setProc th.parent
          {pr with threads := [], state := if ws=[] then .defunct else .truncate}).setQueue
            rest).wake pr.pid pr.exitStatus ws)
  | enter {a : ℕ} {pr : Process} : s.proc kernelProcess=some pr → Effect cpu s (.enterScheduler a) none
        (((((s.setThread a (some {threadConstructEmpty with state := .scheduler})).setProc
          kernelProcess (pr.adopt a)).setQueue (s.queue++[a])).setCurrent cpu none).setScheduler
            cpu a)
  | insertProc {p a : ℕ} {pr : Process} {th : Thread} : s.proc p=some pr → s.thread a=some th →
      Effect cpu s (.scheduleProc p a) none
        ((((s.setThread a (some {th with state := .ready})).setProc p (pr.adopt a)).setQueue
          (s.queue++[a])).addProcess p)
  | insertThread {pid p a : ℕ} {pr : Process} {th : Thread} : s.getProc pid=some p →
      s.proc p=some pr → s.thread a=some th →
      Effect cpu s (.scheduleThread pid a) none
        (((s.setThread a (some {th with parent := p, state := .ready})).setProc p
          (pr.adopt a)).setQueue (s.queue++[a]))
  | yield {a : ℕ} {th : Thread} : s.current cpu=some a → s.thread a=some th →
      Effect cpu s .threadYield none (s.leave cpu a {th with state := .ready, resume := .yield})
  | exit {a : ℕ} {th : Thread} : s.current cpu=some a → s.thread a=some th →
      Effect cpu s .threadExit none (s.leave cpu a {th with state := .exited, resume := .exit})
  | sleep {a milliseconds : ℕ} {th : Thread} : s.current cpu=some a → s.thread a=some th →
      Effect cpu s (.threadSleep milliseconds) none
        (s.leave cpu a {th.asleep s.ticks milliseconds with resume := .sleep})
  | procExit {a : ℕ} {status : ℤ} {th : Thread} {pr : Process} : s.current cpu=some a →
      s.thread a=some th → s.proc th.parent=some pr →
      Effect cpu s (.procExit status) none
        ((s.setProc th.parent {pr with state := .exiting, exitStatus := status}).leave cpu a
          {th with state := .exited, resume := .exit})
  | collect {a c : ℕ} {th : Thread} {pr child : Process} : s.current cpu=some a →
      s.thread a=some th → s.proc th.parent=some pr → s.defunctChild pr.pid=some c →
      s.proc c=some child →
      Effect cpu s .procWait (some ⟨a,child.pid,child.exitStatus⟩)
        (s.setProc c {child with state := .truncate})
  | waitForChild {a : ℕ} {th : Thread} {pr : Process} : s.current cpu=some a →
      s.thread a=some th → s.proc th.parent=some pr → s.defunctChild pr.pid=none →
      Effect cpu s .procWait none
        (s.leave cpu a {th with state := .waiting, resume := .procWait})
  | block {a cond : ℕ} {th : Thread} : s.current cpu=some a → s.thread a=some th →
      Effect cpu s (.schedThreadWait cond) none
        (s.leave cpu a {th with state := .blocked, cond := some cond, resume := .wait})
  | notify {a cond : ℕ} {th : Thread} : s.firstBlocked cond=some a → s.thread a=some th →
      Effect cpu s (.schedThreadNotifyOne cond) none
        ((s.setThread a (some {th with state := .ready})).setQueue (a::s.queue))
  | nobody {cond : ℕ} : s.firstBlocked cond=none → Effect cpu s (.schedThreadNotifyOne cond) none s

end Yaos2.Scheduler
