import Yaos2.Scheduler.ThreadMoves

/-! # Mutexes

The spinlock of the mutex and the scheduler lock exclude each other's holders; a thread that holds a
spinlock is not preempted. All else the scheduler does goes on around the mutex. -/
namespace Yaos2.Scheduler
open Foundation Relation Function Option

/-- The functions a thread calls on the mutex. -/
inductive Fn where
  | acquire
  | release
  | condWait
  deriving DecidableEq

/-- For the mutex in `thread_mutex_acquire`, again for it in `thread_cond_wait`, or for the
condition. -/
inductive Why where
  | lock (inWait : Bool)
  | cond
  deriving DecidableEq

inductive Pc where
  /-- In none of the functions. -/
  | idle
  /-- Before `cpu_spinlock_acquire(&(mutex->spinlock))`. -/
  | enter (f : Fn)
  /-- At the start of `unsafe_mutex_acquire`. -/
  | check (inWait : Bool)
  /-- At the test of its loop. -/
  | test (inWait : Bool)
  /-- With the mutex, before it releases the spinlock and returns. -/
  | got (inWait : Bool)
  /-- At `unsafe_mutex_release`. -/
  | clear (inWait : Bool)
  /-- Before `sched_thread_notify_one(&(mutex->wait_cond))`. -/
  | notify (inWait : Bool)
  /-- At the end of `thread_mutex_release`. -/
  | unlock
  /-- In `sched_thread_wait`, before it takes the scheduler lock. -/
  | wait (y : Why)
  /-- With both locks, before it releases the spinlock. -/
  | handOver (y : Why)
  /-- With the scheduler lock only. -/
  | block (y : Why)
  /-- Off the CPU in `reschedule`, or back and without the spinlock. -/
  | asleep (y : Why)
  deriving DecidableEq

structure Conds where
  waitCond : ℕ
  cond : ℕ
  ne : waitCond≠cond

def Why.addr (k : Conds) : Why → ℕ
  | .lock _ => k.waitCond
  | .cond => k.cond

/-- Where the spinlock is first taken. -/
def Fn.entered : Fn → Pc
  | .acquire => .check false
  | .release => .clear false
  | .condWait => .clear true

/-- What follows the notification of the mutex's own condition. -/
def afterNotify (inWait : Bool) : Pc := if inWait then .wait .cond else .unlock

/-- What follows `sched_thread_wait`. -/
def Why.woken : Why → Pc
  | .lock inWait => .test inWait
  | .cond => .check true

/-- The mutex, its threads and the scheduler. From `holds` on the fields are history. -/
structure MutexState where
  sched : Sched
  spinlock : Option ℕ
  locked : Bool
  tid : ℕ
  pc : ℕ → Pc
  holds : ℕ → Bool
  waiting : ℕ → Bool
  acquisitions : ℕ
  acquiredAt : ℕ → ℕ
  releasedAt : ℕ → ℕ

namespace MutexState

def goto (m : MutexState) (a : ℕ) (p : Pc) : MutexState := {m with pc := update m.pc a p}

def unsafeMutexHeld (m : MutexState) (th : Thread) : Bool := m.locked && m.tid == th.tid

def take (m : MutexState) (a : ℕ) (th : Thread) : MutexState :=
  {m with
    locked := true
    tid := th.tid
    holds := update m.holds a true
    acquisitions := m.acquisitions+1
    acquiredAt := update m.acquiredAt a (m.acquisitions+1)}

def drop (m : MutexState) (a : ℕ) (inWait : Bool) : MutexState :=
  {m with
    locked := false
    tid := tidInvalid
    holds := update m.holds a false
    waiting := update m.waiting a inWait
    releasedAt := update m.releasedAt a m.acquisitions}

def after (m : MutexState) (sec : Section) (t : Sched) : MutexState :=
  {m with
    sched := t
    waiting := fun x=>m.waiting x && sec.wakes m.sched≠some x}

def Runs (m : MutexState) (a : ℕ) : Prop := ∃ cpu, m.sched.current cpu=some a

/-- Only the mutex notifies its condition, no other code blocks on the two, a thread with a spinlock
does not yield, and none exits with the mutex. -/
def Allowed (k : Conds) (m : MutexState) (cpu : ℕ) : Section → Prop
  | .threadYield => ∀ a, m.sched.current cpu=some a → m.spinlock≠some a
  | .threadSleep _ | .procWait => ∀ a, m.sched.current cpu=some a → m.pc a=.idle
  | .threadExit | .procExit _ =>
    ∀ a, m.sched.current cpu=some a → m.pc a=.idle ∧ m.holds a=false
  | .schedThreadWait cond => cond≠k.waitCond ∧ cond≠k.cond ∧
    ∀ a, m.sched.current cpu=some a → m.pc a=.idle
  | .schedThreadNotifyOne cond => cond≠k.waitCond
  | _ => True
end MutexState

/-- What happens between sections. -/
inductive Between : Sched → Sched → Prop
  | construct {s : Sched} {a : ℕ} : s.thread a=none → Between s (s.setThread a (some threadConstructEmpty))
  | assignIds {s t : Sched} {th : Thread} (parent : Option ℕ) (p a : ℕ) : s.proc p=none →
      p+1<2^32 → s.thread a=some th → th.state=.new →
      assignIds parent p a s=.ok () t → Between s t
  | assignTid {s t : Sched} {a : ℕ} {th : Thread} : s.thread a=some th → th.state=.new →
      assignTid a s=.ok () t → Between s t
  | preempt {s : Sched} (cpu n : ℕ) : Between s {s with preemptDisabled := update s.preemptDisabled cpu n}
  | tick {s : Sched} : Between s {s with ticks := (s.ticks+1)%2^64}

/-- The steps of the system. A caller without the mutex has a tid of its own: tids are reused. -/
inductive MutexStep (k : Conds) : MutexState → MutexState → Prop
  | locked {m : MutexState} {t : Sched} {r : Option Collected} (sec : Section) (cpu : ℕ) :
      m.sched.globalSchedulerLock=none → sec.Enabled m.sched cpu → m.Allowed k cpu sec →
      sec.run cpu (m.sched.acquire cpu)=.ok r t → MutexStep k m (m.after sec t)
  | between {m : MutexState} {t : Sched} : Between m.sched t → MutexStep k m {m with sched := t}
  | call {m : MutexState} {a : ℕ} (f : Fn) : m.Runs a → m.pc a=.idle → MutexStep k m (m.goto a (.enter f))
  | enter {m : MutexState} {a : ℕ} {f : Fn} : m.Runs a → m.pc a=.enter f → m.spinlock=none →
      MutexStep k m {m.goto a f.entered with spinlock := some a}
  | check {m : MutexState} {a : ℕ} {b : Bool} {th : Thread} : m.pc a=.check b →
      m.sched.thread a=some th → m.unsafeMutexHeld th=false → MutexStep k m (m.goto a (.test b))
  | take {m : MutexState} {a : ℕ} {b : Bool} {th : Thread} : m.pc a=.test b →
      m.sched.thread a=some th → m.locked=false →
      MutexStep k m ((m.take a th).goto a (.got b))
  | taken {m : MutexState} {a : ℕ} {b : Bool} : m.pc a=.test b → m.locked=true →
      MutexStep k m (m.goto a (.wait (.lock b)))
  | wait {m : MutexState} {a : ℕ} {y : Why} (cpu : ℕ) : m.pc a=.wait y →
      m.sched.current cpu=some a → m.sched.globalSchedulerLock=none →
      MutexStep k m {m.goto a (.handOver y) with sched := m.sched.acquire cpu}
  | handOver {m : MutexState} {a : ℕ} {y : Why} : m.pc a=.handOver y →
      MutexStep k m {m.goto a (.block y) with spinlock := none}
  | block {m : MutexState} {a : ℕ} {y : Why} {r : Option Collected} {t : Sched} (cpu : ℕ) :
      m.pc a=.block y → m.sched.current cpu=some a →
      (Section.schedThreadWait (y.addr k)).run cpu m.sched=.ok r t →
      MutexStep k m {m.goto a (.asleep y) with sched := t}
  | woken {m : MutexState} {a : ℕ} {y : Why} : m.Runs a → m.pc a=.asleep y →
      m.spinlock=none → MutexStep k m {m.goto a y.woken with spinlock := some a}
  | clear {m : MutexState} {a : ℕ} {b : Bool} {th : Thread} : m.pc a=.clear b →
      m.sched.thread a=some th → m.tid≠tidInvalid → m.unsafeMutexHeld th=true →
      (m.holds a=true ∨ ∀ x u, m.sched.thread x=some u → u.tid=th.tid → x=a) →
      MutexStep k m ((m.drop a b).goto a (.notify b))
  | notify {m : MutexState} {a : ℕ} {b : Bool} {r : Option Collected} {t : Sched} (cpu : ℕ) :
      m.pc a=.notify b → m.sched.current cpu=some a → m.sched.globalSchedulerLock=none →
      (Section.schedThreadNotifyOne k.waitCond).run cpu (m.sched.acquire cpu)=.ok r t →
      MutexStep k m ((m.after (.schedThreadNotifyOne k.waitCond) t).goto a (afterNotify b))
  | ret {m : MutexState} {a : ℕ} : m.pc a=.unlock ∨ (∃ b, m.pc a=.got b) →
      MutexStep k m {m.goto a .idle with spinlock := none}

/-- At these points the thread holds the spinlock. -/
def Pc.spins : Pc → Bool
  | .check _ | .test _ | .got _ | .clear _ | .notify _ | .unlock | .wait _ | .handOver _ => true
  | _ => false

/-- At these points the thread may hold the mutex. -/
def Pc.mayHold : Pc → Bool
  | .idle | .enter _ | .check _ | .got _ | .clear _ => true
  | _ => false

/-- What the scheduler knows of a thread that is at some point. -/
def Pc.Fits (k : Conds) (th : Thread) : Pc → Prop
  | .idle => True
  | .enter _ => th.state=.ready ∨ th.state=.running
  | .asleep y => th.state=.blocked ∧ th.cond=some (y.addr k) ∨ th.state=.ready ∨ th.state=.running
  | _ => th.state=.running

/-- The threads are where the locks and the scheduler have them. -/
structure Placed (k : Conds) (m : MutexState) : Prop where
  inv : m.sched.Inv
  spin : ∀ x, (m.pc x).spins=true ↔ m.spinlock=some x
  handing : ∀ x y, m.pc x=.handOver y ∨ m.pc x=.block y →
    ∃ cpu, m.sched.globalSchedulerLock=some cpu ∧ m.sched.current cpu=some x
  fits : ∀ x, m.pc x≠.idle → ∃ th, m.sched.thread x=some th ∧ (m.pc x).Fits k th
  blocked : ∀ x th y, m.sched.thread x=some th → th.state=.blocked →
    th.cond=some (Why.addr k y) → ∃ y', m.pc x=.asleep y'

/-- A thread that holds the mutex is alone in that, and the mutex has its tid. -/
structure Owned (m : MutexState) : Prop where
  holder : ∀ x, m.holds x=true → m.locked=true ∧ (m.pc x).mayHold=true ∧
    ∃ th, m.sched.thread x=some th ∧ th.tid=m.tid ∧ th.state≠.new ∧ th.state≠.exited
  single : ∀ x y, m.holds x=true → m.holds y=true → x=y
  held : m.locked=true → ∃ x, m.holds x=true
  returns : ∀ x b, m.pc x=.got b → m.holds x=true

/-- Threads sleep only while the mutex is locked or a notification is due, which does not get lost.
-/
structure Signalled (m : MutexState) : Prop where
  taken : ∀ x b, m.pc x=.wait (.lock b) ∨ m.pc x=.handOver (.lock b) → m.locked=true
  blocking : ∀ x b, m.pc x=.block (.lock b) → m.locked=true ∨ ∃ z b, m.pc z=.notify b
  handoff : m.locked=false →
    (∃ x b th, m.pc x=.asleep (.lock b) ∧ m.sched.thread x=some th ∧ th.state=.blocked) →
    (∃ x b th, m.pc x=.asleep (.lock b) ∧ m.sched.thread x=some th ∧
      (th.state=.ready ∨ th.state=.running)) ∨
    (∃ z b, m.pc z=.notify b) ∨ ∃ z b, m.pc z=.test b

structure MutexInv (k : Conds) (m : MutexState) : Prop where
  placed : Placed k m
  owned : Owned m
  signalled : Signalled m

section

variable {k : Conds} {m m' : MutexState} {a : ℕ} {p : Pc}

variable {th u : Thread} {x cpu : ℕ} {sec : Section} {t s : Sched} {y : Why} {b : Bool}
  {r : Option Collected}

theorem Placed.goto (h : Placed k m) (hinv : m'.sched.Inv)
    (hth : m'.sched.thread=m.sched.thread) (hcur : m'.sched.current=m.sched.current)
    (hpc : m'.pc=update m.pc a p) (hr : ∃ th, m.sched.thread a=some th ∧ th.state=.running)
    (hsp : m'.spinlock=m.spinlock ∧ p.spins=(m.pc a).spins ∨
      m.spinlock=none ∧ m'.spinlock=some a ∧ p.spins=true ∨
      m.spinlock=some a ∧ m'.spinlock=none ∧ p.spins=false)
    (hlc : m'.sched.globalSchedulerLock=m.sched.globalSchedulerLock ∨
      m.sched.globalSchedulerLock=none) (hhn : ∀ y, p=.handOver y ∨ p=.block y →
      ∃ cpu, m'.sched.globalSchedulerLock=some cpu ∧ m.sched.current cpu=some a) :
    Placed k m' := by
  have hpcs : ∀ x, m'.pc x=if x=a then p else m.pc x := fun x=>by
    rw [hpc,update_apply]
  obtain ⟨th,ha,hrun⟩ := hr
  obtain ⟨-,h2,h3,h4,h5⟩ := h
  refine ⟨hinv,fun x=>?_,fun x y hx=>?_,fun x hx=>?_,fun x v y hx hst hcn=>?_⟩
  · grind
  · rw [hcur]
    grind
  · rw [hth]
    by_cases hxa : x=a
    · refine ⟨th,hxa▸ha,?_⟩
      rw [hpcs,if_pos hxa]
      cases p <;> simp [Pc.Fits,hrun]
    · simp_all
  · rw [hth] at hx
    have hxa : x≠a := by
      rintro rfl
      obtain rfl := mem_unique hx ha
      simp [hst] at hrun
    rw [hpcs,if_neg hxa]
    exact h5 x v y hx hst hcn

theorem Placed.state (h : Placed k m) (hx : m.sched.thread x=some th)
    (hpc : m.pc x≠.idle) : th.state=.running ∨ ((m.pc x).spins=false ∧
      (∀ y, m.pc x≠.block y) ∧ (th.state=.ready ∨ th.state=.blocked ∧
        ∃ y, m.pc x=.asleep y ∧ th.cond=some (y.addr k))) := by
  obtain ⟨v,hv,hfit⟩ := h.fits x hpc
  obtain rfl := mem_unique hx hv
  cases hp : m.pc x <;> grind [Pc.Fits,Pc.spins]

/-- A thread leaves the CPU without the spinlock or in none of the functions. -/
def MutexState.LeavesWell (k : Conds) (m : MutexState) (cpu : ℕ) (sec : Section) : Prop :=
  ∀ x st, m.sched.current cpu=some x → sec.leaves=some st →
    st=.ready ∧ m.spinlock≠some x ∨ m.pc x=.idle ∧ (st=.exited → m.holds x=false) ∧
      (st=.blocked → ∃ cond, sec=.schedThreadWait cond ∧ ∀ y, Why.addr k y≠cond) ∧ st≠.new

theorem MutexState.Allowed.leavesWell (hall : m.Allowed k cpu sec) :
    m.LeavesWell k cpu sec := by
  intro x st hc hl
  cases sec <;> simp only [Section.leaves,Option.some.injEq,reduceCtorEq] at hl
  case threadYield => exact .inl ⟨hl.symm,hall x hc⟩
  case threadExit | procExit => exact .inr ⟨(hall x hc).1,fun _=>(hall x hc).2,by simp [← hl]⟩
  case threadSleep | procWait => exact .inr ⟨hall x hc,by simp [← hl]⟩
  case schedThreadWait cond =>
    obtain ⟨hw,hu,hi⟩ := hall
    refine .inr ⟨hi x hc,by simp [← hl],fun _=>⟨cond,rfl,fun y=>?_⟩,by simp [← hl]⟩
    cases y with
    | lock f => exact hw.symm
    | cond => exact hu.symm

theorem MutexState.leavesWell_notify (k : Conds) (m : MutexState) (cpu cond : ℕ) :
    m.LeavesWell k cpu (.schedThreadNotifyOne cond) :=
  fun _ _ _ hl=>by cases hl

theorem MutexState.LeavesWell.blocked (hls : m.LeavesWell k cpu sec)
    (hmo : ThreadMove cpu m.sched sec x th (some u)) (hst : u.state=.blocked) :
    u=th ∧ sec.wakes m.sched≠some x ∨ m.pc x=.idle ∧ ∀ y, u.cond≠some (Why.addr k y) := by
  refine (hmo.blocked hst).imp_right fun ⟨hc,hlv,hcn⟩=>?_
  rcases hls x _ hc hlv with ⟨hrd,-⟩ | ⟨hid,-,hbl,-⟩
  · cases hrd
  · obtain ⟨cond,hsec,hne⟩ := hbl rfl
    exact ⟨hid,fun y hy=>hne y (Option.some.inj (hy.symm.trans (hcn cond hsec)))⟩

theorem Placed.locked (h : Placed k m) (hl : m.sched.globalSchedulerLock=none) (hls : m.LeavesWell k cpu sec)
    (hmv : Moved cpu m.sched sec t) : Placed k (m.after sec t) := by
  have hhn : ∀ x y, ¬ (m.pc x=.handOver y ∨ m.pc x=.block y) := fun x y hx=>by
    obtain ⟨c,hc,-⟩ := h.handing x y hx
    simp [hl] at hc
  refine ⟨hmv.inv,h.spin,fun x y hx=>absurd hx (hhn x y),fun x hx=>?_,fun x u y hu hst hcn=>?_⟩
  · obtain ⟨th,hth,hfit⟩ := h.fits x hx
    have hsa := h.state hth hx
    obtain ⟨u,hu,hmo⟩ := hmv.survives hth (fun hex=>by simp [hex] at hsa)
    refine ⟨u,hu,?_⟩
    change (m.pc x).Fits k u
    cases hmo with
    | same => exact hfit
    | inserted hst | told hst => simp [hst] at hsa
    | started hst hrun => cases m.pc x <;> simp [Pc.Fits,hrun]
    | notified hst hcn hrd =>
      obtain ⟨-,-,hrd' | ⟨-,y,hp,-⟩⟩ := hsa.resolve_left (by simp [hst])
      · simp [hst] at hrd'
      · simp [hp,Pc.Fits,hrd]
    | left hc hlv hst =>
      rcases hls x _ hc hlv with ⟨hrd,hsp⟩ | ⟨hid,-⟩
      · have hnot : (m.pc x).spins=false := by
          rw [Bool.eq_false_iff]
          exact fun hs=>hsp ((h.spin x).mp hs)
        have hbl := hhn x
        rw [hrd] at hst
        cases hp : m.pc x <;> simp_all [Pc.Fits,Pc.spins]
      · exact absurd hid hx
  · change t.thread x=some u at hu
    change ∃ y', m.pc x=.asleep y'
    cases hx : m.sched.thread x with
    | none => simp [hmv.created x u hx hu] at hst
    | some th =>
      rcases hls.blocked (hu▸hmv.move x th hx) hst with ⟨rfl,-⟩ | ⟨-,hne⟩
      · exact h.blocked x u y hx hst hcn
      · exact absurd hcn (hne y)

theorem Between.schedStep (h : Between s t) : SchedStep s t := by
  cases h with
  | construct ha => exact .construct ha
  | assignIds parent p a hp hlt ha hst hrun => exact .assignIds parent p a hp hlt ha hst hrun
  | assignTid ha hst hrun => exact .assignTid ha hst hrun
  | preempt cpu n => exact .preempt cpu n
  | tick => exact .tick

/-- Between sections only threads that are new are made or changed. -/
structure Quiet (s t : Sched) : Prop where
  lock : t.globalSchedulerLock=s.globalSchedulerLock
  current : t.current=s.current
  keeps : ∀ x th, s.thread x=some th → th.state≠.new → t.thread x=some th
  kept : ∀ x u, t.thread x=some u → u.state≠.new → s.thread x=some u

theorem Quiet.of_update (hl : t.globalSchedulerLock=s.globalSchedulerLock)
    (hc : t.current=s.current) (ht : t.thread=update s.thread a (some u))
    (hu : u.state=.new) (ha : ∀ th, s.thread a=some th → th.state=.new) : Quiet s t := by
  have hth : ∀ x, t.thread x=if x=a then some u else s.thread x := fun x=>by
    rw [ht,update_apply]
  refine ⟨hl,hc,fun x th hx hst=>?_,fun x v hx hst=>?_⟩
  · grind
  · grind

theorem Between.quiet (h : Between s t) : Quiet s t := by
  cases h with
  | construct ha => exact .of_update rfl rfl rfl rfl (by simp [ha])
  | @assignIds _ th parent p a hp hlt ha hst hrun =>
    obtain ⟨ppid,rfl⟩ := (assignIds_spec ha).of_ok hrun
    refine .of_update (u := {th with tid := s.nextTid, parent := p}) rfl rfl rfl hst fun v hv=>?_
    exact mem_unique ha hv▸hst
  | @assignTid _ a th ha hst hrun =>
    obtain rfl := (assignTid_spec ha).of_ok hrun
    refine .of_update (u := {th with tid := s.nextTid}) rfl rfl rfl hst fun v hv=>?_
    exact mem_unique ha hv▸hst
  | preempt | tick => exact ⟨rfl,rfl,fun _ _ h _=>h,fun _ _ h _=>h⟩

theorem Placed.between (h : Placed k m) (hinv : t.Inv) (hq : Quiet m.sched t) :
    Placed k {m with sched := t} := by
  refine ⟨hinv,h.spin,fun x y hx=>?_,fun x hx=>?_,fun x u y hu hst hcn=>?_⟩
  · change ∃ cpu, t.globalSchedulerLock=some cpu ∧ t.current cpu=some x
    rw [hq.lock,hq.current]
    exact h.handing x y hx
  · obtain ⟨th,hth,hfit⟩ := h.fits x hx
    have hsa := h.state hth hx
    refine ⟨th,hq.keeps x th hth ?_,hfit⟩
    rintro hnew
    simp [hnew] at hsa
  · exact h.blocked x u y (hq.kept x u hu (by simp [hst])) hst hcn

theorem Placed.block (h : Placed k m) (hpc : m.pc a=.block y)
    (hinv : m'.sched.Inv) (ht : m'.sched.thread=update m.sched.thread a (some u))
    (hst : u.state=.blocked) (hcn : u.cond=some (y.addr k))
    (hpc' : m'.pc=update m.pc a (.asleep y)) (hsn : m'.spinlock=m.spinlock) :
    Placed k m' := by
  have hth : ∀ x, m'.sched.thread x=if x=a then some u else m.sched.thread x := fun x=>by
    rw [ht,update_apply]
  have hpcs : ∀ x, m'.pc x=if x=a then .asleep y else m.pc x := fun x=>by
    rw [hpc',update_apply]
  obtain ⟨ca,hla,hca⟩ := h.handing a y (.inr hpc)
  refine ⟨hinv,fun x=>?_,fun x z hx=>?_,fun x hx=>?_,fun x v z hv hst' hcn'=>?_⟩
  · rw [hsn,← h.spin x,hpcs]
    by_cases hxa : x=a
    · simp [hxa,hpc,Pc.spins]
    · rw [if_neg hxa]
  · -- only one thread is between the two locks
    rw [hpcs] at hx
    by_cases hxa : x=a
    · simp [hxa] at hx
    · rw [if_neg hxa] at hx
      obtain ⟨cx,hlx,hcx⟩ := h.handing x z hx
      obtain rfl := mem_unique hla hlx
      exact absurd (mem_unique hcx hca) hxa
  · rw [hpcs] at hx ⊢
    rw [hth]
    by_cases hxa : x=a
    · simp [hxa,Pc.Fits,hst,hcn]
    · rw [if_neg hxa] at hx ⊢
      rw [if_neg hxa]
      exact h.fits x hx
  · rw [hpcs]
    rw [hth] at hv
    by_cases hxa : x=a
    · exact ⟨y,if_pos hxa⟩
    · rw [if_neg hxa] at hv ⊢
      exact h.blocked x v z hv hst' hcn'

theorem Placed.eq_of_spins (h : Placed k m) (ha : (m.pc a).spins=true) (hx : (m.pc x).spins=true) : x=a :=
  mem_unique ((h.spin x).mp hx) ((h.spin a).mp ha)

namespace Owned

section
variable (h : Owned m)
include h
theorem goto (hth : m'.sched.thread=m.sched.thread)
    (hlc : m'.locked=m.locked) (htid : m'.tid=m.tid) (hhl : m'.holds=m.holds)
    (hpc : m'.pc=update m.pc a p) (hmay : m.holds a=true → p.mayHold=true)
    (hret : ∀ b, p=.got b → m.holds a=true) : Owned m' := by
  have hpcs : ∀ x, m'.pc x=if x=a then p else m.pc x := fun x=>by
    rw [hpc,update_apply]
  obtain ⟨h1,h2,h3,h4⟩ := h
  refine ⟨fun x hx=>?_,hhl▸h2,hlc▸hhl▸h3,fun x b hx=>?_⟩
  · rw [hhl] at hx
    obtain ⟨hl,hm,hrs⟩ := h1 x hx
    rw [hlc,hth,htid,hpcs]
    refine ⟨hl,?_,hrs⟩
    by_cases hxa : x=a
    · rw [if_pos hxa]
      exact hmay (hxa▸hx)
    · rwa [if_neg hxa]
  · rw [hpcs] at hx
    rw [hhl]
    by_cases hxa : x=a
    · rw [if_pos hxa] at hx
      exact hxa▸hret b hx
    · rw [if_neg hxa] at hx
      exact h4 x b hx

theorem threads (hlc : m'.locked=m.locked) (htid : m'.tid=m.tid) (hhl : m'.holds=m.holds) (hpc : m'.pc=m.pc)
    (hth : ∀ x th, m.holds x=true → m.sched.thread x=some th → th.state≠.new →
      th.state≠.exited → ∃ u, m'.sched.thread x=some u ∧ u.tid=th.tid ∧ u.state≠.new ∧
        u.state≠.exited) : Owned m' := by
  obtain ⟨h1,h2,h3,h4⟩ := h
  refine ⟨fun x hx=>?_,hhl▸h2,hlc▸hhl▸h3,hpc▸hhl▸h4⟩
  rw [hhl] at hx
  obtain ⟨hl,hm,th,ht,hid,hnew,hex⟩ := h1 x hx
  obtain ⟨u,hu,huid,hst⟩ := hth x th hx ht hnew hex
  rw [hlc,htid,hpc]
  exact ⟨hl,hm,u,hu,huid.trans hid,hst⟩

theorem locked (hlv : m.LeavesWell k cpu sec) (hmv : Moved cpu m.sched sec t) : Owned (m.after sec t) := by
  refine h.threads rfl rfl rfl rfl fun x th hx hth hnew hex=>?_
  obtain ⟨u,hu,hmo⟩ := hmv.survives hth hex
  refine ⟨u,hu,?_⟩
  cases hmo with
  | same => exact ⟨rfl,hnew,hex⟩
  | inserted hn => exact absurd hn hnew
  | started _ hst htid | told _ hst htid | notified _ _ hst htid => simp [htid,hst]
  | left hc hle hst htid =>
    subst hst
    rcases hlv x _ hc hle with ⟨hrd,-⟩ | ⟨-,hei,-,hnw⟩
    · simp [htid,hrd]
    · simp_all

theorem between (hq : Quiet m.sched t) : Owned {m with sched := t} :=
  h.threads rfl rfl rfl rfl fun x th _ hth hnew hex=>⟨th,hq.keeps x th hth hnew,rfl,hnew,hex⟩

theorem take (hfr : m.locked=false) (ha : m.sched.thread a=some th) (hrun : th.state=.running) :
    Owned ((m.take a th).goto a (.got b)) := by
  have hnn : ∀ x, m.holds x=false := fun x=>by
    rw [Bool.eq_false_iff]
    intro hx
    simp [(h.holder x hx).1] at hfr
  have hhl : ∀ x, (m.take a th).holds x=true ↔ x=a := fun x=>by
    simp [MutexState.take,update_apply,hnn]
  refine ⟨fun x hx=>?_,fun x y hx hy=>?_,fun _=>⟨a,(hhl a).mpr rfl⟩,fun x c hx=>?_⟩
  · simp_all [MutexState.take,MutexState.goto,Pc.mayHold]
  · rw [(hhl x).mp hx,(hhl y).mp hy]
  · apply (hhl x).mpr
    by_contra hxa
    simp only [MutexState.goto,update_of_ne hxa] at hx
    exact Bool.eq_false_iff.mp (hnn x) (h.returns x c hx)

theorem holds_of_held (hhl : m.unsafeMutexHeld th=true)
    (hown : m.holds a=true ∨ ∀ b u, m.sched.thread b=some u → u.tid=th.tid → b=a) :
    m.holds a=true := by
  rcases hown with hold | hown
  · exact hold
  · simp only [MutexState.unsafeMutexHeld,Bool.and_eq_true,beq_iff_eq] at hhl
    obtain ⟨x,hx⟩ := h.held hhl.1
    obtain ⟨-,-,u,hu,hid,-⟩ := h.holder x hx
    obtain rfl := hown x u hu (hid.trans hhl.2)
    exact hx

theorem drop (hold : m.holds a=true) : Owned ((m.drop a b).goto a (.notify b)) := by
  have hn : ∀ x, (m.drop a b).holds x≠true := fun x hx=>by
    by_cases hxa : x=a
    · simp [MutexState.drop,hxa] at hx
    · simp only [MutexState.drop,update_of_ne hxa] at hx
      exact hxa (h.single x a hx hold)
  refine ⟨fun x hx=>absurd hx (hn x),fun x y hx=>absurd hx (hn x),fun hl=>?_,fun x c hx=>?_⟩
  · cases hl
  · by_cases hxa : x=a
    · simp [MutexState.goto,hxa] at hx
    · simp only [MutexState.goto,update_of_ne hxa] at hx
      exact absurd (h.single x a (h.returns x c hx) hold) hxa
end

end Owned

namespace Signalled

theorem goto (h : Signalled m) (hth : m'.sched.thread=m.sched.thread)
    (hlc : m'.locked=m.locked) (hpc : m'.pc=update m.pc a p)
    (hwt : ∀ b, p=.wait (.lock b) ∨ p=.handOver (.lock b) ∨ p=.block (.lock b) →
      m.locked=true) (haw : ∀ y, p≠.asleep y) (hnt : ∀ b, m.pc a≠.notify b)
    (hway : m.locked=true ∨ (∃ b, p=.test b) ∨
      (∀ b, m.pc a≠.test b) ∧ ∀ b, m.pc a≠.asleep (.lock b)) : Signalled m' := by
  have hpcs : ∀ x, m'.pc x=if x=a then p else m.pc x := fun x=>by
    rw [hpc,update_apply]
  have hot : ∀ {z q}, m.pc z=q → m.pc a≠q → m'.pc z=q := fun {z q} hz hq=>by
    have hza : z≠a := fun hza=>hq (hza▸hz)
    rw [hpcs,if_neg hza,hz]
  obtain ⟨h1,h2,h3⟩ := h
  refine ⟨fun x b hx=>?_,fun x b hx=>?_,fun hfr hbl=>?_⟩
  · grind
  · rw [hlc]
    by_cases hxa : x=a
    · rw [hpcs,if_pos hxa] at hx
      exact .inl (hwt b (.inr (.inr hx)))
    · rw [hpcs,if_neg hxa] at hx
      refine (h2 x b hx).imp_right fun ⟨z,c,hz⟩=>?_
      exact ⟨z,c,hot hz (hnt c)⟩
  · rw [hlc] at hfr
    rw [hth]
    obtain ⟨x,b,th,hx,hst⟩ := hbl
    rw [hth] at hst
    have hxa : x≠a := by
      rintro rfl
      rw [hpcs,if_pos rfl] at hx
      exact haw _ hx
    rw [hpcs,if_neg hxa] at hx
    rcases hway with hl | ⟨c,hts⟩ | ⟨hts,has⟩
    · simp [hl] at hfr
    · exact .inr (.inr ⟨a,c,by rw [hpcs,if_pos rfl,hts]⟩)
    · rcases h3 hfr ⟨x,b,th,hx,hst⟩ with ⟨z,c,u,hz,hu⟩ | ⟨z,c,hz⟩ | ⟨z,c,hz⟩
      · exact .inl ⟨z,c,u,hot hz (has c),hu⟩
      · exact .inr (.inl ⟨z,c,hot hz (hnt c)⟩)
      · exact .inr (.inr ⟨z,c,hot hz (hts c)⟩)

theorem of_locked (hl : m'.locked=true) : Signalled m' :=
  ⟨fun _ _ _=>hl,fun _ _ _=>.inl hl,fun hf=>by simp [hl] at hf⟩

theorem drop (h : Placed k m) (hpc : m.pc a=.clear b) : Signalled ((m.drop a b).goto a (.notify b)) := by
  have hnx : ((m.drop a b).goto a (.notify b)).pc a=.notify b := update_self ..
  refine ⟨fun x c hx=>?_,fun _ _ _=>.inr ⟨a,b,hnx⟩,fun _ _=>.inr (.inl ⟨a,b,hnx⟩)⟩
  -- no other thread holds the spinlock
  have hxa : x≠a := by
    rintro rfl
    simp [hnx] at hx
  simp only [MutexState.goto,MutexState.drop,update_of_ne hxa] at hx
  refine absurd (h.eq_of_spins (by simp [hpc,Pc.spins]) ?_) hxa
  rcases hx with hx | hx <;> simp [hx,Pc.spins]

theorem threads (h : Signalled m) (hlc : m'.locked=m.locked) (hpc : m'.pc=m.pc)
    (hbc : ∀ x b u, m.pc x=.asleep (.lock b) → m'.sched.thread x=some u →
      u.state=.blocked → ∃ th, m.sched.thread x=some th ∧ th.state=.blocked)
    (hfr : ∀ x b th, m.pc x=.asleep (.lock b) → m.sched.thread x=some th →
      th.state=.ready ∨ th.state=.running →
      ∃ u, m'.sched.thread x=some u ∧ (u.state=.ready ∨ u.state=.running)) :
    Signalled m' := by
  obtain ⟨h1,h2,h3⟩ := h
  refine ⟨hpc▸hlc▸h1,hpc▸hlc▸h2,fun hfe ⟨x,b,u,hx,hu,hst⟩=>?_⟩
  rw [hpc] at hx ⊢
  obtain ⟨th,hth,hbl⟩ := hbc x b u hx hu hst
  apply (h3 (hlc▸hfe) ⟨x,b,th,hx,hth,hbl⟩).imp_left
  rintro ⟨z,c,v,hz,hv,hway⟩
  obtain ⟨w,hw,hway'⟩ := hfr z c v hz hv hway
  exact ⟨z,c,w,hz,hw,hway'⟩

theorem locked (h : Signalled m) (hp : Placed k m) (hl : m.sched.globalSchedulerLock=none)
    (hls : m.LeavesWell k cpu sec) (hmv : Moved cpu m.sched sec t) :
    Signalled (m.after sec t) := by
  have hbl : ∀ {x b th u}, m.pc x=.asleep (.lock b) → m.sched.thread x=some th → t.thread x=some u →
      u.state=.blocked → th.state=.blocked := by
    intro x b th u hx hth hu hst
    rcases hls.blocked (hu▸hmv.move x th hth) hst with ⟨rfl,-⟩ | ⟨hid,-⟩
    · exact hst
    · simp [hx] at hid
  refine h.threads rfl rfl (fun x b u hx hu hst=>?_) fun x b th hx hth hway=>?_
  · obtain ⟨th,hth,-⟩ := hp.fits x (by simp [hx])
    exact ⟨th,hth,hbl hx hth hu hst⟩
  · obtain ⟨u,hu,hfit⟩ := (hp.locked hl hls hmv).fits x (by simp [MutexState.after,hx])
    refine ⟨u,hu,?_⟩
    rw [show (m.after sec t).pc x=.asleep (.lock b) from hx] at hfit
    rcases hfit with ⟨hst,-⟩ | hst
    · simp [hbl hx hth hu hst] at hway
    · exact hst

theorem between (h : Signalled m) (hq : Quiet m.sched t) : Signalled {m with sched := t} := by
  refine h.threads rfl rfl (fun x b u hx hu hst=>?_) fun x b th hx hth hway=>?_
  · exact ⟨u,hq.kept x u hu (by simp [hst]),hst⟩
  · exact ⟨th,hq.keeps x th hth (by rcases hway with h | h <;> simp [h]),hway⟩

theorem block (h : Signalled m) (hpc : m.pc a=.block y)
    (ht : m'.sched.thread=update m.sched.thread a (some u))
    (hpc' : m'.pc=update m.pc a (.asleep y)) (hlc : m'.locked=m.locked) :
    Signalled m' := by
  have hth : ∀ x, m'.sched.thread x=if x=a then some u else m.sched.thread x := fun x=>by
    rw [ht,update_apply]
  have hpcs : ∀ x, m'.pc x=if x=a then .asleep y else m.pc x := fun x=>by
    rw [hpc',update_apply]
  have hot : ∀ {z q}, m.pc z=q → (∀ y, q≠.block y) → z≠a ∧ m'.pc z=q := by
    intro z q hz hq
    have hza : z≠a := by
      rintro rfl
      exact hq y (hz.symm.trans hpc)
    exact ⟨hza,by rw [hpcs,if_neg hza,hz]⟩
  obtain ⟨h1,h2,h3⟩ := h
  refine ⟨fun x b hx=>?_,fun x b hx=>?_,fun hfr ⟨x,b,v,hx,hv,hbl⟩=>?_⟩
  · have hxa : x≠a := by
      rintro rfl
      simp [hpcs] at hx
    rw [hpcs,if_neg hxa] at hx
    exact hlc▸h1 x b hx
  · have hxa : x≠a := by
      rintro rfl
      simp [hpcs] at hx
    rw [hpcs,if_neg hxa] at hx
    rw [hlc]
    exact (h2 x b hx).imp_right fun ⟨z,c,hz⟩=>⟨z,c,(hot hz (by simp)).2⟩
  · rw [hlc] at hfr
    by_cases hxa : x=a
    · -- it went to sleep while a notification was due
      rw [hpcs,if_pos hxa,Pc.asleep.injEq] at hx
      subst hx
      rcases h2 a b hpc with hl | ⟨z,c,hz⟩
      · simp [hl] at hfr
      · exact .inr (.inl ⟨z,c,(hot hz (by simp)).2⟩)
    · rw [hpcs,if_neg hxa] at hx
      rw [hth,if_neg hxa] at hv
      rcases h3 hfr ⟨x,b,v,hx,hv,hbl⟩ with ⟨z,c,w,hz,hw,hway⟩ | ⟨z,c,hz⟩ | ⟨z,c,hz⟩
      · obtain ⟨hza,hz'⟩ := hot hz (by simp)
        exact .inl ⟨z,c,w,hz',by rw [hth,if_neg hza,hw],hway⟩
      · exact .inr (.inl ⟨z,c,(hot hz (by simp)).2⟩)
      · exact .inr (.inr ⟨z,c,(hot hz (by simp)).2⟩)
end Signalled

section
variable (h : Placed k m) (hx : m.sched.thread x=some th) (hst : th.state=.blocked)
include h hx hst
theorem Placed.asleep (hc : th.cond=some (y.addr k)) :
    ∃ y', m.pc x=.asleep y' ∧ y'.addr k=y.addr k := by
  obtain ⟨y',hy⟩ := h.blocked x th y hx hst hc
  obtain ⟨v,hv,hfit⟩ := h.fits x (by simp [hy])
  obtain rfl := mem_unique hx hv
  rw [hy,Pc.Fits,hst,hc,Option.some.injEq] at hfit
  refine ⟨y',hy,?_⟩
  simpa [eq_comm] using hfit

theorem Placed.asleep_lock (hc : th.cond=some k.waitCond) : ∃ b, m.pc x=.asleep (.lock b) := by
  obtain ⟨y,hy,ha⟩ := h.asleep (y := .lock false) hx hst hc
  cases y with
  | lock b => exact ⟨b,hy⟩
  | cond => exact absurd ha.symm k.ne
end

theorem Signalled.notify (hp : Placed k m) (hpc : m.pc a=.notify b) (hl : m.sched.globalSchedulerLock=none)
    (hmv : Moved cpu m.sched (.schedThreadNotifyOne k.waitCond) t) :
    Signalled ((m.after (.schedThreadNotifyOne k.waitCond) t).goto a (afterNotify b)) := by
  have hpcs : ∀ x, ((m.after (.schedThreadNotifyOne k.waitCond) t).goto a (afterNotify b)).pc x =
      if x=a then afterNotify b else m.pc x := fun x=>update_apply ..
  refine ⟨fun x c hx=>?_,fun x c hx=>?_,fun _ ⟨x,c,u,hx,hu,hst⟩=>.inl ?_⟩
  · rw [hpcs] at hx
    by_cases hxa : x=a
    · cases b <;> simp [hxa,afterNotify] at hx
    · rw [if_neg hxa] at hx
      refine absurd (hp.eq_of_spins (by simp [hpc,Pc.spins]) ?_) hxa
      rcases hx with hx | hx <;> simp [hx,Pc.spins]
  · rw [hpcs] at hx
    by_cases hxa : x=a
    · cases b <;> simp [hxa,afterNotify] at hx
    · rw [if_neg hxa] at hx
      obtain ⟨cpu',hlc,-⟩ := hp.handing x _ (.inr hx)
      simp [hl] at hlc
  · change t.thread x=some u at hu
    rw [hpcs] at hx
    by_cases hxa : x=a
    · cases b <;> simp [hxa,afterNotify] at hx
    · rw [if_neg hxa] at hx
      -- it was asleep before the scan, so the scan has found a thread
      obtain ⟨th,hth,hfit⟩ := hp.fits x (by simp [hx])
      rcases (hu▸hmv.move x th hth).blocked hst with ⟨rfl,-⟩ | ⟨-,hlv,-⟩
      · have hcn : u.cond=some k.waitCond := by simpa [hx,Pc.Fits,hst,Why.addr] using hfit
        obtain ⟨y,hy⟩ := hp.inv.firstBlocked hth hst hcn
        obtain ⟨v,hv,hvst,hvc⟩ := Sched.firstBlocked_some hy
        obtain ⟨d,hd⟩ := hp.asleep_lock hv hvst hvc
        obtain ⟨w,hw,hrd⟩ := hmv.notified hy
        have hya : y≠a := by
          rintro rfl
          simp [hpc] at hd
        exact ⟨y,d,w,by rw [hpcs,if_neg hya,hd],hw,.inl hrd⟩
      · cases hlv

theorem Placed.running (h : Placed k m) (hpc : (m.pc a).spins=true ∨ ∃ y, m.pc a=.block y) :
    ∃ th, m.sched.thread a=some th ∧ th.state=.running := by
  have hid : m.pc a≠.idle := by
    intro hid
    rcases hpc with hs | ⟨y,hy⟩
    · simp [hid,Pc.spins] at hs
    · simp [hid] at hy
  obtain ⟨th,hth,-⟩ := h.fits a hid
  refine ⟨th,hth,?_⟩
  rcases h.state hth hid with hrun | ⟨hs,hb,-⟩
  · exact hrun
  · simp_all

theorem Placed.runs (h : Placed k m) (hr : m.Runs a) : ∃ th, m.sched.thread a=some th ∧ th.state=.running := by
  obtain ⟨cpu,hc⟩ := hr
  exact h.inv.current hc

theorem MutexInv.goto (h : MutexInv k m) (hr : ∃ th, m.sched.thread a=some th ∧ th.state=.running)
    (hsp : o=m.spinlock ∧ p.spins=(m.pc a).spins ∨ m.spinlock=none ∧ o=some a ∧
      p.spins=true ∨ m.spinlock=some a ∧ o=none ∧ p.spins=false)
    (hhn : ∀ y, p=.handOver y ∨ p=.block y → m.pc a=.handOver y)
    (hmay : m.holds a=true → p.mayHold=true) (hgot : ∀ b, p≠.got b)
    (hwt : ∀ b, p=.wait (.lock b) ∨ p=.handOver (.lock b) ∨ p=.block (.lock b) →
      m.locked=true) (haw : ∀ y, p≠.asleep y) (hnt : ∀ b, m.pc a≠.notify b)
    (hway : m.locked=true ∨ (∃ b, p=.test b) ∨ (∀ b, m.pc a≠.test b) ∧ ∀ b, m.pc a≠.asleep (.lock b)) :
    MutexInv k {m.goto a p with spinlock := o} := by
  refine ⟨h.placed.goto h.placed.inv rfl rfl rfl hr hsp (.inl rfl) ?_,
    h.owned.goto rfl rfl rfl rfl rfl hmay fun b hb=>absurd hb (hgot b),
    h.signalled.goto rfl rfl rfl hwt haw hnt hway⟩
  intro y hy
  exact h.placed.handing a y (.inl (hhn y hy))

theorem Owned.not_holds (h : Owned m) (ha : m.sched.thread a=some th)
    (hhl : m.unsafeMutexHeld th=false) : m.holds a=false := by
  rw [Bool.eq_false_iff]
  intro hold
  obtain ⟨hl,-,v,hv,hid,-⟩ := h.holder a hold
  obtain rfl := mem_unique ha hv
  simp [MutexState.unsafeMutexHeld,hl,← hid] at hhl

theorem Owned.not_holds_of_pc (h : Owned m) (hpc : (m.pc a).mayHold=false) : m.holds a=false := by
  rw [Bool.eq_false_iff]
  intro hold
  simp [(h.holder a hold).2.1] at hpc

theorem Placed.blocks (h : Placed k m) (hpc : m.pc a=.block y) (hc : m.sched.current cpu=some a)
    (hrun : (Section.schedThreadWait (y.addr k)).run cpu m.sched=.ok r t) :
    t.Inv ∧ ∃ u, t.thread=update m.sched.thread a (some u) ∧ u.state=.blocked ∧
      u.cond=some (y.addr k) := by
  obtain ⟨ca,hlc,hca⟩ := h.handing a y (.inr hpc)
  obtain rfl := h.inv.ordered.oneCpu ca cpu a hca hc
  have hen : (Section.schedThreadWait (y.addr k)).Enabled m.sched ca := by simp [Section.Enabled,hc]
  have hrel := ((Section.schedThreadWait (y.addr k)).effect h.inv hlc hen).of_ok hrun
  refine ⟨(hrel.moved h.inv hen).inv,?_⟩
  obtain ⟨t',heff,rfl⟩ := hrel
  cases heff with
  | @block b _ th hb hth =>
    obtain rfl := mem_unique hc hb
    exact ⟨{th with state := .blocked, cond := some (y.addr k), resume := .wait},rfl,rfl,rfl⟩

theorem MutexInv.block (h : MutexInv k m) (hpc : m.pc a=.block y) (hc : m.sched.current cpu=some a)
    (hrun : (Section.schedThreadWait (y.addr k)).run cpu m.sched=.ok r t) :
    MutexInv k {m.goto a (.asleep y) with sched := t} := by
  obtain ⟨hp,ho,hs⟩ := h
  obtain ⟨hinv,u,ht,hst,hcn⟩ := hp.blocks hpc hc hrun
  have hold := ho.not_holds_of_pc (a := a) (by simp [hpc,Pc.mayHold])
  refine ⟨hp.block hpc hinv ht hst hcn rfl rfl,?_,hs.block hpc ht rfl rfl⟩
  have hgn : Owned (m.goto a (.asleep y)) := ho.goto rfl rfl rfl rfl rfl (by simp [hold]) (by simp)
  refine hgn.threads rfl rfl rfl rfl fun x v hx hv hnew hex=>?_
  have hxa : x≠a := by
    rintro rfl
    simp [MutexState.goto,hold] at hx
  exact ⟨v,(congrFun ht x).trans ((update_of_ne hxa _ _).trans hv),rfl,hnew,hex⟩

theorem MutexInv.notify (h : MutexInv k m) (hpc : m.pc a=.notify b) (hl : m.sched.globalSchedulerLock=none)
    (hrun : (Section.schedThreadNotifyOne k.waitCond).run cpu (m.sched.acquire cpu)=.ok r t) :
    MutexInv k ((m.after (.schedThreadNotifyOne k.waitCond) t).goto a (afterNotify b)) := by
  obtain ⟨hp,ho,hs⟩ := h
  have hmv := Section.moved hp.inv (by trivial) hrun
  have hlv := MutexState.leavesWell_notify k m cpu k.waitCond
  have hsp : (m.pc a).spins=true := by simp [hpc,Pc.spins]
  obtain ⟨th,ha,hst⟩ := hp.running (.inl hsp)
  have hold := ho.not_holds_of_pc (a := a) (by simp [hpc,Pc.mayHold])
  refine ⟨?_,?_,.notify hp hpc hl hmv⟩
  · refine (hp.locked hl hlv hmv).goto hmv.inv rfl rfl rfl ⟨th,hmv.running rfl ha hst,hst⟩ (.inl ⟨rfl,?_⟩) (.inl rfl) ?_
    · cases b <;> exact hsp.symm
    · cases b <;> simp [afterNotify]
  · refine (ho.locked hlv hmv).goto rfl rfl rfl rfl rfl ?_ ?_
    · exact fun hold'=>absurd hold' (by simp [MutexState.after,hold])
    · cases b <;> simp [afterNotify]

theorem MutexStep.inv (h : MutexInv k m) (hst : MutexStep k m m') : MutexInv k m' := by
  have ⟨hp,ho,hs⟩ := h
  cases hst with
  | @locked t r sec cpu hl hen hall hrun =>
    have hmv := Section.moved hp.inv hen hrun
    have hlv := hall.leavesWell
    exact ⟨hp.locked hl hlv hmv,ho.locked hlv hmv,hs.locked hp hl hlv hmv⟩
  | @between t hb =>
    have hq := hb.quiet
    exact ⟨hp.between (hb.schedStep.inv hp.inv) hq,ho.between hq,hs.between hq⟩
  | @call a f hrn hpc =>
    refine h.goto (hp.runs hrn) (.inl ⟨rfl,?_⟩) ?_ ?_ ?_ ?_ ?_ ?_ (.inr (.inr ?_)) <;>
      simp [hpc,Pc.spins,Pc.mayHold]
  | @enter a f hrn hpc hfr =>
    refine h.goto (hp.runs hrn) (.inr (.inl ⟨hfr,rfl,?_⟩)) ?_ ?_ ?_ ?_ ?_ ?_
      (.inr (.inr ?_)) <;> cases f <;> simp [hpc,Fn.entered,Pc.spins,Pc.mayHold]
  | @check a b th hpc ha hhl =>
    have hold := ho.not_holds ha hhl
    refine h.goto (hp.running (.inl ?_)) (.inl ⟨rfl,?_⟩) ?_ ?_ ?_ ?_ ?_ ?_ (.inr (.inl ⟨b,rfl⟩)) <;>
      simp [hpc,Pc.spins,hold]
  | @take a b th hpc ha hfr =>
    have hr := hp.running (a := a) (.inl (by simp [hpc,Pc.spins]))
    have ⟨v,hv,hrun⟩ := hr
    obtain rfl := mem_unique ha hv
    refine ⟨?_,ho.take hfr ha hrun,.of_locked rfl⟩
    exact hp.goto hp.inv rfl rfl rfl hr (.inl ⟨rfl,by simp [hpc,Pc.spins]⟩) (.inl rfl) (by simp)
  | @taken a b hpc hl =>
    have hold := ho.not_holds_of_pc (a := a) (by simp [hpc,Pc.mayHold])
    refine h.goto (hp.running (.inl ?_)) (.inl ⟨rfl,?_⟩) ?_ ?_ ?_ ?_ ?_ ?_ (.inl hl) <;>
      simp [hpc,Pc.spins,hold,hl]
  | @wait a y cpu hpc hc hl =>
    have hold := ho.not_holds_of_pc (a := a) (by simp [hpc,Pc.mayHold])
    have hacq : (m.sched.acquire cpu).Inv := hp.inv.of_eq rfl rfl rfl rfl rfl rfl
    refine ⟨?_,ho.goto rfl rfl rfl rfl rfl (by simp [hold]) (by simp),?_⟩
    · exact hp.goto hacq rfl rfl rfl (hp.runs ⟨cpu,hc⟩) (.inl ⟨rfl,by simp [hpc,Pc.spins]⟩) (.inr hl)
        fun _ _=>⟨cpu,rfl,hc⟩
    · refine hs.goto rfl rfl rfl ?_ (by simp) (by simp [hpc]) (.inr (.inr (by simp [hpc])))
      rintro b (he | he | he) <;> cases he
      exact hs.taken a b (.inl hpc)
  | @handOver a y hpc =>
    have hsp : (m.pc a).spins=true := by simp [hpc,Pc.spins]
    have hold := ho.not_holds_of_pc (a := a) (by simp [hpc,Pc.mayHold])
    refine h.goto (hp.running (.inl hsp)) (.inr (.inr ⟨(hp.spin a).mp hsp,rfl,rfl⟩)) ?_ ?_ ?_ ?_ ?_ ?_
      (.inr (.inr ?_))
    case refine_4 =>
      rintro b (he | he | he) <;> cases he
      exact hs.taken a b (.inr hpc)
    all_goals simp [hpc,hold]
  | @block a y r t cpu hpc hc hrun => exact h.block hpc hc hrun
  | @woken a y hrn hpc hfr =>
    have hold := ho.not_holds_of_pc (a := a) (by simp [hpc,Pc.mayHold])
    cases y with
    | lock b =>
      refine h.goto (hp.runs hrn) (.inr (.inl ⟨hfr,rfl,rfl⟩)) ?_ ?_ ?_ ?_ ?_ ?_
        (.inr (.inl ⟨b,rfl⟩)) <;> simp [hpc,Why.woken,hold]
    | cond =>
      refine h.goto (hp.runs hrn) (.inr (.inl ⟨hfr,rfl,rfl⟩)) ?_ ?_ ?_ ?_ ?_ ?_
        (.inr (.inr ?_)) <;> simp [hpc,Why.woken,hold]
  | @clear a b th hpc ha htid hhl hown =>
    refine ⟨?_,ho.drop (ho.holds_of_held hhl hown),.drop hp hpc⟩
    exact hp.goto hp.inv rfl rfl rfl (hp.running (.inl (by simp [hpc,Pc.spins])))
      (.inl ⟨rfl,by simp [hpc,Pc.spins]⟩) (.inl rfl) (by simp)
  | @notify a b r t cpu hpc hc hl hrun => exact h.notify hpc hl hrun
  | @ret a hpc =>
    have hsp : (m.pc a).spins=true := by rcases hpc with hpc | ⟨b,hpc⟩ <;> simp [hpc,Pc.spins]
    refine h.goto (hp.running (.inl hsp)) (.inr (.inr ⟨(hp.spin a).mp hsp,rfl,rfl⟩)) ?_ ?_ ?_
      ?_ ?_ ?_ (.inr (.inr ?_)) <;> rcases hpc with hpc | ⟨b,hpc⟩ <;> simp [hpc,Pc.mayHold]
end

/-- The mutex as `thread_mutex_create` makes it. -/
def threadMutexCreate (s : Sched) : MutexState where
  sched := s
  spinlock := none
  locked := false
  tid := tidInvalid
  pc _ := .idle
  holds _ := false
  waiting _ := false
  acquisitions := 0
  acquiredAt _ := 0
  releasedAt _ := 0

/-- The states from the creation of the mutex on, at which no thread is blocked on the conditions.
-/
def MutexReachable (k : Conds) (m : MutexState) : Prop := ∃ s, Reachable s ∧
    (∀ x th, s.thread x=some th → th.state=.blocked → th.cond≠some k.waitCond ∧ th.cond≠some k.cond) ∧
    ReflTransGen (MutexStep k) (threadMutexCreate s) m

variable {k : Conds} {m : MutexState}

theorem MutexReachable.inv (h : MutexReachable k m) : MutexInv k m := by
  obtain ⟨s,hs,hfr,hrun⟩ := h
  refine Reaches.invariant hrun ?_ fun _ _ hm hsp=>hsp.inv hm
  refine ⟨⟨hs.inv,?_,?_,?_,?_⟩,⟨?_,?_,?_,?_⟩,⟨?_,?_,?_⟩⟩ <;>
    simp [threadMutexCreate,Pc.spins]
  intro x th y hx hst hcn
  cases y with
  | lock b => exact (hfr x th hx hst).1 hcn
  | cond => exact (hfr x th hx hst).2 hcn

/-- One thread at most holds the mutex, which has its tid, and no wake-up is lost. -/
structure MutexSound (k : Conds) (m : MutexState) : Prop where
  exclusive : ∀ a b, m.holds a=true → m.holds b=true → a=b
  tid : ∀ a, m.holds a=true → m.locked=true ∧ ∃ th, m.sched.thread a=some th ∧ m.tid=th.tid
  acquired : ∀ a b, m.pc a=.got b → m.holds a=true
  wakeup : m.locked=false → m.spinlock=none →
    (∃ a th, m.sched.thread a=some th ∧ th.state=.blocked ∧ th.cond=some k.waitCond) →
    ∃ a th b, m.sched.thread a=some th ∧ (th.state=.ready ∨ th.state=.running) ∧ m.pc a=.asleep (.lock b)

theorem mutex_sound (h : MutexReachable k m) : MutexSound k m := by
  obtain ⟨hp,ho,hs⟩ := h.inv
  refine ⟨ho.single,fun a ha=>?_,ho.returns,fun hfr hsp ⟨a,th,ha,hst,hcn⟩=>?_⟩
  · obtain ⟨hl,-,th,hth,hid,-⟩ := ho.holder a ha
    exact ⟨hl,th,hth,hid.symm⟩
  · -- a thread at `notify` or `test` would hold the spinlock
    have hno : ∀ x, (m.pc x).spins=false := fun x=>by
      rw [Bool.eq_false_iff]
      intro hx
      simpa [hsp] using (hp.spin x).mp hx
    obtain ⟨b,hb⟩ := hp.asleep_lock ha hst hcn
    rcases hs.handoff hfr ⟨a,b,th,hb,ha,hst⟩ with ⟨x,c,u,hx,hu,hway⟩ | ⟨x,c,hx⟩ | ⟨x,c,hx⟩
    · exact ⟨x,u,c,hu,hway,hx⟩
    · simpa [hx,Pc.spins] using hno x
    · simpa [hx,Pc.spins] using hno x

section

/-- One section on its own, from the free lock to the free lock. -/
def runAlone (s : Sched) (cpu : ℕ) (sec : Section) : Sched :=
  match sec.run cpu (s.acquire cpu) with
  | .ok _ t => t
  | .error _ t => t

/-- Two CPUs run the kernel threads `1` and `2`. -/
def twoRunning : Sched :=
  let s := runAlone initGlobalScheduler 0 (.enterScheduler 100)
  let s := runAlone s 1 (.enterScheduler 101)
  let s := s.setThread 1 (some threadConstructEmpty)
  let s := {s.setThread 1 (some {threadConstructEmpty with tid := 1}) with nextTid := 2}
  let s := runAlone s 0 (.scheduleThread 0 1)
  let s := s.setThread 2 (some threadConstructEmpty)
  let s := {s.setThread 2 (some {threadConstructEmpty with tid := 2}) with nextTid := 3}
  let s := runAlone s 0 (.scheduleThread 0 2)
  let s := runAlone s 0 .schedulerRound
  let s := runAlone s 0 .schedulerRound
  let s := runAlone s 0 .schedulerRound
  runAlone s 1 .schedulerRound

theorem twoRunning_reachable : Reachable twoRunning := by
  have h1 : Reachable _ := .single (.locked (.enterScheduler 100) 0 rfl ⟨rfl,rfl,rfl⟩ rfl)
  have h2 := h1.tail (.locked (.enterScheduler 101) 1 rfl ⟨rfl,rfl,rfl⟩ rfl)
  have h3 := h2.tail (.construct (a := 1) rfl)
  have h4 := h3.tail (.assignTid (a := 1) rfl rfl rfl)
  have h5 := h4.tail (.locked (.scheduleThread 0 1) 0 rfl ⟨_,rfl,rfl⟩ rfl)
  have h6 := h5.tail (.construct (a := 2) rfl)
  have h7 := h6.tail (.assignTid (a := 2) rfl rfl rfl)
  have h8 := h7.tail (.locked (.scheduleThread 0 2) 0 rfl ⟨_,rfl,rfl⟩ rfl)
  have h9 := h8.tail (.locked .schedulerRound 0 rfl ⟨some_ne_none 100,rfl⟩ rfl)
  have h10 := h9.tail (.locked .schedulerRound 0 rfl ⟨some_ne_none 100,rfl⟩ rfl)
  have h11 := h10.tail (.locked .schedulerRound 0 rfl ⟨some_ne_none 100,rfl⟩ rfl)
  have h12 := h11.tail (.locked .schedulerRound 1 rfl ⟨some_ne_none 101,rfl⟩ rfl)
  exact h12

theorem twoRunning_not_blocked (hx : twoRunning.thread x=some th) : th.state≠.blocked := by
  intro hst
  obtain ⟨pr,hpr,hin,hp⟩ := twoRunning_reachable.inv.parent hx (by simp [hst])
  have hkr := List.mem_singleton.mp hp
  rw [hkr] at hpr
  obtain rfl : _=pr := Option.some.inj hpr
  have hls := hin
  simp only [List.mem_cons,List.not_mem_nil,or_false] at hls
  rcases hls with rfl | rfl | rfl | rfl <;> cases hx <;> cases hst

def twoConds : Conds := ⟨1000,1001,by decide⟩

theorem twoRunning_mutex (h : ReflTransGen (MutexStep twoConds) (threadMutexCreate twoRunning) m) :
    MutexReachable twoConds m :=
  ⟨twoRunning,twoRunning_reachable,fun _ _ hx hst=>absurd hst (twoRunning_not_blocked hx),h⟩

/-- Thread `1` takes the mutex and thread `2` goes to sleep for it. -/
theorem mutex_sound_contended : ∃ m th, m.holds 1=true ∧ m.sched.thread 2=some th ∧
    th.state=.blocked ∧ th.cond=some twoConds.waitCond ∧ MutexSound twoConds m := by
  have h1 : ReflTransGen (MutexStep twoConds) (threadMutexCreate twoRunning) _ :=
    .single (.call (a := 1) .acquire ⟨0,rfl⟩ rfl)
  have h2 := h1.tail (.enter (a := 1) (f := .acquire) ⟨0,rfl⟩ rfl rfl)
  have h3 := h2.tail (.check (a := 1) (b := false) rfl rfl rfl)
  have h4 := h3.tail (.take (a := 1) (b := false) rfl rfl rfl)
  have h5 := h4.tail (.ret (a := 1) (.inr ⟨false,rfl⟩))
  have h6 := h5.tail (.call (a := 2) .acquire ⟨1,rfl⟩ rfl)
  have h7 := h6.tail (.enter (a := 2) (f := .acquire) ⟨1,rfl⟩ rfl rfl)
  have h8 := h7.tail (.check (a := 2) (b := false) rfl rfl rfl)
  have h9 := h8.tail (.taken (a := 2) (b := false) rfl rfl)
  have h10 := h9.tail (.wait (a := 2) (y := .lock false) 1 rfl rfl rfl)
  have h11 := h10.tail (.handOver (a := 2) (y := .lock false) rfl)
  have h12 := h11.tail (.block (a := 2) (y := .lock false) 1 rfl rfl rfl)
  exact ⟨_,_,rfl,rfl,rfl,rfl,mutex_sound (twoRunning_mutex h12)⟩
end

end Yaos2.Scheduler
