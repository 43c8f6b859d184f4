import Yaos2.Cpu.Nesting
import Mathlib.Logic.Relation

/-! # Interrupts across a switch of threads

Each access to `int_enabled` or `cli_stack` that the code makes with interrupts enabled is one
instruction here. What a handler does to the CPU is a properly nested sequence of the operations of
`Yaos2.Cpu.Nesting`. -/
namespace Yaos2.Cpu.Switching
open Foundation Relation Option
open Nesting (InterruptState)

/-- Whose interrupt state is stored or restored. -/
inductive Who where
  | thread
  | scheduler
  deriving DecidableEq

/-- What a CPU does to its own state only. From `cli` to the last pop nothing can interrupt. -/
inductive CpuInstr where
  /-- `cpu_get_eflags` in `push_no_interrupts`. -/
  | getEflags
  /-- `push_no_interrupts` from `cli` on. -/
  | push
  /-- The same with its pop, in `cpu_spinlock_held` and `cpu_setup_tss`. -/
  | touch
  | preemptDisable
  | preemptEnable
  | pop
  /-- `cpu_get_eflags` in `cpu_spinlock_acquire`. -/
  | lockEflags
  /-- The last lines of `restore_interrupts`: `sti` or `cli`. -/
  | setFlag
  /-- The three stores of `cpu_set_interrupts_with_cpu(cpu, true)`. -/
  | enableInt
  | clearCli
  | sti
  deriving DecidableEq

inductive Instr where
  | cpu (i : CpuInstr)
  /-- From the test for recursion in `cpu_spinlock_acquire` to the end of its loop. -/
  | take
  /-- The lock is free again in `cpu_spinlock_release`. -/
  | letGo
  | storeInt (w : Who)
  | storeCli (w : Who)
  | loadInt (w : Who)
  | loadCli (w : Who)
  /-- The condition in `restore_interrupts`. -/
  | test (w : Who)
  /-- `cpu->thread = NULL`. -/
  | leave
  /-- `cpu->thread = thread`. -/
  | enter
  /-- The test of the flag at the head of the scheduler loop. -/
  | loopHead
  /-- The loop looks at the head of the queue. -/
  | pick
  /-- `reschedule` returns. -/
  | ret
  deriving DecidableEq

def pushNoInterrupts : List Instr := [.cpu .getEflags, .cpu .push]

def cpuSpinlockHeld : List Instr := [.cpu .getEflags, .cpu .touch]

def preemptDisable : List Instr := [.cpu .getEflags, .cpu .preemptDisable]

def preemptEnable : List Instr := [.cpu .getEflags, .cpu .preemptEnable]

def cpuSpinlockAcquire : List Instr :=
  [.cpu .lockEflags]++preemptDisable++pushNoInterrupts++cpuSpinlockHeld++[.take, .cpu .pop]

def cpuSpinlockRelease : List Instr := pushNoInterrupts++cpuSpinlockHeld++[.letGo, .cpu .pop]++preemptEnable

def cpuSetCr3 : List Instr := preemptDisable++preemptEnable

/-- Kernel threads need no TSS. -/
def cpuSetupTss (user : Bool) : List Instr := if user then [.cpu .getEflags, .cpu .touch] else []

def storeInterrupts (w : Who) : List Instr := [.storeInt w, .storeCli w]

def restoreInterrupts (w : Who) : List Instr := [.loadInt w, .loadCli w, .test w, .cpu .setFlag]

def schedulerContinue : List Instr := cpuSpinlockRelease++[.loopHead]

/-- `reschedule`, and then the scheduler loop to the end of its round. -/
def reschedule : List Instr :=
  cpuSpinlockHeld++cpuSetCr3++storeInterrupts .thread++[.leave]++restoreInterrupts .scheduler ++
    schedulerContinue

def schedulerHead (iflag : Bool) : List Instr :=
  (if iflag then [] else [.cpu .enableInt, .cpu .clearCli, .cpu .sti])++cpuSpinlockAcquire++[.pick]

/-- The loop has popped a thread that it can run. -/
def switchTo (user : Bool) : List Instr :=
  storeInterrupts .scheduler++[.enter]++restoreInterrupts .thread++cpuSetupTss user++cpuSetCr3++[.ret]

/-- The flag and the depth of `push_no_interrupts` at a call of `reschedule`. -/
structure Call where
  iflag : Bool
  cliStack : ℤ
  deriving DecidableEq, Inhabited

/-- The fields of `struct arch_thread`, and the last call of the thread. -/
structure ArchThread where
  intEnabled : Bool
  cliStack : ℤ
  call : Call
  deriving Inhabited

structure Core extends InterruptState where
  eflags : Bool
  lockEflags : Bool
  tested : Bool
  thread : Option ℕ
  /-- The local variable `thread` of `enter_scheduler`, until it is stored. -/
  popped : Option ℕ
  scheduler : Bool × ℤ
  /-- The last call of the thread that runs. -/
  call : Call

/-- The state that a push goes by, with the flag that it has read. -/
def Core.read (k : Core) : InterruptState := {k.toInterruptState with iflag := k.eflags}

/-- There is no result where the source panics. -/
def CpuInstr.exec (k : Core) : CpuInstr → Option Core
  | .getEflags => some {k with eflags := k.iflag}
  | .push => some {k with toInterruptState := k.read.pushed}
  | .touch => some {k with toInterruptState := k.read.touched}
  | .preemptDisable => some {k with
      toInterruptState := {k.read.touched with preemptDisabled := k.preemptDisabled+1}}
  | .preemptEnable =>
    if k.preemptDisabled-1<0 then none
    else some {k with
      toInterruptState := {k.read.touched with preemptDisabled := k.preemptDisabled-1}}
  | .pop =>
    if k.iflag=true ∨ k.cliStack-1<0 then none
    else some {k with toInterruptState := k.toInterruptState.popped}
  | .lockEflags => some {k with lockEflags := k.iflag}
  | .setFlag => some {k with iflag := k.tested}
  | .enableInt => some {k with intEnabled := true}
  | .clearCli => some {k with cliStack := 0}
  | .sti => some {k with iflag := true}

/-- The CPUs `C` with what they have still to do, the threads, and the holder of the scheduler lock.
-/
structure System (C : Type) where
  core : C → Core
  code : C → List Instr
  thread : ℕ → ArchThread
  lock : Option C

variable {C : Type} [DecidableEq C]

namespace System

def set (s : System C) (c : C) (k : Core) (code : List Instr) : System C :=
  {s with core := Function.update s.core c k, code := Function.update s.code c code}

def setThread (s : System C) (a : ℕ) (th : ArchThread) : System C :=
  {s with thread := Function.update s.thread a th}
end System

/-- One instruction of the CPU `c` in the state `k`, with the code that comes after it. The choice
in `pick` is left to the steps. -/
def Instr.exec (s : System C) (c : C) (k : Core) (rest : List Instr) : Instr → Option (System C)
  | .cpu i => (i.exec k).map (s.set c · rest)
  | .take =>
    match s.lock with
    | none => some ({s with lock := some c}.set c {k with iflag := if k.lockEflags then false else k.iflag} rest)
    | some d =>
      if d=c then some (s.set c k rest)
      -- the attempt has failed
      else some (s.set c {k with iflag := if k.lockEflags then true else k.iflag} (.take::rest))
  | .letGo => if s.lock=some c then some ({s with lock := none}.set c k rest) else none
  | .storeInt .thread =>
    k.thread.map fun a=>(s.setThread a {s.thread a with intEnabled := k.intEnabled}).set c k rest
  | .storeCli .thread =>
    k.thread.map fun a=>(s.setThread a {s.thread a with cliStack := k.cliStack}).set c k rest
  | .loadInt .thread => k.thread.map fun a=>s.set c {k with intEnabled := (s.thread a).intEnabled} rest
  | .loadCli .thread => k.thread.map fun a=>s.set c {k with cliStack := (s.thread a).cliStack} rest
  | .storeInt .scheduler => some (s.set c {k with scheduler := (k.intEnabled, k.scheduler.2)} rest)
  | .storeCli .scheduler => some (s.set c {k with scheduler := (k.scheduler.1, k.cliStack)} rest)
  | .loadInt .scheduler => some (s.set c {k with intEnabled := k.scheduler.1} rest)
  | .loadCli .scheduler => some (s.set c {k with cliStack := k.scheduler.2} rest)
  | .test _ => some (s.set c {k with tested := k.intEnabled && decide (k.cliStack=0)} rest)
  | .leave =>
    k.thread.map fun a=>(s.setThread a {s.thread a with call := k.call}).set c {k with thread := none} rest
  | .enter => k.popped.map fun a =>
      s.set c {k with thread := some a, popped := none, call := (s.thread a).call} rest
  | .loopHead => some (s.set c k (schedulerHead k.iflag))
  | .pick => none
  | .ret => some (s.set c k rest)

/-- The steps of the system, with the interrupts that `allowed` lets pass. The thread that the loop
pops runs on no CPU. -/
inductive Step (allowed : Core → List Instr → Prop) : System C → System C → Prop
  | exec {s t : System C} {c : C} {i : Instr} {rest : List Instr} : s.code c=i::rest →
      i.exec s c (s.core c) rest=some t → Step allowed s t
  | idle {s : System C} {c : C} : s.code c=[.pick] → Step allowed s (s.set c (s.core c) schedulerContinue)
  | pick {s : System C} {c : C} (a : ℕ) (user : Bool) : s.code c=[.pick] →
      (∀ d, (s.core d).thread≠some a) →
      Step allowed s (s.set c {s.core c with popped := some a} (switchTo user))
  | work {s : System C} {c : C} {a : ℕ} (i : InterruptState) : s.code c=[] →
      (s.core c).thread=some a → i.Sound → 0 ≤ i.preemptDisabled →
      Step allowed s ({s with lock := if s.lock=some c then none else s.lock}.set c
        {s.core c with toInterruptState := i} [])
  | call {s : System C} {c : C} {a : ℕ} (i : InterruptState) : s.code c=[] →
      (s.core c).thread=some a → s.lock=none ∨ s.lock=some c → i.Sound →
      i.preemptDisabled=1 →
      Step allowed s ({s with lock := some c}.set c
        {s.core c with toInterruptState := i, call := ⟨i.iflag,i.cliStack⟩} reschedule)
  | interrupt {s : System C} {c : C} {n t : Nesting.State} {held : ℕ → ℕ} {ops : List Nesting.Op} :
      (s.core c).iflag=true → allowed (s.core c) (s.code c) →
      n.toInterruptState = {(s.core c).toInterruptState with iflag := false} →
      Nesting.Tracks held n → Nesting.ProperlyNested ops → Nesting.runOps ops n=.ok () t →
      -- the return from the interrupt sets the flag again
      Step allowed s (s.set c
        {s.core c with toInterruptState := {t.toInterruptState with iflag := true}} (s.code c))

/-- The next access to `int_enabled` is one by which the state of a thread would be lost. -/
def Exposed : List Instr → Bool
  | .storeInt .thread::_ | .loadCli .thread::_ | .test .thread::_ => true
  | .cpu .push::_ | .cpu .touch::_ | .cpu .preemptDisable::_ | .cpu .preemptEnable::_ => false
  | .cpu .enableInt::_ | .loadInt _::_ => false
  | _::rest => Exposed rest
  | [] => false

/-- The handler finds interrupts masked, or what it writes to `int_enabled` is written over. -/
def Harmless (k : Core) (code : List Instr) : Prop := k.cliStack=0 → k.intEnabled=true → Exposed code=false

/-- The lock is held until it is released, or until a thread returns with it. -/
def Holding : List Instr → Bool
  | .take::_ | .loopHead::_ => false
  | .letGo::_ | .pick::_ | .ret::_ => true
  | _::rest => Holding rest
  | [] => false

def Call.Sound (c : Call) : Prop := 0≤c.cliStack ∧ (0<c.cliStack → c.iflag=false)

/-- What a thread that is not running has stored agrees with its call. -/
structure ArchThread.Stored (th : ArchThread) : Prop where
  call : th.call.Sound
  cliStack : th.cliStack=th.call.cliStack
  intEnabled : th.call.cliStack=0 → th.intEnabled=th.call.iflag

/-- The code ends without a panic, and with the interrupt state of the thread where a thread
returns. -/
def Leads : List Instr → Core → ArchThread → Prop
  | [], k, _ => k.popped=none
  | .cpu i::rest, k, th => ∃ k', i.exec k=some k' ∧ Leads rest k' th
  | .take::rest, k, th => k.popped=none ∧ 0<k.cliStack ∧ Holding rest=true ∧
      (k.lockEflags=false → k.iflag=false) ∧ Leads rest {k with iflag := false} th
  | .letGo::rest, k, th => k.popped=none ∧ Holding rest=false ∧ Leads rest k th
  | .storeInt .thread::rest, k, th => Leads rest k {th with intEnabled := k.intEnabled}
  | .storeCli .thread::rest, k, th => Leads rest k {th with cliStack := k.cliStack}
  | .loadInt .thread::rest, k, th => Leads rest {k with intEnabled := th.intEnabled} th
  | .loadCli .thread::rest, k, th => 0≤th.cliStack ∧ Leads rest {k with cliStack := th.cliStack} th
  | .test .thread::rest, k, th =>
      Leads rest {k with tested := k.intEnabled && decide (k.cliStack=0)} th
  | .storeInt .scheduler::rest, k, th => ∀ b, Leads rest {k with scheduler := (b, k.scheduler.2)} th
  | .storeCli .scheduler::rest, k, th =>
      k.cliStack=0 ∧ Leads rest {k with scheduler := (k.scheduler.1, k.cliStack)} th
  | .loadInt .scheduler::rest, k, th => Leads rest {k with intEnabled := k.scheduler.1} th
  | .loadCli .scheduler::rest, k, th => Leads rest {k with cliStack := 0} th
  | .test .scheduler::rest, k, th => ∀ b, Leads rest {k with tested := b} th
  | .leave::rest, k, th => {th with call := k.call}.Stored ∧ ∀ th', Leads rest {k with thread := none} th'
  | .enter::rest, k, _ => k.thread=none ∧ ∀ a th', k.popped=some a → th'.Stored →
      Leads rest {k with thread := some a, popped := none, call := th'.call} th'
  | .loopHead::rest, k, _ => rest=[] ∧ k.popped=none ∧ k.thread=none ∧ k.cliStack=0 ∧ k.preemptDisabled=0
  | .pick::rest, k, _ => rest=[] ∧ k.popped=none ∧ k.thread=none ∧ k.cliStack=0 ∧ k.preemptDisabled=1
  | .ret::rest, k, _ => rest=[] ∧ k.popped=none ∧ k.iflag=k.call.iflag ∧
      k.cliStack=k.call.cliStack ∧ k.preemptDisabled=1

section

variable {k : Core} {th : ArchThread}

theorem Leads.intEnabled (h : Leads code k th) (hcli : k.cliStack=0)
    (hcode : Exposed code=false) (b : Bool) : Leads code {k with intEnabled := b} th := by
  induction code generalizing k th with
  | nil => exact h
  | cons i rest ih =>
    cases i with
    | cpu i =>
      obtain ⟨k',he,hr⟩ := h
      cases i with
      | push | touch | preemptDisable | preemptEnable =>
        refine ⟨k',?_,hr⟩
        rw [← he]
        simp [CpuInstr.exec,Core.read,InterruptState.pushed,InterruptState.touched,hcli]
      | pop => simp [CpuInstr.exec,hcli] at he
      | enableInt => exact ⟨k',he,hr⟩
      | clearCli =>
        obtain rfl := Option.some.inj he
        exact ⟨_,rfl,ih hr rfl hcode⟩
      | getEflags | lockEflags | setFlag | sti =>
        obtain rfl := Option.some.inj he
        exact ⟨_,rfl,ih hr hcli hcode⟩
    | take => exact absurd hcli (ne_of_gt h.2.1)
    | letGo => exact ⟨h.1,h.2.1,ih h.2.2 hcli hcode⟩
    | storeInt w =>
      cases w with
      | thread => cases hcode
      | scheduler => exact fun b'=>ih (h b') hcli hcode
    | storeCli w =>
      cases w with
      | thread => exact ih h hcli hcode
      | scheduler => exact ⟨h.1,ih h.2 hcli hcode⟩
    | loadInt w => cases w <;> exact h
    | loadCli w =>
      cases w with
      | thread => cases hcode
      | scheduler => exact ih h rfl hcode
    | test w =>
      cases w with
      | thread => cases hcode
      | scheduler => exact fun b'=>ih (h b') hcli hcode
    | leave => exact ⟨h.1,fun th'=>ih (h.2 th') hcli hcode⟩
    | enter => exact ⟨h.1,fun a th' ha hth=>ih (h.2 a th' ha hth) hcli hcode⟩
    | loopHead | pick | ret => exact h

theorem leads_schedulerContinue (hcli : k.cliStack=0) (hpre : k.preemptDisabled=1) (hp : k.popped=none)
    (ht : k.thread=none) : Leads schedulerContinue k th := by
  refine ⟨_,rfl,_,rfl,_,rfl,_,rfl,hp,rfl,_,if_neg ?_,_,rfl,_,if_neg ?_,rfl,hp,ht,?_,?_⟩
  all_goals simp [Core.read,InterruptState.pushed,InterruptState.touched,InterruptState.popped,hcli,hpre]

theorem leads_acquire (hcli : k.cliStack=0) (hpre : k.preemptDisabled=0) (hp : k.popped=none)
    (ht : k.thread=none) : Leads (cpuSpinlockAcquire++[.pick]) k th := by
  refine ⟨_,rfl,_,rfl,_,rfl,_,rfl,_,rfl,_,rfl,_,rfl,hp,?_,rfl,fun _=>rfl,_,if_neg ?_,rfl,hp,ht,?_,?_⟩
  all_goals simp [Core.read,InterruptState.pushed,InterruptState.touched,InterruptState.popped,hcli,hpre]

theorem leads_schedulerHead (hcli : k.cliStack=0) (hpre : k.preemptDisabled=0) (hp : k.popped=none)
    (ht : k.thread=none) : Leads (schedulerHead k.iflag) k th := by
  cases hf : k.iflag with
  | true => exact leads_acquire hcli hpre hp ht
  | false => exact ⟨_,rfl,_,rfl,_,rfl,leads_acquire rfl hpre hp ht⟩

theorem leads_reschedule (hk : k.Sound) (hpre : k.preemptDisabled=1) (hp : k.popped=none)
    (hc : k.call=⟨k.iflag,k.cliStack⟩) : Leads reschedule k th := by
  refine ⟨_,rfl,_,rfl,_,rfl,_,rfl,_,rfl,_,if_neg ?_,?_,fun th' b=>⟨_,rfl,?_⟩⟩
  · simp [Core.read,InterruptState.touched,hpre]
  · rw [hc]
    refine ⟨⟨hk.nonneg,hk.masked⟩,rfl,fun hz=>?_⟩
    have hz : k.cliStack=0 := hz
    simp [Core.read,InterruptState.touched,hz]
  · exact leads_schedulerContinue rfl (by simp [Core.read,InterruptState.touched,hpre]) hp rfl

theorem ArchThread.Stored.flag (h : th.Stored) : (th.intEnabled && decide (th.cliStack=0))=th.call.iflag := by
  rw [h.cliStack]
  by_cases hz : th.call.cliStack=0
  · simp [hz,h.intEnabled hz]
  · have hpos := lt_of_le_of_ne h.call.1 (Ne.symm hz)
    simp [hz,h.call.2 hpos]

theorem leads_setCr3_ret (hpre : k.preemptDisabled=1) (hp : k.popped=none) (hf : k.iflag=k.call.iflag)
    (hcli : k.cliStack=k.call.cliStack) : Leads (cpuSetCr3++[.ret]) k th := by
  refine ⟨_,rfl,_,rfl,_,rfl,_,if_neg ?_,rfl,hp,hf,hcli,?_⟩
  all_goals simp [hpre]

theorem leads_switchTo (hcli : k.cliStack=0) (hpre : k.preemptDisabled=1) (ht : k.thread=none)
    (user : Bool) : Leads (switchTo user) k th := by
  cases user with
  | false =>
    exact fun b=>⟨hcli,ht,fun a th' _ hth=>⟨hth.cliStack.ge.trans' hth.call.1,_,rfl,
      leads_setCr3_ret hpre rfl hth.flag hth.cliStack⟩⟩
  | true =>
    exact fun b=>⟨hcli,ht,fun a th' _ hth=>⟨hth.cliStack.ge.trans' hth.call.1,_,rfl,_,rfl,_,rfl,
      leads_setCr3_ret hpre rfl hth.flag hth.cliStack⟩⟩
end

/-- The CPU runs the thread or is about to. -/
def Core.Has (k : Core) (a : ℕ) : Prop := k.thread=some a ∨ k.popped=some a

def Core.Counted (k : Core) : Prop := 0≤k.cliStack ∧ 0≤k.preemptDisabled ∧ k.scheduler.2=0

def Core.record (k : Core) (thread : ℕ → ArchThread) : ArchThread := (k.thread.map thread).getD default

/-- What holds of one CPU. -/
structure CpuInv (lock : Option C) (thread : ℕ → ArchThread) (c : C) (k : Core) (code : List Instr) : Prop where
  leads : Leads code k (k.record thread)
  counted : k.Counted
  holding : Holding code=true → lock=some c
  held : lock=some c → Holding code=true ∨ code=[]
  popped : k.popped≠none → Holding code=true

structure Inv (s : System C) : Prop where
  cpu : ∀ c, CpuInv s.lock s.thread c (s.core c) (s.code c)
  unique : ∀ {c d a}, (s.core c).Has a → (s.core d).Has a → c=d
  stored : ∀ {a}, (∀ c, (s.core c).thread≠some a) → (s.thread a).Stored

section

variable {s t u : System C} {c : C} {k k' : Core} {code rest : List Instr} {lock : Option C} {i : Instr} {a : ℕ}
  {th : ArchThread} {thread thread' : ℕ → ArchThread}

theorem Core.record_of_thread (ha : k.thread=some a) (thread : ℕ → ArchThread) : k.record thread=thread a := by
  rw [Core.record,ha]
  rfl

theorem Core.record_congr (h : ∀ a, k.thread=some a → thread' a=thread a) : k.record thread'=k.record thread := by
  cases hk : k.thread with
  | none => rw [Core.record,Core.record,hk,map_none,map_none]
  | some a => rw [k.record_of_thread hk,k.record_of_thread hk,h a hk]

theorem Inv.update (hs : Inv s) (hcr : u.core=s.core) (hcode : u.code=s.code)
    (hrc : ∀ a, (s.core c).thread≠some a → u.thread a=s.thread a)
    (hlc : ∀ d, d≠c → (u.lock=some d ↔ s.lock=some d))
    (hhas : ∀ a, k.Has a → (s.core c).Has a ∨ ∀ d, ¬ (s.core d).Has a)
    (hst : ∀ a, (s.core c).thread=some a → k.thread≠some a → (u.thread a).Stored)
    (hc : CpuInv u.lock u.thread c k code) : Inv (u.set c k code) := by
  have hsl : (u.set c k code).core c=k := Function.update_self ..
  have hot : ∀ {d}, d≠c → (u.set c k code).core d=s.core d := fun {d} hd =>
    (Function.update_of_ne hd ..).trans (congrFun hcr d)
  constructor
  case cpu =>
    intro d
    by_cases hd : d=c
    · have hcode' : (u.set c k code).code c=code := Function.update_self ..
      rwa [hd,hsl,hcode']
    have hcpu := hs.cpu d
    have hcode' : (u.set c k code).code d=s.code d := (Function.update_of_ne hd ..).trans (congrFun hcode d)
    rw [hot hd,hcode']
    have hsm := Core.record_congr fun a ha=>hrc a fun ha'=>hd (hs.unique (Or.inl ha) (Or.inl ha'))
    exact ⟨hsm.symm▸hcpu.leads,hcpu.counted,fun hh=>(hlc d hd).mpr (hcpu.holding hh),
      fun hl=>hcpu.held ((hlc d hd).mp hl),hcpu.popped⟩
  case unique =>
    have hnot : ∀ {d a}, d≠c → k.Has a → ¬ (s.core d).Has a := by
      intro d a hd ha had
      rcases hhas a ha with hold | hnew
      · exact hd (hs.unique had hold)
      · exact hnew d had
    intro d e a hda hea
    by_cases hd : d=c <;> by_cases he : e=c
    · rw [hd,he]
    · rw [hd,hsl] at hda
      exact absurd (hot he▸hea) (hnot he hda)
    · rw [he,hsl] at hea
      exact absurd (hot hd▸hda) (hnot hd hea)
    · exact hs.unique (hot hd▸hda) (hot he▸hea)
  case stored =>
    intro a ha
    by_cases hrun : (s.core c).thread=some a
    · exact hst a hrun (hsl▸ha c)
    · have hnn : ∀ d, (s.core d).thread≠some a := by
        intro d
        by_cases hd : d=c
        · rwa [hd]
        · exact hot hd▸ha d
      exact (hrc a hrun).symm▸hs.stored hnn

theorem Inv.relock (hs : Inv s) (hth : k.thread=(s.core c).thread) (hpd : k.popped=(s.core c).popped)
    (hlc : ∀ d, d≠c → (lock=some d ↔ s.lock=some d))
    (hc : CpuInv lock s.thread c k code) : Inv ({s with lock := lock}.set c k code) := by
  apply Inv.update (u := {s with lock := lock}) hs rfl rfl (fun _ _=>rfl) hlc _ _ hc
  · simp_all [Core.Has]
  · exact fun a ha hne=>absurd (hth.trans ha) hne

theorem Inv.advance (hs : Inv s) (ht : k.thread=(s.core c).thread) (hp : k.popped=(s.core c).popped)
    (hc : CpuInv s.lock s.thread c k code) : Inv (s.set c k code) :=
  hs.relock ht hp (fun _ _=>Iff.rfl) hc

theorem Inv.record (hs : Inv s) (ha : (s.core c).thread=some a)
    (hth : k.thread=some a ∨ k.thread=none ∧ th.Stored) (hpd : k.popped=(s.core c).popped)
    (hc : CpuInv s.lock (Function.update s.thread a th) c k code) : Inv ((s.setThread a th).set c k code) := by
  apply Inv.update (u := s.setThread a th) hs rfl rfl _ (fun _ _=>Iff.rfl) _ _ hc
  · intro b hb
    apply Function.update_of_ne
    rintro rfl
    exact hb ha
  · rintro b (hb | hb)
    · rcases hth with hsm | ⟨hnn,-⟩
      · exact Or.inl (Or.inl (ha.trans (hsm.symm.trans hb)))
      · exact absurd (hnn.symm.trans hb) (some_ne_none b).symm
    · exact Or.inl (Or.inr (hpd▸hb))
  · intro b hb hlf
    obtain rfl := Option.some.inj (ha.symm.trans hb)
    rcases hth with hsm | ⟨-,hst⟩
    · exact absurd hsm hlf
    · have hsl : (s.setThread a th).thread a=th := Function.update_self ..
      rwa [hsl]

omit [DecidableEq C] in
theorem CpuInv.next (h : CpuInv lock thread c k (i::rest)) (hhl : Holding rest=Holding (i::rest))
    (hpd : k'.popped≠none → k.popped≠none) (hcn : k'.Counted)
    (hld : Leads rest k' (k'.record thread')) : CpuInv lock thread' c k' rest where
  leads := hld
  counted := hcn
  holding := fun hrs=>h.holding (hhl.symm.trans hrs)
  held := fun hlc=>Or.inl (hhl.trans ((h.held hlc).resolve_right (List.cons_ne_nil i rest)))
  popped := fun hne=>hhl.trans (h.popped (hpd hne))

theorem CpuInstr.exec_frame {i : CpuInstr} (h : i.exec k=some k') (hk : k.Counted) :
    k'.thread=k.thread ∧ k'.popped=k.popped ∧ k'.Counted := by
  obtain ⟨hcli,hpre,hsc⟩ := hk
  cases i with
  | preemptEnable | pop =>
    simp only [CpuInstr.exec] at h
    split at h
    · cases h
    · next hnot =>
      obtain rfl := Option.some.inj h
      simp only [Core.Counted,Core.read,InterruptState.touched,InterruptState.popped]
      simp only [not_or,not_lt] at hnot
      tauto
  | preemptDisable | push =>
    obtain rfl := Option.some.inj h
    exact ⟨rfl,rfl,by simp only [Core.Counted,Core.read,InterruptState.touched,InterruptState.pushed]; omega⟩
  | clearCli =>
    obtain rfl := Option.some.inj h
    exact ⟨rfl,rfl,le_rfl,hpre,hsc⟩
  | getEflags | touch | lockEflags | setFlag | enableInt | sti =>
    obtain rfl := Option.some.inj h
    exact ⟨rfl,rfl,hcli,hpre,hsc⟩

section

variable (hs : Inv s) (hcode : s.code c=i::rest)

include hs hcode
omit [DecidableEq C] in
theorem Inv.here : CpuInv s.lock s.thread c (s.core c) (i::rest) := hcode▸hs.cpu c

theorem Inv.proceed (hhl : Holding rest=Holding (i::rest)) (hth : k.thread=(s.core c).thread)
    (hpd : k.popped=(s.core c).popped) (hcn : k.Counted)
    (hld : Leads rest k (k.record s.thread)) : Inv (s.set c k rest) :=
  hs.advance hth hpd ((hs.here hcode).next hhl (fun hne=>hpd▸hne) hcn hld)

theorem Inv.store (hhl : Holding rest=Holding (i::rest)) (ha : (s.core c).thread=some a)
    (hld : Leads rest (s.core c) th) : Inv ((s.setThread a th).set c (s.core c) rest) := by
  have hcpu := hs.here hcode
  apply hs.record ha (Or.inl ha) rfl
  apply hcpu.next hhl id hcpu.counted
  rwa [Core.record_of_thread ha,Function.update_self]
end

theorem Inv.take (hs : Inv s) (hcode : s.code c=.take::rest)
    (h : Instr.take.exec s c (s.core c) rest=some t) : Inv t := by
  have hcpu := hs.here hcode
  obtain ⟨hpd,hcli,hrs,hfl,hld⟩ := hcpu.leads
  simp only [Instr.exec] at h
  split at h
  · next hlc =>
    obtain rfl := Option.some.inj h
    have hms : (if (s.core c).lockEflags then false else (s.core c).iflag)=false := by simp_all
    rw [hms]
    refine hs.relock rfl rfl ?_ ⟨hld,hcpu.counted,fun _=>rfl,fun _=>Or.inl hrs,absurd hpd⟩
    intro d hd
    simp [hlc,hd.symm]
  · next d hlc =>
    split at h
    · next hd =>
      rw [hd] at hlc
      exact absurd (hcpu.held hlc) (by simp [Holding])
    · obtain rfl := Option.some.inj h
      refine hs.advance rfl rfl ⟨⟨hpd,hcli,hrs,fun hef=>?_,hld⟩,hcpu.counted,hcpu.holding,
        hcpu.held,hcpu.popped⟩
      exact (if_neg (ne_true_of_eq_false hef)).trans (hfl hef)

theorem Inv.letGo (hs : Inv s) (hcode : s.code c=.letGo::rest)
    (h : Instr.letGo.exec s c (s.core c) rest=some t) : Inv t := by
  have hcpu := hs.here hcode
  obtain ⟨hpd,hrs,hld⟩ := hcpu.leads
  obtain ⟨hlc,h⟩ := ite_none_right_eq_some.mp h
  obtain rfl := Option.some.inj h
  refine hs.relock rfl rfl ?_ ⟨hld,hcpu.counted,fun hhl=>absurd hhl (by simp [hrs]),
    fun hnn=>absurd hnn.symm (some_ne_none c),absurd hpd⟩
  intro d hd
  simp [hlc,hd.symm]

theorem Inv.leave (hs : Inv s) (hcode : s.code c=.leave::rest) (ha : (s.core c).thread=some a) :
    Inv ((s.setThread a {s.thread a with call := (s.core c).call}).set c {s.core c with thread := none} rest) := by
  have hcpu := hs.here hcode
  obtain ⟨hst,hld⟩ := hcpu.leads
  rw [Core.record_of_thread ha] at hst
  exact hs.record ha (Or.inr ⟨rfl,hst⟩) rfl (hcpu.next rfl id hcpu.counted (hld _))

theorem Inv.enter (hs : Inv s) (hcode : s.code c=.enter::rest) (ha : (s.core c).popped=some a) :
    Inv (s.set c {s.core c with thread := some a, popped := none, call := (s.thread a).call} rest) := by
  have hcpu := hs.here hcode
  obtain ⟨hnn,hld⟩ := hcpu.leads
  have hst : (s.thread a).Stored := by
    apply hs.stored
    intro d hd
    obtain rfl := hs.unique (Or.inr ha) (Or.inl hd)
    exact some_ne_none a (hd.symm.trans hnn)
  refine hs.update rfl rfl (fun _ _=>rfl) (fun _ _=>Iff.rfl) ?_ ?_
    (hcpu.next rfl (absurd rfl) hcpu.counted (hld a (s.thread a) ha hst))
  · rintro b (hb | hb)
    · exact Or.inl (Or.inr (ha.trans hb))
    · cases hb
  · exact fun b hb=>absurd (hb.symm.trans hnn) (some_ne_none b)

theorem schedulerHead_holding (iflag : Bool) : Holding (schedulerHead iflag)=false := by cases iflag <;> rfl

theorem switchTo_holding (user : Bool) : Holding (switchTo user)=true := by cases user <;> rfl

theorem Inv.exec (hs : Inv s) (hcode : s.code c=i::rest) (h : i.exec s c (s.core c) rest=some t) : Inv t := by
  have hcpu := hs.here hcode
  have hld := hcpu.leads
  have hcn := hcpu.counted
  cases i with
  | cpu i =>
    obtain ⟨k,hk,rfl⟩ := map_eq_some_iff.mp h
    obtain ⟨hth,hpd,hcn⟩ := CpuInstr.exec_frame hk hcn
    obtain ⟨k',hk',hrs⟩ := hld
    obtain rfl := Option.some.inj (hk.symm.trans hk')
    rw [Core.record,← hth] at hrs
    exact hs.proceed hcode rfl hth hpd hcn hrs
  | take => exact hs.take hcode h
  | letGo => exact hs.letGo hcode h
  | storeInt w =>
    cases w with
    | thread =>
      obtain ⟨a,ha,rfl⟩ := map_eq_some_iff.mp h
      rw [Core.record_of_thread ha] at hld
      exact hs.store hcode rfl ha hld
    | scheduler =>
      obtain rfl := Option.some.inj h
      exact hs.proceed hcode rfl rfl rfl hcn (hld _)
  | storeCli w =>
    cases w with
    | thread =>
      obtain ⟨a,ha,rfl⟩ := map_eq_some_iff.mp h
      rw [Core.record_of_thread ha] at hld
      exact hs.store hcode rfl ha hld
    | scheduler =>
      obtain rfl := Option.some.inj h
      exact hs.proceed hcode rfl rfl rfl ⟨hcn.1,hcn.2.1,hld.1⟩ hld.2
  | loadInt w =>
    cases w with
    | thread =>
      obtain ⟨a,ha,rfl⟩ := map_eq_some_iff.mp h
      rw [← Core.record_of_thread ha s.thread]
      exact hs.proceed hcode rfl rfl rfl hcn hld
    | scheduler =>
      obtain rfl := Option.some.inj h
      exact hs.proceed hcode rfl rfl rfl hcn hld
  | loadCli w =>
    cases w with
    | thread =>
      obtain ⟨a,ha,rfl⟩ := map_eq_some_iff.mp h
      rw [← Core.record_of_thread ha s.thread]
      exact hs.proceed hcode rfl rfl rfl ⟨hld.1,hcn.2⟩ hld.2
    | scheduler =>
      obtain rfl := Option.some.inj h
      rw [hcn.2.2]
      exact hs.proceed hcode rfl rfl rfl ⟨le_rfl,hcn.2⟩ hld
  | test w =>
    obtain rfl := Option.some.inj h
    refine hs.proceed hcode rfl rfl rfl hcn ?_
    cases w with
    | thread => exact hld
    | scheduler => exact hld _
  | leave =>
    obtain ⟨a,ha,rfl⟩ := map_eq_some_iff.mp h
    exact hs.leave hcode ha
  | enter =>
    obtain ⟨a,ha,rfl⟩ := map_eq_some_iff.mp h
    exact hs.enter hcode ha
  | loopHead =>
    obtain rfl := Option.some.inj h
    obtain ⟨-,hpd,hth,hcli,hpre⟩ := hld
    exact hs.advance rfl rfl ⟨leads_schedulerHead hcli hpre hpd hth,hcn,
      fun hhd=>absurd hhd (by simp [schedulerHead_holding]),
      fun hlc=>absurd (hcpu.held hlc) (by simp [Holding]),absurd hpd⟩
  | pick => cases h
  | ret =>
    obtain rfl := Option.some.inj h
    obtain ⟨rfl,hpd,-⟩ := hld
    exact hs.advance rfl rfl ⟨hpd,hcn,nofun,fun _=>Or.inr rfl,absurd hpd⟩

theorem Inv.idle (hs : Inv s) (hcode : s.code c=[.pick]) : Inv (s.set c (s.core c) schedulerContinue) := by
  have hcpu := hs.here hcode
  obtain ⟨-,hpd,hth,hcli,hpre⟩ := hcpu.leads
  exact hs.advance rfl rfl ⟨leads_schedulerContinue hcli hpre hpd hth,hcpu.counted,
    fun _=>hcpu.holding rfl,fun _=>Or.inl rfl,fun _=>rfl⟩

theorem Inv.pick (hs : Inv s) (hcode : s.code c=[.pick]) (ha : ∀ d, (s.core d).thread≠some a)
    (user : Bool) : Inv (s.set c {s.core c with popped := some a} (switchTo user)) := by
  have hcpu := hs.here hcode
  obtain ⟨-,hpd,hth,hcli,hpre⟩ := hcpu.leads
  have hhl := switchTo_holding user
  have hsw : Leads (switchTo user) {s.core c with popped := some a} ((s.core c).record s.thread) :=
    leads_switchTo (k := {s.core c with popped := some a}) hcli hpre hth user
  refine hs.update rfl rfl (fun _ _=>rfl) (fun _ _=>Iff.rfl) ?_ ?_
    ⟨hsw,hcpu.counted,fun _=>hcpu.holding rfl,fun _=>Or.inl hhl,fun _=>hhl⟩
  · rintro b (hb | hb)
    · exact Or.inl (Or.inl hb)
    · obtain rfl := Option.some.inj hb
      refine Or.inr fun d hd=>?_
      have hd := hd.resolve_left (ha d)
      have hlc := (hs.cpu d).holding ((hs.cpu d).popped (hd▸some_ne_none a))
      obtain rfl := Option.some.inj (hlc.symm.trans (hcpu.holding rfl))
      exact some_ne_none a (hd.symm.trans hpd)
  · exact fun b hb=>absurd (hb.symm.trans hth) (some_ne_none b)

section

variable {i : InterruptState} (hs : Inv s) (hcode : s.code c=[]) (hi : i.Sound)

include hs hcode hi
theorem Inv.work (hpre : 0 ≤ i.preemptDisabled) : Inv ({s with lock := if s.lock=some c then none else s.lock}.set c
    {s.core c with toInterruptState := i} []) := by
  have hcpu := hs.cpu c
  have hpd : (s.core c).popped=none := by
    have hld := hcpu.leads
    rwa [hcode] at hld
  refine hs.relock rfl rfl ?_ ⟨hpd,⟨hi.nonneg,hpre,hcpu.counted.2.2⟩,nofun,fun _=>Or.inr rfl,
    absurd hpd⟩
  intro d hd
  split
  · next hlc => simp [hlc,hd.symm]
  · rfl

theorem Inv.call (hlc : s.lock=none ∨ s.lock=some c) (hpre : i.preemptDisabled=1) :
    Inv ({s with lock := some c}.set c
      {s.core c with toInterruptState := i, call := ⟨i.iflag,i.cliStack⟩} reschedule) := by
  have hcpu := hs.cpu c
  have hpd : (s.core c).popped=none := by
    have hld := hcpu.leads
    rwa [hcode] at hld
  have hng : 0 ≤ i.preemptDisabled := by omega
  refine hs.relock rfl rfl ?_ ⟨leads_reschedule hi hpre hpd rfl,⟨hi.nonneg,hng,hcpu.counted.2.2⟩,
    fun _=>rfl,fun _=>Or.inl rfl,fun _=>rfl⟩
  intro d hd
  rcases hlc with hlc | hlc <;> simp [hlc,hd.symm]
end

theorem handler_spec {i : InterruptState} {n t : Nesting.State}
    (hfl : i.iflag=true) (hcli : 0 ≤ i.cliStack) (hpre : 0 ≤ i.preemptDisabled)
    (hn : n.toInterruptState = {i with iflag := false}) (htr : Nesting.Tracks held n)
    (hops : Nesting.ProperlyNested ops) (hrun : Nesting.runOps ops n=.ok () t) :
    {t.toInterruptState with iflag := true} = {i with intEnabled := t.intEnabled} ∧
      (t.intEnabled=i.intEnabled ∨ i.cliStack=0 ∧ t.intEnabled=false) := by
  have hsn : n.Sound := by
    rw [hn]
    exact ⟨hcli,fun _=>rfl⟩
  have hpre' : 0≤n.preemptDisabled := by rwa [hn]
  have ht := (Ensures.of_ok ( Nesting.runOps_prefix htr hsn hpre' hops (List.prefix_refl ops)) hrun).interrupts
  rw [hn] at ht
  rw [ht]
  simp only [InterruptState.after,hops.depth_eq_zero Nesting.Op.cli_weighs,
    hops.depth_eq_zero Nesting.Op.preempt_weighs,add_zero,hfl,true_and]
  split
  · next hzr => exact Or.inr ⟨hzr.2,rfl⟩
  · exact Or.inl rfl

theorem Step.inv (h : Step Harmless s t) (hs : Inv s) : Inv t := by
  cases h with
  | exec hcode hex => exact hs.exec hcode hex
  | idle hcode => exact hs.idle hcode
  | pick a user hcode ha => exact hs.pick hcode ha user
  | work i hcode _ hi hpre => exact hs.work hcode hi hpre
  | call i hcode _ hlc hi hpre => exact hs.call hcode hi hlc hpre
  | @interrupt c n t _ _ hfl hal hn htr hops hrun =>
    have hcpu := hs.cpu c
    obtain ⟨hi,hint⟩ := handler_spec hfl hcpu.counted.1 hcpu.counted.2.1 hn htr hops hrun
    rw [hi]
    refine hs.advance rfl rfl ⟨?_,hcpu.counted,hcpu.holding,hcpu.held,hcpu.popped⟩
    rcases hint with hsm | ⟨hzr,hcl⟩
    · rw [hsm]
      exact hcpu.leads
    · cases hen : (s.core c).intEnabled with
      | true => exact hcpu.leads.intEnabled hzr (hal hzr hen) t.intEnabled
      | false =>
        rw [hcl,← hen]
        exact hcpu.leads
end

/-- Every CPU enters the loop, and no thread runs. What a new thread has stored is what it starts
with. -/
structure Start (s : System C) : Prop where
  code : ∀ c, s.code c=[.loopHead]
  cliStack : ∀ c, (s.core c).cliStack=0
  preemptDisabled : ∀ c, (s.core c).preemptDisabled=0
  scheduler : ∀ c, (s.core c).scheduler.2=0
  thread : ∀ c, (s.core c).thread=none
  popped : ∀ c, (s.core c).popped=none
  lock : s.lock=none
  stored : ∀ a, (s.thread a).Stored

section

variable {s t : System C} {allowed : Core → List Instr → Prop}

omit [DecidableEq C] in
theorem Start.inv (hs : Start s) : Inv s where
  cpu c := by
    rw [hs.code c]
    exact ⟨⟨rfl,hs.popped c,hs.thread c,hs.cliStack c,hs.preemptDisabled c⟩,
      ⟨(hs.cliStack c).ge,(hs.preemptDisabled c).ge,hs.scheduler c⟩,nofun,
      fun hl=>absurd (hs.lock.symm.trans hl) (some_ne_none c).symm,absurd (hs.popped c)⟩
  unique := by
    rintro c d a (ha | ha) -
    · exact absurd (ha.symm.trans (hs.thread c)) (some_ne_none a)
    · exact absurd (ha.symm.trans (hs.popped c)) (some_ne_none a)
  stored := fun _=>hs.stored _

theorem Start.run_inv (hs : Start s) (hrun : ReflTransGen (Step Harmless) s t) : Inv t := by
  induction hrun with
  | refl => exact hs.inv
  | tail _ hst ih => exact hst.inv ih

/-- If interrupts are harmless, a thread returns from `reschedule` with the flag and depth of its
call. -/
theorem reschedule_keeps_interrupts (hs : Start s) (hrun : ReflTransGen (Step Harmless) s t) {c : C}
    (hret : t.code c=[.ret]) :
    (t.core c).iflag=(t.core c).call.iflag ∧ (t.core c).cliStack=(t.core c).call.cliStack ∧
      (t.core c).preemptDisabled=1 :=
  ((hs.run_inv hrun).here hret).leads.2.2

/-- The CPU goes on by one instruction, if it can. -/
def System.advance (c : C) (s : System C) : System C :=
  match s.code c with
  | [] => s
  | i::rest => (i.exec s c (s.core c) rest).getD s

theorem advance_reaches (c : C) (n : ℕ) (s : System C) :
    ReflTransGen (Step allowed) s ((System.advance c)^[n] s) := by
  induction n generalizing s with
  | zero => exact .refl
  | succ n ih =>
    refine .trans ?_ (ih (s.advance c))
    unfold System.advance
    split
    · exact .refl
    · next i rest hcode =>
      cases he : i.exec s c (s.core c) rest with
      | none => exact .refl
      | some t => exact .single (.exec hcode he)

/-- Two CPUs at the head of the loop with interrupts enabled. -/
def booted : System (Fin 2) where
  core _ := {
    iflag := true
    intEnabled := true
    cliStack := 0
    preemptDisabled := 0
    eflags := true
    lockEflags := true
    tested := true
    thread := none
    popped := none
    scheduler := (true, 0)
    call := ⟨true,0⟩}
  code _ := [.loopHead]
  thread _ := ⟨true,0,⟨true,0⟩⟩
  lock := none

theorem start_booted : Start booted :=
  ⟨fun _=>rfl,fun _=>rfl,fun _=>rfl,fun _=>rfl,fun _=>rfl,fun _=>rfl,rfl,fun _ =>
    ⟨⟨le_rfl,fun h=>absurd h (lt_irrefl 0)⟩,rfl,fun _=>rfl⟩⟩

/-- The CPU `c` goes from the head of the loop to the return of a kernel thread. -/
def System.dispatch (c : C) (a : ℕ) (s : System C) : System C :=
  let s := (System.advance c)^[11] s
  (System.advance c)^[11] (s.set c {s.core c with popped := some a} (switchTo false))

theorem dispatch_reaches (hcode : ((System.advance c)^[11] s).code c=[.pick])
    (ha : ∀ d, (((System.advance c)^[11] s).core d).thread≠some a) :
    ReflTransGen (Step allowed) s (s.dispatch c a) :=
  ((advance_reaches c 11 s).tail (.pick a false hcode ha)).trans (advance_reaches c 11 _)

/-- The thread 0 has run on the CPU 0 and calls `reschedule`. -/
def called (i : InterruptState) : System (Fin 2) :=
  let s := (System.advance 0)^[1] (booted.dispatch 0 0)
  {s with lock := some 0}.set 0
    {s.core 0 with toInterruptState := i, call := ⟨i.iflag,i.cliStack⟩} reschedule

theorem called_reaches (hi : i.Sound) (hpre : i.preemptDisabled=1) :
    ReflTransGen (Step allowed) booted (called i) := by
  have hd : ReflTransGen (Step allowed) booted (booted.dispatch 0 0) := dispatch_reaches rfl (by decide +kernel)
  exact (hd.trans (advance_reaches 0 1 _)).tail (.call i rfl rfl (Or.inr rfl) hi hpre)

/-- The thread has called at depth 2 on the CPU 0 and returns on the CPU 1. -/
def migrated : System (Fin 2) := System.dispatch 1 0 ((System.advance 0)^[21] (called ⟨false,true,2,1⟩))

theorem migrated_reaches : ReflTransGen (Step allowed) booted migrated := by
  have hc : ReflTransGen (Step allowed) booted (called ⟨false,true,2,1⟩) :=
    called_reaches ⟨by decide,fun _=>rfl⟩ rfl
  apply (hc.trans (advance_reaches 0 21 _)).trans
  exact dispatch_reaches (by decide +kernel) (by decide +kernel)

theorem migrated_call : migrated.code 1=[.ret] ∧ (migrated.core 1).thread=some 0 ∧
    (migrated.core 1).call=⟨false,2⟩ := by
  decide +kernel

theorem reschedule_keeps_interrupts_migrated : (migrated.core 1).thread=some 0 ∧
    (migrated.core 1).iflag=false ∧ (migrated.core 1).cliStack=2 ∧ (migrated.core 1).preemptDisabled=1 := by
  obtain ⟨hret,ht,hc⟩ := migrated_call
  have hk := reschedule_keeps_interrupts start_booted migrated_reaches hret
  rw [hc] at hk
  exact ⟨ht,hk⟩

def System.handled (c : C) (i : InterruptState) (s : System C) : System C :=
  s.set c {s.core c with toInterruptState := i} (s.code c)

theorem handled_reaches (hcpu : (s.core c).toInterruptState=⟨true,true,0,1⟩)
    (hal : allowed (s.core c) (s.code c)) : Step allowed s (s.handled c ⟨true,false,0,1⟩) := by
  let n : Nesting.State := {
    iflag := false
    intEnabled := true
    cliStack := 0
    preemptDisabled := 1
    nofCpus := 2
    cpu := 0
    lock _ := ⟨false,0,Nesting.cpuSpinlockInvalidCpu⟩
    others _ _ := ⟨false,0,Nesting.cpuSpinlockInvalidCpu⟩
    time := 0}
  have hot : Nesting.cpuSpinlockInvalidCpu≠((0 : ℕ) : ℤ) := by decide
  have hn : Nesting.Tracks (fun _=>0) n :=
    ⟨two_ne_zero,fun _ _=>hot,fun _ h=>absurd h (lt_irrefl 0),fun _ _ h=>by cases h.1⟩
  have hops : Nesting.ProperlyNested [.acquire 0 1, .release 0] :=
    Nested.bracket (Nesting.Bracket.spinlock 0 1) Nested.nil
  obtain ⟨_,t,hrun,ht⟩ := ( Nesting.runOps_prefix hn ⟨le_rfl,fun _=>rfl⟩ zero_le_one hops
    (List.prefix_refl _)).exists_ok
  have hi : {t.toInterruptState with iflag := true}=(⟨true,false,0,1⟩ : InterruptState) := by
    rw [ht.interrupts]
    rfl
  have hfl : (s.core c).iflag=true := by rw [hcpu]
  have hst : n.toInterruptState = {(s.core c).toInterruptState with iflag := false} := by rw [hcpu]
  have hsp := Step.interrupt hfl hal hst hn hops hrun
  rwa [hi] at hsp

/-- A device interrupts between the last pop of `cpu_set_cr3` and the first line of
`store_interrupts`. -/
def interrupted : System (Fin 2) :=
  System.handled 0 ⟨true,false,0,1⟩ ((System.advance 0)^[6] (called ⟨true,true,0,1⟩))

theorem interrupted_reaches : ReflTransGen (Step fun _ _=>True) booted interrupted := by
  have hc : ReflTransGen (Step fun _ _=>True) booted (called ⟨true,true,0,1⟩) :=
    called_reaches ⟨le_rfl,fun h=>absurd h (lt_irrefl 0)⟩ rfl
  exact (hc.trans (advance_reaches 0 6 _)).tail (handled_reaches rfl trivial)

/-- The thread has called with interrupts enabled and returns. -/
def lost : System (Fin 2) := System.dispatch 0 0 ((System.advance 0)^[15] interrupted)

/-- It returns with interrupts disabled. -/
theorem reschedule_loses_interrupts : ReflTransGen (Step fun _ _=>True) booted lost ∧ lost.code 0=[.ret] ∧
    (lost.core 0).thread=some 0 ∧ (lost.core 0).call=⟨true,0⟩ ∧ (lost.core 0).iflag=false := by
  have hr := interrupted_reaches.trans (advance_reaches 0 15 interrupted)
  refine ⟨hr.trans (dispatch_reaches (by decide +kernel) (by decide +kernel)),?_⟩
  decide +kernel
end

end Yaos2.Cpu.Switching
