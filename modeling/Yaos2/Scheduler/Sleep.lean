import Yaos2.Scheduler.ThreadMoves

/-! # Sleeping

The deadline is the 64-bit sum of the tick count and of a product that is taken in 32 bits. -/
namespace Yaos2.Scheduler
open Foundation Relation Function Nat

variable {s t u v : Sched} {cpu a : ℕ} {rest : List ℕ} {sec : Section} {r : Option Collected}
  {th : Thread}

def Sched.Sleeping (s : Sched) (a : ℕ) : Prop := ∃ th, s.thread a=some th ∧ th.state=.sleeping

theorem update_sleeping (ha : s.thread a=some th) (hst : th.state=.sleeping)
    (o : Option Thread) (hb : ∀ vb, s.thread b=some vb → vb.state≠.sleeping) :
    update s.thread b o a=some th := by
  have hab : a≠b := by
    rintro rfl
    exact hb th ha hst
  rw [update_of_ne hab,ha]

theorem state_ne_sleeping (hb : s.thread b=some vb) (hst : vb.state=st) (hne : st≠.sleeping) :
    ∀ vb, s.thread b=some vb → vb.state≠.sleeping := by
  intro vb' hb'
  rw [hb,Option.some.injEq] at hb'
  rwa [← hb',hst]

theorem Effect.sleeping (h : s.Inv) (hen : sec.Enabled s cpu) (heff : Effect cpu s sec r t)
    (ha : s.thread a=some th) (hst : th.state=.sleeping) :
    t.thread a=some th ∨ sec=.schedulerRound ∧ ∃ rest, s.queue=a::rest := by
  have hot := @update_sleeping s a th
  have haw : ∀ {b : ℕ} (o : Option Thread), s.current cpu=some b → update s.thread b o a=some th := by
    intro b o hc
    obtain ⟨vb,hb,hrn⟩ := h.current hc
    exact hot ha hst o (state_ne_sleeping hb hrn (by simp))
  cases heff with
  | idle | drop | rotate | collect | nobody => exact .inl ha
  | @start b rest vb hq hb =>
    by_cases hab : a=b
    · exact .inr ⟨rfl,rest,hab▸hq⟩
    · exact .inl ((update_of_ne hab _ _).trans ha)
  | destroy _ hb hex | collectOrphan _ hb hex =>
    exact .inl (hot ha hst none (state_ne_sleeping hb hex (by simp)))
  | @defunct b _ _ _ ws _ hb hex _ _ _ _ _ hws =>
    have hno : a ∉ ws := by
      intro hin
      obtain ⟨va,-,hva,hwt,-⟩ := (hws a).mp hin
      exact state_ne_sleeping hva hwt (by simp) th ha hst
    exact .inl ((if_neg hno).trans (hot ha hst none (state_ne_sleeping hb hex (by simp))))
  | enter => exact .inl (hot ha hst _ (by simp [hen.2.2]))
  | insertProc =>
    obtain ⟨-,-,v,hv,hnew,-⟩ := hen
    exact .inl (hot ha hst _ (state_ne_sleeping hv hnew (by simp)))
  | insertThread =>
    obtain ⟨v,hv,hnew⟩ := hen
    exact .inl (hot ha hst _ (state_ne_sleeping hv hnew (by simp)))
  | yield hc | exit hc | sleep hc | procExit hc | waitForChild hc | block hc =>
    exact .inl (haw _ hc)
  | notify hf =>
    obtain ⟨v,hv,hbl,-⟩ := Sched.firstBlocked_some hf
    exact .inl (hot ha hst _ (state_ne_sleeping hv hbl (by simp)))

theorem schedulerRound_sleeping (h : s.Inv) (hl : s.globalSchedulerLock=some cpu)
    (hq : s.queue=a::rest) (ha : s.thread a=some th) (hst : th.state=.sleeping) :
    Returns (schedulerRound cpu) s
      fun _ t=>t.thread a=some (if th.sleepUntil<s.ticks then th.started else th) := by
  by_cases hdue : th.sleepUntil<s.ticks
  · cases hr : th.resume with
    | exit => simp [h.exits a th ha hr] at hst
    | _ =>
      simp [schedulerRound,resumeThread,hq,ha,hst,hl,hdue,not_le.mpr hdue,hr,Thread.started,Sched.release]
  · simp [schedulerRound,hq,ha,hst,hl,not_lt.mp hdue,Sched.release]

theorem not_sleeping_started (ht : t.thread a=some th.started) : ¬ t.Sleeping a := by
  rintro ⟨vb,hb,hst⟩
  rw [ht,Option.some.injEq] at hb
  rw [← hb] at hst
  cases hst

theorem SchedStep.sleeping (h : s.Inv) (hsp : SchedStep s t) (ha : s.thread a=some th)
    (hst : th.state=.sleeping) :
    t.thread a=some th ∨ th.sleepUntil<s.ticks ∧ ¬ t.Sleeping a := by
  cases hsp with
  | locked sec cpu hfe hen hrun =>
    have hacq : (s.acquire cpu).Inv := h.of_eq rfl rfl rfl rfl rfl rfl
    obtain ⟨t',heff,rfl⟩ := SchedStep.effect h hen hrun
    rcases heff.sleeping hacq (Section.enabled_acquire hen) ha hst with hsm | ⟨rfl,rest,hq⟩
    · exact .inl hsm
    · have hrn := Ensures.of_ok (schedulerRound_sleeping hacq rfl hq ha hst) hrun
      by_cases hdue : th.sleepUntil<s.ticks
      · exact .inr ⟨hdue,not_sleeping_started (hrn.trans (congrArg some (if_pos hdue)))⟩
      · exact .inl (hrn.trans (congrArg some (if_neg hdue)))
  | construct hb => exact .inl (update_sleeping ha hst _ (by simp [hb]))
  | assignIds parent p b hfr hrm hb hnew hrun =>
    obtain ⟨ppid,rfl⟩ := (assignIds_spec hb).of_ok hrun
    exact .inl (update_sleeping ha hst _ (state_ne_sleeping hb hnew (by simp)))
  | assignTid hb hnew hrun =>
    obtain rfl := (assignTid_spec hb).of_ok hrun
    exact .inl (update_sleeping ha hst _ (state_ne_sleeping hb hnew (by simp)))
  | preempt | tick => exact .inl ha

/-- The steps in which the thread sleeps on. -/
def SleepStep (a : ℕ) (s t : Sched) : Prop := SchedStep s t ∧ t.Sleeping a

theorem SleepStep.run (hrun : ReflTransGen (SleepStep a) s t) (h : Reachable s)
    (ha : s.thread a=some th) (hst : th.state=.sleeping) :
    Reachable t ∧ t.thread a=some th := by
  induction hrun with
  | refl => exact ⟨h,ha⟩
  | tail _ hsp ih =>
    obtain ⟨hrc,hth⟩ := ih
    rcases hsp.1.sleeping hrc.inv hth hst with hsm | ⟨-,haw⟩
    · exact ⟨hrc.tail hsp.1,hsm⟩
    · exact absurd hsp.2 haw

theorem Effect.ticks (heff : Effect cpu s sec r t) : t.ticks=s.ticks := by cases heff <;> rfl

theorem SchedStep.ticks_lt (h : s.Inv) (hst : SchedStep s t) (hs : s.ticks<2^64) : t.ticks<2^64 := by
  cases hst with
  | locked sec cpu hfe hen hrun =>
    obtain ⟨t',heff,rfl⟩ := SchedStep.effect h hen hrun
    exact heff.ticks.trans_lt hs
  | construct | preempt => exact hs
  | assignIds parent p b hfr hrm hb hnew hrun =>
    obtain ⟨ppid,rfl⟩ := (assignIds_spec hb).of_ok hrun
    exact hs
  | assignTid hb hnew hrun =>
    obtain rfl := (assignTid_spec hb).of_ok hrun
    exact hs
  | tick => exact mod_lt _ (by norm_num)

theorem Reachable.ticks_lt (h : Reachable s) : s.ticks<2^64 := by
  induction h with
  | refl => decide
  | tail hs hst ih => exact hst.ticks_lt (Reachable.inv hs) ih

/-- In some run a thread that sleeps from the tick count `cur` on wakes at `n`. -/
def WakesAt (milliseconds cur n : ℕ) : Prop :=
  ∃ (s t u v : Sched) (cpu a : ℕ), Reachable s ∧ s.ticks=cur ∧ s.globalSchedulerLock=none ∧
    s.current cpu=some a ∧
    (Section.threadSleep milliseconds).run cpu (s.acquire cpu)=.ok none t ∧
    ReflTransGen (SleepStep a) t u ∧ SchedStep u v ∧ ¬ v.Sleeping a ∧ u.ticks=n

/-- No sleep ends before the tick count exceeds `cur + 10 * milliseconds`. -/
def NeverEarly (milliseconds cur : ℕ) : Prop := ∀ n, WakesAt milliseconds cur n → cur+10*milliseconds<n

variable {milliseconds n cur : ℕ}

theorem threadSleep_asleep (h : s.Inv) (hc : s.current cpu=some a)
    (hrun : (Section.threadSleep milliseconds).run cpu (s.acquire cpu)=.ok none t) :
    ∃ th, s.thread a=some th ∧
      t=((s.acquire cpu).leave cpu a {th.asleep s.ticks milliseconds with resume := .sleep}).release cpu := by
  have hen : (Section.threadSleep milliseconds).Enabled s cpu := by
    change s.current cpu≠none
    rw [hc]
    exact Option.some_ne_none a
  obtain ⟨t',heff,rfl⟩ := SchedStep.effect h hen hrun
  cases heff with
  | @sleep b _ th hb hth =>
    obtain rfl : a=b := Option.some.inj (hc.symm.trans hb)
    exact ⟨th,hth,rfl⟩

theorem ticks_run (hle : s.ticks≤n) (hn : n<2^64)
    (hR : ∀ k, R {s with ticks := k} {s with ticks := (k+1)%2^64}) :
    ReflTransGen R s {s with ticks := n} := by
  induction n, hle using le_induction with
  | base => exact .refl
  | succ n hle ih =>
    have hs := hR n
    rw [mod_eq_of_lt hn] at hs
    exact (ih (by omega)).tail hs

/-- The deadline that `thread_sleep` stores. -/
def sleepDeadline (milliseconds cur : ℕ) : ℕ := (cur+milliseconds*ticksPerMillisecond%2^32)%2^64

theorem le_sleepDeadline_iff : cur+10*milliseconds ≤ sleepDeadline milliseconds cur ↔
      10*milliseconds<2^32 ∧ cur+10*milliseconds<2^64 := by
  unfold sleepDeadline ticksPerMillisecond
  rw [mul_comm milliseconds 10]
  generalize 10*milliseconds=product
  have hp := mod_le product (2^32)
  have hsum := mod_le (cur+product%2^32) (2^64)
  constructor
  · intro hle
    have heq : product%2^32=product := by omega
    exact ⟨heq▸mod_lt _ (by norm_num),by omega⟩
  · rintro ⟨hf,hsum'⟩
    rw [mod_eq_of_lt hf,mod_eq_of_lt hsum']

theorem sleepDeadline_eq_last_iff (hcur : cur<2^64) :
    sleepDeadline milliseconds cur=2^64-1 ↔ cur+10*milliseconds%2^32=2^64-1 := by
  unfold sleepDeadline ticksPerMillisecond
  rw [mul_comm milliseconds 10]
  generalize 10*milliseconds=product
  omega

theorem WakesAt.after (hwk : WakesAt milliseconds cur n) : sleepDeadline milliseconds cur<n ∧ n<2^64 := by
  obtain ⟨s,t,u,v,cpu,a,h,rfl,hfr,hc,hrun,hsl,hst,hv,rfl⟩ := hwk
  have hen := ne_of_eq_of_ne hc (Option.some_ne_none a)
  have ht := h.tail (.locked (.threadSleep milliseconds) cpu hfr hen hrun)
  obtain ⟨th,hth,rfl⟩ := threadSleep_asleep h.inv hc hrun
  obtain ⟨hu,hua⟩ := SleepStep.run hsl ht (update_self _ _ _) rfl
  rcases hst.sleeping hu.inv hua rfl with hsm | ⟨hdue,-⟩
  · exact absurd ⟨_,hsm,rfl⟩ hv
  · exact ⟨hdue,hu.ticks_lt⟩

theorem exists_asleep (milliseconds : ℕ) (h : s.Inv) (hc : s.current cpu=some a)
    (hpre : s.preemptDisabled cpu=0) : ∃ t,
    (Section.threadSleep milliseconds).run cpu (s.acquire cpu)=.ok none t := by
  have hen := ne_of_eq_of_ne hc (Option.some_ne_none a)
  have hacq : (s.acquire cpu).Inv := h.of_eq rfl rfl rfl rfl rfl rfl
  have hcl : ¬ (Section.threadSleep milliseconds).MayPanic (s.acquire cpu) cpu := by
    simp [Section.MayPanic,Sched.acquire,hpre]
  have hret : Returns ((Section.threadSleep milliseconds).run cpu) (s.acquire cpu)
      (Released cpu (s.acquire cpu) (.threadSleep milliseconds)) :=
    (Section.effect (.threadSleep milliseconds) hacq rfl hen).mono (fun _ _ h=>h) fun _=>hcl
  obtain ⟨r,t,hrun,t',heff,-⟩ := hret.exists_ok
  cases heff with
  | sleep => exact ⟨t,hrun⟩

theorem exists_wake (h : Reachable s) (hfr : s.globalSchedulerLock=none)
    (hen : Section.schedulerRound.Enabled s cpu) (hq : s.queue=[a]) (ha : s.thread a=some th)
    (hst : th.state=.sleeping) (hle : s.ticks≤n) (hn : n<2^64) (hdue : th.sleepUntil<n) :
    ∃ u v, ReflTransGen (SleepStep a) s u ∧ SchedStep u v ∧ ¬ v.Sleeping a ∧ u.ticks=n := by
  have hsl : ReflTransGen (SleepStep a) s {s with ticks := n} := ticks_run hle hn fun _=>⟨.tick,th,ha,hst⟩
  have hacq : (Sched.acquire {s with ticks := n} cpu).Inv := h.inv.of_eq rfl rfl rfl rfl rfl rfl
  obtain ⟨r,v,hrn,hv⟩ := (schedulerRound_sleeping hacq rfl hq ha hst).exists_ok
  have haw := not_sleeping_started (hv.trans (congrArg some (if_pos hdue)))
  have hsp : SchedStep {s with ticks := n} v := .locked .schedulerRound cpu hfr hen hrn
  exact ⟨_,v,hsl,hsp,haw,rfl⟩

theorem wakesAt_deadline (hcur : cur<2^64) (hrm : sleepDeadline milliseconds cur+1<2^64) :
    WakesAt milliseconds cur (max cur (sleepDeadline milliseconds cur+1)) := by
  obtain ⟨s,hs,htc,hfr,hq,hc,hsch,hpre⟩ := exists_running
  have hs' : Reachable {s with ticks := cur} := ReflTransGen.trans hs (ticks_run (by omega) hcur fun _=>.tick)
  obtain ⟨t,hrun⟩ := exists_asleep milliseconds hs'.inv hc hpre
  have ht := hs'.tail
    (.locked (.threadSleep milliseconds) 0 hfr (ne_of_eq_of_ne hc (Option.some_ne_none 1)) hrun)
  obtain ⟨th,-,rfl⟩ := threadSleep_asleep hs'.inv hc hrun
  obtain ⟨u,v,hsl,hst,hwk,hn⟩ :=
    exists_wake ht rfl ⟨hsch,rfl⟩ (congrArg (· ++ [1]) hq) rfl rfl
      (le_max_left cur (sleepDeadline milliseconds cur+1)) (max_lt hcur hrm)
      (lt_max_of_lt_right (lt_succ_self (sleepDeadline milliseconds cur)))
  exact ⟨_,_,u,v,0,1,hs',rfl,hfr,hc,hrun,hsl,hst,hwk,hn⟩

/-- A sleep never ends early if nothing wraps, or if the deadline is the last tick count. -/
theorem neverEarly_iff {milliseconds cur : ℕ} (hcur : cur<2^64) : NeverEarly milliseconds cur ↔
      10*milliseconds<2^32 ∧ cur+10*milliseconds<2^64 ∨ cur+10*milliseconds%2^32=2^64-1 := by
  rw [← le_sleepDeadline_iff,← sleepDeadline_eq_last_iff hcur]
  have hdl : sleepDeadline milliseconds cur<2^64 := mod_lt _ (by norm_num)
  constructor
  · intro hnv
    by_cases hls : sleepDeadline milliseconds cur=2^64-1
    · exact .inr hls
    · have hlt := hnv _ (wakesAt_deadline hcur (by omega))
      rw [lt_max_iff] at hlt
      omega
  · intro hcn n hwk
    have hlt := hwk.after
    omega

/-- A sleep of a second from boot. -/
theorem neverEarly_second : NeverEarly 1000 0 := by
  apply (neverEarly_iff (by norm_num)).mpr
  left
  norm_num

/-- The tenfold of 429496730 is 4 in 32 bits, and the sleep of five days can end after 5 ticks. -/
theorem sleep_ends_early : WakesAt 429496730 0 5 := wakesAt_deadline (by decide) (by decide)

end Yaos2.Scheduler
