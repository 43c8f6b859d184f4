import Yaos2.Scheduler.Invariant

/-! # The sections have the effects -/
namespace Yaos2.Scheduler
open Foundation Function List Option

namespace Sched

theorem leave_setThread (s : Sched) (cpu a : ℕ) (o : Option Thread) (th : Thread) :
    (s.setThread a o).leave cpu a th=s.leave cpu a th := by
  simp [leave]

section

variable (s : Sched) (pid : ℕ) (status : ℤ) (ws : List ℕ)

@[simp] theorem wake_proc : (s.wake pid status ws).proc=s.proc := rfl
@[simp] theorem wake_processes : (s.wake pid status ws).processes=s.processes := rfl
@[simp] theorem wake_lock : (s.wake pid status ws).globalSchedulerLock=s.globalSchedulerLock := rfl

@[simp] theorem wake_setProc (p : ℕ) (pr : Process) :
    (s.wake pid status ws).setProc p pr=(s.setProc p pr).wake pid status ws := rfl
end

theorem wake_nil (s : Sched) (pid : ℕ) (status : ℤ) : s.wake pid status []=s := by simp [wake]

theorem wake_append (s : Sched) (pid : ℕ) (status : ℤ) (ws ws' : List ℕ) :
    (s.wake pid status ws).wake pid status ws'=s.wake pid status (ws++ws') := by
  simp only [wake,append_assoc,mem_append]
  congr 1
  funext x
  by_cases h : x ∈ ws <;> by_cases h' : x ∈ ws' <;> simp [h,h',Option.map_map,comp_def]

variable {s : Sched}

theorem wake_singleton (h : s.thread x=some th) (pid : ℕ) (status : ℤ) :
    s.wake pid status [x]=(s.setThread x (some {th with
      collectedPid := pid, collectedStatus := status, state := .ready})).setQueue
        (s.queue++[x]) := by
  simp only [wake,setThread,setQueue,mem_singleton]
  congr 1
  funext y
  rw [update_apply]
  split
  · next hy => rw [hy,h,map_some]
  · rfl

def isWaiting (s : Sched) (x : ℕ) : Bool := (s.thread x).any (·.state=.waiting)

theorem isWaiting_wake (s : Sched) (pid : ℕ) (status : ℤ) (ws : List ℕ) (x : ℕ) :
    (s.wake pid status ws).isWaiting x=true ↔ s.isWaiting x=true ∧ x ∉ ws := by
  by_cases h : x ∈ ws
  · cases hx : s.thread x <;> simp [isWaiting,wake,h,hx]
  · simp [isWaiting,wake,h]

theorem exists_thread_wake
    (h : ∃ th, s.thread x=some th) : ∃ th, (s.wake pid status ws).thread x=some th := by
  obtain ⟨th,hth⟩ := h
  by_cases hx : x ∈ ws <;> simp [wake,hx,hth]

theorem firstBlocked_some {cond a : ℕ} (h : s.firstBlocked cond=some a) :
    ∃ th, s.thread a=some th ∧ th.state=.blocked ∧ th.cond=some cond := by
  obtain ⟨p,-,hp⟩ := exists_of_findSome?_eq_some h
  obtain ⟨pr,-,hf⟩ := bind_eq_some_iff.mp hp
  have hb := List.find?_some hf
  cases ha : s.thread a with
  | none => simp [isBlockedOn,ha] at hb
  | some th =>
    simp only [isBlockedOn,ha,decide_eq_true_eq] at hb
    exact ⟨th,rfl,hb.2,hb.1⟩
end Sched

section

variable {s : Sched} {cpu : ℕ}

variable {a : ℕ} {u : Thread}

section
variable (r : Resume) (hl : s.globalSchedulerLock=some cpu) (hc : s.current cpu=some a)
include r hl hc
theorem reschedule_spec (ha : s.thread a=some u) (hst : u.state≠.running) :
    Ensures (reschedule cpu r) s (fun _ t=>t=(s.leave cpu a {u with resume := r}).release cpu)
      (fun _=>1<s.preemptDisabled cpu) := by
  unfold reschedule
  simp only [wp_bind,wp_get,wp_panicIf_iff,hl,hc]
  refine ⟨fun hp=>hp,fun _=>⟨fun h=>by simp at h,fun _=>⟨fun h=>by simp at h,fun _=>?_⟩⟩⟩
  by_cases hout : u.state=.blocked ∨ u.state=.waiting
  · rcases hout with h | h <;> simp [hc,ha,hl,h,Sched.leave] <;> rfl
  · obtain ⟨hb,hw⟩ := not_or.mp hout
    simp [hc,ha,hl,hst,hb,hw,Sched.leave]

theorem leave_spec (hst : u.state≠.running) : Ensures (reschedule cpu r) (s.setThread a (some u))
      (fun _ t=>t=(s.leave cpu a {u with resume := r}).release cpu)
      (fun _=>1<s.preemptDisabled cpu) := by
  have h := reschedule_spec (s := s.setThread a (some u)) (u := u) r hl hc
    (by simp) hst
  rw [Sched.leave_setThread] at h
  exact h
end

theorem wakeWaiting_spec (pid : ℕ) (status : ℤ) (l : List ℕ) (s : Sched)
    (hl : ∀ x ∈ l, ∃ th, s.thread x=some th) (hn : l.Nodup) :
    Returns (wakeWaiting pid status l) s fun b t =>
      t=s.wake pid status (l.filter s.isWaiting) ∧ (b=true ↔ l.filter s.isWaiting≠[]) := by
  induction l generalizing s with
  | nil =>
    rw [Returns,wakeWaiting,wp_pure]
    exact ⟨(s.wake_nil pid status).symm,by simp⟩
  | cons a rest ih =>
    obtain ⟨th,hth⟩ := hl a mem_cons_self
    have hrs : ∀ x ∈ rest, ∃ th, s.thread x=some th := fun x hx =>
      hl x (mem_cons_of_mem a hx)
    obtain ⟨hnin,hn⟩ := nodup_cons.mp hn
    rw [Returns,wakeWaiting,wp_bind,wp_threadAt,hth]
    change Ensures (if _ then _ else _) s _ _
    refine Ensures.ite (fun hw=>?_) (fun hw=>?_)
    · have hfl : (a::rest).filter s.isWaiting=rest.filter s.isWaiting :=
        filter_cons_of_neg (by simp [Sched.isWaiting,hth,hw])
      rw [hfl]
      exact ih s hrs hn
    · have hw := not_not.mp hw
      have hfl : (a::rest).filter s.isWaiting=a::rest.filter s.isWaiting :=
        filter_cons_of_pos (by simp [Sched.isWaiting,hth,hw])
      rw [wp_bind,wp_modThread,hth,elim_some,wp_bind,wp_insertTail,
        Sched.setThread_queue,← Sched.wake_singleton hth]
      apply (ih _ (fun x hx=>Sched.exists_thread_wake (hrs x hx)) hn).bind
      rintro b t ⟨ht,-⟩
      have hsm : rest.filter (s.wake pid status [a]).isWaiting=rest.filter s.isWaiting := by
        refine filter_congr fun x hx=>?_
        have hxa : x ∉ [a] := fun h=>hnin (mem_singleton.mp h▸hx)
        exact Bool.eq_iff_iff.mpr ((s.isWaiting_wake pid status [a] x).trans (and_iff_left hxa))
      rw [wp_pure,ht,hsm,Sched.wake_append,hfl]
      exact ⟨rfl,by simp⟩

theorem wakeParents_spec (child : Process) (ps : List ℕ) (s : Sched)
    (hps : ∀ p ∈ ps, ∃ pr, s.proc p=some pr ∧ pr.threads.Nodup ∧
      ∀ x ∈ pr.threads, ∃ th, s.thread x=some th) :
    Returns (wakeParents child ps) s fun b t =>
      ∃ ws, ws.Nodup ∧ (∀ x, x ∈ ws ↔ s.isWaiting x=true ∧ ∃ p ∈ ps, ∃ pr,
        s.proc p=some pr ∧ pr.pid=child.parent ∧ x ∈ pr.threads) ∧
        t=s.wake child.pid child.exitStatus ws ∧ (b=true ↔ ws≠[]) := by
  induction ps generalizing s with
  | nil =>
    rw [Returns,wakeParents,wp_pure]
    exact ⟨[],nodup_nil,by simp,(s.wake_nil ..).symm,by simp⟩
  | cons p rest ih =>
    obtain ⟨pr,hpr,hnd,hal⟩ := hps p mem_cons_self
    rw [Returns,wakeParents,wp_bind,wp_procAt,hpr,elim_some]
    refine Ensures.ite (fun hne=>?_) (fun heq=>?_)
    · refine (ih s fun q hq=>hps q (mem_cons_of_mem p hq)).mono ?_ fun _ h=>h
      rintro b t ⟨ws,hn,hws,ht,hb⟩
      refine ⟨ws,hn,fun x=>?_,ht,hb⟩
      simp only [hws,mem_cons,exists_eq_or_imp,hpr,Option.some.injEq]
      grind
    · have heq := not_not.mp heq
      apply (wakeWaiting_spec _ _ pr.threads s hal hnd).bind
      rintro b1 s1 ⟨hs1,hb1⟩
      have hrs := ih s1 fun q hq=>by
        obtain ⟨pq,hpq,hq1,hq2⟩ := hps q (mem_cons_of_mem p hq)
        rw [hs1]
        exact ⟨pq,hpq,hq1,fun x hx=>Sched.exists_thread_wake (hq2 x hx)⟩
      apply hrs.bind
      rintro b2 t ⟨ws,hn,hws,ht,hb2⟩
      rw [wp_pure]
      refine ⟨pr.threads.filter s.isWaiting++ws,?_,fun x=>?_,?_,?_⟩
      · refine nodup_append.mpr ⟨hnd.filter _,hn,fun x hx y hy hxy=>?_⟩
        rw [hws,hs1,Sched.isWaiting_wake] at hy
        exact hy.1.2 (hxy▸hx)
      · simp only [mem_append,hws,hs1,Sched.isWaiting_wake,mem_filter,mem_cons,
          exists_eq_or_imp,hpr,Option.some.injEq,Sched.wake_proc]
        grind
      · rw [ht,hs1,Sched.wake_append]
      · simp only [Bool.or_eq_true,hb1,hb2,ne_eq,append_eq_nil_iff]
        tauto

/-- The threads of the processes with this pid that wait. -/
def Waiters (s : Sched) (pid : ℕ) (ws : List ℕ) : Prop :=
  ws.Nodup ∧ ∀ x, x ∈ ws ↔ s.isWaiting x=true ∧ ∃ p ∈ s.processes, ∃ pr,
    s.proc p=some pr ∧ pr.pid=pid ∧ x ∈ pr.threads

theorem makeProcessDefunct_spec (hl : s.globalSchedulerLock=some cpu) (hp : s.proc p=some d)
    (hps : ∀ q ∈ s.processes, ∃ pq, s.proc q=some pq ∧ pq.threads.Nodup ∧
      ∀ x ∈ pq.threads, ∃ th, s.thread x=some th) :
    Returns (makeProcessDefunct cpu p) s fun _ t =>
      (d.parent=pidKernel ∧ t=s.setProc p {d with state := .truncate}) ∨
      (d.parent≠pidKernel ∧ ∃ ws, Waiters s d.parent ws ∧
        t=(s.setProc p {d with state := if ws=[] then .defunct else .truncate}).wake
          d.pid d.exitStatus ws) := by
  by_cases hk : d.parent=pidKernel
  · simp [makeProcessDefunct,collectProcess,hp,hl,hk]
  · suffices hwk : Ensures (wakeParents {d with state := .defunct} s.processes)
        (s.setProc p {d with state := .defunct})
        (fun b t=>Ensures (if b then collectProcess cpu p else pure ()) t
          (fun _ t=>d.parent≠pidKernel ∧ ∃ ws, Waiters s d.parent ws ∧
            t=(s.setProc p {d with state := if ws=[] then .defunct else .truncate}).wake
              d.pid d.exitStatus ws) (fun _=>False)) (fun _=>False) by
      simpa [makeProcessDefunct,hp,hl,hk] using hwk
    refine (wakeParents_spec _ _ _ fun q hq=>?_).mono ?_ fun _ h=>h
    · obtain ⟨pq,hpq,hnd,hal⟩ := hps q hq
      simp only [Sched.setProc_proc,update_apply,Sched.setProc_thread]
      grind
    · rintro b t ⟨ws,hn,hws,ht,hb⟩
      have hset : Waiters s d.parent ws := by
        refine ⟨hn,fun x=>(hws x).trans (and_congr_right fun _=>?_)⟩
        simp only [Sched.setProc_proc,update_apply]
        grind
      cases b with
      | true =>
        have hne := hb.mp rfl
        simp only [if_true,collectProcess,wp_bind,wp_assertLockHeld,wp_modProc,ht]
        simp only [Sched.wake_lock,Sched.setProc_globalSchedulerLock,hl,if_true,Sched.wake_proc,
          Sched.setProc_proc,update_self,elim_some,Sched.wake_setProc,
          Sched.setProc_setProc]
        exact ⟨hk,ws,hset,by rw [if_neg hne]⟩
      | false =>
        have heq : ws=[] := by
          by_contra hne
          exact Bool.false_ne_true (hb.mpr hne)
        rw [if_neg Bool.false_ne_true,wp_pure,ht]
        exact ⟨hk,ws,hset,by rw [if_pos heq]⟩

theorem Sched.Inv.waitsIn_iff (h : s.Inv) : s.WaitsIn pid x ↔ s.isWaiting x=true ∧ ∃ p ∈ s.processes, ∃ pr,
      s.proc p=some pr ∧ pr.pid=pid ∧ x ∈ pr.threads := by
  constructor
  · rintro ⟨th,pr,hx,hst,hpr,hpid⟩
    obtain ⟨pr',hpr',hin,hp⟩ := h.parent hx (by simp [hst])
    rw [hpr',Option.some.injEq] at hpr
    exact ⟨by simp [isWaiting,hx,hst],th.parent,hp,pr,by rw [hpr',hpr],hpid,hpr▸hin⟩
  · rintro ⟨hw,p,-,pr,hpr,hpid,hin⟩
    obtain ⟨-,th,hx,hpar,-⟩ := h.listed p pr x hpr hin
    exact ⟨th,pr,hx,by simpa [isWaiting,hx] using hw,by rw [hpar,hpr],hpid⟩

theorem destroyThread_spec (h : s.Inv) (hl : s.globalSchedulerLock=some cpu) (hsch : s.scheduler cpu≠none)
    (hq : s.queue=a::rest) (ha : s.thread a=some th) (hex : th.state=.exited) :
    Returns (destroyThread cpu a) (s.setQueue rest) fun _ t =>
      t.globalSchedulerLock=some cpu ∧ Effect cpu s .schedulerRound none t := by
  obtain ⟨pr,hpr,hin,-⟩ := h.parent ha (by simp [hex])
  suffices hnx : Ensures
      (if pr.threads.erase a=[] then do
        kassert "proc != &kernel_process" (th.parent≠kernelProcess)
        makeProcessDefunct cpu th.parent
      else pure ())
      (((s.setThread a none).setProc th.parent {pr with threads := pr.threads.erase a}).setQueue rest)
      (fun _ t=>t.globalSchedulerLock=some cpu ∧ Effect cpu s .schedulerRound none t)
      (fun _=>False) by
    simpa [destroyThread,ha,hex,hpr,hl,wp_kassert_iff] using hnx
  refine Ensures.ite (fun hls=>?_) (fun hmr=>?_)
  · -- the scheduler thread of this CPU is still on the list of the kernel process
    have hk : th.parent≠kernelProcess := by
      intro hk
      obtain ⟨b,hb⟩ := ne_none_iff_exists'.mp hsch
      obtain ⟨tb,htb,hst,hpar⟩ := h.schedulers cpu b hb
      obtain ⟨pb,hpb,hbin,-⟩ := h.parent htb (by simp [hst])
      have hba : b≠a := by
        rintro rfl
        simp_all
      have hin' : b ∈ pr.threads := by simp_all
      have hmem := (mem_erase_of_ne hba).mpr hin'
      rw [hls] at hmem
      exact not_mem_nil hmem
    rw [wp_bind,wp_kassert (by simpa using hk)]
    refine (makeProcessDefunct_spec (p := th.parent) (d := {pr with threads := pr.threads.erase a})
      ?_ ?_ fun q hq'=>?_).mono ?_ fun _ h=>h
    · exact hl
    · simp
    · obtain ⟨pq,hpq⟩ := h.procs q hq'
      have hnd := h.threads_nodup q pq hpq
      have hlt := fun x hx=>h.listed q pq x hpq hx
      simp only [Sched.setQueue_proc,Sched.setProc_proc,Sched.setQueue_thread,
        Sched.setProc_thread,Sched.setThread_thread,update_apply,Sched.setThread_proc]
      by_cases hqp : q=th.parent
      · grind [List.Nodup.mem_erase_iff,List.Nodup.erase]
      · grind
    · -- the threads that wait are the same before and after the exited one is taken away
      have hset : ∀ ws, Waiters (((s.setThread a none).setProc th.parent
          {pr with threads := pr.threads.erase a}).setQueue rest) pr.parent ws →
          ∀ x, x ∈ ws ↔ s.WaitsIn pr.parent x := by
        intro ws hws x
        rw [hws.2 x,h.waitsIn_iff]
        simp only [Sched.isWaiting,Sched.setQueue_proc,Sched.setProc_proc,Sched.setQueue_thread,
          Sched.setQueue_processes,Sched.setProc_processes,Sched.setThread_processes,
          Sched.setProc_thread,Sched.setThread_thread,update_apply,Sched.setThread_proc]
        by_cases hx : x=a
        · simp [hx,ha,hex]
        · simp only [hx,if_false]
          refine and_congr_right fun _=>exists_congr fun p=>and_congr_right fun _=>?_
          by_cases hp : p=th.parent
          · simp [hp,hpr,mem_erase_of_ne hx]
          · simp [hp]
      rintro - t (⟨hpk,rfl⟩ | ⟨hpk,ws,hws,rfl⟩)
      · have heff : Effect cpu s .schedulerRound none _ := .collectOrphan hq ha hex hpr hls hk hpk
        exact ⟨hl,by simpa [hls] using heff⟩
      · have heff : Effect cpu s .schedulerRound none _ :=
          .defunct hq ha hex hpr hls hk hpk hws.1 (hset ws hws)
        exact ⟨hl,by simpa [hls] using heff⟩
  · rw [wp_pure]
    exact ⟨hl,.destroy hq ha hex hpr hmr⟩

/-- Every section ends with the release of the lock. -/
def Released (cpu : ℕ) (s : Sched) (sec : Section) (r : Option Collected) (t : Sched) : Prop :=
  ∃ t', Effect cpu s sec r t' ∧ t=t'.release cpu

theorem Released.intro (heff : Effect cpu s sec r t') (ht : t=t'.release cpu) : Released cpu s sec r t :=
  ⟨t',heff,ht⟩

theorem resumeThread_spec (h : s.Inv)
    (hl : s.globalSchedulerLock=some cpu) (hq : s.queue=a::rest) (ha : s.thread a=some th)
    (hst : th.state=.ready ∨ th.state=.sleeping) :
    Returns (resumeThread cpu a)
      (((s.setThread a (some {th.started with cond := th.cond})).setQueue rest).setCurrent cpu
        (some a)) (Released cpu s .schedulerRound) := by
  have hne : th.resume≠.exit := by
    intro hr
    have hx := h.exits a th ha hr
    simp [hx] at hst
  have hend : Released cpu s .schedulerRound (th.collected a)
      ((((s.setThread a (some th.started)).setQueue rest).setCurrent cpu (some a)).release cpu) :=
    ⟨_,.start hq ha hst hne,rfl⟩
  cases hr : th.resume with
  | exit => exact absurd hr hne
  | wait => simpa [resumeThread,hl,hr,Thread.started,Thread.collected] using hend
  | procWait => simpa [resumeThread,hl,hr,Thread.started,Thread.collected] using hend
  | entry => simpa [resumeThread,hl,hr,Thread.started,Thread.collected] using hend
  | yield => simpa [resumeThread,hl,hr,Thread.started,Thread.collected] using hend
  | sleep => simpa [resumeThread,hl,hr,Thread.started,Thread.collected] using hend

theorem schedulerRound_spec (h : s.Inv) (hl : s.globalSchedulerLock=some cpu)
    (hsch : s.scheduler cpu≠none) :
    Returns (schedulerRound cpu) s (Released cpu s .schedulerRound) := by
  cases hq : s.queue with
  | nil =>
    have hend : Released cpu s .schedulerRound none (s.release cpu) := ⟨s,.idle hq,rfl⟩
    simpa [schedulerRound,hq,hl] using hend
  | cons a rest =>
    obtain ⟨th,ha,hst⟩ := h.head hq
    rcases hst with hst | hst | hst | hst
    · have hres := resumeThread_spec h hl hq ha (.inl hst)
      simpa [schedulerRound,hq,ha,hst,Thread.started] using hres
    · by_cases hdue : th.sleepUntil<s.ticks
      · have hres := resumeThread_spec h hl hq ha (.inr hst)
        simpa [schedulerRound,hq,ha,hst,not_le.mpr hdue,Thread.started] using hres
      · have hend : Released cpu s .schedulerRound none ((s.setQueue (rest++[a])).release cpu) :=
          ⟨_,.rotate hq ha hst,rfl⟩
        simpa [schedulerRound,hq,ha,hst,not_lt.mp hdue,hl] using hend
    · have hds := destroyThread_spec h hl hsch hq ha hst
      suffices hnx : Ensures (destroyThread cpu a) (s.setQueue rest)
          (fun _ t=>Ensures (releaseLock cpu) t (fun _ t=>Released cpu s .schedulerRound none t)
            (fun _=>False)) (fun _=>False) by
        simpa [schedulerRound,hq,ha,hst] using hnx
      refine hds.mono (fun _ t ⟨htl,heff⟩=>?_) fun _ h=>h
      rw [wp_releaseLock,if_pos htl]
      exact ⟨t,heff,rfl⟩
    · have hend : Released cpu s .schedulerRound none ((s.setQueue rest).release cpu) :=
        ⟨_,.drop hq ha hst,rfl⟩
      simpa [schedulerRound,hq,ha,hst,hl] using hend

theorem released_of_leave (hl : s.globalSchedulerLock=some cpu) (hc : s.current cpu=some a)
    (hst : u.state≠.running) (heff : Effect cpu s sec none (s.leave cpu a {u with resume := r})) :
    Ensures (reschedule cpu r) (s.setThread a (some u))
      (fun _ t=>Released cpu s sec none t) (fun _=>1<s.preemptDisabled cpu) :=
  (leave_spec r hl hc hst).mono (fun _ _ ht=>⟨_,heff,ht⟩) fun _ h=>h
end

/-- The panics a caller can provoke. -/
def Section.MayPanic (s : Sched) (cpu : ℕ) : Section → Prop
  | .scheduleThread pid _ => s.getProc pid=none
  | .threadYield | .threadExit | .threadSleep _ | .procExit _ | .procWait | .schedThreadWait _ =>
    1<s.preemptDisabled cpu
  | _ => False

theorem Section.effect (sec : Section) (h : s.Inv)
    (hl : s.globalSchedulerLock=some cpu) (hen : sec.Enabled s cpu) :
    Ensures (sec.run cpu) s (Released cpu s sec) (fun _=>sec.MayPanic s cpu) := by
  cases sec with
  | schedulerRound => exact (schedulerRound_spec h hl hen.1).ensures
  | enterScheduler a =>
    obtain ⟨pr,hpr⟩ := h.procs kernelProcess h.kernel
    have hend : Released cpu s (.enterScheduler a) none _ := ⟨_,.enter hpr,rfl⟩
    simpa [run,Scheduler.enterScheduler,insertThread,hpr,hl,Process.adopt,threadConstructEmpty] using hend
  | scheduleProc p a =>
    obtain ⟨-,⟨pr,hpr,-⟩,th,ha,-⟩ := hen
    have hend : Released cpu s (.scheduleProc p a) none _ := ⟨_,.insertProc hpr ha,rfl⟩
    simpa [run,Scheduler.scheduleProc,insertThread,hpr,ha,hl,Process.adopt] using hend
  | scheduleThread pid a =>
    obtain ⟨th,ha,-⟩ := hen
    cases hg : s.getProc pid with
    | none => simp [run,Scheduler.scheduleThread,hg,MayPanic]
    | some p =>
      obtain ⟨pr,hpr⟩ := h.procs p (mem_of_find?_eq_some hg)
      have hend : Released cpu s (.scheduleThread pid a) none _ := ⟨_,.insertThread hg hpr ha,rfl⟩
      simpa [run,Scheduler.scheduleThread,insertThread,hg,hpr,ha,hl,Process.adopt] using hend
  | threadYield =>
    obtain ⟨a,hc⟩ := ne_none_iff_exists'.mp hen
    obtain ⟨th,ha,-⟩ := h.current hc
    have heff := Effect.yield hc ha
    have hend := released_of_leave (u := {th with state := .ready}) hl hc (by simp) heff
    simpa [run,Scheduler.threadYield,hc,ha,MayPanic] using hend
  | threadExit =>
    obtain ⟨a,hc⟩ := ne_none_iff_exists'.mp hen
    obtain ⟨th,ha,-⟩ := h.current hc
    have heff := Effect.exit hc ha
    have hend := released_of_leave (u := {th with state := .exited}) hl hc (by simp) heff
    simpa [run,Scheduler.threadExit,hc,ha,MayPanic] using hend
  | threadSleep milliseconds =>
    obtain ⟨a,hc⟩ := ne_none_iff_exists'.mp hen
    obtain ⟨th,ha,-⟩ := h.current hc
    have heff : Effect cpu s (.threadSleep milliseconds) none _ := .sleep hc ha
    have hend := released_of_leave (r := .sleep) (u := th.asleep s.ticks milliseconds) hl hc
      (by simp [Thread.asleep]) heff
    simpa [run,Scheduler.threadSleep,hc,ha,MayPanic,Thread.asleep] using hend
  | procExit status =>
    obtain ⟨a,hc⟩ := ne_none_iff_exists'.mp hen
    obtain ⟨th,ha,hst⟩ := h.current hc
    obtain ⟨pr,hpr,-⟩ := h.parent ha (by simp [hst])
    have heff : Effect cpu s (.procExit status) none _ := .procExit hc ha hpr
    have hend := (leave_spec (s := s.setProc th.parent
      {pr with state := .exiting, exitStatus := status}) (u := {th with state := .exited})
      .exit hl hc (by simp)).mono (fun _ t ht=>Released.intro heff ht) fun _ h=>h
    simpa [run,Scheduler.procExit,hc,ha,hpr,MayPanic] using hend
  | procWait =>
    obtain ⟨a,hc⟩ := ne_none_iff_exists'.mp hen
    obtain ⟨th,ha,hst⟩ := h.current hc
    obtain ⟨pr,hpr,-⟩ := h.parent ha (by simp [hst])
    cases hd : s.defunctChild pr.pid with
    | none =>
      have heff := Effect.waitForChild hc ha hpr hd
      have hend := released_of_leave (u := {th with state := .waiting}) hl hc (by simp) heff
      simpa [run,Scheduler.procWait,hc,ha,hpr,hd,MayPanic] using hend
    | some c =>
      obtain ⟨child,hch⟩ := h.procs c (mem_of_find?_eq_some hd)
      have hend : Released cpu s .procWait _ _ := ⟨_,.collect hc ha hpr hd hch,rfl⟩
      simpa [run,Scheduler.procWait,collectProcess,hc,ha,hpr,hd,hch,hl] using hend
  | schedThreadWait cond =>
    obtain ⟨a,hc⟩ := ne_none_iff_exists'.mp hen
    obtain ⟨th,ha,-⟩ := h.current hc
    have heff : Effect cpu s (.schedThreadWait cond) none _ := .block hc ha
    have hend := released_of_leave (u := {th with state := .blocked, cond := some cond}) hl hc
      (by simp) heff
    simpa [run,Scheduler.schedThreadWait,hc,ha,MayPanic] using hend
  | schedThreadNotifyOne cond =>
    cases hf : s.firstBlocked cond with
    | none =>
      have hend : Released cpu s (.schedThreadNotifyOne cond) none _ := ⟨_,.nobody hf,rfl⟩
      simpa [run,Scheduler.schedThreadNotifyOne,hf,hl] using hend
    | some a =>
      obtain ⟨th,ha,-⟩ := Sched.firstBlocked_some hf
      have hend : Released cpu s (.schedThreadNotifyOne cond) none _ := ⟨_,.notify hf ha,rfl⟩
      simpa [run,Scheduler.schedThreadNotifyOne,hf,ha,hl] using hend

end Yaos2.Scheduler
