import Yaos2.Scheduler.RunQueue

/-! # Exit and wait

A log records every call of `proc_exit` and every return of `proc_wait`. User processes have one
thread each. -/
namespace Yaos2.Scheduler
open Foundation Relation Function List Option Finset

inductive Event where
  | exited (pid : ℕ) (status : ℤ)
  | returned (parent pid : ℕ) (status : ℤ)
  deriving DecidableEq

def Event.pid : Event → ℕ
  | .exited pid _ => pid
  | .returned _ pid _ => pid

def Event.isReturn : Event → Bool
  | .exited .. => false
  | .returned .. => true

def Sched.pidOf (s : Sched) (a : ℕ) : ℕ := ((s.thread a).bind fun th=>s.proc th.parent).elim pidKernel (·.pid)

def record (s : Sched) (cpu : ℕ) (sec : Section) (r : Option Collected) : List Event :=
  match sec, r with
  | .procExit status, _ => [.exited ((s.current cpu).elim pidKernel s.pidOf) status]
  | _, some c => [.returned (s.pidOf c.thread) c.pid c.status]
  | _, none => []

/-- The thread a CPU runs belongs to the kernel process. -/
def Sched.RunsKernelThread (s : Sched) (cpu : ℕ) : Prop :=
  ∀ a th, s.current cpu=some a → s.thread a=some th → th.parent=kernelProcess

/-- User processes keep their one thread and end by `proc_exit`. -/
def Section.SingleThreaded (s : Sched) (cpu : ℕ) : Section → Prop
  | .scheduleThread pid _ => pid=pidKernel
  | .threadExit => s.RunsKernelThread cpu
  | .procExit _ => ∀ a th, s.current cpu=some a → s.thread a=some th → th.parent≠kernelProcess
  | _ => True

/-- The steps of a system of single-threaded user processes, with the log, newest event first. -/
inductive WaitStep : Sched × List Event → Sched × List Event → Prop
  | locked {s t : Sched} {log : List Event} {r : Option Collected} (sec : Section) (cpu : ℕ) :
      s.globalSchedulerLock=none → sec.Enabled s cpu → sec.SingleThreaded s cpu →
      sec.run cpu (s.acquire cpu)=.ok r t →
      WaitStep (s, log) (t, record s cpu sec r++log)
  | construct {s : Sched} {log : List Event} {a : ℕ} : s.thread a=none →
      WaitStep (s, log) (s.setThread a (some threadConstructEmpty), log)
  | assignIds {s t : Sched} {log : List Event} {th : Thread} (parent : Option ℕ) (p a : ℕ) :
      s.proc p=none → p+1<2^32 → s.thread a=some th → th.state=.new →
      assignIds parent p a s=.ok () t → WaitStep (s, log) (t, log)
  | assignTid {s t : Sched} {log : List Event} {a : ℕ} {th : Thread} : s.thread a=some th →
      th.state=.new → assignTid a s=.ok () t → WaitStep (s, log) (t, log)
  | preempt {s : Sched} {log : List Event} (cpu n : ℕ) :
      WaitStep (s, log) ({s with preemptDisabled := update s.preemptDisabled cpu n}, log)
  | tick {s : Sched} {log : List Event} : WaitStep (s, log) ({s with ticks := (s.ticks+1)%2^64}, log)

/-- A return follows the exit it reports, is made by the parent, and is the only one of its child.
-/
def LogSound (s : Sched) : List Event → Prop
  | [] => True
  | .exited c _::older => (∀ w, .exited c w ∉ older) ∧ LogSound s older
  | .returned q c v::older => .exited c v ∈ older ∧ (∀ q' w, .returned q' c w ∉ older) ∧
      (∃ p pr, s.proc p=some pr ∧ pr.pid=c ∧ pr.parent=q) ∧ LogSound s older

/-- No thread waits while its process has a child to collect. -/
def WaitJustified (s : Sched) : Prop :=
  ∀ a th pr, s.thread a=some th → th.state=.waiting → s.proc th.parent=some pr →
    ∀ c child, s.proc c=some child → child.parent=pr.pid → child.state≠.defunct

/-- Where a thread that is off the CPU goes on is determined by why it left. -/
def Thread.ResumeOk (th : Thread) : Prop :=
  match th.state with
  | .new => th.resume=.entry
  | .blocked => th.resume=.wait
  | .sleeping => th.resume=.sleep
  | .waiting => th.resume=.procWait
  | _ => True

/-- A woken thread that has yet to return from `proc_wait`. -/
def Thread.Pending (th : Thread) : Prop := th.state=.ready ∧ th.resume=.procWait

/-- The pids in use are distinct: there are no more process objects than addresses. -/
structure PidsInv (s : Sched) : Prop where
  distinct : ∀ p q pr pq, s.proc p=some pr → s.proc q=some pq → pr.pid=pq.pid → p=q
  kernel : ∀ pr, s.proc kernelProcess=some pr → pr.pid=pidKernel
  count : ∃ f : Finset ℕ, s.nextPid=f.card ∧ (∀ p ∈ f, p+1<2^32) ∧
    (∀ p, p ∈ f ↔ ∃ pr, s.proc p=some pr) ∧ ∀ p pr, s.proc p=some pr → pr.pid<s.nextPid

def Life (s : Sched) (log : List Event) (pr : Process) : Prop :=
  (pr.state=.ready ∧ (∀ v, .exited pr.pid v ∉ log) ∧
    ∃ a th, pr.threads=[a] ∧ s.thread a=some th ∧ th.state≠.exited) ∨
  (pr.state=.exiting ∧ .exited pr.pid pr.exitStatus ∈ log ∧
    ∃ a th, pr.threads=[a] ∧ s.thread a=some th ∧ th.state=.exited) ∨
  ((pr.state=.defunct ∨ pr.state=.truncate) ∧ .exited pr.pid pr.exitStatus ∈ log ∧ pr.threads=[])

structure WaitInv (s : Sched) (log : List Event) : Prop where
  inv : s.Inv
  resumes : ∀ a th, s.thread a=some th → th.ResumeOk
  pids : PidsInv s
  unlisted : ∀ p pr, s.proc p=some pr → p ∉ s.processes → pr.state=.new
  life : ∀ p pr, p≠kernelProcess → p ∈ s.processes → s.proc p=some pr → Life s log pr
  logged : ∀ e ∈ log, ∃ p pr, p ∈ s.processes ∧ p≠kernelProcess ∧ s.proc p=some pr ∧
    pr.pid=e.pid ∧ (e.isReturn → pr.state=.truncate)
  pending : ∀ a th, s.thread a=some th → th.Pending → ∃ p pr pq, p≠kernelProcess ∧
    s.proc p=some pr ∧ pr.pid=th.collectedPid ∧ pr.state=.truncate ∧ pr.exitStatus=th.collectedStatus ∧
    s.proc th.parent=some pq ∧ pr.parent=pq.pid ∧ ∀ q v, .returned q pr.pid v ∉ log
  onePending : ∀ a b th tb, s.thread a=some th → s.thread b=some tb → th.Pending → tb.Pending →
    th.collectedPid=tb.collectedPid → a=b
  sound : LogSound s log
  justified : WaitJustified s
  alive : ∀ pr, s.proc kernelProcess=some pr → pr.state≠.defunct

variable {s t : Sched} {log : List Event} {cpu : ℕ}

/-- The pid and the parent of a process do not change. -/
def KeepsIds (s t : Sched) : Prop :=
  ∀ p pr, s.proc p=some pr → ∃ pr', t.proc p=some pr' ∧ pr'.pid=pr.pid ∧ pr'.parent=pr.parent

theorem LogSound.mono (hids : KeepsIds s t) (h : LogSound s log) : LogSound t log := by
  induction log with
  | nil => trivial
  | cons e older ih =>
    cases e with
    | exited c v => exact ⟨h.1,ih h.2⟩
    | returned q c v =>
      obtain ⟨hex,hone,⟨p,pr,hp,hpid,hpar⟩,hold⟩ := h
      obtain ⟨pr',hp',hpid',hpar'⟩ := hids p pr hp
      exact ⟨hex,hone,⟨p,pr',hp',hpid'.trans hpid,hpar'.trans hpar⟩,ih hold⟩

theorem PidsInv.congr (h : PidsInv s) (hnx : t.nextPid=s.nextPid)
    (hpid : ∀ p, (t.proc p).map (·.pid)=(s.proc p).map (·.pid)) : PidsInv t := by
  obtain ⟨hd,hk,f,hf,hlt,hmem,hbn⟩ := h
  refine ⟨fun p q pr pq hp hq heq=>?_,fun pr hp=>?_,f,hnx▸hf,hlt,fun p=>?_,fun p pr hp=>?_⟩
  · obtain ⟨pr',hp',he⟩ := exists_of_map_eq (hpid p) hp
    obtain ⟨pq',hq',he'⟩ := exists_of_map_eq (hpid q) hq
    exact hd p q pr' pq' hp' hq' (he.trans (heq.trans he'.symm))
  · obtain ⟨pr',hp',he⟩ := exists_of_map_eq (hpid _) hp
    exact he▸hk pr' hp'
  · rw [hmem]
    constructor
    · rintro ⟨pr,hp⟩
      obtain ⟨pr',hp',-⟩ := exists_of_map_eq (hpid p).symm hp
      exact ⟨pr',hp'⟩
    · rintro ⟨pr,hp⟩
      obtain ⟨pr',hp',-⟩ := exists_of_map_eq (hpid p) hp
      exact ⟨pr',hp'⟩
  · obtain ⟨pr',hp',he⟩ := exists_of_map_eq (hpid p) hp
    rw [hnx,← he]
    exact hbn p pr' hp'

/-- A waiting thread of this process has no child to collect. -/
def Thread.Childless (s : Sched) (u : Thread) : Prop := ∀ pr, s.proc u.parent=some pr →
    ∀ c child, s.proc c=some child → child.parent=pr.pid → child.state≠.defunct

theorem Life.mono (h : Life s log pr) (hsub : ∀ e ∈ log, e ∈ log')
    (hnew : ∀ v, .exited pr.pid v ∈ log' → .exited pr.pid v ∈ log)
    (hth : ∀ a th, a ∈ pr.threads → s.thread a=some th →
      ∃ u, t.thread a=some u ∧ (u.state=.exited ↔ th.state=.exited)) : Life t log' pr := by
  rcases h with ⟨h1,h2,a,th,h3,h4,h5⟩ | ⟨h1,h2,a,th,h3,h4,h5⟩ | ⟨h1,h2,h3⟩
  · obtain ⟨u,hu,hiff⟩ := hth a th (by simp [h3]) h4
    exact .inl ⟨h1,fun v hv=>h2 v (hnew v hv),a,u,h3,hu,fun hx=>h5 (hiff.mp hx)⟩
  · obtain ⟨u,hu,hiff⟩ := hth a th (by simp [h3]) h4
    exact .inr (.inl ⟨h1,hsub _ h2,a,u,h3,hu,hiff.mpr h5⟩)
  · exact .inr (.inr ⟨h1,hsub _ h2,h3⟩)

variable {a x p : ℕ} {u th : Thread} {d pr pr' : Process} {rest : List ℕ}

theorem update_some_cases {f : ℕ → Option Thread}
    (h : update f a (some u) x=some v) : x≠a ∧ f x=some v ∨ x=a ∧ u=v := by
  rw [update_apply] at h
  split at h
  · next hxa => exact .inr ⟨hxa,Option.some.inj h⟩
  · next hxa => exact .inl ⟨hxa,h⟩

theorem update_none_cases {f : ℕ → Option Thread} (h : update f a none x=some u) : f x=some u := by
  rw [update_apply] at h
  split at h
  · cases h
  · exact h

theorem PidsInv.setProc (h : PidsInv s) (hp : s.proc p=some pr)
    (hpr : t.proc=update s.proc p (some pr')) (hpid : pr'.pid=pr.pid)
    (hn : t.nextPid=s.nextPid) : PidsInv t := by
  refine h.congr hn fun x=>?_
  rw [hpr,update_apply]
  split
  · next hxp => rw [hxp,hp,map_some,map_some,hpid]
  · rfl

/-- The thread is the one that is told of the end of the process `p`. -/
structure Told (s t : Sched) (log : List Event) (p : ℕ) (d : Process) (a : ℕ) (u : Thread) : Prop where
  user : p≠kernelProcess
  truncate : d.state=.truncate
  pid : d.pid=u.collectedPid
  status : d.exitStatus=u.collectedStatus
  parent : ∃ pq, s.proc u.parent=some pq ∧ d.parent=pq.pid
  other : ∀ b v, t.thread b=some v → v.Pending → b=a ∨ s.thread b=some v ∧ v.collectedPid≠d.pid
  unreturned : ∀ q v, .returned q d.pid v ∉ log

theorem WaitInv.advance (h : WaitInv s log) (hinv : t.Inv) (hpi : PidsInv t)
    (hpr : t.proc=update s.proc p (some d))
    (hp : ∀ pr, s.proc p=some pr → d.pid=pr.pid ∧ d.parent=pr.parent ∧
      (p≠kernelProcess → pr.state=.truncate → d.state=.truncate ∧ d.exitStatus=pr.exitStatus))
    (hps : ∀ q, q≠p → (q ∈ t.processes ↔ q ∈ s.processes)) (hl : p ∈ s.processes → p ∈ t.processes)
    (hun : p ∉ t.processes → d.state=.new) (hlf : p≠kernelProcess → p ∈ t.processes → Life t log' d)
    (hdef : d.state=.defunct → p≠kernelProcess ∧ ∀ x, ¬ s.WaitsIn d.parent x)
    (hsub : ∀ e ∈ log, e ∈ log')
    (hnew : ∀ e ∈ log', e ∈ log ∨ p≠kernelProcess ∧ p ∈ t.processes ∧ ∃ v, e=.exited d.pid v)
    (hsn : LogSound s log')
    (hth : ∀ a u, t.thread a=some u → u.ResumeOk ∧
      (u.Pending → s.thread a=some u ∨ Told s t log' p d a u) ∧
      (u.state=.waiting → s.thread a=some u ∨ u.Childless t))
    (hus : ∀ q pq a th, q≠p → q≠kernelProcess → s.proc q=some pq → a ∈ pq.threads →
      s.thread a=some th → ∃ u, t.thread a=some u ∧ (u.state=.exited ↔ th.state=.exited)) :
    WaitInv t log' := by
  have hat : t.proc p=some d := by rw [hpr,update_self]
  have hne : ∀ q, q≠p → t.proc q=s.proc q := fun q hq=>by rw [hpr,update_of_ne hq]
  have hids : KeepsIds s t := by
    intro q pq hq
    by_cases hqp : q=p
    · subst hqp
      exact ⟨d,hat,(hp pq hq).1,(hp pq hq).2.1⟩
    · exact ⟨pq,(hne q hqp).trans hq,rfl,rfl⟩
  refine ⟨hinv,fun a u ha=>(hth a u ha).1,hpi,?_,?_,?_,?_,?_,hsn.mono hids,?_,?_⟩
  · intro q pq hq hnl
    by_cases hqp : q=p
    · subst hqp
      exact mem_unique hat hq▸hun hnl
    · exact h.unlisted q pq ((hne q hqp).symm.trans hq) (mt (hps q hqp).mpr hnl)
  · intro q pq hkq hlq hq
    by_cases hqp : q=p
    · subst hqp
      exact mem_unique hat hq▸hlf hkq hlq
    · have hpe : pq.pid≠d.pid := fun heq=>hqp (hpi.distinct q p pq d hq hat heq)
      rw [hne q hqp] at hq
      refine (h.life q pq hkq ((hps q hqp).mp hlq) hq).mono hsub (fun v hv=>?_)
        fun a th=>hus q pq a th hqp hkq hq
      rcases hnew _ hv with hv | ⟨-,-,w,hw⟩
      · exact hv
      · exact absurd (Event.exited.inj hw).1 hpe
  · intro e he
    rcases hnew e he with he | ⟨hk,hin,v,rfl⟩
    · obtain ⟨q,pq,hlq,hkq,hq,hpd,hret⟩ := h.logged e he
      by_cases hqp : q=p
      · subst hqp
        obtain ⟨hpid,-,htr⟩ := hp pq hq
        exact ⟨q,d,hl hlq,hkq,hat,hpid.trans hpd,fun hr=>(htr hkq (hret hr)).1⟩
      · exact ⟨q,pq,(hps q hqp).mpr hlq,hkq,(hne q hqp).trans hq,hpd,hret⟩
    · exact ⟨p,d,hin,hk,hat,rfl,fun hr=>by cases hr⟩
  · intro a u ha hpn
    rcases (hth a u ha).2.1 hpn with ha' | htl
    · obtain ⟨q,pq,pp,hkq,hq,hpd,hst,hex,hpp,hpq,hret⟩ := h.pending a u ha' hpn
      obtain ⟨pp',hpp',hpi',-⟩ := hids _ pp hpp
      have hret' : ∀ x v, .returned x pq.pid v ∉ log' := by
        intro x v hin
        rcases hnew _ hin with hin | ⟨-,-,w,hw⟩
        · exact hret x v hin
        · cases hw
      by_cases hqp : q=p
      · subst hqp
        obtain ⟨hpid,hpar,htr⟩ := hp pq hq
        obtain ⟨hst',hex'⟩ := htr hkq hst
        exact ⟨q,d,pp',hkq,hat,hpid.trans hpd,hst',hex'.trans hex,hpp',
          hpar.trans (hpq.trans hpi'.symm),fun x v=>hpid▸hret' x v⟩
      · exact ⟨q,pq,pp',hkq,(hne q hqp).trans hq,hpd,hst,hex,hpp',hpq.trans hpi'.symm,hret'⟩
    · obtain ⟨pp,hpp,hpar⟩ := htl.parent
      obtain ⟨pp',hpp',hpi',-⟩ := hids _ pp hpp
      exact ⟨p,d,pp',htl.user,hat,htl.pid,htl.truncate,htl.status,hpp',hpar.trans hpi'.symm,htl.unreturned⟩
  · intro a b u v ha hb hpa hpb heq
    rcases (hth a u ha).2.1 hpa with ha' | htl
    · rcases (hth b v hb).2.1 hpb with hb' | htl
      · exact h.onePending a b u v ha' hb' hpa hpb heq
      · exact (htl.other a u ha hpa).resolve_right fun hc=>hc.2 (heq.trans htl.pid.symm)
    · exact ((htl.other b v hb hpb).resolve_right fun hc=>hc.2 (heq.symm.trans htl.pid.symm)).symm
  · intro a u pu ha hst hpu c child hc hpc hdf
    rcases (hth a u ha).2.2 hst with ha' | hls
    · -- the process of the waiting thread, as it was
      obtain ⟨pu',hpu',-⟩ := h.inv.parent ha' (by simp [hst])
      obtain ⟨pt,hpt,hpidu,-⟩ := hids _ pu' hpu'
      obtain rfl := mem_unique hpu hpt
      by_cases hcp : c=p
      · subst hcp
        obtain rfl := mem_unique hat hc
        exact (hdef hdf).2 a ⟨u,pu',ha',hst,hpu',hpidu.symm.trans hpc.symm⟩
      · rw [hne c hcp] at hc
        exact h.justified a u pu' ha' hst hpu' c child hc (hpc.trans hpidu) hdf
    · exact hls pu hpu c child hc hpc hdf
  · intro pk hpk hdf
    by_cases hk : kernelProcess=p
    · subst hk
      obtain rfl := mem_unique hat hpk
      exact (hdef hdf).1 rfl
    · exact h.alive pk ((hne _ hk).symm.trans hpk) hdf

/-- Only the kernel process changes, and neither its ids nor its end. -/
structure KeepsUsers (s t : Sched) : Prop where
  user : ∀ p, p≠kernelProcess → t.proc p=s.proc p
  kernel : ∀ pr, t.proc kernelProcess=some pr → ∃ pk, s.proc kernelProcess=some pk ∧
    pr.pid=pk.pid ∧ pr.parent=pk.parent ∧ (pr.state=.defunct → pk.state=.defunct)

theorem KeepsUsers.of_eq (hpr : t.proc=s.proc) : KeepsUsers s t :=
  ⟨fun p _=>by rw [hpr],fun pr hp=>⟨pr,hpr▸hp,rfl,rfl,id⟩⟩

namespace WaitInv

section
variable (h : WaitInv s log)
include h
theorem keep (hinv : t.Inv) (hpr : KeepsUsers s t) (hps : t.processes=s.processes) (hnx : t.nextPid=s.nextPid)
    (hth : ∀ a u, t.thread a=some u → u.ResumeOk ∧ (u.Pending → s.thread a=some u) ∧
      (u.state=.waiting → s.thread a=some u ∨ u.Childless t))
    (hus : ∀ p pr a th, p≠kernelProcess → s.proc p=some pr → a ∈ pr.threads →
      s.thread a=some th → ∃ u, t.thread a=some u ∧ (u.state=.exited ↔ th.state=.exited)) :
    WaitInv t log := by
  obtain ⟨tk,htk⟩ := hinv.procs _ hinv.kernel
  obtain ⟨pk,hpk,hkp,hkr,hkst⟩ := hpr.kernel tk htk
  have hup : t.proc=update s.proc kernelProcess (some tk) := by
    funext q
    by_cases hq : q=kernelProcess
    · rw [hq,htk,update_self]
    · rw [hpr.user q hq,update_of_ne hq]
  refine h.advance hinv (h.pids.setProc hpk hup hkp hnx) hup (fun q hq=>?_) (fun q _=>by rw [hps])
    (fun _=>hinv.kernel) (absurd hinv.kernel) (absurd rfl) (fun hdf=>absurd (hkst hdf) (h.alive pk hpk))
    (fun _ he=>he) (fun _ he=>.inl he) h.sound
    (fun a u ha=>⟨(hth a u ha).1,fun hpn=>.inl ((hth a u ha).2.1 hpn),(hth a u ha).2.2⟩) (fun q pq a th _=>hus q pq a th)
  obtain rfl := mem_unique hpk hq
  exact ⟨hkp,hkr,absurd rfl⟩

theorem change (hinv : t.Inv)
    (ht : t.thread=update s.thread a (some u)) (hok : u.ResumeOk) (hpn : ¬ u.Pending)
    (hwt : u.state=.waiting → u.Childless t)
    (hex : ∀ th, s.thread a=some th → th.state≠.new → th.parent≠kernelProcess →
      (u.state=.exited ↔ th.state=.exited))
    (hpr : KeepsUsers s t) (hps : t.processes=s.processes) (hnx : t.nextPid=s.nextPid) :
    WaitInv t log := by
  have hth : ∀ x, t.thread x=if x=a then some u else s.thread x := fun x=>by
    rw [ht,update_apply]
  refine h.keep hinv hpr hps hnx (fun x v hx=>?_) (fun p pr x th hk hp hin hx=>?_)
  · rw [ht] at hx
    rcases update_some_cases hx with ⟨-,hx'⟩ | ⟨-,rfl⟩
    · exact ⟨h.resumes x v hx',fun _=>hx',fun _=>.inl hx'⟩
    · exact ⟨hok,fun hp=>absurd hp hpn,fun hw=>.inr (hwt hw)⟩
  · by_cases hxa : x=a
    · subst hxa
      obtain ⟨-,th',hx',hpar,hnew⟩ := h.inv.listed p pr x hp hin
      obtain rfl := mem_unique hx hx'
      exact ⟨u,by rw [hth,if_pos rfl],hex th hx hnew (hpar▸hk)⟩
    · exact ⟨th,by rw [hth,if_neg hxa,hx],Iff.rfl⟩

theorem dead (hk : p≠kernelProcess) (hp : s.proc p=some d) (hst : d.state=.defunct ∨ d.state=.truncate) :
    p ∈ s.processes ∧ .exited d.pid d.exitStatus ∈ log ∧ d.threads=[] := by
  have hl : p ∈ s.processes := by
    by_contra hl
    simp [h.unlisted p d hp hl] at hst
  rcases h.life p d hk hl hp with ⟨h1,-⟩ | ⟨h1,-⟩ | ⟨-,h2⟩
  · simp [h1] at hst
  · simp [h1] at hst
  · exact ⟨hl,h2⟩

theorem entry (ha : s.thread a=some th) (hnew : th.state=.new) : th.resume=.entry := by
  simpa [Thread.ResumeOk,hnew] using h.resumes a th ha

theorem thread_ne (ha : s.thread a=some th)
    (hq : s.proc q=some pr) (hx : x ∈ pr.threads) (hne : q≠th.parent ∨ th.state=.new) : x≠a := by
  rintro rfl
  obtain ⟨-,tx,htx,hpar,hnew⟩ := h.inv.listed q pr x hq hx
  obtain rfl := mem_unique ha htx
  exact hne.elim (fun hne=>hne hpar.symm) hnew

theorem addReturn (hk : p≠kernelProcess)
    (hp : s.proc p=some d) (hst : d.state=.truncate) (hpar : d.parent=q)
    (hret : ∀ q v, .returned q d.pid v ∉ log)
    (hpn : ∀ a th, s.thread a=some th → th.Pending → th.collectedPid≠d.pid) :
    WaitInv s (.returned q d.pid d.exitStatus::log) := by
  obtain ⟨hl,hex,-⟩ := h.dead hk hp (.inr hst)
  refine ⟨h.inv,h.resumes,h.pids,h.unlisted,?_,?_,?_,h.onePending,?_,h.justified,h.alive⟩
  · intro x px hkx hlx hx
    exact (h.life x px hkx hlx hx).mono (fun _=>mem_cons_of_mem _) (fun v hv=>by simpa using hv)
      fun a th _ ha=>⟨th,ha,Iff.rfl⟩
  · intro e he
    rcases mem_cons.mp he with rfl | he
    · exact ⟨p,d,hl,hk,hp,rfl,fun _=>hst⟩
    · exact h.logged e he
  · intro a th ha hpa
    obtain ⟨x,px,pq,hkx,hx,hpid,hstx,hexx,hq,hpr,hrt⟩ := h.pending a th ha hpa
    refine ⟨x,px,pq,hkx,hx,hpid,hstx,hexx,hq,hpr,fun q' v hin=>?_⟩
    rcases mem_cons.mp hin with heq | hin
    · simp only [Event.returned.injEq] at heq
      exact hpn a th ha hpa (hpid.symm.trans heq.2.1)
    · exact hrt q' v hin
  · exact ⟨hex,hret,⟨p,d,hp,rfl,hpar⟩,h.sound⟩
end

end WaitInv

theorem PidsInv.assign (h : PidsInv s) (hp : s.proc p=none)
    (hlt : p+1<2^32) (hpr : t.proc=update s.proc p (some pr))
    (hpid : pr.pid=s.nextPid) (hnx : t.nextPid=(s.nextPid+1)%2^32)
    (hk : p≠kernelProcess) : PidsInv t := by
  obtain ⟨hd,hker,f,hf,hflt,hmem,hbn⟩ := h
  have hnot : p ∉ f := by simp_all
  have hcr : (insert p f).card=s.nextPid+1 := by rw [card_insert_of_notMem hnot,hf]
  have hsub : insert p f ⊆ Finset.range (2^32-1) := by
    intro x hx
    rw [Finset.mem_range]
    rcases mem_insert.mp hx with rfl | hx
    · omega
    · have := hflt x hx
      omega
  have hle : s.nextPid+1≤2^32-1 := by
    have := card_le_card hsub
    rwa [hcr,card_range] at this
  have hnx' : t.nextPid=s.nextPid+1 := by rw [hnx,Nat.mod_eq_of_lt (by omega)]
  have hat : ∀ x, t.proc x=if x=p then some pr else s.proc x := fun x=>by
    rw [hpr,update_apply]
  refine ⟨?_,?_,insert p f,hnx'.trans hcr.symm,?_,?_,?_⟩
  · grind
  · grind
  · grind
  · grind
  · grind

namespace WaitInv

section
variable (h : WaitInv s log)
include h
theorem assign (hinv : t.Inv) (hp : s.proc p=none) (hlt : p+1<2^32)
    (hpr : t.proc=update s.proc p (some pr)) (hst : pr.state=.new)
    (hpid : pr.pid=s.nextPid) (hps : t.processes=s.processes)
    (hnx : t.nextPid=(s.nextPid+1)%2^32) (ha : s.thread a=some th)
    (hnew : th.state=.new) (hu : u.state=.new) (hen : u.resume=.entry)
    (ht : t.thread=update s.thread a (some u)) : WaitInv t log := by
  have hunl : p ∉ s.processes := by
    intro hl
    obtain ⟨pr',hp'⟩ := h.inv.procs p hl
    simp [hp] at hp'
  have hk : p≠kernelProcess := fun hk=>hunl (hk▸h.inv.kernel)
  refine h.advance hinv (h.pids.assign hp hlt hpr hpid hnx hk) hpr (by simp [hp]) (fun q _=>by rw [hps])
    (fun hl=>absurd hl hunl) (fun _=>hst) (fun _ hl=>absurd (hps▸hl) hunl) (by simp [hst])
    (fun _ he=>he) (fun _ he=>.inl he) h.sound (fun y v hy=>?_) (fun q pq x tx _ _ hq hin hx=>?_)
  · rw [ht] at hy
    rcases update_some_cases hy with ⟨-,hy'⟩ | ⟨-,rfl⟩
    · exact ⟨h.resumes y v hy',fun _=>.inl hy',fun _=>.inl hy'⟩
    · simp [Thread.ResumeOk,Thread.Pending,hu,hen]
  · simp [ht,update_of_ne (h.thread_ne ha hq hin (.inr hnew)),hx]

theorem onlyThread (ha : s.thread a=some th) (hnew : th.state≠.new) (hk : th.parent≠kernelProcess)
    (hp : s.proc th.parent=some pr) :
    pr.threads=[a] ∧ (th.state=.exited → pr.state=.exiting ∧ .exited pr.pid pr.exitStatus ∈ log) ∧
      (th.state≠.exited → pr.state=.ready ∧ ∀ v, .exited pr.pid v ∉ log) := by
  obtain ⟨pr',hp',hin,hl⟩ := h.inv.parent ha hnew
  obtain rfl := mem_unique hp hp'
  rcases h.life _ pr hk hl hp with ⟨h1,h2,x,tx,h3,h4,h5⟩ | ⟨h1,h2,x,tx,h3,h4,h5⟩ | ⟨-,-,h3⟩
  · simp_all
  · simp_all
  · simp_all

theorem not_returned (hp : s.proc p=some pr)
    (hst : pr.state≠.truncate) (q : ℕ) (v : ℤ) : .returned q pr.pid v ∉ log := by
  intro hin
  obtain ⟨x,px,-,-,hx,hpid,ht⟩ := h.logged _ hin
  obtain rfl := h.pids.distinct x p px pr hx hp hpid
  obtain rfl := mem_unique hp hx
  exact hst (ht rfl)

theorem not_pending (hp : s.proc p=some pr) (hst : pr.state≠.truncate) (ha : s.thread a=some u)
    (hpn : u.Pending) : u.collectedPid≠pr.pid := by
  intro heq
  obtain ⟨x,px,-,-,hx,hpid,htr,-⟩ := h.pending a u ha hpn
  obtain rfl := h.pids.distinct x p px pr hx hp (hpid.trans heq)
  obtain rfl := mem_unique hp hx
  exact hst htr

theorem same (hinv : t.Inv) (ht : t.thread=s.thread)
    (hp : t.proc=s.proc) (hps : t.processes=s.processes) (hn : t.nextPid=s.nextPid) :
    WaitInv t log := by
  refine h.keep hinv (.of_eq hp) hps hn (fun a u ha=>?_)
    (fun p pr a th _ _ _ ha=>⟨th,by rw [ht,ha],Iff.rfl⟩)
  rw [ht] at ha
  exact ⟨h.resumes a u ha,fun _=>ha,fun _=>.inl ha⟩

theorem start (hinv : (((s.setThread a (some th.started)).setQueue rest).setCurrent cpu (some a)).Inv)
    (ha : s.thread a=some th) (hst : th.state=.ready ∨ th.state=.sleeping) :
    WaitInv (((s.setThread a (some th.started)).setQueue rest).setCurrent cpu (some a))
      (record s cpu .schedulerRound (th.collected a)++log) := by
  have hbs : WaitInv (((s.setThread a (some th.started)).setQueue rest).setCurrent cpu (some a))
      log := by
    refine h.change hinv rfl trivial (fun hp=>by cases hp.1) (fun hw=>by cases hw)
      (fun v hv _ _=>?_) (.of_eq rfl) rfl rfl
    obtain rfl := mem_unique ha hv
    rcases hst with hst | hst <;> simp [Thread.started,hst]
  by_cases hr : th.resume=.procWait
  · have hrd : th.state=.ready := by
      rcases hst with hst | hst
      · exact hst
      · have hok := h.resumes a th ha
        simp [Thread.ResumeOk,hst,hr] at hok
    obtain ⟨p,pr,pq,hk,hp,hpid,htr,hex,hq,hpar,hret⟩ := h.pending a th ha ⟨hrd,hr⟩
    have hlog : record s cpu .schedulerRound (th.collected a)=[.returned pq.pid pr.pid pr.exitStatus] := by
      simp [record,Thread.collected,hr,Sched.pidOf,ha,hq,hpid,hex]
    rw [hlog]
    refine hbs.addReturn hk hp htr hpar hret fun b v hb hpv heq=>?_
    have hba : b≠a := by
      rintro rfl
      simp only [Sched.setCurrent_thread,Sched.setQueue_thread,Sched.setThread_thread,
        update_self,Option.some.injEq] at hb
      subst hb
      cases hpv.1
    have hb' : s.thread b=some v := by simpa [hba] using hb
    exact hba (h.onePending b a v th hb' ha hpv ⟨hrd,hr⟩ (heq.trans hpid))
  · have hlog : record s cpu .schedulerRound (th.collected a)=[] := by
      simp [record,Thread.collected,hr]
    rwa [hlog]

theorem waiter_unique (hpid : pid≠pidKernel) (hx : s.WaitsIn pid x) (hy : s.WaitsIn pid y) : x=y := by
  obtain ⟨tx,px,htx,hwx,hpx,hpd⟩ := hx
  obtain ⟨ty,py,hty,hwy,hpy,hpi⟩ := hy
  have hpar := h.pids.distinct _ _ px py hpx hpy (hpd.trans hpi.symm)
  have hk : tx.parent≠kernelProcess := by
    intro hk
    rw [hk] at hpx
    exact hpid (hpd.symm.trans (h.pids.kernel px hpx))
  have hone := (h.onlyThread htx (by simp [hwx]) hk hpx).1
  have htwo := (h.onlyThread hty (by simp [hwy]) (hpar▸hk) hpy).1
  rw [hpar] at hpx
  obtain rfl := mem_unique hpx hpy
  exact singleton_injective (hone.symm.trans htwo)

theorem bury (hinv : ((((s.setThread a none).setProc th.parent {pr with threads := [], state := st}).setQueue
      rest).wake pr.pid pr.exitStatus ws).Inv)
    (ha : s.thread a=some th) (hex : th.state=.exited) (hk : th.parent≠kernelProcess)
    (hp : s.proc th.parent=some pr) (hst : st=.truncate ∨ st=.defunct ∧ ∀ x, ¬ s.WaitsIn pr.parent x)
    (hws : ∀ x ∈ ws, s.WaitsIn pr.parent x ∧ ∀ y ∈ ws, y=x) :
    WaitInv ((((s.setThread a none).setProc th.parent {pr with threads := [], state := st}).setQueue
      rest).wake pr.pid pr.exitStatus ws) log := by
  obtain ⟨hone,het,-⟩ := h.onlyThread ha (by simp [hex]) hk hp
  obtain ⟨het,hlg⟩ := het hex
  have hlv : pr.state≠.truncate := by simp [het]
  obtain ⟨-,-,-,hl⟩ := h.inv.parent ha (by simp [hex])
  have hw : ∀ y ∈ ws, ∃ tx px, s.thread y=some tx ∧ tx.state=.waiting ∧ s.proc tx.parent=some px ∧
      px.pid=pr.parent ∧ update s.thread a none y=some tx := by
    intro y hy
    obtain ⟨tx,px,htx,hwt,hpx,hpd⟩ := (hws y hy).1
    exact ⟨tx,px,htx,hwt,hpx,hpd,by rw [update_of_ne (Sched.ne_of_state ha htx (by simp [hwt,hex])),htx]⟩
  generalize hq : ((((s.setThread a none).setProc th.parent {pr with threads := [], state := st}).setQueue
      rest).wake pr.pid pr.exitStatus ws)=t at hinv ⊢
  have hin : ∀ {y}, y ∈ ws → t.thread y=(update s.thread a none y).map
      ({ · with collectedPid := pr.pid, collectedStatus := pr.exitStatus, state := .ready}) := by
    intro y hy
    rw [← hq]
    exact if_pos hy
  have hout : ∀ {y}, y ∉ ws → t.thread y=update s.thread a none y := by
    intro y hy
    rw [← hq]
    exact if_neg hy
  have hold : ∀ {y v}, t.thread y=some v → y ∉ ws → s.thread y=some v :=
    fun hy hn=>update_none_cases ((hout hn).symm.trans hy)
  have hup : t.proc=update s.proc th.parent (some {pr with threads := [], state := st}) := by rw [← hq]; rfl
  have hret := h.not_returned hp hlv
  have hpn := fun b v=>h.not_pending (a := b) (u := v) hp hlv
  refine h.advance hinv (h.pids.setProc hp hup rfl (by rw [← hq]; rfl)) hup
    (fun q hpq=>?_) (fun q _=>by rw [← hq]; rfl) (fun _=>by rw [← hq]; exact hl)
    (fun hn=>absurd hl (by rw [← hq] at hn; exact hn)) (fun _ _=>?_) (fun hdef=>?_)
    (fun _ he=>he) (fun _ he=>.inl he) h.sound (fun x u hx=>?_) (fun q pq x tx hqp hkq hpq hxin hx=>?_)
  · obtain rfl := mem_unique hp hpq
    exact ⟨rfl,rfl,fun _ htr=>absurd htr hlv⟩
  · exact .inr (.inr ⟨hst.symm.imp_left And.left,hlg,rfl⟩)
  · rcases hst with rfl | ⟨-,hnn⟩
    · cases hdef
    · exact ⟨hk,hnn⟩
  · by_cases hxw : x ∈ ws
    · obtain ⟨tx,px,htx,hwt,hpx,hpd,hup⟩ := hw x hxw
      rw [hin hxw,hup] at hx
      obtain rfl := Option.some.inj hx
      refine ⟨trivial,fun _=>.inr ⟨hk,?_,rfl,rfl,⟨px,hpx,hpd.symm⟩,fun b v hb hpv=>?_,hret⟩,nofun⟩
      · exact hst.resolve_right fun hc=>hc.2 x (hws x hxw).1
      · by_cases hbw : b ∈ ws
        · exact .inl ((hws x hxw).2 b hbw)
        · exact .inr ⟨hold hb hbw,hpn b v (hold hb hbw) hpv⟩
    · have hx' := hold hx hxw
      exact ⟨h.resumes x u hx',fun _=>.inl hx',fun _=>.inl hx'⟩
  · by_cases hxw : x ∈ ws
    · obtain ⟨ty,-,hty,hwt,-,-,hup⟩ := hw x hxw
      obtain rfl := mem_unique hx hty
      exact ⟨_,by rw [hin hxw,hup]; rfl,by simp [hwt]⟩
    · exact ⟨tx,by rw [hout hxw,update_of_ne (h.thread_ne ha hpq hxin (.inl hqp)),hx],Iff.rfl⟩
end

end WaitInv

theorem childless_of_defunctChild (h : WaitInv s log)
    (hp : s.proc u.parent=some pr) (hd : s.defunctChild pr.pid=none) : u.Childless s := by
  intro pr' hp' c child hc hpar hdef
  obtain rfl := mem_unique hp hp'
  have hk : c≠kernelProcess := fun hk=>h.alive child (hk▸hc) hdef
  have hnn := List.find?_eq_none.mp hd c (h.dead hk hc (.inl hdef)).1
  simp [hc,hpar,hdef] at hnn

theorem defunctChild_some (hd : s.defunctChild pid=some c)
    (hc : s.proc c=some child) : child.parent=pid ∧ child.state=.defunct := by
  have hf := List.find?_some hd
  simpa [hc] using hf

theorem WaitInv.getProc_kernel (h : WaitInv s log) (hg : s.getProc pidKernel=some p) : p=kernelProcess := by
  obtain ⟨pk,hpk⟩ := h.inv.procs _ h.inv.kernel
  obtain ⟨pr,hp⟩ := h.inv.procs p (mem_of_find?_eq_some hg)
  have hf := List.find?_some hg
  have hpid : pr.pid=pidKernel := by simpa [hp] using hf
  exact h.pids.distinct p _ pr pk hp hpk (hpid.trans (h.pids.kernel pk hpk).symm)

theorem KeepsUsers.setKernel (hp : s.proc kernelProcess=some pr)
    (hpr : t.proc=update s.proc kernelProcess (some d)) (hpid : d.pid=pr.pid)
    (hpar : d.parent=pr.parent) (hdef : d.state=.defunct → pr.state=.defunct) : KeepsUsers s t := by
  refine ⟨fun p hk=>by rw [hpr,update_of_ne hk],fun q hq=>?_⟩
  rw [hpr,update_self,Option.some.injEq] at hq
  subst hq
  exact ⟨pr,hp,hpid,hpar,hdef⟩

section
variable (h : WaitInv s log)
include h
theorem WaitInv.leave (hinv : (s.leave cpu a u).Inv)
    (hc : s.current cpu=some a) (ha : s.thread a=some th) (hok : u.ResumeOk)
    (hpn : ¬ u.Pending) (hwt : u.state=.waiting → u.Childless s)
    (hex : th.parent=kernelProcess ∨ u.state≠.exited) : WaitInv (s.leave cpu a u) log := by
  refine h.change hinv rfl hok hpn hwt (fun v hv _ hk=>?_) (.of_eq rfl) rfl rfl
  obtain ⟨w,hw,hrun⟩ := h.inv.current hc
  obtain rfl := mem_unique ha hv
  obtain rfl := mem_unique ha hw
  rcases hex with hex | hex
  · exact absurd hex hk
  · simp [hex,hrun]

theorem WaitInv.procExit (hinv : ((s.setProc th.parent {pr with state := .exiting, exitStatus := status}).leave cpu a
      {th with state := .exited, resume := .exit}).Inv)
    (hc : s.current cpu=some a) (ha : s.thread a=some th) (hk : th.parent≠kernelProcess)
    (hp : s.proc th.parent=some pr) :
    WaitInv ((s.setProc th.parent {pr with state := .exiting, exitStatus := status}).leave cpu a
      {th with state := .exited, resume := .exit}) (.exited pr.pid status::log) := by
  obtain ⟨w,hw,hrun⟩ := h.inv.current hc
  obtain rfl := mem_unique ha hw
  obtain ⟨hth,-,hrd⟩ := h.onlyThread ha (by simp [hrun]) hk hp
  obtain ⟨hrd,hfr⟩ := hrd (by simp [hrun])
  obtain ⟨-,-,-,hl⟩ := h.inv.parent ha (by simp [hrun])
  refine h.advance hinv (h.pids.setProc hp rfl rfl rfl) rfl (fun q hpq=>?_) (fun q _=>Iff.rfl) id
    (absurd hl) (fun _ _=>?_) nofun (fun _ he=>mem_cons_of_mem _ he) (fun e he=>?_) ⟨hfr,h.sound⟩
    (fun x u hx=>?_) (fun q pq x tx hq hkq hpq hin hx=>?_)
  · simp_all
  · exact .inr (.inl ⟨rfl,mem_cons_self,a,_,hth,update_self ..,rfl⟩)
  · rcases mem_cons.mp he with he | he
    · exact .inr ⟨hk,hl,status,he⟩
    · exact .inl he
  · rcases update_some_cases hx with ⟨-,hx'⟩ | ⟨-,rfl⟩
    · exact ⟨h.resumes x u hx',fun _=>.inl hx',fun _=>.inl hx'⟩
    · exact ⟨trivial,fun hpw=>by simp [Thread.Pending] at hpw,nofun⟩
  · exact ⟨tx,(update_of_ne (h.thread_ne ha hpq hin (.inl hq)) ..).trans hx,Iff.rfl⟩

theorem WaitInv.insertProc (hinv : ((((s.setThread a (some {th with state := .ready})).setProc p (pr.adopt a)).setQueue
      (s.queue++[a])).addProcess p).Inv)
    (hnl : p ∉ s.processes) (hp : s.proc p=some pr) (hem : pr.threads=[])
    (ha : s.thread a=some th) (hnew : th.state=.new) :
    WaitInv ((((s.setThread a (some {th with state := .ready})).setProc p (pr.adopt a)).setQueue
      (s.queue++[a])).addProcess p) log := by
  have hst := h.unlisted p pr hp hnl
  have hfr : ∀ v, .exited pr.pid v ∉ log := by
    intro v hin
    obtain ⟨q,pq,hlq,-,hq,hpid,-⟩ := h.logged _ hin
    exact hnl (h.pids.distinct q p pq pr hq hp hpid▸hlq)
  refine h.advance hinv (h.pids.setProc hp rfl rfl rfl) rfl (fun q hpq=>?_) (fun q hq=>by simp [hq])
    (fun _=>mem_cons_self) (absurd mem_cons_self) (fun _ _=>?_) (by simp [Process.adopt]) (fun _ he=>he) (fun _ he=>.inl he) h.sound
    (fun x u hx=>?_) (fun q pq x tx hq hkq hpq hin hx=>?_)
  · obtain rfl := mem_unique hp hpq
    exact ⟨rfl,rfl,fun _ htr=>by simp [hst] at htr⟩
  · exact .inl ⟨rfl,hfr,a,_,by simp [Process.adopt,hem],update_self ..,by simp⟩
  · rcases update_some_cases hx with ⟨-,hx'⟩ | ⟨-,rfl⟩
    · exact ⟨h.resumes x u hx',fun _=>.inl hx',fun _=>.inl hx'⟩
    · exact ⟨trivial,fun hpw=>absurd ((h.entry ha hnew).symm.trans hpw.2) (by simp),by simp⟩
  · exact ⟨tx,(update_of_ne (h.thread_ne ha hpq hin (.inr hnew)) ..).trans hx,Iff.rfl⟩

theorem WaitInv.collect (hinv : (s.setProc c {child with state := .truncate}).Inv) (hch : s.proc c=some child)
    (hd : child.parent=q ∧ child.state=.defunct) :
    WaitInv (s.setProc c {child with state := .truncate})
      (.returned q child.pid child.exitStatus::log) := by
  have hlv : child.state≠.truncate := by simp [hd.2]
  have hk : c≠kernelProcess := by
    rintro rfl
    exact h.alive child hch hd.2
  obtain ⟨hl,hlg⟩ := h.dead hk hch (.inl hd.2)
  have hgn : WaitInv (s.setProc c {child with state := .truncate}) log := by
    refine h.advance hinv (h.pids.setProc hch rfl rfl rfl) rfl (fun q hpq=>?_) (fun q _=>Iff.rfl) id (absurd hl)
      (fun _ _=>.inr (.inr ⟨.inr rfl,hlg⟩)) nofun (fun _ he=>he) (fun _ he=>.inl he) h.sound
      (fun x u hx=>⟨h.resumes x u hx,fun _=>.inl hx,fun _=>.inl hx⟩) (fun q pq x tx _ _ _ _ hx=>⟨tx,hx,Iff.rfl⟩)
    obtain rfl := mem_unique hch hpq
    exact ⟨rfl,rfl,fun _ _=>⟨rfl,rfl⟩⟩
  have hret := h.not_returned hch hlv
  have hpn := fun b tb=>h.not_pending (a := b) (u := tb) hch hlv
  exact hgn.addReturn (d := {child with state := .truncate}) hk (by simp) rfl hd.1 hret hpn

theorem Effect.waitInv (hen : sec.Enabled s cpu) (hone : sec.SingleThreaded s cpu) (heff : Effect cpu s sec r t) :
    WaitInv t (record s cpu sec r++log) := by
  have hinv := heff.inv h.inv hen
  cases heff with
  | idle | nobody => exact h
  | drop | rotate => exact h.same hinv rfl rfl rfl rfl
  | start hq ha hst hne => exact h.start hinv ha hst
  | @destroy a rest th pr hq ha hex hp hmr =>
    -- a process that keeps a thread is the kernel process
    have hk : th.parent=kernelProcess := by
      by_contra hk
      have htr := (h.onlyThread ha (by simp [hex]) hk hp).1
      simp [htr] at hmr
    have hker := hk▸hp
    refine h.keep hinv (.setKernel (d := {pr with threads := pr.threads.erase a}) hker
      (hk▸rfl) rfl rfl id) rfl rfl (fun x u hx=>?_)
      (fun p px x tx hkp hpx hin hx=>?_)
    · have hx' := update_none_cases hx
      exact ⟨h.resumes x u hx',fun _=>hx',fun _=>.inl hx'⟩
    · exact ⟨tx,(update_of_ne (h.thread_ne ha hpx hin (.inl (hk▸hkp))) ..).trans hx,Iff.rfl⟩
  | @collectOrphan a rest th pr hq ha hex hp hls hk hpk =>
    have hbr := h.bury (by rwa [Sched.wake_nil]) ha hex hk hp (.inl rfl) (fun x hx=>absurd hx List.not_mem_nil)
    rwa [Sched.wake_nil] at hbr
  | @defunct a rest th pr ws hq ha hex hp hls hk hpk hn hws =>
    refine h.bury hinv ha hex hk hp ?_ fun x hx=>⟨(hws x).mp hx,fun y hy=>?_⟩
    · by_cases hnil : ws=[] <;> simp_all
    · exact h.waiter_unique hpk ((hws y).mp hy) ((hws x).mp hx)
  | @enter a pr hp =>
    obtain ⟨-,-,ha⟩ := hen
    exact h.change hinv rfl trivial (fun hp=>by cases hp.1) (fun hw=>by cases hw)
      (by simp [ha]) (.setKernel hp rfl rfl rfl nofun) rfl rfl
  | @insertProc p a pr th hp ha =>
    obtain ⟨hnl,⟨pr',hp',hem⟩,th',ha',hnew,hpar⟩ := hen
    obtain rfl := mem_unique hp hp'
    obtain rfl := mem_unique ha ha'
    exact h.insertProc hinv hnl hp hem ha hnew
  | @insertThread pid p a pr th hg hp ha =>
    obtain ⟨th',ha',hnew⟩ := hen
    obtain rfl := mem_unique ha ha'
    obtain rfl : pid=pidKernel := hone
    obtain rfl := h.getProc_kernel hg
    refine h.change hinv rfl trivial (fun hp=>?_) (fun hw=>by cases hw) (fun v hv hne _=>?_)
      (.setKernel hp rfl rfl rfl nofun) rfl rfl
    · exact absurd ((h.entry ha hnew).symm.trans hp.2) (by simp)
    · exact absurd (mem_unique ha hv▸hnew) hne
  | yield hc ha =>
    exact h.leave hinv hc ha trivial (fun hp=>by cases hp.2) (fun hw=>by cases hw) (.inr (by simp))
  | exit hc ha =>
    exact h.leave hinv hc ha trivial (fun hp=>by cases hp.1) (fun hw=>by cases hw)
      (.inl (hone _ _ hc ha))
  | sleep hc ha =>
    exact h.leave hinv hc ha rfl (fun hp=>by cases hp.1) (fun hw=>by cases hw)
      (.inr (by simp [Thread.asleep]))
  | @procExit a status th pr hc ha hp =>
    have hlog : record s cpu (.procExit status) none=[.exited pr.pid status] := by
      simp [record,hc,Sched.pidOf,ha,hp]
    rw [hlog]
    exact h.procExit hinv hc ha (hone a th hc ha) hp
  | @collect a c th pr child hc ha hp hd hch =>
    have hlog : record s cpu .procWait (some ⟨a,child.pid,child.exitStatus⟩) =
        [.returned pr.pid child.pid child.exitStatus] := by
      simp [record,Sched.pidOf,ha,hp]
    rw [hlog]
    exact h.collect hinv hch (defunctChild_some hd hch)
  | @waitForChild a th pr hc ha hp hd =>
    exact h.leave hinv hc ha rfl (fun hp=>by cases hp.1)
      (fun _=>childless_of_defunctChild h hp hd) (.inr (by simp))
  | block hc ha =>
    exact h.leave hinv hc ha rfl (fun hp=>by cases hp.1) (fun hw=>by cases hw) (.inr (by simp))
  | @notify a cond th hf ha =>
    obtain ⟨v,hv,hst,-⟩ := Sched.firstBlocked_some hf
    obtain rfl := mem_unique ha hv
    have hrs : th.resume=.wait := by simpa [Thread.ResumeOk,hst] using h.resumes a th ha
    refine h.change hinv rfl trivial (fun hp=>?_) (fun hw=>by cases hw) (fun v hv _ _=>?_)
      (.of_eq rfl) rfl rfl
    · exact absurd (hrs.symm.trans hp.2) (by simp)
    · simp_all
end

theorem WaitStep.inv (h : WaitInv w.1 w.2) (hsp : WaitStep w w') :
    WaitInv w'.1 w'.2 := by
  cases hsp with
  | @locked s t log r sec cpu hl hen hone hrun =>
    obtain ⟨t',heff,rfl⟩ := SchedStep.effect h.inv hen hrun
    have hacq : WaitInv (s.acquire cpu) log := h.same (h.inv.of_eq rfl rfl rfl rfl rfl rfl) rfl rfl rfl rfl
    have hone' : sec.SingleThreaded (s.acquire cpu) cpu := by cases sec <;> exact hone
    have hdn := heff.waitInv hacq (Section.enabled_acquire hen) hone'
    exact hdn.same (hdn.inv.of_eq rfl rfl rfl rfl rfl rfl) rfl rfl rfl rfl
  | @construct s log a ha =>
    exact h.change (SchedStep.construct ha |>.inv h.inv) rfl rfl (fun hp=>by cases hp.1)
      (fun hw=>by cases hw) (by simp [ha]) (.of_eq rfl) rfl rfl
  | @assignIds s t log th parent p a hp hlt ha hst hrun =>
    have hinv := (SchedStep.assignIds parent p a hp hlt ha hst hrun).inv h.inv
    obtain ⟨ppid,rfl⟩ := (assignIds_spec ha).of_ok hrun
    have het := h.entry ha hst
    exact h.assign (u := {th with tid := s.nextTid, parent := p}) hinv hp hlt rfl rfl rfl rfl rfl ha
      hst hst het rfl
  | @assignTid s t log a th ha hst hrun =>
    have hinv := (SchedStep.assignTid ha hst hrun).inv h.inv
    obtain rfl := (assignTid_spec ha).of_ok hrun
    have het := h.entry ha hst
    refine h.change (u := {th with tid := s.nextTid}) hinv rfl (by simp [Thread.ResumeOk,hst,het])
      (fun hp=>?_) (fun hw=>?_) (fun v hv hne _=>?_) (.of_eq rfl) rfl rfl
    · exact absurd (hst.symm.trans hp.1) (by simp)
    · exact absurd (hst.symm.trans hw) (by simp)
    · exact absurd (mem_unique ha hv▸hst) hne
  | preempt | tick => exact h.same (h.inv.of_eq rfl rfl rfl rfl rfl rfl) rfl rfl rfl rfl

theorem waitInv_initGlobalScheduler : WaitInv initGlobalScheduler [] := by
  have hon : ∀ p pr, initGlobalScheduler.proc p=some pr →
      p=kernelProcess ∧ pr=⟨pidKernel,pidKernel,.new,0,[]⟩ := by
    intro p pr hp
    simp only [initGlobalScheduler] at hp
    split at hp
    · next hk => exact ⟨hk,(Option.some.inj hp).symm⟩
    · cases hp
  have hpd : PidsInv initGlobalScheduler := by
    refine ⟨fun p q pr pq hp hq _=>(hon p pr hp).1.trans (hon q pq hq).1.symm,
      fun pr hp=>by rw [(hon _ pr hp).2],{kernelProcess},rfl,fun p hp=>?_,fun p=>?_,
      fun p pr hp=>?_⟩
    · rw [Finset.mem_singleton.mp hp]
      decide
    · rw [Finset.mem_singleton]
      constructor
      · rintro rfl
        exact ⟨_,rfl⟩
      · rintro ⟨pr,hp⟩
        exact (hon p pr hp).1
    · rw [(hon p pr hp).2]
      decide
  refine ⟨inv_initGlobalScheduler,fun a th ha=>?_,hpd,fun p pr hp _=>by rw [(hon p pr hp).2],
    fun p pr hk _ hp=>absurd (hon p pr hp).1 hk,fun e he=>?_,fun a th ha=>?_,
    fun a b th tb ha=>?_,trivial,fun a th pr ha=>?_,fun pr hp=>?_⟩
  · cases ha
  · cases he
  · cases ha
  · cases ha
  · cases ha
  · simp [(hon _ pr hp).2]

/-- The states and logs a system of single-threaded user processes can reach. -/
def WaitReachable (w : Sched × List Event) : Prop := ReflTransGen WaitStep (initGlobalScheduler, []) w

theorem WaitReachable.inv (h : WaitReachable w) : WaitInv w.1 w.2 :=
  Reaches.invariant (I := fun w=>WaitInv w.1 w.2) h waitInv_initGlobalScheduler
    fun _ _ hw hs=>hs.inv hw

/-- Exit and wait agree in every reachable state. -/
theorem wait_sound {s : Sched} {log : List Event} (h : WaitReachable (s, log)) :
    LogSound s log ∧ WaitJustified s :=
  ⟨h.inv.sound,h.inv.justified⟩

/-- A process waits before its child exits with status 7, is woken and returns. -/
theorem wait_sound_parentAndChild : ∃ s, LogSound s [.returned 1 2 7, .exited 2 7] ∧ WaitJustified s := by
  have h1 : WaitReachable _ := .single (.locked (.enterScheduler 100) 0 rfl ⟨rfl,rfl,rfl⟩ trivial rfl)
  have h2 := h1.tail (.construct (a := 1) rfl)
  have h3 := h2.tail (.assignIds none 10 1 rfl (by decide) rfl rfl rfl)
  have h4 := h3.tail
    (.locked (.scheduleProc 10 1) 0 rfl ⟨by decide,⟨_,rfl,rfl⟩,_,rfl,rfl,rfl⟩ trivial rfl)
  have h5 := h4.tail (.construct (a := 2) rfl)
  have h6 := h5.tail (.assignIds (some 10) 11 2 rfl (by decide) rfl rfl rfl)
  have h7 := h6.tail
    (.locked (.scheduleProc 11 2) 0 rfl ⟨by decide,⟨_,rfl,rfl⟩,_,rfl,rfl,rfl⟩ trivial rfl)
  have h8 := h7.tail
    (.locked .schedulerRound 0 rfl ⟨some_ne_none 100,rfl⟩ trivial rfl)
  have h9 := h8.tail
    (.locked .schedulerRound 0 rfl ⟨some_ne_none 100,rfl⟩ trivial rfl)
  -- the parent waits, and the CPU turns to the child
  have h10 := h9.tail (.locked .procWait 0 rfl (some_ne_none 1) trivial rfl)
  have h11 := h10.tail
    (.locked .schedulerRound 0 rfl ⟨some_ne_none 100,rfl⟩ trivial rfl)
  have h12 := h11.tail (.locked (.procExit 7) 0 rfl (some_ne_none 2)
    (fun a th ha hth=>by cases ha; cases hth; decide) rfl)
  -- the child's thread is freed and the parent is woken, and then runs
  have h13 := h12.tail
    (.locked .schedulerRound 0 rfl ⟨some_ne_none 100,rfl⟩ trivial rfl)
  have h14 := h13.tail
    (.locked .schedulerRound 0 rfl ⟨some_ne_none 100,rfl⟩ trivial rfl)
  exact ⟨_,wait_sound h14⟩

end Yaos2.Scheduler
