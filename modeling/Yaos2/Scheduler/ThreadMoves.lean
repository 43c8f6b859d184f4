import Yaos2.Scheduler.RunQueue

/-! # What a section does to one thread -/
namespace Yaos2.Scheduler
open Foundation Function

/-- The state in which the current thread leaves the CPU. -/
def Section.leaves : Section → Option ThreadState
  | .threadYield => some .ready
  | .threadExit => some .exited
  | .threadSleep _ => some .sleeping
  | .procExit _ => some .exited
  | .procWait => some .waiting
  | .schedThreadWait _ => some .blocked
  | _ => none

/-- The thread a section wakes from a condition. -/
def Section.wakes (s : Sched) : Section → Option ℕ
  | .schedThreadNotifyOne cond => s.firstBlocked cond
  | _ => none

/-- What a section can do to a thread that exists. -/
inductive ThreadMove (cpu : ℕ) (s : Sched) (sec : Section) (x : ℕ) (th : Thread) :
    Option Thread → Prop
  | same : sec.wakes s≠some x → ThreadMove cpu s sec x th (some th)
  | freed : th.state=.exited → ThreadMove cpu s sec x th none
  | inserted {u : Thread} : th.state=.new → u.state=.ready → u.tid=th.tid →
      ThreadMove cpu s sec x th (some u)
  | started {u : Thread} : th.state=.ready ∨ th.state=.sleeping → u.state=.running →
      u.tid=th.tid → sec.wakes s=none → ThreadMove cpu s sec x th (some u)
  | told {u : Thread} : th.state=.waiting → u.state=.ready → u.tid=th.tid →
      ThreadMove cpu s sec x th (some u)
  | notified {u : Thread} {cond : ℕ} : th.state=.blocked → th.cond=some cond →
      u.state=.ready → u.tid=th.tid → sec=.schedThreadNotifyOne cond →
      s.firstBlocked cond=some x → ThreadMove cpu s sec x th (some u)
  | left {u : Thread} {st : ThreadState} : s.current cpu=some x → sec.leaves=some st →
      u.state=st → u.tid=th.tid → (∀ cond, sec=.schedThreadWait cond → u.cond=some cond) →
      ThreadMove cpu s sec x th (some u)

variable {s t : Sched} {cpu : ℕ} {sec : Section} {r : Option Collected}

variable {x : ℕ} {th : Thread}

theorem ThreadMove.update (hx : s.thread x=some th)
    (ha : s.thread a=some va) (ho : x≠a → sec.wakes s≠some x)
    (hm : ThreadMove cpu s sec a va u) :
    ThreadMove cpu s sec x th (update s.thread a u x) := by
  rw [update_apply]
  split
  · next hxa =>
    subst hxa
    rw [hx,Option.some.injEq] at ha
    exact ha▸hm
  · next hxa =>
    rw [hx]
    exact .same (ho hxa)

theorem Effect.threadMove (hen : sec.Enabled s cpu)
    (heff : Effect cpu s sec r t) (hx : s.thread x=some th) :
    ThreadMove cpu s sec x th (t.thread x) := by
  cases heff with
  | idle | drop | rotate | collect => exact hx ▸ .same (by simp [Section.wakes])
  | start hq ha hst hne => exact .update hx ha (by simp [Section.wakes]) (.started hst rfl rfl rfl)
  | destroy hq ha hex | collectOrphan hq ha hex =>
    exact .update hx ha (by simp [Section.wakes]) (.freed hex)
  | @defunct a rest tha pr ws hq ha hex hpr hls hk hpk hn hws =>
    have hwt : x ∈ ws → th.state=.waiting := by
      intro hin
      obtain ⟨tx,-,htx,hst,-⟩ := (hws x).mp hin
      rw [hx,Option.some.injEq] at htx
      rw [htx,hst]
    by_cases hxa : x=a
    · subst hxa
      obtain rfl := Option.mem_unique hx ha
      have hno : x ∉ ws := fun hin=>by simp [hwt hin] at hex
      simpa [Sched.wake,hno] using ThreadMove.freed (s := s) (x := x) hex
    · by_cases hin : x ∈ ws
      · simpa [Sched.wake,hin,hxa,hx] using .told (hwt hin) rfl rfl
      · simpa [Sched.wake,hin,hxa,hx] using .same (by simp [Section.wakes])
  | @enter a pr hpr =>
    have hxa : x≠a := by
      rintro rfl
      simp [hen.2.2] at hx
    simpa [hxa,hx] using .same (by simp [Section.wakes])
  | insertProc hpr ha =>
    obtain ⟨-,-,v,hv,hnew,-⟩ := hen
    obtain rfl := Option.mem_unique ha hv
    exact .update hx ha (by simp [Section.wakes]) (.inserted hnew rfl rfl)
  | insertThread hg hpr ha =>
    obtain ⟨v,hv,hnew⟩ := hen
    obtain rfl := Option.mem_unique ha hv
    exact .update hx ha (by simp [Section.wakes]) (.inserted hnew rfl rfl)
  | yield hc ha | exit hc ha | sleep hc ha | procExit hc ha | waitForChild hc ha | block hc ha =>
    exact .update hx ha (by simp [Section.wakes]) (.left hc rfl rfl rfl (by simp))
  | @notify a cond v hf ha =>
    obtain ⟨v',ha',hst,hcn⟩ := Sched.firstBlocked_some hf
    obtain rfl := Option.mem_unique ha ha'
    exact .update hx ha (fun hne he=>hne (Option.some.inj (he.symm.trans hf)))
      (.notified hst hcn rfl rfl rfl hf)
  | nobody hf => exact hx ▸ .same (by simp [Section.wakes,hf])

theorem Effect.created (heff : Effect cpu s sec r t) (hx : s.thread x=none)
    (hu : t.thread x=some u) : u.state=.scheduler := by
  have hold : ∀ {a : ℕ} {v : Thread} {o : Option Thread}, s.thread a=some v →
      update s.thread a o x=none := by
    intro a v o ha
    have hxa : x≠a := by
      rintro rfl
      simp [hx] at ha
    rw [update_of_ne hxa,hx]
  cases heff <;>
    simp only [Sched.setThread_thread,Sched.setProc_thread,Sched.setQueue_thread,
      Sched.setCurrent_thread,Sched.setScheduler_thread,Sched.addProcess_thread,Sched.leave,
      Sched.wake,update_apply] at hu hold <;>
    grind

structure Moved (cpu : ℕ) (s : Sched) (sec : Section) (t : Sched) : Prop where
  inv : t.Inv
  unlocked : t.globalSchedulerLock=none
  move : ∀ x th, s.thread x=some th → ThreadMove cpu s sec x th (t.thread x)
  created : ∀ x u, s.thread x=none → t.thread x=some u → u.state=.scheduler

theorem Released.moved (h : s.Inv) (hen : sec.Enabled s cpu) (hrel : Released cpu s sec r t) :
    Moved cpu s sec t := by
  obtain ⟨t',heff,rfl⟩ := hrel
  exact ⟨(heff.inv h hen).of_eq rfl rfl rfl rfl rfl rfl,rfl,
    fun x th hx=>Effect.threadMove (t := t') hen heff hx,
    fun x u hx hu=>Effect.created (t := t') heff hx hu⟩

theorem ThreadMove.blocked (hmv : ThreadMove cpu s sec x th (some u))
    (hst : u.state=.blocked) : u=th ∧ sec.wakes s≠some x ∨
      s.current cpu=some x ∧ sec.leaves=some .blocked ∧ ∀ cond, sec=.schedThreadWait cond → u.cond=some cond := by
  cases hmv with
  | same hw => exact .inl ⟨rfl,hw⟩
  | inserted _ hrd | started _ hrd | told _ hrd | notified _ _ hrd => simp [hst] at hrd
  | left hc hlv hst' _ hcn => exact .inr ⟨hc,by rw [hlv,← hst',hst],hcn⟩

theorem Moved.survives (hmv : Moved cpu s sec t) (hx : s.thread x=some th) (hex : th.state≠.exited) :
    ∃ u, t.thread x=some u ∧ ThreadMove cpu s sec x th (some u) := by
  have hmo := hmv.move x th hx
  cases hto : t.thread x with
  | none =>
    rw [hto] at hmo
    cases hmo with
    | freed hst => exact absurd hst hex
  | some u => exact ⟨u,rfl,hto▸hmo⟩

theorem ThreadMove.of_acquire
    (hmv : ThreadMove cpu (s.acquire cpu) sec x th o) : ThreadMove cpu s sec x th o := by
  cases hmv with
  | same hw => exact .same (by cases sec <;> exact hw)
  | freed hex => exact .freed hex
  | inserted hnew hst htid => exact .inserted hnew hst htid
  | started hst hrun htid hw => exact .started hst hrun htid (by cases sec <;> exact hw)
  | told hst hrd htid => exact .told hst hrd htid
  | notified hst hcn hrd htid hsec hfr => exact .notified hst hcn hrd htid hsec hfr
  | left hc hl hst htid hcn => exact .left hc hl hst htid hcn

theorem Section.moved (h : s.Inv) (hen : sec.Enabled s cpu)
    (hrun : sec.run cpu (s.acquire cpu)=.ok r t) : Moved cpu s sec t := by
  have hacq : (s.acquire cpu).Inv := h.of_eq rfl rfl rfl rfl rfl rfl
  have hen' := Section.enabled_acquire hen
  have hm := Released.moved hacq hen' ((sec.effect hacq rfl hen').of_ok hrun)
  exact ⟨hm.inv,hm.unlocked,fun x th hx=>(hm.move x th hx).of_acquire,hm.created⟩

theorem Sched.Inv.firstBlocked {cond : ℕ} (h : s.Inv) (hx : s.thread x=some th)
    (hst : th.state=.blocked) (hcn : th.cond=some cond) :
    ∃ y, s.firstBlocked cond=some y := by
  obtain ⟨pr,hpr,hin,hp⟩ := h.parent hx (by simp [hst])
  by_contra hno
  push Not at hno
  have hnn := Option.eq_none_iff_forall_ne_some.mpr hno
  have hpc := List.findSome?_eq_none_iff.mp hnn th.parent hp
  rw [hpr,Option.bind_some,List.find?_eq_none] at hpc
  have hth := hpc x hin
  simp [Sched.isBlockedOn,hx,hst,hcn] at hth

theorem Moved.notified {cond : ℕ} (hmv : Moved cpu s (.schedThreadNotifyOne cond) t)
    (hx : s.firstBlocked cond=some x) : ∃ u, t.thread x=some u ∧ u.state=.ready := by
  obtain ⟨th,hth,hst,-⟩ := Sched.firstBlocked_some hx
  obtain ⟨u,hu,hmo⟩ := hmv.survives hth (by simp [hst])
  refine ⟨u,hu,?_⟩
  cases hmo with
  | same hw => exact absurd hx hw
  | inserted hst' | started hst' | told hst' => simp [hst] at hst'
  | notified _ _ hrd => exact hrd
  | left hc hlv => cases hlv

theorem Moved.running (hmv : Moved cpu s sec t) (hlv : sec.leaves=none)
    (hx : s.thread x=some th) (hrun : th.state=.running) : t.thread x=some th := by
  obtain ⟨u,hu,hmo⟩ := hmv.survives hx (by simp [hrun])
  cases hmo with
  | same => exact hu
  | inserted hst | started hst | told hst | notified hst => simp [hrun] at hst
  | left hc hle => simp [hlv] at hle

end Yaos2.Scheduler
