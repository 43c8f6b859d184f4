import Yaos2.Scheduler.Mutex

/-! # Condition variables

A thread holds the spinlock of the mutex from where it lets go of the mutex to where it takes the
scheduler lock. -/
namespace Yaos2.Scheduler
open Foundation Relation Function

/-- From where the mutex is let go in `thread_cond_wait` to where the thread leaves the CPU. -/
def Pc.letGo : Pc → Bool
  | .notify b => b
  | .wait .cond | .handOver .cond | .block .cond => true
  | _ => false

/-- The history agrees with where the threads are. -/
structure CondInv (m : MutexState) : Prop where
  waits : ∀ x, m.waiting x=true ↔ (m.pc x).letGo=true ∨
    m.pc x=.asleep .cond ∧ ∃ th, m.sched.thread x=some th ∧ th.state=.blocked
  released : ∀ x, m.waiting x=true → m.releasedAt x ≤ m.acquisitions
  early : ∀ x, m.pc x=.notify true ∨ m.pc x=.wait .cond → m.releasedAt x=m.acquisitions
  acquired : ∀ x, m.acquiredAt x ≤ m.acquisitions
  held : m.locked=true → ∀ x, m.waiting x=true → m.releasedAt x < m.acquisitions
  holder : ∀ x, m.holds x=true → m.acquiredAt x=m.acquisitions

section

variable {k : Conds} {m m' : MutexState} {a : ℕ} {p : Pc}

/-- The parts of the history are those of before. -/
structure SameHistory (m m' : MutexState) : Prop where
  locked : m'.locked=m.locked
  holds : m'.holds=m.holds
  acquisitions : m'.acquisitions=m.acquisitions
  acquiredAt : m'.acquiredAt=m.acquiredAt
  releasedAt : m'.releasedAt=m.releasedAt

theorem CondInv.keep (h : CondInv m) (hsm : SameHistory m m')
    (hls : ∀ x, m'.waiting x=true → m.waiting x=true)
    (hwt : ∀ x, m'.waiting x=true ↔ (m'.pc x).letGo=true ∨
      m'.pc x=.asleep .cond ∧ ∃ th, m'.sched.thread x=some th ∧ th.state=.blocked)
    (her : ∀ x, m'.pc x=.notify true ∨ m'.pc x=.wait .cond →
      m.pc x=.notify true ∨ m.pc x=.wait .cond) : CondInv m' := by
  obtain ⟨hl,hh,hn,ha,hr⟩ := hsm
  refine ⟨hwt,?_,?_,?_,?_,?_⟩
  · rw [hr,hn]
    exact fun x hx=>h.released x (hls x hx)
  · rw [hr,hn]
    exact fun x hx=>h.early x (her x hx)
  · rw [ha,hn]
    exact h.acquired
  · rw [hr,hn,hl]
    exact fun hlc x hx=>h.held hlc x (hls x hx)
  · rw [ha,hn,hh]
    exact h.holder

theorem CondInv.goto (h : CondInv m) (hth : s.thread=m.sched.thread)
    (hr : ∃ th, m.sched.thread a=some th ∧ th.state=.running)
    (hgo : p.letGo=(m.pc a).letGo) (haw : p≠.asleep .cond)
    (her : p=.notify true ∨ p=.wait .cond → m.pc a=.notify true ∨ m.pc a=.wait .cond) :
    CondInv {m.goto a p with sched := s, spinlock := o} := by
  have hpcs : ∀ x, (m.goto a p).pc x=if x=a then p else m.pc x := fun x=>update_apply ..
  obtain ⟨th,ha,hrun⟩ := hr
  refine h.keep ⟨rfl,rfl,rfl,rfl,rfl⟩ (fun x hx=>hx) (fun x=>?_) fun x (hx : (m.goto a p).pc x=_ ∨ _)=>?_
  · change m.waiting x=true ↔ ((m.goto a p).pc x).letGo=true ∨ (m.goto a p).pc x=_ ∧ _
    rw [hth,h.waits x,hpcs]
    by_cases hxa : x=a
    · subst hxa
      simp [hgo,haw,ha,hrun]
    · rw [if_neg hxa]
  · rw [hpcs] at hx
    by_cases hxa : x=a
    · rw [if_pos hxa] at hx
      exact hxa▸her hx
    · rwa [if_neg hxa] at hx

theorem Section.wakes_some {sec : Section} (h : sec.wakes s=some x) :
    ∃ th, s.thread x=some th ∧ th.state=.blocked := by
  cases sec <;> simp only [Section.wakes,reduceCtorEq] at h
  obtain ⟨th,hth,hst,-⟩ := Sched.firstBlocked_some h
  exact ⟨th,hth,hst⟩

theorem Moved.blocked_iff (hmv : Moved cpu m.sched sec t) (hp : Placed k m) (hlv : m.LeavesWell k cpu sec)
    (hpc : m.pc x=.asleep y) :
    (∃ u, t.thread x=some u ∧ u.state=.blocked) ↔
      (∃ th, m.sched.thread x=some th ∧ th.state=.blocked) ∧ sec.wakes m.sched≠some x := by
  obtain ⟨th,hth,-⟩ := hp.fits x (by simp [hpc])
  constructor
  · rintro ⟨u,hu,hst⟩
    rcases hlv.blocked (hu▸hmv.move x th hth) hst with ⟨rfl,hw⟩ | ⟨hid,-⟩
    · exact ⟨⟨u,hth,hst⟩,hw⟩
    · simp [hpc] at hid
  · rintro ⟨⟨v,hv,hst⟩,hw⟩
    obtain rfl := Option.mem_unique hth hv
    obtain ⟨u,hu,hmo⟩ := hmv.survives hth (by simp [hst])
    refine ⟨u,hu,?_⟩
    cases hmo with
    | same => exact hst
    | inserted hst' | started hst' | told hst' => simp [hst] at hst'
    | notified _ _ _ _ hsec hfr =>
      subst hsec
      exact absurd hfr hw
    | left hc =>
      obtain ⟨v,hv,hrun⟩ := hp.inv.current hc
      obtain rfl := Option.mem_unique hth hv
      simp [hrun] at hst

theorem Placed.running_of_letGo (h : Placed k m) (hgo : (m.pc a).letGo=true) :
    ∃ th, m.sched.thread a=some th ∧ th.state=.running := by
  apply h.running
  cases hpc : m.pc a with
  | block y => exact .inr ⟨y,rfl⟩
  | _ => simp_all [Pc.letGo,Pc.spins]

section
variable (h : CondInv m)
include h
theorem CondInv.locked (hp : Placed k m)
    (hlv : m.LeavesWell k cpu sec) (hmv : Moved cpu m.sched sec t) : CondInv (m.after sec t) := by
  refine h.keep ⟨rfl,rfl,rfl,rfl,rfl⟩ (fun x hx=>?_) (fun x=>?_) fun x hx=>hx
  · exact (Bool.and_eq_true_iff.mp hx).1
  · change (m.waiting x && _)=true ↔ (m.pc x).letGo=true ∨
      m.pc x=.asleep .cond ∧ ∃ th, t.thread x=some th ∧ th.state=.blocked
    rw [Bool.and_eq_true_iff,h.waits x,decide_eq_true_eq]
    have haw : (m.pc x).letGo=true → sec.wakes m.sched≠some x := by
      intro hgo hw
      obtain ⟨th,hth,hrun⟩ := hp.running_of_letGo hgo
      obtain ⟨v,hv,hst⟩ := Section.wakes_some hw
      rw [hth,Option.some.injEq] at hv
      simp [← hv,hrun] at hst
    constructor
    · rintro ⟨hgo | ⟨hpc,hst⟩,hw⟩
      · exact .inl hgo
      · exact .inr ⟨hpc,(hmv.blocked_iff hp hlv hpc).mpr ⟨hst,hw⟩⟩
    · rintro (hgo | ⟨hpc,hst⟩)
      · exact ⟨.inl hgo,haw hgo⟩
      · obtain ⟨hst,hw⟩ := (hmv.blocked_iff hp hlv hpc).mp hst
        exact ⟨.inr ⟨hpc,hst⟩,hw⟩

theorem CondInv.between (hq : Quiet m.sched t) : CondInv {m with sched := t} := by
  refine h.keep ⟨rfl,rfl,rfl,rfl,rfl⟩ (fun x hx=>hx) (fun x=>?_) fun x hx=>hx
  rw [h.waits x]
  refine or_congr_right (and_congr_right fun _=>⟨?_,?_⟩)
  · rintro ⟨th,hth,hst⟩
    exact ⟨th,hq.keeps x th hth (by simp [hst]),hst⟩
  · rintro ⟨th,hth,hst⟩
    exact ⟨th,hq.kept x th hth (by simp [hst]),hst⟩

theorem CondInv.take (hp : Placed k m) (ho : Owned m) (hpc : m.pc a=.test b) (hfr : m.locked=false) :
    CondInv ((m.take a th).goto a (.got b)) := by
  have hpcs : ∀ x, ((m.take a th).goto a (.got b)).pc x=if x=a then .got b else m.pc x :=
    fun x=>update_apply ..
  refine ⟨fun x=>?_,fun x hx=>?_,fun x hx=>?_,fun x=>?_,fun _ x hx=>?_,fun x hx=>?_⟩
  · change m.waiting x=true ↔ _
    rw [hpcs,h.waits x]
    by_cases hxa : x=a
    · simp [hxa,hpc,Pc.letGo]
    · rw [if_neg hxa]
      rfl
  · exact Nat.le_succ_of_le (h.released x hx)
  · -- a thread that has just let go of the mutex would hold the spinlock
    rw [hpcs] at hx
    by_cases hxa : x=a
    · simp [hxa] at hx
    · rw [if_neg hxa] at hx
      refine absurd (hp.eq_of_spins (by simp [hpc,Pc.spins]) ?_) hxa
      rcases hx with hx | hx <;> simp [hx,Pc.spins]
  · change update m.acquiredAt a (m.acquisitions+1) x ≤ m.acquisitions+1
    rw [update_apply]
    split
    · exact le_rfl
    · exact Nat.le_succ_of_le (h.acquired x)
  · exact Nat.lt_succ_of_le (h.released x hx)
  · change update m.acquiredAt a (m.acquisitions+1) x=m.acquisitions+1
    change update m.holds a true x=true at hx
    by_cases hxa : x=a
    · rw [hxa,update_self]
    · rw [update_of_ne hxa] at hx
      simp [(ho.holder x hx).1] at hfr

theorem CondInv.drop (ho : Owned m) (hold : m.holds a=true) :
    CondInv ((m.drop a b).goto a (.notify b)) := by
  have hpcs : ∀ x, ((m.drop a b).goto a (.notify b)).pc x=if x=a then .notify b else m.pc x :=
    fun x=>update_apply ..
  have hwt : ∀ x, ((m.drop a b).goto a (.notify b)).waiting x =
      if x=a then b else m.waiting x := fun x=>update_apply ..
  have hrel : ∀ x, ((m.drop a b).goto a (.notify b)).releasedAt x =
      if x=a then m.acquisitions else m.releasedAt x := fun x=>update_apply ..
  refine ⟨fun x=>?_,fun x hx=>?_,fun x hx=>?_,h.acquired,fun hl=>?_,fun x hx=>?_⟩
  · rw [hwt,hpcs]
    by_cases hxa : x=a
    · simp [hxa,Pc.letGo]
    · rw [if_neg hxa,if_neg hxa]
      exact h.waits x
  · rw [hwt] at hx
    rw [hrel]
    split
    · exact le_rfl
    · next hxa =>
      rw [if_neg hxa] at hx
      exact h.released x hx
  · rw [hpcs] at hx
    rw [hrel]
    split
    · rfl
    · next hxa =>
      rw [if_neg hxa] at hx
      exact h.early x hx
  · cases hl
  · change update m.holds a false x=true at hx
    by_cases hxa : x=a
    · simp [hxa] at hx
    · rw [update_of_ne hxa] at hx
      exact absurd (ho.single x a hx hold) hxa

theorem CondInv.block (hsm : SameHistory m m')
    (hpc : m.pc a=.block y) (ht : m'.sched.thread=update m.sched.thread a (some u))
    (hst : u.state=.blocked) (hpc' : m'.pc=update m.pc a (.asleep y))
    (hwt : m'.waiting=m.waiting) : CondInv m' := by
  have hth : ∀ x, m'.sched.thread x=if x=a then some u else m.sched.thread x := fun x=>by
    rw [ht,update_apply]
  have hpcs : ∀ x, m'.pc x=if x=a then .asleep y else m.pc x := fun x=>by
    rw [hpc',update_apply]
  refine h.keep hsm (fun x hx=>hwt▸hx) (fun x=>?_) fun x hx=>?_
  · rw [hwt,h.waits x,hpcs,hth]
    by_cases hxa : x=a
    · subst hxa
      cases y <;> simp [hpc,Pc.letGo,hst]
    · rw [if_neg hxa,if_neg hxa]
  · rw [hpcs] at hx
    by_cases hxa : x=a
    · simp [hxa] at hx
    · rwa [if_neg hxa] at hx

theorem MutexStep.condInv (hm : MutexInv k m) (hse : MutexStep k m m') :
    CondInv m' := by
  obtain ⟨hp,ho,hs⟩ := hm
  cases hse with
  | @locked t r sec cpu hl hen hall hrun =>
    exact h.locked hp hall.leavesWell (Section.moved hp.inv hen hrun)
  | @between t hb => exact h.between hb.quiet
  | @call a f hrn hpc => exact h.goto rfl (hp.runs hrn) (by simp [hpc,Pc.letGo]) (by simp) (by simp)
  | @enter a f hrn hpc hfr =>
    refine h.goto rfl (hp.runs hrn) ?_ ?_ ?_ <;> cases f <;> simp [hpc,Fn.entered,Pc.letGo]
  | @check a b _ hpc | @taken a b hpc =>
    exact h.goto rfl (hp.running (.inl (by simp [hpc,Pc.spins]))) (by simp [hpc,Pc.letGo]) (by simp) (by simp)
  | @take a b th hpc ha hfr => exact h.take hp ho hpc hfr
  | @wait a y _ hpc | @handOver a y hpc =>
    refine h.goto rfl (hp.running (.inl ?_)) ?_ ?_ ?_ <;> cases y <;> simp [hpc,Pc.letGo,Pc.spins]
  | @block a y r t cpu hpc hc hrun =>
    obtain ⟨-,u,ht,hst,-⟩ := hp.blocks hpc hc hrun
    exact h.block ⟨rfl,rfl,rfl,rfl,rfl⟩ hpc ht hst rfl rfl
  | @woken a y hrn hpc hfr =>
    refine h.goto rfl (hp.runs hrn) ?_ ?_ ?_ <;> cases y <;> simp [hpc,Why.woken,Pc.letGo]
  | @clear a b th hpc ha htid hhl hown => exact h.drop ho (ho.holds_of_held hhl hown)
  | @notify a b r t cpu hpc hc hl hrun =>
    have hmv := Section.moved hp.inv (by trivial) hrun
    obtain ⟨v,hv,hst⟩ := hp.running (a := a) (.inl (by simp [hpc,Pc.spins]))
    have haf := h.locked hp (MutexState.leavesWell_notify k m cpu k.waitCond) hmv
    have hpc' : (m.after (.schedThreadNotifyOne k.waitCond) t).pc a=.notify b := hpc
    refine haf.goto rfl ⟨v,hmv.running rfl hv hst,hst⟩ ?_ ?_ ?_ <;>
      cases b <;> simp [hpc',afterNotify,Pc.letGo]
  | @ret a hpc =>
    have hsp : (m.pc a).spins=true := by rcases hpc with hpc | ⟨b,hpc⟩ <;> simp [hpc,Pc.spins]
    refine h.goto rfl (hp.running (.inl hsp)) ?_ (by simp) (by simp)
    rcases hpc with hpc | ⟨b,hpc⟩ <;> simp [hpc,Pc.letGo]
end

end

variable {k : Conds} {m : MutexState}

theorem MutexReachable.condInv (h : MutexReachable k m) : CondInv m := by
  obtain ⟨s,hs,hfr,hrun⟩ := h
  have hinv : ∀ {n}, ReflTransGen (MutexStep k) (threadMutexCreate s) n → MutexInv k n :=
    fun hn=>MutexReachable.inv ⟨s,hs,hfr,hn⟩
  induction hrun with
  | refl => constructor <;> simp [threadMutexCreate,Pc.letGo]
  | tail hn hst ih => exact hst.condInv ih (hinv hn)

theorem schedThreadNotifyOne_some {cpu cond y : ℕ}
    (hl : s.globalSchedulerLock=some cpu) (hf : s.firstBlocked cond=some y)
    (hy : s.thread y=some th) :
    Returns (schedThreadNotifyOne cpu cond) s fun _ t =>
      t.thread=update s.thread y (some {th with state := .ready}) := by
  simp [schedThreadNotifyOne,hf,hy,hl,Sched.release]

theorem schedThreadNotifyOne_none {cpu cond : ℕ} (hl : s.globalSchedulerLock=some cpu)
    (hf : s.firstBlocked cond=none) :
    Returns (schedThreadNotifyOne cpu cond) s fun _ t=>t.thread=s.thread := by
  simp [schedThreadNotifyOne,hf,hl,Sched.release]

/-- Every thread that let go of the mutex before `a` took it is blocked on the condition, and the
scan wakes one of the blocked. -/
structure NotifySound (k : Conds) (m : MutexState) (a cpu : ℕ) : Prop where
  blocked : ∀ x, m.waiting x=true → m.releasedAt x < m.acquiredAt a →
    ∃ th, m.sched.thread x=some th ∧ th.state=.blocked ∧ th.cond=some k.cond
  holder : m.holds a=true → ∀ x, m.waiting x=true → m.releasedAt x < m.acquiredAt a
  wakes : (∃ x, m.waiting x=true ∧ m.releasedAt x < m.acquiredAt a) →
    Returns (schedThreadNotifyOne cpu k.cond) (m.sched.acquire cpu) fun _ t =>
      ∃ y th, m.waiting y=true ∧ m.sched.thread y=some th ∧ th.state=.blocked ∧
        t.thread=update m.sched.thread y (some {th with state := .ready})

/-- A notification finds the threads it has to, and `thread_cond_wait` returns with the mutex. -/
theorem condNotify_sound (h : MutexReachable k m) (hl : m.sched.globalSchedulerLock=none)
    (a cpu : ℕ) : NotifySound k m a cpu ∧ ∀ x, m.pc x=.got true → m.holds x=true := by
  have hc := h.condInv
  obtain ⟨hp,ho,-⟩ := h.inv
  have hbl : ∀ x, m.waiting x=true → m.releasedAt x < m.acquiredAt a →
      ∃ th, m.sched.thread x=some th ∧ th.state=.blocked ∧ th.cond=some k.cond := by
    intro x hx hbf
    have hlt : ¬ (m.pc x=.notify true ∨ m.pc x=.wait .cond) := fun hpc=>by
      have hrel := hc.early x hpc
      have hacq := hc.acquired a
      omega
    have hun : ¬ (m.pc x=.handOver .cond ∨ m.pc x=.block .cond) := fun hpc=>by
      obtain ⟨cpu',hlc,-⟩ := hp.handing x .cond hpc
      simp [hl] at hlc
    rcases (hc.waits x).mp hx with hgo | ⟨hpc,v,hv,hst⟩
    · cases hpc : m.pc x <;> simp_all [Pc.letGo]
    · obtain ⟨th,hth,hfit⟩ := hp.fits x (by simp [hpc])
      obtain rfl := Option.mem_unique hth hv
      exact ⟨th,hth,hst,by simpa [hpc,Pc.Fits,hst,Why.addr] using hfit⟩
  refine ⟨⟨hbl,fun hold x hx=>?_,?_⟩,fun x=>ho.returns x true⟩
  · rw [hc.holder a hold]
    exact hc.held (ho.holder a hold).1 x hx
  · rintro ⟨x,hx,hbf⟩
    obtain ⟨v,hv,hst,hcn⟩ := hbl x hx hbf
    obtain ⟨y,hy⟩ := hp.inv.firstBlocked hv hst hcn
    obtain ⟨th,hth,hst',hcn'⟩ := Sched.firstBlocked_some hy
    have hwt : m.waiting y=true := by
      obtain ⟨z,hz,had⟩ := hp.asleep (y := .cond) hth hst' hcn'
      cases z with
      | lock b => exact absurd had k.ne
      | cond => exact (hc.waits y).mpr (.inr ⟨hz,th,hth,hst'⟩)
    have hsc := schedThreadNotifyOne_some (s := m.sched.acquire cpu) rfl hy hth
    exact hsc.mono (fun _ t ht=>⟨y,th,hwt,hth,hst',ht⟩) fun _ h=>h

/-- Thread `1` is blocked in `thread_cond_wait` when thread `2` takes the mutex and notifies. -/
theorem condNotify_sound_oneWaiter : ∃ m, m.waiting 1=true ∧ m.releasedAt 1 < m.acquiredAt 2 ∧
    NotifySound twoConds m 2 1 ∧ ∀ x, m.pc x=.got true → m.holds x=true := by
  have h1 : ReflTransGen (MutexStep twoConds) (threadMutexCreate twoRunning) _ :=
    .single (.call (a := 1) .acquire ⟨0,rfl⟩ rfl)
  have h2 := h1.tail (.enter (a := 1) (f := .acquire) ⟨0,rfl⟩ rfl rfl)
  have h3 := h2.tail (.check (a := 1) (b := false) rfl rfl rfl)
  have h4 := h3.tail (.take (a := 1) (b := false) rfl rfl rfl)
  have h5 := h4.tail (.ret (a := 1) (.inr ⟨false,rfl⟩))
  have h6 := h5.tail (.call (a := 1) .condWait ⟨0,rfl⟩ rfl)
  have h7 := h6.tail (.enter (a := 1) (f := .condWait) ⟨0,rfl⟩ rfl rfl)
  have h8 := h7.tail (.clear (a := 1) (b := true) rfl rfl (by decide) rfl (.inl rfl))
  have h9 := h8.tail (.notify (a := 1) (b := true) 0 rfl rfl rfl rfl)
  have h10 := h9.tail (.wait (a := 1) (y := .cond) 0 rfl rfl rfl)
  have h11 := h10.tail (.handOver (a := 1) (y := .cond) rfl)
  have h12 := h11.tail (.block (a := 1) (y := .cond) 0 rfl rfl rfl)
  have h13 := h12.tail (.call (a := 2) .acquire ⟨1,rfl⟩ rfl)
  have h14 := h13.tail (.enter (a := 2) (f := .acquire) ⟨1,rfl⟩ rfl rfl)
  have h15 := h14.tail (.check (a := 2) (b := false) rfl rfl rfl)
  have h16 := h15.tail (.take (a := 2) (b := false) rfl rfl rfl)
  exact ⟨_,rfl,Nat.lt_succ_self 1,condNotify_sound (twoRunning_mutex h16) rfl 2 1⟩

/-- Thread `2` notifies without the mutex, before thread `1` is blocked: the scan wakes no thread.
-/
theorem condNotify_before_block : ∃ m th, MutexReachable twoConds m ∧
    m.sched.globalSchedulerLock=none ∧ m.sched.current 1=some 2 ∧ m.pc 2=.idle ∧
    0 < m.acquiredAt 2 ∧ m.waiting 1=true ∧ m.sched.thread 1=some th ∧ th.state=.running ∧
    Returns (schedThreadNotifyOne 1 twoConds.cond) (m.sched.acquire 1) fun _ t =>
      t.thread=m.sched.thread := by
  have h1 : ReflTransGen (MutexStep twoConds) (threadMutexCreate twoRunning) _ :=
    .single (.call (a := 2) .acquire ⟨1,rfl⟩ rfl)
  have h2 := h1.tail (.enter (a := 2) (f := .acquire) ⟨1,rfl⟩ rfl rfl)
  have h3 := h2.tail (.check (a := 2) (b := false) rfl rfl rfl)
  have h4 := h3.tail (.take (a := 2) (b := false) rfl rfl rfl)
  have h5 := h4.tail (.ret (a := 2) (.inr ⟨false,rfl⟩))
  have h6 := h5.tail (.call (a := 2) .release ⟨1,rfl⟩ rfl)
  have h7 := h6.tail (.enter (a := 2) (f := .release) ⟨1,rfl⟩ rfl rfl)
  have h8 := h7.tail (.clear (a := 2) (b := false) rfl rfl (by decide) rfl (.inl rfl))
  have h9 := h8.tail (.notify (a := 2) (b := false) 1 rfl rfl rfl rfl)
  have h10 := h9.tail (.ret (a := 2) (.inl rfl))
  have h11 := h10.tail (.call (a := 1) .acquire ⟨0,rfl⟩ rfl)
  have h12 := h11.tail (.enter (a := 1) (f := .acquire) ⟨0,rfl⟩ rfl rfl)
  have h13 := h12.tail (.check (a := 1) (b := false) rfl rfl rfl)
  have h14 := h13.tail (.take (a := 1) (b := false) rfl rfl rfl)
  have h15 := h14.tail (.ret (a := 1) (.inr ⟨false,rfl⟩))
  have h16 := h15.tail (.call (a := 1) .condWait ⟨0,rfl⟩ rfl)
  have h17 := h16.tail (.enter (a := 1) (f := .condWait) ⟨0,rfl⟩ rfl rfl)
  have h18 := h17.tail (.clear (a := 1) (b := true) rfl rfl (by decide) rfl (.inl rfl))
  exact ⟨_,_,twoRunning_mutex h18,rfl,rfl,rfl,Nat.zero_lt_one,rfl,rfl,rfl,schedThreadNotifyOne_none rfl rfl⟩

end Yaos2.Scheduler
