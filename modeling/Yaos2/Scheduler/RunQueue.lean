import Yaos2.Foundation.Transition
import Yaos2.Scheduler.Effects

/-! # The run queue -/
namespace Yaos2.Scheduler
open Foundation Relation Function List Option

namespace Sched

@[simp] theorem board_queue (s : Sched) : s.board.queue=s.queue := rfl

@[simp] theorem board_setScheduler (s : Sched) (cpu a : ℕ) : (s.setScheduler cpu a).board=s.board := rfl

@[simp] theorem board_addProcess (s : Sched) (p : ℕ) : (s.addProcess p).board=s.board := rfl
end Sched

variable {s t : Sched} {cpu : ℕ} {sec : Section} {r : Option Collected}

variable {a p : ℕ} {u th : Thread} {pr q : Process}

theorem leave_move (hc : s.current cpu=some a) (hst : u.state.phase=.queued ∨ u.state.phase=.parked) :
    Board.Move s.board (s.leave cpu a u).board := by
  have hcur : s.board.current cpu=some a := hc
  rcases hst with hq | hp
  · have hin : ¬ (u.state=.blocked ∨ u.state=.waiting) := by
      rintro (h | h) <;> simp [h,ThreadState.phase] at hq
    simpa [Sched.leave,hin,hq] using Board.Move.stop hcur
  · have hout : u.state=.blocked ∨ u.state=.waiting := by
      cases h : u.state <;> simp [h,ThreadState.phase] at hp ⊢
    have hsm : (s.board.setPhase a (some .parked)).setQueue s.queue=s.board.setPhase a (some .parked) := rfl
    simpa [Sched.leave,hout,hp,hsm] using Board.Move.park hcur

theorem insert_move (ha : s.thread a=some th) (hnew : th.state=.new) :
    Board.Move s.board ((s.board.setPhase a (some .queued)).setQueue (s.queue++[a])) := by
  rw [← Sched.board_queue,← Board.enqueue_singleton]
  refine .append (nodup_singleton a) fun x hx=>.inl ?_
  rw [mem_singleton.mp hx,Sched.board_phase ha,hnew]
  rfl

theorem free_move (hq : s.queue=a::rest) (ha : s.thread a=some th) (hex : th.state=.exited) :
    Board.Move s.board ((s.board.setPhase a none).setQueue rest) := by
  refine .free hq ?_
  rw [Sched.board_phase ha,hex]
  rfl

theorem Effect.moves (hen : sec.Enabled s cpu) (heff : Effect cpu s sec r t) :
    ReflTransGen Board.Move s.board t.board := by
  cases heff with
  | idle hq => exact .refl
  | drop hq ha hst =>
    refine .single (.drop hq ?_)
    rw [Sched.board_phase ha,hst]
    rfl
  | rotate hq ha hst => exact .single (.rotate hq)
  | @start a rest th hq ha hst hne =>
    have hph : s.board.phase a=some .queued := by
      rw [Sched.board_phase ha]
      rcases hst with hst | hst <;> rw [hst] <;> rfl
    have hmv := Board.Move.start hq hph hen.2
    exact .single (by simpa [Thread.started,ThreadState.phase] using hmv)
  | destroy hq ha hex | collectOrphan hq ha hex => exact .single (by simpa using free_move hq ha hex)
  | @defunct a rest th pr ws hq ha hex hpr hls hk hpk hn hws =>
    -- the woken threads are other threads than the one freed before
    have hwt : ∀ x ∈ ws, x≠a ∧ ∃ tx, s.thread x=some tx ∧ tx.state=.waiting := by
      intro x hx
      obtain ⟨tx,-,htx,hst,-⟩ := (hws x).mp hx
      exact ⟨Sched.ne_of_state ha htx (by simp [hst,hex]),tx,htx,hst⟩
    rw [Sched.board_wake _ fun x hx=>?_]
    · simp only [Sched.board_setQueue,Sched.board_setProc,Sched.board_setThread,map_none]
      refine .tail (.single (free_move hq ha hex)) (.append hn fun x hx=>.inr ?_)
      obtain ⟨hne,tx,htx,hst⟩ := hwt x hx
      simp [Board.setPhase,Board.setQueue,hne,Sched.board_phase htx,hst,ThreadState.phase]
    · obtain ⟨hne,tx,htx,-⟩ := hwt x hx
      exact ⟨tx,by simpa [hne] using htx⟩
  | @enter a pr hpr =>
    obtain ⟨-,hcur,ha⟩ := hen
    have hnn : s.board.phase a=none := by simp [Sched.board,ha]
    have hcr : (s.board.setPhase a (some .new)).phase a=some .new := by simp [Board.setPhase]
    have hmv := Board.Move.daemonize hcr
    rw [Board.setPhase_setPhase] at hmv
    have hid : ((s.board.setPhase a (some .daemon)).setQueue (s.queue++[a])).current cpu=none := hcur
    refine .tail (.single (.create hnn)) ?_
    simpa [ThreadState.phase,Board.setCurrent_eq_self hid] using hmv
  | insertProc hpr ha =>
    obtain ⟨-,-,th,ha',hnew,-⟩ := hen
    exact .single (by simpa [ThreadState.phase] using insert_move ha' hnew)
  | insertThread hg hpr ha =>
    obtain ⟨th,ha',hnew⟩ := hen
    exact .single (by simpa [ThreadState.phase] using insert_move ha' hnew)
  | yield hc | exit hc | sleep hc => exact .single (leave_move hc (.inl rfl))
  | procExit hc => exact .single (leave_move (s := s.setProc _ _) hc (.inl rfl))
  | waitForChild hc | block hc => exact .single (leave_move hc (.inr rfl))
  | @notify a cond th hf ha =>
    obtain ⟨th',ha',hst,-⟩ := Sched.firstBlocked_some hf
    have hph : s.board.phase a=some .parked := by
      rw [Sched.board_phase ha',hst]
      rfl
    exact .single (by simpa [ThreadState.phase] using Board.Move.prepend hph)
  | collect | nobody => exact .refl

theorem Effect.ordered (h : s.Inv) (hen : sec.Enabled s cpu) (heff : Effect cpu s sec r t) :
    t.board.Ordered :=
  Reaches.invariant (heff.moves hen) h.ordered fun _ _ hb hm=>hm.ordered hb

/-- What the lists of the processes depend on. -/
def Thread.standing (th : Thread) : ℕ × Bool × Bool :=
  (th.parent, decide (th.state=.new), decide (th.state=.scheduler))

theorem exists_of_map_eq (h : o.map f=o'.map f) (hx : o=some x) : ∃ y, o'=some y ∧ f y=f x := by
  rwa [hx,map_some,eq_comm,map_eq_some_iff] at h

theorem Sched.Inv.keep (h : s.Inv) (hb : t.board.Ordered) (hps : t.processes=s.processes)
    (hsc : t.scheduler=s.scheduler)
    (hpc : ∀ p, (t.proc p).map (·.threads)=(s.proc p).map (·.threads))
    (hth : ∀ a, (t.thread a).map Thread.standing=(s.thread a).map Thread.standing)
    (hex : ∀ a th, t.thread a=some th → th.resume=.exit → th.state=.exited) : t.Inv := by
  obtain ⟨-,h2,h3,h4,h5,h6,h7,h8,h9,-⟩ := h
  refine ⟨hb,hps▸h2,?_,hps▸h4,?_,?_,?_,?_,?_,hex⟩
  · intro p hp
    obtain ⟨pr,hpr⟩ := h3 p (hps▸hp)
    obtain ⟨q,hq,-⟩ := exists_of_map_eq (hpc p).symm hpr
    exact ⟨q,hq⟩
  · intro p pr hp
    obtain ⟨q,hq,hqt⟩ := exists_of_map_eq (hpc p) hp
    exact hqt▸h5 p q hq
  · intro p pr a hp hin
    obtain ⟨q,hq,hqt⟩ := exists_of_map_eq (hpc p) hp
    obtain ⟨hmem,th,ha,hpar,hst⟩ := h6 p q a hq (hqt▸hin)
    obtain ⟨u,hu,hsn⟩ := exists_of_map_eq (hth a).symm ha
    simp only [Thread.standing,Prod.mk.injEq,decide_eq_decide] at hsn
    exact ⟨hps▸hmem,u,hu,hsn.1.trans hpar,fun hn=>hst (hsn.2.1.mp hn)⟩
  · intro a th ha hst
    obtain ⟨u,hu,hsn⟩ := exists_of_map_eq (hth a) ha
    simp only [Thread.standing,Prod.mk.injEq,decide_eq_decide] at hsn
    obtain ⟨pr,hpr,hin⟩ := h7 a u hu fun hn=>hst (hsn.2.1.mp hn)
    obtain ⟨q,hq,hqt⟩ := exists_of_map_eq (hpc _).symm hpr
    exact ⟨q,hsn.1▸hq,hqt▸hin⟩
  · intro c a hc
    obtain ⟨th,ha,hst,hpar⟩ := h8 c a (hsc▸hc)
    obtain ⟨u,hu,hsn⟩ := exists_of_map_eq (hth a).symm ha
    simp only [Thread.standing,Prod.mk.injEq,decide_eq_decide] at hsn
    exact ⟨u,hu,hsn.2.2.mpr hst,hsn.1.trans hpar⟩
  · intro a th ha hst
    obtain ⟨u,hu,hsn⟩ := exists_of_map_eq (hth a) ha
    simp only [Thread.standing,Prod.mk.injEq,decide_eq_decide] at hsn
    exact hsc▸h9 a u hu (hsn.2.2.mpr hst)

theorem Sched.Inv.change (h : s.Inv) (hb : t.board.Ordered)
    (ha : s.thread a=some th) (ht : t.thread=update s.thread a (some u))
    (hst : u.standing=th.standing) (hu : u.resume=.exit → u.state=.exited)
    (hps : t.processes=s.processes) (hsc : t.scheduler=s.scheduler)
    (hpr : ∀ p, (t.proc p).map (·.threads)=(s.proc p).map (·.threads)) : t.Inv := by
  refine h.keep hb hps hsc hpr (fun x=>?_) (fun x v hx hr=>?_)
  · rw [ht,update_apply]
    split
    · next hxa => rw [hxa,ha,map_some,map_some,hst]
    · rfl
  · rw [ht,update_apply] at hx
    split at hx
    · simp_all
    · exact h.exits x v hx hr

theorem map_threads_update (hp : s.proc p=some pr) (hq : q.threads=pr.threads) (x : ℕ) :
    (update s.proc p (some q) x).map (·.threads)=(s.proc x).map (·.threads) := by
  rw [update_apply]
  split
  · next hx => rw [hx,hp,map_some,map_some,hq]
  · rfl

namespace Sched.Inv

theorem adopt (h : s.Inv) (hb : t.board.Ordered)
    (hp : s.proc p=some pr) (hnew : ∀ th, s.thread a=some th → th.state=.new)
    (ht : t.thread=update s.thread a (some u)) (hpar : u.parent=p)
    (hst : u.state≠.new) (hu : u.resume=.exit → u.state=.exited)
    (hpr : t.proc=update s.proc p (some (pr.adopt a)))
    (hps : t.processes=s.processes ∨ p ∉ s.processes ∧ t.processes=p::s.processes)
    (hin : p ∈ t.processes) (hsc : ∀ c b, t.scheduler c=some b ↔ s.scheduler c=some b ∨
      b=a ∧ c=k ∧ u.state=.scheduler ∧ p=kernelProcess)
    (hdm : u.state=.scheduler → p=kernelProcess) : t.Inv := by
  have hfr : ∀ q pq, s.proc q=some pq → a ∉ pq.threads := by
    intro q pq hq hmem
    obtain ⟨-,th,ha,-,hne⟩ := h.listed q pq a hq hmem
    exact hne (hnew th ha)
  obtain ⟨-,h2,h3,h4,h5,h6,h7,h8,h9,h10⟩ := h
  have hth : ∀ x, t.thread x=if x=a then some u else s.thread x := fun x=>by
    rw [ht,update_apply]
  have hpc : ∀ q, t.proc q=if q=p then some (pr.adopt a) else s.proc q := fun q=>by
    rw [hpr,update_apply]
  refine ⟨hb,?_,?_,?_,?_,?_,?_,?_,?_,?_⟩
  · grind
  · grind
  · grind
  · grind [Process.adopt]
  · grind [Process.adopt]
  · grind [Process.adopt]
  · grind
  · intro x tx hx hstx
    by_cases hxa : x=a
    · simp_all
    · rw [hth,if_neg hxa] at hx
      obtain ⟨c,hc⟩ := h9 x tx hx hstx
      exact ⟨c,(hsc c x).mpr (.inl hc)⟩
  · grind

theorem remove (h : s.Inv) (hb : t.board.Ordered)
    (ha : s.thread a=some th) (hex : th.state=.exited) (hp : s.proc th.parent=some pr)
    (ht : t.thread=update s.thread a none)
    (hpr : t.proc=update s.proc th.parent (some q))
    (hq : q.threads=pr.threads.erase a) (hps : t.processes=s.processes)
    (hsc : t.scheduler=s.scheduler) : t.Inv := by
  obtain ⟨-,h2,h3,h4,h5,h6,h7,h8,h9,h10⟩ := h
  have hth : ∀ x, t.thread x=if x=a then none else s.thread x := fun x=>by
    rw [ht,update_apply]
  have hpc : ∀ p, t.proc p=if p=th.parent then some q else s.proc p := fun p=>by
    rw [hpr,update_apply]
  have hmem : ∀ x, x ∈ q.threads ↔ x≠a ∧ x ∈ pr.threads := fun x=>by
    rw [hq,(h5 _ pr hp).mem_erase_iff]
  have hnd := hq▸(h5 _ pr hp).erase a
  refine ⟨hb,hps▸h2,?_,hps▸h4,?_,?_,?_,?_,?_,?_⟩
  · grind
  · grind
  · grind
  · grind
  · intro c x hx
    obtain ⟨tx,htx,hst,hpar⟩ := h8 c x (hsc▸hx)
    have hne := Sched.ne_of_state ha htx (by simp [hst,hex])
    exact ⟨tx,by rw [hth,if_neg hne,htx],hst,hpar⟩
  · simp_all
  · grind

theorem freed (h : s.Inv) (hqu : s.queue=a::rest) (ha : s.thread a=some th) (hex : th.state=.exited)
    (hp : s.proc th.parent=some pr) (hq : q.threads=pr.threads.erase a) :
    (((s.setThread a none).setProc th.parent q).setQueue rest).Inv := by
  refine h.remove ?_ ha hex hp rfl rfl hq rfl rfl
  simpa using (free_move hqu ha hex).ordered h.ordered

theorem wake (h : s.Inv) (hb : (s.wake pid status ws).board.Ordered)
    (hws : ∀ x ∈ ws, ∃ tx, s.thread x=some tx ∧ tx.state=.waiting) :
    (s.wake pid status ws).Inv := by
  refine h.keep hb rfl rfl (fun p=>rfl) (fun x=>?_) (fun x v hx hr=>?_)
  · by_cases hx : x ∈ ws
    · obtain ⟨tx,htx,hst⟩ := hws x hx
      simp [Sched.wake,hx,htx,Thread.standing,hst]
    · simp [Sched.wake,hx]
  · by_cases hin : x ∈ ws
    · -- a thread that waits goes on in `proc_wait`
      obtain ⟨tx,htx,hst⟩ := hws x hin
      simp only [Sched.wake,hin,if_true,htx,map_some,Option.some.injEq] at hx
      rw [← hx] at hr
      simp [h.exits x tx htx hr] at hst
    · simp only [Sched.wake,hin,if_false] at hx
      exact h.exits x v hx hr

theorem leave (h : s.Inv) (hb : (s.leave cpu a u).board.Ordered)
    (hc : s.current cpu=some a) (ha : s.thread a=some th) (hpar : u.parent=th.parent)
    (hnew : u.state≠.new) (hsch : u.state≠.scheduler)
    (hu : u.resume=.exit → u.state=.exited) : (s.leave cpu a u).Inv := by
  obtain ⟨v,hv,hst⟩ := h.current hc
  obtain rfl := mem_unique ha hv
  refine h.change hb ha rfl ?_ hu rfl rfl fun _=>rfl
  simp [Thread.standing,hpar,hst,hnew,hsch]
end Sched.Inv

theorem Effect.inv (h : s.Inv) (hen : sec.Enabled s cpu) (heff : Effect cpu s sec r t) : t.Inv := by
  have hb := heff.ordered h hen
  cases heff with
  | idle | nobody => exact h
  | drop | rotate => exact h.keep hb rfl rfl (fun _=>rfl) (fun _=>rfl) h.exits
  | start hq ha hst hne =>
    refine h.change hb ha rfl ?_ (fun hr=>absurd hr hne) rfl rfl fun _=>rfl
    rcases hst with hst | hst <;> simp [Thread.standing,Thread.started,hst]
  | destroy hq ha hex hpr hmr => exact h.freed hq ha hex hpr rfl
  | collectOrphan hq ha hex hpr hls hk hpk => exact h.freed hq ha hex hpr hls.symm
  | @defunct a rest th pr ws hq ha hex hpr hls hk hpk hn hws =>
    have hfr : (((s.setThread a none).setProc th.parent {pr with
        threads := [], state := if ws=[] then .defunct else .truncate}).setQueue rest).Inv :=
      h.freed hq ha hex hpr hls.symm
    refine hfr.wake hb fun x hx=>?_
    obtain ⟨tx,-,htx,hst,-⟩ := (hws x).mp hx
    have hne := Sched.ne_of_state ha htx (by simp [hst,hex])
    exact ⟨tx,by simpa [hne] using htx,hst⟩
  | @enter a pr hpr =>
    obtain ⟨hsch,-,ha⟩ := hen
    refine h.adopt (k := cpu) hb hpr (by simp [ha]) rfl rfl (by simp)
      (by simp [threadConstructEmpty]) rfl (.inl rfl) h.kernel (fun c b=>?_) fun _=>rfl
    simp only [Sched.setScheduler_scheduler,Sched.setCurrent_scheduler,Sched.setQueue_scheduler,
      Sched.setProc_scheduler,Sched.setThread_scheduler,update_apply]
    grind
  | @insertProc p a pr th hpr ha =>
    obtain ⟨hp,-,th',ha',hnew,hpar⟩ := hen
    obtain rfl := mem_unique ha' ha
    have hne := h.resume_ne_exit ha' (by simp [hnew])
    exact h.adopt (k := cpu) hb hpr (fun v hv=>mem_unique ha hv▸hnew) rfl hpar (by simp)
      (fun hr=>absurd hr hne) rfl (.inr ⟨hp,rfl⟩) mem_cons_self (fun c b=>by simp) (by simp)
  | @insertThread pid p a pr th hg hpr ha =>
    obtain ⟨th',ha',hnew⟩ := hen
    obtain rfl := mem_unique ha' ha
    have hne := h.resume_ne_exit ha' (by simp [hnew])
    exact h.adopt (k := cpu) hb hpr (fun v hv=>mem_unique ha hv▸hnew) rfl rfl (by simp)
      (fun hr=>absurd hr hne) rfl (.inl rfl) (mem_of_find?_eq_some hg) (fun c b=>by simp) (by simp)
  | yield hc ha | exit hc ha | waitForChild hc ha | block hc ha =>
    exact h.leave hb hc ha rfl (by simp) (by simp) (by simp)
  | sleep hc ha => exact h.leave hb hc ha rfl (by simp [Thread.asleep]) (by simp [Thread.asleep]) (by simp)
  | procExit hc ha hpr =>
    obtain ⟨v,hv,hst⟩ := h.current hc
    obtain rfl := mem_unique hv ha
    exact h.change hb hv rfl (by simp [Thread.standing,hst]) (by simp) rfl rfl
      (map_threads_update hpr rfl)
  | collect hc ha hpr hd hch =>
    exact h.keep hb rfl rfl (map_threads_update hch rfl) (fun _=>rfl) h.exits
  | @notify a cond th hf ha =>
    obtain ⟨v,hv,hst,-⟩ := Sched.firstBlocked_some hf
    obtain rfl := mem_unique ha hv
    have hne := h.resume_ne_exit ha (by simp [hst])
    exact h.change hb ha rfl (by simp [Thread.standing,hst]) (fun hr=>absurd hr hne) rfl rfl
      fun _=>rfl

theorem Section.enabled_acquire (hen : sec.Enabled s cpu) : sec.Enabled (s.acquire cpu) cpu := by
  cases sec <;> exact hen

theorem Sched.Inv.of_eq (h : s.Inv) (hth : t.thread=s.thread) (hpr : t.proc=s.proc)
    (hps : t.processes=s.processes) (hq : t.queue=s.queue) (hc : t.current=s.current)
    (hsc : t.scheduler=s.scheduler) : t.Inv := by
  have hb : t.board=s.board := by simp only [Sched.board,hth,hq,hc]
  apply h.keep (hb▸h.ordered) hps hsc (fun p=>by rw [hpr]) (fun a=>by rw [hth])
  rw [hth]
  exact h.exits

/-- A section runs as one step when the lock is free. In between threads are made and time passes.
-/
inductive SchedStep : Sched → Sched → Prop
  | locked {s t : Sched} {r : Option Collected} (sec : Section) (cpu : ℕ) :
      s.globalSchedulerLock=none → sec.Enabled s cpu →
      sec.run cpu (s.acquire cpu)=.ok r t → SchedStep s t
  | construct {s : Sched} {a : ℕ} : s.thread a=none →
      SchedStep s (s.setThread a (some threadConstructEmpty))
  | assignIds {s t : Sched} {th : Thread} (parent : Option ℕ) (p a : ℕ) : s.proc p=none →
      p+1<2^32 → s.thread a=some th → th.state=.new →
      assignIds parent p a s=.ok () t → SchedStep s t
  | assignTid {s t : Sched} {a : ℕ} {th : Thread} : s.thread a=some th → th.state=.new →
      assignTid a s=.ok () t → SchedStep s t
  | preempt {s : Sched} (cpu n : ℕ) : SchedStep s {s with preemptDisabled := update s.preemptDisabled cpu n}
  | tick {s : Sched} : SchedStep s {s with ticks := (s.ticks+1)%2^64}

theorem SchedStep.effect (h : s.Inv) (hen : sec.Enabled s cpu)
    (hrun : sec.run cpu (s.acquire cpu)=.ok r t) :
    ∃ t', Effect cpu (s.acquire cpu) sec r t' ∧ t=t'.release cpu := by
  have hacq : (s.acquire cpu).Inv := h.of_eq rfl rfl rfl rfl rfl rfl
  exact (sec.effect hacq rfl (Section.enabled_acquire hen)).of_ok hrun

theorem assignIds_spec (ha : s.thread a=some th) : Ensures (assignIds parent p a) s (fun _ t=>∃ ppid, t =
        {(s.setThread a (some {th with tid := s.nextTid, parent := p})).setProc p
            ⟨s.nextPid,ppid,.new,0,[]⟩ with
          nextPid := (s.nextPid+1)%2^32, nextTid := (s.nextTid+1)%2^32})
      (fun _=>True) := by
  unfold assignIds
  cases parent with
  | none =>
    simp only [wp_bind,wp_get,wp_modify,wp_modThread,wp_pure,Sched.setProc_thread,ha,elim_some]
    exact ⟨pidKernel,rfl⟩
  | some q =>
    cases hq : s.proc q with
    | none =>
      simp only [wp_bind,wp_get,wp_modify,wp_procAt,hq,elim_none]
    | some pq =>
      simp only [wp_bind,wp_get,wp_modify,wp_procAt,wp_modThread,
        wp_pure,Sched.setProc_thread,hq,ha,elim_some]
      exact ⟨pq.pid,rfl⟩

theorem assignTid_spec (ha : s.thread a=some th) :
    Ensures (assignTid a) s (fun _ t=>t = {s.setThread a (some {th with tid := s.nextTid}) with
        nextTid := (s.nextTid+1)%2^32}) (fun _=>True) := by
  unfold assignTid
  simp only [wp_bind,wp_get,wp_modify,wp_modThread,ha,elim_some]
  rfl

theorem Sched.Inv.fresh (h : s.Inv)
    (ha : ∀ th, s.thread a=some th → th.state=.new) (hu : u.state=.new) (hr : u.resume≠.exit)
    (ht : t.thread=update s.thread a (some u))
    (hpr : ∀ p, t.proc p=s.proc p ∨ s.proc p=none ∧ ∃ pr, t.proc p=some pr ∧ pr.threads=[])
    (hps : t.processes=s.processes) (hq : t.queue=s.queue) (hc : t.current=s.current)
    (hsc : t.scheduler=s.scheduler) : t.Inv := by
  have hth : ∀ x, t.thread x=if x=a then some u else s.thread x := fun x=>by
    rw [ht,update_apply]
  have hb : t.board.Ordered := by
    have hbr : t.board=s.board.setPhase a (some .new) := by
      simp only [Sched.board,Board.setPhase,ht,hq,hc]
      congr 1
      funext x
      simp only [update_apply]
      split
      · rw [map_some,hu]
        rfl
      · rfl
    rw [hbr]
    cases hx : s.thread a with
    | none =>
      have hnn : s.board.phase a=none := by simp only [Sched.board,hx,map_none]
      exact (Board.Move.create hnn).ordered h.ordered
    | some th =>
      have hsm : s.board.phase a=some .new := by
        rw [Sched.board_phase hx,ha th hx]
        rfl
      rw [Board.setPhase_eq_self hsm]
      exact h.ordered
  obtain ⟨-,h2,h3,h4,h5,h6,h7,h8,h9,h10⟩ := h
  refine ⟨hb,hps▸h2,?_,hps▸h4,?_,?_,?_,?_,?_,?_⟩
  · grind
  · grind
  · grind
  · grind
  · rw [hsc]
    grind
  · rw [hsc]
    grind
  · grind

theorem SchedStep.inv (h : s.Inv) (hsp : SchedStep s t) : t.Inv := by
  cases hsp with
  | @locked _ r sec cpu hl hen hrun =>
    obtain ⟨t',heff,rfl⟩ := SchedStep.effect h hen hrun
    have hacq : (s.acquire cpu).Inv := h.of_eq rfl rfl rfl rfl rfl rfl
    exact (heff.inv hacq (Section.enabled_acquire hen)).of_eq rfl rfl rfl rfl rfl rfl
  | construct ha =>
    exact h.fresh (by simp [ha]) rfl (by simp [threadConstructEmpty]) rfl (fun _=>.inl rfl) rfl rfl
      rfl rfl
  | @assignIds _ th parent p a hp hlt ha hst hrun =>
    obtain ⟨ppid,rfl⟩ := (assignIds_spec ha).of_ok hrun
    have hne := h.resume_ne_exit ha (by simp [hst])
    refine h.fresh (u := {th with tid := s.nextTid, parent := p}) (fun v hv=>mem_unique ha hv▸hst) hst hne rfl
      (fun q=>?_) rfl rfl rfl rfl
    by_cases hq : q=p <;> simp_all
  | @assignTid _ a th ha hst hrun =>
    obtain rfl := (assignTid_spec ha).of_ok hrun
    have hne := h.resume_ne_exit ha (by simp [hst])
    exact h.fresh (u := {th with tid := s.nextTid}) (fun v hv=>mem_unique ha hv▸hst) hst hne rfl
      (fun _=>.inl rfl) rfl rfl rfl rfl
  | preempt | tick => exact h.of_eq rfl rfl rfl rfl rfl rfl

theorem inv_initGlobalScheduler : initGlobalScheduler.Inv := by
  have hb : initGlobalScheduler.board.Ordered := by constructor <;> simp [Sched.board,initGlobalScheduler]
  have hpr : ∀ p pr, initGlobalScheduler.proc p=some pr → pr.threads=[] := by simp [initGlobalScheduler]
  refine ⟨hb,by simp [initGlobalScheduler],?_,by simp [initGlobalScheduler],?_,?_,by simp [initGlobalScheduler],
    by simp [initGlobalScheduler],by simp [initGlobalScheduler],by simp [initGlobalScheduler]⟩
  · intro p hp
    rw [mem_singleton.mp hp]
    exact ⟨_,rfl⟩
  · intro p pr hp
    rw [hpr p pr hp]
    exact nodup_nil
  · intro p pr a hp ha
    rw [hpr p pr hp] at ha
    cases ha

def Reachable (s : Sched) : Prop := ReflTransGen SchedStep initGlobalScheduler s

theorem Reachable.inv (h : Reachable s) : s.Inv :=
  Reaches.invariant h inv_initGlobalScheduler fun _ _ hs hst=>hst.inv hs

/-- The run queue, the states of the threads and the CPUs agree. -/
structure RunQueueSound (s : Sched) : Prop where
  nodup : s.queue.Nodup
  queued : ∀ a th, s.thread a=some th → (∀ cpu, s.scheduler cpu≠some a) →
    (a ∈ s.queue ↔ th.state=.ready ∨ th.state=.sleeping ∨ th.state=.exited)
  running : ∀ a th, s.thread a=some th → th.state=.running → ∃! cpu, s.current cpu=some a
  parked : ∀ a th, s.thread a=some th → th.state=.blocked ∨ th.state=.waiting →
    a ∉ s.queue ∧ ∀ cpu, s.current cpu≠some a
  freed : ∀ a, s.thread a=none → a ∉ s.queue ∧ ∀ p pr, s.proc p=some pr → a ∉ pr.threads

theorem Sched.Inv.runQueueSound (h : s.Inv) : RunQueueSound s := by
  have hph : ∀ a th, s.thread a=some th → s.board.phase a=some th.state.phase :=
    fun a th ha=>Sched.board_phase ha
  refine ⟨h.ordered.nodup,fun a th ha hcpu=>?_,fun a th ha hst=>?_,fun a th ha hst=>?_,
    fun a ha=>⟨?_,fun p pr hp hin=>?_⟩⟩
  · have hnot : th.state≠.scheduler := by
      intro hst
      obtain ⟨cpu,hc⟩ := h.daemons a th ha hst
      exact hcpu cpu hc
    constructor
    · intro hin
      have hq := h.ordered.inQueue a hin
      rw [hph a th ha] at hq
      cases hst : th.state <;> simp_all [ThreadState.phase]
    · intro hst
      apply h.ordered.queued a
      rw [hph a th ha]
      rcases hst with hst | hst | hst <;> rw [hst] <;> rfl
  · have hrun : s.board.phase a=some .running := by
      rw [hph a th ha,hst]
      rfl
    obtain ⟨cpu,hc⟩ := h.ordered.onCpu a hrun
    exact ⟨cpu,hc,fun cpu' hc'=>h.ordered.oneCpu cpu' cpu a hc' hc⟩
  · have hpr : s.board.phase a=some .parked := by
      rw [hph a th ha]
      rcases hst with hst | hst <;> rw [hst] <;> rfl
    refine ⟨h.ordered.not_mem (by simp [hpr]) (by simp [hpr]),fun cpu hc=>?_⟩
    simp [h.ordered.running cpu a hc] at hpr
  · have hnn : s.board.phase a=none := by simp only [Sched.board,ha,map_none]
    exact h.ordered.not_mem (by simp [hnn]) (by simp [hnn])
  · obtain ⟨-,th,hth,-⟩ := h.listed p pr a hp hin
    simp [ha] at hth

/-- In every reachable state the run queue is sound. -/
theorem runQueue_sound (h : Reachable s) : RunQueueSound s := h.inv.runQueueSound

theorem exists_running : ∃ s, Reachable s ∧ s.ticks=0 ∧ s.globalSchedulerLock=none ∧
    s.queue=[] ∧ s.current 0=some 1 ∧ s.scheduler 0≠none ∧ s.preemptDisabled 0=0 := by
  have h1 : Reachable _ := .single (.locked (.enterScheduler 100) 0 rfl ⟨rfl,rfl,rfl⟩ rfl)
  have h2 := h1.tail (.construct (a := 1) rfl)
  have h3 := h2.tail (.assignTid (a := 1) rfl rfl rfl)
  have h4 := h3.tail (.locked (.scheduleThread 0 1) 0 rfl ⟨_,rfl,rfl⟩ rfl)
  have h5 := h4.tail (.locked .schedulerRound 0 rfl ⟨some_ne_none 100,rfl⟩ rfl)
  have h6 := h5.tail (.locked .schedulerRound 0 rfl ⟨some_ne_none 100,rfl⟩ rfl)
  exact ⟨_,h6,rfl,rfl,rfl,rfl,some_ne_none 100,rfl⟩

theorem runQueue_sound_firstThread : ∃ s, s.current 0=some 1 ∧ RunQueueSound s := by
  obtain ⟨s,hs,-,-,-,hc,-⟩ := exists_running
  exact ⟨s,hc,runQueue_sound hs⟩

end Yaos2.Scheduler
