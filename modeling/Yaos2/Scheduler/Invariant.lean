import Yaos2.Foundation.RunQueue
import Yaos2.Scheduler.Sections

/-! # The board of a scheduler state -/
namespace Yaos2.Scheduler
open Foundation

def ThreadState.phase : ThreadState → Phase
  | .new => .new
  | .ready | .sleeping | .exited => .queued
  | .running => .running
  | .waiting | .blocked => .parked
  | .scheduler => .daemon

namespace Sched

def board (s : Sched) : Board ℕ ℕ where
  phase a := (s.thread a).map (·.state.phase)
  queue := s.queue
  current := s.current

theorem ne_of_state {s : Sched} {a x : ℕ} {th u : Thread} (ha : s.thread a=some th) (hx : s.thread x=some u)
    (h : u.state≠th.state) : x≠a := by
  rintro rfl
  exact h (congrArg _ (Option.mem_unique hx ha))

section

variable (s : Sched)

theorem board_phase {s : Sched} {a : ℕ} {th : Thread} (h : s.thread a=some th) :
    s.board.phase a=some th.state.phase := by
  simp [board,h]

@[simp] theorem board_setThread (a : ℕ) (o : Option Thread) :
    (s.setThread a o).board=s.board.setPhase a (o.map (·.state.phase)) := by
  simp only [board,setThread,Board.setPhase]
  congr 1
  funext x
  simp only [Function.update_apply]
  split <;> rfl

@[simp] theorem board_setProc (p : ℕ) (pr : Process) : (s.setProc p pr).board=s.board := rfl

@[simp] theorem board_setQueue (l : List ℕ) : (s.setQueue l).board=s.board.setQueue l := rfl

@[simp] theorem board_setCurrent (cpu : ℕ) (x : Option ℕ) :
    (s.setCurrent cpu x).board=s.board.setCurrent cpu x := rfl

theorem board_wake {pid : ℕ} {status : ℤ} {ws : List ℕ} (h : ∀ x ∈ ws, ∃ th, s.thread x=some th) :
    (s.wake pid status ws).board=s.board.enqueue ws := by
  simp only [board,wake,Board.enqueue]
  congr 1
  funext x
  by_cases hx : x ∈ ws
  · obtain ⟨th,hth⟩ := h x hx
    simp [hx,hth,ThreadState.phase]
  · simp only [hx,if_false]
end

/-- The board is in order, and the threads of a process are the threads on its list. -/
structure Inv (s : Sched) : Prop where
  ordered : s.board.Ordered
  procs_nodup : s.processes.Nodup
  procs : ∀ p ∈ s.processes, ∃ pr, s.proc p=some pr
  kernel : kernelProcess ∈ s.processes
  threads_nodup : ∀ p pr, s.proc p=some pr → pr.threads.Nodup
  listed : ∀ p pr a, s.proc p=some pr → a ∈ pr.threads →
    p ∈ s.processes ∧ ∃ th, s.thread a=some th ∧ th.parent=p ∧ th.state≠.new
  onList : ∀ a th, s.thread a=some th → th.state≠.new → ∃ pr, s.proc th.parent=some pr ∧ a ∈ pr.threads
  schedulers : ∀ cpu a, s.scheduler cpu=some a →
    ∃ th, s.thread a=some th ∧ th.state=.scheduler ∧ th.parent=kernelProcess
  daemons : ∀ a th, s.thread a=some th → th.state=.scheduler → ∃ cpu, s.scheduler cpu=some a
  exits : ∀ a th, s.thread a=some th → th.resume=.exit → th.state=.exited

namespace Inv

variable {s : Sched} (h : s.Inv)
include h
theorem head {a : ℕ} {rest : List ℕ} (hq : s.queue=a::rest) : ∃ th, s.thread a=some th ∧
      (th.state=.ready ∨ th.state=.sleeping ∨ th.state=.exited ∨ th.state=.scheduler) := by
  have hin : a ∈ s.board.queue := by
    change a ∈ s.queue
    rw [hq]
    exact List.mem_cons_self
  have hph := h.ordered.inQueue a hin
  cases ha : s.thread a with
  | none => simp [board,ha] at hph
  | some th =>
    refine ⟨th,rfl,?_⟩
    rw [board_phase ha] at hph
    cases hst : th.state <;> simp [hst,ThreadState.phase] at hph ⊢

theorem current {cpu a : ℕ} (hc : s.current cpu=some a) :
    ∃ th, s.thread a=some th ∧ th.state=.running := by
  have hp := h.ordered.running cpu a hc
  cases ha : s.thread a with
  | none => simp [board,ha] at hp
  | some th =>
    refine ⟨th,rfl,?_⟩
    rw [board_phase ha] at hp
    cases hst : th.state <;> simp [hst,ThreadState.phase] at hp ⊢

theorem parent {a : ℕ} {th : Thread} (ha : s.thread a=some th) (hst : th.state≠.new) :
    ∃ pr, s.proc th.parent=some pr ∧ a ∈ pr.threads ∧ th.parent ∈ s.processes := by
  obtain ⟨pr,hpr,hin⟩ := h.onList a th ha hst
  exact ⟨pr,hpr,hin,(h.listed _ pr a hpr hin).1⟩

theorem resume_ne_exit {a : ℕ} {th : Thread} (ha : s.thread a=some th) (hst : th.state≠.exited) :
    th.resume≠.exit :=
  fun hr=>hst (h.exits a th ha hr)
end Inv

end Sched

end Yaos2.Scheduler
