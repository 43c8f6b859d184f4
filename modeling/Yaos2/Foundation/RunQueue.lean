import Mathlib.Logic.Function.Basic
import Mathlib.Logic.Relation
import Mathlib.Tactic

/-! # Tasks, processors and one queue

A board is in order when the queue holds each queued task exactly once, and the running tasks are the
ones the processors hold, one processor each. -/
namespace Yaos2.Foundation
open Function

inductive Phase where
  | new
  | queued
  | running
  | parked
  | daemon
  deriving DecidableEq

/-- What is known of each task, the queue, and the task on each processor. -/
structure Board (α κ : Type*) where
  phase : α → Option Phase
  queue : List α
  current : κ → Option α

namespace Board

variable {α κ : Type*}

def setQueue (b : Board α κ) (q : List α) : Board α κ := {b with queue := q}

structure Ordered (b : Board α κ) : Prop where
  nodup : b.queue.Nodup
  queued : ∀ a, b.phase a=some .queued → a ∈ b.queue
  inQueue : ∀ a ∈ b.queue, b.phase a=some .queued ∨ b.phase a=some .daemon
  running : ∀ k a, b.current k=some a → b.phase a=some .running
  onCpu : ∀ a, b.phase a=some .running → ∃ k, b.current k=some a
  oneCpu : ∀ k k' a, b.current k=some a → b.current k'=some a → k=k'

theorem Ordered.not_mem {b : Board α κ} (h : b.Ordered) (hq : b.phase a≠some .queued)
    (hd : b.phase a≠some .daemon) : a ∉ b.queue :=
  fun hin=>(h.inQueue a hin).elim hq hd

variable [DecidableEq α]

def setPhase (b : Board α κ) (a : α) (p : Option Phase) : Board α κ := {b with phase := update b.phase a p}

@[simp] theorem setPhase_queue (b : Board α κ) (a : α) (p : Option Phase) :
    (b.setPhase a p).queue=b.queue := rfl

@[simp] theorem setPhase_setPhase (b : Board α κ) (a : α) (p q : Option Phase) :
    (b.setPhase a p).setPhase a q=b.setPhase a q := by
  simp [setPhase]

theorem setPhase_eq_self {b : Board α κ} (h : b.phase a=p) : b.setPhase a p=b := by simp [setPhase,← h]

/-- The tasks `ws` join the queue at its end. -/
def enqueue (b : Board α κ) (ws : List α) : Board α κ where
  phase x := if x ∈ ws then some .queued else b.phase x
  queue := b.queue++ws
  current := b.current

theorem enqueue_singleton (b : Board α κ) (a : α) :
    b.enqueue [a]=(b.setPhase a (some .queued)).setQueue (b.queue++[a]) := by
  simp only [enqueue,setPhase,setQueue,List.mem_singleton]
  congr 1
  funext x
  exact (update_apply b.phase a (some .queued) x).symm

variable [DecidableEq κ]

def setCurrent (b : Board α κ) (k : κ) (a : Option α) : Board α κ := {b with current := update b.current k a}

omit [DecidableEq α] in
theorem setCurrent_eq_self {b : Board α κ} (h : b.current k=none) : b.setCurrent k none=b := by
  simp [setCurrent,← h]

/-- One move of a scheduler. -/
inductive Move : Board α κ → Board α κ → Prop
  | create {b : Board α κ} {a : α} : b.phase a=none → Move b (b.setPhase a (some .new))
  | append {b : Board α κ} {ws : List α} : ws.Nodup →
      (∀ a ∈ ws, b.phase a=some .new ∨ b.phase a=some .parked) → Move b (b.enqueue ws)
  | prepend {b : Board α κ} {a : α} : b.phase a=some .parked →
      Move b ((b.setPhase a (some .queued)).setQueue (a::b.queue))
  | daemonize {b : Board α κ} {a : α} : b.phase a=some .new →
      Move b ((b.setPhase a (some .daemon)).setQueue (b.queue++[a]))
  | rotate {b : Board α κ} {a : α} {rest : List α} : b.queue=a::rest → Move b (b.setQueue (rest++[a]))
  | drop {b : Board α κ} {a : α} {rest : List α} : b.queue=a::rest → b.phase a=some .daemon →
      Move b (b.setQueue rest)
  | free {b : Board α κ} {a : α} {rest : List α} : b.queue=a::rest → b.phase a=some .queued →
      Move b ((b.setPhase a none).setQueue rest)
  | start {b : Board α κ} {a : α} {rest : List α} {k : κ} : b.queue=a::rest →
      b.phase a=some .queued → b.current k=none →
      Move b (((b.setPhase a (some .running)).setQueue rest).setCurrent k (some a))
  | stop {b : Board α κ} {a : α} {k : κ} : b.current k=some a →
      Move b (((b.setPhase a (some .queued)).setQueue (b.queue++[a])).setCurrent k none)
  | park {b : Board α κ} {a : α} {k : κ} : b.current k=some a →
      Move b ((b.setPhase a (some .parked)).setCurrent k none)

variable {b c : Board α κ}

theorem Move.ordered (hm : Move b c) (h : b.Ordered) : c.Ordered := by
  obtain ⟨h1,h2,h3,h4,h5,h6⟩ := h
  cases hm with
  | create hn =>
    constructor <;> simp only [setPhase,update_apply] <;> grind
  | append hn hp =>
    constructor <;> simp only [enqueue] <;> grind
  | prepend hp =>
    constructor <;> simp only [setPhase,setQueue,update_apply] <;> grind
  | daemonize hp =>
    constructor <;> simp only [setPhase,setQueue,update_apply] <;> grind
  | rotate hq =>
    constructor <;> simp only [setQueue] <;> grind
  | drop hq hp =>
    constructor <;> simp only [setQueue] <;> grind
  | free hq hp =>
    constructor <;> simp only [setPhase,setQueue,update_apply] <;> grind
  | start hq hp hk =>
    constructor <;> simp only [setPhase,setQueue,setCurrent,update_apply] <;> grind
  | stop hk =>
    constructor <;> simp only [setPhase,setQueue,setCurrent,update_apply] <;> grind
  | park hk =>
    constructor <;> simp only [setPhase,setCurrent,update_apply] <;> grind
end Board

end Yaos2.Foundation
