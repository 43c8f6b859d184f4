import Yaos2.Debug
import Yaos2.Foundation.ByteMemory
import Yaos2.Memory.Layout

/-! # The machine the memory code runs on

Kernel pointers go through the static part of the kernel's virtual memory map; there is no page fault
handler, so a bad pointer ends in the panic of an unhandled interrupt. `trace` records, for the
theorems only, which page table entries have been written and which bytes copied for user code. -/
namespace Yaos2.Memory
open Foundation

/-- What the memory code observes of its environment and does not change for good. -/
structure Env where
  cr3 : ℕ
  pallocLockHeld : Bool
  kpLockHeld : Bool
  pallocInitialized : Bool
  yaos2Initialized : Bool
  deriving DecidableEq, Repr

inductive Event where
  /-- An entry of a page directory or page table was set to `value`. -/
  | entry (addr value : ℕ)
  /-- `n` bytes at `addr` were read or written as the user memory at `v`. -/
  | copy (v addr n : ℕ)
  deriving DecidableEq, Repr

structure Machine where
  mem : Mem
  firstFreePage : ℕ
  remainingPages : ℕ
  env : Env
  trace : List Event

abbrev Kernel := Exec Machine

variable (L : Layout)

def Env.isUsingKernelPageTables (e : Env) : Bool := e.cr3 == L.physKernelPd

def isUsingKernelPageTables : Kernel Bool := return (← get).env.isUsingKernelPageTables L

/-- No handler is registered for page faults. -/
def pageFault {α : Type} : Kernel α := abort "unhandled interrupt"

def readPtr (v n : ℕ) : Kernel ℕ := do
  match L.physOf v with
  | some a => return load (← get).mem a n
  | none => pageFault

def writePtr (v n x : ℕ) : Kernel Unit :=
  match L.physOfW v with
  | some a => modify fun s=>{s with mem := store s.mem a n x}
  | none => pageFault

def kmemset (v : ℕ) (c : UInt8) (n : ℕ) : Kernel Unit :=
  match L.physOfW v with
  | some a => modify fun s=>{s with mem := fill s.mem a n c}
  | none => pageFault

def kmemcpy (dest src n : ℕ) : Kernel Unit :=
  match L.physOfW dest, L.physOf src with
  | some a, some b => modify fun s=>{s with mem := blit s.mem a (bytes s.mem b n)}
  | _, _ => pageFault

def Machine.setCr3 (s : Machine) (pd : ℕ) : Machine := {s with env := {s.env with cr3 := pd}}

def cpuSetCr3 (pd : ℕ) : Kernel ℕ := do
  let prev := (← get).env.cr3
  modify fun s=>s.setCr3 pd
  return prev

section
variable {L} {s : Machine} {E : Machine → Prop} {v a n x : ℕ}

@[simp] theorem wp_isUsingKernelPageTables :
    Ensures (isUsingKernelPageTables L) s Q E ↔ Q (s.env.isUsingKernelPageTables L) s := by
  simp [isUsingKernelPageTables]

theorem wp_readPtr (h : L.physOf v=some a) : Ensures (readPtr L v n) s Q E ↔ Q (load s.mem a n) s := by
  simp [readPtr,h]

theorem wp_writePtr (h : L.physOfW v=some a) :
    Ensures (writePtr L v n x) s Q E ↔ Q () {s with mem := store s.mem a n x} := by
  simp [writePtr,h]

theorem wp_kmemset (h : L.physOfW v=some a) :
    Ensures (kmemset L v c n) s Q E ↔ Q () {s with mem := fill s.mem a n c} := by
  simp [kmemset,h]

theorem wp_kmemcpy (h : L.physOfW dest=some a) (h' : L.physOf src=some b) :
    Ensures (kmemcpy L dest src n) s Q E ↔ Q () {s with mem := blit s.mem a (bytes s.mem b n)} := by
  simp [kmemcpy,h,h']

theorem wp_cpuSetCr3 : Ensures (cpuSetCr3 pd) s Q E ↔ Q s.env.cr3 (s.setCr3 pd) := by simp [cpuSetCr3]

theorem setCr3_mem (s : Machine) (pd : ℕ) : (s.setCr3 pd).mem=s.mem := rfl

theorem setCr3_self (h : s.env.cr3=pd) : s.setCr3 pd=s := by
  subst h
  rfl
end

end Yaos2.Memory
