import Yaos2.Debug
import Yaos2.Foundation.ByteMemory

/-! # Saved contexts of user threads

`resumeUser` is the way back to user code, through `x86_thread_switch` and `isr_exit`. -/
namespace Yaos2.Process
open Foundation

def kernelCodeSelector : ℕ := 0x08
def userCodeSelector : ℕ := 0x1B
def userDataSelector : ℕ := 0x23
def eflagsIf : ℕ := 0x200

/-- `struct isr_frame`. A segment register fills a slot of 32 bits. -/
structure IsrFrame where
  edi : ℕ
  esi : ℕ
  ebp : ℕ
  espDummy : ℕ
  ebx : ℕ
  edx : ℕ
  ecx : ℕ
  eax : ℕ
  gs : ℕ
  fs : ℕ
  es : ℕ
  ds : ℕ
  intNo : ℕ
  errorCode : ℕ
  framePointer : ℕ
  eip : ℕ
  cs : ℕ
  eflags : ℕ
  esp : ℕ
  ss : ℕ
  deriving DecidableEq, Repr

def sizeofIsrFrame : ℕ := 80
/-- Four saved registers and the return address. -/
def sizeofSwitchFrame : ℕ := 20

def IsrFrame.words (f : IsrFrame) : List ℕ :=
  [f.edi, f.esi, f.ebp, f.espDummy, f.ebx, f.edx, f.ecx, f.eax, f.gs, f.fs, f.es, f.ds, f.intNo,
    f.errorCode, f.framePointer, f.eip, f.cs, f.eflags, f.esp, f.ss]

/-- The frame with these words, in the order of the structure. -/
def IsrFrame.ofWords (w : ℕ → ℕ) : IsrFrame where
  edi := w 0
  esi := w 1
  ebp := w 2
  espDummy := w 3
  ebx := w 4
  edx := w 5
  ecx := w 6
  eax := w 7
  gs := w 8
  fs := w 9
  es := w 10
  ds := w 11
  intNo := w 12
  errorCode := w 13
  framePointer := w 14
  eip := w 15
  cs := w 16
  eflags := w 17
  esp := w 18
  ss := w 19

def IsrFrame.read (m : Mem) (a : ℕ) : IsrFrame := .ofWords (fun k=>load m (a+4*k) 4)

structure Registers where
  edi : ℕ
  esi : ℕ
  ebp : ℕ
  ebx : ℕ
  edx : ℕ
  ecx : ℕ
  eax : ℕ
  gs : ℕ
  fs : ℕ
  es : ℕ
  ds : ℕ
  eip : ℕ
  cs : ℕ
  eflags : ℕ
  esp : ℕ
  ss : ℕ
  deriving DecidableEq, Repr

/-- `popal` skips the stack pointer, three words are discarded, and `iret` takes the rest. -/
def IsrFrame.registers (f : IsrFrame) : Registers where
  edi := f.edi
  esi := f.esi
  ebp := f.ebp
  ebx := f.ebx
  edx := f.edx
  ecx := f.ecx
  eax := f.eax
  gs := f.gs%2^16
  fs := f.fs%2^16
  es := f.es%2^16
  ds := f.ds%2^16
  eip := f.eip
  cs := f.cs%2^16
  eflags := f.eflags
  esp := f.esp
  ss := f.ss%2^16

/-- Addresses of the two pieces of code a new user thread returns through. -/
structure KernelText where
  uthreadSwitchEntry : ℕ
  isrExit : ℕ
  entry_lt : uthreadSwitchEntry<2^32
  exit_lt : isrExit<2^32

/-- `x86_thread_switch` pops four registers and returns to `uthread_switch_entry`, that to
`isr_exit`. -/
def resumeUser (text : KernelText) (m : Mem) (esp0 : ℕ) : Option Registers :=
  if load m (esp0+16) 4=text.uthreadSwitchEntry ∧ load m (esp0+20) 4=text.isrExit then
    some (IsrFrame.read m (esp0+24)).registers
  else none

/-- `struct arch_thread`. -/
structure ArchThread where
  cs : ℕ
  ds : ℕ
  ebp : ℕ
  stack : ℕ
  stackSize : ℕ
  ebp0 : ℕ
  esp0 : ℕ
  stack0 : ℕ
  stack0Size : ℕ
  intEnabled : Bool
  cliStack : ℕ
  cr3 : ℕ
  tentry : ℕ
  deriving DecidableEq, Repr

def x86ThreadConstructThread {σ : Type} (stack0 stack0Size stack stackSize tentry : ℕ)
    (intEnabled : Bool) (cs ds cr3 : ℕ) : Exec σ ArchThread := do
  kassert "((uintptr_t)stack) % 16 == 0" (stack%16 == 0)
  kassert "((uintptr_t)stack0) % 16 == 0" (stack0%16 == 0)
  let user := cs == userCodeSelector
  if user then
    kassert "stack" (stack != 0)
  return {
    cs := cs
    ds := ds
    ebp := if user then (stack+stackSize)%2^32 else 0
    stack := if user then stack else 0
    stackSize := if user then stackSize else 0
    ebp0 := (stack0+stack0Size)%2^32
    esp0 := (stack0+stack0Size)%2^32
    stack0 := stack0
    stack0Size := stack0Size
    intEnabled := intEnabled
    cliStack := 0
    cr3 := cr3
    tentry := tentry}

/-- The frame of a thread that starts at its entry point; the other fields are what is there. -/
def IsrFrame.start (thread : ArchThread) (f : IsrFrame) : IsrFrame :=
  {f with
    ebp := thread.ebp0
    ds := thread.ds
    es := thread.ds
    fs := 0
    gs := 0
    ss := thread.ds
    esp := thread.ebp
    eflags := if thread.intEnabled then eflagsIf else 0
    cs := thread.cs
    eip := thread.tentry}

/-- The thread and the memory with what `setup_uthread_stack` puts on the stack. -/
def setupUthreadStack (text : KernelText) (m : Mem) (thread : ArchThread)
    (frameTemplate : Option IsrFrame) : Mem × ArchThread :=
  let frameAt := thread.esp0-sizeofIsrFrame
  let frame := frameTemplate.getD (.start thread (.read m frameAt))
  let m := storeWords m frameAt frame.words
  let m := store m (frameAt-4) 4 text.isrExit
  let esp0 := frameAt-4-sizeofSwitchFrame
  -- the saved registers below the frame pointer are whatever the new stack holds
  let m := store m (esp0+8) 4 thread.ebp0
  let m := store m (esp0+16) 4 text.uthreadSwitchEntry
  (m, {thread with esp0 := esp0})

section
variable {m : Mem} {a : ℕ} {f : IsrFrame}

theorem IsrFrame.ofWords_congr (h : ∀ k<20, w k=w' k) : ofWords w=ofWords w' := by simp [ofWords,h]

theorem IsrFrame.ofWords_words (f : IsrFrame) : ofWords (fun k=>f.words.getD k 0)=f := rfl

theorem IsrFrame.read_storeWords (hw : ∀ w ∈ f.words, w<2^32) :
    IsrFrame.read (storeWords m a f.words) a=f := by
  have hlen : f.words.length=20 := rfl
  calc IsrFrame.read (storeWords m a f.words) a
      = ofWords (fun k=>f.words.getD k 0) :=
        ofWords_congr (fun k hk=>by
          rw [load_storeWords (by omega) hw,List.getD_eq_getElem?_getD,List.getElem?_eq_getElem,
            Option.getD_some])
    _=f := f.ofWords_words

theorem IsrFrame.read_congr (h : SameOn m m' a sizeofIsrFrame) : IsrFrame.read m' a=IsrFrame.read m a :=
  ofWords_congr (fun k hk =>
    load_congr (fun x _ _=>h x (by omega) (by simp only [sizeofIsrFrame]; omega)))

theorem resumeUser_setup (text : KernelText) (m : Mem) (hr : 104≤thread.esp0) (hw : ∀ w ∈ f.words, w<2^32) :
    resumeUser text (setupUthreadStack text m thread (some f)).1
      (setupUthreadStack text m thread (some f)).2.esp0=some f.registers := by
  obtain ⟨b,hb⟩ : ∃ b, thread.esp0=b+104 := ⟨thread.esp0-104,by omega⟩
  simp only [setupUthreadStack,hb,sizeofIsrFrame,sizeofSwitchFrame,Option.getD_some,
    show b+104-80=b+24 by omega,show b+24-4=b+20 by omega,
    show b+20-20=b by omega]
  rw [resumeUser,load_store_of_lt text.entry_lt,load_store_disjoint (by omega),
    load_store_disjoint (by omega),load_store_of_lt text.exit_lt,if_pos ⟨rfl,rfl⟩]
  apply congrArg (fun g=>some (IsrFrame.registers g))
  refine (IsrFrame.read_congr (m := storeWords m (b+24) f.words) (fun x hx _=>?_)).trans
    (IsrFrame.read_storeWords hw)
  rw [store_outside (by omega),store_outside (by omega),store_outside (by omega)]
end

end Yaos2.Process
