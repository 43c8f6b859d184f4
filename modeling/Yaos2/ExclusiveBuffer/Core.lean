import Yaos2.Debug
import Yaos2.Foundation.ByteMemory
import Yaos2.Foundation.Monitor

/-! # The exclusive buffer

The functions of `exclusive_buffer.c` as the sections of a monitor: a section ends where a pass of an
outer loop ends, where the thread waits for a change, and where it lets the mutex go. -/
namespace Yaos2.ExclusiveBuffer
open Foundation Function

/-- `struct exclusive_buffer`, its memory and its history. -/
structure Buffer where
  mem : Mem
  eof : Bool
  growing : Bool
  alignment : ℕ
  bufferSize : ℕ
  buffer : ℕ
  head : ℕ
  tail : ℕ
  multiLock : Bool
  handed : List UInt8
  accepted : List UInt8

/-- `eb_create`, with the array that `kzalloc` returned. -/
def ebCreate (mem : Mem) (array size alignment : ℕ) (growing : Bool) : Buffer where
  mem := fill mem array size 0
  eof := true
  growing := growing
  alignment := max alignment 1
  bufferSize := size
  buffer := array
  head := array
  tail := array
  multiLock := false
  handed := []
  accepted := []

def unsafeAssertValid : Exec Buffer PUnit := do
  let b ← get
  kassert "buffer->head > buffer->buffer" (b.buffer<b.head)
  kassert "buffer->head <= buffer->tail" (b.head≤b.tail)
  kassert "buffer->tail <= buffer->buffer + buffer->buffer_size" (b.tail≤b.buffer+b.bufferSize)

def unsafeGetContentsLength (b : Buffer) : ℕ := b.tail-b.head

def unsafeMoveHead : Exec Buffer PUnit := do
  let b ← get
  if b.head=b.buffer then
    return ()
  else
    unsafeAssertValid
    let contents := unsafeGetContentsLength b
    forRange contents fun i =>
      modify fun b=>{b with mem := update b.mem (b.buffer+i) (b.mem (b.head+i))}
    modify fun b=>{b with head := b.buffer, tail := b.buffer+contents}

/-- `kmemmove` out of the buffer: the bytes at `p2`, that are zero afterwards. -/
def kmemmove : ℕ → ℕ → Exec Buffer (List UInt8)
  | _, 0 => return []
  | p2, len+1 => do
    let c := (← get).mem p2
    modify fun b=>{b with mem := update b.mem p2 0}
    return c::(← kmemmove (p2+1) len)

def kmemcpy : ℕ → List UInt8 → Exec Buffer PUnit
  | _, [] => return ()
  | p1, c::cs => do
    modify fun b=>{b with mem := update b.mem p1 c}
    kmemcpy (p1+1) cs

/-- The transfer that `eb_read` and `eb_try_read` make, for a request of `size` bytes. -/
def readBatch (size : ℕ) : Exec Buffer (List UInt8) := do
  let b ← get
  let batch := min (unsafeGetContentsLength b) size
  let dest ← kmemmove b.head batch
  modify fun b=>{b with head := b.head+batch, handed := b.handed++dest}
  return dest

/-- The transfer that `eb_write` and `eb_try_write` make, with the number of bytes written. -/
def writeBatch (src : List UInt8) : Exec Buffer ℕ := do
  let b ← get
  let batch := min (b.bufferSize-unsafeGetContentsLength b) src.length
  kmemcpy b.tail (src.take batch)
  modify fun b=>{b with tail := b.tail+batch, accepted := b.accepted++src.take batch}
  return batch

/-- Set the EOF flag if no data is left in the buffer. -/
def setEof : Exec Buffer PUnit := modify fun b=>if b.head=b.tail then {b with eof := true} else b

/-- Clear the EOF flag, if needed. -/
def clearEof (written : ℕ) : Exec Buffer PUnit := modify fun b=>if 0<written then {b with eof := false} else b

/-- Where a thread is in the functions of the buffer. A blocking call carries what it has done so far. -/
inductive Pc
  | idle
  | read (size : ℕ) (dest : List UInt8)
  | tryRead (held : Bool) (size : ℕ)
  | write (src : List UInt8)
  | writing (src : List UInt8) (written : ℕ)
  | writingAgain (src : List UInt8) (written : ℕ)
  | tryWrite (held : Bool) (src : List UInt8)
  | flush
  | lock
  | locked
  | unlock
  deriving DecidableEq, Repr

/-- What `krealloc` makes of the memory, an array and its new size. -/
abbrev Krealloc := Mem → ℕ → ℕ → ℕ → ℕ × Mem

/-- An array that is grown where it is. -/
def inPlace : Krealloc := fun mem array _ _=>(array, mem)

variable (krealloc : Krealloc)

def unsafeGrowingWrite (src : List UInt8) : Exec Buffer PUnit := do
  unsafeMoveHead
  let b ← get
  let newSize := unsafeGetContentsLength b+src.length
  let (array, mem) := krealloc b.mem b.buffer b.alignment newSize
  set {b with buffer := array, mem := mem}
  kmemcpy b.tail src
  modify fun b=>{b with tail := b.tail+src.length, accepted := b.accepted++src}

/-- The end of the loop body of `eb_write`. -/
def writePass (src : List UInt8) (written : ℕ) : Exec Buffer (Move Pc) := do
  unsafeMoveHead
  let batch ← writeBatch (src.drop written)
  return .pass false (.writing src (written+batch))

def isFull (b : Buffer) : Bool := b.tail == b.buffer+b.bufferSize

/-- The sections. A thread inside `eb_lock` and `eb_unlock` keeps the mutex after `eb_try_read` and
`eb_try_write`. -/
def body : Pc → Exec Buffer (Move Pc)
  | .idle => return .leave false .idle
  | .read size dest => do
    if dest.length<size then
      -- the inner loop: a thread that has waited comes back here
      if (← get).eof then
        return .wait (.read size dest)
      else
        let more ← readBatch (size-dest.length)
        return .pass false (.read size (dest++more))
    else
      setEof
      return .leave (0<dest.length) .idle
  | .tryRead held size => do
    let inMultiLock := held && (← get).multiLock
    if (← get).eof then
      return if inMultiLock then .pass false .locked else .leave false .idle
    else
      let dest ← readBatch size
      setEof
      return if inMultiLock then .pass (0<dest.length) .locked else .leave (0<dest.length) .idle
  | .write src => do
    if (← get).growing then
      unsafeGrowingWrite krealloc src
      return .leave false .idle
    else
      return .pass false (.writing src 0)
  | .writing src written => do
    if written<src.length then
      unsafeMoveHead
      if isFull (← get) then
        return .wait (.writingAgain src written)
      else
        writePass src written
    else
      clearEof written
      return .leave (0<written) .idle
  | .writingAgain src written => do
    -- awake in the inner loop, that does not move the head
    if isFull (← get) then
      return .wait (.writingAgain src written)
    else
      writePass src written
  | .tryWrite held src => do
    let inMultiLock := held && (← get).multiLock
    let written ← (do
      if (← get).growing then
        unsafeGrowingWrite krealloc src
        return src.length
      else
        unsafeMoveHead
        writeBatch src)
    clearEof written
    return if inMultiLock then .pass (0<written) .locked else .leave (0<written) .idle
  | .flush => do
    if (← get).eof then
      return .leave false .idle
    else
      return .wait .flush
  | .lock => do
    modify fun b=>{b with multiLock := true}
    return .pass false .locked
  | .locked => return .pass false .locked
  | .unlock => do
    modify fun b=>{b with multiLock := false}
    return .leave false .idle

/-- The calls a thread can make next. Between `eb_lock` and `eb_unlock` the blocking ones panic. -/
inductive Calls : Pc → Pc → Prop
  | read (size : ℕ) : Calls .idle (.read size [])
  | tryRead (size : ℕ) : Calls .idle (.tryRead false size)
  | write (src : List UInt8) : Calls .idle (.write src)
  | tryWrite (src : List UInt8) : Calls .idle (.tryWrite false src)
  | flush : Calls .idle .flush
  | lock : Calls .idle .lock
  | lockedRead (size : ℕ) : Calls .locked (.tryRead true size)
  | lockedWrite (src : List UInt8) : Calls .locked (.tryWrite true src)
  | unlock : Calls .locked .unlock

def monitor : Monitor Pc Buffer where
  choose := Calls
  enters := fun p=>Calls .idle p
  body := body krealloc

def start (T : Type) (mem : Mem) (array size alignment : ℕ) : MonState T Pc Buffer where
  shared := ebCreate mem array size alignment false
  status := fun _=>.outside .idle
  panicked := false

def Buffer.contents (b : Buffer) : List UInt8 := bytes b.mem b.head (b.tail-b.head)

/-- The pointers are in order and inside the array. -/
structure Buffer.InOrder (b : Buffer) : Prop where
  head : b.buffer≤b.head
  tail : b.head≤b.tail
  limit : b.tail≤b.buffer+b.bufferSize

/-- The parts of a buffer that transfers leave alone. -/
structure SameControl (b b' : Buffer) : Prop where
  eof : b'.eof=b.eof
  growing : b'.growing=b.growing
  size : b'.bufferSize=b.bufferSize
  buffer : b'.buffer=b.buffer

variable {b b' : Buffer} {n : ℕ} {src : List UInt8}

theorem Buffer.contents_length (b : Buffer) : b.contents.length=b.tail-b.head := bytes_length ..

theorem Buffer.contents_eq_nil : b.contents=[] ↔ b.tail≤b.head := by
  rw [← List.length_eq_zero_iff,b.contents_length,Nat.sub_eq_zero_iff_le]

section

theorem unsafeMoveHead_spec (h : b.InOrder) : Returns unsafeMoveHead b (fun _ b'=>b'.InOrder ∧
    b'.head=b'.buffer ∧ b'.contents=b.contents ∧ SameControl b b' ∧ b'.handed=b.handed ∧
    b'.accepted=b.accepted) := by
  obtain ⟨hhd,htl,hlm⟩ := h
  simp only [unsafeMoveHead,Returns,wp_bind,wp_get]
  refine Ensures.ite (fun heq=>?_) (fun hne=>?_)
  · rw [wp_pure]
    exact ⟨⟨hhd,htl,hlm⟩,heq,rfl,⟨rfl,rfl,rfl,rfl⟩,rfl,rfl⟩
  simp only [wp_bind,unsafeAssertValid,wp_get,
    wp_kassert (show decide (b.buffer<b.head)=true by simp; omega),
    wp_kassert (show decide (b.head≤b.tail)=true by simpa using htl),
    wp_kassert (show decide (b.tail≤b.buffer+b.bufferSize)=true by simpa using hlm)]
  refine (Ensures.forRange (I := fun k c=>c = {b with
    mem := blit b.mem b.buffer (bytes b.mem b.head k)}) ?_ ?_).imp ?_
  · rw [bytes_zero,blit_nil]
  · rintro k c - rfl
    rw [wp_modify]
    exact congrArg (fun m=>{b with mem := m}) (update_blit_bytes b.mem hhd k)
  · rintro - c rfl
    rw [wp_modify]
    refine ⟨⟨le_rfl,Nat.le_add_right _ _,?_⟩,rfl,?_,⟨rfl,rfl,rfl,rfl⟩,rfl,rfl⟩
    · simp only [unsafeGetContentsLength]
      omega
    · have hsl := bytes_blit_self b.mem b.buffer b.contents
      rw [b.contents_length] at hsl
      simp only [Buffer.contents,unsafeGetContentsLength,Nat.add_sub_cancel_left]
      exact hsl

theorem kmemmove_spec (p n : ℕ) (b : Buffer) : Returns (kmemmove p n) b (fun dest b' =>
    dest=bytes b.mem p n ∧ b' = {b with mem := fill b.mem p n 0}) := by
  induction n generalizing p b with
  | zero =>
    rw [kmemmove,Returns,wp_pure]
    refine ⟨rfl,?_⟩
    rw [show fill b.mem p 0 0=b.mem from funext (fun x=>fill_outside (by omega))]
  | succ n ih =>
    simp only [kmemmove,Returns,wp_bind,wp_get,wp_modify,wp_pure]
    apply (ih (p+1) _).imp
    rintro rest c ⟨hr,rfl⟩
    refine ⟨?_,congrArg (fun m=>{b with mem := m}) (funext fun x=>?_)⟩
    · rw [hr,bytes_succ]
      refine congrArg _ (bytes_congr (fun x hx _=>?_))
      exact update_of_ne (by omega) ..
    · by_cases hx : x=p
      · rw [hx,fill_outside (by omega),fill_inside le_rfl (by omega)]
        exact update_self ..
      · by_cases hin : p+1≤x ∧ x<p+1+n
        · rw [fill_inside hin.1 hin.2,fill_inside (by omega) (by omega)]
        · rw [fill_outside (by omega),fill_outside (by omega)]
          exact update_of_ne hx ..

theorem kmemcpy_spec (p : ℕ) (src : List UInt8) (b : Buffer) : Returns (kmemcpy p src) b (fun _ b' =>
    b' = {b with mem := blit b.mem p src}) := by
  induction src generalizing p b with
  | nil =>
    rw [kmemcpy,Returns,wp_pure,blit_nil]
  | cons c cs ih =>
    simp only [kmemcpy,Returns,wp_bind,wp_modify]
    apply (ih (p+1) _).imp
    rintro - d rfl
    exact congrArg (fun m=>{b with mem := m}) (blit_cons ..).symm

theorem readBatch_spec (h : b.InOrder) (n : ℕ) : Returns (readBatch n) b (fun dest b'=>b'.InOrder ∧
    dest=b.contents.take n ∧ b'.contents=b.contents.drop n ∧ SameControl b b' ∧
    b'.handed=b.handed++dest ∧ b'.accepted=b.accepted) := by
  obtain ⟨hhd,htl,hlm⟩ := h
  simp only [readBatch,Returns,wp_bind,wp_get,wp_modify,wp_pure]
  apply (kmemmove_spec ..).imp
  rintro dest c ⟨rfl,rfl⟩
  simp only [unsafeGetContentsLength]
  refine ⟨⟨?_,?_,hlm⟩,?_,?_,⟨rfl,rfl,rfl,rfl⟩,trivial,trivial⟩
  · exact hhd.trans (Nat.le_add_right _ _)
  · show b.head+min (b.tail-b.head) n≤b.tail
    omega
  · rw [Buffer.contents,take_bytes]
  · rw [Buffer.contents,Buffer.contents,drop_bytes]
    have hmem : SameOn b.mem (fill b.mem b.head (min (b.tail-b.head) n) 0)
        (b.head+min (b.tail-b.head) n) (b.tail-(b.head+min (b.tail-b.head) n)) :=
      fun x hx _=>fill_outside (.inr hx)
    rw [bytes_congr hmem]
    rcases Nat.le_total n (b.tail-b.head) with hn | hn
    · rw [Nat.min_eq_right hn,Nat.sub_sub]
    · rw [Nat.sub_eq_zero_of_le hn,show b.tail-(b.head+min (b.tail-b.head) n)=0 by omega,bytes_zero,
        bytes_zero]

theorem writeBatch_spec (h : b.InOrder) (hst : b.head=b.buffer) (src : List UInt8) :
    Returns (writeBatch src) b (fun k b'=>b'.InOrder ∧
      k=min (b.bufferSize-b.contents.length) src.length ∧ b'.contents=b.contents++src.take k ∧
      SameControl b b' ∧ b'.handed=b.handed ∧ b'.accepted=b.accepted++src.take k) := by
  obtain ⟨hhd,htl,hlm⟩ := h
  simp only [writeBatch,Returns,wp_bind,wp_get,wp_modify,wp_pure]
  apply (kmemcpy_spec ..).imp
  rintro - c rfl
  simp only [unsafeGetContentsLength,b.contents_length]
  generalize hk : min (b.bufferSize-(b.tail-b.head)) src.length=k
  have hlen : (src.take k).length=k := by
    rw [List.length_take]
    omega
  refine ⟨⟨hhd,htl.trans (Nat.le_add_right _ _),?_⟩,trivial,?_,⟨rfl,rfl,rfl,rfl⟩,trivial,
    trivial⟩
  · show b.tail+k≤b.buffer+b.bufferSize
    omega
  · rw [Buffer.contents,Buffer.contents,show b.tail+k-b.head=b.tail-b.head+k by omega,bytes_add,
      show b.head+(b.tail-b.head)=b.tail by omega]
    have hmem : SameOn b.mem (blit b.mem b.tail (src.take k)) b.head (b.tail-b.head) :=
      fun x _ hx=>blit_outside (.inl (by omega))
    apply congrArg₂ _ (bytes_congr hmem)
    have hsl := bytes_blit_self b.mem b.tail (src.take k)
    rwa [hlen] at hsl
end

end Yaos2.ExclusiveBuffer
