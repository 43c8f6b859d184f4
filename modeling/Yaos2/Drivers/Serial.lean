import Yaos2.ExclusiveBuffer.Fifo

/-! # The serial ports and their character devices

What a port sends is recorded with the buffer it came from. -/
set_option linter.unusedSectionVars false

namespace Yaos2.Serial
open Foundation ExclusiveBuffer Function List

def maxSubscribers : ℕ := 8
def comFifoSize : ℕ := 14

inductive Port
  | com1
  | com2
  deriving DecidableEq

/-- The buffers of the two devices, and those of others. -/
inductive BufId
  | input (p : Port)
  | output (p : Port)
  | other (n : ℕ)
  deriving DecidableEq

/-- The subscribers in `struct serial`, and the bytes that the receiver has. -/
structure SerialPort where
  inputSubscribers : List (Option BufId)
  outputSubscribers : List (Option BufId)
  received : List UInt8

/-- An open file of one of the devices. -/
structure DevFile where
  dev : Port
  offset : Int

/-- The ports and the devices. `call` holds the lock of a node, and `wrote` has returned. -/
structure SerialState (F : Type) where
  port : Port → SerialPort
  buf : BufId → Buffer
  file : F → DevFile
  call : Port → Option (F × Pc)
  sent : List (Port × BufId × UInt8)
  wrote : BufId → List UInt8

/-- `eb_try_read` by a thread that does not hold the lock for multiple operations. -/
def ebTryRead (size : ℕ) : Exec Buffer (List UInt8) := do
  if (← get).eof then
    return []
  else
    let dest ← readBatch size
    setEof
    return dest

/-- The transfer of `eb_try_write`. -/
def tryWriteBatch (src : List UInt8) : Exec Buffer ℕ := do
  if (← get).growing then
    unsafeGrowingWrite inPlace src
    return src.length
  else
    unsafeMoveHead
    writeBatch src

/-- `eb_try_write` by a thread that does not hold the lock for multiple operations. -/
def ebTryWrite (src : List UInt8) : Exec Buffer ℕ := do
  let written ← tryWriteBatch src
  clearEof written
  return written

section
variable {F : Type}

def onBuffer {α : Type} (id : BufId) (x : Exec Buffer α) : Exec (SerialState F) α :=
  zoom (fun s=>s.buf id) (fun b s=>{s with buf := update s.buf id b}) x

def setPort (p : Port) (f : SerialPort → SerialPort) : Exec (SerialState F) Unit :=
  modify fun s=>{s with port := update s.port p (f (s.port p))}

/-- Try to get a byte from each subscriber. -/
def tryFromSubscribers : List (Option BufId) → Exec (SerialState F) (Option (BufId × UInt8))
  | [] => return none
  | none::subs => tryFromSubscribers subs
  | some eb::subs => do
    match ← onBuffer eb (ebTryRead 1) with
    | c::_ => return some (eb, c)
    | [] => tryFromSubscribers subs

/-- Fill the transmitter's queue from subscriber buffers. -/
def fillFifo (subs : List (Option BufId)) : ℕ → Exec (SerialState F) (List (BufId × UInt8))
  | 0 => return []
  | p+1 => do
    match ← tryFromSubscribers subs with
    | none => return []
    | some data => return data::(← fillFifo subs p)

/-- `brk` and `empty` are the bits of the line status register: a break, and an empty transmitter. -/
def trySerialWrite (p : Port) (brk empty : Bool) : Exec (SerialState F) Unit := do
  if brk then
    return ()
  else if empty then
    let data ← fillFifo ((← get).port p).outputSubscribers comFifoSize
    modify fun s=>{s with sent := s.sent++data.map (fun d=>(p, d))}
  else
    return ()

def offerSubscribers (data : UInt8) : List (Option BufId) → Exec (SerialState F) Unit
  | [] => return ()
  | none::subs => offerSubscribers data subs
  | some eb::subs => do
    let _ ← onBuffer eb (ebTryWrite [data])
    offerSubscribers data subs

/-- The loop of `try_serial_read`. Received bytes are offered to the output subscribers. -/
def receiveLoop (p : Port) : List UInt8 → Exec (SerialState F) Unit
  | [] => return ()
  | data::rest => do
    setPort p (fun s=>{s with received := rest})
    offerSubscribers data ((← get).port p).outputSubscribers
    receiveLoop p rest

def trySerialRead (p : Port) (brk : Bool) : Exec (SerialState F) Unit := do
  if brk then
    return ()
  else
    receiveLoop p ((← get).port p).received

def serialReceived (s : SerialState F) (p : Port) (brk : Bool) : Bool := !brk && !(s.port p).received.isEmpty

/-- One pass of the loop of `serial_handler_main`, in which the port is not waited for. -/
def serialHandler (p : Port) (brk empty : Bool) : Exec (SerialState F) Unit := do
  if serialReceived (← get) p brk then
    trySerialRead p brk
  if empty then
    trySerialWrite p brk empty

def subscribe (subs : List (Option BufId)) (eb : BufId) : Exec (SerialState F) (List (Option BufId)) :=
  match subs.findIdx? Option.isNone with
  | some i => return subs.set i (some eb)
  | none => abort "subscribe(): exceeded max subscribers"

def serialSubscribeInput (com : Port) (eb : BufId) : Exec (SerialState F) Unit := do
  let subs ← subscribe ((← get).port com).inputSubscribers eb
  setPort com (fun s=>{s with inputSubscribers := subs})

def serialSubscribeOutput (com : Port) (eb : BufId) : Exec (SerialState F) Unit := do
  let subs ← subscribe ((← get).port com).outputSubscribers eb
  setPort com (fun s=>{s with outputSubscribers := subs})

/-- `eb_create` of the buffers of a device. `mem` and `array` are where the arrays are. -/
def createBuffers (p : Port) (mem : Mem) (array : ℕ) : Exec (SerialState F) Unit := do
  modify fun s=>{s with buf := update s.buf (.input p) (ebCreate mem array 128 1 false)}
  modify fun s=>{s with buf := update s.buf (.output p) (ebCreate mem array 128 1 false)}

/-- The device of the port `p`, with its buffers subscribed to `com`. -/
def installCdev (p com : Port) (mem : Mem) (array : ℕ) : Exec (SerialState F) Unit := do
  createBuffers p mem array
  serialSubscribeInput com (.input p)
  serialSubscribeOutput com (.output p)

def installCom1Cdev (mem : Mem) (array : ℕ) : Exec (SerialState F) Unit := installCdev .com1 .com1 mem array

/-- The buffers of the second device are subscribed to the first port. -/
def installCom2Cdev (mem : Mem) (array : ℕ) : Exec (SerialState F) Unit := installCdev .com2 .com1 mem array

def cdevDevfsGetSize : Int := 0

/-- `serial_cdev_read` uses the input buffer of the device, `serial_cdev_write` the output buffer.
-/
def callBuffer (p : Port) : Pc → BufId
  | .read .. => .input p
  | _ => .output p

/-- What a call returns, in the end: the bytes it has read, or the number of bytes it has written. -/
def callResult : Pc → List UInt8 × ℕ
  | .read _ dest => (dest, dest.length)
  | .writing _ written => ([], written)
  | _ => ([], 0)

def callWrote : Pc → List UInt8
  | .writing src _ => src
  | _ => []
end

/-- What happens, and to which file or port. -/
inductive SerialEvent (F : Type)
  | beginWrite (f : F) (src : List UInt8)
  | beginRead (f : F) (num : ℕ)
  | goOn (p : Port)
  | returns (f : F) (result : List UInt8) (num : ℕ)
  | arrive (p : Port) (data : UInt8)
  | handle (p : Port)
  | writeOther (n : ℕ) (src : List UInt8)

section
variable {F : Type} [DecidableEq F]

namespace SerialState

@[simps]
def setCall (s : SerialState F) (p : Port) (c : Option (F × Pc)) : SerialState F :=
  {s with call := update s.call p c}

@[simps]
def setBuf (s : SerialState F) (id : BufId) (b : Buffer) : SerialState F := {s with buf := update s.buf id b}

/-- `f->offset += result` -/
@[simps]
def advance (s : SerialState F) (f : F) (n : ℕ) : SerialState F :=
  {s with file := update s.file f {s.file f with offset := (s.file f).offset+n}}

@[simps]
def record (s : SerialState F) (id : BufId) (src : List UInt8) : SerialState F :=
  {s with wrote := update s.wrote id (s.wrote id++src)}
end SerialState

inductive SerialStep : SerialState F → SerialEvent F → SerialState F → Prop
  | beginWrite {s : SerialState F} {f : F} {src : List UInt8} : s.call (s.file f).dev=none → src≠[] →
      SerialStep s (.beginWrite f src) (s.setCall (s.file f).dev (some (f, .write src)))
  | emptyCall {s : SerialState F} {f : F} : SerialStep s (.returns f [] 0) s
  | readEof {s : SerialState F} {f : F} : s.call (s.file f).dev=none → cdevDevfsGetSize≤(s.file f).offset →
      SerialStep s (.returns f [] 0) s
  | beginRead {s : SerialState F} {f : F} {num : ℕ} : s.call (s.file f).dev=none →
      (s.file f).offset<cdevDevfsGetSize → 0<num →
      SerialStep s (.beginRead f num) (s.setCall (s.file f).dev (some (f, .read num [])))
  | pass {s : SerialState F} {p : Port} {f : F} {pc pc' : Pc} {n : Bool} {b : Buffer} : s.call p=some (f, pc) →
      body inPlace pc (s.buf (callBuffer p pc))=.ok (.pass n pc') b →
      SerialStep s (.goOn p) ((s.setBuf (callBuffer p pc) b).setCall p (some (f, pc')))
  | wait {s : SerialState F} {p : Port} {f : F} {pc pc' : Pc} {b : Buffer} : s.call p=some (f, pc) →
      body inPlace pc (s.buf (callBuffer p pc))=.ok (.wait pc') b →
      SerialStep s (.goOn p) ((s.setBuf (callBuffer p pc) b).setCall p (some (f, pc')))
  | leave {s : SerialState F} {p : Port} {f : F} {pc pc' : Pc} {n : Bool} {b : Buffer} : s.call p=some (f, pc) →
      body inPlace pc (s.buf (callBuffer p pc))=.ok (.leave n pc') b →
      SerialStep s (.returns f (callResult pc).1 (callResult pc).2)
        ((((s.setBuf (callBuffer p pc) b).setCall p none).advance f (callResult pc).2).record (.output p)
          (callWrote pc))
  | arrive {s : SerialState F} {p : Port} {data : UInt8} :
      SerialStep s (.arrive p data) {s with
        port := update s.port p {s.port p with received := (s.port p).received++[data]}}
  | handle {s s' : SerialState F} (p : Port) (brk empty : Bool) : serialHandler p brk empty s=.ok () s' →
      SerialStep s (.handle p) s'
  | writeOther {s : SerialState F} {n k : ℕ} {src : List UInt8} {b : Buffer} :
      ebTryWrite src (s.buf (.other n))=.ok k b →
      SerialStep s (.writeOther n src) ((s.setBuf (.other n) b).record (.other n) (src.take k))
end

def fromBuffer (id : BufId) (data : List (BufId × UInt8)) : List UInt8 :=
  (data.filter (fun d=>d.1=id)).map Prod.snd

@[simp] theorem fromBuffer_append (id : BufId) (data more : List (BufId × UInt8)) :
    fromBuffer id (data++more)=fromBuffer id data++fromBuffer id more := by
  simp [fromBuffer]

theorem fromBuffer_map (id : BufId) (dest : List UInt8) :
    fromBuffer id (dest.map (fun c=>(id, c)))=dest := by
  simp [fromBuffer,filter_map,comp_def]

theorem fromBuffer_eq_nil_iff {id : BufId} : fromBuffer id data=[] ↔ ∀ d ∈ data, d.1≠id := by
  simp [fromBuffer,filter_eq_nil_iff]

section

/-- A buffer that is a queue, wherever it is. -/
def Sound (b : Buffer) : Prop := ∃ array size, Fifo array size b

variable {b : Buffer}

theorem ebTryRead_spec (h : Sound b) (n : ℕ) : Returns (ebTryRead n) b (fun dest b' =>
    Sound b' ∧ dest.length≤n ∧ b.contents=dest++b'.contents) := by
  obtain ⟨array,size,hb⟩ := h
  simp only [ebTryRead,Returns,wp_bind,wp_get]
  refine Ensures.ite (fun _=>?_) (fun _=>?_)
  · exact (wp_pure ..).mpr ⟨⟨array,size,hb⟩,Nat.zero_le _,rfl⟩
  · simp only [wp_bind,wp_pure]
    apply (readBatch_fifo hb n).imp
    rintro dest c ⟨hc,rfl,hr,-⟩
    apply hc.setEof.imp
    rintro - d ⟨hd,hi,-⟩
    refine ⟨⟨array,size,hd⟩,length_take_le _ _,?_⟩
    rw [hi,hr,take_append_drop]

theorem tryWriteBatch_spec (h : Fifo array size b) (src : List UInt8) :
    Returns (tryWriteBatch src) b (fun k b'=>Fifo array size b' ∧ Written size src b k b') := by
  simp only [tryWriteBatch,Returns,wp_bind,wp_get,h.fixed,Bool.false_eq_true,if_false]
  exact (wp_bind ..).mp (moveAndWrite_fifo h src)

theorem ebTryWrite_spec (h : Sound b) (src : List UInt8) : Returns (ebTryWrite src) b (fun k b' =>
    Sound b' ∧ b'.contents=b.contents++src.take k) := by
  obtain ⟨array,size,hb⟩ := h
  simp only [ebTryWrite,Returns,wp_bind,wp_pure]
  apply (tryWriteBatch_spec hb src).imp
  rintro k c ⟨hc,-,hi,-⟩
  apply (hc.clearEof k).imp
  rintro - d ⟨hd,hs,-⟩
  exact ⟨⟨array,size,hd⟩,hs.trans hi⟩
end

section
variable {F : Type} {s t u : SerialState F} {subs : List (Option BufId)} {data more : List (BufId × UInt8)}

/-- `data` has been taken from the heads of subscribed buffers, and nothing else has changed. -/
structure Drained (subs : List (Option BufId)) (data : List (BufId × UInt8)) (s t : SerialState F) : Prop where
  rest : t = {s with buf := t.buf}
  sound : ∀ id, Sound (t.buf id)
  contents : ∀ id, (s.buf id).contents=fromBuffer id data++(t.buf id).contents
  subscribed : ∀ d ∈ data, some d.1 ∈ subs

theorem Drained.none (h : ∀ id, Sound (s.buf id)) : Drained subs [] s s :=
  ⟨rfl,h,fun _=>rfl,fun _ hd=>nomatch hd⟩

theorem Drained.append (h : Drained subs data s t) (h' : Drained subs more t u) :
    Drained subs (data++more) s u where
  rest := by
    have hr := h'.rest
    rwa [h.rest] at hr
  sound := h'.sound
  contents id := by rw [h.contents,h'.contents,fromBuffer_append,append_assoc]
  subscribed d hd := (mem_append.mp hd).elim (h.subscribed d) (h'.subscribed d)

theorem Drained.subset (h : Drained subs data s t) (hsub : subs ⊆ subs') :
    Drained subs' data s t :=
  ⟨h.rest,h.sound,h.contents,fun d hd=>hsub (h.subscribed d hd)⟩

theorem onBuffer_ebTryRead_spec (h : ∀ id, Sound (s.buf id)) (eb : BufId) :
    Returns (onBuffer eb (ebTryRead 1)) s (fun dest t =>
      Drained [some eb] (dest.head?.toList.map (fun c=>(eb, c))) s t) := by
  rw [onBuffer,Returns,wp_zoom]
  apply (ebTryRead_spec (h eb) 1).imp
  rintro dest c ⟨hc,hlen,hit⟩
  have hds : dest.head?.toList=dest := by
    cases dest with
    | nil => rfl
    | cons d rest =>
      have hrs := eq_nil_of_length_eq_zero (Nat.le_zero.mp (Nat.le_of_succ_le_succ hlen))
      rw [hrs]
      rfl
  refine ⟨rfl,?_,?_,?_⟩
  · intro id
    by_cases hid : id=eb
    · simp_all
    · simpa [hid] using h id
  · intro id
    by_cases hid : id=eb
    · simp_all [fromBuffer_map]
    · have hne : fromBuffer id (dest.head?.toList.map (fun c=>(eb, c)))=[] := by
        rw [fromBuffer_eq_nil_iff]
        simp [Ne.symm hid]
      simp [hne,hid]
  · simp

theorem tryFromSubscribers_spec (subs : List (Option BufId)) : ∀ {s : SerialState F}, (∀ id, Sound (s.buf id)) →
    Returns (tryFromSubscribers subs) s (fun r t=>Drained subs r.toList s t) := by
  induction subs with
  | nil => exact fun h=>(wp_pure ..).mpr (Drained.none h)
  | cons sub subs ih =>
    intro s h
    cases sub with
    | none => exact (ih h).imp (fun _ _ hd=>hd.subset (subset_cons_self ..))
    | some eb =>
      rw [tryFromSubscribers,Returns,wp_bind]
      apply (onBuffer_ebTryRead_spec h eb).imp
      intro dest t ht
      cases dest with
      | nil =>
        refine (ih ht.sound).imp (fun r u hu=>?_)
        exact (ht.subset (by simp)).append (hu.subset (subset_cons_self ..))
      | cons c _ => exact (wp_pure ..).mpr (ht.subset (by simp))

theorem fillFifo_spec (subs : List (Option BufId)) (n : ℕ) : ∀ {s : SerialState F}, (∀ id, Sound (s.buf id)) →
    Returns (fillFifo subs n) s (fun data t=>Drained subs data s t) := by
  induction n with
  | zero => exact fun h=>(wp_pure ..).mpr (Drained.none h)
  | succ n ih =>
    intro s h
    rw [fillFifo,Returns,wp_bind]
    apply (tryFromSubscribers_spec subs h).imp
    intro r t ht
    cases r with
    | none => exact (wp_pure ..).mpr ht
    | some d =>
      simpa [wp_bind,wp_pure] using (ih ht.sound).imp (fun data u hu=>ht.append hu)

theorem serialHandler_spec (h : ∀ id, Sound (s.buf id)) (hr : (s.port p).received=[])
    (brk empty : Bool) : Returns (serialHandler p brk empty) s (fun _ t=>∃ data,
      Drained (s.port p).outputSubscribers data s {t with sent := s.sent} ∧
      t.sent=s.sent++data.map (fun d=>(p, d))) := by
  have hi : ∃ data, Drained (s.port p).outputSubscribers data s {s with sent := s.sent} ∧
      s.sent=s.sent++data.map (fun d=>(p, d)) := ⟨[],Drained.none h,by simp⟩
  simp only [serialHandler,serialReceived,Returns,wp_bind,wp_get,hr,isEmpty_nil,
    Bool.not_true,Bool.and_false,Bool.false_eq_true,if_false]
  refine Ensures.ite (fun he=>?_) (fun _=>(wp_pure ..).mpr hi)
  rw [trySerialWrite]
  refine Ensures.ite (fun _=>(wp_pure ..).mpr hi) (fun _=>?_)
  rw [if_pos he]
  simp only [wp_bind,wp_get,wp_modify]
  apply (fillFifo_spec _ comFifoSize h).imp
  intro data t ht
  have hs : t.sent=s.sent := by rw [ht.rest]
  refine ⟨data,?_,by rw [hs]⟩
  rwa [← hs]
end

section
variable {F : Type} [DecidableEq F] {s s' : SerialState F} {e : SerialEvent F} {p : Port}

/-- No byte arrives, and nothing is written to `/dev/com2`. -/
def Quiet (s : SerialState F) : SerialEvent F → Prop
  | .beginWrite f _ => (s.file f).dev≠.com2
  | .arrive .. => False
  | _ => True

def sentFrom (s : SerialState F) (id : BufId) : List UInt8 := fromBuffer id (s.sent.map Prod.snd)

def transferred : Pc → List UInt8
  | .writing src written => src.take written
  | .writingAgain src written => src.take written
  | _ => []

/-- The bytes that the call in progress has put into a buffer. -/
def inFlight (s : SerialState F) : BufId → List UInt8
  | .output p => ((s.call p).map (fun c=>transferred c.2)).getD []
  | _ => []

/-- Where a write can be. -/
def IsWrite : Pc → Prop
  | .write _ => True
  | .writing src written => written ≤ src.length
  | .writingAgain src written => written ≤ src.length
  | _ => False

/-- What a port sends is from the device of the port, or from a buffer of others. -/
def OwnOrOther (p : Port) (id : BufId) : Prop := id=.output p ∨ ∃ n, id=.other n

structure Inv (s : SerialState F) : Prop where
  sound : ∀ id, Sound (s.buf id)
  stream : ∀ id, sentFrom s id++(s.buf id).contents=s.wrote id++inFlight s id
  subscribed : ∀ p id, some id ∈ (s.port p).outputSubscribers → OwnOrOther p id ∨ id=.output .com2
  sent : ∀ d ∈ s.sent, some d.2.1 ∈ (s.port d.1).outputSubscribers
  received : ∀ p, (s.port p).received=[]
  offset : ∀ f, 0≤(s.file f).offset
  noInput : ∀ p, s.wrote (.input p)=[]
  noSecond : s.wrote (.output .com2)=[]
  noSecondCall : s.call .com2=none
  call : ∀ p f pc, s.call p=some (f, pc) → IsWrite pc

theorem Inv.second_unsent (h : Inv s) : sentFrom s (.output .com2)=[] := by
  have hs := h.stream (.output .com2)
  rw [h.noSecond,inFlight,h.noSecondCall] at hs
  exact (append_eq_nil_iff.mp hs).1

theorem Inv.input_empty (h : Inv s) (p : Port) : (s.buf (.input p)).contents=[] := by
  have hs := h.stream (.input p)
  rw [h.noInput] at hs
  exact (append_eq_nil_iff.mp hs).2

theorem Inv.sent_own (h : Inv s) (hd : d ∈ s.sent) : OwnOrOther d.1 d.2.1 := by
  refine (h.subscribed _ _ (h.sent d hd)).resolve_right (fun hs=>?_)
  have hnil := fromBuffer_eq_nil_iff.mp h.second_unsent
  exact hnil d.2 (mem_map_of_mem hd) hs

/-- A section of a write puts more of its bytes into the buffer, or returns after the last one. -/
def WriteMove (pc : Pc) (b b' : Buffer) : Move Pc → Prop
  | .leave _ _ => b'.contents=b.contents ∧ callWrote pc=transferred pc ∧ (callResult pc).1=[]
  | .pass _ pc' => IsWrite pc' ∧ ∃ more, b'.contents=b.contents++more ∧ transferred pc'=transferred pc++more
  | .wait pc' => IsWrite pc' ∧ ∃ more, b'.contents=b.contents++more ∧ transferred pc'=transferred pc++more

variable {b b' : Buffer} {pc : Pc} {f : F}

theorem Written.isWrite (h : Written size (src.drop written) b k b') (hw : written ≤ src.length) (pc : Pc)
    (hpc : transferred pc=src.take written) : WriteMove pc b b' (.pass false (.writing src (written+k))) := by
  obtain ⟨hk,hi,-⟩ := h
  rw [length_drop] at hk
  refine ⟨?_,(src.drop written).take k,hi,?_⟩
  · change written+k ≤ src.length
    omega
  · rw [hpc,transferred,take_add]

theorem Effect.writeMove (h : Effect size pc b mv b') (hw : IsWrite pc) : WriteMove pc b b' mv := by
  cases pc with
  | write src =>
    obtain ⟨rfl,rfl⟩ := h
    exact ⟨Nat.zero_le _,[],by simp,rfl⟩
  | writing src written =>
    rw [Effect] at h
    split at h
    · split at h
      · obtain ⟨rfl,hi,-⟩ := h
        exact ⟨hw,[],by simp [hi],by simp [transferred]⟩
      · obtain ⟨k,rfl,hk⟩ := h
        exact Written.isWrite hk hw _ rfl
    · next hd =>
      obtain ⟨rfl,hi,-⟩ := h
      exact ⟨hi,(take_of_length_le (not_lt.mp hd)).symm,rfl⟩
  | writingAgain src written =>
    rw [Effect] at h
    split at h
    · obtain ⟨rfl,rfl⟩ := h
      exact ⟨hw,[],by simp,by simp [transferred]⟩
    · obtain ⟨k,rfl,hk⟩ := h
      exact Written.isWrite hk hw _ rfl
  | _ => exact hw.elim

theorem callBuffer_of_isWrite (hw : IsWrite pc) : callBuffer p pc=.output p := by
  cases pc <;> first | rfl | exact hw.elim

theorem body_writeMove (hb : Sound b) (hw : IsWrite pc)
    (h : body inPlace pc b=.ok mv b') : Sound b' ∧ WriteMove pc b b' mv := by
  obtain ⟨array,size,hf⟩ := hb
  have hs := (body_spec hf pc).of_ok h
  exact ⟨⟨array,size,hs.1⟩,Effect.writeMove hs.2 hw⟩

section
variable (h : Inv s)
include h
theorem Inv.callMoved (hp : p≠.com2) (hpr : s'.port=s.port)
    (hsn : s'.sent=s.sent) (hbuf : ∀ id, id≠.output p → s'.buf id=s.buf id)
    (hwr : ∀ id, id≠.output p → s'.wrote id=s.wrote id) (hcl : s'.call=update s.call p c)
    (hc : ∀ f pc, c=some (f, pc) → IsWrite pc) (hof : ∀ f, 0≤(s'.file f).offset)
    (hsd : Sound (s'.buf (.output p)))
    (hst : sentFrom s (.output p)++(s'.buf (.output p)).contents =
      s'.wrote (.output p)++(c.map (fun c=>transferred c.2)).getD []) : Inv s' where
  sound id := by
    by_cases hid : id=.output p
    · exact hid▸hsd
    · exact hbuf id hid▸h.sound id
  stream id := by
    have hsn' : ∀ id, sentFrom s' id=sentFrom s id := fun id=>by rw [sentFrom,sentFrom,hsn]
    by_cases hid : id=.output p
    · rw [hid,hsn',hst,inFlight,hcl,update_self]
    · have hsm : inFlight s' id=inFlight s id := by
        cases id with
        | output q =>
          have hq : q≠p := fun hq=>hid (hq▸rfl)
          rw [inFlight,inFlight,hcl,update_of_ne hq]
        | _ => rfl
      rw [hsn',hbuf id hid,hwr id hid,hsm]
      exact h.stream id
  subscribed := hpr▸h.subscribed
  sent := by
    rw [hsn,hpr]
    exact h.sent
  received := hpr▸h.received
  offset := hof
  noInput q := (hwr _ (by simp)).trans (h.noInput q)
  noSecond := (hwr _ (by simp [hp.symm])).trans h.noSecond
  noSecondCall := by
    rw [hcl,update_of_ne hp.symm]
    exact h.noSecondCall
  call q f pc hq := by
    rw [hcl] at hq
    by_cases hqp : q=p
    · rw [hqp,update_self] at hq
      exact hc f pc hq
    · rw [update_of_ne hqp] at hq
      exact h.call q f pc hq

theorem Inv.first (hc : s.call p=some c) : p≠.com2 := by
  intro hp
  have hn := h.noSecondCall
  rw [← hp,hc] at hn
  cases hn

theorem Inv.goOn (hcl : s.call p=some (f, pc)) (hb : Sound b)
    (hw : IsWrite pc' ∧ ∃ more, b.contents=(s.buf (.output p)).contents++more ∧
      transferred pc'=transferred pc++more) :
    Inv ((s.setBuf (.output p) b).setCall p (some (f, pc'))) := by
  obtain ⟨hpc',more,hit,hmr⟩ := hw
  have hs := h.stream (.output p)
  rw [inFlight,hcl] at hs
  refine h.callMoved (h.first hcl) rfl rfl ?_ (fun _ _=>rfl) rfl ?_ h.offset ?_ ?_
  · simp_all
  · simp_all
  · simpa using hb
  · simp only [SerialState.setCall_buf,SerialState.setBuf_buf,update_self,hit,
      SerialState.setCall_wrote,SerialState.setBuf_wrote]
    rw [← append_assoc,hs,append_assoc]
    exact congrArg _ hmr.symm

theorem Inv.leave (hcl : s.call p=some (f, pc)) (hb : Sound b)
    (hit : b.contents=(s.buf (.output p)).contents) (hall : callWrote pc=transferred pc) (n : ℕ) :
    Inv ((((s.setBuf (.output p) b).setCall p none).advance f n).record (.output p) (callWrote pc)) := by
  have hs := h.stream (.output p)
  rw [inFlight,hcl] at hs
  refine h.callMoved (c := none) (h.first hcl) rfl rfl ?_ ?_ rfl (fun _ _ hc=>nomatch hc) ?_ ?_ ?_
  · simp_all
  · simp_all
  · intro g
    have hg := h.offset g
    by_cases hgf : g=f
    · subst hgf
      simp only [SerialState.record_file,SerialState.advance_file,update_self,SerialState.setCall_file,
        SerialState.setBuf_file]
      omega
    · simpa [hgf] using hg
  · simpa using hb
  · simp_all

theorem Inv.writeOther (hb : Sound b) (hi : b.contents=(s.buf (.other n)).contents++src) :
    Inv ((s.setBuf (.other n) b).record (.other n) src) where
  sound id := by
    by_cases hid : id=.other n
    · simpa [hid] using hb
    · simpa [hid] using h.sound id
  stream id := by
    have hs := h.stream id
    by_cases hid : id=.other n
    · subst hid
      simp only [SerialState.record_buf,SerialState.setBuf_buf,update_self,hi,
        SerialState.record_wrote,SerialState.setBuf_wrote,inFlight,append_nil] at hs ⊢
      rw [← hs,append_assoc]
      rfl
    · simp only [SerialState.record_buf,SerialState.setBuf_buf,update_of_ne hid,
        SerialState.record_wrote,SerialState.setBuf_wrote]
      exact hs
  subscribed := h.subscribed
  sent := h.sent
  received := h.received
  offset := h.offset
  noInput q := by simpa using h.noInput q
  noSecond := by simpa using h.noSecond
  noSecondCall := h.noSecondCall
  call := h.call

theorem Inv.handle (hdr : Drained (s.port p).outputSubscribers data s {s' with sent := s.sent})
    (hsn : s'.sent=s.sent++data.map (fun d=>(p, d))) : Inv s' := by
  obtain ⟨hrs,hsd,hcn,hsb⟩ := hdr
  have hs' : s' = {s with buf := s'.buf, sent := s.sent++data.map (fun d=>(p, d))} := by
    rw [← hsn]
    simp only [SerialState.mk.injEq] at hrs
    obtain ⟨hpr,-,hfl,hcl,-,hwr⟩ := hrs
    rw [← hpr,← hfl,← hcl,← hwr]
  have hfr : ∀ id, sentFrom s' id=sentFrom s id++fromBuffer id data := fun id=>by simp [sentFrom,hsn]
  constructor
  · exact hsd
  · intro id
    rw [hfr,append_assoc]
    apply ((congrArg _ (hcn id).symm).trans (h.stream id)).trans
    rw [hs']
    rfl
  · rw [hs']
    exact h.subscribed
  · intro d hd
    rw [hsn,mem_append] at hd
    rw [hs']
    rcases hd with hd | hd
    · exact h.sent d hd
    · obtain ⟨c,hc,rfl⟩ := mem_map.mp hd
      exact hsb c hc
  · rw [hs']
    exact h.received
  · rw [hs']
    exact h.offset
  · rw [hs']
    exact h.noInput
  · rw [hs']
    exact h.noSecond
  · rw [hs']
    exact h.noSecondCall
  · rw [hs']
    exact h.call

theorem inv_step (hq : Quiet s e) (hst : SerialStep s e s') : Inv s' := by
  cases hst with
  | @beginWrite f src hfr _ =>
    have hs := h.stream (.output (s.file f).dev)
    rw [inFlight,hfr] at hs
    refine h.callMoved hq rfl rfl (fun _ _=>rfl) (fun _ _=>rfl) rfl ?_ h.offset (h.sound _) hs
    rintro g pc ⟨⟩
    trivial
  | emptyCall => exact h
  | readEof => exact h
  | @beginRead f num hfr hsz _ => exact absurd hsz (not_lt.mpr (h.offset f))
  | @pass p f pc pc' n b hcl hbd =>
    have hw := h.call p f pc hcl
    rw [callBuffer_of_isWrite hw] at hbd ⊢
    obtain ⟨hb,hmv⟩ := body_writeMove (h.sound _) hw hbd
    exact h.goOn hcl hb hmv
  | @wait p f pc pc' b hcl hbd =>
    have hw := h.call p f pc hcl
    rw [callBuffer_of_isWrite hw] at hbd ⊢
    obtain ⟨hb,hmv⟩ := body_writeMove (h.sound _) hw hbd
    exact h.goOn hcl hb hmv
  | @leave p f pc pc' n b hcl hbd =>
    have hw := h.call p f pc hcl
    rw [callBuffer_of_isWrite hw] at hbd ⊢
    obtain ⟨hb,hit,hall,-⟩ := body_writeMove (h.sound _) hw hbd
    exact h.leave hcl hb hit hall _
  | arrive => exact hq.elim
  | handle p brk empty hrun =>
    obtain ⟨data,hdr,hsn⟩ := (serialHandler_spec h.sound (h.received p) brk empty).of_ok hrun
    exact h.handle hdr hsn
  | @writeOther n k src b hwr =>
    obtain ⟨hb,hit⟩ := (ebTryWrite_spec (h.sound _) src).of_ok hwr
    exact h.writeOther hb hit

theorem Inv.returns_nil (hs : SerialStep s (.returns f r n) s') : r=[] := by
  cases hs with
  | emptyCall => rfl
  | readEof => rfl
  | @leave p f pc pc' n b hc hb =>
    have hw := h.call p f pc hc
    exact (body_writeMove (h.sound _) hw hb).2.2.2
end

end

section
variable {F : Type} {s t : SerialState F}

/-- The state before the devices are installed. Others may have subscribed buffers. -/
structure Fresh (s : SerialState F) : Prop where
  sound : ∀ n, Sound (s.buf (.other n))
  subscribed : ∀ p id, some id ∈ (s.port p).outputSubscribers → ∃ n, id=.other n
  received : ∀ p, (s.port p).received=[]
  offset : ∀ f, (s.file f).offset=0
  idle : ∀ p, s.call p=none
  sent : s.sent=[]
  wrote : ∀ n, s.wrote (.other n)=(s.buf (.other n)).contents
  unwritten : ∀ p, s.wrote (.input p)=[] ∧ s.wrote (.output p)=[]

structure Installed (p com : Port) (b : Buffer) (s t : SerialState F) : Prop where
  buf : t.buf=update (update s.buf (.input p) b) (.output p) b
  file : t.file=s.file
  call : t.call=s.call
  sent : t.sent=s.sent
  wrote : t.wrote=s.wrote
  received : ∀ q, (t.port q).received=(s.port q).received
  subscribed : ∀ q id, some id ∈ (t.port q).outputSubscribers →
    some id ∈ (s.port q).outputSubscribers ∨ q=com ∧ id=.output p

theorem subscribe_spec (subs : List (Option BufId)) (eb : BufId) (s : SerialState F) :
    Ensures (subscribe subs eb) s (fun subs' t=>t=s ∧ ∀ id, some id ∈ subs' → some id ∈ subs ∨ id=eb)
      (fun _=>True) := by
  rw [subscribe]
  split
  · rw [wp_pure]
    refine ⟨rfl,fun id hid=>?_⟩
    rcases mem_or_eq_of_mem_set hid with hmem | heq
    · exact .inl hmem
    · exact .inr (Option.some.inj heq)
  · exact (wp_abort ..).mpr True.intro

theorem installCdev_spec (p com : Port) (mem : Mem) (array : ℕ) (s : SerialState F) :
    Ensures (installCdev p com mem array) s
      (fun _ t=>Installed p com (ebCreate mem array 128 1 false) s t) (fun _=>True) := by
  simp only [installCdev,createBuffers,serialSubscribeInput,serialSubscribeOutput,setPort,wp_bind,
    wp_modify,wp_get]
  apply (subscribe_spec _ _ _).imp
  rintro subs _ ⟨rfl,-⟩
  apply (subscribe_spec _ _ _).imp
  rintro subs' _ ⟨rfl,hs⟩
  simp only [update_self] at hs
  refine ⟨rfl,rfl,rfl,rfl,rfl,?_,?_⟩
  · intro q
    by_cases hq : q=com
    · simp [hq]
    · simp [hq]
  · intro q id hid
    by_cases hq : q=com <;> simp_all

theorem inv_installed (h : Fresh s) (hb1 : Sound b1 ∧ b1.contents=[])
    (hb2 : Sound b2 ∧ b2.contents=[]) (h1 : Installed .com1 .com1 b1 s t) (h2 : Installed .com2 .com1 b2 t u) :
    Inv u := by
  have hbuf : ∀ id, Sound (u.buf id) ∧ (u.buf id).contents=u.wrote id := by
    intro id
    rw [h2.wrote,h1.wrote,h2.buf,h1.buf]
    match id with
    | .other n => exact ⟨h.sound n,(h.wrote n).symm⟩
    | .input .com1 => exact ⟨hb1.1,hb1.2.trans (h.unwritten .com1).1.symm⟩
    | .output .com1 => exact ⟨hb1.1,hb1.2.trans (h.unwritten .com1).2.symm⟩
    | .input .com2 => exact ⟨hb2.1,hb2.2.trans (h.unwritten .com2).1.symm⟩
    | .output .com2 => exact ⟨hb2.1,hb2.2.trans (h.unwritten .com2).2.symm⟩
  have hcl : ∀ p, u.call p=none := fun p=>by rw [h2.call,h1.call,h.idle]
  have hsn : u.sent=[] := by rw [h2.sent,h1.sent,h.sent]
  constructor
  · exact fun id=>(hbuf id).1
  · intro id
    have hnn : inFlight u id=[] := by
      cases id with
      | output p => rw [inFlight,hcl]; rfl
      | _ => rfl
    rw [sentFrom,hsn,(hbuf id).2,hnn,append_nil]
    rfl
  · intro p id hid
    rcases h2.subscribed p id hid with hid | ⟨-,hid⟩
    · rcases h1.subscribed p id hid with hid | ⟨hp,hid⟩
      · exact .inl (.inr (h.subscribed p id hid))
      · exact .inl (.inl (hp▸hid))
    · exact .inr hid
  · simp [hsn]
  · simp [h2.received,h1.received,h.received]
  · simp [h2.file,h1.file,h.offset]
  · intro p
    rw [h2.wrote,h1.wrote,(h.unwritten p).1]
  · rw [h2.wrote,h1.wrote,(h.unwritten .com2).2]
  · exact hcl .com2
  · simp_all

theorem ebCreate_sound (mem : Mem) (array : ℕ) :
    Sound (ebCreate mem array 128 1 false) ∧ (ebCreate mem array 128 1 false).contents=[] := by
  refine ⟨⟨array,128,fifo_ebCreate mem array 128 1⟩,?_⟩
  rw [Buffer.contents_eq_nil]
  exact le_rfl
end

section
variable {F : Type} [DecidableEq F]

/-- Without arrivals and writes to `/dev/com2`, what a port sends was written to its device or to
other buffers, in order. -/
theorem serial_routing {s₀ s₁ s₂ s : SerialState F} {mem₁ mem₂ : Mem} {array₁ array₂ : ℕ} (h₀ : Fresh s₀)
    (h₁ : installCom1Cdev mem₁ array₁ s₀=.ok () s₁) (h₂ : installCom2Cdev mem₂ array₂ s₁=.ok () s₂)
    (hrun : Relation.ReflTransGen (fun s t=>∃ e, Quiet s e ∧ SerialStep s e t) s₂ s) :
    (∀ d ∈ s.sent, some d.2.1 ∈ (s.port d.1).outputSubscribers ∧ (d.2.1=.output d.1 ∨ ∃ n, d.2.1=.other n)) ∧
    (∀ id, sentFrom s id++(s.buf id).contents=s.wrote id++inFlight s id) ∧
    (∀ p, (s.port p).received=[] ∧ (s.buf (.input p)).contents=[]) ∧
    (∀ f r n s', SerialStep s (.returns f r n) s' → r=[]) ∧
    ∀ p brk empty, ∃ s', serialHandler p brk empty s=.ok () s' := by
  have hinv : Inv s := by
    have hsr := inv_installed h₀ (ebCreate_sound mem₁ array₁) (ebCreate_sound mem₂ array₂)
      ((installCdev_spec ..).of_ok h₁) ((installCdev_spec ..).of_ok h₂)
    exact Reaches.invariant hrun hsr (fun _ _ h ⟨_,hq,hst⟩=>inv_step h hq hst)
  refine ⟨fun d hd=>⟨hinv.sent d hd,hinv.sent_own hd⟩,hinv.stream,
    fun p=>⟨hinv.received p,hinv.input_empty p⟩,fun f r n s' hst=>hinv.returns_nil hst,?_⟩
  intro p brk empty
  obtain ⟨_,s',hs',-⟩ := (serialHandler_spec hinv.sound (hinv.received p) brk empty).exists_ok
  exact ⟨s',hs'⟩

theorem quiet_tail {e : SerialEvent F}
    (h : Relation.ReflTransGen (fun s t=>∃ e, Quiet s e ∧ SerialStep s e t) s t) (hs : SerialStep t e u)
    (hq : Quiet t e) : Relation.ReflTransGen (fun s t=>∃ e, Quiet s e ∧ SerialStep s e t) s u :=
  h.tail ⟨e,hq,hs⟩

/-- Nobody has subscribed before the devices are installed. The file `true` is `/dev/com1`. -/
def powerOn : SerialState Bool where
  port := fun _=>⟨List.replicate maxSubscribers none,List.replicate maxSubscribers none,[]⟩
  buf := fun _=>ebCreate (fun _=>0) 0x1000 128 1 false
  file := fun f=>⟨if f then .com1 else .com2,0⟩
  call := fun _=>none
  sent := []
  wrote := fun _=>[]

theorem powerOn_fresh : Fresh powerOn where
  sound _ := (ebCreate_sound _ _).1
  subscribed p id hid := by
    have hn := eq_of_mem_replicate hid
    cases hn
  received _ := rfl
  offset _ := rfl
  idle _ := rfl
  sent := rfl
  wrote _ := (ebCreate_sound _ _).2.symm
  unwritten _ := ⟨rfl,rfl⟩

def firstInstalled : SerialState Bool := finalState (installCom1Cdev (fun _=>0) 0x1000) powerOn

def bothInstalled : SerialState Bool := finalState (installCom2Cdev (fun _=>0) 0x2000) firstInstalled

theorem installCom1Cdev_powerOn : installCom1Cdev (fun _=>0) 0x1000 powerOn=.ok () firstInstalled := rfl

theorem installCom2Cdev_powerOn : installCom2Cdev (fun _=>0) 0x2000 firstInstalled=.ok () bothInstalled := rfl

/-- A byte is written to `/dev/com1` and the first port sends it. -/
theorem serial_routing_oneByte : ∃ s : SerialState Bool,
    Relation.ReflTransGen (fun s t=>∃ e, Quiet s e ∧ SerialStep s e t) bothInstalled s ∧
    s.sent=[(.com1, .output .com1, 0x41)] ∧
    ∀ id, sentFrom s id++(s.buf id).contents=s.wrote id++inFlight s id := by
  have h₁ := SerialStep.beginWrite (s := bothInstalled) (f := true) rfl (cons_ne_nil (0x41 : UInt8) [])
  have r₁ := quiet_tail .refl h₁ (fun h=>nomatch h)
  have r₂ := quiet_tail r₁ (.pass (p := .com1) rfl rfl) trivial
  have r₃ := quiet_tail r₂ (.pass (p := .com1) rfl rfl) trivial
  have r₄ := quiet_tail r₃ (.leave (p := .com1) rfl rfl) trivial
  have r₅ := quiet_tail r₄ (.handle .com1 false true rfl) trivial
  exact ⟨_,r₅,rfl,(serial_routing powerOn_fresh installCom1Cdev_powerOn installCom2Cdev_powerOn r₅).2.1⟩

/-- A byte has arrived at the first port. -/
def withByte : SerialState Bool :=
  {bothInstalled with
    port := update bothInstalled.port .com1 {bothInstalled.port .com1 with received := [0x42]}}

/-- `/dev/com2` writes to the first port, which sends back what it receives; no read gets it. -/
theorem serial_misrouted : Fresh powerOn ∧ installCom1Cdev (fun _=>0) 0x1000 powerOn=.ok () firstInstalled ∧
    installCom2Cdev (fun _=>0) 0x2000 firstInstalled=.ok () bothInstalled ∧
    (∃ s, Relation.ReflTransGen (fun s t=>∃ e, SerialStep s e t) bothInstalled s ∧
      s.sent=[(.com1, .output .com2, 0x41)]) ∧
    ∃ s₁ s, SerialStep bothInstalled (.arrive .com1 0x42) s₁ ∧ SerialStep s₁ (.handle .com1) s ∧
      s.sent=[(.com1, .output .com1, 0x42), (.com1, .output .com2, 0x42)] ∧
      (∀ id, s.wrote id=[]) ∧ (∀ p, (s.buf (.input p)).contents=[]) ∧
      (∀ f num s', ¬ SerialStep s (.beginRead f num) s') ∧
      ∀ f r n s', SerialStep s (.returns f r n) s' → r=[] := by
  refine ⟨powerOn_fresh,rfl,rfl,?_,?_⟩
  · have h₁ := SerialStep.beginWrite (s := bothInstalled) (f := false) rfl (cons_ne_nil (0x41 : UInt8) [])
    have r₁ := Relation.ReflTransGen.single (r := fun s t=>∃ e, SerialStep s e t) ⟨_,h₁⟩
    have r₂ := r₁.tail ⟨_,.pass (p := .com2) rfl rfl⟩
    have r₃ := r₂.tail ⟨_,.pass (p := .com2) rfl rfl⟩
    have r₄ := r₃.tail ⟨_,.leave (p := .com2) rfl rfl⟩
    have r₅ := r₄.tail ⟨_,.handle .com1 false true rfl⟩
    exact ⟨_,r₅,rfl⟩
  · have hcl : (finalState (serialHandler .com1 false true) withByte).call=withByte.call := rfl
    have hf : (finalState (serialHandler .com1 false true) withByte).file=withByte.file := rfl
    refine ⟨withByte,finalState (serialHandler .com1 false true) withByte,.arrive,
      .handle .com1 false true rfl,by decide +kernel,fun _=>rfl,?_,?_,?_⟩
    · rintro (_ | _) <;> decide +kernel
    · intro f num s' hs
      cases hs with
      | beginRead _ hsz _ =>
        rw [hf] at hsz
        exact absurd hsz (lt_irrefl 0)
    · intro f r n s' hs
      cases hs with
      | emptyCall => rfl
      | readEof => rfl
      | leave hc _ =>
        rw [hcl] at hc
        cases hc
end

end Yaos2.Serial
