import Yaos2.Libc.Stream

/-! # System calls and their results in the C library

A byte of a buffer is kept with its place in the data of the `fwrite` under way, so that the calls tell what
became of it. -/
namespace Yaos2.Libc.Unistd
open Foundation List Nat

/-- What the kernel answers: an error code, or an address or a count. -/
inductive Answer
  | error (e : ℕ)
  | value (v : ℕ)

/-- The answer as an `int`. -/
def Answer.int : Answer → ℤ
  | .error e => -e
  | .value v => asInt v

abbrev Cell := UInt8 × Option ℕ

inductive Syscall
  | wait (status : ℕ)
  | fork
  | getpid
  | brk (ptr : ℕ)
  | sbrk (increment : ℤ)
  | open (path : ℕ) (flags : ℤ)
  | close (fd : ℤ)
  | read (fd : ℤ) (buf count : ℕ)
  | write (fd : ℤ) (data : List Cell)
  | lseek (fd offset whence : ℤ)

/-- The bytes that are to be transferred. -/
def Syscall.count : Syscall → Option ℕ
  | .read _ _ count => some count
  | .write _ data => some data.length
  | _ => none

abbrev Log := List (Syscall × Answer)

/-- Codes are positive, addresses are below the kernel's base, and counts are at most what was asked for. -/
structure Kernel where
  answer : Log → Syscall → Answer
  error : ∀ log c e, answer log c=.error e → 0<e ∧ e<2^31
  value : ∀ log c v, answer log c=.value v → v<0xC0000000
  count : ∀ log c n v, c.count=some n → answer log c=.value v → v≤n ∧ v<2^31

/-- The stream a function is called on, `errno`, and the system calls so far. -/
structure Lib where
  fd : ℤ
  bufMode : BufMode
  bufSize : ℕ
  pending : List Cell
  errno : ℤ
  log : Log

variable (K : Kernel)

def syscall (c : Syscall) : Exec Lib ℤ := do
  let s ← get
  set {s with log := s.log++[(c,K.answer s.log c)]}
  return (K.answer s.log c).int

def setErrnoAndConvert (ret : ℤ) : Exec Lib ℤ := do
  if ret<0 then
    modify (fun s=>{s with errno := -ret})
    return -1
  else
    return ret

/-- The functions of `unistd.c`; they differ in the system call. -/
def call (c : Syscall) : Exec Lib ℤ := do
  let ret ← syscall K c
  setErrnoAndConvert ret

/-- What `stdio` does with a failed call: `errno` is set from what the function returned. -/
def checked {β : Type} (c : Syscall) (failed : β) (ok : ℤ → Exec Lib β) : Exec Lib β := do
  let ret ← call K c
  if ret<0 then
    modify (fun s=>{s with errno := -ret})
    return failed
  else
    ok ret

def seekCur : ℤ := 2

/-- `fopen`, with the two allocations succeeding. Tells whether there is a stream. -/
def fopen (path : ℕ) : Exec Lib Bool := do
  let fd ← call K (.open path 0)
  if fd<0 then
    return false
  else
    modify (fun s=>{s with fd := fd, bufMode := .newline, bufSize := 128, pending := []})
    return true

def fclose : Exec Lib ℤ := do
  checked K (.close (← get).fd) eof (fun _=>pure 0)

def fseek (offset origin : ℤ) : Exec Lib ℤ := do
  checked K (.lseek (← get).fd offset origin) (-1) (fun _=>pure 0)

def ftell : Exec Lib ℤ := do
  checked K (.lseek (← get).fd 0 seekCur) (-1) pure

def fread (ptr size nmemb : ℕ) : Exec Lib ℕ := do
  if size=0 ∨ nmemb=0 then
    return 0
  else
    checked K (.read (← get).fd ptr (size*nmemb%2^32)) 0 (fun _=>pure (size*nmemb%2^32))

def flushBuffer : Exec Lib Bool := do
  let s ← get
  checked K (.write s.fd s.pending) false (fun _=>do
    modify (fun s=>{s with pending := []})
    return true)

def fflush : Exec Lib ℤ := do
  return if ← flushBuffer K then 0 else eof

def flushIf (loc : Bool) : Exec Lib Bool := do
  let s ← get
  if loc || s.pending.length == s.bufSize then flushBuffer K else return true

/-- The loops of `fwrite_newline` and `fwrite_overflow`; `locate` tells where in a batch to stop. -/
def copyLoop (locate : List Cell → Option ℕ) : ℕ → Bool → List Cell → Exec Lib Bool
  | 0, _, _ => abort "endless loop"
  | fuel+1, loc, rest => do
    let flushed ← flushIf K loc
    if !flushed then
      return false
    else if rest.length=0 then
      return true
    else
      let s ← get
      let room := min rest.length (s.bufSize-s.pending.length)
      let stop := locate (rest.take room)
      let batch := batchSize stop room
      modify (fun s=>{s with pending := s.pending++rest.take batch})
      copyLoop locate fuel stop.isSome (rest.drop batch)

def locateNewline (batch : List Cell) : Option ℕ := memchr (batch.map Prod.fst) newlineChar

/-- `fwrite_newline` and `fwrite_overflow` -/
def fwriteBuffered (locate : List Cell → Option ℕ) (data : List Cell) (nmemb : ℕ) : Exec Lib ℕ := do
  let done ← copyLoop K locate (data.length+1) false data
  return if done then data.length/nmemb else 0

def fwriteFlush (data : List Cell) (size : ℕ) : Exec Lib ℕ := do
  checked K (.write (← get).fd data) 0 (fun ret=>pure (ret.toNat/size))

/-- The bytes of `ptr` with their places. -/
def cells (ptr : List UInt8) : List Cell := ptr.zipIdx.map (fun b=>(b.1,some b.2))

def fwrite (ptr : List UInt8) (size nmemb : ℕ) : Exec Lib ℕ := do
  if size=0 ∨ nmemb=0 then
    return 0
  else
    let data := cells (ptr.take (size*nmemb%2^32))
    match (← get).bufMode with
    | .flush => fwriteFlush K data size
    | .newline => fwriteBuffered K locateNewline data nmemb
    | .overflow => fwriteBuffered K (fun _=>none) data nmemb

variable {K} {s t : Lib} {β : Type}

section

theorem int_value (h : v<2^31) : (Answer.value v).int=v := by
  rw [Answer.int,asInt,mod_eq_of_lt (by omega),if_pos h]

theorem int_value_neg (h : 2^31≤v) (h' : v<2^32) : (Answer.value v).int<0 := by
  rw [Answer.int,asInt,mod_eq_of_lt h',if_neg (by omega)]
  omega

def logged (K : Kernel) (s : Lib) (c : Syscall) : Lib := {s with log := s.log++[(c,K.answer s.log c)]}

theorem wp_call (c : Syscall) (s : Lib) (Q : ℤ → Lib → Prop) (E : Lib → Prop) :
    Ensures (call K c) s Q E ↔ if (K.answer s.log c).int<0 then
      Q (-1) {logged K s c with errno := -(K.answer s.log c).int} else Q (K.answer s.log c).int (logged K s c) := by
  simp only [call,syscall,setErrnoAndConvert,wp_bind,wp_get,wp_set,wp_pure]
  split
  · simp only [wp_bind,wp_modify,wp_pure]
    rfl
  · rw [wp_pure]
    rfl

theorem wp_checked (c : Syscall) (failed : β) (ok : ℤ → Exec Lib β) (s : Lib) (Q : β → Lib → Prop)
    (E : Lib → Prop) : Ensures (checked K c failed ok) s Q E ↔ if (K.answer s.log c).int<0 then
      Q failed {logged K s c with errno := 1} else Ensures (ok (K.answer s.log c).int) (logged K s c) Q E := by
  rw [checked,wp_bind,wp_call]
  split
  · simp
  · rfl

/-- The last system call has failed with this code. -/
def Fails (s t : Lib) (e : ℕ) : Prop := ∃ calls c, t.log=s.log++calls++[(c,.error e)]

/-- A failure is reported, with its code only if that is 1. -/
def Reports (failed : β) (s : Lib) (ret : β) (t : Lib) : Prop :=
  ∀ e, Fails s t e → ret=failed ∧ (t.errno=e ↔ e=1)

theorem Kernel.int_neg {log : Log} (h : K.answer log c=.error e) : (K.answer log c).int<0 := by
  have hpos := (K.error _ _ _ h).1
  rw [h,Answer.int]
  omega

theorem fails_logged (ht : t.log=(logged K s c).log) (h : Fails s t e) : K.answer s.log c=.error e := by
  obtain ⟨calls,c',hlog⟩ := h
  rw [ht] at hlog
  obtain ⟨-,hl⟩ := append_inj' hlog rfl
  exact (Prod.mk.inj (head_eq_of_cons_eq hl)).2

theorem one_eq_iff (e : ℕ) : (1 : ℤ)=e ↔ e=1 := by omega

theorem checked_reports (hok : ∀ ret s, Returns (ok ret) s (fun _ t=>t.log=s.log)) :
    Returns (checked K c failed ok) s (Reports failed s) := by
  rw [Returns,wp_checked]
  split
  · exact fun e _=>⟨rfl,one_eq_iff e⟩
  · next hpos => exact (hok _ _).imp fun _ _ ht e he=>absurd (K.int_neg (fails_logged ht he)) hpos
end

section

structure Lib.WellFormed (s : Lib) : Prop where
  positive : 1 ≤ s.bufSize
  small : s.bufSize<2^31
  room : s.pending.length ≤ s.bufSize
  old : ∀ b ∈ s.pending, b.2=none

def setPending (s : Lib) (cs : List Cell) : Lib := {s with pending := cs}

theorem wp_flushBuffer (s : Lib) (Q : Bool → Lib → Prop) (E : Lib → Prop) :
    Ensures (flushBuffer K) s Q E ↔ if (K.answer s.log (.write s.fd s.pending)).int<0 then
      Q false {logged K s (.write s.fd s.pending) with errno := 1} else
      Q true (setPending (logged K s (.write s.fd s.pending)) []) := by
  rw [flushBuffer,wp_bind,wp_get,wp_checked]
  simp only [wp_bind,wp_modify,wp_pure]
  rfl

theorem copyLoop_rule {I : Bool → List Cell → Lib → Prop} {E : Lib → Prop}
    (hlocate : ∀ batch i, locate batch=some i → i<batch.length)
    (hfl : ∀ loc rest s, I loc rest s → (loc || s.pending.length == s.bufSize)=true →
      Returns (flushBuffer K) s (fun ok t=>if ok=true then I false rest t else E t))
    (hcp : ∀ rest s, I false rest s → rest≠[] → s.pending.length<s.bufSize →
      ∀ room, room=min rest.length (s.bufSize-s.pending.length) →
      ∀ k, k=batchSize (locate (rest.take room)) room → 0<k → k≤room →
      I (locate (rest.take room)).isSome (rest.drop k) (setPending s (s.pending++rest.take k)))
    (hpos : 1 ≤ s.bufSize) (hrm : s.pending.length ≤ s.bufSize) (hI : I loc rest s)
    (hfu : rest.length<fuel) :
    Returns (copyLoop K locate fuel loc rest) s (fun ok t=>if ok=true then
      I false [] t ∧ t.pending.length<t.bufSize else E t) := by
  induction fuel generalizing s loc rest with
  | zero => exact absurd hfu (not_lt_zero _)
  | succ fuel ih =>
    -- before a batch is copied, no flush is due
    have hrd : Returns (flushIf K loc) s (fun ok t=>if ok=true then I false rest t ∧
        1≤t.bufSize ∧ t.pending.length<t.bufSize else E t) := by
      rw [flushIf,Returns,wp_bind,wp_get]
      refine Ensures.ite (fun h=>?_) (fun h=>?_)
      · have hinv := hfl loc rest s hI h
        rw [Returns,wp_flushBuffer] at hinv
        rw [wp_flushBuffer]
        split at hinv
        · next hneg => rwa [if_pos hneg]
        · next hneg => rw [if_neg hneg]; exact ⟨hinv,hpos,hpos⟩
      · rw [Bool.not_eq_true,Bool.or_eq_false_iff,beq_eq_false_iff_ne] at h
        rw [wp_pure]
        exact ⟨h.1▸hI,hpos,lt_of_le_of_ne hrm h.2⟩
    rw [copyLoop,Returns,wp_bind]
    apply hrd.imp
    rintro (_ | _) t ht
    · exact (wp_pure ..).mpr ht
    · obtain ⟨hI,hpos,hlt⟩ := ht
      rw [if_neg (by decide)]
      refine Ensures.ite (fun h0=>?_) (fun h0=>?_)
      · rw [wp_pure]
        exact ⟨length_eq_zero_iff.mp h0▸hI,hlt⟩
      · rw [wp_bind,wp_get,wp_bind,wp_modify]
        have hmin : min rest.length (t.bufSize-t.pending.length)≤rest.length := min_le_left ..
        obtain ⟨hk,hk'⟩ := batchSize_bounds hlocate hmin (by rw [length_eq_zero_iff] at h0; have := length_pos_iff.mpr h0; omega)
        have hnx := hcp rest t hI (fun h=>h0 (by rw [h,length_nil])) hlt _ rfl _ rfl hk hk'
        refine ih hpos ?_ hnx ?_
        · change (_++take _ rest).length≤t.bufSize
          rw [length_append,length_take]
          omega
        · rw [length_drop]
          omega

end
section

/-- No system call since has failed. -/
def Quiet (s t : Lib) : Prop := ∃ calls, t.log=s.log++calls ∧ ∀ a ∈ calls, ∀ e, a.2≠.error e

theorem Quiet.refl (s : Lib) : Quiet s s := ⟨[],(append_nil _).symm,by simp⟩

theorem Quiet.not_fails (h : Quiet s t) : ¬ Fails s t e := by
  obtain ⟨calls,hlog,hall⟩ := h
  rintro ⟨calls',c,hlog'⟩
  rw [hlog,append_assoc] at hlog'
  exact hall (c,.error e) (by rw [append_cancel_left hlog']; simp) e rfl

theorem Quiet.logged (h : Quiet s t) (hc : ¬ (K.answer t.log c).int<0)
    (hu : u.log=(logged K t c).log) : Quiet s u := by
  obtain ⟨calls,hlog,hall⟩ := h
  refine ⟨calls++[(c,K.answer t.log c)],?_,fun a ha e=>?_⟩
  · rw [hu,Unistd.logged,hlog,append_assoc]
  · rcases mem_append.mp ha with ha | ha
    · exact hall a ha e
    · obtain rfl := mem_singleton.mp ha
      exact fun he=>hc (K.int_neg he)

theorem memchr_map_lt (batch : List Cell) (i : ℕ) (h : locateNewline batch=some i) : i<batch.length := by
  have hlt := memchr_lt h
  rwa [length_map] at hlt

theorem fwriteBuffered_reports (nmemb : ℕ)
    (hlocate : ∀ batch i, locate batch=some i → i<batch.length) (h : s.WellFormed) :
    Returns (fwriteBuffered K locate data nmemb) s (Reports 0 s) := by
  rw [fwriteBuffered,Returns,wp_bind]
  refine (copyLoop_rule (I := fun _ _ t=>Quiet s t) (E := fun t=>t.errno=1) hlocate ?_
    (fun _ _ h _ _ _ _ _ _ _ _=>h) h.positive h.room (.refl s) (lt_succ_self _)).imp ?_
  · intro _ _ u hu _
    rw [Returns,wp_flushBuffer]
    split
    · exact rfl
    · next hneg => exact hu.logged hneg rfl
  · rintro (_ | _) t ht <;> rw [wp_pure]
    · intro e _
      exact ⟨rfl,by rw [show t.errno=1 from ht]; exact one_eq_iff e⟩
    · exact fun e he=>absurd he ht.1.not_fails

theorem call_reports_iff (c : Syscall) : Returns (call K c) s (fun ret t =>
    (∀ e, K.answer s.log c=.error e → ret = -1 ∧ t.errno=e) ∧
      ∀ v : ℕ, K.answer s.log c=.value v → ret=v) ↔ ∀ v, K.answer s.log c=.value v → v<2^31 := by
  rw [Returns,wp_call]
  cases ha : K.answer s.log c with
  | error e =>
    rw [if_pos (ha▸K.int_neg ha)]
    exact iff_of_true ⟨by rintro _ ⟨⟩; exact ⟨rfl,Int.neg_neg _⟩,by simp⟩ (by simp)
  | value v =>
    by_cases hv : v<2^31
    · rw [int_value hv,if_neg (by omega)]
      exact iff_of_true ⟨by simp,by rintro _ ⟨⟩; rfl⟩ (by rintro _ ⟨⟩; exact hv)
    · have hlt := K.value _ _ _ ha
      rw [if_pos (int_value_neg (by omega) (by omega))]
      refine iff_of_false (fun h=>?_) (fun h=>hv (h v rfl))
      have hret := h.2 v rfl
      omega

/-- The functions of `unistd.c` report what the kernel did iff it answered with no address above 2 GiB. Those of
`stdio` report their failure, with the kernel's code iff that is 1, but for `fopen`. -/
theorem errors_reported_iff (K : Kernel) (h : s.WellFormed) :
    (∀ c, Returns (call K c) s (fun ret t=>(∀ e, K.answer s.log c=.error e → ret = -1 ∧ t.errno=e) ∧
        ∀ v : ℕ, K.answer s.log c=.value v → ret=v) ↔ ∀ v, K.answer s.log c=.value v → v<2^31) ∧
    (∀ path, Returns (fopen K path) s (fun f t=>∀ e, Fails s t e → f=false ∧ t.errno=e)) ∧
    Returns (fclose K) s (Reports eof s) ∧ (∀ offset origin, Returns (fseek K offset origin) s (Reports (-1) s)) ∧
    Returns (ftell K) s (Reports (-1) s) ∧ (∀ ptr size nmemb, Returns (fread K ptr size nmemb) s (Reports 0 s)) ∧
    (∀ ptr size nmemb, Returns (fwrite K ptr size nmemb) s (Reports 0 s)) ∧
    Returns (fflush K) s (Reports eof s) := by
  refine ⟨fun c=>?_,fun path=>?_,?_,fun _ _=>?_,?_,fun _ _ _=>?_,fun ptr size nmemb=>?_,?_⟩
  · exact call_reports_iff c
  · rw [fopen,Returns,wp_bind,wp_call]
    split
    · rw [if_pos (by decide),wp_pure]
      intro e he
      have ha := fails_logged (c := .open path 0) (by rfl) he
      exact ⟨rfl,by simp only [ha,Answer.int,Int.neg_neg]⟩
    · next hpos =>
      rw [wp_bind,wp_modify,wp_pure]
      exact fun e he=>absurd (K.int_neg (fails_logged (by rfl) he)) hpos
  · rw [fclose,Returns,wp_bind,wp_get]
    exact checked_reports fun _ _=>(wp_pure ..).mpr rfl
  · rw [fseek,Returns,wp_bind,wp_get]
    exact checked_reports fun _ _=>(wp_pure ..).mpr rfl
  · rw [ftell,Returns,wp_bind,wp_get]
    exact checked_reports fun _ _=>(wp_pure ..).mpr rfl
  · rw [fread,Returns]
    refine Ensures.ite (fun _=>?_) (fun _=>?_)
    · exact (wp_pure ..).mpr fun e he=>absurd he (Quiet.refl s).not_fails
    · rw [wp_bind,wp_get]
      exact checked_reports fun _ _=>(wp_pure ..).mpr rfl
  · rw [fwrite,Returns]
    refine Ensures.ite (fun _=>?_) (fun _=>?_)
    · exact (wp_pure ..).mpr fun e he=>absurd he (Quiet.refl s).not_fails
    · rw [wp_bind,wp_get]
      cases s.bufMode with
      | flush =>
        simpa [fwriteFlush,wp_bind,wp_get] using checked_reports fun _ _=>(wp_pure ..).mpr rfl
      | newline => exact fwriteBuffered_reports nmemb memchr_map_lt h
      | overflow => exact fwriteBuffered_reports nmemb (by simp) h
  · rw [fflush,Returns,wp_bind,wp_flushBuffer]
    split <;> rw [wp_pure] <;> intro e he
    · exact ⟨rfl,one_eq_iff e⟩
    · next hpos => exact absurd (K.int_neg (fails_logged (by rfl) he)) hpos

def noMemory : Kernel where
  answer _ _ := .error 100
  error := by rintro _ _ _ ⟨⟩; decide
  value := nofun
  count := nofun

/-- A kernel without errors. -/
def Kernel.ofValue (f : Syscall → ℕ) (hf : ∀ c, f c<0xC0000000)
    (hcount : ∀ c n, c.count=some n → f c≤n ∧ f c<2^31) : Kernel where
  answer _ c := .value (f c)
  error := nofun
  value := by rintro _ c _ ⟨⟩; exact hf c
  count := by rintro _ c n _ h ⟨⟩; exact hcount c n h

/-- No byte is transferred, and all else is answered with an address above 2 GiB. -/
def idle : Kernel := .ofValue (fun c=>if c.count=none then 0x90000000 else 0) (fun c=>by split <;> decide)
  (fun c n h=>by rw [if_neg (by simp [h])]; exact ⟨zero_le _,by decide⟩)

/-- All bytes are transferred. -/
def ready : Kernel := .ofValue (fun c=>min (c.count.getD 0) (2^31-1)) (fun c=>by omega)
  (fun c n h=>by rw [h,Option.getD_some]; omega)

/-- A stream as `fopen` leaves it. -/
def opened : Lib := ⟨3,.newline,128,[],0,[]⟩

theorem opened_wellFormed : opened.WellFormed := ⟨by decide,by decide,by decide,by simp [opened]⟩

theorem errors_reported_iff_opened : opened.WellFormed ∧
    Returns (fclose noMemory) opened (Reports eof opened) :=
  ⟨opened_wellFormed,(errors_reported_iff noMemory opened_wellFormed).2.2.1⟩

/-- `close` fails with code 100 and `errno` is 1; a break above 2 GiB is taken for an error. -/
theorem errors_misreported : (∃ t, fclose noMemory opened=.ok eof t ∧ Fails opened t 100 ∧ t.errno=1) ∧
    ∃ t, call idle (.sbrk 0) opened=.ok (-1) t :=
  ⟨⟨_,rfl,⟨[],_,rfl⟩,rfl⟩,⟨_,rfl⟩⟩
end

section

variable {ptr : List UInt8} {cs : List Cell} {size nmemb : ℕ}

def accepted : Log → List Cell := flatMap fun
  | (.write _ data,.value v) => data.take v
  | _ => []

/-- The bytes that have been accepted since, or are in the buffer. -/
def kept (s t : Lib) : List Cell := accepted (t.log.drop s.log.length)++t.pending

/-- The number of complete items. -/
def items (cs : List Cell) (size nmemb : ℕ) : ℕ :=
  ((range nmemb).filter (fun k=>∀ i<size, some (k*size+i) ∈ cs.map Prod.snd)).length

/-- The data stays in the buffer. -/
def Stays (s : Lib) (ptr : List UInt8) : Prop :=
  (if s.pending.length=s.bufSize then 0 else s.pending.length)+ptr.length<s.bufSize ∧
    (s.bufMode=.newline → newlineChar ∉ ptr)

theorem items_eq (hm : m≤nmemb)
    (h : ∀ k<nmemb, (∀ i<size, some (k*size+i) ∈ cs.map Prod.snd) ↔ k < m) : items cs size nmemb=m := by
  obtain ⟨n,rfl⟩ := Nat.exists_eq_add_of_le hm
  rw [items,range_add,filter_append,filter_eq_self.mpr,filter_eq_nil_iff.mpr,append_nil,length_range]
  · intro k hk
    obtain ⟨i,hi,rfl⟩ := mem_map.mp hk
    have hi := mem_range.mp hi
    rw [decide_eq_true_iff,h _ (by omega)]
    omega
  · intro k hk
    have hk := mem_range.mp hk
    exact decide_eq_true ((h k (by omega)).mpr hk)

theorem items_all (h : ∀ i<size*nmemb, some i ∈ cs.map Prod.snd) : items cs size nmemb=nmemb := by
  refine items_eq le_rfl fun k hk=>iff_of_true (fun i hi=>h _ ?_) hk
  have hlt : (k+1)*size≤nmemb*size := Nat.mul_le_mul_right _ hk
  rw [Nat.add_mul,Nat.mul_comm nmemb] at hlt
  omega

theorem items_none (hsize : 1 ≤ size) (h : ∀ b ∈ cs, b.2=none) : items cs size nmemb=0 := by
  refine items_eq (zero_le _) fun k _=>iff_of_false (fun hall=>?_) (not_lt_zero _)
  obtain ⟨b,hb,hs⟩ := mem_map.mp (hall 0 hsize)
  rw [h b hb] at hs
  cases hs

theorem items_ne (hn : 1≤nmemb) (hsize : 1 ≤ size)
    (h : some 0 ∉ cs.map Prod.snd) : items cs size nmemb≠nmemb := by
  intro hall
  have hlen := hall.trans length_range.symm
  have hf := of_decide_eq_true (length_filter_eq_length_iff.mp hlen 0 (mem_range.mpr hn))
  exact h (by simpa using hf 0 hsize)

theorem map_cells (ptr : List UInt8) : (cells ptr).map Prod.snd=(range ptr.length).map some := by
  rw [cells,map_map,range_eq_range',← zipIdx_map_snd,map_map]
  rfl

theorem length_cells (ptr : List UInt8) : (cells ptr).length=ptr.length := by simp [cells]

theorem cells_ne_nil (hlen : ptr.length=size*nmemb) (hsize : 1 ≤ size) (hn : 1≤nmemb) : []≠cells ptr := by
  intro h
  have hpos := Nat.mul_pos hsize hn
  have hz := congrArg length h
  rw [length_cells,length_nil] at hz
  omega

theorem mem_map_snd (h : ∀ x ∈ cells ptr, x ∈ cs) (hi : i<ptr.length) : some i ∈ cs.map Prod.snd := by
  have hi' : some i ∈ (cells ptr).map Prod.snd := by simp_all [map_cells]
  obtain ⟨x,hx,hxi⟩ := mem_map.mp hi'
  exact hxi▸mem_map_of_mem (h x hx)

theorem locateNewline_cells : locateNewline (cells ptr)=none ↔ newlineChar ∉ ptr := by
  have hfst : (cells ptr).map Prod.fst=ptr := by
    rw [cells,map_map]
    exact zipIdx_map_fst ..
  rw [locateNewline,hfst]
  exact ⟨memchr_eq_none,fun h=>List.findIdx?_eq_none_iff.mpr fun c hc=>beq_eq_false_iff_ne.mpr fun he=>h (he▸hc)⟩

theorem kept_eq (calls : Log) (h : t.log=s.log++calls) : kept s t=accepted calls++t.pending := by
  rw [kept,h,drop_left]

theorem fwriteFlush_items (h : s.WellFormed) (hsize : 1 ≤ size) (hlen : ptr.length=size*nmemb) :
    Returns (fwriteFlush K (cells ptr) size) s (fun n t=>n=items (kept s t) size nmemb) := by
  rw [fwriteFlush,Returns,wp_bind,wp_get,wp_checked]
  cases ha : K.answer s.log (.write s.fd (cells ptr)) with
  | error e =>
    rw [if_pos (ha▸K.int_neg ha),kept_eq [(_,.error e)] (by rw [logged,ha])]
    exact (items_none hsize (by simpa [accepted,logged] using h.old)).symm
  | value v =>
    obtain ⟨hle,hlt⟩ := K.count _ _ _ _ rfl ha
    rw [length_cells,hlen] at hle
    rw [int_value hlt,if_neg (by omega),wp_pure,kept_eq [(_,.value v)] (by rw [logged,ha]), Int.toNat_natCast]
    refine (items_eq (Nat.div_le_of_le_mul hle) fun k _=>?_).symm
    have hmem : ∀ j, some j ∈ (accepted [(.write s.fd (cells ptr),.value v)]++s.pending).map Prod.snd ↔
        j<v := by
      intro j
      have hold : some j ∉ s.pending.map Prod.snd := fun hj=>by
        obtain ⟨b,hb,hsm⟩ := mem_map.mp hj
        rw [h.old b hb] at hsm
        cases hsm
      have hacc : accepted [(.write s.fd (cells ptr),.value v)]=(cells ptr).take v := append_nil _
      rw [map_append,mem_append,or_iff_left hold,hacc,map_take,map_cells,← map_take,take_range,
        min_eq_left (by omega)]
      simp
    rw [Nat.lt_iff_add_one_le,Nat.le_div_iff_mul_le hsize,Nat.add_mul,Nat.one_mul]
    refine ⟨fun hall=>?_,fun hle' i hi=>(hmem _).mpr (by omega)⟩
    have hls := (hmem _).mp (hall (size-1) (by omega))
    omega

section
variable {locate : List Cell → Option ℕ} (hlocate : ∀ batch i, locate batch=some i → i<batch.length)
  (h : s.WellFormed) (hlen : ptr.length=size*nmemb) (hn : 1≤nmemb)
include hlocate h hlen hn
theorem fwriteBuffered_ready : Returns (fwriteBuffered ready locate (cells ptr) nmemb) s (fun n t=>n=size ∧
    items (kept s t) size nmemb=nmemb) := by
  rw [fwriteBuffered,Returns,wp_bind]
  refine (copyLoop_rule (E := fun _=>False) (I := fun _ rest t=>t.bufSize=s.bufSize ∧
    t.pending.length≤t.bufSize ∧ ∃ calls, t.log=s.log++calls ∧
      s.pending++cells ptr=accepted calls++t.pending++rest) hlocate ?_ ?_ h.positive h.room
    ⟨rfl,h.room,[],(append_nil _).symm,rfl⟩ (lt_succ_self _)).imp ?_
  · rintro _ rest u ⟨hbuf,hrm,calls,hlog,hall⟩ _
    have hsm := h.small
    have hfl : ready.answer u.log (.write u.fd u.pending)=.value u.pending.length :=
      congrArg Answer.value (min_eq_left (by change u.pending.length≤_; omega))
    rw [Returns,wp_flushBuffer,hfl,int_value (by omega),if_neg (by omega)]
    refine ⟨hbuf,zero_le _,calls++[(.write u.fd u.pending,.value u.pending.length)],?_,?_⟩
    · rw [setPending,logged,hfl,hlog,append_assoc]
    · simp [hall,accepted,setPending]
  · rintro rest u ⟨hbuf,hrm,calls,hlog,hall⟩ _ hlt room hrm' k _ _ hk
    refine ⟨hbuf,?_,calls,hlog,by rw [hall]; simp [setPending]⟩
    change (_++take _ rest).length≤u.bufSize
    rw [length_append,length_take]
    omega
  · rintro (_ | _) t ht
    · exact ht.elim
    · obtain ⟨⟨-,-,calls,hlog,hall⟩,-⟩ := ht
      rw [append_nil] at hall
      rw [wp_pure,if_pos rfl,length_cells,hlen,Nat.mul_div_cancel _ hn,kept_eq _ hlog,← hall]
      exact ⟨rfl,items_all fun i hi=>mem_map_snd (fun x hx=>mem_append.mpr (.inr hx)) (hlen▸hi)⟩

variable (hsize : 1 ≤ size)
include hsize
theorem fwriteBuffered_idle (hout : locate (cells ptr)=none → s.bufSize ≤
      (if s.pending.length=s.bufSize then 0 else s.pending.length)+ptr.length) :
    Returns (fwriteBuffered idle locate (cells ptr) nmemb) s (fun n t=>n=size ∧
      items (kept s t) size nmemb≠nmemb) := by
  rw [fwriteBuffered,Returns,wp_bind]
  refine (copyLoop_rule (E := fun _=>False) (I := fun loc rest t=>t.bufSize=s.bufSize ∧
    (∃ calls, t.log=s.log++calls ∧ accepted calls=[]) ∧
      (rest=cells ptr ∧ loc=false ∧ (t.pending=s.pending ∨ s.pending.length=s.bufSize ∧ t.pending=[]) ∨
      some 0 ∉ rest.map Prod.snd ∧ (some 0 ∈ t.pending.map Prod.snd →
        loc=true ∨ t.pending.length=t.bufSize))) hlocate ?_ ?_ h.positive h.room
    ⟨rfl,⟨[],(append_nil _).symm,rfl⟩,.inl ⟨rfl,rfl,.inl rfl⟩⟩ (lt_succ_self _)).imp ?_
  · rintro loc rest u ⟨hsize,⟨calls,hlog,hacc⟩,hor⟩ hdue
    rw [Returns,wp_flushBuffer]
    refine ⟨hsize,⟨calls++[(.write u.fd u.pending,.value 0)],?_,?_⟩,?_⟩
    · rw [setPending,logged,hlog,append_assoc]
      rfl
    · rw [accepted,flatMap_append,← accepted,hacc]
      rfl
    · rcases hor with ⟨hrs,rfl,hpn⟩ | ⟨hrs,-⟩
      · refine .inl ⟨hrs,rfl,.inr ⟨?_,rfl⟩⟩
        have hpos := h.positive
        have hlen : u.pending.length=u.bufSize := by simpa using hdue
        rcases hpn with hp | ⟨hp,-⟩
        · rw [← hp,hlen,hsize]
        · exact hp
      · exact .inr ⟨hrs,by simp [setPending]⟩
  · rintro rest u ⟨hsize,hlog,hor⟩ hne hlt room hrm k hk hkp hkle
    refine ⟨hsize,hlog,.inr ?_⟩
    rcases hor with ⟨rfl,-,hpn⟩ | ⟨hrs,hdue⟩
    · -- the first batch has the first byte, and a flush is due
      refine ⟨?_,fun _=>?_⟩
      · rw [map_drop,map_cells,← map_drop,range_eq_range',drop_range']
        simp only [mem_map,mem_range'_1,Option.some.injEq,exists_eq_right]
        omega
      · rw [or_iff_not_imp_left,Option.not_isSome_iff_eq_none]
        intro hnn
        change (_++take _ (cells ptr)).length=u.bufSize
        rw [hnn] at hk
        rw [length_append,length_take]
        by_contra hfl
        rw [length_cells] at hrm hfl
        rw [take_of_length_le (by rw [length_cells]; simp only [batchSize] at hk; omega)] at hnn
        have hge := hout hnn
        simp only [batchSize] at hk
        rcases hpn with hp | ⟨hp,hp'⟩
        · rw [← hp,if_neg (by omega)] at hge
          omega
        · simp_all
    · have hold : some 0 ∉ u.pending.map Prod.snd := fun h0=>by
        rcases hdue h0 with hf | hf
        · cases hf
        · omega
      refine ⟨fun h0=>hrs ?_,fun h0=>?_⟩
      · rw [map_drop] at h0
        exact mem_of_mem_drop h0
      · change some 0 ∈ map Prod.snd (_++_) at h0
        rw [map_append,mem_append,map_take] at h0
        exact (h0.elim hold fun h0=>hrs (mem_of_mem_take h0)).elim
  · rintro (_ | _) t ht
    · exact ht.elim
    · obtain ⟨⟨-,⟨calls,hlog,hacc⟩,hor⟩,hlt⟩ := ht
      rw [wp_pure,if_pos rfl,length_cells,hlen,Nat.mul_div_cancel _ hn,kept_eq _ hlog,hacc,nil_append]
      refine ⟨rfl,items_ne hn hsize fun h0=>?_⟩
      rcases hor with ⟨hnil,-⟩ | ⟨-,hdue⟩
      · exact absurd hnil (cells_ne_nil hlen hsize hn)
      · simp_all

theorem fwriteBuffered_stays (heq : size=nmemb) (hnn : locate (cells ptr)=none)
    (hrm : (if s.pending.length=s.bufSize then 0 else s.pending.length)+ptr.length<s.bufSize) :
    Returns (fwriteBuffered K locate (cells ptr) nmemb) s (fun n t=>n=items (kept s t) size nmemb) := by
  rw [fwriteBuffered,Returns,wp_bind]
  refine (copyLoop_rule (E := fun t=>∀ b ∈ kept s t, b.2=none) (I := fun loc rest t=>loc=false ∧
    t.bufSize=s.bufSize ∧ (rest=cells ptr ∧ (t.pending=s.pending ∧ t.log=s.log ∨
      s.pending.length=s.bufSize ∧ t.pending=[]) ∨
      rest=[] ∧ t.pending.length<t.bufSize ∧ cells ptr ⊆ t.pending)) hlocate ?_ ?_ h.positive h.room
    ⟨rfl,rfl,.inl ⟨rfl,.inl ⟨rfl,rfl⟩⟩⟩ (lt_succ_self _)).imp ?_
  · rintro _ rest u ⟨rfl,hbuf,hor⟩ hdue
    have hpos := h.positive
    have hfl : u.pending.length=u.bufSize := by simpa using hdue
    rw [Returns,wp_flushBuffer]
    rcases hor with ⟨rfl,⟨hp,hlog⟩ | ⟨-,hp⟩⟩ | ⟨-,hlt,-⟩
    · split
      · -- only bytes of earlier calls have been passed on
        intro b hb
        rw [kept_eq [(.write u.fd u.pending,K.answer u.log _)] (by rw [logged,hlog])] at hb
        refine h.old b (hp▸(mem_append.mp hb).elim (fun hb=>?_) id)
        cases ha : K.answer u.log (.write u.fd u.pending) with
        | error e => simp [accepted,ha] at hb
        | value v => exact mem_of_mem_take (by simpa [accepted,ha] using hb)
      · exact ⟨rfl,hbuf,.inl ⟨rfl,.inr ⟨by rw [← hp,hfl,hbuf],rfl⟩⟩⟩
    · have h0 := congrArg length hp
      rw [length_nil] at h0
      omega
    · omega
  · rintro rest u ⟨-,hbuf,hor⟩ hne hlt room hrm' k hk - -
    rcases hor with ⟨rfl,hpn⟩ | ⟨hnil,-⟩
    · have hft : u.pending.length+ptr.length<s.bufSize := by
        rcases hpn with ⟨hp,-⟩ | ⟨hp,hp'⟩
        · rwa [← hp,if_neg (by omega)] at hrm
        · simp_all
      rw [length_cells] at hrm'
      have hall : (cells ptr).length≤room := by rw [length_cells]; omega
      rw [take_of_length_le hall,hnn] at hk ⊢
      obtain rfl : k=room := hk
      refine ⟨rfl,hbuf,.inr ⟨drop_of_length_le hall,?_,?_⟩⟩
      · change (_++take _ (cells ptr)).length<u.bufSize
        rw [length_append,take_of_length_le hall,length_cells]
        omega
      · change cells ptr ⊆ _++take _ (cells ptr)
        rw [take_of_length_le hall]
        exact subset_append_right ..
    · exact absurd hnil hne
  · rintro (_ | _) t ht <;> rw [wp_pure]
    · exact (items_none hsize ht).symm
    · obtain ⟨⟨-,-,⟨hnil,-⟩ | ⟨-,-,hsub⟩⟩,-⟩ := ht
      · exact absurd hnil (cells_ne_nil hlen hsize hn)
      · rw [if_pos rfl,length_cells,hlen,Nat.mul_div_cancel _ hn]
        exact heq.trans (items_all fun i hi=>mem_map_snd (fun x hx=>mem_append.mpr (.inr (hsub hx))) (hlen▸hi)).symm

theorem fwriteBuffered_items_iff :
    (∀ K, Returns (fwriteBuffered K locate (cells ptr) nmemb) s (fun n t=>n=items (kept s t) size nmemb)) ↔
      size=nmemb ∧ (if s.pending.length=s.bufSize then 0 else s.pending.length)+ptr.length <
        s.bufSize ∧ locate (cells ptr)=none := by
  refine ⟨fun hall=>?_,fun ⟨heq,hrm,hnn⟩ K=>fwriteBuffered_stays hlocate h hlen hn hsize heq hnn hrm⟩
  obtain ⟨_,_,hok,rfl,hit⟩ := (fwriteBuffered_ready hlocate h hlen hn).exists_ok
  have heq := (hall ready).of_ok hok
  rw [hit] at heq
  refine ⟨heq,?_⟩
  by_contra hout
  obtain ⟨_,_,hok',hn',hit'⟩ := (fwriteBuffered_idle hlocate h hlen hn hsize (by
    intro hnn; by_contra hlt; exact hout ⟨by omega,hnn⟩)).exists_ok
  exact hit' (((hall idle).of_ok hok').symm.trans (hn'.trans heq))
end

/-- The count of `fwrite` is right for every result of the calls iff nothing is buffered, or as many items as an
item has bytes stay in the buffer. That of `fread` is right iff the call fails, or delivers all of the bytes. -/
theorem itemCounts_iff (h : s.WellFormed) (hsize : 1 ≤ size)
    (hn : 1≤nmemb) (hwrap : size*nmemb<2^32) (hlen : ptr.length=size*nmemb) :
    ((∀ K, Returns (fwrite K ptr size nmemb) s (fun n t=>n=items (kept s t) size nmemb)) ↔
      s.bufMode=.flush ∨ size=nmemb ∧ Stays s ptr) ∧
    ∀ K buf, Returns (fread K buf size nmemb) s (fun n _=>n =
        match K.answer s.log (.read s.fd buf (size*nmemb)) with | .error _ => 0 | .value v => v/size) ↔
      ∀ v, K.answer s.log (.read s.fd buf (size*nmemb))=.value v → size=1 ∧ v=nmemb := by
  have h0 : ¬ (size=0 ∨ nmemb=0) := by omega
  refine ⟨?_,fun K buf=>?_⟩
  · have htk : ptr.take (size*nmemb%2^32)=ptr := by rw [mod_eq_of_lt hwrap,← hlen,take_length]
    simp only [fwrite,if_neg h0,htk,Returns,wp_bind,wp_get,Stays]
    cases hmd : s.bufMode with
    | flush => exact iff_of_true (fun K=>fwriteFlush_items h hsize hlen) (.inl rfl)
    | newline =>
      refine (fwriteBuffered_items_iff memchr_map_lt h hlen hn hsize).trans ?_
      simp [locateNewline_cells]
    | overflow =>
      refine (fwriteBuffered_items_iff (by simp) h hlen hn hsize).trans ?_
      simp
  · rw [fread,Returns,if_neg h0,mod_eq_of_lt hwrap,wp_bind,wp_get,wp_checked]
    cases ha : K.answer s.log (.read s.fd buf (size*nmemb)) with
    | error e =>
      rw [if_pos (ha▸K.int_neg ha)]
      exact iff_of_true rfl (by simp)
    | value v =>
      obtain ⟨hle,hlt⟩ := K.count _ _ _ _ rfl ha
      rw [int_value hlt,if_neg (by omega),wp_pure]
      refine ⟨fun heq=>?_,fun hv=>?_⟩
      · have hdiv := Nat.div_le_of_le_mul hle
        obtain rfl : size=1 := le_antisymm (Nat.le_of_mul_le_mul_right (by rwa [heq,one_mul]) hn) hsize
        rintro _ ⟨⟩
        simpa using heq.symm
      · obtain ⟨rfl,rfl⟩ := hv v rfl
        simp

/-- A byte that stays in the buffer. -/
theorem itemCounts_iff_oneByte : opened.WellFormed ∧
    ∀ K, Returns (fwrite K [0x61] 1 1) opened (fun n t=>n=items (kept opened t) 1 1) :=
  ⟨opened_wellFormed,(itemCounts_iff opened_wellFormed le_rfl le_rfl (by decide) rfl).1.mpr
    (.inr ⟨rfl,by decide,by decide⟩)⟩

/-- Two items of one byte, all kept, are counted as one; a read of nothing is counted as two. -/
theorem itemCounts_wrong : (∃ t, fwrite ready [0x61, 0x62] 1 2 opened=.ok 1 t ∧ items (kept opened t) 1 2=2) ∧
    ∃ t, fread idle 0 1 2 opened=.ok 2 t :=
  ⟨exists_ok_eq_of_passes (by decide +kernel),⟨_,rfl⟩⟩
end
end Yaos2.Libc.Unistd
