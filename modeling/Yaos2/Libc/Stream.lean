import Yaos2.Foundation.ByteMemory
import Yaos2.Foundation.Exec

/-! # Buffered output of the C library -/
namespace Yaos2.Libc
open Foundation List Nat

inductive BufMode
  | newline
  | overflow
  | flush
  deriving DecidableEq, Repr

/-- `FILE`, with the memory its buffer is in and the bytes passed to `write` so far. -/
structure Stream where
  bufMode : BufMode
  buf : ℕ
  bufSize : ℕ
  num : ℕ
  mem : Mem
  out : List UInt8
  errno : ℤ

def Stream.pending (s : Stream) : List UInt8 := bytes s.mem s.buf s.num

def newlineChar : UInt8 := 0x0a

def memchr (data : List UInt8) (value : UInt8) : Option ℕ := data.findIdx? (fun c=>c == value)

variable (accept : List UInt8 → ℤ)

/-- The system call returns what it accepts of the bytes, or an error. -/
def write (data : List UInt8) : Exec Stream ℤ := do
  modify (fun s=>{s with out := s.out++data})
  return accept data

/-- Pass the buffer on and empty it. Tells whether there was no error. -/
def flushBuffer : Exec Stream Bool := do
  let s ← get
  let ret ← write accept s.pending
  if ret<0 then
    modify (fun s=>{s with errno := -ret})
    return false
  else
    modify (fun s=>{s with num := 0})
    return true

/-- The bytes up to the place to stop at, or all there is room for. -/
def batchSize (stop : Option ℕ) (room : ℕ) : ℕ :=
  match stop with
  | some i => i+1
  | none => room

/-- Flush if the buffer would overflow, or if a newline was found. -/
def flushIf (loc : Bool) : Exec Stream Bool := do
  let s ← get
  if loc || s.num == s.bufSize then flushBuffer accept else return true

/-- The loops of `fwrite_newline` and `fwrite_overflow`; `locate` tells where in a batch to stop. -/
def copyLoop (locate : List UInt8 → Option ℕ) : ℕ → Bool → List UInt8 → Exec Stream Bool
  | 0, _, _ => abort "endless loop"
  | fuel+1, loc, rest => do
    let flushed ← flushIf accept loc
    if !flushed then
      return false
    else if rest.length=0 then
      return true
    else
      let s ← get
      let room := min rest.length (s.bufSize-s.num)
      let stop := locate (rest.take room)
      let batch := batchSize stop room
      modify (fun s=>{s with
        mem := blit s.mem (s.buf+s.num) (rest.take batch)
        num := s.num+batch})
      copyLoop locate fuel stop.isSome (rest.drop batch)

def fwriteFlush (data : List UInt8) (size : ℕ) : Exec Stream ℕ := do
  let ret ← write accept data
  if ret<0 then
    modify (fun s=>{s with errno := -ret})
    return 0
  else
    return ret.toNat/size

def fwriteNewline (data : List UInt8) (nmemb : ℕ) : Exec Stream ℕ := do
  let done ← copyLoop accept (fun batch=>memchr batch newlineChar) (data.length+1) false data
  return if done then data.length/nmemb else 0

def fwriteOverflow (data : List UInt8) (nmemb : ℕ) : Exec Stream ℕ := do
  let done ← copyLoop accept (fun _=>none) (data.length+1) false data
  return if done then data.length/nmemb else 0

/-- The data is what `ptr` points to. -/
def fwrite (ptr : List UInt8) (size nmemb : ℕ) : Exec Stream ℕ := do
  if size=0 ∨ nmemb=0 then
    return 0
  else
    let data := ptr.take (size*nmemb%2^32)
    match (← get).bufMode with
    | .flush => fwriteFlush accept data size
    | .newline => fwriteNewline accept data nmemb
    | .overflow => fwriteOverflow accept data nmemb

/-- A `size_t` as an `int`. -/
def asInt (n : ℕ) : ℤ := if n%2^32<2^31 then (n%2^32 : ℕ) else (n%2^32 : ℕ)-2^32

def eof : ℤ := -1

/-- The character of an `int`. -/
def toChar (character : ℤ) : UInt8 := UInt8.ofNat (character%256).toNat

def fputc (character : ℤ) : Exec Stream ℤ := do
  let ret ← fwrite accept [toChar character] 1 1
  return if asInt ret<0 then eof else character

def fputs (str : List UInt8) : Exec Stream ℤ := do
  let ret ← fwrite accept str 1 str.length
  return if asInt ret<0 then eof else asInt ret

def fflush : Exec Stream ℤ := do
  let flushed ← flushBuffer accept
  return if flushed then 0 else eof

inductive Call
  | fwrite (ptr : List UInt8) (size nmemb : ℕ)
  | fputs (str : List UInt8)
  | fputc (character : ℤ)
  | fflush

namespace Call

def run : Call → Exec Stream Unit
  | .fwrite ptr size nmemb => do let _ ← Libc.fwrite accept ptr size nmemb
  | .fputs str => do let _ ← Libc.fputs accept str
  | .fputc c => do let _ ← Libc.fputc accept c
  | .fflush => do let _ ← Libc.fflush accept

def data : Call → List UInt8
  | .fwrite ptr _ _ => ptr
  | .fputs str => str
  | .fputc c => [toChar c]
  | .fflush => []

/-- The data has the size given, without wrapping. -/
def Valid : Call → Prop
  | .fwrite ptr size nmemb => ptr.length=size*nmemb ∧ size*nmemb<2^32
  | .fputs str => str.length<2^32
  | .fputc _ => True
  | .fflush => True
end Call

def runCalls : List Call → Exec Stream Unit
  | [] => pure ()
  | c::calls => do
    c.run accept
    runCalls calls

/-- The buffer stays where it is, and nothing outside it is written to. -/
structure Inside (s t : Stream) : Prop where
  buf : t.buf=s.buf
  bufSize : t.bufSize=s.bufSize
  room : t.num≤t.bufSize
  outside : ∀ x, x<s.buf ∨ s.buf+s.bufSize≤x → t.mem x=s.mem x

/-- The data is passed on or in the buffer, and nothing outside the buffer is written to. -/
structure Gains (s s' : Stream) (data : List UInt8) : Prop where
  bufMode : s'.bufMode=s.bufMode
  buf : s'.buf=s.buf
  bufSize : s'.bufSize=s.bufSize
  stream : s'.out++s'.pending=s.out++s.pending++data
  outside : ∀ x, x<s.buf ∨ s.buf+s.bufSize≤x → s'.mem x=s.mem x

/-- The states of a stream between calls. -/
structure Stream.WellFormed (s : Stream) : Prop where
  positive : 1 ≤ s.bufSize
  room : s.num ≤ s.bufSize
  newline : s.bufMode=.newline → newlineChar ∉ s.pending
  unbuffered : s.bufMode=.flush → s.num=0

variable {accept} {s s' t : Stream} {data data' rest : List UInt8} {fuel : ℕ} {loc : Bool}
  {locate : List UInt8 → Option ℕ} {Clean : List UInt8 → Prop}

section

theorem Gains.refl (s : Stream) : Gains s s [] := ⟨rfl,rfl,rfl,(append_nil _).symm,fun _ _=>rfl⟩

theorem Gains.trans (h : Gains s s' data) (h' : Gains s' t data') : Gains s t (data++data') where
  bufMode := h'.bufMode.trans h.bufMode
  buf := h'.buf.trans h.buf
  bufSize := h'.bufSize.trans h.bufSize
  stream := by rw [h'.stream,h.stream,append_assoc]
  outside := by
    intro x hx
    have hx' : x<s'.buf ∨ s'.buf+s'.bufSize≤x := by rwa [h.buf,h.bufSize]
    exact (h'.outside x hx').trans (h.outside x hx)

theorem gains_copy (h : s.num+data.length ≤ s.bufSize) :
    Gains s {s with mem := blit s.mem (s.buf+s.num) data, num := s.num+data.length} data where
  bufMode := rfl
  buf := rfl
  bufSize := rfl
  stream := by
    have hk : SameOn s.mem (blit s.mem (s.buf+s.num) data) s.buf s.num := fun x _ hx=>blit_outside (.inl hx)
    rw [Stream.pending,Stream.pending,bytes_add,bytes_congr hk,bytes_blit_self,append_assoc]
  outside := by
    intro x hx
    exact blit_outside (by omega)

theorem pending_copy (h : s.num+data.length ≤ s.bufSize) :
    Stream.pending {s with mem := blit s.mem (s.buf+s.num) data, num := s.num+data.length} =
      s.pending++data := by
  have h' := (gains_copy h).stream
  rw [append_assoc] at h'
  exact append_cancel_left h'

theorem Gains.inside (h : Gains s t data) (hr : t.num≤t.bufSize) : Inside s t := ⟨h.buf,h.bufSize,hr,h.outside⟩

theorem Inside.after (h' : Inside s' t) (h : Gains s s' data) : Inside s t where
  buf := h'.buf.trans h.buf
  bufSize := h'.bufSize.trans h.bufSize
  room := h'.room
  outside := by
    intro x hx
    have hx' : x<s'.buf ∨ s'.buf+s'.bufSize≤x := by rwa [h.buf,h.bufSize]
    exact (h'.outside x hx').trans (h.outside x hx)

theorem flushBuffer_spec (hr : s.num ≤ s.bufSize) : Returns (flushBuffer accept) s (fun ok t=>Inside s t ∧
    (ok=true → Gains s t [] ∧ t.num=0) ∧ ((∀ data, 0≤accept data) → ok=true)) := by
  simp only [flushBuffer,write,Returns,wp_bind,wp_get,wp_modify,wp_pure]
  refine Ensures.ite (fun h=>?_) (fun _=>?_)
  · simp only [wp_bind,wp_modify,wp_pure]
    exact ⟨⟨rfl,rfl,hr,fun _ _=>rfl⟩,(absurd · Bool.false_ne_true),fun h'=>absurd h (not_lt.mpr (h' _))⟩
  · simp only [wp_bind,wp_modify,wp_pure]
    have hg : Gains s {s with out := s.out++s.pending, num := 0} [] :=
      ⟨rfl,rfl,rfl,by simp [Stream.pending,bytes_zero],fun _ _=>rfl⟩
    exact ⟨hg.inside (Nat.zero_le _),fun _=>⟨hg,trivial⟩,fun _=>trivial⟩

theorem flushIf_spec (hem : Clean []) (hpos : 1 ≤ s.bufSize) (hrm : s.num ≤ s.bufSize)
    (hcl : loc=false → Clean s.pending) : Returns (flushIf accept loc) s (fun ok t=>Inside s t ∧
      (ok=true → Gains s t [] ∧ t.num<t.bufSize ∧ Clean t.pending) ∧ ((∀ data, 0≤accept data) → ok=true)) := by
  rw [flushIf,Returns,wp_bind,wp_get]
  refine Ensures.ite (fun _=>?_) (fun h=>?_)
  · apply (flushBuffer_spec hrm).imp
    rintro ok t ⟨hin,hgn,hok⟩
    refine ⟨hin,fun h=>?_,hok⟩
    obtain ⟨hgn,hnum⟩ := hgn h
    have hpn : t.pending=[] := by rw [Stream.pending,hnum,bytes_zero]
    exact ⟨hgn,by rw [hnum,hgn.bufSize]; omega,hpn▸hem⟩
  · rw [Bool.not_eq_true,Bool.or_eq_false_iff,beq_eq_false_iff_ne] at h
    rw [wp_pure]
    exact ⟨(Gains.refl s).inside hrm,fun _=>⟨Gains.refl s,lt_of_le_of_ne hrm h.2,hcl h.1⟩,fun _=>rfl⟩

theorem batchSize_bounds {rest : List α} {locate : List α → Option ℕ}
    (hl : ∀ batch i, locate batch=some i → i<batch.length) (hr : room≤rest.length) (hpos : 0<room) :
    0<batchSize (locate (rest.take room)) room ∧ batchSize (locate (rest.take room)) room≤room := by
  rcases hs : locate (rest.take room) with _ | i
  · exact ⟨hpos,le_refl _⟩
  · have hi := hl _ i hs
    rw [length_take,min_eq_left hr] at hi
    exact ⟨succ_pos i,hi⟩

theorem copyLoop_spec (hlc : ∀ batch i, locate batch=some i → i<batch.length) (hem : Clean [])
    (hnn : ∀ kept batch, Clean kept → locate batch=none → Clean (kept++batch))
    (hpos : 1 ≤ s.bufSize) (hrm : s.num ≤ s.bufSize) (hcl : loc=false → Clean s.pending)
    (hfl : rest.length<fuel) :
    Returns (copyLoop accept locate fuel loc rest) s (fun ok t=>Inside s t ∧
      (ok=true → Gains s t rest ∧ Clean t.pending) ∧ ((∀ data, 0≤accept data) → ok=true)) := by
  induction fuel generalizing s loc rest with
  | zero => exact absurd hfl (not_lt_zero _)
  | succ fuel ih =>
    rw [copyLoop,Returns]
    rw [wp_bind]
    apply (flushIf_spec hem hpos hrm hcl).imp
    rintro ok t ⟨hin,hgn,hok⟩
    cases ok with
    | false =>
      simp only [Bool.not_false,if_true,wp_pure]
      exact ⟨hin,(absurd · Bool.false_ne_true),hok⟩
    | true =>
    obtain ⟨hgn,hlt,hkp⟩ := hgn rfl
    simp only [Bool.not_true,Bool.false_eq_true,if_false]
    refine Ensures.ite (fun h0=>?_) (fun h0=>?_)
    · rw [wp_pure,length_eq_zero_iff.mp h0]
      exact ⟨hin,fun _=>⟨hgn,hkp⟩,fun _=>rfl⟩
    · simp only [wp_bind,wp_get,wp_modify]
      have hmin : min rest.length (t.bufSize-t.num)≤rest.length := min_le_left ..
      obtain ⟨hbt,hbt'⟩ := batchSize_bounds hlc hmin (by omega)
      generalize hst : locate (rest.take (min rest.length (t.bufSize-t.num)))=stop at hbt hbt' ⊢
      generalize hsz : batchSize stop (min rest.length (t.bufSize-t.num))=k at hbt hbt' ⊢
      have hlen : (rest.take k).length=k := length_take_of_le (by omega)
      have hft : t.num+(rest.take k).length≤t.bufSize := by omega
      have hcp := hgn.trans (gains_copy hft)
      have hpn := pending_copy hft
      rw [hlen] at hcp hpn
      refine (ih (hgn.bufSize▸hpos) (by rw [← hlen]; exact hft) ?_ (by rw [length_drop]; omega)).imp
        ?_
      · -- without a place to stop at the whole batch is kept
        intro hloc
        obtain rfl : stop=none := Option.isNone_iff_eq_none.mp (by simpa using hloc)
        rw [hpn,← hsz]
        exact hnn _ _ hkp hst
      · rintro ok u ⟨hin',hgn',hok'⟩
        refine ⟨hin'.after hcp,fun h=>?_,hok'⟩
        have hall := hcp.trans (hgn' h).1
        rw [nil_append,take_append_drop] at hall
        exact ⟨hall,(hgn' h).2⟩

theorem memchr_lt (h : memchr batch c=some i) : i<batch.length := by
  obtain ⟨hi,-⟩ := List.findIdx?_eq_some_iff_getElem.mp h
  exact hi

theorem memchr_eq_none (h : memchr batch c=none) : c ∉ batch := by
  intro hc
  have hf := List.findIdx?_eq_none_iff.mp h c hc
  simp at hf

section
variable (haccept : ∀ data, 0≤accept data)
include haccept
theorem fwriteFlush_spec (size : ℕ) (hnum : s.num=0) : Returns (fwriteFlush accept data size) s (fun _ t =>
    Gains s t data ∧ t.num=0) := by
  have hret := Int.not_lt.mpr (haccept data)
  simp only [fwriteFlush,write,Returns,wp_bind,wp_modify,wp_pure,if_neg hret]
  exact ⟨⟨rfl,rfl,rfl,by simp [Stream.pending,hnum,bytes_zero],fun _ _=>rfl⟩,hnum⟩

theorem fwriteNewline_spec (nmemb : ℕ) (hpos : 1 ≤ s.bufSize) (hrm : s.num ≤ s.bufSize)
    (hln : newlineChar ∉ s.pending) : Returns (fwriteNewline accept data nmemb) s (fun _ t =>
      Gains s t data ∧ t.num≤t.bufSize ∧ newlineChar ∉ t.pending) := by
  have hnn : ∀ kept batch, newlineChar ∉ kept → memchr batch newlineChar=none → newlineChar ∉ kept++batch :=
    fun kept batch hkp hbt hmem=>(mem_append.mp hmem).elim hkp (memchr_eq_none hbt)
  simp only [fwriteNewline,Returns,wp_bind,wp_pure]
  apply (copyLoop_spec (fun _ _=>memchr_lt) not_mem_nil hnn hpos hrm (fun _=>hln) (lt_succ_self _)).imp
  rintro ok t ⟨hin,hgn,hok⟩
  exact ⟨(hgn (hok haccept)).1,hin.room,(hgn (hok haccept)).2⟩

theorem fwriteOverflow_spec (nmemb : ℕ) (hpos : 1 ≤ s.bufSize) (hrm : s.num ≤ s.bufSize) :
    Returns (fwriteOverflow accept data nmemb) s (fun _ t=>Gains s t data ∧ t.num≤t.bufSize) := by
  have hst : ∀ (batch : List UInt8) (i : ℕ), (none : Option ℕ)=some i → i<batch.length :=
    fun _ _ h=>(nomatch h)
  have hall : ∀ _ _ : List UInt8, True → (none : Option ℕ)=none → True := fun _ _ _ _=>trivial
  simp only [fwriteOverflow,Returns,wp_bind,wp_pure]
  apply (copyLoop_spec hst trivial hall hpos hrm (fun _=>trivial) (lt_succ_self _)).imp
  rintro ok t ⟨hin,hgn,hok⟩
  exact ⟨(hgn (hok haccept)).1,hin.room⟩

section
variable (hs : s.WellFormed)
include hs
theorem fwrite_spec {size nmemb : ℕ} (hlen : data.length=size*nmemb) (hwr : size*nmemb<2^32) :
    Returns (fwrite accept data size nmemb) s (fun _ t=>Gains s t data ∧ t.WellFormed) := by
  rw [fwrite,Returns]
  refine Ensures.ite (fun h0=>?_) (fun _=>?_)
  · have hnil : data=[] := by
      rw [← length_eq_zero_iff,hlen]
      rcases h0 with rfl | rfl
      · exact zero_mul _
      · exact mul_zero _
    rw [wp_pure,hnil]
    exact ⟨Gains.refl s,hs⟩
  · rw [mod_eq_of_lt hwr,← hlen,take_length,wp_bind,wp_get]
    rcases hmd : s.bufMode with _ | _ | _
    · apply (fwriteNewline_spec haccept nmemb hs.positive hs.room (hs.newline hmd)).imp
      rintro - t ⟨hgn,hrm,hln⟩
      have hmd' := hgn.bufMode.trans hmd
      exact ⟨hgn,hgn.bufSize▸hs.positive,hrm,fun _=>hln,by simp [hmd']⟩
    · apply (fwriteOverflow_spec haccept nmemb hs.positive hs.room).imp
      rintro - t ⟨hgn,hrm⟩
      have hmd' := hgn.bufMode.trans hmd
      exact ⟨hgn,hgn.bufSize▸hs.positive,hrm,by simp [hmd'],by simp [hmd']⟩
    · apply (fwriteFlush_spec haccept size (hs.unbuffered hmd)).imp
      rintro - t ⟨hgn,hnum⟩
      have hmd' := hgn.bufMode.trans hmd
      exact ⟨hgn,hgn.bufSize▸hs.positive,by omega,by simp [hmd'],fun _=>hnum⟩

theorem fflush_spec : Returns (fflush accept) s (fun _ t=>Gains s t [] ∧ t.WellFormed) := by
  simp only [fflush,Returns,wp_bind,wp_pure]
  apply (flushBuffer_spec hs.room).imp
  rintro ok t ⟨-,hgn,hok⟩
  obtain ⟨hgn,hnum⟩ := hgn (hok haccept)
  have hpn : t.pending=[] := by rw [Stream.pending,hnum,bytes_zero]
  exact ⟨hgn,hgn.bufSize▸hs.positive,by omega,fun _=>by simp [hpn],fun _=>hnum⟩

theorem call_spec (c : Call) (hc : c.Valid) :
    Returns (c.run accept) s (fun _ t=>Gains s t c.data ∧ t.WellFormed) := by
  cases c with
  | fwrite ptr size nmemb =>
    simp only [Call.run,Returns,wp_bind,wp_pure]
    exact fwrite_spec haccept hs hc.1 hc.2
  | fputs str =>
    simp only [Call.run,fputs,Returns,wp_bind,wp_pure]
    exact fwrite_spec haccept hs (one_mul _).symm (by rwa [one_mul])
  | fputc c =>
    have hone : [toChar c].length=1*1 := rfl
    simp only [Call.run,fputc,Returns,wp_bind,wp_pure]
    exact fwrite_spec haccept hs hone (by decide)
  | fflush =>
    simp only [Call.run,Returns,wp_bind,wp_pure]
    exact fflush_spec haccept hs

theorem runCalls_spec (calls : List Call) (hcl : ∀ c ∈ calls, c.Valid) :
    Returns (runCalls accept calls) s (fun _ t=>Gains s t (calls.flatMap Call.data) ∧ t.WellFormed) := by
  induction calls generalizing s with
  | nil =>
    rw [runCalls,Returns,wp_pure]
    exact ⟨Gains.refl s,hs⟩
  | cons c calls ih =>
    rw [runCalls,Returns,wp_bind]
    apply (call_spec haccept hs c (hcl c mem_cons_self)).imp
    rintro - t ⟨hgn,ht⟩
    apply (ih ht (fun c' hc'=>hcl c' (mem_cons_of_mem c hc'))).imp
    rintro - u ⟨hgn',hu⟩
    rw [flatMap_cons]
    exact ⟨hgn.trans hgn',hu⟩
end

end
end

/-- After any calls, the bytes passed on and those in the buffer are the data given, in order. -/
theorem runCalls_stream (haccept : ∀ data, accept data=data.length) (hpos : 1 ≤ s.bufSize) (hnum : s.num=0)
    (calls : List Call) (hcalls : ∀ c ∈ calls, c.Valid) :
    Returns (runCalls accept calls) s (fun _ t =>
      t.out++t.pending=s.out++calls.flatMap Call.data ∧
      t.buf=s.buf ∧ t.bufSize=s.bufSize ∧ t.num≤t.bufSize ∧
      (∀ x, x<s.buf ∨ s.buf+s.bufSize≤x → t.mem x=s.mem x) ∧
      (s.bufMode=.newline → newlineChar ∉ t.pending)) := by
  have hpn : s.pending=[] := by rw [Stream.pending,hnum,bytes_zero]
  have hs : s.WellFormed := ⟨hpos,by omega,fun _=>by simp [hpn],fun _=>hnum⟩
  have haccept' : ∀ data, 0≤accept data := fun data=>haccept data▸Int.natCast_nonneg _
  apply (runCalls_spec haccept' hs calls hcalls).imp
  rintro - t ⟨hgn,ht⟩
  have hst := hgn.stream
  rw [hpn,append_nil] at hst
  exact ⟨hst,hgn.buf,hgn.bufSize,ht.room,hgn.outside,fun h=>ht.newline (hgn.bufMode.trans h)⟩

def smallStream : Stream where
  bufMode := .newline
  buf := 0x1000
  bufSize := 3
  num := 0
  mem := fun _=>0
  out := []
  errno := 0

def twoParts : List Call := [.fputs [0x61, 0x62], .fwrite [0x63, 0x64, 0x0a, 0x65] 2 2]

theorem runCalls_stream_twoParts :
    Returns (runCalls (fun data=>data.length) twoParts) smallStream (fun _ t =>
      t.out++t.pending=smallStream.out++twoParts.flatMap Call.data ∧
      t.buf=smallStream.buf ∧ t.bufSize=smallStream.bufSize ∧ t.num≤t.bufSize ∧
      (∀ x, x<smallStream.buf ∨ smallStream.buf+smallStream.bufSize≤x → t.mem x=smallStream.mem x) ∧
      (smallStream.bufMode=.newline → newlineChar ∉ t.pending)) :=
  runCalls_stream (fun _=>rfl) (by decide) rfl twoParts (by
    intro c hc
    obtain rfl | rfl : c=.fputs [0x61, 0x62] ∨ c=.fwrite [0x63, 0x64, 0x0a, 0x65] 2 2 := by
      simpa [twoParts] using hc
    · exact lt_of_lt_of_le (lt_succ_self 2) (by decide)
    · exact ⟨rfl,by decide⟩)

end Yaos2.Libc
