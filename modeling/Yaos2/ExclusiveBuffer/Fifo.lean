import Yaos2.ExclusiveBuffer.Core

/-! # The buffer is a queue -/
namespace Yaos2.ExclusiveBuffer
open Foundation

/-- The pointers are inside the array, and no byte is lost, duplicated or out of order. -/
structure Fifo (array size : ℕ) (b : Buffer) : Prop where
  order : b.InOrder
  fixed : b.growing=false
  array : b.buffer=array
  size : b.bufferSize=size
  stream : b.handed++b.contents=b.accepted

/-- A transfer of the next bytes of a writer, as many as there is room for. -/
def Written (size : ℕ) (src : List UInt8) (b : Buffer) (k : ℕ) (b' : Buffer) : Prop :=
  k=min (size-b.contents.length) src.length ∧ b'.contents=b.contents++src.take k ∧ b'.eof=b.eof

/-- The buffer looks the same from outside. -/
def Unchanged (b b' : Buffer) : Prop := b'.contents=b.contents ∧ b'.eof=b.eof

/-- What a section does to the contents and the flag, and where it leads. -/
def Effect (size : ℕ) : Pc → Buffer → Move Pc → Buffer → Prop
  | .read n dest, b, mv, b' =>
    if dest.length<n then
      if b.eof then mv=.wait (.read n dest) ∧ b'=b
      else mv=.pass false (.read n (dest++b.contents.take (n-dest.length))) ∧
        b'.contents=b.contents.drop (n-dest.length) ∧ b'.eof=b.eof
    else mv=.leave (0<dest.length) .idle ∧ b'.contents=b.contents ∧ b'.eof=(b.eof || b.contents.isEmpty)
  | .tryRead _ n, b, mv, b' => (∀ p, mv≠.wait p) ∧ (∀ u p, mv=.pass u p → p=.locked) ∧
    if b.eof then Unchanged b b'
    else b'.contents=b.contents.drop n ∧ b'.eof=b'.contents.isEmpty
  | .write src, b, mv, b' => mv=.pass false (.writing src 0) ∧ b'=b
  | .writing src written, b, mv, b' =>
    if written<src.length then
      if b.contents.length=size then mv=.wait (.writingAgain src written) ∧ Unchanged b b'
      else ∃ k, mv=.pass false (.writing src (written+k)) ∧ Written size (src.drop written) b k b'
    else mv=.leave (0<written) .idle ∧ b'.contents=b.contents ∧ b'.eof=(b.eof && !(decide (0<written)))
  | .writingAgain src written, b, mv, b' =>
    if isFull b then mv=.wait (.writingAgain src written) ∧ b'=b
    else ∃ k, mv=.pass false (.writing src (written+k)) ∧ Written size (src.drop written) b k b'
  | .tryWrite _ src, b, mv, b' => (∀ p, mv≠.wait p) ∧ (∀ u p, mv=.pass u p → p=.locked) ∧
    ∃ k, b'.contents=b.contents++src.take k ∧ k=min (size-b.contents.length) src.length ∧
      b'.eof=(b.eof && !(decide (0<k)))
  | .flush, b, mv, b' => b'=b ∧ mv=if b.eof then .leave false .idle else .wait .flush
  | .lock, b, mv, b' => mv=.pass false .locked ∧ Unchanged b b'
  | .locked, b, mv, b' => mv=.pass false .locked ∧ Unchanged b b'
  | .unlock, b, mv, b' => mv=.leave false .idle ∧ Unchanged b b'
  | .idle, b, mv, b' => mv=.leave false .idle ∧ b'=b

variable {array size : ℕ} {b b' : Buffer} {krealloc : Krealloc} {src : List UInt8} {written : ℕ}

section

section
variable (h : Fifo array size b)
include h
theorem Fifo.of_same (ho : b'.InOrder) (hs : SameControl b b')
    (hst : b'.handed++b'.contents=b'.accepted) : Fifo array size b' :=
  ⟨ho,hs.growing.trans h.fixed,hs.buffer.trans h.array,hs.size.trans h.size,hst⟩

theorem unsafeMoveHead_fifo : Returns unsafeMoveHead b (fun _ b' =>
    Fifo array size b' ∧ b'.head=b'.buffer ∧ Unchanged b b') := by
  apply (unsafeMoveHead_spec h.order).imp
  rintro - c ⟨ho,hst,hc,hs,hh,ha⟩
  exact ⟨h.of_same ho hs (by rw [hh,hc,ha,h.stream]),hst,hc,hs.eof⟩

theorem readBatch_fifo (n : ℕ) : Returns (readBatch n) b (fun dest b' =>
    Fifo array size b' ∧ dest=b.contents.take n ∧ b'.contents=b.contents.drop n ∧ b'.eof=b.eof) := by
  apply (readBatch_spec h.order n).imp
  rintro dest c ⟨ho,rfl,hc,hs,hh,ha⟩
  refine ⟨h.of_same ho hs ?_,rfl,hc,hs.eof⟩
  rw [hh,hc,ha,List.append_assoc,List.take_append_drop,h.stream]

theorem writeBatch_fifo (hst : b.head=b.buffer) (src : List UInt8) :
    Returns (writeBatch src) b (fun k b'=>Fifo array size b' ∧ Written size src b k b') := by
  apply (writeBatch_spec h.order hst src).imp
  rintro k c ⟨ho,hk,hc,hs,hh,ha⟩
  refine ⟨h.of_same ho hs ?_,h.size▸hk,hc,hs.eof⟩
  rw [hh,hc,ha,← List.append_assoc,h.stream]

theorem moveAndWrite_fifo (src : List UInt8) :
    Returns (do unsafeMoveHead; writeBatch src) b (fun k b'=>Fifo array size b' ∧ Written size src b k b') := by
  rw [Returns,wp_bind]
  apply (unsafeMoveHead_fifo h).imp
  rintro - c ⟨hc,hst,hit,heof⟩
  apply (writeBatch_fifo hc hst src).imp
  rintro k d ⟨hd,hk,hd',hdf⟩
  rw [hit] at hk hd'
  exact ⟨hd,hk,hd',hdf.trans heof⟩

theorem writePass_fifo : Returns (writePass src written) b (fun mv b'=>Fifo array size b' ∧
      ∃ k, mv=.pass false (.writing src (written+k)) ∧ Written size (src.drop written) b k b') := by
  have hmw := moveAndWrite_fifo h (src.drop written)
  simp only [Returns,wp_bind] at hmw
  simp only [writePass,Returns,wp_bind,wp_pure]
  refine hmw.imp (fun _ c hc=>?_)
  exact hc.imp (fun k d hd=>⟨hd.1,k,rfl,hd.2⟩)
end

theorem contents_isEmpty (h : b.InOrder) : b.contents.isEmpty=decide (b.head=b.tail) := by
  have ht := h.tail
  rw [Bool.eq_iff_iff,List.isEmpty_iff,Buffer.contents_eq_nil,decide_eq_true_eq]
  omega

section
variable (h : Fifo array size b)
include h
theorem isFull_iff (hs : b.head=b.buffer) : isFull b=true ↔ b.contents.length=size := by
  have ht := h.order.tail
  rw [isFull,beq_iff_eq,b.contents_length,h.size]
  omega

theorem Fifo.setEof : Returns setEof b (fun _ b'=>Fifo array size b' ∧
    b'.contents=b.contents ∧ b'.eof=(b.eof || b.contents.isEmpty)) := by
  rw [ExclusiveBuffer.setEof,Returns,wp_modify,contents_isEmpty h.order]
  split
  · next heq => exact ⟨⟨⟨h.order.head,h.order.tail,h.order.limit⟩,h.fixed,h.array,h.size,h.stream⟩,rfl,
      by simp [heq]⟩
  · next hne => exact ⟨h,rfl,by simp [hne]⟩

theorem Fifo.clearEof (k : ℕ) : Returns (clearEof k) b (fun _ b' =>
    Fifo array size b' ∧ b'.contents=b.contents ∧ b'.eof=(b.eof && !(decide (0<k)))) := by
  rw [ExclusiveBuffer.clearEof,Returns,wp_modify]
  split
  · next hk => exact ⟨⟨⟨h.order.head,h.order.tail,h.order.limit⟩,h.fixed,h.array,h.size,h.stream⟩,rfl,
      by simp [hk]⟩
  · next hk => exact ⟨h,rfl,by simp [hk]⟩

theorem Fifo.multiLock (c : Bool) : Fifo array size {b with multiLock := c} :=
  ⟨⟨h.order.head,h.order.tail,h.order.limit⟩,h.fixed,h.array,h.size,h.stream⟩

theorem body_read (n : ℕ) (dest : List UInt8) :
    Returns (body krealloc (.read n dest)) b (fun mv b'=>Fifo array size b' ∧
      Effect size (.read n dest) b mv b') := by
  simp only [body,Effect,Returns]
  split
  · simp only [wp_bind,wp_get]
    split
    · exact (wp_pure ..).mpr ⟨h,rfl,rfl⟩
    · simp only [wp_bind,wp_pure]
      apply (readBatch_fifo h _).imp
      rintro more c ⟨hc,rfl,hi,heof⟩
      exact ⟨hc,rfl,hi,heof⟩
  · simp only [wp_bind,wp_pure]
    apply h.setEof.imp
    rintro - c ⟨hc,hi,heof⟩
    exact ⟨hc,trivial,hi,heof⟩
end

theorem tryMove_cases (inMultiLock n : Bool) {mv : Move Pc}
    (h : mv=if inMultiLock then .pass n .locked else .leave n .idle) :
    (∀ p, mv≠.wait p) ∧ ∀ u p, mv=.pass u p → p=.locked := by
  subst h
  cases inMultiLock <;> simp

section
variable (h : Fifo array size b)
include h
theorem body_tryRead (held : Bool) (n : ℕ) :
    Returns (body krealloc (.tryRead held n)) b (fun mv b'=>Fifo array size b' ∧
      Effect size (.tryRead held n) b mv b') := by
  simp only [body,Effect,Returns,wp_bind,wp_get]
  split
  · rw [wp_pure]
    obtain ⟨hw,hp⟩ := tryMove_cases (held && b.multiLock) false rfl
    exact ⟨h,hw,hp,rfl,rfl⟩
  · next heof =>
    simp only [wp_bind]
    apply (readBatch_fifo h n).imp
    rintro dest c ⟨hc,-,hit,hcf⟩
    apply hc.setEof.imp
    rintro - d ⟨hd,hdt,hdf⟩
    rw [wp_pure]
    obtain ⟨hw,hp⟩ := tryMove_cases (held && b.multiLock) (0<dest.length) rfl
    refine ⟨hd,hw,hp,hdt.trans hit,?_⟩
    rw [hdf,hcf,hdt]
    simp [heof]

theorem body_tryWrite (held : Bool) (src : List UInt8) :
    Returns (body krealloc (.tryWrite held src)) b (fun mv b'=>Fifo array size b' ∧
      Effect size (.tryWrite held src) b mv b') := by
  have hmw := moveAndWrite_fifo h src
  simp only [Returns,wp_bind] at hmw
  simp only [body,Effect,Returns,wp_bind,wp_get,h.fixed,Bool.false_eq_true,if_false]
  refine hmw.imp (fun _ c hc=>hc.imp ?_)
  rintro k d ⟨hd,hk,hit,heof⟩
  apply (hd.clearEof k).imp
  rintro - e ⟨he,het,hef⟩
  rw [wp_pure]
  obtain ⟨hw,hp⟩ := tryMove_cases (held && b.multiLock) (0<k) rfl
  exact ⟨he,hw,hp,k,het.trans hit,hk,heof▸hef⟩

theorem body_writing (src : List UInt8) (written : ℕ) :
    Returns (body krealloc (.writing src written)) b (fun mv b'=>Fifo array size b' ∧
      Effect size (.writing src written) b mv b') := by
  simp only [body,Effect,Returns]
  split
  · simp only [wp_bind,wp_get]
    apply (unsafeMoveHead_fifo h).imp
    rintro - c ⟨hc,hst,hit,heof⟩
    have hfl := isFull_iff hc hst
    rw [hit] at hfl
    split
    · next hf =>
      rw [wp_pure,if_pos (hfl.mp hf)]
      exact ⟨hc,rfl,hit,heof⟩
    · next hf =>
      apply (writePass_fifo hc).imp
      rintro mv d ⟨hd,k,hmv,hk,hd',hdf⟩
      rw [hit] at hk hd'
      rw [if_neg (fun hlen=>hf (hfl.mpr hlen))]
      exact ⟨hd,k,hmv,hk,hd',hdf.trans heof⟩
  · simp only [wp_bind,wp_pure]
    apply (h.clearEof written).imp
    rintro - c ⟨hc,hit,heof⟩
    exact ⟨hc,trivial,hit,heof⟩

theorem body_spec (p : Pc) :
    Returns (body krealloc p) b (fun mv b'=>Fifo array size b' ∧ Effect size p b mv b') := by
  cases p with
  | idle => exact (wp_pure ..).mpr ⟨h,rfl,rfl⟩
  | read n dest => exact body_read h n dest
  | tryRead held n => exact body_tryRead h held n
  | write src =>
    simp only [body,Returns,wp_bind,wp_get,h.fixed,Bool.false_eq_true,if_false,wp_pure]
    exact ⟨h,rfl,rfl⟩
  | writing src written => exact body_writing h src written
  | writingAgain src written =>
    simp only [body,Effect,Returns,wp_bind,wp_get]
    split
    · exact (wp_pure ..).mpr ⟨h,rfl,rfl⟩
    · exact writePass_fifo h
  | tryWrite held src => exact body_tryWrite h held src
  | flush =>
    simp only [body,Effect,Returns,wp_bind,wp_get]
    split <;> exact (wp_pure ..).mpr ⟨h,rfl,rfl⟩
  | lock =>
    simp only [body,Returns,wp_bind,wp_modify,wp_pure]
    exact ⟨h.multiLock true,rfl,rfl,rfl⟩
  | locked => exact (wp_pure ..).mpr ⟨h,rfl,rfl,rfl⟩
  | unlock =>
    simp only [body,Returns,wp_bind,wp_modify,wp_pure]
    exact ⟨h.multiLock false,rfl,rfl,rfl⟩
end

end

section
variable {T : Type} [DecidableEq T] {mem : Mem} {alignment : ℕ} {m : MonState T Pc Buffer}

theorem fifo_ebCreate (mem : Mem) (array size alignment : ℕ) :
    Fifo array size (ebCreate mem array size alignment false) :=
  ⟨⟨le_rfl,le_rfl,Nat.le_add_right _ _⟩,rfl,rfl,rfl,by simp [ebCreate,Buffer.contents,bytes_zero]⟩

theorem fifo_proof : (monitor krealloc).Proof (fun _=>False) (fun _=>True)
    (fun _ b=>Fifo array size b) (fun _ _ b=>Fifo array size b) where
  choose := fun _ _ _ _ _ h=>h
  enter := fun _ _ _ _ h=>h
  wake := fun _ _ _ _ h=>h
  body := fun _ p b h=>by
    apply (body_spec h p).imp
    rintro (⟨n,q⟩ | q | ⟨n,q⟩) c ⟨hc,-⟩
    · exact hc
    · exact ⟨trivial,hc⟩
    · exact hc

/-- In every run the bytes read and those in the buffer are the bytes written, and no assertion
fails. -/
theorem ebRun_fifo (hrun : (monitor krealloc).Run (start T mem array size alignment) m) :
    m.panicked=false ∧ array ≤ m.shared.head ∧ m.shared.head ≤ m.shared.tail ∧ m.shared.tail≤array+size ∧
      m.shared.handed++bytes m.shared.mem m.shared.head (m.shared.tail-m.shared.head) =
        m.shared.accepted := by
  have h := fifo_proof.run hrun rfl (fun t=>⟨.idle,rfl⟩) (fifo_ebCreate mem array size alignment)
  have hf : Fifo array size m.shared := by
    by_cases hfr : m.Free
    · exact h.free hfr
    · simp only [MonState.Free,not_forall,not_not] at hfr
      obtain ⟨t,p,ht⟩ := hfr
      exact h.holder t p ht
  refine ⟨h.calm,?_,hf.order.tail,?_,hf.stream⟩
  · exact hf.array▸hf.order.head
  · exact hf.array▸hf.size▸hf.order.limit

/-- Three bytes are written to a buffer of four, and a reader gets two of them. -/
theorem ebRun_fifo_twoCalls : ∃ m : MonState Bool Pc Buffer,
    (monitor inPlace).Run (start Bool (fun _=>0) 0x1000 4 1) m ∧ m.shared.handed=[1, 2] ∧
    m.shared.accepted=[1, 2, 3] ∧ m.panicked=false ∧
    m.shared.handed++bytes m.shared.mem m.shared.head (m.shared.tail-m.shared.head) =
      m.shared.accepted := by
  have h₁ := Monitor.run_enter (M := monitor inPlace) (m := start Bool (fun _=>0) 0x1000 4 1) (t := true)
    rfl (by rintro (_ | _) p h <;> cases h) rfl (.tryWrite [1, 2, 3]) (.tryWrite [1, 2, 3])
  have h₂ := h₁.trans (Monitor.run_leave (t := true) rfl rfl rfl .nobody)
  have h₃ := h₂.trans (Monitor.run_enter (t := false) rfl (by rintro (_ | _) p h <;> cases h) rfl (.tryRead 2)
    (.tryRead 2))
  have h₄ := h₃.trans (Monitor.run_leave (t := false) rfl rfl rfl .nobody)
  have h := ebRun_fifo h₄
  exact ⟨_,h₄,rfl,rfl,h.1,h.2.2.2.2⟩
end

end Yaos2.ExclusiveBuffer
