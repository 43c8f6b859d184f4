import Yaos2.Libc.Stream

/-! # Owners of the buffers of streams -/
namespace Yaos2.Libc.Buffers
open Foundation Function List

def bufsiz : ℕ := 128

/-- `FILE`; the flag tells that the buffer was given to `setbuf`. -/
structure File where
  stream : Stream
  bufForeign : Bool

/-- The streams by their addresses, the memory their buffers are in, and the streams in use. The pointers
`malloc` gave out are `live` until they are freed; a pointer passed to `free` is kept with whether it
was live. -/
structure Program where
  file : ℕ → File
  mem : Mem
  opened : List ℕ
  live : List ℕ
  freed : List (ℕ × Bool)

/-- `malloc` with its answer. -/
def malloc (ptr : ℕ) : Exec Program ℕ := do
  modify (fun s=>{s with live := ptr::s.live})
  return ptr

def free (ptr : ℕ) : Exec Program Unit :=
  modify (fun s=>{s with
    live := s.live.filter (· ≠ ptr)
    freed := s.freed++[(ptr,decide (ptr ∈ s.live))]})

def newFile (buf : ℕ) : File where
  stream := {bufMode := .newline, buf := buf, bufSize := bufsiz, num := 0, mem := fun _=>0, out := [], errno := 0}
  bufForeign := false

/-- The part of `fopen` after `open`, with the answers of `malloc`. -/
def fopen (ptr ptr' : ℕ) : Exec Program ℕ := do
  let f ← malloc ptr
  let buf ← malloc ptr'
  modify (fun s=>{s with file := update s.file f (newFile buf), opened := f::s.opened})
  return f

def freeBuf (f : ℕ) : Exec Program Unit := do
  let s ← get
  if !(s.file f).bufForeign then free (s.file f).stream.buf else return

def fclose (f : ℕ) : Exec Program Unit := do
  freeBuf f
  free f
  modify (fun s=>{s with opened := s.opened.filter (· ≠ f)})

def setbuf (f buf : ℕ) : Exec Program Unit := do
  freeBuf f
  modify (fun s=>{s with
    file := update s.file f {stream := {(s.file f).stream with buf := buf}, bufForeign := true}})

/-- Run a function of the library on a stream. -/
def onFile {α : Type} (f : ℕ) (x : Exec Stream α) : Exec Program α :=
  zoom (fun s=>{(s.file f).stream with mem := s.mem}) (fun t s=>{s with
    mem := t.mem
    file := update s.file f ⟨t,(s.file f).bufForeign⟩}) x

/-- The answers of the kernel and of `malloc` are part of a call; `fopen` has none where `open` fails. -/
inductive Action
  | fopen (answers : Option (ℕ × ℕ))
  | setbuf (f buf : ℕ)
  | fwrite (f : ℕ) (accept : List UInt8 → ℤ) (ptr : List UInt8) (size nmemb : ℕ)
  | fflush (f : ℕ) (accept : List UInt8 → ℤ)
  | fclose (f : ℕ)

def Action.run : Action → Exec Program Unit
  | .fopen none => return
  | .fopen (some (ptr,ptr')) => do let _ ← Buffers.fopen ptr ptr'
  | .setbuf f buf => Buffers.setbuf f buf
  | .fwrite f accept ptr size nmemb => do let _ ← onFile f (Libc.fwrite accept ptr size nmemb)
  | .fflush f accept => do let _ ← onFile f (Libc.fflush accept)
  | .fclose f => Buffers.fclose f

inductive Std
  | stdin
  | stdout
  | stderr

/-- Where the static streams and their buffers are. -/
structure Image where
  file : Std → ℕ
  buf : Std → ℕ

namespace Image
variable (im : Image)

def Static (p : ℕ) : Prop := ∃ i, p=im.file i ∨ p=im.buf i

def init (mem : Mem) : Program where
  file p := newFile (im.buf (if p=im.file .stdin then .stdin else if p=im.file .stdout then .stdout else .stderr))
  mem := mem
  opened := [im.file .stdin,im.file .stdout,im.file .stderr]
  live := []
  freed := []

/-- Closed streams are not used, and `malloc` answers with pointers that are not in use. -/
def Allowed (s : Program) : Action → Prop
  | .fopen none => True
  | .fopen (some (ptr,ptr')) =>
    ptr ∉ s.live ∧ ptr' ∉ s.live ∧ ptr≠ptr' ∧ ¬im.Static ptr ∧ ¬im.Static ptr'
  | .setbuf f _ => f ∈ s.opened
  | .fwrite f _ _ _ _ => f ∈ s.opened
  | .fflush f _ => f ∈ s.opened
  | .fclose f => f ∈ s.opened

inductive Run (mem : Mem) : List Action → Program → Prop
  | nil : Run mem [] (im.init mem)
  | snoc {acts : List Action} {s t : Program} {a : Action} (h : Run mem acts s) (ha : im.Allowed s a)
      (ht : a.run s=.ok () t) : Run mem (acts++[a]) t

/-- A static stream is closed, or is to take another buffer. -/
def OnStatic : Action → Prop
  | .setbuf f _ => ∃ i, f=im.file i
  | .fclose f => ∃ i, f=im.file i
  | _ => False
end Image

section
variable {accept : List UInt8 → ℤ} {s : Stream} (hp : 1 ≤ s.bufSize) (hr : s.num ≤ s.bufSize)
include hp hr
theorem copyLoop_inside (hl : ∀ batch i, locate batch=some i → i<batch.length)
    (data : List UInt8) : Returns (copyLoop accept locate (data.length+1) false data) s (fun _ t=>Inside s t) := by
  have hall : ∀ _ batch : List UInt8, True → locate batch=none → True := fun _ _ _ _=>trivial
  exact (copyLoop_spec hl trivial hall hp hr (fun _=>trivial) (Nat.lt_succ_self _)).imp (fun _ _ h=>h.1)

theorem fwrite_inside (ptr : List UInt8) (size nmemb : ℕ) :
    Returns (Libc.fwrite accept ptr size nmemb) s (fun _ t=>Inside s t) := by
  rw [Libc.fwrite,Returns]
  refine Ensures.ite (fun _=>?_) (fun _=>?_)
  · rw [wp_pure]
    exact ⟨rfl,rfl,hr,fun _ _=>rfl⟩
  rw [wp_bind,wp_get]
  cases s.bufMode with
  | flush =>
    simp only [fwriteFlush,write,wp_bind,wp_modify,wp_pure]
    refine Ensures.ite (fun _=>?_) (fun _=>?_)
    all_goals
      simp only [wp_bind,wp_modify,wp_pure]
      exact ⟨rfl,rfl,hr,fun _ _=>rfl⟩
  | newline =>
    simp only [fwriteNewline,wp_bind,wp_pure]
    exact copyLoop_inside hp hr (fun _ _=>memchr_lt) _
  | overflow =>
    simp only [fwriteOverflow,wp_bind,wp_pure]
    exact copyLoop_inside hp hr (fun _ _ h=>absurd h.symm (Option.some_ne_none _)) _

omit hp in
theorem fflush_inside : Returns (Libc.fflush accept) s (fun _ t=>Inside s t) := by
  simp only [Libc.fflush,Returns,wp_bind,wp_pure]
  exact (flushBuffer_spec hr).imp (fun _ _ h=>h.1)
end

section
variable {im : Image} {mem : Mem} {s t : Program} {a : Action} {acts : List Action} {f p : ℕ}

def Program.Sized (s : Program) : Prop :=
  ∀ f ∈ s.opened, (s.file f).stream.bufSize=bufsiz ∧ (s.file f).stream.num≤bufsiz

/-- The pointer is the stream, or its buffer and not foreign. -/
def Program.Owns (s : Program) (f : ℕ) (stream : Bool) (p : ℕ) : Prop :=
  if stream then p=f else (s.file f).bufForeign=false ∧ p=(s.file f).stream.buf

namespace Image

/-- The stream was opened by `fopen`. -/
def Dynamic (im : Image) (s : Program) (f : ℕ) : Prop := f ∈ s.opened ∧ ∀ i, f≠im.file i

/-- What opened streams own is live and has no other owner; what is static is not live. -/
structure Inv (im : Image) (s : Program) : Prop where
  static : ∀ p, im.Static p → p ∉ s.live
  std : ∀ i, (s.file (im.file i)).bufForeign=false ∧ im.Static (s.file (im.file i)).stream.buf
  live : ∀ f b p, im.Dynamic s f → s.Owns f b p → p ∈ s.live
  apart : ∀ f b g c p, im.Dynamic s f → im.Dynamic s g → s.Owns f b p → s.Owns g c p → f=g ∧ b=c

theorem inv_init : im.Inv (im.init mem) := by
  have hno : ∀ f, ¬im.Dynamic (im.init mem) f := by
    intro f hf
    simp only [Dynamic,init,mem_cons,not_mem_nil,or_false] at hf
    obtain ⟨rfl | rfl | rfl,hi⟩ := hf
    · exact hi .stdin rfl
    · exact hi .stdout rfl
    · exact hi .stderr rfl
  exact ⟨fun _ _=>not_mem_nil,fun i=>⟨rfl,_,.inr rfl⟩,fun f _ _ hf=>absurd hf (hno f),
    fun f _ _ _ _ hf=>absurd hf (hno f)⟩

theorem Inv.of_subset (h : im.Inv s) (hs : ∀ i, (t.file (im.file i)).bufForeign=(s.file (im.file i)).bufForeign ∧
      (t.file (im.file i)).stream.buf=(s.file (im.file i)).stream.buf) (hl : t.live ⊆ s.live)
    (ho : ∀ f b p, im.Dynamic t f → t.Owns f b p → im.Dynamic s f ∧ s.Owns f b p ∧ p ∈ t.live) : im.Inv t where
  static p hp hm := h.static p hp (hl hm)
  std i := by
    rw [(hs i).1,(hs i).2]
    exact h.std i
  live f b p hf hp := (ho f b p hf hp).2.2
  apart f b g c p hf hg hp hq := by
    obtain ⟨hf,hp,-⟩ := ho f b p hf hp
    obtain ⟨hg,hq,-⟩ := ho g c p hg hq
    exact h.apart f b g c p hf hg hp hq

/-- What a call on streams with buffers of the full size does. -/
structure Step (im : Image) (a : Action) (s t : Program) : Prop where
  sized : t.Sized
  freed : s.freed ⊆ t.freed
  inv : im.Inv s → ¬im.OnStatic a → im.Inv t ∧ ∀ x ∈ t.freed, x ∈ s.freed ∨ x.2=true
  static : im.Inv s → im.OnStatic a → ∃ x ∈ t.freed, x.2=false

theorem onFile_spec (im : Image) (hf : f ∈ s.opened) (hz : s.Sized)
    (hx : ∀ u : Stream, 1≤u.bufSize → u.num≤u.bufSize → Returns x u (fun _ v=>Inside u v)) :
    Returns (onFile f x) s (fun _ t=>t.Sized ∧ t.freed=s.freed ∧ (im.Inv s → im.Inv t) ∧
      ∀ x, x<(s.file f).stream.buf ∨ (s.file f).stream.buf+bufsiz≤x → t.mem x=s.mem x) := by
  obtain ⟨hsz,hnum⟩ := hz f hf
  rw [onFile,Returns,wp_zoom]
  apply (hx {(s.file f).stream with mem := s.mem} (by simp [hsz,bufsiz]) (hsz▸hnum)).imp
  intro _ u hu
  have hrm := hu.bufSize▸hu.room
  rw [hsz] at hrm
  have hfl : ∀ g, (update s.file f ⟨u,(s.file f).bufForeign⟩ g).bufForeign=(s.file g).bufForeign ∧
      (update s.file f ⟨u,(s.file f).bufForeign⟩ g).stream.buf=(s.file g).stream.buf := by
    intro g
    rcases eq_or_ne g f with rfl | hgf
    · rw [update_self]
      exact ⟨rfl,hu.buf⟩
    · rw [update_of_ne hgf]
      exact ⟨rfl,rfl⟩
  refine ⟨fun g hg=>?_,rfl,fun hi=>hi.of_subset (fun i=>hfl _) (Subset.refl _) ?_,hsz▸hu.outside⟩
  · rcases eq_or_ne g f with rfl | hgf
    · simp only [update_self]
      exact ⟨hu.bufSize.trans hsz,hrm⟩
    · simp only [update_of_ne hgf]
      exact hz g hg
  · intro g b p hg hp
    have hp' : s.Owns g b p := by
      simp only [Program.Owns,hfl] at hp
      exact hp
    exact ⟨hg,hp',hi.live g b p hg hp'⟩

theorem freeBuf_spec : Returns (freeBuf f) s (fun _ t=>t = {s with live := t.live, freed := t.freed} ∧
    (∀ p, p ∈ t.live ↔ p ∈ s.live ∧ ¬s.Owns f false p) ∧
    ∀ x, x ∈ t.freed ↔ x ∈ s.freed ∨ ∃ p, s.Owns f false p ∧ x=(p,decide (p ∈ s.live))) := by
  simp only [freeBuf,free,Returns,wp_bind,wp_get]
  refine Ensures.ite (fun h=>?_) (fun h=>?_)
  · simp only [Bool.not_eq_true'] at h
    simp [Program.Owns,h]
  · simp only [Bool.not_eq_true',Bool.not_eq_false] at h
    simp [Program.Owns,h]

theorem Inv.freed_static (h : im.Inv s) (hf : f=im.file i) :
    ∃ p, s.Owns f false p ∧ decide (p ∈ s.live)=false := by
  subst hf
  exact ⟨_,⟨(h.std i).1,rfl⟩,decide_eq_false (h.static _ (h.std i).2)⟩

theorem setbuf_step {buf : ℕ} (hf : f ∈ s.opened) (hz : s.Sized) :
    Returns (setbuf f buf) s (fun _ t=>im.Step (.setbuf f buf) s t) := by
  rw [setbuf,Returns,wp_bind]
  apply freeBuf_spec.imp
  rintro _ t ⟨ht,hlv,hfr⟩
  rw [wp_modify,ht]
  refine ⟨fun g hg=>?_,fun x hx=>(hfr x).mpr (.inl hx),fun hi hno=>?_,?_⟩
  · rcases eq_or_ne g f with rfl | hgf
    · simp only [update_self]
      exact hz g hf
    · simp only [update_of_ne hgf]
      exact hz g hg
  · have hd : im.Dynamic s f := ⟨hf,fun i hfi=>hno ⟨i,hfi⟩⟩
    refine ⟨hi.of_subset (fun i=>?_) (fun p hp=>((hlv p).mp hp).1) (fun g b p hg hp=>?_),fun x hx=>?_⟩
    · simp [update_of_ne (hd.2 i).symm]
    · have hp' : s.Owns g b p ∧ ¬(f=g ∧ false=b) := by
        cases b with
        | true => exact ⟨hp,by simp⟩
        | false =>
          rcases eq_or_ne g f with rfl | hgf
          · simp [Program.Owns] at hp
          · simp only [Program.Owns,update_of_ne hgf] at hp
            exact ⟨hp,fun h=>hgf h.1.symm⟩
      exact ⟨hg,hp'.1,(hlv p).mpr ⟨hi.live g b p hg hp'.1,fun h=>hp'.2 (hi.apart f _ g b p hd hg h hp'.1)⟩⟩
    · obtain h | ⟨p,hp,rfl⟩ := (hfr x).mp hx
      · exact .inl h
      · exact .inr (decide_eq_true (hi.live f _ p hd hp))
  · rintro hi ⟨i,hfi⟩
    obtain ⟨p,hp,hl⟩ := hi.freed_static hfi
    exact ⟨_,(hfr _).mpr (.inr ⟨p,hp,rfl⟩),hl⟩

theorem fclose_step (hf : f ∈ s.opened) (hz : s.Sized) :
    Returns (fclose f) s (fun _ t=>im.Step (.fclose f) s t) := by
  rw [fclose,Returns,wp_bind]
  apply freeBuf_spec.imp
  rintro _ t ⟨ht,hlv,hfr⟩
  simp only [free,wp_bind,wp_modify]
  rw [ht]
  refine ⟨fun g hg=>hz g (mem_filter.mp hg).1,fun x hx=>?_,fun hi hno=>?_,?_⟩
  · exact mem_append_left _ ((hfr x).mpr (.inl hx))
  · have hd : im.Dynamic s f := ⟨hf,fun i hfi=>hno ⟨i,hfi⟩⟩
    refine ⟨hi.of_subset (fun i=>⟨rfl,rfl⟩) (fun p hp=>?_) (fun g b p hg hp=>?_),fun x hx=>?_⟩
    · exact ((hlv p).mp (mem_filter.mp hp).1).1
    · obtain ⟨hgs,hgf⟩ := mem_filter.mp hg.1
      have hgf : f≠g := fun h=>of_decide_eq_true hgf h.symm
      have hno' : ∀ c, ¬s.Owns f c p := fun c h=>hgf (hi.apart f c g b p hd ⟨hgs,hg.2⟩ h hp).1
      refine ⟨⟨hgs,hg.2⟩,hp,mem_filter.mpr ⟨(hlv p).mpr ⟨?_,hno' false⟩,decide_eq_true (hno' true)⟩⟩
      exact hi.live g b p ⟨hgs,hg.2⟩ hp
    · rcases mem_append.mp hx with hx | hx
      · obtain h | ⟨p,hp,rfl⟩ := (hfr x).mp hx
        · exact .inl h
        · exact .inr (decide_eq_true (hi.live f _ p hd hp))
      · -- the buffer is not the stream itself
        have hsl : ¬s.Owns f false f := fun h=>Bool.false_ne_true (hi.apart f false f true f hd hd h rfl).2
        rw [mem_singleton.mp hx]
        exact .inr (decide_eq_true ((hlv f).mpr ⟨hi.live f true f hd rfl,hsl⟩))
  · rintro hi ⟨i,hfi⟩
    obtain ⟨p,hp,hl⟩ := hi.freed_static hfi
    exact ⟨_,mem_append_left _ ((hfr _).mpr (.inr ⟨p,hp,rfl⟩)),hl⟩

theorem fopen_step (ha : im.Allowed s (.fopen (some (ptr,ptr')))) (hz : s.Sized) :
    Returns (fopen ptr ptr') s (fun _ t=>im.Step (.fopen (some (ptr,ptr'))) s t) := by
  obtain ⟨hl,hl',hne,hs,hs'⟩ := ha
  simp only [fopen,malloc,Returns,wp_bind,wp_modify,wp_pure]
  generalize ht : ({s with file := _, opened := _, live := _} : Program)=t
  have hold : ∀ g b p, im.Dynamic t g → t.Owns g b p →
      g=ptr ∧ p=(if b then ptr else ptr') ∨ im.Dynamic s g ∧ s.Owns g b p := by
    subst ht
    intro g b p hg hp
    rcases eq_or_ne g ptr with rfl | hgf
    · cases b <;> simp_all [Program.Owns,newFile]
    · simp only [Program.Owns,update_of_ne hgf] at hp
      exact .inr ⟨⟨(mem_cons.mp hg.1).resolve_left hgf,hg.2⟩,hp⟩
  have hnew : ∀ b : Bool, (if b then ptr else ptr') ∉ s.live := by
    intro b
    cases b <;> assumption
  have hlv : ∀ p, p ∈ t.live ↔ p=ptr' ∨ p=ptr ∨ p ∈ s.live := by simp [← ht]
  refine ⟨?_,ht▸Subset.refl _,fun hi _=>⟨⟨?_,?_,?_,?_⟩,ht▸fun x hx=>.inl hx⟩,fun _ h=>h.elim⟩
  · subst ht
    intro g hg
    rcases eq_or_ne g ptr with rfl | hgf
    · simp only [update_self]
      exact ⟨rfl,Nat.zero_le _⟩
    · simp only [update_of_ne hgf]
      exact hz g ((mem_cons.mp hg).resolve_left hgf)
  · intro p hp hm
    obtain rfl | rfl | hm := (hlv p).mp hm
    · exact hs' hp
    · exact hs hp
    · exact hi.static p hp hm
  · subst ht
    intro i
    have hne : im.file i≠ptr := fun h=>hs ⟨i,.inl h.symm⟩
    simp only [update_of_ne hne]
    exact hi.std i
  · intro g b p hg hp
    obtain ⟨rfl,rfl⟩ | ⟨hg,hp⟩ := hold g b p hg hp
    · cases b <;> simp [hlv]
    · exact (hlv p).mpr (.inr (.inr (hi.live g b p hg hp)))
  · intro g b g' c p hg hg' hp hp'
    obtain ⟨rfl,rfl⟩ | ⟨hg,hp⟩ := hold g b p hg hp
    all_goals obtain ⟨rfl,h⟩ | ⟨hg',hp'⟩ := hold g' c _ hg' hp'
    · refine ⟨rfl,?_⟩
      cases b <;> cases c <;> simp_all
    · exact absurd (hi.live _ _ _ hg' hp') (hnew b)
    · exact absurd (hi.live _ _ _ hg hp) (h▸hnew c)
    · exact hi.apart g b g' c p hg hg' hp hp'

theorem run_step (ha : im.Allowed s a) (hz : s.Sized) : Returns a.run s (fun _ t=>im.Step a s t) := by
  have hkp : ∀ {t : Program} {a : Action}, ¬im.OnStatic a → t.Sized ∧ t.freed=s.freed ∧ (im.Inv s → im.Inv t) →
      im.Step a s t := fun ha ⟨hz,hf,hi⟩ =>
    ⟨hz,fun x hx=>hf▸hx,fun h _=>⟨hi h,fun x hx=>.inl (hf▸hx)⟩,fun _ h=>absurd h ha⟩
  cases a with
  | fopen answers =>
    rcases answers with _ | ⟨ptr,ptr'⟩
    · rw [Action.run,Returns,wp_pure]
      exact hkp (a := .fopen none) id ⟨hz,rfl,id⟩
    · simp only [Action.run,Returns,wp_bind,wp_pure]
      exact fopen_step ha hz
  | setbuf f buf => exact setbuf_step ha hz
  | fwrite f accept ptr size nmemb =>
    simp only [Action.run,Returns,wp_bind,wp_pure]
    exact (onFile_spec im ha hz (fun _ hp hr=>fwrite_inside hp hr ptr size nmemb)).imp
      (fun _ t ht=>hkp id ⟨ht.1,ht.2.1,ht.2.2.1⟩)
  | fflush f accept =>
    simp only [Action.run,Returns,wp_bind,wp_pure]
    exact (onFile_spec im ha hz (fun _ _ hr=>fflush_inside hr)).imp
      (fun _ t ht=>hkp id ⟨ht.1,ht.2.1,ht.2.2.1⟩)
  | fclose f => exact fclose_step ha hz

theorem Run.spec (h : im.Run mem acts s) : s.Sized ∧
    (im.Inv s ∧ (∀ x ∈ s.freed, x.2=true) ∧ (∀ a ∈ acts, ¬im.OnStatic a) ∨
      (∃ x ∈ s.freed, x.2=false) ∧ ∃ a ∈ acts, im.OnStatic a) := by
  induction h with
  | nil =>
    refine ⟨?_,.inl ⟨inv_init,by simp [init],by simp⟩⟩
    intro f hf
    exact ⟨rfl,Nat.zero_le _⟩
  | snoc h ha ht ih =>
    obtain ⟨hz,ih⟩ := ih
    have hsp := (run_step ha hz).of_ok ht
    refine ⟨hsp.sized,?_⟩
    obtain ⟨hi,hfr,hno⟩ | ⟨⟨x,hx,hbad⟩,a,ha,hst⟩ := ih
    · rename_i a
      by_cases hst : im.OnStatic a
      · exact .inr ⟨hsp.static hi hst,a,by simp,hst⟩
      · obtain ⟨hi',hf⟩ := hsp.inv hi hst
        refine .inl ⟨hi',fun x hx=>(hf x hx).elim (hfr x) id,fun b hb=>?_⟩
        rcases mem_append.mp hb with hb | hb
        · exact hno b hb
        · rwa [mem_singleton.mp hb]
    · exact .inr ⟨⟨x,hsp.freed hx,hbad⟩,a,mem_append_left _ ha,hst⟩
end Image

theorem frees_only_live_iff (h : im.Run mem acts s) :
    ((∀ x ∈ s.freed, x.2=true) ↔ ∀ a ∈ acts, ¬im.OnStatic a) ∧
      ∀ f ∈ s.opened, ∀ accept ptr size nmemb, Returns (onFile f (Libc.fwrite accept ptr size nmemb)) s
        (fun _ t=>∀ x, x<(s.file f).stream.buf ∨ (s.file f).stream.buf+bufsiz≤x → t.mem x=s.mem x) := by
  obtain ⟨hz,h⟩ := h.spec
  refine ⟨?_,fun f hf accept ptr size nmemb=>?_⟩
  · obtain ⟨-,hfr,hno⟩ | ⟨⟨x,hx,hbad⟩,a,ha,hst⟩ := h
    · exact ⟨fun _=>hno,fun _=>hfr⟩
    · refine ⟨fun h=>?_,fun h=>absurd hst (h a ha)⟩
      rw [h x hx] at hbad
      cases hbad
  · exact (Image.onFile_spec im hf hz (fun _ hp hr=>fwrite_inside hp hr ptr size nmemb)).imp
      (fun _ _ ht=>ht.2.2.2)

/-- The streams and their buffers in a row. -/
def exampleImage : Image where
  file i := 4096+32*i.ctorIdx
  buf i := 8192+bufsiz*i.ctorIdx

theorem exampleImage_static (h : exampleImage.Static p) : p<12000 := by
  obtain ⟨i,rfl | rfl⟩ := h
  all_goals cases i <;> decide

theorem frees_only_live_iff_closed :
    ∃ s, exampleImage.Run (fun _=>0) [.fopen (some (16384,20480)),.fclose 16384] s ∧
      ((∀ x ∈ s.freed, x.2=true) ↔ ∀ a ∈ [Action.fopen (some (16384,20480)),.fclose 16384], ¬exampleImage.OnStatic a) ∧
      ∀ f ∈ s.opened, ∀ accept ptr size nmemb, Returns (onFile f (Libc.fwrite accept ptr size nmemb)) s
        (fun _ t=>∀ x, x<(s.file f).stream.buf ∨ (s.file f).stream.buf+bufsiz≤x → t.mem x=s.mem x) := by
  have hnew : ∀ p, 12000≤p → ¬exampleImage.Static p := fun p hp h=>absurd (exampleImage_static h) (not_lt.mpr hp)
  have ho : exampleImage.Run (fun _=>0) [.fopen (some (16384,20480))] _ :=
    .snoc .nil ⟨not_mem_nil,not_mem_nil,by decide,hnew _ (by decide),hnew _ (by decide)⟩ rfl
  have hrun : exampleImage.Run (fun _=>0) [.fopen (some (16384,20480)),.fclose 16384] _ :=
    .snoc ho mem_cons_self rfl
  exact ⟨_,hrun,frees_only_live_iff hrun⟩

/-- The first buffer given to `stdout` frees the static one. -/
theorem setbuf_frees_static : ∃ s, exampleImage.Run (fun _=>0) [.setbuf (exampleImage.file .stdout) 16384] s ∧
    (exampleImage.buf .stdout,false) ∈ s.freed :=
  ⟨_,.snoc .nil (mem_cons_of_mem _ mem_cons_self) rfl,mem_singleton_self _⟩
end

end Yaos2.Libc.Buffers
