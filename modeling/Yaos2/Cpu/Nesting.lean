import Yaos2.Debug
import Yaos2.Foundation.Brackets

/-! # Masking interrupts, disabling preemption and taking spinlocks

The other CPUs take and release locks as they like. The counters of the source are signed, so no
overflow is defined; they are integers here. -/
namespace Yaos2.Cpu.Nesting
open Foundation Function List

def cpuSpinlockInvalidCpu : ℤ := -1

/-- The interrupt flag of the CPU and the fields of its `struct x86_cpu` that go with it. -/
@[ext]
structure InterruptState where
  iflag : Bool
  intEnabled : Bool
  cliStack : ℤ
  preemptDisabled : ℤ
  deriving DecidableEq

structure Spinlock where
  locked : Bool
  num : ℤ
  cpu : ℤ
  deriving DecidableEq

structure State extends InterruptState where
  nofCpus : ℕ
  /-- The number of this CPU. -/
  cpu : ℕ
  lock : ℕ → Spinlock
  /-- What the other CPUs make of the locks that this one does not hold, each time it looks. -/
  others : ℕ → ℕ → Spinlock
  time : ℕ

def State.Holds (s : State) (l : ℕ) : Prop := (s.lock l).locked=true ∧ (s.lock l).cpu=s.cpu

instance (s : State) (l : ℕ) : Decidable (s.Holds l) := inferInstanceAs (Decidable (_ ∧ _))

def State.setLock (s : State) (l : ℕ) (k : Spinlock) : State := {s with lock := update s.lock l k}

abbrev CpuM := Exec State

def cpuForceCli : CpuM Unit := modify ({ · with iflag := false})

def cpuForceSti : CpuM Unit := modify ({ · with iflag := true})

def pushNoInterrupts : CpuM Unit := do
  let eflags := (← get).iflag
  if (← get).nofCpus=0 then
    kassert "(eflags & EFLAGS_IF) == 0" (eflags=false)
  else
    cpuForceCli
    if (← get).cliStack=0 then modify ({ · with intEnabled := eflags})
    modify fun s=>{s with cliStack := s.cliStack+1}

def popNoInterrupts : CpuM Unit := do
  let eflags := (← get).iflag
  if (← get).nofCpus=0 then
    kassert "(eflags & EFLAGS_IF) == 0" (eflags=false)
  else
    panicIf (eflags=true) "pop_no_interrupts(): interrupts enabled"
    modify fun s=>{s with cliStack := s.cliStack-1}
    panicIf ((← get).cliStack<0) "pop_no_interrupts(): stack underflow"
    if (← get).cliStack=0 ∧ (← get).intEnabled=true then cpuForceSti

def preemptDisable : CpuM Unit := do
  if (← get).nofCpus=0 then
    kassert "(cpu_get_eflags() & EFLAGS_IF) == 0" ((← get).iflag=false)
  else
    pushNoInterrupts
    modify fun s=>{s with preemptDisabled := s.preemptDisabled+1}
    popNoInterrupts

def preemptEnable : CpuM Unit := do
  if (← get).nofCpus=0 then
    kassert "(cpu_get_eflags() & EFLAGS_IF) == 0" ((← get).iflag=false)
  else
    pushNoInterrupts
    modify fun s=>{s with preemptDisabled := s.preemptDisabled-1}
    panicIf ((← get).preemptDisabled<0) "preempt_enable(): underflow"
    popNoInterrupts

/-- Time passes for the other CPUs. What this one holds they leave alone. -/
def interfere : CpuM Unit := modify fun s =>
  {s with
    lock := fun l=>if s.Holds l then s.lock l else s.others s.time l
    time := s.time+1}

def asmXchg (l : ℕ) : CpuM Bool := do
  let old := (← get).lock l
  modify (·.setLock l {old with locked := true})
  pure old.locked

/-- The other CPUs have released the lock. -/
def letGo (l : ℕ) : CpuM Unit := do
  interfere
  modify fun s=>s.setLock l {s.lock l with locked := false}

/-- `spin_interruptible`; the lock is free after at most `tries` failed attempts. -/
def spinInterruptible (l : ℕ) : ℕ → CpuM Unit
  | 0 => do
    cpuForceCli
    letGo l
    let _ ← asmXchg l
  | tries+1 => do
    cpuForceCli
    interfere
    if (← asmXchg l)=true then
      cpuForceSti
      spinInterruptible l tries

def spinUninterruptible (l : ℕ) : ℕ → CpuM Unit
  | 0 => do
    letGo l
    let _ ← asmXchg l
  | tries+1 => do
    interfere
    if (← asmXchg l)=true then
      spinUninterruptible l tries

/-- Spins with interrupts enabled if they were so before the call. -/
def spin (l : ℕ) (eflags : Bool) (tries : ℕ) : CpuM Unit :=
  if eflags=true then spinInterruptible l tries else spinUninterruptible l tries

def cpuSpinlockHeld (l : ℕ) : CpuM Bool := do
  pushNoInterrupts
  interfere
  let mut ret := ((← get).lock l).locked
  if ret=true then
    interfere
    ret := ((← get).lock l).cpu=(← get).cpu
  popNoInterrupts
  pure ret

def cpuSpinlockAcquire (l tries : ℕ) : CpuM Unit := do
  let eflags := (← get).iflag
  preemptDisable
  pushNoInterrupts
  if ← cpuSpinlockHeld l then
    modify fun s=>s.setLock l {s.lock l with num := (s.lock l).num+1}
  else
    spin l eflags tries
    modify fun s=>s.setLock l {s.lock l with num := 1}
    modify fun s=>s.setLock l {s.lock l with cpu := s.cpu}
  popNoInterrupts

def cpuSpinlockRelease (l : ℕ) : CpuM Unit := do
  pushNoInterrupts
  interfere
  panicIf (((← get).lock l).cpu=cpuSpinlockInvalidCpu)
    "cpu_spinlock_release(): called on an unheld spinlock"
  let held ← cpuSpinlockHeld l
  panicIf (held=false) "cpu_spinlock_release(): called on an unheld spinlock"
  modify fun s=>s.setLock l {s.lock l with num := (s.lock l).num-1}
  if ¬ 0<((← get).lock l).num then
    modify fun s=>s.setLock l {s.lock l with cpu := cpuSpinlockInvalidCpu}
    modify fun s=>s.setLock l {s.lock l with locked := false}
  popNoInterrupts
  preemptEnable

namespace InterruptState

def pushed (i : InterruptState) : InterruptState :=
  {i with
    iflag := false
    intEnabled := if i.cliStack=0 then i.iflag else i.intEnabled
    cliStack := i.cliStack+1}

def popped (i : InterruptState) : InterruptState :=
  {i with
    iflag := decide (i.cliStack=1) && i.intEnabled
    cliStack := i.cliStack-1}

/-- What is left of a push and its pop. -/
def touched (i : InterruptState) : InterruptState :=
  {i with intEnabled := if i.cliStack=0 then i.iflag else i.intEnabled}

/-- The flag is clear inside of every push. -/
structure Sound (i : InterruptState) : Prop where
  nonneg : 0 ≤ i.cliStack
  masked : 0 < i.cliStack → i.iflag=false

variable {i : InterruptState}

theorem Sound.pushed (h : i.Sound) : i.pushed.Sound :=
  ⟨by have := h.nonneg; simp only [InterruptState.pushed]; omega,fun _=>rfl⟩

theorem Sound.touched (h : i.Sound) : i.touched.Sound := ⟨h.nonneg,h.masked⟩

theorem Sound.popped_pushed (h : i.Sound) (p : ℤ) :
    {i.pushed with preemptDisabled := p}.popped = {i.touched with preemptDisabled := p} := by
  have hn := h.nonneg
  by_cases hz : i.cliStack=0
  · simp [InterruptState.pushed,popped,InterruptState.touched,hz]
  · have hm := h.masked (by omega)
    simp [InterruptState.pushed,popped,InterruptState.touched,hz,hm]

theorem pushed_touched (h : i.Sound) : i.pushed.touched=i.pushed := by
  have hne : i.cliStack+1≠0 := by
    have := h.nonneg
    omega
  simp [pushed,touched,hne]

theorem touched_touched (i : InterruptState) : i.touched.touched=i.touched := by
  by_cases hz : i.cliStack=0 <;> simp [touched,hz]
end InterruptState

section

variable {s t : State} {i : InterruptState} {l : ℕ} {α β : Type} {Q : Unit → State → Prop} {E : State → Prop}

theorem wp_pushNoInterrupts (hn : s.nofCpus≠0) :
    Ensures pushNoInterrupts s Q E ↔ Q () {s with toInterruptState := s.pushed} := by
  by_cases hz : s.cliStack=0 <;>
    simp [pushNoInterrupts,cpuForceCli,hn,hz,InterruptState.pushed]

theorem wp_popNoInterrupts (hn : s.nofCpus≠0) (hfl : s.iflag=false) (hcli : 0<s.cliStack) :
    Ensures popNoInterrupts s Q E ↔ Q () {s with toInterruptState := s.popped} := by
  have hun : ¬ s.cliStack-1<0 := by omega
  by_cases hls : s.cliStack=1
  · cases he : s.intEnabled <;>
      simp [popNoInterrupts,cpuForceSti,hn,hfl,hls,wp_panicIf,he,InterruptState.popped]
  · have hmr : ¬ s.cliStack-1=0 := by omega
    simp [popNoInterrupts,hn,hfl,hls,hun,hmr,wp_panicIf,InterruptState.popped]

theorem wp_popNoInterrupts_pushed (hi : i.Sound) (hn : s.nofCpus≠0)
    (hs : s.toInterruptState = {i.pushed with preemptDisabled := p})
    (hQ : Q () {s with toInterruptState := {i.touched with preemptDisabled := p}}) :
    Ensures popNoInterrupts s Q E := by
  have hfl : s.iflag=false := by
    rw [hs]
    rfl
  have hcli : 0<s.cliStack := by
    have hng := hi.nonneg
    rw [hs]
    simp only [InterruptState.pushed]
    omega
  rwa [wp_popNoInterrupts hn hfl hcli,hs,hi.popped_pushed]

/-- The CPU has `n l` acquisitions of `l` to release, and no other CPU enters its number. -/
structure Tracks (n : ℕ → ℕ) (s : State) : Prop where
  enumerated : s.nofCpus≠0
  others : ∀ time l, (s.others time l).cpu≠s.cpu
  held : ∀ l, 0<n l → s.lock l=⟨true,n l,s.cpu⟩
  free : ∀ l, n l=0 → ¬ s.Holds l

variable {n : ℕ → ℕ}

section
variable (h : Tracks n s)
include h
theorem Tracks.holds_iff : s.Holds l ↔ 0<n l := by
  constructor
  · intro hl
    by_contra hz
    exact h.free l (by omega) hl
  · intro hl
    rw [State.Holds,h.held l hl]
    exact ⟨rfl,rfl⟩

theorem Tracks.interrupts (i : InterruptState) : Tracks n {s with toInterruptState := i} :=
  ⟨h.enumerated,h.others,h.held,h.free⟩

theorem Tracks.setLock {k : Spinlock} {m : ℕ} (hhl : 0 < m → k=⟨true,m,s.cpu⟩)
    (hf : m=0 → ¬ (k.locked=true ∧ k.cpu=s.cpu)) :
    Tracks (update n l m) (s.setLock l k) := by
  refine ⟨h.enumerated,h.others,fun j hj=>?_,fun j hj=>?_⟩
  · by_cases hjl : j=l
    · simp_all [State.setLock]
    · rw [update_of_ne hjl] at hj ⊢
      simpa [State.setLock,hjl] using h.held j hj
  · by_cases hjl : j=l
    · simp_all [State.Holds,State.setLock]
    · rw [update_of_ne hjl] at hj
      simpa [State.Holds,State.setLock,hjl] using h.free j hj

theorem Tracks.interfere :
    Returns interfere s fun _ t=>Tracks n t ∧ t.toInterruptState=s.toInterruptState ∧
      ((t.lock l).cpu=t.cpu ↔ 0<n l) := by
  simp only [Nesting.interfere,wp_modify]
  have hcpu : ∀ j, n j=0 → (if s.Holds j then s.lock j else s.others s.time j).cpu≠s.cpu := by
    intro j hj
    rw [if_neg (h.free j hj)]
    exact h.others s.time j
  refine ⟨⟨h.enumerated,h.others,fun j hj=>?_,fun j hj=>?_⟩,trivial,?_⟩
  · simpa [if_pos (h.holds_iff.mpr hj)] using h.held j hj
  · exact fun hhl=>hcpu j hj hhl.2
  · constructor
    · intro heq
      by_contra hzr
      exact hcpu l (by omega) heq
    · intro hl
      simp only [if_pos (h.holds_iff.mpr hl),h.held l hl]

theorem preemptDisable_spec (hs : s.Sound) : Returns preemptDisable s fun _ t=>Tracks n t ∧
      t.toInterruptState = {s.touched with preemptDisabled := s.preemptDisabled+1} := by
  simp only [preemptDisable,wp_bind,wp_get,h.enumerated,if_false,wp_pushNoInterrupts h.enumerated,wp_modify]
  exact wp_popNoInterrupts_pushed hs h.enumerated rfl ⟨h.interrupts _,rfl⟩

theorem preemptEnable_spec (hs : s.Sound) (hpos : 0<s.preemptDisabled) :
    Returns preemptEnable s fun _ t=>Tracks n t ∧
      t.toInterruptState = {s.touched with preemptDisabled := s.preemptDisabled-1} := by
  have hu : ¬ s.pushed.preemptDisabled-1<0 := by
    change ¬ s.preemptDisabled-1<0
    omega
  simp only [preemptEnable,wp_bind,wp_get,h.enumerated,if_false,
    wp_pushNoInterrupts h.enumerated,wp_modify,wp_panicIf hu]
  exact wp_popNoInterrupts_pushed hs h.enumerated rfl ⟨h.interrupts _,rfl⟩

theorem cpuSpinlockHeld_spec (hs : s.Sound) :
    Returns (cpuSpinlockHeld l) s fun r t=>r=decide (0<n l) ∧ Tracks n t ∧
      t.toInterruptState=s.touched := by
  simp only [cpuSpinlockHeld,wp_bind,wp_pushNoInterrupts h.enumerated,wp_get]
  apply (h.interrupts s.pushed).interfere (l := l) |>.imp
  rintro _ t ⟨ht,hti,hcpu⟩
  cases hlc : (t.lock l).locked with
  | true =>
    simp only [if_true,wp_bind,wp_get,wp_pure]
    apply (ht.interfere (l := l)).imp
    rintro _ u ⟨hu,hui,huc⟩
    have hret : decide ((u.lock l).cpu=u.cpu)=decide (0<n l) := decide_eq_decide.mpr huc
    exact wp_popNoInterrupts_pushed hs hu.enumerated (hui.trans hti) ⟨hret,hu.interrupts _,rfl⟩
  | false =>
    have hret : false=decide (0<n l) := by
      rw [eq_comm,decide_eq_false_iff_not]
      intro hpos
      rw [(ht.holds_iff.mpr hpos).1] at hlc
      cases hlc
    simp only [Bool.false_eq_true,if_false,wp_bind,wp_pure]
    exact wp_popNoInterrupts_pushed hs ht.enumerated hti ⟨hret,ht.interrupts _,rfl⟩

theorem Tracks.setLocked (hf : n l=0) (hcpu : (s.lock l).cpu≠s.cpu) (b : Bool) :
    Tracks n (s.setLock l {s.lock l with locked := b}) := by
  have hset := h.setLock (l := l) (k := {s.lock l with locked := b}) (m := 0)
    (fun hpos=>absurd hpos (lt_irrefl 0)) (fun _ hhl=>hcpu hhl.2)
  rwa [← hf,update_eq_self] at hset

theorem asmXchg_spec (hf : n l=0) (hcpu : (s.lock l).cpu≠s.cpu) :
    Returns (asmXchg l) s fun _ t=>Tracks n t ∧ (t.lock l).locked=true ∧
      t.toInterruptState=s.toInterruptState := by
  simp only [asmXchg,wp_bind,wp_get,wp_modify,wp_pure]
  exact ⟨h.setLocked hf hcpu true,by simp [State.setLock],rfl⟩

theorem interfere_spec (hf : n l=0) : Returns interfere s fun _ t=>Tracks n t ∧ (t.lock l).cpu≠t.cpu ∧
      t.toInterruptState=s.toInterruptState := by
  apply (h.interfere (l := l)).imp
  rintro _ t ⟨ht,hti,hcpu⟩
  exact ⟨ht,fun heq=>by have := hcpu.mp heq; omega,hti⟩

theorem letGo_spec (hf : n l=0) : Returns (letGo l) s fun _ t=>Tracks n t ∧ (t.lock l).cpu≠t.cpu ∧
      t.toInterruptState=s.toInterruptState := by
  simp only [letGo,wp_bind,wp_modify]
  apply (interfere_spec h hf).imp
  rintro _ t ⟨ht,hcpu,hti⟩
  exact ⟨ht.setLocked hf hcpu false,by simpa [State.setLock] using hcpu,hti⟩

theorem spinInterruptible_spec (hfr : n l=0) (tries : ℕ) :
    Returns (spinInterruptible l tries) s fun _ t=>Tracks n t ∧ (t.lock l).locked=true ∧
      t.toInterruptState = {s.toInterruptState with iflag := false} := by
  induction tries generalizing s with
  | zero =>
    simp only [spinInterruptible,cpuForceCli,wp_bind,wp_modify,wp_pure]
    apply (letGo_spec (h.interrupts _) hfr).imp
    rintro _ t ⟨ht,hcpu,hti⟩
    apply (asmXchg_spec ht hfr hcpu).imp
    rintro _ u ⟨hu,hlc,hui⟩
    exact ⟨hu,hlc,hui.trans hti⟩
  | succ tries ih =>
    simp only [spinInterruptible,cpuForceCli,cpuForceSti,wp_bind,wp_modify]
    apply (interfere_spec (h.interrupts _) hfr).imp
    rintro _ t ⟨ht,hcpu,hti⟩
    apply (asmXchg_spec ht hfr hcpu).imp
    rintro r u ⟨hu,hlc,hui⟩
    cases r with
    | false =>
      simpa [Bool.false_eq_true,if_false,wp_pure] using ⟨hu,hlc,hui.trans hti⟩
    | true =>
      simp only [if_true,wp_bind,wp_modify]
      apply (ih (hu.interrupts _)).imp
      rintro _ v ⟨hv,hvl,hvi⟩
      refine ⟨hv,hvl,hvi.trans ?_⟩
      rw [hui,hti]

theorem spinUninterruptible_spec (hfr : n l=0) (tries : ℕ) :
    Returns (spinUninterruptible l tries) s fun _ t=>Tracks n t ∧ (t.lock l).locked=true ∧
      t.toInterruptState=s.toInterruptState := by
  induction tries generalizing s with
  | zero =>
    simp only [spinUninterruptible,wp_bind,wp_pure]
    apply (letGo_spec h hfr).imp
    rintro _ t ⟨ht,hcpu,hti⟩
    apply (asmXchg_spec ht hfr hcpu).imp
    rintro _ u ⟨hu,hlc,hui⟩
    exact ⟨hu,hlc,hui.trans hti⟩
  | succ tries ih =>
    simp only [spinUninterruptible,wp_bind]
    apply (interfere_spec h hfr).imp
    rintro _ t ⟨ht,hcpu,hti⟩
    apply (asmXchg_spec ht hfr hcpu).imp
    rintro r u ⟨hu,hlc,hui⟩
    cases r with
    | false =>
      simpa [Bool.false_eq_true,if_false,wp_pure] using ⟨hu,hlc,hui.trans hti⟩
    | true =>
      apply (ih hu).imp
      rintro _ v ⟨hv,hvl,hvi⟩
      exact ⟨hv,hvl,hvi.trans (hui.trans hti)⟩

theorem spin_spec (hf : n l=0) (hfl : s.iflag=false) (eflags : Bool) (tries : ℕ) :
    Returns (spin l eflags tries) s fun _ t=>Tracks n t ∧ (t.lock l).locked=true ∧
      t.toInterruptState=s.toInterruptState := by
  cases eflags with
  | false => exact spinUninterruptible_spec h hf tries
  | true =>
    have hs : {s.toInterruptState with iflag := false}=s.toInterruptState := by rw [← hfl]
    have hsp := spinInterruptible_spec h hf tries
    rwa [hs] at hsp
end

theorem setLock_setLock (k k' : Spinlock) : (s.setLock l k).setLock l k'=s.setLock l k' := by
  simp [State.setLock]

theorem setLock_lock_self (k : Spinlock) : (s.setLock l k).lock l=k := by simp [State.setLock]

theorem cpuSpinlockAcquire_spec (h : Tracks n s) (hs : s.Sound) (tries : ℕ) :
    Returns (cpuSpinlockAcquire l tries) s fun _ t=>Tracks (update n l (n l+1)) t ∧
      t.toInterruptState = {s.touched with preemptDisabled := s.preemptDisabled+1} := by
  simp only [cpuSpinlockAcquire,wp_bind,wp_get]
  apply (preemptDisable_spec h hs).imp
  rintro _ t ⟨ht,hti⟩
  have hts : t.Sound := by
    rw [hti]
    exact ⟨hs.nonneg,hs.masked⟩
  have hend : t.touched = {s.touched with preemptDisabled := s.preemptDisabled+1} := by
    rw [hti]
    exact congrArg ({ · with preemptDisabled := s.preemptDisabled+1}) s.touched_touched
  rw [wp_pushNoInterrupts ht.enumerated]
  apply (cpuSpinlockHeld_spec (ht.interrupts t.pushed) hts.pushed).imp
  rintro r u ⟨rfl,hu,hui⟩
  rw [InterruptState.pushed_touched hts] at hui
  by_cases hhl : 0<n l
  · have hset : Tracks (update n l (n l+1)) (u.setLock l {u.lock l with num := (u.lock l).num+1}) := by
      apply hu.setLock
      · simp [hu.held l hhl]
      · simp
    simp only [hhl,decide_true,if_true,wp_bind,wp_modify]
    exact wp_popNoInterrupts_pushed hts hset.enumerated hui ⟨hset.interrupts _,hend⟩
  · have hfr : n l=0 := by omega
    simp only [hhl,decide_false,Bool.false_eq_true,if_false,wp_bind,wp_modify]
    apply (spin_spec hu hfr (by rw [hui]; rfl) s.iflag tries).imp
    rintro _ v ⟨hv,hlc,hvi⟩
    have hset : Tracks (update n l (n l+1)) (v.setLock l ⟨true,1,v.cpu⟩) := by apply hv.setLock <;> simp [hfr]
    rw [setLock_setLock,setLock_lock_self,hlc]
    exact wp_popNoInterrupts_pushed hts hset.enumerated (hvi.trans hui) ⟨hset.interrupts _,hend⟩

theorem releaseTail_spec (h : Tracks n t) (hs : i.Sound) (ht : t.toInterruptState=i.pushed)
    (hpos : 0 < i.preemptDisabled) :
    Returns (do popNoInterrupts; preemptEnable) t fun _ u=>Tracks n u ∧
      u.toInterruptState = {i.touched with preemptDisabled := i.preemptDisabled-1} := by
  simp only [wp_bind]
  apply wp_popNoInterrupts_pushed hs h.enumerated ht
  apply (preemptEnable_spec (h.interrupts _) hs.touched hpos).imp
  rintro _ u ⟨hu,hui⟩
  exact ⟨hu,hui.trans (congrArg ({ · with preemptDisabled := i.preemptDisabled-1}) i.touched_touched)⟩

theorem cpuSpinlockRelease_spec (h : Tracks n s) (hs : s.Sound) (hhl : 0<n l) (hpos : 0<s.preemptDisabled) :
    Returns (cpuSpinlockRelease l) s fun _ t=>Tracks (update n l (n l-1)) t ∧
      t.toInterruptState = {s.touched with preemptDisabled := s.preemptDisabled-1} := by
  simp only [cpuSpinlockRelease,wp_bind,wp_pushNoInterrupts h.enumerated,wp_get]
  apply ((h.interrupts s.pushed).interfere (l := l)).imp
  rintro _ t ⟨ht,hti,hcpu⟩
  have hvl : ¬ (t.lock l).cpu=cpuSpinlockInvalidCpu := by simp [hcpu.mpr hhl,cpuSpinlockInvalidCpu]
  have hts : t.Sound := by
    rw [hti]
    exact hs.pushed
  rw [wp_panicIf hvl]
  apply (cpuSpinlockHeld_spec ht hts).imp
  rintro r u ⟨rfl,hu,hui⟩
  rw [hti,InterruptState.pushed_touched hs] at hui
  have hyes : ¬ decide (0<n l)=false := by simp [hhl]
  rw [wp_panicIf hyes,wp_modify,setLock_lock_self,hu.held l hhl]
  by_cases hmr : 0<(n l : ℤ)-1
  · have hset : Tracks (update n l (n l-1)) (u.setLock l ⟨true,n l-1,u.cpu⟩) := by
      apply hu.setLock <;> intro _ <;> simp <;> omega
    rw [if_neg (not_not.mpr hmr)]
    exact releaseTail_spec hset hs hui hpos
  · have hset : Tracks (update n l (n l-1)) (u.setLock l ⟨false,n l-1,cpuSpinlockInvalidCpu⟩) := by
      apply hu.setLock <;> intro _
      · omega
      · simp
    rw [if_pos hmr]
    simp only [wp_bind,wp_modify,setLock_setLock,setLock_lock_self]
    exact (wp_bind ..).mp (releaseTail_spec hset hs hui hpos)
end

/-- The operations of a sequence; an acquisition comes with the number of attempts that fail at
most. -/
inductive Op where
  | push
  | pop
  | preemptDisable
  | preemptEnable
  | acquire (l tries : ℕ)
  | release (l : ℕ)
  deriving DecidableEq

def Op.run : Op → CpuM Unit
  | .push => pushNoInterrupts
  | .pop => popNoInterrupts
  | .preemptDisable => Nesting.preemptDisable
  | .preemptEnable => Nesting.preemptEnable
  | .acquire l tries => cpuSpinlockAcquire l tries
  | .release l => cpuSpinlockRelease l

def runOps : List Op → CpuM Unit
  | [] => pure ()
  | op::ops => do
    op.run
    runOps ops

inductive Bracket where
  | interrupts
  | preemption
  | spinlock (l tries : ℕ)

def Bracket.opening : Bracket → Op
  | interrupts => .push
  | preemption => .preemptDisable
  | spinlock l tries => .acquire l tries

def Bracket.closing : Bracket → Op
  | interrupts => .pop
  | preemption => .preemptEnable
  | spinlock l _ => .release l

abbrev ProperlyNested : List Op → Prop := Nested Bracket.opening Bracket.closing

namespace Op

/-- What an operation adds to `cli_stack`, to `preempt_disabled` and to the acquisitions of a lock. -/
def cli : Op → ℤ
  | push => 1
  | pop => -1
  | _ => 0

def preempt : Op → ℤ
  | preemptDisable | acquire _ _ => 1
  | preemptEnable | release _ => -1
  | _ => 0

def locks (l : ℕ) : Op → ℤ
  | acquire k _ => if k=l then 1 else 0
  | release k => if k=l then -1 else 0
  | _ => 0

theorem cli_weighs : Weighs Bracket.opening Bracket.closing cli := by
  constructor <;> intro b <;> cases b <;> simp [Bracket.opening,Bracket.closing,cli]

theorem preempt_weighs : Weighs Bracket.opening Bracket.closing preempt := by
  constructor <;> intro b <;> cases b <;> simp [Bracket.opening,Bracket.closing,preempt]

theorem locks_weighs (l : ℕ) : Weighs Bracket.opening Bracket.closing (locks l) := by
  constructor <;> intro b <;> cases b <;> simp only [Bracket.opening,Bracket.closing,locks]
  all_goals first | rfl | (split <;> decide)
end Op

abbrev outstanding (ops : List Op) (l : ℕ) : ℤ := depth (Op.locks l) ops

def InterruptState.after (i : InterruptState) (ops : List Op) : InterruptState where
  iflag := i.iflag && decide (depth Op.cli ops=0)
  intEnabled := if ops≠[] ∧ i.cliStack=0 then i.iflag else i.intEnabled
  cliStack := i.cliStack+depth Op.cli ops
  preemptDisabled := i.preemptDisabled+depth Op.preempt ops

section

variable {i : InterruptState} {pre : List Op}

theorem InterruptState.after_nil (i : InterruptState) : i.after []=i := by ext <;> simp [after]

theorem InterruptState.Sound.after (h : i.Sound) (hcli : 0≤depth Op.cli pre) : (i.after pre).Sound := by
  have hn := h.nonneg
  constructor
  · simp only [InterruptState.after]
    omega
  · intro hpos
    simp only [InterruptState.after] at hpos ⊢
    by_cases hz : depth Op.cli pre=0
    · rw [h.masked (by omega),Bool.false_and]
    · rw [decide_eq_false hz,Bool.and_false]

theorem InterruptState.Sound.after_touched (h : i.Sound) (hcli : 0≤depth Op.cli pre) :
    (i.after pre).touched.intEnabled=if i.cliStack=0 then i.iflag else i.intEnabled := by
  have hng := h.nonneg
  simp only [InterruptState.after,InterruptState.touched]
  by_cases hzr : i.cliStack=0
  · by_cases hdp : depth Op.cli pre=0
    · simp [hzr,hdp]
    · have hpre : pre≠[] := by
        rintro rfl
        exact hdp rfl
      simp [hzr,hdp,hpre]
  · have hsum : ¬ i.cliStack+depth Op.cli pre=0 := by omega
    simp [hzr,hsum]

theorem InterruptState.after_intEnabled (i : InterruptState) (pre : List Op) (op : Op) :
    (i.after (pre++[op])).intEnabled=if i.cliStack=0 then i.iflag else i.intEnabled := by
  simp [InterruptState.after]

theorem InterruptState.Sound.after_push (h : i.Sound) (hcli : 0≤depth Op.cli pre) :
    (i.after pre).pushed=i.after (pre++[.push]) := by
  have hd : ¬ depth Op.cli pre+1=0 := by omega
  ext
  · simp [InterruptState.after,InterruptState.pushed,Op.cli,hd]
  · rw [after_intEnabled,← h.after_touched hcli]
    rfl
  · simp [InterruptState.after,InterruptState.pushed,Op.cli,add_assoc]
  · simp [InterruptState.after,InterruptState.pushed,Op.preempt]

theorem InterruptState.Sound.after_pop (h : i.Sound) (hcli : 0<depth Op.cli pre) :
    (i.after pre).popped=i.after (pre++[.pop]) := by
  have hng := h.nonneg
  have hne : ¬ i.cliStack+depth Op.cli pre=0 := by omega
  have hfl := h.after_touched hcli.le
  simp only [InterruptState.touched,InterruptState.after,hne,if_false] at hfl
  ext
  · simp only [InterruptState.after,popped,hfl,depth_append,depth_cons,depth_nil,Op.cli]
    by_cases hzr : i.cliStack=0
    · have hiff : i.cliStack+depth Op.cli pre=1 ↔ depth Op.cli pre+(-1+0)=0 := by omega
      rw [if_pos hzr,Bool.and_comm,decide_eq_decide.mpr hiff]
    · have hdp : ¬ i.cliStack+depth Op.cli pre=1 := by omega
      rw [h.masked (by omega),decide_eq_false hdp,Bool.false_and,Bool.false_and]
  · rw [after_intEnabled,← hfl]
    rfl
  · simp [InterruptState.after,popped,Op.cli]
    omega
  · simp [InterruptState.after,popped,Op.preempt]

theorem InterruptState.Sound.after_balanced (h : i.Sound) (op : Op) (hcli : 0≤depth Op.cli pre)
    (hop : op.cli=0) :
    {(i.after pre).touched with preemptDisabled := (i.after pre).preemptDisabled+op.preempt} =
      i.after (pre++[op]) := by
  ext
  · simp [InterruptState.after,InterruptState.touched,hop]
  · rw [after_intEnabled,← h.after_touched hcli]
  · simp [InterruptState.after,InterruptState.touched,hop]
  · simp [InterruptState.after,add_assoc]
end

section

variable {s t : State} {i : InterruptState} {n : ℕ → ℕ} {pre ops : List Op} {op : Op}

/-- The acquisitions this CPU has to release, those it began with included. -/
def counts (n : ℕ → ℕ) (ops : List Op) (l : ℕ) : ℕ := n l+(outstanding ops l).toNat

theorem counts_nil (n : ℕ → ℕ) : counts n []=n := rfl

theorem counts_of_locks (hop : ∀ l, op.locks l=0) : counts n (pre++[op])=counts n pre := by
  funext l
  simp [counts,outstanding,hop]

theorem counts_acquire (hpre : 0≤outstanding pre l) :
    update (counts n pre) l (counts n pre l+1)=counts n (pre++[.acquire l tries]) := by
  funext k
  by_cases hk : k=l
  · subst hk
    rw [update_self]
    simp only [counts,outstanding,depth_append,depth_cons,depth_nil,Op.locks,if_true] at hpre ⊢
    omega
  · simp [update_of_ne hk,counts,Op.locks,Ne.symm hk]

theorem counts_release (hpre : 0<outstanding pre l) :
    update (counts n pre) l (counts n pre l-1)=counts n (pre++[.release l]) := by
  funext k
  by_cases hk : k=l
  · subst hk
    rw [update_self]
    simp only [counts,outstanding,depth_append,depth_cons,depth_nil,Op.locks,if_true] at hpre ⊢
    omega
  · simp [update_of_ne hk,counts,Op.locks,Ne.symm hk]

/-- No counter has gone below where it started. -/
structure Balanced (ops : List Op) : Prop where
  cli : 0≤depth Op.cli ops
  preempt : 0≤depth Op.preempt ops
  locks : ∀ l, 0≤outstanding ops l

theorem Balanced.of_prefix (hops : ProperlyNested ops) (hpre : pre <+: ops) : Balanced pre :=
  ⟨hops.depth_nonneg Op.cli_weighs hpre,hops.depth_nonneg Op.preempt_weighs hpre,
    fun l=>hops.depth_nonneg (Op.locks_weighs l) hpre⟩

structure RunState (i : InterruptState) (n : ℕ → ℕ) (ops : List Op) (s : State) : Prop where
  tracks : Tracks (counts n ops) s
  interrupts : s.toInterruptState=i.after ops

section
variable (hi : i.Sound) (hpr : 0 ≤ i.preemptDisabled) (h : RunState i n pre s)
include hi hpr h
theorem Op.run_spec (hpre : Balanced pre) (hnx : Balanced (pre++[op])) :
    Returns op.run s fun _ t=>RunState i n (pre++[op]) t := by
  have hsn : s.Sound := by
    rw [h.interrupts]
    exact hi.after hpre.cli
  have hcli := hnx.cli
  have hpos := hnx.preempt
  rw [depth_append] at hcli hpos
  cases op with
  | push =>
    apply (wp_pushNoInterrupts h.tracks.enumerated).mpr
    rw [h.interrupts,hi.after_push hpre.cli]
    refine ⟨?_,rfl⟩
    rw [counts_of_locks fun _=>rfl]
    exact h.tracks.interrupts _
  | pop =>
    have hdp : 0<depth Op.cli pre := by
      simp only [depth_cons,depth_nil,cli] at hcli
      omega
    have hcliStack : 0<s.cliStack := by
      have hng := hi.nonneg
      rw [h.interrupts]
      simp only [InterruptState.after]
      omega
    apply (wp_popNoInterrupts h.tracks.enumerated (hsn.masked hcliStack) hcliStack).mpr
    rw [h.interrupts,hi.after_pop hdp]
    refine ⟨?_,rfl⟩
    rw [counts_of_locks fun _=>rfl]
    exact h.tracks.interrupts _
  | preemptDisable =>
    apply (preemptDisable_spec h.tracks hsn).imp
    rintro _ t ⟨ht,hti⟩
    rw [h.interrupts] at hti
    refine ⟨?_,hti.trans (hi.after_balanced .preemptDisable hpre.cli rfl)⟩
    rwa [counts_of_locks fun _=>rfl]
  | preemptEnable =>
    have hpr' : 0<s.preemptDisabled := by
      simp only [depth_cons,depth_nil,preempt] at hpos
      rw [h.interrupts]
      simp only [InterruptState.after]
      omega
    apply (preemptEnable_spec h.tracks hsn hpr').imp
    rintro _ t ⟨ht,hti⟩
    rw [h.interrupts] at hti
    refine ⟨?_,hti.trans (hi.after_balanced .preemptEnable hpre.cli rfl)⟩
    rwa [counts_of_locks fun _=>rfl]
  | acquire l tries =>
    apply (cpuSpinlockAcquire_spec h.tracks hsn tries).imp
    rintro _ t ⟨ht,hti⟩
    rw [h.interrupts] at hti
    rw [counts_acquire (hpre.locks l)] at ht
    exact ⟨ht,hti.trans (hi.after_balanced (.acquire l tries) hpre.cli rfl)⟩
  | release l =>
    have hpr' : 0<s.preemptDisabled := by
      simp only [depth_cons,depth_nil,preempt] at hpos
      rw [h.interrupts]
      simp only [InterruptState.after]
      omega
    have hlk : 0<outstanding pre l := by
      have hlc := hnx.locks l
      simp only [outstanding,depth_append,depth_cons,depth_nil,locks,if_true] at hlc ⊢
      omega
    have hhl : 0<counts n pre l := by simp_all [counts]
    apply (cpuSpinlockRelease_spec h.tracks hsn hhl hpr').imp
    rintro _ t ⟨ht,hti⟩
    rw [h.interrupts] at hti
    rw [counts_release hlk] at ht
    exact ⟨ht,hti.trans (hi.after_balanced (.release l) hpre.cli rfl)⟩

theorem runOps_spec (hops : ∀ next, next <+: ops → Balanced (pre++next)) :
    Returns (runOps ops) s fun _ t=>RunState i n (pre++ops) t := by
  induction ops generalizing pre s with
  | nil =>
    rw [append_nil]
    exact (wp_pure ..).mpr h
  | cons op ops ih =>
    have hpre : Balanced pre := by simpa using hops [] nil_prefix
    have hnx := hops [op] (cons_prefix_cons.mpr ⟨rfl, nil_prefix⟩)
    simp only [runOps,wp_bind]
    apply (Op.run_spec hi hpr h hpre hnx).imp
    rintro _ t ht
    have hrs := ih ht fun next hpf=>by
      simpa using hops (op::next) (cons_prefix_cons.mpr ⟨rfl,hpf⟩)
    simpa using hrs
end

theorem runOps_prefix (h : Tracks n s) (hs : s.Sound) (hpr : 0 ≤ s.preemptDisabled)
    (hops : ProperlyNested ops) (hpre : pre <+: ops) :
    Returns (runOps pre) s fun _ t=>RunState s.toInterruptState n pre t := by
  have hst : RunState s.toInterruptState n [] s := ⟨h,s.after_nil.symm⟩
  exact runOps_spec hs hpr hst fun next hnx=> Balanced.of_prefix hops (hnx.trans hpre)

/-- A properly nested sequence leaves masking and preemption as they were, and the counts are exact.
-/
theorem nesting_balanced (hn : s.nofCpus≠0) (hcli : 0 ≤ s.cliStack)
    (hpreempt : 0 ≤ s.preemptDisabled) (hmask : 0<s.cliStack → s.iflag=false)
    (hlocks : ∀ l, ¬ s.Holds l) (hothers : ∀ time l, (s.others time l).cpu≠s.cpu)
    (hops : ProperlyNested ops) :
    Returns (runOps ops) s (fun _ t=>t.iflag=s.iflag ∧ t.cliStack=s.cliStack ∧
      t.preemptDisabled=s.preemptDisabled) ∧
    ∀ pre, pre <+: ops → Returns (runOps pre) s fun _ t=>∀ l,
      Returns (cpuSpinlockHeld l) t (fun held _=>held=decide (0<outstanding pre l)) ∧
      (0<outstanding pre l → (t.lock l).num=outstanding pre l) := by
  have htr : Tracks (fun _=>0) s := ⟨hn,hothers,fun l hl=>absurd hl (lt_irrefl 0),fun l _=>hlocks l⟩
  have hs : s.Sound := ⟨hcli,hmask⟩
  constructor
  · apply ( runOps_prefix htr hs hpreempt hops (prefix_refl ops)).imp
    rintro _ t ⟨-,ht⟩
    rw [ht]
    simp [InterruptState.after,hops.depth_eq_zero Op.cli_weighs,hops.depth_eq_zero Op.preempt_weighs]
  · intro pre hpre
    apply ( runOps_prefix htr hs hpreempt hops hpre).imp
    rintro _ t ⟨ht,hti⟩ l
    have hbl := Balanced.of_prefix hops hpre
    have hng := hbl.locks l
    have hcn : (counts (fun _=>0) pre l : ℤ)=outstanding pre l := by simp_all [counts]
    have hsn : t.Sound := by
      rw [hti]
      exact hs.after hbl.cli
    constructor
    · apply (cpuSpinlockHeld_spec ht hsn).imp
      rintro held u ⟨rfl,-⟩
      rw [← hcn,decide_eq_decide]
      omega
    · intro hpos
      rwa [ht.held l (by omega)]

/-- Interrupts are enabled, and another CPU is always found holding the locks at first. -/
def contended : State where
  iflag := true
  intEnabled := false
  cliStack := 0
  preemptDisabled := 0
  nofCpus := 2
  cpu := 0
  lock _ := ⟨false,0,cpuSpinlockInvalidCpu⟩
  others _ _ := ⟨true,1,1⟩
  time := 0

theorem nesting_balanced_contended :
    Returns (runOps [.acquire 0 3, .push, .acquire 0 0, .release 0, .pop, .release 0]) contended
      (fun _ t=>t.iflag=true ∧ t.cliStack=0 ∧ t.preemptDisabled=0) := by
  have hops : ProperlyNested [.acquire 0 3, .push, .acquire 0 0, .release 0, .pop, .release 0] :=
    Nested.bracket (Bracket.spinlock 0 3)
      (Nested.bracket Bracket.interrupts (Nested.bracket (Bracket.spinlock 0 0) Nested.nil))
  exact (nesting_balanced (s := contended) (by decide) le_rfl le_rfl (fun h=>absurd h (lt_irrefl 0))
    (fun l h=>by cases h.1) (fun _ _ h=>by cases h) hops).1
end

end Yaos2.Cpu.Nesting
