import Yaos2.Foundation.Tally
import Mathlib.Data.List.FinRange

/-! # The checkpoint before the scheduler loop

Each access to a shared variable is one step. There are at most eight CPUs, so the two counters are
natural numbers. -/
namespace Yaos2.Cpu.Checkpoint
open Foundation Function List

/-- The next access of a CPU. -/
inductive Phase (n : ℕ) where
  | off
  | loadActive
  | addNofActive
  | storeActive
  | startAps
  | waitActive (ap : Fin n)
  | enter
  | loadNum
  | loadNofActive (num : ℕ)
  | left
  deriving DecidableEq

structure State (n : ℕ) where
  phase : Fin n → Phase n
  active : Fin n → Bool
  nofActiveCpus : ℕ
  num : ℕ
  /-- The CPUs that `cpu_enumerate_other_cpus` has still to hand to `start_ap`. -/
  toStart : List (Fin n)

variable {n : ℕ}

def State.goto (s : State n) (k : Fin n) (p : Phase n) : State n := {s with phase := update s.phase k p}

/-- The state when `generic_x86_init` calls `cpu_set_active`. -/
def init (boot : Fin n) : State n where
  phase k := if k=boot then .loadActive else .off
  active _ := false
  nofActiveCpus := 0
  num := 0
  toStart := (List.finRange n).filter (· ≠ boot)

def step (boot : Fin n) (s : State n) (k : Fin n) : State n :=
  match s.phase k with
  | .off => s
  -- cpu_set_active
  | .loadActive => s.goto k (if s.active k=false then .addNofActive else .storeActive)
  | .addNofActive => {s with nofActiveCpus := s.nofActiveCpus+1}.goto k .storeActive
  | .storeActive =>
    {s with active := update s.active k true}.goto k
      (if k=boot then .startAps else .enter)
  -- start_aps and start_ap
  | .startAps =>
    match s.toStart with
    | [] => s.goto k .enter
    | ap::rest => ({s with toStart := rest}.goto ap .loadActive).goto k (.waitActive ap)
  | .waitActive ap => if s.active ap=false then s else s.goto k .startAps
  -- cpu_checkpoint_enter
  | .enter => {s with num := s.num+1}.goto k .loadNum
  | .loadNum => s.goto k (.loadNofActive s.num)
  | .loadNofActive num => s.goto k (if num≠s.nofActiveCpus then .loadNum else .left)
  | .left => s

def run (boot : Fin n) (s : State n) (schedule : List (Fin n)) : State n := schedule.foldl (step boot) s

namespace Phase

@[simp] def counted : Phase n → Bool
  | off | loadActive | addNofActive => false
  | _ => true

/-- The CPU has added one to the counter of the checkpoint. -/
@[simp] def entered : Phase n → Bool
  | loadNum | loadNofActive _ | left => true
  | _ => false

/-- The CPU has started what it had to start. -/
@[simp] def released : Phase n → Bool
  | enter => true
  | p => p.entered

/-- Only the boot CPU is ever here. -/
@[simp] def starts : Phase n → Bool
  | startAps | waitActive _ => true
  | _ => false

theorem counted_of_entered {p : Phase n} (h : p.entered=true) : p.counted=true := by
  cases p <;> first | rfl | cases h

theorem released_of_entered {p : Phase n} (h : p.entered=true) : p.released=true := by
  cases p <;> first | rfl | cases h
end Phase

structure Inv (boot : Fin n) (s : State n) : Prop where
  nofActive : s.nofActiveCpus=(List.finRange n).countP fun k=>(s.phase k).counted
  num : s.num=(List.finRange n).countP fun k=>(s.phase k).entered
  seen : ∀ k v, s.phase k=.loadNofActive v → v ≤ s.num
  flag : ∀ k, s.active k=true → (s.phase k).counted=true
  bootFirst : ∀ k, k≠boot → s.phase k≠.off → (s.phase boot).counted=true
  bootStarts : ∀ k, k≠boot → (s.phase k).starts=false
  idle : ∀ k ∈ s.toStart, s.phase k=.off
  nodup : s.toStart.Nodup
  known : ∀ k, k≠boot → k ∉ s.toStart → (s.phase k).counted=true ∨ s.phase boot=.waitActive k
  released : (s.phase boot).released=true → s.toStart=[]
  barrier : ∀ k, s.phase k=.left → ∀ j, (s.phase j).entered=true

variable {boot k : Fin n} {s t : State n} {p : Phase n}

theorem inv_init (boot : Fin n) : Inv boot (init boot) := by
  have hcn : ∀ f : Phase n → Bool, f .off=false → f .loadActive=false →
      (List.finRange n).countP (fun k=>f ((init boot).phase k))=0 := by
    intro f hoff hld
    rw [countP_eq_zero]
    intro k _
    by_cases hk : k=boot <;> simp [init,hk,hoff,hld]
  refine ⟨(hcn _ rfl rfl).symm,(hcn _ rfl rfl).symm,?_,?_,?_,?_,?_,?_,?_,?_,?_⟩
  · intro k v hk
    by_cases hb : k=boot <;> simp [init,hb] at hk
  · intro k hk
    cases hk
  · intro k hk hoff
    simp [init,hk] at hoff
  · intro k hk
    simp [init,hk]
  · intro k hk
    simp only [init,mem_filter,decide_eq_true_eq] at hk
    exact if_neg hk.2
  · exact (nodup_finRange n).filter _
  · intro k hk hst
    simp [init,hk] at hst
  · intro hrel
    simp [init] at hrel
  · intro k hk
    by_cases hb : k=boot <;> simp [init,hb] at hk

section
variable (h : Inv boot s)
include h
theorem Inv.all_entered (hk : s.phase k=.loadNofActive v)
    (hv : v=s.nofActiveCpus) (j : Fin n) : (s.phase j).entered=true := by
  have hcn : (List.finRange n).countP (fun k=>(s.phase k).counted) ≤
      (List.finRange n).countP fun k=>(s.phase k).entered := by
    rw [← h.nofActive,← h.num,← hv]
    exact h.seen k v hk
  have hall : ∀ i, (s.phase i).counted=true → (s.phase i).entered=true := fun i =>
    of_countP_eq (p := fun i=>(s.phase i).entered) (fun _=>Phase.counted_of_entered) hcn
      (mem_finRange i)
  have hbt : (s.phase boot).entered=true := by
    by_cases hkb : k=boot
    · rw [← hkb,hk]
      rfl
    · exact hall boot (h.bootFirst k hkb (by rw [hk]; simp))
  -- the boot CPU enters after it has seen all others active
  have hst := h.released (Phase.released_of_entered hbt)
  apply hall
  by_cases hjb : j=boot
  · rw [hjb]
    exact Phase.counted_of_entered hbt
  · rcases h.known j hjb (by rw [hst]; exact not_mem_nil) with hc | hw
    · exact hc
    · rw [hw] at hbt
      cases hbt

theorem Inv.goto (hph : t.phase=update s.phase k p)
    (htoStart : t.toStart=s.toStart) (hoff : s.phase k≠.off)
    (hcn : (s.phase k).counted=true → p.counted=true)
    (hen : (s.phase k).entered=true → p.entered=true)
    (hac : t.nofActiveCpus+(s.phase k).counted.toNat=s.nofActiveCpus+p.counted.toNat)
    (hnum : t.num+(s.phase k).entered.toNat=s.num+p.entered.toNat)
    (hsn : ∀ v, p=.loadNofActive v → v≤t.num)
    (hfl : ∀ j, t.active j=true → s.active j=true ∨ j=k ∧ p.counted=true)
    (hst : k≠boot → p.starts=false)
    (hwt : ∀ j, s.phase k=.waitActive j → (s.phase j).counted=true)
    (hrl : k=boot → p.released=true → s.toStart=[])
    (hlt : p=.left → ∀ j, (s.phase j).entered=true) : Inv boot t := by
  have hsl : t.phase k=p := by rw [hph,update_self]
  have hot : ∀ j, j≠k → t.phase j=s.phase j := by
    intro j hj
    rw [hph,update_of_ne hj]
  have hlf : ∀ f : Phase n → Bool, (f (s.phase k)=true → f p=true) →
      ∀ j, f (s.phase j)=true → f (t.phase j)=true := by
    intro f hf j hj
    by_cases hjk : j=k
    · subst hjk
      rw [hsl]
      exact hf hj
    · rwa [hot j hjk]
  have hmn : s.num≤t.num := by
    have hle := Bool.toNat_le_toNat hen
    omega
  constructor
  · have hup := countP_update (nodup_finRange n) (mem_finRange k) Phase.counted s.phase p
    rw [← h.nofActive,← hph] at hup
    omega
  · have hup := countP_update (nodup_finRange n) (mem_finRange k) Phase.entered s.phase p
    rw [← h.num,← hph] at hup
    omega
  · intro j v hj
    by_cases hjk : j=k
    · subst hjk
      exact hsn v (hsl.symm.trans hj)
    · rw [hot j hjk] at hj
      exact (h.seen j v hj).trans hmn
  · intro j hj
    rcases hfl j hj with hold | ⟨rfl,hp⟩
    · exact hlf _ hcn j (h.flag j hold)
    · rwa [hsl]
  · intro j hj hon
    apply hlf _ hcn boot
    by_cases hjk : j=k
    · exact h.bootFirst k (hjk▸hj) hoff
    · rw [hot j hjk] at hon
      exact h.bootFirst j hj hon
  · intro j hj
    by_cases hjk : j=k
    · subst hjk
      rw [hsl]
      exact hst hj
    · rw [hot j hjk]
      exact h.bootStarts j hj
  · intro j hj
    rw [htoStart] at hj
    have hid := h.idle j hj
    have hjk : j≠k := by
      rintro rfl
      exact hoff hid
    rw [hot j hjk,hid]
  · rw [htoStart]
    exact h.nodup
  · intro j hj hnot
    rw [htoStart] at hnot
    rcases h.known j hj hnot with hc | hw
    · exact .inl (hlf _ hcn j hc)
    · by_cases hbk : boot=k
      · subst hbk
        exact .inl (hlf _ hcn j (hwt j hw))
      · exact .inr (by rw [hot boot hbk,hw])
  · intro hrel
    rw [htoStart]
    by_cases hbk : boot=k
    · subst hbk
      exact hrl rfl (hsl▸hrel)
    · rw [hot boot hbk] at hrel
      exact h.released hrel
  · intro i hi j
    apply hlf _ hen j
    by_cases hik : i=k
    · subst hik
      exact hlt (hsl.symm.trans hi) j
    · rw [hot i hik] at hi
      exact h.barrier i hi j

theorem Inv.start (hbt : s.phase boot=.startAps) (hst : s.toStart=ap::rest) :
    Inv boot (({s with toStart := rest}.goto ap .loadActive).goto boot (.waitActive ap)) := by
  have hap := h.idle ap (by rw [hst]; exact mem_cons_self)
  obtain ⟨hnot,hnd⟩ : ap ∉ rest ∧ rest.Nodup := nodup_cons.mp (hst▸h.nodup)
  have hne : ap≠boot := by
    rintro rfl
    rw [hbt] at hap
    cases hap
  set t := ({s with toStart := rest}.goto ap .loadActive).goto boot (.waitActive ap)
  have htb : t.phase boot=.waitActive ap := update_self boot _ _
  have htap : t.phase ap=.loadActive := by simp [t,State.goto,hne]
  have hot : ∀ j, j≠boot → j≠ap → t.phase j=s.phase j := by
    intro j hjb hja
    simp [t,State.goto,hjb,hja]
  have hcs : ∀ f : Phase n → Bool, f .off=f .loadActive → f .startAps=f (.waitActive ap) →
      ∀ j, f (t.phase j)=f (s.phase j) := by
    intro f hon hsr j
    by_cases hjb : j=boot
    · rw [hjb,htb,hbt,hsr]
    · by_cases hja : j=ap
      · rw [hja,htap,hap,hon]
      · rw [hot j hjb hja]
  have hcn := hcs Phase.counted rfl rfl
  have hen := hcs Phase.entered rfl rfl
  have hsy : ∀ j, (t.phase j).entered=true → t.phase j=s.phase j := by
    intro j hj
    by_cases hjb : j=boot
    · rw [hjb,htb] at hj
      cases hj
    · by_cases hja : j=ap
      · rw [hja,htap] at hj
        cases hj
      · exact hot j hjb hja
  constructor
  · simp only [hcn]
    exact h.nofActive
  · simp only [hen]
    exact h.num
  · intro j v hj
    exact h.seen j v ((hsy j (by rw [hj]; rfl)).symm.trans hj)
  · intro j hj
    rw [hcn]
    exact h.flag j hj
  · intro j hj hon
    rw [htb]
    rfl
  · intro j hj
    by_cases hja : j=ap
    · rw [hja,htap]
      rfl
    · rw [hot j hj hja]
      exact h.bootStarts j hj
  · intro j hj
    have hid := h.idle j (by rw [hst]; exact mem_cons_of_mem ap hj)
    have hja : j≠ap := fun hja=>hnot (hja▸hj)
    have hjb : j≠boot := by
      rintro rfl
      rw [hbt] at hid
      cases hid
    rw [hot j hjb hja,hid]
  · exact hnd
  · intro j hj hjr
    by_cases hja : j=ap
    · exact .inr (hja▸htb)
    · have hjn : j ∉ s.toStart := by
        rw [hst,mem_cons]
        exact fun hmem=>hmem.elim hja hjr
      rcases h.known j hj hjn with hc | hw
      · exact .inl ((hcn j).trans hc)
      · rw [hbt] at hw
        cases hw
  · intro hrel
    rw [htb] at hrel
    cases hrel
  · intro i hi j
    rw [hen]
    exact h.barrier i ((hsy i (by rw [hi]; rfl)).symm.trans hi) j

theorem Inv.step (k : Fin n) : Inv boot (step boot s k) := by
  have hbt : (s.phase k).starts=true → k=boot := by
    intro hst
    by_contra hne
    rw [h.bootStarts k hne] at hst
    cases hst
  have hrl : (s.phase k).released=true → k=boot → s.toStart=[] := by
    rintro hrel rfl
    exact h.released hrel
  unfold Checkpoint.step
  cases hk : s.phase k with
  | off | left => exact h
  | loadActive =>
    have hfl : s.active k=false := by
      by_contra hac
      have hcn := h.flag k (eq_true_of_ne_false hac)
      rw [hk] at hcn
      cases hcn
    apply h.goto (k := k) (p := .addNofActive) <;> simp [State.goto,hfl,hk]
  | addNofActive =>
    apply h.goto (k := k) (p := .storeActive) <;> simp +contextual [State.goto, hk]
  | storeActive =>
    by_cases hkb : k=boot
    · subst hkb
      apply h.goto (k := k) (p := .startAps) <;>
        simp +contextual [State.goto, hk, update_apply, or_comm]
    · apply h.goto (k := k) (p := .enter) <;>
        simp +contextual [State.goto, hk, hkb, update_apply, or_comm]
  | startAps =>
    obtain rfl := hbt (by rw [hk]; rfl)
    cases hsr : s.toStart with
    | nil => apply h.goto (k := k) (p := .enter) <;> simp +contextual [State.goto, hk, hsr]
    | cons ap rest => exact h.start hk hsr
  | waitActive ap =>
    obtain rfl := hbt (by rw [hk]; rfl)
    by_cases hfl : s.active ap=false
    · simpa only [hfl,if_true] using h
    · have hcn := h.flag ap (eq_true_of_ne_false hfl)
      apply h.goto (k := k) (p := .startAps)
      case hwt =>
        intro j hj
        cases hk.symm.trans hj
        exact hcn
      all_goals simp +contextual [State.goto, hk, hfl]
  | enter =>
    have hdn := hrl (by rw [hk]; rfl)
    apply h.goto (k := k) (p := .loadNum) <;> simp +contextual [State.goto, hk, hdn]
  | loadNum =>
    have hdn := hrl (by rw [hk]; rfl)
    apply h.goto (k := k) (p := .loadNofActive s.num) <;> simp +contextual [State.goto, hk, hdn]
  | loadNofActive num =>
    have hdn := hrl (by rw [hk]; rfl)
    by_cases heq : num≠s.nofActiveCpus
    · apply h.goto (k := k) (p := .loadNum) <;> simp +contextual [State.goto, hk, hdn, heq]
    · have hall := h.all_entered hk (not_not.mp heq)
      apply h.goto (k := k) (p := .left)
      case hlt => exact fun _=>hall
      all_goals simp +contextual [State.goto, hk, hdn, heq]

theorem Inv.run (schedule : List (Fin n)) : Inv boot (run boot s schedule) := by
  induction schedule generalizing s with
  | nil => exact h
  | cons k schedule ih => exact ih (h.step k)

theorem step_phase (hj : (s.phase j).entered=true) (hjk : j≠k) : (step boot s k).phase j=s.phase j := by
  unfold step
  split
  case h_5 =>
    split
    · exact update_of_ne hjk _ _
    · next ap rest hs =>
      have hja : j≠ap := by
        rintro rfl
        rw [h.idle j (by rw [hs]; exact mem_cons_self)] at hj
        cases hj
      simp [State.goto,hjk,hja]
  case h_6 => split <;> simp [State.goto,hjk]
  all_goals simp [State.goto,hjk]
end

theorem step_entered (hk : (s.phase k).entered=true) : ((step boot s k).phase k).entered=true := by
  unfold step
  cases hp : s.phase k with
  | loadNum | left => simp [State.goto,hp]
  | loadNofActive v => by_cases hv : v≠s.nofActiveCpus <;> simp [State.goto,hv]
  | _ =>
    rw [hp] at hk
    cases hk

/-- The steps a CPU needs to leave once all have entered. -/
def Phase.stepsLeft : Phase n → ℕ
  | left => 0
  | loadNofActive v => if v=n then 1 else 3
  | _ => 2

theorem Phase.stepsLeft_le (p : Phase n) : p.stepsLeft≤3 := by
  cases p <;> simp only [stepsLeft] <;> first | omega | (split <;> omega)

theorem Phase.eq_left (h : p.stepsLeft=0) : p=.left := by
  cases p with
  | left => rfl
  | loadNofActive v =>
    simp only [stepsLeft] at h
    split at h <;> cases h
  | _ => cases h

section
variable (h : Inv boot s) (hall : ∀ j, (s.phase j).entered=true)
include h hall
theorem Inv.counters : s.num=n ∧ s.nofActiveCpus=n := by
  constructor
  · rw [h.num,countP_eq_length.mpr fun j _=>hall j,length_finRange]
  · rw [h.nofActive,countP_eq_length.mpr fun j _=>Phase.counted_of_entered (hall j),length_finRange]

theorem step_stepsLeft (k : Fin n) : ((step boot s k).phase k).stepsLeft≤(s.phase k).stepsLeft-1 := by
  obtain ⟨hnum,hac⟩ := h.counters hall
  have hk := hall k
  unfold step
  cases hp : s.phase k with
  | left => simp [hp,Phase.stepsLeft]
  | loadNum => simp [State.goto,Phase.stepsLeft,hnum]
  | loadNofActive v =>
    by_cases hv : v=n <;> simp [State.goto,Phase.stepsLeft,hac,hv]
  | _ =>
    rw [hp] at hk
    cases hk

theorem run_stepsLeft (k : Fin n) (schedule : List (Fin n)) :
    ((run boot s schedule).phase k).stepsLeft≤(s.phase k).stepsLeft-schedule.count k := by
  induction schedule generalizing s with
  | nil => exact le_rfl
  | cons i schedule ih =>
    have hall' : ∀ j, ((step boot s i).phase j).entered=true := by
      intro j
      by_cases hji : j=i
      · rw [hji]
        exact step_entered (hall i)
      · rw [step_phase h (hall j) hji]
        exact hall j
    apply (ih (h.step i) hall').trans
    by_cases hik : i=k
    · subst hik
      have hs := step_stepsLeft h hall i
      rw [count_cons_self]
      omega
    · rw [count_cons_of_ne hik,step_phase h (hall k) (Ne.symm hik)]
end

/-- No CPU leaves before all have entered, and then each leaves within three of its own steps. -/
theorem checkpoint_barrier (boot : Fin n) (schedule : List (Fin n)) :
    (∀ k, (run boot (init boot) schedule).phase k=.left →
      ∀ j, ((run boot (init boot) schedule).phase j).entered=true) ∧
    ((∀ j, ((run boot (init boot) schedule).phase j).entered=true) →
      ∀ k more, 3 ≤ more.count k → (run boot (run boot (init boot) schedule) more).phase k=.left) := by
  have hinv := (inv_init boot).run schedule
  constructor
  · exact hinv.barrier
  · intro hall k more hm
    have hle := run_stepsLeft hinv hall k more
    have hs := ((run boot (init boot) schedule).phase k).stepsLeft_le
    apply Phase.eq_left
    omega

-- the second CPU enters before the first one has started all, and waits
example : (run 0 (init (0 : Fin 2)) [0, 0, 0, 0, 1, 1, 1, 1, 1, 1]).phase 1=.loadNum := by decide

example : ∀ k, (run 0 (init (0 : Fin 2)) [0, 0, 0, 0, 1, 1, 1, 1, 1, 1, 0, 0, 0, 0, 0, 1, 1]).phase k=.left := by
  decide

end Yaos2.Cpu.Checkpoint
