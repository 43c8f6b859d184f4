import Yaos2.Foundation.Exec
import Yaos2.Foundation.Transition

/-! # Monitors

Threads share an object behind one mutex and one condition. A thread that has the mutex runs its code
in sections; after each it keeps the mutex, waits on the condition, or lets the mutex go.

The proof rule has an assertion for when the mutex is free and one for the thread that has it. Both
may refer to a debt: whether a thread waits where it still owes something to the object. -/
namespace Yaos2.Foundation
open Function

/-- How a thread goes on after a section of its code. -/
inductive Move (P : Type)
  | pass (notify : Bool) (p : P)
  | wait (p : P)
  | leave (notify : Bool) (p : P)

/-- Which calls are made next, which places are before the mutex, and the sections. -/
structure Monitor (P σ : Type) where
  choose : P → P → Prop
  enters : P → Prop
  body : P → Exec σ (Move P)

inductive Status (P : Type)
  | outside (p : P)
  | inside (p : P)
  | asleep (p : P)
  | woken (p : P)
  | leaving (notify : Bool) (p : P)

structure MonState (T P σ : Type) where
  shared : σ
  status : T → Status P
  panicked : Bool

variable {T P σ : Type}

def MonState.Free (m : MonState T P σ) : Prop := ∀ t p, m.status t≠.inside p

def MonState.goto [DecidableEq T] (m : MonState T P σ) (t : T) (st : Status P) : MonState T P σ :=
  {m with status := update m.status t st}

/-- A notification wakes at most one of the sleeping threads. -/
inductive Notified [DecidableEq T] : Bool → (T → Status P) → (T → Status P) → Prop
  | nobody {n : Bool} {st : T → Status P} : Notified n st st
  | one {st : T → Status P} {u : T} {q : P} : st u=.asleep q → Notified true st (update st u (.woken q))

inductive Monitor.Step [DecidableEq T] (M : Monitor P σ) : MonState T P σ → MonState T P σ → Prop
  | choose {m : MonState T P σ} {t : T} {p p' : P} : m.panicked=false → m.status t=.outside p →
      M.choose p p' → M.Step m (m.goto t (.outside p'))
  | chooseInside {m : MonState T P σ} {t : T} {p p' : P} : m.panicked=false → m.status t=.inside p →
      M.choose p p' → M.Step m (m.goto t (.inside p'))
  | enter {m : MonState T P σ} {t : T} {p : P} : m.panicked=false → m.Free →
      m.status t=.outside p → M.enters p → M.Step m (m.goto t (.inside p))
  | wake {m : MonState T P σ} {t : T} {p : P} : m.panicked=false → m.Free →
      m.status t=.woken p → M.Step m (m.goto t (.inside p))
  | pass {m : MonState T P σ} {t : T} {p p' : P} {n : Bool} {s : σ} {st : T → Status P} :
      m.panicked=false → m.status t=.inside p → M.body p m.shared=.ok (.pass n p') s →
      Notified n (update m.status t (.inside p')) st → M.Step m ⟨s,st,false⟩
  | wait {m : MonState T P σ} {t : T} {p p' : P} {s : σ} : m.panicked=false →
      m.status t=.inside p → M.body p m.shared=.ok (.wait p') s →
      M.Step m ⟨s,update m.status t (.asleep p'),false⟩
  | leave {m : MonState T P σ} {t : T} {p p' : P} {n : Bool} {s : σ} : m.panicked=false →
      m.status t=.inside p → M.body p m.shared=.ok (.leave n p') s →
      M.Step m ⟨s,update m.status t (.leaving n p'),false⟩
  | notify {m : MonState T P σ} {t : T} {p : P} {n : Bool} {st : T → Status P} : m.panicked=false →
      m.status t=.leaving n p → Notified n (update m.status t (.outside p)) st →
      M.Step m {m with status := st}
  | panic {m : MonState T P σ} {t : T} {p : P} {e : String} {s : σ} : m.panicked=false →
      m.status t=.inside p → M.body p m.shared=.error e s →
      M.Step m ⟨s,m.status,true⟩

abbrev Monitor.Run [DecidableEq T] (M : Monitor P σ) : MonState T P σ → MonState T P σ → Prop :=
  Relation.ReflTransGen M.Step

/-- A thread waits, asleep or already woken, at the place `p`. -/
def Status.Waits (st : Status P) (p : P) : Prop := st=.asleep p ∨ st=.woken p

def SomeWaits (st : T → Status P) (p : P) : Prop := ∃ t, (st t).Waits p

/-- Some thread waits at a place from which it owes something. -/
def MonState.Owed (B : P → Prop) (m : MonState T P σ) : Prop := ∃ p, SomeWaits m.status p ∧ B p

/-- `F` when the mutex is free, `H` for its holder, `K` for places that wait, with the debts `B`. -/
structure Monitor.Proof (M : Monitor P σ) (B K : P → Prop) (F : Prop → σ → Prop)
    (H : Prop → P → σ → Prop) : Prop where
  choose : ∀ d p p' s, M.choose p p' → H d p s → H d p' s
  enter : ∀ d p s, M.enters p → F d s → H d p s
  wake : ∀ d p s, K p → F (d ∨ B p) s → H d p s
  body : ∀ d p s, H d p s → Returns (M.body p) s (fun mv s'=>match mv with
    | .pass _ p' => H d p' s'
    | .wait p' => K p' ∧ F (d ∨ B p') s'
    | .leave _ _ => F d s')

/-- What holds in every state of a run. -/
structure Monitor.Holds (B K : P → Prop) (F : Prop → σ → Prop) (H : Prop → P → σ → Prop)
    (m : MonState T P σ) : Prop where
  calm : m.panicked=false
  exclusive : ∀ t u p q, m.status t=.inside p → m.status u=.inside q → t=u
  waits : ∀ t p, (m.status t).Waits p → K p
  free : m.Free → F (m.Owed B) m.shared
  holder : ∀ t p, m.status t=.inside p → H (m.Owed B) p m.shared

variable {M : Monitor P σ} {B K : P → Prop} {F : Prop → σ → Prop} {H : Prop → P → σ → Prop}
  {m m' : MonState T P σ} {st st' : T → Status P} {x : Status P} {n : Bool} {t u : T} {p p' q : P}

section
variable [DecidableEq T]

theorem eq_of_update (hne : u≠t) (h : update st t x u=y) : st u=y := by rwa [update_of_ne hne] at h

theorem not_waits_inside : ¬ (Status.inside p).Waits q := by simp [Status.Waits]

theorem not_waits_outside : ¬ (Status.outside p).Waits q := by simp [Status.Waits]

theorem not_waits_leaving : ¬ (Status.leaving n p).Waits q := by simp [Status.Waits]

theorem someWaits_update (h : ∀ q, ¬ (st t).Waits q) (hx : ∀ q, ¬ x.Waits q) :
    SomeWaits (update st t x) q ↔ SomeWaits st q := by
  constructor
  · rintro ⟨u,hu⟩
    rw [update_apply] at hu
    split at hu
    · exact absurd hu (hx q)
    · exact ⟨u,hu⟩
  · rintro ⟨u,hu⟩
    refine ⟨u,?_⟩
    have hut : u≠t := fun hut=>h q (by rwa [hut] at hu)
    rwa [update_of_ne hut]

theorem someWaits_asleep (h : ∀ q, ¬ (st t).Waits q) :
    SomeWaits (update st t (.asleep p)) q ↔ SomeWaits st q ∨ q=p := by
  constructor
  · rintro ⟨u,hu⟩
    rw [update_apply] at hu
    split at hu
    · exact .inr (by simpa [Status.Waits,eq_comm] using hu)
    · exact .inl ⟨u,hu⟩
  · rintro (⟨u,hu⟩ | rfl)
    · refine ⟨u,?_⟩
      have hut : u≠t := fun hut=>h q (by rwa [hut] at hu)
      rwa [update_of_ne hut]
    · exact ⟨t,.inl (update_self ..)⟩

theorem someWaits_of_woken (h : st t=.woken p) :
    SomeWaits st q ↔ SomeWaits (update st t (.inside p')) q ∨ q=p := by
  constructor
  · rintro ⟨u,hu⟩
    by_cases hut : u=t
    · rw [hut,h] at hu
      exact .inr (by simpa [Status.Waits,eq_comm] using hu)
    · exact .inl ⟨u,by rwa [update_of_ne hut]⟩
  · rintro (⟨u,hu⟩ | rfl)
    · rw [update_apply] at hu
      split at hu
      · exact absurd hu not_waits_inside
      · exact ⟨u,hu⟩
    · exact ⟨t,.inr h⟩

theorem Notified.someWaits (h : Notified n st st') : SomeWaits st' q ↔ SomeWaits st q := by
  cases h with
  | nobody => exact Iff.rfl
  | @one _ u r hu =>
    constructor
    · rintro ⟨v,hv⟩
      rw [update_apply] at hv
      split at hv
      · next hvu => exact ⟨u,.inl (by simpa [Status.Waits,eq_comm,hu] using hv)⟩
      · exact ⟨v,hv⟩
    · rintro ⟨v,hv⟩
      refine ⟨v,?_⟩
      rw [update_apply]
      split
      · next hvu =>
        rw [hvu,hu] at hv
        exact .inr (by simpa [Status.Waits] using hv)
      · exact hv

theorem inside_update_iff (h : st t≠.inside p) (hx : x≠.inside p) :
    update st t x u=.inside p ↔ st u=.inside p := by
  rw [update_apply]
  split
  · next hut => exact iff_of_false hx (hut▸h)
  · exact Iff.rfl

theorem Notified.inside_iff (h : Notified n st st') : st' t=.inside p ↔ st t=.inside p := by
  cases h with
  | nobody => exact Iff.rfl
  | @one _ u r hu =>
    rw [update_apply]
    split
    · next htu => simp [htu,hu]
    · exact Iff.rfl

omit [DecidableEq T] in
theorem MonState.owed_congr (h : ∀ q, SomeWaits m'.status q ↔ SomeWaits m.status q) : m'.Owed B ↔ m.Owed B :=
  exists_congr (fun q=>and_congr_left' (h q))

omit [DecidableEq T] in
theorem MonState.owed_add (h : ∀ q, SomeWaits m'.status q ↔ SomeWaits m.status q ∨ q=p) :
    m'.Owed B ↔ m.Owed B ∨ B p := by
  simp [MonState.Owed,h]
end

section

theorem Monitor.Holds.keep (h : Holds B K F H m) (hcl : m'.panicked=false)
    (hsh : m'.shared=m.shared) (hwt : ∀ q, SomeWaits m'.status q ↔ SomeWaits m.status q)
    (hin : ∀ t p, m'.status t=.inside p ↔ m.status t=.inside p) : Holds B K F H m' := by
  have how : m'.Owed B=m.Owed B := propext (MonState.owed_congr hwt)
  refine ⟨hcl,fun t u p q ht hu=>h.exclusive t u p q ((hin t p).mp ht) ((hin u q).mp hu),
    fun t p ht=>?_,fun hfr=>?_,fun t p ht=>?_⟩
  · obtain ⟨u,hu⟩ := (hwt p).mp ⟨t,ht⟩
    exact h.waits u p hu
  · rw [hsh,how]
    exact h.free (fun t p ht=>hfr t p ((hin t p).mpr ht))
  · rw [hsh,how]
    exact h.holder t p ((hin t p).mp ht)

theorem Monitor.Holds.held (h : Holds B K F H m) (hcl : m'.panicked=false)
    (hwt : ∀ q, SomeWaits m'.status q → SomeWaits m.status q)
    (hin : m'.status t=.inside p) (hon : ∀ u q, m'.status u=.inside q → u=t)
    (hH : H (m'.Owed B) p m'.shared) : Holds B K F H m' := by
  refine ⟨hcl,fun u v q r hu hv=>(hon u q hu).trans (hon v r hv).symm,fun u q hu=>?_,
    fun hfr=>absurd hin (hfr t p),fun u q hu=>?_⟩
  · obtain ⟨v,hv⟩ := hwt q ⟨u,hu⟩
    exact h.waits v q hv
  · rw [hon u q hu,hin] at hu
    injection hu with hpq
    exact hpq▸hH

theorem Monitor.Holds.released (hc : m'.panicked=false) (hw : ∀ q, SomeWaits m'.status q → K q) (hf : m'.Free)
    (hF : F (m'.Owed B) m'.shared) : Holds B K F H m' :=
  ⟨hc,fun t _ p _ ht _=>absurd ht (hf t p),fun t p ht=>hw p ⟨t,ht⟩,fun _=>hF,
    fun t p ht=>absurd ht (hf t p)⟩

variable [DecidableEq T]

theorem Monitor.Proof.step (hM : M.Proof B K F H) (h : Holds B K F H m) (hst : M.Step m m') :
    Holds B K F H m' := by
  cases hst with
  | @choose t p p' hcl ht hc =>
    have hnw : ∀ q, ¬ (m.status t).Waits q := fun q=>ht▸not_waits_outside
    refine h.keep hcl rfl (fun q=>someWaits_update hnw (fun _=>not_waits_outside)) (fun u q=>?_)
    exact inside_update_iff (by simp [ht]) (by simp)
  | @chooseInside t p p' hcl ht hc =>
    have hnw : ∀ q, ¬ (m.status t).Waits q := fun q=>ht▸not_waits_inside
    have hwt : ∀ q, SomeWaits (m.goto t (.inside p')).status q ↔ SomeWaits m.status q := fun q =>
      someWaits_update hnw (fun _=>not_waits_inside)
    refine h.held (t := t) hcl (fun q=>(hwt q).mp) (update_self ..) (fun u q hu=>?_) ?_
    · by_contra hut
      exact hut (h.exclusive u t q p (eq_of_update hut hu) ht)
    · rw [MonState.owed_congr hwt]
      exact hM.choose _ p p' _ hc (h.holder t p ht)
  | @enter t p hcl hfr ht he =>
    have hnw : ∀ q, ¬ (m.status t).Waits q := fun q=>ht▸not_waits_outside
    have hwt : ∀ q, SomeWaits (m.goto t (.inside p)).status q ↔ SomeWaits m.status q := fun q =>
      someWaits_update hnw (fun _=>not_waits_inside)
    refine h.held (t := t) hcl (fun q=>(hwt q).mp) (update_self ..) (fun u q hu=>?_) ?_
    · by_contra hut
      exact hfr u q (eq_of_update hut hu)
    · rw [MonState.owed_congr hwt]
      exact hM.enter _ p _ he (h.free hfr)
  | @wake t p hcl hfr ht =>
    have hwt : ∀ q, SomeWaits m.status q ↔ SomeWaits (m.goto t (.inside p)).status q ∨ q=p := fun q =>
      someWaits_of_woken ht
    refine h.held (t := t) hcl (fun q hq=>(hwt q).mpr (.inl hq)) (update_self ..)
      (fun u q hu=>?_) ?_
    · by_contra hut
      exact hfr u q (eq_of_update hut hu)
    · apply hM.wake _ p _ (h.waits t p (.inr ht))
      rw [← MonState.owed_add hwt]
      exact h.free hfr
  | @pass t p p' n s st hcl ht hb hnot =>
    have hnw : ∀ q, ¬ (m.status t).Waits q := fun q=>ht▸not_waits_inside
    have hwt : ∀ q, SomeWaits st q ↔ SomeWaits m.status q := fun q =>
      hnot.someWaits.trans (someWaits_update hnw (fun _=>not_waits_inside))
    refine h.held (t := t) (p := p') rfl (fun q=>(hwt q).mp)
      (hnot.inside_iff.mpr (update_self ..)) (fun u q hu=>?_) ?_
    · by_contra hut
      exact hut (h.exclusive u t q p (eq_of_update hut (hnot.inside_iff.mp hu)) ht)
    · rw [MonState.owed_congr (m := m) hwt]
      exact (hM.body _ p _ (h.holder t p ht)).of_ok hb
  | @wait t p p' s hcl ht hb =>
    have hnw : ∀ q, ¬ (m.status t).Waits q := fun q=>ht▸not_waits_inside
    have hwt : ∀ q, SomeWaits (update m.status t (.asleep p')) q ↔
        SomeWaits m.status q ∨ q=p' := fun q=>someWaits_asleep hnw
    obtain ⟨hK,hF⟩ := (hM.body _ p _ (h.holder t p ht)).of_ok hb
    refine .released rfl (fun q hq=>?_) (fun u q hu=>?_) ?_
    · rcases (hwt q).mp hq with ⟨v,hv⟩ | rfl
      · exact h.waits v q hv
      · exact hK
    · by_cases hut : u=t
      · simp [hut] at hu
      · exact hut (h.exclusive u t q p (eq_of_update hut hu) ht)
    · rw [MonState.owed_add (m := m) hwt]
      exact hF
  | @leave t p p' n s hcl ht hb =>
    have hnw : ∀ q, ¬ (m.status t).Waits q := fun q=>ht▸not_waits_inside
    have hwt : ∀ q, SomeWaits (update m.status t (.leaving n p')) q ↔ SomeWaits m.status q :=
      fun q=>someWaits_update hnw (fun _=>not_waits_leaving)
    refine .released rfl (fun q hq=>?_) (fun u q hu=>?_) ?_
    · obtain ⟨v,hv⟩ := (hwt q).mp hq
      exact h.waits v q hv
    · by_cases hut : u=t
      · simp [hut] at hu
      · exact hut (h.exclusive u t q p (eq_of_update hut hu) ht)
    · rw [MonState.owed_congr (m := m) hwt]
      exact (hM.body _ p _ (h.holder t p ht)).of_ok hb
  | @notify t p n st hcl ht hnot =>
    have hnw : ∀ q, ¬ (m.status t).Waits q := fun q=>ht▸not_waits_leaving
    refine h.keep hcl rfl
      (fun q=>hnot.someWaits.trans (someWaits_update hnw (fun _=>not_waits_outside))) (fun u q=>?_)
    exact hnot.inside_iff.trans (inside_update_iff (by simp [ht]) (by simp))
  | @panic t p e s hcl ht hb =>
    obtain ⟨mv,s',hok,-⟩ := (hM.body _ p _ (h.holder t p ht)).exists_ok
    rw [hb] at hok
    cases hok

theorem Monitor.Proof.run (hM : M.Proof B K F H) (hrun : M.Run m m') (hcl : m.panicked=false)
    (hout : ∀ t, ∃ p, m.status t=.outside p) (hF : F False m.shared) : Holds B K F H m' := by
  refine Reaches.invariant (I := Holds B K F H) hrun ?_ (fun a b ha hab=>hM.step ha hab)
  have hwt : ∀ q, ¬ SomeWaits m.status q := by
    rintro q ⟨t,ht⟩
    obtain ⟨p,hp⟩ := hout t
    rw [hp] at ht
    exact not_waits_outside ht
  have how : m.Owed B=False := by
    rw [eq_iff_iff,iff_false]
    rintro ⟨q,hq,-⟩
    exact hwt q hq
  refine .released hcl (fun q hq=>absurd hq (hwt q)) (fun t p ht=>?_) (how▸hF)
  obtain ⟨q,hq⟩ := hout t
  rw [hq] at ht
  cases ht
end

section
variable [DecidableEq T] {s : σ}

theorem Monitor.run_enter (hcl : m.panicked=false) (hfr : m.Free) (ht : m.status t=.outside q)
    (hc : M.choose q p) (he : M.enters p) : M.Run m (m.goto t (.inside p)) := by
  have hin : (m.goto t (.outside p)).status t=.outside p := update_self ..
  have hfr' : (m.goto t (.outside p)).Free := fun u r hu=>by
    by_cases hut : u=t
    · rw [hut,hin] at hu
      cases hu
    · exact hfr u r (eq_of_update hut hu)
  have h1 : M.Step m (m.goto t (.outside p)) := .choose hcl ht hc
  have h2 : M.Step (m.goto t (.outside p)) ((m.goto t (.outside p)).goto t (.inside p)) :=
    .enter hcl hfr' hin he
  have hrun := (Relation.ReflTransGen.single h1).tail h2
  simpa only [MonState.goto,update_idem] using hrun

theorem Monitor.run_leave (hc : m.panicked=false) (ht : m.status t=.inside p)
    (hb : M.body p m.shared=.ok (.leave n p') s)
    (hnot : Notified n (update m.status t (.outside p')) st) : M.Run m ⟨s,st,false⟩ := by
  have h1 : M.Step m ⟨s,update m.status t (.leaving n p'),false⟩ := .leave hc ht hb
  refine (Relation.ReflTransGen.single h1).tail (.notify rfl (update_self ..) ?_)
  rwa [update_idem]
end

end Yaos2.Foundation
