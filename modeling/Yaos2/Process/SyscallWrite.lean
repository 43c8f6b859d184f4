import Yaos2.Memory.Process
import Yaos2.Memory.UserMemory

/-! # Writing user memory to a file

The copy of a round is taken at `buf + num_written`, where `num_written` is the answer to the last round
alone. -/
namespace Yaos2.Process
open Foundation Memory List

def syscallFileBuffer : ℕ := 512

/-- The machine, and the buffers that `file->write` was given. -/
structure Transfer where
  machine : Machine
  sent : List (List UInt8)

/-- What `file->write` answers to a buffer, after the buffers it was given before. -/
abbrev FileWrite := List (List UInt8) → List UInt8 → ℤ

def Transfer.onMachine {α : Type} (x : Kernel α) : Exec Transfer α :=
  zoom Transfer.machine (fun m t=>{t with machine := m}) x

def callWrite (write : FileWrite) (part : List UInt8) : Exec Transfer ℤ := do
  let t ← get
  set {t with sent := t.sent++[part]}
  return write t.sent part

def fileBatch (count : ℕ) : ℕ :=
  if count/syscallFileBuffer > 0 then syscallFileBuffer else count%syscallFileBuffer

variable (L : Layout)

/-- A file accepts at most the bytes it is given, and the loop goes on when it accepts some. -/
def writeLoop (pd buf : ℕ) (write : FileWrite) : ℕ → ℕ → ℤ → ℤ → List UInt8 → Exec Transfer ℤ
  | 0, _, _, ret, _ => return ret
  | fuel+1, count, numWritten, ret, kbuf =>
    if count > 0 then do
      let batch := fileBatch count
      let part ← Transfer.onMachine (procVmread L pd ((buf+numWritten)%2^32).toNat (kbuf.take batch))
      let answer ← callWrite write part
      if answer<0 then
        return -eUnspec
      else if answer=0 then
        return ret
      else
        writeLoop pd buf write fuel ((count-answer)%2^32).toNat answer
          (Int.bmod (ret+answer) (2^32)) (part++kbuf.drop batch)
    else return ret

/-- `syscall_write`, for the file that `proc_get_file` finds. -/
def syscallWrite (pd : ℕ) (file : Option FileWrite) (buf count : ℕ) : Exec Transfer ℤ := do
  let _ ← Transfer.onMachine (cpuSetCr3 L.physKernelPd)
  match file with
  | none =>
    let _ ← Transfer.onMachine (cpuSetCr3 pd)
    return -eUnspec
  | some write =>
    let ret ← writeLoop L pd buf write count count 0 0 (List.replicate syscallFileBuffer 0)
    let _ ← Transfer.onMachine (cpuSetCr3 pd)
    return ret

def taken (write : FileWrite) (sent : List (List UInt8)) (k : ℕ) : ℕ :=
  (write (sent.take k) (sent.getD k [])).toNat

def accepted (write : FileWrite) (sent : List (List UInt8)) : ℕ → ℕ
  | 0 => 0
  | k+1 => accepted write sent k+taken write sent k

/-- The bytes that were accepted in the round before the buffer `k`. -/
def lastTaken (write : FileWrite) (sent : List (List UInt8)) : ℕ → ℕ
  | 0 => 0
  | k+1 => taken write sent k

/-- The buffers are bytes of the process, found as far into the user's buffer as the last answer says. -/
def Passed (m : Mem) (pd buf count : ℕ) (write : FileWrite) (sent : List (List UInt8)) : Prop :=
  ∀ k<sent.length, accepted write sent k<count ∧
    sent.getD k []=userBytes m pd (buf+lastTaken write sent k) (fileBatch (count-accepted write sent k))

/-- The transfer is complete, or the file did not accept any more. -/
def Finished (count : ℕ) (write : FileWrite) (sent : List (List UInt8)) (ret : ℤ) : Prop :=
  accepted write sent sent.length=count ∧ ret=Int.bmod count (2^32) ∨
    ∃ h part, sent=h++[part] ∧ write h part≤0

variable {L} {s : Machine} {t : Transfer} {m : Mem} {pd buf count a l k fuel : ℕ} {write : FileWrite}
  {sent : List (List UInt8)} {part kbuf : List UInt8} {ret : ℤ}

theorem fileBatch_eq (count : ℕ) : fileBatch count=min count syscallFileBuffer := by
  rw [fileBatch,syscallFileBuffer]
  split <;> omega

theorem fileBatch_le (count : ℕ) : fileBatch count≤count ∧ fileBatch count ≤ syscallFileBuffer := by
  rw [fileBatch_eq]
  omega

theorem fileBatch_pos (h : 0<count) : 0<fileBatch count := by
  rw [fileBatch_eq,syscallFileBuffer]
  omega

theorem lastTaken_le (write : FileWrite) (sent : List (List UInt8)) (k : ℕ) :
    lastTaken write sent k≤accepted write sent k := by
  cases k with
  | zero => exact le_refl _
  | succ k => exact Nat.le_add_left _ _

theorem lastTaken_eq (hk : k<2) : lastTaken write sent k=accepted write sent k := by
  interval_cases k
  · rfl
  · exact (Nat.zero_add _).symm

section

theorem taken_append (hk : k<sent.length) : taken write (sent++[part]) k=taken write sent k := by
  rw [taken,taken,take_append_of_le_length hk.le,getD_append _ _ _ _ hk]

theorem accepted_append (hk : k ≤ sent.length) : accepted write (sent++[part]) k=accepted write sent k := by
  induction k with
  | zero => rfl
  | succ k ih => rw [accepted,accepted,ih (by omega),taken_append hk]

theorem lastTaken_append (hk : k ≤ sent.length) :
    lastTaken write (sent++[part]) k=lastTaken write sent k := by
  cases k with
  | zero => rfl
  | succ k => exact taken_append hk

theorem taken_last : taken write (sent++[part]) sent.length=(write sent part).toNat := by
  rw [taken,take_left,getD_append_right _ _ _ _ le_rfl,Nat.sub_self]
  rfl

theorem accepted_last : accepted write (sent++[part]) (sent++[part]).length =
    accepted write sent sent.length+(write sent part).toNat := by
  rw [length_append,length_singleton,accepted,accepted_append le_rfl,taken_last]

theorem lastTaken_last : lastTaken write (sent++[part]) (sent++[part]).length=(write sent part).toNat := by
  rw [length_append,length_singleton,lastTaken,taken_last]

theorem Passed.append (h : Passed m pd buf count write sent) (hlt : accepted write sent sent.length<count)
    (hp : part=userBytes m pd (buf+lastTaken write sent sent.length)
      (fileBatch (count-accepted write sent sent.length))) :
    Passed m pd buf count write (sent++[part]) := by
  intro k hk
  rw [length_append,length_singleton,Nat.lt_succ_iff] at hk
  rw [accepted_append hk,lastTaken_append hk]
  obtain hlt' | rfl := hk.lt_or_eq
  · rw [getD_append _ _ _ _ hlt']
    exact h k hlt'
  · rw [getD_append_right _ _ _ _ le_rfl,Nat.sub_self]
    exact ⟨hlt,hp⟩
end

theorem Transfer.wp_onMachine : Ensures (Transfer.onMachine x) t Q E ↔
      Ensures x t.machine (fun a u=>Q a {t with machine := u}) (fun u=>E {t with machine := u}) :=
  wp_zoom _ _ _ _ _ _

theorem wp_callWrite : Ensures (callWrite write part) t Q E ↔
      Q (write t.sent part) {t with sent := t.sent++[part]} := by
  simp [callWrite]

theorem round_read (hd : Directory L m pd) (hf : Framed L m pd buf count)
    (hkr : s.env.isUsingKernelPageTables L=true) (hmem : s.mem=m) (hla : l≤a) (ha : a<count)
    (hkb : kbuf.length=syscallFileBuffer) :
    Returns (procVmread L pd ((buf+(l : ℤ))%2^32).toNat (kbuf.take (fileBatch (count-a)))) s (fun part u =>
      part=userBytes m pd (buf+l) (fileBatch (count-a)) ∧ u.mem=m ∧ u.env=s.env) := by
  subst hmem
  have hft := hf.fits
  have hbt := fileBatch_le (count-a)
  have had : ((buf+(l : ℤ))%2^32).toNat=buf+l := by omega
  have hlen : (kbuf.take (fileBatch (count-a))).length=fileBatch (count-a) := by
    rw [length_take,hkb]
    exact Nat.min_eq_left hbt.2
  have hrn : Framed L s.mem pd (buf+l) (kbuf.take (fileBatch (count-a))).length := by
    rw [hlen]
    exact hf.sub (by omega)
  rw [had]
  simp only [procVmread,Returns,wp_bind,wp_isUsingKernelPageTables,wp_kassert hkr]
  have hrd := vmread_framed hkr hd hrn
  rwa [hlen] at hrd

theorem writeLoop_spec (hd : Directory L m pd) (hf : Framed L m pd buf count)
    (han : ∀ h part, write h part≤(part.length : ℤ)) (hkr : t.machine.env.isUsingKernelPageTables L=true)
    (hmem : t.machine.mem=m) (hps : Passed m pd buf count write t.sent)
    (hle : accepted write t.sent t.sent.length≤count)
    (hfl : count-accepted write t.sent t.sent.length≤fuel) (hkb : kbuf.length=syscallFileBuffer) :
    Returns (writeLoop L pd buf write fuel (count-accepted write t.sent t.sent.length)
      (lastTaken write t.sent t.sent.length) (Int.bmod (accepted write t.sent t.sent.length) (2^32)) kbuf) t
      (fun ret u=>u.machine.mem=m ∧ Passed m pd buf count write u.sent ∧
        Finished count write u.sent ret) := by
  induction fuel generalizing t kbuf with
  | zero =>
    have hall : accepted write t.sent t.sent.length=count := by omega
    rw [writeLoop,Returns,wp_pure]
    exact ⟨hmem,hps,.inl ⟨hall,by rw [hall]⟩⟩
  | succ fuel ih =>
    rw [writeLoop,Returns]
    split
    · next hpos =>
      have hrd := round_read hd hf hkr hmem (lastTaken_le write t.sent t.sent.length)
        (Nat.lt_of_sub_pos hpos) hkb
      rw [wp_bind,Transfer.wp_onMachine]
      refine hrd.mono ?_ (fun _ hF=>hF.elim)
      rintro part u ⟨hpr,hum,hun⟩
      rw [wp_bind,wp_callWrite]
      dsimp only
      have hpl : part.length=fileBatch (count-accepted write t.sent t.sent.length) := by
        rw [hpr,length_userBytes]
      have hbt := fileBatch_le (count-accepted write t.sent t.sent.length)
      have hnx := hps.append (Nat.lt_of_sub_pos hpos) hpr
      have hans := han t.sent part
      split
      · next hneg =>
        rw [wp_pure]
        exact ⟨hum,hnx,.inr ⟨_,_,rfl,hneg.le⟩⟩
      · split
        · next hzr =>
          rw [wp_pure]
          exact ⟨hum,hnx,.inr ⟨_,_,rfl,hzr.le⟩⟩
        · next hneg hzr =>
          have hft := hf.fits
          have hkb' : (part++kbuf.drop (fileBatch (count-accepted write t.sent t.sent.length))).length =
              syscallFileBuffer := by
            rw [length_append,length_drop,hpl,hkb]
            omega
          have hcl := ih (t := ⟨u,t.sent++[part]⟩) (by rw [hun]; exact hkr) hum hnx
            (by rw [accepted_last]; omega) (by rw [accepted_last]; omega) hkb'
          rw [accepted_last,lastTaken_last] at hcl
          have hcn : (((count-accepted write t.sent t.sent.length : ℕ)-write t.sent part)%2^32).toNat =
              count-(accepted write t.sent t.sent.length+(write t.sent part).toNat) := by omega
          have hnat : (((write t.sent part).toNat : ℕ) : ℤ)=write t.sent part := by omega
          rw [hnat,Nat.cast_add,hnat,← Int.bmod_add_bmod] at hcl
          rw [hcn]
          exact hcl
    · next hzr =>
      have hall : accepted write t.sent t.sent.length=count := by omega
      rw [wp_pure]
      exact ⟨hmem,hps,.inl ⟨hall,by rw [hall]⟩⟩

section

theorem taken_of_all (hall : ∀ h part, write h part=(part.length : ℤ)) (hp : Passed m pd buf count write sent)
    (hk : k<sent.length) : taken write sent k=fileBatch (count-accepted write sent k) := by
  rw [taken,hall,Int.toNat_natCast,(hp k hk).2,length_userBytes]

section
variable (hp : Passed m pd buf count write sent) (hall : ∀ h part, write h part=(part.length : ℤ))
include hp hall
theorem Passed.flatten_take (hk : k ≤ sent.length) (hk2 : k≤2) :
    (sent.take k).flatten=userBytes m pd buf (accepted write sent k) := by
  induction k with
  | zero => rfl
  | succ k ih =>
    have hbuf := (hp k hk).2
    rw [lastTaken_eq hk2,getD_eq_getElem _ _ hk] at hbuf
    rw [take_succ_eq_append_getElem hk,flatten_append,flatten_singleton,ih (by omega) (by omega),
      hbuf,accepted,taken_of_all hall hp hk,userBytes_add]

theorem Passed.length_le (hcn : count≤2*syscallFileBuffer) : sent.length≤2 := by
  by_contra hc
  have h0 := taken_of_all hall hp (k := 0) (by omega)
  have h1 := taken_of_all hall hp (k := 1) (by omega)
  have h2 := (hp 2 (by omega)).1
  simp only [accepted,Nat.zero_add,Nat.sub_zero] at h0 h1 h2
  rw [h1,h0,fileBatch_eq,fileBatch_eq] at h2
  omega
end

theorem Passed.whole (hp : Passed m pd buf count write sent) (hfin : Finished count write sent ret)
    (hall : ∀ h part, write h part=(part.length : ℤ)) (hcn : count≤2*syscallFileBuffer) :
    sent.flatten=userBytes m pd buf count ∧ ret=count := by
  have hdn : accepted write sent sent.length=count ∧ ret=Int.bmod count (2^32) := by
    apply hfin.resolve_right
    rintro ⟨h,part,rfl,hle⟩
    have hls := taken_of_all hall hp (k := h.length) (by simp)
    have hpos := fileBatch_pos (Nat.sub_pos_of_lt (hp h.length (by simp)).1)
    rw [taken_last] at hls
    omega
  have hret : Int.bmod count (2^32)=count := by
    simp only [syscallFileBuffer] at hcn
    rw [Int.bmod_eq_of_le] <;> omega
  have hfl := hp.flatten_take hall le_rfl (hp.length_le hall hcn)
  rw [take_length,hdn.1] at hfl
  exact ⟨hfl,by rw [hdn.2,hret]⟩
end

def acceptsAll : FileWrite := fun _ part=>part.length

end Yaos2.Process
