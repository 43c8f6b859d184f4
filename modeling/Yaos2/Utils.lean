import Mathlib.Data.List.Infix

/-! # String functions

A C string is the list of its characters before the terminating zero. -/
namespace Yaos2

open List

def vfsSeparator : UInt8 := 0x2f

/-- The characters of a buffer before the first zero. -/
def cString (buf : List UInt8) : List UInt8 := buf.takeWhile (fun c=>c != 0)

/-- Compare the first `len` characters. -/
def kstrncmp : List UInt8 → List UInt8 → ℕ → Bool
  | _, _, 0 => true
  | p1, p2, len+1 => p1.headD 0 == p2.headD 0 && kstrncmp p1.tail p2.tail len

/-- Both lengths are taken of `p1`. -/
def kstrcmp (p1 p2 : List UInt8) : Bool :=
  let l1 := p1.length
  let l2 := p1.length
  if l1≠l2 then false else kstrncmp p1 p2 l1

/-- The rest of the string from the first occurrence of a character on. -/
def kstrchr : List UInt8 → UInt8 → Option (List UInt8)
  | [], _ => none
  | c::str, chr => if c=chr then some (c::str) else kstrchr str chr

variable {p q buf : List UInt8} {n : ℕ}

theorem kstrncmp_comm (p q : List UInt8) (n : ℕ) : kstrncmp p q n=kstrncmp q p n := by
  induction n generalizing p q with
  | zero => rfl
  | succ n ih => rw [kstrncmp,kstrncmp,ih,BEq.comm]

theorem kstrncmp_append_iff (hp : 0 ∉ p) (rest : List UInt8) :
    kstrncmp buf (p++rest) p.length=true ↔ p <+: buf := by
  induction p generalizing buf with
  | nil => simp [kstrncmp]
  | cons c p ih =>
    have hc : c≠0 := fun h=>hp (h▸mem_cons_self)
    rw [length_cons,cons_append,kstrncmp,headD_cons,tail_cons,Bool.and_eq_true,
      ih (fun h=>hp (mem_cons_of_mem c h)),beq_iff_eq]
    cases buf with
    | nil => simp [hc.symm]
    | cons b buf => rw [headD_cons,tail_cons,cons_prefix_cons,eq_comm]

theorem kstrncmp_iff (hp : 0 ∉ p) : kstrncmp buf p p.length=true ↔ p <+: buf := by
  have h : kstrncmp buf (p++[]) p.length=true ↔ p <+: buf := kstrncmp_append_iff hp []
  rwa [append_nil] at h

theorem kstrcmp_iff (hp : 0 ∉ p) : kstrcmp p q=true ↔ p <+: q := by
  rw [kstrcmp,if_neg (by simp),kstrncmp_comm,kstrncmp_iff hp]

theorem prefix_cString_iff (hp : 0 ∉ p) : p <+: cString buf ↔ p <+: buf := by
  induction p generalizing buf with
  | nil => simp
  | cons c p ih =>
    have hc : c≠0 := fun h=>hp (h▸mem_cons_self)
    cases buf with
    | nil => simp [cString]
    | cons b buf =>
      have ih' : p <+: cString buf ↔ p <+: buf := ih (fun h=>hp (mem_cons_of_mem c h))
      rw [cons_prefix_cons,cString,takeWhile_cons]
      rcases eq_or_ne b 0 with rfl | hb
      · simp [hc]
      · rw [if_pos (by simpa using hb),cons_prefix_cons]
        exact and_congr_right (fun _=>ih')

theorem cString_append_of_mem (h : 0 ∈ p) (q : List UInt8) : cString (p++q)=cString p := by
  induction p with
  | nil => cases h
  | cons c p ih =>
    rcases eq_or_ne c 0 with rfl | hc
    · rfl
    · have hmem := (mem_cons.mp h).resolve_left (fun h0=>hc h0.symm)
      rw [cString,cString,cons_append,takeWhile_cons,takeWhile_cons,
        if_pos (by simpa using hc),if_pos (by simpa using hc)]
      exact congrArg _ (ih hmem)

theorem length_cString_le (h : buf[i]? = some 0) : (cString buf).length ≤ i := by
  induction buf generalizing i with
  | nil => simp at h
  | cons c buf ih =>
    rw [cString,takeWhile_cons]
    split
    case isFalse => simp
    case isTrue hc =>
      cases i with
      | zero => simp_all
      | succ i => exact Nat.succ_le_succ (ih (by simpa using h))

theorem cString_append_zeros (p : List UInt8) (n : ℕ) : cString (p++List.replicate n 0)=cString p := by
  induction p with
  | nil => cases n <;> rfl
  | cons c p ih =>
    rw [cString,cString,cons_append,takeWhile_cons,takeWhile_cons]
    exact congrArg (fun l=>if (c != 0)=true then c::l else []) ih

theorem kstrchr_append (h : c ∉ p) (q : List UInt8) : kstrchr (p++q) c=kstrchr q c := by
  induction p with
  | nil => rfl
  | cons x p ih =>
    have hx : x≠c := fun h'=>h (h'▸mem_cons_self)
    rw [cons_append,kstrchr,if_neg hx,ih (fun h'=>h (mem_cons_of_mem x h'))]

end Yaos2
