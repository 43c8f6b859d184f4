import Yaos2.Memory.Process

/-! # Moving the offset of a file

The displacement of `lseek` is extended to 64 bits with zeros. -/
namespace Yaos2.Vfs
open Memory

def seekSet : BitVec 32 := 1
def seekCur : BitVec 32 := 2
def seekEnd : BitVec 32 := 3

def eOverflow : ℤ := 101
def eParam : ℤ := 102
def intMax : ℤ := 0x7FFFFFFF

/-- The offset of a file, and what `get_size` of its node returns. -/
structure Position where
  size : BitVec 64
  offset : BitVec 64
  deriving DecidableEq, Repr

def vfsFileSeek (f : Position) (offset : BitVec 64) (whence : BitVec 32) : BitVec 64 × Position :=
  let f :=
    if whence=seekSet then {f with offset := offset}
    else if whence=seekCur then {f with offset := f.offset+offset}
    else if whence=seekEnd then {f with offset := f.size+offset}
    else f
  (f.offset, f)

def syscallCheckOverflow (x : BitVec 64) : Bool := x.toInt > intMax

/-- `syscall_lseek`, for the file that `proc_get_file` finds. -/
def syscallLseek (file : Option Position) (offset : BitVec 64) (whence : BitVec 32) : BitVec 64 × Option Position :=
  if whence≠seekSet ∧ whence≠seekCur ∧ whence≠seekEnd then (BitVec.ofInt 64 (-eParam), file)
  else
    match file with
    | none => (BitVec.ofInt 64 (-eUnspec), none)
    | some f =>
      let (ret, f) := vfsFileSeek f offset whence
      if syscallCheckOverflow ret then (BitVec.ofInt 64 (-eOverflow), some f) else (ret, some f)

/-- The case of `syscall_handler`, from the registers `ecx` and `edx` to `eax`. -/
def lseekHandler (file : Option Position) (ecx edx : BitVec 32) : BitVec 32 × Option Position :=
  let (ret, file) := syscallLseek file (ecx.setWidth 64) edx
  (ret.setWidth 32, file)

/-- What the displacement is added to. -/
def Position.base (f : Position) (whence : BitVec 32) : BitVec 64 :=
  if whence=seekSet then 0 else if whence=seekCur then f.offset else f.size

/-- Where the user wants to go. -/
def Position.target (f : Position) (d whence : BitVec 32) : ℤ := (f.base whence).toInt+d.toInt

/-- The file is moved where the user wants to go, or the call fails and the file is as it was. -/
def Position.Seeks (f : Position) (d whence : BitVec 32) (r : BitVec 32 × Option Position) : Prop :=
  if 0≤f.target d whence ∧ f.target d whence ≤ intMax then
    r.1.toInt=f.target d whence ∧ r.2=some {f with offset := BitVec.ofInt 64 (f.target d whence)}
  else r.1.toInt<0 ∧ r.2=some f

variable {f : Position} {d whence : BitVec 32}

theorem vfsFileSeek_eq (offset : BitVec 64) (hw : whence=seekSet ∨ whence=seekCur ∨ whence=seekEnd) :
    vfsFileSeek f offset whence=(f.base whence+offset, {f with offset := f.base whence+offset}) := by
  obtain rfl | rfl | rfl := hw <;> simp [vfsFileSeek,Position.base,seekSet,seekCur,seekEnd]

theorem lseekHandler_eq (hw : whence=seekSet ∨ whence=seekCur ∨ whence=seekEnd) :
    lseekHandler (some f) d whence =
      (if syscallCheckOverflow (f.base whence+d.setWidth 64) then BitVec.ofInt 32 (-eOverflow)
        else (f.base whence+d.setWidth 64).setWidth 32,
        some {f with offset := f.base whence+d.setWidth 64}) := by
  have hv : ¬ (whence≠seekSet ∧ whence≠seekCur ∧ whence≠seekEnd) := by tauto
  rw [lseekHandler,syscallLseek,if_neg hv]
  dsimp only
  rw [vfsFileSeek_eq _ hw]
  have hcut : (BitVec.ofInt 64 (-eOverflow)).setWidth 32=BitVec.ofInt 32 (-eOverflow) := by decide
  split
  · rw [hcut]
  · rfl

theorem toInt_add_setWidth (hd : 0≤d.toInt) (hf : base.toInt+d.toInt<2^63) :
    (base+d.setWidth 64).toInt=base.toInt+d.toInt := by
  have hb := BitVec.le_toInt base
  have hds : (d.setWidth 64).toInt=d.toInt := by
    have hlt := d.isLt
    rw [BitVec.toInt_eq_toNat_cond] at hd
    rw [BitVec.toInt_setWidth,BitVec.toInt_eq_toNat_cond,if_pos (by split at hd <;> omega)]
    apply Int.bmod_eq_of_le <;> omega
  rw [BitVec.toInt_add,hds]
  apply Int.bmod_eq_of_le <;> omega

theorem toInt_setWidth_of_le {x : BitVec 64} (h : 0≤x.toInt) (hmax : x.toInt ≤ intMax) :
    (x.setWidth 32).toInt=x.toInt := by
  have hnat : x.toInt=x.toNat := by
    have hlt := x.isLt
    rw [BitVec.toInt_eq_toNat_cond] at h ⊢
    split at h <;> omega
  rw [BitVec.toInt_setWidth,← hnat]
  simp only [intMax] at hmax
  apply Int.bmod_eq_of_le <;> omega

end Yaos2.Vfs
