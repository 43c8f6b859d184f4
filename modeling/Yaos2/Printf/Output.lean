import Yaos2.Printf.Nprintf

/-! # Printing to a buffer and through a function -/
namespace Yaos2.Printf
open Foundation List

/-- The memory that the buffers are in, the characters given to the function, and `errno`. -/
structure Output where
  mem : Mem
  emitted : List UInt8
  errno : ℤ

def eoverflow : ℤ := 101

def outputPrinter (overflow : Exec Output Unit) : Printer Output where
  putOne c := modify (fun s=>{s with emitted := s.emitted++[c]})
  store a c := modify (fun s=>{s with mem := Function.update s.mem a c})
  overflow := overflow

def libcPrinter : Printer Output := outputPrinter (modify (fun s=>{s with errno := eoverflow}))

/-- The kernel has no `errno` to set. -/
def kernelPrinter : Printer Output := outputPrinter (pure ())

def sprintf (str : ℕ) (format : List UInt8) (args : List Arg) : Exec Output ℤ :=
  genericNprintf libcPrinter (some str) (-1) format args

/-- The size becomes an `int`. -/
def snprintf (str : ℕ) (num : BitVec 32) (format : List UInt8) (args : List Arg) : Exec Output ℤ :=
  genericNprintf libcPrinter (some str) num format args

def ksnprintf (dest : ℕ) (len : BitVec 32) (format : List UInt8) (args : List Arg) : Exec Output ℤ :=
  genericNprintf kernelPrinter (some dest) len format args

def genericPrintf (format : List UInt8) (args : List Arg) : Exec Output ℤ :=
  genericNprintf kernelPrinter none (-1) format args

variable {overflow : Exec Output Unit} {format : List UInt8} {args : List Arg} {ps : List Piece}

/-! ## Effects on the output -/

theorem emit_none (trace : List (ℕ × UInt8)) (s : Output) : emit (outputPrinter overflow) none trace s =
      .ok () {s with emitted := s.emitted++trace.map Prod.snd} := by
  induction trace generalizing s with
  | nil => simp [emit,pure,EStateM.pure]
  | cons p trace ih =>
    change emit _ none trace {s with emitted := s.emitted++[p.2]}=_
    rw [ih]
    simp

theorem emit_some (dest off : ℕ) (data : List UInt8) (s : Output) :
    emit (outputPrinter overflow) (some dest) (tagged off data) s =
      .ok () {s with mem := blit s.mem (dest+off) data} := by
  induction data generalizing off s with
  | nil => rw [blit_nil]; rfl
  | cons c data ih =>
    rw [tagged_cons]
    change emit _ (some dest) (tagged (off+1) data)
      {s with mem := Function.update s.mem (dest+off) c}=_
    rw [ih,← Nat.add_assoc,blit_cons]

/-! ## Parts that are not filled up -/

/-- No part is filled up with zeroes. -/
def Unpadded (ps : List Piece) : Prop := ∀ p ∈ ps, p.padding=0

theorem Unpadded.render_eq (h : Unpadded ps) : render ps=ps.flatMap Piece.text := by
  refine flatMap_congr (fun p hp=>?_)
  rw [Piece.render,h p hp,replicate_zero,nil_append]

theorem Unpadded.counted_eq (h : Unpadded ps) : counted ps=(render ps).length := by rw [h.render_eq,counted]

theorem Unpadded.placements_eq (h : Unpadded ps) (written : ℕ) :
    placements written ps=tagged written (render ps) := by
  induction ps generalizing written with
  | nil => rfl
  | cons p ps ih =>
    have hp := h p mem_cons_self
    have hps := ih (fun q hq=>h q (mem_cons_of_mem p hq))
    rw [placements,hps,render_cons,tagged_append,Piece.placed,Piece.render,hp]
    rfl

theorem take_tagged (off n : ℕ) (data : List UInt8) :
    (tagged off data).take n=tagged off (data.take n) := by
  induction data generalizing off n with
  | nil => simp [tagged]
  | cons c data ih =>
    cases n with
    | zero => rfl
    | succ n => rw [tagged_cons,take_succ_cons,ih,take_succ_cons,tagged_cons]

/-- What a limit lets through of some characters. A negative one is none. -/
def allowed (remaining : BitVec 32) (n : ℕ) : ℕ :=
  if remaining.toInt<0 then n else min n remaining.toInt.toNat

/-- The count, or `-1` when the limit is too small. -/
def resultOf (remaining : BitVec 32) (n : ℕ) : ℤ :=
  if remaining.toInt<0 ∨ n≤remaining.toInt then n else -1

theorem take_allowed {data : List UInt8} (remaining : BitVec 32) (hmax : data.length ≤ intMax) :
    data.take remaining.toNat=data.take (allowed remaining data.length) := by
  rw [intMax] at hmax
  rw [allowed]
  have hlt := remaining.isLt
  rw [BitVec.toInt_eq_toNat_cond]
  by_cases h : 2*remaining.toNat<2^32
  · rw [if_pos h,if_neg (by omega),Int.toNat_natCast,Nat.min_comm,← take_eq_take_min]
  · rw [if_neg h,if_pos (by omega),take_of_length_le (by omega),take_length]

theorem resultOf_eq (remaining : BitVec 32) (hmax : n ≤ intMax) :
    resultOf remaining n=if n≤remaining.toNat then (n : ℤ) else -1 := by
  rw [intMax] at hmax
  have hlt := remaining.isLt
  have hiff : remaining.toInt<0 ∨ (n : ℤ)≤remaining.toInt ↔ n≤remaining.toNat := by
    rw [BitVec.toInt_eq_toNat_cond]
    split <;> omega
  simp only [resultOf,hiff]

theorem genericNprintf_dest (hexp : expand format args=some ps) (hps : Unpadded ps)
    (hmax : (render ps).length ≤ intMax) (dest : ℕ) (remaining : BitVec 32) (s : Output) :
    genericNprintf (outputPrinter overflow) (some dest) remaining format args s =
      .ok (resultOf remaining (render ps).length) {s with
        mem := blit s.mem dest ((render ps).take (allowed remaining (render ps).length))} := by
  rw [genericNprintf_eq _ _ remaining hexp hmax,hps.placements_eq,take_tagged,hps.counted_eq,
    resultOf_eq remaining hmax,take_allowed remaining hmax]
  change EStateM.bind _ _ _=_
  rw [EStateM.bind,emit_some]
  rfl

theorem map_snd_tagged (off : ℕ) (data : List UInt8) : (tagged off data).map Prod.snd=data := by
  induction data generalizing off with
  | nil => rfl
  | cons c data ih => rw [tagged_cons,map_cons,ih]

theorem map_snd_placements (written : ℕ) (ps : List Piece) :
    (placements written ps).map Prod.snd=render ps := by
  induction ps generalizing written with
  | nil => rfl
  | cons p ps ih =>
    rw [placements,map_append,ih,render_cons,Piece.placed,Piece.render,map_append,
      map_replicate,map_snd_tagged]

theorem genericNprintf_callback (hexp : expand format args=some ps)
    (hmax : (render ps).length ≤ intMax) (remaining : BitVec 32) (s : Output) :
    genericNprintf (outputPrinter overflow) none remaining format args s =
      .ok (if (render ps).length≤remaining.toNat then (counted ps : ℤ) else -1) {s with
        emitted := s.emitted++(render ps).take (allowed remaining (render ps).length)} := by
  rw [genericNprintf_eq _ _ remaining hexp hmax,← take_allowed remaining hmax,
    ← map_snd_placements 0 ps,← map_take]
  change EStateM.bind _ _ _=_
  rw [EStateM.bind,emit_none]
  rfl

theorem unpadded_of_no_pointer (h : ∀ n, Piece.pointer n ∉ ps) : Unpadded ps := by
  intro p hp
  cases p with
  | pointer n => exact absurd hp (h n)
  | _ => rfl

/-- The rendering of the format, cut off at the limit, in the kernel and in the C library. -/
theorem formatted_printing (hexp : expand format args=some ps) (hpointer : ∀ n, Piece.pointer n ∉ ps)
    (hmax : (render ps).length ≤ intMax) (remaining : BitVec 32) (dest : ℕ) (s : Output) :
    (∀ P ∈ [libcPrinter, kernelPrinter], genericNprintf P (some dest) remaining format args s =
        .ok (resultOf remaining (render ps).length) {s with
          mem := blit s.mem dest ((render ps).take (allowed remaining (render ps).length))} ∧
      genericNprintf P none remaining format args s =
        .ok (resultOf remaining (render ps).length) {s with
          emitted := s.emitted++(render ps).take (allowed remaining (render ps).length)}) ∧
    ∀ d, genericNprintf libcPrinter d remaining format args s =
      genericNprintf kernelPrinter d remaining format args s := by
  have hps := unpadded_of_no_pointer hpointer
  have hcl (overflow : Exec Output Unit) :
      genericNprintf (outputPrinter overflow) none remaining format args s =
        .ok (resultOf remaining (render ps).length) {s with
          emitted := s.emitted++(render ps).take (allowed remaining (render ps).length)} := by
    rw [genericNprintf_callback hexp hmax,hps.counted_eq,resultOf_eq remaining hmax]
  refine ⟨fun P hP=>?_,fun d=>?_⟩
  · obtain rfl | rfl : P=libcPrinter ∨ P=kernelPrinter := by simpa using hP
    · exact ⟨genericNprintf_dest hexp hps hmax dest remaining s,hcl _⟩
    · exact ⟨genericNprintf_dest hexp hps hmax dest remaining s,hcl _⟩
  · rw [libcPrinter,kernelPrinter]
    cases d with
    | none => rw [hcl,hcl]
    | some dest =>
      rw [genericNprintf_dest hexp hps hmax,genericNprintf_dest hexp hps hmax]

def blankOutput : Output := ⟨fun _=>0,[],0⟩

/-- The smallest `int` and a `%`, with a limit one too small. -/
theorem formatted_printing_smallest :
    let format := ['%', 'd', '%', '%'].map charByte
    let args := [Arg.word 0x80000000]
    expand format args=some [.signed (-2147483648), .literal percent] ∧ ∀ P ∈ [libcPrinter, kernelPrinter],
        genericNprintf P none 11 format args blankOutput=.ok (-1)
          {blankOutput with emitted := ['-', '2', '1', '4', '7', '4', '8', '3', '6', '4', '8'].map charByte} := by
  have hexp : expand (['%', 'd', '%', '%'].map charByte) [Arg.word 0x80000000] =
      some [.signed (-2147483648), .literal percent] := by decide
  have ht : render [.signed (-2147483648), .literal percent] =
      ['-', '2', '1', '4', '7', '4', '8', '3', '6', '4', '8', '%'].map charByte := by decide
  refine ⟨hexp,fun P hP=>?_⟩
  have h := (formatted_printing hexp (by simp) (by rw [ht]; decide) 11 0 blankOutput).1 P hP
  rw [ht] at h
  exact h.2

end Yaos2.Printf
