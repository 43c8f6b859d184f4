import Mathlib.Data.List.TakeWhile
import Yaos2.Foundation.ByteMemory
import Yaos2.Foundation.Exec
import Yaos2.Printf.Convert

/-! # Formatted printing

A string is the list of its characters before the final zero; the format and the strings among the
arguments do not overlap the buffer. Early returns of `-1` are `none`. -/
namespace Yaos2.Printf
open Foundation List Nat

variable {σ α : Type}

/-- What a copy of `generic_nprintf` does around it; `overflow` if the result is no `int`. -/
structure Printer (σ : Type) where
  putOne : UInt8 → Exec σ Unit
  store : ℕ → UInt8 → Exec σ Unit
  overflow : Exec σ Unit

inductive Arg
  | word (w : BitVec 32)
  | str (s : List UInt8)
  deriving DecidableEq, Repr

/-- The conversions the function knows. -/
inductive Conversion
  | char
  | string
  | signed
  | unsigned
  | hex
  | pointer
  deriving DecidableEq, Repr

def intMax : ℕ := 2^31-1

def percent : UInt8 := charByte '%'

def conversionOf (c : UInt8) : Option Conversion :=
  if c=charByte 'c' then some .char
  else if c=charByte 's' then some .string
  else if c=charByte 'd' then some .signed
  else if c=charByte 'u' then some .unsigned
  else if c=charByte 'x' then some .hex
  else if c=charByte 'p' then some .pointer
  else none

/-- The text that is made of an argument, when it is of the kind that is asked for. -/
def convert : Conversion → Arg → Option (List UInt8)
  | .char, .word w => some [UInt8.ofNat w.toNat]
  | .string, .str s => some s
  | .signed, .word w => some (itoa w 10)
  | .unsigned, .word w => some (unsignedItoa w.toNat 10)
  | .hex, .word w => some (unsignedItoa w.toNat 16)
  | .pointer, .word w => some (unsignedItoa w.toNat 16)
  | _, _ => none

section
variable (P : Printer σ) (dest : Option ℕ)

def place (off : ℕ) (c : UInt8) : Exec σ Unit :=
  match dest with
  | some dest => P.store (dest+off) c
  | none => P.putOne c

/-- Print until `remaining`, which may start negative, is zero. `none` is for `false`. -/
def print : ℕ → BitVec 32 → List UInt8 → Exec σ (Option (BitVec 32))
  | _, remaining, [] => return some remaining
  | off, remaining, c::data => do
    if remaining=0 then
      return none
    else
      place P dest off c
      print (off+1) (remaining-1) data

/-- Go on with what remains, unless there was a reason to return `-1`. -/
def unlessCut (x : Exec σ (Option (BitVec 32))) (k : BitVec 32 → Exec σ (Option α)) : Exec σ (Option α) := do
  match ← x with
  | none => return none
  | some remaining => k remaining

/-- Print a part, if the count of characters stays an `int`. -/
def printChecked (written : ℕ) (remaining : BitVec 32) (data : List UInt8) : Exec σ (Option (BitVec 32)) := do
  if intMax-written<data.length then
    P.overflow
    return none
  else
    print P dest written remaining data

/-- The loop that fills up a pointer. Each zero goes to the same offset. -/
def printZeroes (written : ℕ) : ℕ → BitVec 32 → Exec σ (Option (BitVec 32))
  | 0, remaining => return some remaining
  | zeroes+1, remaining =>
    unlessCut (print P dest written remaining [charByte '0']) (printZeroes written zeroes)

def printPointer (written : ℕ) (remaining : BitVec 32) (str : List UInt8) : Exec σ (Option (BitVec 32)) := do
  let zeroes := 8-str.length
  if intMax-written<str.length+zeroes then
    P.overflow
    return none
  else
    unlessCut (printZeroes P dest written zeroes remaining) (fun remaining =>
      print P dest written remaining str)

/-- The number of characters before the next `%`, looked for from the second on. -/
def literalAmount (format : List UInt8) : ℕ := 1+(format.tail.takeWhile (· ≠ percent)).length

/-- The loop over the format. Returns the count of the characters. -/
def nprintfLoop : ℕ → List UInt8 → ℕ → BitVec 32 → List Arg → Exec σ (Option ℕ)
  | 0, _, _, _, _ => abort "endless loop"
  | _+1, [], written, _, _ => return some written
  | fuel+1, c::rest, written, remaining, args => do
    if c≠percent ∨ rest.head? = some percent then
      let format := if c=percent then rest else c::rest
      let amount := literalAmount format
      unlessCut (printChecked P dest written remaining (format.take amount)) (fun remaining =>
        nprintfLoop fuel (format.drop amount) (written+amount) remaining args)
    else
      match rest.head?.bind conversionOf with
      | some conv =>
        match args with
        | [] => abort "missing argument"
        | arg::args =>
          match convert conv arg with
          | none => abort "argument of another type"
          | some str =>
            unlessCut
              (if conv=.pointer then printPointer P dest written remaining str
                else printChecked P dest written remaining str)
              (fun remaining=>nprintfLoop fuel rest.tail (written+str.length) remaining args)
      | none =>
        let format := c::rest
        unlessCut (printChecked P dest written remaining format) (fun remaining =>
          nprintfLoop fuel [] (written+format.length) remaining args)

def genericNprintf (remaining : BitVec 32) (format : List UInt8) (args : List Arg) : Exec σ ℤ := do
  match ← nprintfLoop P dest (format.length+1) format 0 remaining args with
  | some written => return written
  | none => return -1
end

/-! ## What a format means -/

/-- A part of the output. -/
inductive Piece
  | literal (c : UInt8)
  | char (c : UInt8)
  | string (s : List UInt8)
  | signed (i : ℤ)
  | unsigned (n : ℕ)
  | hex (n : ℕ)
  | pointer (n : ℕ)
  | verbatim (rest : List UInt8)
  deriving DecidableEq, Repr

namespace Piece

def text : Piece → List UInt8
  | literal c => [c]
  | char c => [c]
  | string s => s
  | signed i => signedNumeral i
  | unsigned n => numeral 10 n
  | hex n => numeral 16 n
  | pointer n => numeral 16 n
  | verbatim rest => rest

def padding : Piece → ℕ
  | pointer n => 8-(numeral 16 n).length
  | _ => 0

/-- The rendering of a part: a pointer has eight digits. -/
def render (p : Piece) : List UInt8 := List.replicate p.padding (charByte '0')++p.text
end Piece

def pieceOf : Conversion → Arg → Option Piece
  | .char, .word w => some (.char (UInt8.ofNat w.toNat))
  | .string, .str s => some (.string s)
  | .signed, .word w => some (.signed w.toInt)
  | .unsigned, .word w => some (.unsigned w.toNat)
  | .hex, .word w => some (.hex w.toNat)
  | .pointer, .word w => some (.pointer w.toNat)
  | _, _ => none

/-- The parts that a format stands for, if the arguments match; it stands for itself from an unknown
`%` on. -/
def expand : List UInt8 → List Arg → Option (List Piece)
  | [], _ => some []
  | c::rest, args =>
    if c≠percent then (expand rest args).map (.literal c :: ·)
    else
      match rest with
      | [] => some [.verbatim [c]]
      | d::rest' =>
        if d=percent then (expand rest' args).map (.literal d :: ·)
        else
          match conversionOf d, args with
          | none, _ => some [.verbatim (c::d::rest')]
          | some _, [] => none
          | some conv, arg::args =>
            (pieceOf conv arg).bind (fun p=>(expand rest' args).map (p :: ·))

def render (ps : List Piece) : List UInt8 := ps.flatMap Piece.render

/-! ## Printing up to a limit -/

section
variable (P : Printer σ) (dest : Option ℕ)

/-- Put out characters, each with the offset it goes to. -/
def emit : List (ℕ × UInt8) → Exec σ Unit
  | [] => pure ()
  | (off, c)::trace => do
    place P dest off c
    emit trace

/-- Put out as much as the limit allows, and return a value if that is all. -/
def limited (trace : List (ℕ × UInt8)) (remaining : BitVec 32) (a : α) : Exec σ (Option α) := do
  emit P dest (trace.take remaining.toNat)
  return if trace.length≤remaining.toNat then some a else none

/-- Successive offsets for the characters of a string. -/
def tagged (off : ℕ) (data : List UInt8) : List (ℕ × UInt8) := data.mapIdx (fun i c=>(off+i, c))

theorem tagged_cons (off : ℕ) (c : UInt8) (data : List UInt8) :
    tagged off (c::data)=(off, c)::tagged (off+1) data := by
  simp only [tagged,mapIdx_cons,add_zero,List.cons.injEq,true_and]
  congr 1
  funext i c
  rw [add_assoc,add_comm 1 i]

@[simp] theorem length_tagged (off : ℕ) (data : List UInt8) : (tagged off data).length=data.length := by
  simp [tagged]

theorem tagged_append (off : ℕ) (data data' : List UInt8) :
    tagged off (data++data')=tagged off data++tagged (off+data.length) data' := by
  induction data generalizing off with
  | nil => rfl
  | cons c data ih =>
    rw [cons_append,tagged_cons,tagged_cons,ih,cons_append,length_cons,add_assoc,add_comm 1]

theorem emit_append (trace trace' : List (ℕ × UInt8)) :
    emit P dest (trace++trace')=(do emit P dest trace; emit P dest trace') := by
  induction trace with
  | nil => simp [emit]
  | cons p trace ih => simp only [cons_append,emit,ih,bind_assoc]

theorem toNat_sub_ofNat (h : n≤remaining.toNat) : (remaining-BitVec.ofNat 32 n).toNat=remaining.toNat-n := by
  have hn : (BitVec.ofNat 32 n).toNat=n := by rw [BitVec.toNat_ofNat,mod_eq_of_lt (h.trans_lt remaining.isLt)]
  rw [BitVec.toNat_sub_of_le (by rwa [BitVec.le_def,hn]),hn]

theorem print_eq (off : ℕ) (remaining : BitVec 32) (data : List UInt8) : print P dest off remaining data =
      limited P dest (tagged off data) remaining (remaining-BitVec.ofNat 32 data.length) := by
  induction data generalizing off remaining with
  | nil => simp [print,limited,tagged,emit]
  | cons c data ih =>
    rw [print,tagged_cons]
    split
    · next h => simp [h,limited,emit]
    · next h =>
      have hpos : remaining.toNat≠0 := fun h0=>h (BitVec.eq_of_toNat_eq h0)
      have hsub : (remaining-1).toNat=remaining.toNat-1 := toNat_sub_ofNat (n := 1) (by omega)
      have hr : remaining-1-BitVec.ofNat 32 data.length=remaining-BitVec.ofNat 32 (c::data).length := by
        rw [length_cons,BitVec.ofNat_add,BitVec.sub_sub,BitVec.add_comm]
        rfl
      obtain ⟨n,hn⟩ := exists_eq_succ_of_ne_zero hpos
      rw [ih,limited,limited,hsub,hr,hn]
      simp [emit]

theorem unlessCut_limited (hn : trace.length=n) (hk : k (remaining-BitVec.ofNat 32 n) =
      limited P dest trace' (remaining-BitVec.ofNat 32 n) a) :
    unlessCut (limited P dest trace remaining (remaining-BitVec.ofNat 32 n)) k =
      limited P dest (trace++trace') remaining a := by
  subst hn
  rw [unlessCut,limited,limited,take_append,emit_append,length_append]
  by_cases h : trace.length≤remaining.toNat
  · have hiff : trace.length+trace'.length≤remaining.toNat ↔
        trace'.length≤remaining.toNat-trace.length := by omega
    simp [h,hk,limited,toNat_sub_ofNat h,hiff]
  · have hnn : remaining.toNat-trace.length=0 := by omega
    have hl : ¬ trace.length+trace'.length≤remaining.toNat := by omega
    simp [h,hnn,hl,emit]
end

/-! ## The interpreter and the meaning -/

theorem conversionOf_percent : conversionOf percent=none := by decide

/-- The characters of a part with their offsets. All zeroes before a pointer have the same one. -/
def Piece.placed (written : ℕ) (p : Piece) : List (ℕ × UInt8) :=
  List.replicate p.padding (written, charByte '0')++tagged written p.text

/-- The characters of the output with their offsets. -/
def placements : ℕ → List Piece → List (ℕ × UInt8)
  | _, [] => []
  | written, p::ps => p.placed written++placements (written+p.text.length) ps

def counted (ps : List Piece) : ℕ := (ps.flatMap Piece.text).length

theorem length_placed (written : ℕ) (p : Piece) : (p.placed written).length=p.render.length := by
  simp [Piece.placed,Piece.render]

theorem render_cons (p : Piece) (ps : List Piece) : render (p::ps)=p.render++render ps := rfl

theorem length_placements (written : ℕ) (ps : List Piece) :
    (placements written ps).length=(render ps).length := by
  induction ps generalizing written with
  | nil => rfl
  | cons p ps ih => rw [placements,length_append,length_placed,ih,render_cons,length_append]

theorem counted_cons (p : Piece) (ps : List Piece) : counted (p::ps)=p.text.length+counted ps := by
  simp [counted]

theorem text_length_le (p : Piece) : p.text.length≤p.render.length := by simp [Piece.render]

theorem map_literal_placements (written : ℕ) (run : List UInt8) (ps : List Piece) :
    placements written (run.map .literal++ps) =
      tagged written run++placements (written+run.length) ps := by
  induction run generalizing written with
  | nil => rfl
  | cons c run ih =>
    rw [map_cons,cons_append,placements,ih,tagged_cons,length_cons,add_comm run.length,← add_assoc]
    rfl

theorem map_literal_render (run : List UInt8) (ps : List Piece) :
    render (run.map .literal++ps)=run++render ps := by
  induction run with
  | nil => rfl
  | cons c run ih => rw [map_cons,cons_append,render_cons,ih]; rfl

theorem map_literal_counted (run : List UInt8) (ps : List Piece) :
    counted (run.map .literal++ps)=run.length+counted ps := by
  induction run with
  | nil => simp
  | cons c run ih =>
    rw [map_cons,cons_append,counted_cons,ih,length_cons]
    simp only [Piece.text,length_singleton]
    omega

theorem expand_of_ne (hc : c≠percent) (rest : List UInt8) (args : List Arg) :
    expand (c::rest) args=(expand rest args).map (.literal c :: ·) := by
  rw [expand.eq_def]
  simp only [if_pos hc]

theorem expand_percent (rest : List UInt8) (args : List Arg) :
    expand (percent::percent::rest) args=(expand rest args).map (.literal percent :: ·) := by
  rw [expand.eq_def]
  simp

variable {rest : List UInt8} {args : List Arg} {ps : List Piece}

theorem expand_verbatim (hhd : rest.head? ≠ some percent) (hc : rest.head?.bind conversionOf=none)
    (hexp : expand (percent::rest) args=some ps) : ps=[.verbatim (percent::rest)] := by
  rw [expand.eq_def] at hexp
  cases rest with
  | nil => simpa using hexp.symm
  | cons d rest =>
    have hd : d≠percent := by simpa using hhd
    have hc' : conversionOf d=none := by simpa using hc
    simpa [hd,hc'] using hexp.symm

theorem expand_conversion (hcn : rest.head?.bind conversionOf=some conv)
    (hexp : expand (percent::rest) args=some ps) :
    ∃ arg args' p ps', args=arg::args' ∧ pieceOf conv arg=some p ∧
      expand rest.tail args'=some ps' ∧ ps=p::ps' := by
  rw [expand.eq_def] at hexp
  cases rest with
  | nil => simp at hcn
  | cons d rest =>
    have hcn' : conversionOf d=some conv := by simpa using hcn
    have hd : d≠percent := by
      rintro rfl
      rw [conversionOf_percent] at hcn'
      cases hcn'
    cases args with
    | nil => simp [hd,hcn'] at hexp
    | cons arg args =>
      have hpc : (pieceOf conv arg).bind (fun p=>(expand rest args).map (p :: ·))=some ps := by
        simpa [hd,hcn'] using hexp
      obtain ⟨p,hp,hrs⟩ := Option.bind_eq_some_iff.mp hpc
      obtain ⟨ps',hps',rfl⟩ := Option.map_eq_some_iff.mp hrs
      exact ⟨arg,args,p,ps',rfl,hp,hps',rfl⟩

theorem expand_literals (hrun : ∀ c ∈ run, c≠percent) (rest : List UInt8) (args : List Arg) :
    expand (run++rest) args=(expand rest args).map (run.map .literal ++ ·) := by
  induction run with
  | nil => simp
  | cons c run ih =>
    rw [cons_append,expand_of_ne (hrun c mem_cons_self),
      ih (fun c hc=>hrun c (mem_cons_of_mem _ hc)),Option.map_map]
    rfl

theorem take_literalAmount (d : UInt8) (more : List UInt8) :
    (d::more).take (literalAmount (d::more))=d::more.takeWhile (· ≠ percent) := by
  rw [literalAmount,tail_cons,add_comm,take_succ_cons]
  congr 1
  nth_rewrite 2 [← takeWhile_append_dropWhile (p := (· ≠ percent)) (l := more)]
  rw [take_left]

theorem drop_literalAmount (d : UInt8) (more : List UInt8) :
    (d::more).drop (literalAmount (d::more))=more.dropWhile (· ≠ percent) := by
  rw [literalAmount,tail_cons,add_comm,drop_succ_cons]
  nth_rewrite 2 [← takeWhile_append_dropWhile (p := (· ≠ percent)) (l := more)]
  rw [drop_left]

theorem expand_run (hlt : c≠percent ∨ rest.head? = some percent) (hexp : expand (c::rest) args=some ps) :
    let format := if c=percent then rest else c::rest
    let amount := literalAmount format
    (format.drop amount).length≤rest.length ∧ (format.take amount).length=amount ∧
      ∃ ps', expand (format.drop amount) args=some ps' ∧ ps=(format.take amount).map .literal++ps' := by
  -- in both cases a character that stands for itself and then the characters before the next `%`
  have hst : ∃ d more, (if c=percent then rest else c::rest)=d::more ∧
      more.length≤rest.length ∧ (expand more args).map (.literal d :: ·)=some ps := by
    by_cases hc : c=percent
    · obtain ⟨more,rfl⟩ : ∃ more, rest=percent::more := by
        cases rest with
        | nil => simp [hc] at hlt
        | cons d more =>
          have hd : d=percent := by simpa [hc] using hlt
          exact ⟨more,by rw [hd]⟩
      refine ⟨percent,more,if_pos hc,by simp,?_⟩
      rwa [hc,expand_percent] at hexp
    · simp_all [expand_of_ne hc]
  obtain ⟨d,more,hfr,hlen,hexp⟩ := hst
  have hsp : expand more args=(expand (more.dropWhile (· ≠ percent)) args).map
      ((more.takeWhile (· ≠ percent)).map .literal ++ ·) := by
    rw [← expand_literals (fun c hc=>by simpa using mem_takeWhile_imp hc),takeWhile_append_dropWhile]
  rw [hsp,Option.map_map,Option.map_eq_some_iff] at hexp
  obtain ⟨ps',hps',rfl⟩ := hexp
  simp only [hfr,take_literalAmount,drop_literalAmount]
  refine ⟨((dropWhile_sublist _).length_le).trans hlen,?_,ps',hps',rfl⟩
  rw [literalAmount,length_cons,tail_cons,add_comm]

theorem convert_of_pieceOf (h : pieceOf conv arg=some p) :
    convert conv arg=some p.text ∧ p.padding=if conv=.pointer then 8-p.text.length else 0 := by
  have hdec (w : BitVec 32) : unsignedItoa w.toNat 10=numeral 10 w.toNat :=
    unsignedItoa_eq (by decide) (by decide) w.isLt
  have hhex (w : BitVec 32) : unsignedItoa w.toNat 16=numeral 16 w.toNat :=
    unsignedItoa_eq (by decide) (by decide) w.isLt
  cases conv <;> cases arg <;> simp only [pieceOf,Option.some.injEq,reduceCtorEq] at h <;> subst h <;>
    simp [convert,Piece.text,Piece.padding,itoa_eq,hdec,hhex]

section
variable (P : Printer σ) (dest : Option ℕ)

variable {written : ℕ}

theorem printChecked_eq (remaining : BitVec 32) (hmax : written+data.length ≤ intMax) :
    printChecked P dest written remaining data =
      limited P dest (tagged written data) remaining (remaining-BitVec.ofNat 32 data.length) := by
  rw [printChecked,if_neg (by omega),print_eq]

theorem printZeroes_eq (written zeroes : ℕ) (remaining : BitVec 32) :
    printZeroes P dest written zeroes remaining =
      limited P dest (List.replicate zeroes (written, charByte '0')) remaining
        (remaining-BitVec.ofNat 32 zeroes) := by
  induction zeroes generalizing remaining with
  | zero => simp [printZeroes,limited,emit]
  | succ zeroes ih =>
    have hone : tagged written [charByte '0']=[(written, charByte '0')] := rfl
    have hr : remaining-1-BitVec.ofNat 32 zeroes=remaining-BitVec.ofNat 32 (zeroes+1) := by
      rw [BitVec.ofNat_add,BitVec.sub_sub,BitVec.add_comm]
      rfl
    rw [printZeroes,print_eq,hone,replicate_succ,← singleton_append,← hr]
    exact unlessCut_limited P dest rfl (ih (remaining-1))

theorem printPointer_eq (remaining : BitVec 32) (hmax : written+((8-str.length)+str.length) ≤ intMax) :
    printPointer P dest written remaining str =
      limited P dest (List.replicate (8-str.length) (written, charByte '0')++tagged written str)
        remaining (remaining-BitVec.ofNat 32 ((8-str.length)+str.length)) := by
  have hr : remaining-BitVec.ofNat 32 (8-str.length)-BitVec.ofNat 32 str.length =
      remaining-BitVec.ofNat 32 ((8-str.length)+str.length) := by
    rw [BitVec.ofNat_add,BitVec.sub_sub]
  rw [printPointer,if_neg (by omega),printZeroes_eq,← hr]
  have hp := print_eq P dest written (remaining-BitVec.ofNat 32 (8-str.length)) str
  exact unlessCut_limited P dest length_replicate hp

theorem print_piece (remaining : BitVec 32)
    (hp : pieceOf conv arg=some p) (hmax : written+p.render.length ≤ intMax) :
    (if conv=.pointer then printPointer P dest written remaining p.text
      else printChecked P dest written remaining p.text) =
      limited P dest (p.placed written) remaining
        (remaining-BitVec.ofNat 32 (p.placed written).length) := by
  have hpad := (convert_of_pieceOf hp).2
  have hr : p.render.length=p.padding+p.text.length := by simp [Piece.render]
  rw [length_placed,hr,Piece.placed]
  rw [hr] at hmax
  split
  · next hc =>
    rw [hpad,if_pos hc] at hmax ⊢
    exact printPointer_eq P dest remaining hmax
  · next hc =>
    rw [hpad,if_neg hc,zero_add] at hmax ⊢
    exact printChecked_eq P dest remaining hmax

theorem nprintfLoop_eq {format : List UInt8} (written : ℕ)
    (remaining : BitVec 32) (hexp : expand format args=some ps) (hfl : format.length<fuel)
    (hmax : written+(render ps).length ≤ intMax) :
    nprintfLoop P dest fuel format written remaining args =
      limited P dest (placements written ps) remaining (written+counted ps) := by
  induction fuel generalizing format args ps written remaining with
  | zero => omega
  | succ fuel ih =>
    cases format with
    | nil =>
      obtain rfl : []=ps := by simpa [expand] using hexp
      simp [nprintfLoop,limited,placements,counted,emit]
    | cons c rest =>
      rw [length_cons] at hfl
      rw [nprintfLoop]
      split
      · next hlt =>
        obtain ⟨hlen,ham,ps',hexp',hps⟩ := expand_run hlt hexp
        generalize (if c=percent then rest else c::rest)=format at hlen ham hexp' hps ⊢
        subst hps
        rw [map_literal_render,length_append] at hmax
        dsimp only
        rw [map_literal_placements,map_literal_counted,printChecked_eq P dest remaining (by omega),
          ← add_assoc,ham]
        apply unlessCut_limited P dest (by rw [length_tagged,ham])
        exact ih _ _ hexp' (by omega) (by omega)
      · next hlt =>
        obtain ⟨rfl,hhd⟩ : c=percent ∧ rest.head? ≠ some percent := by simpa using hlt
        cases hcn : rest.head?.bind conversionOf with
        | none =>
          obtain rfl := expand_verbatim hhd hcn hexp
          dsimp only
          have hlen : written+(percent::rest).length ≤ intMax := by
            simpa [render,Piece.render,Piece.padding,Piece.text] using hmax
          rw [printChecked_eq P dest remaining hlen,placements,counted_cons,← add_assoc]
          apply unlessCut_limited P dest (length_tagged _ _)
          exact ih _ _ rfl (by rw [length_nil]; omega) hlen
        | some conv =>
          obtain ⟨arg,args',p,ps',rfl,hp,hexp',rfl⟩ := expand_conversion hcn hexp
          rw [render_cons,length_append] at hmax
          have htx := text_length_le p
          dsimp only
          rw [(convert_of_pieceOf hp).1]
          dsimp only
          rw [print_piece P dest remaining hp (by omega),placements,counted_cons,← add_assoc]
          apply unlessCut_limited P dest rfl
          exact ih _ _ hexp' (by rw [length_tail]; omega) (by omega)
end

theorem genericNprintf_eq (P : Printer σ) (dest : Option ℕ) {format : List UInt8}
     (remaining : BitVec 32) (hexp : expand format args=some ps)
    (hmax : (render ps).length ≤ intMax) :
    genericNprintf P dest remaining format args=(do
      emit P dest ((placements 0 ps).take remaining.toNat)
      return if (render ps).length≤remaining.toNat then (counted ps : ℤ) else -1) := by
  rw [genericNprintf,nprintfLoop_eq P dest 0 remaining hexp (lt_succ_self _) (by omega),limited,
    length_placements,zero_add,bind_assoc]
  congr 1
  funext _
  by_cases h : (render ps).length≤remaining.toNat
  · rw [if_pos h,if_pos h,pure_bind]
  · rw [if_neg h,if_neg h,pure_bind]

end Yaos2.Printf
