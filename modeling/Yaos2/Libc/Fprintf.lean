import Yaos2.Libc.Stream
import Yaos2.Printf.Output

/-! # Printing to a stream

`fprintf` gives each character to `fwrite`. -/
namespace Yaos2.Libc
open Foundation Printf

variable (accept : List UInt8 → ℤ)

def streamPrinter : Printer Stream where
  putOne c := do let _ ← fwrite accept [c] 1 1
  store a c := modify (fun s=>{s with mem := Function.update s.mem a c})
  overflow := modify (fun s=>{s with errno := eoverflow})

def fprintf (format : List UInt8) (args : List Arg) : Exec Stream ℤ :=
  genericNprintf (streamPrinter accept) none (-1) format args

variable {accept} {s : Stream} {format : List UInt8} {args : List Arg} {ps : List Piece}

section
variable (haccept : ∀ data, 0≤accept data)
include haccept
theorem emit_stream (hs : s.WellFormed) (trace : List (ℕ × UInt8)) :
    Returns (emit (streamPrinter accept) none trace) s (fun _ t =>
      Gains s t (trace.map Prod.snd) ∧ t.WellFormed) := by
  induction trace generalizing s with
  | nil =>
    rw [emit,Returns,wp_pure]
    exact ⟨Gains.refl s,hs⟩
  | cons p trace ih =>
    have hone : [p.2].length=1*1 := rfl
    rw [emit,Returns,wp_bind]
    simp only [place,streamPrinter,wp_bind,wp_pure]
    apply (fwrite_spec haccept hs hone (by decide)).imp
    rintro - t ⟨hgn,ht⟩
    apply (ih ht).imp
    rintro - u ⟨hgn',hu⟩
    exact ⟨hgn.trans hgn',hu⟩

theorem fprintf_spec (hs : s.WellFormed) (hexp : expand format args=some ps)
    (hmax : (render ps).length ≤ intMax) :
    Returns (fprintf accept format args) s (fun r t =>
      r=counted ps ∧ Gains s t (render ps) ∧ t.WellFormed) := by
  have hall : (render ps).length≤(-1 : BitVec 32).toNat := hmax.trans (by decide)
  rw [fprintf,genericNprintf_eq _ _ _ hexp hmax,if_pos hall,Returns,wp_bind]
  apply (emit_stream haccept hs _).imp
  rintro - t ⟨hgn,ht⟩
  rw [List.take_of_length_le (by rwa [length_placements]),map_snd_placements] at hgn
  rw [wp_pure]
  exact ⟨rfl,hgn,ht⟩
end

theorem unpadded_of_wide (h : ∀ n, Piece.pointer n ∈ ps → 0x10000000≤n) : Unpadded ps := by
  intro p hp
  cases p with
  | pointer n =>
    have hlt := lt_pow_length_numeral (show 1<16 by decide) n
    have hlen : 7<(numeral 16 n).length := by
      by_contra hle
      have hpow : 16^(numeral 16 n).length≤16^7 := Nat.pow_le_pow_right (by decide) (by omega)
      exact absurd ((h n hp).trans_lt (hlt.trans_le hpow)) (by decide)
    rw [Piece.padding]
    omega
  | _ => rfl

end Yaos2.Libc
