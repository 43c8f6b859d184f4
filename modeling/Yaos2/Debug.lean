import Yaos2.Foundation.Exec

/-! # Assertions and panics

`kassert` and `kpanic` end the computation, on whatever state it runs. -/
namespace Yaos2
open Foundation

variable {σ : Type}

def kassert (expr : String) (c : Bool) : Exec σ Unit :=
  if c then pure () else abort ("assertion " ++ expr ++ " failed")

def panicIf (c : Prop) [Decidable c] (reason : String) : Exec σ Unit :=
  if c then abort reason else pure ()

section
variable {s : σ} {Q : Unit → σ → Prop} {E : σ → Prop}

theorem wp_kassert_iff : Ensures (kassert expr c) s Q E ↔ if c then Q () s else E s := by
  rw [kassert]
  cases c
  · exact wp_abort ..
  · exact wp_pure ..

theorem wp_kassert (h : c=true) : Ensures (kassert expr c) s Q E ↔ Q () s := by simp [kassert,h]

theorem wp_panicIf_iff [Decidable c] : Ensures (panicIf c r) s Q E ↔ (c → E s) ∧ (¬ c → Q () s) := by
  rw [panicIf]
  split
  · next h => simp only [wp_abort,h,true_imp_iff,not_true,false_imp_iff,and_true]
  · next h => simp only [wp_pure,h,true_imp_iff,not_false_iff,false_imp_iff,true_and]

theorem wp_panicIf [Decidable c] (h : ¬ c) : Ensures (panicIf c r) s Q E ↔ Q () s := by simp [panicIf,h]

theorem wp_panicIf_true [Decidable c] (h : c) : Ensures (panicIf c r) s Q E ↔ E s := by simp [panicIf,h]
end

end Yaos2
