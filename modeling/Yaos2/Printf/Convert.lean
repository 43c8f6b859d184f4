import Mathlib.Tactic

/-! # Numbers as text

The same functions are in the kernel and in the C library. The base is 10 or 16 in every call. -/
namespace Yaos2.Printf

open List Nat Int

def charByte (c : Char) : UInt8 := UInt8.ofNat c.toNat

/-- The digits, with those of the negative values mirrored before zero at index 35. -/
def numcodes32 : List UInt8 :=
  ['z', 'y', 'x', 'w', 'v', 'u', 't', 's', 'r', 'q', 'p', 'o', 'n', 'm', 'l', 'k', 'j', 'i', 'h', 'g',
    'f', 'e', 'd', 'c', 'b', 'a', '9', '8', '7', '6', '5', '4', '3', '2', '1', '0', '1', '2', '3', '4',
    '5', '6', '7', '8', '9', 'a', 'b', 'c', 'd', 'e', 'f', 'g', 'h', 'i', 'j', 'k', 'l', 'm', 'n', 'o',
    'p', 'q', 'r', 's', 't', 'u', 'v', 'w', 'x', 'y', 'z'].map charByte

def numcode (d : ℤ) : UInt8 := numcodes32.getD (35+d).toNat 0

/-- The loop that exchanges the characters at `ptr1` and `ptr` until they meet. -/
def swapEnds : ℕ → ℕ → ℕ → List UInt8 → List UInt8
  | 0, _, _, str => str
  | fuel+1, ptr1, ptr, str =>
    if ptr1<ptr then
      swapEnds fuel (ptr1+1) (ptr-1) ((str.set ptr (str.getD ptr1 0)).set ptr1 (str.getD ptr 0))
    else
      str

/-- Turn a string around in its place. -/
def reverseInPlace (str : List UInt8) : List UInt8 := swapEnds str.length 0 (str.length-1) str

/-- The loop over the digits of an `unsigned int`, in the order they are written. -/
def unsignedDigits (base : ℕ) : ℕ → ℕ → List UInt8
  | 0, _ => []
  | fuel+1, value =>
    let next := value/base
    numcode ((value-next*base : ℕ) : ℤ)::if next=0 then [] else unsignedDigits base fuel next

/-- The buffer has room for 31 digits and the final zero. -/
def unsignedItoa (value base : ℕ) : List UInt8 := reverseInPlace (unsignedDigits base 32 value)

/-- The loop over the digits of an `int`, with the last value that it divided. -/
def signedDigits (base : ℤ) : ℕ → ℤ → List UInt8 × ℤ
  | 0, value => ([], value)
  | fuel+1, value =>
    let next := value.tdiv base
    let code := numcode (value-next*base)
    if next=0 then ([code], value)
    else
      let rest := signedDigits base fuel next
      (code::rest.1, rest.2)

def itoa (value : BitVec 32) (base : ℕ) : List UInt8 :=
  if base≠10 then unsignedItoa value.toNat base
  else
    let digits := signedDigits 10 32 value.toInt
    reverseInPlace (digits.1++if digits.2<0 then [charByte '-'] else [])

/-- The digits of a natural number, the first digit first. -/
def numeral (base n : ℕ) : List UInt8 := (Nat.toDigits base n).map charByte

def signedNumeral (i : ℤ) : List UInt8 :=
  if i<0 then charByte '-'::numeral 10 i.natAbs else numeral 10 i.natAbs

/-! ## Turning around -/

theorem set_ends (before l after : List UInt8) (a b : UInt8) :
    let str := before++(a::(l++[b]))++after
    let ptr := before.length+l.length+1
    (str.set ptr (str.getD before.length 0)).set before.length (str.getD ptr 0) =
      (before++[b])++l++(a::after) := by
  have hstr : before++(a::(l++[b]))++after=before++(a::(l++(b::after))) := by simp
  have hf : (before++(a::(l++(b::after)))).getD before.length 0=a := by simp
  have hl : (before++(a::(l++(b::after)))).getD (before.length+l.length+1) 0=b := by
    rw [getD_eq_getElem?_getD,List.getElem?_append_right (by omega),
      show before.length+l.length+1-before.length=l.length+1 by omega]
    simp
  simp only [hstr,hf,hl]
  rw [set_append_right _ _ (by omega),
    show before.length+l.length+1-before.length=l.length+1 by omega,
    set_append_right _ _ (le_refl _),Nat.sub_self,set_cons_succ,
    set_append_right _ _ (le_refl _),Nat.sub_self,set_cons_zero,set_cons_zero]
  simp

theorem swapEnds_middle (fuel : ℕ) (before middle after : List UInt8) (hf : middle.length≤2*fuel+1) :
    swapEnds fuel before.length (before.length+middle.length-1) (before++middle++after) =
      before++middle.reverse++after := by
  induction fuel generalizing before middle after with
  | zero =>
    have hrev : middle.reverse=middle := by
      rcases middle with _ | ⟨a,_ | ⟨b,l⟩⟩
      · rfl
      · rfl
      · simp at hf
    rw [swapEnds,hrev]
  | succ fuel ih =>
    rw [swapEnds]
    cases middle using List.bidirectionalRec with
    | nil => rw [if_neg (by simp only [length_nil]; omega),reverse_nil]
    | singleton a =>
      rw [if_neg (by simp only [length_singleton]; omega),reverse_singleton]
    | cons_append a l b =>
      have hlen : (a::(l++[b])).length=l.length+2 := by simp
      have hptr : before.length+(a::(l++[b])).length-1=before.length+l.length+1 := by omega
      have hi := ih (before++[b]) l (a::after) (by omega)
      rw [length_append,length_singleton] at hi
      rw [if_pos (by omega),hptr,set_ends,Nat.add_sub_cancel,
        show before.length+l.length=before.length+1+l.length-1 by omega,hi]
      simp

theorem reverseInPlace_eq (str : List UInt8) : reverseInPlace str=str.reverse := by
  have h := swapEnds_middle str.length [] str [] (by omega)
  simpa [reverseInPlace] using h

/-! ## Digits -/

theorem numcode_natCast {d : ℕ} (hd : d<16) : numcode d=charByte d.digitChar := by
  have h : ∀ d : Fin 16, numcode (d.val : ℤ)=charByte d.val.digitChar := by decide
  exact h ⟨d,hd⟩

theorem numcode_neg {d : ℕ} (hd : d<16) : numcode (-d)=numcode d := by
  have h : ∀ d : Fin 16, numcode (-(d.val : ℤ))=numcode (d.val : ℤ) := by decide
  exact h ⟨d,hd⟩

theorem numcode_natAbs (hd : d.natAbs<16) : numcode d=charByte d.natAbs.digitChar := by
  rcases natAbs_eq d with h | h
  · rw [h,numcode_natCast (by simpa using hd),natAbs_natCast]
  · rw [h,numcode_neg hd,numcode_natCast hd,natAbs_neg,natAbs_natCast]

theorem numeral_eq (hb : 1<base) : numeral base n =
      (if n/base=0 then [] else numeral base (n/base))++[charByte (n%base).digitChar] := by
  rw [numeral,toDigits_eq_if hb]
  split
  · next h => rw [if_pos (div_eq_of_lt h),mod_eq_of_lt h]; rfl
  · next h =>
    rw [if_neg (by rw [Nat.div_eq_zero_iff]; omega),numeral,map_append,map_singleton]

theorem lt_pow_length_numeral (hb : 1<base) (n : ℕ) : n<base^(numeral base n).length := by
  induction n using Nat.strong_induction_on with
  | _ n ih =>
    rw [numeral_eq hb,length_append,length_singleton,pow_succ]
    split
    · next h =>
      rw [length_nil,pow_zero,one_mul]
      exact lt_of_div_eq_zero (by omega) h
    · next h =>
      have hn : n≠0 := fun h0=>h (by rw [h0,Nat.zero_div])
      exact (div_lt_iff_lt_mul (by omega)).mp (ih (n/base) (div_lt_self (by omega) hb))

theorem unsignedDigits_reverse (hbs : 1<base) (hbs' : base≤16) (fuel value : ℕ)
    (hfl : value<base^fuel) (hpos : 0<fuel) :
    (unsignedDigits base fuel value).reverse=numeral base value := by
  induction fuel generalizing value with
  | zero => omega
  | succ fuel ih =>
    have hdg : value-value/base*base=value%base := by rw [mod_eq_sub_div_mul]
    have hlt : value%base<16 := by
      have := mod_lt value (show base > 0 by omega)
      omega
    rw [unsignedDigits,hdg,numcode_natCast hlt,reverse_cons,numeral_eq hbs]
    congr 1
    split
    · rfl
    · next hne =>
      have hnx := Nat.div_lt_of_lt_mul (by rwa [pow_succ'] at hfl)
      apply ih (value/base) hnx
      rcases Nat.eq_zero_or_pos fuel with rfl | h
      · rw [pow_zero,lt_one_iff] at hnx
        exact absurd hnx hne
      · exact h

theorem unsignedItoa_eq (hb : 1<base) (hb' : base≤16)
    (hv : value<2^32) : unsignedItoa value base=numeral base value := by
  have hf := hv.trans_le (Nat.pow_le_pow_left hb 32)
  rw [unsignedItoa,reverseInPlace_eq,unsignedDigits_reverse hb hb' 32 value hf (by decide)]

theorem signedDigits_spec (fuel : ℕ) (value : ℤ) (hfl : value.natAbs<10^fuel) (hpos : 0<fuel) :
    (signedDigits 10 fuel value).1.reverse=numeral 10 value.natAbs ∧
      ((signedDigits 10 fuel value).2<0 ↔ value<0) := by
  induction fuel generalizing value with
  | zero => omega
  | succ fuel ih =>
    have hdg : value-value.tdiv 10*10=value.tmod 10 := by rw [tmod_def,mul_comm]
    have habs : (value.tmod 10).natAbs=value.natAbs%10 := natAbs_tmod value 10
    have hdiv : (value.tdiv 10).natAbs=value.natAbs/10 := natAbs_tdiv value 10
    have hco : numcode (value-value.tdiv 10*10)=charByte (value.natAbs%10).digitChar := by
      rw [hdg,numcode_natAbs (by omega),habs]
    rw [signedDigits,numeral_eq (by decide),hco]
    split
    · next hzr =>
      rw [hzr,natAbs_zero] at hdiv
      rw [if_pos hdiv.symm]
      exact ⟨rfl,Iff.rfl⟩
    · next hne =>
      have hnx : (value.tdiv 10).natAbs<10^fuel := by
        rw [hdiv]
        exact Nat.div_lt_of_lt_mul (by rwa [pow_succ'] at hfl)
      have hfl' : 0<fuel := by
        rcases Nat.eq_zero_or_pos fuel with rfl | h
        · rw [pow_zero,lt_one_iff,natAbs_eq_zero] at hnx
          exact absurd hnx hne
        · exact h
      have hsg : value.tdiv 10<0 ↔ value<0 := by
        -- the rest is smaller than the quotient, which is not zero, times ten
        have hrs : (value.tmod 10).natAbs<10 := by omega
        omega
      obtain ⟨hcd,hls⟩ := ih (value.tdiv 10) hnx hfl'
      rw [if_neg (by rw [← hdiv,natAbs_eq_zero]; exact hne),← hdiv,← hcd]
      exact ⟨reverse_cons,hls.trans hsg⟩

theorem itoa_eq (value : BitVec 32) : itoa value 10=signedNumeral value.toInt := by
  have hlt : value.toInt.natAbs<10^32 := by
    have h := value.toInt_lt
    have h' := value.le_toInt
    norm_num at h h' ⊢
    omega
  obtain ⟨hc,hl⟩ := signedDigits_spec 32 value.toInt hlt (by decide)
  rw [itoa,if_neg (by decide),signedNumeral,reverseInPlace_eq,reverse_append,← hc]
  by_cases hneg : value.toInt<0
  · rw [if_pos hneg,if_pos (hl.mpr hneg)]
    rfl
  · rw [if_neg hneg,if_neg (fun h=>hneg (hl.mp h))]
    rfl

end Yaos2.Printf
