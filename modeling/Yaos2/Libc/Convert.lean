import Mathlib.Data.List.TakeWhile
import Yaos2.Printf.Convert

/-! # Numbers from text

A string is the list of its characters before the terminator. -/
namespace Yaos2.Libc
open List Nat Printf

/-- A `long int`, and whether an operation on the way to it overflowed. -/
structure Long where
  value : ℤ
  overflow : Bool
  deriving DecidableEq, Repr

namespace Long

def inRange (x : ℤ) : Bool := decide (-2^31≤x ∧ x<2^31)

/-- The result of an operation on values of which one may have overflowed. -/
def wrap (x : ℤ) (overflow : Bool) : Long := ⟨x.bmod (2^32),overflow || !inRange x⟩

def ofInt (x : ℤ) : Long := wrap x false
def add (a b : Long) : Long := wrap (a.value+b.value) (a.overflow || b.overflow)
def mul (a b : Long) : Long := wrap (a.value*b.value) (a.overflow || b.overflow)
def div (a b : Long) : Long := wrap (a.value.tdiv b.value) (a.overflow || b.overflow)
end Long

def numcodes16 : List UInt8 := ['0','1','2','3','4','5','6','7','8','9','a','b','c','d','e','f'].map charByte

/-- `strchr(numcodes16, c) - numcodes16` -/
def codeIndex (c : UInt8) : Option ℕ := numcodes16.findIdx? (· == c)

def isBlank (c : UInt8) : Bool := c == charByte ' ' || c == charByte '\t' || c == charByte '\n'

/-- The sign, and what follows it. -/
def splitSign : List UInt8 → ℤ × List UInt8
  | c::str => if c=charByte '-' then (-1,str) else if c=charByte '+' then (1,str) else (1,c::str)
  | [] => (1,[])

def weightLoop (base : ℕ) : ℕ → Long → Long
  | 0, value => value
  | n+1, value => weightLoop base n (value.mul (.ofInt base))

def digitLoop (base : ℕ) : List UInt8 → Long → Long → Long
  | [], _, number => number
  | c::str, value, number =>
    match codeIndex c with
    | none => number
    | some d => digitLoop base str (value.div (.ofInt base)) (number.add ((Long.ofInt d).mul value))

/-- `strtol`. An overflow of the weight is kept even if no digit is weighted. -/
def strtol (str : List UInt8) (base : ℕ) : Long :=
  match str.dropWhile isBlank with
  | [] => .ofInt 0
  | c::text =>
    let (sign,str) := splitSign (c::text)
    let value := weightLoop base ((str.length+(2^32-1))%2^32) (.ofInt 1)
    let number := (digitLoop base str value (.ofInt 0)).mul (.ofInt sign)
    {number with overflow := number.overflow || value.overflow}

def atoi (str : List UInt8) : Long := strtol str 10

/-! ## The text and its value -/

def isDigit (base : ℕ) (c : UInt8) : Bool := (codeIndex c).any (· < base)

/-- The sign, and what is behind it. -/
def signedPart (str : List UInt8) : ℤ × List UInt8 := splitSign (str.dropWhile isBlank)

/-- The number of a run of digits. -/
def runValue (base : ℕ) (run : List UInt8) : ℕ := ofDigits base (run.map (fun c=>(codeIndex c).getD 0)).reverse

/-- The number of the digits that the text starts with. -/
def leadingValue (base : ℕ) (str : List UInt8) : ℕ := runValue base (str.takeWhile (isDigit base))

def textValue (base : ℕ) (str : List UInt8) : ℤ := (signedPart str).1*leadingValue base (signedPart str).2

/-- The digits are all there is, or they are zeros that no other code follows, and the first one has a weight in
range. -/
def Convertible (base : ℕ) (str : List UInt8) : Prop := str≠[] ∧ base^(str.length-1)<2^31 ∧
    (str.dropWhile (isDigit base)=[] ∧ leadingValue base str<2^31 ∨
      leadingValue base str=0 ∧ (str.dropWhile (isDigit base)).head?.bind codeIndex=none)

/-- What the digit loop adds up with the weight `base^m` of the first character. -/
def digitSum (base : ℕ) : List UInt8 → ℕ → ℕ
  | [], _ => 0
  | c::str, m =>
    match codeIndex c with
    | none => 0
    | some d => d*base^m+digitSum base str (m-1)

section
variable {base m x y z : ℕ} {str run tail : List UInt8}

namespace Long

theorem inRange_iff {x : ℤ} : inRange x=true ↔ -2^31≤x ∧ x<2^31 := decide_eq_true_iff

theorem inRange_natCast : inRange x=true ↔ x<2^31 := by
  rw [inRange_iff]
  omega

theorem ofInt_of_inRange {x : ℤ} (h : inRange x=true) : ofInt x=⟨x,false⟩ := by
  obtain ⟨hl,hu⟩ := inRange_iff.mp h
  rw [ofInt,wrap,h,Int.bmod_eq_of_le (by omega) (by omega)]
  rfl

theorem value_ofInt (x : ℤ) : (ofInt x).value=x.bmod (2^32) := rfl

theorem ofInt_of_lt (h : x<2^31) : ofInt x=⟨x,false⟩ := ofInt_of_inRange (inRange_natCast.mpr h)

theorem overflow_ofInt : (ofInt x).overflow=true ↔ 2^31≤x := by
  rw [← Nat.not_lt,← inRange_natCast]
  simp [ofInt,wrap]

theorem wrap_eq_ofInt {r : ℤ} (hr : r.bmod (2^32)=(z : ℤ).bmod (2^32)) (h : x<2^31 → y<2^31 → r=z)
    (hx : 2^31≤x → 2^31≤z) (hy : 2^31≤y → 2^31≤z) :
    wrap r ((ofInt x).overflow || (ofInt y).overflow)=ofInt z := by
  by_cases hxy : x<2^31 ∧ y<2^31
  · rw [h hxy.1 hxy.2,ofInt_of_lt hxy.1,ofInt_of_lt hxy.2]
    rfl
  · have hz : inRange z=false := by
      rw [Bool.eq_false_iff,Ne,inRange_natCast]
      omega
    have hfl : ((ofInt x).overflow || (ofInt y).overflow)=true := by
      rw [Bool.or_eq_true,overflow_ofInt,overflow_ofInt]
      omega
    rw [hfl,wrap,hr,ofInt,wrap,hz]
    rfl

theorem add_ofInt (x y : ℕ) : (ofInt x).add (ofInt y)=ofInt (x+y : ℕ) := by
  refine wrap_eq_ofInt ?_ (fun hx hy=>?_) (by omega) (by omega)
  · simp [ofInt,wrap]
  · simp [ofInt_of_lt hx,ofInt_of_lt hy]

theorem mul_ofInt (hx : 2^31≤x → 2^31≤x*y) (hy : 2^31≤y → 2^31≤x*y) :
    (ofInt x).mul (ofInt y)=ofInt (x*y : ℕ) := by
  refine wrap_eq_ofInt ?_ (fun hx hy=>?_) hx hy
  · simp [ofInt,wrap]
  · simp [ofInt_of_lt hx,ofInt_of_lt hy]

theorem div_ofInt (hx : x<2^31) (hy : y<2^31) : (ofInt x).div (ofInt y)=ofInt (x/y : ℕ) := by
  rw [ofInt_of_lt hx,ofInt_of_lt hy]
  rfl
end Long

theorem weightLoop_ofInt (hb : 2≤base) (hb' : base≤16) (n x : ℕ) :
    weightLoop base n (.ofInt x)=.ofInt (x*base^n : ℕ) := by
  induction n generalizing x with
  | zero => rw [weightLoop,pow_zero,mul_one]
  | succ n ih =>
    rw [weightLoop,Long.mul_ofInt ?_ (by omega),ih,pow_succ',mul_assoc]
    intro hx
    exact hx.trans (Nat.le_mul_of_pos_right x (by omega))

theorem codeIndex_lt {c : UInt8} {d : ℕ} (h : codeIndex c=some d) : d<16 := by
  obtain ⟨hd,-⟩ := findIdx?_eq_some_iff_getElem.mp h
  exact hd

theorem digitLoop_ofInt (hb : 2≤base) (hb' : base≤16) (hm : base^m<2^31) (hlen : str.length ≤ m+1) (x : ℕ) :
    digitLoop base str (.ofInt (base^m : ℕ)) (.ofInt x)=.ofInt (x+digitSum base str m : ℕ) := by
  induction str generalizing m x with
  | nil => rw [digitLoop,digitSum,add_zero]
  | cons c str ih =>
    rw [digitLoop,digitSum]
    rcases hc : codeIndex c with _ | d
    · rfl
    · have hd := codeIndex_lt hc
      dsimp only
      rw [Long.mul_ofInt (by omega) (by omega),Long.add_ofInt,Long.div_ofInt hm (by omega)]
      rcases m with _ | m
      · simp_all [digitLoop,digitSum]
      · have hm' := (Nat.pow_le_pow_right (by omega) (Nat.le_succ m)).trans_lt hm
        rw [pow_succ,Nat.mul_div_cancel _ (by omega),ih hm' (Nat.le_of_succ_le_succ hlen),Nat.add_sub_cancel,add_assoc]

theorem isDigit_iff {c : UInt8} : isDigit base c=true ↔ ∃ d, codeIndex c=some d ∧ d<base := by
  rw [isDigit]
  cases codeIndex c <;> simp

theorem runValue_cons (base : ℕ) (c : UInt8) (run : List UInt8) :
    runValue base (c::run)=(codeIndex c).getD 0*base^run.length+runValue base run := by
  rw [runValue,map_cons,reverse_cons,ofDigits_append,ofDigits_singleton,length_reverse,length_map,mul_comm,add_comm]
  rfl

theorem digitSum_append (hrun : ∀ c ∈ run, isDigit base c=true) (tail : List UInt8) :
    digitSum base (run++tail) (run.length+tail.length-1) =
      runValue base run*base^tail.length+digitSum base tail (tail.length-1) := by
  induction run with
  | nil => simp [runValue]
  | cons c run ih =>
    obtain ⟨d,hd,-⟩ := isDigit_iff.mp (hrun c mem_cons_self)
    rw [cons_append,digitSum,hd,runValue_cons,hd]
    dsimp only
    rw [length_cons,show run.length+1+tail.length-1=run.length+tail.length by omega,
      ih (fun c hc=>hrun c (mem_cons_of_mem _ hc)),Option.getD_some,pow_add]
    ring

theorem digitSum_eq_iff (hb : 2≤base) (str : List UInt8) :
    digitSum base str (str.length-1)=leadingValue base str ↔ str.dropWhile (isDigit base)=[] ∨
      leadingValue base str=0 ∧ (str.dropWhile (isDigit base)).head?.bind codeIndex=none := by
  have hsum := digitSum_append (fun c hc=>mem_takeWhile_imp (p := isDigit base) (l := str) hc) (str.dropWhile (isDigit base))
  rw [takeWhile_append_dropWhile,← length_append,takeWhile_append_dropWhile] at hsum
  rw [hsum,leadingValue]
  generalize runValue base (str.takeWhile (isDigit base))=v
  rcases htl : str.dropWhile (isDigit base) with _ | ⟨c,tail⟩
  · simp [digitSum]
  · have hc := head?_dropWhile_not (isDigit base) str
    have hpow : 2≤base^(tail.length+1) := hb.trans (Nat.le_self_pow (succ_ne_zero _) base)
    rw [htl,head?_cons] at hc
    simp only [length_cons,digitSum,head?_cons,Option.bind_some,reduceCtorEq,false_or]
    rcases hd : codeIndex c with _ | d
    · simp only [add_zero,and_true]
      constructor
      · intro h
        nlinarith
      · simp_all
    · have hd' : 2≤d := by
        by_contra hlt
        have hdg : isDigit base c=true := isDigit_iff.mpr ⟨d,hd,by omega⟩
        simp [hdg] at hc
      have hpos : 0<d*base^(tail.length+1-1) := by positivity
      simp only [reduceCtorEq,and_false,iff_false]
      nlinarith
end

section
variable {base x : ℕ} {sign : ℤ} {str rest : List UInt8}

theorem splitSign_bounds (str : List UInt8) :
    ((splitSign str).1=1 ∨ (splitSign str).1 = -1) ∧ (splitSign str).2.length ≤ str.length := by
  rw [splitSign.eq_def]
  split
  · split_ifs <;> simp
  · exact ⟨.inl rfl,le_refl _⟩

theorem mul_sign (hsg : sign=1 ∨ sign = -1) (x : ℕ) :
    (Long.ofInt x).mul (.ofInt sign)=⟨(sign*x).bmod (2^32),!Long.inRange x⟩ := by
  have hs : Long.ofInt sign=⟨sign,false⟩ := Long.ofInt_of_inRange (by rcases hsg with rfl | rfl <;> rfl)
  rw [hs,Long.mul,Long.wrap,Long.value_ofInt,Int.bmod_mul_bmod,mul_comm]
  rcases hx : Long.inRange x with _ | _
  · simp [Long.ofInt,Long.wrap,hx]
  · have hx' := Long.inRange_iff.mp hx
    have hr : Long.inRange ((x : ℤ).bmod (2^32)*sign)=true := by
      rw [Long.inRange_iff,Int.bmod_eq_of_le (by omega) (by omega)]
      rcases hsg with rfl | rfl <;> omega
    rw [hr,Long.ofInt_of_inRange hx]
    rfl

theorem signedPart_bounds (hp : signedPart str=(sign,rest)) : (sign=1 ∨ sign = -1) ∧ rest.length ≤ str.length := by
  obtain ⟨hs,hle⟩ := splitSign_bounds (str.dropWhile isBlank)
  rw [signedPart] at hp
  rw [hp] at hs hle
  exact ⟨hs,hle.trans (dropWhile_sublist _).length_le⟩

variable (hb : 2≤base) (hb' : base≤16) (h : str.dropWhile isBlank≠[]) (hp : signedPart str=(sign,rest))
include hb hb' h hp
theorem strtol_eq : strtol str base =
    let value := Long.ofInt (base^((rest.length+(2^32-1))%2^32) : ℕ)
    let number := (digitLoop base rest value (.ofInt 0)).mul (.ofInt sign)
    {number with overflow := number.overflow || value.overflow} := by
  have hw := weightLoop_ofInt hb hb' ((rest.length+(2^32-1))%2^32) 1
  rw [one_mul] at hw
  rw [signedPart] at hp
  rw [strtol,← hw]
  split
  · contradiction
  · next h' => rw [← h',hp]; rfl

theorem strtol_no_digit (hr : rest.head?.bind codeIndex=none) :
    (strtol str base).value=sign*leadingValue base rest := by
  obtain ⟨hsg,-⟩ := signedPart_bounds hp
  have hrun : rest.takeWhile (isDigit base)=[] := by
    rcases rest with _ | ⟨c,rest⟩
    · rfl
    · simp_all [isDigit]
  have hlp : ∀ value, digitLoop base rest value (.ofInt 0)=.ofInt (0 : ℕ) := by
    intro value
    rcases rest with _ | ⟨c,rest⟩
    · rfl
    · rw [head?_cons,Option.bind_some] at hr
      rw [digitLoop,hr]
      rfl
  rw [strtol_eq hb hb' h hp]
  dsimp only
  rw [hlp,mul_sign hsg,leadingValue,hrun]
  simp [runValue]

variable (hlen : str.length<2^32)
include hlen
theorem strtol_ofInt (hr : rest≠[]) (hw : base^(rest.length-1)<2^31) :
    strtol str base=⟨(sign*digitSum base rest (rest.length-1)).bmod (2^32),
      !Long.inRange (digitSum base rest (rest.length-1))⟩ := by
  obtain ⟨hsg,hrs⟩ := signedPart_bounds hp
  have hpos := length_pos_iff.mpr hr
  have hmod : (rest.length+(2^32-1))%2^32=rest.length-1 := by omega
  have hlp := digitLoop_ofInt hb hb' hw (show rest.length≤rest.length-1+1 by omega) 0
  rw [zero_add,Nat.cast_zero] at hlp
  rw [strtol_eq hb hb' h hp,hmod]
  dsimp only
  rw [hlp,mul_sign hsg,Long.ofInt_of_lt hw]
  simp

theorem strtol_overflow (hr : rest=[] ∨ 2^31≤base^(rest.length-1)) : (strtol str base).overflow=true := by
  obtain ⟨-,hrs⟩ := signedPart_bounds hp
  have hle : 2^31≤base^((rest.length+(2^32-1))%2^32) := by
    rcases eq_or_ne rest [] with rfl | hne
    · exact (Nat.pow_le_pow_left hb 31).trans (Nat.pow_le_pow_right (by omega) (by decide))
    · have hpos := length_pos_iff.mpr hne
      rw [show (rest.length+(2^32-1))%2^32=rest.length-1 by omega]
      exact hr.resolve_left hne
  rw [strtol_eq hb hb' h hp]
  dsimp only
  rw [Long.overflow_ofInt.mpr hle,Bool.or_true]

theorem strtol_value_iff (hr : rest≠[]) (hw : base^(rest.length-1)<2^31) :
    strtol str base=⟨sign*leadingValue base rest,false⟩ ↔ Convertible base rest := by
  have hsum := digitSum_eq_iff hb rest
  obtain ⟨hsg,-⟩ := signedPart_bounds hp
  rw [strtol_ofInt hb hb' h hp hlen hr hw,Long.mk.injEq,Bool.not_eq_false',Long.inRange_natCast,Convertible]
  generalize digitSum base rest (rest.length-1)=x at hsum ⊢
  generalize leadingValue base rest=v at hsum ⊢
  have hx : x<2^31 → ((sign*x).bmod (2^32)=sign*v ↔ x=v) := by
    intro hx
    rw [Int.bmod_eq_of_le (by rcases hsg with rfl | rfl <;> omega) (by rcases hsg with rfl | rfl <;> omega)]
    rcases hsg with rfl | rfl <;> omega
  rw [and_iff_right hr,and_iff_right hw]
  constructor
  · rintro ⟨hv,hlt⟩
    obtain rfl := (hx hlt).mp hv
    exact (hsum.mp rfl).imp_left (fun h=>⟨h,hlt⟩)
  · intro hor
    have hv := hsum.mpr (hor.imp_left And.left)
    have hlt : x<2^31 := by omega
    exact ⟨(hx hlt).mpr hv,hlt⟩

theorem strtol_digits (hr : rest≠[]) (hw : base^(rest.length-1)<2^31) (hall : rest.dropWhile (isDigit base)=[])
    (hft : Long.inRange (sign*leadingValue base rest)=true) :
    (strtol str base).value=sign*leadingValue base rest := by
  obtain ⟨hl,hu⟩ := Long.inRange_iff.mp hft
  rw [strtol_ofInt hb hb' h hp hlen hr hw,(digitSum_eq_iff hb rest).mpr (.inl hall)]
  exact Int.bmod_eq_of_le (by omega) (by omega)
end

/-- The text is converted without overflow only if nothing but the digits is left. The smallest number, and a
text that starts with no digit, overflow on the way to the right result. -/
theorem strtol_converts_iff {base : ℕ} (hb : 2≤base) (hb' : base≤16) {str : List UInt8} (hlen : str.length<2^32)
    (hfits : Long.inRange (textValue base str)=true) :
    (strtol str base=⟨textValue base str,false⟩ ↔
        str.dropWhile isBlank=[] ∨ Convertible base (signedPart str).2) ∧
      ((signedPart str).2.head?.bind codeIndex=none ∨ (signedPart str).2.dropWhile (isDigit base)=[] ∧
        base^((signedPart str).2.length-1)<2^31 → (strtol str base).value=textValue base str) := by
  by_cases h : str.dropWhile isBlank=[]
  · have hv : textValue base str=0 := by simp [textValue,signedPart,h,splitSign,leadingValue,runValue]
    have hs : strtol str base=⟨0,false⟩ := by
      rw [strtol,h]
      rfl
    rw [hv,hs]
    exact ⟨iff_of_true rfl (.inl h),fun _=>rfl⟩
  obtain ⟨sign,rest,hp⟩ : ∃ sign rest, signedPart str=(sign,rest) := ⟨_,_,rfl⟩
  rw [textValue,hp] at hfits ⊢
  dsimp only at hfits ⊢
  constructor
  · rw [or_iff_right h]
    by_cases hr : rest≠[] ∧ base^(rest.length-1)<2^31
    · exact strtol_value_iff hb hb' h hp hlen hr.1 hr.2
    · have ho := strtol_overflow hb hb' h hp hlen (by
        by_cases hne : rest=[]
        · exact .inl hne
        · exact .inr (Nat.not_lt.mp (fun hlt=>hr ⟨hne,hlt⟩)))
      refine iff_of_false (fun hs=>?_) (fun hc=>hr ⟨hc.1,hc.2.1⟩)
      rw [hs] at ho
      cases ho
  · rintro (hnn | ⟨hall,hw⟩)
    · exact strtol_no_digit hb hb' h hp hnn
    · by_cases hr : rest=[]
      · exact strtol_no_digit hb hb' h hp (by rw [hr]; rfl)
      · exact strtol_digits hb hb' h hp hlen hr hw hall hfits

theorem strtol_converts_iff_twelve : strtol [49,50] 10=⟨textValue 10 [49,50],false⟩ :=
  (strtol_converts_iff (by decide) (by decide) (by decide) (by decide +kernel)).1.mpr
    (.inr ⟨by decide,by decide,.inl ⟨by decide,by decide +kernel⟩⟩)

/-- A blank after "12" counts as a digit place, and 'a' as a decimal digit. -/
theorem strtol_misreads : strtol [49,50,32] 10=⟨120,false⟩ ∧ textValue 10 [49,50,32]=12 ∧
    strtol [49,97] 10=⟨20,false⟩ ∧ textValue 10 [49,97]=1 := by decide +kernel

/-! ## Round trip -/

def digitByte (d : ℕ) : UInt8 := if d<10 then charByte '0'+.ofNat d else charByte 'a'+.ofNat (d-10)

/-- The digits of a number without leading zeros. -/
def canonical (base n : ℕ) : List UInt8 := ((if n=0 then [0] else digits base n).map digitByte).reverse

def canonicalInt (i : ℤ) : List UInt8 :=
  if i<0 then charByte '-'::canonical 10 i.natAbs else canonical 10 i.natAbs

section
variable {base d n : ℕ} {str : List UInt8}

theorem numcode_digitByte (hd : d<32) : numcode d=digitByte d := by
  have h : ∀ d : Fin 32, numcode (d.val : ℤ)=digitByte d.val := by decide
  exact h ⟨d,hd⟩

theorem codeIndex_digitByte (hd : d<16) : codeIndex (digitByte d)=some d := by
  have h : ∀ d : Fin 16, codeIndex (digitByte d.val)=some d.val := by decide
  exact h ⟨d,hd⟩

theorem unsignedDigits_digits (hb : 2≤base) (hb' : base≤32) (fuel n : ℕ) (h : n<base^(fuel+1)) :
    unsignedDigits base (fuel+1) n=(if n=0 then [0] else digits base n).map digitByte := by
  induction fuel generalizing n with
  | zero =>
    rw [zero_add,pow_one] at h
    rw [unsignedDigits,Nat.div_eq_of_lt h,if_pos rfl,zero_mul,Nat.sub_zero,numcode_digitByte (by omega)]
    split_ifs with h0
    · simp_all
    · simp_all
  | succ fuel ih =>
    have hmod := Nat.mod_lt n (show base > 0 by omega)
    rw [unsignedDigits,← mod_eq_sub_div_mul,numcode_digitByte (by omega)]
    rcases Nat.eq_zero_or_pos n with rfl | hpos
    · simp
    · rw [if_neg hpos.ne',digits_def' hb hpos,map_cons]
      congr 1
      split_ifs with h0
      · rw [h0,digits_zero,map_nil]
      · rw [ih _ (Nat.div_lt_of_lt_mul (by rwa [pow_succ'] at h)),if_neg h0]

theorem unsignedItoa_canonical (hb : 2≤base) (hb' : base≤32) (h : n<2^32) : unsignedItoa n base=canonical base n := by
  rw [unsignedItoa,reverseInPlace_eq,unsignedDigits_digits hb hb' 31 n (h.trans_le (Nat.pow_le_pow_left hb 32)),canonical]

theorem itoa_canonical (v : BitVec 32) : itoa v 10=canonicalInt v.toInt := by
  have hlt : v.toInt.natAbs<2^32 := by
    have h := v.toInt_lt
    have h' := v.le_toInt
    omega
  rw [itoa_eq,signedNumeral,canonicalInt,← unsignedItoa_eq (by decide) (by decide) hlt,
    unsignedItoa_canonical (by decide) (by decide) hlt]

theorem isDigit_digitByte (hb' : base≤16) (hd : d<base) : isDigit base (digitByte d)=true :=
  isDigit_iff.mpr ⟨d,codeIndex_digitByte (by omega),hd⟩

theorem signedPart_of_digits (h : ∀ c ∈ str, isDigit base c=true) :
    str.dropWhile isBlank=str ∧ signedPart str=(1,str) := by
  rcases str with _ | ⟨c,str⟩
  · exact ⟨rfl,rfl⟩
  obtain ⟨d,hd,-⟩ := isDigit_iff.mp (h c mem_cons_self)
  have hne : ∀ x, codeIndex x=none → c≠x := by
    rintro x hx rfl
    rw [hd] at hx
    cases hx
  have hbl : isBlank c=false := by
    simp [isBlank,hne (charByte ' ') (by decide),hne (charByte '\t') (by decide),hne (charByte '\n') (by decide)]
  have hdr : dropWhile isBlank (c::str)=c::str := dropWhile_cons_of_neg (by rw [hbl]; decide)
  rw [signedPart,hdr,splitSign,if_neg (hne _ (by decide)),if_neg (hne _ (by decide))]
  exact ⟨rfl,rfl⟩

theorem canonical_bounds (hb : 2≤base) (n : ℕ) :
    canonical base n≠[] ∧ base^((canonical base n).length-1) ≤ max n 1 := by
  rw [canonical]
  split_ifs with h0
  · simp
  · have hne : digits base n≠[] := digits_ne_nil_iff_ne_zero.mpr h0
    have hle := base_pow_length_digits_le base n hb h0
    obtain ⟨k,hk⟩ := Nat.exists_eq_add_of_lt (length_pos_iff.mpr hne)
    rw [hk,zero_add,pow_succ'] at hle
    refine ⟨by simpa using hne,?_⟩
    rw [length_reverse,length_map,hk,zero_add,Nat.add_sub_cancel]
    exact (Nat.le_of_mul_le_mul_left hle (by omega)).trans (le_max_left n 1)

theorem canonical_digits (hb : 2≤base) (hb' : base≤16) (n : ℕ) :
    (∀ c ∈ canonical base n, isDigit base c=true) ∧ runValue base (canonical base n)=n := by
  have hlt : ∀ d ∈ (if n=0 then [0] else digits base n), d<base := by
    split_ifs
    · simp
      omega
    · exact fun d hd=>digits_lt_base hb hd
  have hval : ofDigits base (if n=0 then [0] else digits base n)=n := by
    split_ifs with h0
    · simp [h0]
    · exact ofDigits_digits base n
  rw [canonical]
  generalize (if n=0 then [0] else digits base n)=ds at hlt hval ⊢
  constructor
  · intro c hc
    obtain ⟨d,hd,rfl⟩ := mem_map.mp (mem_reverse.mp hc)
    exact isDigit_iff.mpr ⟨d,codeIndex_digitByte ((hlt d hd).trans_le hb'),hlt d hd⟩
  · have hcd : (ds.map digitByte).map (fun c=>(codeIndex c).getD 0)=ds := by
      rw [map_map]
      conv_rhs => rw [← map_id ds]
      refine map_congr_left (fun d hd=>?_)
      rw [Function.comp_apply,codeIndex_digitByte ((hlt d hd).trans_le hb')]
      rfl
    rw [runValue,map_reverse,reverse_reverse,hcd,hval]

theorem strtol_canonical (hb : 2≤base) (hb' : base≤16) {sign : ℤ}
    (hp : signedPart str=(sign,canonical base n)) (h : str.dropWhile isBlank≠[]) (hlen : str.length<2^32)
    (hw : base^((canonical base n).length-1)<2^31) :
    (n<2^31 → strtol str base=⟨sign*n,false⟩) ∧
      (Long.inRange (sign*n)=true → (strtol str base).value=sign*n) := by
  obtain ⟨hne,-⟩ := canonical_bounds hb n
  obtain ⟨hdg,hval⟩ := canonical_digits hb hb' n
  have hall := dropWhile_eq_nil_iff.mpr hdg
  have hld : leadingValue base (canonical base n)=n := by rw [leadingValue,takeWhile_eq_self_iff.mpr hdg,hval]
  have hiff := strtol_value_iff hb hb' h hp hlen hne hw
  have hvl := strtol_digits hb hb' h hp hlen hne hw hall
  rw [Convertible,hld] at hiff
  rw [hld] at hvl
  exact ⟨fun hn=>hiff.mpr ⟨hne,hw,.inl ⟨hall,hn⟩⟩,hvl⟩

theorem canonical_length_le (hb : 2≤base) (hw : base^((canonical base n).length-1)<2^31) :
    (canonical base n).length≤31 := by
  have hlt := (Nat.pow_lt_pow_iff_right (by decide)).mp ((Nat.pow_le_pow_left hb _).trans_lt hw)
  omega

theorem convert_round_trip :
    (∀ base v, 2≤base → base≤16 → v<2^31 → strtol (unsignedItoa v base) base=⟨v,false⟩) ∧
      (∀ v : BitVec 32, itoa v 10=canonicalInt v.toInt ∧ (atoi (itoa v 10)).value=v.toInt) ∧
      ∀ base v, 2≤base → base≤32 → v<2^32 → unsignedItoa v base=canonical base v := by
  refine ⟨fun base v hb hb' hv=>?_,fun v=>⟨itoa_canonical v,?_⟩,fun base v hb hb' hv=>unsignedItoa_canonical hb hb' hv⟩
  · obtain ⟨hne,hle⟩ := canonical_bounds hb v
    have hw := hle.trans_lt (show max v 1<2^31 by omega)
    obtain ⟨hdr,hp⟩ := signedPart_of_digits (canonical_digits hb hb' v).1
    have hlen := canonical_length_le hb hw
    rw [unsignedItoa_canonical hb (by omega) (by omega),
      (strtol_canonical hb hb' hp (hdr.symm▸hne) (by omega) hw).1 hv,one_mul]
  · have hu := v.toInt_lt
    have hl := v.le_toInt
    obtain ⟨hne,hle⟩ := canonical_bounds (show 2≤10 by decide) v.toInt.natAbs
    have hw : 10^((canonical 10 v.toInt.natAbs).length-1)<2^31 := by
      have hk : (canonical 10 v.toInt.natAbs).length-1<10 :=
        (Nat.pow_lt_pow_iff_right (a := 10) (by decide)).mp (hle.trans_lt (by omega))
      exact (Nat.pow_le_pow_right (by decide) (Nat.le_of_lt_succ hk)).trans_lt (by decide)
    have hlen := canonical_length_le (by decide) hw
    have hft := Long.inRange_iff.mpr ⟨hl,hu⟩
    rw [itoa_canonical,canonicalInt,atoi]
    split_ifs with hneg
    · have hv : v.toInt = -1*(v.toInt.natAbs : ℤ) := by omega
      have hp : signedPart (charByte '-'::canonical 10 v.toInt.natAbs)=(-1,canonical 10 v.toInt.natAbs) := rfl
      have hvl := (strtol_canonical (by decide) (by decide) hp (cons_ne_nil _ _) (by rw [length_cons]; omega) hw).2
      rw [← hv] at hvl
      exact hvl hft
    · have hv : v.toInt=1*(v.toInt.natAbs : ℤ) := by omega
      obtain ⟨hdr,hp⟩ := signedPart_of_digits (canonical_digits (show 2≤10 by decide) (by decide) v.toInt.natAbs).1
      have hvl := (strtol_canonical (by decide) (by decide) hp (hdr.symm▸hne) (by omega) hw).2
      rw [← hv] at hvl
      exact hvl hft

theorem convert_round_trip_ff : strtol (unsignedItoa 255 16) 16=⟨255,false⟩ ∧ (atoi (itoa 255 10)).value=255 :=
  ⟨convert_round_trip.1 16 255 (by decide) (by decide) (by decide),(convert_round_trip.2.1 255).2⟩
end

end Yaos2.Libc
