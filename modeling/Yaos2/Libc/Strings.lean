import Yaos2.Foundation.ByteMemory

/-! # Strings and memory of the C library

A pointer into a string is the list of the characters that can be read from there on. A read behind
its end is a fault. -/
namespace Yaos2.Libc
open Foundation Function List

def strlen : List Int8 → Option ℕ
  | [] => none
  | c::str => if c=0 then some 0 else (strlen str).map (·+1)

/-- `strncmp`, which does not stop at terminators. -/
def strncmp : List Int8 → List Int8 → ℕ → Option ℤ
  | _, _, 0 => some 0
  | a::s1, b::s2, num+1 => if a<b then some (-1) else if b<a then some 1 else strncmp s1 s2 num
  | _, _, _+1 => none

/-- `strcmp`; its loop is the one of `strncmp`. -/
def strcmp (s1 s2 : List Int8) : Option ℤ := do
  let len1 ← strlen s1
  let len2 ← strlen s2
  if len2<len1 then return 1
  else if len1<len2 then return -1
  else strncmp s1 s2 len1

/-- The loop of `strstr` over the part of `s1` that is left, `i` characters from its start. -/
def strstrLoop (s2 : List Int8) (len2 : ℕ) : ℕ → ℕ → List Int8 → Option (Option ℕ)
  | 0, _, _ => some none
  | len+1, i, s1 =>
    if len+1<len2 then some none
    else do
      let result ← strncmp s1 s2 len2
      if result=0 then return some i
      else strstrLoop s2 len2 len (i+1) s1.tail

/-- The offset that is returned, unless it is `NULL`. -/
def strstr (s1 s2 : Option (List Int8)) : Option (Option ℕ) :=
  match s1, s2 with
  | some s1, some s2 => do
    let len1 ← strlen s1
    let len2 ← strlen s2
    if len2=0 then return some 0
    else if len1<len2 then return none
    else strstrLoop s2 len2 len1 0 s1
  | _, _ => some none

/-- The least number with the property, if there is one. -/
def IsFirst (p : ℕ → Prop) : Option ℕ → Prop
  | some i => p i ∧ ∀ j < i, ¬p j
  | none => ∀ i, ¬p i

/-- The sign of the lexicographic comparison. -/
def lexSign (s t : List Int8) : ℤ := if s<t then -1 else if t<s then 1 else 0

section
variable {s t : List Int8} {n : ℕ}

theorem strlen_eq (hs : 0 ∉ s) (r : List Int8) : strlen (s++0::r)=some s.length := by
  induction s with
  | nil => rfl
  | cons c s ih =>
    rw [mem_cons,not_or] at hs
    rw [cons_append,strlen,if_neg (Ne.symm hs.1),ih hs.2]
    rfl

theorem char_eq_of_not_lt {a b : Int8} (h : ¬a<b) (h' : ¬b<a) : a=b := by
  rw [Int8.not_lt] at h h'
  exact Int8.le_antisymm h' h

theorem strncmp_prefix (hn : t.length ≤ s.length) (q : List Int8) :
    ∃ r, strncmp s (t++q) t.length=some r ∧ (r=0 ↔ t <+: s) := by
  induction t generalizing s with
  | nil => exact ⟨0,by simp [strncmp],by simp⟩
  | cons b t ih =>
    obtain ⟨a,s,rfl⟩ : ∃ a s', s=a::s' := exists_cons_of_length_pos (by simp at hn; omega)
    obtain ⟨r,hr,h⟩ := ih (s := s) (by simpa using hn)
    rw [length_cons,cons_append,strncmp]
    split_ifs with hlt hgt
    · exact ⟨-1,rfl,by simp [cons_prefix_cons,(Int8.ne_of_lt hlt).symm]⟩
    · exact ⟨1,rfl,by simp [cons_prefix_cons,Int8.ne_of_lt hgt]⟩
    · exact ⟨r,hr,by rw [h,cons_prefix_cons,char_eq_of_not_lt hlt hgt]; simp⟩

theorem IsFirst.succ (h0 : ¬p 0) (h : IsFirst (fun i=>p (i+1)) x) : IsFirst p (x.map (·+1)) := by
  cases x with
  | some i =>
    refine ⟨h.1,fun j hj=>?_⟩
    rcases j with _ | j
    · exact h0
    · exact h.2 j (Nat.succ_lt_succ_iff.mp hj)
  | none =>
    rintro (_ | i)
    · exact h0
    · exact h i

theorem not_prefix_of_length_lt (h : s.length<t.length) (i : ℕ) : ¬t <+: s.drop i := by
  intro hp
  have hlen := hp.length_le
  rw [length_drop] at hlen
  omega

theorem strstrLoop_spec (ht : t≠[]) (q r : List Int8) (i : ℕ) :
    ∃ x, strstrLoop (t++q) t.length s.length i (s++r)=some (x.map (i+·)) ∧
      IsFirst (fun k=>t <+: s.drop k) x := by
  induction s generalizing i with
  | nil => exact ⟨none,rfl,not_prefix_of_length_lt (length_pos_iff.mpr ht)⟩
  | cons c s ih =>
    rw [length_cons,strstrLoop]
    split_ifs with hlt
    · exact ⟨none,rfl,not_prefix_of_length_lt hlt⟩
    · obtain ⟨x,hx,hfr⟩ := ih (i+1)
      obtain ⟨y,hy,hzr⟩ := strncmp_prefix (s := c::s++r) (t := t) (by simp at hlt ⊢; omega) q
      rw [isPrefix_append_of_length (by simpa using Nat.not_lt.mp hlt)] at hzr
      rw [hy,Option.bind_eq_bind,Option.bind_some]
      split_ifs with h0
      · exact ⟨some 0,rfl,hzr.mp h0,fun j hj=>absurd hj (Nat.not_lt_zero j)⟩
      · refine ⟨x.map (·+1),?_,hfr.succ (fun h=>h0 (hzr.mpr h))⟩
        rw [cons_append,tail_cons,hx,Option.map_map]
        congr 2
        funext k
        exact Nat.add_right_comm i 1 k

/-- The first occurrence is found, and what is behind the terminators is not needed. -/
theorem strstr_first (hs : 0 ∉ s) (ht : 0 ∉ t) (r q : List Int8) :
    ∃ x, strstr (some (s++0::r)) (some (t++0::q))=some x ∧ IsFirst (fun i=>t <+: s.drop i) x := by
  simp only [strstr,strlen_eq hs,strlen_eq ht,Option.bind_eq_bind,Option.bind_some]
  split_ifs with h0 hlt
  · obtain rfl := length_eq_zero_iff.mp h0
    exact ⟨some 0,rfl, nil_prefix,fun j hj=>absurd hj (Nat.not_lt_zero j)⟩
  · exact ⟨none,rfl,not_prefix_of_length_lt hlt⟩
  · obtain ⟨x,hx,hf⟩ := strstrLoop_spec (s := s) (fun h=>h0 (length_eq_zero_iff.mpr h)) (0::q) (0::r) 0
    exact ⟨x,by simpa using hx,hf⟩

theorem strstr_first_aab : ∃ x, strstr (some [97,97,97,98,0]) (some [97,97,98,0])=some x ∧
    IsFirst (fun i=>([97,97,98] : List Int8) <+: [97,97,97,98].drop i) x :=
  strstr_first (s := [97,97,97,98]) (t := [97,97,98]) (by decide) (by decide) [] []

theorem lexSign_cons (a : Int8) (s t : List Int8) : lexSign (a::s) (a::t)=lexSign s t := by simp [lexSign]

theorem lexSign_eq_neg_one_iff : lexSign s t = -1 ↔ s<t := by
  rw [lexSign]
  split_ifs <;> simp_all

theorem lexSign_eq_one_iff : lexSign s t=1 ↔ t<s := by
  have ha : t<s → ¬s<t := List.lt_asymm
  rw [lexSign]
  split_ifs <;> simp_all

theorem lexSign_of_lt (h : a<b) (s t : List Int8) : lexSign (a::s) (b::t) = -1 :=
  lexSign_eq_neg_one_iff.mpr (cons_lt_cons_iff.mpr (.inl h))

theorem lexSign_of_gt (h : b<a) (s t : List Int8) : lexSign (a::s) (b::t)=1 :=
  lexSign_eq_one_iff.mpr (cons_lt_cons_iff.mpr (.inl h))

theorem strncmp_length (h : s.length=t.length) (r q : List Int8) :
    strncmp (s++r) (t++q) s.length=some (lexSign s t) := by
  induction s generalizing t with
  | nil =>
    obtain rfl := length_eq_zero_iff.mp h.symm
    simp [strncmp,lexSign]
  | cons a s ih =>
    obtain ⟨b,t,rfl⟩ : ∃ b t', t=b::t' := exists_cons_of_length_pos (by rw [← h]; simp)
    rw [length_cons,cons_append,cons_append,strncmp]
    split_ifs with hlt hgt
    · rw [lexSign_of_lt hlt]
    · rw [lexSign_of_gt hgt]
    · rw [char_eq_of_not_lt hlt hgt,lexSign_cons,ih (by simpa using h)]

theorem strncmp_eq_zero_iff (r q : List Int8) (k : ℕ) :
    strncmp r q k=some 0 ↔ k≤r.length ∧ k≤q.length ∧ r.take k=q.take k := by
  induction k generalizing r q with
  | zero => simp [strncmp]
  | succ k ih =>
    rcases r with _ | ⟨a,r⟩
    · simp [strncmp]
    rcases q with _ | ⟨b,q⟩
    · simp [strncmp]
    rw [strncmp]
    split_ifs with hlt hgt
    · simp [Int8.ne_of_lt hlt]
    · simp [(Int8.ne_of_lt hgt).symm]
    · simp [ih,char_eq_of_not_lt hlt hgt]

theorem strncmp_eq_iff (hs : 0 ∉ s) (ht : 0 ∉ t) (r q : List Int8) (hn : s.length<n) (hn' : t.length<n) :
    strncmp (s++0::r) (t++0::q) n=some (lexSign s t) ↔
      (∀ c u, s++c::u=t ∨ t++c::u=s → 0<c) ∧ (s=t → strncmp r q (n-s.length-1)=some 0) := by
  induction s generalizing t n with
  | nil =>
    obtain ⟨k,rfl⟩ := Nat.exists_eq_succ_of_ne_zero (Nat.ne_of_gt hn)
    rcases t with _ | ⟨b,t⟩
    · simp [strncmp,lexSign]
    · rw [nil_append,cons_append,strncmp]
      split_ifs with hlt hgt
      · simp [lexSign,hlt]
      · simp [lexSign,Int8.lt_asymm hgt]
      · exact absurd (char_eq_of_not_lt hlt hgt) (fun h=>ht (h▸mem_cons_self))
  | cons a s ih =>
    obtain ⟨k,rfl⟩ := Nat.exists_eq_succ_of_ne_zero (Nat.ne_zero_of_lt hn)
    rcases t with _ | ⟨b,t⟩
    · rw [nil_append,cons_append,strncmp]
      split_ifs with hlt hgt
      · simp [lexSign,Int8.lt_asymm hlt]
      · simp [lexSign,hgt]
      · exact absurd (char_eq_of_not_lt hlt hgt) (fun h=>hs (h▸mem_cons_self))
    · rw [cons_append,cons_append,strncmp]
      split_ifs with hlt hgt
      · simp [lexSign_of_lt hlt,Int8.ne_of_lt hlt,(Int8.ne_of_lt hlt).symm]
      · simp [lexSign_of_gt hgt,Int8.ne_of_lt hgt,(Int8.ne_of_lt hgt).symm]
      · rw [mem_cons,not_or] at hs ht
        rw [length_cons,Nat.succ_lt_succ_iff] at hn hn'
        rw [char_eq_of_not_lt hlt hgt,lexSign_cons,ih hs.2 ht.2 hn hn']
        simp

theorem strcmp_eq_iff (hs : 0 ∉ s) (ht : 0 ∉ t) (r q : List Int8) :
    strcmp (s++0::r) (t++0::q)=some (lexSign s t) ↔
      (s.length<t.length → s<t) ∧ (t.length<s.length → t<s) := by
  simp only [strcmp,strlen_eq hs,strlen_eq ht,Option.bind_eq_bind,Option.bind_some]
  split_ifs with hgt hlt
  · simp [← lexSign_eq_one_iff,hgt,hgt.le,eq_comm]
  · simp [← lexSign_eq_neg_one_iff,hlt,hgt,eq_comm]
  · have h : s.length=t.length := by omega
    simp [strncmp_length h,hgt,hlt]

theorem strcmp_lexicographic_iff (hs : 0 ∉ s) (ht : 0 ∉ t) (r q : List Int8) (hn : s.length<n) (hn' : t.length<n) :
    strcmp (s++0::r) (t++0::q)=some (lexSign s t) ∧
        strncmp (s++0::r) (t++0::q) n=strcmp (s++0::r) (t++0::q) ↔
      ((s.length<t.length → s<t) ∧ (t.length<s.length → t<s)) ∧
        (∀ c u, s++c::u=t ∨ t++c::u=s → 0<c) ∧
        (s=t → n-s.length-1≤r.length ∧ n-s.length-1≤q.length ∧ r.take (n-s.length-1)=q.take (n-s.length-1)) := by
  rw [← strncmp_eq_zero_iff,← strncmp_eq_iff hs ht r q hn hn',← strcmp_eq_iff hs ht r q]
  constructor
  · rintro ⟨h,h'⟩
    exact ⟨h,h'.trans h⟩
  · rintro ⟨h,h'⟩
    exact ⟨h,h'.trans h.symm⟩

theorem strcmp_lexicographic_iff_ab : strcmp [97,0] [98,0]=some (lexSign [97] [98]) ∧
    strncmp [97,0] [98,0] 2=strcmp [97,0] [98,0] :=
  (strcmp_lexicographic_iff (s := [97]) (t := [98]) (n := 2) (by decide) (by decide) [] [] (by decide) (by decide)).mpr
    ⟨by decide,by simp,by decide⟩

/-- "b" comes after "aa", and "" before "\x80". -/
theorem strcmp_misorders : strcmp [98,0] [97,97,0]=some (-1) ∧ lexSign [98] [97,97]=1 ∧
    strcmp [0] [-128,0]=some (-1) ∧ strncmp [0] [-128,0] 1=some 1 := by decide
end

section
variable {m : Mem} {dst src x : ℕ}

/-- The first loop of `memmove`, with `size` bytes left from index `i` on. -/
def copyUp (dst src : ℕ) : ℕ → ℕ → Mem → Mem
  | 0, _, m => m
  | size+1, i, m => copyUp dst src size (i+1) (update m (dst+i) (m (src+i)))

def copyDown (dst src : ℕ) : ℕ → Mem → Mem
  | 0, m => m
  | i+1, m => copyDown dst src i (update m (dst+i) (m (src+i)))

def memmove (m : Mem) (dst src size : ℕ) : Mem :=
  if dst<src then copyUp dst src size 0 m else copyDown dst src size m

theorem copyUp_apply (h : dst<src) (size i : ℕ) : copyUp dst src size i m x =
    if dst+i≤x ∧ x<dst+i+size then m (src+(x-dst)) else m x := by
  induction size generalizing i m with
  | zero => rw [copyUp,if_neg (by omega)]
  | succ size ih =>
    rw [copyUp,ih]
    rcases lt_trichotomy x (dst+i) with hx | rfl | hx
    · rw [if_neg (by omega),if_neg (by omega),update_of_ne (by omega)]
    · rw [if_neg (by omega),if_pos (by omega),update_self,Nat.add_sub_cancel_left]
    · rw [update_of_ne (by omega),update_of_ne (by omega)]
      exact if_congr (by omega) rfl rfl

theorem copyDown_apply (h : src≤dst) (size : ℕ) : copyDown dst src size m x =
    if dst≤x ∧ x<dst+size then m (src+(x-dst)) else m x := by
  induction size generalizing m with
  | zero => rw [copyDown,if_neg (by omega)]
  | succ size ih =>
    rw [copyDown,ih]
    rcases eq_or_ne x (dst+size) with rfl | hx
    · rw [if_neg (by omega),if_pos (by omega),update_self,Nat.add_sub_cancel_left]
    · rw [update_of_ne hx]
      by_cases hin : dst≤x ∧ x<dst+size
      · rw [if_pos hin,if_pos (by omega),update_of_ne (by omega)]
      · rw [if_neg hin,if_neg (by omega)]

theorem memmove_spec (m : Mem) (dst src size : ℕ) :
    bytes (memmove m dst src size) dst size=bytes m src size ∧
      ∀ x, x<dst ∨ dst+size≤x → memmove m dst src size x=m x := by
  have h : ∀ x, memmove m dst src size x=if dst≤x ∧ x<dst+size then m (src+(x-dst)) else m x := by
    intro x
    rcases lt_or_ge dst src with hlt | hle
    · rw [memmove,if_pos hlt,copyUp_apply hlt,add_zero]
    · rw [memmove,if_neg (Nat.not_lt.mpr hle),copyDown_apply hle]
  refine ⟨bytes_shift (fun i hi=>?_),fun x hx=>?_⟩
  · rw [h,if_pos (by omega),Nat.add_sub_cancel_left]
  · rw [h,if_neg (by omega)]
end

end Yaos2.Libc
