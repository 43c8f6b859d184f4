import Mathlib.Tactic

/-! # Byte-addressed memory with little-endian words -/
namespace Yaos2.Foundation
open Function List Nat

abbrev Mem := ℕ → UInt8

/-- The little-endian value of the `n` bytes at `a`. -/
def load (m : Mem) : ℕ → ℕ → ℕ
  | _, 0 => 0
  | a, n+1 => (m a).toNat+256*load m (a+1) n

/-- Write the low `n` bytes of `v` at `a`. -/
def store (m : Mem) (a n v : ℕ) : Mem := fun x=>if a≤x ∧ x<a+n then UInt8.ofNat (v/256^(x-a)) else m x

/-- Set the `n` bytes at `a` to `b`. -/
def fill (m : Mem) (a n : ℕ) (b : UInt8) : Mem := fun x=>if a≤x ∧ x<a+n then b else m x

/-- Write a string of bytes at `a`. -/
def blit (m : Mem) (a : ℕ) (bs : List UInt8) : Mem :=
  fun x=>if a≤x ∧ x<a+bs.length then bs.getD (x-a) 0 else m x

/-- The `n` bytes at `a`, in address order. -/
def bytes (m : Mem) (a n : ℕ) : List UInt8 := (List.range n).map (fun i=>m (a+i))

/-- The two memories hold the same bytes on `[a, a + n)`. -/
def SameOn (m m' : Mem) (a n : ℕ) : Prop := ∀ x, a≤x → x<a+n → m' x=m x

@[simp] theorem bytes_length (m : Mem) (a n : ℕ) : (bytes m a n).length=n := by simp [bytes]

variable {m m' : Mem} {a n v x b k : ℕ}

theorem store_outside (h : x<a ∨ a+n≤x) : store m a n v x=m x := by
  have hx : ¬ (a≤x ∧ x<a+n) := by omega
  simp [store,hx]

theorem fill_outside {b : UInt8} (h : x<a ∨ a+n≤x) : fill m a n b x=m x := by
  have hx : ¬ (a≤x ∧ x<a+n) := by omega
  simp [fill,hx]

theorem fill_inside {b : UInt8} (h : a≤x) (h' : x<a+n) : fill m a n b x=b := by simp [fill,h,h']

theorem blit_outside (h : x<a ∨ a+bs.length≤x) : blit m a bs x=m x := by
  have hx : ¬ (a≤x ∧ x<a+bs.length) := by omega
  simp [blit,hx]

theorem blit_bytes_inside (h : i<n) : blit m a (bytes m' b n) (a+i)=m' (b+i) := by
  have hx : a≤a+i ∧ a+i<a+(bytes m' b n).length := by simp; omega
  simp [blit,hx,bytes,h]

theorem bytes_zero (m : Mem) (a : ℕ) : bytes m a 0=[] := rfl

theorem bytes_succ (m : Mem) (a n : ℕ) : bytes m a (n+1)=m a::bytes m (a+1) n := by
  rw [bytes,range_succ_eq_map,map_cons,map_map,add_zero]
  refine congrArg _ (map_congr_left (fun i _=>congrArg m ?_))
  rw [succ_eq_add_one]
  omega

theorem bytes_add (m : Mem) (a n k : ℕ) : bytes m a (n+k)=bytes m a n++bytes m (a+n) k := by
  induction n generalizing a with
  | zero => simp [bytes_zero]
  | succ n ih =>
    rw [show n+1+k=n+k+1 by omega,bytes_succ,ih,bytes_succ,cons_append,
      show a+1+n=a+(n+1) by omega]

theorem take_bytes (m : Mem) (a n k : ℕ) : (bytes m a n).take k=bytes m a (min n k) := by
  rw [bytes,bytes,← map_take,take_range,min_comm]

theorem drop_bytes (m : Mem) (a n k : ℕ) : (bytes m a n).drop k=bytes m (a+k) (n-k) := by
  rcases le_total k n with h | h
  · obtain ⟨j,rfl⟩ := Nat.exists_eq_add_of_le h
    rw [bytes_add,Nat.add_sub_cancel_left,drop_append_of_le_length (by simp),
      drop_of_length_le (by simp),nil_append]
  · rw [drop_of_length_le (by simpa using h),Nat.sub_eq_zero_of_le h,bytes_zero]

theorem bytes_congr (h : SameOn m m' a n) : bytes m' a n=bytes m a n := by
  refine map_congr_left (fun i hi=>h _ (le_add_right _ _) ?_)
  rw [mem_range] at hi
  omega

theorem bytes_shift (h : ∀ i<n, m' (b+i)=m (a+i)) : bytes m' b n=bytes m a n := by
  refine map_congr_left (fun i hi=>h i ?_)
  rwa [mem_range] at hi

theorem flatMap_bytes (f : α → Mem) (n : ℕ) (hn : 0<n) (d : α) (cs : List α) :
    cs.flatMap (fun c=>bytes (f c) 0 n)=bytes (fun p=>f (cs.getD (p/n) d) (p%n)) 0 (n*cs.length) := by
  induction cs with
  | nil => rfl
  | cons c cs ih =>
    rw [flatMap_cons,ih,length_cons,mul_succ,add_comm,bytes_add,zero_add]
    refine congrArg₂ _ (bytes_shift (fun i hi=>?_)) (bytes_shift (fun i _=>?_))
    · rw [zero_add,div_eq_of_lt hi,mod_eq_of_lt hi,getD_cons_zero]
    · rw [zero_add,add_div_left i hn,add_mod_left,getD_cons_succ]

theorem blit_nil (m : Mem) (a : ℕ) : blit m a []=m := funext (fun x=>blit_outside (by simp; omega))

theorem blit_inside (h : i<bs.length) : blit m a bs (a+i)=bs.getD i 0 := by
  have hx : a≤a+i ∧ a+i<a+bs.length := by omega
  simp [blit,hx]

theorem blit_cons (m : Mem) (a : ℕ) (c : UInt8) (cs : List UInt8) :
    blit m a (c::cs)=blit (update m a c) (a+1) cs := by
  funext x
  by_cases hin : a+1≤x ∧ x<a+1+cs.length
  · obtain ⟨i,rfl⟩ := Nat.exists_eq_add_of_le hin.1
    rw [blit_inside (by omega),show a+1+i=a+(i+1) by omega,
      blit_inside (by rw [length_cons]; omega),getD_cons_succ]
  · rw [blit_outside (m := update m a c) (by omega)]
    by_cases hx : x=a
    · rw [hx,update_self]
      exact blit_inside (i := 0) (succ_pos _)
    · rw [update_of_ne hx]
      exact blit_outside (by rw [length_cons]; omega)

theorem blit_append (m : Mem) (a : ℕ) (xs ys : List UInt8) :
    blit m a (xs++ys)=blit (blit m (a+xs.length) ys) a xs := by
  have hlen : (xs++ys).length=xs.length+ys.length := length_append
  funext x
  by_cases hxs : a≤x ∧ x<a+xs.length
  · obtain ⟨i,rfl⟩ := Nat.exists_eq_add_of_le hxs.1
    have hi : i<xs.length := by omega
    rw [blit_inside hi,blit_inside (by omega),getD_eq_getElem?_getD,List.getElem?_append_left hi,
      getD_eq_getElem?_getD]
  · have hout : x<a ∨ a+xs.length≤x := by omega
    rw [blit_outside hout]
    by_cases hys : a+xs.length≤x ∧ x<a+xs.length+ys.length
    · obtain ⟨i,rfl⟩ := Nat.exists_eq_add_of_le hys.1
      rw [blit_inside (by omega),add_assoc,blit_inside (by omega),getD_eq_getElem?_getD,
        List.getElem?_append_right (by omega),Nat.add_sub_cancel_left,getD_eq_getElem?_getD]
    · have hout' : x<a+xs.length ∨ a+xs.length+ys.length≤x := by omega
      rw [blit_outside hout',blit_outside (by omega)]

theorem bytes_blit_self (m : Mem) (a : ℕ) (bs : List UInt8) : bytes (blit m a bs) a bs.length=bs := by
  refine ext_getElem (by simp) (fun i hi hi'=>?_)
  simp [bytes,blit,hi',getD_eq_getElem?_getD]

theorem bytes_blit_append (m : Mem) (a n : ℕ) (bs : List UInt8) :
    bytes (blit m a bs) a (bs.length+n)=bs++bytes m (a+bs.length) n := by
  have hr : SameOn m (blit m a bs) (a+bs.length) n := fun x hx _=>blit_outside (.inr hx)
  rw [bytes_add,bytes_blit_self,bytes_congr hr]

theorem update_blit_bytes (m : Mem) (h : dst ≤ src) (k : ℕ) :
    update (blit m dst (bytes m src k)) (dst+k) (blit m dst (bytes m src k) (src+k)) =
      blit m dst (bytes m src (k+1)) := by
  funext x
  rw [update_apply]
  by_cases hx : x=dst+k
  · rw [if_pos hx,hx,blit_bytes_inside (lt_succ_self k)]
    exact blit_outside (.inr (by simp; omega))
  · rw [if_neg hx]
    by_cases hin : dst≤x ∧ x<dst+k
    · obtain ⟨i,rfl⟩ := Nat.exists_eq_add_of_le hin.1
      rw [blit_bytes_inside (by omega),blit_bytes_inside (by omega)]
    · rw [blit_outside (by simp; omega),blit_outside (by simp; omega)]

theorem load_lt (m : Mem) (a n : ℕ) : load m a n<256^n := by
  induction n generalizing a with
  | zero => simp [load]
  | succ n ih =>
    have hb := (m a).toNat_lt
    have hr := ih (a+1)
    rw [load,pow_succ]
    omega

theorem load_congr (h : SameOn m m' a n) : load m' a n=load m a n := by
  induction n generalizing a with
  | zero => rfl
  | succ n ih =>
    rw [load,load,h a le_rfl (by omega),ih]
    intro x hx hx'
    exact h x (by omega) (by omega)

private theorem load_store_tail (m : Mem) (a v : ℕ) (n k : ℕ) :
    load (store m a (k+n) v) (a+k) n=v/256^k%256^n := by
  induction n generalizing k with
  | zero => simp [load,mod_one]
  | succ n ih =>
    have hb : store m a (k+(n+1)) v (a+k)=UInt8.ofNat (v/256^k) := by simp [store]
    have hn := ih (k+1)
    rw [show k+1+n=k+(n+1) by omega,show a+(k+1)=a+k+1 by omega] at hn
    rw [load,hb,hn,pow_succ 256 k,← Nat.div_div_eq_div_mul,pow_succ 256 n,mul_comm (256^n) 256,mod_mul]
    simp

theorem load_store_self (m : Mem) (a n v : ℕ) : load (store m a n v) a n=v%256^n := by
  simpa using load_store_tail m a v n 0

private theorem load_byte (m : Mem) (a n k : ℕ) (hk : k<n) : load m a n/256^k%256=(m (a+k)).toNat := by
  induction n generalizing a k with
  | zero => omega
  | succ n ih =>
    have hb := (m a).toNat_lt
    cases k with
    | zero =>
      simp only [load,pow_zero,add_zero]
      omega
    | succ k =>
      rw [load,pow_succ,mul_comm (256^k),← Nat.div_div_eq_div_mul,
        add_mul_div_left _ _ (by decide),div_eq_of_lt hb,zero_add,ih _ _ (by omega),
        show a+1+k=a+(k+1) by omega]

theorem store_load_self (m : Mem) (a n : ℕ) : store m a n (load m a n)=m := by
  funext x
  unfold store
  split
  · next h =>
    obtain ⟨k,rfl⟩ := Nat.exists_eq_add_of_le h.1
    apply UInt8.toNat_inj.mp
    rw [Nat.add_sub_cancel_left,UInt8.toNat_ofNat']
    exact load_byte m a n k (by omega)
  · rfl

theorem load_store_of_lt (h : v<256^n) : load (store m a n v) a n=v := by rw [load_store_self,mod_eq_of_lt h]

theorem load_store_disjoint (h : b+k≤a ∨ a+n≤b) : load (store m a n v) b k=load m b k := by
  apply load_congr
  intro x hx hx'
  exact store_outside (by omega)

theorem load_fill_disjoint (h : b+k≤a ∨ a+n≤b) : load (fill m a n c) b k=load m b k := by
  apply load_congr
  intro x hx hx'
  exact fill_outside (by omega)

theorem load_zero (h : ∀ x, a≤x → x<a+n → m x=0) : load m a n=0 := by
  induction n generalizing a with
  | zero => rfl
  | succ n ih =>
    rw [load,h a le_rfl (by omega),ih]
    · rfl
    · intro x hx hx'
      exact h x (by omega) (by omega)

theorem fill_zero_of_zero (h : ∀ o<k, m (a+o)=0) (hn : n≤k) : fill m a n 0=m := by
  funext x
  unfold fill
  split
  · next hx =>
    obtain ⟨o,rfl⟩ := Nat.exists_eq_add_of_le hx.1
    exact (h o (by omega)).symm
  · rfl

/-- Write 32-bit words at `a`, one after the other. -/
def storeWords (m : Mem) (a : ℕ) : List ℕ → Mem
  | [] => m
  | w::ws => storeWords (store m a 4 w) (a+4) ws

theorem storeWords_below (ws : List ℕ) (h : x<a) : storeWords m a ws x=m x := by
  induction ws generalizing m a with
  | nil => rfl
  | cons w ws ih =>
    rw [storeWords,ih (by omega)]
    exact store_outside (.inl h)

theorem load_storeWords_below (ws : List ℕ) (h : b+n≤a) : load (storeWords m a ws) b n=load m b n :=
  load_congr (fun _ _ hx=>storeWords_below ws (by omega))

theorem load_storeWords (hk : k<ws.length) (hw : ∀ w ∈ ws, w<2^32) :
    load (storeWords m a ws) (a+4*k) 4=ws[k] := by
  induction ws generalizing m a k with
  | nil => exact absurd hk (not_lt_zero k)
  | cons w ws ih =>
    rw [storeWords]
    cases k with
    | zero =>
      rw [load_storeWords_below ws (by omega)]
      exact load_store_of_lt (hw w (by simp))
    | succ k =>
      rw [show a+4*(k+1)=a+4+4*k by omega]
      exact ih (lt_of_succ_lt_succ hk) (fun w' hw'=>hw w' (mem_cons_of_mem _ hw'))

end Yaos2.Foundation
