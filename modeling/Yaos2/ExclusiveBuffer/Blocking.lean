import Yaos2.ExclusiveBuffer.Fifo

/-! # The EOF flag and waiting

The flag is brought up to date at the end of a call, but a writer that waits for room has already put
bytes in. -/
namespace Yaos2.ExclusiveBuffer
open Foundation List

/-- A writer at this place has put bytes into the buffer and has not yet cleared the flag. -/
def Owes : Pc → Prop
  | .writingAgain _ written => 0<written
  | _ => False

/-- The places where a thread waits: it has not done all it was asked for. -/
def Unfinished : Pc → Prop
  | .read n dest => dest.length<n
  | .writingAgain src written => written<src.length
  | .flush => True
  | _ => False

/-- The flag is set for an empty buffer, and for no other unless `d`. -/
def Exact (d : Prop) (b : Buffer) : Prop := (b.contents=[] → b.eof=true) ∧ (b.eof=true → b.contents=[] ∨ d)

/-- What a thread with the mutex knows of the flag. -/
def Knows (d : Prop) (b : Buffer) : Pc → Prop
  | .read _ dest => (b.contents=[] → b.eof=true ∨ 0<dest.length) ∧ (b.eof=true → b.contents=[] ∨ d)
  | .writing src written => Exact (d ∨ 0<written) b ∧ written ≤ src.length ∧
    (written=src.length → 0<written → b.contents≠[])
  | .writingAgain src written => Exact (d ∨ 0<written) b ∧ written<src.length
  | _ => Exact d b

variable {array size : ℕ} {b b' : Buffer} {krealloc : Krealloc} {src : List UInt8} {written k : ℕ}
  {d d' : Prop} {mv : Move Pc} {p : Pc}

theorem Exact.congr (h : Exact d b) (hb : Unchanged b b') : Exact d b' := by
  rw [Exact,hb.1,hb.2]
  exact h

theorem Exact.weaken (h : Exact d b) (hd : d → d') : Exact d' b := ⟨h.1,fun he=>(h.2 he).imp id hd⟩

theorem Written.progress (h : Written size (src.drop written) b k b') (hrm : b.contents.length<size)
    (hrs : written<src.length) : 0<k ∧ written+k ≤ src.length ∧ b'.contents≠[] := by
  obtain ⟨hk,hc,-⟩ := h
  rw [length_drop] at hk
  have hpos : 0<k := by omega
  refine ⟨hpos,by omega,fun hnil=>?_⟩
  have hlen := congrArg List.length (hc.symm.trans hnil)
  rw [length_append,length_take,length_drop,length_nil] at hlen
  omega

theorem Fifo.length_le (h : Fifo array size b) : b.contents.length ≤ size := by
  obtain ⟨hhd,ht,hl⟩ := h.order
  have hs := h.size
  rw [b.contents_length]
  omega

theorem Fifo.room (h : Fifo array size b) (hf : ¬ isFull b=true) : b.contents.length<size := by
  obtain ⟨hhd,ht,hl⟩ := h.order
  have hs := h.size
  rw [isFull,beq_iff_eq] at hf
  rw [b.contents_length]
  omega

theorem Written.knows (h : Written size (src.drop written) b k b') (hr : b.contents.length<size)
    (hrs : written<src.length) : Knows d b' (.writing src (written+k)) := by
  obtain ⟨hpos,hle,hne⟩ := h.progress hr hrs
  exact ⟨⟨fun hnil=>absurd hnil hne,fun _=>.inr (.inr (by omega))⟩,hle,fun _ _=>hne⟩

theorem exact_of_cleared (hf : b'.eof=(b.eof && !(decide (0<k)))) (hpos : 0<k → b'.contents≠[])
    (hzr : k=0 → b'.contents=b.contents ∧ Exact d b) : Exact d b' := by
  rcases Nat.eq_zero_or_pos k with h0 | h0
  · obtain ⟨hc,hex⟩ := hzr h0
    exact hex.congr ⟨hc,by simp [hf,h0]⟩
  · exact ⟨fun hnil=>absurd hnil (hpos h0),fun hset=>by simp [hf,h0] at hset⟩

/-- What is known after a section: at the next place, where the thread waits, or with the mutex free. -/
def KnownAfter (d : Prop) (b' : Buffer) : Move Pc → Prop
  | .pass _ p' => Knows d b' p'
  | .wait p' => Unfinished p' ∧ Exact (d ∨ Owes p') b'
  | .leave _ _ => Exact d b'

theorem knownAfter_of_exact (hw : ∀ p, mv≠.wait p) (hp : ∀ u p, mv=.pass u p → p=.locked)
    (h : Exact d b') : KnownAfter d b' mv := by
  cases mv with
  | wait p' => exact absurd rfl (hw p')
  | pass u p' =>
    obtain rfl := hp u p' rfl
    exact h
  | leave u p' => exact h

theorem Effect.knows (hff : Fifo array size b) (h : Knows d b p) (he : Effect size p b mv b') :
    KnownAfter d b' mv := by
  cases p with
  | idle =>
    obtain ⟨rfl,rfl⟩ := he
    exact h
  | read n dest =>
    obtain ⟨hem,heof⟩ := h
    rw [Effect] at he
    split at he
    · next hlt =>
      split at he
      · next hset =>
        obtain ⟨rfl,rfl⟩ := he
        exact ⟨hlt,fun _=>hset,fun he=>(heof he).imp id .inl⟩
      · next hcl =>
        obtain ⟨rfl,hc,hf⟩ := he
        refine ⟨fun _=>?_,fun hset=>absurd (hf▸hset) hcl⟩
        -- either there was something to take, or an earlier pass of this call took it
        by_cases hnil : b.contents=[]
        · refine .inr ?_
          rcases hem hnil with hc | hc
          · exact absurd hc hcl
          · rw [length_append]
            omega
        · refine .inr ?_
          have := length_pos_iff.mpr hnil
          rw [length_append,length_take]
          omega
    · obtain ⟨rfl,hc,hf⟩ := he
      show Exact d b'
      rw [Exact,hc,hf,Bool.or_eq_true,List.isEmpty_iff]
      exact ⟨.inr,fun hor=>hor.elim heof .inl⟩
  | tryRead held n =>
    obtain ⟨hw,hp,he⟩ := he
    apply knownAfter_of_exact hw hp
    split at he
    · exact Exact.congr h he
    · rw [Exact,he.2,List.isEmpty_iff]
      exact ⟨id,.inl⟩
  | write src =>
    obtain ⟨rfl,rfl⟩ := he
    exact ⟨Exact.weaken h .inl,Nat.zero_le _,fun _ hc=>absurd hc (lt_irrefl 0)⟩
  | writing src written =>
    obtain ⟨hex,hle,hdn⟩ := h
    rw [Effect] at he
    split at he
    · next hlt =>
      split at he
      · obtain ⟨rfl,hu⟩ := he
        exact ⟨hlt,hex.congr hu⟩
      · next hlen =>
        obtain ⟨k,rfl,hk⟩ := he
        exact hk.knows (lt_of_le_of_ne hff.length_le hlen) hlt
    · next hlt =>
      obtain ⟨rfl,hc,hf⟩ := he
      refine exact_of_cleared hf (fun hpos=>hc▸hdn (by omega) hpos) (fun h0=>⟨hc,?_⟩)
      exact hex.weaken (fun hor=>hor.elim id (fun hpos=>absurd h0 hpos.ne'))
  | writingAgain src written =>
    obtain ⟨hex,hlt⟩ := h
    rw [Effect] at he
    split at he
    · obtain ⟨rfl,rfl⟩ := he
      exact ⟨hlt,hex⟩
    · next hf =>
      obtain ⟨k,rfl,hk⟩ := he
      exact hk.knows (hff.room hf) hlt
  | tryWrite held src =>
    obtain ⟨hw,hp,k,hc,hk,hf⟩ := he
    refine knownAfter_of_exact hw hp (exact_of_cleared hf (fun hpos hnil=>?_) (fun h0=>⟨?_,h⟩))
    · have hlen := congrArg List.length (hc.symm.trans hnil)
      rw [length_append,length_take,length_nil] at hlen
      omega
    · rw [hc,h0,take_zero,append_nil]
  | flush =>
    obtain ⟨rfl,hmv⟩ := he
    split at hmv
    · exact hmv▸h
    · exact hmv ▸ ⟨trivial,Exact.weaken h .inl⟩
  | lock =>
    obtain ⟨rfl,hu⟩ := he
    exact Exact.congr h hu
  | locked =>
    obtain ⟨rfl,hu⟩ := he
    exact Exact.congr h hu
  | unlock =>
    obtain ⟨rfl,hu⟩ := he
    exact Exact.congr h hu

section
variable {T : Type} [DecidableEq T] {mem : Mem} {alignment : ℕ} {m : MonState T Pc Buffer} {t : T}

theorem Calls.knows (h : Exact d b) (hc : Calls q p) : Knows d b p := by
  cases hc <;> first | exact h | skip
  exact ⟨fun hnil=>.inl (h.1 hnil),h.2⟩

theorem flag_proof : (monitor krealloc).Proof Owes Unfinished
    (fun d b=>Fifo array size b ∧ Exact d b) (fun d p b=>Fifo array size b ∧ Knows d b p) where
  choose := fun d p p' b hc ⟨hf,h⟩=>by
    refine ⟨hf,Calls.knows (d := d) ?_ hc⟩
    cases hc <;> exact h
  enter := fun _ _ _ hc ⟨hf,h⟩=>⟨hf,Calls.knows h hc⟩
  wake := fun d p b hp ⟨hf,h⟩=>by
    refine ⟨hf,?_⟩
    cases p with
    | read n dest => exact ⟨fun hnil=>.inl (h.1 hnil),fun he=>(h.2 he).imp id (fun hd=>hd.elim id False.elim)⟩
    | writingAgain src written => exact ⟨h,hp⟩
    | flush => exact h.weaken (fun hd=>hd.elim id False.elim)
    | _ => exact hp.elim
  body := fun d p b ⟨hf,h⟩=>by
    apply (body_spec hf p).imp
    rintro mv c ⟨hc,he⟩
    have hk := he.knows hf h
    cases mv with
    | pass u p' => exact ⟨hc,hk⟩
    | wait p' => exact ⟨hk.1,hc,hk.2⟩
    | leave u p' => exact ⟨hc,hk⟩

theorem flag_run (hrun : (monitor krealloc).Run (start T mem array size alignment) m) :
    Monitor.Holds Owes Unfinished (fun d b=>Fifo array size b ∧ Exact d b)
      (fun d p b=>Fifo array size b ∧ Knows d b p) m :=
  flag_proof.run hrun rfl (fun t=>⟨.idle,rfl⟩)
    ⟨fifo_ebCreate mem array size alignment,fun _=>rfl,fun _=>.inl (by simp [start,ebCreate,Buffer.contents,bytes_zero])⟩

theorem contents_eq_nil_iff (h : Fifo array size b) : b.contents=[] ↔ b.head=b.tail := by
  have ht := h.order.tail
  rw [Buffer.contents_eq_nil]
  omega

omit [DecidableEq T] in
theorem owed_iff : m.Owed Owes ↔ ∃ u src written, (m.status u).Waits (.writingAgain src written) ∧
    0<written := by
  constructor
  · rintro ⟨p,⟨u,hu⟩,ho⟩
    cases p with
    | writingAgain src written => exact ⟨u,src,written,hu,ho⟩
    | _ => exact ho.elim
  · rintro ⟨u,src,written,hu,hpos⟩
    exact ⟨_,⟨u,hu⟩,hpos⟩

/-- When the mutex is free the flag is set for an empty buffer, or while a writer waits with a part.
-/
theorem eofFlag_exact_unless_writing
    (hrun : (monitor krealloc).Run (start T mem array size alignment) m) (hfree : m.Free) :
    (m.shared.head=m.shared.tail → m.shared.eof=true) ∧ (m.shared.eof=true → m.shared.head=m.shared.tail ∨
        ∃ u src written, (m.status u).Waits (.writingAgain src written) ∧ 0<written) := by
  obtain ⟨hf,he,hset⟩ := (flag_run hrun).free hfree
  rw [contents_eq_nil_iff hf,owed_iff] at hset
  rw [contents_eq_nil_iff hf] at he
  exact ⟨he,hset⟩

/-- After a byte has been written and nobody waits, the flag is clear. -/
theorem eofFlag_exact_unless_writing_oneByte : ∃ m : MonState Bool Pc Buffer,
    (monitor inPlace).Run (start Bool (fun _=>0) 0x1000 1 1) m ∧ m.Free ∧
    m.shared.head≠m.shared.tail ∧ m.shared.eof=false := by
  have h₁ := Monitor.run_enter (M := monitor inPlace) (m := start Bool (fun _=>0) 0x1000 1 1) (t := true)
    rfl (by rintro (_ | _) p h <;> cases h) rfl (.tryWrite [7]) (.tryWrite [7])
  have h₂ := h₁.trans (Monitor.run_leave (t := true) rfl rfl rfl .nobody)
  refine ⟨_,h₂,?_,by decide,?_⟩
  · rintro (_ | _) p h <;> cases h
  rw [← Bool.not_eq_true]
  intro hset
  rcases (eofFlag_exact_unless_writing h₂ (by rintro (_ | _) p h <;> cases h)).2 hset with hc | ⟨u,src,w,hu,-⟩
  · exact absurd hc (by decide)
  · cases u <;> rcases hu with hu | hu <;> cases hu

/-- A writer of two bytes waits with one of them in the buffer: the flag is set. -/
theorem eof_set_with_data : ∃ m : MonState Bool Pc Buffer,
    (monitor inPlace).Run (start Bool (fun _=>0) 0x1000 1 1) m ∧ m.Free ∧ m.shared.eof=true ∧
    m.shared.head≠m.shared.tail := by
  have h₁ := Monitor.run_enter (M := monitor inPlace) (m := start Bool (fun _=>0) 0x1000 1 1) (t := true)
    rfl (by rintro (_ | _) p h <;> cases h) rfl (.write [7, 8]) (.write [7, 8])
  have h₂ := h₁.tail (.pass (t := true) rfl rfl rfl .nobody)
  have h₃ := h₂.tail (.pass (t := true) rfl rfl rfl .nobody)
  have h₄ := h₃.tail (.wait (t := true) rfl rfl rfl)
  refine ⟨_,h₄,?_,rfl,by decide⟩
  rintro (_ | _) p h <;> cases h

/-- A pass makes progress, waits with reason, goes around without a byte, or waits for the tail. -/
def PassFrom (array size : ℕ) (owed : Prop) (b : Buffer) (mv : Move Pc) (b' : Buffer) : Pc → Prop
  | .read n dest => dest.length<n → (∃ more, more≠[] ∧ mv=.pass false (.read n (dest++more))) ∨
    (mv=.wait (.read n dest) ∧ (b.head=b.tail ∨ owed)) ∨
    (mv=.pass false (.read n dest) ∧ b.head=b.tail ∧ dest≠[] ∧ b'.head=b'.tail ∧ b'.eof=false)
  | .writing src written => written<src.length → (∃ k, 0<k ∧ mv=.pass false (.writing src (written+k))) ∨
    (mv=.wait (.writingAgain src written) ∧ b.tail-b.head=size)
  | .writingAgain src written =>
    (∃ k, 0<k ∧ mv=.pass false (.writing src (written+k))) ∨
    (mv=.wait (.writingAgain src written) ∧ b.tail=array+size ∧ (b.tail-b.head=size ↔ b.head=array))
  | _ => True

theorem ebRun_passes (hrun : (monitor krealloc).Run (start T mem array size alignment) m)
    (ht : m.status t=.inside p) (hb : body krealloc p m.shared=.ok mv b') :
    PassFrom array size (∃ u src written, (m.status u).Waits (.writingAgain src written) ∧ 0<written)
      m.shared mv b' p := by
  obtain ⟨hf,hk⟩ := (flag_run hrun).holder t p ht
  obtain ⟨hf',he⟩ := (body_spec hf p).of_ok hb
  rw [owed_iff] at hk
  cases p with
  | read n dest =>
    intro hlt
    rw [Effect,if_pos hlt] at he
    rw [← contents_eq_nil_iff hf,← contents_eq_nil_iff hf']
    split at he
    · next hset => exact .inr (.inl ⟨he.1,hk.2 hset⟩)
    · next hcl =>
      obtain ⟨hmv,hc,heof⟩ := he
      by_cases hnil : m.shared.contents=[]
      · rw [hnil,drop_nil] at hc
        rw [hnil,take_nil,append_nil] at hmv
        have hpos := (hk.1 hnil).resolve_left hcl
        exact .inr (.inr ⟨hmv,hnil,length_pos_iff.mp hpos,hc,heof.trans (Bool.not_eq_true _▸hcl)⟩)
      · refine .inl ⟨_,fun hc=>?_,hmv⟩
        have hlen := congrArg List.length hc
        have hpos := length_pos_iff.mpr hnil
        rw [length_take,length_nil] at hlen
        omega
  | writing src written =>
    intro hlt
    rw [Effect,if_pos hlt] at he
    split at he
    · next hlen => exact .inr ⟨he.1,m.shared.contents_length▸hlen⟩
    · next hlen =>
      obtain ⟨k,hmv,hw⟩ := he
      exact .inl ⟨k,(hw.progress (lt_of_le_of_ne hf.length_le hlen) hlt).1,hmv⟩
  | writingAgain src written =>
    rw [Effect] at he
    split at he
    · next hfl =>
      obtain ⟨hhd,htl,hlm⟩ := hf.order
      rw [isFull,beq_iff_eq,hf.array,hf.size] at hfl
      rw [hf.array] at hhd
      refine .inr ⟨he.1,hfl,?_⟩
      omega
    · next hfl =>
      obtain ⟨k,hmv,hw⟩ := he
      exact .inl ⟨k,(hw.progress (hf.room hfl) hk.2).1,hmv⟩
  | _ => trivial

/-- A reader of one byte that finds it. -/
theorem ebRun_passes_oneByte : ∃ (m : MonState Bool Pc Buffer) (b' : Buffer),
    (monitor inPlace).Run (start Bool (fun _=>0) 0x1000 2 1) m ∧ m.status false=.inside (.read 1 []) ∧
    body inPlace (.read 1 []) m.shared=.ok (.pass false (.read 1 [7])) b' ∧
    PassFrom 0x1000 2 (∃ u src written, (m.status u).Waits (.writingAgain src written) ∧ 0<written)
      m.shared (.pass false (.read 1 [7])) b' (.read 1 []) := by
  have h₁ := Monitor.run_enter (M := monitor inPlace) (m := start Bool (fun _=>0) 0x1000 2 1) (t := true)
    rfl (by rintro (_ | _) p h <;> cases h) rfl (.tryWrite [7, 9]) (.tryWrite [7, 9])
  have h₂ := h₁.trans (Monitor.run_leave (t := true) rfl rfl rfl .nobody)
  have h₃ := h₂.trans (Monitor.run_enter (t := false) rfl (by rintro (_ | _) p h <;> cases h) rfl (.read 1)
    (.read 1))
  exact ⟨_,_,h₃,rfl,rfl,ebRun_passes (t := false) h₃ rfl rfl⟩

/-- A reader goes around without a byte; a woken writer waits with room, and a reader with a byte.
-/
theorem ebRun_waits_and_spins :
    (∃ m : MonState Bool Pc Buffer, (monitor inPlace).Run (start Bool (fun _=>0) 0x1000 2 1) m ∧
      m.status false=.inside (.read 2 [7]) ∧ m.shared.head=m.shared.tail ∧
      body inPlace (.read 2 [7]) m.shared=.ok (.pass false (.read 2 [7])) m.shared) ∧
    (∃ (m : MonState Bool Pc Buffer) (b' : Buffer),
      (monitor inPlace).Run (start Bool (fun _=>0) 0x1000 2 1) m ∧
      m.status true=.inside (.writingAgain [8, 9] 1) ∧ m.shared.tail-m.shared.head<2 ∧
      body inPlace (.writingAgain [8, 9] 1) m.shared=.ok (.wait (.writingAgain [8, 9] 1)) b') ∧
    ∃ (m : MonState Bool Pc Buffer) (b' : Buffer),
      (monitor inPlace).Run (start Bool (fun _=>0) 0x1000 1 1) m ∧
      m.status false=.inside (.read 1 []) ∧ m.shared.head < m.shared.tail ∧
      body inPlace (.read 1 []) m.shared=.ok (.wait (.read 1 [])) b' := by
  refine ⟨?_,?_,?_⟩
  · have h₁ := Monitor.run_enter (M := monitor inPlace) (m := start Bool (fun _=>0) 0x1000 2 1) (t := true)
      rfl (by rintro (_ | _) p h <;> cases h) rfl (.tryWrite [7]) (.tryWrite [7])
    have h₂ := h₁.trans (Monitor.run_leave (t := true) rfl rfl rfl .nobody)
    have h₃ := h₂.trans (Monitor.run_enter (t := false) rfl (by rintro (_ | _) p h <;> cases h) rfl (.read 2)
      (.read 2))
    have h₄ := h₃.tail (.pass (t := false) rfl rfl rfl .nobody)
    exact ⟨_,h₄,rfl,rfl,rfl⟩
  · have h₁ := Monitor.run_enter (M := monitor inPlace) (m := start Bool (fun _=>0) 0x1000 2 1) (t := false)
      rfl (by rintro (_ | _) p h <;> cases h) rfl (.tryWrite [7]) (.tryWrite [7])
    have h₂ := h₁.trans (Monitor.run_leave (t := false) rfl rfl rfl .nobody)
    have h₃ := h₂.trans (Monitor.run_enter (t := true) rfl (by rintro (_ | _) p h <;> cases h) rfl
      (.write [8, 9]) (.write [8, 9]))
    have h₄ := h₃.tail (.pass (t := true) rfl rfl rfl .nobody)
    have h₅ := h₄.tail (.pass (t := true) rfl rfl rfl .nobody)
    have h₆ := h₅.tail (.wait (t := true) rfl rfl rfl)
    have h₇ := h₆.trans (Monitor.run_enter (t := false) rfl (by rintro (_ | _) p h <;> cases h) rfl (.tryRead 1)
      (.tryRead 1))
    have h₈ := h₇.trans (Monitor.run_leave (t := false) rfl rfl rfl (.one (u := true) rfl))
    have h₉ := h₈.tail (.wake (t := true) rfl (by rintro (_ | _) p h <;> cases h) rfl)
    exact ⟨_,_,h₉,rfl,by decide,rfl⟩
  · have h₁ := Monitor.run_enter (M := monitor inPlace) (m := start Bool (fun _=>0) 0x1000 1 1) (t := true)
      rfl (by rintro (_ | _) p h <;> cases h) rfl (.write [7, 8]) (.write [7, 8])
    have h₂ := h₁.tail (.pass (t := true) rfl rfl rfl .nobody)
    have h₃ := h₂.tail (.pass (t := true) rfl rfl rfl .nobody)
    have h₄ := h₃.tail (.wait (t := true) rfl rfl rfl)
    have h₅ := h₄.trans (Monitor.run_enter (t := false) rfl (by rintro (_ | _) p h <;> cases h) rfl (.read 1)
      (.read 1))
    exact ⟨_,_,h₅,rfl,by decide,rfl⟩
end

end Yaos2.ExclusiveBuffer
