import Yaos2.Fat.Nodes
import Yaos2.Process.SyscallRead

/-! # Reading a file of a FAT volume

`vfs_file_read` compares the 64-bit offset with the size of the file and passes on 32 bits of it;
`fat_vfs_node_read` adds in 32 bits. -/
namespace Yaos2.Fat
open Foundation Process

/-- How many bytes from `off` on `fat_vfs_node_read` asks of `fat_read`, when it is called for `num` bytes. -/
def nodeReadRequest (numBytes off num : ℕ) : Option ℕ :=
  if numBytes≤off then none
  else if numBytes<(off+num)%2^32 then some (numBytes-off)
  else some num

def fatVfsNodeRead (d : SuperData) (a off : ℕ) (num : ℤ) : Exec FatSuper (ℕ × List UInt8) := do
  if num≤0 then
    return (0, [])
  else
    let node := (← get).node a
    panicIf (!node.locked) "fat_vfs_node_read(): mutex not held"
    match nodeReadRequest node.numBytes off num.toNat with
    | none => return (0, [])
    | some n => onDisk (fatRead d node.firstCluster off n)

/-- The bytes `[off, min (off + num) numBytes)`, or nothing. -/
def clampedRequest (numBytes off num : ℕ) : Option ℕ :=
  if numBytes≤off then none else some (min (off+num) numBytes-off)

/-- A file of this size, with what `fat_read` finds from its first cluster on, up to its end and behind it. -/
def fatFileNode (numBytes : ℕ) (stored : Mem) : FileNode where
  size := numBytes
  read off num :=
    match nodeReadRequest numBytes off num with
    | none => (0, [])
    | some n => (n, bytes stored off n)

/-- Whatever is stored, `vfs_file_read` returns no bytes, or those at the offset. -/
def ReadsInPlace (numBytes : ℕ) (offset : ℤ) (num : ℕ) : Prop :=
  ∀ stored, (vfsFileRead (fatFileNode numBytes stored) offset num).2.1≠[] → 0≤offset ∧
    (vfsFileRead (fatFileNode numBytes stored) offset num).2.1 =
      bytes stored offset.toNat (vfsFileRead (fatFileNode numBytes stored) offset num).2.1.length

variable {numBytes off num : ℕ} {offset : ℤ}

theorem nodeReadRequest_pos (hnum : 0<num) (h : nodeReadRequest numBytes off num=some n) : 0<n := by
  rw [nodeReadRequest] at h
  split at h
  · cases h
  split at h
  · obtain rfl := Option.some.inj h
    omega
  · obtain rfl := Option.some.inj h
    exact hnum

theorem nodeReadRequest_eq_none_iff (numBytes off num : ℕ) : nodeReadRequest numBytes off num=none ↔ numBytes≤off := by
  rw [nodeReadRequest]
  split
  · exact iff_of_true rfl ‹_›
  · apply iff_of_false _ ‹_›
    split <;> exact Option.some_ne_none _

theorem fatVfsNodeRead_eq (hnum : 0<num) (hl : (s.node a).locked=true)
    (hr : ∀ n, 0<n → Returns (fatRead d (s.node a).firstCluster off (n : ℕ)) s.dev
      (fun x t=>x=(n, bytes stored off n) ∧ t=s.dev)) :
    Returns (fatVfsNodeRead d a off num) s (fun x t =>
      ((x.1 : ℤ), x.2)=(fatFileNode (s.node a).numBytes stored).read off num ∧ t=s) := by
  rw [fatVfsNodeRead,if_neg (by omega),Returns,wp_bind,wp_get,wp_bind,
    wp_panicIf (by simp [hl]),Int.toNat_natCast,fatFileNode]
  dsimp only
  cases hreq : nodeReadRequest (s.node a).numBytes off num with
  | none => simp only [wp_pure,Nat.cast_zero,and_self]
  | some n =>
    dsimp only
    rw [onDisk,wp_zoom]
    apply (hr n (nodeReadRequest_pos hnum hreq)).mono
    · rintro _ t ⟨rfl,rfl⟩
      exact ⟨rfl,rfl⟩
    · exact fun _ hF=>hF

theorem nodeReadRequest_eq_iff (hs : numBytes<2^32) (hoff : off<2^32) (hnum : 0<num) (hint : num<2^31) :
    nodeReadRequest numBytes off num=clampedRequest numBytes off num ↔ numBytes≤off ∨ off+num<2^32 := by
  rw [nodeReadRequest,clampedRequest]
  by_cases hend : numBytes≤off
  · rw [if_pos hend,if_pos hend]
    exact iff_of_true rfl (.inl hend)
  rw [if_neg hend,if_neg hend,or_iff_right hend]
  split
  · next hcut =>
    rw [Option.some.injEq]
    omega
  · next hcut =>
    rw [Option.some.injEq]
    omega

theorem vfsFileRead_stored (hnum : 0<num) (hlt : offset<numBytes) (stored : Mem) :
    (vfsFileRead (fatFileNode numBytes stored) offset num).2.1 =
      (nodeReadRequest numBytes (offset%2^32).toNat num).elim [] (bytes stored (offset%2^32).toNat) := by
  have hi : ¬ offset ≥ (fatFileNode numBytes stored).size := not_le.mpr hlt
  rw [vfsFileRead,if_neg (by omega),if_neg hi,fatFileNode]
  dsimp only
  cases nodeReadRequest numBytes (offset%2^32).toNat num with
  | none => rfl
  | some n => rfl

theorem readsInPlace_iff (hsz : numBytes<2^32) (hnum : 0<num) :
    ReadsInPlace numBytes offset num ↔ 0≤offset ∨ numBytes≤(offset%2^32).toNat := by
  rcases le_or_gt (numBytes : ℤ) offset with hend | hlt
  · apply iff_of_true _ (.inl (by omega))
    intro stored hne
    have hbh : offset ≥ (fatFileNode numBytes stored).size := hend
    rw [vfsFileRead,if_neg (by omega),if_pos hbh] at hne
    exact absurd rfl hne
  rcases le_or_gt 0 offset with hpos | hneg
  · apply iff_of_true _ (.inl hpos)
    have hmod : offset%2^32=offset := by omega
    intro stored hne
    refine ⟨hpos,?_⟩
    rw [vfsFileRead_stored hnum hlt,hmod]
    cases nodeReadRequest numBytes offset.toNat num with
    | none => rfl
    | some n => rw [Option.elim_some,bytes_length]
  · rw [or_iff_right (not_le.mpr hneg),← nodeReadRequest_eq_none_iff _ _ num]
    constructor
    · intro h
      by_contra hsm
      obtain ⟨n,hn⟩ := Option.ne_none_iff_exists'.mp hsm
      refine absurd (h (fun _=>0) ?_).1 (not_le.mpr hneg)
      rw [vfsFileRead_stored hnum hlt,hn,Option.elim_some,← List.length_pos_iff,bytes_length]
      exact nodeReadRequest_pos hnum hn
    · intro hnn stored hne
      rw [vfsFileRead_stored hnum hlt,hnn] at hne
      exact absurd rfl hne

/-- The request is right iff it ends within 32 bits, and so is `vfs_file_read` for offsets in range.
-/
theorem reads_clamped_iff (hsize : numBytes<2^32) (hoff : off<2^32) (hnum : 0<num) (hint : num<2^31) (offset : ℤ) :
    (nodeReadRequest numBytes off num=clampedRequest numBytes off num ↔ numBytes≤off ∨ off+num<2^32) ∧
    (ReadsInPlace numBytes offset num ↔ 0≤offset ∨ numBytes≤(offset%2^32).toNat) :=
  ⟨nodeReadRequest_eq_iff hsize hoff hnum hint,readsInPlace_iff hsize hnum⟩

theorem reads_clamped_hundred :
    nodeReadRequest 100 90 20=clampedRequest 100 90 20 ∧ ReadsInPlace 100 90 20 := by
  have h := @reads_clamped_iff 100 90 20 (by decide) (by decide) (by decide) (by decide) 90
  exact ⟨h.1.mpr (by decide),h.2.mpr (by decide)⟩

/-- A file of almost 4 GiB, read from its last bytes on; and a file of 100 bytes, read from an offset below zero. -/
theorem reads_not_clamped :
    (nodeReadRequest 0xFFFFFFFF 0xFFFFFFF0 0x20=some 0x20 ∧ clampedRequest 0xFFFFFFFF 0xFFFFFFF0 0x20=some 0xF) ∧
    ∀ stored, vfsFileRead (fatFileNode 100 stored) (-0xFFFFFFFF) 1=(1, [stored 1], -0xFFFFFFFE) := by
  refine ⟨by decide,?_⟩
  intro stored
  rfl

end Yaos2.Fat
