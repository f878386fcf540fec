import Xv6.Fs.File

/-!
# `fstat`

`filestat` fills a `struct stat` on the kernel stack with `stati`, field by field, and copies all its 24
bytes to the user. On RISC-V the 8-byte field `size` stands at offset 16, so the bytes 12 to 15 after
`nlink` are padding: no field is stored there, and the user gets what the stack held before the call.
-/

namespace Xv6.Fs

/-- The bytes of the `struct stat` on the kernel stack, `sizeof(struct stat)` of them. -/
abbrev StatBytes : Type := Fin 24 → UInt8

/-- Store the `n` low bytes of `v` at offset `off`. -/
def StatBytes.store (st : StatBytes) (off n v : ℕ) : StatBytes := fun k =>
  if off ≤ k ∧ k < off + n then UInt8.ofNat (v / 256 ^ (k - off)) else st k

/-- The metadata in an inode: `dev`, `inum`, and `type`, `nlink` and `size` of the disk inode. -/
structure Metadata where
  dev : UInt32
  inum : UInt32
  type : UInt16
  nlink : UInt16
  size : UInt32

/-- `stati(ip, st)`. -/
def stati (ip : Metadata) (st : StatBytes) : StatBytes :=
  ((((st.store 0 4 ip.dev.toNat).store 4 4 ip.inum.toNat).store 8 2 ip.type.toNat).store 10 2
    ip.nlink.toNat).store 16 8 ip.size.toNat

/-- `filestat(f, addr)` of a process with memory `m`, with `st` what the stack holds before the call. -/
def filestat (type : FileType) (ip : Metadata) (st : StatBytes) (m : UserMem) (addr : ℕ) : ℤ × UserMem :=
  if type = .inode ∨ type = .device then
    let r := m.copyout addr (List.ofFn (stati ip st))
    if r.1 < 0 then (-1, r.2) else (0, r.2)
  else (-1, m)

/-- Byte `k` of a `struct stat` is in no field. -/
def Padding (k : Fin 24) : Prop := 12 ≤ k.val ∧ k.val < 16

instance : DecidablePred Padding := fun _ => inferInstanceAs (Decidable (_ ∧ _))

theorem stati_of_padding (ip : Metadata) (st : StatBytes) {k : Fin 24} (hk : Padding k) :
    stati ip st k = st k := by
  obtain ⟨h12, h16⟩ := hk
  simp only [stati, StatBytes.store]
  rw [if_neg (by omega), if_neg (by omega), if_neg (by omega), if_neg (by omega), if_neg (by omega)]

theorem stati_of_not_padding (ip : Metadata) (st st' : StatBytes) {k : Fin 24} (hk : ¬ Padding k) :
    stati ip st k = stati ip st' k := by
  simp only [stati, StatBytes.store]
  split_ifs
  all_goals first | rfl | exact absurd ⟨by omega, by omega⟩ hk

/-- The bytes of `st` reach the user's memory. -/
theorem byte_filestat {type : FileType} (htype : type = .inode ∨ type = .device) (ip : Metadata)
    (st : StatBytes) (k : Fin 24) :
    (filestat type ip st ⟨fun _ => true, fun _ => 0⟩ 0).2.byte k = stati ip st k := by
  have hlen : (List.ofFn (stati ip st)).length = 24 := List.length_ofFn
  have hm : UserMem.Mapped ⟨fun _ => true, fun _ => 0⟩ 0 (List.ofFn (stati ip st)).length := fun a ha => by
    have : a < MAXVA := by simp only [MAXVA]; omega
    simp [UserMem.walkaddr, this]
  have hlt : k.val < (List.ofFn (stati ip st)).length := by rw [hlen]; exact k.isLt
  have hbyte := @UserMem.byte_write_of_lt ⟨fun _ => true, fun _ => 0⟩ _ 0 k hlt
  rw [List.getElem_ofFn, Nat.zero_add] at hbyte
  rw [filestat, if_pos htype, UserMem.copyout_of_mapped hm]
  exact hbyte

/-- The stack's bytes 12 to 15 reach the user: two calls for the same inode differ there. -/
theorem stack_leaks :
    ((filestat .inode ⟨1, 2, 2, 1, 0⟩ (fun _ => 0) ⟨fun _ => true, fun _ => 0⟩ 0).2.byte 12 = 0 ∧
      (filestat .inode ⟨1, 2, 2, 1, 0⟩ (fun _ => 255) ⟨fun _ => true, fun _ => 0⟩ 0).2.byte 12 = 255) ∧
    ¬ ∀ st st' m addr, filestat .inode ⟨1, 2, 2, 1, 0⟩ st m addr =
      filestat .inode ⟨1, 2, 2, 1, 0⟩ st' m addr := by
  have h0 := byte_filestat (.inl rfl) ⟨1, 2, 2, 1, 0⟩ (fun _ => 0) 12
  have h255 := byte_filestat (.inl rfl) ⟨1, 2, 2, 1, 0⟩ (fun _ => 255) 12
  rw [stati_of_padding _ _ (by decide)] at h0 h255
  refine ⟨⟨h0, h255⟩, fun hsame => ?_⟩
  have : (0 : UInt8) = 255 := h0.symm.trans ((congrArg (fun r => r.2.byte 12) (hsame _ _ _ _)).trans h255)
  exact absurd this (by decide)

/-- **`fstat` and the kernel stack.** Two calls for the same inode copy the same bytes to every user memory
exactly if the file has no inode, or the stack held the same bytes in the padding. -/
theorem filestat_same_iff (type : FileType) (ip : Metadata) (st st' : StatBytes) :
    (∀ m addr, filestat type ip st m addr = filestat type ip st' m addr) ↔
      ¬ (type = .inode ∨ type = .device) ∨ ∀ k, Padding k → st k = st' k := by
  constructor
  · intro hsame
    by_cases htype : type = .inode ∨ type = .device
    · refine .inr fun k hk => ?_
      rw [← stati_of_padding ip st hk, ← stati_of_padding ip st' hk, ← byte_filestat htype,
        ← byte_filestat htype, hsame]
    · exact .inl htype
  · rintro (htype | hpad) m addr
    · rw [filestat, filestat, if_neg htype, if_neg htype]
    · have hst : stati ip st = stati ip st' := by
        funext k
        by_cases hk : Padding k
        · rw [stati_of_padding ip st hk, stati_of_padding ip st' hk, hpad k hk]
        · exact stati_of_not_padding ip st st' hk
      rw [filestat, filestat, hst]

end Xv6.Fs
