/-
# A string to a program and back

`CopyStringToMachine` and `CopyStringFromMachine` have the same bound and the same ways to
stop, so a string that the kernel hands to a program comes back as it was, cut to what fits
the size. Neither reaches beyond the size: not in the memory of the program, not in the
buffer of the kernel.
-/

import Nachos.Machine.LittleEndian
import Nachos.Userprog.StringCopy

namespace Nachos

open Base

namespace Machine

variable {m m' : Machine}

/-- The loop writes within the size, and keeps the mapping. -/
theorem copyToLoop_frame {src : Mem} {dst : BitVec 32} {i i' n : ℕ}
    (h : m.copyToLoop src dst i n = .ok (i', m')) :
    i' ≤ i + n ∧ m.SameMapping m' ∧
      ∀ k, (∀ j < i + n, k ≠ m.physAddr (dst + BitVec.ofNat 32 j)) →
        m'.mainMemory k = m.mainMemory k := by
  induction n generalizing m i with
  | zero =>
      cases h
      exact ⟨le_rfl, .refl _, fun _ _ => rfl⟩
  | succ n ih =>
      rw [copyToLoop] at h
      split at h
      · cases h
        exact ⟨by omega, .refl _, fun _ _ => rfl⟩
      · obtain ⟨⟨result, m₁⟩, hwrite, hloop⟩ := Except.bind_eq_ok.mp h
        obtain ⟨hsame, hframe⟩ := writeMem_frame hwrite
        obtain ⟨hle, hsame', hframe'⟩ := ih hloop
        refine ⟨by omega, hsame.trans hsame', fun k hk => ?_⟩
        rw [hframe' k fun j hj => by rw [hsame.physAddr]; exact hk j (by omega)]
        refine hframe k fun j hj => ?_
        obtain rfl : j = 0 := by simpa [Width.bytes] using hj
        exact hk i (by omega)

/-- **What `CopyStringToMachine` writes** is within the size, for every page table. -/
theorem copyStringToMachine_frame {src : Mem} {dst size : BitVec 32} (hsize : 0 < size.toNat)
    (h : m.copyStringToMachine src dst size = .ok m') :
    ∀ k, (∀ j < size.toNat, k ≠ m.physAddr (dst + BitVec.ofNat 32 j)) →
      m'.mainMemory k = m.mainMemory k := by
  obtain ⟨⟨i, m₁⟩, hloop, h⟩ := Except.bind_eq_ok.mp h
  obtain ⟨⟨result, m₂⟩, hwrite, hresult⟩ := Except.bind_eq_ok.mp h
  cases hresult
  rw [toNat_sub_one hsize] at hloop
  obtain ⟨hle, hsame, hframe⟩ := copyToLoop_frame hloop
  obtain ⟨-, hframe'⟩ := writeMem_frame hwrite
  intro k hk
  rw [hframe' k fun j hj => ?_, hframe k fun j hj => hk j (by omega)]
  obtain rfl : j = 0 := by simpa [Width.bytes] using hj
  rw [hsame.physAddr]
  exact hk i (by omega)

/-- **There and back.** A string that is copied into memory that can be written is copied
back up to the size, and neither copy goes beyond it; and a string that is in the memory of
a program is copied up to the size. -/
theorem stringCopies_inverse (m : Machine) (s t : Mem) (a : BitVec 32) {size : BitVec 32}
    (hsize : 1 ≤ size.toNat) :
    (m.WritableRange a size.toNat →
      ∃ m₁, m.copyStringToMachine s a size = .ok m₁ ∧
        (∀ k, (∀ j < size.toNat, k ≠ m.physAddr (a + BitVec.ofNat 32 j)) →
          m₁.mainMemory k = m.mainMemory k) ∧
        ∃ t' m₂, m₁.copyStringFromMachine a t size = .ok (t', m₂) ∧
          (∀ j < s.strnlen (size.toNat - 1), t' j = s j) ∧ t' (s.strnlen (size.toNat - 1)) = 0 ∧
          ∀ k, size.toNat ≤ k → t' k = t k) ∧
      ∀ path, m.UserString a path → ∃ t' m', m.copyStringFromMachine a t size = .ok (t', m') ∧
        t'.cString 0 size.toNat = path.take (size.toNat - 1) ∧
        ∀ k, size.toNat ≤ k → t' k = t k := by
  constructor
  · intro hrange
    obtain ⟨m₁, hcopy, hsame, -, hchars, hterm, -⟩ :=
      copyStringToMachine_of_range s a size hsize hrange
    have hbound := s.strnlen_le (size.toNat - 1)
    refine ⟨m₁, hcopy, copyStringToMachine_frame hsize hcopy, ?_⟩
    -- What was copied is what is found there.
    have hfound : ∀ j < size.toNat - 1, j ≤ s.strnlen (size.toNat - 1) →
        m₁.userByte (a + BitVec.ofNat 32 j) = some (s j) := by
      intro j hj hle
      rw [(hrange.of_sameMapping hsame).userByte (by omega), hsame.physAddr]
      rcases hle.lt_or_eq with hlt | rfl
      · rw [hchars j hlt]
      · rw [hterm, Mem.strnlen_eq_zero hj]
    obtain ⟨t', m₂, hback, hsame, hzero, hframe, -⟩ :=
      copyStringFromMachine_eq_strnlen a t s hsize hfound
    exact ⟨t', m₂, hback, hsame, hzero, hframe⟩
  · intro path hpath
    obtain ⟨t', m', hcopy, hstring, hframe, -⟩ := copyStringFromMachine_userString a t hpath hsize
    exact ⟨t', m', hcopy, hstring, hframe⟩

/-- A string of two characters across the boundary of two pages, in a size of two. -/
theorem stringCopies_across_pages : twoPages.WritableRange 127 2 ∧
    ∃ m₁, twoPages.copyStringToMachine (Mem.ofString [65, 66]) 127 2 = .ok m₁ ∧
      ∃ t' m₂, m₁.copyStringFromMachine 127 (fun _ => 1) 2 = .ok (t', m₂) ∧
        t' 0 = 65 ∧ t' 1 = 0 ∧ t' 2 = 1 := by
  have hrange : twoPages.WritableRange 127 2 :=
    .of_framesDistinct twoPages_framesDistinct (by decide) (by decide)
  have hsize : 1 ≤ (2 : BitVec 32).toNat := by decide
  obtain ⟨m₁, hcopy, -, t', m₂, hback, hchars, hzero, hframe⟩ :=
    (stringCopies_inverse twoPages (Mem.ofString [65, 66]) (fun _ => 1) 127 hsize).1 hrange
  exact ⟨hrange, m₁, hcopy, t', m₂, hback, hchars 0 (by decide), hzero, hframe 2 (by decide)⟩

end Machine

end Nachos
