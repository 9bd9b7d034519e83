/-
# What can be reached from the root

The objects a user can get at are those that entries in use lead to, from the root
directory on. On a consistent disk they are exactly the objects of the layout, so a
statement about them needs no layout.
-/

import Nachos.Filesys.Path
import Nachos.Filesys.Removal

namespace Nachos

open Base

namespace Disk

/-- `d.Reachable s isDir`: entries in use lead from the root directory to the header
sector `s`; the flag is that of the last entry. -/
inductive Reachable (d : Disk) : ℕ → Bool → Prop
  | root : Reachable d 1 true
  | entry {p i : ℕ} (hp : Reachable d p true) (hi : i < 10)
      (hinUse : (d.dirTable p).inUse i = true) :
      Reachable d ((d.dirTable p).sector i).toNat ((d.dirTable p).isDirectory i)

/-- Sector `x` is a sector of the free-map file or of a reachable object. -/
def InUse (d : Disk) (x : ℕ) : Prop :=
  x ∈ d.owned 0 ∨ ∃ s isDir, d.Reachable s isDir ∧ x ∈ d.owned s

end Disk

namespace Consistent

variable {d : Disk} {L : Layout} {s x : ℕ}

/-- An entry in use refers to an object of the kind it says. -/
theorem object_of_entry (h : Consistent d L) {p i : ℕ} (hp : p ∈ L.dirs) (hi : i < 10)
    (hinUse : (d.dirTable p).inUse i = true) : ∃ t : ℕ, (d.dirTable p).sector i = t ∧
      if (d.dirTable p).isDirectory i then t ∈ L.dirs else t ∈ L.files := by
  cases hflag : (d.dirTable p).isDirectory i with
  | true => exact h.dir_of_entry hp hi hinUse hflag
  | false => exact h.file_of_child hp (h.childEntry_of_flag hp hi hinUse hflag) hflag

/-- The object found under a name. -/
theorem object_of_findIndex (h : Consistent d L) {p i : ℕ} {name : Name} (hp : p ∈ L.dirs)
    (hindex : (d.dirTable p).findIndex name = some i) : ∃ t : ℕ, (d.dirTable p).sector i = t ∧
      t ∈ L.objects ∧ ((d.dirTable p).isDirectory i = false → t ∈ L.files) := by
  obtain ⟨hi, hmatch, -⟩ := Directory.findIndex_eq_some hindex
  rw [Directory.matchesName, Bool.and_eq_true] at hmatch
  obtain ⟨t, ht, hkind⟩ := h.object_of_entry hp hi hmatch.1
  refine ⟨t, ht, ?_, fun hflag => by simpa [hflag] using hkind⟩
  split at hkind
  · exact mem_objects_of_dir hkind
  · exact mem_objects_of_file hkind

/-- What is reached is of the kind its entry says. -/
theorem mem_of_reachable (h : Consistent d L) {isDir : Bool} (hs : d.Reachable s isDir) :
    if isDir then s ∈ L.dirs else s ∈ L.files := by
  induction hs with
  | root => exact h.root_mem
  | @entry p i _ hi hinUse ih =>
      obtain ⟨t, ht, hkind⟩ := h.object_of_entry (by simpa using ih) hi hinUse
      rw [ht]
      exact hkind

/-- Every directory of the layout is reached: its parent is nearer to the root. -/
theorem reachable_of_dir (h : Consistent d L) (hs : s ∈ L.dirs) : d.Reachable s true := by
  obtain ⟨rank, hrank⟩ := h.acyclic
  induction hr : rank s using Nat.strong_induction_on generalizing s with
  | _ r ih =>
      by_cases hroot : s = 1
      · subst hroot
        exact .root
      · obtain ⟨p, hp, -, i, hchild, htarget⟩ := h.dirParent s hs hroot
        have hless := hrank p hp i hchild s hs htarget
        have hreach := Disk.Reachable.entry (ih (rank p) (by omega) hp rfl) hchild.high hchild.inUse
        have hflag : (d.dirTable p).isDirectory i = true := by
          by_contra hfalse
          obtain ⟨t, ht, hfile⟩ := h.file_of_child hp hchild (by simpa using hfalse)
          rw [htarget] at ht
          exact h.kinds s hs (by rwa [show s = t by exact_mod_cast ht])
        rw [htarget, hflag] at hreach
        exact hreach

theorem reachable_of_file (h : Consistent d L) (hs : s ∈ L.files) : d.Reachable s false := by
  obtain ⟨p, hp, i, hchild, htarget⟩ := h.fileParent s hs
  have hreach := Disk.Reachable.entry (h.reachable_of_dir hp) hchild.high hchild.inUse
  have hflag : (d.dirTable p).isDirectory i = false := by
    by_contra htrue
    obtain ⟨t, ht, hdir⟩ := h.dir_of_child hp hchild (by simpa using htrue)
    rw [htarget] at ht
    exact h.kinds s (by rwa [show s = t by exact_mod_cast ht]) hs
  rw [htarget, hflag] at hreach
  exact hreach

/-- The plain files that can be reached are those of the layout. -/
theorem reachable_file_iff (h : Consistent d L) : d.Reachable s false ↔ s ∈ L.files :=
  ⟨fun hs => by simpa using h.mem_of_reachable hs, h.reachable_of_file⟩

/-- **The sectors in use** are those of the objects of the layout. -/
theorem inUse_iff (h : Consistent d L) : d.InUse x ↔ ∃ s ∈ L.objects, x ∈ d.owned s := by
  constructor
  · rintro (hx | ⟨s, isDir, hs, hx⟩)
    · exact ⟨0, zero_mem_objects, hx⟩
    · have hmem := h.mem_of_reachable hs
      split at hmem
      · exact ⟨s, mem_objects_of_dir hmem, hx⟩
      · exact ⟨s, mem_objects_of_file hmem, hx⟩
  · rintro ⟨s, hs, hx⟩
    rcases Layout.mem_objects.mp hs with rfl | hdir | hfile
    · exact Or.inl hx
    · exact Or.inr ⟨s, true, h.reachable_of_dir hdir, hx⟩
    · exact Or.inr ⟨s, false, h.reachable_of_file hfile, hx⟩

/-- Everything in use is marked. -/
theorem marked_of_inUse (h : Consistent d L) (hx : d.InUse x) : d.freeMap.testBit x = true := by
  obtain ⟨s, hs, hmem⟩ := h.inUse_iff.mp hx
  exact h.marked s hs x hmem

end Consistent

end Nachos
