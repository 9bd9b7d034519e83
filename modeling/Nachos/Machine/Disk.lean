/-
# The simulated disk, seen through `SynchDisk`

`machine/disk.{h,cc}` and `filesys/synchdisk.cc`. The synchronous layer returns
only after the transfer is done and admits one request at a time, so for one
thread a request is a read or a replacement of the 128 bytes of one sector. The
only check on the way is the range of the sector number.
-/

import Nachos.Base.Mem
import Nachos.Base.Fault

namespace Nachos

open Base

/-- Number of bytes per disk sector. -/
def SectorSize : ℕ := 128

/-- Number of sectors per disk track. -/
def SectorsPerTrack : ℕ := 32

/-- Number of tracks per disk. -/
def NumTracks : ℕ := 32

/-- Total number of sectors per disk. -/
def NumSectors : ℕ := SectorsPerTrack * NumTracks

/-- The contents of every sector. -/
abbrev Disk := ℕ → Mem

namespace Disk

/-- `SynchDisk::ReadSector`: the buffer receives the bytes of the sector. -/
def readSector (disk : Disk) (sectorNumber : ℤ) : Except Fault Mem := do
  assert (sectorNumber ≥ 0 ∧ sectorNumber < NumSectors)
  return disk sectorNumber.toNat

/-- `SynchDisk::WriteSector`: the first 128 bytes of `data` replace the sector. -/
def writeSector (disk : Disk) (sectorNumber : ℤ) (data : Mem) : Except Fault Disk := do
  assert (sectorNumber ≥ 0 ∧ sectorNumber < NumSectors)
  return fun s =>
    if s = sectorNumber.toNat then (disk s).copy 0 data 0 SectorSize else disk s

theorem readSector_eq_ok {disk : Disk} {n : ℤ} {data : Mem} :
    disk.readSector n = .ok data ↔ (0 ≤ n ∧ n < 1024) ∧ data = disk n.toNat := by
  unfold readSector
  simp only [Except.bind_eq_ok, assert_eq_ok, pure, Except.pure, Except.ok.injEq, exists_const,
    ge_iff_le, NumSectors, SectorsPerTrack, NumTracks, eq_comm (a := data)]
  norm_num

theorem readSector_of_lt (disk : Disk) {n : ℤ} (hlow : 0 ≤ n) (hhigh : n < 1024) :
    disk.readSector n = .ok (disk n.toNat) :=
  readSector_eq_ok.mpr ⟨⟨hlow, hhigh⟩, rfl⟩

theorem readSector_of_not (disk : Disk) {n : ℤ} (h : ¬ (0 ≤ n ∧ n < 1024)) :
    disk.readSector n = .error .assertion := by
  rw [readSector, assert, if_neg (show ¬ (n ≥ 0 ∧ n < NumSectors) from h)]
  rfl

/-- The disk after one sector has been replaced. -/
def put (disk : Disk) (n : ℕ) (data : Mem) : Disk :=
  fun s => if s = n then (disk s).copy 0 data 0 128 else disk s

theorem writeSector_eq_ok {disk disk' : Disk} {n : ℤ} {data : Mem} :
    disk.writeSector n data = .ok disk' ↔ (0 ≤ n ∧ n < 1024) ∧ disk' = disk.put n.toNat data := by
  unfold writeSector
  simp only [Except.bind_eq_ok, assert_eq_ok, pure, Except.pure, Except.ok.injEq, exists_const,
    ge_iff_le, NumSectors, SectorsPerTrack, NumTracks, SectorSize, eq_comm (a := disk')]
  norm_num
  intro _ _
  exact Iff.rfl

theorem writeSector_of_lt (disk : Disk) {n : ℤ} (data : Mem) (hlow : 0 ≤ n) (hhigh : n < 1024) :
    disk.writeSector n data = .ok (disk.put n.toNat data) :=
  writeSector_eq_ok.mpr ⟨⟨hlow, hhigh⟩, rfl⟩

theorem writeSector_of_not (disk : Disk) {n : ℤ} (data : Mem) (h : ¬ (0 ≤ n ∧ n < 1024)) :
    disk.writeSector n data = .error .assertion := by
  rw [writeSector, assert, if_neg (show ¬ (n ≥ 0 ∧ n < NumSectors) from h)]
  rfl

theorem put_of_ne (disk : Disk) {n s : ℕ} (data : Mem) (h : s ≠ n) : disk.put n data s = disk s :=
  if_neg h

theorem put_self (disk : Disk) (n : ℕ) (data : Mem) {k : ℕ} (hk : k < 128) :
    disk.put n data n k = data k := by
  rw [put, if_pos rfl, Mem.copy_of_mem _ _ (by omega)]
  rfl

end Disk

end Nachos
