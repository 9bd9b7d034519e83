/-
# Removing files and directories

Both removals end in the same steps: the sectors named by the header are given
back, then the header sector, then the entry is dropped. Nothing is checked about
the entry but that its name is found; `Deallocate` asserts that the sectors it
gives back are marked.
-/

import Nachos.Filesys.Operations

namespace Nachos

open Base

/-- `FetchFrom` on a header: the object is the header on disk, and the bytes behind
it are what they were. -/
theorem FileHeader.fetchFrom_of_lt (h : FileHeader) (d : Disk) {s : ℕ} (hs : s < 1024) :
    ∃ h', h.fetchFrom d s = .ok h' ∧ h'.SameObject (d.header s) ∧
      ∀ k, 128 ≤ k → h'.mem k = h.mem k := by
  refine ⟨⟨h.mem.copy 0 (d s) 0 128⟩, ?_, ⟨fun k hk => ?_⟩, fun k hk => ?_⟩
  · rw [FileHeader.fetchFrom, Disk.readSector_of_lt d (n := (s : ℤ)) (by omega) (by omega),
      Int.toNat_natCast, Except.ok_bind]
    rfl
  · exact Mem.copy_of_mem _ _ (by omega)
  · exact Mem.copy_of_not_mem _ _ (by omega)

/-- The directory without entry `i`. -/
def Directory.without (dir : Directory) (i : ℕ) : Directory :=
  { dir with table := dir.table.setByte (20 * i) 0 }

theorem Directory.remove_of_findIndex {dir : Directory} {name : Name} {i : ℕ}
    (h : dir.findIndex name = some i) : dir.remove name = (true, dir.without i) := by
  rw [Directory.remove, h]
  rfl

namespace FileSystem.Valid

variable {fs fs' : FileSystem} {L : Layout} {c i : ℕ} {dir : Directory} {header : FileHeader}
  {sector : ℤ} {name : Name} {heap : Heap} {result : Bool}

/-- **The common end of the removals.** If it returns, the sectors named by the
header and the header sector were in range, and are clear afterwards. The disk may
be any, as long as the free map and the directory are where their headers in memory
say. -/
theorem removeEntry_on_eq_ok (hfs : fs.Valid L c) (disk : Disk) (hdir : dir.tableSize = 10)
    (hindex : dir.findIndex name = some i)
    (hok : ({ fs with disk := disk } : FileSystem).removeEntry heap dir header sector name =
      .ok (result, fs')) :
    result = true ∧ (∀ k < header.numSectors.toNat,
        0 ≤ header.dataSectors k ∧ header.dataSectors k < 1024) ∧
      ∃ map disk', fs' = { fs with disk := disk' } ∧
        (∀ x < 1024, map.testBit x = ((fs.disk.mapThrough disk).testBit x &&
          decide (x ∉ sector.toNat :: header.sectorList header.numSectors.toNat))) ∧
        fs.disk.Flushed c disk (dir.without i) map disk' := by
  obtain ⟨map, hfetch, hbits, hmap⟩ := hfs.fetchFreeMap_on (heap 4) disk
  rw [FileSystem.removeEntry, hfetch, Except.ok_bind, Except.bind_eq_ok] at hok
  obtain ⟨map₁, hdealloc, hok⟩ := hok
  obtain ⟨hbits₁, hrange, htest⟩ := FileHeader.deallocateLoop_eq_ok hdealloc
  rw [Except.bind_eq_ok] at hok
  obtain ⟨map₂, hclear, hok⟩ := hok
  simp only [BitMap.clear, BitMap.checkIndex, Except.bind_eq_ok, assert_eq_ok] at hclear
  obtain ⟨-, -, hclear⟩ := hclear
  cases hclear
  rw [Directory.remove_of_findIndex hindex] at hok
  obtain ⟨disk₁, disk', hwrite₁, hwrite, hflush⟩ := hfs.flush_map_first (dir.without i)
    (map₁.clearBit sector.toNat) (heap 5) (heap 6) disk hdir
    ((BitMap.numBits_clearBit _ _).trans (hbits₁.trans hbits))
  simp only [hwrite₁, hwrite, Except.ok_bind] at hok
  cases hok
  rw [hbits] at hrange
  refine ⟨rfl, fun k hk => by exact_mod_cast hrange k hk, _, disk', rfl, fun x hx => ?_, hflush⟩
  rw [BitMap.testBit_clearBit, htest, hmap x hx]
  by_cases hequal : x = sector.toNat <;> simp [hequal]

theorem removeEntry_eq_ok (hfs : fs.Valid L c) (hdir : dir.tableSize = 10)
    (hindex : dir.findIndex name = some i)
    (hok : fs.removeEntry heap dir header sector name = .ok (result, fs')) :
    result = true ∧ ∃ map disk', fs' = { fs with disk := disk' } ∧
      (∀ x < 1024, map.testBit x = (fs.disk.freeMap.testBit x &&
        decide (x ∉ sector.toNat :: header.sectorList header.numSectors.toNat))) ∧
      fs.disk.Flushed c fs.disk (dir.without i) map disk' := by
  obtain ⟨hresult, -, hremoved⟩ := hfs.removeEntry_on_eq_ok fs.disk hdir hindex hok
  exact ⟨hresult, hremoved⟩

/-- On distinct marked sectors the removal does return. -/
theorem removeEntry_on_of_marked (hfs : fs.Valid L c) (disk : Disk) (heap : Heap)
    (header : FileHeader) (sector : ℤ) (hdir : dir.tableSize = 10)
    (hindex : dir.findIndex name = some i)
    (hnonneg : ∀ k < header.numSectors.toNat, 0 ≤ header.dataSectors k)
    (hnodup : (header.sectorList header.numSectors.toNat).Nodup)
    (hmarked : ∀ x ∈ header.sectorList header.numSectors.toNat,
      x < 1024 ∧ (fs.disk.mapThrough disk).testBit x = true)
    (hsector : 0 ≤ sector ∧ sector < 1024) :
    ∃ fs', ({ fs with disk := disk } : FileSystem).removeEntry heap dir header sector name =
      .ok (true, fs') := by
  obtain ⟨map, hfetch, hbits, hmap⟩ := hfs.fetchFreeMap_on (heap 4) disk
  obtain ⟨map₁, hdealloc⟩ := header.deallocateLoop_of_marked map header.numSectors.toNat hnonneg
    hnodup fun x hx => by
      obtain ⟨hlt, htest⟩ := hmarked x hx
      rw [hbits, hmap x hlt]
      exact ⟨hlt, htest⟩
  obtain ⟨hbits₁, -, -⟩ := FileHeader.deallocateLoop_eq_ok hdealloc
  obtain ⟨disk₁, disk', hwrite₁, hwrite, -⟩ := hfs.flush_map_first (dir.without i)
    (map₁.clearBit sector.toNat) (heap 5) (heap 6) disk hdir
    ((BitMap.numBits_clearBit _ _).trans (hbits₁.trans hbits))
  refine ⟨{ fs with disk := disk' }, ?_⟩
  rw [FileSystem.removeEntry, hfetch, Except.ok_bind, FileHeader.deallocate, hdealloc,
    Except.ok_bind, BitMap.clear,
    map₁.checkIndex_of_lt (by rw [hbits₁, hbits]; exact_mod_cast hsector)]
  simp only [Except.ok_bind, pure, Except.pure, Directory.remove_of_findIndex hindex, hwrite₁,
    hwrite]

theorem removeEntry_of_marked (hfs : fs.Valid L c) (heap : Heap) (header : FileHeader)
    (sector : ℤ) (hdir : dir.tableSize = 10)
    (hindex : dir.findIndex name = some i)
    (hnonneg : ∀ k < header.numSectors.toNat, 0 ≤ header.dataSectors k)
    (hnodup : (header.sectorList header.numSectors.toNat).Nodup)
    (hmarked : ∀ x ∈ header.sectorList header.numSectors.toNat,
      x < 1024 ∧ fs.disk.freeMap.testBit x = true)
    (hsector : 0 ≤ sector ∧ sector < 1024) :
    ∃ fs', fs.removeEntry heap dir header sector name = .ok (true, fs') :=
  hfs.removeEntry_on_of_marked fs.disk heap header sector hdir hindex hnonneg hnodup hmarked hsector

end FileSystem.Valid

namespace Consistent

variable {d disk' : Disk} {L : Layout} {c i t : ℕ} {dir : Directory} {map : BitMap}

/-- The end of a removal, seen on the disk. -/
theorem removed_of_flushed (h : Consistent d L) (hc : c ∈ L.dirs)
    (hdir : dir.SameTable (d.dirTable c)) (hchild : d.ChildEntry c i)
    (htarget : (d.dirTable c).sector i = t)
    (hflush : d.Flushed c d (dir.without i) map disk')
    (hmarks : ∀ s ∈ L.objects, s ≠ t → ∀ x ∈ d.owned s, map.testBit x = true)
    (hempty : t ∈ L.dirs → ∀ j, ¬ d.ChildEntry t j) : d.Removed disk' L c i t := by
  have hframe : d.Frame disk' L c := fun s _ x _ hzero hone hmap => hflush.frame x hzero hone hmap
  refine ⟨hchild, htarget, hframe, fun k hk => ?_, fun s hs hne x hx => ?_, hempty⟩
  · rw [hflush.table (h.header_frame hc hframe (mem_objects_of_dir hc)) hk]
    simp only [Directory.without, Mem.setByte]
    rw [hdir.table (show k < 20 * 10 by omega)]
  · rw [hflush.testBit (h.header_frame hc hframe zero_mem_objects) (h.owned_lt hs hx)]
    exact hmarks s hs hne x hx

/-- The target of an ordinary entry, according to its flag. -/
theorem file_of_child (h : Consistent d L) (hc : c ∈ L.dirs) (hchild : d.ChildEntry c i)
    (hflag : (d.dirTable c).isDirectory i = false) :
    ∃ t : ℕ, (d.dirTable c).sector i = t ∧ t ∈ L.files := by
  obtain ⟨t, ht, -, hkind⟩ := h.child c hc i hchild
  rw [hflag, if_neg (by simp)] at hkind
  exact ⟨t, ht, hkind⟩

theorem dir_of_child (h : Consistent d L) (hc : c ∈ L.dirs) (hchild : d.ChildEntry c i)
    (hflag : (d.dirTable c).isDirectory i = true) :
    ∃ t : ℕ, (d.dirTable c).sector i = t ∧ t ∈ L.dirs := by
  obtain ⟨t, ht, -, hkind⟩ := h.child c hc i hchild
  rw [hflag, if_pos rfl] at hkind
  exact ⟨t, ht, hkind⟩

/-- An entry in use that is not a directory is ordinary, because the special entries
are directories. -/
theorem childEntry_of_flag (h : Consistent d L) (hc : c ∈ L.dirs) (hi : i < 10)
    (hinUse : (d.dirTable c).inUse i = true)
    (hflag : (d.dirTable c).isDirectory i = false) : d.ChildEntry c i := by
  refine ⟨?_, hi, hinUse⟩
  by_contra hlow
  rcases (by omega : i = 0 ∨ i = 1) with rfl | rfl
  · rw [(h.dot c hc).2.1] at hflag
    cases hflag
  · rw [(h.dotDot c hc).2] at hflag
    cases hflag

theorem childEntry_of_findIndex (h : Consistent d L) (hc : c ∈ L.dirs) {name : Name}
    (hindex : (d.dirTable c).findIndex name = some i)
    (hflag : (d.dirTable c).isDirectory i = false) : d.ChildEntry c i := by
  obtain ⟨hi, hmatch, -⟩ := Directory.findIndex_eq_some hindex
  rw [Directory.matchesName, Bool.and_eq_true] at hmatch
  exact h.childEntry_of_flag hc hi hmatch.1 hflag

/-- An entry found under a name that is not special is ordinary. -/
theorem childEntry_of_name (h : Consistent d L) (hc : c ∈ L.dirs) {name : Name}
    (hindex : (d.dirTable c).findIndex name = some i)
    (hname : (0 : UInt8) ∉ name ∧ name.length < FileNameMaxLen) (hdot : name ≠ Directory.dot)
    (hdotDot : name ≠ Directory.dotDot) : d.ChildEntry c i := by
  obtain ⟨hi, hmatch, -⟩ := Directory.findIndex_eq_some hindex
  have hfirst := (h.dot c hc).1
  have hsecond := (h.dotDot c hc).1
  rw [Directory.matchesName, Bool.and_eq_true, FileNameMaxLen] at hmatch hfirst hsecond
  refine ⟨?_, hi, hmatch.1⟩
  by_contra hlow
  rcases (by omega : i = 0 ∨ i = 1) with rfl | rfl
  · rw [Mem.strnEqual_congr_left hfirst.2] at hmatch
    exact hdot (Mem.eq_of_strnEqual (by decide) hname.1 (by decide) hname.2 hmatch.2).symm
  · rw [Mem.strnEqual_congr_left hsecond.2] at hmatch
    exact hdotDot (Mem.eq_of_strnEqual (by decide) hname.1 (by decide) hname.2 hmatch.2).symm

/-- A special name is found among the first two entries, which are directories. -/
theorem isDirectory_of_special (h : Consistent d L) (hc : c ∈ L.dirs) {name : Name}
    (hindex : (d.dirTable c).findIndex name = some i)
    (hname : name = Directory.dot ∨ name = Directory.dotDot) :
    (d.dirTable c).isDirectory i = true := by
  obtain ⟨hi, -, hearlier⟩ := Directory.findIndex_eq_some hindex
  have hlow : i = 0 ∨ i = 1 := by
    by_contra hlate
    rcases hname with rfl | rfl
    · have hnone := hearlier 0 (by omega)
      rw [(h.dot c hc).1] at hnone
      cases hnone
    · have hnone := hearlier 1 (by omega)
      rw [(h.dotDot c hc).1] at hnone
      cases hnone
  rcases hlow with rfl | rfl
  · exact (h.dot c hc).2.1
  · exact (h.dotDot c hc).2

/-- The header of a plain file lists all its sectors. -/
theorem file_sectorList (h : Consistent d L) (ht : t ∈ L.files) {header : FileHeader}
    (same : header.SameObject (d.header t)) :
    header.sectorList header.numSectors.toNat = d.dataList t ∧
      ∀ k < header.numSectors.toNat, 0 ≤ header.dataSectors k := by
  have hsectors := (h.fileHeader t ht).2
  have hlisted : (d.header t).listed = (d.header t).numSectors.toNat := by
    rw [FileHeader.listed]
    omega
  rw [same.numSectors]
  refine ⟨?_, fun k hk => ?_⟩
  · rw [Disk.dataList, hlisted]
    exact FileHeader.sectorList_congr fun k hk => same.dataSectors (by omega)
  · rw [same.dataSectors (by omega)]
    exact ((h.inRange t (mem_objects_of_file ht)).2 k (by omega)).1

end Consistent

namespace FileSystem.Valid

variable {fs fs' : FileSystem} {L : Layout} {c i t : ℕ} {name : Name}

/-- A name that is not found: nothing happens. -/
theorem removeFile_of_absent (hfs : fs.Valid L c) (heap : Heap)
    (hnone : (fs.disk.dirTable c).findIndex name = none) :
    fs.removeFileInCurrentDirectory heap name = .ok (false, fs) := by
  obtain ⟨dir, hfetch, hdir⟩ := hfs.fetchCurrentDirectory (heap 0)
  rw [removeFileInCurrentDirectory, hfetch, Except.ok_bind, Directory.find, hdir.findIndex, hnone]
  rfl

/-- **Removing a plain file**: no assertion fails, and exactly its sectors are
given back. -/
theorem removeFile_of_file (hfs : fs.Valid L c) (heap : Heap)
    (hindex : (fs.disk.dirTable c).findIndex name = some i)
    (hflag : (fs.disk.dirTable c).isDirectory i = false) :
    ∃ t ∈ L.files, ∃ disk',
      fs.removeFileInCurrentDirectory heap name = .ok (true, { fs with disk := disk' }) ∧
      fs.disk.Removed disk' L c i t ∧
      ∀ x < 1024, disk'.freeMap.testBit x =
        (fs.disk.freeMap.testBit x && decide (x ∉ fs.disk.owned t)) := by
  have h := hfs.consistent
  have hc := hfs.current_mem
  have hchild := h.childEntry_of_findIndex hc hindex hflag
  obtain ⟨t, ht, hfile⟩ := h.file_of_child hc hchild hflag
  have hobj := Consistent.mem_objects_of_file hfile
  obtain ⟨dir, hfetch, hdir⟩ := hfs.fetchCurrentDirectory (heap 0)
  have hfind : dir.find name = t := by
    rw [hdir.find, Directory.find, hindex]
    exact ht
  have hindex' : dir.findIndex name = some i := (hdir.findIndex name).trans hindex
  obtain ⟨header, hheader, same, -⟩ :=
    (FileHeader.new (heap 1)).fetchFrom_of_lt fs.disk (h.inRange t hobj).1
  obtain ⟨hlist, hnonneg⟩ := h.file_sectorList hfile same
  obtain ⟨fs', hremove⟩ := hfs.removeEntry_of_marked heap header t hdir.tableSize hindex' hnonneg
    (by rw [hlist]; exact (List.nodup_cons.mp (h.nodup t hobj)).2)
    (fun x hx => by
      rw [hlist] at hx
      have hx' : x ∈ fs.disk.owned t := List.mem_cons_of_mem _ hx
      exact ⟨h.owned_lt hobj hx', h.marked t hobj x hx'⟩)
    (by have := (h.inRange t hobj).1; omega)
  obtain ⟨-, map, disk', rfl, htest, hflush⟩ :=
    hfs.removeEntry_eq_ok hdir.tableSize hindex' hremove
  rw [hlist, Int.toNat_natCast] at htest
  have hkept : ∀ s ∈ L.objects, s ≠ t → ∀ x ∈ fs.disk.owned s, map.testBit x = true := by
    intro s hs hne x hx
    have hother : x ∉ t :: fs.disk.dataList t := fun hmem => h.separate s hs t hobj hne hx hmem
    rw [htest x (h.owned_lt hs hx), h.marked s hs x hx, Bool.true_and, decide_eq_true_eq]
    exact hother
  have hrem := h.removed_of_flushed hc hdir hchild ht hflush hkept
    fun hdirs => absurd hfile (h.kinds t hdirs)
  refine ⟨t, hfile, disk', ?_, hrem, fun x hx => ?_⟩
  · rw [removeFileInCurrentDirectory, hfetch, Except.ok_bind, hfind, if_neg (by omega), hheader,
      Except.ok_bind]
    exact hremove
  · rw [hflush.testBit (h.header_frame hc hrem.frame Consistent.zero_mem_objects) hx]
    exact htest x hx

/-- After a removal the file system is valid for the smaller layout. -/
theorem of_removed (hfs : fs.Valid L c) {disk' : Disk} (rem : fs.disk.Removed disk' L c i t) :
    ({ fs with disk := disk' } : FileSystem).Valid (L.erase t) c :=
  hfs.of_disk (hfs.consistent.removed hfs.current_mem rem)
    (Finset.mem_erase.mpr ⟨Consistent.parent_ne_target hfs.current_mem rem, hfs.current_mem⟩)
    (hfs.consistent.header_frame hfs.current_mem rem.frame Consistent.zero_mem_objects)
    (hfs.consistent.header_frame hfs.current_mem rem.frame
      (Consistent.mem_objects_of_dir hfs.current_mem))

end FileSystem.Valid

end Nachos
