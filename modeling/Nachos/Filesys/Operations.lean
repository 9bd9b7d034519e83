/-
# What the operations do to a consistent disk

The files of the directory and of the free map are read and written through open
files whose headers were copied when the files were opened. As long as such a
copy agrees with the header on disk, fetching gives the current directory and the
free map, and flushing replaces exactly their bytes. From this follows what a
successful creation or removal leaves behind.
-/

import Nachos.Filesys.Changes

namespace Nachos

open Base

/-- The open file holds a copy of the header in sector `s`. -/
def OpenFile.OpenedOn (f : OpenFile) (d : Disk) (s : ℕ) : Prop := f.hdr.SameObject (d.header s)

/-- The directory with header sector `c`, read from `disk` through the header it has
in `d`. -/
def Disk.dirThrough (d : Disk) (c : ℕ) (disk : Disk) : Directory :=
  ⟨10, OpenFile.fileBytes disk (d.header c)⟩

/-- The free map, read from `disk` through the header its file has in `d`. -/
def Disk.mapThrough (d disk : Disk) : BitMap := ⟨1024, OpenFile.fileBytes disk (d.header 0)⟩

/-- Two directories in memory with the same entries. -/
structure Directory.SameTable (dir dir' : Directory) : Prop where
  tableSize : dir.tableSize = dir'.tableSize
  sameEntry : ∀ i < dir'.tableSize, dir.SameEntry dir' i

theorem Directory.SameTable.findIndex {dir dir' : Directory} (same : dir.SameTable dir')
    (name : Name) : dir.findIndex name = dir'.findIndex name :=
  Directory.findIndex_congr same.tableSize fun i hi => (same.sameEntry i hi).matchesName name

theorem Directory.SameTable.find {dir dir' : Directory} (same : dir.SameTable dir')
    (name : Name) : dir.find name = dir'.find name :=
  Directory.find_congr same.tableSize fun i hi => .inl (same.sameEntry i hi)

theorem Directory.SameTable.add {dir dir' : Directory} (same : dir.SameTable dir') (name : Name)
    (isDir : Bool) (i : ℕ) (s : ℤ) :
    (dir.add name isDir i s).SameTable (dir'.add name isDir i s) :=
  ⟨same.tableSize, fun j hj k hk =>
    Directory.table_add_congr name isDir i s (same.sameEntry j hj k hk)⟩

/-- The entries of a table cover its bytes. -/
theorem Directory.SameTable.table {dir dir' : Directory} (same : dir.SameTable dir') {k : ℕ}
    (hk : k < 20 * dir'.tableSize) : dir.table k = dir'.table k := by
  have := same.sameEntry (k / 20) (by omega) (k % 20) (Nat.mod_lt _ (by norm_num))
  rwa [Nat.div_add_mod] at this

/-- An inserted entry is found under its name. -/
theorem Disk.Inserted.findIndex {d d' : Disk} {L : Layout} {c n i : ℕ} {name : Name} {isDir : Bool}
    (ins : d.Inserted d' L c n i name isDir) : (d'.dirTable c).findIndex name = some i := by
  have same : (d'.dirTable c).SameTable ((d.dirTable c).add name isDir i n) :=
    ⟨rfl, fun j hj k hk => ins.table _ (by
      change j < 10 at hj
      omega)⟩
  rw [same.findIndex]
  exact Directory.findIndex_add isDir n ins.slot.1 ins.fresh

namespace OpenFile

variable {f : OpenFile} {d d' : Disk} {s : ℕ}

theorem OpenedOn.inRange (hopen : f.OpenedOn d s) {m : ℕ} (hm : m ≤ 30)
    (hvalid : (d.header s).InRange m) : f.hdr.InRange m := by
  intro i hi
  rw [FileHeader.SameObject.dataSectors hopen (by omega)]
  exact hvalid i hi

theorem OpenedOn.fileBytes (hopen : f.OpenedOn d s) {k : ℕ} (hk : k < 3840) :
    fileBytes d' f.hdr k = fileBytes d' (d.header s) k := by
  rw [OpenFile.fileBytes, OpenFile.fileBytes,
    FileHeader.SameObject.dataSectors hopen (by omega)]

theorem OpenedOn.sectorList (hopen : f.OpenedOn d s) {m : ℕ} (hm : m ≤ 30) :
    f.hdr.sectorList m = (d.header s).sectorList m :=
  FileHeader.sectorList_congr fun i hi => FileHeader.SameObject.dataSectors hopen (by omega)

/-- A copy stays good as long as the header on disk does. -/
theorem OpenedOn.congr (hopen : f.OpenedOn d s) (h : d' s = d s) : f.OpenedOn d' s := by
  rw [OpenedOn, Disk.header_congr h]
  exact hopen

/-- `Directory::FetchFrom` on a file long enough for ten entries. The disk may have
changed since the file was opened. -/
theorem OpenedOn.fetchThrough (hopen : f.OpenedOn d s) (uninit : Mem) (disk : Disk)
    (hlength : 200 ≤ (d.header s).numBytes) (hvalid : (d.header s).InRange 2) :
    ∃ dir, (Directory.new uninit NumDirEntries).fetchFrom disk f = .ok dir ∧
      dir.SameTable (d.dirThrough s disk) := by
  rw [← FileHeader.SameObject.numBytes hopen] at hlength
  have hread := f.readAt_zero disk (Directory.new uninit NumDirEntries).table (n := 200) (m := 2)
    (by omega) (by omega) (by omega) (hopen.inRange (by omega) hvalid)
  refine ⟨⟨10, (Directory.new uninit NumDirEntries).table.copy 0 (OpenFile.fileBytes disk f.hdr) 0
    200⟩, ?_, rfl, fun i hi k hk => ?_⟩
  · change f.readAt disk _ 0 ((200 : ℕ) : ℤ) 0 >>= _ = _
    rw [hread]
    rfl
  · have hi' : i < 10 := hi
    simp only [Disk.dirThrough]
    rw [Mem.copy_of_mem _ _ (by omega), hopen.fileBytes (by omega)]
    rfl

theorem OpenedOn.fetchFrom (hopen : f.OpenedOn d s) (uninit : Mem)
    (hlength : 200 ≤ (d.header s).numBytes) (hvalid : (d.header s).InRange 2) :
    ∃ dir, (Directory.new uninit NumDirEntries).fetchFrom d f = .ok dir ∧
      dir.SameTable (d.dirTable s) :=
  hopen.fetchThrough uninit d hlength hvalid

/-- A freshly opened file holds a copy of its header. -/
theorem new_eq_ok {uninit : Mem} {sector : ℤ} (h : new uninit d sector = .ok f) :
    (0 ≤ sector ∧ sector < 1024) ∧ f.OpenedOn d sector.toNat ∧ f.seekPosition = 0 := by
  simp only [new, FileHeader.fetchFrom, Except.bind_eq_ok, Disk.readSector_eq_ok] at h
  obtain ⟨hdr, ⟨data, ⟨hrange, rfl⟩, hhdr⟩, hf⟩ := h
  cases hhdr
  cases hf
  refine ⟨hrange, ⟨fun k hk => ?_⟩, rfl⟩
  simp only [Disk.header, SectorSize]
  rw [Mem.copy_of_mem _ _ (by omega)]
  rfl

theorem new_of_lt (uninit : Mem) (d : Disk) {s : ℕ} (hs : s < 1024) :
    ∃ f, new uninit d s = .ok f ∧ f.OpenedOn d s ∧ f.seekPosition = 0 := by
  have hnew : ∃ f, new uninit d s = .ok f := by
    simp only [new, FileHeader.fetchFrom, Disk.readSector_of_lt d (n := (s : ℤ)) (by omega)
      (by omega), Except.ok_bind]
    exact ⟨_, rfl⟩
  obtain ⟨f, hf⟩ := hnew
  obtain ⟨-, hopen, hseek⟩ := new_eq_ok hf
  exact ⟨f, hf, by simpa using hopen, hseek⟩

end OpenFile

namespace Consistent

variable {d : Disk} {L : Layout} {c : ℕ} {f : OpenFile}

/-- The first two pointers of a directory. -/
theorem dir_sectorList (h : Consistent d L) (hc : c ∈ L.dirs) :
    (d.header c).InRange 2 ∧ ((d.header c).sectorList 2).Nodup := by
  have hlisted := (h.dirHeader c hc).2
  refine ⟨fun i hi => (h.inRange c (mem_objects_of_dir hc)).2 i (by omega), ?_⟩
  have hnodup := (List.nodup_cons.mp (h.nodup c (mem_objects_of_dir hc))).2
  refine List.Nodup.sublist ?_ hnodup
  exact (List.range_sublist.mpr hlisted).map _

/-- The pointer of the free-map file. -/
theorem map_sectorList (h : Consistent d L) :
    (d.header 0).InRange 1 ∧ ((d.header 0).sectorList 1).Nodup := by
  refine ⟨fun i hi => (h.inRange 0 zero_mem_objects).2 i (by rw [h.map_listed]; exact hi), ?_⟩
  simp [FileHeader.sectorList]

/-- `FetchFrom` on a directory reads its entries. -/
theorem fetchDirectory (h : Consistent d L) (hc : c ∈ L.dirs) (hopen : f.OpenedOn d c)
    (uninit : Mem) : ∃ dir, (Directory.new uninit NumDirEntries).fetchFrom d f = .ok dir ∧
      dir.SameTable (d.dirTable c) :=
  hopen.fetchFrom uninit (h.dirHeader c hc).1 (h.dir_sectorList hc).1

/-- `FetchFrom` on the free map reads its bits. -/
theorem fetchFreeMap (h : Consistent d L) (hopen : f.OpenedOn d 0) (uninit : Mem) (disk : Disk) :
    ∃ map, (BitMap.new uninit NumSectors).fetchFrom disk f = .ok map ∧ map.numBits = 1024 ∧
      ∀ x < 1024, map.testBit x = (d.mapThrough disk).testBit x := by
  have hlength := h.mapHeader.1
  rw [← FileHeader.SameObject.numBytes hopen] at hlength
  have hread := f.readAt_zero disk (BitMap.new uninit NumSectors).map (n := 128) (m := 1)
    (by omega) (by omega) (by omega) (hopen.inRange (by omega) h.map_sectorList.1)
  have hbits : (BitMap.new uninit NumSectors).numBits = 1024 := BitMap.numBits_new _ _
  have hwords : (BitMap.new uninit NumSectors).numWords * 4 = (128 : ℕ) := by
    rw [BitMap.numWords, hbits]
    decide
  refine ⟨⟨1024, (BitMap.new uninit NumSectors).map.copy 0 (OpenFile.fileBytes disk f.hdr) 0 128⟩,
    ?_, rfl, fun x hx => ?_⟩
  · rw [BitMap.fetchFrom, hwords, hread, hbits]
    rfl
  · refine BitMap.testBit_congr (Mem.word_congr fun k hk => ?_)
    have hbyte : 4 * (x / 32) + k < 128 := by omega
    exact (Mem.copy_of_mem _ _ (by omega)).trans (hopen.fileBytes (by omega))

/-- `WriteBack` on a directory replaces its entries and touches two sectors. -/
theorem writeDirectory (h : Consistent d L) (hc : c ∈ L.dirs) (hopen : f.OpenedOn d c)
    (uninit : Mem) (disk : Disk) {dir : Directory} (hsize : dir.tableSize = 10) :
    ∃ disk', dir.writeBack uninit disk f = .ok disk' ∧
      (∀ x, x ≠ d.dataSector c 0 → x ≠ d.dataSector c 1 → disk' x = disk x) ∧
      ∀ k < 200, OpenFile.fileBytes disk' (d.header c) k = dir.table k := by
  have hlength := (h.dirHeader c hc).1
  rw [← FileHeader.SameObject.numBytes hopen] at hlength
  have hlist := hopen.sectorList (m := 2) (by omega)
  obtain ⟨hvalid, hnodup⟩ := h.dir_sectorList hc
  rw [← hlist] at hnodup
  obtain ⟨disk', hwrite, hframe, hdata⟩ := f.writeAt_zero uninit disk dir.table (n := 200)
    (m := 2) (by omega) (by omega) (by omega) (hopen.inRange (by omega) hvalid) hnodup
  refine ⟨disk', ?_, fun x hzero hone => hframe x fun hmem => ?_, fun k hk => ?_⟩
  · rw [Directory.writeBack, hsize]
    exact hwrite
  · rw [hlist] at hmem
    obtain ⟨i, hi, hequal⟩ := FileHeader.mem_sectorList.mp hmem
    rcases (by omega : i = 0 ∨ i = 1) with rfl | rfl
    · exact hzero hequal.symm
    · exact hone hequal.symm
  · rw [← hopen.fileBytes (by omega)]
    exact hdata k hk

/-- `WriteBack` on the free map replaces its bits and touches one sector. -/
theorem writeFreeMap (h : Consistent d L) (hopen : f.OpenedOn d 0) (uninit : Mem) (disk : Disk)
    {map : BitMap} (hsize : map.numBits = 1024) :
    ∃ disk', map.writeBack uninit disk f = .ok disk' ∧
      (∀ x, x ≠ d.dataSector 0 0 → disk' x = disk x) ∧
      ∀ k < 128, OpenFile.fileBytes disk' (d.header 0) k = map.map k := by
  have hlength := h.mapHeader.1
  rw [← FileHeader.SameObject.numBytes hopen] at hlength
  have hlist := hopen.sectorList (m := 1) (by omega)
  obtain ⟨hvalid, hnodup⟩ := h.map_sectorList
  rw [← hlist] at hnodup
  have hwords : map.numWords * 4 = (128 : ℕ) := by
    rw [BitMap.numWords, hsize]
    decide
  obtain ⟨disk', hwrite, hframe, hdata⟩ := f.writeAt_zero uninit disk map.map (n := 128)
    (m := 1) (by omega) (by omega) (by omega) (hopen.inRange (by omega) hvalid) hnodup
  refine ⟨disk', ?_, fun x hzero => hframe x fun hmem => ?_, fun k hk => ?_⟩
  · rw [BitMap.writeBack, hwords]
    exact hwrite
  · rw [hlist] at hmem
    obtain ⟨i, hi, hequal⟩ := FileHeader.mem_sectorList.mp hmem
    rcases (by omega : i = 0) with rfl
    exact hzero hequal.symm
  · rw [← hopen.fileBytes (by omega)]
    exact hdata k hk

/-- A write to a plain file, whatever the request, touches only its data sectors. -/
theorem writeFile (h : Consistent d L) {t : ℕ} (ht : t ∈ L.files) (hopen : f.OpenedOn d t)
    {uninit source : Mem} {disk' : Disk} {numBytes position result : ℤ} (hn : numBytes < 2 ^ 31)
    (hlow : -2 ^ 31 ≤ position)
    (hok : f.writeAt uninit d source numBytes position = .ok (result, disk')) :
    ∀ x, x ∉ d.dataList t → disk' x = d x := by
  have hlength := (h.fileHeader t ht).1
  have hlisted : (d.header t).listed ≤ 30 := Nat.min_le_right _ _
  have hobj := mem_objects_of_file (L := L) ht
  rw [← FileHeader.SameObject.numBytes hopen] at hlength
  obtain ⟨-, rfl⟩ | ⟨hpos, hzero, hinside, hsum⟩ :=
    OpenFile.writeAt_eq_ok hn hlow (by omega) hok
  · exact fun x _ => rfl
  · obtain ⟨n, rfl⟩ := Int.eq_ofNat_of_zero_le hpos.le
    obtain ⟨pos, rfl⟩ := Int.eq_ofNat_of_zero_le hzero
    have hlist := hopen.sectorList hlisted
    have hnodup := (List.nodup_cons.mp (h.nodup t hobj)).2
    rw [Disk.dataList, ← hlist] at hnodup
    obtain ⟨disk₁, hwrite, hframe, -⟩ := f.writeAt_of_nodup uninit d source n pos
      (m := (d.header t).listed) (fun _ => by omega)
      (hopen.inRange hlisted (h.inRange t hobj).2) (by omega)
      (by simp only [OpenFile.transferred]; omega) hnodup
    rw [hwrite] at hok
    cases hok
    rw [hlist] at hframe
    exact hframe

/-- The sectors of the directory and of the free map are different. -/
theorem dirData_ne_mapData (h : Consistent d L) (hc : c ∈ L.dirs) {i : ℕ} (hi : i < 2) :
    d.dataSector c i ≠ d.dataSector 0 0 := by
  refine h.data_ne_data (mem_objects_of_dir hc) zero_mem_objects ?_ (h.dirData_mem hc hi)
    h.mapData_mem
  rintro rfl
  exact h.zero_notMem.1 hc

end Consistent

/-- The directory `c` and the free map of `d`, as written over `disk`. -/
structure Disk.Flushed (d : Disk) (c : ℕ) (disk : Disk) (dir : Directory) (map : BitMap)
    (disk' : Disk) : Prop where
  frame : ∀ x, x ≠ d.dataSector c 0 → x ≠ d.dataSector c 1 → x ≠ d.dataSector 0 0 →
    disk' x = disk x
  dirBytes : ∀ k < 200, OpenFile.fileBytes disk' (d.header c) k = dir.table k
  mapBytes : ∀ k < 128, OpenFile.fileBytes disk' (d.header 0) k = map.map k

namespace Disk.Flushed

variable {d disk disk' : Disk} {L : Layout} {c : ℕ} {dir : Directory} {map : BitMap}

/-- The directory read back. -/
theorem table (hflush : d.Flushed c disk dir map disk') (hheader : disk' c = d c) {k : ℕ}
    (hk : k < 200) : (disk'.dirTable c).table k = dir.table k := by
  simp only [Disk.dirTable, Disk.bytes, Disk.header_congr hheader]
  exact hflush.dirBytes k hk

/-- The directory read back, entry by entry. -/
theorem sameTable (hflush : d.Flushed c disk dir map disk') (hheader : disk' c = d c)
    {dir' : Directory} (same : dir.SameTable dir') (hsize : dir'.tableSize = 10) :
    (disk'.dirTable c).SameTable dir' := by
  refine ⟨hsize.symm, fun i hi k hk => ?_⟩
  rw [hflush.table hheader (by omega)]
  exact same.sameEntry i hi k hk

/-- The directory read back through the header it had. -/
theorem dirThrough (hflush : d.Flushed c disk dir map disk') (hsize : dir.tableSize = 10) :
    (d.dirThrough c disk').SameTable dir := by
  refine ⟨hsize.symm, fun i hi k hk => ?_⟩
  exact hflush.dirBytes _ (by omega)

/-- The free map read back through the header it had. -/
theorem mapThrough (hflush : d.Flushed c disk dir map disk') {x : ℕ} (hx : x < 1024) :
    (d.mapThrough disk').testBit x = map.testBit x :=
  BitMap.testBit_congr (Mem.word_congr fun k hk => hflush.mapBytes _ (by omega))

/-- The free map read back. -/
theorem testBit (hflush : d.Flushed c disk dir map disk') (hheader : disk' 0 = d 0) {x : ℕ}
    (hx : x < 1024) : disk'.freeMap.testBit x = map.testBit x := by
  refine BitMap.testBit_congr (Mem.word_congr fun k hk => ?_)
  simp only [Disk.freeMap, Disk.bytes, Disk.header_congr hheader]
  exact hflush.mapBytes _ (by omega)

end Disk.Flushed

/-- The file system works on a disk consistent with `L`, and the calling thread is
in the directory with header sector `c`. -/
structure FileSystem.Valid (fs : FileSystem) (L : Layout) (c : ℕ) : Prop where
  consistent : Consistent fs.disk L
  mapFile : fs.freeMapFile.OpenedOn fs.disk 0
  current_mem : c ∈ L.dirs
  current : fs.currentDirectory.OpenedOn fs.disk c

namespace FileSystem.Valid

variable {fs : FileSystem} {L : Layout} {c : ℕ}

theorem fetchCurrentDirectory (hfs : fs.Valid L c) (uninit : Mem) :
    ∃ dir, fs.fetchCurrentDirectory uninit = .ok dir ∧ dir.SameTable (fs.disk.dirTable c) :=
  hfs.consistent.fetchDirectory hfs.current_mem hfs.current uninit

theorem fetchFreeMap (hfs : fs.Valid L c) (uninit : Mem) :
    ∃ map, fs.fetchFreeMap uninit = .ok map ∧ map.numBits = 1024 ∧
      ∀ x < 1024, map.testBit x = fs.disk.freeMap.testBit x :=
  hfs.consistent.fetchFreeMap hfs.mapFile uninit fs.disk

/-- The current directory, read from another disk through the header in memory. -/
theorem fetchCurrentDirectory_on (hfs : fs.Valid L c) (uninit : Mem) (disk : Disk) :
    ∃ dir, ({ fs with disk := disk } : FileSystem).fetchCurrentDirectory uninit = .ok dir ∧
      dir.SameTable (fs.disk.dirThrough c disk) :=
  hfs.current.fetchThrough uninit disk (hfs.consistent.dirHeader c hfs.current_mem).1
    (hfs.consistent.dir_sectorList hfs.current_mem).1

/-- The free map, read from another disk through the header in memory. -/
theorem fetchFreeMap_on (hfs : fs.Valid L c) (uninit : Mem) (disk : Disk) :
    ∃ map, ({ fs with disk := disk } : FileSystem).fetchFreeMap uninit = .ok map ∧
      map.numBits = 1024 ∧ ∀ x < 1024, map.testBit x = (fs.disk.mapThrough disk).testBit x :=
  hfs.consistent.fetchFreeMap hfs.mapFile uninit disk

/-- The file system on the changed disk, with the directory it is in still there. -/
theorem of_disk (hfs : fs.Valid L c) {L' : Layout} {disk' : Disk} (h : Consistent disk' L')
    (hc : c ∈ L'.dirs) (hzero : disk' 0 = fs.disk 0) (hcurrent : disk' c = fs.disk c) :
    ({ fs with disk := disk' } : FileSystem).Valid L' c :=
  ⟨h, hfs.mapFile.congr hzero, hc, hfs.current.congr hcurrent⟩

variable (dir : Directory) (map : BitMap)

/-- Flushing the directory and then the free map, as the creations do. -/
theorem flush (hfs : fs.Valid L c) (u u' : Mem) (disk : Disk) (hdir : dir.tableSize = 10)
    (hmap : map.numBits = 1024) : ∃ disk₁ disk', dir.writeBack u disk fs.currentDirectory = .ok disk₁ ∧
      map.writeBack u' disk₁ fs.freeMapFile = .ok disk' ∧ fs.disk.Flushed c disk dir map disk' := by
  have h := hfs.consistent
  obtain ⟨disk₁, hwrite₁, hframe₁, hdata₁⟩ := h.writeDirectory hfs.current_mem hfs.current u disk hdir
  obtain ⟨disk', hwrite, hframe, hdata⟩ := h.writeFreeMap hfs.mapFile u' disk₁ hmap
  refine ⟨disk₁, disk', hwrite₁, hwrite, ⟨fun x hzero hone hmapx => ?_, fun k hk => ?_, hdata⟩⟩
  · rw [hframe x hmapx, hframe₁ x hzero hone]
  · have hsector := hframe _ (h.dirData_ne_mapData hfs.current_mem (show k / 128 < 2 by omega))
    rw [← hdata₁ k hk]
    exact congrFun hsector _

/-- Flushing the free map and then the directory, as the removals do. -/
theorem flush_map_first (hfs : fs.Valid L c) (u u' : Mem) (disk : Disk) (hdir : dir.tableSize = 10)
    (hmap : map.numBits = 1024) : ∃ disk₁ disk', map.writeBack u disk fs.freeMapFile = .ok disk₁ ∧
      dir.writeBack u' disk₁ fs.currentDirectory = .ok disk' ∧
      fs.disk.Flushed c disk dir map disk' := by
  have h := hfs.consistent
  obtain ⟨disk₁, hwrite₁, hframe₁, hdata₁⟩ := h.writeFreeMap hfs.mapFile u disk hmap
  obtain ⟨disk', hwrite, hframe, hdata⟩ :=
    h.writeDirectory hfs.current_mem hfs.current u' disk₁ hdir
  refine ⟨disk₁, disk', hwrite₁, hwrite, ⟨fun x hzero hone hmapx => ?_, hdata, fun k hk => ?_⟩⟩
  · rw [hframe x hzero hone, hframe₁ x hmapx]
  · have hsector := hframe (fs.disk.dataSector 0 0)
      (h.dirData_ne_mapData hfs.current_mem (show 0 < 2 by omega)).symm
      (h.dirData_ne_mapData hfs.current_mem (show 1 < 2 by omega)).symm
    rw [← hdata₁ k hk, OpenFile.fileBytes, OpenFile.fileBytes, show k / 128 = 0 by omega]
    exact congrFun hsector _

end FileSystem.Valid

end Nachos
