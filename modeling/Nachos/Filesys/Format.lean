/-
# A freshly formatted disk

Formatting takes the first five sectors, whatever the disk held: the two headers,
one data sector for the free map and two for the root directory, which holds only
its special entries.
-/

import Nachos.Filesys.Creation
import Nachos.Filesys.Path
import Nachos.Filesys.Removal

namespace Nachos

open Base

/-- The layout of a formatted disk: the root directory and no file. -/
def Layout.initial : Layout := ⟨{1}, ∅⟩

/-- What a formatted disk looks like, apart from being consistent. -/
structure Disk.Formatted (d : Disk) : Prop where
  map : (d.header 0).numBytes = 128 ∧ (d.header 0).numSectors = 1 ∧
    (d.header 0).dataSectors 0 = 2
  root : (d.header 1).numBytes = 200 ∧ (d.header 1).numSectors = 2 ∧
    (d.header 1).dataSectors 0 = 3 ∧ (d.header 1).dataSectors 1 = 4
  marks : ∀ x < 1024, d.freeMap.testBit x = decide (x < 5)
  table : (d.dirTable 1).OnlySpecial 1 1

namespace Disk.Formatted

variable {d : Disk}

theorem owned_zero (h : d.Formatted) : d.owned 0 = [0, 2] := by
  simp [Disk.owned, Disk.dataList, FileHeader.listed, FileHeader.sectorList, h.map, List.range_succ]

theorem owned_one (h : d.Formatted) : d.owned 1 = [1, 3, 4] := by
  simp [Disk.owned, Disk.dataList, FileHeader.listed, FileHeader.sectorList, h.root,
    List.range_succ]

theorem not_childEntry (h : d.Formatted) (i : ℕ) : ¬ d.ChildEntry 1 i := by
  rintro ⟨hlow, hhigh, hinUse⟩
  rw [h.table.unused i hlow hhigh] at hinUse
  cases hinUse

/-- A formatted disk is consistent. -/
theorem consistent (h : d.Formatted) : Consistent d Layout.initial := by
  have hobjects {s : ℕ} (hs : s ∈ Layout.initial.objects) : s = 0 ∨ s = 1 := by
    simpa [Layout.initial, Layout.mem_objects] using hs
  have hdirs {s : ℕ} (hs : s ∈ Layout.initial.dirs) : s = 1 := Finset.mem_singleton.mp hs
  have hfiles {s : ℕ} (hs : s ∈ Layout.initial.files) : False := Finset.notMem_empty s hs
  exact
    { root_mem := Finset.mem_singleton_self 1
      zero_notMem := by simp [Layout.initial]
      kinds := fun s _ hs => hfiles hs
      inRange := by
        intro s hs
        rcases hobjects hs with rfl | rfl
        · refine ⟨by omega, fun i hi => ?_⟩
          simp only [FileHeader.listed, h.map] at hi
          rw [show i = 0 by omega, h.map.2.2]
          omega
        · refine ⟨by omega, fun i hi => ?_⟩
          simp only [FileHeader.listed, h.root] at hi
          rcases (by omega : i = 0 ∨ i = 1) with rfl | rfl
          · rw [h.root.2.2.1]
            omega
          · rw [h.root.2.2.2]
            omega
      nodup := by
        intro s hs
        rcases hobjects hs with rfl | rfl
        · rw [h.owned_zero]
          decide
        · rw [h.owned_one]
          decide
      separate := by
        intro s hs t ht hne
        rcases hobjects hs with rfl | rfl <;> rcases hobjects ht with rfl | rfl
        · exact absurd rfl hne
        · rw [h.owned_zero, h.owned_one]
          simp
        · rw [h.owned_zero, h.owned_one]
          simp
        · exact absurd rfl hne
      marked := by
        intro s hs x hx
        have hlt : x < 5 := by
          rcases hobjects hs with rfl | rfl
          · rw [h.owned_zero] at hx
            simp at hx
            omega
          · rw [h.owned_one] at hx
            simp at hx
            omega
        rw [h.marks x (by omega), decide_eq_true_eq]
        exact hlt
      mapHeader := ⟨h.map.1, h.map.2.1⟩
      dirHeader := by
        intro s hs
        rw [hdirs hs, h.root.1, FileHeader.listed, h.root.2.1]
        exact ⟨le_rfl, by decide⟩
      fileHeader := fun s hs => (hfiles hs).elim
      dot := by
        intro p hp
        rw [hdirs hp]
        exact h.table.dot
      dotDot := by
        intro p hp
        rw [hdirs hp]
        exact ⟨h.table.dotDot.1, h.table.dotDot.2.1⟩
      rootParent := h.table.dotDot.2.2
      child := by
        intro p hp j hj
        rw [hdirs hp] at hj
        exact absurd hj (h.not_childEntry j)
      names := by
        intro p hp j hj k hk hjUse hkUse hname
        rw [hdirs hp] at hjUse hkUse hname
        exact Consistent.eq_of_special h.table.dot.1 h.table.dotDot.1 h.not_childEntry hj hk hjUse
          hkUse hname
      unique := by
        intro p hp q hq j k hj
        rw [hdirs hp] at hj
        exact absurd hj (h.not_childEntry j)
      fileParent := fun s hs => (hfiles hs).elim
      dirParent := fun s hs hroot => absurd (hdirs hs) hroot
      acyclic := by
        refine ⟨fun _ => 0, fun p hp j hj => ?_⟩
        rw [hdirs hp] at hj
        exact absurd hj (h.not_childEntry j) }

end Disk.Formatted

namespace FileSystem

/-- The free map in memory once the two header sectors are taken. -/
theorem marks_headers (uninit : Mem) {x : ℕ} (hx : x < NumSectors) :
    (((BitMap.new uninit NumSectors).markBit FreeMapSector).markBit DirectorySector).testBit x =
      decide (x < 2) := by
  rw [BitMap.testBit_markBit, BitMap.testBit_markBit, BitMap.testBit_new uninit hx, Bool.or_false,
    ← Bool.decide_or, decide_eq_decide, FreeMapSector, DirectorySector]
  omega

/-- Both files of the file system flushed through the headers just written. -/
theorem flush_format (heap : Heap) (map : BitMap) (dir : Directory) {disk : Disk}
    {mapFile dirFile : OpenFile}
    (hmapOpen : mapFile.OpenedOn disk 0) (hdirOpen : dirFile.OpenedOn disk 1)
    (hmap : (disk.header 0).numBytes = 128 ∧ (disk.header 0).dataSectors 0 = 2)
    (hdir : (disk.header 1).numBytes = 200 ∧ (disk.header 1).dataSectors 0 = 3 ∧
      (disk.header 1).dataSectors 1 = 4)
    (hbits : map.numBits = 1024) (hsize : dir.tableSize = 10) :
    ∃ disk₁ disk', map.writeBack (heap 6) disk mapFile = .ok disk₁ ∧
      dir.writeBack (heap 7) disk₁ dirFile = .ok disk' ∧
      (∀ x, x ≠ 2 → x ≠ 3 → x ≠ 4 → disk' x = disk x) ∧
      (∀ k < 128, OpenFile.fileBytes disk' (disk.header 0) k = map.map k) ∧
      ∀ k < 200, OpenFile.fileBytes disk' (disk.header 1) k = dir.table k := by
  have hmapList : mapFile.hdr.sectorList 1 = [2] := by
    rw [hmapOpen.sectorList (by omega)]
    simp [FileHeader.sectorList, hmap.2]
  have hdirList : dirFile.hdr.sectorList 2 = [3, 4] := by
    rw [hdirOpen.sectorList (by omega)]
    simp [FileHeader.sectorList, hdir.2, List.range_succ]
  have hwords : map.numWords * 4 = (128 : ℕ) := by
    rw [BitMap.numWords, hbits]
    decide
  obtain ⟨disk₁, hwrite₁, hframe₁, hdata₁⟩ := mapFile.writeAt_zero (heap 6) disk map.map
    (n := 128) (m := 1) (by omega) (by omega)
    (by rw [FileHeader.SameObject.numBytes hmapOpen, hmap.1]; omega)
    (hmapOpen.inRange (by omega) fun i hi => by
      rw [show i = 0 by omega, hmap.2]
      omega)
    (by rw [hmapList]; simp)
  obtain ⟨disk', hwrite, hframe, hdata⟩ := dirFile.writeAt_zero (heap 7) disk₁ dir.table
    (n := 200) (m := 2) (by omega) (by omega)
    (by rw [FileHeader.SameObject.numBytes hdirOpen, hdir.1]; omega)
    (hdirOpen.inRange (by omega) fun i hi => by
      rcases (by omega : i = 0 ∨ i = 1) with rfl | rfl
      · rw [hdir.2.1]
        omega
      · rw [hdir.2.2]
        omega)
    (by rw [hdirList]; simp)
  rw [hmapList] at hframe₁
  rw [hdirList] at hframe
  refine ⟨disk₁, disk', ?_, ?_, fun x htwo hthree hfour => ?_, fun k hk => ?_, fun k hk => ?_⟩
  · rw [BitMap.writeBack, hwords]
    exact hwrite₁
  · rw [Directory.writeBack, hsize]
    exact hwrite
  · rw [hframe x (by simp [hthree, hfour]), hframe₁ x (by simp [htwo])]
  · rw [← hdata₁ k hk, hmapOpen.fileBytes (by omega)]
    simp only [OpenFile.fileBytes, show k / 128 = 0 by omega, hmap.2]
    rw [hframe _ (by simp)]
  · rw [← hdata k hk, hdirOpen.fileBytes (by omega)]

/-- The formatted disk, from what was in memory when it was written. -/
theorem formatted_of_flush {disk disk' : Disk} {map : BitMap} {dir : Directory}
    (hmap : (disk.header 0).numBytes = 128 ∧ (disk.header 0).numSectors = 1 ∧
      (disk.header 0).dataSectors 0 = 2)
    (hroot : (disk.header 1).numBytes = 200 ∧ (disk.header 1).numSectors = 2 ∧
      (disk.header 1).dataSectors 0 = 3 ∧ (disk.header 1).dataSectors 1 = 4)
    (hmarks : ∀ x < 1024, map.testBit x = decide (x < 5)) (hsize : dir.tableSize = 10)
    (htable : dir.OnlySpecial 1 1) (hzero : disk' 0 = disk 0) (hone : disk' 1 = disk 1)
    (hmapBytes : ∀ k < 128, OpenFile.fileBytes disk' (disk.header 0) k = map.map k)
    (hdirBytes : ∀ k < 200, OpenFile.fileBytes disk' (disk.header 1) k = dir.table k) :
    disk'.Formatted := by
  refine ⟨?_, ?_, fun x hx => ?_, ?_⟩
  · rw [Disk.header_congr hzero]
    exact hmap
  · rw [Disk.header_congr hone]
    exact hroot
  · rw [← hmarks x hx]
    refine BitMap.testBit_congr (Mem.word_congr fun k hk => ?_)
    simp only [Disk.freeMap, Disk.bytes, Disk.header_congr hzero]
    exact hmapBytes _ (by omega)
  · have same (i : ℕ) (hi : i < 10) : (disk'.dirTable 1).SameEntry dir i := by
      intro k hk
      simp only [Disk.dirTable, Disk.bytes, Disk.header_congr hone]
      exact hdirBytes _ (by omega)
    exact htable.congr (show 2 ≤ 10 by omega) (show 10 ≤ dir.tableSize by omega) same

/-- **Formatting** succeeds on every disk; the sectors from the sixth on keep their
bytes. -/
theorem format_eq_ok (heap : Heap) (disk : Disk) (tableMemory : ℕ → Option OpenFileEntry) :
    ∃ fs, format heap disk tableMemory = .ok fs ∧ fs.disk.Formatted ∧
      fs.Valid Layout.initial 1 ∧ fs.fileTable = OpenFileTable.new tableMemory ∧
      ∀ x, 5 ≤ x → fs.disk x = disk x := by
  have hsectors : NumSectors = 1024 := rfl
  obtain ⟨dir, hspecial, hsize, htable⟩ := Directory.addSpecialDir_new (heap 1)
    (show 2 ≤ NumDirEntries by decide) (DirectorySector : ℕ) (DirectorySector : ℕ) (by decide)
    (by decide)
  obtain ⟨mapHdr, map₁, halloc₁, hbytes₁, hsectors₁, hdata₁, hbits₁, hmarks₁⟩ :=
    (FileHeader.new (heap 2)).allocate_contiguous
      (((BitMap.new (heap 0) NumSectors).markBit FreeMapSector).markBit DirectorySector)
      (FreeMapFileSize : ℕ) (m := 2) (n := 1)
      (by rw [BitMap.numBits_markBit, BitMap.numBits_markBit, BitMap.numBits_new, hsectors]
          norm_num) (by decide) (by decide)
      (fun x hx => marks_headers _ (by
        rwa [BitMap.numBits_markBit, BitMap.numBits_markBit, BitMap.numBits_new] at hx))
      (by decide) (by
        rw [BitMap.numBits_markBit, BitMap.numBits_markBit, BitMap.numBits_new, hsectors]
        norm_num)
  rw [BitMap.numBits_markBit, BitMap.numBits_markBit, BitMap.numBits_new, hsectors] at hbits₁ hmarks₁
  obtain ⟨dirHdr, map₂, halloc₂, hbytes₂, hsectors₂, hdata₂, hbits₂, hmarks₂⟩ :=
    (FileHeader.new (heap 3)).allocate_contiguous map₁ (DirectoryFileSize : ℕ) (m := 3)
      (n := 2) (by omega) (by decide) (by decide)
      (fun x hx => hmarks₁ x (by rwa [hbits₁] at hx)) (by decide) (by omega)
  rw [hbits₁] at hbits₂ hmarks₂
  have hput₁ : mapHdr.writeBack disk FreeMapSector = .ok (disk.put 0 mapHdr.mem) :=
    Disk.writeSector_of_lt disk mapHdr.mem (n := 0) (by omega) (by omega)
  have hput₂ : dirHdr.writeBack (disk.put 0 mapHdr.mem) DirectorySector =
      .ok ((disk.put 0 mapHdr.mem).put 1 dirHdr.mem) :=
    Disk.writeSector_of_lt _ dirHdr.mem (n := 1) (by omega) (by omega)
  have hmapHdr : (((disk.put 0 mapHdr.mem).put 1 dirHdr.mem).header 0).SameObject mapHdr :=
    ⟨fun k hk => by
      simp only [Disk.header]
      rw [Disk.put_of_ne _ _ (by omega), Disk.put_self _ _ _ hk]⟩
  have hdirHdr : (((disk.put 0 mapHdr.mem).put 1 dirHdr.mem).header 1).SameObject dirHdr :=
    ⟨fun k hk => by
      simp only [Disk.header]
      rw [Disk.put_self _ _ _ hk]⟩
  have hsame (x : ℕ) (hx : 5 ≤ x) : (disk.put 0 mapHdr.mem).put 1 dirHdr.mem x = disk x := by
    rw [Disk.put_of_ne _ _ (by omega), Disk.put_of_ne _ _ (by omega)]
  generalize (disk.put 0 mapHdr.mem).put 1 dirHdr.mem = disk₂ at hput₂ hmapHdr hdirHdr hsame
  obtain ⟨mapFile, hopen₁, hmapOpen, -⟩ :=
    OpenFile.new_of_lt (heap 4) disk₂ (s := FreeMapSector) (by decide)
  obtain ⟨dirFile, hopen₂, hdirOpen, -⟩ :=
    OpenFile.new_of_lt (heap 5) disk₂ (s := DirectorySector) (by decide)
  have hmap : (disk₂.header 0).numBytes = 128 ∧ (disk₂.header 0).numSectors = 1 ∧
      (disk₂.header 0).dataSectors 0 = 2 := by
    rw [hmapHdr.numBytes, hmapHdr.numSectors, hmapHdr.dataSectors (by omega)]
    exact ⟨hbytes₁, hsectors₁, hdata₁ 0 (by omega)⟩
  have hroot : (disk₂.header 1).numBytes = 200 ∧ (disk₂.header 1).numSectors = 2 ∧
      (disk₂.header 1).dataSectors 0 = 3 ∧ (disk₂.header 1).dataSectors 1 = 4 := by
    rw [hdirHdr.numBytes, hdirHdr.numSectors, hdirHdr.dataSectors (by omega),
      hdirHdr.dataSectors (by omega)]
    exact ⟨hbytes₂, hsectors₂, hdata₂ 0 (by omega), hdata₂ 1 (by omega)⟩
  obtain ⟨disk₃, disk', hwrite₁, hwrite, hframe, hmapBytes, hdirBytes⟩ :=
    flush_format heap map₂ dir hmapOpen hdirOpen ⟨hmap.1, hmap.2.2⟩ ⟨hroot.1, hroot.2.2⟩
      hbits₂ hsize
  have hzero : disk' 0 = disk₂ 0 := hframe 0 (by omega) (by omega) (by omega)
  have hone : disk' 1 = disk₂ 1 := hframe 1 (by omega) (by omega) (by omega)
  have hformatted : disk'.Formatted := formatted_of_flush hmap hroot hmarks₂ hsize htable hzero
    hone hmapBytes hdirBytes
  refine ⟨⟨disk', mapFile, dirFile, dirFile, OpenFileTable.new tableMemory⟩, ?_, hformatted,
    ⟨hformatted.consistent, hmapOpen.congr hzero, Finset.mem_singleton_self 1,
      hdirOpen.congr hone⟩, rfl, fun x hx => ?_⟩
  · have hmark₀ := (BitMap.new (heap 0) NumSectors).mark_of_lt (i := FreeMapSector) (by
      rw [BitMap.numBits_new]
      decide)
    have hmark₁ := ((BitMap.new (heap 0) NumSectors).markBit FreeMapSector).mark_of_lt
      (i := DirectorySector) (by
        rw [BitMap.numBits_markBit, BitMap.numBits_new]
        decide)
    simp only [format, hspecial, hmark₀, hmark₁, Except.ok_bind, halloc₁, halloc₂,
      hput₁, hput₂, hopen₁, hopen₂, hwrite₁, hwrite]
    rfl
  · exact (hframe x (by omega) (by omega) (by omega)).trans (hsame x hx)

/-! ## The first file -/

namespace Valid

variable {fs : FileSystem} {name : Name}

/-- **The first file on a formatted disk** gets sector 5 for its header and those
behind it for its data. -/
theorem createFile_of_formatted (hfs : fs.Valid Layout.initial 1) (hformatted : fs.disk.Formatted)
    (heap : Heap) (name : Name) (size : ℕ) (hname : IsComponent name)
    (hdot : Mem.strnEqual (Mem.ofString Directory.dot) (Mem.ofString name) 9 = false)
    (hdotDot : Mem.strnEqual (Mem.ofString Directory.dotDot) (Mem.ofString name) 9 = false)
    (hsize : size ≤ 3840) :
    ∃ i disk', fs.createFile heap name size = .ok (true, { fs with disk := disk' }) ∧
      fs.disk.Inserted disk' Layout.initial 1 5 i name false ∧
      (disk'.header 5).numBytes = size ∧ (disk'.header 5).numSectors = divRoundUp size 128 ∧
      (∀ k < (divRoundUp size 128).toNat, disk'.dataSector 5 k = 6 + k ∧
        disk' (6 + k) = fs.disk (6 + k)) ∧
      ∀ x < 1024, disk'.freeMap.testBit x =
        (fs.disk.freeMap.testBit x || decide (x ∈ disk'.owned 5)) := by
  have hcount : divRoundUp size 128 ≤ 30 := by
    have hdiv := Int.mul_tdiv_add_tmod size 128
    have hmore := Int.lt_tmod_of_pos size (show (0 : ℤ) < 128 by norm_num)
    simp only [divRoundUp]
    split <;> omega
  obtain ⟨i, disk', hok, hrest⟩ := hfs.createFile_contiguous heap name size 5 hsize (by omega)
    hformatted.marks (hformatted.table.findIndex hdot hdotDot)
    ⟨2, by omega, hformatted.table.unused 2 (by omega) (show 2 < 10 by omega)⟩
  refine ⟨i, disk', ?_, hrest⟩
  rw [createFile, atPath_of_component hname, hok]
  rfl

/-- Removing it again leaves a formatted disk, with its bytes still in its sectors. -/
theorem removeFile_of_formatted (hfs : fs.Valid Layout.initial 1) (hformatted : fs.disk.Formatted)
    (heap : Heap) (hname : IsComponent name) {disk₁ : Disk} {n i : ℕ}
    (ins : fs.disk.Inserted disk₁ Layout.initial 1 n i name false)
    (hmarks : ∀ x < 1024, disk₁.freeMap.testBit x =
      (fs.disk.freeMap.testBit x || decide (x ∈ disk₁.owned n))) :
    ∃ disk₂, ({ fs with disk := disk₁ } : FileSystem).removeFile heap name =
        .ok (true, { fs with disk := disk₂ }) ∧
      disk₂.Formatted ∧ ({ fs with disk := disk₂ } : FileSystem).Valid Layout.initial 1 ∧
      ∀ x ∈ disk₁.owned n, disk₂ x = disk₁ x := by
  have h := hfs.consistent
  have hroot := hfs.current_mem
  have hfs₁ := hfs.of_inserted ins
  have hn : n ∈ (Layout.initial.insert n false).objects :=
    Consistent.mem_objects_of_file (Layout.mem_files_insert.mpr (Or.inr ⟨rfl, rfl⟩))
  obtain ⟨t, ht, disk₂, hok, rem, hmarks₂⟩ :=
    hfs₁.removeFile_of_file heap ins.findIndex (Consistent.isDirectory_new ins)
  have htarget : t = n := by
    have hsector := rem.target
    rw [Consistent.sector_new ins] at hsector
    exact_mod_cast hsector.symm
  subst htarget
  have hheader₁ {s : ℕ} (hs : s ∈ Layout.initial.objects) : disk₁ s = fs.disk s :=
    h.header_frame hroot ins.frame hs
  have hheader₂ {s : ℕ} (hs : s ∈ Layout.initial.objects) : disk₂ s = fs.disk s :=
    (hfs₁.consistent.header_frame hfs₁.current_mem rem.frame
      (Layout.mem_objects_insert.mpr (Or.inl hs))).trans (hheader₁ hs)
  have hone : 1 ∈ Layout.initial.objects := Consistent.mem_objects_of_dir hroot
  have hslot := ins.slot.1
  have hlow := Consistent.two_le_slot h hroot ins
  have hformatted₂ : disk₂.Formatted := by
    refine ⟨?_, ?_, fun x hx => ?_, ?_⟩
    · rw [Disk.header_congr (hheader₂ Consistent.zero_mem_objects)]
      exact hformatted.map
    · rw [Disk.header_congr (hheader₂ hone)]
      exact hformatted.root
    · rw [hmarks₂ x hx, hmarks x hx, hformatted.marks x hx]
      by_cases hmem : x ∈ disk₁.owned t
      · have hfree := ins.wasFree x hmem
        rw [hformatted.marks x hx, decide_eq_false_iff_not] at hfree
        simp [hmem, hfree]
      · simp [hmem]
    · have hsame (j : ℕ) (hj : j < 10) (hne : j ≠ i) :
          (disk₂.dirTable 1).SameEntry (fs.disk.dirTable 1) j := fun k hk =>
        (hfs₁.consistent.sameEntry_removed hfs₁.current_mem rem hfs₁.current_mem hj
          (fun hcase => hne hcase.2) k hk).trans
          (h.sameEntry_inserted hroot ins hroot hj (fun hcase => hne hcase.2) k hk)
      have htable := hformatted.table
      refine ⟨?_, ?_, fun j hj hlt => ?_⟩
      · rw [(hsame 0 (by omega) (by omega)).matchesName, (hsame 0 (by omega) (by omega)).isDirectory,
          (hsame 0 (by omega) (by omega)).sector]
        exact htable.dot
      · rw [(hsame 1 (by omega) (by omega)).matchesName, (hsame 1 (by omega) (by omega)).isDirectory,
          (hsame 1 (by omega) (by omega)).sector]
        exact htable.dotDot
      · by_cases hequal : j = i
        · rw [hequal]
          exact Consistent.inUse_removed rem
        · rw [(hsame j hlt hequal).inUse]
          exact htable.unused j hj hlt
  refine ⟨disk₂, ?_, hformatted₂, hfs.of_disk hformatted₂.consistent hroot
    (hheader₂ Consistent.zero_mem_objects) (hheader₂ hone), fun x hx => ?_⟩
  · rw [removeFile, atPath_of_component hname, hok]
    rfl
  · obtain ⟨hne, hzero, -⟩ := Consistent.target_mem hfs₁.consistent hfs₁.current_mem rem
    rcases List.mem_cons.mp hx with rfl | hx
    · exact hfs₁.consistent.header_frame hfs₁.current_mem rem.frame hn
    · exact hfs₁.consistent.data_frame hfs₁.current_mem rem.frame hn hne hzero hx

end Valid

end FileSystem

end Nachos
