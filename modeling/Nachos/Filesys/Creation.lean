/-
# Creating files and directories

Both creations first do everything in memory: they take a sector for the header,
enter the name, and take the data sectors. `Reserved` says what memory holds at
that point; only then is anything written.
-/

import Nachos.Filesys.Operations

namespace Nachos

open Base

/-- What a creation in the directory `c` of `d` has prepared in memory: the header
sector `n`, the slot `i`, and the directory, the header and the free map that are
about to be written. -/
structure Disk.Reserved (d : Disk) (c : ℕ) (name : Name) (isDir : Bool) (size : ℤ) (n i : ℕ)
    (dir : Directory) (hdr : FileHeader) (map : BitMap) : Prop where
  headerLeast : ∀ x < n, d.freeMap.testBit x = true
  slot : i < 10 ∧ (d.dirTable c).inUse i = false
  fresh : ∀ j < 10, (d.dirTable c).matchesName name j = false
  dirTable : dir.SameTable ((d.dirTable c).add name isDir i n)
  numBits : map.numBits = 1024
  numBytes : hdr.numBytes = size
  numSectors : hdr.numSectors = divRoundUp size 128
  nonneg : ∀ k < (divRoundUp size 128).toNat, 0 ≤ hdr.dataSectors k
  nodup : (n :: hdr.sectorList (divRoundUp size 128).toNat).Nodup
  wasFree : ∀ x ∈ n :: hdr.sectorList (divRoundUp size 128).toNat,
    x < 1024 ∧ d.freeMap.testBit x = false
  marks : ∀ x < 1024, map.testBit x =
    (d.freeMap.testBit x || decide (x ∈ n :: hdr.sectorList (divRoundUp size 128).toNat))
  firstFit : ∀ k < (divRoundUp size 128).toNat, ∀ x < (hdr.dataSectors k).toNat,
    d.freeMap.testBit x = true ∨ x = n ∨ x ∈ hdr.sectorList k

namespace Disk.Reserved

/-- The successful branch of the tests both creations make. -/
theorem of_steps {d : Disk} {c n i : ℕ} {name : Name} (isDir : Bool) {size : ℤ}
    {dir : Directory} {map : BitMap} (hdir : dir.SameTable (d.dirTable c))
    (hbits : map.numBits = 1024) (hmap : ∀ x < 1024, map.testBit x = d.freeMap.testBit x)
    (hn : n < 1024) (hclear : map.testBit n = false) (hleast : ∀ x < n, map.testBit x = true)
    (hi : i < 10) (hslot : dir.inUse i = false) (hfresh : dir.findIndex name = none)
    {h₀ hdr : FileHeader} {map' : BitMap}
    (done : FileHeader.Allocated h₀ (map.markBit n) (divRoundUp size 128).toNat hdr map')
    (hbytes : hdr.numBytes = size) (hsectors : hdr.numSectors = divRoundUp size 128) :
    d.Reserved c name isDir size n i (dir.add name isDir i n) hdr map' := by
  have hfree (x : ℕ) (hx : x ∈ hdr.sectorList (divRoundUp size 128).toNat) :
      x < 1024 ∧ x ≠ n ∧ d.freeMap.testBit x = false := by
    obtain ⟨hlt, htest⟩ := done.wasClear x hx
    rw [BitMap.numBits_markBit, hbits] at hlt
    rw [BitMap.testBit_markBit, Bool.or_eq_false_iff, decide_eq_false_iff_not, hmap x hlt] at htest
    exact ⟨hlt, htest⟩
  refine
    { headerLeast := fun x hx => ?_
      slot := ⟨hi, ?_⟩
      fresh := fun j hj => ?_
      dirTable := hdir.add name isDir i n
      numBits := done.numBits.trans hbits
      numBytes := hbytes
      numSectors := hsectors
      nonneg := done.nonneg
      nodup := List.nodup_cons.mpr ⟨fun hmem => (hfree n hmem).2.1 rfl, done.nodup⟩
      wasFree := fun x hx => ?_
      marks := fun x hx => ?_
      firstFit := fun k hk x hx => ?_ }
  · rw [← hmap x (by omega)]
    exact hleast x hx
  · rw [← (hdir.sameEntry i hi).inUse]
    exact hslot
  · rw [← (hdir.sameEntry j hj).matchesName]
    exact Directory.findIndex_eq_none.mp hfresh j (hdir.tableSize ▸ hj)
  · rcases List.mem_cons.mp hx with rfl | hx
    · exact ⟨hn, hmap x hn ▸ hclear⟩
    · exact ⟨(hfree x hx).1, (hfree x hx).2.2⟩
  · rw [done.marks, BitMap.testBit_markBit, hmap x hx]
    by_cases hequal : x = n <;> simp [hequal]
  · rcases done.firstFit k hk x hx with hmarked | hlisted
    · rw [BitMap.testBit_markBit, Bool.or_eq_true, decide_eq_true_eq] at hmarked
      rcases hmarked with rfl | hmarked
      · exact Or.inr (Or.inl rfl)
      · by_cases hlt : x < 1024
        · exact Or.inl (hmap x hlt ▸ hmarked)
        · have hbound := hfree (hdr.dataSectors k).toNat
            (FileHeader.mem_sectorList.mpr ⟨k, hk, rfl⟩)
          omega
    · exact Or.inr (Or.inr hlisted)

section

variable {d disk disk' : Disk} {L : Layout} {c n i : ℕ} {name : Name} {isDir : Bool} {size : ℤ}
  {dir : Directory} {hdr : FileHeader} {map : BitMap}
  (res : d.Reserved c name isDir size n i dir hdr map)

include res in
theorem header_range : n < 1024 ∧ d.freeMap.testBit n = false :=
  res.wasFree n List.mem_cons_self

include res in
/-- The header sector belongs to no object. -/
theorem ne_of_owned (h : Consistent d L) {s x : ℕ} (hs : s ∈ L.objects) (hx : x ∈ d.owned s) :
    n ≠ x := by
  rintro rfl
  have hfree := res.header_range.2
  rw [h.marked s hs n hx] at hfree
  cases hfree

include res in
/-- The flush leaves the header sector alone. -/
theorem flushed_header (h : Consistent d L) (hc : c ∈ L.dirs)
    (hflush : d.Flushed c disk dir map disk') : disk' n = disk n :=
  hflush.frame n
    (res.ne_of_owned h (Consistent.mem_objects_of_dir hc)
      (List.mem_cons_of_mem _ (h.dirData_mem hc (by omega))))
    (res.ne_of_owned h (Consistent.mem_objects_of_dir hc)
      (List.mem_cons_of_mem _ (h.dirData_mem hc (by omega))))
    (res.ne_of_owned h Consistent.zero_mem_objects (List.mem_cons_of_mem _ h.mapData_mem))

include res in
/-- The data sectors belong to no object either. -/
theorem data_ne_of_owned (h : Consistent d L) {s x k : ℕ} (hs : s ∈ L.objects) (hx : x ∈ d.owned s)
    (hk : k < (divRoundUp size 128).toNat) : (hdr.dataSectors k).toNat ≠ x := by
  rintro rfl
  have hfree := (res.wasFree _ (List.mem_cons_of_mem _
    (FileHeader.mem_sectorList.mpr ⟨k, hk, rfl⟩))).2
  rw [h.marked s hs _ hx] at hfree
  cases hfree

include res in
/-- Writing the header and flushing leave the data sectors alone. -/
theorem data_unchanged (h : Consistent d L) (hc : c ∈ L.dirs)
    (hflush : d.Flushed c (disk.put n hdr.mem) dir map disk') {k : ℕ}
    (hk : k < (divRoundUp size 128).toNat) :
    disk' (hdr.dataSectors k).toNat = disk (hdr.dataSectors k).toNat := by
  have hcobj := Consistent.mem_objects_of_dir (L := L) hc
  have hne : (hdr.dataSectors k).toNat ≠ n := fun hequal =>
    (List.nodup_cons.mp res.nodup).1 (hequal ▸ FileHeader.mem_sectorList.mpr ⟨k, hk, rfl⟩)
  rw [hflush.frame _
      (res.data_ne_of_owned h hcobj (List.mem_cons_of_mem _ (h.dirData_mem hc (by omega))) hk)
      (res.data_ne_of_owned h hcobj (List.mem_cons_of_mem _ (h.dirData_mem hc (by omega))) hk)
      (res.data_ne_of_owned h Consistent.zero_mem_objects
        (List.mem_cons_of_mem _ h.mapData_mem) hk),
    Disk.put_of_ne _ _ hne]

include res in
/-- The sectors the new header really lists. -/
theorem owned_eq (same : (disk'.header n).SameObject hdr) :
    disk'.owned n = n :: hdr.sectorList (min (divRoundUp size 128).toNat 30) := by
  have hlisted : (disk'.header n).listed = min (divRoundUp size 128).toNat 30 := by
    rw [FileHeader.listed, same.numSectors, res.numSectors]
  rw [Disk.owned, Disk.dataList, hlisted]
  congr 1
  exact FileHeader.sectorList_congr fun k hk => same.dataSectors (by omega)

include res in
theorem mem_of_owned (same : (disk'.header n).SameObject hdr) {x : ℕ} (hx : x ∈ disk'.owned n) :
    x ∈ n :: hdr.sectorList (divRoundUp size 128).toNat := by
  rw [res.owned_eq same] at hx
  rcases List.mem_cons.mp hx with rfl | hx
  · exact List.mem_cons_self
  · obtain ⟨k, hk, hequal⟩ := FileHeader.mem_sectorList.mp hx
    exact List.mem_cons_of_mem _ (FileHeader.mem_sectorList.mpr ⟨k, by omega, hequal⟩)

include res in
/-- **What a creation leaves on the disk.** The header is in place and the objects
there were are untouched when the directory and the free map are flushed. -/
theorem inserted (h : Consistent d L) (hc : c ∈ L.dirs) (hframe : d.Frame disk L c)
    (hheader : ∀ k < 128, disk n k = hdr.mem k) (hflush : d.Flushed c disk dir map disk')
    (hnew : disk'.NewObject c n isDir) : d.Inserted disk' L c n i name isDir := by
  have same : (disk'.header n).SameObject hdr := ⟨fun k hk => by
    simp only [Disk.header]
    rw [res.flushed_header h hc hflush]
    exact hheader k hk⟩
  have hframe' : d.Frame disk' L c := fun t ht x hx hzero hone hmap => by
    rw [hflush.frame x hzero hone hmap]
    exact hframe t ht x hx hzero hone hmap
  have hlisted : (disk'.header n).listed = min (divRoundUp size 128).toNat 30 := by
    rw [FileHeader.listed, same.numSectors, res.numSectors]
  refine
    { headerRange := res.header_range.1
      inRange := ?_
      nodup := ?_
      wasFree := fun x hx => (res.wasFree x (res.mem_of_owned same hx)).2
      slot := res.slot
      fresh := res.fresh
      frame := hframe'
      table := fun k hk => ?_
      marks := fun x hx hmark => ?_
      newObject := hnew }
  · intro k hk
    rw [hlisted] at hk
    have hlow := res.nonneg k (by omega)
    have hhigh := (res.wasFree (hdr.dataSectors k).toNat
      (List.mem_cons_of_mem _ (FileHeader.mem_sectorList.mpr ⟨k, by omega, rfl⟩))).1
    rw [same.dataSectors (by omega)]
    omega
  · rw [res.owned_eq same]
    refine res.nodup.sublist (List.Sublist.cons_cons n ?_)
    exact (List.range_sublist.mpr (Nat.min_le_left _ _)).map _
  · rw [hflush.table (h.header_frame hc hframe' (Consistent.mem_objects_of_dir hc)) hk]
    exact res.dirTable.table hk
  · rw [hflush.testBit (h.header_frame hc hframe' Consistent.zero_mem_objects) hx,
      res.marks x hx, Bool.or_eq_true, decide_eq_true_eq]
    exact hmark.imp id (res.mem_of_owned same)

include res in
/-- On a disk whose marked sectors are the first `m`, the header takes the next one
and the data those after it. -/
theorem contiguous {m : ℕ} (hmarks : ∀ x < 1024, d.freeMap.testBit x = decide (x < m)) :
    n = m ∧ ∀ k < (divRoundUp size 128).toNat, hdr.dataSectors k = (m + 1 + k : ℕ) := by
  have hlow (x : ℕ) (hx : x ∈ n :: hdr.sectorList (divRoundUp size 128).toNat) : m ≤ x := by
    obtain ⟨hlt, hclear⟩ := res.wasFree x hx
    rw [hmarks x hlt, decide_eq_false_iff_not] at hclear
    omega
  have hlist := FileHeader.eq_range_of_firstFit res.nodup hlow fun before a after hequal x hx => by
    have hlt := (res.wasFree a (by rw [hequal]; simp)).1
    have hmarked (hbit : d.freeMap.testBit x = true) : x < m := by
      rwa [hmarks x (by omega), decide_eq_true_eq] at hbit
    cases before with
    | nil =>
        obtain ⟨rfl, -⟩ := List.cons.inj hequal
        exact Or.inl (hmarked (res.headerLeast x hx))
    | cons b before =>
        obtain ⟨rfl, htail⟩ := List.cons.inj hequal
        obtain ⟨hindex, hbefore, hsector⟩ := FileHeader.sectorList_eq_append htail
        rw [hsector] at hx
        rcases res.firstFit _ hindex x hx with hbit | rfl | hmem
        · exact Or.inl (hmarked hbit)
        · exact Or.inr List.mem_cons_self
        · exact Or.inr (List.mem_cons_of_mem _ (hbefore ▸ hmem))
  rw [List.length_cons, List.range'_succ] at hlist
  obtain ⟨hn, hdata⟩ := List.cons.inj hlist
  refine ⟨hn, fun k hk => ?_⟩
  have hget := congrArg (fun l : List ℕ => l[k]?) hdata
  have hnonneg := res.nonneg k hk
  simp [FileHeader.sectorList, hk] at hget
  omega

end

end Disk.Reserved

/-- What a creation needs: a name not yet in the directory, a free slot in it, and
one sector more than the data takes. -/
structure Disk.HasRoom (d : Disk) (c : ℕ) (name : Name) (size : ℤ) : Prop where
  absent : (d.dirTable c).findIndex name = none
  slot : ∃ i < 10, (d.dirTable c).inUse i = false
  sectors : (divRoundUp size 128).toNat + 1 ≤ d.freeMap.numClear

/-- The tests both creations make, on the directory and the free map in memory: the
reasons to fail. -/
inductive Rejected (dir : Directory) (map : BitMap) (name : Name) (isDir : Bool) (size : ℤ)
    (uninit : Mem) : Prop
  | exists_already (h : dir.find name ≠ -1)
  | noHeader (h : dir.find name = -1) (hmap : map.find.1 = -1)
  | noSlot (h : dir.find name = -1) (hmap : map.find.1 ≠ -1)
      (hslot : (dir.addEntry name isDir map.find.1).1 = false)
  | noData (h : dir.find name = -1) (hmap : map.find.1 ≠ -1)
      (hslot : (dir.addEntry name isDir map.find.1).1 = true)
      (hdata : ((FileHeader.newZeroed uninit).allocate map.find.2 size).1 = false)

namespace Rejected

variable {dir : Directory} {map : BitMap} {name : Name} {isDir : Bool} {size : ℤ} {uninit : Mem}

/-- What holds when none of the tests fails. -/
theorem not_iff : ¬ Rejected dir map name isDir size uninit ↔
    dir.find name = -1 ∧ map.find.1 ≠ -1 ∧ (dir.addEntry name isDir map.find.1).1 = true ∧
      ((FileHeader.newZeroed uninit).allocate map.find.2 size).1 = true := by
  constructor
  · intro h
    have hname : dir.find name = -1 := by
      by_contra hname
      exact h (.exists_already hname)
    have hmap : map.find.1 ≠ -1 := fun hmap => h (.noHeader hname hmap)
    have hslot : (dir.addEntry name isDir map.find.1).1 = true := by
      by_contra hslot
      exact h (.noSlot hname hmap (by simpa using hslot))
    refine ⟨hname, hmap, hslot, ?_⟩
    by_contra hdata
    exact h (.noData hname hmap hslot (by simpa using hdata))
  · rintro ⟨hname, hmap, hslot, hdata⟩ h
    cases h with
    | exists_already h => exact h hname
    | noHeader _ h => exact hmap h
    | noSlot _ _ h =>
        rw [hslot] at h
        cases h
    | noData _ _ _ h =>
        rw [hdata] at h
        cases h

end Rejected

namespace FileSystem

variable {fs : FileSystem} {heap : Heap} {dir : Directory} {map : BitMap} {name : Name}

/-- `CreateFile` reports failure exactly when one of its tests fails. -/
theorem createFile_eq_false_iff {size : ℤ} (hfetch : fs.fetchCurrentDirectory (heap 0) = .ok dir)
    (hfetchMap : fs.fetchFreeMap (heap 1) = .ok map) :
    fs.createFileInCurrentDirectory heap name size = .ok (false, fs) ↔
      Rejected dir map name false size (heap 2) := by
  constructor
  · intro h
    by_contra hrejected
    obtain ⟨hname, hmap, hslot, hdata⟩ := Rejected.not_iff.mp hrejected
    simp only [createFileInCurrentDirectory, hfetch, Except.ok_bind, hname, ne_eq,
      not_true_eq_false, if_false, hfetchMap, hmap, Directory.addFile, hslot, hdata, Bool.not_true,
      Bool.false_eq_true, Except.bind_eq_ok] at h
    obtain ⟨_, _, _, _, _, _, h⟩ := h
    cases h
  · intro hrejected
    rw [createFileInCurrentDirectory, hfetch, Except.ok_bind]
    cases hrejected with
    | exists_already h => rw [if_pos h]; rfl
    | noHeader h hmap =>
        simp only [h, ne_eq, not_true_eq_false, if_false, hfetchMap, Except.ok_bind, hmap, if_true]
        rfl
    | noSlot h hmap hslot =>
        simp only [h, ne_eq, not_true_eq_false, if_false, hfetchMap, Except.ok_bind, hmap,
          Directory.addFile, hslot, Bool.not_false, if_true]
        rfl
    | noData h hmap hslot hdata =>
        simp only [h, ne_eq, not_true_eq_false, if_false, hfetchMap, Except.ok_bind, hmap,
          Directory.addFile, hslot, hdata, Bool.not_false, Bool.not_true, Bool.false_eq_true, if_true]
        rfl

/-- So does `CreateDir`, whose new directory always has room for the special entries. -/
theorem createDir_eq_false_iff (hfetch : fs.fetchCurrentDirectory (heap 0) = .ok dir)
    (hfetchMap : fs.fetchFreeMap (heap 1) = .ok map) :
    fs.createDirInCurrentDirectory heap name = .ok (false, fs) ↔
      Rejected dir map name true 4000 (heap 2) := by
  have hsize : (4000 : ℤ) = (DirectoryFileSize * sizeofDirectoryEntry : ℕ) := by decide
  constructor
  · intro h
    by_contra hrejected
    obtain ⟨hname, hmap, hslot, hdata⟩ := Rejected.not_iff.mp hrejected
    rw [hsize] at hdata
    have hspecial (s s' : ℤ) :
        ((Directory.new (heap 3) DirectoryFileSize).addSpecialDir s s').1 = true := by
      rw [Directory.addSpecialDir, Directory.inUse_new _ (by decide),
        Directory.inUse_new _ (by decide)]
      rfl
    simp only [createDirInCurrentDirectory, hfetch, Except.ok_bind, hname, ne_eq,
      not_true_eq_false, if_false, hfetchMap, hmap, Directory.addDir, hslot, hdata, hspecial,
      Bool.not_true, Bool.false_eq_true, Except.bind_eq_ok] at h
    obtain ⟨_, _, _, _, _, _, _, _, _, _, h⟩ := h
    cases h
  · intro hrejected
    rw [createDirInCurrentDirectory, hfetch, Except.ok_bind]
    cases hrejected with
    | exists_already h => rw [if_pos h]; rfl
    | noHeader h hmap =>
        simp only [h, ne_eq, not_true_eq_false, if_false, hfetchMap, Except.ok_bind, hmap, if_true]
        rfl
    | noSlot h hmap hslot =>
        simp only [h, ne_eq, not_true_eq_false, if_false, hfetchMap, Except.ok_bind, hmap,
          Directory.addDir, hslot, Bool.not_false, if_true]
        rfl
    | noData h hmap hslot hdata =>
        rw [hsize] at hdata
        simp only [h, ne_eq, not_true_eq_false, if_false, hfetchMap, Except.ok_bind, hmap,
          Directory.addDir, hslot, hdata, Bool.not_false, Bool.not_true, Bool.false_eq_true, if_true]
        rfl

end FileSystem

namespace FileSystem.Valid

variable {fs : FileSystem} {L : Layout} {c : ℕ}

/-- **The tests of a creation**: it is rejected, for lack of room, or has reserved
what it needs. -/
theorem reserve (hfs : fs.Valid L c) (u₀ u₁ u₂ : Mem) (name : Name) (isDir : Bool) (size : ℤ)
    (hlow : -2 ^ 31 ≤ size) (hhigh : size < 2 ^ 31) :
    ∃ dir map, fs.fetchCurrentDirectory u₀ = .ok dir ∧ fs.fetchFreeMap u₁ = .ok map ∧
      (Rejected dir map name isDir size u₂ ∧ ¬ fs.disk.HasRoom c name size ∨
        ∃ (n i : ℕ) (hdr : FileHeader) (map' : BitMap), dir.find name = -1 ∧
          map.find = ((n : ℤ), map.markBit n) ∧
          dir.addEntry name isDir n = (true, dir.add name isDir i n) ∧
          (FileHeader.newZeroed u₂).allocate (map.markBit n) size = (true, hdr, map') ∧
          fs.disk.Reserved c name isDir size n i (dir.add name isDir i n) hdr map') := by
  obtain ⟨dir, hfetch, hdir⟩ := hfs.fetchCurrentDirectory u₀
  obtain ⟨map, hfetchMap, hbits, hmap⟩ := hfs.fetchFreeMap u₁
  refine ⟨dir, map, hfetch, hfetchMap, ?_⟩
  have hsize : dir.tableSize = 10 := hdir.tableSize
  have hclearCount : map.numClear = fs.disk.freeMap.numClear := BitMap.numClear_congr hbits hmap
  by_cases hname : dir.find name ≠ -1
  · refine Or.inl ⟨.exists_already hname, fun hroom => hname ?_⟩
    rw [Directory.find, hdir.findIndex, hroom.absent]
  push Not at hname
  obtain ⟨n, hn, hclear, hleast, hfind⟩ | ⟨hfull, hfind⟩ := map.find_cases
  · have hfirst : map.find.1 = n := by rw [hfind]
    have hmark : map.find.2 = map.markBit n := by rw [hfind]
    obtain hadd | ⟨i, hi, hslot, -, hfresh, hadd⟩ := dir.addEntry_cases name isDir n
    · refine Or.inl ⟨.noSlot hname (by omega) (by rw [hfirst, hadd]), fun hroom => ?_⟩
      obtain ⟨j, hj, hfree⟩ := hroom.slot
      rw [← (hdir.sameEntry j hj).inUse] at hfree
      have hadded := Directory.addEntry_of_free isDir n ((hdir.findIndex name).trans hroom.absent)
        (by omega) hfree
      rw [hadd] at hadded
      cases hadded
    obtain ⟨hdr, halloc, hfew⟩ | ⟨h₀, hdr, map', halloc, done, hbytes, hsectors⟩ :=
      (FileHeader.newZeroed u₂).allocate_cases (map.markBit n)
        (by rw [BitMap.numBits_markBit, hbits]; norm_num) hlow hhigh
    · refine Or.inl ⟨.noData hname (by omega) (by rw [hfirst, hadd]) (by rw [hmark, halloc]),
        fun hroom => ?_⟩
      have hsectors := hroom.sectors
      have hcount := BitMap.numClear_markBit hn hclear
      omega
    · rw [hbits] at hn
      rw [hsize] at hi
      exact Or.inr ⟨n, i, hdr, map', hname, hfind, hadd, halloc, Disk.Reserved.of_steps isDir hdir
        hbits hmap hn hclear hleast hi hslot hfresh done hbytes hsectors⟩
  · refine Or.inl ⟨.noHeader hname (by rw [hfind]), fun hroom => ?_⟩
    have hsectors := hroom.sectors
    have hnone := BitMap.numClear_of_full hfull
    omega

/-- **`CreateFile` in the current directory** either fails and leaves everything as
it was, or reserves what it needs, writes the header and flushes. -/
theorem createFileInCurrentDirectory (hfs : fs.Valid L c) (heap : Heap) (name : Name) (size : ℤ)
    (hlow : -2 ^ 31 ≤ size) (hhigh : size < 2 ^ 31) :
    fs.createFileInCurrentDirectory heap name size = .ok (false, fs) ∧
        ¬ fs.disk.HasRoom c name size ∨
      ∃ n i dir hdr map disk', fs.createFileInCurrentDirectory heap name size =
          .ok (true, { fs with disk := disk' }) ∧
        fs.disk.Reserved c name false size n i dir hdr map ∧
        fs.disk.Flushed c (fs.disk.put n hdr.mem) dir map disk' := by
  obtain ⟨dir, map, hfetch, hfetchMap, ⟨hrejected, hroom⟩ |
    ⟨n, i, hdr, map', hname, hfind, hadd, halloc, res⟩⟩ :=
    hfs.reserve (heap 0) (heap 1) (heap 2) name false size hlow hhigh
  · exact Or.inl ⟨(createFile_eq_false_iff hfetch hfetchMap).mpr hrejected, hroom⟩
  · have hn := res.header_range.1
    obtain ⟨disk₁, disk', hwrite₁, hwrite, hflush⟩ := hfs.flush _ map' (heap 3) (heap 4)
      (fs.disk.put n hdr.mem) res.dirTable.tableSize res.numBits
    refine Or.inr ⟨n, i, _, hdr, map', disk', ?_, res, hflush⟩
    simp only [FileSystem.createFileInCurrentDirectory, hfetch, hname, ne_eq, not_true_eq_false,
      if_false, hfetchMap, Except.ok_bind, hfind, Directory.addFile, hadd, halloc, Bool.not_true,
      Bool.false_eq_true, FileHeader.writeBack, show ¬ ((n : ℤ) = -1) by omega,
      Disk.writeSector_of_lt fs.disk hdr.mem (n := (n : ℤ)) (by omega) (by omega),
      Int.toNat_natCast, hwrite₁, hwrite]
    rfl

/-- After an insertion the file system is valid for the larger layout. -/
theorem of_inserted (hfs : fs.Valid L c) {disk' : Disk} {n i : ℕ} {name : Name} {isDir : Bool}
    (ins : fs.disk.Inserted disk' L c n i name isDir) :
    ({ fs with disk := disk' } : FileSystem).Valid (L.insert n isDir) c :=
  hfs.of_disk (hfs.consistent.inserted hfs.current_mem ins)
    (Layout.mem_dirs_insert.mpr (Or.inl hfs.current_mem))
    (hfs.consistent.header_frame hfs.current_mem ins.frame Consistent.zero_mem_objects)
    (hfs.consistent.header_frame hfs.current_mem ins.frame
      (Consistent.mem_objects_of_dir hfs.current_mem))

/-- A plain file that fits a header, from what was reserved for it: it is entered,
and exactly its sectors are marked. -/
theorem inserted_file (hfs : fs.Valid L c) {name : Name} {size : ℤ} {n i : ℕ} {dir : Directory}
    {hdr : FileHeader} {map : BitMap} {disk' : Disk} (hhigh : size ≤ 3840)
    (res : fs.disk.Reserved c name false size n i dir hdr map)
    (hflush : fs.disk.Flushed c (fs.disk.put n hdr.mem) dir map disk') :
    fs.disk.Inserted disk' L c n i name false ∧ (disk'.header n).SameObject hdr ∧
      ∀ x < 1024, disk'.freeMap.testBit x =
        (fs.disk.freeMap.testBit x || decide (x ∈ disk'.owned n)) := by
  have h := hfs.consistent
  have hc := hfs.current_mem
  have hsectors : divRoundUp size 128 ≤ 30 ∧ size ≤ 128 * (divRoundUp size 128) := by
    have hdiv := Int.mul_tdiv_add_tmod size 128
    have hless := Int.tmod_lt_of_pos size (show (0 : ℤ) < 128 by norm_num)
    have hmore := Int.lt_tmod_of_pos size (show (0 : ℤ) < 128 by norm_num)
    simp only [divRoundUp]
    split <;> omega
  have hframe : fs.disk.Frame (fs.disk.put n hdr.mem) L c := fun t ht x hx _ _ _ =>
    Disk.put_of_ne _ _ (res.ne_of_owned h ht hx).symm
  have same : (disk'.header n).SameObject hdr := ⟨fun k hk => by
    simp only [Disk.header]
    rw [res.flushed_header h hc hflush, Disk.put_self _ _ _ hk]⟩
  have hnew : disk'.NewObject c n false := by
    rw [Disk.NewObject, if_neg (by simp), FileHeader.listed, same.numBytes, same.numSectors,
      res.numBytes, res.numSectors]
    omega
  have ins := res.inserted h hc hframe (fun k hk => Disk.put_self _ _ _ hk) hflush hnew
  refine ⟨ins, same, fun x hx => ?_⟩
  rw [hflush.testBit (h.header_frame hc ins.frame Consistent.zero_mem_objects) hx, res.marks x hx,
    res.owned_eq same, Nat.min_eq_left (by omega)]

/-- **Creating a file that fits a header**: a successful call enters it and marks
exactly its sectors. -/
theorem createFile_cases (hfs : fs.Valid L c) (heap : Heap) (name : Name) (size : ℤ)
    (hlow : -2 ^ 31 ≤ size) (hhigh : size ≤ 3840) :
    fs.createFileInCurrentDirectory heap name size = .ok (false, fs) ∨
      ∃ n i disk', fs.createFileInCurrentDirectory heap name size =
          .ok (true, { fs with disk := disk' }) ∧
        fs.disk.Inserted disk' L c n i name false ∧ (disk'.header n).numBytes = size ∧
        ∀ x < 1024, disk'.freeMap.testBit x =
          (fs.disk.freeMap.testBit x || decide (x ∈ disk'.owned n)) := by
  obtain ⟨hfalse, -⟩ | ⟨n, i, dir, hdr, map, disk', hok, res, hflush⟩ :=
    hfs.createFileInCurrentDirectory heap name size hlow (by omega)
  · exact Or.inl hfalse
  · obtain ⟨ins, same, hmarks⟩ := hfs.inserted_file hhigh res hflush
    exact Or.inr ⟨n, i, disk', hok, ins, same.numBytes.trans res.numBytes, hmarks⟩

/-- Creating a file when the marked sectors are the first `m`: the new file has its
header in sector `m` and its data right behind it. -/
theorem createFile_contiguous (hfs : fs.Valid L c) (heap : Heap) (name : Name) (size m : ℕ)
    (hsize : size ≤ 3840) (hroom : m + divRoundUp size 128 < 1024)
    (hmarks : ∀ x < 1024, fs.disk.freeMap.testBit x = decide (x < m))
    (habsent : (fs.disk.dirTable c).findIndex name = none)
    (hslot : ∃ i < 10, (fs.disk.dirTable c).inUse i = false) :
    ∃ i disk', fs.createFileInCurrentDirectory heap name size =
        .ok (true, { fs with disk := disk' }) ∧
      fs.disk.Inserted disk' L c m i name false ∧ (disk'.header m).numBytes = size ∧
      (disk'.header m).numSectors = divRoundUp size 128 ∧
      (∀ k < (divRoundUp size 128).toNat, disk'.dataSector m k = m + 1 + k ∧
        disk' (m + 1 + k) = fs.disk (m + 1 + k)) ∧
      ∀ x < 1024, disk'.freeMap.testBit x =
        (fs.disk.freeMap.testBit x || decide (x ∈ disk'.owned m)) := by
  have hcount : 0 ≤ divRoundUp size 128 ∧ divRoundUp size 128 ≤ 30 := by
    have hdiv := Int.mul_tdiv_add_tmod size 128
    have hless := Int.tmod_lt_of_pos size (show (0 : ℤ) < 128 by norm_num)
    have hmore := Int.lt_tmod_of_pos size (show (0 : ℤ) < 128 by norm_num)
    simp only [divRoundUp]
    split <;> omega
  obtain ⟨-, hfull⟩ | ⟨n, i, dir, hdr, map, disk', hok, res, hflush⟩ :=
    hfs.createFileInCurrentDirectory heap name size (by omega) (by omega)
  · refine absurd ⟨habsent, hslot, ?_⟩ hfull
    rw [BitMap.numClear_of_marked (m := m) hmarks]
    change _ ≤ 1024 - m
    omega
  obtain ⟨rfl, hdata⟩ := res.contiguous hmarks
  obtain ⟨ins, same, hmarks'⟩ := hfs.inserted_file (by omega) res hflush
  refine ⟨i, disk', hok, ins, same.numBytes.trans res.numBytes,
    same.numSectors.trans res.numSectors, fun k hk => ⟨?_, ?_⟩, hmarks'⟩
  · rw [Disk.dataSector, same.dataSectors (by omega), hdata k hk, Int.toNat_natCast]
  · rw [← Int.toNat_natCast (n + 1 + k), ← hdata k hk]
    exact res.data_unchanged hfs.consistent hfs.current_mem hflush hk

end FileSystem.Valid

end Nachos
