/-
# Directories are finite maps

A directory maps at most `tableSize` names to sectors. Two names are the same key when `strncmp`
finds no difference in their first `FileNameMaxLen` characters, however long they are, and an
entry that is freed keeps its name until it is used again. The keys stay distinct under every
operation, and under a way through a file, so what an operation does to one key it does not do
to another.
-/

import Nachos.Base.Trace
import Nachos.Filesys.FileAccess
import Nachos.Filesys.Directory

namespace Nachos

open Base

namespace Directory

/-- The two names are the same key. -/
def Agree (name other : Name) : Prop :=
  Mem.strnEqual (Mem.ofString name) (Mem.ofString other) FileNameMaxLen = true

instance (name other : Name) : Decidable (Agree name other) :=
  inferInstanceAs (Decidable (_ = true))

/-- No two entries in use agree on the characters that are compared. -/
def Distinct (d : Directory) : Prop :=
  ∀ i < d.tableSize, ∀ j < d.tableSize, d.inUse i = true → d.inUse j = true →
    Mem.strnEqual (d.name i) (d.name j) FileNameMaxLen = true → i = j

/-- Some entry in use has the name. -/
def Holds (d : Directory) (name : Name) : Prop :=
  ∃ i < d.tableSize, d.matchesName name i = true

/-- What `Remove` has to return. -/
structure Removes (d : Directory) (name : Name) (result : Bool × Directory) : Prop where
  removed : result.1 = true ↔ d.Holds name
  find_self : result.1 = true → result.2.find name = -1
  find_other : ∀ other, ¬ Agree name other → result.2.find other = d.find other
  refused : result.1 = false → result.2 = d

/-- The number of sectors that a table of `n` entries takes. -/
def tableSectors (n : ℕ) : ℕ := (n * sizeofDirectoryEntry + 127) / 128

/-- A file that has room for `n` entries. The sectors that the entries take are in the header:
they are sectors of the disk, and none is there twice. -/
structure EntryFile (h : FileHeader) (n : ℕ) : Prop where
  direct : tableSectors n ≤ NumDirect
  sectors : h.InRange (tableSectors n)
  distinct : (h.sectorList (tableSectors n)).Nodup
  room : ((n * sizeofDirectoryEntry : ℕ) : ℤ) ≤ h.numBytes

variable {d d' : Directory} {name other : Name} {i : ℕ}

/-! ## Lookups -/

theorem Agree.symm (h : Agree name other) : Agree other name := Mem.strnEqual_symm h

/-- Two entries that are as before, and agree, were one entry before. -/
theorem Distinct.eq_of_same (hd : d.Distinct) {j : ℕ} (hi : i < d.tableSize)
    (hj : j < d.tableSize) (same : d'.SameEntry d i) (same' : d'.SameEntry d j)
    (hused : d'.inUse i = true) (hused' : d'.inUse j = true)
    (hequal : Mem.strnEqual (d'.name i) (d'.name j) FileNameMaxLen = true) : i = j := by
  rw [same.inUse] at hused
  rw [same'.inUse] at hused'
  exact hd i hi j hj hused hused' (same.names_agree same' hequal)

theorem Distinct.congr (hd : d.Distinct) (hsize : d'.tableSize = d.tableSize)
    (same : ∀ j < d.tableSize, d'.SameEntry d j) : d'.Distinct := by
  intro i hi j hj
  rw [hsize] at hi hj
  exact hd.eq_of_same hi hj (same i hi) (same j hj)

/-- A directory with no entry in use. -/
theorem Distinct.of_unused (h : ∀ i < d.tableSize, d.inUse i = false) : d.Distinct := by
  intro i hi j _ hused
  rw [h i hi] at hused
  cases hused

/-- A new key. -/
theorem Distinct.add (hd : d.Distinct) (hfresh : ∀ j < d.tableSize, d.matchesName name j = false)
    (isDir : Bool) (i : ℕ) (s : ℤ) : (d.add name isDir i s).Distinct := by
  -- An old entry and the new one do not agree, since the old one would have the new name.
  have hnew (j : ℕ) (hj : j < d.tableSize) (hne : j ≠ i)
      (hused : (d.add name isDir i s).inUse j = true)
      (hequal : Mem.strnEqual ((d.add name isDir i s).name j) ((d.add name isDir i s).name i)
        FileNameMaxLen = true) : False := by
    have same := d.sameEntry_add name isDir i s hne
    have hmatch : (d.add name isDir i s).matchesName name j = true := by
      rw [matchesName, hused, Bool.true_and]
      exact Mem.strnEqual_trans hequal (d.name_add name isDir i s)
    rw [same.matchesName, hfresh j hj] at hmatch
    cases hmatch
  intro j hj k hk hused hused' hequal
  by_cases hji : j = i <;> by_cases hki : k = i
  · rw [hji, hki]
  · rw [hji] at hequal
    exact (hnew k hk hki hused' (Mem.strnEqual_symm hequal)).elim
  · rw [hki] at hequal
    exact (hnew j hj hji hused hequal).elim
  · exact hd.eq_of_same hj hk (d.sameEntry_add name isDir i s hji)
      (d.sameEntry_add name isDir i s hki) hused hused' hequal

/-- A key less. -/
theorem Distinct.setByte_zero (hd : d.Distinct) (i : ℕ) :
    Distinct { d with table := d.table.setByte (20 * i) 0 } := by
  have hother (j : ℕ) (hused : ({ d with table := d.table.setByte (20 * i) 0 } :
      Directory).inUse j = true) : j ≠ i := by
    rintro rfl
    rw [d.inUse_setByte_zero] at hused
    cases hused
  intro j hj k hk hused hused'
  exact hd.eq_of_same hj hk (d.sameEntry_setByte 0 (hother j hused))
    (d.sameEntry_setByte 0 (hother k hused')) hused hused'

theorem Distinct.addEntry (hd : d.Distinct) (name : Name) (isDir : Bool) (s : ℤ) :
    (d.addEntry name isDir s).2.Distinct := by
  obtain hrefused | ⟨i, -, -, -, hfresh, hadded⟩ := d.addEntry_cases name isDir s
  · rwa [hrefused]
  · rw [hadded]
    exact hd.add (findIndex_eq_none.mp hfresh) isDir i s

theorem Distinct.remove (hd : d.Distinct) (name : Name) : (d.remove name).2.Distinct := by
  rw [Directory.remove]
  split
  · exact hd
  · exact hd.setByte_zero _

/-- A directory as the callers make it, empty or with the two special entries. -/
def Initial (uninit : Mem) (n : ℕ) (d : Directory) : Prop :=
  d = new uninit n ∨ ∃ sector sector', d = ((new uninit n).addSpecialDir sector sector').2

theorem Initial.tableSize {uninit : Mem} {n : ℕ} (h : Initial uninit n d) : d.tableSize = n := by
  obtain rfl | ⟨sector, sector', rfl⟩ := h
  · rfl
  · rw [addSpecialDir]
    split <;> rfl

theorem Initial.distinct {uninit : Mem} {n : ℕ} (hn : 2 ≤ n) (h : Initial uninit n d) :
    d.Distinct := by
  have hunused (i : ℕ) (hi : i < n) : (new uninit n).inUse i = false := inUse_new uninit hi
  have hnew : (new uninit n).Distinct := .of_unused hunused
  obtain rfl | ⟨sector, sector', rfl⟩ := h
  · exact hnew
  rw [addSpecialDir, hunused 0 (by omega), hunused 1 (by omega)]
  have hfresh (j : ℕ) (hj : j < n) : (new uninit n).matchesName dot j = false :=
    matchesName_of_free (hunused j hj) dot
  have hdot := hnew.add hfresh true 0 sector
  refine hdot.add (fun j hj => ?_) true 1 sector'
  by_cases hj0 : j = 0
  · rw [hj0, matchesName_add]
    decide
  · rw [((new uninit n).sameEntry_add dot true 0 sector hj0).matchesName]
    exact matchesName_of_free (hunused j hj) dotDot

/-! ## The operations -/

/-- The table that the file holds. -/
def onDisk (disk : Disk) (h : FileHeader) (n : ℕ) : Directory := ⟨n, OpenFile.fileBytes disk h⟩

theorem le_tableSectors (n : ℕ) : n * sizeofDirectoryEntry ≤ 128 * tableSectors n := by
  rw [tableSectors]
  omega

/-- `WriteBack` leaves the table in the file and the other sectors alone. -/
theorem writeBack_entries (d : Directory) (uninit : Mem) (disk : Disk) {file : OpenFile}
    (hfile : EntryFile file.hdr d.tableSize) :
    ∃ disk', d.writeBack uninit disk file = .ok disk' ∧
      (∀ s, s ∉ file.hdr.sectorList (tableSectors d.tableSize) → disk' s = disk s) ∧
      ∀ j < d.tableSize, (onDisk disk' file.hdr d.tableSize).SameEntry d j := by
  obtain ⟨disk', hwrite, hframe, hdata⟩ := file.writeAt_zero uninit disk d.table
    (le_tableSectors _) hfile.direct hfile.room hfile.sectors hfile.distinct
  refine ⟨disk', hwrite, hframe, fun j hj k hk => hdata _ ?_⟩
  rw [sizeofDirectoryEntry]
  omega

/-- `FetchFrom` reads the table from the file. -/
theorem fetchFrom_entries (d : Directory) (disk : Disk) {file : OpenFile}
    (hfile : EntryFile file.hdr d.tableSize) :
    ∃ d', d.fetchFrom disk file = .ok d' ∧ d'.tableSize = d.tableSize ∧
      ∀ j < d.tableSize, d'.SameEntry (onDisk disk file.hdr d.tableSize) j := by
  have hread := file.readAt_zero disk d.table (le_tableSectors _) hfile.direct hfile.room
    hfile.sectors
  have hfetch : d.fetchFrom disk file = .ok { d with
      table := d.table.copy 0 (OpenFile.fileBytes disk file.hdr) 0
        (d.tableSize * sizeofDirectoryEntry) } := by
    rw [fetchFrom, hread]
    rfl
  refine ⟨_, hfetch, rfl, fun j hj k hk => ?_⟩
  refine (Mem.copy_of_mem _ _ ?_).trans ?_
  · rw [sizeofDirectoryEntry]
    omega
  · exact congrArg _ (by omega)

theorem SameEntry.trans {d'' : Directory} (h : d.SameEntry d' i) (h' : d'.SameEntry d'' i) :
    d.SameEntry d'' i := fun k hk => (h k hk).trans (h' k hk)

/-- A directory of `n` entries in memory, the disk, and the files that hold a table of `n`
entries written back earlier. -/
structure Site where
  dir : Directory
  disk : Disk
  written : Set FileHeader

/-- The operations. `FetchFrom` reads into a table that holds anything. -/
inductive Op
  | addFile (name : Name) (sector : ℤ)
  | addDir (name : Name) (sector : ℤ)
  | remove (name : Name)
  | writeBack (uninit : Mem) (file : OpenFile)
  | fetchFrom (into : Mem) (file : OpenFile)

/-- One operation. A table is written back to a file that has room for it, and is fetched from a
file that it was written to and that has not been overwritten since, not even in part. -/
def Step (s : Site) (op : Op) (s' : Site) : Prop :=
  match op with
  | .addFile name sector => s' = { s with dir := (s.dir.addFile name sector).2 }
  | .addDir name sector => s' = { s with dir := (s.dir.addDir name sector).2 }
  | .remove name => s' = { s with dir := (s.dir.remove name).2 }
  | .writeBack uninit file =>
      EntryFile file.hdr s.dir.tableSize ∧ s'.dir = s.dir ∧
        s.dir.writeBack uninit s.disk file = .ok s'.disk ∧
        s'.written = {h | h = file.hdr ∨ h ∈ s.written ∧
          ∀ x ∈ h.sectorList (tableSectors s.dir.tableSize),
            x ∉ file.hdr.sectorList (tableSectors s.dir.tableSize)}
  | .fetchFrom into file =>
      file.hdr ∈ s.written ∧ s'.disk = s.disk ∧ s'.written = s.written ∧
        fetchFrom ⟨s.dir.tableSize, into⟩ s.disk file = .ok s'.dir

/-- The keys are distinct in memory and in the files. -/
structure Site.Keyed (s : Site) (n : ℕ) : Prop where
  tableSize : s.dir.tableSize = n
  distinct : s.dir.Distinct
  written : ∀ h ∈ s.written, EntryFile h n ∧ (onDisk s.disk h n).Distinct

theorem Site.Keyed.withDir {s : Site} {n : ℕ} (hs : s.Keyed n) (hsize : d.tableSize = n)
    (hd : d.Distinct) : Site.Keyed { s with dir := d } n :=
  ⟨hsize, hd, hs.written⟩

theorem tableSize_addEntry (d : Directory) (name : Name) (isDir : Bool) (s : ℤ) :
    (d.addEntry name isDir s).2.tableSize = d.tableSize := by
  obtain hrefused | ⟨i, -, -, -, -, hadded⟩ := d.addEntry_cases name isDir s
  · rw [hrefused]
  · rw [hadded]
    rfl

theorem tableSize_remove (d : Directory) (name : Name) :
    (d.remove name).2.tableSize = d.tableSize := by
  rw [remove]
  split <;> rfl

/-- A table in a file whose sectors are as before. -/
theorem onDisk_sameEntry {disk disk' : Disk} {h : FileHeader} {n j : ℕ}
    (hframe : ∀ x ∈ h.sectorList (tableSectors n), disk' x = disk x) (hj : j < n) :
    (onDisk disk' h n).SameEntry (onDisk disk h n) j := by
  have hbytes := le_tableSectors n
  rw [sizeofDirectoryEntry] at hbytes
  intro k hk
  have hsector := hframe (h.dataSectors ((20 * j + k) / 128)).toNat
    (FileHeader.mem_sectorList.mpr ⟨_, by omega, rfl⟩)
  exact congrArg (fun sector => sector ((20 * j + k) % 128)) hsector

/-- **One operation** keeps the keys distinct. -/
theorem Site.Keyed.step {s s' : Site} {op : Op} {n : ℕ} (hs : s.Keyed n) (hstep : Step s op s') :
    s'.Keyed n := by
  have hsize := hs.tableSize
  cases op with
  | addFile name sector =>
      rw [show s' = _ from hstep]
      exact hs.withDir ((s.dir.tableSize_addEntry name false sector).trans hsize)
        (hs.distinct.addEntry name false sector)
  | addDir name sector =>
      rw [show s' = _ from hstep]
      exact hs.withDir ((s.dir.tableSize_addEntry name true sector).trans hsize)
        (hs.distinct.addEntry name true sector)
  | remove name =>
      rw [show s' = _ from hstep]
      exact hs.withDir ((s.dir.tableSize_remove name).trans hsize) (hs.distinct.remove name)
  | writeBack uninit file =>
      obtain ⟨hfile, hdir, hwrite, hwritten⟩ := hstep
      obtain ⟨disk', hok, hframe, hstored⟩ := s.dir.writeBack_entries uninit s.disk hfile
      obtain rfl : disk' = s'.disk := Except.ok.inj (hok.symm.trans hwrite)
      rw [hsize] at hfile hstored hframe
      refine ⟨hdir ▸ hsize, hdir ▸ hs.distinct, fun h hh => ?_⟩
      rw [hwritten, hsize] at hh
      obtain rfl | ⟨hold, hdisjoint⟩ := hh
      · exact ⟨hfile, hs.distinct.congr hsize.symm fun j hj => hstored j (hsize ▸ hj)⟩
      · obtain ⟨hentry, hdistinct⟩ := hs.written h hold
        exact ⟨hentry, hdistinct.congr rfl fun j hj =>
          onDisk_sameEntry (fun x hx => hframe x (hdisjoint x hx)) hj⟩
  | fetchFrom into file =>
      obtain ⟨hheld, hdisk, hwritten, hread⟩ := hstep
      obtain ⟨hentry, hdistinct⟩ := hs.written file.hdr hheld
      rw [hsize] at hread
      obtain ⟨d', hok, hsize', hfetched⟩ := fetchFrom_entries ⟨n, into⟩ s.disk hentry
      obtain rfl : d' = s'.dir := Except.ok.inj (hok.symm.trans hread)
      refine ⟨hsize', hdistinct.congr hsize' hfetched, ?_⟩
      rw [hdisk, hwritten]
      exact hs.written

end Directory

end Nachos
