/-
# Who owns which sector

Runs of creations, removals and writes in the root directory of a freshly
formatted disk. The free map marks exactly the sectors of the two system files and
of the files entered in the root directory, no two of which are the same, so
giving sectors back never finds one unmarked, and no call changes a file it does
not name.
-/

import Nachos.Base.Trace
import Nachos.Filesys.Format
import Nachos.Filesys.Path
import Nachos.Filesys.Creation
import Nachos.Filesys.Removal

namespace Nachos

open Base

/-- Entry `i` is in use under a name other than the two special ones. -/
def Directory.isOrdinary (dir : Directory) (i : ℕ) : Bool :=
  dir.inUse i && !dir.matchesName Directory.dot i && !dir.matchesName Directory.dotDot i

namespace Disk

/-- The header sectors of the free map, of the root directory and of the files
entered in it. -/
def rootHeaders (d : Disk) : List ℕ :=
  FreeMapSector :: DirectorySector :: ((List.range NumDirEntries).filter
    (d.dirTable DirectorySector).isOrdinary).map fun i => ((d.dirTable DirectorySector).sector i).toNat

/-- These headers and the data sectors they list. -/
def rootSectors (d : Disk) : List ℕ :=
  d.rootHeaders.flatMap fun s => s :: (d.header s).sectorList (d.header s).numSectors.toNat

/-- The readable contents of the file called `name` in the root directory. -/
def rootFile (d : Disk) (name : Name) : Option (List UInt8) :=
  ((d.dirTable DirectorySector).findIndex name).map fun i =>
    d.contents ((d.dirTable DirectorySector).sector i).toNat

end Disk

/-- A name a user may give to a file in the root directory. -/
structure IsFileName (name : Name) : Prop where
  component : FileSystem.IsComponent name
  ne_dot : name ≠ Directory.dot
  ne_dotDot : name ≠ Directory.dotDot

namespace IsFileName

/-- File names that compare equal are equal. -/
theorem eq_of_strnEqual {a b : Name} (ha : FileSystem.IsComponent a)
    (hb : FileSystem.IsComponent b)
    (h : Mem.strnEqual (Mem.ofString a) (Mem.ofString b) 9 = true) : a = b :=
  Mem.eq_of_strnEqual ha.noZero hb.noZero ha.length hb.length h

end IsFileName

/-- The calls of a run in the root directory. `WriteAt` is given a file opened
on the header the name refers to. -/
inductive RootCall
  | createFile (name : Name) (initialSize : ℤ)
  | removeFile (name : Name)
  | writeAt (name : Name) (file : OpenFile) (source : Mem) (numBytes position : ℤ)

namespace RootCall

/-- The file a call names. -/
def name : RootCall → Name
  | createFile name _ => name
  | removeFile name => name
  | writeAt name _ _ _ _ => name

/-- The effect of a call that returns, for some contents of fresh memory. -/
def Returns (fs : FileSystem) (call : RootCall) (fs' : FileSystem) : Prop :=
  match call with
  | createFile name initialSize => 0 ≤ initialSize ∧ initialSize ≤ MaxFileSize ∧
      ∃ heap result, fs.createFile heap name initialSize = .ok (result, fs')
  | removeFile name => ∃ heap result, fs.removeFile heap name = .ok (result, fs')
  | writeAt name file source numBytes position =>
      (-2 ^ 31 ≤ numBytes ∧ numBytes < 2 ^ 31) ∧ (-2 ^ 31 ≤ position ∧ position < 2 ^ 31) ∧
      ∃ i, (fs.disk.dirTable DirectorySector).findIndex name = some i ∧
        file.OpenedOn fs.disk ((fs.disk.dirTable DirectorySector).sector i).toNat ∧
        ∃ uninit result disk', file.writeAt uninit fs.disk source numBytes position =
          .ok (result, disk') ∧ fs' = { fs with disk := disk' }

/-- A step of a run: a call with a proper file name that returns. -/
def Step (fs : FileSystem) (call : RootCall) (fs' : FileSystem) : Prop :=
  IsFileName call.name ∧ Returns fs call fs'

end RootCall

/-- The invariant of such runs: the root is the only directory, and every marked
sector belongs to an object. -/
structure FileSystem.RootOwned (fs : FileSystem) (L : Layout) : Prop where
  valid : fs.Valid L 1
  dirs : L.dirs = {1}
  rootSize : (fs.disk.header 1).numSectors ≤ 30
  exact : ∀ x < 1024, fs.disk.freeMap.testBit x = true → ∃ s ∈ L.objects, x ∈ fs.disk.owned s

namespace FileSystem.RootOwned

variable {fs fs' : FileSystem} {L : Layout} {i j : ℕ} {name other : Name}

theorem root_mem (hfs : fs.RootOwned L) : 1 ∈ L.dirs := hfs.valid.current_mem

/-- An ordinary entry of the root is a plain file. -/
theorem file_of_child (hfs : fs.RootOwned L) (hchild : fs.disk.ChildEntry 1 i) :
    (fs.disk.dirTable 1).isDirectory i = false ∧
      ∃ t : ℕ, (fs.disk.dirTable 1).sector i = t ∧ t ∈ L.files := by
  have h := hfs.valid.consistent
  have hflag : (fs.disk.dirTable 1).isDirectory i = false := by
    cases hflag : (fs.disk.dirTable 1).isDirectory i with
    | false => rfl
    | true =>
        obtain ⟨t, ht, hroot, hkind⟩ := h.child 1 hfs.root_mem i hchild
        rw [hflag, if_pos rfl, hfs.dirs, Finset.mem_singleton] at hkind
        exact absurd hkind hroot
  exact ⟨hflag, h.file_of_child hfs.root_mem hchild hflag⟩

/-- A proper file name is found only among the ordinary entries. -/
theorem child_of_findIndex (hfs : fs.RootOwned L) (hname : IsFileName name)
    (hindex : (fs.disk.dirTable 1).findIndex name = some i) : fs.disk.ChildEntry 1 i :=
  hfs.valid.consistent.childEntry_of_name hfs.root_mem hindex
    ⟨hname.component.noZero, hname.component.length⟩ hname.ne_dot hname.ne_dotDot

/-- The ordinary entries, by their names and by their place. -/
theorem isOrdinary_iff (hfs : fs.RootOwned L) (hi : i < 10) :
    (fs.disk.dirTable 1).isOrdinary i = true ↔ fs.disk.ChildEntry 1 i := by
  have h := hfs.valid.consistent
  have hdot := (h.dot 1 hfs.root_mem).1
  have hdotDot := (h.dotDot 1 hfs.root_mem).1
  constructor
  · intro hordinary
    simp only [Directory.isOrdinary, Bool.and_eq_true, Bool.not_eq_true'] at hordinary
    refine ⟨?_, hi, hordinary.1.1⟩
    by_contra hlow
    rcases (by omega : i = 0 ∨ i = 1) with rfl | rfl
    · rw [hdot] at hordinary
      cases hordinary.1.2
    · rw [hdotDot] at hordinary
      cases hordinary.2
  · rintro ⟨hlow, -, hinUse⟩
    -- A special name would be found at two places.
    have hspecial {k : ℕ} {special : Name} (hk : k < 2)
        (hmatch : (fs.disk.dirTable 1).matchesName special k = true) :
        (fs.disk.dirTable 1).matchesName special i = false := by
      rw [← Bool.not_eq_true]
      intro hboth
      rw [Directory.matchesName, Bool.and_eq_true] at hmatch hboth
      have hequal := h.names 1 hfs.root_mem i hi k (by omega) hinUse hmatch.1
        (Mem.strnEqual_trans hboth.2 (Mem.strnEqual_symm hmatch.2))
      omega
    simp [Directory.isOrdinary, hinUse, hspecial (show 0 < 2 by omega) hdot,
      hspecial (show 1 < 2 by omega) hdotDot]

/-- The listed headers are exactly the objects. -/
theorem mem_rootHeaders (hfs : fs.RootOwned L) {s : ℕ} :
    s ∈ fs.disk.rootHeaders ↔ s ∈ L.objects := by
  have h := hfs.valid.consistent
  simp only [Disk.rootHeaders, FreeMapSector, DirectorySector, NumDirEntries, List.mem_cons,
    List.mem_map, List.mem_filter, List.mem_range, Layout.mem_objects, hfs.dirs,
    Finset.mem_singleton]
  refine or_congr Iff.rfl (or_congr Iff.rfl ⟨?_, fun hs => ?_⟩)
  · rintro ⟨i, ⟨hi, hordinary⟩, rfl⟩
    obtain ⟨-, t, ht, hfile⟩ := hfs.file_of_child ((hfs.isOrdinary_iff hi).mp hordinary)
    rw [ht, Int.toNat_natCast]
    exact hfile
  · obtain ⟨p, hp, i, hchild, hsector⟩ := h.fileParent s hs
    rw [hfs.dirs, Finset.mem_singleton] at hp
    subst hp
    exact ⟨i, ⟨hchild.high, (hfs.isOrdinary_iff hchild.high).mpr hchild⟩, by
      rw [hsector, Int.toNat_natCast]⟩

/-- Each object is listed once. -/
theorem nodup_rootHeaders (hfs : fs.RootOwned L) : fs.disk.rootHeaders.Nodup := by
  have h := hfs.valid.consistent
  have hfile {s : ℕ} (hs : s ∈ ((List.range NumDirEntries).filter
      (fs.disk.dirTable DirectorySector).isOrdinary).map fun i =>
        ((fs.disk.dirTable DirectorySector).sector i).toNat) : s ∈ L.files := by
    obtain ⟨i, hi, rfl⟩ := List.mem_map.mp hs
    obtain ⟨hlt, hordinary⟩ := List.mem_filter.mp hi
    obtain ⟨-, t, ht, hfile⟩ :=
      hfs.file_of_child ((hfs.isOrdinary_iff (List.mem_range.mp hlt)).mp hordinary)
    simp only [DirectorySector]
    rw [ht, Int.toNat_natCast]
    exact hfile
  refine List.nodup_cons.mpr ⟨fun hmem => ?_, List.nodup_cons.mpr ⟨fun hmem => ?_, ?_⟩⟩
  · rcases List.mem_cons.mp hmem with hequal | hmem
    · cases hequal
    · exact h.zero_notMem.2 (hfile hmem)
  · exact h.kinds 1 hfs.root_mem (hfile hmem)
  · refine List.Nodup.map_on ?_ (List.nodup_range.filter _)
    intro i hi j hj hequal
    obtain ⟨hilt, hiOrdinary⟩ := List.mem_filter.mp hi
    obtain ⟨hjlt, hjOrdinary⟩ := List.mem_filter.mp hj
    have hiChild := (hfs.isOrdinary_iff (List.mem_range.mp hilt)).mp hiOrdinary
    have hjChild := (hfs.isOrdinary_iff (List.mem_range.mp hjlt)).mp hjOrdinary
    obtain ⟨-, s, hs, -⟩ := hfs.file_of_child hiChild
    obtain ⟨-, t, ht, -⟩ := hfs.file_of_child hjChild
    simp only [DirectorySector] at hequal
    refine (h.unique 1 hfs.root_mem 1 hfs.root_mem i j hiChild hjChild ?_).2
    rw [hs, ht] at hequal ⊢
    simpa using hequal

/-- Every header lists all the sectors of its object. -/
theorem sectors_eq_owned (hfs : fs.RootOwned L) {s : ℕ} (hs : s ∈ L.objects) :
    s :: (fs.disk.header s).sectorList (fs.disk.header s).numSectors.toNat = fs.disk.owned s := by
  have h := hfs.valid.consistent
  have hcount : (fs.disk.header s).numSectors ≤ 30 := by
    rcases Layout.mem_objects.mp hs with rfl | hdir | hfile
    · rw [h.mapHeader.2]
      omega
    · rw [hfs.dirs, Finset.mem_singleton] at hdir
      subst hdir
      exact hfs.rootSize
    · exact (h.fileHeader s hfile).2
  rw [Disk.owned, Disk.dataList, FileHeader.listed, Nat.min_eq_left (by omega)]

theorem mem_rootSectors (hfs : fs.RootOwned L) {x : ℕ} :
    x ∈ fs.disk.rootSectors ↔ ∃ s ∈ L.objects, x ∈ fs.disk.owned s := by
  rw [Disk.rootSectors, List.mem_flatMap]
  constructor
  · rintro ⟨s, hs, hx⟩
    rw [hfs.sectors_eq_owned (hfs.mem_rootHeaders.mp hs)] at hx
    exact ⟨s, hfs.mem_rootHeaders.mp hs, hx⟩
  · rintro ⟨s, hs, hx⟩
    rw [← hfs.sectors_eq_owned hs] at hx
    exact ⟨s, hfs.mem_rootHeaders.mpr hs, hx⟩

/-- The marked sectors are the sectors of the objects. -/
theorem testBit_iff (hfs : fs.RootOwned L) {x : ℕ} (hx : x < 1024) :
    fs.disk.freeMap.testBit x = true ↔ x ∈ fs.disk.rootSectors := by
  rw [hfs.mem_rootSectors]
  constructor
  · exact hfs.exact x hx
  · rintro ⟨s, hs, hmem⟩
    exact hfs.valid.consistent.marked s hs x hmem

theorem nodup_rootSectors (hfs : fs.RootOwned L) : fs.disk.rootSectors.Nodup := by
  have h := hfs.valid.consistent
  rw [Disk.rootSectors, List.nodup_flatMap]
  refine ⟨fun s hs => ?_, ?_⟩
  · rw [hfs.sectors_eq_owned (hfs.mem_rootHeaders.mp hs)]
    exact h.nodup s (hfs.mem_rootHeaders.mp hs)
  · refine hfs.nodup_rootHeaders.imp_of_mem fun {s t} hs ht hne => ?_
    rw [Function.onFun, hfs.sectors_eq_owned (hfs.mem_rootHeaders.mp hs),
      hfs.sectors_eq_owned (hfs.mem_rootHeaders.mp ht)]
    exact h.separate s (hfs.mem_rootHeaders.mp hs) t (hfs.mem_rootHeaders.mp ht) hne

/-! ## Files by name -/

/-- A name whose lookup is unchanged, and whose file is, has the contents it had. -/
theorem rootFile_congr (hfs : fs.RootOwned L) {disk' : Disk} (hother : IsFileName other)
    (hmatch : ∀ j < 10, (disk'.dirTable 1).matchesName other j =
      (fs.disk.dirTable 1).matchesName other j)
    (hsame : ∀ j, fs.disk.ChildEntry 1 j → (fs.disk.dirTable 1).matchesName other j = true →
      (disk'.dirTable 1).sector j = (fs.disk.dirTable 1).sector j ∧
      disk'.contents ((fs.disk.dirTable 1).sector j).toNat =
        fs.disk.contents ((fs.disk.dirTable 1).sector j).toNat) :
    disk'.rootFile other = fs.disk.rootFile other := by
  have hindex : (disk'.dirTable 1).findIndex other = (fs.disk.dirTable 1).findIndex other :=
    Directory.findIndex_congr rfl hmatch
  rw [Disk.rootFile, Disk.rootFile, DirectorySector, hindex]
  cases hfind : (fs.disk.dirTable 1).findIndex other with
  | none => rw [Option.map_none, Option.map_none]
  | some j =>
      obtain ⟨hsector, hcontents⟩ := hsame j (hfs.child_of_findIndex hother hfind)
        (Directory.findIndex_eq_some hfind).2.1
      rw [Option.map_some, Option.map_some, hsector, hcontents]

/-- Two proper file names do not match the same entry. -/
theorem matchesName_of_ne {dir : Directory} (hname : IsFileName name) (hother : IsFileName other)
    (hne : other ≠ name) (hmatch : dir.matchesName name i = true) :
    dir.matchesName other i = false := by
  rw [← Bool.not_eq_true]
  intro hboth
  rw [Directory.matchesName, Bool.and_eq_true] at hmatch hboth
  exact hne (IsFileName.eq_of_strnEqual hother.component hname.component
    (Mem.strnEqual_trans (Mem.strnEqual_symm hboth.2) hmatch.2))

/-- The new entry is found under its own name only. -/
theorem matchesName_new {disk' : Disk} {n : ℕ}
    (ins : fs.disk.Inserted disk' L 1 n i name false) (hname : IsFileName name)
    (hother : IsFileName other) (hne : other ≠ name) :
    (disk'.dirTable 1).matchesName other i = false := by
  rw [(Consistent.sameEntry_new ins).matchesName, Directory.matchesName_add, ← Bool.not_eq_true]
  intro hequal
  exact hne (IsFileName.eq_of_strnEqual hname.component hother.component hequal).symm

/-! ## One call -/

/-- A file entered under a new name. -/
theorem inserted (hfs : fs.RootOwned L) {disk' : Disk} {n : ℕ} (hname : IsFileName name)
    (ins : fs.disk.Inserted disk' L 1 n i name false)
    (hmarks : ∀ x < 1024, disk'.freeMap.testBit x =
      (fs.disk.freeMap.testBit x || decide (x ∈ disk'.owned n))) :
    ({ fs with disk := disk' } : FileSystem).RootOwned (L.insert n false) ∧
      ∀ other, IsFileName other → other ≠ name →
        disk'.rootFile other = fs.disk.rootFile other := by
  have h := hfs.valid.consistent
  have hroot := hfs.root_mem
  have hone := h.header_frame hroot ins.frame (Consistent.mem_objects_of_dir hroot)
  refine ⟨⟨hfs.valid.of_inserted ins, hfs.dirs, ?_, fun x hx hmark => ?_⟩,
    fun other hother hne => ?_⟩
  · rw [Disk.header_congr hone]
    exact hfs.rootSize
  · rw [hmarks x hx, Bool.or_eq_true, decide_eq_true_eq] at hmark
    rcases hmark with hmark | hmem
    · obtain ⟨s, hs, hmem⟩ := hfs.exact x hx hmark
      exact ⟨s, Layout.mem_objects_insert.mpr (Or.inl hs), by
        rw [h.owned_inserted hroot ins hs]; exact hmem⟩
    · exact ⟨n, Layout.mem_objects_insert.mpr (Or.inr rfl), hmem⟩
  · refine hfs.rootFile_congr hother (fun j hj => ?_) fun j hchild hmatch => ?_
    · by_cases hnew : j = i
      · subst hnew
        rw [matchesName_new ins hname hother hne, Directory.matchesName, ins.slot.2,
          Bool.false_and]
      · exact (h.sameEntry_inserted hroot ins hroot hj fun hboth => hnew hboth.2).matchesName other
    · have hold : ¬ (1 = 1 ∧ j = i) := by
        rintro ⟨-, rfl⟩
        have hfree := ins.slot.2
        rw [hchild.inUse] at hfree
        cases hfree
      obtain ⟨-, t, ht, hfile⟩ := hfs.file_of_child hchild
      refine ⟨(h.sameEntry_inserted hroot ins hroot hchild.high hold).sector, ?_⟩
      rw [ht, Int.toNat_natCast]
      exact h.contents_frame hroot ins.frame hfile

/-- A file taken out of the directory. -/
theorem removed (hfs : fs.RootOwned L) {disk' : Disk} {t : ℕ} (hname : IsFileName name)
    (hindex : (fs.disk.dirTable 1).findIndex name = some i)
    (rem : fs.disk.Removed disk' L 1 i t)
    (hmarks : ∀ x < 1024, disk'.freeMap.testBit x =
      (fs.disk.freeMap.testBit x && decide (x ∉ fs.disk.owned t))) :
    ({ fs with disk := disk' } : FileSystem).RootOwned (L.erase t) ∧
      ∀ other, IsFileName other → other ≠ name →
        disk'.rootFile other = fs.disk.rootFile other := by
  have h := hfs.valid.consistent
  have hroot := hfs.root_mem
  obtain ⟨htroot, htzero, -⟩ := h.target_mem hroot rem
  have hheader {s : ℕ} (hs : s ∈ L.objects) : disk' s = fs.disk s := h.header_frame hroot rem.frame hs
  refine ⟨⟨hfs.valid.of_removed rem, ?_, ?_, fun x hx hmark => ?_⟩, fun other hother hne => ?_⟩
  · rw [Layout.erase, hfs.dirs]
    exact Finset.erase_eq_of_notMem (by simpa using htroot)
  · rw [Disk.header_congr (hheader (Consistent.mem_objects_of_dir hroot))]
    exact hfs.rootSize
  · rw [hmarks x hx, Bool.and_eq_true, decide_eq_true_eq] at hmark
    obtain ⟨s, hs, hmem⟩ := hfs.exact x hx hmark.1
    have hne : s ≠ t := by
      rintro rfl
      exact hmark.2 hmem
    refine ⟨s, ?_, by rw [Disk.owned_congr (hheader hs)]; exact hmem⟩
    rw [Layout.mem_objects] at hs ⊢
    simpa [Layout.erase, hne] using hs
  · have hkept {j : ℕ} (hmatch : (fs.disk.dirTable 1).matchesName other j = true) :
        ¬ (1 = 1 ∧ j = i) := by
      rintro ⟨-, rfl⟩
      rw [matchesName_of_ne hname hother hne (Directory.findIndex_eq_some hindex).2.1] at hmatch
      cases hmatch
    refine hfs.rootFile_congr hother (fun j hj => ?_) fun j hchild hmatch => ?_
    · by_cases hold : j = i
      · subst hold
        rw [matchesName_of_ne hname hother hne (Directory.findIndex_eq_some hindex).2.1,
          Directory.matchesName, Consistent.inUse_removed rem, Bool.false_and]
      · exact (h.sameEntry_removed hroot rem hroot hj fun hboth => hold hboth.2).matchesName other
    · obtain ⟨-, r, hr, hfile⟩ := hfs.file_of_child hchild
      refine ⟨(h.sameEntry_removed hroot rem hroot hchild.high (hkept hmatch)).sector, ?_⟩
      rw [hr, Int.toNat_natCast]
      exact h.contents_frame hroot rem.frame hfile

/-- The data of a file overwritten. -/
theorem written (hfs : fs.RootOwned L) {disk' : Disk} {t : ℕ} (hname : IsFileName name)
    (hindex : (fs.disk.dirTable 1).findIndex name = some i)
    (htarget : (fs.disk.dirTable 1).sector i = t) (ht : t ∈ L.files)
    (hframe : ∀ x, x ∉ fs.disk.dataList t → disk' x = fs.disk x) :
    ({ fs with disk := disk' } : FileSystem).RootOwned L ∧
      ∀ other, IsFileName other → other ≠ name →
        disk'.rootFile other = fs.disk.rootFile other := by
  have h := hfs.valid.consistent
  have hroot := hfs.root_mem
  have hheader {s : ℕ} (hs : s ∈ L.objects) : disk' s = fs.disk s := h.header_written ht hframe hs
  have hchild := hfs.child_of_findIndex hname hindex
  refine ⟨⟨hfs.valid.of_disk (h.written ht hframe) hroot (hheader Consistent.zero_mem_objects)
    (hheader (Consistent.mem_objects_of_dir hroot)), hfs.dirs, ?_, fun x hx hmark => ?_⟩,
    fun other hother hne => ?_⟩
  · rw [Disk.header_congr (hheader (Consistent.mem_objects_of_dir hroot))]
    exact hfs.rootSize
  · rw [h.testBit_written ht hframe hx] at hmark
    obtain ⟨s, hs, hmem⟩ := hfs.exact x hx hmark
    exact ⟨s, hs, by rw [Disk.owned_congr (hheader hs)]; exact hmem⟩
  · refine hfs.rootFile_congr hother
      (fun j hj => (h.sameEntry_written ht hframe hroot hj).matchesName other)
      fun j hjChild hmatch => ?_
    obtain ⟨-, r, hr, hfile⟩ := hfs.file_of_child hjChild
    refine ⟨(h.sameEntry_written ht hframe hroot hjChild.high).sector, ?_⟩
    rw [hr, Int.toNat_natCast]
    refine h.contents_written ht hframe hfile ?_
    rintro rfl
    -- The same file would be entered twice, under different names.
    have hequal := (h.unique 1 hroot 1 hroot j i hjChild hchild (hr.trans htarget.symm)).2
    rw [hequal, matchesName_of_ne hname hother hne (Directory.findIndex_eq_some hindex).2.1] at hmatch
    cases hmatch

/-- Removing a file returns, whether or not it is there. -/
theorem removeFile_cases (hfs : fs.RootOwned L) (hname : IsFileName name) (heap : Heap) :
    fs.removeFile heap name = .ok (false, fs) ∨
      ∃ i t disk', (fs.disk.dirTable 1).findIndex name = some i ∧
        fs.removeFile heap name = .ok (true, { fs with disk := disk' }) ∧
        fs.disk.Removed disk' L 1 i t ∧
        ∀ x < 1024, disk'.freeMap.testBit x =
          (fs.disk.freeMap.testBit x && decide (x ∉ fs.disk.owned t)) := by
  rw [FileSystem.removeFile, FileSystem.atPath_of_component hname.component]
  cases hindex : (fs.disk.dirTable 1).findIndex name with
  | none =>
      rw [hfs.valid.removeFile_of_absent heap hindex]
      exact Or.inl rfl
  | some i =>
      obtain ⟨hflag, -⟩ := hfs.file_of_child (hfs.child_of_findIndex hname hindex)
      obtain ⟨t, -, disk', hok, rem, hmarks⟩ := hfs.valid.removeFile_of_file heap hindex hflag
      rw [hok]
      exact Or.inr ⟨i, t, disk', rfl, rfl, rem, hmarks⟩

/-- **One step** keeps the invariant and the contents of every other file. -/
theorem step {call : RootCall} (hfs : fs.RootOwned L) (hstep : RootCall.Step fs call fs') :
    (∃ L', fs'.RootOwned L') ∧ ∀ other, IsFileName other → other ≠ call.name →
      fs'.disk.rootFile other = fs.disk.rootFile other := by
  obtain ⟨hname, hreturns⟩ := hstep
  cases call with
  | createFile name initialSize =>
      simp only [RootCall.name] at hname ⊢
      obtain ⟨hlow, hhigh, heap, result, hok⟩ := hreturns
      have hmax : initialSize ≤ 3840 := hhigh
      rw [FileSystem.createFile, FileSystem.atPath_of_component hname.component] at hok
      obtain hfalse | ⟨n, i, disk', htrue, ins, -, hmarks⟩ :=
        hfs.valid.createFile_cases heap name initialSize (by omega) hmax
      · rw [hfalse] at hok
        cases hok
        exact ⟨⟨L, hfs⟩, fun _ _ _ => rfl⟩
      · rw [htrue] at hok
        cases hok
        obtain ⟨hnext, hother⟩ := hfs.inserted hname ins hmarks
        exact ⟨⟨_, hnext⟩, hother⟩
  | removeFile name =>
      simp only [RootCall.name] at hname ⊢
      obtain ⟨heap, result, hok⟩ := hreturns
      obtain hfalse | ⟨i, t, disk', hindex, htrue, rem, hmarks⟩ := hfs.removeFile_cases hname heap
      · rw [hfalse] at hok
        cases hok
        exact ⟨⟨L, hfs⟩, fun _ _ _ => rfl⟩
      · rw [htrue] at hok
        cases hok
        obtain ⟨hnext, hother⟩ := hfs.removed hname hindex rem hmarks
        exact ⟨⟨_, hnext⟩, hother⟩
  | writeAt name file source numBytes position =>
      simp only [RootCall.name] at hname ⊢
      obtain ⟨hn, hposition, i, hindex, hopen, uninit, result, disk', hok, rfl⟩ := hreturns
      obtain ⟨-, t, ht, hfile⟩ := hfs.file_of_child (hfs.child_of_findIndex hname hindex)
      simp only [DirectorySector] at hopen
      rw [ht, Int.toNat_natCast] at hopen
      obtain ⟨hnext, hother⟩ := hfs.written hname hindex ht hfile
        (hfs.valid.consistent.writeFile hfile hopen hn.2 hposition.1 hok)
      exact ⟨⟨_, hnext⟩, hother⟩

/-- A formatted disk satisfies the invariant. -/
theorem format {heap : Heap} {disk : Disk} {tableMemory : ℕ → Option OpenFileEntry}
    (hformat : FileSystem.format heap disk tableMemory = .ok fs) : fs.RootOwned Layout.initial := by
  obtain ⟨fs₁, hok, hformatted, hvalid, -⟩ := FileSystem.format_eq_ok heap disk tableMemory
  rw [hok] at hformat
  cases hformat
  refine ⟨hvalid, rfl, ?_, fun x hx hmark => ?_⟩
  · rw [hformatted.root.2.1]
    omega
  · rw [hformatted.marks x hx, decide_eq_true_eq] at hmark
    by_cases hmap : x = 0 ∨ x = 2
    · exact ⟨0, Consistent.zero_mem_objects, by rw [hformatted.owned_zero]; simpa using hmap⟩
    · refine ⟨1, Consistent.mem_objects_of_dir hvalid.current_mem, ?_⟩
      rw [hformatted.owned_one]
      simp
      omega

end FileSystem.RootOwned

/-- **The ownership invariant.** In every state of a run that starts on a formatted
disk: the free map marks exactly the sectors listed by the headers of the free map,
of the root directory and of the files entered in it; these sectors are distinct;
removing any name returns, so that no assertion of `Deallocate` fails; and no step
of the run changed the contents of a file other than the one it names. -/
theorem sectors_owned_once {heap : Heap} {disk : Disk} {tableMemory : ℕ → Option OpenFileEntry}
    {fs₀ fs : FileSystem} {steps : List (Step FileSystem RootCall)}
    (hformat : FileSystem.format heap disk tableMemory = .ok fs₀)
    (hrun : Trace RootCall.Step fs₀ steps fs) :
    (∀ x < NumSectors, fs.disk.freeMap.testBit x = true ↔ x ∈ fs.disk.rootSectors) ∧
      (∀ x ∈ fs.disk.rootSectors, x < NumSectors) ∧ fs.disk.rootSectors.Nodup ∧
      (∀ name, IsFileName name → ∀ heap, ∃ result, fs.removeFile heap name = .ok result) ∧
      ∀ x ∈ steps, ∀ other, IsFileName other → other ≠ x.label.name →
        x.after.disk.rootFile other = x.before.disk.rootFile other := by
  obtain ⟨⟨L, hfs⟩, hall⟩ := Trace.invariant_of_forall (I := fun fs => ∃ L, fs.RootOwned L)
    (fun x ⟨_, hbefore⟩ hstep => (hbefore.step hstep).1) hrun
    ⟨_, FileSystem.RootOwned.format hformat⟩
  refine ⟨fun x hx => hfs.testBit_iff hx, fun x hx => ?_, hfs.nodup_rootSectors,
    fun name hname heap => ?_, fun x hx => ?_⟩
  · obtain ⟨s, hs, hmem⟩ := hfs.mem_rootSectors.mp hx
    exact hfs.valid.consistent.owned_lt hs hmem
  · obtain hfalse | ⟨_, _, _, _, htrue, _⟩ := hfs.removeFile_cases hname heap
    · exact ⟨_, hfalse⟩
    · exact ⟨_, htrue⟩
  · obtain ⟨⟨_, hbefore⟩, -⟩ := hall x hx
    exact (hbefore.step (hrun.rel_of_mem x hx)).2

/-- A run that creates the file `a` on a blank disk. -/
theorem sectors_owned_once_create : ∃ fs₀ fs,
    FileSystem.format (fun _ _ => 0) (fun _ _ => 0) (fun _ => none) = .ok fs₀ ∧
    RootCall.Step fs₀ (.createFile [97] 300) fs ∧
    (∀ x < NumSectors, fs.disk.freeMap.testBit x = true ↔ x ∈ fs.disk.rootSectors) ∧
    fs.disk.rootSectors.Nodup := by
  obtain ⟨fs₀, hformat, -, hvalid, -⟩ :=
    FileSystem.format_eq_ok (fun _ _ => 0) (fun _ _ => 0) (fun _ => none)
  have hstep : ∃ fs, RootCall.Step fs₀ (.createFile [97] 300) fs := by
    have hcreate : ∃ result fs, fs₀.createFile (fun _ _ => 0) [97] 300 = .ok (result, fs) := by
      rw [FileSystem.createFile, FileSystem.atPath_of_component (by decide)]
      obtain hfalse | ⟨n, i, disk', htrue, -⟩ :=
        hvalid.createFile_cases (fun _ _ => 0) [97] 300 (by omega) (by omega)
      · exact ⟨false, _, by rw [hfalse]; rfl⟩
      · exact ⟨true, _, by rw [htrue]; rfl⟩
    obtain ⟨result, fs, hok⟩ := hcreate
    exact ⟨fs, ⟨by decide, by decide, by decide⟩, by omega, by decide, _, result, hok⟩
  obtain ⟨fs, hstep⟩ := hstep
  have howned := sectors_owned_once hformat ((Trace.nil fs₀).snoc hstep)
  exact ⟨fs₀, fs, hformat, hstep, howned.1, howned.2.2.1⟩

end Nachos
