/-
# Consistent disks

What it means for the three on-disk structures to fit together. A layout names
the header sectors of the directories and of the plain files; a disk is
consistent with it when every object owns its sectors alone, every owned sector
is marked in the free map, and the directory entries form the tree of these
objects: the first two entries of each directory are the special ones, and each
other entry in use is the only one that refers to its object.

A directory is read through its first ten entries, whatever the length of its
file, and a header lists at most `NumDirect` sectors, whatever its count says.
-/

import Mathlib.Data.Finset.Insert
import Mathlib.Data.Finset.Lattice.Basic
import Nachos.Filesys.FileSystem

namespace Nachos

open Base

/-- The header stored in sector `s`. -/
def Disk.header (d : Disk) (s : ℕ) : FileHeader := ⟨d s⟩

/-- The sector numbers a header on disk really has: no more than it has room for. -/
def FileHeader.listed (h : FileHeader) : ℕ := min h.numSectors.toNat 30

namespace Disk

/-- Data sector `i` of the object with header sector `s`. -/
def dataSector (d : Disk) (s i : ℕ) : ℕ := ((d.header s).dataSectors i).toNat

/-- The data sectors of the object with header sector `s`. -/
def dataList (d : Disk) (s : ℕ) : List ℕ := (d.header s).sectorList (d.header s).listed

/-- All sectors of the object: its header and its data. -/
def owned (d : Disk) (s : ℕ) : List ℕ := s :: d.dataList s

/-- The bytes of the object's data sectors. -/
def bytes (d : Disk) (s : ℕ) : Mem := OpenFile.fileBytes d (d.header s)

/-- The directory with header sector `s`, as the file system reads it. -/
def dirTable (d : Disk) (s : ℕ) : Directory := ⟨10, d.bytes s⟩

/-- The free map stored in the free-map file. -/
def freeMap (d : Disk) : BitMap := ⟨1024, d.bytes 0⟩

/-- The readable contents of the file with header sector `s`. -/
def contents (d : Disk) (s : ℕ) : List UInt8 :=
  (List.range (d.header s).numBytes.toNat).map (d.bytes s)

theorem dataSector_mem {d : Disk} {s i : ℕ} (hi : i < (d.header s).listed) :
    d.dataSector s i ∈ d.dataList s :=
  FileHeader.mem_sectorList.mpr ⟨i, hi, rfl⟩

theorem mem_dataList {d : Disk} {s x : ℕ} :
    x ∈ d.dataList s ↔ ∃ i < (d.header s).listed, d.dataSector s i = x :=
  FileHeader.mem_sectorList

theorem bytes_apply (d : Disk) (s k : ℕ) : d.bytes s k = d (d.dataSector s (k / 128)) (k % 128) :=
  rfl

/-- The views of an object depend on its header sector and its data sectors only. -/
theorem header_congr {d d' : Disk} {s : ℕ} (h : d' s = d s) : d'.header s = d.header s := by
  rw [header, header, h]

theorem dataList_congr {d d' : Disk} {s : ℕ} (h : d' s = d s) : d'.dataList s = d.dataList s := by
  rw [dataList, dataList, header_congr h]

theorem owned_congr {d d' : Disk} {s : ℕ} (h : d' s = d s) : d'.owned s = d.owned s := by
  rw [owned, owned, dataList_congr h]

theorem dataSector_congr {d d' : Disk} {s : ℕ} (h : d' s = d s) (i : ℕ) :
    d'.dataSector s i = d.dataSector s i := by
  rw [dataSector, dataSector, header_congr h]

theorem bytes_congr {d d' : Disk} {s k : ℕ} (h : d' s = d s)
    (hdata : d' (d.dataSector s (k / 128)) = d (d.dataSector s (k / 128))) :
    d'.bytes s k = d.bytes s k := by
  rw [bytes_apply, bytes_apply, dataSector_congr h, hdata]

end Disk

/-- The header sectors of the directories and of the plain files. -/
structure Layout where
  dirs : Finset ℕ
  files : Finset ℕ

namespace Layout

/-- All objects; the free-map file has its header in sector 0. -/
def objects (L : Layout) : Finset ℕ := insert 0 (L.dirs ∪ L.files)

theorem mem_objects {L : Layout} {s : ℕ} :
    s ∈ L.objects ↔ s = 0 ∨ s ∈ L.dirs ∨ s ∈ L.files := by
  simp [objects]

end Layout

/-- Entry `i` of the directory `p` is an ordinary entry in use. -/
structure Disk.ChildEntry (d : Disk) (p i : ℕ) : Prop where
  low : 2 ≤ i
  high : i < 10
  inUse : (d.dirTable p).inUse i = true

/-- The three on-disk structures fit together. -/
structure Consistent (d : Disk) (L : Layout) : Prop where
  root_mem : 1 ∈ L.dirs
  zero_notMem : 0 ∉ L.dirs ∧ 0 ∉ L.files
  kinds : ∀ s ∈ L.dirs, s ∉ L.files
  inRange : ∀ s ∈ L.objects, s < 1024 ∧ (d.header s).InRange (d.header s).listed
  nodup : ∀ s ∈ L.objects, (d.owned s).Nodup
  separate : ∀ s ∈ L.objects, ∀ t ∈ L.objects, s ≠ t → (d.owned s).Disjoint (d.owned t)
  marked : ∀ s ∈ L.objects, ∀ x ∈ d.owned s, d.freeMap.testBit x = true
  mapHeader : (d.header 0).numBytes = 128 ∧ (d.header 0).numSectors = 1
  dirHeader : ∀ s ∈ L.dirs, 200 ≤ (d.header s).numBytes ∧ 2 ≤ (d.header s).listed
  fileHeader : ∀ s ∈ L.files, (d.header s).numBytes ≤ 128 * (d.header s).listed ∧
    (d.header s).numSectors ≤ 30
  dot : ∀ p ∈ L.dirs, (d.dirTable p).matchesName Directory.dot 0 = true ∧
    (d.dirTable p).isDirectory 0 = true ∧ (d.dirTable p).sector 0 = p
  dotDot : ∀ p ∈ L.dirs, (d.dirTable p).matchesName Directory.dotDot 1 = true ∧
    (d.dirTable p).isDirectory 1 = true
  rootParent : (d.dirTable 1).sector 1 = 1
  child : ∀ p ∈ L.dirs, ∀ i, d.ChildEntry p i → ∃ t : ℕ, (d.dirTable p).sector i = t ∧ t ≠ 1 ∧
    if (d.dirTable p).isDirectory i then t ∈ L.dirs else t ∈ L.files
  names : ∀ p ∈ L.dirs, ∀ i < 10, ∀ j < 10, (d.dirTable p).inUse i = true →
    (d.dirTable p).inUse j = true →
    Mem.strnEqual ((d.dirTable p).name i) ((d.dirTable p).name j) 9 = true → i = j
  unique : ∀ p ∈ L.dirs, ∀ q ∈ L.dirs, ∀ i j, d.ChildEntry p i → d.ChildEntry q j →
    (d.dirTable p).sector i = (d.dirTable q).sector j → p = q ∧ i = j
  fileParent : ∀ t ∈ L.files, ∃ p ∈ L.dirs, ∃ i, d.ChildEntry p i ∧ (d.dirTable p).sector i = t
  dirParent : ∀ t ∈ L.dirs, t ≠ 1 → ∃ p ∈ L.dirs, (d.dirTable t).sector 1 = p ∧
    ∃ i, d.ChildEntry p i ∧ (d.dirTable p).sector i = t
  acyclic : ∃ rank : ℕ → ℕ, ∀ p ∈ L.dirs, ∀ i, d.ChildEntry p i → ∀ t ∈ L.dirs,
    (d.dirTable p).sector i = t → rank p < rank t

namespace Consistent

variable {d : Disk} {L : Layout}

theorem mem_objects_of_dir {s : ℕ} (hs : s ∈ L.dirs) : s ∈ L.objects :=
  Layout.mem_objects.mpr (Or.inr (Or.inl hs))

theorem mem_objects_of_file {s : ℕ} (hs : s ∈ L.files) : s ∈ L.objects :=
  Layout.mem_objects.mpr (Or.inr (Or.inr hs))

theorem zero_mem_objects : 0 ∈ L.objects := Layout.mem_objects.mpr (Or.inl rfl)

theorem map_listed (h : Consistent d L) : (d.header 0).listed = 1 := by
  simp [FileHeader.listed, h.mapHeader.2]

/-- No header sector is a data sector. -/
theorem header_ne_data (h : Consistent d L) {s t x : ℕ} (hs : s ∈ L.objects) (ht : t ∈ L.objects)
    (hx : x ∈ d.dataList t) : s ≠ x := by
  rintro rfl
  by_cases hequal : s = t
  · subst hequal
    exact (List.nodup_cons.mp (h.nodup s hs)).1 hx
  · exact h.separate s hs t ht hequal (List.mem_cons_self) (List.mem_cons_of_mem _ hx)

/-- Different objects have no data sector in common. -/
theorem data_ne_data (h : Consistent d L) {s t x y : ℕ} (hs : s ∈ L.objects) (ht : t ∈ L.objects)
    (hne : s ≠ t) (hx : x ∈ d.dataList s) (hy : y ∈ d.dataList t) : x ≠ y := by
  rintro rfl
  exact h.separate s hs t ht hne (List.mem_cons_of_mem _ hx) (List.mem_cons_of_mem _ hy)

theorem dirData_mem (h : Consistent d L) {c i : ℕ} (hc : c ∈ L.dirs) (hi : i < 2) :
    d.dataSector c i ∈ d.dataList c :=
  Disk.dataSector_mem (lt_of_lt_of_le hi (h.dirHeader c hc).2)

theorem mapData_mem (h : Consistent d L) : d.dataSector 0 0 ∈ d.dataList 0 :=
  Disk.dataSector_mem (by rw [h.map_listed]; omega)

end Consistent

/-! ## Changes to one directory and the free map -/

/-- `d'` differs from `d`, among the sectors of the objects, at most in the first
two data sectors of the directory `c` and in the data sector of the free map. -/
def Disk.Frame (d d' : Disk) (L : Layout) (c : ℕ) : Prop :=
  ∀ t ∈ L.objects, ∀ x ∈ d.owned t, x ≠ d.dataSector c 0 → x ≠ d.dataSector c 1 →
    x ≠ d.dataSector 0 0 → d' x = d x

namespace Consistent

variable {d d' : Disk} {L : Layout} {c : ℕ}

/-- The header of every object is where and what it was. -/
theorem header_frame (h : Consistent d L) (hc : c ∈ L.dirs) (hframe : d.Frame d' L c) {t : ℕ}
    (ht : t ∈ L.objects) : d' t = d t :=
  hframe t ht t List.mem_cons_self
    (h.header_ne_data ht (mem_objects_of_dir hc) (h.dirData_mem hc (by omega)))
    (h.header_ne_data ht (mem_objects_of_dir hc) (h.dirData_mem hc (by omega)))
    (h.header_ne_data ht zero_mem_objects h.mapData_mem)

/-- So are the data sectors of every object but the directory and the free map. -/
theorem data_frame (h : Consistent d L) (hc : c ∈ L.dirs) (hframe : d.Frame d' L c) {t x : ℕ}
    (ht : t ∈ L.objects) (htc : t ≠ c) (htz : t ≠ 0) (hx : x ∈ d.dataList t) : d' x = d x :=
  hframe t ht x (List.mem_cons_of_mem _ hx)
    (h.data_ne_data ht (mem_objects_of_dir hc) htc hx (h.dirData_mem hc (by omega)))
    (h.data_ne_data ht (mem_objects_of_dir hc) htc hx (h.dirData_mem hc (by omega)))
    (h.data_ne_data ht zero_mem_objects htz hx h.mapData_mem)

/-- The bytes of every other object are unchanged as far as its header lists them. -/
theorem bytes_frame (h : Consistent d L) (hc : c ∈ L.dirs) (hframe : d.Frame d' L c) {t k : ℕ}
    (ht : t ∈ L.objects) (htc : t ≠ c) (htz : t ≠ 0) (hk : k < 128 * (d.header t).listed) :
    d'.bytes t k = d.bytes t k :=
  Disk.bytes_congr (h.header_frame hc hframe ht)
    (h.data_frame hc hframe ht htc htz (Disk.dataSector_mem (by omega)))

/-- The readable contents of a plain file are unchanged. -/
theorem contents_frame (h : Consistent d L) (hc : c ∈ L.dirs) (hframe : d.Frame d' L c) {t : ℕ}
    (ht : t ∈ L.files) : d'.contents t = d.contents t := by
  have hobj := mem_objects_of_file (L := L) ht
  rw [Disk.contents, Disk.contents, Disk.header_congr (h.header_frame hc hframe hobj)]
  apply List.map_congr_left
  intro k hk
  have hlength := (h.fileHeader t ht).1
  have hk' := List.mem_range.mp hk
  refine h.bytes_frame hc hframe hobj ?_ ?_ (by omega)
  · rintro rfl
    exact h.kinds t hc ht
  · rintro rfl
    exact h.zero_notMem.2 ht

/-- The entries of every other directory are unchanged. -/
theorem sameEntry_frame (h : Consistent d L) (hc : c ∈ L.dirs) (hframe : d.Frame d' L c) {p i : ℕ}
    (hp : p ∈ L.dirs) (hpc : p ≠ c) (hi : i < 10) :
    (d'.dirTable p).SameEntry (d.dirTable p) i := by
  intro k hk
  have hlisted := (h.dirHeader p hp).2
  refine h.bytes_frame hc hframe (mem_objects_of_dir hp) hpc ?_ (by omega)
  rintro rfl
  exact h.zero_notMem.1 hp

end Consistent

end Nachos
