/-
# Directories

`filesys/directory.{h,cc}`. A directory in memory is a table of 20-byte entries,
fetched from and written back to its file as raw bytes. In one entry `inUse` is
byte 0, `sector` bytes 4 to 7, `name` bytes 8 to 17 and `isDirectory` byte 18;
the other bytes are padding.
-/

import Mathlib.Data.List.Find
import Nachos.Base.CString
import Nachos.Filesys.OpenFile

namespace Nachos

open Base

/-- Longest file name, in characters, that is stored and compared. -/
def FileNameMaxLen : ℕ := 9

/-- `sizeof(DirectoryEntry)`. -/
def sizeofDirectoryEntry : ℕ := 20

/-- A file or directory name, without its terminating zero. -/
abbrev Name := List UInt8

/-- `class Directory`. -/
structure Directory where
  /-- Number of directory entries. -/
  tableSize : ℕ
  /-- The entries, as raw memory. -/
  table : Mem

namespace Directory

/-- `table[i].inUse`. -/
def inUse (d : Directory) (i : ℕ) : Bool := d.table (20 * i) != 0

/-- `table[i].sector`. -/
def sector (d : Directory) (i : ℕ) : ℤ := d.table.int32 (20 * i + 4)

/-- `table[i].name`. -/
def name (d : Directory) (i : ℕ) : Mem := d.table.shift (20 * i + 8)

/-- `table[i].isDirectory`. -/
def isDirectory (d : Directory) (i : ℕ) : Bool := d.table (20 * i + 18) != 0

/-- `Directory::Directory`: the entries are marked unused, nothing else is set. -/
def new (uninit : Mem) (size : ℕ) : Directory :=
  ⟨size, (List.range size).foldl (fun t i => t.setByte (20 * i) 0) uninit⟩

/-- `Directory::FetchFrom`. -/
def fetchFrom (d : Directory) (disk : Disk) (file : OpenFile) : Except Fault Directory := do
  let (_, table) ← file.readAt disk d.table 0 (d.tableSize * sizeofDirectoryEntry : ℕ) 0
  return { d with table := table }

/-- `Directory::WriteBack`. -/
def writeBack (d : Directory) (uninit : Mem) (disk : Disk) (file : OpenFile) :
    Except Fault Disk :=
  Prod.snd <$> file.writeAt uninit disk d.table (d.tableSize * sizeofDirectoryEntry : ℕ) 0

/-- Entry `i` is in use and its name is `name`. -/
def matchesName (d : Directory) (name : Name) (i : ℕ) : Bool :=
  d.inUse i && Mem.strnEqual (d.name i) (Mem.ofString name) FileNameMaxLen

/-- `Directory::FindIndex`, with `none` for `-1`. -/
def findIndex (d : Directory) (name : Name) : Option ℕ :=
  (List.range d.tableSize).find? (d.matchesName name)

/-- `Directory::Find`. -/
def find (d : Directory) (name : Name) : ℤ :=
  match d.findIndex name with
  | some i => d.sector i
  | none => -1

/-- `Directory::Add`. -/
def add (d : Directory) (name : Name) (isDirectory : Bool) (i : ℕ) (sector : ℤ) : Directory :=
  let t := d.table.setByte (20 * i) 1
  let t := t.setByte (20 * i + 18) (if isDirectory then 1 else 0)
  let t := t.setInt32 (20 * i + 4) sector
  { d with table := t.strncpy (20 * i + 8) (Mem.ofString name) FileNameMaxLen }

/-- The common body of `AddFile` and `AddDir`. -/
def addEntry (d : Directory) (name : Name) (isDirectory : Bool) (sector : ℤ) : Bool × Directory :=
  if (d.findIndex name).isSome then (false, d)
  else
    match (List.range d.tableSize).find? fun i => !d.inUse i with
    | some i => (true, d.add name isDirectory i sector)
    | none => (false, d)

/-- `Directory::AddFile`. -/
def addFile (d : Directory) (name : Name) (sector : ℤ) : Bool × Directory :=
  d.addEntry name false sector

/-- `Directory::AddDir`. -/
def addDir (d : Directory) (name : Name) (sector : ℤ) : Bool × Directory :=
  d.addEntry name true sector

/-- The name `"."`. -/
def dot : Name := [46]

/-- The name `".."`. -/
def dotDot : Name := [46, 46]

/-- `Directory::AddSpecialDir`. -/
def addSpecialDir (d : Directory) (sector sector' : ℤ) : Bool × Directory :=
  if d.inUse 0 || d.inUse 1 then (false, d)
  else (true, (d.add dot true 0 sector).add dotDot true 1 sector')

/-- `Directory::Remove`. -/
def remove (d : Directory) (name : Name) : Bool × Directory :=
  match d.findIndex name with
  | none => (false, d)
  | some i => (true, { d with table := d.table.setByte (20 * i) 0 })

/-- `Directory::IsEmpty`: no entry from the third on is in use. -/
def isEmpty (d : Directory) : Bool :=
  (List.range d.tableSize).all fun i => decide (i < 2) || !d.inUse i

/-- A line that `Directory::List` prints: the name, whether it is a directory, and the
length divided by eight. -/
structure ListRow where
  name : Name
  isDirectory : Bool
  size : ℤ

/-- `Directory::List`. -/
def list (d : Directory) (uninit : Mem) (disk : Disk) : Except Fault (List ListRow) :=
  ((List.range d.tableSize).filter d.inUse).mapM fun i => do
    let header ← (FileHeader.newZeroed uninit).fetchFrom disk (d.sector i)
    return ⟨(d.name i).cString 0 (FileNameMaxLen + 1), d.isDirectory i, header.fileLength.tdiv 8⟩

/-! ## Entries of a changed table -/

/-- Entry `i` is made of the same bytes in both tables. -/
def SameEntry (d d' : Directory) (i : ℕ) : Prop :=
  ∀ k < 20, d.table (20 * i + k) = d'.table (20 * i + k)

theorem SameEntry.inUse {d d' : Directory} {i : ℕ} (same : d.SameEntry d' i) :
    d.inUse i = d'.inUse i := by
  have := same 0 (by omega)
  rw [Nat.add_zero] at this
  rw [Directory.inUse, Directory.inUse, this]

theorem SameEntry.sector {d d' : Directory} {i : ℕ} (same : d.SameEntry d' i) :
    d.sector i = d'.sector i :=
  Mem.int32_congr fun k hk => by
    have := same (4 + k) (by omega)
    rwa [← Nat.add_assoc] at this

theorem SameEntry.isDirectory {d d' : Directory} {i : ℕ} (same : d.SameEntry d' i) :
    d.isDirectory i = d'.isDirectory i := by
  rw [Directory.isDirectory, Directory.isDirectory, same 18 (by omega)]

theorem SameEntry.name {d d' : Directory} {i : ℕ} (same : d.SameEntry d' i) :
    Mem.strnEqual (d.name i) (d'.name i) 9 = true :=
  Mem.strnEqual_iff.mpr fun k hk _ => by
    have := same (8 + k) (by omega)
    simpa [Directory.name, ← Nat.add_assoc] using this

/-- Two such entries agree in both tables. -/
theorem SameEntry.names_agree {d d' : Directory} {i j : ℕ} (same : d.SameEntry d' i)
    (same' : d.SameEntry d' j) (hequal : Mem.strnEqual (d.name i) (d.name j) 9 = true) :
    Mem.strnEqual (d'.name i) (d'.name j) 9 = true := by
  rw [Mem.strnEqual_congr_left same.name] at hequal
  exact Mem.strnEqual_trans hequal same'.name

theorem SameEntry.matchesName {d d' : Directory} {i : ℕ} (same : d.SameEntry d' i)
    (name : Name) : d.matchesName name i = d'.matchesName name i := by
  rw [Directory.matchesName, Directory.matchesName, same.inUse, FileNameMaxLen,
    Mem.strnEqual_congr_left same.name]

section Add

variable (d : Directory) (name : Name) (isDir : Bool) (i : ℕ) (s : ℤ)

theorem table_add_of_not_mem {k : ℕ} (hk : k < 20 * i ∨ 20 * i + 20 ≤ k) :
    (d.add name isDir i s).table k = d.table k := by
  simp only [add]
  rw [Mem.strncpy_of_not_mem _ _ (by simp only [FileNameMaxLen]; omega),
    Mem.setInt32_of_not_mem _ _ (by omega), Mem.setByte_of_ne _ _ (by omega),
    Mem.setByte_of_ne _ _ (by omega)]

theorem sameEntry_add {j : ℕ} (hne : j ≠ i) : (d.add name isDir i s).SameEntry d j :=
  fun k hk => d.table_add_of_not_mem name isDir i s (by omega)

theorem inUse_add : (d.add name isDir i s).inUse i = true := by
  simp only [inUse, add]
  rw [Mem.strncpy_of_not_mem _ _ (by omega), Mem.setInt32_of_not_mem _ _ (by omega),
    Mem.setByte_of_ne _ _ (by omega), Mem.setByte_self]
  rfl

theorem isDirectory_add : (d.add name isDir i s).isDirectory i = isDir := by
  simp only [isDirectory, add]
  rw [Mem.strncpy_of_not_mem _ _ (by simp only [FileNameMaxLen]; omega),
    Mem.setInt32_of_not_mem _ _ (by omega), Mem.setByte_self]
  cases isDir <;> rfl

theorem sector_add (hlow : -2 ^ 31 ≤ s) (hhigh : s < 2 ^ 31) :
    (d.add name isDir i s).sector i = s := by
  have h := Mem.int32_setInt32_self
    ((d.table.setByte (20 * i) 1).setByte (20 * i + 18) (if isDir then 1 else 0)) (20 * i + 4)
    hlow hhigh
  refine Eq.trans (Mem.int32_congr fun k hk => ?_) h
  exact Mem.strncpy_of_not_mem _ _ (by omega)

theorem name_add : Mem.strnEqual ((d.add name isDir i s).name i) (Mem.ofString name) 9 = true :=
  Mem.strnEqual_symm (Mem.strnEqual_strncpy _ _ _ _)

end Add

/-- `Add` works byte by byte. -/
theorem table_add_congr {d d' : Directory} {k : ℕ} (name : Name) (isDir : Bool) (i : ℕ) (s : ℤ)
    (h : d.table k = d'.table k) :
    (d.add name isDir i s).table k = (d'.add name isDir i s).table k := by
  simp only [add, Mem.strncpy, Mem.setInt32, Mem.setWord, Mem.setByte, h]

/-- The entry just added is found by every name that compares equal. -/
theorem matchesName_add (d : Directory) (name : Name) (isDir : Bool) (i : ℕ) (s : ℤ)
    (other : Name) : (d.add name isDir i s).matchesName other i =
      Mem.strnEqual (Mem.ofString name) (Mem.ofString other) 9 := by
  rw [matchesName, inUse_add, Bool.true_and, FileNameMaxLen,
    Mem.strnEqual_congr_left (d.name_add name isDir i s)]

/-- What `FindIndex` returns. -/
theorem findIndex_eq_some {d : Directory} {name : Name} {i : ℕ} (h : d.findIndex name = some i) :
    i < d.tableSize ∧ d.matchesName name i = true ∧ ∀ j < i, d.matchesName name j = false := by
  obtain ⟨hmatch, hlt, hless⟩ := List.find?_range_eq_some.mp h
  exact ⟨by simpa using hlt, hmatch, fun j hj => by simpa using hless j hj⟩

theorem findIndex_eq_none {d : Directory} {name : Name} :
    d.findIndex name = none ↔ ∀ i < d.tableSize, d.matchesName name i = false := by
  simp [findIndex, List.find?_eq_none]

theorem findIndex_congr {d d' : Directory} {name : Name} (hsize : d'.tableSize = d.tableSize)
    (h : ∀ j < d.tableSize, d'.matchesName name j = d.matchesName name j) :
    d'.findIndex name = d.findIndex name := by
  rw [findIndex, findIndex, hsize]
  exact List.find?_congr fun j hj => h j (List.mem_range.mp hj)

/-- A lookup depends on the entries that match the name. -/
theorem find_congr {d d' : Directory} {name : Name} (hsize : d'.tableSize = d.tableSize)
    (h : ∀ j < d.tableSize, d'.SameEntry d j ∨
      d'.matchesName name j = false ∧ d.matchesName name j = false) :
    d'.find name = d.find name := by
  have hindex : d'.findIndex name = d.findIndex name := by
    refine findIndex_congr hsize fun j hj => ?_
    rcases h j hj with same | ⟨hno', hno⟩
    · exact same.matchesName name
    · rw [hno', hno]
  rw [find, find, hindex]
  cases hfound : d.findIndex name with
  | none => rfl
  | some j =>
      obtain ⟨hj, hyes, -⟩ := findIndex_eq_some hfound
      rcases h j hj with same | ⟨-, hno⟩
      · exact same.sector
      · rw [hyes] at hno
        cases hno

/-- An entry that is not in use has no name. -/
theorem matchesName_of_free {d : Directory} {i : ℕ} (h : d.inUse i = false) (name : Name) :
    d.matchesName name i = false := by
  rw [matchesName, h, Bool.false_and]

/-- A new entry is found under its name. -/
theorem findIndex_add {d : Directory} {name : Name} {i : ℕ} (isDir : Bool) (s : ℤ)
    (hi : i < d.tableSize) (hfresh : ∀ j < d.tableSize, d.matchesName name j = false) :
    (d.add name isDir i s).findIndex name = some i := by
  rw [findIndex, List.find?_range_eq_some]
  refine ⟨?_, List.mem_range.mpr hi, fun j hj => ?_⟩
  · rw [matchesName_add]
    exact Mem.strnEqual_refl _ _
  · rw [(d.sameEntry_add name isDir i s (show j ≠ i by omega)).matchesName,
      hfresh j (by omega)]
    rfl

/-- The outcome of `AddFile` and `AddDir`. -/
theorem addEntry_cases (d : Directory) (name : Name) (isDir : Bool) (s : ℤ) :
    d.addEntry name isDir s = (false, d) ∨
      ∃ i < d.tableSize, d.inUse i = false ∧ (∀ j < i, d.inUse j = true) ∧
        d.findIndex name = none ∧ d.addEntry name isDir s = (true, d.add name isDir i s) := by
  unfold addEntry
  cases hfind : d.findIndex name with
  | some i => exact Or.inl rfl
  | none =>
      cases hfree : (List.range d.tableSize).find? fun i => !d.inUse i with
      | none => exact Or.inl rfl
      | some i =>
          obtain ⟨hclear, hlt, hless⟩ := List.find?_range_eq_some.mp hfree
          exact Or.inr ⟨i, by simpa using hlt, by simpa using hclear,
            fun j hj => by simpa using hless j hj, rfl, rfl⟩

/-- A new name is added when an entry is free. -/
theorem addEntry_of_free {d : Directory} {name : Name} (isDir : Bool) (s : ℤ) {j : ℕ}
    (habsent : d.findIndex name = none) (hj : j < d.tableSize) (hfree : d.inUse j = false) :
    (d.addEntry name isDir s).1 = true := by
  simp only [addEntry, habsent, Option.isSome_none, Bool.false_eq_true, if_false]
  split
  · rfl
  · rename_i hnone
    have hused := List.find?_eq_none.mp hnone j (List.mem_range.mpr hj)
    simp [hfree] at hused

/-- A new directory has no entry in use, whatever the memory held. -/
theorem inUse_new (uninit : Mem) {size i : ℕ} (hi : i < size) :
    (new uninit size).inUse i = false := by
  have hfold (l : List ℕ) (m : Mem) (h : i ∈ l ∨ m (20 * i) = 0) :
      (l.foldl (fun t j => t.setByte (20 * j) 0) m) (20 * i) = 0 := by
    induction l generalizing m with
    | nil => simpa using h
    | cons j rest ih =>
        rw [List.foldl_cons]
        apply ih
        by_cases hequal : i = j
        · exact Or.inr (by rw [hequal, Mem.setByte_self])
        · rw [Mem.setByte_of_ne _ _ (by omega)]
          rcases h with h | h
          · exact Or.inl (by simpa [hequal] using h)
          · exact Or.inr h
  simp [inUse, new, hfold (List.range size) uninit (Or.inl (List.mem_range.mpr hi))]

/-- The directory holds the two special entries and no other. -/
structure OnlySpecial (d : Directory) (s s' : ℤ) : Prop where
  dot : d.matchesName dot 0 = true ∧ d.isDirectory 0 = true ∧ d.sector 0 = s
  dotDot : d.matchesName dotDot 1 = true ∧ d.isDirectory 1 = true ∧ d.sector 1 = s'
  unused : ∀ i, 2 ≤ i → i < d.tableSize → d.inUse i = false

/-- Only the two special names are found in such a directory. -/
theorem OnlySpecial.findIndex {d : Directory} {s s' : ℤ} (h : d.OnlySpecial s s') {name : Name}
    (hdot : Mem.strnEqual (Mem.ofString Directory.dot) (Mem.ofString name) 9 = false)
    (hdotDot : Mem.strnEqual (Mem.ofString Directory.dotDot) (Mem.ofString name) 9 = false) :
    d.findIndex name = none := by
  have hfirst := h.dot.1
  have hsecond := h.dotDot.1
  rw [matchesName, Bool.and_eq_true, FileNameMaxLen] at hfirst hsecond
  refine findIndex_eq_none.mpr fun i hi => ?_
  rw [matchesName, Bool.and_eq_false_iff, FileNameMaxLen]
  rcases (by omega : i = 0 ∨ i = 1 ∨ 2 ≤ i) with rfl | rfl | hlow
  · rw [Mem.strnEqual_congr_left hfirst.2, hdot]
    exact Or.inr rfl
  · rw [Mem.strnEqual_congr_left hsecond.2, hdotDot]
    exact Or.inr rfl
  · exact Or.inl (h.unused i hlow hi)

/-- The first entries of such a directory are one. -/
theorem OnlySpecial.congr {d d' : Directory} {s s' : ℤ} (h : d.OnlySpecial s s')
    (hlow : 2 ≤ d'.tableSize) (hsize : d'.tableSize ≤ d.tableSize)
    (same : ∀ i < d'.tableSize, d'.SameEntry d i) : d'.OnlySpecial s s' := by
  refine ⟨?_, ?_, fun i hi hlt => ?_⟩
  · rw [(same 0 (by omega)).matchesName, (same 0 (by omega)).isDirectory,
      (same 0 (by omega)).sector]
    exact h.dot
  · rw [(same 1 (by omega)).matchesName, (same 1 (by omega)).isDirectory,
      (same 1 (by omega)).sector]
    exact h.dotDot
  · rw [(same i hlt).inUse]
    exact h.unused i hi (by omega)

/-- `AddSpecialDir` on a new directory. -/
theorem addSpecialDir_new (uninit : Mem) {size : ℕ} (hsize : 2 ≤ size) (s s' : ℤ)
    (hs : -2 ^ 31 ≤ s ∧ s < 2 ^ 31) (hs' : -2 ^ 31 ≤ s' ∧ s' < 2 ^ 31) :
    ∃ d, (new uninit size).addSpecialDir s s' = (true, d) ∧ d.tableSize = size ∧
      d.OnlySpecial s s' := by
  have hfirst : (new uninit size).inUse 0 = false := inUse_new uninit (by omega)
  have hsecond : (new uninit size).inUse 1 = false := inUse_new uninit (by omega)
  refine ⟨((new uninit size).add dot true 0 s).add dotDot true 1 s', ?_, rfl, ?_, ?_, ?_⟩
  · rw [addSpecialDir, hfirst, hsecond]
    rfl
  · have same := ((new uninit size).add dot true 0 s).sameEntry_add dotDot true 1 s'
      (show 0 ≠ 1 by omega)
    rw [same.matchesName, same.isDirectory, same.sector]
    exact ⟨matchesName_add _ dot true 0 s dot, isDirectory_add _ dot true 0 s,
      sector_add _ dot true 0 s hs.1 hs.2⟩
  · exact ⟨matchesName_add _ dotDot true 1 s' dotDot, isDirectory_add _ dotDot true 1 s',
      sector_add _ dotDot true 1 s' hs'.1 hs'.2⟩
  · intro i hlow hhigh
    rw [(sameEntry_add _ dotDot true 1 s' (show i ≠ 1 by omega)).inUse,
      (sameEntry_add _ dot true 0 s (show i ≠ 0 by omega)).inUse]
    exact inUse_new uninit hhigh

/-- `Remove` only clears the flag of one entry. -/
theorem sameEntry_setByte (d : Directory) {i j : ℕ} (b : UInt8) (hne : j ≠ i) :
    ({ d with table := d.table.setByte (20 * i) b } : Directory).SameEntry d j :=
  fun k hk => Mem.setByte_of_ne _ _ (by omega)

theorem inUse_setByte_zero (d : Directory) (i : ℕ) :
    ({ d with table := d.table.setByte (20 * i) 0 } : Directory).inUse i = false := by
  simp [inUse, Mem.setByte_self]

end Directory

end Nachos
