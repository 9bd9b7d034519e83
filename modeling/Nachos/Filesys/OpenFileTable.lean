/-
# The table of open files

`filesys/openfiletable.{h,cc}`. Each entry holds its own `OpenFile`, so its own
copy of the header, together with the mode and the header sector it was opened
on. The table lock is held across each function, which therefore is one step.
-/

import Nachos.Filesys.Directory

namespace Nachos

open Base

/-- The maximum of files which can be opened at the same time. -/
def NbFileTableEntries : ℕ := 10

/-- Number of entries in a directory. -/
def NumDirEntries : ℕ := 10

/-- The mode character `'r'`. -/
def modeRead : UInt8 := 114

/-- The mode character `'w'`. -/
def modeWrite : UInt8 := 119

/-- `class OpenFileEntry`. -/
structure OpenFileEntry where
  file : OpenFile
  mode : UInt8
  sector : ℤ

/-- `class OpenFileTable`; `none` is a `NULL` entry. -/
structure OpenFileTable where
  table : ℕ → Option OpenFileEntry
  nbFiles : ℤ

namespace OpenFileTable

/-- `OpenFileTable::OpenFileTable`: only the counter is initialised. -/
def new (uninit : ℕ → Option OpenFileEntry) : OpenFileTable := ⟨uninit, 0⟩

/-- `table[i] = e`. -/
def set (t : OpenFileTable) (i : ℕ) (e : Option OpenFileEntry) : ℕ → Option OpenFileEntry :=
  fun j => if j = i then e else t.table j

/-- `OpenFileTable::Find`, with `none` for `-1`. -/
def find (t : OpenFileTable) (sector : ℤ) : Option ℕ :=
  (List.range NbFileTableEntries).find? fun i =>
    match t.table i with
    | some e => decide (e.sector = sector)
    | none => false

/-- `OpenFileTable::Add`. -/
def add (t : OpenFileTable) (e : OpenFileEntry) : Except Fault (ℤ × OpenFileTable) :=
  if t.nbFiles ≥ NbFileTableEntries then .ok (-1, t)
  else
    match (List.range NbFileTableEntries).find? fun i => (t.table i).isNone with
    | some i => .ok (i, ⟨t.set i (some e), t.nbFiles + 1⟩)
    | none => .error .assertion

/-- `OpenFileTable::Remove`. -/
def remove (t : OpenFileTable) (i : ℕ) : ℤ × OpenFileTable :=
  if (t.table i).isSome then (0, ⟨t.set i none, t.nbFiles - 1⟩) else (-1, t)

/-- `OpenFileTable::Open`, in the directory `currentDirectory`. -/
def openFile (t : OpenFileTable) (heap : ℕ → Mem) (disk : Disk) (currentDirectory : OpenFile)
    (name : Name) (mode : UInt8) : Except Fault (ℤ × OpenFileTable) := do
  let directory ← (Directory.new (heap 0) NumDirEntries).fetchFrom disk currentDirectory
  let sector := directory.find name
  if sector < 0 then return (-1, t)
  else do
    let file ← OpenFile.new (heap 1) disk sector
    let entry : OpenFileEntry := ⟨file, mode, sector⟩
    match t.find entry.sector with
    | some i => return (i, t)
    | none => t.add entry

/-- `OpenFileTable::Close`. The index is used unchecked. -/
def close (t : OpenFileTable) (i : ℤ) : Except Fault (ℤ × OpenFileTable) := do
  inBounds (i ≥ 0 ∧ i < NbFileTableEntries)
  if (t.table i.toNat).isNone then return (-1, t)
  else return t.remove i.toNat

/-- `OpenFileTable::Get`. -/
def get (t : OpenFileTable) (i : ℤ) : Option OpenFileEntry :=
  if i ≥ NbFileTableEntries ∨ i < 0 then none else t.table i.toNat

end OpenFileTable

end Nachos
