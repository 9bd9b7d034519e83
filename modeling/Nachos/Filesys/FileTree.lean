/-
# The file system to its users

What a program relies on, in terms of names and bytes only: a tree of directories and files, the
directory the thread is in, and the files that ids stand for, with their modes and positions. There
are no sectors, headers or maps in it, so a creation may be refused at any time, and what a new file
holds is not said.
-/

import Nachos.Filesys.Tree

namespace Nachos

open Base

/-- The calls of the file system. -/
inductive FileSystemCall
  | createFile (path : List UInt8) (initialSize : ℤ)
  | createDir (path : List UInt8)
  | removeFile (path : List UInt8)
  | removeDir (path : List UInt8)
  | changeCurrentDir (path : List UInt8)
  | openFile (path : List UInt8) (mode : UInt8)
  | close (i : ℤ)
  | read (i : ℤ) (nbOctets : ℕ)
  | write (i : ℤ) (bytes : List UInt8)

/-- What a call returns; a read also delivers bytes. -/
inductive Answer
  | done
  | flag (b : Bool)
  | value (z : ℤ)
  | bytes (z : ℤ) (got : List UInt8)

/-- A call as it was made: with the contents of fresh memory and what it returned. -/
structure FileSystemStep where
  call : FileSystemCall
  heap : Heap
  answer : Answer

/-- A file that an id stands for. -/
structure OpenedFile where
  path : List Name
  mode : UInt8
  pos : ℕ

/-- The bytes written over others from a position on; the length stays. -/
def overwrite (old : List UInt8) (pos : ℕ) (bytes : List UInt8) : List UInt8 :=
  old.take pos ++ bytes.take (old.length - pos) ++ old.drop (pos + bytes.length)

/-- The state that a program sees. -/
structure FileTree where
  node : NameTree Name (List UInt8)
  /-- Where the thread is. -/
  here : List Name
  opened : ℕ → Option OpenedFile

namespace FileTree

/-- A fresh disk. -/
def initial : FileTree := ⟨NameTree.root, [], fun _ => none⟩

/-- Where a path leads by its names. -/
def goesTo (s : FileTree) (path : List UInt8) : Option (List Name) :=
  if WellFormedPath (components [] (path.takeWhile (· != 0))) then
    s.node.walk Directory.dot Directory.dotDot s.here (components [] (path.takeWhile (· != 0)))
  else none

/-- The directory and the name a path stands for. -/
def locate (s : FileTree) (path : List UInt8) : Option (List Name × Name) :=
  match FileSystem.splitPathAndName path with
  | .ok (name, tmpPath) =>
      if tmpPath = [] then some (s.here, name) else (s.goesTo tmpPath).map fun D => (D, name)
  | .error _ => none

/-- The tree with another node at a path. -/
def setNode (s : FileTree) (P : List Name) (node : Option (Node (List UInt8))) : FileTree :=
  { s with node := Function.update s.node P node }

@[simp]
theorem node_setNode_self (s : FileTree) (P : List Name) (node : Option (Node (List UInt8))) :
    (s.setNode P node).node P = node :=
  Function.update_self ..

@[simp]
theorem node_setNode_of_ne (s : FileTree) {P Q : List Name} (hne : Q ≠ P)
    (node : Option (Node (List UInt8))) : (s.setNode P node).node Q = s.node Q :=
  Function.update_of_ne hne ..

/-- The table with another entry under an id. -/
def setOpened (s : FileTree) (k : ℕ) (o : Option OpenedFile) : FileTree :=
  { s with opened := Function.update s.opened k o }

@[simp]
theorem opened_setOpened_self (s : FileTree) (k : ℕ) (o : Option OpenedFile) :
    (s.setOpened k o).opened k = o :=
  Function.update_self ..

@[simp]
theorem opened_setOpened_of_ne (s : FileTree) {j k : ℕ} (hne : j ≠ k) (o : Option OpenedFile) :
    (s.setOpened k o).opened j = s.opened j :=
  Function.update_of_ne hne ..

/-- The file an id stands for. -/
def get (s : FileTree) (i : ℤ) : Option OpenedFile :=
  if i ≥ NbFileTableEntries ∨ i < 0 then none else s.opened i.toNat

/-- The bytes of a file. -/
def contents (s : FileTree) (P : List Name) : List UInt8 :=
  match s.node P with
  | some (.file bytes) => bytes
  | _ => []

/-- A file that is open is not opened again, whatever the mode. -/
def openFile (s : FileTree) (P : List Name) (mode : UInt8) : ℤ × FileTree :=
  match s.node P with
  | some (.file _) =>
      match (List.range NbFileTableEntries).find? fun k => (s.opened k).any (·.path = P) with
      | some k => (k, s)
      | none =>
          match (List.range NbFileTableEntries).find? fun k => (s.opened k).isNone with
          | some k => (k, s.setOpened k (some ⟨P, mode, 0⟩))
          | none => (-1, s)
  | _ => (-1, s)

/-- An id that stands for nothing is refused. -/
def close (s : FileTree) (k : ℕ) : ℤ × FileTree :=
  match s.opened k with
  | some _ => (0, s.setOpened k none)
  | none => (-1, s)

/-- Bytes from the position on, as far as there are any. -/
def read (s : FileTree) (i : ℤ) (n : ℕ) : Answer × FileTree :=
  match s.get i with
  | none => (.bytes (-1) [], s)
  | some o =>
      if o.mode ≠ modeRead then (.bytes (-1) [], s)
      else
        let got := ((s.contents o.path).drop o.pos).take n
        (.bytes got.length got, s.setOpened i.toNat (some { o with pos := o.pos + got.length }))

/-- Bytes over those from the position on, as far as there are any. -/
def write (s : FileTree) (i : ℤ) (bytes : List UInt8) : Answer × FileTree :=
  match s.get i with
  | none => (.value (-1), s)
  | some o =>
      if o.mode ≠ modeWrite then (.value (-1), s)
      else
        let old := s.contents o.path
        let count := min bytes.length (old.length - o.pos)
        (.value count, (s.setNode o.path (some (.file (overwrite old o.pos bytes)))).setOpened i.toNat
          (some { o with pos := o.pos + count }))

/-- A creation at a path that is refused, or done where nothing was. -/
def Creates (s : FileTree) (path : List UInt8) (answer : Answer) (s' : FileTree)
    (new : Node (List UInt8) → Prop) : Prop :=
  ∃ D name, s.locate path = some (D, name) ∧
    (answer = .flag false ∧ s' = s ∨
      answer = .flag true ∧ OrdinaryName name ∧ s.node (D ++ [name]) = none ∧
        ∃ node, new node ∧ s' = s.setNode (D ++ [name]) (some node))

/-- A removal at a path, done exactly if what is there is to be removed. -/
def Removes (s : FileTree) (path : List UInt8) (answer : Answer) (s' : FileTree)
    (gone : List Name → Prop) : Prop :=
  ∃ D name, s.locate path = some (D, name) ∧
    (answer = .flag false ∧ ¬ gone (D ++ [name]) ∧ s' = s ∨
      answer = .flag true ∧ gone (D ++ [name]) ∧ s' = s.setNode (D ++ [name]) none)

/-- What a call may do. -/
def Step (s : FileTree) (step : FileSystemStep) (s' : FileTree) : Prop :=
  match step.call with
  | .createFile path initialSize => s.Creates path step.answer s' fun node =>
      ∃ bytes, node = .file bytes ∧ bytes.length = initialSize.toNat
  | .createDir path => s.Creates path step.answer s' fun node => node = .dir
  | .removeFile path => s.Removes path step.answer s' fun P => ∃ bytes, s.node P = some (.file bytes)
  | .removeDir path => s.Removes path step.answer s' fun P =>
      s.node P = some .dir ∧ ∀ child, s.node (P ++ [child]) = none
  | .changeCurrentDir path => ∃ D, s.goesTo path = some D ∧ step.answer = .done ∧
      s' = { s with here := D }
  | .openFile path mode => ∃ D name, s.locate path = some (D, name) ∧
      (step.answer, s') = (.value (s.openFile (D ++ [name]) mode).1,
        (s.openFile (D ++ [name]) mode).2)
  | .close i => ∃ k : ℕ, i = k ∧ (step.answer, s') = (.value (s.close k).1, (s.close k).2)
  | .read i nbOctets => (step.answer, s') = s.read i nbOctets
  | .write i bytes => (step.answer, s') = s.write i bytes

end FileTree

namespace FileSystemCall

/-- Perform the call on the disk. -/
def run (call : FileSystemCall) (heap : Heap) (fs : FileSystem) :
    Except Fault (Answer × FileSystem) :=
  match call with
  | createFile path initialSize => do
      let (b, fs) ← fs.createFile heap path initialSize
      return (.flag b, fs)
  | createDir path => do
      let (b, fs) ← fs.createDir heap path
      return (.flag b, fs)
  | removeFile path => do
      let (b, fs) ← fs.removeFile heap path
      return (.flag b, fs)
  | removeDir path => do
      let (b, fs) ← fs.removeDir heap path
      return (.flag b, fs)
  | changeCurrentDir path => do
      let fs ← fs.changeCurrentDir heap path
      return (.done, fs)
  | openFile path mode => do
      let (i, fs) ← fs.openFile heap path mode
      return (.value i, fs)
  | close i => do
      let (result, fs) ← fs.close i
      return (.value result, fs)
  | read i nbOctets => do
      let (count, buf, fs) ← fs.read i (heap 0) nbOctets
      return (.bytes count ((List.range count.toNat).map buf), fs)
  | write i bytes => do
      let (count, fs) ← fs.write (heap 0) i (Mem.ofString bytes) bytes.length
      return (.value count, fs)

/-- The step from one state to the next. -/
def Step (fs : FileSystem) (step : FileSystemStep) (fs' : FileSystem) : Prop :=
  step.call.run step.heap fs = .ok (step.answer, fs')

/-- What a call has to respect, given the state before it: what a single thread has to for the tree,
and besides, only files are opened, and a file that is open is not removed. -/
def Safe (fs : FileSystem) (heap : Heap) : FileSystemCall → Prop
  | createFile path initialSize => (TreeCall.update (.createFile path initialSize)).Safe fs heap
  | createDir path => (TreeCall.update (.createDir path)).Safe fs heap
  | removeFile path => TreeCall.AtEntry fs path fun dir _ i => dir.isDirectory i = false ∧
      ∀ k < NbFileTableEntries, ∀ e, fs.fileTable.table k = some e → e.sector ≠ dir.sector i
  | removeDir path => (TreeCall.update (.removeDir path)).Safe fs heap
  | changeCurrentDir path => (TreeCall.changeCurrentDir path).Safe fs heap
  | openFile path _ => TreeCall.AtEntry fs path fun dir _ i => dir.isDirectory i = false
  | close _ => True
  | read _ nbOctets => nbOctets < 2 ^ 31
  | write _ bytes => bytes.length < 2 ^ 31

end FileSystemCall

end Nachos
