/-
# The file system

`filesys/filesys.{h,cc}`. Both the free map and every directory are files, read
into memory at the start of an operation and written back at its end.

The operations belong to one thread at a time, so the thread's current directory
is part of the state. Memory that the source allocates without initialising it
comes from a `Heap`: block `n` of it is what the `n`-th such allocation of the
operation finds there. Every result holds for every heap.
-/

import Nachos.Filesys.OpenFileTable

namespace Nachos

open Base

/-- What the freshly allocated blocks of one operation contain. -/
abbrev Heap := ℕ → Mem

/-- Sector of the header of the free-map file. -/
def FreeMapSector : ℕ := 0

/-- Sector of the header of the root directory. -/
def DirectorySector : ℕ := 1

/-- `NumSectors / BitsInByte`. -/
def FreeMapFileSize : ℕ := NumSectors / 8

/-- `sizeof(DirectoryEntry) * NumDirEntries`. -/
def DirectoryFileSize : ℕ := sizeofDirectoryEntry * NumDirEntries

/-- Size of the buffer for the directory part of a path. -/
def PathLenMax : ℕ := 128

/-- The character `'/'`. -/
def slash : UInt8 := 47

/-- `class FileSystem`, with the disk it works on and the calling thread's
current directory. -/
structure FileSystem where
  disk : Disk
  /-- Bit map of free disk blocks, represented as a file. -/
  freeMapFile : OpenFile
  /-- "Root" directory, represented as a file. -/
  directoryFile : OpenFile
  /-- `currentThread->getCurrentDirectory()`. -/
  currentDirectory : OpenFile
  /-- Contains all the opened files. -/
  fileTable : OpenFileTable

namespace FileSystem

/-- `FileSystem::FileSystem(TRUE)`: format the disk. -/
def format (heap : Heap) (disk : Disk) (tableMemory : ℕ → Option OpenFileEntry) :
    Except Fault FileSystem := do
  let freeMap := BitMap.new (heap 0) NumSectors
  let directory := Directory.new (heap 1) NumDirEntries
  let (_, directory) := directory.addSpecialDir DirectorySector DirectorySector
  let freeMap ← freeMap.mark FreeMapSector
  let freeMap ← freeMap.mark DirectorySector
  let (allocated, mapHdr, freeMap) := (FileHeader.new (heap 2)).allocate freeMap FreeMapFileSize
  assert (allocated = true)
  let (allocated, dirHdr, freeMap) := (FileHeader.new (heap 3)).allocate freeMap DirectoryFileSize
  assert (allocated = true)
  let disk ← mapHdr.writeBack disk FreeMapSector
  let disk ← dirHdr.writeBack disk DirectorySector
  let freeMapFile ← OpenFile.new (heap 4) disk FreeMapSector
  let directoryFile ← OpenFile.new (heap 5) disk DirectorySector
  let disk ← freeMap.writeBack (heap 6) disk freeMapFile
  let disk ← directory.writeBack (heap 7) disk directoryFile
  return {
    disk := disk
    freeMapFile := freeMapFile
    directoryFile := directoryFile
    currentDirectory := directoryFile
    fileTable := OpenFileTable.new tableMemory }

/-- Read the current directory into memory. -/
def fetchCurrentDirectory (fs : FileSystem) (uninit : Mem) : Except Fault Directory :=
  (Directory.new uninit NumDirEntries).fetchFrom fs.disk fs.currentDirectory

/-- Read the free map into memory. -/
def fetchFreeMap (fs : FileSystem) (uninit : Mem) : Except Fault BitMap :=
  (BitMap.new uninit NumSectors).fetchFrom fs.disk fs.freeMapFile

/-- `FileSystem::CreateFileInCurrentDirectory`. -/
def createFileInCurrentDirectory (fs : FileSystem) (heap : Heap) (name : Name)
    (initialSize : ℤ) : Except Fault (Bool × FileSystem) := do
  let directory ← fs.fetchCurrentDirectory (heap 0)
  if directory.find name ≠ -1 then return (false, fs)
  else do
    let freeMap ← fs.fetchFreeMap (heap 1)
    let (sector, freeMap) := freeMap.find
    if sector = -1 then return (false, fs)
    else
      let (added, directory) := directory.addFile name sector
      if !added then return (false, fs)
      else
        let (allocated, hdr, freeMap) :=
          (FileHeader.newZeroed (heap 2)).allocate freeMap initialSize
        if !allocated then return (false, fs)
        else do
          let disk ← hdr.writeBack fs.disk sector
          let disk ← directory.writeBack (heap 3) disk fs.currentDirectory
          let disk ← freeMap.writeBack (heap 4) disk fs.freeMapFile
          return (true, { fs with disk := disk })

/-- `FileSystem::CreateDirInCurrentDirectory`. The new directory's file is opened
before its header is written. -/
def createDirInCurrentDirectory (fs : FileSystem) (heap : Heap) (name : Name) :
    Except Fault (Bool × FileSystem) := do
  let directory ← fs.fetchCurrentDirectory (heap 0)
  if directory.find name ≠ -1 then return (false, fs)
  else do
    let freeMap ← fs.fetchFreeMap (heap 1)
    let (sector, freeMap) := freeMap.find
    if sector = -1 then return (false, fs)
    else
      let (added, directory) := directory.addDir name sector
      if !added then return (false, fs)
      else
        let (allocated, header, freeMap) := (FileHeader.newZeroed (heap 2)).allocate freeMap
          (DirectoryFileSize * sizeofDirectoryEntry : ℕ)
        if !allocated then return (false, fs)
        else
          let (special, newDir) := (Directory.new (heap 3) DirectoryFileSize).addSpecialDir sector
            (directory.find Directory.dot)
          if !special then return (false, fs)
          else do
            let fileDir ← OpenFile.new (heap 4) fs.disk sector
            let disk ← newDir.writeBack (heap 5) fs.disk fileDir
            let disk ← header.writeBack disk sector
            let disk ← directory.writeBack (heap 6) disk fs.currentDirectory
            let disk ← freeMap.writeBack (heap 7) disk fs.freeMapFile
            return (true, { fs with disk := disk })

/-- The end of both removals: give the sectors back, drop the entry, and flush
the free map and the directory. -/
def removeEntry (fs : FileSystem) (heap : Heap) (directory : Directory) (header : FileHeader)
    (sector : ℤ) (name : Name) : Except Fault (Bool × FileSystem) := do
  let freeMap ← fs.fetchFreeMap (heap 4)
  let freeMap ← header.deallocate freeMap
  let freeMap ← freeMap.clear sector
  let (_, directory) := directory.remove name
  let disk ← freeMap.writeBack (heap 5) fs.disk fs.freeMapFile
  let disk ← directory.writeBack (heap 6) disk fs.currentDirectory
  return (true, { fs with disk := disk })

/-- `FileSystem::RemoveFileInCurrentDirectory`. -/
def removeFileInCurrentDirectory (fs : FileSystem) (heap : Heap) (name : Name) :
    Except Fault (Bool × FileSystem) := do
  let directory ← fs.fetchCurrentDirectory (heap 0)
  let sector := directory.find name
  if sector = -1 then return (false, fs)
  else do
    let fileHdr ← (FileHeader.new (heap 1)).fetchFrom fs.disk sector
    fs.removeEntry heap directory fileHdr sector name

/-- `FileSystem::RemoveDirInCurrentDirectory`. -/
def removeDirInCurrentDirectory (fs : FileSystem) (heap : Heap) (name : Name) :
    Except Fault (Bool × FileSystem) := do
  let directory ← fs.fetchCurrentDirectory (heap 0)
  let sector := directory.find name
  if sector = -1 then return (false, fs)
  else do
    let header ← (FileHeader.newZeroed (heap 1)).fetchFrom fs.disk sector
    let fileDir ← OpenFile.new (heap 2) fs.disk sector
    let rmDir ← (Directory.new (heap 3) NumDirEntries).fetchFrom fs.disk fileDir
    if !rmDir.isEmpty then return (false, fs)
    else fs.removeEntry heap directory header sector name

/-- `FileSystem::List`. -/
def list (fs : FileSystem) (heap : Heap) : Except Fault (List Directory.ListRow) := do
  let directory ← fs.fetchCurrentDirectory (heap 0)
  directory.list (heap 1) fs.disk

/-! ## Paths -/

/-- `FileSystem::SetCurrentDir`. A name that is not found only gives a message. -/
def setCurrentDir (fs : FileSystem) (heap : Heap) (dirName : Name) :
    Except Fault FileSystem := do
  let dir ← fs.fetchCurrentDirectory (heap 0)
  let dirFile ← OpenFile.new (heap 1) fs.disk (dir.find dirName)
  return { fs with currentDirectory := dirFile }

/-- The branch of `ChangeCurrentDir` taken at a slash and at the end of the path.
`dirName` holds the characters stored since the last component; with none stored
the test reads the byte `below` in front of the buffer. -/
def endComponent (fs : FileSystem) (heap : Heap) (below : UInt8) (dirName : Name) :
    Except Fault (FileSystem × Name) :=
  if dirName.getLastD below ≠ 0 then do
    inBounds (dirName.length < FileNameMaxLen)
    let fs ← fs.setCurrentDir heap dirName
    return (fs, [])
  else .ok (fs, dirName)

/-- The loop of `ChangeCurrentDir`, at character `i` of the path. -/
def walkPath (heap : Heap) (fs : FileSystem) (dirName : Name) (i : ℕ) :
    List UInt8 → Except Fault FileSystem
  | [] => do
      let (fs, _) ← fs.endComponent (fun n => heap (9 + 2 * i + n)) (heap 8 i) dirName
      return fs
  | c :: rest =>
      if c = slash then do
        let (fs, dirName) ← fs.endComponent (fun n => heap (9 + 2 * i + n)) (heap 8 i) dirName
        walkPath heap fs dirName (i + 1) rest
      else do
        inBounds (dirName.length < FileNameMaxLen)
        walkPath heap fs (dirName ++ [c]) (i + 1) rest

/-- `FileSystem::ChangeCurrentDir`. -/
def changeCurrentDir (fs : FileSystem) (heap : Heap) (path : List UInt8) :
    Except Fault FileSystem :=
  walkPath heap fs [] 0 (path.takeWhile (· != 0))

/-- The last index of a slash. -/
def lastSlash (path : List UInt8) : Option ℕ :=
  (List.range path.length).reverse.find? fun i => path.getD i 0 == slash

/-- `FileSystem::SplitPathAndName`: the last component, and what precedes it. A
single trailing slash is ignored. Both buffers are filled without a check. -/
def splitPathAndName (path : List UInt8) : Except Fault (Name × List UInt8) := do
  let path := path.takeWhile (· != 0)
  assert (path.head? ≠ some slash)
  inBounds (path.length < PathLenMax)
  let stripped :=
    if lastSlash path = some (path.length - 1) then path.take (path.length - 1) else path
  let (name, resPath) :=
    match lastSlash stripped with
    | none => (stripped, [])
    | some i => (stripped.drop (i + 1), stripped.take i)
  inBounds (name.length < FileNameMaxLen)
  return (name, resPath)

/-- The body shared by the operations on a path: go to the directory part, run the
operation there, and go back. -/
def atPath {α : Type} (fs : FileSystem) (heap : Heap) (path : List UInt8)
    (run : FileSystem → Name → Except Fault (α × FileSystem)) :
    Except Fault (α × FileSystem) := do
  let (name, tmpPath) ← splitPathAndName path
  let tmpDir := fs.currentDirectory
  let fs ← if tmpPath ≠ [] then fs.changeCurrentDir heap tmpPath else .ok fs
  let (result, fs) ← run fs name
  return (result, { fs with currentDirectory := tmpDir })

/-- `FileSystem::CreateFile`. -/
def createFile (fs : FileSystem) (heap : Heap) (path : List UInt8) (initialSize : ℤ) :
    Except Fault (Bool × FileSystem) :=
  fs.atPath heap path fun fs name => fs.createFileInCurrentDirectory heap name initialSize

/-- `FileSystem::CreateDir`. -/
def createDir (fs : FileSystem) (heap : Heap) (path : List UInt8) :
    Except Fault (Bool × FileSystem) :=
  fs.atPath heap path fun fs name => fs.createDirInCurrentDirectory heap name

/-- `FileSystem::RemoveFile`. -/
def removeFile (fs : FileSystem) (heap : Heap) (path : List UInt8) :
    Except Fault (Bool × FileSystem) :=
  fs.atPath heap path fun fs name => fs.removeFileInCurrentDirectory heap name

/-- `FileSystem::RemoveDir`. -/
def removeDir (fs : FileSystem) (heap : Heap) (path : List UInt8) :
    Except Fault (Bool × FileSystem) :=
  fs.atPath heap path fun fs name => fs.removeDirInCurrentDirectory heap name

/-! ## Operations through the open-file table -/

/-- `FileSystem::OpenInCurrentDirectory`. -/
def openInCurrentDirectory (fs : FileSystem) (heap : Heap) (name : Name) (mode : UInt8) :
    Except Fault (ℤ × FileSystem) := do
  let (i, fileTable) ← fs.fileTable.openFile heap fs.disk fs.currentDirectory name mode
  return (i, { fs with fileTable := fileTable })

/-- `FileSystem::Open`. -/
def openFile (fs : FileSystem) (heap : Heap) (path : List UInt8) (mode : UInt8) :
    Except Fault (ℤ × FileSystem) :=
  fs.atPath heap path fun fs name => fs.openInCurrentDirectory heap name mode

/-- `FileSystem::Close`. -/
def close (fs : FileSystem) (i : ℤ) : Except Fault (ℤ × FileSystem) := do
  let (result, fileTable) ← fs.fileTable.close i
  return (result, { fs with fileTable := fileTable })

/-- The open file of entry `i` after its seek position has moved. -/
def setFile (fs : FileSystem) (i : ℤ) (entry : OpenFileEntry) (file : OpenFile) : FileSystem :=
  { fs with
    fileTable := { fs.fileTable with
      table := fs.fileTable.set i.toNat (some { entry with file := file }) } }

/-- `FileSystem::Read`: the result and the bytes put into the buffer. -/
def read (fs : FileSystem) (i : ℤ) (buf : Mem) (nbOctets : ℤ) :
    Except Fault (ℤ × Mem × FileSystem) :=
  match fs.fileTable.get i with
  | none => .ok (-1, buf, fs)
  | some entry =>
      if entry.mode ≠ modeRead then .ok (-1, buf, fs)
      else do
        let (result, buf, file) ← entry.file.read fs.disk buf nbOctets
        return (result, buf, fs.setFile i entry file)

/-- `FileSystem::Write`. -/
def write (fs : FileSystem) (uninit : Mem) (i : ℤ) (buf : Mem) (nbOctets : ℤ) :
    Except Fault (ℤ × FileSystem) :=
  match fs.fileTable.get i with
  | none => .ok (-1, fs)
  | some entry =>
      if entry.mode ≠ modeWrite then .ok (-1, fs)
      else do
        let (result, disk, file) ← entry.file.write uninit fs.disk buf nbOctets
        return (result, { fs.setFile i entry file with disk := disk })

end FileSystem

end Nachos
