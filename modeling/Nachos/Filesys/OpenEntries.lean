/-
# Files through their ids

An id is an index into the table of open files. Reading and writing through an id
moves the seek position of its entry and, for a write, replaces bytes of the file
the entry was opened on; everything else stays.
-/

import Nachos.Filesys.Path

namespace Nachos

open Base

namespace FileSystem

/-- The length of the file with header sector `t`. -/
def lengthOf (fs : FileSystem) (t : ℕ) : ℕ := (fs.disk.header t).numBytes.toNat

/-- Entry `i` is open in the given mode, on the file with header sector `t`, at
position `pos`. -/
structure OpenAt (fs : FileSystem) (i t : ℕ) (mode : UInt8) (pos : ℕ) : Prop where
  index : i < 10
  entry : ∃ e, fs.fileTable.table i = some e ∧ e.mode = mode ∧ e.file.OpenedOn fs.disk t ∧
    e.file.seekPosition = pos
  within : pos ≤ fs.lengthOf t

/-- What a request through an id leaves alone: everything but the entry and the
data sectors of the file. -/
structure OnlyFile (fs fs' : FileSystem) (i t : ℕ) : Prop where
  freeMapFile : fs'.freeMapFile = fs.freeMapFile
  currentDirectory : fs'.currentDirectory = fs.currentDirectory
  table : ∀ k ≠ i, fs'.fileTable.table k = fs.fileTable.table k
  nbFiles : fs'.fileTable.nbFiles = fs.fileTable.nbFiles
  disk : ∀ x, x ∉ fs.disk.dataList t → fs'.disk x = fs.disk x

theorem get_of_lt {fs : FileSystem} {i : ℕ} (hi : i < 10) :
    fs.fileTable.get i = fs.fileTable.table i := by
  rw [OpenFileTable.get, if_neg, Int.toNat_natCast]
  simp only [NbFileTableEntries]
  omega

theorem setFile_table_self {fs : FileSystem} {i : ℕ} (e : OpenFileEntry) (file : OpenFile) :
    (fs.setFile i e file).fileTable.table i = some { e with file := file } := by
  simp [setFile, OpenFileTable.set]

theorem setFile_table_of_ne {fs : FileSystem} {i k : ℕ} (e : OpenFileEntry) (file : OpenFile)
    (hne : k ≠ i) : (fs.setFile i e file).fileTable.table k = fs.fileTable.table k := by
  simp [setFile, OpenFileTable.set, hne]

namespace OpenAt

variable {fs : FileSystem} {L : Layout} {i t pos n : ℕ}

/-- The pointers of a plain file, through a copy of its header. -/
theorem sectors (h : Consistent fs.disk L) (ht : t ∈ L.files) {f : OpenFile}
    (hopen : f.OpenedOn fs.disk t) :
    (fs.disk.header t).listed ≤ 30 ∧ f.hdr.numBytes = (fs.disk.header t).numBytes ∧
      f.hdr.numBytes ≤ 128 * (fs.disk.header t).listed ∧
      f.hdr.InRange (fs.disk.header t).listed ∧
      f.hdr.sectorList (fs.disk.header t).listed = fs.disk.dataList t ∧
      (f.hdr.sectorList (fs.disk.header t).listed).Nodup := by
  have hobj := Consistent.mem_objects_of_file (L := L) ht
  have hlisted : (fs.disk.header t).listed ≤ 30 := Nat.min_le_right _ _
  have hbytes := FileHeader.SameObject.numBytes hopen
  have hlist := hopen.sectorList hlisted
  refine ⟨hlisted, hbytes, ?_, hopen.inRange hlisted (h.inRange t hobj).2, hlist, ?_⟩
  · rw [hbytes]
    exact (h.fileHeader t ht).1
  · rw [hlist]
    exact (List.nodup_cons.mp (h.nodup t hobj)).2

/-- The position behind the bytes of a request. -/
theorem seek_after (h : Consistent fs.disk L) (ht : t ∈ L.files) {seekPosition : ℤ}
    (hseek : seekPosition = pos) (hwithin : pos ≤ fs.lengthOf t) :
    wrap32 (seekPosition + ((min n (fs.lengthOf t - pos) : ℕ) : ℤ)) =
      (pos + min n (fs.lengthOf t - pos) : ℕ) := by
  have hlisted : (fs.disk.header t).listed ≤ 30 := Nat.min_le_right _ _
  have hlength := (h.fileHeader t ht).1
  have hbound : fs.lengthOf t ≤ 3840 := by
    rw [lengthOf]
    omega
  rw [hseek, wrap32_eq_self (by omega) (by omega)]
  omega

/-- **A write through an id.** The bytes of the request, as far as they fit the
file, replace the bytes of the file; the result is their number. -/
theorem write (hopen : fs.OpenAt i t modeWrite pos) (h : Consistent fs.disk L) (ht : t ∈ L.files)
    (uninit source : Mem) (hrange : pos < fs.lengthOf t → pos + n < 2 ^ 31) :
    ∃ fs', fs.write uninit i source n = .ok ((min n (fs.lengthOf t - pos) : ℕ), fs') ∧
      fs'.OpenAt i t modeWrite (pos + min n (fs.lengthOf t - pos)) ∧ fs.OnlyFile fs' i t ∧
      ∀ j < fs.lengthOf t, fs'.disk.bytes t j =
        if pos ≤ j ∧ j < pos + min n (fs.lengthOf t - pos) then source (j - pos)
        else fs.disk.bytes t j := by
  obtain ⟨hi, ⟨e, hentry, hmode, hfile, hseek⟩, hwithin⟩ := hopen
  obtain ⟨hlisted, hbytes, hlength, hvalid, hlist, hnodup⟩ := sectors h ht hfile
  have hcount : e.file.transferred n pos = min n (fs.lengthOf t - pos) := by
    rw [OpenFile.transferred, hbytes, lengthOf]
  obtain ⟨disk', hwrite, hframe, hdata⟩ := e.file.writeAt_of_nodup uninit fs.disk source n pos
    (fun hpos => hrange (by rw [lengthOf, ← hbytes]; omega)) hvalid (by omega)
    (by rw [hcount]; simp only [lengthOf] at *; omega) hnodup
  rw [hcount] at hwrite hdata
  rw [hlist] at hframe
  have hseek' := seek_after (n := n) h ht hseek hwithin
  have hsame : disk' t = fs.disk t := h.header_written ht hframe (Consistent.mem_objects_of_file ht)
  refine ⟨{ fs.setFile i e { e.file with
    seekPosition := wrap32 (e.file.seekPosition + ((min n (fs.lengthOf t - pos) : ℕ) : ℤ)) } with
    disk := disk' }, ?_, ⟨hi, ⟨_, setFile_table_self e _, hmode, ?_, hseek'⟩, ?_⟩,
    ⟨rfl, rfl, fun k hk => setFile_table_of_ne e _ hk, rfl, hframe⟩, fun j hj => ?_⟩
  · rw [FileSystem.write, get_of_lt hi, hentry]
    simp only [hmode, ne_eq, not_true_eq_false, if_false, OpenFile.write]
    rw [hseek, hwrite]
    rfl
  · exact OpenFile.OpenedOn.congr (f := ⟨e.file.hdr, _⟩) hfile hsame
  · simp only [lengthOf, Disk.header_congr hsame] at hwithin ⊢
    omega
  · simp only [lengthOf] at hj
    have hbyte := hdata j (by omega) (by omega)
    rw [hfile.fileBytes (by omega), hfile.fileBytes (by omega)] at hbyte
    simp only [Disk.bytes, Disk.header_congr hsame]
    exact hbyte

/-- A write whose end is beyond the range of `int` does not return. -/
theorem write_of_overflow (hopen : fs.OpenAt i t modeWrite pos) (h : Consistent fs.disk L)
    (ht : t ∈ L.files) (uninit source : Mem) (hpos : pos < fs.lengthOf t) (hn : n < 2 ^ 31)
    (hsum : 2 ^ 31 ≤ pos + n) : fs.write uninit i source n = .error .badAlloc := by
  obtain ⟨hi, ⟨e, hentry, hmode, hfile, hseek⟩, hwithin⟩ := hopen
  obtain ⟨hlisted, hbytes, hlength, -⟩ := sectors h ht hfile
  simp only [lengthOf] at hpos
  have hwrite := e.file.writeAt_of_overflow uninit fs.disk source n pos
    (by omega) (by omega) (by omega) (by omega)
  rw [FileSystem.write, get_of_lt hi, hentry]
  simp only [hmode, ne_eq, not_true_eq_false, if_false, OpenFile.write]
  rw [hseek, hwrite]
  rfl

/-- **A read through an id.** The buffer receives the bytes of the file from the
position on, as far as there are any; the result is their number. -/
theorem read (hopen : fs.OpenAt i t modeRead pos) (h : Consistent fs.disk L) (ht : t ∈ L.files)
    (buf : Mem) (hrange : pos < fs.lengthOf t → pos + n < 2 ^ 31) :
    ∃ fs', fs.read i buf n = .ok ((min n (fs.lengthOf t - pos) : ℕ),
        buf.copy 0 (fs.disk.bytes t) pos (min n (fs.lengthOf t - pos)), fs') ∧
      fs'.OpenAt i t modeRead (pos + min n (fs.lengthOf t - pos)) ∧ fs.OnlyFile fs' i t ∧
      fs'.disk = fs.disk := by
  obtain ⟨hi, ⟨e, hentry, hmode, hfile, hseek⟩, hwithin⟩ := hopen
  obtain ⟨hlisted, hbytes, hlength, hvalid, -⟩ := sectors h ht hfile
  have hcount : e.file.transferred n pos = min n (fs.lengthOf t - pos) := by
    rw [OpenFile.transferred, hbytes, lengthOf]
  have hread := e.file.readAt_natCast fs.disk buf 0 n pos
    (fun hpos => hrange (by rw [lengthOf, ← hbytes]; omega)) hvalid (by omega)
    (by rw [hcount]; simp only [lengthOf] at *; omega)
  rw [hcount] at hread
  have hcopy : buf.copy 0 (OpenFile.fileBytes fs.disk e.file.hdr) pos
      (min n (fs.lengthOf t - pos)) =
        buf.copy 0 (fs.disk.bytes t) pos (min n (fs.lengthOf t - pos)) := by
    funext k
    by_cases hk : 0 ≤ k ∧ k < 0 + min n (fs.lengthOf t - pos)
    · rw [Mem.copy_of_mem _ _ hk, Mem.copy_of_mem _ _ hk]
      simp only [lengthOf] at hk
      exact hfile.fileBytes (by omega)
    · rw [Mem.copy_of_not_mem _ _ (by omega), Mem.copy_of_not_mem _ _ (by omega)]
  have hseek' := seek_after (n := n) h ht hseek hwithin
  refine ⟨fs.setFile i e { e.file with
    seekPosition := wrap32 (e.file.seekPosition + ((min n (fs.lengthOf t - pos) : ℕ) : ℤ)) },
    ?_, ⟨hi, ⟨_, setFile_table_self e _, hmode, hfile, hseek'⟩, by
      change _ ≤ fs.lengthOf t
      omega⟩,
    ⟨rfl, rfl, fun k hk => setFile_table_of_ne e _ hk, rfl, fun _ _ => rfl⟩, rfl⟩
  rw [FileSystem.read, get_of_lt hi, hentry]
  simp only [hmode, ne_eq, not_true_eq_false, if_false, OpenFile.read]
  rw [hseek, hread, hcopy]
  rfl

/-- A read whose end is beyond the range of `int` does not return. -/
theorem read_of_overflow (hopen : fs.OpenAt i t modeRead pos) (h : Consistent fs.disk L)
    (ht : t ∈ L.files) (buf : Mem) (hpos : pos < fs.lengthOf t) (hn : n < 2 ^ 31)
    (hsum : 2 ^ 31 ≤ pos + n) : fs.read i buf n = .error .badAlloc := by
  obtain ⟨hi, ⟨e, hentry, hmode, hfile, hseek⟩, hwithin⟩ := hopen
  obtain ⟨hlisted, hbytes, hlength, -⟩ := sectors h ht hfile
  simp only [lengthOf] at hpos
  have hread := e.file.readAt_of_overflow fs.disk buf 0 n pos
    (by omega) (by omega) (by omega) (by omega)
  rw [FileSystem.read, get_of_lt hi, hentry]
  simp only [hmode, ne_eq, not_true_eq_false, if_false, OpenFile.read]
  rw [hseek, hread]
  rfl

end OpenAt

namespace Valid

variable {fs : FileSystem} {L : Layout} {c p j t : ℕ} {name : Name} {path : List UInt8}

/-- **Opening the file a path stands for**: an entry that is there is returned
whatever its mode, otherwise one is added. -/
theorem openFile (hfs : fs.Valid L c) (heap : Heap) (mode : UInt8)
    (hlocate : fs.locate path = some (p, name))
    (hindex : (fs.disk.dirTable p).findIndex name = some j)
    (hsector : (fs.disk.dirTable p).sector j = t) (ht : t < 1024) :
    ∃ f, f.OpenedOn fs.disk t ∧ f.seekPosition = 0 ∧
      fs.openFile heap path mode = (do
        let (i, fileTable) ← match fs.fileTable.find t with
          | some i => .ok ((i : ℤ), fs.fileTable)
          | none => fs.fileTable.add ⟨f, mode, t⟩
        return (i, { fs with fileTable := fileTable })) := by
  obtain ⟨g, hvalid, hpath⟩ := hfs.atPath heap hlocate
  obtain ⟨dir, hfetch, same⟩ := hvalid.fetchCurrentDirectory (heap 0)
  have hfind : dir.find name = t := by
    rw [same.find, Directory.find, hindex]
    exact hsector
  obtain ⟨f, hf, hopen, hseek⟩ := OpenFile.new_of_lt (heap 1) fs.disk ht
  refine ⟨f, hopen, hseek, ?_⟩
  rw [FileSystem.fetchCurrentDirectory] at hfetch
  rw [FileSystem.openFile, hpath]
  simp only [openInCurrentDirectory, OpenFileTable.openFile, hfetch, Except.ok_bind, hfind,
    show ¬ ((t : ℤ) < 0) by omega, if_false, hf]
  cases fs.fileTable.find t with
  | some i => rfl
  | none =>
      cases fs.fileTable.add ⟨f, mode, t⟩ with
      | error e => rfl
      | ok result => rfl

/-- Opening what is not there. -/
theorem openFile_of_absent (hfs : fs.Valid L c) (heap : Heap) (mode : UInt8)
    (hlocate : fs.locate path = some (p, name))
    (hindex : (fs.disk.dirTable p).findIndex name = none) :
    fs.openFile heap path mode = .ok (-1, fs) := by
  obtain ⟨g, hvalid, hpath⟩ := hfs.atPath heap hlocate
  obtain ⟨dir, hfetch, same⟩ := hvalid.fetchCurrentDirectory (heap 0)
  have hfind : dir.find name = -1 := by rw [same.find, Directory.find, hindex]
  rw [FileSystem.fetchCurrentDirectory] at hfetch
  rw [FileSystem.openFile, hpath]
  simp only [openInCurrentDirectory, OpenFileTable.openFile, hfetch, Except.ok_bind, hfind,
    show (-1 : ℤ) < 0 by omega, if_true]
  rfl

/-- Opening a plain file when the table is empty. -/
theorem openFile_of_null (hfs : fs.Valid L c) (heap : Heap) (mode : UInt8)
    (hlocate : fs.locate path = some (p, name))
    (hindex : (fs.disk.dirTable p).findIndex name = some j)
    (hsector : (fs.disk.dirTable p).sector j = t) (ht : t ∈ L.files)
    (htable : ∀ k, fs.fileTable.table k = none) (hfiles : fs.fileTable.nbFiles = 0) :
    ∃ fs', fs.openFile heap path mode = .ok (0, fs') ∧ fs'.OpenAt 0 t mode 0 ∧
      fs' = { fs with fileTable := fs'.fileTable } ∧ (∀ k ≠ 0, fs'.fileTable.table k = none) ∧
      fs'.fileTable.nbFiles = 1 ∧ fs'.fileTable.find t = some 0 := by
  obtain ⟨f, hopen, hseek, hresult⟩ := hfs.openFile heap mode hlocate hindex hsector
    (hfs.consistent.inRange t (Consistent.mem_objects_of_file ht)).1
  have hfind : fs.fileTable.find t = none := by
    rw [OpenFileTable.find, List.find?_eq_none]
    intro k _
    rw [htable k]
    simp
  have hadd : fs.fileTable.add ⟨f, mode, t⟩ =
      .ok (0, ⟨fs.fileTable.set 0 (some ⟨f, mode, t⟩), 1⟩) := by
    have hfirst : ((List.range NbFileTableEntries).find? fun i =>
        (fs.fileTable.table i).isNone) = some 0 := by
      simp [NbFileTableEntries, List.range_succ_eq_map, htable]
    rw [OpenFileTable.add, hfiles, if_neg (by decide), hfirst]
    rfl
  rw [hfind] at hresult
  dsimp only at hresult
  rw [hadd] at hresult
  refine ⟨_, hresult, ⟨by omega, ⟨⟨f, mode, t⟩, rfl, rfl, hopen, hseek⟩, Nat.zero_le _⟩, rfl,
    fun k hk => ?_, rfl, ?_⟩
  · simp [OpenFileTable.set, hk, htable]
  · simp [OpenFileTable.find, OpenFileTable.set, NbFileTableEntries, List.range_succ_eq_map]

end Valid

end FileSystem

end Nachos
