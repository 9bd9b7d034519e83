/-
# Runs with open files

Each entry of the table of open files keeps its own copy of a header. Removing a
file does not look at the table, so a copy can outlive its file, and a write
through it then goes to whatever got the sectors since. As long as no file is
removed while it is open for writing, a write reaches the file that was opened.

To speak of the same file over a whole run, a run numbers the files in the order of
their creation; the numbers are for the record only.
-/

import Nachos.Base.Trace
import Nachos.Filesys.OpenEntries
import Nachos.Filesys.Updates

namespace Nachos

open Base

/-- What `Close` does to an entry that is in use and to one that is not. -/
theorem OpenFileTable.close_cases {t t' : OpenFileTable} {i result : ℤ}
    (h : t.close i = .ok (result, t')) :
    ∃ k : ℕ, i = k ∧ k < NbFileTableEntries ∧
      (t.table k = none ∧ result = -1 ∧ t' = t ∨
        (t.table k).isSome ∧ result = 0 ∧ t' = ⟨t.set k none, t.nbFiles - 1⟩) := by
  simp only [OpenFileTable.close, Except.bind_eq_ok, inBounds_eq_ok] at h
  obtain ⟨-, hrange, h⟩ := h
  refine ⟨i.toNat, by omega, by omega, ?_⟩
  split at h
  · rename_i hnone
    cases h
    exact Or.inl ⟨by simpa using hnone, rfl, rfl⟩
  · rename_i hsome
    have hused : (t.table i.toNat).isSome := by simpa [Option.isSome_iff_ne_none] using hsome
    rw [OpenFileTable.remove, if_pos hused] at h
    cases h
    exact Or.inr ⟨hused, rfl, rfl⟩

/-- Closing empties one entry. -/
theorem OpenFileTable.close_eq_ok {t t' : OpenFileTable} {i result : ℤ}
    (h : t.close i = .ok (result, t')) :
    ∃ k : ℕ, i = k ∧ k < NbFileTableEntries ∧ t'.table = t.set k none := by
  obtain ⟨k, hi, hk, ⟨hnone, -, rfl⟩ | ⟨-, -, rfl⟩⟩ := OpenFileTable.close_cases h
  · refine ⟨k, hi, hk, ?_⟩
    -- Nothing was there.
    funext j
    by_cases hj : j = k
    · subst hj
      simpa [OpenFileTable.set] using hnone
    · simp [OpenFileTable.set, hj]
  · exact ⟨k, hi, hk, rfl⟩

/-- What `Add` does to a table that is full and to one that is not. -/
theorem OpenFileTable.add_cases {t t' : OpenFileTable} {e : OpenFileEntry} {i : ℤ}
    (h : t.add e = .ok (i, t')) : i = -1 ∧ t' = t ∨
      ∃ k : ℕ, i = k ∧ k < NbFileTableEntries ∧ t.table k = none ∧
        t' = ⟨t.set k (some e), t.nbFiles + 1⟩ := by
  rw [OpenFileTable.add] at h
  split at h
  · cases h
    exact Or.inl ⟨rfl, rfl⟩
  · split at h
    · rename_i k hfirst
      cases h
      obtain ⟨hnone, hlt, -⟩ := List.find?_range_eq_some.mp hfirst
      exact Or.inr ⟨k, rfl, by simpa using hlt, by simpa using hnone, rfl⟩
    · cases h

/-- Adding fills an empty entry or does nothing. -/
theorem OpenFileTable.add_eq_ok {t t' : OpenFileTable} {e : OpenFileEntry} {i : ℤ}
    (h : t.add e = .ok (i, t')) : i = -1 ∧ t' = t ∨
      ∃ k : ℕ, i = k ∧ k < NbFileTableEntries ∧ t.table k = none ∧
        t'.table = t.set k (some e) := by
  obtain hfull | ⟨k, hi, hk, hnone, rfl⟩ := OpenFileTable.add_cases h
  · exact Or.inl hfull
  · exact Or.inr ⟨k, hi, hk, hnone, rfl⟩

/-- An entry found by its sector. -/
theorem OpenFileTable.find_eq_some {t : OpenFileTable} {sector : ℤ} {k : ℕ}
    (h : t.find sector = some k) :
    k < NbFileTableEntries ∧ ∃ e, t.table k = some e ∧ e.sector = sector := by
  obtain ⟨hmatch, hlt, -⟩ := List.find?_range_eq_some.mp h
  refine ⟨by simpa using hlt, ?_⟩
  split at hmatch
  · rename_i e he
    exact ⟨e, he, by simpa using hmatch⟩
  · cases hmatch

theorem OpenFileTable.get_eq_some {t : OpenFileTable} {i : ℤ} {e : OpenFileEntry}
    (h : t.get i = some e) : ∃ k : ℕ, i = k ∧ k < NbFileTableEntries ∧ t.table k = some e := by
  rw [OpenFileTable.get] at h
  split at h
  · cases h
  · exact ⟨i.toNat, by omega, by omega, h⟩

namespace FileSystem

/-- Moving the position of one entry leaves the rest of the table alone. -/
theorem setFile_entry {fs : FileSystem} {i : ℕ} {entry : OpenFileEntry} {x : ℤ}
    (hentry : fs.fileTable.table i = some entry) {k : ℕ} {e : OpenFileEntry}
    (he : (fs.setFile i entry { entry.file with seekPosition := wrap32 x }).fileTable.table k =
      some e) :
    ∃ e', fs.fileTable.table k = some e' ∧ e.mode = e'.mode ∧ e.sector = e'.sector ∧
      e.file.hdr = e'.file.hdr ∧
      (e.file.seekPosition = e'.file.seekPosition ∨ e.file.seekPosition = wrap32 x) := by
  by_cases hequal : k = i
  · subst hequal
    rw [setFile_table_self] at he
    cases he
    exact ⟨entry, hentry, rfl, rfl, rfl, Or.inr rfl⟩
  · rw [setFile_table_of_ne _ _ hequal] at he
    exact ⟨e, he, rfl, rfl, rfl, Or.inl rfl⟩

/-- Reading moves the position of the entry it goes through. -/
theorem read_eq_ok {fs fs' : FileSystem} {i nbOctets result : ℤ} {buf buf' : Mem}
    (h : fs.read i buf nbOctets = .ok (result, buf', fs')) :
    fs' = fs ∨ ∃ (k : ℕ) (e : OpenFileEntry) (x : ℤ), i = k ∧ k < NbFileTableEntries ∧
      fs.fileTable.table k = some e ∧
      fs' = fs.setFile k e { e.file with seekPosition := wrap32 x } := by
  rw [FileSystem.read] at h
  split at h
  · cases h
    exact Or.inl rfl
  rename_i e hget
  split at h
  · cases h
    exact Or.inl rfl
  simp only [OpenFile.read, Except.bind_eq_ok] at h
  obtain ⟨_, ⟨_, -, hinner⟩, hequal⟩ := h
  cases hinner
  cases hequal
  obtain ⟨k, rfl, hk, hentry⟩ := OpenFileTable.get_eq_some hget
  exact Or.inr ⟨k, e, _, rfl, hk, hentry, rfl⟩

/-- So does writing, through an entry opened for it; the rest is up to `WriteAt`. -/
theorem write_eq_ok {fs fs' : FileSystem} {i nbOctets result : ℤ} {buf uninit : Mem}
    (h : fs.write uninit i buf nbOctets = .ok (result, fs')) :
    fs' = fs ∨ ∃ (k : ℕ) (e : OpenFileEntry) (count : ℤ) (disk : Disk), i = k ∧
      k < NbFileTableEntries ∧ fs.fileTable.table k = some e ∧ e.mode = modeWrite ∧
      e.file.writeAt uninit fs.disk buf nbOctets e.file.seekPosition = .ok (count, disk) ∧
      fs' = { fs.setFile k e ⟨e.file.hdr, wrap32 (e.file.seekPosition + count)⟩ with
        disk := disk } := by
  rw [FileSystem.write] at h
  split at h
  · cases h
    exact Or.inl rfl
  rename_i e hget
  split at h
  · cases h
    exact Or.inl rfl
  rename_i hmode
  simp only [OpenFile.write, Except.bind_eq_ok] at h
  obtain ⟨_, ⟨⟨count, disk⟩, hwrite, hinner⟩, hequal⟩ := h
  cases hinner
  cases hequal
  obtain ⟨k, rfl, hk, hentry⟩ := OpenFileTable.get_eq_some hget
  exact Or.inr ⟨k, e, count, disk, rfl, hk, hentry, by simpa using hmode, hwrite, rfl⟩

/-- The header sector of what `path` names. -/
def sectorAt (fs : FileSystem) (path : List UInt8) : ℕ :=
  match fs.locate path with
  | some (p, name) => ((fs.disk.dirTable p).find name).toNat
  | none => 0

end FileSystem

/-- The state of a run. -/
structure OpenRun where
  fs : FileSystem
  /-- The number the next file will get. -/
  created : ℕ
  /-- The number of the file with its header in a sector. -/
  serial : ℕ → ℕ
  /-- The number of the file that an id was last returned for. -/
  openedAs : ℤ → Option ℕ

/-- The calls of such a run. -/
inductive FileCall
  | openFile (path : List UInt8) (mode : UInt8)
  | close (i : ℤ)
  | read (i : ℤ) (buf : Mem) (nbOctets : ℤ)
  | write (i : ℤ) (buf : Mem) (nbOctets : ℤ)
  | createFile (path : List UInt8) (initialSize : ℤ)
  | removeFile (path : List UInt8)

namespace OpenRun

/-- The files that are there at the start are numbered by their sectors. -/
def start (fs : FileSystem) : OpenRun := ⟨fs, NumSectors, id, fun _ => none⟩

/-- What a call does, for some contents of fresh memory. A file that is there
keeps its number; what `CreateFile` adds gets the next one. -/
def Step (st : OpenRun) (call : FileCall) (st' : OpenRun) : Prop :=
  match call with
  | .openFile path mode => ∃ heap i fs', st.fs.openFile heap path mode = .ok (i, fs') ∧
      st' = { st with
        fs := fs'
        openedAs := if 0 ≤ i then
            Function.update st.openedAs i (some (st.serial (st.fs.sectorAt path)))
          else st.openedAs }
  | .close i => ∃ result fs', st.fs.close i = .ok (result, fs') ∧ st' = { st with fs := fs' }
  | .read i buf nbOctets => ∃ result buf' fs',
      st.fs.read i buf nbOctets = .ok (result, buf', fs') ∧ st' = { st with fs := fs' }
  | .write i buf nbOctets => nbOctets < 2 ^ 31 ∧ ∃ uninit result fs',
      st.fs.write uninit i buf nbOctets = .ok (result, fs') ∧ st' = { st with fs := fs' }
  | .createFile path initialSize => ∃ heap result fs' serial,
      st.fs.createFile heap path initialSize = .ok (result, fs') ∧
      (∀ s, st.fs.disk.Reachable s false → serial s = st.serial s) ∧
      (∀ s, ¬ st.fs.disk.Reachable s false → serial s = st.created) ∧
      st' = ⟨fs', st.created + 1, serial, st.openedAs⟩
  | .removeFile path => ∃ heap result fs', st.fs.removeFile heap path = .ok (result, fs') ∧
      st' = { st with fs := fs' }

/-- What a call has to respect, given the state before it. The directories on a path
exist. A file is no larger than a header can list. No directory is opened for
writing or removed as a file, and no file is removed while it is open for writing. -/
def Safe (st : OpenRun) : FileCall → Prop
  | .openFile path mode => ∃ p name, st.fs.locate path = some (p, name) ∧
      (mode = modeWrite → ∀ j, (st.fs.disk.dirTable p).findIndex name = some j →
        (st.fs.disk.dirTable p).isDirectory j = false)
  | .createFile path initialSize =>
      (st.fs.locate path).isSome ∧ -2 ^ 31 ≤ initialSize ∧ initialSize ≤ MaxFileSize
  | .removeFile path => ∃ p name, st.fs.locate path = some (p, name) ∧
      ∀ j, (st.fs.disk.dirTable p).findIndex name = some j →
        (st.fs.disk.dirTable p).isDirectory j = false ∧
          ∀ k < NbFileTableEntries, ∀ e, st.fs.fileTable.table k = some e →
            e.mode = modeWrite → e.sector ≠ (st.fs.disk.dirTable p).sector j
  | _ => True

/-- The entry `e` under the id `k`: if it can be written through, it holds a good
copy of the header of the file recorded for the id. -/
structure EntryOf (st : OpenRun) (L : Layout) (k : ℕ) (e : OpenFileEntry) : Prop where
  position : -2 ^ 31 ≤ e.file.seekPosition
  opened : e.mode = modeWrite → ∃ t ∈ L.files, e.file.OpenedOn st.fs.disk t ∧ e.sector = t ∧
    st.openedAs k = some (st.serial t)

/-- The invariant of safe runs. -/
structure Inv (st : OpenRun) (L : Layout) (c : ℕ) : Prop where
  valid : st.fs.Valid L c
  entries : ∀ k < NbFileTableEntries, ∀ e, st.fs.fileTable.table k = some e → st.EntryOf L k e
  old : ∀ s ∈ L.files, st.serial s < st.created
  distinct : ∀ s ∈ L.files, ∀ t ∈ L.files, st.serial s = st.serial t → s = t

namespace Inv

variable {st st' : OpenRun} {L : Layout} {c : ℕ}

/-- The start of a run. -/
theorem start {fs : FileSystem} (hfs : fs.Valid L c)
    (htable : ∀ k, fs.fileTable.table k = none) : (OpenRun.start fs).Inv L c := by
  refine ⟨hfs, fun k _ e he => ?_, fun s hs => ?_, fun s _ t _ hequal => hequal⟩
  · rw [OpenRun.start, htable k] at he
    cases he
  · exact (hfs.consistent.inRange s (Consistent.mem_objects_of_file hs)).1

/-- A step that changes only the table, and there only drops or moves entries. -/
theorem of_table (hst : st.Inv L c) {fs' : FileSystem}
    (hequal : fs' = { st.fs with fileTable := fs'.fileTable })
    (hentries : ∀ k < NbFileTableEntries, ∀ e, fs'.fileTable.table k = some e →
      ∃ e', st.fs.fileTable.table k = some e' ∧ e.mode = e'.mode ∧ e.sector = e'.sector ∧
        e.file.hdr = e'.file.hdr ∧ -2 ^ 31 ≤ e.file.seekPosition) :
    ({ st with fs := fs' } : OpenRun).Inv L c := by
  have hdisk : fs'.disk = st.fs.disk := by rw [hequal]
  refine ⟨by rw [hequal]; exact ⟨hst.valid.consistent, hst.valid.mapFile, hst.valid.current_mem,
    hst.valid.current⟩, fun k hk e he => ?_, hst.old, hst.distinct⟩
  obtain ⟨e', he', hmode, hsector, hhdr, hposition⟩ := hentries k hk e he
  refine ⟨hposition, fun hwrite => ?_⟩
  obtain ⟨t, ht, hopen, hsector', hserial⟩ := (hst.entries k hk e' he').opened (hmode ▸ hwrite)
  refine ⟨t, ht, ?_, hsector.trans hsector', hserial⟩
  rw [OpenFile.OpenedOn, hhdr, hdisk]
  exact hopen

/-- A step on the disk that keeps the headers of the files that are still there. -/
theorem of_disk (hst : st.Inv L c) {L' : Layout} {c' created : ℕ} {fs' : FileSystem}
    {serial : ℕ → ℕ} (hvalid : fs'.Valid L' c') (htable : fs'.fileTable = st.fs.fileTable)
    (hkept : ∀ k < NbFileTableEntries, ∀ e, st.fs.fileTable.table k = some e →
      e.mode = modeWrite → ∀ t ∈ L.files, e.sector = t →
        t ∈ L'.files ∧ fs'.disk t = st.fs.disk t ∧ serial t = st.serial t)
    (hold : ∀ s ∈ L'.files, serial s < created)
    (hdistinct : ∀ s ∈ L'.files, ∀ t ∈ L'.files, serial s = serial t → s = t) :
    (⟨fs', created, serial, st.openedAs⟩ : OpenRun).Inv L' c' := by
  refine ⟨hvalid, fun k hk e he => ?_, hold, hdistinct⟩
  rw [htable] at he
  obtain ⟨hposition, hopened⟩ := hst.entries k hk e he
  refine ⟨hposition, fun hwrite => ?_⟩
  obtain ⟨t, ht, hopen, hsector, hserial⟩ := hopened hwrite
  obtain ⟨ht', hheader, hequal⟩ := hkept k hk e he hwrite t ht hsector
  exact ⟨t, ht', hopen.congr hheader, hsector, hserial.trans (congrArg some hequal.symm)⟩

/-- Closing. -/
theorem close (hst : st.Inv L c) {i result : ℤ} {fs' : FileSystem}
    (hok : st.fs.close i = .ok (result, fs')) : ({ st with fs := fs' } : OpenRun).Inv L c := by
  simp only [FileSystem.close, Except.bind_eq_ok] at hok
  obtain ⟨⟨result', table⟩, hclose, hequal⟩ := hok
  cases hequal
  refine hst.of_table rfl fun k hk e he => ?_
  obtain ⟨j, -, -, hset⟩ := OpenFileTable.close_eq_ok hclose
  dsimp only at he
  rw [hset, OpenFileTable.set] at he
  split at he
  · cases he
  · exact ⟨e, he, rfl, rfl, rfl, (hst.entries k hk e he).position⟩

/-- Moving the position of an entry. -/
theorem setFile (hst : st.Inv L c) {i : ℕ} {entry : OpenFileEntry} {x : ℤ}
    (hentry : st.fs.fileTable.table i = some entry) :
    ({ st with fs := st.fs.setFile i entry ⟨entry.file.hdr, wrap32 x⟩ } : OpenRun).Inv L c := by
  refine hst.of_table rfl fun k hk e he => ?_
  obtain ⟨e', he', hmode, hsector, hhdr, hposition⟩ := FileSystem.setFile_entry hentry he
  refine ⟨e', he', hmode, hsector, hhdr, ?_⟩
  rcases hposition with hsame | hmoved
  · rw [hsame]
    exact (hst.entries k hk e' he').position
  · rw [hmoved]
    exact neg_le_wrap32 x

/-- Reading. -/
theorem read (hst : st.Inv L c) {i nbOctets result : ℤ} {buf buf' : Mem} {fs' : FileSystem}
    (hok : st.fs.read i buf nbOctets = .ok (result, buf', fs')) :
    ({ st with fs := fs' } : OpenRun).Inv L c := by
  obtain rfl | ⟨k, e, x, rfl, -, hentry, rfl⟩ := FileSystem.read_eq_ok hok
  · exact hst
  · exact hst.setFile hentry

/-- Writing: only the file recorded for the id changes. -/
theorem write (hst : st.Inv L c) {i nbOctets result : ℤ} {buf uninit : Mem} {fs' : FileSystem}
    (hn : nbOctets < 2 ^ 31) (hok : st.fs.write uninit i buf nbOctets = .ok (result, fs')) :
    ({ st with fs := fs' } : OpenRun).Inv L c ∧ ∀ s ∈ L.files,
      st.openedAs i ≠ some (st.serial s) → fs'.disk.contents s = st.fs.disk.contents s := by
  obtain rfl | ⟨k, entry, count, disk', rfl, hk, hentry, hmode, hwrite, rfl⟩ :=
    FileSystem.write_eq_ok hok
  · exact ⟨hst, fun _ _ _ => rfl⟩
  obtain ⟨hposition, hopened⟩ := hst.entries k hk entry hentry
  obtain ⟨t, ht, hopen, -, hserial⟩ := hopened hmode
  have h := hst.valid.consistent
  have hframe := h.writeFile ht hopen hn hposition hwrite
  have hmoved := hst.setFile (x := entry.file.seekPosition + count) hentry
  refine ⟨hmoved.of_disk (hmoved.valid.of_disk (h.written ht hframe) hst.valid.current_mem
      (h.header_written ht hframe Consistent.zero_mem_objects)
      (h.header_written ht hframe (Consistent.mem_objects_of_dir hst.valid.current_mem))) rfl
    (fun _ _ _ _ _ s hs _ => ⟨hs, h.header_written ht hframe
      (Consistent.mem_objects_of_file hs), rfl⟩) hst.old hst.distinct, fun s hs hother => ?_⟩
  refine h.contents_written ht hframe hs ?_
  rintro rfl
  exact hother hserial

/-- Creating. -/
theorem createFile (hst : st.Inv L c) {heap : Heap} {path : List UInt8} {initialSize : ℤ}
    {result : Bool} {fs' : FileSystem} {serial : ℕ → ℕ}
    (hsafe : st.Safe (.createFile path initialSize))
    (hok : st.fs.createFile heap path initialSize = .ok (result, fs'))
    (hkept : ∀ s, st.fs.disk.Reachable s false → serial s = st.serial s)
    (hnew : ∀ s, ¬ st.fs.disk.Reachable s false → serial s = st.created) :
    ∃ L', (⟨fs', st.created + 1, serial, st.openedAs⟩ : OpenRun).Inv L' c := by
  have h := hst.valid.consistent
  obtain ⟨hlocate, hlow, hhigh⟩ := hsafe
  obtain ⟨⟨p, name⟩, hlocate⟩ := Option.isSome_iff_exists.mp hlocate
  have hfile (s : ℕ) (hs : s ∈ L.files) : serial s = st.serial s :=
    hkept s (h.reachable_file_iff.mpr hs)
  obtain ⟨-, rfl⟩ | ⟨-, n, i, disk', rfl, ins, -, hvalid⟩ :=
    hst.valid.createFile_eq_ok hlocate hlow hhigh hok
  · refine ⟨L, hst.of_disk hst.valid rfl (fun _ _ _ _ _ t ht _ => ⟨ht, rfl, hfile t ht⟩)
      (fun s hs => ?_) fun s hs t ht hequal => ?_⟩
    · have := hst.old s hs
      rw [hfile s hs]
      omega
    · rw [hfile s hs, hfile t ht] at hequal
      exact hst.distinct s hs t ht hequal
  · have hp := hst.valid.locate_mem hlocate
    have hnumber : serial n = st.created := hnew n fun hreach =>
      Consistent.new_notMem_files h ins (h.reachable_file_iff.mp hreach)
    have hcases {s : ℕ} (hs : s ∈ (L.insert n false).files) : s ∈ L.files ∨ s = n :=
      (Layout.mem_files_insert.mp hs).imp id And.right
    refine ⟨_, hst.of_disk hvalid rfl (fun _ _ _ _ _ t ht _ =>
      ⟨Layout.mem_files_insert.mpr (Or.inl ht), h.header_frame hp ins.frame
        (Consistent.mem_objects_of_file ht), hfile t ht⟩) (fun s hs => ?_) fun s hs t ht hequal => ?_⟩
    · rcases hcases hs with hs | rfl
      · have := hst.old s hs
        rw [hfile s hs]
        omega
      · omega
    · rcases hcases hs with hold | hs <;> rcases hcases ht with hold' | ht
      · rw [hfile s hold, hfile t hold'] at hequal
        exact hst.distinct s hold t hold' hequal
      · have := hst.old s hold
        rw [hfile s hold, ht, hnumber] at hequal
        omega
      · have := hst.old t hold'
        rw [hfile t hold', hs, hnumber] at hequal
        omega
      · rw [hs, ht]

/-- Removing. -/
theorem removeFile (hst : st.Inv L c) {heap : Heap} {path : List UInt8} {result : Bool}
    {fs' : FileSystem} (hsafe : st.Safe (.removeFile path))
    (hok : st.fs.removeFile heap path = .ok (result, fs')) :
    ∃ L', ({ st with fs := fs' } : OpenRun).Inv L' c := by
  have h := hst.valid.consistent
  obtain ⟨p, name, hlocate, hentry⟩ := hsafe
  obtain ⟨-, rfl⟩ | ⟨-, i, t, ht, disk', rfl, hindex, rem, hvalid⟩ :=
    hst.valid.removeFile_eq_ok hlocate (fun i hi => (hentry i hi).1) hok
  · exact ⟨L, hst⟩
  · have hp := hst.valid.locate_mem hlocate
    have hcases {s : ℕ} (hs : s ∈ (L.erase t).files) : s ∈ L.files := Finset.mem_of_mem_erase hs
    refine ⟨_, hst.of_disk hvalid rfl (fun k hk e he hmode s hs hsector => ⟨?_,
      h.header_frame hp rem.frame (Consistent.mem_objects_of_file hs), rfl⟩)
      (fun s hs => hst.old s (hcases hs))
      fun s hs u hu hequal => hst.distinct s (hcases hs) u (hcases hu) hequal⟩
    refine Finset.mem_erase.mpr ⟨?_, hs⟩
    rintro rfl
    exact (hentry i hindex).2 k hk e he hmode (hsector.trans rem.target.symm)

/-- The id `k` is returned for the file `t`. -/
theorem of_opened (hst : st.Inv L c) {t k : ℕ} {table : OpenFileTable}
    (hother : ∀ k' ≠ k, table.table k' = st.fs.fileTable.table k')
    (hentry : ∀ e, table.table k = some e → -2 ^ 31 ≤ e.file.seekPosition ∧
      (e.mode = modeWrite → t ∈ L.files ∧ e.file.OpenedOn st.fs.disk t ∧ e.sector = t)) :
    (⟨{ st.fs with fileTable := table }, st.created, st.serial,
      Function.update st.openedAs k (some (st.serial t))⟩ : OpenRun).Inv L c := by
  refine ⟨⟨hst.valid.consistent, hst.valid.mapFile, hst.valid.current_mem, hst.valid.current⟩,
    fun k' hk' e he => ?_, hst.old, hst.distinct⟩
  by_cases hsame : k' = k
  · subst hsame
    obtain ⟨hposition, hopened⟩ := hentry e he
    refine ⟨hposition, fun hmode => ?_⟩
    obtain ⟨ht, hopen, hsector⟩ := hopened hmode
    exact ⟨t, ht, hopen, hsector, Function.update_self _ _ _⟩
  · have he' : st.fs.fileTable.table k' = some e := (hother k' hsame).symm.trans he
    obtain ⟨hposition, hopened⟩ := hst.entries k' hk' e he'
    refine ⟨hposition, fun hmode => ?_⟩
    obtain ⟨s, hs, hopen, hsector, hserial⟩ := hopened hmode
    refine ⟨s, hs, hopen, hsector, ?_⟩
    exact (Function.update_of_ne (by exact_mod_cast hsame) _ _).trans hserial

/-- Opening. -/
theorem openFile (hst : st.Inv L c) {heap : Heap} {path : List UInt8} {mode : UInt8} {i : ℤ}
    {fs' : FileSystem} (hsafe : st.Safe (.openFile path mode))
    (hok : st.fs.openFile heap path mode = .ok (i, fs')) :
    ({ st with
      fs := fs'
      openedAs := if 0 ≤ i then
          Function.update st.openedAs i (some (st.serial (st.fs.sectorAt path)))
        else st.openedAs } : OpenRun).Inv L c := by
  have h := hst.valid.consistent
  obtain ⟨p, name, hlocate, hwritable⟩ := hsafe
  have hp := hst.valid.locate_mem hlocate
  cases hindex : (st.fs.disk.dirTable p).findIndex name with
  | none =>
      rw [hst.valid.openFile_of_absent heap mode hlocate hindex] at hok
      cases hok
      exact hst
  | some j =>
      obtain ⟨t, ht, hobj, hfile⟩ := h.object_of_findIndex hp hindex
      have hat : st.fs.sectorAt path = t := by
        rw [FileSystem.sectorAt, hlocate]
        simp only [Directory.find, hindex, ht, Int.toNat_natCast]
      obtain ⟨f, hopen, hseek, hresult⟩ := hst.valid.openFile heap mode hlocate hindex ht
        (h.inRange t hobj).1
      rw [hresult] at hok
      dsimp only at hok
      rw [hat]
      split at hok
      · -- The entry was there; if it can be written through, it is on the same file.
        rename_i k hfind
        cases hok
        obtain ⟨hk, e, he, hsector⟩ := OpenFileTable.find_eq_some hfind
        rw [if_pos (by omega)]
        refine hst.of_opened (fun _ _ => rfl) fun e' he' => ?_
        obtain ⟨hposition, hopened⟩ := hst.entries k hk e' he'
        refine ⟨hposition, fun hmode => ?_⟩
        obtain ⟨s, hs, hopenS, hsectorS, -⟩ := hopened hmode
        rw [he] at he'
        cases he'
        obtain rfl : s = t := by exact_mod_cast hsectorS.symm.trans hsector
        exact ⟨hs, hopenS, hsectorS⟩
      · obtain ⟨⟨i', table⟩, htable, hequal⟩ := Except.bind_eq_ok.mp hok
        cases hequal
        rcases OpenFileTable.add_eq_ok htable with ⟨rfl, rfl⟩ | ⟨k, rfl, -, -, hset⟩
        · exact hst
        rw [if_pos (by omega)]
        refine hst.of_opened (fun k' hk' => by rw [hset, OpenFileTable.set, if_neg hk'])
          fun e he => ?_
        rw [hset, OpenFileTable.set, if_pos rfl] at he
        cases he
        exact ⟨by rw [hseek]; norm_num,
          fun hmode => ⟨hfile (hwritable hmode j hindex), hopen, rfl⟩⟩

/-- **One safe call** keeps the invariant. -/
theorem step (hst : st.Inv L c) {call : FileCall} (hstep : st.Step call st')
    (hsafe : st.Safe call) : ∃ L' c', st'.Inv L' c' := by
  cases call with
  | openFile path mode =>
      obtain ⟨heap, i, fs', hok, rfl⟩ := hstep
      exact ⟨L, c, hst.openFile hsafe hok⟩
  | close i =>
      obtain ⟨result, fs', hok, rfl⟩ := hstep
      exact ⟨L, c, hst.close hok⟩
  | read i buf nbOctets =>
      obtain ⟨result, buf', fs', hok, rfl⟩ := hstep
      exact ⟨L, c, hst.read hok⟩
  | write i buf nbOctets =>
      obtain ⟨hn, uninit, result, fs', hok, rfl⟩ := hstep
      exact ⟨L, c, (hst.write hn hok).1⟩
  | createFile path initialSize =>
      obtain ⟨heap, result, fs', serial, hok, hkept, hnew, rfl⟩ := hstep
      obtain ⟨L', hnext⟩ := hst.createFile hsafe hok hkept hnew
      exact ⟨L', c, hnext⟩
  | removeFile path =>
      obtain ⟨heap, result, fs', hok, rfl⟩ := hstep
      obtain ⟨L', hnext⟩ := hst.removeFile hsafe hok
      exact ⟨L', c, hnext⟩

end Inv

/-- A write through an id leaves the contents of every file alone but the one the id
was returned for. -/
def WritesOpened (x : Base.Step OpenRun FileCall) : Prop :=
  ∀ i buf nbOctets, x.label = .write i buf nbOctets → ∀ s, x.before.fs.disk.Reachable s false →
    x.before.openedAs i ≠ some (x.before.serial s) →
    x.after.fs.disk.contents s = x.before.fs.disk.contents s

/-- **An open file id only ever affects the file it was opened on**, in every safe run
on a file system whose table of open files was empty; and different files have
different numbers all along. -/
theorem write_affects_opened {fs : FileSystem} {L : Layout} {c : ℕ} (hfs : fs.Valid L c)
    (htable : ∀ k, fs.fileTable.table k = none) {st : OpenRun}
    {steps : List (Base.Step OpenRun FileCall)} (hrun : Trace Step (start fs) steps st)
    (hsafe : ∀ x ∈ steps, x.before.Safe x.label) :
    ∀ x ∈ steps, WritesOpened x ∧
      ∀ s t, x.before.fs.disk.Reachable s false → x.before.fs.disk.Reachable t false →
        x.before.serial s = x.before.serial t → s = t := by
  obtain ⟨-, hall⟩ := Trace.invariant (I := fun st => ∃ L c, st.Inv L c)
    (fun x ⟨_, _, hbefore⟩ hstep hsafe => hbefore.step hstep hsafe) hrun
    ⟨L, c, Inv.start hfs htable⟩ hsafe
  intro x hx
  obtain ⟨⟨L', c', hst⟩, -⟩ := hall x hx
  have h := hst.valid.consistent
  refine ⟨fun i buf nbOctets hlabel s hs hother => ?_, fun s t hs ht hequal =>
    hst.distinct s (h.reachable_file_iff.mp hs) t (h.reachable_file_iff.mp ht) hequal⟩
  have hstep := hrun.rel_of_mem x hx
  rw [hlabel] at hstep
  obtain ⟨hn, uninit, result, fs', hok, hafter⟩ := hstep
  rw [hafter]
  exact (hst.write hn hok).2 s (h.reachable_file_iff.mp hs) hother

/-- No file can be reached on a formatted disk. -/
theorem not_reachable_of_formatted {d : Disk} (h : d.Formatted) (s : ℕ) :
    ¬ d.Reachable s false := fun hs =>
  Finset.notMem_empty s (h.consistent.reachable_file_iff.mp hs)

/-- The file `a` created on a formatted disk. -/
theorem step_createFile {fs : FileSystem} (hfs : fs.Valid Layout.initial 1)
    (hformatted : fs.disk.Formatted) (name : Name) (hname : FileSystem.IsComponent name)
    (hdot : Mem.strnEqual (Mem.ofString Directory.dot) (Mem.ofString name) 9 = false)
    (hdotDot : Mem.strnEqual (Mem.ofString Directory.dotDot) (Mem.ofString name) 9 = false)
    (created : ℕ) (serial : ℕ → ℕ) (openedAs : ℤ → Option ℕ) :
    ∃ i disk', Step ⟨fs, created, serial, openedAs⟩ (.createFile name 128)
        ⟨{ fs with disk := disk' }, created + 1, fun _ => created, openedAs⟩ ∧
      fs.disk.Inserted disk' Layout.initial 1 5 i name false ∧ (disk'.header 5).numBytes = 128 ∧
      (disk'.header 5).listed = 1 ∧ disk'.dataSector 5 0 = 6 ∧ disk' 6 = fs.disk 6 ∧
      ∀ x < 1024, disk'.freeMap.testBit x =
        (fs.disk.freeMap.testBit x || decide (x ∈ disk'.owned 5)) := by
  obtain ⟨i, disk', hcreate, ins, hbytes, hsectors, hdata, hmarks⟩ := hfs.createFile_of_formatted
    hformatted (fun _ _ => 0) name 128 hname hdot hdotDot (by omega)
  obtain ⟨hsector, hkept⟩ := hdata 0 (by decide)
  refine ⟨i, disk', ⟨_, true, _, _, hcreate,
    fun s hs => absurd hs (not_reachable_of_formatted hformatted s), fun _ _ => rfl, rfl⟩, ins,
    hbytes, ?_, hsector, hkept, hmarks⟩
  rw [FileHeader.listed, hsectors]
  decide

/-- A byte written through an entry whose copy of a header names sector 6. -/
theorem step_write (st : OpenRun) {e : OpenFileEntry} (hentry : st.fs.fileTable.table 0 = some e)
    (hmode : e.mode = modeWrite) (hseek : e.file.seekPosition = 0)
    (hlength : e.file.hdr.numBytes = 128) (hsector : e.file.hdr.dataSectors 0 = 6) :
    ∃ st', st.Step (.write 0 (fun _ => 7) 1) st' ∧
      (∀ x, x ≠ 6 → st'.fs.disk x = st.fs.disk x) ∧ st'.fs.disk 6 0 = 7 := by
  have hcount : e.file.transferred 1 0 = 1 := by
    rw [OpenFile.transferred, hlength]
    rfl
  have hlist : e.file.hdr.sectorList 1 = [6] := by simp [FileHeader.sectorList, hsector]
  obtain ⟨disk', hwrite, hframe, hdata⟩ := e.file.writeAt_of_nodup (fun _ => 0) st.fs.disk
    (fun _ => 7) 1 0 (m := 1) (fun _ => by omega) (fun k hk => by
      rw [show k = 0 by omega, hsector]
      omega) (by omega) (by omega) (by rw [hlist]; simp)
  have hbyte := hdata 0 (by omega) (by omega)
  rw [if_pos (by omega)] at hbyte
  simp only [OpenFile.fileBytes, Nat.zero_div, Nat.zero_mod, hsector] at hbyte
  refine ⟨{ st with fs := { st.fs.setFile 0 e ⟨e.file.hdr, wrap32 (e.file.seekPosition + 1)⟩ with
    disk := disk' } }, ⟨by norm_num, fun _ => 0, 1, _, ?_, rfl⟩, fun x hx => ?_, hbyte⟩
  · have hget : st.fs.fileTable.get 0 = some e :=
      (FileSystem.get_of_lt (i := 0) (by omega)).trans hentry
    rw [FileSystem.write, hget]
    simp only [hmode, ne_eq, not_true_eq_false, if_false, OpenFile.write, hseek]
    rw [hcount] at hwrite
    simp only [Nat.cast_one, Nat.cast_zero] at hwrite
    rw [hwrite]
    rfl
  · exact hframe x (by rw [hlist]; simpa using hx)

/-- A run that creates `a` and opens it for writing. -/
theorem exists_open_run : ∃ fs disk' i table e,
    FileSystem.format (fun _ _ => 0) (fun _ _ => 0) (fun _ => none) = .ok fs ∧
      (fs.Valid Layout.initial 1 ∧ fs.disk.Formatted ∧ ∀ k, fs.fileTable.table k = none) ∧
      Step (start fs) (.createFile [97] 128)
        ⟨{ fs with disk := disk' }, 1025, fun _ => 1024, fun _ => none⟩ ∧
      fs.disk.Inserted disk' Layout.initial 1 5 i [97] false ∧
      (disk'.header 5).listed = 1 ∧ disk'.dataSector 5 0 = 6 ∧ disk' 6 0 = 0 ∧
      (∀ x < 1024, disk'.freeMap.testBit x =
        (fs.disk.freeMap.testBit x || decide (x ∈ disk'.owned 5))) ∧
      Step ⟨{ fs with disk := disk' }, 1025, fun _ => 1024, fun _ => none⟩
        (.openFile [97] modeWrite)
        ⟨{ fs with disk := disk', fileTable := table }, 1025, fun _ => 1024,
          Function.update (fun _ => none) 0 (some 1024)⟩ ∧
      table.table 0 = some e ∧ e.mode = modeWrite ∧ e.file.seekPosition = 0 ∧
      e.file.hdr.numBytes = 128 ∧ e.file.hdr.dataSectors 0 = 6 := by
  obtain ⟨fs, hformat, hformatted, hvalid, hnew, hblank⟩ :=
    FileSystem.format_eq_ok (fun _ _ => 0) (fun _ _ => 0) (fun _ => none)
  have htable (k : ℕ) : fs.fileTable.table k = none := by
    rw [hnew]
    rfl
  obtain ⟨i, disk', hstep, ins, hbytes, hlisted, hsector, hkept, hmarks⟩ :=
    step_createFile hvalid hformatted
    [97] (by decide) (by decide) (by decide) 1024 id fun _ => none
  have hvalid' := hvalid.of_inserted ins
  obtain ⟨fs', hopen, ⟨-, ⟨e, hentry, hmode, hopened, hseek⟩, -⟩, hequal, -⟩ :=
    hvalid'.openFile_of_null (fun _ _ => 0) modeWrite (hvalid'.locate_of_component (by decide))
      ins.findIndex (Consistent.sector_new ins)
      (Layout.mem_files_insert.mpr (Or.inr ⟨rfl, rfl⟩)) htable (by
        change fs.fileTable.nbFiles = 0
        rw [hnew]
        rfl)
  rw [hequal] at hopened
  refine ⟨fs, disk', i, fs'.fileTable, e, hformat, ⟨hvalid, hformatted, htable⟩, hstep, ins,
    hlisted, hsector, ?_, hmarks, ⟨fun _ _ => 0, 0, fs', hopen, ?_⟩, hentry, hmode, hseek, ?_, ?_⟩
  · rw [hkept, hblank 6 (by omega)]
  · rw [hequal]
    rfl
  · exact (FileHeader.SameObject.numBytes hopened).trans hbytes
  · rw [FileHeader.SameObject.dataSectors hopened (by omega)]
    rw [Disk.dataSector] at hsector
    change (disk'.header 5).dataSectors 0 = 6
    omega

/-- Writing to `a` through its id. -/
theorem write_affects_opened_one : ∃ fs steps st,
    FileSystem.format (fun _ _ => 0) (fun _ _ => 0) (fun _ => none) = .ok fs ∧
      Trace Step (start fs) steps st ∧
      steps.map Base.Step.label =
        [.createFile [97] 128, .openFile [97] modeWrite, .write 0 (fun _ => 7) 1] ∧
      ∀ x ∈ steps, WritesOpened x := by
  obtain ⟨fs, disk', i, table, e, hformat, ⟨hvalid, -, htable⟩, hfirst, ins, -, -, -, -, hsecond,
    hentry, hmode, hseek, hlength, hsector⟩ := exists_open_run
  have hvalid' := hvalid.of_inserted ins
  obtain ⟨st, hthird, -⟩ := step_write (⟨{ fs with disk := disk', fileTable := table }, 1025,
    fun _ => 1024, Function.update (fun _ => none) 0 (some 1024)⟩) hentry hmode hseek hlength hsector
  have hrun := (((Trace.nil (start fs)).snoc hfirst).snoc hsecond).snoc hthird
  refine ⟨fs, _, st, hformat, hrun, rfl, fun x hx => ?_⟩
  refine (write_affects_opened hvalid htable hrun (fun y hy => ?_) x hx).1
  simp only [List.nil_append, List.cons_append, List.mem_cons, List.not_mem_nil, or_false] at hy
  rcases hy with rfl | rfl | rfl
  · refine ⟨?_, by decide, by decide⟩
    change (fs.locate [97]).isSome = true
    rw [hvalid.locate_of_component (by decide)]
    rfl
  · refine ⟨1, [97], hvalid'.locate_of_component (by decide), fun _ j hj => ?_⟩
    rw [ins.findIndex] at hj
    rw [← Option.some.inj hj]
    exact Consistent.isDirectory_new ins
  · trivial

/-- The file `a` is opened for writing and removed, and `b` gets its sectors: a write
through the id of `a` changes `b`. -/
theorem not_writesOpened_after_remove : ∃ fs steps st,
    FileSystem.format (fun _ _ => 0) (fun _ _ => 0) (fun _ => none) = .ok fs ∧
      Trace Step (start fs) steps st ∧
      steps.map Base.Step.label =
        [.createFile [97] 128, .openFile [97] modeWrite, .removeFile [97], .createFile [98] 128,
          .write 0 (fun _ => 7) 1] ∧
      ¬ ∀ x ∈ steps, WritesOpened x := by
  obtain ⟨fs, disk₁, i, table, e, hformat, ⟨hvalid, hformatted, -⟩, hfirst, ins, hlisted, hdata,
    hzero, hmarks, hsecond, hentry, hmode, hseek, hlength, hsector⟩ := exists_open_run
  -- From here on the table holds the entry of `a`, which the disk knows nothing of.
  have hopened : ({ fs with fileTable := table } : FileSystem).Valid Layout.initial 1 :=
    ⟨hvalid.consistent, hvalid.mapFile, hvalid.current_mem, hvalid.current⟩
  obtain ⟨disk₂, hremove, hformatted₂, hvalid₂, hkept⟩ :=
    hopened.removeFile_of_formatted hformatted (fun _ _ => 0) (by decide) ins hmarks
  have hthird : Step ⟨{ fs with disk := disk₁, fileTable := table }, 1025, fun _ => 1024,
      Function.update (fun _ => none) 0 (some 1024)⟩ (.removeFile [97])
      ⟨{ fs with disk := disk₂, fileTable := table }, 1025, fun _ => 1024,
        Function.update (fun _ => none) 0 (some 1024)⟩ := ⟨_, true, _, hremove, rfl⟩
  obtain ⟨j, disk₃, hfourth, ins₃, hbytes₃, -, hdata₃, hkept₃, -⟩ := step_createFile hvalid₂
    hformatted₂ [98] (by decide) (by decide) (by decide) 1025 (fun _ => 1024)
    (Function.update (fun _ => none) 0 (some 1024))
  obtain ⟨st, hfifth, hframe, hwritten⟩ := step_write
    (⟨{ fs with disk := disk₃, fileTable := table }, 1026, fun _ => 1025,
      Function.update (fun _ => none) 0 (some 1024)⟩) hentry hmode hseek hlength hsector
  refine ⟨fs, _, st, hformat, ((((Trace.nil (start fs)).snoc hfirst).snoc hsecond).snoc
    hthird).snoc hfourth |>.snoc hfifth, rfl, fun hall => ?_⟩
  have hlast := hall _ (List.mem_append_right _ (List.mem_singleton_self _)) 0 (fun _ => 7) 1 rfl 5
    ((hvalid₂.of_inserted ins₃).consistent.reachable_file_iff.mpr
      (Layout.mem_files_insert.mpr (Or.inr ⟨rfl, rfl⟩))) (by simp)
  have hbefore : disk₃ 6 0 = 0 := by
    have hmem : 6 ∈ disk₁.owned 5 := by
      rw [← hdata]
      exact List.mem_cons_of_mem _ (Disk.dataSector_mem (by omega))
    rw [hkept₃]
    exact (congrFun (hkept 6 hmem) 0).trans hzero
  have hheader : st.fs.disk 5 = disk₃ 5 := hframe 5 (by omega)
  have hbyte : st.fs.disk.bytes 5 0 = disk₃.bytes 5 0 := by
    have hget := congrArg (fun l : List UInt8 => l[0]?) hlast
    simpa [Disk.contents, Disk.header_congr hheader, hbytes₃] using hget
  rw [Disk.bytes_apply, Disk.bytes_apply, Disk.dataSector_congr hheader, Nat.zero_div, hdata₃,
    Nat.zero_mod, hwritten, hbefore] at hbyte
  cases hbyte

end OpenRun

end Nachos
