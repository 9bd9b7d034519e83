/-
# The ids of open files

`OpenFileTable::Open` builds a new entry for the file and then looks for one with the
same header sector. If there is one, its index is returned and the new entry is
dropped: the id is one that somebody holds, and its mode and its position are
those of the entry that was there. Only a file that is not in the table gets an
entry of its own.

A run records which ids are held. The functions of the table are its steps; all
else that happens between them, in this thread or in another one with its own
current directory, is a step that may change everything but the table.
-/

import Nachos.Filesys.OpenRuns
import Nachos.Filesys.Sequential

namespace Nachos

open Base

/-- **`OpenFileTable::Open`**, when it returns. -/
theorem OpenFileTable.openFile_eq_ok {t t' : OpenFileTable} {heap : Heap} {disk : Disk}
    {currentDirectory : OpenFile} {name : Name} {mode : UInt8} {i : ℤ}
    (h : t.openFile heap disk currentDirectory name mode = .ok (i, t')) :
    ∃ directory, (Directory.new (heap 0) NumDirEntries).fetchFrom disk currentDirectory =
        .ok directory ∧
      (directory.find name < 0 ∧ i = -1 ∧ t' = t ∨
        ∃ file, OpenFile.new (heap 1) disk (directory.find name) = .ok file ∧
          ((∃ k : ℕ, t.find (directory.find name) = some k ∧ i = k ∧ t' = t) ∨
            t.find (directory.find name) = none ∧
              t.add ⟨file, mode, directory.find name⟩ = .ok (i, t'))) := by
  rw [OpenFileTable.openFile, Except.bind_eq_ok] at h
  obtain ⟨directory, hfetch, h⟩ := h
  refine ⟨directory, hfetch, ?_⟩
  dsimp only at h
  split at h
  · rename_i hnegative
    cases h
    exact Or.inl ⟨hnegative, rfl, rfl⟩
  obtain ⟨file, hnew, h⟩ := Except.bind_eq_ok.mp h
  refine Or.inr ⟨file, hnew, ?_⟩
  split at h
  · rename_i k hfind
    cases h
    exact Or.inl ⟨k, hfind, rfl, rfl⟩
  · rename_i hfind
    exact Or.inr ⟨hfind, h⟩

/-- No entry has the sector. -/
theorem OpenFileTable.find_eq_none {t : OpenFileTable} {sector : ℤ} :
    t.find sector = none ↔
      ∀ k < NbFileTableEntries, ∀ e, t.table k = some e → e.sector ≠ sector := by
  rw [OpenFileTable.find, List.find?_eq_none]
  refine ⟨fun h k hk e he hsector => ?_, fun h k hk => ?_⟩
  · have hnot := h k (List.mem_range.mpr hk)
    rw [he] at hnot
    exact hnot (by simpa using hsector)
  · split
    · rename_i e he
      simpa using h k (List.mem_range.mp hk) e he
    · simp

/-- The file system, and the ids that `Open` has returned and that have not been
closed since. -/
structure IdRun where
  fs : FileSystem
  held : Finset ℤ

/-- The functions of the table, and everything else. -/
inductive TableCall
  | openFile (heap : Heap) (name : Name) (mode : UInt8) (result : ℤ)
  | close (i : ℤ)
  | read (i : ℤ) (buf : Mem) (nbOctets : ℤ)
  | write (uninit : Mem) (i : ℤ) (buf : Mem) (nbOctets : ℤ)
  | elsewhere

/-- The id a call is about. -/
def TableCall.through : TableCall → Option ℤ
  | openFile _ _ _ i => some i
  | close i => some i
  | read i _ _ => some i
  | write _ i _ _ => some i
  | elsewhere => none

namespace IdRun

/-- Nobody holds an id. -/
def start (fs : FileSystem) : IdRun := ⟨fs, ∅⟩

/-- What a call does. -/
def Step (st : IdRun) (call : TableCall) (st' : IdRun) : Prop :=
  match call with
  | .openFile heap name mode i => ∃ fs',
      st.fs.openInCurrentDirectory heap name mode = .ok (i, fs') ∧
      st' = ⟨fs', if 0 ≤ i then insert i st.held else st.held⟩
  | .close i => ∃ result fs', st.fs.close i = .ok (result, fs') ∧ st' = ⟨fs', st.held.erase i⟩
  | .read i buf nbOctets => ∃ result buf' fs',
      st.fs.read i buf nbOctets = .ok (result, buf', fs') ∧ st' = { st with fs := fs' }
  | .write uninit i buf nbOctets => ∃ result fs',
      st.fs.write uninit i buf nbOctets = .ok (result, fs') ∧ st' = { st with fs := fs' }
  | .elsewhere => st'.fs.fileTable = st.fs.fileTable ∧ st'.held = st.held

variable {st st' : IdRun}

/-- Creating and removing files and directories happens elsewhere. -/
theorem step_update (update : Update) {heap : Heap} {fs' : FileSystem} {result : Bool}
    (h : update.run heap st.fs = .ok (result, fs')) : st.Step .elsewhere ⟨fs', st.held⟩ :=
  ⟨(update.outcome h).fileTable, rfl⟩

/-- So does a change of the current directory. -/
theorem step_changeCurrentDir {heap : Heap} {path : List UInt8} {fs' : FileSystem}
    (h : st.fs.changeCurrentDir heap path = .ok fs') : st.Step .elsewhere ⟨fs', st.held⟩ := by
  obtain ⟨f, rfl⟩ := FileSystem.changeCurrentDir_eq_ok h
  exact ⟨rfl, rfl⟩

/-- `FileSystem::Open` of a path goes to a directory, opens a file there and comes back. -/
theorem trace_openFile {heap : Heap} {path : List UInt8} {mode : UInt8} {i : ℤ}
    {fs' : FileSystem} (h : st.fs.openFile heap path mode = .ok (i, fs')) :
    ∃ name steps, steps.map Base.Step.label = [.elsewhere, .openFile heap name mode i, .elsewhere] ∧
      Trace Step st steps ⟨fs', if 0 ≤ i then insert i st.held else st.held⟩ := by
  obtain ⟨name, f, fs₁, hinner, rfl⟩ := FileSystem.atPath_eq_ok h
  have hgo : st.Step .elsewhere ⟨{ st.fs with currentDirectory := f }, st.held⟩ := ⟨rfl, rfl⟩
  have hopen : Step ⟨{ st.fs with currentDirectory := f }, st.held⟩ (.openFile heap name mode i)
      ⟨fs₁, if 0 ≤ i then insert i st.held else st.held⟩ := ⟨fs₁, hinner, rfl⟩
  have hback : Step ⟨fs₁, if 0 ≤ i then insert i st.held else st.held⟩ .elsewhere
      ⟨{ fs₁ with currentDirectory := st.fs.currentDirectory },
        if 0 ≤ i then insert i st.held else st.held⟩ := ⟨rfl, rfl⟩
  exact ⟨name, _, rfl, (((Trace.nil st).snoc hgo).snoc hopen).snoc hback⟩

/-- `Open` gave an entry of its own: it refers to the header of the name in the current
directory, it has the requested mode and starts at the beginning, and nobody holds its id. -/
structure Fresh (st : IdRun) (heap : Heap) (name : Name) (mode : UInt8) (i : ℤ) (st' : IdRun) :
    Prop where
  entry : ∃ directory e, st.fs.fetchCurrentDirectory (heap 0) = .ok directory ∧
    st'.fs.fileTable.get i = some e ∧ e.sector = directory.find name ∧
    e.file.OpenedOn st.fs.disk e.sector.toNat ∧ e.mode = mode ∧ e.file.seekPosition = 0
  unheld : i ∉ st.held

/-- If the step is an `Open` that returns an id, the id is fresh. -/
def GivesFresh (x : Base.Step IdRun TableCall) : Prop :=
  ∀ heap name mode i, x.label = .openFile heap name mode i → 0 ≤ i →
    x.before.Fresh heap name mode i x.after

/-- If the step is an `Open`, no entry has the sector that the name has in the current
directory. -/
def NotYetOpen (x : Base.Step IdRun TableCall) : Prop :=
  ∀ heap name mode i, x.label = .openFile heap name mode i →
    ∀ directory, x.before.fs.fetchCurrentDirectory (heap 0) = .ok directory →
      ∀ k < NbFileTableEntries, ∀ e, x.before.fs.fileTable.table k = some e →
        e.sector ≠ directory.find name

/-- A call leaves the other ids that are held alone. -/
def KeepsOthers (x : Base.Step IdRun TableCall) : Prop :=
  ∀ j ∈ x.before.held, x.label.through ≠ some j →
    j ∈ x.after.held ∧ x.after.fs.fileTable.get j = x.before.fs.fileTable.get j

/-- The invariant of every run: the ids held are those of the entries in use. -/
structure Inv (st : IdRun) : Prop where
  held : ∀ k < NbFileTableEntries, (k : ℤ) ∈ st.held ↔ (st.fs.fileTable.table k).isSome
  sector : ∀ k < NbFileTableEntries, ∀ e, st.fs.fileTable.table k = some e → 0 ≤ e.sector

/-- What a step may do to the table and to the ids held: nothing, or put `entry` at the
index `k` that the call is about. -/
def Effect (st : IdRun) (call : TableCall) (st' : IdRun) : Prop :=
  st'.fs.fileTable.table = st.fs.fileTable.table ∧ st'.held = st.held ∨
    ∃ (k : ℕ) (entry : Option OpenFileEntry), call.through = some (k : ℤ) ∧
      st'.fs.fileTable.table = st.fs.fileTable.set k entry ∧
      (∀ j, j ∈ st'.held ↔ if j = k then entry.isSome = true else j ∈ st.held) ∧
      ∀ e, entry = some e → 0 ≤ e.sector

namespace Inv

theorem start {fs : FileSystem} (hnull : ∀ k < NbFileTableEntries, fs.fileTable.table k = none) :
    (IdRun.start fs).Inv := by
  refine ⟨fun k hk => ?_, fun k hk e he => ?_⟩
  · simp [IdRun.start, hnull k hk]
  · rw [IdRun.start, hnull k hk] at he
    cases he

/-- An entry that has moved. -/
theorem effect_setFile (hst : st.Inv) {call : TableCall} {k : ℕ} {e : OpenFileEntry}
    {file : OpenFile} {fs' : FileSystem} (hcall : call.through = some (k : ℤ))
    (hk : k < NbFileTableEntries) (hentry : st.fs.fileTable.table k = some e)
    (htable : fs'.fileTable = (st.fs.setFile k e file).fileTable) :
    st.Effect call { st with fs := fs' } := by
  refine Or.inr ⟨k, some { e with file := file }, hcall, ?_, fun j => ?_, fun e' he' => ?_⟩
  · rw [htable]
    rfl
  · by_cases hj : j = k
    · subst hj
      simp [hst.held k hk, hentry]
    · rw [if_neg hj]
  · cases he'
    exact hst.sector k hk e hentry

/-- Opening. -/
theorem effect_openFile (hst : st.Inv) {heap : Heap} {name : Name} {mode : UInt8} {i : ℤ}
    {t' : OpenFileTable} (h : st.fs.fileTable.openFile heap st.fs.disk st.fs.currentDirectory name
      mode = .ok (i, t')) : st.Effect (.openFile heap name mode i)
      ⟨{ st.fs with fileTable := t' }, if 0 ≤ i then insert i st.held else st.held⟩ := by
  obtain ⟨directory, -, ⟨-, rfl, rfl⟩ | ⟨file, hnew, ⟨k, hfind, rfl, rfl⟩ | ⟨-, hadd⟩⟩⟩ :=
    OpenFileTable.openFile_eq_ok h
  · exact Or.inl ⟨rfl, rfl⟩
  · -- The id is one of those held.
    obtain ⟨hk, e, he, -⟩ := OpenFileTable.find_eq_some hfind
    have hheld : (k : ℤ) ∈ st.held := by rw [hst.held k hk, he]; rfl
    exact Or.inl ⟨rfl, by rw [if_pos (by omega), Finset.insert_eq_of_mem hheld]⟩
  · obtain ⟨rfl, rfl⟩ | ⟨k, rfl, -, -, hset⟩ := OpenFileTable.add_eq_ok hadd
    · exact Or.inl ⟨rfl, rfl⟩
    refine Or.inr ⟨k, _, rfl, hset, fun j => ?_, fun e he => ?_⟩
    · by_cases hj : j = k <;> simp [hj]
    · cases he
      exact (OpenFile.new_eq_ok hnew).1.1

/-- **One step** changes at most the entry of the id it is about. -/
theorem effect (hst : st.Inv) {call : TableCall} (hstep : st.Step call st') :
    st.Effect call st' := by
  cases call with
  | openFile heap name mode i =>
      obtain ⟨fs', hok, rfl⟩ := hstep
      obtain ⟨⟨i', t'⟩, hopen, hequal⟩ := Except.bind_eq_ok.mp hok
      cases hequal
      exact hst.effect_openFile hopen
  | close i =>
      obtain ⟨result, fs', hok, rfl⟩ := hstep
      obtain ⟨⟨result', t'⟩, hclose, hequal⟩ := Except.bind_eq_ok.mp hok
      cases hequal
      obtain ⟨k, rfl, -, hset⟩ := OpenFileTable.close_eq_ok hclose
      refine Or.inr ⟨k, none, rfl, hset, fun j => ?_, fun e he => by cases he⟩
      by_cases hj : j = k <;> simp [hj]
  | read i buf nbOctets =>
      obtain ⟨result, buf', fs', hok, rfl⟩ := hstep
      obtain rfl | ⟨k, e, x, rfl, hk, hentry, rfl⟩ := FileSystem.read_eq_ok hok
      · exact Or.inl ⟨rfl, rfl⟩
      · exact hst.effect_setFile rfl hk hentry rfl
  | write uninit i buf nbOctets =>
      obtain ⟨result, fs', hok, rfl⟩ := hstep
      obtain rfl | ⟨k, e, count, disk, rfl, hk, hentry, -, -, rfl⟩ := FileSystem.write_eq_ok hok
      · exact Or.inl ⟨rfl, rfl⟩
      · exact hst.effect_setFile rfl hk hentry rfl
  | elsewhere =>
      obtain ⟨htable, hheld⟩ := hstep
      exact Or.inl ⟨by rw [htable], hheld⟩

/-- One step keeps the invariant. -/
theorem step (hst : st.Inv) {call : TableCall} (hstep : st.Step call st') : st'.Inv := by
  obtain ⟨htable, hheld⟩ | ⟨k, entry, -, htable, hheld, hsector⟩ := hst.effect hstep
  · refine ⟨fun j hj => ?_, fun j hj e he => ?_⟩
    · rw [hheld, htable]
      exact hst.held j hj
    · rw [htable] at he
      exact hst.sector j hj e he
  · refine ⟨fun j hj => ?_, fun j hj e he => ?_⟩
    · rw [hheld, htable, OpenFileTable.set]
      by_cases hjk : j = k
      · simp [hjk]
      · rw [if_neg (by exact_mod_cast hjk), if_neg hjk]
        exact hst.held j hj
    · rw [htable, OpenFileTable.set] at he
      split at he
      · exact hsector e he
      · exact hst.sector j hj e he

/-- The other ids. -/
theorem keepsOthers (hst : st.Inv) {call : TableCall} (hstep : st.Step call st') :
    KeepsOthers ⟨st, call, st'⟩ := by
  intro j hj hother
  obtain ⟨htable, hheld⟩ | ⟨k, entry, hcall, htable, hheld, -⟩ := hst.effect hstep
  · refine ⟨hheld ▸ hj, ?_⟩
    simp only [OpenFileTable.get, htable]
  · have hne : j ≠ k := by
      rintro rfl
      exact hother hcall
    refine ⟨(hheld j).mpr (by rwa [if_neg hne]), ?_⟩
    simp only [OpenFileTable.get, htable, OpenFileTable.set]
    split
    · rfl
    · rw [if_neg (by omega)]

/-- **When `Open` gives a fresh id.** -/
theorem fresh_iff (hst : st.Inv) {heap : Heap} {name : Name} {mode : UInt8} {i : ℤ}
    (hstep : st.Step (.openFile heap name mode i) st') {directory : Directory}
    (hfetch : st.fs.fetchCurrentDirectory (heap 0) = .ok directory) :
    (0 ≤ i → st.Fresh heap name mode i st') ↔
      st.fs.fileTable.find (directory.find name) = none := by
  obtain ⟨fs', hok, rfl⟩ := hstep
  obtain ⟨⟨i', t'⟩, hopen, hequal⟩ := Except.bind_eq_ok.mp hok
  cases hequal
  obtain ⟨directory', hfetch', hcases⟩ := OpenFileTable.openFile_eq_ok hopen
  rw [FileSystem.fetchCurrentDirectory, hfetch'] at hfetch
  cases hfetch
  obtain ⟨hnegative, rfl, rfl⟩ | ⟨file, hnew, ⟨k, hfind, rfl, rfl⟩ | ⟨hfind, hadd⟩⟩ := hcases
  · -- A name that is not there has a sector that no entry has.
    refine iff_of_true (fun hi => by omega) ?_
    rw [OpenFileTable.find_eq_none]
    intro k hk e he
    have hsector := hst.sector k hk e he
    omega
  · -- The entry that was there is one that somebody holds.
    obtain ⟨hk, e, he, -⟩ := OpenFileTable.find_eq_some hfind
    have hheld : (k : ℤ) ∈ st.held := by rw [hst.held k hk, he]; rfl
    refine iff_of_false (fun hfresh => ?_) (by rw [hfind]; exact Option.some_ne_none k)
    exact (hfresh (by omega)).unheld hheld
  · refine iff_of_true (fun hi => ?_) hfind
    obtain ⟨rfl, -⟩ | ⟨k, rfl, hk, hnone, hset⟩ := OpenFileTable.add_eq_ok hadd
    · omega
    obtain ⟨-, hopened, hseek⟩ := OpenFile.new_eq_ok hnew
    refine ⟨⟨directory, ⟨file, mode, directory.find name⟩, hfetch', ?_, rfl, hopened, rfl, hseek⟩,
      fun hheld => ?_⟩
    · rw [FileSystem.get_of_lt hk]
      simp [hset, OpenFileTable.set]
    · rw [hst.held k hk, hnone] at hheld
      cases hheld

end Inv

/-- **Opening a file gives a fresh handle exactly when the file is not open yet**, in
every run from an empty table; and no call affects an id but the one it is about. -/
theorem givesFresh_iff_notYetOpen {fs : FileSystem}
    (hnull : ∀ k < NbFileTableEntries, fs.fileTable.table k = none) {st : IdRun}
    {steps : List (Base.Step IdRun TableCall)} (hrun : Trace Step (start fs) steps st) :
    ∀ x ∈ steps, (GivesFresh x ↔ NotYetOpen x) ∧ KeepsOthers x := by
  obtain ⟨-, hall⟩ := Trace.invariant_of_forall (I := Inv)
    (fun x hbefore hstep => hbefore.step hstep) hrun (Inv.start hnull)
  intro x hx
  obtain ⟨hst, -⟩ := hall x hx
  have hstep := hrun.rel_of_mem x hx
  refine ⟨⟨fun hgives heap name mode i hlabel directory hfetch => ?_,
    fun hnot heap name mode i hlabel => ?_⟩, hst.keepsOthers hstep⟩
  · rw [hlabel] at hstep
    exact OpenFileTable.find_eq_none.mp
      ((hst.fresh_iff hstep hfetch).mp (hgives heap name mode i hlabel))
  · rw [hlabel] at hstep
    obtain ⟨fs', hok, -⟩ := id hstep
    obtain ⟨_, hopen, -⟩ := Except.bind_eq_ok.mp hok
    obtain ⟨directory, hfetch, -⟩ := OpenFileTable.openFile_eq_ok hopen
    exact (hst.fresh_iff hstep hfetch).mpr
      (OpenFileTable.find_eq_none.mpr (hnot heap name mode i hlabel directory hfetch))

/-- `FileSystem::Open` of a single name opens it in the current directory. -/
theorem openInCurrentDirectory_of_component {fs fs' : FileSystem} {heap : Heap} {name : Name}
    {mode : UInt8} {i : ℤ} (hname : FileSystem.IsComponent name)
    (h : fs.openFile heap name mode = .ok (i, fs')) :
    fs.openInCurrentDirectory heap name mode = .ok (i, fs') := by
  rw [FileSystem.openFile, FileSystem.atPath_of_component hname] at h
  obtain ⟨⟨i', fs₁⟩, hopen, hequal⟩ := Except.bind_eq_ok.mp h
  cases hequal
  obtain ⟨⟨i', t'⟩, -, hequal⟩ := Except.bind_eq_ok.mp hopen
  cases hequal
  exact hopen

/-- A run that creates `a` and opens it for writing, and what the table then holds. -/
theorem exists_ids_run : ∃ fs disk' fs₁ j,
    FileSystem.format (fun _ _ => 0) (fun _ _ => 0) (fun _ => none) = .ok fs ∧
      (∀ k, fs.fileTable.table k = none) ∧
      fs.createFile (fun _ _ => 0) [97] 2 = .ok (true, { fs with disk := disk' }) ∧
      Step ⟨{ fs with disk := disk' }, ∅⟩ (.openFile (fun _ _ => 0) [97] modeWrite 0) ⟨fs₁, {0}⟩ ∧
      fs₁.Valid (Layout.initial.insert 5 false) 1 ∧
      (fs₁.disk.dirTable 1).findIndex [97] = some j ∧ (fs₁.disk.dirTable 1).sector j = (5 : ℕ) ∧
      fs₁.fileTable.find (5 : ℕ) = some 0 ∧
      ∃ e, fs₁.fileTable.get 0 = some e ∧ e.mode = modeWrite := by
  obtain ⟨fs, disk', j, hformat, hcreate, hvalid, hindex, hsector, -, -, htable, hfiles⟩ :=
    FileSystem.exists_file_of_two
  obtain ⟨fs₁, hopen, ⟨hlt, ⟨e, hentry, hmode, -⟩, -⟩, hequal, -, -, hfind⟩ :=
    hvalid.openFile_of_null (fun _ _ => 0) modeWrite (hvalid.locate_of_component (by decide))
      hindex hsector (Layout.mem_files_insert.mpr (Or.inr ⟨rfl, rfl⟩)) htable hfiles
  refine ⟨fs, disk', fs₁, j, hformat, htable, hcreate, ⟨fs₁, openInCurrentDirectory_of_component
    (by decide) hopen, rfl⟩, ?_, ?_, ?_, hfind, e, (FileSystem.get_of_lt hlt).trans hentry, hmode⟩
  · rw [hequal]
    exact ⟨hvalid.consistent, hvalid.mapFile, hvalid.current_mem, hvalid.current⟩
  · rw [hequal]
    exact hindex
  · rw [hequal]
    exact hsector

/-- The first `Open` of a file. -/
theorem givesFresh_first_open : ∃ fs steps st,
    FileSystem.format (fun _ _ => 0) (fun _ _ => 0) (fun _ => none) = .ok fs ∧
      Trace Step (start fs) steps st ∧
      steps.map Base.Step.label = [.elsewhere, .openFile (fun _ _ => 0) [97] modeWrite 0] ∧
      ∀ x ∈ steps, GivesFresh x := by
  obtain ⟨fs, disk', fs₁, j, hformat, htable, hcreate, hopen, -⟩ := exists_ids_run
  have hrun := ((Trace.nil (start fs)).snoc
    (step_update (.createFile [97] 2) hcreate)).snoc hopen
  refine ⟨fs, _, _, hformat, hrun, rfl, fun x hx => ?_⟩
  refine (givesFresh_iff_notYetOpen (fun k _ => htable k) hrun x hx).1.mpr ?_
  intro heap name mode i hlabel directory hfetch k hk e he
  simp only [List.nil_append, List.cons_append, List.mem_cons, List.not_mem_nil, or_false] at hx
  rcases hx with rfl | rfl
  · cases hlabel
  · have hnone : fs.fileTable.table k = some e := he
    rw [htable k] at hnone
    cases hnone

/-- The file `a` is opened for writing and then for reading: the second `Open` returns
the id of the first one, whose entry cannot be read through. -/
theorem not_givesFresh_second_open : ∃ fs steps st,
    FileSystem.format (fun _ _ => 0) (fun _ _ => 0) (fun _ => none) = .ok fs ∧
      Trace Step (start fs) steps st ∧
      steps.map Base.Step.label = [.elsewhere, .openFile (fun _ _ => 0) [97] modeWrite 0,
        .openFile (fun _ _ => 0) [97] modeRead 0] ∧
      (∃ e, st.fs.fileTable.get 0 = some e ∧ e.mode = modeWrite) ∧ ¬ ∀ x ∈ steps, GivesFresh x := by
  obtain ⟨fs, disk', fs₁, j, hformat, htable, hcreate, hopen, hvalid, hindex, hsector, hfind,
    hentry⟩ := exists_ids_run
  obtain ⟨f, -, -, hresult⟩ := hvalid.openFile (fun _ _ => 0) modeRead
    (hvalid.locate_of_component (by decide)) hindex hsector (by norm_num)
  rw [hfind] at hresult
  have hagain : Step ⟨fs₁, {0}⟩ (.openFile (fun _ _ => 0) [97] modeRead 0) ⟨fs₁, {0}⟩ :=
    ⟨fs₁, openInCurrentDirectory_of_component (by decide) hresult, rfl⟩
  have hrun := (((Trace.nil (start fs)).snoc
    (step_update (.createFile [97] 2) hcreate)).snoc hopen).snoc hagain
  refine ⟨fs, _, _, hformat, hrun, rfl, hentry, fun hall => ?_⟩
  have hlast := hall _ (List.mem_append_right _ (List.mem_singleton_self _))
  exact (hlast _ _ _ 0 rfl le_rfl).unheld (by simp)

end IdRun

end Nachos
