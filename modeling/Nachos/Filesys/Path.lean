/-
# Paths

An operation on a path goes to the directory part, works there, and goes back.
Going somewhere only changes the current directory of the thread, and as long as
each component names a directory of a consistent disk it arrives at the directory
that `resolve` finds in the directory entries.
-/

import Mathlib.Data.List.GetD
import Mathlib.Data.List.TakeWhile
import Nachos.Filesys.Operations

namespace Nachos

open Base

namespace FileSystem

/-- `SetCurrentDir` only changes the current directory. -/
theorem setCurrentDir_eq_ok {fs fs' : FileSystem} {heap : Heap} {dirName : Name}
    (h : fs.setCurrentDir heap dirName = .ok fs') :
    ∃ f, fs' = { fs with currentDirectory := f } := by
  simp only [setCurrentDir, Except.bind_eq_ok] at h
  obtain ⟨_, _, f, _, hfs⟩ := h
  cases hfs
  exact ⟨f, rfl⟩

theorem endComponent_eq_ok {fs : FileSystem} {heap : Heap} {below : UInt8} {dirName : Name}
    {result : FileSystem × Name} (h : fs.endComponent heap below dirName = .ok result) :
    ∃ f, result.1 = { fs with currentDirectory := f } := by
  unfold endComponent at h
  split at h
  · simp only [Except.bind_eq_ok] at h
    obtain ⟨_, _, fs', hset, hresult⟩ := h
    cases hresult
    exact setCurrentDir_eq_ok hset
  · cases h
    exact ⟨fs.currentDirectory, rfl⟩

theorem walkPath_eq_ok {heap : Heap} {fs fs' : FileSystem} {dirName : Name} {i : ℕ}
    {path : List UInt8} (h : walkPath heap fs dirName i path = .ok fs') :
    ∃ f, fs' = { fs with currentDirectory := f } := by
  induction path generalizing fs dirName i with
  | nil =>
      simp only [walkPath, Except.bind_eq_ok] at h
      obtain ⟨result, hend, hfs⟩ := h
      cases hfs
      exact endComponent_eq_ok hend
  | cons a rest ih =>
      unfold walkPath at h
      split at h
      · simp only [Except.bind_eq_ok] at h
        obtain ⟨result, hend, hrest⟩ := h
        obtain ⟨f, hf⟩ := endComponent_eq_ok hend
        obtain ⟨g, hg⟩ := ih hrest
        exact ⟨g, by rw [hg, hf]⟩
      · simp only [Except.bind_eq_ok] at h
        obtain ⟨_, _, hrest⟩ := h
        exact ih hrest

/-- `ChangeCurrentDir` only changes the current directory. -/
theorem changeCurrentDir_eq_ok {fs fs' : FileSystem} {heap : Heap} {path : List UInt8}
    (h : fs.changeCurrentDir heap path = .ok fs') :
    ∃ f, fs' = { fs with currentDirectory := f } :=
  walkPath_eq_ok h

/-- What an operation on a path consists of, if it returns. -/
theorem atPath_eq_ok {α : Type} {fs fs' : FileSystem} {heap : Heap} {path : List UInt8}
    {run : FileSystem → Name → Except Fault (α × FileSystem)} {result : α}
    (h : fs.atPath heap path run = .ok (result, fs')) :
    ∃ name f fs₁, run { fs with currentDirectory := f } name = .ok (result, fs₁) ∧
      fs' = { fs₁ with currentDirectory := fs.currentDirectory } := by
  rw [atPath, Except.bind_eq_ok] at h
  obtain ⟨⟨name, tmpPath⟩, -, h⟩ := h
  dsimp only at h
  split at h
  · simp only [Except.bind_eq_ok] at h
    obtain ⟨fs₀, hgo, ⟨result', fs₁⟩, hrun, hfs⟩ := h
    cases hfs
    obtain ⟨f, rfl⟩ := changeCurrentDir_eq_ok hgo
    exact ⟨name, f, fs₁, hrun, rfl⟩
  · simp only [Except.ok_bind, Except.bind_eq_ok] at h
    obtain ⟨⟨result', fs₁⟩, hrun, hfs⟩ := h
    cases hfs
    exact ⟨name, fs.currentDirectory, fs₁, hrun, rfl⟩

/-! ## One component -/

/-- A name the operations take as one path component: it fits the buffer and has
neither a slash nor a zero in it. -/
structure IsComponent (name : Name) : Prop where
  nonempty : name ≠ []
  length : name.length < FileNameMaxLen
  noZero : (0 : UInt8) ∉ name
  noSlash : slash ∉ name

instance (name : Name) : Decidable (IsComponent name) :=
  decidable_of_iff
    (name ≠ [] ∧ name.length < FileNameMaxLen ∧ (0 : UInt8) ∉ name ∧ slash ∉ name)
    ⟨fun ⟨h₁, h₂, h₃, h₄⟩ => ⟨h₁, h₂, h₃, h₄⟩, fun ⟨h₁, h₂, h₃, h₄⟩ => ⟨h₁, h₂, h₃, h₄⟩⟩

/-- The name split off a path is a string that fits its buffer. -/
theorem splitPathAndName_name {path rest : List UInt8} {name : Name}
    (h : splitPathAndName path = .ok (name, rest)) :
    (0 : UInt8) ∉ name ∧ name.length < FileNameMaxLen := by
  have hzero : ∀ a ∈ path.takeWhile (· != 0), a ≠ 0 := fun a ha => by
    simpa using List.mem_takeWhile_imp ha
  have hstripped {l : List UInt8}
      (hl : l = if lastSlash (path.takeWhile (· != 0)) =
          some ((path.takeWhile (· != 0)).length - 1)
        then (path.takeWhile (· != 0)).take ((path.takeWhile (· != 0)).length - 1)
        else path.takeWhile (· != 0)) : ∀ a ∈ l, a ≠ 0 := by
    intro a ha
    rw [hl] at ha
    split at ha
    · exact hzero a (List.mem_of_mem_take ha)
    · exact hzero a ha
  simp only [splitPathAndName, Except.bind_eq_ok, inBounds_eq_ok, assert_eq_ok] at h
  obtain ⟨-, -, -, -, -, hlength, h⟩ := h
  cases h
  refine ⟨fun hmem => ?_, hlength⟩
  split at hmem
  · exact hstripped rfl 0 hmem rfl
  · exact hstripped rfl 0 (List.mem_of_mem_drop hmem) rfl

theorem lastSlash_eq_none {path : List UInt8} (h : slash ∉ path) : lastSlash path = none := by
  rw [lastSlash, List.find?_eq_none]
  intro i hi hslash
  have hlt : i < path.length := by simpa using hi
  rw [beq_iff_eq, List.getD_eq_getElem _ _ hlt] at hslash
  exact h (hslash ▸ List.getElem_mem hlt)

theorem splitPathAndName_of_component {name : Name} (h : IsComponent name) :
    splitPathAndName name = .ok (name, []) := by
  have hkeep : name.takeWhile (· != 0) = name := by
    rw [List.takeWhile_eq_self_iff]
    intro a ha
    have hne : a ≠ 0 := by
      rintro rfl
      exact h.noZero ha
    simpa using hne
  have hhead : name.head? ≠ some slash := fun hhead =>
    h.noSlash (List.mem_of_mem_head? hhead)
  have hlength := h.length
  simp only [FileNameMaxLen] at hlength
  simp only [splitPathAndName, hkeep, lastSlash_eq_none h.noSlash, assert_of hhead,
    inBounds_of (show name.length < PathLenMax by simp only [PathLenMax]; omega), Except.ok_bind,
    reduceCtorEq, if_false, inBounds_of h.length]
  rfl

/-- An operation on one component works in the current directory. -/
theorem atPath_of_component {α : Type} {fs : FileSystem} {heap : Heap} {name : Name}
    {run : FileSystem → Name → Except Fault (α × FileSystem)} (h : IsComponent name) :
    fs.atPath heap name run = (do
      let (result, fs₁) ← run fs name
      return (result, { fs₁ with currentDirectory := fs.currentDirectory })) := by
  rw [atPath, splitPathAndName_of_component h, Except.ok_bind]
  rfl

end FileSystem

/-! ## Paths through directories -/

/-- An entry in use with its directory flag set refers to a directory. -/
theorem Consistent.dir_of_entry {d : Disk} {L : Layout} {p j : ℕ} (h : Consistent d L)
    (hp : p ∈ L.dirs) (hj : j < 10) (hinUse : (d.dirTable p).inUse j = true)
    (hflag : (d.dirTable p).isDirectory j = true) :
    ∃ t : ℕ, (d.dirTable p).sector j = t ∧ t ∈ L.dirs := by
  rcases (by omega : j = 0 ∨ j = 1 ∨ 2 ≤ j) with rfl | rfl | hlow
  · exact ⟨p, (h.dot p hp).2.2, hp⟩
  · by_cases hroot : p = 1
    · subst hroot
      exact ⟨1, h.rootParent, h.root_mem⟩
    · obtain ⟨q, hq, hparent, -⟩ := h.dirParent p hp hroot
      exact ⟨q, hparent, hq⟩
  · obtain ⟨t, ht, -, hkind⟩ := h.child p hp j ⟨hlow, hj, hinUse⟩
    rw [hflag, if_pos rfl] at hkind
    exact ⟨t, ht, hkind⟩

/-- The directory reached from `p` along the components, each of which has to name
a directory. -/
def Disk.resolve (d : Disk) : ℕ → List Name → Option ℕ
  | p, [] => some p
  | p, name :: rest =>
      match (d.dirTable p).findIndex name with
      | some j =>
          if (d.dirTable p).isDirectory j then resolve d ((d.dirTable p).sector j).toNat rest
          else none
      | none => none

/-- Where a path leads depends on the entries of the directories only. -/
theorem Consistent.resolve_congr {d d' : Disk} {L : Layout} (h : Consistent d L)
    (hsame : ∀ p ∈ L.dirs, (d'.dirTable p).SameTable (d.dirTable p)) {p : ℕ} (hp : p ∈ L.dirs)
    (path : List Name) : d'.resolve p path = d.resolve p path := by
  induction path generalizing p with
  | nil => rfl
  | cons name rest ih =>
      rw [Disk.resolve, Disk.resolve, (hsame p hp).findIndex]
      cases hindex : (d.dirTable p).findIndex name with
      | none => rfl
      | some j =>
          obtain ⟨hj, hmatch, -⟩ := Directory.findIndex_eq_some hindex
          have same := (hsame p hp).sameEntry j hj
          simp only [same.isDirectory, same.sector]
          split <;> rename_i hflag
          · rw [Directory.matchesName, Bool.and_eq_true] at hmatch
            obtain ⟨t, ht, hdir⟩ := h.dir_of_entry hp hj hmatch.1 hflag
            rw [ht, Int.toNat_natCast]
            exact ih hdir
          · rfl

/-- The components of a path, the first of which continues `start`. -/
def components (start : Name) : List UInt8 → List Name
  | [] => [start]
  | a :: rest =>
      if a = slash then start :: components [] rest else components (start ++ [a]) rest

/-- No component is empty, too long for its buffer, or holds a zero. -/
def WellFormedPath (path : List Name) : Prop :=
  ∀ name ∈ path, name ≠ [] ∧ name.length < FileNameMaxLen ∧ (0 : UInt8) ∉ name

instance (path : List Name) : Decidable (WellFormedPath path) := by
  unfold WellFormedPath
  infer_instance

/-- The first component is at least as long as its start. -/
theorem length_le_of_components (start : Name) (path : List UInt8) :
    ∃ name ∈ components start path, start.length ≤ name.length := by
  induction path generalizing start with
  | nil => exact ⟨start, List.mem_singleton_self _, le_rfl⟩
  | cons a rest ih =>
      rw [components]
      split
      · exact ⟨start, List.mem_cons_self, le_rfl⟩
      · obtain ⟨name, hname, hlength⟩ := ih (start ++ [a])
        rw [List.length_append, List.length_singleton] at hlength
        exact ⟨name, hname, by omega⟩

namespace FileSystem.Valid

variable {fs : FileSystem} {L : Layout} {c p : ℕ} {name : Name}

/-- The same file system with the thread in another directory. -/
theorem of_opened (hfs : fs.Valid L c) {f : OpenFile} (hp : p ∈ L.dirs)
    (hopen : f.OpenedOn fs.disk p) :
    ({ fs with currentDirectory := f } : FileSystem).Valid L p :=
  ⟨hfs.consistent, hfs.mapFile, hp, hopen⟩

/-- `SetCurrentDir` on the name of a directory. -/
theorem setCurrentDir (hfs : fs.Valid L c) (heap : Heap) {j : ℕ}
    (hindex : (fs.disk.dirTable c).findIndex name = some j)
    (hflag : (fs.disk.dirTable c).isDirectory j = true) :
    ∃ f, fs.setCurrentDir heap name = .ok { fs with currentDirectory := f } ∧
      ({ fs with currentDirectory := f } : FileSystem).Valid L
        ((fs.disk.dirTable c).sector j).toNat := by
  have h := hfs.consistent
  obtain ⟨hj, hmatch, -⟩ := Directory.findIndex_eq_some hindex
  rw [Directory.matchesName, Bool.and_eq_true] at hmatch
  obtain ⟨t, ht, hdir⟩ := h.dir_of_entry hfs.current_mem hj hmatch.1 hflag
  obtain ⟨dir, hfetch, same⟩ := hfs.fetchCurrentDirectory (heap 0)
  have hfind : dir.find name = t := by
    rw [same.find, Directory.find, hindex]
    exact ht
  obtain ⟨f, hf, hopen, -⟩ := OpenFile.new_of_lt (heap 1) fs.disk
    (h.inRange t (Consistent.mem_objects_of_dir hdir)).1
  refine ⟨f, ?_, ?_⟩
  · rw [FileSystem.setCurrentDir, hfetch, Except.ok_bind, hfind, hf]
    rfl
  · rw [ht, Int.toNat_natCast]
    exact hfs.of_opened hdir hopen

/-- The end of a component that is well formed and names a directory. -/
theorem endComponent (hfs : fs.Valid L c) (heap : Heap) (below : UInt8) {rest : List Name}
    (hname : name ≠ [] ∧ name.length < FileNameMaxLen ∧ (0 : UInt8) ∉ name)
    (hresolve : fs.disk.resolve c (name :: rest) = some p) :
    ∃ f q, fs.endComponent heap below name = .ok ({ fs with currentDirectory := f }, []) ∧
      ({ fs with currentDirectory := f } : FileSystem).Valid L q ∧
      fs.disk.resolve q rest = some p := by
  rw [Disk.resolve] at hresolve
  split at hresolve <;> rename_i hindex
  · split at hresolve <;> rename_i hflag
    · obtain ⟨f, hset, hvalid⟩ := hfs.setCurrentDir heap hindex hflag
      have hlast : name.getLastD below ≠ 0 := by
        rw [List.getLastD_eq_getLast?, List.getLast?_eq_getLast_of_ne_nil hname.1]
        exact fun hzero => hname.2.2 (hzero ▸ List.getLast_mem hname.1)
      refine ⟨f, _, ?_, hvalid, hresolve⟩
      rw [FileSystem.endComponent, if_pos hlast, inBounds_of hname.2.1, Except.ok_bind, hset]
      rfl
    · cases hresolve
  · cases hresolve

/-- The walk along a path arrives where `resolve` does. -/
theorem walkPath (hfs : fs.Valid L c) (heap : Heap) (dirName : Name) (i : ℕ) (path : List UInt8)
    (hpath : WellFormedPath (components dirName path))
    (hresolve : fs.disk.resolve c (components dirName path) = some p) :
    ∃ f, FileSystem.walkPath heap fs dirName i path = .ok { fs with currentDirectory := f } ∧
      ({ fs with currentDirectory := f } : FileSystem).Valid L p := by
  induction path generalizing fs c dirName i with
  | nil =>
      rw [components] at hpath hresolve
      obtain ⟨f, q, hend, hvalid, hrest⟩ := hfs.endComponent
        (fun n => heap (9 + 2 * i + n)) (heap 8 i) (hpath dirName List.mem_cons_self) hresolve
      cases hrest
      refine ⟨f, ?_, hvalid⟩
      rw [FileSystem.walkPath, hend]
      rfl
  | cons a rest ih =>
      rw [components] at hpath hresolve
      rw [FileSystem.walkPath]
      split at hpath <;> rename_i hslash
      · rw [if_pos hslash] at hresolve ⊢
        obtain ⟨f, q, hend, hvalid, hrest⟩ := hfs.endComponent
          (fun n => heap (9 + 2 * i + n)) (heap 8 i) (hpath dirName List.mem_cons_self) hresolve
        rw [hend, Except.ok_bind]
        exact ih hvalid [] (i + 1) (fun name hname => hpath name (List.mem_cons_of_mem _ hname))
          hrest
      · rw [if_neg hslash] at hresolve ⊢
        obtain ⟨name, hname, hlength⟩ := length_le_of_components (dirName ++ [a]) rest
        have hshort := (hpath name hname).2.1
        rw [List.length_append, List.length_singleton] at hlength
        rw [inBounds_of (by omega), Except.ok_bind]
        exact ih hfs (dirName ++ [a]) (i + 1) hpath hresolve

end FileSystem.Valid

namespace FileSystem

/-- The entries of the current directory. -/
def currentTable (fs : FileSystem) : Directory :=
  ⟨10, OpenFile.fileBytes fs.disk fs.currentDirectory.hdr⟩

/-- The header sector of the current directory, as its entry `"."` has it. -/
def here (fs : FileSystem) : ℕ := (fs.currentTable.find Directory.dot).toNat

/-- Where `ChangeCurrentDir` leads, if every component names a directory. -/
def goesTo (fs : FileSystem) (path : List UInt8) : Option ℕ :=
  if WellFormedPath (components [] (path.takeWhile (· != 0))) then
    fs.disk.resolve fs.here (components [] (path.takeWhile (· != 0)))
  else none

/-- The directory and the name a path stands for. -/
def locate (fs : FileSystem) (path : List UInt8) : Option (ℕ × Name) :=
  match splitPathAndName path with
  | .ok (name, tmpPath) =>
      if tmpPath = [] then some (fs.here, name)
      else (fs.goesTo tmpPath).map fun p => (p, name)
  | .error _ => none

namespace Valid

variable {fs : FileSystem} {L : Layout} {c p : ℕ} {name : Name} {path : List UInt8}

theorem currentTable (hfs : fs.Valid L c) : fs.currentTable.SameTable (fs.disk.dirTable c) := by
  refine ⟨rfl, fun i hi k hk => ?_⟩
  have hi' : i < 10 := hi
  exact hfs.current.fileBytes (show 20 * i + k < 3840 by omega)

theorem here_eq (hfs : fs.Valid L c) : fs.here = c := by
  obtain ⟨hdot, -, hsector⟩ := hfs.consistent.dot c hfs.current_mem
  have hindex : (fs.disk.dirTable c).findIndex Directory.dot = some 0 := by
    rw [Directory.findIndex, List.find?_range_eq_some]
    exact ⟨hdot, List.mem_range.mpr (show 0 < 10 by omega), by omega⟩
  rw [here, hfs.currentTable.find, Directory.find, hindex]
  simp only [hsector, Int.toNat_natCast]

/-- `ChangeCurrentDir` along directories. -/
theorem changeCurrentDir (hfs : fs.Valid L c) (heap : Heap) (hgoes : fs.goesTo path = some p) :
    ∃ f, fs.changeCurrentDir heap path = .ok { fs with currentDirectory := f } ∧
      ({ fs with currentDirectory := f } : FileSystem).Valid L p := by
  unfold goesTo at hgoes
  split at hgoes <;> rename_i hpath
  · rw [hfs.here_eq] at hgoes
    exact hfs.walkPath heap [] 0 _ hpath hgoes
  · cases hgoes

/-- **An operation on a path** works in the directory the path leads to, and the
thread is then where it was. -/
theorem atPath (hfs : fs.Valid L c) (heap : Heap) (hlocate : fs.locate path = some (p, name)) :
    ∃ f, ({ fs with currentDirectory := f } : FileSystem).Valid L p ∧
      ∀ {α : Type} (run : FileSystem → Name → Except Fault (α × FileSystem)),
        fs.atPath heap path run = (do
          let (result, fs₁) ← run { fs with currentDirectory := f } name
          return (result, { fs₁ with currentDirectory := fs.currentDirectory })) := by
  unfold locate at hlocate
  split at hlocate
  · rename_i last tmpPath hsplit
    split at hlocate <;> rename_i hempty
    · cases hlocate
      refine ⟨fs.currentDirectory, by rw [hfs.here_eq]; exact hfs, fun run => ?_⟩
      rw [FileSystem.atPath, hsplit, Except.ok_bind, hempty]
      rfl
    · rw [Option.map_eq_some_iff] at hlocate
      obtain ⟨q, hgoes, hequal⟩ := hlocate
      cases hequal
      obtain ⟨f, hchange, hvalid⟩ := hfs.changeCurrentDir heap hgoes
      refine ⟨f, hvalid, fun run => ?_⟩
      rw [FileSystem.atPath, hsplit, Except.ok_bind]
      simp only [ne_eq, hempty, not_false_eq_true, if_true, hchange, Except.ok_bind]
  · cases hlocate

/-- A path stands for the same place on disks with the same directories. -/
theorem locate_congr {fs' : FileSystem} (hfs : fs.Valid L c) (hfs' : fs'.Valid L c)
    (hsame : ∀ p ∈ L.dirs, (fs'.disk.dirTable p).SameTable (fs.disk.dirTable p)) :
    fs'.locate path = fs.locate path := by
  have hgoes (path : List UInt8) : fs'.goesTo path = fs.goesTo path := by
    rw [goesTo, goesTo, hfs.here_eq, hfs'.here_eq,
      hfs.consistent.resolve_congr hsame hfs.current_mem]
  unfold locate
  simp only [hgoes, hfs.here_eq, hfs'.here_eq]

/-- A single component stands for itself in the current directory. -/
theorem locate_of_component (hfs : fs.Valid L c) (hname : IsComponent name) :
    fs.locate name = some (c, name) := by
  rw [locate, splitPathAndName_of_component hname]
  exact congrArg (fun p => some (p, name)) hfs.here_eq

/-- The name a path ends with is a string that fits its buffer. -/
theorem locate_name (hlocate : fs.locate path = some (p, name)) :
    (0 : UInt8) ∉ name ∧ name.length < FileNameMaxLen := by
  unfold locate at hlocate
  split at hlocate
  · rename_i last tmpPath hsplit
    have hname := splitPathAndName_name hsplit
    split at hlocate
    · cases hlocate
      exact hname
    · obtain ⟨q, -, hequal⟩ := Option.map_eq_some_iff.mp hlocate
      cases hequal
      exact hname
  · cases hlocate

/-- A path that leads somewhere leads to a directory. -/
theorem locate_mem (hfs : fs.Valid L c) (hlocate : fs.locate path = some (p, name)) :
    p ∈ L.dirs := by
  obtain ⟨f, hvalid, -⟩ := hfs.atPath (fun _ _ => 0) hlocate
  exact hvalid.current_mem

end Valid

end FileSystem

end Nachos
