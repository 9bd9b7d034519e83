/-
# What the tree promises

`Refinement` says what a call does that returns. Here is when a call returns: the tree has a
precondition for each call, in terms of names, bytes and ids only, and under it no assertion of the
source fails, no buffer is overrun and no request is too large for `new`, whatever the memory that the
call finds.

`CreateDir` and `RemoveDir` are promised nothing. What they do depends on what a sector of the disk or
the memory behind a header happens to hold.
-/

import Nachos.Filesys.Refinement

namespace Nachos

open Base

namespace FileTree

/-- A name under which the tree may have a file. -/
structure FilePlace (s : FileTree) (P : List Name) (name : Name) : Prop where
  ne_dot : name ≠ Directory.dot
  ne_dotDot : name ≠ Directory.dotDot
  not_dir : s.node (P ++ [name]) ≠ some .dir

/-- A transfer of `n` bytes through the id `i`, if it is open for it, does not leave the range of
`int`. -/
def FitsInt (s : FileTree) (i : ℤ) (mode : UInt8) (n : ℕ) : Prop :=
  n < 2 ^ 31 ∧ ∀ o, s.get i = some o → o.mode = mode → o.pos < (s.contents o.path).length →
    o.pos + n < 2 ^ 31

/-- What the tree asks of a call. -/
def Allows (s : FileTree) : FileSystemCall → Prop
  | .createFile path initialSize =>
      (s.locate path).isSome ∧ -2 ^ 31 ≤ initialSize ∧ initialSize ≤ MaxFileSize
  | .createDir _ => False
  | .removeFile path => ∃ D name, s.locate path = some (D, name) ∧ s.FilePlace D name ∧
      ∀ k < NbFileTableEntries, ∀ o, s.opened k = some o → o.path ≠ D ++ [name]
  | .removeDir _ => False
  | .changeCurrentDir path => (s.goesTo path).isSome
  | .openFile path _ => ∃ D name, s.locate path = some (D, name) ∧ s.FilePlace D name
  | .close i => 0 ≤ i ∧ i < NbFileTableEntries
  | .read i nbOctets => s.FitsInt i modeRead nbOctets
  | .write i bytes => s.FitsInt i modeWrite bytes.length

end FileTree

namespace FileSystem.Represents

variable {fs : FileSystem} {s : FileTree} {L : Layout} {c : ℕ} {path : List UInt8}

/-! ## From the tree to the disk -/

theorem node_here (h : fs.Represents s L c) : s.node s.here = some .dir := by
  rw [h.node]
  exact Links.tree_eq_dir.mpr ⟨c, h.here⟩

/-- What leads somewhere in the tree leads there on the disk. -/
theorem exists_goesTo (h : fs.Represents s L c) {D : List Name} (hgoes : s.goesTo path = some D) :
    ∃ p, fs.goesTo path = some p ∧ fs.disk.links.lookup 1 D = some (true, p) := by
  obtain ⟨hwell, hwalk⟩ := Option.ite_none_right_eq_some.mp hgoes
  have hdir := h.wellFormed.walk_eq_some h.node_here hwalk
  rw [h.node] at hdir hwalk
  obtain ⟨p, hp⟩ := Links.tree_eq_dir.mp hdir
  have hconsistent := h.valid.consistent
  have hlookup := (hconsistent.completes.lookup_eq_some fs.disk.contents hconsistent.isTree
    (fun name hname => ⟨(hwell name hname).2.2, (hwell name hname).2.1⟩) h.here).mpr ⟨D, hwalk, hp⟩
  refine ⟨p, ?_, hp⟩
  rw [FileSystem.goesTo, if_pos hwell, h.valid.here_eq]
  exact Disk.resolve_eq_some.mpr hlookup

theorem exists_locate (h : fs.Represents s L c) {D : List Name} {name : Name}
    (hlocate : s.locate path = some (D, name)) :
    ∃ p, fs.locate path = some (p, name) ∧ fs.disk.links.lookup 1 D = some (true, p) := by
  unfold FileTree.locate at hlocate
  split at hlocate
  · rename_i last tmpPath hsplit
    have hspec : fs.locate path = if tmpPath = [] then some (fs.here, last)
        else (fs.goesTo tmpPath).map fun p => (p, last) := by
      simp only [FileSystem.locate, hsplit]
    rw [hspec]
    split at hlocate <;> rename_i hempty
    · obtain ⟨rfl, rfl⟩ := Prod.mk.inj (Option.some.inj hlocate)
      refine ⟨c, ?_, h.here⟩
      rw [if_pos hempty, h.valid.here_eq]
    · obtain ⟨E, hgoes, hequal⟩ := Option.map_eq_some_iff.mp hlocate
      obtain ⟨rfl, rfl⟩ := Prod.mk.inj hequal
      obtain ⟨p, hp, hlookup⟩ := h.exists_goesTo hgoes
      exact ⟨p, by rw [if_neg hempty, hp, Option.map_some], hlookup⟩
  · cases hlocate

/-- Where the tree may have a file, the entry of the disk is not a directory. -/
theorem isDirectory_eq_false (h : fs.Represents s L c) {D : List Name} {name : Name} {p i : ℕ}
    (hlocate : fs.locate path = some (p, name)) (hD : fs.disk.links.lookup 1 D = some (true, p))
    (hplace : s.FilePlace D name) (hindex : (fs.disk.dirTable p).findIndex name = some i) :
    (fs.disk.dirTable p).isDirectory i = false := by
  have hname : OrdinaryName name :=
    ⟨Valid.locate_name hlocate, hplace.ne_dot, hplace.ne_dotDot⟩
  have hconsistent := h.valid.consistent
  have hchild := hconsistent.childEntry_of_name (h.valid.locate_mem hlocate) hindex hname.string
    hname.ne_dot hname.ne_dotDot
  rw [Bool.eq_false_iff]
  intro hflag
  obtain ⟨t, hsector, -⟩ :=
    hconsistent.dir_of_child (h.valid.locate_mem hlocate) hchild hflag
  have hlink := Consistent.links_of_findIndex hname hindex hflag hsector
  refine hplace.not_dir ?_
  rw [h.node_eq hD, hlink]
  rfl

/-- A file whose path no id stands for is not in the table. -/
theorem sector_ne (h : fs.Represents s L c) {P : List Name} {t : ℕ}
    (hP : fs.disk.links.lookup 1 P = some (false, t))
    (hclosed : ∀ k < NbFileTableEntries, ∀ o, s.opened k = some o → o.path ≠ P) {k : ℕ}
    (hk : k < NbFileTableEntries) {e : OpenFileEntry} (he : fs.fileTable.table k = some e) :
    e.sector ≠ t := by
  obtain ⟨o, r, ho, hstands, -, hsector, -⟩ := h.exists_stands hk he
  rw [hsector]
  intro hrt
  rw [show t = r by exact_mod_cast hrt.symm] at hP
  exact hclosed k hk o ho (h.valid.consistent.isTree.lookup_injective hstands.path hP)

/-! ## Each call returns -/

/-- A call that the tree allows is safe. -/
theorem safe_of_allows (h : fs.Represents s L c) {call : FileSystemCall} (hallows : s.Allows call)
    (heap : Heap) : call.Safe fs heap := by
  cases call with
  | createFile path initialSize =>
      obtain ⟨hlocate, hrange⟩ := hallows
      obtain ⟨⟨D, name⟩, hlocate⟩ := Option.isSome_iff_exists.mp hlocate
      obtain ⟨p, hp, -⟩ := h.exists_locate hlocate
      exact ⟨hp ▸ rfl, hrange⟩
  | createDir path => exact hallows.elim
  | removeFile path =>
      obtain ⟨D, name, hlocate, hplace, hclosed⟩ := hallows
      obtain ⟨p, hp, hD⟩ := h.exists_locate hlocate
      refine ⟨p, name, hp, fun i hindex => ?_⟩
      have hflag := h.isDirectory_eq_false hp hD hplace hindex
      refine ⟨hflag, fun k hk e he hsector => ?_⟩
      have hconsistent := h.valid.consistent
      have hmem := h.valid.locate_mem hp
      obtain ⟨t, ht, -⟩ := hconsistent.file_of_child hmem
        (hconsistent.childEntry_of_findIndex hmem hindex hflag) hflag
      have hname := hconsistent.ordinaryName_of_file hmem hindex hflag (Valid.locate_name hp)
      exact h.sector_ne ((lookup_concat hD).trans (Consistent.links_of_findIndex hname hindex hflag ht))
        hclosed hk he (hsector.trans ht)
  | removeDir path => exact hallows.elim
  | changeCurrentDir path =>
      obtain ⟨D, hD⟩ := Option.isSome_iff_exists.mp hallows
      obtain ⟨p, hp, -⟩ := h.exists_goesTo hD
      exact Option.isSome_iff_exists.mpr ⟨p, hp⟩
  | openFile path mode =>
      obtain ⟨D, name, hlocate, hplace⟩ := hallows
      obtain ⟨p, hp, hD⟩ := h.exists_locate hlocate
      exact ⟨p, name, hp, fun i hindex => h.isDirectory_eq_false hp hD hplace hindex⟩
  | close i => trivial
  | read i nbOctets => exact hallows.1
  | write i bytes => exact hallows.1

/-- The length of a file that an id stands for. -/
theorem length_contents (h : fs.Represents s L c) {P : List Name} {t : ℕ}
    (hP : fs.disk.links.lookup 1 P = some (false, t)) :
    (s.contents P).length = fs.lengthOf t := by
  rw [FileTree.contents, h.node, Disk.tree, Links.tree_eq_file.mpr ⟨t, hP, rfl⟩, Disk.contents,
    List.length_map, List.length_range, lengthOf]

theorem exists_createFile (h : fs.Represents s L c) {initialSize : ℤ}
    (hallows : s.Allows (.createFile path initialSize)) (heap : Heap) :
    ∃ result fs', fs.createFile heap path initialSize = .ok (result, fs') := by
  obtain ⟨hlocate, hlow, hhigh⟩ := hallows
  obtain ⟨⟨D, name⟩, hlocate⟩ := Option.isSome_iff_exists.mp hlocate
  obtain ⟨p, hp, -⟩ := h.exists_locate hlocate
  obtain ⟨f, hvalid, hrun⟩ := h.valid.atPath heap hp
  rw [FileSystem.createFile, hrun]
  obtain hfalse | ⟨n, i, disk', htrue, -⟩ := hvalid.createFile_cases heap name initialSize hlow hhigh
  · exact ⟨false, _, by rw [hfalse]; rfl⟩
  · exact ⟨true, _, by rw [htrue]; rfl⟩

theorem exists_removeFile (h : fs.Represents s L c) (hallows : s.Allows (.removeFile path))
    (heap : Heap) : ∃ result fs', fs.removeFile heap path = .ok (result, fs') := by
  obtain ⟨p, name, hp, hentry⟩ := h.safe_of_allows hallows heap
  obtain ⟨f, hvalid, hrun⟩ := h.valid.atPath heap hp
  rw [FileSystem.removeFile, hrun]
  cases hindex : (fs.disk.dirTable p).findIndex name with
  | none =>
      rw [hvalid.removeFile_of_absent heap hindex]
      exact ⟨false, _, rfl⟩
  | some i =>
      obtain ⟨t, -, disk', htrue, -⟩ :=
        hvalid.removeFile_of_file heap hindex (hentry i hindex).1
      rw [htrue]
      exact ⟨true, _, rfl⟩

theorem exists_openFile (h : fs.Represents s L c) {mode : UInt8}
    (hallows : s.Allows (.openFile path mode)) (heap : Heap) :
    ∃ i fs', fs.openFile heap path mode = .ok (i, fs') := by
  obtain ⟨p, name, hp, hentry⟩ := h.safe_of_allows hallows heap
  have hconsistent := h.valid.consistent
  have hmem := h.valid.locate_mem hp
  cases hindex : (fs.disk.dirTable p).findIndex name with
  | none => exact ⟨-1, fs, h.valid.openFile_of_absent heap mode hp hindex⟩
  | some i =>
      have hflag := hentry i hindex
      obtain ⟨t, hsector, ht⟩ := hconsistent.file_of_child hmem
        (hconsistent.childEntry_of_findIndex hmem hindex hflag) hflag
      obtain ⟨f, -, -, hrun⟩ := h.valid.openFile heap mode hp hindex hsector
        (hconsistent.inRange t (Consistent.mem_objects_of_file ht)).1
      rw [hrun]
      cases fs.fileTable.find t with
      | some k => exact ⟨k, _, rfl⟩
      | none =>
          obtain ⟨⟨k, table⟩, hadd⟩ := h.table.exists_add ⟨f, mode, t⟩
          exact ⟨k, _, by simp only [hadd, Except.ok_bind]; rfl⟩

theorem exists_read (h : fs.Represents s L c) {i : ℤ} {nbOctets : ℕ}
    (hallows : s.Allows (.read i nbOctets)) (buf : Mem) :
    ∃ count buf' fs', fs.read i buf nbOctets = .ok (count, buf', fs') := by
  obtain ⟨-, hrange⟩ := hallows
  obtain ⟨hget, -⟩ | ⟨k, rfl, -, e, o, t, hget, hget', -, hstands, hmode, -⟩ := h.get_cases i
  · exact ⟨-1, buf, fs, by simp only [FileSystem.read, hget]⟩
  by_cases hmodeRead : o.mode = modeRead
  swap
  · refine ⟨-1, buf, fs, ?_⟩
    simp only [FileSystem.read, hget, hmode, ne_eq, hmodeRead, not_false_eq_true, if_true]
  have hopen : fs.OpenAt k t modeRead o.pos := hmodeRead ▸ hstands.openAt
  obtain ⟨fs', hread, -⟩ := hopen.read h.valid.consistent
    (h.valid.consistent.mem_files_of_lookup hstands.path) buf fun hpos =>
      hrange o hget' hmodeRead (by rwa [h.length_contents hstands.path])
  exact ⟨_, _, fs', hread⟩

theorem exists_write (h : fs.Represents s L c) {i : ℤ} {bytes : List UInt8}
    (hallows : s.Allows (.write i bytes)) (uninit : Mem) :
    ∃ count fs', fs.write uninit i (Mem.ofString bytes) bytes.length = .ok (count, fs') := by
  obtain ⟨-, hrange⟩ := hallows
  obtain ⟨hget, -⟩ | ⟨k, rfl, -, e, o, t, hget, hget', -, hstands, hmode, -⟩ := h.get_cases i
  · exact ⟨-1, fs, by simp only [FileSystem.write, hget]⟩
  by_cases hmodeWrite : o.mode = modeWrite
  swap
  · refine ⟨-1, fs, ?_⟩
    simp only [FileSystem.write, hget, hmode, ne_eq, hmodeWrite, not_false_eq_true, if_true]
  have hopen : fs.OpenAt k t modeWrite o.pos := hmodeWrite ▸ hstands.openAt
  obtain ⟨fs', hwrite, -⟩ := hopen.write h.valid.consistent
    (h.valid.consistent.mem_files_of_lookup hstands.path) uninit (Mem.ofString bytes) fun hpos =>
      hrange o hget' hmodeWrite (by rwa [h.length_contents hstands.path])
  exact ⟨_, fs', hwrite⟩

/-- **A call that the tree allows** returns, and as the tree says. -/
theorem answers (h : fs.Represents s L c) (call : FileSystemCall) (hallows : s.Allows call)
    (heap : Heap) : ∃ answer fs' s' L' c', FileSystemCall.Step fs ⟨call, heap, answer⟩ fs' ∧
      s.Step ⟨call, heap, answer⟩ s' ∧ fs'.Represents s' L' c' := by
  have hsafe := h.safe_of_allows hallows heap
  obtain ⟨answer, fs', hstep⟩ : ∃ answer fs', FileSystemCall.Step fs ⟨call, heap, answer⟩ fs' := by
    cases call with
    | createFile path initialSize =>
        obtain ⟨result, fs', hok⟩ := h.exists_createFile hallows heap
        exact ⟨.flag result, fs', by simp only [FileSystemCall.Step, FileSystemCall.run, hok]; rfl⟩
    | createDir path => exact hallows.elim
    | removeFile path =>
        obtain ⟨result, fs', hok⟩ := h.exists_removeFile hallows heap
        exact ⟨.flag result, fs', by simp only [FileSystemCall.Step, FileSystemCall.run, hok]; rfl⟩
    | removeDir path => exact hallows.elim
    | changeCurrentDir path =>
        obtain ⟨p, hp⟩ := Option.isSome_iff_exists.mp hsafe
        obtain ⟨f, hok, -⟩ := h.valid.changeCurrentDir heap hp
        exact ⟨.done, _, by simp only [FileSystemCall.Step, FileSystemCall.run, hok]; rfl⟩
    | openFile path mode =>
        obtain ⟨i, fs', hok⟩ := h.exists_openFile hallows heap
        exact ⟨.value i, fs', by simp only [FileSystemCall.Step, FileSystemCall.run, hok]; rfl⟩
    | close i =>
        obtain ⟨hlow, hhigh⟩ := hallows
        obtain ⟨k, rfl⟩ := Int.eq_ofNat_of_zero_le hlow
        obtain ⟨result, t', hok, -⟩ := OpenCall.close_of_lt fs.fileTable (Int.ofNat_lt.mp hhigh)
        refine ⟨.value result, { fs with fileTable := t' }, ?_⟩
        simp only [FileSystemCall.Step, FileSystemCall.run, FileSystem.close]
        rw [hok]
        rfl
    | read i nbOctets =>
        obtain ⟨count, buf, fs', hok⟩ := h.exists_read hallows (heap 0)
        refine ⟨.bytes count ((List.range count.toNat).map buf), fs', ?_⟩
        simp only [FileSystemCall.Step, FileSystemCall.run, hok]
        rfl
    | write i bytes =>
        obtain ⟨count, fs', hok⟩ := h.exists_write hallows (heap 0)
        exact ⟨.value count, fs', by simp only [FileSystemCall.Step, FileSystemCall.run, hok]; rfl⟩
  obtain ⟨s', L', c', hspec, hrep⟩ := h.step hstep hsafe
  exact ⟨answer, fs', s', L', c', hstep, hspec, hrep⟩

/-! ## What a client reasons with -/

theorem createFile_eq (h : fs.Represents s L c) {initialSize : ℤ}
    (hallows : s.Allows (.createFile path initialSize)) (heap : Heap) :
    ∃ result fs' s' L' c', fs.createFile heap path initialSize = .ok (result, fs') ∧
      s.Step ⟨.createFile path initialSize, heap, .flag result⟩ s' ∧ fs'.Represents s' L' c' := by
  obtain ⟨answer, fs', s', L', c', hstep, hspec, hrep⟩ := h.answers _ hallows heap
  obtain ⟨⟨result, fs₁⟩, hok, hequal⟩ := Except.bind_eq_ok.mp hstep
  obtain ⟨rfl, rfl⟩ := Prod.mk.inj (Except.ok.inj hequal)
  exact ⟨result, fs₁, s', L', c', hok, hspec, hrep⟩

theorem openFile_eq (h : fs.Represents s L c) {D : List Name} {name : Name}
    (hlocate : s.locate path = some (D, name)) (hplace : s.FilePlace D name) (mode : UInt8)
    (heap : Heap) : ∃ fs' L' c',
      fs.openFile heap path mode = .ok ((s.openFile (D ++ [name]) mode).1, fs') ∧
        fs'.Represents (s.openFile (D ++ [name]) mode).2 L' c' := by
  obtain ⟨answer, fs', s', L', c', hstep, ⟨D', name', hlocate', hequal⟩, hrep⟩ :=
    h.answers (.openFile path mode) ⟨D, name, hlocate, hplace⟩ heap
  obtain ⟨rfl, rfl⟩ := Prod.mk.inj (Option.some.inj (hlocate.symm.trans hlocate'))
  obtain ⟨rfl, rfl⟩ := Prod.mk.inj hequal
  obtain ⟨⟨i, fs₁⟩, hok, hequal⟩ := Except.bind_eq_ok.mp hstep
  obtain ⟨hi, rfl⟩ := Prod.mk.inj (Except.ok.inj hequal)
  rw [← Answer.value.inj hi]
  exact ⟨fs₁, L', c', hok, hrep⟩

theorem close_eq (h : fs.Represents s L c) {k : ℕ} (hk : k < NbFileTableEntries) :
    ∃ fs' L' c', fs.close k = .ok ((s.close k).1, fs') ∧ fs'.Represents (s.close k).2 L' c' := by
  obtain ⟨answer, fs', s', L', c', hstep, ⟨k', hk', hequal⟩, hrep⟩ :=
    h.answers (.close k) ⟨Int.natCast_nonneg _, Int.ofNat_lt.mpr hk⟩ fun _ _ => 0
  obtain rfl := Int.natCast_inj.mp hk'
  obtain ⟨rfl, rfl⟩ := Prod.mk.inj hequal
  obtain ⟨⟨result, fs₁⟩, hok, hequal⟩ := Except.bind_eq_ok.mp hstep
  obtain ⟨hresult, rfl⟩ := Prod.mk.inj (Except.ok.inj hequal)
  rw [← Answer.value.inj hresult]
  exact ⟨fs₁, L', c', hok, hrep⟩

theorem read_eq (h : fs.Represents s L c) {i : ℤ} {n : ℕ} (hfits : s.FitsInt i modeRead n)
    (buf : Mem) : ∃ count buf' fs' s' L' c', fs.read i buf n = .ok (count, buf', fs') ∧
      s.read i n = (.bytes count ((List.range count.toNat).map buf'), s') ∧
        fs'.Represents s' L' c' := by
  obtain ⟨answer, fs', s', L', c', hstep, hspec, hrep⟩ :=
    h.answers (.read i n) hfits fun _ => buf
  obtain ⟨⟨count, buf', fs₁⟩, hok, hequal⟩ := Except.bind_eq_ok.mp hstep
  obtain ⟨rfl, rfl⟩ := Prod.mk.inj (Except.ok.inj hequal)
  exact ⟨count, buf', fs₁, s', L', c', hok, hspec.symm, hrep⟩

theorem write_eq (h : fs.Represents s L c) (i : ℤ) (bytes : List UInt8)
    (hfits : s.FitsInt i modeWrite bytes.length) (uninit : Mem) : ∃ count fs' s' L' c',
      fs.write uninit i (Mem.ofString bytes) bytes.length = .ok (count, fs') ∧
        s.write i bytes = (.value count, s') ∧ fs'.Represents s' L' c' := by
  obtain ⟨answer, fs', s', L', c', hstep, hspec, hrep⟩ :=
    h.answers (.write i bytes) hfits fun _ => uninit
  obtain ⟨⟨count, fs₁⟩, hok, hequal⟩ := Except.bind_eq_ok.mp hstep
  obtain ⟨rfl, rfl⟩ := Prod.mk.inj (Except.ok.inj hequal)
  exact ⟨count, fs₁, s', L', c', hok, hspec.symm, hrep⟩

end FileSystem.Represents

namespace FileSystem

/-- **No call fails that the tree allows.** After every run from a formatted disk whose calls are safe,
the tree that explains the answers so far has a precondition for the next call, and where it holds the
call returns, whatever the memory it finds, and as the tree says. -/
theorem allowed_calls_return {heap : Heap} {disk : Disk} {tableMemory : ℕ → Option OpenFileEntry}
    {fs₀ fs : FileSystem} {steps : List (Base.Step FileSystem FileSystemStep)}
    (hformat : format heap disk tableMemory = .ok fs₀)
    (htable : ∀ k < NbFileTableEntries, tableMemory k = none)
    (hrun : Trace FileSystemCall.Step fs₀ steps fs)
    (hsafe : ∀ x ∈ steps, x.label.call.Safe x.before x.label.heap) :
    ∃ steps' s, Trace FileTree.Step .initial steps' s ∧
      steps'.map (fun x => x.label) = steps.map (fun x => x.label) ∧
      ∀ call, s.Allows call → ∀ heap, ∃ answer fs' s',
        FileSystemCall.Step fs ⟨call, heap, answer⟩ fs' ∧ s.Step ⟨call, heap, answer⟩ s' := by
  obtain ⟨steps', s, hspec, hlabels, L, c, hrep⟩ := exists_represented hformat htable hrun hsafe
  refine ⟨steps', s, hspec, hlabels, fun call hallows heap => ?_⟩
  obtain ⟨answer, fs', s', -, -, hstep, hstep', -⟩ := hrep.answers _ hallows heap
  exact ⟨answer, fs', s', hstep, hstep'⟩

/-- On a fresh disk a file of two bytes can be created. -/
theorem allowed_calls_return_createFile : ∃ fs₀ answer fs' s',
    format (fun _ _ => 0) (fun _ _ => 0) (fun _ => none) = .ok fs₀ ∧
      FileSystemCall.Step fs₀ ⟨.createFile [97] 2, fun _ _ => 0, answer⟩ fs' ∧
      FileTree.initial.Step ⟨.createFile [97] 2, fun _ _ => 0, answer⟩ s' := by
  obtain ⟨fs₀, hformat, -⟩ := format_eq_ok (fun _ _ => 0) (fun _ _ => 0) (fun _ => none)
  obtain ⟨steps', s, hspec, hlabels, hcalls⟩ := allowed_calls_return hformat (fun _ _ => rfl)
    (Trace.nil fs₀) (fun x hx => absurd hx List.not_mem_nil)
  obtain rfl := List.map_eq_nil_iff.mp hlabels
  obtain rfl := hspec.eq_of_nil
  obtain ⟨answer, fs', s', hstep, hstep'⟩ := hcalls (.createFile [97] 2)
    ⟨by decide, by norm_num, by decide⟩ (fun _ _ => 0)
  exact ⟨fs₀, answer, fs', s', hformat, hstep, hstep'⟩

end FileSystem

end Nachos
