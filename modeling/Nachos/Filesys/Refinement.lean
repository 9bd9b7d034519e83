/-
# The disk behind the tree

The file system on its disk does what its users rely on: in every run whose calls are safe, each answer
is one that the tree of names and bytes allows, and the disk goes on representing the tree.
-/

import Nachos.Base.Trace
import Nachos.Filesys.FileTree
import Nachos.Filesys.OpenTable

namespace Nachos

open Base

/-- `Add` takes the first free entry, as long as there is one. -/
theorem OpenFileTable.Consistent.add_eq_ok {t t' : OpenFileTable} (ht : t.Consistent)
    {e : OpenFileEntry} {i : ℤ} (hadd : t.add e = .ok (i, t')) :
    (∃ k : ℕ, i = k ∧ k < NbFileTableEntries ∧ t.table k = none ∧
      (List.range NbFileTableEntries).find? (fun k => (t.table k).isNone) = some k ∧
      t' = ⟨t.set k (some e), t.nbFiles + 1⟩) ∨
    i = -1 ∧ t' = t ∧
      (List.range NbFileTableEntries).find? (fun k => (t.table k).isNone) = none := by
  rw [add] at hadd
  split at hadd
  · rename_i hfull
    obtain ⟨rfl, rfl⟩ := Prod.mk.inj (Except.ok.inj hadd)
    refine Or.inr ⟨rfl, rfl, List.find?_eq_none.mpr fun k hk => ?_⟩
    -- The counter says that every entry is in use.
    have hall : t.used = Finset.range NbFileTableEntries := by
      refine Finset.eq_of_subset_of_card_le (Finset.filter_subset _ _) ?_
      have hcount := ht.count
      rw [Finset.card_range]
      omega
    have hused : k ∈ t.used := by
      rw [hall]
      exact Finset.mem_range.mpr (List.mem_range.mp hk)
    have hsome := (mem_used.mp hused).2
    rw [Bool.not_eq_true, Option.isNone_eq_false_iff]
    exact hsome
  split at hadd
  · rename_i k hfirst
    obtain ⟨rfl, rfl⟩ := Prod.mk.inj (Except.ok.inj hadd)
    obtain ⟨hnone, hlt, -⟩ := List.find?_range_eq_some.mp hfirst
    exact Or.inl ⟨k, rfl, List.mem_range.mp hlt, Option.isNone_iff_eq_none.mp hnone, hfirst, rfl⟩
  · cases hadd

namespace FileSystem

/-- The entry under an id is open on the file that the user has under it. -/
structure StandsFor (fs : FileSystem) (k : ℕ) (o : OpenedFile) (t : ℕ) : Prop where
  openAt : fs.OpenAt k t o.mode o.pos
  sector : ∀ e, fs.fileTable.table k = some e → e.sector = t
  path : fs.disk.links.lookup 1 o.path = some (false, t)

/-- The file system represents what the user sees. -/
structure Represents (fs : FileSystem) (s : FileTree) (L : Layout) (c : ℕ) : Prop where
  valid : fs.Valid L c
  /-- Every ordinary entry can be found by a name. -/
  named : ∀ p ∈ L.dirs, ∀ i, fs.disk.ChildEntry p i →
    ∃ name, OrdinaryName name ∧ (fs.disk.dirTable p).matchesName name i = true
  node : s.node = fs.disk.tree
  here : fs.disk.links.lookup 1 s.here = some (true, c)
  table : fs.fileTable.Consistent
  closed : ∀ k < NbFileTableEntries, fs.fileTable.table k = none ↔ s.opened k = none
  opened : ∀ k < NbFileTableEntries, ∀ o, s.opened k = some o → ∃ t, fs.StandsFor k o t

/-- A read through an entry opened for it moves the position. -/
theorem read_of_mode {fs fs' : FileSystem} {k : ℕ} {e : OpenFileEntry} {nbOctets result : ℤ}
    {buf buf' : Mem} (hget : fs.fileTable.get k = some e) (hmode : e.mode = modeRead)
    (hok : fs.read k buf nbOctets = .ok (result, buf', fs')) :
    ∃ x, fs' = fs.setFile k e { e.file with seekPosition := x } := by
  rw [FileSystem.read, hget] at hok
  simp only [hmode, ne_eq, not_true_eq_false, if_false, OpenFile.read, Except.bind_eq_ok] at hok
  obtain ⟨_, ⟨_, -, hinner⟩, hequal⟩ := hok
  cases hinner
  cases hequal
  exact ⟨_, rfl⟩

/-- A write through an entry opened for it moves the position and changes the disk. -/
theorem write_of_mode {fs fs' : FileSystem} {k : ℕ} {e : OpenFileEntry} {nbOctets result : ℤ}
    {buf uninit : Mem} (hget : fs.fileTable.get k = some e) (hmode : e.mode = modeWrite)
    (hok : fs.write uninit k buf nbOctets = .ok (result, fs')) :
    ∃ x, fs' = { fs.setFile k e { e.file with seekPosition := x } with disk := fs'.disk } := by
  rw [FileSystem.write, hget] at hok
  simp only [hmode, ne_eq, not_true_eq_false, if_false, OpenFile.write, Except.bind_eq_ok] at hok
  obtain ⟨_, ⟨_, -, hinner⟩, hequal⟩ := hok
  cases hinner
  cases hequal
  exact ⟨_, rfl⟩

/-- The bytes that a read delivers. -/
theorem map_copy_eq (d : Disk) (t pos n : ℕ) (buf : Mem) :
    (List.range (min n ((d.header t).numBytes.toNat - pos))).map
        (buf.copy 0 (d.bytes t) pos (min n ((d.header t).numBytes.toNat - pos))) =
      ((d.contents t).drop pos).take n := by
  refine List.ext_getElem (by simp [Disk.contents]) fun j hj hj' => ?_
  rw [List.length_map, List.length_range] at hj
  simp only [Disk.contents, List.getElem_map, List.getElem_range, List.getElem_take,
    List.getElem_drop]
  rw [Mem.copy_of_mem _ _ (by omega), Nat.sub_zero, Nat.add_comm]

/-- The contents after a write. -/
theorem contents_eq_overwrite {d d' : Disk} {t pos : ℕ} {bytes : List UInt8}
    (hheader : d' t = d t) (hpos : pos ≤ (d.header t).numBytes.toNat)
    (hbytes : ∀ j < (d.header t).numBytes.toNat, d'.bytes t j =
      if pos ≤ j ∧ j < pos + min bytes.length ((d.header t).numBytes.toNat - pos) then
        Mem.ofString bytes (j - pos) else d.bytes t j) :
    d'.contents t = overwrite (d.contents t) pos bytes := by
  rw [Disk.contents, Disk.header_congr hheader, overwrite, Disk.contents]
  refine List.ext_getElem ?_ fun j hj hj' => ?_
  · simp only [List.length_map, List.length_range, List.length_append, List.length_take,
      List.length_drop]
    omega
  rw [List.length_map, List.length_range] at hj
  simp only [List.getElem_append, List.length_append, List.length_take, List.length_map,
    List.length_range, List.getElem_take, List.getElem_drop, List.getElem_map, List.getElem_range]
  rw [hbytes j hj]
  split_ifs
  · omega
  · simp only [Nat.min_eq_left hpos]
    rw [Mem.ofString, List.getD_eq_getElem _ _ (by omega)]
  · omega
  · rfl
  · omega
  · congr 1
    omega

namespace Valid

variable {fs fs' : FileSystem} {L : Layout} {c p : ℕ} {name : Name} {path : List UInt8} {heap : Heap}

/-- `RemoveFile` refuses only what is not there. -/
theorem findIndex_of_removeFile_false (hfs : fs.Valid L c) (hlocate : fs.locate path = some (p, name))
    (hflag : ∀ i, (fs.disk.dirTable p).findIndex name = some i →
      (fs.disk.dirTable p).isDirectory i = false)
    (hok : fs.removeFile heap path = .ok (false, fs')) :
    (fs.disk.dirTable p).findIndex name = none := by
  obtain ⟨f, fs₁, hvalid, hinner, -⟩ := hfs.atPath_eq_ok hlocate hok
  cases hindex : (fs.disk.dirTable p).findIndex name with
  | none => rfl
  | some i =>
      obtain ⟨t, -, disk', htrue, -⟩ := hvalid.removeFile_of_file heap hindex (hflag i hindex)
      rw [htrue] at hinner
      cases hinner

/-- `RemoveDir` refuses what is not there and what is not empty. -/
theorem childEntry_of_removeDir_false (hfs : fs.Valid L c)
    (hlocate : fs.locate path = some (p, name))
    (hok : fs.removeDir heap path = .ok (false, fs')) {i t : ℕ}
    (hindex : (fs.disk.dirTable p).findIndex name = some i)
    (hsector : (fs.disk.dirTable p).sector i = t) (ht : t ∈ L.dirs) : ∃ j, fs.disk.ChildEntry t j := by
  obtain ⟨f, fs₁, hvalid, hinner, -⟩ := hfs.atPath_eq_ok hlocate hok
  have h := hfs.consistent
  have hlt := (h.inRange t (Consistent.mem_objects_of_dir ht)).1
  obtain ⟨dir, hfetch, same⟩ := hvalid.fetchCurrentDirectory (heap 0)
  have hfind : dir.find name = t := by
    rw [same.find, Directory.find, hindex]
    exact hsector
  obtain ⟨header, hheader, -⟩ := (FileHeader.newZeroed (heap 1)).fetchFrom_of_lt fs.disk hlt
  obtain ⟨f, hf, hopen, -⟩ := OpenFile.new_of_lt (heap 2) fs.disk hlt
  obtain ⟨rmDir, hrmDir, hrmSame⟩ := h.fetchDirectory ht hopen (heap 3)
  rw [removeDirInCurrentDirectory, hfetch, Except.ok_bind] at hinner
  simp only [hfind, show ¬ ((t : ℤ) = -1) by omega, if_false, hheader, hf, hrmDir,
    Except.ok_bind] at hinner
  cases hempty : rmDir.isEmpty with
  | true =>
      -- The removal itself reports success.
      simp only [hempty, Bool.not_true, Bool.false_eq_true, if_false] at hinner
      obtain ⟨hfalse, -⟩ := hvalid.removeEntry_eq_ok same.tableSize
        ((same.findIndex name).trans hindex) hinner
      cases hfalse
  | false =>
      obtain ⟨j, hj, hused⟩ := List.all_eq_false.mp hempty
      have hj10 : j < 10 := by
        rw [List.mem_range, hrmSame.tableSize] at hj
        exact hj
      rw [(hrmSame.sameEntry j hj10).inUse] at hused
      simp only [Bool.or_eq_true, decide_eq_true_eq, Bool.not_eq_eq_eq_not, Bool.not_true, not_or,
        not_lt, Bool.not_eq_false] at hused
      exact ⟨j, hused.1, hj10, hused.2⟩

end Valid

namespace Represents

variable {fs fs' : FileSystem} {s s' : FileTree} {L : Layout} {c p i n t : ℕ} {name : Name}
  {path : List UInt8} {heap : Heap} {isDir : Bool}

theorem wellFormed (h : fs.Represents s L c) : s.node.WellFormed := by
  rw [h.node]
  exact Links.tree_wellFormed _ _ _

/-! ## Paths -/

theorem goesTo (h : fs.Represents s L c) (hgoes : fs.goesTo path = some p) :
    ∃ D, s.goesTo path = some D ∧ fs.disk.links.lookup 1 D = some (true, p) := by
  obtain ⟨hwell, hresolve⟩ := Option.ite_none_right_eq_some.mp hgoes
  rw [h.valid.here_eq, Disk.resolve_eq_some] at hresolve
  have hconsistent := h.valid.consistent
  obtain ⟨D, hwalk, hD⟩ := (hconsistent.completes.lookup_eq_some fs.disk.contents
    hconsistent.isTree (fun name hname => ⟨(hwell name hname).2.2, (hwell name hname).2.1⟩)
    h.here).mp hresolve
  refine ⟨D, ?_, hD⟩
  rw [FileTree.goesTo, if_pos hwell, h.node]
  exact hwalk

/-- **A path** stands for the same place on the disk and in the tree. -/
theorem locate (h : fs.Represents s L c) (hlocate : fs.locate path = some (p, name)) :
    ∃ D, s.locate path = some (D, name) ∧ fs.disk.links.lookup 1 D = some (true, p) := by
  unfold FileSystem.locate at hlocate
  split at hlocate
  · rename_i last tmpPath hsplit
    have hspec : s.locate path = if tmpPath = [] then some (s.here, last)
        else (s.goesTo tmpPath).map fun D => (D, last) := by
      simp only [FileTree.locate, hsplit]
    rw [hspec]
    split at hlocate <;> rename_i hempty
    · obtain ⟨rfl, rfl⟩ := Prod.mk.inj (Option.some.inj hlocate)
      refine ⟨s.here, if_pos hempty, ?_⟩
      rw [h.valid.here_eq]
      exact h.here
    · obtain ⟨q, hgoes, hequal⟩ := Option.map_eq_some_iff.mp hlocate
      obtain ⟨rfl, rfl⟩ := Prod.mk.inj hequal
      obtain ⟨D, hD, hlookup⟩ := h.goesTo hgoes
      exact ⟨D, by rw [if_neg hempty, hD, Option.map_some], hlookup⟩
  · cases hlocate

/-- What a directory lists is what the tree has there. -/
theorem lookup_concat {D : List Name} (hD : fs.disk.links.lookup 1 D = some (true, p)) :
    fs.disk.links.lookup 1 (D ++ [name]) = fs.disk.links p name := by
  rw [Links.lookup_concat, hD]
  rfl

/-! ## Changes of the tree -/

/-- A change of the disk that the user sees at one path, where neither the thread is nor a file is
open. -/
theorem changed (h : fs.Represents s L c) {disk' : Disk} {L' : Layout} {P : List Name}
    {y : Option (Bool × ℕ)} {node : Option (Node (List UInt8))}
    (hvalid : ({ fs with disk := disk' } : FileSystem).Valid L' c)
    (hnamed : ∀ p ∈ L'.dirs, ∀ i, disk'.ChildEntry p i →
      ∃ name, OrdinaryName name ∧ (disk'.dirTable p).matchesName name i = true)
    (hlookup : disk'.links.lookup 1 = Function.update (fs.disk.links.lookup 1) P y)
    (htree : disk'.tree = Function.update fs.disk.tree P node)
    (hheader : ∀ t ∈ L.files, disk' t = fs.disk t) (hhere : s.here ≠ P)
    (hopened : ∀ k < NbFileTableEntries, ∀ o, s.opened k = some o → o.path ≠ P) :
    ({ fs with disk := disk' } : FileSystem).Represents (s.setNode P node) L' c where
  valid := hvalid
  named := hnamed
  node := by rw [FileTree.setNode, h.node, htree]
  here := by
    rw [hlookup]
    exact (Function.update_of_ne hhere _ _).trans h.here
  table := h.table
  closed := h.closed
  opened k hk o ho := by
    obtain ⟨t, ⟨hindex, ⟨e, hentry, hmode, hfile, hseek⟩, hwithin⟩, hsector, hpath⟩ :=
      h.opened k hk o ho
    have hsame := hheader t (h.valid.consistent.mem_files_of_lookup hpath)
    refine ⟨t, ⟨hindex, ⟨e, hentry, hmode, hfile.congr hsame, hseek⟩, ?_⟩, hsector, ?_⟩
    · rwa [lengthOf, Disk.header_congr hsame]
    · rw [hlookup]
      exact (Function.update_of_ne (hopened k hk o ho) _ _).trans hpath

/-- **A new object.** -/
theorem inserted (h : fs.Represents s L c) {disk' : Disk} {D : List Name}
    (hD : fs.disk.links.lookup 1 D = some (true, p))
    (hname : (0 : UInt8) ∉ name ∧ name.length < FileNameMaxLen)
    (ins : fs.disk.Inserted disk' L p n i name isDir)
    (hvalid : ({ fs with disk := disk' } : FileSystem).Valid (L.insert n isDir) c) :
    OrdinaryName name ∧ s.node (D ++ [name]) = none ∧
      ({ fs with disk := disk' } : FileSystem).Represents (s.setNode (D ++ [name])
        (some (if isDir then .dir else .file (disk'.contents n)))) (L.insert n isDir) c := by
  have hconsistent := h.valid.consistent
  have hp := hconsistent.isTree.lookup_mem hD
  have hordinary := hconsistent.ordinaryName_inserted hp ins hname
  have hfree : fs.disk.links.lookup 1 (D ++ [name]) = none := by
    rw [lookup_concat hD, Consistent.links_eq_none_iff hordinary, Directory.findIndex_eq_none]
    exact ins.fresh
  refine ⟨hordinary, ?_, h.changed hvalid (fun q hq j hchild => ?_)
    (hconsistent.lookup_inserted hp ins hname hD) (hconsistent.tree_inserted hp ins hname hD)
    (fun t ht => hconsistent.header_frame hp ins.frame (Consistent.mem_objects_of_file ht))
    (fun heq => ?_) fun k hk o ho heq => ?_⟩
  · rw [h.node]
    exact Links.tree_eq_none.mpr hfree
  · -- The entry is an old one, or the new one.
    by_cases hnew : q = n ∧ isDir = true
    · obtain ⟨rfl, rfl⟩ := hnew
      exact absurd hchild (ins.newObject.2.2.2.2 j)
    have hq' : q ∈ L.dirs := by
      rcases Layout.mem_dirs_insert.mp hq with hq | hboth
      · exact hq
      · exact absurd ⟨hboth.2, hboth.1⟩ hnew
    by_cases hslot : q = p ∧ j = i
    · obtain ⟨rfl, rfl⟩ := hslot
      exact ⟨name, hordinary, (Directory.findIndex_eq_some ins.findIndex).2.1⟩
    · have same := hconsistent.sameEntry_inserted hp ins hq' hchild.high hslot
      obtain ⟨other, hother, hmatch⟩ := h.named q hq' j
        ⟨hchild.low, hchild.high, same.inUse ▸ hchild.inUse⟩
      exact ⟨other, hother, (same.matchesName other).trans hmatch⟩
  · have hhere := h.here
    rw [heq, hfree] at hhere
    cases hhere
  · obtain ⟨t, hstands⟩ := h.opened k hk o ho
    have hpath := hstands.path
    rw [heq, hfree] at hpath
    cases hpath

/-- **An object less**: not one that is open. -/
theorem removed (h : fs.Represents s L c) {disk' : Disk} {D : List Name}
    (hD : fs.disk.links.lookup 1 D = some (true, p)) (hname : OrdinaryName name)
    (hindex : (fs.disk.dirTable p).findIndex name = some i) (rem : fs.disk.Removed disk' L p i t)
    (hvalid : ({ fs with disk := disk' } : FileSystem).Valid (L.erase t) c)
    (hopened : ∀ k < NbFileTableEntries, ∀ e, fs.fileTable.table k = some e → e.sector ≠ t) :
    ({ fs with disk := disk' } : FileSystem).Represents (s.setNode (D ++ [name]) none)
      (L.erase t) c := by
  have hconsistent := h.valid.consistent
  have hp := hconsistent.isTree.lookup_mem hD
  obtain ⟨b, hlink⟩ : ∃ b, fs.disk.links.lookup 1 (D ++ [name]) = some (b, t) := by
    rw [lookup_concat hD]
    exact ⟨_, Consistent.links_of_findIndex hname hindex rfl rem.target⟩
  refine h.changed hvalid (fun q hq j hchild => ?_)
    (hconsistent.lookup_removed hp rem hname hindex hD)
    (hconsistent.tree_removed hp rem hname hindex hD)
    (fun r hr => hconsistent.header_frame hp rem.frame (Consistent.mem_objects_of_file hr))
    (fun heq => ?_) fun k hk o ho heq => ?_
  · have hq' : q ∈ L.dirs := (Finset.mem_erase.mp hq).2
    obtain ⟨hold, hkept⟩ := (hconsistent.childEntry_removed hp rem hq').mp hchild
    obtain ⟨other, hother, hmatch⟩ := h.named q hq' j hold
    exact ⟨other, hother, ((hconsistent.sameEntry_removed hp rem hq' hold.high
      hkept).matchesName other).trans hmatch⟩
  · have hhere := h.here
    rw [heq, hlink] at hhere
    obtain ⟨-, rfl⟩ := Prod.mk.inj (Option.some.inj hhere)
    exact (Finset.mem_erase.mp hvalid.current_mem).1 rfl
  · obtain ⟨r, hstands⟩ := h.opened k hk o ho
    have hpath := hstands.path
    rw [heq, hlink] at hpath
    obtain ⟨-, rfl⟩ := Prod.mk.inj (Option.some.inj hpath)
    obtain ⟨e, hentry, -⟩ := hstands.openAt.entry
    exact hopened k hk e hentry (hstands.sector e hentry)

/-! ## The calls on the tree -/

theorem createFile (h : fs.Represents s L c) {initialSize : ℤ} {answer : Answer}
    (hsafe : (FileSystemCall.createFile path initialSize).Safe fs heap)
    (hstep : FileSystemCall.Step fs ⟨.createFile path initialSize, heap, answer⟩ fs') :
    ∃ s' L' c', s.Step ⟨.createFile path initialSize, heap, answer⟩ s' ∧ fs'.Represents s' L' c' := by
  obtain ⟨hlocate, hlow, hhigh⟩ := hsafe
  obtain ⟨⟨p, name⟩, hlocate⟩ := Option.isSome_iff_exists.mp hlocate
  obtain ⟨⟨b, fs₁⟩, hcreate, hequal⟩ := Except.bind_eq_ok.mp hstep
  obtain ⟨rfl, rfl⟩ := Prod.mk.inj (Except.ok.inj hequal)
  obtain ⟨D, hD, hlookup⟩ := h.locate hlocate
  obtain ⟨rfl, rfl⟩ | ⟨rfl, n, i, disk', rfl, ins, hbytes, hvalid⟩ :=
    h.valid.createFile_eq_ok hlocate hlow hhigh hcreate
  · exact ⟨s, L, c, ⟨D, name, hD, Or.inl ⟨rfl, rfl⟩⟩, h⟩
  · obtain ⟨hname, hfree, hrep⟩ := h.inserted hlookup (Valid.locate_name hlocate) ins hvalid
    refine ⟨_, _, c, ⟨D, name, hD, Or.inr ⟨rfl, hname, hfree, _, ⟨_, rfl, ?_⟩, rfl⟩⟩, hrep⟩
    rw [Disk.contents, List.length_map, List.length_range, hbytes]

theorem createDir (h : fs.Represents s L c) {answer : Answer}
    (hsafe : (FileSystemCall.createDir path).Safe fs heap)
    (hstep : FileSystemCall.Step fs ⟨.createDir path, heap, answer⟩ fs') :
    ∃ s' L' c', s.Step ⟨.createDir path, heap, answer⟩ s' ∧ fs'.Represents s' L' c' := by
  obtain ⟨hlocate, hfits⟩ := hsafe
  obtain ⟨⟨p, name⟩, hlocate⟩ := Option.isSome_iff_exists.mp hlocate
  obtain ⟨⟨b, fs₁⟩, hcreate, hequal⟩ := Except.bind_eq_ok.mp hstep
  obtain ⟨rfl, rfl⟩ := Prod.mk.inj (Except.ok.inj hequal)
  obtain ⟨D, hD, hlookup⟩ := h.locate hlocate
  obtain ⟨rfl, rfl⟩ | ⟨rfl, n, i, disk', rfl, ins, hvalid⟩ :=
    h.valid.createDir_eq_ok hlocate hfits hcreate
  · exact ⟨s, L, c, ⟨D, name, hD, Or.inl ⟨rfl, rfl⟩⟩, h⟩
  · obtain ⟨hname, hfree, hrep⟩ := h.inserted hlookup (Valid.locate_name hlocate) ins hvalid
    exact ⟨_, _, c, ⟨D, name, hD, Or.inr ⟨rfl, hname, hfree, _, rfl, rfl⟩⟩, hrep⟩

/-- What the tree has at a path, by the entry of the directory. -/
theorem node_eq (h : fs.Represents s L c) {D : List Name}
    (hD : fs.disk.links.lookup 1 D = some (true, p)) : s.node (D ++ [name]) =
      (fs.disk.links p name).map fun x => if x.1 then .dir else .file (fs.disk.contents x.2) := by
  rw [h.node, Disk.tree, Links.tree, lookup_concat hD]

theorem removeFile (h : fs.Represents s L c) {answer : Answer}
    (hsafe : (FileSystemCall.removeFile path).Safe fs heap)
    (hstep : FileSystemCall.Step fs ⟨.removeFile path, heap, answer⟩ fs') :
    ∃ s' L' c', s.Step ⟨.removeFile path, heap, answer⟩ s' ∧ fs'.Represents s' L' c' := by
  have hconsistent := h.valid.consistent
  obtain ⟨p, name, hlocate, hentry⟩ := hsafe
  obtain ⟨⟨b, fs₁⟩, hremove, hequal⟩ := Except.bind_eq_ok.mp hstep
  obtain ⟨rfl, rfl⟩ := Prod.mk.inj (Except.ok.inj hequal)
  obtain ⟨D, hD, hlookup⟩ := h.locate hlocate
  have hp := h.valid.locate_mem hlocate
  obtain ⟨hb, hsame⟩ | ⟨rfl, i, t, ht, disk', rfl, hindex, rem, hvalid⟩ :=
    h.valid.removeFile_eq_ok hlocate (fun i hi => (hentry i hi).1) hremove
  · subst hb hsame
    have hnone := h.valid.findIndex_of_removeFile_false hlocate (fun i hi => (hentry i hi).1) hremove
    refine ⟨s, L, c, ⟨D, name, hD, Or.inl ⟨rfl, ?_, rfl⟩⟩, h⟩
    rintro ⟨bytes, hbytes⟩
    rw [h.node_eq hlookup, Consistent.links_of_absent hnone] at hbytes
    cases hbytes
  · obtain ⟨hflag, hclosed⟩ := hentry i hindex
    have hname := hconsistent.ordinaryName_of_file hp hindex hflag (Valid.locate_name hlocate)
    rw [rem.target] at hclosed
    have hlink := Consistent.links_of_findIndex hname hindex hflag rem.target
    refine ⟨_, _, c, ⟨D, name, hD, Or.inr ⟨rfl, ⟨fs.disk.contents t, ?_⟩, rfl⟩⟩,
      h.removed hlookup hname hindex rem hvalid hclosed⟩
    rw [h.node_eq hlookup, hlink]
    rfl

theorem removeDir (h : fs.Represents s L c) {answer : Answer}
    (hsafe : (FileSystemCall.removeDir path).Safe fs heap)
    (hstep : FileSystemCall.Step fs ⟨.removeDir path, heap, answer⟩ fs') :
    ∃ s' L' c', s.Step ⟨.removeDir path, heap, answer⟩ s' ∧ fs'.Represents s' L' c' := by
  have hconsistent := h.valid.consistent
  obtain ⟨p, name, hlocate, hentry⟩ := hsafe
  rw [h.valid.here_eq] at hentry
  obtain ⟨⟨b, fs₁⟩, hremove, hequal⟩ := Except.bind_eq_ok.mp hstep
  obtain ⟨rfl, rfl⟩ := Prod.mk.inj (Except.ok.inj hequal)
  obtain ⟨D, hD, hlookup⟩ := h.locate hlocate
  have hp := h.valid.locate_mem hlocate
  have hordinary {i : ℕ} (hindex : (fs.disk.dirTable p).findIndex name = some i) :
      OrdinaryName name :=
    ⟨Valid.locate_name hlocate, (hentry i hindex).1, (hentry i hindex).2.1⟩
  obtain ⟨rfl, hsame⟩ | ⟨rfl, i, t, ht, disk', rfl, hindex, rem, hvalid⟩ :=
    h.valid.removeDir_eq_ok hlocate hentry hremove
  · refine ⟨s, L, c, ⟨D, name, hD, Or.inl ⟨rfl, ?_, rfl⟩⟩, hsame ▸ h⟩
    rintro ⟨hdir, hempty⟩
    obtain ⟨t, hlink⟩ : ∃ t, fs.disk.links p name = some (true, t) := by
      rw [h.node] at hdir
      obtain ⟨t, ht⟩ := Links.tree_eq_dir.mp hdir
      exact ⟨t, (lookup_concat hlookup).symm.trans ht⟩
    obtain ⟨-, i, hindex, -, -, hsector, -, ht⟩ := hconsistent.links_eq_some hp hlink
    -- One of the entries of the directory would be seen in the tree.
    obtain ⟨j, hchild⟩ := h.valid.childEntry_of_removeDir_false hlocate hremove hindex hsector ht
    obtain ⟨other, hother, hmatch⟩ := h.named t ht j hchild
    have hseen := hempty other
    rw [h.node_eq ((lookup_concat hlookup).trans hlink), Option.map_eq_none_iff,
      Consistent.links_eq_none_iff hother, Directory.findIndex_eq_none] at hseen
    have hunmatched := hseen j hchild.high
    rw [hmatch] at hunmatched
    cases hunmatched
  · have hname := hordinary hindex
    have hlink := Consistent.links_of_findIndex hname hindex (hentry i hindex).2.2.1 rem.target
    refine ⟨_, _, c, ⟨D, name, hD, Or.inr ⟨rfl, ⟨?_, fun child => ?_⟩, rfl⟩⟩,
      h.removed hlookup hname hindex rem hvalid fun k hk e he hsector => ?_⟩
    · rw [h.node_eq hlookup, hlink]
      rfl
    · rw [h.node_eq ((lookup_concat hlookup).trans hlink), Option.map_eq_none_iff]
      exact hconsistent.links_of_childless ht (rem.childless ht)
    · obtain ⟨o, ho⟩ := Option.ne_none_iff_exists'.mp fun hnone => by
        rw [(h.closed k hk).mpr hnone] at he
        cases he
      obtain ⟨r, hstands⟩ := h.opened k hk o ho
      have hr := hconsistent.mem_files_of_lookup hstands.path
      have hrt : r = t := by exact_mod_cast (hstands.sector e he).symm.trans hsector
      rw [hrt] at hr
      exact hconsistent.kinds t ht hr

theorem changeCurrentDir (h : fs.Represents s L c) {answer : Answer}
    (hsafe : (FileSystemCall.changeCurrentDir path).Safe fs heap)
    (hstep : FileSystemCall.Step fs ⟨.changeCurrentDir path, heap, answer⟩ fs') :
    ∃ s' L' c', s.Step ⟨.changeCurrentDir path, heap, answer⟩ s' ∧ fs'.Represents s' L' c' := by
  obtain ⟨p, hgoes⟩ := Option.isSome_iff_exists.mp hsafe
  obtain ⟨f, hchange, hvalid⟩ := h.valid.changeCurrentDir heap hgoes
  obtain ⟨fs₁, hrun, hequal⟩ := Except.bind_eq_ok.mp hstep
  obtain rfl := Except.ok.inj (hchange.symm.trans hrun)
  obtain ⟨rfl, rfl⟩ := Prod.mk.inj (Except.ok.inj hequal)
  obtain ⟨D, hD, hlookup⟩ := h.goesTo hgoes
  refine ⟨_, L, p, ⟨D, hD, rfl, rfl⟩, hvalid, h.named, h.node, hlookup, h.table, h.closed,
    fun k hk o ho => ?_⟩
  obtain ⟨t, ⟨hindex, hentry, hwithin⟩, hsector, hpath⟩ := h.opened k hk o ho
  exact ⟨t, ⟨hindex, hentry, hwithin⟩, hsector, hpath⟩

/-! ## The calls through ids -/

/-- A change of one entry of the table. -/
theorem setEntry (h : fs.Represents s L c) {k : ℕ} (hk : k < NbFileTableEntries)
    {e : Option OpenFileEntry} {o : Option OpenedFile} {nbFiles : ℤ}
    (htable : OpenFileTable.Consistent ⟨fs.fileTable.set k e, nbFiles⟩) (hnone : e = none ↔ o = none)
    (hsome : ∀ o', o = some o' → ∃ e' t, e = some e' ∧ e'.mode = o'.mode ∧
      e'.file.OpenedOn fs.disk t ∧ e'.file.seekPosition = o'.pos ∧ o'.pos ≤ fs.lengthOf t ∧
      e'.sector = t ∧ fs.disk.links.lookup 1 o'.path = some (false, t)) :
    ({ fs with fileTable := ⟨fs.fileTable.set k e, nbFiles⟩ } : FileSystem).Represents
      (s.setOpened k o) L c where
  valid := ⟨h.valid.consistent, h.valid.mapFile, h.valid.current_mem, h.valid.current⟩
  named := h.named
  node := h.node
  here := h.here
  table := htable
  closed j hj := by
    by_cases hjk : j = k
    · simpa [FileTree.setOpened, OpenFileTable.set, hjk] using hnone
    · simpa [FileTree.setOpened, OpenFileTable.set, hjk] using h.closed j hj
  opened j hj o' ho' := by
    by_cases hjk : j = k
    · subst hjk
      rw [s.opened_setOpened_self] at ho'
      obtain ⟨e', t, rfl, hmode, hfile, hseek, hwithin, hsector, hpath⟩ := hsome o' ho'
      have hentry : fs.fileTable.set j (some e') j = some e' := by simp [OpenFileTable.set]
      refine ⟨t, ⟨hj, ⟨e', hentry, hmode, hfile, hseek⟩, hwithin⟩, fun e he => ?_, hpath⟩
      rw [← Option.some.inj (hentry.symm.trans he)]
      exact hsector
    · rw [s.opened_setOpened_of_ne hjk] at ho'
      obtain ⟨t, ⟨hindex, ⟨e', hentry, hrest⟩, hwithin⟩, hsector, hpath⟩ := h.opened j hj o' ho'
      have hkept : fs.fileTable.set k e j = fs.fileTable.table j := if_neg hjk
      exact ⟨t, ⟨hindex, ⟨e', hkept.trans hentry, hrest⟩, hwithin⟩,
        fun e'' he => hsector e'' (hkept.symm.trans he), hpath⟩

/-- An entry of the table and what the user has there. -/
theorem exists_stands (h : fs.Represents s L c) {k : ℕ} (hk : k < NbFileTableEntries)
    {e : OpenFileEntry} (he : fs.fileTable.table k = some e) :
    ∃ o t, s.opened k = some o ∧ fs.StandsFor k o t ∧ e.mode = o.mode ∧ e.sector = t ∧
      e.file.OpenedOn fs.disk t ∧ e.file.seekPosition = o.pos := by
  obtain ⟨o, ho⟩ := Option.ne_none_iff_exists'.mp fun hnone => by
    rw [(h.closed k hk).mpr hnone] at he
    cases he
  obtain ⟨t, hstands⟩ := h.opened k hk o ho
  obtain ⟨e', he', hmode, hfile, hseek⟩ := hstands.openAt.entry
  obtain rfl := Option.some.inj (he'.symm.trans he)
  exact ⟨o, t, ho, hstands, hmode, hstands.sector e' he, hfile, hseek⟩

/-- **The search for a file that is open.** -/
theorem find_eq (h : fs.Represents s L c) {P : List Name}
    (hP : fs.disk.links.lookup 1 P = some (false, t)) : fs.fileTable.find t =
      (List.range NbFileTableEntries).find? fun k => (s.opened k).any (·.path = P) := by
  refine List.find?_congr fun k hk => ?_
  have hk := List.mem_range.mp hk
  cases he : fs.fileTable.table k with
  | none => rw [(h.closed k hk).mp he, Option.any_none]
  | some e =>
      obtain ⟨o, r, ho, hstands, -, hsector, -⟩ := h.exists_stands hk he
      rw [ho, Option.any_some, decide_eq_decide, hsector]
      constructor
      · intro hrt
        rw [show t = r by exact_mod_cast hrt.symm] at hP
        exact h.valid.consistent.isTree.lookup_injective hstands.path hP
      · intro hpath
        have hequal := hstands.path
        rw [hpath, hP] at hequal
        simp only [Option.some.injEq, Prod.mk.injEq, true_and] at hequal
        rw [hequal]

/-- **The search for a free entry.** -/
theorem find_free_eq (h : fs.Represents s L c) :
    ((List.range NbFileTableEntries).find? fun k => (fs.fileTable.table k).isNone) =
      (List.range NbFileTableEntries).find? fun k => (s.opened k).isNone := by
  refine List.find?_congr fun k hk => ?_
  rw [Bool.eq_iff_iff, Option.isNone_iff_eq_none, Option.isNone_iff_eq_none]
  exact h.closed k (List.mem_range.mp hk)

theorem openFile (h : fs.Represents s L c) {mode : UInt8} {answer : Answer}
    (hsafe : (FileSystemCall.openFile path mode).Safe fs heap)
    (hstep : FileSystemCall.Step fs ⟨.openFile path mode, heap, answer⟩ fs') :
    ∃ s' L' c', s.Step ⟨.openFile path mode, heap, answer⟩ s' ∧ fs'.Represents s' L' c' := by
  have hconsistent := h.valid.consistent
  obtain ⟨p, name, hlocate, hentry⟩ := hsafe
  obtain ⟨⟨z, fs₁⟩, hopen, hequal⟩ := Except.bind_eq_ok.mp hstep
  obtain ⟨rfl, rfl⟩ := Prod.mk.inj (Except.ok.inj hequal)
  obtain ⟨D, hD, hlookup⟩ := h.locate hlocate
  have hp := h.valid.locate_mem hlocate
  cases hindex : (fs.disk.dirTable p).findIndex name with
  | none =>
      rw [h.valid.openFile_of_absent heap mode hlocate hindex] at hopen
      obtain ⟨rfl, rfl⟩ := Prod.mk.inj (Except.ok.inj hopen)
      have hnode : s.node (D ++ [name]) = none := by
        rw [h.node_eq hlookup, Consistent.links_of_absent hindex, Option.map_none]
      refine ⟨s, L, c, ⟨D, name, hD, ?_⟩, h⟩
      rw [FileTree.openFile, hnode]
  | some i =>
      have hflag := hentry i hindex
      have hchild := hconsistent.childEntry_of_findIndex hp hindex hflag
      obtain ⟨t, hsector, ht⟩ := hconsistent.file_of_child hp hchild hflag
      have hname := hconsistent.ordinaryName_of_file hp hindex hflag (Valid.locate_name hlocate)
      have hlink := Consistent.links_of_findIndex hname hindex hflag hsector
      have hnode : s.node (D ++ [name]) = some (.file (fs.disk.contents t)) := by
        rw [h.node_eq hlookup, hlink]
        rfl
      have hpath := (lookup_concat hlookup).trans hlink
      obtain ⟨f, hfile, hseek, hrun⟩ := h.valid.openFile heap mode hlocate hindex hsector
        (hconsistent.inRange t (Consistent.mem_objects_of_file ht)).1
      rw [hrun] at hopen
      cases hfind : fs.fileTable.find t with
      | some k =>
          rw [hfind] at hopen
          obtain ⟨rfl, rfl⟩ := Prod.mk.inj (Except.ok.inj hopen)
          refine ⟨s, L, c, ⟨D, name, hD, ?_⟩, h⟩
          simp only [FileTree.openFile, hnode, ← h.find_eq hpath, hfind]
      | none =>
          rw [hfind] at hopen
          obtain ⟨⟨z', table⟩, hadd, hequal⟩ := Except.bind_eq_ok.mp hopen
          obtain ⟨rfl, rfl⟩ := Prod.mk.inj (Except.ok.inj hequal)
          obtain ⟨k, rfl, hk, hnone, hfree, rfl⟩ | ⟨rfl, rfl, hfull⟩ := h.table.add_eq_ok hadd
          · refine ⟨s.setOpened k (some ⟨D ++ [name], mode, 0⟩), L, c, ⟨D, name, hD, ?_⟩,
              h.setEntry hk (h.table.add_free hk hnone hfind) (by simp) fun o' ho' => ?_⟩
            · simp only [FileTree.openFile, hnode, ← h.find_eq hpath, hfind, ← h.find_free_eq, hfree]
            · obtain rfl := Option.some.inj ho'
              exact ⟨_, t, rfl, rfl, hfile, hseek, Nat.zero_le _, rfl, hpath⟩
          · refine ⟨s, L, c, ⟨D, name, hD, ?_⟩, h⟩
            simp only [FileTree.openFile, hnode, ← h.find_eq hpath, hfind, ← h.find_free_eq, hfull]

theorem close (h : fs.Represents s L c) {i : ℤ} {answer : Answer}
    (hstep : FileSystemCall.Step fs ⟨.close i, heap, answer⟩ fs') :
    ∃ s' L' c', s.Step ⟨.close i, heap, answer⟩ s' ∧ fs'.Represents s' L' c' := by
  obtain ⟨⟨z, fs₁⟩, hclose, hequal⟩ := Except.bind_eq_ok.mp hstep
  obtain ⟨rfl, rfl⟩ := Prod.mk.inj (Except.ok.inj hequal)
  obtain ⟨⟨z', table⟩, htable, hequal⟩ := Except.bind_eq_ok.mp hclose
  obtain ⟨rfl, rfl⟩ := Prod.mk.inj (Except.ok.inj hequal)
  obtain ⟨k, rfl, hk, ⟨hnone, rfl, rfl⟩ | ⟨hsome, rfl, rfl⟩⟩ := OpenFileTable.close_cases htable
  · refine ⟨s, L, c, ⟨k, rfl, ?_⟩, h⟩
    rw [FileTree.close, (h.closed k hk).mp hnone]
  · obtain ⟨e, he⟩ := Option.isSome_iff_exists.mp hsome
    obtain ⟨o, t, ho, -⟩ := h.exists_stands hk he
    refine ⟨s.setOpened k none, L, c, ⟨k, rfl, ?_⟩,
      h.setEntry hk (h.table.set_none hk hsome) (by simp) fun o' ho' => by cases ho'⟩
    rw [FileTree.close, ho]

/-- What an id stands for, on the disk and for the user. -/
theorem get_cases (h : fs.Represents s L c) (i : ℤ) :
    fs.fileTable.get i = none ∧ s.get i = none ∨
      ∃ k : ℕ, i = k ∧ k < NbFileTableEntries ∧ ∃ e o t, fs.fileTable.get i = some e ∧
        s.get i = some o ∧ fs.fileTable.table k = some e ∧ fs.StandsFor k o t ∧ e.mode = o.mode ∧
          e.sector = t ∧ e.file.OpenedOn fs.disk t := by
  rw [OpenFileTable.get, FileTree.get]
  split
  · exact Or.inl ⟨rfl, rfl⟩
  rename_i hrange
  have hk : i.toNat < NbFileTableEntries := by omega
  cases he : fs.fileTable.table i.toNat with
  | none => exact Or.inl ⟨rfl, (h.closed _ hk).mp he⟩
  | some e =>
      obtain ⟨o, t, ho, hstands, hmode, hsector, hfile, -⟩ := h.exists_stands hk he
      exact Or.inr ⟨i.toNat, by omega, hk, e, o, t, rfl, ho, he, hstands, hmode, hsector, hfile⟩

/-- Another position in an entry that is in use. -/
theorem setPosition (h : fs.Represents s L c) {k pos : ℕ} (hk : k < NbFileTableEntries)
    {e : OpenFileEntry} {o : OpenedFile} (he : fs.fileTable.table k = some e)
    (hpath : fs.disk.links.lookup 1 o.path = some (false, t)) (hmode : e.mode = o.mode)
    (hsector : e.sector = t) (hfile : e.file.OpenedOn fs.disk t) {x : ℤ} (hx : x = pos) (hpos : pos ≤ fs.lengthOf t) :
    (fs.setFile k e { e.file with seekPosition := x }).Represents
      (s.setOpened k (some { o with pos := pos })) L c := by
  refine h.setEntry hk ?_ (by simp) fun o' ho' => ?_
  · have hused : (fs.setFile k e { e.file with seekPosition := x }).fileTable.used =
        fs.fileTable.used := by
      ext j
      simp only [OpenFileTable.mem_used, setFile, OpenFileTable.set, Int.toNat_natCast]
      by_cases hj : j = k
      · simp [hj, he]
      · simp [hj]
    refine ⟨?_, h.table.bound, fun j hj l hl e₁ e₂ h₁ h₂ hequal => ?_⟩
    · exact h.table.count.trans (congrArg (fun used => (used.card : ℤ)) hused.symm)
    · have hold {j : ℕ} {e' : OpenFileEntry}
          (h' : fs.fileTable.set k (some { e with file := { e.file with seekPosition := x } }) j =
            some e') : ∃ e'', fs.fileTable.table j = some e'' ∧ e''.sector = e'.sector := by
        by_cases hj : j = k
        · rw [OpenFileTable.set, if_pos hj] at h'
          rw [hj]
          exact ⟨e, he, by rw [← Option.some.inj h']⟩
        · rw [OpenFileTable.set, if_neg hj] at h'
          exact ⟨e', h', rfl⟩
      obtain ⟨e₁', h₁', hsector₁⟩ := hold h₁
      obtain ⟨e₂', h₂', hsector₂⟩ := hold h₂
      exact h.table.distinct j hj l hl e₁' e₂' h₁' h₂'
        (hsector₁.trans (hequal.trans hsector₂.symm))
  · obtain rfl := Option.some.inj ho'
    exact ⟨_, t, rfl, hmode, hfile, hx, hpos, hsector, hpath⟩

theorem read (h : fs.Represents s L c) {i : ℤ} {nbOctets : ℕ} {answer : Answer}
    (hsafe : nbOctets < 2 ^ 31)
    (hstep : FileSystemCall.Step fs ⟨.read i nbOctets, heap, answer⟩ fs') :
    ∃ s' L' c', s.Step ⟨.read i nbOctets, heap, answer⟩ s' ∧ fs'.Represents s' L' c' := by
  have hconsistent := h.valid.consistent
  obtain ⟨⟨count, buf, fs₁⟩, hread, hequal⟩ := Except.bind_eq_ok.mp hstep
  obtain ⟨rfl, rfl⟩ := Prod.mk.inj (Except.ok.inj hequal)
  obtain ⟨hget, hget'⟩ | ⟨k, rfl, hk, e, o, t, hget, hget', he, hstands, hmode, hsector, hfile⟩ :=
    h.get_cases i
  · simp only [FileSystem.read, hget, Except.ok.injEq, Prod.mk.injEq] at hread
    obtain ⟨rfl, rfl, rfl⟩ := hread
    refine ⟨s, L, c, ?_, h⟩
    simp [FileTree.Step, FileTree.read, hget']
  by_cases hmodeRead : e.mode = modeRead
  swap
  · simp only [FileSystem.read, hget, ne_eq, hmodeRead, not_false_eq_true, if_true,
      Except.ok.injEq, Prod.mk.injEq] at hread
    obtain ⟨rfl, rfl, rfl⟩ := hread
    refine ⟨s, L, c, ?_, h⟩
    rw [hmode] at hmodeRead
    simp [FileTree.Step, FileTree.read, hget', hmodeRead]
  have ht := hconsistent.mem_files_of_lookup hstands.path
  have hopen : fs.OpenAt k t modeRead o.pos := by
    rw [← hmodeRead, hmode]
    exact hstands.openAt
  -- The request is within the range of `int`, as the call returned.
  have hrange : o.pos < fs.lengthOf t → o.pos + nbOctets < 2 ^ 31 := fun hpos => by
    by_contra hlarge
    rw [hopen.read_of_overflow hconsistent ht (heap 0) hpos hsafe (by omega)] at hread
    cases hread
  obtain ⟨fs₂, hread', hopen', -, -⟩ := hopen.read hconsistent ht (heap 0) hrange
  obtain ⟨x, hset⟩ := read_of_mode hget hmodeRead hread
  obtain ⟨rfl, hrest⟩ := Prod.mk.inj (Except.ok.inj (hread'.symm.trans hread))
  obtain ⟨rfl, rfl⟩ := Prod.mk.inj hrest
  have hcontents : s.contents o.path = fs.disk.contents t := by
    rw [FileTree.contents, h.node, Disk.tree, Links.tree_eq_file.mpr ⟨t, hstands.path, rfl⟩]
  have hgot := map_copy_eq fs.disk t o.pos nbOctets (heap 0)
  have hlength : (((fs.disk.contents t).drop o.pos).take nbOctets).length =
      min nbOctets (fs.lengthOf t - o.pos) := by
    rw [← hgot, List.length_map, List.length_range, lengthOf]
  have hx : x = (o.pos + min nbOctets (fs.lengthOf t - o.pos) : ℕ) := by
    obtain ⟨e', he', -, -, hseek⟩ := hopen'.entry
    rw [hset, setFile_table_self] at he'
    rw [← hseek, ← Option.some.inj he']
  refine ⟨_, L, c, ?_, hset ▸ h.setPosition hk he hstands.path hmode hsector hfile hx ?_⟩
  · change _ = s.read k nbOctets
    rw [FileTree.read, hget']
    simp only [← hmode, hmodeRead, ne_eq, not_true_eq_false, if_false, hcontents, hlength,
      Int.toNat_natCast]
    rw [← hgot]
    rfl
  · have hwithin := hstands.openAt.within
    omega

/-- **New data in a file**, to the user. -/
theorem written (h : fs.Represents s L c) {disk' : Disk} {P : List Name}
    (hP : fs.disk.links.lookup 1 P = some (false, t))
    (hframe : ∀ x, x ∉ fs.disk.dataList t → disk' x = fs.disk x) :
    ({ fs with disk := disk' } : FileSystem).Represents
      (s.setNode P (some (.file (disk'.contents t)))) L c := by
  have hconsistent := h.valid.consistent
  have ht := hconsistent.mem_files_of_lookup hP
  have hheader {r : ℕ} (hr : r ∈ L.objects) := hconsistent.header_written ht hframe hr
  have hlookup := hconsistent.lookup_written ht hframe
  refine ⟨⟨hconsistent.written ht hframe,
    h.valid.mapFile.congr (hheader Consistent.zero_mem_objects), h.valid.current_mem,
    h.valid.current.congr (hheader (Consistent.mem_objects_of_dir h.valid.current_mem))⟩,
    fun q hq j hchild => ?_, ?_, ?_, h.table, h.closed, fun k hk o ho => ?_⟩
  · obtain ⟨name, hname, hmatch⟩ := h.named q hq j
      ((hconsistent.childEntry_written ht hframe hq).mp hchild)
    exact ⟨name, hname,
      ((hconsistent.sameEntry_written ht hframe hq hchild.high).matchesName name).trans hmatch⟩
  · rw [FileTree.setNode, h.node, hconsistent.tree_written ht hframe hP]
  · rw [hlookup]
    exact h.here
  · obtain ⟨r, ⟨hindex, ⟨e, hentry, hmode, hfile, hseek⟩, hwithin⟩, hsector, hpath⟩ :=
      h.opened k hk o ho
    have hsame := hheader (Consistent.mem_objects_of_file (hconsistent.mem_files_of_lookup hpath))
    refine ⟨r, ⟨hindex, ⟨e, hentry, hmode, hfile.congr hsame, hseek⟩, ?_⟩, hsector, ?_⟩
    · rwa [lengthOf, Disk.header_congr hsame]
    · rw [hlookup]
      exact hpath

theorem write (h : fs.Represents s L c) {i : ℤ} {bytes : List UInt8} {answer : Answer}
    (hsafe : bytes.length < 2 ^ 31)
    (hstep : FileSystemCall.Step fs ⟨.write i bytes, heap, answer⟩ fs') :
    ∃ s' L' c', s.Step ⟨.write i bytes, heap, answer⟩ s' ∧ fs'.Represents s' L' c' := by
  have hconsistent := h.valid.consistent
  obtain ⟨⟨count, fs₁⟩, hwrite, hequal⟩ := Except.bind_eq_ok.mp hstep
  obtain ⟨rfl, rfl⟩ := Prod.mk.inj (Except.ok.inj hequal)
  obtain ⟨hget, hget'⟩ | ⟨k, rfl, hk, e, o, t, hget, hget', he, hstands, hmode, hsector, hfile⟩ :=
    h.get_cases i
  · simp only [FileSystem.write, hget, Except.ok.injEq, Prod.mk.injEq] at hwrite
    obtain ⟨rfl, rfl⟩ := hwrite
    refine ⟨s, L, c, ?_, h⟩
    simp [FileTree.Step, FileTree.write, hget']
  by_cases hmodeWrite : e.mode = modeWrite
  swap
  · simp only [FileSystem.write, hget, ne_eq, hmodeWrite, not_false_eq_true, if_true,
      Except.ok.injEq, Prod.mk.injEq] at hwrite
    obtain ⟨rfl, rfl⟩ := hwrite
    refine ⟨s, L, c, ?_, h⟩
    rw [hmode] at hmodeWrite
    simp [FileTree.Step, FileTree.write, hget', hmodeWrite]
  have ht := hconsistent.mem_files_of_lookup hstands.path
  have hopen : fs.OpenAt k t modeWrite o.pos := by
    rw [← hmodeWrite, hmode]
    exact hstands.openAt
  have hwithin := hopen.within
  have hrange : o.pos < fs.lengthOf t → o.pos + bytes.length < 2 ^ 31 := fun hpos => by
    by_contra hlarge
    rw [hopen.write_of_overflow hconsistent ht (heap 0) (Mem.ofString bytes) hpos hsafe
      (by omega)] at hwrite
    cases hwrite
  obtain ⟨fs₂, hwrite', hopen', honly, hbytes⟩ :=
    hopen.write hconsistent ht (heap 0) (Mem.ofString bytes) hrange
  obtain ⟨x, hset⟩ := write_of_mode hget hmodeWrite hwrite
  obtain ⟨rfl, rfl⟩ := Prod.mk.inj (Except.ok.inj (hwrite'.symm.trans hwrite))
  have hcontents : s.contents o.path = fs.disk.contents t := by
    rw [FileTree.contents, h.node, Disk.tree, Links.tree_eq_file.mpr ⟨t, hstands.path, rfl⟩]
  have hlength : (fs.disk.contents t).length = fs.lengthOf t := by
    rw [Disk.contents, List.length_map, List.length_range, lengthOf]
  have hheader := hconsistent.header_written ht honly.disk (Consistent.mem_objects_of_file ht)
  have hnew : fs₂.disk.contents t = overwrite (fs.disk.contents t) o.pos bytes :=
    contents_eq_overwrite hheader hwithin hbytes
  have hx : x = (o.pos + min bytes.length (fs.lengthOf t - o.pos) : ℕ) := by
    obtain ⟨e', he', -, -, hseek⟩ := hopen'.entry
    rw [hset] at he'
    have hself : (fs.setFile k e { e.file with seekPosition := x }).fileTable.table k = some e' := he'
    rw [setFile_table_self] at hself
    rw [← hseek, ← Option.some.inj hself]
  have hdata := h.written hstands.path honly.disk
  have hpath : fs₂.disk.links.lookup 1 o.path = some (false, t) := by
    rw [hconsistent.lookup_written ht honly.disk]
    exact hstands.path
  have hpos : o.pos + min bytes.length (fs.lengthOf t - o.pos) ≤
      ({ fs with disk := fs₂.disk } : FileSystem).lengthOf t := by
    have hsame : ({ fs with disk := fs₂.disk } : FileSystem).lengthOf t = fs.lengthOf t := by
      rw [lengthOf, lengthOf, Disk.header_congr hheader]
    rw [hsame]
    omega
  rw [hnew] at hdata
  have hrep := hdata.setPosition hk he hpath hmode hsector (hfile.congr hheader) hx hpos
  refine ⟨_, L, c, ?_, by rw [hset]; exact hrep⟩
  change _ = s.write k bytes
  rw [FileTree.write, hget']
  simp only [← hmode, hmodeWrite, ne_eq, not_true_eq_false, if_false, hcontents, hlength,
    Int.toNat_natCast]

/-- **One call** is answered as the tree allows. -/
theorem step (h : fs.Represents s L c) {step : FileSystemStep}
    (hstep : FileSystemCall.Step fs step fs') (hsafe : step.call.Safe fs step.heap) :
    ∃ s' L' c', s.Step step s' ∧ fs'.Represents s' L' c' := by
  obtain ⟨call, heap, answer⟩ := step
  cases call with
  | createFile path initialSize => exact h.createFile hsafe hstep
  | createDir path => exact h.createDir hsafe hstep
  | removeFile path => exact h.removeFile hsafe hstep
  | removeDir path => exact h.removeDir hsafe hstep
  | changeCurrentDir path => exact h.changeCurrentDir hsafe hstep
  | openFile path mode => exact h.openFile hsafe hstep
  | close i => exact h.close hstep
  | read i nbOctets => exact h.read hsafe hstep
  | write i bytes => exact h.write hsafe hstep

/-- A formatted disk represents a root without anything in it. -/
theorem of_formatted (hvalid : fs.Valid Layout.initial 1) (hformatted : fs.disk.Formatted)
    (htable : ∀ k < NbFileTableEntries, fs.fileTable.table k = none)
    (hfiles : fs.fileTable.nbFiles = 0) : fs.Represents .initial Layout.initial 1 := by
  have hroot {p : ℕ} (hp : p ∈ Layout.initial.dirs) : p = 1 := Finset.mem_singleton.mp hp
  refine ⟨hvalid, fun p hp i hchild => ?_, ?_, rfl, .of_null htable hfiles,
    fun k hk => ⟨fun _ => rfl, fun _ => htable k hk⟩, fun k _ o ho => by cases ho⟩
  · rw [hroot hp] at hchild
    exact absurd hchild (hformatted.not_childEntry i)
  · funext P
    cases P with
    | nil => rfl
    | cons name rest =>
        have hnone : fs.disk.links 1 name = none :=
          hvalid.consistent.links_of_childless hvalid.consistent.root_mem hformatted.not_childEntry
        have hleft : fs.disk.links.lookup 1 (name :: rest) = none := by
          rw [Links.lookup_cons, hnone]
          induction rest with
          | nil => rfl
          | cons other rest ih => exact ih
        exact (Links.tree_eq_none.mpr hleft).symm

end Represents

/-- A safe run from a formatted disk has a run of the tree with the same answers, and ends in what that
run's end stands for. -/
theorem exists_represented {heap : Heap} {disk : Disk} {tableMemory : ℕ → Option OpenFileEntry}
    {fs₀ fs : FileSystem} {steps : List (Base.Step FileSystem FileSystemStep)}
    (hformat : format heap disk tableMemory = .ok fs₀)
    (htable : ∀ k < NbFileTableEntries, tableMemory k = none)
    (hrun : Trace FileSystemCall.Step fs₀ steps fs)
    (hsafe : ∀ x ∈ steps, x.label.call.Safe x.before x.label.heap) :
    ∃ steps' s, Trace FileTree.Step .initial steps' s ∧
      steps'.map (fun x => x.label) = steps.map (fun x => x.label) ∧
      ∃ L c, fs.Represents s L c := by
  obtain ⟨fs₁, hok, hformatted, hvalid, hnew, -⟩ := format_eq_ok heap disk tableMemory
  obtain rfl := Except.ok.inj (hok.symm.trans hformat)
  have hinitial : fs₁.Represents .initial Layout.initial 1 := .of_formatted hvalid hformatted
    (fun k hk => by rw [hnew]; exact htable k hk) (by rw [hnew]; rfl)
  exact (hrun.restrict hsafe).simulation
    (Q := fun fs s => ∃ L c, fs.Represents s L c) (fun fs step fs' s hrep hstep => by
      obtain ⟨L, c, hrep⟩ := hrep
      obtain ⟨s', L', c', hnext, hrep'⟩ := hrep.step hstep.1 hstep.2
      exact ⟨s', hnext, L', c', hrep'⟩) ⟨Layout.initial, 1, hinitial⟩

/-- **The file system is a tree of names and bytes.** In every run from a formatted disk whose calls
are safe, the answers are those of a run of the tree, and the disk ends up representing where that run
ends. -/
theorem refines_fileTree {heap : Heap} {disk : Disk} {tableMemory : ℕ → Option OpenFileEntry}
    {fs₀ fs : FileSystem} {steps : List (Base.Step FileSystem FileSystemStep)}
    (hformat : format heap disk tableMemory = .ok fs₀)
    (htable : ∀ k < NbFileTableEntries, tableMemory k = none)
    (hrun : Trace FileSystemCall.Step fs₀ steps fs)
    (hsafe : ∀ x ∈ steps, x.label.call.Safe x.before x.label.heap) :
    ∃ steps' s, Trace FileTree.Step .initial steps' s ∧
      steps'.map (fun x => x.label) = steps.map (fun x => x.label) ∧
      s.node.WellFormed ∧ ∃ L c, fs.Represents s L c := by
  obtain ⟨steps', s, hspec, hlabels, L, c, hrep⟩ := exists_represented hformat htable hrun hsafe
  exact ⟨steps', s, hspec, hlabels, hrep.wellFormed, L, c, hrep⟩

/-- Two bytes are written to a new file. -/
theorem refines_fileTree_write : ∃ fs₀ steps fs,
    format (fun _ _ => 0) (fun _ _ => 0) (fun _ => none) = .ok fs₀ ∧
      Trace FileSystemCall.Step fs₀ steps fs ∧
      steps.map (fun x => x.label.answer) = [.flag true, .value 0, .value 2] ∧
      ∃ steps' s, Trace FileTree.Step .initial steps' s ∧
        steps'.map (fun x => x.label) = steps.map (fun x => x.label) ∧
        s.node.WellFormed ∧ ∃ L c, fs.Represents s L c := by
  obtain ⟨fs₀, disk', i, hformat, hcreate, hvalid, hindex, hsector, hflag, hbytes, htable, hfiles⟩ :=
    exists_file_of_two
  have hlocate := hvalid.locate_of_component (show IsComponent [97] by decide)
  have ht : 5 ∈ (Layout.initial.insert 5 false).files :=
    Layout.mem_files_insert.mpr (Or.inr ⟨rfl, rfl⟩)
  obtain ⟨fs₁, hopen, hopenAt, hequal, -⟩ :=
    hvalid.openFile_of_null (fun _ _ => 0) modeWrite hlocate hindex hsector ht htable hfiles
  have hdisk : fs₁.disk = disk' := by rw [hequal]
  have hlength : fs₁.lengthOf 5 = 2 := by
    rw [lengthOf, hdisk, hbytes]
    rfl
  obtain ⟨fs₂, hwrite, -⟩ := hopenAt.write (hdisk ▸ hvalid.consistent) ht (fun _ => 0)
    (Mem.ofString [1, 2]) (n := 2) (fun _ => by omega)
  rw [hlength] at hwrite
  obtain ⟨fs₀', hformat', -, hvalid₀, -⟩ :=
    format_eq_ok (fun _ _ => 0) (fun _ _ => 0) (fun _ => none)
  obtain rfl := Except.ok.inj (hformat.symm.trans hformat')
  have hfirst : FileSystemCall.Step fs₀ ⟨.createFile [97] 2, fun _ _ => 0, .flag true⟩
      { fs₀ with disk := disk' } := by
    rw [FileSystemCall.Step, FileSystemCall.run, hcreate]
    rfl
  have hsecond : FileSystemCall.Step { fs₀ with disk := disk' }
      ⟨.openFile [97] modeWrite, fun _ _ => 0, .value 0⟩ fs₁ := by
    rw [FileSystemCall.Step, FileSystemCall.run, hopen]
    rfl
  have hthird : FileSystemCall.Step fs₁ ⟨.write 0 [1, 2], fun _ _ => 0, .value 2⟩ fs₂ := by
    change (fs₁.write (fun _ => 0) (0 : ℕ) (Mem.ofString [1, 2]) (2 : ℕ) >>= _) = _
    rw [hwrite]
    rfl
  refine ⟨fs₀, _, fs₂, hformat, ((Trace.nil fs₀).snoc hfirst |>.snoc hsecond).snoc hthird, rfl,
    refines_fileTree hformat (fun _ _ => rfl) (((Trace.nil fs₀).snoc hfirst |>.snoc hsecond).snoc
      hthird) fun x hx => ?_⟩
  simp only [List.nil_append, List.cons_append, List.mem_cons, List.not_mem_nil, or_false] at hx
  rcases hx with rfl | rfl | rfl
  · exact ⟨by rw [hvalid₀.locate_of_component (by decide)]; rfl, by norm_num, by decide⟩
  · refine ⟨1, [97], hlocate, fun j hj => ?_⟩
    rw [← Option.some.inj (hindex.symm.trans hj)]
    exact hflag
  · exact (by decide : [1, 2].length < 2 ^ 31)

end FileSystem

end Nachos
