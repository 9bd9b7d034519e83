/-
# The tree of directories

The entries of the directories on a consistent disk, as a store of objects listed by name, and the tree
that a user sees: what an absolute path of ordinary names stands for. A path with the entries `"."` and
`".."` in it leads where its names say, and each change to the disk changes the tree at one path.
-/

import Nachos.Base.NameTree
import Nachos.Filesys.SafeRemoval
import Nachos.Filesys.OpenEntries

namespace Nachos

open Base

/-- A name that fits its buffers and is not special. -/
structure OrdinaryName (name : Name) : Prop where
  string : (0 : UInt8) ∉ name ∧ name.length < FileNameMaxLen
  ne_dot : name ≠ Directory.dot
  ne_dotDot : name ≠ Directory.dotDot

instance (name : Name) : Decidable (OrdinaryName name) :=
  decidable_of_iff (((0 : UInt8) ∉ name ∧ name.length < FileNameMaxLen) ∧
    name ≠ Directory.dot ∧ name ≠ Directory.dotDot)
    ⟨fun h => ⟨h.1, h.2.1, h.2.2⟩, fun h => ⟨h.string, h.ne_dot, h.ne_dotDot⟩⟩

/-- Names that match the same entry are the same. -/
theorem Directory.eq_of_matchesName {dir : Directory} {name other : Name} {j : ℕ}
    (hname : (0 : UInt8) ∉ name ∧ name.length < FileNameMaxLen)
    (hother : (0 : UInt8) ∉ other ∧ other.length < FileNameMaxLen)
    (h : dir.matchesName name j = true) (h' : dir.matchesName other j = true) : name = other := by
  rw [matchesName, Bool.and_eq_true] at h h'
  exact Mem.eq_of_strnEqual hname.1 hother.1 hname.2 hother.2
    (Mem.strnEqual_trans (Mem.strnEqual_symm h.2) h'.2)

namespace Disk

/-- What a directory lists, the two special entries included. -/
def entries (d : Disk) : Links ℕ Name := fun p name =>
  ((d.dirTable p).findIndex name).map fun j =>
    ((d.dirTable p).isDirectory j, ((d.dirTable p).sector j).toNat)

/-- What a directory lists under ordinary names. -/
def links (d : Disk) : Links ℕ Name := fun p name =>
  if OrdinaryName name then d.entries p name else none

/-- The tree below the root directory. -/
def tree (d : Disk) : NameTree Name (List UInt8) := d.links.tree 1 d.contents

variable {d d' : Disk} {p q : ℕ}

theorem entries_congr (same : (d'.dirTable p).SameTable (d.dirTable p)) :
    d'.entries p = d.entries p := by
  funext name
  rw [entries, entries, same.findIndex]
  cases hindex : (d.dirTable p).findIndex name with
  | none => rfl
  | some j =>
      have sameEntry := same.sameEntry j (Directory.findIndex_eq_some hindex).1
      simp only [Option.map_some, sameEntry.isDirectory, sameEntry.sector]

theorem links_congr (same : (d'.dirTable p).SameTable (d.dirTable p)) : d'.links p = d.links p := by
  funext name
  rw [links, links, entries_congr same]

/-- Where a path leads is a matter of the entries. -/
theorem resolve_eq_some {path : List Name} :
    d.resolve p path = some q ↔ d.entries.lookup p path = some (true, q) := by
  induction path generalizing p with
  | nil => simp [resolve]
  | cons name rest ih =>
      rw [resolve, Links.lookup_cons]
      have hleft {x : Option (Bool × ℕ)} (hx : ∀ s, x ≠ some (true, s)) :
          ¬ rest.foldl d.entries.enter x = some (true, q) := fun h => by
        obtain ⟨s, hs, -⟩ := Links.foldl_enter_eq_some h
        exact hx s hs
      cases hindex : (d.dirTable p).findIndex name with
      | none =>
          have hentry : d.entries p name = none := by rw [entries, hindex, Option.map_none]
          rw [hentry]
          simpa using hleft (x := none) (by simp)
      | some j =>
          have hentry : d.entries p name = some ((d.dirTable p).isDirectory j,
            ((d.dirTable p).sector j).toNat) := by rw [entries, hindex, Option.map_some]
          rw [hentry]
          dsimp only
          split
          · rename_i hflag
            rw [hflag]
            exact ih
          · rename_i hflag
            rw [Bool.not_eq_true] at hflag
            rw [hflag]
            simpa using hleft (x := some (false, ((d.dirTable p).sector j).toNat)) (by simp)

end Disk

namespace Consistent

variable {d d' : Disk} {L : Layout} {c n p q i t : ℕ} {b isDir : Bool} {name : Name}

/-- What a directory lists under an ordinary name is the object of an ordinary entry. -/
theorem links_eq_some (h : Consistent d L) (hp : p ∈ L.dirs) (hlink : d.links p name = some (b, t)) :
    OrdinaryName name ∧ ∃ j, (d.dirTable p).findIndex name = some j ∧ d.ChildEntry p j ∧
      (d.dirTable p).isDirectory j = b ∧ (d.dirTable p).sector j = t ∧ t ≠ 1 ∧
      if b then t ∈ L.dirs else t ∈ L.files := by
  obtain ⟨hname, hentry⟩ := Option.ite_none_right_eq_some.mp hlink
  obtain ⟨j, hindex, hequal⟩ := Option.map_eq_some_iff.mp hentry
  obtain ⟨rfl, rfl⟩ := Prod.mk.inj hequal
  have hchild := h.childEntry_of_name hp hindex hname.string hname.ne_dot hname.ne_dotDot
  obtain ⟨s, hs, hroot, hkind⟩ := h.child p hp j hchild
  have hsector : ((d.dirTable p).sector j).toNat = s := by rw [hs, Int.toNat_natCast]
  rw [hsector]
  exact ⟨hname, j, hindex, hchild, rfl, hs, hroot, hkind⟩

theorem links_of_findIndex (hname : OrdinaryName name)
    (hindex : (d.dirTable p).findIndex name = some i)
    (hflag : (d.dirTable p).isDirectory i = b) (hsector : (d.dirTable p).sector i = t) :
    d.links p name = some (b, t) := by
  rw [Disk.links, if_pos hname, Disk.entries, hindex, Option.map_some, hflag, hsector,
    Int.toNat_natCast]

theorem links_eq_none_iff (hname : OrdinaryName name) :
    d.links p name = none ↔ (d.dirTable p).findIndex name = none := by
  rw [Disk.links, if_pos hname, Disk.entries, Option.map_eq_none_iff]

/-- The name of a file is not special. -/
theorem ordinaryName_of_file (h : Consistent d L) (hp : p ∈ L.dirs)
    (hindex : (d.dirTable p).findIndex name = some i) (hflag : (d.dirTable p).isDirectory i = false)
    (hname : (0 : UInt8) ∉ name ∧ name.length < FileNameMaxLen) : OrdinaryName name := by
  refine ⟨hname, fun hdot => ?_, fun hdotDot => ?_⟩
  · rw [h.isDirectory_of_special hp hindex (Or.inl hdot)] at hflag
    cases hflag
  · rw [h.isDirectory_of_special hp hindex (Or.inr hdotDot)] at hflag
    cases hflag

theorem links_of_absent (hindex : (d.dirTable p).findIndex name = none) : d.links p name = none := by
  rw [Disk.links, Disk.entries, hindex, Option.map_none, ite_self]

/-- A directory without ordinary entries lists nothing under ordinary names. -/
theorem links_of_childless (h : Consistent d L) (hp : p ∈ L.dirs)
    (hchildless : ∀ j, ¬ d.ChildEntry p j) : d.links p name = none := by
  by_contra hsome
  obtain ⟨⟨b, s⟩, hs⟩ := Option.ne_none_iff_exists'.mp hsome
  obtain ⟨-, j, -, hchild, -⟩ := h.links_eq_some hp hs
  exact hchildless j hchild

/-- **The directories are a tree.** -/
theorem isTree (h : Consistent d L) : d.links.IsTree {p | p ∈ L.dirs} 1 where
  root_mem := h.root_mem
  closed p hp name q hlink := by
    obtain ⟨-, -, -, -, -, -, -, hq⟩ := h.links_eq_some hp hlink
    exact hq
  ne_root p hp name b hlink := by
    obtain ⟨-, -, -, -, -, -, hroot, -⟩ := h.links_eq_some hp hlink
    exact hroot rfl
  unique p hp q hq name other b b' t hlink hlink' := by
    obtain ⟨hname, j, hindex, hchild, -, hsector, -⟩ := h.links_eq_some hp hlink
    obtain ⟨hother, k, hindex', hchild', -, hsector', -⟩ := h.links_eq_some hq hlink'
    obtain ⟨rfl, rfl⟩ := h.unique p hp q hq j k hchild hchild' (hsector.trans hsector'.symm)
    exact ⟨rfl, Directory.eq_of_matchesName hname.string hother.string
      (Directory.findIndex_eq_some hindex).2.1 (Directory.findIndex_eq_some hindex').2.1⟩

theorem mem_files_of_lookup (h : Consistent d L) {P : List Name}
    (hP : d.links.lookup 1 P = some (false, t)) : t ∈ L.files := by
  cases P using List.reverseRecOn with
  | nil => cases hP
  | append_singleton D name =>
      rw [Links.lookup_concat] at hP
      obtain ⟨p, hp, hlink⟩ := Links.enter_eq_some.mp hP
      obtain ⟨-, -, -, -, -, -, -, hfile⟩ := h.links_eq_some (h.isTree.lookup_mem hp) hlink
      exact hfile

theorem findIndex_dot (h : Consistent d L) (hp : p ∈ L.dirs) :
    (d.dirTable p).findIndex Directory.dot = some 0 := by
  rw [Directory.findIndex, List.find?_range_eq_some]
  exact ⟨(h.dot p hp).1, List.mem_range.mpr (show 0 < 10 by omega), by omega⟩

theorem findIndex_dotDot (h : Consistent d L) (hp : p ∈ L.dirs) :
    (d.dirTable p).findIndex Directory.dotDot = some 1 := by
  rw [Directory.findIndex, List.find?_range_eq_some]
  refine ⟨(h.dotDot p hp).1, List.mem_range.mpr (show 1 < 10 by omega), fun j hj => ?_⟩
  obtain rfl : j = 0 := by omega
  rw [Bool.not_eq_true', ← Bool.not_eq_true]
  intro hmatch
  have hequal := Directory.eq_of_matchesName (by decide) (by decide) (h.dot p hp).1 hmatch
  revert hequal
  decide

/-- **The special entries** of a directory are itself and its parent. -/
theorem completes (h : Consistent d L) :
    d.entries.Completes d.links {p | p ∈ L.dirs} 1 Directory.dot Directory.dotDot fun name =>
      (0 : UInt8) ∉ name ∧ name.length < FileNameMaxLen where
  ordinary p _ name hname hdot hdotDot := (if_pos ⟨hname, hdot, hdotDot⟩).symm
  listsSelf p hp := by
    rw [Disk.entries, h.findIndex_dot hp, Option.map_some, (h.dot p hp).2.1, (h.dot p hp).2.2,
      Int.toNat_natCast]
  listsRoot := by
    rw [Disk.entries, h.findIndex_dotDot h.root_mem, Option.map_some, (h.dotDot 1 h.root_mem).2,
      h.rootParent]
    rfl
  listsParent p hp name q hlink := by
    obtain ⟨-, j, -, hchild, -, hsector, hroot, hq⟩ := h.links_eq_some hp hlink
    obtain ⟨p', hp', hparent, k, hchild', hsector'⟩ := h.dirParent q hq hroot
    obtain ⟨rfl, -⟩ := h.unique p hp p' hp' j k hchild hchild' (hsector.trans hsector'.symm)
    rw [Disk.entries, h.findIndex_dotDot hq, Option.map_some, (h.dotDot q hq).2, hparent,
      Int.toNat_natCast]

/-! ## Changes to the tree -/

section Inserted

variable (h : Consistent d L) (hc : c ∈ L.dirs) (ins : d.Inserted d' L c n i name isDir)
  (hname : (0 : UInt8) ∉ name ∧ name.length < FileNameMaxLen)

include h hc ins in
/-- A name that was free is not special. -/
theorem ordinaryName_inserted
    (hname : (0 : UInt8) ∉ name ∧ name.length < FileNameMaxLen) : OrdinaryName name := by
  refine ⟨hname, ?_, ?_⟩
  · rintro rfl
    have hfree := ins.fresh 0 (by omega)
    rw [(h.dot c hc).1] at hfree
    cases hfree
  · rintro rfl
    have hfree := ins.fresh 1 (by omega)
    rw [(h.dotDot c hc).1] at hfree
    cases hfree

include h hc ins hname in
/-- What was listed is listed, and nothing else but the new object. -/
theorem links_inserted (hq : q ∈ L.dirs) {other : Name} (hother : ¬ (q = c ∧ other = name)) :
    d'.links q other = d.links q other := by
  by_cases hordinary : OrdinaryName other
  swap
  · rw [Disk.links, Disk.links, if_neg hordinary, if_neg hordinary]
  have hmatch {j : ℕ} (hj : j < 10) : (d'.dirTable q).matchesName other j =
      (d.dirTable q).matchesName other j := by
    by_cases hnew : q = c ∧ j = i
    · obtain ⟨rfl, rfl⟩ := hnew
      rw [Directory.matchesName_of_free ins.slot.2, (sameEntry_new ins).matchesName,
        ← Bool.not_eq_true]
      intro hmatch
      have hself : ((d.dirTable q).add name isDir j n).matchesName name j = true := by
        rw [Directory.matchesName_add]
        exact Mem.strnEqual_refl _ _
      exact hother ⟨rfl, Directory.eq_of_matchesName hordinary.string hname hmatch hself⟩
    · exact (h.sameEntry_inserted hc ins hq hj hnew).matchesName other
  have hfind : (d'.dirTable q).findIndex other = (d.dirTable q).findIndex other :=
    Directory.findIndex_congr rfl fun j hj => hmatch hj
  rw [Disk.links, Disk.links, if_pos hordinary, if_pos hordinary, Disk.entries, Disk.entries, hfind]
  cases hindex : (d.dirTable q).findIndex other with
  | none => rfl
  | some j =>
      obtain ⟨hj, hyes, -⟩ := Directory.findIndex_eq_some hindex
      have same := h.sameEntry_inserted hc ins hq hj fun hnew => by
        rw [hnew.1, hnew.2, Directory.matchesName_of_free ins.slot.2] at hyes
        cases hyes
      simp only [Option.map_some, same.isDirectory, same.sector]

include h hc ins hname in
/-- **A new object** is at one more path. -/
theorem lookup_inserted {D : List Name} (hD : d.links.lookup 1 D = some (true, c)) :
    d'.links.lookup 1 = Function.update (d.links.lookup 1) (D ++ [name]) (some (isDir, n)) := by
  have hordinary := h.ordinaryName_inserted hc ins hname
  have hnew : d'.links c name = some (isDir, n) :=
    links_of_findIndex hordinary ins.findIndex (isDirectory_new ins) (sector_new ins)
  have hold : d.links c name = none := by
    rw [links_eq_none_iff hordinary, Directory.findIndex_eq_none]
    exact ins.fresh
  rw [← hnew]
  refine h.isTree.lookup_eq_update hD (fun q hq other hother => ?_) (fun t ht => ?_) fun t ht => ?_
  · exact h.links_inserted hc ins hname hq hother
  · rw [hold] at ht
    cases ht
  · rw [hnew] at ht
    obtain ⟨rfl, rfl⟩ := Prod.mk.inj (Option.some.inj ht)
    intro other
    have hmem : n ∈ (L.insert n true).dirs := Layout.mem_dirs_insert.mpr (Or.inr ⟨rfl, rfl⟩)
    exact (h.inserted hc ins).links_of_childless hmem ins.newObject.2.2.2.2

include h hc ins hname in
theorem tree_inserted {D : List Name} (hD : d.links.lookup 1 D = some (true, c)) :
    d'.tree = Function.update d.tree (D ++ [name])
      (some (if isDir then .dir else .file (d'.contents n))) := by
  exact Links.tree_eq_update (h.lookup_inserted hc ins hname hD) fun P t _ ht =>
    h.contents_frame hc ins.frame (h.mem_files_of_lookup ht)

end Inserted

section Removed

variable (h : Consistent d L) (hc : c ∈ L.dirs) (rem : d.Removed d' L c i t)
  (hname : OrdinaryName name) (hindex : (d.dirTable c).findIndex name = some i)

include h hc rem hname hindex in
/-- Nothing is listed any more under the name, and everything else is. -/
theorem links_removed (hq : q ∈ L.dirs) (other : Name) :
    d'.links q other = if q = c ∧ other = name then none else d.links q other := by
  by_cases hordinary : OrdinaryName other
  swap
  · have hother : ¬ (q = c ∧ other = name) := fun hboth => hordinary (hboth.2 ▸ hname)
    rw [if_neg hother, Disk.links, Disk.links, if_neg hordinary, if_neg hordinary]
  have hmatches := (Directory.findIndex_eq_some hindex).2.1
  have hinUse (other : Name) {j : ℕ} (h : (d.dirTable q).matchesName other j = true) :
      (d.dirTable q).inUse j = true := by
    rw [Directory.matchesName, Bool.and_eq_true] at h
    exact h.1
  split
  · rename_i hboth
    obtain ⟨rfl, rfl⟩ := hboth
    rw [links_eq_none_iff hordinary, Directory.findIndex_eq_none]
    intro j hj
    by_cases hgone : j = i
    · rw [hgone]
      exact Directory.matchesName_of_free (inUse_removed rem) other
    · rw [(h.sameEntry_removed hc rem hq hj fun hboth => hgone hboth.2).matchesName,
        ← Bool.not_eq_true]
      intro hmatch
      refine hgone (h.names q hq j hj i rem.child.high (hinUse other hmatch) rem.child.inUse ?_)
      rw [Directory.matchesName, Bool.and_eq_true] at hmatch hmatches
      exact Mem.strnEqual_trans hmatch.2 (Mem.strnEqual_symm hmatches.2)
  · rename_i hother
    have hmatch {j : ℕ} (hj : j < 10) : (d'.dirTable q).matchesName other j =
        (d.dirTable q).matchesName other j := by
      by_cases hgone : q = c ∧ j = i
      · obtain ⟨rfl, rfl⟩ := hgone
        rw [Directory.matchesName_of_free (inUse_removed rem), eq_comm, ← Bool.not_eq_true]
        exact fun hmatch => hother ⟨rfl, Directory.eq_of_matchesName hordinary.string
          hname.string hmatch hmatches⟩
      · exact (h.sameEntry_removed hc rem hq hj hgone).matchesName other
    have hfind : (d'.dirTable q).findIndex other = (d.dirTable q).findIndex other :=
      Directory.findIndex_congr rfl fun j hj => hmatch hj
    rw [Disk.links, Disk.links, if_pos hordinary, if_pos hordinary, Disk.entries, Disk.entries, hfind]
    cases hfound : (d.dirTable q).findIndex other with
    | none => rfl
    | some j =>
        obtain ⟨hj, hyes, -⟩ := Directory.findIndex_eq_some hfound
        have same := h.sameEntry_removed hc rem hq hj fun hgone => by
          obtain ⟨rfl, rfl⟩ := hgone
          exact hother ⟨rfl, Directory.eq_of_matchesName hordinary.string hname.string hyes hmatches⟩
        simp only [Option.map_some, same.isDirectory, same.sector]

include h hc rem hname hindex in
/-- **An object less** is at one path less. -/
theorem lookup_removed {D : List Name} (hD : d.links.lookup 1 D = some (true, c)) :
    d'.links.lookup 1 = Function.update (d.links.lookup 1) (D ++ [name]) none := by
  have hgone : d'.links c name = none := by
    rw [h.links_removed hc rem hname hindex hc, if_pos ⟨rfl, rfl⟩]
  rw [← hgone]
  refine h.isTree.lookup_eq_update hD (fun q hq other hother => ?_) (fun s hs other => ?_)
    fun s hs => ?_
  · rw [h.links_removed hc rem hname hindex hq, if_neg hother]
  · obtain ⟨-, j, hindex', -, -, hsector, -, hdir⟩ := h.links_eq_some hc hs
    obtain rfl := Option.some.inj (hindex.symm.trans hindex')
    have hst : s = t := by exact_mod_cast hsector.symm.trans rem.target
    rw [hst] at hdir ⊢
    exact h.links_of_childless hdir (rem.childless hdir)
  · rw [hgone] at hs
    cases hs

include h hc rem hname hindex in
theorem tree_removed {D : List Name} (hD : d.links.lookup 1 D = some (true, c)) :
    d'.tree = Function.update d.tree (D ++ [name]) none :=
  Links.tree_eq_update (h.lookup_removed hc rem hname hindex hD) fun _ _ _ hs =>
    h.contents_frame hc rem.frame (h.mem_files_of_lookup hs)

end Removed

section Written

variable (h : Consistent d L) (ht : t ∈ L.files) (hframe : ∀ x, x ∉ d.dataList t → d' x = d x)

include h ht hframe in
theorem lookup_written : d'.links.lookup 1 = d.links.lookup 1 := by
  refine h.isTree.lookup_congr fun q hq other => ?_
  have same : (d'.dirTable q).SameTable (d.dirTable q) :=
    ⟨rfl, fun j hj => h.sameEntry_written ht hframe hq hj⟩
  rw [Disk.links_congr same]

include h ht hframe in
/-- **New data in a file** are at its path. -/
theorem tree_written {P : List Name} (hP : d.links.lookup 1 P = some (false, t)) :
    d'.tree = Function.update d.tree P (some (.file (d'.contents t))) :=
  h.isTree.tree_write (h.lookup_written ht hframe) hP fun _ _ hs hne =>
    h.contents_written ht hframe (h.mem_files_of_lookup hs) hne

end Written

end Consistent

end Nachos
