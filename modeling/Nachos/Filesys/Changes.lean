/-
# Adding and removing one entry

The two ways an operation changes the tree. `Inserted` and `Removed` say what the
disk looks like afterwards, in terms of the disk before; they do not mention how
the operation got there. Both keep the disk consistent, with the layout that has
one object more or less.
-/

import Nachos.Filesys.Consistent

namespace Nachos

open Base

namespace Layout

/-- The layout with one more object. -/
def insert (L : Layout) (n : ℕ) (isDir : Bool) : Layout :=
  if isDir then { L with dirs := Insert.insert n L.dirs }
  else { L with files := Insert.insert n L.files }

/-- The layout with one object less. -/
def erase (L : Layout) (t : ℕ) : Layout := ⟨L.dirs.erase t, L.files.erase t⟩

theorem mem_dirs_insert {L : Layout} {n s : ℕ} {isDir : Bool} :
    s ∈ (L.insert n isDir).dirs ↔ s ∈ L.dirs ∨ isDir = true ∧ s = n := by
  cases isDir <;> simp [insert, or_comm]

theorem mem_files_insert {L : Layout} {n s : ℕ} {isDir : Bool} :
    s ∈ (L.insert n isDir).files ↔ s ∈ L.files ∨ isDir = false ∧ s = n := by
  cases isDir <;> simp [insert, or_comm]

theorem mem_objects_insert {L : Layout} {n s : ℕ} {isDir : Bool} :
    s ∈ (L.insert n isDir).objects ↔ s ∈ L.objects ∨ s = n := by
  rw [mem_objects, mem_objects, mem_dirs_insert, mem_files_insert]
  cases isDir <;> simp <;> tauto

theorem mem_objects_erase {L : Layout} {t s : ℕ} (h : s ∈ (L.erase t).objects) :
    s = 0 ∨ s ∈ L.objects ∧ s ≠ t := by
  rw [mem_objects] at h
  rw [mem_objects]
  simp only [erase, Finset.mem_erase] at h
  tauto

end Layout

/-- What the new object consists of. A new directory holds the two special entries
and no other. -/
def Disk.NewObject (d : Disk) (c n : ℕ) (isDir : Bool) : Prop :=
  if isDir then
    200 ≤ (d.header n).numBytes ∧ 2 ≤ (d.header n).listed ∧
      ((d.dirTable n).matchesName Directory.dot 0 = true ∧
        (d.dirTable n).isDirectory 0 = true ∧ (d.dirTable n).sector 0 = n) ∧
      ((d.dirTable n).matchesName Directory.dotDot 1 = true ∧
        (d.dirTable n).isDirectory 1 = true ∧ (d.dirTable n).sector 1 = c) ∧
      ∀ i, ¬ d.ChildEntry n i
  else (d.header n).numBytes ≤ 128 * (d.header n).listed ∧ (d.header n).numSectors ≤ 30

/-- `d'` is `d` with one more object, at header sector `n`, entered under `name` in
slot `i` of the directory `c`. -/
structure Disk.Inserted (d d' : Disk) (L : Layout) (c n i : ℕ) (name : Name) (isDir : Bool) :
    Prop where
  headerRange : n < 1024
  inRange : (d'.header n).InRange (d'.header n).listed
  nodup : (d'.owned n).Nodup
  wasFree : ∀ x ∈ d'.owned n, d.freeMap.testBit x = false
  slot : i < 10 ∧ (d.dirTable c).inUse i = false
  fresh : ∀ j < 10, (d.dirTable c).matchesName name j = false
  frame : d.Frame d' L c
  table : ∀ k < 200, (d'.dirTable c).table k = ((d.dirTable c).add name isDir i n).table k
  marks : ∀ x < 1024, d.freeMap.testBit x = true ∨ x ∈ d'.owned n → d'.freeMap.testBit x = true
  newObject : d'.NewObject c n isDir

/-- `d'` is `d` without the object `t`, the target of entry `i` of the directory `c`. -/
structure Disk.Removed (d d' : Disk) (L : Layout) (c i t : ℕ) : Prop where
  child : d.ChildEntry c i
  target : (d.dirTable c).sector i = t
  frame : d.Frame d' L c
  table : ∀ k < 200, (d'.dirTable c).table k = (d.dirTable c).table.setByte (20 * i) 0 k
  kept : ∀ s ∈ L.objects, s ≠ t → ∀ x ∈ d.owned s, d'.freeMap.testBit x = true
  childless : t ∈ L.dirs → ∀ j, ¬ d.ChildEntry t j

namespace Consistent

variable {d d' : Disk} {L : Layout} {c n i t : ℕ} {name : Name} {isDir : Bool}

/-- The sectors of an object whose header is right are sectors of the disk. -/
theorem lt_of_mem_owned {s x : ℕ} (hheader : s < 1024)
    (hdata : (d.header s).InRange (d.header s).listed) (hx : x ∈ d.owned s) : x < 1024 := by
  rcases List.mem_cons.mp hx with rfl | hx
  · exact hheader
  · obtain ⟨k, hk, rfl⟩ := Disk.mem_dataList.mp hx
    have hrange := hdata k hk
    simp only [Disk.dataSector]
    omega

/-- Every owned sector is a sector of the disk. -/
theorem owned_lt (h : Consistent d L) {s x : ℕ} (hs : s ∈ L.objects) (hx : x ∈ d.owned s) :
    x < 1024 :=
  lt_of_mem_owned (h.inRange s hs).1 (h.inRange s hs).2 hx

/-- In a directory with only the special entries, names tell the entries apart. -/
theorem eq_of_special {p j k : ℕ}
    (hdot : (d.dirTable p).matchesName Directory.dot 0 = true)
    (hdotDot : (d.dirTable p).matchesName Directory.dotDot 1 = true)
    (hempty : ∀ i, ¬ d.ChildEntry p i) (hj : j < 10) (hk : k < 10)
    (hjUse : (d.dirTable p).inUse j = true) (hkUse : (d.dirTable p).inUse k = true)
    (hname : Mem.strnEqual ((d.dirTable p).name j) ((d.dirTable p).name k) 9 = true) : j = k := by
  have hlow {l : ℕ} (hl : l < 10) (hlUse : (d.dirTable p).inUse l = true) : l = 0 ∨ l = 1 := by
    by_contra hhigh
    exact hempty l ⟨by omega, hl, hlUse⟩
  rw [Directory.matchesName, Bool.and_eq_true, FileNameMaxLen] at hdot hdotDot
  have hdiffer : ¬ Mem.strnEqual ((d.dirTable p).name 0) ((d.dirTable p).name 1) 9 = true := by
    intro hequal
    have := Mem.strnEqual_trans (Mem.strnEqual_trans (Mem.strnEqual_symm hdot.2) hequal) hdotDot.2
    revert this
    decide
  rcases hlow hj hjUse with rfl | rfl <;> rcases hlow hk hkUse with rfl | rfl
  · rfl
  · exact absurd hname hdiffer
  · exact absurd (Mem.strnEqual_symm hname) hdiffer
  · rfl

/-- An entry is ordinary whenever it was. -/
theorem childEntry_congr {p j : ℕ}
    (same : j < 10 → (d'.dirTable p).SameEntry (d.dirTable p) j) :
    d'.ChildEntry p j ↔ d.ChildEntry p j := by
  constructor
  · rintro ⟨hlow, hhigh, hinUse⟩
    exact ⟨hlow, hhigh, (same hhigh).inUse.symm.trans hinUse⟩
  · rintro ⟨hlow, hhigh, hinUse⟩
    exact ⟨hlow, hhigh, (same hhigh).inUse.trans hinUse⟩

/-- Names still tell those entries apart that are what they were. -/
theorem names_of_same (h : Consistent d L) {p j k : ℕ} (hp : p ∈ L.dirs) (hj : j < 10)
    (hk : k < 10) (samej : (d'.dirTable p).SameEntry (d.dirTable p) j)
    (samek : (d'.dirTable p).SameEntry (d.dirTable p) k)
    (hjUse : (d'.dirTable p).inUse j = true) (hkUse : (d'.dirTable p).inUse k = true)
    (hname : Mem.strnEqual ((d'.dirTable p).name j) ((d'.dirTable p).name k) 9 = true) :
    j = k := by
  rw [samej.inUse] at hjUse
  rw [samek.inUse] at hkUse
  exact h.names p hp j hj k hk hjUse hkUse (samej.names_agree samek hname)

/-! ## One more entry -/

section Inserted

variable (h : Consistent d L) (hc : c ∈ L.dirs) (ins : d.Inserted d' L c n i name isDir)

include h ins in
/-- The sectors of the new object belong to no other. -/
theorem notMem_owned {s x : ℕ} (hs : s ∈ L.objects) (hx : x ∈ d'.owned n) : x ∉ d.owned s := by
  intro hmem
  have hfree := ins.wasFree x hx
  rw [h.marked s hs x hmem] at hfree
  cases hfree

include h ins in
theorem new_notMem_objects : n ∉ L.objects := fun hn =>
  h.notMem_owned ins hn List.mem_cons_self List.mem_cons_self

include h ins in
theorem new_notMem_dirs : n ∉ L.dirs := fun hn =>
  h.new_notMem_objects ins (mem_objects_of_dir hn)

include h ins in
theorem new_notMem_files : n ∉ L.files := fun hn =>
  h.new_notMem_objects ins (mem_objects_of_file hn)

include h hc ins in
theorem owned_inserted {s : ℕ} (hs : s ∈ L.objects) : d'.owned s = d.owned s :=
  Disk.owned_congr (h.header_frame hc ins.frame hs)

include h hc ins in
/-- Every entry but the new one is what it was. -/
theorem sameEntry_inserted {p j : ℕ} (hp : p ∈ L.dirs) (hj : j < 10)
    (hold : ¬ (p = c ∧ j = i)) : (d'.dirTable p).SameEntry (d.dirTable p) j := by
  by_cases hequal : p = c
  · subst hequal
    intro k hk
    rw [ins.table _ (by omega)]
    exact (d.dirTable p).sameEntry_add name isDir i n (fun hji => hold ⟨rfl, hji⟩) k hk
  · exact h.sameEntry_frame hc ins.frame hp hequal hj

include ins in
theorem sameEntry_new : (d'.dirTable c).SameEntry ((d.dirTable c).add name isDir i n) i := by
  intro k hk
  have hslot := ins.slot.1
  exact ins.table _ (by omega)

include ins in
theorem sector_new : (d'.dirTable c).sector i = n := by
  have hn := ins.headerRange
  rw [(sameEntry_new ins).sector]
  exact (d.dirTable c).sector_add name isDir i n (by omega) (by omega)

include ins in
theorem isDirectory_new : (d'.dirTable c).isDirectory i = isDir := by
  rw [(sameEntry_new ins).isDirectory]
  exact (d.dirTable c).isDirectory_add name isDir i n

include ins in
theorem inUse_new : (d'.dirTable c).inUse i = true := by
  rw [(sameEntry_new ins).inUse]
  exact (d.dirTable c).inUse_add name isDir i n

include h hc ins in
/-- The new entry is behind the special ones. -/
theorem two_le_slot : 2 ≤ i := by
  have hfree := ins.slot.2
  have hdot := (h.dot c hc).1
  have hdotDot := (h.dotDot c hc).1
  rw [Directory.matchesName, Bool.and_eq_true] at hdot hdotDot
  by_contra hlt
  rcases (by omega : i = 0 ∨ i = 1) with rfl | rfl
  · rw [hdot.1] at hfree
    cases hfree
  · rw [hdotDot.1] at hfree
    cases hfree

include h hc ins in
/-- The ordinary entries afterwards: the new one and those there were. -/
theorem childEntry_inserted {p j : ℕ} (hp : p ∈ L.dirs) :
    d'.ChildEntry p j ↔ d.ChildEntry p j ∨ p = c ∧ j = i := by
  by_cases hnew : p = c ∧ j = i
  · obtain ⟨rfl, rfl⟩ := hnew
    exact ⟨fun _ => Or.inr ⟨rfl, rfl⟩, fun _ =>
      ⟨h.two_le_slot hc ins, ins.slot.1, inUse_new ins⟩⟩
  · rw [childEntry_congr fun hj => h.sameEntry_inserted hc ins hp hj hnew, or_iff_left hnew]

include h hc ins in
theorem child_inserted {p j : ℕ} (hp : p ∈ (L.insert n isDir).dirs) (hchild : d'.ChildEntry p j) :
    ∃ t : ℕ, (d'.dirTable p).sector j = t ∧ t ≠ 1 ∧
      if (d'.dirTable p).isDirectory j then t ∈ (L.insert n isDir).dirs
      else t ∈ (L.insert n isDir).files := by
  rcases Layout.mem_dirs_insert.mp hp with hp | ⟨rfl, rfl⟩
  · by_cases hnew : p = c ∧ j = i
    · obtain ⟨rfl, rfl⟩ := hnew
      refine ⟨n, sector_new ins, ?_, ?_⟩
      · rintro rfl
        exact h.new_notMem_dirs ins h.root_mem
      · rw [isDirectory_new ins]
        cases isDir <;> simp [Layout.mem_dirs_insert, Layout.mem_files_insert]
    · have hold := ((h.childEntry_inserted hc ins hp).mp hchild).resolve_right hnew
      obtain ⟨t, ht, hroot, hkind⟩ := h.child p hp j hold
      have same := h.sameEntry_inserted hc ins hp hold.high hnew
      refine ⟨t, same.sector.trans ht, hroot, ?_⟩
      rw [same.isDirectory]
      split at hkind <;> rename_i hflag
      · rw [if_pos hflag]
        exact Layout.mem_dirs_insert.mpr (Or.inl hkind)
      · rw [if_neg hflag]
        exact Layout.mem_files_insert.mpr (Or.inl hkind)
  · obtain ⟨-, -, -, -, hempty⟩ := ins.newObject
    exact absurd hchild (hempty j)

include h hc ins in
/-- An entry there was does not compare equal to the new one. -/
theorem name_ne_new {j : ℕ} (hj : j < 10) (hold : j ≠ i)
    (hinUse : (d'.dirTable c).inUse j = true) :
    ¬ Mem.strnEqual ((d'.dirTable c).name j) ((d'.dirTable c).name i) 9 = true := by
  intro hequal
  have same := h.sameEntry_inserted hc ins hc hj (fun hnew => hold hnew.2)
  have hnone := ins.fresh j hj
  rw [← same.matchesName, Directory.matchesName, hinUse, Bool.true_and, FileNameMaxLen,
    Mem.strnEqual_congr_left hequal, Mem.strnEqual_congr_left (sameEntry_new ins).name,
    (d.dirTable c).name_add name isDir i n] at hnone
  cases hnone

include h hc ins in
theorem names_inserted {p j k : ℕ} (hp : p ∈ L.dirs) (hj : j < 10) (hk : k < 10)
    (hjUse : (d'.dirTable p).inUse j = true) (hkUse : (d'.dirTable p).inUse k = true)
    (hname : Mem.strnEqual ((d'.dirTable p).name j) ((d'.dirTable p).name k) 9 = true) :
    j = k := by
  by_cases hjNew : p = c ∧ j = i
  · obtain ⟨rfl, rfl⟩ := hjNew
    by_contra hne
    exact h.name_ne_new hc ins hk (Ne.symm hne) hkUse (Mem.strnEqual_symm hname)
  by_cases hkNew : p = c ∧ k = i
  · obtain ⟨rfl, rfl⟩ := hkNew
    by_contra hne
    exact h.name_ne_new hc ins hj hne hjUse hname
  exact h.names_of_same hp hj hk (h.sameEntry_inserted hc ins hp hj hjNew)
    (h.sameEntry_inserted hc ins hp hk hkNew) hjUse hkUse hname

include h ins in
/-- No older entry refers to the new object. -/
theorem sector_ne_new {p j : ℕ} (hp : p ∈ L.dirs) (hchild : d.ChildEntry p j) :
    (d.dirTable p).sector j ≠ n := by
  obtain ⟨t, ht, -, hkind⟩ := h.child p hp j hchild
  intro hequal
  have htn : t = n := by
    rw [ht] at hequal
    exact_mod_cast hequal
  subst htn
  split at hkind
  · exact h.new_notMem_dirs ins hkind
  · exact h.new_notMem_files ins hkind

include h hc ins in
theorem unique_inserted {p q j k : ℕ} (hp : p ∈ L.dirs) (hq : q ∈ L.dirs)
    (hj : d'.ChildEntry p j) (hk : d'.ChildEntry q k)
    (hsector : (d'.dirTable p).sector j = (d'.dirTable q).sector k) : p = q ∧ j = k := by
  by_cases hjNew : p = c ∧ j = i
  · obtain ⟨rfl, rfl⟩ := hjNew
    by_contra hne
    have hkNew : ¬ (q = p ∧ k = j) := fun hnew => hne ⟨hnew.1.symm, hnew.2.symm⟩
    have hkOld := ((h.childEntry_inserted hc ins hq).mp hk).resolve_right hkNew
    rw [sector_new ins, (h.sameEntry_inserted hc ins hq hkOld.high hkNew).sector] at hsector
    exact h.sector_ne_new ins hq hkOld hsector.symm
  have hjOld := ((h.childEntry_inserted hc ins hp).mp hj).resolve_right hjNew
  rw [(h.sameEntry_inserted hc ins hp hjOld.high hjNew).sector] at hsector
  by_cases hkNew : q = c ∧ k = i
  · obtain ⟨rfl, rfl⟩ := hkNew
    rw [sector_new ins] at hsector
    exact absurd hsector (h.sector_ne_new ins hp hjOld)
  have hkOld := ((h.childEntry_inserted hc ins hq).mp hk).resolve_right hkNew
  rw [(h.sameEntry_inserted hc ins hq hkOld.high hkNew).sector] at hsector
  exact h.unique p hp q hq j k hjOld hkOld hsector

include h hc ins in
/-- The entry of an older object is still there. -/
theorem childEntry_of_old {p j t : ℕ} (hp : p ∈ L.dirs) (hchild : d.ChildEntry p j)
    (hsector : (d.dirTable p).sector j = t) :
    d'.ChildEntry p j ∧ (d'.dirTable p).sector j = t := by
  have hold : ¬ (p = c ∧ j = i) := by
    rintro ⟨rfl, rfl⟩
    have hfree := ins.slot.2
    rw [hchild.inUse] at hfree
    cases hfree
  exact ⟨(h.childEntry_inserted hc ins hp).mpr (Or.inl hchild),
    (h.sameEntry_inserted hc ins hp hchild.high hold).sector.trans hsector⟩

include h hc ins in
/-- The special entries of an older directory are what they were. -/
theorem special_inserted {p j : ℕ} (hp : p ∈ L.dirs) (hj : j < 2) :
    (d'.dirTable p).SameEntry (d.dirTable p) j :=
  h.sameEntry_inserted hc ins hp (by omega) fun hnew => by
    have := h.two_le_slot hc ins
    omega

include h hc ins in
/-- The new object goes below its parent. -/
theorem acyclic_inserted : ∃ rank : ℕ → ℕ, ∀ p ∈ (L.insert n isDir).dirs, ∀ j,
    d'.ChildEntry p j → ∀ t ∈ (L.insert n isDir).dirs, (d'.dirTable p).sector j = t →
      rank p < rank t := by
  obtain ⟨rank, hrank⟩ := h.acyclic
  have hold {p : ℕ} (hp : p ∈ L.dirs) : p ≠ n := by
    rintro rfl
    exact h.new_notMem_dirs ins hp
  refine ⟨Function.update rank n (rank c + 1), fun p hp' j hchild t ht' hsector => ?_⟩
  rcases Layout.mem_dirs_insert.mp hp' with hp | ⟨rfl, rfl⟩
  · rw [Function.update_of_ne (hold hp)]
    by_cases hnew : p = c ∧ j = i
    · obtain ⟨rfl, rfl⟩ := hnew
      rw [sector_new ins] at hsector
      rw [← Int.natCast_inj.mp hsector, Function.update_self]
      omega
    · have hentry := ((h.childEntry_inserted hc ins hp).mp hchild).resolve_right hnew
      rw [(h.sameEntry_inserted hc ins hp hentry.high hnew).sector] at hsector
      rcases Layout.mem_dirs_insert.mp ht' with ht | ⟨-, rfl⟩
      · rw [Function.update_of_ne (hold ht)]
        exact hrank p hp j hentry t ht hsector
      · exact absurd hsector (h.sector_ne_new ins hp hentry)
  · exact absurd hchild (ins.newObject.2.2.2.2 j)

include h hc ins in
/-- Different objects still have no sector in common. -/
theorem separate_inserted {s t : ℕ} (hs : s ∈ L.objects ∨ s = n) (ht : t ∈ L.objects ∨ t = n)
    (hne : s ≠ t) : (d'.owned s).Disjoint (d'.owned t) := by
  rcases hs with hs | rfl <;> rcases ht with ht | rfl
  · rw [h.owned_inserted hc ins hs, h.owned_inserted hc ins ht]
    exact h.separate s hs t ht hne
  · rw [h.owned_inserted hc ins hs]
    exact fun x hx hxn => h.notMem_owned ins hs hxn hx
  · rw [h.owned_inserted hc ins ht]
    exact fun x hxn hx => h.notMem_owned ins ht hxn hx
  · exact absurd rfl hne

include h hc ins in
/-- **One more entry keeps the disk consistent.** -/
theorem inserted : Consistent d' (L.insert n isDir) := by
  have hheader {s : ℕ} (hs : s ∈ L.objects) : d'.header s = d.header s :=
    Disk.header_congr (h.header_frame hc ins.frame hs)
  have hspecial {p j : ℕ} (hp : p ∈ L.dirs) (hj : j < 2) := h.special_inserted hc ins hp hj
  exact
    { root_mem := Layout.mem_dirs_insert.mpr (Or.inl h.root_mem)
      zero_notMem := by
        have hzero : (0 : ℕ) ≠ n := fun hequal =>
          h.new_notMem_objects ins (hequal ▸ zero_mem_objects)
        simp [Layout.mem_dirs_insert, Layout.mem_files_insert, h.zero_notMem, hzero]
      kinds := by
        intro s hs hfile
        rcases Layout.mem_dirs_insert.mp hs with hs | ⟨hdir, rfl⟩ <;>
          rcases Layout.mem_files_insert.mp hfile with hfile | ⟨hplain, hequal⟩
        · exact h.kinds s hs hfile
        · exact h.new_notMem_dirs ins (hequal ▸ hs)
        · exact h.new_notMem_files ins hfile
        · rw [hdir] at hplain
          cases hplain
      inRange := by
        intro s hs
        rcases Layout.mem_objects_insert.mp hs with hs | rfl
        · rw [hheader hs]
          exact h.inRange s hs
        · exact ⟨ins.headerRange, ins.inRange⟩
      nodup := by
        intro s hs
        rcases Layout.mem_objects_insert.mp hs with hs | rfl
        · rw [h.owned_inserted hc ins hs]
          exact h.nodup s hs
        · exact ins.nodup
      separate := by
        intro s hs t ht hne
        exact h.separate_inserted hc ins (Layout.mem_objects_insert.mp hs)
          (Layout.mem_objects_insert.mp ht) hne
      marked := by
        intro s hs x hx
        rcases Layout.mem_objects_insert.mp hs with hs | rfl
        · rw [h.owned_inserted hc ins hs] at hx
          exact ins.marks x (h.owned_lt hs hx) (Or.inl (h.marked s hs x hx))
        · exact ins.marks x (lt_of_mem_owned ins.headerRange ins.inRange hx) (Or.inr hx)
      mapHeader := by
        rw [hheader zero_mem_objects]
        exact h.mapHeader
      dirHeader := by
        intro s hs
        rcases Layout.mem_dirs_insert.mp hs with hs | ⟨rfl, rfl⟩
        · rw [hheader (mem_objects_of_dir hs)]
          exact h.dirHeader s hs
        · exact ⟨ins.newObject.1, ins.newObject.2.1⟩
      fileHeader := by
        intro s hs
        rcases Layout.mem_files_insert.mp hs with hs | ⟨rfl, rfl⟩
        · rw [hheader (mem_objects_of_file hs)]
          exact h.fileHeader s hs
        · exact ins.newObject
      dot := by
        intro p hp
        rcases Layout.mem_dirs_insert.mp hp with hp | ⟨rfl, rfl⟩
        · have same := hspecial hp (show 0 < 2 by omega)
          rw [same.matchesName, same.isDirectory, same.sector]
          exact h.dot p hp
        · exact ins.newObject.2.2.1
      dotDot := by
        intro p hp
        rcases Layout.mem_dirs_insert.mp hp with hp | ⟨rfl, rfl⟩
        · have same := hspecial hp (show 1 < 2 by omega)
          rw [same.matchesName, same.isDirectory]
          exact h.dotDot p hp
        · obtain ⟨-, -, -, ⟨hname, hflag, -⟩, -⟩ := ins.newObject
          exact ⟨hname, hflag⟩
      rootParent := by
        rw [(hspecial h.root_mem (show 1 < 2 by omega)).sector]
        exact h.rootParent
      child := fun p hp j hj => h.child_inserted hc ins hp hj
      names := by
        intro p hp j hj k hk hjUse hkUse hname
        rcases Layout.mem_dirs_insert.mp hp with hp | ⟨rfl, rfl⟩
        · exact h.names_inserted hc ins hp hj hk hjUse hkUse hname
        · obtain ⟨-, -, hdot, hdotDot, hempty⟩ := ins.newObject
          exact eq_of_special hdot.1 hdotDot.1 hempty hj hk hjUse hkUse hname
      unique := by
        intro p hp q hq j k hj hk hsector
        rcases Layout.mem_dirs_insert.mp hp with hp | ⟨rfl, rfl⟩
        · rcases Layout.mem_dirs_insert.mp hq with hq | ⟨rfl, rfl⟩
          · exact h.unique_inserted hc ins hp hq hj hk hsector
          · exact absurd hk (ins.newObject.2.2.2.2 k)
        · exact absurd hj (ins.newObject.2.2.2.2 j)
      fileParent := by
        intro t ht
        rcases Layout.mem_files_insert.mp ht with ht | ⟨rfl, rfl⟩
        · obtain ⟨p, hp, j, hchild, hsector⟩ := h.fileParent t ht
          exact ⟨p, Layout.mem_dirs_insert.mpr (Or.inl hp), j,
            h.childEntry_of_old hc ins hp hchild hsector⟩
        · exact ⟨c, Layout.mem_dirs_insert.mpr (Or.inl hc), i,
            (h.childEntry_inserted hc ins hc).mpr (Or.inr ⟨rfl, rfl⟩), sector_new ins⟩
      dirParent := by
        intro t ht hroot
        rcases Layout.mem_dirs_insert.mp ht with ht | ⟨rfl, rfl⟩
        · obtain ⟨p, hp, hparent, j, hchild, hsector⟩ := h.dirParent t ht hroot
          exact ⟨p, Layout.mem_dirs_insert.mpr (Or.inl hp),
            (hspecial ht (show 1 < 2 by omega)).sector.trans hparent, j,
            h.childEntry_of_old hc ins hp hchild hsector⟩
        · obtain ⟨-, -, -, ⟨-, -, hparent⟩, -⟩ := ins.newObject
          exact ⟨c, Layout.mem_dirs_insert.mpr (Or.inl hc), hparent, i,
            (h.childEntry_inserted hc ins hc).mpr (Or.inr ⟨rfl, rfl⟩), sector_new ins⟩
      acyclic := by
        exact h.acyclic_inserted hc ins }

end Inserted

/-! ## One entry less -/

section Removed

variable (h : Consistent d L) (hc : c ∈ L.dirs) (rem : d.Removed d' L c i t)

include h hc rem in
/-- The target of an ordinary entry is an object, but neither the root nor the free
map. -/
theorem target_mem : t ≠ 1 ∧ t ≠ 0 ∧ (t ∈ L.dirs ∨ t ∈ L.files) := by
  obtain ⟨s, hs, hroot, hkind⟩ := h.child c hc i rem.child
  have hequal : s = t := by
    have := rem.target
    rw [hs] at this
    exact_mod_cast this
  subst hequal
  have hmem : s ∈ L.dirs ∨ s ∈ L.files := by
    split at hkind
    · exact Or.inl hkind
    · exact Or.inr hkind
  refine ⟨hroot, ?_, hmem⟩
  rintro rfl
  exact hmem.elim h.zero_notMem.1 h.zero_notMem.2

include hc rem in
/-- The directory an entry is removed from is not what the entry refers to. -/
theorem parent_ne_target : c ≠ t := by
  rintro rfl
  exact rem.childless hc i rem.child

include h hc rem in
theorem sameEntry_removed {p j : ℕ} (hp : p ∈ L.dirs) (hj : j < 10)
    (hkept : ¬ (p = c ∧ j = i)) : (d'.dirTable p).SameEntry (d.dirTable p) j := by
  by_cases hequal : p = c
  · subst hequal
    intro k hk
    rw [rem.table _ (by omega)]
    exact (d.dirTable p).sameEntry_setByte 0 (fun hji => hkept ⟨rfl, hji⟩) k hk
  · exact h.sameEntry_frame hc rem.frame hp hequal hj

include rem in
theorem inUse_removed : (d'.dirTable c).inUse i = false := by
  have hhigh := rem.child.high
  have hflag := rem.table (20 * i) (by omega)
  have hcleared := (d.dirTable c).inUse_setByte_zero i
  simp only [Directory.inUse] at hcleared ⊢
  rw [hflag]
  exact hcleared

include h hc rem in
theorem childEntry_removed {p j : ℕ} (hp : p ∈ L.dirs) :
    d'.ChildEntry p j ↔ d.ChildEntry p j ∧ ¬ (p = c ∧ j = i) := by
  by_cases hgone : p = c ∧ j = i
  · obtain ⟨rfl, rfl⟩ := hgone
    refine ⟨fun hchild => ?_, fun hboth => absurd ⟨rfl, rfl⟩ hboth.2⟩
    have hinUse := hchild.inUse
    rw [inUse_removed rem] at hinUse
    cases hinUse
  · rw [childEntry_congr fun hj => h.sameEntry_removed hc rem hp hj hgone, and_iff_left hgone]

include h hc rem in
/-- The entry of every other object stays. -/
theorem childEntry_of_ne {p j s : ℕ} (hp : p ∈ L.dirs) (hchild : d.ChildEntry p j)
    (hsector : (d.dirTable p).sector j = s) (hne : s ≠ t) :
    p ≠ t ∧ d'.ChildEntry p j ∧ (d'.dirTable p).sector j = s := by
  have hkept : ¬ (p = c ∧ j = i) := by
    rintro ⟨rfl, rfl⟩
    have := rem.target
    rw [hsector] at this
    exact hne (by exact_mod_cast this)
  refine ⟨?_, (h.childEntry_removed hc rem hp).mpr ⟨hchild, hkept⟩,
    (h.sameEntry_removed hc rem hp hchild.high hkept).sector.trans hsector⟩
  rintro rfl
  exact rem.childless hp j hchild

include h hc rem in
theorem special_removed {p j : ℕ} (hp : p ∈ L.dirs) (hj : j < 2) :
    (d'.dirTable p).SameEntry (d.dirTable p) j :=
  h.sameEntry_removed hc rem hp (by omega) fun hold => by
    have := rem.child.low
    omega

include h hc rem in
theorem child_removed {p j : ℕ} (hp : p ∈ L.dirs) (hchild : d'.ChildEntry p j) :
    ∃ s : ℕ, (d'.dirTable p).sector j = s ∧ s ≠ 1 ∧
      if (d'.dirTable p).isDirectory j then s ∈ (L.erase t).dirs else s ∈ (L.erase t).files := by
  obtain ⟨hold, hkept⟩ := (h.childEntry_removed hc rem hp).mp hchild
  have same := h.sameEntry_removed hc rem hp hold.high hkept
  obtain ⟨s, hs, hroot, hkind⟩ := h.child p hp j hold
  have hne : s ≠ t := by
    rintro rfl
    exact hkept (h.unique p hp c hc j i hold rem.child (hs.trans rem.target.symm))
  refine ⟨s, same.sector.trans hs, hroot, ?_⟩
  rw [same.isDirectory]
  split at hkind <;> rename_i hflag
  · rw [if_pos hflag]
    exact Finset.mem_erase.mpr ⟨hne, hkind⟩
  · rw [if_neg hflag]
    exact Finset.mem_erase.mpr ⟨hne, hkind⟩

include h hc rem in
/-- **One entry less keeps the disk consistent.** -/
theorem removed : Consistent d' (L.erase t) := by
  obtain ⟨htroot, htzero, -⟩ := h.target_mem hc rem
  have hobj {s : ℕ} (hs : s ∈ (L.erase t).objects) : s ∈ L.objects ∧ s ≠ t := by
    rcases Layout.mem_objects_erase hs with rfl | hs
    · exact ⟨zero_mem_objects, Ne.symm htzero⟩
    · exact hs
  have hdirs {s : ℕ} (hs : s ∈ (L.erase t).dirs) : s ≠ t ∧ s ∈ L.dirs := Finset.mem_erase.mp hs
  have hfiles {s : ℕ} (hs : s ∈ (L.erase t).files) : s ≠ t ∧ s ∈ L.files := Finset.mem_erase.mp hs
  have hheader {s : ℕ} (hs : s ∈ L.objects) : d'.header s = d.header s :=
    Disk.header_congr (h.header_frame hc rem.frame hs)
  have howned {s : ℕ} (hs : s ∈ L.objects) : d'.owned s = d.owned s :=
    Disk.owned_congr (h.header_frame hc rem.frame hs)
  have hspecial {p j : ℕ} (hp : p ∈ L.dirs) (hj : j < 2) := h.special_removed hc rem hp hj
  exact
    { root_mem := Finset.mem_erase.mpr ⟨Ne.symm htroot, h.root_mem⟩
      zero_notMem := ⟨fun hzero => h.zero_notMem.1 (hdirs hzero).2,
        fun hzero => h.zero_notMem.2 (hfiles hzero).2⟩
      kinds := fun s hs hfile => h.kinds s (hdirs hs).2 (hfiles hfile).2
      inRange := by
        intro s hs
        rw [hheader (hobj hs).1]
        exact h.inRange s (hobj hs).1
      nodup := by
        intro s hs
        rw [howned (hobj hs).1]
        exact h.nodup s (hobj hs).1
      separate := by
        intro s hs r hr hne
        rw [howned (hobj hs).1, howned (hobj hr).1]
        exact h.separate s (hobj hs).1 r (hobj hr).1 hne
      marked := by
        intro s hs x hx
        rw [howned (hobj hs).1] at hx
        exact rem.kept s (hobj hs).1 (hobj hs).2 x hx
      mapHeader := by
        rw [hheader zero_mem_objects]
        exact h.mapHeader
      dirHeader := by
        intro s hs
        rw [hheader (mem_objects_of_dir (hdirs hs).2)]
        exact h.dirHeader s (hdirs hs).2
      fileHeader := by
        intro s hs
        rw [hheader (mem_objects_of_file (hfiles hs).2)]
        exact h.fileHeader s (hfiles hs).2
      dot := by
        intro p hp
        have same := hspecial (hdirs hp).2 (show 0 < 2 by omega)
        rw [same.matchesName, same.isDirectory, same.sector]
        exact h.dot p (hdirs hp).2
      dotDot := by
        intro p hp
        have same := hspecial (hdirs hp).2 (show 1 < 2 by omega)
        rw [same.matchesName, same.isDirectory]
        exact h.dotDot p (hdirs hp).2
      rootParent := by
        rw [(hspecial h.root_mem (show 1 < 2 by omega)).sector]
        exact h.rootParent
      child := fun p hp j hj => h.child_removed hc rem (hdirs hp).2 hj
      names := by
        intro p hp j hj k hk hjUse hkUse hname
        have hold {l : ℕ} (hl : l < 10) (hlUse : (d'.dirTable p).inUse l = true) :
            (d'.dirTable p).SameEntry (d.dirTable p) l :=
          h.sameEntry_removed hc rem (hdirs hp).2 hl (by
            rintro ⟨rfl, rfl⟩
            rw [inUse_removed rem] at hlUse
            cases hlUse)
        exact h.names_of_same (hdirs hp).2 hj hk (hold hj hjUse) (hold hk hkUse) hjUse hkUse hname
      unique := by
        intro p hp q hq j k hj hk hsector
        obtain ⟨hjOld, hjKept⟩ := (h.childEntry_removed hc rem (hdirs hp).2).mp hj
        obtain ⟨hkOld, hkKept⟩ := (h.childEntry_removed hc rem (hdirs hq).2).mp hk
        rw [(h.sameEntry_removed hc rem (hdirs hp).2 hjOld.high hjKept).sector,
          (h.sameEntry_removed hc rem (hdirs hq).2 hkOld.high hkKept).sector] at hsector
        exact h.unique p (hdirs hp).2 q (hdirs hq).2 j k hjOld hkOld hsector
      fileParent := by
        intro s hs
        obtain ⟨p, hp, j, hchild, hsector⟩ := h.fileParent s (hfiles hs).2
        obtain ⟨hpt, hentry⟩ := h.childEntry_of_ne hc rem hp hchild hsector (hfiles hs).1
        exact ⟨p, Finset.mem_erase.mpr ⟨hpt, hp⟩, j, hentry⟩
      dirParent := by
        intro s hs hroot
        obtain ⟨p, hp, hparent, j, hchild, hsector⟩ := h.dirParent s (hdirs hs).2 hroot
        obtain ⟨hpt, hentry⟩ := h.childEntry_of_ne hc rem hp hchild hsector (hdirs hs).1
        exact ⟨p, Finset.mem_erase.mpr ⟨hpt, hp⟩,
          (hspecial (hdirs hs).2 (show 1 < 2 by omega)).sector.trans hparent, j, hentry⟩
      acyclic := by
        obtain ⟨rank, hrank⟩ := h.acyclic
        refine ⟨rank, fun p hp j hchild s hs hsector => ?_⟩
        obtain ⟨hold, hkept⟩ := (h.childEntry_removed hc rem (hdirs hp).2).mp hchild
        rw [(h.sameEntry_removed hc rem (hdirs hp).2 hold.high hkept).sector] at hsector
        exact hrank p (hdirs hp).2 j hold s (hdirs hs).2 hsector }

end Removed

/-! ## The data of a plain file -/

section Written

variable (h : Consistent d L) (ht : t ∈ L.files)
  (hframe : ∀ x, x ∉ d.dataList t → d' x = d x)

include h ht hframe in
theorem header_written {s : ℕ} (hs : s ∈ L.objects) : d' s = d s :=
  hframe s fun hmem => h.header_ne_data hs (mem_objects_of_file ht) hmem rfl

include h ht hframe in
/-- The bytes of every other object are unchanged. -/
theorem bytes_written {s k : ℕ} (hs : s ∈ L.objects) (hne : s ≠ t)
    (hk : k < 128 * (d.header s).listed) : d'.bytes s k = d.bytes s k :=
  Disk.bytes_congr (h.header_written ht hframe hs) (hframe _ fun hmem =>
    h.data_ne_data hs (mem_objects_of_file ht) hne
      (Disk.dataSector_mem (show k / 128 < _ by omega)) hmem rfl)

include h ht hframe in
theorem sameEntry_written {p i : ℕ} (hp : p ∈ L.dirs) (hi : i < 10) :
    (d'.dirTable p).SameEntry (d.dirTable p) i := by
  intro k hk
  have hlisted := (h.dirHeader p hp).2
  refine h.bytes_written ht hframe (mem_objects_of_dir hp) ?_ (by omega)
  rintro rfl
  exact h.kinds p hp ht

include h ht hframe in
theorem testBit_written {x : ℕ} (hx : x < 1024) : d'.freeMap.testBit x = d.freeMap.testBit x := by
  refine BitMap.testBit_congr (Mem.word_congr fun k hk => ?_)
  refine h.bytes_written ht hframe zero_mem_objects ?_ ?_
  · rintro rfl
    exact h.zero_notMem.2 ht
  · rw [h.map_listed]
    omega

include h ht hframe in
theorem childEntry_written {p j : ℕ} (hp : p ∈ L.dirs) :
    d'.ChildEntry p j ↔ d.ChildEntry p j :=
  childEntry_congr fun hj => h.sameEntry_written ht hframe hp hj

include h ht hframe in
/-- **A write to the data of a plain file keeps the disk consistent.** -/
theorem written : Consistent d' L := by
  have hheader {s : ℕ} (hs : s ∈ L.objects) : d'.header s = d.header s :=
    Disk.header_congr (h.header_written ht hframe hs)
  have howned {s : ℕ} (hs : s ∈ L.objects) : d'.owned s = d.owned s :=
    Disk.owned_congr (h.header_written ht hframe hs)
  have same {p j : ℕ} (hp : p ∈ L.dirs) (hj : j < 10) := h.sameEntry_written ht hframe hp hj
  refine
    { root_mem := h.root_mem
      zero_notMem := h.zero_notMem
      kinds := h.kinds
      inRange := fun s hs => by rw [hheader hs]; exact h.inRange s hs
      nodup := fun s hs => by rw [howned hs]; exact h.nodup s hs
      separate := fun s hs r hr hne => by
        rw [howned hs, howned hr]; exact h.separate s hs r hr hne
      marked := fun s hs x hx => by
        rw [howned hs] at hx
        rw [h.testBit_written ht hframe (h.owned_lt hs hx)]
        exact h.marked s hs x hx
      mapHeader := by rw [hheader zero_mem_objects]; exact h.mapHeader
      dirHeader := fun s hs => by
        rw [hheader (mem_objects_of_dir hs)]; exact h.dirHeader s hs
      fileHeader := fun s hs => by
        rw [hheader (mem_objects_of_file hs)]; exact h.fileHeader s hs
      dot := fun p hp => by
        have samep := same hp (show 0 < 10 by omega)
        rw [samep.matchesName, samep.isDirectory, samep.sector]
        exact h.dot p hp
      dotDot := fun p hp => by
        have samep := same hp (show 1 < 10 by omega)
        rw [samep.matchesName, samep.isDirectory]
        exact h.dotDot p hp
      rootParent := by
        rw [(same h.root_mem (show 1 < 10 by omega)).sector]
        exact h.rootParent
      child := fun p hp j hj => by
        have samep := same hp hj.high
        rw [samep.sector, samep.isDirectory]
        exact h.child p hp j ((h.childEntry_written ht hframe hp).mp hj)
      names := fun p hp j hj k hk hjUse hkUse hname =>
        h.names_of_same hp hj hk (same hp hj) (same hp hk) hjUse hkUse hname
      unique := fun p hp q hq j k hj hk hsector => by
        rw [(same hp hj.high).sector, (same hq hk.high).sector] at hsector
        exact h.unique p hp q hq j k ((h.childEntry_written ht hframe hp).mp hj)
          ((h.childEntry_written ht hframe hq).mp hk) hsector
      fileParent := fun s hs => ?_
      dirParent := fun s hs hroot => ?_
      acyclic := ?_ }
  · obtain ⟨p, hp, j, hchild, hsector⟩ := h.fileParent s hs
    exact ⟨p, hp, j, (h.childEntry_written ht hframe hp).mpr hchild,
      (same hp hchild.high).sector.trans hsector⟩
  · obtain ⟨p, hp, hparent, j, hchild, hsector⟩ := h.dirParent s hs hroot
    exact ⟨p, hp, (same hs (show 1 < 10 by omega)).sector.trans hparent, j,
      (h.childEntry_written ht hframe hp).mpr hchild, (same hp hchild.high).sector.trans hsector⟩
  · obtain ⟨rank, hrank⟩ := h.acyclic
    refine ⟨rank, fun p hp j hchild s hs hsector => ?_⟩
    rw [(same hp hchild.high).sector] at hsector
    exact hrank p hp j ((h.childEntry_written ht hframe hp).mp hchild) s hs hsector

include h ht hframe in
/-- The readable contents of every other plain file are unchanged. -/
theorem contents_written {s : ℕ} (hs : s ∈ L.files) (hne : s ≠ t) :
    d'.contents s = d.contents s := by
  have hobj := mem_objects_of_file (L := L) hs
  rw [Disk.contents, Disk.contents, Disk.header_congr (h.header_written ht hframe hobj)]
  apply List.map_congr_left
  intro k hk
  have hlength := (h.fileHeader s hs).1
  have hk' := List.mem_range.mp hk
  exact h.bytes_written ht hframe hobj hne (by omega)

end Written

end Consistent

end Nachos
