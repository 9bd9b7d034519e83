/-
# Creating a directory and removing it again

`CreateDirInCurrentDirectory` asks `Allocate` for a file of `DirectoryFileSize`
times the size of an entry, which is 32 sectors; a header has room for 30 of their
numbers. The last two go behind the header object in memory and never reach the
disk. `RemoveDirInCurrentDirectory` reads the header back from its sector and gives
32 sectors back, the last two according to whatever lies behind the new header
object. Before that it looks whether the directory is empty, and that is decided by
the bytes that the write through the stale header has left.
-/

import Nachos.Filesys.NewDirectory

namespace Nachos

open Base

/-! ## The write through a stale header -/

namespace FileHeader

/-- The write of a new directory through the header `h` follows pointer `k`, and it
leads to sector `s`. -/
def Leads (h : FileHeader) (s k : ℕ) : Prop :=
  128 * k < min 4000 h.numBytes.toNat ∧ (h.dataSectors k).toNat = s

instance (h : FileHeader) (s : ℕ) : DecidablePred (h.Leads s) := fun k =>
  inferInstanceAs (Decidable (128 * k < min 4000 h.numBytes.toNat ∧ (h.dataSectors k).toNat = s))

/-- Byte `r` of sector `s` after the entries `table` of a new directory were written
through the header `h`. Of several pointers to the sector the last one counts;
behind the end of the file the sector gets the bytes `uninit` of the buffer. -/
def leftAt (h : FileHeader) (d : Disk) (table uninit : Mem) (s r : ℕ) : UInt8 :=
  let k := Nat.findGreatest (h.Leads s) 31
  if h.Leads s k then
    if 128 * k + r < min 4000 h.numBytes.toNat then table (128 * k + r)
    else if ((128 * k + r : ℕ) : ℤ) < h.numBytes then d s r
    else uninit (128 * k + r)
  else d s r

end FileHeader

/-- **The write of a new directory through any header**, when it returns. -/
theorem Directory.writeBack_eq_leftAt {newDir : Directory} {u : Mem} {d disk₁ : Disk}
    {f : OpenFile} (hsize : newDir.tableSize = 200)
    (hwrite : newDir.writeBack u d f = .ok disk₁) (s : ℕ) {r : ℕ} (hr : r < 128) :
    disk₁ s r = f.hdr.leftAt d newDir.table u s r := by
  rw [Directory.writeBack, hsize] at hwrite
  obtain ⟨⟨result, disk₂⟩, hok, hequal⟩ := Except.map_eq_ok.mp hwrite
  cases hequal
  have hcount : f.transferred 4000 0 = min 4000 f.hdr.numBytes.toNat := by
    rw [OpenFile.transferred, Nat.sub_zero]
  have hrange := OpenFile.inRange_of_writeAt (n := 4000) (by omega) hok
  obtain ⟨disk₃, hwritten, hframe, hdata⟩ := f.writeAt_natCast u d newDir.table 4000 0
    (m := (f.transferred 4000 0 + 127) / 128) (fun _ => by omega) hrange (by omega) (by omega)
  rw [Nat.cast_zero] at hwritten
  obtain ⟨-, rfl⟩ := Prod.mk.inj (Except.ok.inj (hwritten.symm.trans hok))
  rw [hcount, Nat.zero_add] at hframe hdata
  simp only [FileHeader.leftAt]
  split
  · rename_i hleads
    generalize hk : Nat.findGreatest (f.hdr.Leads s) 31 = k at hleads ⊢
    obtain ⟨hfollowed, hsector⟩ := hleads
    have hlast (j : ℕ) (hj : k < j) (hjcount : 128 * j < min 4000 f.hdr.numBytes.toNat) :
        (f.hdr.dataSectors j).toNat ≠ s := fun hequal =>
      Nat.findGreatest_is_greatest (hk ▸ hj) (show j ≤ 31 by omega) ⟨hjcount, hequal⟩
    have hbyte := hdata (128 * k + r) (by omega) (by omega) (Or.inr (by omega)) (by
      rw [show (128 * k + r) / 128 = k by omega, hsector]
      exact hlast)
    rw [OpenFile.fileBytes, OpenFile.fileBytes, show (128 * k + r) / 128 = k by omega,
      show (128 * k + r) % 128 = r by omega, hsector] at hbyte
    simpa using hbyte
  · rename_i hnone
    refine congrFun (hframe s fun i _ hi hequal => hnone ?_) r
    exact Nat.findGreatest_spec (P := f.hdr.Leads s) (show i ≤ 31 by omega) ⟨hi, hequal⟩

/-! ## Giving everything back -/

/-- The sector that the `k`-th `Find` after this state returns, counted from zero. -/
def Disk.nextFree (d : Disk) (k : ℕ) : ℤ := (d.freeMap.afterFinds k).find.1

/-- The free map and the current directory read the same. -/
structure FileSystem.SameView (fs fs' : FileSystem) : Prop where
  freeMap : ∀ u u', ∃ map map', fs.fetchFreeMap u = .ok map ∧ fs'.fetchFreeMap u' = .ok map' ∧
    ∀ x < NumSectors, map'.testBit x = map.testBit x
  lookup : ∀ u u', ∃ dir dir', fs.fetchCurrentDirectory u = .ok dir ∧
    fs'.fetchCurrentDirectory u' = .ok dir' ∧ ∀ name, dir'.find name = dir.find name

/-- Removing the directory `name` from `fs'` succeeds and brings back what `fs` showed. -/
def FileSystem.GivesBack (fs fs' : FileSystem) (heap : Heap) (name : Name) : Prop :=
  ∃ fs'', fs'.removeDirInCurrentDirectory heap name = .ok (true, fs'') ∧ fs.SameView fs''

/-- What has to come together for a directory created on `d` to be removed again: the
entries from the third on come out unused when `table` is written through the stale
header `h`, and `behind`, where the removal puts its copy of the header, already
holds the two sector numbers that the header on disk has no room for. -/
structure Disk.Undoable (d : Disk) (h : FileHeader) (table uninit behind : Mem) : Prop where
  empty : ∀ i, 2 ≤ i → i < 10 →
    h.leftAt d table uninit (d.nextFree (20 * i / 128 + 1)).toNat (20 * i % 128) = 0
  behind : behind.int32 128 = d.nextFree 31 ∧ behind.int32 132 = d.nextFree 32 ∨
    behind.int32 128 = d.nextFree 32 ∧ behind.int32 132 = d.nextFree 31

namespace Directory

theorem isEmpty_iff {dir : Directory} :
    dir.isEmpty = true ↔ ∀ i, 2 ≤ i → i < dir.tableSize → dir.inUse i = false := by
  simp only [isEmpty, List.all_eq_true, List.mem_range, Bool.or_eq_true, decide_eq_true_eq,
    Bool.not_eq_true']
  refine ⟨fun h i hlow hi => ?_, fun h i hi => ?_⟩
  · rcases h i hi with hlt | hunused
    · omega
    · exact hunused
  · rcases Nat.lt_or_ge i 2 with hlt | hge
    · exact Or.inl hlt
    · exact Or.inr (h i hge hi)

theorem SameTable.isEmpty {dir dir' : Directory} (same : dir.SameTable dir') :
    dir.isEmpty = dir'.isEmpty := by
  rw [Bool.eq_iff_iff, isEmpty_iff, isEmpty_iff, same.tableSize]
  refine forall_congr' fun i => forall_congr' fun _ => forall_congr' fun hi => ?_
  rw [(same.sameEntry i hi).inUse]

theorem SameTable.trans {dir dir' dir'' : Directory} (first : dir.SameTable dir')
    (second : dir'.SameTable dir'') : dir.SameTable dir'' :=
  ⟨first.tableSize.trans second.tableSize, fun i hi k hk =>
    (first.sameEntry i (second.tableSize ▸ hi) k hk).trans (second.sameEntry i hi k hk)⟩

/-- Tables that differ in an entry unused in both find every name alike. -/
theorem find_congr_of_unused {dir dir' : Directory} {i : ℕ}
    (hsize : dir.tableSize = dir'.tableSize) (hunused : dir.inUse i = false)
    (hunused' : dir'.inUse i = false)
    (same : ∀ j < dir'.tableSize, j ≠ i → dir.SameEntry dir' j) (name : Name) :
    dir.find name = dir'.find name := by
  refine find_congr hsize fun j hj => ?_
  by_cases hequal : j = i
  · rw [hequal]
    exact .inr ⟨matchesName_of_free hunused name, matchesName_of_free hunused' name⟩
  · exact .inl (same j hj hequal)

/-- An entry that was added and dropped again leaves no trace. -/
theorem find_without_add {dir dir' : Directory} {i : ℕ} {name : Name} {isDir : Bool} {s : ℤ}
    (same : dir.SameTable (dir'.add name isDir i s)) (hunused : dir'.inUse i = false)
    (other : Name) : (dir.without i).find other = dir'.find other := by
  have hsize : (dir.without i).tableSize = dir'.tableSize := same.tableSize
  refine find_congr_of_unused hsize (dir.inUse_setByte_zero i) hunused
    (fun j hj hne k hk => ?_) other
  rw [without, dir.sameEntry_setByte 0 hne k hk, same.sameEntry j hj k hk]
  exact dir'.sameEntry_add name isDir i s hne k hk

end Directory

namespace FileSystem.Valid

variable {fs : FileSystem} {L : Layout} {c : ℕ}

/-- Two disks look alike through the headers in memory. -/
theorem sameView_iff (hfs : fs.Valid L c) (disk : Disk) :
    fs.SameView { fs with disk := disk } ↔
      (∀ x < 1024, (fs.disk.mapThrough disk).testBit x = fs.disk.freeMap.testBit x) ∧
        ∀ name, (fs.disk.dirThrough c disk).find name = (fs.disk.dirTable c).find name := by
  refine ⟨fun hview => ⟨fun x hx => ?_, fun name => ?_⟩, fun ⟨hmap, hfind⟩ =>
    ⟨fun u u' => ?_, fun u u' => ?_⟩⟩
  · obtain ⟨map, hfetch, -, htest⟩ := hfs.fetchFreeMap fun _ => 0
    obtain ⟨map', hfetch', -, htest'⟩ := hfs.fetchFreeMap_on (fun _ => 0) disk
    obtain ⟨_, _, hmap, hmap', hequal⟩ := hview.freeMap (fun _ => 0) fun _ => 0
    cases hfetch.symm.trans hmap
    cases hfetch'.symm.trans hmap'
    rw [← htest x hx, ← htest' x hx]
    exact hequal x hx
  · obtain ⟨dir, hfetch, same⟩ := hfs.fetchCurrentDirectory fun _ => 0
    obtain ⟨dir', hfetch', same'⟩ := hfs.fetchCurrentDirectory_on (fun _ => 0) disk
    obtain ⟨_, _, hdir, hdir', hequal⟩ := hview.lookup (fun _ => 0) fun _ => 0
    cases hfetch.symm.trans hdir
    cases hfetch'.symm.trans hdir'
    rw [← same.find, ← same'.find]
    exact hequal name
  · obtain ⟨map, hfetch, -, htest⟩ := hfs.fetchFreeMap u
    obtain ⟨map', hfetch', -, htest'⟩ := hfs.fetchFreeMap_on u' disk
    refine ⟨map, map', hfetch, hfetch', fun x hx => ?_⟩
    rw [htest x hx, htest' x hx]
    exact hmap x hx
  · obtain ⟨dir, hfetch, same⟩ := hfs.fetchCurrentDirectory u
    obtain ⟨dir', hfetch', same'⟩ := hfs.fetchCurrentDirectory_on u' disk
    refine ⟨dir, dir', hfetch, hfetch', fun name => ?_⟩
    rw [same.find, same'.find]
    exact hfind name

end FileSystem.Valid

namespace Disk.Reserved

variable {fs : FileSystem} {L : Layout} {c n i : ℕ} {name : Name} {dir newDir : Directory}
  {hdr header : FileHeader} {map : BitMap} {disk₁ disk' : Disk} {f : OpenFile} {u behind : Mem}
  (res : fs.disk.Reserved c name true 4000 n i dir hdr map) (hfs : fs.Valid L c)
  (hflush : fs.disk.Flushed c (disk₁.put n hdr.mem) dir map disk')

include res hfs hflush in
/-- **The removal right after the creation**: the directory still leads to the header
sector, the header read back has what lies behind it for its last two pointers, and
the answer of `IsEmpty` decides. -/
theorem removeDir_eq (heap : Heap) : ∃ (dir' rmDir : Directory) (header : FileHeader),
    dir'.SameTable dir ∧ rmDir.SameTable (disk'.dirTable n) ∧ header.SameObject hdr ∧
      (∀ k, 128 ≤ k → header.mem k = heap 1 k) ∧
      ({ fs with disk := disk' } : FileSystem).removeDirInCurrentDirectory heap name =
        if !rmDir.isEmpty then .ok (false, { fs with disk := disk' })
        else ({ fs with disk := disk' } : FileSystem).removeEntry heap dir' header n name := by
  have hsize : dir.tableSize = 10 := res.dirTable.tableSize
  have hn := res.header_range.1
  have same := res.newDir_header hfs.consistent hfs.current_mem hflush
  obtain ⟨dir', hfetch, hdir⟩ := hfs.fetchCurrentDirectory_on (heap 0) disk'
  have hdir' := hdir.trans (hflush.dirThrough hsize)
  have hfind : dir'.find name = n := by
    rw [(hdir'.trans res.dirTable).find, Directory.find,
      Directory.findIndex_add true n res.slot.1 res.fresh]
    exact Directory.sector_add _ _ _ _ _ (by omega) (by omega)
  obtain ⟨header, hheader, hobject, hbehind⟩ :=
    (FileHeader.newZeroed (heap 1)).fetchFrom_of_lt disk' hn
  obtain ⟨f, hf, hopen, -⟩ := OpenFile.new_of_lt (heap 2) disk' hn
  obtain ⟨rmDir, hrm, hrmDir⟩ := hopen.fetchFrom (heap 3)
    (by rw [same.numBytes, res.numBytes]; omega) (res.newDir_inRange same)
  refine ⟨dir', rmDir, header, hdir', hrmDir, hobject.trans same, fun k hk => ?_, ?_⟩
  · rw [hbehind k hk]
    change (heap 1).copy 0 (fun _ => 0) 0 128 k = heap 1 k
    exact Mem.copy_of_not_mem _ _ (by omega)
  · simp only [FileSystem.removeDirInCurrentDirectory, hfetch, Except.ok_bind, hfind,
      show ¬ ((n : ℤ) = -1) by omega, if_false, hheader, hf, hrm]
    rfl

include res hfs hflush in
/-- The new directory is empty when the write through the stale header has left the
flags of its entries clear. -/
theorem isEmpty_iff_leftAt (hsize : newDir.tableSize = 200)
    (hwrite : newDir.writeBack u fs.disk f = .ok disk₁) :
    (disk'.dirTable n).isEmpty = true ↔ ∀ i, 2 ≤ i → i < 10 →
      f.hdr.leftAt fs.disk newDir.table u (fs.disk.nextFree (20 * i / 128 + 1)).toNat
        (20 * i % 128) = 0 := by
  have same := res.newDir_header hfs.consistent hfs.current_mem hflush
  rw [Directory.isEmpty_iff]
  refine forall_congr' fun j => forall_congr' fun _ => forall_congr' fun hj => ?_
  have hj' : j < 10 := hj
  -- The flag is a byte of one of the first two data sectors, as the write left it.
  have hbyte := res.newDir_table hfs.consistent ⟨200, fun k =>
    disk₁ (hdr.dataSectors (k / 128)).toNat (k % 128)⟩ hfs.current_mem hflush same
    (fun _ _ => rfl) (show 20 * j < 200 by omega)
  have hsector : fs.disk.nextFree (20 * j / 128 + 1) = hdr.dataSectors (20 * j / 128) :=
    res.find_data (by rw [show (divRoundUp 4000 128).toNat = 32 by decide]; omega)
  rw [Directory.inUse, hbyte, hsector,
    ← Directory.writeBack_eq_leftAt hsize hwrite _ (Nat.mod_lt _ (by norm_num))]
  simp

include res in
/-- The two sectors that the header on disk has no room for. -/
theorem nextFree_last : fs.disk.nextFree 31 = hdr.dataSectors 30 ∧
    fs.disk.nextFree 32 = hdr.dataSectors 31 :=
  ⟨res.find_data (by decide), res.find_data (by decide)⟩

include res in
/-- The header read back counts all 32 sectors. -/
theorem numSectors_readBack (same : header.SameObject hdr) : header.numSectors.toNat = 32 := by
  rw [same.numSectors, res.numSectors]
  decide

include res in
/-- The new entry is found in the directory read back. -/
theorem findIndex_readBack {dir' : Directory} (hdir' : dir'.SameTable dir) :
    dir'.findIndex name = some i := by
  rw [(hdir'.trans res.dirTable).findIndex, Directory.findIndex_add true n res.slot.1 res.fresh]

include res in
/-- The sectors that the removal gives back: those the header on disk has room for,
and two that are read behind it. -/
theorem sectorList_readBack (same : header.SameObject hdr)
    (hbehind : ∀ k, 128 ≤ k → header.mem k = behind k) :
    header.sectorList header.numSectors.toNat =
        hdr.sectorList 30 ++ [(behind.int32 128).toNat, (behind.int32 132).toNat] ∧
      header.dataSectors 30 = behind.int32 128 ∧ header.dataSectors 31 = behind.int32 132 := by
  have hlast : header.dataSectors 30 = behind.int32 128 :=
    Mem.int32_congr fun k hk => hbehind _ (by omega)
  have hlast' : header.dataSectors 31 = behind.int32 132 :=
    Mem.int32_congr fun k hk => hbehind _ (by omega)
  refine ⟨?_, hlast, hlast'⟩
  rw [res.numSectors_readBack same, FileHeader.sectorList_succ, FileHeader.sectorList_succ, hlast,
    hlast',
    FileHeader.sectorList_congr fun k hk => same.dataSectors hk, List.append_assoc]
  rfl

include res in
/-- The sectors that the creation took. -/
theorem sectorList_taken : hdr.sectorList (divRoundUp 4000 128).toNat =
    hdr.sectorList 30 ++ [(fs.disk.nextFree 31).toNat, (fs.disk.nextFree 32).toNat] := by
  have hcount : (divRoundUp 4000 128).toNat = 32 := by decide
  rw [hcount, FileHeader.sectorList_succ, FileHeader.sectorList_succ, res.nextFree_last.1,
    res.nextFree_last.2, List.append_assoc]
  rfl

include res hflush in
/-- The free map after the creation. -/
theorem mapThrough_eq {x : ℕ} (hx : x < 1024) : (fs.disk.mapThrough disk').testBit x =
    (fs.disk.freeMap.testBit x ||
      decide (x ∈ n :: hdr.sectorList (divRoundUp 4000 128).toNat)) := by
  rw [hflush.mapThrough hx, res.marks x hx]

include res in
/-- A sector taken last that is among those given back is one of those read behind
the header. -/
theorem eq_behind {x : ℕ} (hx : x = (fs.disk.nextFree 31).toNat ∨ x = (fs.disk.nextFree 32).toNat)
    {w w' : ℤ} (hmem : x ∈ n :: (hdr.sectorList 30 ++ [w.toNat, w'.toNat])) :
    x = w.toNat ∨ x = w'.toNat := by
  have hnodup := res.nodup
  rw [res.sectorList_taken] at hnodup
  simp only [List.nodup_cons, List.nodup_append, List.mem_append, List.mem_cons, List.not_mem_nil,
    or_false] at hnodup hmem
  obtain ⟨hheader, -, -, hdisjoint⟩ := hnodup
  rcases hmem with rfl | hmem | hmem
  · exact absurd (Or.inr hx) hheader
  · exact absurd rfl (hdisjoint x hmem x hx)
  · exact hmem

include res hfs hflush in
/-- If the removal gives everything back, the directory was empty and the memory
behind the header object held the two missing sector numbers. -/
theorem behind_of_givesBack {heap : Heap}
    (hback : fs.GivesBack { fs with disk := disk' } heap name) :
    (disk'.dirTable n).isEmpty = true ∧
      ((heap 1).int32 128 = fs.disk.nextFree 31 ∧ (heap 1).int32 132 = fs.disk.nextFree 32 ∨
        (heap 1).int32 128 = fs.disk.nextFree 32 ∧ (heap 1).int32 132 = fs.disk.nextFree 31) := by
  obtain ⟨dir', rmDir, header, hdir', hrmDir, same, hbehind, hremove⟩ :=
    res.removeDir_eq hfs hflush heap
  obtain ⟨fs'', hok, hview⟩ := hback
  rw [hremove] at hok
  cases hempty : rmDir.isEmpty with
  | false =>
      rw [hempty] at hok
      cases hok
  | true =>
      refine ⟨hrmDir.isEmpty ▸ hempty, ?_⟩
      rw [hempty, Bool.not_true, if_neg (by simp)] at hok
      obtain ⟨-, hrange, map', disk'', rfl, hmap', hflush'⟩ :=
        hfs.removeEntry_on_eq_ok disk' (hdir'.trans res.dirTable).tableSize
          (res.findIndex_readBack hdir') hok
      obtain ⟨hlist, hfirst, hsecond⟩ := res.sectorList_readBack same hbehind
      have hcount := res.numSectors_readBack same
      have hlow := hrange 30 (by omega)
      have hlow' := hrange 31 (by omega)
      rw [hfirst] at hlow
      rw [hsecond] at hlow'
      -- A sector that was taken is free again, so it was given back.
      have hgiven (k : ℕ) (hk : k = 30 ∨ k = 31) :
          (hdr.dataSectors k).toNat ∈ n :: (hdr.sectorList 30 ++
            [((heap 1).int32 128).toNat, ((heap 1).int32 132).toNat]) := by
        have hmem : (hdr.dataSectors k).toNat ∈ hdr.sectorList (divRoundUp 4000 128).toNat :=
          FileHeader.mem_sectorList.mpr ⟨k, by rcases hk with rfl | rfl <;> decide, rfl⟩
        obtain ⟨hlt, hclear⟩ := res.wasFree _ (List.mem_cons_of_mem _ hmem)
        have htest := ((hfs.sameView_iff disk'').mp hview).1 _ hlt
        rw [hflush'.mapThrough hlt, hmap' _ hlt, res.mapThrough_eq hflush hlt, hclear, hlist,
          decide_eq_true (List.mem_cons_of_mem _ hmem), Int.toNat_natCast, Bool.false_or,
          Bool.true_and, decide_eq_false_iff_not, not_not] at htest
        exact htest
      obtain ⟨hthirty, hlast⟩ := res.nextFree_last
      have hne : (hdr.dataSectors 30).toNat ≠ (hdr.dataSectors 31).toNat :=
        OpenFile.dataSectors_toNat_ne (List.nodup_cons.mp res.nodup).2 (by decide) (by decide)
          (by omega)
      have hcase := res.eq_behind (Or.inl (by rw [hthirty])) (hgiven 30 (Or.inl rfl))
      have hcase' := res.eq_behind (Or.inr (by rw [hlast])) (hgiven 31 (Or.inr rfl))
      have hnonneg := res.nonneg 30 (by decide)
      have hnonneg' := res.nonneg 31 (by decide)
      rw [hthirty, hlast]
      omega

include res hfs hflush in
/-- If the directory is empty and the memory behind the header object holds the two
missing sector numbers, the removal gives everything back. -/
theorem givesBack_of_behind {heap : Heap} (hempty : (disk'.dirTable n).isEmpty = true)
    (hheap : (heap 1).int32 128 = fs.disk.nextFree 31 ∧ (heap 1).int32 132 = fs.disk.nextFree 32 ∨
      (heap 1).int32 128 = fs.disk.nextFree 32 ∧ (heap 1).int32 132 = fs.disk.nextFree 31) :
    fs.GivesBack { fs with disk := disk' } heap name := by
  obtain ⟨dir', rmDir, header, hdir', hrmDir, same, hbehind, hremove⟩ :=
    res.removeDir_eq hfs hflush heap
  rw [hrmDir.isEmpty, hempty, Bool.not_true, if_neg (by simp)] at hremove
  obtain ⟨hlist, hfirst, hsecond⟩ := res.sectorList_readBack same hbehind
  have hcount := res.numSectors_readBack same
  obtain ⟨hthirty, hlast⟩ := res.nextFree_last
  have hnonneg := res.nonneg 30 (by decide)
  have hnonneg' := res.nonneg 31 (by decide)
  -- Up to the order of the last two, the same sectors are given back as were taken.
  have hperm : (header.sectorList header.numSectors.toNat).Perm
      (hdr.sectorList (divRoundUp 4000 128).toNat) := by
    rw [hlist, res.sectorList_taken]
    refine List.Perm.append_left _ ?_
    rcases hheap with ⟨h, h'⟩ | ⟨h, h'⟩
    · rw [h, h']
    · rw [h, h']
      exact List.Perm.swap _ _ _
  have hindex := res.findIndex_readBack hdir'
  have hsize := (hdir'.trans res.dirTable).tableSize
  have hn := res.header_range.1
  obtain ⟨fs'', hok⟩ := hfs.removeEntry_on_of_marked disk' heap header n hsize hindex
    (fun k hk => by
      rw [hcount] at hk
      rcases (by omega : k < 30 ∨ k = 30 ∨ k = 31) with hlt | rfl | rfl
      · rw [same.dataSectors hlt]
        exact res.nonneg k (by rw [show (divRoundUp 4000 128).toNat = 32 by decide]; omega)
      · omega
      · omega)
    (hperm.nodup_iff.mpr (List.nodup_cons.mp res.nodup).2)
    (fun x hx => by
      have hmem := List.mem_cons_of_mem n (hperm.mem_iff.mp hx)
      have hlt := (res.wasFree x hmem).1
      refine ⟨hlt, ?_⟩
      rw [res.mapThrough_eq hflush hlt, decide_eq_true hmem, Bool.or_true])
    (by omega)
  obtain ⟨-, -, map', disk'', rfl, hmap', hflush'⟩ :=
    hfs.removeEntry_on_eq_ok disk' hsize hindex hok
  refine ⟨_, hremove.trans hok, (hfs.sameView_iff disk'').mpr ⟨fun x hx => ?_, fun other => ?_⟩⟩
  · have hmem : x ∈ n :: header.sectorList header.numSectors.toNat ↔
        x ∈ n :: hdr.sectorList (divRoundUp 4000 128).toNat := by
      rw [List.mem_cons, List.mem_cons, hperm.mem_iff]
    rw [hflush'.mapThrough hx, hmap' x hx, res.mapThrough_eq hflush hx, Int.toNat_natCast,
      decide_eq_decide.mpr (not_congr hmem)]
    by_cases htaken : x ∈ n :: hdr.sectorList (divRoundUp 4000 128).toNat
    · rw [(res.wasFree x htaken).2, decide_eq_true htaken, decide_eq_false (not_not_intro htaken)]
      rfl
    · rw [decide_eq_false htaken, decide_eq_true htaken, Bool.or_false, Bool.and_true]
  · rw [(hflush'.dirThrough hsize).find]
    exact Directory.find_without_add (hdir'.trans res.dirTable) res.slot.2 other

end Disk.Reserved

namespace FileSystem.Valid

variable {fs : FileSystem} {L : Layout} {c : ℕ}

/-- **A directory is given back exactly when the memory lets it.** Of the two calls
both succeed and leave the free map and the directory as they were if and only if
the write through the stale header leaves the new directory empty and the header
object of the removal happens to lie in front of the two sector numbers that its
sector on disk has no room for. -/
theorem givesBack_iff_undoable (hfs : fs.Valid L c) {heap heap' : Heap} {name : Name}
    {fs' : FileSystem} {f : OpenFile}
    (hok : fs.createDirInCurrentDirectory heap name = .ok (true, fs'))
    (hopen : OpenFile.new (heap 4) fs.disk fs.disk.freeMap.find.1 = .ok f) :
    fs.GivesBack fs' heap' name ↔ fs.disk.Undoable f.hdr
      ((Directory.new (heap 3) DirectoryFileSize).addSpecialDir fs.disk.freeMap.find.1 c).2.table
      (heap 5) (heap' 1) := by
  obtain ⟨hfalse, -⟩ | ⟨n, i, dir, hdr, map, newDir, g, res, hg, hsize, -, hnew, herror,
    hwritten⟩ := hfs.createDirInCurrentDirectory heap name
  · rw [hfalse] at hok
    cases hok
  rw [res.find_header] at hopen ⊢
  cases hg.symm.trans hopen
  rw [← hnew]
  cases hwrite : newDir.writeBack (heap 5) fs.disk f with
  | error e =>
      rw [herror e hwrite] at hok
      cases hok
  | ok disk₁ =>
      obtain ⟨disk', htrue, hflush⟩ := hwritten disk₁ hwrite
      cases htrue.symm.trans hok
      have hempty := res.isEmpty_iff_leftAt hfs hflush hsize hwrite
      refine ⟨fun hback => ?_, fun hundo => ?_⟩
      · obtain ⟨hdir, hbehind⟩ := res.behind_of_givesBack hfs hflush hback
        exact ⟨hempty.mp hdir, hbehind⟩
      · exact res.givesBack_of_behind hfs hflush (hempty.mpr hundo.empty) hundo.behind

end FileSystem.Valid

/-- On a blank disk the directory is given back when the memory behind the header
object holds the numbers 36 and 37. -/
theorem givesBack_iff_undoable_blank : ∃ fs₀ fs₁ f,
    FileSystem.format (fun _ _ => 0) (fun _ _ => 0) (fun _ => none) = .ok fs₀ ∧
      fs₀.Valid Layout.initial 1 ∧
      fs₀.createDirInCurrentDirectory (fun _ _ => 0) [100] = .ok (true, fs₁) ∧
      OpenFile.new (fun _ => 0) fs₀.disk fs₀.disk.freeMap.find.1 = .ok f ∧
      fs₀.GivesBack fs₁ (fun _ => Mem.setInt32 (Mem.setInt32 (fun _ => 0) 128 36) 132 37) [100] := by
  obtain ⟨fs₀, f, n, i, dir, hdr, map, disk', hformat, hformatted, hvalid, hblank, hfile, hlength,
    hok, res, hflush⟩ := createDir_blank
  obtain ⟨-, hsectors⟩ := res.contiguous hformatted.marks
  have hnext (k : ℕ) (hk : k < 32) : fs₀.disk.nextFree (k + 1) = (6 + k : ℕ) := by
    rw [Disk.nextFree, res.find_data hk]
    exact hsectors k hk
  refine ⟨fs₀, _, f, hformat, hvalid, hok, hfile,
    (hvalid.givesBack_iff_undoable hok hfile).mpr ⟨fun j _ hj => ?_, Or.inl ⟨?_, ?_⟩⟩⟩
  · have hnone : ¬ f.hdr.Leads (fs₀.disk.nextFree (20 * j / 128 + 1)).toNat
        (Nat.findGreatest (f.hdr.Leads (fs₀.disk.nextFree (20 * j / 128 + 1)).toNat) 31) := by
      rintro ⟨hshort, -⟩
      rw [hlength] at hshort
      simp at hshort
    simp only [FileHeader.leftAt]
    rw [if_neg hnone, hnext _ (by omega), hblank _ (by omega)]
  · rw [hnext 30 (by omega)]
    decide
  · rw [hnext 31 (by omega)]
    decide

/-- On a blank disk, with zeros behind the header object, the assertion of
`Deallocate` fails when the directory is removed. -/
theorem not_givesBack_blank : ∃ fs₀ fs₁,
    FileSystem.format (fun _ _ => 0) (fun _ _ => 0) (fun _ => none) = .ok fs₀ ∧
      fs₀.Valid Layout.initial 1 ∧
      fs₀.createDirInCurrentDirectory (fun _ _ => 0) [100] = .ok (true, fs₁) ∧
      ¬ fs₀.GivesBack fs₁ (fun _ _ => 0) [100] := by
  obtain ⟨fs₀, f, n, i, dir, hdr, map, disk', hformat, hformatted, hvalid, -, -, -, hok, res,
    hflush⟩ := createDir_blank
  obtain ⟨-, hsectors⟩ := res.contiguous hformatted.marks
  refine ⟨fs₀, _, hformat, hvalid, hok, fun hback => ?_⟩
  have hzero : Mem.int32 (fun _ => 0) 128 = 0 := by decide
  obtain ⟨-, hbehind⟩ := res.behind_of_givesBack hvalid hflush hback
  rw [hzero, res.nextFree_last.1, res.nextFree_last.2, hsectors 30 (by decide),
    hsectors 31 (by decide)] at hbehind
  omega

end Nachos
