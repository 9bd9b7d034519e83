/-
# Creating directories

`CreateDirInCurrentDirectory` opens the new directory's file before it writes the
file's header. So the two special entries go where the bytes point that the header
sector still held, which may be those of a file removed long ago. The directory
comes out right when that stale header is as good as the new one; on a fresh disk
it is not.
-/

import Nachos.Filesys.Creation
import Nachos.Filesys.Format
import Nachos.Filesys.Reachable

namespace Nachos

open Base

namespace OpenFile

/-- The write loop returns only when the pointers it follows are sectors. -/
theorem inRange_of_writeSectors {f : OpenFile} {first n : ℕ} {buf : Mem} {disk disk' : Disk}
    (hok : f.writeSectors first buf disk n = .ok disk') :
    ∀ i < n, 0 ≤ f.hdr.dataSectors (first + i) ∧ f.hdr.dataSectors (first + i) < 1024 := by
  induction n generalizing disk' with
  | zero => intro i hi; omega
  | succ n ih =>
      rw [writeSectors, Except.bind_eq_ok] at hok
      obtain ⟨disk₁, hprev, hlast⟩ := hok
      rw [← Nat.cast_add, byteToSector_natCast, Except.ok_bind, Disk.writeSector_eq_ok] at hlast
      intro i hi
      by_cases hequal : i = n
      · rw [hequal]
        exact hlast.1
      · exact ih hprev i (by omega)

/-- A write from the start of a file returns only when the pointers it needs are
sectors. -/
theorem inRange_of_writeAt {f : OpenFile} {uninit : Mem} {disk disk' : Disk} {source : Mem}
    {n : ℕ} {result : ℤ} (hn : n < 2 ^ 31)
    (hok : f.writeAt uninit disk source n 0 = .ok (result, disk')) :
    f.hdr.InRange ((f.transferred n 0 + 127) / 128) := by
  by_cases hempty : n = 0 ∨ f.hdr.numBytes ≤ 0
  · intro i hi
    simp only [transferred] at hi
    omega
  have hcheck : f.checkRequest n (0 : ℕ) = some (f.transferred n 0 : ℤ) :=
    f.checkRequest_of_lt (by omega) (by omega) (by omega)
  have hcount : 0 < f.transferred n 0 ∧ f.transferred n 0 ≤ n := by
    simp only [transferred]
    omega
  rw [Nat.cast_zero] at hcheck
  simp only [writeAt, hcheck, Except.bind_eq_ok] at hok
  obtain ⟨-, -, buf, -, -, -, disk₁, hwrite, -⟩ := hok
  have hfirst := firstSector_natCast 0
  have hlast : lastSector (f.transferred n 0) (0 : ℕ) = ((0 + f.transferred n 0 - 1) / 128 : ℕ) :=
    lastSector_natCast (by omega) (by omega)
  rw [Nat.cast_zero] at hfirst hlast
  rw [hfirst, hlast] at hwrite
  have hrange := inRange_of_writeSectors hwrite
  intro i hi
  have := hrange i (by omega)
  rwa [Nat.zero_add] at this

end OpenFile

/-- The map after `k` calls of `Find`. -/
def BitMap.afterFinds (map : BitMap) : ℕ → BitMap
  | 0 => map
  | k + 1 => (map.afterFinds k).find.2

namespace Disk.Reserved

variable {d : Disk} {c n i : ℕ} {name : Name} {isDir : Bool} {size : ℤ} {dir : Directory}
  {hdr : FileHeader} {map : BitMap} (res : d.Reserved c name isDir size n i dir hdr map)

include res in
/-- The header sector is the one `Find` returns. -/
theorem find_header : d.freeMap.find = ((n : ℤ), d.freeMap.markBit n) :=
  d.freeMap.find_of_least res.header_range.1 res.header_range.2 res.headerLeast

include res in
/-- The least sector that is neither marked nor taken yet is the next data sector. -/
theorem find_of_taken {k : ℕ} {b : BitMap} (hk : k < (divRoundUp size 128).toNat)
    (hbits : b.numBits = 1024)
    (htaken : ∀ x, b.testBit x = (d.freeMap.testBit x || decide (x ∈ n :: hdr.sectorList k))) :
    b.find = (hdr.dataSectors k, b.markBit (hdr.dataSectors k).toNat) := by
  have hmem : (hdr.dataSectors k).toNat ∈ hdr.sectorList (divRoundUp size 128).toNat :=
    FileHeader.mem_sectorList.mpr ⟨k, hk, rfl⟩
  obtain ⟨hlt, hclear⟩ := res.wasFree _ (List.mem_cons_of_mem _ hmem)
  have hnot : (hdr.dataSectors k).toNat ∉ n :: hdr.sectorList k := by
    intro hearlier
    rcases List.mem_cons.mp hearlier with hequal | hearlier
    · exact (List.nodup_cons.mp res.nodup).1 (hequal ▸ hmem)
    · obtain ⟨j, hj, hequal⟩ := FileHeader.mem_sectorList.mp hearlier
      exact OpenFile.dataSectors_toNat_ne (List.nodup_cons.mp res.nodup).2 (by omega) hk
        (by omega) hequal
  have hfind := b.find_of_least (i := (hdr.dataSectors k).toNat) (by omega)
    (by rw [htaken, hclear, Bool.false_or, decide_eq_false_iff_not]; exact hnot)
    (fun x hx => by
      rw [htaken, Bool.or_eq_true, decide_eq_true_eq, List.mem_cons]
      exact res.firstFit k hk x hx)
  rw [hfind, Int.toNat_of_nonneg (res.nonneg k hk)]

include res in
/-- The free map after the header sector and `k` data sectors have been taken. -/
theorem testBit_afterFinds {k : ℕ} (hk : k ≤ (divRoundUp size 128).toNat) :
    (d.freeMap.afterFinds (k + 1)).numBits = 1024 ∧
      ∀ x, (d.freeMap.afterFinds (k + 1)).testBit x =
        (d.freeMap.testBit x || decide (x ∈ n :: hdr.sectorList k)) := by
  induction k with
  | zero =>
      simp only [BitMap.afterFinds]
      rw [res.find_header]
      refine ⟨rfl, fun x => ?_⟩
      rw [BitMap.testBit_markBit]
      by_cases hequal : x = n <;> simp [hequal, FileHeader.sectorList]
  | succ k ih =>
      obtain ⟨hbits, htaken⟩ := ih (by omega)
      rw [BitMap.afterFinds, res.find_of_taken (by omega) hbits htaken]
      refine ⟨hbits, fun x => ?_⟩
      rw [BitMap.testBit_markBit, htaken, FileHeader.sectorList_succ]
      by_cases hequal : x = (hdr.dataSectors k).toNat <;> simp [hequal]

include res in
/-- **The data sectors are the ones `Find` returns** after the header sector, one
call after the other. -/
theorem find_data {k : ℕ} (hk : k < (divRoundUp size 128).toNat) :
    (d.freeMap.afterFinds (k + 1)).find.1 = hdr.dataSectors k := by
  obtain ⟨hbits, htaken⟩ := res.testBit_afterFinds hk.le
  rw [res.find_of_taken hk hbits htaken]

end Disk.Reserved

/-- In a directory with one more entry `"."` is still found. -/
theorem Consistent.find_dot_add {d : Disk} {L : Layout} {c i : ℕ} (h : Consistent d L)
    (hc : c ∈ L.dirs) (hslot : (d.dirTable c).inUse i = false) {name : Name} {isDir : Bool}
    {s : ℤ} : ((d.dirTable c).add name isDir i s).find Directory.dot = c := by
  obtain ⟨hdot, -, hsector⟩ := h.dot c hc
  have hne : 0 ≠ i := by
    rintro rfl
    rw [Directory.matchesName, hslot] at hdot
    cases hdot
  have same := (d.dirTable c).sameEntry_add name isDir i s hne
  have hindex : ((d.dirTable c).add name isDir i s).findIndex Directory.dot = some 0 := by
    rw [Directory.findIndex, List.find?_range_eq_some]
    exact ⟨(same.matchesName _).trans hdot, List.mem_range.mpr (show 0 < 10 by omega), by omega⟩
  rw [Directory.find, hindex]
  exact same.sector.trans hsector

/-- What the header left in the sector taken for the new one has to say for the new
directory to come out right: its first two pointers are the sectors the new header
is about to get, it is long enough for ten entries, and no further pointer that the
write follows leads into one of these two or into a sector in use. -/
structure FileHeader.FitsNewDir (h : FileHeader) (d : Disk) : Prop where
  length : 200 ≤ h.numBytes
  first : h.dataSectors 0 = d.freeMap.find.2.find.1
  second : h.dataSectors 1 = d.freeMap.find.2.find.2.find.1
  others : ∀ k, 2 ≤ k → 128 * k < min 4000 h.numBytes.toNat →
    (h.dataSectors k).toNat ≠ (h.dataSectors 0).toNat ∧
      (h.dataSectors k).toNat ≠ (h.dataSectors 1).toNat ∧
      ¬ d.InUse (h.dataSectors k).toNat

/-- A directory created under `name` in slot `i` of the directory `c`, with header
sector `n`: a fresh look at it shows the two special entries and no other, and
nothing else has changed but the slot and the free map. -/
structure Disk.DirCreated (d d' : Disk) (L : Layout) (c n i : ℕ) (name : Name) : Prop where
  entry : (d'.dirTable c).findIndex name = some i ∧ (d'.dirTable c).isDirectory i = true ∧
    (d'.dirTable c).sector i = n
  slot : i < 10 ∧ (d.dirTable c).inUse i = false
  fetched : ∀ u u', ∃ f dir, OpenFile.new u d' n = .ok f ∧
    (Directory.new u' NumDirEntries).fetchFrom d' f = .ok dir ∧ dir.tableSize = 10 ∧
    dir.OnlySpecial n c
  parent : ∀ j < 10, j ≠ i → (d'.dirTable c).SameEntry (d.dirTable c) j
  dirs : ∀ p ∈ L.dirs, p ≠ c → d' p = d p ∧
    ∀ k < 128 * (d.header p).listed, d'.bytes p k = d.bytes p k
  files : ∀ t ∈ L.files, d'.contents t = d.contents t

namespace Disk.Reserved

variable {d disk₁ disk' : Disk} {L : Layout} {c n i : ℕ} {name : Name} {dir newDir : Directory}
  {hdr : FileHeader} {map : BitMap} {f : OpenFile} {u : Mem}
  (res : d.Reserved c name true 4000 n i dir hdr map) (h : Consistent d L)
  (hfits : f.hdr.FitsNewDir d)

include res hfits in
/-- The stale header points to the first two sectors of the new one. -/
theorem stale_eq : f.hdr.dataSectors 0 = hdr.dataSectors 0 ∧
    f.hdr.dataSectors 1 = hdr.dataSectors 1 := by
  have hfirst := res.find_data (k := 0) (by decide)
  have hsecond := res.find_data (k := 1) (by decide)
  simp only [BitMap.afterFinds] at hfirst hsecond
  exact ⟨hfits.first.trans hfirst, hfits.second.trans hsecond⟩

include res h hfits in
/-- A data sector of the new header belongs to no object, and the write through the
stale header leaves the objects alone. -/
theorem stale_notMem {k x t : ℕ} (hk : 128 * k < min 4000 f.hdr.numBytes.toNat)
    (ht : t ∈ L.objects) (hx : x ∈ d.owned t) : (f.hdr.dataSectors k).toNat ≠ x := by
  rcases (by omega : k = 0 ∨ k = 1 ∨ 2 ≤ k) with rfl | rfl | hlate
  · rw [(res.stale_eq hfits).1]
    exact res.data_ne_of_owned h ht hx (by decide)
  · rw [(res.stale_eq hfits).2]
    exact res.data_ne_of_owned h ht hx (by decide)
  · rintro rfl
    exact (hfits.others k hlate hk).2.2 (h.inUse_iff.mpr ⟨t, ht, hx⟩)

include res h hfits in
/-- **The write through the stale header**, when it returns, puts the special
entries into the new directory's sectors and changes no object. -/
theorem stale_write (hsize : newDir.tableSize = 200)
    (hwrite : newDir.writeBack u d f = .ok disk₁) :
    (∀ t ∈ L.objects, ∀ x ∈ d.owned t, disk₁ x = d x) ∧
      ∀ k < 200, disk₁ (hdr.dataSectors (k / 128)).toNat (k % 128) = newDir.table k := by
  rw [Directory.writeBack, hsize] at hwrite
  obtain ⟨⟨result, disk₂⟩, hok, hequal⟩ := Except.map_eq_ok.mp hwrite
  cases hequal
  have hlength := hfits.length
  have hcount : f.transferred 4000 0 = min 4000 f.hdr.numBytes.toNat := by
    rw [OpenFile.transferred, Nat.sub_zero]
  have hrange := OpenFile.inRange_of_writeAt (n := 4000) (by omega) hok
  obtain ⟨disk₃, hwrite, hframe, hdata⟩ := f.writeAt_natCast u d newDir.table 4000 0
    (m := (f.transferred 4000 0 + 127) / 128) (fun _ => by omega) hrange (by omega) (by omega)
  rw [Nat.cast_zero] at hwrite
  obtain ⟨-, rfl⟩ := Prod.mk.inj (Except.ok.inj (hwrite.symm.trans hok))
  obtain ⟨hfirst, hsecond⟩ := res.stale_eq hfits
  refine ⟨fun t ht x hx => hframe x fun k _ hk => ?_, fun k hk => ?_⟩
  · exact res.stale_notMem h hfits (by omega) ht hx
  · have hlater (j : ℕ) (hj : k / 128 < j) (hjcount : 128 * j < 0 + f.transferred 4000 0) :
        (f.hdr.dataSectors j).toNat ≠ (f.hdr.dataSectors (k / 128)).toNat := by
      rcases (by omega : j = 1 ∧ k / 128 = 0 ∨ 2 ≤ j ∧ (k / 128 = 0 ∨ k / 128 = 1))
        with ⟨rfl, hzero⟩ | ⟨hj2, hcase⟩
      · rw [hzero, hfirst, hsecond]
        exact OpenFile.dataSectors_toNat_ne (List.nodup_cons.mp res.nodup).2
          (by decide) (by decide) (by omega)
      · obtain ⟨hne, hne', -⟩ := hfits.others j hj2 (by omega)
        rcases hcase with hzero | hone
        · rw [hzero]
          exact hne
        · rw [hone]
          exact hne'
    have hbyte := hdata k (by omega) (by omega) (Or.inl (by omega)) hlater
    rw [if_pos (by omega), Nat.sub_zero, OpenFile.fileBytes] at hbyte
    rcases (by omega : k / 128 = 0 ∨ k / 128 = 1) with hzero | hone
    · rw [hzero, hfirst] at hbyte
      rw [hzero]
      exact hbyte
    · rw [hone, hsecond] at hbyte
      rw [hone]
      exact hbyte

include res h in
/-- The new directory read back after the flush. -/
theorem newDir_table (newDir : Directory) (hc : c ∈ L.dirs)
    (hflush : d.Flushed c (disk₁.put n hdr.mem) dir map disk')
    (same : (disk'.header n).SameObject hdr)
    (hbytes : ∀ k < 200, disk₁ (hdr.dataSectors (k / 128)).toNat (k % 128) = newDir.table k)
    {k : ℕ} (hk : k < 200) : (disk'.dirTable n).table k = newDir.table k := by
  have hcount : (divRoundUp 4000 128).toNat = 32 := by decide
  change disk' ((disk'.header n).dataSectors (k / 128)).toNat (k % 128) = _
  rw [same.dataSectors (by omega), res.data_unchanged h hc hflush (by omega)]
  exact hbytes k hk

include res h in
/-- The header of the new directory after the flush. -/
theorem newDir_header (hc : c ∈ L.dirs)
    (hflush : d.Flushed c (disk₁.put n hdr.mem) dir map disk') :
    (disk'.header n).SameObject hdr := ⟨fun k hk => by
  simp only [Disk.header]
  rw [res.flushed_header h hc hflush, Disk.put_self _ _ _ hk]⟩

include res in
/-- The first pointers of the new header are sectors. -/
theorem newDir_inRange (same : (disk'.header n).SameObject hdr) : (disk'.header n).InRange 2 := by
  intro k hk
  have hcount : (divRoundUp 4000 128).toNat = 32 := by decide
  have hhigh := (res.wasFree _ (List.mem_cons_of_mem _
    (FileHeader.mem_sectorList.mpr ⟨k, by omega, rfl⟩))).1
  have hlow := res.nonneg k (by omega)
  rw [same.dataSectors (by omega)]
  omega

include res in
/-- What a fresh look at the new directory shows. -/
theorem fetchFrom_newDir (same : (disk'.header n).SameObject hdr) {u' : Mem}
    (hopen : OpenFile.new u disk' n = .ok f)
    (hfetch : (Directory.new u' NumDirEntries).fetchFrom disk' f = .ok newDir) :
    newDir.SameTable (disk'.dirTable n) := by
  obtain ⟨-, hopened, -⟩ := OpenFile.new_eq_ok hopen
  rw [Int.toNat_natCast] at hopened
  obtain ⟨dir', hfetch', same'⟩ := hopened.fetchFrom u'
    (by rw [same.numBytes, res.numBytes]; omega) (res.newDir_inRange same)
  rw [hfetch] at hfetch'
  cases hfetch'
  exact same'

include res h hfits in
/-- What is on the disk after a creation through a stale header that fits. -/
theorem inserted_dir (hc : c ∈ L.dirs) (hsize : newDir.tableSize = 200)
    (hspecial : newDir.OnlySpecial n c) (hwrite : newDir.writeBack u d f = .ok disk₁)
    (hflush : d.Flushed c (disk₁.put n hdr.mem) dir map disk') :
    d.Inserted disk' L c n i name true ∧ (disk'.header n).SameObject hdr ∧
      (disk'.dirTable n).OnlySpecial n c := by
  obtain ⟨hobjects, hbytes⟩ := res.stale_write h hfits hsize hwrite
  have hframe : d.Frame (disk₁.put n hdr.mem) L c := fun t ht x hx _ _ _ => by
    rw [Disk.put_of_ne _ _ (res.ne_of_owned h ht hx).symm]
    exact hobjects t ht x hx
  have same := res.newDir_header h hc hflush
  have honly : (disk'.dirTable n).OnlySpecial n c :=
    hspecial.congr (show 2 ≤ 10 by omega) (show 10 ≤ newDir.tableSize by omega)
      fun j hj k hk => res.newDir_table h newDir hc hflush same hbytes (by
        change j < 10 at hj
        omega)
  have hnew : disk'.NewObject c n true := by
    rw [Disk.NewObject, if_pos rfl, FileHeader.listed, same.numBytes, same.numSectors,
      res.numBytes, res.numSectors]
    refine ⟨by decide, by decide, honly.dot, honly.dotDot, fun j hchild => ?_⟩
    have hunused := honly.unused j hchild.low hchild.high
    rw [hchild.inUse] at hunused
    cases hunused
  exact ⟨res.inserted h hc hframe (fun k hk => Disk.put_self _ _ _ hk) hflush hnew, same, honly⟩

end Disk.Reserved

namespace FileSystem.Valid

variable {fs : FileSystem} {L : Layout} {c : ℕ}

/-- **`CreateDir` in the current directory** fails for lack of room and leaves
everything as it was, or it is decided by the write through the stale header. -/
theorem createDirInCurrentDirectory (hfs : fs.Valid L c) (heap : Heap) (name : Name) :
    fs.createDirInCurrentDirectory heap name = .ok (false, fs) ∧
        ¬ fs.disk.HasRoom c name 4000 ∨
      ∃ (n i : ℕ) (dir : Directory) (hdr : FileHeader) (map : BitMap) (newDir : Directory)
        (f : OpenFile), fs.disk.Reserved c name true 4000 n i dir hdr map ∧
        OpenFile.new (heap 4) fs.disk n = .ok f ∧ newDir.tableSize = 200 ∧
        newDir.OnlySpecial n c ∧
        newDir = ((Directory.new (heap 3) DirectoryFileSize).addSpecialDir n c).2 ∧
        (∀ e, newDir.writeBack (heap 5) fs.disk f = .error e →
          fs.createDirInCurrentDirectory heap name = .error e) ∧
        ∀ disk₁ : Disk, newDir.writeBack (heap 5) fs.disk f = .ok disk₁ →
          ∃ disk', fs.createDirInCurrentDirectory heap name =
              .ok (true, { fs with disk := disk' }) ∧
            fs.disk.Flushed c (disk₁.put n hdr.mem) dir map disk' := by
  obtain ⟨dir, map, hfetch, hfetchMap, ⟨hrejected, hroom⟩ |
    ⟨n, i, hdr, map', hname, hfind, hadd, halloc, res⟩⟩ :=
    hfs.reserve (heap 0) (heap 1) (heap 2) name true 4000 (by omega) (by omega)
  · exact Or.inl ⟨(createDir_eq_false_iff hfetch hfetchMap).mpr hrejected, hroom⟩
  · have hn := res.header_range.1
    have hc := (hfs.consistent.inRange c (Consistent.mem_objects_of_dir hfs.current_mem)).1
    have hdot : (dir.add name true i n).find Directory.dot = c := by
      rw [res.dirTable.find]
      exact hfs.consistent.find_dot_add hfs.current_mem res.slot.2
    obtain ⟨newDir, hspecial, hsize, hnew⟩ := Directory.addSpecialDir_new (heap 3)
      (show 2 ≤ DirectoryFileSize by decide) (n : ℤ) (c : ℤ) (by omega) (by omega)
    obtain ⟨f, hf, hopen, -⟩ := OpenFile.new_of_lt (heap 4) fs.disk hn
    rw [show (4000 : ℤ) = (DirectoryFileSize * sizeofDirectoryEntry : ℕ) by decide] at halloc
    have hsteps : fs.createDirInCurrentDirectory heap name = (do
        let disk ← newDir.writeBack (heap 5) fs.disk f
        let disk ← hdr.writeBack disk n
        let disk ← (dir.add name true i n).writeBack (heap 6) disk fs.currentDirectory
        let disk ← map'.writeBack (heap 7) disk fs.freeMapFile
        return (true, { fs with disk := disk })) := by
      simp only [FileSystem.createDirInCurrentDirectory, hfetch, hname, ne_eq, not_true_eq_false,
        if_false, hfetchMap, Except.ok_bind, hfind, Directory.addDir, hadd, halloc, Bool.not_true,
        Bool.false_eq_true, show ¬ ((n : ℤ) = -1) by omega, hdot, hspecial, hf]
    refine Or.inr ⟨n, i, _, hdr, map', newDir, f, res, hf, hsize, hnew, by rw [hspecial],
      fun e he => ?_, fun disk₁ hwrite => ?_⟩
    · rw [hsteps, he]
      rfl
    · obtain ⟨disk₂, disk', hwrite₁, hwrite₂, hflush⟩ := hfs.flush _ map' (heap 6) (heap 7)
        (disk₁.put n hdr.mem) res.dirTable.tableSize res.numBits
      refine ⟨disk', ?_, hflush⟩
      simp only [hsteps, hwrite, Except.ok_bind, FileHeader.writeBack,
        Disk.writeSector_of_lt disk₁ hdr.mem (n := (n : ℤ)) (by omega) (by omega),
        Int.toNat_natCast, hwrite₁, hwrite₂]
      rfl

/-- A successful `CreateDir` through a stale header that fits enters the new
directory. -/
theorem createDir_inserted (hfs : fs.Valid L c) {heap : Heap} {name : Name} {fs' : FileSystem}
    {f : OpenFile} (hok : fs.createDirInCurrentDirectory heap name = .ok (true, fs'))
    (hopen : OpenFile.new (heap 4) fs.disk fs.disk.freeMap.find.1 = .ok f)
    (hfits : f.hdr.FitsNewDir fs.disk) :
    ∃ n i, fs' = { fs with disk := fs'.disk } ∧ fs.disk.Inserted fs'.disk L c n i name true ∧
      (fs'.disk.dirTable n).OnlySpecial n c := by
  obtain ⟨hfalse, -⟩ | ⟨n, i, dir, hdr, map, newDir, g, res, hg, hsize, hspecial, -, herror,
    hwritten⟩ := hfs.createDirInCurrentDirectory heap name
  · rw [hfalse] at hok
    cases hok
  rw [res.find_header, hg] at hopen
  cases hopen
  cases hwrite : newDir.writeBack (heap 5) fs.disk f with
  | error e =>
      rw [herror e hwrite] at hok
      cases hok
  | ok disk₁ =>
      obtain ⟨disk', htrue, hflush⟩ := hwritten disk₁ hwrite
      rw [htrue] at hok
      cases hok
      obtain ⟨ins, -, honly⟩ :=
        res.inserted_dir hfs.consistent hfits hfs.current_mem hsize hspecial hwrite hflush
      exact ⟨n, i, rfl, ins, honly⟩

/-- **A created directory is well formed and nothing else is touched**, provided the
header left in the sector it takes fits. -/
theorem createDir_wellFormed (hfs : fs.Valid L c) {heap : Heap} {name : Name} {fs' : FileSystem}
    {f : OpenFile} (hok : fs.createDirInCurrentDirectory heap name = .ok (true, fs'))
    (hopen : OpenFile.new (heap 4) fs.disk fs.disk.freeMap.find.1 = .ok f)
    (hfits : f.hdr.FitsNewDir fs.disk) :
    ∃ n i, fs.disk.DirCreated fs'.disk L c n i name := by
  obtain ⟨n, i, -, ins, honly⟩ := hfs.createDir_inserted hok hopen hfits
  have h := hfs.consistent
  have hc := hfs.current_mem
  have h' := h.inserted hc ins
  have hn : n ∈ (L.insert n true).dirs := Layout.mem_dirs_insert.mpr (Or.inr ⟨rfl, rfl⟩)
  refine ⟨n, i, ⟨ins.findIndex, Consistent.isDirectory_new ins,
    Consistent.sector_new ins⟩, ins.slot, fun u u' => ?_, fun j hj hne => ?_, fun p hp hne => ?_,
    fun t ht => h.contents_frame hc ins.frame ht⟩
  · obtain ⟨g, hg, hgOpen, -⟩ := OpenFile.new_of_lt u fs'.disk ins.headerRange
    obtain ⟨dir, hfetch, same⟩ := h'.fetchDirectory hn hgOpen u'
    have hsize : dir.tableSize = 10 := same.tableSize
    refine ⟨g, dir, hg, hfetch, hsize,
      honly.congr (by omega) (show dir.tableSize ≤ 10 by omega) fun j hj => ?_⟩
    exact same.sameEntry j (show j < 10 by omega)
  · exact h.sameEntry_inserted hc ins hc hj fun hnew => hne hnew.2
  · have hobj := Consistent.mem_objects_of_dir (L := L) hp
    refine ⟨h.header_frame hc ins.frame hobj, fun k hk => ?_⟩
    refine h.bytes_frame hc ins.frame hobj hne ?_ hk
    rintro rfl
    exact h.zero_notMem.1 hp

/-- With room for it, a directory is created when the write returns. -/
theorem createDir_of_room (hfs : fs.Valid L c) (heap : Heap) (name : Name)
    (hroom : fs.disk.HasRoom c name 4000) {f : OpenFile}
    (hopen : OpenFile.new (heap 4) fs.disk fs.disk.freeMap.find.1 = .ok f)
    (hwrite : ∀ newDir : Directory, newDir.tableSize = 200 →
      ∃ disk₁, newDir.writeBack (heap 5) fs.disk f = .ok disk₁) :
    ∃ (n i : ℕ) (dir : Directory) (hdr : FileHeader) (map : BitMap) (newDir : Directory)
      (disk₁ disk' : Disk),
      fs.createDirInCurrentDirectory heap name = .ok (true, { fs with disk := disk' }) ∧
      fs.disk.Reserved c name true 4000 n i dir hdr map ∧
      newDir.writeBack (heap 5) fs.disk f = .ok disk₁ ∧
      fs.disk.Flushed c (disk₁.put n hdr.mem) dir map disk' := by
  obtain ⟨-, hfull⟩ | ⟨n, i, dir, hdr, map, newDir, g, res, hg, hsize, -, -, -, hwritten⟩ :=
    hfs.createDirInCurrentDirectory heap name
  · exact absurd hroom hfull
  rw [res.find_header, hg] at hopen
  cases hopen
  obtain ⟨disk₁, hwrite₁⟩ := hwrite newDir hsize
  obtain ⟨disk', hok, hflush⟩ := hwritten disk₁ hwrite₁
  exact ⟨n, i, dir, hdr, map, newDir, disk₁, disk', hok, res, hwrite₁, hflush⟩

end FileSystem.Valid

/-- A formatted disk has room for a directory. -/
theorem Disk.Formatted.hasRoom {d : Disk} (h : d.Formatted) {name : Name}
    (hdot : Mem.strnEqual (Mem.ofString Directory.dot) (Mem.ofString name) 9 = false)
    (hdotDot : Mem.strnEqual (Mem.ofString Directory.dotDot) (Mem.ofString name) 9 = false) :
    d.HasRoom 1 name 4000 := by
  refine ⟨h.table.findIndex hdot hdotDot,
    ⟨2, by omega, h.table.unused 2 (by omega) (show 2 < 10 by omega)⟩, ?_⟩
  rw [BitMap.numClear_of_marked (m := 5) h.marks]
  change _ ≤ 1024 - 5
  decide

/-- A directory created after a file of two sectors was created and removed. -/
theorem createDir_wellFormed_after_remove : ∃ fs₀ fs₁ fs₂ fs₃ n i,
    FileSystem.format (fun _ _ => 0) (fun _ _ => 0) (fun _ => none) = .ok fs₀ ∧
      fs₀.createFile (fun _ _ => 0) [97] 256 = .ok (true, fs₁) ∧
      fs₁.removeFile (fun _ _ => 0) [97] = .ok (true, fs₂) ∧
      fs₂.createDirInCurrentDirectory (fun _ _ => 0) [100] = .ok (true, fs₃) ∧
      fs₂.disk.DirCreated fs₃.disk Layout.initial 1 n i [100] := by
  obtain ⟨fs₀, hformat, hformatted, hvalid, -⟩ :=
    FileSystem.format_eq_ok (fun _ _ => 0) (fun _ _ => 0) (fun _ => none)
  obtain ⟨i, disk₁, hcreate, ins, hbytes, -, hdata, hmarks⟩ := hvalid.createFile_of_formatted
    hformatted (fun _ _ => 0) [97] 256 (by decide) (by decide) (by decide) (by omega)
  obtain ⟨disk₂, hremove, hformatted₂, hvalid₂, hkept⟩ :=
    hvalid.removeFile_of_formatted hformatted (fun _ _ => 0) (by decide) ins hmarks
  have hheader : disk₂.header 5 = disk₁.header 5 := Disk.header_congr (hkept 5 List.mem_cons_self)
  obtain ⟨f, hf, hopen, -⟩ := OpenFile.new_of_lt (fun _ => 0) disk₂ (s := 5) (by omega)
  have hlength : f.hdr.numBytes = 256 := by
    rw [FileHeader.SameObject.numBytes hopen, hheader]
    exact hbytes
  have hpointer (k : ℕ) (hk : k < 2) : f.hdr.dataSectors k = (6 + k : ℕ) := by
    have hsector := (hdata k (by rw [show (divRoundUp (256 : ℕ) 128).toNat = 2 by decide]; exact hk)).1
    rw [FileHeader.SameObject.dataSectors hopen (by omega), hheader]
    rw [Disk.dataSector] at hsector
    omega
  -- The three lowest free sectors are the header's, 5, and the two the old file had.
  obtain ⟨hfind₅, hmarks₅⟩ := disk₂.freeMap.find_of_marked (show 5 < 1024 by omega)
    hformatted₂.marks
  obtain ⟨hfind₆, hmarks₆⟩ := (disk₂.freeMap.markBit 5).find_of_marked (show 6 < 1024 by omega)
    hmarks₅
  obtain ⟨hfind₇, -⟩ := ((disk₂.freeMap.markBit 5).markBit 6).find_of_marked
    (show 7 < 1024 by omega) hmarks₆
  have hfits : f.hdr.FitsNewDir disk₂ := by
    refine ⟨by omega, ?_, ?_, fun k hk hshort => ?_⟩
    · rw [hfind₅, hfind₆, hpointer 0 (by omega)]
    · rw [hfind₅, hfind₆, hfind₇, hpointer 1 (by omega)]
    · omega
  have hfile : OpenFile.new (fun _ => 0) disk₂ disk₂.freeMap.find.1 = .ok f := by
    rw [hfind₅]
    exact hf
  have hwrite (newDir : Directory) (hsize : newDir.tableSize = 200) :
      ∃ disk₃, newDir.writeBack (fun _ => 0) disk₂ f = .ok disk₃ := by
    have hcount : f.transferred 4000 0 = 256 := by
      rw [OpenFile.transferred, hlength]
      rfl
    obtain ⟨disk₃, hok, -⟩ := f.writeAt_natCast (fun _ => 0) disk₂ newDir.table 4000 0 (m := 2)
      (fun _ => by omega) (fun k hk => by rw [hpointer k hk]; omega) (by omega) (by omega)
    refine ⟨disk₃, ?_⟩
    rw [Nat.cast_zero] at hok
    rw [Directory.writeBack, hsize]
    exact Except.map_eq_ok.mpr ⟨_, hok, rfl⟩
  obtain ⟨_, _, _, _, _, _, _, disk₃, hdir, -⟩ := hvalid₂.createDir_of_room (fun _ _ => 0)
    [100] (hformatted₂.hasRoom (by decide) (by decide)) hfile hwrite
  obtain ⟨n, j, hcreated⟩ := hvalid₂.createDir_wellFormed hdir hfile hfits
  exact ⟨fs₀, _, _, _, n, j, hformat, hcreate, hremove, hdir, hcreated⟩

/-- A directory created on a blank disk: the stale header is empty, so the special
entries are written nowhere. -/
theorem createDir_blank : ∃ (fs₀ : FileSystem) (f : OpenFile) (n i : ℕ) (dir : Directory)
    (hdr : FileHeader) (map : BitMap) (disk' : Disk),
    FileSystem.format (fun _ _ => 0) (fun _ _ => 0) (fun _ => none) = .ok fs₀ ∧
      fs₀.disk.Formatted ∧ fs₀.Valid Layout.initial 1 ∧
      (∀ s, 5 ≤ s → fs₀.disk s = fun _ => 0) ∧
      OpenFile.new (fun _ => 0) fs₀.disk fs₀.disk.freeMap.find.1 = .ok f ∧ f.hdr.numBytes = 0 ∧
      fs₀.createDirInCurrentDirectory (fun _ _ => 0) [100] =
        .ok (true, { fs₀ with disk := disk' }) ∧
      fs₀.disk.Reserved 1 [100] true 4000 n i dir hdr map ∧
      fs₀.disk.Flushed 1 (fs₀.disk.put n hdr.mem) dir map disk' := by
  obtain ⟨fs₀, hformat, hformatted, hvalid, -, hblank⟩ :=
    FileSystem.format_eq_ok (fun _ _ => 0) (fun _ _ => 0) (fun _ => none)
  obtain ⟨hfind, -⟩ := fs₀.disk.freeMap.find_of_marked (show 5 < 1024 by omega) hformatted.marks
  obtain ⟨f, hf, hopen, -⟩ := OpenFile.new_of_lt (fun _ => 0) fs₀.disk (s := 5) (by omega)
  have hlength : f.hdr.numBytes = 0 := by
    rw [FileHeader.SameObject.numBytes hopen, Disk.header, hblank 5 (by omega)]
    decide
  have hfile : OpenFile.new (fun _ => 0) fs₀.disk fs₀.disk.freeMap.find.1 = .ok f := by
    rw [hfind]
    exact hf
  have hwrite (newDir : Directory) : newDir.writeBack (fun _ => 0) fs₀.disk f = .ok fs₀.disk := by
    rw [Directory.writeBack, OpenFile.writeAt, f.checkRequest_eq_none (by omega)]
    rfl
  obtain ⟨n, i, dir, hdr, map, newDir, disk₁, disk', hok, res, hwritten, hflush⟩ :=
    hvalid.createDir_of_room (fun _ _ => 0) [100]
      (hformatted.hasRoom (by decide) (by decide)) hfile (fun newDir _ => ⟨_, hwrite newDir⟩)
  rw [hwrite newDir] at hwritten
  cases hwritten
  exact ⟨fs₀, f, n, i, dir, hdr, map, disk', hformat, hformatted, hvalid, hblank, hfile, hlength,
    hok, res, hflush⟩

/-- On a blank disk the new directory has no `"."`. -/
theorem not_dirCreated_blank : ∃ fs₀ fs₁,
    FileSystem.format (fun _ _ => 0) (fun _ _ => 0) (fun _ => none) = .ok fs₀ ∧
      fs₀.Valid Layout.initial 1 ∧
      fs₀.createDirInCurrentDirectory (fun _ _ => 0) [100] = .ok (true, fs₁) ∧
      ¬ ∃ n i, fs₀.disk.DirCreated fs₁.disk Layout.initial 1 n i [100] := by
  obtain ⟨fs₀, f, n, i, dir, hdr, map, disk', hformat, hformatted, hvalid, hblank, -, -, hok, res,
    hflush⟩ := createDir_blank
  have h := hvalid.consistent
  refine ⟨fs₀, _, hformat, hvalid, hok, ?_⟩
  rintro ⟨n', i', hcreated⟩
  have hc := hvalid.current_mem
  have hframe : fs₀.disk.Frame disk' Layout.initial 1 := fun t ht x hx hzero hone hmap => by
    rw [hflush.frame x hzero hone hmap, Disk.put_of_ne _ _ (res.ne_of_owned h ht hx).symm]
  have same := res.newDir_header h hc hflush
  -- The entry leads to the new header.
  have htable := hflush.sameTable
    (h.header_frame hc hframe (Consistent.mem_objects_of_dir hc)) res.dirTable rfl
  have hindex := hcreated.entry.1
  rw [htable.findIndex, Directory.findIndex_add true n res.slot.1 res.fresh] at hindex
  have hentry := hcreated.entry.2.2
  have hn := res.header_range.1
  rw [← Option.some.inj hindex, (htable.sameEntry i res.slot.1).sector,
    Directory.sector_add _ _ _ _ _ (by omega) (by omega)] at hentry
  obtain rfl : n = n' := by exact_mod_cast hentry
  -- Its first byte is that of a sector no one has written.
  obtain ⟨g, dir', hg, hfetch, -, honly⟩ := hcreated.fetched (fun _ => 0) (fun _ => 0)
  have same' := res.fetchFrom_newDir same hg hfetch
  have hbyte := res.newDir_table h ⟨200, fun k =>
    fs₀.disk (hdr.dataSectors (k / 128)).toNat (k % 128)⟩ hc hflush same (fun _ _ => rfl)
    (show 0 < 200 by omega)
  have hfree := res.wasFree (hdr.dataSectors 0).toNat (List.mem_cons_of_mem _
    (FileHeader.mem_sectorList.mpr ⟨0, by decide, rfl⟩))
  rw [hformatted.marks _ hfree.1, decide_eq_false_iff_not] at hfree
  have hinUse : (disk'.dirTable n).inUse 0 = false := by
    rw [Directory.inUse, hbyte]
    change (fs₀.disk (hdr.dataSectors 0).toNat 0 != 0) = false
    rw [hblank _ (by omega)]
    rfl
  have hdot := honly.dot.1
  rw [(same'.sameEntry 0 (show 0 < 10 by omega)).matchesName, Directory.matchesName, hinUse] at hdot
  cases hdot

end Nachos
