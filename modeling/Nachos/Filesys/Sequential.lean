/-
# Writing a file in pieces and reading it back in others

A session on one file: open it for writing, write chunks one after the other,
close it, open it for reading, and read with some sequence of sizes. As long as no
request runs past the range of `int`, the reads return a beginning of the chunks
followed by what the file held before, cut off at the length of the file.
-/

import Nachos.Filesys.Format
import Nachos.Filesys.OpenEntries
import Nachos.Filesys.Removal

namespace Nachos

open Base

namespace FileSystem

/-- Write the chunks one after the other. -/
def writeAll (heap : Heap) (i : ℤ) (fs : FileSystem) :
    List (List UInt8) → Except Fault (List ℤ × FileSystem)
  | [] => .ok ([], fs)
  | chunk :: rest => do
      let (stored, fs) ← fs.write (heap rest.length) i (Mem.ofString chunk) chunk.length
      let (others, fs) ← writeAll heap i fs rest
      return (stored :: others, fs)

/-- Read with the given sizes one after the other; each read gives its result and
the bytes put into the buffer. -/
def readAll (i : ℤ) (fs : FileSystem) :
    List ℕ → Except Fault (List (ℤ × List UInt8) × FileSystem)
  | [] => .ok ([], fs)
  | n :: rest => do
      let (count, buf, fs) ← fs.read i (fun _ => 0) n
      let (others, fs) ← readAll i fs rest
      return ((count, (List.range count.toNat).map buf) :: others, fs)

/-- The whole session on the file called `path`. -/
def writeThenRead (fs : FileSystem) (heap : Heap) (path : List UInt8) (chunks : List (List UInt8))
    (sizes : List ℕ) : Except Fault (List ℤ × List (ℤ × List UInt8)) := do
  let (w, fs) ← fs.openFile heap path modeWrite
  let (stored, fs) ← writeAll heap w fs chunks
  let (_, fs) ← fs.close w
  let (r, fs) ← fs.openFile heap path modeRead
  let (got, _) ← readAll r fs sizes
  return (stored, got)

end FileSystem

/-- The number of bytes each of the requests transfers, in a file of the given
length and from the given position on. -/
def transferCounts (length : ℕ) : ℕ → List ℕ → List ℕ
  | _, [] => []
  | pos, n :: rest =>
      min n (length - pos) :: transferCounts length (pos + min n (length - pos)) rest

/-- No request that starts inside the file ends beyond the range of `int`. -/
def FitsInt (length : ℕ) : ℕ → List ℕ → Prop
  | _, [] => True
  | pos, n :: rest =>
      (pos < length → pos + n < 2 ^ 31) ∧ FitsInt length (pos + min n (length - pos)) rest

/-- What the session is to return. -/
structure RoundTrip (old : List UInt8) (chunks : List (List UInt8)) (stored : List ℤ)
    (got : List (ℤ × List UInt8)) : Prop where
  stored_eq : stored = (transferCounts old.length 0 (chunks.map List.length)).map Int.ofNat
  bytes : got.flatMap Prod.snd <+:
    chunks.flatten.take old.length ++ old.drop chunks.flatten.length
  counts : ∀ x ∈ got, x.1 = x.2.length
  ended : ∀ before x after, got = before ++ x :: after →
    (x.1 = 0 ↔ (before.flatMap Prod.snd).length = old.length)

namespace FileSystem.OpenAt

variable {fs : FileSystem} {L : Layout} {i t pos : ℕ}

theorem lengthOf_onlyFile {fs' : FileSystem} (h : Consistent fs.disk L) (ht : t ∈ L.files)
    (honly : fs.OnlyFile fs' i t) : fs'.lengthOf t = fs.lengthOf t := by
  rw [lengthOf, lengthOf, Disk.header_congr
    (h.header_written ht honly.disk (Consistent.mem_objects_of_file ht))]

/-- The bytes after a whole list of chunks has been written from `pos` on. -/
theorem writeAll (heap : Heap) (chunks : List (List UInt8)) (hopen : fs.OpenAt i t modeWrite pos)
    (h : Consistent fs.disk L) (ht : t ∈ L.files)
    (hfits : FitsInt (fs.lengthOf t) pos (chunks.map List.length)) :
    ∃ stored fs' pos', FileSystem.writeAll heap i fs chunks = .ok (stored, fs') ∧
      stored = (transferCounts (fs.lengthOf t) pos (chunks.map List.length)).map Int.ofNat ∧
      fs'.OpenAt i t modeWrite pos' ∧ fs.OnlyFile fs' i t ∧
      ∀ j < fs.lengthOf t, fs'.disk.bytes t j =
        if pos ≤ j ∧ j < pos + chunks.flatten.length then chunks.flatten.getD (j - pos) 0
        else fs.disk.bytes t j := by
  induction chunks generalizing fs pos with
  | nil =>
      refine ⟨[], fs, pos, rfl, rfl, hopen, ⟨rfl, rfl, fun _ _ => rfl, rfl, fun _ _ => rfl⟩,
        fun j _ => ?_⟩
      rw [if_neg (by simp only [List.flatten_nil, List.length_nil]; omega)]
  | cons chunk rest ih =>
      obtain ⟨hrange, hfits⟩ := hfits
      obtain ⟨fs₁, hwrite, hopen₁, honly₁, hbytes₁⟩ :=
        hopen.write h ht (heap rest.length) (Mem.ofString chunk) hrange
      have hlength := lengthOf_onlyFile h ht honly₁
      obtain ⟨stored, fs', pos', hall, hstored, hopen', honly, hbytes⟩ :=
        ih hopen₁ (h.written ht honly₁.disk) (by rw [hlength]; exact hfits)
      rw [hlength] at hstored hbytes
      have hlist := Disk.dataList_congr
        (h.header_written ht honly₁.disk (Consistent.mem_objects_of_file ht))
      refine ⟨((min chunk.length (fs.lengthOf t - pos) : ℕ) : ℤ) :: stored, fs', pos', ?_, ?_,
        hopen', ⟨honly.freeMapFile.trans honly₁.freeMapFile,
        honly.currentDirectory.trans honly₁.currentDirectory,
        fun k hk => (honly.table k hk).trans (honly₁.table k hk),
        honly.nbFiles.trans honly₁.nbFiles, fun x hx => ?_⟩, fun j hj => ?_⟩
      · rw [FileSystem.writeAll, hwrite, Except.ok_bind]
        dsimp only
        rw [hall]
        rfl
      · rw [hstored]
        rfl
      · rw [honly.disk x (by rw [hlist]; exact hx), honly₁.disk x hx]
      · have hwithin := hopen.within
        rw [hbytes j hj, hbytes₁ j hj, List.flatten_cons, List.length_append]
        -- Either the first chunk ends inside the file, or nothing is left for the others.
        by_cases hchunk : pos ≤ j ∧ j < pos + chunk.length
        · rw [if_neg (by omega), if_pos (by omega), if_pos (by omega),
            List.getD_append _ _ _ _ (by omega)]
          rfl
        · by_cases hrest : pos ≤ j ∧ j < pos + (chunk.length + rest.flatten.length)
          · rw [if_pos (by omega), if_pos hrest, List.getD_append_right _ _ _ _ (by omega)]
            congr 1
            omega
          · rw [if_neg (by omega), if_neg (by omega), if_neg hrest]

/-- If some chunk does not fit, the sequence of writes does not return. -/
theorem writeAll_of_not_fits (heap : Heap) (chunks : List (List UInt8))
    (hopen : fs.OpenAt i t modeWrite pos) (h : Consistent fs.disk L) (ht : t ∈ L.files)
    (hsmall : ∀ chunk ∈ chunks, chunk.length < 2 ^ 31)
    (hfits : ¬ FitsInt (fs.lengthOf t) pos (chunks.map List.length)) :
    FileSystem.writeAll heap i fs chunks = .error .badAlloc := by
  induction chunks generalizing fs pos with
  | nil => exact absurd trivial hfits
  | cons chunk rest ih =>
      rw [FileSystem.writeAll]
      by_cases hrange : pos < fs.lengthOf t → pos + chunk.length < 2 ^ 31
      · obtain ⟨fs₁, hwrite, hopen₁, honly₁, -⟩ :=
          hopen.write h ht (heap rest.length) (Mem.ofString chunk) hrange
        rw [hwrite, Except.ok_bind]
        dsimp only
        rw [ih hopen₁ (h.written ht honly₁.disk)
          (fun chunk hchunk => hsmall chunk (List.mem_cons_of_mem _ hchunk)) ?_]
        · rfl
        · rw [lengthOf_onlyFile h ht honly₁]
          exact fun hrest => hfits ⟨hrange, hrest⟩
      · push Not at hrange
        rw [hopen.write_of_overflow h ht _ _ hrange.1 (hsmall chunk List.mem_cons_self) hrange.2]
        rfl

/-- The bytes a list of reads returns from `pos` on. -/
theorem readAll (sizes : List ℕ) (hopen : fs.OpenAt i t modeRead pos)
    (h : Consistent fs.disk L) (ht : t ∈ L.files) (hpositive : ∀ n ∈ sizes, 0 < n)
    (hfits : FitsInt (fs.lengthOf t) pos sizes) :
    ∃ got fs', FileSystem.readAll i fs sizes = .ok (got, fs') ∧
      got.flatMap Prod.snd <+: (fs.disk.contents t).drop pos ∧ (∀ x ∈ got, x.1 = x.2.length) ∧
      ∀ before x after, got = before ++ x :: after →
        (x.1 = 0 ↔ pos + (before.flatMap Prod.snd).length = fs.lengthOf t) := by
  induction sizes generalizing fs pos with
  | nil =>
      refine ⟨[], fs, rfl, List.nil_prefix, by simp, fun before x after hequal => ?_⟩
      simp at hequal
  | cons n rest ih =>
      obtain ⟨hrange, hfits⟩ := hfits
      obtain ⟨fs₁, hread, hopen₁, honly₁, hdisk⟩ := hopen.read h ht (fun _ => 0) hrange
      have hlength := lengthOf_onlyFile h ht honly₁
      obtain ⟨got, fs', hall, hbytes, hcounts, hended⟩ := ih hopen₁ (hdisk ▸ h)
        (fun n hn => hpositive n (List.mem_cons_of_mem _ hn)) (by rw [hlength]; exact hfits)
      rw [hdisk] at hbytes
      rw [hlength] at hended
      set count := min n (fs.lengthOf t - pos) with hcount
      have hwithin := hopen.within
      have hfirst : (List.range count).map
          (Mem.copy (fun _ => 0) 0 (fs.disk.bytes t) pos count) =
            ((fs.disk.contents t).drop pos).take count := by
        refine List.ext_getElem ?_ fun k hk hk' => ?_
        · simp only [List.length_map, List.length_range, List.length_take, List.length_drop,
            Disk.contents]
          change _ = min count (fs.lengthOf t - pos)
          omega
        · rw [List.length_map, List.length_range] at hk
          simp only [List.getElem_map, List.getElem_range, List.getElem_take, List.getElem_drop,
            Disk.contents]
          rw [Mem.copy_of_mem _ _ (by omega), Nat.sub_zero, Nat.add_comm]
      refine ⟨((count : ℤ), (List.range (count : ℤ).toNat).map
        (Mem.copy (fun _ => 0) 0 (fs.disk.bytes t) pos count)) :: got, fs', ?_, ?_, ?_, ?_⟩
      · rw [FileSystem.readAll, hread, Except.ok_bind]
        dsimp only
        rw [hall]
        rfl
      · rw [List.flatMap_cons]
        simp only [Int.toNat_natCast]
        rw [hfirst]
        nth_rewrite 2 [← List.take_append_drop count ((fs.disk.contents t).drop pos)]
        rw [List.drop_drop]
        exact (List.prefix_append_right_inj _).mpr hbytes
      · intro x hx
        rcases List.mem_cons.mp hx with rfl | hx
        · simp
        · exact hcounts x hx
      · intro before x after hequal
        cases before with
        | nil =>
            have hhead := (List.cons.inj hequal).1
            rw [← hhead]
            have hn := hpositive n List.mem_cons_self
            simp only [List.flatMap_nil, List.length_nil]
            omega
        | cons y before =>
            obtain ⟨hhead, htail⟩ := List.cons.inj hequal
            rw [hended before x after htail, ← hhead, List.flatMap_cons, List.length_append]
            simp only [Int.toNat_natCast, List.length_map, List.length_range]
            omega

/-- If some read does not fit, the sequence of reads does not return. -/
theorem readAll_of_not_fits (sizes : List ℕ) (hopen : fs.OpenAt i t modeRead pos)
    (h : Consistent fs.disk L) (ht : t ∈ L.files) (hsmall : ∀ n ∈ sizes, n < 2 ^ 31)
    (hfits : ¬ FitsInt (fs.lengthOf t) pos sizes) :
    FileSystem.readAll i fs sizes = .error .badAlloc := by
  induction sizes generalizing fs pos with
  | nil => exact absurd trivial hfits
  | cons n rest ih =>
      rw [FileSystem.readAll]
      by_cases hrange : pos < fs.lengthOf t → pos + n < 2 ^ 31
      · obtain ⟨fs₁, hread, hopen₁, honly₁, hdisk⟩ := hopen.read h ht (fun _ => 0) hrange
        rw [hread, Except.ok_bind]
        dsimp only
        rw [ih hopen₁ (hdisk ▸ h) (fun n hn => hsmall n (List.mem_cons_of_mem _ hn)) ?_]
        · rfl
        · rw [lengthOf_onlyFile h ht honly₁]
          exact fun hrest => hfits ⟨hrange, hrest⟩
      · push Not at hrange
        rw [hopen.read_of_overflow h ht _ hrange.1 (hsmall n List.mem_cons_self) hrange.2]
        rfl

end FileSystem.OpenAt

namespace FileSystem

variable {fs : FileSystem} {L : Layout} {c p j t : ℕ} {name : Name} {path : List UInt8}

/-- The contents after the chunks have been written from the start on. -/
theorem contents_of_writeAll {fs' : FileSystem} {bytes : List UInt8}
    (hheader : fs'.disk t = fs.disk t)
    (hbytes : ∀ k < fs.lengthOf t, fs'.disk.bytes t k =
      if 0 ≤ k ∧ k < 0 + bytes.length then bytes.getD (k - 0) 0 else fs.disk.bytes t k) :
    fs'.disk.contents t = bytes.take (fs.disk.contents t).length ++
      (fs.disk.contents t).drop bytes.length := by
  have hlength : (fs'.disk.header t).numBytes.toNat = fs.lengthOf t := by
    rw [lengthOf, Disk.header_congr hheader]
  have hold : (fs.disk.contents t).length = fs.lengthOf t := by
    rw [Disk.contents, List.length_map, List.length_range, lengthOf]
  refine List.ext_getElem ?_ fun k hk hk' => ?_
  · rw [Disk.contents, List.length_map, List.length_range, hlength, List.length_append,
      List.length_take, List.length_drop, hold]
    omega
  · rw [Disk.contents, List.length_map, List.length_range, hlength] at hk
    simp only [Disk.contents, List.getElem_map, List.getElem_range]
    rw [hbytes k hk]
    by_cases hinside : k < bytes.length
    · rw [if_pos (by omega), List.getElem_append_left (by
        rw [List.length_take, List.length_map, List.length_range]
        change k < min (fs.lengthOf t) _
        omega), List.getElem_take, Nat.sub_zero, List.getD_eq_getElem _ _ hinside]
    · have htake : (bytes.take ((List.range (fs.disk.header t).numBytes.toNat).map
          (fs.disk.bytes t)).length).length = bytes.length := by
        rw [List.length_take, List.length_map, List.length_range]
        change min (fs.lengthOf t) _ = _
        omega
      rw [if_neg (by omega), List.getElem_append_right (by omega)]
      simp only [htake, List.getElem_drop, List.getElem_map, List.getElem_range]
      congr 1
      omega

/-- The file system between the two halves of the session: the file is closed, the
table is empty again, and only the data of the file has changed. -/
theorem Valid.between (hfs : fs.Valid L c) (ht : t ∈ L.files) {fs₁ fs₂ : FileSystem} {pos : ℕ}
    (hopened : fs₁ = { fs with fileTable := fs₁.fileTable })
    (htable : ∀ k ≠ 0, fs₁.fileTable.table k = none) (hfiles : fs₁.fileTable.nbFiles = 1)
    (honly : fs₁.OnlyFile fs₂ 0 t) (hopen : fs₂.OpenAt 0 t modeWrite pos) :
    ∃ fs₃, fs₂.close 0 = .ok (0, fs₃) ∧ fs₃.disk = fs₂.disk ∧ fs₃.Valid L c ∧
      (∀ k, fs₃.fileTable.table k = none) ∧ fs₃.fileTable.nbFiles = 0 := by
  obtain ⟨-, ⟨e, hentry, -⟩, -⟩ := hopen
  have h := hfs.consistent
  have hdisk : fs₁.disk = fs.disk := by rw [hopened]
  have hmap : fs₁.freeMapFile = fs.freeMapFile := by rw [hopened]
  have hcurrent : fs₁.currentDirectory = fs.currentDirectory := by rw [hopened]
  have hframe := honly.disk
  rw [hdisk] at hframe
  refine ⟨{ fs₂ with fileTable := ⟨fs₂.fileTable.set 0 none, fs₂.fileTable.nbFiles - 1⟩ }, ?_, rfl,
    ⟨h.written ht hframe, ?_, hfs.current_mem, ?_⟩, fun k => ?_, ?_⟩
  · simp only [FileSystem.close, OpenFileTable.close]
    rw [inBounds_of (by decide), Except.ok_bind, Int.toNat_zero, hentry]
    simp only [Option.isNone_some, Bool.false_eq_true, if_false, OpenFileTable.remove, hentry,
      Option.isSome_some, if_true]
    rfl
  · simp only [honly.freeMapFile, hmap]
    exact hfs.mapFile.congr (h.header_written ht hframe Consistent.zero_mem_objects)
  · simp only [honly.currentDirectory, hcurrent]
    exact hfs.current.congr
      (h.header_written ht hframe (Consistent.mem_objects_of_dir hfs.current_mem))
  · by_cases hk : k = 0
    · simp [OpenFileTable.set, hk]
    · simp [OpenFileTable.set, hk, honly.table k hk, htable k hk]
  · simp only [honly.nbFiles, hfiles]
    norm_num

section Session

variable (hfs : fs.Valid L c) (heap : Heap) (hlocate : fs.locate path = some (p, name))
  (hindex : (fs.disk.dirTable p).findIndex name = some j)
  (hsector : (fs.disk.dirTable p).sector j = t) (hfile : t ∈ L.files)
  (htable : ∀ k, fs.fileTable.table k = none) (hfiles : fs.fileTable.nbFiles = 0)
  {chunks : List (List UInt8)} {sizes : List ℕ}

include hfs hlocate hindex hsector hfile htable hfiles

/-- When every chunk fits, the session gets as far as its reads; they find the
chunks in the file. -/
theorem writeThenRead_of_chunks
    (hwrites : FitsInt (fs.lengthOf t) 0 (chunks.map List.length)) (sizes : List ℕ) :
    ∃ stored fs', fs.writeThenRead heap path chunks sizes = (do
        let (got, _) ← FileSystem.readAll 0 fs' sizes
        return (stored, got)) ∧
      stored = (transferCounts (fs.lengthOf t) 0 (chunks.map List.length)).map Int.ofNat ∧
      fs'.OpenAt 0 t modeRead 0 ∧ Consistent fs'.disk L ∧ fs'.lengthOf t = fs.lengthOf t ∧
      fs'.disk.contents t = chunks.flatten.take (fs.disk.contents t).length ++
        (fs.disk.contents t).drop chunks.flatten.length := by
  have h := hfs.consistent
  obtain ⟨fs₁, hopenW, hopen₁, heq₁, htable₁, hfiles₁, -⟩ :=
    hfs.openFile_of_null heap modeWrite hlocate hindex hsector hfile htable hfiles
  have hdisk₁ : fs₁.disk = fs.disk := by rw [heq₁]
  have hlength₁ : fs₁.lengthOf t = fs.lengthOf t := by rw [lengthOf, hdisk₁, lengthOf]
  obtain ⟨stored, fs₂, pos, hwrite, hstored, hopen₂, honly, hbytes⟩ :=
    hopen₁.writeAll heap chunks (hdisk₁ ▸ h) hfile (by rw [hlength₁]; exact hwrites)
  rw [hlength₁, hdisk₁] at hbytes
  rw [hlength₁] at hstored
  rw [Nat.cast_zero] at hwrite
  obtain ⟨fs₃, hclose, hdisk₃, hfs₃, htable₃, hfiles₃⟩ :=
    hfs.between hfile heq₁ htable₁ hfiles₁ honly hopen₂
  have hframe := honly.disk
  rw [hdisk₁, ← hdisk₃] at hframe
  have hheader := h.header_written hfile hframe (Consistent.mem_objects_of_file hfile)
  have hsame : ∀ q ∈ L.dirs, (fs₃.disk.dirTable q).SameTable (fs.disk.dirTable q) :=
    fun q hq => ⟨rfl, fun k hk => h.sameEntry_written hfile hframe hq hk⟩
  have hp := hfs.locate_mem hlocate
  -- The path still stands for the file, so the second half opens the same one.
  obtain ⟨fs₄, hopenR, hopen₄, heq₄, -⟩ := hfs₃.openFile_of_null heap modeRead
    ((hfs.locate_congr hfs₃ hsame).trans hlocate)
    (((hsame p hp).findIndex name).trans hindex)
    (((hsame p hp).sameEntry j (Directory.findIndex_eq_some hindex).1).sector.trans hsector) hfile
    htable₃ hfiles₃
  have hdisk₄ : fs₄.disk = fs₃.disk := by rw [heq₄]
  refine ⟨stored, fs₄, ?_, hstored, hopen₄, hdisk₄ ▸ hfs₃.consistent, ?_, ?_⟩
  · simp only [writeThenRead, hopenW, Except.ok_bind, hwrite, hclose, hopenR]
  · rw [lengthOf, hdisk₄, Disk.header_congr hheader, lengthOf]
  · rw [hdisk₄]
    exact contents_of_writeAll hheader fun k hk => by rw [hdisk₃]; exact hbytes k hk

/-- When every request fits, the session returns what it should. -/
theorem writeThenRead_of_fits
    (hwrites : FitsInt (fs.lengthOf t) 0 (chunks.map List.length))
    (hreads : FitsInt (fs.lengthOf t) 0 sizes) (hpositive : ∀ n ∈ sizes, 0 < n) :
    ∃ stored got, fs.writeThenRead heap path chunks sizes = .ok (stored, got) ∧
      RoundTrip (fs.disk.contents t) chunks stored got := by
  have hlength : (fs.disk.contents t).length = fs.lengthOf t := by
    rw [Disk.contents, List.length_map, List.length_range, lengthOf]
  obtain ⟨stored, fs', hsession, hstored, hopen, h', hlength', hcontents⟩ :=
    writeThenRead_of_chunks hfs heap hlocate hindex hsector hfile htable hfiles hwrites sizes
  obtain ⟨got, fs₅, hread, hgot, hcounts, hended⟩ := hopen.readAll sizes h' hfile hpositive
    (by rw [hlength']; exact hreads)
  rw [Nat.cast_zero] at hread
  rw [hcontents, List.drop_zero] at hgot
  rw [hlength'] at hended
  refine ⟨stored, got, by rw [hsession, hread]; rfl, ?_, hgot, hcounts, ?_⟩
  · rw [hstored, hlength]
  · intro before x after hequal
    rw [hended before x after hequal, hlength, Nat.zero_add]

/-- When some request does not fit, the session does not return. -/
theorem writeThenRead_of_not_fits (hchunks : ∀ chunk ∈ chunks, chunk.length < 2 ^ 31)
    (hsizes : ∀ n ∈ sizes, n < 2 ^ 31)
    (hfits : ¬ (FitsInt (fs.lengthOf t) 0 (chunks.map List.length) ∧
      FitsInt (fs.lengthOf t) 0 sizes)) :
    fs.writeThenRead heap path chunks sizes = .error .badAlloc := by
  by_cases hwrites : FitsInt (fs.lengthOf t) 0 (chunks.map List.length)
  · obtain ⟨stored, fs', hsession, -, hopen, h', hlength', -⟩ :=
      writeThenRead_of_chunks hfs heap hlocate hindex hsector hfile htable hfiles hwrites sizes
    have hread := hopen.readAll_of_not_fits sizes h' hfile hsizes
      (by rw [hlength']; exact fun hreads => hfits ⟨hwrites, hreads⟩)
    rw [Nat.cast_zero] at hread
    rw [hsession, hread]
    rfl
  · obtain ⟨fs₁, hopenW, hopen₁, heq₁, -⟩ :=
      hfs.openFile_of_null heap modeWrite hlocate hindex hsector hfile htable hfiles
    have hdisk₁ : fs₁.disk = fs.disk := by rw [heq₁]
    have hlength₁ : fs₁.lengthOf t = fs.lengthOf t := by rw [lengthOf, hdisk₁, lengthOf]
    have hwrite := hopen₁.writeAll_of_not_fits heap chunks (hdisk₁ ▸ hfs.consistent) hfile hchunks
      (by rw [hlength₁]; exact hwrites)
    rw [Nat.cast_zero] at hwrite
    simp only [writeThenRead, hopenW, Except.ok_bind, hwrite, Except.error_bind]

end Session

/-- **Sequential write then read.** On a plain file, with the table of open files
empty, the session returns what it should if and only if no request that starts
inside the file ends beyond the range of `int`. -/
theorem roundTrip_iff (hfs : fs.Valid L c) (heap : Heap)
    (hlocate : fs.locate path = some (p, name))
    (hindex : (fs.disk.dirTable p).findIndex name = some j)
    (hflag : (fs.disk.dirTable p).isDirectory j = false)
    (htable : ∀ k, fs.fileTable.table k = none) (hfiles : fs.fileTable.nbFiles = 0)
    {chunks : List (List UInt8)} {sizes : List ℕ}
    (hchunks : ∀ chunk ∈ chunks, 0 < chunk.length ∧ chunk.length < 2 ^ 31)
    (hsizes : ∀ n ∈ sizes, 0 < n ∧ n < 2 ^ 31) :
    (∃ stored got, fs.writeThenRead heap path chunks sizes = .ok (stored, got) ∧
        RoundTrip (fs.disk.contents ((fs.disk.dirTable p).sector j).toNat) chunks stored got) ↔
      FitsInt (fs.lengthOf ((fs.disk.dirTable p).sector j).toNat) 0 (chunks.map List.length) ∧
        FitsInt (fs.lengthOf ((fs.disk.dirTable p).sector j).toNat) 0 sizes := by
  have h := hfs.consistent
  have hp := hfs.locate_mem hlocate
  obtain ⟨t, hsector, hfile⟩ :=
    h.file_of_child hp (h.childEntry_of_findIndex hp hindex hflag) hflag
  rw [hsector, Int.toNat_natCast]
  constructor
  · rintro ⟨stored, got, hok, -⟩
    by_contra hfits
    rw [writeThenRead_of_not_fits hfs heap hlocate hindex hsector hfile htable hfiles
      (fun chunk hchunk => (hchunks chunk hchunk).2) (fun n hn => (hsizes n hn).2) hfits] at hok
    cases hok
  · rintro ⟨hwrites, hreads⟩
    exact writeThenRead_of_fits hfs heap hlocate hindex hsector hfile htable hfiles hwrites hreads
      fun n hn => (hsizes n hn).1

/-- A freshly formatted disk with one file, `a`, of two bytes. -/
theorem exists_file_of_two : ∃ fs disk' i,
    format (fun _ _ => 0) (fun _ _ => 0) (fun _ => none) = .ok fs ∧
      fs.createFile (fun _ _ => 0) [97] 2 = .ok (true, { fs with disk := disk' }) ∧
      ({ fs with disk := disk' } : FileSystem).Valid (Layout.initial.insert 5 false) 1 ∧
      (disk'.dirTable 1).findIndex [97] = some i ∧ (disk'.dirTable 1).sector i = (5 : ℕ) ∧
      (disk'.dirTable 1).isDirectory i = false ∧ (disk'.header 5).numBytes = 2 ∧
      (∀ k, fs.fileTable.table k = none) ∧ fs.fileTable.nbFiles = 0 := by
  obtain ⟨fs, hformat, hformatted, hvalid, hnew, -⟩ :=
    format_eq_ok (fun _ _ => 0) (fun _ _ => 0) (fun _ => none)
  obtain ⟨i, disk', hcreate, ins, hbytes, -⟩ := hvalid.createFile_of_formatted hformatted
    (fun _ _ => 0) [97] 2 (by decide) (by decide) (by decide) (by omega)
  refine ⟨fs, disk', i, hformat, hcreate, hvalid.of_inserted ins,
    ins.findIndex,
    Consistent.sector_new ins, Consistent.isDirectory_new ins, hbytes, fun k => ?_, ?_⟩
  · rw [hnew]
    rfl
  · rw [hnew]
    rfl

/-- Two bytes written in two pieces and read back three at a time. -/
theorem roundTrip_two_bytes : ∃ fs disk' stored got,
    format (fun _ _ => 0) (fun _ _ => 0) (fun _ => none) = .ok fs ∧
      fs.createFile (fun _ _ => 0) [97] 2 = .ok (true, { fs with disk := disk' }) ∧
      ({ fs with disk := disk' } : FileSystem).writeThenRead (fun _ _ => 0) [97] [[1], [2]] [3] =
        .ok (stored, got) ∧
      RoundTrip (disk'.contents 5) [[1], [2]] stored got := by
  obtain ⟨fs, disk', i, hformat, hcreate, hvalid, hindex, hsector, hflag, hbytes, htable, hfiles⟩ :=
    exists_file_of_two
  have hlength : ({ fs with disk := disk' } : FileSystem).lengthOf 5 = 2 := by
    rw [lengthOf, hbytes]
    rfl
  have hsession := (roundTrip_iff hvalid (fun _ _ => 0) (hvalid.locate_of_component (by decide))
    hindex hflag htable hfiles
    (show ∀ chunk ∈ ([[1], [2]] : List (List UInt8)), 0 < chunk.length ∧ chunk.length < 2 ^ 31 by
      decide)
    (show ∀ n ∈ [3], 0 < n ∧ n < 2 ^ 31 by decide)).mpr
  simp only [hsector, Int.toNat_natCast, hlength] at hsession
  obtain ⟨stored, got, hok, htrip⟩ := hsession ⟨⟨by simp, by simp, trivial⟩, by simp, trivial⟩
  exact ⟨fs, disk', stored, got, hformat, hcreate, hok, htrip⟩

/-- One byte read from a file of two, and then as many as an `int` can say: the end
of the second request overflows and the session does not return. -/
theorem not_roundTrip_overflow : ∃ fs disk',
    format (fun _ _ => 0) (fun _ _ => 0) (fun _ => none) = .ok fs ∧
      fs.createFile (fun _ _ => 0) [97] 2 = .ok (true, { fs with disk := disk' }) ∧
      ¬ ∃ stored got, ({ fs with disk := disk' } : FileSystem).writeThenRead (fun _ _ => 0) [97] []
          [1, 2147483647] = .ok (stored, got) ∧
        RoundTrip (disk'.contents 5) [] stored got := by
  obtain ⟨fs, disk', i, hformat, hcreate, hvalid, hindex, hsector, -, hbytes, htable, hfiles⟩ :=
    exists_file_of_two
  have hlength : ({ fs with disk := disk' } : FileSystem).lengthOf 5 = 2 := by
    rw [lengthOf, hbytes]
    rfl
  refine ⟨fs, disk', hformat, hcreate, ?_⟩
  rintro ⟨stored, got, hok, -⟩
  rw [writeThenRead_of_not_fits hvalid (fun _ _ => 0) (hvalid.locate_of_component (by decide))
    hindex hsector (Layout.mem_files_insert.mpr (Or.inr ⟨rfl, rfl⟩)) htable hfiles (by simp)
    (by decide)] at hok
  · cases hok
  · rw [hlength]
    rintro ⟨-, -, hsecond, -⟩
    exact absurd (hsecond (by decide)) (by decide)

end FileSystem

end Nachos
