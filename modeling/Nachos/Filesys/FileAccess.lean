/-
# Files as byte arrays

Every other part of the file system relies on `ReadAt` and `WriteAt` to treat a file as an array
of `FileLength()` bytes. On a request that begins at a byte of the file and whose end fits an
`int` they do, whatever the alignment of the two ends.

The second part is about the requests for which this is not so. The test of the request adds two
unrestricted `int`s and lets a negative position through; the sectors and the places in the
buffer are computed from what it lets through. All accesses that follow are listed, and they lie
inside the file exactly for the requests that are meant. The last part ties the lists to the two
functions: a call that does not return fails at an access of its list, or gets no buffer.
-/

import Nachos.Filesys.OpenFile

namespace Nachos

open Base

/-- The number of sectors that the bytes of a file take. -/
def FileHeader.sectorCount (h : FileHeader) : ℕ := (h.numBytes.toNat + 127) / 128

/-- A header whose sectors are those that its bytes take, as `Allocate` makes it. -/
structure FileHeader.Regular (h : FileHeader) : Prop where
  length : h.numBytes ≤ MaxFileSize
  numSectors : h.numSectors = divRoundUp h.numBytes SectorSize

namespace OpenFile

/-- The bytes that a request transfers. -/
def count (f : OpenFile) (numBytes position : ℤ) : ℤ :=
  max 0 (min numBytes (f.hdr.numBytes - position))

/-- What `ReadAt` and `WriteAt` have to do. -/
structure IsByteArray (f : OpenFile) (disk : Disk) (numBytes position : ℤ) : Prop where
  /-- `ReadAt` delivers the bytes of the request and nothing else. -/
  readAt (into : Mem) (off : ℕ) :
    ∃ into', f.readAt disk into off numBytes position = .ok (f.count numBytes position, into') ∧
      (∀ t : ℕ, t < f.count numBytes position →
        into' (off + t) = fileBytes disk f.hdr (position.toNat + t)) ∧
      ∀ a : ℕ, a < off ∨ off + f.count numBytes position ≤ a → into' a = into a
  /-- `WriteAt` replaces the bytes of the request, and neither the others, nor the sectors of
  other files, nor a header that lies in one of those. -/
  writeAt (uninit source : Mem) :
    ∃ disk', f.writeAt uninit disk source numBytes position =
        .ok (f.count numBytes position, disk') ∧
      (∀ t : ℕ, t < f.count numBytes position →
        fileBytes disk' f.hdr (position.toNat + t) = source t) ∧
      (∀ j : ℕ, j < f.hdr.numBytes →
        j < position ∨ position + f.count numBytes position ≤ j →
        fileBytes disk' f.hdr j = fileBytes disk f.hdr j) ∧
      (∀ s, s ∉ f.hdr.sectorList f.hdr.sectorCount → disk' s = disk s) ∧
      ∀ sector : ℤ, sector.toNat ∉ f.hdr.sectorList f.hdr.sectorCount →
        OpenFile.new uninit disk' sector = OpenFile.new uninit disk sector

variable {f : OpenFile} {disk : Disk} {numBytes position : ℤ}

/-- A request for nothing, or behind the end of the file. -/
theorem IsByteArray.of_none (h : numBytes ≤ 0 ∨ position ≥ f.hdr.numBytes) :
    f.IsByteArray disk numBytes position := by
  have hcount : f.count numBytes position = 0 := by
    rw [count]
    omega
  have hnone : f.checkRequest numBytes position = none := f.checkRequest_eq_none h
  refine ⟨fun into off => ⟨into, ?_, fun t ht => ?_, fun _ _ => rfl⟩,
    fun uninit source => ⟨disk, ?_, fun t ht => ?_, fun _ _ _ => rfl, fun _ _ => rfl, fun _ _ => rfl⟩⟩
  · rw [OpenFile.readAt, hnone, hcount]
  · omega
  · rw [OpenFile.writeAt, hnone, hcount]
  · omega

/-- A header is read from one sector. -/
theorem new_congr {disk' : Disk} {sector : ℤ} (uninit : Mem)
    (h : disk' sector.toNat = disk sector.toNat) :
    OpenFile.new uninit disk' sector = OpenFile.new uninit disk sector := by
  rw [OpenFile.new, OpenFile.new, FileHeader.fetchFrom, FileHeader.fetchFrom, Disk.readSector,
    Disk.readSector, h]

/-- **Files are byte arrays.** -/
theorem byte_array (f : OpenFile) (disk : Disk) (numBytes position : ℤ)
    (hlength : f.hdr.numBytes ≤ MaxFileSize) (hvalid : f.hdr.InRange f.hdr.sectorCount)
    (hdistinct : (f.hdr.sectorList f.hdr.sectorCount).Nodup) (hposition : 0 ≤ position)
    (hsum : position + numBytes < 2 ^ 31) : f.IsByteArray disk numBytes position := by
  by_cases hnone : numBytes ≤ 0 ∨ position ≥ f.hdr.numBytes
  · exact .of_none hnone
  push Not at hnone
  obtain ⟨pos, rfl⟩ := Int.eq_ofNat_of_zero_le hposition
  obtain ⟨n, rfl⟩ := Int.eq_ofNat_of_zero_le hnone.1.le
  have hcount : f.count n pos = (f.transferred n pos : ℤ) := by
    rw [count, transferred]
    omega
  have hmax : f.hdr.sectorCount ≤ 30 := by
    rw [MaxFileSize, NumDirect, SectorSize] at hlength
    rw [FileHeader.sectorCount]
    omega
  have hm : pos + f.transferred n pos ≤ 128 * f.hdr.sectorCount := by
    rw [transferred, FileHeader.sectorCount]
    omega
  refine ⟨fun into off => ?_, fun uninit source => ?_⟩
  · refine ⟨_, hcount ▸ f.readAt_natCast disk into off n pos (fun _ => by omega) hvalid (by omega) hm,
      fun t ht => ?_, fun a ha => ?_⟩
    · rw [Mem.copy_of_mem _ _ (by omega)]
      exact congrArg (fileBytes disk f.hdr) (by omega)
    · exact Mem.copy_of_not_mem _ _ (by omega)
  · obtain ⟨disk', hwrite, hframe, hdata⟩ := f.writeAt_of_nodup uninit disk source n pos
      (fun _ => by omega) hvalid (by omega) hm hdistinct
    have hbyte (j : ℕ) (hj : (j : ℤ) < f.hdr.numBytes) :=
      hdata j (by rw [FileHeader.sectorCount]; omega) hj
    refine ⟨disk', hcount ▸ hwrite, fun t ht => ?_, fun j hj hout => ?_, hframe,
      fun sector hsector => new_congr uninit (hframe _ hsector)⟩
    · have hinside : ((pos + t : ℕ) : ℤ) < f.hdr.numBytes := by
        rw [count] at ht
        omega
      rw [Int.toNat_natCast, hbyte (pos + t) hinside, if_pos (by omega), Nat.add_sub_cancel_left]
    · rw [hbyte j hj, if_neg (by omega)]

/-- A file of 200 bytes in the sectors 5 and 7. -/
def twoSectors : OpenFile where
  hdr := (((FileHeader.new fun _ => 0).setNumBytes 200).setNumSectors 2 |>.setDataSector 0 5)
    |>.setDataSector 1 7
  seekPosition := 0

/-- A request across the two sectors that is cut off at the end of the file. -/
theorem byte_array_two :
    twoSectors.count 150 90 = 110 ∧ twoSectors.IsByteArray (fun _ _ => 0) 150 90 := by
  refine ⟨by decide, byte_array _ _ 150 90 (by decide) ?_ (by decide) (by decide) (by decide)⟩
  have hcount : twoSectors.hdr.sectorCount = 2 := by decide
  have hrange : ∀ i < 2, 0 ≤ twoSectors.hdr.dataSectors i ∧
      twoSectors.hdr.dataSectors i < 1024 := by decide
  rw [hcount]
  exact hrange

/-! ## Where the accesses go -/

/-- An access of `ReadAt` or `WriteAt`. -/
inductive Access
  /-- An entry of `dataSectors`. -/
  | dataSectors (i : ℤ)
  /-- `n` bytes of a buffer of the given size, from index `i` on. -/
  | buffer (i n size : ℤ)
  /-- The copy between the file and the memory of the caller. -/
  | transfer (n : ℤ)
  deriving DecidableEq, Repr

/-- An access inside the file with the given header, or inside the buffer. -/
def Access.Inside (h : FileHeader) : Access → Prop
  | .dataSectors i => 0 ≤ i ∧ i < h.numSectors
  | .buffer i n size => 0 ≤ i ∧ i + n ≤ size
  | .transfer n => n ≤ h.numBytes

/-- The loop over `n` sectors from sector `first` of the file on. -/
def loopAccesses (first size : ℤ) : ℕ → List Access
  | 0 => []
  | n + 1 => loopAccesses first size n ++
      [.dataSectors (((first + n) * SectorSize).tdiv SectorSize),
        .buffer (n * SectorSize) SectorSize size]

/-- The accesses of `ReadAt`; `alloc` says which buffers can be had. -/
def readAccesses (f : OpenFile) (alloc : ℤ → Bool) (numBytes position : ℤ) : List Access :=
  match f.checkRequest numBytes position with
  | none => []
  | some numBytes =>
      let first := firstSector position
      let numSectors := 1 + lastSector numBytes position - first
      let size := wrap32 (numSectors * SectorSize)
      if alloc size then
        loopAccesses first size numSectors.toNat ++
          [.buffer (position - first * SectorSize) numBytes size, .transfer numBytes]
      else []

/-- The accesses of `WriteAt` when it reads in one sector, at index `i` of its buffer. -/
def partialAccesses (f : OpenFile) (alloc : ℤ → Bool) (sector i size : ℤ) : List Access :=
  f.readAccesses alloc SectorSize (sector * SectorSize) ++
    match f.checkRequest SectorSize (sector * SectorSize) with
    | none => []
    | some numBytes => [.buffer i numBytes size]

/-- The accesses of `WriteAt`. -/
def writeAccesses (f : OpenFile) (alloc : ℤ → Bool) (numBytes position : ℤ) : List Access :=
  match f.checkRequest numBytes position with
  | none => []
  | some numBytes =>
      let first := firstSector position
      let last := lastSector numBytes position
      let numSectors := 1 + last - first
      let size := wrap32 (numSectors * SectorSize)
      let firstAligned := decide (position = first * SectorSize)
      let lastAligned := decide (wrap32 (position + numBytes) = wrap32 ((last + 1) * SectorSize))
      if alloc size then
        (if !firstAligned then f.partialAccesses alloc first 0 size else []) ++
          (if !lastAligned && (first != last || firstAligned) then
            f.partialAccesses alloc last ((last - first) * SectorSize) size else []) ++
          [.buffer (position - first * SectorSize) numBytes size, .transfer numBytes] ++
          loopAccesses first size numSectors.toNat
      else []

/-- Both functions stay inside the file, whichever buffers can be had. -/
def StaysInside (f : OpenFile) (numBytes position : ℤ) : Prop :=
  ∀ alloc : ℤ → Bool, (∀ a ∈ f.readAccesses alloc numBytes position, a.Inside f.hdr) ∧
    ∀ a ∈ f.writeAccesses alloc numBytes position, a.Inside f.hdr

theorem mem_loopAccesses {first size : ℤ} {n : ℕ} {a : Access} :
    a ∈ loopAccesses first size n ↔
      ∃ t < n, a = .dataSectors (first + t) ∨ a = .buffer (t * SectorSize) SectorSize size := by
  induction n with
  | zero => simp [loopAccesses]
  | succ n ih =>
      rw [loopAccesses, Int.mul_tdiv_cancel _ (by decide), List.mem_append, ih]
      simp only [List.mem_cons, List.not_mem_nil, or_false]
      refine ⟨?_, ?_⟩
      · rintro (⟨t, ht, h⟩ | h)
        · exact ⟨t, by omega, h⟩
        · exact ⟨n, by omega, h⟩
      · rintro ⟨t, ht, h⟩
        by_cases hlast : t = n
        · exact .inr (hlast ▸ h)
        · exact .inl ⟨t, by omega, h⟩

/-- The sectors and the buffer of a request inside the file. -/
theorem checkRequest_inside (hregular : f.hdr.Regular) {n pos : ℕ} (hn : 0 < n)
    (hpos : (pos : ℤ) < f.hdr.numBytes) (hsum : pos + n < 2 ^ 31) :
    ∃ c : ℕ, f.checkRequest n pos = some (c : ℤ) ∧ 0 < c ∧ c ≤ n ∧ (pos + c : ℤ) ≤ f.hdr.numBytes ∧
      firstSector pos = (pos / 128 : ℕ) ∧ lastSector c pos = ((pos + c - 1) / 128 : ℕ) ∧
      wrap32 ((1 + lastSector c pos - firstSector pos) * SectorSize) =
        (((pos + c - 1) / 128 - pos / 128 + 1) * 128 : ℕ) ∧
      (((pos + c - 1) / 128 : ℕ) : ℤ) < f.hdr.numSectors := by
  have hlength := hregular.length
  have hcount : 0 < f.transferred n pos ∧ f.transferred n pos ≤ n ∧
      (pos + f.transferred n pos : ℤ) ≤ f.hdr.numBytes := by
    rw [transferred]
    omega
  refine ⟨f.transferred n pos, f.checkRequest_of_lt hn hpos hsum, hcount.1, hcount.2.1,
    hcount.2.2, firstSector_natCast pos, lastSector_natCast hcount.1 (by omega), ?_, ?_⟩
  · rw [firstSector_natCast, lastSector_natCast hcount.1 (by omega)]
    rw [MaxFileSize, NumDirect, SectorSize] at hlength
    rw [SectorSize, wrap32_eq_self (by omega) (by omega)]
    omega
  · rw [hregular.numSectors, divRoundUp, SectorSize, Int.tdiv_eq_ediv_of_nonneg (by omega),
      Int.tmod_eq_emod_of_nonneg (by omega)]
    split <;> omega

/-- The loop over the sectors of a request. -/
theorem loopAccesses_inside {h : FileHeader} {first n : ℕ} {size : ℤ}
    (hsize : size = (n * 128 : ℕ)) (hlast : ((first + n : ℕ) : ℤ) ≤ h.numSectors) :
    ∀ a ∈ loopAccesses first size n, a.Inside h := by
  intro a ha
  obtain ⟨t, ht, rfl | rfl⟩ := mem_loopAccesses.mp ha
  · exact ⟨by omega, by omega⟩
  · rw [Access.Inside, SectorSize]
    omega

/-- `ReadAt` stays inside the file on a request inside it. -/
theorem readAccesses_inside (hregular : f.hdr.Regular) (alloc : ℤ → Bool) {n pos : ℕ} (hn : 0 < n)
    (hpos : (pos : ℤ) < f.hdr.numBytes) (hsum : pos + n < 2 ^ 31) :
    ∀ a ∈ f.readAccesses alloc n pos, a.Inside f.hdr := by
  obtain ⟨c, hcheck, hc, hcn, hend, hfirst, hlast, hsize, hsectors⟩ :=
    checkRequest_inside hregular hn hpos hsum
  intro a ha
  simp only [readAccesses, hcheck, hsize] at ha
  split at ha
  · rw [hfirst, hlast] at ha
    rcases List.mem_append.mp ha with ha | ha
    · refine loopAccesses_inside ?_ ?_ a ha
      · omega
      · omega
    · simp only [List.mem_cons, List.not_mem_nil, or_false] at ha
      rcases ha with rfl | rfl
      · rw [Access.Inside, SectorSize]
        omega
      · rw [Access.Inside]
        omega
  · cases ha

/-- The sector that `WriteAt` reads in fits its place in the buffer. -/
theorem partialAccesses_inside (hregular : f.hdr.Regular) (alloc : ℤ → Bool) {sector : ℕ}
    {i size : ℤ} (hsector : ((sector * 128 : ℕ) : ℤ) < f.hdr.numBytes) (hi : 0 ≤ i)
    (hsize : i + 128 ≤ size) : ∀ a ∈ f.partialAccesses alloc sector i size, a.Inside f.hdr := by
  have hlength := hregular.length
  rw [MaxFileSize, NumDirect, SectorSize] at hlength
  have hcast : ((sector : ℤ) * SectorSize) = ((sector * 128 : ℕ) : ℤ) := by
    rw [SectorSize]
    omega
  obtain ⟨c, hcheck, hc, hcn, -⟩ :=
    checkRequest_inside hregular (n := 128) (by omega) hsector (by omega)
  intro a ha
  rw [partialAccesses, hcast, show (SectorSize : ℤ) = (128 : ℕ) from rfl, hcheck] at ha
  rcases List.mem_append.mp ha with ha | ha
  · exact readAccesses_inside hregular alloc (by omega) hsector (by omega) a ha
  · rw [List.mem_singleton.mp ha, Access.Inside]
    omega

/-- `WriteAt` stays inside the file on a request inside it. -/
theorem writeAccesses_inside (hregular : f.hdr.Regular) (alloc : ℤ → Bool) {n pos : ℕ} (hn : 0 < n)
    (hpos : (pos : ℤ) < f.hdr.numBytes) (hsum : pos + n < 2 ^ 31) :
    ∀ a ∈ f.writeAccesses alloc n pos, a.Inside f.hdr := by
  obtain ⟨c, hcheck, hc, hcn, hend, hfirst, hlast, hsize, hsectors⟩ :=
    checkRequest_inside hregular hn hpos hsum
  intro a ha
  simp only [writeAccesses, hcheck, hsize] at ha
  split at ha
  · rw [hfirst, hlast] at ha
    rcases List.mem_append.mp ha with ha | ha
    rcases List.mem_append.mp ha with ha | ha
    rcases List.mem_append.mp ha with ha | ha
    · split at ha
      · exact partialAccesses_inside hregular alloc (by omega) le_rfl (by omega) a ha
      · cases ha
    · split at ha
      · refine partialAccesses_inside hregular alloc (by omega) ?_ ?_ a ha
        · rw [SectorSize]
          omega
        · rw [SectorSize]
          omega
      · cases ha
    · simp only [List.mem_cons, List.not_mem_nil, or_false] at ha
      rcases ha with rfl | rfl
      · rw [Access.Inside, SectorSize]
        omega
      · rw [Access.Inside]
        omega
    · refine loopAccesses_inside ?_ ?_ a ha
      · omega
      · omega
  · cases ha

/-- A request for something that begins in front of the end of the file. -/
theorem exists_checkRequest (hn : 0 < numBytes) (hposition : position < f.hdr.numBytes) :
    ∃ c, f.checkRequest numBytes position = some c := by
  rw [checkRequest, if_neg (by rw [FileHeader.fileLength]; omega)]
  split <;> exact ⟨_, rfl⟩

theorem lt_of_checkRequest {c : ℤ} (h : f.checkRequest numBytes position = some c) :
    position < f.hdr.numBytes := by
  by_contra hbehind
  rw [f.checkRequest_eq_none (.inr (not_lt.mp hbehind))] at h
  cases h

/-- A request in front of the file begins with an entry in front of `dataSectors`, or with a byte
in front of the buffer. -/
theorem not_inside_of_neg (hlow : -2 ^ 31 ≤ position) (hneg : position < 0)
    (hn : 0 < numBytes) (hn' : numBytes < 2 ^ 31) (hlength : position < f.hdr.numBytes) :
    ∃ a ∈ f.readAccesses (fun _ => true) numBytes position, ¬ a.Inside f.hdr := by
  obtain ⟨c, hcheck⟩ := exists_checkRequest hn hlength
  have hsectors := f.firstSector_le_lastSector hlow hneg hn' hcheck
  simp only [readAccesses, hcheck, if_true]
  by_cases hfirst : firstSector position < 0
  · refine ⟨.dataSectors (firstSector position), List.mem_append_left _ ?_, fun h => ?_⟩
    · refine mem_loopAccesses.mpr ⟨0, by omega, .inl ?_⟩
      rw [Nat.cast_zero, add_zero]
    · exact absurd h.1 (by omega)
  · refine ⟨_, List.mem_append_right _ (List.mem_cons_self ..), fun h => ?_⟩
    have hindex := h.1
    rw [firstSector, SectorSize] at hindex hfirst
    omega

/-- Where the end of the request overflows, the whole request is transferred. -/
theorem not_inside_of_overflow (hregular : f.hdr.Regular) (hn : numBytes < 2 ^ 31)
    (hlength : position < f.hdr.numBytes) (hsum : 2 ^ 31 ≤ position + numBytes) :
    ∃ a ∈ f.readAccesses (fun _ => true) numBytes position, ¬ a.Inside f.hdr := by
  have hmax := hregular.length
  rw [MaxFileSize, NumDirect, SectorSize] at hmax
  refine ⟨.transfer numBytes, ?_, fun h => ?_⟩
  · simp only [readAccesses, f.checkRequest_of_overflow hlength hn hsum, if_true]
    simp
  · rw [Access.Inside] at h
    omega

/-- **Where `ReadAt` and `WriteAt` stay inside the file.** -/
theorem staysInside_iff (f : OpenFile) (hregular : f.hdr.Regular) (numBytes position : ℤ)
    (hlow : -2 ^ 31 ≤ position) (hhigh : numBytes < 2 ^ 31) :
    f.StaysInside numBytes position ↔ numBytes ≤ 0 ∨ f.hdr.numBytes ≤ position ∨
      (0 ≤ position ∧ position + numBytes < 2 ^ 31) := by
  refine ⟨fun h => ?_, fun h => ?_⟩
  · by_contra hnot
    push Not at hnot
    obtain ⟨hn, hlength, hrange⟩ := hnot
    obtain ⟨a, ha, hout⟩ : ∃ a ∈ f.readAccesses (fun _ => true) numBytes position,
        ¬ a.Inside f.hdr := by
      by_cases hneg : position < 0
      · exact not_inside_of_neg hlow hneg hn hhigh hlength
      · exact not_inside_of_overflow hregular hhigh hlength (hrange (not_lt.mp hneg))
    exact hout ((h _).1 a ha)
  · by_cases hnone : numBytes ≤ 0 ∨ position ≥ f.hdr.numBytes
    · have hcheck := f.checkRequest_eq_none hnone
      intro alloc
      rw [readAccesses, writeAccesses, hcheck]
      exact ⟨nofun, nofun⟩
    · push Not at hnone
      obtain ⟨hposition, hsum⟩ : 0 ≤ position ∧ position + numBytes < 2 ^ 31 := by omega
      obtain ⟨pos, rfl⟩ := Int.eq_ofNat_of_zero_le hposition
      obtain ⟨n, rfl⟩ := Int.eq_ofNat_of_zero_le hnone.1.le
      exact fun alloc => ⟨readAccesses_inside hregular alloc (by omega) hnone.2 (by omega),
        writeAccesses_inside hregular alloc (by omega) hnone.2 (by omega)⟩

/-- A read across the two sectors. -/
theorem staysInside_iff_two : twoSectors.hdr.Regular ∧ twoSectors.StaysInside 150 90 := by
  have hregular : twoSectors.hdr.Regular := ⟨by decide, by decide⟩
  exact ⟨hregular, (staysInside_iff _ hregular 150 90 (by decide) (by decide)).mpr (by decide)⟩

/-- One byte in front of the file is read from index `-1` of the buffer. -/
theorem not_staysInside_neg : twoSectors.hdr.Regular ∧
    twoSectors.readAccesses (fun _ => true) 1 (-1) =
      [.dataSectors 0, .buffer 0 128 128, .buffer (-1) 1 128, .transfer 1] ∧
    ¬ twoSectors.StaysInside 1 (-1) := by
  have haccesses : twoSectors.readAccesses (fun _ => true) 1 (-1) =
      [.dataSectors 0, .buffer 0 128 128, .buffer (-1) 1 128, .transfer 1] := by decide
  refine ⟨⟨by decide, by decide⟩, haccesses, fun h => ?_⟩
  have hread := (h fun _ => true).1
  rw [haccesses] at hread
  exact absurd (hread (.buffer (-1) 1 128) (by decide)).1 (by decide)

/-! ## The functions make these accesses -/

/-- The buffers that `new char[n]` gives. -/
def allocates (n : ℤ) : Bool := !decide (n < 0 ∨ 2 ^ 30 ≤ n)

theorem newChars_eq (n : ℤ) :
    newChars n = if allocates n then .ok () else .error .badAlloc := by
  by_cases h : n < 0 ∨ 2 ^ 30 ≤ n
  · rw [newChars, allocates, if_pos h, decide_eq_true h]
    rfl
  · rw [newChars, allocates, if_neg h, decide_eq_false h]
    rfl

/-- What an access needs to be made: no index is negative, and the sector is one of the disk. -/
def Access.Passes (h : FileHeader) : Access → Prop
  | .dataSectors i => 0 ≤ i ∧ 0 ≤ h.dataSectors i.toNat ∧ h.dataSectors i.toNat < 1024
  | .buffer i _ _ => 0 ≤ i
  | .transfer _ => True

/-- A call returns when all its accesses can be made, and otherwise fails at one of them, unless
it gets no buffer. -/
inductive Makes {α : Type} (h : FileHeader) (accesses : List Access) : Except Fault α → Prop
  | returns (r : α) : (∀ a ∈ accesses, a.Passes h) → Makes h accesses (.ok r)
  | fails (fault : Fault) : (∃ a ∈ accesses, ¬ a.Passes h) → Makes h accesses (.error fault)
  | noBuffer : Makes h accesses (.error .badAlloc)

/-- A sequence makes the accesses of both parts. -/
theorem Makes.bind {α β : Type} {h : FileHeader} {accesses accesses' : List Access}
    {x : Except Fault α} {g : α → Except Fault β} (hx : Makes h accesses x)
    (hg : ∀ r, x = .ok r → Makes h accesses' (g r)) :
    Makes h (accesses ++ accesses') (x >>= g) := by
  cases hx with
  | returns r hpasses =>
      have hsecond := hg r rfl
      rw [Except.ok_bind]
      generalize g r = y at hsecond ⊢
      cases hsecond with
      | returns r' hpasses' =>
          refine .returns r' fun a ha => ?_
          rcases List.mem_append.mp ha with ha | ha
          · exact hpasses a ha
          · exact hpasses' a ha
      | fails fault hfails =>
          obtain ⟨a, ha, hnot⟩ := hfails
          exact .fails fault ⟨a, List.mem_append_right _ ha, hnot⟩
      | noBuffer => exact .noBuffer
  | fails fault hfails =>
      obtain ⟨a, ha, hnot⟩ := hfails
      exact .fails fault ⟨a, List.mem_append_left _ ha, hnot⟩
  | noBuffer => exact .noBuffer

/-- Accesses that can be made are no obstacle. -/
theorem Makes.append {α : Type} {h : FileHeader} {accesses more : List Access} {x : Except Fault α}
    (hx : Makes h accesses x) (hmore : ∀ a ∈ more, a.Passes h) : Makes h (accesses ++ more) x := by
  cases hx with
  | returns r hpasses =>
      refine .returns r fun a ha => ?_
      rcases List.mem_append.mp ha with ha | ha
      · exact hpasses a ha
      · exact hmore a ha
  | fails fault hfails =>
      obtain ⟨a, ha, hnot⟩ := hfails
      exact .fails fault ⟨a, List.mem_append_left _ ha, hnot⟩
  | noBuffer => exact .noBuffer

theorem Makes.map {α β : Type} {h : FileHeader} {accesses : List Access} {x : Except Fault α}
    {g : α → β} (hx : Makes h accesses x) : Makes h accesses (g <$> x) := by
  cases hx with
  | returns r hpasses => exact .returns (g r) hpasses
  | fails fault hfails => exact .fails fault hfails
  | noBuffer => exact .noBuffer

/-- The copy between the buffer and the memory of the caller, and what follows it. -/
theorem makes_copy {α : Type} (h : FileHeader) {accesses : List Access} (i n size : ℤ)
    {x : Except Fault α} (hx : Makes h accesses x) :
    Makes h ([.buffer i n size, .transfer n] ++ accesses) (inBounds (i ≥ 0) >>= fun _ => x) := by
  have htest : Makes h [.buffer i n size, .transfer n] (inBounds (i ≥ 0)) := by
    by_cases hi : i ≥ 0
    · rw [inBounds_of hi]
      exact .returns () (by simpa [Access.Passes] using hi)
    · rw [inBounds, if_neg hi]
      exact .fails _ ⟨_, List.mem_cons_self .., hi⟩
  exact htest.bind fun _ _ => hx

/-- The access to one sector of the file, for a loop that uses it in either direction. -/
theorem makes_sector (h : FileHeader) {α : Type} (offset : ℤ) {i n size : ℤ} (hi : 0 ≤ i)
    {g : ℤ → Except Fault α}
    (hg : ∀ sector, if 0 ≤ sector ∧ sector < 1024 then ∃ r, g sector = .ok r
      else ∃ fault, g sector = .error fault) :
    Makes h [.dataSectors (offset.tdiv SectorSize), .buffer i n size]
      (h.byteToSector offset >>= g) := by
  by_cases hindex : offset.tdiv SectorSize ≥ 0
  · rw [FileHeader.byteToSector, inBounds_of hindex, Except.ok_bind]
    have hsector := hg (h.dataSectors (offset.tdiv SectorSize).toNat)
    change Makes h _ (g (h.dataSectors (offset.tdiv SectorSize).toNat))
    split at hsector
    next hrange =>
      obtain ⟨r, hr⟩ := hsector
      rw [hr]
      refine .returns r fun a ha => ?_
      simp only [List.mem_cons, List.not_mem_nil, or_false] at ha
      rcases ha with rfl | rfl
      · exact ⟨hindex, hrange⟩
      · exact hi
    next hrange =>
      obtain ⟨fault, hfault⟩ := hsector
      rw [hfault]
      exact .fails fault ⟨_, List.mem_cons_self .., fun hpasses => hrange hpasses.2⟩
  · rw [FileHeader.byteToSector, inBounds, if_neg hindex]
    exact .fails _ ⟨_, List.mem_cons_self .., fun hpasses => hindex hpasses.1⟩

theorem makes_readSectors (f : OpenFile) (disk : Disk) (first size : ℤ) (buf : Mem) (n : ℕ) :
    Makes f.hdr (loopAccesses first size n) (f.readSectors disk first buf n) := by
  induction n with
  | zero => exact .returns buf (by simp [loopAccesses])
  | succ n ih =>
      refine ih.bind fun buf' _ => makes_sector f.hdr _ (by positivity) fun sector => ?_
      split
      next hrange => exact ⟨_, by rw [Disk.readSector_of_lt disk hrange.1 hrange.2]; rfl⟩
      next hrange => exact ⟨.assertion, by rw [Disk.readSector_of_not disk hrange]; rfl⟩

theorem makes_writeSectors (f : OpenFile) (disk : Disk) (first size : ℤ) (buf : Mem) (n : ℕ) :
    Makes f.hdr (loopAccesses first size n) (f.writeSectors first buf disk n) := by
  induction n with
  | zero => exact .returns disk (by simp [loopAccesses])
  | succ n ih =>
      refine ih.bind fun disk' _ => makes_sector f.hdr _ (by positivity) fun sector => ?_
      split
      next hrange => exact ⟨_, Disk.writeSector_of_lt disk' _ hrange.1 hrange.2⟩
      next hrange => exact ⟨.assertion, Disk.writeSector_of_not disk' _ hrange⟩

/-- **`ReadAt`** makes the accesses that are listed for it, and no other test decides whether it
returns. -/
theorem makes_readAt (f : OpenFile) (disk : Disk) (into : Mem) (off : ℕ) (numBytes position : ℤ) :
    Makes f.hdr (f.readAccesses allocates numBytes position)
      (f.readAt disk into off numBytes position) := by
  rw [readAt, readAccesses]
  cases f.checkRequest numBytes position with
  | none => exact .returns _ (by simp)
  | some c =>
      simp only [newChars_eq]
      split
      · rw [Except.ok_bind]
        refine (makes_readSectors f disk _ _ _ _).bind fun buf _ => ?_
        exact makes_copy f.hdr _ c _ (.returns _ (List.forall_mem_nil _))
      · exact .noBuffer

/-- A sector that is to be partially modified. -/
theorem makes_partial (f : OpenFile) (disk : Disk) (into : Mem) (off : ℕ) (sector : ℤ) {i size : ℤ}
    (hi : 0 ≤ i) : Makes f.hdr (f.partialAccesses allocates sector i size)
      (Prod.snd <$> f.readAt disk into off SectorSize (sector * SectorSize)) := by
  have hread := (f.makes_readAt disk into off SectorSize (sector * SectorSize)).map (g := Prod.snd)
  have hpasses : ∀ a ∈ (match f.checkRequest SectorSize (sector * SectorSize) with
      | none => []
      | some numBytes => [.buffer i numBytes size] : List Access), a.Passes f.hdr := by
    split
    · simp
    · simpa [Access.Passes] using hi
  exact hread.append hpasses

/-- Both sectors that are to be partially modified. Where the request ends before it begins, the
second one has no place in the buffer. -/
theorem makes_readPartial (f : OpenFile) (disk : Disk) (uninit : Mem) {first last : ℤ} (size : ℤ)
    (hbefore : last < first → last * SectorSize < f.hdr.numBytes)
    (firstAligned lastAligned : Bool) :
    Makes f.hdr ((if !firstAligned then f.partialAccesses allocates first 0 size else []) ++
        if !lastAligned && (first != last || firstAligned) then
          f.partialAccesses allocates last ((last - first) * SectorSize) size else [])
      (f.readPartial disk uninit first last firstAligned lastAligned) := by
  have hseq : f.readPartial disk uninit first last firstAligned lastAligned =
      (if !firstAligned then Prod.snd <$> f.readAt disk uninit 0 SectorSize (first * SectorSize)
        else .ok uninit) >>= fun buf =>
      if !lastAligned && (first != last || firstAligned) then do
        inBounds (last - first ≥ 0)
        Prod.snd <$> f.readAt disk buf ((last - first) * SectorSize).toNat SectorSize
          (last * SectorSize)
      else .ok buf := by
    cases firstAligned <;> rfl
  rw [hseq]
  refine Makes.bind ?_ fun buf _ => ?_
  · split
    · exact f.makes_partial disk uninit 0 first le_rfl
    · exact .returns uninit (List.forall_mem_nil _)
  · split
    · by_cases hle : last - first ≥ 0
      · rw [inBounds_of hle, Except.ok_bind]
        exact f.makes_partial disk buf _ last (mul_nonneg hle (by decide))
      · obtain ⟨c, hcheck⟩ := exists_checkRequest (by decide : (0 : ℤ) < SectorSize)
          (hbefore (by omega))
        rw [inBounds, if_neg hle]
        refine .fails _ ⟨.buffer ((last - first) * SectorSize) c size, ?_, fun hpasses => ?_⟩
        · rw [partialAccesses, hcheck]
          exact List.mem_append_right _ (List.mem_singleton_self _)
        · exact hle (nonneg_of_mul_nonneg_left hpasses (by decide))
    · exact .returns buf (List.forall_mem_nil _)

/-- **`WriteAt`** makes the accesses that are listed for it, in the same way. -/
theorem makes_writeAt (f : OpenFile) (uninit : Mem) (disk : Disk) (source : Mem)
    (numBytes position : ℤ) : Makes f.hdr (f.writeAccesses allocates numBytes position)
      (f.writeAt uninit disk source numBytes position) := by
  rw [writeAt, writeAccesses]
  cases hcheck : f.checkRequest numBytes position with
  | none => exact .returns _ (by simp)
  | some c =>
      have hbefore : lastSector c position < firstSector position →
          lastSector c position * SectorSize < f.hdr.numBytes := by
        intro hless
        have hlength := lt_of_checkRequest hcheck
        have hdiv := Int.mul_tdiv_add_tmod position SectorSize
        have hmod := Int.lt_tmod_of_pos position (show (0 : ℤ) < SectorSize by decide)
        rw [firstSector] at hless
        rw [SectorSize] at *
        omega
      simp only [newChars_eq]
      split
      · rw [Except.ok_bind, List.append_assoc]
        refine (makes_readPartial f disk uninit _ hbefore _ _).bind fun buf _ => ?_
        refine makes_copy f.hdr _ c _ ?_
        exact List.append_nil (loopAccesses _ _ _) ▸ (makes_writeSectors f disk _ _ _ _).bind
          fun disk' _ => .returns _ (List.forall_mem_nil _)
      · exact .noBuffer

end OpenFile

end Nachos
