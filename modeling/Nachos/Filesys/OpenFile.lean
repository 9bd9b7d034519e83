/-
# Open files

`filesys/openfile.{h,cc}`, with the two functions of `userprog/bitmap.cc` that go
through a file. An open file is a copy of the header, made when the file is
opened and never refreshed, and a seek position.

`ReadAt` and `WriteAt` work on C `int`s: the sum of position and size wraps, and
a negative position or size passes the initial test of the request. The results
below show that on a request inside the range of `int` the file behaves as the
sequence of the bytes of its data sectors, `fileBytes`.
-/

import Nachos.Filesys.FileHeader

namespace Nachos

open Base

/-- `class OpenFile`. -/
structure OpenFile where
  /-- Header for this file. -/
  hdr : FileHeader
  /-- Current position within the file. -/
  seekPosition : ℤ

namespace OpenFile

/-- `OpenFile::OpenFile`: bring the header at `sector` into memory. -/
def new (uninit : Mem) (disk : Disk) (sector : ℤ) : Except Fault OpenFile := do
  let hdr ← (FileHeader.new uninit).fetchFrom disk sector
  return ⟨hdr, 0⟩

/-- The test `ReadAt` and `WriteAt` both start with: `none` if nothing is to be
transferred, otherwise the number of bytes cut off at the end of the file. -/
def checkRequest (f : OpenFile) (numBytes position : ℤ) : Option ℤ :=
  if numBytes ≤ 0 ∨ position ≥ f.hdr.fileLength then none
  else if wrap32 (position + numBytes) > f.hdr.fileLength then
    some (wrap32 (f.hdr.fileLength - position))
  else some numBytes

/-- `firstSector = divRoundDown(position, SectorSize)`. -/
def firstSector (position : ℤ) : ℤ := position.tdiv SectorSize

/-- `lastSector = divRoundDown(position + numBytes - 1, SectorSize)`. -/
def lastSector (numBytes position : ℤ) : ℤ :=
  (wrap32 (wrap32 (position + numBytes) - 1)).tdiv SectorSize

/-- `new char[n]`. A negative size is refused. So is one of a gigabyte or more: the
program is a 32-bit process, and the bytes to be copied are a second object of that
size in it. -/
def newChars (n : ℤ) : Except Fault Unit :=
  if n < 0 ∨ 2 ^ 30 ≤ n then .error .badAlloc else .ok ()

/-- The loop that reads `n` sectors of the file, from sector `first` of it on. -/
def readSectors (f : OpenFile) (disk : Disk) (first : ℤ) (buf : Mem) : ℕ → Except Fault Mem
  | 0 => .ok buf
  | n + 1 => do
      let buf ← readSectors f disk first buf n
      let sector ← f.hdr.byteToSector ((first + n) * SectorSize)
      let data ← disk.readSector sector
      return buf.copy (n * SectorSize) data 0 SectorSize

/-- The loop that writes `n` sectors of the file, from sector `first` of it on. -/
def writeSectors (f : OpenFile) (first : ℤ) (buf : Mem) (disk : Disk) : ℕ → Except Fault Disk
  | 0 => .ok disk
  | n + 1 => do
      let disk ← writeSectors f first buf disk n
      let sector ← f.hdr.byteToSector ((first + n) * SectorSize)
      disk.writeSector sector (buf.shift (n * SectorSize))

/-- `OpenFile::ReadAt` into the buffer `into`, from its byte `off` on. -/
def readAt (f : OpenFile) (disk : Disk) (into : Mem) (off : ℕ) (numBytes position : ℤ) :
    Except Fault (ℤ × Mem) :=
  match f.checkRequest numBytes position with
  | none => .ok (0, into)
  | some numBytes => do
      let first := firstSector position
      let numSectors := 1 + lastSector numBytes position - first
      newChars (wrap32 (numSectors * SectorSize))
      let buf ← f.readSectors disk first (fun _ => 0) numSectors.toNat
      -- bcopy(&buf[position - (firstSector * SectorSize)], into, numBytes)
      inBounds (position - first * SectorSize ≥ 0)
      return (numBytes, into.copy off buf (position - first * SectorSize).toNat numBytes.toNat)

/-- The part of `WriteAt` that reads in the first and the last sector, if they
are to be partially modified. -/
def readPartial (f : OpenFile) (disk : Disk) (buf : Mem) (first last : ℤ)
    (firstAligned lastAligned : Bool) : Except Fault Mem := do
  let buf ← if !firstAligned then
      Prod.snd <$> f.readAt disk buf 0 SectorSize (first * SectorSize)
    else .ok buf
  if !lastAligned && (first != last || firstAligned) then do
    inBounds (last - first ≥ 0)
    Prod.snd <$> f.readAt disk buf ((last - first) * SectorSize).toNat SectorSize
      (last * SectorSize)
  else .ok buf

/-- `OpenFile::WriteAt`. The buffer is allocated without being initialised. -/
def writeAt (f : OpenFile) (uninit : Mem) (disk : Disk) (source : Mem)
    (numBytes position : ℤ) : Except Fault (ℤ × Disk) :=
  match f.checkRequest numBytes position with
  | none => .ok (0, disk)
  | some numBytes => do
      let first := firstSector position
      let last := lastSector numBytes position
      let numSectors := 1 + last - first
      newChars (wrap32 (numSectors * SectorSize))
      let firstAligned := decide (position = first * SectorSize)
      let lastAligned := decide (wrap32 (position + numBytes) = wrap32 ((last + 1) * SectorSize))
      let buf ← f.readPartial disk uninit first last firstAligned lastAligned
      -- bcopy(from, &buf[position - (firstSector * SectorSize)], numBytes)
      inBounds (position - first * SectorSize ≥ 0)
      let buf := buf.copy (position - first * SectorSize).toNat source 0 numBytes.toNat
      let disk ← f.writeSectors first buf disk numSectors.toNat
      return (numBytes, disk)

/-- `OpenFile::Read`. -/
def read (f : OpenFile) (disk : Disk) (into : Mem) (numBytes : ℤ) :
    Except Fault (ℤ × Mem × OpenFile) := do
  let (result, into) ← f.readAt disk into 0 numBytes f.seekPosition
  return (result, into, { f with seekPosition := wrap32 (f.seekPosition + result) })

/-- `OpenFile::Write`. -/
def write (f : OpenFile) (uninit : Mem) (disk : Disk) (source : Mem) (numBytes : ℤ) :
    Except Fault (ℤ × Disk × OpenFile) := do
  let (result, disk) ← f.writeAt uninit disk source numBytes f.seekPosition
  return (result, disk, { f with seekPosition := wrap32 (f.seekPosition + result) })

/-! ## Requests inside the range of `int` -/

/-- The bytes of the data sectors, in the order of the file. -/
def fileBytes (disk : Disk) (hdr : FileHeader) : Mem :=
  fun k => disk (hdr.dataSectors (k / 128)).toNat (k % 128)

/-- The number of bytes a request for `n` bytes at `pos` transfers. -/
def transferred (f : OpenFile) (n pos : ℕ) : ℕ := min n (f.hdr.numBytes.toNat - pos)

theorem checkRequest_eq_none (f : OpenFile) {numBytes position : ℤ}
    (h : numBytes ≤ 0 ∨ position ≥ f.hdr.numBytes) : f.checkRequest numBytes position = none :=
  if_pos h

theorem checkRequest_of_lt (f : OpenFile) {n pos : ℕ} (hn : 0 < n)
    (hpos : (pos : ℤ) < f.hdr.numBytes) (hrange : pos + n < 2 ^ 31) :
    f.checkRequest n pos = some (f.transferred n pos : ℤ) := by
  have hlength : f.hdr.fileLength < 2 ^ 31 := (f.hdr.mem.int32_range 0).2
  change (pos : ℤ) < f.hdr.fileLength at hpos
  rw [checkRequest, if_neg (by omega), wrap32_eq_self (by omega) (by omega), transferred]
  change _ = some (((min n (f.hdr.fileLength.toNat - pos) : ℕ)) : ℤ)
  by_cases hcut : (pos : ℤ) + n > f.hdr.fileLength
  · rw [if_pos hcut, wrap32_eq_self (by omega) (by omega)]
    congr 1
    omega
  · rw [if_neg hcut]
    congr 1
    omega

theorem firstSector_natCast (pos : ℕ) : firstSector pos = (pos / 128 : ℕ) := by
  simp only [firstSector, SectorSize]
  rw [Int.tdiv_eq_ediv_of_nonneg (by omega)]
  omega

theorem lastSector_natCast {n pos : ℕ} (hn : 0 < n) (hrange : pos + n < 2 ^ 31) :
    lastSector n pos = ((pos + n - 1) / 128 : ℕ) := by
  simp only [lastSector, SectorSize]
  have hsum : wrap32 ((pos : ℤ) + n) = pos + n := wrap32_eq_self (by omega) (by omega)
  rw [hsum, wrap32_eq_self (by omega) (by omega), Int.tdiv_eq_ediv_of_nonneg (by omega)]
  omega

theorem byteToSector_natCast (h : FileHeader) (i : ℕ) :
    h.byteToSector ((i : ℤ) * SectorSize) = .ok (h.dataSectors i) := by
  have hdiv : ((i : ℤ) * SectorSize).tdiv SectorSize = i := by
    simp only [SectorSize]
    rw [Int.tdiv_eq_ediv_of_nonneg (by omega)]
    omega
  rw [FileHeader.byteToSector, hdiv, inBounds_of (by omega)]
  rfl

/-- The read loop copies the bytes of the file. -/
theorem readSectors_eq (f : OpenFile) (disk : Disk) (buf : Mem) (first n : ℕ)
    (hvalid : f.hdr.InRange (first + n)) :
    f.readSectors disk first buf n =
      .ok (buf.copy 0 (fileBytes disk f.hdr) (128 * first) (128 * n)) := by
  induction n with
  | zero => simp [readSectors]
  | succ n ih =>
      obtain ⟨hlow, hhigh⟩ := hvalid (first + n) (by omega)
      rw [readSectors, ih fun i hi => hvalid i (by omega)]
      rw [← Nat.cast_add, Except.ok_bind, byteToSector_natCast, Except.ok_bind,
        Disk.readSector_of_lt disk hlow hhigh]
      simp only [Except.ok_bind, pure, Except.pure, SectorSize]
      congr 1
      funext k
      by_cases hlast : n * 128 ≤ k ∧ k < n * 128 + 128
      · rw [Mem.copy_of_mem _ _ hlast, Mem.copy_of_mem _ _ (by omega), fileBytes,
          show (k - 0 + 128 * first) / 128 = first + n by omega,
          show (k - 0 + 128 * first) % 128 = k - n * 128 + 0 by omega]
      · rw [Mem.copy_of_not_mem _ _ (by omega)]
        by_cases hbefore : k < 128 * n
        · rw [Mem.copy_of_mem _ _ (by omega), Mem.copy_of_mem _ _ (by omega)]
        · rw [Mem.copy_of_not_mem _ _ (by omega), Mem.copy_of_not_mem _ _ (by omega)]

/-- The buffer for the sectors of a request that lies on the disk. -/
theorem newChars_of_le {k : ℕ} (hk : k ≤ 1024) : newChars (wrap32 (k * (128 : ℕ))) = .ok () := by
  rw [wrap32_eq_self (by omega) (by omega), newChars, if_neg (by omega)]

/-- **`ReadAt` reads the bytes of the file.** -/
theorem readAt_natCast (f : OpenFile) (disk : Disk) (into : Mem) (off n pos : ℕ)
    {m : ℕ} (hrange : (pos : ℤ) < f.hdr.numBytes → pos + n < 2 ^ 31) (hvalid : f.hdr.InRange m)
    (hmax : m ≤ 1024)
    (hm : pos + f.transferred n pos ≤ 128 * m) :
    f.readAt disk into off n pos =
      .ok ((f.transferred n pos : ℤ),
        into.copy off (fileBytes disk f.hdr) pos (f.transferred n pos)) := by
  by_cases hempty : n = 0 ∨ f.hdr.numBytes ≤ pos
  · have hzero : f.transferred n pos = 0 := by
      simp only [transferred]
      omega
    rw [readAt, checkRequest_eq_none f (by omega), hzero]
    simp
  · have hcount : 0 < f.transferred n pos ∧ f.transferred n pos ≤ n := by
      simp only [transferred]
      omega
    have hrange := hrange (by omega)
    rw [readAt, checkRequest_of_lt f (by omega) (by omega) hrange]
    generalize f.transferred n pos = count at hm hcount ⊢
    have hsectors : (1 + ((pos + count - 1) / 128 : ℕ) - (pos / 128 : ℕ) : ℤ) =
        ((pos + count - 1) / 128 - pos / 128 + 1 : ℕ) := by omega
    simp only [firstSector_natCast, lastSector_natCast hcount.1 (show pos + count < 2 ^ 31 by omega),
      hsectors, SectorSize]
    rw [newChars_of_le (by omega), Int.toNat_natCast, Except.ok_bind,
      readSectors_eq f disk _ _ _ (fun i hi => hvalid i (by omega)), Except.ok_bind,
      inBounds_of (by omega), Except.ok_bind]
    simp only [pure, Except.pure, Int.toNat_natCast]
    congr 2
    funext k
    by_cases hk : off ≤ k ∧ k < off + count
    · rw [Mem.copy_of_mem _ _ hk, Mem.copy_of_mem _ _ hk, Mem.copy_of_mem _ _ (by omega)]
      congr 1
      omega
    · rw [Mem.copy_of_not_mem _ _ (by omega), Mem.copy_of_not_mem _ _ (by omega)]

/-- The write loop replaces exactly the listed sectors. Where the header lists a
sector twice, the last write counts. -/
theorem writeSectors_eq (f : OpenFile) (disk : Disk) (buf : Mem) (first n : ℕ)
    (hvalid : f.hdr.InRange (first + n)) :
    ∃ disk', f.writeSectors first buf disk n = .ok disk' ∧
      (∀ s, (∀ i, first ≤ i → i < first + n → (f.hdr.dataSectors i).toNat ≠ s) →
        disk' s = disk s) ∧
      ∀ i, first ≤ i → i < first + n →
        (∀ j, i < j → j < first + n →
          (f.hdr.dataSectors j).toNat ≠ (f.hdr.dataSectors i).toNat) →
        ∀ o < 128, disk' (f.hdr.dataSectors i).toNat o = buf ((i - first) * 128 + o) := by
  induction n with
  | zero => exact ⟨disk, rfl, fun _ _ => rfl, fun i _ _ => by omega⟩
  | succ n ih =>
      obtain ⟨disk₁, hprev, hframe, hdata⟩ := ih fun i hi => hvalid i (by omega)
      obtain ⟨hlow, hhigh⟩ := hvalid (first + n) (by omega)
      refine ⟨disk₁.put (f.hdr.dataSectors (first + n)).toNat (buf.shift (n * 128)), ?_, ?_, ?_⟩
      · rw [writeSectors, hprev, ← Nat.cast_add, Except.ok_bind, byteToSector_natCast,
          Except.ok_bind, Disk.writeSector_of_lt _ _ hlow hhigh]
        rfl
      · intro s hs
        rw [Disk.put_of_ne _ _ (hs (first + n) (by omega) (by omega)).symm]
        exact hframe s fun i hi hin => hs i hi (by omega)
      · intro i hi hin hlater o ho
        by_cases hequal : i = first + n
        · rw [hequal, Disk.put_self _ _ _ ho, Mem.shift_apply]
          congr 2
          omega
        · rw [Disk.put_of_ne _ _ (hlater (first + n) (by omega) (by omega)).symm]
          exact hdata i hi (by omega) (fun j hij hj => hlater j hij (by omega)) o ho

/-- One sector of the file, read to a place in the buffer. -/
theorem readAt_sector (f : OpenFile) (disk : Disk) (buf : Mem) (off : ℕ) {i m : ℕ}
    (hvalid : f.hdr.InRange m) (hmax : m ≤ 1024) (hi : i < m) :
    ∃ count buf', f.readAt disk buf off SectorSize ((i : ℤ) * SectorSize) = .ok (count, buf') ∧
      (∀ t < 128, buf' (off + t) = if ((128 * i + t : ℕ) : ℤ) < f.hdr.numBytes then
        fileBytes disk f.hdr (128 * i + t) else buf (off + t)) ∧
      ∀ k, k < off ∨ off + 128 ≤ k → buf' k = buf k := by
  have hread := f.readAt_natCast disk buf off 128 (128 * i) (m := m) (fun _ => by omega) hvalid
    hmax (by simp only [transferred]; omega)
  have hcast : ((128 * i : ℕ) : ℤ) = (i : ℤ) * SectorSize := by
    simp only [SectorSize]
    omega
  rw [hcast] at hread
  refine ⟨_, _, hread, fun t ht => ?_, fun k hk => ?_⟩
  · split
    · rw [Mem.copy_of_mem _ _ (by simp only [transferred]; omega)]
      congr 1
      omega
    · exact Mem.copy_of_not_mem _ _ (by simp only [transferred]; omega)
  · exact Mem.copy_of_not_mem _ _ (by simp only [transferred]; omega)

/-- The buffer of `WriteAt` before the new bytes are copied in: a first or last
sector that is not fully overwritten is there, as far as the file goes. -/
theorem readPartial_eq (f : OpenFile) (disk : Disk) (uninit : Mem) {a b m : ℕ}
    (firstAligned lastAligned : Bool) (hab : a ≤ b) (hvalid : f.hdr.InRange m) (hmax : m ≤ 1024)
    (hb : b < m) :
    ∃ buf, f.readPartial disk uninit a b firstAligned lastAligned = .ok buf ∧
      (firstAligned = false → ∀ t < 128, buf t =
        if ((128 * a + t : ℕ) : ℤ) < f.hdr.numBytes then fileBytes disk f.hdr (128 * a + t)
        else uninit t) ∧
      (lastAligned = false → ∀ t < 128, buf (128 * (b - a) + t) =
        if ((128 * b + t : ℕ) : ℤ) < f.hdr.numBytes then fileBytes disk f.hdr (128 * b + t)
        else uninit (128 * (b - a) + t)) := by
  have hoff : (((b : ℤ) - a) * SectorSize).toNat = 128 * (b - a) := by
    simp only [SectorSize]
    omega
  have hbound : inBounds (a ≤ b) = .ok () := inBounds_of hab
  obtain ⟨c₁, buf₁, hread₁, hdata₁, hframe₁⟩ :=
    f.readAt_sector disk uninit 0 hvalid hmax (show a < m by omega)
  simp only [Nat.zero_add] at hdata₁
  cases firstAligned with
  | true =>
      cases lastAligned with
      | true => exact ⟨uninit, by simp [readPartial], by simp, by simp⟩
      | false =>
          obtain ⟨c, buf, hread, hdata, -⟩ :=
            f.readAt_sector disk uninit (128 * (b - a)) hvalid hmax hb
          exact ⟨buf, by simp [readPartial, hoff, hbound, hread], by simp, fun _ => hdata⟩
  | false =>
      cases lastAligned with
      | true => exact ⟨buf₁, by simp [readPartial, hread₁], fun _ => hdata₁, by simp⟩
      | false =>
          by_cases hequal : a = b
          · subst hequal
            refine ⟨buf₁, by simp [readPartial, hread₁], fun _ => hdata₁, fun _ => ?_⟩
            simpa only [Nat.sub_self, Nat.mul_zero, Nat.zero_add] using hdata₁
          · obtain ⟨c, buf, hread, hdata, hframe⟩ :=
              f.readAt_sector disk buf₁ (128 * (b - a)) hvalid hmax hb
            refine ⟨buf, by simp [readPartial, hread₁, hoff, hbound, hread, hequal],
              fun _ t ht => ?_, fun _ t ht => ?_⟩
            · rw [hframe t (by omega)]
              exact hdata₁ t ht
            · rw [hdata t ht, hframe₁ _ (by omega)]

/-- A byte of the buffer that `WriteAt` writes: one of the request, one before it in the first
sector, or one behind it in the last sector. -/
theorem copy_readPartial (f : OpenFile) (uninit : Mem) (disk : Disk) (source : Mem) {buf : Mem}
    {pos count j : ℕ} (hcount : 0 < count)
    (hfirst : pos % 128 ≠ 0 → ∀ t < 128, buf t =
      if ((128 * (pos / 128) + t : ℕ) : ℤ) < f.hdr.numBytes then
        fileBytes disk f.hdr (128 * (pos / 128) + t)
      else uninit t)
    (hlast : (pos + count) % 128 ≠ 0 → ∀ t < 128,
      buf (128 * ((pos + count - 1) / 128 - pos / 128) + t) =
        if ((128 * ((pos + count - 1) / 128) + t : ℕ) : ℤ) < f.hdr.numBytes then
          fileBytes disk f.hdr (128 * ((pos + count - 1) / 128) + t)
        else uninit (128 * ((pos + count - 1) / 128 - pos / 128) + t))
    (hj : pos / 128 ≤ j / 128) (htouched : 128 * (j / 128) < pos + count) :
    buf.copy (pos % 128) source 0 count ((j / 128 - pos / 128) * 128 + j % 128) =
      if pos ≤ j ∧ j < pos + count then source (j - pos)
      else if (j : ℤ) < f.hdr.numBytes then fileBytes disk f.hdr j
      else uninit (j - 128 * (pos / 128)) := by
  have hplace : (j / 128 - pos / 128) * 128 + j % 128 = j - 128 * (pos / 128) := by omega
  have ht : j % 128 < 128 := Nat.mod_lt _ (by norm_num)
  rw [hplace]
  by_cases hin : pos ≤ j ∧ j < pos + count
  · rw [if_pos hin, Mem.copy_of_mem _ _ (by omega)]
    exact congrArg source (by omega)
  · rw [if_neg hin, Mem.copy_of_not_mem _ _ (by omega)]
    rcases Nat.lt_or_ge j pos with hbefore | hafter
    · have h := hfirst (by omega) (j % 128) ht
      rwa [show 128 * (pos / 128) + j % 128 = j by omega,
        show j % 128 = j - 128 * (pos / 128) by omega] at h
    · have h := hlast (by omega) (j % 128) ht
      rwa [show 128 * ((pos + count - 1) / 128) + j % 128 = j by omega,
        show 128 * ((pos + count - 1) / 128 - pos / 128) + j % 128 =
          j - 128 * (pos / 128) by omega] at h

/-- **`WriteAt` replaces the bytes of the request and no other byte of the file.**
Only the sectors the request touches are written; where the header lists a sector
twice, the last write counts. Behind the end of the file the last sector gets what
the buffer held. -/
theorem writeAt_natCast (f : OpenFile) (uninit : Mem) (disk : Disk) (source : Mem) (n pos : ℕ)
    {m : ℕ} (hrange : (pos : ℤ) < f.hdr.numBytes → pos + n < 2 ^ 31) (hvalid : f.hdr.InRange m)
    (hmax : m ≤ 1024)
    (hm : pos + f.transferred n pos ≤ 128 * m) :
    ∃ disk', f.writeAt uninit disk source n pos = .ok ((f.transferred n pos : ℤ), disk') ∧
      (∀ s, (∀ i, pos < 128 * (i + 1) → 128 * i < pos + f.transferred n pos →
          (f.hdr.dataSectors i).toNat ≠ s) → disk' s = disk s) ∧
      ∀ j, pos / 128 ≤ j / 128 → 128 * (j / 128) < pos + f.transferred n pos →
        (j : ℤ) < f.hdr.numBytes ∨ 0 < f.transferred n pos →
        (∀ i, j / 128 < i → 128 * i < pos + f.transferred n pos →
          (f.hdr.dataSectors i).toNat ≠ (f.hdr.dataSectors (j / 128)).toNat) →
        fileBytes disk' f.hdr j =
          if pos ≤ j ∧ j < pos + f.transferred n pos then source (j - pos)
          else if (j : ℤ) < f.hdr.numBytes then fileBytes disk f.hdr j
          else uninit (j - 128 * (pos / 128)) := by
  by_cases hempty : n = 0 ∨ f.hdr.numBytes ≤ pos
  · have hzero : f.transferred n pos = 0 := by
      simp only [transferred]
      omega
    refine ⟨disk, ?_, fun _ _ => rfl, fun j _ _ hlength _ => ?_⟩
    · rw [writeAt, checkRequest_eq_none f (by omega), hzero]
      rfl
    · rw [if_neg (by omega), if_pos (by omega)]
  · have hcount : 0 < f.transferred n pos ∧ f.transferred n pos ≤ n ∧
        ((pos + f.transferred n pos : ℕ) : ℤ) ≤ f.hdr.numBytes := by
      simp only [transferred]
      omega
    have hrange := hrange (by omega)
    rw [writeAt, checkRequest_of_lt f (by omega) (by omega) hrange]
    generalize f.transferred n pos = count at hm hcount ⊢
    have hsectors : (1 + ((pos + count - 1) / 128 : ℕ) - (pos / 128 : ℕ) : ℤ) =
        ((pos + count - 1) / 128 - pos / 128 + 1 : ℕ) := by omega
    have hwrap : wrap32 ((pos : ℤ) + count) = ((pos + count : ℕ) : ℤ) := by
      rw [wrap32_eq_self (by omega) (by omega)]
      omega
    have hend : wrap32 ((((pos + count - 1) / 128 : ℕ) + 1) * (128 : ℕ)) =
        (((pos + count - 1) / 128 : ℕ) + 1) * (128 : ℕ) := wrap32_eq_self (by omega) (by omega)
    simp only [firstSector_natCast, lastSector_natCast hcount.1 (show pos + count < 2 ^ 31 by omega),
      hsectors, hwrap, hend, SectorSize]
    rw [newChars_of_le (by omega), Except.ok_bind]
    obtain ⟨buf, hbuf, hfirst, hlast⟩ := f.readPartial_eq disk uninit
      (decide ((pos : ℤ) = (pos / 128 : ℕ) * (128 : ℕ)))
      (decide (((pos + count : ℕ) : ℤ) = (((pos + count - 1) / 128 : ℕ) + 1) * (128 : ℕ)))
      (a := pos / 128) (b := (pos + count - 1) / 128) (by omega) hvalid hmax (by omega)
    rw [hbuf, Except.ok_bind, inBounds_of (by omega), Except.ok_bind]
    rw [decide_eq_false_iff_not] at hfirst hlast
    have hoff : ((pos : ℤ) - (pos / 128 : ℕ) * (128 : ℕ)).toNat = pos % 128 := by omega
    rw [hoff, Int.toNat_natCast, Int.toNat_natCast]
    obtain ⟨disk', hwrite, hframe, hdata⟩ := f.writeSectors_eq disk
      (buf.copy (pos % 128) source 0 count) (pos / 128) ((pos + count - 1) / 128 - pos / 128 + 1)
      (fun i hi => hvalid i (by omega))
    refine ⟨disk', ?_, fun s hs => hframe s fun i hi hin => hs i (by omega) (by omega), ?_⟩
    · rw [hwrite]
      rfl
    · intro j hj htouched _ hlater
      have hbyte := hdata (j / 128) hj (by omega) (fun i hi hin => hlater i hi (by omega))
        (j % 128) (Nat.mod_lt _ (by norm_num))
      change disk' _ _ = _
      rw [hbyte]
      exact copy_readPartial f uninit disk source hcount.1 (fun h => hfirst (by omega))
        (fun h => hlast (by omega)) hj htouched

/-- The pointers below `m` are distinct when the list of them is. -/
theorem dataSectors_toNat_ne {h : FileHeader} {m i j : ℕ} (hnodup : (h.sectorList m).Nodup)
    (hi : i < m) (hj : j < m) (hne : i ≠ j) :
    (h.dataSectors i).toNat ≠ (h.dataSectors j).toNat := by
  intro hequal
  exact hne (List.inj_on_of_nodup_map hnodup (List.mem_range.mpr hi) (List.mem_range.mpr hj) hequal)

/-- `WriteAt` through a header whose pointers are distinct: the sectors outside the
file are unchanged, and so are the bytes of the file outside the request. -/
theorem writeAt_of_nodup (f : OpenFile) (uninit : Mem) (disk : Disk) (source : Mem) (n pos : ℕ)
    {m : ℕ} (hrange : (pos : ℤ) < f.hdr.numBytes → pos + n < 2 ^ 31) (hvalid : f.hdr.InRange m)
    (hmax : m ≤ 1024)
    (hm : pos + f.transferred n pos ≤ 128 * m) (hnodup : (f.hdr.sectorList m).Nodup) :
    ∃ disk', f.writeAt uninit disk source n pos = .ok ((f.transferred n pos : ℤ), disk') ∧
      (∀ s, s ∉ f.hdr.sectorList m → disk' s = disk s) ∧
      ∀ j < 128 * m, (j : ℤ) < f.hdr.numBytes → fileBytes disk' f.hdr j =
        if pos ≤ j ∧ j < pos + f.transferred n pos then source (j - pos)
        else fileBytes disk f.hdr j := by
  obtain ⟨disk', hwrite, hframe, hdata⟩ :=
    f.writeAt_natCast uninit disk source n pos hrange hvalid hmax hm
  refine ⟨disk', hwrite, fun s hs => hframe s fun i _ hi hequal => ?_, fun j hj hlength => ?_⟩
  · exact hs (FileHeader.mem_sectorList.mpr ⟨i, by omega, hequal⟩)
  · by_cases htouched : pos / 128 ≤ j / 128 ∧ 128 * (j / 128) < pos + f.transferred n pos
    · rw [hdata j htouched.1 htouched.2 (Or.inl hlength) fun i hij hi =>
        dataSectors_toNat_ne hnodup (by omega) (by omega) (by omega), if_pos hlength]
    · -- The sector of byte `j` lies outside the request, so it was not written.
      have hsector : disk' (f.hdr.dataSectors (j / 128)).toNat =
          disk (f.hdr.dataSectors (j / 128)).toNat :=
        hframe _ fun i hlow hhigh =>
          dataSectors_toNat_ne hnodup (by omega) (by omega) (by omega)
      rw [if_neg (by omega), fileBytes, fileBytes, hsector]

/-- The first `n` bytes of the file replaced, as `WriteBack` does. -/
theorem writeAt_zero (f : OpenFile) (uninit : Mem) (disk : Disk) (source : Mem) {n m : ℕ}
    (hn : n ≤ 128 * m) (hmax : m ≤ 30) (hlength : (n : ℤ) ≤ f.hdr.numBytes)
    (hvalid : f.hdr.InRange m) (hnodup : (f.hdr.sectorList m).Nodup) :
    ∃ disk', Prod.snd <$> f.writeAt uninit disk source n 0 = .ok disk' ∧
      (∀ s, s ∉ f.hdr.sectorList m → disk' s = disk s) ∧
      ∀ j < n, fileBytes disk' f.hdr j = source j := by
  have hcount : f.transferred n 0 = n := by
    simp only [transferred]
    omega
  obtain ⟨disk', hwrite, hframe, hdata⟩ := f.writeAt_of_nodup uninit disk source n 0
    (m := m) (fun _ => by omega) hvalid (by omega) (by omega) hnodup
  refine ⟨disk', ?_, hframe, fun j hj => ?_⟩
  · rw [Nat.cast_zero] at hwrite
    rw [hwrite]
    rfl
  · rw [hdata j (by omega) (by omega), if_pos (by omega), Nat.sub_zero]

/-- The first `n` bytes of the file, as `FetchFrom` reads them. -/
theorem readAt_zero (f : OpenFile) (disk : Disk) (into : Mem) {n m : ℕ} (hn : n ≤ 128 * m)
    (hmax : m ≤ 30) (hlength : (n : ℤ) ≤ f.hdr.numBytes) (hvalid : f.hdr.InRange m) :
    f.readAt disk into 0 n 0 = .ok ((n : ℤ), into.copy 0 (fileBytes disk f.hdr) 0 n) := by
  have hcount : f.transferred n 0 = n := by
    simp only [transferred]
    omega
  have hread := f.readAt_natCast disk into 0 n 0 (m := m) (fun _ => by omega) hvalid
    (by omega) (by omega)
  rwa [hcount] at hread

/-! ## Requests outside the range of `int` -/

/-- Where the sum of position and size overflows, the test takes the request as it
is. -/
theorem checkRequest_of_overflow (f : OpenFile) {numBytes position : ℤ}
    (hposition : position < f.hdr.numBytes) (hn : numBytes < 2 ^ 31)
    (hsum : 2 ^ 31 ≤ position + numBytes) : f.checkRequest numBytes position = some numBytes := by
  have hlength : f.hdr.fileLength < 2 ^ 31 := (f.hdr.mem.int32_range 0).2
  change position < f.hdr.fileLength at hposition
  rw [checkRequest, if_neg (by omega), wrap32_of_overflow hsum (by omega), if_neg (by omega)]

/-- The buffer such a request needs cannot be had. -/
theorem newChars_of_overflow {numBytes position : ℤ} (hposition : position < 2 ^ 29)
    (hn : numBytes < 2 ^ 31) (hsum : 2 ^ 31 ≤ position + numBytes) :
    newChars (wrap32 ((1 + lastSector numBytes position - firstSector position) * SectorSize)) =
      .error .badAlloc := by
  rw [newChars, if_pos]
  simp only [lastSector, firstSector, SectorSize, Nat.cast_ofNat]
  rw [wrap32_of_overflow hsum (by omega)]
  have hfirst : position.tdiv 128 = position / 128 := Int.tdiv_eq_ediv_of_nonneg (by omega)
  rw [hfirst]
  by_cases hedge : position + numBytes = 2 ^ 31
  · have hlast : wrap32 (position + numBytes - 2 ^ 32 - 1) = 2 ^ 31 - 1 := by
      rw [hedge]
      decide
    rw [hlast, show (2 ^ 31 - 1 : ℤ).tdiv 128 = 2 ^ 24 - 1 by decide]
    by_cases hzero : position / 128 = 0
    · rw [hzero]
      decide
    · rw [wrap32_eq_self (by omega) (by omega)]
      omega
  · have hlast : wrap32 (position + numBytes - 2 ^ 32 - 1) = position + numBytes - 2 ^ 32 - 1 :=
      wrap32_eq_self (by omega) (by omega)
    rw [hlast]
    have hdiv := Int.mul_tdiv_add_tmod (position + numBytes - 2 ^ 32 - 1) 128
    have hless := Int.tmod_lt_of_pos (position + numBytes - 2 ^ 32 - 1) (show (0 : ℤ) < 128 by norm_num)
    have hmore := Int.lt_tmod_of_pos (position + numBytes - 2 ^ 32 - 1)
      (show (0 : ℤ) < 128 by norm_num)
    generalize (position + numBytes - 2 ^ 32 - 1).tdiv 128 = last at hdiv ⊢
    generalize (position + numBytes - 2 ^ 32 - 1).tmod 128 = rest at hdiv hless hmore
    by_cases hwrap : -2 ^ 31 ≤ (1 + last - position / 128) * 128
    · rw [wrap32_eq_self hwrap (by omega)]
      omega
    · have hshift : wrap32 ((1 + last - position / 128) * 128) =
          (1 + last - position / 128) * 128 + 2 ^ 32 := by
        have := wrap32_eq_self (x := (1 + last - position / 128) * 128 + 2 ^ 32) (by omega) (by omega)
        rw [← this, wrap32, wrap32]
        exact (Int.add_bmod_right _ _).symm
      rw [hshift]
      omega

theorem readAt_of_overflow (f : OpenFile) (disk : Disk) (into : Mem) (off : ℕ)
    (numBytes position : ℤ) (hposition : position < f.hdr.numBytes)
    (hlength : f.hdr.numBytes ≤ 2 ^ 29) (hn : numBytes < 2 ^ 31)
    (hsum : 2 ^ 31 ≤ position + numBytes) :
    f.readAt disk into off numBytes position = .error .badAlloc := by
  rw [readAt, f.checkRequest_of_overflow hposition hn hsum]
  simp only [newChars_of_overflow (by omega) hn hsum, Except.error_bind]

theorem writeAt_of_overflow (f : OpenFile) (uninit : Mem) (disk : Disk) (source : Mem)
    (numBytes position : ℤ) (hposition : position < f.hdr.numBytes)
    (hlength : f.hdr.numBytes ≤ 2 ^ 29) (hn : numBytes < 2 ^ 31)
    (hsum : 2 ^ 31 ≤ position + numBytes) :
    f.writeAt uninit disk source numBytes position = .error .badAlloc := by
  rw [writeAt, f.checkRequest_of_overflow hposition hn hsum]
  simp only [newChars_of_overflow (by omega) hn hsum, Except.error_bind]

/-- The write loop does not get past a sector in front of the file. -/
theorem writeSectors_eq_ok {f : OpenFile} {first : ℤ} {buf : Mem} {disk disk' : Disk} {n : ℕ}
    (hok : f.writeSectors first buf disk (n + 1) = .ok disk') : 0 ≤ first := by
  induction n generalizing disk' with
  | zero =>
      simp only [writeSectors, Except.ok_bind, FileHeader.byteToSector, Except.bind_eq_ok,
        inBounds_eq_ok] at hok
      obtain ⟨_, ⟨_, hindex, _⟩, _⟩ := hok
      simp only [SectorSize, Nat.cast_zero, add_zero] at hindex
      rw [Int.mul_tdiv_cancel _ (by norm_num)] at hindex
      exact hindex
  | succ n ih =>
      rw [writeSectors, Except.bind_eq_ok] at hok
      obtain ⟨disk₁, hprev, _⟩ := hok
      exact ih hprev

/-- For a position in front of the file, the last sector of the request is not
before the first. -/
theorem firstSector_le_lastSector (f : OpenFile) {numBytes count position : ℤ}
    (hlow : -2 ^ 31 ≤ position) (hneg : position < 0) (hn : numBytes < 2 ^ 31)
    (hcheck : f.checkRequest numBytes position = some count) :
    firstSector position ≤ lastSector count position := by
  have hmax : f.hdr.fileLength < 2 ^ 31 := (f.hdr.mem.int32_range 0).2
  unfold checkRequest at hcheck
  split at hcheck
  · cases hcheck
  rename_i htest
  push Not at htest
  rw [wrap32_eq_self (by omega) (by omega)] at hcheck
  simp only [firstSector, lastSector]
  split at hcheck
  · cases hcheck
    have hsum : wrap32 (position + wrap32 (f.hdr.fileLength - position)) = f.hdr.fileLength := by
      have hend := wrap32_eq_self (x := f.hdr.fileLength) (by omega) hmax
      rw [wrap32] at hend
      rw [wrap32, wrap32, Int.add_bmod_bmod, add_sub_cancel, hend]
    rw [hsum, wrap32_eq_self (by omega) (by omega)]
    exact Int.tdiv_le_tdiv (by decide) (by omega)
  · cases hcheck
    have hsum : wrap32 (position + numBytes) = position + numBytes :=
      wrap32_eq_self (by omega) (by omega)
    rw [hsum, wrap32_eq_self (by omega) (by omega)]
    exact Int.tdiv_le_tdiv (by decide) (by omega)

/-- **A write that returns** either transferred nothing or was a request inside the
file and inside the range of `int`. -/
theorem writeAt_eq_ok {f : OpenFile} {uninit : Mem} {disk disk' : Disk} {source : Mem}
    {numBytes position result : ℤ} (hn : numBytes < 2 ^ 31) (hlow : -2 ^ 31 ≤ position)
    (hlength : f.hdr.numBytes ≤ 2 ^ 29)
    (hok : f.writeAt uninit disk source numBytes position = .ok (result, disk')) :
    (result = 0 ∧ disk' = disk) ∨
      0 < numBytes ∧ 0 ≤ position ∧ position < f.hdr.numBytes ∧ position + numBytes < 2 ^ 31 := by
  by_cases hempty : numBytes ≤ 0 ∨ position ≥ f.hdr.numBytes
  · rw [writeAt, f.checkRequest_eq_none hempty] at hok
    cases hok
    exact Or.inl ⟨rfl, rfl⟩
  push Not at hempty
  refine Or.inr ⟨hempty.1, ?_, hempty.2, ?_⟩
  · by_contra hneg
    cases hcheck : f.checkRequest numBytes position with
    | none =>
        unfold checkRequest at hcheck
        rw [if_neg (by change ¬(_ ∨ position ≥ f.hdr.numBytes); omega)] at hcheck
        split at hcheck <;> cases hcheck
    | some count =>
        have hsectors := f.firstSector_le_lastSector hlow (by omega) hn hcheck
        simp only [writeAt, hcheck, Except.bind_eq_ok, inBounds_eq_ok] at hok
        obtain ⟨_, _, _, _, _, hoffset, _, hwrite, _⟩ := hok
        obtain ⟨n, hcount⟩ : ∃ n, (1 + lastSector count position - firstSector position).toNat =
            n + 1 := ⟨(lastSector count position - firstSector position).toNat, by omega⟩
        rw [hcount] at hwrite
        have hfirst := writeSectors_eq_ok hwrite
        simp only [SectorSize] at hoffset
        omega
  · by_contra hsum
    rw [f.writeAt_of_overflow uninit disk source _ _ hempty.2 hlength hn (by omega)] at hok
    cases hok

end OpenFile

/-- `BitMap::FetchFrom`. -/
def BitMap.fetchFrom (b : BitMap) (disk : Disk) (file : OpenFile) : Except Fault BitMap := do
  let (_, map) ← file.readAt disk b.map 0 (b.numWords * 4) 0
  return { b with map := map }

theorem BitMap.numBits_fetchFrom {b b' : BitMap} {disk : Disk} {file : OpenFile}
    (h : b.fetchFrom disk file = .ok b') : b'.numBits = b.numBits := by
  obtain ⟨_, -, h⟩ := Except.bind_eq_ok.mp h
  cases h
  rfl

/-- `BitMap::WriteBack`. -/
def BitMap.writeBack (b : BitMap) (uninit : Mem) (disk : Disk) (file : OpenFile) :
    Except Fault Disk :=
  Prod.snd <$> file.writeAt uninit disk b.map (b.numWords * 4) 0

end Nachos
