/-
# Reading a file into the memory of a program

`SC_Read` reads the bytes into a buffer of the kernel and copies the buffer to the program
with `CopyStringToMachine`, which is made for strings: it stops at a zero byte or one short
of the size, writes a zero byte there, and takes no account of how many bytes were read. So
a file with a zero byte arrives cut off, the last byte of a full read is replaced by zero,
and after a short read or a failed one uninitialised bytes of the kernel stack follow.

The result says exactly when all this goes unnoticed, because the memory of the program
already holds the right bytes.
-/

import Mathlib.Data.Finset.Card
import Nachos.Filesys.Sequential
import Nachos.Userprog.Exception

namespace Nachos

open Base

/-- Id `i` is open for reading on `file`, whose pointers are sectors of the disk, at
position `pos`. -/
structure FileSystem.ReadableAt (fs : FileSystem) (i : ℤ) (file : OpenFile) (pos : ℕ) : Prop where
  entry : ∃ e, fs.fileTable.get i = some e ∧ e.mode = modeRead ∧ e.file = file
  seek : file.seekPosition = pos
  sectors : ∃ m ≤ 1024, file.hdr.InRange m ∧ file.hdr.numBytes ≤ 128 * m

/-- An id of a plain file of a consistent file system. -/
theorem FileSystem.OpenAt.readableAt {fs : FileSystem} {L : Layout} {i t pos : ℕ}
    (hopen : fs.OpenAt i t modeRead pos) (h : Consistent fs.disk L) (ht : t ∈ L.files) :
    ∃ file, fs.ReadableAt i file pos ∧ file.OpenedOn fs.disk t := by
  obtain ⟨hi, ⟨e, hentry, hmode, hfile, hseek⟩, -⟩ := hopen
  obtain ⟨hlisted, -, hlength, hvalid, -⟩ := FileSystem.OpenAt.sectors h ht hfile
  exact ⟨e.file, ⟨⟨e, (FileSystem.get_of_lt hi).trans hentry, hmode, rfl⟩, hseek, _, by omega,
    hvalid, hlength⟩, hfile⟩

/-- **A read through an id** that is open for reading. -/
theorem FileSystem.ReadableAt.read {fs : FileSystem} {i : ℤ} {file : OpenFile} {pos n : ℕ}
    (h : fs.ReadableAt i file pos) (buf : Mem) (hn : n < 2 ^ 30) :
    ∃ fs', fs.read i buf n = .ok ((file.transferred n pos : ℤ),
      buf.copy 0 (OpenFile.fileBytes fs.disk file.hdr) pos (file.transferred n pos), fs') := by
  obtain ⟨⟨e, hget, hmode, rfl⟩, hseek, m, hm, hvalid, hlength⟩ := h
  have hread : e.file.readAt fs.disk buf 0 n pos = .ok ((e.file.transferred n pos : ℤ),
      buf.copy 0 (OpenFile.fileBytes fs.disk e.file.hdr) pos (e.file.transferred n pos)) := by
    by_cases hpos : e.file.hdr.numBytes ≤ pos
    · have hzero : e.file.transferred n pos = 0 := by
        simp only [OpenFile.transferred]
        omega
      rw [OpenFile.readAt, e.file.checkRequest_eq_none (Or.inr hpos), hzero, Mem.copy_zero]
      rfl
    · exact e.file.readAt_natCast fs.disk buf 0 n pos (fun hpos => by omega) hvalid hm
        (by simp only [OpenFile.transferred]; omega)
  rw [FileSystem.read, hget]
  simp only [hmode, ne_eq, not_true_eq_false, if_false, OpenFile.read]
  rw [hseek, hread]
  exact ⟨_, rfl⟩

namespace Machine

/-- What a program can write is no longer than main memory. -/
theorem length_le_of_maps {m : Machine} {dst : BitVec 32} {n : ℕ} (hdist : m.FramesDistinct)
    (hn : n < 2 ^ 32) (hmaps : ∀ j < n, m.Maps (dst + BitVec.ofNat 32 j) true) :
    n ≤ NumPhysPages * PageSize := by
  have hcard := Finset.card_le_card_of_injOn (s := Finset.range n)
    (t := Finset.range (NumPhysPages * PageSize)) (fun j => m.physAddr (dst + BitVec.ofNat 32 j))
    (fun j hj => Finset.mem_coe.mpr
      (Finset.mem_range.mpr (hmaps j (Finset.mem_range.mp hj)).physAddr_lt)) (by
      intro i hi j hj heq
      rw [Finset.coe_range, Set.mem_Iio] at hi hj
      exact (WritableRange.of_framesDistinct hdist hn.le hmaps).injective i hi j hj heq)
  simpa using hcard

/-- A buffer of the kernel whose first `count` bytes are `data`, copied as a string of size
`n`, leaves exactly these bytes in the memory of the program. Either they contain a zero
byte and the bytes behind the first one are there already; or they do not, there are less
than `n` of them, and the string that follows in the buffer is there already. -/
def CopiesExactly (m : Machine) (dst : BitVec 32) (n count : ℕ) (data stack : Mem) : Prop :=
  (∃ z < count, data z = 0 ∧ (∀ j < z, data j ≠ 0) ∧
    ∀ j, z < j → j < count → m.userByte (dst + BitVec.ofNat 32 j) = some (data j)) ∨
  ((∀ j < count, data j ≠ 0) ∧ count < n ∧ ∃ k, count ≤ k ∧ k < n ∧
    (∀ j, count ≤ j → j < k →
      stack j ≠ 0 ∧ m.userByte (dst + BitVec.ofNat 32 j) = some (stack j)) ∧
    (k + 1 = n ∨ stack k = 0) ∧ m.userByte (dst + BitVec.ofNat 32 k) = some 0)

/-- What `CopyStringToMachine` does to the memory of the program. -/
structure StringCopied (m m' : Machine) (dst : BitVec 32) (string : Mem) (k : ℕ) : Prop where
  chars : ∀ j < k, m'.userByte (dst + BitVec.ofNat 32 j) = some (string j)
  terminator : m'.userByte (dst + BitVec.ofNat 32 k) = some 0
  others : ∀ a, (∀ j ≤ k, a ≠ dst + BitVec.ofNat 32 j) → m'.userByte a = m.userByte a

/-- The bytes are those wanted, and nothing else changed. -/
structure HoldsOnly (m m' : Machine) (dst : BitVec 32) (count : ℕ) (data : Mem) : Prop where
  bytes : ∀ j < count, m'.userByte (dst + BitVec.ofNat 32 j) = some (data j)
  others : ∀ a, (∀ j < count, a ≠ dst + BitVec.ofNat 32 j) → m'.userByte a = m.userByte a

section Copy

variable {m m' : Machine} {dst : BitVec 32} {string data stack : Mem} {n count k : ℕ}

theorem StringCopied.behind (h : StringCopied m m' dst string k) {j : ℕ} (hj : k < j)
    (hlt : j < 2 ^ 32) :
    m'.userByte (dst + BitVec.ofNat 32 j) = m.userByte (dst + BitVec.ofNat 32 j) :=
  h.others _ fun i hi => add_ofNat_ne dst hlt (by omega) (by omega)

theorem HoldsOnly.behind (h : HoldsOnly m m' dst count data) {j : ℕ} (hj : count ≤ j)
    (hlt : j < 2 ^ 32) :
    m'.userByte (dst + BitVec.ofNat 32 j) = m.userByte (dst + BitVec.ofNat 32 j) :=
  h.others _ fun i hi => add_ofNat_ne dst hlt (by omega) (by omega)

/-- Bytes with a zero among them: the copy ends at the first one. -/
theorem holdsOnly_iff_of_zero (hdata : ∀ j < count, string j = data j) (hcount : count ≤ n)
    (hn : n < 2 ^ 32) {z : ℕ} (hz : z < count) (hzero : data z = 0) (hfirst : ∀ j < z, data j ≠ 0)
    (h : StringCopied m m' dst string (string.strnlen (n - 1))) :
    HoldsOnly m m' dst count data ↔
      ∀ j, z < j → j < count → m.userByte (dst + BitVec.ofNat 32 j) = some (data j) := by
  have hk : string.strnlen (n - 1) = z := by
    refine Mem.strnlen_eq (by omega) (fun j hj => ?_) fun _ => ?_
    · rw [hdata j (by omega)]
      exact hfirst j hj
    · rw [hdata z hz, hzero]
  rw [hk] at h
  constructor
  · intro hold j hzj hj
    rw [← h.behind hzj (by omega)]
    exact hold.bytes j hj
  · intro hbehind
    refine ⟨fun j hj => ?_, fun a ha => h.others a fun j hj => ha j (by omega)⟩
    rcases Nat.lt_trichotomy j z with hlt | rfl | hgt
    · rw [h.chars j hlt, hdata j hj]
    · rw [h.terminator, hzero]
    · rw [h.behind hgt (by omega)]
      exact hbehind j hgt hj

/-- Bytes without a zero: the copy goes on behind them, if there is room. -/
theorem holdsOnly_iff_of_ne_zero (hdata : ∀ j < count, string j = data j)
    (hstack : ∀ j, count ≤ j → string j = stack j) (hcount : count ≤ n) (hpos : 0 < n)
    (hn : n < 2 ^ 32) (hne : ∀ j < count, data j ≠ 0)
    (h : StringCopied m m' dst string (string.strnlen (n - 1))) :
    HoldsOnly m m' dst count data ↔ count < n ∧ ∃ k, count ≤ k ∧ k < n ∧
      (∀ j, count ≤ j → j < k →
        stack j ≠ 0 ∧ m.userByte (dst + BitVec.ofNat 32 j) = some (stack j)) ∧
      (k + 1 = n ∨ stack k = 0) ∧ m.userByte (dst + BitVec.ofNat 32 k) = some 0 := by
  have hle := string.strnlen_le (n - 1)
  constructor
  · intro hold
    have hlow : count ≤ string.strnlen (n - 1) := by
      by_contra hlt
      -- the terminator has replaced a byte that is not zero
      have hbyte := hold.bytes (string.strnlen (n - 1)) (by omega)
      rw [h.terminator] at hbyte
      exact hne _ (by omega) (Option.some.inj hbyte).symm
    refine ⟨by omega, string.strnlen (n - 1), hlow, by omega, fun j hj hjk => ⟨?_, ?_⟩, ?_, ?_⟩
    · rw [← hstack j hj]
      exact Mem.ne_zero_of_lt_strnlen hjk
    · rw [← hold.behind hj (by omega), h.chars j hjk, hstack j hj]
    · by_cases hend : string.strnlen (n - 1) < n - 1
      · refine Or.inr ?_
        rw [← hstack _ hlow]
        exact Mem.strnlen_eq_zero hend
      · exact Or.inl (by omega)
    · rw [← hold.behind hlow (by omega), h.terminator]
  · rintro ⟨hlt, k, hlow, hkn, hchars, hend, hterm⟩
    have hk : string.strnlen (n - 1) = k := by
      refine Mem.strnlen_eq (by omega) (fun j hj => ?_) fun hk => ?_
      · by_cases hjc : j < count
        · rw [hdata j hjc]
          exact hne j hjc
        · rw [hstack j (by omega)]
          exact (hchars j (by omega) hj).1
      · rw [hstack k hlow]
        exact hend.resolve_left (by omega)
    rw [hk] at h
    refine ⟨fun j hj => ?_, fun a ha => ?_⟩
    · rw [h.chars j (by omega), hdata j hj]
    · by_cases hin : ∃ j ≤ k, a = dst + BitVec.ofNat 32 j
      · obtain ⟨j, hj, rfl⟩ := hin
        have hjc : count ≤ j := by
          by_contra hlt
          exact ha j (by omega) rfl
        by_cases heq : j = k
        · rw [heq, h.terminator, hterm]
        · rw [h.chars j (by omega), hstack j hjc, (hchars j hjc (by omega)).2]
      · exact h.others a fun j hj heq => hin ⟨j, hj, heq⟩

/-- **When a string copy is a copy of the bytes.** -/
theorem holdsOnly_iff_copiesExactly (hcount : count ≤ n) (hpos : 0 < n) (hn : n < 2 ^ 32)
    (hdata : ∀ j < count, string j = data j) (hstack : ∀ j, count ≤ j → string j = stack j)
    (h : StringCopied m m' dst string (string.strnlen (n - 1))) :
    HoldsOnly m m' dst count data ↔ CopiesExactly m dst n count data stack := by
  by_cases hzero : ∃ z, z < count ∧ data z = 0
  · obtain ⟨hz, hdz⟩ := Nat.find_spec hzero
    have hfirst : ∀ j < Nat.find hzero, data j ≠ 0 := fun j hj hj0 =>
      Nat.find_min hzero hj ⟨by omega, hj0⟩
    rw [holdsOnly_iff_of_zero hdata hcount hn hz hdz hfirst h]
    constructor
    · exact fun hbehind => Or.inl ⟨_, hz, hdz, hfirst, hbehind⟩
    · rintro (⟨z, hzc, hz0, hzfirst, hbehind⟩ | ⟨hne, -⟩)
      · have heq : Nat.find hzero = z := by
          rcases Nat.lt_trichotomy (Nat.find hzero) z with hlt | heq | hgt
          · exact absurd hdz (hzfirst _ hlt)
          · exact heq
          · exact absurd hz0 (hfirst _ hgt)
        rwa [heq]
      · exact absurd hdz (hne _ hz)
  · have hne : ∀ j < count, data j ≠ 0 := fun j hj hj0 => hzero ⟨j, hj, hj0⟩
    rw [holdsOnly_iff_of_ne_zero hdata hstack hcount hpos hn hne h]
    constructor
    · exact fun hrest => Or.inr ⟨hne, hrest⟩
    · rintro (⟨z, hzc, hz0, -⟩ | ⟨-, hrest⟩)
      · exact absurd hz0 (hne z hzc)
      · exact hrest

end Copy

/-- `CopyStringToMachine` into memory that can be written. -/
theorem stringCopied {m : Machine} (string : Mem) (dst size : BitVec 32) (hdist : m.FramesDistinct)
    (hsize : 0 < size.toNat) (hmaps : ∀ j < size.toNat, m.Maps (dst + BitVec.ofNat 32 j) true) :
    ∃ m', m.copyStringToMachine string dst size = .ok m' ∧
      StringCopied m m' dst string (string.strnlen (size.toNat - 1)) := by
  obtain ⟨m', hcopy, -, -, hchars, hterm, hothers⟩ :=
    copyStringToMachine_eq string dst size hdist hsize hmaps
  exact ⟨m', hcopy, hchars, hterm, hothers⟩

end Machine

namespace SystemState

/-- The handler of `SC_Read`, once the file system has read. -/
theorem exceptionHandler_read (uninit : Uninit)
    (others : SystemState → Logged FileOperation SystemState) (st : SystemState)
    (hcode : st.machine.readRegister (reg 2) = FileSyscall.code .read)
    (hdist : st.machine.FramesDistinct) (hsize : 0 < st.arg2.toNat)
    (hmaps : ∀ j < st.arg2.toNat, st.machine.Maps (st.arg1 + BitVec.ofNat 32 j) true)
    {res : ℤ} {string : Mem} {fs' : FileSystem}
    (hread : st.fs.read st.arg3.toInt uninit.stack st.arg2.toInt = .ok (res, string, fs')) :
    ∃ st', (exceptionHandler uninit others .syscallException st).result = .ok st' ∧
      st'.machine.readRegister (reg 2) = BitVec.ofInt 32 res ∧
      Machine.StringCopied st.machine st'.machine st.arg1 string
        (string.strnlen (st.arg2.toNat - 1)) := by
  obtain ⟨m', hcopy, hcopied⟩ := Machine.stringCopied string st.arg1 st.arg2 hdist hsize hmaps
  have hswitch : runSwitch (fileCases uninit) others (st.machine.readRegister (reg 2)) st =
      readCase uninit st := by
    rw [hcode]
    rfl
  have hperform : (st.perform uninit.heap uninit.stack (.read st.arg3.toInt st.arg2.toInt)).result =
      .ok (res, string, { st with fs := fs' }) :=
    (perform_result_eq_ok st).mpr ⟨fs', hread, rfl⟩
  have hcase : (readCase uninit st).result =
      .ok (putResult ⟨m', fs'⟩ res) := by
    rw [readCase, Logged.bind_result_of_ok _ hperform]
    dsimp only
    rw [hcopy]
    rfl
  refine ⟨⟨(putResult ⟨m', fs'⟩ res).machine.updatePC, fs'⟩, ?_, ?_, ?_⟩
  · rw [exceptionHandler_syscall, hswitch, Logged.bind_result_of_ok _ hcase]
    rfl
  · simp only [Machine.readRegister, Machine.updatePC, putResult]
    rw [Machine.registers_writeRegister_of_ne _ _ (by decide),
      Machine.registers_writeRegister_of_ne _ _ (by decide),
      Machine.registers_writeRegister_of_ne _ _ (by decide), Machine.registers_writeRegister_self]
  · have hmapping : m'.SameMapping (putResult ⟨m', fs'⟩ res).machine.updatePC :=
      ⟨rfl, fun _ => rfl, fun _ => rfl, fun _ => rfl⟩
    have hsame := hmapping.userByte rfl
    refine ⟨fun j hj => ?_, ?_, fun a ha => ?_⟩
    · rw [hsame, hcopied.chars j hj]
    · rw [hsame, hcopied.terminator]
    · rw [hsame, hcopied.others a ha]

/-- What `SC_Read` is to do: the bytes of the result are `data`, and no other byte of the
program has changed; none has when the result is `-1`. -/
def ReadsBytes (st st' : SystemState) (data : Mem) : Prop :=
  Machine.HoldsOnly st.machine st'.machine st.arg1
    (st'.machine.readRegister (reg 2)).toInt.toNat data

/-- A positive `int` as a natural number. -/
theorem toInt_eq_toNat_of_pos {x : BitVec 32} (h : 1 ≤ x.toInt) :
    x.toInt = x.toNat ∧ x.toNat < 2 ^ 31 := by
  have hlt := x.isLt
  rw [BitVec.toInt_eq_toNat_cond] at h ⊢
  split at h
  · omega
  · omega

theorem toInt_ofInt_of_lt {res : ℤ} (hlow : -1 ≤ res) (hhigh : res < 2 ^ 31) :
    (BitVec.ofInt 32 res).toInt = res :=
  BitVec.toInt_ofInt_eq_self (by decide) (by norm_num; omega) (by norm_num; omega)

/-- **When a program reads what is in the file.** `SC_Read` returns the number of bytes that
the file has from the position on, up to the size; these bytes are then in the memory of the
program and nothing else has changed exactly when the string copy does no harm. With an id
that is not open for reading the result is `-1`, and the memory is unchanged exactly when
the string in the uninitialised buffer is already there. -/
theorem readsBytes_iff (uninit : Uninit)
    (others : SystemState → Logged FileOperation SystemState) (st : SystemState)
    (hcode : st.machine.readRegister (reg 2) = FileSyscall.code .read)
    (hdist : st.machine.FramesDistinct) (hsize : 1 ≤ st.arg2.toInt)
    (hmaps : ∀ j < st.arg2.toNat, st.machine.Maps (st.arg1 + BitVec.ofNat 32 j) true) :
    (∀ file pos, st.fs.ReadableAt st.arg3.toInt file pos →
      ∃ st', (exceptionHandler uninit others .syscallException st).result = .ok st' ∧
        (st'.machine.readRegister (reg 2)).toInt = file.transferred st.arg2.toNat pos ∧
        (ReadsBytes st st' ((OpenFile.fileBytes st.fs.disk file.hdr).shift pos) ↔
          st.machine.CopiesExactly st.arg1 st.arg2.toNat (file.transferred st.arg2.toNat pos)
            ((OpenFile.fileBytes st.fs.disk file.hdr).shift pos) uninit.stack)) ∧
    ((∀ e, st.fs.fileTable.get st.arg3.toInt = some e → e.mode ≠ modeRead) →
      ∃ st', (exceptionHandler uninit others .syscallException st).result = .ok st' ∧
        (st'.machine.readRegister (reg 2)).toInt = -1 ∧
        ((∀ a, st'.machine.userByte a = st.machine.userByte a) ↔
          st.machine.CopiesExactly st.arg1 st.arg2.toNat 0 (fun _ => 0) uninit.stack)) := by
  obtain ⟨hn, hn31⟩ := toInt_eq_toNat_of_pos hsize
  have hpos : 0 < st.arg2.toNat := by omega
  have hlength := Machine.length_le_of_maps hdist (by omega) hmaps
  simp only [NumPhysPages, PageSize, SectorSize] at hlength
  refine ⟨fun file pos hfile => ?_, fun hnone => ?_⟩
  · obtain ⟨fs', hread⟩ := hfile.read uninit.stack (n := st.arg2.toNat) (by omega)
    rw [← hn] at hread
    obtain ⟨st', hok, hresult, hcopied⟩ := exceptionHandler_read uninit others st hcode hdist hpos hmaps
      hread
    have hcount : file.transferred st.arg2.toNat pos ≤ st.arg2.toNat := Nat.min_le_left _ _
    have hint : (st'.machine.readRegister (reg 2)).toInt = file.transferred st.arg2.toNat pos := by
      rw [hresult, toInt_ofInt_of_lt (by omega) (by omega)]
    refine ⟨st', hok, hint, ?_⟩
    rw [ReadsBytes, hint, Int.toNat_natCast]
    refine Machine.holdsOnly_iff_copiesExactly hcount hpos (by omega) (fun j hj => ?_)
      (fun j hj => ?_) hcopied
    · rw [Mem.copy_of_mem _ _ (by omega), Mem.shift_apply]
      exact congrArg _ (by omega)
    · exact Mem.copy_of_not_mem _ _ (by omega)
  · have hread : st.fs.read st.arg3.toInt uninit.stack st.arg2.toInt =
        .ok (-1, uninit.stack, st.fs) := by
      rw [FileSystem.read]
      cases hget : st.fs.fileTable.get st.arg3.toInt with
      | none => rfl
      | some e => exact if_pos (hnone e hget)
    obtain ⟨st', hok, hresult, hcopied⟩ := exceptionHandler_read uninit others st hcode hdist hpos hmaps
      hread
    refine ⟨st', hok, ?_, ?_⟩
    · rw [hresult, toInt_ofInt_of_lt (by omega) (by omega)]
    · have hiff : Machine.HoldsOnly st.machine st'.machine st.arg1 0 (fun _ => 0) ↔
          st.machine.CopiesExactly st.arg1 st.arg2.toNat 0 (fun _ => 0) uninit.stack :=
        Machine.holdsOnly_iff_copiesExactly (by omega) hpos (by omega)
          (fun j hj => absurd hj j.not_lt_zero) (fun _ _ => rfl) hcopied
      rw [← hiff]
      exact ⟨fun h => ⟨(fun j hj => absurd hj j.not_lt_zero), fun a _ => h a⟩,
        fun h a => h.others a (fun j hj => absurd hj j.not_lt_zero)⟩

/-- A file system with an id for reading: `a` was created with two bytes, which are zero, and
opened. -/
theorem exists_open_read : ∃ fs disk' fs' file,
    FileSystem.format (fun _ _ => 0) (fun _ _ => 0) (fun _ => none) = .ok fs ∧
      fs.createFile (fun _ _ => 0) [97] 2 = .ok (true, { fs with disk := disk' }) ∧
      ({ fs with disk := disk' } : FileSystem).openFile (fun _ _ => 0) [97] modeRead =
        .ok (0, fs') ∧
      fs'.ReadableAt 0 file 0 ∧ file.transferred 2 0 = 2 ∧
      ∀ j < 2, OpenFile.fileBytes fs'.disk file.hdr j = 0 := by
  obtain ⟨fs, hformat, hformatted, hvalid, hnew, hblank⟩ :=
    FileSystem.format_eq_ok (fun _ _ => 0) (fun _ _ => 0) (fun _ => none)
  obtain ⟨i, disk', hcreate, ins, hbytes, hsectors, hdata, -⟩ := hvalid.createFile_of_formatted
    hformatted (fun _ _ => 0) [97] 2 (by decide) (by decide) (by decide) (by omega)
  have hvalid' := hvalid.of_inserted ins
  have hfile : 5 ∈ (Layout.initial.insert 5 false).files :=
    Layout.mem_files_insert.mpr (Or.inr ⟨rfl, rfl⟩)
  obtain ⟨fs', hopen, hat, hequal, -⟩ := hvalid'.openFile_of_null (fun _ _ => 0) modeRead
    (hvalid'.locate_of_component (by decide)) ins.findIndex (Consistent.sector_new ins) hfile
    (by
      intro k
      change fs.fileTable.table k = none
      rw [hnew]
      rfl)
    (by
      change fs.fileTable.nbFiles = 0
      rw [hnew]
      rfl)
  have hdisk : fs'.disk = disk' := by rw [hequal]
  obtain ⟨file, hreadable, hopened⟩ := hat.readableAt (hdisk ▸ hvalid'.consistent) hfile
  rw [hdisk] at hopened
  refine ⟨fs, disk', fs', file, hformat, hcreate, hopen, hreadable, ?_, fun j hj => ?_⟩
  · rw [OpenFile.transferred, FileHeader.SameObject.numBytes hopened]
    rw [hbytes]
    rfl
  · obtain ⟨hsector, hkept⟩ := hdata 0 (by decide)
    rw [Disk.dataSector] at hsector
    have hpointer : (file.hdr.dataSectors (j / 128)).toNat = 6 := by
      rw [show j / 128 = 0 by omega, FileHeader.SameObject.dataSectors hopened (by omega)]
      exact hsector
    rw [OpenFile.fileBytes, hpointer, hdisk, hkept, hblank 6 (by omega)]

/-- The call `Read(0, 2, 0)` from a program whose memory is full of the given byte. -/
def readTwo (fs : FileSystem) (byte : UInt8) : SystemState :=
  ⟨identityMachine (callRegisters .read 0 2 0) fun _ => byte, fs⟩

theorem readTwo_framesDistinct (fs : FileSystem) (byte : UInt8) :
    (readTwo fs byte).machine.FramesDistinct := by
  intro i hi j hj _ _ heq
  simp only [readTwo, identityMachine, Machine.pageFrame] at hi hj heq
  omega

theorem readTwo_maps (fs : FileSystem) (byte : UInt8) {j : ℕ} (hj : j < 2) :
    (readTwo fs byte).machine.Maps (0 + BitVec.ofNat 32 j) true := by
  obtain rfl | rfl : j = 0 ∨ j = 1 := by omega
  all_goals
    refine ⟨?_, rfl, fun _ => rfl, ?_⟩
    · change (0 + BitVec.ofNat 32 _).toNat / PageSize < 16
      decide
    · change ((((0 + BitVec.ofNat 32 _).toNat / PageSize : ℕ) : ℤ) % 2 ^ 32).toNat < NumPhysPages
      decide

theorem readTwo_userByte (fs : FileSystem) (byte : UInt8) {j : ℕ} (hj : j < 2) :
    (readTwo fs byte).machine.userByte (0 + BitVec.ofNat 32 j) = some byte := by
  rw [Machine.userByte, if_pos (readTwo_maps fs byte hj).of_writing]
  rfl

/-- Two zero bytes read into memory that was zero. -/
theorem readsBytes_iff_zero : ∃ fs disk' fs' file st',
    FileSystem.format (fun _ _ => 0) (fun _ _ => 0) (fun _ => none) = .ok fs ∧
      fs.createFile (fun _ _ => 0) [97] 2 = .ok (true, { fs with disk := disk' }) ∧
      ({ fs with disk := disk' } : FileSystem).openFile (fun _ _ => 0) [97] modeRead =
        .ok (0, fs') ∧
      fs'.ReadableAt 0 file 0 ∧
      (exceptionHandler ⟨fun _ => 0, fun _ _ => 0, fun _ _ => 0⟩ pure .syscallException
        (readTwo fs' 0)).result = .ok st' ∧
      (st'.machine.readRegister (reg 2)).toInt = 2 ∧
      ReadsBytes (readTwo fs' 0) st' ((OpenFile.fileBytes fs'.disk file.hdr).shift 0) := by
  obtain ⟨fs, disk', fs', file, hformat, hcreate, hopen, hreadable, hcount, hzero⟩ :=
    exists_open_read
  obtain ⟨st', hok, hresult, hiff⟩ := (readsBytes_iff ⟨fun _ => 0, fun _ _ => 0, fun _ _ => 0⟩ pure
    (readTwo fs' 0) rfl (readTwo_framesDistinct fs' 0) (show 1 ≤ (2 : BitVec 32).toInt by decide)
    (fun j hj => readTwo_maps fs' 0 hj)).1 file 0 hreadable
  refine ⟨fs, disk', fs', file, st', hformat, hcreate, hopen, hreadable, hok, ?_, hiff.mpr ?_⟩
  · rw [hresult]
    exact congrArg Nat.cast hcount
  · have hdata (j : ℕ) (hj : j < 2) : (OpenFile.fileBytes fs'.disk file.hdr).shift 0 j = 0 := by
      rw [Mem.shift_apply, Nat.zero_add]
      exact hzero j hj
    refine Or.inl ⟨0, ?_, hdata 0 (by omega), by simp, fun j _ hj => ?_⟩
    · exact hcount.symm ▸ (by decide)
    · have hj2 : j < 2 := hcount ▸ hj
      exact (readTwo_userByte fs' 0 hj2).trans (congrArg some (hdata j hj2).symm)

/-- Two zero bytes read into memory that was not: the second byte does not arrive. -/
theorem not_readsBytes_of_zero : ∃ fs disk' fs' file,
    FileSystem.format (fun _ _ => 0) (fun _ _ => 0) (fun _ => none) = .ok fs ∧
      fs.createFile (fun _ _ => 0) [97] 2 = .ok (true, { fs with disk := disk' }) ∧
      ({ fs with disk := disk' } : FileSystem).openFile (fun _ _ => 0) [97] modeRead =
        .ok (0, fs') ∧
      fs'.ReadableAt 0 file 0 ∧
      ¬ ∀ st', (exceptionHandler ⟨fun _ => 0, fun _ _ => 0, fun _ _ => 0⟩ pure .syscallException
          (readTwo fs' 1)).result = .ok st' →
        ReadsBytes (readTwo fs' 1) st' ((OpenFile.fileBytes fs'.disk file.hdr).shift 0) := by
  obtain ⟨fs, disk', fs', file, hformat, hcreate, hopen, hreadable, hcount, hzero⟩ :=
    exists_open_read
  refine ⟨fs, disk', fs', file, hformat, hcreate, hopen, hreadable, fun h => ?_⟩
  have hdata (j : ℕ) (hj : j < 2) : (OpenFile.fileBytes fs'.disk file.hdr).shift 0 j = 0 := by
    rw [Mem.shift_apply, Nat.zero_add]
    exact hzero j hj
  obtain ⟨fs'', hread⟩ := hreadable.read (fun _ => 0) (n := 2) (by omega)
  obtain ⟨st', hok, hresult, hcopied⟩ := exceptionHandler_read
    ⟨fun _ => 0, fun _ _ => 0, fun _ _ => 0⟩ pure (readTwo fs' 1) rfl
    (readTwo_framesDistinct fs' 1) (show 0 < (2 : BitVec 32).toNat by decide)
    (fun j hj => readTwo_maps fs' 1 hj) hread
  have hint : (st'.machine.readRegister (reg 2)).toInt.toNat = 2 := by
    rw [hresult, hcount]
    decide
  have hbytes := h st' hok
  rw [ReadsBytes, hint] at hbytes
  -- the copy ends at the first byte, and the second one is still what it was
  have hbehind := (Machine.holdsOnly_iff_of_zero (n := 2) (fun j hj => ?_) le_rfl (by norm_num)
    (show 0 < 2 by omega) (hdata 0 (by omega)) (by simp) hcopied).mp hbytes 1 (by omega) (by omega)
  · rw [hdata 1 (by omega)] at hbehind
    have hone := (readTwo_userByte fs' 1 (show 1 < 2 by omega)).symm.trans hbehind
    cases hone
  · rw [hcount, Mem.copy_of_mem _ _ (by omega)]
    exact congrArg _ (by omega)

end SystemState

end Nachos
