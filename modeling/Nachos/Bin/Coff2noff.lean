/-
# From COFF to NOFF

`bin/coff2noff.c`. The sections of a COFF executable come in any number and order, and a NOFF header
has room for three segments. A `.text` section takes the place of the one before it, a second
`.data` or `.rdata` section is refused, and of the `.bss` and `.sbss` sections the first address and the
sum of the sizes are kept. The test that these are contiguous stands the wrong way round: it refuses
the ones that are.

What the host does not do is a failed call, and each failed call ends the program.
-/

import Nachos.Base.CString
import Nachos.Base.Extents
import Nachos.Userprog.Loader

namespace Nachos

open Base

/-- A `long` or an `int`, both of 32 bits. -/
def IsInt (x : ℤ) : Prop := -2 ^ 31 ≤ x ∧ x < 2 ^ 31

instance (x : ℤ) : Decidable (IsInt x) := inferInstanceAs (Decidable (_ ∧ _))

/-- `struct scnhdr`, as far as it is used. -/
structure ScnHdr where
  s_name : Mem
  s_paddr : ℤ
  s_size : ℤ
  s_scnptr : ℤ
  paddr_isInt : IsInt s_paddr
  size_isInt : IsInt s_size
  scnptr_isInt : IsInt s_scnptr

/-- `.text`. -/
def textName : List UInt8 := [46, 116, 101, 120, 116]

/-- `.data`. -/
def dataName : List UInt8 := [46, 100, 97, 116, 97]

/-- `.rdata`. -/
def rdataName : List UInt8 := [46, 114, 100, 97, 116, 97]

/-- `.bss`. -/
def bssName : List UInt8 := [46, 98, 115, 115]

/-- `.sbss`. -/
def sbssName : List UInt8 := [46, 115, 98, 115, 115]

namespace ScnHdr

/-- A section header at offset `a`. -/
def ofMem (m : Mem) (a : ℕ) : ScnHdr where
  s_name := m.shift a
  s_paddr := m.int32 (a + 8)
  s_size := m.int32 (a + 16)
  s_scnptr := m.int32 (a + 20)
  paddr_isInt := m.int32_range _
  size_isInt := m.int32_range _
  scnptr_isInt := m.int32_range _

/-- The name is `.text`. -/
def isText (scn : ScnHdr) : Bool := scn.s_name.strnEqual (Mem.ofString textName) 8

/-- The name is `.data` or `.rdata`. -/
def isData (scn : ScnHdr) : Bool :=
  scn.s_name.strnEqual (Mem.ofString dataName) 8 || scn.s_name.strEqual rdataName

/-- The name is `.bss` or `.sbss`. -/
def isBss (scn : ScnHdr) : Bool :=
  scn.s_name.strnEqual (Mem.ofString bssName) 8 || scn.s_name.strEqual sbssName

/-- The addresses of the section. -/
def extent (scn : ScnHdr) : Extent := ⟨scn.s_paddr, scn.s_size⟩

end ScnHdr

/-- A segment of the header, stored at offset `a`. -/
def Segment.store (segment : Segment) (m : Mem) (a : ℕ) : Mem :=
  ((m.setInt32 a segment.virtualAddr).setInt32 (a + 4) segment.inFileAddr).setInt32 (a + 8)
    segment.size

/-- The bytes of the header. -/
def NoffHeader.toMem (noffH : NoffHeader) : Mem :=
  noffH.uninitData.store (noffH.initData.store (noffH.code.store
    (Mem.setInt32 (fun _ => 0) 0 noffH.noffMagic) 4) 16) 28

/-! ## The header as bytes -/

/-- The numbers of the segment are `int`s. -/
structure Segment.InRange (segment : Segment) : Prop where
  virtualAddr : IsInt segment.virtualAddr
  inFileAddr : IsInt segment.inFileAddr
  size : IsInt segment.size

/-- The numbers of the header are `int`s. -/
structure NoffHeader.InRange (noffH : NoffHeader) : Prop where
  noffMagic : IsInt noffH.noffMagic
  code : noffH.code.InRange
  initData : noffH.initData.InRange
  uninitData : noffH.uninitData.InRange

theorem Segment.ofMem_inRange (m : Mem) (a : ℕ) : (Segment.ofMem m a).InRange :=
  ⟨m.int32_range _, m.int32_range _, m.int32_range _⟩

theorem IsInt.int32_setInt32 {v : ℤ} (h : IsInt v) (m : Mem) (a : ℕ) :
    (m.setInt32 a v).int32 a = v :=
  m.int32_setInt32_self a h.1 h.2

/-- A segment is read as it was stored. -/
theorem Segment.ofMem_store {segment : Segment} (h : segment.InRange) (m : Mem) (a : ℕ) :
    Segment.ofMem (segment.store m a) a = segment := by
  simp only [store, ofMem]
  rw [Mem.int32_setInt32_of_disjoint _ _ (by omega), Mem.int32_setInt32_of_disjoint _ _ (by omega),
    h.virtualAddr.int32_setInt32, Mem.int32_setInt32_of_disjoint _ _ (by omega),
    h.inFileAddr.int32_setInt32, h.size.int32_setInt32]

theorem Segment.int32_store_of_disjoint (segment : Segment) (m : Mem) {a b : ℕ}
    (h : a + 12 ≤ b ∨ b + 4 ≤ a) : (segment.store m a).int32 b = m.int32 b := by
  simp only [store]
  rw [Mem.int32_setInt32_of_disjoint _ _ (by omega), Mem.int32_setInt32_of_disjoint _ _ (by omega),
    Mem.int32_setInt32_of_disjoint _ _ (by omega)]

theorem Segment.ofMem_store_of_disjoint (segment : Segment) (m : Mem) {a b : ℕ}
    (h : a + 12 ≤ b ∨ b + 12 ≤ a) : Segment.ofMem (segment.store m a) b = Segment.ofMem m b := by
  simp only [ofMem]
  rw [segment.int32_store_of_disjoint m (by omega), segment.int32_store_of_disjoint m (by omega),
    segment.int32_store_of_disjoint m (by omega)]

/-- The header is read as it was written. -/
theorem NoffHeader.ofMem_toMem {noffH : NoffHeader} (h : noffH.InRange) :
    NoffHeader.ofMem noffH.toMem = noffH := by
  simp only [ofMem, toMem, Segment.int32_store_of_disjoint, Segment.ofMem_store_of_disjoint,
    Nat.reduceAdd, Nat.reduceLeDiff, or_true, Segment.ofMem_store h.code,
    Segment.ofMem_store h.initData, Segment.ofMem_store h.uninitData,
    h.noffMagic.int32_setInt32]

/-- The COFF file. -/
structure CoffFile where
  bytes : Mem
  length : ℕ

namespace CoffFile

/-- `read(fd, buf, nBytes)` at the offset `pos`: how many bytes are read. -/
def read (coff : CoffFile) (pos : ℕ) (nBytes : ℤ) : ℤ :=
  if nBytes < 0 then -1 else min nBytes (coff.length - pos : ℕ)

end CoffFile

/-- What the host makes of a write of `n` bytes at the offset `pos`. A file that is opened as this
one is ends below `2 ^ 31`. -/
structure Host where
  accepts : ℕ → ℕ → Bool
  lt_of_accepts : ∀ {pos n}, accepts pos n = true → pos + n < 2 ^ 31

namespace Host

/-- `write(fd, buf, nBytes)` at the offset `pos`: how many bytes are written, or a failure. -/
def write (host : Host) (pos : ℕ) (nBytes : ℤ) : ℤ :=
  if 0 ≤ nBytes ∧ host.accepts pos nBytes.toNat then nBytes else -1

end Host

namespace Coff2noff

/-- The messages before `exit(1)`. The output file has been unlinked. -/
inductive Failure
  /-- `File is too short`. -/
  | tooShort
  /-- `Unable to write file`. -/
  | unableToWrite
  /-- `File is not a MIPSEL COFF file`. -/
  | notMipsel
  /-- `File is not a OMAGIC file`. -/
  | notOmagic
  /-- `Can't handle both data and rdata`. -/
  | dataAndRdata
  /-- `Can't handle both bss and sbss`. -/
  | bssAndSbss
  /-- `Unknown segment type`. -/
  | unknownSegment
  deriving DecidableEq

/-- `MIPSELMAGIC`. -/
def MIPSELMAGIC : ℕ := 0x0162

/-- `OMAGIC`. -/
def OMAGIC : ℕ := 0o407

/-- `sizeof(struct filehdr)`. -/
def sizeofFilehdr : ℕ := 20

/-- `sizeof(struct aouthdr)`. -/
def sizeofAouthdr : ℕ := 56

/-- `sizeof(struct scnhdr)`. -/
def sizeofScnhdr : ℕ := 40

/-- `Read`: the bytes, and where the file is then. -/
def read (coff : CoffFile) (pos : ℕ) (nBytes : ℤ) : Except Failure (Mem × ℕ) :=
  if coff.read pos nBytes = nBytes then .ok (coff.bytes.shift pos, pos + nBytes.toNat)
  else .error .tooShort

/-- `Write`: the file, and where it is then. -/
def write (host : Host) (out : Mem) (pos : ℕ) (buf : Mem) (nBytes : ℤ) :
    Except Failure (Mem × ℕ) :=
  if host.write pos nBytes = nBytes then .ok (out.copy pos buf 0 nBytes.toNat, pos + nBytes.toNat)
  else .error .unableToWrite

/-- `lseek(fd, offset, 0)`: a negative offset leaves the file where it is. -/
def lseek (pos : ℕ) (offset : ℤ) : ℕ := if 0 ≤ offset then offset.toNat else pos

/-- The variables of `main` while the segments are copied in, with the output file and where the two
files are. -/
structure State where
  inPos : ℕ
  out : Mem
  outPos : ℕ
  inNoffFile : ℤ
  noffH : NoffHeader

/-- The contents of a section are copied. -/
def copyContents (host : Host) (coff : CoffFile) (scn : ScnHdr) (s : State) :
    Except Failure State := do
  let (buffer, inPos) ← read coff (lseek s.inPos scn.s_scnptr) scn.s_size
  let (out, outPos) ← write host s.out s.outPos buffer scn.s_size
  return { s with
    inPos := inPos
    out := out
    outPos := outPos
    inNoffFile := wrap32 (s.inNoffFile + scn.s_size) }

/-- The loop body of `main`. -/
def copySection (host : Host) (coff : CoffFile) (s : State) (scn : ScnHdr) :
    Except Failure State :=
  if scn.s_size = 0 then
    -- do nothing!
    return s
  else if scn.isText then
    copyContents host coff scn { s with noffH :=
      { s.noffH with code := ⟨scn.s_paddr, s.inNoffFile, scn.s_size⟩ } }
  else if scn.isData then
    -- need to check if we have both .data and .rdata -- make sure one or the other is empty!
    if s.noffH.initData.size ≠ 0 then
      .error .dataAndRdata
    else
      copyContents host coff scn { s with noffH :=
        { s.noffH with initData := ⟨scn.s_paddr, s.inNoffFile, scn.s_size⟩ } }
  else if scn.isBss then
    -- need to check if we have both .bss and .sbss -- make sure they are contiguous
    if s.noffH.uninitData.size ≠ 0 then
      if scn.s_paddr = wrap32 (s.noffH.uninitData.virtualAddr + s.noffH.uninitData.size) then
        .error .bssAndSbss
      else
        return { s with noffH := { s.noffH with uninitData :=
          { s.noffH.uninitData with size := wrap32 (s.noffH.uninitData.size + scn.s_size) } } }
    else
      -- we don't need to copy the uninitialized data!
      return { s with noffH := { s.noffH with uninitData :=
        { s.noffH.uninitData with virtualAddr := scn.s_paddr, size := scn.s_size } } }
  else do
    let (buffer, _) ← read coff (lseek s.inPos scn.s_scnptr) scn.s_size
    let _ ← write host s.out s.outPos buffer scn.s_size
    .error .unknownSegment

/-- The variables before the loop. The fields of the header that are not initialised are what the stack
holds. -/
def start (stack : Mem) (inPos : ℕ) : State where
  inPos := inPos
  out := fun _ => 0
  outPos := sizeofNoffHeader
  inNoffFile := sizeofNoffHeader
  noffH :=
    { noffMagic := NOFFMAGIC
      code := { Segment.ofMem stack 4 with size := 0 }
      initData := { Segment.ofMem stack 16 with size := 0 }
      uninitData := { Segment.ofMem stack 28 with size := 0 } }

/-- `main` once the section headers are read: the output file, if it ends with `exit(0)`. -/
def convert (host : Host) (coff : CoffFile) (stack : Mem) (inPos : ℕ) (sections : List ScnHdr) :
    Except Failure Mem := do
  let s ← sections.foldlM (copySection host coff) (start stack inPos)
  let (out, _) ← write host s.out 0 s.noffH.toMem sizeofNoffHeader
  return out

/-- `main`. -/
def main (host : Host) (coff : CoffFile) (stack : Mem) : Except Failure Mem := do
  let (fileh, pos) ← read coff 0 sizeofFilehdr
  if fileh.uint16 0 ≠ MIPSELMAGIC then
    .error .notMipsel
  else do
    let (systemh, pos) ← read coff pos sizeofAouthdr
    if systemh.uint16 0 ≠ OMAGIC then
      .error .notOmagic
    else do
      let numsections := fileh.uint16 2
      let (headers, pos) ← read coff pos (numsections * sizeofScnhdr : ℕ)
      convert host coff stack pos
        ((List.range numsections).map fun i => ScnHdr.ofMem headers (i * sizeofScnhdr))

/-! ## What the output should hold -/

/-- The section is in the output file, where the segment says. -/
structure Holds (coff : CoffFile) (out : Mem) (segment : Segment) (scn : ScnHdr) : Prop where
  virtualAddr : segment.virtualAddr = scn.s_paddr
  size : segment.size = scn.s_size
  inFileAddr : 0 ≤ segment.inFileAddr
  bytes : ∀ k : ℕ, k < scn.s_size →
    out (segment.inFileAddr.toNat + k) = coff.bytes (scn.s_scnptr.toNat + k)

/-- Where a segment is in the output file. -/
def place (segment : Segment) : Extent := ⟨segment.inFileAddr, segment.size⟩

/-- Where the header is in the output file. -/
def headerPlace : Extent := ⟨0, sizeofNoffHeader⟩

/-- No section is lost. -/
structure KeepsSections (coff : CoffFile) (sections : List ScnHdr) (out : Mem) : Prop where
  code : ∀ scn ∈ sections, scn.isText → scn.s_size ≠ 0 →
    Holds coff out (NoffHeader.ofMem out).code scn
  initData : ∀ scn ∈ sections, scn.isData → scn.s_size ≠ 0 →
    Holds coff out (NoffHeader.ofMem out).initData scn
  apart : ∀ k : ℤ,
    ¬ (headerPlace.Contains k ∧ (place (NoffHeader.ofMem out).code).Contains k) ∧
      ¬ (headerPlace.Contains k ∧ (place (NoffHeader.ofMem out).initData).Contains k) ∧
        ¬ ((place (NoffHeader.ofMem out).code).Contains k ∧
          (place (NoffHeader.ofMem out).initData).Contains k)
  uninitData : ∀ a : ℤ, (NoffHeader.ofMem out).uninitData.Contains a ↔
    ∃ scn ∈ sections, scn.isBss ∧ scn.extent.Contains a

/-! ## The names -/

section Names

variable {scn : ScnHdr}

theorem apply_one_of_strnEqual {s : Mem} {c d : UInt8} {rest : List UInt8} {n : ℕ} (hc : c ≠ 0)
    (h : s.strnEqual (Mem.ofString (c :: d :: rest)) (n + 2) = true) : s 1 = d := by
  have hall := Mem.strnEqual_iff.mp h
  have hzero : s 0 = c := hall 0 (by omega) (by omega)
  exact hall 1 (by omega) fun j hj => by
    obtain rfl : j = 0 := by omega
    rwa [hzero]

/-- The five names differ in their second character. -/
theorem apply_one_of_isText (h : scn.isText) : scn.s_name 1 = 116 :=
  apply_one_of_strnEqual (by decide) h

theorem apply_one_of_isData (h : scn.isData) : scn.s_name 1 = 100 ∨ scn.s_name 1 = 114 :=
  (Bool.or_eq_true _ _ ▸ h).imp (apply_one_of_strnEqual (by decide))
    (apply_one_of_strnEqual (by decide))

theorem apply_one_of_isBss (h : scn.isBss) : scn.s_name 1 = 98 ∨ scn.s_name 1 = 115 :=
  (Bool.or_eq_true _ _ ▸ h).imp (apply_one_of_strnEqual (by decide))
    (apply_one_of_strnEqual (by decide))

theorem not_isData_of_isText (h : scn.isText) : scn.isData = false := by
  refine Bool.eq_false_iff.mpr fun hdata => ?_
  have hone := apply_one_of_isData hdata
  rw [apply_one_of_isText h] at hone
  simp at hone

theorem not_isBss_of_isText (h : scn.isText) : scn.isBss = false := by
  refine Bool.eq_false_iff.mpr fun hbss => ?_
  have hone := apply_one_of_isBss hbss
  rw [apply_one_of_isText h] at hone
  simp at hone

theorem not_isBss_of_isData (h : scn.isData) : scn.isBss = false := by
  refine Bool.eq_false_iff.mpr fun hbss => ?_
  have hdata := apply_one_of_isData h
  have hone := apply_one_of_isBss hbss
  rcases hdata with hdata | hdata <;>
    · rw [hdata] at hone
      simp at hone

end Names

/-! ## The contents of a section -/

/-- The contents of the section are in the input file. -/
structure Inside (coff : CoffFile) (scn : ScnHdr) : Prop where
  scnptr : 0 ≤ scn.s_scnptr
  size : 0 ≤ scn.s_size
  length : scn.s_scnptr + scn.s_size ≤ coff.length

variable {host : Host} {coff : CoffFile} {scn : ScnHdr} {s s' : State}

theorem read_eq_ok {pos : ℕ} {nBytes : ℤ} {result : Mem × ℕ}
    (h : read coff pos nBytes = .ok result) :
    result = (coff.bytes.shift pos, pos + nBytes.toNat) := by
  rw [read] at h
  split at h
  · exact (Except.ok.inj h).symm
  · cases h

theorem write_eq_ok {out buf : Mem} {pos : ℕ} {nBytes : ℤ} {result : Mem × ℕ}
    (hn : 0 ≤ nBytes) (h : write host out pos buf nBytes = .ok result) :
    result = (out.copy pos buf 0 nBytes.toNat, pos + nBytes.toNat) ∧
      (pos + nBytes.toNat : ℤ) < 2 ^ 31 := by
  rw [write] at h
  split at h
  next hcount =>
    refine ⟨(Except.ok.inj h).symm, ?_⟩
    rw [Host.write] at hcount
    split at hcount
    next haccepts =>
      have hlt := host.lt_of_accepts haccepts.2
      omega
    next => omega
  next => cases h

instance (coff : CoffFile) (scn : ScnHdr) : Decidable (Inside coff scn) :=
  decidable_of_iff
    (0 ≤ scn.s_scnptr ∧ 0 ≤ scn.s_size ∧ scn.s_scnptr + scn.s_size ≤ coff.length)
    ⟨fun ⟨h₁, h₂, h₃⟩ => ⟨h₁, h₂, h₃⟩, fun ⟨h₁, h₂, h₃⟩ => ⟨h₁, h₂, h₃⟩⟩

/-- What a copy of contents does. -/
theorem copyContents_eq_ok (hinside : Inside coff scn) (h : copyContents host coff scn s = .ok s')
    (hplace : s.inNoffFile = s.outPos) :
    s' = { s with
      inPos := scn.s_scnptr.toNat + scn.s_size.toNat
      out := s.out.copy s.outPos (coff.bytes.shift scn.s_scnptr.toNat) 0 scn.s_size.toNat
      outPos := s.outPos + scn.s_size.toNat
      inNoffFile := (s.outPos + scn.s_size.toNat : ℕ) } ∧
      s.outPos + scn.s_size.toNat < 2 ^ 31 := by
  have hsize := hinside.size
  simp only [copyContents, Except.bind_eq_ok] at h
  obtain ⟨⟨buffer, inPos⟩, hread, ⟨out, outPos⟩, hwrite, h⟩ := h
  have hread := read_eq_ok hread
  obtain ⟨hwrite, hlt⟩ := write_eq_ok hsize hwrite
  have hnext : wrap32 (s.inNoffFile + scn.s_size) = (s.outPos + scn.s_size.toNat : ℕ) := by
    rw [hplace, wrap32_eq_self (by omega) (by omega)]
    push_cast
    omega
  rw [lseek, if_pos hinside.scnptr] at hread
  cases hread
  cases hwrite
  rw [hnext] at h
  exact ⟨(Except.ok.inj h).symm, by omega⟩

/-! ## The sections of a kind -/

/-- The sections of a kind that are not empty, in their order. -/
def ofKind (kind : ScnHdr → Bool) (sections : List ScnHdr) : List ScnHdr :=
  sections.filter fun scn => kind scn && scn.s_size != 0

section Kinds

variable {kind : ScnHdr → Bool} {done sections : List ScnHdr}

theorem mem_ofKind : scn ∈ ofKind kind sections ↔ scn ∈ sections ∧ kind scn ∧ scn.s_size ≠ 0 := by
  simp [ofKind]

theorem ofKind_concat (done : List ScnHdr) (hkind : kind scn) (hsize : scn.s_size ≠ 0) :
    ofKind kind (done ++ [scn]) = ofKind kind done ++ [scn] := by
  simp [ofKind, hkind, hsize]

theorem ofKind_concat_of_empty (kind : ScnHdr → Bool) (done : List ScnHdr) (hsize : scn.s_size = 0) :
    ofKind kind (done ++ [scn]) = ofKind kind done := by
  simp [ofKind, hsize]

theorem ofKind_concat_of_other (done : List ScnHdr) (hkind : kind scn = false) :
    ofKind kind (done ++ [scn]) = ofKind kind done := by
  simp [ofKind, hkind]

end Kinds

/-- The addresses of the `.bss` and `.sbss` sections that are not empty, in their order. -/
def bssExtents (sections : List ScnHdr) : List Extent :=
  (ofKind ScnHdr.isBss sections).map ScnHdr.extent

/-- Where the uninitialised data start: at the first extent, but where the lengths before an extent
add up to nothing in 32 bits, they start over there. -/
def StartsAt (extents : List Extent) (address : ℤ) : Prop :=
  ∃ i, ∃ _ : i < extents.length, extents[i].start = address ∧
    2 ^ 32 ∣ Extent.total (extents.take i) ∧
      ∀ j, i < j → j < extents.length → ¬ 2 ^ 32 ∣ Extent.total (extents.take j)

section StartsAt

variable {extents : List Extent} {e : Extent} {a b : ℤ}

theorem StartsAt.unique (ha : StartsAt extents a) (hb : StartsAt extents b) : a = b := by
  obtain ⟨i, hi, rfl, hidvd, hilater⟩ := ha
  obtain ⟨j, hj, rfl, hjdvd, hjlater⟩ := hb
  rcases Nat.lt_trichotomy i j with hlt | rfl | hgt
  · exact absurd hjdvd (hilater j hlt hj)
  · rfl
  · exact absurd hidvd (hjlater i hgt hi)

/-- The data start over at the last extent. -/
theorem startsAt_concat (h : 2 ^ 32 ∣ Extent.total extents) :
    StartsAt (extents ++ [e]) e.start := by
  refine ⟨extents.length, by simp, by simp, by rwa [List.take_left], fun j hlt hj => ?_⟩
  rw [List.length_append, List.length_singleton] at hj
  omega

theorem StartsAt.concat (h : StartsAt extents a) (hnot : ¬ 2 ^ 32 ∣ Extent.total extents)
    (e : Extent) : StartsAt (extents ++ [e]) a := by
  obtain ⟨i, hi, hstart, hdvd, hlater⟩ := h
  refine ⟨i, by rw [List.length_append]; omega, ?_, ?_, fun j hlt hj => ?_⟩
  · rwa [List.getElem_append_left hi]
  · rwa [List.take_append_of_le_length hi.le]
  · rw [List.length_append, List.length_singleton] at hj
    rcases Nat.lt_succ_iff_lt_or_eq.mp hj with hj | rfl
    · rw [List.take_append_of_le_length hj.le]
      exact hlater j hlt hj
    · rwa [List.take_left]

end StartsAt

/-- No extent starts where the data before it end. -/
def NoneContiguous (extents : List Extent) : Prop :=
  ∀ before e after a, extents = before ++ e :: after → ¬ 2 ^ 32 ∣ Extent.total before →
    StartsAt before a → e.start ≠ wrap32 (a + wrap32 (Extent.total before))

theorem NoneContiguous.concat {extents : List Extent} {last : Extent} (h : NoneContiguous extents)
    (hlast : ¬ 2 ^ 32 ∣ Extent.total extents → ∀ a, StartsAt extents a →
      last.start ≠ wrap32 (a + wrap32 (Extent.total extents))) :
    NoneContiguous (extents ++ [last]) := by
  intro before e after a hsplit hnot hstarts
  rcases List.eq_nil_or_concat after with rfl | ⟨init, other, rfl⟩
  · obtain ⟨rfl, hlist⟩ := List.append_inj' hsplit rfl
    obtain rfl := List.singleton_inj.mp hlist
    exact hlast hnot a hstarts
  · rw [List.concat_eq_append, ← List.cons_append, ← List.append_assoc] at hsplit
    obtain ⟨hextents, -⟩ := List.append_inj' hsplit rfl
    exact h before e init a hextents hnot hstarts

/-! ## What the loop keeps -/

/-- The section is in the output file, between the header and `stop`. -/
structure Placed (coff : CoffFile) (out : Mem) (stop : ℕ) (segment : Segment) (scn : ScnHdr) : Prop
    extends Holds coff out segment scn where
  behind : (sizeofNoffHeader : ℤ) ≤ segment.inFileAddr
  before : segment.inFileAddr + segment.size ≤ stop
  pos : 0 < segment.size

/-- A segment has the contents of the last section of its kind. -/
def Slot (coff : CoffFile) (out : Mem) (stop : ℕ) (segment : Segment) (scns : List ScnHdr) : Prop :=
  match scns.getLast? with
  | none => segment.size = 0
  | some scn => Placed coff out stop segment scn

section Slots

variable {out : Mem} {stop : ℕ} {segment : Segment}

/-- What is written behind a section leaves it as it is. -/
theorem Placed.copy (h : Placed coff out stop segment scn) (buf : Mem) (n : ℕ) :
    Placed coff (out.copy stop buf 0 n) (stop + n) segment scn where
  virtualAddr := h.virtualAddr
  size := h.size
  inFileAddr := h.inFileAddr
  bytes := fun k hk => by
    have hbefore := h.before
    have hsize := h.size
    have hplace := h.inFileAddr
    rw [Mem.copy_of_not_mem _ _ (.inl (by omega)), h.bytes k hk]
  behind := h.behind
  before := by
    have hbefore := h.before
    push_cast
    omega
  pos := h.pos

theorem Slot.copy {scns : List ScnHdr} (h : Slot coff out stop segment scns) (buf : Mem) (n : ℕ) :
    Slot coff (out.copy stop buf 0 n) (stop + n) segment scns := by
  rw [Slot] at h ⊢
  split
  next hlast =>
    rwa [hlast] at h
  next scn hlast =>
    rw [hlast] at h
    exact h.copy buf n

/-- Only the part of the file behind the header matters. -/
theorem Slot.congr {out' : Mem} {scns : List ScnHdr} (h : Slot coff out stop segment scns)
    (heq : ∀ k, sizeofNoffHeader ≤ k → out' k = out k) : Slot coff out' stop segment scns := by
  rw [Slot] at h ⊢
  split
  next hlast => rwa [hlast] at h
  next scn hlast =>
    rw [hlast] at h
    have hbehind := h.behind
    exact { h with bytes := fun k hk => by rw [heq _ (by omega), h.bytes k hk] }

/-- A section is in the file when its contents are copied. -/
theorem slot_copyContents (hinside : Inside coff scn) (hsize : scn.s_size ≠ 0) (out : Mem)
    (hstop : sizeofNoffHeader ≤ stop) (scns : List ScnHdr) :
    Slot coff (out.copy stop (coff.bytes.shift scn.s_scnptr.toNat) 0 scn.s_size.toNat)
      (stop + scn.s_size.toNat) ⟨scn.s_paddr, stop, scn.s_size⟩ (scns ++ [scn]) := by
  have hnonneg := hinside.size
  rw [Slot, List.getLast?_concat]
  refine ⟨⟨rfl, rfl, Int.natCast_nonneg _, fun k hk => ?_⟩, ?_, ?_, ?_⟩
  · rw [Int.toNat_natCast, Mem.copy_of_mem _ _ (by omega), Nat.add_sub_cancel_left]
    rfl
  · exact Int.ofNat_le.mpr hstop
  · push_cast
    omega
  · dsimp only
    omega

end Slots

/-- What holds when the sections of the three kinds are done. -/
structure Inv (coff : CoffFile) (texts datas : List ScnHdr) (extents : List Extent) (s : State) :
    Prop where
  inRange : s.noffH.InRange
  outPos : s.inNoffFile = s.outPos
  header : sizeofNoffHeader ≤ s.outPos
  bound : s.outPos < 2 ^ 31
  code : Slot coff s.out s.outPos s.noffH.code texts
  initData : Slot coff s.out s.outPos s.noffH.initData datas
  single : datas.length ≤ 1
  apart : ∀ k : ℤ, ¬ ((place s.noffH.code).Contains k ∧ (place s.noffH.initData).Contains k)
  size : s.noffH.uninitData.size = wrap32 (Extent.total extents)
  virtualAddr : extents ≠ [] → StartsAt extents s.noffH.uninitData.virtualAddr
  refused : NoneContiguous extents

theorem isInt_natCast {n : ℕ} (h : n < 2 ^ 31) : IsInt n := ⟨by omega, by omega⟩

theorem isInt_wrap32 (x : ℤ) : IsInt (wrap32 x) := ⟨neg_le_wrap32 x, wrap32_lt x⟩

theorem start_inv (coff : CoffFile) (stack : Mem) (inPos : ℕ) :
    Inv coff [] [] [] (start stack inPos) where
  inRange :=
    { noffMagic := by simp [start, IsInt, NOFFMAGIC]
      code := { Segment.ofMem_inRange stack 4 with size := by simp [start, IsInt] }
      initData := { Segment.ofMem_inRange stack 16 with size := by simp [start, IsInt] }
      uninitData := { Segment.ofMem_inRange stack 28 with size := by simp [start, IsInt] } }
  outPos := rfl
  header := le_rfl
  bound := by simp [start, sizeofNoffHeader]
  code := rfl
  initData := rfl
  single := Nat.zero_le _
  apart := fun k ⟨hcode, _⟩ => by
    simp only [Extent.Contains, place, start] at hcode
    omega
  size := rfl
  virtualAddr := fun hne => absurd rfl hne
  refused := fun before e after a hsplit => by simp at hsplit

section Step

variable {texts datas : List ScnHdr} {extents : List Extent}

/-- Nothing that is placed reaches behind the end of the file. -/
theorem Slot.lt_of_contains {out : Mem} {stop : ℕ} {segment : Segment} {scns : List ScnHdr}
    (h : Slot coff out stop segment scns) {k : ℤ} (hk : (place segment).Contains k) :
    (sizeofNoffHeader : ℤ) ≤ k ∧ k < stop := by
  simp only [place, Extent.Contains] at hk
  rw [Slot] at h
  split at h
  · omega
  · have hbehind := h.behind
    have hbefore := h.before
    omega

/-- The contents of a `.text` section are copied. -/
theorem Inv.text (hs : Inv coff texts datas extents s) (hinside : Inside coff scn)
    (hsize : scn.s_size ≠ 0)
    (h : copyContents host coff scn { s with noffH :=
      { s.noffH with code := ⟨scn.s_paddr, s.inNoffFile, scn.s_size⟩ } } = .ok s') :
    Inv coff (texts ++ [scn]) datas extents s' := by
  obtain ⟨rfl, hlt⟩ := copyContents_eq_ok hinside h hs.outPos
  rw [hs.outPos]
  exact {
    inRange := { hs.inRange with
      code := ⟨scn.paddr_isInt, isInt_natCast hs.bound, scn.size_isInt⟩ }
    outPos := rfl
    header := hs.header.trans (Nat.le_add_right _ _)
    bound := hlt
    code := slot_copyContents hinside hsize s.out hs.header texts
    initData := hs.initData.copy _ _
    single := hs.single
    apart := fun k ⟨hcode, hdata⟩ => by
      have hbefore := (hs.initData.lt_of_contains hdata).2
      exact absurd hcode.1 (not_le.mpr hbefore)
    size := hs.size
    virtualAddr := hs.virtualAddr
    refused := hs.refused }

/-- The contents of a `.data` or `.rdata` section are copied. -/
theorem Inv.data (hs : Inv coff texts datas extents s) (hinside : Inside coff scn)
    (hsize : scn.s_size ≠ 0) (hempty : s.noffH.initData.size = 0)
    (h : copyContents host coff scn { s with noffH :=
      { s.noffH with initData := ⟨scn.s_paddr, s.inNoffFile, scn.s_size⟩ } } = .ok s') :
    Inv coff texts (datas ++ [scn]) extents s' := by
  obtain ⟨rfl, hlt⟩ := copyContents_eq_ok hinside h hs.outPos
  have hnone : datas = [] := by
    have hslot := hs.initData
    rw [Slot] at hslot
    split at hslot
    next hlast => exact List.getLast?_eq_none_iff.mp hlast
    next => exact absurd hempty hslot.pos.ne'
  rw [hs.outPos]
  exact {
    inRange := { hs.inRange with
      initData := ⟨scn.paddr_isInt, isInt_natCast hs.bound, scn.size_isInt⟩ }
    outPos := rfl
    header := hs.header.trans (Nat.le_add_right _ _)
    bound := hlt
    code := hs.code.copy _ _
    initData := slot_copyContents hinside hsize s.out hs.header datas
    single := by simp [hnone]
    apart := fun k ⟨hcode, hdata⟩ => by
      have hbefore := (hs.code.lt_of_contains hcode).2
      exact absurd hdata.1 (not_le.mpr hbefore)
    size := hs.size
    virtualAddr := hs.virtualAddr
    refused := hs.refused }

/-- The size of a `.bss` or `.sbss` section is added. -/
theorem Inv.bss_add (hs : Inv coff texts datas extents s) (hsome : s.noffH.uninitData.size ≠ 0)
    (happart : scn.s_paddr ≠
      wrap32 (s.noffH.uninitData.virtualAddr + s.noffH.uninitData.size)) :
    Inv coff texts datas (extents ++ [scn.extent]) { s with noffH := { s.noffH with uninitData :=
      { s.noffH.uninitData with size := wrap32 (s.noffH.uninitData.size + scn.s_size) } } } := by
  have hnot : ¬ 2 ^ 32 ∣ Extent.total extents := by
    rwa [hs.size, ne_eq, wrap32_eq_zero_iff] at hsome
  have hne : extents ≠ [] := by
    rintro rfl
    exact hnot (dvd_zero _)
  exact { hs with
    inRange := { hs.inRange with
      uninitData := { hs.inRange.uninitData with size := isInt_wrap32 _ } }
    size := by
      dsimp only
      rw [hs.size, wrap32_add_left, Extent.total_append]
      simp [ScnHdr.extent]
    virtualAddr := fun _ => (hs.virtualAddr hne).concat hnot _
    refused := hs.refused.concat fun _ a ha => by
      rwa [← hs.size, ha.unique (hs.virtualAddr hne)] }

/-- The uninitialised data start with a `.bss` or `.sbss` section. -/
theorem Inv.bss_start (hs : Inv coff texts datas extents s) (hnone : s.noffH.uninitData.size = 0) :
    Inv coff texts datas (extents ++ [scn.extent]) { s with noffH := { s.noffH with uninitData :=
      { s.noffH.uninitData with virtualAddr := scn.s_paddr, size := scn.s_size } } } := by
  rw [hs.size] at hnone
  exact { hs with
    inRange := { hs.inRange with
      uninitData := { hs.inRange.uninitData with
        virtualAddr := scn.paddr_isInt, size := scn.size_isInt } }
    size := by
      have htotal : Extent.total (extents ++ [scn.extent]) = Extent.total extents + scn.s_size := by
        simp [ScnHdr.extent]
      rw [htotal, ← wrap32_add_left, hnone, zero_add,
        wrap32_eq_self scn.size_isInt.1 scn.size_isInt.2]
    virtualAddr := fun _ => startsAt_concat (wrap32_eq_zero_iff.mp hnone)
    refused := hs.refused.concat fun hnot => absurd (wrap32_eq_zero_iff.mp hnone) hnot }

end Step

/-- What holds when some sections are done. -/
def Done (coff : CoffFile) (done : List ScnHdr) (s : State) : Prop :=
  Inv coff (ofKind ScnHdr.isText done) (ofKind ScnHdr.isData done) (bssExtents done) s

/-- The contents that are to be copied are in the input file. -/
def ContentsInside (coff : CoffFile) (sections : List ScnHdr) : Prop :=
  ∀ scn ∈ sections, scn.isText ∨ scn.isData → scn.s_size ≠ 0 → Inside coff scn

instance (coff : CoffFile) (sections : List ScnHdr) : Decidable (ContentsInside coff sections) :=
  inferInstanceAs (Decidable (∀ scn ∈ sections, _ → _ → _))

/-- One section. -/
theorem Done.step {done : List ScnHdr} (hs : Done coff done s)
    (hinside : scn.isText ∨ scn.isData → scn.s_size ≠ 0 → Inside coff scn)
    (h : copySection host coff s scn = .ok s') : Done coff (done ++ [scn]) s' := by
  rw [copySection] at h
  rw [Done, bssExtents]
  by_cases hsize : scn.s_size = 0
  · rw [if_pos hsize] at h
    obtain rfl := Except.ok.inj h
    simp only [ofKind_concat_of_empty _ done hsize]
    exact hs
  rw [if_neg hsize] at h
  split at h
  next htext =>
    rw [ofKind_concat done htext hsize, ofKind_concat_of_other done (not_isData_of_isText htext),
      ofKind_concat_of_other done (not_isBss_of_isText htext)]
    exact Inv.text hs (hinside (.inl htext) hsize) hsize h
  next htext =>
  rw [ofKind_concat_of_other done (Bool.eq_false_iff.mpr htext)]
  split at h
  next hdata =>
    rw [ofKind_concat done hdata hsize, ofKind_concat_of_other done (not_isBss_of_isData hdata)]
    split at h
    next => cases h
    next hempty =>
      exact Inv.data hs (hinside (.inr hdata) hsize) hsize (not_not.mp hempty) h
  next hdata =>
  rw [ofKind_concat_of_other done (Bool.eq_false_iff.mpr hdata)]
  split at h
  next hbss =>
    rw [ofKind_concat done hbss hsize, List.map_append]
    split at h
    next hsome =>
      split at h
      next => cases h
      next happart =>
        obtain rfl := Except.ok.inj h
        exact Inv.bss_add hs hsome happart
    next hnone =>
      obtain rfl := Except.ok.inj h
      exact Inv.bss_start hs (not_not.mp hnone)
  next hbss =>
    simp only [Except.bind_eq_ok] at h
    obtain ⟨_, _, _, _, h⟩ := h
    cases h

/-- All sections. -/
theorem Done.run {done sections : List ScnHdr} (hs : Done coff done s)
    (hinside : ContentsInside coff sections)
    (h : sections.foldlM (copySection host coff) s = .ok s') : Done coff (done ++ sections) s' := by
  induction sections generalizing done s with
  | nil =>
      obtain rfl := Except.ok.inj h
      rwa [List.append_nil]
  | cons scn sections ih =>
      rw [List.foldlM_cons, Except.bind_eq_ok] at h
      obtain ⟨next, hstep, hrest⟩ := h
      rw [List.append_cons]
      exact ih (hs.step (hinside scn List.mem_cons_self) hstep)
        (fun other hmem => hinside other (List.mem_cons_of_mem _ hmem)) hrest

/-- What the output file is when the program ends with `exit(0)`. -/
theorem convert_eq_ok {stack : Mem} {inPos : ℕ} {sections : List ScnHdr} {out : Mem}
    (hinside : ContentsInside coff sections)
    (h : convert host coff stack inPos sections = .ok out) :
    ∃ s, Done coff sections s ∧ NoffHeader.ofMem out = s.noffH ∧
      ∀ k, sizeofNoffHeader ≤ k → out k = s.out k := by
  simp only [convert, Except.bind_eq_ok] at h
  obtain ⟨s, hrun, ⟨written, outPos⟩, hwrite, h⟩ := h
  obtain rfl := Except.ok.inj h
  have hstart : Done coff [] (start stack inPos) := start_inv coff stack inPos
  have hdone : Done coff sections s := hstart.run hinside hrun
  obtain ⟨hwrite, -⟩ := write_eq_ok (Int.natCast_nonneg _) hwrite
  cases hwrite
  refine ⟨s, hdone, ?_, fun k hk => Mem.copy_of_not_mem _ _ (.inr (by simpa using hk))⟩
  have hheader : NoffHeader.ofMem (s.out.copy 0 s.noffH.toMem 0 (sizeofNoffHeader : ℤ).toNat) =
      NoffHeader.ofMem s.noffH.toMem :=
    NoffHeader.ofMem_congr fun k hk => Mem.copy_of_mem _ _ (by simpa using hk)
  exact hheader.trans (NoffHeader.ofMem_toMem hdone.inRange)

/-! ## When no section is lost -/

/-- The two sections have the same addresses and the same contents. -/
structure SameSection (coff : CoffFile) (scn other : ScnHdr) : Prop where
  paddr : scn.s_paddr = other.s_paddr
  size : scn.s_size = other.s_size
  bytes : ∀ k : ℕ, k < scn.s_size →
    coff.bytes (scn.s_scnptr.toNat + k) = coff.bytes (other.s_scnptr.toNat + k)

/-- The `.text` sections that are not empty are all the same. -/
def SameTexts (coff : CoffFile) (sections : List ScnHdr) : Prop :=
  ∀ scn ∈ ofKind ScnHdr.isText sections, ∀ other ∈ ofKind ScnHdr.isText sections,
    SameSection coff scn other

/-- The `.bss` and `.sbss` sections tile, from the address of the first one on, as much as their sizes
add up to in 32 bits. -/
def UninitTiled (sections : List ScnHdr) : Prop :=
  bssExtents sections ≠ [] → ∃ address, StartsAt (bssExtents sections) address ∧
    Extent.Tile (bssExtents sections) ⟨address, wrap32 (Extent.total (bssExtents sections))⟩

section Keeps

variable {out : Mem} {stop : ℕ} {segment : Segment} {scns sections : List ScnHdr}

theorem Holds.same {other : ScnHdr} (h : Holds coff out segment scn)
    (hother : Holds coff out segment other) : SameSection coff scn other where
  paddr := h.virtualAddr.symm.trans hother.virtualAddr
  size := h.size.symm.trans hother.size
  bytes := fun k hk => by
    rw [← h.bytes k hk, hother.bytes k]
    rwa [← hother.size, h.size]

theorem Holds.of_same {other : ScnHdr} (hother : Holds coff out segment other)
    (h : SameSection coff scn other) : Holds coff out segment scn where
  virtualAddr := hother.virtualAddr.trans h.paddr.symm
  size := hother.size.trans h.size.symm
  inFileAddr := hother.inFileAddr
  bytes := fun k hk => by
    rw [h.bytes k hk, hother.bytes k (by rwa [← h.size])]

/-- A segment holds all sections of its kind when they are the same. -/
theorem Slot.holds_iff (h : Slot coff out stop segment scns) :
    (∀ scn ∈ scns, Holds coff out segment scn) ↔
      ∀ scn ∈ scns, ∀ other ∈ scns, SameSection coff scn other := by
  constructor
  · intro hall scn hscn other hother
    exact (hall scn hscn).same (hall other hother)
  · intro hsame scn hscn
    rw [Slot] at h
    split at h
    next hlast =>
      rw [List.getLast?_eq_none_iff.mp hlast] at hscn
      cases hscn
    next last hlast =>
      exact h.toHolds.of_same (hsame scn hscn last (List.mem_of_getLast? hlast))

/-- One section is the same as itself. -/
theorem sameSection_of_single (h : scns.length ≤ 1) :
    ∀ scn ∈ scns, ∀ other ∈ scns, SameSection coff scn other := by
  intro scn hscn other hother
  obtain rfl : scn = other := by
    cases scns with
    | nil => cases hscn
    | cons first rest =>
        have hrest : rest = [] := List.eq_nil_of_length_eq_zero (by simpa using h)
        rw [hrest, List.mem_singleton] at hscn hother
        rw [hscn, hother]
  exact ⟨rfl, rfl, fun _ _ => rfl⟩

theorem covered_bssExtents {a : ℤ} : Extent.Covered (bssExtents sections) a ↔
    ∃ scn ∈ sections, scn.isBss ∧ scn.extent.Contains a := by
  constructor
  · rintro ⟨e, he, ha⟩
    obtain ⟨scn, hscn, rfl⟩ := List.mem_map.mp he
    obtain ⟨hmem, hbss, -⟩ := mem_ofKind.mp hscn
    exact ⟨scn, hmem, hbss, ha⟩
  · rintro ⟨scn, hmem, hbss, ha⟩
    have hsize : scn.s_size ≠ 0 := by
      simp only [ScnHdr.extent, Extent.Contains] at ha
      omega
    exact ⟨_, List.mem_map_of_mem (mem_ofKind.mpr ⟨hmem, hbss, hsize⟩), ha⟩

/-- The header describes the uninitialised data exactly when they are tiled. -/
theorem Done.tile_iff (hs : Done coff sections s) :
    Extent.Tile (bssExtents sections)
      ⟨s.noffH.uninitData.virtualAddr, s.noffH.uninitData.size⟩ ↔ UninitTiled sections := by
  rw [hs.size, UninitTiled]
  constructor
  · intro htile hne
    exact ⟨_, hs.virtualAddr hne, htile⟩
  · intro htiled
    by_cases hne : bssExtents sections = []
    · intro a
      simp only [hne, Extent.covered_nil, Extent.total_nil, Extent.Contains, false_iff,
        wrap32_eq_zero_iff.mpr (dvd_zero _)]
      omega
    · obtain ⟨address, hstart, htile⟩ := htiled hne
      rwa [(hs.virtualAddr hne).unique hstart]

/-- What the loop leaves decides whether a section is lost. -/
theorem Done.keeps_iff (hs : Done coff sections s) (hheader : NoffHeader.ofMem out = s.noffH)
    (hout : ∀ k, sizeofNoffHeader ≤ k → out k = s.out k) :
    KeepsSections coff sections out ↔ SameTexts coff sections ∧ UninitTiled sections := by
  have hcode : Slot coff out s.outPos s.noffH.code (ofKind ScnHdr.isText sections) :=
    hs.code.congr hout
  have hdata : Slot coff out s.outPos s.noffH.initData (ofKind ScnHdr.isData sections) :=
    hs.initData.congr hout
  constructor
  · intro hkeeps
    constructor
    · refine hcode.holds_iff.mp fun scn hscn => ?_
      obtain ⟨hmem, htext, hsize⟩ := mem_ofKind.mp hscn
      exact hheader ▸ hkeeps.code scn hmem htext hsize
    · refine hs.tile_iff.mp fun a => ?_
      rw [covered_bssExtents, ← hkeeps.uninitData, hheader]
      rfl
  · rintro ⟨htexts, htiled⟩
    refine ⟨fun scn hmem htext hsize => ?_, fun scn hmem hname hsize => ?_, fun k => ?_, fun a => ?_⟩
    · rw [hheader]
      exact hcode.holds_iff.mpr htexts scn (mem_ofKind.mpr ⟨hmem, htext, hsize⟩)
    · rw [hheader]
      exact hdata.holds_iff.mpr (sameSection_of_single hs.single) scn
        (mem_ofKind.mpr ⟨hmem, hname, hsize⟩)
    · rw [hheader]
      refine ⟨fun ⟨hk, hplaced⟩ => ?_, fun ⟨hk, hplaced⟩ => ?_, hs.apart k⟩
      · exact not_le.mpr hk.2 (by simpa [headerPlace] using (hs.code.lt_of_contains hplaced).1)
      · exact not_le.mpr hk.2 (by simpa [headerPlace] using (hs.initData.lt_of_contains hplaced).1)
    · rw [hheader, ← covered_bssExtents, hs.tile_iff.mpr htiled a]
      rfl

end Keeps

/-! ## Ordinary sizes -/

section Ordinary

variable {sections : List ScnHdr} {first second : Extent} {extents : List Extent} {a : ℤ}

/-- Sizes that do not add up to `2 ^ 32` have one first section. -/
theorem startsAt_cons (hpos : ∀ e ∈ first :: extents, 0 < e.length)
    (htotal : Extent.total (first :: extents) < 2 ^ 31) :
    StartsAt (first :: extents) a ↔ a = first.start := by
  have hfirst : StartsAt (first :: extents) first.start := by
    refine ⟨0, by simp, rfl, by simp, fun j hj hlt hdvd => ?_⟩
    have hsplit := Extent.total_append ((first :: extents).take j) ((first :: extents).drop j)
    rw [List.take_append_drop] at hsplit
    have hrest : 0 ≤ Extent.total ((first :: extents).drop j) :=
      Extent.total_nonneg fun e he => (hpos e (List.mem_of_mem_drop he)).le
    have hbefore : 0 < Extent.total ((first :: extents).take j) := by
      obtain ⟨j, rfl⟩ : ∃ i, j = i + 1 := ⟨j - 1, by omega⟩
      have hnonneg : 0 ≤ Extent.total (extents.take j) :=
        Extent.total_nonneg fun e he => (hpos e (List.mem_cons_of_mem _ (List.mem_of_mem_take he))).le
      have := hpos first List.mem_cons_self
      rw [List.take_succ_cons, Extent.total_cons]
      omega
    omega
  exact ⟨fun h => h.unique hfirst, fun h => h ▸ hfirst⟩

/-- Where the sizes do not overflow, the sections in some order follow one another from the
first one on. -/
theorem uninitTiled_iff_contiguous (hsplit : bssExtents sections = first :: extents)
    (hpos : ∀ e ∈ first :: extents, 0 < e.length)
    (htotal : Extent.total (first :: extents) < 2 ^ 31) :
    UninitTiled sections ↔
      ∃ order : List Extent, order.Perm (first :: extents) ∧ Extent.Contiguous first.start order := by
  have hnonneg : 0 ≤ Extent.total (first :: extents) :=
    Extent.total_nonneg fun e he => (hpos e he).le
  rw [UninitTiled, hsplit, wrap32_eq_self (by omega) htotal, ← Extent.tile_iff_contiguous hpos]
  simp only [ne_eq, reduceCtorEq, not_false_eq_true, forall_const, startsAt_cons hpos htotal,
    exists_eq_left]

/-- **A `.bss` and a `.sbss` section** are never converted to what they are: if they are contiguous
they are refused. -/
theorem not_keepsSections_of_two {stack out : Mem} {inPos : ℕ}
    (hinside : ContentsInside coff sections)
    (h : convert host coff stack inPos sections = .ok out)
    (hsplit : bssExtents sections = [first, second]) (hfirst : 0 < first.length)
    (hsecond : 0 < second.length) (htotal : first.length + second.length < 2 ^ 31) :
    ¬ KeepsSections coff sections out := by
  intro hkeeps
  obtain ⟨s, hs, hheader, -⟩ := convert_eq_ok hinside h
  have hpos : ∀ e ∈ [first, second], 0 < e.length := by
    simp [hfirst, hsecond]
  have htiled : UninitTiled sections := hs.tile_iff.mp fun a => by
    rw [covered_bssExtents, ← hkeeps.uninitData, hheader]
    rfl
  rw [UninitTiled, hsplit] at htiled
  obtain ⟨address, hstarts, htile⟩ := htiled (List.cons_ne_nil _ _)
  obtain rfl := (startsAt_cons hpos (by simpa using htotal)).mp hstarts
  rw [wrap32_eq_self (by simp; omega) (by simpa using htotal)] at htile
  have hnext := (htile.tail fun e he => (hpos e he).le).start_eq hsecond
  -- The two sections are contiguous, and the test has refused the second one.
  have hrefused := hs.refused
  rw [hsplit] at hrefused
  have hlength : Extent.total [first] = first.length := by simp
  have hapart := hrefused [first] second [] first.start rfl
    (by rw [hlength]; omega)
    ((startsAt_cons (by simpa using hfirst) (by rw [hlength]; omega)).mpr rfl)
  obtain ⟨scn, -, hscn⟩ := List.mem_map.mp (show second ∈ bssExtents sections by simp [hsplit])
  have hint : IsInt second.start := hscn ▸ scn.paddr_isInt
  rw [hlength, wrap32_eq_self (x := first.length) (by omega) (by omega), ← hnext,
    wrap32_eq_self hint.1 hint.2] at hapart
  exact hapart rfl

end Ordinary

/-! ## The program -/

/-- The section headers of the file, behind its two headers. -/
def sectionHeaders (coff : CoffFile) : List ScnHdr :=
  (List.range (coff.bytes.uint16 2)).map fun i =>
    ScnHdr.ofMem (coff.bytes.shift (sizeofFilehdr + sizeofAouthdr)) (i * sizeofScnhdr)

variable {stack out : Mem}

/-- The program converts the sections of its file. -/
theorem main_eq_ok (h : main host coff stack = .ok out) :
    ∃ inPos, convert host coff stack inPos (sectionHeaders coff) = .ok out := by
  rw [main, Except.bind_eq_ok] at h
  obtain ⟨⟨fileh, pos⟩, hfileh, h⟩ := h
  cases read_eq_ok hfileh
  dsimp only at h
  split at h
  · cases h
  obtain ⟨⟨systemh, pos⟩, hsystemh, h⟩ := Except.bind_eq_ok.mp h
  cases read_eq_ok hsystemh
  dsimp only at h
  split at h
  · cases h
  obtain ⟨⟨headers, pos⟩, hheaders, h⟩ := Except.bind_eq_ok.mp h
  cases read_eq_ok hheaders
  have hfirst : coff.bytes.shift 0 = coff.bytes := by
    funext k
    rw [Mem.shift_apply, Nat.zero_add]
  simp only [hfirst, Nat.zero_add, Int.toNat_natCast] at h
  exact ⟨_, h⟩

/-- Every list of sections, whatever file their contents are in. -/
theorem convert_keeps_iff {inPos : ℕ} {sections : List ScnHdr}
    (hinside : ContentsInside coff sections)
    (h : convert host coff stack inPos sections = .ok out) :
    KeepsSections coff sections out ↔ SameTexts coff sections ∧ UninitTiled sections := by
  obtain ⟨s, hs, hheader, hout⟩ := convert_eq_ok hinside h
  exact hs.keeps_iff hheader hout

/-- **`coff2noff` loses no section** exactly when the `.text` sections are the same and the `.bss` and
`.sbss` sections tile what their sizes add up to. For every file that has the contents of its
sections, if the program ends with `exit(0)`. -/
theorem keepsSections_iff (host : Host) (coff : CoffFile) (stack : Mem) {out : Mem}
    (hinside : ContentsInside coff (sectionHeaders coff)) (h : main host coff stack = .ok out) :
    KeepsSections coff (sectionHeaders coff) out ↔
      SameTexts coff (sectionHeaders coff) ∧ UninitTiled (sectionHeaders coff) := by
  obtain ⟨inPos, hconvert⟩ := main_eq_ok h
  exact convert_keeps_iff hinside hconvert

/-! Two files of which a section is lost, and one of which none is. -/

/-- A host with room for everything. -/
def roomyHost : Host where
  accepts := fun pos n => decide (pos + n < 2 ^ 31)
  lt_of_accepts := of_decide_eq_true

/-- The bytes of a section header with small numbers. -/
def scnhdrBytes (name : List UInt8) (paddr size scnptr : UInt8) : List UInt8 :=
  (name ++ List.replicate (8 - name.length) 0) ++
    [paddr, 0, 0, 0, paddr, 0, 0, 0, size, 0, 0, 0, scnptr, 0, 0, 0] ++ List.replicate 16 0

/-- A COFF file of 256 bytes. -/
def smallFile (headers : List (List UInt8)) : CoffFile where
  bytes := Mem.ofString ([0x62, 0x01, UInt8.ofNat headers.length, 0] ++ List.replicate 16 0 ++
    [0x07, 0x01] ++ List.replicate 54 0 ++ headers.flatten)
  length := 256

/-- The text of a program in two sections. -/
def twoTexts : CoffFile :=
  smallFile [scnhdrBytes textName 0 8 156, scnhdrBytes textName 8 8 164]

/-- Two sections of uninitialised data that are not contiguous. -/
def bssAndSbss : CoffFile := smallFile [scnhdrBytes bssName 64 16 0, scnhdrBytes sbssName 128 16 0]

/-- The first half of the text is lost, and the gap between the uninitialised data is not seen. -/
theorem not_keepsSections :
    (∃ out, main roomyHost twoTexts (fun _ => 0) = .ok out ∧
      ContentsInside twoTexts (sectionHeaders twoTexts) ∧
      ¬ KeepsSections twoTexts (sectionHeaders twoTexts) out) ∧
    ∃ out, main roomyHost bssAndSbss (fun _ => 0) = .ok out ∧
      ContentsInside bssAndSbss (sectionHeaders bssAndSbss) ∧
      ¬ KeepsSections bssAndSbss (sectionHeaders bssAndSbss) out := by
  refine ⟨⟨_, rfl, by decide, fun h => ?_⟩, ⟨_, rfl, by decide, fun h => ?_⟩⟩
  · have hfirst := (h.code _ List.mem_cons_self rfl (by decide)).virtualAddr
    revert hfirst
    decide
  · obtain ⟨scn, hmem, -, hcontains⟩ := (h.uninitData 80).mp (by decide)
    have hnone : ∀ scn ∈ sectionHeaders bssAndSbss, ¬ scn.extent.Contains 80 := by decide
    exact hnone scn hmem hcontains

/-- One section of each kind. -/
def oneOfEach : CoffFile :=
  smallFile [scnhdrBytes textName 0 8 196, scnhdrBytes rdataName 8 4 204,
    scnhdrBytes sbssName 12 16 0]

theorem keepsSections_one_of_each : ∃ out, main roomyHost oneOfEach (fun _ => 0) = .ok out ∧
    KeepsSections oneOfEach (sectionHeaders oneOfEach) out := by
  refine ⟨_, rfl, (keepsSections_iff roomyHost oneOfEach (fun _ => 0) (by decide) rfl).mpr ⟨?_, ?_⟩⟩
  · exact sameSection_of_single (by decide)
  · have hbss : bssExtents (sectionHeaders oneOfEach) = [⟨12, 16⟩] := rfl
    exact (uninitTiled_iff_contiguous hbss (by simp) (by simp)).mpr
      ⟨[⟨12, 16⟩], .refl _, rfl, trivial⟩

end Coff2noff

end Nachos
