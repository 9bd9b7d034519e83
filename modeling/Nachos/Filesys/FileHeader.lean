/-
# File headers

`filesys/filehdr.{h,cc}`. A header is 128 bytes: the length of the file, the
number of its data sectors and room for `NumDirect` sector numbers. The object
is modelled as the memory it occupies, and that memory does not end with the
object: `Allocate` and `Deallocate` index `dataSectors` up to `numSectors`, which
nothing bounds by `NumDirect`, so an index from `NumDirect` on reaches the bytes
behind the object. Only the first 128 bytes travel to and from the disk.
-/

import Mathlib.Data.List.Nodup
import Mathlib.Order.Interval.Finset.Nat
import Nachos.Machine.Disk
import Nachos.Userprog.BitMap

namespace Nachos

open Base

/-- Room for sector numbers in one header: the sector less the two counts. -/
def NumDirect : ℕ := (SectorSize - 2 * 4) / 4

/-- The largest file whose sectors a header can list. -/
def MaxFileSize : ℕ := NumDirect * SectorSize

/-- `class FileHeader`, as the memory from its first byte on. -/
structure FileHeader where
  mem : Mem

namespace FileHeader

/-- Number of bytes in the file. -/
def numBytes (h : FileHeader) : ℤ := h.mem.int32 0

/-- Number of data sectors in the file. -/
def numSectors (h : FileHeader) : ℤ := h.mem.int32 4

/-- Disk sector numbers for each data block in the file. -/
def dataSectors (h : FileHeader) (i : ℕ) : ℤ := h.mem.int32 (8 + 4 * i)

/-- Assignment to `numBytes`. -/
def setNumBytes (h : FileHeader) (v : ℤ) : FileHeader := ⟨h.mem.setInt32 0 v⟩

/-- Assignment to `numSectors`. -/
def setNumSectors (h : FileHeader) (v : ℤ) : FileHeader := ⟨h.mem.setInt32 4 v⟩

/-- Assignment to `dataSectors[i]`. -/
def setDataSector (h : FileHeader) (i : ℕ) (v : ℤ) : FileHeader :=
  ⟨h.mem.setInt32 (8 + 4 * i) v⟩

/-- `new FileHeader`: the members hold what the memory held. -/
def new (uninit : Mem) : FileHeader := ⟨uninit⟩

/-- `new FileHeader()`: the members are zero, the bytes behind the object are not
touched. -/
def newZeroed (uninit : Mem) : FileHeader := ⟨uninit.copy 0 (fun _ => 0) 0 SectorSize⟩

/-- The loop of `Allocate`: `dataSectors[i] = freeMap->Find()` for `i < n`. -/
def allocateLoop (h : FileHeader) (freeMap : BitMap) : ℕ → FileHeader × BitMap
  | 0 => (h, freeMap)
  | n + 1 =>
      let (h, freeMap) := allocateLoop h freeMap n
      let (sector, freeMap) := freeMap.find
      (h.setDataSector n sector, freeMap)

/-- `FileHeader::Allocate`. -/
def allocate (h : FileHeader) (freeMap : BitMap) (fileSize : ℤ) : Bool × FileHeader × BitMap :=
  let h := (h.setNumBytes fileSize).setNumSectors (divRoundUp fileSize SectorSize)
  if (freeMap.numClear : ℤ) < h.numSectors then (false, h, freeMap)
  else (true, h.allocateLoop freeMap h.numSectors.toNat)

/-- The loop of `Deallocate`, for `i < n`. -/
def deallocateLoop (h : FileHeader) (freeMap : BitMap) : ℕ → Except Fault BitMap
  | 0 => .ok freeMap
  | n + 1 => do
      let freeMap ← deallocateLoop h freeMap n
      let marked ← freeMap.test (h.dataSectors n)
      assert (marked = true)
      freeMap.clear (h.dataSectors n)

/-- `FileHeader::Deallocate`. -/
def deallocate (h : FileHeader) (freeMap : BitMap) : Except Fault BitMap :=
  h.deallocateLoop freeMap h.numSectors.toNat

/-- `FileHeader::FetchFrom`. -/
def fetchFrom (h : FileHeader) (disk : Disk) (sector : ℤ) : Except Fault FileHeader := do
  let data ← disk.readSector sector
  return ⟨h.mem.copy 0 data 0 SectorSize⟩

/-- `FileHeader::WriteBack`. -/
def writeBack (h : FileHeader) (disk : Disk) (sector : ℤ) : Except Fault Disk :=
  disk.writeSector sector h.mem

/-- `FileHeader::ByteToSector`. A negative index lies before the array. -/
def byteToSector (h : FileHeader) (offset : ℤ) : Except Fault ℤ := do
  inBounds (offset.tdiv SectorSize ≥ 0)
  return h.dataSectors (offset.tdiv SectorSize).toNat

/-- `FileHeader::FileLength`. -/
def fileLength (h : FileHeader) : ℤ := h.numBytes

/-! ## Fields after an assignment -/

theorem numBytes_setNumSectors (h : FileHeader) (v : ℤ) :
    (h.setNumSectors v).numBytes = h.numBytes :=
  Mem.int32_setInt32_of_disjoint _ _ (by omega)

theorem numBytes_setNumBytes (h : FileHeader) {v : ℤ} (hlow : -2 ^ 31 ≤ v) (hhigh : v < 2 ^ 31) :
    (h.setNumBytes v).numBytes = v :=
  Mem.int32_setInt32_self _ _ hlow hhigh

theorem numSectors_setNumSectors (h : FileHeader) {v : ℤ} (hlow : -2 ^ 31 ≤ v)
    (hhigh : v < 2 ^ 31) : (h.setNumSectors v).numSectors = v :=
  Mem.int32_setInt32_self _ _ hlow hhigh

theorem dataSectors_setDataSector_self (h : FileHeader) (i : ℕ) {v : ℤ} (hlow : -2 ^ 31 ≤ v)
    (hhigh : v < 2 ^ 31) : (h.setDataSector i v).dataSectors i = v :=
  Mem.int32_setInt32_self _ _ hlow hhigh

theorem dataSectors_setDataSector_of_ne (h : FileHeader) {i j : ℕ} (v : ℤ) (hne : j ≠ i) :
    (h.setDataSector i v).dataSectors j = h.dataSectors j :=
  Mem.int32_setInt32_of_disjoint _ _ (by omega)

/-- The members read from two memories that agree on the 128 bytes of the object. -/
structure SameObject (h h' : FileHeader) : Prop where
  agree : ∀ k < 128, h.mem k = h'.mem k

theorem SameObject.numBytes {h h' : FileHeader} (same : h.SameObject h') :
    h.numBytes = h'.numBytes :=
  Mem.int32_congr fun k hk => same.agree _ (by omega)

theorem SameObject.numSectors {h h' : FileHeader} (same : h.SameObject h') :
    h.numSectors = h'.numSectors :=
  Mem.int32_congr fun k hk => same.agree _ (by omega)

theorem SameObject.dataSectors {h h' : FileHeader} (same : h.SameObject h') {i : ℕ} (hi : i < 30) :
    h.dataSectors i = h'.dataSectors i :=
  Mem.int32_congr fun k hk => same.agree _ (by omega)

theorem SameObject.symm {h h' : FileHeader} (same : h.SameObject h') : h'.SameObject h :=
  ⟨fun k hk => (same.agree k hk).symm⟩

theorem SameObject.trans {h h' h'' : FileHeader} (first : h.SameObject h')
    (second : h'.SameObject h'') : h.SameObject h'' :=
  ⟨fun k hk => (first.agree k hk).trans (second.agree k hk)⟩

/-- The first `m` sector numbers of the header are sectors of the disk. -/
def InRange (h : FileHeader) (m : ℕ) : Prop :=
  ∀ i < m, 0 ≤ h.dataSectors i ∧ h.dataSectors i < 1024

/-! ## What `Allocate` and `Deallocate` do to the free map -/

/-- The first `n` sector numbers of the header. -/
def sectorList (h : FileHeader) (n : ℕ) : List ℕ :=
  (List.range n).map fun i => (h.dataSectors i).toNat

theorem sectorList_succ (h : FileHeader) (n : ℕ) :
    h.sectorList (n + 1) = h.sectorList n ++ [(h.dataSectors n).toNat] := by
  simp [sectorList, List.range_succ]

theorem mem_sectorList {h : FileHeader} {n x : ℕ} :
    x ∈ h.sectorList n ↔ ∃ i < n, (h.dataSectors i).toNat = x := by
  simp [sectorList]

theorem sectorList_congr {h h' : FileHeader} {n : ℕ}
    (hequal : ∀ i < n, h.dataSectors i = h'.dataSectors i) : h.sectorList n = h'.sectorList n := by
  apply List.map_congr_left
  intro i hi
  rw [hequal i (List.mem_range.mp hi)]

/-- The outcome of taking `n` sectors, one `Find` after the other. -/
structure Allocated (h : FileHeader) (freeMap : BitMap) (n : ℕ) (h' : FileHeader)
    (freeMap' : BitMap) : Prop where
  numBits : freeMap'.numBits = freeMap.numBits
  nonneg : ∀ i < n, 0 ≤ h'.dataSectors i
  nodup : (h'.sectorList n).Nodup
  wasClear : ∀ x ∈ h'.sectorList n, x < freeMap.numBits ∧ freeMap.testBit x = false
  marks : ∀ x, freeMap'.testBit x = (freeMap.testBit x || decide (x ∈ h'.sectorList n))
  firstFit : ∀ i < n, ∀ x < (h'.dataSectors i).toNat,
    freeMap.testBit x = true ∨ x ∈ h'.sectorList i
  frame : ∀ k, k < 8 ∨ 8 + 4 * n ≤ k → h'.mem k = h.mem k

theorem Allocated.clearSet {h h' : FileHeader} {freeMap freeMap' : BitMap} {n : ℕ}
    (done : Allocated h freeMap n h' freeMap') :
    freeMap'.clearSet = freeMap.clearSet \ (h'.sectorList n).toFinset := by
  ext x
  simp only [BitMap.mem_clearSet, done.numBits, done.marks, Finset.mem_sdiff, List.mem_toFinset]
  cases freeMap.testBit x <;> simp

theorem Allocated.card_clearSet {h h' : FileHeader} {freeMap freeMap' : BitMap} {n : ℕ}
    (done : Allocated h freeMap n h' freeMap') :
    freeMap'.clearSet.card + n = freeMap.clearSet.card := by
  have hsubset : (h'.sectorList n).toFinset ⊆ freeMap.clearSet := by
    intro x hx
    exact BitMap.mem_clearSet.mpr (done.wasClear x (List.mem_toFinset.mp hx))
  have hlength : (h'.sectorList n).toFinset.card = n := by
    rw [List.toFinset_card_of_nodup done.nodup]
    simp [sectorList]
  have hle := Finset.card_le_card hsubset
  rw [done.clearSet, Finset.card_sdiff_of_subset hsubset, hlength]
  omega

/-- One round of the loop: `Find` returns the least clear bit `s`. -/
theorem Allocated.succ {h h' : FileHeader} {freeMap freeMap' : BitMap} {n s : ℕ}
    (done : Allocated h freeMap n h' freeMap') (hbits : freeMap.numBits ≤ 2 ^ 31)
    (hs : s < freeMap'.numBits) (hclear : freeMap'.testBit s = false)
    (hleast : ∀ x < s, freeMap'.testBit x = true) :
    Allocated h freeMap (n + 1) (h'.setDataSector n s) (freeMap'.markBit s) := by
  have hs' : s < freeMap.numBits := by rw [← done.numBits]; exact hs
  have hlast : (h'.setDataSector n s).dataSectors n = s := by
    have hrange : (s : ℤ) < 2 ^ 31 := by exact_mod_cast lt_of_lt_of_le hs' hbits
    exact dataSectors_setDataSector_self h' n (by omega) hrange
  have hprev (i : ℕ) (hi : i ≤ n) : (h'.setDataSector n s).sectorList i = h'.sectorList i :=
    sectorList_congr fun j hj => dataSectors_setDataSector_of_ne _ _ (by omega)
  have hlist : (h'.setDataSector n s).sectorList (n + 1) = h'.sectorList n ++ [s] := by
    rw [sectorList_succ, hprev n le_rfl, hlast, Int.toNat_natCast]
  rw [done.marks, Bool.or_eq_false_iff, decide_eq_false_iff_not] at hclear
  refine
    { numBits := done.numBits
      nonneg := fun i hi => ?_
      nodup := ?_
      wasClear := ?_
      marks := fun x => ?_
      firstFit := fun i hi x hx => ?_
      frame := fun k hk => ?_ }
  · by_cases hequal : i = n
    · rw [hequal, hlast]
      omega
    · rw [dataSectors_setDataSector_of_ne _ _ hequal]
      exact done.nonneg i (by omega)
  · rw [hlist, List.nodup_append]
    refine ⟨done.nodup, List.nodup_singleton s, fun x hx y hy hequal => ?_⟩
    rw [hequal, List.mem_singleton.mp hy] at hx
    exact hclear.2 hx
  · rw [hlist]
    intro x hx
    rcases List.mem_append.mp hx with hx | hx
    · exact done.wasClear x hx
    · rw [List.mem_singleton.mp hx]
      exact ⟨hs', hclear.1⟩
  · rw [hlist, BitMap.testBit_markBit, done.marks]
    by_cases hequal : x = s <;> simp [hequal]
  · rw [hprev i (by omega)]
    by_cases hequal : i = n
    · rw [hequal, hlast, Int.toNat_natCast] at hx
      have hmarked := hleast x hx
      rw [done.marks, Bool.or_eq_true, decide_eq_true_eq] at hmarked
      rw [hequal]
      exact hmarked
    · rw [dataSectors_setDataSector_of_ne _ _ hequal] at hx
      exact done.firstFit i (by omega) x hx
  · have hout : (h'.setDataSector n s).mem k = h'.mem k :=
      Mem.setInt32_of_not_mem _ _ (by omega)
    rw [hout]
    exact done.frame k (by omega)

/-- As long as the map has enough clear bits the loop takes that many sectors. -/
theorem allocated_allocateLoop (h : FileHeader) (freeMap : BitMap)
    (hbits : freeMap.numBits ≤ 2 ^ 31) (n : ℕ) (hroom : n ≤ freeMap.numClear) :
    Allocated h freeMap n (h.allocateLoop freeMap n).1 (h.allocateLoop freeMap n).2 := by
  induction n with
  | zero =>
      exact ⟨rfl, by omega, by simp [sectorList], by simp [sectorList],
        by simp [sectorList, allocateLoop], by omega, fun k _ => rfl⟩
  | succ n ih =>
      have done := ih (by omega)
      -- The clear bits left after `n` rounds are enough for one more.
      have hleft := done.card_clearSet
      rw [BitMap.numClear_eq_card] at hroom
      obtain ⟨s, hs, hclear, hleast, hfind⟩ | ⟨hfull, _⟩ := (h.allocateLoop freeMap n).2.find_cases
      · have hloop : h.allocateLoop freeMap (n + 1) =
            ((h.allocateLoop freeMap n).1.setDataSector n s,
              (h.allocateLoop freeMap n).2.markBit s) := by
          simp only [allocateLoop, hfind]
        rw [hloop]
        exact done.succ hbits hs hclear hleast
      · have hempty : (h.allocateLoop freeMap n).2.clearSet = ∅ := by
          apply Finset.eq_empty_of_forall_notMem
          intro x hx
          obtain ⟨hlt, hxclear⟩ := BitMap.mem_clearSet.mp hx
          rw [hfull x hlt] at hxclear
          cases hxclear
        rw [hempty, Finset.card_empty] at hleft
        omega

/-- Numbers taken first fit from those from `m` on are `m, m + 1, …`. -/
theorem eq_range_of_firstFit {l : List ℕ} {m : ℕ} (hnodup : l.Nodup) (hlow : ∀ x ∈ l, m ≤ x)
    (hfirst : ∀ before a after, l = before ++ a :: after → ∀ x < a, x < m ∨ x ∈ before) :
    l = List.range' m l.length := by
  induction l generalizing m with
  | nil => rfl
  | cons a l ih =>
      obtain ⟨hnotMem, hnodup⟩ := List.nodup_cons.mp hnodup
      have hhead : a = m := by
        have hle := hlow a List.mem_cons_self
        by_contra hne
        rcases hfirst [] a l rfl m (by omega) with hlt | hmem
        · omega
        · exact absurd hmem List.not_mem_nil
      subst hhead
      rw [List.length_cons, List.range'_succ, ← ih hnodup]
      · intro x hx
        have hle := hlow x (List.mem_cons_of_mem _ hx)
        have hne : x ≠ a := fun hequal => hnotMem (hequal ▸ hx)
        omega
      · intro before b after hequal x hx
        rcases hfirst (a :: before) b after (by rw [hequal]; rfl) x hx with hlt | hmem
        · exact Or.inl (by omega)
        · rcases List.mem_cons.mp hmem with rfl | hmem
          · exact Or.inl (by omega)
          · exact Or.inr hmem

/-- A splitting of the sector list is one at some index. -/
theorem sectorList_eq_append {h : FileHeader} {n : ℕ} {before after : List ℕ} {a : ℕ}
    (hequal : h.sectorList n = before ++ a :: after) :
    before.length < n ∧ before = h.sectorList before.length ∧
      a = (h.dataSectors before.length).toNat := by
  have hlength := congrArg List.length hequal
  rw [sectorList, List.length_map, List.length_range, List.length_append, List.length_cons] at hlength
  have hlt : before.length < n := by omega
  refine ⟨hlt, ?_, ?_⟩
  · have htake := congrArg (List.take before.length) hequal
    rw [List.take_left, sectorList, ← List.map_take, List.take_range,
      Nat.min_eq_left (by omega)] at htake
    exact htake.symm
  · have hget := congrArg (fun l : List ℕ => l[before.length]?) hequal
    simpa [sectorList, hlt] using hget.symm

/-- On a map whose marked bits are the first `m`, the sectors taken follow these. -/
theorem Allocated.contiguous {h h' : FileHeader} {freeMap freeMap' : BitMap} {n m : ℕ}
    (done : Allocated h freeMap n h' freeMap')
    (hmarked : ∀ x < freeMap.numBits, freeMap.testBit x = decide (x < m)) :
    ∀ i < n, h'.dataSectors i = (m + i : ℕ) := by
  intro i hi
  have hlist : h'.sectorList n = List.range' m (h'.sectorList n).length := by
    refine eq_range_of_firstFit done.nodup (fun x hx => ?_) fun before a after hequal x hx => ?_
    · obtain ⟨hlt, hclear⟩ := done.wasClear x hx
      rw [hmarked x hlt, decide_eq_false_iff_not] at hclear
      omega
    · have hlt := (done.wasClear a (by rw [hequal]; simp)).1
      obtain ⟨hindex, hbefore, hsector⟩ := sectorList_eq_append hequal
      rw [hsector] at hx hlt
      rcases done.firstFit _ hindex x hx with hbit | hmem
      · rw [hmarked x (by omega), decide_eq_true_eq] at hbit
        exact Or.inl hbit
      · exact Or.inr (hbefore ▸ hmem)
  have hget := congrArg (fun l : List ℕ => l[i]?) hlist
  have hnonneg := done.nonneg i hi
  simp [sectorList, hi] at hget
  omega

/-- The outcome of `Allocate`. -/
theorem allocate_cases (h : FileHeader) (freeMap : BitMap) (hbits : freeMap.numBits ≤ 2 ^ 31)
    {fileSize : ℤ} (hlow : -2 ^ 31 ≤ fileSize) (hhigh : fileSize < 2 ^ 31) :
    (∃ h', h.allocate freeMap fileSize = (false, h', freeMap) ∧
        (freeMap.numClear : ℤ) < divRoundUp fileSize 128) ∨
      ∃ h₀ h' freeMap', h.allocate freeMap fileSize = (true, h', freeMap') ∧
        Allocated h₀ freeMap (divRoundUp fileSize 128).toNat h' freeMap' ∧
        h'.numBytes = fileSize ∧ h'.numSectors = divRoundUp fileSize 128 := by
  have hsectors : -2 ^ 31 ≤ divRoundUp fileSize 128 ∧ divRoundUp fileSize 128 < 2 ^ 31 := by
    have hdiv := Int.mul_tdiv_add_tmod fileSize 128
    have hless := Int.tmod_lt_of_pos fileSize (show (0 : ℤ) < 128 by norm_num)
    have hmore := Int.lt_tmod_of_pos fileSize (show (0 : ℤ) < 128 by norm_num)
    simp only [divRoundUp]
    split <;> omega
  set h₀ := (h.setNumBytes fileSize).setNumSectors (divRoundUp fileSize SectorSize) with hh₀
  have hcount : h₀.numSectors = divRoundUp fileSize 128 :=
    numSectors_setNumSectors _ hsectors.1 hsectors.2
  have hbytes : h₀.numBytes = fileSize := by
    rw [hh₀, numBytes_setNumSectors, numBytes_setNumBytes _ hlow hhigh]
  by_cases hroom : (freeMap.numClear : ℤ) < h₀.numSectors
  · exact Or.inl ⟨h₀, if_pos hroom, by rwa [← hcount]⟩
  · have done := allocated_allocateLoop h₀ freeMap hbits h₀.numSectors.toNat (by omega)
    have hnumBytes := Mem.int32_congr (a := 0) (b := 0)
      fun k (hk : k < 4) => done.frame (0 + k) (by omega)
    have hnumSectors := Mem.int32_congr (a := 4) (b := 4)
      fun k (hk : k < 4) => done.frame (4 + k) (by omega)
    have hloop : h.allocate freeMap fileSize = (true, h₀.allocateLoop freeMap h₀.numSectors.toNat) :=
      if_neg hroom
    rw [hcount] at hloop done hnumBytes hnumSectors
    exact Or.inr ⟨h₀, _, _, hloop, done, hnumBytes.trans hbytes, hnumSectors.trans hcount⟩

/-- `Allocate` on a map whose marked bits are the first `m`. -/
theorem allocate_contiguous (h : FileHeader) (freeMap : BitMap) (fileSize : ℤ) {m n : ℕ}
    (hbits : freeMap.numBits ≤ 2 ^ 31) (hlow : -2 ^ 31 ≤ fileSize) (hhigh : fileSize < 2 ^ 31)
    (hmarked : ∀ x < freeMap.numBits, freeMap.testBit x = decide (x < m))
    (hn : divRoundUp fileSize 128 = n) (hroom : m + n ≤ freeMap.numBits) :
    ∃ h' freeMap', h.allocate freeMap fileSize = (true, h', freeMap') ∧
      h'.numBytes = fileSize ∧ h'.numSectors = n ∧ (∀ i < n, h'.dataSectors i = (m + i : ℕ)) ∧
      freeMap'.numBits = freeMap.numBits ∧
      ∀ x < freeMap.numBits, freeMap'.testBit x = decide (x < m + n) := by
  obtain ⟨h', -, hfull⟩ | ⟨h₀, h', freeMap', halloc, done, hnumBytes, hnumSectors⟩ :=
    h.allocate_cases freeMap hbits hlow hhigh
  · rw [BitMap.numClear_of_marked hmarked] at hfull
    omega
  · rw [hn, Int.toNat_natCast] at done
    have hsectors := done.contiguous hmarked
    refine ⟨h', freeMap', halloc, hnumBytes, hnumSectors.trans hn, hsectors, done.numBits,
      fun x hx => ?_⟩
    have hmem : x ∈ h'.sectorList n ↔ m ≤ x ∧ x < m + n := by
      rw [mem_sectorList]
      constructor
      · rintro ⟨i, hi, rfl⟩
        rw [hsectors i hi]
        omega
      · rintro ⟨hle, hlt⟩
        exact ⟨x - m, by omega, by rw [hsectors _ (by omega)]; omega⟩
    rw [done.marks, hmarked x hx, ← Bool.decide_or, decide_eq_decide, hmem]
    omega

/-- `Deallocate` returns only when every listed sector was in range and marked,
and then exactly these are cleared. -/
theorem deallocateLoop_eq_ok {h : FileHeader} {freeMap freeMap' : BitMap} {n : ℕ}
    (hok : h.deallocateLoop freeMap n = .ok freeMap') :
    freeMap'.numBits = freeMap.numBits ∧
      (∀ i < n, 0 ≤ h.dataSectors i ∧ h.dataSectors i < freeMap.numBits) ∧
      ∀ x, freeMap'.testBit x = (freeMap.testBit x && decide (x ∉ h.sectorList n)) := by
  induction n generalizing freeMap' with
  | zero =>
      cases hok
      simp [sectorList]
  | succ n ih =>
      rw [deallocateLoop, Except.bind_eq_ok] at hok
      obtain ⟨map₁, hprev, hok⟩ := hok
      obtain ⟨hbits, hrange, htest⟩ := ih hprev
      simp only [Except.bind_eq_ok, BitMap.test, BitMap.clear, BitMap.checkIndex,
        assert_eq_ok] at hok
      obtain ⟨_, _, _, _, _, hlt, hclear⟩ := hok
      cases hclear
      rw [hbits] at hlt
      refine ⟨by simpa using hbits, fun i hi => ?_, fun x => ?_⟩
      · by_cases hequal : i = n
        · rw [hequal]
          exact hlt
        · exact hrange i (by omega)
      · rw [BitMap.testBit_clearBit, htest, sectorList_succ]
        by_cases hequal : x = (h.dataSectors n).toNat <;> simp [hequal]

/-- On distinct marked sectors in range no assertion of `Deallocate` fails. -/
theorem deallocateLoop_of_marked (h : FileHeader) (freeMap : BitMap) (n : ℕ)
    (hnonneg : ∀ i < n, 0 ≤ h.dataSectors i) (hnodup : (h.sectorList n).Nodup)
    (hmarked : ∀ x ∈ h.sectorList n, x < freeMap.numBits ∧ freeMap.testBit x = true) :
    ∃ freeMap', h.deallocateLoop freeMap n = .ok freeMap' := by
  induction n with
  | zero => exact ⟨freeMap, rfl⟩
  | succ n ih =>
      rw [sectorList_succ] at hnodup hmarked
      obtain ⟨map₁, hprev⟩ := ih (fun i hi => hnonneg i (by omega))
        (List.Nodup.of_append_left hnodup)
        (fun x hx => hmarked x (List.mem_append_left _ hx))
      obtain ⟨hbits, _, htest⟩ := deallocateLoop_eq_ok hprev
      obtain ⟨hlt, hbit⟩ := hmarked (h.dataSectors n).toNat (by simp)
      have hnot : (h.dataSectors n).toNat ∉ h.sectorList n := by
        intro hmem
        have := List.disjoint_of_nodup_append hnodup hmem
        simp at this
      have hrange : 0 ≤ h.dataSectors n ∧ h.dataSectors n < map₁.numBits := by
        have := hnonneg n (by omega)
        rw [hbits]
        omega
      refine ⟨map₁.clearBit (h.dataSectors n).toNat, ?_⟩
      rw [deallocateLoop, hprev]
      simp only [Except.ok_bind, BitMap.test, BitMap.clear, map₁.checkIndex_of_lt hrange, htest,
        hbit, hnot, not_false_eq_true, decide_true, Bool.and_true]
      rfl

/-! ## Allocation as a whole -/

/-- `Allocate` takes all sectors that it records or none, and `Deallocate` gives them back. -/
def AllOrNothing (h : FileHeader) (freeMap : BitMap) (fileSize : ℤ) : Prop :=
  match h.allocate freeMap fileSize with
  | (true, h', freeMap') =>
      h'.numSectors ≤ NumDirect ∧ fileSize ≤ h'.numSectors * SectorSize ∧
        (h'.sectorList h'.numSectors.toNat).Nodup ∧
        (∀ x ∈ h'.sectorList h'.numSectors.toNat,
          x < freeMap.numBits ∧ freeMap.testBit x = false) ∧
        (∀ x, freeMap'.testBit x =
          (freeMap.testBit x || decide (x ∈ h'.sectorList h'.numSectors.toNat))) ∧
        ∃ restored, h'.deallocate freeMap' = .ok restored ∧
          restored.numBits = freeMap.numBits ∧ ∀ x, restored.testBit x = freeMap.testBit x
  | (false, _, freeMap') => freeMap' = freeMap

/-- `Deallocate` undoes an allocation. -/
theorem Allocated.deallocateLoop {h h' : FileHeader} {freeMap freeMap' : BitMap} {n : ℕ}
    (done : Allocated h freeMap n h' freeMap') :
    ∃ restored, h'.deallocateLoop freeMap' n = .ok restored ∧
      restored.numBits = freeMap.numBits ∧ ∀ x, restored.testBit x = freeMap.testBit x := by
  obtain ⟨restored, hrestored⟩ := h'.deallocateLoop_of_marked freeMap' n done.nonneg done.nodup
    fun x hx => ⟨by rw [done.numBits]; exact (done.wasClear x hx).1,
      by rw [done.marks, decide_eq_true hx, Bool.or_true]⟩
  obtain ⟨hbits, -, htest⟩ := deallocateLoop_eq_ok hrestored
  refine ⟨restored, hrestored, hbits.trans done.numBits, fun x => ?_⟩
  rw [htest, done.marks]
  by_cases hx : x ∈ h'.sectorList n
  · rw [(done.wasClear x hx).2]
    simp [hx]
  · simp [hx]

theorem le_divRoundUp_mul (fileSize : ℤ) : fileSize ≤ divRoundUp fileSize 128 * 128 := by
  have hdiv := Int.mul_tdiv_add_tmod fileSize 128
  have hless := Int.tmod_lt_of_pos fileSize (show (0 : ℤ) < 128 by norm_num)
  rw [divRoundUp]
  split <;> omega

theorem divRoundUp_le_numDirect {fileSize : ℤ} :
    divRoundUp fileSize 128 ≤ NumDirect ↔ fileSize ≤ MaxFileSize := by
  have hdiv := Int.mul_tdiv_add_tmod fileSize 128
  have hless := Int.tmod_lt_of_pos fileSize (show (0 : ℤ) < 128 by norm_num)
  have hmore := Int.lt_tmod_of_pos fileSize (show (0 : ℤ) < 128 by norm_num)
  rw [divRoundUp, MaxFileSize, NumDirect, SectorSize]
  split <;> omega

/-- **Allocation is all or nothing**, as long as the header has room for what the disk has. -/
theorem allOrNothing_iff (h : FileHeader) (freeMap : BitMap) (hbits : freeMap.numBits ≤ 2 ^ 31)
    (fileSize : ℤ) (hlow : -2 ^ 31 ≤ fileSize) (hhigh : fileSize < 2 ^ 31) :
    h.AllOrNothing freeMap fileSize ↔
      fileSize ≤ MaxFileSize ∨ (freeMap.numClear : ℤ) < divRoundUp fileSize SectorSize := by
  obtain ⟨h', halloc, hfull⟩ | ⟨h₀, h', freeMap', halloc, done, hnumBytes, hnumSectors⟩ :=
    h.allocate_cases freeMap hbits hlow hhigh
  · rw [AllOrNothing, halloc]
    exact iff_of_true rfl (.inr hfull)
  · have hroom : ¬ (freeMap.numClear : ℤ) < divRoundUp fileSize SectorSize := by
      have hcard := done.card_clearSet
      show ¬ (freeMap.numClear : ℤ) < divRoundUp fileSize 128
      rw [BitMap.numClear_eq_card]
      omega
    rw [AllOrNothing, halloc, or_iff_left hroom, ← divRoundUp_le_numDirect]
    dsimp only
    rw [hnumSectors, deallocate, hnumSectors]
    refine ⟨fun hall => hall.1, fun hdirect => ⟨hdirect, le_divRoundUp_mul fileSize, done.nodup,
      done.wasClear, done.marks, done.deallocateLoop⟩⟩

/-- The map of a disk without files. -/
def emptyMap : BitMap := .new (fun _ => 0) 1024

theorem numBits_emptyMap : emptyMap.numBits = 1024 := BitMap.numBits_new _ _

/-- A file of 200 bytes on a disk with free sectors. -/
theorem allOrNothing_iff_small :
    emptyMap.numBits ≤ 2 ^ 31 ∧ (new fun _ => 0).AllOrNothing emptyMap 200 := by
  have hbits : emptyMap.numBits ≤ 2 ^ 31 := by
    rw [numBits_emptyMap]
    decide
  have hsmall : (200 : ℤ) ≤ MaxFileSize := by decide
  refine ⟨hbits, ?_⟩
  rw [allOrNothing_iff _ emptyMap hbits 200 (by omega) (by omega)]
  exact .inl hsmall

/-- On an empty disk a file of one byte more than `MaxFileSize` gets a sector for which the header
has no room. -/
theorem not_allOrNothing_large : ¬ (new fun _ => 0).AllOrNothing emptyMap 3841 := by
  have hbits := numBits_emptyMap
  have hclear : ∀ x < emptyMap.numBits, emptyMap.testBit x = decide (x < 0) := by
    intro x hx
    rw [numBits_emptyMap] at hx
    exact BitMap.testBit_new _ hx
  have hsectors : divRoundUp 3841 128 = (31 : ℕ) := by decide
  obtain ⟨h', freeMap', halloc, -, hnumSectors, -⟩ := (new fun _ => 0).allocate_contiguous
    emptyMap 3841 (by omega) (by omega) (by omega) hclear hsectors (by omega)
  rw [AllOrNothing, halloc]
  rintro ⟨hdirect, -⟩
  rw [hnumSectors] at hdirect
  exact absurd hdirect (by decide)

end FileHeader

end Nachos
